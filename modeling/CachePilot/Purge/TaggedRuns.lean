import CachePilot.Purge.TaggedCache

/-!
# Runs of purges

What runs of events come to, read off the cached responses that the files and the index
stand for.

Results:
* `purges_any_order`: purges of one mode, by tags or of all files, and hard ones by key,
  leave the same in any order and however often they are repeated: the sweep of what any
  of them selects;
* `unselected_survives`: a response that no event of a run is about is left as it is;
* `soft_exact_detaches`: behind a soft exact purge the file that it opened has the tags of
  the purge's own answer, and a purge by one of its former tags passes it over.
-/

namespace CachePilot
open NgxString

variable {N : Nginx} {L : HeaderLayout} {access : IndexAccess} {s s' : Pilot} {call : PurgeCall}
  {c : Closing} {zoneName p : Bytes} {soft : Bool} {files : Files L} {m : TaggedCache} {i : CachedItem}

/-! ## The log phase of a purge -/

theorem PurgeCall.live_name (access : IndexAccess) (call : PurgeCall) (c : Closing) :
    (call.live access c).name = call.fileName c := rfl

theorem live_name_opened {o : OpenedCache} (hkind : call.kind = .exact) (hopened : call.opened = .opened o)
    (access : IndexAccess) (c : Closing) : (call.live access c).name = o.name := by
  rw [PurgeCall.live_name]
  unfold PurgeCall.fileName
  rw [hkind, hopened]

/-- Only an exact purge has a file name. -/
theorem live_name_eq_nil (hkind : call.kind ≠ .exact) (access : IndexAccess) (c : Closing) :
    (call.live access c).name = [] := by
  rw [PurgeCall.live_name]
  unfold PurgeCall.fileName
  cases hk : call.kind with
  | exact => exact absurd hk hkind
  | _ => rfl

theorem log_of_nil {r : LiveRequest} (h : r.name = []) (m : TaggedCache) : r.log m = m := by
  unfold LiveRequest.log LiveRequest.indexes
  rw [h]
  rfl

/-- A response that is not cached has no tags. -/
theorem log_of_none {r : LiveRequest} (h : m r.name = none) : r.log m = m := by
  unfold LiveRequest.log TaggedCache.retag
  rw [h, Option.map_none, ← h, Function.update_eq_self, ite_self]

theorem log_other {r : LiveRequest} (h : r.indexes = true → p ≠ r.name) : r.log m p = m p := by
  unfold LiveRequest.log
  split
  · next hindexes => exact Function.update_of_ne (h hindexes) ..
  · rfl

/-! ## Purges of one mode -/

/-- A purge of the mode that selects by tags, or everything, or by the key of a file that
it opened and deletes. -/
structure PurgeCall.Plain (soft : Bool) (call : PurgeCall) : Prop where
  mode : call.mode = soft
  selects : call.kind = .tag ∨ call.kind = .all ∨
    call.kind = .exact ∧ soft = false ∧ ∃ o, call.opened = .opened o

/-- What it picks does not depend on what is cached. -/
def PurgeCall.picks (call : PurgeCall) : Bytes → CachedItem → Prop :=
  TaggedCache.Picks (fun _ => none) call.selector

namespace PurgeCall.Plain

theorem picks_eq (h : call.Plain soft) (m : TaggedCache) : m.Picks call.selector = call.picks := by
  unfold PurgeCall.picks PurgeCall.selector
  rcases h.selects with hkind | hkind | ⟨hkind, -, o, ho⟩
  · rw [hkind]
    rfl
  · rw [hkind]
    rfl
  · rw [hkind, ho]
    rfl

/-- Its log phase has no cached response to index. -/
theorem step (h : call.Plain soft) (access : IndexAccess) (c : Closing) (m : TaggedCache) :
    (CacheEvent.purge (L := L) call c).step access m =
      Sweep.sweep (TaggedCache.purged soft) call.picks m := by
  have hpurge : m.purge call.mode call.selector =
      Sweep.sweep (TaggedCache.purged soft) call.picks m := by
    unfold TaggedCache.purge
    rw [h.mode, h.picks_eq]
  show (call.live access c).log (m.purge call.mode call.selector) = _
  rw [hpurge]
  rcases h.selects with hkind | hkind | ⟨hkind, rfl, o, ho⟩
  · exact log_of_nil (live_name_eq_nil (by rw [hkind]; decide) access c) _
  · exact log_of_nil (live_name_eq_nil (by rw [hkind]; decide) access c) _
  · refine log_of_none ?_
    rw [live_name_opened hkind ho]
    cases hm : m o.name with
    | none => exact Sweep.sweep_none hm
    | some i =>
      refine Sweep.sweep_picked hm ?_
      unfold PurgeCall.picks PurgeCall.selector
      rw [hkind, ho]
      exact Or.inl rfl

end PurgeCall.Plain

/-- A purge request with its log phase. -/
abbrev purgeEvents (L : HeaderLayout) (purges : List (PurgeCall × Closing)) : List (CacheEvent L) :=
  purges.map fun purge => .purge purge.1 purge.2

/-- Purges of one mode are the sweep of what any of them picks. -/
theorem foldl_purges {purges : List (PurgeCall × Closing)} (hplain : ∀ purge ∈ purges, purge.1.Plain soft)
    (access : IndexAccess) (m : TaggedCache) :
    (purgeEvents L purges).foldl (fun m e => e.step access m) m =
      Sweep.sweep (TaggedCache.purged soft) (fun p i => ∃ purge ∈ purges, purge.1.picks p i) m := by
  have hsteps : (purgeEvents L purges).foldl (fun m e => e.step access m) m =
      purges.foldl (fun m purge => Sweep.sweep (TaggedCache.purged soft) purge.1.picks m) m := by
    rw [List.foldl_map]
    exact List.foldl_ext _ _ _ fun m purge hmem => (hplain purge hmem).step access purge.2 m
  exact hsteps.trans
    (Sweep.sweep_foldl (TaggedCache.purged_idempotent soft) (fun purge => purge.1.picks) purges m)

/-- Purges of one mode leave the same in any order. -/
theorem purges_any_order (N : Nginx) (L : HeaderLayout) (access : IndexAccess) (zoneName : Bytes)
    (haccess : access.Serves zoneName) (soft : Bool) (purges purges' : List (PurgeCall × Closing))
    (hplain : ∀ purge ∈ purges, purge.1.Plain soft) (hsame : ∀ purge, purge ∈ purges ↔ purge ∈ purges')
    (s s1 s2 : Pilot) (files : Files L) (h : Synced N zoneName files s)
    (hrun : CacheRun N L access zoneName (purgeEvents L purges) s s1)
    (hrun' : CacheRun N L access zoneName (purgeEvents L purges') s s2) :
    ∃ files1 files2 : Files L, Synced N zoneName files1 s1 ∧ Synced N zoneName files2 s2 ∧
      itemsOf files1 s1.shm zoneName = Sweep.sweep (TaggedCache.purged soft)
        (fun p i => ∃ purge ∈ purges, purge.1.picks p i) (itemsOf files s.shm zoneName) ∧
      itemsOf files2 s2.shm zoneName = itemsOf files1 s1.shm zoneName := by
  have hplain' : ∀ purge ∈ purges', purge.1.Plain soft :=
    fun purge hmem => hplain purge ((hsame purge).mpr hmem)
  obtain ⟨files1, h1, hitems1⟩ := hrun.refines haccess h
  obtain ⟨files2, h2, hitems2⟩ := hrun'.refines haccess h
  rw [foldl_purges hplain] at hitems1
  rw [foldl_purges hplain'] at hitems2
  refine ⟨files1, files2, h1, h2, hitems1, hitems2.trans (Eq.trans ?_ hitems1.symm)⟩
  exact Sweep.sweep_congr fun p i _ =>
    exists_congr fun purge => and_congr_left fun _ => (hsame purge).symm

/-- A purge by the tag `t` and one of all files. -/
def samplePurges : List (PurgeCall × Closing) :=
  [(sampleCall true, sampleClosing), (sampleAll, sampleClosing)]

theorem samplePurges_plain : ∀ purge ∈ samplePurges, purge.1.Plain false := by
  intro purge hmem
  rcases List.mem_cons.mp hmem with rfl | hmem
  · exact ⟨by decide +kernel, Or.inl (by decide +kernel)⟩
  · obtain rfl := List.mem_singleton.mp hmem
    exact ⟨by decide +kernel, Or.inr (Or.inl (by decide +kernel))⟩

/-- The files that a purge leaves are still listed. -/
theorem samplePurged_listed (hcall : call.Unhindered syncedState.cache.disk)
    (hopens : call.OpensFile syncedState) (p : Bytes)
    (hp : ((samplePurged call syncedState).cache.disk p).isSome = true) : p ∈ sampleWalk.listing := by
  obtain ⟨files', hsynced, hkept, -⟩ :=
    run_purges_items syncedState_synced hcall sampleAccess_serves hopens
  have hdisk : (samplePurged call syncedState).cache.disk = files'.disk := by
    show (protocolHandler .reference .reference sampleAccess call syncedState).state.cache.disk = _
    rw [(protocolHandler_run fun _ => hcall.reads).2]
    exact hsynced.disk
  rw [hdisk] at hp
  unfold Files.disk at hp
  rw [Option.isSome_map] at hp
  obtain ⟨f', hf'⟩ := Option.isSome_iff_exists.mp hp
  obtain ⟨f, hf, -⟩ := hkept p f' hf'
  refine variantState_listed p ?_
  show (variantFiles.disk p).isSome = true
  rw [Files.disk_eq_some.mpr hf]
  rfl

theorem sampleCall_unhindered {call : PurgeCall} (hcall : call = sampleCall true ∨ call = sampleAll) :
    call.Unhindered syncedState.cache.disk ∧ call.OpensFile syncedState := by
  rcases hcall with rfl | rfl
  · exact ⟨⟨rfl, ⟨rfl, fun _ => rfl⟩, variantState_listed, rfl, fun _ => rfl, by decide, rfl, rfl, rfl⟩,
      fun hkind => absurd hkind (by decide +kernel)⟩
  · exact ⟨⟨rfl, ⟨rfl, fun _ => rfl⟩, variantState_listed, rfl, fun _ => rfl, by decide, rfl, rfl, rfl⟩,
      fun hkind => absurd hkind (by decide +kernel)⟩

theorem purges_any_order_sample : ∃ files1 files2 : Files .reference,
    Synced .reference [122] files1 (samplePurged sampleAll (samplePurged (sampleCall true) syncedState)) ∧
    Synced .reference [122] files2 (samplePurged (sampleCall true) (samplePurged sampleAll syncedState)) ∧
    itemsOf files1 (samplePurged sampleAll (samplePurged (sampleCall true) syncedState)).shm [122] =
      Sweep.sweep (TaggedCache.purged false) (fun p i => ∃ purge ∈ samplePurges, purge.1.picks p i)
        (itemsOf variantFiles syncedState.shm [122]) ∧
    itemsOf files2 (samplePurged (sampleCall true) (samplePurged sampleAll syncedState)).shm [122] =
      itemsOf files1 (samplePurged sampleAll (samplePurged (sampleCall true) syncedState)).shm [122] :=
  purges_any_order .reference .reference sampleAccess [122] sampleAccess_serves false samplePurges
    samplePurges.reverse samplePurges_plain (fun _ => List.mem_reverse.symm) syncedState _ _ variantFiles
    syncedState_synced
    (.cons (sampleCall_works variantState_listed (Or.inl rfl)) (samplePurged_next _ _)
      (.cons (sampleCall_works (samplePurged_listed (sampleCall_unhindered (Or.inl rfl)).1
        (sampleCall_unhindered (Or.inl rfl)).2) (Or.inr rfl)) (samplePurged_next _ _)
        (.nil _)))
    (.cons (sampleCall_works variantState_listed (Or.inr rfl)) (samplePurged_next _ _)
      (.cons (sampleCall_works (samplePurged_listed (sampleCall_unhindered (Or.inr rfl)).1
        (sampleCall_unhindered (Or.inr rfl)).2) (Or.inl rfl)) (samplePurged_next _ _)
        (.nil _)))

/-! ## What a run leaves alone -/

/-- An event that is not about a cached response: a purge that cannot select it, a
response that is stored, or indexed, elsewhere, or the eviction of another file. A purge
by prefix must not match it in either way. -/
def CacheEvent.Spares (access : IndexAccess) (p : Bytes) (i : CachedItem) : CacheEvent L → Prop
  | .purge call c =>
    (∀ m : TaggedCache, ¬ m.Picks call.selector p i) ∧
      ((call.live access c).indexes = true → p ≠ call.fileName c)
  | .stored r _ => p ≠ r.name
  | .unstored r => r.indexes = true → p ≠ r.name
  | .evicted path => p ≠ path

theorem CacheEvent.Spares.step {e : CacheEvent L} (h : e.Spares access p i) (hi : m p = some i) :
    e.step access m p = some i := by
  cases e with
  | purge call c =>
    exact (log_other h.2).trans ((Sweep.sweep_left hi (h.1 m)).trans hi)
  | stored r f => exact (Function.update_of_ne h ..).trans hi
  | unstored r => exact (log_other h).trans hi
  | evicted path => exact (Function.update_of_ne h ..).trans hi

theorem foldl_spares {events : List (CacheEvent L)} (hspares : ∀ e ∈ events, e.Spares access p i)
    (hi : m p = some i) : events.foldl (fun m e => e.step access m) m p = some i := by
  induction events generalizing m with
  | nil => exact hi
  | cons e events ih =>
    exact ih (fun e' h => hspares e' (List.mem_cons_of_mem e h))
      ((hspares e List.mem_cons_self).step hi)

/-- A cached response that no event of a run is about is left as it is, with its tags. -/
theorem unselected_survives (N : Nginx) (L : HeaderLayout) (access : IndexAccess) (zoneName : Bytes)
    (haccess : access.Serves zoneName) (events : List (CacheEvent L)) (s s' : Pilot) (files : Files L)
    (h : Synced N zoneName files s) (hrun : CacheRun N L access zoneName events s s') (p : Bytes)
    (f : CacheFile L) (hf : files p = some f)
    (hspares : ∀ e ∈ events, e.Spares access p (itemOf f (toMap s.shm zoneName p))) :
    ∃ f' : CacheFile L, s'.cache.disk p = some f'.bytes ∧ f'.key = f.key ∧ f'.response = f.response ∧
      L.validSec f'.header = L.validSec f.header ∧
      toMap s'.shm zoneName p = toMap s.shm zoneName p := by
  obtain ⟨files', h', hitems⟩ := hrun.refines haccess h
  have hitem : itemsOf files' s'.shm zoneName p = some (itemOf f (toMap s.shm zoneName p)) := by
    rw [hitems]
    exact foldl_spares hspares (itemsOf_some hf)
  obtain ⟨f', hf', heq⟩ := itemsOf_eq_some.mp hitem
  obtain ⟨hkey, hresponse, hvalid, htags⟩ := CachedItem.mk.inj heq
  refine ⟨f', ?_, hkey, hresponse, hvalid, ?_⟩
  · rw [h'.disk]
    exact Files.disk_eq_some.mpr hf'
  · obtain ⟨tags, hentry⟩ := h.indexed p f hf
    obtain ⟨tags', hentry'⟩ := h'.indexed p f' hf'
    rw [hentry, hentry'] at htags ⊢
    change tags' = tags at htags
    rw [hkey, htags]

theorem unselected_survives_sample : ∃ f' : CacheFile .reference,
    (samplePurged (sampleCall true) syncedState).cache.disk [98] = some f'.bytes ∧
      f'.key = (sampleFile [98]).key ∧ f'.response = (sampleFile [98]).response ∧
      HeaderLayout.reference.validSec f'.header = HeaderLayout.reference.validSec (sampleFile [98]).header ∧
      toMap (samplePurged (sampleCall true) syncedState).shm [122] [98] =
        toMap syncedState.shm [122] [98] := by
  refine unselected_survives .reference .reference sampleAccess [122] sampleAccess_serves
    [.purge (sampleCall true) sampleClosing] syncedState _ variantFiles syncedState_synced
    (.cons (sampleCall_works variantState_listed (Or.inl rfl)) (samplePurged_next _ _) (.nil _)) [98]
    (sampleFile [98]) rfl fun e he => ?_
  obtain rfl := List.mem_singleton.mp he
  have hkind : (sampleCall true).kind = .tag := by decide +kernel
  refine ⟨fun m => ?_, fun h => absurd h (by decide +kernel)⟩
  unfold PurgeCall.selector
  rw [hkind]
  show ¬ ∃ t ∈ keepTags [] (sampleCall true).tokens, t ∈ ((toMap syncedState.shm [122] [98]).map Prod.snd).getD []
  decide +kernel

/-! ## Soft exact purges -/

/-- A purge by tags, none of which is among these. -/
def CacheEvent.MissesTags (tags : List Bytes) : CacheEvent L → Prop
  | .purge call _ => call.kind = .tag ∧ ∀ t ∈ keepTags [] call.tokens, t ∉ tags
  | _ => False

theorem CacheEvent.MissesTags.spares {e : CacheEvent L} (h : e.MissesTags i.tags) (access : IndexAccess)
    (p : Bytes) : e.Spares access p i := by
  cases e with
  | purge call c =>
    obtain ⟨hkind, hmisses⟩ := h
    refine ⟨fun m => ?_, fun hindexes => ?_⟩
    · unfold PurgeCall.selector
      rw [hkind]
      rintro ⟨t, ht, htag⟩
      exact hmisses t ht htag
    · have hname := live_name_eq_nil (by rw [hkind]; decide) access c
      unfold LiveRequest.indexes at hindexes
      rw [hname] at hindexes
      exact nomatch hindexes
  | stored _ _ => exact h.elim
  | unstored _ => exact h.elim
  | evicted _ => exact h.elim

/-- What a soft exact purge makes of the file that it opened. -/
theorem step_soft_exact {o : OpenedCache} (hkind : call.kind = .exact) (hopened : call.opened = .opened o)
    (hsoft : call.mode = true) (hindexes : (call.live access c).indexes = true)
    (hi : m o.name = some i) : (CacheEvent.purge (L := L) call c).step access m o.name =
      some { i with validSec := 0, tags := (call.live access c).tags } := by
  have hpicked : m.Picks call.selector o.name i := by
    unfold PurgeCall.selector
    rw [hkind, hopened]
    exact Or.inl rfl
  have hpurged : m.purge call.mode call.selector o.name = some { i with validSec := 0 } := by
    rw [hsoft]
    exact Sweep.sweep_picked hi hpicked
  show (call.live access c).log (m.purge call.mode call.selector) o.name = _
  unfold LiveRequest.log TaggedCache.retag
  rw [if_pos hindexes, live_name_opened hkind hopened, Function.update_self, hpurged]
  rfl

/-- Behind a soft exact purge whose log phase writes, the file that it opened carries the
tags of the purge's answer. Tag purges by any other tags, hard ones too, leave it, whatever
it was stored with. -/
theorem soft_exact_detaches (N : Nginx) (L : HeaderLayout) (access : IndexAccess) (zoneName : Bytes)
    (haccess : access.Serves zoneName) (call : PurgeCall) (c : Closing) (o : OpenedCache)
    (hkind : call.kind = .exact) (hopened : call.opened = .opened o) (hsoft : call.mode = true)
    (hindexes : (call.live access c).indexes = true) (purges : List (CacheEvent L))
    (hpurges : ∀ e ∈ purges, e.MissesTags (call.live access c).tags) (s s' : Pilot)
    (files : Files L) (h : Synced N zoneName files s) (f : CacheFile L) (hf : files o.name = some f)
    (hrun : CacheRun N L access zoneName (.purge call c :: purges) s s') :
    ∃ f' : CacheFile L, s'.cache.disk o.name = some f'.bytes ∧ f'.key = f.key ∧
      f'.response = f.response ∧ f'.Expired ∧
      toMap s'.shm zoneName o.name = some (f.key, (call.live access c).tags) := by
  obtain ⟨files', h', hitems⟩ := hrun.refines haccess h
  have hitem := congrFun hitems o.name
  rw [List.foldl_cons, foldl_spares (fun e he => (hpurges e he).spares access o.name)
    (step_soft_exact hkind hopened hsoft hindexes (itemsOf_some hf))] at hitem
  obtain ⟨f', hf', heq⟩ := itemsOf_eq_some.mp hitem
  obtain ⟨hkey, hresponse, hvalid, htags⟩ := CachedItem.mk.inj heq
  refine ⟨f', ?_, hkey, hresponse, hvalid, ?_⟩
  · rw [h'.disk]
    exact Files.disk_eq_some.mpr hf'
  · obtain ⟨tags', hentry'⟩ := h'.indexed o.name f' hf'
    rw [hentry'] at htags ⊢
    change tags' = _ at htags
    rw [hkey, htags]
    rfl

/-- The file `a`, opened. -/
def sampleResolved : OpenedCache := ⟨[97], 0, false, 0⟩

/-- A soft purge of the key `k` that opens it. -/
def sampleSoft : PurgeCall :=
  { sampleExact with purge := ⟨some true, some true, some [], true, false⟩, opened := .opened sampleResolved }

theorem sampleSoft_unhindered : sampleSoft.Unhindered syncedState.cache.disk ∧
    sampleSoft.OpensFile syncedState := by
  refine ⟨⟨rfl, ⟨rfl, fun _ => rfl⟩, variantState_listed, rfl, fun _ => rfl, by decide, rfl, rfl, rfl⟩, ?_⟩
  intro _ o ho
  obtain rfl := CacheOpen.opened.inj ho
  exact ⟨rfl, fun _ => rfl⟩

theorem sampleSoft_works :
    (CacheEvent.purge (L := .reference) sampleSoft sampleClosing).Works sampleAccess [122] syncedState := by
  refine ⟨sampleSoft_unhindered.1, sampleSoft_unhindered.2, fun _ => ⟨⟨rfl, rfl, by decide⟩, fun f hf => ?_⟩⟩
  have hown : variantFiles [97] = some f := Files.disk_eq_some.mp hf
  obtain rfl := Option.some.inj hown
  rfl

/-- The tag `t` of the file `a` is gone, and a hard purge by it leaves the file. -/
theorem soft_exact_detaches_sample :
    ∃ f' : CacheFile .reference,
      (samplePurged (sampleCall true) (samplePurged sampleSoft syncedState)).cache.disk
        sampleResolved.name = some f'.bytes ∧ f'.key = (sampleFile [97]).key ∧ f'.response = (sampleFile [97]).response ∧
      f'.Expired ∧ toMap (samplePurged (sampleCall true) (samplePurged sampleSoft syncedState)).shm
        [122] sampleResolved.name = some ((sampleFile [97]).key, (sampleSoft.live sampleAccess sampleClosing).tags) := by
  have hmisses : ∀ e ∈ [CacheEvent.purge (L := .reference) (sampleCall true) sampleClosing],
      e.MissesTags (sampleSoft.live sampleAccess sampleClosing).tags := by
    intro e he
    obtain rfl := List.mem_singleton.mp he
    exact ⟨by decide +kernel, by decide +kernel⟩
  have hrun : CacheRun .reference .reference sampleAccess [122]
      [.purge sampleSoft sampleClosing, .purge (sampleCall true) sampleClosing] syncedState
      (samplePurged (sampleCall true) (samplePurged sampleSoft syncedState)) :=
    .cons sampleSoft_works (samplePurged_next _ _)
      (.cons (sampleCall_works (samplePurged_listed sampleSoft_unhindered.1 sampleSoft_unhindered.2)
        (Or.inl rfl)) (samplePurged_next _ _) (.nil _))
  exact soft_exact_detaches .reference .reference sampleAccess [122] sampleAccess_serves sampleSoft
    sampleClosing sampleResolved (by decide +kernel) rfl (by decide +kernel) (by decide +kernel)
    [.purge (sampleCall true) sampleClosing] hmisses syncedState _ variantFiles syncedState_synced
    (sampleFile [97]) rfl hrun

end CachePilot
