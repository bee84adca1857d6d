import CachePilot.Purge.Idempotent

/-!
# What a purge request sweeps

A request for which nothing fails purges the files that it selects, in either mode. It
leaves the other files, and the entries of all files that are left.

Results:
* `Sweeps`: a purge of the files that a predicate selects;
* `run_sweeps_tag`, `run_sweeps_all`, `run_sweeps_wildcard`, `run_sweeps_exact`: what
  each kind of request selects.
-/

namespace CachePilot
open NgxString

variable {N : Nginx} {L : HeaderLayout} {access : IndexAccess} {r : PurgeRequest} {s : Pilot}
  {call : PurgeCall} {zoneName path p : Bytes} {soft : Bool} {files files' files'' : Files L}
  {shm shm' shm'' : Shm} {sel sel' : Bytes → Prop}

/-! ## Sweeps -/

/-- What the purge of a file leaves of it: nothing, or in a soft purge the key and the
response, in a file that is expired. -/
def PurgedTo (soft : Bool) (f f' : Option (CacheFile L)) : Prop :=
  if soft then
    Option.Rel (fun g g' => g'.key = g.key ∧ g'.response = g.response ∧ g'.Expired) f f'
  else f' = none

/-- The files that are selected are purged, the others are as they were. The index still
has the entries of the files that are left. -/
structure Sweeps (N : Nginx) (zoneName : Bytes) (soft : Bool) (sel : Bytes → Prop) (files : Files L)
    (shm : Shm) (files' : Files L) (shm' : Shm) : Prop where
  own : ∀ p, sel p → PurgedTo soft (files p) (files' p)
  other : ∀ p, ¬ sel p → files' p = files p
  index : IndexOk N shm'
  entries : ∀ p, (files' p).isSome = true → toMap shm' zoneName p = toMap shm zoneName p
  ready : zoneReady shm' zoneName = zoneReady shm zoneName

namespace PurgedTo

theorem absent (soft : Bool) : PurgedTo soft (none : Option (CacheFile L)) none := by
  cases soft with
  | false => exact rfl
  | true => exact Option.Rel.none

/-- A file that is left is the expired one. -/
theorem left {f : Option (CacheFile L)} {g' : CacheFile L} (h : PurgedTo soft f (some g')) :
    soft = true ∧ ∃ g, f = some g ∧ g'.key = g.key ∧ g'.response = g.response ∧ g'.Expired := by
  unfold PurgedTo at h
  cases soft with
  | false => exact nomatch h
  | true =>
    cases h with
    | some hg => exact ⟨rfl, _, rfl, hg⟩

theorem trans {f f' f'' : Option (CacheFile L)} (h : PurgedTo soft f f') (h' : PurgedTo soft f' f'') :
    PurgedTo soft f f'' := by
  unfold PurgedTo at h h' ⊢
  cases soft with
  | false => exact h'
  | true =>
    cases h with
    | none =>
      cases h'
      exact Option.Rel.none
    | some hg =>
      cases h' with
      | some hg' => exact .some ⟨hg'.1.trans hg.1, hg'.2.1.trans hg.2.1, hg'.2.2⟩

end PurgedTo

theorem purge_purgedTo (soft : Bool) (path : Bytes) (files : Files L) :
    PurgedTo soft (files path) (files.purge soft path path) := by
  unfold Files.purge PurgedTo
  rw [Function.update_self]
  cases soft with
  | false => exact rfl
  | true =>
    simp only [if_true]
    cases files path with
    | none => exact .none
    | some f => exact .some ⟨rfl, rfl, f.expired_expire⟩

namespace Sweeps

theorem nothing (h : IndexOk N shm) (zoneName : Bytes) (soft : Bool) (files : Files L) :
    Sweeps N zoneName soft (fun _ => False) files shm files shm where
  own _ h := h.elim
  other _ _ := rfl
  index := h
  entries _ _ := rfl
  ready := rfl

/-- A file that is left was there, with its key and its response. -/
theorem kept {f' : CacheFile L} (h : Sweeps N zoneName soft sel files shm files' shm')
    (hf' : files' p = some f') :
    ∃ f, files p = some f ∧ f'.key = f.key ∧ f'.response = f.response := by
  rcases Classical.em (sel p) with hp | hp
  · have hown := h.own p hp
    rw [hf'] at hown
    obtain ⟨-, f, hf, hkey, hresponse, -⟩ := hown.left
    exact ⟨f, hf, hkey, hresponse⟩
  · rw [h.other p hp] at hf'
    exact ⟨f', hf', rfl, rfl⟩

theorem isSome (h : Sweeps N zoneName soft sel files shm files' shm')
    (hp : (files' p).isSome = true) : (files p).isSome = true := by
  obtain ⟨f', hf'⟩ := Option.isSome_iff_exists.mp hp
  obtain ⟨f, hf, -⟩ := h.kept hf'
  rw [hf]
  rfl

/-- What is selected beside the files does not matter. -/
theorem congr (h : Sweeps N zoneName soft sel files shm files' shm')
    (hsel : ∀ p, (files p).isSome = true → (sel p ↔ sel' p)) :
    Sweeps N zoneName soft sel' files shm files' shm' := by
  -- where there is no file, there is none afterwards
  have hnone : ∀ p, (files p).isSome = false → files' p = none := by
    intro p hp
    cases hf : files' p with
    | none => rfl
    | some f' =>
      have hsome := h.isSome (p := p) (by rw [hf]; rfl)
      rw [hp] at hsome
      exact nomatch hsome
  refine ⟨fun p hp => ?_, fun p hp => ?_, h.index, h.entries, h.ready⟩
  · cases hs : (files p).isSome with
    | true => exact h.own p ((hsel p hs).mpr hp)
    | false =>
      rw [hnone p hs, Option.isSome_eq_false_iff.mp hs |> Option.isNone_iff_eq_none.mp]
      exact .absent soft
  · cases hs : (files p).isSome with
    | true => exact h.other p (mt (hsel p hs).mp hp)
    | false => rw [hnone p hs, Option.isSome_eq_false_iff.mp hs |> Option.isNone_iff_eq_none.mp]

theorem trans (h : Sweeps N zoneName soft sel files shm files' shm')
    (h' : Sweeps N zoneName soft sel' files' shm' files'' shm'') :
    Sweeps N zoneName soft (fun p => sel p ∨ sel' p) files shm files'' shm'' where
  own p hp := by
    rcases Classical.em (sel p) with h1 | h1
    · rcases Classical.em (sel' p) with h2 | h2
      · exact (h.own p h1).trans (h'.own p h2)
      · rw [h'.other p h2]
        exact h.own p h1
    · rw [← h.other p h1]
      exact h'.own p (hp.resolve_left h1)
  other p hp := by
    obtain ⟨h1, h2⟩ := not_or.mp hp
    rw [h'.other p h2, h.other p h1]
  index := h'.index
  entries p hp := (h'.entries p hp).trans (h.entries p (h'.isSome hp))
  ready := h'.ready.trans h.ready

/-- One file, with its entry. -/
theorem purge (h : IndexOk N shm) (zoneName : Bytes) (soft : Bool) (path : Bytes) (files : Files L) :
    Sweeps N zoneName soft (· = path) files shm (files.purge soft path) shm where
  own _ hp := hp ▸ purge_purgedTo soft path files
  other _ hp := Files.purge_other files hp
  index := h
  entries _ _ := rfl
  ready := rfl

/-- One file that is gone then, and its entry too. -/
theorem purgeEntry (h : IndexOk N shm) (now : Int) (zoneName : Bytes)
    (hgone : files.purge soft path path = none) : Sweeps N zoneName soft (· = path) files shm
      (files.purge soft path) (deleteFile N now zoneName path shm).2 where
  own _ hp := hp ▸ purge_purgedTo soft path files
  other _ hp := Files.purge_other files hp
  index := h.delete
  entries p hp := by
    rw [(deleteFile_toMap h.ok now zoneName path).2]
    refine if_neg fun h0 => ?_
    rw [h0.2, hgone] at hp
    exact nomatch hp
  ready := deleteFile_ready N now zoneName path shm zoneName

end Sweeps

/-! ## Loops -/

/-- A turn purges its file. -/
def TurnSweeps (N : Nginx) (L : HeaderLayout) (zoneName : Bytes) (soft : Bool)
    (one : Nat → Bytes → Pilot → NgxRc × Pilot) : Prop :=
  ∀ k path s (files : Files L), s.cache.disk = files.disk → IndexOk N s.shm →
    (one k path s).1 = (if (files path).isSome then .ok else .declined) ∧
      (one k path s).2.cache.disk = (files.purge soft path).disk ∧
      Sweeps N zoneName soft (· = path) files s.shm (files.purge soft path) (one k path s).2.shm

theorem byPath_purges {c : FileCache} (hd : c.disk = files.disk) (soft : Bool) (path : Bytes) :
    (byPath L .works soft path c).1 = (if (files path).isSome then .ok else .declined) ∧
      (byPath L .works soft path c).2.disk = (files.purge soft path).disk := by
  have hspec := byPath_spec (L := L) hd .works soft path
  generalize byPath L .works soft path c = result at hspec
  cases hspec with
  | purged hsome hd' => exact ⟨by rw [if_pos hsome], hd'⟩
  | missing hnone hd' =>
    refine ⟨by rw [hnone]; rfl, ?_⟩
    rw [Files.purge_of_none hnone]
    exact hd'
  | vanished hw _ _ => exact absurd rfl hw
  | failed hw _ => exact absurd rfl hw

section Turns

variable {calls : Nat → FileCalls} (hcalls : ∀ k, calls k = .works)
include hcalls

/-- The soft fanout leaves the index alone. -/
theorem purgeByPath_sweeps (zoneName : Bytes) :
    TurnSweeps N L zoneName true fun k => purgeByPath L (calls k) true := by
  intro k path s files hd hindex
  obtain ⟨hrc, hdisk⟩ := byPath_purges hd true path
  rw [← hcalls k] at hrc hdisk
  exact ⟨hrc, hdisk, .purge hindex zoneName true path files⟩

/-- A hard purge leaves no file behind the entry that it drops. -/
theorem byIndexedPath_sweeps (now : Int) (zoneName : Bytes) (soft : Bool) :
    TurnSweeps N L zoneName soft fun k => byIndexedPath N L (calls k) now zoneName soft := by
  intro k path s files hd hindex
  obtain ⟨hrc, hdisk⟩ := byPath_purges hd soft path
  rw [← hcalls k] at hrc hdisk
  have hkept := Sweeps.purge hindex zoneName soft path files
  show (byIndexedPath N L (calls k) now zoneName soft path s).1 = _ ∧
    (byIndexedPath N L (calls k) now zoneName soft path s).2.cache.disk = _ ∧
    Sweeps N zoneName soft (· = path) files s.shm _
      (byIndexedPath N L (calls k) now zoneName soft path s).2.shm
  unfold byIndexedPath
  simp only
  split
  · next hhard =>
    have hs : soft = false := by simpa using (Bool.and_eq_true_iff.mp hhard).1
    refine ⟨hrc, hdisk, .purgeEntry hindex now zoneName ?_⟩
    unfold Files.purge
    rw [Function.update_self, hs]
    rfl
  · exact ⟨hrc, hdisk, hkept⟩

/-- A soft tag purge drops the entry of a missing file. -/
theorem purgeTagged_sweeps (now : Int) (zoneName : Bytes) (soft : Bool) :
    TurnSweeps N L zoneName soft fun k => purgeTagged N L (calls k) now zoneName soft := by
  intro k path s files hd hindex
  obtain ⟨hrc, hdisk⟩ := byPath_purges hd soft path
  rw [← hcalls k] at hrc hdisk
  have hkept := Sweeps.purge hindex zoneName soft path files
  show (purgeTagged N L (calls k) now zoneName soft path s).1 = _ ∧
    (purgeTagged N L (calls k) now zoneName soft path s).2.cache.disk = _ ∧
    Sweeps N zoneName soft (· = path) files s.shm _
      (purgeTagged N L (calls k) now zoneName soft path s).2.shm
  have hpurge : (purgeByPath L (calls k) soft path s).1 =
      if (files path).isSome then .ok else .declined := hrc
  unfold purgeTagged
  simp only
  split
  · exact ⟨hrc, hdisk, hkept⟩
  · next hno =>
    split
    · refine ⟨hrc, hdisk, .purgeEntry hindex now zoneName ?_⟩
      cases soft with
      | false => exact Function.update_self ..
      | true =>
        -- the file was missing
        cases hf : files path with
        | none => rw [Files.purge_of_none hf, hf]
        | some f =>
          rw [hpurge, hf] at hno
          exact absurd rfl hno
    · exact ⟨hrc, hdisk, hkept⟩

end Turns

/-- A loop purges the files of its paths, and counts something if there is any. -/
theorem purgePaths_sweeps {one : Nat → Bytes → Pilot → NgxRc × Pilot}
    (hone : TurnSweeps N L zoneName soft one) (k : Nat) (paths : List Bytes) (count : Nat) (s : Pilot)
    (hd : s.cache.disk = files.disk) (hindex : IndexOk N s.shm) :
    let result := purgePaths one k paths count s
    result.1 = .ok ∧ count ≤ result.2.1 ∧
      (count < result.2.1 ↔ ∃ p ∈ paths, (files p).isSome = true) ∧
      ∃ files', result.2.2.cache.disk = files'.disk ∧
        Sweeps N zoneName soft (· ∈ paths) files s.shm files' result.2.2.shm := by
  induction paths generalizing k count s files with
  | nil =>
    refine ⟨rfl, Nat.le_refl count, ?_, files, hd, ?_⟩
    · exact iff_of_false (Nat.lt_irrefl count) fun ⟨_, h, _⟩ => absurd h List.not_mem_nil
    · exact (Sweeps.nothing hindex zoneName soft files).congr fun p _ =>
        iff_of_false id List.not_mem_nil
  | cons path paths ih =>
    obtain ⟨hrc, hd1, hturn⟩ := hone k path s files hd hindex
    unfold purgePaths
    generalize one k path s = turn at hrc hd1 hturn
    obtain ⟨rc, s1⟩ := turn
    simp only at hrc hd1 hturn
    have hcons : ∀ {files' : Files L} {shm' : Shm},
        Sweeps N zoneName soft (· ∈ paths) (files.purge soft path) s1.shm files' shm' →
        Sweeps N zoneName soft (· ∈ path :: paths) files s.shm files' shm' := fun h =>
      (hturn.trans h).congr fun p _ => List.mem_cons.symm
    cases hp : files path with
    | none =>
      rw [hp] at hrc
      obtain rfl : rc = .declined := hrc
      obtain ⟨hok, hle, hcount, files', hd', hrest⟩ := ih (k + 1) count s1 hd1 hturn.index
      refine ⟨hok, hle, hcount.trans ?_, files', hd', hcons hrest⟩
      rw [Files.purge_of_none hp]
      simp [hp]
    | some f =>
      rw [hp] at hrc
      obtain rfl : rc = .ok := hrc
      obtain ⟨hok, hle, -, files', hd', hrest⟩ := ih (k + 1) (count + 1) s1 hd1 hturn.index
      refine ⟨hok, Nat.le_of_succ_le hle, iff_of_true hle ?_, files', hd', hcons hrest⟩
      exact ⟨path, List.mem_cons_self, by rw [hp]; rfl⟩

/-! ## Walks -/

/-- A walk purges the files that its handler selects by their key and response. -/
theorem walkTree_sweeps {calls : Nat → FileCalls} (hcalls : ∀ k, calls k = .works)
    {selects : FileCalls → Bytes → Disk → Bool} (picks : Bytes → Bytes → Prop)
    (hpicks : ∀ (files : Files L) p f, files p = some f →
      (selects .works p files.disk = true ↔ picks f.key f.response))
    {fileHandler : Nat → Bytes → Nat → FileCache → NgxRc × Nat × FileCache}
    (hh : Handles L calls soft selects fileHandler) (zoneName : Bytes) (readable : Bool) (k : Nat)
    (listing : List Bytes) (purged : Nat) (c : FileCache) (hd : c.disk = files.disk)
    (hindex : IndexOk N shm) :
    ∃ files', (walkTree readable fileHandler k listing purged c).2.2.disk = files'.disk ∧
      Sweeps N zoneName soft (fun p => p ∈ listing ∧ ∃ f, files p = some f ∧ picks f.key f.response)
        files shm files' shm := by
  induction listing generalizing k purged c files with
  | nil =>
    refine ⟨files, hd, (Sweeps.nothing hindex zoneName soft files).congr fun p _ => ?_⟩
    exact iff_of_false id fun h => absurd h.1 List.not_mem_nil
  | cons path listing ih =>
    have hturn := hh k path purged c
    rw [hcalls k, hd] at hturn
    -- what the turn leaves, whether it has selected its file or not
    have hone : ∃ files1, (fileHandler k path purged c).2.2.disk = files1.disk ∧
        Sweeps N zoneName soft
          (fun p => p = path ∧ ∃ f, files p = some f ∧ picks f.key f.response) files shm files1 shm := by
      rw [hturn]
      cases hs : selects .works path files.disk with
      | true =>
        refine ⟨_, (byPath_purges hd soft path).2, ?_⟩
        refine (Sweeps.purge hindex zoneName soft path files).congr fun p hp => ?_
        obtain ⟨f, hf⟩ := Option.isSome_iff_exists.mp hp
        constructor
        · rintro rfl
          exact ⟨rfl, f, hf, (hpicks files p f hf).mp hs⟩
        · exact And.left
      | false =>
        refine ⟨files, hd, (Sweeps.nothing hindex zoneName soft files).congr fun p _ => ?_⟩
        refine iff_of_false id ?_
        rintro ⟨rfl, f, hf, hpick⟩
        rw [(hpicks files p f hf).mpr hpick] at hs
        exact nomatch hs
    obtain ⟨files1, hd1, hfirst⟩ := hone
    unfold walkTree
    simp only
    obtain ⟨files', hd', hrest⟩ := ih (k + 1) (fileHandler k path purged c).2.1 _ hd1
    refine ⟨files', hd', (hfirst.trans hrest).congr fun p hp => ?_⟩
    obtain ⟨f, hf⟩ := Option.isSome_iff_exists.mp hp
    constructor
    · rintro (⟨rfl, hpick⟩ | ⟨hmem, f1, hf1, hpick⟩)
      · exact ⟨List.mem_cons_self, hpick⟩
      · obtain ⟨g, hg, hkey, hresponse⟩ := hfirst.kept hf1
        rw [hkey, hresponse] at hpick
        exact ⟨List.mem_cons_of_mem path hmem, g, hg, hpick⟩
    · rintro ⟨hmem, hpick⟩
      rcases Classical.em (p = path) with heq | hne
      · exact Or.inl ⟨heq, hpick⟩
      · refine Or.inr ⟨(List.mem_cons.mp hmem).resolve_left hne, ?_⟩
        rw [hfirst.other p fun h => hne h.1]
        exact hpick

/-! ## Requests -/

/-- The state that a purge of the selected files leads to. -/
def SweepsTo (N : Nginx) (zoneName : Bytes) (soft : Bool) (sel : Bytes → Prop) (files : Files L)
    (s s' : Pilot) : Prop :=
  ∃ files', s'.cache.disk = files'.disk ∧ Sweeps N zoneName soft sel files s.shm files' s'.shm

/-- Counters and the context are no part of it. -/
theorem SweepsTo.of_eq {s' s'' : Pilot} (h : SweepsTo N zoneName soft sel files s s')
    (hdisk : s''.cache.disk = s'.cache.disk) (hshm : s''.shm = s'.shm) :
    SweepsTo N zoneName soft sel files s s'' := by
  obtain ⟨files', hd, hsweeps⟩ := h
  exact ⟨files', hdisk.trans hd, hshm ▸ hsweeps⟩

theorem SweepsTo.congr {s' : Pilot} (h : SweepsTo N zoneName soft sel files s s')
    (hsel : ∀ p, (files p).isSome = true → (sel p ↔ sel' p)) :
    SweepsTo N zoneName soft sel' files s s' := by
  obtain ⟨files', hd, hsweeps⟩ := h
  exact ⟨files', hd, hsweeps.congr hsel⟩

/-- The index that a location can use: the worker reads it, and its zone is ready. -/
structure IndexAccess.Reads (access : IndexAccess) (zoneName : Bytes) (shm : Shm) : Prop where
  configured : access.configured = true
  zone : access.zone = some zoneName
  reader : access.reader = true
  ready : zoneReady shm zoneName = true

theorem IndexAccess.Reads.ready_eq (h : access.Reads zoneName shm) : access.ready = some zoneName := by
  unfold IndexAccess.ready
  rw [h.configured, h.reader, h.zone]
  rfl

/-- A tag purge takes the files whose entries have one of the tags. -/
theorem run_sweeps_tag (hkind : call.kind = .tag) (h : call.Unhindered s.cache.disk)
    (haccess : access.Reads zoneName s.shm) (hindex : IndexOk N s.shm)
    (hd : s.cache.disk = files.disk) :
    SweepsTo N zoneName call.request.soft
      (Selected (recordsOf s.shm zoneName) (keepTags [] call.tokens)) files s
      (call.run N L access s).2 := by
  obtain ⟨hcache, hshm⟩ :=
    dispatchTags_state (N := N) (L := L) access call.request s (keepTags [] call.tokens)
  rw [(run_tag N L access s hkind).1]
  refine SweepsTo.of_eq ?_ (congrArg FileCache.disk hcache) hshm
  have hcollect : call.request.pool.collect = fun _ => true := by
    show call.pool.collect = _
    rw [h.pool]
    rfl
  obtain ⟨paths, hpaths⟩ := collectPathsByTags_full hindex zoneName (keepTags [] call.tokens)
  obtain ⟨hrc, -, -, hsweeps⟩ := purgePaths_sweeps
    (purgeTagged_sweeps (N := N) (L := L) h.files.calls call.request.now zoneName call.request.soft)
    0 paths 0 s hd hindex
  have hselected : SweepsTo N zoneName call.request.soft
      (Selected (recordsOf s.shm zoneName) (keepTags [] call.tokens)) files s
      (purgePaths (fun k => purgeTagged N L (call.request.calls k) call.request.now zoneName
        call.request.soft) 0 paths 0 s).2.2 :=
    SweepsTo.congr hsweeps fun p _ => hindex.mem_collectTags hpaths
  unfold indexPurge
  simp only [haccess.configured, haccess.zone, haccess.reader, getZoneState_complete, haccess.ready,
    hcollect, hpaths, Bool.not_true, Bool.false_eq_true, if_false]
  generalize purgePaths (fun k => purgeTagged N L (call.request.calls k) call.request.now zoneName
    call.request.soft) 0 paths 0 s = result at hrc hselected
  obtain ⟨rc, purged, s1⟩ := result
  obtain rfl : rc = .ok := hrc
  simp only
  split
  · exact hselected.of_eq (by simp) (by simp)
  · exact hselected.of_eq (by simp) (by simp)

/-- A purge of all files takes all of them. -/
theorem run_sweeps_all (hkind : call.kind = .all) (h : call.Unhindered s.cache.disk)
    (zoneName : Bytes) (hindex : IndexOk N s.shm) (hd : s.cache.disk = files.disk) :
    SweepsTo N zoneName call.purge.soft (fun _ => True) files s (call.run N L access s).2 := by
  rw [(run_all N L access s hkind).1]
  obtain ⟨files', hd', hsweeps⟩ := walkTree_sweeps (N := N) h.walk (fun _ _ => True)
    (fun _ _ _ _ => iff_of_true rfl trivial) (handles_all L call.walk.calls call.purge.soft) zoneName
    call.walk.readable 0 call.walk.listing 0 s.cache hd hindex
  have hall : Sweeps N zoneName call.purge.soft (fun _ => True) files s.shm files' s.shm := by
    refine hsweeps.congr fun p hp => iff_of_true ⟨h.listing p ?_, ?_⟩ trivial
    · obtain ⟨f, hf⟩ := Option.isSome_iff_exists.mp hp
      rw [hd, Files.disk_eq_some.mpr hf]
      rfl
    · obtain ⟨f, hf⟩ := Option.isSome_iff_exists.mp hp
      exact ⟨f, hf, trivial⟩
  change (walkAll L call.walk call.purge.soft s.cache).2.2.disk = files'.disk at hd'
  unfold purgeAll
  generalize walkAll L call.walk call.purge.soft s.cache = walked at hd'
  obtain ⟨rc, purged, cache⟩ := walked
  cases rc with
  | ok => exact ⟨files', by simpa using hd', by simpa using hall⟩
  | _ => exact ⟨files', hd', hall⟩

/-- What a wildcard purge takes: the files that the index has under the prefix, or, if
there are none, those that the walk matches. -/
def WildcardPicks (rs : List Record) (files : Files L) (pre stem p : Bytes) : Prop :=
  (∃ q ∈ prefixedPaths rs pre, (files q).isSome = true) ∧ p ∈ prefixedPaths rs pre ∨
    (¬ ∃ q ∈ prefixedPaths rs pre, (files q).isSome = true) ∧
      ∃ f, files p = some f ∧ BytesMatch stem (f.key ++ 10 :: f.response)

theorem partialFromIndex_sweeps (hready : access.ready = some zoneName) (hworks : r.FilesWork)
    (hpool : r.pool = .full) (hindex : IndexOk N s.shm) (hd : s.cache.disk = files.disk) (pre : Bytes) :
    ∃ purged s', partialFromIndex N L access r pre s = (.ok, purged, s') ∧
      (0 < purged ↔ ∃ q ∈ prefixedPaths (recordsOf s.shm zoneName) pre, (files q).isSome = true) ∧
      SweepsTo N zoneName r.soft (· ∈ prefixedPaths (recordsOf s.shm zoneName) pre) files s s' := by
  obtain ⟨hz, hcache, hshm⟩ := keyIndexReady_eq access r.pool s
  have hcollect : r.pool.collect = fun _ => true := by
    rw [hpool]
    rfl
  unfold partialFromIndex
  generalize keyIndexReady access r.pool s = ready at hz hcache hshm
  obtain ⟨z, s1⟩ := ready
  simp only at hz hcache hshm
  rw [hz, hready]
  simp only [hcollect, hshm, hindex.collectPrefix_success]
  have hd1 : s1.cache.disk = files.disk := by rw [hcache, hd]
  obtain ⟨hrc, -, hcount, hsweeps⟩ := purgePaths_sweeps
    (byIndexedPath_sweeps (N := N) (L := L) hworks.calls r.now zoneName r.soft) 0
    (prefixedPaths (recordsOf s.shm zoneName) pre) 0 s1 hd1 (by rw [hshm]; exact hindex)
  rw [hshm] at hsweeps
  generalize purgePaths (fun k => byIndexedPath N L (r.calls k) r.now zoneName r.soft) 0
    (prefixedPaths (recordsOf s.shm zoneName) pre) 0 s1 = result at hrc hcount hsweeps
  obtain ⟨rc, purged, s2⟩ := result
  obtain rfl : rc = .ok := hrc
  exact ⟨purged, s2, rfl, hcount, hsweeps⟩

/-- A wildcard purge whose prefix is empty takes nothing. -/
theorem run_wildcard_refused (hkind : call.kind = .wildcard)
    (hpre : keyPrefix call.pool call.keys = none) :
    (call.run N L access s).2 = s := by
  have hrefused : keyPrefix call.request.pool call.request.keys = none := hpre
  rw [run_wildcard hkind]
  unfold wildcardRequest partialPurge
  simp only [hrefused]

theorem run_sweeps_wildcard (hkind : call.kind = .wildcard) (h : call.Unhindered s.cache.disk)
    (haccess : access.Reads zoneName s.shm) (hindex : IndexOk N s.shm)
    (hd : s.cache.disk = files.disk) {pre : Bytes} (hpre : keyPrefix call.pool call.keys = some pre) :
    SweepsTo N zoneName call.request.soft
      (WildcardPicks (recordsOf s.shm zoneName) files pre (keyPartial call.keys)) files s
      (call.run N L access s).2 := by
  have hpart : isPartial call.request.keys = true := call.kind_asterisk.1 hkind
  have hstem : keyPrefix call.request.pool call.request.keys = some pre := hpre
  obtain ⟨purged, s1, hfrom, hcount, files1, hd1, hindexed⟩ :=
    partialFromIndex_sweeps (L := L) haccess.ready_eq h.files h.pool hindex hd pre
  rw [run_wildcard hkind, h.terminated]
  have hshm : (wildcardRequest N L access call.walk call.threads false call.request s).2.shm = _ :=
    wildcardRequest_shm call.walk call.threads false hpart
  rw [partialPurge_shm call.walk call.threads hstem, hfrom] at hshm
  change _ = s1.shm at hshm
  cases purged with
  | succ n =>
    have hoffered := hcount.mp (Nat.succ_pos n)
    obtain ⟨s', hresult, hcache⟩ := wildcardRequest_index (L := L) call.walk call.threads hpart hstem
      h.pool hfrom (Nat.succ_pos n)
    rw [hresult] at hshm ⊢
    have hall : SweepsTo N zoneName call.request.soft
        (· ∈ prefixedPaths (recordsOf s.shm zoneName) pre) files s s' :=
      SweepsTo.of_eq ⟨files1, hd1, hindexed⟩ (by rw [hcache]) hshm
    refine hall.congr fun p _ => ⟨fun hp => Or.inl ⟨hoffered, hp⟩, ?_⟩
    rintro (⟨-, hp⟩ | ⟨hno, -⟩)
    · exact hp
    · exact absurd hoffered hno
  | zero =>
    have hno := mt hcount.mpr (Nat.lt_irrefl 0)
    obtain ⟨files', hd', hwalked⟩ := walkTree_sweeps (N := N) h.walk
      (fun key response => BytesMatch (keyPartial call.keys) (key ++ 10 :: response))
      (fun _ _ _ hf => partialMatch_iff hf) (handles_prefixed L call.walk.calls call.request.soft (keyPartial call.keys)) zoneName
      call.walk.readable 0 call.walk.listing 0 s1.cache hd1 hindexed.index
    have hwalk := (walkPartial_trail L call.walk call.request.soft (keyPartial call.keys) s1.cache).1
    rw [h.readable, if_pos rfl] at hwalk
    have hresult := wildcardRequest_walked (w := call.walk) hpart hstem h.pool h.threads hfrom hwalk
    rw [hresult] at hshm ⊢
    have hboth : SweepsTo N zoneName call.request.soft
        (fun p => p ∈ prefixedPaths (recordsOf s.shm zoneName) pre ∨ p ∈ call.walk.listing ∧
          ∃ f, files1 p = some f ∧ BytesMatch (keyPartial call.keys) (f.key ++ 10 :: f.response)) files s
        { s1 with cache := (walkPartial L call.walk call.request.soft (keyPartial call.keys) s1.cache).2.2 } :=
      ⟨files', hd', hindexed.trans hwalked⟩
    have hcache : ∀ n s', (recordWildcardPurge call.request n s').cache.disk = s'.cache.disk :=
      fun n s' => congrArg FileCache.disk (recordWildcardPurge_cache call.request n s')
    refine SweepsTo.congr (hboth.of_eq (hcache ..) hshm) fun p hp => ?_
    -- what the index has under the prefix is not on disk
    have hmiss : p ∉ prefixedPaths (recordsOf s.shm zoneName) pre := fun hmem => hno ⟨p, hmem, hp⟩
    have hlisted : p ∈ call.walk.listing := by
      obtain ⟨f, hf⟩ := Option.isSome_iff_exists.mp hp
      refine h.listing p ?_
      rw [hd, Files.disk_eq_some.mpr hf]
      rfl
    rw [hindexed.other p hmiss]
    constructor
    · rintro (hmem | ⟨-, hmatch⟩)
      · exact absurd hmem hmiss
      · exact Or.inr ⟨hno, hmatch⟩
    · rintro (⟨-, hmem⟩ | ⟨-, hmatch⟩)
      · exact absurd hmem hmiss
      · exact Or.inr ⟨hlisted, hmatch⟩

/-- A hard purge has dropped the entry of the opened file, which is gone, before it
looks for others. -/
theorem fanoutStart_sweeps (hindex : IndexOk N s.shm) (r : PurgeRequest) (o : OpenedCache)
    (zoneName : Bytes) (hgone : soft = false → files o.name = none) :
    Sweeps N zoneName soft (fun _ => False) files s.shm files (fanoutStart N r soft o zoneName s).shm := by
  cases soft with
  | true => exact .nothing hindex zoneName true files
  | false =>
    have hnone := hgone rfl
    have hsame : files.purge false o.name = files := Files.purge_of_none hnone
    have hdrop : Sweeps N zoneName false (· = o.name) files s.shm (files.purge false o.name)
        (deleteFile N r.now zoneName o.name s.shm).2 :=
      .purgeEntry hindex r.now zoneName (by rw [hsame, hnone])
    rw [hsame] at hdrop
    refine hdrop.congr fun p hp => ?_
    refine iff_of_false ?_ id
    rintro rfl
    rw [hnone] at hp
    exact nomatch hp

theorem exactFanout_sweeps (soft : Bool) (hready : access.ready = some zoneName) (hworks : r.FilesWork)
    (hpool : r.pool = .full) (hindex : IndexOk N s.shm) (hd : s.cache.disk = files.disk)
    (o : OpenedCache) (hgone : soft = false → files o.name = none) :
    ∃ fanned s', exactFanout N L access r soft o s = (.ok, fanned, s') ∧
      SweepsTo N zoneName soft
        (· ∈ keyedPaths (fanoutRecords soft o (recordsOf s.shm zoneName)) (cacheKey r.keys)) files s s' := by
  obtain ⟨-, hcache, hshm⟩ := keyIndexReady_eq access r.pool s
  have hquery := fanoutList_query N access r s soft o
  have hlist := fanoutList_cache N access r s soft o
  rw [exactFanout_eq]
  generalize fanoutList N access r soft o s = result at hquery hlist
  cases hquery with
  | @skipped s1 hskip hstart =>
    -- there is no key
    have hkeys : r.keys = [] := by
      rcases hskip with hno | hno
      · exact nomatch hready.symm.trans hno
      · unfold cacheKeyText at hno
        rw [hpool] at hno
        by_contra hne
        rw [if_neg hne] at hno
        exact nomatch hno
    have hs1 : SweepsTo N zoneName soft (fun _ => False) files s s1 := by
      refine ⟨files, ?_, ?_⟩
      · rw [hstart, hcache, hd]
      · rw [hstart, hshm]
        exact .nothing hindex zoneName soft files
    refine ⟨0, s1, rfl, hs1.congr fun p _ => iff_of_false id ?_⟩
    rw [hkeys]
    exact List.not_mem_nil
  | @queried zoneName' keyText s1 hready' hkey hstart =>
    obtain rfl : zoneName = zoneName' := Option.some.inj (hready.symm.trans hready')
    obtain rfl : cacheKey r.keys = keyText := by
      unfold cacheKeyText at hkey
      split at hkey
      · exact nomatch hkey
      · rw [hpool] at hkey
        exact Option.some.inj hkey
    have hindex0 : IndexOk N (keyIndexReady access r.pool s).2.shm := by rw [hshm]; exact hindex
    obtain ⟨hindex1, hrecords⟩ := fanoutStart_index hindex0 r soft o zoneName
    have hbefore : Sweeps N zoneName soft (fun _ => False) files _ files
        (fanoutStart N r soft o zoneName (keyIndexReady access r.pool s).2).shm :=
      fanoutStart_sweeps hindex0 r o zoneName hgone
    rw [← hstart] at hindex1 hrecords hbefore
    rw [hshm] at hrecords hbefore
    have hcollect : collectPathsByExactKey N r.pool.collect s1.shm zoneName (cacheKey r.keys) =
        some (keyedPaths (fanoutRecords soft o (recordsOf s.shm zoneName)) (cacheKey r.keys)) := by
      rw [hindex1.collectExact, hrecords, hpool]
      exact if_pos ⟨rfl, fun _ _ => rfl⟩
    rw [hcollect]
    have hone : TurnSweeps N L zoneName soft (fanoutTurn N L r soft zoneName) := by
      cases soft with
      | true => exact purgeByPath_sweeps hworks.calls zoneName
      | false => exact byIndexedPath_sweeps hworks.calls r.now zoneName false
    obtain ⟨hrc, -, -, files', hd', hsweeps⟩ := purgePaths_sweeps hone 0
      (keyedPaths (fanoutRecords soft o (recordsOf s.shm zoneName)) (cacheKey r.keys)) 0 s1
      (by rw [← hd, ← hlist]) hindex1
    simp only [Option.map_some]
    generalize purgePaths (fanoutTurn N L r soft zoneName) 0
      (keyedPaths (fanoutRecords soft o (recordsOf s.shm zoneName)) (cacheKey r.keys)) 0 s1 = result
      at hrc hd' hsweeps
    obtain ⟨rc, fanned, s2⟩ := result
    obtain rfl : rc = .ok := hrc
    exact ⟨fanned, s2, rfl, files', hd', (hbefore.trans hsweeps).congr fun p _ =>
      ⟨fun h => h.resolve_left id, Or.inr⟩⟩

/-- An exact purge that gets to its file takes it, and the files that the index has for
the key; behind a hard purge of the first file its own entry is gone. -/
theorem exactPurgeOf_sweeps (hready : access.ready = some zoneName) (hworks : r.FilesWork)
    (hpool : r.pool = .full) (hindex : IndexOk N s.shm) (hd : s.cache.disk = files.disk)
    {opened : CacheOpen} {o : OpenedCache} (hreach : Reaches opened r.soft s files o) :
    ∃ s', exactPurgeOf N L access opened r s = (.ok, s') ∧
      SweepsTo N zoneName r.soft (fun p => p = o.name ∨
        p ∈ keyedPaths (fanoutRecords r.soft o (recordsOf s.shm zoneName)) (cacheKey r.keys)) files s s' := by
  obtain ⟨rfl, hpresent, hsome⟩ := hreach
  -- the purge of the opened file, and the fanout behind it
  have hboth : ∀ {s0 s1 : Pilot}, s0.shm = s.shm →
      SweepsTo N zoneName r.soft (· ∈ keyedPaths
        (fanoutRecords r.soft o (recordsOf s0.shm zoneName)) (cacheKey r.keys))
        (files.purge r.soft o.name) s0 s1 →
      SweepsTo N zoneName r.soft (fun p => p = o.name ∨
        p ∈ keyedPaths (fanoutRecords r.soft o (recordsOf s.shm zoneName)) (cacheKey r.keys))
        files s s1 := by
    rintro s0 s1 hshm ⟨files', hd', hsweeps⟩
    rw [hshm] at hsweeps
    exact ⟨files', hd', (Sweeps.purge hindex zoneName r.soft o.name files).trans hsweeps⟩
  unfold exactPurgeOf
  cases hs : r.soft with
  | false =>
    rw [hs] at hboth
    have hcalls : r.resolved.deletes = true := by
      rw [hworks.resolved]
      rfl
    obtain ⟨_, hopened, hcache⟩ := deleteOpenedFile_present hpresent r.resolved
    obtain rfl := hcache hcalls
    have hd0 : ((markNodeDeleted s.cache o.node).setFile o.name none).disk =
        (files.purge false o.name).disk := by
      rw [FileCache.setFile_disk, markNodeDeleted_disk, hd, Files.purge, Files.disk_update]
      rfl
    have hgone : files.purge false o.name o.name = none := Function.update_self ..
    obtain ⟨fanned, s', hfan, hsweeps⟩ := exactFanout_sweeps (L := L)
      (s := Pilot.recordPurgeRequest .exact false
        { s with cache := (markNodeDeleted s.cache o.node).setFile o.name none })
      false hready hworks hpool hindex hd0 o fun _ => hgone
    refine ⟨releaseUpdating o (recordExactPurge r.pool false fanned s'), ?_, ?_⟩
    · rw [if_neg Bool.false_ne_true]
      unfold exactPurge
      simp only [hopened, hfan]
    · refine (hboth rfl hsweeps).of_eq ?_ ?_
      · rw [releaseUpdating_disk, recordExactPurge_cache]
      · rw [releaseUpdating_shm, recordExactPurge_shm]
  | true =>
    rw [hs] at hboth
    have hspec := softHeader_spec (L := L) hd r.resolved o.name
    cases hheader : softHeader L r.resolved o.name s.cache with | mk rc cache =>
    rw [hheader] at hspec
    cases hspec with
    | purged _ hd0 =>
      obtain ⟨fanned, s', hfan, hsweeps⟩ := exactFanout_sweeps (L := L)
        (s := { s with cache := cache.setNode o.node { cache.node o.node with validSec := 0 } })
        true hready hworks hpool hindex hd0 o fun h => absurd h.symm Bool.false_ne_true
      refine ⟨releaseUpdating o (recordExactPurge r.pool true fanned
        (s'.recordPurgeRequest .exact true)), ?_, ?_⟩
      · rw [if_pos rfl]
        unfold exactPurgeSoft
        simp only [hpresent, hheader, hfan, Bool.not_true, Bool.false_eq_true, if_false]
      · refine (hboth rfl hsweeps).of_eq ?_ ?_
        · rw [releaseUpdating_disk, recordExactPurge_cache, Pilot.recordPurgeRequest_cache]
        · rw [releaseUpdating_shm, recordExactPurge_shm]
          rfl
    | missing hnone _ =>
      have h0 := hsome hs
      rw [hnone] at h0
      cases h0
    | vanished hw _ _ => exact absurd hworks.resolved hw
    | failed hw _ => exact absurd hworks.resolved hw

theorem run_exact_eq (hkind : call.kind = .exact) : call.run N L access s =
    match exactPurgeOf N L access call.opened call.request s with
    | (.ok, s) => (some (sendResponse call.pool), s)
    | (.declined, s) =>
      if s.declineReason = .notFound then
        (some (sendResponse call.pool), s.recordPurgeRequest .exact call.request.soft)
      else (some .preconditionFailed, s)
    | (.again, s) => (some .again, s)
    | (_, s) => (some .internalServerError, s) := by
  have hexact : isPartial call.request.keys = false := call.kind_asterisk.2 hkind
  unfold PurgeCall.run
  simp only [hkind, handler_exact hexact]
  generalize exactPurgeOf N L access call.opened call.request s = result
  obtain ⟨rc, s1⟩ := result
  cases rc with
  | declined =>
    simp only
    split
    · rfl
    · rfl
  | _ => rfl

theorem run_sweeps_exact {o : OpenedCache} (hkind : call.kind = .exact)
    (h : call.Unhindered s.cache.disk) (haccess : access.Reads zoneName s.shm)
    (hindex : IndexOk N s.shm) (hd : s.cache.disk = files.disk)
    (hreach : Reaches call.opened call.request.soft s files o) :
    SweepsTo N zoneName call.request.soft (fun p => p = o.name ∨
      p ∈ keyedPaths (fanoutRecords call.request.soft o (recordsOf s.shm zoneName))
        (cacheKey call.keys)) files s (call.run N L access s).2 := by
  obtain ⟨s', hresult, hsweeps⟩ := exactPurgeOf_sweeps (L := L) haccess.ready_eq h.files h.pool hindex
    hd hreach
  rw [run_exact_eq hkind, hresult]
  exact hsweeps

/-- An exact purge that opens no file leaves the cache and the index. -/
theorem run_exact_missed (hkind : call.kind = .exact) (hopened : ∀ o, call.opened ≠ .opened o) :
    (call.run N L access s).2.cache = s.cache ∧ (call.run N L access s).2.shm = s.shm := by
  have hkept : (exactPurgeOf N L access call.opened call.request s).2.cache = s.cache ∧
      (exactPurgeOf N L access call.opened call.request s).2.shm = s.shm := by
    unfold exactPurgeOf exactPurge exactPurgeSoft
    cases ho : call.opened with
    | opened o => exact absurd ho (hopened o)
    | declined =>
      simp only
      split
      · exact ⟨Pilot.setDeclineReason_cache .., Pilot.setDeclineReason_shm ..⟩
      · exact ⟨Pilot.setDeclineReason_cache .., Pilot.setDeclineReason_shm ..⟩
    | _ =>
      simp only [ite_self]
      exact ⟨trivial, trivial⟩
  rw [run_exact_eq hkind]
  generalize exactPurgeOf N L access call.opened call.request s = result at hkept
  obtain ⟨rc, s1⟩ := result
  cases rc with
  | declined =>
    simp only
    split
    · exact hkept
    · exact hkept
  | _ => exact hkept

end CachePilot
