import CachePilot.Purge.Steps
import CachePilot.Purge.TaggedRuns

/-!
# What a purge request may touch

Whatever fails, and however it ends, a purge request writes to the files that it selects
and to their entries, and does to a file what its mode says or nothing. A request whose
tags cannot be read may be taken for an exact purge; it may then touch what an exact purge
of its key may.

Results:
* `purge_confined`: one request;
* `purges_never_corrupt`: any sequence of them, with other requests in between.
-/

namespace CachePilot
open NgxString

variable {N : Nginx} {L : HeaderLayout} {access : IndexAccess} {r : PurgeRequest} {s s' : Pilot}
  {call : PurgeCall} {zoneName p : Bytes} {soft : Bool} {zone : Option Bytes} {targets : Bytes → Prop}
  {o : OpenedCache}

/-! ## By prefix -/

/-- The files that a wildcard purge may touch: those that the index has under the prefix,
and those that the walk matches. -/
def PrefixTargets (L : HeaderLayout) (access : IndexAccess) (pool : PurgePool) (keys : List Bytes)
    (s : Pilot) (p : Bytes) : Prop :=
  (∃ z pre, access.zone = some z ∧ keyPrefix pool keys = some pre ∧
      p ∈ prefixedPaths (recordsOf s.shm z) pre) ∨
    partialMatch L .works (keyPartial keys) p s.cache.disk = true

/-- The walk compares what is behind the header. -/
theorem partialMatch_of_tails {calls : FileCalls} {pre : Bytes} {disk disk' : Disk}
    (htails : SameTails L disk disk') (h : partialMatch L calls pre p disk' = true) :
    partialMatch L .works pre p disk = true := by
  unfold partialMatch at h ⊢
  split
  · rfl
  · next hne =>
    rw [if_neg hne] at h
    cases hopens : calls.opens with
    | false =>
      rw [hopens] at h
      cases h
    | true =>
      rw [hopens, Bool.not_true, if_neg Bool.false_ne_true] at h
      cases hd' : disk' p with
      | none =>
        rw [hd'] at h
        cases h
      | some d' =>
        obtain ⟨d, hd, hdrop⟩ := htails p d' hd'
        have hkey : d'.drop (L.size + 6) = d.drop (L.size + 6) := by
          rw [← List.drop_drop, hdrop, List.drop_drop]
        rw [hd'] at h
        rw [hd]
        simp only [hkey] at h
        simp only [FileCalls.works, Bool.not_true, Bool.false_eq_true, if_false, Bool.false_or]
        split at h
        · cases h
        · next hread =>
          rw [if_neg fun h0 => hread (by rw [h0, Bool.or_true])]
          exact h

theorem walkPartial_steps (L : HeaderLayout) (w : Walk) (soft : Bool) (pre : Bytes) (disk : Disk)
    (s : Pilot) (htails : SameTails L disk s.cache.disk)
    (ht : ∀ p, partialMatch L .works pre p disk = true → targets p) :
    PurgeSteps N L soft zone targets s { s with cache := (walkPartial L w soft pre s.cache).2.2 } :=
  walkTree_steps (handles_prefixed L w.calls soft pre)
    (fun _ p _ hsame hmatch => ht p (partialMatch_of_tails hsame hmatch)) w.readable 0 w.listing 0 s htails

theorem collectPrefix_mem (hindex : IndexOk N s.shm) {pool : PoolSite → Bool} {z pre : Bytes}
    {paths : List Bytes} (h : collectPathsByKeyPrefix pool s.shm z pre = some paths) :
    paths = prefixedPaths (recordsOf s.shm z) pre := by
  rw [collectPathsByKeyPrefix_eq] at h
  unfold prefixQuery at h
  split at h
  · have hpush := hindex.pushPaths_selected pool z fun rec => keyHasPrefix rec.key pre
    rw [show pushPaths pool [] (prefixedPaths (recordsOf s.shm z) pre) = _ from hpush] at h
    split at h
    · exact (Option.some.inj h).symm
    · exact nomatch h
  · exact nomatch h

theorem partialFromIndex_steps (L : HeaderLayout) (access : IndexAccess) (hindex : IndexOk N s.shm)
    (r : PurgeRequest) {pre : Bytes} (ht : ∀ z, access.zone = some z → ∀ p ∈ prefixedPaths (recordsOf s.shm z) pre, targets p) :
    PurgeSteps N L r.soft access.zone targets s (partialFromIndex N L access r pre s).2.2 := by
  have hnote := Notes.keyIndexReady access r.pool s
  obtain ⟨hz, -, -⟩ := keyIndexReady_eq access r.pool s
  unfold partialFromIndex
  generalize keyIndexReady access r.pool s = ready at hnote hz
  obtain ⟨z, s1⟩ := ready
  cases z with
  | none => exact hnote.steps
  | some zoneName =>
    have hzone : access.zone = some zoneName := ready_eq_some hz.symm
    have hshm : s1.shm = s.shm := hnote.shm
    simp only
    split
    · exact hnote.steps
    · next paths hcollect =>
      rw [hshm] at hcollect
      obtain rfl := collectPrefix_mem hindex hcollect
      refine hnote.steps.trans (purgePaths_steps (fun k path s hp => ?_) 0 _ (ht zoneName hzone) 0 s1)
      rw [hzone]
      exact byIndexedPath_steps r.soft (r.calls k) r.now hp s

theorem partialPurge_steps (hindex : IndexOk N s.shm) (w : Walk) (threads : Option Bool)
    (r : PurgeRequest) (ht : ∀ p, PrefixTargets L access r.pool r.keys s p → targets p) :
    PurgeSteps N L r.soft access.zone targets s (partialPurge N L access w threads r s).2 := by
  unfold partialPurge
  cases hpre : keyPrefix r.pool r.keys with
  | none => exact .refl s
  | some pre =>
    have hfrom := partialFromIndex_steps L access hindex r fun z hz p hp =>
      ht p (Or.inl ⟨z, pre, hz, hpre, hp⟩)
    simp only
    generalize partialFromIndex N L access r pre s = result at hfrom
    obtain ⟨rc, purged, s1⟩ := result
    cases rc with
    | error => exact hfrom
    | _ =>
      refine hfrom.trans ?_
      dsimp only
      have hfallback := Notes.setResponsePath r.pool .filesystemFallback s1
      split
      · exact (((Notes.setResponsePath r.pool .wildcardIndex s1).trans (Notes.recordPurge ..)).trans
          ((Notes.recordKeyIndexWildcardHit _).trans (Notes.recordPurgeRequest ..))).steps
      · split
        · exact .refl s1
        · split
          · split
            · exact hfallback.steps
            · exact .refl s1
          · have htails : SameTails L s.cache.disk
                (s1.setResponsePath r.pool .filesystemFallback).cache.disk := by
              rw [hfallback.cache]
              exact hfrom.tails
            have hwalk : PurgeSteps N L r.soft access.zone targets
                (s1.setResponsePath r.pool .filesystemFallback)
                { (s1.setResponsePath r.pool .filesystemFallback) with cache := (walkPartial L w r.soft
                  (keyPartial r.keys) (s1.setResponsePath r.pool .filesystemFallback).cache).2.2 } :=
              walkPartial_steps L w r.soft (keyPartial r.keys) s.cache.disk _ htails fun p hp =>
                ht p (Or.inr hp)
            have hall := hfallback.steps.trans hwalk
            generalize walkPartial L w r.soft (keyPartial r.keys)
              (s1.setResponsePath r.pool .filesystemFallback).cache = result at hall
            obtain ⟨rc', purged', cache⟩ := result
            cases rc' with
            | ok => exact hall.trans (Notes.recordWildcardPurge ..).steps
            | _ => exact hall

/-! ## By tags and of all files -/

theorem dispatchTags_steps (hindex : IndexOk N s.shm) (r : PurgeRequest) (tags : List Bytes)
    (ht : ∀ z, access.zone = some z → ∀ p, Selected (recordsOf s.shm z) tags p → targets p) :
    PurgeSteps N L r.soft access.zone targets s (dispatchTags N L access r tags s).2 := by
  have hpurge : PurgeSteps N L r.soft access.zone targets s (indexPurge N L access r tags s).2 := by
    have hdeclined : ∀ reason, PurgeSteps N L r.soft access.zone targets s
        (s.setDeclineReason r.pool reason) := fun reason => (Notes.setDeclineReason ..).steps
    unfold indexPurge
    split
    · exact hdeclined _
    · cases hzone : access.zone with
      | none =>
        rw [hzone] at hdeclined
        exact hdeclined _
      | some zoneName =>
        rw [hzone] at hdeclined
        simp only
        split
        · exact hdeclined _
        · split
          · exact hdeclined _
          · cases hcollect : collectPathsByTags N r.pool.collect s.shm zoneName tags with
            | none => exact .refl s
            | some paths =>
              have hloop : PurgeSteps N L r.soft (some zoneName) targets s (purgePaths
                  (fun k => purgeTagged N L (r.calls k) r.now zoneName r.soft) 0 paths 0 s).2.2 :=
                purgePaths_steps (fun k path s hp => purgeTagged_steps r.soft (r.calls k) r.now hp s) 0
                  paths (fun p hp => ht zoneName hzone p ((hindex.mem_collectTags hcollect).mp hp)) 0 s
              simp only
              generalize purgePaths (fun k => purgeTagged N L (r.calls k) r.now zoneName r.soft) 0
                paths 0 s = result at hloop
              obtain ⟨rc, purged, s1⟩ := result
              cases rc with
              | ok =>
                simp only
                split
                · exact hloop.trans ((Notes.recordPurge ..).trans (Notes.setResponsePath ..)).steps
                · exact hloop.trans (Notes.setDeclineReason ..).steps
              | _ => exact hloop
  unfold dispatchTags
  generalize indexPurge N L access r tags s = result at hpurge
  obtain ⟨rc, s1⟩ := result
  cases rc with
  | ok => exact hpurge.trans (Notes.recordPurgeRequest ..).steps
  | declined =>
    simp only
    split
    · exact hpurge.trans (Notes.recordPurgeRequest ..).steps
    · exact hpurge
  | _ => exact hpurge

theorem purgeAll_steps (L : HeaderLayout) (call : PurgeCall) (s : Pilot) (ht : ∀ p, targets p) :
    PurgeSteps N L call.purge.soft zone targets s (purgeAll L call s).2 := by
  have hwalk : PurgeSteps N L call.purge.soft zone targets s
      { s with cache := (walkAll L call.walk call.purge.soft s.cache).2.2 } :=
    walkTree_steps (handles_all L call.walk.calls call.purge.soft) (fun _ p _ _ _ => ht p)
      call.walk.readable 0 call.walk.listing 0 s (.refl L s.cache.disk)
  unfold purgeAll
  generalize walkAll L call.walk call.purge.soft s.cache = result at hwalk
  obtain ⟨rc, purged, cache⟩ := result
  cases rc with
  | ok => exact hwalk.trans ((Notes.recordPurge ..).trans (Notes.recordPurgeRequest ..)).steps
  | _ => exact hwalk

/-! ## The handlers -/

/-- The files that a request may touch. -/
def PurgeCall.Targets (L : HeaderLayout) (access : IndexAccess) (call : PurgeCall) (s : Pilot)
    (p : Bytes) : Prop :=
  match call.kind with
  | .tag =>
    (∃ z, access.zone = some z ∧ Selected (recordsOf s.shm z) (keepTags [] call.tokens) p) ∨
      call.takenForExact = true ∧ KeyTargets access call.opened call.keys s.shm p
  | .all => True
  | .wildcard => PrefixTargets L access call.pool call.keys s p
  | .exact => KeyTargets access call.opened call.keys s.shm p

/-- A request that is taken for an exact purge is one, or one by tags. -/
theorem kind_of_takenForExact (h : call.takenForExact = true) : call.kind = .tag ∨ call.kind = .exact := by
  unfold PurgeCall.takenForExact at h
  simp only [Bool.and_eq_true, Bool.not_eq_true'] at h
  obtain ⟨⟨-, hall⟩, hpartial⟩ := h
  unfold PurgeCall.kind
  rw [hall, hpartial]
  split
  · exact Or.inl rfl
  · exact Or.inr rfl

theorem mode_of_ne_all (h : call.kind ≠ .all) : call.mode = call.request.soft := if_neg h

/-- What the handler does behind the purges that have run. -/
theorem finalHandler_steps {targets' : Bytes → Prop} {soft' : Bool}
    (hsteps : PurgeSteps N L soft' zone targets' s s') (hindex : IndexOk N s.shm)
    (ran : List PurgeStats) (failed : Bool) :
    PurgeSteps N L call.mode access.zone (call.Targets L access s) s'
      (finalHandler N L access call ran failed s').state := by
  rw [finalHandler_eq]
  split
  · next htaken =>
    have hkind := kind_of_takenForExact htaken
    have hexact : isPartial call.request.keys = false := by
      unfold PurgeCall.takenForExact at htaken
      simp only [Bool.and_eq_true, Bool.not_eq_true'] at htaken
      exact htaken.2
    have hmode : call.mode = call.request.soft := by
      refine mode_of_ne_all fun hall => ?_
      rw [hall] at hkind
      exact hkind.elim (nomatch ·) (nomatch ·)
    have ht : ∀ p, KeyTargets access call.opened call.keys s.shm p → call.Targets L access s p := by
      intro p hp
      unfold PurgeCall.Targets
      rcases hkind with hkind | hkind
      · rw [hkind]
        exact Or.inr ⟨htaken, hp⟩
      · rw [hkind]
        exact hp
    rw [hmode]
    have hpurge := exactPurgeOf_steps (L := L) (hsteps.index hindex) call.request call.opened
      fun p hp => ht p (hp.of_steps hsteps hindex)
    simp only [handler_exact hexact]
    generalize exactPurgeOf N L access call.opened call.request s' = result at hpurge
    obtain ⟨rc, s1⟩ := result
    cases rc with
    | declined =>
      simp only
      split
      · exact hpurge.trans (Notes.recordPurgeRequest ..).steps
      · exact hpurge
    | _ => exact hpurge
  · exact .refl s'

theorem dispatchSpecial_fails (he : locationEnabled call.conf = true)
    (h : call.reads call.tagPool = false) :
    dispatchSpecial N L access call s = ⟨false, .error, [], true, s⟩ := by
  unfold dispatchSpecial
  rw [if_pos he, requestHeaders_eq he, h, if_neg Bool.false_ne_true]

/-- The purge of a request's kind. -/
theorem dispatchSpecial_steps (L : HeaderLayout) (access : IndexAccess) (call : PurgeCall)
    (hindex : IndexOk N s.shm) :
    PurgeSteps N L call.mode access.zone (call.Targets L access s) s
        (dispatchSpecial N L access call s).state ∧
      ((dispatchSpecial N L access call s).handled = true →
        (dispatchSpecial N L access call s).rc = .done → call.kind = .wildcard) := by
  rcases Classical.em (locationEnabled call.conf = true → call.reads call.tagPool = true) with hread | hread
  · rw [dispatchSpecial_reads hread]
    cases hkind : call.kind with
    | tag =>
      have hmode : call.mode = call.request.soft := mode_of_ne_all (by rw [hkind]; decide)
      refine ⟨?_, fun _ hdone => ?_⟩
      · rw [hmode]
        refine dispatchTags_steps hindex call.request _ fun z hz p hp => ?_
        unfold PurgeCall.Targets
        rw [hkind]
        exact Or.inl ⟨z, hz, hp⟩
      · rcases dispatchTags_rc N L access call.request (keepTags [] call.tokens) s with h | h | h
        · exact nomatch hdone.symm.trans h
        · exact nomatch hdone.symm.trans h
        · exact nomatch hdone.symm.trans h
    | all =>
      have hmode : call.mode = call.purge.soft := if_pos hkind
      refine ⟨?_, fun _ hdone => ?_⟩
      · rw [hmode]
        refine purgeAll_steps L call s fun p => ?_
        unfold PurgeCall.Targets
        rw [hkind]
        exact trivial
      · have hno : (purgeAll L call s).1 ≠ .done := by
          unfold purgeAll
          split
          · exact (nomatch ·)
          · exact (nomatch ·)
        exact absurd hdone hno
    | wildcard =>
      have hmode : call.mode = call.request.soft := mode_of_ne_all (by rw [hkind]; decide)
      refine ⟨?_, fun _ _ => rfl⟩
      rw [hmode]
      refine partialPurge_steps hindex call.walk call.threads call.request fun p hp => ?_
      unfold PurgeCall.Targets
      rw [hkind]
      exact hp
    | exact => exact ⟨.refl s, fun h => nomatch h⟩
  · obtain ⟨he, hno⟩ := Classical.not_imp.mp hread
    rw [dispatchSpecial_fails he (Bool.eq_false_iff.mpr hno)]
    exact ⟨.refl s, fun h => nomatch h⟩

/-- The writes of a purge request. -/
theorem protocolHandler_steps (N : Nginx) (L : HeaderLayout) (access : IndexAccess) (call : PurgeCall)
    (s : Pilot) (hindex : IndexOk N s.shm) :
    PurgeSteps N L call.mode access.zone (call.Targets L access s) s
      (protocolHandler N L access call s).state := by
  obtain ⟨hspecial, hdone⟩ := dispatchSpecial_steps L access call hindex
  unfold protocolHandler
  simp only
  generalize dispatchSpecial N L access call s = d at hspecial hdone
  split
  · next hhandled =>
    split
    · exact hspecial.trans (finalHandler_steps hspecial hindex d.ran d.failed)
    · next hrc =>
      have hkind := hdone hhandled hrc
      have hmode : call.mode = call.request.soft := mode_of_ne_all (by rw [hkind]; decide)
      have hwalk : PurgeSteps N L call.request.soft access.zone (call.Targets L access s) d.state
          { d.state with cache := (walkPartial L call.walk call.request.soft (keyPartial call.keys)
            d.state.cache).2.2 } := by
        refine walkPartial_steps L call.walk call.request.soft (keyPartial call.keys) s.cache.disk d.state
          hspecial.tails fun p hp => ?_
        unfold PurgeCall.Targets
        rw [hkind]
        exact Or.inr hp
      rw [hmode] at hspecial ⊢
      have hall := hspecial.trans hwalk
      generalize walkPartial L call.walk call.request.soft (keyPartial call.keys) d.state.cache = walked
        at hall
      unfold partialCompletion
      split
      · exact hall
      · split
        · exact hall.trans (Notes.recordWildcardPurge ..).steps
        · exact hall
    · split
      · exact hspecial
      · exact hspecial
    · exact hspecial
  · exact hspecial.trans (finalHandler_steps hspecial hindex d.ran d.failed)

/-! ## One request -/

/-- Purge requests one after the other, each with the state that it finds. In between the
index, the nodes and the counters may change in any way, but no file. -/
inductive PurgeHistory (N : Nginx) (L : HeaderLayout) (access : IndexAccess) :
    List (PurgeCall × Pilot) → Pilot → Pilot → Prop
  | done (s : Pilot) : PurgeHistory N L access [] s s
  | purge {call : PurgeCall} {purges : List (PurgeCall × Pilot)} {s s' : Pilot} :
    PurgeHistory N L access purges (protocolHandler N L access call s).state s' →
    PurgeHistory N L access ((call, s) :: purges) s s'
  | other {purges : List (PurgeCall × Pilot)} {s s1 s' : Pilot} :
    s1.cache.disk = s.cache.disk → IndexOk N s1.shm → PurgeHistory N L access purges s1 s' →
    PurgeHistory N L access purges s s'

/-- Of two purges of a file either has left it as it now is. -/
theorem FileLeft.later {soft' : Bool} {data data' data'' : Option Bytes} (h : FileLeft L soft data data')
    (h' : FileLeft L soft' data' data'') : FileLeft L soft data data'' ∨ FileLeft L soft' data data'' := by
  rcases h' with rfl | ⟨hs', rfl⟩ | ⟨hs', d1, d2, hd1, hd2, hexpired'⟩
  · exact Or.inl h
  · exact Or.inr (Or.inr (Or.inl ⟨hs', rfl⟩))
  · rcases h with rfl | ⟨-, rfl⟩ | ⟨-, d, e, hd, he, hexpired⟩
    · exact Or.inr (Or.inr (Or.inr ⟨hs', d1, d2, hd1, hd2, hexpired'⟩))
    · exact nomatch hd1
    · obtain rfl := Option.some.inj (he.symm.trans hd1)
      exact Or.inr (Or.inr (Or.inr ⟨hs', d, d2, hd, hd2, hexpired.trans hexpired'⟩))

/-- Over any history a file is as it was, or one of the requests that targeted it has left
it as it is: removed if that one was hard, expired and otherwise unchanged if it was soft. -/
theorem purges_never_corrupt (N : Nginx) (L : HeaderLayout) (access : IndexAccess)
    (purges : List (PurgeCall × Pilot)) (s s' : Pilot) (hindex : IndexOk N s.shm)
    (h : PurgeHistory N L access purges s s') (p : Bytes) :
    s'.cache.disk p = s.cache.disk p ∨ ∃ purge ∈ purges, purge.1.Targets L access purge.2 p ∧
      FileLeft L purge.1.mode (s.cache.disk p) (s'.cache.disk p) := by
  induction h with
  | done s => exact Or.inl rfl
  | other hdisk hindex1 _ ih =>
    rw [← hdisk]
    exact ih hindex1
  | @purge call purges s s' _ ih =>
    have hsteps := protocolHandler_steps N L access call s hindex
    obtain ⟨hother, hleft⟩ := hsteps.files p
    rcases ih (hsteps.index hindex) with heq | ⟨purge, hmem, ht, hlater⟩
    · rw [heq]
      rcases Classical.em (call.Targets L access s p) with ht | ht
      · exact Or.inr ⟨(call, s), List.mem_cons_self, ht, hleft⟩
      · exact Or.inl (hother ht)
    · rcases Classical.em (call.Targets L access s p) with htc | htc
      · rcases hleft.later hlater with hfirst | hsecond
        · exact Or.inr ⟨(call, s), List.mem_cons_self, htc, hfirst⟩
        · exact Or.inr ⟨purge, List.mem_cons_of_mem _ hmem, ht, hsecond⟩
      · rw [← hother htc]
        exact Or.inr ⟨purge, List.mem_cons_of_mem _ hmem, ht, hlater⟩

theorem purges_never_corrupt_sample :
    let s1 := (protocolHandler .reference .reference sampleAccess sampleSoft variantState).state
    let s2 := (protocolHandler .reference .reference sampleAccess sampleExact s1).state
    s2.cache.disk [98] = variantState.cache.disk [98] ∨
      ∃ purge ∈ [(sampleSoft, variantState), (sampleExact, s1)],
        purge.1.Targets .reference sampleAccess purge.2 [98] ∧
        FileLeft .reference purge.1.mode (variantState.cache.disk [98]) (s2.cache.disk [98]) :=
  purges_never_corrupt .reference .reference sampleAccess [(sampleSoft, variantState), (sampleExact, _)]
    variantState _ variantState_indexOk (.purge (.purge (.done _))) [98]

end CachePilot
