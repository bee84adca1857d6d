import CachePilot.Live.LogPhase
import CachePilot.Purge.Attempts
import CachePilot.Store.ZoneTimes

/-!
# What a purge leaves in the index

A purge of a file and the removal of its index entry are two steps, and each route
has the second one of its own or has none. The log phase of the purge request itself
comes last: behind an exact purge it finds a file name in `r->cache`, and writes the
entry of that file as it would for a response that had been stored.

Results:
* `run_entries`: the entries that a purge leaves, by route;
* `no_stale_entry_iff`: when a request that is answered 200 leaves no entry of a file
  that it deleted, or found missing;
* `purge_leaves_entries`: a purge of all files that leaves their entries, and an exact
  purge whose log phase writes one again.
-/

namespace CachePilot
open NgxString

variable {N : Nginx} {L : HeaderLayout} {access : IndexAccess} {r : PurgeRequest} {s : Pilot}
  {call : PurgeCall} {zoneName : Bytes} {soft : Bool}

/-! ## Entries -/

/-- The zone has an entry of the file. -/
def HasPath (shm : Shm) (zoneName p : Bytes) : Prop := ∃ rec ∈ recordsOf shm zoneName, rec.path = p

/-- Whether the file was deleted, or found missing. -/
def Attempt.touched (soft : Bool) (a : Attempt) : Bool :=
  a.rc == .declined || (a.rc == .ok && !soft)

def touchedPaths (soft : Bool) (tried : List Attempt) : List Bytes :=
  (tried.filter (Attempt.touched soft)).map Attempt.path

theorem touchedPaths_cons (soft : Bool) (a : Attempt) (tried : List Attempt) :
    touchedPaths soft (a :: tried) =
      if a.touched soft then a.path :: touchedPaths soft tried else touchedPaths soft tried := by
  unfold touchedPaths
  rw [List.filter_cons]
  cases a.touched soft with
  | true => rfl
  | false => rfl

theorem deleteFile_entries (h : IndexOk N s.shm) (now : Int) (zoneName path p : Bytes) :
    HasPath (deleteFile N now zoneName path s.shm).2 zoneName p ↔
      HasPath s.shm zoneName p ∧ p ≠ path := by
  unfold HasPath
  rw [(deleteFile_spec h.ok now zoneName path).2.1.own zoneName (sameZoneName_refl zoneName)]
  constructor
  · rintro ⟨rec, hrec, rfl⟩
    exact ⟨⟨rec, (mem_otherRecords.mp hrec).1, rfl⟩, (mem_otherRecords.mp hrec).2⟩
  · rintro ⟨⟨rec, hrec, rfl⟩, hne⟩
    exact ⟨rec, mem_otherRecords.mpr ⟨hrec, hne⟩, rfl⟩

/-- What is left in the index when these paths have been dropped from it. -/
structure Drops (N : Nginx) (zoneName : Bytes) (paths : List Bytes) (shm shm' : Shm) : Prop where
  ok : IndexOk N shm'
  entries : ∀ p, HasPath shm' zoneName p ↔ HasPath shm zoneName p ∧ p ∉ paths

namespace Drops

variable {shm shm' shm'' : Shm} {paths paths' : List Bytes}

theorem refl (h : IndexOk N shm) (zoneName : Bytes) : Drops N zoneName [] shm shm where
  ok := h
  entries _ := (and_iff_left List.not_mem_nil).symm

theorem single (h : IndexOk N s.shm) (now : Int) (zoneName path : Bytes) :
    Drops N zoneName [path] s.shm (deleteFile N now zoneName path s.shm).2 where
  ok := h.delete
  entries p := by
    rw [deleteFile_entries h now zoneName path p, List.mem_singleton]

theorem trans (h : Drops N zoneName paths shm shm') (h' : Drops N zoneName paths' shm' shm'') :
    Drops N zoneName (paths ++ paths') shm shm'' where
  ok := h'.ok
  entries p := by
    rw [h'.entries p, h.entries p, List.mem_append, not_or, and_assoc]

end Drops

/-! ## Loops -/

/-- A turn drops the entry of a file that it deletes or finds missing. -/
def DropsTouched (N : Nginx) (now : Int) (zoneName : Bytes) (soft : Bool)
    (one : Nat → Bytes → Pilot → NgxRc × Pilot) : Prop :=
  ∀ k path s, (one k path s).2.shm = match Attempt.touched soft ⟨path, (one k path s).1⟩ with
    | true => (deleteFile N now zoneName path s.shm).2
    | false => s.shm

theorem purgePaths_entries {one : Nat → Bytes → Pilot → NgxRc × Pilot} {now : Int}
    (hone : DropsTouched N now zoneName soft one) (k : Nat) (paths : List Bytes) (count : Nat)
    (hindex : IndexOk N s.shm) : Drops N zoneName (touchedPaths soft (loopTrail one k paths s).tried)
      s.shm (purgePaths one k paths count s).2.2.shm := by
  induction paths generalizing k count s with
  | nil => exact Drops.refl hindex zoneName
  | cons path paths ih =>
    have hturn : Drops N zoneName
        (if Attempt.touched soft ⟨path, (one k path s).1⟩ then [path] else [])
        s.shm (one k path s).2.shm := by
      rw [hone k path s]
      cases Attempt.touched soft ⟨path, (one k path s).1⟩ with
      | true => exact Drops.single hindex now zoneName path
      | false => exact Drops.refl hindex zoneName
    unfold loopTrail purgePaths
    cases hr : one k path s with | mk rc s1 =>
    rw [hr] at hturn
    -- what the turn drops comes before what the rest of the loop drops
    have hrest : ∀ count, Drops N zoneName
        (touchedPaths soft (⟨path, rc⟩ :: (loopTrail one (k + 1) paths s1).tried)) s.shm
        (purgePaths one (k + 1) paths count s1).2.2.shm := by
      intro count
      have htrans := hturn.trans (ih (k + 1) count hturn.ok)
      rw [touchedPaths_cons]
      cases ht : Attempt.touched soft ⟨path, rc⟩ with
      | true =>
        simp only [ht, if_true] at htrans
        exact htrans
      | false =>
        simp only [ht, Bool.false_eq_true, if_false] at htrans
        exact htrans
    cases rc with
    | ok => exact hrest (count + 1)
    | declined => exact hrest count
    | error => exact hturn
    | again => exact hturn
    | done => exact hturn

theorem byIndexedPath_drops (N : Nginx) (L : HeaderLayout) (calls : Nat → FileCalls) (now : Int)
    (zoneName : Bytes) :
    DropsTouched N now zoneName false fun k => byIndexedPath N L (calls k) now zoneName false := by
  intro k path s
  show (byIndexedPath N L (calls k) now zoneName false path s).2.shm =
    match Attempt.touched false ⟨path, (byIndexedPath N L (calls k) now zoneName false path s).1⟩ with
    | true => (deleteFile N now zoneName path s.shm).2
    | false => s.shm
  unfold byIndexedPath purgeByPath
  cases byPath L (calls k) false path s.cache with | mk rc cache =>
  cases rc with
  | _ => rfl

theorem purgeTagged_drops (N : Nginx) (L : HeaderLayout) (calls : Nat → FileCalls) (now : Int)
    (zoneName : Bytes) (soft : Bool) :
    DropsTouched N now zoneName soft fun k => purgeTagged N L (calls k) now zoneName soft := by
  intro k path s
  show (purgeTagged N L (calls k) now zoneName soft path s).2.shm =
    match Attempt.touched soft ⟨path, (purgeTagged N L (calls k) now zoneName soft path s).1⟩ with
    | true => (deleteFile N now zoneName path s.shm).2
    | false => s.shm
  unfold purgeTagged purgeByPath
  cases byPath L (calls k) soft path s.cache with | mk rc cache =>
  cases soft with
  | true =>
    cases rc with
    | _ => rfl
  | false =>
    cases rc with
    | _ => rfl

/-! ## Routes -/

/-- Whether an exact purge gets as far as to look its key up. -/
def keyIndexed (access : IndexAccess) (r : PurgeRequest) : Bool :=
  access.ready.isSome && (cacheKeyText r.pool r.keys).isSome

/-- The entries that an exact purge drops: of what a hard one tries, if it can look
its key up. -/
def exactCleaned (N : Nginx) (L : HeaderLayout) (access : IndexAccess) (opened : CacheOpen)
    (r : PurgeRequest) (s : Pilot) : List Bytes :=
  match opened with
  | .opened o =>
    if (s.cache.node o.node).present && !r.soft && keyIndexed access r then
      o.name :: touchedPaths false (exactTrail N L access opened r s).tried
    else []
  | _ => []

/-- The entries that a wildcard purge drops: of what a hard one tries through the
index. -/
def wildcardCleaned (N : Nginx) (L : HeaderLayout) (access : IndexAccess) (r : PurgeRequest)
    (s : Pilot) : List Bytes :=
  match keyPrefix r.pool r.keys with
  | none => []
  | some pre => if r.soft then [] else touchedPaths false (indexTrail N L access r pre s).tried

/-- The entries that a purge drops. -/
def PurgeCall.cleaned (N : Nginx) (L : HeaderLayout) (access : IndexAccess) (call : PurgeCall)
    (s : Pilot) : List Bytes :=
  match call.kind with
  | .tag =>
    touchedPaths call.request.soft (tagTrail N L access call.request (keepTags [] call.tokens) s).tried
  | .all => []
  | .wildcard => wildcardCleaned N L access call.request s
  | .exact => exactCleaned N L access call.opened call.request s

theorem Drops.congr {paths paths' : List Bytes} {shm shm' : Shm} (h : Drops N zoneName paths shm shm')
    (hmem : ∀ p, p ∈ paths ↔ p ∈ paths') : Drops N zoneName paths' shm shm' where
  ok := h.ok
  entries p := by rw [h.entries p, hmem p]

theorem ready_zone (hzone : access.zone = some zoneName) :
    access.ready = none ∨ access.ready = some zoneName := by
  unfold IndexAccess.ready
  split
  · exact Or.inr hzone
  · exact Or.inl rfl

variable (N L access r s) in
/-- A soft fanout leaves the index alone. -/
theorem exactFanout_soft_shm (o : OpenedCache) :
    (exactFanout N L access r true o s).2.2.shm = s.shm := by
  obtain ⟨-, -, hshm⟩ := keyIndexReady_eq access r.pool s
  have hquery := fanoutList_query N access r s true o
  rw [exactFanout_eq]
  generalize fanoutList N access r true o s = result at hquery
  obtain ⟨list, s1⟩ := result
  have hs1 : s1.shm = s.shm := by
    cases hquery with
    | skipped _ hstart =>
      rw [hstart]
      exact hshm
    | queried _ _ hstart =>
      rw [hstart]
      exact hshm
  cases list with
  | none => exact hs1
  | some list => exact (purgePaths_keeps Pilot.shm (fun _ _ _ => rfl) 0 list.2 0 s1).trans hs1

/-- A hard one that can look its key up drops the opened file's entry, and then those of
what it tries. -/
theorem exactFanout_entries (hzone : access.zone = some zoneName) (hindex : IndexOk N s.shm)
    (o : OpenedCache) : Drops N zoneName
      (if keyIndexed access r then o.name :: touchedPaths false (fanoutTrail N L access r false o s).tried
      else []) s.shm (exactFanout N L access r false o s).2.2.shm := by
  obtain ⟨-, -, hshm⟩ := keyIndexReady_eq access r.pool s
  have hkept : Drops N zoneName [] s.shm (keyIndexReady access r.pool s).2.shm := by
    rw [hshm]
    exact Drops.refl hindex zoneName
  have hquery := fanoutList_query N access r s false o
  rw [exactFanout_eq, fanoutTrail_eq]
  unfold keyIndexed
  generalize fanoutList N access r false o s = result at hquery
  cases hquery with
  | skipped h hstart =>
    have hno : (access.ready.isSome && (cacheKeyText r.pool r.keys).isSome) = false := by
      rcases h with h | h
      · rw [h]
        rfl
      · rw [h]
        exact Bool.and_false _
    rw [hno, if_neg Bool.false_ne_true, hstart]
    exact hkept
  | @queried zoneName' keyText s1 hready hkey hstart =>
    obtain rfl : zoneName' = zoneName := by
      rcases ready_zone hzone with h | h
      · exact nomatch hready.symm.trans h
      · exact Option.some.inj (hready.symm.trans h)
    rw [hready, hkey]
    have hown : Drops N zoneName' [o.name] s.shm s1.shm := by
      rw [hstart]
      exact hkept.trans (Drops.single hkept.ok r.now zoneName' o.name)
    cases collectPathsByExactKey N r.pool.collect s1.shm zoneName' keyText with
    | none => exact hown
    | some paths =>
      exact hown.trans (purgePaths_entries
        (byIndexedPath_drops N L r.calls r.now zoneName') 0 paths 0 hown.ok)

@[simp] theorem releaseUpdating_shm (o : OpenedCache) (s : Pilot) : (releaseUpdating o s).shm = s.shm := by
  unfold releaseUpdating
  simp only
  split
  · rfl
  · rfl

@[simp] theorem recordExactPurge_shm (pool : PurgePool) (soft : Bool) (fanned : Nat) (s : Pilot) :
    (recordExactPurge pool soft fanned s).shm = s.shm := by
  unfold recordExactPurge
  simp only [Pilot.recordPurge_shm]
  split
  · exact Pilot.setResponsePath_shm pool .exactKeyFanout s
  · rfl

variable (N L access r s) in
/-- A soft exact purge leaves the index alone. -/
theorem exactPurgeSoft_shm (opened : CacheOpen) :
    (exactPurgeSoft N L access opened r s).2.shm = s.shm := by
  unfold exactPurgeSoft
  cases opened with
  | declined => exact Pilot.setDeclineReason_shm r.pool .notFound s
  | again => rfl
  | error => rfl
  | opened o =>
    simp only
    split
    · exact Pilot.setDeclineReason_shm r.pool .notFound s
    · cases softHeader L r.resolved o.name s.cache with | mk rc cache =>
      cases rc with
      | declined => simp only [Pilot.setDeclineReason_shm]
      | ok =>
        simp only
        have hfan := exactFanout_soft_shm N L access r
          { s with cache := cache.setNode o.node { cache.node o.node with validSec := 0 } } o
        generalize exactFanout N L access r true o
          { s with cache := cache.setNode o.node { cache.node o.node with validSec := 0 } } =
            fanout at hfan
        obtain ⟨rc, fanned, s1⟩ := fanout
        cases rc with
        | error =>
          simp only [releaseUpdating_shm]
          exact hfan
        | _ =>
          simp only [releaseUpdating_shm, recordExactPurge_shm, Pilot.recordPurgeRequest_shm]
          exact hfan
      | _ => rfl

theorem exactPurge_entries (hzone : access.zone = some zoneName) (hindex : IndexOk N s.shm)
    (hhard : r.soft = false) (opened : CacheOpen) :
    Drops N zoneName (exactCleaned N L access opened r s) s.shm
      (exactPurge N L access opened r s).2.shm := by
  have hkept := Drops.refl hindex zoneName
  unfold exactPurge exactCleaned
  cases opened with
  | declined =>
    simp only [Pilot.setDeclineReason_shm]
    exact hkept
  | again => exact hkept
  | error => exact hkept
  | opened o =>
    cases hpresent : (s.cache.node o.node).present with
    | false =>
      simp only [deleteOpenedFile_gone hpresent, hpresent, Bool.false_and, Bool.false_eq_true, if_false,
        Pilot.setDeclineReason_shm]
      exact hkept
    | true =>
      obtain ⟨cache, hopened, -⟩ := deleteOpenedFile_present hpresent r.resolved
      unfold exactTrail
      simp only [hopened, hhard, hpresent, Bool.not_true, Bool.not_false, Bool.false_eq_true, if_false,
        Bool.true_and]
      have hfan := exactFanout_entries (L := L) (r := r)
        (s := Pilot.recordPurgeRequest .exact false { s with cache := cache }) hzone hindex o
      generalize fanoutTrail N L access r false o
        (Pilot.recordPurgeRequest .exact false { s with cache := cache }) = t at hfan ⊢
      -- the opened file stands before what the fanout tries
      have hown : ∀ p, p ∈ (if keyIndexed access r then o.name :: touchedPaths false t.tried else []) ↔
          p ∈ (if keyIndexed access r then o.name :: touchedPaths false
            (t.cons ⟨o.name, unlinkRc r.resolved o.name s.cache⟩).tried else []) := by
        intro p
        cases keyIndexed access r with
        | false => exact Iff.rfl
        | true =>
          show p ∈ o.name :: touchedPaths false t.tried ↔
            p ∈ o.name :: touchedPaths false (⟨o.name, unlinkRc r.resolved o.name s.cache⟩ :: t.tried)
          rw [touchedPaths_cons]
          split
          · simp only [List.mem_cons, or_self_left]
          · exact Iff.rfl
      have hfan' := hfan.congr hown
      generalize exactFanout N L access r false o
        (Pilot.recordPurgeRequest .exact false { s with cache := cache }) = fanout at hfan'
      obtain ⟨rc, fanned, s1⟩ := fanout
      cases rc with
      | error =>
        simp only [releaseUpdating_shm]
        exact hfan'
      | _ =>
        simp only [releaseUpdating_shm, recordExactPurge_shm]
        exact hfan'

theorem exactPurgeOf_entries (hzone : access.zone = some zoneName) (hindex : IndexOk N s.shm)
    (opened : CacheOpen) : Drops N zoneName (exactCleaned N L access opened r s) s.shm
      (exactPurgeOf N L access opened r s).2.shm := by
  unfold exactPurgeOf
  cases hsoft : r.soft with
  | false =>
    rw [if_neg Bool.false_ne_true]
    exact exactPurge_entries hzone hindex hsoft opened
  | true =>
    have hnone : exactCleaned N L access opened r s = [] := by
      unfold exactCleaned
      cases opened with
      | opened o =>
        simp only [hsoft, Bool.not_true, Bool.and_false, Bool.false_and, Bool.false_eq_true, if_false]
      | _ => rfl
    rw [if_pos rfl, hnone, exactPurgeSoft_shm]
    exact Drops.refl hindex zoneName

/-- The index part of a wildcard purge. -/
theorem partialFromIndex_entries (hzone : access.zone = some zoneName) (hindex : IndexOk N s.shm)
    (pre : Bytes) : Drops N zoneName
      (if r.soft then [] else touchedPaths false (indexTrail N L access r pre s).tried) s.shm
      (partialFromIndex N L access r pre s).2.2.shm := by
  obtain ⟨hz, -, hshm⟩ := keyIndexReady_eq access r.pool s
  unfold partialFromIndex indexTrail
  generalize keyIndexReady access r.pool s = ready at hz hshm
  obtain ⟨z, s1⟩ := ready
  simp only at hz hshm
  have hkept : Drops N zoneName [] s.shm s1.shm := by
    rw [hshm]
    exact Drops.refl hindex zoneName
  have hnone : Drops N zoneName (if r.soft then [] else touchedPaths false Trail.empty.tried) s.shm
      s1.shm := by
    cases r.soft with
    | true => exact hkept
    | false => exact hkept
  cases z with
  | none => exact hnone
  | some zoneName' =>
    have hzn : zoneName' = zoneName := by
      rcases ready_zone hzone with h | h
      · exact nomatch hz.trans h
      · exact Option.some.inj (hz.trans h)
    subst hzn
    simp only
    cases collectPathsByKeyPrefix r.pool.collect s1.shm zoneName' pre with
    | none => exact hnone
    | some paths =>
      cases r.soft with
      | true =>
        have hloop : (purgePaths (fun k => byIndexedPath N L (r.calls k) r.now zoneName' true) 0 paths
            0 s1).2.2.shm = s1.shm := purgePaths_keeps Pilot.shm (fun _ _ _ => rfl) 0 paths 0 s1
        simp only [if_true, hloop]
        exact hkept
      | false =>
        simp only [Bool.false_eq_true, if_false]
        exact hkept.trans (purgePaths_entries
          (byIndexedPath_drops N L r.calls r.now zoneName') 0 paths 0 hkept.ok)

/-- Behind its index part a wildcard purge leaves the index alone. -/
theorem partialPurge_shm (w : Walk) (threads : Option Bool) {pre : Bytes}
    (hpre : keyPrefix r.pool r.keys = some pre) :
    (partialPurge N L access w threads r s).2.shm = (partialFromIndex N L access r pre s).2.2.shm := by
  unfold partialPurge
  simp only [hpre]
  cases partialFromIndex N L access r pre s with | mk rc index =>
  obtain ⟨purged, s1⟩ := index
  have hpath : (s1.setResponsePath r.pool .filesystemFallback).shm = s1.shm :=
    Pilot.setResponsePath_shm _ _ s1
  cases rc with
  | error => rfl
  | _ =>
    simp only
    split
    · simp [Pilot.recordKeyIndexWildcardHit]
    · split
      · rfl
      · cases threads with
        | some posted =>
          cases posted with
          | true => exact hpath
          | false => rfl
        | none =>
          simp only
          split
          · exact (Pilot.recordPurge_shm _ _ _ _ _).trans hpath
          · exact hpath

theorem wildcardRequest_shm (w : Walk) (threads : Option Bool) (terminated : Bool)
    (hpart : isPartial r.keys = true) :
    (wildcardRequest N L access w threads terminated r s).2.shm =
      (partialPurge N L access w threads r s).2.shm := by
  unfold wildcardRequest
  simp only [handler_asterisk hpart]
  cases partialPurge N L access w threads r s with | mk rc s1 =>
  cases rc with
  | done =>
    simp only [partialCompletion]
    split
    · rfl
    · split
      · exact Pilot.recordPurge_shm _ _ _ _ _
      · rfl
  | _ => rfl

theorem indexPurge_entries (hzone : access.zone = some zoneName) (hindex : IndexOk N s.shm)
    (tags : List Bytes) : Drops N zoneName (touchedPaths r.soft (tagTrail N L access r tags s).tried)
      s.shm (indexPurge N L access r tags s).2.shm := by
  have hkept := Drops.refl hindex zoneName
  have hreason : ∀ reason, Drops N zoneName [] s.shm (s.setDeclineReason r.pool reason).shm := by
    intro reason
    rw [Pilot.setDeclineReason_shm]
    exact hkept
  unfold indexPurge tagTrail
  split
  · exact hreason .indexNotConfigured
  · simp only [hzone]
    split
    · exact hreason .readerUnavailable
    · split
      · exact hreason .indexNotReady
      · cases collectPathsByTags N r.pool.collect s.shm zoneName tags with
        | none => exact hkept
        | some paths =>
          simp only
          have hloop := purgePaths_entries
            (purgeTagged_drops N L r.calls r.now zoneName r.soft) 0 paths 0 hindex
          generalize purgePaths (fun k => purgeTagged N L (r.calls k) r.now zoneName r.soft) 0 paths 0
            s = loop at hloop
          obtain ⟨rc, purged, s1⟩ := loop
          cases rc with
          | ok =>
            simp only
            split
            · rw [Pilot.setResponsePath_shm, Pilot.recordPurge_shm]
              exact hloop
            · rw [Pilot.setDeclineReason_shm]
              exact hloop
          | _ => exact hloop

/-- Each purge drops the entries of its route, and no other ones. -/
theorem run_entries (hzone : access.zone = some zoneName) (hindex : IndexOk N s.shm) :
    Drops N zoneName (call.cleaned N L access s) s.shm (call.run N L access s).2.shm := by
  have hkept := Drops.refl hindex zoneName
  unfold PurgeCall.cleaned PurgeCall.run
  cases hkind : call.kind with
  | tag =>
    have hdrops := indexPurge_entries (L := L) (r := call.request) hzone hindex
      (keepTags [] call.tokens)
    rw [← (dispatchTags_state access call.request s _).2] at hdrops
    generalize dispatchTags N L access call.request (keepTags [] call.tokens) s = result at hdrops
    obtain ⟨rc, s1⟩ := result
    cases rc with
    | _ => exact hdrops
  | all =>
    have hdrops : Drops N zoneName [] s.shm (purgeAll L call s).2.shm := by
      unfold purgeAll
      split
      · rw [Pilot.recordPurgeRequest_shm, Pilot.recordPurge_shm]
        exact hkept
      · exact hkept
    generalize purgeAll L call s = result at hdrops
    obtain ⟨rc, s1⟩ := result
    cases rc with
    | _ => exact hdrops
  | wildcard =>
    have hpart : isPartial call.request.keys = true := call.kind_asterisk.1 hkind
    simp only [wildcardRequest_shm call.walk call.threads call.terminated hpart]
    unfold wildcardCleaned
    cases hpre : keyPrefix call.request.pool call.request.keys with
    | none =>
      unfold partialPurge
      simp only [hpre]
      exact hkept
    | some pre =>
      rw [partialPurge_shm call.walk call.threads hpre]
      exact partialFromIndex_entries hzone hindex pre
  | exact =>
    have hdrops := exactPurgeOf_entries (L := L) (r := call.request) hzone hindex call.opened
    have hexact : isPartial call.request.keys = false := call.kind_asterisk.2 hkind
    simp only [handler_exact hexact]
    generalize exactPurgeOf N L access call.opened call.request s = result at hdrops
    obtain ⟨rc, s1⟩ := result
    cases rc with
    | declined =>
      simp only
      split
      · exact hdrops
      · exact hdrops
    | _ => exact hdrops

/-! ## The log phase of a purge -/

/-- What the end of a purge request depends on: the file that its key resolves to,
whether `ngx_http_file_cache_open` found that file missing, the headers of the answer,
and the allocations of the log phase. -/
structure Closing where
  name : Bytes
  missing : Bool
  headers : List TableElt
  pool : LogPool

/-- `r->cache->file.name` in the log phase; only an exact purge looks for a file. -/
def PurgeCall.fileName (call : PurgeCall) (c : Closing) : Bytes :=
  match call.kind, call.opened with
  | .exact, .opened o => o.name
  | .exact, _ => c.name
  | _, _ => []

/-- The purge request as the handlers of `Live.LogPhase` find it: nothing came from
upstream. -/
def PurgeCall.live (access : IndexAccess) (call : PurgeCall) (c : Closing) : LiveRequest where
  conf := call.conf
  zone := access.zone
  writer := access.writer
  cache := some ⟨call.fileName c, call.keys⟩
  upstream := some ⟨false, .unset⟩
  headers := c.headers
  pool := c.pool
  now := call.now

/-- Whether the log phase writes an entry of the file. -/
def PurgeCall.rewrites (access : IndexAccess) (call : PurgeCall) (c : Closing) (p : Bytes) : Bool :=
  p == call.fileName c && !p.isEmpty && locationEnabled call.conf &&
    (responseHeaders c.pool.lateTags c.headers (call.conf.cacheTagHeaders.getD [])).isOk &&
    access.writer && c.pool.key

/-- What it writes. -/
def PurgeCall.logWrite (N : Nginx) (call : PurgeCall) (c : Closing) (zoneName : Bytes) (shm : Shm) :
    NgxRc × Shm :=
  upsertFileMeta N c.pool.index call.now zoneName (call.fileName c) (cacheKey call.keys) call.now 0
    (tagsOf (call.conf.cacheTagHeaders.getD []) c.headers) shm

/-- Every block of the entry that it writes can be had: that of the file, those of its key
and its tags where the zone has none of them, and a member for each tag. -/
def PurgeCall.EntryFits (N : Nginx) (call : PurgeCall) (c : Closing) (zoneName : Bytes) (shm : Shm) : Prop :=
  UpsertFits N c.pool.index zoneName (call.fileName c) (cacheKey call.keys)
    (tagsOf (call.conf.cacheTagHeaders.getD []) c.headers) shm

/-- The files that a purge deleted or found missing. -/
def PurgeCall.touched (N : Nginx) (L : HeaderLayout) (access : IndexAccess) (call : PurgeCall)
    (c : Closing) (s : Pilot) : List Bytes :=
  touchedPaths call.mode (call.trail N L access s).tried ++
    match call.kind, call.opened with
    | .exact, .declined => if c.missing then [c.name] else []
    | _, _ => []

theorem logPhase_purge (hzone : access.zone = some zoneName) (c : Closing) (shm : Shm) :
    logPhase N (call.live access c) shm =
      if call.rewrites access c (call.fileName c) then (call.logWrite N c zoneName shm).2 else shm := by
  have hfilter : headerFilter (call.live access c) = .ok none := rfl
  unfold logPhase
  rw [hfilter]
  show logHandler N (call.live access c) none shm = _
  unfold logHandler lateCapture PurgeCall.rewrites
  simp only [PurgeCall.live, hzone, Option.map_some, beq_self_eq_true, Bool.true_and]
  cases hname : call.fileName c with
  | nil => rfl
  | cons b name =>
    have hlen : ¬ (b :: name).length = 0 := Nat.succ_ne_zero _
    rw [if_neg hlen, if_neg (nomatch ·)]
    cases locationEnabled call.conf with
    | false => rfl
    | true =>
      simp only [LiveRequest.wanted]
      cases htags : responseHeaders c.pool.lateTags c.headers (call.conf.cacheTagHeaders.getD []) with
      | error rc => rfl
      | ok tags =>
        obtain rfl : tags = tagsOf _ c.headers := responseHeaders_tags htags
        cases access.writer with
        | false => rfl
        | true =>
          cases c.pool.key with
          | false => rfl
          | true =>
            show _ = (call.logWrite N c zoneName shm).2
            unfold PurgeCall.logWrite
            rw [hname]
            rfl

/-- What the log phase leaves of the entries. -/
theorem logPhase_entries (hzone : access.zone = some zoneName) {shm : Shm} (hindex : IndexOk N shm)
    (c : Closing) (p : Bytes) : HasPath (logPhase N (call.live access c) shm) zoneName p ↔
      if call.rewrites access c p then call.EntryFits N c zoneName shm
      else HasPath shm zoneName p := by
  have hfits : (call.logWrite N c zoneName shm).1 = .ok ↔ call.EntryFits N c zoneName shm :=
    upsertFileMeta_ok_iff hindex.ok ..
  rw [logPhase_purge hzone, ← hfits]
  -- the log phase writes one file at most
  have hown : call.rewrites access c p = true → p = call.fileName c := by
    intro h
    unfold PurgeCall.rewrites at h
    simp only [Bool.and_eq_true, beq_iff_eq] at h
    exact h.1.1.1.1.1
  cases hw : call.rewrites access c (call.fileName c) with
  | false =>
    have hp : call.rewrites access c p = false := by
      cases hp : call.rewrites access c p with
      | false => rfl
      | true =>
        rw [← hown hp, hp] at hw
        exact nomatch hw
    rw [hp, if_neg Bool.false_ne_true, if_neg Bool.false_ne_true]
  | true =>
    rw [if_pos rfl]
    obtain ⟨-, hchanges, -⟩ := upsertFileMeta_spec hindex.ok c.pool.index call.now zoneName
      (call.fileName c) (cacheKey call.keys) call.now 0
      (tagsOf (call.conf.cacheTagHeaders.getD []) c.headers)
    change Changes N shm (call.logWrite N c zoneName shm).2 zoneName
      (upserted (call.logWrite N c zoneName shm).1 _ _ _ _) at hchanges
    unfold HasPath
    rw [hchanges.own zoneName (sameZoneName_refl zoneName)]
    generalize call.logWrite N c zoneName shm = result
    unfold upserted
    cases hp : decide (p = call.fileName c) with
    | true =>
      obtain rfl := of_decide_eq_true hp
      rw [hw, if_pos rfl]
      constructor
      · rintro ⟨rec, hrec, hpath⟩
        by_contra hrc
        rw [if_neg hrc] at hrec
        exact (mem_otherRecords.mp hrec).2 hpath
      · intro hrc
        rw [if_pos hrc]
        exact ⟨_, List.mem_append_right _ (List.mem_singleton_self _), rfl⟩
    | false =>
      have hne : p ≠ call.fileName c := of_decide_eq_false hp
      rw [if_neg (mt hown hne)]
      constructor
      · rintro ⟨rec, hrec, rfl⟩
        refine ⟨rec, ?_, rfl⟩
        split at hrec
        · rcases List.mem_append.mp hrec with hrec | hrec
          · exact (mem_otherRecords.mp hrec).1
          · rw [List.mem_singleton.mp hrec] at hne
            exact absurd rfl hne
        · exact (mem_otherRecords.mp hrec).1
      · rintro ⟨rec, hrec, rfl⟩
        have hother : rec ∈ otherRecords (recordsOf shm zoneName) (call.fileName c) :=
          mem_otherRecords.mpr ⟨hrec, hne⟩
        refine ⟨rec, ?_, rfl⟩
        split
        · exact List.mem_append_left _ hother
        · exact hother

/-! ## Stale entries -/

/-- A request that is answered 200 leaves no entry of a file that it deleted or found
missing, if each such file had none before, or was tried where the entries are
dropped; and if the log phase does not write a new one, or has no room for all of it. -/
theorem no_stale_entry_iff (N : Nginx) (L : HeaderLayout) (access : IndexAccess) (call : PurgeCall)
    (c : Closing) (s : Pilot) (zoneName : Bytes) (hzone : access.zone = some zoneName)
    (hindex : IndexOk N s.shm) :
    let result := call.run N L access s
    let shm := logPhase N (call.live access c) result.2.shm
    (result.1 = some .ok → ∀ p ∈ call.touched N L access c s, ¬ HasPath shm zoneName p) ↔
      (result.1 = some .ok → ∀ p ∈ call.touched N L access c s,
        if call.rewrites access c p then ¬ call.EntryFits N c zoneName result.2.shm
        else HasPath s.shm zoneName p → p ∈ call.cleaned N L access s) := by
  intro result shm
  have hdrops : Drops N zoneName (call.cleaned N L access s) s.shm result.2.shm :=
    run_entries hzone hindex
  refine forall_congr' fun _ => forall_congr' fun p => forall_congr' fun _ => ?_
  rw [logPhase_entries hzone hdrops.ok c p, hdrops.entries p]
  cases call.rewrites access c p with
  | true =>
    rw [if_pos rfl, if_pos rfl]
  | false =>
    rw [if_neg Bool.false_ne_true, if_neg Bool.false_ne_true, not_and, not_not]

/-- A hard purge of all files, in the location of `sampleCall`. -/
def sampleAll : PurgeCall :=
  { sampleCall true with headers := [], purge := ⟨some true, some true, some [], false, true⟩ }

/-- A hard purge of the key `k` that opens the file `a`. -/
def sampleExact : PurgeCall :=
  { sampleCall true with headers := [], opened := .opened ⟨[97], 0, false, 0⟩ }

/-- A log phase for which nothing fails. -/
def sampleClosing : Closing :=
  ⟨[97], false, [], ⟨⟨true, fun _ => true⟩, true, ⟨true, fun _ => true⟩, true, fun _ => true⟩⟩

theorem variantState_indexOk : IndexOk .reference variantState.shm :=
  runStore_indexOk .reference (by decide)

theorem no_stale_entry_iff_sample :
    let result := sampleAll.run .reference .reference sampleAccess variantState
    let shm := logPhase .reference (sampleAll.live sampleAccess sampleClosing) result.2.shm
    (result.1 = some .ok →
        ∀ p ∈ sampleAll.touched .reference .reference sampleAccess sampleClosing variantState,
          ¬ HasPath shm [122] p) ↔
      (result.1 = some .ok →
        ∀ p ∈ sampleAll.touched .reference .reference sampleAccess sampleClosing variantState,
          if sampleAll.rewrites sampleAccess sampleClosing p then
            ¬ sampleAll.EntryFits .reference sampleClosing [122] result.2.shm
          else HasPath variantState.shm [122] p →
            p ∈ sampleAll.cleaned .reference .reference sampleAccess variantState) :=
  no_stale_entry_iff .reference .reference sampleAccess sampleAll sampleClosing variantState [122] rfl
    variantState_indexOk

/-- A purge of all files deletes both variants and leaves both entries; and an exact
purge drops the entry of the file that it deletes, which its log phase writes again. -/
theorem purge_leaves_entries : IndexOk .reference variantState.shm ∧
    (let result := sampleAll.run .reference .reference sampleAccess variantState
      let shm := logPhase .reference (sampleAll.live sampleAccess sampleClosing) result.2.shm
      result.1 = some .ok ∧ (result.2.cache.disk [97]).isNone = true ∧
        ¬ ∀ p ∈ sampleAll.touched .reference .reference sampleAccess sampleClosing variantState,
          ¬ HasPath shm [122] p) ∧
    (let result := sampleExact.run .reference .reference sampleAccess variantState
      let shm := logPhase .reference (sampleExact.live sampleAccess sampleClosing) result.2.shm
      result.1 = some .ok ∧ (result.2.cache.disk [97]).isNone = true ∧
        ¬ HasPath result.2.shm [122] [97] ∧
        ¬ ∀ p ∈ sampleExact.touched .reference .reference sampleAccess sampleClosing variantState,
          ¬ HasPath shm [122] p) := by
  refine ⟨variantState_indexOk, ?_, ?_⟩
  · have hall : [97] ∈ sampleAll.touched .reference .reference sampleAccess sampleClosing
        variantState := by decide +kernel
    have hleft : HasPath (logPhase .reference (sampleAll.live sampleAccess sampleClosing)
        (sampleAll.run .reference .reference sampleAccess variantState).2.shm) [122] [97] := by
      unfold HasPath
      decide +kernel
    exact ⟨by decide +kernel, by decide +kernel, fun h => h [97] hall hleft⟩
  · have hexact : [97] ∈ sampleExact.touched .reference .reference sampleAccess sampleClosing
        variantState := by decide +kernel
    have hdropped : ¬ HasPath
        (sampleExact.run .reference .reference sampleAccess variantState).2.shm [122] [97] := by
      unfold HasPath
      decide +kernel
    have hleft : HasPath (logPhase .reference (sampleExact.live sampleAccess sampleClosing)
        (sampleExact.run .reference .reference sampleAccess variantState).2.shm) [122] [97] := by
      unfold HasPath
      decide +kernel
    exact ⟨by decide +kernel, by decide +kernel, hdropped, fun h => h [97] hexact hleft⟩

end CachePilot
