import CachePilot.Purge.Counters
import CachePilot.Purge.Hard

/-!
# Repeated purges

A hard purge that is run a second time, with the index and the disk that the first run
and its log phase have left. A wildcard purge may take the index the first time and the
walk the second time, and these need not agree on what the prefix selects.

Results:
* `hard_purge_idempotent_iff`: the second of two runs for which nothing fails is answered
  200, reports nothing and leaves the disk exactly when the purge can run and, if it is a
  wildcard purge, the index settles it;
* `repeated_wildcard_removes`: a second run that removes and reports the file that the
  index did not know.
-/

namespace CachePilot
open NgxString Removal

variable {N : Nginx} {L : HeaderLayout} {access : IndexAccess} {r : PurgeRequest} {s : Pilot}
  {call call' : PurgeCall} {zoneName : Bytes}

/-! ## Runs for which nothing fails -/

/-- No allocation and no file operation of a request fails, its walk gets to every file,
and its client waits for the answer. -/
structure PurgeCall.Unhindered (call : PurgeCall) (disk : Disk) : Prop where
  pool : call.pool = .full
  files : call.request.FilesWork
  listing : ∀ p, (disk p).isSome = true → p ∈ call.walk.listing
  readable : call.walk.readable = true
  walk : ∀ k, call.walk.calls k = .works
  threads : call.threads ≠ some false
  terminated : call.terminated = false
  tagPool : call.tagPool = ⟨true, fun _ => true⟩
  handlerPool : call.handlerPool = ⟨true, fun _ => true⟩

/-- A run that is answered 200, reports nothing and leaves the disk. -/
structure Vain (s : Pilot) (result : Option Answer × Pilot) : Prop where
  answer : result.1 = some .ok
  reported : ∀ type soft, result.2.reported type soft = 0
  disk : result.2.cache.disk = s.cache.disk

@[simp] theorem Pilot.setDeclineReason_reported (pool : PurgePool) (reason : DeclineReason) (s : Pilot) :
    (s.setDeclineReason pool reason).reported = s.reported :=
  congrArg (fun report => report.2.1) (s.setDeclineReason_report pool reason)

@[simp] theorem Pilot.recordPurgeRequest_reported (type : PurgeStats) (soft : Bool) (s : Pilot) :
    (s.recordPurgeRequest type soft).reported = s.reported := rfl

theorem Pilot.recordPurge_zero (pool : PurgePool) (type : PurgeStats) (soft : Bool) (s : Pilot) :
    s.recordPurge pool type soft 0 = s := if_pos (Or.inl rfl)

/-- The second execution of a request: of its own are the clock and what the system
makes of it. -/
structure PurgeCall.Repeats (call call' : PurgeCall) : Prop where
  conf : call'.conf = call.conf
  purge : call'.purge = call.purge
  headers : call'.headers = call.headers
  keys : call'.keys = call.keys

namespace PurgeCall.Repeats

theorem tokens (h : call.Repeats call') : call'.tokens = call.tokens := by
  unfold PurgeCall.tokens
  rw [h.headers, h.conf]

theorem kind (h : call.Repeats call') : call'.kind = call.kind := by
  unfold PurgeCall.kind
  rw [h.tokens, h.conf, h.purge, h.keys]

theorem soft (h : call.Repeats call') : call'.request.soft = call.request.soft := by
  show requestMode call'.conf call'.headers call'.purge.soft = _
  rw [h.conf, h.headers, h.purge]
  rfl

end PurgeCall.Repeats

/-- What the next request finds: a context of its own, and the index that the log phase
has left. -/
def Pilot.next (N : Nginx) (access : IndexAccess) (call : PurgeCall) (c : Closing) (s : Pilot) : Pilot :=
  { s with shm := logPhase N (call.live access c) s.shm, ctx := none }

/-- Without a file name the log phase writes nothing. -/
theorem next_shm (hkind : call.kind ≠ .exact) (c : Closing) (s : Pilot) :
    (s.next N access call c).shm = s.shm := by
  have hname : call.fileName c = [] := by
    unfold PurgeCall.fileName
    cases hk : call.kind with
    | exact => exact absurd hk hkind
    | _ => rfl
  have hfilter : headerFilter (call.live access c) = .ok none := rfl
  show logPhase N (call.live access c) s.shm = s.shm
  unfold logPhase
  rw [hfilter]
  show logHandler N (call.live access c) none s.shm = s.shm
  unfold logHandler PurgeCall.live
  simp only [hname, List.length_nil, if_true]

/-! ### By tags -/

/-- The index part of a tag purge that is answered 200 has removed its files. -/
theorem indexPurge_removes {tags : List Bytes} (hworks : r.FilesWork) (hhard : r.soft = false)
    (hindex : IndexOk N s.shm) (hconf : access.configured = true) (hzone : access.zone = some zoneName)
    (hreader : access.reader = true) (hready : zoneReady s.shm zoneName = true)
    (hok : (indexPurge N L access r tags s).1 ≠ .error) :
    ∃ paths, collectPathsByTags N r.pool.collect s.shm zoneName tags = some paths ∧
      (indexPurge N L access r tags s).2.cache.disk = without s.cache.disk paths ∧
      Shrinks N s.shm (indexPurge N L access r tags s).2.shm ∧
      ((∀ p ∈ paths, s.cache.disk p = none) →
        (indexPurge N L access r tags s).1 = .declined ∧
          (indexPurge N L access r tags s).2.reported = s.reported ∧
          (r.pool.ctx = true →
            (indexPurge N L access r tags s).2.declineReason = .notFound)) := by
  unfold indexPurge at hok ⊢
  simp only [hconf, hzone, hreader, getZoneState_complete, hready, Bool.not_true, Bool.false_eq_true,
    if_false] at hok ⊢
  cases hc : collectPathsByTags N r.pool.collect s.shm zoneName tags with
  | none =>
    rw [hc] at hok
    exact absurd rfl hok
  | some paths =>
    refine ⟨paths, rfl, ?_⟩
    obtain ⟨hrc, hdisk, -, hcount⟩ := purgePaths_removes
      (purgeTagged_removes (N := N) (L := L) hworks.calls r.now zoneName) 0 paths 0 s
    have hshm := Shrinks.purgePaths (purgeTagged_drops N L r.calls r.now zoneName false) hindex 0 paths 0
    have hreport := congrArg (fun report => report.2.1) (purgePaths_keeps Pilot.report
      (fun k path s => purgeTagged_report N L (r.calls k) r.now zoneName false path s) 0 paths 0 s)
    simp only [hhard]
    generalize purgePaths (fun k => purgeTagged N L (r.calls k) r.now zoneName false) 0 paths 0 s =
      result at hrc hdisk hcount hshm hreport
    obtain ⟨rc, purged, s1⟩ := result
    simp only at hrc hdisk hcount hshm hreport
    obtain rfl := hrc
    cases hp : decide (0 < purged) with
    | true =>
      have hpos := of_decide_eq_true hp
      simp only [if_pos hpos]
      refine ⟨by simpa using hdisk, by simpa using hshm, fun hnone => ?_⟩
      exact absurd (hcount.mpr hnone) (Nat.ne_of_gt hpos)
    | false =>
      have hno := of_decide_eq_false hp
      simp only [if_neg hno]
      have hsame : (s1.setDeclineReason r.pool .notFound).reported = s.reported :=
        (Pilot.setDeclineReason_reported r.pool .notFound s1).trans hreport
      refine ⟨by simpa using hdisk, by simpa using hshm, fun _ => ⟨trivial, hsame, ?_⟩⟩
      exact fun hctx => (Pilot.declineReason_set r.pool .notFound s1 (by decide)).mpr (Or.inr hctx)

theorem collectPathsByTags_full (h : IndexOk N s.shm) (zoneName : Bytes) (tags : List Bytes) :
    ∃ paths, collectPathsByTags N (fun _ => true) s.shm zoneName tags = some paths := by
  rw [collectPathsByTags_eq h.ok, tagQuery_success (h.paths zoneName)]
  exact ⟨_, rfl⟩

variable (L) in
/-- A tag purge with memory for its paths does not fail, where no file operation does. -/
theorem indexPurge_works (tags : List Bytes) (hpool : r.pool = .full) (hworks : r.FilesWork)
    (hhard : r.soft = false) (hindex : IndexOk N s.shm) (hconf : access.configured = true)
    (hzone : access.zone = some zoneName) (hreader : access.reader = true)
    (hready : zoneReady s.shm zoneName = true) : (indexPurge N L access r tags s).1 ≠ .error := by
  have hcollect : r.pool.collect = fun _ => true := by rw [hpool]; rfl
  obtain ⟨paths, hpaths⟩ := collectPathsByTags_full hindex zoneName tags
  unfold indexPurge
  simp only [hconf, hzone, hreader, getZoneState_complete, hready, Bool.not_true,
    Bool.false_eq_true, if_false, hcollect, hpaths, hhard]
  have hrc := (purgePaths_removes
    (purgeTagged_removes (N := N) (L := L) hworks.calls r.now zoneName) 0 paths 0 s).1
  generalize purgePaths (fun k => purgeTagged N L (r.calls k) r.now zoneName false) 0 paths 0 s =
    result at hrc
  obtain ⟨rc, purged, s1⟩ := result
  obtain rfl : rc = .ok := hrc
  simp only
  split
  · exact (nomatch ·)
  · exact (nomatch ·)

variable (L) in
/-- A tag purge of files that are gone. -/
theorem dispatchTags_vain (tags : List Bytes) (hpool : r.pool = .full) (hworks : r.FilesWork)
    (hhard : r.soft = false) (hindex : IndexOk N s.shm) (hconf : access.configured = true)
    (hzone : access.zone = some zoneName) (hreader : access.reader = true)
    (hready : zoneReady s.shm zoneName = true)
    (hgone : ∀ t ∈ tags, ∀ rec ∈ recordsOf s.shm zoneName, t ∈ rec.tags → s.cache.disk rec.path = none) :
    (dispatchTags N L access r tags s).1 = .ok ∧
      (dispatchTags N L access r tags s).2.reported = s.reported ∧
      (dispatchTags N L access r tags s).2.cache.disk = s.cache.disk := by
  have hok := indexPurge_works L tags hpool hworks hhard hindex hconf hzone hreader hready
  obtain ⟨paths, hpaths, hdisk, -, hvain⟩ :=
    indexPurge_removes hworks hhard hindex hconf hzone hreader hready hok
  have hnone : ∀ p ∈ paths, s.cache.disk p = none := by
    intro p hp
    obtain ⟨t, ht, rec, hrec, htag, rfl⟩ := (hindex.mem_collectTags hpaths).mp hp
    exact hgone t ht rec hrec htag
  obtain ⟨hrc, hreported, hreason⟩ := hvain hnone
  rw [without_eq hnone] at hdisk
  have hnotFound := hreason (by rw [hpool]; rfl)
  unfold dispatchTags
  generalize indexPurge N L access r tags s = result at hrc hreported hdisk hnotFound
  obtain ⟨rc, s1⟩ := result
  obtain rfl : rc = .declined := hrc
  simp only [hnotFound, if_true]
  exact ⟨trivial, hreported, hdisk⟩

variable (N L access s) in
theorem run_tag (hkind : call.kind = .tag) :
    (call.run N L access s).2 =
        (dispatchTags N L access call.request (keepTags [] call.tokens) s).2 ∧
      ((call.run N L access s).1 = some .ok ↔
        (dispatchTags N L access call.request (keepTags [] call.tokens) s).1 = .ok ∧
          call.pool.response = true) := by
  unfold PurgeCall.run
  simp only [hkind]
  generalize dispatchTags N L access call.request (keepTags [] call.tokens) s = result
  obtain ⟨rc, s1⟩ := result
  cases rc with
  | ok =>
    refine ⟨rfl, ?_⟩
    show some (sendResponse call.pool) = some Answer.ok ↔ _
    rw [Option.some.injEq, sendResponse_ok]
    exact (and_iff_right rfl).symm
  | _ => exact ⟨rfl, iff_of_false (nomatch ·) (nomatch ·.1)⟩

/-- A tag purge behind one to which the index was open. -/
theorem tag_again {c : Closing} (hrep : call.Repeats call') (hkind : call.kind = .tag)
    (hindex : IndexOk N s.shm) (hhard : call.request.soft = false) (h : call.Unhindered s.cache.disk)
    (hopen : access.refusal call.now s.shm = none) :
    let s1 := (call.run N L access s).2.next N access call c
    call'.Unhindered s1.cache.disk → Vain s1 (call'.run N L access s1) := by
  intro s1 h'
  have hstate := (run_tag N L access s hkind).1
  obtain ⟨hconf, hreader, zoneName, hzone, hready⟩ := refusal_eq_none hopen
  rw [getZoneState_complete] at hready
  have hne := indexPurge_works L (keepTags [] call.tokens) h.pool h.files hhard hindex hconf hzone
    hreader hready
  obtain ⟨paths, hpaths, hdisk, hshrinks, -⟩ :=
    indexPurge_removes h.files hhard hindex hconf hzone hreader hready hne
  obtain ⟨hdcache, hdshm⟩ :=
    dispatchTags_state (N := N) (L := L) access call.request s (keepTags [] call.tokens)
  have hs1 : s1.cache.disk = without s.cache.disk paths := by
    show (call.run N L access s).2.cache.disk = _
    rw [hstate, hdcache, hdisk]
  have hshm : s1.shm = (indexPurge N L access call.request (keepTags [] call.tokens) s).2.shm := by
    rw [next_shm (by rw [hkind]; decide), hstate, hdshm]
  rw [← hshm] at hshrinks
  have hvain := dispatchTags_vain L (keepTags [] call'.tokens) h'.pool h'.files
    (by rw [hrep.soft, hhard]) hshrinks.ok hconf hzone hreader (by rw [hshrinks.ready, hready])
  obtain ⟨hrc, hreported, hsame⟩ := hvain fun t ht rec hrec htag => by
    rw [hrep.tokens] at ht
    have hmem := (hindex.mem_collectTags hpaths).mpr
      ⟨t, ht, rec, hshrinks.records zoneName rec hrec, htag, rfl⟩
    rw [hs1, without_mem hmem]
  obtain ⟨hstate', hanswer'⟩ := run_tag N L access s1 (hrep.kind.trans hkind)
  refine ⟨hanswer'.mpr ⟨hrc, by rw [h'.pool]; rfl⟩, fun type soft => ?_, by rw [hstate', hsame]⟩
  rw [hstate', hreported]
  exact (reported_of_ctx rfl type soft).1

/-- Whether the index is open does not depend on the clock. -/
theorem refusal_now (access : IndexAccess) (now now' : Int) (shm : Shm) :
    access.refusal now shm = access.refusal now' shm := by
  unfold IndexAccess.refusal
  simp only [getZoneState_complete]

/-- A tag purge to which the index is closed leaves it so, and the next one is declined as
well. -/
theorem tag_refused_again {c : Closing} (hrep : call.Repeats call') (hkind : call.kind = .tag)
    (h : call.Unhindered s.cache.disk) (hclosed : access.refusal call.now s.shm ≠ none) :
    let s1 := (call.run N L access s).2.next N access call c
    call'.Unhindered s1.cache.disk → (call'.run N L access s1).1 ≠ some .ok := by
  intro s1 h' hok
  obtain ⟨reason, href⟩ := Option.ne_none_iff_exists'.mp hclosed
  have hctx : call.request.pool.ctx = true := congrArg PurgePool.ctx h.pool
  have hctx' : call'.request.pool.ctx = true := congrArg PurgePool.ctx h'.pool
  have hshm : s1.shm = s.shm := by
    rw [next_shm (by rw [hkind]; decide), (run_tag N L access s hkind).1,
      dispatchTags_refused (r := call.request) hctx href, Pilot.setDeclineReason_shm]
  have href' : access.refusal call'.now s1.shm = some reason := by
    rw [hshm, ← href]
    exact refusal_now access call'.now call.now s.shm
  have hrc := ((run_tag N L access s1 (hrep.kind.trans hkind)).2.mp hok).1
  rw [dispatchTags_refused (r := call'.request) hctx' href'] at hrc
  cases hrc

/-! ### Of all files -/

variable (N L access s) in
theorem run_all (hkind : call.kind = .all) :
    (call.run N L access s).2 = (purgeAll L call s).2 ∧
      ((call.run N L access s).1 = some .ok ↔
        (purgeAll L call s).1 = .ok ∧ call.pool.response = true) := by
  unfold PurgeCall.run
  simp only [hkind]
  generalize purgeAll L call s = result
  obtain ⟨rc, s1⟩ := result
  cases rc with
  | ok =>
    refine ⟨rfl, ?_⟩
    show some (sendResponse call.pool) = some Answer.ok ↔ _
    rw [Option.some.injEq, sendResponse_ok]
    exact (and_iff_right rfl).symm
  | _ => exact ⟨rfl, iff_of_false (nomatch ·) (nomatch ·.1)⟩

/-- A purge of all files leaves none, and reports nothing where there was none. -/
theorem purgeAll_removes (hhard : call.purge.soft = false) (h : call.Unhindered s.cache.disk) :
    (purgeAll L call s).1 = .ok ∧ (∀ p, (purgeAll L call s).2.cache.disk p = none) ∧
      ((∀ p, s.cache.disk p = none) → (purgeAll L call s).2.reported = s.reported) := by
  have hrc := (walkAll_trail L call.walk false s.cache).1
  obtain ⟨hdisk, hcount⟩ := walkTree_removes (L := L) h.walk (fun _ _ _ _ => rfl)
    (handles_all L call.walk.calls false) call.walk.readable 0 call.walk.listing 0 s.cache
  change ∀ p, (walkAll L call.walk false s.cache).2.2.disk p = _ at hdisk
  change _ → (walkAll L call.walk false s.cache).2.1 = 0 at hcount
  rw [h.readable, if_pos rfl] at hrc
  unfold purgeAll
  rw [hhard]
  generalize walkAll L call.walk false s.cache = walked at hrc hdisk hcount
  obtain ⟨rc, purged, cache⟩ := walked
  obtain rfl : rc = .ok := hrc
  simp only [Pilot.recordPurgeRequest_cache, Pilot.recordPurge_cache] at hdisk hcount ⊢
  refine ⟨trivial, fun p => ?_, fun hnone => ?_⟩
  · rw [hdisk p]
    split
    · rfl
    · next hno =>
      cases hp : s.cache.disk p with
      | none => rfl
      | some data => exact absurd ⟨h.listing p (by rw [hp]; rfl), trivial⟩ hno
  · obtain rfl := hcount fun p _ _ => hnone p
    rw [Pilot.recordPurge_zero]
    rfl

theorem all_again {c : Closing} (hrep : call.Repeats call') (hkind : call.kind = .all)
    (hhard : call.purge.soft = false) (h : call.Unhindered s.cache.disk) :
    let s1 := (call.run N L access s).2.next N access call c
    call'.Unhindered s1.cache.disk → Vain s1 (call'.run N L access s1) := by
  intro s1 h'
  obtain ⟨-, hgone, -⟩ := purgeAll_removes (L := L) hhard h
  obtain ⟨hrc, hgone', hreported⟩ := purgeAll_removes (L := L) (by rw [hrep.purge, hhard]) h'
  have hnone : ∀ p, s1.cache.disk p = none := by
    intro p
    show (call.run N L access s).2.cache.disk p = none
    rw [(run_all N L access s hkind).1, hgone p]
  obtain ⟨hstate', hanswer'⟩ := run_all N L access s1 (hrep.kind.trans hkind)
  refine ⟨hanswer'.mpr ⟨hrc, by rw [h'.pool]; rfl⟩, fun type soft => ?_, ?_⟩
  · rw [hstate', hreported hnone]
    exact (reported_of_ctx rfl type soft).1
  · funext p
    rw [hstate', hgone' p, hnone p]

/-! ### By prefix -/

/-- The index part of a wildcard purge removes the files that the index gives. -/
theorem partialFromIndex_removes (access : IndexAccess) (hworks : r.FilesWork) (hhard : r.soft = false)
    (hindex : IndexOk N s.shm) (pre : Bytes) :
    (partialFromIndex N L access r pre s).1 = .ok ∧
      (partialFromIndex N L access r pre s).2.2.cache.disk =
        without s.cache.disk (wildcardPaths access r pre s) ∧
      Shrinks N s.shm (partialFromIndex N L access r pre s).2.2.shm ∧
      ((partialFromIndex N L access r pre s).2.1 = 0 ↔
        ∀ p ∈ wildcardPaths access r pre s, s.cache.disk p = none) ∧
      (partialFromIndex N L access r pre s).2.2.reported = s.reported := by
  obtain ⟨hz, hcache, hshm⟩ := keyIndexReady_eq access r.pool s
  have hreported : (partialFromIndex N L access r pre s).2.2.reported = s.reported :=
    congrArg (fun report => report.2.1) (partialFromIndex_trail N L access r pre s).2.2
  have hresult : ∀ result, partialFromIndex N L access r pre s = result →
      result.1 = .ok ∧ result.2.2.cache.disk = without s.cache.disk (wildcardPaths access r pre s) ∧
        Shrinks N s.shm result.2.2.shm ∧
        (result.2.1 = 0 ↔ ∀ p ∈ wildcardPaths access r pre s, s.cache.disk p = none) := by
    intro result h
    unfold partialFromIndex at h
    unfold wildcardPaths
    generalize keyIndexReady access r.pool s = ready at h hz hcache hshm
    obtain ⟨z, s1⟩ := ready
    simp only at h hz hcache hshm
    rw [← hz]
    -- where the index gives no list, nothing is done
    have hnothing : (NgxRc.ok, 0, s1) = result → result.1 = .ok ∧
        result.2.2.cache.disk = without s.cache.disk [] ∧ Shrinks N s.shm result.2.2.shm ∧
        (result.2.1 = 0 ↔ ∀ p ∈ ([] : List Bytes), s.cache.disk p = none) := by
      rintro rfl
      refine ⟨rfl, ?_, ?_, iff_of_true rfl (by simp)⟩
      · rw [without_nil, hcache]
      · show Shrinks N s.shm s1.shm
        rw [hshm]
        exact .refl hindex
    cases z with
    | none => exact hnothing h
    | some zoneName =>
      simp only [hshm] at h ⊢
      cases hc : collectPathsByKeyPrefix r.pool.collect s.shm zoneName pre with
      | none =>
        rw [hc] at h
        exact hnothing h
      | some paths =>
        rw [hc, hhard] at h
        obtain ⟨hrc, hdisk, -, hcount⟩ := purgePaths_removes
          (byIndexedPath_removes (N := N) (L := L) hworks.calls r.now zoneName) 0 paths 0 s1
        have hshrinks := Shrinks.purgePaths (s := s1)
          (byIndexedPath_drops N L r.calls r.now zoneName) (by rw [hshm]; exact hindex) 0 paths 0
        rw [hcache] at hdisk hcount
        rw [hshm] at hshrinks
        simp only at h
        rw [h] at hrc hdisk hcount hshrinks
        exact ⟨hrc, hdisk, hshrinks, hcount⟩
  obtain ⟨hrc, hdisk, hshrinks, hcount⟩ := hresult _ rfl
  exact ⟨hrc, hdisk, hshrinks, hcount, hreported⟩

/-- The index gives a wildcard purge no file that is on disk, or each one that the walk
would select. -/
def PurgeCall.IndexSettles (L : HeaderLayout) (access : IndexAccess) (call : PurgeCall) (s : Pilot) :
    Prop :=
  call.kind = .wildcard → ∀ pre, keyPrefix call.pool call.keys = some pre →
    (∀ p ∈ wildcardPaths access call.request pre s, s.cache.disk p = none) ∨
      ∀ p, partialMatch L .works (keyPartial call.keys) p s.cache.disk = true →
        s.cache.disk p ≠ none → p ∈ wildcardPaths access call.request pre s

theorem run_wildcard (hkind : call.kind = .wildcard) : call.run N L access s =
    wildcardRequest N L access call.walk call.threads call.terminated call.request s := by
  unfold PurgeCall.run
  simp only [hkind]

/-- The walk of a wildcard purge removes the files that it selects. -/
theorem walkPartial_removes (h : call.Unhindered s.cache.disk) (c : FileCache) :
    let walked := walkPartial L call.walk false (keyPartial call.keys) c
    walked.1 = .ok ∧
      (∀ p, walked.2.2.disk p =
        if p ∈ call.walk.listing ∧ partialMatch L .works (keyPartial call.keys) p c.disk = true then none
        else c.disk p) ∧
      ((∀ p, partialMatch L .works (keyPartial call.keys) p c.disk = true → c.disk p = none) →
        walked.2.1 = 0) := by
  intro walked
  have hrc : walked.1 = _ := (walkPartial_trail L call.walk false (keyPartial call.keys) c).1
  rw [h.readable, if_pos rfl] at hrc
  obtain ⟨hdisk, hcount⟩ := walkTree_removes (L := L) h.walk (partialMatch_local L (keyPartial call.keys))
    (handles_prefixed L call.walk.calls false (keyPartial call.keys)) call.walk.readable 0
    call.walk.listing 0 c
  exact ⟨hrc, hdisk, fun hnone => hcount fun p _ => hnone p⟩

/-- A wildcard purge to which the index gives no file that is on disk removes the files
that the walk selects. -/
theorem wildcard_walks {pre : Bytes} (hkind : call.kind = .wildcard) (hhard : call.request.soft = false)
    (hindex : IndexOk N s.shm) (h : call.Unhindered s.cache.disk)
    (hstem : keyPrefix call.pool call.keys = some pre)
    (hlisted : ∀ p ∈ wildcardPaths access call.request pre s, s.cache.disk p = none) :
    let result := call.run N L access s
    result.1 = some .ok ∧ Shrinks N s.shm result.2.shm ∧
      (∀ p, result.2.cache.disk p =
        if partialMatch L .works (keyPartial call.keys) p s.cache.disk = true then none
        else s.cache.disk p) ∧
      (s.ctx = none →
        (∀ p, partialMatch L .works (keyPartial call.keys) p s.cache.disk = true →
          s.cache.disk p = none) →
        ∀ type soft, result.2.reported type soft = 0) := by
  intro result
  have hpart : isPartial call.request.keys = true := call.kind_asterisk.1 hkind
  have hrun : result = wildcardRequest N L access call.walk call.threads false call.request s := by
    show call.run N L access s = _
    rw [run_wildcard hkind, h.terminated]
  obtain ⟨hrc, hdisk, hshrinks, hcount, hreported⟩ :=
    partialFromIndex_removes (L := L) access h.files hhard hindex pre
  have hzero := hcount.mpr hlisted
  rw [without_eq hlisted] at hdisk
  have hshm : Shrinks N s.shm result.2.shm := by
    rw [hrun, wildcardRequest_shm call.walk call.threads false hpart,
      partialPurge_shm call.walk call.threads hstem]
    exact hshrinks
  cases hfrom : partialFromIndex N L access call.request pre s with | mk rc part =>
  obtain ⟨purged, s2⟩ := part
  rw [hfrom] at hrc hdisk hzero hreported
  simp only at hrc hdisk hzero hreported
  subst hrc hzero
  obtain ⟨hok, hwalked, hnone⟩ := walkPartial_removes (L := L) h s2.cache
  rw [hdisk] at hwalked hnone
  have hresult := wildcardRequest_walked (w := call.walk) hpart hstem h.pool h.threads hfrom
    (by rw [hhard]; exact hok)
  rw [hhard] at hresult
  rw [hresult] at hrun
  refine ⟨by rw [hrun], hshm, fun p => ?_, fun hctx hmatched type soft => ?_⟩
  · rw [hrun, recordWildcardPurge_cache]
    refine (hwalked p).trans ?_
    by_cases hmatch : partialMatch L .works (keyPartial call.keys) p s.cache.disk = true
    · rw [if_pos hmatch]
      split
      · rfl
      · next hnot =>
        -- the listing has every file
        by_contra hfile
        exact hnot ⟨h.listing p (Option.isSome_iff_ne_none.mpr hfile), hmatch⟩
    · rw [if_neg hmatch, if_neg fun hboth => hmatch hboth.2]
  · rw [hrun]
    show (recordWildcardPurge call.request
      (walkPartial L call.walk false (keyPartial call.keys) s2.cache).2.1 _).reported type soft = 0
    rw [hnone hmatched]
    unfold recordWildcardPurge
    rw [Pilot.recordPurge_zero]
    show (s2.setResponsePath call.request.pool .filesystemFallback).reported type soft = 0
    rw [Pilot.setResponsePath_reported, hreported]
    exact (reported_of_ctx hctx type soft).1

/-- A wildcard purge to which the index gives a file removes those that the index gives,
and no other. -/
theorem wildcard_indexed {pre : Bytes} (hkind : call.kind = .wildcard)
    (hhard : call.request.soft = false) (hindex : IndexOk N s.shm) (h : call.Unhindered s.cache.disk)
    (hstem : keyPrefix call.pool call.keys = some pre)
    (hlisted : ¬ ∀ p ∈ wildcardPaths access call.request pre s, s.cache.disk p = none) :
    let result := call.run N L access s
    Shrinks N s.shm result.2.shm ∧
      result.2.cache.disk = without s.cache.disk (wildcardPaths access call.request pre s) := by
  intro result
  have hpart : isPartial call.request.keys = true := call.kind_asterisk.1 hkind
  have hrun : result = wildcardRequest N L access call.walk call.threads false call.request s := by
    show call.run N L access s = _
    rw [run_wildcard hkind, h.terminated]
  obtain ⟨hrc, hdisk, hshrinks, hcount, -⟩ :=
    partialFromIndex_removes (L := L) access h.files hhard hindex pre
  have hpos := Nat.pos_of_ne_zero (mt hcount.mp hlisted)
  have hshm : Shrinks N s.shm result.2.shm := by
    rw [hrun, wildcardRequest_shm call.walk call.threads false hpart,
      partialPurge_shm call.walk call.threads hstem]
    exact hshrinks
  refine ⟨hshm, ?_⟩
  cases hfrom : partialFromIndex N L access call.request pre s with | mk rc part =>
  obtain ⟨purged, s2⟩ := part
  rw [hfrom] at hrc hdisk hpos
  obtain rfl : rc = .ok := hrc
  obtain ⟨s', hresult, hcache⟩ :=
    wildcardRequest_index call.walk call.threads hpart hstem h.pool hfrom hpos
  rw [hrun, hresult]
  show s'.cache.disk = _
  rw [hcache]
  exact hdisk

/-- Where the files that the prefix selects are removed, it selects none that is left. -/
theorem none_of_removed {disk disk' : Disk} {pre : Bytes} (hfewer : Fewer disk disk')
    (hgone : ∀ p, partialMatch L .works pre p disk = true → disk p ≠ none → disk' p = none) (p : Bytes)
    (hmatch : partialMatch L .works pre p disk' = true) : disk' p = none := by
  rcases hfewer p with hsame | hnone
  · have hlocal : partialMatch L .works pre p disk = true :=
      (partialMatch_local L pre p _ _ hsame).symm.trans hmatch
    by_contra hne
    exact hne (hgone p hlocal (hsame ▸ hne))
  · exact hnone

/-- What a wildcard purge leaves that the index settles. -/
theorem wildcard_sweeps {pre : Bytes} (hkind : call.kind = .wildcard)
    (hhard : call.request.soft = false) (hindex : IndexOk N s.shm) (h : call.Unhindered s.cache.disk)
    (hstem : keyPrefix call.pool call.keys = some pre) (hsettles : call.IndexSettles L access s) :
    let s' := (call.run N L access s).2
    Shrinks N s.shm s'.shm ∧
      (∀ p ∈ wildcardPaths access call.request pre s, s'.cache.disk p = none) ∧
      ∀ p, partialMatch L .works (keyPartial call.keys) p s'.cache.disk = true →
        s'.cache.disk p = none := by
  intro s'
  by_cases hlisted : ∀ p ∈ wildcardPaths access call.request pre s, s.cache.disk p = none
  · obtain ⟨-, hshrinks, hwalked, -⟩ := wildcard_walks (L := L) hkind hhard hindex h hstem hlisted
    have hfewer : Fewer s.cache.disk s'.cache.disk := by
      intro p
      rw [hwalked p]
      split
      · exact Or.inr rfl
      · exact Or.inl rfl
    refine ⟨hshrinks, fun p hp => hfewer.none (hlisted p hp), none_of_removed hfewer ?_⟩
    exact fun p hmatch _ => (hwalked p).trans (if_pos hmatch)
  · obtain ⟨hshrinks, hdisk⟩ := wildcard_indexed (L := L) hkind hhard hindex h hstem hlisted
    have hall := (hsettles hkind pre hstem).resolve_left hlisted
    change s'.cache.disk = _ at hdisk
    rw [hdisk]
    exact ⟨hshrinks, fun p hp => without_mem hp,
      none_of_removed (without_fewer _ _) fun p hmatch hp => without_mem (hall p hmatch hp)⟩

/-- Behind a purge the index offers no path that it did not offer before. -/
theorem mem_wildcardPaths_shrinks {r' : PurgeRequest} {s' : Pilot} {pre p : Bytes}
    (hpool : r.pool = .full) (hpool' : r'.pool = .full) (hindex : IndexOk N s.shm)
    (hshrinks : Shrinks N s.shm s'.shm) (hp : p ∈ wildcardPaths access r' pre s') :
    p ∈ wildcardPaths access r pre s := by
  unfold wildcardPaths at hp ⊢
  have hcollect : r.pool.collect = fun _ => true := by rw [hpool]; rfl
  have hcollect' : r'.pool.collect = fun _ => true := by rw [hpool']; rfl
  cases hready : access.ready with
  | none =>
    rw [hready] at hp
    exact absurd hp List.not_mem_nil
  | some zoneName =>
    rw [hready] at hp
    simp only [hcollect, hcollect', hindex.collectPrefix_success, hshrinks.ok.collectPrefix_success,
      Option.getD_some] at hp ⊢
    obtain ⟨rec, hrec, hkey, hpath⟩ := mem_prefixedPaths.mp hp
    exact mem_prefixedPaths.mpr ⟨rec, hshrinks.records zoneName rec hrec, hkey, hpath⟩

/-- The paths that the index gives to the second of two wildcard purges were given to the
first. -/
theorem mem_wildcardPaths_next {c : Closing} {pre p : Bytes} (hkind : call.kind = .wildcard)
    (hindex : IndexOk N s.shm) (h : call.Unhindered s.cache.disk)
    (hshrinks : Shrinks N s.shm (call.run N L access s).2.shm) :
    let s1 := (call.run N L access s).2.next N access call c
    call'.Unhindered s1.cache.disk → p ∈ wildcardPaths access call'.request pre s1 →
      p ∈ wildcardPaths access call.request pre s := by
  intro s1 h' hp
  have hshm : s1.shm = (call.run N L access s).2.shm := next_shm (by rw [hkind]; decide) c _
  rw [← hshm] at hshrinks
  exact mem_wildcardPaths_shrinks h.pool h'.pool hindex hshrinks hp

theorem wildcard_again {c : Closing} {pre : Bytes} (hrep : call.Repeats call')
    (hkind : call.kind = .wildcard) (hindex : IndexOk N s.shm) (hhard : call.request.soft = false)
    (h : call.Unhindered s.cache.disk) (hstem : keyPrefix call.pool call.keys = some pre)
    (hsettles : call.IndexSettles L access s) :
    let s1 := (call.run N L access s).2.next N access call c
    call'.Unhindered s1.cache.disk → Vain s1 (call'.run N L access s1) := by
  intro s1 h'
  obtain ⟨hshrinks, hlisted, hmatched⟩ := wildcard_sweeps hkind hhard hindex h hstem hsettles
  have hshm : s1.shm = (call.run N L access s).2.shm := next_shm (by rw [hkind]; decide) c _
  have hok : IndexOk N s1.shm := hshm ▸ hshrinks.ok
  have hstem' : keyPrefix call'.pool call'.keys = some pre := by
    rw [h'.pool, hrep.keys, ← h.pool, hstem]
  have hmatched' : ∀ p, partialMatch L .works (keyPartial call'.keys) p s1.cache.disk = true →
      s1.cache.disk p = none := by
    rw [hrep.keys]
    exact hmatched
  obtain ⟨hanswer, -, hwalked, hreported⟩ := wildcard_walks (L := L) (hrep.kind.trans hkind)
    (hrep.soft.trans hhard) hok h' hstem'
    fun p hp => hlisted p (mem_wildcardPaths_next hkind hindex h hshrinks h' hp)
  refine ⟨hanswer, hreported rfl hmatched', funext fun p => ?_⟩
  rw [hwalked p]
  split
  · next hmatch => exact (hmatched' p hmatch).symm
  · rfl

/-- A wildcard purge that the index does not settle takes the index first and the walk the
second time, which removes what the index did not know. -/
theorem wildcard_unsettled {c : Closing} (hrep : call.Repeats call') (hkind : call.kind = .wildcard)
    (hindex : IndexOk N s.shm) (hhard : call.request.soft = false) (h : call.Unhindered s.cache.disk)
    (hnot : ¬ call.IndexSettles L access s) :
    let s1 := (call.run N L access s).2.next N access call c
    call'.Unhindered s1.cache.disk → (call'.run N L access s1).2.cache.disk ≠ s1.cache.disk := by
  intro s1 h' hsame
  unfold PurgeCall.IndexSettles at hnot
  push Not at hnot
  obtain ⟨-, pre, hstem, hlisted, p, hmatch, hfile, hunknown⟩ := hnot
  obtain ⟨hshrinks, hdisk⟩ := wildcard_indexed (L := L) hkind hhard hindex h hstem
    (by push Not; exact hlisted)
  change s1.cache.disk = _ at hdisk
  have hshm : s1.shm = (call.run N L access s).2.shm := next_shm (by rw [hkind]; decide) c _
  have hok : IndexOk N s1.shm := hshm ▸ hshrinks.ok
  have hstem' : keyPrefix call'.pool call'.keys = some pre := by
    rw [h'.pool, hrep.keys, ← h.pool, hstem]
  obtain ⟨-, -, hwalked, -⟩ := wildcard_walks (L := L) (hrep.kind.trans hkind)
    (hrep.soft.trans hhard) hok h' hstem' fun q hq => by
      rw [hdisk]
      exact without_mem (mem_wildcardPaths_next hkind hindex h hshrinks h' hq)
  -- the file is there for the walk, and has its prefix still
  have hleft : s1.cache.disk p = s.cache.disk p := by
    rw [hdisk]
    exact without_not_mem hunknown
  have hmatch' : partialMatch L .works (keyPartial call'.keys) p s1.cache.disk = true := by
    rw [hrep.keys]
    exact (partialMatch_local L _ p _ _ hleft).trans hmatch
  refine hfile (hleft.symm.trans ?_)
  rw [← hsame, hwalked p, if_pos hmatch']

/-- A wildcard purge whose key is an asterisk alone is answered 500. -/
theorem wildcard_refused (hkind : call.kind = .wildcard)
    (hstem : keyPrefix call.pool call.keys = none) :
    (call.run N L access s).1 = some .internalServerError := by
  have hrefused : keyPrefix call.request.pool call.request.keys = none := hstem
  rw [run_wildcard hkind]
  unfold wildcardRequest partialPurge
  simp only [hrefused]

/-! ### By key -/

/-- An open that leaves an exact purge nothing to do. -/
def OpensNothing (opened : CacheOpen) (c : FileCache) : Prop :=
  match opened with
  | .declined => True
  | .opened o => (c.node o.node).present = false
  | _ => False

/-- `ngx_http_file_cache_open` on one request looks among the files and the nodes: where
the file that it opened is gone and no other has come or been changed, it opens none whose
node is there. -/
def FindsFiles (opens : FileCache → CacheOpen) : Prop :=
  ∀ c c' o, opens c = .opened o → Fewer c.disk c'.disk → c'.disk o.name = none →
    OpensNothing (opens c') c'

variable (N L access s) in
theorem exactFanout_fewer (hworks : r.FilesWork) (o : OpenedCache) :
    Fewer s.cache.disk (exactFanout N L access r false o s).2.2.cache.disk := by
  have hcache := fanoutList_cache N access r s false o
  rw [exactFanout_eq]
  generalize fanoutList N access r false o s = result at hcache
  obtain ⟨list, s1⟩ := result
  have hkept : Fewer s.cache.disk s1.cache.disk := by
    rw [← hcache]
    exact .refl _
  cases list with
  | none => exact hkept
  | some list =>
    obtain ⟨-, hdisk, -⟩ := purgePaths_removes
      (byIndexedPath_removes (N := N) (L := L) hworks.calls r.now list.1) 0 list.2 0 s1
    refine hkept.trans ?_
    show Fewer s1.cache.disk (purgePaths _ 0 list.2 0 s1).2.2.cache.disk
    exact hdisk ▸ without_fewer _ _

theorem run_exact (hkind : call.kind = .exact) (hhard : call.request.soft = false) :
    call.run N L access s =
      match exactPurge N L access call.opened call.request s with
      | (.ok, s) => (some (sendResponse call.pool), s)
      | (.declined, s) =>
        if s.declineReason = .notFound then
          (some (sendResponse call.pool), s.recordPurgeRequest .exact false)
        else (some .preconditionFailed, s)
      | (.again, s) => (some .again, s)
      | (_, s) => (some .internalServerError, s) := by
  have hexact : isPartial call.request.keys = false := call.kind_asterisk.2 hkind
  unfold PurgeCall.run
  simp only [hkind, handler_exact hexact]
  unfold exactPurgeOf
  rw [hhard, if_neg Bool.false_ne_true]
  generalize exactPurge N L access call.opened call.request s = result
  obtain ⟨rc, s1⟩ := result
  cases rc with
  | declined =>
    simp only
    split
    · rfl
    · rfl
  | _ => rfl

/-- An exact purge that finds no file. -/
theorem exactPurge_nothing {opened : CacheOpen} (h : OpensNothing opened s.cache) :
    exactPurge N L access opened r s = (.declined, s.setDeclineReason r.pool .notFound) := by
  unfold exactPurge
  cases opened with
  | declined => rfl
  | again => exact h.elim
  | error => exact h.elim
  | opened o =>
    have hgone : (s.cache.node o.node).present = false := h
    simp only [deleteOpenedFile_gone hgone]

theorem exact_vain (hkind : call.kind = .exact) (hhard : call.request.soft = false) (hctx : s.ctx = none)
    (h : call.Unhindered s.cache.disk) (hnothing : OpensNothing call.opened s.cache) :
    Vain s (call.run N L access s) := by
  have hreason : (s.setDeclineReason call.request.pool .notFound).declineReason = .notFound := by
    refine (Pilot.declineReason_set call.request.pool .notFound s (by decide)).mpr (Or.inr ?_)
    show call.pool.ctx = true
    rw [h.pool]
    rfl
  rw [run_exact hkind hhard, exactPurge_nothing hnothing]
  simp only [hreason, if_true]
  refine ⟨?_, fun type soft => ?_, ?_⟩
  · show some (sendResponse call.pool) = some .ok
    rw [h.pool]
    rfl
  · rw [Pilot.recordPurgeRequest_reported, Pilot.setDeclineReason_reported]
    exact (reported_of_ctx hctx type soft).1
  · rw [Pilot.recordPurgeRequest_cache, Pilot.setDeclineReason_cache]

variable (N L access) in
/-- Behind an exact purge whose open has ended there is nothing for another one. -/
theorem exact_leaves_nothing {opens : FileCache → CacheOpen} (hopens : FindsFiles opens)
    (hkind : call.kind = .exact) (hhard : call.request.soft = false) (h : call.Unhindered s.cache.disk)
    (hopened : call.opened = opens s.cache) (hended : call.opened ≠ .again ∧ call.opened ≠ .error) :
    OpensNothing (opens (call.run N L access s).2.cache) (call.run N L access s).2.cache := by
  have hdeletes : call.request.resolved.deletes = true := by
    rw [h.files.resolved]
    rfl
  -- a purge that finds nothing leaves the cache as it was
  have hsame : OpensNothing call.opened s.cache →
      OpensNothing (opens (call.run N L access s).2.cache) (call.run N L access s).2.cache := by
    intro hnothing
    have hcache : (call.run N L access s).2.cache = s.cache := by
      rw [run_exact hkind hhard, exactPurge_nothing hnothing]
      simp only
      split
      · rw [Pilot.recordPurgeRequest_cache, Pilot.setDeclineReason_cache]
      · rw [Pilot.setDeclineReason_cache]
    rw [hcache, ← hopened]
    exact hnothing
  cases ho : call.opened with
  | declined =>
    rw [ho] at hsame
    exact hsame trivial
  | again => exact absurd ho hended.1
  | error => exact absurd ho hended.2
  | opened o =>
    cases hpresent : (s.cache.node o.node).present with
    | false =>
      rw [ho] at hsame
      exact hsame hpresent
    | true =>
      obtain ⟨_, hopened', hcache⟩ := deleteOpenedFile_present hpresent call.request.resolved
      obtain rfl := hcache hdeletes
      have hfewer := exactFanout_fewer N L access
        (Pilot.recordPurgeRequest .exact false
          { s with cache := (markNodeDeleted s.cache o.node).setFile o.name none }) h.files o
      have hdisk : (call.run N L access s).2.cache.disk = (exactFanout N L access call.request false o
          (Pilot.recordPurgeRequest .exact false
            { s with cache := (markNodeDeleted s.cache o.node).setFile o.name none })).2.2.cache.disk := by
        rw [run_exact hkind hhard, ho]
        unfold exactPurge
        simp only [hopened']
        generalize exactFanout N L access call.request false o _ = fanout
        obtain ⟨rc, fanned, s2⟩ := fanout
        cases rc with
        | error =>
          show (releaseUpdating o s2).cache.disk = _
          rw [releaseUpdating_disk]
        | _ =>
          show (releaseUpdating o _).cache.disk = _
          rw [releaseUpdating_disk, recordExactPurge_cache]
      have hgone : ((markNodeDeleted s.cache o.node).setFile o.name none).disk =
          without s.cache.disk [o.name] := by
        rw [FileCache.setFile_disk, markNodeDeleted_disk, without_singleton]
      rw [← hdisk, Pilot.recordPurgeRequest_cache] at hfewer
      change Fewer ((markNodeDeleted s.cache o.node).setFile o.name none).disk _ at hfewer
      rw [hgone] at hfewer
      exact hopens s.cache _ o (hopened.symm.trans ho)
        ((without_fewer s.cache.disk [o.name]).trans hfewer)
        (hfewer.none (without_mem (List.mem_singleton_self o.name)))

theorem exact_again {opens : FileCache → CacheOpen} {c : Closing} (hopens : FindsFiles opens)
    (hrep : call.Repeats call') (hkind : call.kind = .exact) (hhard : call.request.soft = false)
    (h : call.Unhindered s.cache.disk) (hopened : call.opened = opens s.cache)
    (hended : call.opened ≠ .again ∧ call.opened ≠ .error) :
    let s1 := (call.run N L access s).2.next N access call c
    call'.opened = opens s1.cache → call'.Unhindered s1.cache.disk →
      Vain s1 (call'.run N L access s1) := by
  intro s1 hopened' h'
  have hnothing := exact_leaves_nothing N L access hopens hkind hhard h hopened hended
  refine exact_vain (hrep.kind.trans hkind) (hrep.soft.trans hhard) rfl h' ?_
  rw [hopened']
  exact hnothing

/-- An exact purge whose open gives up leaves the cache, and the open of the next one gives
up as well. -/
theorem exact_unopened_again {opens : FileCache → CacheOpen} {c : Closing} (hrep : call.Repeats call')
    (hkind : call.kind = .exact) (hhard : call.request.soft = false)
    (hopened : call.opened = opens s.cache)
    (hnot : ¬ (call.opened ≠ .again ∧ call.opened ≠ .error)) :
    let s1 := (call.run N L access s).2.next N access call c
    call'.opened = opens s1.cache → (call'.run N L access s1).1 ≠ some .ok := by
  intro s1 hopened' hok
  have hcache : s1.cache = s.cache := by
    show (call.run N L access s).2.cache = _
    rw [run_exact hkind hhard]
    cases ho : call.opened with
    | again => rfl
    | error => rfl
    | _ =>
      rw [ho] at hnot
      exact absurd ⟨CacheOpen.noConfusion, CacheOpen.noConfusion⟩ hnot
  rw [hcache, ← hopened] at hopened'
  rw [run_exact (hrep.kind.trans hkind) (hrep.soft.trans hhard), hopened'] at hok
  cases ho : call.opened with
  | again =>
    rw [ho] at hok
    cases hok
  | error =>
    rw [ho] at hok
    cases hok
  | _ =>
    rw [ho] at hnot
    exact absurd ⟨CacheOpen.noConfusion, CacheOpen.noConfusion⟩ hnot

/-! ## Two executions -/

theorem PurgeCall.Unhindered.reads {disk : Disk} (h : call.Unhindered disk) :
    call.reads call.tagPool = true ∧ call.reads call.handlerPool = true := by
  unfold PurgeCall.reads
  rw [h.tagPool, h.handlerPool, responseHeaders_success]
  exact ⟨rfl, rfl⟩

/-- The purge can run: the index is open to a purge by tags, the key of a wildcard purge is
more than its asterisk, and the open of an exact one comes to an end. -/
def PurgeCall.Runs (access : IndexAccess) (call : PurgeCall) (s : Pilot) : Prop :=
  match call.kind with
  | .tag => access.refusal call.now s.shm = none
  | .all => True
  | .wildcard => keyPrefix call.pool call.keys ≠ none
  | .exact => call.opened ≠ .again ∧ call.opened ≠ .error

/-- A hard purge that runs and that the index settles does nothing when it is executed
again. -/
theorem run_vain {opens : FileCache → CacheOpen} {c : Closing} (hopens : FindsFiles opens)
    (hrep : call.Repeats call') (hindex : IndexOk N s.shm) (hhard : call.mode = false)
    (hopened : call.opened = opens s.cache) (h : call.Unhindered s.cache.disk)
    (hruns : call.Runs access s) (hsettles : call.IndexSettles L access s) :
    let s1 := (call.run N L access s).2.next N access call c
    call'.opened = opens s1.cache → call'.Unhindered s1.cache.disk →
      Vain s1 (call'.run N L access s1) := by
  intro s1 hopened' h'
  unfold PurgeCall.Runs at hruns
  unfold PurgeCall.mode at hhard
  cases hkind : call.kind with
  | tag =>
    rw [hkind] at hruns
    rw [if_neg (by rw [hkind]; decide)] at hhard
    exact tag_again hrep hkind hindex hhard h hruns h'
  | all =>
    rw [if_pos hkind] at hhard
    exact all_again hrep hkind hhard h h'
  | wildcard =>
    rw [hkind] at hruns
    rw [if_neg (by rw [hkind]; decide)] at hhard
    obtain ⟨pre, hstem⟩ := Option.ne_none_iff_exists'.mp hruns
    exact wildcard_again hrep hkind hindex hhard h hstem hsettles h'
  | exact =>
    rw [hkind] at hruns
    rw [if_neg (by rw [hkind]; decide)] at hhard
    exact exact_again hopens hrep hkind hhard h hopened hruns hopened' h'

/-- One that cannot run is not answered 200 the second time either. -/
theorem run_fails_again {opens : FileCache → CacheOpen} {c : Closing} (hrep : call.Repeats call')
    (hhard : call.mode = false) (hopened : call.opened = opens s.cache)
    (h : call.Unhindered s.cache.disk) (hnot : ¬ call.Runs access s) :
    let s1 := (call.run N L access s).2.next N access call c
    call'.opened = opens s1.cache → call'.Unhindered s1.cache.disk →
      (call'.run N L access s1).1 ≠ some .ok := by
  intro s1 hopened' h'
  unfold PurgeCall.Runs at hnot
  unfold PurgeCall.mode at hhard
  cases hkind : call.kind with
  | tag =>
    rw [hkind] at hnot
    exact tag_refused_again hrep hkind h hnot h'
  | all =>
    rw [hkind] at hnot
    exact absurd trivial hnot
  | wildcard =>
    rw [hkind] at hnot
    have hstem' : keyPrefix call'.pool call'.keys = none := by
      rw [h'.pool, hrep.keys, ← h.pool]
      exact not_not.mp hnot
    rw [wildcard_refused (hrep.kind.trans hkind) hstem']
    decide
  | exact =>
    rw [hkind] at hnot
    rw [if_neg (by rw [hkind]; decide)] at hhard
    exact exact_unopened_again hrep hkind hhard hopened hnot hopened'

/-- A hard purge that is executed twice is answered 200 the second time, reports nothing and
leaves the disk exactly when it can run and the index settles it. -/
theorem hard_purge_idempotent_iff (N : Nginx) (L : HeaderLayout) (access : IndexAccess)
    (opens : FileCache → CacheOpen) (hopens : FindsFiles opens) (call call' : PurgeCall)
    (hrep : call.Repeats call') (c : Closing) (s : Pilot) (hindex : IndexOk N s.shm)
    (hhard : call.mode = false) (hopened : call.opened = opens s.cache)
    (h : call.Unhindered s.cache.disk) :
    let first := protocolHandler N L access call s
    let s1 := first.state.next N access call c
    let second := protocolHandler N L access call' s1
    call'.opened = opens s1.cache → call'.Unhindered s1.cache.disk →
      ((second.answer = some .ok ∧ (∀ type soft, second.state.reported type soft = 0) ∧
          second.state.cache.disk = s1.cache.disk) ↔
        call.Runs access s ∧ call.IndexSettles L access s) := by
  intro first s1 second hopened' h'
  have hstate : first.state = (call.run N L access s).2 := (protocolHandler_run fun _ => h.reads).2
  obtain ⟨hanswer', hstate'⟩ : second.answer = (call'.run N L access s1).1 ∧
      second.state = (call'.run N L access s1).2 := protocolHandler_run fun _ => h'.reads
  have hs1 : s1 = (call.run N L access s).2.next N access call c :=
    congrArg (Pilot.next N access call c) hstate
  rw [hanswer', hstate', hs1]
  rw [hs1] at hopened' h'
  constructor
  · rintro ⟨hok, -, hdisk⟩
    have hruns : call.Runs access s := by
      by_contra hnot
      exact run_fails_again hrep hhard hopened h hnot hopened' h' hok
    refine ⟨hruns, ?_⟩
    by_contra hnot
    have hkind : call.kind = .wildcard := by
      by_contra hother
      exact hnot fun hkind => absurd hkind hother
    unfold PurgeCall.mode at hhard
    rw [if_neg (by rw [hkind]; decide)] at hhard
    exact wildcard_unsettled hrep hkind hindex hhard h hnot h' hdisk
  · rintro ⟨hruns, hsettles⟩
    have hvain := run_vain hopens hrep hindex hhard hopened h hruns hsettles hopened' h'
    exact ⟨hvain.answer, hvain.reported, hvain.disk⟩

/-- The file `a`, with its node, is the one that a lookup of the key `k` comes to. -/
def sampleOpens (c : FileCache) : CacheOpen :=
  if (c.disk [97]).isSome then .opened ⟨[97], 0, false, 0⟩ else .declined

theorem sampleOpens_finds : FindsFiles sampleOpens := by
  intro c c' o ho hfewer hgone
  unfold sampleOpens at ho ⊢
  split at ho
  · obtain rfl := CacheOpen.opened.inj ho
    rw [hgone]
    exact trivial
  · exact nomatch ho

theorem variantState_listed (p : Bytes) (h : (variantState.cache.disk p).isSome = true) :
    p ∈ sampleWalk.listing := by
  refine sampleWalk_works.listing p ?_
  change ((variantFiles p).map CacheFile.bytes).isSome = true at h
  rwa [Option.isSome_map] at h

/-- What the first exact purge of the sample and its log phase leave. -/
def sampleNext : Pilot :=
  (protocolHandler .reference .reference sampleAccess sampleExact variantState).state.next .reference
    sampleAccess sampleExact sampleClosing

/-- The purge has opened the file `a`, and its fanout has found `b`. -/
theorem sampleNext_disk (p : Bytes) : sampleNext.cache.disk p = none := by
  have hdisk : sampleNext.cache.disk =
      Function.update (Function.update variantFiles.disk [97] none) [98] none := by rfl
  rw [hdisk, Function.update_apply, Function.update_apply]
  split
  · rfl
  · next hb =>
    split
    · rfl
    · next ha =>
      refine Files.disk_eq_none.mpr ?_
      unfold variantFiles
      rw [if_neg ha, if_neg hb]

def sampleAgain : PurgeCall := { sampleExact with opened := .declined, now := 4 }

theorem hard_purge_idempotent_iff_sample :
    let second := protocolHandler .reference .reference sampleAccess sampleAgain sampleNext
    (second.answer = some .ok ∧ (∀ type soft, second.state.reported type soft = 0) ∧
        second.state.cache.disk = sampleNext.cache.disk) ↔
      sampleExact.Runs sampleAccess variantState ∧
        sampleExact.IndexSettles .reference sampleAccess variantState := by
  have hgone : ∀ p, (sampleNext.cache.disk p).isSome = true → p ∈ sampleWalk.listing := by
    intro p hp
    rw [sampleNext_disk] at hp
    exact nomatch hp
  have hopens : sampleAgain.opened = sampleOpens sampleNext.cache := by
    unfold sampleOpens
    rw [sampleNext_disk]
    rfl
  exact hard_purge_idempotent_iff .reference .reference sampleAccess sampleOpens sampleOpens_finds
    sampleExact sampleAgain ⟨rfl, rfl, rfl, rfl⟩ sampleClosing variantState variantState_indexOk rfl rfl
    ⟨rfl, ⟨rfl, fun _ => rfl⟩, variantState_listed, rfl, fun _ => rfl, by decide, rfl, rfl, rfl⟩ hopens
    ⟨rfl, ⟨rfl, fun _ => rfl⟩, hgone, rfl, fun _ => rfl, by decide, rfl, rfl, rfl⟩

/-- A purge of the prefix `k`. -/
def sampleStarred : PurgeCall := { sampleExact with keys := [[107, 42]], opened := .declined }

/-- What the first purge of the prefix leaves where the index knows the file `a` alone. -/
def starredNext : Pilot :=
  (protocolHandler .reference .reference sampleAccess sampleStarred partialState).state.next .reference
    sampleAccess sampleStarred sampleClosing

theorem starredNext_listed (p : Bytes) (h : (starredNext.cache.disk p).isSome = true) :
    p ∈ sampleWalk.listing := by
  have hdisk : starredNext.cache.disk = Function.update variantFiles.disk [97] none := by rfl
  rw [hdisk, Function.update_apply] at h
  split at h
  · exact nomatch h
  · exact variantState_listed p h

/-- The files `a` and `b` of the prefix, of which the index knows `a` alone: the first purge
is answered 200 and removes `a`, and the second one is answered 200, removes `b` and reports
it, while nothing fails. -/
theorem repeated_wildcard_removes :
    IndexOk .reference partialState.shm ∧ sampleStarred.kind = .wildcard ∧ sampleStarred.mode = false ∧
      sampleStarred.Unhindered partialState.cache.disk ∧
      sampleStarred.Unhindered starredNext.cache.disk ∧
      (let first := protocolHandler .reference .reference sampleAccess sampleStarred partialState
      let second := protocolHandler .reference .reference sampleAccess sampleStarred starredNext
      first.answer = some .ok ∧ second.answer = some .ok ∧
        second.state.reported .wildcard false = 1 ∧
        (starredNext.cache.disk [98]).isSome = true ∧ second.state.cache.disk [98] = none) := by
  refine ⟨runStore_indexOk .reference (by decide), by decide +kernel, by decide +kernel, ?_, ?_,
    by decide +kernel, by decide +kernel, by decide +kernel, by decide +kernel, by decide +kernel⟩
  · exact ⟨rfl, ⟨rfl, fun _ => rfl⟩, variantState_listed, rfl, fun _ => rfl, by decide, rfl, rfl, rfl⟩
  · exact ⟨rfl, ⟨rfl, fun _ => rfl⟩, starredNext_listed, rfl, fun _ => rfl, by decide, rfl, rfl, rfl⟩

end CachePilot
