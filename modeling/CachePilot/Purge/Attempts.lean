import CachePilot.Purge.Dispatch

/-!
# What a purge worked on

Beside each way that a purge takes, the files that it tries and what their purge
returned. The loops and the walks count what they purge; the counts of a purge that
is answered are those of the files that it tried with success.

Results:
* `protocolHandler_run`: a request whose tags can be read runs the purge of its kind;
* `purgePaths_trail`, `walkTree_trail`: what a loop and a walk count and return;
* `exactFanout_trail`, `partialFromIndex_trail`, `walkPartial_trail`, `walkAll_trail`:
  what the parts of a purge make of it;
* `indexPurge_broken`, `wildcardRequest_broken`, `purgeAll_broken`,
  `exactPurgeOf_broken`: a purge that is broken off fails, and has counted no file.
-/

namespace CachePilot
open NgxString

/-! ## Attempts -/

/-- One file that a purge worked on, and what that returned. -/
structure Attempt where
  path : Bytes
  rc : NgxRc
deriving DecidableEq, Repr

/-- The files that were removed or expired. -/
def purgedPaths (tried : List Attempt) : List Bytes :=
  (tried.filter fun a => a.rc = .ok).map Attempt.path

/-- The files that a purge worked on, in order, and whether a file operation that
failed, or a client that has gone, put an end to it. -/
structure Trail where
  tried : List Attempt
  broken : Bool
deriving DecidableEq, Repr

namespace Trail

def empty : Trail := ⟨[], false⟩

def cons (a : Attempt) (t : Trail) : Trail := ⟨a :: t.tried, t.broken⟩

/-- The files that are removed or expired, each once. -/
def purged (t : Trail) : List Bytes := (purgedPaths t.tried).dedup

end Trail

/-- What `purgePaths` tries. -/
def loopTrail (one : Nat → Bytes → Pilot → NgxRc × Pilot) : Nat → List Bytes → Pilot → Trail
  | _, [], _ => .empty
  | k, path :: paths, s =>
    match one k path s with
    | (.ok, s) => (loopTrail one (k + 1) paths s).cons ⟨path, .ok⟩
    | (.declined, s) => (loopTrail one (k + 1) paths s).cons ⟨path, .declined⟩
    | (rc, _) => ⟨[⟨path, rc⟩], true⟩

/-- What a walk tries, of the files that it selects. -/
def walkTried (L : HeaderLayout) (calls : Nat → FileCalls) (soft : Bool)
    (selects : FileCalls → Bytes → Disk → Bool) : Nat → List Bytes → FileCache → List Attempt
  | _, [], _ => []
  | k, path :: listing, c =>
    if selects (calls k) path c.disk then
      let r := byPath L (calls k) soft path c
      ⟨path, r.1⟩ :: walkTried L calls soft selects (k + 1) listing r.2
    else walkTried L calls soft selects (k + 1) listing c

/-! ## The ways of a purge -/

/-- What `exactFanout` tries. -/
def fanoutTrail (N : Nginx) (L : HeaderLayout) (access : IndexAccess) (r : PurgeRequest)
    (soft : Bool) (o : OpenedCache) (s : Pilot) : Trail :=
  match keyIndexReady access r.pool s with
  | (none, _) => .empty
  | (some zoneName, s) =>
    match cacheKeyText r.pool r.keys with
    | none => .empty
    | some keyText =>
      let s := if soft then s else deleteIndexPath N r.now zoneName o.name s
      match collectPathsByExactKey N r.pool.collect s.shm zoneName keyText with
      | none => .empty
      | some paths =>
        if soft then loopTrail (fun k => purgeByPath L (r.calls k) true) 0 paths s
        else loopTrail (fun k => byIndexedPath N L (r.calls k) r.now zoneName false) 0 paths s

/-- What unlinking the opened file returns, which `delete_opened_file` only logs. -/
def unlinkRc (calls : FileCalls) (path : Bytes) (c : FileCache) : NgxRc :=
  if !calls.deletes then .error else if (c.disk path).isSome then .ok else .declined

/-- What `exactPurgeOf` tries. -/
def exactTrail (N : Nginx) (L : HeaderLayout) (access : IndexAccess) (opened : CacheOpen)
    (r : PurgeRequest) (s : Pilot) : Trail :=
  match opened with
  | .declined => .empty
  | .again => .empty
  | .error => ⟨[], true⟩
  | .opened o =>
    if !(s.cache.node o.node).present then .empty
    else if r.soft then
      match softHeader L r.resolved o.name s.cache with
      | (.ok, cache) =>
        (fanoutTrail N L access r true o
          { s with cache := cache.setNode o.node { cache.node o.node with validSec := 0 } }).cons
            ⟨o.name, .ok⟩
      | (rc, _) => ⟨[⟨o.name, rc⟩], rc == .error⟩
    else
      (fanoutTrail N L access r false o (Pilot.recordPurgeRequest .exact false
        { s with cache := (deleteOpenedFile r.resolved o s.cache).2 })).cons
          ⟨o.name, unlinkRc r.resolved o.name s.cache⟩

/-- What `partialFromIndex` tries. -/
def indexTrail (N : Nginx) (L : HeaderLayout) (access : IndexAccess) (r : PurgeRequest)
    (pre : Bytes) (s : Pilot) : Trail :=
  match keyIndexReady access r.pool s with
  | (none, _) => .empty
  | (some zoneName, s) =>
    match collectPathsByKeyPrefix r.pool.collect s.shm zoneName pre with
    | none => .empty
    | some paths => loopTrail (fun k => byIndexedPath N L (r.calls k) r.now zoneName r.soft) 0 paths s

/-- What `wildcardRequest` tries. -/
def wildcardTrail (N : Nginx) (L : HeaderLayout) (access : IndexAccess) (w : Walk)
    (threads : Option Bool) (terminated : Bool) (r : PurgeRequest) (s : Pilot) : Trail :=
  match keyPrefix r.pool r.keys with
  | none => .empty
  | some pre =>
    let index := indexTrail N L access r pre s
    match partialFromIndex N L access r pre s with
    | (.error, _, _) => index
    | (_, purged, s) =>
      if 0 < purged then index
      else if !r.pool.walk || (0 < (keyPartial r.keys).length && !r.pool.keyInFile) then index
      else if threads = some false then index
      else
        ⟨index.tried ++
            walkTried L w.calls r.soft (fun calls => partialMatch L calls (keyPartial r.keys)) 0
              w.listing s.cache,
          !w.readable || (threads == some true && terminated)⟩

/-- What `indexPurge` tries. -/
def tagTrail (N : Nginx) (L : HeaderLayout) (access : IndexAccess) (r : PurgeRequest)
    (tags : List Bytes) (s : Pilot) : Trail :=
  if !access.configured then .empty
  else
    match access.zone with
    | none => .empty
    | some zoneName =>
      if !access.reader then .empty
      else if !(getZoneState r.now s.shm zoneName).bootstrapComplete then .empty
      else
        match collectPathsByTags N r.pool.collect s.shm zoneName tags with
        | none => .empty
        | some paths => loopTrail (fun k => purgeTagged N L (r.calls k) r.now zoneName r.soft) 0 paths s

/-- What `purgeAll` tries. -/
def allTrail (L : HeaderLayout) (call : PurgeCall) (s : Pilot) : Trail :=
  ⟨walkTried L call.walk.calls call.purge.soft (fun _ _ _ => true) 0 call.walk.listing s.cache,
    !call.walk.readable⟩

/-- A purge of the kind that the request asks for, up to its answer. -/
def PurgeCall.run (N : Nginx) (L : HeaderLayout) (access : IndexAccess) (call : PurgeCall)
    (s : Pilot) : Option Answer × Pilot :=
  match call.kind with
  | .tag =>
    match dispatchTags N L access call.request (keepTags [] call.tokens) s with
    | (.ok, s) => (some (sendResponse call.pool), s)
    | (.declined, s) => (some .preconditionFailed, s)
    | (_, s) => (some .internalServerError, s)
  | .all =>
    match purgeAll L call s with
    | (.ok, s) => (some (sendResponse call.pool), s)
    | (_, s) => (some .internalServerError, s)
  | .wildcard =>
    wildcardRequest N L access call.walk call.threads call.terminated call.request s
  | .exact =>
    let r := handler N L access call.opened false false call.request s
    (some r.1, r.2)

/-- What it tries. -/
def PurgeCall.trail (N : Nginx) (L : HeaderLayout) (access : IndexAccess) (call : PurgeCall)
    (s : Pilot) : Trail :=
  match call.kind with
  | .tag => tagTrail N L access call.request (keepTags [] call.tokens) s
  | .all => allTrail L call s
  | .wildcard =>
    wildcardTrail N L access call.walk call.threads call.terminated call.request s
  | .exact => exactTrail N L access call.opened call.request s

/-- The mode of the purge. -/
def PurgeCall.mode (call : PurgeCall) : Bool :=
  if call.kind = .all then call.purge.soft else call.request.soft

variable {N : Nginx} {L : HeaderLayout} {access : IndexAccess} {r : PurgeRequest} {s : Pilot}
  {call : PurgeCall}

/-! ## The purge of a request -/

/-- A tag purge returns one of three codes. -/
theorem indexPurge_rc (N : Nginx) (L : HeaderLayout) (access : IndexAccess) (r : PurgeRequest)
    (tags : List Bytes) (s : Pilot) : (indexPurge N L access r tags s).1 = .ok ∨
      (indexPurge N L access r tags s).1 = .declined ∨ (indexPurge N L access r tags s).1 = .error := by
  unfold indexPurge
  split
  · exact Or.inr (Or.inl rfl)
  · split
    · exact Or.inr (Or.inl rfl)
    · split
      · exact Or.inr (Or.inl rfl)
      · split
        · exact Or.inr (Or.inl rfl)
        · split
          · exact Or.inr (Or.inr rfl)
          · split
            · split
              · exact Or.inl rfl
              · exact Or.inr (Or.inl rfl)
            · exact Or.inr (Or.inr rfl)

theorem dispatchTags_rc (N : Nginx) (L : HeaderLayout) (access : IndexAccess) (r : PurgeRequest)
    (tags : List Bytes) (s : Pilot) : (dispatchTags N L access r tags s).1 = .ok ∨
      (dispatchTags N L access r tags s).1 = .declined ∨
      (dispatchTags N L access r tags s).1 = .error := by
  have hrc := indexPurge_rc N L access r tags s
  unfold dispatchTags
  generalize indexPurge N L access r tags s = result at hrc
  obtain ⟨rc, s'⟩ := result
  rcases hrc with rfl | rfl | rfl
  · exact Or.inl rfl
  · simp only
    split
    · exact Or.inl rfl
    · exact Or.inr (Or.inl rfl)
  · exact Or.inr (Or.inr rfl)

theorem partialPurge_rc (N : Nginx) (L : HeaderLayout) (access : IndexAccess) (w : Walk)
    (threads : Option Bool) (r : PurgeRequest) (s : Pilot) :
    (partialPurge N L access w threads r s).1 = .ok ∨
      (partialPurge N L access w threads r s).1 = .done ∨
      (partialPurge N L access w threads r s).1 = .error := by
  unfold partialPurge
  split
  · exact Or.inr (Or.inr rfl)
  · split
    · exact Or.inr (Or.inr rfl)
    · simp only
      split
      · exact Or.inl rfl
      · split
        · exact Or.inr (Or.inr rfl)
        · split
          · split
            · exact Or.inr (Or.inl rfl)
            · exact Or.inr (Or.inr rfl)
          · split
            · exact Or.inl rfl
            · exact Or.inr (Or.inr rfl)

/-- What `dispatch_special` makes of a request whose tags it can read. -/
theorem dispatchSpecial_reads (hread : locationEnabled call.conf = true → call.reads call.tagPool = true) :
    dispatchSpecial N L access call s =
      match call.kind with
      | .tag =>
        let r := dispatchTags N L access call.request (keepTags [] call.tokens) s
        ⟨true, r.1, [.tag], false, r.2⟩
      | .all => ⟨true, (purgeAll L call s).1, [.all], false, (purgeAll L call s).2⟩
      | .wildcard =>
        let r := partialPurge N L access call.walk call.threads call.request s
        ⟨true, r.1, [.wildcard], false, r.2⟩
      | .exact => ⟨false, .ok, [], false, s⟩ := by
  unfold dispatchSpecial PurgeCall.kind dispatchUntagged
  cases he : locationEnabled call.conf with
  | false =>
    have hno : ¬ (false = true ∧ call.tokens ≠ []) := fun h => Bool.false_ne_true h.1
    rw [if_neg Bool.false_ne_true, if_neg hno]
    cases call.purge.purgeAll with
    | true => rfl
    | false => cases isPartial call.keys <;> rfl
  | true =>
    rw [if_pos rfl, requestHeaders_eq he, hread he, if_pos rfl]
    cases ht : call.tokens with
    | nil =>
      have hno : ¬ (true = true ∧ ([] : List Bytes) ≠ []) := fun h => h.2 rfl
      rw [if_neg hno]
      cases call.purge.purgeAll with
      | true => rfl
      | false => cases isPartial call.keys <;> rfl
    | cons t tokens =>
      have hpos : 0 < (keepTags [] (t :: tokens)).length :=
        List.length_pos_iff.mpr (mt keepTags_eq_nil.mp (List.cons_ne_nil t tokens))
      have htagged : true = true ∧ t :: tokens ≠ [] := ⟨rfl, List.cons_ne_nil t tokens⟩
      rw [if_pos htagged]
      simp only [List.isEmpty_cons, Bool.false_eq_true, if_false, if_pos hpos]

theorem PurgeCall.kind_asterisk (call : PurgeCall) :
    (call.kind = .wildcard → isPartial call.keys = true) ∧
      (call.kind = .exact → isPartial call.keys = false) := by
  unfold PurgeCall.kind
  split
  · exact ⟨(nomatch ·), (nomatch ·)⟩
  · split
    · exact ⟨(nomatch ·), (nomatch ·)⟩
    · split
      · next h => exact ⟨fun _ => h, (nomatch ·)⟩
      · next h => exact ⟨(nomatch ·), fun _ => Bool.eq_false_iff.mpr h⟩

/-- Where both readings of its tags work, a request runs the purge of its kind and is
answered for it. -/
theorem protocolHandler_run (hreads : locationEnabled call.conf = true →
      call.reads call.tagPool = true ∧ call.reads call.handlerPool = true) :
    (protocolHandler N L access call s).answer = (call.run N L access s).1 ∧
      (protocolHandler N L access call s).state = (call.run N L access s).2 := by
  have hexact := takenForExact_iff fun he => (hreads he).2
  -- a purge that has run is only answered by the handler
  have hfinal : call.kind ≠ .exact → ∀ ran s', (finalHandler N L access call ran false s').answer =
      some (sendResponse call.pool) ∧ (finalHandler N L access call ran false s').state = s' := by
    intro hne ran s'
    rw [finalHandler_eq, if_neg (mt hexact.mp hne)]
    exact ⟨rfl, rfl⟩
  unfold protocolHandler
  rw [dispatchSpecial_reads fun he => (hreads he).1]
  unfold PurgeCall.run
  cases hkind : call.kind with
  | tag =>
    have hfinal := hfinal (by rw [hkind]; decide) [.tag]
    have hnot : (dispatchTags N L access call.request (keepTags [] call.tokens) s).1 = .declined →
        (dispatchTags N L access call.request (keepTags [] call.tokens) s).2.declineReason ≠
          .notFound := by
      unfold dispatchTags
      cases indexPurge N L access call.request (keepTags [] call.tokens) s with | mk rc s' =>
      cases rc with
      | declined =>
        simp only
        split
        · exact (nomatch ·)
        · next hreason => exact fun _ => hreason
      | _ => exact (nomatch ·)
    have hrc := dispatchTags_rc N L access call.request (keepTags [] call.tokens) s
    simp only [if_true]
    generalize dispatchTags N L access call.request (keepTags [] call.tokens) s = result at hnot hrc
    obtain ⟨rc, s'⟩ := result
    rcases hrc with rfl | rfl | rfl
    · exact hfinal s'
    · simp only [if_neg (hnot rfl)]
      exact ⟨trivial, trivial⟩
    · exact ⟨rfl, rfl⟩
  | all =>
    have hfinal := hfinal (by rw [hkind]; decide) [.all]
    have hrc : (purgeAll L call s).1 = .ok ∨ (purgeAll L call s).1 = .error := by
      unfold purgeAll
      split
      · exact Or.inl rfl
      · exact Or.inr rfl
    simp only [if_true]
    generalize purgeAll L call s = result at hrc
    obtain ⟨rc, s'⟩ := result
    rcases hrc with rfl | rfl
    · exact hfinal s'
    · exact ⟨rfl, rfl⟩
  | wildcard =>
    have hfinal := hfinal (by rw [hkind]; decide) [.wildcard]
    have hpart : isPartial call.request.keys = true := call.kind_asterisk.1 hkind
    have hrc := partialPurge_rc N L access call.walk call.threads call.request s
    unfold wildcardRequest
    simp only [if_true]
    generalize partialPurge N L access call.walk call.threads call.request s = result at hrc
    obtain ⟨rc, s'⟩ := result
    rcases hrc with rfl | rfl | rfl
    · simp only [handler_asterisk hpart]
      exact hfinal s'
    · exact ⟨rfl, rfl⟩
    · exact ⟨rfl, rfl⟩
  | exact =>
    simp only [Bool.false_eq_true, if_false]
    rw [finalHandler_eq, if_pos (hexact.mpr hkind)]
    exact ⟨rfl, rfl⟩

/-! ## Counts -/

theorem purgedPaths_cons (a : Attempt) (tried : List Attempt) :
    purgedPaths (a :: tried) = if a.rc = .ok then a.path :: purgedPaths tried else purgedPaths tried := by
  unfold purgedPaths
  rw [List.filter_cons]
  cases hd : decide (a.rc = .ok) with
  | true =>
    rw [if_pos rfl, if_pos (of_decide_eq_true hd)]
    rfl
  | false => rw [if_neg Bool.false_ne_true, if_neg (of_decide_eq_false hd)]

theorem purgedPaths_append (tried tried' : List Attempt) :
    purgedPaths (tried ++ tried') = purgedPaths tried ++ purgedPaths tried' := by
  unfold purgedPaths
  rw [List.filter_append, List.map_append]

/-- The return code of a route that was broken off, or came to its end. -/
def Trail.rc (t : Trail) : NgxRc := if t.broken then .error else .ok

/-- The loop counts what it purges, and fails where it is broken off. -/
theorem purgePaths_trail (one : Nat → Bytes → Pilot → NgxRc × Pilot) (k : Nat) (paths : List Bytes)
    (count : Nat) (s : Pilot) :
    (purgePaths one k paths count s).1 = (loopTrail one k paths s).rc ∧
      (purgePaths one k paths count s).2.1 =
        count + (purgedPaths (loopTrail one k paths s).tried).length := by
  induction paths generalizing k count s with
  | nil => exact ⟨rfl, rfl⟩
  | cons path paths ih =>
    unfold purgePaths loopTrail
    cases one k path s with | mk rc s1 =>
    cases rc with
    | ok =>
      obtain ⟨hrc, hcount⟩ := ih (k + 1) (count + 1) s1
      refine ⟨hrc, hcount.trans ?_⟩
      show _ = count + (purgedPaths (⟨path, .ok⟩ :: _)).length
      rw [purgedPaths_cons, if_pos rfl, List.length_cons]
      omega
    | declined =>
      obtain ⟨hrc, hcount⟩ := ih (k + 1) count s1
      refine ⟨hrc, hcount.trans ?_⟩
      show _ = count + (purgedPaths (⟨path, .declined⟩ :: _)).length
      rw [purgedPaths_cons, if_neg (by rintro ⟨⟩)]
    | error => exact ⟨rfl, rfl⟩
    | again => exact ⟨rfl, rfl⟩
    | done => exact ⟨rfl, rfl⟩

/-- A file handler selects a file or not, purges it and counts it. -/
def Handles (L : HeaderLayout) (calls : Nat → FileCalls) (soft : Bool)
    (selects : FileCalls → Bytes → Disk → Bool)
    (fileHandler : Nat → Bytes → Nat → FileCache → NgxRc × Nat × FileCache) : Prop :=
  ∀ k path purged c, (fileHandler k path purged c).2 =
    if selects (calls k) path c.disk then
      (if (byPath L (calls k) soft path c).1 = .ok then purged + 1 else purged,
        (byPath L (calls k) soft path c).2)
    else (purged, c)

/-- The walk counts what it purges, whatever its file handler returns. -/
theorem walkTree_trail {calls : Nat → FileCalls} {soft : Bool}
    {selects : FileCalls → Bytes → Disk → Bool}
    {fileHandler : Nat → Bytes → Nat → FileCache → NgxRc × Nat × FileCache}
    (hh : Handles L calls soft selects fileHandler) (readable : Bool) (k : Nat)
    (listing : List Bytes) (purged : Nat) (c : FileCache) :
    (walkTree readable fileHandler k listing purged c).1 = (if readable then .ok else .error) ∧
      (walkTree readable fileHandler k listing purged c).2.1 =
        purged + (purgedPaths (walkTried L calls soft selects k listing c)).length := by
  induction listing generalizing k purged c with
  | nil => exact ⟨rfl, rfl⟩
  | cons path listing ih =>
    unfold walkTree walkTried
    simp only [hh k path purged c]
    cases selects (calls k) path c.disk with
    | false => exact ih (k + 1) purged c
    | true =>
      simp only [if_true]
      obtain ⟨hrc, hcount⟩ := ih (k + 1)
        (if (byPath L (calls k) soft path c).1 = .ok then purged + 1 else purged)
        (byPath L (calls k) soft path c).2
      refine ⟨hrc, hcount.trans ?_⟩
      rw [purgedPaths_cons]
      cases hd : decide ((byPath L (calls k) soft path c).1 = .ok) with
      | true =>
        rw [if_pos (of_decide_eq_true hd), if_pos (of_decide_eq_true hd), List.length_cons]
        omega
      | false => rw [if_neg (of_decide_eq_false hd), if_neg (of_decide_eq_false hd)]

theorem handles_all (L : HeaderLayout) (calls : Nat → FileCalls) (soft : Bool) :
    Handles L calls soft (fun _ _ _ => true) fun k =>
      if soft then fileCacheSoftFile L (calls k) else fileCacheDeleteFile L (calls k) := by
  intro k path purged c
  cases soft with
  | true =>
    show (fileCacheSoftFile L (calls k) path purged c).2 = _
    unfold fileCacheSoftFile byPath
    simp only [if_true]
    cases softPath L (calls k) path c with | mk rc c' =>
    cases rc with
    | ok => rfl
    | _ => rfl
  | false =>
    show (fileCacheDeleteFile L (calls k) path purged c).2 = _
    unfold fileCacheDeleteFile
    cases byPath L (calls k) false path c with | mk rc c' =>
    cases rc with
    | ok => rfl
    | _ => rfl

theorem handles_prefixed (L : HeaderLayout) (calls : Nat → FileCalls) (soft : Bool)
    (keyPartial : Bytes) : Handles L calls soft (fun calls => partialMatch L calls keyPartial) fun k =>
      if soft then softPartialFile L (calls k) keyPartial
      else deletePartialFile L (calls k) keyPartial := by
  intro k path purged c
  cases soft with
  | true =>
    show (softPartialFile L (calls k) keyPartial path purged c).2 =
      if partialMatch L (calls k) keyPartial path c.disk then _ else _
    unfold softPartialFile byPath
    cases partialMatch L (calls k) keyPartial path c.disk with
    | false => rfl
    | true =>
      simp only [if_true, Bool.not_true, Bool.false_eq_true, if_false]
      cases softPath L (calls k) path c with | mk rc c' =>
      cases rc with
      | ok => rfl
      | _ => rfl
  | false =>
    show (deletePartialFile L (calls k) keyPartial path purged c).2 =
      if partialMatch L (calls k) keyPartial path c.disk then _ else _
    unfold deletePartialFile
    cases partialMatch L (calls k) keyPartial path c.disk with
    | false => rfl
    | true =>
      simp only [if_true, Bool.not_true, Bool.false_eq_true, if_false]
      cases byPath L (calls k) false path c with | mk rc c' =>
      cases rc with
      | ok => rfl
      | _ => rfl

/-! ## What a purge reports -/

namespace Pilot

/-- What the response reports as purged. -/
def reported (s : Pilot) : PurgeStats → Bool → Nat :=
  match s.ctx with
  | some ctx => ctx.purged
  | none => fun _ _ => 0

/-- The way that the response reports. -/
def reportedPath (s : Pilot) : PurgePath :=
  match s.ctx with
  | some ctx => ctx.purgePath
  | none => .unset

/-- What is reported and counted; a purge of one file does not touch it. -/
def report (s : Pilot) : Option PurgeMetrics × (PurgeStats → Bool → Nat) × PurgePath :=
  (s.metrics, s.reported, s.reportedPath)

@[simp] theorem setDeclineReason_report (pool : PurgePool) (reason : DeclineReason) (s : Pilot) :
    (s.setDeclineReason pool reason).report = s.report := by
  obtain ⟨cache, shm, metrics, ctx⟩ := s
  cases ctx with
  | some ctx => rfl
  | none =>
    unfold setDeclineReason withCtx
    cases pool.ctx with
    | true => rfl
    | false => rfl

/-- The report of the way: it stands where the request has a context. -/
theorem setResponsePath_spec (pool : PurgePool) (p : PurgePath) (s : Pilot) :
    (s.setResponsePath pool p).reported = s.reported ∧
      (s.setResponsePath pool p).metrics = s.metrics ∧
      ((s.setResponsePath pool p).ctx.isSome = true ↔ s.ctx.isSome = true ∨ pool.ctx = true) ∧
      ((s.setResponsePath pool p).ctx.isSome = true → (s.setResponsePath pool p).reportedPath = p) := by
  obtain ⟨cache, shm, metrics, ctx⟩ := s
  unfold setResponsePath withCtx
  cases ctx with
  | some ctx => exact ⟨rfl, rfl, iff_of_true rfl (Or.inl rfl), fun _ => rfl⟩
  | none =>
    cases pool.ctx with
    | true => exact ⟨rfl, rfl, iff_of_true rfl (Or.inr rfl), fun _ => rfl⟩
    | false =>
      have hno : ¬ ((none : Option RequestCtx).isSome = true ∨ false = true) :=
        fun h => h.elim (nomatch ·) (nomatch ·)
      exact ⟨rfl, rfl, iff_of_false (nomatch ·) hno, (nomatch ·)⟩

@[simp] theorem setResponsePath_reported (pool : PurgePool) (p : PurgePath) (s : Pilot) :
    (s.setResponsePath pool p).reported = s.reported := (s.setResponsePath_spec pool p).1

@[simp] theorem setResponsePath_metrics (pool : PurgePool) (p : PurgePath) (s : Pilot) :
    (s.setResponsePath pool p).metrics = s.metrics := (s.setResponsePath_spec pool p).2.1

theorem keyIndexReady_report (access : IndexAccess) (pool : PurgePool) (s : Pilot) :
    (keyIndexReady access pool s).2.report = s.report := by
  unfold keyIndexReady
  cases access.configured with
  | false => exact setDeclineReason_report pool _ s
  | true =>
    cases access.zone with
    | none => exact setDeclineReason_report pool _ s
    | some zoneName =>
      cases access.reader || access.writer with
      | true => rfl
      | false => exact setDeclineReason_report pool _ s

/-- A context that is there was there before, or could be made. -/
def CtxFrom (s : Pilot) (pool : PurgePool) (s' : Pilot) : Prop :=
  s'.ctx.isSome = true → s.ctx.isSome = true ∨ pool.ctx = true

theorem setDeclineReason_ctx (pool : PurgePool) (reason : DeclineReason) (s : Pilot) :
    s.CtxFrom pool (s.setDeclineReason pool reason) := by
  obtain ⟨cache, shm, metrics, ctx⟩ := s
  unfold CtxFrom setDeclineReason withCtx
  cases ctx with
  | some ctx => exact fun _ => Or.inl rfl
  | none =>
    cases pool.ctx with
    | true => exact fun _ => Or.inr rfl
    | false => exact fun h => nomatch h

theorem keyIndexReady_ctx (access : IndexAccess) (pool : PurgePool) (s : Pilot) :
    s.CtxFrom pool (keyIndexReady access pool s).2 := by
  unfold keyIndexReady
  cases access.configured with
  | false => exact setDeclineReason_ctx pool _ s
  | true =>
    cases access.zone with
    | none => exact setDeclineReason_ctx pool _ s
    | some zoneName =>
      cases access.reader || access.writer with
      | true => exact Or.inl
      | false => exact setDeclineReason_ctx pool _ s

end Pilot

/-- What each turn does to the state, the loop does. -/
theorem purgePaths_relates {R : Pilot → Pilot → Prop} (hrefl : ∀ s, R s s)
    (htrans : ∀ s s' s'', R s s' → R s' s'' → R s s'')
    {one : Nat → Bytes → Pilot → NgxRc × Pilot} (hone : ∀ k path s, R s (one k path s).2) (k : Nat)
    (paths : List Bytes) (count : Nat) (s : Pilot) : R s (purgePaths one k paths count s).2.2 := by
  induction paths generalizing k count s with
  | nil => exact hrefl s
  | cons path paths ih =>
    have hpath := hone k path s
    unfold purgePaths
    generalize one k path s = result at hpath
    obtain ⟨rc, s1⟩ := result
    cases rc with
    | ok => exact htrans _ _ _ hpath (ih (k + 1) (count + 1) s1)
    | declined => exact htrans _ _ _ hpath (ih (k + 1) count s1)
    | _ => exact hpath

/-- A loop leaves alone what its turns leave alone. -/
theorem purgePaths_keeps {α : Type} (f : Pilot → α) {one : Nat → Bytes → Pilot → NgxRc × Pilot}
    (hone : ∀ k path s, f (one k path s).2 = f s) (k : Nat) (paths : List Bytes) (count : Nat)
    (s : Pilot) : f (purgePaths one k paths count s).2.2 = f s :=
  purgePaths_relates (R := fun s s' => f s' = f s) (fun _ => rfl) (fun _ _ _ h h' => h'.trans h) hone k
    paths count s

theorem byIndexedPath_report (N : Nginx) (L : HeaderLayout) (calls : FileCalls) (now : Int)
    (zoneName : Bytes) (soft : Bool) (path : Bytes) (s : Pilot) :
    (byIndexedPath N L calls now zoneName soft path s).2.report = s.report := by
  unfold byIndexedPath
  simp only
  split
  · rfl
  · rfl

theorem purgeTagged_report (N : Nginx) (L : HeaderLayout) (calls : FileCalls) (now : Int)
    (zoneName : Bytes) (soft : Bool) (path : Bytes) (s : Pilot) :
    (purgeTagged N L calls now zoneName soft path s).2.report = s.report := by
  unfold purgeTagged
  simp only
  split
  · rfl
  · split
    · rfl
    · rfl

theorem fanoutTrail_eq (N : Nginx) (L : HeaderLayout) (access : IndexAccess) (r : PurgeRequest)
    (soft : Bool) (o : OpenedCache) (s : Pilot) : fanoutTrail N L access r soft o s =
      match fanoutList N access r soft o s with
      | (none, _) => .empty
      | (some list, s) => loopTrail (fanoutTurn N L r soft list.1) 0 list.2 s := by
  unfold fanoutTrail fanoutList fanoutStart
  cases keyIndexReady access r.pool s with | mk z s1 =>
  cases z with
  | none => rfl
  | some zoneName =>
    simp only
    cases cacheKeyText r.pool r.keys with
    | none => rfl
    | some keyText =>
      simp only
      generalize (if soft then s1 else deleteIndexPath N r.now zoneName o.name s1) = s2
      cases collectPathsByExactKey N r.pool.collect s2.shm zoneName keyText with
      | none => rfl
      | some paths =>
        cases soft with
        | true => rfl
        | false => rfl

/-- Apart from the context, the query of a fanout leaves what is counted alone. -/
theorem fanoutList_report (N : Nginx) (access : IndexAccess) (r : PurgeRequest) (soft : Bool)
    (o : OpenedCache) (s : Pilot) : (fanoutList N access r soft o s).2.report = s.report ∧
      s.CtxFrom r.pool (fanoutList N access r soft o s).2 := by
  have hready := Pilot.keyIndexReady_report access r.pool s
  have hctx := Pilot.keyIndexReady_ctx access r.pool s
  have hquery := fanoutList_query N access r s soft o
  generalize fanoutList N access r soft o s = result at hquery
  cases hquery with
  | skipped _ hstart =>
    rw [hstart]
    exact ⟨hready, hctx⟩
  | queried _ _ hstart =>
    rw [hstart]
    cases soft with
    | true => exact ⟨hready, hctx⟩
    | false => exact ⟨hready, hctx⟩

/-- A turn of a fanout leaves what is counted, and the context, alone. -/
theorem fanoutTurn_report (N : Nginx) (L : HeaderLayout) (r : PurgeRequest) (soft : Bool)
    (zoneName : Bytes) (k : Nat) (path : Bytes) (s : Pilot) :
    (fanoutTurn N L r soft zoneName k path s).2.report = s.report ∧
      (fanoutTurn N L r soft zoneName k path s).2.ctx = s.ctx := by
  cases soft with
  | true => exact ⟨rfl, rfl⟩
  | false =>
    refine ⟨byIndexedPath_report N L (r.calls k) r.now zoneName false path s, ?_⟩
    show (byIndexedPath N L (r.calls k) r.now zoneName false path s).2.ctx = s.ctx
    unfold byIndexedPath
    simp only
    split
    · rfl
    · rfl

/-- The fanout counts what it purges, and fails where it is broken off. -/
theorem exactFanout_trail (N : Nginx) (L : HeaderLayout) (access : IndexAccess) (r : PurgeRequest)
    (soft : Bool) (o : OpenedCache) (s : Pilot) :
    (exactFanout N L access r soft o s).1 = (fanoutTrail N L access r soft o s).rc ∧
      (exactFanout N L access r soft o s).2.1 =
        (purgedPaths (fanoutTrail N L access r soft o s).tried).length ∧
      (exactFanout N L access r soft o s).2.2.report = s.report := by
  obtain ⟨hreport, -⟩ := fanoutList_report N access r soft o s
  rw [exactFanout_eq, fanoutTrail_eq]
  generalize fanoutList N access r soft o s = result at hreport
  obtain ⟨list, s1⟩ := result
  cases list with
  | none => exact ⟨rfl, rfl, hreport⟩
  | some list =>
    obtain ⟨hrc, hcount⟩ := purgePaths_trail (fanoutTurn N L r soft list.1) 0 list.2 0 s1
    refine ⟨hrc, hcount.trans (Nat.zero_add _), ?_⟩
    exact (purgePaths_keeps Pilot.report (fun k path s => (fanoutTurn_report N L r soft _ k path s).1)
      0 list.2 0 s1).trans hreport

theorem exactFanout_ctx (N : Nginx) (L : HeaderLayout) (access : IndexAccess) (r : PurgeRequest)
    (soft : Bool) (o : OpenedCache) (s : Pilot) :
    s.CtxFrom r.pool (exactFanout N L access r soft o s).2.2 := by
  obtain ⟨-, hctx⟩ := fanoutList_report N access r soft o s
  rw [exactFanout_eq]
  generalize fanoutList N access r soft o s = result at hctx
  obtain ⟨list, s1⟩ := result
  cases list with
  | none => exact hctx
  | some list =>
    have hloop : (purgePaths (fanoutTurn N L r soft list.1) 0 list.2 0 s1).2.2.ctx = s1.ctx :=
      purgePaths_keeps Pilot.ctx (fun k path s => (fanoutTurn_report N L r soft _ k path s).2) 0 list.2 0 s1
    intro hsome
    exact hctx (by rw [← hloop]; exact hsome)

/-- The index part of a wildcard purge counts what it purges. -/
theorem partialFromIndex_trail (N : Nginx) (L : HeaderLayout) (access : IndexAccess)
    (r : PurgeRequest) (pre : Bytes) (s : Pilot) :
    (partialFromIndex N L access r pre s).1 = (indexTrail N L access r pre s).rc ∧
      (partialFromIndex N L access r pre s).2.1 =
        (purgedPaths (indexTrail N L access r pre s).tried).length ∧
      (partialFromIndex N L access r pre s).2.2.report = s.report := by
  have hready := Pilot.keyIndexReady_report access r.pool s
  unfold partialFromIndex indexTrail
  generalize keyIndexReady access r.pool s = ready at hready
  obtain ⟨z, s1⟩ := ready
  cases z with
  | none => exact ⟨rfl, rfl, hready⟩
  | some zoneName =>
    simp only
    cases collectPathsByKeyPrefix r.pool.collect s1.shm zoneName pre with
    | none => exact ⟨rfl, rfl, hready⟩
    | some paths =>
      obtain ⟨hrc, hcount⟩ := purgePaths_trail
        (fun k => byIndexedPath N L (r.calls k) r.now zoneName r.soft) 0 paths 0 s1
      refine ⟨hrc, hcount.trans (Nat.zero_add _), ?_⟩
      exact (purgePaths_keeps Pilot.report
        (fun k path s => byIndexedPath_report N L (r.calls k) r.now zoneName r.soft path s)
        0 paths 0 s1).trans hready

theorem walkPartial_trail (L : HeaderLayout) (w : Walk) (soft : Bool) (keyPartial : Bytes)
    (c : FileCache) : (walkPartial L w soft keyPartial c).1 = (if w.readable then .ok else .error) ∧
      (walkPartial L w soft keyPartial c).2.1 = (purgedPaths (walkTried L w.calls soft
        (fun calls => partialMatch L calls keyPartial) 0 w.listing c)).length := by
  obtain ⟨hrc, hcount⟩ :=
    walkTree_trail (handles_prefixed L w.calls soft keyPartial) w.readable 0 w.listing 0 c
  exact ⟨hrc, hcount.trans (Nat.zero_add _)⟩

theorem walkAll_trail (L : HeaderLayout) (w : Walk) (soft : Bool) (c : FileCache) :
    (walkAll L w soft c).1 = (if w.readable then .ok else .error) ∧
      (walkAll L w soft c).2.1 = (purgedPaths (walkTried L w.calls soft (fun _ _ _ => true) 0
        w.listing c)).length := by
  obtain ⟨hrc, hcount⟩ := walkTree_trail (handles_all L w.calls soft) w.readable 0 w.listing 0 c
  exact ⟨hrc, hcount.trans (Nat.zero_add _)⟩

@[simp] theorem releaseUpdating_report (o : OpenedCache) (s : Pilot) :
    (releaseUpdating o s).report = s.report := by
  unfold releaseUpdating
  simp only
  split
  · rfl
  · rfl

/-! ## Purges that are broken off -/

variable {opened : CacheOpen} {w : Walk} {threads : Option Bool} {terminated : Bool}
  {tags : List Bytes}

/-- A tag purge that is broken off fails, and has counted nothing. -/
theorem indexPurge_broken (h : (tagTrail N L access r tags s).broken = true) :
    (indexPurge N L access r tags s).1 = .error ∧
      (indexPurge N L access r tags s).2.metrics = s.metrics := by
  unfold tagTrail at h
  unfold indexPurge
  cases hconf : access.configured with
  | false =>
    rw [hconf] at h
    cases h
  | true =>
    cases hzone : access.zone with
    | none =>
      rw [hconf, hzone] at h
      cases h
    | some zoneName =>
      simp only [hconf, hzone, Bool.not_true, Bool.false_eq_true, if_false] at h ⊢
      split at h
      · cases h
      · next hreader =>
        rw [if_neg hreader]
        split at h
        · cases h
        · next hready =>
          rw [if_neg hready]
          cases hc : collectPathsByTags N r.pool.collect s.shm zoneName tags with
          | none =>
            rw [hc] at h
            cases h
          | some paths =>
            rw [hc] at h
            simp only at h ⊢
            obtain ⟨hrc, -⟩ := purgePaths_trail
              (fun k => purgeTagged N L (r.calls k) r.now zoneName r.soft) 0 paths 0 s
            have hkeep := purgePaths_keeps Pilot.report
              (fun k path s => purgeTagged_report N L (r.calls k) r.now zoneName r.soft path s)
              0 paths 0 s
            rw [Trail.rc, if_pos h] at hrc
            generalize purgePaths (fun k => purgeTagged N L (r.calls k) r.now zoneName r.soft)
              0 paths 0 s = loop at hrc hkeep
            obtain ⟨rc, purged, s1⟩ := loop
            obtain rfl : rc = .error := hrc
            exact ⟨rfl, congrArg Prod.fst hkeep⟩

/-- A wildcard purge that is broken off is not answered 200, and has counted nothing. -/
theorem wildcardRequest_broken (h : (wildcardTrail N L access w threads terminated r s).broken = true) :
    (wildcardRequest N L access w threads terminated r s).1 ≠ some .ok ∧
      (wildcardRequest N L access w threads terminated r s).2.metrics = s.metrics := by
  unfold wildcardTrail at h
  unfold wildcardRequest partialPurge
  cases hpre : keyPrefix r.pool r.keys with
  | none =>
    rw [hpre] at h
    cases h
  | some pre =>
    rw [hpre] at h
    obtain ⟨hrc, hcount, hreport⟩ := partialFromIndex_trail N L access r pre s
    simp only at h ⊢
    generalize partialFromIndex N L access r pre s = index at h hrc hcount hreport
    obtain ⟨rc, purged, s1⟩ := index
    have hm : s1.metrics = s.metrics := congrArg Prod.fst hreport
    -- an index part that comes to its end is not broken off
    have hunbroken : rc ≠ .error → (indexTrail N L access r pre s).broken = true → False := by
      intro hne hb
      rw [Trail.rc, if_pos hb] at hrc
      exact hne hrc
    have hcases : rc = .error ∨ rc = .ok := by
      cases hb : (indexTrail N L access r pre s).broken with
      | true =>
        rw [Trail.rc, hb] at hrc
        exact Or.inl hrc
      | false =>
        rw [Trail.rc, hb] at hrc
        exact Or.inr hrc
    rcases hcases with rfl | rfl
    · exact ⟨(by rintro ⟨⟩), hm⟩
    · simp only at h ⊢
      split at h
      · exact (hunbroken (by rintro ⟨⟩) h).elim
      · next hpurged =>
        rw [if_neg hpurged]
        split at h
        · exact (hunbroken (by rintro ⟨⟩) h).elim
        · next hmem =>
          rw [if_neg hmem]
          obtain ⟨hwalk, -⟩ := walkPartial_trail L w r.soft (keyPartial r.keys)
            (s1.setResponsePath r.pool .filesystemFallback).cache
          cases threads with
          | none =>
            simp only [reduceCtorEq, if_false] at h
            have hread : w.readable = false := by simpa using h
            rw [hread] at hwalk
            simp only
            generalize walkPartial L w r.soft (keyPartial r.keys)
              (s1.setResponsePath r.pool .filesystemFallback).cache = walked at hwalk
            obtain ⟨rc, purged, cache⟩ := walked
            obtain rfl : rc = .error := hwalk
            refine ⟨(by rintro ⟨⟩), ?_⟩
            show (s1.setResponsePath r.pool .filesystemFallback).metrics = s.metrics
            rw [Pilot.setResponsePath_metrics, hm]
          | some posted =>
            cases posted with
            | false =>
              rw [if_pos rfl] at h
              exact (hunbroken (by rintro ⟨⟩) h).elim
            | true =>
              simp only [if_true]
              have hm2 : (s1.setResponsePath r.pool .filesystemFallback).metrics = s.metrics := by
                rw [Pilot.setResponsePath_metrics, hm]
              generalize s1.setResponsePath r.pool .filesystemFallback = s2 at hwalk hm2
              unfold partialCompletion
              cases terminated with
              | true => exact ⟨(by rintro ⟨⟩), hm2⟩
              | false =>
                simp only [Option.some.injEq, reduceCtorEq, if_false] at h
                have hread : w.readable = false := by simpa using h
                rw [hread] at hwalk
                simp only [hwalk]
                exact ⟨(by rintro ⟨⟩), hm2⟩

theorem purgeAll_broken (h : (allTrail L call s).broken = true) :
    (purgeAll L call s).1 = .error ∧ (purgeAll L call s).2.metrics = s.metrics := by
  have hread : call.walk.readable = false := by simpa [allTrail] using h
  obtain ⟨hwalk, -⟩ := walkAll_trail L call.walk call.purge.soft s.cache
  rw [hread] at hwalk
  unfold purgeAll
  generalize walkAll L call.walk call.purge.soft s.cache = walked at hwalk
  obtain ⟨rc, purged, cache⟩ := walked
  obtain rfl : rc = .error := hwalk
  exact ⟨rfl, rfl⟩

/-- Whether an exact purge counts its request before its fanout: a hard one does. -/
def CacheOpen.countsFirst (opened : CacheOpen) (soft : Bool) : Bool :=
  match opened with
  | .opened _ => !soft
  | _ => false

/-- An exact purge that is broken off fails. A hard one has counted its request by
then. -/
theorem exactPurgeOf_broken (h : (exactTrail N L access opened r s).broken = true) :
    (exactPurgeOf N L access opened r s).1 = .error ∧
      (exactPurgeOf N L access opened r s).2.metrics =
        if opened.countsFirst r.soft then
          s.metrics.map fun m => { m with purges := Pilot.addTo m.purges .exact false 1 }
        else s.metrics := by
  unfold exactTrail at h
  unfold exactPurgeOf
  cases opened with
  | declined => cases h
  | again => cases h
  | error =>
    cases r.soft with
    | true => exact ⟨rfl, rfl⟩
    | false => exact ⟨rfl, rfl⟩
  | opened o =>
    simp only at h
    cases hpresent : (s.cache.node o.node).present with
    | false =>
      rw [hpresent] at h
      cases h
    | true =>
      simp only [hpresent, Bool.not_true, Bool.false_eq_true, if_false] at h
      cases hs : r.soft with
      | true =>
        simp only [hs, if_true] at h
        simp only [if_true, exactPurgeSoft, hpresent, Bool.not_true, Bool.false_eq_true, if_false]
        cases hh : softHeader L r.resolved o.name s.cache with | mk rc cache =>
        rw [hh] at h
        cases rc with
        | ok =>
          simp only at h ⊢
          obtain ⟨hrc, -, hreport⟩ := exactFanout_trail N L access r true o
            { s with cache := cache.setNode o.node { cache.node o.node with validSec := 0 } }
          change (fanoutTrail N L access r true o _).broken = true at h
          rw [Trail.rc, if_pos h] at hrc
          generalize exactFanout N L access r true o
            { s with cache := cache.setNode o.node { cache.node o.node with validSec := 0 } } =
              fanout at hrc hreport
          obtain ⟨rc, fanned, s1⟩ := fanout
          obtain rfl : rc = .error := hrc
          refine ⟨rfl, ?_⟩
          exact (congrArg Prod.fst (releaseUpdating_report o s1)).trans (congrArg Prod.fst hreport)
        | declined => cases h
        | error => exact ⟨rfl, rfl⟩
        | again => cases h
        | done => cases h
      | false =>
        simp only [hs, Bool.false_eq_true, if_false] at h ⊢
        change (fanoutTrail N L access r false o _).broken = true at h
        obtain ⟨cache, hopened, -⟩ := deleteOpenedFile_present hpresent r.resolved
        rw [hopened] at h
        unfold exactPurge
        simp only [hopened]
        obtain ⟨hrc, -, hreport⟩ := exactFanout_trail N L access r false o
          (Pilot.recordPurgeRequest .exact false { s with cache := cache })
        rw [Trail.rc, if_pos h] at hrc
        generalize exactFanout N L access r false o
          (Pilot.recordPurgeRequest .exact false { s with cache := cache }) = fanout at hrc hreport
        obtain ⟨rc, fanned, s1⟩ := fanout
        obtain rfl : rc = .error := hrc
        refine ⟨rfl, ?_⟩
        exact (congrArg Prod.fst (releaseUpdating_report o s1)).trans (congrArg Prod.fst hreport)

end CachePilot
