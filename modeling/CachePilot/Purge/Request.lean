import CachePilot.Purge.Cache
import CachePilot.Store.Answers

/-!
# Purge requests

What the purge requests of `ngx_cache_pilot_module.c` share: the state they work
on, the request context and the counters, the readiness test of the key index,
and the loop over the paths that the index gives.

`purgePaths_spec` says what the loop leaves, whichever way the purge of one path
goes.
-/

namespace CachePilot
open NgxString

/-! ## State -/

/-- `ngx_http_cache_pilot_purge_stats_e`. -/
inductive PurgeStats
  | exact
  | wildcard
  | tag
  | all
deriving DecidableEq, Repr

/-- `ngx_http_cache_pilot_purge_path_e`. -/
inductive PurgePath
  | unset
  | exactKeyFanout
  | wildcardIndex
  | filesystemFallback
  | reusedPersistedIndex
deriving DecidableEq, Repr

/-- `ngx_http_cache_pilot_decline_reason_e`. -/
inductive DeclineReason
  | unset
  | indexNotConfigured
  | unsupportedPlatform
  | flushPendingFailed
  | zoneNotRegistered
  | readerUnavailable
  | indexNotReady
  | notFound
deriving DecidableEq, Repr

/-- The part of `ngx_http_cache_pilot_request_ctx_t` that a purge uses; the
counters are by kind and by whether the purge is soft. -/
structure RequestCtx where
  purgePath : PurgePath
  declineReason : DeclineReason
  purged : PurgeStats → Bool → Nat

def RequestCtx.zero : RequestCtx := ⟨.unset, .unset, fun _ _ => 0⟩

/-- The counters of the metrics zone that a purge adds to. They are taken not to
wrap around. -/
structure PurgeMetrics where
  purges : PurgeStats → Bool → Nat
  purged : PurgeStats → Bool → Nat
  keyIndexExactFanout : Nat
  keyIndexWildcardHits : Nat

/-- What a purge request reads and changes: the cache, the index zone, the
metrics zone if there is one, and its own context once it has one. -/
structure Pilot where
  cache : FileCache
  shm : Shm
  metrics : Option PurgeMetrics
  ctx : Option RequestCtx

/-- How a purge reaches the index of the cache: whether the index is configured,
the name under which the cache is registered, and the handles of the worker. -/
structure IndexAccess where
  configured : Bool
  zone : Option Bytes
  reader : Bool
  writer : Bool

/-- The allocations of a purge request from its pool. -/
structure PurgePool where
  ctx : Bool
  keyText : Bool
  collect : PoolSite → Bool
  keyPrefix : Bool
  walk : Bool
  keyInFile : Bool
  response : Bool

def PurgePool.full : PurgePool := ⟨true, true, fun _ => true, true, true, true, true⟩

/-- A purge request: the parts of its cache key, its mode, the clock, its pool,
and what the system calls answer on the file that the key resolves to and on the
files that are purged behind it, in turn. -/
structure PurgeRequest where
  keys : List Bytes
  soft : Bool
  now : Int
  pool : PurgePool
  resolved : FileCalls
  calls : Nat → FileCalls

/-- No file operation of the request fails. -/
structure PurgeRequest.FilesWork (r : PurgeRequest) : Prop where
  resolved : r.resolved = .works
  calls : ∀ k, r.calls k = .works

/-! ## Context and counters -/

namespace Pilot

/-- Change the request context, which is made when it is needed. -/
def withCtx (ok : Bool) (change : RequestCtx → RequestCtx) (s : Pilot) : Pilot :=
  match s.ctx with
  | some ctx => { s with ctx := some (change ctx) }
  | none => if ok then { s with ctx := some (change .zero) } else s

/-- `ngx_http_cache_pilot_set_response_path`. -/
def setResponsePath (pool : PurgePool) (purgePath : PurgePath) (s : Pilot) : Pilot :=
  s.withCtx pool.ctx fun ctx => { ctx with purgePath := purgePath }

/-- `ngx_http_cache_pilot_set_decline_reason`. -/
def setDeclineReason (pool : PurgePool) (reason : DeclineReason) (s : Pilot) : Pilot :=
  s.withCtx pool.ctx fun ctx => { ctx with declineReason := reason }

/-- `ngx_http_cache_pilot_decline_reason`. -/
def declineReason (s : Pilot) : DeclineReason :=
  match s.ctx with
  | some ctx => ctx.declineReason
  | none => .unset

/-- `count` more of one kind and mode. -/
def addTo (counters : PurgeStats → Bool → Nat) (type : PurgeStats) (soft : Bool) (count : Nat) :
    PurgeStats → Bool → Nat := fun t b =>
  if t = type ∧ b = soft then counters t b + count else counters t b

@[simp] theorem addTo_zero (counters : PurgeStats → Bool → Nat) (type : PurgeStats) (soft : Bool) :
    addTo counters type soft 0 = counters := by
  funext t b
  exact ite_self _

/-- `ngx_http_cache_pilot_record_purge`: without a context nothing is counted. -/
def recordPurge (pool : PurgePool) (type : PurgeStats) (soft : Bool) (count : Nat) (s : Pilot) :
    Pilot :=
  if count = 0 ∨ (s.ctx.isNone ∧ !pool.ctx) then s
  else
    let s : Pilot :=
      { s with metrics := s.metrics.map fun m => { m with purged := addTo m.purged type soft count } }
    s.withCtx pool.ctx fun ctx => { ctx with purged := addTo ctx.purged type soft count }

/-- `ngx_http_cache_pilot_record_purge_request`. -/
def recordPurgeRequest (type : PurgeStats) (soft : Bool) (s : Pilot) : Pilot :=
  { s with metrics := s.metrics.map fun m => { m with purges := addTo m.purges type soft 1 } }

/-- `ngx_http_cache_pilot_record_key_index_exact_fanout`. -/
def recordKeyIndexExactFanout (s : Pilot) : Pilot :=
  { s with
    metrics := s.metrics.map fun m => { m with keyIndexExactFanout := m.keyIndexExactFanout + 1 } }

/-- `ngx_http_cache_pilot_record_key_index_wildcard_hit`. -/
def recordKeyIndexWildcardHit (s : Pilot) : Pilot :=
  { s with
    metrics := s.metrics.map fun m => { m with keyIndexWildcardHits := m.keyIndexWildcardHits + 1 } }

@[simp] theorem withCtx_cache (ok : Bool) (change : RequestCtx → RequestCtx) (s : Pilot) :
    (s.withCtx ok change).cache = s.cache := by
  obtain ⟨cache, shm, metrics, ctx⟩ := s
  cases ctx with
  | some ctx => rfl
  | none => cases ok <;> rfl

@[simp] theorem withCtx_shm (ok : Bool) (change : RequestCtx → RequestCtx) (s : Pilot) :
    (s.withCtx ok change).shm = s.shm := by
  obtain ⟨cache, shm, metrics, ctx⟩ := s
  cases ctx with
  | some ctx => rfl
  | none => cases ok <;> rfl

@[simp] theorem setResponsePath_cache (pool : PurgePool) (p : PurgePath) (s : Pilot) :
    (s.setResponsePath pool p).cache = s.cache := withCtx_cache _ _ s

@[simp] theorem setResponsePath_shm (pool : PurgePool) (p : PurgePath) (s : Pilot) :
    (s.setResponsePath pool p).shm = s.shm := withCtx_shm _ _ s

@[simp] theorem setDeclineReason_cache (pool : PurgePool) (reason : DeclineReason) (s : Pilot) :
    (s.setDeclineReason pool reason).cache = s.cache := withCtx_cache _ _ s

@[simp] theorem setDeclineReason_shm (pool : PurgePool) (reason : DeclineReason) (s : Pilot) :
    (s.setDeclineReason pool reason).shm = s.shm := withCtx_shm _ _ s

@[simp] theorem recordPurgeRequest_cache (type : PurgeStats) (soft : Bool) (s : Pilot) :
    (s.recordPurgeRequest type soft).cache = s.cache := rfl

@[simp] theorem recordPurgeRequest_shm (type : PurgeStats) (soft : Bool) (s : Pilot) :
    (s.recordPurgeRequest type soft).shm = s.shm := rfl

@[simp] theorem recordPurge_cache (pool : PurgePool) (type : PurgeStats) (soft : Bool) (count : Nat)
    (s : Pilot) : (s.recordPurge pool type soft count).cache = s.cache := by
  unfold recordPurge
  split
  · rfl
  · exact withCtx_cache _ _ _

@[simp] theorem recordPurge_shm (pool : PurgePool) (type : PurgeStats) (soft : Bool) (count : Nat)
    (s : Pilot) : (s.recordPurge pool type soft count).shm = s.shm := by
  unfold recordPurge
  split
  · rfl
  · exact withCtx_shm _ _ _

@[simp] theorem recordKeyIndexExactFanout_cache (s : Pilot) :
    s.recordKeyIndexExactFanout.cache = s.cache := rfl

@[simp] theorem recordKeyIndexWildcardHit_cache (s : Pilot) :
    s.recordKeyIndexWildcardHit.cache = s.cache := rfl

/-- A reason is kept when the request has a context or can make one. -/
theorem declineReason_set (pool : PurgePool) (reason : DeclineReason) (s : Pilot)
    (h : reason ≠ .unset) :
    (s.setDeclineReason pool reason).declineReason = reason ↔
      s.ctx.isSome = true ∨ pool.ctx = true := by
  obtain ⟨cache, shm, metrics, ctx⟩ := s
  cases ctx with
  | some ctx => simp [setDeclineReason, withCtx, declineReason]
  | none =>
    cases hp : pool.ctx with
    | true => simp [setDeclineReason, withCtx, declineReason, hp]
    | false => simp [setDeclineReason, withCtx, declineReason, hp, Ne.symm h]

end Pilot

/-! ## The index -/

/-- `ngx_http_cache_index_flush_pending`. -/
def flushPending : NgxRc := .ok

/-- `ngx_http_cache_pilot_key_index_ready`: the name of the zone to query, if the
index can be used. Whether its bootstrap is complete is not asked. -/
def keyIndexReady (access : IndexAccess) (pool : PurgePool) (s : Pilot) : Option Bytes × Pilot :=
  if !access.configured then (none, s.setDeclineReason pool .indexNotConfigured)
  else if flushPending ≠ .ok then (none, s.setDeclineReason pool .flushPendingFailed)
  else
    match access.zone with
    | none => (none, s.setDeclineReason pool .zoneNotRegistered)
    | some zoneName =>
      if access.reader || access.writer then (some zoneName, s)
      else (none, s.setDeclineReason pool .readerUnavailable)

/-- The zone that `key_index_ready` finds. -/
def IndexAccess.ready (access : IndexAccess) : Option Bytes :=
  if access.configured && (access.reader || access.writer) then access.zone else none

/-- `ngx_http_cache_pilot_delete_index_path`; a failure is only logged. -/
def deleteIndexPath (N : Nginx) (now : Int) (zoneName path : Bytes) (s : Pilot) : Pilot :=
  { s with shm := (deleteFile N now zoneName path s.shm).2 }

/-- `ngx_http_cache_pilot_by_path` in a request. -/
def purgeByPath (L : HeaderLayout) (calls : FileCalls) (soft : Bool) (path : Bytes) (s : Pilot) :
    NgxRc × Pilot :=
  let r := byPath L calls soft path s.cache
  (r.1, { s with cache := r.2 })

/-- `ngx_http_cache_pilot_by_indexed_path`. -/
def byIndexedPath (N : Nginx) (L : HeaderLayout) (calls : FileCalls) (now : Int) (zoneName : Bytes)
    (soft : Bool) (path : Bytes) (s : Pilot) : NgxRc × Pilot :=
  let r := purgeByPath L calls soft path s
  if !soft && (r.1 == .ok || r.1 == .declined) then (r.1, deleteIndexPath N now zoneName path r.2)
  else r

/-- Besides the index, `by_path` is all there is to it. -/
theorem byIndexedPath_byPath (N : Nginx) (L : HeaderLayout) (calls : FileCalls) (now : Int)
    (zoneName : Bytes) (soft : Bool) (path : Bytes) (s : Pilot) :
    ((byIndexedPath N L calls now zoneName soft path s).1,
      (byIndexedPath N L calls now zoneName soft path s).2.cache) =
        byPath L calls soft path s.cache := by
  unfold byIndexedPath
  simp only
  split
  · rfl
  · rfl

/-- The loop over the paths that the index gives, from path number `k`, with the
files purged so far: a missing file is passed over, any other failure ends the
loop. -/
def purgePaths (one : Nat → Bytes → Pilot → NgxRc × Pilot) :
    Nat → List Bytes → Nat → Pilot → NgxRc × Nat × Pilot
  | _, [], count, s => (.ok, count, s)
  | k, path :: paths, count, s =>
    match one k path s with
    | (.ok, s) => purgePaths one (k + 1) paths (count + 1) s
    | (.declined, s) => purgePaths one (k + 1) paths count s
    | (_, s) => (.error, count, s)

/-- The loop ends behind its last path or in an error. -/
theorem purgePaths_rc (one : Nat → Bytes → Pilot → NgxRc × Pilot) (k : Nat) (paths : List Bytes)
    (count : Nat) (s : Pilot) :
    (purgePaths one k paths count s).1 = .ok ∨ (purgePaths one k paths count s).1 = .error := by
  induction paths generalizing k count s with
  | nil => exact Or.inl rfl
  | cons path paths ih =>
    unfold purgePaths
    split
    · exact ih (k + 1) (count + 1) _
    · exact ih (k + 1) count _
    · exact Or.inr rfl

theorem keyIndexReady_eq (access : IndexAccess) (pool : PurgePool) (s : Pilot) :
    (keyIndexReady access pool s).1 = access.ready ∧
      (keyIndexReady access pool s).2.cache = s.cache ∧
      (keyIndexReady access pool s).2.shm = s.shm := by
  unfold keyIndexReady IndexAccess.ready
  cases access.configured with
  | false => simp
  | true =>
    cases access.zone with
    | none => simp [flushPending]
    | some zoneName => cases access.reader <;> cases access.writer <;> simp [flushPending]

/-! ## What the index gives -/

variable {N : Nginx} {shm : Shm}

/-- An index zone as the calls of the store leave it, over paths that are C
strings. -/
structure IndexOk (N : Nginx) (shm : Shm) : Prop where
  ok : ShmOk N shm
  tight : AllTight shm .key
  paths : ∀ z, ∀ r ∈ recordsOf shm z, NulFree r.path

theorem runStore_indexOk (N : Nginx) {ops : List StoreOp} (hops : ∀ op ∈ ops, op.NulFree) :
    IndexOk N (runStore N ops) where
  ok := (runStore_ok N ops).1
  tight := (runStore_ok N ops).2
  paths z r hr := (runStore_nulFree N hops z r hr).1

namespace IndexOk

theorem of_changes {shm' : Shm} {zoneName : Bytes} {rs : List Record} (h : IndexOk N shm)
    (hc : Changes N shm shm' zoneName rs) (ht : AllTight shm' .key)
    (hrs : ∀ r ∈ rs, NulFree r.path) : IndexOk N shm' where
  ok := hc.ok
  tight := ht
  paths z r hr := by
    cases hz : sameZoneName zoneName z with
    | true =>
      rw [hc.own z hz] at hr
      exact hrs r hr
    | false =>
      rw [hc.other z (by rw [hz]; decide)] at hr
      exact h.paths z r hr

theorem upsert {alloc : AllocSite → Bool} {now : Int} {zoneName path key : Bytes} {mtime size : Int}
    {tags : List Bytes} (h : IndexOk N shm) (hp : NulFree path) :
    IndexOk N (upsertFileMeta N alloc now zoneName path key mtime size tags shm).2 := by
  obtain ⟨-, hc, htk, -⟩ := upsertFileMeta_spec h.ok alloc now zoneName path key mtime size tags
  refine h.of_changes hc (htk h.tight) fun r hr => ?_
  unfold upserted at hr
  split at hr
  · rcases List.mem_append.mp hr with hr | hr
    · exact h.paths zoneName r (mem_otherRecords.mp hr).1
    · rw [List.mem_singleton.mp hr]
      exact hp
  · exact h.paths zoneName r (mem_otherRecords.mp hr).1

theorem delete {now : Int} {zoneName path : Bytes} (h : IndexOk N shm) :
    IndexOk N (deleteFile N now zoneName path shm).2 := by
  obtain ⟨-, hc, htk⟩ := deleteFile_spec h.ok now zoneName path
  exact h.of_changes hc (htk .key h.tight) fun r hr => h.paths zoneName r (mem_otherRecords.mp hr).1

theorem setZoneState {ok : Bool} {now : Int} {zoneName : Bytes} {state : ZoneState}
    (h : IndexOk N shm) : IndexOk N (setZoneState ok now zoneName state shm).2 := by
  obtain ⟨hc, htk⟩ := setZoneState_spec h.ok ok now zoneName state
  exact h.of_changes hc (htk .key h.tight) fun r hr => h.paths zoneName r hr

/-- The paths of the records that a query selects can all be collected. -/
theorem pushPaths_selected (h : IndexOk N shm) (pool : PoolSite → Bool) (z : Bytes)
    (sel : Record → Bool) :
    let paths := ((recordsOf shm z).filter sel).map Record.path
    pushPaths pool [] paths =
      if ∀ i, i < paths.length → pool (.push i) = true then some paths else none := by
  intro paths
  have hn : paths.Nodup := (h.ok.recordsOf_paths z).sublist (List.filter_sublist.map Record.path)
  have hnul : ∀ p ∈ paths, NulFree p := by
    intro p hp
    obtain ⟨r, hr, rfl⟩ := List.mem_map.mp hp
    exact h.paths z r (List.mem_filter.mp hr).1
  have hpush : pushPaths pool [] paths =
      if ∀ i, i < paths.length → pool (.push (([] : List Bytes).length + i)) = true then
        some ([] ++ paths)
      else none := pushPaths_nodup hn hnul
  simpa only [List.length_nil, Nat.zero_add, List.nil_append] using hpush

/-- The exact query gives the paths of the key, if the request pool can hold them. -/
theorem collectExact (h : IndexOk N shm) (pool : PoolSite → Bool) (z key : Bytes) :
    collectPathsByExactKey N pool shm z key =
      if pool .array = true ∧
          ∀ i, i < (keyedPaths (recordsOf shm z) key).length → pool (.push i) = true then
        some (keyedPaths (recordsOf shm z) key)
      else none := by
  have hpush : pushPaths pool [] (keyedPaths (recordsOf shm z) key) =
      if ∀ i, i < (keyedPaths (recordsOf shm z) key).length → pool (.push i) = true then
        some (keyedPaths (recordsOf shm z) key)
      else none := by
    cases key with
    | nil => exact (if_pos fun i hi => absurd hi (Nat.not_lt_zero i)).symm
    | cons c key => exact h.pushPaths_selected pool z _
  rw [collectPathsByExactKey_eq h.ok h.tight]
  unfold exactQuery
  rw [hpush]
  cases pool .array with
  | false => simp
  | true => simp

/-- A query by tags that gives its paths leaves out no record with one of them. -/
theorem mem_collectTags (h : IndexOk N shm) {pool : PoolSite → Bool} {z p : Bytes}
    {tags paths : List Bytes} (hc : collectPathsByTags N pool shm z tags = some paths) :
    p ∈ paths ↔ ∃ t ∈ tags, ∃ r ∈ recordsOf shm z, t ∈ r.tags ∧ r.path = p := by
  rw [collectPathsByTags_eq h.ok] at hc
  rw [tagQuery_some (h.paths z) hc, mem_pushAll, List.mem_flatMap]
  simp only [List.not_mem_nil, false_or, mem_taggedPaths]

/-- The prefix query gives the paths whose keys pass its filter. -/
theorem collectPrefix_success (h : IndexOk N shm) (z pre : Bytes) :
    collectPathsByKeyPrefix (fun _ => true) shm z pre = some (prefixedPaths (recordsOf shm z) pre) := by
  rw [collectPathsByKeyPrefix_eq]
  unfold prefixQuery
  rw [if_pos rfl]
  exact (h.pushPaths_selected (fun _ => true) z _).trans (if_pos fun _ _ => rfl)

end IndexOk

/-! ## What the loop leaves -/

variable {L : HeaderLayout} {files files' files'' : Files L} {soft : Bool}

/-- The files at `paths` are purged, the others are as they were, and a file that
is left is the one that was there. -/
structure Purges (soft : Bool) (paths : List Bytes) (files files' : Files L) : Prop where
  other : ∀ p, p ∉ paths → files' p = files p
  own : ∀ p ∈ paths, ∀ f, files' p = some f → soft = true ∧ f.Expired
  kept : ∀ p f', files' p = some f' →
    ∃ f, files p = some f ∧ f'.key = f.key ∧ (f.Expired → f'.Expired)

namespace Purges

theorem nil (soft : Bool) (files : Files L) : Purges soft [] files files where
  other _ _ := rfl
  own _ hp := absurd hp List.not_mem_nil
  kept _ f' h := ⟨f', h, rfl, id⟩

theorem single (soft : Bool) (path : Bytes) (files : Files L) :
    Purges soft [path] files (files.purge soft path) where
  other p hp := Files.purge_other files fun h => hp (h ▸ List.mem_singleton_self p)
  own p hp f h := by
    rw [List.mem_singleton.mp hp] at h
    exact Files.purge_self h
  kept p f' h := by
    cases hp : decide (p = path) with
    | true =>
      obtain rfl := of_decide_eq_true hp
      obtain ⟨rfl, he⟩ := Files.purge_self h
      unfold Files.purge at h
      rw [Function.update_self, if_pos rfl] at h
      obtain ⟨f, hf, rfl⟩ := Option.map_eq_some_iff.mp h
      exact ⟨f, hf, rfl, fun _ => he⟩
    | false =>
      rw [Files.purge_other files (of_decide_eq_false hp)] at h
      exact ⟨f', h, rfl, id⟩

theorem append {paths paths' : List Bytes} (h : Purges soft paths files files')
    (h' : Purges soft paths' files' files'') : Purges soft (paths ++ paths') files files'' where
  other p hp := by
    obtain ⟨h1, h2⟩ := not_or.mp (mt List.mem_append.mpr hp)
    rw [h'.other p h2, h.other p h1]
  own p hp f hf := by
    cases hp' : decide (p ∈ paths') with
    | true => exact h'.own p (of_decide_eq_true hp') f hf
    | false =>
      rcases List.mem_append.mp hp with hp | hp
      · rw [h'.other p (of_decide_eq_false hp')] at hf
        exact h.own p hp f hf
      · exact absurd hp (of_decide_eq_false hp')
  kept p f'' hf := by
    obtain ⟨f', hf', hk', he'⟩ := h'.kept p f'' hf
    obtain ⟨f, hf, hk, he⟩ := h.kept p f' hf'
    exact ⟨f, hf, hk'.trans hk, fun h0 => he' (he h0)⟩

theorem cons {path : Bytes} {paths : List Bytes} (h : Purges soft paths (files.purge soft path) files') :
    Purges soft (path :: paths) files files' := (single soft path files).append h

end Purges

/-- The result of a loop over `paths`: the purge of all of them, or an error. -/
inductive PurgePathsResult (calls : Nat → FileCalls) (soft : Bool) (paths : List Bytes)
    (files : Files L) (count : Nat) : NgxRc × Nat × Pilot → Prop
  | purged {count' : Nat} {s' : Pilot} {files' : Files L} : s'.cache.disk = files'.disk →
    Purges soft paths files files' → count ≤ count' →
    ((∀ k, calls k = .works) → (count < count' ↔ ∃ p ∈ paths, (files p).isSome)) →
    PurgePathsResult calls soft paths files count (.ok, count', s')
  | failed {count' : Nat} {s' : Pilot} : (∃ k, calls k ≠ .works) →
    PurgePathsResult calls soft paths files count (.error, count', s')

/-- The loop, from what one turn does to the files. -/
theorem purgePaths_spec {calls : Nat → FileCalls} {one : Nat → Bytes → Pilot → NgxRc × Pilot}
    (hone : ∀ k path s (files : Files L), s.cache.disk = files.disk →
      ByPath (calls k) soft path files ((one k path s).1, (one k path s).2.cache))
    {s : Pilot} (h : s.cache.disk = files.disk) (k : Nat) (paths : List Bytes) (count : Nat) :
    PurgePathsResult calls soft paths files count (purgePaths one k paths count s) := by
  induction paths generalizing k count s files with
  | nil => exact .purged h (.nil soft files) (Nat.le_refl count) fun _ => by simp
  | cons path paths ih =>
    have hstep := hone k path s files h
    unfold purgePaths
    generalize one k path s = r at hstep
    obtain ⟨rc, s1⟩ := r
    cases hstep with
    | purged hsome hd =>
      have hrest := ih hd (k + 1) (count + 1)
      simp only
      cases hr : purgePaths one (k + 1) paths (count + 1) s1 with | mk rc' r' =>
      rw [hr] at hrest
      cases hrest with
      | purged hd' hp hle hcount =>
        refine .purged hd' hp.cons (Nat.le_of_succ_le hle) fun _ => ?_
        exact ⟨fun _ => ⟨path, List.mem_cons_self, hsome⟩, fun _ => hle⟩
      | failed hf => exact .failed hf
    | missing hnone hd =>
      have hrest := ih hd (k + 1) count
      simp only
      cases hr : purgePaths one (k + 1) paths count s1 with | mk rc' r' =>
      rw [hr] at hrest
      cases hrest with
      | purged hd' hp hle hcount =>
        have hsame : files.purge soft path = files := Files.purge_of_none hnone
        refine .purged hd' (Purges.cons (hsame.symm ▸ hp)) hle fun hw => ?_
        rw [hcount hw]
        simp [hnone]
      | failed hf => exact .failed hf
    | vanished hw hs hd =>
      have hrest := ih hd (k + 1) count
      simp only
      cases hr : purgePaths one (k + 1) paths count s1 with | mk rc' r' =>
      rw [hr] at hrest
      cases hrest with
      | purged hd' hp hle hcount =>
        exact .purged hd' hp.cons hle fun hall => absurd (hall k) hw
      | failed hf => exact .failed hf
    | failed hw hd => exact .failed ⟨k, hw⟩

variable (soft) in
theorem purgeByPath_spec {s : Pilot} (h : s.cache.disk = files.disk) (calls : FileCalls)
    (path : Bytes) : ByPath calls soft path files
      ((purgeByPath L calls soft path s).1, (purgeByPath L calls soft path s).2.cache) :=
  byPath_spec h calls soft path

theorem byIndexedPath_spec {s : Pilot} (h : s.cache.disk = files.disk) (N : Nginx)
    (calls : FileCalls) (now : Int) (zoneName path : Bytes) : ByPath calls soft path files
      ((byIndexedPath N L calls now zoneName soft path s).1,
        (byIndexedPath N L calls now zoneName soft path s).2.cache) := by
  have hp := purgeByPath_spec soft h calls path
  unfold byIndexedPath
  simp only
  split
  · exact hp
  · exact hp

/-! ## What an index says about the files -/

/-- Every file on disk is indexed under its key. -/
def Complete (files : Files L) (rs : List Record) : Prop :=
  ∀ p f, files p = some f → ∃ rec ∈ rs, rec.path = p ∧ rec.key = f.key

/-- The entries of the files on disk have their keys; other entries may be stale. -/
def Sound (files : Files L) (rs : List Record) : Prop :=
  ∀ rec ∈ rs, ∀ f, files rec.path = some f → rec.key = f.key

/-! ## A sample cache -/

/-- The header of a file that is valid for a second and has a key of one byte. -/
def sampleHeader : Bytes :=
  [5, 0, 0, 0, 0, 0, 0, 0] ++ [1, 0, 0, 0, 0, 0, 0, 0] ++ List.replicate 38 0 ++ [88, 1] ++
    List.replicate 280 0

/-- A file of the key `k`. -/
def sampleFile (response : Bytes) : CacheFile .reference where
  header := sampleHeader
  key := [107]
  response := response
  length_header := by decide +kernel
  version_header := by decide +kernel
  headerStart_header := by decide +kernel

/-- Two variants, at the paths `a` and `b`. -/
def variantFiles : Files .reference := fun p =>
  if p = [97] then some (sampleFile [97]) else if p = [98] then some (sampleFile [98]) else none

def variantCalls : List StoreOp :=
  [.upsert (fun _ => true) 1 [122] [97] [107] 1 1 [],
   .upsert (fun _ => true) 2 [122] [98] [107] 1 1 []]

/-- A cache with these two files and the index that they have; the node of `a` is
number 0. -/
def variantState : Pilot where
  cache := ⟨variantFiles.disk, .nil, fun _ => ⟨true, false, 1, 1, 0⟩, 2⟩
  shm := runStore .reference variantCalls
  metrics := none
  ctx := none

def sampleAccess : IndexAccess := ⟨true, some [122], true, true⟩

/-- A purge of the key `k` for which nothing fails. -/
def samplePurge (soft : Bool) : PurgeRequest where
  keys := [[107]]
  soft := soft
  now := 3
  pool := .full
  resolved := .works
  calls := fun _ => .works

theorem samplePurge_works (soft : Bool) : (samplePurge soft).FilesWork := ⟨rfl, fun _ => rfl⟩

theorem variantFiles_complete : Complete variantFiles (recordsOf variantState.shm [122]) := by
  have hrecords : recordsOf variantState.shm [122] = [⟨[97], [107], []⟩, ⟨[98], [107], []⟩] := by
    decide +kernel
  intro p f hf
  rw [hrecords]
  unfold variantFiles at hf
  split at hf
  · next hp =>
    rw [hp, ← Option.some.inj hf]
    exact ⟨_, List.mem_cons_self, rfl, rfl⟩
  · split at hf
    · next hp =>
      rw [hp, ← Option.some.inj hf]
      exact ⟨_, List.mem_cons_of_mem _ List.mem_cons_self, rfl, rfl⟩
    · exact nomatch hf

end CachePilot
