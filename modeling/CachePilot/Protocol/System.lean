import CachePilot.Lib.Interleave
import CachePilot.Purge.Tags

/-!
# The workers of one cache zone

Requests, purges and bootstrap scans on any number of workers, cut where the code
lets others in: a request captures its tags in the header filter, nginx commits
the file, and the log handler updates the index; a purge collects its paths,
purges one file at a time, and drops the entry in a call of its own; a scan reads
a file and updates the index afterwards. Every index call is one turn, as it runs
under the zone's mutex.

`Turn` lists what a turn can do, `Shared.Ok` is the invariant of the shared
state, and `PathStep` says what a turn means for one path.
-/

namespace CachePilot
open NgxString Interleave

/-! ## State -/

/-- What the workers of a zone share by configuration: the name of the zone and
its tag headers. -/
structure ZoneConf where
  N : Nginx
  zoneName : Bytes
  headers : List Bytes

/-- The name of a cache file, a C string. -/
abbrev FileName := { path : Bytes // NulFree path }

/-- A version of a file: the number of its commit, and the tags that were captured
for it. -/
structure Version where
  id : Nat
  tags : List Bytes
deriving DecidableEq

/-- An index call on a path: the tags that it left there, if any, and whether they
were those of the version on disk when it ran. -/
structure IndexCall where
  tags : Option (List Bytes)
  agreed : Bool
deriving DecidableEq

/-- The cache and the index zone, the number of commits so far, the version of
each file on disk, and the last index call on each path. The last one is history:
no process reads it. -/
structure Shared where
  cache : FileCache
  shm : Shm
  committed : Nat
  stored : Bytes → Option Version
  last : Bytes → Option IndexCall

/-- How a purge selects its paths. -/
inductive Query
  | tags (tags : List Bytes)
  | key (keyText : Bytes)
  | keyPrefix (pre : Bytes)

/-- A purge under way. `start` and `seen` are history: the number of commits when
it started, and the tags that the index had for each path when it collected its
paths. -/
structure Job where
  query : Query
  soft : Bool
  start : Nat
  seen : Bytes → Option (List Bytes)

/-- Where a worker stands with one request, purge or scan. The paths that a purge
has left are `none` before it collects them; `failed` is an answer 500 or a scan
that was given up, and keeps nothing to do. -/
inductive Proc
  | idle
  | storing (path : FileName) (key : Bytes) (tags : List Bytes)
  | logging (path : FileName) (key : Bytes) (tags : List Bytes)
  | purging (job : Job) (todo : Option (List Bytes))
  | dropping (job : Job) (path : Bytes) (todo : Option (List Bytes))
  | answered (job : Job)
  | scanning (todo : List FileName)
  | parsed (path : FileName) (result : Except NgxRc ParsedFile) (todo : List FileName)
  | marked
  | failed

namespace Proc

/-- Whether a request, a purge or a scan is in progress. -/
def inProgress : Proc → Bool
  | .idle | .answered _ | .marked | .failed => false
  | _ => true

/-- The log handler has yet to run for a file at the path. -/
def Logs (p : Bytes) : Proc → Prop
  | .logging path _ _ => path.1 = p
  | _ => False

/-- The scan has yet to visit the path, or will never do so. -/
def Visits (p : Bytes) : Proc → Prop
  | .scanning todo => ∃ path ∈ todo, path.1 = p
  | .parsed path _ todo => path.1 = p ∨ ∃ path ∈ todo, path.1 = p
  | .failed => True
  | _ => False

/-- The purge that has collected its paths, and what is left of them. -/
def pending : Proc → Option (Job × List Bytes)
  | .purging job (some todo) => some (job, todo)
  | .dropping job _ (some todo) => some (job, todo)
  | .answered job => some (job, [])
  | _ => none

/-- The purge that the process works on. -/
def job : Proc → Option Job
  | .purging job _ => some job
  | .dropping job _ _ => some job
  | .answered job => some job
  | _ => none

end Proc

namespace Shared

variable (cfg : ZoneConf) (s : Shared)

/-- The tags that the index has for a path. -/
def entryTags (p : Bytes) : Option (List Bytes) := (toMap s.shm cfg.zoneName p).map Prod.snd

/-- Whether the tags of an index call on the path are those of the version on disk;
without a file there is nothing to disagree with. -/
def agrees (path : Bytes) (tags : Option (List Bytes)) : Bool :=
  match s.stored path with
  | none => true
  | some v => tags == some v.tags

def record (path : Bytes) (tags : Option (List Bytes)) : Shared :=
  { s with last := Function.update s.last path (some ⟨tags, s.agrees path tags⟩) }

/-- A call of `upsert_file_meta`. -/
def upsert (alloc : AllocSite → Bool) (now : Int) (path key : Bytes) (mtime size : Int)
    (tags : List Bytes) : NgxRc × Shared :=
  let r := upsertFileMeta cfg.N alloc now cfg.zoneName path key mtime size tags s.shm
  (r.1, { s with shm := r.2 }.record path (if r.1 = NgxRc.ok then some tags else none))

/-- A call of `delete_file`. -/
def delete (now : Int) (path : Bytes) : Shared :=
  { s with shm := (deleteFile cfg.N now cfg.zoneName path s.shm).2 }.record path none

/-- nginx moves a file into the cache; `nodes` is what it makes of the shared
nodes. -/
def commit {L : HeaderLayout} (path : Bytes) (tags : List Bytes) (file : CacheFile L)
    (nodes : FileCache) : Shared :=
  { s with
    cache := { nodes with disk := Function.update s.cache.disk path (some file.bytes) }
    committed := s.committed + 1
    stored := Function.update s.stored path (some ⟨s.committed, tags⟩) }

/-- The cache after work on one file. -/
def withCache (path : Bytes) (cache : FileCache) : Shared :=
  { s with
    cache := cache
    stored := Function.update s.stored path
      (if (cache.disk path).isSome then s.stored path else none) }

/-- The part of `process_file` that reads the file. -/
def parse (pool : ParsePool) (calls : FileCalls) (mtime : Int) (path : Bytes) :
    Except NgxRc ParsedFile :=
  let info := if calls.info then (s.cache.disk path).map fun data => ⟨mtime, data.length⟩ else none
  let read := if calls.opens && calls.reads then s.cache.disk path else none
  if cfg.headers = [] then (parseFile pool path info read none).map fun p => { p with tags := [] }
  else parseFile pool path info read (some cfg.headers)

end Shared

namespace Query

/-- The paths of the query. Only a tag purge fails when it gets none for want of
memory; the others go on without. -/
def collect (cfg : ZoneConf) (pool : PoolSite → Bool) (shm : Shm) : Query → Option (List Bytes)
  | .tags wanted => collectPathsByTags cfg.N pool shm cfg.zoneName wanted
  | .key keyText => some ((collectPathsByExactKey cfg.N pool shm cfg.zoneName keyText).getD [])
  | .keyPrefix pre => some ((collectPathsByKeyPrefix pool shm cfg.zoneName pre).getD [])

/-- Whether the entry of a path goes with the file: the loop of `index_purge` keeps
it only for a file that it expired, `by_indexed_path` in every soft purge. -/
def drops (soft : Bool) (rc : NgxRc) : Query → Bool
  | .tags _ => !(rc == .ok && soft) && (rc == .ok || rc == .declined)
  | _ => !soft && (rc == .ok || rc == .declined)

end Query

/-- A purge that starts now. -/
def Job.new (s : Shared) (query : Query) (soft : Bool) : Job :=
  ⟨query, soft, s.committed, fun _ => none⟩

/-! ## Turns -/

/-- What a worker does in one turn, with what it gets from outside. -/
inductive Act (L : HeaderLayout)
  /-- The header filter stashes the tags of a response. -/
  | capture (path : FileName) (key : Bytes) (tags : List Bytes)
  /-- nginx commits the cache file. -/
  | commit (file : CacheFile L) (nodes : FileCache)
  /-- The response is not stored after all. -/
  | skip
  /-- A response is served from a file that is on disk. -/
  | serve (path : FileName) (key : Bytes)
  /-- The log handler upserts the entry. -/
  | log (alloc : AllocSite → Bool) (now : Int)
  /-- nginx, or a purge that walks the directory, removes a file. -/
  | evict (path : Bytes) (nodes : FileCache)
  | tagPurge (now : Int) (soft : Bool) (tags : List Bytes)
  /-- A hard purge of a key deletes the file that it opened; without memory for the
  key text it ends there. -/
  | exactPurge (calls : FileCalls) (o : OpenedCache) (keyText : Option Bytes)
  | wildcardPurge (soft : Bool) (pre : Bytes)
  | collect (pool : PoolSite → Bool)
  /-- A purge turns to its next path. -/
  | purge (calls : FileCalls)
  /-- A purge drops the entry of the path that it has purged. -/
  | drop (now : Int)
  | answer
  | scan (paths : List FileName)
  /-- A scan reads its next file. -/
  | parse (createPool : Bool) (pool : ParsePool) (calls : FileCalls) (mtime : Int)
  /-- A scan indexes the file that it has read, or drops its entry. -/
  | apply (alloc : AllocSite → Bool) (now : Int)
  /-- A scan that is through marks the zone. -/
  | complete (ok : Bool) (now : Int)

variable {L : HeaderLayout}

/-- One turn of one worker. -/
def turn (cfg : ZoneConf) : Proc → Act L → Shared → Option (Proc × Shared)
  | .idle, .capture path key tags, s => some (.storing path key tags, s)
  | .storing path key tags, .commit file nodes, s =>
    some (.logging path key tags, s.commit path tags file nodes)
  | .storing path key tags, .skip, s => some (.logging path key tags, s)
  | .idle, .serve path key, s => (s.stored path).map fun v => (.logging path key v.tags, s)
  | .logging path key tags, .log alloc now, s =>
    some (.idle, (s.upsert cfg alloc now path key now 0 tags).2)
  | .idle, .evict path nodes, s =>
    some (.idle, s.withCache path { nodes with disk := Function.update s.cache.disk path none })
  | .idle, .tagPurge now soft tags, s =>
    if (getZoneState now s.shm cfg.zoneName).bootstrapComplete then
      some (.purging (.new s (.tags tags) soft) none, s)
    else some (.idle, s)
  | .idle, .exactPurge calls o keyText, s =>
    match deleteOpenedFile calls o s.cache, keyText with
    | (.declined, _), _ => some (.idle, s)
    | (_, cache), none => some (.idle, s.withCache o.name cache)
    | (_, cache), some keyText =>
      some (.dropping (.new s (.key keyText) false) o.name none, s.withCache o.name cache)
  | .idle, .wildcardPurge soft pre, s => some (.purging (.new s (.keyPrefix pre) soft) none, s)
  | .purging job none, .collect pool, s =>
    match job.query.collect cfg pool s.shm with
    | none => some (.failed, s)
    | some paths => some (.purging { job with seen := s.entryTags cfg } (some paths), s)
  | .purging job (some (path :: todo)), .purge calls, s =>
    let r := byPath L calls job.soft path s.cache
    let s := s.withCache path r.2
    if r.1 ≠ .ok ∧ r.1 ≠ .declined then some (.failed, s)
    else if job.query.drops job.soft r.1 then some (.dropping job path (some todo), s)
    else some (.purging job (some todo), s)
  | .dropping job path todo, .drop now, s => some (.purging job todo, s.delete cfg now path)
  | .purging job (some []), .answer, s => some (.answered job, s)
  | .idle, .scan paths, s => some (.scanning paths, s)
  | .scanning (path :: todo), .parse createPool pool calls mtime, s =>
    if createPool then some (.parsed path (s.parse cfg pool calls mtime path) todo, s)
    else some (.failed, s)
  | .parsed path (.error _) todo, .apply _ now, s => some (.scanning todo, s.delete cfg now path)
  | .parsed path (.ok p) todo, .apply alloc now, s =>
    let r := s.upsert cfg alloc now path p.key p.mtime p.size p.tags
    some (if r.1 = .error then .failed else .scanning todo, r.2)
  | .scanning [], .complete ok now, s =>
    let r := setZoneState ok now cfg.zoneName ⟨true, now, now⟩ s.shm
    some (if r.1 = .ok then .marked else .failed, { s with shm := r.2 })
  | _, _, _ => none

/-! ## What a turn can do -/

/-- The outcomes of a turn, by where the process stood and stands, and what it did
to the shared state. -/
inductive Turn (L : HeaderLayout) (cfg : ZoneConf) (s : Shared) : Proc → Proc → Shared → Prop
  | capture {path key tags} : Turn L cfg s .idle (.storing path key tags) s
  | commit {path key tags} (file : CacheFile L) (nodes : FileCache) :
    Turn L cfg s (.storing path key tags) (.logging path key tags) (s.commit path tags file nodes)
  | skip {path key tags} : Turn L cfg s (.storing path key tags) (.logging path key tags) s
  | serve {path : FileName} {key v} : s.stored path = some v →
    Turn L cfg s .idle (.logging path key v.tags) s
  | log {path : FileName} {key tags} (alloc : AllocSite → Bool) (now : Int) :
    Turn L cfg s (.logging path key tags) .idle (s.upsert cfg alloc now path key now 0 tags).2
  | removed {path cache} :
    cache.disk = s.cache.disk ∨ cache.disk = Function.update s.cache.disk path none →
    Turn L cfg s .idle .idle (s.withCache path cache)
  | declined : Turn L cfg s .idle .idle s
  | started {query soft} : Turn L cfg s .idle (.purging (.new s query soft) none) s
  | opened {query soft path cache} :
    cache.disk = s.cache.disk ∨ cache.disk = Function.update s.cache.disk path none →
    Turn L cfg s .idle (.dropping (.new s query soft) path none) (s.withCache path cache)
  | collected {job paths} (pool : PoolSite → Bool) : job.query.collect cfg pool s.shm = some paths →
    Turn L cfg s (.purging job none) (.purging { job with seen := s.entryTags cfg } (some paths)) s
  | collectFailed {job} : Turn L cfg s (.purging job none) .failed s
  | purged {job path todo proc} (calls : FileCalls) :
    (byPath L calls job.soft path s.cache).1 = .ok ∨
      (byPath L calls job.soft path s.cache).1 = .declined →
    proc = .purging job (some todo) ∨ proc = .dropping job path (some todo) →
    Turn L cfg s (.purging job (some (path :: todo))) proc
      (s.withCache path (byPath L calls job.soft path s.cache).2)
  | purgeFailed {job path todo} (calls : FileCalls) :
    Turn L cfg s (.purging job (some (path :: todo))) .failed
      (s.withCache path (byPath L calls job.soft path s.cache).2)
  | dropped {job path todo} (now : Int) :
    Turn L cfg s (.dropping job path todo) (.purging job todo) (s.delete cfg now path)
  | answered {job} : Turn L cfg s (.purging job (some [])) (.answered job) s
  | scan {paths} : Turn L cfg s .idle (.scanning paths) s
  | parsed {path todo} (result : Except NgxRc ParsedFile) :
    Turn L cfg s (.scanning (path :: todo)) (.parsed path result todo) s
  | scanFailed {todo} : Turn L cfg s (.scanning todo) .failed s
  | forgotten {path : FileName} {rc todo} (now : Int) :
    Turn L cfg s (.parsed path (.error rc) todo) (.scanning todo) (s.delete cfg now path)
  | indexed {path : FileName} {p todo proc} (alloc : AllocSite → Bool) (now : Int) :
    proc = .failed ∨ proc = .scanning todo →
    Turn L cfg s (.parsed path (.ok p) todo) proc
      (s.upsert cfg alloc now path p.key p.mtime p.size p.tags).2
  | marked {proc} (ok : Bool) (now : Int) : proc = .marked ∨ proc = .failed →
    Turn L cfg s (.scanning []) proc
      { s with shm := (setZoneState ok now cfg.zoneName ⟨true, now, now⟩ s.shm).2 }

theorem deleteOpenedFile_disk (calls : FileCalls) (o : OpenedCache) (c : FileCache) :
    (deleteOpenedFile calls o c).2.disk = c.disk ∨
      (deleteOpenedFile calls o c).2.disk = Function.update c.disk o.name none := by
  unfold deleteOpenedFile
  split
  · exact Or.inl rfl
  · simp only
    split
    · exact Or.inr rfl
    · exact Or.inl rfl

/-- A turn has one of these outcomes. -/
theorem turn_cases {cfg : ZoneConf} {proc proc' : Proc} {act : Act L} {s s' : Shared}
    (h : turn cfg proc act s = some (proc', s')) : Turn L cfg s proc proc' s' := by
  unfold turn at h
  split at h
  case h_1 => cases h; exact .capture
  case h_2 => cases h; exact .commit _ _
  case h_3 => cases h; exact .skip
  case h_4 path key =>
    obtain ⟨v, hv, he⟩ := Option.map_eq_some_iff.mp h
    cases he
    exact .serve hv
  case h_5 => cases h; exact .log _ _
  case h_6 => cases h; exact .removed (Or.inr rfl)
  case h_7 =>
    split at h
    · cases h; exact .started
    · cases h; exact .declined
  case h_8 calls o keyText =>
    have hd := deleteOpenedFile_disk calls o s.cache
    cases hr : deleteOpenedFile calls o s.cache with | mk rc cache =>
    rw [hr] at h hd
    cases hrc : decide (rc = .declined) with
    | true =>
      rw [of_decide_eq_true hrc] at h
      cases h
      exact .declined
    | false =>
      have hne := of_decide_eq_false hrc
      cases keyText with
      | none =>
        have h' : some (Proc.idle, s.withCache o.name cache) = some (proc', s') := by
          cases rc <;> first | exact h | exact absurd rfl hne
        cases h'
        exact .removed hd
      | some keyText =>
        have h' : some (Proc.dropping (.new s (.key keyText) false) o.name none,
            s.withCache o.name cache) = some (proc', s') := by
          cases rc <;> first | exact h | exact absurd rfl hne
        cases h'
        exact .opened hd
  case h_9 => cases h; exact .started
  case h_10 =>
    split at h
    · cases h; exact .collectFailed
    · next hc => cases h; exact .collected _ hc
  case h_11 calls =>
    simp only at h
    split at h
    · cases h; exact .purgeFailed calls
    · next hrc =>
      have hrc' := (not_and_or.mp hrc).imp not_not.mp not_not.mp
      split at h
      · cases h; exact .purged calls hrc' (Or.inr rfl)
      · cases h; exact .purged calls hrc' (Or.inl rfl)
  case h_12 => cases h; exact .dropped _
  case h_13 => cases h; exact .answered
  case h_14 => cases h; exact .scan
  case h_15 =>
    split at h
    · cases h; exact .parsed _
    · cases h; exact .scanFailed
  case h_16 => cases h; exact .forgotten _
  case h_17 =>
    cases h
    refine .indexed _ _ ?_
    split
    · exact Or.inl rfl
    · exact Or.inr rfl
  case h_18 =>
    cases h
    refine .marked _ _ ?_
    split
    · exact Or.inl rfl
    · exact Or.inr rfl
  case h_19 => exact nomatch h

end CachePilot
