import CachePilot.Purge.Request

/-!
# Exact-key purges

`ngx_http_cache_pilot_exact_purge` and its soft counterpart, and the handler that
answers the request. What `ngx_http_file_cache_open` makes of the request is an
argument. The purge fans out over the index only behind a file that it opened and
purged itself.

Results:
* `exact_purge_reaches_key_iff`: when a purge that is answered 200 leaves no file
  of its key;
* `exact_purge_misses_variants`: one that leaves both variants of a resource whose
  primary file is gone.
-/

namespace CachePilot
open NgxString

/-! ## The requests -/

/-- The file that `ngx_http_file_cache_open` resolved a request to: its name, its
node, and the update lock that the request took. -/
structure OpenedCache where
  name : Bytes
  node : Addr
  updating : Bool
  lockTime : Int

/-- What `ngx_http_file_cache_open` returns; `opened` is `NGX_OK`,
`NGX_HTTP_CACHE_STALE` or `NGX_HTTP_CACHE_UPDATING`. -/
inductive CacheOpen
  | opened (o : OpenedCache)
  | declined
  | again
  | error

/-- `ngx_http_cache_pilot_delete_opened_file`; a failed unlink is only logged. -/
def deleteOpenedFile (calls : FileCalls) (o : OpenedCache) (c : FileCache) : NgxRc × FileCache :=
  if !(c.node o.node).present then (.declined, c)
  else
    let c := markNodeDeleted c o.node
    if calls.deletes then (.ok, c.setFile o.name none) else (.ok, c)

/-- `ngx_http_cache_pilot_release_updating`. -/
def releaseUpdating (o : OpenedCache) (s : Pilot) : Pilot :=
  let node := s.cache.node o.node
  if o.updating && node.updating && node.lockTime == o.lockTime then
    { s with cache := s.cache.setNode o.node { node with updating := false } }
  else s

/-- `ngx_http_cache_pilot_cache_key_text`. -/
def cacheKeyText (pool : PurgePool) (keys : List Bytes) : Option Bytes :=
  if keys = [] then none else if pool.keyText then some (cacheKey keys) else none

/-- The fanout of an exact purge. Whatever keeps it from its list of paths is
passed over in silence. -/
def exactFanout (N : Nginx) (L : HeaderLayout) (access : IndexAccess) (r : PurgeRequest)
    (soft : Bool) (o : OpenedCache) (s : Pilot) : NgxRc × Nat × Pilot :=
  match keyIndexReady access r.pool s with
  | (none, s) => (.ok, 0, s)
  | (some zoneName, s) =>
    match cacheKeyText r.pool r.keys with
    | none => (.ok, 0, s)
    | some keyText =>
      -- only the hard purge drops the entry of the file that it opened
      let s := if soft then s else deleteIndexPath N r.now zoneName o.name s
      match collectPathsByExactKey N r.pool.collect s.shm zoneName keyText with
      | none => (.ok, 0, s)
      | some paths =>
        if soft then purgePaths (fun k => purgeByPath L (r.calls k) true) 0 paths 0 s
        else purgePaths (fun k => byIndexedPath N L (r.calls k) r.now zoneName false) 0 paths 0 s

/-- The end of an exact purge that purged `fanned` files behind the opened one. -/
def recordExactPurge (pool : PurgePool) (soft : Bool) (fanned : Nat) (s : Pilot) : Pilot :=
  let s :=
    if 0 < fanned then (s.setResponsePath pool .exactKeyFanout).recordKeyIndexExactFanout else s
  s.recordPurge pool .exact soft (fanned + 1)

/-- `ngx_http_cache_pilot_exact_purge`. -/
def exactPurge (N : Nginx) (L : HeaderLayout) (access : IndexAccess) (opened : CacheOpen)
    (r : PurgeRequest) (s : Pilot) : NgxRc × Pilot :=
  match opened with
  | .declined => (.declined, s.setDeclineReason r.pool .notFound)
  | .again => (.again, s)
  | .error => (.error, s)
  | .opened o =>
    match deleteOpenedFile r.resolved o s.cache with
    | (.declined, cache) =>
      (.declined, Pilot.setDeclineReason r.pool .notFound { s with cache := cache })
    | (_, cache) =>
      let s := Pilot.recordPurgeRequest .exact false { s with cache := cache }
      match exactFanout N L access r false o s with
      | (.error, _, s) => (.error, releaseUpdating o s)
      | (_, fanned, s) => (.ok, releaseUpdating o (recordExactPurge r.pool false fanned s))

/-- `ngx_http_cache_pilot_exact_purge_soft`. -/
def exactPurgeSoft (N : Nginx) (L : HeaderLayout) (access : IndexAccess) (opened : CacheOpen)
    (r : PurgeRequest) (s : Pilot) : NgxRc × Pilot :=
  match opened with
  | .declined => (.declined, s.setDeclineReason r.pool .notFound)
  | .again => (.again, s)
  | .error => (.error, s)
  | .opened o =>
    if !(s.cache.node o.node).present then (.declined, s.setDeclineReason r.pool .notFound)
    else
      match softHeader L r.resolved o.name s.cache with
      | (.declined, cache) =>
        (.declined, Pilot.setDeclineReason r.pool .notFound { s with cache := cache })
      | (.ok, cache) =>
        let s := { s with cache := cache.setNode o.node { cache.node o.node with validSec := 0 } }
        match exactFanout N L access r true o s with
        | (.error, _, s) => (.error, releaseUpdating o s)
        | (_, fanned, s) =>
          (.ok, releaseUpdating o (recordExactPurge r.pool true fanned (s.recordPurgeRequest .exact true)))
      | (rc, cache) => (rc, { s with cache := cache })

/-- `ngx_http_cache_pilot_is_partial`: the first key part ends with an asterisk. -/
def isPartial (keys : List Bytes) : Bool :=
  match keys with
  | [] => false
  | key :: _ => key.getLast? == some 42

/-- How a request is answered; `again` is no answer yet. -/
inductive Answer
  | ok
  | preconditionFailed
  | internalServerError
  | again
deriving DecidableEq, Repr

/-- `ngx_http_cache_pilot_send_response`. -/
def sendResponse (pool : PurgePool) : Answer := if pool.response then .ok else .internalServerError

/-- `ngx_http_cache_pilot_handler`. Tag purges, and purges of all files or by
prefix, have run when it is called. -/
def handler (N : Nginx) (L : HeaderLayout) (access : IndexAccess) (opened : CacheOpen)
    (tagged purgeAll : Bool) (r : PurgeRequest) (s : Pilot) : Answer × Pilot :=
  let result :=
    if tagged then (.ok, s)
    else if !purgeAll && !isPartial r.keys then
      if r.soft then exactPurgeSoft N L access opened r s else exactPurge N L access opened r s
    else (.ok, s)
  match result with
  | (.ok, s) => (sendResponse r.pool, s)
  | (.declined, s) =>
    if s.declineReason = .notFound then (sendResponse r.pool, s.recordPurgeRequest .exact r.soft)
    else (.preconditionFailed, s)
  | (.again, s) => (.again, s)
  | (_, s) => (.internalServerError, s)

/-! ## What a purge leaves -/

variable {N : Nginx} {L : HeaderLayout} {access : IndexAccess} {r : PurgeRequest} {s : Pilot}
  {zoneName : Bytes} {files : Files L} {soft : Bool} {o : OpenedCache}

/-- The entries that the fanout queries. -/
def fanoutRecords (soft : Bool) (o : OpenedCache) (rs : List Record) : List Record :=
  if soft then rs else otherRecords rs o.name

/-- The fanout gets its list: the key is indexed, which the empty key is not, and
the request pool holds the key text and the paths. -/
structure FanoutRuns (r : PurgeRequest) (soft : Bool) (o : OpenedCache) (rs : List Record) : Prop where
  key : cacheKey r.keys ≠ []
  keyText : r.pool.keyText = true
  array : r.pool.collect .array = true
  push : ∀ i, i < (keyedPaths (fanoutRecords soft o rs) (cacheKey r.keys)).length →
    r.pool.collect (.push i) = true

/-- The state that the query of a fanout reads: a hard one has deleted the entry of the
opened file. -/
def fanoutStart (N : Nginx) (r : PurgeRequest) (soft : Bool) (o : OpenedCache) (zoneName : Bytes)
    (s : Pilot) : Pilot :=
  if soft then s else deleteIndexPath N r.now zoneName o.name s

/-- The list of a fanout, with the zone that gives it, and the state behind the query. -/
def fanoutList (N : Nginx) (access : IndexAccess) (r : PurgeRequest) (soft : Bool) (o : OpenedCache)
    (s : Pilot) : Option (Bytes × List Bytes) × Pilot :=
  match keyIndexReady access r.pool s with
  | (none, s) => (none, s)
  | (some zoneName, s) =>
    match cacheKeyText r.pool r.keys with
    | none => (none, s)
    | some keyText =>
      let s := fanoutStart N r soft o zoneName s
      match collectPathsByExactKey N r.pool.collect s.shm zoneName keyText with
      | none => (none, s)
      | some paths => (some (zoneName, paths), s)

/-- One turn of its loop. -/
def fanoutTurn (N : Nginx) (L : HeaderLayout) (r : PurgeRequest) (soft : Bool) (zoneName : Bytes) :
    Nat → Bytes → Pilot → NgxRc × Pilot :=
  if soft then fun k => purgeByPath L (r.calls k) true
  else fun k => byIndexedPath N L (r.calls k) r.now zoneName false

variable (N L access r s) in
theorem exactFanout_eq (soft : Bool) (o : OpenedCache) : exactFanout N L access r soft o s =
    match fanoutList N access r soft o s with
    | (none, s) => (.ok, 0, s)
    | (some list, s) => purgePaths (fanoutTurn N L r soft list.1) 0 list.2 0 s := by
  unfold exactFanout fanoutList fanoutStart
  cases keyIndexReady access r.pool s with | mk z s1 =>
  cases z with
  | none => rfl
  | some zoneName =>
    simp only
    cases cacheKeyText r.pool r.keys with
    | none => rfl
    | some keyText =>
      simp only
      split
      · rfl
      · cases soft with
        | true => rfl
        | false => rfl

/-- What the query of a fanout comes to: nothing is asked, or the index gives its list. -/
inductive FanoutQuery (N : Nginx) (access : IndexAccess) (r : PurgeRequest) (soft : Bool)
    (o : OpenedCache) (s : Pilot) : Option (Bytes × List Bytes) × Pilot → Prop
  | skipped {s1 : Pilot} (h : access.ready = none ∨ cacheKeyText r.pool r.keys = none)
    (hstart : s1 = (keyIndexReady access r.pool s).2) : FanoutQuery N access r soft o s (none, s1)
  | queried {zoneName keyText : Bytes} {s1 : Pilot} (hready : access.ready = some zoneName)
    (hkey : cacheKeyText r.pool r.keys = some keyText)
    (hstart : s1 = fanoutStart N r soft o zoneName (keyIndexReady access r.pool s).2) :
    FanoutQuery N access r soft o s
      ((collectPathsByExactKey N r.pool.collect s1.shm zoneName keyText).map (zoneName, ·), s1)

variable (N access r s) in
theorem fanoutList_query (soft : Bool) (o : OpenedCache) :
    FanoutQuery N access r soft o s (fanoutList N access r soft o s) := by
  obtain ⟨hz, -, -⟩ := keyIndexReady_eq access r.pool s
  unfold fanoutList
  cases hr : keyIndexReady access r.pool s with | mk z s1 =>
  rw [hr] at hz
  have hs1 : s1 = (keyIndexReady access r.pool s).2 := by rw [hr]
  cases z with
  | none => exact .skipped (Or.inl hz.symm) hs1
  | some zoneName =>
    simp only
    cases hkey : cacheKeyText r.pool r.keys with
    | none => exact .skipped (Or.inr hkey) hs1
    | some keyText =>
      have hquery : FanoutQuery N access r soft o s ((collectPathsByExactKey N r.pool.collect
            (fanoutStart N r soft o zoneName s1).shm zoneName keyText).map (zoneName, ·),
          fanoutStart N r soft o zoneName s1) := .queried hz.symm hkey (by rw [hs1])
      simp only
      split
      · next hnone => rwa [hnone] at hquery
      · next hsome => rwa [hsome] at hquery

theorem fanoutTurn_spec {s : Pilot} {files : Files L} (h : s.cache.disk = files.disk) (N : Nginx)
    (r : PurgeRequest) (soft : Bool) (zoneName : Bytes) (k : Nat) (path : Bytes) :
    ByPath (r.calls k) soft path files ((fanoutTurn N L r soft zoneName k path s).1,
      (fanoutTurn N L r soft zoneName k path s).2.cache) := by
  cases soft with
  | true => exact purgeByPath_spec true h (r.calls k) path
  | false => exact byIndexedPath_spec h N (r.calls k) r.now zoneName path

/-- Apart from the index, a query starts from what the readiness leaves. -/
theorem fanoutStart_cache (N : Nginx) (r : PurgeRequest) (soft : Bool) (o : OpenedCache)
    (zoneName : Bytes) (s : Pilot) : (fanoutStart N r soft o zoneName s).cache = s.cache := by
  cases soft with
  | true => rfl
  | false => rfl

/-- The index that a query asks: the opened file's entry is gone behind a hard purge. -/
theorem fanoutStart_index (hindex : IndexOk N s.shm) (r : PurgeRequest) (soft : Bool) (o : OpenedCache)
    (zoneName : Bytes) : IndexOk N (fanoutStart N r soft o zoneName s).shm ∧
      recordsOf (fanoutStart N r soft o zoneName s).shm zoneName =
        fanoutRecords soft o (recordsOf s.shm zoneName) := by
  cases soft with
  | true => exact ⟨hindex, rfl⟩
  | false =>
    refine ⟨hindex.delete, ?_⟩
    exact (deleteFile_spec hindex.ok r.now zoneName o.name).2.1.own zoneName (sameZoneName_refl zoneName)

variable (N access r s) in
theorem fanoutList_cache (soft : Bool) (o : OpenedCache) :
    (fanoutList N access r soft o s).2.cache = s.cache := by
  obtain ⟨-, hcache, -⟩ := keyIndexReady_eq access r.pool s
  have hquery := fanoutList_query N access r s soft o
  generalize fanoutList N access r soft o s = result at hquery
  cases hquery with
  | skipped _ hstart =>
    rw [hstart]
    exact hcache
  | queried _ _ hstart =>
    rw [hstart]
    exact (fanoutStart_cache ..).trans hcache

/-- A list is one of the ready zone, for a key. -/
theorem fanoutList_some {soft : Bool} {o : OpenedCache} {list : Bytes × List Bytes}
    (h : (fanoutList N access r soft o s).1 = some list) :
    access.ready = some list.1 ∧ r.keys ≠ [] := by
  have hquery := fanoutList_query N access r s soft o
  generalize fanoutList N access r soft o s = result at hquery h
  cases hquery with
  | skipped _ _ => exact nomatch h
  | queried hready hkey _ =>
    obtain ⟨paths, -, rfl⟩ := Option.map_eq_some_iff.mp h
    refine ⟨hready, fun hnil => ?_⟩
    rw [hnil] at hkey
    exact nomatch hkey

/-- The list of a fanout that gets one are the paths of its key; the empty key has none. -/
theorem fanoutList_spec (hready : access.ready = some zoneName) (hindex : IndexOk N s.shm)
    (hkeys : r.keys ≠ []) (soft : Bool) (o : OpenedCache) :
    (FanoutRuns r soft o (recordsOf s.shm zoneName) → (fanoutList N access r soft o s).1 = some
        (zoneName, keyedPaths (fanoutRecords soft o (recordsOf s.shm zoneName)) (cacheKey r.keys))) ∧
      (¬ FanoutRuns r soft o (recordsOf s.shm zoneName) →
        ∀ list, (fanoutList N access r soft o s).1 = some list → list.2 = []) := by
  obtain ⟨-, -, hshm⟩ := keyIndexReady_eq access r.pool s
  have htext : cacheKeyText r.pool r.keys = if r.pool.keyText then some (cacheKey r.keys) else none :=
    if_neg hkeys
  have hquery := fanoutList_query N access r s soft o
  generalize fanoutList N access r soft o s = result at hquery
  cases hquery with
  | skipped h _ =>
    refine ⟨fun hruns => ?_, fun _ _ h => nomatch h⟩
    rw [hready, htext, if_pos hruns.keyText] at h
    rcases h with h | h
    · exact nomatch h
    · exact nomatch h
  | @queried zoneName' keyText s1 hready' hkey hstart =>
    obtain rfl : zoneName = zoneName' := Option.some.inj (hready.symm.trans hready')
    obtain ⟨hkt, rfl⟩ : r.pool.keyText = true ∧ cacheKey r.keys = keyText := by
      rw [htext] at hkey
      split at hkey
      · next h => exact ⟨h, Option.some.inj hkey⟩
      · exact nomatch hkey
    obtain ⟨hi1, hrs⟩ := fanoutStart_index (hshm.symm ▸ hindex) r soft o zoneName
    rw [← hstart] at hi1 hrs
    rw [hshm] at hrs
    rw [hi1.collectExact, hrs]
    by_cases hfits : r.pool.collect .array = true ∧
        ∀ i, i < (keyedPaths (fanoutRecords soft o (recordsOf s.shm zoneName)) (cacheKey r.keys)).length →
          r.pool.collect (.push i) = true
    · rw [if_pos hfits]
      refine ⟨fun _ => rfl, fun hno list hlist => ?_⟩
      obtain rfl := Option.some.inj hlist
      have hempty : cacheKey r.keys = [] := by
        by_contra hk
        exact hno ⟨hk, hkt, hfits.1, hfits.2⟩
      show keyedPaths _ (cacheKey r.keys) = []
      rw [hempty]
      rfl
    · rw [if_neg hfits]
      exact ⟨fun h => absurd ⟨h.array, h.push⟩ hfits, fun _ _ h => nomatch h⟩

theorem exactFanout_spec (hready : access.ready = some zoneName) (hindex : IndexOk N s.shm)
    (hdisk : s.cache.disk = files.disk) (hkeys : r.keys ≠ []) (hworks : r.FilesWork) (soft : Bool)
    (o : OpenedCache) :
    ∃ fanned s' files', exactFanout N L access r soft o s = (.ok, fanned, s') ∧
      s'.cache.disk = files'.disk ∧
      (FanoutRuns r soft o (recordsOf s.shm zoneName) → Purges soft
        (keyedPaths (fanoutRecords soft o (recordsOf s.shm zoneName)) (cacheKey r.keys)) files files') ∧
      (¬ FanoutRuns r soft o (recordsOf s.shm zoneName) → files' = files) := by
  obtain ⟨hruns, hempty⟩ := fanoutList_spec hready hindex hkeys soft o
  have hcache := fanoutList_cache N access r s soft o
  rw [exactFanout_eq]
  generalize fanoutList N access r soft o s = result at hruns hempty hcache
  obtain ⟨list, s1⟩ := result
  have hd1 : s1.cache.disk = files.disk := by rw [← hdisk, ← hcache]
  cases list with
  | none => exact ⟨0, s1, files, rfl, hd1, fun h => (nomatch hruns h), fun _ => rfl⟩
  | some list =>
    have hres : PurgePathsResult r.calls soft list.2 files 0
        (purgePaths (fanoutTurn N L r soft list.1) 0 list.2 0 s1) :=
      purgePaths_spec (fun k path s files hd => fanoutTurn_spec hd N r soft list.1 k path) hd1 0 list.2 0
    simp only
    generalize purgePaths (fanoutTurn N L r soft list.1) 0 list.2 0 s1 = result at hres
    cases hres with
    | @purged fanned s' files' hd hpur _ _ =>
      refine ⟨fanned, s', files', rfl, hd, fun h => ?_, fun hno => funext fun p => ?_⟩
      · obtain rfl := Option.some.inj (hruns h)
        exact hpur
      · exact hpur.other p (by rw [hempty hno list rfl]; exact List.not_mem_nil)
    | failed hf => exact absurd (hworks.calls _) hf.choose_spec

theorem deleteOpenedFile_gone {c : FileCache} (h : (c.node o.node).present = false) (calls : FileCalls) :
    deleteOpenedFile calls o c = (.declined, c) := by
  unfold deleteOpenedFile
  rw [h]
  rfl

/-- Unlinking an opened file whose node is there only logs its failure. -/
theorem deleteOpenedFile_present {c : FileCache} (h : (c.node o.node).present = true) (calls : FileCalls) :
    ∃ cache, deleteOpenedFile calls o c = (.ok, cache) ∧
      (calls.deletes = true → cache = (markNodeDeleted c o.node).setFile o.name none) := by
  unfold deleteOpenedFile
  rw [h, Bool.not_true, if_neg Bool.false_ne_true]
  simp only
  split
  · exact ⟨_, rfl, fun _ => rfl⟩
  · next hno => exact ⟨_, rfl, fun hdeletes => absurd hdeletes hno⟩

@[simp] theorem releaseUpdating_disk (o : OpenedCache) (s : Pilot) :
    (releaseUpdating o s).cache.disk = s.cache.disk := by
  unfold releaseUpdating
  simp only
  split
  · rfl
  · rfl

@[simp] theorem recordExactPurge_cache (pool : PurgePool) (soft : Bool) (fanned : Nat) (s : Pilot) :
    (recordExactPurge pool soft fanned s).cache = s.cache := by
  unfold recordExactPurge
  simp only [Pilot.recordPurge_cache]
  split
  · simp
  · rfl

/-- The file that the purge purges first: it was opened, nobody has deleted it
since, and a soft purge finds it on disk. -/
def Reaches (opened : CacheOpen) (soft : Bool) (s : Pilot) (files : Files L) (o : OpenedCache) :
    Prop :=
  opened = .opened o ∧ (s.cache.node o.node).present = true ∧
    (soft = true → (files o.name).isSome = true)

/-- The purge of the opened file and of what the fanout finds behind it. -/
structure ExactPurges (r : PurgeRequest) (soft : Bool) (o : OpenedCache) (rs : List Record)
    (files files' : Files L) : Prop where
  runs : FanoutRuns r soft o rs →
    Purges soft (o.name :: keyedPaths (fanoutRecords soft o rs) (cacheKey r.keys)) files files'
  alone : ¬ FanoutRuns r soft o rs → files' = files.purge soft o.name

theorem exactPurge_spec (hready : access.ready = some zoneName) (hindex : IndexOk N s.shm)
    (hdisk : s.cache.disk = files.disk) (hkeys : r.keys ≠ []) (hworks : r.FilesWork)
    {opened : CacheOpen} (hreach : Reaches opened false s files o) :
    ∃ s' files', exactPurge N L access opened r s = (.ok, s') ∧ s'.cache.disk = files'.disk ∧
      ExactPurges r false o (recordsOf s.shm zoneName) files files' := by
  obtain ⟨rfl, hpresent, -⟩ := hreach
  have hcalls : r.resolved.deletes = true := by rw [hworks.resolved]; rfl
  obtain ⟨_, hopened, hcache⟩ := deleteOpenedFile_present hpresent r.resolved
  obtain rfl := hcache hcalls
  unfold exactPurge
  simp only [hopened]
  have hd : ((markNodeDeleted s.cache o.node).setFile o.name none).disk =
      (files.purge false o.name).disk := by
    rw [FileCache.setFile_disk, markNodeDeleted_disk, hdisk, Files.purge, Files.disk_update]
    rfl
  obtain ⟨fanned, s', files', he, hd', hruns, halone⟩ := exactFanout_spec (L := L)
    (s := Pilot.recordPurgeRequest .exact false
      { s with cache := (markNodeDeleted s.cache o.node).setFile o.name none })
    hready hindex hd hkeys hworks false o
  rw [he]
  refine ⟨_, files', rfl, ?_, fun h => (hruns h).cons, fun h => halone h⟩
  rw [releaseUpdating_disk, recordExactPurge_cache, hd']

theorem exactPurgeSoft_spec (hready : access.ready = some zoneName) (hindex : IndexOk N s.shm)
    (hdisk : s.cache.disk = files.disk) (hkeys : r.keys ≠ []) (hworks : r.FilesWork)
    {opened : CacheOpen} (hreach : Reaches opened true s files o) :
    ∃ s' files', exactPurgeSoft N L access opened r s = (.ok, s') ∧ s'.cache.disk = files'.disk ∧
      ExactPurges r true o (recordsOf s.shm zoneName) files files' := by
  obtain ⟨rfl, hpresent, hsome⟩ := hreach
  unfold exactPurgeSoft
  simp only [hpresent, Bool.not_true, Bool.false_eq_true, if_false]
  have hspec := softHeader_spec (L := L) hdisk r.resolved o.name
  generalize softHeader L r.resolved o.name s.cache = result at hspec
  cases hspec with
  | @purged cache hfound hd =>
    simp only
    obtain ⟨fanned, s', files', he, hd', hruns, halone⟩ := exactFanout_spec (L := L)
      (s := { s with cache := cache.setNode o.node { cache.node o.node with validSec := 0 } })
      hready hindex hd hkeys hworks true o
    rw [he]
    refine ⟨_, files', rfl, ?_, fun h => (hruns h).cons, fun h => halone h⟩
    rw [releaseUpdating_disk, recordExactPurge_cache, Pilot.recordPurgeRequest_cache, hd']
  | missing hnone _ =>
    have h0 := hsome rfl
    rw [hnone] at h0
    exact nomatch h0
  | vanished hw _ _ => exact absurd hworks.resolved hw
  | failed hw _ => exact absurd hworks.resolved hw

/-! ## The answer -/

/-- Whether every file of the key `key` is purged. -/
def KeyPurged (soft : Bool) (key : Bytes) (disk : Disk) (L : HeaderLayout) : Prop :=
  ∀ p (f : CacheFile L), disk p = some f.bytes → f.key = key → soft = true ∧ f.Expired

theorem keyPurged_disk {key : Bytes} : KeyPurged soft key files.disk L ↔
    ∀ p f, files p = some f → f.key = key → soft = true ∧ f.Expired := by
  unfold KeyPurged
  constructor
  · intro h p f hf
    exact h p f (Files.disk_eq_some.mpr hf)
  · intro h p f hf
    exact h p f (Files.disk_eq_some.mp hf)

/-- When the exact purge of a key leaves no file of it. The purge works through
the file that it opens. Behind it the fanout has to run; a purge that is answered
without a file to start from reaches nothing. -/
def ReachesKey (r : PurgeRequest) (opened : CacheOpen) (s : Pilot) (rs : List Record)
    (files : Files L) : Prop :=
  r.pool.response = true →
    match opened with
    | .again => True
    | .error => True
    | .declined =>
      (s.ctx.isSome = true ∨ r.pool.ctx = true) →
        ∀ p f, files p = some f → f.key = cacheKey r.keys → r.soft = true ∧ f.Expired
    | .opened o =>
      if (s.cache.node o.node).present = true ∧ (r.soft = true → (files o.name).isSome = true) then
        FanoutRuns r r.soft o rs ∨
          ∀ p ≠ o.name, ∀ f, files p = some f → f.key = cacheKey r.keys → r.soft = true ∧ f.Expired
      else
        (s.ctx.isSome = true ∨ r.pool.ctx = true) →
          ∀ p f, files p = some f → f.key = cacheKey r.keys → r.soft = true ∧ f.Expired

/-- The exact purge of the request's mode. -/
def exactPurgeOf (N : Nginx) (L : HeaderLayout) (access : IndexAccess) (opened : CacheOpen)
    (r : PurgeRequest) (s : Pilot) : NgxRc × Pilot :=
  if r.soft then exactPurgeSoft N L access opened r s else exactPurge N L access opened r s

theorem exactPurgeOf_reached (hready : access.ready = some zoneName) (hindex : IndexOk N s.shm)
    (hdisk : s.cache.disk = files.disk) (hkeys : r.keys ≠ []) (hworks : r.FilesWork)
    {opened : CacheOpen} (hreach : Reaches opened r.soft s files o) :
    ∃ s' files', exactPurgeOf N L access opened r s = (.ok, s') ∧ s'.cache.disk = files'.disk ∧
      ExactPurges r r.soft o (recordsOf s.shm zoneName) files files' := by
  unfold exactPurgeOf
  cases hs : r.soft with
  | true => exact exactPurgeSoft_spec hready hindex hdisk hkeys hworks (hs ▸ hreach)
  | false => exact exactPurge_spec hready hindex hdisk hkeys hworks (hs ▸ hreach)

variable (N access) in
/-- Without a file to start from, nothing is purged. -/
theorem exactPurgeOf_missed (hdisk : s.cache.disk = files.disk) (hworks : r.FilesWork)
    (hmiss : ¬ ((s.cache.node o.node).present = true ∧
      (r.soft = true → (files o.name).isSome = true))) :
    ∃ cache, exactPurgeOf N L access (.opened o) r s =
        (.declined, Pilot.setDeclineReason r.pool .notFound { s with cache := cache }) ∧
      cache.disk = files.disk := by
  unfold exactPurgeOf
  cases hp : (s.cache.node o.node).present with
  | false =>
    refine ⟨s.cache, ?_, hdisk⟩
    cases r.soft with
    | true => simp [exactPurgeSoft, hp]
    | false => simp [exactPurge, deleteOpenedFile_gone hp]
  | true =>
    cases hs : r.soft with
    | false => exact absurd ⟨hp, fun h => nomatch hs.symm.trans h⟩ hmiss
    | true =>
      have hnone : files o.name = none := by
        cases hf : files o.name with
        | none => rfl
        | some f => exact absurd ⟨hp, fun _ => by rw [hf]; rfl⟩ hmiss
      have hspec := softHeader_spec (L := L) hdisk r.resolved o.name
      rw [if_pos rfl]
      unfold exactPurgeSoft
      simp only [hp, Bool.not_true, Bool.false_eq_true, if_false]
      generalize softHeader L r.resolved o.name s.cache = result at hspec
      cases hspec with
      | purged hfound _ =>
        rw [hnone] at hfound
        exact nomatch hfound
      | @missing cache _ hd => exact ⟨cache, rfl, hd⟩
      | vanished hw _ _ => exact absurd hworks.resolved hw
      | failed hw _ => exact absurd hworks.resolved hw

/-- The answer to an exact purge. -/
theorem handler_exact (hexact : isPartial r.keys = false) (opened : CacheOpen) :
    handler N L access opened false false r s =
      match exactPurgeOf N L access opened r s with
      | (.ok, s) => (sendResponse r.pool, s)
      | (.declined, s) =>
        if s.declineReason = .notFound then
          (sendResponse r.pool, s.recordPurgeRequest .exact r.soft)
        else (.preconditionFailed, s)
      | (.again, s) => (.again, s)
      | (_, s) => (.internalServerError, s) := by
  unfold handler exactPurgeOf
  simp only [hexact, Bool.not_false, Bool.and_self, if_true, Bool.false_eq_true, if_false]

theorem sendResponse_ok {pool : PurgePool} : sendResponse pool = .ok ↔ pool.response = true := by
  unfold sendResponse
  cases pool.response with
  | true => simp
  | false => simp

/-- A purge that found nothing is answered 200 when it can say why. -/
theorem missed_iff {pool : PurgePool} {s' : Pilot} {key : Bytes} (hctx : s'.ctx = s.ctx)
    (hd : s'.cache.disk = files.disk) :
    let s1 := s'.setDeclineReason pool .notFound
    let result : Answer × Pilot :=
      if s1.declineReason = .notFound then (sendResponse pool, s1.recordPurgeRequest .exact soft)
      else (.preconditionFailed, s1)
    (result.1 = .ok → KeyPurged soft key result.2.cache.disk L) ↔
      (pool.response = true → (s.ctx.isSome = true ∨ pool.ctx = true) →
        ∀ p f, files p = some f → f.key = key → soft = true ∧ f.Expired) := by
  intro s1 result
  have hreason := Pilot.declineReason_set pool .notFound s' (by decide)
  rw [hctx] at hreason
  have hdisk : s1.cache.disk = files.disk := by rw [Pilot.setDeclineReason_cache, hd]
  by_cases h : s1.declineReason = .notFound
  · have hr : result = (sendResponse pool, s1.recordPurgeRequest .exact soft) := if_pos h
    rw [hr]
    simp only [sendResponse_ok, Pilot.recordPurgeRequest_cache, hdisk, keyPurged_disk]
    exact forall_congr' fun _ => ⟨fun h1 _ => h1, fun h1 => h1 (hreason.mp h)⟩
  · have hr : result = (.preconditionFailed, s1) := if_neg h
    rw [hr]
    constructor
    · intro _ _ hc
      exact absurd (hreason.mpr hc) h
    · intro _ h0
      exact nomatch h0

/-- What is purged when the file was opened: everything of the key, if the fanout
runs or has nothing to add. -/
theorem ExactPurges.keyPurged_iff {rs : List Record} {files' : Files L}
    (h : ExactPurges r soft o rs files files') (hcomplete : Complete files rs) :
    (∀ p f, files' p = some f → f.key = cacheKey r.keys → soft = true ∧ f.Expired) ↔
      FanoutRuns r soft o rs ∨
        ∀ p ≠ o.name, ∀ f, files p = some f → f.key = cacheKey r.keys → soft = true ∧ f.Expired := by
  constructor
  · intro hall
    by_cases hruns : FanoutRuns r soft o rs
    · exact Or.inl hruns
    · refine Or.inr fun p hp f hf hk => hall p f ?_ hk
      rw [h.alone hruns, Files.purge_other files hp]
      exact hf
  · rintro hor p f hf hk
    by_cases hruns : FanoutRuns r soft o rs
    · have hpur := h.runs hruns
      obtain ⟨g, hg, hkg, -⟩ := hpur.kept p f hf
      obtain ⟨rec, hrec, rfl, hkr⟩ := hcomplete p g hg
      refine hpur.own rec.path ?_ f hf
      -- the entry of the file is listed under its key, unless the file was opened itself
      cases hp : decide (rec.path = o.name) with
      | true =>
        rw [of_decide_eq_true hp]
        exact List.mem_cons_self
      | false =>
        refine List.mem_cons_of_mem _ ?_
        have hin : rec ∈ fanoutRecords soft o rs := by
          unfold fanoutRecords
          cases soft with
          | true => exact hrec
          | false => exact mem_otherRecords.mpr ⟨hrec, of_decide_eq_false hp⟩
        unfold keyedPaths
        rw [if_neg hruns.key]
        refine List.mem_map.mpr ⟨rec, List.mem_filter.mpr ⟨hin, ?_⟩, rfl⟩
        rw [decide_eq_true_eq, hkr, ← hkg, hk]
    · rw [h.alone hruns] at hf
      cases hp : decide (p = o.name) with
      | true =>
        rw [of_decide_eq_true hp] at hf
        exact Files.purge_self hf
      | false =>
        have hne := of_decide_eq_false hp
        rw [Files.purge_other files hne] at hf
        exact hor.resolve_left hruns p hne f hf hk

/-- An exact purge that is answered 200 leaves no file of its key exactly when it
reaches the key: it opened a file and the fanout ran, or no other file was left. -/
theorem exact_purge_reaches_key_iff (N : Nginx) (L : HeaderLayout) (access : IndexAccess)
    (zoneName : Bytes) (opened : CacheOpen) (r : PurgeRequest) (s : Pilot) (files : Files L)
    (hready : access.ready = some zoneName) (hindex : IndexOk N s.shm)
    (hdisk : s.cache.disk = files.disk) (hcomplete : Complete files (recordsOf s.shm zoneName))
    (hkeys : r.keys ≠ []) (hexact : isPartial r.keys = false) (hworks : r.FilesWork) :
    let result := handler N L access opened false false r s
    (result.1 = .ok → KeyPurged r.soft (cacheKey r.keys) result.2.cache.disk L) ↔
      ReachesKey r opened s (recordsOf s.shm zoneName) files := by
  intro result
  have hresult : result = handler N L access opened false false r s := rfl
  rw [handler_exact hexact] at hresult
  unfold ReachesKey
  cases opened with
  | again =>
    have hrc : exactPurgeOf N L access .again r s = (.again, s) := ite_self _
    rw [hrc] at hresult
    rw [hresult]
    simp
  | error =>
    have hrc : exactPurgeOf N L access .error r s = (.error, s) := ite_self _
    rw [hrc] at hresult
    rw [hresult]
    simp
  | declined =>
    have hrc : exactPurgeOf N L access .declined r s =
        (.declined, s.setDeclineReason r.pool .notFound) := ite_self _
    rw [hrc] at hresult
    rw [hresult]
    exact missed_iff rfl hdisk
  | opened o =>
    simp only
    by_cases hreach : (s.cache.node o.node).present = true ∧
        (r.soft = true → (files o.name).isSome = true)
    · obtain ⟨s', files', hrc, hd, hpur⟩ :=
        exactPurgeOf_reached (L := L) hready hindex hdisk hkeys hworks ⟨rfl, hreach⟩
      rw [hrc] at hresult
      rw [hresult, if_pos hreach]
      simp only [sendResponse_ok, hd, keyPurged_disk]
      exact forall_congr' fun _ => hpur.keyPurged_iff hcomplete
    · obtain ⟨cache, hrc, hd⟩ :=
        exactPurgeOf_missed N access hdisk hworks hreach
      rw [hrc] at hresult
      rw [hresult, if_neg hreach]
      exact missed_iff rfl hd

theorem exact_purge_reaches_key_iff_sample :
    let opened : CacheOpen := .opened ⟨[97], 0, false, 0⟩
    let result := handler .reference .reference sampleAccess opened false false (samplePurge false)
      variantState
    (result.1 = .ok → KeyPurged false [107] result.2.cache.disk .reference) ↔
      ReachesKey (samplePurge false) opened variantState (recordsOf variantState.shm [122])
        variantFiles :=
  exact_purge_reaches_key_iff .reference .reference sampleAccess [122] _ (samplePurge false)
    variantState variantFiles rfl (runStore_indexOk .reference (by decide)) rfl
    variantFiles_complete (by decide) (by decide) (samplePurge_works false)

/-- Both variants are cached and indexed, but the file that the purge's own request
resolves to is gone: the purge is answered 200 and leaves both. -/
theorem exact_purge_misses_variants :
    IndexOk .reference variantState.shm ∧
      Complete variantFiles (recordsOf variantState.shm [122]) ∧
      variantState.cache.disk = variantFiles.disk ∧ (samplePurge false).FilesWork ∧
      let result := handler .reference .reference sampleAccess .declined false false
        (samplePurge false) variantState
      ¬ (result.1 = .ok → KeyPurged false [107] result.2.cache.disk .reference) := by
  refine ⟨runStore_indexOk .reference (by decide), variantFiles_complete, rfl,
    samplePurge_works false, ?_⟩
  intro result h
  have hleft : result.2.cache.disk [97] = some (sampleFile [97]).bytes := rfl
  exact absurd (h rfl [97] (sampleFile [97]) hleft rfl).1 (by decide)

end CachePilot
