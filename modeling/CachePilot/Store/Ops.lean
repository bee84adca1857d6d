import CachePilot.Store.Shm

/-!
# The shared-memory index: operations

The functions of `ngx_cache_pilot_index_store.c` on the index zone, each run
under the zone's mutex and so one atomic step. What the code gets from outside
is an argument: whether each allocation succeeds (`AllocSite` names every
shared-memory allocation one call can reach, `PoolSite` every request-pool one)
and the clock `now`.
-/

namespace CachePilot
open NgxString

/-! ## Trees -/

/-- `ngx_http_cache_index_store_shm_insert_generic`: the descent to the place of
a new node. -/
def insertGeneric (node : RbNode) : BinaryTree RbNode → BinaryTree RbNode
  | .nil => .node node .nil .nil
  | .node temp left right =>
    if node.key < temp.key then .node temp (insertGeneric node left) right
    else if temp.key < node.key then .node temp left (insertGeneric node right)
    else if ngxMemn2cmp node.str temp.str < 0 then .node temp (insertGeneric node left) right
    else .node temp left (insertGeneric node right)

/-- `ngx_http_cache_index_store_shm_lookup_generic`. -/
def lookupGeneric (hash : UInt32) (needle : Bytes) : BinaryTree RbNode → Option RbNode
  | .nil => none
  | .node node left right =>
    if hash < node.key then lookupGeneric hash needle left
    else if node.key < hash then lookupGeneric hash needle right
    else if ngxMemn2cmp needle node.str = 0 then some node
    else if ngxMemn2cmp needle node.str < 0 then lookupGeneric hash needle left
    else lookupGeneric hash needle right

namespace Nginx

/-- `ngx_rbtree_insert`. -/
def rbtreeInsert (N : Nginx) (node : RbNode) (tree : BinaryTree RbNode) : BinaryTree RbNode :=
  N.rbtree.balance (insertGeneric node tree)

/-- `ngx_rbtree_delete`. -/
def rbtreeDelete (N : Nginx) (node : RbNode) (tree : BinaryTree RbNode) : BinaryTree RbNode :=
  N.rbtree.delete node tree

/-- `ngx_http_cache_index_store_shm_path_hash`. -/
def pathHash (N : Nginx) (path : Bytes) : UInt32 := N.crc32Long path

/-- `ngx_http_cache_index_store_shm_path_hash_legacy`. -/
def pathHashLegacy (N : Nginx) (path : Bytes) : UInt32 := N.crc32Short path

end Nginx

/-! ## Allocation -/

/-- The shared-memory allocations one `upsert_file_meta` can reach, the tag ones
at each index into the tag list. -/
inductive AllocSite
  | zone
  | file
  | keyEntry
  | tagEntry (i : Nat)
  | tagMember (i : Nat)
deriving DecidableEq, Repr

/-- `ngx_http_cache_index_store_shm_alloc_locked`. -/
def allocLocked (ok : Bool) (kind : BlockKind) (s : Shm) : Option Addr × Shm :=
  if ok then (some s.next, s.takeBlock kind) else (none, s.countFailure)

/-! ## Zones -/

/-- Whether the zone lookup takes a zone named `name` for one asked as
`zoneName`: equal lengths, and no difference before a NUL. -/
def sameZoneName (name zoneName : Bytes) : Bool :=
  name.length == zoneName.length && ngxStrncmp name zoneName zoneName.length == 0

/-- `ngx_http_cache_index_store_shm_lookup_zone`. -/
def lookupZone (s : Shm) (zoneName : Bytes) : Option Addr :=
  s.zones.find? fun za => sameZoneName (s.zone za).name zoneName

/-- A zone struct as `get_zone_locked` initialises it. -/
def ShmZone.new (name : Bytes) : ShmZone where
  name := name
  files := []
  pathIndex := .nil
  index := fun _ => .nil
  bootstrapComplete := false
  lastBootstrapAt := 0
  lastUpdatedAt := 0

/-- `ngx_http_cache_index_store_shm_get_zone_locked`. -/
def getZoneLocked (ok : Bool) (zoneName : Bytes) (create : Bool) (s : Shm) : Option Addr × Shm :=
  match lookupZone s zoneName with
  | some za => (some za, s)
  | none =>
    if create then
      match allocLocked ok .zone s with
      | (none, s) => (none, s)
      | (some za, s) => (some za, { s.setZone za (.new zoneName) with zones := s.zones ++ [za] })
    else (none, s)

/-- `ngx_http_cache_index_store_shm_touch_zone_locked`. -/
def touchZoneLocked (now : Int) (za : Addr) (s : Shm) : Shm :=
  s.setZone za { s.zone za with lastUpdatedAt := now }

/-! ## Key and tag entries

The lookup, the get-or-create and the release of a key entry and of a tag entry
are the same code over the two indexes. -/

def lookupEntry (N : Nginx) (kind : EntryKind) (zone : ShmZone) (str : Bytes) : Option Addr :=
  (lookupGeneric (N.crc32Short str) str (zone.index kind)).map RbNode.addr

/-- `ngx_http_cache_index_store_shm_lookup_key_entry`. -/
def lookupKeyEntry (N : Nginx) (zone : ShmZone) (key : Bytes) : Option Addr :=
  lookupEntry N .key zone key

/-- `ngx_http_cache_index_store_shm_lookup_tag_entry`. -/
def lookupTagEntry (N : Nginx) (zone : ShmZone) (tag : Bytes) : Option Addr :=
  lookupEntry N .tag zone tag

/-- Initialise a fresh entry block at `e` and link it into its tree. -/
def addEntry (N : Nginx) (kind : EntryKind) (za e : Addr) (str : Bytes) (s : Shm) : Shm :=
  let zone := s.zone za
  let node : RbNode := ⟨N.crc32Short str, str, e⟩
  (s.setEntry kind e ⟨N.crc32Short str, str, []⟩).setZone za
    { zone with index := Function.update zone.index kind (N.rbtreeInsert node (zone.index kind)) }

def getEntryLocked (N : Nginx) (ok : Bool) (kind : EntryKind) (za : Addr) (str : Bytes)
    (create : Bool) (s : Shm) : Option Addr × Shm :=
  match lookupEntry N kind (s.zone za) str with
  | some e => (some e, s)
  | none =>
    if create then
      match allocLocked ok (.entry kind) s with
      | (none, s) => (none, s)
      | (some e, s) => (some e, addEntry N kind za e str s)
    else (none, s)

/-- `ngx_http_cache_index_store_shm_get_key_entry_locked`. -/
def getKeyEntryLocked (N : Nginx) (ok : Bool) (za : Addr) (key : Bytes) (create : Bool) (s : Shm) :
    Option Addr × Shm :=
  getEntryLocked N ok .key za key create s

/-- `ngx_http_cache_index_store_shm_get_tag_entry_locked`. -/
def getTagEntryLocked (N : Nginx) (ok : Bool) (za : Addr) (tag : Bytes) (create : Bool) (s : Shm) :
    Option Addr × Shm :=
  getEntryLocked N ok .tag za tag create s

def freeEmptyEntryLocked (N : Nginx) (kind : EntryKind) (za e : Addr) (s : Shm) : Shm :=
  let entry := s.entry kind e
  if entry.files ≠ [] then s
  else
    let zone := s.zone za
    let node : RbNode := ⟨entry.nodeKey, entry.str, e⟩
    (s.setZone za
      { zone with index := Function.update zone.index kind (N.rbtreeDelete node (zone.index kind)) }
      ).freeBlock (.entry kind) e

/-- `ngx_http_cache_index_store_shm_free_empty_key_entry_locked`. -/
def freeEmptyKeyEntryLocked (N : Nginx) (za e : Addr) (s : Shm) : Shm :=
  freeEmptyEntryLocked N .key za e s

/-- `ngx_http_cache_index_store_shm_free_empty_tag_entry_locked`. -/
def freeEmptyTagEntryLocked (N : Nginx) (za e : Addr) (s : Shm) : Shm :=
  freeEmptyEntryLocked N .tag za e s

/-- `ngx_queue_insert_tail` on the queue of an entry. -/
def enqueue (kind : EntryKind) (e item : Addr) (s : Shm) : Shm :=
  let entry := s.entry kind e
  s.setEntry kind e { entry with files := entry.files ++ [item] }

/-- `ngx_queue_remove` of an item in the queue of an entry. -/
def dequeue (kind : EntryKind) (e item : Addr) (s : Shm) : Shm :=
  let entry := s.entry kind e
  s.setEntry kind e { entry with files := entry.files.erase item }

/-! ## Files -/

/-- `ngx_http_cache_index_store_shm_lookup_file`: the current hash first, the
legacy one only when it differs. -/
def lookupFile (N : Nginx) (zone : ShmZone) (path : Bytes) : Option Addr :=
  let hash := N.pathHash path
  match lookupGeneric hash path zone.pathIndex with
  | some node => some node.addr
  | none =>
    let legacyHash := N.pathHashLegacy path
    if legacyHash = hash then none
    else (lookupGeneric legacyHash path zone.pathIndex).map RbNode.addr

/-- One turn of the member loop of `remove_file_locked`. -/
def unlinkMember (N : Nginx) (za fa m : Addr) (s : Shm) : Shm :=
  let e := (s.member m).tagEntry
  let s := dequeue .tag e m s
  let file := s.file fa
  let s := s.setFile fa { file with tagMembers := file.tagMembers.erase m }
  (freeEmptyTagEntryLocked N za e s).freeBlock .tagMember m

/-- The key part of `remove_file_locked`. -/
def unlinkKey (N : Nginx) (za fa : Addr) (s : Shm) : Shm :=
  match (s.file fa).keyEntry with
  | none => s
  | some e =>
    let s := freeEmptyKeyEntryLocked N za e (dequeue .key e fa s)
    s.setFile fa { s.file fa with keyEntry := none }

/-- Unlink a file block from the path tree and the file queue and free it. -/
def dropFile (N : Nginx) (za fa : Addr) (s : Shm) : Shm :=
  let zone := s.zone za
  let node : RbNode := ⟨(s.file fa).pathKey, (s.file fa).path, fa⟩
  (s.setZone za
    { zone with
      pathIndex := N.rbtreeDelete node zone.pathIndex
      files := zone.files.erase fa }).freeBlock .file fa

/-- `ngx_http_cache_index_store_shm_remove_file_locked`. -/
def removeFileLocked (N : Nginx) (za fa : Addr) (s : Shm) : Shm :=
  let s := unlinkKey N za fa s
  let s := (s.file fa).tagMembers.foldl (fun s m => unlinkMember N za fa m s) s
  dropFile N za fa s

/-- `ngx_http_cache_index_store_shm_link_exact_key_locked`. -/
def linkExactKeyLocked (N : Nginx) (ok : Bool) (za fa : Addr) (s : Shm) : NgxRc × Shm :=
  let key := (s.file fa).key
  if key.length = 0 then (.ok, s)
  else
    match getKeyEntryLocked N ok za key true s with
    | (none, s) => (.error, s)
    | (some e, s) =>
      (.ok, enqueue .key e fa (s.setFile fa { s.file fa with keyEntry := some e }))

/-- Initialise a fresh member block at `m` and link it into both its queues. -/
def linkMember (e fa m : Addr) (s : Shm) : Shm :=
  let s := enqueue .tag e m (s.setMember m ⟨e, fa⟩)
  let file := s.file fa
  s.setFile fa { file with tagMembers := file.tagMembers ++ [m] }

/-- `ngx_http_cache_index_store_shm_link_tags_locked`, from tag number `i`. -/
def linkTagsLocked (N : Nginx) (alloc : AllocSite → Bool) (za fa : Addr) :
    Nat → List Bytes → Shm → NgxRc × Shm
  | _, [], s => (.ok, s)
  | i, tag :: tags, s =>
    match getTagEntryLocked N (alloc (.tagEntry i)) za tag true s with
    | (none, s) => (.error, s)
    | (some e, s) =>
      match allocLocked (alloc (.tagMember i)) .tagMember s with
      | (none, s) => (.error, s)
      | (some m, s) => linkTagsLocked N alloc za fa (i + 1) tags (linkMember e fa m s)

/-- Initialise a fresh file block at `fa` and link it into the path tree and the
file queue. -/
def addFile (N : Nginx) (za fa : Addr) (path key : Bytes) (mtime size : Int) (tags : List Bytes)
    (s : Shm) : Shm :=
  let zone := s.zone za
  let file : ShmFile :=
    { pathKey := N.pathHash path, keyEntry := none, tagMembers := [], mtime := mtime, size := size,
      tagCount := tags.length, path := path, key := key, tags := tags }
  (s.setFile fa file).setZone za
    { zone with
      pathIndex := N.rbtreeInsert ⟨N.pathHash path, path, fa⟩ zone.pathIndex
      files := zone.files ++ [fa] }

/-- The part of `upsert_file_meta` behind the zone lookup. -/
def upsertInZone (N : Nginx) (alloc : AllocSite → Bool) (now : Int) (za : Addr)
    (path key : Bytes) (mtime size : Int) (tags : List Bytes) (s : Shm) : NgxRc × Shm :=
  let s :=
    match lookupFile N (s.zone za) path with
    | some fa => removeFileLocked N za fa s
    | none => s
  match allocLocked (alloc .file) .file s with
  | (none, s) => (.error, s)
  | (some fa, s) =>
    let s := addFile N za fa path key mtime size tags s
    match linkExactKeyLocked N (alloc .keyEntry) za fa s with
    | (.ok, s) =>
      match linkTagsLocked N alloc za fa 0 tags s with
      | (.ok, s) => (.ok, touchZoneLocked now za s)
      | (_, s) => (.error, removeFileLocked N za fa s)
    | (_, s) => (.error, removeFileLocked N za fa s)

/-- `ngx_http_cache_index_store_shm_upsert_file_meta`; a NULL tag array is the
empty list. -/
def upsertFileMeta (N : Nginx) (alloc : AllocSite → Bool) (now : Int) (zoneName path key : Bytes)
    (mtime size : Int) (tags : List Bytes) (s : Shm) : NgxRc × Shm :=
  match getZoneLocked (alloc .zone) zoneName true s with
  | (none, s) => (.error, s)
  | (some za, s) => upsertInZone N alloc now za path key mtime size tags s

/-- `ngx_http_cache_index_store_shm_delete_file`. -/
def deleteFile (N : Nginx) (now : Int) (zoneName path : Bytes) (s : Shm) : NgxRc × Shm :=
  match lookupZone s zoneName with
  | none => (.ok, s)
  | some za =>
    match lookupFile N (s.zone za) path with
    | none => (.ok, s)
    | some fa => (.ok, touchZoneLocked now za (removeFileLocked N za fa s))

/-! ## Queries -/

/-- The allocations of a collect call from the request pool: the result array,
and each path pushed to it. -/
inductive PoolSite
  | array
  | push (n : Nat)
deriving DecidableEq, Repr

/-- `ngx_http_cache_index_store_shm_push_path_unique`; `none` is `NGX_ERROR`. -/
def pushPathUnique (pool : PoolSite → Bool) (paths : List Bytes) (data : Bytes) :
    Option (List Bytes) :=
  if paths.any fun p => p.length == data.length && ngxStrncmp p data data.length == 0 then
    some paths
  else if pool (.push paths.length) then some (paths ++ [data])
  else none

/-- The loop around `push_path_unique`. -/
def pushPaths (pool : PoolSite → Bool) (paths : List Bytes) (data : List Bytes) :
    Option (List Bytes) :=
  data.foldlM (pushPathUnique pool) paths

/-- `ngx_http_cache_index_store_shm_collect_paths_by_tags`. -/
def collectPathsByTags (N : Nginx) (pool : PoolSite → Bool) (s : Shm) (zoneName : Bytes)
    (tags : List Bytes) : Option (List Bytes) :=
  if pool .array then
    match lookupZone s zoneName with
    | none => some []
    | some za =>
      tags.foldlM (fun result tag =>
        match lookupTagEntry N (s.zone za) tag with
        | none => some result
        | some e =>
          pushPaths pool result
            ((s.entry .tag e).files.map fun m => (s.file (s.member m).file).path)) []
  else none

/-- `ngx_http_cache_index_store_shm_collect_paths_by_exact_key`. -/
def collectPathsByExactKey (N : Nginx) (pool : PoolSite → Bool) (s : Shm) (zoneName : Bytes)
    (keyText : Bytes) : Option (List Bytes) :=
  if pool .array then
    match lookupZone s zoneName with
    | none => some []
    | some za =>
      match lookupKeyEntry N (s.zone za) keyText with
      | none => some []
      | some e => pushPaths pool [] ((s.entry .key e).files.map fun fa => (s.file fa).path)
  else none

/-- The filter of the prefix query: long enough, and equal on the prefix. -/
def keyHasPrefix (key pre : Bytes) : Bool :=
  !(decide (key.length < pre.length) || ngxStrncmp key pre pre.length != 0)

/-- `ngx_http_cache_index_store_shm_collect_paths_by_key_prefix`. -/
def collectPathsByKeyPrefix (pool : PoolSite → Bool) (s : Shm) (zoneName : Bytes) (pre : Bytes) :
    Option (List Bytes) :=
  if pool .array then
    match lookupZone s zoneName with
    | none => some []
    | some za =>
      pushPaths pool []
        (((s.zone za).files.filter fun fa => keyHasPrefix (s.file fa).key pre).map
          fun fa => (s.file fa).path)
  else none

/-! ## Zone state -/

/-- `ngx_http_cache_index_zone_state_t`. -/
structure ZoneState where
  bootstrapComplete : Bool
  lastBootstrapAt : Int
  lastUpdatedAt : Int
deriving DecidableEq, Repr

/-- `ngx_http_cache_index_store_normalize_zone_state`. -/
def normalizeZoneState (now : Int) (state : ZoneState) : ZoneState :=
  if !state.bootstrapComplete then
    if state.lastBootstrapAt ≠ 0 ∨ state.lastUpdatedAt ≠ 0 then
      { state with lastBootstrapAt := 0, lastUpdatedAt := 0 }
    else state
  else
    let state :=
      if state.lastBootstrapAt = 0 then
        { state with
          lastBootstrapAt := if state.lastUpdatedAt ≠ 0 then state.lastUpdatedAt else now }
      else state
    if state.lastUpdatedAt < state.lastBootstrapAt then
      { state with lastUpdatedAt := state.lastBootstrapAt }
    else state

/-- `ngx_http_cache_index_store_shm_get_zone_state`. -/
def getZoneState (now : Int) (s : Shm) (zoneName : Bytes) : ZoneState :=
  match lookupZone s zoneName with
  | none => normalizeZoneState now ⟨false, 0, 0⟩
  | some za =>
    let zone := s.zone za
    normalizeZoneState now ⟨zone.bootstrapComplete, zone.lastBootstrapAt, zone.lastUpdatedAt⟩

/-- `ngx_http_cache_index_store_shm_set_zone_state`; `ok` is the allocation of a
zone struct. -/
def setZoneState (ok : Bool) (now : Int) (zoneName : Bytes) (state : ZoneState) (s : Shm) :
    NgxRc × Shm :=
  let state := normalizeZoneState now state
  match getZoneLocked ok zoneName true s with
  | (none, s) => (.error, s)
  | (some za, s) =>
    (.ok, s.setZone za
      { s.zone za with
        bootstrapComplete := state.bootstrapComplete
        lastBootstrapAt := state.lastBootstrapAt
        lastUpdatedAt := state.lastUpdatedAt })

end CachePilot
