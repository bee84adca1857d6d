import CachePilot.Scan.ParseFile

/-!
# The cache that a purge works on

The files below the cache path, nginx's shared cache nodes, and the functions of
`ngx_cache_pilot_module.c` that delete or expire one file. What the system calls
on a file answer is an argument; `CacheFile` is a file as nginx writes it.

`byPath_cases` says what the purge of one path can do to the files.
-/

namespace CachePilot
open NgxString SearchTree

/-! ## Files -/

/-- `ngx_http_file_cache_header_t`: its size, the fields that are read here, and
the header with `valid_sec` set to zero. -/
structure HeaderLayout where
  size : Nat
  cacheVersion : Nat
  version : Bytes → Nat
  validSec : Bytes → Int
  headerStart : Bytes → Nat
  expire : Bytes → Bytes
  length_expire : ∀ h, h.length = size → (expire h).length = size
  version_expire : ∀ h, h.length = size → version (expire h) = version h
  headerStart_expire : ∀ h, h.length = size → headerStart (expire h) = headerStart h
  validSec_expire : ∀ h, h.length = size → validSec (expire h) = 0

/-- A little-endian number. -/
def littleEndian (b : Bytes) : Nat := b.foldr (fun c n => c.toNat + 256 * n) 0

/-- The header of a 64-bit nginx, cache version 5. -/
def HeaderLayout.reference : HeaderLayout where
  size := 336
  cacheVersion := 5
  version h := littleEndian (h.take 8)
  validSec h := littleEndian ((h.drop 8).take 8)
  headerStart h := littleEndian ((h.drop 54).take 2)
  expire h := h.take 8 ++ (List.replicate 8 0 ++ h.drop 16)
  length_expire h hl := by
    simp only [List.length_append, List.length_take, List.length_replicate, List.length_drop]
    omega
  version_expire h hl := by
    rw [List.take_append_of_le_length (by simp [hl]), List.take_take, Nat.min_self]
  headerStart_expire h hl := by
    have h8 : (h.take 8).length = 8 := by simp [hl]
    have h16 : (h.take 8 ++ List.replicate 8 (0 : UInt8)).length = 16 := by simp [h8]
    have hd : (h.take 8 ++ (List.replicate 8 0 ++ h.drop 16)).drop 54 = h.drop 54 := by
      rw [← List.append_assoc, List.drop_append, h16, List.drop_eq_nil_of_le (by rw [h16]; decide),
        List.nil_append, List.drop_drop]
    rw [hd]
  validSec_expire h hl := by
    have h8 : (h.take 8).length = 8 := by simp [hl]
    have hd : (h.take 8 ++ (List.replicate 8 0 ++ h.drop 16)).drop 8 =
        List.replicate 8 0 ++ h.drop 16 := List.drop_left' h8
    rw [hd, List.take_left' List.length_replicate]
    decide

/-- A regular file below the cache path, by its name. -/
abbrev Disk := Bytes → Option Bytes

/-- Whether each system call on a file works; that the file is missing is not
such a failure. A write changes the whole header or nothing: one that ends in its
middle is not modelled. -/
structure FileCalls where
  info : Bool
  opens : Bool
  reads : Bool
  writes : Bool
  deletes : Bool
  /-- Another process removes the file between `ngx_file_info` and
  `ngx_delete_file`. -/
  vanishes : Bool

def FileCalls.works : FileCalls := ⟨true, true, true, true, true, false⟩

/-- A cache file as nginx writes it: the binary header, the key and the response
behind it. -/
structure CacheFile (L : HeaderLayout) where
  header : Bytes
  key : Bytes
  response : Bytes
  length_header : header.length = L.size
  version_header : L.version header = L.cacheVersion
  headerStart_header : L.headerStart header = L.size + 6 + key.length + 1

/-- The contents of the file. -/
def CacheFile.bytes {L : HeaderLayout} (f : CacheFile L) : Bytes :=
  f.header ++ 10 :: (keyHdr ++ 32 :: (f.key ++ 10 :: f.response))

/-! ## Cache nodes -/

/-- `ngx_http_file_cache_node_t`; `present` is its field `exists`. -/
structure CacheNode where
  present : Bool
  updating : Bool
  validSec : Int
  fsSize : Int
  lockTime : Int

/-- A node as it is linked: the first machine word of its key, the rest of the
key, and the node. -/
structure CacheTreeNode where
  key : Nat
  rest : Bytes
  addr : Addr

/-- `ngx_http_file_cache_t`: the files, the tree of the shared nodes, and the size
that they add up to. -/
structure FileCache where
  disk : Disk
  tree : BinaryTree CacheTreeNode
  node : Addr → CacheNode
  size : Int

namespace FileCache

def setNode (c : FileCache) (a : Addr) (n : CacheNode) : FileCache :=
  { c with node := Function.update c.node a n }

def setFile (c : FileCache) (path : Bytes) (data : Option Bytes) : FileCache :=
  { c with disk := Function.update c.disk path data }

@[simp] theorem setFile_disk (c : FileCache) (path : Bytes) (data : Option Bytes) :
    (c.setFile path data).disk = Function.update c.disk path data := rfl

end FileCache

/-- `NGX_HTTP_CACHE_KEY_LEN`. -/
def cacheKeyLen : Nat := 16

/-- `ngx_hextoi` of one character. -/
def hexDigit (c : UInt8) : Option Nat :=
  if 48 ≤ c ∧ c ≤ 57 then some (c.toNat - 48)
  else
    let c := c ||| 0x20
    if 97 ≤ c ∧ c ≤ 102 then some (c.toNat - 97 + 10) else none

/-- The loop of `filename_key`, from the character `p` on. -/
def hexPairs : Bytes → Option Bytes
  | hi :: lo :: p => do
    let hi ← hexDigit hi
    let lo ← hexDigit lo
    let key ← hexPairs p
    pure (UInt8.ofNat (hi <<< 4 ||| lo) :: key)
  | _ => some []

/-- `ngx_http_cache_pilot_filename_key`: the key that the base name of a cache
file spells. -/
def filenameKey (path : Bytes) : Option Bytes :=
  let p := (path.reverse.takeWhile fun c => c != 47).reverse
  if p.length ≠ 2 * cacheKeyLen then none else hexPairs p

/-- `sizeof(ngx_rbtree_key_t)`. -/
def rbtreeKeyLen : Nat := 8

/-- `ngx_http_cache_pilot_lookup`. -/
def lookupNode (key : Bytes) : BinaryTree CacheTreeNode → Option Addr
  | .nil => none
  | .node fcn left right =>
    let nodeKey := littleEndian (key.take rbtreeKeyLen)
    if nodeKey < fcn.key then lookupNode key left
    else if fcn.key < nodeKey then lookupNode key right
    else
      let rc := ngxMemcmp (key.drop rbtreeKeyLen) fcn.rest (cacheKeyLen - rbtreeKeyLen)
      if rc = 0 then some fcn.addr
      else if rc < 0 then lookupNode key left
      else lookupNode key right

/-- The node that the purge of a path finds. -/
def FileCache.pathNode (c : FileCache) (path : Bytes) : Option Addr :=
  (filenameKey path).bind fun key => lookupNode key c.tree

/-- `ngx_http_cache_pilot_mark_node_deleted`. -/
def markNodeDeleted (c : FileCache) (a : Addr) : FileCache :=
  let n := c.node a
  { c.setNode a { n with fsSize := 0, present := false, updating := false } with
    size := c.size - n.fsSize }

/-! ## One file -/

/-- `ngx_http_cache_pilot_delete_cache_file`. -/
def deleteCacheFile (calls : FileCalls) (path : Bytes) (c : FileCache) : NgxRc × FileCache :=
  if !calls.info then (.error, c)
  else
    match c.disk path with
    | none => (.declined, c)
    | some _ =>
      let c :=
        match c.pathNode path with
        | some a => if (c.node a).present then markNodeDeleted c a else c
        | none => c
      if !calls.deletes then (.error, c)
      else if calls.vanishes then (.declined, c.setFile path none)
      else (.ok, c.setFile path none)

/-- `ngx_http_cache_pilot_soft_header`. -/
def softHeader (L : HeaderLayout) (calls : FileCalls) (path : Bytes) (c : FileCache) :
    NgxRc × FileCache :=
  if !calls.opens then (.error, c)
  else
    match c.disk path with
    | none => (.declined, c)
    | some data =>
      let h := data.take L.size
      if !calls.reads || h.length != L.size then (.error, c)
      else if L.version h ≠ L.cacheVersion then (.error, c)
      else if !calls.writes then (.error, c)
      else (.ok, c.setFile path (some (L.expire h ++ data.drop L.size)))

/-- `ngx_http_cache_pilot_soft_path`. -/
def softPath (L : HeaderLayout) (calls : FileCalls) (path : Bytes) (c : FileCache) :
    NgxRc × FileCache :=
  match softHeader L calls path c with
  | (.ok, c) =>
    match c.pathNode path with
    | some a => if (c.node a).present then (.ok, c.setNode a { c.node a with validSec := 0 }) else (.ok, c)
    | none => (.ok, c)
  | (rc, c) => (rc, c)

/-- `ngx_http_cache_pilot_by_path`. -/
def byPath (L : HeaderLayout) (calls : FileCalls) (soft : Bool) (path : Bytes) (c : FileCache) :
    NgxRc × FileCache :=
  if soft then softPath L calls path c else deleteCacheFile calls path c

/-! ## Cache files -/

variable {L : HeaderLayout}

namespace CacheFile

theorem take_bytes (f : CacheFile L) : f.bytes.take L.size = f.header :=
  List.take_left' f.length_header

theorem drop_bytes (f : CacheFile L) : f.bytes.drop (L.size + 6) = f.key ++ 10 :: f.response := by
  have hb : f.bytes = (f.header ++ 10 :: (keyHdr ++ [32])) ++ (f.key ++ 10 :: f.response) := by
    simp [bytes]
  rw [hb]
  refine List.drop_left' ?_
  rw [List.length_append, f.length_header]
  rfl

/-- The contents determine the file: its header says where the key ends. -/
theorem bytes_injective : Function.Injective (bytes : CacheFile L → Bytes) := by
  intro f g h
  have hh : f.header = g.header := by rw [← f.take_bytes, ← g.take_bytes, h]
  have hd : f.key ++ 10 :: f.response = g.key ++ 10 :: g.response := by
    rw [← f.drop_bytes, ← g.drop_bytes, h]
  have hl : f.key.length = g.key.length := by
    have hs := f.headerStart_header
    rw [hh, g.headerStart_header] at hs
    omega
  obtain ⟨hk, hr⟩ := List.append_inj hd hl
  obtain ⟨fh, fk, fr⟩ := f
  obtain ⟨gh, gk, gr⟩ := g
  simp only at hh hk hr
  subst hh
  subst hk
  rw [(List.cons.inj hr).2]

/-- The file with its validity zeroed. -/
def expire (f : CacheFile L) : CacheFile L where
  header := L.expire f.header
  key := f.key
  response := f.response
  length_header := L.length_expire _ f.length_header
  version_header := by rw [L.version_expire _ f.length_header, f.version_header]
  headerStart_header := by rw [L.headerStart_expire _ f.length_header, f.headerStart_header]

theorem bytes_expire (f : CacheFile L) :
    f.expire.bytes = L.expire (f.bytes.take L.size) ++ f.bytes.drop L.size := by
  have hd : f.bytes.drop L.size = 10 :: (keyHdr ++ 32 :: (f.key ++ 10 :: f.response)) :=
    List.drop_left' f.length_header
  rw [f.take_bytes, hd]
  rfl

/-- Whether nothing is valid in the file any more. -/
def Expired (f : CacheFile L) : Prop := L.validSec f.header = 0

theorem expired_expire (f : CacheFile L) : f.expire.Expired := L.validSec_expire _ f.length_header

end CacheFile

/-- The cache files of a cache, by path. -/
abbrev Files (L : HeaderLayout) := Bytes → Option (CacheFile L)

namespace Files

/-- The disk that holds these files and no others. -/
def disk (files : Files L) : Disk := fun p => (files p).map CacheFile.bytes

theorem disk_eq_some {files : Files L} {p : Bytes} {f : CacheFile L} :
    files.disk p = some f.bytes ↔ files p = some f := by
  unfold disk
  constructor
  · intro h
    obtain ⟨g, hg, hb⟩ := Option.map_eq_some_iff.mp h
    rw [hg, CacheFile.bytes_injective hb]
  · intro h
    rw [h]
    rfl

theorem disk_eq_none {files : Files L} {p : Bytes} : files.disk p = none ↔ files p = none :=
  Option.map_eq_none_iff

theorem disk_update (files : Files L) (p : Bytes) (f : Option (CacheFile L)) :
    Files.disk (Function.update files p f) = Function.update files.disk p (f.map CacheFile.bytes) := by
  funext q
  unfold disk
  cases hq : decide (q = p) with
  | true =>
    obtain rfl := of_decide_eq_true hq
    rw [Function.update_self, Function.update_self]
  | false =>
    have hne := of_decide_eq_false hq
    rw [Function.update_of_ne hne, Function.update_of_ne hne]

/-- The files after the purge of one path. -/
def purge (soft : Bool) (path : Bytes) (files : Files L) : Files L :=
  Function.update files path (if soft then (files path).map CacheFile.expire else none)

theorem purge_other {soft : Bool} {path p : Bytes} (files : Files L) (h : p ≠ path) :
    files.purge soft path p = files p := Function.update_of_ne h _ _

theorem purge_of_none {soft : Bool} {path : Bytes} {files : Files L} (h : files path = none) :
    files.purge soft path = files := by
  unfold purge
  rw [h]
  cases soft with
  | false => rw [if_neg Bool.false_ne_true, ← h, Function.update_eq_self]
  | true => rw [if_pos rfl, Option.map_none, ← h, Function.update_eq_self]

/-- What the purge of one path left: no file, or an expired one. -/
theorem purge_self {soft : Bool} {path : Bytes} {files : Files L} {f : CacheFile L}
    (h : files.purge soft path path = some f) : soft = true ∧ f.Expired := by
  unfold purge at h
  rw [Function.update_self] at h
  cases soft with
  | false => exact nomatch h
  | true =>
    rw [if_pos rfl] at h
    obtain ⟨g, -, rfl⟩ := Option.map_eq_some_iff.mp h
    exact ⟨rfl, g.expired_expire⟩

end Files

/-! ## The purge of one path -/

variable {c : FileCache} {path : Bytes} {files : Files L}

@[simp] theorem markNodeDeleted_disk (c : FileCache) (a : Addr) :
    (markNodeDeleted c a).disk = c.disk := rfl

/-- What one call of `by_path` does to the files: it purges the file, finds none,
or fails and leaves them as they were. -/
inductive ByPath (calls : FileCalls) (soft : Bool) (path : Bytes) (files : Files L) :
    NgxRc × FileCache → Prop
  | purged {c : FileCache} : (files path).isSome → c.disk = (files.purge soft path).disk →
    ByPath calls soft path files (.ok, c)
  | missing {c : FileCache} : files path = none → c.disk = files.disk →
    ByPath calls soft path files (.declined, c)
  | vanished {c : FileCache} : calls ≠ .works → soft = false →
    c.disk = (files.purge soft path).disk → ByPath calls soft path files (.declined, c)
  | failed {c : FileCache} : calls ≠ .works → c.disk = files.disk →
    ByPath calls soft path files (.error, c)

theorem deleteCacheFile_spec (h : c.disk = files.disk) (calls : FileCalls) (path : Bytes) :
    ByPath calls false path files (deleteCacheFile calls path c) := by
  unfold deleteCacheFile
  cases hi : calls.info with
  | false =>
    refine .failed (fun h0 => ?_) h
    rw [h0] at hi
    exact nomatch hi
  | true =>
    cases hf : files path with
    | none =>
      rw [h, Files.disk_eq_none.mpr hf]
      exact .missing hf h
    | some f =>
      have hsome : (files path).isSome = true := by rw [hf]; rfl
      rw [h, Files.disk_eq_some.mpr hf]
      simp only
      -- marking the node leaves the files alone
      have hmark : ∀ node : Option Addr,
          (match node with
            | some a => if (c.node a).present then markNodeDeleted c a else c
            | none => c).disk = files.disk := by
        intro node
        cases node with
        | none => exact h
        | some a =>
          show (if (c.node a).present = true then markNodeDeleted c a else c).disk = files.disk
          cases (c.node a).present with
          | false => exact h
          | true => exact h
      have hgone : ∀ {c' : FileCache}, c'.disk = files.disk →
          (c'.setFile path none).disk = (files.purge false path).disk := by
        intro c' hc'
        rw [FileCache.setFile_disk, hc', Files.purge, Files.disk_update]
        rfl
      cases hd : calls.deletes with
      | false =>
        refine .failed (fun h0 => ?_) (hmark _)
        rw [h0] at hd
        exact nomatch hd
      | true =>
        cases hv : calls.vanishes with
        | true =>
          refine .vanished (fun h0 => ?_) rfl (hgone (hmark _))
          rw [h0] at hv
          exact nomatch hv
        | false => exact .purged hsome (hgone (hmark _))

theorem softHeader_spec (h : c.disk = files.disk) (calls : FileCalls) (path : Bytes) :
    ByPath calls true path files (softHeader L calls path c) := by
  unfold softHeader
  cases ho : calls.opens with
  | false =>
    refine .failed (fun h0 => ?_) h
    rw [h0] at ho
    exact nomatch ho
  | true =>
    cases hf : files path with
    | none =>
      rw [h, Files.disk_eq_none.mpr hf]
      exact .missing hf h
    | some f =>
      rw [h, Files.disk_eq_some.mpr hf]
      simp only [f.take_bytes, f.length_header, f.version_header]
      cases hr : calls.reads with
      | false =>
        refine .failed (fun h0 => ?_) h
        rw [h0] at hr
        exact nomatch hr
      | true =>
        cases hw : calls.writes with
        | false =>
          have hfail : ByPath calls true path files (.error, c) := by
            refine .failed (fun h0 => ?_) h
            rw [h0] at hw
            exact nomatch hw
          simpa using hfail
        | true =>
          have hdisk : (c.setFile path (some (L.expire f.header ++ f.bytes.drop L.size))).disk =
              (files.purge true path).disk := by
            rw [FileCache.setFile_disk, h, Files.purge, Files.disk_update, if_pos rfl, hf]
            show _ = Function.update files.disk path (some f.expire.bytes)
            rw [f.bytes_expire, f.take_bytes]
          have hok : ByPath calls true path files
              (.ok, c.setFile path (some (L.expire f.header ++ f.bytes.drop L.size))) :=
            .purged (by rw [hf]; rfl) hdisk
          simpa using hok

/-- A result with the same return code and the same files is as good. -/
theorem ByPath.of_disk {calls : FileCalls} {soft : Bool} {rc : NgxRc} {c c' : FileCache}
    (h : ByPath calls soft path files (rc, c)) (hd : c'.disk = c.disk) :
    ByPath calls soft path files (rc, c') := by
  cases h with
  | purged hs hc => exact .purged hs (hd.trans hc)
  | missing hn hc => exact .missing hn (hd.trans hc)
  | vanished hw hs hc => exact .vanished hw hs (hd.trans hc)
  | failed hw hc => exact .failed hw (hd.trans hc)

theorem softPath_spec (h : c.disk = files.disk) (calls : FileCalls) (path : Bytes) :
    ByPath calls true path files (softPath L calls path c) := by
  have hs := softHeader_spec h calls path
  unfold softPath
  generalize softHeader L calls path c = r at hs
  obtain ⟨rc, c'⟩ := r
  cases rc with
  | ok =>
    simp only
    cases c'.pathNode path with
    | none => exact hs
    | some a =>
      show ByPath calls true path files
        (if (c'.node a).present = true then (.ok, c'.setNode a _) else (.ok, c'))
      cases (c'.node a).present with
      | false => exact hs
      | true => exact hs.of_disk rfl
  | error => exact hs
  | again => exact hs
  | done => exact hs
  | declined => exact hs

theorem byPath_spec (h : c.disk = files.disk) (calls : FileCalls) (soft : Bool) (path : Bytes) :
    ByPath calls soft path files (byPath L calls soft path c) := by
  cases soft with
  | false => exact deleteCacheFile_spec h calls path
  | true => exact softPath_spec h calls path

end CachePilot
