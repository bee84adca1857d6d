import CachePilot.Purge.Cache
import Mathlib.Data.Prod.Lex

/-!
# The node of a path

A cache file is named by its key in hexadecimal, and `filename_key` of
`ngx_cache_pilot_module.c` reads the key back. The node of the key is found in the
tree of nginx, which is ordered by the first machine word of the key and then by the
rest of it.

Results:
* `filenameKey_hexName`: the key of every file that nginx names;
* `purge_changes_named_node`: the purge of a path changes the node that the path
  names, and no other.
-/

namespace CachePilot
open NgxString SearchTree

/-! ## Names -/

/-- A digit as `ngx_hex_dump` writes it. -/
def hexChar (n : Nat) : UInt8 := if n < 10 then UInt8.ofNat (48 + n) else UInt8.ofNat (87 + n)

/-- The two digits of a byte. -/
def hexByte (b : UInt8) : Bytes := [hexChar (b.toNat / 16), hexChar (b.toNat % 16)]

/-- The name that nginx gives to the file of a key. -/
def hexName (key : Bytes) : Bytes := key.flatMap hexByte

/-- What follows the last slash of a path. -/
def baseName (path : Bytes) : Bytes := (path.reverse.takeWhile fun c => c != 47).reverse

/-- A path names a key: its base name are the digits of the key, in any letter
case. -/
def NamesKey (path key : Bytes) : Prop :=
  key.length = cacheKeyLen ∧ (baseName path).map ngxTolower = hexName key

theorem hexName_length (key : Bytes) : (hexName key).length = 2 * key.length := by
  induction key with
  | nil => rfl
  | cons b key ih =>
    have hcons : hexName (b :: key) = hexByte b ++ hexName key := rfl
    rw [hcons, List.length_append, ih, List.length_cons, hexByte, List.length_cons,
      List.length_singleton]
    omega

/-- A name behind a directory is its base name. -/
theorem baseName_append {dir name : Bytes} (hdir : dir = [] ∨ dir.getLast? = some 47)
    (hname : (47 : UInt8) ∉ name) : baseName (dir ++ name) = name := by
  have hall : ∀ c ∈ name.reverse, (c != 47) = true := by
    intro c hc
    have hne : c ≠ 47 := fun h => hname (h ▸ List.mem_reverse.mp hc)
    simpa using hne
  have hstop : dir.reverse.takeWhile (fun c => c != 47) = [] := by
    rcases hdir with rfl | hlast
    · rfl
    · obtain ⟨pre, rfl⟩ := List.getLast?_eq_some_iff.mp hlast
      rw [List.reverse_append]
      rfl
  unfold baseName
  rw [List.reverse_append, List.takeWhile_append_of_pos hall, hstop, List.append_nil,
    List.reverse_reverse]

/-- Facts about single characters are checked for all of them. -/
theorem forall_uint8 {p : UInt8 → Prop} (h : ∀ n < 256, p (UInt8.ofNat n)) (c : UInt8) : p c := by
  have hc := h c.toNat c.toNat_lt
  rwa [UInt8.ofNat_toNat] at hc

/-- The digits of `ngx_hextoi` are those of `ngx_hex_dump`, in any letter case. -/
theorem hexDigit_eq_some {c : UInt8} {n : Nat} :
    hexDigit c = some n ↔ n < 16 ∧ ngxTolower c = hexChar n := by
  have hread : hexDigit c = ((List.range 16).find? fun n => ngxTolower c == hexChar n) :=
    forall_uint8 (p := fun c => hexDigit c = (List.range 16).find? fun n => ngxTolower c == hexChar n)
      (by decide +kernel) c
  have hinj : ∀ m < 16, ∀ n < 16, hexChar m = hexChar n → m = n := by decide +kernel
  rw [hread]
  constructor
  · intro h
    have hn := List.find?_some h
    exact ⟨List.mem_range.mp (List.mem_of_find?_eq_some h), by simpa using hn⟩
  · rintro ⟨hlt, hc⟩
    cases hf : (List.range 16).find? fun n => ngxTolower c == hexChar n with
    | none =>
      have hno := List.find?_eq_none.mp hf n (List.mem_range.mpr hlt)
      exact absurd (beq_iff_eq.mpr hc) hno
    | some m =>
      have hm := List.find?_some hf
      have hm' : ngxTolower c = hexChar m := by simpa using hm
      rw [hinj m (List.mem_range.mp (List.mem_of_find?_eq_some hf)) n hlt (hm'.symm.trans hc)]

/-- A pair of digits is one byte. -/
theorem hexPair_byte {hi lo : Nat} (hhi : hi < 16) (hlo : lo < 16) {b : UInt8} :
    UInt8.ofNat (hi <<< 4 ||| lo) = b ↔ hi = b.toNat / 16 ∧ lo = b.toNat % 16 := by
  have hsum : hi <<< 4 ||| lo = 16 * hi + lo := by
    rw [← Nat.shiftLeft_add_eq_or_of_lt (show lo < 2 ^ 4 from hlo), Nat.shiftLeft_eq]
    omega
  have hlt := b.toNat_lt
  rw [hsum, ← UInt8.toNat_inj, UInt8.toNat_ofNat']
  omega

/-- The loop reads exactly the digits of a key. -/
theorem hexPairs_eq_some {n : Nat} {name key : Bytes} (hlen : name.length = 2 * n) :
    hexPairs name = some key ↔ name.map ngxTolower = hexName key := by
  induction n generalizing name key with
  | zero =>
    obtain rfl := List.eq_nil_of_length_eq_zero hlen
    cases key with
    | nil => simp [hexPairs, hexName]
    | cons b key => simp [hexPairs, hexName, hexByte]
  | succ n ih =>
    match name, hlen with
    | [], hlen => exact absurd hlen (by simp)
    | [_], hlen => exact absurd hlen (by simp; omega)
    | hi :: lo :: p, hlen =>
      have hp : p.length = 2 * n := by
        simp only [List.length_cons] at hlen
        omega
      have hunfold : hexPairs (hi :: lo :: p) = some key ↔
          ∃ h, hexDigit hi = some h ∧ ∃ l, hexDigit lo = some l ∧ ∃ rest, hexPairs p = some rest ∧
            UInt8.ofNat (h <<< 4 ||| l) :: rest = key := by
        rw [hexPairs]
        simp only [Option.bind_eq_bind, Option.bind_eq_some_iff, Option.pure_def, Option.some.injEq]
      rw [hunfold]
      cases key with
      | nil =>
        simp [hexName]
      | cons b key =>
        have hcons : hexName (b :: key) =
            hexChar (b.toNat / 16) :: hexChar (b.toNat % 16) :: hexName key := rfl
        rw [hcons, List.map_cons, List.map_cons, List.cons.injEq, List.cons.injEq, ← ih hp]
        have hlt := b.toNat_lt
        constructor
        · rintro ⟨h, hh, l, hl, rest, hrest, hkey⟩
          obtain ⟨hh16, hhc⟩ := hexDigit_eq_some.mp hh
          obtain ⟨hl16, hlc⟩ := hexDigit_eq_some.mp hl
          obtain ⟨hb, rfl⟩ := List.cons.inj hkey
          obtain ⟨rfl, rfl⟩ := (hexPair_byte hh16 hl16).mp hb
          exact ⟨hhc, hlc, hrest⟩
        · rintro ⟨hhc, hlc, hrest⟩
          refine ⟨b.toNat / 16, hexDigit_eq_some.mpr ⟨by omega, hhc⟩, b.toNat % 16,
            hexDigit_eq_some.mpr ⟨by omega, hlc⟩, key, hrest, ?_⟩
          rw [(hexPair_byte (by omega) (by omega)).mpr ⟨rfl, rfl⟩]

/-- `filename_key` gives the key that the path names, and otherwise none. -/
theorem filenameKey_eq_some {path key : Bytes} :
    filenameKey path = some key ↔ NamesKey path key := by
  unfold NamesKey
  have hdef : filenameKey path =
      if (baseName path).length ≠ 2 * cacheKeyLen then none else hexPairs (baseName path) := rfl
  rw [hdef]
  split
  · next hne =>
    refine ⟨(nomatch ·), fun ⟨hlen, hname⟩ => absurd ?_ hne⟩
    have hl := congrArg List.length hname
    rwa [List.length_map, hexName_length, hlen] at hl
  · next hlen =>
    rw [not_not] at hlen
    rw [hexPairs_eq_some hlen]
    refine ⟨fun h => ⟨?_, h⟩, fun h => h.2⟩
    have hl := congrArg List.length h
    rw [List.length_map, hexName_length, hlen] at hl
    omega

theorem hexName_tolower (key : Bytes) : (hexName key).map ngxTolower = hexName key := by
  have hchar : ∀ n < 16, ngxTolower (hexChar n) = hexChar n := by decide +kernel
  induction key with
  | nil => rfl
  | cons b key ih =>
    have hcons : hexName (b :: key) =
        hexChar (b.toNat / 16) :: hexChar (b.toNat % 16) :: hexName key := rfl
    have hlt := b.toNat_lt
    rw [hcons, List.map_cons, List.map_cons, ih, hchar _ (by omega), hchar _ (by omega)]

/-- `filename_key` inverts the naming of nginx, in any directory. -/
theorem filenameKey_hexName {dir key : Bytes} (hdir : dir = [] ∨ dir.getLast? = some 47)
    (hkey : key.length = cacheKeyLen) : filenameKey (dir ++ hexName key) = some key := by
  have hchar : ∀ n < 16, hexChar n ≠ 47 := by decide +kernel
  have hslash : (47 : UInt8) ∉ hexName key := by
    intro h
    obtain ⟨b, -, hb⟩ := List.mem_flatMap.mp h
    have hlt := b.toNat_lt
    rcases List.mem_cons.mp hb with hb | hb
    · exact hchar (b.toNat / 16) (by omega) hb.symm
    · exact hchar (b.toNat % 16) (by omega) (List.mem_singleton.mp hb).symm
  rw [filenameKey_eq_some]
  refine ⟨hkey, ?_⟩
  rw [baseName_append hdir hslash, hexName_tolower]

/-! ## The tree -/

/-- The node is the one of the key. -/
def CacheTreeNode.IsFor (x : CacheTreeNode) (key : Bytes) : Prop :=
  x.key = littleEndian (key.take rbtreeKeyLen) ∧ x.rest = key.drop rbtreeKeyLen

/-- The order of nginx: by the first word of the key, then by `memcmp` of the rest. -/
def CacheTreeNode.Before (x y : CacheTreeNode) : Prop :=
  x.key < y.key ∨ x.key = y.key ∧ ngxMemcmp x.rest y.rest (cacheKeyLen - rbtreeKeyLen) < 0

/-- A tree of cache nodes as nginx keeps it: a node of its own for each key, in
order. -/
structure NginxTree (t : BinaryTree CacheTreeNode) : Prop where
  keys : ∀ x ∈ inorder t, ∃ key : Bytes, key.length = cacheKeyLen ∧ x.IsFor key
  ordered : (inorder t).Pairwise CacheTreeNode.Before
  addrs : ((inorder t).map CacheTreeNode.addr).Nodup

/-- The order as the one of a search tree. -/
def treeOrder (key : Nat) (rest : Bytes) : Nat ×ₗ List Nat := toLex (key, codes rest)

def CacheTreeNode.order (x : CacheTreeNode) : Nat ×ₗ List Nat := treeOrder x.key x.rest

/-- On strings of one length, `ngx_memcmp` is negative exactly below in the order. -/
theorem ngxMemcmp_eq {a b : Bytes} {n : Nat} (ha : a.length = n) (hb : b.length = n) :
    ngxMemcmp a b n = ngxMemn2cmp a b := by
  unfold ngxMemn2cmp
  simp [ha, hb]

theorem treeOrder_lt {k k' n : Nat} {a b : Bytes} (ha : a.length = n) (hb : b.length = n) :
    treeOrder k a < treeOrder k' b ↔ k < k' ∨ k = k' ∧ ngxMemcmp a b n < 0 := by
  unfold treeOrder
  rw [Prod.Lex.toLex_lt_toLex, ngxMemcmp_eq ha hb, ngxMemn2cmp_neg]

theorem treeOrder_inj {k k' : Nat} {a b : Bytes} :
    treeOrder k a = treeOrder k' b ↔ k = k' ∧ a = b := by
  unfold treeOrder
  rw [toLex_inj, Prod.mk.injEq, codes_injective.eq_iff]

variable {t : BinaryTree CacheTreeNode} {key : Bytes} {a : Addr}

theorem NginxTree.length_rest (h : NginxTree t) {x : CacheTreeNode} (hx : x ∈ inorder t) :
    x.rest.length = cacheKeyLen - rbtreeKeyLen := by
  obtain ⟨key, hlen, -, hrest⟩ := h.keys x hx
  rw [hrest, List.length_drop, hlen]

theorem NginxTree.sorted (h : NginxTree t) : Sorted CacheTreeNode.order t :=
  h.ordered.imp_of_mem fun hx hy hlt => (treeOrder_lt (h.length_rest hx) (h.length_rest hy)).mpr hlt

/-- The descent of `lookup` is the lookup of a search tree. -/
theorem lookupNode_eq (hrest : ∀ x ∈ inorder t, x.rest.length = cacheKeyLen - rbtreeKeyLen)
    (hkey : key.length = cacheKeyLen) : lookupNode key t =
      (find? CacheTreeNode.order
        (treeOrder (littleEndian (key.take rbtreeKeyLen)) (key.drop rbtreeKeyLen)) t).map
        CacheTreeNode.addr := by
  induction t with
  | nil => rfl
  | node fcn l r ihl ihr =>
    have hdrop : (key.drop rbtreeKeyLen).length = cacheKeyLen - rbtreeKeyLen := by
      rw [List.length_drop, hkey]
    have hfcn : fcn.rest.length = cacheKeyLen - rbtreeKeyLen := hrest fcn (by simp)
    have hl := ihl fun x hx => hrest x (by simp [hx])
    have hr := ihr fun x hx => hrest x (by simp [hx])
    have hlt : treeOrder (littleEndian (key.take rbtreeKeyLen)) (key.drop rbtreeKeyLen) <
          treeOrder fcn.key fcn.rest ↔ littleEndian (key.take rbtreeKeyLen) < fcn.key ∨
        littleEndian (key.take rbtreeKeyLen) = fcn.key ∧
          ngxMemcmp (key.drop rbtreeKeyLen) fcn.rest (cacheKeyLen - rbtreeKeyLen) < 0 :=
      treeOrder_lt hdrop hfcn
    have heq : treeOrder (littleEndian (key.take rbtreeKeyLen)) (key.drop rbtreeKeyLen) =
          treeOrder fcn.key fcn.rest ↔
        littleEndian (key.take rbtreeKeyLen) = fcn.key ∧ key.drop rbtreeKeyLen = fcn.rest :=
      treeOrder_inj
    have hzero : ngxMemcmp (key.drop rbtreeKeyLen) fcn.rest (cacheKeyLen - rbtreeKeyLen) = 0 ↔
        key.drop rbtreeKeyLen = fcn.rest := by
      rw [ngxMemcmp_eq hdrop hfcn, ngxMemn2cmp_eq_zero]
    have hgt : treeOrder fcn.key fcn.rest <
          treeOrder (littleEndian (key.take rbtreeKeyLen)) (key.drop rbtreeKeyLen) ↔
        ¬ treeOrder (littleEndian (key.take rbtreeKeyLen)) (key.drop rbtreeKeyLen) <
            treeOrder fcn.key fcn.rest ∧
          ¬ treeOrder (littleEndian (key.take rbtreeKeyLen)) (key.drop rbtreeKeyLen) =
            treeOrder fcn.key fcn.rest := by
      rw [← not_le, le_iff_lt_or_eq, not_or]
    unfold lookupNode find?
    simp only [hl, hr, CacheTreeNode.order, hgt, hlt, heq, ← hzero]
    rcases lt_trichotomy (littleEndian (key.take rbtreeKeyLen)) fcn.key with h | h | h
    · simp [h]
    · simp only [h, lt_irrefl, if_false, true_and, false_or]
      rcases lt_trichotomy (ngxMemcmp (key.drop rbtreeKeyLen) fcn.rest (cacheKeyLen - rbtreeKeyLen)) 0
        with h' | h' | h'
      · simp [h', ne_of_lt h']
      · simp [h']
      · simp [not_lt_of_gt h', ne_of_gt h']
    · simp [h, not_lt_of_gt h, ne_of_gt h]

/-- `lookup` finds the node of the key, if there is one. -/
theorem lookupNode_eq_some (ht : NginxTree t) (hkey : key.length = cacheKeyLen) :
    lookupNode key t = some a ↔ ∃ x ∈ inorder t, x.IsFor key ∧ x.addr = a := by
  rw [lookupNode_eq (fun x hx => ht.length_rest hx) hkey, Option.map_eq_some_iff]
  simp only [find?_eq_some ht.sorted]
  constructor
  · rintro ⟨x, ⟨hx, ho⟩, ha⟩
    exact ⟨x, hx, treeOrder_inj.mp ho, ha⟩
  · rintro ⟨x, hx, hfor, ha⟩
    exact ⟨x, ⟨hx, treeOrder_inj.mpr hfor⟩, ha⟩

/-! ## The purge of one path -/

variable {L : HeaderLayout} {calls : FileCalls} {c : FileCache} {path : Bytes}

/-- A node behind `mark_node_deleted`. -/
def CacheNode.deleted (n : CacheNode) : CacheNode :=
  { n with fsSize := 0, present := false, updating := false }

/-- A node behind `soft_path`. -/
def CacheNode.expired (n : CacheNode) : CacheNode := { n with validSec := 0 }

/-- What `delete_cache_file` does before it unlinks the file. -/
def markPath (path : Bytes) (c : FileCache) : FileCache :=
  match c.pathNode path with
  | some a => if (c.node a).present then markNodeDeleted c a else c
  | none => c

/-- What `soft_path` does behind the header of the file. -/
def expirePath (path : Bytes) (c : FileCache) : FileCache :=
  match c.pathNode path with
  | some a => if (c.node a).present then c.setNode a (c.node a).expired else c
  | none => c

@[simp] theorem markPath_disk (path : Bytes) (c : FileCache) : (markPath path c).disk = c.disk := by
  unfold markPath
  split
  · split
    · rfl
    · rfl
  · rfl

@[simp] theorem expirePath_disk (path : Bytes) (c : FileCache) : (expirePath path c).disk = c.disk := by
  unfold expirePath
  split
  · split
    · rfl
    · rfl
  · rfl

theorem deleteCacheFile_eq (calls : FileCalls) (path : Bytes) (c : FileCache) :
    deleteCacheFile calls path c =
      if calls.info = false then (.error, c)
      else if c.disk path = none then (.declined, c)
      else if calls.deletes = false then (.error, markPath path c)
      else (if calls.vanishes then .declined else .ok, (markPath path c).setFile path none) := by
  unfold deleteCacheFile markPath
  cases calls.info with
  | false => rfl
  | true =>
    cases c.disk path with
    | none => rfl
    | some data =>
      cases calls.deletes with
      | false => rfl
      | true => cases calls.vanishes <;> rfl

/-- The header of a file is no node. -/
theorem softHeader_eq (L : HeaderLayout) (calls : FileCalls) (path : Bytes) (c : FileCache) :
    ∃ disk, (softHeader L calls path c).2 = { c with disk := disk } := by
  unfold softHeader
  split
  · exact ⟨c.disk, rfl⟩
  · split
    · exact ⟨c.disk, rfl⟩
    · simp only
      split
      · exact ⟨c.disk, rfl⟩
      · split
        · exact ⟨c.disk, rfl⟩
        · split
          · exact ⟨c.disk, rfl⟩
          · exact ⟨_, rfl⟩

theorem softPath_ok {L : HeaderLayout} {calls : FileCalls} (h : (softHeader L calls path c).1 = .ok) :
    softPath L calls path c = (.ok, expirePath path (softHeader L calls path c).2) := by
  unfold softPath expirePath
  cases hr : softHeader L calls path c with | mk rc c' =>
  rw [hr] at h
  simp only at h
  subst h
  simp only
  cases c'.pathNode path with
  | none => rfl
  | some a => cases hp : (c'.node a).present <;> simp [hp, CacheNode.expired]

theorem softPath_failed {L : HeaderLayout} {calls : FileCalls}
    (h : (softHeader L calls path c).1 ≠ .ok) : softPath L calls path c = softHeader L calls path c := by
  unfold softPath
  split
  · next hr =>
    rw [hr] at h
    exact absurd rfl h
  · next hr =>
    rw [hr]

/-- The path names this node of the cache, which is there. -/
structure Names (c : FileCache) (path : Bytes) (x : CacheTreeNode) : Prop where
  member : x ∈ inorder c.tree
  key : ∃ key, NamesKey path key ∧ x.IsFor key
  present : (c.node x.addr).present = true

/-- This node alone has changed, and how. -/
structure ChangesNode (c c' : FileCache) (x : CacheTreeNode) (change : CacheNode → CacheNode) :
    Prop where
  tree : c'.tree = c.tree
  own : c'.node x.addr = change (c.node x.addr)
  other : ∀ a, a ≠ x.addr → c'.node a = c.node a
  others : ∀ y ∈ inorder c.tree, y ≠ x → c'.node y.addr = c.node y.addr

/-- No node has changed. -/
def KeepsNodes (c c' : FileCache) : Prop := c'.tree = c.tree ∧ c'.node = c.node

/-- A path names a key when its base name has the right length and only digits. -/
theorem exists_namesKey : (∃ key, NamesKey path key) ↔
    (baseName path).length = 2 * cacheKeyLen ∧ ∀ d ∈ baseName path, hexDigit d ≠ none := by
  constructor
  · rintro ⟨key, hlen, hname⟩
    have hl := congrArg List.length hname
    rw [List.length_map, hexName_length, hlen] at hl
    refine ⟨hl, fun d hd hnone => ?_⟩
    have hmem : ngxTolower d ∈ hexName key := hname ▸ List.mem_map_of_mem hd
    obtain ⟨b, -, hb⟩ := List.mem_flatMap.mp hmem
    have hlt := b.toNat_lt
    rcases List.mem_cons.mp hb with hb | hb
    · rw [hexDigit_eq_some.mpr ⟨by omega, hb⟩] at hnone
      exact nomatch hnone
    · rw [hexDigit_eq_some.mpr ⟨by omega, List.mem_singleton.mp hb⟩] at hnone
      exact nomatch hnone
  · rintro ⟨hlen, hdigits⟩
    -- two digits at a time make a byte of the key
    have hread : ∀ (n : Nat) (name : Bytes), name.length = 2 * n → (∀ d ∈ name, hexDigit d ≠ none) →
        ∃ key, hexPairs name = some key := by
      intro n
      induction n with
      | zero =>
        intro name hname _
        rw [List.eq_nil_of_length_eq_zero hname]
        exact ⟨[], rfl⟩
      | succ n ih =>
        intro name hname hall
        match name, hname with
        | [], hname => exact absurd hname (by simp)
        | [_], hname => exact absurd hname (by simp; omega)
        | hi :: lo :: p, hname =>
          have hp : p.length = 2 * n := by
            simp only [List.length_cons] at hname
            omega
          obtain ⟨key, hkey⟩ := ih p hp fun d hd => hall d (by simp [hd])
          obtain ⟨h, hh⟩ := Option.ne_none_iff_exists'.mp (hall hi (by simp))
          obtain ⟨l, hl⟩ := Option.ne_none_iff_exists'.mp (hall lo (by simp))
          exact ⟨UInt8.ofNat (h <<< 4 ||| l) :: key, by simp [hexPairs, hh, hl, hkey]⟩
    obtain ⟨key, hkey⟩ := hread cacheKeyLen (baseName path) hlen hdigits
    refine ⟨key, filenameKey_eq_some.mp ?_⟩
    rw [← hkey]
    exact if_neg (not_not.mpr hlen)

theorem pathNode_eq_some (ht : NginxTree c.tree) :
    c.pathNode path = some a ↔
      ∃ x ∈ inorder c.tree, (∃ key, NamesKey path key ∧ x.IsFor key) ∧ x.addr = a := by
  unfold FileCache.pathNode
  rw [Option.bind_eq_some_iff]
  constructor
  · rintro ⟨key, hkey, hnode⟩
    have hnames := filenameKey_eq_some.mp hkey
    obtain ⟨x, hx, hfor, ha⟩ := (lookupNode_eq_some ht hnames.1).mp hnode
    exact ⟨x, hx, ⟨key, hnames, hfor⟩, ha⟩
  · rintro ⟨x, hx, ⟨key, hnames, hfor⟩, ha⟩
    exact ⟨key, filenameKey_eq_some.mpr hnames, (lookupNode_eq_some ht hnames.1).mpr ⟨x, hx, hfor, ha⟩⟩

/-- The node of a path, changed if it is there: by the name of the path, that one
node and no other. -/
theorem changesNode_of_names (ht : NginxTree c.tree) {x : CacheTreeNode} (hx : Names c path x)
    (change : CacheNode → CacheNode) {c' : FileCache}
    (hc' : c' = match c.pathNode path with
      | some a => if (c.node a).present then c.setNode a (change (c.node a)) else c
      | none => c) : ChangesNode c c' x change := by
  have hnode : c.pathNode path = some x.addr :=
    (pathNode_eq_some ht).mpr ⟨x, hx.member, hx.key, rfl⟩
  simp only [hnode, hx.present, if_true] at hc'
  have hother : ∀ a, a ≠ x.addr → c'.node a = c.node a := by
    intro a ha
    rw [hc']
    exact Function.update_of_ne ha _ _
  refine ⟨by rw [hc']; rfl, by rw [hc']; exact Function.update_self _ _ _, hother, ?_⟩
  intro y hy hne
  exact hother y.addr fun ha => hne (List.inj_on_of_nodup_map ht.addrs hy hx.member ha)

/-- A path that names no node that is there changes none. -/
theorem unchanged_of_not_names (ht : NginxTree c.tree) (hno : ∀ x, ¬ Names c path x)
    (change : Addr → FileCache) :
    (match c.pathNode path with
      | some a => if (c.node a).present then change a else c
      | none => c) = c := by
  cases hnode : c.pathNode path with
  | none => rfl
  | some a =>
    obtain ⟨x, hx, hkey, rfl⟩ := (pathNode_eq_some ht).mp hnode
    refine if_neg fun hp => hno x ⟨hx, hkey, hp⟩

theorem not_names_of_baseName
    (h : (baseName path).length ≠ 2 * cacheKeyLen ∨ (∃ d ∈ baseName path, hexDigit d = none) ∨
      (∀ x, ¬ Names c path x)) : ∀ x, ¬ Names c path x := by
  rcases h with hlen | ⟨d, hd, hdigit⟩ | hno
  · intro x hx
    obtain ⟨key, hkey, -⟩ := hx.key
    exact hlen (exists_namesKey.mp ⟨key, hkey⟩).1
  · intro x hx
    obtain ⟨key, hkey, -⟩ := hx.key
    exact (exists_namesKey.mp ⟨key, hkey⟩).2 d hd hdigit
  · exact hno

/-! ## `delete_cache_file` -/

theorem deleteCacheFile_changes (ht : NginxTree c.tree) {x : CacheTreeNode} (hx : Names c path x)
    (hinfo : calls.info = true) (hdisk : c.disk path ≠ none) :
    ChangesNode c (deleteCacheFile calls path c).2 x CacheNode.deleted := by
  have hmark := changesNode_of_names ht hx CacheNode.deleted rfl
  rw [deleteCacheFile_eq, if_neg (by simp [hinfo]), if_neg hdisk]
  have hnode : c.pathNode path = some x.addr :=
    (pathNode_eq_some ht).mpr ⟨x, hx.member, hx.key, rfl⟩
  simp only [hnode, hx.present, if_true] at hmark
  have hpath : markPath path c = markNodeDeleted c x.addr := by
    unfold markPath
    simp only [hnode, hx.present, if_true]
  rw [hpath]
  split
  · exact ⟨hmark.tree, hmark.own, hmark.other, hmark.others⟩
  · exact ⟨hmark.tree, hmark.own, hmark.other, hmark.others⟩

theorem deleteCacheFile_keeps (calls : FileCalls) (ht : NginxTree c.tree)
    (hnames : ∀ x, ¬ Names c path x) : KeepsNodes c (deleteCacheFile calls path c).2 := by
  have hmark : markPath path c = c := unchanged_of_not_names ht hnames (markNodeDeleted c)
  rw [deleteCacheFile_eq, hmark]
  split
  · exact ⟨rfl, rfl⟩
  · split
    · exact ⟨rfl, rfl⟩
    · split
      · exact ⟨rfl, rfl⟩
      · exact ⟨rfl, rfl⟩

/-- A file that cannot be looked at, or is not there, leaves everything as it is. -/
theorem deleteCacheFile_missed (h : ¬ (calls.info = true ∧ c.disk path ≠ none)) :
    (deleteCacheFile calls path c).2 = c := by
  rw [deleteCacheFile_eq]
  cases hinfo : calls.info with
  | false => rfl
  | true =>
    have hnone : c.disk path = none := by
      by_contra hdisk
      exact h ⟨hinfo, hdisk⟩
    rw [hnone]
    rfl

/-! ## `soft_path` -/

theorem softPath_changes (ht : NginxTree c.tree) {x : CacheTreeNode} (hx : Names c path x)
    (hok : (softHeader L calls path c).1 = .ok) :
    ChangesNode c (softPath L calls path c).2 x CacheNode.expired := by
  obtain ⟨disk, hheader⟩ := softHeader_eq L calls path c
  rw [softPath_ok hok, hheader]
  have hx' : Names { c with disk := disk } path x := ⟨hx.member, hx.key, hx.present⟩
  have hexp : ChangesNode { c with disk := disk } (expirePath path { c with disk := disk }) x
      CacheNode.expired :=
    changesNode_of_names (c := { c with disk := disk }) ht hx' CacheNode.expired rfl
  exact ⟨hexp.tree, hexp.own, hexp.other, hexp.others⟩

theorem softPath_failed_keeps (h : (softHeader L calls path c).1 ≠ .ok) :
    KeepsNodes c (softPath L calls path c).2 := by
  obtain ⟨disk, hheader⟩ := softHeader_eq L calls path c
  rw [softPath_failed h, hheader]
  exact ⟨rfl, rfl⟩

theorem softPath_keeps (L : HeaderLayout) (calls : FileCalls) (ht : NginxTree c.tree)
    (hnames : ∀ x, ¬ Names c path x) : KeepsNodes c (softPath L calls path c).2 := by
  obtain ⟨disk, hheader⟩ := softHeader_eq L calls path c
  by_cases hok : (softHeader L calls path c).1 = .ok
  · have hexp : expirePath path { c with disk := disk } = { c with disk := disk } :=
      unchanged_of_not_names (c := { c with disk := disk }) ht
        (fun x hx => hnames x ⟨hx.member, hx.key, hx.present⟩) _
    rw [softPath_ok hok, hheader, hexp]
    exact ⟨rfl, rfl⟩
  · exact softPath_failed_keeps hok

/-- The purge of a path changes the node that the path names, if that is there, and
nothing about the others: `delete_cache_file` when it finds the file, `soft_path` when
it has written the header. -/
theorem purge_changes_named_node (L : HeaderLayout) (calls : FileCalls) (path : Bytes) (c : FileCache)
    (ht : NginxTree c.tree) :
    (∀ x, Names c path x →
      (calls.info = true ∧ c.disk path ≠ none →
        ChangesNode c (deleteCacheFile calls path c).2 x CacheNode.deleted) ∧
      ((softHeader L calls path c).1 = .ok →
        ChangesNode c (softPath L calls path c).2 x CacheNode.expired)) ∧
    ((baseName path).length ≠ 2 * cacheKeyLen ∨ (∃ d ∈ baseName path, hexDigit d = none) ∨
        (∀ x, ¬ Names c path x) →
      KeepsNodes c (deleteCacheFile calls path c).2 ∧ KeepsNodes c (softPath L calls path c).2) ∧
    (¬ (calls.info = true ∧ c.disk path ≠ none) → (deleteCacheFile calls path c).2 = c) ∧
    ((softHeader L calls path c).1 ≠ .ok → KeepsNodes c (softPath L calls path c).2) ∧
    ∀ dir key, (dir = [] ∨ dir.getLast? = some 47) → key.length = cacheKeyLen →
      filenameKey (dir ++ hexName key) = some key := by
  refine ⟨fun x hx => ⟨fun ⟨hinfo, hdisk⟩ => ?_, fun hok => ?_⟩, fun hno => ?_, deleteCacheFile_missed,
    softPath_failed_keeps, fun dir key hdir hkey => filenameKey_hexName hdir hkey⟩
  · exact deleteCacheFile_changes ht hx hinfo hdisk
  · exact softPath_changes ht hx hok
  · have hnames := not_names_of_baseName hno
    exact ⟨deleteCacheFile_keeps calls ht hnames, softPath_keeps L calls ht hnames⟩

/-- Two keys with one first word. -/
def collidingTree : BinaryTree CacheTreeNode :=
  .node ⟨0, [0, 0, 0, 0, 0, 0, 0, 1], 0⟩ .nil (.node ⟨0, [0, 0, 0, 0, 0, 0, 0, 2], 1⟩ .nil .nil)

def collidingCache : FileCache :=
  ⟨fun _ => some [], collidingTree, fun _ => ⟨true, false, 1, 1, 0⟩, 2⟩

theorem collidingTree_nginx : NginxTree collidingTree where
  keys x hx := by
    have hin : inorder collidingTree =
        [⟨0, [0, 0, 0, 0, 0, 0, 0, 1], 0⟩, ⟨0, [0, 0, 0, 0, 0, 0, 0, 2], 1⟩] := rfl
    rw [hin] at hx
    rcases List.mem_cons.mp hx with rfl | hx
    · exact ⟨List.replicate 8 0 ++ [0, 0, 0, 0, 0, 0, 0, 1], rfl, rfl, rfl⟩
    · obtain rfl := List.mem_singleton.mp hx
      exact ⟨List.replicate 8 0 ++ [0, 0, 0, 0, 0, 0, 0, 2], rfl, rfl, rfl⟩
  ordered := by
    refine List.pairwise_cons.mpr ⟨fun y hy => ?_, List.pairwise_singleton _ _⟩
    obtain rfl := List.mem_singleton.mp hy
    exact Or.inr ⟨rfl, by decide⟩
  addrs := by decide

/-- The key of its second node. -/
def collidingKey : Bytes := List.replicate 15 0 ++ [2]

theorem purge_changes_named_node_sample :
    ChangesNode collidingCache (deleteCacheFile .works (47 :: hexName collidingKey) collidingCache).2
      ⟨0, [0, 0, 0, 0, 0, 0, 0, 2], 1⟩ CacheNode.deleted :=
  ((purge_changes_named_node .reference .works (47 :: hexName collidingKey) collidingCache
    collidingTree_nginx).1 ⟨0, [0, 0, 0, 0, 0, 0, 0, 2], 1⟩
      ⟨List.mem_cons_of_mem _ (List.mem_singleton_self _),
        ⟨collidingKey, ⟨rfl, by decide +kernel⟩, rfl, rfl⟩, rfl⟩).1 ⟨rfl, nofun⟩

end CachePilot
