import CachePilot.Conf.TagHeaders
import CachePilot.Purge.Request
import Mathlib.Data.Prod.Lex

/-!
# What a worker sets up

`ngx_http_cache_index_init_runtime` puts the registered zones in a tree by the address of
their cache, and opens the index once: the reader of the worker is its writer too. A
request looks up its cache in the tree and asks for the reader.

Results:
* `lookup_zone_registered`: from the configuration to the lookup;
* `run_agrees`: a worker that may write the index reads it through the same handle.
-/

namespace CachePilot
open NgxString SearchTree

/-! ## The tree of zones -/

/-- `ngx_http_cache_index_zone_index_t`: its key in the tree, the address of the cache of
its zone, and the number of the zone. -/
structure ZoneIndex where
  key : Nat
  cache : Nat
  zone : Nat
deriving DecidableEq, Repr

/-- `ngx_http_cache_index_zone_insert`, up to the colours. -/
def zoneInsert (node : ZoneIndex) : BinaryTree ZoneIndex → BinaryTree ZoneIndex
  | .nil => .node node .nil .nil
  | .node temp left right =>
    if node.key < temp.key then .node temp (zoneInsert node left) right
    else if temp.key < node.key then .node temp left (zoneInsert node right)
    else if node.cache < temp.cache then .node temp (zoneInsert node left) right
    else .node temp left (zoneInsert node right)

/-- `ngx_http_cache_index_lookup_zone_index`. -/
def lookupZoneIndex (cache : Nat) : BinaryTree ZoneIndex → Option ZoneIndex
  | .nil => none
  | .node node left right =>
    if cache < node.key then lookupZoneIndex cache left
    else if node.key < cache then lookupZoneIndex cache right
    else if node.cache = cache then some node
    else if cache < node.cache then lookupZoneIndex cache left
    else lookupZoneIndex cache right

/-- The loop of `ngx_http_cache_index_runtime_init_zones`, from zone number `i` on; `pool i`
is the allocation of its node. -/
def initZonesLoop (B : Balancing ZoneIndex) (pool : Nat → Bool) :
    Nat → List (Nat × List Bytes) → BinaryTree ZoneIndex → Option (BinaryTree ZoneIndex)
  | _, [], tree => some tree
  | i, zone :: zones, tree =>
    if !pool i then none
    else initZonesLoop B pool (i + 1) zones (B.balance (zoneInsert ⟨zone.1, zone.1, i⟩ tree))

/-- `ngx_http_cache_index_runtime_init_zones`. -/
def runtimeInitZones (B : Balancing ZoneIndex) (pool : Nat → Bool) (main : MainConf) :
    Option (BinaryTree ZoneIndex) :=
  initZonesLoop B pool 0 main.zones .nil

/-- `ngx_http_cache_index_lookup_zone`. -/
def lookupIndexedZone (main : MainConf) (tree : BinaryTree ZoneIndex) (cache : Nat) :
    Option (Nat × List Bytes) :=
  (lookupZoneIndex cache tree).bind fun index => main.zones[index.zone]?

variable {main : MainConf} {node : ZoneIndex} {t t' : BinaryTree ZoneIndex} {cache : Nat}
  {B : Balancing ZoneIndex} {pool : Nat → Bool} {zones : List (Nat × List Bytes)}

/-- The order of the tree. -/
def ZoneIndex.order (node : ZoneIndex) : Nat ×ₗ Nat := toLex (node.key, node.cache)

theorem ZoneIndex.order_lt {node temp : ZoneIndex} :
    node.order < temp.order ↔ node.key < temp.key ∨ node.key = temp.key ∧ node.cache < temp.cache := by
  unfold ZoneIndex.order
  rw [Prod.Lex.toLex_lt_toLex]

theorem zoneInsert_eq (node : ZoneIndex) (t : BinaryTree ZoneIndex) :
    zoneInsert node t = SearchTree.insert ZoneIndex.order node t := by
  induction t with
  | nil => rfl
  | node temp left right ihl ihr =>
    unfold zoneInsert SearchTree.insert
    rw [ihl, ihr]
    rcases Nat.lt_trichotomy node.key temp.key with hlt | heq | hgt
    · rw [if_pos hlt, if_pos (ZoneIndex.order_lt.mpr (Or.inl hlt))]
    · rw [if_neg (Nat.not_lt_of_le (Nat.le_of_eq heq.symm)), if_neg (Nat.not_lt_of_le (Nat.le_of_eq heq))]
      have hcache : node.order < temp.order ↔ node.cache < temp.cache := by
        rw [ZoneIndex.order_lt, or_iff_right (heq ▸ Nat.lt_irrefl _), and_iff_right heq]
      split
      · next h => rw [if_pos (hcache.mpr h)]
      · next h => rw [if_neg (mt hcache.mp h)]
    · have hno : ¬ node.order < temp.order := by
        rw [ZoneIndex.order_lt]
        rintro (hlt | ⟨heq, -⟩)
        · exact Nat.lt_asymm hlt hgt
        · exact Nat.lt_irrefl _ (heq ▸ hgt)
      rw [if_neg (Nat.lt_asymm hgt), if_pos hgt, if_neg hno]

/-- A node of the tree is keyed by its cache. -/
def Keyed (t : BinaryTree ZoneIndex) : Prop := ∀ node ∈ inorder t, node.key = node.cache

theorem lookupZoneIndex_eq (hkeyed : Keyed t) (cache : Nat) :
    lookupZoneIndex cache t = SearchTree.find? ZoneIndex.order (toLex (cache, cache)) t := by
  induction t with
  | nil => rfl
  | node node left right ihl ihr =>
    have hkey : node.key = node.cache := hkeyed node (by simp)
    have hbelow : toLex (cache, cache) < node.order ↔ cache < node.key := by
      unfold ZoneIndex.order
      rw [Prod.Lex.toLex_lt_toLex]
      refine ⟨fun h => h.elim id fun h => hkey ▸ h.2, Or.inl⟩
    have habove : node.order < toLex (cache, cache) ↔ node.key < cache := by
      unfold ZoneIndex.order
      rw [Prod.Lex.toLex_lt_toLex]
      refine ⟨fun h => h.elim id fun h => hkey ▸ h.2, Or.inl⟩
    unfold lookupZoneIndex SearchTree.find?
    rw [ihl fun x hx => hkeyed x (by simp [hx]), ihr fun x hx => hkeyed x (by simp [hx])]
    rcases Nat.lt_trichotomy cache node.key with hlt | heq | hgt
    · rw [if_pos hlt, if_pos (hbelow.mpr hlt)]
    · have hnl : ¬ cache < node.key := Nat.not_lt_of_le (Nat.le_of_eq heq.symm)
      have hng : ¬ node.key < cache := Nat.not_lt_of_le (Nat.le_of_eq heq)
      rw [if_neg hnl, if_neg hng, if_neg (mt hbelow.mp hnl), if_neg (mt habove.mp hng),
        if_pos (hkey.symm.trans heq.symm)]
    · rw [if_neg (Nat.lt_asymm hgt), if_pos hgt, if_neg (mt hbelow.mp (Nat.lt_asymm hgt)),
        if_pos (habove.mpr hgt)]

/-- The tree holds a node for each zone in front of number `i`, and for no other. -/
structure Holds (zones : List (Nat × List Bytes)) (i : Nat) (t : BinaryTree ZoneIndex) : Prop where
  sorted : Sorted ZoneIndex.order t
  keyed : Keyed t
  nodes : ∀ node, node ∈ inorder t ↔
    node.zone < i ∧ ∃ headers, zones[node.zone]? = some (node.cache, headers) ∧ node.key = node.cache

/-- A turn of the loop. -/
theorem Holds.insert {i : Nat} (h : Holds zones i t) (hdistinct : (zones.map Prod.fst).Nodup)
    {zone : Nat × List Bytes} (hzone : zones[i]? = some zone) (B : Balancing ZoneIndex) :
    Holds zones (i + 1) (B.balance (zoneInsert ⟨zone.1, zone.1, i⟩ t)) := by
  have hmem : ∀ node, node ∈ inorder (B.balance (zoneInsert ⟨zone.1, zone.1, i⟩ t)) ↔
      node = ⟨zone.1, zone.1, i⟩ ∨ node ∈ inorder t := by
    intro node
    rw [B.inorder_balance, zoneInsert_eq, mem_inorder_insert]
  have hfresh : ∀ node ∈ inorder t, node.order ≠ (ZoneIndex.mk zone.1 zone.1 i).order := by
    intro node hnode heq
    obtain ⟨hlt, headers, hown, -⟩ := (h.nodes node).mp hnode
    have hcache : node.cache = zone.1 := (Prod.mk.inj (toLex_inj.mp heq)).2
    have hsame : (zones.map Prod.fst)[node.zone]? = (zones.map Prod.fst)[i]? := by
      rw [List.getElem?_map, List.getElem?_map, hown, hzone]
      exact congrArg some hcache
    have hlen : node.zone < (zones.map Prod.fst).length := by
      rw [List.length_map]
      exact (List.getElem?_eq_some_iff.mp hown).1
    exact absurd (List.getElem?_inj hlen hdistinct |>.mp hsame) (Nat.ne_of_lt hlt)
  refine ⟨?_, fun node hnode => ?_, fun node => ?_⟩
  · refine (sorted_insert h.sorted hfresh).of_sublist ?_
    rw [B.inorder_balance, zoneInsert_eq]
  · rcases (hmem node).mp hnode with rfl | hnode
    · rfl
    · exact h.keyed node hnode
  · rw [hmem, h.nodes]
    constructor
    · rintro (rfl | ⟨hlt, hown⟩)
      · exact ⟨Nat.lt_succ_self i, zone.2, hzone, rfl⟩
      · exact ⟨Nat.lt_succ_of_lt hlt, hown⟩
    · rintro ⟨hlt, headers, hown, hkey⟩
      rcases Nat.lt_or_eq_of_le (Nat.le_of_lt_succ hlt) with hlt | rfl
      · exact Or.inr ⟨hlt, headers, hown, hkey⟩
      · obtain rfl := Option.some.inj (hzone.symm.trans hown)
        obtain ⟨key, cache, number⟩ := node
        exact Or.inl (congrArg (ZoneIndex.mk · cache number) hkey)

/-- The loop puts in the zones that are left. -/
theorem initZonesLoop_holds {i : Nat} {left : List (Nat × List Bytes)} (hdistinct : (zones.map Prod.fst).Nodup)
    (hleft : zones.drop i = left) (h : Holds zones i t)
    (hrun : initZonesLoop B pool i left t = some t') : Holds zones zones.length t' := by
  induction left generalizing i t with
  | nil =>
    have hle : zones.length ≤ i := List.drop_eq_nil_iff.mp hleft
    obtain rfl := Option.some.inj hrun
    refine ⟨h.sorted, h.keyed, fun node => (h.nodes node).trans ?_⟩
    refine and_congr_left fun ⟨headers, hown, _⟩ => ?_
    have hlt := (List.getElem?_eq_some_iff.mp hown).1
    exact iff_of_true (hlt.trans_le hle) hlt
  | cons zone left ih =>
    have hzone : zones[i]? = some zone := by
      rw [← List.head?_drop, hleft]
      rfl
    have hrest : zones.drop (i + 1) = left := by
      rw [← List.tail_drop, hleft]
      rfl
    unfold initZonesLoop at hrun
    split at hrun
    · exact nomatch hrun
    · exact ih hrest (h.insert hdistinct hzone B) hrun

theorem runtimeInitZones_holds (hdistinct : (main.zones.map Prod.fst).Nodup)
    (h : runtimeInitZones B pool main = some t) : Holds main.zones main.zones.length t := by
  refine initZonesLoop_holds hdistinct rfl ⟨sorted_nil, fun node hnode => (nomatch hnode), fun node => ?_⟩ h
  exact iff_of_false (nomatch ·) fun hlt => Nat.not_lt_zero _ hlt.1

/-! ## From the configuration to the lookup -/

/-- A zone is registered once. -/
theorem registerAll_distinct {calls : List RegisterCall} {main' : MainConf}
    (hdistinct : (main.zones.map Prod.fst).Nodup) (h : registerAll main calls = .ok main') :
    (main'.zones.map Prod.fst).Nodup := by
  induction calls generalizing main with
  | nil =>
    obtain rfl := Except.ok.inj h
    exact hdistinct
  | cons call calls ih =>
    rw [registerAll_cons] at h
    cases hcall : registerCache call.pool main call.cache call.headers with
    | error e =>
      rw [hcall] at h
      exact nomatch h
    | ok main1 =>
      rw [hcall] at h
      refine ih ?_ h
      unfold registerCache at hcall
      split at hcall
      · exact Except.ok.inj hcall ▸ hdistinct
      · next cache hcache =>
        split at hcall
        · exact Except.ok.inj hcall ▸ hdistinct
        · split at hcall
          · split at hcall
            · exact Except.ok.inj hcall ▸ hdistinct
            · exact nomatch hcall
          · next hnone =>
            split at hcall
            · obtain rfl := Except.ok.inj hcall
              rw [List.map_append, List.nodup_append]
              refine ⟨hdistinct, List.nodup_singleton _, fun c hc d hd => ?_⟩
              obtain ⟨z, hz, rfl⟩ := List.mem_map.mp hc
              obtain rfl := List.mem_singleton.mp hd
              have hne := List.find?_eq_none.mp hnone z hz
              exact fun heq => hne (beq_iff_eq.mpr heq)
            · exact nomatch hcall

/-- The tree finds the zone that is registered for a cache. -/
theorem lookupIndexedZone_eq (hdistinct : (main.zones.map Prod.fst).Nodup)
    (h : runtimeInitZones B pool main = some t) (cache : Nat) :
    lookupIndexedZone main t cache = main.zones.find? fun z => z.1 == cache := by
  have hholds := runtimeInitZones_holds hdistinct h
  unfold lookupIndexedZone
  rw [lookupZoneIndex_eq hholds.keyed]
  cases hfind : main.zones.find? fun z => z.1 == cache with
  | some z =>
    obtain ⟨i, hi⟩ := List.getElem?_of_mem (List.mem_of_find?_eq_some hfind)
    have hz : (z.1 == cache) = true := List.find?_some (p := fun z : Nat × List Bytes => z.1 == cache) hfind
    obtain rfl : z.1 = cache := beq_iff_eq.mp hz
    have hnode : (⟨z.1, z.1, i⟩ : ZoneIndex) ∈ inorder t :=
      (hholds.nodes _).mpr ⟨(List.getElem?_eq_some_iff.mp hi).1, z.2, hi, rfl⟩
    have hfound : find? ZoneIndex.order (toLex (z.1, z.1)) t = some ⟨z.1, z.1, i⟩ :=
      (find?_eq_some hholds.sorted).mpr ⟨hnode, rfl⟩
    rw [hfound]
    exact hi
  | none =>
    rw [(find?_eq_none hholds.sorted).mpr]
    · rfl
    · intro node hnode heq
      obtain ⟨-, headers, hown, -⟩ := (hholds.nodes node).mp hnode
      have hcache : node.cache = cache := (Prod.mk.inj (toLex_inj.mp heq)).2
      have hne := List.find?_eq_none.mp hfind _ (List.mem_of_getElem? hown)
      exact hne (beq_iff_eq.mpr hcache)

/-- A worker that has set up its tree finds a cache exactly if some location has
registered it, and with the headers of the first one. -/
theorem lookup_zone_registered (B : Balancing ZoneIndex) (pool : Nat → Bool) (calls : List RegisterCall)
    (main : MainConf) (t : BinaryTree ZoneIndex) (hcalls : registerAll ⟨true, []⟩ calls = .ok main)
    (h : runtimeInitZones B pool main = some t) (cache : Nat) :
    lookupIndexedZone main t cache = (firstHeaders calls cache).map fun headers => (cache, headers) := by
  have hnone : ((⟨true, []⟩ : MainConf).zones.map Prod.fst).Nodup := List.nodup_nil
  have hdistinct := registerAll_distinct hnone hcalls
  have hregistered : main.registered cache = firstHeaders calls cache :=
    (registerAll_spec calls rfl hcalls).1 cache
  rw [lookupIndexedZone_eq hdistinct h, ← hregistered]
  unfold MainConf.registered
  cases hfind : main.zones.find? fun z => z.1 == cache with
  | none => rfl
  | some z =>
    have hz : (z.1 == cache) = true := List.find?_some (p := fun z : Nat × List Bytes => z.1 == cache) hfind
    obtain rfl : z.1 = cache := beq_iff_eq.mp hz
    rfl

/-- Two caches, the second of them registered by two locations. -/
theorem lookup_zone_registered_sample :
    let zones : List (Nat × List Bytes) := [(5, [[120]]), (3, [])]
    let tree : BinaryTree ZoneIndex := .node ⟨5, 5, 0⟩ (.node ⟨3, 3, 1⟩ .nil .nil) .nil
    lookupIndexedZone ⟨true, zones⟩ tree 3 =
      (firstHeaders [⟨true, some 5, [[120]]⟩, ⟨true, some 3, []⟩, ⟨true, some 3, []⟩] 3).map
        fun headers => (3, headers) :=
  lookup_zone_registered .plain (fun _ => true)
    [⟨true, some 5, [[120]]⟩, ⟨true, some 3, []⟩, ⟨true, some 3, []⟩] _ _ rfl rfl 3

/-! ## The handles of the index -/

/-- `ngx_http_cache_index_store_runtime_t`; a handle is the block that was opened. -/
structure StoreRuntime where
  reader : Option Nat
  writer : Option Nat
  owner : Bool
deriving DecidableEq, Repr

/-- `ngx_http_cache_index_store_open_reader`; `opened` is what `shm_open` returns. -/
def storeOpenReader (configured : Bool) (opened : Option Nat) : Option Nat :=
  if !configured then none else opened

/-- `ngx_http_cache_index_store_runtime_shutdown`. -/
def StoreRuntime.shutdown : StoreRuntime := ⟨none, none, false⟩

/-- `ngx_http_cache_index_store_runtime_init`. -/
def storeRuntimeInit (configured owner : Bool) (opened : Option Nat) : NgxRc × StoreRuntime :=
  if !configured then (.ok, ⟨none, none, owner⟩)
  else
    match storeOpenReader configured opened with
    | none => (.error, ⟨none, none, owner⟩)
    | some reader => (.ok, ⟨some reader, if owner then some reader else none, owner⟩)

/-- `ngx_http_cache_index_store_reader`: a reader that is missing is opened. -/
def storeReader (configured : Bool) (opened : Option Nat) (rt : StoreRuntime) :
    Option Nat × StoreRuntime :=
  match rt.reader with
  | some reader => (some reader, rt)
  | none =>
    let reader := storeOpenReader configured opened
    (reader, { rt with reader := reader })

/-- What happens to the handles of a worker, under one configuration or another. -/
inductive RuntimeEvent
  | init (configured owner : Bool) (opened : Option Nat)
  | reader (configured : Bool) (opened : Option Nat)
  | shutdown

def StoreRuntime.step (rt : StoreRuntime) : RuntimeEvent → StoreRuntime
  | .init configured owner opened => (storeRuntimeInit configured owner opened).2
  | .reader configured opened => (storeReader configured opened rt).2
  | .shutdown => .shutdown

/-- How a request of the worker reaches the index. -/
def StoreRuntime.access (rt : StoreRuntime) (configured : Bool) (zone : Option Bytes)
    (opened : Option Nat) : IndexAccess :=
  ⟨configured, zone, (storeReader configured opened rt).1.isSome, rt.writer.isSome⟩

/-- A writer that is open is the reader. -/
def StoreRuntime.Agree (rt : StoreRuntime) : Prop := rt.writer.isSome = true → rt.reader = rt.writer

theorem StoreRuntime.Agree.step {rt : StoreRuntime} (h : rt.Agree) (e : RuntimeEvent) :
    (rt.step e).Agree := by
  cases e with
  | init configured owner opened =>
    show (storeRuntimeInit configured owner opened).2.Agree
    unfold storeRuntimeInit
    split
    · exact (nomatch ·)
    · split
      · exact (nomatch ·)
      · cases owner with
        | true => exact fun _ => rfl
        | false => exact (nomatch ·)
  | reader configured opened =>
    show (storeReader configured opened rt).2.Agree
    unfold storeReader
    split
    · exact h
    · next hnone =>
      intro hwriter
      have hsome : rt.reader.isSome = true := (h hwriter).symm ▸ hwriter
      rw [hnone] at hsome
      exact nomatch hsome
  | shutdown => exact (nomatch ·)

theorem StoreRuntime.Agree.run (events : List RuntimeEvent) {rt : StoreRuntime} (h : rt.Agree) :
    (events.foldl StoreRuntime.step rt).Agree := by
  induction events generalizing rt with
  | nil => exact h
  | cons e events ih => exact ih (h.step e)

/-- Whatever has happened to the handles of a worker, its writer is its reader, and no
request gets a handle from the writer that it did not get from the reader. -/
theorem StoreRuntime.run_agrees (events : List RuntimeEvent) (configured : Bool) (zone : Option Bytes)
    (opened : Option Nat) :
    let rt := events.foldl StoreRuntime.step .shutdown
    let access := rt.access configured zone opened
    (∀ writer, rt.writer = some writer → (storeReader configured opened rt).1 = some writer) ∧
      (access.reader || access.writer) = access.reader := by
  intro rt access
  have hagree : rt.Agree := StoreRuntime.Agree.run events (nomatch ·)
  have hsame : ∀ writer, rt.writer = some writer → (storeReader configured opened rt).1 = some writer := by
    intro writer hwriter
    have hreader : rt.reader = some writer := (hagree (by rw [hwriter]; rfl)).trans hwriter
    unfold storeReader
    rw [hreader]
  refine ⟨hsame, ?_⟩
  show ((storeReader configured opened rt).1.isSome || rt.writer.isSome) =
    (storeReader configured opened rt).1.isSome
  cases hwriter : rt.writer with
  | none => exact Bool.or_false _
  | some writer =>
    rw [hsame writer hwriter]
    rfl

end CachePilot
