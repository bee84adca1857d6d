import CachePilot.Store.Queries

/-!
# The store as a map

`IndexMap` says what the index is for: for each zone and path, the key and the
tags that were indexed last. `toMap` reads the map off the index zone, and every
call of the store is a step of the map (`StoreOp.run_step`).
-/

namespace CachePilot
open NgxString SearchTree

variable {N : Nginx} {s s' : Shm}

/-! ## Runs -/

/-- The two calls that change what is indexed, each with what it gets from
outside: the fate of its allocations and the clock. -/
inductive StoreOp
  | upsert (alloc : AllocSite → Bool) (now : Int) (zoneName path key : Bytes) (mtime size : Int)
      (tags : List Bytes)
  | delete (now : Int) (zoneName path : Bytes)

def NulFree (b : Bytes) : Prop := (0 : UInt8) ∉ b

instance (b : Bytes) : Decidable (NulFree b) := inferInstanceAs (Decidable (¬ _))

theorem ngxTolower_ne_zero {s : Bytes} (h : NulFree s) : ∀ c ∈ s, ngxTolower c ≠ 0 :=
  fun c hc h0 => h ((ngxTolower_eq (by decide)).mp h0 ▸ hc)

namespace StoreOp

def run (N : Nginx) : StoreOp → Shm → NgxRc × Shm
  | upsert alloc now zoneName path key mtime size tags =>
    upsertFileMeta N alloc now zoneName path key mtime size tags
  | delete now zoneName path => deleteFile N now zoneName path

/-- The path and the key of the call are C strings. -/
def NulFree : StoreOp → Prop
  | upsert _ _ _ path key _ _ _ => CachePilot.NulFree path ∧ CachePilot.NulFree key
  | delete _ _ path => CachePilot.NulFree path

instance : (op : StoreOp) → Decidable op.NulFree
  | upsert _ _ _ path key _ _ _ =>
    inferInstanceAs (Decidable (CachePilot.NulFree path ∧ CachePilot.NulFree key))
  | delete _ _ path => inferInstanceAs (Decidable (CachePilot.NulFree path))

end StoreOp

/-- The index zone after a sequence of calls. -/
def runStore (N : Nginx) (ops : List StoreOp) : Shm :=
  ops.foldl (fun s op => (op.run N s).2) Shm.init

theorem runStore_concat (N : Nginx) (ops : List StoreOp) (op : StoreOp) :
    runStore N (ops ++ [op]) = (op.run N (runStore N ops)).2 := by
  unfold runStore
  rw [List.foldl_append]
  rfl

/-- Every call keeps the invariant, and no key entry is ever left empty. -/
theorem StoreOp.run_ok (h : ShmOk N s) (ht : AllTight s .key) (op : StoreOp) :
    ShmOk N (op.run N s).2 ∧ AllTight (op.run N s).2 .key := by
  cases op with
  | upsert alloc now zoneName path key mtime size tags =>
    obtain ⟨-, hc, htk, -⟩ := upsertFileMeta_spec h alloc now zoneName path key mtime size tags
    exact ⟨hc.ok, htk ht⟩
  | delete now zoneName path =>
    obtain ⟨-, hc, htk⟩ := deleteFile_spec h now zoneName path
    exact ⟨hc.ok, htk .key ht⟩

theorem runStore_ok (N : Nginx) (ops : List StoreOp) :
    ShmOk N (runStore N ops) ∧ AllTight (runStore N ops) .key := by
  induction ops using List.reverseRecOn with
  | nil => exact ⟨ShmOk.init, fun za hza => absurd hza List.not_mem_nil⟩
  | append_singleton ops op ih =>
    rw [runStore_concat]
    exact StoreOp.run_ok ih.1 ih.2 op

/-- What changes a zone: the calls that change its files, and the commit at the end
of `bootstrap_zone`. -/
inductive ZoneOp
  | store (op : StoreOp)
  | bootstrap (ok : Bool) (now : Int) (zoneName : Bytes)

namespace ZoneOp

def run (N : Nginx) : ZoneOp → Shm → NgxRc × Shm
  | store op, s => op.run N s
  | bootstrap ok now zoneName, s => setZoneState ok now zoneName ⟨true, now, now⟩ s

theorem run_ok (h : ShmOk N s) (op : ZoneOp) : ShmOk N (op.run N s).2 := by
  cases op with
  | store op =>
    cases op with
    | upsert => exact (upsertFileMeta_spec h ..).2.1.ok
    | delete => exact (deleteFile_spec h ..).2.1.ok
  | bootstrap => exact (setZoneState_spec h ..).1.ok

theorem run_tight (h : ShmOk N s) (ht : AllTight s .key) (op : ZoneOp) :
    AllTight (op.run N s).2 .key := by
  cases op with
  | store op => exact (op.run_ok h ht).2
  | bootstrap => exact (setZoneState_spec h ..).2 .key ht

end ZoneOp

/-- The index zone behind a sequence of calls. -/
def runZones (N : Nginx) (ops : List ZoneOp) (s : Shm) : Shm :=
  ops.foldl (fun s op => (op.run N s).2) s

theorem runZones_ok (h : ShmOk N s) (ht : AllTight s .key) (ops : List ZoneOp) :
    ShmOk N (runZones N ops s) ∧ AllTight (runZones N ops s) .key := by
  induction ops generalizing s with
  | nil => exact ⟨h, ht⟩
  | cons op ops ih => exact ih (op.run_ok h) (op.run_tight h ht)

/-! ## The map -/

/-- Zone name to path to what is indexed there. -/
abbrev IndexMap := Bytes → Bytes → Option (Bytes × List Bytes)

namespace IndexMap

def empty : IndexMap := fun _ _ => none

/-- Sets one path of one zone; names that the zone lookup does not tell apart are
one zone. -/
def set (M : IndexMap) (zoneName path : Bytes) (v : Option (Bytes × List Bytes)) : IndexMap :=
  fun z p => if sameZoneName zoneName z = true ∧ p = path then v else M z p

/-- What a call with its return code may do to the map. -/
inductive Step (M : IndexMap) : StoreOp → NgxRc → IndexMap → Prop
  | upserted {alloc now zoneName path key mtime size tags} :
    Step M (.upsert alloc now zoneName path key mtime size tags) .ok
      (M.set zoneName path (some (key, tags)))
  | failed {alloc now zoneName path key mtime size tags M'}
    (h : ∀ z p, ¬ (sameZoneName zoneName z = true ∧ p = path) → M' z p = M z p) :
    Step M (.upsert alloc now zoneName path key mtime size tags) .error M'
  | deleted {now zoneName path} : Step M (.delete now zoneName path) .ok (M.set zoneName path none)

end IndexMap

/-- The map that the index zone stands for. -/
def toMap (s : Shm) : IndexMap := fun z p =>
  ((recordsOf s z).find? fun r => r.path = p).map fun r => (r.key, r.tags)

theorem ShmOk.recordsOf_paths (h : ShmOk N s) (z : Bytes) :
    ((recordsOf s z).map Record.path).Nodup := by
  cases hl : lookupZone s z with
  | none =>
    rw [recordsOf_none hl]
    exact List.nodup_nil
  | some za =>
    rw [recordsOf_some hl]
    unfold records
    rw [List.map_map]
    exact (h.ok za (h.lookupZone_some.mp hl).1).path.paths

theorem find?_record {rs : List Record} (hn : (rs.map Record.path).Nodup) {r : Record}
    (hr : r ∈ rs) : (rs.find? fun r' => r'.path = r.path) = some r := by
  cases hf : rs.find? fun r' => r'.path = r.path with
  | none =>
    have hno := List.find?_eq_none.mp hf r hr
    simp at hno
  | some r' =>
    have hp : r'.path = r.path := by simpa using List.find?_some hf
    rw [List.inj_on_of_nodup_map hn (List.mem_of_find?_eq_some hf) hr hp]

theorem toMap_eq_some (h : ShmOk N s) {z p key : Bytes} {tags : List Bytes} :
    toMap s z p = some (key, tags) ↔ ⟨p, key, tags⟩ ∈ recordsOf s z := by
  unfold toMap
  rw [Option.map_eq_some_iff]
  constructor
  · rintro ⟨r, hf, he⟩
    have hp : r.path = p := by simpa using List.find?_some hf
    obtain ⟨rfl, rfl⟩ := Prod.mk.inj he
    rw [← hp]
    exact List.mem_of_find?_eq_some hf
  · intro hr
    exact ⟨_, find?_record (h.recordsOf_paths z) hr, rfl⟩

/-- The entry of a path is unchanged where its records are. -/
theorem toMap_congr {z p : Bytes}
    (h : (recordsOf s' z).filter (fun r => r.path = p) =
      (recordsOf s z).filter fun r => r.path = p) : toMap s' z p = toMap s z p := by
  unfold toMap
  rw [← List.head?_filter, ← List.head?_filter, h]

theorem filter_otherRecords {rs : List Record} {path p : Bytes} (hp : p ≠ path) :
    (otherRecords rs path).filter (fun r => r.path = p) = rs.filter fun r => r.path = p := by
  unfold otherRecords
  rw [List.filter_filter]
  refine List.filter_congr fun r _ => ?_
  by_cases h : r.path = p <;> simp [h, hp]

theorem Changes.toMap_set {zoneName : Bytes} {rs : List Record}
    (hc : Changes N s s' zoneName rs) (path : Bytes) {v : Option (Bytes × List Bytes)}
    (hv : ((rs.find? fun r => r.path = path).map fun r => (r.key, r.tags)) = v)
    (hrest : ∀ p ≠ path, rs.filter (fun r => r.path = p) =
      (recordsOf s zoneName).filter fun r => r.path = p) :
    toMap s' = (toMap s).set zoneName path v := by
  funext z p
  unfold IndexMap.set
  by_cases hz : sameZoneName zoneName z = true
  · by_cases hp : p = path
    · rw [if_pos ⟨hz, hp⟩, hp, ← hv]
      unfold toMap
      rw [hc.own z hz]
    · rw [if_neg fun h0 => hp h0.2]
      refine toMap_congr ?_
      rw [hc.own z hz, hrest p hp, recordsOf_congr s hz]
  · rw [if_neg fun h0 => hz h0.1]
    exact toMap_congr (by rw [hc.other z hz])

theorem find?_otherRecords (rs : List Record) (path : Bytes) :
    ((otherRecords rs path).find? fun r => r.path = path) = none := by
  rw [List.find?_eq_none]
  intro r hr
  simpa using (mem_otherRecords.mp hr).2

/-- An upsert sets its path, or clears it when it fails. -/
theorem upsertFileMeta_toMap (h : ShmOk N s) (alloc : AllocSite → Bool) (now : Int)
    (zoneName path key : Bytes) (mtime size : Int) (tags : List Bytes) :
    let r := upsertFileMeta N alloc now zoneName path key mtime size tags s
    (r.1 = .ok ∨ r.1 = .error) ∧
      toMap r.2 = (toMap s).set zoneName path (if r.1 = .ok then some (key, tags) else none) := by
  intro r
  obtain ⟨hrc, hc, -⟩ := upsertFileMeta_spec h alloc now zoneName path key mtime size tags
  change r.1 = .ok ∨ r.1 = .error at hrc
  change Changes N s r.2 zoneName (upserted r.1 (recordsOf s zoneName) path key tags) at hc
  refine ⟨hrc, ?_⟩
  unfold upserted at hc
  rcases hrc with hrc | hrc
  · rw [hrc, if_pos rfl] at hc ⊢
    refine hc.toMap_set path (by rw [List.find?_append, find?_otherRecords]; simp) fun p hp => ?_
    rw [List.filter_append, filter_otherRecords hp]
    simp [Ne.symm hp]
  · rw [hrc, if_neg (by decide)] at hc ⊢
    exact hc.toMap_set path (by rw [find?_otherRecords]; rfl) fun p hp => filter_otherRecords hp

/-- A delete clears its path. -/
theorem deleteFile_toMap (h : ShmOk N s) (now : Int) (zoneName path : Bytes) :
    (deleteFile N now zoneName path s).1 = .ok ∧
      toMap (deleteFile N now zoneName path s).2 = (toMap s).set zoneName path none := by
  obtain ⟨hrc, hc, -⟩ := deleteFile_spec h now zoneName path
  exact ⟨hrc, hc.toMap_set path (by rw [find?_otherRecords]; rfl) fun p hp => filter_otherRecords hp⟩

/-- A call of the store is a step of the map. -/
theorem StoreOp.run_step (h : ShmOk N s) (op : StoreOp) :
    (toMap s).Step op (op.run N s).1 (toMap (op.run N s).2) := by
  cases op with
  | upsert alloc now zoneName path key mtime size tags =>
    obtain ⟨hrc, hset⟩ := upsertFileMeta_toMap h alloc now zoneName path key mtime size tags
    change (toMap s).Step _ (upsertFileMeta N alloc now zoneName path key mtime size tags s).1
      (toMap (upsertFileMeta N alloc now zoneName path key mtime size tags s).2)
    rcases hrc with hrc | hrc
    · rw [hset, hrc, if_pos rfl]
      exact .upserted
    · rw [hset, hrc, if_neg (by decide)]
      exact .failed fun z p hzp => if_neg hzp
  | delete now zoneName path =>
    obtain ⟨hrc, hset⟩ := deleteFile_toMap h now zoneName path
    change (toMap s).Step _ (deleteFile N now zoneName path s).1
      (toMap (deleteFile N now zoneName path s).2)
    rw [hrc, hset]
    exact .deleted

end CachePilot
