import CachePilot.Store.Readiness
import CachePilot.Store.Refine

/-!
# The path trees of the store

Every call of the store takes the path trees of its zones one or two steps further in
a `PathRun`, also over an index zone that an nginx with another path hash has filled.

Results:
* `runStore_legacy_pathTrees`: what such an nginx leaves behind are path trees;
* `path_lookup_across_hashes`: `lookup_file` on any of them, and no call of
  `upsert_file_meta` puts a second node for a path into one.
-/

namespace CachePilot
open NgxString SearchTree

variable {N : Nginx} {s s' : Shm} {za fa : Addr}

/-- The path tree of a zone comes from a run, and its nodes are those of the file
blocks. -/
structure PathTreeOk (N : Nginx) (s : Shm) (za : Addr) : Prop where
  run : ∃ present, PathRun N present (s.zone za).pathIndex
  node : ∀ n ∈ inorder (s.zone za).pathIndex, n.addr < s.next ∧ n = pathNode s.file n.addr

/-- The path trees of all zones come from runs. -/
structure PathTrees (N : Nginx) (s : Shm) : Prop where
  zone_lt : ∀ za ∈ s.zones, za < s.next
  tree : ∀ za ∈ s.zones, PathTreeOk N s za

theorem PathTreeOk.paths_nodup (h : PathTreeOk N s za) :
    ((inorder (s.zone za).pathIndex).map RbNode.str).Nodup := by
  obtain ⟨present, hrun⟩ := h.run
  exact hrun.spec.1.paths_nodup

/-- The file that `lookup_file` finds has its node in the tree. -/
theorem PathTreeOk.lookup_node (h : PathTreeOk N s za) {path : Bytes}
    (hl : lookupFile N (s.zone za) path = some fa) :
    pathNode s.file fa ∈ inorder (s.zone za).pathIndex ∧ (s.file fa).path = path := by
  obtain ⟨present, hrun⟩ := h.run
  obtain ⟨n, hn, hpath, rfl⟩ := hrun.spec.1.lookupFile_some.mp hl
  have hnode := (h.node n hn).2
  refine ⟨hnode ▸ hn, ?_⟩
  rw [← hpath, hnode]
  rfl

/-- A step that leaves the tree of a zone and the paths of the files in it alone. -/
theorem PathTreeOk.of_same (h : PathTreeOk N s za)
    (htree : (s'.zone za).pathIndex = (s.zone za).pathIndex)
    (hfile : ∀ fa < s.next, pathNode s'.file fa = pathNode s.file fa) (hnext : s.next ≤ s'.next) :
    PathTreeOk N s' za where
  run := by
    rw [htree]
    exact h.run
  node := by
    rw [htree]
    intro n hn
    obtain ⟨hlt, heq⟩ := h.node n hn
    refine ⟨Nat.lt_of_lt_of_le hlt hnext, ?_⟩
    rw [hfile n.addr hlt]
    exact heq

namespace PathTrees

theorem init : PathTrees N Shm.init where
  zone_lt _ hza := absurd hza List.not_mem_nil
  tree _ hza := absurd hza List.not_mem_nil

/-- A step on the tree of the zone `za` that keeps the other trees and the files that
there are. -/
theorem update (h : PathTrees N s) (za : Addr) (hzones : s'.zones = s.zones)
    (htree : ∀ a ≠ za, (s'.zone a).pathIndex = (s.zone a).pathIndex)
    (hfile : ∀ fa < s.next, pathNode s'.file fa = pathNode s.file fa) (hnext : s.next ≤ s'.next)
    (hown : za ∈ s.zones → PathTreeOk N s' za) : PathTrees N s' where
  zone_lt a ha := by
    rw [hzones] at ha
    exact Nat.lt_of_lt_of_le (h.zone_lt a ha) hnext
  tree a ha := by
    rw [hzones] at ha
    rcases eq_or_ne a za with rfl | hne
    · exact hown ha
    · exact (h.tree a ha).of_same (htree a hne) hfile hnext

theorem keeps (h : PathTrees N s) (hk : KeepsPaths s s') : PathTrees N s' := by
  have hfile : ∀ fa < s.next, pathNode s'.file fa = pathNode s.file fa := fun fa _ => hk.pathNode fa
  exact h.update 0 hk.zones (fun a _ => hk.pathIndex a) hfile hk.next
    fun hz => (h.tree 0 hz).of_same (hk.pathIndex 0) hfile hk.next

theorem touchZoneLocked (h : PathTrees N s) (now : Int) (za : Addr) :
    PathTrees N (CachePilot.touchZoneLocked now za s) := by
  have htree : ∀ a, ((CachePilot.touchZoneLocked now za s).zone a).pathIndex =
      (s.zone a).pathIndex := by
    intro a
    rcases eq_or_ne a za with rfl | ha
    · simp [CachePilot.touchZoneLocked]
    · simp [CachePilot.touchZoneLocked, ha]
  exact h.update za rfl (fun a _ => htree a) (fun _ _ => rfl) (Nat.le_refl _)
    fun hz => (h.tree za hz).of_same (htree za) (fun _ _ => rfl) (Nat.le_refl _)

/-- The deletion of a node that the tree of the zone has; its path is absent then. -/
theorem dropFile (h : PathTrees N s)
    (hnode : za ∈ s.zones → pathNode s.file fa ∈ inorder (s.zone za).pathIndex) :
    PathTrees N (CachePilot.dropFile N za fa s) ∧
      (za ∈ s.zones →
        lookupFile N ((CachePilot.dropFile N za fa s).zone za) (s.file fa).path = none) := by
  have hzone : (CachePilot.dropFile N za fa s).zone = Function.update s.zone za
      { s.zone za with
        pathIndex := N.rbtreeDelete (pathNode s.file fa) (s.zone za).pathIndex
        files := (s.zone za).files.erase fa } := rfl
  have hinorder := N.inorder_rbtreeDelete (pathNode s.file fa) (s.zone za).pathIndex
  have hrun : za ∈ s.zones → ∃ present, PathRun N
      (Function.update present (s.file fa).path none)
      ((CachePilot.dropFile N za fa s).zone za).pathIndex := by
    intro hz
    obtain ⟨present, hrun⟩ := (h.tree za hz).run
    rw [hzone, Function.update_self]
    exact ⟨present, hrun.delete _ (hnode hz) hinorder⟩
  refine ⟨h.update za rfl (fun a ha => ?_) (fun _ _ => rfl) (Nat.le_refl _) fun hz => ?_,
    fun hz => ?_⟩
  · rw [hzone, Function.update_of_ne ha]
  · obtain ⟨present, hrun⟩ := hrun hz
    refine ⟨⟨_, hrun⟩, ?_⟩
    rw [hzone, Function.update_self]
    intro n hn
    refine (h.tree za hz).node n ?_
    rw [hinorder] at hn
    exact List.mem_of_mem_erase hn
  · obtain ⟨present, hrun⟩ := hrun hz
    rw [hrun.lookupFile_eq, Function.update_self]

theorem removeFileLocked (h : PathTrees N s) (za fa : Addr)
    (hnode : za ∈ s.zones → pathNode s.file fa ∈ inorder (s.zone za).pathIndex) :
    PathTrees N (CachePilot.removeFileLocked N za fa s) ∧
      (za ∈ s.zones →
        lookupFile N ((CachePilot.removeFileLocked N za fa s).zone za) (s.file fa).path = none) := by
  obtain ⟨s1, hk, heq⟩ := KeepsPaths.removeFileLocked N za fa s
  rw [heq, ← hk.path fa, ← hk.zones]
  refine (h.keeps hk).dropFile fun hz => ?_
  rw [hk.pathNode fa, hk.pathIndex za]
  exact hnode (hk.zones ▸ hz)

/-- The insertion of `upsert_file_meta`, of a path that the tree does not have. -/
theorem withFile (h : PathTrees N s) {path : Bytes} (key : Bytes) (mtime size : Int)
    (tags : List Bytes) (habsent : za ∈ s.zones → lookupFile N (s.zone za) path = none) :
    PathTrees N (CachePilot.withFile N za path key mtime size tags s) := by
  have hfile : ∀ fa < s.next,
      pathNode (CachePilot.withFile N za path key mtime size tags s).file fa =
        pathNode s.file fa := by
    intro fa hlt
    unfold CachePilot.pathNode
    rw [withFile_file, Function.update_of_ne (Nat.ne_of_lt hlt)]
  refine h.update za rfl (fun a ha => ?_) hfile (Nat.le_succ _) fun hz => ?_
  · simp [CachePilot.withFile, addFile, ha]
  · obtain ⟨present, hrun⟩ := (h.tree za hz).run
    refine ⟨?_, ?_⟩
    · rw [withFile_zone]
      have hnone : present path = none := by
        rw [← hrun.lookupFile_eq path]
        exact habsent hz
      have hinsert := hrun.insert ⟨N.pathHash path, path, s.next⟩ hnone (Or.inl rfl)
      exact ⟨_, hinsert.rebalance (N.rbtree.inorder_balance _)⟩
    · rw [withFile_zone]
      intro n hn
      rcases N.mem_rbtreeInsert.mp hn with rfl | hn
      · refine ⟨Nat.lt_succ_self _, ?_⟩
        unfold CachePilot.pathNode
        rw [withFile_file, Function.update_self]
        rfl
      · obtain ⟨hlt, heq⟩ := (h.tree za hz).node n hn
        refine ⟨Nat.lt_succ_of_lt hlt, ?_⟩
        rw [hfile n.addr hlt]
        exact heq

/-- A new zone starts with an empty path tree. -/
theorem withZone (h : PathTrees N s) (zoneName : Bytes) :
    PathTrees N (CachePilot.withZone zoneName s) where
  zone_lt a ha := by
    rcases List.mem_append.mp ha with ha | ha
    · exact Nat.lt_succ_of_lt (h.zone_lt a ha)
    · rw [List.mem_singleton.mp ha]
      exact Nat.lt_succ_self _
  tree a ha := by
    rcases List.mem_append.mp ha with ha | ha
    · have hne : a ≠ s.next := Nat.ne_of_lt (h.zone_lt a ha)
      refine (h.tree a ha).of_same ?_ (fun _ _ => rfl) (Nat.le_succ _)
      rw [withZone_zone, Function.update_of_ne hne]
    · rw [List.mem_singleton.mp ha]
      have hzone : (CachePilot.withZone zoneName s).zone s.next = .new zoneName := by
        rw [withZone_zone, Function.update_self]
      refine ⟨?_, ?_⟩
      · rw [hzone]
        exact ⟨_, .nil⟩
      · rw [hzone]
        exact fun n hn => absurd hn List.not_mem_nil

/-! ## Calls -/

/-- The path of an upsert is absent from the tree when the new node comes. -/
theorem clearPath (h : PathTrees N s) (za : Addr) (path : Bytes) :
    PathTrees N (CachePilot.clearPath N za path s) ∧
      (za ∈ s.zones → lookupFile N ((CachePilot.clearPath N za path s).zone za) path = none) := by
  unfold CachePilot.clearPath
  cases hl : lookupFile N (s.zone za) path with
  | none => exact ⟨h, fun _ => hl⟩
  | some fa =>
    have hremove := h.removeFileLocked za fa
      fun hz => ((h.tree za hz).lookup_node hl).1
    refine ⟨hremove.1, fun hz => ?_⟩
    rw [← ((h.tree za hz).lookup_node hl).2]
    exact hremove.2 hz

theorem upsertInZone (h : PathTrees N s) (alloc : AllocSite → Bool) (now : Int) (za : Addr)
    (path key : Bytes) (mtime size : Int) (tags : List Bytes) :
    PathTrees N (CachePilot.upsertInZone N alloc now za path key mtime size tags s).2 := by
  obtain ⟨h1, habsent⟩ := h.clearPath za path
  have hz1 : (CachePilot.clearPath N za path s).zones = s.zones :=
    (KeepsStates.clearPath N za path s).zones
  rw [upsertInZone_eq]
  generalize CachePilot.clearPath N za path s = s1 at h1 habsent hz1
  simp only
  cases alloc .file with
  | false => exact h1.keeps (.of_eq rfl rfl rfl (Nat.le_refl _))
  | true =>
    have hfile := h1.withFile key mtime size tags fun hz => habsent (hz1 ▸ hz)
    have hkey := KeepsPaths.linkExactKeyLocked N (alloc .keyEntry) za s1.next
      (CachePilot.withFile N za path key mtime size tags s1)
    -- the unfinished file has its node in the tree when an error path removes it
    have habort : ∀ {s2 : Shm},
        KeepsPaths (CachePilot.withFile N za path key mtime size tags s1) s2 →
        PathTrees N (CachePilot.removeFileLocked N za s1.next s2) := by
      intro s2 hk
      refine ((hfile.keeps hk).removeFileLocked za s1.next fun _ => ?_).1
      rw [hk.pathNode, hk.pathIndex, withFile_zone]
      refine N.mem_rbtreeInsert.mpr (Or.inl ?_)
      unfold CachePilot.pathNode
      rw [withFile_file, Function.update_self]
      rfl
    simp only [if_true]
    split
    · have htags := hkey.trans (.linkTagsLocked N alloc za s1.next 0 tags _)
      split
      · exact (hfile.keeps htags).touchZoneLocked now za
      · exact habort htags
    · exact habort hkey

theorem upsertFileMeta (h : PathTrees N s) (alloc : AllocSite → Bool) (now : Int)
    (zoneName path key : Bytes) (mtime size : Int) (tags : List Bytes) :
    PathTrees N (CachePilot.upsertFileMeta N alloc now zoneName path key mtime size tags s).2 := by
  unfold CachePilot.upsertFileMeta
  rcases getZoneLocked_cases s (alloc .zone) zoneName with ⟨za, -, hg⟩ | ⟨-, -, hg⟩ | ⟨-, -, hg⟩
  · rw [hg]
    exact h.upsertInZone alloc now za path key mtime size tags
  · rw [hg]
    exact (h.withZone zoneName).upsertInZone alloc now s.next path key mtime size tags
  · rw [hg]
    exact h.keeps (.of_eq rfl rfl rfl (Nat.le_refl _))

theorem deleteFile (h : PathTrees N s) (now : Int) (zoneName path : Bytes) :
    PathTrees N (CachePilot.deleteFile N now zoneName path s).2 := by
  unfold CachePilot.deleteFile
  cases lookupZone s zoneName with
  | none => exact h
  | some za =>
    simp only
    cases hl : lookupFile N (s.zone za) path with
    | none => exact h
    | some fa =>
      refine (h.removeFileLocked za fa fun hz => ?_).1.touchZoneLocked now za
      exact ((h.tree za hz).lookup_node hl).1

theorem run (h : PathTrees N s) (op : StoreOp) : PathTrees N (op.run N s).2 := by
  cases op with
  | upsert alloc now zoneName path key mtime size tags =>
    exact h.upsertFileMeta alloc now zoneName path key mtime size tags
  | delete now zoneName path => exact h.deleteFile now zoneName path

end PathTrees

/-! ## Two hashes -/

/-- An nginx that keys its path trees by `crc32_short`. -/
def Nginx.legacy (N : Nginx) : Nginx := { N with crc32Long := N.crc32Short }

theorem PathRun.of_legacy {present : Bytes → Option Addr} {t : BinaryTree RbNode}
    (h : PathRun N.legacy present t) : PathRun N present t := by
  induction h with
  | nil => exact .nil
  | insert node h habsent hkey ih => exact ih.insert node habsent (Or.inr (or_self_iff.mp hkey))
  | delete node h hnode ht ih => exact ih.delete node hnode ht
  | rebalance h ht ih => exact ih.rebalance ht

theorem PathTrees.of_legacy (h : PathTrees N.legacy s) : PathTrees N s where
  zone_lt := h.zone_lt
  tree za hza := by
    obtain ⟨present, hrun⟩ := (h.tree za hza).run
    exact ⟨⟨present, hrun.of_legacy⟩, (h.tree za hza).node⟩

/-- The path trees that calls under either hash leave behind, those of the legacy one
before a reload. -/
theorem runStore_legacy_pathTrees (N : Nginx) (ops ops' : List StoreOp) :
    PathTrees N (ops'.foldl (fun s op => (op.run N s).2) (runStore N.legacy ops)) := by
  have hrun : ∀ (N : Nginx) (ops : List StoreOp) (s : Shm), PathTrees N s →
      PathTrees N (ops.foldl (fun s op => (op.run N s).2) s) := by
    intro N ops
    induction ops with
    | nil => exact fun s h => h
    | cons op ops ih => exact fun s h => ih _ (h.run op)
  exact hrun N ops' _ (hrun N.legacy ops Shm.init .init).of_legacy

/-- On every path tree that a run leads to, `lookup_file` gives the file of each path
that is present and nothing for the others, however the hashes collide; and an upsert
takes path trees to path trees, with one node for each path. -/
theorem path_lookup_across_hashes (N : Nginx) :
    (∀ present t, PathRun N present t → ∀ zone : ShmZone, zone.pathIndex = t →
      ∀ path, lookupFile N zone path = present path) ∧
    ∀ s, PathTrees N s → ∀ alloc now zoneName path key mtime size tags,
      let s' := (upsertFileMeta N alloc now zoneName path key mtime size tags s).2
      PathTrees N s' ∧
        ∀ za ∈ s'.zones, ((inorder (s'.zone za).pathIndex).map RbNode.str).Nodup := by
  refine ⟨?_, ?_⟩
  · rintro present t hrun zone rfl path
    exact hrun.lookupFile_eq path
  · intro s h alloc now zoneName path key mtime size tags s'
    have h' : PathTrees N s' := h.upsertFileMeta alloc now zoneName path key mtime size tags
    exact ⟨h', fun za hza => (h'.tree za hza).paths_nodup⟩

/-- All paths have one legacy hash, which the path `[97]` also has as its current one. -/
def collidingHashes : Nginx where
  crc32Short _ := 1
  crc32Long path := if path = [97] then 1 else 2
  rbtree := .plain

/-- Three paths, the second one keyed by the legacy hash. -/
def mixedTree : BinaryTree RbNode :=
  insertGeneric ⟨2, [99], 3⟩ (insertGeneric ⟨1, [98], 2⟩ (insertGeneric ⟨1, [97], 1⟩ .nil))

/-- The call that indexes a path of the zone `[122]`. -/
def indexPath (path : Bytes) : StoreOp := .upsert (fun _ => true) 1 [122] path [107] 0 0 []

theorem path_lookup_across_hashes_sample :
    (∀ path, lookupFile collidingHashes { (default : ShmZone) with pathIndex := mixedTree } path =
      if path = [99] then some 3 else if path = [98] then some 2
      else if path = [97] then some 1 else none) ∧
    let s' := ((indexPath [98]).run collidingHashes
      (runStore collidingHashes.legacy [indexPath [97], indexPath [98]])).2
    ∀ za ∈ s'.zones, ((inorder (s'.zone za).pathIndex).map RbNode.str).Nodup := by
  obtain ⟨hlookup, hupsert⟩ := path_lookup_across_hashes collidingHashes
  refine ⟨fun path => ?_, ?_⟩
  · have h1 := (PathRun.nil (N := collidingHashes)).insert ⟨1, [97], 1⟩ rfl (Or.inl rfl)
    have h2 := h1.insert ⟨1, [98], 2⟩ rfl (Or.inr rfl)
    have h3 := h2.insert ⟨2, [99], 3⟩ rfl (Or.inl rfl)
    rw [hlookup _ mixedTree h3 _ rfl path]
    simp only [Function.update_apply]
  · exact (hupsert _ (runStore_legacy_pathTrees collidingHashes [indexPath [97], indexPath [98]] [])
      (fun _ => true) 1 [122] [98] [107] 0 0 []).2

end CachePilot
