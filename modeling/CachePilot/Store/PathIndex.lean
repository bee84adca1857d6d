import CachePilot.Store.PathTree

/-!
# The path index

The path tree and the file queue of a zone list the same file blocks. Nodes may
be keyed by either hash of their path, because a zone can outlive the nginx that
filled it.
-/

namespace CachePilot
open NgxString SearchTree

/-- The node of the file block `fa` in the path tree. -/
def pathNode (file : Addr → ShmFile) (fa : Addr) : RbNode := ⟨(file fa).pathKey, (file fa).path, fa⟩

/-- The path tree `t` holds the nodes of the queued `files`, one per path. -/
structure PathInv (N : Nginx) (t : BinaryTree RbNode) (files : List Addr) (file : Addr → ShmFile) :
    Prop where
  sorted : TreeSorted t
  nodes : (inorder t).Perm (files.map (pathNode file))
  hash : ∀ fa ∈ files,
    (file fa).pathKey = N.pathHash (file fa).path ∨ (file fa).pathKey = N.pathHashLegacy (file fa).path
  paths : (files.map fun fa => (file fa).path).Nodup

namespace PathInv

variable {N : Nginx} {t : BinaryTree RbNode} {files : List Addr} {file file' : Addr → ShmFile}

theorem nil : PathInv N .nil [] file where
  sorted := sorted_nil
  nodes := List.Perm.refl _
  hash := by simp
  paths := by simp

theorem files_nodup (h : PathInv N t files file) : files.Nodup := List.Nodup.of_map _ h.paths

theorem file_unique (h : PathInv N t files file) {fa fb : Addr} (ha : fa ∈ files) (hb : fb ∈ files)
    (hp : (file fa).path = (file fb).path) : fa = fb :=
  List.inj_on_of_nodup_map h.paths ha hb hp

theorem mem_nodes (h : PathInv N t files file) {n : RbNode} :
    n ∈ inorder t ↔ ∃ fa ∈ files, pathNode file fa = n := by
  rw [h.nodes.mem_iff, List.mem_map]

/-- Only the hash and the path of the queued files matter. -/
theorem congr (h : PathInv N t files file)
    (he : ∀ fa ∈ files, (file' fa).pathKey = (file fa).pathKey ∧ (file' fa).path = (file fa).path) :
    PathInv N t files file' := by
  have hn : files.map (pathNode file') = files.map (pathNode file) :=
    List.map_congr_left fun fa hfa => by simp [pathNode, he fa hfa]
  have hp : (files.map fun fa => (file' fa).path) = files.map fun fa => (file fa).path :=
    List.map_congr_left fun fa hfa => (he fa hfa).2
  refine ⟨h.sorted, hn ▸ h.nodes, ?_, hp ▸ h.paths⟩
  intro fa hfa
  rw [(he fa hfa).1, (he fa hfa).2]
  exact h.hash fa hfa

/-- The tree has one node for each path, that of the queued file. -/
theorem tree (h : PathInv N t files file) : TwoHashTree N t where
  sorted := h.sorted
  hash := by
    intro n hn
    obtain ⟨fa, hfa, rfl⟩ := h.mem_nodes.mp hn
    exact h.hash fa hfa
  unique := by
    intro n hn m hm hs
    obtain ⟨fa, hfa, rfl⟩ := h.mem_nodes.mp hn
    obtain ⟨fb, hfb, rfl⟩ := h.mem_nodes.mp hm
    rw [h.file_unique hfa hfb hs]

/-- `lookup_file` finds exactly the queued file of the path, under either hash. -/
theorem lookupFile_some {zone : ShmZone} (h : PathInv N zone.pathIndex zone.files file)
    {path : Bytes} {fa : Addr} :
    lookupFile N zone path = some fa ↔ fa ∈ zone.files ∧ (file fa).path = path := by
  rw [h.tree.lookupFile_some]
  constructor
  · rintro ⟨n, hn, hpath, rfl⟩
    obtain ⟨fb, hfb, rfl⟩ := h.mem_nodes.mp hn
    exact ⟨hfb, hpath⟩
  · rintro ⟨hfa, hpath⟩
    exact ⟨pathNode file fa, h.mem_nodes.mpr ⟨fa, hfa, rfl⟩, hpath, rfl⟩

theorem lookupFile_none {zone : ShmZone} (h : PathInv N zone.pathIndex zone.files file)
    {path : Bytes} :
    lookupFile N zone path = none ↔ ∀ fa ∈ zone.files, (file fa).path ≠ path := by
  rw [Option.eq_none_iff_forall_ne_some]
  constructor
  · intro hn fa hfa hp
    exact hn fa (h.lookupFile_some.mpr ⟨hfa, hp⟩)
  · intro hn fa hl
    exact hn fa (h.lookupFile_some.mp hl).1 (h.lookupFile_some.mp hl).2

/-- A file of a new path joins the queue at its tail. -/
theorem add (h : PathInv N t files file) {fa : Addr} {f : ShmFile} (hfa : fa ∉ files)
    (hp : ∀ fb ∈ files, (file fb).path ≠ f.path) (hk : f.pathKey = N.pathHash f.path) :
    PathInv N (N.rbtreeInsert ⟨f.pathKey, f.path, fa⟩ t) (files ++ [fa])
      (Function.update file fa f) := by
  have hold : ∀ fb ∈ files, Function.update file fa f fb = file fb := fun fb hfb =>
    Function.update_of_ne (fun he : fb = fa => hfa (he ▸ hfb)) _ _
  have h' : PathInv N t files (Function.update file fa f) := h.congr fun fb hfb => by
    rw [hold fb hfb]
    exact ⟨rfl, rfl⟩
  refine ⟨?_, ?_, ?_, ?_⟩
  · refine N.sorted_rbtreeInsert h.sorted fun n hn => ?_
    obtain ⟨fb, hfb, rfl⟩ := h.mem_nodes.mp hn
    exact fun he => hp fb hfb he.2
  · refine (N.inorder_rbtreeInsert_perm _ _).trans ((h'.nodes.cons _).trans ?_)
    rw [List.map_append, List.map_singleton]
    have hnode : pathNode (Function.update file fa f) fa = ⟨f.pathKey, f.path, fa⟩ := by
      simp [pathNode]
    rw [hnode]
    exact (List.perm_append_singleton _ _).symm
  · intro fb hfb
    rcases List.mem_append.mp hfb with hfb | hfb
    · exact h'.hash fb hfb
    · rw [List.mem_singleton.mp hfb, Function.update_self]
      exact Or.inl hk
  · rw [List.map_append, List.map_singleton, Function.update_self]
    refine List.Nodup.append h'.paths (List.nodup_singleton _) ?_
    rw [List.disjoint_singleton]
    intro hm
    obtain ⟨fb, hfb, he⟩ := List.mem_map.mp hm
    rw [hold fb hfb] at he
    exact hp fb hfb he

/-- A file leaves the tree and the queue. -/
theorem drop (h : PathInv N t files file) {fa : Addr} (hfa : fa ∈ files) :
    PathInv N (N.rbtreeDelete (pathNode file fa) t) (files.erase fa) file := by
  refine ⟨N.sorted_rbtreeDelete h.sorted, ?_, fun fb hfb => h.hash fb (List.mem_of_mem_erase hfb),
    h.paths.sublist (List.erase_sublist.map _)⟩
  rw [N.inorder_rbtreeDelete]
  refine (h.nodes.erase _).trans ?_
  have hp : (files.map (pathNode file)).Perm (pathNode file fa :: (files.erase fa).map (pathNode file)) :=
    (List.perm_cons_erase hfa).map _
  exact (hp.erase _).trans (by rw [List.erase_cons_head])

end PathInv

end CachePilot
