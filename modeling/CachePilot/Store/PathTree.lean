import CachePilot.Store.Index

/-!
# Path trees across two hashes

The nodes of a path tree are keyed by the hash that the nginx of their insertion had
for a path, so a tree that outlives an nginx holds nodes under either of two hashes.
`lookup_file` probes the tree under the current one and then under the other one.

`PathRun` says which trees the insertions and deletions of a zone can lead to, with the
file that each path stands for.
-/

namespace CachePilot
open NgxString SearchTree

variable {N : Nginx} {t t' : BinaryTree RbNode} {node : RbNode} {zone : ShmZone} {path : Bytes}
  {fa : Addr}

/-! ## One node for each path -/

/-- A sorted tree with one node for each path, under either hash of it. -/
structure TwoHashTree (N : Nginx) (t : BinaryTree RbNode) : Prop where
  sorted : TreeSorted t
  hash : ∀ n ∈ inorder t, n.key = N.pathHash n.str ∨ n.key = N.pathHashLegacy n.str
  unique : ∀ n ∈ inorder t, ∀ m ∈ inorder t, n.str = m.str → n = m

namespace TwoHashTree

theorem nil : TwoHashTree N .nil where
  sorted := sorted_nil
  hash := by simp
  unique := by simp

/-- A new shape of the tree does not matter. -/
theorem of_inorder (h : TwoHashTree N t) (ht : inorder t' = inorder t) : TwoHashTree N t' where
  sorted := h.sorted.of_sublist (by rw [ht])
  hash := by
    rw [ht]
    exact h.hash
  unique := by
    rw [ht]
    exact h.unique

/-- A node of a new path is put where the search for it ends. -/
theorem insert (h : TwoHashTree N t) (hnew : ∀ m ∈ inorder t, m.str ≠ node.str)
    (hkey : node.key = N.pathHash node.str ∨ node.key = N.pathHashLegacy node.str) :
    TwoHashTree N (insertGeneric node t) := by
  rw [insertGeneric_eq]
  have hmem : ∀ {n : RbNode}, n ∈ inorder (SearchTree.insert RbNode.order node t) →
      n = node ∨ n ∈ inorder t := mem_inorder_insert.mp
  refine ⟨sorted_insert h.sorted fun m hm he => ?_, fun n hn => ?_, fun n hn m hm hs => ?_⟩
  · exact hnew m hm (nodeOrder_inj.mp he).2
  · rcases hmem hn with rfl | hn
    · exact hkey
    · exact h.hash n hn
  · rcases hmem hn with hn | hn
    · rcases hmem hm with hm | hm
      · exact hn.trans hm.symm
      · exact absurd (hn ▸ hs.symm) (hnew m hm)
    · rcases hmem hm with hm | hm
      · exact absurd (hm ▸ hs) (hnew n hn)
      · exact h.unique n hn m hm hs

theorem erase (h : TwoHashTree N t) (ht : inorder t' = (inorder t).erase node) :
    TwoHashTree N t' := by
  have hsub : (inorder t').Sublist (inorder t) := by
    rw [ht]
    exact List.erase_sublist
  exact ⟨h.sorted.of_sublist hsub, fun n hn => h.hash n (hsub.subset hn),
    fun n hn m hm => h.unique n (hsub.subset hn) m (hsub.subset hm)⟩

theorem paths_nodup (h : TwoHashTree N t) : ((inorder t).map RbNode.str).Nodup := by
  refine List.Nodup.map_on (fun n hn m hm hs => ?_) (sorted_nodup h.sorted)
  exact h.unique n hn m hm hs

/-- What a probe under one hash finds is the node of the path. -/
theorem lookup_node (h : TwoHashTree N zone.pathIndex) {n m : RbNode} {hash : UInt32}
    (hl : lookupGeneric hash path zone.pathIndex = some n) (hm : m ∈ inorder zone.pathIndex)
    (hpath : m.str = path) : n = m := by
  obtain ⟨hn, -, hs⟩ := (lookupGeneric_eq_some h.sorted).mp hl
  exact h.unique n hn m hm (hs.trans hpath.symm)

/-- `lookup_file` finds exactly the node of the path, under either hash. -/
theorem lookupFile_some (h : TwoHashTree N zone.pathIndex) :
    lookupFile N zone path = some fa ↔
      ∃ n ∈ inorder zone.pathIndex, n.str = path ∧ n.addr = fa := by
  have hfound : ∀ {hash : UInt32} {n : RbNode},
      lookupGeneric hash path zone.pathIndex = some n →
      n ∈ inorder zone.pathIndex ∧ n.str = path := fun hl =>
    have hn := (lookupGeneric_eq_some h.sorted).mp hl
    ⟨hn.1, hn.2.2⟩
  unfold lookupFile
  simp only
  cases hl : lookupGeneric (N.pathHash path) path zone.pathIndex with
  | some n =>
    simp only [Option.some.injEq]
    constructor
    · rintro rfl
      exact ⟨n, (hfound hl).1, (hfound hl).2, rfl⟩
    · rintro ⟨m, hm, hpath, rfl⟩
      rw [h.lookup_node hl hm hpath]
  | none =>
    -- a node of this path is keyed by the other hash, since the first probe missed it
    have hlegacy : ∀ m ∈ inorder zone.pathIndex, m.str = path →
        m.key = N.pathHashLegacy path ∧ N.pathHashLegacy path ≠ N.pathHash path := by
      intro m hm hpath
      have hne : m.key ≠ N.pathHash path := fun hk =>
        (lookupGeneric_eq_none h.sorted).mp hl m hm ⟨hk, hpath⟩
      have hk : m.key = N.pathHashLegacy path := by
        rcases h.hash m hm with hk | hk
        · exact absurd (hpath ▸ hk) hne
        · exact hpath ▸ hk
      exact ⟨hk, fun he => hne (hk.trans he)⟩
    simp only
    split
    · next he =>
      refine iff_of_false (nomatch ·) ?_
      rintro ⟨m, hm, hpath, -⟩
      exact (hlegacy m hm hpath).2 he
    · rw [Option.map_eq_some_iff]
      constructor
      · rintro ⟨n, hn, rfl⟩
        exact ⟨n, (hfound hn).1, (hfound hn).2, rfl⟩
      · rintro ⟨m, hm, hpath, rfl⟩
        refine ⟨m, (lookupGeneric_eq_some h.sorted).mpr ⟨hm, ?_, hpath⟩, rfl⟩
        exact (hlegacy m hm hpath).1

end TwoHashTree

/-! ## Runs -/

/-- The path trees that insertions of absent paths, each under either hash, deletions
and rebalancings lead to, with the file that each path was inserted for. -/
inductive PathRun (N : Nginx) : (Bytes → Option Addr) → BinaryTree RbNode → Prop
  | nil : PathRun N (fun _ => none) .nil
  | insert {present : Bytes → Option Addr} {t : BinaryTree RbNode} (node : RbNode)
      (h : PathRun N present t) (habsent : present node.str = none)
      (hkey : node.key = N.pathHash node.str ∨ node.key = N.pathHashLegacy node.str) :
      PathRun N (Function.update present node.str (some node.addr)) (insertGeneric node t)
  | delete {present : Bytes → Option Addr} {t t' : BinaryTree RbNode} (node : RbNode)
      (h : PathRun N present t) (hnode : node ∈ inorder t)
      (ht : inorder t' = (inorder t).erase node) :
      PathRun N (Function.update present node.str none) t'
  | rebalance {present : Bytes → Option Addr} {t t' : BinaryTree RbNode} (h : PathRun N present t)
      (ht : inorder t' = inorder t) : PathRun N present t'

namespace PathRun

variable {present : Bytes → Option Addr}

/-- Every step keeps one node for each path, that of the file which the path stands
for. -/
theorem spec (h : PathRun N present t) :
    TwoHashTree N t ∧
      ∀ p a, present p = some a ↔ ∃ n ∈ inorder t, n.str = p ∧ n.addr = a := by
  induction h with
  | nil => exact ⟨.nil, fun p a => iff_of_false (nomatch ·) (by simp)⟩
  | @insert present t node h habsent hkey ih =>
    obtain ⟨htree, hpresent⟩ := ih
    have hnew : ∀ m ∈ inorder t, m.str ≠ node.str := by
      intro m hm hs
      have hsome := (hpresent node.str m.addr).mpr ⟨m, hm, hs, rfl⟩
      exact nomatch habsent.symm.trans hsome
    refine ⟨htree.insert hnew hkey, fun p a => ?_⟩
    rw [insertGeneric_eq]
    rcases eq_or_ne p node.str with rfl | hp
    · rw [Function.update_self, Option.some.injEq]
      constructor
      · rintro rfl
        exact ⟨node, mem_inorder_insert.mpr (Or.inl rfl), rfl, rfl⟩
      · rintro ⟨n, hn, hs, rfl⟩
        rcases mem_inorder_insert.mp hn with rfl | hn
        · rfl
        · exact absurd hs (hnew n hn)
    · rw [Function.update_of_ne hp, hpresent]
      constructor
      · rintro ⟨n, hn, hs, ha⟩
        exact ⟨n, mem_inorder_insert.mpr (Or.inr hn), hs, ha⟩
      · rintro ⟨n, hn, hs, ha⟩
        rcases mem_inorder_insert.mp hn with rfl | hn
        · exact absurd hs.symm hp
        · exact ⟨n, hn, hs, ha⟩
  | @delete present t t' node h hnode ht ih =>
    obtain ⟨htree, hpresent⟩ := ih
    have hmem : ∀ {n : RbNode}, n ∈ inorder t' ↔ n ≠ node ∧ n ∈ inorder t := by
      intro n
      rw [ht, (sorted_nodup htree.sorted).mem_erase_iff]
    refine ⟨htree.erase ht, fun p a => ?_⟩
    rcases eq_or_ne p node.str with rfl | hp
    · rw [Function.update_self]
      refine iff_of_false (nomatch ·) ?_
      rintro ⟨n, hn, hs, -⟩
      exact (hmem.mp hn).1 (htree.unique n (hmem.mp hn).2 node hnode hs)
    · rw [Function.update_of_ne hp, hpresent]
      constructor
      · rintro ⟨n, hn, hs, ha⟩
        exact ⟨n, hmem.mpr ⟨fun he => hp (he ▸ hs.symm), hn⟩, hs, ha⟩
      · rintro ⟨n, hn, hs, ha⟩
        exact ⟨n, (hmem.mp hn).2, hs, ha⟩
  | rebalance h ht ih =>
    refine ⟨ih.1.of_inorder ht, ?_⟩
    rw [ht]
    exact ih.2

/-- `lookup_file` gives the file that a path stands for. -/
theorem lookupFile_eq (h : PathRun N present zone.pathIndex) (path : Bytes) :
    lookupFile N zone path = present path := by
  obtain ⟨htree, hpresent⟩ := h.spec
  refine Option.ext fun a => ?_
  rw [htree.lookupFile_some, hpresent]

end PathRun

end CachePilot
