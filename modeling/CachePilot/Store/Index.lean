import CachePilot.Store.Ops
import Mathlib.Data.List.Nodup
import Mathlib.Data.Prod.Lex

/-!
# One index tree and its queues

The key index and the tag index have one shape: a tree of entries, each with a
queue of items. `IndexInv` relates the tree and the entry blocks to the list of
links that they stand for: pairs of an item and the entry it is linked to, in
the order of linking. The queue of an entry is then a function of the links, so
the two sides of the doubly linked structure cannot disagree.
-/

namespace CachePilot
open NgxString SearchTree

/-! ## The order of the trees -/

/-- The order of the trees: by hash, then by string. -/
def nodeOrder (hash : UInt32) (str : Bytes) : Nat ×ₗ List Nat := toLex (hash.toNat, codes str)

def RbNode.order (n : RbNode) : Nat ×ₗ List Nat := nodeOrder n.key n.str

theorem nodeOrder_lt {h h' : UInt32} {s s' : Bytes} :
    nodeOrder h s < nodeOrder h' s' ↔ h < h' ∨ h = h' ∧ ngxMemn2cmp s s' < 0 := by
  unfold nodeOrder
  rw [Prod.Lex.toLex_lt_toLex, ngxMemn2cmp_neg, UInt32.lt_iff_toNat_lt, UInt32.toNat_inj]

theorem nodeOrder_inj {h h' : UInt32} {s s' : Bytes} :
    nodeOrder h s = nodeOrder h' s' ↔ h = h' ∧ s = s' := by
  unfold nodeOrder
  rw [toLex_inj, Prod.mk.injEq, UInt32.toNat_inj, codes_injective.eq_iff]

theorem eq_of_not_lt {h h' : UInt32} (h1 : ¬ h < h') (h2 : ¬ h' < h) : h = h' := by
  rw [UInt32.lt_iff_toNat_lt] at h1 h2
  exact UInt32.toNat_inj.mp (by omega)

/-- The descent of `insert_generic` is the insertion of a search tree. -/
theorem insertGeneric_eq (node : RbNode) (t : BinaryTree RbNode) :
    insertGeneric node t = SearchTree.insert RbNode.order node t := by
  induction t with
  | nil => rfl
  | node temp l r ihl ihr =>
    have hlt : node.order < temp.order ↔
        node.key < temp.key ∨ node.key = temp.key ∧ ngxMemn2cmp node.str temp.str < 0 := nodeOrder_lt
    simp only [insertGeneric, SearchTree.insert, ihl, ihr, hlt]
    by_cases h1 : node.key < temp.key
    · simp [h1]
    · by_cases h2 : temp.key < node.key
      · have hne : node.key ≠ temp.key := fun he => h1 (he ▸ h2)
        simp [h1, h2, hne]
      · have he : node.key = temp.key := eq_of_not_lt h1 h2
        simp [he]

/-- The descent of `lookup_generic` is the lookup of a search tree. -/
theorem lookupGeneric_eq (hash : UInt32) (needle : Bytes) (t : BinaryTree RbNode) :
    lookupGeneric hash needle t = find? RbNode.order (nodeOrder hash needle) t := by
  induction t with
  | nil => rfl
  | node n l r ihl ihr =>
    have hlt : nodeOrder hash needle < n.order ↔
        hash < n.key ∨ hash = n.key ∧ ngxMemn2cmp needle n.str < 0 := nodeOrder_lt
    have hgt : n.order < nodeOrder hash needle ↔
        ¬ nodeOrder hash needle < n.order ∧ ¬ nodeOrder hash needle = n.order := by
      rw [← not_le, le_iff_lt_or_eq, not_or]
    have heq : nodeOrder hash needle = n.order ↔ hash = n.key ∧ needle = n.str := nodeOrder_inj
    simp only [lookupGeneric, find?, ihl, ihr, hgt, hlt, heq]
    by_cases h1 : hash < n.key
    · simp [h1]
    · by_cases h2 : n.key < hash
      · have hne : hash ≠ n.key := fun he => h1 (he ▸ h2)
        simp [h1, h2, hne]
      · have he : hash = n.key := eq_of_not_lt h1 h2
        by_cases h3 : needle = n.str
        · have h3' : ngxMemn2cmp needle n.str = 0 := (ngxMemn2cmp_eq_zero _ _).mpr h3
          simp [he, h3, (ngxMemn2cmp_eq_zero _ _).mpr]
        · have h3' : ngxMemn2cmp needle n.str ≠ 0 := fun h => h3 ((ngxMemn2cmp_eq_zero _ _).mp h)
          by_cases h4 : ngxMemn2cmp needle n.str < 0
          · simp [he, h3', h4]
          · simp [he, h3, h3', h4]

/-- In-order sorted by hash and string. -/
def TreeSorted (t : BinaryTree RbNode) : Prop := Sorted RbNode.order t

theorem lookupGeneric_eq_some {hash : UInt32} {needle : Bytes} {n : RbNode} {t : BinaryTree RbNode}
    (ht : TreeSorted t) :
    lookupGeneric hash needle t = some n ↔ n ∈ inorder t ∧ n.key = hash ∧ n.str = needle := by
  rw [lookupGeneric_eq, find?_eq_some ht]
  exact and_congr_right fun _ => nodeOrder_inj

theorem lookupGeneric_eq_none {hash : UInt32} {needle : Bytes} {t : BinaryTree RbNode}
    (ht : TreeSorted t) :
    lookupGeneric hash needle t = none ↔ ∀ n ∈ inorder t, ¬ (n.key = hash ∧ n.str = needle) := by
  rw [lookupGeneric_eq, find?_eq_none ht]
  exact forall₂_congr fun _ _ => not_congr nodeOrder_inj

namespace Nginx

variable (N : Nginx)

theorem inorder_rbtreeInsert_perm (n : RbNode) (t : BinaryTree RbNode) :
    (inorder (N.rbtreeInsert n t)).Perm (n :: inorder t) := by
  unfold rbtreeInsert
  rw [N.rbtree.inorder_balance, insertGeneric_eq]
  exact inorder_insert_perm n t

theorem mem_rbtreeInsert {n m : RbNode} {t : BinaryTree RbNode} :
    m ∈ inorder (N.rbtreeInsert n t) ↔ m = n ∨ m ∈ inorder t := by
  rw [(N.inorder_rbtreeInsert_perm n t).mem_iff, List.mem_cons]

theorem sorted_rbtreeInsert {n : RbNode} {t : BinaryTree RbNode} (ht : TreeSorted t)
    (hn : ∀ m ∈ inorder t, ¬ (m.key = n.key ∧ m.str = n.str)) :
    TreeSorted (N.rbtreeInsert n t) := by
  unfold rbtreeInsert TreeSorted Sorted
  rw [N.rbtree.inorder_balance, insertGeneric_eq]
  exact sorted_insert ht fun m hm he => hn m hm (nodeOrder_inj.mp he)

theorem inorder_rbtreeDelete (n : RbNode) (t : BinaryTree RbNode) :
    inorder (N.rbtreeDelete n t) = (inorder t).erase n :=
  N.rbtree.inorder_delete n t

theorem mem_rbtreeDelete {n m : RbNode} {t : BinaryTree RbNode} (ht : TreeSorted t) :
    m ∈ inorder (N.rbtreeDelete n t) ↔ m ≠ n ∧ m ∈ inorder t := by
  rw [inorder_rbtreeDelete, (sorted_nodup ht).mem_erase_iff]

theorem sorted_rbtreeDelete {n : RbNode} {t : BinaryTree RbNode} (ht : TreeSorted t) :
    TreeSorted (N.rbtreeDelete n t) :=
  ht.of_sublist (by rw [inorder_rbtreeDelete]; exact List.erase_sublist)

end Nginx

/-! ## Links -/

/-- Pairs of an item and its entry. -/
abbrev Links := List (Addr × Addr)

/-- The queue of the entry `e`. -/
def queueOf (links : Links) (e : Addr) : List Addr :=
  (links.filter fun l => l.2 = e).map Prod.fst

theorem queueOf_append (links links' : Links) (e : Addr) :
    queueOf (links ++ links') e = queueOf links e ++ queueOf links' e := by
  unfold queueOf
  rw [List.filter_append, List.map_append]

theorem mem_queueOf {links : Links} {e x : Addr} : x ∈ queueOf links e ↔ (x, e) ∈ links := by
  unfold queueOf
  simp only [List.mem_map, List.mem_filter, decide_eq_true_eq]
  constructor
  · rintro ⟨⟨x', e'⟩, ⟨hm, rfl⟩, rfl⟩
    exact hm
  · intro h
    exact ⟨(x, e), ⟨h, rfl⟩, rfl⟩

/-- The links without those of the item `x`. -/
def unlinked (links : Links) (x : Addr) : Links := links.filter fun l => l.1 ≠ x

theorem mem_unlinked {links : Links} {x : Addr} {l : Addr × Addr} :
    l ∈ unlinked links x ↔ l ∈ links ∧ l.1 ≠ x := by
  simp [unlinked]

/-- Unlinking the item `x` takes it out of the queue it is in. -/
theorem queueOf_unlinked {links : Links} (hl : (links.map Prod.fst).Nodup) (x e : Addr) :
    queueOf (unlinked links x) e = (queueOf links e).erase x := by
  have hq : (queueOf links e).Nodup :=
    List.Nodup.sublist (List.filter_sublist.map _) hl
  rw [hq.erase_eq_filter]
  unfold queueOf unlinked
  rw [List.filter_map, List.filter_filter, List.filter_filter]
  congr 1
  refine List.filter_congr fun l _ => ?_
  by_cases hx : l.1 = x <;> simp [hx]

/-- An unlink does not touch the queue of another entry. -/
theorem queueOf_unlinked_of_ne {links : Links} (hl : (links.map Prod.fst).Nodup) {x e e' : Addr}
    (hx : (x, e) ∈ links) (he : e' ≠ e) : queueOf (unlinked links x) e' = queueOf links e' := by
  rw [queueOf_unlinked hl]
  refine List.erase_of_not_mem fun hm => he ?_
  have heq : (x, e') = (x, e) := List.inj_on_of_nodup_map hl (mem_queueOf.mp hm) hx rfl
  exact (Prod.mk.inj heq).2

/-! ## The invariant of an index -/

/-- The tree `t` and the entry blocks `entry` stand for `links`. -/
structure IndexInv (N : Nginx) (t : BinaryTree RbNode) (entry : Addr → ShmEntry) (links : Links) :
    Prop where
  sorted : TreeSorted t
  hash : ∀ n ∈ inorder t, n.key = N.crc32Short n.str
  block : ∀ n ∈ inorder t, entry n.addr = ⟨n.key, n.str, queueOf links n.addr⟩
  addr : ((inorder t).map RbNode.addr).Nodup
  linked : ∀ l ∈ links, l.2 ∈ (inorder t).map RbNode.addr

namespace IndexInv

variable {N : Nginx} {t : BinaryTree RbNode} {entry entry' : Addr → ShmEntry} {links : Links}

theorem nil : IndexInv N .nil entry [] where
  sorted := sorted_nil
  hash := by simp
  block := by simp
  addr := by simp
  linked := by simp

/-- Only the entry blocks of the tree matter. -/
theorem congr (h : IndexInv N t entry links)
    (he : ∀ e ∈ (inorder t).map RbNode.addr, entry' e = entry e) : IndexInv N t entry' links where
  sorted := h.sorted
  hash := h.hash
  block n hn := by rw [he _ (List.mem_map_of_mem hn)]; exact h.block n hn
  addr := h.addr
  linked := h.linked

theorem node_unique (h : IndexInv N t entry links) {n m : RbNode} (hn : n ∈ inorder t)
    (hm : m ∈ inorder t) (ha : n.addr = m.addr) : n = m :=
  List.inj_on_of_nodup_map h.addr hn hm ha

theorem node_of_str (h : IndexInv N t entry links) {n m : RbNode} (hn : n ∈ inorder t)
    (hm : m ∈ inorder t) (hs : n.str = m.str) : n = m :=
  eq_of_key_eq h.sorted hn hm
    (nodeOrder_inj.mpr ⟨by rw [h.hash n hn, h.hash m hm, hs], hs⟩)

/-- The lookup of an entry finds the node of the string. -/
theorem lookup_some (h : IndexInv N t entry links) {str : Bytes} {n : RbNode} :
    lookupGeneric (N.crc32Short str) str t = some n ↔ n ∈ inorder t ∧ n.str = str := by
  rw [lookupGeneric_eq_some h.sorted]
  constructor
  · rintro ⟨hn, _, hs⟩
    exact ⟨hn, hs⟩
  · rintro ⟨hn, hs⟩
    exact ⟨hn, by rw [h.hash n hn, hs], hs⟩

theorem lookup_none (h : IndexInv N t entry links) {str : Bytes} :
    lookupGeneric (N.crc32Short str) str t = none ↔ ∀ n ∈ inorder t, n.str ≠ str := by
  rw [Option.eq_none_iff_forall_ne_some]
  constructor
  · intro hn n hm hs
    exact hn n (h.lookup_some.mpr ⟨hm, hs⟩)
  · intro hn n hl
    exact hn n (h.lookup_some.mp hl).1 (h.lookup_some.mp hl).2

/-- A fresh entry with an empty queue joins the tree. -/
theorem add (h : IndexInv N t entry links) {str : Bytes} {e : Addr}
    (hs : ∀ n ∈ inorder t, n.str ≠ str) (he : e ∉ (inorder t).map RbNode.addr) :
    IndexInv N (N.rbtreeInsert ⟨N.crc32Short str, str, e⟩ t)
      (Function.update entry e ⟨N.crc32Short str, str, []⟩) links := by
  have hq : queueOf links e = [] := by
    refine List.eq_nil_iff_forall_not_mem.mpr fun x hx => he ?_
    exact h.linked _ (mem_queueOf.mp hx)
  refine ⟨?_, ?_, ?_, ?_, ?_⟩
  · exact N.sorted_rbtreeInsert h.sorted fun n hn he' => hs n hn he'.2
  · intro n hn
    rcases N.mem_rbtreeInsert.mp hn with rfl | hn
    · rfl
    · exact h.hash n hn
  · intro n hn
    rcases N.mem_rbtreeInsert.mp hn with rfl | hn
    · rw [Function.update_self, hq]
    · have hne : n.addr ≠ e := fun heq => he (heq ▸ List.mem_map_of_mem hn)
      rw [Function.update_of_ne hne]
      exact h.block n hn
  · rw [((N.inorder_rbtreeInsert_perm _ t).map RbNode.addr).nodup_iff, List.map_cons,
      List.nodup_cons]
    exact ⟨he, h.addr⟩
  · intro l hl
    rw [((N.inorder_rbtreeInsert_perm _ t).map RbNode.addr).mem_iff, List.map_cons]
    exact List.mem_cons_of_mem _ (h.linked l hl)

/-- An item is linked at the tail of the queue of `e`. -/
theorem link (h : IndexInv N t entry links) {e x : Addr} (he : e ∈ (inorder t).map RbNode.addr) :
    IndexInv N t (Function.update entry e { entry e with files := (entry e).files ++ [x] })
      (links ++ [(x, e)]) := by
  refine ⟨h.sorted, h.hash, ?_, h.addr, ?_⟩
  · intro n hn
    rw [queueOf_append]
    by_cases hne : n.addr = e
    · subst hne
      rw [Function.update_self, h.block n hn]
      simp [queueOf]
    · rw [Function.update_of_ne hne, h.block n hn]
      simp [queueOf, Ne.symm hne]
  · intro l hl
    rcases List.mem_append.mp hl with hl | hl
    · exact h.linked l hl
    · rw [List.mem_singleton.mp hl]
      exact he

/-- An item is taken out of the queue it is in. -/
theorem unlink (h : IndexInv N t entry links) (hl : (links.map Prod.fst).Nodup) {e x : Addr}
    (hx : (x, e) ∈ links) :
    IndexInv N t (Function.update entry e { entry e with files := (entry e).files.erase x })
      (unlinked links x) := by
  refine ⟨h.sorted, h.hash, ?_, h.addr, ?_⟩
  · intro n hn
    by_cases hne : n.addr = e
    · subst hne
      rw [Function.update_self, h.block n hn, queueOf_unlinked hl]
    · rw [Function.update_of_ne hne, h.block n hn, queueOf_unlinked_of_ne hl hx hne]
  · intro l hm
    exact h.linked l (mem_unlinked.mp hm).1

/-- An entry with an empty queue leaves the tree. -/
theorem free (h : IndexInv N t entry links) {n : RbNode} (hn : n ∈ inorder t)
    (hq : (entry n.addr).files = []) : IndexInv N (N.rbtreeDelete n t) entry links := by
  have hsub : (inorder (N.rbtreeDelete n t)).Sublist (inorder t) := by
    rw [N.inorder_rbtreeDelete]
    exact List.erase_sublist
  refine ⟨N.sorted_rbtreeDelete h.sorted, fun m hm => h.hash m (hsub.subset hm),
    fun m hm => h.block m (hsub.subset hm), h.addr.sublist (hsub.map _), ?_⟩
  intro l hl
  obtain ⟨m, hm, ha⟩ := List.mem_map.mp (h.linked l hl)
  refine List.mem_map.mpr ⟨m, (N.mem_rbtreeDelete h.sorted).mpr ⟨?_, hm⟩, ha⟩
  rintro rfl
  rw [h.block m hm] at hq
  have hx : l.1 ∈ queueOf links m.addr := mem_queueOf.mpr (by rw [ha]; exact hl)
  simp only at hq
  rw [hq] at hx
  exact absurd hx List.not_mem_nil

end IndexInv

end CachePilot
