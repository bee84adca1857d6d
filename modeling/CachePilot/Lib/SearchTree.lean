import Mathlib.Data.List.Pairwise
import Mathlib.Data.List.Perm.Basic
import Mathlib.Data.Tree.Basic
import Mathlib.Order.Lattice

/-!
# Search trees that may be rebalanced

A binary search tree over a key in a linear order, seen through its in-order
sequence. Insertion and lookup are the two descents every search tree has; what
a balanced tree adds on top (rotations, the repair after a deletion) is a
`Balancing`: any change of shape that keeps the in-order sequence. Facts are
stated about `inorder`, so they survive every rebalancing.

Results:
1. `sorted_insert`, `inorder_insert_perm`: insertion of an absent key keeps the
   order and adds one element.
2. `find?_eq_some`, `find?_eq_none`: lookup in a sorted tree finds exactly the
   element of the key.
3. `Balancing.plain`: a balancing exists.
-/

namespace SearchTree

universe u v

variable {α : Type u} {κ : Type v}

/-- The elements of a tree from left to right. -/
def inorder : BinaryTree α → List α
  | .nil => []
  | .node x l r => inorder l ++ x :: inorder r

@[simp] theorem inorder_nil : inorder (.nil : BinaryTree α) = [] := rfl

@[simp] theorem inorder_node (x : α) (l r : BinaryTree α) :
    inorder (.node x l r) = inorder l ++ x :: inorder r := rfl

/-! ## Descents -/

section Descents

variable [LinearOrder κ] (key : α → κ)

/-- Insert below a leaf; an element with an equal key goes to its right. -/
def insert (x : α) : BinaryTree α → BinaryTree α
  | .nil => .node x .nil .nil
  | .node y l r => if key x < key y then .node y (insert x l) r else .node y l (insert x r)

/-- Descend to the element of key `k`. -/
def find? (k : κ) : BinaryTree α → Option α
  | .nil => none
  | .node y l r =>
    if k < key y then find? k l else if key y < k then find? k r else some y

/-- The keys increase strictly from left to right. -/
def Sorted (t : BinaryTree α) : Prop :=
  (inorder t).Pairwise fun a b => key a < key b

variable {key}

theorem sorted_nil : Sorted key .nil := List.Pairwise.nil

theorem sorted_node {y : α} {l r : BinaryTree α} :
    Sorted key (.node y l r) ↔
      Sorted key l ∧ Sorted key r ∧ (∀ a ∈ inorder l, key a < key y) ∧
      (∀ b ∈ inorder r, key y < key b) := by
  simp only [Sorted, inorder_node, List.pairwise_append, List.pairwise_cons]
  constructor
  · rintro ⟨hl, ⟨hy, hr⟩, hlr⟩
    exact ⟨hl, hr, fun a ha => hlr a ha y List.mem_cons_self, hy⟩
  · rintro ⟨hl, hr, hly, hyr⟩
    refine ⟨hl, ⟨hyr, hr⟩, fun a ha b hb => ?_⟩
    rcases List.mem_cons.mp hb with rfl | hb
    · exact hly a ha
    · exact (hly a ha).trans (hyr b hb)

theorem inorder_insert_perm (x : α) (t : BinaryTree α) :
    (inorder (insert key x t)).Perm (x :: inorder t) := by
  induction t with
  | nil => exact List.Perm.refl _
  | node y l r ihl ihr =>
    simp only [insert]
    split
    · exact ihl.append_right _
    · have hr : (inorder l ++ y :: inorder (insert key x r)).Perm
          (inorder l ++ (x :: y :: inorder r)) :=
        ((ihr.cons y).trans (List.Perm.swap x y _)).append_left _
      exact hr.trans List.perm_middle

theorem mem_inorder_insert {x z : α} {t : BinaryTree α} :
    z ∈ inorder (insert key x t) ↔ z = x ∨ z ∈ inorder t := by
  rw [(inorder_insert_perm x t).mem_iff, List.mem_cons]

/-- Insertion of an absent key keeps the tree sorted. -/
theorem sorted_insert {x : α} {t : BinaryTree α} (ht : Sorted key t)
    (hx : ∀ y ∈ inorder t, key y ≠ key x) : Sorted key (insert key x t) := by
  induction t with
  | nil => simp [insert, Sorted]
  | node y l r ihl ihr =>
    obtain ⟨hl, hr, hly, hyr⟩ := sorted_node.mp ht
    have hxl : ∀ a ∈ inorder l, key a ≠ key x := fun a ha => hx a (by simp [ha])
    have hxr : ∀ b ∈ inorder r, key b ≠ key x := fun b hb => hx b (by simp [hb])
    simp only [insert]
    split
    · next hlt =>
      refine sorted_node.mpr ⟨ihl hl hxl, hr, fun a ha => ?_, hyr⟩
      rcases mem_inorder_insert.mp ha with rfl | ha
      · exact hlt
      · exact hly a ha
    · next hnlt =>
      have hyx : key y < key x := lt_of_le_of_ne (not_lt.mp hnlt) (hx y (by simp))
      refine sorted_node.mpr ⟨hl, ihr hr hxr, hly, fun b hb => ?_⟩
      rcases mem_inorder_insert.mp hb with rfl | hb
      · exact hyx
      · exact hyr b hb

/-- Lookup in a sorted tree finds exactly the element of the key. -/
theorem find?_eq_some {k : κ} {x : α} {t : BinaryTree α} (ht : Sorted key t) :
    find? key k t = some x ↔ x ∈ inorder t ∧ key x = k := by
  induction t with
  | nil => simp [find?]
  | node y l r ihl ihr =>
    obtain ⟨hl, hr, hly, hyr⟩ := sorted_node.mp ht
    simp only [find?, inorder_node, List.mem_append, List.mem_cons]
    split
    · next hlt =>
      rw [ihl hl]
      constructor
      · rintro ⟨hm, he⟩
        exact ⟨Or.inl hm, he⟩
      · rintro ⟨hm | rfl | hm, he⟩
        · exact ⟨hm, he⟩
        · exact absurd (he ▸ hlt) (lt_irrefl _)
        · exact absurd (hlt.trans (hyr x hm)) (he ▸ lt_irrefl _)
    · next hnlt =>
      split
      · next hgt =>
        rw [ihr hr]
        constructor
        · rintro ⟨hm, he⟩
          exact ⟨Or.inr (Or.inr hm), he⟩
        · rintro ⟨hm | rfl | hm, he⟩
          · exact absurd ((hly x hm).trans hgt) (he ▸ lt_irrefl _)
          · exact absurd (he ▸ hgt) (lt_irrefl _)
          · exact ⟨hm, he⟩
      · next hngt =>
        have hk : key y = k := le_antisymm (not_lt.mp hnlt) (not_lt.mp hngt)
        constructor
        · intro h
          obtain rfl := Option.some.inj h
          exact ⟨Or.inr (Or.inl rfl), hk⟩
        · rintro ⟨hm | rfl | hm, he⟩
          · exact absurd (hly x hm) (by rw [he, hk]; exact lt_irrefl _)
          · rfl
          · exact absurd (hyr x hm) (by rw [he, hk]; exact lt_irrefl _)

theorem find?_eq_none {k : κ} {t : BinaryTree α} (ht : Sorted key t) :
    find? key k t = none ↔ ∀ x ∈ inorder t, key x ≠ k := by
  rw [Option.eq_none_iff_forall_ne_some]
  constructor
  · intro h x hx he
    exact h x ((find?_eq_some ht).mpr ⟨hx, he⟩)
  · intro h x hx
    obtain ⟨hm, he⟩ := (find?_eq_some ht).mp hx
    exact h x hm he

/-- In a sorted tree an element is determined by its key. -/
theorem eq_of_key_eq {t : BinaryTree α} (ht : Sorted key t) {x y : α}
    (hx : x ∈ inorder t) (hy : y ∈ inorder t) (h : key x = key y) : x = y := by
  have hfx := (find?_eq_some ht).mpr ⟨hx, h⟩
  have hfy := (find?_eq_some ht).mpr ⟨hy, rfl⟩
  exact Option.some.inj (hfx.symm.trans hfy)

theorem sorted_nodup {t : BinaryTree α} (ht : Sorted key t) : (inorder t).Nodup :=
  List.Pairwise.imp (fun h he => absurd (congrArg key he) (ne_of_lt h)) ht

/-- Being sorted depends on the in-order sequence only. -/
theorem Sorted.of_sublist {t t' : BinaryTree α} (ht : Sorted key t)
    (h : (inorder t').Sublist (inorder t)) : Sorted key t' :=
  List.Pairwise.sublist h ht

end Descents

/-! ## Rebalancing -/

/-- What a balanced tree does beside the descents: a change of shape after an
insertion, and the removal of one element. Both act on the in-order sequence in
the only way they may. -/
structure Balancing (α : Type u) [DecidableEq α] where
  balance : BinaryTree α → BinaryTree α
  delete : α → BinaryTree α → BinaryTree α
  inorder_balance : ∀ t, inorder (balance t) = inorder t
  inorder_delete : ∀ x t, inorder (delete x t) = (inorder t).erase x

/-- Hang a tree below the rightmost element of another. -/
def join : BinaryTree α → BinaryTree α → BinaryTree α
  | .nil, r => r
  | .node x l r', r => .node x l (join r' r)

theorem inorder_join (l r : BinaryTree α) : inorder (join l r) = inorder l ++ inorder r := by
  induction l with
  | nil => rfl
  | node x l' r' _ ihr => simp [join, ihr]

/-- Remove one element; its subtrees are joined in its place. -/
def remove [DecidableEq α] (x : α) : BinaryTree α → BinaryTree α
  | .nil => .nil
  | .node y l r =>
    if x ∈ inorder l then .node y (remove x l) r
    else if x = y then join l r
    else .node y l (remove x r)

theorem inorder_remove [DecidableEq α] (x : α) (t : BinaryTree α) :
    inorder (remove x t) = (inorder t).erase x := by
  induction t with
  | nil => rfl
  | node y l r ihl ihr =>
    simp only [remove]
    split
    · next hx => simp [ihl, List.erase_append_left _ hx]
    · next hx =>
      split
      · next he => subst he; simp [inorder_join, List.erase_append_right _ hx]
      · next hne =>
        have hb : (y == x) = false := by simpa using Ne.symm hne
        simp [ihr, List.erase_append_right _ hx, List.erase_cons_tail, hb]

/-- No rebalancing at all, and deletion by `remove`. -/
def Balancing.plain [DecidableEq α] : Balancing α where
  balance := id
  delete := remove
  inorder_balance _ := rfl
  inorder_delete := inorder_remove

end SearchTree
