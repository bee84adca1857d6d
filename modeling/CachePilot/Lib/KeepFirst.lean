import Mathlib.Data.List.Nodup
import Mathlib.Data.List.Infix
import Mathlib.Data.Option.Basic

/-!
# Keeping first occurrences

A list is built up from a stream: an element joins at the end unless the list is
full or has an element of the same key already. `keepAll_eq_iff` tells when
foreign elements in the stream leave the result as it is.
-/

namespace KeepFirst

variable {α κ : Type*} [DecidableEq κ] (key : α → κ) (cap : Option Nat)

/-- Whether a list has as many elements as it may have. -/
def full (kept : List α) : Bool := cap.any fun n => decide (n ≤ kept.length)

/-- One element of the stream. -/
def keep (kept : List α) (x : α) : List α :=
  if full cap kept = true ∨ key x ∈ kept.map key then kept else kept ++ [x]

/-- The whole stream. -/
def keepAll (kept xs : List α) : List α := xs.foldl (keep key cap) kept

variable {key cap} {kept xs ys : List α} {x : α}

@[simp] theorem keepAll_nil : keepAll key cap kept [] = kept := rfl

@[simp] theorem keepAll_cons :
    keepAll key cap kept (x :: xs) = keepAll key cap (keep key cap kept x) xs := rfl

theorem keepAll_append :
    keepAll key cap kept (xs ++ ys) = keepAll key cap (keepAll key cap kept xs) ys :=
  List.foldl_append

variable (key cap) in
theorem keep_cases (kept : List α) (x : α) :
    keep key cap kept x = kept ∧ (full cap kept = true ∨ key x ∈ kept.map key) ∨
    keep key cap kept x = kept ++ [x] ∧ full cap kept = false ∧ key x ∉ kept.map key := by
  unfold keep
  by_cases h : full cap kept = true ∨ key x ∈ kept.map key
  · exact Or.inl ⟨if_pos h, h⟩
  · obtain ⟨hf, hk⟩ := not_or.mp h
    exact Or.inr ⟨if_neg h, Bool.not_eq_true _ ▸ hf, hk⟩

theorem prefix_keep (kept : List α) (x : α) : kept <+: keep key cap kept x := by
  rcases keep_cases key cap kept x with ⟨h, -⟩ | ⟨h, -⟩
  · rw [h]
  · rw [h]
    exact List.prefix_append kept [x]

theorem prefix_keepAll (kept xs : List α) : kept <+: keepAll key cap kept xs := by
  induction xs generalizing kept with
  | nil => exact List.prefix_rfl
  | cons x xs ih => exact (prefix_keep kept x).trans (ih _)

theorem nodup_keepAll (h : (kept.map key).Nodup) : ((keepAll key cap kept xs).map key).Nodup := by
  induction xs generalizing kept with
  | nil => exact h
  | cons x xs ih =>
    refine ih ?_
    rcases keep_cases key cap kept x with ⟨he, -⟩ | ⟨he, -, hk⟩
    · rw [he]
      exact h
    · rw [he, List.map_append]
      exact h.append (List.nodup_singleton _) (List.disjoint_singleton.mpr hk)

/-- Without a limit every key of the stream is kept. -/
theorem mem_map_keepAll {k : κ} :
    k ∈ (keepAll key none kept xs).map key ↔ k ∈ kept.map key ∨ k ∈ xs.map key := by
  induction xs generalizing kept with
  | nil => simp
  | cons x xs ih =>
    rw [keepAll_cons, ih, List.map_cons, List.mem_cons]
    rcases keep_cases key none kept x with ⟨he, hk⟩ | ⟨he, -⟩
    · have hmem := hk.resolve_left (by simp [full])
      rw [he]
      constructor
      · exact Or.imp_right Or.inr
      · rintro (h | rfl | h)
        · exact Or.inl h
        · exact Or.inl hmem
        · exact Or.inr h
    · rw [he, List.map_append, List.mem_append, List.map_singleton, List.mem_singleton, or_assoc]

/-- Below the limit, an element is kept if it is the first of its key. -/
theorem mem_keepAll (h : ∀ n, cap = some n → kept.length + xs.length ≤ n) :
    x ∈ keepAll key cap kept xs ↔
      x ∈ kept ∨ key x ∉ kept.map key ∧ xs.find? (fun y => key y = key x) = some x := by
  induction xs generalizing kept with
  | nil => simp
  | cons y xs ih =>
    rw [keepAll_cons]
    rcases keep_cases key cap kept y with ⟨he, hfull | hy⟩ | ⟨he, -, hy⟩
    · -- the list is not full yet
      cases cap with
      | none => exact nomatch hfull
      | some n =>
        have hle := h n rfl
        have hn : n ≤ kept.length := by simpa [full] using hfull
        rw [List.length_cons] at hle
        omega
    · rw [he, ih fun n hn => by have hle := h n hn; rw [List.length_cons] at hle; omega]
      refine or_congr_right (and_congr_right fun hx => ?_)
      have hne : ¬ key y = key x := fun h0 => hx (h0 ▸ hy)
      rw [List.find?_cons_of_neg (by simpa using hne)]
    · rw [he, ih fun n hn => by
        have hle := h n hn
        rw [List.length_cons] at hle
        rw [List.length_append, List.length_singleton]
        omega]
      simp only [List.map_append, List.map_singleton, List.mem_append, List.mem_singleton, not_or]
      cases hd : decide (key y = key x) with
      | true =>
        have hxy := of_decide_eq_true hd
        rw [List.find?_cons_of_pos (by simpa using hxy), Option.some.injEq]
        constructor
        · rintro ((hk | rfl) | h0)
          · exact Or.inl hk
          · exact Or.inr ⟨hy, rfl⟩
          · exact absurd hxy.symm h0.1.2
        · rintro (hk | ⟨-, rfl⟩)
          · exact Or.inl (Or.inl hk)
          · exact Or.inl (Or.inr rfl)
      | false =>
        have hne := of_decide_eq_false hd
        have hxy : x ≠ y := fun h0 => hne (congrArg key h0.symm)
        rw [List.find?_cons_of_neg (by simpa using hne), or_iff_left hxy]
        refine or_congr_right (and_congr_left fun _ => ?_)
        exact and_iff_left fun h0 => hne h0.symm

/-- A filter that respects the keys can be applied before or after. -/
theorem filter_keepAll (q : α → Bool) (hq : ∀ a b, key a = key b → q a = q b) :
    (keepAll key none kept xs).filter q = keepAll key none (kept.filter q) (xs.filter q) := by
  induction xs generalizing kept with
  | nil => rfl
  | cons x xs ih =>
    have hkeys : q x = true → (key x ∈ (kept.filter q).map key ↔ key x ∈ kept.map key) := by
      intro hx
      simp only [List.mem_map, List.mem_filter]
      constructor
      · rintro ⟨a, ⟨ha, -⟩, he⟩
        exact ⟨a, ha, he⟩
      · rintro ⟨a, ha, he⟩
        exact ⟨a, ⟨ha, (hq a x he).trans hx⟩, he⟩
    rw [keepAll_cons, ih]
    unfold keep full
    by_cases hx : q x = true
    · rw [List.filter_cons_of_pos hx, keepAll_cons]
      unfold keep full
      simp only [hkeys hx]
      by_cases hk : key x ∈ kept.map key
      · rw [if_pos (Or.inr hk), if_pos (Or.inr hk)]
      · rw [if_neg (by simpa using hk), if_neg (by simpa using hk), List.filter_append,
          List.filter_cons_of_pos hx, List.filter_nil]
    · rw [List.filter_cons_of_neg hx]
      congr 1
      by_cases hk : key x ∈ kept.map key
      · rw [if_pos (Or.inr hk)]
      · rw [if_neg (by simpa using hk), List.filter_append, List.filter_cons_of_neg hx,
          List.filter_nil, List.append_nil]

/-! ## First occurrences -/

variable (key) in
/-- The first element of each key. -/
def firsts : List α → List α
  | [] => []
  | x :: xs => x :: (firsts xs).filter fun y => key y ≠ key x

@[simp] theorem firsts_nil : firsts key [] = [] := rfl

theorem firsts_cons : firsts key (x :: xs) = x :: (firsts key xs).filter fun y => key y ≠ key x := rfl

theorem firsts_sublist (xs : List α) : (firsts key xs).Sublist xs := by
  induction xs with
  | nil => exact List.Sublist.refl []
  | cons x xs ih => exact (List.filter_sublist.trans ih).cons_cons x

/-- Keys that tell the elements apart in the same way have the same firsts. -/
theorem firsts_congr {κ' : Type*} [DecidableEq κ'] {key' : α → κ'}
    (h : ∀ x ∈ xs, ∀ y ∈ xs, key x = key y ↔ key' x = key' y) : firsts key xs = firsts key' xs := by
  induction xs with
  | nil => rfl
  | cons x xs ih =>
    have hrest := ih fun y hy z hz => h y (List.mem_cons_of_mem x hy) z (List.mem_cons_of_mem x hz)
    rw [firsts_cons, firsts_cons, hrest]
    refine congrArg (x :: ·) (List.filter_congr fun y hy => ?_)
    have hy' : y ∈ x :: xs := List.mem_cons_of_mem x ((firsts_sublist xs).subset hy)
    rw [decide_eq_decide]
    exact not_congr (h y hy' x List.mem_cons_self)

/-- A list with a limit gets the first elements of the keys that it does not have,
as long as there is room. -/
theorem keepAll_eq_firsts (n : Nat) (kept xs : List α) :
    keepAll key (some n) kept xs =
      kept ++ ((firsts key xs).filter fun y => key y ∉ kept.map key).take (n - kept.length) := by
  induction xs generalizing kept with
  | nil => simp
  | cons x xs ih =>
    rw [keepAll_cons, ih, firsts_cons]
    rcases keep_cases key (some n) kept x with ⟨he, hfull | hmem⟩ | ⟨he, hroom, hnew⟩
    · have hle : n ≤ kept.length := by simpa [full] using hfull
      rw [he, Nat.sub_eq_zero_of_le hle, List.take_zero, List.take_zero]
    · rw [he, List.filter_cons_of_neg (by simpa using hmem), List.filter_filter]
      congr 2
      refine List.filter_congr fun y _ => ?_
      have hne : key y ∉ kept.map key → key y ≠ key x := fun hy h0 => hy (h0 ▸ hmem)
      simpa using hne
    · have hlt : kept.length < n := by simpa [full] using hroom
      obtain ⟨k, hk⟩ := Nat.exists_eq_add_of_lt hlt
      have hroom' : n - kept.length = k + 1 := by omega
      have hroom'' : n - (kept ++ [x]).length = k := by
        rw [List.length_append, List.length_singleton]
        omega
      have hkeys : ((firsts key xs).filter fun y => key y ∉ (kept ++ [x]).map key) =
          (firsts key xs).filter fun y => decide (key y ∉ kept.map key) && decide (key y ≠ key x) :=
        List.filter_congr fun y _ => by simp
      rw [he, hroom', hroom'', List.filter_cons_of_pos (by simpa using hnew), List.take_succ_cons,
        List.filter_filter, List.append_assoc, hkeys]
      rfl

/-- Without a limit it gets all of them. -/
theorem keepAll_eq_all_firsts (kept xs : List α) :
    keepAll key none kept xs = kept ++ (firsts key xs).filter fun y => key y ∉ kept.map key := by
  induction xs generalizing kept with
  | nil => simp
  | cons x xs ih =>
    rw [keepAll_cons, ih, firsts_cons]
    rcases keep_cases key none kept x with ⟨he, hfull | hmem⟩ | ⟨he, -, hnew⟩
    · exact nomatch hfull
    · rw [he, List.filter_cons_of_neg (by simpa using hmem), List.filter_filter]
      refine congrArg (kept ++ ·) (List.filter_congr fun y _ => ?_)
      have hne : key y ∉ kept.map key → key y ≠ key x := fun hy h0 => hy (h0 ▸ hmem)
      simpa using hne
    · have hkeys : ((firsts key xs).filter fun y => key y ∉ (kept ++ [x]).map key) =
          (firsts key xs).filter fun y => decide (key y ∉ kept.map key) && decide (key y ≠ key x) :=
        List.filter_congr fun y _ => by simp
      rw [he, List.filter_cons_of_pos (by simpa using hnew), List.filter_filter, List.append_assoc, hkeys]
      rfl

/-! ## Foreign elements -/

variable (key cap)

/-- A stream of marked elements: `false` marks a foreign one. No foreign element,
when its turn comes, extends the list beyond `target`. -/
def Harmless (target : List α) : List α → List (Bool × α) → Prop
  | _, [] => True
  | kept, (own, x) :: stream =>
    (own = false → keep key cap kept x <+: target) ∧
      Harmless target (keep key cap kept x) stream

/-- The elements of a marked stream that are not foreign. -/
def own (stream : List (Bool × α)) : List α := (stream.filter Prod.fst).map Prod.snd

variable {key cap} {target : List α} {stream : List (Bool × α)}

theorem harmless_of_eq (h : keepAll key cap kept (stream.map Prod.snd) = target) :
    Harmless key cap target kept stream := by
  induction stream generalizing kept with
  | nil => exact trivial
  | cons bx stream ih =>
    rw [List.map_cons, keepAll_cons] at h
    refine ⟨fun _ => ?_, ih h⟩
    rw [← h]
    exact prefix_keepAll _ _

theorem full_mono (hle : kept.length ≤ xs.length) (h : full cap xs = false) :
    full cap kept = false := by
  cases cap with
  | none => rfl
  | some n =>
    simp only [full, Option.any_some, decide_eq_false_iff_not, not_le] at h ⊢
    omega

/-- One element that both streams have. The list of own elements is a prefix of
the list of all, which is a prefix of the target. -/
theorem keep_both {a : List α} (ha : a <+: kept) (hk : kept <+: target)
    (ha' : keep key cap a x <+: target) :
    keep key cap a x <+: keep key cap kept x ∧ keep key cap kept x <+: target := by
  rcases keep_cases key cap kept x with ⟨he, -⟩ | ⟨he, hf, hkey⟩
  · rw [he]
    refine ⟨?_, hk⟩
    rcases keep_cases key cap a x with ⟨hea, -⟩ | ⟨hea, -⟩
    · rw [hea]
      exact ha
    · rcases Nat.lt_or_ge a.length kept.length with hlt | hge
      · refine List.prefix_of_prefix_length_le ha' hk ?_
        rw [hea, List.length_append]
        exact hlt
      · -- both lists are the same, but only one of them takes the element
        have hsame : a = kept := ha.eq_of_length (Nat.le_antisymm ha.length_le hge)
        rw [hsame, he]
  · have hnew : keep key cap a x = a ++ [x] := by
      rcases keep_cases key cap a x with ⟨-, hfull | hmem⟩ | ⟨hea, -⟩
      · rw [full_mono ha.length_le hf] at hfull
        exact absurd hfull (by decide)
      · exact absurd ((ha.map key).subset hmem) hkey
      · exact hea
    rcases Nat.lt_or_ge a.length kept.length with hlt | hge
    · -- the element would stand in the list already
      have hpre : a ++ [x] <+: kept := by
        rw [hnew] at ha'
        refine List.prefix_of_prefix_length_le ha' hk ?_
        rw [List.length_append]
        exact hlt
      exact absurd (List.mem_map_of_mem (hpre.subset (by simp))) hkey
    · have hsame : a = kept := ha.eq_of_length (Nat.le_antisymm ha.length_le hge)
      rw [← hsame]
      exact ⟨List.prefix_rfl, ha'⟩

theorem keepAll_of_harmless {a : List α} (ha : a <+: kept) (hk : kept <+: target)
    (ht : keepAll key cap a (own stream) = target) (h : Harmless key cap target kept stream) :
    keepAll key cap kept (stream.map Prod.snd) = target := by
  induction stream generalizing a kept with
  | nil =>
    have hat : a = target := ht
    rw [hat] at ha
    exact hk.eq_of_length (Nat.le_antisymm hk.length_le ha.length_le)
  | cons bx stream ih =>
    obtain ⟨b, x⟩ := bx
    obtain ⟨hx, hrest⟩ := h
    cases b with
    | false => exact ih (ha.trans (prefix_keep kept x)) (hx rfl) ht hrest
    | true =>
      have ht' : keepAll key cap (keep key cap a x) (own stream) = target := ht
      have ha' : keep key cap a x <+: target := by
        rw [← ht']
        exact prefix_keepAll _ _
      obtain ⟨h1, h2⟩ := keep_both ha hk ha'
      exact ih h1 h2 ht' hrest

/-- Foreign elements leave the result as it is exactly when none of them, in its
turn, extends the list beyond it. -/
theorem keepAll_eq_iff : keepAll key cap [] (stream.map Prod.snd) = keepAll key cap [] (own stream) ↔
    Harmless key cap (keepAll key cap [] (own stream)) [] stream :=
  ⟨harmless_of_eq, keepAll_of_harmless List.prefix_rfl List.nil_prefix rfl⟩

end KeepFirst
