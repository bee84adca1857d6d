import Mathlib.Data.List.Infix
import Mathlib.Data.List.TakeWhile

/-!
# Computations that leave a trace

`Traced E α` is a value together with the events that led to it. `Sat P Q` says that
every event is one of `P` and the value one of `Q`; its rules follow the program.
`slice` is the part of a memory between two indices, and `skipWhile` the loop that moves
an index through it.
-/

/-- A value and the events on the way to it. -/
structure Traced (E α : Type) where
  val : α
  events : List E

namespace Traced

variable {E α β : Type}

instance : Monad (Traced E) where
  pure a := ⟨a, []⟩
  bind x f := ⟨(f x.val).val, x.events ++ (f x.val).events⟩

/-- One event. -/
def emit (e : E) (a : α) : Traced E α := ⟨a, [e]⟩

/-- The events are of `P`, the value is of `Q`. -/
structure Sat (P : E → Prop) (Q : α → Prop) (x : Traced E α) : Prop where
  events : ∀ e ∈ x.events, P e
  val : Q x.val

namespace Sat

variable {P : E → Prop} {Q Q' : α → Prop} {R : β → Prop} {x : Traced E α}

theorem pure {a : α} (h : Q a) : Sat P Q (pure a) where
  events _ he := absurd he List.not_mem_nil
  val := h

theorem emit {e : E} {a : α} (he : P e) (ha : Q a) : Sat P Q (emit e a) where
  events e' h := by
    rw [List.mem_singleton.mp h]
    exact he
  val := ha

theorem bind {f : α → Traced E β} (hx : Sat P Q x) (hf : ∀ a, Q a → Sat P R (f a)) :
    Sat P R (x >>= f) where
  events e he := by
    rcases List.mem_append.mp he with he | he
    · exact hx.events e he
    · exact (hf x.val hx.val).events e he
  val := (hf x.val hx.val).val

theorem ite {c : Prop} [Decidable c] {y : Traced E α} (hx : c → Sat P Q x) (hy : ¬ c → Sat P Q y) :
    Sat P Q (if c then x else y) := by
  split
  · next h => exact hx h
  · next h => exact hy h

/-- What comes behind a computation depends on the value only. -/
theorem bind_congr {f g : α → Traced E β} (hx : Sat P Q x) (h : ∀ a, Q a → f a = g a) :
    x >>= f = x >>= g := by
  show (⟨(f x.val).val, x.events ++ (f x.val).events⟩ : Traced E β) = _
  rw [h x.val hx.val]
  rfl

theorem imp (h : Sat P Q x) (hQ : ∀ a, Q a → Q' a) : Sat P Q' x := ⟨h.events, hQ _ h.val⟩

end Sat

/-! ## Slices -/

/-- The cells of a memory from `i` up to `j`. -/
def slice (mem : Nat → β) (i j : Nat) : List β := (List.range' i (j - i)).map mem

section Slice

variable {mem : Nat → β} {i j k : Nat}

@[simp] theorem length_slice : (slice mem i j).length = j - i := by simp [slice]

theorem slice_eq_nil (h : j ≤ i) : slice mem i j = [] := by
  unfold slice
  rw [Nat.sub_eq_zero_of_le h]
  rfl

theorem slice_cons (h : i < j) : slice mem i j = mem i :: slice mem (i + 1) j := by
  unfold slice
  obtain ⟨d, rfl⟩ := Nat.exists_eq_add_of_lt h
  have hsub : i + d + 1 - i = d + 1 := by omega
  have hsub' : i + d + 1 - (i + 1) = d := by omega
  rw [hsub, hsub', List.range'_succ, List.map_cons]

theorem getD_slice (h : i + k < j) (d : β) : (slice mem i j).getD k d = mem (i + k) := by
  have hk : k < j - i := by omega
  simp [slice, hk]

theorem drop_slice : (slice mem i j).drop k = slice mem (i + k) j := by
  unfold slice
  rw [← List.map_drop, List.drop_range', Nat.mul_one, Nat.sub_sub]

theorem slice_shift (mem : Nat → β) (i j k : Nat) :
    slice (fun k => mem (i + k)) j k = slice mem (i + j) (i + k) := by
  unfold slice
  have hlen : i + k - (i + j) = k - j := Nat.add_sub_add_left i k j
  rw [hlen, ← List.map_add_range', List.map_map]
  rfl

end Slice

/-! ## Loops -/

/-- `while (i < stop && p(cell[i])) i++`. Every turn takes a cell, so `stop - i` turns are
enough. -/
def skipWhile (cell : Nat → Traced E β) (p : β → Bool) (stop : Nat) : Nat → Nat → Traced E Nat
  | 0, i => pure i
  | fuel + 1, i =>
    if i < stop then do
      let c ← cell i
      if p c then skipWhile cell p stop fuel (i + 1) else pure i
    else pure i

section SkipWhile

variable {P : E → Prop} {cell : Nat → Traced E β} {mem : Nat → β} {p : β → Bool} {stop : Nat}

/-- More turns than cells make no difference. -/
theorem skipWhile_fuel {fuel i : Nat} (h : stop ≤ i + fuel) :
    skipWhile cell p stop (fuel + 1) i = skipWhile cell p stop fuel i := by
  induction fuel generalizing i with
  | zero => exact if_neg (Nat.not_lt.mpr h)
  | succ fuel ih =>
    have hrest : stop ≤ i + 1 + fuel := by omega
    show (if i < stop then _ else _) = if i < stop then _ else _
    rw [ih hrest]

/-- Where the loop stops: behind the cells that satisfy `p`. -/
structure Skipped (mem : Nat → β) (p : β → Bool) (i stop j : Nat) : Prop where
  le : i ≤ j
  le_stop : j ≤ stop
  passed : slice mem i j = (slice mem i stop).takeWhile p
  rest : slice mem j stop = (slice mem i stop).dropWhile p
  stopped : j < stop → p (mem j) = false

theorem Skipped.here {i : Nat} (hi : i ≤ stop) (h : i < stop → p (mem i) = false) :
    Skipped mem p i stop i where
  le := Nat.le_refl i
  le_stop := hi
  passed := by
    rw [slice_eq_nil (Nat.le_refl i)]
    rcases Nat.lt_or_eq_of_le hi with hlt | rfl
    · rw [slice_cons hlt, List.takeWhile_cons_of_neg (by rw [h hlt]; decide)]
    · rw [slice_eq_nil (Nat.le_refl i), List.takeWhile_nil]
  rest := by
    rcases Nat.lt_or_eq_of_le hi with hlt | rfl
    · rw [slice_cons hlt, List.dropWhile_cons_of_neg (by rw [h hlt]; decide)]
    · rw [slice_eq_nil (Nat.le_refl i), List.dropWhile_nil]
  stopped := h

theorem Skipped.turn {i j : Nat} (hi : i < stop) (hp : p (mem i) = true)
    (h : Skipped mem p (i + 1) stop j) : Skipped mem p i stop j where
  le := Nat.le_of_succ_le h.le
  le_stop := h.le_stop
  passed := by
    rw [slice_cons hi, List.takeWhile_cons_of_pos hp, slice_cons (Nat.lt_of_succ_le h.le), h.passed]
  rest := by rw [slice_cons hi, List.dropWhile_cons_of_pos hp, h.rest]
  stopped := h.stopped

theorem skipWhile_fuel_sat {fuel i : Nat} (hfuel : stop ≤ i + fuel) (hi : i ≤ stop)
    (hcell : ∀ k < stop, (cell k).Sat P (· = mem k)) :
    (skipWhile cell p stop fuel i).Sat P (Skipped mem p i stop) := by
  induction fuel generalizing i with
  | zero => exact .pure (.here hi fun hlt => absurd hlt (Nat.not_lt.mpr hfuel))
  | succ fuel ih =>
    refine .ite (fun hlt => ?_) fun hge => ?_
    · refine .bind (hcell i hlt) ?_
      rintro c rfl
      have hrest : stop ≤ i + 1 + fuel := by omega
      cases hp : p (mem i) with
      | true =>
        rw [if_pos rfl]
        exact (ih hrest hlt).imp fun j => .turn hlt hp
      | false => exact .pure (.here hi fun _ => hp)
    · exact .pure (.here hi fun hlt => absurd hlt hge)

/-- The loop reads cells before `stop` only. -/
theorem skipWhile_sat {i : Nat} (hi : i ≤ stop) (hcell : ∀ k < stop, (cell k).Sat P (· = mem k)) :
    (skipWhile cell p stop (stop - i) i).Sat P (Skipped mem p i stop) :=
  skipWhile_fuel_sat (Nat.le_of_eq (Nat.add_sub_of_le hi).symm) hi hcell

end SkipWhile

end Traced
