import Mathlib.Data.Nat.Digits.Lemmas
import Mathlib.Data.List.TakeDrop
import Mathlib.Data.UInt

/-!
# Printing into a buffer

Decimal numbers as bytes, and a buffer that takes what still fits of each piece that
is printed into it. A buffer of bounded size holds the front of all that was printed
(`putAll_take`).
-/

namespace Print

abbrev Text := List UInt8

/-- The bytes of a string. -/
def ascii (s : String) : Text := s.toByteArray.data.toList

/-! ## Numbers -/

/-- `n` in decimal digits, without leading zeros. -/
def decimal (n : Nat) : Text :=
  if n = 0 then [48] else (Nat.digits 10 n).reverse.map fun d => UInt8.ofNat (48 + d)

/-- An integer with its sign. -/
def decimalInt (i : Int) : Text :=
  if i < 0 then 45 :: decimal i.natAbs else decimal i.natAbs

def isDigit (c : UInt8) : Bool := 48 ≤ c && c ≤ 57

/-- How many digits `n` has. -/
def digitCount (n : Nat) : Nat := Nat.log 10 n + 1

theorem decimal_length (n : Nat) : (decimal n).length = digitCount n := by
  unfold decimal digitCount
  split
  · next h => rw [h, Nat.log_zero_right]; rfl
  · next h => rw [List.length_map, List.length_reverse, Nat.length_digits 10 n (by decide) h]

/-- A number below a power of ten has that many digits at most. -/
theorem digitCount_le {n k : Nat} (hk : 0 < k) (h : n < 10 ^ k) : digitCount n ≤ k := by
  unfold digitCount
  exact Nat.log_lt_of_lt_pow' (Nat.ne_of_gt hk) h

theorem digit_toNat {d : Nat} (h : d < 10) : (UInt8.ofNat (48 + d)).toNat = 48 + d :=
  UInt8.toNat_ofNat_of_lt (by show 48 + d < 256; omega)

theorem isDigit_of_lt {d : Nat} (h : d < 10) : isDigit (UInt8.ofNat (48 + d)) = true := by
  unfold isDigit
  rw [Bool.and_eq_true, decide_eq_true_eq, decide_eq_true_eq, UInt8.le_iff_toNat_le,
    UInt8.le_iff_toNat_le, digit_toNat h]
  exact ⟨Nat.le_add_right 48 d, by show 48 + d ≤ 57; omega⟩

theorem isDigit_of_mem_decimal {n : Nat} {c : UInt8} (h : c ∈ decimal n) : isDigit c = true := by
  unfold decimal at h
  split at h
  · rw [List.mem_singleton.mp h]
    rfl
  · obtain ⟨d, hd, rfl⟩ := List.mem_map.mp h
    exact isDigit_of_lt (Nat.digits_lt_base (by decide) (List.mem_reverse.mp hd))

/-- A number other than zero starts with another digit than zero. -/
theorem decimal_cons (n : Nat) : n = 0 ∧ decimal n = [48] ∨
    ∃ c ds, decimal n = c :: ds ∧ 49 ≤ c ∧ c ≤ 57 := by
  unfold decimal
  split
  · next h => exact Or.inl ⟨h, rfl⟩
  · next h =>
    refine Or.inr ?_
    have hne : (Nat.digits 10 n).reverse ≠ [] := by
      rw [Ne, List.reverse_eq_nil_iff]
      exact Nat.digits_ne_nil_iff_ne_zero.mpr h
    obtain ⟨d, ds, hd⟩ := List.exists_cons_of_ne_nil hne
    have hlast : d = (Nat.digits 10 n).getLast (Nat.digits_ne_nil_iff_ne_zero.mpr h) := by
      rw [← List.head_reverse hne]
      simp [hd]
    have hpos : d ≠ 0 := by
      rw [hlast]
      exact Nat.getLast_digit_ne_zero 10 h
    have hlt : d < 10 := by
      rw [hlast]
      exact Nat.digits_lt_base (by decide) (List.getLast_mem _)
    refine ⟨UInt8.ofNat (48 + d), _, by rw [hd]; rfl, ?_, ?_⟩
    · rw [UInt8.le_iff_toNat_le, digit_toNat hlt]
      show 49 ≤ 48 + d
      omega
    · rw [UInt8.le_iff_toNat_le, digit_toNat hlt]
      show 48 + d ≤ 57
      omega

/-! ## Buffers -/

/-- `out` with as much of `piece` behind it as a buffer of `size` bytes has room for. -/
def put (size : Nat) (out piece : Text) : Text := out ++ piece.take (size - out.length)

/-- A buffer that holds the front of what was printed so far still does. -/
theorem put_take (size : Nat) (text piece : Text) :
    put size (text.take size) piece = (text ++ piece).take size := by
  unfold put
  rw [List.take_append, List.length_take]
  congr 2
  omega

/-- What is printed of the pieces behind `out`. -/
def putAll (size : Nat) (out : Text) (pieces : List Text) : Text := pieces.foldl (put size) out

theorem putAll_take (size : Nat) (text : Text) (pieces : List Text) :
    putAll size (text.take size) pieces = (text ++ pieces.flatten).take size := by
  induction pieces generalizing text with
  | nil => rw [List.flatten_nil, List.append_nil]; rfl
  | cons piece pieces ih =>
    show putAll size (put size (text.take size) piece) pieces = _
    rw [put_take, ih, List.flatten_cons, List.append_assoc]

theorem putAll_nil (size : Nat) (pieces : List Text) :
    putAll size [] pieces = pieces.flatten.take size := by
  have h := putAll_take size [] pieces
  rwa [List.take_nil, List.nil_append] at h

/-- Pieces that fit are printed. -/
theorem putAll_fits {size : Nat} {pieces : List Text} (h : pieces.flatten.length ≤ size) :
    putAll size [] pieces = pieces.flatten := by
  rw [putAll_nil]
  exact List.take_of_length_le h

end Print
