import Mathlib.Data.List.Lex
import Mathlib.Data.List.TakeWhile
import Mathlib.Data.UInt
import Mathlib.Order.Basic

/-!
# Byte strings and nginx's comparisons

The comparison functions of `ngx_string.c` that the module calls, over strings
given as lists of bytes. A comparison that stops at a NUL byte
(`ngx_strncmp`, `ngx_strncasecmp`) compares the part before the first NUL; the
ones that do not (`ngx_memcmp`, `ngx_memn2cmp`) order strings lexicographically,
a proper prefix first.
-/

namespace NgxString

abbrev Bytes := List UInt8

/-- The part of a string that a C string function sees. -/
def cstr (s : Bytes) : Bytes := s.takeWhile (· ≠ 0)

theorem cstr_of_nulFree {s : Bytes} (h : (0 : UInt8) ∉ s) : cstr s = s := by
  unfold cstr
  rw [List.takeWhile_eq_self_iff]
  intro b hb
  simpa using fun he : b = 0 => h (he ▸ hb)

theorem cstr_cons (b : UInt8) (s : Bytes) : cstr (b :: s) = if b = 0 then [] else b :: cstr s := by
  by_cases h : b = 0 <;> simp [cstr, h]

/-! ## Comparisons that stop at a NUL -/

/-- The loop of `ngx_strncmp` and `ngx_strncasecmp`: compare up to `n` bytes
after folding each by `f`, stop at a difference or at a common NUL. Beyond its
end a string reads as its terminating NUL. -/
def strncmpBy (f : UInt8 → UInt8) : Nat → Bytes → Bytes → Int
  | 0, _, _ => 0
  | n + 1, s1, s2 =>
    let c1 := f (s1.headD 0)
    let c2 := f (s2.headD 0)
    if c1 = c2 then
      if c1 = 0 then 0 else strncmpBy f n s1.tail s2.tail
    else (c1.toNat : Int) - c2.toNat

/-- `(c >= 'A' && c <= 'Z') ? (c | 0x20) : c`. -/
def ngxTolower (c : UInt8) : UInt8 := if 65 ≤ c ∧ c ≤ 90 then c ||| 32 else c

def ngxStrncmp (s1 s2 : Bytes) (n : Nat) : Int := strncmpBy id n s1 s2

def ngxStrncasecmp (s1 s2 : Bytes) (n : Nat) : Int := strncmpBy ngxTolower n s1 s2

theorem strncmpBy_cons (f : UInt8 → UInt8) (n : Nat) (a b : UInt8) (s1 s2 : Bytes) :
    strncmpBy f (n + 1) (a :: s1) (b :: s2) =
      if f a = f b then if f a = 0 then 0 else strncmpBy f n s1 s2
      else ((f a).toNat : Int) - (f b).toNat := rfl

theorem toNat_sub_ne_zero {a b : UInt8} (h : a ≠ b) : (a.toNat : Int) - b.toNat ≠ 0 := by
  intro h0
  have hn : a.toNat = b.toNat := by omega
  exact h (UInt8.toNat_inj.mp hn)

/-- Two strings of at least `n` bytes compare equal when their first `n` bytes,
folded and cut at the first NUL, are the same. -/
theorem strncmpBy_eq_zero {f : UInt8 → UInt8} {n : Nat} {s1 s2 : Bytes}
    (h1 : n ≤ s1.length) (h2 : n ≤ s2.length) :
    strncmpBy f n s1 s2 = 0 ↔ cstr ((s1.take n).map f) = cstr ((s2.take n).map f) := by
  induction n generalizing s1 s2 with
  | zero => simp [strncmpBy]
  | succ n ih =>
    cases s1 with
    | nil => simp at h1
    | cons a s1 =>
      cases s2 with
      | nil => simp at h2
      | cons b s2 =>
        simp only [strncmpBy_cons, List.take_succ_cons, List.map_cons, cstr_cons]
        by_cases hab : f a = f b
        · by_cases h0 : f b = 0
          · simp [hab, h0]
          · have ih' := @ih s1 s2 (by simpa using h1) (by simpa using h2)
            simp [hab, h0, ih']
        · rw [if_neg hab]
          constructor
          · intro h
            exact absurd h (toNat_sub_ne_zero hab)
          · intro h
            by_cases ha0 : f a = 0 <;> by_cases hb0 : f b = 0
            · exact absurd (ha0.trans hb0.symm) hab
            · simp [ha0, hb0] at h
            · simp [ha0, hb0] at h
            · rw [if_neg ha0, if_neg hb0] at h
              exact absurd (List.cons.inj h).1 hab

/-- A comparison looks at the first `n` bytes only. -/
theorem strncmpBy_append {f : UInt8 → UInt8} {n : Nat} {s : Bytes} (h : n ≤ s.length) (x w : Bytes) :
    strncmpBy f n (s ++ x) w = strncmpBy f n s w := by
  induction n generalizing s w with
  | zero => rfl
  | succ n ih =>
    cases s with
    | nil => exact absurd h (Nat.not_succ_le_zero n)
    | cons c s =>
      have hrec : strncmpBy f n (s ++ x) w.tail = strncmpBy f n s w.tail :=
        ih (Nat.le_of_succ_le_succ h) w.tail
      unfold strncmpBy
      rw [List.cons_append, List.headD_cons, List.tail_cons, List.headD_cons, List.tail_cons, hrec]

/-- A comparison goes on behind a part without a NUL where that part is matched. -/
theorem strncmpBy_append_eq_zero {f : UInt8 → UInt8} {a b : Bytes} (h0 : ∀ c ∈ a, f c ≠ 0)
    (hl : b.length = a.length) (n : Nat) (x y : Bytes) :
    strncmpBy f (b.length + n) (a ++ x) (b ++ y) = 0 ↔
      b.map f = a.map f ∧ strncmpBy f n x y = 0 := by
  induction a generalizing b with
  | nil =>
    rw [List.eq_nil_of_length_eq_zero hl]
    simp
  | cons c a ih =>
    cases b with
    | nil => exact absurd hl (Nat.succ_ne_zero _).symm
    | cons d b =>
      have ih' := ih (fun c hc => h0 c (List.mem_cons_of_mem _ hc)) (Nat.succ.inj hl)
      have hlen : (d :: b).length + n = b.length + n + 1 := by
        rw [List.length_cons]
        omega
      rw [hlen, List.cons_append, List.cons_append, strncmpBy_cons, List.map_cons, List.map_cons,
        List.cons.injEq]
      by_cases hcd : f c = f d
      · rw [if_pos hcd, if_neg (h0 c List.mem_cons_self), ih']
        simp [hcd]
      · rw [if_neg hcd]
        constructor
        · intro h
          exact absurd h (toNat_sub_ne_zero hcd)
        · rintro ⟨⟨h, -⟩, -⟩
          exact absurd h.symm hcd

/-- Folding makes no character below the letters. -/
theorem ngxTolower_eq {c d : UInt8} (hd : d < 65) : ngxTolower c = d ↔ c = d := by
  unfold ngxTolower
  split
  · next h =>
    have hor : 65 ≤ (c ||| 32) := UInt8.le_trans h.1 UInt8.left_le_or
    constructor
    · intro he
      rw [he] at hor
      exact absurd hd (UInt8.not_lt.mpr hor)
    · intro he
      rw [he] at h
      exact absurd hd (UInt8.not_lt.mpr h.1)
  · exact Iff.rfl

theorem ngxStrncmp_eq_zero {n : Nat} {s1 s2 : Bytes} (h1 : n ≤ s1.length) (h2 : n ≤ s2.length) :
    ngxStrncmp s1 s2 n = 0 ↔ cstr (s1.take n) = cstr (s2.take n) := by
  simpa [ngxStrncmp] using strncmpBy_eq_zero (f := id) h1 h2

theorem ngxStrncasecmp_eq_zero {n : Nat} {s1 s2 : Bytes}
    (h1 : n ≤ s1.length) (h2 : n ≤ s2.length) :
    ngxStrncasecmp s1 s2 n = 0 ↔
      cstr ((s1.take n).map ngxTolower) = cstr ((s2.take n).map ngxTolower) :=
  strncmpBy_eq_zero h1 h2

/-- On strings of one length without a NUL in the first, `ngx_strncmp` decides
equality. -/
theorem ngxStrncmp_eq_zero_iff_eq {s1 s2 : Bytes} (hl : s1.length = s2.length)
    (h0 : (0 : UInt8) ∉ s1) (h0' : (0 : UInt8) ∉ s2) :
    ngxStrncmp s1 s2 s1.length = 0 ↔ s1 = s2 := by
  rw [ngxStrncmp_eq_zero (Nat.le_refl _) (Nat.le_of_eq hl), List.take_length,
    cstr_of_nulFree h0, List.take_of_length_le (Nat.le_of_eq hl.symm), cstr_of_nulFree h0']

/-- A string as long as a word in lower case is compared with it as a whole. -/
theorem ngxStrncasecmp_word {s word : Bytes} {n : Nat} (hlower : word.map ngxTolower = word)
    (hword : 0 ∉ word) (hn : word.length = n) (hlen : s.length = n) :
    ngxStrncasecmp s word n = 0 ↔ s.map ngxTolower = word := by
  rw [ngxStrncasecmp_eq_zero (Nat.le_of_eq hlen.symm) (Nat.le_of_eq hn.symm),
    List.take_of_length_le (Nat.le_of_eq hlen), List.take_of_length_le (Nat.le_of_eq hn), hlower,
    cstr_of_nulFree hword]
  constructor
  · intro h
    -- nothing is cut off
    have hpre : cstr (s.map ngxTolower) <+: s.map ngxTolower := List.takeWhile_prefix _
    refine (hpre.eq_of_length ?_).symm.trans h
    rw [h, List.length_map, hlen, hn]
  · intro h
    rw [h, cstr_of_nulFree hword]

/-! ## Comparisons of whole memory -/

/-- `ngx_memcmp`: the first difference among the first `n` bytes decides. -/
def ngxMemcmp : Bytes → Bytes → Nat → Int
  | _, _, 0 => 0
  | s1, s2, n + 1 =>
    let c1 := s1.headD 0
    let c2 := s2.headD 0
    if c1 = c2 then ngxMemcmp s1.tail s2.tail n else (c1.toNat : Int) - c2.toNat

/-- `ngx_memn2cmp`: compare the common length, then the lengths. -/
def ngxMemn2cmp (s1 s2 : Bytes) : Int :=
  let n := if s1.length ≤ s2.length then s1.length else s2.length
  let z : Int := if s1.length ≤ s2.length then -1 else 1
  let m := ngxMemcmp s1 s2 n
  if m ≠ 0 ∨ s1.length = s2.length then m else z

/-- The order of byte strings: lexicographic, bytes unsigned. -/
def codes (s : Bytes) : List Nat := s.map UInt8.toNat

theorem codes_injective : Function.Injective codes :=
  List.map_injective_iff.mpr fun _ _ h => UInt8.toNat_inj.mp h

@[simp] theorem ngxMemn2cmp_nil_nil : ngxMemn2cmp [] [] = 0 := rfl

@[simp] theorem ngxMemn2cmp_nil_cons (b : UInt8) (s : Bytes) : ngxMemn2cmp [] (b :: s) = -1 := rfl

@[simp] theorem ngxMemn2cmp_cons_nil (b : UInt8) (s : Bytes) : ngxMemn2cmp (b :: s) [] = 1 := rfl

theorem ngxMemn2cmp_cons_cons (a b : UInt8) (s1 s2 : Bytes) :
    ngxMemn2cmp (a :: s1) (b :: s2) =
      if a = b then ngxMemn2cmp s1 s2 else (a.toNat : Int) - b.toNat := by
  have hle : (a :: s1).length ≤ (b :: s2).length ↔ s1.length ≤ s2.length := by simp
  have heq : (a :: s1).length = (b :: s2).length ↔ s1.length = s2.length := by simp
  simp only [ngxMemn2cmp, hle, heq]
  by_cases h : s1.length ≤ s2.length
  · by_cases hab : a = b
    · simp [h, hab, ngxMemcmp]
    · have hne := toNat_sub_ne_zero hab
      simp [h, hab, ngxMemcmp, hne]
  · by_cases hab : a = b
    · simp [h, hab, ngxMemcmp]
    · have hne := toNat_sub_ne_zero hab
      simp [h, hab, ngxMemcmp, hne]

theorem ngxMemn2cmp_eq_zero (s1 s2 : Bytes) : ngxMemn2cmp s1 s2 = 0 ↔ s1 = s2 := by
  induction s1 generalizing s2 with
  | nil => cases s2 <;> simp
  | cons a s1 ih =>
    cases s2 with
    | nil => simp
    | cons b s2 =>
      rw [ngxMemn2cmp_cons_cons]
      by_cases hab : a = b
      · simp [hab, ih]
      · simp [hab, toNat_sub_ne_zero hab]

/-- `ngx_memn2cmp` is negative exactly below in the lexicographic order. -/
theorem ngxMemn2cmp_neg (s1 s2 : Bytes) : ngxMemn2cmp s1 s2 < 0 ↔ codes s1 < codes s2 := by
  induction s1 generalizing s2 with
  | nil => cases s2 <;> simp [codes]
  | cons a s1 ih =>
    cases s2 with
    | nil => simp [codes]
    | cons b s2 =>
      rw [ngxMemn2cmp_cons_cons]
      simp only [codes, List.map_cons, List.cons_lt_cons_iff] at ih ⊢
      by_cases hab : a = b
      · simp [hab, ih]
      · have hn : a.toNat ≠ b.toNat := fun h => hab (UInt8.toNat_inj.mp h)
        simp only [if_neg hab, hn, false_and, or_false]
        omega

/-! ## Search -/

/-- `ngx_strnstr`: whether a word is found in a string before its first NUL. -/
def ngxStrnstr (word : Bytes) : Bytes → Bool
  | [] => false
  | c :: rest =>
    if c = 0 then false
    else if c = word.headD 0 then
      if rest.length < word.tail.length then false
      else if ngxStrncmp rest word.tail word.tail.length == 0 then true
      else ngxStrnstr word rest
    else ngxStrnstr word rest

theorem cstr_length_le (s : Bytes) : (cstr s).length ≤ s.length := (List.takeWhile_prefix _).length_le

/-- A word without a NUL that a string starts with. -/
theorem prefix_cstr_iff {word s : Bytes} (hword : 0 ∉ word) :
    word <+: cstr s ↔ word.length ≤ s.length ∧ ngxStrncmp s word word.length = 0 := by
  have hcmp : word.length ≤ s.length →
      (ngxStrncmp s word word.length = 0 ↔ cstr (s.take word.length) = word) := by
    intro hle
    rw [ngxStrncmp_eq_zero hle (Nat.le_refl _), List.take_length, cstr_of_nulFree hword]
  constructor
  · intro h
    have hpre : word <+: s := h.trans (List.takeWhile_prefix _)
    refine ⟨hpre.length_le, (hcmp hpre.length_le).mpr ?_⟩
    rw [← List.prefix_iff_eq_take.mp hpre, cstr_of_nulFree hword]
  · rintro ⟨hle, hzero⟩
    have hcut := (hcmp hle).mp hzero
    -- nothing of the first bytes is cut off
    have hpre : cstr (s.take word.length) <+: s.take word.length := List.takeWhile_prefix _
    have htake : s.take word.length = word := by
      refine (hpre.eq_of_length ?_).symm.trans hcut
      rw [hcut, List.length_take, Nat.min_eq_left hle]
    have hall : ∀ b ∈ word, decide (b ≠ 0) = true := fun b hb => decide_eq_true fun h => hword (h ▸ hb)
    have hsplit := List.take_append_drop word.length s
    rw [htake] at hsplit
    rw [← hsplit]
    unfold cstr
    rw [List.takeWhile_append_of_pos hall]
    exact List.prefix_append word _

theorem ngxStrnstr_iff {word s : Bytes} (hne : word ≠ []) (hword : 0 ∉ word) :
    ngxStrnstr word s = true ↔ word <:+: cstr s := by
  obtain ⟨w, ws, rfl⟩ := List.exists_cons_of_ne_nil hne
  obtain ⟨hw, hws⟩ := not_or.mp (mt List.mem_cons.mpr hword)
  induction s with
  | nil => simp [ngxStrnstr, cstr]
  | cons c rest ih =>
    rw [cstr_cons]
    unfold ngxStrnstr
    split
    · simp
    · rw [List.infix_cons_iff, List.cons_prefix_cons, prefix_cstr_iff hws, List.headD_cons, List.tail_cons]
      split
      · next hc =>
        subst hc
        split
        · next hshort =>
          refine iff_of_false (nomatch ·) ?_
          rintro (⟨-, hle, -⟩ | hlater)
          · exact absurd hle (Nat.not_le.mpr hshort)
          · have hlen := hlater.length_le.trans (cstr_length_le rest)
            exact absurd ((Nat.le_succ _).trans hlen) (Nat.not_le.mpr hshort)
        · next hlong =>
          split
          · next hzero => exact iff_of_true rfl (Or.inl ⟨rfl, Nat.le_of_not_lt hlong, beq_iff_eq.mp hzero⟩)
          · next hzero =>
            rw [ih]
            refine (or_iff_right ?_).symm
            rintro ⟨-, -, h⟩
            exact hzero (beq_iff_eq.mpr h)
      · next hc =>
        rw [ih]
        exact (or_iff_right fun h => hc h.1.symm).symm

end NgxString
