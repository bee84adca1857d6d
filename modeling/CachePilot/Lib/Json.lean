import CachePilot.Lib.Print

/-!
# JSON texts

The grammar of JSON over bytes. A text is cut into tokens (`lex`) and the tokens are read
as one value (`parse`). A byte from 128 on stands for itself inside a string, so that
what a string spells is given byte for byte.

`Spelling` says what the raw bytes between two quotes spell.
-/

namespace Json

open Print (Text isDigit)

inductive Value
  | null
  | bool (b : Bool)
  | number (text : Text)
  | string (s : Text)
  | array (items : List Value)
  | object (members : List (Text × Value))

inductive Token
  | lbrace
  | rbrace
  | lbracket
  | rbracket
  | colon
  | comma
  | scalar (v : Value)

/-! ## Strings -/

def hexValue (c : UInt8) : Option Nat :=
  if 48 ≤ c ∧ c ≤ 57 then some (c.toNat - 48)
  else if 97 ≤ c ∧ c ≤ 102 then some (c.toNat - 87)
  else if 65 ≤ c ∧ c ≤ 70 then some (c.toNat - 55)
  else none

/-- Four hexadecimal digits. -/
def hex4 : Text → Option (Nat × Text)
  | a :: b :: c :: d :: rest =>
    match hexValue a, hexValue b, hexValue c, hexValue d with
    | some a, some b, some c, some d => some (((a * 16 + b) * 16 + c) * 16 + d, rest)
    | _, _, _, _ => none
  | _ => none

/-- The bytes that encode a code point. -/
def utf8 (n : Nat) : Text :=
  if n < 0x80 then [UInt8.ofNat n]
  else if n < 0x800 then [UInt8.ofNat (0xC0 + n / 64), UInt8.ofNat (0x80 + n % 64)]
  else if n < 0x10000 then
    [UInt8.ofNat (0xE0 + n / 4096), UInt8.ofNat (0x80 + n / 64 % 64), UInt8.ofNat (0x80 + n % 64)]
  else
    [UInt8.ofNat (0xF0 + n / 262144), UInt8.ofNat (0x80 + n / 4096 % 64),
      UInt8.ofNat (0x80 + n / 64 % 64), UInt8.ofNat (0x80 + n % 64)]

/-- What follows `\u`: a code point, or the two halves of one above 0xFFFF. -/
def readUnicode (s : Text) : Option (Text × Text) :=
  match hex4 s with
  | none => none
  | some (n, rest) =>
    if n < 0xD800 ∨ 0xDFFF < n then some (utf8 n, rest)
    else
      match rest with
      | c :: d :: rest =>
        match hex4 rest with
        | none => none
        | some (m, rest) =>
          if c = 92 ∧ d = 117 ∧ n < 0xDC00 ∧ 0xDC00 ≤ m ∧ m ≤ 0xDFFF then
            some (utf8 (0x10000 + (n - 0xD800) * 1024 + (m - 0xDC00)), rest)
          else none
      | _ => none

/-- The characters that one letter after a reverse solidus stands for. -/
def escaped (c : UInt8) : Option UInt8 :=
  if c = 34 ∨ c = 92 ∨ c = 47 then some c
  else if c = 98 then some 8
  else if c = 102 then some 12
  else if c = 110 then some 10
  else if c = 114 then some 13
  else if c = 116 then some 9
  else none

/-- What follows a reverse solidus. -/
def readEscape : Text → Option (Text × Text)
  | [] => none
  | c :: rest => if c = 117 then readUnicode rest else (escaped c).map fun d => ([d], rest)

/-- A byte that may stand for itself in a string. -/
def Plain (c : UInt8) : Prop := c ≠ 34 ∧ c ≠ 92 ∧ 32 ≤ c

instance (c : UInt8) : Decidable (Plain c) :=
  inferInstanceAs (Decidable (c ≠ 34 ∧ c ≠ 92 ∧ 32 ≤ c))

/-- One character of a string. -/
def readChar : Text → Option (Text × Text)
  | [] => none
  | c :: rest =>
    if c = 92 then readEscape rest else if Plain c then some ([c], rest) else none

/-- A string up to its closing quote. -/
def readString : Nat → Text → Option (Text × Text)
  | 0, _ => none
  | fuel + 1, s =>
    if s.head? = some 34 then some ([], s.tail)
    else
      match readChar s with
      | none => none
      | some (cs, rest) => (readString fuel rest).map fun read => (cs ++ read.1, read.2)

/-! ## Tokens -/

def isWs (c : UInt8) : Bool := c == 32 || c == 9 || c == 10 || c == 13

def skipWs (s : Text) : Text := s.dropWhile isWs

/-- The bytes of numbers and words. -/
def isBare (c : UInt8) : Bool :=
  isDigit c || (97 ≤ c && c ≤ 122) || (65 ≤ c && c ≤ 90) || c == 43 || c == 45 || c == 46

def isExponent (s : Text) : Bool :=
  match s with
  | [] => true
  | c :: rest =>
    (c == 101 || c == 69) &&
      let ds := if rest.head? = some 43 ∨ rest.head? = some 45 then rest.tail else rest
      !ds.isEmpty && ds.all isDigit

def isFraction (s : Text) : Bool :=
  if s.head? = some 46 then
    !(s.tail.takeWhile isDigit).isEmpty && isExponent (s.tail.dropWhile isDigit)
  else isExponent s

/-- A number has no leading zeros. -/
def isNumber (s : Text) : Bool :=
  let s := if s.head? = some 45 then s.tail else s
  let ds := s.takeWhile isDigit
  !ds.isEmpty && (ds == [48] || ds.head? != some 48) && isFraction (s.dropWhile isDigit)

def bareValue (s : Text) : Option Value :=
  if s = [116, 114, 117, 101] then some (.bool true)
  else if s = [102, 97, 108, 115, 101] then some (.bool false)
  else if s = [110, 117, 108, 108] then some .null
  else if isNumber s then some (.number s)
  else none

def mark (c : UInt8) : Option Token :=
  if c = 123 then some .lbrace
  else if c = 125 then some .rbrace
  else if c = 91 then some .lbracket
  else if c = 93 then some .rbracket
  else if c = 58 then some .colon
  else if c = 44 then some .comma
  else none

/-- The token that starts with the byte `c`. -/
def readToken (c : UInt8) (rest : Text) : Option (Token × Text) :=
  if c = 34 then
    (readString (rest.length + 1) rest).map fun read => (.scalar (.string read.1), read.2)
  else
    match mark c with
    | some t => some (t, rest)
    | none =>
      (bareValue ((c :: rest).takeWhile isBare)).map fun v =>
        (.scalar v, (c :: rest).dropWhile isBare)

def lexFuel : Nat → Text → Option (List Token)
  | 0, _ => none
  | fuel + 1, s =>
    match skipWs s with
    | [] => some []
    | c :: rest =>
      match readToken c rest with
      | none => none
      | some (t, rest) => (lexFuel fuel rest).map (t :: ·)

def lex (s : Text) : Option (List Token) := lexFuel (s.length + 1) s

/-! ## Values -/

mutual

def parseValue : Nat → List Token → Option (Value × List Token)
  | 0, _ => none
  | fuel + 1, ts =>
    match ts with
    | .scalar v :: ts => some (v, ts)
    | .lbrace :: .rbrace :: ts => some (.object [], ts)
    | .lbrace :: ts => (parseMembers fuel ts).map fun read => (.object read.1, read.2)
    | .lbracket :: .rbracket :: ts => some (.array [], ts)
    | .lbracket :: ts => (parseElements fuel ts).map fun read => (.array read.1, read.2)
    | _ => none

/-- The members of an object up to the closing brace. -/
def parseMembers : Nat → List Token → Option (List (Text × Value) × List Token)
  | 0, _ => none
  | fuel + 1, ts =>
    match ts with
    | .scalar (.string name) :: .colon :: ts =>
      match parseValue fuel ts with
      | some (v, .comma :: ts) =>
        (parseMembers fuel ts).map fun read => ((name, v) :: read.1, read.2)
      | some (v, .rbrace :: ts) => some ([(name, v)], ts)
      | _ => none
    | _ => none

/-- The elements of an array up to the closing bracket. -/
def parseElements : Nat → List Token → Option (List Value × List Token)
  | 0, _ => none
  | fuel + 1, ts =>
    match parseValue fuel ts with
    | some (v, .comma :: ts) => (parseElements fuel ts).map fun read => (v :: read.1, read.2)
    | some (v, .rbracket :: ts) => some ([v], ts)
    | _ => none

end

/-- A text that is one value. -/
def parse (s : Text) : Option Value :=
  match lex s with
  | none => none
  | some ts =>
    match parseValue (ts.length + 1) ts with
    | some (v, []) => some v
    | _ => none

/-- The members of an object, in the order of the text. -/
def Value.members : Value → List (Text × Value)
  | .object members => members
  | _ => []

/-- The first member of that name. -/
def Value.member (name : Text) (v : Value) : Option Value := v.members.lookup name

/-! ## What raw bytes spell -/

/-- The raw bytes between two quotes and the string that they spell. -/
inductive Spelling : Text → Text → Prop
  | nil : Spelling [] []
  | plain {c : UInt8} {raw s : Text} : Plain c → Spelling raw s → Spelling (c :: raw) (c :: s)
  | escape {c : UInt8} {raw s : Text} (t cs : Text) :
      (∀ u, readChar (92 :: c :: (t ++ u)) = some (cs, u)) → 34 ∉ t → cs.length < t.length + 2 →
      Spelling raw s → Spelling (92 :: c :: (t ++ raw)) (cs ++ s)

theorem hexValue_ne_quote {c : UInt8} {n : Nat} (h : hexValue c = some n) : c ≠ 34 := by
  rintro rfl
  have hnone : hexValue 34 = none := by decide
  rw [hnone] at h
  exact nomatch h

theorem hex4_cases {s rest : Text} {n : Nat} (h : hex4 s = some (n, rest)) :
    ∃ t, s = t ++ rest ∧ t.length = 4 ∧ 34 ∉ t ∧ ∀ u, hex4 (t ++ u) = some (n, u) := by
  unfold hex4 at h
  split at h
  · next a b c d s =>
    split at h
    · next na nb nc nd ha hb hc hd =>
      obtain ⟨rfl, rfl⟩ := Prod.mk.inj (Option.some.inj h)
      refine ⟨[a, b, c, d], rfl, rfl, ?_, fun u => ?_⟩
      · have ha' := hexValue_ne_quote ha
        have hb' := hexValue_ne_quote hb
        have hc' := hexValue_ne_quote hc
        have hd' := hexValue_ne_quote hd
        simp [ha'.symm, hb'.symm, hc'.symm, hd'.symm]
      · show hex4 (a :: b :: c :: d :: u) = _
        unfold hex4
        simp only [ha, hb, hc, hd]
    · exact nomatch h
  · exact nomatch h

theorem utf8_length (n : Nat) : (utf8 n).length ≤ 4 := by
  unfold utf8
  split
  · exact Nat.le_of_ble_eq_true rfl
  · split
    · exact Nat.le_of_ble_eq_true rfl
    · split
      · exact Nat.le_of_ble_eq_true rfl
      · exact Nat.le_refl 4

theorem readUnicode_cases {s cs rest : Text} (h : readUnicode s = some (cs, rest)) :
    ∃ t, s = t ++ rest ∧ 4 ≤ t.length ∧ cs.length ≤ 4 ∧ 34 ∉ t ∧
      ∀ u, readUnicode (t ++ u) = some (cs, u) := by
  unfold readUnicode at h
  split at h
  · exact nomatch h
  · next n r hn =>
    obtain ⟨t, rfl, ht, hq, hread⟩ := hex4_cases hn
    split at h
    · next hone =>
      obtain ⟨rfl, rfl⟩ := Prod.mk.inj (Option.some.inj h)
      refine ⟨t, rfl, Nat.le_of_eq ht.symm, utf8_length n, hq, fun u => ?_⟩
      unfold readUnicode
      rw [hread u]
      exact if_pos hone
    · next hone =>
      split at h
      · next c d r =>
        split at h
        · exact nomatch h
        · next m r hm =>
          obtain ⟨t', rfl, ht', hq', hread'⟩ := hex4_cases hm
          split at h
          · next hlow =>
            obtain ⟨rfl, rfl⟩ := Prod.mk.inj (Option.some.inj h)
            refine ⟨t ++ c :: d :: t', by simp, ?_, utf8_length _, ?_, fun u => ?_⟩
            · rw [List.length_append]
              omega
            · rw [hlow.1, hlow.2.1]
              simp [hq, hq']
            · unfold readUnicode
              rw [List.append_assoc, hread]
              simp only [List.cons_append]
              rw [if_neg hone, hread' u]
              exact if_pos hlow
          · exact nomatch h
      · exact nomatch h

/-- A character is a plain byte, or a reverse solidus and what belongs to it. -/
theorem readChar_cases {s cs rest : Text} (h : readChar s = some (cs, rest)) :
    (∃ c, s = c :: rest ∧ cs = [c] ∧ Plain c) ∨
    ∃ c t, s = 92 :: c :: (t ++ rest) ∧ 34 ∉ t ∧ cs.length < t.length + 2 ∧
      ∀ u, readChar (92 :: c :: (t ++ u)) = some (cs, u) := by
  unfold readChar at h
  split at h
  · exact nomatch h
  · next c s =>
    split at h
    · next hc =>
      refine Or.inr ?_
      subst hc
      unfold readEscape at h
      split at h
      · exact nomatch h
      · next c s =>
        split at h
        · next hu =>
          subst hu
          obtain ⟨t, rfl, ht, hcs, hq, hread⟩ := readUnicode_cases h
          exact ⟨117, t, rfl, hq, by omega, hread⟩
        · next hu =>
          obtain ⟨d, hd, hcs⟩ := Option.map_eq_some_iff.mp h
          obtain ⟨rfl, rfl⟩ := Prod.mk.inj hcs
          refine ⟨c, [], rfl, List.not_mem_nil, Nat.le_refl 2, fun u => ?_⟩
          show (if c = 117 then _ else _) = _
          rw [if_neg hu, hd]
          rfl
    · split at h
      · next hc =>
        obtain ⟨rfl, rfl⟩ := Prod.mk.inj (Option.some.inj h)
        exact Or.inl ⟨c, rfl, rfl, hc⟩
      · exact nomatch h

theorem readChar_plain {c : UInt8} (h : Plain c) (rest : Text) :
    readChar (c :: rest) = some ([c], rest) := by
  unfold readChar
  simp only
  rw [if_neg h.2.1, if_pos h]

/-- A string is the raw bytes before its closing quote. -/
theorem readString_spelling {fuel : Nat} {s read rest : Text}
    (h : readString fuel s = some (read, rest)) :
    ∃ raw, s = raw ++ 34 :: rest ∧ Spelling raw read := by
  induction fuel generalizing s read with
  | zero => exact nomatch h
  | succ fuel ih =>
    unfold readString at h
    split at h
    · next hend =>
      obtain ⟨rfl, rfl⟩ := Prod.mk.inj (Option.some.inj h)
      exact ⟨[], (List.cons_head?_tail hend).symm, .nil⟩
    · split at h
      · exact nomatch h
      · next cs r hc =>
        obtain ⟨⟨read', rest'⟩, htail, hread⟩ := Option.map_eq_some_iff.mp h
        obtain ⟨rfl, rfl⟩ := Prod.mk.inj hread
        obtain ⟨raw, rfl, hraw⟩ := ih htail
        rcases readChar_cases hc with ⟨c, rfl, rfl, hplain⟩ | ⟨c, t, rfl, hq, hlen, hread⟩
        · exact ⟨c :: raw, rfl, .plain hplain hraw⟩
        · exact ⟨92 :: c :: (t ++ raw), by simp, .escape t cs hread hq hlen hraw⟩

namespace Spelling

theorem readString {raw s : Text} (h : Spelling raw s) (rest : Text) {fuel : Nat}
    (hfuel : raw.length < fuel) : readString fuel (raw ++ 34 :: rest) = some (s, rest) := by
  obtain ⟨fuel, rfl⟩ := Nat.exists_eq_succ_of_ne_zero (Nat.ne_of_gt (Nat.zero_lt_of_lt hfuel))
  induction h generalizing fuel with
  | nil => rfl
  | @plain c raw s hc _ ih =>
    obtain ⟨fuel, rfl⟩ := Nat.exists_eq_add_of_lt (Nat.lt_of_succ_lt_succ hfuel)
    have hne : ¬(c :: raw ++ 34 :: rest).head? = some 34 := fun h0 => hc.1 (Option.some.inj h0)
    unfold Json.readString
    rw [if_neg hne, List.cons_append, readChar_plain hc]
    simp only
    rw [ih _ (by omega)]
    rfl
  | @escape c raw s t cs hread hq hlen _ ih =>
    have hne : ¬(92 :: c :: (t ++ raw) ++ 34 :: rest).head? = some 34 :=
      fun h0 => absurd (Option.some.inj h0) (by decide)
    have hsplit : 92 :: c :: (t ++ raw) ++ 34 :: rest = 92 :: c :: (t ++ (raw ++ 34 :: rest)) := by
      simp
    rw [List.length_cons, List.length_cons, List.length_append] at hfuel
    obtain ⟨fuel, rfl⟩ := Nat.exists_eq_succ_of_ne_zero (n := fuel) (by omega)
    unfold Json.readString
    rw [if_neg hne, hsplit, hread]
    simp only
    rw [ih _ (by omega)]
    rfl

/-- Only plain bytes spell as many bytes as they are. -/
theorem plain_or_lt {raw s : Text} (h : Spelling raw s) :
    (s = raw ∧ ∀ c ∈ raw, Plain c) ∨ s.length < raw.length := by
  induction h with
  | nil => exact Or.inl ⟨rfl, fun c hc => nomatch hc⟩
  | plain hc _ ih =>
    rcases ih with ⟨rfl, hraw⟩ | hlt
    · exact Or.inl ⟨rfl, List.forall_mem_cons.mpr ⟨hc, hraw⟩⟩
    · exact Or.inr (Nat.succ_lt_succ hlt)
  | @escape c raw s t cs _ _ hlen _ ih =>
    refine Or.inr ?_
    have hle : s.length ≤ raw.length := by
      rcases ih with ⟨rfl, _⟩ | hlt
      · exact Nat.le_refl _
      · exact Nat.le_of_lt hlt
    simp only [List.length_cons, List.length_append]
    omega

/-- What spells itself is plain. -/
theorem plain_of_self {s : Text} (h : Spelling s s) : ∀ c ∈ s, Plain c := by
  rcases h.plain_or_lt with ⟨_, hs⟩ | hlt
  · exact hs
  · exact absurd hlt (Nat.lt_irrefl _)

theorem of_plain {s : Text} (h : ∀ c ∈ s, Plain c) : Spelling s s := by
  induction s with
  | nil => exact .nil
  | cons c s ih =>
    rw [List.forall_mem_cons] at h
    exact .plain h.1 (ih h.2)

/-- `of_plain`, the characters checked by evaluation. -/
theorem of_all_plain {s : Text} (h : s.all (fun c => decide (Plain c)) = true) : Spelling s s := by
  refine of_plain fun c hc => ?_
  exact of_decide_eq_true (List.all_eq_true.mp h c hc)

/-- A quote stands behind a reverse solidus. -/
theorem quote {raw s : Text} (h : Spelling raw s) {p q : Text} (hraw : raw = p ++ 34 :: q) :
    ∃ p', p = p' ++ [92] := by
  induction h generalizing p with
  | nil => exact absurd hraw.symm (by simp)
  | @plain c raw s hc _ ih =>
    cases p with
    | nil => exact absurd (List.cons.inj hraw).1 hc.1
    | cons d p =>
      obtain ⟨p', rfl⟩ := ih (List.cons.inj hraw).2
      exact ⟨d :: p', rfl⟩
  | @escape c raw s t cs _ hq _ _ ih =>
    match p, hraw with
    | [], hraw => exact absurd (List.cons.inj hraw).1 (by decide)
    | [d], hraw =>
      obtain ⟨rfl, _⟩ := List.cons.inj hraw
      exact ⟨[], rfl⟩
    | d :: e :: p, hraw =>
      have htail := (List.cons.inj (List.cons.inj hraw).2).2
      rcases List.append_eq_append_iff.mp htail with ⟨as, rfl, has⟩ | ⟨as, rfl, has⟩
      · obtain ⟨p', rfl⟩ := ih has
        exact ⟨d :: e :: (t ++ p'), by simp⟩
      · cases as with
        | nil =>
          obtain ⟨p', hp⟩ := ih (p := []) (by simpa using has.symm)
          exact absurd hp (by simp)
        | cons f as =>
          obtain ⟨rfl, _⟩ := List.cons.inj has
          exact absurd (by simp) hq

end Spelling

end Json
