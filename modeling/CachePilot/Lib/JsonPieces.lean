import CachePilot.Lib.Json
import Mathlib.Data.List.TakeWhile

/-!
# JSON texts in pieces

A program that prints JSON prints it in pieces. `lex_append` puts the tokens of the pieces
together, also where the tokens of the second piece are not known. The rules for `Parses`
and `ParsesMembers` build the value that the tokens are.
-/

namespace Json

open Print (Text isDigit decimal decimalInt)

/-! ## Where a token ends -/

/-- No number and no word goes on in `u`. -/
def Ends (u : Text) : Prop := ∀ d q, u = d :: q → isBare d = false

/-- No number and no word goes on from `a` to `b`. -/
def Apart (a b : Text) : Prop :=
  ∀ p c d q, a = p ++ [c] → b = d :: q → isBare c = false ∨ isBare d = false

theorem Apart.of_left {a : Text} {c : UInt8} (hlast : a.getLast? = some c) (h : isBare c = false)
    (b : Text) : Apart a b := by
  rintro p c' d q rfl _
  rw [List.getLast?_concat] at hlast
  rw [Option.some.inj hlast]
  exact Or.inl h

theorem Apart.of_right {b : Text} {d : UInt8} (hhead : b.head? = some d) (h : isBare d = false)
    (a : Text) : Apart a b := by
  rintro p c d' q _ rfl
  rw [Option.some.inj hhead]
  exact Or.inr h

theorem Apart.of_append (a' : Text) {a b : Text} (h : Apart (a' ++ a) b) : Apart a b :=
  fun p c d q hp hq => h (a' ++ p) c d q (by rw [hp, List.append_assoc]) hq

theorem Apart.ends {a b : Text} (h : Apart a b) (hne : a ≠ []) (hbare : ∀ c ∈ a, isBare c = true) :
    Ends b := by
  intro d q hq
  have ha := List.dropLast_append_getLast hne
  rcases h _ _ d q ha.symm hq with hc | hd
  · rw [hbare _ (List.getLast_mem hne)] at hc
    exact nomatch hc
  · exact hd

theorem takeWhile_append_ends {a u : Text} (ha : ∀ c ∈ a, isBare c = true) (hu : Ends u) :
    (a ++ u).takeWhile isBare = a ∧ (a ++ u).dropWhile isBare = u := by
  rw [List.takeWhile_append_of_pos ha, List.dropWhile_append_of_pos ha]
  cases u with
  | nil => exact ⟨List.append_nil a, rfl⟩
  | cons d q =>
    have hd : ¬isBare d = true := by simp [hu d q rfl]
    rw [List.takeWhile_cons_of_neg hd, List.dropWhile_cons_of_neg hd]
    exact ⟨List.append_nil a, rfl⟩

/-- A token takes a front of the text and looks at nothing behind it, but that a number or
a word looks where it ends. -/
theorem readToken_cases {c : UInt8} {rest r : Text} {t : Token} (h : readToken c rest = some (t, r)) :
    ∃ p, rest = p ++ r ∧
      ((∀ u, readToken c (p ++ u) = some (t, u)) ∨
        ((∀ d ∈ c :: p, isBare d = true) ∧ Ends r ∧
          ∀ u, Ends u → readToken c (p ++ u) = some (t, u))) := by
  unfold readToken at h
  split at h
  · next hc =>
    obtain ⟨⟨s, rest'⟩, hs, hread⟩ := Option.map_eq_some_iff.mp h
    obtain ⟨rfl, rfl⟩ := Prod.mk.inj hread
    obtain ⟨raw, rfl, hraw⟩ := readString_spelling hs
    refine ⟨raw ++ [34], by simp, Or.inl fun u => ?_⟩
    unfold readToken
    rw [if_pos hc, List.append_assoc, List.singleton_append, hraw.readString u]
    · rfl
    · rw [List.length_append]
      omega
  · next hc =>
    split at h
    · next m hm =>
      obtain ⟨rfl, rfl⟩ := Prod.mk.inj (Option.some.inj h)
      refine ⟨[], rfl, Or.inl fun u => ?_⟩
      unfold readToken
      rw [if_neg hc, hm]
      rfl
    · next hm =>
      obtain ⟨v, hv, hread⟩ := Option.map_eq_some_iff.mp h
      obtain ⟨rfl, rfl⟩ := Prod.mk.inj hread
      cases hbare : isBare c with
      | false =>
        rw [List.takeWhile_cons_of_neg (by simp [hbare])] at hv
        exact nomatch hv
      | true =>
        rw [List.takeWhile_cons_of_pos hbare] at hv
        rw [List.dropWhile_cons_of_pos hbare]
        have hall : ∀ d ∈ c :: rest.takeWhile isBare, isBare d = true :=
          List.forall_mem_cons.mpr ⟨hbare, fun d hd => List.mem_takeWhile_imp hd⟩
        refine ⟨rest.takeWhile isBare, List.takeWhile_append_dropWhile.symm, Or.inr ⟨hall, ?_, ?_⟩⟩
        · intro d q hq
          have hhead := List.head?_dropWhile_not isBare rest
          rw [hq] at hhead
          simpa using hhead
        · intro u hu
          obtain ⟨htake, hdrop⟩ := takeWhile_append_ends hall hu
          unfold readToken
          rw [if_neg hc, hm, ← List.cons_append, htake, hdrop, hv]
          rfl

theorem readToken_append {c : UInt8} {rest r b : Text} {t : Token}
    (h : readToken c rest = some (t, r)) (hab : Apart (c :: rest) b) :
    readToken c (rest ++ b) = some (t, r ++ b) ∧ Apart r b := by
  obtain ⟨p, rfl, hread | ⟨hbare, hends, hread⟩⟩ := readToken_cases h
  · rw [List.append_assoc]
    exact ⟨hread _, Apart.of_append (c :: p) hab⟩
  · rw [List.append_assoc]
    refine ⟨hread _ ?_, Apart.of_append (c :: p) hab⟩
    cases r with
    | nil =>
      rw [List.append_nil] at hab
      exact hab.ends (List.cons_ne_nil c p) hbare
    | cons d q =>
      intro d' q' hq
      obtain ⟨rfl, _⟩ := List.cons.inj hq
      exact hends d q rfl

/-! ## Tokens of a text in pieces -/

theorem lexFuel_of_skipWs {s c rest : _} (h : skipWs s = c :: rest) (fuel : Nat) :
    lexFuel (fuel + 1) s =
      match readToken c rest with
      | none => none
      | some (t, rest) => (lexFuel fuel rest).map (t :: ·) := by
  rewrite [lexFuel, h]
  rfl

/-- Fuel beyond the length of the text makes no difference. -/
theorem lexFuel_congr {f g : Nat} {s : Text} (hf : s.length < f) (hg : s.length < g) :
    lexFuel f s = lexFuel g s := by
  induction f generalizing g s with
  | zero => exact absurd hf (Nat.not_lt_zero _)
  | succ f ih =>
    obtain ⟨g, rfl⟩ := Nat.exists_eq_succ_of_ne_zero (Nat.ne_of_gt (Nat.zero_lt_of_lt hg))
    unfold lexFuel
    cases hs : skipWs s with
    | nil => rfl
    | cons c rest =>
      simp only
      have hlen : (c :: rest).length ≤ s.length := by
        rw [← hs]
        exact List.length_dropWhile_le isWs s
      cases ht : readToken c rest with
      | none => rfl
      | some read =>
        obtain ⟨t, r⟩ := read
        obtain ⟨p, rfl, _⟩ := readToken_cases ht
        rw [List.length_cons, List.length_append] at hlen
        simp only
        rw [ih (g := g) (by omega) (by omega)]

theorem lex_of_skipWs {s c rest : _} (h : skipWs s = c :: rest) :
    lex s =
      match readToken c rest with
      | none => none
      | some (t, rest) => (lex rest).map (t :: ·) := by
  have hlen : (c :: rest).length ≤ s.length := by
    rw [← h]
    exact List.length_dropWhile_le isWs s
  unfold lex
  rw [lexFuel_of_skipWs h]
  cases ht : readToken c rest with
  | none => rfl
  | some read =>
    obtain ⟨t, r⟩ := read
    obtain ⟨p, rfl, _⟩ := readToken_cases ht
    rw [List.length_cons, List.length_append] at hlen
    simp only
    rw [lexFuel_congr (g := r.length + 1) (by omega) (Nat.lt_succ_self _)]

theorem lex_cons {c : UInt8} (h : isWs c = false) (rest : Text) :
    lex (c :: rest) =
      match readToken c rest with
      | none => none
      | some (t, rest) => (lex rest).map (t :: ·) :=
  lex_of_skipWs (List.dropWhile_cons_of_neg (by rw [h]; exact Bool.false_ne_true))

theorem skipWs_append_nil {a : Text} (h : skipWs a = []) (b : Text) : skipWs (a ++ b) = skipWs b :=
  List.dropWhile_append_of_pos (List.dropWhile_eq_nil_iff.mp h)

theorem skipWs_append_cons {a rest : Text} {c : UInt8} (h : skipWs a = c :: rest) (b : Text) :
    skipWs (a ++ b) = c :: (rest ++ b) := by
  unfold skipWs at h ⊢
  rw [List.dropWhile_append, h]
  rfl

theorem lexFuel_append {f : Nat} {a b : Text} {ta : List Token} (h : lexFuel f a = some ta)
    (hab : Apart a b) (g : Nat) : lexFuel (g + ta.length) (a ++ b) = (lexFuel g b).map (ta ++ ·) := by
  induction f generalizing a ta with
  | zero => exact nomatch h
  | succ f ih =>
    cases hs : skipWs a with
    | nil =>
      rw [lexFuel, hs] at h
      rw [← Option.some.inj h]
      cases g with
      | zero => rfl
      | succ g =>
        show lexFuel (g + 1) (a ++ b) = _
        unfold lexFuel
        rw [skipWs_append_nil hs]
        exact Option.map_id'.symm
    | cons c rest =>
      rw [lexFuel_of_skipWs hs] at h
      cases ht : readToken c rest with
      | none => simp [ht] at h
      | some read =>
        obtain ⟨t, r⟩ := read
        rw [ht] at h
        obtain ⟨ts, hts, rfl⟩ := Option.map_eq_some_iff.mp h
        have hsuffix : a = a.takeWhile isWs ++ c :: rest := by
          rw [← hs]
          exact List.takeWhile_append_dropWhile.symm
        rw [hsuffix] at hab
        obtain ⟨hread, hr⟩ := readToken_append ht (Apart.of_append _ hab)
        rw [List.length_cons, ← Nat.add_assoc, lexFuel_of_skipWs (skipWs_append_cons hs b), hread]
        simp only
        rw [ih hts hr, Option.map_map]
        rfl

/-- The tokens of two texts, one behind the other. -/
theorem lex_append {a b : Text} {ta : List Token} (h : lex a = some ta) (hab : Apart a b) :
    lex (a ++ b) = (lex b).map (ta ++ ·) := by
  have hb : lexFuel ((a ++ b).length + 1) b = lex b := by
    refine lexFuel_congr ?_ (Nat.lt_succ_self _)
    rw [List.length_append]
    omega
  rw [← hb, ← lexFuel_append h hab]
  exact lexFuel_congr (Nat.lt_succ_self _) (by omega)

theorem lex_append_some {a b : Text} {ta tb : List Token} (ha : lex a = some ta) (hb : lex b = some tb)
    (hab : Apart a b) : lex (a ++ b) = some (ta ++ tb) := by
  rw [lex_append ha hab, hb]
  rfl

/-! ## Values of a text in pieces -/

/-- The tokens are one value, whatever comes behind them. -/
def Parses (ts : List Token) (v : Value) : Prop :=
  ∀ fuel rest, ts.length < fuel → parseValue fuel (ts ++ rest) = some (v, rest)

/-- The tokens are the members of an object with its closing brace. -/
def ParsesMembers (ts : List Token) (members : List (Text × Value)) : Prop :=
  ∀ fuel rest, ts.length < fuel → parseMembers fuel (ts ++ rest) = some (members, rest)

theorem Parses.scalar (v : Value) : Parses [.scalar v] v := by
  intro fuel rest hfuel
  obtain ⟨fuel, rfl⟩ := Nat.exists_eq_add_of_lt hfuel
  unfold parseValue
  rfl

/-- A member that another one follows, whatever that is. -/
theorem parseMembers_comma {ts : List Token} {v : Value} (h : Parses ts v) (name : Text) (fuel : Nat)
    (hfuel : ts.length < fuel) (rest : List Token) :
    parseMembers (fuel + 1) (.scalar (.string name) :: .colon :: (ts ++ .comma :: rest)) =
      (parseMembers fuel rest).map fun read => ((name, v) :: read.1, read.2) := by
  rw [parseMembers]
  rw [h fuel _ hfuel]

theorem parseMembers_rbrace {ts : List Token} {v : Value} (h : Parses ts v) (name : Text) (fuel : Nat)
    (hfuel : ts.length < fuel) (rest : List Token) :
    parseMembers (fuel + 1) (.scalar (.string name) :: .colon :: (ts ++ .rbrace :: rest)) =
      some ([(name, v)], rest) := by
  rw [parseMembers]
  rw [h fuel _ hfuel]

theorem ParsesMembers.last {ts : List Token} {v : Value} (h : Parses ts v) (name : Text) :
    ParsesMembers (.scalar (.string name) :: .colon :: (ts ++ [.rbrace])) [(name, v)] := by
  intro fuel rest hfuel
  simp only [List.length_cons, List.length_append, List.length_nil] at hfuel
  obtain ⟨fuel, rfl⟩ := Nat.exists_eq_succ_of_ne_zero (n := fuel) (by omega)
  have hstep := parseMembers_rbrace h name fuel (by omega) rest
  simpa using hstep

theorem ParsesMembers.cons {ts tms : List Token} {v : Value} {members : List (Text × Value)}
    (h : Parses ts v) (hms : ParsesMembers tms members) (name : Text) :
    ParsesMembers (.scalar (.string name) :: .colon :: (ts ++ .comma :: tms))
      ((name, v) :: members) := by
  intro fuel rest hfuel
  simp only [List.length_cons, List.length_append] at hfuel
  obtain ⟨fuel, rfl⟩ := Nat.exists_eq_succ_of_ne_zero (n := fuel) (by omega)
  have hstep := parseMembers_comma h name fuel (by omega) (tms ++ rest)
  rw [hms fuel rest (by omega)] at hstep
  simpa using hstep

theorem parseValue_lbrace (fuel : Nat) (name : Text) (rest : List Token) :
    parseValue (fuel + 1) (.lbrace :: .scalar (.string name) :: rest) =
      (parseMembers fuel (.scalar (.string name) :: rest)).map fun read =>
        (.object read.1, read.2) := by
  rw [parseValue]
  exact fun _ h => nomatch h

/-- Members start with a name and its value. -/
theorem parseMembers_some {fuel : Nat} {ts rest : List Token} {members : List (Text × Value)}
    (h : parseMembers fuel ts = some (members, rest)) :
    ∃ fuel' name v ts' rest' members', fuel = fuel' + 1 ∧ ts = .scalar (.string name) :: .colon :: ts' ∧
      parseValue fuel' ts' = some (v, rest') ∧ members = (name, v) :: members' := by
  cases fuel with
  | zero => exact nomatch h
  | succ fuel =>
    unfold parseMembers at h
    split at h
    · next name ts =>
      split at h
      · next v ts' hv =>
        obtain ⟨⟨read, rest'⟩, hread, hms⟩ := Option.map_eq_some_iff.mp h
        obtain ⟨rfl, rfl⟩ := Prod.mk.inj hms
        exact ⟨fuel, name, v, ts, _, read, rfl, rfl, hv, rfl⟩
      · next v ts' hv =>
        obtain ⟨rfl, rfl⟩ := Prod.mk.inj (Option.some.inj h)
        exact ⟨fuel, name, v, ts, _, [], rfl, rfl, hv, rfl⟩
      · exact nomatch h
    · exact nomatch h

theorem Parses.object {ts : List Token} {members : List (Text × Value)} (h : ParsesMembers ts members) :
    Parses (.lbrace :: ts) (.object members) := by
  intro fuel rest hfuel
  obtain ⟨fuel, rfl⟩ := Nat.exists_eq_succ_of_ne_zero (n := fuel) (by omega)
  have hms := h fuel rest (Nat.lt_of_succ_lt_succ hfuel)
  obtain ⟨_, name, _, ts', _, _, _, hts, _⟩ := parseMembers_some hms
  rw [List.cons_append, hts, parseValue_lbrace, ← hts, hms]
  rfl

/-- The tokens are members that others follow, whatever these are. -/
def ParsesPrefix (ts : List Token) (members : List (Text × Value)) : Prop :=
  members.length ≤ ts.length ∧ ∀ fuel rest, ts.length < fuel →
    parseMembers fuel (ts ++ rest) =
      (parseMembers (fuel - members.length) rest).map fun read => (members ++ read.1, read.2)

theorem ParsesPrefix.nil : ParsesPrefix [] [] :=
  ⟨Nat.le_refl 0, fun _ _ _ => Option.map_id'.symm⟩

theorem ParsesPrefix.cons {ts tms : List Token} {v : Value} {members : List (Text × Value)}
    (h : Parses ts v) (hms : ParsesPrefix tms members) (name : Text) :
    ParsesPrefix (.scalar (.string name) :: .colon :: (ts ++ .comma :: tms))
      ((name, v) :: members) := by
  obtain ⟨hlen, hms⟩ := hms
  refine ⟨?_, fun fuel rest hfuel => ?_⟩
  · simp only [List.length_cons, List.length_append]
    omega
  · simp only [List.length_cons, List.length_append] at hfuel
    obtain ⟨fuel, rfl⟩ := Nat.exists_eq_succ_of_ne_zero (n := fuel) (by omega)
    have hstep := parseMembers_comma h name fuel (by omega) (tms ++ rest)
    rw [hms fuel rest (by omega), Option.map_map] at hstep
    rw [List.length_cons, Nat.succ_sub_succ, List.cons_append, List.cons_append, List.append_assoc,
      List.cons_append]
    exact hstep

theorem ParsesPrefix.members {ts ts' : List Token} {members members' : List (Text × Value)}
    (h : ParsesPrefix ts members) (h' : ParsesMembers ts' members') :
    ParsesMembers (ts ++ ts') (members ++ members') := by
  intro fuel rest hfuel
  rw [List.length_append] at hfuel
  have hlen := h.1
  rw [List.append_assoc, h.2 fuel _ (by omega), h' _ rest (by omega)]
  rfl

theorem parse_of_lex {s : Text} {ts : List Token} {v : Value} (hs : lex s = some ts)
    (hv : Parses ts v) : parse s = some v := by
  have hparse := hv (ts.length + 1) [] (Nat.lt_succ_self _)
  rw [List.append_nil] at hparse
  unfold parse
  rw [hs]
  simp only
  rw [hparse]

theorem lex_of_parse {s : Text} {v : Value} (h : parse s = some v) :
    ∃ ts, lex s = some ts ∧ parseValue (ts.length + 1) ts = some (v, []) := by
  unfold parse at h
  split at h
  · exact nomatch h
  · next ts hs =>
    split at h
    · next v' hv =>
      rw [Option.some.inj h] at hv
      exact ⟨ts, hs, hv⟩
    · exact nomatch h

/-! ## Tokens that hold data -/

theorem lex_string {raw s : Text} (h : Spelling raw s) :
    lex (34 :: (raw ++ [34])) = some [.scalar (.string s)] := by
  have hread : readToken 34 (raw ++ [34]) = some (.scalar (.string s), []) := by
    unfold readToken
    rw [if_pos rfl, h.readString []]
    · rfl
    · rw [List.length_append]
      omega
  rw [lex_cons rfl, hread]
  rfl

/-- A string and what follows it. -/
theorem lex_quoted {raw s b : Text} (h : Spelling raw s) :
    lex (34 :: (raw ++ 34 :: b)) = (lex b).map (.scalar (.string s) :: ·) := by
  have hsplit : 34 :: (raw ++ 34 :: b) = 34 :: (raw ++ [34]) ++ b := by simp
  rw [hsplit]
  exact lex_append (lex_string h) (Apart.of_left (a := 34 :: raw ++ [34]) List.getLast?_concat rfl b)

theorem lex_quoted_some {raw s b : Text} {tb : List Token} (h : Spelling raw s) (hb : lex b = some tb) :
    lex (34 :: (raw ++ 34 :: b)) = some (.scalar (.string s) :: tb) := by
  rw [lex_quoted h, hb]
  rfl

/-- The first byte of a number. -/
def Signed (c : UInt8) : Prop := c = 45 ∨ isDigit c = true

instance (c : UInt8) : Decidable (Signed c) :=
  inferInstanceAs (Decidable (c = 45 ∨ isDigit c = true))

theorem Signed.ne {c d : UInt8} (hc : Signed c) (hd : ¬Signed d) : c ≠ d := by
  rintro rfl
  exact hd hc

theorem isBare_of_isDigit {c : UInt8} (h : isDigit c = true) : isBare c = true := by
  unfold isBare
  rw [h]
  rfl

theorem Signed.isBare {c : UInt8} (hc : Signed c) : isBare c = true := by
  rcases hc with rfl | hc
  · rfl
  · exact isBare_of_isDigit hc

theorem Signed.mark {c : UInt8} (hc : Signed c) : mark c = none := by
  unfold Json.mark
  rw [if_neg (hc.ne (by decide)), if_neg (hc.ne (by decide)), if_neg (hc.ne (by decide)),
    if_neg (hc.ne (by decide)), if_neg (hc.ne (by decide)), if_neg (hc.ne (by decide))]

theorem Signed.isWs {c : UInt8} (hc : Signed c) : isWs c = false := by
  unfold Json.isWs
  rw [beq_false_of_ne (hc.ne (by decide)), beq_false_of_ne (hc.ne (by decide)),
    beq_false_of_ne (hc.ne (by decide)), beq_false_of_ne (hc.ne (by decide))]
  rfl

theorem decimalInt_cons (i : Int) :
    ∃ c ds, decimalInt i = c :: ds ∧ Signed c ∧ ∀ d ∈ ds, isDigit d = true := by
  have hdigits : ∀ d ∈ decimal i.natAbs, isDigit d = true :=
    fun d hd => Print.isDigit_of_mem_decimal hd
  unfold decimalInt
  split
  · exact ⟨45, _, rfl, Or.inl rfl, hdigits⟩
  · obtain ⟨c, ds, hcons⟩ : ∃ c ds, decimal i.natAbs = c :: ds := by
      rcases Print.decimal_cons i.natAbs with ⟨_, h⟩ | ⟨c, ds, h, _⟩
      · exact ⟨48, [], h⟩
      · exact ⟨c, ds, h⟩
    rw [hcons] at hdigits ⊢
    rw [List.forall_mem_cons] at hdigits
    exact ⟨c, ds, rfl, Or.inr hdigits.1, hdigits.2⟩

theorem isNumber_decimalInt (i : Int) : isNumber (decimalInt i) = true := by
  have hsign : (if (decimalInt i).head? = some 45 then (decimalInt i).tail else decimalInt i) =
      decimal i.natAbs := by
    unfold decimalInt
    split
    · rfl
    · refine if_neg fun h => ?_
      have hdigit := Print.isDigit_of_mem_decimal (List.mem_of_mem_head? h)
      exact absurd hdigit (by decide)
  have htake : (decimal i.natAbs).takeWhile isDigit = decimal i.natAbs :=
    List.takeWhile_eq_self_iff.mpr fun _ hd => Print.isDigit_of_mem_decimal hd
  have hdrop : (decimal i.natAbs).dropWhile isDigit = [] :=
    List.dropWhile_eq_nil_iff.mpr fun _ hd => Print.isDigit_of_mem_decimal hd
  unfold isNumber
  simp only [hsign, htake, hdrop]
  rcases Print.decimal_cons i.natAbs with ⟨_, h⟩ | ⟨c, ds, h, hlow, _⟩
  · rw [h]
    rfl
  · have hc : c ≠ 48 := by
      rintro rfl
      exact absurd hlow (by decide)
    rw [h]
    simp [hc, isFraction, isExponent]

/-- An integer is printed as a number. -/
theorem lex_number (i : Int) : lex (decimalInt i) = some [.scalar (.number (decimalInt i))] := by
  have hnumber := isNumber_decimalInt i
  obtain ⟨c, ds, hi, hc, hds⟩ := decimalInt_cons i
  rw [hi] at hnumber ⊢
  have hall : ∀ d ∈ c :: ds, isBare d = true :=
    List.forall_mem_cons.mpr ⟨hc.isBare, fun d hd => isBare_of_isDigit (hds d hd)⟩
  have hvalue : bareValue (c :: ds) = some (.number (c :: ds)) := by
    unfold bareValue
    rw [if_neg (fun h => hc.ne (by decide) (List.cons.inj h).1),
      if_neg (fun h => hc.ne (by decide) (List.cons.inj h).1),
      if_neg (fun h => hc.ne (by decide) (List.cons.inj h).1), if_pos hnumber]
  have hread : readToken c ds = some (.scalar (.number (c :: ds)), []) := by
    unfold readToken
    rw [if_neg (hc.ne (by decide)), hc.mark, List.takeWhile_eq_self_iff.mpr hall,
      List.dropWhile_eq_nil_iff.mpr hall, hvalue]
    rfl
  have hskip : skipWs (c :: ds) = c :: ds :=
    List.dropWhile_cons_of_neg (by rw [hc.isWs]; exact Bool.false_ne_true)
  rw [lex_of_skipWs hskip, hread]
  rfl

theorem lex_decimal (n : Nat) : lex (decimal n) = some [.scalar (.number (decimal n))] :=
  lex_number n

/-! ## Names that are printed as they are -/

theorem mark_colon {c : UInt8} (h : mark c = some .colon) : c = 58 := by
  unfold mark at h
  split at h
  · exact nomatch h
  · split at h
    · exact nomatch h
    · split at h
      · exact nomatch h
      · split at h
        · exact nomatch h
        · split at h
          · next hc => exact hc
          · split at h
            · exact nomatch h
            · exact nomatch h

theorem lex_colon {s : Text} {ts : List Token} (h : lex s = some (.colon :: ts)) :
    ∃ rest, skipWs s = 58 :: rest := by
  cases hs : skipWs s with
  | nil =>
    have hnil : lex s = some [] := by
      show lexFuel (s.length + 1) s = _
      rw [lexFuel, hs]
    rw [hnil] at h
    cases h
  | cons c rest =>
    rw [lex_of_skipWs hs] at h
    unfold readToken at h
    split at h
    · cases h
    · next t r ht =>
      obtain ⟨ts', -, hcons⟩ := Option.map_eq_some_iff.mp h
      obtain ⟨rfl, -⟩ := List.cons.inj hcons
      split at ht
      · obtain ⟨read, -, hread⟩ := Option.map_eq_some_iff.mp ht
        cases (Prod.mk.inj hread).1
      · split at ht
        · next m hm =>
          rw [(Prod.mk.inj (Option.some.inj ht)).1] at hm
          exact ⟨rest, by rw [mark_colon hm]⟩
        · obtain ⟨v, -, hread⟩ := Option.map_eq_some_iff.mp ht
          cases (Prod.mk.inj hread).1

theorem lex_string_cases {s : Text} {ts : List Token} (h : lex (34 :: s) = some ts) :
    ∃ raw name rest ts', s = raw ++ 34 :: rest ∧ Spelling raw name ∧ lex rest = some ts' ∧
      ts = .scalar (.string name) :: ts' := by
  rw [lex_cons rfl] at h
  unfold readToken at h
  rw [if_pos rfl] at h
  cases hread : readString (s.length + 1) s with
  | none => simp [hread] at h
  | some read =>
    obtain ⟨name, rest⟩ := read
    rw [hread] at h
    obtain ⟨ts', hts, rfl⟩ := Option.map_eq_some_iff.mp h
    obtain ⟨raw, rfl, hraw⟩ := readString_spelling hread
    exact ⟨raw, name, rest, ts', rfl, hraw, hts, rfl⟩

/-- A name that is printed as it is before `:{"` and holds no colon is read as itself only
if its bytes are plain. Were its closing quote escaped, the string would go on to the next
quote, behind which there is no colon; and a quote in it has no colon behind it either. -/
theorem plain_of_lex_name {name u : Text} {c : UInt8} {ts : List Token} (hname : 58 ∉ name)
    (hws : isWs c = false) (hc : c ≠ 58)
    (h : lex (34 :: (name ++ 34 :: 58 :: 123 :: 34 :: c :: u)) =
      some (.scalar (.string name) :: .colon :: ts)) : ∀ d ∈ name, Plain d := by
  obtain ⟨raw, name', rest, ts', hsplit, hraw, hrest, hts⟩ := lex_string_cases h
  obtain ⟨hhead, rfl⟩ := List.cons.inj hts
  obtain rfl : name' = name := by
    injection hhead with hv
    injection hv with hn
    exact hn.symm
  obtain ⟨rest', hcolon⟩ := lex_colon hrest
  rcases List.append_eq_append_iff.mp hsplit with ⟨as, rfl, has⟩ | ⟨as, hsuffix, has⟩
  · -- the string goes at least to the end of the name
    match as, has with
    | [], _ =>
      rw [List.append_nil] at hraw
      exact hraw.plain_of_self
    | [_], has => exact absurd (List.cons.inj (List.cons.inj has).2).1 (by decide)
    | [_, _], has =>
      exact absurd (List.cons.inj (List.cons.inj (List.cons.inj has).2).2).1 (by decide)
    | [_, _, _], has =>
      have hrest := (List.cons.inj (List.cons.inj (List.cons.inj (List.cons.inj has).2).2).2).2
      have hskip : skipWs (c :: u) = c :: u :=
        List.dropWhile_cons_of_neg (by rw [hws]; exact Bool.false_ne_true)
      rw [← hrest, hskip] at hcolon
      exact absurd (List.cons.inj hcolon).1 hc
    | _ :: _ :: _ :: _ :: as, has =>
      simp only [List.cons_append, List.cons.injEq] at has
      obtain ⟨rfl, rfl, rfl, rfl, -⟩ := has
      obtain ⟨p', hp⟩ := hraw.quote (p := name' ++ [34, 58, 123]) (q := as) (by simp)
      have hlast := congrArg List.getLast? hp
      rw [List.getLast?_concat, List.getLast?_append] at hlast
      exact absurd (Option.some.inj hlast) (by decide)
  · -- the string ends in the name, or at its end
    cases as with
    | nil =>
      rw [List.append_nil] at hsuffix
      rw [← hsuffix] at hraw
      exact hraw.plain_of_self
    | cons d as =>
      rw [List.cons_append] at has
      obtain ⟨rfl, rfl⟩ := List.cons.inj has
      cases hskip : skipWs as with
      | nil =>
        rw [skipWs_append_nil hskip] at hcolon
        exact absurd (List.cons.inj hcolon).1 (by decide)
      | cons d' as' =>
        rw [skipWs_append_cons hskip] at hcolon
        obtain ⟨rfl, -⟩ := List.cons.inj hcolon
        have hmem : (58 : UInt8) ∈ as := by
          refine (List.dropWhile_suffix isWs).mem ?_
          show 58 ∈ skipWs as
          rw [hskip]
          exact List.mem_cons_self
        rw [hsuffix] at hname
        exact absurd (List.mem_append_right raw (List.mem_cons_of_mem 34 hmem)) hname

end Json
