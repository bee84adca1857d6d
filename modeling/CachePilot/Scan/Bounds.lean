import CachePilot.Lib.Traced
import CachePilot.Scan.Pieces

/-!
# The memory accesses of a scan

The loops of `parse_file`, `extract_tokens` and `push_unique` over the cells of a buffer,
with every access on the way: which cells are read, of the buffer or of another string,
and which sizes are subtracted. The cells from `n` on may hold anything.

An index is added to the length of a string in memory only, so that no sum reaches the
end of `size_t`; a difference is taken as `size_t` takes it.

Results:
* `parseLinesAt_sat`: the accesses are in bounds and the result is that of `parseLines`;
* `parse_file_in_bounds`: the same for a whole buffer, with what comes out of it.
-/

namespace CachePilot
open NgxString Traced

/-! ## Accesses -/

/-- What a scan does that could go out of bounds: to read a cell of the buffer, to read a
cell of another string of a given length, and to compute a length. -/
inductive Access
  | buf (i : Nat)
  | str (size i : Nat)
  | length (l : Int)

/-- The buffer has `n` cells. -/
def Access.InBounds (n : Nat) : Access → Prop
  | .buf i => i < n
  | .str size i => i < size
  | .length l => 0 ≤ l

abbrev Cells := Nat → UInt8

def bufCell (mem : Cells) (i : Nat) : Traced Access UInt8 := .emit (.buf i) (mem i)

def strCell (s : Bytes) (i : Nat) : Traced Access UInt8 := .emit (.str s.length i) (s.getD i 0)

/-- `a - b` in `size_t`. -/
def sizeSub (a b : Nat) : Traced Access Nat :=
  .emit (.length ((a : Int) - b)) (((a : Int) - b) % 2 ^ 64).toNat

/-- `ngx_memcpy` from the buffer. -/
def memcpyAt (mem : Cells) (start size : Nat) : Traced Access Bytes :=
  ⟨slice mem start (start + size), (List.range' start size).map .buf⟩

/-- `ngx_strncasecmp` from the cells number `i` on. -/
def strncasecmpAt (s1 s2 : Nat → Traced Access UInt8) : Nat → Nat → Traced Access Int
  | 0, _ => pure 0
  | n + 1, i => do
    let c1 ← s1 i
    let c2 ← s2 i
    if ngxTolower c1 = ngxTolower c2 then
      if ngxTolower c1 = 0 then pure 0 else strncasecmpAt s1 s2 n (i + 1)
    else pure (((ngxTolower c1).toNat : Int) - (ngxTolower c2).toNat)

/-! ## Tags -/

/-- The loop of `push_unique` over the tags that there are. -/
def hasTagAt (mem : Cells) (data len : Nat) : List Bytes → Traced Access Bool
  | [] => pure false
  | tag :: tags =>
    if tag.length = len then do
      let rc ← strncasecmpAt (strCell tag) (fun i => bufCell mem (data + i)) len 0
      if rc = 0 then pure true else hasTagAt mem data len tags
    else hasTagAt mem data len tags

/-- `ngx_http_cache_index_push_unique` of the `len` cells from `data` on. -/
def pushUniqueAt (mem : Cells) (pool : Nat → Bool) (tags : List Bytes) (data len : Nat) :
    Traced Access (Except NgxRc (List Bytes)) :=
  if len = 0 then pure (.ok tags)
  else do
    if ← hasTagAt mem data len tags then pure (.ok tags)
    else if pool tags.length then do
      let copy ← memcpyAt mem data len
      pure (.ok (tags ++ [copy]))
    else pure (.error .error)

/-- The loop of `extract_tokens`, from the index `i` of the value on; every turn moves the
index. -/
def extractLoopAt (mem : Cells) (pool : Nat → Bool) (value len : Nat) :
    Nat → Nat → List Bytes → Traced Access (Except NgxRc (List Bytes))
  | 0, _, tags => pure (.ok tags)
  | fuel + 1, i, tags =>
    if i < len then do
      let cell := fun i => bufCell mem (value + i)
      let start ← skipWhile cell isSeparator len (len - i) i
      let stop ← skipWhile cell (fun c => !isSeparator c) len (len - start) start
      if start < stop then
        if maxTokensPerScan ≤ tags.length then pure (.ok tags)
        else do
          let size ← sizeSub stop start
          match ← pushUniqueAt mem pool tags (value + start) size with
          | .error rc => pure (.error rc)
          | .ok tags => extractLoopAt mem pool value len fuel stop tags
      else extractLoopAt mem pool value len fuel stop tags
    else pure (.ok tags)

/-- `ngx_http_cache_index_extract_tokens` on the `len` cells from `value` on. -/
def extractTokensAt (mem : Cells) (pool : Nat → Bool) (value len : Nat) (tags : List Bytes) :
    Traced Access (Except NgxRc (List Bytes)) :=
  extractLoopAt mem pool value len (len + 1) 0 tags

/-! ## Lines -/

section ParseFile

variable (mem : Cells) (n : Nat) (pool : ParsePool)

/-- `value_start` and `line_end` of a value that begins at `i`. -/
def lineValueAt (i : Nat) : Traced Access (Nat × Nat) := do
  let valueStart ← skipWhile (bufCell mem) isBlank n (n - i) i
  let lineEnd ← skipWhile (bufCell mem) (fun c => !isEol c) n (n - valueStart) valueStart
  pure (valueStart, lineEnd)

/-- The `KEY:` part of a line that starts at `i`. -/
def parseKeyLineAt (i : Nat) (key : Bytes) : Traced Access (Except NgxRc Bytes) :=
  if key.length = 0 ∧ i + 4 ≤ n then do
    let rc ← strncasecmpAt (fun k => bufCell mem (i + k)) (strCell keyHdr) 4 0
    if rc = 0 then do
      let value ← lineValueAt mem n (i + 4)
      if value.1 < value.2 then do
        let size ← sizeSub value.2 value.1
        if pool.key then do
          let data ← memcpyAt mem value.1 size
          pure (.ok data)
        else pure (.error .error)
      else pure (.ok key)
    else pure (.ok key)
  else pure (.ok key)

/-- The part of a line that looks for one configured header. -/
def parseTagLineAt (i : Nat) (tags : List Bytes) (header : Bytes) :
    Traced Access (Except NgxRc (List Bytes)) :=
  if n ≤ i + header.length + 1 then pure (.ok tags)
  else do
    let rc ← strncasecmpAt (fun k => bufCell mem (i + k)) (strCell header) header.length 0
    if rc ≠ 0 then pure (.ok tags)
    else do
      let c ← bufCell mem (i + header.length)
      if c ≠ 58 then pure (.ok tags)
      else do
        let value ← lineValueAt mem n (i + header.length + 1)
        let len ← sizeSub value.2 value.1
        extractTokensAt mem pool.tag value.1 len tags

/-- The loop over the configured headers. -/
def parseTagLinesAt (i : Nat) : List Bytes → List Bytes → Traced Access (Except NgxRc (List Bytes))
  | [], tags => pure (.ok tags)
  | header :: headers, tags => do
    match ← parseTagLineAt mem n pool i tags header with
    | .error rc => pure (.error rc)
    | .ok tags => parseTagLinesAt i headers tags

/-- Whether a line starts at `i`. -/
def lineStartAt (i : Nat) : Traced Access Bool :=
  if i = 0 then pure true
  else do
    let before ← sizeSub i 1
    let c ← bufCell mem before
    pure (c == 10)

/-- One turn of the scan that starts a line. -/
def parseLineAt (headers : Option (List Bytes)) (i : Nat) (st : Bytes × List Bytes) :
    Traced Access (Except NgxRc (Bytes × List Bytes)) := do
  match ← parseKeyLineAt mem n pool i st.1 with
  | .error rc => pure (.error rc)
  | .ok key =>
    match headers with
    | none => pure (.ok (key, st.2))
    | some headers =>
      match ← parseTagLinesAt mem n pool i headers st.2 with
      | .error rc => pure (.error rc)
      | .ok tags => pure (.ok (key, tags))

/-- The loop of `parse_file` over the buffer, from the index `i` on. -/
def parseLinesAt (headers : Option (List Bytes)) :
    Nat → Nat → Bytes × List Bytes → Traced Access (Except NgxRc (Bytes × List Bytes))
  | 0, _, st => pure (.ok st)
  | fuel + 1, i, st =>
    if i < n then do
      if ← lineStartAt mem i then
        match ← parseLineAt mem n pool headers i st with
        | .error rc => pure (.error rc)
        | .ok st => parseLinesAt headers fuel (i + 1) st
      else parseLinesAt headers fuel (i + 1) st
    else pure (.ok st)

end ParseFile

/-! ## Accesses in bounds -/

variable {mem : Cells} {n : Nat} {pool : ParsePool}

theorem bufCell_sat {i : Nat} (h : i < n) : (bufCell mem i).Sat (Access.InBounds n) (· = mem i) :=
  .emit h rfl

theorem strCell_sat {s : Bytes} {i : Nat} (h : i < s.length) :
    (strCell s i).Sat (Access.InBounds n) (· = s.getD i 0) := .emit h rfl

theorem sizeSub_sat {a b : Nat} (hle : b ≤ a) (ha : a < 2 ^ 64) :
    (sizeSub a b).Sat (Access.InBounds n) (· = a - b) := by
  have hsub : (a : Int) - b = ((a - b : Nat) : Int) := (Int.ofNat_sub hle).symm
  have hlt : a - b < 2 ^ 64 := Nat.lt_of_le_of_lt (Nat.sub_le a b) ha
  refine .emit ?_ ?_
  · show (0 : Int) ≤ (a : Int) - b
    rw [hsub]
    exact Int.natCast_nonneg _
  · rw [hsub]
    omega

theorem memcpyAt_sat {start size : Nat} (h : start + size ≤ n) :
    (memcpyAt mem start size).Sat (Access.InBounds n) (· = slice mem start (start + size)) where
  events a ha := by
    obtain ⟨i, hi, rfl⟩ := List.mem_map.mp ha
    have hlt := (List.mem_range'_1.mp hi).2
    exact Nat.lt_of_lt_of_le hlt h
  val := rfl

theorem strncasecmpAt_drop_sat {c1 c2 : Nat → Traced Access UInt8} {s1 s2 : Bytes} {m i : Nat}
    (h1 : ∀ k < i + m, (c1 k).Sat (Access.InBounds n) (· = s1.getD k 0))
    (h2 : ∀ k < i + m, (c2 k).Sat (Access.InBounds n) (· = s2.getD k 0)) :
    (strncasecmpAt c1 c2 m i).Sat (Access.InBounds n)
      (· = ngxStrncasecmp (s1.drop i) (s2.drop i) m) := by
  have hhead : ∀ (s : Bytes) (i : Nat), (s.drop i).headD 0 = s.getD i 0 := fun s i => by
    rw [List.headD_eq_head?_getD, List.head?_drop, List.getD_eq_getElem?_getD]
  induction m generalizing i with
  | zero => exact .pure rfl
  | succ m ih =>
    unfold strncasecmpAt ngxStrncasecmp strncmpBy
    simp only [hhead, List.tail_drop]
    have hi : i < i + (m + 1) := Nat.lt_add_of_pos_right (Nat.succ_pos m)
    have hnext : i + 1 + m = i + (m + 1) := Nat.succ_add_eq_add_succ i m
    refine .bind (h1 i hi) ?_
    rintro a rfl
    refine .bind (h2 i hi) ?_
    rintro b rfl
    refine .ite (fun heq => ?_) fun hne => ?_
    · rw [if_pos heq]
      refine .ite (fun hnul => ?_) fun hnul => ?_
      · rw [if_pos hnul]
        exact .pure rfl
      · rw [if_neg hnul]
        exact ih (fun k hk => h1 k (hk.trans_eq hnext)) fun k hk => h2 k (hk.trans_eq hnext)
    · rw [if_neg hne]
      exact .pure rfl

theorem strncasecmpAt_sat {c1 c2 : Nat → Traced Access UInt8} {s1 s2 : Bytes} {m : Nat}
    (h1 : ∀ k < m, (c1 k).Sat (Access.InBounds n) (· = s1.getD k 0))
    (h2 : ∀ k < m, (c2 k).Sat (Access.InBounds n) (· = s2.getD k 0)) :
    (strncasecmpAt c1 c2 m 0).Sat (Access.InBounds n) (· = ngxStrncasecmp s1 s2 m) := by
  have hm : 0 + m = m := Nat.zero_add m
  have h := strncasecmpAt_drop_sat (fun k hk => h1 k (hk.trans_eq hm))
    fun k hk => h2 k (hk.trans_eq hm)
  rw [List.drop_zero, List.drop_zero] at h
  exact h

/-! ## Tags in bounds -/

section Tags

variable {data len value : Nat} {tags : List Bytes}

/-- A part of the buffer is read like the string of its cells. -/
theorem partCell_sat {start stop k : Nat} (hk : start + k < stop) (hn : stop ≤ n) :
    (bufCell mem (start + k)).Sat (Access.InBounds n) (· = (slice mem start stop).getD k 0) := by
  rw [getD_slice hk]
  exact bufCell_sat (Nat.lt_of_lt_of_le hk hn)

theorem hasTagAt_sat (h : data + len ≤ n) :
    (hasTagAt mem data len tags).Sat (Access.InBounds n)
      (· = tags.any fun tag => sameTag tag (slice mem data (data + len))) := by
  have hlen : (slice mem data (data + len)).length = len := by
    rw [length_slice, Nat.add_sub_cancel_left]
  induction tags with
  | nil => exact .pure rfl
  | cons tag tags ih =>
    unfold hasTagAt
    rw [List.any_cons]
    unfold sameTag at ih ⊢
    rw [hlen] at ih ⊢
    split
    · next htag =>
      have htagCell : ∀ k < len,
          (strCell tag k).Sat (Access.InBounds n) (· = tag.getD k 0) :=
        fun k hk => strCell_sat (hk.trans_eq htag.symm)
      have hdataCell : ∀ k < len, (bufCell mem (data + k)).Sat (Access.InBounds n)
          (· = (slice mem data (data + len)).getD k 0) :=
        fun k hk => partCell_sat (Nat.add_lt_add_left hk data) h
      refine .bind (strncasecmpAt_sat htagCell hdataCell) ?_
      rintro rc rfl
      rw [beq_iff_eq.mpr htag, Bool.true_and]
      split
      · next hrc =>
        refine .pure ?_
        rw [beq_iff_eq.mpr hrc, Bool.true_or]
      · next hrc =>
        rw [beq_eq_false_iff_ne.mpr hrc, Bool.false_or]
        exact ih
    · next htag =>
      rw [beq_eq_false_iff_ne.mpr htag, Bool.false_and, Bool.false_or]
      exact ih

theorem pushUniqueAt_sat (pool : Nat → Bool) (tags : List Bytes) (h : data + len ≤ n) :
    (pushUniqueAt mem pool tags data len).Sat (Access.InBounds n)
      (· = pushUnique pool tags (slice mem data (data + len))) := by
  have hlen : (slice mem data (data + len)).length = len := by
    rw [length_slice, Nat.add_sub_cancel_left]
  unfold pushUniqueAt pushUnique
  rw [hlen]
  split
  · exact .pure rfl
  · refine .bind (hasTagAt_sat h) ?_
    rintro b rfl
    split
    · exact .pure rfl
    · split
      · refine .bind (memcpyAt_sat h) ?_
        rintro copy rfl
        exact .pure rfl
      · exact .pure rfl

/-- A turn of the loop finds a token, or it gets to the end of the value. -/
theorem token_or_end {mem : Cells} {i start stop : Nat} (hstart : Skipped mem isSeparator i len start)
    (hstop : Skipped mem (fun c => !isSeparator c) start len stop) :
    start < stop ∨ stop ≤ start ∧ stop = len := by
  rcases Nat.lt_or_ge start stop with htoken | hnone
  · exact Or.inl htoken
  · refine Or.inr ⟨hnone, ?_⟩
    rcases Nat.lt_or_eq_of_le hstop.le_stop with hlt | hend
    · have heq : start = stop := Nat.le_antisymm hstop.le hnone
      have hsep := hstart.stopped (heq ▸ hlt)
      have htoken := hstop.stopped hlt
      rw [← heq, hsep] at htoken
      exact nomatch htoken
    · exact hend

/-- Every turn of the loop moves the index, so more turns than cells make no
difference. -/
theorem extractLoopAt_fuel (pool : Nat → Bool) {fuel i : Nat} (tags : List Bytes)
    (h : len ≤ i + fuel) :
    extractLoopAt mem pool value len (fuel + 1) i tags =
      extractLoopAt mem pool value len fuel i tags := by
  induction fuel generalizing i tags with
  | zero => exact if_neg (Nat.not_lt.mpr h)
  | succ fuel ih =>
    rw [extractLoopAt, extractLoopAt]
    split
    · next hlt =>
      have hcell : ∀ k < len, (bufCell mem (value + k)).Sat (fun _ => True) (· = mem (value + k)) :=
        fun k _ => .emit trivial rfl
      refine (skipWhile_sat (Nat.le_of_lt hlt) hcell).bind_congr fun start hstart => ?_
      refine (skipWhile_sat hstart.le_stop hcell).bind_congr fun stop hstop => ?_
      have hmoves : i < stop := by
        rcases token_or_end hstart hstop with htoken | ⟨-, hend⟩
        · exact Nat.lt_of_le_of_lt hstart.le htoken
        · exact hend ▸ hlt
      have hrest : len ≤ stop + fuel := by omega
      simp only [fun tags => ih tags hrest]
    · rfl

theorem extractLoop_nil (pool : Nat → Bool) (fuel : Nat) (tags : List Bytes) :
    extractLoop pool fuel [] tags = .ok tags := by
  cases fuel with
  | zero => rfl
  | succ fuel => rfl

theorem extractLoopAt_sat (pool : Nat → Bool) (fuel i : Nat) (tags : List Bytes) (hi : i ≤ len)
    (hlen : value + len ≤ n) (hn : n < 2 ^ 64) :
    (extractLoopAt mem pool value len fuel i tags).Sat (Access.InBounds n)
      (· = extractLoop pool fuel (slice mem (value + i) (value + len)) tags) := by
  induction fuel generalizing i tags with
  | zero => exact .pure rfl
  | succ fuel ih =>
    have hcell : ∀ k < len,
        (bufCell mem (value + k)).Sat (Access.InBounds n) (· = mem (value + k)) :=
      fun k hk => bufCell_sat (Nat.lt_of_lt_of_le (Nat.add_lt_add_left hk value) hlen)
    unfold extractLoopAt
    split
    · next hlt =>
      refine .bind (skipWhile_sat hi hcell) fun start hstart => ?_
      refine .bind (skipWhile_sat hstart.le_stop hcell) fun stop hstop => ?_
      unfold extractLoop
      simp only [← slice_shift mem value, ← hstart.rest, ← hstop.passed,
        ← hstop.rest, length_slice] at ih ⊢
      rcases token_or_end hstart hstop with htoken | ⟨hnone, hend⟩
      · rw [if_pos htoken, if_neg (Nat.sub_ne_zero_of_lt htoken)]
        split
        · exact .pure rfl
        · have hcells : value + stop ≤ n := (Nat.add_le_add_left hstop.le_stop value).trans hlen
          have hstop64 : stop < 2 ^ 64 :=
            Nat.lt_of_le_of_lt ((Nat.le_add_left stop value).trans hcells) hn
          have hend : value + start + (stop - start) = value + stop := by
            rw [Nat.add_assoc, Nat.add_sub_of_le hstop.le]
          refine .bind (sizeSub_sat hstop.le hstop64) ?_
          rintro size rfl
          refine .bind (pushUniqueAt_sat pool tags (hend.trans_le hcells)) ?_
          rw [hend, ← slice_shift]
          rintro result rfl
          cases pushUnique pool tags (slice (fun k => mem (value + k)) start stop) with
          | error rc => exact .pure rfl
          | ok tags => exact ih stop tags hstop.le_stop
      · rw [if_neg (Nat.not_lt.mpr hnone), if_pos (Nat.sub_eq_zero_of_le hnone)]
        refine (ih stop tags hstop.le_stop).imp ?_
        rw [hend, slice_eq_nil (Nat.le_refl _), extractLoop_nil]
        exact fun _ h => h
    · next hge =>
      have hnil : slice mem (value + i) (value + len) = [] :=
        slice_eq_nil (Nat.add_le_add_left (Nat.le_of_not_lt hge) value)
      rw [hnil, extractLoop_nil]
      exact .pure rfl

theorem extractTokensAt_sat (mem : Cells) (pool : Nat → Bool) (tags : List Bytes)
    (hlen : value + len ≤ n) (hn : n < 2 ^ 64) :
    (extractTokensAt mem pool value len tags).Sat (Access.InBounds n)
      (· = extractTokens pool (slice mem value (value + len)) tags) := by
  unfold extractTokens
  rw [length_slice, Nat.add_sub_cancel_left]
  exact extractLoopAt_sat pool (len + 1) 0 tags (Nat.zero_le len) hlen hn

end Tags

/-! ## Lines in bounds -/

theorem lineValueAt_sat {i : Nat} (hi : i ≤ n) :
    (lineValueAt mem n i).Sat (Access.InBounds n) fun value =>
      value.1 ≤ value.2 ∧ value.2 ≤ n ∧
        slice mem value.1 value.2 = lineValue (slice mem i n) := by
  have hcell : ∀ k < n, (bufCell mem k).Sat (Access.InBounds n) (· = mem k) :=
    fun k hk => bufCell_sat hk
  refine .bind (skipWhile_sat hi hcell) fun valueStart hstart => ?_
  refine .bind (skipWhile_sat hstart.le_stop hcell) fun lineEnd hend => ?_
  refine .pure ⟨hend.le, hend.le_stop, ?_⟩
  unfold lineValue
  rw [← hstart.rest]
  exact hend.passed

/-- A name is compared with the line that starts at `i`, which is long enough. -/
theorem lineName_sat {i : Nat} (name : Bytes) (h : i + name.length ≤ n) :
    (strncasecmpAt (fun k => bufCell mem (i + k)) (strCell name) name.length 0).Sat
      (Access.InBounds n) (· = ngxStrncasecmp (slice mem i n) name name.length) :=
  strncasecmpAt_sat
    (fun _ hk => partCell_sat (Nat.lt_of_lt_of_le (Nat.add_lt_add_left hk i) h) (Nat.le_refl n))
    fun _ hk => strCell_sat hk

theorem parseKeyLineAt_sat {i : Nat} (key : Bytes) (hn : n < 2 ^ 64) :
    (parseKeyLineAt mem n pool i key).Sat (Access.InBounds n)
      (· = parseKeyLine pool (slice mem i n) key) := by
  have hlength : 4 ≤ (slice mem i n).length ↔ i + 4 ≤ n := by
    rw [length_slice]
    omega
  unfold parseKeyLine
  refine .ite (fun hkey => ?_) fun hkey => ?_
  · refine .bind (lineName_sat keyHdr hkey.2) ?_
    rintro rc rfl
    refine .ite (fun hname => ?_) fun hname => ?_
    · rw [if_pos ⟨hkey.1, hlength.mpr hkey.2, hname⟩, drop_slice]
      refine .bind (lineValueAt_sat hkey.2) fun value hvalue => ?_
      obtain ⟨hle, hend, hslice⟩ := hvalue
      simp only [← hslice, length_slice]
      refine .ite (fun hlt => ?_) fun hge => ?_
      · have hend64 : value.2 < 2 ^ 64 := Nat.lt_of_le_of_lt hend hn
        have hsum : value.1 + (value.2 - value.1) = value.2 := Nat.add_sub_of_le hle
        rw [if_pos (Nat.sub_pos_of_lt hlt)]
        refine .bind (sizeSub_sat hle hend64) ?_
        rintro size rfl
        cases pool.key with
        | true =>
          refine .bind (memcpyAt_sat (hsum.trans_le hend)) ?_
          rintro data rfl
          rw [hsum]
          exact .pure rfl
        | false => exact .pure rfl
      · rw [if_neg fun h => hge (Nat.lt_of_sub_pos h)]
        exact .pure rfl
    · rw [if_neg fun h => hname h.2.2]
      exact .pure rfl
  · rw [if_neg fun h => hkey ⟨h.1, hlength.mp h.2.1⟩]
    exact .pure rfl

theorem parseTagLineAt_sat {i : Nat} (tags : List Bytes) (header : Bytes) (hn : n < 2 ^ 64) :
    (parseTagLineAt mem n pool i tags header).Sat (Access.InBounds n)
      (· = parseTagLine pool (slice mem i n) tags header) := by
  have hlength : (slice mem i n).length ≤ header.length + 1 ↔ n ≤ i + header.length + 1 := by
    rw [length_slice]
    omega
  unfold parseTagLine
  refine .ite (fun hshort => ?_) fun hlong => ?_
  · rw [if_pos (hlength.mpr hshort)]
    exact .pure rfl
  · rw [if_neg fun h => hlong (hlength.mp h), getD_slice (by omega), drop_slice, ← Nat.add_assoc]
    refine .bind (lineName_sat header (by omega)) ?_
    rintro rc rfl
    refine .ite (fun hname => ?_) fun hname => ?_
    · rw [if_pos (Or.inl hname)]
      exact .pure rfl
    · refine .bind (bufCell_sat (by omega)) ?_
      rintro c rfl
      refine .ite (fun hcolon => ?_) fun hcolon => ?_
      · rw [if_pos (Or.inr hcolon)]
        exact .pure rfl
      · rw [if_neg (not_or.mpr ⟨hname, hcolon⟩)]
        refine .bind (lineValueAt_sat (by omega)) fun value hvalue => ?_
        obtain ⟨hle, hend, hslice⟩ := hvalue
        have hsum : value.1 + (value.2 - value.1) = value.2 := Nat.add_sub_of_le hle
        refine .bind (sizeSub_sat hle (Nat.lt_of_le_of_lt hend hn)) ?_
        rintro len rfl
        have htokens := extractTokensAt_sat mem pool.tag tags
          (hsum.trans_le hend) hn
        rw [hsum, hslice] at htokens
        exact htokens

theorem parseTagLinesAt_sat {i : Nat} (headers tags : List Bytes) (hn : n < 2 ^ 64) :
    (parseTagLinesAt mem n pool i headers tags).Sat (Access.InBounds n)
      (· = headers.foldlM (parseTagLine pool (slice mem i n)) tags) := by
  induction headers generalizing tags with
  | nil => exact .pure rfl
  | cons header headers ih =>
    unfold parseTagLinesAt
    rw [List.foldlM_cons]
    refine .bind (parseTagLineAt_sat tags header hn) ?_
    rintro result rfl
    cases parseTagLine pool (slice mem i n) tags header with
    | error rc => exact .pure rfl
    | ok tags => exact ih tags

theorem lineStartAt_sat {i : Nat} (hi : i < n) (hn : n < 2 ^ 64) :
    (lineStartAt mem i).Sat (Access.InBounds n) (· = (i == 0 || mem (i - 1) == 10)) := by
  unfold lineStartAt
  cases i with
  | zero => exact .pure rfl
  | succ i =>
    rw [if_neg (Nat.succ_ne_zero i)]
    refine .bind (sizeSub_sat (Nat.le_add_left 1 i) (by omega)) ?_
    rintro before rfl
    refine .bind (bufCell_sat (Nat.lt_of_succ_lt hi)) ?_
    rintro c rfl
    exact .pure rfl

theorem parseLineAt_sat {i : Nat} (headers : Option (List Bytes)) (st : Bytes × List Bytes)
    (hn : n < 2 ^ 64) :
    (parseLineAt mem n pool headers i st).Sat (Access.InBounds n)
      (· = parseLine pool headers (slice mem i n) st) := by
  unfold parseLineAt parseLine
  refine .bind (parseKeyLineAt_sat st.1 hn) ?_
  rintro result rfl
  cases parseKeyLine pool (slice mem i n) st.1 with
  | error rc => exact .pure rfl
  | ok key =>
    cases headers with
    | none => exact .pure rfl
    | some headers =>
      refine .bind (parseTagLinesAt_sat headers st.2 hn) ?_
      rintro result rfl
      simp only
      cases headers.foldlM (parseTagLine pool (slice mem i n)) st.2 with
      | error rc => exact .pure rfl
      | ok tags => exact .pure rfl

theorem parseLinesAt_sat (mem : Cells) (pool : ParsePool) (headers : Option (List Bytes))
    {fuel i : Nat} (st : Bytes × List Bytes) (hfuel : n ≤ i + fuel) (hn : n < 2 ^ 64) :
    (parseLinesAt mem n pool headers fuel i st).Sat (Access.InBounds n)
      (· = parseLines pool headers (i == 0 || mem (i - 1) == 10) (slice mem i n) st) := by
  induction fuel generalizing i st with
  | zero =>
    refine .pure ?_
    rw [slice_eq_nil (show n ≤ i from hfuel)]
    rfl
  | succ fuel ih =>
    refine .ite (fun hi => ?_) fun hge => ?_
    · have hrest : n ≤ i + 1 + fuel := by omega
      have hnext := fun st => ih st hrest
      rw [slice_cons hi]
      unfold parseLines
      rw [← slice_cons hi]
      refine .bind (lineStartAt_sat hi hn) ?_
      rintro b rfl
      refine .ite (fun hstart => ?_) fun hstart => ?_
      · rw [if_pos hstart]
        refine .bind (parseLineAt_sat headers st hn) ?_
        rintro result rfl
        cases parseLine pool headers (slice mem i n) st with
        | error rc => exact .pure rfl
        | ok st => exact hnext st
      · rw [if_neg hstart]
        exact hnext st
    · rw [slice_eq_nil (Nat.le_of_not_lt hge)]
      exact .pure rfl

/-! ## A whole buffer -/

/-- On a buffer of `n` cells, whatever is in them and behind them, and for any headers,
the scan of `parse_file` reads cells of the buffer only, computes no negative length, and
gives what `parseLines` gives; the key and every tag are parts of one line each. -/
theorem parse_file_in_bounds (mem : Cells) (n : Nat) (hn : n ≤ 65536) (pool : ParsePool)
    (headers : Option (List Bytes)) :
    let scan := parseLinesAt mem n pool headers n 0 ([], [])
    let buf := slice mem 0 n
    (∀ access ∈ scan.events, access.InBounds n) ∧
      scan.val = parseLines pool headers true buf ([], []) ∧
      ∀ key tags, scan.val = .ok (key, tags) →
        (∃ line ∈ buf.splitOn 10, key <:+: line) ∧
          ∀ tag ∈ tags, ∃ line ∈ buf.splitOn 10, tag <:+: line := by
  have hscan := parseLinesAt_sat mem pool headers ([], []) (Nat.le_of_eq (Nat.zero_add n).symm)
    (Nat.lt_of_le_of_lt hn (by decide))
  refine ⟨hscan.events, hscan.val, fun key tags hok => ?_⟩
  have hpieces : Pieces (slice mem 0 n) (key, tags) :=
    parseLines_pieces (hscan.val.symm.trans hok) (List.suffix_refl _)
      ⟨.nil, fun tag htag => absurd htag List.not_mem_nil⟩
  exact ⟨hpieces.key.line, fun tag htag => (hpieces.tags tag htag).line⟩

/-- A file that is cut off behind `KEY:a`. -/
def cutMem : Cells := fun i => [75, 69, 89, 58, 97].getD i 98

theorem parse_file_in_bounds_sample :
    (∀ access ∈ (parseLinesAt cutMem 5 .full (some [[84]]) 5 0 ([], [])).events, access.InBounds 5) ∧
      (parseLinesAt cutMem 5 .full (some [[84]]) 5 0 ([], [])).val =
        parseLines .full (some [[84]]) true [75, 69, 89, 58, 97] ([], []) := by
  have h := parse_file_in_bounds cutMem 5 (by decide) .full (some [[84]])
  exact ⟨h.1, h.2.1⟩

end CachePilot
