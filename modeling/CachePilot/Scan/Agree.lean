import CachePilot.Scan.ParseFile

/-!
# The scan and the live index

A response is indexed twice: live, from its parsed headers, and by the bootstrap
scan, from the first bytes of its cache file. `StoredResponse.file` lays the file
out as nginx writes it. The scan does not know where the response head begins and
ends, so it also reads lines of the binary header, of the key and of the body.

Results:
* `scan_agrees_iff`: when the scan reads back the key and the tags that were
  indexed live;
* `scan_reads_body`: a response for which it does not.
-/

namespace CachePilot
open NgxString KeepFirst

/-! ## The layout of a cache file -/

/-- A stored response: the binary header that precedes it, the parts of its cache
key, its status line, headers and body. -/
structure StoredResponse where
  header : Bytes
  keys : List Bytes
  status : Bytes
  headers : List TableElt
  body : Bytes

def headerLine (h : TableElt) : Bytes := h.key ++ 58 :: 32 :: h.value ++ [13, 10]

namespace StoredResponse

variable (r : StoredResponse)

def key : Bytes := cacheKey r.keys

/-- The file from the status line on. -/
def response : Bytes :=
  r.status ++ 13 :: 10 :: (r.headers.flatMap headerLine ++ 13 :: 10 :: r.body)

/-- The file from the key on. -/
def keyAndResponse : Bytes := keyHdr ++ 32 :: r.key ++ 10 :: r.response

def file : Bytes := r.header ++ 10 :: r.keyAndResponse

/-- The length of everything before the body. -/
def headLength : Nat := ({ r with body := [] } : StoredResponse).file.length

/-- The key is not empty, lines are lines, and the head is within the first 65536
bytes. -/
structure WellFormed : Prop where
  key : r.key ≠ []
  status : (10 : UInt8) ∉ r.status
  names : ∀ h ∈ r.headers, (10 : UInt8) ∉ h.key
  values : ∀ h ∈ r.headers, ∀ c ∈ h.value, isEol c = false
  head : r.headLength ≤ 65536

/-- The response with the part of its body that the scan reads. -/
def visible : StoredResponse := { r with body := r.body.take (65536 - r.headLength) }

end StoredResponse

/-! ## Line starts -/

theorem lineStarts_append (b : Bool) (a rest : Bytes) :
    lineStarts b (a ++ 10 :: rest) =
      (lineStarts b (a ++ [10])).map (· ++ rest) ++ lineStarts true rest := by
  induction a generalizing b with
  | nil => cases b <;> rfl
  | cons c a ih =>
    cases b with
    | false => exact ih _
    | true =>
      have hcons : ∀ x : Bytes, lineStarts true (c :: x) = (c :: x) :: lineStarts (c == 10) x :=
        fun _ => rfl
      rw [List.cons_append, List.cons_append, hcons, hcons, ih, List.map_cons, List.cons_append]
      simp

/-- Inside a line no line starts. -/
theorem lineStarts_inside {l : Bytes} (h : (10 : UInt8) ∉ l) (rest : Bytes) :
    lineStarts false (l ++ 10 :: rest) = lineStarts true rest := by
  induction l with
  | nil => rfl
  | cons c l ih =>
    have hc : (c == 10) = false := beq_false_of_ne fun h0 => h (h0 ▸ List.mem_cons_self)
    have hstep : lineStarts false (c :: l ++ 10 :: rest) = lineStarts (c == 10) (l ++ 10 :: rest) :=
      rfl
    rw [hstep, hc]
    exact ih fun h0 => h (List.mem_cons_of_mem c h0)

/-- A line starts once. -/
theorem lineStarts_line {l : Bytes} (h : (10 : UInt8) ∉ l) (rest : Bytes) :
    lineStarts true (l ++ 10 :: rest) = (l ++ 10 :: rest) :: lineStarts true rest := by
  cases l with
  | nil => rfl
  | cons c l =>
    have hc : (c == 10) = false := beq_false_of_ne fun h0 => h (h0 ▸ List.mem_cons_self)
    have hstep : lineStarts true (c :: l ++ 10 :: rest) =
        (c :: l ++ 10 :: rest) :: lineStarts (c == 10) (l ++ 10 :: rest) := rfl
    rw [hstep, hc, lineStarts_inside fun h0 => h (List.mem_cons_of_mem c h0)]

/-- What starts in a text that ends with a line feed has that line feed in it. -/
theorem mem_of_mem_lineStarts {b : Bool} {a x : Bytes} (h : x ∈ lineStarts b (a ++ [10])) :
    (10 : UInt8) ∈ x := by
  induction a generalizing b with
  | nil =>
    cases b with
    | false => exact absurd h List.not_mem_nil
    | true =>
      rw [List.mem_singleton.mp h]
      exact List.mem_cons_self
  | cons c a ih =>
    cases b with
    | false => exact ih h
    | true =>
      rcases List.mem_cons.mp h with rfl | h
      · simp
      · exact ih h

/-! ## The lines of a stored response -/

/-- The starts of the header lines, each with its header. -/
def headerSources : List TableElt → Bytes → List (Option TableElt × Bytes)
  | [], _ => []
  | h :: hs, rest =>
    (some h, headerLine h ++ (hs.flatMap headerLine ++ rest)) :: headerSources hs rest

def foreignSources (starts : List Bytes) : List (Option TableElt × Bytes) :=
  starts.map fun rest => (none, rest)

/-- All line starts of the file in order, each with the response header that it
is the line of. -/
def StoredResponse.sources (r : StoredResponse) : List (Option TableElt × Bytes) :=
  foreignSources ((lineStarts true (r.header ++ [10])).map (· ++ r.keyAndResponse)) ++
  foreignSources ((lineStarts true (keyHdr ++ 32 :: r.key ++ [10])).map (· ++ r.response)) ++
  foreignSources [r.response] ++
  headerSources r.headers (13 :: 10 :: r.body) ++
  foreignSources (lineStarts true (13 :: 10 :: r.body))

theorem headerLine_eq (h : TableElt) (rest : Bytes) :
    headerLine h ++ rest = (h.key ++ 58 :: 32 :: h.value ++ [13]) ++ 10 :: rest := by
  simp [headerLine]

theorem StoredResponse.WellFormed.headerLine_no_lf {r : StoredResponse} (hr : r.WellFormed)
    {h : TableElt} (hh : h ∈ r.headers) :
    (10 : UInt8) ∉ h.key ++ 58 :: 32 :: h.value ++ [13] := by
  have hv : (10 : UInt8) ∉ h.value := fun h0 => nomatch hr.values h hh 10 h0
  simp [hr.names h hh, hv]

theorem lineStarts_headers {hs : List TableElt}
    (hno : ∀ h ∈ hs, (10 : UInt8) ∉ h.key ++ 58 :: 32 :: h.value ++ [13]) (rest : Bytes) :
    lineStarts true (hs.flatMap headerLine ++ rest) =
      (headerSources hs rest).map Prod.snd ++ lineStarts true rest := by
  induction hs with
  | nil => rfl
  | cons h hs ih =>
    have hline : (h :: hs).flatMap headerLine ++ rest =
        headerLine h ++ (hs.flatMap headerLine ++ rest) := by simp
    rw [hline, headerLine_eq, lineStarts_line (hno h List.mem_cons_self), ← headerLine_eq,
      ih fun h' hh' => hno h' (List.mem_cons_of_mem h hh')]
    rfl

/-- The sources are the line starts of the file. -/
theorem StoredResponse.WellFormed.lineStarts_file {r : StoredResponse} (hr : r.WellFormed) :
    lineStarts true r.file = r.sources.map Prod.snd := by
  have hforeign : ∀ starts, (foreignSources starts).map Prod.snd = starts := fun starts => by
    simp [foreignSources, Function.comp_def]
  have hstatus : (10 : UInt8) ∉ r.status ++ [13] := by simp [hr.status]
  have hresp : ∀ x : Bytes, r.status ++ 13 :: 10 :: x = (r.status ++ [13]) ++ 10 :: x := by simp
  have hresponse : lineStarts true r.response =
      r.response :: lineStarts true (r.headers.flatMap headerLine ++ 13 :: 10 :: r.body) := by
    unfold response
    rw [hresp, lineStarts_line hstatus]
  unfold file sources
  rw [lineStarts_append]
  conv => lhs; rw [keyAndResponse]
  rw [lineStarts_append true (keyHdr ++ 32 :: r.key), hresponse,
    lineStarts_headers fun h hh => hr.headerLine_no_lf hh]
  simp only [List.map_append, hforeign, List.append_assoc]
  rfl

/-! ## Tags -/

/-- Whether `response_headers` takes a response header for a configured one. -/
def sameHeader (h : TableElt) (w : Bytes) : Bool :=
  h.key.length == w.length && ngxStrncasecmp h.key w w.length == 0

/-- The tokens of the response headers that are configured, in order. -/
def headerTokens (headers : List TableElt) (wanted : List Bytes) : List Bytes :=
  headers.flatMap fun h => wanted.flatMap fun w => if sameHeader h w then tokens h.value else []

/-- The tokens that the scan reads at a line start, each marked by whether it is
a token of a configured response header. -/
def markedTokens (wanted : List Bytes) (source : Option TableElt × Bytes) : List (Bool × Bytes) :=
  wanted.flatMap fun w =>
    (tokensAt w source.2).map fun t => (source.1.any fun h => sameHeader h w, t)

/-- All tokens that the scan reads. -/
def StoredResponse.stream (r : StoredResponse) (wanted : List Bytes) : List (Bool × Bytes) :=
  r.sources.flatMap (markedTokens wanted)

theorem responseHeaders_success (headers : List TableElt) (wanted : List Bytes) :
    responseHeaders ⟨true, fun _ => true⟩ headers wanted =
      .ok (keepTags [] (headerTokens headers wanted)) := by
  have hone : ∀ (h : TableElt) (ws : List Bytes) (tags : List Bytes),
      ws.foldlM (fun tags w =>
        if h.key.length ≠ w.length then (.ok tags : Except NgxRc (List Bytes))
        else if ngxStrncasecmp h.key w w.length ≠ 0 then .ok tags
        else extractTokens (fun _ => true) h.value tags) tags =
      .ok (keepTags tags (ws.flatMap fun w => if sameHeader h w then tokens h.value else [])) := by
    intro h ws
    induction ws with
    | nil => exact fun _ => rfl
    | cons w ws ih =>
      intro tags
      rw [List.foldlM_cons, List.flatMap_cons, keepTags_append]
      by_cases hl : h.key.length ≠ w.length
      · have hs : sameHeader h w = false := by simp [sameHeader, hl]
        rw [if_pos hl, hs]
        exact ih _
      · rw [if_neg hl]
        by_cases hc : ngxStrncasecmp h.key w w.length ≠ 0
        · have hs : sameHeader h w = false := by simp [sameHeader, hc]
          rw [if_pos hc, hs]
          exact ih _
        · have hs : sameHeader h w = true := by
            simp [sameHeader, not_not.mp hl, not_not.mp hc]
          rw [if_neg hc, hs, extractTokens_success]
          exact ih _
  have hall : ∀ (hs : List TableElt) (tags : List Bytes),
      hs.foldlM (fun tags h => wanted.foldlM (fun tags w =>
        if h.key.length ≠ w.length then (.ok tags : Except NgxRc (List Bytes))
        else if ngxStrncasecmp h.key w w.length ≠ 0 then .ok tags
        else extractTokens (fun _ => true) h.value tags) tags) tags =
      .ok (keepTags tags (headerTokens hs wanted)) := by
    intro hs
    induction hs with
    | nil => exact fun _ => rfl
    | cons h hs ih =>
      intro tags
      rw [List.foldlM_cons, hone]
      unfold headerTokens
      rw [List.flatMap_cons, keepTags_append]
      exact ih _
  exact hall headers []

theorem responseHeaders_tags {pool : TagPool} {headers : List TableElt} {wanted tags : List Bytes}
    (h : responseHeaders pool headers wanted = .ok tags) :
    tags = keepTags [] (headerTokens headers wanted) :=
  Except.ok.inj ((responseHeaders_ok h).symm.trans (responseHeaders_success headers wanted))

/-- A run without line ends up to a line end is the value of the line. -/
theorem takeWhile_eol {v : Bytes} (hv : ∀ c ∈ v, isEol c = false) {e : UInt8} (he : isEol e = true)
    (x : Bytes) : (v ++ e :: x).takeWhile (fun c => !isEol c) = v := by
  induction v with
  | nil => simp [he]
  | cons c v ih =>
    have hc := hv c List.mem_cons_self
    rw [List.cons_append, List.takeWhile_cons_of_pos (by rw [hc]; rfl),
      ih fun d hd => hv d (List.mem_cons_of_mem c hd)]

theorem isBlank_eol {e : UInt8} (he : isEol e = true) : isBlank e = false := by
  unfold isEol at he
  rw [Bool.or_eq_true, beq_iff_eq, beq_iff_eq] at he
  rcases he with rfl | rfl
  · rfl
  · rfl

/-- The value of a line whose text is `v`. -/
theorem lineValue_eol {v : Bytes} (hv : ∀ c ∈ v, isEol c = false) {e : UInt8} (he : isEol e = true)
    (x : Bytes) : lineValue (v ++ e :: x) = v.dropWhile isBlank := by
  unfold lineValue
  induction v with
  | nil => simp [isBlank_eol he, he]
  | cons c v ih =>
    have hrest : ∀ d ∈ v, isEol d = false := fun d hd => hv d (List.mem_cons_of_mem c hd)
    rw [List.cons_append]
    cases hb : isBlank c with
    | true => rw [List.dropWhile_cons_of_pos hb, List.dropWhile_cons_of_pos hb, ih hrest]
    | false =>
      rw [List.dropWhile_cons_of_neg (by rw [hb]; decide),
        List.dropWhile_cons_of_neg (by rw [hb]; decide), ← List.cons_append, takeWhile_eol hv he]

/-- Blanks are separators. -/
theorem tokens_dropWhile_blank (v : Bytes) : tokens (v.dropWhile isBlank) = tokens v := by
  induction v with
  | nil => rfl
  | cons c v ih =>
    cases hb : isBlank c with
    | true =>
      have hs : isSeparator c = true := by
        unfold isBlank at hb
        rw [Bool.or_eq_true] at hb
        unfold isSeparator
        rcases hb with h | h <;> simp [h]
      rw [List.dropWhile_cons_of_pos hb, ih, tokens_cons_separator hs]
    | false => rw [List.dropWhile_cons_of_neg (by rw [hb]; decide)]

/-- At the line of a response header the scan finds a configured header of that
name, with the value's tokens. -/
theorem tokensAt_headerLine {h : TableElt} {w : Bytes} (hs : sameHeader h w = true)
    (hv : ∀ c ∈ h.value, isEol c = false) (rest : Bytes) :
    tokensAt w (headerLine h ++ rest) = tokens h.value := by
  unfold sameHeader at hs
  rw [Bool.and_eq_true, beq_iff_eq, beq_iff_eq] at hs
  obtain ⟨hl, hc⟩ := hs
  have hline : headerLine h ++ rest = h.key ++ 58 :: 32 :: (h.value ++ 13 :: 10 :: rest) := by
    simp [headerLine]
  have hcmp : ngxStrncasecmp (headerLine h ++ rest) w w.length = 0 := by
    unfold ngxStrncasecmp at hc ⊢
    rw [hline, strncmpBy_append (Nat.le_of_eq hl.symm)]
    exact hc
  have hcolon : (headerLine h ++ rest).getD w.length 0 = 58 := by
    rw [hline, ← hl]
    simp
  have hlen : w.length + 1 < (headerLine h ++ rest).length := by
    rw [hline, ← hl]
    simp
  have hdrop : (headerLine h ++ rest).drop (w.length + 1) = 32 :: (h.value ++ 13 :: 10 :: rest) := by
    rw [hline, ← hl, ← List.drop_drop]
    simp
  unfold tokensAt
  rw [if_pos ⟨hlen, hcmp, hcolon⟩, hdrop]
  have hblank : lineValue (32 :: (h.value ++ 13 :: 10 :: rest)) =
      lineValue (h.value ++ 13 :: 10 :: rest) := rfl
  rw [hblank, lineValue_eol hv rfl, tokens_dropWhile_blank]

theorem own_append (xs ys : List (Bool × Bytes)) : own (xs ++ ys) = own xs ++ own ys := by
  unfold own
  rw [List.filter_append, List.map_append]

theorem own_foreign (wanted : List Bytes) (starts : List Bytes) :
    own ((foreignSources starts).flatMap (markedTokens wanted)) = [] := by
  unfold own
  rw [List.map_eq_nil_iff, List.filter_eq_nil_iff]
  intro bt hbt
  obtain ⟨source, hsource, hbt⟩ := List.mem_flatMap.mp hbt
  obtain ⟨rest, -, rfl⟩ := List.mem_map.mp hsource
  obtain ⟨w, -, hbt⟩ := List.mem_flatMap.mp hbt
  obtain ⟨t, -, rfl⟩ := List.mem_map.mp hbt
  exact Bool.false_ne_true

theorem own_markedTokens {h : TableElt} (hv : ∀ c ∈ h.value, isEol c = false) (rest : Bytes)
    (wanted : List Bytes) :
    own (markedTokens wanted (some h, headerLine h ++ rest)) =
      wanted.flatMap fun w => if sameHeader h w then tokens h.value else [] := by
  unfold markedTokens
  induction wanted with
  | nil => rfl
  | cons w wanted ih =>
    rw [List.flatMap_cons, List.flatMap_cons, own_append, ih]
    congr 1
    cases hs : sameHeader h w with
    | true =>
      rw [if_pos rfl]
      simp only [Option.any_some, hs, tokensAt_headerLine hs hv]
      simp [own, List.filter_map, Function.comp_def]
    | false =>
      rw [if_neg (by decide)]
      simp only [Option.any_some, hs]
      simp [own, List.filter_map, Function.comp_def]

theorem own_headerSources {hs : List TableElt} (hv : ∀ h ∈ hs, ∀ c ∈ h.value, isEol c = false)
    (rest : Bytes) (wanted : List Bytes) :
    own ((headerSources hs rest).flatMap (markedTokens wanted)) = headerTokens hs wanted := by
  induction hs with
  | nil => rfl
  | cons h hs ih =>
    unfold headerSources headerTokens
    rw [List.flatMap_cons, List.flatMap_cons, own_append, own_markedTokens (hv h List.mem_cons_self),
      ih fun h' hh' => hv h' (List.mem_cons_of_mem h hh')]
    rfl

/-- The tokens of the response headers are among the ones that the scan reads. -/
theorem StoredResponse.WellFormed.own_stream {r : StoredResponse} (hr : r.WellFormed)
    (wanted : List Bytes) : own (r.stream wanted) = headerTokens r.headers wanted := by
  unfold stream sources
  simp only [List.flatMap_append, own_append, own_foreign, own_headerSources hr.values,
    List.nil_append, List.append_nil]

theorem StoredResponse.stream_tokens (r : StoredResponse) (wanted : List Bytes) :
    (r.stream wanted).map Prod.snd =
      (r.sources.map Prod.snd).flatMap fun rest => wanted.flatMap fun w => tokensAt w rest := by
  unfold stream markedTokens
  rw [List.map_flatMap, List.flatMap_map]
  refine List.flatMap_congr fun source _ => ?_
  rw [List.map_flatMap]
  refine List.flatMap_congr fun w _ => ?_
  rw [List.map_map]
  exact List.map_id _

/-! ## The key -/

theorem keyHdr_match {rest : Bytes} (hl : 4 ≤ rest.length) :
    ngxStrncasecmp rest keyHdr 4 = 0 ↔ (rest.take 4).map ngxTolower = [107, 101, 121, 58] := by
  have hlen : ((rest.take 4).map ngxTolower).length = 4 := by simp [hl]
  have hkey : cstr ((keyHdr.take 4).map ngxTolower) = [107, 101, 121, 58] := by decide
  have h4 : 4 ≤ keyHdr.length := Nat.le_refl 4
  rw [ngxStrncasecmp_eq_zero hl h4, hkey]
  constructor
  · intro h
    have hpre : cstr ((rest.take 4).map ngxTolower) <+: (rest.take 4).map ngxTolower :=
      List.takeWhile_prefix _
    rw [h] at hpre
    exact (hpre.eq_of_length (by rw [hlen]; rfl)).symm
  · intro h
    rw [h]
    rfl

theorem takeWhile_cut (v : Bytes) {e : UInt8} (he : isEol e = true) (x : Bytes) :
    (v ++ e :: x).takeWhile (fun c => !isEol c) = (v ++ [e]).takeWhile fun c => !isEol c := by
  induction v with
  | nil => simp [he]
  | cons c v ih =>
    rw [List.cons_append, List.cons_append, List.takeWhile_cons, List.takeWhile_cons, ih]

/-- The value of a line ends before its line end. -/
theorem lineValue_cut (v : Bytes) {e : UInt8} (he : isEol e = true) (x : Bytes) :
    lineValue (v ++ e :: x) = lineValue (v ++ [e]) := by
  unfold lineValue
  induction v with
  | nil => simp [isBlank_eol he, he]
  | cons c v ih =>
    rw [List.cons_append, List.cons_append]
    cases hb : isBlank c with
    | true => rw [List.dropWhile_cons_of_pos hb, List.dropWhile_cons_of_pos hb, ih]
    | false =>
      rw [List.dropWhile_cons_of_neg (by rw [hb]; decide),
        List.dropWhile_cons_of_neg (by rw [hb]; decide), ← List.cons_append, takeWhile_cut _ he x,
        List.cons_append]

theorem lineValue_append {u : Bytes} (h : (10 : UInt8) ∈ u) (y : Bytes) :
    lineValue (u ++ y) = lineValue u := by
  obtain ⟨a, b, rfl⟩ := List.append_of_mem h
  rw [List.append_assoc, List.cons_append, lineValue_cut a rfl, lineValue_cut a rfl b]

theorem not_keyHdr {l : Bytes} (h : (10 : UInt8) ∈ l) :
    l.map ngxTolower ≠ [107, 101, 121, 58] := by
  intro h0
  have hm : ngxTolower 10 ∈ l.map ngxTolower := List.mem_map_of_mem h
  rw [h0] at hm
  exact absurd hm (by decide)

/-- A line that is whole gives the same key whatever follows it. -/
theorem keyAt_append {x : Bytes} (h : (10 : UInt8) ∈ x) (y : Bytes) : keyAt (x ++ y) = keyAt x := by
  rcases Nat.lt_or_ge x.length 4 with hlt | hge
  · have hnone : keyAt x = none := if_neg fun h0 => Nat.not_le.mpr hlt h0.1
    rw [hnone]
    refine if_neg fun h0 => not_keyHdr ?_ ((keyHdr_match h0.1).mp h0.2.1)
    rw [List.take_append, List.take_of_length_le (Nat.le_of_lt hlt)]
    exact List.mem_append_left _ h
  · have hcmp : ngxStrncasecmp (x ++ y) keyHdr 4 = ngxStrncasecmp x keyHdr 4 :=
      strncmpBy_append hge y keyHdr
    have hlen : 4 ≤ (x ++ y).length := by
      rw [List.length_append]
      omega
    unfold keyAt
    rw [hcmp, List.drop_append_of_le_length hge]
    by_cases hm : (10 : UInt8) ∈ x.take 4
    · have hno : ngxStrncasecmp x keyHdr 4 ≠ 0 := fun h0 => not_keyHdr hm ((keyHdr_match hge).mp h0)
      rw [if_neg fun h0 => hno h0.2.1, if_neg fun h0 => hno h0.2.1]
    · have hd : (10 : UInt8) ∈ x.drop 4 := by
        rw [← List.take_append_drop 4 x] at h
        exact (List.mem_append.mp h).resolve_left hm
      rw [lineValue_append hd]
      simp only [hge, hlen, true_and]

/-- The value of a line is clean: it does not begin with a blank, and it has no
line end in it. -/
def Clean (v : Bytes) : Prop := (∀ c ∈ v.head?, isBlank c = false) ∧ ∀ c ∈ v, isEol c = false

theorem lineValue_clean (u : Bytes) : Clean (lineValue u) := by
  unfold lineValue Clean
  refine ⟨fun c hc => ?_, fun c hc => by simpa using List.mem_takeWhile_imp hc⟩
  cases hd : u.dropWhile isBlank with
  | nil =>
    rw [hd] at hc
    exact nomatch hc
  | cons d rest =>
    have hblank : isBlank d = false := by
      have h0 := List.head_dropWhile_not isBlank (l := u) (by rw [hd]; exact List.cons_ne_nil d rest)
      simpa [hd] using h0
    rw [hd, List.takeWhile_cons] at hc
    split at hc
    · rw [← Option.some.inj hc]
      exact hblank
    · exact nomatch hc

/-- The `KEY:` line gives back a key exactly when the key is clean. -/
theorem lineValue_key (key : Bytes) : lineValue (key ++ [10]) = key ↔ Clean key := by
  constructor
  · intro h
    rw [← h]
    exact lineValue_clean _
  · rintro ⟨hblank, heol⟩
    rw [lineValue_eol heol rfl []]
    cases key with
    | nil => rfl
    | cons c key =>
      have hc := hblank c rfl
      exact List.dropWhile_cons_of_neg (by rw [hc]; decide)

theorem clean_of_keyAt {rest v : Bytes} (h : keyAt rest = some v) : Clean v := by
  unfold keyAt at h
  split at h
  · rw [← Option.some.inj h]
    exact lineValue_clean _
  · exact nomatch h

theorem keyAt_keyLine (key : Bytes) :
    keyAt (keyHdr ++ 32 :: key ++ [10]) =
      if lineValue (key ++ [10]) = [] then none else some (lineValue (key ++ [10])) := by
  have hcmp : ngxStrncasecmp (keyHdr ++ 32 :: key ++ [10]) keyHdr 4 = 0 := by
    rw [List.append_assoc]
    exact (strncmpBy_append (Nat.le_refl 4) _ keyHdr).trans (by decide)
  have hdrop : lineValue ((keyHdr ++ 32 :: key ++ [10]).drop 4) = lineValue (key ++ [10]) := rfl
  unfold keyAt
  rw [hdrop]
  cases hv : lineValue (key ++ [10]) with
  | nil => exact if_neg fun h0 => absurd h0.2.2 (by decide)
  | cons c v =>
    rw [if_pos ⟨by simp [keyHdr], hcmp, by simp⟩, if_neg (List.cons_ne_nil c v)]

/-- The first key that a line of the binary header names. -/
def StoredResponse.headerKey (r : StoredResponse) : Option Bytes :=
  (lineStarts true (r.header ++ [10])).findSome? keyAt

/-- Whether the scan reads the key back: the binary header has no line that names
a key, and the key does not begin with a blank and has no line end in it; or the
first line of the binary header that names a key happens to name this one. -/
def StoredResponse.KeyReadable (r : StoredResponse) : Prop :=
  r.headerKey = some r.key ∨ r.headerKey = none ∧ Clean r.key

theorem findSome?_foreign (starts : List Bytes) :
    ((foreignSources starts).map Prod.snd).findSome? keyAt = starts.findSome? keyAt := by
  simp [foreignSources, Function.comp_def]

theorem findSome?_whole {a : Bytes} (b : Bool) (y : Bytes) :
    ((lineStarts b (a ++ [10])).map (· ++ y)).findSome? keyAt =
      (lineStarts b (a ++ [10])).findSome? keyAt := by
  have hsame : ∀ x ∈ lineStarts b (a ++ [10]), keyAt (x ++ y) = keyAt x := fun x hx =>
    keyAt_append (mem_of_mem_lineStarts hx) y
  generalize lineStarts b (a ++ [10]) = starts at hsame
  induction starts with
  | nil => rfl
  | cons x starts ih =>
    rw [List.map_cons, List.findSome?_cons, List.findSome?_cons, hsame x List.mem_cons_self,
      ih fun x' hx' => hsame x' (List.mem_cons_of_mem x hx')]

/-- The key that the scan reads. -/
theorem StoredResponse.WellFormed.key_iff {r : StoredResponse} (hr : r.WellFormed) :
    ((r.sources.map Prod.snd).findSome? keyAt).getD [] = r.key ↔ r.KeyReadable := by
  -- the lines of the binary header, then the key line, then all lines behind it
  have hsplit : ∃ rest : Option Bytes, (∀ v, rest = some v → Clean v) ∧
      (r.sources.map Prod.snd).findSome? keyAt =
        r.headerKey.or ((keyAt (keyHdr ++ 32 :: r.key ++ [10])).or rest) := by
    obtain ⟨others, hothers⟩ : ∃ others, lineStarts true (keyHdr ++ 32 :: r.key ++ [10]) =
        (keyHdr ++ 32 :: r.key ++ [10]) :: others := ⟨_, rfl⟩
    obtain ⟨behind, hbehind⟩ : ∃ behind, r.sources =
        foreignSources ((lineStarts true (r.header ++ [10])).map (· ++ r.keyAndResponse)) ++
        (foreignSources ((lineStarts true (keyHdr ++ 32 :: r.key ++ [10])).map (· ++ r.response)) ++
          behind) := by
      refine ⟨foreignSources [r.response] ++ (headerSources r.headers (13 :: 10 :: r.body) ++
        foreignSources (lineStarts true (13 :: 10 :: r.body))), ?_⟩
      unfold sources
      simp only [List.append_assoc]
    refine ⟨(others ++ behind.map Prod.snd).findSome? keyAt, fun v hv => ?_, ?_⟩
    · obtain ⟨x, -, hx⟩ := List.exists_of_findSome?_eq_some hv
      exact clean_of_keyAt hx
    · rw [hbehind, List.map_append, List.map_append, List.findSome?_append, List.findSome?_append,
        findSome?_foreign, findSome?_foreign, findSome?_whole, findSome?_whole, hothers,
        List.findSome?_cons, List.findSome?_append]
      unfold headerKey
      cases keyAt (keyHdr ++ 32 :: r.key ++ [10]) with
      | none => rfl
      | some v => rfl
  obtain ⟨rest, hclean, hall⟩ := hsplit
  rw [hall, keyAt_keyLine]
  unfold KeyReadable
  cases r.headerKey with
  | some k => simp
  | none =>
    rw [Option.none_or]
    have hback := lineValue_key r.key
    by_cases hv : lineValue (r.key ++ [10]) = []
    · rw [if_pos hv, Option.none_or]
      have hdirty : ¬ Clean r.key := fun hc => hr.key ((hback.mpr hc).symm.trans hv)
      refine iff_of_false (fun h0 => ?_) (by simpa using hdirty)
      cases hrest : rest with
      | none =>
        rw [hrest] at h0
        exact hr.key h0.symm
      | some v =>
        rw [hrest] at h0
        have hvk : v = r.key := h0
        exact hdirty (hvk ▸ hclean v hrest)
    · rw [if_neg hv]
      simpa using hback

/-! ## Agreement -/

/-- Whether the scan reads the tags back: each token that it reads outside the
configured response headers is, in its turn, on the list already, beyond the
limit, or the very next tag of the list of the response headers. -/
def StoredResponse.TagsReadable (r : StoredResponse) (wanted : List Bytes) : Prop :=
  Harmless tagKey (some maxTokensPerScan) (keepTags [] (headerTokens r.headers wanted)) []
    (r.visible.stream wanted)

theorem StoredResponse.file_eq (r : StoredResponse) :
    r.file = ({ r with body := [] } : StoredResponse).file ++ r.body := by
  simp [file, keyAndResponse, response, key]

theorem StoredResponse.WellFormed.visible {r : StoredResponse} (hr : r.WellFormed) :
    r.visible.WellFormed :=
  ⟨hr.key, hr.status, hr.names, hr.values, hr.head⟩

/-- The buffer of the scan holds the head and the visible part of the body. -/
theorem StoredResponse.WellFormed.take_file {r : StoredResponse} (hr : r.WellFormed) :
    r.file.take (min 65536 r.file.length) = r.visible.file := by
  have hhead := hr.head
  rw [r.visible.file_eq, r.file_eq]
  unfold headLength at hhead
  have hsame : ({ r.visible with body := [] } : StoredResponse) = { r with body := [] } := rfl
  rw [hsame]
  have hbody : r.visible.body = r.body.take (65536 - r.headLength) := rfl
  rw [hbody]
  unfold headLength
  generalize ({ r with body := [] } : StoredResponse).file = head at *
  rw [List.length_append, List.take_append, List.take_of_length_le (by omega)]
  congr 1
  rcases Nat.le_total (65536 - head.length) r.body.length with hle | hle
  · congr 1
    omega
  · rw [List.take_of_length_le hle, List.take_of_length_le (by omega)]

/-- What the scan makes of the file. -/
theorem StoredResponse.WellFormed.parseFile_eq {r : StoredResponse} (hr : r.WellFormed)
    (wanted : List Bytes) {path : Bytes} (hp : pathKnown path = true) (mtime : Int) :
    parseFile .full path (some ⟨mtime, r.file.length⟩) (some r.file) (some wanted) =
      .ok ⟨((r.visible.sources.map Prod.snd).findSome? keyAt).getD [],
        keepTags [] ((r.visible.stream wanted).map Prod.snd), mtime, r.file.length⟩ := by
  have hlines := parseLines_success wanted true r.visible.file [] []
  rw [hr.visible.lineStarts_file, ← r.visible.stream_tokens, if_pos rfl] at hlines
  have hpos : r.file.length ≠ 0 := by simp [StoredResponse.file]
  have hvpos : r.visible.file.length ≠ 0 := by simp [StoredResponse.file]
  have hmax : min 65536 r.file.length ≠ 0 := by omega
  have hbuf : ParsePool.full.buf = true := rfl
  have hresult : ParsePool.full.result = true := rfl
  unfold parseFile
  simp only [hp, hbuf, hresult, Bool.not_true, if_neg hmax, hr.take_file, if_neg hvpos, hlines]
  rfl

/-- The tags that the scan reads are those of the response headers. -/
theorem StoredResponse.WellFormed.tags_iff {r : StoredResponse} (hr : r.WellFormed)
    (wanted : List Bytes) :
    keepTags [] ((r.visible.stream wanted).map Prod.snd) = keepTags [] (headerTokens r.headers wanted) ↔
      r.TagsReadable wanted := by
  have hown : headerTokens r.headers wanted = own (r.visible.stream wanted) :=
    (hr.visible.own_stream wanted).symm
  unfold StoredResponse.TagsReadable
  rw [hown]
  exact keepAll_eq_iff

/-- The scan reads back the key and the tags that were indexed live exactly when
none of the other lines of the file gets in the way. -/
theorem scan_agrees_iff (r : StoredResponse) (hr : r.WellFormed) (wanted : List Bytes) (path : Bytes)
    (hp : pathKnown path = true) (mtime : Int) :
    ∃ p live,
      parseFile .full path (some ⟨mtime, r.file.length⟩) (some r.file) (some wanted) = .ok p ∧
      responseHeaders ⟨true, fun _ => true⟩ r.headers wanted = .ok live ∧
      (p.key = cacheKey r.keys ∧ p.tags = live ↔ r.KeyReadable ∧ r.TagsReadable wanted) :=
  ⟨_, _, hr.parseFile_eq wanted hp mtime, responseHeaders_success r.headers wanted,
    and_congr hr.visible.key_iff (hr.tags_iff wanted)⟩

/-- A response whose body has a line that reads like a tag header. -/
def bodySample : StoredResponse where
  header := [1, 2, 3]
  keys := [[107]]
  status := [72]
  headers := [⟨[84], [97]⟩]
  body := [60, 10, 84, 58, 32, 98, 10]

/-- A cache file name of thirty-two characters. -/
def samplePath : Bytes := 47 :: List.replicate 32 97

theorem scan_agrees_iff_sample :
    ∃ p live, parseFile .full samplePath (some ⟨0, bodySample.file.length⟩) (some bodySample.file)
        (some [[84]]) = .ok p ∧
      responseHeaders ⟨true, fun _ => true⟩ bodySample.headers [[84]] = .ok live ∧
      (p.key = cacheKey bodySample.keys ∧ p.tags = live ↔
        bodySample.KeyReadable ∧ bodySample.TagsReadable [[84]]) :=
  scan_agrees_iff bodySample
    ⟨by decide, by decide, by decide, by decide +kernel, by decide +kernel⟩ [[84]] samplePath (by decide) 0

/-- The scan takes the line of the body for a header: live the response has the
tag `a`, after the scan it has `a` and `b`. -/
theorem scan_reads_body :
    (responseHeaders ⟨true, fun _ => true⟩ bodySample.headers [[84]]).toOption = some [[97]] ∧
    (parseFile .full samplePath (some ⟨0, bodySample.file.length⟩) (some bodySample.file)
      (some [[84]])).toOption = some ⟨[107], [[97], [98]], 0, bodySample.file.length⟩ := by
  decide +kernel

end CachePilot
