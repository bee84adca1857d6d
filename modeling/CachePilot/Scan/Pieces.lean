import CachePilot.Scan.ParseFile

/-!
# Where the key and the tags of a file come from

A scan of a buffer cuts the key and the tags out of it. `parseLines_pieces` says that
each is a contiguous part of the buffer without a line feed, and so, by `Piece.line`, a
part of one line.
-/

namespace CachePilot
open NgxString

/-! ## Lines -/

theorem splitOnP_prefix {α : Type} {p : α → Bool} {l : List α} (hl : ∀ c ∈ l, p c = false)
    (rest : List α) : ∃ line lines, (l ++ rest).splitOnP p = line :: lines ∧ l <+: line := by
  induction l with
  | nil =>
    obtain ⟨line, lines, hsplit⟩ := List.exists_cons_of_ne_nil (List.splitOnP_ne_nil p rest)
    exact ⟨line, lines, hsplit, List.nil_prefix⟩
  | cons c l ih =>
    obtain ⟨line, lines, hsplit, hpre⟩ := ih fun d hd => hl d (List.mem_cons_of_mem c hd)
    refine ⟨c :: line, lines, ?_, List.cons_prefix_cons.mpr ⟨rfl, hpre⟩⟩
    rw [List.cons_append, List.splitOnP_cons_eq_if_modifyHead, hl c List.mem_cons_self,
      if_neg (by decide), hsplit, List.modifyHead_cons]

/-- A part of a list without a separator lies in one piece of it. -/
theorem infix_splitOnP {α : Type} {p : α → Bool} {l buf : List α} (h : l <:+: buf)
    (hl : ∀ c ∈ l, p c = false) : ∃ line ∈ buf.splitOnP p, l <:+: line := by
  obtain ⟨before, behind, rfl⟩ := h
  rw [List.append_assoc]
  induction before with
  | nil =>
    obtain ⟨line, lines, hsplit, hpre⟩ := splitOnP_prefix hl behind
    rw [List.nil_append, hsplit]
    exact ⟨line, List.mem_cons_self, hpre.isInfix⟩
  | cons c before ih =>
    obtain ⟨line, hline, hinfix⟩ := ih
    rw [List.cons_append, List.splitOnP_cons_eq_if_modifyHead]
    split
    · exact ⟨line, List.mem_cons_of_mem _ hline, hinfix⟩
    · obtain ⟨first, lines, hsplit⟩ :=
        List.exists_cons_of_ne_nil (List.splitOnP_ne_nil p (before ++ (l ++ behind)))
      rw [hsplit] at hline ⊢
      rw [List.modifyHead_cons]
      rcases List.mem_cons.mp hline with rfl | hline
      · exact ⟨c :: line, List.mem_cons_self, hinfix.trans (List.suffix_cons c line).isInfix⟩
      · exact ⟨line, List.mem_cons_of_mem _ hline, hinfix⟩

/-- A contiguous part of the buffer without a line feed. -/
structure Piece (buf l : Bytes) : Prop where
  part : l <:+: buf
  noLf : (10 : UInt8) ∉ l

namespace Piece

variable {buf rest l l' : Bytes}

theorem nil : Piece buf [] := ⟨List.nil_infix, List.not_mem_nil⟩

theorem of_part (h : Piece buf l) (hl : l' <:+: l) : Piece buf l' :=
  ⟨hl.trans h.part, fun hm => h.noLf (hl.subset hm)⟩

theorem mono (h : Piece rest l) (hr : rest <:+ buf) : Piece buf l :=
  ⟨h.part.trans hr.isInfix, h.noLf⟩

theorem line (h : Piece buf l) : ∃ line ∈ buf.splitOn 10, l <:+: line := by
  refine infix_splitOnP h.part fun c hc => beq_eq_false_iff_ne.mpr ?_
  rintro rfl
  exact h.noLf hc

end Piece

theorem lineValue_piece (rest : Bytes) (k : Nat) : Piece rest (lineValue (rest.drop k)) where
  part :=
    (List.takeWhile_prefix _).isInfix.trans
      ((List.dropWhile_suffix _).trans (List.drop_suffix k rest)).isInfix
  noLf hm := by
    have h := List.mem_takeWhile_imp hm
    exact absurd h (by decide)

variable {buf rest : Bytes} {tags tags' : List Bytes} {key key' : Bytes}

theorem pushUnique_all {P : Bytes → Prop} {pool : Nat → Bool} {data : Bytes}
    (h : pushUnique pool tags data = .ok tags') (htags : ∀ tag ∈ tags, P tag) (hdata : P data) :
    ∀ tag ∈ tags', P tag := by
  unfold pushUnique at h
  split at h
  · rw [← Except.ok.inj h]
    exact htags
  · split at h
    · rw [← Except.ok.inj h]
      exact htags
    · split at h
      · rw [← Except.ok.inj h]
        intro tag htag
        rcases List.mem_append.mp htag with htag | htag
        · exact htags tag htag
        · rw [List.mem_singleton.mp htag]
          exact hdata
      · exact nomatch h

theorem extractLoop_all {P : Bytes → Prop} {pool : Nat → Bool} {fuel : Nat} {value : Bytes}
    (h : extractLoop pool fuel value tags = .ok tags') (htags : ∀ tag ∈ tags, P tag)
    (hvalue : ∀ tag, tag <:+: value → P tag) : ∀ tag ∈ tags', P tag := by
  induction fuel generalizing value tags with
  | zero =>
    rw [← Except.ok.inj h]
    exact htags
  | succ fuel ih =>
    have hstart := List.dropWhile_suffix isSeparator (l := value)
    have hrest := (List.dropWhile_suffix (fun c => !isSeparator c)).trans hstart
    have htoken := (List.takeWhile_prefix fun c => !isSeparator c).isInfix.trans hstart.isInfix
    unfold extractLoop at h
    simp only at h
    split at h
    · rw [← Except.ok.inj h]
      exact htags
    · split at h
      · rw [← Except.ok.inj h]
        exact htags
      · split at h
        · exact nomatch h
        · next tags1 hpush =>
          refine ih h (pushUnique_all hpush htags (hvalue _ htoken)) fun tag htag => ?_
          exact hvalue tag (htag.trans hrest.isInfix)

theorem parseTagLine_pieces {pool : ParsePool} {header : Bytes}
    (h : parseTagLine pool rest tags header = .ok tags') (hr : rest <:+ buf)
    (htags : ∀ tag ∈ tags, Piece buf tag) : ∀ tag ∈ tags', Piece buf tag := by
  unfold parseTagLine at h
  split at h
  · rw [← Except.ok.inj h]
    exact htags
  · split at h
    · rw [← Except.ok.inj h]
      exact htags
    · refine extractLoop_all h htags fun tag htag => ?_
      exact ((lineValue_piece rest _).of_part htag).mono hr

theorem parseTagLines_pieces {pool : ParsePool} {headers : List Bytes}
    (h : headers.foldlM (parseTagLine pool rest) tags = .ok tags') (hr : rest <:+ buf)
    (htags : ∀ tag ∈ tags, Piece buf tag) : ∀ tag ∈ tags', Piece buf tag := by
  induction headers generalizing tags with
  | nil =>
    rw [← Except.ok.inj h]
    exact htags
  | cons header headers ih =>
    rw [List.foldlM_cons] at h
    cases hline : parseTagLine pool rest tags header with
    | error rc =>
      rw [hline] at h
      exact nomatch h
    | ok tags1 =>
      rw [hline] at h
      exact ih h (parseTagLine_pieces hline hr htags)

theorem parseKeyLine_piece {pool : ParsePool} (h : parseKeyLine pool rest key = .ok key')
    (hr : rest <:+ buf) (hkey : Piece buf key) : Piece buf key' := by
  unfold parseKeyLine at h
  split at h
  · simp only at h
    split at h
    · split at h
      · rw [← Except.ok.inj h]
        exact (lineValue_piece rest 4).mono hr
      · exact nomatch h
    · rw [← Except.ok.inj h]
      exact hkey
  · rw [← Except.ok.inj h]
    exact hkey

/-- The key and the tags that a scan of the buffer has found so far. -/
structure Pieces (buf : Bytes) (st : Bytes × List Bytes) : Prop where
  key : Piece buf st.1
  tags : ∀ tag ∈ st.2, Piece buf tag

theorem parseLine_pieces {pool : ParsePool} {headers : Option (List Bytes)}
    {st st' : Bytes × List Bytes} (h : parseLine pool headers rest st = .ok st')
    (hr : rest <:+ buf) (hst : Pieces buf st) : Pieces buf st' := by
  unfold parseLine at h
  split at h
  · exact nomatch h
  · next key hkey =>
    have hkey' := parseKeyLine_piece hkey hr hst.key
    split at h
    · rw [← Except.ok.inj h]
      exact ⟨hkey', hst.tags⟩
    · split at h
      · exact nomatch h
      · next tags htags =>
        rw [← Except.ok.inj h]
        exact ⟨hkey', parseTagLines_pieces htags hr hst.tags⟩

/-- Every line adds pieces of the buffer. -/
theorem parseLines_pieces {pool : ParsePool} {headers : Option (List Bytes)} {lineStart : Bool}
    {st st' : Bytes × List Bytes} (h : parseLines pool headers lineStart rest st = .ok st')
    (hr : rest <:+ buf) (hst : Pieces buf st) : Pieces buf st' := by
  induction rest generalizing lineStart st with
  | nil =>
    rw [← Except.ok.inj h]
    exact hst
  | cons c rest ih =>
    have hrest : rest <:+ buf := (List.suffix_cons c rest).trans hr
    unfold parseLines at h
    split at h
    · split at h
      · exact nomatch h
      · next st1 hline => exact ih h hrest (parseLine_pieces hline hr hst)
    · exact ih h hrest hst

end CachePilot
