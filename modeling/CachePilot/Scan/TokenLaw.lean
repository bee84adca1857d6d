import CachePilot.Scan.Tags
import CachePilot.Store.Refine

/-!
# The tokeniser over a split header

A response may carry its tags in one header or in several. `extract_tokens` works
on one value at a time and adds to the array of the values before it. How the tags
are spread over the values makes no difference: the array is that of one call on the
values with separators between them (`extract_tokens_law`).

What it holds is said without the loops: the runs of the values (`Runs`), the first
of each up to letter case, cut at the limit.
-/

namespace CachePilot
open NgxString KeepFirst

/-! ## Runs -/

/-- The value consists of separators and, between them, the runs `runs`, each of them
as long as it can be. -/
inductive Runs : Bytes → List Bytes → Prop
  | nil {gap : Bytes} : (∀ c ∈ gap, isSeparator c = true) → Runs gap []
  | cons {gap run rest : Bytes} {runs : List Bytes} :
    (∀ c ∈ gap, isSeparator c = true) → run ≠ [] → (∀ c ∈ run, isSeparator c = false) →
    (∀ c ∈ rest.head?, isSeparator c = true) → Runs rest runs →
    Runs (gap ++ (run ++ rest)) (run :: runs)

theorem tokens_append_left {gap : Bytes} (h : ∀ c ∈ gap, isSeparator c = true) (value : Bytes) :
    tokens (gap ++ value) = tokens value := by
  induction gap with
  | nil => rfl
  | cons c gap ih =>
    obtain ⟨hc, hgap⟩ := List.forall_mem_cons.mp h
    rw [List.cons_append, tokens_cons_separator hc, ih hgap]

/-- A separator ends the tokens before it. -/
theorem tokens_append_cons {c : UInt8} (h : isSeparator c = true) (value rest : Bytes) :
    tokens (value ++ c :: rest) = tokens value ++ tokens rest := by
  unfold tokens
  rw [List.splitOnP_append_cons value rest h, List.filter_append]

theorem tokens_run {run : Bytes} (hne : run ≠ []) (h : ∀ c ∈ run, isSeparator c = false) :
    tokens run = [run] := by
  unfold tokens
  rw [List.splitOnP_eq_singleton h]
  simpa using hne

/-- The first run of a value is what the inner loop takes. -/
theorem Runs.takeWhile {gap start : Bytes} {runs : List Bytes}
    (hgap : ∀ c ∈ gap, isSeparator c = true)
    (hne : start.takeWhile (fun c => !isSeparator c) ≠ [])
    (h : Runs (start.dropWhile fun c => !isSeparator c) runs) :
    Runs (gap ++ start) (start.takeWhile (fun c => !isSeparator c) :: runs) := by
  have hrun : ∀ c ∈ start.takeWhile fun c => !isSeparator c, isSeparator c = false :=
    fun c hc => by simpa using List.mem_takeWhile_imp hc
  have hrest : ∀ c ∈ (start.dropWhile fun c => !isSeparator c).head?, isSeparator c = true := by
    intro c hc
    have hhead := List.head?_dropWhile_not (fun c => !isSeparator c) start
    rw [Option.mem_def.mp hc] at hhead
    simpa using hhead
  have hcons := Runs.cons hgap hne hrun hrest h
  rwa [List.takeWhile_append_dropWhile] at hcons

theorem runs_tokens (value : Bytes) : Runs value (tokens value) := by
  induction hn : value.length using Nat.strong_induction_on generalizing value with
  | _ n ih =>
    have hgap : ∀ c ∈ value.takeWhile isSeparator, isSeparator c = true :=
      fun c hc => List.mem_takeWhile_imp hc
    have hhead := List.head?_dropWhile_not isSeparator value
    rw [← List.takeWhile_append_dropWhile (p := isSeparator) (l := value)] at hn ⊢
    generalize value.takeWhile isSeparator = gap at hgap hn
    generalize value.dropWhile isSeparator = start at hhead hn
    rw [tokens_append_left hgap]
    cases start with
    | nil =>
      rw [List.append_nil]
      exact .nil hgap
    | cons c start =>
      have hc : isSeparator c = false := by simpa using hhead
      have htake : (c :: start).takeWhile (fun c => !isSeparator c) =
          c :: start.takeWhile fun c => !isSeparator c :=
        List.takeWhile_cons_of_pos (by rw [hc]; rfl)
      have hne : (c :: start).takeWhile (fun c => !isSeparator c) ≠ [] := by
        rw [htake]
        exact List.cons_ne_nil c _
      rw [tokens_takeWhile hne]
      refine Runs.takeWhile hgap hne (ih _ ?_ _ rfl)
      -- the run took a byte
      have hle := congrArg List.length
        (List.takeWhile_append_dropWhile (p := fun c => !isSeparator c) (l := c :: start))
      rw [List.length_append, htake, List.length_cons] at hle
      rw [List.length_append] at hn
      omega

theorem runs_iff {value : Bytes} {runs : List Bytes} : Runs value runs ↔ runs = tokens value := by
  constructor
  · intro h
    induction h with
    | nil hgap =>
      have hnil := tokens_append_left hgap []
      rw [List.append_nil] at hnil
      rw [hnil]
      rfl
    | @cons gap run rest runs hgap hne hrun hrest _ ih =>
      rw [tokens_append_left hgap, ih]
      cases rest with
      | nil => rw [List.append_nil, tokens_run hne hrun]; rfl
      | cons c rest =>
        have hc := hrest c rfl
        rw [tokens_append_cons hc, tokens_run hne hrun, tokens_cons_separator hc]
        rfl
  · rintro rfl
    exact runs_tokens value

/-! ## Several values -/

/-- `extract_tokens` on one value after the other, into one array. -/
def extractAll (pool : Nat → Bool) (values tags : List Bytes) : Except NgxRc (List Bytes) :=
  values.foldlM (fun tags value => extractTokens pool value tags) tags

/-- The values as one, with `sep n` behind value number `n`. -/
def joinValues (sep : Nat → Bytes) : List Bytes → Bytes
  | [] => []
  | [value] => value
  | value :: next :: values => value ++ sep 0 ++ joinValues (fun n => sep (n + 1)) (next :: values)

/-- The strings that may stand between values. -/
def IsSeparators (sep : Nat → Bytes) : Prop := ∀ n, sep n ≠ [] ∧ ∀ c ∈ sep n, isSeparator c = true

theorem tokens_joinValues {sep : Nat → Bytes} (h : IsSeparators sep) (values : List Bytes) :
    tokens (joinValues sep values) = values.flatMap tokens := by
  induction values generalizing sep with
  | nil => rfl
  | cons value values ih =>
    cases values with
    | nil => rw [joinValues, List.flatMap_singleton]
    | cons next values =>
      obtain ⟨hne, hsep⟩ := h 0
      obtain ⟨c, gap, hgap⟩ := List.exists_cons_of_ne_nil hne
      rw [hgap] at hsep
      obtain ⟨hc, hrest⟩ := List.forall_mem_cons.mp hsep
      rw [joinValues, hgap, List.append_assoc, List.cons_append, tokens_append_cons hc,
        tokens_append_left hrest, ih fun n => h (n + 1)]
      rfl

/-- One call for each value takes the tokens of all values. -/
theorem extractAll_eq (pool : Nat → Bool) (values tags : List Bytes) :
    extractAll pool values tags = (values.flatMap tokens).foldlM (pushToken pool) tags := by
  unfold extractAll
  induction values generalizing tags with
  | nil => rfl
  | cons value values ih =>
    rw [List.foldlM_cons, List.flatMap_cons, List.foldlM_append, extractTokens_eq]
    exact bind_congr ih

/-- Where the tags can be allocated, they are all there. -/
theorem extractAll_ok {pool : Nat → Bool} {values tags tags' : List Bytes}
    (h : extractAll pool values tags = .ok tags') :
    extractAll (fun _ => true) values tags = .ok tags' :=
  foldlM_ok (fun _ _ _ hone => extractLoop_ok hone) h

/-! ## Letter case -/

/-- `push_unique` compares tags without a NUL up to letter case. -/
theorem tagKey_eq_iff {tag tag' : Bytes} (h : NulFree tag) (h' : NulFree tag') :
    tagKey tag = tagKey tag' ↔ tag.map ngxTolower = tag'.map ngxTolower := by
  have hfold : ∀ {t : Bytes}, NulFree t → cstr (t.map ngxTolower) = t.map ngxTolower := by
    intro t ht
    refine cstr_of_nulFree fun h0 => ?_
    obtain ⟨c, hc, hz⟩ := List.mem_map.mp h0
    exact ngxTolower_ne_zero ht c hc hz
  unfold tagKey
  rw [Prod.mk.injEq, hfold h, hfold h']
  refine and_iff_right_of_imp fun heq => ?_
  simpa using congrArg List.length heq

theorem mem_of_runs {value run : Bytes} {runs : List Bytes} (h : Runs value runs) (hrun : run ∈ runs)
    {c : UInt8} (hc : c ∈ run) : c ∈ value := by
  induction h with
  | nil => exact absurd hrun List.not_mem_nil
  | cons _ _ _ _ _ ih =>
    rcases List.mem_cons.mp hrun with rfl | hrun
    · simp [hc]
    · simp [ih hrun]

theorem run_of_runs {value run : Bytes} {runs : List Bytes} (h : Runs value runs) (hrun : run ∈ runs) :
    run ≠ [] ∧ ∀ c ∈ run, isSeparator c = false := by
  induction h with
  | nil => exact absurd hrun List.not_mem_nil
  | cons _ hne hsep _ _ ih =>
    rcases List.mem_cons.mp hrun with rfl | hrun
    · exact ⟨hne, hsep⟩
    · exact ih hrun

/-- An array that starts empty holds the first runs, up to the limit. -/
theorem keepTags_eq_firsts {stream : List Bytes} (h : ∀ tag ∈ stream, NulFree tag) :
    keepTags [] stream = (firsts (fun tag : Bytes => tag.map ngxTolower) stream).take maxTokensPerScan := by
  have hkeys : firsts tagKey stream = firsts (fun tag : Bytes => tag.map ngxTolower) stream :=
    firsts_congr fun tag ht tag' ht' => tagKey_eq_iff (h tag ht) (h tag' ht')
  unfold keepTags
  rw [keepAll_eq_firsts, hkeys]
  simp

/-! ## The law -/

/-- The tokeniser over any split of the tags into values: one call for each value is
one call for the joined value; the array holds the first runs of the values up to
letter case, cut at the limit; at the limit it stays as it is. -/
theorem extract_tokens_law (pool : Nat → Bool) (values : List Bytes) (sep : Nat → Bytes)
    (hsep : IsSeparators sep) (hnul : ∀ value ∈ values, NulFree value) :
    (∀ tags, extractAll pool values tags = extractTokens pool (joinValues sep values) tags) ∧
    (∃ runs, List.Forall₂ Runs values runs ∧ Runs (joinValues sep values) runs.flatten ∧
      (∀ run ∈ runs.flatten, run ≠ [] ∧ ∀ c ∈ run, isSeparator c = false) ∧
      extractAll (fun _ => true) values [] =
        .ok ((firsts (fun tag : Bytes => tag.map ngxTolower) runs.flatten).take maxTokensPerScan) ∧
      ∀ tags, extractAll pool values [] = .ok tags →
        tags = (firsts (fun tag : Bytes => tag.map ngxTolower) runs.flatten).take maxTokensPerScan ∧
        ∀ tag ∈ tags, tag ≠ [] ∧ ∀ c ∈ tag, isSeparator c = false) ∧
    ∀ value tags, maxTokensPerScan ≤ tags.length → extractTokens pool value tags = .ok tags := by
  have hflat : (values.map tokens).flatten = values.flatMap tokens := List.flatMap_def.symm
  have hjoined : Runs (joinValues sep values) (values.flatMap tokens) :=
    runs_iff.mpr (tokens_joinValues hsep values).symm
  have hruns : ∀ run ∈ values.flatMap tokens, run ≠ [] ∧ ∀ c ∈ run, isSeparator c = false :=
    fun run hrun => run_of_runs hjoined hrun
  have hfree : ∀ run ∈ values.flatMap tokens, NulFree run := by
    intro run hrun h0
    obtain ⟨value, hvalue, hmem⟩ := List.mem_flatMap.mp hrun
    exact hnul value hvalue (mem_of_runs (runs_tokens value) hmem h0)
  have hall : extractAll (fun _ => true) values [] =
      .ok ((firsts (fun tag : Bytes => tag.map ngxTolower) (values.flatMap tokens)).take
        maxTokensPerScan) := by
    rw [extractAll_eq, pushTokens_success [] fun run hrun => (hruns run hrun).1,
      keepTags_eq_firsts hfree]
  refine ⟨fun tags => ?_, ⟨values.map tokens, ?_, ?_⟩, fun value tags hfull => ?_⟩
  · rw [extractAll_eq, extractTokens_eq, tokens_joinValues hsep]
  · exact List.forall₂_map_right_iff.mpr (List.forall₂_same.mpr fun value _ => runs_tokens value)
  · rw [hflat]
    refine ⟨hjoined, hruns, hall, fun tags htags => ?_⟩
    have heq := Except.ok.inj ((extractAll_ok htags).symm.trans hall)
    refine ⟨heq, fun tag htag => hruns tag ?_⟩
    rw [heq] at htag
    exact (firsts_sublist _).subset (List.mem_of_mem_take htag)
  · rw [extractTokens_eq, pushToken_of_full hfull]

/-- The headers `a, B` and `A<TAB>c`, and the one header `a, B A<TAB>c`. -/
theorem extract_tokens_law_sample :
    extractAll (fun _ => true) [[97, 44, 32, 66], [65, 9, 99]] [] =
      extractTokens (fun _ => true) (joinValues (fun _ => [32]) [[97, 44, 32, 66], [65, 9, 99]]) [] :=
  (extract_tokens_law (fun _ => true) [[97, 44, 32, 66], [65, 9, 99]] (fun _ => [32])
    (fun _ => ⟨List.cons_ne_nil 32 [], by simp [isSeparator]⟩) (by decide)).1 []

end CachePilot
