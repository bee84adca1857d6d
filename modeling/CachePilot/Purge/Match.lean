import CachePilot.Purge.Request

/-!
# The two prefix matchers

A wildcard purge selects files in one of two ways: `collect_paths_by_key_prefix`
compares the prefix with the keys of the index, `partial_match` with the bytes at
the place of the key in the file. The first is exact; the second folds letter case
and does not know where the key ends.

Results:
* `matchers_agree_iff`: when both select the same files;
* `matchers_differ_in_case`: a file that only the directory walk selects.
-/

namespace CachePilot
open NgxString

/-- `ngx_http_cache_pilot_partial_match`. -/
def partialMatch (L : HeaderLayout) (calls : FileCalls) (keyPartial path : Bytes) (disk : Disk) :
    Bool :=
  if keyPartial.length = 0 then true
  else if !calls.opens then false
  else
    match disk path with
    | none => false
    | some data =>
      let keyInFile := (data.drop (L.size + 6)).take keyPartial.length
      if !calls.reads || keyInFile.length != keyPartial.length then false
      else ngxStrncasecmp keyInFile keyPartial keyPartial.length == 0

/-- Whether the part behind the header of a file begins with the prefix, as the
walk compares them. -/
def BytesMatch (pre rest : Bytes) : Prop :=
  pre.length ≤ rest.length ∧ ngxStrncasecmp rest pre pre.length = 0

/-- The key begins with the prefix up to letter case, but not byte for byte. -/
def CaseTwin (pre key : Bytes) : Prop :=
  pre.length ≤ key.length ∧ (key.take pre.length).map ngxTolower = pre.map ngxTolower ∧
    key.take pre.length ≠ pre

/-- The prefix goes on behind the key: it is the key up to letter case, a line
feed, and then what the file has there. -/
def Overruns (pre key response : Bytes) : Prop :=
  ∃ head tail, pre = head ++ 10 :: tail ∧ head.map ngxTolower = key.map ngxTolower ∧
    BytesMatch tail response

variable {N : Nginx} {L : HeaderLayout} {files : Files L} {pre key response p : Bytes}

theorem keyHasPrefix_of_isPrefix (h : pre <+: key) : keyHasPrefix key pre = true := by
  have hle := h.length_le
  have htake : key.take pre.length = pre := (List.prefix_iff_eq_take.mp h).symm
  have hcmp : ngxStrncmp key pre pre.length = 0 := by
    rw [ngxStrncmp_eq_zero hle (Nat.le_refl _), htake, List.take_length]
  simp [keyHasPrefix, hcmp, hle]

/-- On a key without NUL bytes the index compares byte for byte. -/
theorem keyHasPrefix_iff_of_nulFree (hk : NulFree key) :
    keyHasPrefix key pre = true ↔ pre <+: key := by
  constructor
  · intro h
    cases hp : decide (NulFree pre) with
    | true => exact (keyHasPrefix_iff hk (of_decide_eq_true hp)).mp h
    | false =>
      -- a NUL in the prefix meets no NUL in the key
      have hnul := not_not.mp (of_decide_eq_false hp)
      unfold keyHasPrefix at h
      rw [Bool.not_eq_true', Bool.or_eq_false_iff, decide_eq_false_iff_not, Nat.not_lt,
        bne_eq_false_iff_eq] at h
      obtain ⟨hle, hcmp⟩ := h
      have htake : NulFree (key.take pre.length) := fun h0 => hk (List.mem_of_mem_take h0)
      rw [ngxStrncmp_eq_zero hle (Nat.le_refl _), List.take_length, cstr_of_nulFree htake] at hcmp
      have hlen : (cstr pre).length = pre.length := by
        rw [← hcmp, List.length_take, Nat.min_eq_left hle]
      have hpre : cstr pre = pre := (List.takeWhile_prefix _).eq_of_length hlen
      rw [← hpre] at hnul
      simpa [cstr] using List.mem_takeWhile_imp hnul
  · exact keyHasPrefix_of_isPrefix

theorem bytesMatch_of_isPrefix (h : pre <+: key) : BytesMatch pre (key ++ 10 :: response) := by
  obtain ⟨rest, rfl⟩ := h
  refine ⟨?_, ?_⟩
  · rw [List.append_assoc, List.length_append]
    exact Nat.le_add_right _ _
  · rw [ngxStrncasecmp_eq_zero (by simp) (Nat.le_refl _), List.take_length, List.append_assoc,
      List.take_left' rfl]

/-- The comparison goes on behind a part without a NUL that it has matched. -/
theorem bytesMatch_append {a head : Bytes} (h0 : ∀ c ∈ a, ngxTolower c ≠ 0)
    (hl : head.length = a.length) (tail rest : Bytes) :
    BytesMatch (head ++ tail) (a ++ rest) ↔
      head.map ngxTolower = a.map ngxTolower ∧ BytesMatch tail rest := by
  have hcmp := strncmpBy_append_eq_zero h0 hl tail.length rest tail
  unfold BytesMatch ngxStrncasecmp
  rw [List.length_append, List.length_append, hcmp, hl]
  constructor
  · rintro ⟨hle, hfold, h⟩
    exact ⟨hfold, Nat.le_of_add_le_add_left hle, h⟩
  · rintro ⟨hfold, hle, h⟩
    exact ⟨Nat.add_le_add_left hle _, hfold, h⟩

/-- A prefix no longer than the key is compared with the key alone. -/
theorem bytesMatch_within {rest : Bytes} (hk : NulFree key) (hle : pre.length ≤ key.length) :
    BytesMatch pre (key ++ rest) ↔
      (key.take pre.length).map ngxTolower = pre.map ngxTolower := by
  have hzero : ∀ c ∈ key.take pre.length, ngxTolower c ≠ 0 := fun c hc =>
    ngxTolower_ne_zero hk c (List.mem_of_mem_take hc)
  have hlen : pre.length = (key.take pre.length).length := by
    rw [List.length_take, Nat.min_eq_left hle]
  have h := bytesMatch_append hzero hlen [] (key.drop pre.length ++ rest)
  rw [List.append_nil, ← List.append_assoc, List.take_append_drop] at h
  rw [h]
  constructor
  · intro h0
    exact h0.1.symm
  · intro h0
    exact ⟨h0.symm, Nat.zero_le _, rfl⟩

/-- A longer one has to match the key, the line feed behind it and the response. -/
theorem bytesMatch_behind (hk : NulFree key) (hlt : key.length < pre.length) :
    BytesMatch pre (key ++ 10 :: response) ↔ Overruns pre key response := by
  have hzero : ∀ c ∈ key ++ [10], ngxTolower c ≠ 0 := by
    intro c hc
    rcases List.mem_append.mp hc with hc | hc
    · exact ngxTolower_ne_zero hk c hc
    · rw [List.mem_singleton.mp hc]
      decide
  have hsplit : ∀ {head tail : Bytes} {c : UInt8}, head.length = key.length →
      (BytesMatch (head ++ c :: tail) (key ++ 10 :: response) ↔
        (head ++ [c]).map ngxTolower = (key ++ [10]).map ngxTolower ∧ BytesMatch tail response) := by
    intro head tail c hl
    rw [List.append_cons head c tail, List.append_cons key 10 response]
    exact bytesMatch_append hzero (by simp [hl]) tail response
  constructor
  · intro h
    have hpre : pre = pre.take key.length ++ pre[key.length] :: pre.drop (key.length + 1) := by
      rw [← List.drop_eq_getElem_cons hlt, List.take_append_drop]
    have hl : (pre.take key.length).length = key.length := by
      rw [List.length_take, Nat.min_eq_left (Nat.le_of_lt hlt)]
    rw [hpre, hsplit hl] at h
    obtain ⟨hfold, htail⟩ := h
    rw [List.map_append, List.map_append] at hfold
    have hhead := List.append_inj_left' hfold rfl
    -- the byte that is compared with the line feed is one
    have hlf : ngxTolower pre[key.length] = 10 := List.singleton_inj.mp (List.append_inj_right' hfold rfl)
    refine ⟨_, _, hpre.trans ?_, hhead, htail⟩
    rw [(ngxTolower_eq (by decide)).mp hlf]
  · rintro ⟨head, tail, rfl, hfold, htail⟩
    have hl : head.length = key.length := by simpa using congrArg List.length hfold
    rw [hsplit hl, List.map_append, List.map_append, hfold]
    exact ⟨rfl, htail⟩

/-- What the walk takes for a match. -/
theorem bytesMatch_iff (hk : NulFree key) :
    BytesMatch pre (key ++ 10 :: response) ↔
      pre <+: key ∨ CaseTwin pre key ∨ Overruns pre key response := by
  by_cases hle : pre.length ≤ key.length
  · rw [bytesMatch_within hk hle]
    constructor
    · intro hfold
      by_cases heq : key.take pre.length = pre
      · exact Or.inl (List.prefix_iff_eq_take.mpr heq.symm)
      · exact Or.inr (Or.inl ⟨hle, hfold, heq⟩)
    · rintro (h | h | ⟨head, tail, rfl, hfold, -⟩)
      · rw [← List.prefix_iff_eq_take.mp h]
      · exact h.2.1
      · have hl : head.length = key.length := by simpa using congrArg List.length hfold
        rw [List.length_append, List.length_cons, hl] at hle
        omega
  · have hlt := Nat.lt_of_not_le hle
    rw [bytesMatch_behind hk hlt]
    constructor
    · exact fun h => Or.inr (Or.inr h)
    · rintro (h | h | h)
      · exact absurd h.length_le hle
      · exact absurd h.1 hle
      · exact h

/-! ## The files that they select -/

/-- On a file that can be read, the walk compares with what is behind the header. -/
theorem partialMatch_iff {f : CacheFile L} (hf : files p = some f) :
    partialMatch L .works pre p files.disk = true ↔ BytesMatch pre (f.key ++ 10 :: f.response) := by
  unfold partialMatch BytesMatch
  rw [Files.disk_eq_some.mpr hf]
  simp only [FileCalls.works, f.drop_bytes, Bool.not_true, Bool.false_eq_true, if_false,
    Bool.false_or]
  generalize f.key ++ 10 :: f.response = rest
  cases pre with
  | nil => simp [ngxStrncasecmp, strncmpBy]
  | cons c pre =>
    have hne : ¬ (c :: pre).length = 0 := Nat.succ_ne_zero _
    rw [if_neg hne]
    by_cases hle : (c :: pre).length ≤ rest.length
    · have htake : (rest.take (c :: pre).length).length = (c :: pre).length := by
        rw [List.length_take, Nat.min_eq_left hle]
      have hcmp := strncmpBy_append (f := ngxTolower) (Nat.le_of_eq htake.symm)
        (rest.drop (c :: pre).length) (c :: pre)
      rw [List.take_append_drop] at hcmp
      rw [htake, bne_self_eq_false, if_neg Bool.false_ne_true, beq_iff_eq]
      unfold ngxStrncasecmp
      rw [hcmp]
      exact (and_iff_right hle).symm
    · have htake : ((rest.take (c :: pre).length).length != (c :: pre).length) = true := by
        rw [bne_iff_ne, List.length_take]
        omega
      rw [if_pos htake]
      constructor
      · rintro ⟨⟩
      · exact fun h => absurd h.1 hle

/-- The index holds one entry for each file, with its key. -/
structure Mirrors (files : Files L) (rs : List Record) : Prop where
  complete : Complete files rs
  sound : ∀ rec ∈ rs, ∃ f, files rec.path = some f ∧ rec.key = f.key

/-- A byte prefix is neither of the two cases. -/
theorem not_twin_of_isPrefix (h : pre <+: key) : ¬ CaseTwin pre key := fun ht =>
  ht.2.2 (List.prefix_iff_eq_take.mp h).symm

theorem not_overruns_of_isPrefix (h : pre <+: key) : ¬ Overruns pre key response := by
  rintro ⟨head, tail, rfl, hfold, -⟩
  have hl : head.length = key.length := by simpa using congrArg List.length hfold
  have hle := h.length_le
  rw [List.length_append, List.length_cons] at hle
  omega

/-- The index and the walk select the same files exactly when no file has a key
that begins with the prefix in another letter case, and the prefix does not run
past the key of a file. -/
theorem matchers_agree_iff (N : Nginx) (L : HeaderLayout) (s : Shm) (zoneName pre : Bytes)
    (files : Files L) (hindex : IndexOk N s) (hmirrors : Mirrors files (recordsOf s zoneName))
    (hkeys : ∀ p f, files p = some f → NulFree f.key) :
    ∃ paths, collectPathsByKeyPrefix (fun _ => true) s zoneName pre = some paths ∧
      ((∀ p, p ∈ paths ↔
          (files p).isSome = true ∧ partialMatch L .works pre p files.disk = true) ↔
        ∀ p f, files p = some f → ¬ CaseTwin pre f.key ∧ ¬ Overruns pre f.key f.response) := by
  refine ⟨_, hindex.collectPrefix_success zoneName pre, ?_⟩
  -- the index selects by the keys of the files
  have hindexed : ∀ p f, files p = some f →
      (p ∈ prefixedPaths (recordsOf s zoneName) pre ↔ pre <+: f.key) := by
    intro p f hf
    rw [← keyHasPrefix_iff_of_nulFree (hkeys p f hf)]
    constructor
    · intro hp
      obtain ⟨rec, hrec, rfl⟩ := List.mem_map.mp hp
      obtain ⟨g, hg, hk⟩ := hmirrors.sound rec (List.mem_filter.mp hrec).1
      rw [hf] at hg
      rw [Option.some.inj hg, ← hk]
      exact (List.mem_filter.mp hrec).2
    · intro hp
      obtain ⟨rec, hrec, rfl, hk⟩ := hmirrors.complete p f hf
      exact List.mem_map.mpr ⟨rec, List.mem_filter.mpr ⟨hrec, by rw [hk]; exact hp⟩, rfl⟩
  have hwalked : ∀ p f, files p = some f →
      ((files p).isSome = true ∧ partialMatch L .works pre p files.disk = true ↔
        pre <+: f.key ∨ CaseTwin pre f.key ∨ Overruns pre f.key f.response) := by
    intro p f hf
    rw [partialMatch_iff hf, bytesMatch_iff (hkeys p f hf), hf]
    exact and_iff_right rfl
  constructor
  · intro h p f hf
    have hp := h p
    rw [hindexed p f hf, hwalked p f hf] at hp
    constructor
    · intro ht
      exact not_twin_of_isPrefix (hp.mpr (Or.inr (Or.inl ht))) ht
    · intro ho
      exact not_overruns_of_isPrefix (hp.mpr (Or.inr (Or.inr ho))) ho
  · intro h p
    cases hf : files p with
    | none =>
      constructor
      · intro hp
        obtain ⟨rec, hrec, rfl⟩ := List.mem_map.mp hp
        obtain ⟨g, hg, -⟩ := hmirrors.sound rec (List.mem_filter.mp hrec).1
        rw [hf] at hg
        exact nomatch hg
      · exact fun hp => nomatch hp.1
    | some f =>
      have hw := hwalked p f hf
      rw [hf] at hw
      rw [hindexed p f hf, hw]
      obtain ⟨ht, ho⟩ := h p f hf
      exact ⟨Or.inl, fun h0 => h0.resolve_right fun h1 => h1.elim ht ho⟩

theorem variantFiles_mirrors : Mirrors variantFiles (recordsOf variantState.shm [122]) where
  complete := variantFiles_complete
  sound := by
    have hrecords : recordsOf variantState.shm [122] = [⟨[97], [107], []⟩, ⟨[98], [107], []⟩] := by
      decide +kernel
    rw [hrecords]
    intro rec hrec
    cases hrec with
    | head => exact ⟨sampleFile [97], rfl, rfl⟩
    | tail _ hrec =>
      rw [List.mem_singleton.mp hrec]
      exact ⟨sampleFile [98], rfl, rfl⟩

theorem variantFiles_key {p : Bytes} {f : CacheFile .reference} (hf : variantFiles p = some f) :
    f.key = [107] := by
  unfold variantFiles at hf
  split at hf
  · rw [← Option.some.inj hf]
    rfl
  · split at hf
    · rw [← Option.some.inj hf]
      rfl
    · exact nomatch hf

theorem matchers_agree_iff_sample :
    ∃ paths, collectPathsByKeyPrefix (fun _ => true) variantState.shm [122] [107] = some paths ∧
      ((∀ p, p ∈ paths ↔ (variantFiles p).isSome = true ∧
          partialMatch .reference .works [107] p variantFiles.disk = true) ↔
        ∀ p f, variantFiles p = some f → ¬ CaseTwin [107] f.key ∧ ¬ Overruns [107] f.key f.response) :=
  matchers_agree_iff .reference .reference variantState.shm [122] [107] variantFiles
    (runStore_indexOk .reference (by decide)) variantFiles_mirrors
    fun _ _ hf => by rw [variantFiles_key hf]; decide

/-- The prefix `K` and files of the key `k`: the index selects none of them, the
walk selects them. -/
theorem matchers_differ_in_case :
    IndexOk .reference variantState.shm ∧
      Mirrors variantFiles (recordsOf variantState.shm [122]) ∧
      (∀ p f, variantFiles p = some f → NulFree f.key ∧ (10 : UInt8) ∉ f.key) ∧
      ∃ paths, collectPathsByKeyPrefix (fun _ => true) variantState.shm [122] [75] = some paths ∧
        ¬ ∀ p, p ∈ paths ↔ (variantFiles p).isSome = true ∧
          partialMatch .reference .works [75] p variantFiles.disk = true := by
  refine ⟨runStore_indexOk .reference (by decide), variantFiles_mirrors,
    fun p f hf => by rw [variantFiles_key hf]; decide, [], by decide +kernel, fun h => ?_⟩
  exact absurd ((h [97]).mpr ⟨rfl, by decide +kernel⟩) List.not_mem_nil

end CachePilot
