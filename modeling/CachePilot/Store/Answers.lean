import CachePilot.Lib.KeepFirst
import CachePilot.Store.Refine

/-!
# The answers of the store

The three collect functions answer as queries of the map that the index zone
stands for, each path once.

Results:
* `index_store_refines_map`: the refinement, over any sequence of calls and any
  pattern of allocation failures;
* `failed_upsert_drops_own_path`: what a failed upsert does to the answers.
-/

namespace CachePilot
open NgxString SearchTree KeepFirst

variable {N : Nginx} {s s' : Shm}

/-! ## Results without duplicates -/

/-- The loop of `push_path_unique` when nothing fails and paths are C strings. -/
def pushAll (paths data : List Bytes) : List Bytes := keepAll id none paths data

/-- What `push_path_unique` compares is equality of C strings. -/
theorem any_samePath {paths : List Bytes} {d : Bytes} (hp : ∀ p ∈ paths, NulFree p)
    (hd : NulFree d) :
    (paths.any fun p => p.length == d.length && ngxStrncmp p d d.length == 0) =
      decide (d ∈ paths) := by
  rw [Bool.eq_iff_iff, List.any_eq_true, decide_eq_true_eq]
  constructor
  · rintro ⟨p, hmem, he⟩
    rw [Bool.and_eq_true, beq_iff_eq, beq_iff_eq] at he
    have h0 := he.2
    rw [← he.1] at h0
    rw [← (ngxStrncmp_eq_zero_iff_eq he.1 (hp p hmem) hd).mp h0]
    exact hmem
  · intro hmem
    refine ⟨d, hmem, ?_⟩
    rw [Bool.and_eq_true, beq_iff_eq, beq_iff_eq]
    exact ⟨rfl, (ngxStrncmp_eq_zero_iff_eq rfl hd hd).mpr rfl⟩

theorem pushPathUnique_success {paths : List Bytes} {d : Bytes} (hp : ∀ p ∈ paths, NulFree p)
    (hd : NulFree d) : pushPathUnique (fun _ => true) paths d = some (keep id none paths d) := by
  unfold pushPathUnique keep full
  rw [any_samePath hp hd]
  by_cases h : d ∈ paths <;> simp [h]

/-- Paths that are not on the list yet are pushed as long as the pool allows. -/
theorem pushPaths_nodup {pool : PoolSite → Bool} {paths data : List Bytes}
    (hn : (paths ++ data).Nodup) (hp : ∀ p ∈ paths ++ data, NulFree p) :
    pushPaths pool paths data =
      if ∀ i, i < data.length → pool (.push (paths.length + i)) = true then some (paths ++ data)
      else none := by
  induction data generalizing paths with
  | nil => simp [pushPaths]
  | cons d data ih =>
    have hnot : d ∉ paths := fun h => List.disjoint_of_nodup_append hn h List.mem_cons_self
    have hone : pushPathUnique pool paths d =
        if pool (.push paths.length) = true then some (paths ++ [d]) else none := by
      unfold pushPathUnique
      rw [any_samePath (fun p h => hp p (List.mem_append_left _ h))
        (hp d (List.mem_append_right _ List.mem_cons_self))]
      rw [decide_eq_false hnot, if_neg Bool.false_ne_true]
    have hstep : pushPaths pool paths (d :: data) =
        (pushPathUnique pool paths d).bind fun paths => pushPaths pool paths data := by
      unfold pushPaths
      rw [List.foldlM_cons]
      rfl
    rw [hstep, hone]
    have ih' := @ih (paths ++ [d])
    simp only [List.append_assoc, List.cons_append, List.nil_append, List.length_append,
      List.length_singleton] at ih'
    have hshift : (∀ i, i < (d :: data).length → pool (.push (paths.length + i)) = true) ↔
        pool (.push paths.length) = true ∧
          ∀ i, i < data.length → pool (.push (paths.length + 1 + i)) = true := by
      constructor
      · intro h
        refine ⟨h 0 (Nat.succ_pos _), fun i hi => ?_⟩
        rw [Nat.add_assoc, Nat.add_comm 1 i]
        exact h (i + 1) (Nat.succ_lt_succ hi)
      · rintro ⟨h0, h1⟩ i hi
        cases i with
        | zero => exact h0
        | succ i =>
          rw [Nat.add_comm i 1, ← Nat.add_assoc]
          exact h1 i (Nat.lt_of_succ_lt_succ hi)
    rw [if_congr hshift rfl rfl]
    cases h0 : pool (.push paths.length) with
    | false => simp
    | true => simp [ih' hn hp]

theorem mem_pushAll {paths data : List Bytes} {p : Bytes} :
    p ∈ pushAll paths data ↔ p ∈ paths ∨ p ∈ data := by
  have hm : p ∈ (keepAll id none paths data).map id ↔ p ∈ paths.map id ∨ p ∈ data.map id :=
    mem_map_keepAll
  rw [List.map_id, List.map_id, List.map_id] at hm
  exact hm

theorem nodup_pushAll {paths data : List Bytes} (h : paths.Nodup) : (pushAll paths data).Nodup := by
  have hn : ((keepAll id none paths data).map id).Nodup := nodup_keepAll (by rwa [List.map_id])
  rw [List.map_id] at hn
  exact hn

theorem pushAll_append (paths data data' : List Bytes) :
    pushAll paths (data ++ data') = pushAll (pushAll paths data) data' := keepAll_append

theorem filter_pushAll (q : Bytes → Bool) (paths data : List Bytes) :
    (pushAll paths data).filter q = pushAll (paths.filter q) (data.filter q) :=
  filter_keepAll q fun _ _ he => congrArg q he

theorem pushPaths_success {paths data : List Bytes} (hp : ∀ p ∈ paths, NulFree p)
    (hd : ∀ p ∈ data, NulFree p) :
    pushPaths (fun _ => true) paths data = some (pushAll paths data) := by
  induction data generalizing paths with
  | nil => rfl
  | cons d data ih =>
    have hd0 := hd d List.mem_cons_self
    have hstep : pushPaths (fun _ => true) paths (d :: data) =
        (pushPathUnique (fun _ => true) paths d).bind
          fun paths => pushPaths (fun _ => true) paths data := by
      unfold pushPaths
      rw [List.foldlM_cons]
      rfl
    rw [hstep, pushPathUnique_success hp hd0, Option.bind_some]
    refine ih (fun p hmem => ?_) fun p hmem => hd p (List.mem_cons_of_mem _ hmem)
    rcases keep_cases id none paths d with ⟨he, -⟩ | ⟨he, -⟩
    · rw [he] at hmem
      exact hp p hmem
    · rw [he] at hmem
      rcases List.mem_append.mp hmem with hmem | hmem
      · exact hp p hmem
      · rw [List.mem_singleton.mp hmem]
        exact hd0

/-- The paths and keys of the index are C strings. -/
def RecordsNulFree (rs : List Record) : Prop := ∀ r ∈ rs, NulFree r.path ∧ NulFree r.key

theorem StoreOp.run_nulFree (h : ShmOk N s) {op : StoreOp} (hop : op.NulFree)
    (hn : ∀ z, RecordsNulFree (recordsOf s z)) (z : Bytes) :
    RecordsNulFree (recordsOf (op.run N s).2 z) := by
  have hother : ∀ z path, RecordsNulFree (otherRecords (recordsOf s z) path) := fun z path r hr =>
    hn z r (mem_otherRecords.mp hr).1
  -- a call leaves old records and, at most, the one of its own arguments
  have hcall : ∀ {s' : Shm} {zoneName : Bytes} {rs : List Record},
      Changes N s s' zoneName rs → RecordsNulFree rs → RecordsNulFree (recordsOf s' z) := by
    intro s' zoneName rs hc hrs
    by_cases hz : sameZoneName zoneName z = true
    · rw [hc.own z hz]
      exact hrs
    · rw [hc.other z hz]
      exact hn z
  cases op with
  | upsert alloc now zoneName path key mtime size tags =>
    refine hcall (upsertFileMeta_spec h alloc now zoneName path key mtime size tags).2.1 ?_
    unfold upserted
    split
    · intro r hr
      rcases List.mem_append.mp hr with hr | hr
      · exact hother zoneName path r hr
      · rw [List.mem_singleton.mp hr]
        exact hop
    · exact hother zoneName path
  | delete now zoneName path =>
    exact hcall (deleteFile_spec h now zoneName path).2.1
      (hother zoneName path)

theorem runStore_nulFree (N : Nginx) {ops : List StoreOp} (hops : ∀ op ∈ ops, op.NulFree)
    (z : Bytes) : RecordsNulFree (recordsOf (runStore N ops) z) := by
  induction ops using List.reverseRecOn generalizing z with
  | nil => exact fun r hr => absurd hr List.not_mem_nil
  | append_singleton ops op ih =>
    rw [runStore_concat]
    exact StoreOp.run_nulFree (runStore_ok N ops).1 (hops op (by simp))
      (fun z => ih (fun op' hop' => hops op' (List.mem_append_left _ hop')) z) z

theorem keyedPaths_nulFree {rs : List Record} (h : ∀ r ∈ rs, NulFree r.path) (k : Bytes) :
    ∀ p ∈ keyedPaths rs k, NulFree p := by
  intro p hp
  unfold keyedPaths at hp
  split at hp
  · exact absurd hp List.not_mem_nil
  · obtain ⟨r, hr, rfl⟩ := List.mem_map.mp hp
    exact h r (List.mem_filter.mp hr).1

theorem RecordsNulFree.paths {rs : List Record} (h : RecordsNulFree rs) : ∀ r ∈ rs, NulFree r.path :=
  fun r hr => (h r hr).1

theorem mem_taggedPaths {rs : List Record} {t p : Bytes} :
    p ∈ taggedPaths rs t ↔ ∃ r ∈ rs, t ∈ r.tags ∧ r.path = p := by
  unfold taggedPaths
  rw [List.mem_flatMap]
  refine exists_congr fun r => and_congr_right fun _ => ?_
  rw [List.mem_map]
  constructor
  · rintro ⟨t', ht, rfl⟩
    obtain ⟨ht, he⟩ := List.mem_filter.mp ht
    exact ⟨of_decide_eq_true he ▸ ht, rfl⟩
  · rintro ⟨ht, rfl⟩
    exact ⟨t, List.mem_filter.mpr ⟨ht, decide_eq_true rfl⟩, rfl⟩

theorem taggedPaths_nulFree {rs : List Record} (h : ∀ r ∈ rs, NulFree r.path) (t : Bytes) :
    ∀ p ∈ taggedPaths rs t, NulFree p := by
  intro p hp
  obtain ⟨r, hr, -, rfl⟩ := mem_taggedPaths.mp hp
  exact h r hr

theorem prefixedPaths_nulFree {rs : List Record} (h : ∀ r ∈ rs, NulFree r.path) (pre : Bytes) :
    ∀ p ∈ prefixedPaths rs pre, NulFree p := by
  intro p hp
  obtain ⟨r, hr, rfl⟩ := List.mem_map.mp hp
  exact h r (List.mem_filter.mp hr).1

theorem exactQuery_success {rs : List Record} (h : ∀ r ∈ rs, NulFree r.path) (k : Bytes) :
    exactQuery (fun _ => true) rs k = some (pushAll [] (keyedPaths rs k)) :=
  pushPaths_success (fun _ hp => absurd hp List.not_mem_nil) (keyedPaths_nulFree h k)

theorem tagQuery_success {rs : List Record} (h : ∀ r ∈ rs, NulFree r.path) (tags : List Bytes) :
    tagQuery (fun _ => true) rs tags = some (pushAll [] (tags.flatMap (taggedPaths rs))) := by
  have hfold : ∀ paths : List Bytes, (∀ p ∈ paths, NulFree p) →
      tags.foldlM (fun result tag => pushPaths (fun _ => true) result (taggedPaths rs tag)) paths =
        some (pushAll paths (tags.flatMap (taggedPaths rs))) := by
    intro paths hp
    induction tags generalizing paths with
    | nil => rfl
    | cons t tags ih =>
      have ht := taggedPaths_nulFree h t
      rw [List.foldlM_cons, pushPaths_success hp ht, List.flatMap_cons, pushAll_append]
      exact ih _ fun p hmem => (mem_pushAll.mp hmem).elim (hp p) (ht p)
  exact hfold [] fun _ hp => absurd hp List.not_mem_nil

theorem prefixQuery_success {rs : List Record} (h : ∀ r ∈ rs, NulFree r.path) (pre : Bytes) :
    prefixQuery (fun _ => true) rs pre = some (pushAll [] (prefixedPaths rs pre)) :=
  pushPaths_success (fun _ hp => absurd hp List.not_mem_nil) (prefixedPaths_nulFree h pre)

/-- A loop that gets through gets what one gets for which nothing fails. -/
theorem pushPaths_some {pool : PoolSite → Bool} {paths data res : List Bytes}
    (h : pushPaths pool paths data = some res) : pushPaths (fun _ => true) paths data = some res := by
  induction data generalizing paths with
  | nil => exact h
  | cons d data ih =>
    unfold pushPaths at h ⊢
    rw [List.foldlM_cons] at h ⊢
    obtain ⟨paths1, h1, h2⟩ := Option.bind_eq_some_iff.mp h
    refine Option.bind_eq_some_iff.mpr ⟨paths1, ?_, ih h2⟩
    unfold pushPathUnique at h1 ⊢
    split at h1
    · next hsame => rw [if_pos hsame, h1]
    · next hsame =>
      split at h1
      · rw [if_neg hsame, if_pos rfl, h1]
      · exact nomatch h1

/-- The paths that a query by tags gives, if it gives any. -/
theorem tagQuery_some {pool : PoolSite → Bool} {rs : List Record} (h : ∀ r ∈ rs, NulFree r.path)
    {tags paths : List Bytes} (hq : tagQuery pool rs tags = some paths) :
    paths = pushAll [] (tags.flatMap (taggedPaths rs)) := by
  have hfull : tagQuery (fun _ => true) rs tags = some paths := by
    unfold tagQuery at hq ⊢
    rw [if_pos rfl]
    split at hq
    · generalize ([] : List Bytes) = result at hq ⊢
      induction tags generalizing result with
      | nil => exact hq
      | cons t tags ih =>
        rw [List.foldlM_cons] at hq ⊢
        obtain ⟨result1, h1, h2⟩ := Option.bind_eq_some_iff.mp hq
        exact Option.bind_eq_some_iff.mpr ⟨result1, pushPaths_some h1, ih result1 h2⟩
    · exact nomatch hq
  rw [tagQuery_success h] at hfull
  exact (Option.some.inj hfull).symm

/-- The filter of the prefix query, on C strings. -/
theorem keyHasPrefix_iff {key pre : Bytes} (hk : NulFree key) (hp : NulFree pre) :
    keyHasPrefix key pre = true ↔ pre <+: key := by
  unfold keyHasPrefix
  by_cases hl : key.length < pre.length
  · have hno : ¬ pre <+: key := fun h0 => Nat.not_lt.mpr h0.length_le hl
    simp [hl, hno]
  · have hle : pre.length ≤ key.length := Nat.not_lt.mp hl
    have htake : NulFree (key.take pre.length) := fun h0 => hk (List.mem_of_mem_take h0)
    have hcmp : ngxStrncmp key pre pre.length = 0 ↔ key.take pre.length = pre := by
      rw [ngxStrncmp_eq_zero hle (Nat.le_refl _), List.take_length, cstr_of_nulFree htake,
        cstr_of_nulFree hp]
    have hpre : pre <+: key ↔ key.take pre.length = pre := by
      rw [List.prefix_iff_eq_take]
      exact eq_comm
    rw [hpre, ← hcmp]
    simp [hl]

/-- On the zone `z` the collect functions answer as queries of the map `M`, each
path once. -/
structure Answers (N : Nginx) (s : Shm) (M : IndexMap) (z : Bytes) : Prop where
  exactKey : ∀ k, k ≠ [] → ∃ paths,
    collectPathsByExactKey N (fun _ => true) s z k = some paths ∧ paths.Nodup ∧
      ∀ p, p ∈ paths ↔ ∃ tags, M z p = some (k, tags)
  tags : ∀ T, ∃ paths,
    collectPathsByTags N (fun _ => true) s z T = some paths ∧ paths.Nodup ∧
      ∀ p, p ∈ paths ↔ ∃ key tags, M z p = some (key, tags) ∧ ∃ t ∈ tags, t ∈ T
  keyPrefix : ∀ pre, NulFree pre → ∃ paths,
    collectPathsByKeyPrefix (fun _ => true) s z pre = some paths ∧ paths.Nodup ∧
      ∀ p, p ∈ paths ↔ ∃ key tags, M z p = some (key, tags) ∧ pre <+: key

theorem ShmOk.answers (h : ShmOk N s) (ht : AllTight s .key) {z : Bytes}
    (hn : RecordsNulFree (recordsOf s z)) : Answers N s (toMap s) z := by
  have hrec : ∀ {p key : Bytes} {tags : List Bytes},
      toMap s z p = some (key, tags) ↔ ⟨p, key, tags⟩ ∈ recordsOf s z := toMap_eq_some h
  refine ⟨fun k hk => ?_, fun T => ?_, fun pre hpre => ?_⟩
  · refine ⟨_, (collectPathsByExactKey_eq h ht z k).trans (exactQuery_success hn.paths k),
      nodup_pushAll List.nodup_nil, fun p => ?_⟩
    rw [mem_pushAll, keyedPaths, if_neg hk]
    simp only [hrec, List.not_mem_nil, false_or, List.mem_map, List.mem_filter, decide_eq_true_eq]
    constructor
    · rintro ⟨⟨p', k', tags⟩, ⟨hr, rfl⟩, rfl⟩
      exact ⟨tags, hr⟩
    · rintro ⟨tags, hr⟩
      exact ⟨_, ⟨hr, rfl⟩, rfl⟩
  · refine ⟨_, (collectPathsByTags_eq h z T).trans (tagQuery_success hn.paths T),
      nodup_pushAll List.nodup_nil, fun p => ?_⟩
    rw [mem_pushAll]
    simp only [hrec, List.not_mem_nil, false_or, List.mem_flatMap, mem_taggedPaths]
    constructor
    · rintro ⟨t, ht, ⟨p', k', tags⟩, hr, ht', rfl⟩
      exact ⟨k', tags, hr, t, ht', ht⟩
    · rintro ⟨k', tags, hr, t, ht', ht⟩
      exact ⟨t, ht, _, hr, ht', rfl⟩
  · refine ⟨_, (collectPathsByKeyPrefix_eq z pre).trans (prefixQuery_success hn.paths pre),
      nodup_pushAll List.nodup_nil, fun p => ?_⟩
    rw [mem_pushAll]
    simp only [hrec, List.not_mem_nil, false_or, prefixedPaths, List.mem_map, List.mem_filter]
    constructor
    · rintro ⟨⟨p', k', tags⟩, ⟨hr, hk⟩, rfl⟩
      exact ⟨k', tags, hr, (keyHasPrefix_iff (hn _ hr).2 hpre).mp hk⟩
    · rintro ⟨k', tags, hr, hk⟩
      exact ⟨_, ⟨hr, (keyHasPrefix_iff (hn _ hr).2 hpre).mpr hk⟩, rfl⟩

/-! ## The refinement -/

/-- The index store refines a map: over any sequence of calls there are maps, one
after each call, that start empty, that follow the calls step by step, and that
the collect functions answer from, on every zone. -/
theorem index_store_refines_map (N : Nginx) (ops : List StoreOp) (hops : ∀ op ∈ ops, op.NulFree) :
    ∃ M : Nat → IndexMap, M 0 = IndexMap.empty ∧
      (∀ n (hn : n < ops.length),
        (M n).Step ops[n] (ops[n].run N (runStore N (ops.take n))).1 (M (n + 1))) ∧
      ∀ n ≤ ops.length, ∀ z, Answers N (runStore N (ops.take n)) (M n) z := by
  refine ⟨fun n => toMap (runStore N (ops.take n)), rfl, fun n hn => ?_, fun n _ z => ?_⟩
  · have hok := (runStore_ok N (ops.take n)).1
    beta_reduce
    rw [← List.take_concat_get' ops n hn, runStore_concat]
    exact StoreOp.run_step hok ops[n]
  · obtain ⟨hok, ht⟩ := runStore_ok N (ops.take n)
    exact hok.answers ht (runStore_nulFree N (fun op hop => hops op (List.mem_of_mem_take hop)) z)

/-- Two files with a common key and tag; the second upsert of the first runs out
of memory at a tag entry. -/
def sampleCalls : List StoreOp :=
  [.upsert (fun _ => true) 1 [122] [97] [107] 1 1 [[116]],
   .upsert (fun _ => true) 2 [122] [98] [107] 1 1 [[116], [117]],
   .upsert (fun site => site != .tagEntry 1) 3 [122] [97] [107, 50] 1 1 [[116], [118]],
   .delete 4 [122] [98]]

theorem index_store_refines_map_sample :
    ∃ M : Nat → IndexMap, M 0 = IndexMap.empty ∧
      (∀ n (hn : n < sampleCalls.length), (M n).Step sampleCalls[n]
        (sampleCalls[n].run .reference (runStore .reference (sampleCalls.take n))).1 (M (n + 1))) ∧
      ∀ n ≤ sampleCalls.length, ∀ z,
        Answers .reference (runStore .reference (sampleCalls.take n)) (M n) z :=
  index_store_refines_map .reference sampleCalls (by decide)

/-! ## Failed upserts -/

/-- The queries of the zone `z` answer the same in both states, whatever happens
to the allocations of the query. -/
structure SameAnswers (N : Nginx) (s s' : Shm) (z : Bytes) : Prop where
  exactKey : ∀ pool k, collectPathsByExactKey N pool s' z k = collectPathsByExactKey N pool s z k
  tags : ∀ pool T, collectPathsByTags N pool s' z T = collectPathsByTags N pool s z T
  keyPrefix : ∀ pool pre,
    collectPathsByKeyPrefix pool s' z pre = collectPathsByKeyPrefix pool s z pre

/-- The queries of the zone `z` answer in `s'` what they answer in `s`, less
`path`. -/
structure AnswersLess (N : Nginx) (s s' : Shm) (z path : Bytes) : Prop where
  exactKey : ∀ k, ∃ paths, collectPathsByExactKey N (fun _ => true) s z k = some paths ∧
    collectPathsByExactKey N (fun _ => true) s' z k = some (paths.filter (· ≠ path))
  tags : ∀ T, ∃ paths, collectPathsByTags N (fun _ => true) s z T = some paths ∧
    collectPathsByTags N (fun _ => true) s' z T = some (paths.filter (· ≠ path))
  keyPrefix : ∀ pre, ∃ paths, collectPathsByKeyPrefix (fun _ => true) s z pre = some paths ∧
    collectPathsByKeyPrefix (fun _ => true) s' z pre = some (paths.filter (· ≠ path))

theorem SameAnswers.of_records {z : Bytes} (h : ShmOk N s) (ht : AllTight s .key) (h' : ShmOk N s')
    (ht' : AllTight s' .key) (hr : recordsOf s' z = recordsOf s z) : SameAnswers N s s' z where
  exactKey pool k := by
    rw [collectPathsByExactKey_eq h ht, collectPathsByExactKey_eq h' ht', hr]
  tags pool T := by rw [collectPathsByTags_eq h, collectPathsByTags_eq h', hr]
  keyPrefix pool pre := by rw [collectPathsByKeyPrefix_eq, collectPathsByKeyPrefix_eq, hr]

theorem keyedPaths_otherRecords (rs : List Record) (path k : Bytes) :
    keyedPaths (otherRecords rs path) k = (keyedPaths rs k).filter (· ≠ path) := by
  unfold keyedPaths otherRecords
  by_cases hk : k = []
  · rw [if_pos hk, if_pos hk]
    rfl
  · rw [if_neg hk, if_neg hk, List.filter_map, List.filter_filter, List.filter_filter]
    refine congrArg _ (List.filter_congr fun r _ => ?_)
    simp [Bool.and_comm]

theorem taggedPaths_otherRecords (rs : List Record) (path t : Bytes) :
    taggedPaths (otherRecords rs path) t = (taggedPaths rs t).filter (· ≠ path) := by
  unfold taggedPaths otherRecords
  induction rs with
  | nil => rfl
  | cons r rs ih =>
    rw [List.flatMap_cons, List.filter_append, ← ih]
    by_cases hp : r.path = path
    · rw [List.filter_cons_of_neg (by simp [hp])]
      simp [hp]
    · rw [List.filter_cons_of_pos (by simp [hp]), List.flatMap_cons, List.filter_map]
      simp [hp, Function.comp_def]

theorem prefixedPaths_otherRecords (rs : List Record) (path pre : Bytes) :
    prefixedPaths (otherRecords rs path) pre = (prefixedPaths rs pre).filter (· ≠ path) := by
  unfold prefixedPaths otherRecords
  rw [List.filter_map, List.filter_filter, List.filter_filter]
  refine congrArg _ (List.filter_congr fun r _ => ?_)
  simp [Bool.and_comm]

theorem AnswersLess.of_records {z path : Bytes} (h : ShmOk N s) (ht : AllTight s .key)
    (h' : ShmOk N s') (ht' : AllTight s' .key) (hn : ∀ r ∈ recordsOf s z, NulFree r.path)
    (hn' : ∀ r ∈ otherRecords (recordsOf s z) path, NulFree r.path)
    (hr : recordsOf s' z = otherRecords (recordsOf s z) path) : AnswersLess N s s' z path where
  exactKey k := by
    refine ⟨_, (collectPathsByExactKey_eq h ht z k).trans (exactQuery_success hn k), ?_⟩
    rw [collectPathsByExactKey_eq h' ht', hr, exactQuery_success hn',
      keyedPaths_otherRecords, filter_pushAll]
    rfl
  tags T := by
    refine ⟨_, (collectPathsByTags_eq h z T).trans (tagQuery_success hn T), ?_⟩
    have hless : taggedPaths (otherRecords (recordsOf s z) path) =
        fun t => (taggedPaths (recordsOf s z) t).filter (· ≠ path) :=
      funext (taggedPaths_otherRecords _ path)
    rw [collectPathsByTags_eq h', hr, tagQuery_success hn', filter_pushAll,
      List.filter_flatMap, hless]
    rfl
  keyPrefix pre := by
    refine ⟨_, (collectPathsByKeyPrefix_eq z pre).trans (prefixQuery_success hn pre), ?_⟩
    rw [collectPathsByKeyPrefix_eq, hr, prefixQuery_success hn',
      prefixedPaths_otherRecords, filter_pushAll]
    rfl

/-- An upsert that fails takes its own path out of its own zone, where it was
indexed, and changes no other answer. -/
theorem failed_upsert_drops_own_path (N : Nginx) (ops : List ZoneOp) (alloc : AllocSite → Bool)
    (now : Int) (zoneName path key : Bytes) (mtime size : Int) (tags : List Bytes)
    (herr : (upsertFileMeta N alloc now zoneName path key mtime size tags
      (runZones N ops Shm.init)).1 = .error) :
    let s := runZones N ops Shm.init
    let s' := (upsertFileMeta N alloc now zoneName path key mtime size tags s).2
    (∀ z, ¬ sameZoneName zoneName z = true ∨ (∀ r ∈ recordsOf s zoneName, r.path ≠ path) →
      SameAnswers N s s' z) ∧
    (∀ z, sameZoneName zoneName z = true → (∀ r ∈ recordsOf s z, NulFree r.path) →
      AnswersLess N s s' z path) := by
  intro s s'
  obtain ⟨hok, ht⟩ : ShmOk N s ∧ AllTight s .key :=
    runZones_ok ShmOk.init (fun za hza => absurd hza List.not_mem_nil) ops
  obtain ⟨-, hc, htk, -⟩ := upsertFileMeta_spec hok alloc now zoneName path key mtime size tags
  rw [herr] at hc
  have hrecs : upserted .error (recordsOf s zoneName) path key tags =
      otherRecords (recordsOf s zoneName) path := if_neg (by decide)
  have hown : ∀ z, sameZoneName zoneName z = true →
      recordsOf s' z = otherRecords (recordsOf s z) path := fun z hz => by
    rw [hc.own z hz, hrecs, recordsOf_congr s hz]
  refine ⟨fun z hz => SameAnswers.of_records hok ht hc.ok (htk ht) ?_, fun z hz hn =>
    AnswersLess.of_records hok ht hc.ok (htk ht) hn (fun r hr => hn r (mem_otherRecords.mp hr).1)
      (hown z hz)⟩
  by_cases hsame : sameZoneName zoneName z = true
  · rw [hown z hsame]
    refine otherRecords_eq_self fun r hr => ?_
    rw [← recordsOf_congr s hsame] at hr
    exact hz.resolve_left (not_not.mpr hsame) r hr
  · exact hc.other z hsame

/-- The two files, in a zone that has been bootstrapped. -/
def sampleZoneOps : List ZoneOp := (sampleCalls.take 2).map .store ++ [.bootstrap true 3 [122]]

theorem failed_upsert_drops_own_path_sample :
    let s := runZones .reference sampleZoneOps Shm.init
    let s' := (upsertFileMeta .reference (fun site => site != .file) 4 [122] [97] [107, 50] 1 1 [] s).2
    (∀ z, ¬ sameZoneName [122] z = true ∨ (∀ r ∈ recordsOf s [122], r.path ≠ [97]) →
      SameAnswers .reference s s' z) ∧
    (∀ z, sameZoneName [122] z = true → (∀ r ∈ recordsOf s z, NulFree r.path) →
      AnswersLess .reference s s' z [97]) :=
  failed_upsert_drops_own_path .reference sampleZoneOps (fun site => site != .file) 4 [122]
    [97] [107, 50] 1 1 [] (by decide +kernel)

/-- The old entry is gone before the new one is allocated: the file indexed at
path `a` with tag `t` is not found any more after an upsert that could not
allocate its file block. -/
theorem failed_upsert_loses_entry :
    let s := runStore .reference (sampleCalls.take 2)
    let r := upsertFileMeta .reference (fun site => site != .file) 3 [122] [97] [107, 50] 1 1 [] s
    r.1 = .error ∧
      collectPathsByTags .reference (fun _ => true) s [122] [[116]] = some [[97], [98]] ∧
      collectPathsByTags .reference (fun _ => true) r.2 [122] [[116]] = some [[98]] := by
  decide +kernel

end CachePilot
