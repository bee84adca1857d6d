import CachePilot.Lib.KeepFirst
import CachePilot.Store.Shm

/-!
# Tags of a response

How the tags of a response are read from its headers while it is served:
`extract_tokens` and `push_unique` of `ngx_cache_pilot_index_store.c`, which the
bootstrap scan uses too, and `response_headers` of
`ngx_cache_pilot_index_runtime.c`. Allocations in the request pool are arguments.

A value is tokenised by two nested loops over an index; here the index is the
rest of the value. `extractTokens_success` says what comes out: the tokens of the
value, each kept at its first occurrence, up to the limit.
-/

namespace CachePilot
open NgxString KeepFirst

/-- `NGX_HTTP_CACHE_TAG_MAX_TOKENS_PER_SCAN`. -/
def maxTokensPerScan : Nat := 1000

def isSeparator (c : UInt8) : Bool := c == 32 || c == 9 || c == 13 || c == 10 || c == 44

/-- Two tags that `push_unique` takes for the same. -/
def sameTag (tag data : Bytes) : Bool :=
  tag.length == data.length && ngxStrncasecmp tag data data.length == 0

/-- `ngx_http_cache_index_push_unique`; `pool n` is whether the tag number `n` can
be allocated. -/
def pushUnique (pool : Nat → Bool) (tags : List Bytes) (data : Bytes) : Except NgxRc (List Bytes) :=
  if data.length = 0 then .ok tags
  else if tags.any fun tag => sameTag tag data then .ok tags
  else if pool tags.length then .ok (tags ++ [data])
  else .error .error

/-- The loop of `extract_tokens`; every turn but the last takes a byte, so the
length of the value bounds the turns. -/
def extractLoop (pool : Nat → Bool) : Nat → Bytes → List Bytes → Except NgxRc (List Bytes)
  | 0, _, tags => .ok tags
  | fuel + 1, value, tags =>
    let start := value.dropWhile isSeparator
    let token := start.takeWhile fun c => !isSeparator c
    let rest := start.dropWhile fun c => !isSeparator c
    if token.length = 0 then .ok tags
    else if maxTokensPerScan ≤ tags.length then .ok tags
    else
      match pushUnique pool tags token with
      | .error rc => .error rc
      | .ok tags => extractLoop pool fuel rest tags

/-- `ngx_http_cache_index_extract_tokens`. -/
def extractTokens (pool : Nat → Bool) (value : Bytes) (tags : List Bytes) :
    Except NgxRc (List Bytes) :=
  extractLoop pool (value.length + 1) value tags

/-- The pool allocations of `response_headers`: the array and each tag. -/
structure TagPool where
  array : Bool
  tag : Nat → Bool

/-- A response header, `key` and `value` of `ngx_table_elt_t`. -/
structure TableElt where
  key : Bytes
  value : Bytes
deriving DecidableEq, Repr

/-- `ngx_http_cache_pilot_index_response_headers`. -/
def responseHeaders (pool : TagPool) (headers : List TableElt) (wanted : List Bytes) :
    Except NgxRc (List Bytes) :=
  if pool.array then
    headers.foldlM (fun tags header =>
      wanted.foldlM (fun tags w =>
        if header.key.length ≠ w.length then .ok tags
        else if ngxStrncasecmp header.key w w.length ≠ 0 then .ok tags
        else extractTokens pool.tag header.value tags) tags) []
  else .error .error

/-- The key that `log_handler` assembles from the parts of the cache key. -/
def cacheKey (keys : List Bytes) : Bytes := keys.flatten

/-! ## Tokens -/

/-- The tokens of a value: its longest runs without a separator. -/
def tokens (value : Bytes) : List Bytes :=
  (value.splitOnP isSeparator).filter fun token => token.length ≠ 0

/-- What `push_unique` compares: length, and the folded bytes before a NUL. -/
def tagKey (tag : Bytes) : Nat × Bytes := (tag.length, cstr (tag.map ngxTolower))

/-- The tag list after a stream of tokens. -/
def keepTags (tags stream : List Bytes) : List Bytes :=
  keepAll tagKey (some maxTokensPerScan) tags stream

theorem sameTag_iff {tag data : Bytes} : sameTag tag data = true ↔ tagKey tag = tagKey data := by
  unfold sameTag tagKey
  rw [Bool.and_eq_true, beq_iff_eq, beq_iff_eq, Prod.mk.injEq]
  refine and_congr_right fun hl => ?_
  rw [ngxStrncasecmp_eq_zero (Nat.le_of_eq hl.symm) (Nat.le_refl _), List.take_length,
    List.take_of_length_le (Nat.le_of_eq hl)]

theorem tokens_cons_separator {c : UInt8} {value : Bytes} (h : isSeparator c = true) :
    tokens (c :: value) = tokens value := by
  unfold tokens
  rw [List.splitOnP_cons_eq_if_modifyHead, if_pos h]
  rfl

/-- Leading separators do not matter. -/
theorem tokens_dropWhile (value : Bytes) : tokens (value.dropWhile isSeparator) = tokens value := by
  induction value with
  | nil => rfl
  | cons c value ih =>
    cases h : isSeparator c with
    | true => rw [List.dropWhile_cons_of_pos h, ih, tokens_cons_separator h]
    | false => rw [List.dropWhile_cons_of_neg (by rw [h]; decide)]

/-- A value that starts with a token splits into it and the tokens of the rest. -/
theorem tokens_takeWhile {value : Bytes} (h : value.takeWhile (fun c => !isSeparator c) ≠ []) :
    tokens value = value.takeWhile (fun c => !isSeparator c) ::
      tokens (value.dropWhile fun c => !isSeparator c) := by
  have hsplit := List.takeWhile_append_dropWhile (p := fun c => !isSeparator c) (l := value)
  have hall : ∀ c ∈ value.takeWhile (fun c => !isSeparator c), isSeparator c = false :=
    fun c hc => by simpa using List.mem_takeWhile_imp hc
  have hlen : ¬ (value.takeWhile fun c => !isSeparator c).length = 0 := fun h0 =>
    h (List.eq_nil_of_length_eq_zero h0)
  have hstop : ∀ c rest, value.dropWhile (fun c => !isSeparator c) = c :: rest →
      isSeparator c = true := fun c rest hd => by
    have hhead := List.head_dropWhile_not (fun c => !isSeparator c)
      (l := value) (by rw [hd]; exact List.cons_ne_nil c rest)
    simpa [hd] using hhead
  generalize value.takeWhile (fun c => !isSeparator c) = token at *
  generalize value.dropWhile (fun c => !isSeparator c) = rest at *
  subst hsplit
  cases rest with
  | nil =>
    unfold tokens
    rw [List.append_nil, List.splitOnP_eq_singleton hall]
    simpa using h
  | cons c rest =>
    have hc := hstop c rest rfl
    rw [tokens_cons_separator hc]
    unfold tokens
    rw [List.splitOnP_append_cons_of_forall_mem hall c hc, List.filter_cons_of_pos (by simp [hlen])]

theorem pushUnique_success {tags : List Bytes} {data : Bytes} (hd : data ≠ [])
    (hl : tags.length < maxTokensPerScan) :
    pushUnique (fun _ => true) tags data = .ok (keep tagKey (some maxTokensPerScan) tags data) := by
  have hany : (tags.any fun tag => sameTag tag data) = decide (tagKey data ∈ tags.map tagKey) := by
    rw [Bool.eq_iff_iff, List.any_eq_true, decide_eq_true_eq, List.mem_map]
    exact exists_congr fun tag => and_congr_right fun _ => sameTag_iff
  have hfull : full (some maxTokensPerScan) tags = false := by
    simpa [full] using hl
  unfold pushUnique keep
  rw [hany, hfull, if_neg fun h0 => hd (List.eq_nil_of_length_eq_zero h0)]
  by_cases h : tagKey data ∈ tags.map tagKey <;> simp [h]

theorem keepTags_of_full {tags : List Bytes} (h : maxTokensPerScan ≤ tags.length)
    (stream : List Bytes) : keepTags tags stream = tags := by
  have hfull : full (some maxTokensPerScan) tags = true := by simpa [full] using h
  unfold keepTags
  induction stream with
  | nil => rfl
  | cons t stream ih =>
    have hk : keep tagKey (some maxTokensPerScan) tags t = tags := if_pos (Or.inl hfull)
    rw [keepAll_cons, hk, ih]

/-- One token: at the limit it is left out, a duplicate or not. -/
def pushToken (pool : Nat → Bool) (tags : List Bytes) (token : Bytes) : Except NgxRc (List Bytes) :=
  if maxTokensPerScan ≤ tags.length then .ok tags else pushUnique pool tags token

theorem pushToken_of_full {pool : Nat → Bool} {tags : List Bytes}
    (h : maxTokensPerScan ≤ tags.length) (stream : List Bytes) :
    stream.foldlM (pushToken pool) tags = .ok tags := by
  induction stream with
  | nil => rfl
  | cons token stream ih =>
    rw [List.foldlM_cons]
    unfold pushToken at ih ⊢
    rw [if_pos h]
    exact ih

/-- The loop takes the tokens of the value one by one. -/
theorem extractLoop_eq (pool : Nat → Bool) {fuel : Nat} {value : Bytes} (hf : value.length < fuel)
    (tags : List Bytes) :
    extractLoop pool fuel value tags = (tokens value).foldlM (pushToken pool) tags := by
  induction fuel generalizing value tags with
  | zero => exact absurd hf (Nat.not_lt_zero _)
  | succ fuel ih =>
    unfold extractLoop
    simp only
    have hstart : tokens (value.dropWhile isSeparator) = tokens value := tokens_dropWhile value
    have hle : (value.dropWhile isSeparator).length ≤ value.length :=
      (List.dropWhile_sublist _).length_le
    have hhead : ∀ c rest, value.dropWhile isSeparator = c :: rest → isSeparator c = false :=
      fun c rest hd => by
        have h0 := List.head_dropWhile_not isSeparator (l := value)
          (by rw [hd]; exact List.cons_ne_nil c rest)
        simpa [hd] using h0
    generalize value.dropWhile isSeparator = start at hstart hle hhead
    split
    · next ht =>
      -- no token is left: the value is at its end
      cases start with
      | nil =>
        rw [← hstart]
        rfl
      | cons c rest =>
        have hc := hhead c rest rfl
        rw [List.takeWhile_cons_of_pos (by rw [hc]; rfl)] at ht
        exact absurd ht (Nat.succ_ne_zero _)
    · next ht =>
      have hne : (start.takeWhile fun c => !isSeparator c) ≠ [] := fun h0 => ht (by rw [h0]; rfl)
      rw [← hstart, tokens_takeWhile hne]
      split
      · next hl => rw [pushToken_of_full hl]
      · next hl =>
        have hsplit := List.takeWhile_append_dropWhile (p := fun c => !isSeparator c) (l := start)
        have hlen := congrArg List.length hsplit
        rw [List.length_append] at hlen
        have hpush : pushToken pool tags (start.takeWhile fun c => !isSeparator c) =
            pushUnique pool tags (start.takeWhile fun c => !isSeparator c) := if_neg hl
        rw [List.foldlM_cons, hpush]
        cases pushUnique pool tags (start.takeWhile fun c => !isSeparator c) with
        | error rc => rfl
        | ok tags' => exact ih (by omega) tags'

theorem extractTokens_eq (pool : Nat → Bool) (value : Bytes) (tags : List Bytes) :
    extractTokens pool value tags = (tokens value).foldlM (pushToken pool) tags :=
  extractLoop_eq pool (Nat.lt_succ_self _) tags

theorem tokens_ne_nil {value token : Bytes} (h : token ∈ tokens value) : token ≠ [] := by
  rintro rfl
  exact absurd (List.mem_filter.mp h).2 (by decide)

theorem pushToken_success (tags : List Bytes) {token : Bytes} (hne : token ≠ []) :
    pushToken (fun _ => true) tags token =
      .ok (keep tagKey (some maxTokensPerScan) tags token) := by
  unfold pushToken
  split
  · next hl => exact congrArg Except.ok (keepTags_of_full hl [token]).symm
  · next hl => exact pushUnique_success hne (Nat.lt_of_not_le hl)

theorem pushTokens_success (tags : List Bytes) {stream : List Bytes} (hne : ∀ token ∈ stream, token ≠ []) :
    stream.foldlM (pushToken fun _ => true) tags = .ok (keepTags tags stream) := by
  induction stream generalizing tags with
  | nil => rfl
  | cons token stream ih =>
    obtain ⟨hfirst, hrest⟩ := List.forall_mem_cons.mp hne
    rw [List.foldlM_cons, pushToken_success tags hfirst]
    exact ih _ hrest

/-- `extract_tokens` adds the tokens of the value to the list. -/
theorem extractTokens_success (value : Bytes) (tags : List Bytes) :
    extractTokens (fun _ => true) value tags = .ok (keepTags tags (tokens value)) := by
  rw [extractTokens_eq, pushTokens_success tags fun token => tokens_ne_nil]

/-! ## Allocations -/

theorem pushUnique_ok {pool : Nat → Bool} {tags tags' : List Bytes} {data : Bytes}
    (h : pushUnique pool tags data = .ok tags') : pushUnique (fun _ => true) tags data = .ok tags' := by
  unfold pushUnique at h ⊢
  split
  · next hd => rwa [if_pos hd] at h
  · next hd =>
    rw [if_neg hd] at h
    split
    · next hany => rwa [if_pos hany] at h
    · next hany =>
      rw [if_neg hany] at h
      split at h
      · exact h
      · exact nomatch h

theorem extractLoop_ok {pool : Nat → Bool} {fuel : Nat} {value : Bytes} {tags tags' : List Bytes}
    (h : extractLoop pool fuel value tags = .ok tags') :
    extractLoop (fun _ => true) fuel value tags = .ok tags' := by
  induction fuel generalizing value tags with
  | zero => exact h
  | succ fuel ih =>
    unfold extractLoop at h ⊢
    simp only at h ⊢
    split
    · next ht => rwa [if_pos ht] at h
    · next ht =>
      rw [if_neg ht] at h
      split
      · next hl => rwa [if_pos hl] at h
      · next hl =>
        rw [if_neg hl] at h
        cases hp : pushUnique pool tags
          ((value.dropWhile isSeparator).takeWhile fun c => !isSeparator c) with
        | error rc =>
          rw [hp] at h
          exact nomatch h
        | ok tags1 =>
          rw [hp] at h
          rw [pushUnique_ok hp]
          exact ih h

/-- A fold that succeeds is one whose steps do. -/
theorem foldlM_ok {α β ε : Type} {f g : β → α → Except ε β}
    (hfg : ∀ b a b', f b a = .ok b' → g b a = .ok b') {l : List α} {b b' : β}
    (h : l.foldlM f b = .ok b') : l.foldlM g b = .ok b' := by
  induction l generalizing b with
  | nil => exact h
  | cons a l ih =>
    rw [List.foldlM_cons] at h ⊢
    cases hf : f b a with
    | error e =>
      rw [hf] at h
      exact nomatch h
    | ok b1 =>
      rw [hf] at h
      rw [hfg b a b1 hf]
      exact ih h

/-- Where the tags of a response can be allocated, they are all there. -/
theorem responseHeaders_ok {pool : TagPool} {headers : List TableElt} {wanted tags : List Bytes}
    (h : responseHeaders pool headers wanted = .ok tags) :
    responseHeaders ⟨true, fun _ => true⟩ headers wanted = .ok tags := by
  unfold responseHeaders at h ⊢
  cases harray : pool.array with
  | false =>
    rw [harray] at h
    exact nomatch h
  | true =>
    rw [harray, if_pos rfl] at h
    rw [if_pos rfl]
    refine foldlM_ok (fun tags header tags' hone => ?_) h
    refine foldlM_ok (fun tags w tags' hw => ?_) hone
    split
    · next hl => rwa [if_pos hl] at hw
    · next hl =>
      rw [if_neg hl] at hw
      split
      · next hc => rwa [if_pos hc] at hw
      · next hc =>
        rw [if_neg hc] at hw
        exact extractLoop_ok hw

end CachePilot
