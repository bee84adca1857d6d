import CachePilot.Conf.Merge
import CachePilot.Scan.Tags
import Mathlib.Data.Finset.Card

/-!
# Tag headers of locations that share a zone

`ngx_http_cache_index_headers_equal` and `ngx_http_cache_index_register_cache` of
`ngx_cache_pilot_index.c`. The first location that registers a cache gives the
headers that the bootstrap reads; every later one has to agree with them. Two lists
of one length agree if each name of the first is found in the second.

Results:
* `tag_headers_equal_iff`: which lists are compared as sets of names, and which runs
  of registrations leave one set for each cache, told by how often names repeat;
* `repeated_header_hides_mismatch`: a list with a repeat that agrees with another set.
-/

namespace CachePilot
open NgxString

/-! ## Names -/

/-- The names of a header list, up to letter case. -/
def headerNames (headers : List Bytes) : Finset Bytes :=
  (headers.map fun h => h.map ngxTolower).toFinset

/-- The two names are equally long and agree, up to letter case, in front of their first
NUL byte. -/
def LooksLike (l r : Bytes) : Prop :=
  l.length = r.length ∧ cstr (l.map ngxTolower) = cstr (r.map ngxTolower)

/-- At how many positions a list repeats a name. -/
def repeats (headers : List Bytes) : Nat := headers.length - (headerNames headers).card

/-- How many names of the first list the second one lacks. -/
def lacking (left right : List Bytes) : Nat := (headerNames left \ headerNames right).card

/-- A pair that the comparison tells right. A name of the first list looks like none of
the second one; or else, where neither list lacks a name, they repeat names equally often,
and elsewhere the repeats do not make up for the names that are lacking. -/
def CountsTell (left right : List Bytes) : Prop :=
  (∃ l ∈ left, ∀ r ∈ right, ¬ LooksLike l r) ∨
    if lacking left right = 0 ∧ lacking right left = 0 then repeats left = repeats right
    else repeats left + lacking left right ≠ repeats right + lacking right left

/-- A name of the first list that looks like one of the second is one of them. -/
def NoneHidden (left right : List Bytes) : Prop :=
  ∀ l ∈ left, ∀ r ∈ right, LooksLike l r → l.map ngxTolower ∈ headerNames right

variable {left right : List Bytes} {main main' : MainConf} {cache : Nat}

theorem mem_headerNames {headers : List Bytes} {name : Bytes} :
    name ∈ headerNames headers ↔ ∃ h ∈ headers, h.map ngxTolower = name := by
  unfold headerNames
  rw [List.mem_toFinset, List.mem_map]

theorem length_eq_repeats (headers : List Bytes) :
    headers.length = (headerNames headers).card + repeats headers := by
  have hle : (headerNames headers).card ≤ headers.length := by
    rw [← List.length_map (fun h : Bytes => h.map ngxTolower)]
    exact List.toFinset_card_le _
  unfold repeats
  rw [Nat.add_sub_cancel' hle]

/-- The names of both lists, counted from either of them. -/
theorem card_lacking (left right : List Bytes) :
    (headerNames left).card + lacking right left = (headerNames right).card + lacking left right := by
  have hleft := Finset.card_sdiff_add_card (headerNames left) (headerNames right)
  have hright := Finset.card_sdiff_add_card (headerNames right) (headerNames left)
  rw [Finset.union_comm] at hright
  unfold lacking
  rw [Nat.add_comm, hright, ← hleft, Nat.add_comm]

theorem lacking_eq_zero : lacking left right = 0 ↔ headerNames left ⊆ headerNames right := by
  unfold lacking
  rw [Finset.card_eq_zero, Finset.sdiff_eq_empty_iff_subset]

theorem headerNames_eq_iff :
    headerNames left = headerNames right ↔ lacking left right = 0 ∧ lacking right left = 0 := by
  rw [lacking_eq_zero, lacking_eq_zero]
  exact Finset.Subset.antisymm_iff

/-- Lists are equally long where their repeats make up for the names that are lacking. -/
theorem length_eq_iff : left.length = right.length ↔
    repeats left + lacking left right = repeats right + lacking right left := by
  have hcard := card_lacking left right
  rw [length_eq_repeats left, length_eq_repeats right]
  omega

theorem looksLike_of_names {l r : Bytes} (h : l.map ngxTolower = r.map ngxTolower) : LooksLike l r := by
  refine ⟨?_, by rw [h]⟩
  have hlen := congrArg List.length h
  rwa [List.length_map, List.length_map] at hlen

/-- Without a NUL byte, names that look alike are one name. -/
theorem noneHidden_of_nulFree (hleft : ∀ l ∈ left, 0 ∉ l.map ngxTolower)
    (hright : ∀ r ∈ right, 0 ∉ r.map ngxTolower) : NoneHidden left right := by
  rintro l hl r hr ⟨-, hcstr⟩
  rw [cstr_of_nulFree (hleft l hl), cstr_of_nulFree (hright r hr)] at hcstr
  exact mem_headerNames.mpr ⟨r, hr, hcstr.symm⟩

theorem headersEqual_iff : headersEqual left right = true ↔
    left.length = right.length ∧ ∀ l ∈ left, ∃ r ∈ right, LooksLike l r := by
  unfold headersEqual
  rw [Bool.and_eq_true, beq_iff_eq, List.all_eq_true]
  refine and_congr_right fun _ => forall₂_congr fun l _ => ?_
  rw [List.any_eq_true]
  refine exists_congr fun r => and_congr_right fun _ => ?_
  rw [Bool.and_eq_true, beq_iff_eq, beq_iff_eq]
  refine and_congr_right fun hlen => ?_
  rw [ngxStrncasecmp_eq_zero (Nat.le_refl _) (Nat.le_of_eq hlen), List.take_length,
    List.take_of_length_le (Nat.le_of_eq hlen.symm)]

theorem looksLike_of_subset (h : headerNames left ⊆ headerNames right) :
    ∀ l ∈ left, ∃ r ∈ right, LooksLike l r := by
  intro l hl
  obtain ⟨r, hr, hname⟩ := mem_headerNames.mp (h (mem_headerNames.mpr ⟨l, hl, rfl⟩))
  exact ⟨r, hr, looksLike_of_names hname.symm⟩

/-- Where no name is hidden, names that all look like one are all there. -/
theorem NoneHidden.subset (hnone : NoneHidden left right)
    (hfound : ∀ l ∈ left, ∃ r ∈ right, LooksLike l r) : headerNames left ⊆ headerNames right := by
  intro name hname
  obtain ⟨l, hl, rfl⟩ := mem_headerNames.mp hname
  obtain ⟨r, hr, hlike⟩ := hfound l hl
  exact hnone l hl r hr hlike

/-- Which pairs of lists are compared as sets of names. -/
theorem headersEqual_iff_names_iff :
    (headersEqual left right = true ↔ headerNames left = headerNames right) ↔ CountsTell left right := by
  rw [headersEqual_iff, length_eq_iff, headerNames_eq_iff]
  unfold CountsTell
  by_cases hfound : ∀ l ∈ left, ∃ r ∈ right, LooksLike l r
  · have hno : ¬ ∃ l ∈ left, ∀ r ∈ right, ¬ LooksLike l r := by
      rintro ⟨l, hl, hnone⟩
      obtain ⟨r, hr, hlike⟩ := hfound l hl
      exact hnone r hr hlike
    rw [and_iff_left hfound, or_iff_right hno]
    split
    · next hsame =>
      rw [hsame.1, hsame.2, Nat.add_zero, Nat.add_zero]
      exact iff_true_right ⟨rfl, rfl⟩
    · next hother => exact iff_false_right hother
  · have hsome : ∃ l ∈ left, ∀ r ∈ right, ¬ LooksLike l r := by
      simpa only [not_forall, not_exists, not_and, exists_prop] using hfound
    refine iff_of_true (iff_of_false (fun h => hfound h.2) fun hsame => ?_) (Or.inl hsome)
    exact hfound (looksLike_of_subset (lacking_eq_zero.mp hsame.1))

/-- Lists that repeat names equally often and hide none are compared as sets. -/
theorem countsTell_of_repeats (hnone : NoneHidden left right) (hrepeats : repeats left = repeats right) :
    CountsTell left right := by
  unfold CountsTell
  by_cases hfound : ∀ l ∈ left, ∃ r ∈ right, LooksLike l r
  · have hleft := lacking_eq_zero.mpr (hnone.subset hfound)
    refine Or.inr ?_
    split
    · exact hrepeats
    · next hother =>
      have hright : lacking right left ≠ 0 := fun h => hother ⟨hleft, h⟩
      omega
  · refine Or.inl ?_
    simpa only [not_forall, not_exists, not_and, exists_prop] using hfound

/-- A list equals itself. -/
theorem headersEqual_self (headers : List Bytes) : headersEqual headers headers = true :=
  headersEqual_iff.mpr ⟨rfl, looksLike_of_subset (Finset.Subset.refl _)⟩

/-- The comparison is one of sets in both directions exactly when it is symmetric and
one of sets. -/
theorem headersEqual_symm_iff :
    ((headersEqual left right = true ↔ headerNames left = headerNames right) ∧
        headersEqual left right = headersEqual right left) ↔
      CountsTell left right ∧ CountsTell right left := by
  rw [← headersEqual_iff_names_iff, ← headersEqual_iff_names_iff]
  refine and_congr_right fun h => ?_
  rw [Bool.eq_iff_iff, h, eq_comm (a := headerNames left)]
  exact iff_comm

/-- Lists that were found equal have the same names exactly if no name is hidden and they
repeat names equally often. -/
theorem names_iff_of_headersEqual (h : headersEqual left right = true) :
    headerNames left = headerNames right ↔ NoneHidden left right ∧ repeats left = repeats right := by
  obtain ⟨hlen, hfound⟩ := headersEqual_iff.mp h
  have hcounts := length_eq_iff.mp hlen
  constructor
  · intro hsame
    refine ⟨fun l hl r _ _ => ?_, ?_⟩
    · rw [← hsame]
      exact mem_headerNames.mpr ⟨l, hl, rfl⟩
    · obtain ⟨hleft, hright⟩ := headerNames_eq_iff.mp hsame
      rwa [hleft, hright, Nat.add_zero, Nat.add_zero] at hcounts
  · rintro ⟨hnone, hrepeats⟩
    have hleft := lacking_eq_zero.mpr (hnone.subset hfound)
    refine headerNames_eq_iff.mpr ⟨hleft, ?_⟩
    omega

/-- Lists with the same names are found equal exactly if they repeat them equally often. -/
theorem headersEqual_iff_of_names (h : headerNames left = headerNames right) :
    headersEqual left right = true ↔ repeats left = repeats right := by
  obtain ⟨hleft, hright⟩ := headerNames_eq_iff.mp h
  rw [headersEqual_iff, and_iff_left (looksLike_of_subset (Finset.subset_of_eq h)), length_eq_iff,
    hleft, hright, Nat.add_zero, Nat.add_zero]

/-! ## Registrations -/

/-- One call of `register_cache`. -/
structure RegisterCall where
  pool : Bool
  cache : Option Nat
  headers : List Bytes

/-- The calls that the merges make, one after the other. -/
def registerAll (main : MainConf) (calls : List RegisterCall) : Except ConfError MainConf :=
  calls.foldlM (fun main call => registerCache call.pool main call.cache call.headers) main

/-- The zone that a first call for a cache adds. -/
def MainConf.addZone (main : MainConf) (cache : Nat) (headers : List Bytes) : MainConf :=
  { main with zones := main.zones ++ [(cache, headers)] }

/-- The headers that are registered for a cache. -/
def MainConf.registered (main : MainConf) (cache : Nat) : Option (List Bytes) :=
  (main.zones.find? fun z => z.1 == cache).map Prod.snd

/-- The headers of the first call for a cache. -/
def firstHeaders (calls : List RegisterCall) (cache : Nat) : Option (List Bytes) :=
  (calls.find? fun call => call.cache == some cache).map RegisterCall.headers

/-- All calls for one cache have the same names. -/
def OneSet (calls : List RegisterCall) : Prop :=
  ∀ c ∈ calls, ∀ d ∈ calls, c.cache.isSome = true → c.cache = d.cache →
    headerNames c.headers = headerNames d.headers

/-- However the calls are ordered, all of them succeed, and leave the same names for
each cache. -/
def AnyOrder (main : MainConf) (calls : List RegisterCall) : Prop :=
  ∀ calls' : List RegisterCall, calls'.Perm (calls.map fun call => { call with pool := true }) →
    ∃ main', registerAll ⟨true, []⟩ calls' = .ok main' ∧ ∀ cache,
      (main'.registered cache).map headerNames = (main.registered cache).map headerNames

theorem registerAll_cons (main : MainConf) (call : RegisterCall) (calls : List RegisterCall) :
    registerAll main (call :: calls) =
      match registerCache call.pool main call.cache call.headers with
      | .ok main => registerAll main calls
      | .error e => .error e := by
  unfold registerAll
  rw [List.foldlM_cons]
  cases registerCache call.pool main call.cache call.headers with
  | ok main' => rfl
  | error e => rfl

theorem registerCache_none (pool : Bool) (main : MainConf) (headers : List Bytes) :
    registerCache pool main none headers = .ok main := rfl

/-- A call for a cache that is registered. -/
theorem registerCache_registered (hconf : main.storeConfigured = true) (pool : Bool)
    {headers first : List Bytes} (h : main.registered cache = some first) :
    registerCache pool main (some cache) headers =
      if headersEqual first headers then .ok main else .error .failed := by
  unfold MainConf.registered at h
  obtain ⟨z, hz, rfl⟩ := Option.map_eq_some_iff.mp h
  unfold registerCache
  simp only [hconf, Bool.not_true, Bool.false_eq_true, if_false, hz]

/-- A call for a cache that is not registered. -/
theorem registerCache_fresh (hconf : main.storeConfigured = true) (pool : Bool)
    {headers : List Bytes} (h : main.registered cache = none) :
    registerCache pool main (some cache) headers =
      if pool then .ok (main.addZone cache headers) else .error .failed := by
  unfold MainConf.registered at h
  have hz := Option.map_eq_none_iff.mp h
  unfold registerCache MainConf.addZone
  simp only [hconf, Bool.not_true, Bool.false_eq_true, if_false, hz]

theorem registered_addZone (main : MainConf) (headers : List Bytes) (other : Nat) :
    (main.addZone cache headers).registered other =
      (main.registered other).or (if cache = other then some headers else none) := by
  unfold MainConf.registered MainConf.addZone
  rw [List.find?_append]
  cases main.zones.find? fun z => z.1 == other with
  | some z => rfl
  | none =>
    by_cases h : cache = other
    · simp [h]
    · simp [h]

theorem firstHeaders_cons (call : RegisterCall) (calls : List RegisterCall) :
    firstHeaders (call :: calls) cache =
      if call.cache = some cache then some call.headers else firstHeaders calls cache := by
  unfold firstHeaders
  by_cases h : call.cache = some cache
  · simp [h]
  · have hne : (call.cache == some cache) = false := beq_eq_false_iff_ne.mpr h
    simp [h, hne]

/-- What a run of calls leaves for each cache, and what it has compared. -/
theorem registerAll_spec (calls : List RegisterCall) (hconf : main.storeConfigured = true)
    (h : registerAll main calls = .ok main') :
    (∀ cache, main'.registered cache = (main.registered cache).or (firstHeaders calls cache)) ∧
      ∀ c ∈ calls, ∀ cache, c.cache = some cache → ∃ first,
        (main.registered cache).or (firstHeaders calls cache) = some first ∧
          headersEqual first c.headers = true := by
  induction calls generalizing main with
  | nil =>
    obtain rfl := Except.ok.inj h
    exact ⟨fun cache => (Option.or_none).symm, fun c hc => absurd hc List.not_mem_nil⟩
  | cons call calls ih =>
    rw [registerAll_cons] at h
    cases hcache : call.cache with
    | none =>
      rw [hcache, registerCache_none] at h
      obtain ⟨hreg, hcalls⟩ := ih hconf h
      have hskip : ∀ cache, firstHeaders (call :: calls) cache = firstHeaders calls cache := by
        intro cache
        rw [firstHeaders_cons, hcache, if_neg (nomatch ·)]
      refine ⟨fun cache => by rw [hskip, hreg], fun c hc cache hcc => ?_⟩
      rcases List.mem_cons.mp hc with rfl | hc
      · exact nomatch hcache.symm.trans hcc
      · rw [hskip]
        exact hcalls c hc cache hcc
    | some k =>
      rw [hcache] at h
      cases hk : main.registered k with
      | some first =>
        rw [registerCache_registered hconf call.pool hk] at h
        cases heq : headersEqual first call.headers with
        | false =>
          rw [heq] at h
          exact nomatch h
        | true =>
          rw [heq] at h
          obtain ⟨hreg, hcalls⟩ := ih hconf h
          have hskip : ∀ cache, (main.registered cache).or (firstHeaders (call :: calls) cache) =
              (main.registered cache).or (firstHeaders calls cache) := by
            intro cache
            rw [firstHeaders_cons, hcache]
            split
            · next hsame =>
              obtain rfl := Option.some.inj hsame
              rw [hk, Option.some_or, Option.some_or]
            · rfl
          refine ⟨fun cache => by rw [hskip, hreg], fun c hc cache hcc => ?_⟩
          rw [hskip]
          rcases List.mem_cons.mp hc with rfl | hc
          · obtain rfl := Option.some.inj (hcache.symm.trans hcc)
            rw [hk]
            exact ⟨first, rfl, heq⟩
          · exact hcalls c hc cache hcc
      | none =>
        rw [registerCache_fresh hconf call.pool hk] at h
        cases hpool : call.pool with
        | false =>
          rw [hpool] at h
          exact nomatch h
        | true =>
          rw [hpool] at h
          have hconf' : (main.addZone k call.headers).storeConfigured = true := hconf
          obtain ⟨hreg, hcalls⟩ := ih hconf' h
          have hnext : ∀ cache,
              ((main.addZone k call.headers).registered cache).or (firstHeaders calls cache) =
              (main.registered cache).or (firstHeaders (call :: calls) cache) := by
            intro cache
            rw [registered_addZone, firstHeaders_cons, hcache, Option.or_assoc]
            by_cases hsame : k = cache
            · rw [if_pos hsame, if_pos (congrArg some hsame), Option.some_or]
            · rw [if_neg hsame, if_neg fun h0 => hsame (Option.some.inj h0), Option.none_or]
          refine ⟨fun cache => by rw [hreg, hnext], fun c hc cache hcc => ?_⟩
          rcases List.mem_cons.mp hc with rfl | hc
          · obtain rfl := Option.some.inj (hcache.symm.trans hcc)
            refine ⟨c.headers, ?_, headersEqual_self c.headers⟩
            rw [hk, firstHeaders_cons, if_pos hcache, Option.none_or]
          · rw [← hnext]
            exact hcalls c hc cache hcc

/-- Calls that agree with each other and with what is registered all succeed. -/
theorem registerAll_succeeds (calls : List RegisterCall) (hconf : main.storeConfigured = true)
    (hpool : ∀ c ∈ calls, c.pool = true)
    (hmain : ∀ c ∈ calls, ∀ cache first, c.cache = some cache → main.registered cache = some first →
      headersEqual first c.headers = true)
    (hcalls : ∀ c ∈ calls, ∀ d ∈ calls, c.cache.isSome = true → c.cache = d.cache →
      headersEqual c.headers d.headers = true) :
    ∃ main', registerAll main calls = .ok main' := by
  induction calls generalizing main with
  | nil => exact ⟨main, rfl⟩
  | cons call calls ih =>
    have hpool' := (List.forall_mem_cons.mp hpool).2
    have hcalls' : ∀ c ∈ calls, ∀ d ∈ calls, c.cache.isSome = true → c.cache = d.cache →
        headersEqual c.headers d.headers = true := fun c hc d hd =>
      hcalls c (List.mem_cons_of_mem call hc) d (List.mem_cons_of_mem call hd)
    have hmain' := (List.forall_mem_cons.mp hmain).2
    rw [registerAll_cons]
    cases hcache : call.cache with
    | none =>
      rw [registerCache_none]
      exact ih hconf hpool' hmain' hcalls'
    | some k =>
      cases hk : main.registered k with
      | some first =>
        rw [registerCache_registered hconf call.pool hk,
          if_pos (hmain call List.mem_cons_self k first hcache hk)]
        exact ih hconf hpool' hmain' hcalls'
      | none =>
        rw [registerCache_fresh hconf call.pool hk, if_pos (hpool call List.mem_cons_self)]
        refine ih hconf hpool' (fun c hc cache first hcc hfirst => ?_) hcalls'
        rw [registered_addZone] at hfirst
        cases hold : main.registered cache with
        | some old =>
          rw [hold, Option.some_or] at hfirst
          exact hmain' c hc cache first hcc (hold.trans hfirst)
        | none =>
          rw [hold, Option.none_or] at hfirst
          split at hfirst
          · next hsame =>
            obtain rfl := Option.some.inj hfirst
            refine hcalls call List.mem_cons_self c (List.mem_cons_of_mem call hc) ?_ ?_
            · rw [hcache]
              rfl
            · rw [hcache, hcc, hsame]
          · exact nomatch hfirst

theorem firstHeaders_mem {calls : List RegisterCall} {first : List Bytes}
    (h : firstHeaders calls cache = some first) :
    ∃ c ∈ calls, c.cache = some cache ∧ c.headers = first := by
  unfold firstHeaders at h
  obtain ⟨c, hc, rfl⟩ := Option.map_eq_some_iff.mp h
  have hcache := List.find?_some hc
  exact ⟨c, List.mem_of_find?_eq_some hc, beq_iff_eq.mp hcache, rfl⟩

theorem firstHeaders_isSome {calls : List RegisterCall} {c : RegisterCall} (hc : c ∈ calls)
    (hcache : c.cache = some cache) : (firstHeaders calls cache).isSome = true := by
  unfold firstHeaders
  rw [Option.isSome_map, List.find?_isSome]
  exact ⟨c, hc, beq_iff_eq.mpr hcache⟩

/-- A run that succeeds registers the headers of the first call for each cache, and has
found them equal to those of the others. -/
theorem registerAll_first {calls : List RegisterCall} (h : registerAll ⟨true, []⟩ calls = .ok main) :
    (∀ cache, main.registered cache = firstHeaders calls cache) ∧
      ∀ c ∈ calls, ∀ cache first, c.cache = some cache → firstHeaders calls cache = some first →
        headersEqual first c.headers = true := by
  have hnone : ∀ cache, (⟨true, []⟩ : MainConf).registered cache = none := fun _ => rfl
  obtain ⟨hreg, hcalls⟩ := registerAll_spec calls rfl h
  simp only [hnone, Option.none_or] at hreg hcalls
  refine ⟨hreg, fun c hc cache first hcache hfirst => ?_⟩
  obtain ⟨first', hfirst', heq⟩ := hcalls c hc cache hcache
  obtain rfl := Option.some.inj (hfirst'.symm.trans hfirst)
  exact heq

/-- Lists of one length with the same names are equal for the comparison. -/
theorem headersEqual_of_names (hlen : left.length = right.length)
    (h : headerNames left = headerNames right) : headersEqual left right = true :=
  headersEqual_iff.mpr ⟨hlen, looksLike_of_subset (Finset.subset_of_eq h)⟩

/-- A run whose calls have one set for each cache may be ordered in any way. -/
theorem anyOrder_of_oneSet {calls : List RegisterCall} (h : registerAll ⟨true, []⟩ calls = .ok main)
    (hone : OneSet calls) : AnyOrder main calls := by
  obtain ⟨hreg, heq⟩ := registerAll_first h
  intro calls' hperm
  -- a call of the new order is one of the old, but for the pool
  have hold : ∀ c ∈ calls', c.pool = true ∧ ∃ d ∈ calls, d.cache = c.cache ∧ d.headers = c.headers := by
    intro c hc
    obtain ⟨d, hd, rfl⟩ := List.mem_map.mp (hperm.mem_iff.mp hc)
    exact ⟨rfl, d, hd, rfl, rfl⟩
  -- all lists for one cache are as long as the first one
  have hlen : ∀ c ∈ calls, ∀ d ∈ calls, c.cache.isSome = true → c.cache = d.cache →
      c.headers.length = d.headers.length := by
    intro c hc d hd hsome hsame
    obtain ⟨cache, hcache⟩ := Option.isSome_iff_exists.mp hsome
    obtain ⟨first, hfirst⟩ := Option.isSome_iff_exists.mp (firstHeaders_isSome hc hcache)
    have hlc := (headersEqual_iff.mp (heq c hc cache first hcache hfirst)).1
    have hld := (headersEqual_iff.mp (heq d hd cache first (hsame.symm.trans hcache) hfirst)).1
    exact hlc.symm.trans hld
  obtain ⟨main', hrun⟩ : ∃ main', registerAll ⟨true, []⟩ calls' = .ok main' := by
    refine registerAll_succeeds calls' rfl (fun c hc => (hold c hc).1)
      (fun _ _ _ _ _ hfirst => nomatch hfirst) fun c hc d hd hsome hsame => ?_
    obtain ⟨-, c0, hc0, hcc, hch⟩ := hold c hc
    obtain ⟨-, d0, hd0, hdc, hdh⟩ := hold d hd
    rw [← hcc] at hsome
    have hsame0 : c0.cache = d0.cache := (hcc.trans hsame).trans hdc.symm
    rw [← hch, ← hdh]
    exact headersEqual_of_names (hlen c0 hc0 d0 hd0 hsome hsame0) (hone c0 hc0 d0 hd0 hsome hsame0)
  refine ⟨main', hrun, fun cache => ?_⟩
  obtain ⟨hreg', -⟩ := registerAll_first hrun
  rw [hreg, hreg']
  cases hfirst' : firstHeaders calls' cache with
  | none =>
    cases hfirst : firstHeaders calls cache with
    | none => rfl
    | some first =>
      obtain ⟨c, hc, hcache, -⟩ := firstHeaders_mem hfirst
      have hc' : { c with pool := true } ∈ calls' := hperm.mem_iff.mpr (List.mem_map_of_mem hc)
      have hsome : (firstHeaders calls' cache).isSome = true := firstHeaders_isSome hc' hcache
      rw [hfirst'] at hsome
      exact nomatch hsome
  | some first' =>
    obtain ⟨c', hc', hcache', rfl⟩ := firstHeaders_mem hfirst'
    obtain ⟨-, c, hc, hcc, hch⟩ := hold c' hc'
    have hcache := hcc.trans hcache'
    obtain ⟨first, hfirst⟩ := Option.isSome_iff_exists.mp (firstHeaders_isSome hc hcache)
    obtain ⟨d, hd, hdcache, rfl⟩ := firstHeaders_mem hfirst
    rw [hfirst, ← hch]
    refine congrArg some (hone c hc d hd ?_ (hcache.trans hdcache.symm))
    rw [hcache]
    rfl

/-- The comparison of tag headers is one of sets of names, and symmetric, for lists that
repeat names equally often and hide none. Where it finds lists equal, it is right exactly if
they do so, and where their names are the same, exactly if they repeat them equally often;
all in all it is right for exactly the pairs whose counts tell. A run of registrations that
succeeds leaves one set of names for each cache, whichever comes first, exactly when no list
hides a name from the first one of its cache and each repeats names as often as that one. -/
theorem tag_headers_equal_iff (left right : List Bytes) (calls : List RegisterCall)
    (main : MainConf) :
    (NoneHidden left right ∧ NoneHidden right left ∧ repeats left = repeats right →
      (headersEqual left right = true ↔ headerNames left = headerNames right) ∧
        headersEqual left right = headersEqual right left) ∧
    (headersEqual left right = true →
      (headerNames left = headerNames right ↔ NoneHidden left right ∧ repeats left = repeats right)) ∧
    (headerNames left = headerNames right →
      (headersEqual left right = true ↔ repeats left = repeats right)) ∧
    ((headersEqual left right = true ↔ headerNames left = headerNames right) ↔
      CountsTell left right) ∧
    ((headersEqual left right = true ↔ headerNames left = headerNames right) ∧
        headersEqual left right = headersEqual right left ↔
      CountsTell left right ∧ CountsTell right left) ∧
    (registerAll ⟨true, []⟩ calls = .ok main →
      (OneSet calls ∧ AnyOrder main calls ↔
        ∀ c ∈ calls, ∀ cache first, c.cache = some cache → firstHeaders calls cache = some first →
          NoneHidden first c.headers ∧ repeats first = repeats c.headers)) := by
  refine ⟨?_, names_iff_of_headersEqual, headersEqual_iff_of_names, headersEqual_iff_names_iff,
    headersEqual_symm_iff, fun h => ?_⟩
  · rintro ⟨hleft, hright, hrepeats⟩
    exact headersEqual_symm_iff.mpr
      ⟨countsTell_of_repeats hleft hrepeats, countsTell_of_repeats hright hrepeats.symm⟩
  obtain ⟨-, heq⟩ := registerAll_first h
  constructor
  · rintro ⟨hone, -⟩ c hc cache first hcache hfirst
    obtain ⟨d, hd, hdcache, rfl⟩ := firstHeaders_mem hfirst
    refine (names_iff_of_headersEqual (heq c hc cache _ hcache hfirst)).mp ?_
    refine hone d hd c hc ?_ (hdcache.trans hcache.symm)
    rw [hdcache]
    rfl
  · intro hcounts
    have hone : OneSet calls := by
      intro c hc d hd hsome hsame
      obtain ⟨cache, hcache⟩ := Option.isSome_iff_exists.mp hsome
      have hdcache := hsame.symm.trans hcache
      obtain ⟨first, hfirst⟩ := Option.isSome_iff_exists.mp (firstHeaders_isSome hc hcache)
      have hnames : ∀ e ∈ calls, e.cache = some cache → headerNames first = headerNames e.headers :=
        fun e he hecache => (names_iff_of_headersEqual (heq e he cache first hecache hfirst)).mpr
          (hcounts e he cache first hecache hfirst)
      exact (hnames c hc hcache).symm.trans (hnames d hd hdcache)
    exact ⟨hone, anyOrder_of_oneSet h hone⟩

/-- Two locations of one cache, both with their headers in another letter case and one of
them twice. -/
def sampleCallsOfCache : List RegisterCall :=
  [⟨true, some 0, [[65], [66], [97]]⟩, ⟨true, some 0, [[98], [97], [66]]⟩]

theorem sampleCallsOfCache_noneHidden : NoneHidden [[65], [66], [97]] [[98], [97], [66]] ∧
    NoneHidden [[98], [97], [66]] [[65], [66], [97]] :=
  ⟨noneHidden_of_nulFree (by decide) (by decide), noneHidden_of_nulFree (by decide) (by decide)⟩

theorem tag_headers_equal_iff_sample :
    headersEqual [[65], [66], [97]] [[98], [97], [66]] = headersEqual [[98], [97], [66]] [[65], [66], [97]] ∧
      OneSet sampleCallsOfCache ∧ AnyOrder ⟨true, [(0, [[65], [66], [97]])]⟩ sampleCallsOfCache := by
  obtain ⟨hpair, -, -, -, -, hrun⟩ := tag_headers_equal_iff [[65], [66], [97]] [[98], [97], [66]]
    sampleCallsOfCache ⟨true, [(0, [[65], [66], [97]])]⟩
  obtain ⟨hleft, hright⟩ := sampleCallsOfCache_noneHidden
  refine ⟨(hpair ⟨hleft, hright, by decide⟩).2, (hrun rfl).mpr ?_⟩
  intro c hc cache first hcache hfirst
  obtain rfl : cache = 0 := by
    rcases List.mem_cons.mp hc with rfl | hc
    · exact (Option.some.inj hcache).symm
    · obtain rfl := List.mem_singleton.mp hc
      exact (Option.some.inj hcache).symm
  obtain rfl : [[65], [66], [97]] = first := Option.some.inj hfirst
  rcases List.mem_cons.mp hc with rfl | hc
  · exact ⟨noneHidden_of_nulFree (by decide) (by decide), rfl⟩
  · obtain rfl := List.mem_singleton.mp hc
    exact ⟨hleft, by decide⟩

/-- The list `A A` agrees with `A B`, but not the other way round: the cache is registered
with `A` alone, and a location with `A B` is let through. -/
theorem repeated_header_hides_mismatch :
    headersEqual [[65], [65]] [[65], [66]] = true ∧
      headersEqual [[65], [66]] [[65], [65]] = false ∧
      headerNames [[65], [65]] ≠ headerNames [[65], [66]] ∧
      headersEqual [[65]] [[65], [65]] = false ∧ headerNames [[65]] = headerNames [[65], [65]] ∧
      registerAll ⟨true, []⟩ [⟨true, some 0, [[65], [65]]⟩, ⟨true, some 0, [[65], [66]]⟩] =
        .ok ⟨true, [(0, [[65], [65]])]⟩ ∧
      registerAll ⟨true, []⟩ [⟨true, some 0, [[65], [66]]⟩, ⟨true, some 0, [[65], [65]]⟩] =
        .error .failed := by
  refine ⟨by decide, by decide, by decide, by decide, by decide, rfl, rfl⟩

end CachePilot
