import CachePilot.Conf.Merge

/-!
# The default of `cache_pilot_index`

`ngx_http_cache_pilot_merge_loc_conf` decides the default of `cache_pilot_index` in
the outermost merge, which is the one of the server, by what the server itself uses.
It writes the answer where the levels inside read whether the directive is set around
them.

Results:
* `index_default_iff`: when the flag of a location follows the directive, and its own
  use of a cache where there is none;
* `server_decides_index_default`: a location with a cache, in a server without one.
-/

namespace CachePilot

/-- The value of the directive at the level nearest to the last one. -/
def nearestIndex (levels : List Directives) : Option Bool :=
  levels.reverse.findSome? Directives.cacheIndex

/-- What a level uses where neither it nor a level around it has the directive. -/
def indexDefault (ctx : Context) : Bool := ctx.main.storeConfigured && locationUsesCache ctx

variable {ctx : Context} {prev conf : LocConf} {m : Merged} {p : Protocol}

theorem nearestIndex_cons (level : Directives) (levels : List Directives) :
    nearestIndex (level :: levels) = (nearestIndex levels).or level.cacheIndex := by
  unfold nearestIndex
  rw [List.reverse_cons, List.findSome?_append, List.findSome?_singleton]

theorem nearestIndex_eq_none {levels : List Directives} :
    nearestIndex levels = none ↔ ∀ level ∈ levels, level.cacheIndex = none := by
  unfold nearestIndex
  rw [List.findSome?_eq_none_iff]
  simp only [List.mem_reverse]

/-! ## One merge -/

theorem mergeValues_cacheIndex {conf' : LocConf} (h : mergeValues ctx prev conf = some conf') :
    conf'.cacheIndex = (conf.cacheIndex.or prev.cacheIndex).or (some (indexDefault ctx)) := by
  unfold mergeValues at h
  simp only at h
  split at h
  · exact nomatch h
  · cases h
    simp only [indexDefault]
    cases conf.cacheIndex with
    | some b => simp
    | none =>
      cases prev.cacheIndex with
      | some b => simp
      | none => cases ctx.main.storeConfigured <;> cases locationUsesCache ctx <;> simp

/-- An attempt to attach leaves the flag alone. -/
theorem protocolAttach_cacheIndex {original : Option ContentHandler}
    (h : protocolAttach ctx conf p original = .ok m) : m.conf.cacheIndex = conf.cacheIndex := by
  unfold protocolAttach at h
  simp only at h
  split at h
  · cases h
    rfl
  · split at h
    · cases h
      rfl
    · split at h
      · rw [(attached_ok h).1]
      · split at h
        · exact nomatch h
        · split at h
          · exact nomatch h
          · rw [(attached_ok h).1]

theorem mergeProtocols_cacheIndex {ps : List Protocol} (h : mergeProtocols ctx prev ps conf = .ok m) :
    m.conf.cacheIndex = conf.cacheIndex := by
  induction ps generalizing conf with
  | nil =>
    cases h
    rfl
  | cons q ps ih =>
    unfold mergeProtocols at h
    simp only at h
    split at h
    · exact (protocolAttach_cacheIndex h).trans rfl
    · exact (ih h).trans rfl

theorem mergeLocConf_cacheIndex (h : mergeLocConf ctx prev = .ok m) :
    m.conf.cacheIndex =
      (ctx.directives.cacheIndex.or prev.cacheIndex).or (some (indexDefault ctx)) := by
  unfold mergeLocConf at h
  cases hv : mergeValues ctx prev ctx.directives.locConf with
  | none =>
    rw [hv] at h
    exact nomatch h
  | some conf =>
    rw [hv] at h
    rw [mergeProtocols_cacheIndex h, mergeValues_cacheIndex hv]
    rfl

/-! ## All merges -/

/-- Down a chain, the directive is inherited; the default is the one of the outermost
level that is merged. -/
theorem mergeChain_cacheIndex {outer : List Context} {loc : Context}
    (h : mergeChain prev outer loc = .ok m) :
    m.conf.cacheIndex =
      ((nearestIndex (outer.map Context.directives ++ [loc.directives])).or prev.cacheIndex).or
        (some (indexDefault (outer.headD loc))) := by
  induction outer generalizing prev with
  | nil =>
    have hown : nearestIndex [loc.directives] = loc.directives.cacheIndex := by
      rw [nearestIndex_cons]
      exact Option.none_or
    rw [List.map_nil, List.nil_append, hown, List.headD_nil]
    exact mergeLocConf_cacheIndex h
  | cons ctx outer ih =>
    unfold mergeChain at h
    cases hm : mergeLocConf ctx prev with
    | error e =>
      rw [hm] at h
      cases h
    | ok m1 =>
      rw [hm] at h
      rw [ih h, mergeLocConf_cacheIndex hm, List.map_cons, List.cons_append, nearestIndex_cons]
      simp only [List.headD_cons, Option.or_assoc, Option.some_or]

/-- What the flag of a location is documented to be: the nearest directive, or else
whether the location uses a cache. -/
structure IndexFlag (levels : List Directives) (loc : Context) (flag : Option Bool) : Prop where
  unset : (∀ level ∈ levels, level.cacheIndex = none) → flag = some (locationUsesCache loc)
  set : ∀ b, nearestIndex levels = some b → flag = some b

/-- With an index zone, the flag of a location is right exactly when some level has the
directive, or the outermost merged level uses a cache if and only if the location does. -/
theorem index_default_iff (http : Directives) (outer : List Context) (loc : Context) (m : Merged)
    (hstore : ∀ ctx ∈ outer ++ [loc], ctx.main.storeConfigured = true)
    (hok : mergeChain http.locConf outer loc = .ok m) :
    IndexFlag (levelsOf http outer loc) loc m.conf.cacheIndex ↔
      (∃ level ∈ levelsOf http outer loc, level.cacheIndex ≠ none) ∨
        locationUsesCache (outer.headD loc) = locationUsesCache loc := by
  have hflag : m.conf.cacheIndex = (nearestIndex (levelsOf http outer loc)).or
      (some (locationUsesCache (outer.headD loc))) := by
    have hfirst : (outer.headD loc).main.storeConfigured = true := by
      cases outer with
      | nil => exact hstore loc (List.mem_singleton_self loc)
      | cons ctx outer => exact hstore ctx List.mem_cons_self
    rw [mergeChain_cacheIndex hok, levelsOf, nearestIndex_cons]
    unfold indexDefault
    rw [hfirst, Bool.true_and]
    rfl
  cases hn : nearestIndex (levelsOf http outer loc) with
  | some b =>
    have hsome : ∃ level ∈ levelsOf http outer loc, level.cacheIndex ≠ none := by
      by_contra hnone
      have hall : ∀ level ∈ levelsOf http outer loc, level.cacheIndex = none := by
        intro level hl
        by_contra h
        exact hnone ⟨level, hl, h⟩
      rw [nearestIndex_eq_none.mpr hall] at hn
      exact nomatch hn
    refine ⟨fun _ => Or.inl hsome, fun _ => ⟨fun hall => ?_, fun b' hb' => ?_⟩⟩
    · obtain ⟨level, hl, h⟩ := hsome
      exact absurd (hall level hl) h
    · rw [hflag, hb', Option.some_or]
  | none =>
    have hall := nearestIndex_eq_none.mp hn
    rw [hn, Option.none_or] at hflag
    constructor
    · intro h
      exact Or.inr (Option.some.inj (hflag.symm.trans (h.unset hall)))
    · rintro (⟨level, hl, h⟩ | h)
      · exact absurd (hall level hl) h
      · refine ⟨fun _ => by rw [hflag, h], fun b hb => ?_⟩
        rw [hn] at hb
        exact nomatch hb

/-- A server that uses no cache itself. -/
def plainServer : Context := { sampleServer with directives := sampleLevel [] false }

theorem index_default_iff_sample :
    ∃ m, mergeChain (sampleLevel [] false).locConf [proxyLocation] proxyLocation = .ok m ∧
      (IndexFlag (levelsOf (sampleLevel [] false) [proxyLocation] proxyLocation) proxyLocation
          m.conf.cacheIndex ↔
        (∃ level ∈ levelsOf (sampleLevel [] false) [proxyLocation] proxyLocation,
            level.cacheIndex ≠ none) ∨
          locationUsesCache proxyLocation = locationUsesCache proxyLocation) :=
  ⟨_, rfl, index_default_iff (sampleLevel [] false) [proxyLocation] proxyLocation _ (by decide) rfl⟩

/-- No level has the directive and the location uses a cache, but its flag is off: the
server around it uses none. -/
theorem server_decides_index_default :
    (∀ level ∈ levelsOf (sampleLevel [] false) [plainServer] proxyLocation,
        level.cacheIndex = none) ∧
      locationUsesCache proxyLocation = true ∧
      ∃ m, mergeChain (sampleLevel [] false).locConf [plainServer] proxyLocation = .ok m ∧
        m.conf.cacheIndex = some false ∧
        ¬ IndexFlag (levelsOf (sampleLevel [] false) [plainServer] proxyLocation) proxyLocation
          m.conf.cacheIndex := by
  have hunset : ∀ level ∈ levelsOf (sampleLevel [] false) [plainServer] proxyLocation,
      level.cacheIndex = none := by
    intro level hl
    simp only [levelsOf, List.map_cons, List.map_nil, List.cons_append, List.nil_append, List.mem_cons,
      List.not_mem_nil, or_false] at hl
    rcases hl with rfl | rfl | rfl <;> rfl
  refine ⟨hunset, rfl, _, rfl, rfl, fun h => ?_⟩
  exact absurd (h.unset hunset) (by decide)

end CachePilot
