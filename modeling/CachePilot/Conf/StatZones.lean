import CachePilot.Conf.Directives
import CachePilot.Lib.KeepFirst

/-!
# The zones of the metrics endpoint

`ngx_http_cache_pilot_stats_conf` and `ngx_http_cache_pilot_stats_add_caches`: a location with
`cache_pilot_stats` shows the caches that the protocols know when the directive is read, or those
of them that it names.

Results:
* `stats_zones_iff`: which caches the location shows, and in which order.
-/

namespace CachePilot
open NgxString KeepFirst

/-! ## The directive -/

/-- `ngx_http_file_cache_t`, by its address, with the name of its shared memory zone if it has
one. -/
structure CacheOfProtocol where
  cache : Nat
  shmName : Option Bytes

/-- `ngx_http_cache_pilot_stat_zone_t`. -/
structure NamedCache where
  name : Bytes
  cache : Nat
deriving DecidableEq, Repr

/-- Whether one of the words names the zone. -/
def filterNames (filters : List Bytes) (name : Bytes) : Bool :=
  filters.any fun f => f.length == name.length && ngxStrncmp f name f.length == 0

/-- `ngx_http_cache_pilot_stats_add_caches`; a missing cache is a null pointer of the array, and
`push` tells whether the list of zones can take one more. -/
def statsAddCaches (push : Nat → Bool) (filters : List Bytes) :
    List NamedCache → List (Option CacheOfProtocol) → Option (List NamedCache)
  | zones, [] => some zones
  | zones, none :: caches => statsAddCaches push filters zones caches
  | zones, some ⟨_, none⟩ :: caches => statsAddCaches push filters zones caches
  | zones, some ⟨cache, some name⟩ :: caches =>
    if zones.any fun z => z.cache == cache then statsAddCaches push filters zones caches
    else if !filters.isEmpty && !filterNames filters name then statsAddCaches push filters zones caches
    else if push zones.length then statsAddCaches push filters (zones ++ [⟨name, cache⟩]) caches
    else none

/-- The caches of the protocols, one after the other; a protocol without a main configuration
has none. -/
def addProtocols (push : Nat → Bool) (filters : List Bytes)
    (caches : Protocol → Option (List (Option CacheOfProtocol))) :
    List NamedCache → List Protocol → Option (List NamedCache)
  | zones, [] => some zones
  | zones, p :: ps =>
    match caches p with
    | none => addProtocols push filters caches zones ps
    | some list =>
      match statsAddCaches push filters zones list with
      | none => none
      | some zones => addProtocols push filters caches zones ps

/-- `ngx_http_cache_pilot_stats_conf`: `current` is the list of the location so far, and `alloc`
tells whether a new one can be allocated. -/
def statsConf (alloc : Bool) (push : Nat → Bool) (filters : List Bytes)
    (caches : Protocol → Option (List (Option CacheOfProtocol))) (current : Option (List NamedCache)) :
    Except DirectiveError (List NamedCache) :=
  if current.isSome then .error .duplicate
  else if !alloc then .error .failed
  else
    match addProtocols push filters caches [] protocols with
    | some zones => .ok zones
    | none => .error .failed

/-! ## What the location shows -/

/-- The zones that an array of caches offers. -/
def offered (list : List (Option CacheOfProtocol)) : List NamedCache :=
  list.filterMap fun entry => entry.bind fun c => c.shmName.map fun name => ⟨name, c.cache⟩

/-- All that the protocols offer, in their order. -/
def allOffered (caches : Protocol → Option (List (Option CacheOfProtocol))) (ps : List Protocol) :
    List NamedCache :=
  ps.flatMap fun p => offered ((caches p).getD [])

/-- The zones that the words of the directive admit. -/
def Admits (filters : List Bytes) (name : Bytes) : Prop :=
  filters = [] ∨ ∃ f ∈ filters, f.length = name.length ∧ cstr f = cstr name

/-- The same, as the code decides it. -/
def admits (filters : List Bytes) (z : NamedCache) : Bool := filters.isEmpty || filterNames filters z.name

variable {push : Nat → Bool} {filters : List Bytes} {zones zones' : List NamedCache} {z : NamedCache}
  {list : List (Option CacheOfProtocol)} {caches : Protocol → Option (List (Option CacheOfProtocol))}
  {ps : List Protocol}

theorem admits_iff : admits filters z = true ↔ Admits filters z.name := by
  unfold admits Admits filterNames
  rw [Bool.or_eq_true, List.isEmpty_iff, List.any_eq_true]
  refine or_congr_right (exists_congr fun f => and_congr_right fun _ => ?_)
  rw [Bool.and_eq_true, beq_iff_eq, beq_iff_eq]
  refine and_congr_right fun hlen => ?_
  rw [ngxStrncmp_eq_zero (Nat.le_refl _) (Nat.le_of_eq hlen), List.take_length,
    List.take_of_length_le (Nat.le_of_eq hlen.symm)]

/-- The list with the zones that join it. -/
abbrev joined (filters : List Bytes) (zones offers : List NamedCache) : List NamedCache :=
  keepAll NamedCache.cache none zones (offers.filter (admits filters))

/-- The zones after those of `zones` have been pushed. -/
def Pushed (push : Nat → Bool) (zones zones' : List NamedCache) : Prop :=
  ∀ k, zones.length ≤ k → k < zones'.length → push k = true

theorem joined_cons (offers : List NamedCache) :
    joined filters zones (z :: offers) =
      if admits filters z then joined filters (keep NamedCache.cache none zones z) offers
      else joined filters zones offers := by
  unfold joined
  rw [List.filter_cons]
  split
  · exact keepAll_cons
  · rfl

theorem keep_found (hfound : (zones.any fun z' => z'.cache == z.cache) = true) :
    keep NamedCache.cache none zones z = zones := by
  obtain ⟨z', hz', hcache⟩ := List.any_eq_true.mp hfound
  exact if_pos (Or.inr (List.mem_map.mpr ⟨z', hz', beq_iff_eq.mp hcache⟩))

theorem keep_new (hfound : ¬ (zones.any fun z' => z'.cache == z.cache) = true) :
    keep NamedCache.cache none zones z = zones ++ [z] := by
  refine if_neg ?_
  rintro (hfull | hmem)
  · exact nomatch hfull
  · obtain ⟨z', hz', hcache⟩ := List.mem_map.mp hmem
    exact hfound (List.any_eq_true.mpr ⟨z', hz', beq_iff_eq.mpr hcache⟩)

theorem pushed_concat (push : Nat → Bool) (z : NamedCache) (hlt : zones.length < zones'.length) :
    Pushed push zones zones' ↔ push zones.length = true ∧ Pushed push (zones ++ [z]) zones' := by
  have hlen : (zones ++ [z]).length = zones.length + 1 := List.length_append
  unfold Pushed
  rw [hlen]
  constructor
  · intro h
    exact ⟨h zones.length (Nat.le_refl _) hlt, fun k hle hk => h k (Nat.le_of_succ_le hle) hk⟩
  · rintro ⟨hfirst, hrest⟩ k hle hk
    rcases Nat.eq_or_lt_of_le hle with rfl | hlater
    · exact hfirst
    · exact hrest k hlater hk

theorem pushed_trans (push : Nat → Bool) {middle : List NamedCache}
    (hfirst : zones.length ≤ middle.length) (hsecond : middle.length ≤ zones'.length) :
    Pushed push zones zones' ↔ Pushed push zones middle ∧ Pushed push middle zones' := by
  constructor
  · intro h
    exact ⟨fun k hle hk => h k hle (Nat.lt_of_lt_of_le hk hsecond),
      fun k hle hk => h k (Nat.le_trans hfirst hle) hk⟩
  · rintro ⟨h1, h2⟩ k hle hk
    rcases Nat.lt_or_ge k middle.length with hlt | hge
    · exact h1 k hle hlt
    · exact h2 k hge hk

/-- The caches of a protocol join the list if they are admitted and new; only a push can fail. -/
theorem statsAddCaches_iff : statsAddCaches push filters zones list = some zones' ↔
    Pushed push zones zones' ∧ zones' = joined filters zones (offered list) := by
  induction list generalizing zones with
  | nil =>
    constructor
    · intro h
      obtain rfl := Option.some.inj h
      exact ⟨fun k hle hlt => absurd hlt (Nat.not_lt.mpr hle), rfl⟩
    · rintro ⟨-, rfl⟩
      rfl
  | cons entry list ih =>
    match entry with
    | none => exact ih
    | some ⟨_, none⟩ => exact ih
    | some ⟨cache, some name⟩ =>
      have hoffered : offered (some ⟨cache, some name⟩ :: list) = ⟨name, cache⟩ :: offered list := rfl
      rw [hoffered, joined_cons]
      unfold statsAddCaches
      split
      · next hfound =>
        rw [ih, keep_found hfound, ite_self]
      · next hfound =>
        rw [keep_new hfound]
        have hadmits : (!filters.isEmpty && !filterNames filters name) = !admits filters ⟨name, cache⟩ := by
          unfold admits
          rw [Bool.not_or]
        rw [hadmits]
        cases hadmitted : admits filters ⟨name, cache⟩ with
        | false => exact ih
        | true =>
          simp only [Bool.not_true, Bool.false_eq_true, if_false, if_true]
          have hlt : ∀ zones', zones' = joined filters (zones ++ [⟨name, cache⟩]) (offered list) →
              zones.length < zones'.length := by
            rintro _ rfl
            refine Nat.lt_of_lt_of_le ?_ (prefix_keepAll (zones ++ [⟨name, cache⟩]) _).length_le
            rw [List.length_append]
            exact Nat.lt_succ_self zones.length
          have hpushed := and_congr_left fun heq : zones' = _ =>
            pushed_concat push ⟨name, cache⟩ (hlt zones' heq)
          rw [hpushed]
          cases push zones.length with
          | true => simp only [if_true, ih, true_and]
          | false => simp

theorem joined_append (offers offers' : List NamedCache) :
    joined filters zones (offers ++ offers') = joined filters (joined filters zones offers) offers' := by
  unfold joined
  rw [List.filter_append, keepAll_append]

theorem addProtocols_iff : addProtocols push filters caches zones ps = some zones' ↔
    Pushed push zones zones' ∧ zones' = joined filters zones (allOffered caches ps) := by
  induction ps generalizing zones with
  | nil =>
    constructor
    · intro h
      obtain rfl := Option.some.inj h
      exact ⟨fun k hle hlt => absurd hlt (Nat.not_lt.mpr hle), rfl⟩
    · rintro ⟨-, rfl⟩
      rfl
  | cons p ps ih =>
    have hcons : allOffered caches (p :: ps) = offered ((caches p).getD []) ++ allOffered caches ps := rfl
    rw [hcons, joined_append]
    unfold addProtocols
    cases hcaches : caches p with
    | none => exact ih
    | some list =>
      simp only [Option.getD_some]
      have hfirst : zones.length ≤ (joined filters zones (offered list)).length :=
        (prefix_keepAll zones _).length_le
      have hsecond : ∀ zones', zones' = joined filters (joined filters zones (offered list)) (allOffered caches ps) →
          (joined filters zones (offered list)).length ≤ zones'.length := by
        rintro _ rfl
        exact (prefix_keepAll (joined filters zones (offered list)) _).length_le
      rw [and_congr_left fun heq : zones' = _ => pushed_trans push hfirst (hsecond zones' heq)]
      constructor
      · intro h
        cases hadd : statsAddCaches push filters zones list with
        | none =>
          rw [hadd] at h
          exact nomatch h
        | some middle =>
          obtain ⟨hpushed, rfl⟩ := statsAddCaches_iff.mp hadd
          rw [hadd] at h
          obtain ⟨hrest, hzones⟩ := ih.mp h
          exact ⟨⟨hpushed, hrest⟩, hzones⟩
      · rintro ⟨⟨hpushed, hrest⟩, hzones⟩
        rw [statsAddCaches_iff.mpr ⟨hpushed, rfl⟩]
        exact ih.mpr ⟨hrest, hzones⟩

/-- The directive is taken once in a location, as long as memory lasts. The location shows each
cache once, in the order of the protocols and of their caches, and it shows a cache exactly
when it has a zone, and the directive names no zone or this one. -/
theorem stats_zones_iff (alloc : Bool) (push : Nat → Bool) (filters : List Bytes)
    (caches : Protocol → Option (List (Option CacheOfProtocol))) (current : Option (List NamedCache))
    (zones : List NamedCache) :
    (statsConf alloc push filters caches current = .ok zones ↔
      current = none ∧ alloc = true ∧ (∀ k < zones.length, push k = true) ∧
        zones = firsts NamedCache.cache ((allOffered caches protocols).filter (admits filters))) ∧
    (statsConf alloc push filters caches current = .ok zones →
      (zones.map NamedCache.cache).Nodup ∧ ∀ cache, cache ∈ zones.map NamedCache.cache ↔
        ∃ z ∈ allOffered caches protocols, z.cache = cache ∧ Admits filters z.name) := by
  have hjoined : ∀ offers, joined filters [] offers = firsts NamedCache.cache (offers.filter (admits filters)) := by
    intro offers
    unfold joined
    rw [keepAll_eq_all_firsts, List.nil_append]
    exact List.filter_eq_self.mpr fun z _ => by simp
  have hok : statsConf alloc push filters caches current = .ok zones ↔
      current = none ∧ alloc = true ∧ (∀ k < zones.length, push k = true) ∧
        zones = joined filters [] (allOffered caches protocols) := by
    have hadd : addProtocols push filters caches [] protocols = some zones ↔
        (∀ k < zones.length, push k = true) ∧ zones = joined filters [] (allOffered caches protocols) := by
      rw [addProtocols_iff]
      exact and_congr_left fun _ => forall_congr' fun k => forall_prop_of_true (Nat.zero_le k)
    rw [← hadd]
    unfold statsConf
    cases current with
    | some list => exact iff_of_false (nomatch ·) fun h => nomatch h.1
    | none =>
      cases alloc with
      | false => exact iff_of_false (nomatch ·) fun h => nomatch h.2.1
      | true =>
        cases addProtocols push filters caches [] protocols with
        | none => exact iff_of_false (nomatch ·) fun h => nomatch h.2.2
        | some shown =>
          constructor
          · intro h
            exact ⟨rfl, rfl, congrArg some (Except.ok.inj h)⟩
          · rintro ⟨-, -, h⟩
            exact congrArg Except.ok (Option.some.inj h)
  refine ⟨by rw [hok, hjoined], fun h => ?_⟩
  obtain ⟨-, -, -, rfl⟩ := hok.mp h
  refine ⟨nodup_keepAll List.nodup_nil, fun cache => ?_⟩
  rw [mem_map_keepAll]
  simp only [List.map_nil, List.not_mem_nil, false_or, List.mem_map, List.mem_filter, admits_iff]
  exact exists_congr fun z => by rw [and_assoc, and_comm (a := z.cache = cache)]

end CachePilot
