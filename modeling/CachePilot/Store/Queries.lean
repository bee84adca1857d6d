import CachePilot.Store.Calls

/-!
# The queries of the store

The three collect functions walk three different structures. On a state with the
invariant each is a function of the records of the zone: `exactQuery`,
`tagQuery` and `prefixQuery`, which select paths and hand them to the same
`pushPaths`.
-/

namespace CachePilot
open NgxString SearchTree

variable {N : Nginx} {s : Shm} {za : Addr} {pool : PoolSite → Bool}

/-! ## Queries of records -/

/-- The paths whose key is `key`; the empty key is not indexed. -/
def keyedPaths (rs : List Record) (key : Bytes) : List Bytes :=
  if key = [] then [] else (rs.filter fun r => r.key = key).map Record.path

/-- A path for each time that the tag is in the tag list of its record. -/
def taggedPaths (rs : List Record) (tag : Bytes) : List Bytes :=
  rs.flatMap fun r => (r.tags.filter fun t => t = tag).map fun _ => r.path

/-- The paths whose key passes the filter of the prefix query. -/
def prefixedPaths (rs : List Record) (pre : Bytes) : List Bytes :=
  (rs.filter fun r => keyHasPrefix r.key pre).map Record.path

def exactQuery (pool : PoolSite → Bool) (rs : List Record) (key : Bytes) : Option (List Bytes) :=
  if pool .array then pushPaths pool [] (keyedPaths rs key) else none

def tagQuery (pool : PoolSite → Bool) (rs : List Record) (tags : List Bytes) :
    Option (List Bytes) :=
  if pool .array then
    tags.foldlM (fun result tag => pushPaths pool result (taggedPaths rs tag)) []
  else none

def prefixQuery (pool : PoolSite → Bool) (rs : List Record) (pre : Bytes) : Option (List Bytes) :=
  if pool .array then pushPaths pool [] (prefixedPaths rs pre) else none

theorem pushPaths_nil (paths : List Bytes) : pushPaths pool paths [] = some paths := rfl

/-! ## What the queues of the entries hold -/

/-- The queue of a key entry lists the files of its key. -/
theorem ZoneOk.key_queue (h : ZoneOk N s za) {e : Addr} (he : e ∈ s.entryAddrs za .key)
    (hne : (s.entry .key e).str ≠ []) :
    (s.entry .key e).files.map (fun fa => (s.file fa).path) =
      keyedPaths (records s za) (s.entry .key e).str := by
  have hb := (h.index .key).block _ (h.entry_node he)
  simp only at hb
  have hq : (s.entry .key e).files = queueOf (s.links za .key) e := congrArg ShmEntry.files hb
  have hsel : queueOf (s.links za .key) e =
      (s.zone za).files.filter fun fa => (s.file fa).key = (s.entry .key e).str := by
    have hfilter : ∀ l : List Addr, (∀ fa ∈ l, fa ∈ (s.zone za).files) →
        queueOf (keyLinksOf s.file l) e =
          l.filter fun fa => (s.file fa).key = (s.entry .key e).str := by
      intro l hl
      induction l with
      | nil => rfl
      | cons fa l ih =>
        have hfa := hl fa List.mem_cons_self
        have ih' := ih fun fb hfb => hl fb (List.mem_cons_of_mem _ hfb)
        unfold queueOf keyLinksOf at ih' ⊢
        cases hk : (s.file fa).keyEntry with
        | none =>
          -- a file without a key entry has the empty key
          have hempty := (h.linked fa hfa).key.mp hk
          have hno : ¬ (s.file fa).key = (s.entry .key e).str := fun h0 => hne (h0 ▸ hempty)
          simp [hk, hno, ih']
        | some e' =>
          have hiff : e' = e ↔ (s.file fa).key = (s.entry .key e).str := by
            have hstr := h.keyStr fa hfa e' hk
            have he' : e' ∈ s.entryAddrs za .key :=
              (h.index .key).linked (fa, e') (mem_keyLinksOf.mpr ⟨hfa, hk⟩)
            constructor
            · rintro rfl
              exact hstr.symm
            · intro hs
              have hn := (h.index .key).node_of_str (h.entry_node he') (h.entry_node he)
                (hstr.trans hs)
              exact congrArg RbNode.addr hn
          by_cases hee : e' = e
          · simp [hk, hee, hiff.mp hee, ih']
          · have hno : ¬ (s.file fa).key = (s.entry .key e).str := fun h0 => hee (hiff.mpr h0)
            simp [hk, hee, hno, ih']
    exact hfilter _ fun _ hfa => hfa
  rw [hq, hsel]
  unfold keyedPaths records
  rw [if_neg hne, List.filter_map, List.map_map]
  rfl

/-- The queue of a tag entry lists the files of its tag, once for each time. -/
theorem ZoneOk.tag_queue (h : ZoneOk N s za) {e : Addr} (he : e ∈ s.entryAddrs za .tag) :
    (s.entry .tag e).files.map (fun m => (s.file (s.member m).file).path) =
      taggedPaths (records s za) (s.entry .tag e).str := by
  have hb := (h.index .tag).block _ (h.entry_node he)
  simp only at hb
  have hq : (s.entry .tag e).files = queueOf (s.links za .tag) e := congrArg ShmEntry.files hb
  have hqueue : queueOf (s.links za .tag) e =
      (s.members za).filter fun m => (s.member m).tagEntry = e := by
    unfold queueOf Shm.links tagLinksOf
    rw [List.filter_map, List.map_map]
    exact List.map_id _
  rw [hq, hqueue]
  unfold taggedPaths records Shm.members membersOf
  rw [List.filter_flatMap, List.map_flatMap, List.flatMap_map]
  refine List.flatMap_congr fun fa hfa => ?_
  -- inside one file: its members lead to its tags in order, and all back to it
  have htags : (s.file fa).record.tags = tagStrs s fa := (h.linked fa hfa).tags.symm
  rw [htags]
  unfold tagStrs
  rw [List.filter_map, List.map_map]
  have hsel : ((s.file fa).tagMembers.filter fun m => decide ((s.member m).tagEntry = e)) =
      (s.file fa).tagMembers.filter
        ((fun t => decide (t = (s.entry .tag e).str)) ∘
          fun m => (s.entry .tag (s.member m).tagEntry).str) := by
    refine List.filter_congr fun m hm => ?_
    have hin : m ∈ s.members za := mem_membersOf.mpr ⟨fa, hfa, hm⟩
    have he' : (s.member m).tagEntry ∈ s.entryAddrs za .tag :=
      (h.index .tag).linked (m, _) (List.mem_map.mpr ⟨m, hin, rfl⟩)
    simp only [Function.comp_apply, decide_eq_decide]
    constructor
    · intro h0
      rw [h0]
    · intro hs
      exact congrArg RbNode.addr
        ((h.index .tag).node_of_str (h.entry_node he') (h.entry_node he) hs)
  rw [hsel]
  refine List.map_congr_left fun m hm => ?_
  rw [h.memberFile fa hfa m (List.mem_filter.mp hm).1]
  rfl

/-! ## The collect functions -/

theorem lookupEntry_some (h : ZoneOk N s za) {kind : EntryKind} {str : Bytes} {e : Addr}
    (hl : lookupEntry N kind (s.zone za) str = some e) :
    e ∈ s.entryAddrs za kind ∧ (s.entry kind e).str = str := by
  unfold lookupEntry at hl
  obtain ⟨n, hn, rfl⟩ := Option.map_eq_some_iff.mp hl
  obtain ⟨hmem, hs⟩ := (h.index kind).lookup_some.mp hn
  refine ⟨List.mem_map_of_mem hmem, ?_⟩
  rw [(h.index kind).block n hmem]
  exact hs

theorem lookupEntry_none (h : ZoneOk N s za) {kind : EntryKind} {str : Bytes}
    (hl : lookupEntry N kind (s.zone za) str = none) : ¬ HasEntry s za kind str := by
  unfold lookupEntry at hl
  rw [Option.map_eq_none_iff] at hl
  rintro ⟨n, hn, hs⟩
  exact (h.index kind).lookup_none.mp hl n hn hs

theorem ZoneOk.keyedPaths_nil (h : ZoneOk N s za) {k : Bytes} (hn : ¬ HasEntry s za .key k) :
    keyedPaths (records s za) k = [] := by
  unfold keyedPaths
  by_cases hk : k = []
  · rw [if_pos hk]
  rw [if_neg hk, List.map_eq_nil_iff, List.filter_eq_nil_iff]
  intro r hr hrk
  obtain ⟨fa, hfa, rfl⟩ := List.mem_map.mp hr
  have hkey : (s.file fa).key = k := of_decide_eq_true hrk
  cases he : (s.file fa).keyEntry with
  | none => exact hk (hkey.symm.trans ((h.linked fa hfa).key.mp he))
  | some e =>
    refine hn (h.hasEntry_iff.mpr ⟨e, ?_, (h.keyStr fa hfa e he).trans hkey⟩)
    exact (h.index .key).linked (fa, e) (mem_keyLinksOf.mpr ⟨hfa, he⟩)

theorem ZoneOk.taggedPaths_nil (h : ZoneOk N s za) {t : Bytes} (hn : ¬ HasEntry s za .tag t) :
    taggedPaths (records s za) t = [] := by
  unfold taggedPaths
  rw [List.flatMap_eq_nil_iff]
  intro r hr
  obtain ⟨fa, hfa, rfl⟩ := List.mem_map.mp hr
  rw [List.map_eq_nil_iff, List.filter_eq_nil_iff]
  intro t' ht' heq
  have ht : t ∈ (s.file fa).tags := (of_decide_eq_true heq : t' = t) ▸ ht'
  rw [← (h.linked fa hfa).tags] at ht
  obtain ⟨m, hm, hs⟩ := List.mem_map.mp ht
  have hin : m ∈ s.members za := mem_membersOf.mpr ⟨fa, hfa, hm⟩
  exact hn (h.hasEntry_iff.mpr
    ⟨_, (h.index .tag).linked (m, _) (List.mem_map.mpr ⟨m, hin, rfl⟩), hs⟩)

theorem collectPathsByExactKey_eq (h : ShmOk N s) (ht : AllTight s .key) (zoneName k : Bytes) :
    collectPathsByExactKey N pool s zoneName k = exactQuery pool (recordsOf s zoneName) k := by
  unfold collectPathsByExactKey exactQuery
  cases hl : lookupZone s zoneName with
  | none =>
    have hnil : keyedPaths [] k = [] := ite_self _
    rw [recordsOf_none hl, hnil]
    rfl
  | some za =>
    have hza := (h.lookupZone_some.mp hl).1
    have hz := h.ok za hza
    rw [recordsOf_some hl]
    unfold lookupKeyEntry
    cases he : lookupEntry N .key (s.zone za) k with
    | none => simp only [he, hz.keyedPaths_nil (lookupEntry_none hz he), pushPaths_nil]
    | some e =>
      obtain ⟨hmem, rfl⟩ := lookupEntry_some hz he
      have hk := ((hz.hasEntry_key (ht za hza) _).mp (hz.hasEntry_iff.mpr ⟨e, hmem, rfl⟩)).1
      simp only [he, hz.key_queue hmem hk]

theorem collectPathsByTags_eq (h : ShmOk N s) (zoneName : Bytes) (tags : List Bytes) :
    collectPathsByTags N pool s zoneName tags = tagQuery pool (recordsOf s zoneName) tags := by
  unfold collectPathsByTags tagQuery
  cases hl : lookupZone s zoneName with
  | none =>
    rw [recordsOf_none hl]
    have hnil : ∀ result, tags.foldlM
        (fun result tag => pushPaths pool result (taggedPaths [] tag)) result = some result := by
      intro result
      induction tags with
      | nil => rfl
      | cons t tags ih => exact ih
    rw [hnil]
  | some za =>
    have hz := h.ok za (h.lookupZone_some.mp hl).1
    rw [recordsOf_some hl]
    refine congrArg (fun turn => if pool .array then tags.foldlM turn [] else none) ?_
    funext result tag
    unfold lookupTagEntry
    cases he : lookupEntry N .tag (s.zone za) tag with
    | none => simp only [hz.taggedPaths_nil (lookupEntry_none hz he), pushPaths_nil]
    | some e =>
      obtain ⟨hmem, rfl⟩ := lookupEntry_some hz he
      simp only [hz.tag_queue hmem]

theorem collectPathsByKeyPrefix_eq (zoneName pre : Bytes) :
    collectPathsByKeyPrefix pool s zoneName pre = prefixQuery pool (recordsOf s zoneName) pre := by
  unfold collectPathsByKeyPrefix prefixQuery
  cases hl : lookupZone s zoneName with
  | none =>
    rw [recordsOf_none hl]
    rfl
  | some za =>
    rw [recordsOf_some hl]
    simp only
    unfold prefixedPaths records
    rw [List.filter_map, List.map_map]
    rfl

end CachePilot
