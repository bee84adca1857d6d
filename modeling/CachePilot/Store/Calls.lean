import CachePilot.Store.Shared

/-!
# The calls of the store

One lemma for each call: from a state with the invariant, what `upsert_file_meta`,
`delete_file` and `set_zone_state` leave as the records of every zone, and when
they leave an entry behind that nothing is linked to.
-/

namespace CachePilot
open NgxString SearchTree

variable {N : Nginx} {s s' s'' : Shm} {za : Addr} {zoneName : Bytes}

/-- The records of the zone that the store finds under a name. -/
def recordsOf (s : Shm) (zoneName : Bytes) : List Record :=
  match lookupZone s zoneName with
  | none => []
  | some za => records s za

theorem recordsOf_some (h : lookupZone s zoneName = some za) :
    recordsOf s zoneName = records s za := by
  unfold recordsOf
  rw [h]

theorem recordsOf_none (h : lookupZone s zoneName = none) : recordsOf s zoneName = [] := by
  unfold recordsOf
  rw [h]

/-- Names that the zone lookup does not tell apart find one zone. -/
theorem lookupZone_congr (s : Shm) {z z' : Bytes} (h : sameZoneName z z' = true) :
    lookupZone s z = lookupZone s z' := by
  unfold lookupZone
  congr 1
  funext za
  rw [Bool.eq_iff_iff]
  constructor
  · intro h1
    exact sameZoneName_trans h1 h
  · intro h1
    rw [sameZoneName_comm] at h
    exact sameZoneName_trans h1 h

theorem recordsOf_congr (s : Shm) {z z' : Bytes} (h : sameZoneName z z' = true) :
    recordsOf s z = recordsOf s z' := by
  unfold recordsOf
  rw [lookupZone_congr s h]

/-! ## Changes -/

/-- A call on the zone `zoneName` that leaves it with the records `rs` and every
other zone as it was. -/
structure Changes (N : Nginx) (s s' : Shm) (zoneName : Bytes) (rs : List Record) : Prop where
  ok : ShmOk N s'
  own : ∀ z, sameZoneName zoneName z = true → recordsOf s' z = rs
  other : ∀ z, ¬ sameZoneName zoneName z = true → recordsOf s' z = recordsOf s z

/-- No entry of the kind is without a link, in any zone. -/
def AllTight (s : Shm) (kind : EntryKind) : Prop := ∀ za ∈ s.zones, Tight s za kind

theorem Changes.refl (h : ShmOk N s) (zoneName : Bytes) :
    Changes N s s zoneName (recordsOf s zoneName) where
  ok := h
  own _ hz := (recordsOf_congr s hz).symm
  other _ _ := rfl

theorem lookupZone_within (hw : Within s s' za) (z : Bytes) : lookupZone s' z = lookupZone s z := by
  unfold lookupZone
  rw [hw.zones]
  congr 1
  funext zb
  rw [ShmOk.names_within hw]

theorem Changes.of_update {rs : List Record} (h : ShmOk N s) (hl : lookupZone s zoneName = some za)
    (hu : Updates N s s' za rs) : Changes N s s' zoneName rs := by
  obtain ⟨hza, hname⟩ := h.lookupZone_some.mp hl
  refine ⟨h.update hza hu, fun z hz => ?_, fun z hz => ?_⟩
  · have hl' : lookupZone s' z = some za := by
      rw [lookupZone_within hu.within, ← lookupZone_congr s hz, hl]
    rw [recordsOf_some hl', hu.records]
  · cases hlz : lookupZone s z with
    | none =>
      rw [recordsOf_none hlz, recordsOf_none ((lookupZone_within hu.within z).trans hlz)]
    | some zb =>
      obtain ⟨hzb, hnb⟩ := h.lookupZone_some.mp hlz
      have hne : zb ≠ za := by
        rintro rfl
        rw [sameZoneName_comm] at hname
        exact hz (sameZoneName_trans hname hnb)
      rw [recordsOf_some hlz, recordsOf_some ((lookupZone_within hu.within z).trans hlz),
        (h.agree hza hzb hne hu.within).records]

/-- An update of one zone leaves the entries of the others linked. -/
theorem AllTight.update {rs : List Record} {kind : EntryKind} (h : ShmOk N s) (hza : za ∈ s.zones)
    (hu : Updates N s s' za rs) (ht : AllTight s kind) (hown : Tight s' za kind) :
    AllTight s' kind := by
  intro zb hzb
  rw [hu.within.zones] at hzb
  by_cases hne : zb = za
  · rw [hne]
    exact hown
  · exact (h.agree hza hzb hne hu.within).tight (ht zb hzb)

/-! ## Zone creation -/

theorem ShmOk.countFailure (h : ShmOk N s) : ShmOk N s.countFailure where
  zonesNodup := h.zonesNodup
  names := h.names
  ok za hza :=
    { toZoneInv := (countFailure_spec 0 (h.ok za hza).toZoneInv).inv
      linked := fun fa hfa => ⟨((h.ok za hza).linked fa hfa).key, ((h.ok za hza).linked fa hfa).tags⟩ }
  disjoint := h.disjoint
  pool := h.pool.of_eq rfl rfl rfl
  live := h.live

/-- A get-or-create finds the zone, makes it, or runs out of memory. -/
theorem getZoneLocked_cases (s : Shm) (ok : Bool) (zoneName : Bytes) :
    (∃ za, lookupZone s zoneName = some za ∧ getZoneLocked ok zoneName true s = (some za, s)) ∨
    lookupZone s zoneName = none ∧ ok = true ∧
      getZoneLocked ok zoneName true s = (some s.next, withZone zoneName s) ∨
    lookupZone s zoneName = none ∧ ok = false ∧
      getZoneLocked ok zoneName true s = (none, s.countFailure) := by
  unfold getZoneLocked
  cases hl : lookupZone s zoneName with
  | some za => exact Or.inl ⟨za, rfl, rfl⟩
  | none =>
    cases ok with
    | true => exact Or.inr (Or.inl ⟨rfl, rfl, rfl⟩)
    | false => exact Or.inr (Or.inr ⟨rfl, rfl, rfl⟩)

theorem lookupZone_withZone (h : ShmOk N s) (hn : lookupZone s zoneName = none) :
    lookupZone (withZone zoneName s) zoneName = some s.next := by
  refine (h.addZone hn).lookupZone_some.mpr ⟨by simp, ?_⟩
  rw [withZone_zone, Function.update_self]
  exact sameZoneName_refl zoneName

/-- A new zone has no records. -/
theorem recordsOf_withZone (h : ShmOk N s) (hn : lookupZone s zoneName = none) (z : Bytes) :
    recordsOf (withZone zoneName s) z = recordsOf s z := by
  have h' := h.addZone hn
  cases hl : lookupZone s z with
  | some zb =>
    obtain ⟨hzb, hnb⟩ := h.lookupZone_some.mp hl
    have ha := withZone_agree h zoneName hzb
    have hl' : lookupZone (withZone zoneName s) z = some zb := by
      refine h'.lookupZone_some.mpr ⟨List.mem_append_left _ hzb, ?_⟩
      rw [ha.zone]
      exact hnb
    rw [recordsOf_some hl, recordsOf_some hl', ha.records]
  | none =>
    rw [recordsOf_none hl]
    cases hl' : lookupZone (withZone zoneName s) z with
    | none => exact recordsOf_none hl'
    | some zb =>
      obtain ⟨hzb, hnb⟩ := h'.lookupZone_some.mp hl'
      rcases List.mem_append.mp hzb with hzb | hzb
      · rw [(withZone_agree h zoneName hzb).zone] at hnb
        exact absurd hnb (ShmOk.lookupZone_none.mp hl zb hzb)
      · rw [recordsOf_some hl', List.mem_singleton.mp hzb]
        unfold records
        rw [withZone_zone, Function.update_self]
        rfl

theorem allTight_withZone {kind : EntryKind} (h : ShmOk N s) (ht : AllTight s kind) :
    AllTight (withZone zoneName s) kind := by
  intro zb hzb
  rcases List.mem_append.mp hzb with hzb | hzb
  · exact (withZone_agree h zoneName hzb).tight (ht zb hzb)
  · rw [List.mem_singleton.mp hzb]
    intro e he
    have hown : (withZone zoneName s).Owns s.next ⟨.entry kind, e⟩ := he
    exact absurd hown (withZone_owns zoneName _)

theorem Changes.of_withZone {rs : List Record} (h : ShmOk N s)
    (hn : lookupZone s zoneName = none) (hc : Changes N (withZone zoneName s) s' zoneName rs) :
    Changes N s s' zoneName rs :=
  ⟨hc.ok, hc.own, fun z hz => (hc.other z hz).trans (recordsOf_withZone h hn z)⟩

/-! ## Upsert -/

/-- What an upsert leaves in its zone. -/
def upserted (rc : NgxRc) (rs : List Record) (path key : Bytes) (tags : List Bytes) : List Record :=
  if rc = .ok then otherRecords rs path ++ [⟨path, key, tags⟩] else otherRecords rs path

/-- No call with these allocations leaves the entry of a tag without a member. -/
def CallTidy (alloc : AllocSite → Bool) (zoneName path key : Bytes) (tags : List Bytes) (s : Shm) :
    Prop :=
  lookupZone s zoneName ≠ none ∨ alloc .zone = true →
    UpsertTidy alloc key tags (otherRecords (recordsOf s zoneName) path)

theorem upsertFileMeta_spec (h : ShmOk N s) (alloc : AllocSite → Bool) (now : Int)
    (zoneName path key : Bytes) (mtime size : Int) (tags : List Bytes) :
    let r := upsertFileMeta N alloc now zoneName path key mtime size tags s
    (r.1 = .ok ∨ r.1 = .error) ∧
    Changes N s r.2 zoneName (upserted r.1 (recordsOf s zoneName) path key tags) ∧
    (AllTight s .key → AllTight r.2 .key) ∧
    (AllTight s .key → AllTight s .tag → CallTidy alloc zoneName path key tags s →
      AllTight r.2 .tag) := by
  intro r
  -- behind the zone lookup, in the state `s1` that it leaves
  have hzone : ∀ {s1 : Shm} {za : Addr}, ShmOk N s1 → lookupZone s1 zoneName = some za →
      r = upsertInZone N alloc now za path key mtime size tags s1 →
      (r.1 = .ok ∨ r.1 = .error) ∧
      Changes N s1 r.2 zoneName (upserted r.1 (recordsOf s1 zoneName) path key tags) ∧
      (AllTight s1 .key → AllTight r.2 .key) ∧
      (AllTight s1 .key → AllTight s1 .tag →
        UpsertTidy alloc key tags (otherRecords (recordsOf s1 zoneName) path) →
        AllTight r.2 .tag) := by
    intro s1 za h1 hl hr
    obtain ⟨hza, -⟩ := h1.lookupZone_some.mp hl
    obtain ⟨hcase, htk, htt⟩ := upsertInZone_spec (h1.ok za hza) alloc now path key mtime size tags
    rw [recordsOf_some hl, hr]
    generalize upsertInZone N alloc now za path key mtime size tags s1 = r' at hcase htk htt
    have hu : Updates N s1 r'.2 za (upserted r'.1 (records s1 za) path key tags) := by
      unfold upserted
      rcases hcase with ⟨hok, hu⟩ | ⟨herr, hu⟩
      · rw [if_pos hok]
        exact hu
      · rw [herr, if_neg (by decide)]
        exact hu
    refine ⟨hcase.imp And.left And.left, Changes.of_update h1 hl hu,
      fun ht => ht.update h1 hza hu (htk (ht za hza)),
      fun ht ht' hno => ht'.update h1 hza hu (htt (ht za hza) (ht' za hza) hno)⟩
  have hr : r = upsertFileMeta N alloc now zoneName path key mtime size tags s := rfl
  unfold upsertFileMeta at hr
  rcases getZoneLocked_cases s (alloc .zone) zoneName with
    ⟨za, hl, hg⟩ | ⟨hl, hok, hg⟩ | ⟨hl, hok, hg⟩
  · rw [hg] at hr
    obtain ⟨hrc, hc, htk, htt⟩ := hzone h hl hr
    refine ⟨hrc, hc, htk, fun ht ht' hno => htt ht ht' (hno (Or.inl ?_))⟩
    rw [hl]
    exact Option.some_ne_none za
  · rw [hg] at hr
    obtain ⟨hrc, hc, htk, htt⟩ := hzone (h.addZone hl) (lookupZone_withZone h hl) hr
    rw [recordsOf_withZone h hl] at hc htt
    exact ⟨hrc, hc.of_withZone h hl, fun ht => htk (allTight_withZone h ht),
      fun ht ht' hno => htt (allTight_withZone h ht) (allTight_withZone h ht') (hno (Or.inr hok))⟩
  · rw [hg] at hr
    rw [hr, recordsOf_none hl]
    have hc := Changes.refl h.countFailure zoneName
    refine ⟨Or.inr rfl, ⟨hc.ok, fun z hz => ?_, fun z hz => rfl⟩, fun ht => ht, fun _ ht _ => ht⟩
    exact (hc.own z hz).trans (recordsOf_none hl)

/-- Tags can be linked when nothing runs out. -/
theorem linkTagsLocked_success (za fa : Addr) (i : Nat) (tags : List Bytes) (s : Shm) :
    (linkTagsLocked N (fun _ => true) za fa i tags s).1 = .ok := by
  induction tags generalizing i s with
  | nil => rfl
  | cons tag tags ih =>
    unfold linkTagsLocked getTagEntryLocked getEntryLocked
    cases lookupEntry N .tag (s.zone za) tag with
    | some e => exact ih (i + 1) _
    | none => exact ih (i + 1) _

/-- An update for which no allocation fails succeeds. -/
theorem upsertFileMeta_success (N : Nginx) (now : Int) (zoneName path key : Bytes)
    (mtime size : Int) (tags : List Bytes) (s : Shm) :
    (upsertFileMeta N (fun _ => true) now zoneName path key mtime size tags s).1 = .ok := by
  -- behind the zone lookup, in the state that it leaves
  have hzone : ∀ za s, (upsertInZone N (fun _ => true) now za path key mtime size tags s).1 = .ok := by
    intro za s
    unfold upsertInZone allocLocked
    simp only [if_true]
    generalize addFile N za _ path key mtime size tags _ = s1
    generalize Shm.next _ = fa
    have hkey : (linkExactKeyLocked N true za fa s1).1 = .ok := by
      unfold linkExactKeyLocked getKeyEntryLocked getEntryLocked allocLocked
      simp only [if_true]
      split
      · rfl
      · cases lookupEntry N .key (s1.zone za) (s1.file fa).key with
        | some e => rfl
        | none => rfl
    generalize linkExactKeyLocked N true za fa s1 = r at hkey
    obtain ⟨rc, s2⟩ := r
    obtain rfl : rc = .ok := hkey
    have htags := linkTagsLocked_success (N := N) za fa 0 tags s2
    simp only
    generalize linkTagsLocked N (fun _ => true) za fa 0 tags s2 = r at htags
    obtain ⟨rc, s3⟩ := r
    obtain rfl : rc = .ok := htags
    rfl
  unfold upsertFileMeta getZoneLocked allocLocked
  cases lookupZone s zoneName with
  | some za => exact hzone za s
  | none => exact hzone _ _

/-! ## Delete -/

theorem deleteFile_spec (h : ShmOk N s) (now : Int) (zoneName path : Bytes) :
    let r := deleteFile N now zoneName path s
    r.1 = .ok ∧ Changes N s r.2 zoneName (otherRecords (recordsOf s zoneName) path) ∧
    ∀ kind, AllTight s kind → AllTight r.2 kind := by
  intro r
  have hr : r = deleteFile N now zoneName path s := rfl
  unfold deleteFile at hr
  -- the two early returns: nothing is there to delete
  have hsame : (∀ r ∈ recordsOf s zoneName, r.path ≠ path) → r = (.ok, s) →
      r.1 = .ok ∧ Changes N s r.2 zoneName (otherRecords (recordsOf s zoneName) path) ∧
      ∀ kind, AllTight s kind → AllTight r.2 kind := by
    intro hno hr
    rw [hr, otherRecords_eq_self hno]
    exact ⟨rfl, Changes.refl h zoneName, fun _ ht => ht⟩
  cases hl : lookupZone s zoneName with
  | none =>
    rw [hl] at hr
    refine hsame ?_ hr
    rw [recordsOf_none hl]
    exact fun _ hr => absurd hr List.not_mem_nil
  | some za =>
    rw [hl] at hr
    obtain ⟨hza, -⟩ := h.lookupZone_some.mp hl
    have hz := h.ok za hza
    cases hf : lookupFile N (s.zone za) path with
    | none =>
      simp only [hf] at hr
      refine hsame ?_ hr
      rw [recordsOf_some hl]
      intro r hr
      obtain ⟨fa, hfa, rfl⟩ := List.mem_map.mp hr
      exact hz.path.lookupFile_none.mp hf fa hfa
    | some fa =>
      simp only [hf] at hr
      obtain ⟨hfa, rfl⟩ := hz.path.lookupFile_some.mp hf
      have hu := removeFileLocked_updates hz hfa
      have ht := touchZoneLocked_spec 0 hu.ok.toZoneInv now
      have hu' := hu.touch h.pool now
      rw [hr, recordsOf_some hl]
      refine ⟨rfl, Changes.of_update h hl hu', fun kind h0 => h0.update h hza hu' ?_⟩
      exact ht.tight kind ((removeFileLocked_spec hz.toZoneInv hfa).1.tight kind (h0 za hza))

/-! ## Zone state -/

/-- Marking a zone leaves all records as they are. -/
theorem setZoneState_spec (h : ShmOk N s) (ok : Bool) (now : Int) (zoneName : Bytes)
    (state : ZoneState) :
    let r := setZoneState ok now zoneName state s
    Changes N s r.2 zoneName (recordsOf s zoneName) ∧ ∀ kind, AllTight s kind → AllTight r.2 kind := by
  intro r
  -- behind the zone lookup, in the state `s1` that it leaves
  have hzone : ∀ {s1 : Shm} {za : Addr} (state : ZoneState), ShmOk N s1 →
      lookupZone s1 zoneName = some za →
      let s2 := s1.setZone za
        { s1.zone za with
          bootstrapComplete := state.bootstrapComplete
          lastBootstrapAt := state.lastBootstrapAt
          lastUpdatedAt := state.lastUpdatedAt }
      Changes N s1 s2 zoneName (recordsOf s1 zoneName) ∧ ∀ kind, AllTight s1 kind → AllTight s2 kind := by
    intro s1 za state h1 hl s2
    obtain ⟨hza, -⟩ := h1.lookupZone_some.mp hl
    have hu : Updates N s1 s1 za (records s1 za) :=
      ⟨h1.ok za hza, Within.refl N (h1.ok za hza).toZoneInv, rfl⟩
    have hu' : Updates N s1 s2 za (records s1 za) := hu.setZone h1.pool rfl rfl rfl rfl
    have ht : Tidy N s1 s2 za 0 := setZone_spec 0 (h1.ok za hza).toZoneInv rfl rfl rfl rfl
    rw [recordsOf_some hl]
    exact ⟨Changes.of_update h1 hl hu', fun kind h0 =>
      h0.update h1 hza hu' (ht.tight kind (h0 za hza))⟩
  have hr : r = setZoneState ok now zoneName state s := rfl
  unfold setZoneState at hr
  rcases getZoneLocked_cases s ok zoneName with ⟨za, hl, hg⟩ | ⟨hl, -, hg⟩ | ⟨hl, -, hg⟩
  · rw [hg] at hr
    rw [hr]
    exact hzone (normalizeZoneState now state) h hl
  · rw [hg] at hr
    rw [hr]
    obtain ⟨hc, ht⟩ := hzone (normalizeZoneState now state) (h.addZone hl) (lookupZone_withZone h hl)
    rw [recordsOf_withZone h hl] at hc
    exact ⟨hc.of_withZone h hl, fun kind h0 => ht kind (allTight_withZone h h0)⟩
  · rw [hg] at hr
    rw [hr]
    have hc := Changes.refl h.countFailure zoneName
    exact ⟨⟨hc.ok, hc.own, fun z _ => rfl⟩, fun _ ht => ht⟩

end CachePilot
