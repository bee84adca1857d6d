import CachePilot.Store.Update

/-!
# The invariant of the index zone

`ShmOk` says that every zone of the index zone is intact, that no two zones share
a block, and that the slab pool holds nothing else: a block is live exactly when
it is a zone struct of the queue or a zone leads to it. It is an invariant of
every call of the store.
-/

namespace CachePilot
open NgxString SearchTree

variable {N : Nginx} {s s' : Shm} {za zb : Addr}

/-! ## Zone names -/

theorem sameZoneName_iff {name zoneName : Bytes} :
    sameZoneName name zoneName = true ↔
      name.length = zoneName.length ∧ cstr name = cstr zoneName := by
  unfold sameZoneName
  rw [Bool.and_eq_true, beq_iff_eq, beq_iff_eq]
  refine and_congr_right fun hl => ?_
  rw [ngxStrncmp_eq_zero (Nat.le_of_eq hl.symm) (Nat.le_refl _), List.take_length,
    List.take_of_length_le (Nat.le_of_eq hl)]

theorem sameZoneName_refl (name : Bytes) : sameZoneName name name = true :=
  sameZoneName_iff.mpr ⟨rfl, rfl⟩

theorem sameZoneName_comm (a b : Bytes) : sameZoneName a b = sameZoneName b a := by
  rw [Bool.eq_iff_iff, sameZoneName_iff, sameZoneName_iff]
  exact and_congr eq_comm eq_comm

theorem sameZoneName_trans {a b c : Bytes} (h : sameZoneName a b = true)
    (h' : sameZoneName b c = true) : sameZoneName a c = true := by
  rw [sameZoneName_iff] at *
  exact ⟨h.1.trans h'.1, h.2.trans h'.2⟩

/-- Whether two zones bear one name. -/
def SameName (s : Shm) (za zb : Addr) : Prop := sameZoneName (s.zone za).name (s.zone zb).name

/-! ## Zones that a step does not work on -/

/-- Everything that the zone at `zb` leads to is the same in `s'`. -/
structure Agree (s s' : Shm) (zb : Addr) : Prop where
  zone : s'.zone zb = s.zone zb
  file : ∀ fa ∈ (s.zone zb).files, s'.file fa = s.file fa
  entry : ∀ kind, ∀ e ∈ s.entryAddrs zb kind, s'.entry kind e = s.entry kind e
  member : ∀ m ∈ s.members zb, s'.member m = s.member m

namespace Agree

theorem entryAddrs (h : Agree s s' zb) (kind : EntryKind) :
    s'.entryAddrs zb kind = s.entryAddrs zb kind := by
  unfold Shm.entryAddrs
  rw [h.zone]

theorem members (h : Agree s s' zb) : s'.members zb = s.members zb := by
  unfold Shm.members
  rw [h.zone]
  exact membersOf_congr fun fa hfa => by rw [h.file fa hfa]

theorem links (h : Agree s s' zb) (kind : EntryKind) : s'.links zb kind = s.links zb kind := by
  cases kind with
  | key =>
    unfold Shm.links
    rw [h.zone]
    exact keyLinksOf_congr fun fa hfa => by rw [h.file fa hfa]
  | tag =>
    unfold Shm.links
    rw [h.members]
    exact List.map_congr_left fun m hm => by rw [h.member m hm]

theorem owns (h : Agree s s' zb) (b : Block) : s'.Owns zb b ↔ s.Owns zb b := by
  obtain ⟨k, a⟩ := b
  cases k with
  | zone => exact Iff.rfl
  | file => simp only [Shm.Owns, h.zone]
  | entry kind => simp only [Shm.Owns, h.entryAddrs]
  | tagMember => simp only [Shm.Owns, h.members]

theorem records (h : Agree s s' zb) : records s' zb = records s zb := by
  unfold CachePilot.records
  rw [h.zone]
  exact List.map_congr_left fun fa hfa => by rw [h.file fa hfa]

theorem tight (h : Agree s s' zb) {kind : EntryKind} (ht : Tight s zb kind) : Tight s' zb kind := by
  intro e he
  rw [h.links]
  rw [h.entryAddrs] at he
  exact ht e he

theorem tagStrs (h : Agree s s' zb) (hz : ZoneInv N s zb) {fa : Addr}
    (hfa : fa ∈ (s.zone zb).files) : tagStrs s' fa = tagStrs s fa := by
  unfold CachePilot.tagStrs
  rw [h.file fa hfa]
  refine List.map_congr_left fun m hm => ?_
  have hin : m ∈ s.members zb := mem_membersOf.mpr ⟨fa, hfa, hm⟩
  rw [h.member m hin, h.entry .tag _ ((hz.index .tag).linked (m, _) (List.mem_map.mpr ⟨m, hin, rfl⟩))]

/-- The zone keeps its invariant when its blocks stay live. -/
theorem zoneOk (h : Agree s s' zb) (hz : ZoneOk N s zb) (hp : s'.Pool)
    (hl : ∀ b, s.Owns zb b → s'.Live b) : ZoneOk N s' zb where
  path := by
    rw [h.zone]
    exact hz.path.congr fun fa hfa => by rw [h.file fa hfa]; exact ⟨rfl, rfl⟩
  index kind := by
    rw [h.links, h.zone]
    exact (hz.index kind).congr fun e he => h.entry kind e he
  membersNodup := by
    rw [h.members]
    exact hz.membersNodup
  memberFile fa hfa m hm := by
    rw [h.zone] at hfa
    rw [h.file fa hfa] at hm
    rw [h.member m (mem_membersOf.mpr ⟨fa, hfa, hm⟩)]
    exact hz.memberFile fa hfa m hm
  keyStr fa hfa e he := by
    rw [h.zone] at hfa
    rw [h.file fa hfa] at he ⊢
    rw [h.entry .key e ((hz.index .key).linked (fa, e) (mem_keyLinksOf.mpr ⟨hfa, he⟩))]
    exact hz.keyStr fa hfa e he
  pool := hp
  ownedLive b hb := hl b ((h.owns b).mp hb)
  linked fa hfa := by
    rw [h.zone] at hfa
    refine ⟨?_, ?_⟩
    · rw [h.file fa hfa]
      exact (hz.linked fa hfa).key
    · rw [h.tagStrs hz.toZoneInv hfa, h.file fa hfa]
      exact (hz.linked fa hfa).tags

end Agree

/-! ## The invariant -/

structure ShmOk (N : Nginx) (s : Shm) : Prop where
  zonesNodup : s.zones.Nodup
  names : ∀ za ∈ s.zones, ∀ zb ∈ s.zones, SameName s za zb → za = zb
  ok : ∀ za ∈ s.zones, ZoneOk N s za
  disjoint : ∀ za ∈ s.zones, ∀ zb ∈ s.zones, ∀ b, s.Owns za b → s.Owns zb b → za = zb
  pool : s.Pool
  live : ∀ b, s.Live b ↔ (b.kind = .zone ∧ b.addr ∈ s.zones) ∨ ∃ za ∈ s.zones, s.Owns za b

namespace ShmOk

theorem init : ShmOk N Shm.init where
  zonesNodup := List.nodup_nil
  names := by simp [Shm.init]
  ok := by simp [Shm.init]
  disjoint := by simp [Shm.init]
  pool :=
    { fresh := by simp [Shm.init]
      freedAllocated := by simp [Shm.init]
      freedNodup := Multiset.nodup_zero }
  live b := by simp [Shm.init, Shm.Live]

theorem zone_live (h : ShmOk N s) (hza : za ∈ s.zones) : s.Live ⟨.zone, za⟩ :=
  (h.live _).mpr (Or.inl ⟨rfl, hza⟩)

theorem zone_lt (h : ShmOk N s) (hza : za ∈ s.zones) : za < s.next :=
  h.pool.live_lt (h.zone_live hza)

theorem not_owns_of_ne (h : ShmOk N s) (hza : za ∈ s.zones) (hzb : zb ∈ s.zones) (hne : zb ≠ za)
    {b : Block} (hb : s.Owns zb b) : ¬ s.Owns za b := fun ha =>
  hne (h.disjoint zb hzb za hza b hb ha)

/-- The lookup of a zone finds the one zone of the name. -/
theorem lookupZone_some (h : ShmOk N s) {zoneName : Bytes} :
    lookupZone s zoneName = some za ↔
      za ∈ s.zones ∧ sameZoneName (s.zone za).name zoneName = true := by
  unfold lookupZone
  constructor
  · intro hf
    exact ⟨List.mem_of_find?_eq_some hf, by simpa using List.find?_some hf⟩
  · rintro ⟨hza, hn⟩
    cases hf : s.zones.find? fun za => sameZoneName (s.zone za).name zoneName with
    | none =>
      have hno := List.find?_eq_none.mp hf za hza
      exact absurd hn hno
    | some zc =>
      have hzc := List.mem_of_find?_eq_some hf
      have hnc : sameZoneName (s.zone zc).name zoneName = true := by simpa using List.find?_some hf
      rw [sameZoneName_comm] at hn
      rw [h.names zc hzc za hza (sameZoneName_trans hnc hn)]

theorem lookupZone_none {zoneName : Bytes} :
    lookupZone s zoneName = none ↔
      ∀ za ∈ s.zones, ¬ sameZoneName (s.zone za).name zoneName = true := by
  unfold lookupZone
  rw [List.find?_eq_none]

/-- Work inside one zone leaves the others alone. -/
theorem agree (h : ShmOk N s) (hza : za ∈ s.zones) (hzb : zb ∈ s.zones) (hne : zb ≠ za)
    (hw : Within s s' za) : Agree s s' zb := by
  have hz := (h.ok zb hzb).toZoneInv
  refine ⟨hw.zone zb hne, fun fa hfa => ?_, fun kind e he => ?_, fun m hm => ?_⟩
  · have hb : s.Owns zb ⟨.file, fa⟩ := hfa
    exact hw.file fa (hz.owns_lt hb) (h.not_owns_of_ne hza hzb hne hb)
  · have hb : s.Owns zb ⟨.entry kind, e⟩ := he
    exact hw.entry kind e (hz.owns_lt hb) (h.not_owns_of_ne hza hzb hne hb)
  · have hb : s.Owns zb ⟨.tagMember, m⟩ := hm
    exact hw.member m (hz.owns_lt hb) (h.not_owns_of_ne hza hzb hne hb)

theorem names_within (hw : Within s s' za) (zb : Addr) : (s'.zone zb).name = (s.zone zb).name := by
  by_cases hne : zb = za
  · rw [hne]
    exact hw.name
  · rw [hw.zone zb hne]

/-- An update of one zone keeps the invariant. -/
theorem update {rs : List Record} (h : ShmOk N s) (hza : za ∈ s.zones)
    (hu : Updates N s s' za rs) : ShmOk N s' := by
  have hw := hu.within
  have hagree : ∀ zb ∈ s.zones, zb ≠ za → Agree s s' zb := fun zb hzb hne => h.agree hza hzb hne hw
  have hother : ∀ zb ∈ s.zones, zb ≠ za → ∀ b, s'.Owns za b → ¬ s'.Owns zb b := by
    intro zb hzb hne b ha hb
    rw [(hagree zb hzb hne).owns] at hb
    rcases hw.owns b ha with ho | hfresh
    · exact h.not_owns_of_ne hza hzb hne hb ho
    · exact absurd ((h.ok zb hzb).toZoneInv.owns_lt hb) (Nat.not_lt.mpr hfresh)
  refine ⟨?_, ?_, ?_, ?_, hu.ok.pool, fun b => ?_⟩
  · rw [hw.zones]
    exact h.zonesNodup
  · rw [hw.zones]
    intro zb hzb zc hzc hn
    unfold SameName at hn
    rw [names_within hw, names_within hw] at hn
    exact h.names zb hzb zc hzc hn
  · rw [hw.zones]
    intro zb hzb
    by_cases hne : zb = za
    · rw [hne]
      exact hu.ok
    · refine (hagree zb hzb hne).zoneOk (h.ok zb hzb) hu.ok.pool fun b hb => ?_
      exact (hw.live b).mpr (Or.inl
        ⟨(h.ok zb hzb).ownedLive b hb, h.not_owns_of_ne hza hzb hne hb⟩)
  · rw [hw.zones]
    intro zb hzb zc hzc b hb hc
    by_cases hbz : zb = za
    · by_cases hcz : zc = za
      · rw [hbz, hcz]
      · exact absurd hc (hother zc hzc hcz b (hbz ▸ hb))
    · by_cases hcz : zc = za
      · exact absurd hb (hother zb hzb hbz b (hcz ▸ hc))
      · rw [(hagree zb hzb hbz).owns] at hb
        rw [(hagree zc hzc hcz).owns] at hc
        exact h.disjoint zb hzb zc hzc b hb hc
  · rw [hw.live, hw.zones, h.live]
    constructor
    · rintro (⟨hz | ⟨zb, hzb, hb⟩, hno⟩ | ho)
      · exact Or.inl hz
      · have hne : zb ≠ za := fun he => hno (he ▸ hb)
        exact Or.inr ⟨zb, hzb, ((hagree zb hzb hne).owns b).mpr hb⟩
      · exact Or.inr ⟨za, hza, ho⟩
    · rintro (hz | ⟨zb, hzb, hb⟩)
      · refine Or.inl ⟨Or.inl hz, fun ho => ?_⟩
        obtain ⟨k, a⟩ := b
        obtain ⟨rfl, -⟩ := hz
        exact ho
      · by_cases hne : zb = za
        · rw [hne] at hb
          exact Or.inr hb
        · have hb' := ((hagree zb hzb hne).owns b).mp hb
          exact Or.inl ⟨Or.inr ⟨zb, hzb, hb'⟩, h.not_owns_of_ne hza hzb hne hb'⟩

end ShmOk

/-! ## A new zone -/

/-- The state with a fresh zone struct at the tail of the zone queue. -/
def withZone (zoneName : Bytes) (s : Shm) : Shm :=
  let s' := (s.takeBlock .zone).setZone s.next (.new zoneName)
  { s' with zones := s.zones ++ [s.next] }

@[simp] theorem withZone_zones {zoneName : Bytes} :
    (withZone zoneName s).zones = s.zones ++ [s.next] := rfl

@[simp] theorem withZone_zone {zoneName : Bytes} :
    (withZone zoneName s).zone = Function.update s.zone s.next (.new zoneName) := rfl

theorem withZone_agree (h : ShmOk N s) (zoneName : Bytes) (hzb : zb ∈ s.zones) :
    Agree s (withZone zoneName s) zb where
  zone := Function.update_of_ne (Nat.ne_of_lt (h.zone_lt hzb)) _ _
  file _ _ := rfl
  entry _ _ _ := rfl
  member _ _ := rfl

theorem withZone_owns (zoneName : Bytes) (b : Block) : ¬ (withZone zoneName s).Owns s.next b := by
  obtain ⟨k, a⟩ := b
  cases k <;>
    simp [Shm.Owns, Shm.entryAddrs, Shm.members, membersOf, ShmZone.new]

theorem withZone_zoneOk (hp : (withZone zoneName s).Pool) :
    ZoneOk N (withZone zoneName s) s.next := by
  have hz : (withZone zoneName s).zone s.next = .new zoneName := Function.update_self _ _ _
  have hlinks : ∀ k, (withZone zoneName s).links s.next k = [] := by
    intro k
    cases k <;> simp [Shm.links, Shm.members, membersOf, tagLinksOf, keyLinksOf, ShmZone.new]
  refine ⟨⟨?_, fun k => ?_, ?_, ?_, ?_, hp, fun b hb => absurd hb (withZone_owns zoneName b)⟩, ?_⟩
  · rw [hz]
    exact PathInv.nil
  · rw [hlinks, hz]
    exact IndexInv.nil
  · simp [Shm.members, membersOf, ShmZone.new]
  · rw [hz]
    simp [ShmZone.new]
  · rw [hz]
    simp [ShmZone.new]
  · rw [hz]
    simp [ShmZone.new]

theorem ShmOk.addZone (h : ShmOk N s) {zoneName : Bytes} (hn : lookupZone s zoneName = none) :
    ShmOk N (withZone zoneName s) := by
  have hpool : (withZone zoneName s).Pool := (h.pool.takeBlock .zone).of_eq rfl rfl rfl
  have hlive : ∀ b, (withZone zoneName s).Live b ↔ s.Live b ∨ b = ⟨.zone, s.next⟩ :=
    h.pool.live_takeBlock .zone
  have hagree : ∀ zb ∈ s.zones, Agree s (withZone zoneName s) zb := fun zb hzb =>
    withZone_agree h zoneName hzb
  have hfresh : s.next ∉ s.zones := fun hm => Nat.lt_irrefl _ (h.zone_lt hm)
  have hname : ∀ zb ∈ s.zones, ¬ sameZoneName (s.zone zb).name zoneName = true :=
    ShmOk.lookupZone_none.mp hn
  have hold : ∀ zb ∈ s.zones ++ [s.next], zb ∈ s.zones ∨ zb = s.next := fun zb hzb =>
    (List.mem_append.mp hzb).imp_right List.mem_singleton.mp
  refine ⟨?_, ?_, ?_, ?_, hpool, fun b => ?_⟩
  · rw [withZone_zones]
    exact List.Nodup.append h.zonesNodup (List.nodup_singleton _)
      (List.disjoint_singleton.mpr hfresh)
  · rw [withZone_zones]
    intro zb hzb zc hzc hsame
    unfold SameName at hsame
    rcases hold zb hzb with hb | rfl
    · rw [(hagree zb hb).zone] at hsame
      rcases hold zc hzc with hc | rfl
      · rw [(hagree zc hc).zone] at hsame
        exact h.names zb hb zc hc hsame
      · rw [withZone_zone, Function.update_self] at hsame
        exact absurd hsame (hname zb hb)
    · rcases hold zc hzc with hc | rfl
      · rw [(hagree zc hc).zone, withZone_zone, Function.update_self, sameZoneName_comm] at hsame
        exact absurd hsame (hname zc hc)
      · rfl
  · rw [withZone_zones]
    intro zb hzb
    rcases hold zb hzb with hb | rfl
    · exact (hagree zb hb).zoneOk (h.ok zb hb) hpool fun b ho =>
        (hlive b).mpr (Or.inl ((h.ok zb hb).ownedLive b ho))
    · exact withZone_zoneOk hpool
  · rw [withZone_zones]
    intro zb hzb zc hzc b hob hoc
    rcases hold zb hzb with hb | rfl
    · rcases hold zc hzc with hc | rfl
      · rw [(hagree zb hb).owns] at hob
        rw [(hagree zc hc).owns] at hoc
        exact h.disjoint zb hb zc hc b hob hoc
      · exact absurd hoc (withZone_owns zoneName b)
    · exact absurd hob (withZone_owns zoneName b)
  · rw [hlive, h.live, withZone_zones]
    constructor
    · rintro ((⟨hk, ha⟩ | ⟨zb, hzb, hb⟩) | rfl)
      · exact Or.inl ⟨hk, List.mem_append_left _ ha⟩
      · exact Or.inr ⟨zb, List.mem_append_left _ hzb, ((hagree zb hzb).owns b).mpr hb⟩
      · exact Or.inl ⟨rfl, by simp⟩
    · rintro (⟨hk, ha⟩ | ⟨zb, hzb, hb⟩)
      · rcases hold _ ha with ha | ha
        · exact Or.inl (Or.inl ⟨hk, ha⟩)
        · obtain ⟨k, a⟩ := b
          simp only at hk ha
          exact Or.inr (by rw [hk, ha])
      · rcases hold zb hzb with hz | rfl
        · exact Or.inl (Or.inr ⟨zb, hz, ((hagree zb hz).owns b).mp hb⟩)
        · exact absurd hb (withZone_owns zoneName b)

end CachePilot
