import CachePilot.Store.Calls
import CachePilot.Store.Frame

/-!
# Readiness

`bootstrap_complete` of a zone. The calls that change its files do not touch it, and
a zone that they make is not ready.
-/

namespace CachePilot
open NgxString

variable {N : Nginx} {s s' s'' : Shm} {za fa e m : Addr} {kind : EntryKind} {zoneName path key : Bytes}

/-- The state of a zone as the zone struct holds it. -/
def ShmZone.state (zone : ShmZone) : ZoneState :=
  ⟨zone.bootstrapComplete, zone.lastBootstrapAt, zone.lastUpdatedAt⟩

/-- The zones are the same ones, with the same names and in the same state. -/
structure KeepsStates (s s' : Shm) : Prop where
  zones : s'.zones = s.zones
  name : ∀ a, (s'.zone a).name = (s.zone a).name
  state : ∀ a, (s'.zone a).state = (s.zone a).state

namespace KeepsStates

theorem of_eq (hzones : s'.zones = s.zones) (hzone : s'.zone = s.zone) : KeepsStates s s' where
  zones := hzones
  name _ := by rw [hzone]
  state _ := by rw [hzone]

theorem refl (s : Shm) : KeepsStates s s := of_eq rfl rfl

theorem trans (h : KeepsStates s s') (h' : KeepsStates s' s'') : KeepsStates s s'' where
  zones := h'.zones.trans h.zones
  name a := (h'.name a).trans (h.name a)
  state a := (h'.state a).trans (h.state a)

theorem of_update {za : Addr} {z : ShmZone} (hzones : s'.zones = s.zones)
    (hzone : s'.zone = Function.update s.zone za z) (hname : z.name = (s.zone za).name)
    (hstate : z.state = (s.zone za).state) : KeepsStates s s' where
  zones := hzones
  name a := by
    rw [hzone]
    cases ha : decide (a = za) with
    | true => rw [of_decide_eq_true ha, Function.update_self, hname]
    | false => rw [Function.update_of_ne (of_decide_eq_false ha)]
  state a := by
    rw [hzone]
    cases ha : decide (a = za) with
    | true => rw [of_decide_eq_true ha, Function.update_self, hstate]
    | false => rw [Function.update_of_ne (of_decide_eq_false ha)]

/-- Links leave the state of a zone alone. -/
theorem of_paths (h : KeepsPaths s s') : KeepsStates s s' where
  zones := h.zones
  name a := by
    obtain ⟨index, hzone⟩ := h.zone a
    rw [hzone]
  state a := by
    obtain ⟨index, hzone⟩ := h.zone a
    rw [hzone]
    rfl

theorem removeFileLocked (N : Nginx) (za fa : Addr) (s : Shm) :
    KeepsStates s (CachePilot.removeFileLocked N za fa s) := by
  obtain ⟨s1, hlinks, heq⟩ := KeepsPaths.removeFileLocked N za fa s
  rw [heq]
  have hdrop : KeepsStates s1 (dropFile N za fa s1) := of_update rfl rfl rfl rfl
  exact (of_paths hlinks).trans hdrop

theorem clearPath (N : Nginx) (za : Addr) (path : Bytes) (s : Shm) :
    KeepsStates s (CachePilot.clearPath N za path s) := by
  unfold CachePilot.clearPath
  cases lookupFile N (s.zone za) path with
  | some fa => exact removeFileLocked N za fa s
  | none => exact refl s

end KeepsStates

/-- An upsert behind the zone lookup touches its zone when it succeeds, and leaves
the state of every zone alone when it fails. -/
theorem upsertInZone_states (N : Nginx) (alloc : AllocSite → Bool) (now : Int) (za : Addr)
    (path key : Bytes) (mtime size : Int) (tags : List Bytes) (s : Shm) :
    let r := upsertInZone N alloc now za path key mtime size tags s
    (r.1 = .ok ∧ ∃ s1, KeepsStates s s1 ∧ r.2 = touchZoneLocked now za s1) ∨
      r.1 = .error ∧ KeepsStates s r.2 := by
  have hclear := KeepsStates.clearPath N za path s
  rw [upsertInZone_eq]
  simp only
  cases alloc .file with
  | false => exact Or.inr ⟨rfl, hclear.trans (.of_eq rfl rfl)⟩
  | true =>
    have hfile : KeepsStates s (withFile N za path key mtime size tags (clearPath N za path s)) :=
      hclear.trans (.of_update rfl rfl rfl rfl)
    have hkey := hfile.trans
      (.of_paths (.linkExactKeyLocked N (alloc .keyEntry) za (clearPath N za path s).next _))
    simp only [if_true]
    split
    · have htags := hkey.trans
        (.of_paths (.linkTagsLocked N alloc za (clearPath N za path s).next 0 tags _))
      split
      · exact Or.inl ⟨rfl, _, htags, rfl⟩
      · exact Or.inr ⟨rfl, htags.trans (.removeFileLocked N za _ _)⟩
    · exact Or.inr ⟨rfl, hkey.trans (.removeFileLocked N za _ _)⟩

/-- The zones are the same ones, with the same names, and as ready as before. -/
structure KeepsZones (s s' : Shm) : Prop where
  zones : s'.zones = s.zones
  name : ∀ a, (s'.zone a).name = (s.zone a).name
  complete : ∀ a, (s'.zone a).bootstrapComplete = (s.zone a).bootstrapComplete

theorem KeepsStates.keepsZones (h : KeepsStates s s') : KeepsZones s s' where
  zones := h.zones
  name := h.name
  complete a := congrArg ZoneState.bootstrapComplete (h.state a)

namespace KeepsZones

theorem trans (h : KeepsZones s s') (h' : KeepsZones s' s'') : KeepsZones s s'' where
  zones := h'.zones.trans h.zones
  name a := (h'.name a).trans (h.name a)
  complete a := (h'.complete a).trans (h.complete a)

theorem touchZoneLocked (now : Int) (za : Addr) (s : Shm) :
    KeepsZones s (CachePilot.touchZoneLocked now za s) where
  zones := rfl
  name a := by
    rcases eq_or_ne a za with rfl | ha
    · simp [CachePilot.touchZoneLocked]
    · simp [CachePilot.touchZoneLocked, ha]
  complete a := by
    rcases eq_or_ne a za with rfl | ha
    · simp [CachePilot.touchZoneLocked]
    · simp [CachePilot.touchZoneLocked, ha]

theorem upsertInZone (N : Nginx) (alloc : AllocSite → Bool) (now : Int) (za : Addr)
    (path key : Bytes) (mtime size : Int) (tags : List Bytes) (s : Shm) :
    KeepsZones s (CachePilot.upsertInZone N alloc now za path key mtime size tags s).2 := by
  rcases upsertInZone_states N alloc now za path key mtime size tags s with
    ⟨-, s1, hkeeps, heq⟩ | ⟨-, hkeeps⟩
  · rw [heq]
    exact hkeeps.keepsZones.trans (touchZoneLocked now za s1)
  · exact hkeeps.keepsZones

end KeepsZones

/-! ## Ready zones -/

/-- Whether the zone is ready. -/
def zoneReady (s : Shm) (zoneName : Bytes) : Bool :=
  (lookupZone s zoneName).any fun za => (s.zone za).bootstrapComplete

theorem normalizeZoneState_complete (now : Int) (state : ZoneState) :
    (normalizeZoneState now state).bootstrapComplete = state.bootstrapComplete := by
  obtain ⟨complete, lastBootstrapAt, lastUpdatedAt⟩ := state
  unfold normalizeZoneState
  cases complete with
  | false =>
    simp only [Bool.not_false, if_true]
    split
    · rfl
    · rfl
  | true =>
    have hite : ∀ (c : Prop) [Decidable c] (a b : ZoneState), a.bootstrapComplete = true →
        b.bootstrapComplete = true → (if c then a else b).bootstrapComplete = true := by
      intro c _ a b ha hb
      split
      · exact ha
      · exact hb
    simp only [Bool.not_true, Bool.false_eq_true, if_false]
    exact hite _ _ _ (hite _ _ _ rfl rfl) (hite _ _ _ rfl rfl)

theorem getZoneState_complete (now : Int) (s : Shm) (zoneName : Bytes) :
    (getZoneState now s zoneName).bootstrapComplete = zoneReady s zoneName := by
  unfold getZoneState zoneReady
  cases lookupZone s zoneName with
  | none => exact normalizeZoneState_complete now _
  | some za => exact normalizeZoneState_complete now _

/-- The zone lookup reads the queue of zones and their names. -/
theorem lookupZone_of_names (hzones : s'.zones = s.zones)
    (hname : ∀ a, (s'.zone a).name = (s.zone a).name) (zoneName : Bytes) :
    lookupZone s' zoneName = lookupZone s zoneName := by
  unfold lookupZone
  rw [hzones]
  congr 1
  funext za
  rw [hname za]

theorem KeepsZones.ready (h : KeepsZones s s') (zoneName : Bytes) :
    zoneReady s' zoneName = zoneReady s zoneName := by
  unfold zoneReady
  rw [lookupZone_of_names h.zones h.name]
  cases lookupZone s zoneName with
  | none => rfl
  | some za => exact h.complete za

theorem deleteFile_ready (N : Nginx) (now : Int) (zoneName path : Bytes) (s : Shm) (z : Bytes) :
    zoneReady (deleteFile N now zoneName path s).2 z = zoneReady s z := by
  unfold deleteFile
  cases lookupZone s zoneName with
  | none => rfl
  | some za =>
    simp only
    cases lookupFile N (s.zone za) path with
    | none => rfl
    | some fa =>
      exact ((KeepsStates.removeFileLocked N za fa s).keepsZones.trans
        (KeepsZones.touchZoneLocked now za _)).ready z

/-! ## Stored states -/

/-- The state that the index zone holds for a zone, before `normalize_zone_state`
sees it; a zone without a struct reads as all zeros. -/
def storedState (s : Shm) (zoneName : Bytes) : ZoneState :=
  match lookupZone s zoneName with
  | none => ⟨false, 0, 0⟩
  | some za => (s.zone za).state

theorem getZoneState_eq (now : Int) (s : Shm) (zoneName : Bytes) :
    getZoneState now s zoneName = normalizeZoneState now (storedState s zoneName) := by
  unfold getZoneState storedState
  cases lookupZone s zoneName with
  | none => rfl
  | some za => rfl

theorem storedState_complete (s : Shm) (zoneName : Bytes) :
    (storedState s zoneName).bootstrapComplete = zoneReady s zoneName := by
  unfold storedState zoneReady
  cases lookupZone s zoneName with
  | none => rfl
  | some za => rfl

/-- A change of one zone struct changes the state stored under its names. -/
theorem storedState_of_zone (h : ShmOk N s) (hl : lookupZone s zoneName = some za)
    (hzones : s'.zones = s.zones) (hname : ∀ a, (s'.zone a).name = (s.zone a).name)
    (hstate : ∀ a ≠ za, (s'.zone a).state = (s.zone a).state) (z : Bytes) :
    storedState s' z =
      if sameZoneName zoneName z = true then (s'.zone za).state else storedState s z := by
  obtain ⟨hza, hn⟩ := h.lookupZone_some.mp hl
  unfold storedState
  rw [lookupZone_of_names hzones hname]
  cases hz : sameZoneName zoneName z with
  | true => rw [← lookupZone_congr s hz, hl, if_pos rfl]
  | false =>
    rw [if_neg (by decide)]
    cases hlz : lookupZone s z with
    | none => rfl
    | some zb =>
      obtain ⟨-, hnb⟩ := h.lookupZone_some.mp hlz
      refine hstate zb ?_
      rintro rfl
      rw [sameZoneName_comm] at hn
      exact absurd (hz.symm.trans (sameZoneName_trans hn hnb)) (by decide)

theorem KeepsStates.stored (h : KeepsStates s s') (z : Bytes) :
    storedState s' z = storedState s z := by
  unfold storedState
  rw [lookupZone_of_names h.zones h.name]
  cases lookupZone s z with
  | none => rfl
  | some za => exact h.state za

/-- A new zone is in the state that it read as before. -/
theorem storedState_withZone (h : ShmOk N s) (hn : lookupZone s zoneName = none) (z : Bytes) :
    storedState (withZone zoneName s) z = storedState s z := by
  have h' := h.addZone hn
  unfold storedState
  cases hl : lookupZone s z with
  | some zb =>
    obtain ⟨hzb, hnb⟩ := h.lookupZone_some.mp hl
    have ha := withZone_agree h zoneName hzb
    have hl' : lookupZone (withZone zoneName s) z = some zb := by
      refine h'.lookupZone_some.mpr ⟨List.mem_append_left _ hzb, ?_⟩
      rw [ha.zone]
      exact hnb
    rw [hl']
    simp only
    rw [ha.zone]
  | none =>
    cases hl' : lookupZone (withZone zoneName s) z with
    | none => rfl
    | some zb =>
      obtain ⟨hzb, hnb⟩ := h'.lookupZone_some.mp hl'
      rcases List.mem_append.mp hzb with hzb | hzb
      · rw [(withZone_agree h zoneName hzb).zone] at hnb
        exact absurd hnb (ShmOk.lookupZone_none.mp hl zb hzb)
      · simp only [List.mem_singleton.mp hzb, withZone_zone, Function.update_self]
        rfl

/-- `set_zone_state` stores what the normalisation makes of the state. -/
theorem setZoneState_stored (h : ShmOk N s) (ok : Bool) (now : Int) (zoneName : Bytes)
    (state : ZoneState) :
    let r := setZoneState ok now zoneName state s
    (r.1 = .ok ∧ ∀ z, storedState r.2 z =
      if sameZoneName zoneName z = true then normalizeZoneState now state else storedState s z) ∨
    r.1 = .error ∧ ∀ z, storedState r.2 z = storedState s z := by
  -- behind the zone lookup, in the state `s1` that it leaves
  have hzone : ∀ {s1 : Shm} {za : Addr} (state : ZoneState), ShmOk N s1 →
      lookupZone s1 zoneName = some za → ∀ z,
      storedState (s1.setZone za
        { s1.zone za with
          bootstrapComplete := state.bootstrapComplete
          lastBootstrapAt := state.lastBootstrapAt
          lastUpdatedAt := state.lastUpdatedAt }) z =
        if sameZoneName zoneName z = true then state else storedState s1 z := by
    intro s1 za state h1 hl z
    generalize hz : ({ s1.zone za with
        bootstrapComplete := state.bootstrapComplete
        lastBootstrapAt := state.lastBootstrapAt
        lastUpdatedAt := state.lastUpdatedAt } : ShmZone) = zone
    have hname : zone.name = (s1.zone za).name := by rw [← hz]
    have hstate : zone.state = state := by rw [← hz]; rfl
    have hself : (s1.setZone za zone).zone za = zone := by simp
    have hother : ∀ a ≠ za, (s1.setZone za zone).zone a = s1.zone a := fun a ha => by simp [ha]
    have hzones : (s1.setZone za zone).zones = s1.zones := rfl
    have hstored : storedState (s1.setZone za zone) z =
        if sameZoneName zoneName z = true then ((s1.setZone za zone).zone za).state
        else storedState s1 z := by
      refine storedState_of_zone h1 hl hzones (fun a => ?_) (fun a ha => ?_) z
      · rcases eq_or_ne a za with rfl | ha
        · rw [hself, hname]
        · rw [hother a ha]
      · rw [hother a ha]
    rw [hstored, hself, hstate]
  intro r
  have hr : r = setZoneState ok now zoneName state s := rfl
  unfold setZoneState at hr
  rcases getZoneLocked_cases s ok zoneName with ⟨za, hl, hg⟩ | ⟨hl, -, hg⟩ | ⟨hl, -, hg⟩
  · rw [hg] at hr
    rw [hr]
    exact Or.inl ⟨rfl, hzone (normalizeZoneState now state) h hl⟩
  · rw [hg] at hr
    rw [hr]
    refine Or.inl ⟨rfl, fun z => ?_⟩
    have hnew := hzone (normalizeZoneState now state) (h.addZone hl) (lookupZone_withZone h hl) z
    rw [storedState_withZone h hl] at hnew
    exact hnew
  · rw [hg] at hr
    rw [hr]
    exact Or.inr ⟨rfl, (KeepsStates.of_eq rfl rfl : KeepsStates s s.countFailure).stored⟩

/-- A new zone is not ready. -/
theorem withZone_ready (h : ShmOk N s) (hn : lookupZone s zoneName = none) (z : Bytes) :
    zoneReady (withZone zoneName s) z = zoneReady s z := by
  rw [← storedState_complete, storedState_withZone h hn, storedState_complete]

theorem upsertFileMeta_ready (h : ShmOk N s) (alloc : AllocSite → Bool) (now : Int)
    (zoneName path key : Bytes) (mtime size : Int) (tags : List Bytes) (z : Bytes) :
    zoneReady (upsertFileMeta N alloc now zoneName path key mtime size tags s).2 z = zoneReady s z := by
  unfold upsertFileMeta
  rcases getZoneLocked_cases s (alloc .zone) zoneName with ⟨za, hl, hg⟩ | ⟨hl, -, hg⟩ | ⟨hl, -, hg⟩
  · rw [hg]
    exact (KeepsZones.upsertInZone N alloc now za path key mtime size tags s).ready z
  · rw [hg]
    exact ((KeepsZones.upsertInZone N alloc now s.next path key mtime size tags _).ready z).trans
      (withZone_ready h hl z)
  · rw [hg]
    exact (KeepsStates.of_eq rfl rfl : KeepsStates s s.countFailure).keepsZones.ready z

end CachePilot
