import CachePilot.Store.Readiness
import CachePilot.Store.Refine

/-!
# The times of a zone

The index zone holds three fields for a zone: whether it is bootstrapped, when that
was, and when it changed last. `normalize_zone_state` asks that an unfinished zone has
no times and that a finished one changed no earlier than it was bootstrapped; it
repairs a state that is not so and logs a warning.

`touch_zone_locked` does not ask whether the zone is finished. An upsert or a delete
on a zone that is not writes a time that the next read warns about: the scan that
bootstraps a zone does so with its first file. The stored states of a run are well
formed exactly as long as no call touches an unfinished zone
(`stored_states_clean_iff`).
-/

namespace CachePilot
open NgxString SearchTree

variable {N : Nginx} {s s' : Shm} {za fa : Addr} {zoneName path key : Bytes}

/-! ## Well-formed states -/

/-- The warnings of `normalize_zone_state`. -/
inductive ZoneStateWarning
  /-- `bootstrap_complete=0 requires zero timestamps` -/
  | zeroTimestamps
  /-- `bootstrap_complete=1 requires last_bootstrap_at` -/
  | lastBootstrapAt
  /-- `last_updated_at must be >= last_bootstrap_at` -/
  | lastUpdatedAt
deriving DecidableEq, Repr

/-- What `normalize_zone_state` logs. -/
def normalizeWarnings (now : Int) (state : ZoneState) : List ZoneStateWarning :=
  if !state.bootstrapComplete then
    if state.lastBootstrapAt ≠ 0 ∨ state.lastUpdatedAt ≠ 0 then [.zeroTimestamps] else []
  else
    let lastBootstrapAt :=
      if state.lastBootstrapAt = 0 then
        if state.lastUpdatedAt ≠ 0 then state.lastUpdatedAt else now
      else state.lastBootstrapAt
    (if state.lastBootstrapAt = 0 then [.lastBootstrapAt] else []) ++
      if state.lastUpdatedAt < lastBootstrapAt then [.lastUpdatedAt] else []

/-- The three fields agree with each other. -/
structure ZoneState.WellFormed (state : ZoneState) : Prop where
  unfinished : state.bootstrapComplete = false →
    state.lastBootstrapAt = 0 ∧ state.lastUpdatedAt = 0
  finished : state.bootstrapComplete = true →
    state.lastBootstrapAt ≠ 0 ∧ state.lastBootstrapAt ≤ state.lastUpdatedAt

namespace ZoneState

variable {state : ZoneState}

/-- The warnings tell exactly the states that are not well formed. -/
theorem warnings_eq_nil (now : Int) (state : ZoneState) :
    normalizeWarnings now state = [] ↔ state.WellFormed := by
  obtain ⟨complete, lastBootstrapAt, lastUpdatedAt⟩ := state
  cases complete with
  | false =>
    constructor
    · intro h
      refine ⟨fun _ => ?_, (nomatch ·)⟩
      simpa [normalizeWarnings] using h
    · intro h
      obtain ⟨hb, hu⟩ := h.unfinished rfl
      simp only at hb hu
      simp [normalizeWarnings, hb, hu]
  | true =>
    constructor
    · intro h
      refine ⟨(nomatch ·), fun _ => ?_⟩
      obtain ⟨hb, hu⟩ := List.append_eq_nil_iff.mp h
      have hb' : lastBootstrapAt ≠ 0 := by simpa using hb
      rw [if_neg hb'] at hu
      exact ⟨hb', by simpa using hu⟩
    · intro h
      obtain ⟨hb, hu⟩ := h.finished rfl
      simp only at hb hu
      simp [normalizeWarnings, hb, hu]

/-- A well-formed state stays as it is. -/
theorem WellFormed.normalize (h : state.WellFormed) (now : Int) :
    normalizeZoneState now state = state := by
  obtain ⟨complete, lastBootstrapAt, lastUpdatedAt⟩ := state
  cases complete with
  | false =>
    obtain ⟨hb, hu⟩ := h.unfinished rfl
    simp only at hb hu
    simp [normalizeZoneState, hb, hu]
  | true =>
    obtain ⟨hb, hu⟩ := h.finished rfl
    simp only at hb hu
    simp [normalizeZoneState, hb, Int.not_lt.mpr hu]

end ZoneState

/-- The stored states are well formed, so that a read reports them as they are and
logs nothing. -/
def CleanStates (s : Shm) : Prop :=
  ∀ zoneName now, (storedState s zoneName).WellFormed ∧
    getZoneState now s zoneName = storedState s zoneName ∧
    normalizeWarnings now (storedState s zoneName) = []

theorem cleanStates_iff : CleanStates s ↔ ∀ zoneName, (storedState s zoneName).WellFormed := by
  constructor
  · exact fun h zoneName => (h zoneName 0).1
  · intro h zoneName now
    refine ⟨h zoneName, ?_, (ZoneState.warnings_eq_nil now _).mpr (h zoneName)⟩
    rw [getZoneState_eq, (h zoneName).normalize now]

/-! ## When an upsert succeeds -/

/-- Each tag that is linked from number `i` on finds or gets its entry, and gets its
member; `carried` tells the tags that have an entry. -/
def TagsFit (alloc : AllocSite → Bool) : (Bytes → Prop) → Nat → List Bytes → Prop
  | _, _, [] => True
  | carried, i, tag :: tags =>
    (carried tag ∨ alloc (.tagEntry i) = true) ∧ alloc (.tagMember i) = true ∧
      TagsFit alloc (fun t => t = tag ∨ carried t) (i + 1) tags

/-- Every block that an upsert needs behind the zone lookup can be had, in the zone
that the removal of the old file leaves. -/
def FileFits (alloc : AllocSite → Bool) (za : Addr) (key : Bytes) (tags : List Bytes) (s : Shm) :
    Prop :=
  alloc .file = true ∧ (key = [] ∨ HasEntry s za .key key ∨ alloc .keyEntry = true) ∧
    TagsFit alloc (HasEntry s za .tag) 0 tags

/-- The upsert finds room for all that it stores. -/
def UpsertFits (N : Nginx) (alloc : AllocSite → Bool) (zoneName path key : Bytes)
    (tags : List Bytes) (s : Shm) : Prop :=
  match lookupZone s zoneName with
  | some za => FileFits alloc za key tags (clearPath N za path s)
  | none => alloc .zone = true ∧ alloc .file = true ∧ (key = [] ∨ alloc .keyEntry = true) ∧
      TagsFit alloc (fun _ => False) 0 tags

theorem linkExactKeyLocked_ok_iff (h : ZoneInv N s za) (ok : Bool) (fa : Addr) :
    (linkExactKeyLocked N ok za fa s).1 = .ok ↔
      (s.file fa).key = [] ∨ HasEntry s za .key (s.file fa).key ∨ ok = true := by
  unfold linkExactKeyLocked getKeyEntryLocked
  simp only
  split
  · rename_i hempty
    exact iff_of_true rfl (Or.inl (List.eq_nil_of_length_eq_zero hempty))
  · rename_i hempty
    have hne : (s.file fa).key ≠ [] := fun h0 => hempty (by rw [h0]; rfl)
    rcases getEntryLocked_cases h ok .key (s.file fa).key with
      ⟨e, he, hs, hg⟩ | ⟨-, hok, hg⟩ | ⟨hn, hok, hg⟩
    · rw [hg]
      exact iff_of_true rfl (Or.inr (Or.inl (h.hasEntry_iff.mpr ⟨e, he, hs⟩)))
    · rw [hg]
      exact iff_of_true rfl (Or.inr (Or.inr hok))
    · rw [hg]
      refine iff_of_false (nomatch ·) ?_
      rintro (h0 | h0 | h0)
      · exact hne h0
      · exact hn h0
      · exact absurd (hok.symm.trans h0) (by decide)

theorem linkTagsLocked_ok_iff (alloc : AllocSite → Bool) (tags : List Bytes) (i : Nat)
    {pre : List Addr} (h : ZoneInv N s za) (hf : (s.zone za).files = pre ++ [fa]) :
    (linkTagsLocked N alloc za fa i tags s).1 = .ok ↔ TagsFit alloc (HasEntry s za .tag) i tags := by
  induction tags generalizing i s with
  | nil => exact iff_of_true rfl trivial
  | cons tag tags ih =>
    -- the turn after the one that has found or made the entry `e`, in the state `s1`
    have hturn : ∀ {s1 : Shm} {e : Addr}, ZoneInv N s1 za → (s1.zone za).files = pre ++ [fa] →
        e ∈ s1.entryAddrs za .tag →
        (∀ t, HasEntry s1 za .tag t ↔ t = tag ∨ HasEntry s za .tag t) →
        ((linkTagsLocked N alloc za fa (i + 1) tags (withMember e fa s1)).1 = .ok ↔
          TagsFit alloc (fun t => t = tag ∨ HasEntry s za .tag t) (i + 1) tags) := by
      intro s1 e h1 hf1 he hentry
      rw [ih (i + 1) (withMember_spec h1 hf1 he).inv hf1]
      have hsame : HasEntry (withMember e fa s1) za .tag =
          fun t => t = tag ∨ HasEntry s za .tag t := funext fun t => propext (hentry t)
      rw [hsame]
    unfold linkTagsLocked getTagEntryLocked TagsFit
    rcases getEntryLocked_cases h (alloc (.tagEntry i)) .tag tag with
      ⟨e, he, hs, hg⟩ | ⟨hn, hok, hg⟩ | ⟨hn, hok, hg⟩
    · rw [hg]
      have hhas : HasEntry s za .tag tag := h.hasEntry_iff.mpr ⟨e, he, hs⟩
      cases hm : alloc (.tagMember i) with
      | false => exact iff_of_false (by rintro ⟨⟩) fun h0 => by cases h0.2.1
      | true =>
        have hrest := hturn h hf he fun t =>
          ⟨Or.inr, fun h0 => h0.elim (fun heq => heq ▸ hhas) id⟩
        exact hrest.trans ⟨fun h0 => ⟨Or.inl hhas, rfl, h0⟩, fun h0 => h0.2.2⟩
    · rw [hg]
      have hw := withEntry_spec h (not_hasEntry hn) fa
      have hfiles : ((withEntry N .tag za tag s).zone za).files = (s.zone za).files := by
        rw [withEntry_zone]
      have he : s.next ∈ (withEntry N .tag za tag s).entryAddrs za .tag :=
        withEntry_entryAddrs.mpr (Or.inr ⟨rfl, rfl⟩)
      cases hm : alloc (.tagMember i) with
      | false => exact iff_of_false (by rintro ⟨⟩) fun h0 => by cases h0.2.1
      | true =>
        have hrest := hturn hw.inv (hfiles.trans hf) he fun t => hasEntry_withEntry
        exact hrest.trans ⟨fun h0 => ⟨Or.inr hok, rfl, h0⟩, fun h0 => h0.2.2⟩
    · rw [hg]
      refine iff_of_false (by rintro ⟨⟩) ?_
      rintro ⟨h0 | h0, -⟩
      · exact hn h0
      · exact absurd (hok.symm.trans h0) (by decide)

theorem upsertInZone_ok_iff (h : ZoneOk N s za) (alloc : AllocSite → Bool) (now : Int)
    (path key : Bytes) (mtime size : Int) (tags : List Bytes) :
    (upsertInZone N alloc now za path key mtime size tags s).1 = .ok ↔
      FileFits alloc za key tags (clearPath N za path s) := by
  obtain ⟨hok, -, hrecords⟩ := (clearPath_spec h path).1
  rw [upsertInZone_eq]
  generalize clearPath N za path s = s1 at hok hrecords
  have hp : ∀ r ∈ records s1 za, r.path ≠ path := by
    rw [hrecords]
    exact fun r hr => (mem_otherRecords.mp hr).2
  have hb2 : Building N s1 (withFile N za path key mtime size tags s1) za ⟨path, key, tags⟩ :=
    Building.start hok hp
  have hfile : (withFile N za path key mtime size tags s1).file s1.next =
      newFile N path key mtime size tags := by
    rw [withFile_file, Function.update_self]
  have hkey : ((withFile N za path key mtime size tags s1).file s1.next).key = key := by
    rw [hfile]
    rfl
  have hlink := linkExactKeyLocked_ok_iff hb2.keeps.inv (alloc .keyEntry) s1.next
  obtain ⟨-, hfiles, -, hcase⟩ := linkExactKeyLocked_spec hb2.keeps.inv hb2.files
    (by rw [hfile]; rfl) (alloc .keyEntry)
  have hb3 := (upsert_new hok alloc key mtime size tags hp).1
  rw [hkey, hasEntry_withFile] at hlink
  unfold FileFits
  simp only
  generalize linkExactKeyLocked N (alloc .keyEntry) za s1.next
    (withFile N za path key mtime size tags s1) = r3 at hlink hcase hb3 hfiles
  cases alloc .file with
  | false => exact iff_of_false (nomatch ·) fun h0 => nomatch h0.1
  | true =>
    simp only [if_true, true_and]
    rcases hcase with ⟨hok3, -, htags, -⟩ | herr
    · have hloop := linkTagsLocked_ok_iff alloc tags 0 hb3.keeps.inv hb3.files
      have hsame : HasEntry r3.2 za .tag = HasEntry s1 za .tag :=
        funext fun t => propext ((htags t).trans hasEntry_withFile)
      rw [hsame] at hloop
      rw [if_pos hok3]
      split
      · rename_i hok4
        exact iff_of_true rfl ⟨hlink.mp hok3, hloop.mp hok4⟩
      · rename_i hne
        exact iff_of_false (nomatch ·) fun h0 => hne (hloop.mpr h0.2)
    · rw [if_neg (by rw [herr]; decide)]
      refine iff_of_false (nomatch ·) fun h0 => ?_
      have hok3 := hlink.mpr h0.1
      rw [herr] at hok3
      exact nomatch hok3

/-- An upsert succeeds exactly when it finds room for all that it stores. -/
theorem upsertFileMeta_ok_iff (h : ShmOk N s) (alloc : AllocSite → Bool) (now : Int)
    (zoneName path key : Bytes) (mtime size : Int) (tags : List Bytes) :
    (upsertFileMeta N alloc now zoneName path key mtime size tags s).1 = .ok ↔
      UpsertFits N alloc zoneName path key tags s := by
  unfold upsertFileMeta UpsertFits
  rcases getZoneLocked_cases s (alloc .zone) zoneName with
    ⟨za, hl, hg⟩ | ⟨hl, hok, hg⟩ | ⟨hl, hok, hg⟩
  · rw [hg, hl]
    exact upsertInZone_ok_iff (h.ok za (h.lookupZone_some.mp hl).1) alloc now path key mtime size tags
  · rw [hg, hl]
    have hza : s.next ∈ (withZone zoneName s).zones := List.mem_append_right _ (List.mem_singleton_self _)
    have hiff := upsertInZone_ok_iff ((h.addZone hl).ok s.next hza) alloc now path key mtime size tags
    -- a new zone has no file to clear, and no entries
    have hzone : (withZone zoneName s).zone s.next = .new zoneName := by
      rw [withZone_zone, Function.update_self]
    have hclear : clearPath N s.next path (withZone zoneName s) = withZone zoneName s := by
      unfold clearPath lookupFile
      rw [hzone]
      simp [ShmZone.new, lookupGeneric]
    have hentry : ∀ kind t, ¬ HasEntry (withZone zoneName s) s.next kind t := by
      rintro kind t ⟨n, hn, -⟩
      rw [hzone] at hn
      exact absurd hn List.not_mem_nil
    have hnone : HasEntry (withZone zoneName s) s.next .tag = fun _ => False :=
      funext fun t => propext (iff_of_false (hentry .tag t) id)
    rw [hclear] at hiff
    simp only [FileFits, hnone, hentry, false_or] at hiff
    simp only [hok, true_and]
    exact hiff
  · rw [hg, hl, hok]
    exact iff_of_false (by rintro ⟨⟩) fun h0 => by cases h0.1

/-! ## What a call does to the stored states -/

/-- The state of a zone with another time of its last change. -/
def ZoneState.touch (now : Int) (state : ZoneState) : ZoneState :=
  { state with lastUpdatedAt := now }

/-- A touch moves the time of the last change, of a finished zone or not. -/
theorem storedState_touch (h : ShmOk N s) (hl : lookupZone s zoneName = some za)
    (hkeeps : KeepsStates s s') (now : Int) (z : Bytes) :
    storedState (touchZoneLocked now za s') z =
      if sameZoneName zoneName z = true then (storedState s zoneName).touch now
      else storedState s z := by
  have hzone : ∀ a ≠ za, (touchZoneLocked now za s').zone a = s'.zone a := by
    intro a ha
    simp [touchZoneLocked, ha]
  have hself : (touchZoneLocked now za s').zone za = { s'.zone za with lastUpdatedAt := now } := by
    simp [touchZoneLocked]
  have hstored : storedState (touchZoneLocked now za s') z =
      if sameZoneName zoneName z = true then ((touchZoneLocked now za s').zone za).state
      else storedState s z := by
    have hzones : (touchZoneLocked now za s').zones = s.zones := hkeeps.zones
    refine storedState_of_zone h hl hzones (fun a => ?_) (fun a ha => ?_) z
    · rcases eq_or_ne a za with rfl | ha
      · rw [hself, ← hkeeps.name]
      · rw [hzone a ha, hkeeps.name]
    · rw [hzone a ha, hkeeps.state]
  have hbefore : storedState s zoneName = (s'.zone za).state := by
    unfold storedState
    rw [hl, hkeeps.state]
  rw [hstored, hself, hbefore]
  rfl

/-- A successful upsert touches its zone. -/
theorem upsertFileMeta_stored (h : ShmOk N s) (alloc : AllocSite → Bool) (now : Int)
    (zoneName path key : Bytes) (mtime size : Int) (tags : List Bytes) (z : Bytes) :
    let r := upsertFileMeta N alloc now zoneName path key mtime size tags s
    storedState r.2 z =
      if r.1 = .ok ∧ sameZoneName zoneName z = true then (storedState s zoneName).touch now
      else storedState s z := by
  -- behind the zone lookup, in the state `s1` that it leaves
  have hzone : ∀ {s1 : Shm} {za : Addr}, ShmOk N s1 → lookupZone s1 zoneName = some za →
      let r := upsertInZone N alloc now za path key mtime size tags s1
      storedState r.2 z =
        if r.1 = .ok ∧ sameZoneName zoneName z = true then (storedState s1 zoneName).touch now
        else storedState s1 z := by
    intro s1 za h1 hl
    rcases upsertInZone_states N alloc now za path key mtime size tags s1 with
      ⟨hok, s2, hkeeps, heq⟩ | ⟨herr, hkeeps⟩
    · simp only [hok, heq, true_and]
      exact storedState_touch h1 hl hkeeps now z
    · simp only [herr, reduceCtorEq, false_and, if_false]
      exact hkeeps.stored z
  intro r
  have hr : r = upsertFileMeta N alloc now zoneName path key mtime size tags s := rfl
  unfold upsertFileMeta at hr
  rcases getZoneLocked_cases s (alloc .zone) zoneName with
    ⟨za, hl, hg⟩ | ⟨hl, -, hg⟩ | ⟨hl, -, hg⟩
  · rw [hg] at hr
    rw [hr]
    exact hzone h hl
  · rw [hg] at hr
    rw [hr]
    have hnew := hzone (h.addZone hl) (lookupZone_withZone h hl)
    rw [storedState_withZone h hl, storedState_withZone h hl] at hnew
    exact hnew
  · rw [hg] at hr
    rw [hr]
    exact (KeepsStates.of_eq rfl rfl : KeepsStates s s.countFailure).stored z

/-- A file is indexed under the path. -/
def PathIndexed (N : Nginx) (zoneName path : Bytes) (s : Shm) : Prop :=
  ∃ za fa, lookupZone s zoneName = some za ∧ lookupFile N (s.zone za) path = some fa

/-- A delete touches its zone when it finds the file. -/
theorem deleteFile_stored (h : ShmOk N s) (now : Int) (zoneName path z : Bytes) :
    (PathIndexed N zoneName path s ∧ storedState (deleteFile N now zoneName path s).2 z =
      if sameZoneName zoneName z = true then (storedState s zoneName).touch now
      else storedState s z) ∨
    ¬ PathIndexed N zoneName path s ∧
      storedState (deleteFile N now zoneName path s).2 z = storedState s z := by
  unfold deleteFile
  cases hl : lookupZone s zoneName with
  | none =>
    refine Or.inr ⟨?_, rfl⟩
    rintro ⟨za, fa, hza, -⟩
    exact nomatch hl.symm.trans hza
  | some za =>
    simp only
    cases hf : lookupFile N (s.zone za) path with
    | none =>
      refine Or.inr ⟨?_, rfl⟩
      rintro ⟨zb, fa, hzb, hfa⟩
      obtain rfl := Option.some.inj (hl.symm.trans hzb)
      exact nomatch hf.symm.trans hfa
    | some fa =>
      exact Or.inl ⟨⟨za, fa, hl, hf⟩,
        storedState_touch h hl (KeepsStates.removeFileLocked N za fa s) now z⟩

/-- The commit of a bootstrap stores its one time twice. -/
theorem commit_stored (h : ShmOk N s) (ok : Bool) {now : Int} (hnow : now ≠ 0) (zoneName z : Bytes) :
    let r := setZoneState ok now zoneName ⟨true, now, now⟩ s
    storedState r.2 z = storedState s z ∨ storedState r.2 z = ⟨true, now, now⟩ := by
  have hwell : (⟨true, now, now⟩ : ZoneState).WellFormed :=
    ⟨(nomatch ·), fun _ => ⟨hnow, Int.le_refl now⟩⟩
  rcases setZoneState_stored h ok now zoneName ⟨true, now, now⟩ with ⟨-, hstored⟩ | ⟨-, hstored⟩
  · simp only [hstored z, hwell.normalize]
    split
    · exact Or.inr rfl
    · exact Or.inl rfl
  · exact Or.inl (hstored z)

/-! ## Runs -/

namespace ZoneOp

/-- What the clock shows at the call. -/
def time : ZoneOp → Int
  | store (.upsert _ now ..) => now
  | store (.delete now ..) => now
  | bootstrap _ now _ => now

/-- The call changes a file of a zone that is not bootstrapped yet. -/
def TouchesUnfinished (N : Nginx) (s : Shm) : ZoneOp → Prop
  | store (.upsert alloc _ zoneName path key _ _ tags) =>
    zoneReady s zoneName = false ∧ UpsertFits N alloc zoneName path key tags s
  | store (.delete _ zoneName path) =>
    zoneReady s zoneName = false ∧ PathIndexed N zoneName path s
  | bootstrap .. => False

end ZoneOp

/-- The clock is positive and does not go back. -/
structure Clock (ops : List ZoneOp) : Prop where
  positive : ∀ op ∈ ops, 0 < op.time
  forward : ops.Pairwise fun op op' => op.time ≤ op'.time

/-- A well-formed state of a time up to `t`. -/
structure ZoneState.Timely (t : Int) (state : ZoneState) : Prop extends state.WellFormed where
  past : state.lastBootstrapAt ≤ t

namespace ZoneState

variable {state : ZoneState} {t t' : Int}

theorem Timely.mono (h : state.Timely t) (hle : t ≤ t') : state.Timely t' :=
  ⟨h.toWellFormed, h.past.trans hle⟩

theorem Timely.touch (h : state.Timely t) (hcomplete : state.bootstrapComplete = true)
    (hle : t ≤ t') : (state.touch t').Timely t' where
  unfinished hno := nomatch hcomplete.symm.trans hno
  finished _ := ⟨(h.finished hcomplete).1, h.past.trans hle⟩
  past := h.past.trans hle

theorem touch_not_wellFormed (hcomplete : state.bootstrapComplete = false) (ht : t ≠ 0) :
    ¬ (state.touch t).WellFormed := fun h => ht (h.unfinished hcomplete).2

end ZoneState

/-- One call, unless it touches an unfinished zone, keeps the states well formed. -/
theorem ZoneOp.run_timely (h : ShmOk N s) {t : Int} {op : ZoneOp} (hle : t ≤ op.time)
    (hpos : 0 < op.time) (hno : ¬ op.TouchesUnfinished N s)
    (ht : ∀ z, (storedState s z).Timely t) (z : Bytes) :
    (storedState (op.run N s).2 z).Timely op.time := by
  have hold : (storedState s z).Timely op.time := (ht z).mono hle
  cases op with
  | store op =>
    cases op with
    | upsert alloc now zoneName path key mtime size tags =>
      have hstored := upsertFileMeta_stored h alloc now zoneName path key mtime size tags z
      have hok := upsertFileMeta_ok_iff h alloc now zoneName path key mtime size tags
      simp only at hstored
      show (storedState (upsertFileMeta N alloc now zoneName path key mtime size tags s).2 z).Timely now
      rw [hstored]
      split
      · rename_i hif
        refine (ht zoneName).touch ?_ hle
        rw [storedState_complete]
        exact Bool.of_not_eq_false fun hready => hno ⟨hready, hok.mp hif.1⟩
      · exact hold
    | delete now zoneName path =>
      show (storedState (deleteFile N now zoneName path s).2 z).Timely now
      rcases deleteFile_stored h now zoneName path z with ⟨hindexed, hstored⟩ | ⟨-, hstored⟩
      · rw [hstored]
        split
        · refine (ht zoneName).touch ?_ hle
          rw [storedState_complete]
          exact Bool.of_not_eq_false fun hready => hno ⟨hready, hindexed⟩
        · exact hold
      · rw [hstored]
        exact hold
  | bootstrap ok now zoneName =>
    have hnow : now ≠ 0 := Int.ne_of_gt hpos
    show (storedState (setZoneState ok now zoneName ⟨true, now, now⟩ s).2 z).Timely now
    rcases commit_stored h ok hnow zoneName z with hstored | hstored
    · rw [hstored]
      exact hold
    · rw [hstored]
      exact ⟨⟨(nomatch ·), fun _ => ⟨hnow, Int.le_refl now⟩⟩, Int.le_refl now⟩

/-- A call that does leaves a state that the next read repairs. -/
theorem ZoneOp.run_not_clean (h : ShmOk N s) {op : ZoneOp} (hpos : 0 < op.time)
    (htouch : op.TouchesUnfinished N s) : ¬ CleanStates (op.run N s).2 := by
  intro hclean
  cases op with
  | store op =>
    cases op with
    | upsert alloc now zoneName path key mtime size tags =>
      obtain ⟨hready, hfits⟩ := htouch
      have hstored := upsertFileMeta_stored h alloc now zoneName path key mtime size tags zoneName
      have hok := (upsertFileMeta_ok_iff h alloc now zoneName path key mtime size tags).mpr hfits
      simp only at hstored
      rw [if_pos ⟨hok, sameZoneName_refl zoneName⟩] at hstored
      have hwell := cleanStates_iff.mp hclean zoneName
      rw [← storedState_complete] at hready
      refine ZoneState.touch_not_wellFormed (t := now) hready (Int.ne_of_gt hpos) ?_
      rw [← hstored]
      exact hwell
    | delete now zoneName path =>
      obtain ⟨hready, hindexed⟩ := htouch
      rcases deleteFile_stored h now zoneName path zoneName with ⟨-, hstored⟩ | ⟨hno, -⟩
      · rw [if_pos (sameZoneName_refl zoneName)] at hstored
        have hwell := cleanStates_iff.mp hclean zoneName
        rw [← storedState_complete] at hready
        refine ZoneState.touch_not_wellFormed (t := now) hready (Int.ne_of_gt hpos) ?_
        rw [← hstored]
        exact hwell
      · exact hno hindexed
  | bootstrap ok now zoneName => exact htouch

/-- A run from a state with well-formed states of a time up to `t`. -/
theorem runZones_clean_iff (h : ShmOk N s) {t : Int} (ht : ∀ z, (storedState s z).Timely t)
    {ops : List ZoneOp} (hclock : Clock ops) (hle : ∀ op ∈ ops, t ≤ op.time) :
    (∀ n, CleanStates (runZones N (ops.take n) s)) ↔
      ∀ n (op : ZoneOp), ops[n]? = some op → ¬ op.TouchesUnfinished N (runZones N (ops.take n) s) := by
  induction ops generalizing s t with
  | nil =>
    refine iff_of_true (fun n => ?_) (fun n op hop => absurd hop (by simp))
    rw [List.take_nil]
    exact cleanStates_iff.mpr fun z => (ht z).toWellFormed
  | cons op ops ih =>
    obtain ⟨hfirst, hrest⟩ := List.pairwise_cons.mp hclock.forward
    have hpos : 0 < op.time := hclock.positive op List.mem_cons_self
    have hclock' : Clock ops := ⟨fun op' hop' => hclock.positive op' (List.mem_cons_of_mem _ hop'), hrest⟩
    -- the rest of the run, once the first call is known to spare unfinished zones
    have hstep (hno : ¬ op.TouchesUnfinished N s) :=
      ih (op.run_ok h) (ZoneOp.run_timely h (hle op List.mem_cons_self) hpos hno ht) hclock' hfirst
    constructor
    · intro hclean
      have hno : ¬ op.TouchesUnfinished N s := fun htouch =>
        ZoneOp.run_not_clean h hpos htouch (hclean 1)
      have hlater := (hstep hno).mp fun n => hclean (n + 1)
      intro n op' hop'
      cases n with
      | zero =>
        obtain rfl : op = op' := Option.some.inj hop'
        exact hno
      | succ n => exact hlater n op' hop'
    · intro hspare
      have hno : ¬ op.TouchesUnfinished N s := hspare 0 op rfl
      have hlater := (hstep hno).mpr fun n op' hop' => hspare (n + 1) op' hop'
      intro n
      cases n with
      | zero => exact cleanStates_iff.mpr fun z => (ht z).toWellFormed
      | succ n => exact hlater n

/-- The stored states of a run are well formed, and every read of them is silent,
exactly when no call of the run touches a zone that is not bootstrapped. -/
theorem stored_states_clean_iff (N : Nginx) (ops : List ZoneOp) (hclock : Clock ops) :
    (∀ n, CleanStates (runZones N (ops.take n) Shm.init)) ↔
      ∀ n (op : ZoneOp), ops[n]? = some op →
        ¬ op.TouchesUnfinished N (runZones N (ops.take n) Shm.init) := by
  refine runZones_clean_iff ShmOk.init (fun z => ?_) hclock fun op hop =>
    Int.le_of_lt (hclock.positive op hop)
  exact ⟨⟨fun _ => ⟨rfl, rfl⟩, (nomatch ·)⟩, Int.le_refl 0⟩

/-- A bootstrap without a file, then a file that comes and goes. -/
def bootstrapFirst : List ZoneOp :=
  [.bootstrap true 5 [122], .store (.upsert (fun _ => true) 7 [122] [47, 97] [107] 1 1 []),
    .store (.delete 9 [122] [47, 97])]

theorem bootstrapFirst_clean : CleanStates (runZones Nginx.reference bootstrapFirst Shm.init) := by
  refine (stored_states_clean_iff Nginx.reference bootstrapFirst ⟨by decide, by decide⟩).mpr ?_ 3
  have hok : ShmOk Nginx.reference (runZones Nginx.reference (bootstrapFirst.take 1) Shm.init) :=
    ZoneOp.run_ok ShmOk.init (.bootstrap true 5 [122])
  have hready : zoneReady (runZones Nginx.reference (bootstrapFirst.take 1) Shm.init) [122] = true := by
    decide
  intro n op hop htouch
  rcases n with _ | _ | _ | n
  · obtain rfl := Option.some.inj hop
    exact htouch
  · obtain rfl := Option.some.inj hop
    exact nomatch hready.symm.trans htouch.1
  · obtain rfl := Option.some.inj hop
    have hready' := (upsertFileMeta_ready hok (fun _ => true) 7 [122] [47, 97] [107] 1 1 [] [122]).trans
      hready
    exact nomatch hready'.symm.trans htouch.1
  · exact nomatch hop

/-- The first file of a scan: its zone is not bootstrapped, and has a time. -/
theorem first_upsert_not_clean :
    ¬ ∀ (N : Nginx) (ops : List ZoneOp), Clock ops →
      ∀ n, CleanStates (runZones N (ops.take n) Shm.init) := by
  intro h
  have hclean := h Nginx.reference
    [.store (.upsert (fun _ => true) 5 [122] [47, 97] [107] 1 1 [])] ⟨by decide, by decide⟩ 1
  have htouch : ZoneOp.TouchesUnfinished Nginx.reference Shm.init
      (.store (.upsert (fun _ => true) 5 [122] [47, 97] [107] 1 1 [])) :=
    ⟨rfl, rfl, rfl, Or.inr rfl, trivial⟩
  exact ZoneOp.run_not_clean ShmOk.init (by decide) htouch hclean

end CachePilot
