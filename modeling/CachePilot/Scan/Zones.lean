import CachePilot.Scan.Recursive
import CachePilot.Store.Readiness

/-!
# The bootstrap of all zones

`ngx_http_cache_index_try_bootstrap_zones` goes through the registered zones in their
order, and the timer calls it again until no zone is left whose cache loader is cold.
A zone that cannot be scanned or whose state cannot be written is a fatal error: the
zones behind it do not get their turn, and the timer is not set again.

Results:
* `bootstrap_zones_in_order`: what one call leaves of every zone and of the timer;
* `failed_zone_ends_bootstrap`: a zone that could be scanned, behind one that could not.
-/

namespace CachePilot
open NgxString

/-! ## The loop -/

/-- A registered zone: the name and the header list of the configuration, the path of
its cache if it has one, whether the loader of the cache is cold, and what a scan
finds and gets. -/
structure RegisteredZone where
  zoneName : Bytes
  headers : List Bytes
  path : Option Bytes
  cold : Bool
  root : FsNode
  alloc : AllocSite → Bool
  now : Int

/-- What a call leaves behind: the index zone, the positions of the zones whose scan
it began, and what it stored for each in the worker's own cache of zone states. -/
structure Bootstraps where
  shm : Shm
  scanned : List Nat
  cached : Nat → Option ZoneState

namespace RegisteredZone

/-- `ngx_http_cache_index_bootstrap_zone` on the zone. -/
def bootstrap (N : Nginx) (zone : RegisteredZone) (path : Bytes) (shm : Shm) : NgxRc × Shm :=
  bootstrapZone N zone.alloc zone.now zone.zoneName zone.headers zone.root path shm

/-- The zone waits for the loader of its cache; without worker processes there is
none. -/
def Deferred (single : Bool) (zone : RegisteredZone) : Prop :=
  zone.path.isSome = true ∧ zone.cold = true ∧ single = false

/-- The zone has a cache, and its loader has nothing left to do. -/
def Warm (single : Bool) (zone : RegisteredZone) : Prop :=
  zone.path.isSome = true ∧ (zone.cold = false ∨ single = true)

end RegisteredZone

/-- One turn of the loop; `NGX_AGAIN` is a zone that is deferred. -/
def tryBootstrapTurn (N : Nginx) (single : Bool) (i : Nat) (zone : RegisteredZone)
    (st : Bootstraps) : NgxRc × Bootstraps :=
  match zone.path with
  | none => (.ok, st)
  | some path =>
    if zone.cold && !single then (.again, st)
    else
      let state := getZoneState zone.now st.shm zone.zoneName
      if state.bootstrapComplete then
        (.ok, { st with cached := Function.update st.cached i (some state) })
      else
        match zone.bootstrap N path st.shm with
        | (.ok, shm) =>
          let state := getZoneState zone.now shm zone.zoneName
          (.ok,
            { shm := shm
              scanned := st.scanned ++ [i]
              cached := Function.update st.cached i (some state) })
        | (_, shm) => (.error, { st with shm := shm, scanned := st.scanned ++ [i] })

/-- The loop over the zones from number `i` on. -/
def tryBootstrapLoop (N : Nginx) (single : Bool) :
    Nat → List RegisteredZone → Bool → Bootstraps → NgxRc × Bootstraps
  | _, [], deferred, st => (if deferred then .again else .ok, st)
  | i, zone :: zones, deferred, st =>
    match tryBootstrapTurn N single i zone st with
    | (.error, st) => (.error, st)
    | (.again, st) => tryBootstrapLoop N single (i + 1) zones true st
    | (_, st) => tryBootstrapLoop N single (i + 1) zones deferred st

/-- `ngx_http_cache_index_try_bootstrap_zones`; `writer` is whether this worker writes
the index. -/
def tryBootstrapZones (N : Nginx) (writer single : Bool) (zones : List RegisteredZone) (shm : Shm) :
    NgxRc × Bootstraps :=
  let st : Bootstraps := ⟨shm, [], fun _ => none⟩
  if zones = [] ∨ !writer then (.ok, st) else tryBootstrapLoop N single 0 zones false st

/-- `ngx_http_cache_index_bootstrap_timer_handler`: whether it sets its timer again. -/
def bootstrapTimerHandler (N : Nginx) (writer single : Bool) (zones : List RegisteredZone)
    (shm : Shm) : Bool × Bootstraps :=
  match tryBootstrapZones N writer single zones shm with
  | (.again, st) => (true, st)
  | (_, st) => (false, st)

/-- The end of `ngx_http_cache_index_init_runtime`: its return code, and whether it
sets the timer. -/
def initRuntime (N : Nginx) (writer single : Bool) (zones : List RegisteredZone) (shm : Shm) :
    NgxRc × Bool × Bootstraps :=
  match tryBootstrapZones N writer single zones shm with
  | (.error, st) => (.error, false, st)
  | (.again, st) => (.ok, true, st)
  | (_, st) => (.ok, false, st)

/-! ## One zone -/

variable {N : Nginx} {s s' s'' : Shm}

/-- The invariant holds, and the zones that were ready are. -/
structure Readies (N : Nginx) (s s' : Shm) : Prop where
  ok : ShmOk N s'
  ready : ∀ z, zoneReady s z = true → zoneReady s' z = true

theorem Readies.trans (h : Readies N s s') (h' : Readies N s' s'') : Readies N s s'' :=
  ⟨h'.ok, fun z hz => h'.ready z (h.ready z hz)⟩

theorem processFile_readies (h : ShmOk N s) (alloc : AllocSite → Bool) (now : Int)
    (createPool : Bool) (pool : ParsePool) (zoneName path : Bytes) (info : Option FileInfo)
    (read : Option Bytes) (headers : List Bytes) :
    Readies N s (processFile N alloc now createPool pool zoneName path info read headers s).2 := by
  have hdelete : Readies N s (deleteFile N now zoneName path s).2 :=
    ⟨(deleteFile_spec h now zoneName path).2.1.ok, fun z hz => by rw [deleteFile_ready, hz]⟩
  have hupsert : ∀ key mtime size tags,
      Readies N s (upsertFileMeta N alloc now zoneName path key mtime size tags s).2 :=
    fun key mtime size tags =>
      ⟨(upsertFileMeta_spec h alloc now zoneName path key mtime size tags).2.1.ok,
        fun z hz => by rw [upsertFileMeta_ready h, hz]⟩
  unfold processFile
  split
  · exact ⟨h, fun _ hz => hz⟩
  · split
    · split
      · exact hdelete
      · exact hupsert ..
    · split
      · exact hdelete
      · exact hupsert ..

section

variable (alloc : AllocSite → Bool) (now : Int) (zoneName : Bytes) (headers : List Bytes)
  (minMtime : Int)

mutual
theorem scanRecursive_readies (node : FsNode) (path : Bytes) (s : Shm) (h : ShmOk N s) :
    Readies N s (scanRecursive N alloc now zoneName headers minMtime node path s).2 := by
  match node with
  | .dir true entries => exact scanEntries_readies entries path s h
  | .dir false entries => exact ⟨h, fun _ hz => hz⟩
  | .file => exact ⟨h, fun _ hz => hz⟩
  | .special => exact ⟨h, fun _ hz => hz⟩

theorem scanEntries_readies (entries : Entries) (path : Bytes) (s : Shm) (h : ShmOk N s) :
    Readies N s (scanEntries N alloc now zoneName headers minMtime entries path s).2 := by
  match entries with
  | .nil => exact ⟨h, fun _ hz => hz⟩
  | .cons name type calls node rest =>
    have hrest := fun s h => scanEntries_readies rest path s h
    have hnode := scanRecursive_readies node (joinPath path name) s h
    have hfile := processFile_readies h alloc now calls.createPool calls.pool zoneName
      (joinPath path name) calls.info (node.read calls) headers
    unfold scanEntries
    split
    · exact hrest s h
    · split
      · exact ⟨h, fun _ hz => hz⟩
      · split
        · generalize scanRecursive N alloc now zoneName headers minMtime node (joinPath path name) s = r
            at hnode
          obtain ⟨rc, s1⟩ := r
          cases rc with
          | error => exact hnode
          | _ => exact hnode.trans (hrest s1 hnode.ok)
        · split
          · exact hrest s h
          · split
            · exact hrest s h
            · generalize processFile N alloc now calls.createPool calls.pool zoneName
                (joinPath path name) calls.info (node.read calls) headers s = r at hfile
              obtain ⟨rc, s1⟩ := r
              cases rc with
              | error => exact hfile
              | _ => exact hfile.trans (hrest s1 hfile.ok)
end

end

/-- The commit makes its zone ready when it succeeds, and none unready. -/
theorem commit_readies (h : ShmOk N s) (ok : Bool) (now : Int) (zoneName : Bytes) :
    let r := setZoneState ok now zoneName ⟨true, now, now⟩ s
    Readies N s r.2 ∧ (r.1 = .ok → zoneReady r.2 zoneName = true) := by
  intro r
  have hok : ShmOk N r.2 := (setZoneState_spec h ok now zoneName ⟨true, now, now⟩).1.ok
  rcases setZoneState_stored h ok now zoneName ⟨true, now, now⟩ with ⟨-, hstored⟩ | ⟨herr, hstored⟩
  · have hready : ∀ z, sameZoneName zoneName z = true → zoneReady r.2 z = true := by
      intro z hz
      rw [← storedState_complete, hstored z, if_pos hz]
      exact normalizeZoneState_complete now ⟨true, now, now⟩
    refine ⟨⟨hok, fun z hz => ?_⟩, fun _ => hready zoneName (sameZoneName_refl zoneName)⟩
    cases hsame : sameZoneName zoneName z with
    | true => exact hready z hsame
    | false =>
      rw [← storedState_complete, hstored z, hsame, if_neg (by decide), storedState_complete]
      exact hz
  · refine ⟨⟨hok, fun z hz => ?_⟩, fun h0 => nomatch herr.symm.trans h0⟩
    rw [← storedState_complete, hstored z, storedState_complete]
    exact hz

/-- So does a bootstrap. -/
theorem RegisteredZone.bootstrap_readies (h : ShmOk N s) (zone : RegisteredZone) (path : Bytes) :
    Readies N s (zone.bootstrap N path s).2 ∧
      ((zone.bootstrap N path s).1 = .ok → zoneReady (zone.bootstrap N path s).2 zone.zoneName = true) := by
  have hscan := scanRecursive_readies zone.alloc zone.now zone.zoneName zone.headers 0 zone.root path s h
  unfold RegisteredZone.bootstrap bootstrapZone scanZone
  generalize scanRecursive N zone.alloc zone.now zone.zoneName zone.headers 0 zone.root path s = r
    at hscan
  obtain ⟨rc, s1⟩ := r
  cases rc with
  | ok =>
    have hcommit := commit_readies hscan.ok (zone.alloc .zone) zone.now zone.zoneName
    simp only
    generalize setZoneState (zone.alloc .zone) zone.now zone.zoneName ⟨true, zone.now, zone.now⟩ s1 = r
      at hcommit
    obtain ⟨rc, s2⟩ := r
    cases rc with
    | ok => exact ⟨hscan.trans hcommit.1, hcommit.2⟩
    | _ => exact ⟨hscan.trans hcommit.1, (nomatch ·)⟩
  | _ => exact ⟨hscan, (nomatch ·)⟩

/-- In this state the zone needs a bootstrap, and that goes wrong. -/
def RegisteredZone.Fails (N : Nginx) (single : Bool) (zone : RegisteredZone) (s : Shm) : Prop :=
  zone.Warm single ∧ zoneReady s zone.zoneName = false ∧
    ∃ path ∈ zone.path, (zone.bootstrap N path s).1 ≠ .ok

variable {single deferred : Bool} {i : Nat} {st : Bootstraps}

/-- What one turn leaves. -/
structure TurnSpec (N : Nginx) (single : Bool) (i : Nat) (zone : RegisteredZone) (st : Bootstraps)
    (r : NgxRc × Bootstraps) : Prop where
  readies : Readies N st.shm r.2.shm
  ready : zone.Warm single → r.1 ≠ .error → zoneReady r.2.shm zone.zoneName = true
  scanned : ∀ j ∈ r.2.scanned, j ∈ st.scanned ∨ j = i ∧ zone.Warm single
  again : r.1 = .again ↔ zone.Deferred single
  fails : r.1 = .error → zone.Fails N single st.shm

theorem tryBootstrapTurn_spec (h : ShmOk N st.shm) (single : Bool) (i : Nat) (zone : RegisteredZone) :
    TurnSpec N single i zone st (tryBootstrapTurn N single i zone st) := by
  unfold tryBootstrapTurn
  cases hpath : zone.path with
  | none =>
    have hnone : zone.path.isSome ≠ true := by
      rw [hpath]
      exact (nomatch ·)
    exact
      { readies := ⟨h, fun _ hz => hz⟩
        ready := fun hwarm => absurd hwarm.1 hnone
        scanned := fun _ hj => Or.inl hj
        again := iff_of_false (nomatch ·) fun hd => hnone hd.1
        fails := (nomatch ·) }
  | some path =>
    have hsome : zone.path.isSome = true := by
      rw [hpath]
      rfl
    cases hcold : zone.cold && !single with
    | true =>
      rw [Bool.and_eq_true, Bool.not_eq_true'] at hcold
      have hnot : ¬ zone.Warm single := by
        rintro ⟨-, h0 | h0⟩
        · exact nomatch h0.symm.trans hcold.1
        · exact nomatch h0.symm.trans hcold.2
      exact
        { readies := ⟨h, fun _ hz => hz⟩
          ready := fun hwarm => absurd hwarm hnot
          scanned := fun _ hj => Or.inl hj
          again := iff_of_true rfl ⟨hsome, hcold⟩
          fails := (nomatch ·) }
    | false =>
      have hwarm : zone.Warm single := by
        refine ⟨hsome, ?_⟩
        rcases Bool.and_eq_false_iff.mp hcold with h0 | h0
        · exact Or.inl h0
        · exact Or.inr (by simpa using h0)
      have hnot : ¬ zone.Deferred single := by
        rintro ⟨-, h0, h1⟩
        rw [h0, h1] at hcold
        exact nomatch hcold
      simp only [Bool.false_eq_true, if_false, getZoneState_complete]
      cases hready : zoneReady st.shm zone.zoneName with
      | true =>
        exact
          { readies := ⟨h, fun _ hz => hz⟩
            ready := fun _ _ => hready
            scanned := fun _ hj => Or.inl hj
            again := iff_of_false (nomatch ·) hnot
            fails := (nomatch ·) }
      | false =>
        obtain ⟨hreadies, hok⟩ := zone.bootstrap_readies h path
        have hfails : (zone.bootstrap N path st.shm).1 ≠ .ok → zone.Fails N single st.shm :=
          fun hne => ⟨hwarm, hready, path, hpath, hne⟩
        have hscanned : ∀ j ∈ st.scanned ++ [i], j ∈ st.scanned ∨ j = i ∧ zone.Warm single := by
          intro j hj
          rcases List.mem_append.mp hj with hj | hj
          · exact Or.inl hj
          · exact Or.inr ⟨List.mem_singleton.mp hj, hwarm⟩
        simp only [Bool.false_eq_true, if_false]
        generalize zone.bootstrap N path st.shm = r at hreadies hok hfails
        obtain ⟨rc, s1⟩ := r
        cases rc with
        | ok =>
          exact
            { readies := hreadies
              ready := fun _ _ => hok rfl
              scanned := hscanned
              again := iff_of_false (nomatch ·) hnot
              fails := (nomatch ·) }
        | _ =>
          exact
            { readies := hreadies
              ready := fun _ hne => absurd rfl hne
              scanned := hscanned
              again := iff_of_false (nomatch ·) hnot
              fails := fun _ => hfails (nomatch ·) }

/-! ## All zones -/

/-- Every warm zone of the list is ready. -/
def WarmReady (single : Bool) (zones : List RegisteredZone) (s : Shm) : Prop :=
  ∀ zone ∈ zones, zone.Warm single → zoneReady s zone.zoneName = true

/-- What the loop leaves: it gets to the end of the list, or to the first zone whose
bootstrap goes wrong. -/
structure LoopSpec (N : Nginx) (single : Bool) (i : Nat) (zones : List RegisteredZone)
    (deferred : Bool) (st : Bootstraps) (r : NgxRc × Bootstraps) : Prop where
  readies : Readies N st.shm r.2.shm
  scanned : ∀ j ∈ r.2.scanned, j ∈ st.scanned ∨
    ∃ k zone, j = i + k ∧ zones[k]? = some zone ∧ zone.Warm single
  result :
    (r.1 ≠ .error ∧ WarmReady single zones r.2.shm ∧
      (r.1 = .again ↔ deferred = true ∨ ∃ zone ∈ zones, zone.Deferred single)) ∨
    r.1 = .error ∧ ∃ before zone behind, zones = before ++ zone :: behind ∧
      (tryBootstrapLoop N single i before deferred st).1 ≠ .error ∧
      zone.Fails N single (tryBootstrapLoop N single i before deferred st).2.shm ∧
      WarmReady single before r.2.shm ∧ ∀ j ∈ r.2.scanned, j ∈ st.scanned ∨ j ≤ i + before.length

/-- A turn that goes on, and the loop behind it. -/
theorem LoopSpec.turn {zone : RegisteredZone} {zones : List RegisteredZone} {deferred' : Bool}
    {st' : Bootstraps} {rc : NgxRc} {r : NgxRc × Bootstraps}
    (hturn : TurnSpec N single i zone st (rc, st')) (hrc : rc ≠ .error)
    (hdeferred : deferred' = true ↔ deferred = true ∨ rc = .again)
    (hloop : ∀ zones, tryBootstrapLoop N single i (zone :: zones) deferred st =
      tryBootstrapLoop N single (i + 1) zones deferred' st')
    (hrest : LoopSpec N single (i + 1) zones deferred' st' r) :
    LoopSpec N single i (zone :: zones) deferred st r := by
  have hready : zone.Warm single → zoneReady r.2.shm zone.zoneName = true := fun hwarm =>
    hrest.readies.ready _ (hturn.ready hwarm hrc)
  refine ⟨hturn.readies.trans hrest.readies, fun j hj => ?_, ?_⟩
  · rcases hrest.scanned j hj with hj | ⟨k, z, rfl, hz, hwarm⟩
    · rcases hturn.scanned j hj with hj | ⟨rfl, hwarm⟩
      · exact Or.inl hj
      · exact Or.inr ⟨0, zone, rfl, rfl, hwarm⟩
    · exact Or.inr ⟨k + 1, z, by omega, hz, hwarm⟩
  · rcases hrest.result with ⟨hne, hwarm, hagain⟩ |
      ⟨herr, before, z, behind, rfl, hbefore, hfails, hwarm, hscanned⟩
    · refine Or.inl ⟨hne, List.forall_mem_cons.mpr ⟨hready, hwarm⟩, ?_⟩
      rw [hagain, hdeferred, List.exists_mem_cons_iff, hturn.again, or_assoc]
    · refine Or.inr ⟨herr, zone :: before, z, behind, rfl, ?_, ?_,
        List.forall_mem_cons.mpr ⟨hready, hwarm⟩, fun j hj => ?_⟩
      · rw [hloop]
        exact hbefore
      · rw [hloop]
        exact hfails
      · rcases hscanned j hj with hj | hj
        · rcases hturn.scanned j hj with hj | ⟨rfl, -⟩
          · exact Or.inl hj
          · exact Or.inr (Nat.le_add_right j _)
        · refine Or.inr ?_
          rw [List.length_cons]
          omega

theorem tryBootstrapLoop_spec (h : ShmOk N st.shm) (single : Bool) (i : Nat)
    (zones : List RegisteredZone) (deferred : Bool) :
    LoopSpec N single i zones deferred st (tryBootstrapLoop N single i zones deferred st) := by
  induction zones generalizing i deferred st with
  | nil =>
    refine ⟨⟨h, fun _ hz => hz⟩, fun j hj => Or.inl hj, Or.inl ⟨?_, ?_, ?_⟩⟩
    · cases deferred <;> exact (nomatch ·)
    · exact fun _ hz => absurd hz List.not_mem_nil
    · cases deferred <;> simp [tryBootstrapLoop]
  | cons zone zones ih =>
    have hturn := tryBootstrapTurn_spec h single i zone
    have hunfold : ∀ zones, tryBootstrapLoop N single i (zone :: zones) deferred st =
        match tryBootstrapTurn N single i zone st with
        | (.error, st) => (.error, st)
        | (.again, st) => tryBootstrapLoop N single (i + 1) zones true st
        | (_, st) => tryBootstrapLoop N single (i + 1) zones deferred st := fun _ => rfl
    generalize tryBootstrapTurn N single i zone st = turn at hturn hunfold
    obtain ⟨rc, st'⟩ := turn
    rw [hunfold]
    cases rc with
    | error =>
      refine ⟨hturn.readies, fun j hj => ?_, Or.inr ⟨rfl, [], zone, zones, rfl, ?_, hturn.fails rfl, ?_, ?_⟩⟩
      · rcases hturn.scanned j hj with hj | ⟨rfl, hwarm⟩
        · exact Or.inl hj
        · exact Or.inr ⟨0, zone, rfl, rfl, hwarm⟩
      · cases deferred <;> exact (nomatch ·)
      · exact fun _ hz => absurd hz List.not_mem_nil
      · intro j hj
        exact (hturn.scanned j hj).imp_right fun h0 => Nat.le_of_eq h0.1
    | again =>
      exact .turn hturn (nomatch ·) (by simp) hunfold (ih hturn.readies.ok (i + 1) true)
    | ok =>
      exact .turn hturn (nomatch ·) (by simp) hunfold (ih hturn.readies.ok (i + 1) deferred)
    | declined =>
      exact .turn hturn (nomatch ·) (by simp) hunfold (ih hturn.readies.ok (i + 1) deferred)
    | done =>
      exact .turn hturn (nomatch ·) (by simp) hunfold (ih hturn.readies.ok (i + 1) deferred)

theorem tryBootstrapZones_writer (N : Nginx) (single : Bool) (zones : List RegisteredZone) (s : Shm) :
    tryBootstrapZones N true single zones s =
      tryBootstrapLoop N single 0 zones false ⟨s, [], fun _ => none⟩ := by
  cases zones with
  | nil => rfl
  | cons zone zones => rfl

theorem bootstrapTimerHandler_iff (N : Nginx) (writer single : Bool) (zones : List RegisteredZone)
    (s : Shm) : (bootstrapTimerHandler N writer single zones s).1 = true ↔
      (tryBootstrapZones N writer single zones s).1 = .again := by
  unfold bootstrapTimerHandler
  rcases tryBootstrapZones N writer single zones s with ⟨rc, st⟩
  cases rc <;> simp

theorem initRuntime_iff (N : Nginx) (writer single : Bool) (zones : List RegisteredZone) (s : Shm) :
    ((initRuntime N writer single zones s).2.1 = true ↔
      (tryBootstrapZones N writer single zones s).1 = .again) ∧
    ((initRuntime N writer single zones s).1 = .error ↔
      (tryBootstrapZones N writer single zones s).1 = .error) := by
  unfold initRuntime
  rcases tryBootstrapZones N writer single zones s with ⟨rc, st⟩
  cases rc <;> simp

/-- One call of `try_bootstrap_zones` in the worker that writes the index. No deferred
zone is scanned. The warm zones in front of the first whose bootstrap goes wrong are
ready, and the ones behind it are not scanned; if there is no such zone, all warm
zones are ready, and the timer is set if and only if a zone is deferred. -/
theorem bootstrap_zones_in_order (N : Nginx) (single : Bool) (zones : List RegisteredZone) (s : Shm)
    (h : ShmOk N s) :
    let r := tryBootstrapZones N true single zones s
    (∀ z, zoneReady s z = true → zoneReady r.2.shm z = true) ∧
    (∀ j ∈ r.2.scanned, ∃ zone, zones[j]? = some zone ∧ zone.Warm single) ∧
    ((r.1 ≠ .error ∧ WarmReady single zones r.2.shm ∧
        ((bootstrapTimerHandler N true single zones s).1 = true ↔
          ∃ zone ∈ zones, zone.Deferred single) ∧
        ((initRuntime N true single zones s).2.1 = true ↔ ∃ zone ∈ zones, zone.Deferred single)) ∨
      r.1 = .error ∧ (bootstrapTimerHandler N true single zones s).1 = false ∧
        (initRuntime N true single zones s).1 = .error ∧
        ∃ before zone behind, zones = before ++ zone :: behind ∧
          (tryBootstrapZones N true single before s).1 ≠ .error ∧
          zone.Fails N single (tryBootstrapZones N true single before s).2.shm ∧
          WarmReady single before r.2.shm ∧ ∀ j ∈ r.2.scanned, j ≤ before.length) := by
  intro r
  have hspec : LoopSpec N single 0 zones false ⟨s, [], fun _ => none⟩ r := by
    have hr : r = tryBootstrapLoop N single 0 zones false ⟨s, [], fun _ => none⟩ :=
      tryBootstrapZones_writer N single zones s
    rw [hr]
    exact tryBootstrapLoop_spec h single 0 zones false
  have htimer := bootstrapTimerHandler_iff N true single zones s
  obtain ⟨hinit, herror⟩ := initRuntime_iff N true single zones s
  refine ⟨hspec.readies.ready, fun j hj => ?_, ?_⟩
  · rcases hspec.scanned j hj with hj | ⟨k, zone, rfl, hz, hwarm⟩
    · exact absurd hj List.not_mem_nil
    · rw [Nat.zero_add]
      exact ⟨zone, hz, hwarm⟩
  · rcases hspec.result with ⟨hne, hwarm, hagain⟩ |
      ⟨herr, before, zone, behind, hzones, hbefore, hfails, hwarm, hscanned⟩
    · have hdeferred : r.1 = .again ↔ ∃ zone ∈ zones, zone.Deferred single :=
        hagain.trans (or_iff_right (nomatch ·))
      exact Or.inl ⟨hne, hwarm, htimer.trans hdeferred, hinit.trans hdeferred⟩
    · rw [← tryBootstrapZones_writer] at hbefore hfails
      have hoff : (bootstrapTimerHandler N true single zones s).1 = false :=
        Bool.of_not_eq_true fun h0 => nomatch herr.symm.trans (htimer.mp h0)
      refine Or.inr ⟨herr, hoff, herror.mpr herr, before, zone, behind, hzones, hbefore, hfails,
        hwarm, fun j hj => ?_⟩
      rcases hscanned j hj with hj | hj
      · exact absurd hj List.not_mem_nil
      · rwa [Nat.zero_add] at hj

/-- A zone with an empty cache directory. -/
def emptyZone (zoneName : Bytes) (cold : Bool) (alloc : AllocSite → Bool) : RegisteredZone where
  zoneName := zoneName
  headers := []
  path := some [99]
  cold := cold
  root := .dir true .nil
  alloc := alloc
  now := 1

/-- A cold zone and two warm ones. -/
theorem bootstrap_zones_in_order_sample :
    let zones := [emptyZone [97] true fun _ => true, emptyZone [98] false fun _ => true,
      emptyZone [99] false fun _ => true]
    WarmReady false zones (tryBootstrapZones .reference true false zones .init).2.shm := by
  intro zones
  rcases (bootstrap_zones_in_order .reference false zones .init .init).2.2 with
    ⟨-, hwarm, -⟩ | ⟨herr, -⟩
  · exact hwarm
  · exact absurd herr (by decide +kernel)

/-- Two warm zones and a cold one; the state of the first cannot be written. -/
def failingZones : List RegisteredZone :=
  [emptyZone [97] false fun _ => false, emptyZone [98] false fun _ => true,
    emptyZone [99] true fun _ => true]

/-- The second zone could be bootstrapped and is not, and the timer is not set for the
third. -/
theorem failed_zone_ends_bootstrap :
    zoneReady (tryBootstrapZones .reference true false failingZones .init).2.shm [98] = false ∧
    ¬ ∀ (N : Nginx) (single : Bool) (zones : List RegisteredZone) (s : Shm), ShmOk N s →
      let r := tryBootstrapZones N true single zones s
      (∀ zone ∈ zones, zone.Warm single →
        (∀ s path, zone.path = some path → (zone.bootstrap N path s).1 = .ok) →
        zoneReady r.2.shm zone.zoneName = true) ∧
      (∀ j ∈ r.2.scanned, ∀ zone, zones[j]? = some zone → ¬ zone.Deferred single) ∧
      ((∃ zone ∈ zones, zone.Deferred single) →
        (bootstrapTimerHandler N true single zones s).1 = true) := by
  refine ⟨by decide +kernel, fun h => ?_⟩
  have htimer := (h .reference false failingZones .init .init).2.2
    ⟨emptyZone [99] true fun _ => true, by simp [failingZones], rfl, rfl, rfl⟩
  exact absurd htimer (by decide +kernel)

end CachePilot
