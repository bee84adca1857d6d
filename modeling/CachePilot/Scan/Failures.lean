import CachePilot.Scan.Zones
import CachePilot.Store.Failures

/-!
# Failed allocations of a bootstrap

A scan passes over a file that it cannot parse, but not over one whose entry does not
fit: `NGX_ERROR` of the store ends the scan, the bootstrap of its zone, the loop over
the zones and the timer.

Results:
* `bootstrap_counts_one`: the bootstraps of a worker, from its start to the last turn of
  its timer, meet at most one failed allocation.
-/

namespace CachePilot
open NgxString

/-! ## One bootstrap -/

/-- A part of a bootstrap has left the counter alone, or it is an error that has counted
one failure. Not every error has: a scan fails without a pool as well. -/
def CountsFatal (s : Shm) (rc : NgxRc) (s' : Shm) : Prop :=
  s'.allocFailures = s.allocFailures ∨
    rc = .error ∧ s'.allocFailures = s.allocFailures + 1

variable {N : Nginx} {s s' : Shm} {rc : NgxRc}

theorem Counts.fatal {r : NgxRc × Shm} (h : Counts s r) : CountsFatal s r.1 r.2 :=
  h.imp And.right id

theorem CountsFatal.refl (s : Shm) (rc : NgxRc) : CountsFatal s rc s := Or.inl rfl

/-- A part that did not fail, and what comes behind it. -/
theorem CountsFatal.trans {s'' : Shm} {rc' : NgxRc} (h : CountsFatal s rc s') (hrc : rc ≠ .error)
    (h' : CountsFatal s' rc' s'') : CountsFatal s rc' s'' := by
  rcases h with heq | ⟨herr, -⟩
  · unfold CountsFatal at h' ⊢
    rwa [heq] at h'
  · exact absurd herr hrc

/-- What fails for one reason fails for the other. -/
theorem CountsFatal.error (h : CountsFatal s rc s') : CountsFatal s .error s' :=
  h.imp_right fun h => ⟨rfl, h.2⟩

theorem processFile_counts (N : Nginx) (alloc : AllocSite → Bool) (now : Int) (createPool : Bool)
    (pool : ParsePool) (zoneName path : Bytes) (info : Option FileInfo) (read : Option Bytes)
    (headers : List Bytes) (s : Shm) :
    let r := processFile N alloc now createPool pool zoneName path info read headers s
    CountsFatal s r.1 r.2 := by
  intro r
  have hdelete := (deleteFile_counts N now zoneName path s).fatal
  have hupsert := fun key mtime size tags =>
    (upsertFileMeta_counts N alloc now zoneName path key mtime size tags s).fatal
  simp only [r]
  unfold processFile
  split
  · exact .refl s _
  · split
    · split
      · exact hdelete
      · exact hupsert _ _ _ _
    · split
      · exact hdelete
      · exact hupsert _ _ _ _

section

variable (alloc : AllocSite → Bool) (now : Int) (zoneName : Bytes) (headers : List Bytes)
  (minMtime : Int)

mutual
theorem scanRecursive_counts (node : FsNode) (path : Bytes) (s : Shm) :
    let r := scanRecursive N alloc now zoneName headers minMtime node path s
    CountsFatal s r.1 r.2 := by
  match node with
  | .dir true entries => exact scanEntries_counts entries path s
  | .dir false entries => exact .refl s _
  | .file => exact .refl s _
  | .special => exact .refl s _

theorem scanEntries_counts (entries : Entries) (path : Bytes) (s : Shm) :
    let r := scanEntries N alloc now zoneName headers minMtime entries path s
    CountsFatal s r.1 r.2 := by
  match entries with
  | .nil => exact .refl s _
  | .cons name type calls node rest =>
    have hrest := scanEntries_counts rest path
    have hnode := scanRecursive_counts node (joinPath path name) s
    have hfile := processFile_counts N alloc now calls.createPool calls.pool zoneName
      (joinPath path name) calls.info (node.read calls) headers s
    simp only at hrest hnode hfile ⊢
    unfold scanEntries
    split
    · exact hrest s
    · split
      · exact .refl s _
      · split
        · generalize scanRecursive N alloc now zoneName headers minMtime node (joinPath path name) s = r
            at hnode
          obtain ⟨rc, s1⟩ := r
          cases rc with
          | error => exact hnode
          | _ => exact hnode.trans (nomatch ·) (hrest s1)
        · split
          · exact hrest s
          · split
            · exact hrest s
            · generalize processFile N alloc now calls.createPool calls.pool zoneName
                (joinPath path name) calls.info (node.read calls) headers s = r at hfile
              obtain ⟨rc, s1⟩ := r
              cases rc with
              | error => exact hfile
              | _ => exact hfile.trans (nomatch ·) (hrest s1)
end

end

/-- A zone that cannot be committed has been scanned to its end. -/
theorem RegisteredZone.bootstrap_counts (N : Nginx) (zone : RegisteredZone) (path : Bytes) (s : Shm) :
    CountsFatal s (zone.bootstrap N path s).1 (zone.bootstrap N path s).2 := by
  have hscan := scanRecursive_counts (N := N) zone.alloc zone.now zone.zoneName zone.headers 0
    zone.root path s
  simp only at hscan
  unfold RegisteredZone.bootstrap bootstrapZone scanZone
  generalize scanRecursive N zone.alloc zone.now zone.zoneName zone.headers 0 zone.root path s = r
    at hscan
  obtain ⟨rc, s1⟩ := r
  cases rc with
  | ok =>
    have hcommit := (setZoneState_counts (zone.alloc .zone) zone.now zone.zoneName
      ⟨true, zone.now, zone.now⟩ s1).fatal
    have hall := hscan.trans (nomatch ·) hcommit
    simp only
    generalize setZoneState (zone.alloc .zone) zone.now zone.zoneName ⟨true, zone.now, zone.now⟩ s1 = r
      at hall
    obtain ⟨rc, s2⟩ := r
    cases rc with
    | ok => exact hall
    | _ => exact hall.error
  | _ => exact hscan.error

/-! ## The loop and the timer -/

variable {single deferred : Bool} {i : Nat} {st : Bootstraps}

theorem tryBootstrapTurn_counts (N : Nginx) (single : Bool) (i : Nat) (zone : RegisteredZone)
    (st : Bootstraps) :
    let r := tryBootstrapTurn N single i zone st
    CountsFatal st.shm r.1 r.2.shm := by
  intro r
  simp only [r]
  unfold tryBootstrapTurn
  split
  · exact .refl _ _
  · next path _ =>
    split
    · exact .refl _ _
    · simp only
      split
      · exact .refl _ _
      · have hzone := zone.bootstrap_counts N path st.shm
        generalize zone.bootstrap N path st.shm = r at hzone
        obtain ⟨rc, s1⟩ := r
        cases rc with
        | ok => exact hzone
        | _ => exact hzone.error

theorem tryBootstrapLoop_counts (N : Nginx) (single : Bool) (i : Nat) (zones : List RegisteredZone)
    (deferred : Bool) (st : Bootstraps) :
    let r := tryBootstrapLoop N single i zones deferred st
    CountsFatal st.shm r.1 r.2.shm := by
  induction zones generalizing i deferred st with
  | nil => exact .refl _ _
  | cons zone zones ih =>
    have hturn := tryBootstrapTurn_counts N single i zone st
    simp only at ih hturn ⊢
    unfold tryBootstrapLoop
    generalize tryBootstrapTurn N single i zone st = r at hturn
    obtain ⟨rc, st1⟩ := r
    cases rc with
    | error => exact hturn
    | again => exact hturn.trans (by rintro ⟨⟩) (ih ..)
    | ok => exact hturn.trans (by rintro ⟨⟩) (ih ..)
    | declined => exact hturn.trans (by rintro ⟨⟩) (ih ..)
    | done => exact hturn.trans (by rintro ⟨⟩) (ih ..)

theorem tryBootstrapZones_counts (N : Nginx) (writer single : Bool) (zones : List RegisteredZone)
    (s : Shm) :
    let r := tryBootstrapZones N writer single zones s
    CountsFatal s r.1 r.2.shm := by
  intro r
  simp only [r]
  unfold tryBootstrapZones
  simp only
  split
  · exact .refl _ _
  · exact tryBootstrapLoop_counts N single 0 zones false ⟨s, [], fun _ => none⟩

/-! ## A worker -/

/-- What a turn of the worker's bootstrap finds: the zones, with what their scans get,
and the index as the other processes have left it. -/
structure BootstrapTurn where
  zones : List RegisteredZone
  shm : Shm

/-- The failed allocations that a worker's bootstraps count: at its start, and then at
each turn of the timer, as long as it is set again. -/
def timerFailures (N : Nginx) (writer single : Bool) : List BootstrapTurn → Nat
  | [] => 0
  | turn :: turns =>
    let r := bootstrapTimerHandler N writer single turn.zones turn.shm
    (getStats r.2.shm - getStats turn.shm) + if r.1 then timerFailures N writer single turns else 0

/-- `ngx_http_cache_index_init_runtime`, and the turns of the timer that it sets. -/
def workerFailures (N : Nginx) (writer single : Bool) (start : BootstrapTurn)
    (turns : List BootstrapTurn) : Nat :=
  let r := initRuntime N writer single start.zones start.shm
  (getStats r.2.2.shm - getStats start.shm) + if r.2.1 then timerFailures N writer single turns else 0

theorem bootstrapTimerHandler_shm (N : Nginx) (writer single : Bool) (zones : List RegisteredZone)
    (s : Shm) : (bootstrapTimerHandler N writer single zones s).2 =
      (tryBootstrapZones N writer single zones s).2 := by
  unfold bootstrapTimerHandler
  rcases tryBootstrapZones N writer single zones s with ⟨rc, st⟩
  cases rc with
  | _ => rfl

theorem initRuntime_shm (N : Nginx) (writer single : Bool) (zones : List RegisteredZone) (s : Shm) :
    (initRuntime N writer single zones s).2.2 = (tryBootstrapZones N writer single zones s).2 := by
  unfold initRuntime
  rcases tryBootstrapZones N writer single zones s with ⟨rc, st⟩
  cases rc with
  | _ => rfl

/-- A turn behind which there is another has counted nothing. -/
theorem CountsFatal.turn (h : CountsFatal s rc s') {again : Bool} (hagain : again = true ↔ rc = .again)
    {rest : Nat} (hrest : rest ≤ 1) :
    (getStats s' - getStats s) + (if again then rest else 0) ≤ 1 ∧
      (getStats s' ≠ getStats s → rc = .error) := by
  unfold getStats
  rcases h with heq | ⟨rfl, heq⟩
  · refine ⟨?_, fun hne => absurd heq hne⟩
    rw [heq, Nat.sub_self, Nat.zero_add]
    split
    · exact hrest
    · exact Nat.zero_le 1
  · refine ⟨?_, fun _ => rfl⟩
    have hoff : again = false := Bool.of_not_eq_true fun h0 => nomatch hagain.mp h0
    rw [heq, hoff, Nat.add_sub_cancel_left]
    exact Nat.le_refl 1

theorem timerFailures_le (N : Nginx) (writer single : Bool) (turns : List BootstrapTurn) :
    timerFailures N writer single turns ≤ 1 := by
  induction turns with
  | nil => exact Nat.zero_le 1
  | cons turn turns ih =>
    have hcounts := tryBootstrapZones_counts N writer single turn.zones turn.shm
    simp only at hcounts
    rw [← bootstrapTimerHandler_shm] at hcounts
    exact (hcounts.turn (bootstrapTimerHandler_iff N writer single turn.zones turn.shm) ih).1

/-- Whatever happens to the index in between, and however many zones there are, the
bootstraps of a worker meet at most one failed allocation: the call in which it is
counted is a fatal error, at the start as well as at a turn of the timer. -/
theorem bootstrap_counts_one (N : Nginx) (writer single : Bool) (start : BootstrapTurn)
    (turns : List BootstrapTurn) :
    workerFailures N writer single start turns ≤ 1 ∧
      (getStats (initRuntime N writer single start.zones start.shm).2.2.shm ≠ getStats start.shm →
        (initRuntime N writer single start.zones start.shm).1 = .error) ∧
      ∀ turn : BootstrapTurn,
        getStats (bootstrapTimerHandler N writer single turn.zones turn.shm).2.shm ≠
          getStats turn.shm →
        (bootstrapTimerHandler N writer single turn.zones turn.shm).1 = false := by
  have hstart := tryBootstrapZones_counts N writer single start.zones start.shm
  obtain ⟨hagain, herror⟩ := initRuntime_iff N writer single start.zones start.shm
  simp only at hstart
  rw [← initRuntime_shm] at hstart
  obtain ⟨hone, hfatal⟩ := hstart.turn hagain (timerFailures_le N writer single turns)
  refine ⟨hone, fun hne => herror.mpr (hfatal hne), fun turn hne => ?_⟩
  have hcounts := tryBootstrapZones_counts N writer single turn.zones turn.shm
  have hiff := bootstrapTimerHandler_iff N writer single turn.zones turn.shm
  simp only at hcounts
  rw [← bootstrapTimerHandler_shm] at hcounts
  have herr := (hcounts.turn hiff (Nat.zero_le 1)).2 hne
  exact Bool.of_not_eq_true fun h0 => nomatch herr.symm.trans (hiff.mp h0)

end CachePilot
