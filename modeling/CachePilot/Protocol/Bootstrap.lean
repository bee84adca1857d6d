import CachePilot.Protocol.Index

/-!
# Bootstrap beside live requests

A worker that scans the cache reads a file in one turn and indexes what it read in
another, and requests store and log in between. Once the scan has marked the zone,
every file on disk has been called upon in the index, by the scan or by the request
that stored it; what the last of these calls left may be older than the file.

Results:
* `scan_file_turns`: the two turns of a scan on a file are `process_file`;
* `scanned_current_iff`: behind a scan that marked the zone, which files have an
  entry with the tags of their version;
* `stale_parse_overwrites_entry`: a scan that ends with the tags of the version
  before.
-/

namespace CachePilot
open NgxString Interleave

variable {L : HeaderLayout} {cfg : ZoneConf}

/-! ## A scan on one file -/

/-- What `ngx_file_info` answers for a file. -/
def Shared.fileInfo (s : Shared) (calls : FileCalls) (mtime : Int) (path : Bytes) : Option FileInfo :=
  if calls.info then (s.cache.disk path).map fun data => ⟨mtime, data.length⟩ else none

/-- What opening and reading a file gives. -/
def Shared.fileRead (s : Shared) (calls : FileCalls) (path : Bytes) : Option Bytes :=
  if calls.opens && calls.reads then s.cache.disk path else none

theorem deleteFile_ok (N : Nginx) (now : Int) (zoneName path : Bytes) (shm : Shm) :
    (deleteFile N now zoneName path shm).1 = .ok := by
  unfold deleteFile
  cases lookupZone shm zoneName with
  | none => rfl
  | some za =>
    simp only
    cases lookupFile N (shm.zone za) path with
    | none => rfl
    | some fa => rfl

/-- `process_file` indexes what it reads, or drops the entry. -/
theorem processFile_eq (s : Shared) (alloc : AllocSite → Bool) (now : Int) (pool : ParsePool)
    (calls : FileCalls) (mtime : Int) (path : Bytes) :
    processFile cfg.N alloc now true pool cfg.zoneName path (s.fileInfo calls mtime path)
        (s.fileRead calls path) cfg.headers s.shm =
      match s.parse cfg pool calls mtime path with
      | .error _ => deleteFile cfg.N now cfg.zoneName path s.shm
      | .ok p =>
        upsertFileMeta cfg.N alloc now cfg.zoneName path p.key p.mtime p.size p.tags s.shm := by
  have hparse : s.parse cfg pool calls mtime path =
      if cfg.headers = [] then
        (parseFile pool path (s.fileInfo calls mtime path) (s.fileRead calls path) none).map
          fun p => { p with tags := [] }
      else parseFile pool path (s.fileInfo calls mtime path) (s.fileRead calls path)
        (some cfg.headers) := rfl
  rw [hparse]
  unfold processFile
  simp only [Bool.not_true, Bool.false_eq_true, if_false]
  cases hh : decide (cfg.headers = []) with
  | true =>
    have hnil := of_decide_eq_true hh
    rw [if_pos hnil, if_pos hnil]
    cases parseFile pool path (s.fileInfo calls mtime path) (s.fileRead calls path) none with
    | error rc => rfl
    | ok p => rfl
  | false =>
    have hne := of_decide_eq_false hh
    cases parseFile pool path (s.fileInfo calls mtime path) (s.fileRead calls path)
      (some cfg.headers) with
    | error rc => rw [if_neg hne, if_neg hne]
    | ok p => rw [if_neg hne, if_neg hne]

/-- What the scan reads and then indexes, with nobody in between, is what
`process_file` does to the index, and it is given up where `process_file` fails. -/
theorem scan_file_turns (L : HeaderLayout) (s : Shared) (path : FileName) (todo : List FileName)
    (pool : ParsePool) (calls : FileCalls) (mtime : Int) (alloc : AllocSite → Bool) (now : Int) :
    let r := processFile cfg.N alloc now true pool cfg.zoneName path (s.fileInfo calls mtime path)
      (s.fileRead calls path) cfg.headers s.shm
    ∃ proc s', turn (L := L) cfg (.scanning (path :: todo)) (.parse true pool calls mtime) s =
        some (proc, s) ∧
      turn (L := L) cfg proc (.apply alloc now) s =
        some (if r.1 = .error then .failed else .scanning todo, s') ∧ s'.shm = r.2 := by
  intro r
  refine ⟨.parsed path (s.parse cfg pool calls mtime path) todo, ?_⟩
  have hr : r = processFile cfg.N alloc now true pool cfg.zoneName path
    (s.fileInfo calls mtime path) (s.fileRead calls path) cfg.headers s.shm := rfl
  rw [processFile_eq] at hr
  cases hp : s.parse cfg pool calls mtime path with
  | error rc =>
    rw [hp] at hr
    simp only at hr
    refine ⟨s.delete cfg now path, congrArg (fun x => some (Proc.parsed path x todo, s)) hp, ?_, ?_⟩
    · rw [hr, deleteFile_ok, if_neg (by decide)]
      rfl
    · rw [hr]
      rfl
  | ok p =>
    rw [hp] at hr
    simp only at hr
    refine ⟨(s.upsert cfg alloc now path p.key p.mtime p.size p.tags).2,
      congrArg (fun x => some (Proc.parsed path x todo, s)) hp, ?_, ?_⟩
    · rw [hr]
      rfl
    · rw [hr]
      rfl

/-! ## A whole scan -/

/-- A file on disk is still to be logged, or the index was called on its path and
the last call left the entry as it is, or the scan of the worker has not come to it. -/
def Scanned (cfg : ZoneConf) (scanner : Nat) (w : Workers) (p : Bytes) : Prop :=
  ∀ v, w.shared.stored p = some v → (∃ pid, (w.procs pid).Logs p) ∨
    (∃ c, w.shared.last p = some c ∧
      (w.shared.entryTags cfg p = some v.tags ↔ c.agreed = true)) ∨
    (w.procs scanner).Visits p

theorem Scanned.step {w : Workers} {scanner pid : Nat} {proc : Proc} {s : Shared} {p : Bytes}
    (h : Scanned cfg scanner w p) (hp : PathStep cfg p w.shared s (w.procs pid) proc) :
    Scanned cfg scanner ⟨s, Function.update w.procs pid proc⟩ p := by
  intro v hv
  cases hp with
  | quiet hlogs hvisits hstored hlast hentry =>
    simp only at hv ⊢
    rw [hstored] at hv
    rw [hlast, hentry]
    refine (h v hv).imp (logs_update hlogs) (Or.imp_right fun hscan => ?_)
    cases hpid : decide (scanner = pid) with
    | true =>
      obtain rfl := of_decide_eq_true hpid
      rw [Function.update_self]
      exact hvisits hscan
    | false =>
      rw [Function.update_of_ne (of_decide_eq_false hpid)]
      exact hscan
  | gone hstored => exact nomatch hstored.symm.trans hv
  | committed hlogs =>
    refine Or.inl ⟨pid, ?_⟩
    show (Function.update w.procs pid proc pid).Logs p
    rw [Function.update_self]
    exact hlogs
  | called c hlast hentry => exact Or.inr (Or.inl ⟨c, hlast, hentry v hv⟩)

/-- A worker starts to scan a directory with all files that are on disk; the others
may do anything. -/
structure ScanStart (L : HeaderLayout) (cfg : ZoneConf) (scanner : Nat) (w : Workers) : Prop where
  ok : w.shared.Ok L cfg
  scans : ∃ paths, w.procs scanner = .scanning paths ∧
    ∀ p v, w.shared.stored p = some v → ∃ path ∈ paths, path.1 = p

/-- Once the worker has marked the zone and no file is still to be logged, the
index has been called on every file on disk, and a file has an entry with the tags
of its version exactly when the last of these calls agreed with the disk as it ran. -/
theorem scanned_current_iff {scanner : Nat} {w0 w : Workers} {as : Schedule L}
    (h0 : ScanStart L cfg scanner w0) (hr : run (turn cfg) w0 as = some w)
    (hmarked : w.procs scanner = .marked) (hlogged : ∀ pid p, ¬ (w.procs pid).Logs p)
    (p : Bytes) (v : Version) (hv : w.shared.stored p = some v) :
    ∃ c, w.shared.last p = some c ∧
      (w.shared.entryTags cfg p = some v.tags ↔ c.agreed = true) := by
  obtain ⟨paths, hscanning, hpaths⟩ := h0.scans
  have hstart : ∀ p, Scanned cfg scanner w0 p := by
    intro p v hv
    refine Or.inr (Or.inr ?_)
    rw [hscanning]
    exact hpaths p v hv
  have hinv : w.shared.Ok L cfg ∧ ∀ p, Scanned cfg scanner w p := by
    refine run_invariant (I := fun w => w.shared.Ok L cfg ∧ ∀ p, Scanned cfg scanner w p) ?_
      ⟨h0.ok, hstart⟩ hr
    intro w pid act proc s h ht
    have hturn := turn_cases ht
    exact ⟨h.1.turn hturn, fun p => (h.2 p).step (hturn.pathStep h.1 p)⟩
  rcases hinv.2 p v hv with ⟨pid, hl⟩ | hcalled | hvisits
  · exact absurd hl (hlogged pid p)
  · exact hcalled
  · rw [hmarked] at hvisits
    exact hvisits.elim

/-! ## A sample scan -/

/-- A name that the scan takes for a cache file. -/
def scannedName : FileName := ⟨List.replicate 32 97, by decide⟩

/-- A response with the header `T` and a tag of one byte. -/
def taggedFile (tag : UInt8) : CacheFile .reference := sampleFile [84, 58, 32, tag, 13, 10]

/-- One file on disk, with the tag `t`, that worker 0 is about to scan. -/
def scanWorkers : Workers where
  shared := emptyWorkers.shared.commit scannedName [[116]] (taggedFile 116) emptyCache
  procs := Function.update emptyWorkers.procs 0 (.scanning [scannedName])

theorem scanWorkers_start : ScanStart .reference sampleConf 0 scanWorkers where
  ok := emptyWorkers_start.ok.commit scannedName [[116]] (taggedFile 116) emptyCache
  scans := by
    refine ⟨[scannedName], rfl, fun p v hv => ⟨scannedName, List.mem_singleton_self _, ?_⟩⟩
    cases hp : decide (p = scannedName.1) with
    | true => exact (of_decide_eq_true hp).symm
    | false =>
      have hnone : scanWorkers.shared.stored p = none :=
        Function.update_of_ne (of_decide_eq_false hp) _ _
      exact nomatch hnone.symm.trans hv

theorem scanWorkers_idle {pid : Nat} (h : pid ≠ 0) : (scanWorkers.procs pid).inProgress = false := by
  show (Function.update emptyWorkers.procs 0 (Proc.scanning [scannedName]) pid).inProgress = false
  rw [Function.update_of_ne h]
  rfl

/-- The scan reads the file and indexes it, and marks the zone. -/
def scanAlone : Schedule .reference :=
  [(0, .parse true .full .works 1), (0, .apply (fun _ => true) 1), (0, .complete true 1)]

theorem scanned_current_iff_sample :
    ∃ w, run (turn sampleConf) scanWorkers scanAlone = some w ∧
      w.shared.stored scannedName.1 = some ⟨0, [[116]]⟩ ∧
      ∃ c, w.shared.last scannedName.1 = some c ∧
        (w.shared.entryTags sampleConf scannedName.1 = some [[116]] ↔ c.agreed = true) := by
  have hrun : (run (turn sampleConf) scanWorkers scanAlone).any (fun w =>
      (match w.procs 0 with
        | .marked => true
        | _ => false) && w.shared.stored scannedName.1 == some ⟨0, [[116]]⟩) = true := by
    decide +kernel
  obtain ⟨w, hr, hw⟩ := (Option.any_eq_true _ _).mp hrun
  obtain ⟨hproc, hstored⟩ := Bool.and_eq_true_iff.mp hw
  have hmarked : w.procs 0 = .marked := by
    cases hp : w.procs 0 with
    | marked => rfl
    | _ =>
      rw [hp] at hproc
      exact nomatch hproc
  have hdone : ∀ pid, (w.procs pid).inProgress = false := by
    refine run_done (fun pid => ?_) hr fun a ha => ?_
    · cases pid with
      | zero => exact Or.inl ⟨_, List.mem_cons_self, rfl⟩
      | succ n => exact Or.inr (scanWorkers_idle (Nat.succ_ne_zero n))
    · have h0 : a.1 = 0 := by
        simp only [scanAlone, List.mem_cons, List.not_mem_nil, or_false] at ha
        rcases ha with rfl | rfl | rfl <;> rfl
      rw [h0, hmarked]
      rfl
  exact ⟨w, hr, beq_iff_eq.mp hstored,
    scanned_current_iff scanWorkers_start hr hmarked (fun pid p => not_logs (hdone pid) p)
      scannedName.1 ⟨0, [[116]]⟩ (beq_iff_eq.mp hstored)⟩

/-- A request stores another version, with the tag `u`, and is logged, between the
two turns of the scan. -/
def staleParse : Schedule .reference :=
  [(0, .parse true .full .works 1), (1, .capture scannedName [107] [[117]]),
   (1, .commit (taggedFile 117) emptyCache), (1, .log (fun _ => true) 2),
   (0, .apply (fun _ => true) 3), (0, .complete true 3)]

theorem stale_parse_overwrites_entry :
    ScanStart .reference sampleConf 0 scanWorkers ∧
    ∃ w, run (turn sampleConf) scanWorkers staleParse = some w ∧
      (∀ pid, (w.procs pid).inProgress = false) ∧
      (getZoneState 3 w.shared.shm sampleConf.zoneName).bootstrapComplete = true ∧
      w.shared.stored scannedName.1 = some ⟨1, [[117]]⟩ ∧
      w.shared.entryTags sampleConf scannedName.1 = some [[116]] := by
  have hrun : (run (turn sampleConf) scanWorkers staleParse).any (fun w =>
      staleParse.all (fun a => !(w.procs a.1).inProgress) &&
        ((getZoneState 3 w.shared.shm sampleConf.zoneName).bootstrapComplete &&
          (w.shared.stored scannedName.1 == some ⟨1, [[117]]⟩ &&
            w.shared.entryTags sampleConf scannedName.1 == some [[116]]))) = true := by
    decide +kernel
  obtain ⟨w, hr, hw⟩ := (Option.any_eq_true _ _).mp hrun
  obtain ⟨hdone, hw⟩ := Bool.and_eq_true_iff.mp hw
  obtain ⟨hready, hw⟩ := Bool.and_eq_true_iff.mp hw
  obtain ⟨hstored, hentry⟩ := Bool.and_eq_true_iff.mp hw
  refine ⟨scanWorkers_start, w, hr, run_done (fun pid => ?_) hr fun a ha => ?_, hready,
    beq_iff_eq.mp hstored, beq_iff_eq.mp hentry⟩
  · cases pid with
    | zero => exact Or.inl ⟨_, List.mem_cons_self, rfl⟩
    | succ n => exact Or.inr (scanWorkers_idle (Nat.succ_ne_zero n))
  · simpa using List.all_eq_true.mp hdone a ha

end CachePilot
