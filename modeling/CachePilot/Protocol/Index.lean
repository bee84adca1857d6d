import CachePilot.Protocol.Invariant

/-!
# The index behind requests and purges

An index call carries no version: a request upserts the tags that it captured,
whatever is on disk by then, and a purge drops the entry of a path that may have a
file again. So the last call on a path decides, and it is right if it agreed with
the disk when it ran.

Results:
* `entry_current_iff`: after any run of requests, purges and scans, which files
  have an entry with the tags of their version;
* `late_upsert_overwrites_entry`: a run in which the entry of a file ends with the
  tags of the version before.
-/

namespace CachePilot
open NgxString Interleave

variable {L : HeaderLayout} {cfg : ZoneConf}

/-- The workers of a zone. -/
abbrev Workers := World Shared Proc

/-- The turns of a run, each with the worker that takes it. -/
abbrev Schedule (L : HeaderLayout) := List (Nat × Act L)

/-- The last index call on the path, if there was one, left what the version on
disk has. -/
def Shared.LastAgreed (s : Shared) (p : Bytes) : Prop := ∀ c, s.last p = some c → c.agreed = true

/-- Nothing is in progress yet, and the index has every file on disk. -/
structure Start (L : HeaderLayout) (cfg : ZoneConf) (w : Workers) : Prop where
  ok : w.shared.Ok L cfg
  idle : ∀ pid, w.procs pid = .idle
  uncalled : ∀ p, w.shared.last p = none
  indexed : ∀ p v, w.shared.stored p = some v → w.shared.entryTags cfg p = some v.tags

/-- A file on disk is still to be logged, or its entry is as the last index call
on its path left it. -/
def Settled (cfg : ZoneConf) (w : Workers) (p : Bytes) : Prop :=
  ∀ v, w.shared.stored p = some v → (∃ pid, (w.procs pid).Logs p) ∨
    (w.shared.entryTags cfg p = some v.tags ↔ w.shared.LastAgreed p)

/-- Who is not the process of the turn logs as before. -/
theorem logs_update {procs : Nat → Proc} {pid : Nat} {proc : Proc} {p : Bytes}
    (hno : ¬ (procs pid).Logs p) (h : ∃ pid', (procs pid').Logs p) :
    ∃ pid', (Function.update procs pid proc pid').Logs p := by
  obtain ⟨pid', h'⟩ := h
  have hne : pid' ≠ pid := by
    rintro rfl
    exact hno h'
  refine ⟨pid', ?_⟩
  rw [Function.update_of_ne hne]
  exact h'

theorem Settled.step {w : Workers} {pid : Nat} {proc : Proc} {s : Shared} {p : Bytes}
    (h : Settled cfg w p) (hp : PathStep cfg p w.shared s (w.procs pid) proc) :
    Settled cfg ⟨s, Function.update w.procs pid proc⟩ p := by
  intro v hv
  cases hp with
  | quiet hlogs _ hstored hlast hentry =>
    simp only at hv ⊢
    rw [hstored] at hv
    refine (h v hv).imp (logs_update hlogs) fun hiff => ?_
    unfold Shared.LastAgreed
    rw [hentry, hlast]
    exact hiff
  | gone hstored => exact nomatch hstored.symm.trans hv
  | committed hlogs =>
    refine Or.inl ⟨pid, ?_⟩
    show (Function.update w.procs pid proc pid).Logs p
    rw [Function.update_self]
    exact hlogs
  | called c hlast hentry =>
    refine Or.inr ((hentry v hv).trans ?_)
    unfold Shared.LastAgreed
    simp only [hlast, Option.some.injEq, forall_eq']

/-- Over a whole run every path stays settled. -/
theorem run_settled {w0 w : Workers} {as : Schedule L} (hok : w0.shared.Ok L cfg)
    (h0 : ∀ p, Settled cfg w0 p) (hr : run (turn cfg) w0 as = some w) : ∀ p, Settled cfg w p := by
  have hinv : w.shared.Ok L cfg ∧ ∀ p, Settled cfg w p := by
    refine run_invariant (I := fun w => w.shared.Ok L cfg ∧ ∀ p, Settled cfg w p) ?_ ⟨hok, h0⟩ hr
    intro w pid act proc s h ht
    have hturn := turn_cases ht
    exact ⟨h.1.turn hturn, fun p => (h.2 p).step (hturn.pathStep h.1 p)⟩
  exact hinv.2

theorem Start.settled {w : Workers} (h : Start L cfg w) (p : Bytes) : Settled cfg w p := by
  intro v hv
  refine Or.inr (iff_of_true (h.indexed p v hv) fun c hc => ?_)
  rw [h.uncalled p] at hc
  exact nomatch hc

theorem not_logs {proc : Proc} (h : proc.inProgress = false) (p : Bytes) : ¬ proc.Logs p := by
  cases proc with
  | logging => exact nomatch h
  | _ => exact id

/-- Once no request, purge or scan is in progress, a file on disk has an entry
with the tags of its version exactly when the last index call on its path agreed
with the disk as it ran. -/
theorem entry_current_iff {w0 w : Workers} {as : Schedule L} (h0 : Start L cfg w0)
    (hr : run (turn cfg) w0 as = some w) (hdone : ∀ pid, (w.procs pid).inProgress = false)
    (p : Bytes) (v : Version) (hv : w.shared.stored p = some v) :
    w.shared.entryTags cfg p = some v.tags ↔ w.shared.LastAgreed p := by
  rcases run_settled h0.ok h0.settled hr p v hv with ⟨pid, hl⟩ | hiff
  · exact absurd hl (not_logs (hdone pid) p)
  · exact hiff

/-! ## Sample runs -/

/-- Where the workers of a schedule are done, everyone is who was not at work
before. -/
theorem run_done {w0 w : Workers} {as : Schedule L}
    (hidle : ∀ pid, (∃ a ∈ as, a.1 = pid) ∨ (w0.procs pid).inProgress = false)
    (hr : run (turn cfg) w0 as = some w) (hdone : ∀ a ∈ as, (w.procs a.1).inProgress = false)
    (pid : Nat) : (w.procs pid).inProgress = false := by
  cases hin : decide (∃ a ∈ as, a.1 = pid) with
  | true =>
    obtain ⟨a, ha, rfl⟩ := of_decide_eq_true hin
    exact hdone a ha
  | false =>
    have hno := of_decide_eq_false hin
    rw [run_untouched hr fun a ha he => hno ⟨a, ha, he⟩]
    exact (hidle pid).resolve_left hno

/-- A zone `z` that reads the tags of a header `T`. -/
def sampleConf : ZoneConf := ⟨.reference, [122], [[84]]⟩

/-- A cache without files or nodes. -/
def emptyCache : FileCache := ⟨fun _ => none, .nil, fun _ => ⟨false, false, 0, 0, 0⟩, 0⟩

def emptyWorkers : Workers where
  shared := ⟨emptyCache, .init, 0, fun _ => none, fun _ => none⟩
  procs := fun _ => .idle

theorem emptyWorkers_start : Start .reference sampleConf emptyWorkers where
  ok :=
    { files := ⟨fun _ => none, rfl, fun _ => rfl⟩
      index := @runStore_indexOk .reference [] fun _ h => absurd h List.not_mem_nil
      last := fun _ _ h => nomatch h }
  idle _ := rfl
  uncalled _ := rfl
  indexed _ _ h := nomatch h

def sampleName : FileName := ⟨[97], by decide⟩

/-- A request that stores a version with the tag and is logged. -/
def storeAndLog (tag : UInt8) : Schedule .reference :=
  [(0, .capture sampleName [107] [[tag]]), (0, .commit (sampleFile [tag]) emptyCache),
   (0, .log (fun _ => true) 1)]

theorem entry_current_iff_sample :
    ∃ w, run (turn sampleConf) emptyWorkers (storeAndLog 116) = some w ∧
      w.shared.stored [97] = some ⟨0, [[116]]⟩ ∧
      (w.shared.entryTags sampleConf [97] = some [[116]] ↔ w.shared.LastAgreed [97]) := by
  have hrun : (run (turn sampleConf) emptyWorkers (storeAndLog 116)).any (fun w =>
      (storeAndLog 116).all (fun a => !(w.procs a.1).inProgress) &&
        w.shared.stored [97] == some ⟨0, [[116]]⟩) = true := by decide +kernel
  obtain ⟨w, hr, hw⟩ := (Option.any_eq_true _ _).mp hrun
  obtain ⟨hdone, hstored⟩ := Bool.and_eq_true_iff.mp hw
  refine ⟨w, hr, beq_iff_eq.mp hstored, ?_⟩
  refine entry_current_iff emptyWorkers_start hr (run_done (fun _ => Or.inr rfl) hr fun a ha => ?_) [97]
    ⟨0, [[116]]⟩ (beq_iff_eq.mp hstored)
  simpa using List.all_eq_true.mp hdone a ha

/-- Two requests store the file, the tags `t` first and then `u`; the older one is
logged last. -/
def lateLog : Schedule .reference :=
  [(0, .capture sampleName [107] [[116]]), (0, .commit (sampleFile [116]) emptyCache),
   (1, .capture sampleName [107] [[117]]), (1, .commit (sampleFile [117]) emptyCache),
   (1, .log (fun _ => true) 1), (0, .log (fun _ => true) 2)]

theorem late_upsert_overwrites_entry :
    Start .reference sampleConf emptyWorkers ∧
    ∃ w, run (turn sampleConf) emptyWorkers lateLog = some w ∧
      (∀ pid, (w.procs pid).inProgress = false) ∧
      w.shared.stored [97] = some ⟨1, [[117]]⟩ ∧
      w.shared.entryTags sampleConf [97] = some [[116]] := by
  have hrun : (run (turn sampleConf) emptyWorkers lateLog).any (fun w =>
      lateLog.all (fun a => !(w.procs a.1).inProgress) &&
        (w.shared.stored [97] == some ⟨1, [[117]]⟩ &&
          w.shared.entryTags sampleConf [97] == some [[116]])) = true := by decide +kernel
  obtain ⟨w, hr, hw⟩ := (Option.any_eq_true _ _).mp hrun
  obtain ⟨hdone, hw⟩ := Bool.and_eq_true_iff.mp hw
  obtain ⟨hstored, hentry⟩ := Bool.and_eq_true_iff.mp hw
  refine ⟨emptyWorkers_start, w, hr, run_done (fun _ => Or.inr rfl) hr fun a ha => ?_,
    beq_iff_eq.mp hstored, beq_iff_eq.mp hentry⟩
  simpa using List.all_eq_true.mp hdone a ha

end CachePilot
