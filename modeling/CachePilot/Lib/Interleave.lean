import Mathlib.Logic.Function.Basic

/-!
# Processes that share a state

Any number of processes, each with a local state, take turns on one shared
state. A turn is a partial function of the two: `none` says that the process
cannot act like that where it stands. A run is any order of turns of any
processes.

Results:
* `run_invariant`: what every turn preserves holds after every run;
* `run_untouched`: a process that takes no turn stays where it is.
-/

namespace Interleave

variable {σ π α : Type*}

/-- The shared state and the local states of all processes. -/
structure World (σ π : Type*) where
  shared : σ
  procs : Nat → π

/-- One process takes a turn. -/
def step (turn : π → α → σ → Option (π × σ)) (w : World σ π) (a : Nat × α) : Option (World σ π) :=
  (turn (w.procs a.1) a.2 w.shared).map fun r => ⟨r.2, Function.update w.procs a.1 r.1⟩

/-- The turns of a list, one after another. -/
def run (turn : π → α → σ → Option (π × σ)) : World σ π → List (Nat × α) → Option (World σ π)
  | w, [] => some w
  | w, a :: as => (step turn w a).bind fun w => run turn w as

variable {turn : π → α → σ → Option (π × σ)} {w w' : World σ π} {a : Nat × α} {as : List (Nat × α)}

theorem step_eq_some : step turn w a = some w' ↔
    ∃ proc s, turn (w.procs a.1) a.2 w.shared = some (proc, s) ∧
      w' = ⟨s, Function.update w.procs a.1 proc⟩ := by
  unfold step
  rw [Option.map_eq_some_iff]
  constructor
  · rintro ⟨⟨proc, s⟩, h, rfl⟩
    exact ⟨proc, s, h, rfl⟩
  · rintro ⟨proc, s, h, rfl⟩
    exact ⟨(proc, s), h, rfl⟩

theorem run_nil : run turn w [] = some w' ↔ w = w' := Option.some_inj

theorem run_cons : run turn w (a :: as) = some w' ↔
    ∃ w1, step turn w a = some w1 ∧ run turn w1 as = some w' := Option.bind_eq_some_iff

/-- A turn that can be taken is the first step of a run. -/
theorem run_turn {pid : Nat} {act : α} {proc : π} {s : σ}
    (h : turn (w.procs pid) act w.shared = some (proc, s)) :
    run turn w ((pid, act) :: as) = run turn ⟨s, Function.update w.procs pid proc⟩ as := by
  have hstep : step turn w (pid, act) = some ⟨s, Function.update w.procs pid proc⟩ :=
    step_eq_some.mpr ⟨proc, s, h, rfl⟩
  show (step turn w (pid, act)).bind _ = _
  rw [hstep]
  rfl

theorem run_append {bs : List (Nat × α)} : run turn w (as ++ bs) = some w' ↔
    ∃ w1, run turn w as = some w1 ∧ run turn w1 bs = some w' := by
  induction as generalizing w with
  | nil =>
    constructor
    · intro h
      exact ⟨w, rfl, h⟩
    · rintro ⟨w1, h1, h⟩
      rw [run_nil.mp h1]
      exact h
  | cons a as ih =>
    rw [List.cons_append, run_cons]
    constructor
    · rintro ⟨w1, h1, h⟩
      obtain ⟨w2, h2, h'⟩ := ih.mp h
      exact ⟨w2, run_cons.mpr ⟨w1, h1, h2⟩, h'⟩
    · rintro ⟨w2, h2, h'⟩
      obtain ⟨w1, h1, h⟩ := run_cons.mp h2
      exact ⟨w1, h1, ih.mpr ⟨w2, h, h'⟩⟩

/-- What every turn preserves holds after every run. -/
theorem run_invariant {I : World σ π → Prop}
    (hstep : ∀ w pid act proc s, I w → turn (w.procs pid) act w.shared = some (proc, s) →
      I ⟨s, Function.update w.procs pid proc⟩)
    (hw : I w) (h : run turn w as = some w') : I w' := by
  induction as generalizing w with
  | nil =>
    rw [← run_nil.mp h]
    exact hw
  | cons a as ih =>
    obtain ⟨w1, h1, h⟩ := run_cons.mp h
    obtain ⟨proc, s, ht, rfl⟩ := step_eq_some.mp h1
    exact ih (hstep w a.1 a.2 proc s hw ht) h

/-- A process that takes no turn stays where it is. -/
theorem run_untouched {pid : Nat} (h : run turn w as = some w') (hno : ∀ a ∈ as, a.1 ≠ pid) :
    w'.procs pid = w.procs pid := by
  induction as generalizing w with
  | nil => rw [← run_nil.mp h]
  | cons a as ih =>
    obtain ⟨w1, h1, h⟩ := run_cons.mp h
    obtain ⟨proc, s, -, rfl⟩ := step_eq_some.mp h1
    rw [ih h fun b hb => hno b (List.mem_cons_of_mem a hb)]
    exact Function.update_of_ne (hno a List.mem_cons_self).symm _ _

end Interleave
