import Pke.Sched.Boot

/-!
# Round-robin over runs

Along a run the dispatched processes are read off the ready queue from the
front, and processes only join it at the end: with the queue `Q` at the start,
`Q'` at the end and `D` dispatched in between, `D ++ Q' = Q ++ A` for the
processes `A` that joined. The tick counts bound the timer traps between two
dispatches.

The variables of the scheduler are fields of the state and no bytes of memory
here (`Pke.Kernel.System`), so user code cannot reach them.
-/

namespace Pke

open Lib

variable {L : Layout} {h : Host} {t : TrapInput} {s s' : Kernel} {c q : Pid} {Q Q' : List Pid}

/-! ## Observations of a run -/

/-- The list from `ready_queue_head` along `queue_next` consists of `Q`. -/
def ReadyQueue (s : Kernel) (Q : List Pid) : Prop :=
  Chain (fun i => (s.procs i).queueNext) some none s.readyQueueHead Q

/-- The processes dispatched by `schedule` in a step. -/
def Action.dispatched : Action → Kernel → List Word
  | .trap _, s => dispatches s.console
  | .store _ _, _ => []

/-- The processes dispatched by `schedule` in a run, in order. -/
def dispatched (tr : List (Action × Kernel)) : List Word := tr.flatMap fun x => x.1.dispatched x.2

/-- Timer traps count one, other steps nothing. -/
def Action.timer : Action → ℕ
  | .trap t => if t.scause = CAUSE_MTIMER_S_TRAP then 1 else 0
  | .store _ _ => 0

/-- The number of timer traps in a run. -/
def timers (tr : List (Action × Kernel)) : ℕ := (tr.map fun x => x.1.timer).sum

theorem timers_cons (a : Action) (s : Kernel) (tr : List (Action × Kernel)) :
    timers ((a, s) :: tr) = a.timer + timers tr := rfl

/-- The parts of a run are runs. -/
theorem Run.split {tr tr' : List (Action × Kernel)} (hr : Run L s (tr ++ tr') s') :
    ∃ s₁, Run L s tr s₁ ∧ Run L s₁ tr' s' := by
  induction tr generalizing s with
  | nil => exact ⟨s, .nil s, hr⟩
  | cons x tr ih =>
    cases hr with
    | cons ha hr =>
      obtain ⟨s₂, hs₂, hs'⟩ := ih hr
      exact ⟨s₂, .cons ha hs₂, hs'⟩

end Pke
