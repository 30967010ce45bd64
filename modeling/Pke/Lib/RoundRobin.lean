import Mathlib.Data.List.Nodup
import Mathlib.Data.Fin.Basic
import Mathlib.Logic.Function.Basic
import Mathlib.Tactic.Linarith
import Mathlib.Tactic.Common

/-!
# Round-robin scheduling

One task runs, the others wait in a queue. A tick is charged to the running
task; when it has used up its slice it goes to the end of the queue and starts
a new slice there. A task may also give up the processor before, keeping what
it has used, leave, or add a new task at the end of the queue.

Results:
* `charged_le`: in one step, the advantage of a task `q` over a task `p` that
  does not give up the processor grows by no more than `slack` does;
* `Trace.charged_le`: hence over a whole trace `p` is charged at most
  `2 * slice + 1` ticks less than `q`, whatever the other tasks do.
-/

namespace Pke.Lib

/-- A round-robin scheduler with slices of `slice + 1` ticks. -/
@[ext] structure RoundRobin (α : Type) (slice : ℕ) where
  running : α
  queue : List α
  nodup : (running :: queue).Nodup
  used : α → Fin (slice + 1)

namespace RoundRobin

/-- What happens to the running task. -/
inductive Event (α : Type) where
  | tick
  | yield
  | spawn (a : α)
  | leave
  | keep
  deriving DecidableEq

/-- The running task does not give up the processor. -/
def Event.Holds {α : Type} : Event α → Prop
  | .yield | .leave => False
  | .tick | .spawn _ | .keep => True

variable {α : Type} {slice : ℕ}

/-- The tasks in the order in which they run. -/
def tasks (m : RoundRobin α slice) : List α := m.running :: m.queue

/-- The running task goes to the end of the queue. -/
def rotate (m : RoundRobin α slice) : RoundRobin α slice where
  running := (m.queue ++ [m.running]).head (by simp)
  queue := (m.queue ++ [m.running]).tail
  nodup := by
    rw [List.cons_head_tail]
    exact List.nodup_append_comm.mp m.nodup
  used := m.used

theorem rotate_tasks (m : RoundRobin α slice) : m.rotate.tasks = m.queue ++ [m.running] :=
  List.cons_head_tail _

theorem mem_queue {m : RoundRobin α slice} {p : α} (hp : p ∈ m.tasks) (h : m.running ≠ p) :
    p ∈ m.queue := (List.mem_cons.mp hp).resolve_left (Ne.symm h)

/-- The running task leaves, and the next one runs, if there is one. -/
def leave (m : RoundRobin α slice) : Option (RoundRobin α slice) :=
  if h : m.queue = [] then none
  else some { m with
    running := m.queue.head h
    queue := m.queue.tail
    nodup := by
      rw [List.cons_head_tail]
      exact (List.nodup_cons.mp m.nodup).2 }

theorem leave_eq {m m' : RoundRobin α slice} (h : m.leave = some m') :
    m'.tasks = m.queue ∧ m'.used = m.used := by
  unfold leave at h
  split at h
  · cases h
  · rename_i hq
    cases h
    exact ⟨List.cons_head_tail hq, rfl⟩

variable [DecidableEq α]

/-- The running task has used `n` ticks of its slice. -/
def setUsed (m : RoundRobin α slice) (n : Fin (slice + 1)) : RoundRobin α slice :=
  { m with used := Function.update m.used m.running n }

/-- A tick of the clock. -/
def tick (m : RoundRobin α slice) : RoundRobin α slice :=
  if h : (m.used m.running).val < slice then
    m.setUsed ⟨m.used m.running + 1, Nat.succ_lt_succ h⟩
  else (m.setUsed 0).rotate

/-- A new task at the end of the queue. -/
def spawn (m : RoundRobin α slice) (a : α) : Option (RoundRobin α slice) :=
  if h : a ∈ m.tasks then none
  else some { m with
    queue := m.queue ++ [a]
    nodup := (List.perm_append_singleton a m.tasks).nodup_iff.mpr
      (List.nodup_cons.mpr ⟨h, m.nodup⟩) }

/-- The scheduler. -/
def step (m : RoundRobin α slice) : Event α → Option (RoundRobin α slice)
  | .tick => some m.tick
  | .yield => some m.rotate
  | .spawn a => m.spawn a
  | .leave => m.leave
  | .keep => some m

variable {m m' : RoundRobin α slice} {a p q : α} {e : Event α}

theorem spawn_eq (h : m.spawn a = some m') :
    a ∉ m.tasks ∧ m'.tasks = m.tasks ++ [a] ∧ m'.used = m.used := by
  unfold spawn at h
  split at h
  · cases h
  · rename_i ha
    cases h
    exact ⟨ha, rfl, rfl⟩

/-! ## Who runs first -/

/-- Task `q` runs before task `p` does. -/
def Ahead (q p : α) (l : List α) : Prop := l.idxOf q < l.idxOf p

instance (q p : α) (l : List α) : Decidable (Ahead q p l) := inferInstanceAs (Decidable (_ < _))

theorem not_ahead_head (q p : α) (l : List α) : ¬ Ahead q p (p :: l) := by
  simp [Ahead]

theorem ahead_head (h : q ≠ p) (l : List α) : Ahead q p (q :: l) := by
  simp [Ahead, List.idxOf_cons_ne _ h]

theorem ahead_cons (hq : a ≠ q) (hp : a ≠ p) (l : List α) :
    Ahead q p (a :: l) ↔ Ahead q p l := by
  simp [Ahead, List.idxOf_cons_ne _ hq, List.idxOf_cons_ne _ hp]

/-- What joins at the end is behind every task of the list. -/
theorem ahead_append {l : List α} (hp : p ∈ l) (l' : List α) :
    Ahead q p (l ++ l') ↔ Ahead q p l := by
  unfold Ahead
  rw [List.idxOf_append_of_mem hp]
  by_cases hq : q ∈ l
  · rw [List.idxOf_append_of_mem hq]
  · have hlt := List.idxOf_lt_length_iff.mpr hp
    rw [List.idxOf_append_of_notMem hq, List.idxOf_eq_length_iff.mpr hq]
    omega

theorem not_ahead_of_notMem {l : List α} (hq : q ∉ l) : ¬ Ahead q p l := by
  unfold Ahead
  rw [List.idxOf_eq_length_iff.mpr hq]
  exact not_lt.mpr List.idxOf_le_length

/-! ## One step -/

/-- The ticks charged to task `a` in a step. -/
def charge (a : α) (m : RoundRobin α slice) (e : Event α) : ℕ :=
  if e = .tick ∧ m.running = a then 1 else 0

/-- What task `q` can gain on task `p` until `p` has used up its slice. -/
def slack (p q : α) (m : RoundRobin α slice) : ℕ :=
  if Ahead q p m.tasks then (m.used q).val else slice + 1

theorem slack_le (p q : α) (m : RoundRobin α slice) : m.slack p q ≤ slice + 1 := by
  have := (m.used q).isLt
  unfold slack
  split <;> omega

/-- The slack only depends on the order of the tasks and on what `q` has used. -/
theorem slack_congr (h : Ahead q p m'.tasks ↔ Ahead q p m.tasks) (hu : m'.used q = m.used q) :
    m'.slack p q = m.slack p q := by
  simp only [slack, h, hu]

/-- A task that stays in the queue is a task afterwards. -/
theorem mem_tasks_step (hp : p ∈ m.tasks) (hold : m.running = p → e.Holds)
    (h : m.step e = some m') : p ∈ m'.tasks := by
  have hrot : p ∈ m.queue ++ [m.running] :=
    (List.perm_append_singleton _ _).mem_iff.mpr hp
  cases e with
  | tick =>
    cases h
    unfold tick
    split
    · exact hp
    · rw [rotate_tasks]
      exact hrot
  | yield =>
    cases h
    rw [rotate_tasks]
    exact hrot
  | spawn a =>
    rw [(spawn_eq h).2.1]
    exact List.mem_append_left _ hp
  | leave =>
    rw [(leave_eq h).1]
    refine (List.mem_cons.mp hp).resolve_left fun hrun => hold hrun.symm
  | keep =>
    cases h
    exact hp

/-- Moving another task to the end does not change who runs first. -/
theorem ahead_rotate (hp : p ∈ m.tasks) (hrp : m.running ≠ p) (hrq : m.running ≠ q) :
    Ahead q p (m.queue ++ [m.running]) ↔ Ahead q p m.tasks := by
  rw [ahead_append (mem_queue hp hrp), tasks, ahead_cons hrq hrp]

/-- At the end of the queue a task is behind all the others. -/
theorem not_ahead_rotate (hp : p ∈ m.tasks) (hrp : m.running ≠ p) :
    ¬ Ahead m.running p (m.queue ++ [m.running]) := by
  rw [ahead_append (mem_queue hp hrp)]
  exact not_ahead_of_notMem (List.nodup_cons.mp m.nodup).1

theorem slack_of_not_ahead (h : ¬ Ahead q p m.tasks) : m.slack p q = slice + 1 := if_neg h

theorem slack_running (h : m.running ≠ p) : m.slack p m.running = m.used m.running :=
  if_pos (ahead_head h _)

theorem slack_rotate_running (hp : p ∈ m.tasks) (hrp : m.running ≠ p) :
    m.rotate.slack p m.running = slice + 1 := by
  refine slack_of_not_ahead ?_
  rw [rotate_tasks]
  exact not_ahead_rotate hp hrp

theorem slack_rotate_other (hp : p ∈ m.tasks) (hrp : m.running ≠ p) (hrq : m.running ≠ q) :
    m.rotate.slack p q = m.slack p q := by
  refine slack_congr ?_ rfl
  rw [rotate_tasks]
  exact ahead_rotate hp hrp hrq

/-- Nothing is lost to `p` when another task goes to the end of the queue. -/
theorem slack_le_rotate (hp : p ∈ m.tasks) (hrp : m.running ≠ p) :
    m.slack p q ≤ m.rotate.slack p q := by
  by_cases hrq : m.running = q
  · subst hrq
    rw [slack_rotate_running hp hrp]
    exact m.slack_le _ _
  · rw [slack_rotate_other hp hrp hrq]

section Tick

variable {n : Fin (slice + 1)}

@[simp] theorem setUsed_running : (m.setUsed n).running = m.running := rfl

@[simp] theorem setUsed_tasks : (m.setUsed n).tasks = m.tasks := rfl

theorem setUsed_used_self : (m.setUsed n).used m.running = n := Function.update_self _ _ _

theorem setUsed_used_of_ne (h : m.running ≠ a) : (m.setUsed n).used a = m.used a :=
  Function.update_of_ne (Ne.symm h) _ _

theorem slack_setUsed_other (hrq : m.running ≠ q) : (m.setUsed n).slack p q = m.slack p q :=
  slack_congr Iff.rfl (setUsed_used_of_ne hrq)

/-- A tick goes on with the slice or ends it. -/
theorem tick_eq (m : RoundRobin α slice) :
    (∃ n : Fin (slice + 1), n.val = m.used m.running + 1 ∧ m.tick = m.setUsed n) ∨
      (m.used m.running).val = slice ∧ m.tick = (m.setUsed 0).rotate := by
  unfold tick
  split
  · exact Or.inl ⟨_, rfl, rfl⟩
  · rename_i h
    have := (m.used m.running).isLt
    exact Or.inr ⟨by omega, rfl⟩

/-- A tick of `p`: nobody is ahead of it, and `q` gains at most its next slice. -/
theorem charged_le_tick_self (h : m.running = p) :
    m.slack p q + m.tick.used p ≤ 1 + m.tick.slack p q + m.used p := by
  subst h
  have hslack : m.slack m.running q = slice + 1 := slack_of_not_ahead (not_ahead_head _ _ _)
  rcases m.tick_eq with ⟨n, hn, htick⟩ | ⟨hlast, htick⟩
  · have hslack' : (m.setUsed n).slack m.running q = slice + 1 :=
      slack_of_not_ahead (not_ahead_head _ _ _)
    rw [htick, setUsed_used_self]
    omega
  · have hused : m.tick.used m.running = 0 := by
      rw [htick]
      exact setUsed_used_self
    rw [hused, Fin.val_zero]
    omega

/-- A tick of `q`: it uses up what it has, and falls behind `p` with its last tick. -/
theorem charged_le_tick_rival (hp : p ∈ m.tasks) (hrp : m.running ≠ p) :
    1 + m.slack p m.running + m.tick.used p ≤ m.tick.slack p m.running + m.used p := by
  have hslack := slack_running hrp
  rcases m.tick_eq with ⟨n, hn, htick⟩ | ⟨hlast, htick⟩
  · have hslack' : (m.setUsed n).slack p m.running = n := by
      refine (slack_running (m := m.setUsed n) hrp).trans ?_
      exact congrArg Fin.val setUsed_used_self
    rw [htick, setUsed_used_of_ne hrp]
    omega
  · have hslack' : (m.setUsed 0).rotate.slack p m.running = slice + 1 :=
      slack_rotate_running (m := m.setUsed 0) hp hrp
    have hp' : m.tick.used p = m.used p := by
      rw [htick]
      exact setUsed_used_of_ne hrp
    rw [hp', htick]
    omega

/-- A tick of a third task. -/
theorem charged_le_tick_other (hp : p ∈ m.tasks) (hrp : m.running ≠ p) (hrq : m.running ≠ q) :
    m.slack p q + m.tick.used p = m.tick.slack p q + m.used p := by
  rcases m.tick_eq with ⟨n, hn, htick⟩ | ⟨hlast, htick⟩
  · rw [htick, setUsed_used_of_ne hrp, slack_setUsed_other hrq]
  · have hp' : m.tick.used p = m.used p := by
      rw [htick]
      exact setUsed_used_of_ne hrp
    have hslack : (m.setUsed 0).rotate.slack p q = (m.setUsed 0).slack p q :=
      slack_rotate_other (m := m.setUsed 0) hp hrp hrq
    rw [hp', htick, hslack, slack_setUsed_other hrq]

end Tick

/-- **One step.** What `q` gains on `p` is covered by the growth of the slack. -/
theorem charged_le (hne : p ≠ q) (hp : p ∈ m.tasks) (hold : m.running = p → e.Holds)
    (h : m.step e = some m') :
    charge q m e + m.slack p q + m'.used p ≤ charge p m e + m'.slack p q + m.used p := by
  have hnone : ∀ a, e ≠ .tick → charge a m e = 0 := fun a he => if_neg fun h => he h.1
  cases e with
  | tick =>
    cases h
    by_cases hrp : m.running = p
    · have hq : charge q m .tick = 0 := if_neg fun h => hne (hrp.symm.trans h.2)
      have hc : charge p m .tick = 1 := if_pos ⟨rfl, hrp⟩
      rw [hq, hc, zero_add]
      exact charged_le_tick_self hrp
    · have hc : charge p m .tick = 0 := if_neg fun h => hrp h.2
      rw [hc, zero_add]
      by_cases hrq : m.running = q
      · subst hrq
        have hq : charge m.running m .tick = 1 := if_pos ⟨rfl, rfl⟩
        rw [hq]
        exact charged_le_tick_rival hp hrp
      · have hq : charge q m .tick = 0 := if_neg fun h => hrq h.2
        rw [hq, zero_add]
        exact (charged_le_tick_other hp hrp hrq).le
  | yield =>
    cases h
    have hle : m.slack p q ≤ m.rotate.slack p q := slack_le_rotate hp fun hrun => hold hrun
    have hused : m.rotate.used = m.used := rfl
    rw [hnone q (by simp), hnone p (by simp), hused]
    omega
  | spawn a =>
    obtain ⟨ha, htasks, hused⟩ := spawn_eq h
    have hslack : m'.slack p q = m.slack p q :=
      slack_congr (by rw [htasks, ahead_append hp]) (by rw [hused])
    rw [hnone q (by simp), hnone p (by simp), hused, hslack]
  | leave =>
    obtain ⟨htasks, hused⟩ := leave_eq h
    have hrp : m.running ≠ p := fun hrun => hold hrun
    have hslack : m.slack p q ≤ m'.slack p q := by
      by_cases hrq : m.running = q
      · subst hrq
        rw [slack_of_not_ahead (m := m')]
        · exact m.slack_le _ _
        · rw [htasks]
          exact not_ahead_of_notMem (List.nodup_cons.mp m.nodup).1
      · refine (slack_congr ?_ (by rw [hused])).ge
        rw [htasks, tasks, ahead_cons hrq hrp]
    rw [hnone q (by simp), hnone p (by simp), hused]
    omega
  | keep =>
    cases h
    rw [hnone q (by simp), hnone p (by simp)]

/-! ## Traces -/

/-- A sequence of steps, each with the state it starts in. -/
inductive Trace : RoundRobin α slice → List (RoundRobin α slice × Event α) →
    RoundRobin α slice → Prop
  | nil (m : RoundRobin α slice) : Trace m [] m
  | cons {m m₁ m' : RoundRobin α slice} {e : Event α} {tr : List (RoundRobin α slice × Event α)}
      (h : m.step e = some m₁) (ht : Trace m₁ tr m') : Trace m ((m, e) :: tr) m'

/-- The ticks charged to task `a` in a trace. -/
def charged (a : α) (tr : List (RoundRobin α slice × Event α)) : ℕ :=
  (tr.map fun x => charge a x.1 x.2).sum

/-- Task `p` never gives up the processor. -/
def Holds (p : α) (tr : List (RoundRobin α slice × Event α)) : Prop :=
  ∀ x ∈ tr, x.1.running = p → x.2.Holds

theorem charged_cons (a : α) (m : RoundRobin α slice) (e : Event α)
    (tr : List (RoundRobin α slice × Event α)) :
    charged a ((m, e) :: tr) = charge a m e + charged a tr := rfl

theorem Trace.charged_slack {tr : List (RoundRobin α slice × Event α)} (ht : Trace m tr m')
    (hne : p ≠ q) (hp : p ∈ m.tasks) (hold : Holds p tr) :
    charged q tr + m.slack p q + m'.used p ≤ charged p tr + m'.slack p q + m.used p := by
  induction ht with
  | nil m => exact le_rfl
  | @cons m m₁ m' e tr h ht ih =>
    have hstep : m.running = p → e.Holds := hold _ List.mem_cons_self
    have hfirst := charged_le hne hp hstep h
    have hrest := ih (mem_tasks_step hp hstep h) fun x hx => hold x (List.mem_cons_of_mem _ hx)
    rw [charged_cons, charged_cons]
    omega

/-- **Fairness.** A task that never gives up the processor is charged at most two
    slices less one tick fewer ticks than any other task. -/
theorem Trace.charged_le {tr : List (RoundRobin α slice × Event α)} (ht : Trace m tr m')
    (hp : p ∈ m.tasks) (hold : Holds p tr) (q : α) :
    charged q tr ≤ charged p tr + (2 * slice + 1) := by
  by_cases hne : p = q
  · rw [hne]
    exact Nat.le_add_right _ _
  · have hslack := ht.charged_slack hne hp hold
    have hle := m'.slack_le p q
    have hused := (m.used p).isLt
    omega

end RoundRobin

end Pke.Lib
