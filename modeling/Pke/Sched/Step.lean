import Pke.Sched.Enter

/-!
# What a trap does to the scheduler

`SchedInv s c Q`: process `c` runs, the ready queue is `Q`, and together they
are exactly the live processes. `SchedStep` is the scheduler seen from outside:
a trap lets the current process go on, adds a child at the end of the queue,
moves the current process to the end and dispatches the head, or drops the
current process and dispatches the head. `trap_sched` says that every trap that
comes back to user mode makes one of these steps, and when a trap stops the
machine in `schedule`.
-/

namespace Pke

open Lib

/-- Process `c` runs and the ready queue is `Q`. -/
structure SchedInv (s : Kernel) (c : Pid) (Q : List Pid) : Prop where
  current : s.current = some c
  scratch : s.csr .sscratch = (s.procs c).trapframe
  queue : QueueOk s Q
  notin : c ∉ Q
  live : ∀ i, i ∈ c :: Q ↔ (s.procs i).Live
  ready : ∀ i ∈ c :: Q, (s.procs i).status = .READY
  pids : ∀ i, (s.procs i).pid = BitVec.ofNat 64 i
  ticks : ∀ i, 0 ≤ (s.procs i).tickCount ∧ (s.procs i).tickCount ≤ TIME_SLICE_LEN

/-- Process `i` keeps its status and parent. -/
def SameRole (s s' : Kernel) (i : Pid) : Prop :=
  (s'.procs i).status = (s.procs i).status ∧ (s'.procs i).parent = (s.procs i).parent

/-- A trap is a call of `fork`. -/
def IsFork (t : TrapInput) : Prop := t.scause = CAUSE_USER_ECALL ∧ t.regs .a0 = SYS_user_fork

/-- The steps of the scheduler: from process `c` running and queue `Q` to the
    process running and the queue afterwards. -/
inductive SchedStep (t : TrapInput) (s s' : Kernel) (c : Pid) (Q : List Pid) :
    Pid → List Pid → Prop
  | stay (hrole : ∀ i, SameRole s s' i) (hout : dispatches s'.console = [])
      (htick : (s'.procs c).tickCount =
        (s.procs c).tickCount + if t.scause = CAUSE_MTIMER_S_TRAP then 1 else 0) :
      SchedStep t s s' c Q c Q
  | fork (child : Pid) (hcall : IsFork t) (hfree : firstFree s.procs = some child)
      (hchild : (s'.procs child).status = .READY ∧ (s'.procs child).parent = some c)
      (hrole : ∀ i, i ≠ child → SameRole s s' i) (hout : dispatches s'.console = [])
      (htick : (s'.procs c).tickCount =
        (s.procs c).tickCount + if t.scause = CAUSE_MTIMER_S_TRAP then 1 else 0) :
      SchedStep t s s' c Q c (Q ++ [child])
  | rotate (q : Pid) (Q' : List Pid) (hq : Q ++ [c] = q :: Q') (hrole : ∀ i, SameRole s s' i)
      (hout : dispatches s'.console = [BitVec.ofNat 64 q]) : SchedStep t s s' c Q q Q'
  | exit (q : Pid) (Q' : List Pid) (hq : Q = q :: Q') (hzombie : (s'.procs c).status = .ZOMBIE)
      (hparent : (s'.procs c).parent = (s.procs c).parent)
      (hrole : ∀ i, i ≠ c → SameRole s s' i)
      (hout : dispatches s'.console = [BitVec.ofNat 64 q]) : SchedStep t s s' c Q q Q'

variable {L : Layout} {t : TrapInput} {s s₁ s₂ s' : Kernel} {c q : Pid} {Q Q' : List Pid}

/-- During a trap of `s`: in `s₁` the roles and the queue are those of `s`, the
    tick counts are in range, and nothing has been dispatched. -/
structure SameQueue (s s₁ : Kernel) : Prop where
  role : ∀ i, SameRole s s₁ i
  next : ∀ i, (s₁.procs i).queueNext = (s.procs i).queueNext
  pid : ∀ i, (s₁.procs i).pid = (s.procs i).pid
  head : s₁.readyQueueHead = s.readyQueueHead
  out : dispatches s₁.console = []
  ticks : ∀ i, 0 ≤ (s₁.procs i).tickCount ∧ (s₁.procs i).tickCount ≤ TIME_SLICE_LEN

theorem SchedInv.sameQueue (h : SchedInv s c Q) (hs : SchedSame { s with console := [] } s₁) :
    SameQueue s s₁ where
  role i := ⟨hs.status i, hs.parent i⟩
  next := hs.queueNext
  pid := hs.pid
  head := hs.head
  out := hs.out
  ticks i := by
    have := h.ticks i
    rwa [← hs.tickCount i] at this

theorem SameQueue.queueOk (h : SameQueue s s₁) (hQ : QueueOk s Q) : QueueOk s₁ Q := by
  refine ⟨?_, fun i hi => (h.role i).1.trans (hQ.ready i hi)⟩
  rw [h.head]
  exact Chain.congr hQ.chain fun i _ => h.next i

/-- Going on with the current process. -/
theorem SchedInv.afterSwitch (h : SchedInv s c Q) (hs : SameQueue s s₁) :
    SchedInv (afterSwitch L c s₁) c Q where
  current := rfl
  scratch := by simp [Pke.afterSwitch]
  queue := ⟨(hs.queueOk h.queue).chain, (hs.queueOk h.queue).ready⟩
  notin := h.notin
  live i := by
    rw [h.live i]
    unfold Process.Live
    rw [← (hs.role i).1]
    rfl
  ready i hi := (hs.role i).1.trans (h.ready i hi)
  pids i := (hs.pid i).trans (h.pids i)
  ticks := hs.ticks

/-- Dispatching the head of a queue of live processes. -/
theorem SchedInv.of_dispatchTo (hQ : QueueOk s₂ (q :: Q'))
    (hlive : ∀ i, i ∈ q :: Q' ↔ (s₂.procs i).Live)
    (hpid : ∀ i, (s₂.procs i).pid = BitVec.ofNat 64 i)
    (hticks : ∀ i, 0 ≤ (s₂.procs i).tickCount ∧ (s₂.procs i).tickCount ≤ TIME_SLICE_LEN) :
    SchedInv (dispatchTo L q s₂) q Q' where
  current := rfl
  scratch := by simp [dispatchTo, Pke.afterSwitch]
  queue := hQ.dispatchTo
  notin := (List.nodup_cons.mp hQ.nodup).1
  live := hlive
  ready := hQ.ready
  pids := hpid
  ticks := hticks

/-- The current process `c` went to the end of the queue, and the head of the queue
    runs, with the registers of its trapframe. -/
structure Rotated (t : TrapInput) (s s' : Kernel) (c : Pid) (Q : List Pid) (q : Pid)
    (Q' : List Pid) : Prop where
  order : Q ++ [c] = q :: Q'
  inv : SchedInv s' q Q'
  step : SchedStep t s s' c Q q Q'
  regs : ∀ r, s'.regs r = load64 s'.phys.mem (frameSlot (s'.procs q).trapframe r)

/-- The end of `sys_user_yield`, `wait` and `rrsched`. -/
theorem SchedInv.requeue {α β : Type} {k : α → KernelM β} (h : SchedInv s c Q)
    (hs : SameQueue s s₁) :
    ∃ s' q Q', (do insertToReadyQueue c; schedule L >>= k) s₁ = returning L q s' ∧
      Rotated t s s' c Q q Q' ∧ HandedOver L q s₁ s' := by
  obtain ⟨procs, head, console, hins, hQ, hprocs, hout⟩ :=
    insertToReadyQueue_spec (hs.queueOk h.queue) h.notin
  obtain ⟨q, Q', hqQ⟩ : ∃ q Q', Q ++ [c] = q :: Q' := by
    cases Q with
    | nil => exact ⟨c, [], rfl⟩
    | cons a Q => exact ⟨a, Q ++ [c], rfl⟩
  rw [hqQ] at hQ
  have hready : (s₁.procs c).status = .READY :=
    (hs.role c).1.trans (h.ready c List.mem_cons_self)
  -- the current process was READY all along, so no field but the link changes
  have hsame : ∀ i, (procs i).unlinked = (s₁.procs i).unlinked := by
    intro i
    rw [hprocs i]
    by_cases hi : i = c
    · subst hi
      simp [Process.unlinked, hready]
    · simp [hi, Process.unlinked]
  have hstatus : ∀ i, (procs i).status = (s.procs i).status := fun i =>
    (congrArg Process.status (hsame i) : _).trans (hs.role i).1
  have hmem : ∀ i, i ∈ q :: Q' ↔ i ∈ c :: Q := by
    intro i
    rw [← hqQ]
    simp [or_comm]
  have hpid : ∀ i, (procs i).pid = BitVec.ofNat 64 i := fun i =>
    (congrArg Process.pid (hsame i) : _).trans ((hs.pid i).trans (h.pids i))
  have htick : ∀ i, (procs i).tickCount = (s₁.procs i).tickCount := fun i =>
    (congrArg Process.tickCount (hsame i) :)
  refine ⟨_, q, Q', ?_, ⟨hqQ, SchedInv.of_dispatchTo (L := L) hQ (fun i => ?_) hpid
    fun i => ?_, ?_, fun _ => rfl⟩, ⟨_, rfl, rfl, hsame⟩⟩
  · rw [Prog.bind_of_ret hins, bind_of_returning (schedule_cons L hQ)]
  · rw [hmem i, h.live i]
    unfold Process.Live
    rw [← hstatus i]
  · have := hs.ticks i
    rwa [← htick i] at this
  · refine .rotate q Q' hqQ (fun i => ⟨hstatus i, ?_⟩) ?_
    · exact (congrArg Process.parent (hsame i) : _).trans (hs.role i).2
    · rw [dispatchTo_out, hout, hs.out]
      exact congrArg (fun w => [w]) (hpid q)

/-- The process table after process `c` exited. -/
def exitProcs (procs : Pid → Process) (c : Pid) : Pid → Process :=
  Function.update procs c { procs c with status := .ZOMBIE }

theorem exitProcs_of_ne (procs : Pid → Process) {c i : Pid} (h : i ≠ c) :
    exitProcs procs c i = procs i := Function.update_of_ne h _ _

theorem exitProcs_self (procs : Pid → Process) (c : Pid) :
    exitProcs procs c c = { procs c with status := .ZOMBIE } := Function.update_self _ _ _

theorem SameQueue.queueOk_exit (hs : SameQueue s s₁) (h : SchedInv s c Q) :
    QueueOk { s₁ with procs := exitProcs s₁.procs c } Q := by
  have hQ := hs.queueOk h.queue
  have hne : ∀ i ∈ Q, i ≠ c := fun i hi e => h.notin (e ▸ hi)
  refine ⟨Chain.congr hQ.chain fun i hi => ?_, fun i hi => ?_⟩
  · simp only [exitProcs_of_ne s₁.procs (hne i hi)]
  · simp only [exitProcs_of_ne s₁.procs (hne i hi)]
    exact hQ.ready i hi

/-- The end of `sys_user_exit` with a process in the queue: its head is
    dispatched. -/
theorem SchedInv.exit_cons {α β : Type} {k : α → KernelM β} (h : SchedInv s c (q :: Q'))
    (hs : SameQueue s s₁) :
    ∃ s', (do freeProcess c; schedule L >>= k) s₁ = returning L q s' ∧
      SchedInv s' q Q' ∧ SchedStep t s s' c (q :: Q') q Q' ∧
      ∀ i, (s'.procs i).tickCount = (s₁.procs i).tickCount := by
  have hQ := hs.queueOk_exit h
  have hqc : q ≠ c := fun e => h.notin (e ▸ List.mem_cons_self)
  have hfree : freeProcess c s₁ = .ret () { s₁ with procs := exitProcs s₁.procs c } := rfl
  have hpid : ∀ i, (exitProcs s₁.procs c i).pid = BitVec.ofNat 64 i := by
    intro i
    by_cases hi : i = c
    · subst hi
      rw [exitProcs_self]
      exact (hs.pid i).trans (h.pids i)
    · rw [exitProcs_of_ne _ hi]
      exact (hs.pid i).trans (h.pids i)
  have hstatus : ∀ i, i ≠ c → (exitProcs s₁.procs c i).status = (s.procs i).status := by
    intro i hi
    rw [exitProcs_of_ne _ hi]
    exact (hs.role i).1
  refine ⟨_, ?_, SchedInv.of_dispatchTo (L := L) hQ (fun i => ?_) hpid fun i => ?_, ?_, fun i => ?_⟩
  · rw [Prog.bind_of_ret hfree, bind_of_returning (schedule_cons L hQ)]
  · dsimp only
    by_cases hi : i = c
    · subst hi
      refine iff_of_false h.notin ?_
      rw [exitProcs_self]
      exact fun hl => hl.2 rfl
    · have := h.live i
      rw [List.mem_cons, or_iff_right hi] at this
      rw [this]
      unfold Process.Live
      rw [hstatus i hi]
  · dsimp only
    by_cases hi : i = c
    · subst hi
      rw [exitProcs_self]
      exact hs.ticks i
    · rw [exitProcs_of_ne _ hi]
      exact hs.ticks i
  · refine .exit q Q' rfl ?_ ?_ (fun i hi => ⟨hstatus i hi, ?_⟩) ?_
    · exact congrArg Process.status (exitProcs_self s₁.procs c)
    · exact (congrArg Process.parent (exitProcs_self s₁.procs c)).trans (hs.role c).2
    · exact (congrArg Process.parent (exitProcs_of_ne s₁.procs hi)).trans (hs.role i).2
    · rw [dispatchTo_out]
      simp only [hs.out, hpid q]
      rfl
  · by_cases hi : i = c
    · subst hi
      exact (congrArg Process.tickCount (exitProcs_self s₁.procs i) :)
    · exact (congrArg Process.tickCount (exitProcs_of_ne s₁.procs hi) :)

/-- The end of `sys_user_exit` with an empty queue: no live process is left, and
    the machine shuts down. -/
theorem SchedInv.exit_nil {α β : Type} {k : α → KernelM β} (h : SchedInv s c [])
    (hs : SameQueue s s₁) :
    (do freeProcess c; schedule L >>= k) s₁ = .halt (.shutdown 0) := by
  have hQ := hs.queueOk_exit h
  have hfree : freeProcess c s₁ = .ret () { s₁ with procs := exitProcs s₁.procs c } := rfl
  have hdead : ∀ i, ¬ (exitProcs s₁.procs c i).Live := by
    intro i
    by_cases hi : i = c
    · subst hi
      rw [exitProcs_self]
      exact fun hl => hl.2 rfl
    · rw [exitProcs_of_ne _ hi]
      unfold Process.Live
      rw [(hs.role i).1]
      exact mt (h.live i).mpr (by simpa using hi)
  rw [Prog.bind_of_ret hfree, Prog.bind_of_halt (schedule_nil L hQ), if_pos hdead]

/-! ## `do_fork` -/

/-- During a trap of `s`: process `c` has a new child at the end of the queue. -/
structure Forked (s s₂ : Kernel) (c child : Pid) (Q : List Pid) : Prop where
  free : firstFree s.procs = some child
  queue : QueueOk s₂ (Q ++ [child])
  born : (s₂.procs child).status = .READY ∧ (s₂.procs child).parent = some c
  role : ∀ i, i ≠ child → SameRole s s₂ i
  pid : ∀ i, (s₂.procs i).pid = (s.procs i).pid
  tick : ∀ i, (s₂.procs i).tickCount = (s.procs i).tickCount
  frame : ∀ i, i ≠ child → (s₂.procs i).trapframe = (s.procs i).trapframe
  current : s₂.current = s.current
  out : dispatches s₂.console = []

/-- What the last part of `do_fork` changes: the child is ready, with 0 for its
    result, and queued. -/
structure ForkFinished (c child : Pid) (s s' : Kernel) : Prop where
  phys : s'.phys = { s.phys with
    mem := store64 s.phys.mem (frameSlot (s.procs child).trapframe .a0) 0 }
  kroot : s'.gKernelPagetable = s.gKernelPagetable
  heap : s'.gUfreePage = s.gUfreePage
  others : ∀ i, i ≠ child → (s'.procs i).unlinked = (s.procs i).unlinked
  self : (s'.procs child).unlinked =
    { (s.procs child).unlinked with status := .READY, parent := some c }

/-- The last part of `do_fork`, once the child's memory is set up. -/
def forkFinish (c child : Pid) : KernelM Word := do
  setProc child fun c => { c with status := .READY }
  let p ← proc child
  onPhys (store (frameSlot p.trapframe .a0) 0)
  setProc child fun p => { p with parent := some c }
  insertToReadyQueue child
  let p ← proc child
  return asInt p.pid

/-- The child comes to the end of the queue. -/
theorem forkFinish_queue {child : Pid} (hQ₁ : QueueOk s₁ Q) (hchild : child ∉ Q) :
    Prog.wp (forkFinish c child)
      (fun r s₂ => r = asInt (s₁.procs child).pid ∧ QueueOk s₂ (Q ++ [child]) ∧
        ForkFinished c child s₁ s₂ ∧ s₂.current = s₁.current ∧
        dispatches s₂.console = dispatches s₁.console)
      (fun _ => False) (fun _ => False) s₁ := by
  -- the process table in which the child is inserted
  let procs₂ := Function.update s₁.procs child
    { s₁.procs child with status := .READY, parent := some c }
  let m := store64 s₁.phys.mem (frameSlot (s₁.procs child).trapframe .a0) 0
  let s₂ : Kernel := { s₁ with procs := procs₂, phys := { s₁.phys with mem := m } }
  have hQ₂ : QueueOk s₂ Q := by
    have hne : ∀ i ∈ Q, i ≠ child := fun i hi e => hchild (e ▸ hi)
    refine ⟨Chain.congr hQ₁.chain fun i hi => ?_, fun i hi => ?_⟩
    · simp [s₂, procs₂, hne i hi]
    · have := hQ₁.ready i hi
      simpa [s₂, procs₂, hne i hi] using this
  obtain ⟨procs, head, console, hins, hQ, hprocs, hout⟩ := insertToReadyQueue_spec hQ₂ hchild
  have hof : ∀ i, i ≠ child → (procs i).unlinked = (s₁.procs i).unlinked := by
    intro i hi
    rw [hprocs i]
    simp [s₂, procs₂, hi, Process.unlinked]
  have hself : (procs child).unlinked =
      { (s₁.procs child).unlinked with status := .READY, parent := some c } := by
    rw [hprocs child]
    simp [s₂, procs₂, Process.unlinked]
  have hrun : forkFinish c child s₁ = (do
      insertToReadyQueue child
      let p ← proc child
      return asInt p.pid : KernelM Word) s₂ := by
    simp [forkFinish, Prog.bind_apply, setProc, proc, onPhys, Prog.zoom, store, s₂, procs₂, m]
  unfold Prog.wp
  rw [hrun, Prog.bind_of_ret hins]
  exact ⟨congrArg asInt (congrArg Process.pid hself :), hQ, ⟨rfl, rfl, rfl, hof, hself⟩, rfl, hout⟩

theorem doFork_finish (h : SchedInv s c Q) (hs : SchedSame { s with console := [] } s₁)
    {child : Pid} (hfree : firstFree s.procs = some child)
    (hframe : ∀ i, i ≠ child → (s₁.procs i).trapframe = (s.procs i).trapframe) :
    Prog.wp (forkFinish c child)
      (fun r s₂ => (Forked s s₂ c child Q ∧ r = asInt (s.procs child).pid) ∧
        ForkFinished c child s₁ s₂) (fun _ => False) (fun _ => False) s₁ := by
  have hdead : ¬ (s.procs child).Live := fun hl => hl.1 (firstFree_status hfree)
  have hchild : child ∉ Q := fun hm => hdead ((h.live child).mp (List.mem_cons_of_mem _ hm))
  refine Prog.wp_mono (forkFinish_queue ((h.sameQueue hs).queueOk h.queue) hchild) ?_ (fun _ h => h)
    fun _ h => h
  rintro _ s₂ ⟨rfl, hQ, hfin, hcur, hout⟩
  have hof := hfin.others
  have hself := hfin.self
  refine ⟨⟨?_, congrArg asInt (hs.pid child)⟩, hfin⟩
  constructor
  · exact hfree
  · exact hQ
  · exact ⟨(congrArg Process.status hself :), (congrArg Process.parent hself :)⟩
  · intro i hi
    exact ⟨(congrArg Process.status (hof i hi) :).trans (hs.status i),
      (congrArg Process.parent (hof i hi) :).trans (hs.parent i)⟩
  · intro i
    by_cases hi : i = child
    · subst hi
      exact (congrArg Process.pid hself :).trans (hs.pid i)
    · exact (congrArg Process.pid (hof i hi) :).trans (hs.pid i)
  · intro i
    by_cases hi : i = child
    · subst hi
      exact (congrArg Process.tickCount hself :).trans (hs.tickCount i)
    · exact (congrArg Process.tickCount (hof i hi) :).trans (hs.tickCount i)
  · exact fun i hi => (congrArg Process.trapframe (hof i hi) :).trans (hframe i hi)
  · exact hcur.trans hs.current
  · exact hout.trans hs.out

theorem doFork_sched (h : SchedInv s c Q) (hs : SchedSame { s with console := [] } s₁)
    (hprocs : s₁.procs = s.procs) :
    Prog.wp (doFork L c)
      (fun r s₂ => ∃ child, Forked s s₂ c child Q ∧ r = asInt (s.procs child).pid)
      (fun _ => False)
      (fun e => ¬ SchedHalt e ∧ (NoSlot e → firstFree s.procs = none)) s₁ := by
  have hquiet : ∀ e, ¬ QuietHalt e → ¬ SchedHalt e ∧ (NoSlot e → firstFree s.procs = none) :=
    fun e he => ⟨fun h => he h.quietHalt, fun h => absurd h.quietHalt he⟩
  rw [doFork, Prog.wp_bind, proc, Prog.wp_gets, Prog.wp_bind]
  rw [sprint, Prog.wp_modify]
  generalize hs₂ : ({ s₁ with console := _ } : Kernel) = s₂
  have hprocs₂ : s₂.procs = s.procs := by rw [← hs₂, ← hprocs]
  have hs₂' : SchedSame { s with console := [] } s₂ := by
    refine IsTrans.trans _ _ _ hs ?_
    rw [← hs₂]
    exact ⟨fun _ => rfl, rfl, rfl, by simp [dispatches]⟩
  have hfirst : firstFree s₂.procs = firstFree s.procs := by rw [hprocs₂]
  rw [Prog.wp_bind]
  refine Prog.wp_mono (allocProcess_sched L s₂) (fun child s₃ hs₃ => ?_) (fun _ h => h) ?_
  rotate_left
  · rw [hfirst]
    exact fun _ h => h
  have hs₃' := IsTrans.trans _ _ _ hs₂' hs₃.1.same
  rw [Prog.wp_bind, proc, Prog.wp_gets, Prog.wp_bind]
  refine Prog.wp_mono ((forkRegions_slot c child _).wp s₃) (fun _ s₄ hs₄ => ?_) (fun _ h => h)
    hquiet
  have hfree : firstFree s.procs = some child := hfirst.symm.trans hs₃.2
  have hframe : ∀ i, i ≠ child → (s₄.procs i).trapframe = (s.procs i).trapframe := by
    intro i hi
    rw [hs₄.others i hi, hs₃.1.others i hi, hprocs₂]
  refine Prog.wp_mono (doFork_finish h (IsTrans.trans _ _ _ hs₃' hs₄.same) hfree hframe) ?_
    (fun _ h => h) fun _ h => h.elim
  exact fun _ s₅ hf => ⟨child, hf.1⟩

/-- Going on with the parent after a fork. -/
theorem SchedInv.afterFork (h : SchedInv s c Q) {child : Pid} (hf : Forked s s₂ c child Q) :
    SchedInv (Pke.afterSwitch L c s₂) c (Q ++ [child]) := by
  have hdead : ¬ (s.procs child).Live := fun hl => hl.1 (firstFree_status hf.free)
  have hchild : child ∉ c :: Q := fun hm => hdead ((h.live child).mp hm)
  rw [List.mem_cons, not_or] at hchild
  constructor
  · rfl
  · simp [Pke.afterSwitch]
  · exact ⟨hf.queue.chain, hf.queue.ready⟩
  · simp [h.notin, Ne.symm hchild.1]
  · intro i
    change _ ↔ (s₂.procs i).Live
    by_cases hi : i = child
    · subst hi
      simp [Process.Live, hf.born.1]
    · unfold Process.Live
      rw [(hf.role i hi).1]
      have := h.live i
      simpa [hi, Process.Live] using this
  · intro i hi
    by_cases hic : i = child
    · subst hic
      exact hf.born.1
    · refine (hf.role i hic).1.trans (h.ready i ?_)
      simpa [hic] using hi
  · exact fun i => (hf.pid i).trans (h.pids i)
  · intro i
    have := h.ticks i
    rwa [← hf.tick i] at this

end Pke
