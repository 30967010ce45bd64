import Pke.Sched.Quiet
import Mathlib.Data.Fintype.Card
import Mathlib.Data.Fintype.List

/-!
# The ready queue

`QueueOk s Q`: the list from `ready_queue_head` along `queue_next` consists of
the processes `Q`, all of them READY. `insert_to_ready_queue` appends, `schedule`
takes the head and hands the hart to it, or stops the machine when there is
none.
-/

namespace Pke

open Lib

/-- A process that has been created and has not exited. -/
def Process.Live (p : Process) : Prop := p.status ≠ .FREE ∧ p.status ≠ .ZOMBIE

instance (p : Process) : Decidable p.Live := inferInstanceAs (Decidable (_ ∧ _))

/-- The ready queue consists of the processes `Q`. -/
structure QueueOk (s : Kernel) (Q : List Pid) : Prop where
  chain : Chain (fun i => (s.procs i).queueNext) some none s.readyQueueHead Q
  ready : ∀ i ∈ Q, (s.procs i).status = .READY

theorem QueueOk.nodup {s : Kernel} {Q : List Pid} (h : QueueOk s Q) : Q.Nodup :=
  Chain.nodup (Option.some_injective _) h.chain

theorem QueueOk.of_same {s s' : Kernel} {Q : List Pid} (h : QueueOk s Q) (hs : SchedSame s s') :
    QueueOk s' Q := by
  refine ⟨?_, fun i hi => (hs.status i).trans (h.ready i hi)⟩
  rw [hs.head]
  exact Chain.congr h.chain fun i _ => hs.queueNext i

theorem QueueOk.head_eq {s : Kernel} {q : Pid} {Q : List Pid} (h : QueueOk s (q :: Q)) :
    s.readyQueueHead = some q := Chain.head_eq h.chain

/-! ## Insertion -/

/-- The loop of `insert_to_ready_queue` finds the last element of the queue. -/
theorem browseQueue_last {procs : Pid → Process} {i last : Pid} :
    ∀ (l : List Pid) (fuel : ℕ) (p : Pid),
      Chain (fun j => (procs j).queueNext) some none (some p) (l ++ [last]) →
      l.length < fuel → i ∉ l ++ [last] → browseQueue procs i fuel p = .last last := by
  intro l
  induction l with
  | nil =>
    intro fuel p h hfuel hi
    obtain ⟨fuel, rfl⟩ : ∃ f, fuel = f + 1 := ⟨fuel - 1, by simp at hfuel; omega⟩
    obtain ⟨hp, -, hend⟩ := h
    obtain rfl := Option.some.inj hp
    have hend' : (procs p).queueNext = none := hend
    have hne : p ≠ i := by
      rintro rfl
      simp at hi
    rw [browseQueue, hend', if_neg hne]
  | cons c l ih =>
    intro fuel p h hfuel hi
    obtain ⟨fuel, rfl⟩ : ∃ f, fuel = f + 1 := ⟨fuel - 1, by simp at hfuel; omega⟩
    obtain ⟨hp, -, htail⟩ := h
    obtain rfl := Option.some.inj hp
    rw [List.cons_append, List.mem_cons, not_or] at hi
    -- the rest of the queue is not empty, so `p` has a successor
    obtain ⟨q, hq⟩ : ∃ q, (procs p).queueNext = some q := by
      cases l with
      | nil => exact ⟨last, htail.1⟩
      | cons d l => exact ⟨d, htail.1⟩
    have htail' : Chain (fun j => (procs j).queueNext) some none (some q) (l ++ [last]) := by
      rw [← hq]
      exact htail
    rw [browseQueue, hq]
    dsimp only
    rw [if_neg (Ne.symm hi.1)]
    exact ih fuel q htail' (by simp at hfuel; omega) hi.2

/-- The fields of a process other than its place in the queue. -/
def Process.unlinked (p : Process) : Process := { p with queueNext := none }

/-- The process table after `i` became the last element of the queue. -/
def linkLast (procs : Pid → Process) (i : Pid) : Pid → Process :=
  Function.update procs i { procs i with status := .READY, queueNext := none }

theorem linkLast_unlinked (procs : Pid → Process) (i j : Pid) :
    (linkLast procs i j).unlinked =
      { (procs j).unlinked with status := if j = i then .READY else (procs j).status } := by
  unfold linkLast
  by_cases hj : j = i
  · subst hj
    simp [Process.unlinked]
  · simp [hj, Process.unlinked]

theorem QueueOk.length_lt {s : Kernel} {Q : List Pid} (h : QueueOk s Q) {i : Pid} (hi : i ∉ Q) :
    Q.length < 32 := by
  have := (List.nodup_cons.mpr ⟨hi, h.nodup⟩).length_le_card
  simp at this
  omega

/-- `insert_to_ready_queue` appends a process that is not in the queue and makes
    it READY. -/
theorem insertToReadyQueue_spec {s : Kernel} {Q : List Pid} {i : Pid} (h : QueueOk s Q)
    (hi : i ∉ Q) :
    ∃ procs head console,
      insertToReadyQueue i s =
        .ret () { s with procs := procs, readyQueueHead := head, console := console } ∧
      QueueOk { s with procs := procs, readyQueueHead := head, console := console } (Q ++ [i]) ∧
      (∀ j, (procs j).unlinked =
        { (s.procs j).unlinked with status := if j = i then .READY else (s.procs j).status }) ∧
      dispatches console = dispatches s.console := by
  have hout : dispatches (s.console ++
      [.text "going to insert process %d to ready queue.\n" [(s.procs i).pid]]) =
      dispatches s.console := by simp [dispatches]
  rcases List.eq_nil_or_concat Q with rfl | ⟨l, last, rfl⟩
  · have hhead : s.readyQueueHead = none := h.chain
    refine ⟨linkLast s.procs i, some i, _, ?_, ⟨?_, ?_⟩, linkLast_unlinked s.procs i, hout⟩
    · simp [insertToReadyQueue, Prog.bind_apply, proc, sprint, setProc, hhead, linkLast]
    · refine ⟨rfl, Option.some_ne_none i, ?_⟩
      simp [linkLast]
    · simp [linkLast]
  · rw [List.concat_eq_append] at h hi ⊢
    obtain ⟨p, hp⟩ : ∃ p, s.readyQueueHead = some p := by
      cases l with
      | nil => exact ⟨last, h.chain.1⟩
      | cons c l => exact ⟨c, h.chain.1⟩
    have hbrowse : browseQueue s.procs i 32 p = .last last := by
      refine browseQueue_last l 32 p (hp ▸ h.chain) ?_ hi
      have := h.length_lt hi
      simp at this
      omega
    have hne : last ≠ i := by
      rintro rfl
      simp at hi
    let procs' := Function.update s.procs last { s.procs last with queueNext := some i }
    refine ⟨linkLast procs' i, some p, _, ?_, ⟨?_, ?_⟩, fun j => ?_, hout⟩
    · simp [insertToReadyQueue, Prog.bind_apply, proc, sprint, setProc, hp, linkLast, hbrowse,
        procs', hne.symm]
    · rw [List.append_assoc]
      have hchain := h.chain
      rw [hp] at hchain
      refine Chain.snoc hchain (Option.some_ne_none i) ?_ ?_ fun c hc => ?_
      · simp [linkLast, procs', hne]
      · simp [linkLast]
      · have hc1 : c ≠ i := by
          rintro rfl
          simp [hc] at hi
        have hc2 : c ≠ last := by
          rintro rfl
          have := h.nodup
          simp only [List.nodup_append] at this
          exact this.2.2 c hc c (by simp) rfl
        simp [linkLast, procs', hc1, hc2]
    · intro j hj
      by_cases hji : j = i
      · simp [linkLast, hji]
      · have hjQ : j ∈ l ++ [last] := by simpa [hji] using hj
        have := h.ready j hjQ
        by_cases hjl : j = last
        · subst hjl
          simpa [linkLast, procs', hji] using this
        · simpa [linkLast, procs', hji, hjl] using this
    · rw [linkLast_unlinked]
      by_cases hjl : j = last
      · subst hjl
        simp [procs', Process.unlinked]
      · simp [procs', hjl]

/-! ## `switch_to` -/

/-- Memory after `switch_to` prepared the trapframe of a process. -/
def switchMem (L : Layout) (p : Process) (satp : Word) (m : Mem) : Mem :=
  store64 (store64 (store64 m (tfKernelSp p.trapframe) p.kstack) (tfKernelSatp p.trapframe) satp)
    (tfKernelTrap p.trapframe) L.smodeTrapHandler

/-- The machine when `switch_to` has handed the hart to process `i`. -/
def afterSwitch (L : Layout) (i : Pid) (s : Kernel) : Kernel :=
  let p := s.procs i
  let m := switchMem L p (s.csr .satp) s.phys.mem
  let csr := Function.update (Function.update (Function.update s.csr .stvec L.smodeTrapVector)
    .sstatus (s.csr .sstatus &&& ~~~SSTATUS_SPP ||| SSTATUS_SPIE))
    .sepc (load64 m (tfEpc p.trapframe))
  { s with
    current := some i
    phys := { s.phys with mem := m }
    regs := fun r => load64 m (frameSlot p.trapframe r)
    csr := Function.update (Function.update csr .satp (MAKE_SATP p.pagetable))
      .sscratch p.trapframe }

/-- What becomes of a return to process `i` that would leave the machine in `s`: the
    hart gets through `return_to_user`, or it is stuck there. -/
def returning {α : Type} (L : Layout) (i : Pid) (s : Kernel) : Out Kernel Halt α :=
  if CanReturn L s i then .exit s else .halt .trapEntry

theorem returning_eq {α : Type} {L : Layout} {i : Pid} {s : Kernel} (h : CanReturn L s i) :
    (returning L i s : Out Kernel Halt α) = .exit s := if_pos h

theorem returning_exit {α : Type} {L : Layout} {i : Pid} {s s' : Kernel}
    (h : (returning L i s : Out Kernel Halt α) = .exit s') : s' = s ∧ CanReturn L s i := by
  unfold returning at h
  split_ifs at h with hret
  exact ⟨(Out.exit.inj h).symm, hret⟩

theorem bind_of_returning {α β : Type} {L : Layout} {i : Pid} {c : KernelM α} {s s' : Kernel}
    (h : c s = returning L i s') (k : α → KernelM β) : (c >>= k) s = returning L i s' := by
  unfold returning at *
  split_ifs at * with hret
  · exact Prog.bind_of_exit h k
  · exact Prog.bind_of_halt h k

theorem wp_of_returning {α : Type} {L : Layout} {i : Pid} {p : KernelM α} {s s' : Kernel}
    {R : α → Kernel → Prop} {E : Kernel → Prop} {H : Halt → Prop} (h : p s = returning L i s')
    (hE : E s') (hH : ¬ CanReturn L s' i → H .trapEntry) : Prog.wp p R E H s := by
  unfold Prog.wp
  rw [h, returning]
  split_ifs with hret
  · exact hE
  · exact hH hret

theorem switchTo_eq {α : Type} (L : Layout) (i : Pid) (s : Kernel) :
    (switchTo L i : KernelM α) s = returning L i (afterSwitch L i s) := by
  let m := switchMem L (s.procs i) (s.csr .satp) s.phys.mem
  let s₁ : Kernel := { s with
    current := some i
    phys := { s.phys with mem := m }
    csr := Function.update (Function.update (Function.update s.csr .stvec L.smodeTrapVector)
      .sstatus (s.csr .sstatus &&& ~~~SSTATUS_SPP ||| SSTATUS_SPIE))
      .sepc (load64 m (tfEpc (s.procs i).trapframe)) }
  have hrun : (switchTo L i : KernelM α) s =
      callReturnToUser L i (s.procs i).trapframe (MAKE_SATP (s.procs i).pagetable) s₁ := by
    simp [switchTo, Prog.bind_apply, writeCsr, readCsr, proc, onPhys, Prog.zoom, store, load,
      switchMem, s₁, m]
  -- the registers and the CSRs have no part in the translation
  have hcan : CanReturn L (afterSwitch L i s) i ↔ CanReturn L s₁ i := Iff.rfl
  rw [hrun, callReturnToUser, Prog.bind_of_ret (Prog.gets_apply _ _), id, returning]
  by_cases hret : CanReturn L s₁ i
  · rw [if_pos hret, if_pos (hcan.mpr hret)]
    simp [Prog.bind_apply, returnToUser_run, afterSwitch, s₁, m]
  · rw [if_neg hret, if_neg (mt hcan.mp hret)]
    rfl

/-! ## `schedule` -/

theorem checkShutdown_spec :
    ∀ (is : List Pid) (s : Kernel), ∃ b console,
      checkShutdown is s = .ret b { s with console := console } ∧
      (b = true ↔ ∀ i ∈ is, ¬ (s.procs i).Live) := by
  intro is
  induction is with
  | nil => exact fun s => ⟨true, s.console, rfl, by simp⟩
  | cons i is ih =>
    intro s
    by_cases hi : (s.procs i).status ≠ .FREE ∧ (s.procs i).status ≠ .ZOMBIE
    · have hlive : (s.procs i).Live := hi
      obtain ⟨b, console, hrun, -⟩ := ih { s with
        console := s.console ++
          [.text "ready queue empty, but process %d is not in free/zombie state:%d\n"
            [BitVec.ofNat 64 i, BitVec.ofNat 64 (s.procs i).status.ctorIdx]] }
      refine ⟨false, console, ?_, by simp [hlive]⟩
      rw [checkShutdown, proc, Prog.bind_of_ret (Prog.gets_apply _ _), if_pos hi, sprint,
        Prog.bind_of_ret (Prog.modify_apply _ _), Prog.bind_of_ret hrun]
      rfl
    · have hlive : ¬ (s.procs i).Live := hi
      obtain ⟨b, console, hrun, hb⟩ := ih s
      refine ⟨b, console, ?_, by simp [hlive, hb]⟩
      rw [checkShutdown, proc, Prog.bind_of_ret (Prog.gets_apply _ _), if_neg hi, hrun]

/-- With an empty queue, `schedule` shuts the machine down if every process is
    FREE or ZOMBIE, and panics otherwise. -/
theorem schedule_nil {α : Type} (L : Layout) {s : Kernel} (h : QueueOk s []) :
    (schedule L : KernelM α) s = .halt (if ∀ i, ¬ (s.procs i).Live then .shutdown 0
      else .panic "Not handled: we should let system wait for unfinished processes.\n" []) := by
  have hhead : s.readyQueueHead = none := h.chain
  obtain ⟨b, console, hrun, hb⟩ := checkShutdown_spec (List.finRange 32) s
  rw [schedule, Prog.bind_of_ret (Prog.gets_apply _ _), hhead]
  dsimp only
  rw [Prog.bind_of_ret hrun]
  cases b with
  | true =>
    rw [if_pos rfl, if_pos fun i => hb.mp rfl i (List.mem_finRange i)]
    rfl
  | false =>
    rw [if_neg Bool.false_ne_true, if_neg fun hall => ?_]
    · rfl
    · exact Bool.false_ne_true (hb.mpr fun i _ => hall i)

/-- The machine when `schedule` has dispatched process `q`. -/
def dispatchTo (L : Layout) (q : Pid) (s : Kernel) : Kernel :=
  afterSwitch L q { s with
    readyQueueHead := (s.procs q).queueNext
    console := s.console ++ [.schedule (s.procs q).pid] }

/-- The hart was handed to process `q`; but for its links and the head of the queue the
    process table is that of `s₁`. -/
structure HandedOver (L : Layout) (q : Pid) (s₁ s' : Kernel) : Prop where
  switch : ∃ s₂, s' = afterSwitch L q s₂ ∧ s₂ = { s₁ with
    procs := s₂.procs, readyQueueHead := s₂.readyQueueHead, console := s₂.console } ∧
    ∀ i, (s₂.procs i).unlinked = (s₁.procs i).unlinked

theorem HandedOver.tickCount {L : Layout} {q : Pid} {s₁ s' : Kernel} (h : HandedOver L q s₁ s')
    (i : Pid) : (s'.procs i).tickCount = (s₁.procs i).tickCount := by
  obtain ⟨s₂, rfl, -, hprocs⟩ := h.switch
  exact (congrArg Process.tickCount (hprocs i) :)

/-- With `q` at the head of the queue, `schedule` dispatches `q`; the assertion
    behind it holds. -/
theorem schedule_cons {α : Type} (L : Layout) {s : Kernel} {q : Pid} {Q : List Pid}
    (h : QueueOk s (q :: Q)) : (schedule L : KernelM α) s = returning L q (dispatchTo L q s) := by
  have hready : ¬ (s.procs q).status ≠ .READY := not_not.mpr (h.ready q List.mem_cons_self)
  rw [schedule, Prog.bind_of_ret (Prog.gets_apply _ _), h.head_eq]
  dsimp only
  rw [Prog.bind_of_ret (Prog.modify_apply _ _), proc, Prog.bind_of_ret (Prog.gets_apply _ _),
    if_neg hready, Prog.bind_of_ret (Prog.modify_apply _ _), sprint,
    Prog.bind_of_ret (Prog.modify_apply _ _), switchTo_eq]
  rfl

@[simp] theorem dispatchTo_procs (L : Layout) (q : Pid) (s : Kernel) :
    (dispatchTo L q s).procs = s.procs := rfl

@[simp] theorem dispatchTo_current (L : Layout) (q : Pid) (s : Kernel) :
    (dispatchTo L q s).current = some q := rfl

theorem dispatchTo_out (L : Layout) (q : Pid) (s : Kernel) :
    dispatches (dispatchTo L q s).console = dispatches s.console ++ [(s.procs q).pid] :=
  dispatches_append _ _

theorem QueueOk.dispatchTo {L : Layout} {s : Kernel} {q : Pid} {Q : List Pid}
    (h : QueueOk s (q :: Q)) : QueueOk (dispatchTo L q s) Q :=
  ⟨Chain.pop h.chain, fun i hi => h.ready i (List.mem_cons_of_mem _ hi)⟩

end Pke
