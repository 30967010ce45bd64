import Pke.Sched.Step

/-!
# Every trap is a step of the scheduler
-/

namespace Pke

open Lib

variable {L : Layout} {t : TrapInput} {s s₁ s₂ s' : Kernel} {c q : Pid} {Q Q' : List Pid}

/-- A trap is a call of `exit`. -/
def IsExit (t : TrapInput) : Prop := t.scause = CAUSE_USER_ECALL ∧ t.regs .a0 = SYS_user_exit

/-- The outcome of a trap of `s`, or of a part of its handler: it comes back to
    user mode by a step of the scheduler, stops in `schedule` only to shut down
    after the last process has exited, and for want of a slot only in a `fork`
    when all are taken. -/
abbrev TrapWp (t : TrapInput) (s : Kernel) (c : Pid) (Q : List Pid) (p : KernelM Unit)
    (s₁ : Kernel) : Prop :=
  Prog.wp p (fun _ _ => False)
    (fun s' => ∃ q Q', SchedInv s' q Q' ∧ SchedStep t s s' c Q q Q')
    (fun e => (SchedHalt e → e = .shutdown 0 ∧ IsExit t ∧ Q = []) ∧
      (NoSlot e → IsFork t ∧ firstFree s.procs = none)) s₁

/-- Code that keeps the scheduling data, then back to the current process. -/
theorem trapWp_quiet {α : Type} {p : KernelM α} {k : α → KernelM Unit}
    (hs : SchedSame { s with console := [] } s₁) (hp : Quiet p)
    (hk : ∀ a s₂, SchedSame { s with console := [] } s₂ → TrapWp t s c Q (k a) s₂) :
    TrapWp t s c Q (p >>= k) s₁ := by
  refine Prog.wp_bind.mpr (Prog.wp_mono (hp.wp s₁) (fun a s₂ hs₂ => ?_) (fun _ h => h.elim) ?_)
  · exact hk a s₂ (IsTrans.trans _ _ _ hs hs₂)
  · exact fun e he => ⟨fun h => absurd h.quietHalt he, fun h => absurd h.quietHalt he⟩

/-- Code that ends by handing the hart to a process. -/
theorem trapWp_of_returning {p : KernelM Unit} {i : Pid} (he : p s₁ = returning L i s')
    (hs' : ∃ q Q', SchedInv s' q Q' ∧ SchedStep t s s' c Q q Q') : TrapWp t s c Q p s₁ := by
  exact wp_of_returning he hs' fun _ =>
    ⟨fun hh => absurd hh (by simp [SchedHalt]), fun hh => absurd hh (by simp [NoSlot])⟩

theorem trapWp_resume (h : SchedInv s c Q) (hs : SchedSame { s with console := [] } s₁)
    (ht : t.scause ≠ CAUSE_MTIMER_S_TRAP) : TrapWp t s c Q (resume L) s₁ := by
  refine trapWp_of_returning (resume_eq (hs.current.trans h.current)) ⟨c, Q,
    h.afterSwitch (h.sameQueue hs), .stay (fun i => ⟨hs.status i, hs.parent i⟩) hs.out ?_⟩
  rw [if_neg ht, add_zero]
  exact hs.tickCount c

theorem currentProc_eq (h : s.current = some c) : currentProc s = .ret c s := by
  rw [currentProc, Prog.bind_of_ret (Prog.gets_apply _ _), h]
  rfl

/-- Setting the status of the current process to READY changes nothing. -/
theorem SchedInv.setReady (h : SchedInv s c Q) (hs : SameQueue s s₁) :
    setProc c (fun p => { p with status := .READY }) s₁ = .ret () s₁ := by
  have hready : (s₁.procs c).status = .READY :=
    (hs.role c).1.trans (h.ready c List.mem_cons_self)
  have hsame : Function.update s₁.procs c { s₁.procs c with status := .READY } = s₁.procs := by
    rw [← hready]
    exact Function.update_eq_self _ _
  rw [setProc, Prog.modify_apply, hsame]

theorem sysUserYield_eq (h : SchedInv s c Q) (hs : SchedSame { s with console := [] } s₁) :
    sysUserYield L s₁ = (do
      insertToReadyQueue c
      schedule L >>= fun _ : Unit => (pure 0 : KernelM Word)) s₁ := by
  rw [sysUserYield, Prog.bind_of_ret (currentProc_eq (hs.current.trans h.current)),
    Prog.bind_of_ret (h.setReady (h.sameQueue hs))]

theorem sysUserYield_exit (h : SchedInv s c Q) (hs : SchedSame { s with console := [] } s₁) :
    ∃ s' q Q', sysUserYield L s₁ = returning L q s' ∧ Rotated t s s' c Q q Q' ∧
      HandedOver L q s₁ s' := by
  rw [sysUserYield_eq h hs]
  exact h.requeue (h.sameQueue hs)

theorem sysUserYield_trapWp {k : Word → KernelM Unit} (h : SchedInv s c Q)
    (hs : SchedSame { s with console := [] } s₁) :
    TrapWp t s c Q (sysUserYield L >>= k) s₁ := by
  obtain ⟨s', q, Q', hrun, hrot, -⟩ := sysUserYield_exit (L := L) (t := t) h hs
  exact trapWp_of_returning (bind_of_returning hrun k) ⟨q, Q', hrot.inv, hrot.step⟩

/-- After its message `exit` drops the caller and dispatches. -/
theorem sysUserExit_eq (hcur : s₁.current = some c) (a : Word) :
    ∃ s₂, SchedSame s₁ s₂ ∧ sysUserExit L a s₁ =
      (do freeProcess c; schedule L >>= fun _ : Unit => (pure 0 : KernelM Word)) s₂ := by
  refine ⟨{ s₁ with console := s₁.console ++ [.text "User exit with code:%d.\n" [a]] },
    ⟨fun _ => rfl, rfl, rfl, by simp [dispatches]⟩, ?_⟩
  rw [sysUserExit, sprint, Prog.bind_of_ret (Prog.modify_apply _ _)]
  exact Prog.bind_of_ret (currentProc_eq (by exact hcur)) _

theorem sysUserExit_nil (h : SchedInv s c []) (hs : SchedSame { s with console := [] } s₁)
    (a : Word) : sysUserExit L a s₁ = .halt (.shutdown 0) := by
  obtain ⟨s₂, hs₂, hrun⟩ := sysUserExit_eq (L := L) (hs.current.trans h.current) a
  rw [hrun]
  exact h.exit_nil (h.sameQueue (IsTrans.trans _ _ _ hs hs₂))

theorem sysUserExit_trapWp {a : Word} {k : Word → KernelM Unit} (h : SchedInv s c Q)
    (hs : SchedSame { s with console := [] } s₁) (ht : IsExit t) :
    TrapWp t s c Q (sysUserExit L a >>= k) s₁ := by
  cases Q with
  | nil =>
    unfold TrapWp Prog.wp
    rw [Prog.bind_of_halt (sysUserExit_nil h hs a) k]
    exact ⟨fun _ => ⟨rfl, ht, rfl⟩, fun h => h.elim⟩
  | cons q Q' =>
    obtain ⟨s₂, hs₂, hrun⟩ := sysUserExit_eq (L := L) (hs.current.trans h.current) a
    obtain ⟨s', hexit, hinv, hstep, -⟩ := h.exit_cons (L := L) (t := t)
      (k := fun _ : Unit => (pure 0 : KernelM Word))
      (h.sameQueue (IsTrans.trans _ _ _ hs hs₂))
    exact trapWp_of_returning (bind_of_returning (hrun.trans hexit) k) ⟨q, Q', hinv, hstep⟩

/-- `wait` of a process with a child. -/
theorem wait_eq {pid : BitVec 32} (h : SchedInv s c Q)
    (hs : SchedSame { s with console := [] } s₁)
    (hflag : waitFlag s₁.procs c pid (List.finRange 32) (-1) ≠ -1) :
    ∃ k : Unit → KernelM Word, wait L pid s₁ =
      (do insertToReadyQueue c; schedule L >>= k) s₁ := by
  refine ⟨fun _ => do
    let i ← currentProc
    let procs ← Prog.gets Kernel.procs
    waitLoop procs i pid (waitFlag s₁.procs c pid (List.finRange 32) (-1)), ?_⟩
  rw [wait, Prog.bind_of_ret (currentProc_eq (hs.current.trans h.current)),
    Prog.bind_of_ret (Prog.gets_apply _ _), if_neg hflag,
    Prog.bind_of_ret (h.setReady (h.sameQueue hs))]

theorem wait_exit {pid : BitVec 32} (h : SchedInv s c Q)
    (hs : SchedSame { s with console := [] } s₁)
    (hflag : waitFlag s₁.procs c pid (List.finRange 32) (-1) ≠ -1) :
    ∃ s' q Q', wait L pid s₁ = returning L q s' ∧ Rotated t s s' c Q q Q' ∧
      HandedOver L q s₁ s' := by
  obtain ⟨k, hrun⟩ := wait_eq (L := L) h hs hflag
  rw [hrun]
  exact h.requeue (h.sameQueue hs)

theorem wait_trapWp {pid : BitVec 32} {k : Word → KernelM Unit} (h : SchedInv s c Q)
    (hs : SchedSame { s with console := [] } s₁)
    (hk : ∀ s₂, SchedSame { s with console := [] } s₂ → TrapWp t s c Q (k (-1)) s₂) :
    TrapWp t s c Q (wait L pid >>= k) s₁ := by
  by_cases hflag : waitFlag s₁.procs c pid (List.finRange 32) (-1) = -1
  · unfold TrapWp Prog.wp
    rw [Prog.bind_apply, wait,
      Prog.bind_of_ret (currentProc_eq (hs.current.trans h.current)),
      Prog.bind_of_ret (Prog.gets_apply _ _)]
    dsimp only
    rw [if_pos hflag]
    exact hk s₁ hs
  · obtain ⟨s', q, Q', hrun, hrot, -⟩ := wait_exit (L := L) (t := t) h hs hflag
    exact trapWp_of_returning (bind_of_returning hrun k) ⟨q, Q', hrot.inv, hrot.step⟩

/-- After its message `fork` is `do_fork` of the caller. -/
theorem sysUserFork_eq (hcur : s₁.current = some c) :
    ∃ s₂, SchedSame s₁ s₂ ∧ s₂.procs = s₁.procs ∧ sysUserFork L s₁ = doFork L c s₂ := by
  refine ⟨{ s₁ with console := s₁.console ++ [.text "User call fork.\n" []] },
    ⟨fun _ => rfl, rfl, rfl, by simp [dispatches]⟩, rfl, ?_⟩
  rw [sysUserFork, sprint, Prog.bind_of_ret (Prog.modify_apply _ _)]
  exact Prog.bind_of_ret (currentProc_eq (by exact hcur)) _

theorem sysUserFork_trapWp {k : Word → KernelM Unit} (h : SchedInv s c Q)
    (hs : SchedSame { s with console := [] } s₁) (hprocs : s₁.procs = s.procs) (ht : IsFork t)
    (hk : ∀ a child s₂, Forked s s₂ c child Q → TrapWp t s c Q (k a) s₂) :
    TrapWp t s c Q (sysUserFork L >>= k) s₁ := by
  obtain ⟨s₂, hs₂, hprocs₂, hrun⟩ := sysUserFork_eq (L := L) (hs.current.trans h.current)
  refine Prog.wp_bind.mpr ?_
  unfold Prog.wp
  rw [hrun]
  refine Prog.wp_mono (doFork_sched h (IsTrans.trans _ _ _ hs hs₂) (hprocs₂.trans hprocs)) ?_
    (fun _ h => h.elim) fun e he => ⟨fun h => absurd h he.1, fun h => ⟨ht, he.2 h⟩⟩
  rintro a s₃ ⟨child, hf, -⟩
  exact hk a child s₃ hf

/-- Storing the result of a system call and going on with the caller. -/
def finishSyscall (L : Layout) (tf r : Word) : KernelM Unit := do
  onPhys (store (frameSlot tf .a0) r)
  resume L

theorem finishSyscall_trapWp {tf r : Word} (h : SchedInv s c Q)
    (hs : SchedSame { s with console := [] } s₁) (ht : t.scause = CAUSE_USER_ECALL) :
    TrapWp t s c Q (finishSyscall L tf r) s₁ := by
  refine trapWp_quiet hs (onPhys_quiet (store_quiet _ _)) fun _ s₂ hs₂ => ?_
  exact trapWp_resume h hs₂ (by rw [ht]; decide)

theorem finishSyscall_eq (tf r : Word) (hcur : s₂.current = some c) :
    finishSyscall L tf r s₂ = returning L c (afterSwitch L c { s₂ with phys := { s₂.phys with
      mem := store64 s₂.phys.mem (frameSlot tf .a0) r } }) := by
  rw [finishSyscall]
  exact (Prog.bind_of_ret (by rfl) _).trans (resume_eq hcur)

/-- Writing memory does not touch the process table. -/
theorem Forked.withPhys {child : Pid} (hf : Forked s s₂ c child Q) (phys : Phys) :
    Forked s { s₂ with phys := phys } c child Q :=
  ⟨hf.free, ⟨hf.queue.chain, hf.queue.ready⟩, hf.born, hf.role, hf.pid, hf.tick, hf.frame,
    hf.current, hf.out⟩

theorem Forked.step {child : Pid} (hf : Forked s s₂ c child Q) (ht : IsFork t) :
    SchedStep t s (afterSwitch L c s₂) c Q c (Q ++ [child]) := by
  refine .fork child ht hf.free hf.born hf.role hf.out ?_
  rw [if_neg (by rw [ht.1]; decide), add_zero]
  exact hf.tick c

theorem finishSyscall_fork {tf r : Word} {child : Pid} (h : SchedInv s c Q)
    (hf : Forked s s₂ c child Q) (ht : IsFork t) :
    TrapWp t s c Q (finishSyscall L tf r) s₂ :=
  trapWp_of_returning (finishSyscall_eq tf r (hf.current.trans h.current))
    ⟨c, Q ++ [child], h.afterFork (hf.withPhys _), (hf.withPhys _).step ht⟩

theorem doSyscall_trapWp {tf : Word} (h : SchedInv s c Q)
    (hs : SchedSame { s with console := [] } s₁) (hprocs : s₁.procs = s.procs)
    (ht : t.scause = CAUSE_USER_ECALL) :
    TrapWp t s c Q
      (doSyscall L (t.regs .a0) (t.regs .a1) (t.regs .a2) >>= finishSyscall L tf) s₁ := by
  unfold doSyscall
  split_ifs with h1 h2 h3 h4 h5 h6 h7
  · exact trapWp_quiet hs (sysUserPrint_quiet _ _) fun _ _ hs₂ => finishSyscall_trapWp h hs₂ ht
  · exact sysUserExit_trapWp h hs ⟨ht, h2⟩
  · exact trapWp_quiet hs sysUserAllocatePage_quiet fun _ _ hs₂ => finishSyscall_trapWp h hs₂ ht
  · exact trapWp_quiet hs (sysUserFreePage_quiet _) fun _ _ hs₂ => finishSyscall_trapWp h hs₂ ht
  · exact sysUserFork_trapWp h hs hprocs ⟨ht, h5⟩ fun _ _ _ hf =>
      finishSyscall_fork h hf ⟨ht, h5⟩
  · exact sysUserYield_trapWp h hs
  · exact wait_trapWp h hs fun _ hs₂ => finishSyscall_trapWp h hs₂ ht
  · exact ⟨fun hh => absurd hh (by simp [SchedHalt]), fun hh => absurd hh (by simp [NoSlot])⟩

/-- The process table after the tick count of `c` was set to `n`. -/
def setTick (procs : Pid → Process) (c : Pid) (n : ℤ) : Pid → Process :=
  Function.update procs c { procs c with tickCount := n }

theorem setTick_setTick (procs : Pid → Process) (c : Pid) (n n' : ℤ) :
    Function.update (setTick procs c n) c { setTick procs c n c with tickCount := n' } =
      setTick procs c n' := by
  simp [setTick]

theorem SameQueue.setTick (hs : SameQueue s s₁) {n : ℤ} (h0 : 0 ≤ n) (h2 : n ≤ TIME_SLICE_LEN) :
    SameQueue s { s₁ with procs := Pke.setTick s₁.procs c n } := by
  have hcore : ∀ i, { Pke.setTick s₁.procs c n i with tickCount := 0 } =
      { s₁.procs i with tickCount := 0 } := by
    intro i
    by_cases hi : i = c
    · subst hi
      simp [Pke.setTick]
    · simp [Pke.setTick, hi]
  constructor
  · exact fun i => ⟨(congrArg Process.status (hcore i) :).trans (hs.role i).1,
      (congrArg Process.parent (hcore i) :).trans (hs.role i).2⟩
  · exact fun i => (congrArg Process.queueNext (hcore i) :).trans (hs.next i)
  · exact fun i => (congrArg Process.pid (hcore i) :).trans (hs.pid i)
  · exact hs.head
  · exact hs.out
  · intro i
    by_cases hi : i = c
    · subst hi
      simpa [Pke.setTick] using And.intro h0 h2
    · simpa [Pke.setTick, hi] using hs.ticks i

/-- `rrsched` counts the tick, or ends the slice. -/
theorem rrsched_eq (h : SchedInv s c Q) (hs : SchedSame { s with console := [] } s₁) :
    rrsched L s₁ = if TIME_SLICE_LEN < (s₁.procs c).tickCount + 1 then
        (do insertToReadyQueue c; schedule L : KernelM Unit)
          { s₁ with procs := setTick s₁.procs c 0 }
      else .ret () { s₁ with procs := setTick s₁.procs c ((s₁.procs c).tickCount + 1) } := by
  have hset : setProc c (fun p => { p with tickCount := p.tickCount + 1 }) s₁ =
      .ret () { s₁ with procs := setTick s₁.procs c ((s₁.procs c).tickCount + 1) } := rfl
  have hself : (setTick s₁.procs c ((s₁.procs c).tickCount + 1) c).tickCount =
      (s₁.procs c).tickCount + 1 := by
    simp [setTick]
  have hzero : setProc c (fun p => { p with tickCount := 0 })
      { s₁ with procs := setTick s₁.procs c ((s₁.procs c).tickCount + 1) } =
      .ret () { s₁ with procs := setTick s₁.procs c 0 } := by
    rw [setProc, Prog.modify_apply]
    dsimp only
    rw [setTick_setTick]
  have hq₀ := (h.sameQueue hs).setTick (c := c) (n := 0) le_rfl (by decide)
  rw [rrsched, Prog.bind_of_ret (currentProc_eq (hs.current.trans h.current)),
    Prog.bind_of_ret hset, proc, Prog.bind_of_ret (Prog.gets_apply _ _)]
  dsimp only
  rw [hself]
  split_ifs
  · rw [Prog.bind_of_ret hzero, Prog.bind_of_ret (h.setReady hq₀)]
  · rfl

theorem rrsched_trapWp (h : SchedInv s c Q) (hs : SchedSame { s with console := [] } s₁)
    (ht : t.scause = CAUSE_MTIMER_S_TRAP) :
    TrapWp t s c Q (rrsched L >>= fun _ => resume L) s₁ := by
  have hcur : s₁.current = some c := hs.current.trans h.current
  have hq := h.sameQueue hs
  have htick := hq.ticks c
  have hcode := rrsched_eq (L := L) h hs
  by_cases hlt : TIME_SLICE_LEN < (s₁.procs c).tickCount + 1
  · -- the time slice is used up
    have hq₀ := hq.setTick (c := c) (n := 0) le_rfl (by decide)
    obtain ⟨s', q, Q', hrun, hrot, -⟩ := h.requeue (L := L) (t := t)
      (k := fun u : Unit => (pure u : KernelM Unit)) hq₀
    rw [Prog.bind_pure] at hrun
    rw [if_pos hlt, hrun] at hcode
    exact trapWp_of_returning (bind_of_returning hcode _) ⟨q, Q', hrot.inv, hrot.step⟩
  · rw [if_neg hlt] at hcode
    have hq₂ := hq.setTick (c := c) (n := (s₁.procs c).tickCount + 1) (by omega) (not_lt.mp hlt)
    refine trapWp_of_returning ((Prog.bind_of_ret hcode _).trans (resume_eq (by exact hcur)))
      ⟨c, Q, h.afterSwitch hq₂, .stay hq₂.role hq₂.out ?_⟩
    have hself : (setTick s₁.procs c ((s₁.procs c).tickCount + 1) c).tickCount =
        (s₁.procs c).tickCount + 1 := by
      simp [setTick]
    rw [if_pos ht]
    refine hself.trans ?_
    rw [hs.tickCount c]

theorem entered_same (t : TrapInput) (c : Pid) (s : Kernel) :
    SchedSame { s with console := [] } (entered t c s) :=
  ⟨fun _ => rfl, rfl, rfl, rfl⟩

theorem inSyscall_same (t : TrapInput) (c : Pid) (s : Kernel) :
    SchedSame { s with console := [] } (inSyscall t c s) :=
  ⟨fun _ => rfl, rfl, rfl, rfl⟩

/-- A system call, from the state in which the handler looks at the cause. -/
theorem handleSyscall_resume (h : SchedInv s c Q) :
    (handleSyscall L (s.procs c).trapframe >>= fun _ => resume L) (entered t c s) =
      (doSyscall L (t.regs .a0) (t.regs .a1) (t.regs .a2) >>=
        finishSyscall L (s.procs c).trapframe) (inSyscall t c s) := by
  rw [Prog.bind_apply, handleSyscall_eq h.scratch, ← Prog.bind_apply, Prog.bind_assoc]
  rfl

/-- A call of `yield` comes back with the head of the queue running. -/
theorem trap_yield (h : SchedInv s c Q) (hc : CanEnter L s c) (ht : t.scause = CAUSE_USER_ECALL)
    (ha0 : t.regs .a0 = SYS_user_yield) :
    ∃ s' q Q', trap L t s = returning L q s' ∧ Rotated t s s' c Q q Q' ∧
      HandedOver L q (inSyscall t c s) s' := by
  obtain ⟨s', q, Q', hrun, hrest⟩ :=
    sysUserYield_exit (L := L) (t := t) h (inSyscall_same t c s)
  refine ⟨s', q, Q', ?_, hrest⟩
  have hcall : doSyscall L (t.regs .a0) (t.regs .a1) (t.regs .a2) = sysUserYield L := by
    rw [ha0]
    rfl
  rw [trap_eq h.current hc, dispatchTrap, if_pos ht, handleSyscall_resume h, hcall]
  exact bind_of_returning hrun _

/-- A call of `wait` by a process with a child does too. -/
theorem trap_wait (h : SchedInv s c Q) (hc : CanEnter L s c) (ht : t.scause = CAUSE_USER_ECALL)
    (ha0 : t.regs .a0 = SYS_user_wait)
    (hflag : waitFlag s.procs c ((t.regs .a1).setWidth 32) (List.finRange 32) (-1) ≠ -1) :
    ∃ s' q Q', trap L t s = returning L q s' ∧ Rotated t s s' c Q q Q' ∧
      HandedOver L q (inSyscall t c s) s' := by
  obtain ⟨s', q, Q', hrun, hrest⟩ :=
    wait_exit (L := L) (t := t) h (inSyscall_same t c s) hflag
  refine ⟨s', q, Q', ?_, hrest⟩
  have hcall : doSyscall L (t.regs .a0) (t.regs .a1) (t.regs .a2) = sysUserWait L (t.regs .a1) := by
    rw [ha0]
    rfl
  rw [trap_eq h.current hc, dispatchTrap, if_pos ht, handleSyscall_resume h, hcall]
  exact bind_of_returning hrun _

/-- **Every trap is a step of the scheduler**, unless it stops the machine; and
    it stops in `schedule` only to shut down, when the last process exits. -/
theorem trap_sched (h : SchedInv s c Q) : TrapWp t s c Q (trap L t) s := by
  by_cases hc : CanEnter L s c
  · unfold TrapWp Prog.wp
    rw [trap_eq h.current hc]
    have hs := entered_same t c s
    change TrapWp t s c Q _ (entered t c s)
    unfold dispatchTrap
    split_ifs with hcall htimer hfault
    · unfold TrapWp Prog.wp
      rw [handleSyscall_resume h]
      exact doSyscall_trapWp h (inSyscall_same t c s) rfl hcall
    · rw [Prog.bind_assoc]
      exact trapWp_quiet hs handleMtimerTrap_quiet fun _ _ hs₂ => rrsched_trapWp h hs₂ htimer
    · rw [Prog.bind_assoc]
      refine trapWp_quiet hs (readCsr_quiet _) fun _ _ hs₂ => ?_
      rw [Prog.bind_assoc]
      refine trapWp_quiet hs₂ (readCsr_quiet _) fun _ _ hs₃ => ?_
      exact trapWp_quiet hs₃ (handleUserPageFault_quiet _ _ _) fun _ _ hs₄ =>
        trapWp_resume h hs₄ htimer
    · exact ⟨fun hh => absurd hh (by simp [SchedHalt]), fun hh => absurd hh (by simp [NoSlot])⟩
  · unfold TrapWp Prog.wp
    rw [trap_of_not_canEnter h.current hc]
    exact ⟨fun hh => absurd hh (by simp [SchedHalt]), fun hh => absurd hh (by simp [NoSlot])⟩

end Pke
