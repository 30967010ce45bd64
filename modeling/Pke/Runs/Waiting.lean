import Pke.Runs.Results
import Pke.Runs.Roster

/-!
# `wait` is `yield`

The loop of `wait` that looks for an exited child stands behind `schedule`, which
does not come back. So over whole runs a call of `wait` does one of two things
(`wait_requeues`), whatever pid it names and whatever its children do: without a
child it returns -1 at once; with one the caller goes to the end of the ready
queue like a caller of `yield`, and when its turn comes it finds in `a0` the
number of the call.
-/

namespace Pke

open Lib

variable {L : Layout} {h : Host} {s s₁ s' : Kernel} {c p : Pid} {Q : List Pid} {t : TrapInput}
  {pid : BitVec 32}

/-- A call of `wait` releases no page. -/
theorem IsWait.stepOk (ht : IsWait t pid) : StepOk False s (.trap t) := fun _ _ =>
  ⟨fun hf => absurd (ht.2.1.symm.trans hf.2) (by decide), fun hf => hf.elim, fun hf => hf.elim⟩

theorem waitFlag_childless_iff :
    waitFlag s.procs c pid (List.finRange 32) (-1) = -1 ↔ ¬ ∃ np, (s.procs np).parent = some c :=
  waitFlag_eq_neg_one.trans not_exists.symm

/-- The hart took the trap. -/
theorem canEnter_of_exit (hcur : s.current = some c) (hexit : trap L t s = .exit s₁) :
    CanEnter L s c := by
  by_contra hc
  rw [trap_of_not_canEnter hcur hc] at hexit
  cases hexit

theorem trap_wait_eq (hsched : SchedInv s c Q) (ht : IsWait t pid)
    (hexit : trap L t s = .exit s₁) :
    (wait L pid >>= finishSyscall L (s.procs c).trapframe) (inSyscall t c s) = .exit s₁ := by
  obtain ⟨hcause, ha0, rfl⟩ := ht
  have hcall : doSyscall L (t.regs .a0) (t.regs .a1) (t.regs .a2) = sysUserWait L (t.regs .a1) := by
    rw [ha0]
    rfl
  rw [← hexit, trap_eq hsched.current (canEnter_of_exit hsched.current hexit), dispatchTrap,
    if_pos hcause, handleSyscall_resume hsched, hcall]
  rfl

section Call

variable (hm : MemInv False L s) (hsched : SchedInv s c Q)

include hm hsched

/-- The kernel when it has saved the registers of the caller and read the number of
    the call. -/
theorem inSyscall_start (t : TrapInput) :
    InTrap False L ⟨∅, ∅⟩ 0 c (inSyscall t c s) (inSyscall t c s) := by
  have hc : c ∈ s.used := ((hsched.live c).mp List.mem_cons_self).1
  have hframe := hm.inSyscall_frameOnly hc hsched.scratch t
  exact .start (hframe.memInv hc hm) hsched.current (by rw [hframe.used]; exact hc)

variable (ht : IsWait t pid) (hexit : trap L t s = .exit s₁)

include ht hexit

/-- Without a child the call comes back to the caller, with -1 in its trapframe. -/
theorem wait_childless_saved (hno : ¬ ∃ np, (s.procs np).parent = some c) :
    s₁.current = some c ∧ Saved s₁ c (t.sepc + 4) (-1) := by
  have hstart := inSyscall_start hm hsched t
  have hrun := trap_wait_eq hsched ht hexit
  rw [Prog.bind_of_ret (wait_childless hstart.current (waitFlag_childless_iff.mpr hno))] at hrun
  obtain ⟨hans, -⟩ := Prog.wp_exit (hstart.finish (inSyscall_epc t c s) (-1)) hrun
  exact ⟨hans.current, hans.saved⟩

/-- With a child the caller goes to the end of the queue, with the number of the call
    in its trapframe. -/
theorem wait_parent_saved (hchild : ∃ np, (s.procs np).parent = some c) :
    (∃ q Q', Rotated t s s₁ c Q q Q') ∧ Saved s₁ c (t.sepc + 4) SYS_user_wait := by
  have hstart := inSyscall_start hm hsched t
  have hflag : waitFlag s.procs c pid (List.finRange 32) (-1) ≠ -1 := fun hf =>
    waitFlag_childless_iff.mp hf hchild
  obtain ⟨s₂, q, Q', hwait, hrot, -⟩ :=
    wait_exit (L := L) (t := t) hsched (inSyscall_same t c s) hflag
  have hrun := trap_wait_eq hsched ht hexit
  rw [bind_of_returning hwait] at hrun
  obtain ⟨rfl, hret⟩ := returning_exit hrun
  rw [returning_eq hret] at hwait
  obtain ⟨-, ha0, rfl⟩ := ht
  obtain ⟨-, hleft⟩ := Prog.wp_exit (sysUserWait_mem hstart (X := True) trivial (t.regs .a1)) hwait
  have ha0' := (inSyscall_reg (t := t) hsched.scratch (r := .a0) (by decide)).trans ha0
  exact ⟨⟨q, Q', hrot⟩, Saved.kept ⟨inSyscall_epc t c s, ha0'⟩ hleft.moved hstart.used
    (Set.notMem_empty c)⟩

end Call

/-- **`wait` does not wait.** In every state reached, for every caller and every pid:
    a caller without a child gets -1 at once. A caller with a child goes to the end
    of the ready queue, whose first process runs, and at its next entry to user mode
    its result is the number of the call, whether or not a child has exited. -/
theorem wait_requeues (hload : h.LoadsOk Set.univ) (hs : Reach L h (StepOk False) s)
    (hcur : s.current = some p) (hq : ReadyQueue s Q) (ht : IsWait t pid)
    (hexit : trap L t s = .exit s₁) :
    ((¬ ∃ np, (s.procs np).parent = some p) →
      s₁.current = some p ∧ Saved s₁ p (t.sepc + 4) (-1)) ∧
    ((∃ np, (s.procs np).parent = some p) →
      (∃ q Q', Q ++ [p] = q :: Q' ∧ s₁.current = some q ∧ ReadyQueue s₁ Q') ∧
        ∀ s', NextEntryVia L (StepOk False) p s₁ s' → Saved s' p (t.sepc + 4) SYS_user_wait) := by
  obtain ⟨hm, c, Q₀, hsched⟩ := hs.mem hload
  obtain rfl : c = p := Option.some.inj (hsched.current.symm.trans hcur)
  obtain rfl : Q₀ = Q := Chain.unique (Option.some_injective _) hsched.queue.chain hq
  refine ⟨wait_childless_saved hm hsched ht hexit, fun hchild => ?_⟩
  obtain ⟨⟨q, Q', hrot⟩, hsaved⟩ := wait_parent_saved hm hsched ht hexit hchild
  have hc : c ∈ s.used := ((hsched.live c).mp List.mem_cons_self).1
  have hleft := (Step.trap hexit).left hm hsched ht.stepOk
  refine ⟨⟨q, Q', hrot.order, hrot.inv.current, hrot.inv.queue.chain⟩, fun s' hnext => ?_⟩
  exact hnext.saved hleft.mem hrot.inv (hleft.moved.used hc) hsaved

/-- The first process forks and waits: its child runs. -/
theorem wait_requeues_sample : ∃ s s₁,
    Reach sampleLayout (sampleHost 5 8) (StepOk False) s ∧
      trap sampleLayout (call SYS_user_wait (-1)) s = .exit s₁ ∧
      ∃ q Q', [1] ++ [0] = q :: Q' ∧ s₁.current = some q ∧ ReadyQueue s₁ Q' := by
  obtain ⟨s₀, hboot, hb⟩ := sampleBoot
  obtain ⟨s, fl, fl', hfork, hstep, -⟩ := sampleFork hb
  have hpair := forkedPair_of_fork hb.memInv hb.booted.sched hb.firstFree_eq hfork
  have hok : StepOk False s₀ (.trap (call SYS_user_fork 0)) :=
    .of_not_free fun hf => absurd hf.2 (by decide)
  have hreach : Reach sampleLayout (sampleHost 5 8) (StepOk False) s :=
    .step (.boot hboot) hok (.trap hfork)
  have hflag : waitFlag s.procs 0 ((-1 : Word).setWidth 32) (List.finRange 32) (-1) ≠ -1 :=
    fun hf => waitFlag_eq_neg_one.mp hf 1 hpair.parent
  obtain ⟨s₁, q, Q', hexit, -⟩ := trap_wait_mem (t := call SYS_user_wait (-1)) hpair.mem
    hpair.sched ⟨rfl, rfl⟩ hflag
  exact ⟨s, s₁, hreach, hexit, ((wait_requeues sampleHost_loads hreach hpair.sched.current
    hpair.sched.queue.chain ⟨rfl, rfl, rfl⟩ hexit).2 ⟨1, hpair.parent⟩).1⟩

end Pke
