import Pke.Runs.Identities
import Mathlib.Data.List.Sort

/-!
# The answer of `wait`

The first loop of `wait` goes through the whole process table and sets `flag` for
every child it meets, so the last child of the table decides (`waitFlag_last`).

`schedule` does not come back to `wait`, so a caller with a child finds in `a0`
what it had there when it called: the number of the system call. Only a caller
without children gets an answer. In the runs of these results user code does not
reach `procs[]` (`Pke.Kernel.System`).
-/

namespace Pke

open Lib

variable {L : Layout} {h : Host} {t : TrapInput} {s s₁ s' : Kernel} {p : Pid}

/-! ## The scan for children -/

section Scan

variable {procs : Pid → Process} {pid : BitVec 32} {np : Pid}

/-- Process `np` is a child of `p`. -/
def IsChild (procs : Pid → Process) (p np : Pid) : Prop := (procs np).parent = some p

/-- Process `np` is a child of `p` with the given pid. -/
def ChildWithPid (procs : Pid → Process) (p : Pid) (pid : BitVec 32) (np : Pid) : Prop :=
  IsChild procs p np ∧ (procs np).pid = pid.signExtend 64

instance (procs : Pid → Process) (p np : Pid) : Decidable (IsChild procs p np) :=
  inferInstanceAs (Decidable (_ = _))

instance (procs : Pid → Process) (p : Pid) (pid : BitVec 32) (np : Pid) :
    Decidable (ChildWithPid procs p pid np) :=
  inferInstanceAs (Decidable (_ ∧ _))

/-- What `flag` is meant to say at the end of the first loop of `wait`. -/
structure FlagCorrect (procs : Pid → Process) (p : Pid) (pid : BitVec 32) (flag : ℤ) : Prop where
  asked : flag = 1 ↔ ∃ np, ChildWithPid procs p pid np
  other : flag = 0 ↔ (∃ np, IsChild procs p np) ∧ ¬ ∃ np, ChildWithPid procs p pid np
  childless : flag = -1 ↔ ¬ ∃ np, IsChild procs p np

/-- The scan of a part of the table leaves `flag` alone, or as its last child sets it. -/
theorem waitFlag_scan (procs : Pid → Process) (p : Pid) (pid : BitVec 32) :
    ∀ (nps : List Pid) (flag : ℤ), nps.Pairwise (· < ·) →
      ((∀ np ∈ nps, ¬ IsChild procs p np) ∧ waitFlag procs p pid nps flag = flag) ∨
      ∃ l, IsChild procs p l ∧ (∀ np ∈ nps, IsChild procs p np → np ≤ l) ∧ l ∈ nps ∧
        waitFlag procs p pid nps flag = if (procs l).pid = pid.signExtend 64 then 1 else 0 := by
  intro nps
  induction nps with
  | nil => exact fun _ _ => Or.inl ⟨fun _ h => absurd h List.not_mem_nil, rfl⟩
  | cons a nps ih =>
    intro flag hsort
    obtain ⟨ha, hsort⟩ := List.pairwise_cons.mp hsort
    -- the flag with which the scan goes on behind `a`
    obtain ⟨flag', hcons, hset⟩ : ∃ flag', waitFlag procs p pid (a :: nps) flag =
        waitFlag procs p pid nps flag' ∧ (¬ IsChild procs p a → flag' = flag) ∧
        (IsChild procs p a → flag' = if (procs a).pid = pid.signExtend 64 then 1 else 0) := by
      rw [waitFlag]
      by_cases hc : (procs a).parent = some p
      · by_cases hpid : (procs a).pid = pid.signExtend 64
        · exact ⟨1, if_pos ⟨hc, hpid⟩, fun h => absurd hc h, fun _ => (if_pos hpid).symm⟩
        · refine ⟨0, ?_, fun h => absurd hc h, fun _ => (if_neg hpid).symm⟩
          rw [if_neg (fun h => hpid h.2), if_pos hc]
      · refine ⟨flag, ?_, fun _ => rfl, fun h => absurd h hc⟩
        rw [if_neg (fun h => hc h.1), if_neg hc]
    rw [hcons]
    rcases ih flag' hsort with ⟨hno, hflag⟩ | ⟨l, hl, hlast, hmem, hflag⟩
    · by_cases hc : IsChild procs p a
      · refine Or.inr ⟨a, hc, fun np hnp hchild => ?_, List.mem_cons_self, ?_⟩
        · rcases List.mem_cons.mp hnp with rfl | hnp
          · exact le_rfl
          · exact absurd hchild (hno np hnp)
        · rw [hflag, hset.2 hc]
      · refine Or.inl ⟨fun np hnp => ?_, ?_⟩
        · rcases List.mem_cons.mp hnp with rfl | hnp
          · exact hc
          · exact hno np hnp
        · rw [hflag, hset.1 hc]
    · refine Or.inr ⟨l, hl, fun np hnp hchild => ?_, List.mem_cons_of_mem a hmem, hflag⟩
      rcases List.mem_cons.mp hnp with rfl | hnp
      · exact (ha l hmem).le
      · exact hlast np hnp hchild

/-- **The last child decides**: `flag` at the end of the first loop of `wait`. -/
theorem waitFlag_last (procs : Pid → Process) (p : Pid) (pid : BitVec 32) :
    ((∀ np, ¬ IsChild procs p np) ∧ waitFlag procs p pid (List.finRange 32) (-1) = -1) ∨
      ∃ l, IsChild procs p l ∧ (∀ np, IsChild procs p np → np ≤ l) ∧
        waitFlag procs p pid (List.finRange 32) (-1) =
          if (procs l).pid = pid.signExtend 64 then 1 else 0 := by
  rcases waitFlag_scan procs p pid _ (-1) (List.sortedLT_finRange 32).pairwise with
    ⟨hno, hflag⟩ | ⟨l, hl, hlast, -, hflag⟩
  · exact Or.inl ⟨fun np => hno np (List.mem_finRange np), hflag⟩
  · exact Or.inr ⟨l, hl, fun np => hlast np (List.mem_finRange np), hflag⟩

theorem waitFlag_eq_neg_one :
    waitFlag procs p pid (List.finRange 32) (-1) = -1 ↔ ∀ np, ¬ IsChild procs p np := by
  rcases waitFlag_last procs p pid with ⟨hno, hflag⟩ | ⟨l, hl, -, hflag⟩
  · exact iff_of_true hflag hno
  · refine iff_of_false ?_ fun hno => hno l hl
    rw [hflag]
    split_ifs <;> decide

theorem pid_inj (hpid : ∀ i, (procs i).pid = BitVec.ofNat 64 i) {i j : Pid}
    (h : (procs i).pid = (procs j).pid) : i = j := by
  rw [hpid, hpid, ← BitVec.toNat_inj, BitVec.toNat_ofNat, BitVec.toNat_ofNat] at h
  apply Fin.ext
  omega

/-- **What the scan finds out.** With the pids of the table, `flag` says what it is
    meant to say exactly if a child with the requested pid is the last child in
    the table. -/
theorem waitFlag_correct_iff (hpid : ∀ i, (procs i).pid = BitVec.ofNat 64 i) :
    FlagCorrect procs p pid (waitFlag procs p pid (List.finRange 32) (-1)) ↔
      ∀ np, ChildWithPid procs p pid np → ∀ np', IsChild procs p np' → np' ≤ np := by
  rcases waitFlag_last procs p pid with ⟨hno, hflag⟩ | ⟨l, hl, hlast, hflag⟩
  · rw [hflag]
    refine iff_of_true ⟨?_, ?_, ?_⟩ fun np hnp => absurd hnp.1 (hno np)
    · exact iff_of_false (by decide) fun ⟨np, hnp⟩ => hno np hnp.1
    · exact iff_of_false (by decide) fun ⟨⟨np, hnp⟩, _⟩ => hno np hnp
    · exact iff_of_true rfl fun ⟨np, hnp⟩ => hno np hnp
  · by_cases hask : (procs l).pid = pid.signExtend 64
    · rw [hflag, if_pos hask]
      have hex : ∃ np, ChildWithPid procs p pid np := ⟨l, hl, hask⟩
      refine iff_of_true ⟨?_, ?_, ?_⟩ fun np hnp np' hnp' => ?_
      · exact iff_of_true rfl hex
      · exact iff_of_false (by decide) fun h => h.2 hex
      · exact iff_of_false (by decide) fun h => h ⟨l, hl⟩
      · obtain rfl : np = l := pid_inj hpid (hnp.2.trans hask.symm)
        exact hlast np' hnp'
    · rw [hflag, if_neg hask]
      constructor
      · intro h np hnp
        exact absurd (h.asked.mpr ⟨np, hnp⟩) (by decide)
      · intro h
        -- a child with this pid would be the last one
        have hnone : ¬ ∃ np, ChildWithPid procs p pid np := by
          rintro ⟨np, hnp⟩
          obtain rfl : np = l := le_antisymm (hlast np hnp.1) (h np hnp l hl)
          exact hask hnp.2
        refine ⟨?_, ?_, ?_⟩
        · exact iff_of_false (by decide) hnone
        · exact iff_of_true rfl ⟨⟨l, hl⟩, hnone⟩
        · exact iff_of_false (by decide) fun h => h ⟨l, hl⟩

/-- A process table in which the processes 1 and 2 are children of `p`. -/
def twoChildren (p i : Pid) : Process where
  kstack := 0
  pagetable := 0
  trapframe := 0
  mappedInfo := 0
  totalMappedRegion := 0
  pid := BitVec.ofNat 64 i
  status := if i.val ≤ 2 then .READY else .FREE
  parent := if i.val = 1 ∨ i.val = 2 then some p else none
  queueNext := none
  tickCount := 0

/-- Asked for the later child, the scan finds it. -/
theorem waitFlag_correct_later :
    FlagCorrect (twoChildren 0) 0 2 (waitFlag (twoChildren 0) 0 2 (List.finRange 32) (-1)) :=
  (waitFlag_correct_iff fun _ => rfl).mpr (by decide)

/-- Asked for the earlier child, the scan does not find it. -/
theorem waitFlag_misses_earlier : (∀ i, (twoChildren 0 i).pid = BitVec.ofNat 64 i) ∧
    ¬ FlagCorrect (twoChildren 0) 0 1 (waitFlag (twoChildren 0) 0 1 (List.finRange 32) (-1)) := by
  refine ⟨fun _ => rfl, fun h => ?_⟩
  have hflag := h.asked.mpr ⟨1, rfl, rfl⟩
  exact absurd hflag (by decide)

end Scan

/-! ## The answer -/

/-- The next entry of process `p` to user mode, from a state on. -/
inductive NextEntry (L : Layout) (p : Pid) : Kernel → Kernel → Prop
  | here {s : Kernel} (h : s.current = some p) : NextEntry L p s s
  | later {s s₁ s' : Kernel} {a : Action} (h : s.current ≠ some p) (ha : Step L s a s₁)
      (hn : NextEntry L p s₁ s') : NextEntry L p s s'

/-- Process `np` is a child of `p` that `wait(pid)` asks for. -/
def Awaited (s : Kernel) (p : Pid) (pid : BitVec 32) (np : Pid) : Prop :=
  (s.procs np).parent = some p ∧ (pid = -1 ∨ (s.procs np).pid = pid.signExtend 64)

/-- The answer that `wait(pid)` owes process `p`, in the state in which it goes
    on: -1 if there is no such child, or the pid of one that has exited. -/
def WaitAnswer (s : Kernel) (p : Pid) (pid : BitVec 32) : Prop :=
  (s.regs .a0 = -1 ∧ ∀ np, ¬ Awaited s p pid np) ∨
    ∃ np, Awaited s p pid np ∧ (s.procs np).status = .ZOMBIE ∧ s.regs .a0 = (s.procs np).pid

/-- A trap is the call `wait(pid)`. -/
def IsWait (t : TrapInput) (pid : BitVec 32) : Prop :=
  t.scause = CAUSE_USER_ECALL ∧ t.regs .a0 = SYS_user_wait ∧ (t.regs .a1).setWidth 32 = pid

/-- The call of a process without children returns -1 at once. -/
theorem trap_wait_childless {c : Pid} {Q : List Pid} {pid : BitVec 32} (hs : SchedInv s c Q)
    (hc : CanEnter L s c) (ht : IsWait t pid) (hno : ∀ np, (s.procs np).parent ≠ some c) :
    trap L t s = returning L c (returned L c (-1) (inSyscall t c s)) ∧
      (returned L c (-1) (inSyscall t c s)).regs .a0 = -1 := by
  obtain ⟨hcause, ha0, ha1⟩ := ht
  have hcur : (inSyscall t c s).current = some c := hs.current
  have hwait : sysUserWait L (t.regs .a1) (inSyscall t c s) = .ret (-1) (inSyscall t c s) := by
    have hflag : waitFlag (inSyscall t c s).procs c ((t.regs .a1).setWidth 32)
        (List.finRange 32) (-1) = -1 := waitFlag_eq_neg_one.mpr hno
    rw [sysUserWait, wait, Prog.bind_of_ret (currentProc_eq hcur),
      Prog.bind_of_ret (Prog.gets_apply _ _), hflag]
    rfl
  have hcall : doSyscall L (t.regs .a0) (t.regs .a1) (t.regs .a2) = sysUserWait L (t.regs .a1) := by
    rw [ha0]
    rfl
  constructor
  · rw [trap_eq hs.current hc, dispatchTrap, if_pos hcause, handleSyscall_resume hs, hcall,
      Prog.bind_of_ret hwait]
    exact finishSyscall_eq _ _ hcur
  · rw [returned, afterSwitch_reg]
    exact (load64_store64 _ _ _ _).trans (if_pos rfl)

/-- **`wait` without children.** In every state reached, if the calling process
    has no child, then at its next entry to user mode it has the answer that
    `wait` owes it. -/
theorem wait_childless_answer {pid : BitVec 32} (hs : Reachable L h s)
    (hcur : s.current = some p) (ht : IsWait t pid) (hno : ∀ np, (s.procs np).parent ≠ some p)
    (hstep : Step L s (.trap t) s₁) (hnext : NextEntry L p s₁ s') : WaitAnswer s' p pid := by
  obtain ⟨c, Q, hinv⟩ := hs.sched
  obtain rfl : c = p := Option.some.inj (hinv.current.symm.trans hcur)
  cases hstep with
  | trap hstep =>
    have hc : CanEnter L s c := by
      by_contra hc
      rw [trap_of_not_canEnter hinv.current hc] at hstep
      cases hstep
    obtain ⟨hrun, ha0⟩ := trap_wait_childless hinv hc ht hno
    obtain ⟨rfl, -⟩ := returning_exit (hrun.symm.trans hstep)
    cases hnext with
    | here _ => exact Or.inl ⟨ha0, fun np hnp => hno np hnp.1⟩
    | later hne _ _ => exact absurd rfl hne

/-- The first process waits, without a child. -/
theorem wait_childless_sample : ∃ s s₁, Reachable sampleLayout (sampleHost 5 8) s ∧
    Step sampleLayout s (.trap (call SYS_user_wait (-1))) s₁ ∧ WaitAnswer s₁ 0 (-1) := by
  obtain ⟨s, hboot, hb⟩ := sampleBoot
  have hsched := hb.booted.sched
  have ht : IsWait (call SYS_user_wait (-1)) (-1) := ⟨rfl, rfl, rfl⟩
  have hno : ∀ np, (s.procs np).parent ≠ some 0 := fun np => by
    rw [hb.booted.parent np]
    exact nofun
  have hm := hb.memInv
  obtain ⟨hrun, -⟩ := trap_wait_childless hsched (hm.canEnter hb.mem_used) ht hno
  have hframe := hm.inSyscall_frameOnly hb.mem_used hsched.scratch (call SYS_user_wait (-1))
  have hret := hframe.trans (returned_frameOnly (L := sampleLayout)
    (s := inSyscall (call SYS_user_wait (-1)) 0 s) (hm.aligned hb.mem_used) (-1))
  obtain ⟨fl, hs, -⟩ := hb.space
  have hexit := hrun.trans (returning_eq (hret.canReturn hb.mem_used hs))
  exact ⟨s, _, .boot hboot, .trap hexit, wait_childless_answer (.boot hboot) hsched.current ht hno
    (.trap hexit) (.here rfl)⟩

/-! ## A caller with a child -/

/-- Behind a fork of the only process the child is the only one that waits to run. -/
theorem queue_of_pair {c child : Pid} {Q : List Pid} (hs : SchedInv s c Q) (hne : child ≠ c)
    (hlive : ∀ i, (s.procs i).Live ↔ i = c ∨ i = child) : Q = [child] := by
  have hmem : ∀ i ∈ Q, i = child := fun i hi =>
    ((hlive i).mp ((hs.live i).mp (List.mem_cons_of_mem c hi))).resolve_left
      fun heq => hs.notin (heq ▸ hi)
  have hchild : child ∈ Q :=
    (List.mem_cons.mp ((hs.live child).mpr ((hlive child).mpr (Or.inr rfl)))).resolve_left hne
  have hnodup := hs.queue.nodup
  match Q, hmem, hchild, hnodup with
  | [], _, hchild, _ => exact absurd hchild List.not_mem_nil
  | [a], hmem, _, _ => rw [hmem a List.mem_cons_self]
  | a :: b :: l, hmem, _, hnodup =>
    have hab : a = b := (hmem a List.mem_cons_self).trans
      (hmem b (List.mem_cons_of_mem a List.mem_cons_self)).symm
    exact absurd (hab ▸ List.mem_cons_self) (List.nodup_cons.mp hnodup).1

/-- The first process behind its fork. -/
structure ForkedPair (s : Kernel) (child : Pid) : Prop where
  mem : MemInv False sampleLayout s
  sched : SchedInv s 0 [child]
  parent : (s.procs child).parent = some 0

theorem forkedPair_of_fork {s' : Kernel} {child : Pid} (hm : MemInv False sampleLayout s)
    (hsched : SchedInv s 0 []) (hfirst : firstFree s.procs = some child)
    (hexit : trap sampleLayout (call SYS_user_fork 0) s = .exit s') : ForkedPair s' child := by
  obtain ⟨i, hfree, hcur, -, ⟨hstatus, hparent⟩, hrole⟩ := trap_fork hsched ⟨rfl, rfl⟩ hexit
  obtain rfl : i = child := Option.some.inj (hfree.symm.trans hfirst)
  have hi0 : i ≠ 0 := by
    rintro rfl
    exact ((hsched.live 0).mp List.mem_cons_self).1 (firstFree_status hfree)
  have hok : StepOk False s (.trap (call SYS_user_fork 0)) :=
    .of_not_free fun hf => absurd hf.2 (by decide)
  have hleft := (Step.trap hexit).left hm hsched hok
  obtain ⟨q, Q, hsched', -⟩ := hsched.step (.trap hexit)
  obtain rfl : q = 0 := Option.some.inj (hsched'.current.symm.trans hcur)
  have hQ : Q = [i] := queue_of_pair hsched' hi0 fun j => by
    by_cases hj : j = i
    · subst hj
      exact ⟨fun _ => Or.inr rfl, fun _ => ⟨by rw [hstatus]; decide, by rw [hstatus]; decide⟩⟩
    · unfold Process.Live
      rw [(hrole j hj).1]
      have hlive := hsched.live j
      rw [List.mem_singleton] at hlive
      exact hlive.symm.trans ⟨Or.inl, fun h => h.resolve_right hj⟩
  exact ⟨hleft.mem, hQ ▸ hsched', hparent⟩

theorem sampleHost_pair : ∃ s, Reachable sampleLayout (sampleHost 5 8) s ∧ ForkedPair s 1 := by
  obtain ⟨s, hboot, hb⟩ := sampleBoot
  obtain ⟨s', _, _, hexit, -, -⟩ := sampleFork hb
  exact ⟨s', .step (.boot hboot) trivial (.trap hexit),
    forkedPair_of_fork hb.memInv hb.booted.sched hb.firstFree_eq hexit⟩

/-- The parent waits, the child yields, and the parent goes on with the number of the
    call in `a0`, though its child has not exited. -/
theorem wait_answer_lost : ∃ s s₁ s', Reachable sampleLayout (sampleHost 5 8) s ∧
    s.current = some 0 ∧ Step sampleLayout s (.trap (call SYS_user_wait (-1))) s₁ ∧
      NextEntry sampleLayout 0 s₁ s' ∧ ¬ WaitAnswer s' 0 (-1) := by
  obtain ⟨s, hreach, hpair⟩ := sampleHost_pair
  have hsched := hpair.sched
  have hused : (0 : Pid) ∈ s.used := ((hsched.live 0).mp List.mem_cons_self).1
  have hflag : waitFlag s.procs 0 ((-1 : Word).setWidth 32) (List.finRange 32) (-1) ≠ -1 :=
    fun h => waitFlag_eq_neg_one.mp h 1 hpair.parent
  obtain ⟨s₁, q, Q', hexit, hrot⟩ :=
    trap_wait_mem (t := call SYS_user_wait (-1)) hpair.mem hsched ⟨rfl, rfl⟩ hflag
  obtain ⟨rfl, rfl⟩ : 1 = q ∧ [0] = Q' := List.cons.inj hrot.order
  have hok : TrapOk False s 0 (call SYS_user_wait (-1)) :=
    .of_not_free fun hf => absurd hf.2 (by decide)
  obtain ⟨hans, hleft⟩ := Prog.wp_exit (trap_mem hpair.mem hsched hok) hexit
  have hne : (1 : Pid) ≠ 0 := by decide
  have hsaved : Saved s₁ 0 4 SYS_user_wait := by
    rcases hans rfl with ⟨-, h⟩ | ⟨r, -, h⟩
    · exact h
    · exact absurd (Option.some.inj (hrot.inv.current.symm.trans h.current)) hne
  obtain ⟨s', q, Q', hexit', hrot'⟩ :=
    trap_yield_mem (t := call SYS_user_yield 0) hleft.mem hrot.inv ⟨rfl, rfl⟩
  obtain ⟨rfl, rfl⟩ : 0 = q ∧ [1] = Q' := List.cons.inj hrot'.order
  have hok' : TrapOk False s₁ 1 (call SYS_user_yield 0) :=
    .of_not_free fun hf => absurd hf.2 (by decide)
  have hleft' := (Prog.wp_exit (trap_mem hleft.mem hrot.inv hok') hexit').2
  have hsaved' := hsaved.kept hleft'.moved (hleft.moved.used hused) fun h0 => hne h0.symm
  have ha0 : s'.regs .a0 = SYS_user_wait := (hrot'.regs .a0).trans hsaved'.a0
  have hnext : NextEntry sampleLayout 0 s₁ s' := .later
    (fun h => hne (Option.some.inj (hrot.inv.current.symm.trans h))) (.trap hexit')
    (.here hrot'.inv.current)
  refine ⟨s, s₁, s', hreach, hsched.current, .trap hexit, hnext, ?_⟩
  rintro (⟨hminus, -⟩ | ⟨np, -, -, hpid⟩)
  · rw [ha0] at hminus
    exact absurd hminus (by decide)
  · rw [ha0, hrot'.inv.pids np] at hpid
    exact absurd hpid (by revert np; decide)

end Pke
