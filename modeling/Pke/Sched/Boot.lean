import Pke.Sched.Traps

/-!
# The scheduler over whole runs

`s_start` leaves process 0 running with an empty queue, a store of user code
does not touch the scheduler, and every trap is a step of it. So in every state
reached one process runs and the ready queue holds the other live processes
(`Reach.sched`).

The variables of the scheduler are fields of the state and no bytes of memory
here (`Pke.Kernel.System`), so user code cannot reach them.
-/

namespace Pke

open Lib Prog

variable {L : Layout} {h : Host} {t : TrapInput} {s s' : Kernel} {c q : Pid} {Q Q' : List Pid}

/-! ## Boot -/

theorem createFreepageListLoop_quiet (last : Word) :
    ∀ (fuel : ℕ) (p : Word), PhysQuiet (createFreepageListLoop fuel p last) := by
  intro fuel
  induction fuel with
  | zero => exact fun _ => Keeps.halt id
  | succ fuel ih =>
    exact fun p => Keeps.ite (fun _ => Keeps.bind (freePage_quiet _) fun _ => ih _) fun _ =>
      Keeps.pure _

theorem createFreepageList_quiet (start last : Word) :
    PhysQuiet (createFreepageList start last) := by
  exact Keeps.bind (Keeps.modify fun _ => trivial) fun _ => createFreepageListLoop_quiet last _ _

theorem pmmInit_quiet (kend : Word) : Quiet (pmmInit kend) := by
  refine Keeps.bind (sprint_text_quiet _ _) fun _ =>
    Keeps.bind (onPhys_quiet (Keeps.modify fun _ => trivial)) fun _ =>
    Keeps.bind (Keeps.modify fun _ => ⟨fun _ => rfl, rfl, rfl, rfl⟩) fun _ =>
    Keeps.bind (Keeps.gets _) fun _ => Keeps.ite (fun _ => Keeps.halt (by simp [QuietHalt]))
    fun _ => ?_
  exact Keeps.bind (onPhys_quiet (Keeps.modify fun _ => trivial)) fun _ =>
    Keeps.bind (sprint_text_quiet _ _) fun _ => Keeps.bind (sprint_text_quiet _ _) fun _ =>
    onPhys_quiet (createFreepageList_quiet _ _)

theorem kernVmMap_quiet (pt va pa size perm : Word) : PhysQuiet (kernVmMap pt va pa size perm) :=
  Keeps.bind (mapPagesLoop_quiet _ _ _ _ _ _) fun _ =>
    Keeps.ite (fun _ => Keeps.halt (by simp [QuietHalt])) fun _ => Keeps.pure _

theorem kernVmInit_quiet (L : Layout) : Quiet (kernVmInit L) := by
  refine Keeps.bind (onPhys_quiet allocPage_quiet) fun t =>
    Keeps.bind (onPhys_quiet (physMemset_quiet _ _ _)) fun _ =>
    Keeps.bind (onPhys_quiet (kernVmMap_quiet _ _ _ _ _)) fun _ =>
    Keeps.bind (onPhys_quiet (lookupPa_quiet _ _)) fun _ =>
    Keeps.bind (sprint_text_quiet _ _) fun _ =>
    Keeps.bind (onPhys_quiet (kernVmMap_quiet _ _ _ _ _)) fun _ =>
    Keeps.bind (onPhys_quiet (lookupPa_quiet _ _)) fun _ =>
    Keeps.bind (sprint_text_quiet _ _) fun _ => ?_
  exact Keeps.modify fun _ => ⟨fun _ => rfl, rfl, rfl, rfl⟩

theorem enablePaging_quiet : Quiet enablePaging :=
  Keeps.bind (Keeps.gets _) fun _ => writeCsr_quiet _ _

theorem elfAllocMb_quiet (pt va size : Word) : PhysQuiet (elfAllocMb pt va size) :=
  Keeps.ite (fun _ => Keeps.halt id) fun _ => Keeps.bind allocPage_quiet fun _ =>
    Keeps.ite (fun _ => Keeps.halt (by simp [QuietHalt])) fun _ =>
    Keeps.bind (physMemset_quiet _ _ _) fun _ =>
    Keeps.bind (userVmMap_quiet _ _ _ _ _) fun _ => Keeps.pure _

theorem elfFpread_quiet (f : HostFile) (dest n off : Word) : PhysQuiet (elfFpread f dest n off) :=
  Keeps.bind (Keeps.modify fun _ => trivial) fun _ => Keeps.pure _

theorem recordSegment_quiet (i : Pid) (ph : ElfProgHeader) : Quiet (recordSegment i ph) := by
  have hadd : Quiet (setProc i fun p => { p with totalMappedRegion := p.totalMappedRegion + 1 }) :=
    setProc_quiet i (by simp [Process.core])
  refine Keeps.bind (proc_quiet i) fun p => Keeps.bind (onPhys_quiet (Keeps.gets _)) fun j =>
    Keeps.ite (fun _ => ?_) fun _ => Keeps.ite (fun _ => ?_) fun _ => ?_
  · exact Keeps.bind (onPhys_quiet (storeRegion_quiet _ _ _ _)) fun _ =>
      Keeps.bind (sprint_text_quiet _ _) fun _ => hadd
  · exact Keeps.bind (onPhys_quiet (storeRegion_quiet _ _ _ _)) fun _ =>
      Keeps.bind (sprint_text_quiet _ _) fun _ => hadd
  · exact Keeps.bind (Keeps.halt (by simp [QuietHalt])) fun _ => hadd

theorem elfLoadLoop_quiet (f : HostFile) (i : Pid) :
    ∀ (n : ℕ) (off : BitVec 32), Quiet (elfLoadLoop f i n off) := by
  intro n
  induction n with
  | zero => exact fun _ => Keeps.pure _
  | succ n ih =>
    intro off
    refine Keeps.ite (fun _ => Keeps.pure _) fun _ => Keeps.ite (fun _ => ih _) fun _ =>
      Keeps.ite (fun _ => Keeps.pure _) fun _ => Keeps.ite (fun _ => Keeps.pure _) fun _ =>
      Keeps.bind (proc_quiet i) fun p => ?_
    exact Keeps.bind (onPhys_quiet (elfAllocMb_quiet _ _ _)) fun _ =>
      Keeps.bind (onPhys_quiet (elfFpread_quiet _ _ _ _)) fun _ =>
      Keeps.ite (fun _ => Keeps.pure _) fun _ => Keeps.bind (recordSegment_quiet _ _) fun _ => ih _

theorem loadBincodeFromHostElf_quiet (h : Host) (i : Pid) : Quiet (loadBincodeFromHostElf h i) := by
  refine Keeps.bind (Keeps.ite (fun _ => Keeps.halt id) fun _ => Keeps.pure _) fun argc =>
    Keeps.ite (fun _ => Keeps.halt (by simp [QuietHalt])) fun _ =>
    Keeps.bind (sprint_text_quiet _ _) fun _ => ?_
  cases h.file with
  | none => exact Keeps.halt (by simp [QuietHalt])
  | some f =>
    refine Keeps.ite (fun _ => Keeps.halt (by simp [QuietHalt])) fun _ =>
      Keeps.bind (elfLoadLoop_quiet _ _ _ _)
      fun _ => Keeps.ite (fun _ => Keeps.halt (by simp [QuietHalt])) fun _ =>
      Keeps.bind (proc_quiet i) fun p => ?_
    exact Keeps.bind (onPhys_quiet (store_quiet _ _)) fun _ =>
      Keeps.bind (onPhys_quiet (load_quiet _))
      fun _ => sprint_text_quiet _ _

/-- The process table when no process has been created and none is queued. -/
structure Idle (s : Kernel) : Prop where
  free : ∀ i, (s.procs i).status = .FREE
  parent : ∀ i, (s.procs i).parent = none
  pid : ∀ i, (s.procs i).pid = BitVec.ofNat 64 i
  tick : ∀ i, (s.procs i).tickCount = 0
  head : s.readyQueueHead = none
  out : dispatches s.console = []

theorem Idle.of_same (hi : Idle s) (hs : SchedSame s s') : Idle s' where
  free i := (hs.status i).trans (hi.free i)
  parent i := (hs.parent i).trans (hi.parent i)
  pid i := (hs.pid i).trans (hi.pid i)
  tick i := (hs.tickCount i).trans (hi.tick i)
  head := hs.head.trans hi.head
  out := hs.out.trans hi.out

theorem Idle.firstFree (hi : Idle s) : firstFree s.procs = some 0 := by
  unfold Pke.firstFree
  rw [List.finRange_succ, List.find?_cons_of_pos]
  simp [hi.free]

/-- The state in which user code runs first: process `c` is the only one. -/
structure Booted (s : Kernel) (c : Pid) : Prop where
  sched : SchedInv s c []
  free : ∀ i, i ≠ c → (s.procs i).status = .FREE
  parent : ∀ i, (s.procs i).parent = none

/-- Process `c` was made READY and queued, and taken off the queue again. -/
structure Queued (c : Pid) (s s' : Kernel) : Prop where
  rest : s' = { s with
    procs := s'.procs, readyQueueHead := s'.readyQueueHead, console := s'.console }
  procs : ∀ i, (s'.procs i).unlinked =
    { (s.procs i).unlinked with status := if i = c then .READY else (s.procs i).status }

/-- Queueing and dispatching the first process. -/
theorem Idle.dispatch (hi : Idle s) (c : Pid) :
    ∃ s', (do insertToReadyQueue c; schedule L : KernelM Unit) s =
        returning L c (afterSwitch L c s') ∧
      Booted (afterSwitch L c s') c ∧ Queued c s s' := by
  have hQ : QueueOk s [] := ⟨hi.head, fun _ h => nomatch h⟩
  obtain ⟨procs, head, console, hins, hQ', hprocs, -⟩ :=
    insertToReadyQueue_spec (i := c) hQ (fun h => nomatch h)
  have hstatus : ∀ i, (procs i).status = if i = c then .READY else .FREE := by
    intro i
    refine (congrArg Process.status (hprocs i) :).trans ?_
    rw [hi.free i]
  have hlive : ∀ i, i ∈ [c] ↔ (procs i).Live := by
    intro i
    unfold Process.Live
    rw [hstatus i]
    by_cases hic : i = c <;> simp [hic]
  have hpid : ∀ i, (procs i).pid = BitVec.ofNat 64 i := fun i =>
    (congrArg Process.pid (hprocs i) :).trans (hi.pid i)
  have htick : ∀ i, 0 ≤ (procs i).tickCount ∧ (procs i).tickCount ≤ TIME_SLICE_LEN := by
    intro i
    have hzero : (procs i).tickCount = 0 :=
      (congrArg Process.tickCount (hprocs i) :).trans (hi.tick i)
    rw [hzero]
    decide
  refine ⟨_, (Prog.bind_of_ret hins _).trans (schedule_cons L hQ'),
    ⟨SchedInv.of_dispatchTo hQ' hlive hpid htick, ?_, ?_⟩, rfl, hprocs⟩
  · intro i hic
    exact (hstatus i).trans (if_neg hic)
  · exact fun i => (congrArg Process.parent (hprocs i) :).trans (hi.parent i)

/-- `s_start` either stops or hands the hart to the process it has loaded. -/
theorem sStart_sched (L : Layout) (h : Host) (s : Kernel) :
    Prog.wp (sStart L h) (fun _ _ => False) (fun s' => Booted s' 0) (fun e => ¬ QuietHalt e)
      (coldStart h s) := by
  have hquiet : ∀ {α : Type} {p : KernelM α} {k : α → KernelM Unit} {s₁ : Kernel} (_ : Quiet p)
      (_ : SchedSame (coldStart h s) s₁)
      (_ : ∀ a s₂, SchedSame (coldStart h s) s₂ → Prog.wp (k a) (fun _ _ => False)
        (fun s' => Booted s' 0) (fun e => ¬ QuietHalt e) s₂),
      Prog.wp (p >>= k) (fun _ _ => False) (fun s' => Booted s' 0)
        (fun e => ¬ QuietHalt e) s₁ := by
    intro α p k s₁ hp hs hk
    refine Prog.wp_bind.mpr (Prog.wp_mono (hp.wp s₁) (fun a s₂ h₂ => ?_) (fun _ h => h.elim)
      fun _ h => h)
    exact hk a s₂ (IsTrans.trans _ _ _ hs h₂)
  refine hquiet (sprint_text_quiet _ _) (Std.Refl.refl _) fun _ _ h₁ => ?_
  refine hquiet (writeCsr_quiet _ _) h₁ fun _ _ h₂ => ?_
  refine hquiet (pmmInit_quiet _) h₂ fun _ _ h₃ => ?_
  refine hquiet (kernVmInit_quiet L) h₃ fun _ _ h₄ => ?_
  refine hquiet enablePaging_quiet h₄ fun _ _ h₅ => ?_
  refine hquiet (sprint_text_quiet _ _) h₅ fun _ s₆ h₆ => ?_
  rw [initProcPool, Prog.wp_bind, Prog.wp_modify]
  have hidle : Idle { s₆ with procs := fun i =>
      { kstack := 0, pagetable := 0, trapframe := 0, mappedInfo := 0, totalMappedRegion := 0,
        pid := BitVec.ofNat 64 i, status := .FREE, parent := none, queueNext := none,
        tickCount := 0 } } :=
    ⟨fun _ => rfl, fun _ => rfl, fun _ => rfl, fun _ => rfl, h₆.head, h₆.out⟩
  refine Prog.wp_bind.mpr (Prog.wp_mono ((sprint_text_quiet _ _).wp _) (fun _ s₇ h₇ => ?_)
    (fun _ h => h.elim) fun _ h => h)
  rw [loadUserProgram, Prog.bind_assoc]
  refine Prog.wp_bind.mpr (Prog.wp_mono (allocProcess_sched L s₇) (fun c s₈ h₈ => ?_)
    (fun _ h => h.elim) ?_)
  rotate_left
  · intro e he hq
    rcases quietHalt_iff.mp hq with hq | hq
    · exact he.1 hq
    · exact nomatch (hidle.of_same h₇).firstFree.symm.trans (he.2 hq)
  obtain rfl : c = 0 := Option.some.inj (h₈.2.symm.trans (hidle.of_same h₇).firstFree)
  rw [Prog.bind_assoc]
  refine Prog.wp_bind.mpr (Prog.wp_mono ((sprint_text_quiet _ _).wp _) (fun _ s₉ h₉ => ?_)
    (fun _ h => h.elim) fun _ h => h)
  rw [Prog.bind_assoc]
  refine Prog.wp_bind.mpr (Prog.wp_mono ((loadBincodeFromHostElf_quiet h 0).wp _)
    (fun _ s₁₀ h₁₀ => ?_) (fun _ h => h.elim) fun _ h => h)
  have hidle' := (((hidle.of_same h₇).of_same h₈.1.same).of_same h₉).of_same h₁₀
  obtain ⟨s', hrun, hboot, -⟩ := hidle'.dispatch (L := L) 0
  exact wp_of_returning (show ((pure 0 : KernelM Pid) >>= fun i => do
    insertToReadyQueue i
    schedule L) s₁₀ = returning L 0 (afterSwitch L 0 s') from hrun) hboot (by simp [QuietHalt])

/-! ## Steps and runs -/

/-- A store of user code changes memory only. -/
theorem userStore_eq {va : Word} {b : BitVec 8} (hs : userStore va b s = some s') :
    ∃ mem, s' = { s with phys := { s.phys with mem := mem } } := by
  unfold userStore at hs
  obtain ⟨i, -, hs⟩ := Option.bind_eq_some_iff.mp hs
  obtain ⟨pa, -, hs⟩ := Option.bind_eq_some_iff.mp hs
  exact ⟨_, (Option.some.inj hs).symm⟩

theorem SchedInv.store {mem : Mem} (hs : SchedInv s c Q) :
    SchedInv { s with phys := { s.phys with mem := mem } } c Q :=
  ⟨hs.current, hs.scratch, ⟨hs.queue.chain, hs.queue.ready⟩, hs.notin, hs.live, hs.ready, hs.pids,
    hs.ticks⟩

/-- The steps of the machine as the scheduler sees them: a store of user code
    is none of its business. -/
inductive SchedMove (s s' : Kernel) (c : Pid) (Q : List Pid) : Action → Pid → List Pid → Prop
  | trap (t : TrapInput) (q : Pid) (Q' : List Pid) (h : SchedStep t s s' c Q q Q') :
      SchedMove s s' c Q (.trap t) q Q'
  | store (va : Word) (b : BitVec 8) (h : s'.procs = s.procs) (hcur : s'.current = s.current) :
      SchedMove s s' c Q (.store va b) c Q

/-- **One step.** Every step of the machine is a step of the scheduler. -/
theorem SchedInv.step {a : Action} (hs : SchedInv s c Q) (ha : Step L s a s') :
    ∃ q Q', SchedInv s' q Q' ∧ SchedMove s s' c Q a q Q' := by
  cases ha with
  | trap ht =>
    obtain ⟨q, Q', hinv, hstep⟩ := Prog.wp_exit (trap_sched hs) ht
    exact ⟨q, Q', hinv, .trap _ q Q' hstep⟩
  | store hst =>
    obtain ⟨mem, rfl⟩ := userStore_eq hst
    exact ⟨c, Q, hs.store, .store _ _ rfl rfl⟩

/-- A step that leaves the processes alone and comes back to the same one keeps the queue. -/
theorem SchedInv.kept {a : Action} (hs : SchedInv s c Q) (ha : Step L s a s')
    (hprocs : s'.procs = s.procs) (hcur : s'.current = some c) : SchedInv s' c Q := by
  obtain ⟨q, Q', hinv, hmove⟩ := hs.step ha
  obtain rfl : q = c := Option.some.inj (hinv.current.symm.trans hcur)
  suffices hQ : Q' = Q by rwa [← hQ]
  cases hmove with
  | store => rfl
  | trap t q Q' hstep =>
    cases hstep with
    | stay => rfl
    | fork child _ hfree hchild =>
      have hstatus := firstFree_status hfree
      rw [← hprocs, hchild.1] at hstatus
      cases hstatus
    | rotate _ _ hq =>
      match Q, hs.notin, hq with
      | [], _, hq => exact (List.cons.inj hq).2.symm
      | i :: Q, hnotin, hq => exact absurd ((List.cons.inj hq).1 ▸ List.mem_cons_self) hnotin
    | exit _ _ hq => exact absurd (hq ▸ List.mem_cons_self) hs.notin

/-- **Every state reached.** -/
theorem Reach.sched {ok : Kernel → Action → Prop} (hs : Reach L h ok s) :
    ∃ c Q, SchedInv s c Q := by
  refine hs.invariant (P := fun s => ∃ c Q, SchedInv s c Q) ?_ ?_
  · intro s₀ s hboot
    exact ⟨0, [], (Prog.wp_exit (sStart_sched L h s₀) hboot).sched⟩
  · rintro s a s' - ⟨c, Q, hinv⟩ ha
    obtain ⟨q, Q', hinv', -⟩ := hinv.step ha
    exact ⟨q, Q', hinv'⟩

end Pke
