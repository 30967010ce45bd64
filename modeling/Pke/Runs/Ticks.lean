import Pke.Runs.Roster

/-!
# `g_ticks`

Nothing but `handle_mtimer_trap` writes `g_ticks` or prints a `Ticks` message:
all other code of the kernel is `Tickless`, on every way out of it. So `g_ticks`
counts the timer traps since boot, and the messages number them from 0 on.
-/

namespace Pke

open Lib

variable {L : Layout} {P : Placement L} {h : Host} {t : TrapInput} {s s' : Kernel}

/-! ## What counts as a tick -/

/-- The number in a message of `handle_mtimer_trap`. -/
def Msg.tick : Msg → Option Word
  | .text fmt args => if fmt = "Ticks %d\n" then args.head? else none
  | .schedule _ => none
  | .user _ => none

/-- The numbers of the `Ticks` messages. -/
def ticksIn (console : List Msg) : List Word := console.filterMap Msg.tick

/-- The two states have the same tick count and printed the same ticks. -/
structure TickSame (s s' : Kernel) : Prop where
  gTicks : s'.gTicks = s.gTicks
  printed : ticksIn s'.console = ticksIn s.console

instance : Std.Refl TickSame := ⟨fun _ => ⟨rfl, rfl⟩⟩

instance : IsTrans Kernel TickSame :=
  ⟨fun _ _ _ h h' => ⟨h'.gTicks.trans h.gTicks, h'.printed.trans h.printed⟩⟩

/-- Code that neither counts nor prints a tick. -/
abbrev Tickless {α : Type} (c : KernelM α) : Prop := Prog.Stays TickSame c

open Prog.Stays

/-! ## The kernel -/

theorem onPhys_tickless {α : Type} (c : PhysM α) : Tickless (onPhys c) :=
  zoom (fun _ _ => ⟨rfl, rfl⟩) c

theorem sprint_tickless {m : Msg} (hm : m.tick = none) : Tickless (sprint m) := by
  refine modify fun s => ⟨rfl, ?_⟩
  change ticksIn (s.console ++ [m]) = _
  rw [ticksIn, List.filterMap_append, List.filterMap_cons_none hm, List.filterMap_nil,
    List.append_nil]
  rfl

theorem sprint_text_tickless {fmt : String} (hf : fmt ≠ "Ticks %d\n") (args : List Word) :
    Tickless (sprint (.text fmt args)) := sprint_tickless (if_neg hf)

theorem setProc_tickless (i : Pid) (f : Process → Process) : Tickless (setProc i f) :=
  modify fun _ => ⟨rfl, rfl⟩

theorem writeCsr_tickless (c : Csr) (v : Word) : Tickless (writeCsr c v) :=
  modify fun _ => ⟨rfl, rfl⟩

theorem currentProc_tickless : Tickless currentProc := by
  refine bind (gets _) fun c => ?_
  cases c with
  | none => exact halt _
  | some i => exact pure _

theorem callReturnToUser_tickless {α : Type} (L : Layout) (i : Pid) (tf satp : Word) :
    Tickless (callReturnToUser L i tf satp : KernelM α) :=
  bind (gets _) fun _ => ite (bind (modify fun _ => ⟨rfl, rfl⟩) fun _ => leave) (halt _)

theorem switchTo_tickless {α : Type} (L : Layout) (i : Pid) :
    Tickless (switchTo L i : KernelM α) := by
  refine bind (modify fun _ => ⟨rfl, rfl⟩) fun _ => bind (writeCsr_tickless _ _) fun _ => ?_
  refine bind (gets _) fun p => bind (onPhys_tickless _) fun _ => bind (gets _) fun _ => ?_
  refine bind (onPhys_tickless _) fun _ => bind (onPhys_tickless _) fun _ => ?_
  refine bind (gets _) fun _ => bind (writeCsr_tickless _ _) fun _ => ?_
  refine bind (onPhys_tickless _) fun _ => bind (writeCsr_tickless _ _) fun _ => ?_
  exact callReturnToUser_tickless L i _ _

theorem insertToReadyQueue_tickless (i : Pid) : Tickless (insertToReadyQueue i) := by
  refine bind (gets _) fun p => bind (sprint_text_tickless (by decide) _) fun _ => ?_
  refine bind (gets _) fun head => ?_
  cases head with
  | none =>
    exact bind (setProc_tickless _ _) fun _ => bind (setProc_tickless _ _) fun _ =>
      modify fun _ => ⟨rfl, rfl⟩
  | some head =>
    refine bind (gets _) fun procs => ?_
    cases browseQueue procs i 32 head with
    | inQueue => exact pure _
    | endless => exact halt _
    | last p =>
      exact bind (setProc_tickless _ _) fun _ => bind (setProc_tickless _ _) fun _ =>
        setProc_tickless _ _

theorem checkShutdown_tickless : ∀ is : List Pid, Tickless (checkShutdown is) := by
  intro is
  induction is with
  | nil => exact pure _
  | cons i is ih =>
    refine bind (gets _) fun p => ite ?_ ih
    exact bind (sprint_text_tickless (by decide) _) fun _ => bind ih fun _ => pure _

theorem schedule_tickless {α : Type} (L : Layout) : Tickless (schedule L : KernelM α) := by
  refine bind (gets _) fun head => ?_
  cases head with
  | none =>
    refine bind (checkShutdown_tickless _) fun b => ite ?_ (halt _)
    exact bind (sprint_text_tickless (by decide) _) fun _ => halt _
  | some i =>
    refine bind (modify fun _ => ⟨rfl, rfl⟩) fun _ => bind (gets _) fun p => ite (halt _) ?_
    exact bind (modify fun _ => ⟨rfl, rfl⟩) fun _ => bind (sprint_tickless rfl) fun _ =>
      switchTo_tickless L i

/-! ### Processes -/

theorem takePages_tickless (i : Pid) : Tickless (takePages i) := by
  refine bind (onPhys_tickless _) fun tf => bind (setProc_tickless _ _) fun _ => ?_
  refine bind (onPhys_tickless _) fun _ => bind (onPhys_tickless _) fun pt => ?_
  refine bind (setProc_tickless _ _) fun _ => bind (onPhys_tickless _) fun _ => ?_
  refine bind (onPhys_tickless _) fun ks => bind (setProc_tickless _ _) fun _ => ?_
  refine bind (onPhys_tickless _) fun us => bind (onPhys_tickless _) fun _ => ?_
  refine bind (onPhys_tickless _) fun mi => bind (setProc_tickless _ _) fun _ => ?_
  exact bind (onPhys_tickless _) fun _ => pure _

theorem mapInitial_tickless (L : Layout) (i : Pid) (us : Word) :
    Tickless (mapInitial L i us) := by
  refine bind (gets _) fun p => bind (onPhys_tickless _) fun _ => ?_
  refine bind (onPhys_tickless _) fun _ => bind (onPhys_tickless _) fun _ => ?_
  refine bind (onPhys_tickless _) fun _ => bind (onPhys_tickless _) fun _ => ?_
  refine bind (onPhys_tickless _) fun _ => bind (onPhys_tickless _) fun _ => ?_
  exact bind (sprint_text_tickless (by decide) _) fun _ => setProc_tickless _ _

theorem allocProcess_tickless (L : Layout) : Tickless (allocProcess L) := by
  refine bind (gets _) fun procs => ?_
  cases firstFree procs with
  | none => exact halt _
  | some i =>
    refine bind (bind (takePages_tickless i) fun us => mapInitial_tickless L i us) fun _ => ?_
    exact pure _

theorem forkRegion_tickless (parent child : Pid) (i : ℕ) :
    Tickless (forkRegion parent child i) := by
  refine bind (gets _) fun p => bind (gets _) fun c => ?_
  refine bind (onPhys_tickless _) fun va => bind (onPhys_tickless _) fun w => ?_
  split
  · exact onPhys_tickless _
  · exact bind (onPhys_tickless _) fun _ => bind (onPhys_tickless _) fun _ =>
      bind (onPhys_tickless _) fun _ => onPhys_tickless _
  · exact bind (onPhys_tickless _) fun _ => onPhys_tickless _
  · refine bind (onPhys_tickless _) fun _ => bind (onPhys_tickless _) fun _ => ?_
    refine bind (onPhys_tickless _) fun _ => bind (sprint_text_tickless (by decide) _) fun _ => ?_
    exact bind (onPhys_tickless _) fun _ => setProc_tickless _ _
  · exact pure _
  · exact pure _

theorem forkRegions_tickless (parent child : Pid) :
    ∀ is : List ℕ, Tickless (forkRegions parent child is) := by
  intro is
  induction is with
  | nil => exact pure _
  | cons i is ih => exact bind (forkRegion_tickless _ _ _) fun _ => ih

theorem doFork_tickless (L : Layout) (parent : Pid) : Tickless (doFork L parent) := by
  refine bind (gets _) fun p => bind (sprint_text_tickless (by decide) _) fun _ => ?_
  refine bind (allocProcess_tickless L) fun child => bind (gets _) fun p => ?_
  refine bind (forkRegions_tickless _ _ _) fun _ => bind (setProc_tickless _ _) fun _ => ?_
  refine bind (gets _) fun c => bind (onPhys_tickless _) fun _ => ?_
  refine bind (setProc_tickless _ _) fun _ => bind (insertToReadyQueue_tickless _) fun _ => ?_
  exact bind (gets _) fun c => pure _

theorem waitLoop_tickless (procs : Pid → Process) (c : Pid) (pid : BitVec 32) (flag : ℤ) :
    Tickless (waitLoop procs c pid flag) := by
  refine ite ?_ (ite ?_ (pure _))
  · split
    · exact pure _
    · exact halt _
  · split
    · exact pure _
    · exact halt _

theorem wait_tickless (L : Layout) (pid : BitVec 32) : Tickless (wait L pid) := by
  refine bind currentProc_tickless fun i => bind (gets _) fun procs => ite (pure _) ?_
  refine bind (setProc_tickless _ _) fun _ => bind (insertToReadyQueue_tickless _) fun _ => ?_
  refine bind (schedule_tickless L) fun _ => bind currentProc_tickless fun i => ?_
  exact bind (gets _) fun procs => waitLoop_tickless _ _ _ _

/-! ### Traps -/

theorem sysUserPrint_tickless (buf n : Word) : Tickless (sysUserPrint buf n) := by
  refine bind (gets _) fun c => ?_
  cases c with
  | none => exact halt _
  | some i =>
    refine bind (gets _) fun p => bind (onPhys_tickless _) fun pa => ?_
    refine bind (bind (gets _) fun m => ite (halt _) ?_) fun _ => pure _
    cases cstring m (PHYS_TOP.toNat - pa.toNat) pa with
    | none => exact halt _
    | some bs => exact sprint_tickless rfl

theorem doSyscall_tickless (L : Layout) (a0 a1 a2 : Word) : Tickless (doSyscall L a0 a1 a2) := by
  refine ite (sysUserPrint_tickless a1 a2) (ite ?exit (ite ?allocate (ite ?free (ite ?fork
    (ite ?yield (ite (wait_tickless L _) (halt _)))))))
  case exit =>
    refine bind (sprint_text_tickless (by decide) _) fun _ => bind currentProc_tickless fun i => ?_
    exact bind (setProc_tickless _ _) fun _ => bind (schedule_tickless L) fun _ => pure _
  case allocate =>
    refine bind (onPhys_tickless _) fun pa => bind (gets _) fun va => ?_
    refine bind (modify fun _ => ⟨rfl, rfl⟩) fun _ => bind currentProc_tickless fun i => ?_
    exact bind (gets _) fun p => bind (onPhys_tickless _) fun _ => pure _
  case free =>
    refine bind currentProc_tickless fun i => bind (gets _) fun p => ?_
    exact bind (onPhys_tickless _) fun _ => pure _
  case fork =>
    refine bind (sprint_text_tickless (by decide) _) fun _ => bind currentProc_tickless fun i => ?_
    exact doFork_tickless L i
  case yield =>
    refine bind currentProc_tickless fun i => bind (setProc_tickless _ _) fun _ => ?_
    exact bind (insertToReadyQueue_tickless i) fun _ => bind (schedule_tickless L) fun _ => pure _

theorem rrsched_tickless (L : Layout) : Tickless (rrsched L) := by
  refine bind currentProc_tickless fun i => bind (setProc_tickless _ _) fun _ => ?_
  refine bind (gets _) fun p => ite ?_ (pure _)
  refine bind (setProc_tickless _ _) fun _ => bind (setProc_tickless _ _) fun _ => ?_
  exact bind (insertToReadyQueue_tickless i) fun _ => schedule_tickless L

/-- The `switch` of `smode_trap_handler` without the timer interrupt. -/
theorem dispatchTrap_tickless (L : Layout) (tf : Word) {cause : Word}
    (hc : cause ≠ CAUSE_MTIMER_S_TRAP) : Tickless (dispatchTrap L tf cause) := by
  rw [dispatchTrap, if_neg hc]
  refine ite ?syscall (ite ?fault ?unexpected)
  case syscall =>
    refine bind (onPhys_tickless _) fun epc => bind (onPhys_tickless _) fun _ => ?_
    refine bind (onPhys_tickless _) fun a0 => bind (onPhys_tickless _) fun a1 => ?_
    refine bind (onPhys_tickless _) fun a2 => bind (doSyscall_tickless L _ _ _) fun r => ?_
    exact onPhys_tickless _
  case fault =>
    refine bind (gets _) fun sepc => bind (gets _) fun stval => ?_
    refine bind (sprint_text_tickless (by decide) _) fun _ => ite ?_ ?_
    · refine bind currentProc_tickless fun i => bind (gets _) fun p => ?_
      exact bind (onPhys_tickless _) fun pa => bind (onPhys_tickless _) fun _ => pure _
    · exact sprint_text_tickless (by decide) _
  case unexpected =>
    refine bind (gets _) fun sepc => bind (gets _) fun stval => ?_
    refine bind (sprint_text_tickless (by decide) _) fun _ => ?_
    exact bind (sprint_text_tickless (by decide) _) fun _ => halt _

theorem resume_tickless (L : Layout) : Tickless (resume L) :=
  bind currentProc_tickless fun i => switchTo_tickless L i

/-! ### Boot -/

theorem elfLoadLoop_tickless (f : HostFile) (i : Pid) :
    ∀ (n : ℕ) (off : BitVec 32), Tickless (elfLoadLoop f i n off) := by
  intro n
  induction n with
  | zero => exact fun off => pure _
  | succ n ih =>
    intro off
    refine ite (pure _) (ite (ih _) (ite (pure _) (ite (pure _) ?_)))
    refine bind (gets _) fun p => bind (onPhys_tickless _) fun dest => ?_
    refine bind (onPhys_tickless _) fun got => ite (pure _) (bind ?_ fun _ => ih _)
    refine bind (gets _) fun p => bind (onPhys_tickless _) fun j => ?_
    refine ite ?_ (ite ?_ ?_)
    · exact bind (onPhys_tickless _) fun _ => bind (sprint_text_tickless (by decide) _) fun _ =>
        setProc_tickless _ _
    · exact bind (onPhys_tickless _) fun _ => bind (sprint_text_tickless (by decide) _) fun _ =>
        setProc_tickless _ _
    · exact bind (halt _) fun _ => setProc_tickless _ _

theorem loadUserProgram_tickless (L : Layout) (h : Host) : Tickless (loadUserProgram L h) := by
  refine bind (allocProcess_tickless L) fun i =>
    bind (sprint_text_tickless (by decide) _) fun _ => bind ?_ fun _ => pure _
  refine bind (ite (halt _) (pure _)) fun argc => ite (halt _) ?_
  refine bind (sprint_text_tickless (by decide) _) fun _ => ?_
  cases h.file with
  | none => exact halt _
  | some f =>
    refine ite (halt _) (bind (elfLoadLoop_tickless f i _ _) fun r => ite (halt _) ?_)
    refine bind (gets _) fun p => bind (onPhys_tickless _) fun _ => ?_
    exact bind (onPhys_tickless _) fun epc => sprint_text_tickless (by decide) _

theorem pmmInit_tickless (kend : Word) : Tickless (pmmInit kend) := by
  refine bind (sprint_text_tickless (by decide) _) fun _ => bind (onPhys_tickless _) fun _ => ?_
  refine bind (modify fun _ => ⟨rfl, rfl⟩) fun _ => bind (gets _) fun size => ite (halt _) ?_
  refine bind (onPhys_tickless _) fun _ => bind (sprint_text_tickless (by decide) _) fun _ => ?_
  exact bind (sprint_text_tickless (by decide) _) fun _ => onPhys_tickless _

theorem kernVmInit_tickless (L : Layout) : Tickless (kernVmInit L) := by
  refine bind (onPhys_tickless _) fun t => bind (onPhys_tickless _) fun _ => ?_
  refine bind (onPhys_tickless _) fun _ => bind (onPhys_tickless _) fun pa => ?_
  refine bind (sprint_text_tickless (by decide) _) fun _ => bind (onPhys_tickless _) fun _ => ?_
  refine bind (onPhys_tickless _) fun pa => bind (sprint_text_tickless (by decide) _) fun _ => ?_
  exact modify fun _ => ⟨rfl, rfl⟩

theorem sStart_tickless (L : Layout) (h : Host) : Tickless (sStart L h) := by
  refine bind (sprint_text_tickless (by decide) _) fun _ => bind (writeCsr_tickless _ _) fun _ => ?_
  refine bind (pmmInit_tickless _) fun _ => bind (kernVmInit_tickless L) fun _ => ?_
  refine bind (bind (gets _) fun t => writeCsr_tickless _ _) fun _ => ?_
  refine bind (sprint_text_tickless (by decide) _) fun _ => bind (modify fun _ => ⟨rfl, rfl⟩)
    fun _ => ?_
  refine bind (sprint_text_tickless (by decide) _) fun _ => ?_
  exact bind (loadUserProgram_tickless L h) fun i => bind (insertToReadyQueue_tickless i) fun _ =>
    schedule_tickless L

theorem sStart_gTicks {s₀ : Kernel} (hboot : sStart L h (coldStart h s₀) = .exit s) :
    s.gTicks = 0 := (Prog.wp_exit ((sStart_tickless L h).wp _) hboot).gTicks

/-! ## Runs -/

/-- The numbers of the `Ticks` messages of a step. -/
def Action.ticks : Action → Kernel → List Word
  | .trap _, s => ticksIn s.console
  | .store _ _, _ => []

/-- The numbers of the `Ticks` messages of a run, in order. -/
def ticksPrinted (tr : List (Action × Kernel)) : List Word := tr.flatMap fun x => x.1.ticks x.2

/-- The kernel behind the statements of `handle_mtimer_trap`. -/
def afterTick (s : Kernel) : Kernel :=
  { s with
    console := s.console ++ [.text "Ticks %d\n" [s.gTicks]]
    gTicks := s.gTicks + 1
    csr := Function.update s.csr .sip 0 }

theorem handleMtimerTrap_eq (s : Kernel) : handleMtimerTrap s = .ret () (afterTick s) := rfl

theorem afterTick_printed (s : Kernel) :
    ticksIn (afterTick s).console = ticksIn s.console ++ [s.gTicks] := List.filterMap_append

/-- The timer interrupt counts one tick and prints the count before. -/
theorem dispatchTrap_timer (L : Layout) (tf : Word) (s : Kernel) :
    Prog.wp (dispatchTrap L tf CAUSE_MTIMER_S_TRAP >>= fun _ => resume L) (fun _ _ => True)
      (fun s' => s'.gTicks = s.gTicks + 1 ∧ ticksIn s'.console = ticksIn s.console ++ [s.gTicks])
      (fun _ => True) s := by
  have hrest : Tickless (rrsched L >>= fun _ => resume L) :=
    bind (rrsched_tickless L) fun _ => resume_tickless L
  rw [dispatchTrap, if_neg (by decide), if_pos rfl, Prog.bind_assoc, Prog.wp_bind,
    Prog.wp_of_ret (handleMtimerTrap_eq s)]
  refine Prog.wp_mono (hrest.wp (afterTick s)) (fun _ _ _ => trivial) (fun s' hs => ?_)
    fun _ _ => trivial
  exact ⟨hs.gTicks, hs.printed.trans (afterTick_printed s)⟩

/-- A trap counts and prints a tick exactly if it is the timer's. -/
theorem trap_ticks (ht : trap L t s = .exit s') :
    s'.gTicks = s.gTicks + BitVec.ofNat 64 (Action.trap t).timer ∧
      ticksIn s'.console = (List.range (Action.trap t).timer).map fun k =>
        s.gTicks + BitVec.ofNat 64 k := by
  cases hcur : s.current with
  | none =>
    rw [trap, Prog.bind_of_ret (Prog.gets_apply _ _), hcur] at ht
    cases ht
  | some c =>
    by_cases hc : CanEnter L s c
    · rw [trap_eq hcur hc] at ht
      by_cases htimer : t.scause = CAUSE_MTIMER_S_TRAP
      · rw [htimer] at ht
        obtain ⟨hticks, hprinted⟩ := Prog.wp_exit (dispatchTrap_timer L _ (entered t c s)) ht
        rw [Action.timer, if_pos htimer]
        refine ⟨hticks, hprinted.trans ?_⟩
        change [s.gTicks] = [s.gTicks + 0#64]
        rw [BitVec.add_zero]
      · have hcode := dispatchTrap_tickless L (s.procs c).trapframe htimer
        have hsame := Prog.wp_exit
          ((bind hcode fun _ => resume_tickless L).wp (entered t c s)) ht
        rw [Action.timer, if_neg htimer]
        exact ⟨hsame.gTicks.trans (BitVec.add_zero _).symm, hsame.printed⟩
    · rw [trap_of_not_canEnter hcur hc] at ht
      cases ht

theorem Step.ticks {a : Action} (ha : Step L s a s') :
    s'.gTicks = s.gTicks + BitVec.ofNat 64 a.timer ∧
      a.ticks s' = (List.range a.timer).map fun k => s.gTicks + BitVec.ofNat 64 k := by
  cases ha with
  | trap ht => exact trap_ticks ht
  | store hst =>
    obtain ⟨i, -, hst⟩ := Option.bind_eq_some_iff.mp hst
    obtain ⟨pa, -, hst⟩ := Option.bind_eq_some_iff.mp hst
    cases hst
    exact ⟨(BitVec.add_zero _).symm, rfl⟩

theorem ImageOnly.ticks (ho : ImageOnly L s s') (a : Action) :
    s'.gTicks = s.gTicks ∧ a.ticks s' = a.ticks s := by
  rw [ho.rest]
  exact ⟨rfl, by cases a <;> rfl⟩

/-- A whole run. -/
theorem ImageRun.ticks {tr : List (Action × Kernel)} (hr : ImageRun L s tr s') :
    s'.gTicks = s.gTicks + BitVec.ofNat 64 (timers tr) ∧
      ticksPrinted tr = (List.range (timers tr)).map fun k => s.gTicks + BitVec.ofNat 64 k := by
  induction hr with
  | nil s => exact ⟨(BitVec.add_zero _).symm, rfl⟩
  | @cons s s₁ s₂ s' a tr ha ho hr ih =>
    obtain ⟨hticks, hprinted⟩ := ha.ticks
    rw [← (ho.ticks a).1] at hticks
    rw [← (ho.ticks a).2] at hprinted
    obtain ⟨ihticks, ihprinted⟩ := ih
    rw [timers_cons, List.range_add, List.map_append, List.map_map]
    refine ⟨?_, ?_⟩
    · rw [ihticks, hticks, BitVec.add_assoc, BitVec.ofNat_add]
    · change a.ticks s₂ ++ ticksPrinted tr = _
      rw [hprinted, ihprinted, hticks]
      congr 1
      refine List.map_congr_left fun k _ => ?_
      change _ = s.gTicks + BitVec.ofNat 64 (a.timer + k)
      rw [BitVec.add_assoc, BitVec.ofNat_add]

/-- A tick inside a time slice comes back to user mode. -/
theorem trap_inSlice {iso : Prop} {c : Pid} {Q : List Pid} (hm : MemInv iso L s)
    (hsched : SchedInv s c Q) (ht : t.scause = CAUSE_MTIMER_S_TRAP)
    (hslice : (s.procs c).tickCount < TIME_SLICE_LEN) : ∃ s', trap L t s = .exit s' := by
  have hc : c ∈ s.used := ((hsched.live c).mp List.mem_cons_self).1
  have hframe := hm.entered_frameOnly hc hsched.scratch t
  have hsame : SchedSame { s with console := [] } (afterTick (entered t c s)) :=
    ⟨fun _ => rfl, rfl, rfl, rfl⟩
  have hcode := (rrsched_eq (L := L) hsched hsame).trans
    (if_neg (not_lt.mpr (Int.add_one_le_of_lt hslice)))
  have hdispatch : dispatchTrap L (s.procs c).trapframe CAUSE_MTIMER_S_TRAP =
      handleMtimerTrap >>= fun _ => rrsched L := rfl
  rw [trap_eq hsched.current (hm.canEnter hc), ht, hdispatch, Prog.bind_assoc,
    Prog.bind_of_ret (handleMtimerTrap_eq _), Prog.bind_of_ret hcode,
    resume_eq (by exact hsched.current)]
  have hafter : MemSame (entered t c s) (afterTick (entered t c s)) :=
    ⟨rfl, rfl, rfl, fun _ => rfl, fun _ => rfl, fun _ => Iff.rfl⟩
  have htick := MemSame.update (afterTick (entered t c s)) c (p := { s.procs c with
    tickCount := (s.procs c).tickCount + 1 }) rfl rfl Iff.rfl
  have hm₁ := ((hframe.memInv hc hm).same hafter).same htick
  have hused := htick.used.trans (hafter.used.trans hframe.used)
  have hc₁ := hc
  rw [← hused] at hc₁
  exact ⟨_, returning_eq ((hm₁.afterSwitch hc₁).canReturn hc₁)⟩

/-- A timer interrupt. -/
def tickTrap : TrapInput := { call 0 0 with scause := CAUSE_MTIMER_S_TRAP }

theorem Follows.tickRun {v : Roster} (hf : Follows s v) (hm : MemInv False L s) (P : Placement L)
    (hslice : ((v.rr.used v.rr.running).val : ℤ) < TIME_SLICE_LEN) :
    ∃ s', StaticRun P (StepOk False) s [(.trap tickTrap, s')] s' := by
  rw [← hf.ticks] at hslice
  obtain ⟨s₁, hexit⟩ := trap_inSlice (t := tickTrap) hm hf.inv rfl hslice
  have hok : StepOk False s (.trap tickTrap) :=
    .of_not_free fun hfree => absurd hfree.1 (by decide)
  obtain ⟨s', hstep, -⟩ := Step.static P hm hf.inv hok (.trap hexit)
  exact ⟨s', .cons hok hstep (.nil s')⟩

theorem sampleTick : ∃ s s', samplePlacement.Boots (sampleHost 5 8) s ∧
    StaticRun samplePlacement (StepOk False) s [(.trap tickTrap, s')] s' := by
  obtain ⟨s, hboot, hb⟩ := sampleStatic
  obtain ⟨s', hrun⟩ := (hboot.static False sampleHost_loads).follows.tickRun hb.memInv
    samplePlacement (by decide)
  exact ⟨s, s', hboot, hrun⟩

theorem BootedStatic.gTicks {iso : Prop} (hb : BootedStatic iso L h s) : s.gTicks = 0 := by
  obtain ⟨s₀, s₁, hboot, ho⟩ := hb.boot
  have hkept : s.gTicks = s₁.gTicks := by rw [ho.rest]
  exact hkept.trans (sStart_gTicks hboot)

/-- **`g_ticks` counts the timer traps.** When the segments of the application lie at
    addresses of pages, in every run from boot in which processes free only pages of their
    own, `g_ticks` is the number of timer traps so far, and the `Ticks` messages number
    them from 0 on: none is printed twice, left out or printed by anything else. -/
theorem kernel_ticks {tr : List (Action × Kernel)} (hload : h.LoadsOk Set.univ)
    (hboot : P.Boots h s) (hr : StaticRun P (StepOk False) s tr s') :
    s'.gTicks = BitVec.ofNat 64 (timers tr) ∧
      ticksPrinted tr = (List.range (timers tr)).map (BitVec.ofNat 64) := by
  have hb := hboot.static False hload
  obtain ⟨hticks, hprinted⟩ := (hr.imageRun hb.inOrder).1.ticks
  rw [hb.gTicks] at hticks hprinted
  refine ⟨hticks.trans (BitVec.zero_add _), hprinted.trans ?_⟩
  exact List.map_congr_left fun k _ => BitVec.zero_add _

/-- One tick after boot. -/
theorem kernel_ticks_sample : ∃ s s', samplePlacement.Boots (sampleHost 5 8) s ∧
    StaticRun samplePlacement (StepOk False) s [(.trap tickTrap, s')] s' ∧ s'.gTicks = 1 ∧
    ticksPrinted [(Action.trap tickTrap, s')] = [0] := by
  obtain ⟨s, s', hboot, hrun⟩ := sampleTick
  exact ⟨s, s', hboot, hrun, kernel_ticks sampleHost_loads hboot hrun⟩

end Pke
