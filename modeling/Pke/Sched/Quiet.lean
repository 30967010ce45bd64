import Pke.Kernel.System

/-!
# Kernel code that does not schedule

Most of the kernel leaves the scheduler's data alone: the statuses, links,
parents, pids and tick counts in the process table, `current` and
`ready_queue_head`. `SchedSame` says so of two states, and `Quiet` of code that
in addition never stops for one of the reasons `schedule` and the search for a
free slot have for stopping.
-/

namespace Pke

open Lib

/-! ## Scheduling data -/

/-- A process without its memory: the fields the scheduler and `wait` use. -/
def Process.core (p : Process) : Process :=
  { p with kstack := 0, pagetable := 0, trapframe := 0, mappedInfo := 0, totalMappedRegion := 0 }

/-- The processes dispatched by `schedule`, read off the output. -/
def dispatches (l : List Msg) : List Word :=
  l.filterMap fun
    | .schedule pid => some pid
    | _ => none

@[simp] theorem dispatches_append (l l' : List Msg) :
    dispatches (l ++ l') = dispatches l ++ dispatches l' := List.filterMap_append

/-- The two states agree on the scheduling data, and nothing was dispatched. -/
structure SchedSame (s s' : Kernel) : Prop where
  core : ∀ i, (s'.procs i).core = (s.procs i).core
  current : s'.current = s.current
  head : s'.readyQueueHead = s.readyQueueHead
  out : dispatches s'.console = dispatches s.console

instance : Std.Refl SchedSame := ⟨fun _ => ⟨fun _ => rfl, rfl, rfl, rfl⟩⟩

instance : IsTrans Kernel SchedSame :=
  ⟨fun _ _ _ h h' => ⟨fun i => (h'.core i).trans (h.core i), h'.current.trans h.current,
    h'.head.trans h.head, h'.out.trans h.out⟩⟩

theorem SchedSame.status {s s' : Kernel} (h : SchedSame s s') (i : Pid) :
    (s'.procs i).status = (s.procs i).status := (congrArg Process.status (h.core i) :)

theorem SchedSame.queueNext {s s' : Kernel} (h : SchedSame s s') (i : Pid) :
    (s'.procs i).queueNext = (s.procs i).queueNext := (congrArg Process.queueNext (h.core i) :)

theorem SchedSame.parent {s s' : Kernel} (h : SchedSame s s') (i : Pid) :
    (s'.procs i).parent = (s.procs i).parent := (congrArg Process.parent (h.core i) :)

theorem SchedSame.pid {s s' : Kernel} (h : SchedSame s s') (i : Pid) :
    (s'.procs i).pid = (s.procs i).pid := (congrArg Process.pid (h.core i) :)

theorem SchedSame.tickCount {s s' : Kernel} (h : SchedSame s s') (i : Pid) :
    (s'.procs i).tickCount = (s.procs i).tickCount := (congrArg Process.tickCount (h.core i) :)

/-- The reasons `schedule` has for stopping the machine. -/
def SchedHalt : Halt → Prop
  | .assertion c => c = "current->status == READY"
  | .panic fmt _ =>
    fmt = "Not handled: we should let system wait for unfinished processes.\n"
  | .shutdown _ => True
  | _ => False

/-- The panic of `alloc_process` when no slot is FREE. -/
def NoSlot : Halt → Prop
  | .panic fmt _ => fmt = "cannot find any free process structure.\n"
  | _ => False

/-- The reasons for stopping that `schedule` and the search for a slot have. -/
def QuietHalt : Halt → Prop
  | .assertion c => c = "current->status == READY"
  | .panic fmt _ =>
    fmt = "Not handled: we should let system wait for unfinished processes.\n" ∨
      fmt = "cannot find any free process structure.\n"
  | .shutdown _ => True
  | _ => False

theorem quietHalt_iff {e : Halt} : QuietHalt e ↔ SchedHalt e ∨ NoSlot e := by
  cases e <;> simp [QuietHalt, SchedHalt, NoSlot]

theorem SchedHalt.quietHalt {e : Halt} (h : SchedHalt e) : QuietHalt e := quietHalt_iff.mpr (.inl h)

theorem NoSlot.quietHalt {e : Halt} (h : NoSlot e) : QuietHalt e := quietHalt_iff.mpr (.inr h)

/-- Code on physical memory that never stops for such a reason. -/
abbrev PhysQuiet {α : Type} (c : PhysM α) : Prop := Prog.Keeps (fun _ _ => True) QuietHalt c

/-- Kernel code that keeps the scheduling data and never stops for such a reason. -/
abbrev Quiet {α : Type} (c : KernelM α) : Prop := Prog.Keeps SchedSame QuietHalt c

instance : Std.Refl fun _ _ : Phys => True := ⟨fun _ => trivial⟩

instance : IsTrans Phys fun _ _ => True := ⟨fun _ _ _ _ _ => trivial⟩

/-! ## Physical memory -/

open Prog.Keeps

theorem allocPage_quiet : PhysQuiet allocPage :=
  bind (gets _) fun _ => ite (fun _ => bind (modify fun _ => trivial) fun _ => pure _)
    fun _ => pure _

theorem freePage_quiet (pa : Word) : PhysQuiet (freePage pa) :=
  bind (gets _) fun _ => ite (fun _ => halt (by simp [QuietHalt]))
    fun _ => bind (modify fun _ => trivial) fun _ => modify fun _ => trivial

theorem load_quiet (p : Word) : PhysQuiet (load p) := gets _

theorem store_quiet (p v : Word) : PhysQuiet (store p v) := modify fun _ => trivial

theorem physMemset_quiet (dest byte : Word) (len : ℕ) : PhysQuiet (physMemset dest byte len) :=
  ite (fun _ => halt id) fun _ => modify fun _ => trivial

theorem physMemcpy_quiet (dest src : Word) (len : ℕ) : PhysQuiet (physMemcpy dest src len) :=
  ite (fun _ => halt id) fun _ => modify fun _ => trivial

theorem pageWalkLoop_quiet (va : Word) (alloc : Bool) :
    ∀ (level : ℕ) (pt : Word), PhysQuiet (pageWalkLoop va alloc level pt) := by
  intro level
  induction level with
  | zero => exact fun pt => pure _
  | succ level ih =>
    intro pt
    refine bind (load_quiet _) fun w => ite (fun _ => ih _) fun _ => ite (fun _ => ?_) fun _ =>
      pure _
    refine bind allocPage_quiet fun q => ite (fun _ => ?_) fun _ => pure _
    exact bind (physMemset_quiet _ _ _) fun _ => bind (store_quiet _ _) fun _ => ih _

theorem pageWalk_quiet (pt va : Word) (alloc : Bool) : PhysQuiet (pageWalk pt va alloc) :=
  ite (fun _ => halt (by simp [QuietHalt])) fun _ => pageWalkLoop_quiet va alloc 2 pt

theorem mapPagesLoop_quiet (pt last perm : Word) :
    ∀ (fuel : ℕ) (first pa : Word), PhysQuiet (mapPagesLoop pt last perm fuel first pa) := by
  intro fuel
  induction fuel with
  | zero => exact fun _ _ => halt id
  | succ fuel ih =>
    intro first pa
    refine ite (fun _ => bind (pageWalk_quiet _ _ _) fun pte => ite (fun _ => pure _) fun _ => ?_)
      fun _ => pure _
    refine bind (load_quiet _) fun w => ite (fun _ => halt (by simp [QuietHalt])) fun _ => ?_
    exact bind (store_quiet _ _) fun _ => ih _ _

theorem userVmMap_quiet (pt va size pa perm : Word) : PhysQuiet (userVmMap pt va size pa perm) :=
  bind (mapPagesLoop_quiet _ _ _ _ _ _) fun _ =>
    ite (fun _ => halt (by simp [QuietHalt])) fun _ => pure _

theorem lookupPa_quiet (pt va : Word) : PhysQuiet (lookupPa pt va) :=
  ite (fun _ => pure _) fun _ => bind (pageWalk_quiet _ _ _) fun _ => ite (fun _ => pure _)
    fun _ => bind (load_quiet _) fun _ => ite (fun _ => pure _) fun _ => pure _

theorem userVaToPa_quiet (pt va : Word) : PhysQuiet (userVaToPa pt va) :=
  bind (pageWalk_quiet _ _ _) fun _ => ite (fun _ => pure _)
    fun _ => bind (load_quiet _) fun _ => pure _

theorem userVmUnmap_quiet (pt va size : Word) (free : Bool) :
    PhysQuiet (userVmUnmap pt va size free) :=
  bind (pageWalk_quiet _ _ _) fun _ => ite (fun _ => halt id) fun _ =>
    bind (load_quiet _) fun _ => bind (freePage_quiet _) fun _ => bind (load_quiet _) fun _ =>
      store_quiet _ _

theorem storeRegion_quiet (a va : Word) (npages : BitVec 32) (seg : SegType) :
    PhysQuiet (storeRegion a va npages seg) := bind (store_quiet _ _) fun _ => store_quiet _ _

theorem forkData_quiet (pt ct va : Word) : ∀ js : List ℕ, PhysQuiet (forkData pt ct va js) := by
  intro js
  induction js with
  | nil => exact pure _
  | cons j js ih =>
    exact bind allocPage_quiet fun _ => bind (lookupPa_quiet _ _) fun _ =>
      bind (physMemcpy_quiet _ _ _) fun _ => bind (userVmMap_quiet _ _ _ _ _) fun _ => ih

/-! ## Kernel code -/

theorem onPhys_quiet {α : Type} {c : PhysM α} (h : PhysQuiet c) : Quiet (onPhys c) := by
  constructor
  intro s
  rw [onPhys, Prog.wp_zoom]
  exact Prog.wp_mono (h.wp s.phys) (fun _ _ _ => ⟨fun _ => rfl, rfl, rfl, rfl⟩) (fun _ h => h)
    fun _ h => h

theorem sprint_text_quiet (fmt : String) (args : List Word) : Quiet (sprint (.text fmt args)) :=
  modify fun s => ⟨fun _ => rfl, rfl, rfl, by simp [dispatches]⟩

theorem sprint_user_quiet (bs : List (BitVec 8)) : Quiet (sprint (.user bs)) :=
  modify fun s => ⟨fun _ => rfl, rfl, rfl, by simp [dispatches]⟩

theorem proc_quiet (i : Pid) : Quiet (proc i) := gets _

theorem readCsr_quiet (c : Csr) : Quiet (readCsr c) := gets _

theorem writeCsr_quiet (c : Csr) (v : Word) : Quiet (writeCsr c v) :=
  modify fun _ => ⟨fun _ => rfl, rfl, rfl, rfl⟩

theorem currentProc_quiet : Quiet currentProc := by
  refine bind (gets _) fun c => ?_
  cases c with
  | none => exact halt id
  | some i => exact pure _

/-! ## Setting up one slot -/

/-- The scheduling data are the same, and so are all slots but `i`. -/
structure SlotSame (i : Pid) (s s' : Kernel) : Prop where
  same : SchedSame s s'
  others : ∀ j, j ≠ i → s'.procs j = s.procs j

instance (i : Pid) : Std.Refl (SlotSame i) := ⟨fun _ => ⟨Std.Refl.refl _, fun _ _ => rfl⟩⟩

instance (i : Pid) : IsTrans Kernel (SlotSame i) :=
  ⟨fun _ _ _ h h' => ⟨IsTrans.trans _ _ _ h.same h'.same,
    fun j hj => (h'.others j hj).trans (h.others j hj)⟩⟩

/-- Quiet code that only works on slot `i`. -/
abbrev SlotOnly {α : Type} (i : Pid) (c : KernelM α) : Prop := Prog.Keeps (SlotSame i) QuietHalt c

theorem onPhys_slot {α : Type} {c : PhysM α} {i : Pid} (h : PhysQuiet c) :
    SlotOnly i (onPhys c) := by
  constructor
  intro s
  rw [onPhys, Prog.wp_zoom]
  exact Prog.wp_mono (h.wp s.phys) (fun _ _ _ => ⟨⟨fun _ => rfl, rfl, rfl, rfl⟩, fun _ _ => rfl⟩)
    (fun _ h => h) fun _ h => h

theorem sprint_slot {i : Pid} (fmt : String) (args : List Word) :
    SlotOnly i (sprint (.text fmt args)) :=
  modify fun s => ⟨⟨fun _ => rfl, rfl, rfl, by simp [dispatches]⟩, fun _ _ => rfl⟩

/-- Assignments to the memory fields of the slot. -/
theorem setProc_slot (i : Pid) {f : Process → Process} (h : ∀ p, (f p).core = p.core) :
    SlotOnly i (setProc i f) := by
  refine modify fun s => ⟨⟨fun j => ?_, rfl, rfl, rfl⟩, fun j hj => Function.update_of_ne hj _ _⟩
  by_cases hj : j = i
  · subst hj
    simp [h]
  · simp [hj]

theorem setProc_quiet (i : Pid) {f : Process → Process} (h : ∀ p, (f p).core = p.core) :
    Quiet (setProc i f) := (setProc_slot i h).mono fun _ _ h => h.same

theorem takePages_slot (i : Pid) : SlotOnly i (takePages i) := by
  refine bind (onPhys_slot allocPage_quiet) fun tf => ?_
  refine bind (setProc_slot i (by simp [Process.core])) fun _ => ?_
  refine bind (onPhys_slot (physMemset_quiet _ _ _)) fun _ => ?_
  refine bind (onPhys_slot allocPage_quiet) fun pt => ?_
  refine bind (setProc_slot i (by simp [Process.core])) fun _ => ?_
  refine bind (onPhys_slot (physMemset_quiet _ _ _)) fun _ => ?_
  refine bind (onPhys_slot allocPage_quiet) fun ks => ?_
  refine bind (setProc_slot i (by simp [Process.core])) fun _ => ?_
  refine bind (onPhys_slot allocPage_quiet) fun us => ?_
  refine bind (onPhys_slot (store_quiet _ _)) fun _ => ?_
  refine bind (onPhys_slot allocPage_quiet) fun mi => ?_
  refine bind (setProc_slot i (by simp [Process.core])) fun _ => ?_
  exact bind (onPhys_slot (physMemset_quiet _ _ _)) fun _ => pure _

theorem mapInitial_slot (L : Layout) (i : Pid) (us : Word) : SlotOnly i (mapInitial L i us) := by
  refine bind (gets _) fun p => ?_
  refine bind (onPhys_slot (userVmMap_quiet _ _ _ _ _)) fun _ => ?_
  refine bind (onPhys_slot (storeRegion_quiet _ _ _ _)) fun _ => ?_
  refine bind (onPhys_slot (userVmMap_quiet _ _ _ _ _)) fun _ => ?_
  refine bind (onPhys_slot (storeRegion_quiet _ _ _ _)) fun _ => ?_
  refine bind (onPhys_slot (userVmMap_quiet _ _ _ _ _)) fun _ => ?_
  refine bind (onPhys_slot (storeRegion_quiet _ _ _ _)) fun _ => ?_
  refine bind (onPhys_slot (load_quiet _)) fun _ => ?_
  refine bind (sprint_slot _ _) fun _ => ?_
  exact setProc_slot i (by simp [Process.core])

theorem initVmSpace_slot (L : Layout) (i : Pid) : SlotOnly i (initVmSpace L i) :=
  bind (takePages_slot i) fun us => mapInitial_slot L i us

theorem firstFree_status {procs : Pid → Process} {i : Pid} (h : firstFree procs = some i) :
    (procs i).status = .FREE := by
  have := List.find?_some h
  simpa using this

/-- `alloc_process` takes the first slot that is FREE, and panics for want of one
    only if there is none. -/
theorem allocProcess_sched (L : Layout) (s : Kernel) :
    Prog.wp (allocProcess L) (fun i s' => SlotSame i s s' ∧ firstFree s.procs = some i)
      (fun _ => False) (fun e => ¬ SchedHalt e ∧ (NoSlot e → firstFree s.procs = none)) s := by
  rw [allocProcess, Prog.wp_bind, Prog.wp_gets]
  cases hf : firstFree s.procs with
  | none => simp [SchedHalt]
  | some i =>
    refine Prog.wp_bind.mpr (Prog.wp_mono ((initVmSpace_slot L i).wp s) ?_ (fun _ h => h) ?_)
    · exact fun _ s' h => ⟨h, rfl⟩
    · exact fun e he => ⟨fun h => he h.quietHalt, fun h => absurd h.quietHalt he⟩

theorem forkRegion_slot (parent child : Pid) (i : ℕ) :
    SlotOnly child (forkRegion parent child i) := by
  refine bind (gets _) fun p => bind (gets _) fun c => ?_
  refine bind (onPhys_slot (load_quiet _)) fun va => bind (onPhys_slot (load_quiet _)) fun w => ?_
  split
  · exact onPhys_slot (physMemcpy_quiet _ _ _)
  · refine bind (onPhys_slot (load_quiet _)) fun _ => bind (onPhys_slot (lookupPa_quiet _ _))
      fun _ => bind (onPhys_slot (lookupPa_quiet _ _)) fun _ => ?_
    exact onPhys_slot (physMemcpy_quiet _ _ _)
  · exact bind (onPhys_slot (store_quiet _ _)) fun _ => onPhys_slot (forkData_quiet _ _ _ _)
  · refine bind (onPhys_slot (lookupPa_quiet _ _)) fun _ =>
      bind (onPhys_slot (userVmMap_quiet _ _ _ _ _)) fun _ =>
      bind (onPhys_slot (lookupPa_quiet _ _)) fun _ => bind (sprint_slot _ _) fun _ =>
      bind (onPhys_slot (storeRegion_quiet _ _ _ _)) fun _ => ?_
    exact setProc_slot child (by simp [Process.core])
  · exact pure _
  · exact pure _

theorem forkRegions_slot (parent child : Pid) :
    ∀ is : List ℕ, SlotOnly child (forkRegions parent child is) := by
  intro is
  induction is with
  | nil => exact pure _
  | cons i is ih => exact bind (forkRegion_slot _ _ _) fun _ => ih

/-! ## The rest of the kernel -/

theorem sprintUser_quiet (pa : Word) : Quiet (sprintUser pa) := by
  refine bind (gets _) fun m => ite (fun _ => halt id) fun _ => ?_
  cases cstring m (PHYS_TOP.toNat - pa.toNat) pa with
  | none => exact halt id
  | some bs => exact sprint_user_quiet bs

theorem sysUserPrint_quiet (buf n : Word) : Quiet (sysUserPrint buf n) := by
  refine bind (gets _) fun c => ?_
  cases c with
  | none => exact halt (by simp [QuietHalt])
  | some i =>
    exact bind (proc_quiet _) fun _ => bind (onPhys_quiet (userVaToPa_quiet _ _)) fun _ =>
      bind (sprintUser_quiet _) fun _ => pure _

theorem sysUserAllocatePage_quiet : Quiet sysUserAllocatePage :=
  bind (onPhys_quiet allocPage_quiet) fun _ => bind (gets _) fun _ =>
    bind (modify fun _ => ⟨fun _ => rfl, rfl, rfl, rfl⟩) fun _ => bind currentProc_quiet fun _ =>
    bind (proc_quiet _) fun _ => bind (onPhys_quiet (userVmMap_quiet _ _ _ _ _)) fun _ => pure _

theorem sysUserFreePage_quiet (va : Word) : Quiet (sysUserFreePage va) :=
  bind currentProc_quiet fun _ => bind (proc_quiet _) fun _ =>
    bind (onPhys_quiet (userVmUnmap_quiet _ _ _ _)) fun _ => pure _

theorem handleMtimerTrap_quiet : Quiet handleMtimerTrap :=
  bind (gets _) fun _ => bind (sprint_text_quiet _ _) fun _ =>
    bind (modify fun _ => ⟨fun _ => rfl, rfl, rfl, rfl⟩) fun _ => writeCsr_quiet _ _

theorem handleUserPageFault_quiet (mcause sepc stval : Word) :
    Quiet (handleUserPageFault mcause sepc stval) :=
  bind (sprint_text_quiet _ _) fun _ => ite
    (fun _ => bind currentProc_quiet fun _ => bind (proc_quiet _) fun _ =>
      bind (onPhys_quiet allocPage_quiet) fun _ =>
      bind (onPhys_quiet (mapPagesLoop_quiet _ _ _ _ _ _)) fun _ => pure _)
    fun _ => sprint_text_quiet _ _

end Pke
