import Pke.Space.ForkLoop
import Pke.Sched.Enter

/-!
# The memory invariant of the running system

`MemInv` says that the memory of the processes in use is in order. The scheduler
works on other fields of the process table (`MemSame`), and entering and leaving
the kernel writes the trapframe of one process only.
-/

namespace Pke

open Lib

variable {iso : Prop} {L : Layout} {s s' s'' : Kernel} {c : Pid}

/-! ## The invariant -/

/-- The processes that have memory. -/
def Kernel.used (s : Kernel) : Set Pid := {i | (s.procs i).status ≠ .FREE}

/-- The memory of the processes is in order. -/
structure MemInv (iso : Prop) (L : Layout) (s : Kernel) : Prop where
  space : ∃ fl, Space iso L (s.view s.used s.used) s.phys fl
  heap : s.gUfreePage % PGSIZE = 0

/-- The two states agree on everything `MemInv` talks about. -/
structure MemSame (s s' : Kernel) : Prop where
  phys : s'.phys = s.phys
  kroot : s'.gKernelPagetable = s.gKernelPagetable
  heap : s'.gUfreePage = s.gUfreePage
  space : ∀ i, (s'.procs i).space = (s.procs i).space
  total : ∀ i, (s'.procs i).totalMappedRegion = (s.procs i).totalMappedRegion
  status : ∀ i, (s'.procs i).status = .FREE ↔ (s.procs i).status = .FREE

theorem MemSame.refl (s : Kernel) : MemSame s s :=
  ⟨rfl, rfl, rfl, fun _ => rfl, fun _ => rfl, fun _ => Iff.rfl⟩

theorem MemSame.trans (h : MemSame s s') (h' : MemSame s' s'') : MemSame s s'' :=
  ⟨h'.phys.trans h.phys, h'.kroot.trans h.kroot, h'.heap.trans h.heap,
    fun i => (h'.space i).trans (h.space i), fun i => (h'.total i).trans (h.total i),
    fun i => (h'.status i).trans (h.status i)⟩

theorem MemSame.used (h : MemSame s s') : s'.used = s.used :=
  Set.ext fun i => not_congr (h.status i)

theorem MemSame.view (h : MemSame s s') (P : Set Pid) : s'.view P P = s.view P P := by
  unfold Kernel.view
  rw [h.kroot, funext h.space, funext h.total]

theorem MemInv.same (hm : MemInv iso L s) (h : MemSame s s') : MemInv iso L s' := by
  obtain ⟨⟨fl, hs⟩, hheap⟩ := hm
  refine ⟨⟨fl, ?_⟩, by rw [h.heap]; exact hheap⟩
  rw [h.used, h.view, h.phys]
  exact hs

/-! ## Writing a trapframe -/

/-- Only the trapframe of process `c` was written, and nothing else that `MemInv`
    talks about. -/
structure FrameOnly (c : Pid) (s s' : Kernel) : Prop where
  mem : ∀ q, q ≠ (s.procs c).space.own .trapframe → s'.phys.mem q = s.phys.mem q
  phys : s'.phys = { s.phys with mem := s'.phys.mem }
  kroot : s'.gKernelPagetable = s.gKernelPagetable
  heap : s'.gUfreePage = s.gUfreePage
  procs : s'.procs = s.procs

theorem FrameOnly.trans (h : FrameOnly c s s') (h' : FrameOnly c s' s'') : FrameOnly c s s'' where
  mem q hq := (h'.mem q (by rwa [h.procs])).trans (h.mem q hq)
  phys := by
    have h1 := h'.phys
    rw [h.phys] at h1
    exact h1
  kroot := h'.kroot.trans h.kroot
  heap := h'.heap.trans h.heap
  procs := h'.procs.trans h.procs

theorem FrameOnly.used (h : FrameOnly c s s') : s'.used = s.used := by
  unfold Kernel.used
  rw [h.procs]

theorem FrameOnly.view (h : FrameOnly c s s') (P : Set Pid) : s'.view P P = s.view P P := by
  unfold Kernel.view
  rw [h.kroot, h.procs]

theorem FrameOnly.space {fl : List Ppn} (h : FrameOnly c s s') (hc : c ∈ s.used)
    (hs : Space iso L (s.view s.used s.used) s.phys fl) :
    Space iso L (s'.view s'.used s'.used) s'.phys fl := by
  obtain ⟨hfl, htab, -⟩ := hs.own_apart c hc .trapframe
  rw [h.used, h.view, h.phys]
  exact hs.write h.mem hfl htab fun i hi => hs.own_ne hc hi (by decide)

theorem FrameOnly.memInv (h : FrameOnly c s s') (hc : c ∈ s.used) (hm : MemInv iso L s) :
    MemInv iso L s' := by
  obtain ⟨⟨fl, hs⟩, hheap⟩ := hm
  exact ⟨⟨fl, h.space hc hs⟩, by rw [h.heap]; exact hheap⟩

/-- The address is in the trapframe of the process. -/
theorem trapframe_ppn (ha : (s.procs c).space.Aligned) {o : Word} (ho : o.toNat < 4096) :
    ppn ((s.procs c).trapframe + o) = (s.procs c).space.own .trapframe := by
  have hal : addr ((s.procs c).space.own .trapframe) = (s.procs c).trapframe := ha.trapframe
  rw [← hal]
  exact ppn_addr_add _ ho

theorem MemInv.aligned (hm : MemInv iso L s) (hc : c ∈ s.used) : (s.procs c).space.Aligned := by
  obtain ⟨⟨fl, hs⟩, -⟩ := hm
  exact hs.aligned c hc

/-- A word of the trapframe. -/
theorem Space.load_trapframe {P : Set Pid} {fl : List Ppn}
    (h : Space iso L (s.view P P) s.phys fl) (hc : c ∈ P) (m : Mem) {k : ℕ} (hk : k < 512) :
    load64 m ((s.procs c).trapframe + BitVec.ofNat 64 (8 * k)) =
      m ((s.procs c).space.own .trapframe) (BitVec.ofNat 9 k) := by
  have hal : addr ((s.procs c).space.own .trapframe) = (s.procs c).trapframe :=
    (h.aligned c hc).trapframe
  rw [← hal, load64_word m _ hk]

theorem store_frameOnly (ha : (s.procs c).space.Aligned) {o : Word} (ho : o.toNat < 4096)
    (v : Word) : FrameOnly c s { s with phys := { s.phys with
      mem := store64 s.phys.mem ((s.procs c).trapframe + o) v } } :=
  ⟨fun _ hq => store64_of_ne (by rwa [trapframe_ppn ha ho]), rfl, rfl, rfl, rfl⟩

theorem store_slot_frameOnly (ha : (s.procs c).space.Aligned) (r : Reg) (v : Word) :
    FrameOnly c s { s with phys := { s.phys with
      mem := store64 s.phys.mem (frameSlot (s.procs c).trapframe r) v } } := by
  refine store_frameOnly ha ?_ v
  have := r.index_lt
  unfold Reg.offset
  rw [BitVec.toNat_ofNat]
  omega

/-! ## Entering and leaving the kernel -/

theorem saveRegs_of_ne (p : Ppn) {q : Ppn} (hq : q ≠ p) (regs : Regs) :
    ∀ (rs : List Reg) (m : Mem), saveRegs m (addr p) regs rs q = m q := by
  intro rs
  induction rs with
  | nil => exact fun m => rfl
  | cons r rs ih =>
    intro m
    refine (ih _).trans (store64_of_ne ?_)
    rwa [frameSlot_ppn]

theorem enterTrap_eq (t : TrapInput) (s : Kernel) : ∃ M : Machine, enterTrap t s =
    { s with regs := M.regs, csr := M.csr, phys := { s.phys with mem := M.mem }, console := [] } :=
  ⟨_, rfl⟩

theorem enterTrap_frameOnly (ha : (s.procs c).space.Aligned)
    (hscratch : s.csr .sscratch = (s.procs c).trapframe) (t : TrapInput) :
    FrameOnly c s (enterTrap t s) := by
  have hal : addr ((s.procs c).space.own .trapframe) = (s.procs c).trapframe := ha.trapframe
  have hmem : ∀ q, q ≠ (s.procs c).space.own .trapframe →
      (enterTrap t s).phys.mem q = s.phys.mem q := fun q hq => by
    rw [enterTrap_mem, hscratch, ← hal, trapSave, store64_of_ne (by rwa [frameSlot_ppn])]
    exact saveRegs_of_ne _ hq _ _ _
  obtain ⟨M, hM⟩ := enterTrap_eq t s
  rw [hM] at hmem ⊢
  exact ⟨hmem, rfl, rfl, rfl, rfl⟩

theorem entered_frameOnly (ha : (s.procs c).space.Aligned)
    (hscratch : s.csr .sscratch = (s.procs c).trapframe) (t : TrapInput) :
    FrameOnly c s (entered t c s) := by
  have h := enterTrap_frameOnly ha hscratch t
  exact h.trans (store_frameOnly (c := c) (by rw [h.procs]; exact ha) (by decide) _)

theorem inSyscall_frameOnly (ha : (s.procs c).space.Aligned)
    (hscratch : s.csr .sscratch = (s.procs c).trapframe) (t : TrapInput) :
    FrameOnly c s (inSyscall t c s) := by
  have h := entered_frameOnly ha hscratch t
  exact h.trans (store_frameOnly (c := c) (by rw [h.procs]; exact ha) (by decide) _)

theorem MemInv.entered_frameOnly (hm : MemInv iso L s) (hc : c ∈ s.used)
    (hscratch : s.csr .sscratch = (s.procs c).trapframe) (t : TrapInput) :
    FrameOnly c s (entered t c s) := Pke.entered_frameOnly (hm.aligned hc) hscratch t

theorem MemInv.inSyscall_frameOnly (hm : MemInv iso L s) (hc : c ∈ s.used)
    (hscratch : s.csr .sscratch = (s.procs c).trapframe) (t : TrapInput) :
    FrameOnly c s (inSyscall t c s) := Pke.inSyscall_frameOnly (hm.aligned hc) hscratch t

theorem afterSwitch_frameOnly (ha : (s.procs c).space.Aligned) :
    FrameOnly c s (afterSwitch L c s) := by
  refine ⟨fun q hq => ?_, rfl, rfl, rfl, rfl⟩
  change switchMem L (s.procs c) (s.csr .satp) s.phys.mem q = s.phys.mem q
  have hp : ∀ o : Word, o.toNat < 4096 → q ≠ ppn ((s.procs c).trapframe + o) := fun o ho => by
    rwa [trapframe_ppn ha ho]
  rw [switchMem, tfKernelSp, tfKernelSatp, tfKernelTrap, store64_of_ne (hp _ (by decide)),
    store64_of_ne (hp _ (by decide)), store64_of_ne (hp _ (by decide))]

theorem MemInv.afterSwitch (hm : MemInv iso L s) (hc : c ∈ s.used) :
    MemInv iso L (afterSwitch L c s) := (afterSwitch_frameOnly (hm.aligned hc)).memInv hc hm

theorem canonical_of_lt {a : Word} (ha : a.toNat < 2 ^ 38) : canonical a := by
  unfold canonical
  apply BitVec.eq_of_toNat_eq
  have hmsb : (a.setWidth 39).msb = false := by
    rw [BitVec.msb_eq_decide, BitVec.toNat_setWidth, decide_eq_false_iff_not]
    omega
  rw [BitVec.toNat_signExtend, hmsb, BitVec.toNat_setWidth, BitVec.toNat_setWidth]
  simp
  omega

theorem identityMapped_of_leaf {m : Mem} {pt a perm flags : Word} (ha : a.toNat < 2 ^ 38)
    (hal : a % PGSIZE = 0) (hperm : perm &&& 0x3FF = perm)
    (hw : translate m (ppn pt) (vpn a) = some (mkPte a perm))
    (hhas : mkPte a perm &&& flags = flags) (hU : mkPte a perm &&& PTE_U = 0) :
    identityMapped m pt a flags := by
  refine ⟨canonical_of_lt ha, ?_⟩
  rw [hw]
  simp [PTE2PA_mkPte hal hperm, addr_ppn hal, hhas, hU]

/-- Trap entry needs the mappings of the trap section and of the trapframe. -/
theorem canEnter_of_leaves (ha : (s.procs c).space.Aligned)
    (htf : (s.procs c).trapframe.toNat < 2 ^ 38) (hts : L.trapSecStart.toNat < 2 ^ 38)
    (hframe : translate s.phys.mem (s.procs c).space.root (vpn (s.procs c).trapframe) =
      some (mkPte (s.procs c).trapframe trapframePerm))
    (hsec : translate s.phys.mem (s.procs c).space.root (vpn L.trapSecStart) =
      some (mkPte L.trapSecStart trapSecPerm)) : CanEnter L s c := by
  have hal : addr (ppn (s.procs c).trapframe) = (s.procs c).trapframe := ha.trapframe
  refine ⟨identityMapped_of_leaf hts L.trapSec_aligned (by decide) hsec
    ?_ (trapSec_leaf_kernel _), identityMapped_of_leaf htf ?_ (by decide)
    hframe ?_ (trapframe_leaf_kernel _)⟩
  · rw [mkPte_and_flag _ _ (by decide)]
    decide
  · rw [← hal]
    exact addr_mod _
  · rw [mkPte_and_flag _ _ (by decide)]
    decide

/-- The two mappings that trap entry needs are in place. -/
theorem Space.canEnter {fl : List Ppn} (hs : Space iso L (s.view s.used s.used) s.phys fl)
    (hc : c ∈ s.used) : CanEnter L s c := by
  have hready : Ready L s.phys.mem (s.procs c).space (s.procs c).totalMappedRegion :=
    hs.ready c hc
  have htf : 2 ^ 31 ≤ (s.procs c).trapframe.toNat ∧ (s.procs c).trapframe.toNat < 2 ^ 32 :=
    hs.trapframe_toNat (V := s.view s.used s.used) hc
  have hts := hs.trapSec_toNat (V := s.view s.used s.used) hc
  exact canEnter_of_leaves (hs.aligned c hc) (by omega) (by omega) hready.trapframe hready.trapSec

theorem MemInv.canEnter (hm : MemInv iso L s) (hc : c ∈ s.used) : CanEnter L s c := by
  obtain ⟨⟨fl, hs⟩, -⟩ := hm
  exact hs.canEnter hc

theorem identityMapped.mono {m : Mem} {pt a perm perm' : Word} (h : identityMapped m pt a perm)
    (hsub : perm &&& perm' = perm') : identityMapped m pt a perm' := by
  obtain ⟨hcan, hany⟩ := h
  refine ⟨hcan, ?_⟩
  rw [Option.any_eq_true] at hany ⊢
  obtain ⟨w, hw, hflags⟩ := hany
  obtain ⟨hpa, hperm, hU⟩ := of_decide_eq_true hflags
  refine ⟨w, hw, decide_eq_true ⟨hpa, ?_, hU⟩⟩
  rw [← hsub, ← BitVec.and_assoc, hperm]

/-- What the way into the kernel needs of the page table is enough for the way back. -/
theorem CanEnter.canReturn (h : CanEnter L s c) : CanReturn L s c :=
  ⟨h.1.mono (by decide), h.2.mono (by decide)⟩

/-- The way back depends on the translations of the process only. -/
theorem CanReturn.congr (h : CanReturn L s c) (hspace : (s'.procs c).space = (s.procs c).space)
    (hleaf : ∀ v, translate s'.phys.mem (s.procs c).space.root v =
      translate s.phys.mem (s.procs c).space.root v) : CanReturn L s' c := by
  have hpt : (s'.procs c).pagetable = (s.procs c).pagetable := congrArg AddrSpace.pagetable hspace
  have htf : (s'.procs c).trapframe = (s.procs c).trapframe := congrArg AddrSpace.trapframe hspace
  unfold CanReturn identityMapped at *
  rw [hpt, htf]
  refine ⟨⟨h.1.1, ?_⟩, h.2.1, ?_⟩
  · rw [show translate s'.phys.mem (ppn (s.procs c).pagetable) _ = _ from hleaf _]
    exact h.1.2
  · rw [show translate s'.phys.mem (ppn (s.procs c).pagetable) _ = _ from hleaf _]
    exact h.2.2

theorem MemInv.canReturn (hm : MemInv iso L s) (hc : c ∈ s.used) : CanReturn L s c :=
  (hm.canEnter hc).canReturn

/-! ## Scheduling -/

/-- An assignment to fields of a process that do not locate its memory. -/
theorem MemSame.update (s : Kernel) (i : Pid) {p : Process} (hspace : p.space = (s.procs i).space)
    (htotal : p.totalMappedRegion = (s.procs i).totalMappedRegion)
    (hstatus : p.status = .FREE ↔ (s.procs i).status = .FREE) :
    MemSame s { s with procs := Function.update s.procs i p } := by
  refine ⟨rfl, rfl, rfl, fun j => ?_, fun j => ?_, fun j => ?_⟩ <;> by_cases hj : j = i
  all_goals first
    | (subst hj; simpa using by assumption)
    | simp [hj]

/-- What putting process `i` into the ready queue does, when it is in use. -/
def Requeue (i : Pid) (s s' : Kernel) : Prop :=
  i ∈ s.used → MemSame s s' ∧ s'.current = s.current

instance (i : Pid) : Std.Refl (Requeue i) := ⟨fun s _ => ⟨MemSame.refl s, rfl⟩⟩

instance (i : Pid) : IsTrans Kernel (Requeue i) := by
  refine ⟨fun s s' s'' h h' hi => ?_⟩
  obtain ⟨h1, h2⟩ := h hi
  obtain ⟨h3, h4⟩ := h' (by rw [h1.used]; exact hi)
  exact ⟨h1.trans h3, h4.trans h2⟩

open Prog.Keeps in
theorem setReady_requeue (i : Pid) :
    Prog.Keeps (Requeue i) (fun _ => False) (setProc i fun p => { p with status := .READY }) :=
  modify fun s hi => ⟨.update s i rfl rfl (iff_of_false (by simp) hi), rfl⟩

open Prog.Keeps in
theorem setNext_requeue (i j : Pid) (n : Option Pid) :
    Prog.Keeps (Requeue i) (fun _ => False) (setProc j fun p => { p with queueNext := n }) :=
  modify fun s _ => ⟨.update s j rfl rfl Iff.rfl, rfl⟩

open Prog.Keeps in
theorem insertToReadyQueue_requeue (i : Pid) :
    Prog.Keeps (Requeue i) (fun _ => False) (insertToReadyQueue i) := by
  have hprint : ∀ m, Prog.Keeps (Requeue i) (fun _ => False) (sprint m) := fun m =>
    modify fun s _ => ⟨⟨rfl, rfl, rfl, fun _ => rfl, fun _ => rfl, fun _ => Iff.rfl⟩, rfl⟩
  refine bind (gets _) fun p => bind (hprint _) fun _ => bind (gets _) fun head => ?_
  cases head with
  | none =>
    exact bind (setReady_requeue i) fun _ => bind (setNext_requeue i i none) fun _ =>
      modify fun s _ => ⟨⟨rfl, rfl, rfl, fun _ => rfl, fun _ => rfl, fun _ => Iff.rfl⟩, rfl⟩
  | some head =>
    refine bind (gets _) fun procs => ?_
    cases browseQueue procs i 32 head with
    | inQueue => exact pure _
    | endless => exact halt id
    | last p =>
      exact bind (setNext_requeue i p (some i)) fun _ => bind (setReady_requeue i) fun _ =>
        setNext_requeue i i none

/-- A process in use was dispatched, and nothing else of what `MemInv` talks about
    has changed. -/
def Switched (L : Layout) (s s' : Kernel) : Prop :=
  ∃ q s₁, MemSame s s₁ ∧ q ∈ s₁.used ∧ s' = afterSwitch L q s₁

theorem Switched.of_same (hs : MemSame s s') (h : Switched L s' s'') : Switched L s s'' := by
  obtain ⟨q, s₁, hsame, hq, heq⟩ := h
  exact ⟨q, s₁, hs.trans hsame, hq, heq⟩

theorem MemInv.switched (hm : MemInv iso L s) (h : Switched L s s') : MemInv iso L s' := by
  obtain ⟨q, s₁, hsame, hq, rfl⟩ := h
  exact (hm.same hsame).afterSwitch hq

theorem HandedOver.switched {q : Pid} (h : HandedOver L q s s') (hq : q ∈ s.used) :
    Switched L s s' := by
  obtain ⟨s₂, rfl, hrest, hprocs⟩ := h.switch
  have hstatus : ∀ i, (s₂.procs i).status = (s.procs i).status := fun i =>
    (congrArg Process.status (hprocs i) :)
  have hsame : MemSame s s₂ := by
    refine ⟨?_, ?_, ?_, fun i => ?_, fun i => ?_, fun i => by rw [hstatus i]⟩
    · rw [hrest]
    · rw [hrest]
    · rw [hrest]
    · exact (congrArg Process.space (hprocs i) :)
    · exact (congrArg Process.totalMappedRegion (hprocs i) :)
  exact ⟨q, s₂, hsame, by rw [hsame.used]; exact hq, rfl⟩

/-- With memory in order, the process that gets the hart reaches user mode. -/
theorem MemInv.handedOver {α : Type} {q : Pid} (hm : MemInv iso L s) (h : HandedOver L q s s')
    (hq : q ∈ s.used) : MemInv iso L s' ∧ (returning L q s' : Out Kernel Halt α) = .exit s' := by
  have hsw := h.switched hq
  have hm' := hm.switched hsw
  refine ⟨hm', returning_eq (hm'.canReturn ?_)⟩
  obtain ⟨s₂, rfl, -, hprocs⟩ := h.switch
  have hstatus : (s₂.procs q).status = (s.procs q).status := (congrArg Process.status (hprocs q) :)
  exact fun hf => hq (hstatus.symm.trans hf)

/-- `schedule` stops the machine or dispatches a process that is READY. -/
theorem schedule_switched {α : Type} (L : Layout) (s : Kernel) :
    Prog.wp (schedule L : KernelM α) (fun _ _ => False) (Switched L s) (fun _ => True) s := by
  rw [schedule, Prog.wp_bind, Prog.wp_gets]
  cases s.readyQueueHead with
  | none =>
    obtain ⟨b, console, hrun, -⟩ := checkShutdown_spec (List.finRange 32) s
    dsimp only
    rw [Prog.wp_bind, Prog.wp_of_ret hrun]
    cases b <;> trivial
  | some i =>
    dsimp only
    rw [Prog.wp_bind, Prog.wp_modify, Prog.wp_bind, proc, Prog.wp_gets]
    by_cases hready : (s.procs i).status = .READY
    · rw [if_neg (not_not.mpr hready), Prog.wp_bind, Prog.wp_modify, sprint, Prog.wp_bind,
        Prog.wp_modify]
      have hi : i ∈ s.used := fun hf => by rw [hready] at hf; cases hf
      refine wp_of_returning (switchTo_eq L i _) ⟨i, _, ?_, ?_, rfl⟩ fun _ => trivial
      · exact ⟨rfl, rfl, rfl, fun _ => rfl, fun _ => rfl, fun _ => Iff.rfl⟩
      · exact hi
    · rw [if_pos hready]
      trivial

/-- The end of `sys_user_yield`, `wait` and `rrsched`. -/
theorem requeue_switched {α β : Type} {k : α → KernelM β} {i : Pid} (hi : i ∈ s.used) :
    Prog.wp (do
      setProc i fun p => { p with status := .READY }
      insertToReadyQueue i
      schedule L >>= k) (fun _ _ => False) (Switched L s) (fun _ => True) s := by
  refine Prog.wp_bind.mpr (Prog.wp_mono ((setReady_requeue i).wp s) ?_ (fun _ h => h.elim)
    fun _ _ => trivial)
  intro _ s₁ h₁
  have hi₁ : i ∈ s₁.used := by rw [(h₁ hi).1.used]; exact hi
  refine Prog.wp_bind.mpr (Prog.wp_mono ((insertToReadyQueue_requeue i).wp s₁) ?_
    (fun _ h => h.elim) fun _ _ => trivial)
  intro _ s₂ h₂
  refine Prog.wp_bind.mpr (Prog.wp_mono (schedule_switched L s₂) ?_
    (fun _ h => h.of_same ((h₁ hi).1.trans (h₂ hi₁).1)) fun _ h => h)
  exact fun _ _ h => h.elim

end Pke
