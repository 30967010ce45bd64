import Pke.Kernel.Trap

/-!
# Boot and the steps of the running system

`kernel/kernel.c` with `pmm_init` and `kern_vm_init`, and the transition system
of the machine seen from user mode. A state is the machine when user code runs;
the current process may store a byte through its page table or trap. `Reach`
collects the states reached from boot by steps that meet a condition, and `Run`
a sequence of steps with the states in between.

The variables of the kernel are not part of memory here. In the machine a
process changes them by stores when its page table maps a page of the kernel
image, which takes a segment that does not start at a page boundary or a
`free_page` of a page that the caller does not have to itself. `StaticStep`
(`Pke.Kernel.Statics`) follows such stores, `Step` does not.
-/

namespace Pke

open Lib

/-! ## Boot -/

/-- `pmm_init` with the symbol `_end` at `kend` (`kernel/pmm.c` lines 62–87). -/
def pmmInit (kend : Word) : KernelM Unit := do
  let kernelSize := kend - KERN_BASE
  sprint (.text "PKE kernel start 0x%lx, PKE kernel end: 0x%lx, PKE kernel size: 0x%lx .\n"
    [KERN_BASE, kend, kernelSize])
  let start := ROUNDUP kend PGSIZE
  onPhys (Prog.modify fun s => { s with freeMemStartAddr := start })
  Prog.modify fun s => { s with
    gMemSize := if PKE_MAX_ALLOWABLE_RAM < s.gMemSize then PKE_MAX_ALLOWABLE_RAM else s.gMemSize }
  let size ← Prog.gets Kernel.gMemSize
  if size < kernelSize then
    Prog.halt (.panic "Error when recomputing physical memory size (g_mem_size).\n" [])
  else do
    let last := size + DRAM_BASE
    onPhys (Prog.modify fun s => { s with freeMemEndAddr := last })
    sprint (.text "free physical memory address: [0x%lx, 0x%lx] \n" [start, last - 1])
    sprint (.text "kernel memory manager is initializing ...\n" [])
    onPhys (createFreepageList start last)

/-- `kern_vm_init` (`kernel/vmm.c` lines 119–141). -/
def kernVmInit (L : Layout) : KernelM Unit := do
  let t ← onPhys allocPage
  onPhys (physMemset t 0 4096)
  onPhys (kernVmMap t KERN_BASE DRAM_BASE (L.etext - KERN_BASE)
    (protToType (PROT_READ ||| PROT_EXEC) 0))
  let pa ← onPhys (lookupPa t KERN_BASE)
  sprint (.text "KERN_BASE 0x%lx\n" [pa])
  onPhys (kernVmMap t L.etext L.etext (PHYS_TOP - L.etext)
    (protToType (PROT_READ ||| PROT_WRITE) 0))
  let pa ← onPhys (lookupPa t L.etext)
  sprint (.text "physical address of _etext is: 0x%lx\n" [pa])
  Prog.modify fun s => { s with gKernelPagetable := t }

/-- `enable_paging` (`kernel/kernel.c` lines 24–30). -/
def enablePaging : KernelM Unit := do
  writeCsr .satp (MAKE_SATP (← Prog.gets Kernel.gKernelPagetable))

/-- `load_user_program` (`kernel/kernel.c` lines 36–45). -/
def loadUserProgram (L : Layout) (h : Host) : KernelM Pid := do
  let i ← allocProcess L
  sprint (.text "User application is loading.\n" [])
  loadBincodeFromHostElf h i
  return i

/-- `s_start` (`kernel/kernel.c` lines 50–74). -/
def sStart (L : Layout) (h : Host) : KernelM Unit := do
  sprint (.text "Enter supervisor mode...\n" [])
  writeCsr .satp 0
  pmmInit L.kend
  kernVmInit L
  enablePaging
  sprint (.text "kernel page table is on \n" [])
  initProcPool
  sprint (.text "Switch to user mode...\n" [])
  insertToReadyQueue (← loadUserProgram L h)
  schedule L

/-- The machine when `s_start` is entered: the static variables of the kernel
    have their initial values, everything else is arbitrary. -/
def coldStart (h : Host) (s : Kernel) : Kernel :=
  { s with
    current := none
    readyQueueHead := none
    gUfreePage := USER_FREE_ADDRESS_START
    gTicks := 0
    gMemSize := h.memSize
    console := [] }

/-! ## User mode -/

/-- The hart can run the trap vector on the page table of process `i` and save
    the registers to its trapframe. -/
def CanEnter (L : Layout) (s : Kernel) (i : Pid) : Prop :=
  identityMapped s.phys.mem (s.procs i).pagetable L.trapSecStart (PTE_R ||| PTE_X) ∧
    identityMapped s.phys.mem (s.procs i).pagetable (s.procs i).trapframe (PTE_R ||| PTE_W)

instance (L : Layout) (s : Kernel) (i : Pid) : Decidable (CanEnter L s i) :=
  inferInstanceAs (Decidable (_ ∧ _))

/-- What a trap brings: the registers of the user program and the trap CSRs. -/
structure TrapInput where
  regs : Regs
  sepc : Word
  scause : Word
  stval : Word

/-- The machine behind `smode_trap_vector` for a trap from user mode. -/
def enterTrap (t : TrapInput) (s : Kernel) : Kernel :=
  let csr := Function.update (Function.update (Function.update (Function.update s.csr
    .sepc t.sepc) .scause t.scause) .stval t.stval) .sstatus (s.csr .sstatus &&& ~~~SSTATUS_SPP)
  let M := (Machine.mk t.regs csr s.phys.mem).run smodeTrapVector
  { s with regs := M.regs, csr := M.csr, phys := { s.phys with mem := M.mem }, console := [] }

/-- A trap of the current process. -/
def trap (L : Layout) (t : TrapInput) : KernelM Unit := do
  match ← Prog.gets Kernel.current with
  | none => Prog.halt .trapEntry
  | some i => do
    let s ← Prog.gets id
    if CanEnter L s i then do
      Prog.modify (enterTrap t)
      smodeTrapHandler L
    else Prog.halt .trapEntry

/-- The physical address user code reaches at `va` with a permission. -/
def userTranslate (m : Mem) (pagetable va perm : Word) : Option Word :=
  if canonical va then
    (translate m (ppn pagetable) (vpn va)).bind fun w =>
      if w &&& (PTE_U ||| perm) = PTE_U ||| perm then some (PTE2PA w + (va &&& 0xFFF#64)) else none
  else none

/-- The byte that process `j` reads at `va`. -/
def readByte (s : Kernel) (j : Pid) (va : Word) : Option (BitVec 8) :=
  (userTranslate s.phys.mem (s.procs j).pagetable va PTE_R).map (load8 s.phys.mem)

/-- A store of one byte by the current process. It changes memory only, also when the page
    is one of the kernel image; `Placement.userStore` is the store that changes the
    variables there. -/
def userStore (va : Word) (b : BitVec 8) (s : Kernel) : Option Kernel := do
  let i ← s.current
  let pa ← userTranslate s.phys.mem (s.procs i).pagetable va PTE_W
  return { s with phys := { s.phys with mem := store8 s.phys.mem pa b } }

/-! ## Steps -/

/-- What the current process does next. -/
inductive Action where
  | trap (t : TrapInput)
  | store (va : Word) (b : BitVec 8)

/-- One step from user mode back to user mode. -/
inductive Step (L : Layout) : Kernel → Action → Kernel → Prop
  | trap {s s' : Kernel} {t : TrapInput} (h : trap L t s = .exit s') : Step L s (.trap t) s'
  | store {s s' : Kernel} {va : Word} {b : BitVec 8} (h : userStore va b s = some s') :
      Step L s (.store va b) s'

/-- The states reached from boot by steps that all meet a condition, with the variables of
    the kernel out of reach of stores. -/
inductive Reach (L : Layout) (h : Host) (ok : Kernel → Action → Prop) : Kernel → Prop
  | boot {s₀ s : Kernel} (hs : sStart L h (coldStart h s₀) = .exit s) : Reach L h ok s
  | step {s s' : Kernel} {a : Action} (hs : Reach L h ok s) (hok : ok s a) (ha : Step L s a s') :
      Reach L h ok s'

/-- The states reached from boot. -/
abbrev Reachable (L : Layout) (h : Host) : Kernel → Prop := Reach L h fun _ _ => True

/-- A sequence of steps, with the state after each and the variables of the kernel out of
    reach of stores. -/
inductive Run (L : Layout) : Kernel → List (Action × Kernel) → Kernel → Prop
  | nil (s : Kernel) : Run L s [] s
  | cons {s s₁ s' : Kernel} {a : Action} {tr : List (Action × Kernel)} (ha : Step L s a s₁)
      (hr : Run L s₁ tr s') : Run L s ((a, s₁) :: tr) s'

theorem Reach.mono {L : Layout} {h : Host} {ok ok' : Kernel → Action → Prop} {s : Kernel}
    (hs : Reach L h ok s) (hok : ∀ s a, ok s a → ok' s a) : Reach L h ok' s := by
  induction hs with
  | boot hs => exact .boot hs
  | step _ h' ha ih => exact ih.step (hok _ _ h') ha

/-- A property of the boot state that every step keeps holds in every state
    reached. -/
theorem Reach.invariant {L : Layout} {h : Host} {ok : Kernel → Action → Prop}
    {P : Kernel → Prop} (hboot : ∀ s₀ s, sStart L h (coldStart h s₀) = .exit s → P s)
    (hstep : ∀ s a s', ok s a → P s → Step L s a s' → P s') {s : Kernel}
    (hs : Reach L h ok s) : P s := by
  induction hs with
  | boot hs => exact hboot _ _ hs
  | step _ hok ha ih => exact hstep _ _ _ hok ih ha

end Pke
