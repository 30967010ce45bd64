import Pke.Machine.TrapVectors
import Pke.Mm.Vmm

/-!
# The kernel's state

The static variables of the kernel, the hart, and physical memory. Processes are
referred to by their slot in `procs[]`; a `process *` that may be NULL is an
`Option Pid`. The variables of the kernel image are fields here and not bytes of
`Mem`; pages handed out by the allocator (trapframes, region tables, page
tables, user frames) are in `Mem`. `Pke.Kernel.Statics` gives the variables
their place in memory, and `Pke.Runs.Statics` says when the two descriptions
agree. The stacks of the kernel are not modelled.
-/

namespace Pke

open Lib

/-! ## Constants -/

/-- `KERN_BASE` and `DRAM_BASE` (`kernel/memlayout.h` lines 6 and 9). -/
def KERN_BASE : Word := 0x80000000
def DRAM_BASE : Word := 0x80000000

/-- `USER_STACK_TOP` (`kernel/memlayout.h` line 15). -/
def USER_STACK_TOP : Word := 0x7ffff000

/-- `USER_FREE_ADDRESS_START` (`kernel/memlayout.h` line 18). -/
def USER_FREE_ADDRESS_START : Word := PGSIZE * 1024

/-- `PKE_MAX_ALLOWABLE_RAM` and `PHYS_TOP` (`kernel/config.h` lines 11 and 14). -/
def PKE_MAX_ALLOWABLE_RAM : Word := 128 * 1024 * 1024
def PHYS_TOP : Word := DRAM_BASE + PKE_MAX_ALLOWABLE_RAM

/-- `SSTATUS_SPP` and `SSTATUS_SPIE` (`kernel/riscv.h` lines 68 and 69). -/
def SSTATUS_SPP : Word := 1 <<< 8
def SSTATUS_SPIE : Word := 1 <<< 5

/-- `MAKE_SATP(pagetable)` (`kernel/riscv.h` line 156). -/
def MAKE_SATP (pagetable : Word) : Word := 8 <<< 60 ||| pagetable >>> 12

/-- `TIME_SLICE_LEN` (`kernel/sched.h` line 7). -/
def TIME_SLICE_LEN : ℤ := 2

/-- The symbols of the kernel image, as `kernel/kernel.lds` places them. -/
structure Layout where
  trapSecStart : Word
  etext : Word
  kend : Word
  smodeTrapVector : Word
  smodeTrapHandler : Word
  trapSec_aligned : trapSecStart % PGSIZE = 0
  etext_aligned : etext % PGSIZE = 0
  kend_aligned : kend % PGSIZE = 0
  base_le_trapSec : KERN_BASE ≤ trapSecStart
  trapSec_lt_etext : trapSecStart < etext
  etext_le_kend : etext ≤ kend

theorem Layout.base_le_etext (L : Layout) : KERN_BASE ≤ L.etext :=
  BitVec.le_trans L.base_le_trapSec (BitVec.le_of_lt L.trapSec_lt_etext)

/-- The page lies in the kernel image. -/
def InImage (L : Layout) (p : Ppn) : Prop := KERN_BASE ≤ addr p ∧ addr p < L.kend

instance (L : Layout) (p : Ppn) : Decidable (InImage L p) :=
  inferInstanceAs (Decidable (_ ∧ _))

/-- The two memories agree on the kernel image. -/
def SameImage (L : Layout) (m m' : Mem) : Prop := ∀ p, InImage L p → m' p = m p

theorem SameImage.refl (L : Layout) (m : Mem) : SameImage L m m := fun _ _ => rfl

theorem SameImage.trans {L : Layout} {m m' m'' : Mem} (h : SameImage L m m')
    (h' : SameImage L m' m'') : SameImage L m m'' := fun p hp => (h' p hp).trans (h p hp)

/-! ## Processes -/

/-- A slot of `procs[NPROC]`. -/
abbrev Pid := Fin 32

/-- The enumeration `proc_status` (`kernel/process.h` lines 25–31). -/
inductive ProcStatus where
  | FREE | READY | RUNNING | BLOCKED | ZOMBIE
  deriving DecidableEq, Repr

/-- The enumeration `segment_type` (`kernel/process.h` lines 34–40). -/
inductive SegType where
  | CODE | DATA | STACK | CONTEXT | SYSTEM
  deriving DecidableEq, Repr

def SegType.code : SegType → BitVec 32
  | .CODE => 0
  | .DATA => 1
  | .STACK => 2
  | .CONTEXT => 3
  | .SYSTEM => 4

/-- The case of a `switch` on a stored segment type. -/
def segTypeOf (c : BitVec 32) : Option SegType :=
  if c = 0 then some .CODE
  else if c = 1 then some .DATA
  else if c = 2 then some .STACK
  else if c = 3 then some .CONTEXT
  else if c = 4 then some .SYSTEM
  else none

/-- The structure `process` (`kernel/process.h` lines 50–75). -/
@[ext] structure Process where
  kstack : Word
  pagetable : Word
  trapframe : Word
  mappedInfo : Word
  totalMappedRegion : ℕ
  pid : Word
  status : ProcStatus
  parent : Option Pid
  queueNext : Option Pid
  tickCount : ℤ

/-- Addresses of the fields of a `trapframe` behind `regs`
    (`kernel/process.h` lines 6–19). -/
def tfKernelSp (tf : Word) : Word := tf + 248
def tfKernelTrap (tf : Word) : Word := tf + 256
def tfEpc (tf : Word) : Word := tf + 264
def tfKernelSatp (tf : Word) : Word := tf + 272

/-- The size of a `trapframe` in bytes. -/
def sizeofTrapframe : ℕ := 280

/-- The address of `mapped_info[i]`, an array of `mapped_region`. -/
def regionAddr (mappedInfo : Word) (i : ℕ) : Word := mappedInfo + BitVec.ofNat 64 (16 * i)

/-- The second doubleword of a `mapped_region`: `npages` below `seg_type`. -/
def regionWord (npages : BitVec 32) (seg : SegType) : Word :=
  npages.setWidth 64 ||| seg.code.setWidth 64 <<< 32

/-! ## Output -/

/-- A call of `sprint`: its format and arguments. The message that `schedule`
    prints for the process it dispatches, and the format string a user program
    passes to the print system call, are told apart from the others. -/
inductive Msg where
  | text (fmt : String) (args : List Word)
  /-- `"going to schedule process %d to run.\n"`. -/
  | schedule (pid : Word)
  | user (fmt : List (BitVec 8))
  deriving DecidableEq

/-! ## State and programs -/

/-- The state of the machine while the kernel or a user process runs. `console`
    collects what the kernel printed since it was last entered. The variables of the
    kernel are fields beside `phys.mem`: nothing that is written to memory changes them. -/
structure Kernel where
  phys : Phys
  regs : Regs
  csr : Csr → Word
  procs : Pid → Process
  current : Option Pid
  readyQueueHead : Option Pid
  gKernelPagetable : Word
  gUfreePage : Word
  gTicks : Word
  gMemSize : Word
  console : List Msg

/-- Kernel code. -/
abbrev KernelM := Prog Kernel Halt

/-- Run code that works on physical memory. -/
def onPhys {α : Type} (c : PhysM α) : KernelM α :=
  Prog.zoom Kernel.phys (fun s p => { s with phys := p }) c

theorem wp_onPhys {α : Type} {c : PhysM α} {R : α → Kernel → Prop} {E : Kernel → Prop}
    {H : Halt → Prop} {s : Kernel} :
    Prog.wp (onPhys c) R E H s ↔
      Prog.wp c (fun a ph => R a { s with phys := ph }) (fun ph => E { s with phys := ph }) H
        s.phys := Prog.wp_zoom

def sprint (m : Msg) : KernelM Unit := Prog.modify fun s => { s with console := s.console ++ [m] }

def readCsr (c : Csr) : KernelM Word := Prog.gets fun s => s.csr c

def writeCsr (c : Csr) (v : Word) : KernelM Unit :=
  Prog.modify fun s => { s with csr := Function.update s.csr c v }

/-- `procs[i]`. -/
def proc (i : Pid) : KernelM Process := Prog.gets fun s => s.procs i

/-- An assignment to fields of `procs[i]`. -/
def setProc (i : Pid) (f : Process → Process) : KernelM Unit :=
  Prog.modify fun s => { s with procs := Function.update s.procs i (f (s.procs i)) }

/-- The slot `current` points to, where the code dereferences it. -/
def currentProc : KernelM Pid := do
  match ← Prog.gets Kernel.current with
  | some i => return i
  | none => Prog.halt .fault

end Pke
