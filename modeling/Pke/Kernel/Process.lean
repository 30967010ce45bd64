import Pke.Kernel.Sched

/-!
# Processes: the code

`kernel/process.c`: the process table, `alloc_process`, `do_fork` and `wait`.
-/

namespace Pke

open Lib

/-- `init_proc_pool` (`kernel/process.c` lines 78–86). -/
def initProcPool : KernelM Unit :=
  Prog.modify fun s => { s with
    procs := fun i =>
      { kstack := 0, pagetable := 0, trapframe := 0, mappedInfo := 0, totalMappedRegion := 0,
        pid := BitVec.ofNat 64 i, status := .FREE, parent := none, queueNext := none,
        tickCount := 0 } }

/-- The first slot whose status is FREE. -/
def firstFree (procs : Pid → Process) : Option Pid :=
  (List.finRange 32).find? fun i => (procs i).status = .FREE

/-- The assignments `r.va = va; r.npages = npages; r.seg_type = seg` to the
    `mapped_region` at an address. -/
def storeRegion (a va : Word) (npages : BitVec 32) (seg : SegType) : PhysM Unit := do
  store a va
  store (a + 8) (regionWord npages seg)

/-- The part of `alloc_process` that takes the pages for slot `i`; the result is
    `user_stack` (`kernel/process.c` lines 106–120). -/
def takePages (i : Pid) : KernelM Word := do
  let tf ← onPhys allocPage
  setProc i fun p => { p with trapframe := tf }
  onPhys (physMemset tf 0 sizeofTrapframe)
  let pt ← onPhys allocPage
  setProc i fun p => { p with pagetable := pt }
  onPhys (physMemset pt 0 4096)
  let ks ← onPhys allocPage
  setProc i fun p => { p with kstack := ks + PGSIZE }
  let userStack ← onPhys allocPage
  onPhys (store (frameSlot tf .sp) USER_STACK_TOP)
  let mi ← onPhys allocPage
  setProc i fun p => { p with mappedInfo := mi }
  onPhys (physMemset mi 0 4096)
  return userStack

/-- The part of `alloc_process` that maps and records the regions of slot `i`
    (`kernel/process.c` lines 122–146). -/
def mapInitial (L : Layout) (i : Pid) (userStack : Word) : KernelM Unit := do
  let p ← proc i
  onPhys (userVmMap p.pagetable (USER_STACK_TOP - PGSIZE) PGSIZE userStack
    (protToType (PROT_WRITE ||| PROT_READ) 1))
  onPhys (storeRegion (regionAddr p.mappedInfo 0) (USER_STACK_TOP - PGSIZE) 1 .STACK)
  onPhys (userVmMap p.pagetable p.trapframe PGSIZE p.trapframe
    (protToType (PROT_WRITE ||| PROT_READ) 0))
  onPhys (storeRegion (regionAddr p.mappedInfo 1) p.trapframe 1 .CONTEXT)
  onPhys (userVmMap p.pagetable L.trapSecStart PGSIZE L.trapSecStart
    (protToType (PROT_READ ||| PROT_EXEC) 0))
  onPhys (storeRegion (regionAddr p.mappedInfo 2) L.trapSecStart 1 .SYSTEM)
  let sp ← onPhys (load (frameSlot p.trapframe .sp))
  sprint (.text
    "in alloc_proc. user frame 0x%lx, user stack 0x%lx, user kstack 0x%lx \n"
    [p.trapframe, sp, p.kstack])
  setProc i fun p => { p with totalMappedRegion := 3 }

/-- The part of `alloc_process` that sets up slot `i`. -/
def initVmSpace (L : Layout) (i : Pid) : KernelM Unit := do
  let userStack ← takePages i
  mapInitial L i userStack

/-- `alloc_process` (`kernel/process.c` lines 91–149). -/
def allocProcess (L : Layout) : KernelM Pid := do
  match firstFree (← Prog.gets Kernel.procs) with
  | none => Prog.halt (.panic "cannot find any free process structure.\n" [])
  | some i => do
    initVmSpace L i
    return i

/-- `free_process` (`kernel/process.c` lines 154–163). -/
def freeProcess (i : Pid) : KernelM Unit := setProc i fun p => { p with status := .ZOMBIE }

/-! ## `do_fork` -/

/-- The conversion of a `uint64` to `int` and back. -/
def asInt (w : Word) : Word := (w.setWidth 32).signExtend 64

/-- The loop over the pages of a DATA_SEGMENT in `do_fork`. -/
def forkData (parentTable childTable va : Word) : List ℕ → PhysM Unit
  | [] => return
  | j :: js => do
    let pa ← allocPage
    let va' := asInt (va + PGSIZE * BitVec.ofNat 64 j)
    let src ← lookupPa parentTable va'
    physMemcpy pa src 4096
    userVmMap childTable va' PGSIZE pa (protToType (PROT_WRITE ||| PROT_READ) 1)
    forkData parentTable childTable va js

/-- The body of the loop of `do_fork` for region `i` of the parent. -/
def forkRegion (parent child : Pid) (i : ℕ) : KernelM Unit := do
  let p ← proc parent
  let c ← proc child
  let va ← onPhys (load (regionAddr p.mappedInfo i))
  let w ← onPhys (load (regionAddr p.mappedInfo i + 8))
  match segTypeOf ((w >>> 32).setWidth 32) with
  | some .CONTEXT => onPhys (physMemcpy c.trapframe p.trapframe sizeofTrapframe)
  | some .STACK => do
    let childVa ← onPhys (load (regionAddr c.mappedInfo 0))
    let dest ← onPhys (lookupPa c.pagetable childVa)
    let src ← onPhys (lookupPa p.pagetable va)
    onPhys (physMemcpy dest src 4096)
  | some .DATA => do
    onPhys (store (regionAddr c.mappedInfo i) va)
    onPhys (forkData p.pagetable c.pagetable va (List.range (w.setWidth 32 : BitVec 32).toNat))
  | some .CODE => do
    let pa ← onPhys (lookupPa p.pagetable va)
    onPhys (userVmMap c.pagetable (va &&& ~~~0xFFF#64) PGSIZE pa
      (protToType (PROT_EXEC ||| PROT_READ) 1))
    let pa ← onPhys (lookupPa p.pagetable va)
    sprint (.text "do_fork map code segment at pa:%lx of parent to child at va:%lx.\n"
      [pa, va &&& ~~~0xFFF#64])
    onPhys (storeRegion (regionAddr c.mappedInfo c.totalMappedRegion) va (w.setWidth 32) .CODE)
    setProc child fun c => { c with totalMappedRegion := c.totalMappedRegion + 1 }
  | some .SYSTEM | none => return

/-- The loop of `do_fork` over the regions of the parent. -/
def forkRegions (parent child : Pid) : List ℕ → KernelM Unit
  | [] => return
  | i :: is => do
    forkRegion parent child i
    forkRegions parent child is

/-- `do_fork` (`kernel/process.c` lines 172–228). The parent's
    `total_mapped_region` does not change in the loop: the child is another slot. -/
def doFork (L : Layout) (parent : Pid) : KernelM Word := do
  let p ← proc parent
  sprint (.text "will fork a child from parent %d.\n" [p.pid])
  let child ← allocProcess L
  let p ← proc parent
  forkRegions parent child (List.range p.totalMappedRegion)
  setProc child fun c => { c with status := .READY }
  let c ← proc child
  onPhys (store (frameSlot c.trapframe .a0) 0)
  setProc child fun c => { c with parent := some parent }
  insertToReadyQueue child
  let c ← proc child
  return asInt c.pid

/-! ## `wait` -/

/-- The value of `flag` after the first loop of `wait`. -/
def waitFlag (procs : Pid → Process) (current : Pid) (pid : BitVec 32) : List Pid → ℤ → ℤ
  | [], flag => flag
  | np :: nps, flag =>
    if (procs np).parent = some current ∧ (procs np).pid = pid.signExtend 64 then
      waitFlag procs current pid nps 1
    else if (procs np).parent = some current then
      waitFlag procs current pid nps 0
    else waitFlag procs current pid nps flag

/-- The endless loop of `wait`. A round that finds no exited child leaves the
    state as it is, so the next rounds find none either. -/
def waitLoop (procs : Pid → Process) (current : Pid) (pid : BitVec 32) (flag : ℤ) :
    KernelM Word :=
  if pid = -1 then
    match (List.finRange 32).find? fun np =>
        (procs np).parent = some current ∧ (procs np).status = .ZOMBIE with
    | some np => return asInt (procs np).pid
    | none => Prog.halt .spin
  else if 0 < pid.toInt ∧ flag = 1 then
    match (List.finRange 32).find? fun np =>
        (procs np).parent = some current ∧ (procs np).pid = pid.signExtend 64 ∧
          (procs np).status = .ZOMBIE with
    | some _ => return pid.signExtend 64
    | none => Prog.halt .spin
  else return -1

/-- `wait` (`kernel/process.c` lines 230–266). `schedule` does not come back, so
    the loop behind it never runs. -/
def wait (L : Layout) (pid : BitVec 32) : KernelM Word := do
  let i ← currentProc
  let flag := waitFlag (← Prog.gets Kernel.procs) i pid (List.finRange 32) (-1)
  if flag = -1 then return -1
  else do
    setProc i fun p => { p with status := .READY }
    insertToReadyQueue i
    let _ ← (schedule L : KernelM Unit)
    let i ← currentProc
    waitLoop (← Prog.gets Kernel.procs) i pid flag

end Pke
