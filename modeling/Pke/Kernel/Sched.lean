import Pke.Kernel.State
import Pke.Mm.PageTable

/-!
# The scheduler: the code

`kernel/sched.c`, and `switch_to` of `kernel/process.c`, which ends in the
assembler of `return_to_user` and never returns to its caller. That code runs on
the user page table from its second instruction on, so user mode is only reached
if the table maps the trap section and the trapframe.
-/

namespace Pke

open Lib

/-- The address is in the range that Sv39 translates. -/
def canonical (va : Word) : Prop := (va.setWidth 39).signExtend 64 = va

instance (va : Word) : Decidable (canonical va) := inferInstanceAs (Decidable (_ = _))

/-- The table maps the page of `a` to itself, with the given permissions and
    without `PTE_U`. -/
def identityMapped (m : Mem) (pagetable a perm : Word) : Prop :=
  canonical a ∧ (translate m (ppn pagetable) (vpn a)).any fun w =>
    PTE2PA w = addr (ppn a) ∧ w &&& perm = perm ∧ w &&& PTE_U = 0

instance (m : Mem) (pagetable a perm : Word) : Decidable (identityMapped m pagetable a perm) :=
  inferInstanceAs (Decidable (_ ∧ _))

/-- The hart can run `return_to_user` on the page table of process `i` and load the
    registers from its trapframe. -/
def CanReturn (L : Layout) (s : Kernel) (i : Pid) : Prop :=
  identityMapped s.phys.mem (s.procs i).pagetable L.trapSecStart PTE_X ∧
    identityMapped s.phys.mem (s.procs i).pagetable (s.procs i).trapframe PTE_R

instance (L : Layout) (s : Kernel) (i : Pid) : Decidable (CanReturn L s i) :=
  inferInstanceAs (Decidable (_ ∧ _))

/-- The end of `switch_to` for process `i`: the call `return_to_user(trapframe, satp)`
    hands the hart to the user program. It writes `satp` first; if the trap section or the
    trapframe cannot be reached then, the hart faults, and again in the trap vector. -/
def callReturnToUser {α : Type} (L : Layout) (i : Pid) (trapframe satp : Word) : KernelM α := do
  let s ← Prog.gets id
  if CanReturn L s i then do
    Prog.modify fun s =>
      let M : Machine := ⟨Function.update (Function.update s.regs .a0 trapframe) .a1 satp, s.csr,
        s.phys.mem⟩
      let M' := M.run returnToUser
      { s with regs := M'.regs, csr := M'.csr, phys := { s.phys with mem := M'.mem } }
    Prog.leave
  else Prog.halt .trapEntry

/-- `switch_to` (`kernel/process.c` lines 43–73). -/
def switchTo {α : Type} (L : Layout) (i : Pid) : KernelM α := do
  Prog.modify fun s => { s with current := some i }
  writeCsr .stvec L.smodeTrapVector
  let p ← proc i
  onPhys (store (tfKernelSp p.trapframe) p.kstack)
  let satp ← readCsr .satp
  onPhys (store (tfKernelSatp p.trapframe) satp)
  onPhys (store (tfKernelTrap p.trapframe) L.smodeTrapHandler)
  let x ← readCsr .sstatus
  writeCsr .sstatus (x &&& ~~~SSTATUS_SPP ||| SSTATUS_SPIE)
  let epc ← onPhys (load (tfEpc p.trapframe))
  writeCsr .sepc epc
  callReturnToUser L i p.trapframe (MAKE_SATP p.pagetable)

/-- What the loop of `insert_to_ready_queue` finds: `proc` itself, or the last
    element of the queue. -/
inductive Browse where
  | inQueue
  | last (p : Pid)
  | endless

/-- The loop of `insert_to_ready_queue` from `p` on. A walk that makes NPROC
    steps without meeting `proc` or the end of the queue never stops. -/
def browseQueue (procs : Pid → Process) (proc : Pid) : ℕ → Pid → Browse
  | 0, _ => .endless
  | fuel + 1, p =>
    match (procs p).queueNext with
    | none => if p = proc then .inQueue else .last p
    | some q => if p = proc then .inQueue else browseQueue procs proc fuel q

/-- `insert_to_ready_queue` (`kernel/sched.c` lines 13–36). -/
def insertToReadyQueue (i : Pid) : KernelM Unit := do
  let p ← proc i
  sprint (.text "going to insert process %d to ready queue.\n" [p.pid])
  match ← Prog.gets Kernel.readyQueueHead with
  | none => do
    setProc i fun p => { p with status := .READY }
    setProc i fun p => { p with queueNext := none }
    Prog.modify fun s => { s with readyQueueHead := some i }
  | some head => do
    match browseQueue (← Prog.gets Kernel.procs) i 32 head with
    | .inQueue => return
    | .endless => Prog.halt .spin
    | .last p => do
      setProc p fun q => { q with queueNext := some i }
      setProc i fun p => { p with status := .READY }
      setProc i fun p => { p with queueNext := none }

/-- The loop of `schedule` over the process table when the queue is empty; the
    result is `should_shutdown`. -/
def checkShutdown : List Pid → KernelM Bool
  | [] => return true
  | i :: is => do
    let p ← proc i
    if p.status ≠ .FREE ∧ p.status ≠ .ZOMBIE then do
      sprint (.text "ready queue empty, but process %d is not in free/zombie state:%d\n"
        [BitVec.ofNat 64 i, BitVec.ofNat 64 p.status.ctorIdx])
      let _ ← checkShutdown is
      return false
    else checkShutdown is

/-- `schedule` (`kernel/sched.c` lines 45–73). The statement
    `current->status == RUNNING;` is a comparison, so it has no effect. -/
def schedule {α : Type} (L : Layout) : KernelM α := do
  match ← Prog.gets Kernel.readyQueueHead with
  | none => do
    let shouldShutdown ← checkShutdown (List.finRange 32)
    if shouldShutdown then do
      sprint (.text "no more ready processes, system shutdown now.\n" [])
      Prog.halt (.shutdown 0)
    else
      Prog.halt
        (.panic "Not handled: we should let system wait for unfinished processes.\n" [])
  | some i => do
    Prog.modify fun s => { s with current := some i }
    let p ← proc i
    if p.status ≠ .READY then Prog.halt (.assertion "current->status == READY")
    else do
      Prog.modify fun s => { s with readyQueueHead := p.queueNext }
      sprint (.schedule p.pid)
      switchTo L i

end Pke
