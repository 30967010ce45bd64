import Pke.Kernel.Elf

/-!
# Traps and boot: the code

`kernel/syscall.c`, `kernel/strap.c` and `kernel/kernel.c`, and the machine they
run on. From the point of view of user mode the system makes two kinds of
steps: the current process stores a byte to its memory, or it traps. A trap
runs the trap vector and then `smode_trap_handler` to its end.
-/

namespace Pke

open Lib

/-! ## System calls -/

/-- The bytes from an address up to the first NUL, below `PHYS_TOP`. -/
def cstring (m : Mem) : ℕ → Word → Option (List (BitVec 8))
  | 0, _ => none
  | n + 1, a =>
    if load8 m a = 0 then some [] else (cstring m n (a + 1)).map fun bs => load8 m a :: bs

/-- The call `sprint(pa)` with a format string in user memory. The kernel maps
    `[KERN_BASE, PHYS_TOP)`. -/
def sprintUser (pa : Word) : KernelM Unit := do
  let m ← Prog.gets fun s => s.phys.mem
  if pa < KERN_BASE then Prog.halt .fault
  else match cstring m (PHYS_TOP.toNat - pa.toNat) pa with
    | none => Prog.halt .fault
    | some bs => sprint (.user bs)

/-- `sys_user_print` (`kernel/syscall.c` lines 22–29). -/
def sysUserPrint (buf _n : Word) : KernelM Word := do
  match ← Prog.gets Kernel.current with
  | none => Prog.halt (.assertion "current")
  | some i => do
    let p ← proc i
    let pa ← onPhys (userVaToPa p.pagetable buf)
    sprintUser pa
    return 0

/-- `sys_user_exit` (`kernel/syscall.c` lines 34–40). -/
def sysUserExit (L : Layout) (code : Word) : KernelM Word := do
  sprint (.text "User exit with code:%d.\n" [code])
  freeProcess (← currentProc)
  let _ ← (schedule L : KernelM Unit)
  return 0

/-- `sys_user_allocate_page` (`kernel/syscall.c` lines 45–53). -/
def sysUserAllocatePage : KernelM Word := do
  let pa ← onPhys allocPage
  let va ← Prog.gets Kernel.gUfreePage
  Prog.modify fun s => { s with gUfreePage := s.gUfreePage + PGSIZE }
  let p ← proc (← currentProc)
  onPhys (userVmMap p.pagetable va PGSIZE pa (protToType (PROT_WRITE ||| PROT_READ) 1))
  return va

/-- `sys_user_free_page` (`kernel/syscall.c` lines 58–61). -/
def sysUserFreePage (va : Word) : KernelM Word := do
  let p ← proc (← currentProc)
  onPhys (userVmUnmap p.pagetable va PGSIZE true)
  return 0

/-- `sys_user_fork` (`kernel/syscall.c` lines 66–69). -/
def sysUserFork (L : Layout) : KernelM Word := do
  sprint (.text "User call fork.\n" [])
  doFork L (← currentProc)

/-- `sys_user_wait` (`kernel/syscall.c` lines 71–73). -/
def sysUserWait (L : Layout) (pid : Word) : KernelM Word := wait L (pid.setWidth 32)

/-- `sys_user_yield` (`kernel/syscall.c` lines 78–89). -/
def sysUserYield (L : Layout) : KernelM Word := do
  let i ← currentProc
  setProc i fun p => { p with status := .READY }
  insertToReadyQueue i
  let _ ← (schedule L : KernelM Unit)
  return 0

def SYS_user_print : Word := 64
def SYS_user_exit : Word := 65
def SYS_user_allocate_page : Word := 66
def SYS_user_free_page : Word := 67
def SYS_user_fork : Word := 68
def SYS_user_yield : Word := 69
def SYS_user_wait : Word := 70

/-- `do_syscall` (`kernel/syscall.c` lines 95–114); the arguments behind `a2` are
    not read. -/
def doSyscall (L : Layout) (a0 a1 a2 : Word) : KernelM Word :=
  if a0 = SYS_user_print then sysUserPrint a1 a2
  else if a0 = SYS_user_exit then sysUserExit L a1
  else if a0 = SYS_user_allocate_page then sysUserAllocatePage
  else if a0 = SYS_user_free_page then sysUserFreePage a1
  else if a0 = SYS_user_fork then sysUserFork L
  else if a0 = SYS_user_yield then sysUserYield L
  else if a0 = SYS_user_wait then sysUserWait L a1
  else Prog.halt (.panic "Unknown syscall %ld \n" [a0])

/-! ## Trap handling -/

/-- `handle_syscall` (`kernel/strap.c` lines 19–32). -/
def handleSyscall (L : Layout) (tf : Word) : KernelM Unit := do
  let epc ← onPhys (load (tfEpc tf))
  onPhys (store (tfEpc tf) (epc + 4))
  let a0 ← onPhys (load (frameSlot tf .a0))
  let a1 ← onPhys (load (frameSlot tf .a1))
  let a2 ← onPhys (load (frameSlot tf .a2))
  let r ← doSyscall L a0 a1 a2
  onPhys (store (frameSlot tf .a0) r)

/-- `handle_mtimer_trap` (`kernel/strap.c` lines 37–46). -/
def handleMtimerTrap : KernelM Unit := do
  let ticks ← Prog.gets Kernel.gTicks
  sprint (.text "Ticks %d\n" [ticks])
  Prog.modify fun s => { s with gTicks := s.gTicks + 1 }
  writeCsr .sip 0

def CAUSE_USER_ECALL : Word := 8
def CAUSE_LOAD_PAGE_FAULT : Word := 0xd
def CAUSE_STORE_PAGE_FAULT : Word := 0xf
def CAUSE_MTIMER_S_TRAP : Word := 0x8000000000000001

/-- `handle_user_page_fault` (`kernel/strap.c` lines 53–64). The result of
    `map_pages` is not looked at. -/
def handleUserPageFault (mcause _sepc stval : Word) : KernelM Unit := do
  sprint (.text "handle_page_fault: %lx\n" [stval])
  if mcause = CAUSE_STORE_PAGE_FAULT then do
    let p ← proc (← currentProc)
    let pa ← onPhys allocPage
    let _ ← onPhys (mapPages p.pagetable stval 1 pa (protToType (PROT_WRITE ||| PROT_READ) 1))
  else sprint (.text "unknown page fault.\n" [])

/-- `rrsched` (`kernel/strap.c` lines 69–84). -/
def rrsched (L : Layout) : KernelM Unit := do
  let i ← currentProc
  setProc i fun p => { p with tickCount := p.tickCount + 1 }
  let p ← proc i
  if TIME_SLICE_LEN < p.tickCount then do
    setProc i fun p => { p with tickCount := 0 }
    setProc i fun p => { p with status := .READY }
    insertToReadyQueue i
    schedule L
  else return

/-- The `switch` of `smode_trap_handler` for the process with trapframe `tf`. -/
def dispatchTrap (L : Layout) (tf cause : Word) : KernelM Unit :=
  if cause = CAUSE_USER_ECALL then handleSyscall L tf
  else if cause = CAUSE_MTIMER_S_TRAP then do
    handleMtimerTrap
    rrsched L
  else if cause = CAUSE_STORE_PAGE_FAULT ∨ cause = CAUSE_LOAD_PAGE_FAULT then do
    let sepc ← readCsr .sepc
    let stval ← readCsr .stval
    handleUserPageFault cause sepc stval
  else do
    let sepc ← readCsr .sepc
    let stval ← readCsr .stval
    sprint (.text "smode_trap_handler(): unexpected scause %p\n" [cause])
    sprint (.text "            sepc=%p stval=%p\n" [sepc, stval])
    Prog.halt (.panic "unexpected exception happened.\n" [])

/-- `smode_trap_handler` (`kernel/strap.c` lines 90–125). -/
def smodeTrapHandler (L : Layout) : KernelM Unit := do
  let sstatus ← readCsr .sstatus
  if sstatus &&& SSTATUS_SPP ≠ 0 then Prog.halt (.panic "usertrap: not from user mode" [])
  else match ← Prog.gets Kernel.current with
    | none => Prog.halt (.assertion "current")
    | some i => do
      let p ← proc i
      let sepc ← readCsr .sepc
      onPhys (store (tfEpc p.trapframe) sepc)
      let cause ← readCsr .scause
      dispatchTrap L p.trapframe cause
      let i ← currentProc
      switchTo L i

end Pke
