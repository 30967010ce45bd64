import Pke.Kernel.Trap

/-!
# The timer interrupt: the code

`timerinit` (`kernel/machine/minit.c`) and `kernel/machine/mtrap.c`. The timer of
the hart interrupts to M-mode, whose handler passes the interrupt on to S-mode by
the bit SSIP of `sip`; there `handle_mtimer_trap` (`kernel/strap.c`) counts it and
clears `sip`.

M-mode is entered at any moment, also between two statements of
`handle_mtimer_trap`. S-mode runs with its interrupts off, so SSIP is only looked
at in user mode. `Timer.step` is the hart with the clock, cut where this matters.
-/

namespace Pke

open Lib

/-- `kernel/config.h` line 8. -/
def TIMER_INTERVAL : Word := 1000000

/-- `kernel/riscv.h` line 60. -/
def SIP_SSIP : Word := 1 <<< 1

/-- What S-mode does next: kernel code other than `handle_mtimer_trap`, user code, or
    one of the three statements of `handle_mtimer_trap`. -/
inductive Phase where
  | kernel | user | print | count | clear
  deriving DecidableEq

/-- The registers of the timer, what the two modes share, and what they printed about
    it. `fired` counts the timer interrupts to M-mode, and `lost` those of them that
    found SSIP set: no code reads the two. -/
structure Timer where
  mtime : Word
  mtimecmp : Word
  sip : Word
  gTicks : Word
  console : List Msg
  phase : Phase
  fired : ℕ
  lost : ℕ

/-- SSIP is set. -/
def Timer.pending (v : Timer) : Prop := v.sip &&& SIP_SSIP ≠ 0

instance (v : Timer) : Decidable v.pending := inferInstanceAs (Decidable (_ ≠ _))

/-! ## M-mode -/

/-- M-mode code. -/
abbrev MachineM := Prog Timer Halt

/-- `timerinit` (`kernel/machine/minit.c` lines 72–78). -/
def timerinit : MachineM Unit :=
  Prog.modify fun v => { v with mtimecmp := v.mtime + TIMER_INTERVAL }

/-- `handle_timer` (`kernel/machine/mtrap.c` lines 17–24). -/
def handleTimer : MachineM Unit := do
  Prog.modify fun v => { v with mtimecmp := v.mtimecmp + TIMER_INTERVAL }
  Prog.modify fun v => { v with sip := SIP_SSIP }

def handleInstructionAccessFault : MachineM Unit :=
  Prog.halt (.panic "Instruction access fault!" [])
def handleLoadAccessFault : MachineM Unit := Prog.halt (.panic "Load access fault!" [])
def handleStoreAccessFault : MachineM Unit := Prog.halt (.panic "Store/AMO access fault!" [])
def handleIllegalInstruction : MachineM Unit := Prog.halt (.panic "Illegal instruction!" [])
def handleMisalignedLoad : MachineM Unit := Prog.halt (.panic "Misaligned Load!" [])
def handleMisalignedStore : MachineM Unit := Prog.halt (.panic "Misaligned AMO!" [])

def CAUSE_MTIMER : Word := 0x8000000000000007
def CAUSE_FETCH_ACCESS : Word := 1
def CAUSE_ILLEGAL_INSTRUCTION : Word := 2
def CAUSE_MISALIGNED_LOAD : Word := 4
def CAUSE_LOAD_ACCESS : Word := 5
def CAUSE_MISALIGNED_STORE : Word := 6
def CAUSE_STORE_ACCESS : Word := 7

/-- The call `sprint(fmt, args)` in M-mode. -/
def machineSprint (fmt : String) (args : List Word) : MachineM Unit :=
  Prog.modify fun v => { v with console := v.console ++ [.text fmt args] }

/-- `handle_mtrap` (`kernel/machine/mtrap.c` lines 29–63). The case of
    CAUSE_LOAD_ACCESS has no `break`. -/
def handleMtrap (mcause mepc mtval : Word) : MachineM Unit :=
  if mcause = CAUSE_MTIMER then handleTimer
  else if mcause = CAUSE_FETCH_ACCESS then handleInstructionAccessFault
  else if mcause = CAUSE_LOAD_ACCESS then do
    handleLoadAccessFault
    handleStoreAccessFault
  else if mcause = CAUSE_STORE_ACCESS then handleStoreAccessFault
  else if mcause = CAUSE_ILLEGAL_INSTRUCTION then handleIllegalInstruction
  else if mcause = CAUSE_MISALIGNED_LOAD then handleMisalignedLoad
  else if mcause = CAUSE_MISALIGNED_STORE then handleMisalignedStore
  else do
    machineSprint "machine trap(): unexpected mscause %p\n" [mcause]
    machineSprint "            mepc=%p mtval=%p\n" [mepc, mtval]
    Prog.halt (.panic "unexpected exception happened in M-mode.\n" [])

/-! ## The hart -/

/-- What happens next: the clock goes on, a trap to M-mode, and in S- and U-mode
    another trap, the interrupt by SSIP, the next statement of `handle_mtimer_trap`
    or the return to user mode. -/
inductive TimerEvent where
  | clock (cycles : ℕ)
  | mtrap (mcause mepc mtval : Word)
  | enter
  | take
  | statement
  | leave
  deriving DecidableEq

/-- One event. The clock stops before `mtime` or `mtimecmp` come to the end of their
    64 bits. -/
def Timer.step (v : Timer) : TimerEvent → Option Timer
  | .clock cycles =>
    if v.mtime.toNat + cycles + TIMER_INTERVAL.toNat < 2 ^ 64 then
      some { v with mtime := v.mtime + BitVec.ofNat 64 cycles }
    else none
  | .mtrap mcause mepc mtval =>
    if mcause = CAUSE_MTIMER → v.mtimecmp ≤ v.mtime then
      match handleMtrap mcause mepc mtval v with
      | .ret _ v' =>
        some { v' with fired := v.fired + 1, lost := v.lost + if v.pending then 1 else 0 }
      | _ => none
    else none
  | .enter => if v.phase = .user then some { v with phase := .kernel } else none
  | .take => if v.phase = .user ∧ v.pending then some { v with phase := .print } else none
  | .statement =>
    match v.phase with
    | .print => some { v with
        console := v.console ++ [.text "Ticks %d\n" [v.gTicks]], phase := .count }
    | .count => some { v with gTicks := v.gTicks + 1, phase := .clear }
    | .clear => some { v with sip := 0, phase := .kernel }
    | .kernel | .user => none
  | .leave => if v.phase = .kernel then some { v with phase := .user } else none

/-- A sequence of events. -/
def Timer.run (v : Timer) (es : List TimerEvent) : Option Timer := es.foldlM Timer.step v

/-- The hart when `m_start` sets up the timer: nothing has been counted. -/
def Timer.cold (v : Timer) : Timer :=
  { v with sip := 0, gTicks := 0, console := [], phase := .kernel, fired := 0, lost := 0 }

end Pke
