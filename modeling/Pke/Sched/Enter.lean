import Pke.Sched.Queue

/-!
# Entering the kernel

A trap of the current process saves its registers and runs the handler for its
cause. `trap_eq` reduces a trap to `dispatchTrap` in the state `entered`, and
`handleSyscall_eq` a system call to its handler, with the number and arguments
the user program passed in its registers.
-/

namespace Pke

open Lib

/-- The state in which `smode_trap_handler` looks at the cause of the trap. -/
def entered (t : TrapInput) (c : Pid) (s : Kernel) : Kernel :=
  let s₁ := enterTrap t s
  { s₁ with phys := { s₁.phys with
      mem := store64 s₁.phys.mem (tfEpc (s.procs c).trapframe) t.sepc } }

theorem enterTrap_csr (t : TrapInput) (s : Kernel) {r : Csr} (h1 : r ≠ .sscratch)
    (h2 : r ≠ .satp) :
    (enterTrap t s).csr r = Function.update (Function.update (Function.update
      (Function.update s.csr .sepc t.sepc) .scause t.scause) .stval t.stval)
      .sstatus (s.csr .sstatus &&& ~~~SSTATUS_SPP) r :=
  smodeTrapVector_csr _ _ h1 h2

theorem enterTrap_mem (t : TrapInput) (s : Kernel) :
    (enterTrap t s).phys.mem = trapSave s.phys.mem (s.csr .sscratch) t.regs := by
  unfold enterTrap
  dsimp only
  rw [smodeTrapVector_mem]
  simp

theorem spp_cleared (x : Word) : x &&& ~~~SSTATUS_SPP &&& SSTATUS_SPP = 0 := by
  rw [BitVec.and_assoc, BitVec.and_comm (~~~SSTATUS_SPP), BitVec.and_not_self]
  simp

/-- The end of `smode_trap_handler`. -/
def resume (L : Layout) : KernelM Unit := do
  let i ← currentProc
  switchTo L i

theorem resume_eq {L : Layout} {s : Kernel} {c : Pid} (h : s.current = some c) :
    resume L s = returning L c (afterSwitch L c s) := by
  have hcur : currentProc s = .ret c s := by
    rw [currentProc, Prog.bind_of_ret (Prog.gets_apply _ _), h]
    rfl
  rw [resume, Prog.bind_of_ret hcur, switchTo_eq]

/-- A trap that the hart can take is handled by the case for its cause. -/
theorem trap_eq {L : Layout} {t : TrapInput} {s : Kernel} {c : Pid} (hcur : s.current = some c)
    (hc : CanEnter L s c) :
    trap L t s =
      (dispatchTrap L (s.procs c).trapframe t.scause >>= fun _ => resume L) (entered t c s) := by
  have hspp : ¬ (enterTrap t s).csr .sstatus &&& SSTATUS_SPP ≠ 0 := by
    rw [enterTrap_csr t s (by decide) (by decide), Function.update_self, spp_cleared]
    exact fun h => h rfl
  have hsepc : (enterTrap t s).csr .sepc = t.sepc := by
    rw [enterTrap_csr t s (by decide) (by decide)]
    simp
  have hcause : (enterTrap t s).csr .scause = t.scause := by
    rw [enterTrap_csr t s (by decide) (by decide)]
    simp
  have hcur' : (enterTrap t s).current = some c := hcur
  rw [trap, Prog.bind_of_ret (Prog.gets_apply _ _), hcur]
  dsimp only
  rw [Prog.bind_of_ret (Prog.gets_apply _ _), id, if_pos hc,
    Prog.bind_of_ret (Prog.modify_apply _ _), smodeTrapHandler, readCsr,
    Prog.bind_of_ret (Prog.gets_apply _ _), if_neg hspp, Prog.bind_of_ret (Prog.gets_apply _ _),
    hcur']
  dsimp only
  rw [proc, Prog.bind_of_ret (Prog.gets_apply _ _), readCsr, Prog.bind_of_ret (Prog.gets_apply _ _),
    hsepc]
  have hstore : onPhys (store (tfEpc ((enterTrap t s).procs c).trapframe) t.sepc) (enterTrap t s) =
      .ret () (entered t c s) := rfl
  have hcause' : (entered t c s).csr .scause = t.scause := hcause
  rw [Prog.bind_of_ret hstore, readCsr, Prog.bind_of_ret (Prog.gets_apply _ _), hcause']
  rfl

theorem trap_of_not_canEnter {L : Layout} {t : TrapInput} {s : Kernel} {c : Pid}
    (hcur : s.current = some c) (hc : ¬ CanEnter L s c) : trap L t s = .halt .trapEntry := by
  rw [trap, Prog.bind_of_ret (Prog.gets_apply _ _), hcur]
  dsimp only
  rw [Prog.bind_of_ret (Prog.gets_apply _ _), id, if_neg hc]
  rfl

/-- A field behind the registers of a trapframe is not one of their slots. -/
theorem frameSlot_ne_field (f : Word) (r : Reg) {k : ℕ} (hk : 31 ≤ k) (hk' : k < 2 ^ 32) :
    ¬ (f + BitVec.ofNat 64 (8 * k)) >>> 3 = frameSlot f r >>> 3 := by
  have := r.index_lt
  unfold frameSlot Reg.offset
  rw [dword_inj f hk' (by omega)]
  omega

theorem load_field_frameSlot (m : Mem) (f v : Word) (r : Reg) {k : ℕ} (hk : 31 ≤ k)
    (hk' : k < 2 ^ 32) :
    load64 (store64 m (f + BitVec.ofNat 64 (8 * k)) v) (frameSlot f r) =
      load64 m (frameSlot f r) := by
  rw [load64_store64, if_neg (frameSlot_ne_field f r hk hk')]

/-- The registers of the dispatched process come from its trapframe. -/
theorem afterSwitch_reg (L : Layout) (i : Pid) (s : Kernel) (r : Reg) :
    (afterSwitch L i s).regs r = load64 s.phys.mem (frameSlot (s.procs i).trapframe r) := by
  have h1 := fun m v => load_field_frameSlot m (s.procs i).trapframe v r (k := 31)
    (by omega) (by omega)
  have h2 := fun m v => load_field_frameSlot m (s.procs i).trapframe v r (k := 32)
    (by omega) (by omega)
  have h3 := fun m v => load_field_frameSlot m (s.procs i).trapframe v r (k := 34)
    (by omega) (by omega)
  exact (h2 _ _).trans ((h3 _ _).trans (h1 _ _))

/-- The handler finds the registers of the user program in the trapframe, but
    for `t6`. -/
theorem entered_reg {t : TrapInput} {c : Pid} {s : Kernel}
    (hscratch : s.csr .sscratch = (s.procs c).trapframe) {r : Reg} (hr : r ≠ .t6) :
    load64 (entered t c s).phys.mem (frameSlot (s.procs c).trapframe r) = t.regs r := by
  have h := load_field_frameSlot (enterTrap t s).phys.mem (s.procs c).trapframe t.sepc r
    (k := 33) (by omega) (by omega)
  refine h.trans ?_
  rw [enterTrap_mem, hscratch, trapSave_load, savedReg, if_neg hr]

/-- The state in which `do_syscall` runs. -/
def inSyscall (t : TrapInput) (c : Pid) (s : Kernel) : Kernel :=
  let s₁ := entered t c s
  { s₁ with phys := { s₁.phys with
      mem := store64 s₁.phys.mem (tfEpc (s.procs c).trapframe)
        (load64 s₁.phys.mem (tfEpc (s.procs c).trapframe) + 4) } }

theorem inSyscall_reg {t : TrapInput} {c : Pid} {s : Kernel}
    (hscratch : s.csr .sscratch = (s.procs c).trapframe) {r : Reg} (hr : r ≠ .t6) :
    load64 (inSyscall t c s).phys.mem (frameSlot (s.procs c).trapframe r) = t.regs r := by
  refine Eq.trans ?_ (entered_reg hscratch hr)
  exact load_field_frameSlot _ _ _ r (k := 33) (by omega) (by omega)

/-- A system call runs its handler and stores the result in the trapframe. -/
theorem handleSyscall_eq {L : Layout} {t : TrapInput} {c : Pid} {s : Kernel}
    (hscratch : s.csr .sscratch = (s.procs c).trapframe) :
    handleSyscall L (s.procs c).trapframe (entered t c s) = (do
      let r ← doSyscall L (t.regs .a0) (t.regs .a1) (t.regs .a2)
      onPhys (store (frameSlot (s.procs c).trapframe .a0) r) : KernelM Unit)
        (inSyscall t c s) := by
  have h0 := inSyscall_reg (t := t) hscratch (r := .a0) (by decide)
  have h1 := inSyscall_reg (t := t) hscratch (r := .a1) (by decide)
  have h2 := inSyscall_reg (t := t) hscratch (r := .a2) (by decide)
  have hload : ∀ (a : Word) (s : Kernel), onPhys (load a) s = .ret (load64 s.phys.mem a) s :=
    fun _ _ => rfl
  have hstore : ∀ v, onPhys (store (tfEpc (s.procs c).trapframe) v) (entered t c s) =
      .ret () { entered t c s with phys := { (entered t c s).phys with
        mem := store64 (entered t c s).phys.mem (tfEpc (s.procs c).trapframe) v } } := fun _ => rfl
  rw [handleSyscall, Prog.bind_of_ret (hload _ _), Prog.bind_of_ret (hstore _),
    Prog.bind_of_ret (hload _ _), Prog.bind_of_ret (hload _ _), Prog.bind_of_ret (hload _ _)]
  change (do
      let r ← doSyscall L (load64 (inSyscall t c s).phys.mem (frameSlot (s.procs c).trapframe .a0))
        (load64 (inSyscall t c s).phys.mem (frameSlot (s.procs c).trapframe .a1))
        (load64 (inSyscall t c s).phys.mem (frameSlot (s.procs c).trapframe .a2))
      onPhys (store (frameSlot (s.procs c).trapframe .a0) r) : KernelM Unit) (inSyscall t c s) = _
  rw [h0, h1, h2]

end Pke
