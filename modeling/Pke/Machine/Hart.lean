import Pke.Machine.Memory

/-!
# Registers and the instructions of the trap code

The part of RV64 that `util/load_store.S`, `kernel/strap_vector.S` and
`kernel/machine/mtrap_vector.S` use: the 31 general registers, the control and
status registers they touch, and straight-line code over both. `x0` is not
modelled; the trap code never names it except in `sfence.vma zero, zero`.

`Reg.offset` is the offset of a register in the C struct `riscv_regs`
(`kernel/riscv.h` lines 187–219); `storeAllRegisters` and `restoreAllRegisters`
are the two assembler macros, with the offsets as they are written there.
-/

namespace Pke

/-- The general registers, in the order of `riscv_regs`. -/
inductive Reg where
  | ra | sp | gp | tp | t0 | t1 | t2 | s0 | s1
  | a0 | a1 | a2 | a3 | a4 | a5 | a6 | a7
  | s2 | s3 | s4 | s5 | s6 | s7 | s8 | s9 | s10 | s11
  | t3 | t4 | t5 | t6
  deriving DecidableEq, Repr

/-- The control and status registers of the trap paths. -/
inductive Csr where
  | sscratch | mscratch | satp | stvec | sstatus | sepc | scause | stval | sip | mhartid
  deriving DecidableEq, Repr

/-- A register file. -/
abbrev Regs := Reg → Word

/-- One hart and the memory. -/
structure Machine where
  regs : Regs
  csr : Csr → Word
  mem : Mem

/-- The instructions of the trap code, with `la` and `li` as they are written in
    the source. -/
inductive Instr where
  | sd (rs : Reg) (off : ℕ) (base : Reg)
  | ld (rd : Reg) (off : ℕ) (base : Reg)
  | addi (rd rs : Reg) (imm : ℕ)
  | add (rd rs₁ rs₂ : Reg)
  | mul (rd rs₁ rs₂ : Reg)
  | li (rd : Reg) (imm : ℕ)
  | la (rd : Reg) (symbol : Word)
  | csrrw (rd : Reg) (csr : Csr) (rs : Reg)
  | csrr (rd : Reg) (csr : Csr)
  | csrw (csr : Csr) (rs : Reg)
  | sfenceVma

namespace Machine

def setReg (M : Machine) (r : Reg) (v : Word) : Machine :=
  { M with regs := Function.update M.regs r v }

def setCsr (M : Machine) (c : Csr) (v : Word) : Machine :=
  { M with csr := Function.update M.csr c v }

@[simp] theorem setReg_regs (M : Machine) (r : Reg) (v : Word) :
    (M.setReg r v).regs = Function.update M.regs r v := rfl

@[simp] theorem setReg_csr (M : Machine) (r : Reg) (v : Word) : (M.setReg r v).csr = M.csr := rfl

@[simp] theorem setReg_mem (M : Machine) (r : Reg) (v : Word) : (M.setReg r v).mem = M.mem := rfl

@[simp] theorem setCsr_regs (M : Machine) (c : Csr) (v : Word) : (M.setCsr c v).regs = M.regs := rfl

@[simp] theorem setCsr_csr (M : Machine) (c : Csr) (v : Word) :
    (M.setCsr c v).csr = Function.update M.csr c v := rfl

@[simp] theorem setCsr_mem (M : Machine) (c : Csr) (v : Word) : (M.setCsr c v).mem = M.mem := rfl

/-- One instruction. -/
def exec (M : Machine) : Instr → Machine
  | .sd rs off base =>
    { M with mem := store64 M.mem (M.regs base + BitVec.ofNat 64 off) (M.regs rs) }
  | .ld rd off base => M.setReg rd (load64 M.mem (M.regs base + BitVec.ofNat 64 off))
  | .addi rd rs imm => M.setReg rd (M.regs rs + BitVec.ofNat 64 imm)
  | .add rd rs₁ rs₂ => M.setReg rd (M.regs rs₁ + M.regs rs₂)
  | .mul rd rs₁ rs₂ => M.setReg rd (M.regs rs₁ * M.regs rs₂)
  | .li rd imm => M.setReg rd (BitVec.ofNat 64 imm)
  | .la rd symbol => M.setReg rd symbol
  | .csrrw rd csr rs => (M.setCsr csr (M.regs rs)).setReg rd (M.csr csr)
  | .csrr rd csr => M.setReg rd (M.csr csr)
  | .csrw csr rs => M.setCsr csr (M.regs rs)
  | .sfenceVma => M

/-- Straight-line code. -/
def run (M : Machine) (code : List Instr) : Machine := code.foldl exec M

@[simp] theorem run_nil (M : Machine) : M.run [] = M := rfl

@[simp] theorem run_cons (M : Machine) (i : Instr) (code : List Instr) :
    M.run (i :: code) = (M.exec i).run code := rfl

theorem run_append (M : Machine) (c₁ c₂ : List Instr) : M.run (c₁ ++ c₂) = (M.run c₁).run c₂ :=
  List.foldl_append

end Machine

/-! ## `struct riscv_regs` and the two macros -/

/-- The position of a register in `riscv_regs`. -/
def Reg.index : Reg → ℕ
  | .ra => 0 | .sp => 1 | .gp => 2 | .tp => 3 | .t0 => 4 | .t1 => 5 | .t2 => 6 | .s0 => 7
  | .s1 => 8 | .a0 => 9 | .a1 => 10 | .a2 => 11 | .a3 => 12 | .a4 => 13 | .a5 => 14 | .a6 => 15
  | .a7 => 16 | .s2 => 17 | .s3 => 18 | .s4 => 19 | .s5 => 20 | .s6 => 21 | .s7 => 22 | .s8 => 23
  | .s9 => 24 | .s10 => 25 | .s11 => 26 | .t3 => 27 | .t4 => 28 | .t5 => 29 | .t6 => 30

/-- The offset of a register in `riscv_regs`: every field is a `uint64`. -/
def Reg.offset (r : Reg) : ℕ := 8 * r.index

/-- All registers but `t6`, in the order of `riscv_regs`. -/
def Reg.upToT5 : List Reg :=
  [.ra, .sp, .gp, .tp, .t0, .t1, .t2, .s0, .s1, .a0, .a1, .a2, .a3, .a4, .a5, .a6, .a7,
    .s2, .s3, .s4, .s5, .s6, .s7, .s8, .s9, .s10, .s11, .t3, .t4, .t5]

/-- The macro `store_all_registers` (`util/load_store.S` lines 4–37). -/
def storeAllRegisters : List Instr :=
  [.sd .ra 0 .t6, .sd .sp 8 .t6, .sd .gp 16 .t6, .sd .tp 24 .t6, .sd .t0 32 .t6, .sd .t1 40 .t6,
    .sd .t2 48 .t6, .sd .s0 56 .t6, .sd .s1 64 .t6, .sd .a0 72 .t6, .sd .a1 80 .t6,
    .sd .a2 88 .t6, .sd .a3 96 .t6, .sd .a4 104 .t6, .sd .a5 112 .t6, .sd .a6 120 .t6,
    .sd .a7 128 .t6, .sd .s2 136 .t6, .sd .s3 144 .t6, .sd .s4 152 .t6, .sd .s5 160 .t6,
    .sd .s6 168 .t6, .sd .s7 176 .t6, .sd .s8 184 .t6, .sd .s9 192 .t6, .sd .s10 200 .t6,
    .sd .s11 208 .t6, .sd .t3 216 .t6, .sd .t4 224 .t6, .sd .t5 232 .t6, .sd .t6 240 .t6]

/-- The macro `restore_all_registers` (`util/load_store.S` lines 40–72). -/
def restoreAllRegisters : List Instr :=
  [.ld .ra 0 .t6, .ld .sp 8 .t6, .ld .gp 16 .t6, .ld .tp 24 .t6, .ld .t0 32 .t6, .ld .t1 40 .t6,
    .ld .t2 48 .t6, .ld .s0 56 .t6, .ld .s1 64 .t6, .ld .a0 72 .t6, .ld .a1 80 .t6,
    .ld .a2 88 .t6, .ld .a3 96 .t6, .ld .a4 104 .t6, .ld .a5 112 .t6, .ld .a6 120 .t6,
    .ld .a7 128 .t6, .ld .s2 136 .t6, .ld .s3 144 .t6, .ld .s4 152 .t6, .ld .s5 160 .t6,
    .ld .s6 168 .t6, .ld .s7 176 .t6, .ld .s8 184 .t6, .ld .s9 192 .t6, .ld .s10 200 .t6,
    .ld .s11 208 .t6, .ld .t3 216 .t6, .ld .t4 224 .t6, .ld .t5 232 .t6, .ld .t6 240 .t6]

theorem Reg.index_lt (r : Reg) : r.index < 31 := by cases r <;> decide

theorem Reg.index_injective : Function.Injective Reg.index := by
  have hinv : Function.LeftInverse (fun k => (Reg.upToT5 ++ [Reg.t6]).getD k Reg.ra) Reg.index := by
    intro r
    cases r <;> rfl
  exact hinv.injective

theorem Reg.mem_upToT5 (r : Reg) : r ∈ Reg.upToT5 ↔ r ≠ .t6 := by cases r <;> decide

/-- The offsets written in the macro are those of the C struct. -/
theorem storeAllRegisters_eq :
    storeAllRegisters = (Reg.upToT5 ++ [Reg.t6]).map fun r => .sd r r.offset .t6 := rfl

theorem restoreAllRegisters_eq :
    restoreAllRegisters = (Reg.upToT5.map fun r => .ld r r.offset .t6) ++ [.ld .t6 240 .t6] := rfl

/-! ## What the macros do -/

/-- The address of the slot of a register in the frame at `f`. -/
def frameSlot (f : Word) (r : Reg) : Word := f + BitVec.ofNat 64 r.offset

/-- Memory after saving the registers `l` of `regs` in the frame at `f`. -/
def saveRegs (m : Mem) (f : Word) (regs : Regs) (l : List Reg) : Mem :=
  l.foldl (fun m r => store64 m (frameSlot f r) (regs r)) m

theorem run_sd (l : List Reg) (M : Machine) :
    M.run (l.map fun r => .sd r r.offset .t6) =
      { M with mem := saveRegs M.mem (M.regs .t6) M.regs l } := by
  induction l generalizing M with
  | nil => rfl
  | cons r l ih => rw [List.map_cons, Machine.run_cons, ih]; rfl

/-- The doublewords at different places behind an address are distinct. -/
theorem dword_inj (f : Word) {a b : ℕ} (ha : a < 2 ^ 32) (hb : b < 2 ^ 32) :
    (f + BitVec.ofNat 64 (8 * a)) >>> 3 = (f + BitVec.ofNat 64 (8 * b)) >>> 3 ↔ a = b := by
  constructor
  · intro h
    have h' := congrArg BitVec.toNat h
    simp only [BitVec.toNat_ushiftRight, BitVec.toNat_add, BitVec.toNat_ofNat,
      Nat.shiftRight_eq_div_pow] at h'
    have := f.isLt
    omega
  · rintro rfl; rfl

/-- The slots of a frame are distinct doublewords. -/
theorem frameSlot_dword {f : Word} {r r' : Reg} :
    frameSlot f r >>> 3 = frameSlot f r' >>> 3 ↔ r = r' := by
  have h1 := r.index_lt
  have h2 := r'.index_lt
  unfold frameSlot Reg.offset
  rw [dword_inj f (by omega) (by omega)]
  exact Reg.index_injective.eq_iff

theorem load64_saveRegs (f : Word) (m : Mem) (regs : Regs) (l : List Reg) (r : Reg) :
    load64 (saveRegs m f regs l) (frameSlot f r) =
      if r ∈ l then regs r else load64 m (frameSlot f r) := by
  induction l generalizing m with
  | nil => simp [saveRegs]
  | cons r' l ih =>
    rw [saveRegs, List.foldl_cons, ← saveRegs, ih, load64_store64]
    simp only [frameSlot_dword, List.mem_cons]
    by_cases h1 : r ∈ l
    · simp [h1]
    · by_cases h2 : r' = r
      · simp [h2]
      · have h3 : r ≠ r' := fun e => h2 e.symm
        simp [h1, h2, h3]

theorem run_ld (l : List Reg) (M : Machine) (ht6 : .t6 ∉ l) :
    M.run (l.map fun r => .ld r r.offset .t6) =
      { M with regs := fun r =>
          if r ∈ l then load64 M.mem (frameSlot (M.regs .t6) r) else M.regs r } := by
  induction l generalizing M with
  | nil => simp
  | cons r l ih =>
    have hr : .t6 ≠ r := fun e => ht6 (e ▸ List.mem_cons_self)
    have hl : .t6 ∉ l := fun e => ht6 (List.mem_cons_of_mem _ e)
    rw [List.map_cons, Machine.run_cons, ih _ hl]
    simp only [Machine.exec, Machine.setReg, Function.update_of_ne hr]
    congr 1
    funext r'
    by_cases h1 : r' ∈ l
    · simp [h1]
    · by_cases h2 : r' = r
      · subst h2; simp [h1, frameSlot]
      · simp [h1, h2]

/-- The macro `restore_all_registers` loads every register from its slot. -/
theorem run_restoreAllRegisters (M : Machine) :
    M.run restoreAllRegisters =
      { M with regs := fun r => load64 M.mem (frameSlot (M.regs .t6) r) } := by
  have ht6 : Reg.t6 ∉ Reg.upToT5 := by decide
  rw [restoreAllRegisters_eq, Machine.run_append, run_ld _ _ ht6]
  simp only [Machine.run_cons, Machine.run_nil, Machine.exec, Machine.setReg, if_neg ht6]
  congr 1
  funext r
  by_cases h : r = .t6
  · subst h; simp [frameSlot, Reg.offset, Reg.index]
  · rw [Function.update_of_ne h, if_pos ((Reg.mem_upToT5 r).mpr h)]

/-- The macro `store_all_registers` saves every register in its slot. -/
theorem run_storeAllRegisters (M : Machine) :
    M.run storeAllRegisters =
      { M with mem := saveRegs M.mem (M.regs .t6) M.regs (Reg.upToT5 ++ [.t6]) } := by
  rw [storeAllRegisters_eq, run_sd]

end Pke
