import Pke.Machine.Hart

/-!
# Saving and restoring registers across a trap

The assembler of `kernel/strap_vector.S` and `kernel/machine/mtrap_vector.S`,
as straight-line code over `Machine`. A trap round trip is the entry code, an
arbitrary handler, and the exit code.

The entry code of both vectors copies the frame pointer into `t6` before
`store_all_registers` runs, so slot 30 of the frame receives the frame pointer
and not the interrupted `t6`. Results:
* `smodeTrapVector_mem`, `mtrapvecEntry_mem`, `trapSave_load`: what the frame
  holds after the entry code, register by register.
* `returnToUser_run`, `mtrapvecExit_run`: the exit code loads the frame back.
* Along any sequence of S-mode and M-mode traps the scratch
  registers hold the frame pointers before and after every trap, and every trap
  gives back all 31 registers exactly when each finds the address of its own
  frame in `t6`.
-/

namespace Pke

/-! ## The assembler -/

/-- The entry `smode_trap_vector` up to its final `jr t0`
    (`kernel/strap_vector.S` lines 16–42). -/
def smodeTrapVector : List Instr :=
  [.csrrw .a0 .sscratch .a0, .addi .t6 .a0 0] ++ storeAllRegisters ++
    [.csrr .t0 .sscratch, .sd .t0 72 .a0, .ld .sp 248 .a0, .ld .t0 256 .a0, .ld .t1 272 .a0,
      .csrw .satp .t1, .sfenceVma]

/-- The exit `return_to_user` up to `sret` (`kernel/strap_vector.S` lines 51–69);
    `a0` holds the trapframe and `a1` the user page table. -/
def returnToUser : List Instr :=
  [.csrw .satp .a1, .sfenceVma, .csrw .sscratch .a0, .addi .t6 .a0 0] ++ restoreAllRegisters

/-- The entry `mtrapvec` up to `call handle_mtrap`
    (`kernel/machine/mtrap_vector.S` lines 8–31). -/
def mtrapvecEntry (stack0 : Word) : List Instr :=
  [.csrrw .a0 .mscratch .a0, .addi .t6 .a0 0] ++ storeAllRegisters ++
    [.csrr .t0 .mscratch, .sd .t0 72 .a0, .la .sp stack0, .li .a3 4096, .csrr .a4 .mhartid,
      .addi .a4 .a4 1, .mul .a3 .a3 .a4, .add .sp .sp .a3, .csrw .mscratch .a0]

/-- The rest of `mtrapvec`, from the return of `handle_mtrap` to `mret`
    (`kernel/machine/mtrap_vector.S` lines 34–37). -/
def mtrapvecExit : List Instr := .csrr .t6 .mscratch :: restoreAllRegisters

/-! ## What the entry code leaves in the frame -/

/-- The value the entry code saves for a register: the frame pointer `f` in
    place of `t6`, and the register itself otherwise. -/
def savedReg (f : Word) (regs : Regs) (r : Reg) : Word := if r = .t6 then f else regs r

/-- Memory after the entry code of either vector: all registers saved, with `a0`
    saved a second time from the scratch register. -/
def trapSave (m : Mem) (f : Word) (regs : Regs) : Mem :=
  let regs' := Function.update (Function.update regs .a0 f) .t6 f
  store64 (saveRegs m f regs' (Reg.upToT5 ++ [Reg.t6])) (frameSlot f .a0) (regs .a0)

theorem trapSave_load (f : Word) (m : Mem) (regs : Regs) (r : Reg) :
    load64 (trapSave m f regs) (frameSlot f r) = savedReg f regs r := by
  have hall : r ∈ Reg.upToT5 ++ [Reg.t6] := by cases r <;> decide
  rw [trapSave, load64_store64, load64_saveRegs, if_pos hall]
  simp only [frameSlot_dword, savedReg]
  by_cases h1 : r = .a0
  · subst h1; simp
  · have h2 : ¬ Reg.a0 = r := fun e => h1 e.symm
    by_cases h3 : r = .t6
    · subst h3; simp
    · simp [h1, h2, h3]

theorem smodeTrapVector_mem (M : Machine) :
    (M.run smodeTrapVector).mem = trapSave M.mem (M.csr .sscratch) M.regs := by
  unfold smodeTrapVector
  rw [Machine.run_append, Machine.run_append, run_storeAllRegisters]
  simp [Machine.exec, trapSave, frameSlot, Reg.offset, Reg.index, Machine.setReg,
    Machine.setCsr]

theorem smodeTrapVector_csr (M : Machine) (c : Csr) (h1 : c ≠ .sscratch) (h2 : c ≠ .satp) :
    (M.run smodeTrapVector).csr c = M.csr c := by
  unfold smodeTrapVector
  rw [Machine.run_append, Machine.run_append, run_storeAllRegisters]
  simp [Machine.exec, h1, h2]

theorem mtrapvecEntry_mem (stack0 : Word) (M : Machine) :
    (M.run (mtrapvecEntry stack0)).mem = trapSave M.mem (M.csr .mscratch) M.regs := by
  unfold mtrapvecEntry
  rw [Machine.run_append, Machine.run_append, run_storeAllRegisters]
  simp [Machine.exec, trapSave, frameSlot, Reg.offset, Reg.index, Machine.setReg,
    Machine.setCsr]

theorem mtrapvecEntry_csr (stack0 : Word) (M : Machine) :
    (M.run (mtrapvecEntry stack0)).csr = M.csr := by
  unfold mtrapvecEntry
  rw [Machine.run_append, Machine.run_append, run_storeAllRegisters]
  funext c
  by_cases h : c = .mscratch
  · subst h; simp [Machine.exec]
  · simp [Machine.exec, h]

/-! ## What the exit code does -/

theorem returnToUser_run (M : Machine) :
    M.run returnToUser =
      { regs := fun r => load64 M.mem (frameSlot (M.regs .a0) r)
        csr := Function.update (Function.update M.csr .satp (M.regs .a1)) .sscratch (M.regs .a0)
        mem := M.mem } := by
  unfold returnToUser
  rw [Machine.run_append, run_restoreAllRegisters]
  simp [Machine.exec]

theorem mtrapvecExit_run (M : Machine) :
    M.run mtrapvecExit =
      { M with regs := fun r => load64 M.mem (frameSlot (M.csr .mscratch) r) } := by
  unfold mtrapvecExit
  rw [Machine.run_cons, run_restoreAllRegisters]
  simp [Machine.exec]

/-! ## Round trips -/

/-- The two trap paths. -/
inductive TrapKind where
  | smode
  | mmode
  deriving DecidableEq, Repr

/-- The scratch register that holds the frame pointer of a trap path. -/
def TrapKind.scratch : TrapKind → Csr
  | .smode => .sscratch
  | .mmode => .mscratch

/-- The frame of each trap path: the trapframe of the current process, and
    `g_itrframe` (`kernel/machine/minit.c` line 27). Both are C structs of
    `uint64` fields. -/
structure Frames where
  ptr : TrapKind → Word

/-- Both scratch registers point to their frames. -/
def Protocol (F : Frames) (M : Machine) : Prop := ∀ k : TrapKind, M.csr k.scratch = F.ptr k

/-- A trap: what the interrupted code does from the last return on until the
    trap is taken, and what the C handler does between entry and exit code. -/
structure Trap where
  kind : TrapKind
  code : Machine → Machine
  handler : Machine → Machine

/-- The trap from its entry code to `sret` or `mret`. -/
def Trap.trip (stack0 : Word) (t : Trap) (M : Machine) : Machine :=
  match t.kind with
  | .smode => (t.handler (M.run smodeTrapVector)).run returnToUser
  | .mmode => (t.handler (M.run (mtrapvecEntry stack0))).run mtrapvecExit

/-- The interrupted code does not write the scratch registers; the handler keeps
    the `regs` fields of the frame and the scratch register of the other path.
    An S-mode handler ends in `return_to_user(trapframe, satp)`, so `a0` is the
    frame there and `return_to_user` itself writes `sscratch`; an M-mode handler
    returns to `mtrapvec` with any registers and leaves `mscratch` alone. -/
structure Trap.Ok (F : Frames) (t : Trap) : Prop where
  code : ∀ M k, (t.code M).csr (TrapKind.scratch k) = M.csr (TrapKind.scratch k)
  regs : ∀ M r, load64 (t.handler M).mem (frameSlot (F.ptr t.kind) r) =
    load64 M.mem (frameSlot (F.ptr t.kind) r)
  a0 : t.kind = .smode → ∀ M, (t.handler M).regs .a0 = F.ptr .smode
  mscratch : ∀ M, (t.handler M).csr .mscratch = M.csr .mscratch
  sscratch : t.kind = .mmode → ∀ M, (t.handler M).csr .sscratch = M.csr .sscratch

/-- A record of one trap of a run: its kind and the machine before and after. -/
structure Trip where
  kind : TrapKind
  before : Machine
  after : Machine

/-- A run of consecutive traps. -/
def trips (stack0 : Word) : List Trap → Machine → List Trip
  | [], _ => []
  | t :: ts, M =>
    let M₁ := t.code M
    let M₂ := t.trip stack0 M₁
    ⟨t.kind, M₁, M₂⟩ :: trips stack0 ts M₂

variable {F : Frames} {t : Trap} {M : Machine} {stack0 : Word}

theorem Trap.Ok.protocol_code (ht : t.Ok F) (hM : Protocol F M) : Protocol F (t.code M) :=
  fun k => (ht.code M k).trans (hM k)

/-- A round trip gives back what the entry code saved. -/
theorem Trap.Ok.trip_regs (ht : t.Ok F) (hM : Protocol F M) (stack0 : Word) (r : Reg) :
    (t.trip stack0 M).regs r = savedReg (F.ptr t.kind) M.regs r := by
  unfold Trap.trip
  cases hk : t.kind with
  | smode =>
    have hs : M.csr .sscratch = F.ptr .smode := hM .smode
    have hreg := ht.regs (M.run smodeTrapVector) r
    rw [hk] at hreg
    simp only [returnToUser_run]
    rw [ht.a0 hk, hreg, smodeTrapVector_mem, hs, trapSave_load]
  | mmode =>
    have hs : M.csr .mscratch = F.ptr .mmode := hM .mmode
    have hreg := ht.regs (M.run (mtrapvecEntry stack0)) r
    rw [hk] at hreg
    simp only [mtrapvecExit_run]
    rw [ht.mscratch, mtrapvecEntry_csr, hs, hreg, mtrapvecEntry_mem, hs, trapSave_load]

/-- A round trip leaves both scratch registers pointing to their frames. -/
theorem Trap.Ok.trip_protocol (ht : t.Ok F) (hM : Protocol F M) :
    Protocol F (t.trip stack0 M) := by
  have hs : M.csr .sscratch = F.ptr .smode := hM .smode
  have hm : M.csr .mscratch = F.ptr .mmode := hM .mmode
  intro k
  unfold Trap.trip
  cases hk : t.kind with
  | smode =>
    simp only [returnToUser_run]
    cases k with
    | smode => simp [TrapKind.scratch, ht.a0 hk]
    | mmode =>
      simp [TrapKind.scratch, ht.mscratch, hm,
        smodeTrapVector_csr M .mscratch (by decide) (by decide)]
  | mmode =>
    simp only [mtrapvecExit_run]
    cases k with
    | smode => rw [TrapKind.scratch, ht.sscratch hk, mtrapvecEntry_csr, hs]
    | mmode => rw [TrapKind.scratch, ht.mscratch, mtrapvecEntry_csr, hm]

theorem savedReg_eq_iff (f : Word) (regs : Regs) :
    (∀ r, savedReg f regs r = regs r) ↔ regs .t6 = f := by
  constructor
  · intro h
    have := h .t6
    simpa [savedReg] using this.symm
  · intro h r
    by_cases hr : r = .t6
    · subst hr; simp [savedReg, h]
    · simp [savedReg, hr]

/-- Every trap of a run from a machine in the protocol: the scratch registers
    are in order again, and the registers are those the entry code saved. -/
theorem trips_spec {ts : List Trap} (hts : ∀ t ∈ ts, t.Ok F) (hM : Protocol F M) :
    ∀ x ∈ trips stack0 ts M, Protocol F x.before ∧ Protocol F x.after ∧
      ∀ r, x.after.regs r = savedReg (F.ptr x.kind) x.before.regs r := by
  induction ts generalizing M with
  | nil => intro x hx; cases hx
  | cons t ts ih =>
    have ht := hts t List.mem_cons_self
    have hM₁ := ht.protocol_code hM
    have hM₂ : Protocol F (t.trip stack0 (t.code M)) := ht.trip_protocol hM₁
    intro x hx
    rcases List.mem_cons.mp hx with rfl | hx
    · exact ⟨hM₁, hM₂, ht.trip_regs hM₁ _⟩
    · exact ih (fun t' ht' => hts t' (List.mem_cons_of_mem _ ht')) hM₂ x hx

/-- **Registers across traps.** Along any run of S-mode and M-mode traps that
    starts with both scratch registers pointing to their frames, every trap
    finds and leaves them so; and all traps of the run give back all 31
    registers if and only if each of them finds in `t6` the address of the frame
    it saves to. The vectors overwrite `t6` with that address before saving
    it, so any other value of `t6` is lost. -/
theorem trips_restore_iff (F : Frames) (stack0 : Word) (ts : List Trap) (M : Machine)
    (hts : ∀ t ∈ ts, t.Ok F) (hM : Protocol F M) :
    (∀ x ∈ trips stack0 ts M, Protocol F x.before ∧ Protocol F x.after) ∧
    ((∀ x ∈ trips stack0 ts M, ∀ r, x.after.regs r = x.before.regs r) ↔
      ∀ x ∈ trips stack0 ts M, x.before.regs .t6 = F.ptr x.kind) := by
  have hspec : ∀ x ∈ trips stack0 ts M, Protocol F x.before ∧ Protocol F x.after ∧
      ∀ r, x.after.regs r = savedReg (F.ptr x.kind) x.before.regs r := trips_spec hts hM
  refine ⟨fun x hx => ⟨(hspec x hx).1, (hspec x hx).2.1⟩, ?_⟩
  constructor
  · intro h x hx
    rw [← savedReg_eq_iff]
    intro r
    rw [← (hspec x hx).2.2 r]
    exact h x hx r
  · intro h x hx r
    rw [(hspec x hx).2.2 r]
    exact (savedReg_eq_iff _ _).mpr (h x hx) r

/-! ## One trap of a program that uses `t6` -/

/-- A trapframe at the end of memory and `g_itrframe` in the kernel image. -/
def sampleFrames : Frames where
  ptr
    | .smode => 0x87fff000
    | .mmode => 0x80009000

/-- An S-mode trap whose handler goes straight to `return_to_user`. -/
def sampleTrap : Trap where
  kind := .smode
  code := id
  handler M := M.setReg .a0 (sampleFrames.ptr .smode)

/-- User code with a given value in `t6`. -/
def sampleMachine (t6 : Word) : Machine where
  regs r := if r = .t6 then t6 else 0
  csr
    | .sscratch => sampleFrames.ptr .smode
    | .mscratch => sampleFrames.ptr .mmode
    | _ => 0
  mem _ _ := 0

theorem sampleTrap_ok : sampleTrap.Ok sampleFrames where
  code _ _ := rfl
  regs _ _ := rfl
  a0 _ M := by simp [sampleTrap]
  mscratch _ := rfl
  sscratch h := by cases h

theorem sampleMachine_protocol (t6 : Word) : Protocol sampleFrames (sampleMachine t6) := by
  intro k; cases k <;> rfl

theorem trips_restore_iff_sample :
    (∀ t ∈ [sampleTrap], t.Ok sampleFrames) ∧
    Protocol sampleFrames (sampleMachine 0x87fff000) ∧
    ((∀ x ∈ trips 0 [sampleTrap] (sampleMachine 0x87fff000), ∀ r,
        x.after.regs r = x.before.regs r) ↔
      ∀ x ∈ trips 0 [sampleTrap] (sampleMachine 0x87fff000),
        x.before.regs .t6 = sampleFrames.ptr x.kind) := by
  have hok : ∀ t ∈ [sampleTrap], t.Ok sampleFrames := by
    intro t ht
    rw [List.mem_singleton.mp ht]
    exact sampleTrap_ok
  exact ⟨hok, sampleMachine_protocol _,
    (trips_restore_iff sampleFrames 0 [sampleTrap] _ hok (sampleMachine_protocol _)).2⟩

/-- With 7 in `t6`, one S-mode trap returns with the trapframe's address in `t6`. -/
theorem smodeTrap_loses_t6 :
    ¬ ∀ (F : Frames) (stack0 : Word) (ts : List Trap) (M : Machine),
      (∀ t ∈ ts, t.Ok F) → Protocol F M →
      ∀ x ∈ trips stack0 ts M, ∀ r, x.after.regs r = x.before.regs r := by
  intro h
  have hok : ∀ t ∈ [sampleTrap], t.Ok sampleFrames := by
    intro t ht
    rw [List.mem_singleton.mp ht]
    exact sampleTrap_ok
  have h1 := h sampleFrames 0 [sampleTrap] (sampleMachine 7) hok (sampleMachine_protocol 7) _
    List.mem_cons_self .t6
  have h2 := sampleTrap_ok.trip_regs (sampleMachine_protocol 7) 0 .t6
  rw [show sampleTrap.code (sampleMachine 7) = sampleMachine 7 from rfl, h2] at h1
  revert h1
  decide

end Pke
