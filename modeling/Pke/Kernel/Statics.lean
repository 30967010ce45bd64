import Pke.Kernel.System

/-!
# The variables of the kernel in memory

`Kernel` keeps `procs[]` and the other variables of the kernel as fields beside
`Mem`. In the machine they are doublewords of the kernel image, and a process
whose page table maps such a page overwrites them by stores. A `Placement` says
where in the image the variables lie, and `StaticStep` is the system in which
they are there:

* after `s_start` and after every trap their doublewords hold the fields
  (`Placement.flush`);
* a store of user code to such a doubleword changes the field
  (`Placement.userStore`), to what the doubleword then holds
  (`Placement.read`, the inverse of `flush` by `Placement.read_flush`).

The system has no step where the model cannot follow the machine: when the
kernel itself has written into its image through a pointer, when user code
stores to a part of the image that is no variable of the model (the code of the
kernel, for instance), and when a store leaves a value that the field cannot
have, such as a `process *` that points to no slot.
-/

namespace Pke

open Lib

/-! ## The variables -/

/-- The fields of a `process` (`kernel/process.h` lines 50–75). -/
inductive ProcField where
  | kstack | pagetable | trapframe | mappedInfo | totalMappedRegion | pid | status | parent
  | queueNext | tickCount
  deriving DecidableEq

/-- Every field of the structure starts a doubleword. -/
def ProcField.offset : ProcField → ℕ
  | .kstack => 0
  | .pagetable => 8
  | .trapframe => 16
  | .mappedInfo => 24
  | .totalMappedRegion => 32
  | .pid => 40
  | .status => 48
  | .parent => 56
  | .queueNext => 64
  | .tickCount => 72

/-- The size of a `process` in bytes. -/
def sizeofProcess : ℕ := 80

theorem ProcField.offset_spec (f : ProcField) : f.offset % 8 = 0 ∧ f.offset < sizeofProcess := by
  cases f <;> decide

theorem ProcField.offset_injective : Function.Injective ProcField.offset := by
  intro f g h
  cases f <;> cases g <;> first | rfl | cases h

/-- The variables besides `procs[]`: `current` and `g_ufree_page` (`kernel/process.c`
    lines 32 and 38), `ready_queue_head` (`kernel/sched.c` line 8), `g_kernel_pagetable`
    (`kernel/vmm.c` line 107), `g_ticks` (`kernel/strap.c` line 36), `g_mem_size`
    (`spike_interface/spike_memory.c` line 11), and those of `kernel/pmm.c` (lines 15–23). -/
inductive Global where
  | current | readyQueueHead | gKernelPagetable | gUfreePage | gTicks | gMemSize
  | freeMemStartAddr | freeMemEndAddr | gFreeMemList
  deriving DecidableEq

/-- A field of a slot of `procs[]`, or another variable. -/
inductive Static where
  | proc (i : Pid) (f : ProcField)
  | global (g : Global)
  deriving DecidableEq

def ProcField.all : List ProcField :=
  [.kstack, .pagetable, .trapframe, .mappedInfo, .totalMappedRegion, .pid, .status, .parent,
    .queueNext, .tickCount]

def Global.all : List Global :=
  [.current, .readyQueueHead, .gKernelPagetable, .gUfreePage, .gTicks, .gMemSize,
    .freeMemStartAddr, .freeMemEndAddr, .gFreeMemList]

def Static.all : List Static :=
  (List.finRange 32).flatMap (fun i => ProcField.all.map (.proc i)) ++ Global.all.map .global

theorem Static.mem_all (c : Static) : c ∈ Static.all := by
  cases c with
  | proc i f =>
    have hf : f ∈ ProcField.all := by cases f <;> decide
    simp [Static.all, hf]
  | global g =>
    have hg : g ∈ Global.all := by cases g <;> decide
    simp [Static.all, hg]

/-- The bytes of the doubleword that belong to the variable: four for an `int`. -/
def Static.mask : Static → Word
  | .proc _ .totalMappedRegion | .proc _ .status | .proc _ .tickCount => 0xFFFFFFFF#64
  | _ => BitVec.allOnes 64

/-! ## Their place in the kernel image -/

/-- Where the linker puts the variables: behind `_etext`, before `_end`. -/
structure Placement (L : Layout) where
  procs : Word
  globals : Global → Word
  procs_aligned : procs.toNat % 8 = 0
  procs_lo : L.etext ≤ procs
  procs_hi : procs.toNat + 32 * sizeofProcess ≤ L.kend.toNat
  globals_aligned : ∀ g, (globals g).toNat % 8 = 0
  globals_range : ∀ g, L.etext ≤ globals g ∧ globals g < L.kend
  globals_inj : Function.Injective globals
  globals_apart : ∀ g, globals g < procs ∨ procs.toNat + 32 * sizeofProcess ≤ (globals g).toNat

namespace Placement

variable {L : Layout} (P : Placement L)

/-- The address of a variable. -/
def place : Static → Word
  | .proc i f => P.procs + BitVec.ofNat 64 (sizeofProcess * i.val + f.offset)
  | .global g => P.globals g

theorem place_proc_toNat (i : Pid) (f : ProcField) :
    (P.place (.proc i f)).toNat = P.procs.toNat + (sizeofProcess * i.val + f.offset) := by
  have hi := i.isLt
  have hf := f.offset_spec.2
  have hhi := P.procs_hi
  have hend := L.kend.isLt
  rw [place, BitVec.toNat_add, BitVec.toNat_ofNat]
  unfold sizeofProcess at *
  omega

/-- The places are doublewords of the kernel image. -/
theorem place_spec (c : Static) :
    (P.place c).toNat % 8 = 0 ∧ L.etext ≤ P.place c ∧ P.place c < L.kend := by
  cases c with
  | proc i f =>
    have hi := i.isLt
    have hf := f.offset_spec
    have hlo := P.procs_lo
    have hhi := P.procs_hi
    have hal := P.procs_aligned
    rw [BitVec.le_def] at hlo
    rw [BitVec.le_def, BitVec.lt_def, P.place_proc_toNat]
    unfold sizeofProcess at *
    omega
  | global g => exact ⟨P.globals_aligned g, P.globals_range g⟩

theorem place_inImage (c : Static) : InImage L (ppn (P.place c)) := by
  obtain ⟨-, hlo, hhi⟩ := P.place_spec c
  have h1 := L.base_le_trapSec
  have h2 := L.trapSec_lt_etext
  have h3 := toNat_mod_PGSIZE L.etext_aligned
  rw [InImage]
  simp only [BitVec.le_def, BitVec.lt_def, addr_toNat, ppn_toNat] at *
  omega

theorem place_proc_ne_global (i : Pid) (f : ProcField) (g : Global) :
    P.place (.proc i f) ≠ P.globals g := by
  intro heq
  have hN := P.place_proc_toNat i f
  have hi := i.isLt
  have hf := f.offset_spec.2
  have hg := P.globals_apart g
  rw [heq] at hN
  rw [BitVec.lt_def] at hg
  unfold sizeofProcess at *
  omega

/-- Different variables have different places. -/
theorem place_injective : Function.Injective P.place := by
  intro c d heq
  cases c with
  | proc i f =>
    cases d with
    | proc j g =>
      have hN := congrArg BitVec.toNat heq
      rw [P.place_proc_toNat, P.place_proc_toNat] at hN
      have hf := f.offset_spec.2
      have hg := g.offset_spec.2
      unfold sizeofProcess at *
      obtain rfl : i = j := Fin.ext (by omega)
      rw [ProcField.offset_injective (show f.offset = g.offset by omega)]
    | global g => exact absurd heq (P.place_proc_ne_global i f g)
  | global g =>
    cases d with
    | proc i f => exact absurd heq.symm (P.place_proc_ne_global i f g)
    | global g' => rw [P.globals_inj heq]

/-- The variable that has the doubleword `o` of page `p`. -/
def find (p : Ppn) (o : Idx) : Option Static :=
  Static.all.find? fun c => ppn (P.place c) = p ∧ idx (P.place c) = o

theorem find_eq_some_iff {p : Ppn} {o : Idx} {c : Static} :
    P.find p o = some c ↔ ppn (P.place c) = p ∧ idx (P.place c) = o := by
  have hsound : ∀ {d}, P.find p o = some d → ppn (P.place d) = p ∧ idx (P.place d) = o :=
    fun hd => by simpa using List.find?_some hd
  constructor
  · exact hsound
  · intro h
    have hsome : (P.find p o).isSome := List.find?_isSome.mpr ⟨c, c.mem_all, by simpa using h⟩
    obtain ⟨d, hd⟩ := Option.isSome_iff_exists.mp hsome
    have hplace := hsound hd
    -- both places are the doubleword `o` of page `p`
    have heq : P.place d = P.place c := by
      apply BitVec.eq_of_toNat_eq
      have hp := congrArg BitVec.toNat (hplace.1.trans h.1.symm)
      have ho := congrArg BitVec.toNat (hplace.2.trans h.2.symm)
      have hc := (P.place_spec c).1
      have hd := (P.place_spec d).1
      rw [ppn_toNat, ppn_toNat] at hp
      rw [idx_toNat, idx_toNat] at ho
      omega
    rw [← P.place_injective heq]
    exact hd

theorem find_of_not_image {p : Ppn} (hp : ¬ InImage L p) (o : Idx) : P.find p o = none := by
  rw [Option.eq_none_iff_forall_ne_some]
  intro c hc
  exact hp ((P.find_eq_some_iff.mp hc).1 ▸ P.place_inImage c)

/-- A `process *`. -/
def pointer : Option Pid → Word
  | none => 0
  | some i => P.procs + BitVec.ofNat 64 (sizeofProcess * i.val)

theorem pointer_injective : Function.Injective P.pointer := by
  have hN : ∀ i : Pid, (P.pointer (some i)).toNat = P.procs.toNat + sizeofProcess * i.val := by
    intro i
    have hi := i.isLt
    have hhi := P.procs_hi
    have hend := L.kend.isLt
    rw [pointer, BitVec.toNat_add, BitVec.toNat_ofNat]
    unfold sizeofProcess at *
    omega
  have h0 : P.procs.toNat ≠ 0 := by
    have h1 := L.base_le_etext
    have h2 := P.procs_lo
    rw [BitVec.le_def, show KERN_BASE.toNat = 2 ^ 31 from rfl] at h1
    rw [BitVec.le_def] at h2
    omega
  have hne : ∀ i : Pid, P.pointer (some i) ≠ P.pointer none := fun i heq => by
    have := congrArg BitVec.toNat heq
    rw [hN, show (P.pointer none).toNat = 0 from rfl] at this
    omega
  rintro (_ | i) (_ | j) heq
  · rfl
  · exact absurd heq.symm (hne j)
  · exact absurd heq (hne i)
  · have := congrArg BitVec.toNat heq
    rw [hN, hN] at this
    unfold sizeofProcess at this
    exact congrArg some (Fin.ext (by omega))

end Placement

/-! ## Their values -/

def ProcStatus.code : ProcStatus → BitVec 32
  | .FREE => 0
  | .READY => 1
  | .RUNNING => 2
  | .BLOCKED => 3
  | .ZOMBIE => 4

/-- The status that a number stands for. -/
def statusOf (c : BitVec 32) : Option ProcStatus :=
  [ProcStatus.FREE, .READY, .RUNNING, .BLOCKED, .ZOMBIE].find? fun st => st.code = c

theorem statusOf_code (st : ProcStatus) : statusOf st.code = some st := by
  cases st <;> rfl

namespace Placement

variable {L : Layout} (P : Placement L)

/-- The doubleword of a field, with zeros behind an `int`. -/
def procWord (p : Process) : ProcField → Word
  | .kstack => p.kstack
  | .pagetable => p.pagetable
  | .trapframe => p.trapframe
  | .mappedInfo => p.mappedInfo
  | .totalMappedRegion => (BitVec.ofNat 32 p.totalMappedRegion).setWidth 64
  | .pid => p.pid
  | .status => p.status.code.setWidth 64
  | .parent => P.pointer p.parent
  | .queueNext => P.pointer p.queueNext
  | .tickCount => (BitVec.ofInt 32 p.tickCount).setWidth 64

def globalWord (s : Kernel) : Global → Word
  | .current => P.pointer s.current
  | .readyQueueHead => P.pointer s.readyQueueHead
  | .gKernelPagetable => s.gKernelPagetable
  | .gUfreePage => s.gUfreePage
  | .gTicks => s.gTicks
  | .gMemSize => s.gMemSize
  | .freeMemStartAddr => s.phys.freeMemStartAddr
  | .freeMemEndAddr => s.phys.freeMemEndAddr
  | .gFreeMemList => s.phys.gFreeMemList

def word (s : Kernel) : Static → Word
  | .proc i f => P.procWord (s.procs i) f
  | .global g => P.globalWord s g

/-- The slot that a `process *` points to, if it is NULL or points to one. -/
def slotOf (w : Word) : Option (Option Pid) :=
  (none :: (List.finRange 32).map some).find? fun p => P.pointer p = w

theorem slotOf_pointer (j : Option Pid) : P.slotOf (P.pointer j) = some j := by
  have hmem : j ∈ none :: (List.finRange 32).map some := by cases j <;> simp
  have hsome : (P.slotOf (P.pointer j)).isSome := List.find?_isSome.mpr ⟨j, hmem, by simp⟩
  obtain ⟨k, hk⟩ := Option.isSome_iff_exists.mp hsome
  have heq : P.pointer k = P.pointer j := by simpa using List.find?_some hk
  rw [hk, P.pointer_injective heq]

/-- The process when the doubleword of a field is `w`. -/
def readProc (w : Word) (p : Process) : ProcField → Option Process
  | .kstack => some { p with kstack := w }
  | .pagetable => some { p with pagetable := w }
  | .trapframe => some { p with trapframe := w }
  | .mappedInfo => some { p with mappedInfo := w }
  | .totalMappedRegion =>
    if (w.setWidth 32).toInt < 0 then none
    else some { p with totalMappedRegion := (w.setWidth 32).toNat }
  | .pid => some { p with pid := w }
  | .status => (statusOf (w.setWidth 32)).map fun st => { p with status := st }
  | .parent => (P.slotOf w).map fun j => { p with parent := j }
  | .queueNext => (P.slotOf w).map fun j => { p with queueNext := j }
  | .tickCount => some { p with tickCount := (w.setWidth 32).toInt }

def readGlobal (w : Word) (s : Kernel) : Global → Option Kernel
  | .current => (P.slotOf w).map fun j => { s with current := j }
  | .readyQueueHead => (P.slotOf w).map fun j => { s with readyQueueHead := j }
  | .gKernelPagetable => some { s with gKernelPagetable := w }
  | .gUfreePage => some { s with gUfreePage := w }
  | .gTicks => some { s with gTicks := w }
  | .gMemSize => some { s with gMemSize := w }
  | .freeMemStartAddr => some { s with phys := { s.phys with freeMemStartAddr := w } }
  | .freeMemEndAddr => some { s with phys := { s.phys with freeMemEndAddr := w } }
  | .gFreeMemList => some { s with phys := { s.phys with gFreeMemList := w } }

/-- The fields when the doubleword of a variable is `w`. -/
def read (w : Word) (s : Kernel) : Static → Option Kernel
  | .proc i f =>
    (P.readProc w (s.procs i) f).map fun p => { s with procs := Function.update s.procs i p }
  | .global g => P.readGlobal w s g

/-! ## Writing the fields to memory -/

/-- The fields are written to their places. -/
def flush (s : Kernel) : Kernel :=
  { s with
    phys := { s.phys with
      mem := fun p o =>
        match P.find p o with
        | none => s.phys.mem p o
        | some c => s.phys.mem p o &&& ~~~c.mask ||| P.word s c } }

theorem flush_of_not_image (s : Kernel) {p : Ppn} (hp : ¬ InImage L p) :
    (P.flush s).phys.mem p = s.phys.mem p := by
  funext o
  simp only [flush, P.find_of_not_image hp o]

theorem load_flush (s : Kernel) (c : Static) : load64 (P.flush s).phys.mem (P.place c) =
    load64 s.phys.mem (P.place c) &&& ~~~c.mask ||| P.word s c := by
  simp only [load64, flush, P.find_eq_some_iff.mpr ⟨rfl, rfl⟩]

/-- The low half of a doubleword whose low half was replaced. -/
theorem setWidth_merge (old : Word) (w : BitVec 32) :
    (old &&& ~~~0xFFFFFFFF#64 ||| w.setWidth 64).setWidth 32 = w := by
  apply BitVec.eq_of_getLsbD_eq
  intro k hk
  have hmask : (0xFFFFFFFF#64).getLsbD k = true := by
    rw [show (0xFFFFFFFF#64) = (BitVec.allOnes 32).setWidth 64 from rfl, BitVec.getLsbD_setWidth,
      BitVec.getLsbD_allOnes]
    simp [hk]
    omega
  rw [BitVec.getLsbD_setWidth, BitVec.getLsbD_or, BitVec.getLsbD_and, BitVec.getLsbD_not, hmask,
    BitVec.getLsbD_setWidth]
  simp [hk]
  omega

/-- The `int`s of a process are in their range. -/
structure IntsOk (p : Process) : Prop where
  total : p.totalMappedRegion < 2 ^ 31
  tick : -2 ^ 31 ≤ p.tickCount ∧ p.tickCount < 2 ^ 31

theorem readProc_word {p : Process} (hp : IntsOk p) (i : Pid) (f : ProcField) (old : Word) :
    P.readProc (old &&& ~~~(Static.proc i f).mask ||| P.procWord p f) p f = some p := by
  have hall : ∀ w : Word, old &&& ~~~BitVec.allOnes 64 ||| w = w := fun w => by simp
  cases f with
  | totalMappedRegion =>
    have hlt := hp.total
    have hN : (BitVec.ofNat 32 p.totalMappedRegion).toNat = p.totalMappedRegion := by
      rw [BitVec.toNat_ofNat]
      omega
    rw [readProc, procWord, Static.mask, setWidth_merge, if_neg, hN]
    rw [BitVec.toInt_eq_toNat_cond, hN]
    split_ifs <;> omega
  | status =>
    rw [readProc, procWord, Static.mask, setWidth_merge, statusOf_code, Option.map_some]
  | tickCount =>
    have hlt := hp.tick
    have hN : (BitVec.ofInt 32 p.tickCount).toInt = p.tickCount := by
      rw [BitVec.toInt_ofInt]
      refine Int.bmod_eq_of_le ?_ ?_ <;> omega
    rw [readProc, procWord, Static.mask, setWidth_merge, hN]
  | parent =>
    rw [Static.mask, hall, procWord, readProc, slotOf_pointer, Option.map_some]
    all_goals simp
  | queueNext =>
    rw [Static.mask, hall, procWord, readProc, slotOf_pointer, Option.map_some]
    all_goals simp
  | _ =>
    rw [Static.mask, hall]
    rfl
    all_goals simp

/-- **What is written is what is read.** -/
theorem read_flush {s : Kernel} (hs : ∀ i, IntsOk (s.procs i)) (c : Static) :
    P.read (load64 (P.flush s).phys.mem (P.place c)) (P.flush s) c = some (P.flush s) := by
  rw [P.load_flush]
  generalize load64 s.phys.mem (P.place c) = old
  cases c with
  | proc i f =>
    have hself : Function.update (P.flush s).procs i (s.procs i) = (P.flush s).procs :=
      Function.update_eq_self i _
    rw [read, show (P.flush s).procs i = s.procs i from rfl, word, P.readProc_word (hs i),
      Option.map_some, hself]
  | global g =>
    have hall : old &&& ~~~BitVec.allOnes 64 ||| P.globalWord s g = P.globalWord s g := by simp
    rw [Static.mask, word, hall, read]
    cases g with
    | current => rw [globalWord, readGlobal, slotOf_pointer]; rfl
    | readyQueueHead => rw [globalWord, readGlobal, slotOf_pointer]; rfl
    | _ => rfl
    all_goals simp

/-! ## The system -/

/-- A store of one byte by the current process. -/
def userStore (va : Word) (b : BitVec 8) (s : Kernel) : Option Kernel := do
  let i ← s.current
  let pa ← userTranslate s.phys.mem (s.procs i).pagetable va PTE_W
  let s' := { s with phys := { s.phys with mem := store8 s.phys.mem pa b } }
  if InImage L (ppn pa) then
    match P.find (ppn pa) (idx pa) with
    | none => none
    | some c => P.read (load64 s'.phys.mem pa) s' c
  else return s'

/-- The state in which user code runs first. -/
def Boots (h : Host) (s : Kernel) : Prop :=
  ∃ s₀ s₁, sStart L h (coldStart h s₀) = .exit s₁ ∧
    SameImage L s₀.phys.mem s₁.phys.mem ∧ s = P.flush s₁

end Placement

/-- One step from user mode back to user mode. -/
inductive StaticStep {L : Layout} (P : Placement L) : Kernel → Action → Kernel → Prop
  | trap {s s₁ : Kernel} {t : TrapInput} (h : trap L t s = .exit s₁)
      (himage : SameImage L s.phys.mem s₁.phys.mem) : StaticStep P s (.trap t) (P.flush s₁)
  | store {s s' : Kernel} {va : Word} {b : BitVec 8} (h : P.userStore va b s = some s') :
      StaticStep P s (.store va b) s'

/-- A sequence of steps that all meet a condition, with the state after each. -/
inductive StaticRun {L : Layout} (P : Placement L) (ok : Kernel → Action → Prop) :
    Kernel → List (Action × Kernel) → Kernel → Prop
  | nil (s : Kernel) : StaticRun P ok s [] s
  | cons {s s₁ s' : Kernel} {a : Action} {tr : List (Action × Kernel)} (hok : ok s a)
      (ha : StaticStep P s a s₁) (hr : StaticRun P ok s₁ tr s') :
      StaticRun P ok s ((a, s₁) :: tr) s'

end Pke
