import Pke.Lib.Prog
import Pke.Mm.Pmm

/-!
# The files of the host

`spike_file.c`: the table of open host files and its reference counts. A call of
`frontend_syscall` is one step of the host, which works on its own state `H`.

A new entry starts with a count of `INIT_FILE_REF` = 3, and the file is closed when the count
drops from 2. `spike_file_close` drops it once, and once more only for a file in `spike_fds`,
where `spike_file_open` never puts one. So over any run (`FileRun`) of opening, closing and the
calls on open files, in which every file that was opened is closed at most once and nobody
else calls `spike_file_dup` or `spike_file_decref`:

* `files_run`: after `k` calls of `spike_file_openat`, successful or not, exactly
  `min (3 + k) 128` entries are taken, every close returned -1, and the host was never asked to
  close a file;
* `files_exhausted`: from the 126th call on `spike_file_openat` returns `-ENOMEM`.

`spike_file_open` is `spike_file_openat` for `AT_FDCWD`.
-/

namespace Pke

open Lib

/-- `MAX_FILES` and `MAX_FDS`. -/
abbrev MAX_FILES : ℕ := 128

/-- `INIT_FILE_REF`. -/
def INIT_FILE_REF : BitVec 32 := 3

/-- `ENOMEM`. -/
def ENOMEM : Word := 12

def HTIFSYS_openat : Word := 56

def HTIFSYS_close : Word := 57

def HTIFSYS_lseek : Word := 62

def HTIFSYS_read : Word := 63

def HTIFSYS_write : Word := 64

def HTIFSYS_pread : Word := 67

/-- `spike_file_t`. -/
structure SpikeFile where
  kfd : BitVec 32
  refcnt : BitVec 32

/-- An entry of `spike_files`. -/
abbrev FileIdx := Fin MAX_FILES

/-- The variables of `spike_file.c`, the host, and the system calls so far. -/
structure SpikeFiles (H : Type) where
  spikeFds : Fin MAX_FILES → Option FileIdx
  spikeFiles : FileIdx → SpikeFile
  host : H
  calls : List (List Word)

variable {H : Type}

/-- Code of `spike_file.c`. -/
abbrev FileM (H α : Type) : Type := Prog (SpikeFiles H) Halt α

namespace SpikeFiles

/-- Changes an entry. -/
def setFile (f : FileIdx) (x : SpikeFile) (s : SpikeFiles H) : SpikeFiles H :=
  { s with spikeFiles := Function.update s.spikeFiles f x }

/-- Changes `refcnt` of an entry. -/
def setRefcnt (f : FileIdx) (n : BitVec 32) (s : SpikeFiles H) : SpikeFiles H :=
  s.setFile f { s.spikeFiles f with refcnt := n }

/-- Changes an entry of `spike_fds`. -/
def setFd (i : Fin MAX_FILES) (f : Option FileIdx) (s : SpikeFiles H) : SpikeFiles H :=
  { s with spikeFds := Function.update s.spikeFds i f }

end SpikeFiles

section Code

variable (serve : H → List Word → Word × H)

/-- A system call of the host. -/
def frontendCall (args : List Word) : FileM H Word := do
  let s ← Prog.gets id
  Prog.modify fun s => { s with host := (serve s.host args).2, calls := s.calls ++ [args] }
  return (serve s.host args).1

/-- `spike_file_decref` (`spike_file.c` lines 56–64). -/
def spikeFileDecref (f : FileIdx) : FileM H Unit := do
  let x ← Prog.gets fun s => s.spikeFiles f
  Prog.modify (SpikeFiles.setRefcnt f (x.refcnt - 1))
  if x.refcnt = 2 then do
    Prog.modify (SpikeFiles.setRefcnt f 0)
    let _ ← frontendCall serve [HTIFSYS_close, x.kfd.signExtend 64, 0, 0, 0, 0, 0, 0]
    return
  else return

/-- `spike_file_incref` (`spike_file.c` lines 66–69). -/
def spikeFileIncref (f : FileIdx) : FileM H Unit := do
  let prev ← Prog.gets fun s => (s.spikeFiles f).refcnt
  Prog.modify (SpikeFiles.setRefcnt f (prev + 1))
  if prev = 0 then Prog.halt (.kassert "prev > 0") else return

/-- `spike_file_close` (`spike_file.c` lines 47–54). The index into `spike_fds` is not checked. -/
def spikeFileClose : Option FileIdx → FileM H (BitVec 32)
  | none => return -1
  | some f => do
    let kfd ← Prog.gets fun s => (s.spikeFiles f).kfd
    if h : kfd.toNat < MAX_FILES then do
      let old ← Prog.gets fun s => s.spikeFds ⟨kfd.toNat, h⟩
      Prog.modify fun s => if old = some f then s.setFd ⟨kfd.toNat, h⟩ none else s
      spikeFileDecref serve f
      if old ≠ some f then return -1
      else do
        spikeFileDecref serve f
        return 0
    else Prog.halt .fault

/-- The loop of `spike_file_get_free`. -/
def getFreeFrom : List FileIdx → FileM H (Option FileIdx)
  | [] => return none
  | f :: fs => do
    let refcnt ← Prog.gets fun s => (s.spikeFiles f).refcnt
    if refcnt = 0 then do
      Prog.modify (SpikeFiles.setRefcnt f INIT_FILE_REF)
      return some f
    else getFreeFrom fs

/-- `spike_file_get_free` (`spike_file.c` lines 75–80). -/
def spikeFileGetFree : FileM H (Option FileIdx) := getFreeFrom (List.finRange MAX_FILES)

/-- The loop of `spike_file_dup`. -/
def dupFrom (f : FileIdx) : List (Fin MAX_FILES) → FileM H (BitVec 32)
  | [] => return -1
  | i :: is => do
    let old ← Prog.gets fun s => s.spikeFds i
    if old = none then do
      Prog.modify (SpikeFiles.setFd i (some f))
      spikeFileIncref f
      return BitVec.ofNat 32 i
    else dupFrom f is

/-- `spike_file_dup` (`spike_file.c` lines 82–90). -/
def spikeFileDup (f : FileIdx) : FileM H (BitVec 32) := dupFrom f (List.finRange MAX_FILES)

/-- The loop of `spike_file_init`. -/
def initFrom : List (BitVec 32) → FileM H Unit
  | [] => return
  | i :: is => do
    match ← spikeFileGetFree with
    | none => Prog.halt .fault
    | some f => do
      Prog.modify fun s => s.setFile f { s.spikeFiles f with kfd := i }
      let _ ← spikeFileDup f
      initFrom is

/-- `spike_file_init` (`spike_file.c` lines 92–99). -/
def spikeFileInit : FileM H Unit := initFrom [0, 1, 2]

/-- The arguments of `spike_file_openat`; `fnSize` is `strlen(fn) + 1`. -/
structure OpenArgs where
  dirfd : BitVec 32
  fn : Word
  fnSize : Word
  flags : BitVec 32
  mode : BitVec 32

/-- The system call of `spike_file_openat`. -/
def OpenArgs.call (a : OpenArgs) : List Word :=
  [HTIFSYS_openat, a.dirfd.signExtend 64, a.fn, a.fnSize, a.flags.signExtend 64,
    a.mode.signExtend 64, 0, 0]

/-- `spike_file_openat` (`spike_file.c` lines 101–114): an entry, or the error in `ERR_PTR`. -/
def spikeFileOpenat (a : OpenArgs) : FileM H (Except Word FileIdx) := do
  match ← spikeFileGetFree with
  | none => return .error (-ENOMEM)
  | some f => do
    let ret ← frontendCall serve a.call
    if 0 ≤ ret.toInt then do
      Prog.modify fun s => s.setFile f { s.spikeFiles f with kfd := ret.setWidth 32 }
      return .ok f
    else do
      spikeFileDecref serve f
      return .error ret

/-- A call on a file that only asks the host. -/
def fileCall (n : Word) (f : FileIdx) (a b c : Word) : FileM H Word := do
  let kfd ← Prog.gets fun s => (s.spikeFiles f).kfd
  frontendCall serve [n, kfd.signExtend 64, a, b, c, 0, 0, 0]

/-- `spike_file_write` (`spike_file.c` lines 71–73). -/
def spikeFileWrite (f : FileIdx) (buf size : Word) : FileM H Word :=
  fileCall serve HTIFSYS_write f buf size 0

/-- `spike_file_pread` (`spike_file.c` lines 120–122). -/
def spikeFilePread (f : FileIdx) (buf size offset : Word) : FileM H Word :=
  fileCall serve HTIFSYS_pread f buf size offset

/-- `spike_file_read` (`spike_file.c` lines 124–126). -/
def spikeFileRead (f : FileIdx) (buf size : Word) : FileM H Word :=
  fileCall serve HTIFSYS_read f buf size 0

/-- `spike_file_lseek` (`spike_file.c` lines 128–130). -/
def spikeFileLseek (f : FileIdx) (ptr : Word) (dir : BitVec 32) : FileM H Word :=
  fileCall serve HTIFSYS_lseek f ptr (dir.signExtend 64) 0

/-- The calls on a file that only ask the host. -/
inductive FileOp where
  | write (f : FileIdx) (buf size : Word)
  | pread (f : FileIdx) (buf size offset : Word)
  | read (f : FileIdx) (buf size : Word)
  | lseek (f : FileIdx) (ptr : Word) (dir : BitVec 32)

def FileOp.code : FileOp → FileM H Word
  | write f buf size => spikeFileWrite serve f buf size
  | pread f buf size offset => spikeFilePread serve f buf size offset
  | read f buf size => spikeFileRead serve f buf size
  | lseek f ptr dir => spikeFileLseek serve f ptr dir

/-- The code asks the host once, and not for a close. -/
def AsksHost (c : FileM H Word) (s : SpikeFiles H) : Prop :=
  ∃ args : List Word, args.head? ≠ some HTIFSYS_close ∧ c s = .ret (serve s.host args).1
    { s with host := (serve s.host args).2, calls := s.calls ++ [args] }

theorem fileCall_asksHost {n : Word} (hn : n ≠ HTIFSYS_close) (f : FileIdx) (a b c : Word)
    (s : SpikeFiles H) : AsksHost serve (fileCall serve n f a b c) s := by
  refine ⟨[n, (s.spikeFiles f).kfd.signExtend 64, a, b, c, 0, 0, 0], ?_, rfl⟩
  simpa using hn

theorem FileOp.code_asksHost (op : FileOp) (s : SpikeFiles H) :
    AsksHost serve (op.code serve) s := by
  cases op with
  | write => exact fileCall_asksHost serve (by decide) _ _ _ _ s
  | pread => exact fileCall_asksHost serve (by decide) _ _ _ _ s
  | read => exact fileCall_asksHost serve (by decide) _ _ _ _ s
  | lseek => exact fileCall_asksHost serve (by decide) _ _ _ _ s

end Code

/-! ## What the functions do -/

section Functions

variable {serve : H → List Word → Word × H} {s : SpikeFiles H}

theorem getFreeFrom_eq (l : List FileIdx) (s : SpikeFiles H) :
    getFreeFrom l s = .ret (l.find? fun f => (s.spikeFiles f).refcnt = 0)
      ((l.find? fun f => (s.spikeFiles f).refcnt = 0).elim s
        fun f => s.setRefcnt f INIT_FILE_REF) := by
  induction l with
  | nil => rfl
  | cons f l ih =>
    rw [getFreeFrom, Prog.bind_apply, Prog.gets_apply]
    by_cases hf : (s.spikeFiles f).refcnt = 0
    · simp only [hf, if_true, List.find?_cons_of_pos, decide_true]
      rfl
    · simp only [hf, if_false, List.find?_cons_of_neg, decide_false, Bool.false_eq_true,
        not_false_eq_true]
      exact ih

/-- The first entry with a property. -/
theorem find?_finRange {n : ℕ} {p : Fin n → Bool} {f : Fin n} (hf : p f = true)
    (hlt : ∀ g < f, p g = false) : (List.finRange n).find? p = some f := by
  rw [List.find?_eq_some_iff_getElem]
  refine ⟨hf, f.val, by simp, by simp, fun j hj => ?_⟩
  simp [hlt ⟨j, by omega⟩ hj]

theorem spikeFileGetFree_some {f : FileIdx} (hf : (s.spikeFiles f).refcnt = 0)
    (hlt : ∀ g < f, (s.spikeFiles g).refcnt ≠ 0) :
    spikeFileGetFree s = .ret (some f) (s.setRefcnt f INIT_FILE_REF) := by
  rw [spikeFileGetFree, getFreeFrom_eq,
    find?_finRange (decide_eq_true hf) fun g hg => decide_eq_false (hlt g hg)]
  rfl

theorem spikeFileGetFree_none (h : ∀ f, (s.spikeFiles f).refcnt ≠ 0) :
    spikeFileGetFree s = .ret none s := by
  have hnone : (List.finRange MAX_FILES).find? (fun f => (s.spikeFiles f).refcnt = 0) = none := by
    rw [List.find?_eq_none]
    intro f _
    simpa using h f
  rw [spikeFileGetFree, getFreeFrom_eq, hnone]
  rfl

theorem dupFrom_eq {f : FileIdx} {i : Fin MAX_FILES} {l : List (Fin MAX_FILES)}
    (h : l.find? (fun i => (s.spikeFds i).isNone) = some i) :
    dupFrom f l s = (do
      Prog.modify (SpikeFiles.setFd i (some f))
      spikeFileIncref f
      return BitVec.ofNat 32 i : FileM H (BitVec 32)) s := by
  induction l with
  | nil => cases h
  | cons j l ih =>
    rw [dupFrom, Prog.bind_apply, Prog.gets_apply]
    by_cases hj : s.spikeFds j = none
    · rw [List.find?_cons_of_pos (by simp [hj])] at h
      cases h
      simp only [hj, if_true]
    · rw [List.find?_cons_of_neg (by simpa [Option.isNone_iff_eq_none] using hj)] at h
      simp only [hj, if_false]
      exact ih h

end Functions

/-! ## `spike_file_init` -/

/-- The variables before `spike_file_init`. -/
def SpikeFiles.initial (h : H) : SpikeFiles H := ⟨fun _ => none, fun _ => ⟨-1, 0⟩, h, []⟩

/-- The first `i` standard files are there. -/
structure FilesStarted (i : ℕ) (s : SpikeFiles H) : Prop where
  fds : ∀ j, s.spikeFds j = if j.val < i then some j else none
  refcnt : ∀ f, (s.spikeFiles f).refcnt = if f.val < i then 4 else 0
  calls : s.calls = []

/-- The entry after one round of `spike_file_init`. -/
def SpikeFiles.addStd (f : FileIdx) (x : BitVec 32) (s : SpikeFiles H) : SpikeFiles H :=
  (s.setFile f ⟨x, 4⟩).setFd f (some f)

theorem FilesStarted.step {i : ℕ} {s : SpikeFiles H} (h : FilesStarted i s) (hi : i < MAX_FILES)
    (x : BitVec 32) (xs : List (BitVec 32)) :
    initFrom (x :: xs) s = initFrom xs (s.addStd ⟨i, hi⟩ x) := by
  have hfree := spikeFileGetFree_some (s := s) (f := ⟨i, hi⟩) (by rw [h.refcnt]; simp)
    fun g hg => by rw [h.refcnt, if_pos (Fin.lt_def.mp hg)]; decide
  have hdup : (List.finRange MAX_FILES).find? (fun j => (s.spikeFds j).isNone) =
      some ⟨i, hi⟩ := find?_finRange (by rw [h.fds]; simp)
    fun g hg => by rw [h.fds, if_pos (Fin.lt_def.mp hg)]; rfl
  rw [initFrom, Prog.bind_of_ret hfree]
  set s₁ := (s.setRefcnt ⟨i, hi⟩ INIT_FILE_REF).setFile ⟨i, hi⟩
    { (s.setRefcnt ⟨i, hi⟩ INIT_FILE_REF).spikeFiles ⟨i, hi⟩ with kfd := x } with hs₁
  have hrun : spikeFileDup ⟨i, hi⟩ s₁ = .ret (BitVec.ofNat 32 i) (s.addStd ⟨i, hi⟩ x) := by
    rw [spikeFileDup, dupFrom_eq (s := s₁) hdup]
    simp [Prog.bind_apply, spikeFileIncref, hs₁, SpikeFiles.setRefcnt, SpikeFiles.setFile,
      SpikeFiles.setFd, SpikeFiles.addStd, INIT_FILE_REF]
  exact Prog.bind_of_ret hrun _

theorem FilesStarted.add {i : ℕ} {s : SpikeFiles H} (h : FilesStarted i s) (hi : i < MAX_FILES)
    (x : BitVec 32) : FilesStarted (i + 1) (s.addStd ⟨i, hi⟩ x) := by
  refine ⟨fun j => ?_, fun f => ?_, h.calls⟩
  · show Function.update s.spikeFds ⟨i, hi⟩ (some ⟨i, hi⟩) j = _
    by_cases hj : j = ⟨i, hi⟩
    · subst hj
      simp
    · rw [Function.update_of_ne hj, h.fds]
      have : j.val ≠ i := fun heq => hj (Fin.ext heq)
      simp only [show (j.val < i + 1) = (j.val < i) from propext (by omega)]
  · show (Function.update s.spikeFiles ⟨i, hi⟩ ⟨x, 4⟩ f).refcnt = _
    by_cases hf : f = ⟨i, hi⟩
    · subst hf
      simp
    · rw [Function.update_of_ne hf, h.refcnt]
      have : f.val ≠ i := fun heq => hf (Fin.ext heq)
      simp only [show (f.val < i + 1) = (f.val < i) from propext (by omega)]

theorem spikeFileInit_started (h : H) :
    ∃ s, spikeFileInit (SpikeFiles.initial h) = .ret () s ∧ FilesStarted 3 s := by
  have h₀ : FilesStarted 0 (SpikeFiles.initial h) := ⟨fun _ => rfl, fun _ => rfl, rfl⟩
  have h₁ := h₀.add (by decide) 0
  have h₂ := h₁.add (by decide) 1
  refine ⟨_, ?_, h₂.add (by decide) 2⟩
  rw [spikeFileInit, h₀.step (by decide), h₁.step (by decide), h₂.step (by decide)]
  rfl

/-! ## Runs -/

/-- Runs of the kernel: it opens files, works on them and closes each of them at most once.
    `k` counts the calls of `spike_file_openat`, and `hs` are the files that are open. -/
inductive FileRun (serve : H → List Word → Word × H) : ℕ → List FileIdx → SpikeFiles H → Prop where
  | init {h : H} {s : SpikeFiles H} (hrun : spikeFileInit (SpikeFiles.initial h) = .ret () s) :
    FileRun serve 0 [] s
  | opened {k : ℕ} {hs : List FileIdx} {s s' : SpikeFiles H} {a : OpenArgs} {f : FileIdx}
      (h : FileRun serve k hs s) (hrun : spikeFileOpenat serve a s = .ret (.ok f) s') :
    FileRun serve (k + 1) (f :: hs) s'
  | failed {k : ℕ} {hs : List FileIdx} {s s' : SpikeFiles H} {a : OpenArgs} {e : Word}
      (h : FileRun serve k hs s) (hrun : spikeFileOpenat serve a s = .ret (.error e) s') :
    FileRun serve (k + 1) hs s'
  | closed {k : ℕ} {hs : List FileIdx} {s s' : SpikeFiles H} {f : FileIdx} {r : BitVec 32}
      (h : FileRun serve k hs s) (hf : f ∈ hs)
      (hrun : spikeFileClose serve (some f) s = .ret r s') : FileRun serve k (hs.erase f) s'
  | called {k : ℕ} {hs : List FileIdx} {s s' : SpikeFiles H} {op : FileOp} {r : Word}
      (h : FileRun serve k hs s) (hrun : op.code serve s = .ret r s') : FileRun serve k hs s'

/-- The count of an entry that was taken by `spike_file_openat`, with the files `hs` open. -/
def CountFor (hs : List FileIdx) (f : FileIdx) (n : BitVec 32) : Prop :=
  (f ∈ hs → n = 3) ∧ (f ∉ hs → n = 2)

/-- The table after `k` calls of `spike_file_openat` with the files `hs` open. -/
structure FilesOk (k : ℕ) (hs : List FileIdx) (s : SpikeFiles H) : Prop where
  fds : ∀ j, s.spikeFds j = if j.val < 3 then some j else none
  std : ∀ f, f.val < 3 → (s.spikeFiles f).refcnt = 4
  taken : ∀ f, 3 ≤ f.val → f.val < 3 + k → CountFor hs f (s.spikeFiles f).refcnt
  free : ∀ f, 3 + k ≤ f.val → (s.spikeFiles f).refcnt = 0
  nodup : hs.Nodup
  handles : ∀ f ∈ hs, 3 ≤ f.val ∧ f.val < 3 + k
  quiet : ∀ args ∈ s.calls, args.head? ≠ some HTIFSYS_close

section Steps

variable {serve : H → List Word → Word × H} {s s' : SpikeFiles H} {k : ℕ} {hs : List FileIdx}

theorem FilesStarted.ok (h : FilesStarted 3 s) : FilesOk 0 [] s where
  fds := h.fds
  std f hf := by rw [h.refcnt, if_pos hf]
  taken f h1 h2 := absurd h2 (by omega)
  free f hf := by rw [h.refcnt, if_neg (by omega)]
  nodup := List.nodup_nil
  handles f hf := absurd hf List.not_mem_nil
  quiet args hargs := by simp [h.calls] at hargs

/-- Without a count of 2, `spike_file_decref` only counts down. -/
theorem spikeFileDecref_eq {f : FileIdx} (h : (s.spikeFiles f).refcnt ≠ 2) :
    spikeFileDecref serve f s = .ret () (s.setRefcnt f ((s.spikeFiles f).refcnt - 1)) := by
  rw [spikeFileDecref, Prog.bind_apply, Prog.gets_apply]
  simp only [h, if_false]
  rfl

theorem FilesOk.taken_ne_zero (h : FilesOk k hs s) {f : FileIdx} (hf : f.val < 3 + k) :
    (s.spikeFiles f).refcnt ≠ 0 := by
  by_cases h3 : f.val < 3
  · rw [h.std f h3]
    decide
  · have hcount := h.taken f (by omega) hf
    by_cases hmem : f ∈ hs
    · rw [hcount.1 hmem]
      decide
    · rw [hcount.2 hmem]
      decide

/-- What a new value of an entry does to the table. -/
theorem FilesOk.setFile {f : FileIdx} {k' : ℕ} {hs' : List FileIdx} {x : SpikeFile}
    (h : FilesOk k hs s) (hlow : 3 ≤ f.val) (hhigh : f.val < 3 + k') (hk : k ≤ k')
    (hnew : ∀ g, g ≠ f → g.val < 3 + k' → g.val < 3 + k)
    (hx : CountFor hs' f x.refcnt) (hsame : ∀ g, g ≠ f → (g ∈ hs' ↔ g ∈ hs))
    (hnodup : hs'.Nodup) : FilesOk k' hs' (s.setFile f x) := by
  have hother : ∀ g, g ≠ f → (s.setFile f x).spikeFiles g = s.spikeFiles g :=
    fun g hg => Function.update_of_ne hg _ _
  have hself : (s.setFile f x).spikeFiles f = x := Function.update_self _ _ _
  refine ⟨h.fds, fun g hg => ?_, fun g h1 h2 => ?_, fun g hg => ?_, hnodup, fun g hg => ?_,
    h.quiet⟩
  · rw [hother g (by rintro rfl; omega), h.std g hg]
  · by_cases hgf : g = f
    · rw [hgf, hself]
      exact hx
    · rw [hother g hgf, CountFor, hsame g hgf]
      exact h.taken g h1 (hnew g hgf h2)
  · rw [hother g (by rintro rfl; omega), h.free g (by omega)]
  · by_cases hgf : g = f
    · rw [hgf]
      exact ⟨hlow, hhigh⟩
    · have := h.handles g ((hsame g hgf).mp hg)
      omega

/-- **A close counts down once**, if `kfd` is an index of `spike_fds`. -/
theorem FilesOk.close_eq (serve : H → List Word → Word × H) {f : FileIdx} (h : FilesOk k hs s)
    (hf : f ∈ hs) : spikeFileClose serve (some f) s =
      if (s.spikeFiles f).kfd.toNat < MAX_FILES then .ret (-1) (s.setRefcnt f 2)
      else .halt .fault := by
  obtain ⟨hlow, hhigh⟩ := h.handles f hf
  have hthree : (s.spikeFiles f).refcnt = 3 := (h.taken f hlow hhigh).1 hf
  rw [spikeFileClose, Prog.bind_apply, Prog.gets_apply]
  by_cases hkfd : (s.spikeFiles f).kfd.toNat < MAX_FILES
  · have hold : s.spikeFds ⟨(s.spikeFiles f).kfd.toNat, hkfd⟩ ≠ some f := by
      rw [h.fds]
      split_ifs with h3
      · intro heq
        rw [← Option.some.inj heq] at hlow
        omega
      · exact fun heq => by cases heq
    simp only [hkfd, dite_true, if_true]
    rw [Prog.bind_apply, Prog.gets_apply]
    simp only [hold, if_false]
    rw [Prog.bind_apply, Prog.modify_apply]
    simp only
    rw [Prog.bind_of_ret (spikeFileDecref_eq (by rw [hthree]; decide)), if_pos hold, hthree]
    rfl
  · simp only [hkfd, dite_false, if_false]
    rfl

theorem FilesOk.close {f : FileIdx} {r : BitVec 32} (h : FilesOk k hs s) (hf : f ∈ hs)
    (hrun : spikeFileClose serve (some f) s = .ret r s') : FilesOk k (hs.erase f) s' := by
  obtain ⟨hlow, hhigh⟩ := h.handles f hf
  rw [h.close_eq serve hf] at hrun
  split_ifs at hrun
  cases hrun
  exact h.setFile hlow hhigh le_rfl (fun g _ hg => hg)
    ⟨fun hmem => absurd hmem h.nodup.not_mem_erase, fun _ => rfl⟩
    (fun g hg => List.mem_erase_of_ne hg) (h.nodup.erase f)

theorem FilesOk.call (h : FilesOk k hs s) {args : List Word}
    (hargs : args.head? ≠ some HTIFSYS_close) (host : H) :
    FilesOk k hs { s with host := host, calls := s.calls ++ [args] } :=
  { h with
    quiet := fun a ha => by
      rcases List.mem_append.mp ha with ha | ha
      · exact h.quiet a ha
      · rwa [List.mem_singleton.mp ha] }

/-- The table is full. -/
theorem FilesOk.openat_full (serve : H → List Word → Word × H) (h : FilesOk k hs s)
    (hk : 125 ≤ k) (a : OpenArgs) :
    spikeFileOpenat serve a s = .ret (.error (-ENOMEM)) s ∧ FilesOk (k + 1) hs s := by
  have hlt : ∀ f : FileIdx, f.val < 3 + k := fun f =>
    Nat.lt_of_lt_of_le f.isLt (show 128 ≤ 3 + k by omega)
  constructor
  · have hnone := spikeFileGetFree_none (s := s) fun f => h.taken_ne_zero (hlt f)
    rw [spikeFileOpenat, Prog.bind_of_ret hnone]
    rfl
  · refine ⟨h.fds, h.std, fun f h1 _ => h.taken f h1 (hlt f), fun f hf => ?_, h.nodup,
      fun f hf => ⟨(h.handles f hf).1, Nat.lt_succ_of_lt (hlt f)⟩, h.quiet⟩
    have := hlt f
    omega

/-- The state behind the call to the host, with the entry that was taken. -/
def SpikeFiles.opening (serve : H → List Word → Word × H) (args : List Word) (f : FileIdx)
    (x : SpikeFile) (s : SpikeFiles H) : SpikeFiles H :=
  { s.setFile f x with host := (serve s.host args).2, calls := s.calls ++ [args] }

/-- With room in the table an entry is taken, whether or not the host opens the file. -/
theorem openat_room {f : FileIdx} (hfree : (s.spikeFiles f).refcnt = 0)
    (hlt : ∀ g < f, (s.spikeFiles g).refcnt ≠ 0) (a : OpenArgs) :
    spikeFileOpenat serve a s = if 0 ≤ (serve s.host a.call).1.toInt then
        .ret (.ok f) (s.opening serve a.call f ⟨(serve s.host a.call).1.setWidth 32, 3⟩)
      else .ret (.error (serve s.host a.call).1)
        (s.opening serve a.call f ⟨(s.spikeFiles f).kfd, 2⟩) := by
  have hcall : frontendCall serve a.call (s.setRefcnt f INIT_FILE_REF) =
      .ret (serve s.host a.call).1
        (s.opening serve a.call f { s.spikeFiles f with refcnt := INIT_FILE_REF }) := rfl
  rw [spikeFileOpenat, Prog.bind_of_ret (spikeFileGetFree_some hfree hlt)]
  simp only
  rw [Prog.bind_of_ret hcall]
  split_ifs with hret
  · show Out.ret _ (SpikeFiles.setFile f _ _) = _
    simp [SpikeFiles.opening, SpikeFiles.setFile, INIT_FILE_REF]
  · rw [Prog.bind_of_ret (spikeFileDecref_eq ?_)]
    · show Out.ret _ (SpikeFiles.setRefcnt f _ _) = _
      simp [SpikeFiles.opening, SpikeFiles.setFile, SpikeFiles.setRefcnt, INIT_FILE_REF]
    · simp [SpikeFiles.opening, SpikeFiles.setFile, INIT_FILE_REF]

theorem FilesOk.opening {f : FileIdx} {x : SpikeFile} {hs' : List FileIdx} (h : FilesOk k hs s)
    (hf : f.val = 3 + k) (hx : CountFor hs' f x.refcnt)
    (hsame : ∀ g, g ≠ f → (g ∈ hs' ↔ g ∈ hs)) (hnodup : hs'.Nodup) (a : OpenArgs) :
    FilesOk (k + 1) hs' (s.opening serve a.call f x) := by
  refine (h.setFile (by omega) (by omega) (Nat.le_succ k) (fun g hg hlt => ?_) hx hsame
    hnodup).call ?_ _
  · have : g.val ≠ f.val := fun heq => hg (Fin.ext heq)
    omega
  · rw [OpenArgs.call, List.head?_cons]
    decide

/-- **What a call of `spike_file_openat` does to the table.** -/
theorem FilesOk.openat {a : OpenArgs} {r : Except Word FileIdx} (h : FilesOk k hs s)
    (hrun : spikeFileOpenat serve a s = .ret r s') :
    (∀ f, r = .ok f → FilesOk (k + 1) (f :: hs) s') ∧
      ∀ e, r = .error e → FilesOk (k + 1) hs s' := by
  by_cases hk : 125 ≤ k
  · obtain ⟨hfull, hok⟩ := h.openat_full serve hk a
    rw [hrun] at hfull
    cases hfull
    exact ⟨fun f hf => (by cases hf), fun _ _ => hok⟩
  set f : FileIdx := ⟨3 + k, show 3 + k < 128 by omega⟩ with hf
  have hnot : f ∉ hs := fun hmem => absurd (h.handles f hmem).2 (lt_irrefl _)
  rw [openat_room (h.free f le_rfl) fun g hg => h.taken_ne_zero (Fin.lt_def.mp hg)] at hrun
  split_ifs at hrun with hret
  · cases hrun
    refine ⟨fun g hg => ?_, fun e he => (by cases he)⟩
    cases hg
    exact h.opening rfl ⟨fun _ => rfl, fun hn => absurd List.mem_cons_self hn⟩
      (fun g hg => by simp [hg])
      (List.nodup_cons.mpr ⟨hnot, h.nodup⟩) a
  · cases hrun
    exact ⟨fun g hg => (by cases hg), fun _ _ => h.opening rfl
      ⟨fun hmem => absurd hmem hnot, fun _ => rfl⟩ (fun g _ => Iff.rfl) h.nodup a⟩

end Steps

section Runs

variable {serve : H → List Word → Word × H} {s s' : SpikeFiles H} {k : ℕ} {hs : List FileIdx}

theorem FileRun.ok (h : FileRun serve k hs s) : FilesOk k hs s := by
  induction h with
  | @init h s hrun =>
    obtain ⟨s', hinit, hstarted⟩ := spikeFileInit_started h
    rw [hrun] at hinit
    cases hinit
    exact hstarted.ok
  | opened _ hrun ih => exact (ih.openat hrun).1 _ rfl
  | failed _ hrun ih => exact (ih.openat hrun).2 _ rfl
  | closed _ hf hrun ih => exact ih.close hf hrun
  | @called k hs s s' op r _ hrun ih =>
    obtain ⟨args, hargs, hcall⟩ := op.code_asksHost serve s
    rw [hcall] at hrun
    cases hrun
    exact ih.call hargs _

/-- `spike_file_openat` returns in every run. -/
theorem FileRun.openat (h : FileRun serve k hs s) (a : OpenArgs) :
    if 125 ≤ k then spikeFileOpenat serve a s = .ret (.error (-ENOMEM)) s
    else ∃ r s', spikeFileOpenat serve a s = .ret r s' ∧ s'.calls = s.calls ++ [a.call] := by
  have hok := h.ok
  split_ifs with hk
  · exact (hok.openat_full serve hk a).1
  rw [openat_room (f := ⟨3 + k, show 3 + k < 128 by omega⟩) (hok.free _ le_rfl)
    fun g hg => hok.taken_ne_zero (Fin.lt_def.mp hg)]
  split_ifs
  · exact ⟨_, _, rfl, rfl⟩
  · exact ⟨_, _, rfl, rfl⟩

/-- There are runs of any length. -/
theorem FileRun.exists (serve : H → List Word → Word × H) (h : H) (k : ℕ) :
    ∃ hs s, FileRun serve k hs s := by
  induction k with
  | zero =>
    obtain ⟨s, hrun, -⟩ := spikeFileInit_started h
    exact ⟨[], s, .init hrun⟩
  | succ k ih =>
    obtain ⟨hs, s, hrun⟩ := ih
    have hopen := hrun.openat ⟨0, 0, 0, 0, 0⟩
    obtain ⟨r, s', hret⟩ : ∃ r s', spikeFileOpenat serve ⟨0, 0, 0, 0, 0⟩ s = .ret r s' := by
      split_ifs at hopen
      · exact ⟨_, _, hopen⟩
      · exact ⟨_, _, hopen.choose_spec.choose_spec.1⟩
    cases r with
    | ok f => exact ⟨f :: hs, s', .opened hrun hret⟩
    | error e => exact ⟨hs, s', .failed hrun hret⟩

/-- **What the table looks like after any run.** Every call of `spike_file_openat` has taken an
    entry for good: after `k` calls the first `3 + k` entries are taken and no other, however
    many files the host refused to open and however many were closed; and the host was never
    asked to close a file. -/
theorem files_run (h : FileRun serve k hs s) :
    (∀ f, (s.spikeFiles f).refcnt ≠ 0 ↔ f.val < 3 + k) ∧
      ∀ args ∈ s.calls, args.head? ≠ some HTIFSYS_close := by
  have hok := h.ok
  refine ⟨fun f => ⟨fun hne => ?_, hok.taken_ne_zero⟩, hok.quiet⟩
  by_contra hle
  exact hne (hok.free f (by omega))

theorem files_run_sample : ∃ hs s, FileRun (fun (n : ℕ) _ => (5, n + 1)) 2 hs s ∧
    ∀ f : FileIdx, (s.spikeFiles f).refcnt ≠ 0 ↔ f.val < 5 := by
  obtain ⟨hs, s, hrun⟩ := FileRun.exists (fun (n : ℕ) _ => (5, n + 1)) 0 2
  exact ⟨hs, s, hrun, (files_run hrun).1⟩

/-- **The table is full after 125 calls.** Then `spike_file_openat` fails with `-ENOMEM` and asks
    nobody, and before it never runs out of entries. The close of an open file returns -1; if
    the host has given it a number beyond `spike_fds`, it reads behind the table. -/
theorem files_exhausted (h : FileRun serve k hs s) (a : OpenArgs) :
    (125 ≤ k → spikeFileOpenat serve a s = .ret (.error (-ENOMEM)) s) ∧
      (k < 125 → ∃ r s', spikeFileOpenat serve a s = .ret r s' ∧
        s'.calls = s.calls ++ [a.call]) ∧
      ∀ f ∈ hs, if (s.spikeFiles f).kfd.toNat < MAX_FILES
        then ∃ s', spikeFileClose serve (some f) s = .ret (-1) s'
        else spikeFileClose serve (some f) s = .halt .fault := by
  have hopen := h.openat a
  refine ⟨fun hk => ?_, fun hk => ?_, fun f hf => ?_⟩
  · rwa [if_pos hk] at hopen
  · rwa [if_neg (by omega)] at hopen
  · rw [h.ok.close_eq serve hf]
    split_ifs
    · exact ⟨_, rfl⟩
    · rfl

theorem files_exhausted_sample : ∃ hs s, FileRun (fun (n : ℕ) _ => (5, n + 1)) 125 hs s ∧
    spikeFileOpenat (fun (n : ℕ) _ => (5, n + 1)) ⟨0, 0, 0, 0, 0⟩ s =
      .ret (.error (-ENOMEM)) s := by
  obtain ⟨hs, s, hrun⟩ := FileRun.exists (fun (n : ℕ) _ => (5, n + 1)) 0 125
  exact ⟨hs, s, hrun, (files_exhausted hrun _).1 le_rfl⟩

end Runs

end Pke
