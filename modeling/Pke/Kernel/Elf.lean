import Pke.Kernel.Process

/-!
# Loading the application: the code

`kernel/elf.c`. The host file is read through `spike_file_pread`; the host may
deliver fewer bytes than asked for, or an error.
-/

namespace Pke

open Lib

/-- A file of the host: its bytes, and the value `spike_file_pread` returns for
    an offset and a length. A result above the length is an error code. -/
structure HostFile where
  byte : ℕ → BitVec 8
  pread : (off n : Word) → Word

/-- The little-endian number in `k` bytes of a file. -/
def HostFile.le (f : HostFile) : (off k : ℕ) → ℕ
  | _, 0 => 0
  | off, k + 1 => (f.byte off).toNat + 256 * f.le (off + 1) k

/-- The call `elf_fpread(ctx, dest, n, off)` with `dest` in physical memory. -/
def elfFpread (f : HostFile) (dest n off : Word) : PhysM Word := do
  let got := f.pread off n
  Prog.modify fun s => { s with
    mem := (List.range (if got ≤ n then got.toNat else 0)).foldl
      (fun m k => store8 m (dest + BitVec.ofNat 64 k) (f.byte (off.toNat + k))) s.mem }
  return got

/-- The fields of `elf_header` that the loader reads (`kernel/elf.h` lines 10–26). -/
structure ElfHeader where
  magic : BitVec 32
  entry : Word
  phoff : Word
  phnum : BitVec 16

def HostFile.elfHeader (f : HostFile) : ElfHeader where
  magic := BitVec.ofNat 32 (f.le 0 4)
  entry := BitVec.ofNat 64 (f.le 24 8)
  phoff := BitVec.ofNat 64 (f.le 32 8)
  phnum := BitVec.ofNat 16 (f.le 56 2)

/-- The fields of `elf_prog_header` that the loader reads (`kernel/elf.h` lines
    34–43). -/
structure ElfProgHeader where
  type : BitVec 32
  flags : BitVec 32
  off : Word
  vaddr : Word
  filesz : Word
  memsz : Word

def HostFile.progHeader (f : HostFile) (off : ℕ) : ElfProgHeader where
  type := BitVec.ofNat 32 (f.le off 4)
  flags := BitVec.ofNat 32 (f.le (off + 4) 4)
  off := BitVec.ofNat 64 (f.le (off + 8) 8)
  vaddr := BitVec.ofNat 64 (f.le (off + 16) 8)
  filesz := BitVec.ofNat 64 (f.le (off + 32) 8)
  memsz := BitVec.ofNat 64 (f.le (off + 40) 8)

def ELF_MAGIC : BitVec 32 := 0x464C457F
def ELF_PROG_LOAD : BitVec 32 := 1

/-- `SEGMENT_READABLE` and so on (`kernel/elf.h` lines 29–31). -/
def SEGMENT_READABLE : BitVec 32 := 4
def SEGMENT_EXECUTABLE : BitVec 32 := 1
def SEGMENT_WRITABLE : BitVec 32 := 2

/-- The enumeration `elf_status` (`kernel/elf.h` lines 48–56). -/
inductive ElfStatus where
  | elOk | elEio | elEnomem | elNotelf | elErr
  deriving DecidableEq, Repr

/-- `elf_alloc_mb` (`kernel/elf.c` lines 21–33). -/
def elfAllocMb (pagetable elfVa size : Word) : PhysM Word :=
  if PGSIZE ≤ size then Prog.halt (.kassert "size < PGSIZE")
  else do
    let pa ← allocPage
    if pa = 0 then Prog.halt (.panic "uvmalloc mem alloc falied\n" [])
    else do
      physMemset pa 0 4096
      userVmMap pagetable elfVa PGSIZE pa
        (protToType (PROT_WRITE ||| PROT_READ ||| PROT_EXEC) 1)
      return pa

/-- `elf_init` (`kernel/elf.c` lines 47–57). -/
def elfInit (f : HostFile) : ElfStatus :=
  if f.pread 0 64 ≠ 64 then .elEio
  else if f.elfHeader.magic ≠ ELF_MAGIC then .elNotelf
  else .elOk

/-- The first unused entry of a region table, or 256 when there is none
    (`kernel/elf.c` lines 83–85). -/
def freeRegion (m : Mem) (mappedInfo : Word) : ℕ :=
  ((List.range 256).find? fun j => load64 m (regionAddr mappedInfo j) = 0).getD 256

/-- Recording a loaded segment in `mapped_info` (`kernel/elf.c` lines 82–97). -/
def recordSegment (i : Pid) (ph : ElfProgHeader) : KernelM Unit := do
  let p ← proc i
  let j ← onPhys (Prog.gets fun s => freeRegion s.mem p.mappedInfo)
  if ph.flags = SEGMENT_READABLE ||| SEGMENT_EXECUTABLE then do
    onPhys (storeRegion (regionAddr p.mappedInfo j) ph.vaddr 1 .CODE)
    sprint (.text "CODE_SEGMENT added at mapped info offset:%d\n" [BitVec.ofNat 64 j])
  else if ph.flags = SEGMENT_READABLE ||| SEGMENT_WRITABLE then do
    onPhys (storeRegion (regionAddr p.mappedInfo j) ph.vaddr 1 .DATA)
    sprint (.text "DATA_SEGMENT added at mapped info offset:%d\n" [BitVec.ofNat 64 j])
  else
    Prog.halt (.panic "unknown program segment encountered, segment flag:%d.\n"
      [ph.flags.setWidth 64])
  setProc i fun p => { p with totalMappedRegion := p.totalMappedRegion + 1 }

/-- The loop of `elf_load` over `n` more program headers, the first at `off`. -/
def elfLoadLoop (f : HostFile) (i : Pid) : ℕ → BitVec 32 → KernelM ElfStatus
  | 0, _ => return .elOk
  | n + 1, off => do
    if f.pread (off.signExtend 64) 56 ≠ 56 then return .elEio
    else
      let ph := f.progHeader (off.signExtend 64 : Word).toNat
      if ph.type ≠ ELF_PROG_LOAD then elfLoadLoop f i n (off + 56)
      else if ph.memsz < ph.filesz then return .elErr
      else if ph.vaddr + ph.memsz < ph.vaddr then return .elErr
      else do
        let p ← proc i
        let dest ← onPhys (elfAllocMb p.pagetable ph.vaddr ph.memsz)
        let got ← onPhys (elfFpread f dest ph.memsz ph.off)
        if got ≠ ph.memsz then return .elEio
        else do
          recordSegment i ph
          elfLoadLoop f i n (off + 56)

/-- `elf_load` (`kernel/elf.c` lines 62–101). -/
def elfLoad (f : HostFile) (i : Pid) : KernelM ElfStatus :=
  elfLoadLoop f i f.elfHeader.phnum.toNat (f.elfHeader.phoff.setWidth 32)

/-- What the kernel gets from the host at boot: the size of the memory, the
    result of the `getmainvars` call and the number of command line strings it
    delivered, and the file named by the second of them if it can be opened. -/
structure Host where
  memSize : Word
  mainvars : Word
  argc : Word
  file : Option HostFile

/-- `parse_args` (`kernel/elf.c` lines 112–127). -/
def parseArgs (h : Host) : KernelM Word :=
  if h.mainvars ≠ 0 then Prog.halt (.kassert "r == 0") else return h.argc - 1

/-- `load_bincode_from_host_elf` (`kernel/elf.c` lines 132–163). -/
def loadBincodeFromHostElf (h : Host) (i : Pid) : KernelM Unit := do
  let argc ← parseArgs h
  if argc = 0 then Prog.halt (.panic "You need to specify the application program!\n" [])
  else do
    sprint (.text "Application: %s\n" [])
    match h.file with
    | none => Prog.halt (.panic "Fail on openning the input application program.\n" [])
    | some f => do
      if elfInit f ≠ .elOk then Prog.halt (.panic "fail to init elfloader.\n" [])
      else do
        let r ← elfLoad f i
        if r ≠ .elOk then Prog.halt (.panic "Fail on loading elf.\n" [])
        else do
          let p ← proc i
          onPhys (store (tfEpc p.trapframe) f.elfHeader.entry)
          let epc ← onPhys (load (tfEpc p.trapframe))
          sprint (.text "Application program entry point (virtual address): 0x%lx\n" [epc])

end Pke
