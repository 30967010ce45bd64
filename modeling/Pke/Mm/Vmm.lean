import Pke.Mm.Pmm

/-!
# Page tables: the code

`kernel/vmm.c` over physical memory. A page table is the address of its root
page, and the kernel runs with direct mapping, so `page_walk` and `map_pages`
read and write table entries at their physical addresses. Accesses through a
NULL pointer that the code does not test for stop the machine (`Halt.fault`).
-/

namespace Pke

open Lib

/-! ## Bits of a page table entry (`kernel/riscv.h` lines 158–181) -/

def PTE_V : Word := 1 <<< 0
def PTE_R : Word := 1 <<< 1
def PTE_W : Word := 1 <<< 2
def PTE_X : Word := 1 <<< 3
def PTE_U : Word := 1 <<< 4
def PTE_A : Word := 1 <<< 6
def PTE_D : Word := 1 <<< 7

def PA2PTE (pa : Word) : Word := pa >>> 12 <<< 10

def PTE2PA (pte : Word) : Word := pte >>> 10 <<< 12

/-- The index of `va` in the table of a level, `PX(level, va)`. -/
def PX (level : ℕ) (va : Word) : Idx := (va >>> (12 + 9 * level)).setWidth 9

def MAXVA : Word := 1 <<< 38

def PROT_READ : BitVec 32 := 1
def PROT_WRITE : BitVec 32 := 2
def PROT_EXEC : BitVec 32 := 4

/-- `prot_to_type` (`kernel/vmm.c` lines 36–44). -/
def protToType (prot user : BitVec 32) : Word :=
  let perm := 0
  let perm := if prot &&& PROT_READ ≠ 0 then perm ||| (PTE_R ||| PTE_A) else perm
  let perm := if prot &&& PROT_WRITE ≠ 0 then perm ||| (PTE_W ||| PTE_D) else perm
  let perm := if prot &&& PROT_EXEC ≠ 0 then perm ||| (PTE_X ||| PTE_A) else perm
  let perm := if perm = 0 then PTE_R else perm
  if user ≠ 0 then perm ||| PTE_U else perm

/-! ## Memory accesses -/

/-- `*p` for a pointer `p` to a doubleword. -/
def load (p : Word) : PhysM Word := Prog.gets fun s => load64 s.mem p

/-- `*p = v` for a pointer `p` to a doubleword. -/
def store (p v : Word) : PhysM Unit := Prog.modify fun s => { s with mem := store64 s.mem p v }

/-- The call `memset(dest, byte, len)`; the kernel does not map the page at 0. -/
def physMemset (dest byte : Word) (len : ℕ) : PhysM Unit :=
  if dest = 0 then Prog.halt .fault
  else Prog.modify fun s => { s with mem := memset s.mem dest byte len }

/-- The call `memcpy(dest, src, len)`; the kernel does not map the page at 0. -/
def physMemcpy (dest src : Word) (len : ℕ) : PhysM Unit :=
  if dest = 0 ∨ src = 0 then Prog.halt .fault
  else Prog.modify fun s => { s with mem := memcpy s.mem dest src len }

/-! ## Walking and editing a table -/

/-- The loop of `page_walk` from the table `pt` of a level down to level 0. -/
def pageWalkLoop (va : Word) (alloc : Bool) : ℕ → Word → PhysM Word
  | 0, pt => return slot pt (PX 0 va)
  | level + 1, pt => do
    let pte := slot pt (PX (level + 1) va)
    let w ← load pte
    if w &&& PTE_V ≠ 0 then
      pageWalkLoop va alloc level (PTE2PA w)
    else if alloc then do
      let pt ← allocPage
      if pt ≠ 0 then do
        physMemset pt 0 4096
        store pte (PA2PTE pt ||| PTE_V)
        pageWalkLoop va alloc level pt
      else return 0
    else return 0

/-- `page_walk` (`kernel/vmm.c` lines 50–83). -/
def pageWalk (pageDir va : Word) (alloc : Bool) : PhysM Word :=
  if MAXVA ≤ va then Prog.halt (.panic "page_walk" [])
  else pageWalkLoop va alloc 2 pageDir

/-- The loop of `map_pages`. -/
def mapPagesLoop (pageDir last perm : Word) : ℕ → Word → Word → PhysM ℤ
  | 0, _, _ => Prog.halt .spin
  | fuel + 1, first, pa =>
    if first ≤ last then do
      let pte ← pageWalk pageDir first true
      if pte = 0 then return -1
      else do
        let w ← load pte
        if w &&& PTE_V ≠ 0 then
          Prog.halt (.panic "map_pages fails on mapping va (0x%lx) to pa (0x%lx)" [first, pa])
        else do
          store pte (PA2PTE pa ||| perm ||| PTE_V)
          mapPagesLoop pageDir last perm fuel (first + PGSIZE) (pa + PGSIZE)
    else return 0

/-- `map_pages` (`kernel/vmm.c` lines 19–31). The permissions are values of
    `prot_to_type`, on which the conversion to `int` and back is the identity.
    `page_walk` panics at `MAXVA`, so there are at most `2 ^ 26 + 1` rounds. -/
def mapPages (pageDir va size pa perm : Word) : PhysM ℤ :=
  mapPagesLoop pageDir (ROUNDDOWN (va + size - 1) PGSIZE) perm (2 ^ 26 + 1)
    (ROUNDDOWN va PGSIZE) pa

/-- `lookup_pa` (`kernel/vmm.c` lines 88–100). -/
def lookupPa (pagetable va : Word) : PhysM Word :=
  if MAXVA ≤ va then return 0
  else do
    let pte ← pageWalk pagetable va false
    if pte = 0 then return 0
    else do
      let w ← load pte
      if w &&& PTE_V = 0 ∨ (w &&& PTE_R = 0 ∧ w &&& PTE_W = 0) then return 0
      else return PTE2PA w

/-- `kern_vm_map` (`kernel/vmm.c` lines 112–114). -/
def kernVmMap (pageDir va pa sz perm : Word) : PhysM Unit := do
  let r ← mapPages pageDir va sz pa perm
  if r ≠ 0 then Prog.halt (.panic "kern_vm_map" []) else return

/-- `user_va_to_pa` (`kernel/vmm.c` lines 150–165). -/
def userVaToPa (pageDir va : Word) : PhysM Word := do
  let pte ← pageWalk pageDir va false
  if pte = 0 then return 0
  else do
    let w ← load pte
    return PTE2PA w + (va &&& 0xFFF#64)

/-- `user_vm_map` (`kernel/vmm.c` lines 170–174). -/
def userVmMap (pageDir va size pa perm : Word) : PhysM Unit := do
  let r ← mapPages pageDir va size pa perm
  if r ≠ 0 then Prog.halt (.panic "fail to user_vm_map .\n" []) else return

/-- `user_vm_unmap` (`kernel/vmm.c` lines 180–193). The arguments `size` and
    `free` are not read. -/
def userVmUnmap (pageDir va _size : Word) (_free : Bool) : PhysM Unit := do
  let pte ← pageWalk pageDir va false
  if pte = 0 then Prog.halt .fault
  else do
    let w ← load pte
    freePage (PTE2PA w + (va &&& 0xFFF#64))
    let w ← load pte
    store pte (w ^^^ PTE_V)

end Pke
