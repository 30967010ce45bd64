import Pke.Mm.Single
import Pke.Kernel.State

/-!
# The memory of the processes

`Space` is the invariant of physical memory behind the process table: the page
tables form a forest, the pages the kernel keeps for a process (trapframe,
kernel stack, region list) are its own, the free list and the user mappings stay
clear of both, and the two kernel mappings of every process that is set up are
in place. With `iso`, moreover, no two processes share a frame.

The operations on it are a write to a page that is no table and no region list,
taking a page off the free list, mapping a page, and releasing a frame.
-/

namespace Pke

open Lib Radix

/-! ## What the kernel keeps for a process -/

/-- The fields of `process` that locate its memory. -/
structure AddrSpace where
  kstack : Word
  pagetable : Word
  trapframe : Word
  mappedInfo : Word

/-- The pages the kernel keeps for a process, apart from its page table. -/
inductive Own where
  | trapframe | kstack | info
  deriving DecidableEq

namespace AddrSpace

def root (a : AddrSpace) : Ppn := ppn a.pagetable

def own (a : AddrSpace) : Own → Ppn
  | .trapframe => ppn a.trapframe
  | .kstack => ppn (a.kstack - PGSIZE)
  | .info => ppn a.mappedInfo

/-- The pointers are addresses of pages. -/
structure Aligned (a : AddrSpace) : Prop where
  pagetable : addr a.root = a.pagetable
  trapframe : addr (a.own .trapframe) = a.trapframe
  info : addr (a.own .info) = a.mappedInfo

end AddrSpace

/-- The permissions of the two kernel mappings of a process. -/
abbrev trapframePerm : Word := protToType (PROT_WRITE ||| PROT_READ) 0
abbrev trapSecPerm : Word := protToType (PROT_READ ||| PROT_EXEC) 0

/-- The mapping of the trapframe or of the trap section. -/
def KernelLeaf (L : Layout) (a : AddrSpace) (v : Vpn) (w : Word) : Prop :=
  (v = vpn a.trapframe ∧ w = mkPte a.trapframe trapframePerm) ∨
    (v = vpn L.trapSecStart ∧ w = mkPte L.trapSecStart trapSecPerm)

/-! ## The list of regions -/

def regionVa (m : Mem) (a : AddrSpace) (k : ℕ) : Word := load64 m (regionAddr a.mappedInfo k)

def regionSecond (m : Mem) (a : AddrSpace) (k : ℕ) : Word :=
  load64 m (regionAddr a.mappedInfo k + 8)

def regionSeg (m : Mem) (a : AddrSpace) (k : ℕ) : Option SegType :=
  segTypeOf ((regionSecond m a k >>> 32).setWidth 32)

def regionPages (m : Mem) (a : AddrSpace) (k : ℕ) : BitVec 32 := (regionSecond m a k).setWidth 32

/-- A region behind the first three: code at a page that is no kernel mapping,
    or one page of data. -/
def RegionOk (L : Layout) (m : Mem) (a : AddrSpace) (k : ℕ) : Prop :=
  (regionSeg m a k = some .CODE ∧ vpn (regionVa m a k) ≠ vpn a.trapframe ∧
    vpn (regionVa m a k) ≠ vpn L.trapSecStart) ∨
  (regionSeg m a k = some .DATA ∧ regionPages m a k = 1 ∧ regionVa m a k % PGSIZE = 0)

/-- The list of `n` regions of a process. -/
structure Regions (L : Layout) (m : Mem) (a : AddrSpace) (n : ℕ) : Prop where
  lo : 3 ≤ n
  hi : n ≤ 256
  stack : regionVa m a 0 = USER_STACK_TOP - PGSIZE ∧ regionSeg m a 0 = some .STACK
  context : regionVa m a 1 = a.trapframe ∧ regionSeg m a 1 = some .CONTEXT
  system : regionVa m a 2 = L.trapSecStart ∧ regionSeg m a 2 = some .SYSTEM
  rest : ∀ k, 3 ≤ k → k < n → RegionOk L m a k

/-- The process is set up. -/
structure Ready (L : Layout) (m : Mem) (a : AddrSpace) (n : ℕ) : Prop where
  trapframe : translate m a.root (vpn a.trapframe) = some (mkPte a.trapframe trapframePerm)
  trapSec : translate m a.root (vpn L.trapSecStart) = some (mkPte L.trapSecStart trapSecPerm)
  regions : Regions L m a n

/-! ## The invariant -/

/-- The page lies in the range of `alloc_page` and `free_page`. -/
def Managed (ph : Phys) (p : Ppn) : Prop :=
  ph.freeMemStartAddr ≤ addr p ∧ addr p < ph.freeMemEndAddr

/-- The process table as memory management sees it: the processes `all` have
    memory, the processes `ready` are set up. -/
structure View where
  procs : Pid → AddrSpace
  total : Pid → ℕ
  kroot : Ppn
  all : Set Pid
  ready : Set Pid

namespace View

/-- The page tables: that of the kernel and those of the processes. -/
def roots (V : View) : Set Ppn := insert V.kroot {r | ∃ i ∈ V.all, r = (V.procs i).root}

/-- The entry of process `i` for the page `v`. -/
def leaf (V : View) (ph : Phys) (i : Pid) (v : Vpn) : Option Word :=
  translate ph.mem (V.procs i).root v

/-- A frame of the managed range, or page 0 as `alloc_page` returns it when no page is left,
    that is not on the free list and that the kernel does not use. -/
structure Spare (V : View) (ph : Phys) (fl : List Ppn) (f : Ppn) : Prop where
  free : f ∉ fl
  table : f ∉ tablePages ph.mem V.roots
  own : ∀ i ∈ V.all, ∀ k, f ≠ (V.procs i).own k
  range : Managed ph f ∨ f = 0

theorem root_mem {V : View} {i : Pid} (hi : i ∈ V.all) : (V.procs i).root ∈ V.roots :=
  Set.mem_insert_of_mem _ ⟨i, hi, rfl⟩

end View

/-- See the module's comment. -/
structure Space (iso : Prop) (L : Layout) (V : View) (ph : Phys) (fl : List Ppn) : Prop where
  tables : Tables V.roots ph fl
  lo : L.kend ≤ ph.freeMemStartAddr
  hi : ph.freeMemEndAddr ≤ PHYS_TOP
  managed : ∀ p, p ∈ fl ∨ p ∈ tablePages ph.mem V.roots → Managed ph p
  aligned : ∀ i ∈ V.all, (V.procs i).Aligned
  own_apart : ∀ i ∈ V.all, ∀ k, (V.procs i).own k ∉ fl ∧
    (V.procs i).own k ∉ tablePages ph.mem V.roots ∧ Managed ph ((V.procs i).own k)
  own_inj : ∀ i ∈ V.all, ∀ j ∈ V.all, ∀ k l, (V.procs i).own k = (V.procs j).own l → i = j ∧ k = l
  root_inj : ∀ i ∈ V.all, ∀ j ∈ V.all, (V.procs i).root = (V.procs j).root → i = j
  user : ∀ i ∈ V.all, ∀ v w, V.leaf ph i v = some w → w &&& PTE_U ≠ 0 → V.Spare ph fl (ptePpn w)
  readable : ∀ i ∈ V.all, ∀ v w, V.leaf ph i v = some w → w &&& PTE_U ≠ 0 → w &&& PTE_R ≠ 0
  kernel : ∀ i ∈ V.all, ∀ v w, V.leaf ph i v = some w → w &&& PTE_U = 0 →
    KernelLeaf L (V.procs i) v w
  isolated : iso → ∀ i ∈ V.all, ∀ j ∈ V.all, ∀ v w v' w', V.leaf ph i v = some w →
    V.leaf ph j v' = some w' → w &&& PTE_U ≠ 0 → w' &&& PTE_U ≠ 0 → ptePpn w = ptePpn w' → i = j
  ready_sub : V.ready ⊆ V.all
  ready : ∀ i ∈ V.ready, Ready L ph.mem (V.procs i) (V.total i)

variable {iso : Prop} {L : Layout} {V : View} {ph ph' : Phys} {fl fl' : List Ppn}

/-- Pages that the kernel keeps for different uses are different. -/
theorem Space.own_ne (h : Space iso L V ph fl) {i j : Pid} (hi : i ∈ V.all) (hj : j ∈ V.all)
    {k l : Own} (hkl : k ≠ l) : (V.procs i).own k ≠ (V.procs j).own l := fun heq =>
  hkl (h.own_inj i hi j hj k l heq).2

/-! ## Regions are read from one page -/

theorem regionAddr_ppn {a : AddrSpace} (ha : a.Aligned) {k o : ℕ} (hk : k < 256) (ho : o < 16) :
    ppn (regionAddr a.mappedInfo k + BitVec.ofNat 64 o) = a.own .info := by
  rw [regionAddr, ← ha.info, BitVec.add_assoc]
  refine ppn_addr_add _ ?_
  rw [← BitVec.ofNat_add, BitVec.toNat_ofNat]
  omega

theorem regionVa_congr {a : AddrSpace} (ha : a.Aligned) {m m' : Mem}
    (hm : m' (a.own .info) = m (a.own .info)) {k : ℕ} (hk : k < 256) :
    regionVa m' a k = regionVa m a k := by
  have hp := regionAddr_ppn ha (o := 0) hk (by omega)
  rw [BitVec.add_zero] at hp
  unfold regionVa load64
  rw [hp, hm]

theorem regionSecond_congr {a : AddrSpace} (ha : a.Aligned) {m m' : Mem}
    (hm : m' (a.own .info) = m (a.own .info)) {k : ℕ} (hk : k < 256) :
    regionSecond m' a k = regionSecond m a k := by
  have hp : ppn (regionAddr a.mappedInfo k + 8) = a.own .info :=
    regionAddr_ppn ha (o := 8) hk (by omega)
  unfold regionSecond load64
  rw [hp, hm]

theorem Regions.congr {a : AddrSpace} {n : ℕ} (ha : a.Aligned) {m m' : Mem}
    (hm : m' (a.own .info) = m (a.own .info)) (h : Regions L m a n) : Regions L m' a n := by
  have hva : ∀ k < 256, regionVa m' a k = regionVa m a k := fun k => regionVa_congr ha hm
  have hsec : ∀ k < 256, regionSecond m' a k = regionSecond m a k := fun k =>
    regionSecond_congr ha hm
  have hseg : ∀ k < 256, regionSeg m' a k = regionSeg m a k := fun k hk => by
    rw [regionSeg, hsec k hk, regionSeg]
  have hhi := h.hi
  refine ⟨h.lo, h.hi, ?_, ?_, ?_, fun k h3 hk => ?_⟩
  · rw [hva 0 (by omega), hseg 0 (by omega)]
    exact h.stack
  · rw [hva 1 (by omega), hseg 1 (by omega)]
    exact h.context
  · rw [hva 2 (by omega), hseg 2 (by omega)]
    exact h.system
  · rw [RegionOk, hva k (by omega), hseg k (by omega), regionPages, hsec k (by omega)]
    exact h.rest k h3 hk

/-! ## The managed range -/

theorem Space.base_le (h : Space iso L V ph fl) : KERN_BASE ≤ ph.freeMemStartAddr := by
  have h1 := L.base_le_trapSec
  have h2 := L.trapSec_lt_etext
  have h3 := L.etext_le_kend
  have h4 := h.lo
  simp only [BitVec.le_def, BitVec.lt_def] at *
  omega

theorem Space.managed_toNat (h : Space iso L V ph fl) {p : Ppn} (hp : Managed ph p) :
    2 ^ 31 ≤ p.toNat * 4096 ∧ p.toNat * 4096 < 2 ^ 32 := by
  have h1 := h.base_le
  have h2 := h.hi
  obtain ⟨h3, h4⟩ := hp
  rw [BitVec.le_def, addr_toNat] at h3
  rw [BitVec.lt_def, addr_toNat] at h4
  rw [BitVec.le_def] at h1 h2
  rw [show KERN_BASE.toNat = 2 ^ 31 from rfl] at h1
  rw [show PHYS_TOP.toNat = 2 ^ 31 + 2 ^ 27 from rfl] at h2
  omega

theorem Space.managed_ne_zero (h : Space iso L V ph fl) {p : Ppn} (hp : Managed ph p) : p ≠ 0 := by
  rintro rfl
  have := h.managed_toNat hp
  simp at this

theorem Space.image_not_managed (h : Space iso L V ph fl) {p : Ppn} (hp : InImage L p) :
    ¬ Managed ph p := by
  rintro ⟨hlo, -⟩
  have h1 := hp.2
  have h2 := h.lo
  simp only [BitVec.le_def, BitVec.lt_def] at *
  omega

/-- The trap section lies in the kernel image. -/
theorem Space.trapSec_not_managed (h : Space iso L V ph fl) :
    ¬ Managed ph (ppn L.trapSecStart) := by
  refine h.image_not_managed ⟨?_, ?_⟩
  · rw [addr_ppn L.trapSec_aligned]
    exact L.base_le_trapSec
  · rw [addr_ppn L.trapSec_aligned]
    have h1 := L.trapSec_lt_etext
    have h2 := L.etext_le_kend
    simp only [BitVec.le_def, BitVec.lt_def] at *
    omega

theorem Space.ppn_zero_spare (h : Space iso L V ph fl) : V.Spare ph fl 0 where
  free h0 := h.managed_ne_zero (h.managed 0 (Or.inl h0)) rfl
  table h0 := h.managed_ne_zero (h.managed 0 (Or.inr h0)) rfl
  own i hi k h0 := h.managed_ne_zero (h.own_apart i hi k).2.2 h0.symm
  range := Or.inr rfl

section Image

variable {p : Ppn} (hp : InImage L p)

include hp

theorem InImage.ne_zero : p ≠ 0 := by
  rintro rfl
  exact absurd hp.1 (by decide)

theorem Space.image_not_free (h : Space iso L V ph fl) : p ∉ fl := fun hm =>
  h.image_not_managed hp (h.managed p (Or.inl hm))

theorem Space.image_not_table (h : Space iso L V ph fl) : p ∉ tablePages ph.mem V.roots :=
  fun hm => h.image_not_managed hp (h.managed p (Or.inr hm))

theorem Space.image_ne_managed (h : Space iso L V ph fl) {f : Ppn} (hf : Managed ph f) :
    p ≠ f := by
  rintro rfl
  exact h.image_not_managed hp hf

theorem Space.image_ne_own (h : Space iso L V ph fl) {i : Pid} (hi : i ∈ V.all) (k : Own) :
    p ≠ (V.procs i).own k :=
  h.image_ne_managed hp (h.own_apart i hi k).2.2

theorem Space.image_ne_spare (h : Space iso L V ph fl) {f : Ppn} (hf : V.Spare ph fl f) :
    p ≠ f := by
  rintro rfl
  exact hf.range.elim (h.image_not_managed hp) hp.ne_zero

end Image

/-! ## Entries -/

theorem trapframe_leaf_kernel (a : Word) : mkPte a trapframePerm &&& PTE_U = 0 := by
  rw [mkPte_and_flag _ _ (by decide)]
  decide

theorem trapSec_leaf_kernel (a : Word) : mkPte a trapSecPerm &&& PTE_U = 0 := by
  rw [mkPte_and_flag _ _ (by decide)]
  decide

/-- No valid entry of a process has its frame on the free list. -/
theorem Space.leaf_not_free (h : Space iso L V ph fl) {i : Pid} (hi : i ∈ V.all) {v : Vpn}
    {w : Word} (hw : V.leaf ph i v = some w) : ptePpn w ∉ fl := by
  by_cases hU : w &&& PTE_U = 0
  · rcases h.kernel i hi v w hw hU with ⟨-, rfl⟩ | ⟨-, rfl⟩
    · rw [ptePpn_mkPte _ (by decide)]
      exact (h.own_apart i hi .trapframe).1
    · rw [ptePpn_mkPte _ (by decide)]
      exact fun hm => h.trapSec_not_managed (h.managed _ (Or.inl hm))
  · exact (h.user i hi v w hw hU).free

end Pke
