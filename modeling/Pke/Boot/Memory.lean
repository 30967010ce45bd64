import Pke.Kernel.System

/-!
# The free memory at boot

`pmm_init` for any end of the kernel image and any memory size. The list it
builds lacks the last page of the memory when the memory ends at a page
boundary, and is complete otherwise.
-/

namespace Pke

open Lib

variable {kend : Word} {s s' : Kernel}

/-! ## What `pmm_init` does -/

/-- `g_mem_size` after `pmm_init`. -/
def usableSize (size : Word) : Word :=
  if PKE_MAX_ALLOWABLE_RAM < size then PKE_MAX_ALLOWABLE_RAM else size

theorem usableSize_toNat_le (size : Word) : (usableSize size).toNat ≤ 2 ^ 27 := by
  unfold usableSize
  split_ifs with h
  · decide
  · rw [BitVec.not_lt, BitVec.le_def] at h
    exact h

theorem ROUNDUP_toNat {a : Word} (h0 : 1 ≤ a.toNat) (h : a.toNat < 2 ^ 63) :
    (ROUNDUP a PGSIZE).toNat = ((a.toNat - 1) / 4096 + 1) * 4096 := by
  have h1 : (a - 1).toNat = a.toNat - 1 := by
    rw [BitVec.toNat_sub]
    simp
    omega
  rw [ROUNDUP, BitVec.toNat_mul, BitVec.toNat_add, BitVec.toNat_udiv, h1]
  simp [PGSIZE]
  omega

/-- The range and the list of the memory after `pmm_init`. -/
structure PmmReady (kend size : Word) (ph : Phys) (fl : List Ppn) : Prop where
  start : ph.freeMemStartAddr = ROUNDUP kend PGSIZE
  last : ph.freeMemEndAddr = usableSize size + DRAM_BASE
  free : FreeList ph fl
  pages : fl = pagesDown (ppn (ROUNDUP kend PGSIZE))
    (freePageCount (ROUNDUP kend PGSIZE).toNat (usableSize size + DRAM_BASE).toNat)

theorem end_toNat (size : Word) :
    (usableSize size + DRAM_BASE).toNat = (usableSize size).toNat + 2 ^ 31 := by
  have h := usableSize_toNat_le size
  rw [BitVec.toNat_add, show DRAM_BASE.toNat = 2 ^ 31 from rfl]
  omega

/-- The kernel fits into the memory, so its end is below `PHYS_TOP`. -/
theorem kend_toNat_le {size : Word} (hk : KERN_BASE ≤ kend)
    (hsize : ¬ usableSize size < kend - KERN_BASE) :
    2 ^ 31 ≤ kend.toNat ∧ kend.toNat ≤ (usableSize size).toNat + 2 ^ 31 := by
  rw [BitVec.not_lt, BitVec.le_def, BitVec.toNat_sub_of_le hk] at hsize
  rw [BitVec.le_def] at hk
  rw [show KERN_BASE.toNat = 2 ^ 31 from rfl] at hk hsize
  omega

theorem ROUNDUP_aligned (a : Word) : ROUNDUP a PGSIZE % PGSIZE = 0 := by
  apply BitVec.eq_of_toNat_eq
  rw [ROUNDUP, BitVec.toNat_umod, BitVec.toNat_mul, show PGSIZE.toNat = 4096 from rfl]
  show _ = 0
  omega

/-- **What `pmm_init` does.** It panics when the kernel does not fit, and builds
    the list of free pages otherwise. -/
theorem pmmInit_spec (hk : KERN_BASE ≤ kend) (s : Kernel) :
    Prog.wp (pmmInit kend)
      (fun _ s' => ¬ usableSize s.gMemSize < kend - KERN_BASE ∧
        (∃ fl, PmmReady kend s.gMemSize s'.phys fl) ∧
        s' = { s with
          phys := s'.phys, gMemSize := usableSize s.gMemSize, console := s'.console } ∧
        ∀ q, addr q < kend → s'.phys.mem q = s.phys.mem q)
      (fun _ => False) (fun _ => usableSize s.gMemSize < kend - KERN_BASE) s := by
  unfold pmmInit
  -- the loop is not to be unfolded
  generalize hcreate : createFreepageList = create
  dsimp only
  rw [sprint, Prog.wp_bind, Prog.wp_modify, Prog.wp_bind, wp_onPhys, Prog.wp_modify, Prog.wp_bind,
    Prog.wp_modify, Prog.wp_bind, Prog.wp_gets]
  change Prog.wp (if usableSize s.gMemSize < kend - KERN_BASE then _ else _) _ _ _ _
  by_cases hsize : usableSize s.gMemSize < kend - KERN_BASE
  · rw [if_pos hsize]
    exact hsize
  rw [if_neg hsize, Prog.wp_bind, wp_onPhys, Prog.wp_modify, sprint, Prog.wp_bind, Prog.wp_modify,
    sprint, Prog.wp_bind, Prog.wp_modify, wp_onPhys]
  have hkend := kend_toNat_le hk hsize
  have hmax := usableSize_toNat_le s.gMemSize
  have hstart := ROUNDUP_toNat (a := kend) (by omega) (by omega)
  have hend := end_toNat s.gMemSize
  have h0 : ROUNDUP kend PGSIZE ≠ 0 := fun h0 => by
    rw [h0] at hstart
    simp at hstart
  have hs63 : (ROUNDUP kend PGSIZE).toNat ≤ 2 ^ 63 := by omega
  have he63 : (usableSize s.gMemSize + DRAM_BASE).toNat ≤ 2 ^ 63 := by omega
  have hx := createFreepageList_spec
    { s.phys with
      freeMemStartAddr := ROUNDUP kend PGSIZE, freeMemEndAddr := usableSize s.gMemSize + DRAM_BASE }
    (ROUNDUP_aligned kend) h0 hs63 he63
    (BitVec.le_refl _) (BitVec.le_refl _)
  rw [hcreate] at hx
  obtain ⟨m, g, hrun, hfree, hbelow⟩ := hx
  refine (Prog.wp_of_ret hrun).mpr ⟨hsize, ⟨_, rfl, rfl, hfree, rfl⟩, rfl, fun q hq => hbelow q ?_⟩
  rw [BitVec.lt_def] at hq ⊢
  omega

/-! ## No page is lost but the last -/

/-- The list holds every whole page of the memory once, and nothing else. -/
def ListComplete (ph : Phys) : Prop :=
  ∃ fl, FreeList ph fl ∧ fl.Nodup ∧ ∀ p, p ∈ fl ↔
    ph.freeMemStartAddr ≤ addr p ∧ (addr p).toNat + 4096 ≤ ph.freeMemEndAddr.toNat

/-- The memory ends at a page boundary, behind a whole page. -/
def EndsAtPage (kend size : Word) : Prop :=
  usableSize size % PGSIZE = 0 ∧
    (ROUNDUP kend PGSIZE).toNat + 4096 ≤ (usableSize size + DRAM_BASE).toNat

instance (kend size : Word) : Decidable (EndsAtPage kend size) :=
  inferInstanceAs (Decidable (_ ∧ _))

theorem PmmReady.mem_iff {size : Word} {ph : Phys} {fl : List Ppn}
    (h : PmmReady kend size ph fl) (hk : KERN_BASE ≤ kend)
    (hsize : ¬ usableSize size < kend - KERN_BASE) (p : Ppn) :
    p ∈ fl ↔ (ROUNDUP kend PGSIZE).toNat ≤ p.toNat * 4096 ∧
      p.toNat * 4096 + 4096 < (usableSize size + DRAM_BASE).toNat := by
  have hkend := kend_toNat_le hk hsize
  have hmax := usableSize_toNat_le size
  have hstart := ROUNDUP_toNat (a := kend) (by omega) (by omega)
  have hend := end_toNat size
  have hP := ppn_toNat (ROUNDUP kend PGSIZE)
  have hcount : freePageCount (ROUNDUP kend PGSIZE).toNat (usableSize size + DRAM_BASE).toNat =
      ((usableSize size + DRAM_BASE).toNat - (ROUNDUP kend PGSIZE).toNat - 1) / 4096 := rfl
  rw [h.pages, mem_pagesDown (by omega)]
  omega

theorem PmmReady.notMem_of_lt {size : Word} {ph : Phys} {fl : List Ppn}
    (h : PmmReady kend size ph fl) (hk : KERN_BASE ≤ kend)
    (hsize : ¬ usableSize size < kend - KERN_BASE) {p : Ppn} (hp : addr p < kend) : p ∉ fl := by
  intro hm
  have hkend := kend_toNat_le hk hsize
  have hmax := usableSize_toNat_le size
  have hstart := ROUNDUP_toNat (a := kend) (by omega) (by omega)
  have hpage := ((h.mem_iff hk hsize p).mp hm).1
  rw [BitVec.lt_def, addr_toNat] at hp
  omega

theorem PmmReady.complete_iff {size : Word} {ph : Phys} {fl : List Ppn}
    (h : PmmReady kend size ph fl) (hk : KERN_BASE ≤ kend)
    (hsize : ¬ usableSize size < kend - KERN_BASE) :
    ListComplete ph ↔ ¬ EndsAtPage kend size := by
  have hmem := h.mem_iff hk hsize
  have hkend := kend_toNat_le hk hsize
  have hmax := usableSize_toNat_le size
  have hstart := ROUNDUP_toNat (a := kend) (by omega) (by omega)
  have hend := end_toNat size
  have hal : usableSize size % PGSIZE = 0 ↔ (usableSize size + DRAM_BASE).toNat % 4096 = 0 := by
    rw [hend]
    constructor
    · intro h0
      have := toNat_mod_PGSIZE h0
      omega
    · intro h0
      apply BitVec.eq_of_toNat_eq
      rw [BitVec.toNat_umod, show PGSIZE.toNat = 4096 from rfl]
      show _ = 0
      omega
  have hrange : ∀ p : Ppn, (ph.freeMemStartAddr ≤ addr p ∧
      (addr p).toNat + 4096 ≤ ph.freeMemEndAddr.toNat) ↔
      (ROUNDUP kend PGSIZE).toNat ≤ p.toNat * 4096 ∧
        p.toNat * 4096 + 4096 ≤ (usableSize size + DRAM_BASE).toNat := fun p => by
    rw [h.start, h.last, BitVec.le_def, addr_toNat]
  unfold EndsAtPage
  rw [hal]
  constructor
  · rintro ⟨fl', hfree, -, hall⟩ ⟨hend0, hroom⟩
    obtain rfl : fl' = fl := Chain.unique addr_injective hfree h.free
    -- the last page is in the range but not in the list
    obtain ⟨p, hp⟩ : ∃ p : Ppn, p.toNat * 4096 + 4096 = (usableSize size + DRAM_BASE).toNat := by
      refine ⟨BitVec.ofNat 52 ((usableSize size + DRAM_BASE).toNat / 4096 - 1), ?_⟩
      rw [BitVec.toNat_ofNat]
      omega
    have hin := (hall p).mpr ((hrange p).mpr ⟨by omega, by omega⟩)
    have := ((hmem p).mp hin).2
    omega
  · intro hno
    refine ⟨fl, h.free, h.free.nodup, fun p => ?_⟩
    rw [hmem p, hrange p]
    constructor
    · rintro ⟨h1, h2⟩
      exact ⟨h1, by omega⟩
    · rintro ⟨h1, h2⟩
      refine ⟨h1, lt_of_le_of_ne h2 fun heq => hno ⟨by omega, by omega⟩⟩

/-- **The list is complete unless the memory ends at a page boundary.** For every
    end of the kernel and every memory size that `pmm_init` accepts, its list
    holds every whole page of the memory exactly once and nothing else, if and
    only if the memory has no whole page or does not end at a page boundary. -/
theorem pmmInit_complete_iff (hk : KERN_BASE ≤ kend) (hrun : pmmInit kend s = .ret () s') :
    ListComplete s'.phys ↔ ¬ EndsAtPage kend s.gMemSize := by
  obtain ⟨hsize, ⟨fl, h⟩, -⟩ := Prog.wp_ret (pmmInit_spec hk s) hrun
  exact h.complete_iff hk hsize

/-- A machine that has just been switched on, with memory of the given size. -/
def powerOn (size : Word) : Kernel where
  phys := ⟨fun _ _ => 0, 0, 0, 0⟩
  regs _ := 0
  csr _ := 0
  procs _ := ⟨0, 0, 0, 0, 0, 0, .FREE, none, none, 0⟩
  current := none
  readyQueueHead := none
  gKernelPagetable := 0
  gUfreePage := 0
  gTicks := 0
  gMemSize := size
  console := []

theorem pmmInit_powerOn (size : Word) (hsize : ¬ usableSize size < 0x80001000 - KERN_BASE) :
    ∃ s', pmmInit 0x80001000 (powerOn size) = .ret () s' := by
  obtain ⟨_, s', hrun, -⟩ := Prog.returns_of_wp
    (pmmInit_spec (show KERN_BASE ≤ 0x80001000 by decide) (powerOn size)) fun _ h => hsize h
  exact ⟨s', hrun⟩

theorem pmmInit_complete_sample :
    ∃ s', pmmInit 0x80001000 (powerOn 0x3800) = .ret () s' ∧ ListComplete s'.phys := by
  obtain ⟨s', hrun⟩ := pmmInit_powerOn 0x3800 (by decide)
  exact ⟨s', hrun, (pmmInit_complete_iff (by decide) hrun).mpr (by decide)⟩

/-- With three pages of memory, the first taken by the kernel, the last one is not
    in the list. -/
theorem pmmInit_loses_page :
    ∃ s', pmmInit 0x80001000 (powerOn 0x3000) = .ret () s' ∧ ¬ ListComplete s'.phys := by
  obtain ⟨_, s', hrun, hsize, ⟨fl, h⟩, -⟩ := Prog.returns_of_wp
    (pmmInit_spec (show KERN_BASE ≤ 0x80001000 by decide) (powerOn 0x3000)) fun _ h =>
    absurd h (by decide)
  refine ⟨s', hrun, fun hc => ?_⟩
  exact (h.complete_iff (by decide) hsize).mp hc (by decide)

end Pke
