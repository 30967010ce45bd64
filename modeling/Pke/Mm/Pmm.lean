import Pke.Lib.Prog
import Pke.Lib.Chain
import Pke.Machine.Memory

/-!
# The physical page allocator

`kernel/pmm.c`: the pages of the free memory are kept in a singly linked list
whose links are stored in the first doubleword of each free page.

`FreeList s fl` says that the list headed by `g_free_mem_list` visits exactly
the pages `fl`. Results:
* `allocPage_nil`, `allocPage_cons`: `alloc_page` pops the head or returns NULL.
* `freePage_spec`: `free_page` pushes a page, or panics.
* `createFreepageList_spec`: the list built at boot holds the pages from `start`
  on in descending order, without the last page of the range.
-/

namespace Pke

open Lib

/-! ## State -/

/-- Why the machine stopped. -/
inductive Halt where
  /-- `panic(fmt, args)`. -/
  | panic (fmt : String) (args : List Word)
  /-- A failed `assert` (`spike_interface/spike_utils.h` line 17). -/
  | assertion (cond : String)
  /-- A failed `kassert` (`spike_interface/spike_utils.h` line 36). -/
  | kassert (cond : String)
  /-- `shutdown(code)`. -/
  | shutdown (code : Word)
  /-- A kernel access through a null pointer. -/
  | fault
  /-- A loop of the kernel that never ends. -/
  | spin
  /-- The hart cannot run the code of the trap section, or reach the trapframe, through the
      user page table: it faults on its way to or from user mode, again and again. -/
  | trapEntry
  deriving DecidableEq

/-- Physical memory with the static variables of `pmm.c`. -/
@[ext] structure Phys where
  mem : Mem
  gFreeMemList : Word
  freeMemStartAddr : Word
  freeMemEndAddr : Word

/-- Kernel code that only works on physical memory. -/
abbrev PhysM := Prog Phys Halt

/-- `ROUNDUP(a, b)` (`util/functions.h` line 4). -/
def ROUNDUP (a b : Word) : Word := ((a - 1) / b + 1) * b

/-- `ROUNDDOWN(a, b)` (`util/functions.h` line 5). -/
def ROUNDDOWN (a b : Word) : Word := a / b * b

theorem ROUNDDOWN_eq (a : Word) : ROUNDDOWN a PGSIZE = addr (ppn a) := by
  apply BitVec.eq_of_toNat_eq
  rw [addr_toNat, ppn_toNat]
  have := a.isLt
  simp [ROUNDDOWN, PGSIZE]
  omega

theorem ROUNDUP_of_aligned {a : Word} (h : a % PGSIZE = 0) (ha : a ≠ 0) :
    ROUNDUP a PGSIZE = a := by
  apply BitVec.eq_of_toNat_eq
  have h' : a.toNat % 4096 = 0 := by simpa [PGSIZE] using congrArg BitVec.toNat h
  have h0 : a.toNat ≠ 0 := fun e => ha (BitVec.eq_of_toNat_eq (by simpa using e))
  have hlt := a.isLt
  have h1 : (a - 1).toNat = a.toNat - 1 := by
    rw [BitVec.toNat_sub]
    simp
    omega
  rw [ROUNDUP, BitVec.toNat_mul, BitVec.toNat_add, BitVec.toNat_udiv, h1]
  simp [PGSIZE]
  omega

/-! ## The code -/

/-- `free_page` (`kernel/pmm.c` lines 37–45). -/
def freePage (pa : Word) : PhysM Unit := do
  let s ← Prog.gets id
  if pa % PGSIZE ≠ 0 ∨ pa < s.freeMemStartAddr ∨ s.freeMemEndAddr ≤ pa then
    Prog.halt (.panic "free_page 0x%lx \n" [pa])
  else do
    Prog.modify fun s => { s with mem := store64 s.mem pa s.gFreeMemList }
    Prog.modify fun s => { s with gFreeMemList := pa }

/-- `alloc_page` (`kernel/pmm.c` lines 51–56). -/
def allocPage : PhysM Word := do
  let n ← Prog.gets Phys.gFreeMemList
  if n ≠ 0 then
    Prog.modify fun s => { s with gFreeMemList := load64 s.mem n }
  return n

/-- The loop of `create_freepage_list` from page `p` on. -/
def createFreepageListLoop : ℕ → Word → Word → PhysM Unit
  | 0, _, _ => Prog.halt .spin
  | fuel + 1, p, last =>
    if p + PGSIZE < last then do
      freePage p
      createFreepageListLoop fuel (p + PGSIZE) last
    else return

/-- `create_freepage_list` (`kernel/pmm.c` lines 28–32). The loop visits
    distinct pages until it panics, so it makes fewer than `2 ^ 52 + 1` rounds. -/
def createFreepageList (start last : Word) : PhysM Unit := do
  Prog.modify fun s => { s with gFreeMemList := 0 }
  createFreepageListLoop (2 ^ 52 + 1) (ROUNDUP start PGSIZE) last

/-! ## The free list -/

/-- The list headed by `g_free_mem_list` consists of the pages `fl`. -/
def FreeList (s : Phys) (fl : List Ppn) : Prop :=
  Chain (fun p => s.mem p 0) addr 0 s.gFreeMemList fl

theorem FreeList.nodup {s : Phys} {fl : List Ppn} (h : FreeList s fl) : fl.Nodup :=
  Chain.nodup addr_injective h

/-- A page that is its own successor ends no list. -/
theorem not_freeList_of_loop {s : Phys} {p : Ppn} (hhead : s.gFreeMemList = addr p)
    (hp : addr p ≠ 0) (hlink : s.mem p 0 = addr p) (fl : List Ppn) : ¬ FreeList s fl := by
  intro h
  have hnodup := h.nodup
  unfold FreeList at h
  rw [hhead] at h
  match fl, h, hnodup with
  | [], h, _ => exact hp h
  | q :: l, ⟨hq, _, hl⟩, hnodup =>
    obtain rfl := addr_injective hq
    rw [show (fun p => s.mem p 0) p = addr p from hlink] at hl
    match l, hl, hnodup with
    | [], hl, _ => exact hp hl
    | q :: l, ⟨hq, _, _⟩, hnodup =>
      obtain rfl := addr_injective hq
      simp at hnodup

theorem FreeList.ne_zero {s : Phys} {fl : List Ppn} (h : FreeList s fl) {p : Ppn}
    (hp : p ∈ fl) : p ≠ 0 := fun e => Chain.ne_null h hp (addr_eq_zero.mpr e)

theorem FreeList.head_mem {s : Phys} {fl : List Ppn} (h : FreeList s fl) {p : Ppn}
    (hhead : s.gFreeMemList = addr p) (h0 : p ≠ 0) : p ∈ fl := by
  unfold FreeList at h
  rw [hhead] at h
  match fl, h with
  | [], h => exact absurd (addr_eq_zero.mp h) h0
  | q :: l, ⟨hq, _⟩ =>
    rw [addr_injective hq]
    exact List.mem_cons_self

/-- The list is unaffected by writes to other pages. -/
theorem FreeList.frame {s s' : Phys} {fl : List Ppn} (h : FreeList s fl)
    (hhead : s'.gFreeMemList = s.gFreeMemList) (hmem : ∀ p ∈ fl, s'.mem p = s.mem p) :
    FreeList s' fl := by
  unfold FreeList
  rw [hhead]
  exact Chain.congr h fun p hp => congrFun (hmem p hp) 0

theorem allocPage_nil {s : Phys} (h : FreeList s []) : allocPage s = .ret 0 s := by
  have h0 : s.gFreeMemList = 0 := h
  simp [allocPage, Prog.bind_apply, h0]

/-- `alloc_page` takes the first page of a nonempty list. -/
theorem allocPage_cons {s : Phys} {p : Ppn} {fl : List Ppn} (h : FreeList s (p :: fl)) :
    ∃ g, allocPage s = .ret (addr p) { s with gFreeMemList := g } ∧
      FreeList { s with gFreeMemList := g } fl := by
  obtain ⟨hhead, hne, htail⟩ := h
  have hhead' : s.gFreeMemList = addr p := hhead
  refine ⟨s.mem p 0, ?_, htail⟩
  rw [allocPage, Prog.bind_of_ret (Prog.gets_apply _ _), hhead', if_pos hne]
  simp [Prog.bind_apply]

/-- `free_page` of a page of the managed range pushes it. -/
theorem freePage_of_range {s : Phys} {p : Ppn} (hlo : s.freeMemStartAddr ≤ addr p)
    (hhi : addr p < s.freeMemEndAddr) :
    freePage (addr p) s =
      .ret () { s with mem := store64 s.mem (addr p) s.gFreeMemList, gFreeMemList := addr p } := by
  have h : ¬ (addr p % PGSIZE ≠ 0 ∨ addr p < s.freeMemStartAddr ∨
      s.freeMemEndAddr ≤ addr p) := by
    rintro (h | h | h)
    · exact h (addr_mod p)
    · exact absurd hlo (BitVec.not_le.mpr h)
    · exact absurd h (BitVec.not_le.mpr hhi)
  rw [freePage, Prog.bind_of_ret (Prog.gets_apply _ _), id, if_neg h]
  rfl

/-- `free_page` panics or pushes a page of the managed range. -/
theorem freePage_cases (s : Phys) (pa : Word) :
    freePage pa s = .halt (.panic "free_page 0x%lx \n" [pa]) ∨
      (pa = addr (ppn pa) ∧ s.freeMemStartAddr ≤ pa ∧ pa < s.freeMemEndAddr ∧
        freePage pa s = .ret () { s with
          mem := store64 s.mem pa s.gFreeMemList, gFreeMemList := pa }) := by
  by_cases hc : pa % PGSIZE ≠ 0 ∨ pa < s.freeMemStartAddr ∨ s.freeMemEndAddr ≤ pa
  · left
    rw [freePage, Prog.bind_of_ret (Prog.gets_apply _ _), id, if_pos hc]
    rfl
  · simp only [not_or, not_not] at hc
    obtain ⟨hal, hlo, hhi⟩ := hc
    have haddr := addr_ppn hal
    rw [BitVec.not_lt] at hlo
    rw [BitVec.not_le] at hhi
    have hret := freePage_of_range (s := s) (p := ppn pa) (by rwa [haddr]) (by rwa [haddr])
    rw [haddr] at hret
    exact Or.inr ⟨haddr.symm, hlo, hhi, hret⟩

theorem FreeList.push {s : Phys} {fl : List Ppn} (h : FreeList s fl) {p : Ppn} (hp : p ∉ fl)
    (h0 : p ≠ 0) :
    FreeList { s with mem := store64 s.mem (addr p) s.gFreeMemList, gFreeMemList := addr p }
      (p :: fl) := by
  refine Chain.push h (fun e => h0 (addr_eq_zero.mp e)) ?_ fun q hq => ?_
  · simp [store64_addr]
  · have hne : q ≠ p := fun e => hp (e ▸ hq)
    simp [store64_addr, hne]

/-! ## The list at boot -/

/-- The pages `P + n - 1, …, P + 1, P`. -/
def pagesDown (P : Ppn) : ℕ → List Ppn
  | 0 => []
  | n + 1 => (P + BitVec.ofNat 52 n) :: pagesDown P n

@[simp] theorem pagesDown_length (P : Ppn) (n : ℕ) : (pagesDown P n).length = n := by
  induction n with
  | zero => rfl
  | succ n ih => simp [pagesDown, ih]

theorem pagesDown_succ (P : Ppn) (n : ℕ) : pagesDown P (n + 1) = pagesDown (P + 1) n ++ [P] := by
  induction n with
  | zero => simp [pagesDown]
  | succ n ih =>
    rw [pagesDown, ih, pagesDown, List.cons_append]
    congr 1
    rw [BitVec.add_assoc]
    congr 1
    apply BitVec.eq_of_toNat_eq
    simp [Nat.add_comm]

theorem mem_pagesDown {P q : Ppn} {n : ℕ} (hP : P.toNat + n ≤ 2 ^ 52) :
    q ∈ pagesDown P n ↔ P.toNat ≤ q.toNat ∧ q.toNat < P.toNat + n := by
  induction n with
  | zero => simp [pagesDown]
  | succ n ih =>
    have hn : (P + BitVec.ofNat 52 n).toNat = P.toNat + n := by
      rw [BitVec.toNat_add, BitVec.toNat_ofNat]
      omega
    rw [pagesDown, List.mem_cons, ih (by omega), ← BitVec.toNat_inj, hn]
    omega

theorem ppn_succ {P Q : Ppn} (h : Q.toNat = P.toNat + 1) : P + 1 = Q := by
  apply BitVec.eq_of_toNat_eq
  have := Q.isLt
  rw [BitVec.toNat_add, show (1 : Ppn).toNat = 1 from rfl, h]
  omega

theorem addr_succ {P Q : Ppn} (h : Q.toNat = P.toNat + 1) : addr P + PGSIZE = addr Q := by
  apply BitVec.eq_of_toNat_eq
  have := Q.isLt
  rw [BitVec.toNat_add, addr_toNat, addr_toNat, h, show PGSIZE.toNat = 4096 from rfl]
  omega

theorem addr_add_lt_iff {P : Ppn} {last : Word} (hP : P.toNat * 4096 ≤ 2 ^ 63) :
    addr P + PGSIZE < last ↔ (P.toNat + 1) * 4096 < last.toNat := by
  rw [BitVec.lt_def, BitVec.toNat_add, addr_toNat, show PGSIZE.toNat = 4096 from rfl]
  omega

/-- How many pages the loop of `create_freepage_list` puts in the list. -/
def freePageCount (start last : ℕ) : ℕ := (last - start - 1) / 4096

theorem createFreepageListLoop_spec (last : Word) (hlast : last.toNat ≤ 2 ^ 63) :
    ∀ (fuel : ℕ) (P : Ppn) (fl : List Ppn) (s : Phys), P.toNat * 4096 ≤ 2 ^ 63 →
      freePageCount (P.toNat * 4096) last.toNat < fuel →
      s.freeMemStartAddr ≤ addr P → last ≤ s.freeMemEndAddr → P ≠ 0 →
      FreeList s fl → (∀ q ∈ fl, q.toNat < P.toNat) →
      ∃ m g, createFreepageListLoop fuel (addr P) last s =
          .ret () { s with mem := m, gFreeMemList := g } ∧
        FreeList { s with mem := m, gFreeMemList := g }
          (pagesDown P (freePageCount (P.toNat * 4096) last.toNat) ++ fl) ∧
        ∀ q : Ppn, q.toNat < P.toNat → m q = s.mem q := by
  intro fuel
  induction fuel with
  | zero => intro P fl s _ hfuel; omega
  | succ fuel ih =>
    intro P fl s hP hfuel hlo hhi h0 hfl hlt
    rw [createFreepageListLoop]
    by_cases hc : (P.toNat + 1) * 4096 < last.toNat
    · obtain ⟨Q, hQ⟩ : ∃ Q : Ppn, Q.toNat = P.toNat + 1 :=
        ⟨BitVec.ofNat 52 (P.toNat + 1), by rw [BitVec.toNat_ofNat]; omega⟩
      have hPlast : addr P < s.freeMemEndAddr := by
        rw [BitVec.lt_def, addr_toNat]
        rw [BitVec.le_def] at hhi
        lia
      have hcount : freePageCount (P.toNat * 4096) last.toNat =
          freePageCount (Q.toNat * 4096) last.toNat + 1 := by
        unfold freePageCount
        lia
      have hle : s.freeMemStartAddr ≤ addr Q := by
        rw [BitVec.le_def] at hlo ⊢
        rw [addr_toNat] at hlo ⊢
        lia
      have hQ0 : Q ≠ 0 := by
        rintro rfl
        rw [show (0 : Ppn).toNat = 0 from rfl] at hQ
        lia
      have hPfl : P ∉ fl := fun hm => absurd (hlt P hm) (lt_irrefl _)
      have hlt' : ∀ q ∈ P :: fl, q.toNat < Q.toNat := by
        intro q hq
        rcases List.mem_cons.mp hq with rfl | hq
        · lia
        · have := hlt q hq; lia
      obtain ⟨m, g, hrun, hlist, hbelow⟩ := ih Q (P :: fl)
        { s with mem := store64 s.mem (addr P) s.gFreeMemList, gFreeMemList := addr P }
        (by lia) (by lia) hle hhi hQ0 (hfl.push hPfl h0) hlt'
      refine ⟨m, g, ?_, ?_, fun q hq => (hbelow q (by omega)).trans (store64_of_ne ?_)⟩
      · rw [if_pos ((addr_add_lt_iff hP).mpr hc),
          Prog.bind_of_ret (freePage_of_range hlo hPlast), addr_succ hQ]
        exact hrun
      · rw [hcount, pagesDown_succ, List.append_assoc, ppn_succ hQ]
        exact hlist
      · rw [ppn_addr]
        rintro rfl
        exact lt_irrefl _ hq
    · have hcount : freePageCount (P.toNat * 4096) last.toNat = 0 := by
        unfold freePageCount
        omega
      rw [if_neg (mt (addr_add_lt_iff hP).mp hc), hcount]
      exact ⟨s.mem, s.gFreeMemList, rfl, hfl, fun _ _ => rfl⟩

/-- **The list at boot.** `create_freepage_list(start, last)` links the pages
    from `start` on, the highest first, leaving out the one that ends at
    `last`. The pages below `start` are not written. -/
theorem createFreepageList_spec (s : Phys) {start last : Word} (hal : start % PGSIZE = 0)
    (h0 : start ≠ 0) (hstart : start.toNat ≤ 2 ^ 63) (hlast : last.toNat ≤ 2 ^ 63)
    (hlo : s.freeMemStartAddr ≤ start) (hhi : last ≤ s.freeMemEndAddr) :
    ∃ m g, createFreepageList start last s = .ret () { s with mem := m, gFreeMemList := g } ∧
      FreeList { s with mem := m, gFreeMemList := g }
        (pagesDown (ppn start) (freePageCount start.toNat last.toNat)) ∧
      ∀ q, addr q < start → m q = s.mem q := by
  have haddr : addr (ppn start) = start := addr_ppn hal
  have hnat : (ppn start).toNat * 4096 = start.toNat := by rw [← addr_toNat, haddr]
  obtain ⟨m, g, hrun, hlist, hbelow⟩ := createFreepageListLoop_spec last hlast (2 ^ 52 + 1)
    (ppn start) []
    { s with gFreeMemList := 0 } (by omega) (by unfold freePageCount; omega)
    (by rw [haddr]; exact hlo) hhi
    (fun e => h0 (by rw [← haddr, e, addr_zero])) rfl (by simp)
  refine ⟨m, g, ?_, ?_, fun q hq => hbelow q ?_⟩
  · rw [createFreepageList, ROUNDUP_of_aligned hal h0, Prog.bind_of_ret (Prog.modify_apply _ _),
      ← haddr]
    exact hrun
  · rw [hnat, List.append_nil] at hlist
    exact hlist
  · rw [BitVec.lt_def, addr_toNat] at hq
    omega

end Pke
