import Pke.Boot.Single
import Pke.Runs.Served

/-!
# Runs in which processes free what they allocated

A run is followed together with a ledger of what `allocate_page` returned. When the user
stack of the running process has been unmapped, nothing stops `g_ufree_page`: pairs of
`allocate_page` and `free_page` take it to the page of the stack and use up nothing but
the tables of the page table (`Climbing.top`).
-/

namespace Pke

open Lib Radix

variable {L : Layout} {h : Host} {c : Pid} {s s' : Kernel} {fl : List Ppn} {n : ℕ}

/-- What `allocate_page` returned, the last value first, and which of it the processes
    have not freed since. -/
structure MallocLedger where
  returned : List Word
  held : List (Pid × Word)

/-- The ledger after a step of process `c`, which finds `r` in its `a0` afterwards. -/
def MallocLedger.after (led : MallocLedger) (c : Pid) (r : Word) : Action → MallocLedger
  | .trap t =>
    if IsSyscall t SYS_user_allocate_page then ⟨r :: led.returned, (c, r) :: led.held⟩
    else if IsSyscall t SYS_user_free_page then
      { led with held := led.held.filter (· ≠ (c, t.regs .a1)) }
    else led
  | .store _ _ => led

/-- The run reached `s`, and each process freed only pages that `allocate_page` had
    returned to it and that it had not freed since. -/
inductive MallocRun (L : Layout) (h : Host) : Kernel → MallocLedger → Prop
  | boot {s₀ s : Kernel} (hs : sStart L h (coldStart h s₀) = .exit s) : MallocRun L h s ⟨[], []⟩
  | step {s s' : Kernel} {led : MallocLedger} {c : Pid} {a : Action} (hr : MallocRun L h s led)
      (hcur : s.current = some c)
      (hfree : ∀ t, a = .trap t → IsSyscall t SYS_user_free_page → (c, t.regs .a1) ∈ led.held)
      (ha : Step L s a s') : MallocRun L h s' (led.after c (s'.result c) a)

theorem MallocRun.allocate {led : MallocLedger} {t : TrapInput} (hr : MallocRun L h s led)
    (hcur : s.current = some c) (ht : IsSyscall t SYS_user_allocate_page)
    (ha : trap L t s = .exit s') :
    MallocRun L h s' ⟨s'.result c :: led.returned, (c, s'.result c) :: led.held⟩ := by
  have hstep := hr.step hcur (fun t' ht' hf => ?_) (.trap ha)
  · rwa [MallocLedger.after, if_pos ht] at hstep
  · cases ht'
    exact absurd (ht.2.symm.trans hf.2) (by decide)

theorem MallocRun.free {led : MallocLedger} {t : TrapInput} (hr : MallocRun L h s led)
    (hcur : s.current = some c) (ht : IsSyscall t SYS_user_free_page)
    (hheld : (c, t.regs .a1) ∈ led.held) (ha : trap L t s = .exit s') :
    MallocRun L h s' ⟨led.returned, led.held.filter (· ≠ (c, t.regs .a1))⟩ := by
  have hne : ¬ IsSyscall t SYS_user_allocate_page := fun hf =>
    absurd (ht.2.symm.trans hf.2) (by decide)
  have hstep := hr.step hcur (fun t' ht' _ => ?_) (.trap ha)
  · rwa [MallocLedger.after, if_neg hne, if_pos ht] at hstep
  · cases ht'
    exact hheld

/-! ## The tables of the heap -/

/-- The tables on the way to the pages below 2 GiB. -/
def heapPaths : Finset (List Idx) :=
  insert [] ((Finset.range 2).image (fun i => [BitVec.ofNat 9 i]) ∪
    (Finset.range 1024).image fun k => [BitVec.ofNat 9 (k / 512), BitVec.ofNat 9 (k % 512)])

theorem heapPaths_length {π : List Idx} (hπ : π ∈ heapPaths) : π.length ≤ 2 := by
  unfold heapPaths at hπ
  simp only [Finset.mem_insert, Finset.mem_union, Finset.mem_image] at hπ
  rcases hπ with rfl | ⟨i, -, rfl⟩ | ⟨k, -, rfl⟩ <;> simp

theorem heapPaths_card : heapPaths.card ≤ 1027 := by
  have h1 := Finset.card_image_le (s := Finset.range 2) (f := fun i => [BitVec.ofNat 9 i])
  have h2 := Finset.card_image_le (s := Finset.range 1024)
    (f := fun k => [BitVec.ofNat 9 (k / 512), BitVec.ofNat 9 (k % 512)])
  rw [Finset.card_range] at h1 h2
  refine (Finset.card_insert_le _ _).trans ?_
  have h3 := Finset.card_union_le ((Finset.range 2).image fun i => [BitVec.ofNat 9 i])
    ((Finset.range 1024).image fun k => [BitVec.ofNat 9 (k / 512), BitVec.ofNat 9 (k % 512)])
  omega

theorem tablePaths_subset_heapPaths {v : Vpn} (hv : v.toNat < 0x80000) :
    tablePaths v.toNat 1 ⊆ heapPaths := by
  intro π hπ
  obtain ⟨k, hk, hpre⟩ := mem_tablePaths.mp hπ
  obtain rfl : k = 0 := by omega
  have hvpn : vpnOf (v.toNat + 0) = v := by
    symm
    rw [eq_vpnOf_iff (by omega)]
    omega
  rw [hvpn] at hpre
  have h2 : px 2 v = BitVec.ofNat 9 (v.toNat / 2 ^ 18) := by
    apply BitVec.eq_of_toNat_eq
    rw [px_toNat, BitVec.toNat_ofNat]
  have h1 : px 1 v = BitVec.ofNat 9 (v.toNat / 512 % 512) := by
    apply BitVec.eq_of_toNat_eq
    rw [px_toNat, BitVec.toNat_ofNat]
    omega
  have hmem := (List.mem_inits _ _).mpr hpre
  simp only [vpath, List.inits, List.map_cons, List.map_nil, List.mem_cons, List.not_mem_nil,
    or_false] at hmem
  unfold heapPaths
  simp only [Finset.mem_insert, Finset.mem_union, Finset.mem_image, Finset.mem_range]
  rcases hmem with rfl | rfl | rfl
  · exact Or.inl rfl
  · exact Or.inr (Or.inl ⟨v.toNat / 2 ^ 18, by omega, by rw [h2]⟩)
  · refine Or.inr (Or.inr ⟨v.toNat / 512, by omega, ?_⟩)
    rw [h1, h2, Nat.div_div_eq_div_mul]
    rfl

/-! ## Up to the stack -/

/-- Process `c` can go on asking for pages: `g_ufree_page` has passed `n` pages, the rest up
    to the page of the stack is not mapped, and there are pages for the tables. -/
structure Climbing (L : Layout) (c : Pid) (n : ℕ) (s : Kernel) : Prop where
  sched : ∃ Q, SchedInv s c Q
  memory : ∃ fl, Served L c s fl ∧
    missing ptePage s.phys.mem (s.procs c).space.root heapPaths < fl.length
  trapframe : 2 ^ 31 ≤ (s.procs c).trapframe.toNat
  heap : s.gUfreePage = vaddr (0x400 + n)
  unmapped : ∀ v : Vpn, 0x400 + n ≤ v.toNat → v.toNat ≤ 0x7fffe →
    translate s.phys.mem (s.procs c).space.root v = none

section Climbing

variable {led : MallocLedger}

/-- The next page can be had. -/
theorem Climbing.canGain (hc : Climbing L c n s) (hn : 0x400 + n ≤ 0x7fffe)
    (hpages : missing ptePage s.phys.mem (s.procs c).space.root heapPaths < fl.length) :
    (vpn s.gUfreePage).toNat = 0x400 + n ∧ CanGain s c fl := by
  have hvpn : (vpn s.gUfreePage).toNat = 0x400 + n := by
    rw [hc.heap, vpn_vaddr (by omega), vpnOf_toNat (by omega)]
  refine ⟨hvpn, ?_, hc.unmapped _ (by omega) (by omega), ?_⟩
  · rw [hc.heap, vaddr_toNat (by omega)]
    omega
  · exact (missing_mono (tablePaths_subset_heapPaths (by omega))).trans_lt hpages

theorem vaddr_aligned (V : ℕ) : vaddr V % PGSIZE = 0 := by
  apply BitVec.eq_of_toNat_eq
  rw [BitVec.toNat_umod, vaddr, BitVec.toNat_ofNat, show PGSIZE.toNat = 4096 from rfl]
  show _ = 0
  omega

/-- A page is allocated and freed. -/
theorem Climbing.pair (hc : Climbing L c n s) (hr : MallocRun L h s led)
    (hn : 0x400 + n < 0x7fffe) :
    ∃ s' led', MallocRun L h s' led' ∧ Climbing L c (n + 1) s' := by
  obtain ⟨Q, hsched⟩ := hc.sched
  obtain ⟨fl, hserved, hpages⟩ := hc.memory
  obtain ⟨hvpn, hcan⟩ := hc.canGain (by omega) hpages
  have hal : s.gUfreePage % PGSIZE = 0 := by
    rw [hc.heap]
    exact vaddr_aligned _
  obtain ⟨s₁, p, fl₁, Q₁, hexit₁, hsched₁, hresult, hg⟩ := hserved.trap_allocate
    (t := call SYS_user_allocate_page 0) hsched ⟨rfl, rfl⟩ hal hcan
  have hr₁ := hr.allocate hsched.current ⟨rfl, rfl⟩ hexit₁
  obtain ⟨fl₀, rfl, hcount⟩ := hg.count
  have hcount' := hcount heapPaths (fun π => heapPaths_length)
    (tablePaths_subset_heapPaths (by omega))
  -- the frame is no page of the kernel, so the page can be given back
  have hts := L.base_le_trapSec
  rw [BitVec.le_def, show KERN_BASE.toNat = 2 ^ 31 from rfl] at hts
  have htf := hc.trapframe
  have hlow := hserved.low
  have hdrop : CanDrop L c (vpn s.gUfreePage) p s₁ fl₁ := by
    refine ⟨⟨mkPte (addr p) userDataPerm, ?_, ?_⟩, ?_, hg.page.1, hg.managed, ?_, fun heq => ?_,
      fun heq => ?_⟩
    · rw [hg.procs]
      exact (hg.leaf _).trans (if_pos rfl)
    · rw [ptePpn_mkPte _ (by decide), ppn_addr]
    · rw [hg.procs]
      exact hg.page.2
    · rw [hg.procs]
      rintro rfl
      exact hserved.apart.1 List.mem_cons_self
    · rw [hg.procs] at heq
      rw [heq, vpn_toNat (by omega)] at hvpn
      omega
    · rw [heq, vpn_toNat (by omega)] at hvpn
      omega
  have hmax : s.gUfreePage < MAXVA := lt_MAXVA (by have := hcan.low; omega)
  obtain ⟨s₂, Q₂, hexit₂, hsched₂, hd⟩ := hg.served.trap_free
    (t := call SYS_user_free_page s.gUfreePage) hsched₁ ⟨rfl, rfl⟩ hmax hal hdrop
  refine ⟨s₂, _, hr₁.free hsched₁.current ⟨rfl, rfl⟩ ?_ hexit₂, ⟨Q₂, hsched₂⟩,
    ⟨p :: fl₁, hd.served, ?_⟩, ?_, ?_, fun v hlo hhi => ?_⟩
  · rw [hresult]
    exact List.mem_cons_self
  · have hmiss := hd.count heapPaths fun π => heapPaths_length
    rw [hg.procs] at hmiss
    rw [hd.procs, hg.procs, hmiss, List.length_cons]
    rw [List.length_cons] at hpages
    omega
  · rw [hd.procs, hg.procs]
    exact htf
  · rw [hd.heap, hg.heap, hc.heap, vaddr_succ]
    rfl
  · have hne : v ≠ vpn s.gUfreePage := fun heq => by
      rw [heq, hvpn] at hlo
      omega
    have h1 := hd.leaf v
    rw [hg.procs] at h1
    rw [hd.procs, hg.procs]
    refine h1.trans ((if_neg hne).trans ((hg.leaf v).trans ((if_neg hne).trans ?_)))
    exact hc.unmapped v (by omega) hhi

/-- **Pairs of calls up to the stack.** -/
theorem Climbing.top (hc : Climbing L c n s) (hr : MallocRun L h s led) :
    ∀ k, 0x400 + n + k ≤ 0x7fffe → ∃ s' led', MallocRun L h s' led' ∧ Climbing L c (n + k) s' := by
  intro k
  induction k with
  | zero => exact fun _ => ⟨s, led, hr, hc⟩
  | succ k ih =>
    intro hk
    obtain ⟨s₁, led₁, hr₁, hc₁⟩ := ih (by omega)
    exact hc₁.pair hr₁ (by omega)

/-- The page of the stack is returned. -/
theorem Climbing.returns_stack (hc : Climbing L c 0 s) (hr : MallocRun L h s led) :
    ∃ s' led', MallocRun L h s' led' ∧ USER_STACK_TOP - PGSIZE ∈ led'.returned := by
  obtain ⟨s₁, led₁, hr₁, hc₁⟩ := hc.top hr 0x7fbfe (by omega)
  obtain ⟨Q, hsched⟩ := hc₁.sched
  obtain ⟨fl, hserved, hpages⟩ := hc₁.memory
  obtain ⟨hvpn, hcan⟩ := hc₁.canGain (by omega) hpages
  have hheap : s₁.gUfreePage = USER_STACK_TOP - PGSIZE := hc₁.heap
  have hal : s₁.gUfreePage % PGSIZE = 0 := by
    rw [hheap]
    decide
  obtain ⟨s₂, p, fl₂, Q₂, hexit, -, hresult, -⟩ := hserved.trap_allocate
    (t := call SYS_user_allocate_page 0) hsched ⟨rfl, rfl⟩ hal hcan
  refine ⟨s₂, _, hr₁.allocate hsched.current ⟨rfl, rfl⟩ hexit, ?_⟩
  rw [hresult, hheap]
  exact List.mem_cons_self

end Climbing

end Pke
