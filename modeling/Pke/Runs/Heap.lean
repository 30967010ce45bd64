import Pke.Runs.Faults

/-!
# The heap

`g_ufree_page` (`kernel/process.c` line 38) is one counter for all processes, and
`sys_user_allocate_page` maps whatever page it names. The page is unmapped as long as
the segments of the application lie below the heap, no store page fault is taken in the
part of the heap that is still to come, and the counter has not reached the stack.
-/

namespace Pke

open Lib

variable {L : Layout} {h : Host} {s s' : Kernel} {c : Pid} {Q : List Pid} {t : TrapInput} {v : Vpn}
  {g : Word}

/-- A page that `allocate_page` does not reach from `g` on: below it, or from the stack
    on. -/
def OutOfHeap (g : Word) (v : Vpn) : Prop := v.toNat < (vpn g).toNat ∨ stackVpn.toNat ≤ v.toNat

/-- The pages below the heap, and the stack. -/
def lowPages : Set Vpn := {v | v.toNat < (vpn USER_FREE_ADDRESS_START).toNat ∨ v = stackVpn}

/-- The part of the heap from `g_ufree_page` on is not mapped. -/
structure HeapInv (s : Kernel) : Prop where
  lo : USER_FREE_ADDRESS_START.toNat ≤ s.gUfreePage.toNat
  hi : s.gUfreePage.toNat ≤ (USER_STACK_TOP - PGSIZE).toNat
  pages : ∀ i ∈ s.used, ∀ v w, translate s.phys.mem (s.procs i).space.root v = some w →
    w &&& PTE_U ≠ 0 → OutOfHeap s.gUfreePage v
  targets : ∀ i ∈ s.used, ∀ k va, k < (s.procs i).totalMappedRegion →
    regionTarget s.phys.mem (s.procs i).space k = some va → vpn va ∈ lowPages

/-- A step that keeps away from the rest of the heap: a store page fault is not in it,
    and `allocate_page` is not called when the counter has reached the stack. -/
structure HeapStepOk (s : Kernel) (a : Action) : Prop where
  ok : StepOk False s a
  fault : ∀ t, a = .trap t → t.scause = CAUSE_STORE_PAGE_FAULT →
    OutOfHeap s.gUfreePage (vpn t.stval)
  room : ∀ t, a = .trap t → IsSyscall t SYS_user_allocate_page →
    s.gUfreePage < USER_STACK_TOP - PGSIZE

theorem stackTop_toNat : (USER_STACK_TOP - PGSIZE).toNat = 0x7FFFE000 := by decide

theorem stackVpn_toNat : stackVpn.toNat = 0x7FFFE := by decide

theorem heapStart_toNat : USER_FREE_ADDRESS_START.toNat = 0x400000 := by decide

theorem HeapInv.vpn_toNat (hh : HeapInv s) :
    (vpn s.gUfreePage).toNat = s.gUfreePage.toNat / 4096 := by
  have hhi := hh.hi
  rw [stackTop_toNat] at hhi
  exact Pke.vpn_toNat (by omega)

/-- The pages of regions are out of the heap. -/
theorem HeapInv.outOfHeap (hh : HeapInv s) (hv : v ∈ lowPages) : OutOfHeap s.gUfreePage v := by
  have hlo := hh.lo
  rw [heapStart_toNat] at hlo
  rcases hv with hv | rfl
  · rw [Pke.vpn_toNat (by decide), heapStart_toNat] at hv
    refine Or.inl ?_
    rw [hh.vpn_toNat]
    omega
  · exact Or.inr le_rfl

/-- How far a step moves the counter. -/
theorem HeapStepOk.grown {a : Action} (hok : HeapStepOk s a) (hh : HeapInv s)
    (hal : s.gUfreePage % PGSIZE = 0) :
    s.gUfreePage.toNat ≤ (s.gUfreePage + a.grown).toNat ∧
      (s.gUfreePage + a.grown).toNat ≤ (USER_STACK_TOP - PGSIZE).toNat := by
  have hhi := hh.hi
  rw [stackTop_toNat] at hhi
  have hzero : s.gUfreePage.toNat ≤ (s.gUfreePage + 0).toNat ∧
      (s.gUfreePage + 0).toNat ≤ (USER_STACK_TOP - PGSIZE).toNat := by
    rw [stackTop_toNat]
    simp
    omega
  cases a with
  | store va b => exact hzero
  | trap t =>
    rw [Action.grown, Pke.grown]
    split_ifs with halloc
    · have hroom := hok.room t rfl halloc
      rw [BitVec.lt_def, stackTop_toNat] at hroom
      have h0 := toNat_mod_PGSIZE hal
      rw [stackTop_toNat, BitVec.toNat_add, show PGSIZE.toNat = 4096 from rfl]
      omega
    · exact hzero

theorem OutOfHeap.mono {g' : Word} (hv : OutOfHeap g v) (hg : (vpn g).toNat ≤ (vpn g').toNat) :
    OutOfHeap g' v := hv.imp_left fun h => h.trans_le hg

/-- A page that a step maps is behind the counter after the step. -/
theorem HeapStepOk.added {a : Action} (hok : HeapStepOk s a) (hh : HeapInv s)
    (hal : s.gUfreePage % PGSIZE = 0) (hv : v ∈ a.added s) :
    OutOfHeap (s.gUfreePage + a.grown) v := by
  cases a with
  | store va b => exact hv.elim
  | trap t =>
    rcases hv with ⟨halloc, rfl⟩ | ⟨hfault, rfl⟩
    · have hroom := hok.room t rfl halloc
      rw [BitVec.lt_def, stackTop_toNat] at hroom
      have h0 := toNat_mod_PGSIZE hal
      have hsum : (s.gUfreePage + PGSIZE).toNat = s.gUfreePage.toNat + 4096 := by
        rw [BitVec.toNat_add, show PGSIZE.toNat = 4096 from rfl]
        omega
      refine Or.inl ?_
      rw [Action.grown, Pke.grown, if_pos halloc, hh.vpn_toNat, Pke.vpn_toNat (by omega), hsum]
      omega
    · have hnot : ¬ IsSyscall t SYS_user_allocate_page := fun hs => by
        rw [hs.1] at hfault
        exact absurd hfault (by decide)
      rw [Action.grown, Pke.grown, if_neg hnot, show s.gUfreePage + 0 = s.gUfreePage by simp]
      exact hok.fault t rfl hfault

/-- **One step** keeps the rest of the heap unmapped. -/
theorem HeapInv.step {a : Action} (hh : HeapInv s) (hm : MemInv False L s) (hsched : SchedInv s c Q)
    (hok : HeapStepOk s a) (ha : Step L s a s') : HeapInv s' := by
  have hmoved := (ha.left hm hsched hok.ok).moved
  have hc : c ∈ s.used := ((hsched.live c).mp List.mem_cons_self).1
  obtain ⟨hle, htop⟩ := hok.grown hh hm.heap
  have hheap := hmoved.heap
  have hvpn : (vpn s.gUfreePage).toNat ≤ (vpn s'.gUfreePage).toNat := by
    rw [hh.vpn_toNat, hheap, Pke.vpn_toNat (by rw [stackTop_toNat] at htop; omega)]
    omega
  refine ⟨by rw [hheap]; exact hh.lo.trans hle, by rw [hheap]; exact htop,
    fun i hi v w hw hU => ?_, fun i hi k va hk hva => ?_⟩
  · by_cases hi' : i ∈ s.used
    · rw [hmoved.space i hi'] at hw
      by_cases hic : i = c
      · subst hic
        rcases hmoved.self v w hw with hold | hnew
        · exact (hh.pages i hi' v w hold hU).mono hvpn
        · rw [hheap]
          exact hok.added hh hm.heap hnew
      · rw [hmoved.other i hi' hic] at hw
        exact (hh.pages i hi' v w hw hU).mono hvpn
    · obtain ⟨k, va, hk, hva, rfl⟩ := (hmoved.born i hi hi').pages v w hw hU
      exact (hh.outOfHeap (hh.targets c hc k va hk hva)).mono hvpn
  · by_cases hi' : i ∈ s.used
    · rw [hmoved.total i hi'] at hk
      rw [hmoved.space i hi', hmoved.target i hi' k hk] at hva
      exact hh.targets i hi' k va hk hva
    · obtain ⟨k', hk', hva'⟩ := (hmoved.born i hi hi').targets k va hk hva
      exact hh.targets c hc k' va hk' hva'

/-- The regions of the first process lie below the heap. -/
theorem BootMem.heapInv {m : Mem} (hb : BootMem False L lowPages m s) : HeapInv s := by
  have hused : s.used = {0} := hb.booted.used
  obtain ⟨fl, hs⟩ := hb.mem.space
  have h0 : (0 : Pid) ∈ s.used := by rw [hused]; rfl
  have hregs : Regions L s.phys.mem (s.procs 0).space (s.procs 0).totalMappedRegion :=
    (hs.ready 0 h0).regions
  have hzero : vpn 0 ∈ lowPages := Or.inl (by decide)
  -- an address in these pages fits into an `int`
  have hint : ∀ va : Word, va < MAXVA → va % PGSIZE = 0 → vpn va ∈ lowPages →
      asInt va = va := fun va hva hal hin => by
    have hlt := toNat_lt_of_lt_MAXVA hva
    refine asInt_of_low ?_
    rw [BitVec.lt_def, show KERN_BASE.toNat = 2 ^ 31 from rfl]
    rcases hin with hin | hin
    · rw [Pke.vpn_toNat (by omega), Pke.vpn_toNat (by decide), heapStart_toNat] at hin
      omega
    · have hN := congrArg BitVec.toNat hin
      rw [Pke.vpn_toNat (by omega), stackVpn_toNat] at hN
      omega
  refine ⟨by rw [hb.heap], by rw [hb.heap]; decide, fun i hi v w hw hU => ?_,
    fun i hi k va hk hva => ?_⟩
  · obtain rfl : i = 0 := by
      rw [hused] at hi
      exact hi
    rcases hb.pages v w hw hU with hv | rfl
    · rw [hb.heap]
      exact Or.inl hv
    · exact Or.inr le_rfl
  · obtain rfl : i = 0 := by
      rw [hused] at hi
      exact hi
    have hhi := hregs.hi
    by_cases h3 : 3 ≤ k
    · have hin := hb.vas k h3 (by omega)
      rcases hregs.rest k h3 hk with ⟨hseg, -⟩ | ⟨hseg, -, hal⟩
      · rw [regionTarget, hseg] at hva
        obtain rfl := Option.some.inj hva
        rcases hin with ⟨-, hin⟩ | hin
        · exact hin
        · rw [hin]
          exact hzero
      · rw [regionTarget, hseg] at hva
        obtain rfl := Option.some.inj hva
        rcases hin with ⟨hlt, hin⟩ | hin
        · rw [hint _ hlt hal hin]
          exact hin
        · rw [hin]
          exact hzero
    · obtain rfl | rfl | rfl : k = 0 ∨ k = 1 ∨ k = 2 := by omega
      · rw [regionTarget, hregs.stack.2, hregs.stack.1] at hva
        obtain rfl := Option.some.inj hva
        exact Or.inr rfl
      · rw [regionTarget, hregs.context.2] at hva
        cases hva
      · rw [regionTarget, hregs.system.2] at hva
        cases hva

/-- **The heap over whole runs.** -/
theorem Reach.heapInv (hload : h.LoadsOk lowPages) (hs : Reach L h HeapStepOk s) :
    HeapInv s ∧ MemInv False L s ∧ ∃ c Q, SchedInv s c Q := by
  refine hs.invariant (P := fun s => HeapInv s ∧ MemInv False L s ∧ ∃ c Q, SchedInv s c Q) ?_ ?_
  · intro s₀ s hboot
    have hb : BootMem False L lowPages s₀.phys.mem s :=
      Prog.wp_exit (sStart_mem hload (Or.inr rfl) s₀) hboot
    exact ⟨hb.heapInv, hb.mem, 0, [], hb.booted.sched⟩
  · rintro s a s' hok ⟨hh, hm, c, Q, hsched⟩ ha
    obtain ⟨q, Q', hsched', -⟩ := hsched.step ha
    exact ⟨hh.step hm hsched hok ha, (ha.left hm hsched hok.ok).mem, q, Q', hsched'⟩

/-- Below the stack the next page of the heap is mapped by no process. -/
theorem HeapInv.unmapped {fl : List Ppn} (hh : HeapInv s)
    (hs : Space False L (s.view s.used s.used) s.phys fl)
    (hroom : s.gUfreePage < USER_STACK_TOP - PGSIZE) (hal : s.gUfreePage % PGSIZE = 0) {i : Pid}
    (hi : i ∈ s.used) :
    translate s.phys.mem (s.procs i).space.root (vpn s.gUfreePage) = none := by
  rw [BitVec.lt_def, stackTop_toNat] at hroom
  have h0 := toNat_mod_PGSIZE hal
  refine Option.eq_none_iff_forall_ne_some.mpr fun w hw => ?_
  by_cases hU : w &&& PTE_U = 0
  · have htf : 2 ^ 31 ≤ (s.procs i).space.trapframe.toNat ∧
        (s.procs i).space.trapframe.toNat < 2 ^ 32 := hs.trapframe_toNat hi
    have hts := hs.trapSec_toNat hi
    rcases hs.kernel i hi _ w hw hU with ⟨hv, -⟩ | ⟨hv, -⟩
    · exact vpn_ne (b := (s.procs i).space.trapframe) (by omega) (by omega) (by omega) hv
    · exact vpn_ne (by omega) (by omega) (by omega) hv
  · rcases hh.pages i hi _ w hw hU with hv | hv
    · omega
    · rw [hh.vpn_toNat, stackVpn_toNat] at hv
      omega

/-- **The heap address is fresh** in every run that keeps away from the rest of the
    heap, as long as the counter has not reached the stack. -/
theorem heapAddress_fresh (hload : h.LoadsOk lowPages) (hs : Reach L h HeapStepOk s)
    (hcur : s.current = some c) (hroom : s.gUfreePage < USER_STACK_TOP - PGSIZE) :
    translate s.phys.mem (ppn (s.procs c).pagetable) (vpn s.gUfreePage) = none ∧
      ∀ t args, IsSyscall t SYS_user_allocate_page →
        trap L t s ≠ .halt (.panic "map_pages fails on mapping va (0x%lx) to pa (0x%lx)" args) := by
  obtain ⟨hh, hm, q, Q, hsched⟩ := hs.heapInv hload
  obtain rfl : q = c := Option.some.inj (hsched.current.symm.trans hcur)
  have hc : q ∈ s.used := ((hsched.live q).mp List.mem_cons_self).1
  obtain ⟨fl, hspace⟩ := hm.space
  have hnone := hh.unmapped hspace hroom hm.heap hc
  refine ⟨hnone, fun t args ht hhalt => ?_⟩
  have hlow : s.gUfreePage < MAXVA := by
    rw [BitVec.lt_def, stackTop_toNat] at hroom
    exact lt_MAXVA (by omega)
  obtain ⟨-, hpanic⟩ := Prog.wp_halted (trap_allocate hm hsched hspace ht fun hf => hf.elim) hhalt
  exact absurd (hpanic hlow hnone) (by simp)

theorem sampleHost_loads_low : (sampleHost 5 8).LoadsOk lowPages :=
  sampleHost_code.loadsOk (Or.inl (by decide))

/-- The first process gets a page of heap; the one behind it is not mapped. -/
theorem heapAddress_fresh_sample : ∃ s s',
    sStart sampleLayout (sampleHost 5 8) (coldStart (sampleHost 5 8) (powerOn 0)) = .exit s ∧
      HeapStepOk s (.trap (call SYS_user_allocate_page 0)) ∧
      Step sampleLayout s (.trap (call SYS_user_allocate_page 0)) s' ∧
      s'.gUfreePage = USER_FREE_ADDRESS_START + PGSIZE ∧
      translate s'.phys.mem (ppn (s'.procs 0).pagetable) (vpn s'.gUfreePage) = none := by
  obtain ⟨s, hboot, hb⟩ := sampleBoot
  obtain ⟨s', fl, fl', hexit, -, -, hgrant⟩ := sampleGrant hb
  have hok : HeapStepOk s (.trap (call SYS_user_allocate_page 0)) := by
    refine ⟨.of_not_free fun hf => absurd hf.2 (by decide), ?_, ?_⟩
    · rintro t ⟨rfl⟩ hfault
      exact absurd hfault (by decide)
    · intro t _ _
      rw [hb.heap]
      decide
  have hheap : s'.gUfreePage = USER_FREE_ADDRESS_START + PGSIZE := by rw [hgrant.heap, hb.heap]
  exact ⟨s, s', hboot, hok, .trap hexit, hheap, (heapAddress_fresh sampleHost_loads_low
    ((Reach.boot hboot).step hok (.trap hexit)) hgrant.current (by rw [hheap]; decide)).1⟩

/-- The first process stores at the start of the heap before it asks for a page. -/
theorem heapAddress_taken : ∃ s, Reachable sampleLayout (sampleHost 5 8) s ∧
    s.current = some 0 ∧ s.gUfreePage = USER_FREE_ADDRESS_START ∧
      translate s.phys.mem (ppn (s.procs 0).pagetable) (vpn s.gUfreePage) ≠ none := by
  obtain ⟨s, hboot, hb⟩ := sampleBoot
  obtain ⟨fl, hs, hlen⟩ := hb.space
  have hpages : 200 ≤ (sampleHost 5 8).pageCount sampleLayout := by decide
  have hnone : translate s.phys.mem (s.procs 0).space.root (vpn USER_FREE_ADDRESS_START) = none :=
    hb.unmapped (by decide) (by decide) (by decide)
  obtain ⟨s', hexit, ⟨fl', hg⟩ | ⟨hshort, -⟩⟩ := Prog.exits_of_wp
    (trap_storeFault (t := faultAt USER_FREE_ADDRESS_START) hb.memInv hb.booted.sched hs rfl
      fun hf => hf.elim) fun _ hn => hn ⟨by decide, hnone⟩
  · have hheap : s'.gUfreePage = USER_FREE_ADDRESS_START := by
      rw [hg.heap, hb.heap]
      decide
    refine ⟨s', .step (.boot hboot) trivial (.trap hexit), hg.current, hheap, ?_⟩
    obtain ⟨pa, -, hleaf⟩ := hg.leaf
    have hw := hleaf 0 hb.mem_used (vpn USER_FREE_ADDRESS_START)
    rw [if_pos ⟨rfl, rfl⟩] at hw
    rw [hheap, hg.procs]
    exact fun h0 => nomatch hw.symm.trans h0
  · omega

end Pke
