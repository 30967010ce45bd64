import Pke.Boot.Elf
import Pke.Space.Traps

/-!
# `s_start`

The boot code sets up the free list and the kernel page table, creates the first
process, loads the application into it and dispatches it. Each stage hands its
result to the next one, so the state in which user code runs first has its
memory in order when the application was loaded in order.
-/

namespace Pke

open Lib Radix

variable {iso : Prop} {L : Layout} {h : Host} {s s' s₁ : Kernel} {fl fl' : List Ppn} {us : Ppn}
  {S : Set Vpn}

/-! ## Before the first process -/

/-- The number of pages `pmm_init` puts on the free list. -/
def Host.pageCount (h : Host) (L : Layout) : ℕ :=
  freePageCount (ROUNDUP L.kend PGSIZE).toNat (usableSize h.memSize + DRAM_BASE).toNat

/-- The memory is too small for the kernel page table and the first process. -/
def Host.Small (h : Host) (L : Layout) : Prop :=
  usableSize h.memSize < L.kend - KERN_BASE ∨ h.pageCount L < 142

/-- The machine when `load_user_program` is called, with the memory `m` before boot. -/
structure Started (iso : Prop) (L : Layout) (h : Host) (m : Mem) (s : Kernel) (fl : List Ppn) :
    Prop where
  idle : Idle s
  space : Space iso L (s.view ∅ ∅) s.phys fl
  heap : s.gUfreePage = USER_FREE_ADDRESS_START
  length : h.pageCount L ≤ fl.length + 131
  pages : ∃ new, pagesDown (ppn (ROUNDUP L.kend PGSIZE)) (h.pageCount L) = new ++ fl
  image : SameImage L m s.phys.mem

theorem initProcPool_wp {R : Unit → Kernel → Prop} {E : Kernel → Prop} {H : Halt → Prop} :
    Prog.wp initProcPool R E H s ↔ R () { s with procs := fun i =>
      { kstack := 0, pagetable := 0, trapframe := 0, mappedInfo := 0, totalMappedRegion := 0,
        pid := BitVec.ofNat 64 i, status := .FREE, parent := none, queueNext := none,
        tickCount := 0 } } := Iff.rfl

/-- `s_start` up to `load_user_program`. -/
theorem sStart_started {E : Kernel → Prop} {H : Halt → Prop} (s₀ : Kernel)
    (hsmall : h.Small L → ∀ e, H e)
    (hrest : ∀ s fl, Started iso L h s₀.phys.mem s fl → Prog.wp (do
      insertToReadyQueue (← loadUserProgram L h)
      schedule L : KernelM Unit) (fun _ _ => False) E H s) :
    Prog.wp (sStart L h) (fun _ _ => False) E H (coldStart h s₀) := by
  have hkend : KERN_BASE ≤ L.kend :=
    BitVec.le_trans L.base_le_trapSec
      (BitVec.le_trans (BitVec.le_of_lt L.trapSec_lt_etext) L.etext_le_kend)
  rw [sStart, sprint, Prog.wp_bind, Prog.wp_modify, writeCsr, Prog.wp_bind, Prog.wp_modify,
    Prog.wp_bind]
  refine Prog.wp_mono (Prog.wp_and (pmmInit_spec hkend _) ((pmmInit_quiet L.kend).wp _)) ?_
    (fun _ h => h.1.elim) (fun e he => hsmall (Or.inl he.1) e)
  rintro - s₁ ⟨⟨hsize, ⟨fl₁, hready⟩, hs₁, hbelow⟩, hsame₁⟩
  rw [Prog.wp_bind]
  refine Prog.wp_mono (Prog.wp_and (kernVmInit_spec hready hsize) ((kernVmInit_quiet L).wp s₁)) ?_
    (fun _ h => h.1.elim) fun e he => hsmall (Or.inr ?_) e
  · rintro - s₂ ⟨⟨fl₂, hpaged⟩, hsame₂⟩
    rw [enablePaging, Prog.bind_assoc, Prog.wp_bind, Prog.wp_gets, writeCsr, Prog.wp_bind,
      Prog.wp_modify, sprint, Prog.wp_bind, Prog.wp_modify, Prog.wp_bind, initProcPool_wp, sprint,
      Prog.wp_bind, Prog.wp_modify]
    have hout : dispatches s₂.console = [] := hsame₂.out.trans (hsame₁.out.trans rfl)
    have hheap : s₂.gUfreePage = USER_FREE_ADDRESS_START := by
      rw [hpaged.rest, hs₁]
      rfl
    have hlen := hpaged.length
    rw [hready.pages, pagesDown_length] at hlen
    obtain ⟨new, hnew⟩ := hpaged.suffix
    refine hrest _ fl₂ ⟨⟨fun _ => rfl, fun _ => rfl, fun _ => rfl, fun _ => rfl, ?_, ?_⟩,
      hpaged.space iso _ _, hheap, hlen, ⟨new, hready.pages.symm.trans hnew⟩, fun p hp => ?_⟩
    · exact (hsame₂.head.trans hsame₁.head).trans rfl
    · rw [dispatches_append, dispatches_append, hout]
      rfl
    · exact (hpaged.frame p (hready.notMem_of_lt hkend hsize hp.2)).trans (hbelow p hp.2)
  · have hlen := he.1
    rw [hready.pages, pagesDown_length] at hlen
    exact lt_trans hlen (by omega)

/-! ## The first process -/

theorem Created.sprint {P : Set Pid} {i : Pid} (hc : Created iso L P s fl i us s' fl') (m : Msg) :
    Created iso L P s fl i us { s' with console := s'.console ++ [m] } fl' := by
  refine ⟨hc.space, ?_, hc.total, hc.leaf, hc.stack, hc.other, hc.frame, hc.regions, hc.popped,
    hc.own, hc.length⟩
  exact congrArg (fun x : Kernel => { x with console := s'.console ++ [m] }) hc.rest

/-- The machine after `s_start` when the loader left `s₁`. -/
structure Dispatched (L : Layout) (s₁ s' : Kernel) : Prop where
  booted : Booted s' 0
  switch : ∃ s₂, Queued 0 s₁ s₂ ∧ s' = afterSwitch L 0 s₂

/-- `s_start`, with `K` for what `alloc_process` is known to do and `R` for what the
    loader leaves. -/
theorem sStart_process {K : Kernel → List Ppn → Pid → Kernel → Prop} {R : Kernel → Prop}
    {H : Halt → Prop} (s₀ : Kernel) (hsmall : h.Small L → ∀ e, H e)
    (hmake : ∀ s fl, Started iso L h s₀.phys.mem s fl →
      Prog.wp (allocProcess L) (K s fl) (fun _ => False) H s)
    (hload : ∀ s fl s₁, Started iso L h s₀.phys.mem s fl → K s fl 0 s₁ →
      Prog.wp (loadBincodeFromHostElf h 0) (fun _ s' => R s') (fun _ => False) H
        { s₁ with console := s₁.console ++ [.text "User application is loading.\n" []] })
    (hstuck : ∀ s₁ s', R s₁ → Dispatched L s₁ s' → ¬ CanReturn L s' 0 → H .trapEntry) :
    Prog.wp (sStart L h) (fun _ _ => False) (fun s' => ∃ s₁, R s₁ ∧ Dispatched L s₁ s') H
      (coldStart h s₀) := by
  refine sStart_started s₀ hsmall fun s fl (hs : Started iso L h s₀.phys.mem s fl) => ?_
  have hfree := hs.idle.firstFree
  rw [loadUserProgram, Prog.bind_assoc, Prog.wp_bind]
  refine Prog.wp_mono (Prog.wp_and (hmake s fl hs) (allocProcess_sched L s)) ?_
    (fun _ h => h.1.elim) fun e he => he.1
  rintro i s₁ ⟨hK, hslot, hi⟩
  obtain rfl : i = 0 := Option.some.inj (hi.symm.trans hfree)
  rw [Prog.bind_assoc, Pke.sprint, Prog.wp_bind, Prog.wp_modify, Prog.bind_assoc, Prog.wp_bind]
  refine Prog.wp_mono (Prog.wp_and (hload s fl s₁ hs hK)
    ((loadBincodeFromHostElf_quiet h 0).wp _)) ?_ (fun _ h => h.1.elim) fun _ h => h.1
  rintro - s₂ ⟨hR, hsame⟩
  have hidle : Idle { s₁ with
      console := s₁.console ++ [.text "User application is loading.\n" []] } :=
    (hs.idle.of_same hslot.same).of_same ⟨fun _ => rfl, rfl, rfl, by simp [dispatches]⟩
  obtain ⟨s', hrun, hboot, hq⟩ := (hidle.of_same hsame).dispatch (L := L) 0
  have hd : Dispatched L s₂ (afterSwitch L 0 s') := ⟨hboot, s', hq, rfl⟩
  exact wp_of_returning (show ((pure 0 : KernelM Pid) >>= fun i => do
    insertToReadyQueue i
    schedule L) s₂ = returning L 0 (afterSwitch L 0 s') from hrun) ⟨s₂, hR, hd⟩
    (hstuck s₂ _ hR hd)

/-- `s_start` as the loader of the application sees it. -/
theorem sStart_loaded {R : Kernel → Prop} {H : Halt → Prop} (s₀ : Kernel)
    (hsmall : h.Small L → ∀ e, H e)
    (hload : ∀ s fl s₁ us fl₁, Started iso L h s₀.phys.mem s fl →
      Created iso L ∅ s fl 0 us s₁ fl₁ →
      Prog.wp (loadBincodeFromHostElf h 0) (fun _ s' => R s') (fun _ => False) H s₁)
    (hstuck : ∀ s₁ s', R s₁ → Dispatched L s₁ s' → ¬ CanReturn L s' 0 → H .trapEntry) :
    Prog.wp (sStart L h) (fun _ _ => False) (fun s' => ∃ s₁, R s₁ ∧ Dispatched L s₁ s') H
      (coldStart h s₀) := by
  refine sStart_process (K := fun s fl i s₁ => ∃ us fl₁, Created iso L ∅ s fl i us s₁ fl₁) s₀ hsmall
    (fun s fl (hs : Started iso L h s₀.phys.mem s fl) => ?_) ?_ hstuck
  · have hfree := hs.idle.firstFree
    have hlen := hs.length
    refine Prog.wp_mono (allocProcess_space hs.space fun _ h => h.elim) ?_ (fun _ h => h)
      fun e he => hsmall (Or.inr ?_) e
    · rintro i s₁ ⟨-, -, us, fl₁, hcreated⟩
      exact ⟨us, fl₁, hcreated⟩
    · rcases he with h11 | hnone
      · omega
      · cases hfree.symm.trans hnone
  · rintro s fl s₁ hs ⟨us, fl₁, hc⟩
    exact hload s fl _ us fl₁ hs (hc.sprint _)

/-! ## The state in which user code runs first -/

theorem Queued.space (hq : Queued c s s') (i : Pid) : (s'.procs i).space = (s.procs i).space :=
  (congrArg Process.space (hq.procs i) :)

theorem Queued.total (hq : Queued c s s') (i : Pid) :
    (s'.procs i).totalMappedRegion = (s.procs i).totalMappedRegion :=
  (congrArg Process.totalMappedRegion (hq.procs i) :)

theorem Booted.used (hb : Booted s c) : s.used = {c} := by
  ext i
  constructor
  · exact fun hi => by_contra fun hic => hi (hb.free i hic)
  · rintro rfl hfree
    exact nomatch (hb.sched.ready i List.mem_cons_self).symm.trans hfree

/-- What the dispatched state has in common with that the loader left. -/
structure FirstRun (s₁ s' : Kernel) : Prop where
  booted : Booted s' 0
  mem : ∀ q, q ≠ (s₁.procs 0).space.own .trapframe → s'.phys.mem q = s₁.phys.mem q
  phys : s'.phys = { s₁.phys with mem := s'.phys.mem }
  kroot : s'.gKernelPagetable = s₁.gKernelPagetable
  heap : s'.gUfreePage = s₁.gUfreePage
  space : ∀ i, (s'.procs i).space = (s₁.procs i).space
  total : ∀ i, (s'.procs i).totalMappedRegion = (s₁.procs i).totalMappedRegion

theorem Dispatched.memInv (hd : Dispatched L s s')
    (hs : Space iso L (s.view {0} {0}) s.phys fl) (hheap : s.gUfreePage % PGSIZE = 0) :
    MemInv iso L s' ∧ FirstRun s s' := by
  obtain ⟨hb, s₂, hq, rfl⟩ := hd
  have hused : s₂.used = {0} := hb.used
  have hphys : s₂.phys = s.phys := by rw [hq.rest]
  have hkroot : s₂.gKernelPagetable = s.gKernelPagetable := by rw [hq.rest]
  have hheap₂ : s₂.gUfreePage = s.gUfreePage := by rw [hq.rest]
  have hview : s₂.view {0} {0} = s.view {0} {0} := by
    unfold Kernel.view
    rw [hkroot, funext hq.space, funext hq.total]
  have hm : MemInv iso L s₂ := by
    refine ⟨⟨fl, ?_⟩, by rw [hheap₂]; exact hheap⟩
    rw [hused, hview, hphys]
    exact hs
  have h0 : (0 : Pid) ∈ s₂.used := by rw [hused]; rfl
  have hf := afterSwitch_frameOnly (L := L) (hm.aligned h0)
  refine ⟨hf.memInv h0 hm, hb, fun q hne => ?_, ?_, hf.kroot.trans hkroot, hf.heap.trans hheap₂,
    fun i => ?_, fun i => ?_⟩
  · rw [hf.mem q (by rw [hq.space]; exact hne), hphys]
  · rw [← hphys]
    exact hf.phys
  · rw [hf.procs]
    exact hq.space i
  · rw [hf.procs]
    exact hq.total i

/-- The process `load_user_program` has created is ready for its application. -/
theorem Created.loading (hc : Created iso L ∅ s fl 0 us s₁ fl') (hS : stackVpn ∈ S) :
    Loading iso L {0} 0 S s₁ fl' := by
  have hspace := hc.space
  rw [insert_empty_eq] at hspace
  refine ⟨hspace, fun k hk hk' => hc.regions k (by rw [← hc.total]; exact hk) hk',
    fun v w hw hU => ?_, fun k hk hk' => Or.inr (hc.regions k hk hk').1,
    ⟨_, hc.stack_leaf, userData_leaf_user _⟩, fun k hk hk' => ?_⟩
  · rw [hc.user_leaf hw hU]
    exact hS
  · rw [hc.total] at hk'
    omega

/-- The machine when user code runs first, with the pages it may use in `S` and the
    memory `m` before boot. -/
structure BootMem (iso : Prop) (L : Layout) (S : Set Vpn) (m : Mem) (s : Kernel) : Prop where
  booted : Booted s 0
  mem : MemInv iso L s
  heap : s.gUfreePage = USER_FREE_ADDRESS_START
  pages : ∀ v w, translate s.phys.mem (s.procs 0).space.root v = some w → w &&& PTE_U ≠ 0 → v ∈ S
  vas : ∀ k, 3 ≤ k → k < 256 → RegionIn S s.phys.mem (s.procs 0).space k
  stack : UserMapped s.phys.mem (s.procs 0).space.root stackVpn
  mapped : ∀ k, 3 ≤ k → k < (s.procs 0).totalMappedRegion →
    UserMapped s.phys.mem (s.procs 0).space.root (vpn (regionVa s.phys.mem (s.procs 0).space k))
  image : SameImage L m s.phys.mem

theorem Created.sameImage {P : Set Pid} {i : Pid} (hc : Created iso L P s fl i us s' fl')
    (hs : Space iso L (s.view P P) s.phys fl) : SameImage L s.phys.mem s'.phys.mem := fun p hp =>
  hc.frame p (hs.image_not_free hp) (hs.image_not_table hp)

/-- **Boot.** When the segments of the application lie at addresses of pages,
    user code starts with the memory in order, and the kernel image is as before. -/
theorem sStart_mem (hok : h.LoadsOk S) (hS : stackVpn ∈ S) (s₀ : Kernel) :
    Prog.wp (sStart L h) (fun _ _ => False) (BootMem iso L S s₀.phys.mem) (fun _ => True)
      (coldStart h s₀) := by
  let R : Kernel → Prop := fun s' => s'.gUfreePage = USER_FREE_ADDRESS_START ∧
    SameImage L s₀.phys.mem s'.phys.mem ∧ ∃ fl, Loading iso L {0} 0 S s' fl
  have hload : ∀ s fl s₁ us fl₁, Started iso L h s₀.phys.mem s fl →
      Created iso L ∅ s fl 0 us s₁ fl₁ →
      Prog.wp (loadBincodeFromHostElf h 0) (fun _ s' => R s') (fun _ => False) (fun _ => True)
        s₁ := by
    intro s fl s₁ us fl₁ hs hc
    refine Prog.wp_mono (loadBincodeFromHostElf_spec (hc.loading hS) (Set.mem_singleton 0) hc.total
      hok) ?_ (fun _ h => h) fun _ h => h
    rintro - s₂ ⟨fl₂, hl, honly⟩
    refine ⟨?_, (hs.image.trans (hc.sameImage hs.space)).trans honly.image, fl₂, hl⟩
    rw [honly.rest, hc.rest]
    exact hs.heap
  refine Prog.wp_mono (sStart_loaded s₀ (fun _ _ => trivial) hload fun _ _ _ _ _ => trivial)
    (fun _ _ h => h) ?_ fun _ h => h
  rintro s' ⟨s₁, ⟨hheap, himage, fl, hl⟩, hd⟩
  obtain ⟨hm, hrun⟩ := hd.memInv hl.space (by rw [hheap]; decide)
  have htab := (hl.space.own_apart 0 rfl .trapframe).2.1
  have hleaf : ∀ v, translate s'.phys.mem (s₁.procs 0).space.root v =
      translate s₁.phys.mem (s₁.procs 0).space.root v := fun v =>
    leaf_write (V := s₁.view {0} {0}) hrun.mem htab rfl v
  have hinfo := hrun.mem ((s₁.procs 0).space.own .info) (hl.space.own_ne rfl rfl (by decide))
  have hva : ∀ k < 256, regionVa s'.phys.mem (s₁.procs 0).space k =
      regionVa s₁.phys.mem (s₁.procs 0).space k := fun k hk =>
    regionVa_congr (hl.space.aligned 0 rfl) hinfo hk
  have hhi : (s₁.procs 0).totalMappedRegion ≤ 256 := (hl.space.ready 0 rfl).regions.hi
  refine ⟨hrun.booted, hm, hrun.heap.trans hheap, fun v w hw hU => hl.pages v w ?_ hU,
    fun k hk hk' => ?_, ?_, fun k hk hk' => ?_,
    himage.trans fun p hp => hrun.mem p (hl.space.image_ne_own hp rfl .trapframe)⟩
  · rw [hrun.space] at hw
    exact (hleaf v).symm.trans hw
  · have hvas := hl.vas k hk hk'
    unfold RegionIn at hvas ⊢
    rw [hrun.space]
    rwa [← hva k hk'] at hvas
  · obtain ⟨w, hw, hU⟩ := hl.stack
    rw [hrun.space]
    exact ⟨w, (hleaf _).trans hw, hU⟩
  · rw [hrun.total] at hk'
    obtain ⟨w, hw, hU⟩ := hl.mapped k hk hk'
    rw [hrun.space, hva k (by omega)]
    exact ⟨w, (hleaf _).trans hw, hU⟩

/-! ## Every state reached -/

/-- **Memory over whole runs.** In every state reached by steps that all meet the
    condition, the memory of the processes is in order. -/
theorem Reach.mem (hok : h.LoadsOk Set.univ) (hs : Reach L h (StepOk iso) s) :
    MemInv iso L s ∧ ∃ c Q, SchedInv s c Q := by
  refine hs.invariant (P := fun s => MemInv iso L s ∧ ∃ c Q, SchedInv s c Q) ?_ ?_
  · intro s₀ s hboot
    have hb : BootMem iso L Set.univ s₀.phys.mem s :=
      Prog.wp_exit (sStart_mem hok (Set.mem_univ _) s₀) hboot
    exact ⟨hb.mem, 0, [], hb.booted.sched⟩
  · rintro s a s' hstep ⟨hm, c, Q, hsched⟩ ha
    obtain ⟨q, Q', hsched', -⟩ := hsched.step ha
    exact ⟨(ha.left hm hsched hstep).mem, q, Q', hsched'⟩

end Pke
