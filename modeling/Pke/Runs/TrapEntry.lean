import Pke.Build.DoFork
import Pke.Runs.Recycle

/-!
# Trap entry

A trap is taken under the page table of the process, and `smode_trap_vector` saves the
registers in its trapframe. As long as `free_page` is called for pages whose frame is
mapped once, the current process maps both at every point of a run, and its trapframe is
not a free page.

The entry of a page that was freed goes on naming the frame. When a `fork` has made that
frame the trapframe of the child, a second `free_page` for the address frees it there.
-/

namespace Pke

open Lib Radix

variable {iso : Prop} {L : Layout} {h : Host} {s s₁ s' : Kernel} {b c : Pid} {Q : List Pid}
  {t : TrapInput} {fl : List Ppn} {q f : Ppn} {v : Vpn}

/-- The current process can trap, and its trapframe is not a free page. -/
def TrapEntryOk (L : Layout) (s : Kernel) : Prop :=
  ∃ c, s.current = some c ∧ CanEnter L s c ∧
    ∃ fl, FreeList s.phys fl ∧ ppn (s.procs c).trapframe ∉ fl

/-- **Trap entry over whole runs.** -/
theorem trapEntry_possible (hload : h.LoadsOk Set.univ) (hs : Reach L h (StepOk False) s) :
    TrapEntryOk L s := by
  obtain ⟨hm, c, Q, hsched⟩ := hs.mem hload
  have hc : c ∈ s.used := ((hsched.live c).mp List.mem_cons_self).1
  obtain ⟨fl, hspace⟩ := hm.space
  exact ⟨c, hsched.current, hm.canEnter hc, fl, hspace.tables.free,
    (hspace.own_apart c hc .trapframe).1⟩

/-- The first process frees its stack. -/
theorem trapEntry_possible_sample : ∃ s s',
    sStart sampleLayout (sampleHost 5 8) (coldStart (sampleHost 5 8) (powerOn 0)) = .exit s ∧
      StepOk False s (.trap freeStack) ∧ Step sampleLayout s (.trap freeStack) s' ∧
      TrapEntryOk sampleLayout s' := by
  obtain ⟨s, hboot, hb⟩ := sampleBoot
  obtain ⟨s', us, htrap, hok, -⟩ := sampleFree hb
  exact ⟨s, s', hboot, hok, .trap htrap,
    trapEntry_possible sampleHost_loads ((Reach.boot hboot).step hok (.trap htrap))⟩

/-! ## The frames of a fork -/

/-- A fork takes the first free page as the trapframe of the child, and leaves the pages
    that are not free as they were. -/
theorem trap_fork_frames (hm : MemInv iso L s) (hsched : SchedInv s c Q)
    (hs : Space iso L (s.view s.used s.used) s.phys fl) (ht : IsFork t)
    (hexit : trap L t s = .exit s') (hb : firstFree s.procs = some b) :
    fl.head? = some ((s'.procs b).space.own .trapframe) ∧
      ∀ p ∉ fl, p ≠ (s.procs c).space.own .trapframe → s'.phys.mem p = s.phys.mem p := by
  have hc : c ∈ s.used := ((hsched.live c).mp List.mem_cons_self).1
  have hframe := hm.inFork_frameOnly hc hsched.scratch t
  have hspace := hframe.space hc hs
  rw [hframe.used] at hspace
  obtain ⟨i, hfree, -, -, -, hrole⟩ := trap_fork hsched ht hexit
  obtain rfl : i = b := Option.some.inj (hfree.symm.trans hb)
  obtain ⟨r, s₁, hrun, rfl⟩ := trap_fork_run hsched ht hexit
  have hQ : QueueOk (inFork t c s) Q := ⟨hsched.queue.chain, hsched.queue.ready⟩
  obtain ⟨j, a, us, D, s₂, fl₂, hmade⟩ := doFork_childMade hspace.tables.free
    (hspace.forkParent hc hc) hQ hrun
  -- the slot that became READY is the one that was free
  obtain rfl : j = i := by
    by_contra hne
    have hready : (s₁.procs j).status = .READY := (congrArg Process.status hmade.finished.self :)
    have hsame := (hrole j hne).1
    rw [show (s.procs j).status = .FREE from hmade.free] at hsame
    exact absurd (hready.symm.trans hsame) (by decide)
  have hcj : c ≠ j := fun heq => hc (heq ▸ hmade.free)
  have htf : (s₁.procs c).space = (s.procs c).space :=
    calc (s₁.procs c).space
      _ = (s₂.procs c).space := (congrArg Process.space (hmade.finished.others c hcj) :)
      _ = (s.procs c).space := congrArg Process.space (hmade.copying.procs hcj)
  refine ⟨?_, fun p hp hpc => ?_⟩
  · show fl.head? = some ((s₁.procs j).space.own .trapframe)
    rw [hmade.space]
    exact hmade.first
  · have haligned : (s₁.procs c).space.Aligned := htf ▸ hs.aligned c hc
    rw [(returned_frameOnly haligned r).mem p (by rw [htf]; exact hpc), hmade.frame hp]
    exact hframe.mem p hpc

/-! ## A frame in use again -/

/-- Process `c` runs and `b` waits. The entry of `c` for the page `v`, in the table `q`,
    names the frame `f`, which is the trapframe of `b` by now. -/
structure Reclaimed (iso : Prop) (L : Layout) (c b : Pid) (v : Vpn) (q f : Ppn) (s : Kernel) :
    Prop where
  mem : MemInv iso L s
  sched : SchedInv s c [b]
  node : nodeAt ptePage s.phys.mem (s.procs c).space.root (vpath 2 v) = some q
  entry : ptePpn (s.phys.mem q (px 0 v)) = f
  trapframe : (s.procs b).space.own .trapframe = f

/-- The frame went to the free list, from `s` to `s₁`, and both processes can still enter the
    kernel. -/
structure Withdrawn (L : Layout) (c b : Pid) (f : Ppn) (s s₁ : Kernel) : Prop where
  procs : s₁.procs = s.procs
  sched : SchedInv s₁ c [b]
  head : s₁.phys.gFreeMemList = addr f
  canEnter : CanEnter L s₁ c ∧ CanEnter L s₁ b
  tables : ∀ r, r = c ∨ r = b → (s₁.procs r).space.own .trapframe ∉
    tablePages s₁.phys.mem (s.view s.used s.used).roots

namespace Reclaimed

theorem used (h : Reclaimed iso L c b v q f s) : c ∈ s.used ∧ b ∈ s.used :=
  ⟨((h.sched.live c).mp List.mem_cons_self).1,
    ((h.sched.live b).mp (List.mem_cons_of_mem c List.mem_cons_self)).1⟩

theorem ne (h : Reclaimed iso L c b v q f s) : b ≠ c := fun heq =>
  h.sched.notin (heq ▸ List.mem_cons_self)

theorem freed (h : Reclaimed iso L c b (vpn (t.regs .a1)) q f s)
    (ht : IsSyscall t SYS_user_free_page) (hmax : t.regs .a1 < MAXVA)
    (hal : t.regs .a1 % PGSIZE = 0) : ∃ s₁, trap L t s = .exit s₁ ∧ Withdrawn L c b f s s₁ := by
  obtain ⟨fl, hs⟩ := h.mem.space
  obtain ⟨hc, hb⟩ := h.used
  obtain ⟨-, htab, hman⟩ := hs.own_apart b hb .trapframe
  rw [show ((s.view s.used s.used).procs b).own .trapframe = f from h.trapframe] at htab hman
  have hown : f ≠ (s.procs c).space.own .trapframe := fun heq =>
    h.ne (hs.own_inj b hb c hc .trapframe .trapframe (h.trapframe.trans heq)).1
  have hcan : ∀ j ∈ s.used, CanEnter L (afterUnmap L t c q f (vpn (t.regs .a1)) s) j :=
    fun j hj => afterUnmap_canEnter h.mem h.sched hs h.node htab h.entry hman hown hj
  obtain ⟨s₁, hexit, rfl⟩ := Prog.exits_of_wp (trap_unmap h.mem h.sched ht h.node h.entry)
    fun _ hn => hn ⟨hmax, hal, hman, (hcan c hc).canReturn⟩
  refine ⟨_, hexit, rfl, ?_, rfl, ⟨hcan c hc, hcan b hb⟩, fun r hr => ?_⟩
  · exact h.sched.kept (.trap hexit) rfl rfl
  · rw [(afterUnmap_tablePages h.mem h.sched hs h.node htab).1]
    have hr : r ∈ s.used := by
      rcases hr with rfl | rfl
      · exact hc
      · exact hb
    exact (hs.own_apart r hr .trapframe).2.1

end Reclaimed

/-- `yield` hands the hart over: it writes the two trapframes, and no page table. -/
theorem trap_yield_withdrawn (h : Withdrawn L c b f s s₁)
    (hc : (s₁.procs c).space.Aligned) (hb : (s₁.procs b).space.Aligned)
    (hroot : (s₁.procs b).space.root ∈ (s.view s.used s.used).roots)
    (ht : IsSyscall t SYS_user_yield) :
    ∃ s₂, trap L t s₁ = .exit s₂ ∧ s₂.current = some b ∧
      (s₂.procs b).trapframe = (s₁.procs b).trapframe ∧ s₂.phys.gFreeMemList = addr f := by
  obtain ⟨s₂, i, Q', hyield, hrot, hover⟩ := trap_yield h.sched h.canEnter.1 ht.1 ht.2
  obtain ⟨s₃, rfl, hrest, hprocs⟩ := hover.switch
  obtain rfl : b = i := (List.cons.inj hrot.order).1
  have hspace : (s₃.procs b).space = (s₁.procs b).space := (congrArg Process.space (hprocs b) :)
  have hin := inSyscall_frameOnly hc h.sched.scratch t
  have hout := afterSwitch_frameOnly (L := L) (s := s₃) (c := b) (hspace ▸ hb)
  have hmem : ∀ p ∈ tablePages s₁.phys.mem (s.view s.used s.used).roots,
      (afterSwitch L b s₃).phys.mem p = s₁.phys.mem p := by
    intro p hp
    rw [hout.mem p, hrest]
    · refine hin.mem p ?_
      rintro rfl
      exact h.tables c (Or.inl rfl) hp
    · rw [hspace]
      rintro rfl
      exact h.tables b (Or.inr rfl) hp
  have hret : CanReturn L (afterSwitch L b s₃) b :=
    h.canEnter.2.canReturn.congr hspace (translate_congr hmem hroot)
  refine ⟨_, hyield.trans (returning_eq hret), rfl, congrArg AddrSpace.trapframe hspace, ?_⟩
  rw [hout.phys, hrest, hin.phys]
  exact h.head

/-- A process whose trapframe is the first free page. -/
theorem not_trapEntryOk (hcur : s.current = some b) (hne : f ≠ 0)
    (htf : (s.procs b).trapframe = addr f) (hhead : s.phys.gFreeMemList = addr f) :
    ¬ TrapEntryOk L s := by
  rintro ⟨i, hi, -, fl, hfl, hnot⟩
  obtain rfl : b = i := Option.some.inj (hcur.symm.trans hi)
  rw [htf, ppn_addr] at hnot
  exact hnot (hfl.head_mem hhead hne)

/-! ## The small application -/

/-- The call that frees the first page of the heap. -/
abbrev freeHeap : TrapInput := call SYS_user_free_page USER_FREE_ADDRESS_START

/-- The page was freed: its frame is the first free page, and the entry still names it. -/
structure Stale (q f : Ppn) (fl : List Ppn) (s : Kernel) : Prop where
  mem : MemInv False sampleLayout s
  sched : SchedInv s 0 []
  space : Space False sampleLayout (s.view s.used s.used) s.phys (f :: fl)
  node : nodeAt ptePage s.phys.mem (s.procs 0).space.root
    (vpath 2 (vpn USER_FREE_ADDRESS_START)) = some q
  entry : ptePpn (s.phys.mem q (px 0 (vpn USER_FREE_ADDRESS_START))) = f

/-- The frame is taken for the trapframe of a child, and the table is left as it is. -/
theorem Stale.forked (h : Stale q f fl s) (hb : firstFree s.procs = some b)
    (hforkable : Forkable s 0 (f :: fl)) :
    ∃ s', trap sampleLayout (call SYS_user_fork 0) s = .exit s' ∧
      Reclaimed False sampleLayout 0 b (vpn USER_FREE_ADDRESS_START) q f s' := by
  have h0 : (0 : Pid) ∈ s.used := ((h.sched.live 0).mp List.mem_cons_self).1
  have hroot : (s.procs 0).space.root ∈ (s.view s.used s.used).roots :=
    View.root_mem (V := s.view s.used s.used) h0
  obtain ⟨s', hexit, i, fl', hi, hfork, -⟩ := Prog.exits_of_wp (trap_forkStep
    (t := call SYS_user_fork 0) h.mem h.sched h.space (fun hf => hf.elim) ⟨rfl, rfl⟩)
    fun _ hn => hn hforkable
  obtain rfl : i = b := Option.some.inj (hi.symm.trans hb)
  have hpair := forkedPair_of_fork h.mem h.sched hb hexit
  obtain ⟨hchild, hkept⟩ := trap_fork_frames h.mem h.sched h.space ⟨rfl, rfl⟩ hexit hb
  have hi0 : (0 : Pid) ≠ i := fun heq => hfork.fresh (heq ▸ h0)
  have htables : ∀ p ∈ tablePages s.phys.mem (s.view s.used s.used).roots,
      s'.phys.mem p = s.phys.mem p := fun p hp => by
    refine hkept p (h.space.tables.apart p hp) ?_
    rintro rfl
    exact (h.space.own_apart 0 h0 .trapframe).2.1 hp
  refine ⟨s', hexit, hpair.mem, hpair.sched, ?_, ?_, (Option.some.inj hchild).symm⟩
  · rw [(hfork.same 0 hi0).1, nodeAt_congr hroot htables _ ((vpath_length 2 _).le.trans (by omega))]
    exact h.node
  · rw [htables q (mem_nodes hroot (vpath_length 2 _).le h.node)]
    exact h.entry

/-- The first process frees the page it got. -/
theorem GrantStep.stale {fl₁ : List Ppn}
    (hgrant : GrantStep False sampleLayout 0 (vpn USER_FREE_ADDRESS_START) PGSIZE s fl s₁ fl₁)
    (hs : Space False sampleLayout (s.view s.used s.used) s.phys fl) (h0 : (0 : Pid) ∈ s.used)
    (hf : fl.head? = some f) (hm : MemInv False sampleLayout s₁) (hsched : SchedInv s₁ 0 [])
    (ht : IsSyscall t SYS_user_free_page) (ha1 : t.regs .a1 = USER_FREE_ADDRESS_START) :
    ∃ s₂ q, trap sampleLayout t s₁ = .exit s₂ ∧
      Freed 0 (vpn USER_FREE_ADDRESS_START) f s₁ s₂ ∧ Stale q f fl₁ s₂ := by
  obtain ⟨hleaf, hsole⟩ := hgrant.releasable hs h0 hf
  rw [← hgrant.procs] at hleaf
  have h0₁ : (0 : Pid) ∈ s₁.used := ((hsched.live 0).mp List.mem_cons_self).1
  have hspare := hgrant.space.user 0 h0₁ _ _ hleaf (userData_leaf_user _)
  have hppn : ptePpn (mkPte (addr f) userDataPerm) = f := by
    rw [ptePpn_mkPte _ (by decide), ppn_addr]
  have hman : Managed s₁.phys f :=
    hgrant.managed f (hs.managed f (Or.inl (List.mem_of_mem_head? hf)))
  obtain ⟨s₂, hexit, hfreed⟩ := trap_free hm hsched hgrant.space ht (by rw [ha1]; exact hleaf)
    (userData_leaf_user _) hspare.table hspare.free (by rw [ha1]; decide) (by rw [ha1]; decide)
    (by rw [hppn]; exact hman)
  rw [hppn, ha1] at hfreed
  have hstep : Step sampleLayout s₁ (.trap t) s₂ := .trap hexit
  have hm₂ := (hstep.left hm hsched (.of_releasable hsched.current (ha1 ▸ hsole))).mem
  obtain ⟨fl₂, hs₂⟩ := hm₂.space
  obtain rfl : fl₂ = f :: fl₁ := by
    obtain ⟨fl, hfl, hfl₂⟩ := hfreed.free
    rw [Chain.unique addr_injective hs₂.tables.free hfl₂,
      Chain.unique addr_injective hfl hgrant.space.tables.free]
  obtain ⟨q, hq, hentry⟩ := hfreed.stale
  exact ⟨s₂, q, hexit, hfreed, hm₂, hsched.kept hstep hfreed.procs hfreed.current, hs₂,
    by rw [hfreed.procs]; exact hq, hentry⟩

theorem reclaimed_sample : ∃ s q f, Reachable sampleLayout (sampleHost 5 8) s ∧ f ≠ 0 ∧
    Reclaimed False sampleLayout 0 1 (vpn USER_FREE_ADDRESS_START) q f s := by
  obtain ⟨s₀, hboot, hb⟩ := sampleBoot
  have h0 := hb.mem_used
  obtain ⟨s₁, fl, fl₁, hexit₁, hs, hlen₀, hgrant⟩ := sampleGrant hb
  have hstep₁ : Step sampleLayout s₀ (.trap (call SYS_user_allocate_page 0)) s₁ := .trap hexit₁
  have hlen := hgrant.length
  obtain ⟨f, hf⟩ : ∃ f, fl.head? = some f := by
    match fl, hlen₀ with
    | p :: _, _ => exact ⟨p, rfl⟩
  have hm₁ := (hstep₁.left hb.memInv hb.booted.sched
    (.of_not_free fun h => absurd h.2 (by decide))).mem
  have hsched₁ := hb.booted.sched.kept hstep₁ hgrant.procs hgrant.current
  have h0₁ : (0 : Pid) ∈ s₁.used := ((hsched₁.live 0).mp List.mem_cons_self).1
  obtain ⟨s₂, q, hexit₂, hfreed, hstale⟩ := hgrant.stale (t := freeHeap) hs h0 hf hm₁ hsched₁
    ⟨rfl, rfl⟩ rfl
  -- the regions of the process are its stack and its segment, which are still mapped
  have hfk := hb.forkable (by decide) (by decide) (Or.inl rfl) hs (by omega)
  have hfk₁ := hgrant.forkable h0 hs hfk (by rw [hb.total]; omega)
  have hfk₂ : Forkable s₂ 0 (f :: fl₁) := by
    refine hfreed.forkable h0₁ hgrant.space hfk₁ (fun k hk va hva => ?_) ?_
    · rw [hgrant.procs] at hk hva
      rw [regionTarget_info hs h0 (hgrant.info 0 h0) hk] at hva
      rw [hb.total] at hk
      rw [hb.targets (by decide) (Or.inl rfl) hk] at hva
      split_ifs at hva
      · obtain rfl := Option.some.inj hva
        decide
      · obtain rfl := Option.some.inj hva
        decide
    · rw [hgrant.procs, hb.total, List.length_cons]
      omega
  have hfirst : firstFree s₂.procs = some 1 := by
    rw [hfreed.procs, hgrant.procs, hb.firstFree_eq]
  obtain ⟨s₃, hexit₃, hrec⟩ := hstale.forked hfirst hfk₂
  exact ⟨s₃, q, f, (((Reach.boot hboot).step trivial hstep₁).step trivial (.trap hexit₂)).step
    trivial (.trap hexit₃), hs.tables.free.ne_zero (List.mem_of_mem_head? hf), hrec⟩

/-- **A trapframe on the free list.** The first process gets a page, frees it, forks, frees the
    page once more and yields. The child runs, and its trapframe is the first free page. -/
theorem trapEntry_lost : ∃ s, Reachable sampleLayout (sampleHost 5 8) s ∧ s.current = some 1 ∧
    s.phys.gFreeMemList = (s.procs 1).trapframe ∧ ¬ TrapEntryOk sampleLayout s := by
  obtain ⟨s, q, f, hreach, hne, hrec⟩ := reclaimed_sample
  obtain ⟨fl, hs⟩ := hrec.mem.space
  obtain ⟨hc, hb⟩ := hrec.used
  obtain ⟨s₁, hfree, hw⟩ := hrec.freed (t := freeHeap) ⟨rfl, rfl⟩ (by decide) (by decide)
  obtain ⟨s₂, hyield, hcur, htf, hhead⟩ := trap_yield_withdrawn (t := call SYS_user_yield 0) hw
    (by rw [hw.procs]; exact hs.aligned 0 hc) (by rw [hw.procs]; exact hs.aligned 1 hb)
    (by rw [hw.procs]; exact View.root_mem (V := s.view s.used s.used) hb) ⟨rfl, rfl⟩
  have hframe : (s₂.procs 1).trapframe = addr f := by
    rw [htf, hw.procs, ← hrec.trapframe]
    exact (hs.aligned 1 hb).trapframe.symm
  exact ⟨s₂, (hreach.step trivial (.trap hfree)).step trivial (.trap hyield), hcur,
    hhead.trans hframe.symm, not_trapEntryOk hcur hne hframe hhead⟩

end Pke
