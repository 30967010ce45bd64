import Pke.Space.Traps

/-!
# Single traps from user mode to user mode

What a fork, an allocation, a page fault and a call of `free_page` do, in terms of
the states before the trap and after it, and when the machine does not stop in
them. `ForkStep` is `ForkMade` seen from user mode.
-/

namespace Pke

open Lib Radix

variable {iso : Prop} {L : Layout} {b s s₁ s' : Kernel} {c child : Pid} {t : TrapInput}
  {Q : List Pid} {fl fl' : List Ppn} {epc a0 w g : Word} {v : Vpn}

/-- Process `c` forked `child`, from `s` to `s'`. -/
structure ForkStep (iso : Prop) (L : Layout) (c child : Pid) (s : Kernel) (fl : List Ppn)
    (s' : Kernel) (fl' : List Ppn) : Prop where
  space : Space iso L (s'.view s'.used s'.used) s'.phys fl'
  fresh : child ∉ s.used
  used : s'.used = insert child s.used
  same : ∀ j, j ≠ child → (s'.procs j).space = (s.procs j).space ∧
    (s'.procs j).totalMappedRegion = (s.procs j).totalMappedRegion
  leaf : ∀ j ∈ s.used, ∀ v, translate s'.phys.mem (s.procs j).space.root v =
    translate s.phys.mem (s.procs j).space.root v
  pages : ∀ k va, k < (s.procs c).totalMappedRegion →
    regionTarget s.phys.mem (s.procs c).space k = some va →
    ∃ w', translate s'.phys.mem (s'.procs child).space.root (vpn va) = some w' ∧
      w' &&& PTE_U ≠ 0 ∧
      ∀ w, translate s.phys.mem (s.procs c).space.root (vpn va) = some w → w &&& PTE_U ≠ 0 →
        s'.phys.mem (ptePpn w') = s.phys.mem (ptePpn w) ∧
          (CodeRegion s c k → ptePpn w' = ptePpn w)
  user : ∀ j ∈ s.used, ∀ v w, translate s.phys.mem (s.procs j).space.root v = some w →
    w &&& PTE_U ≠ 0 → s'.phys.mem (ptePpn w) = s.phys.mem (ptePpn w)
  born : Born c s s' child
  frames : ∀ v w, translate s'.phys.mem (s'.procs child).space.root v = some w →
    w &&& PTE_U ≠ 0 → FreshFrame s.used s fl (ptePpn w) ∨
      ∃ k va, k < (s.procs c).totalMappedRegion ∧ CodeRegion s c k ∧
        regionTarget s.phys.mem (s.procs c).space k = some va ∧ v = vpn va
  heap : s'.gUfreePage = s.gUfreePage
  length : fl.length ≤ fl'.length + 11 + 3 * (s.procs c).totalMappedRegion

/-- A table page is found after the trapframe of process `c` was written. -/
theorem FrameOnly.nodeAt {b : Kernel} (hf : FrameOnly c s b) (hc : c ∈ s.used)
    (hs : Space iso L (s.view s.used s.used) s.phys fl) {j : Pid} (hj : j ∈ s.used)
    {π : List Idx} (hπ : π.length ≤ 2) :
    Radix.nodeAt ptePage b.phys.mem (s.procs j).space.root π =
      Radix.nodeAt ptePage s.phys.mem (s.procs j).space.root π :=
  nodeAt_congr (View.root_mem (V := s.view s.used s.used) hj)
    (fun q hq => hf.mem q fun heq => (hs.own_apart c hc .trapframe).2.1 (heq ▸ hq)) π (by omega)

theorem FrameOnly.hasTable (hf : FrameOnly c s b) (hc : c ∈ s.used)
    (hs : Space iso L (s.view s.used s.used) s.phys fl) {j : Pid} (hj : j ∈ s.used) (v : Vpn) :
    HasTable b.phys.mem (s.procs j).space.root v ↔
      HasTable s.phys.mem (s.procs j).space.root v := by
  unfold HasTable
  rw [hf.nodeAt hc hs hj (vpath_length 2 v).le]

section Compose

variable (hs : Space iso L (s.view s.used s.used) s.phys fl) (hc : c ∈ s.used)
  (hf : FrameOnly c s b)

include hs hc hf

theorem FrameOnly.user {j : Pid} (hj : j ∈ s.used) {v : Vpn} {w : Word}
    (hw : translate s.phys.mem (s.procs j).space.root v = some w) (hU : w &&& PTE_U ≠ 0) :
    b.phys.mem (ptePpn w) = s.phys.mem (ptePpn w) :=
  hf.mem _ ((hs.user j hj v w hw hU).own c hc .trapframe)

theorem FrameOnly.tablePages : Pke.tablePages b.phys.mem (s.view s.used s.used).roots =
    Pke.tablePages s.phys.mem (s.view s.used s.used).roots :=
  nodes_congr fun q hq => hf.mem q fun heq => (hs.own_apart c hc .trapframe).2.1 (heq ▸ hq)

theorem FrameOnly.target {k : ℕ} (hk : k < (s.procs c).totalMappedRegion) :
    regionTarget b.phys.mem (b.procs c).space k = regionTarget s.phys.mem (s.procs c).space k := by
  rw [hf.procs]
  exact regionTarget_info hs hc (hf.info hc hs hc) hk

theorem FrameOnly.codeRegion {k : ℕ} (hk : k < (s.procs c).totalMappedRegion) :
    CodeRegion b c k ↔ CodeRegion s c k := by
  have hhi : (s.procs c).totalMappedRegion ≤ 256 := (hs.ready c hc).regions.hi
  rw [CodeRegion, CodeRegion, hf.procs, regionSeg, regionSecond_congr (a := (s.procs c).space)
    (hs.aligned c hc) (hf.info hc hs hc) (by omega), regionSeg]

/-- The registers of the parent are saved, `do_fork` runs, and its result is stored. -/
theorem ForkMade.step (hm : ForkMade iso L s.used c child b fl s₁ fl') (hf' : FrameOnly c s₁ s')
    (hchild : child ∉ s.used) (hused : s₁.used = insert child s.used) :
    ForkStep iso L c child s fl s' fl' := by
  have hne : ∀ j ∈ s.used, j ≠ child := by
    rintro j hj rfl
    exact hchild hj
  have hc₁ : c ∈ s₁.used := by
    rw [hused]
    exact Set.mem_insert_of_mem _ hc
  have hspace₁ : Space iso L (s₁.view s₁.used s₁.used) s₁.phys fl' := by
    rw [hused]
    exact hm.space
  have hroot : ∀ j, j ≠ child → (s₁.procs j).space = (s.procs j).space := fun j hj => by
    rw [(hm.same j hj).1, hf.procs]
  have hchild₁ : child ∈ s₁.used := by
    rw [hused]
    exact Set.mem_insert _ _
  have hleaf₁ : ∀ j ∈ s.used, ∀ v, translate s₁.phys.mem (s.procs j).space.root v =
      translate s.phys.mem (s.procs j).space.root v := fun j hj v => by
    have h1 := hm.leaf j hj v
    rw [hf.procs] at h1
    exact h1.trans (hf.translate_eq hc hs hj v)
  have hleaf' : ∀ j ∈ s₁.used, ∀ v, translate s'.phys.mem (s₁.procs j).space.root v =
      translate s₁.phys.mem (s₁.procs j).space.root v := fun j hj v =>
    hf'.translate_eq hc₁ hspace₁ hj v
  have hborn : Born c b s₁ child := ⟨hm.new, hm.targets⟩
  have hborn' := (hborn.later (hf'.moved (W := {c}) hc₁ hspace₁ (Or.inl rfl) hc₁ ∅) hchild₁
    (hne c hc).symm).earlier (hf.moved (W := {c}) hc hs (Or.inl rfl) hc ∅) hc
  refine ⟨hf'.space hc₁ hspace₁, hchild, by rw [hf'.used, hused], fun j hj => ?_,
    fun j hj v => ?_, fun k va hk hva => ?_, fun j hj v w hw hU => ?_, hborn', fun v w hw hU => ?_,
    ?_, ?_⟩
  · rw [hf'.procs, (hm.same j hj).1, (hm.same j hj).2, hf.procs]
    exact ⟨rfl, rfl⟩
  · have hj₁ : j ∈ s₁.used := by
      rw [hused]
      exact Set.mem_insert_of_mem _ hj
    have h1 := hleaf' j hj₁ v
    rw [hroot j (hne j hj)] at h1
    exact h1.trans (hleaf₁ j hj v)
  · have htotal : (b.procs c).totalMappedRegion = (s.procs c).totalMappedRegion := by rw [hf.procs]
    obtain ⟨w', hw', hU', hcontent⟩ := hm.pages k va (by rwa [htotal])
      ((hf.target hs hc hk).trans hva)
    refine ⟨w', ?_, hU', fun w hw hU => ?_⟩
    · rw [hf'.procs]
      exact (hleaf' child hchild₁ _).trans hw'
    · have hwb : translate b.phys.mem (b.procs c).space.root (vpn va) = some w := by
        rw [hf.procs]
        exact (hf.translate_eq hc hs hc _).trans hw
      obtain ⟨hmem, hshared⟩ := hcontent w hwb hU
      rw [hf'.user hspace₁ hc₁ hchild₁ hw' hU', hmem]
      exact ⟨hf.user hs hc hc hw hU, fun hcode =>
        hshared ((hf.codeRegion hs hc hk).mpr hcode)⟩
  · have hw₁ : translate s₁.phys.mem (s₁.procs j).space.root v = some w := by
      rw [hroot j (hne j hj)]
      exact (hleaf₁ j hj v).trans hw
    have hj₁ : j ∈ s₁.used := by
      rw [hused]
      exact Set.mem_insert_of_mem _ hj
    have hspare := hs.user j hj v w hw hU
    rw [hf'.user hspace₁ hc₁ hj₁ hw₁ hU, hm.frame _ hspare.free, hf.user hs hc hj hw hU]
    have hviewb : b.view s.used s.used = s.view s.used s.used := hf.view s.used
    rw [hviewb, hf.tablePages hs hc]
    exact hspare.table
  · rw [hf'.procs, hleaf' child hchild₁] at hw
    rcases hm.fresh v w hw hU with hfresh | ⟨k, va, hk, hcode, hva, hv⟩
    · rw [FreshFrame, hf.view, hf.tablePages hs hc] at hfresh
      exact Or.inl hfresh
    · rw [hf.procs] at hk
      exact Or.inr ⟨k, va, hk, (hf.codeRegion hs hc hk).mp hcode,
        (hf.target hs hc hk).symm.trans hva, hv⟩
  · exact hf'.heap.trans (hm.heap.trans hf.heap)
  · have hlen := hm.length
    rwa [hf.procs] at hlen

/-- Whether a process can be forked does not depend on its registers. -/
theorem Forkable.frameOnly (h : Forkable s c fl) : Forkable b c fl := by
  have htarget : ∀ {k}, k < (b.procs c).totalMappedRegion →
      regionTarget b.phys.mem (b.procs c).space k =
        regionTarget s.phys.mem (s.procs c).space k := fun {k} hk => by
    rw [hf.procs] at hk
    exact hf.target hs hc hk
  refine ⟨by rw [hf.procs]; exact h.slot, by rw [hf.procs]; exact h.pages, fun k hk va hva => ?_,
    fun i j hij hj va va' hva hva' => ?_⟩
  · rw [htarget hk] at hva
    rw [hf.procs] at hk ⊢
    obtain ⟨hlow, hsrc⟩ := h.regions k hk va hva
    refine ⟨hlow, ?_⟩
    unfold lookupAnswer absTable at hsrc ⊢
    have hleaf : translate b.phys.mem (s.procs c).space.root (vpn va) =
        translate s.phys.mem (s.procs c).space.root (vpn va) := hf.translate_eq hc hs hc _
    rwa [hleaf]
  · rw [htarget (hij.trans hj)] at hva
    rw [htarget hj] at hva'
    rw [hf.procs] at hj
    exact h.apart i j hij hj va va' hva hva'

end Compose

/-! ## Forking -/

/-- The child starts where the parent goes on, with 0 for its result. -/
theorem ForkMade.saved (hm : ForkMade iso L s.used c child b fl s₁ fl')
    (hepc : load64 b.phys.mem (tfEpc (b.procs c).trapframe) = epc) : Saved s₁ child epc 0 := by
  refine ⟨(hm.context 33 (by decide)).trans ?_, (hm.context Reg.a0.index (by decide)).trans ?_⟩
  · rw [if_neg (by decide)]
    exact hepc
  · exact if_pos rfl

/-- The state in which `do_fork` runs. -/
def inFork (t : TrapInput) (c : Pid) (s : Kernel) : Kernel :=
  { inSyscall t c s with
    console := (inSyscall t c s).console ++ [.text "User call fork.\n" []] }

theorem inFork_same (t : TrapInput) (c : Pid) (s : Kernel) :
    SchedSame { s with console := [] } (inFork t c s) :=
  IsTrans.trans (r := SchedSame) _ _ _ (inSyscall_same t c s)
    ⟨fun _ => rfl, rfl, rfl, by simp [inFork, dispatches]⟩

theorem MemInv.inFork_frameOnly (hm : MemInv iso L s) (hc : c ∈ s.used)
    (hscratch : s.csr .sscratch = (s.procs c).trapframe) (t : TrapInput) :
    FrameOnly c s (inFork t c s) := by
  have h := hm.inSyscall_frameOnly hc hscratch t
  exact ⟨h.mem, h.phys, h.kroot, h.heap, h.procs⟩

theorem wp_doSyscall_fork {R : Word → Kernel → Prop} {E : Kernel → Prop} {H : Halt → Prop}
    (a1 a2 : Word) (hcur : s.current = some c)
    (h : Prog.wp (doFork L c) R E H
      { s with console := s.console ++ [.text "User call fork.\n" []] }) :
    Prog.wp (doSyscall L SYS_user_fork a1 a2) R E H s := by
  rw [doSyscall, if_neg (by decide), if_neg (by decide), if_neg (by decide), if_neg (by decide),
    if_pos rfl, sysUserFork, sprint, Prog.wp_bind, Prog.wp_modify]
  exact wp_currentProc hcur h

/-- **A fork.** -/
theorem trap_forkStep (hm : MemInv iso L s) (hsched : SchedInv s c Q)
    (hs : Space iso L (s.view s.used s.used) s.phys fl) (hcode : iso → ¬ s.HasCode c)
    (ht : IsFork t) :
    Prog.wp (trap L t) (fun _ _ => False)
      (fun s' => ∃ child fl', firstFree s.procs = some child ∧
        ForkStep iso L c child s fl s' fl' ∧ Saved s' child (t.sepc + 4) 0)
      (fun _ => ¬ Forkable s c fl) s := by
  have hc : c ∈ s.used := ((hsched.live c).mp List.mem_cons_self).1
  have hframe := hm.inFork_frameOnly hc hsched.scratch t
  have hspace₁ := hframe.space hc hs
  rw [hframe.used] at hspace₁
  have hmade := doFork_made (L := L) hsched (inFork_same t c s) rfl hspace₁ fun hi hcd =>
    hcode hi ((hframe.hasCode hc hs).mp hcd)
  have hcall := wp_doSyscall_fork (s := inSyscall t c s) (t.regs .a1) (t.regs .a2)
    hsched.current hmade
  rw [← ht.2] at hcall
  -- The child is new, and the pages of all the processes are in order with it.
  have hborn : ∀ {child fl' s₁}, Forked s s₁ c child Q →
      ForkMade iso L s.used c child (inFork t c s) fl s₁ fl' → child ∉ s.used ∧
        s₁.used = insert child s.used ∧ Space iso L (s₁.view s₁.used s₁.used) s₁.phys fl' := by
    intro child fl' s₁ hforked hfm
    have hused : s₁.used = insert child s.used := by
      ext j
      by_cases hj : j = child
      · subst hj
        simp [Kernel.used, hforked.born.1]
      · simp [Kernel.used, hj, (hforked.role j hj).1]
    refine ⟨fun hu => hu (firstFree_status hforked.free), hused, ?_⟩
    rw [hused]
    exact hfm.space
  refine Prog.wp_mono (trap_call hsched (hm.canEnter hc) ht.1 hcall ?_) (fun _ _ h => h) ?_
    fun _ hn hfk => hn (hfk.frameOnly hs hc hframe)
  · rintro r s₁ ⟨child, fl', ⟨hforked, -⟩, hfm⟩
    obtain ⟨hchild, hused, hspace⟩ := hborn hforked hfm
    have hne : c ≠ child := by
      rintro rfl
      exact hchild hc
    have hc₁ : c ∈ s₁.used := by
      rw [hused]
      exact Set.mem_insert_of_mem _ hc
    exact ⟨hforked.current.trans hsched.current, hforked.frame c hne,
      absurd ((returned_frameOnly (hspace.aligned c hc₁) r).canReturn hc₁ hspace)⟩
  · rintro s' ⟨r, s₁, ⟨child, fl', ⟨hforked, -⟩, hfm⟩, rfl⟩
    obtain ⟨hchild, hused, hspace⟩ := hborn hforked hfm
    have hne : child ≠ c := by
      rintro rfl
      exact hchild hc
    have hc₁ : c ∈ s₁.used := by
      rw [hused]
      exact Set.mem_insert_of_mem _ hc
    have hchild₁ : child ∈ s₁.used := by
      rw [hused]
      exact Set.mem_insert _ _
    have hret : FrameOnly c s₁ (returned L c r s₁) := returned_frameOnly (hspace.aligned c hc₁) r
    exact ⟨child, fl', hforked.free, hfm.step hs hc hframe hret hchild hused,
      (hfm.saved (inSyscall_epc t c s)).kept (hret.moved (W := {c}) hc₁ hspace (Or.inl rfl) hc₁ ∅)
        hchild₁ hne⟩

/-! ## Releasing a page -/

/-- The page `v` of process `c` was unmapped and its frame `f` is the first free page;
    the entry still names it. -/
structure Freed (c : Pid) (v : Vpn) (f : Ppn) (s s' : Kernel) : Prop where
  procs : s'.procs = s.procs
  current : s'.current = some c
  free : ∃ fl, FreeList s.phys fl ∧ FreeList s'.phys (f :: fl)
  leaf : ∀ j ∈ s.used, ∀ v', translate s'.phys.mem (s.procs j).space.root v' =
    if (s.procs j).space.root = (s.procs c).space.root ∧ v' = v then none
    else translate s.phys.mem (s.procs j).space.root v'
  stale : ∃ q, nodeAt ptePage s'.phys.mem (s.procs c).space.root (vpath 2 v) = some q ∧
    ptePpn (s'.phys.mem q (px 0 v)) = f
  info : ∀ j ∈ s.used, s'.phys.mem ((s.procs j).space.own .info) =
    s.phys.mem ((s.procs j).space.own .info)

theorem Freed.head {f : Ppn} (h : Freed c v f s s') : s'.phys.gFreeMemList = addr f := by
  obtain ⟨fl, -, hfree⟩ := h.free
  exact hfree.1

/-- Without a page of user mode the process still gets there. -/
theorem Freed.canReturn {f : Ppn} (h : Freed c v f s s') (hc : c ∈ s.used)
    (hs : Space iso L (s.view s.used s.used) s.phys fl)
    (hw : translate s.phys.mem (s.procs c).space.root v = some w) (hU : w &&& PTE_U ≠ 0) :
    CanReturn L s' c := by
  have hready : Ready L s.phys.mem (s.procs c).space (s.procs c).totalMappedRegion :=
    hs.ready c hc
  have htf := hs.trapframe_toNat (V := s.view s.used s.used) hc
  have hts := hs.trapSec_toNat (V := s.view s.used s.used) hc
  -- The entries for the trap section and the trapframe are not for user mode.
  have hkept : ∀ {v' w'}, translate s.phys.mem (s.procs c).space.root v' = some w' →
      w' &&& PTE_U = 0 → translate s'.phys.mem (s.procs c).space.root v' = some w' := by
    intro v' w' hw' hU'
    rw [h.leaf c hc, if_neg]
    · exact hw'
    · rintro ⟨-, rfl⟩
      rw [hw] at hw'
      obtain rfl := Option.some.inj hw'
      exact hU hU'
  refine CanEnter.canReturn (canEnter_of_leaves ?_ ?_ ?_ ?_ ?_)
  all_goals try rw [h.procs]
  · exact hs.aligned c hc
  · exact htf.2.trans (by norm_num)
  · exact hts.2.trans (by norm_num)
  · exact hkept hready.trapframe (trapframe_leaf_kernel _)
  · exact hkept hready.trapSec (trapSec_leaf_kernel _)

/-- A call of `free_page` for a page of user mode, whose frame is no table and not free. -/
theorem trap_freePage (hm : MemInv iso L s) (hsched : SchedInv s c Q)
    (hs : Space iso L (s.view s.used s.used) s.phys fl) (ht : IsSyscall t SYS_user_free_page)
    (hw : translate s.phys.mem (s.procs c).space.root (vpn (t.regs .a1)) = some w)
    (hU : w &&& PTE_U ≠ 0)
    (htab : ptePpn w ∉ tablePages s.phys.mem (s.view s.used s.used).roots) (hfl : ptePpn w ∉ fl) :
    Prog.wp (trap L t) (fun _ _ => False)
      (fun s' => Managed s.phys (ptePpn w) ∧ Freed c (vpn (t.regs .a1)) (ptePpn w) s s')
      (fun _ => ¬ (t.regs .a1 < MAXVA ∧ t.regs .a1 % PGSIZE = 0 ∧ Managed s.phys (ptePpn w)))
      s := by
  have hc : c ∈ s.used := ((hsched.live c).mp List.mem_cons_self).1
  have hframe := hm.inSyscall_frameOnly hc hsched.scratch t
  have hspace := hframe.space hc hs
  have hman : Managed (inSyscall t c s).phys (ptePpn w) ↔ Managed s.phys (ptePpn w) := by
    unfold Managed
    rw [hframe.phys]
  have hcall : Prog.wp (doSyscall L (t.regs .a0) (t.regs .a1) (t.regs .a2))
      (fun r s' => r = 0 ∧ ∃ ph, s' = { inSyscall t c s with phys := ph } ∧
        UnmapOne (s.view s.used s.used).roots (s.procs c).space.root (vpn (t.regs .a1))
          (ptePpn w) (inSyscall t c s).phys fl ph) (fun _ => False)
      (fun _ => ¬ (t.regs .a1 < MAXVA ∧ t.regs .a1 % PGSIZE = 0 ∧ Managed s.phys (ptePpn w)))
      (inSyscall t c s) := by
    rw [ht.2, doSyscall, if_neg (by decide), if_neg (by decide), if_neg (by decide), if_pos rfl]
    refine Prog.wp_mono (sysUserFreePage_spec hspace hsched.current (by rw [hframe.used]; exact hc)
      ?_ ?_ hfl) ?_ (fun _ h => h) fun _ hn => ?_
    · rw [hframe.procs]
      exact (hframe.translate_eq hc hs hc _).trans hw
    · rw [hframe.used, hframe.view, hframe.tablePages hs hc]
      exact htab
    · rintro r s' ⟨hr, ph, hs', hunmap⟩
      rw [hframe.used, hframe.view, hframe.procs] at hunmap
      exact ⟨hr, ph, hs', hunmap⟩
    · rwa [hman] at hn
  have hfreed : ∀ {ph}, UnmapOne (s.view s.used s.used).roots (s.procs c).space.root
      (vpn (t.regs .a1)) (ptePpn w) (inSyscall t c s).phys fl ph →
      Freed c (vpn (t.regs .a1)) (ptePpn w) s
        (returned L c 0 { inSyscall t c s with phys := ph }) := by
    intro ph hunmap
    have hret := returned_frameOnly (L := L) (s := { inSyscall t c s with phys := ph }) (c := c)
      (hs.aligned c hc) 0
    have hpages : ∀ q ∈ tablePages ph.mem (s.view s.used s.used).roots,
        (returned L c 0 { inSyscall t c s with phys := ph }).phys.mem q = ph.mem q := by
      intro q hq
      refine hret.mem q fun heq => ?_
      rw [hunmap.pages, hframe.tablePages hs hc] at hq
      exact (hs.own_apart c hc .trapframe).2.1 (heq ▸ hq)
    have hroot : ∀ j ∈ s.used, (s.procs j).space.root ∈ (s.view s.used s.used).roots :=
      fun j hj => View.root_mem (V := s.view s.used s.used) hj
    obtain ⟨q, hq, hqf⟩ := hunmap.stale
    refine ⟨rfl, rfl, ⟨fl, hs.tables.free, hunmap.tables.free.frame rfl fun p hp => ?_⟩,
      fun j hj v' => ?_, ⟨q, ?_, ?_⟩, fun j hj => ?_⟩
    · refine hret.mem p ?_
      rintro rfl
      rcases List.mem_cons.mp hp with heq | hmem
      · exact (hs.user c hc _ w hw hU).own c hc .trapframe heq.symm
      · exact (hs.own_apart c hc .trapframe).1 hmem
    · rw [translate_congr hpages (hroot j hj), hunmap.leaf _ (hroot j hj)]
      exact if_congr Iff.rfl rfl (hframe.translate_eq hc hs hj v')
    · exact (nodeAt_congr (hroot c hc) hpages _ (by simp)).trans hq
    · rw [hpages q (mem_nodes (hroot c hc) (vpath_length 2 _).le hq), hqf]
    · obtain ⟨-, htab, -⟩ := hs.own_apart j hj .info
      have hkept := hret.mem ((s.procs j).space.own .info) (hs.own_ne hj hc (by decide))
      refine hkept.trans ((hunmap.frame _ ?_ ?_).trans (hframe.info hc hs hj))
      · rw [hframe.tablePages hs hc]
        exact htab
      · exact ((hs.user c hc _ w hw hU).own j hj .info).symm
  refine Prog.wp_mono (trap_call hsched (hm.canEnter hc) ht.1 hcall ?_) (fun _ _ h => h) ?_
    fun _ h => h
  · rintro r s₁ ⟨rfl, ph, rfl, hunmap⟩
    exact ⟨hsched.current, rfl, absurd ((hfreed hunmap).canReturn hc hs hw hU)⟩
  · rintro s' ⟨r, s₁, ⟨rfl, ph, rfl, hunmap⟩, rfl⟩
    exact ⟨hman.mp hunmap.managed, hfreed hunmap⟩

theorem trap_free (hm : MemInv iso L s) (hsched : SchedInv s c Q)
    (hs : Space iso L (s.view s.used s.used) s.phys fl) (ht : IsSyscall t SYS_user_free_page)
    (hw : translate s.phys.mem (s.procs c).space.root (vpn (t.regs .a1)) = some w)
    (hU : w &&& PTE_U ≠ 0)
    (htab : ptePpn w ∉ tablePages s.phys.mem (s.view s.used s.used).roots) (hfl : ptePpn w ∉ fl)
    (hmax : t.regs .a1 < MAXVA) (hal : t.regs .a1 % PGSIZE = 0) (hman : Managed s.phys (ptePpn w)) :
    ∃ s', trap L t s = .exit s' ∧ Freed c (vpn (t.regs .a1)) (ptePpn w) s s' := by
  obtain ⟨s', hexit, -, hfreed⟩ :=
    Prog.exits_of_wp (trap_freePage hm hsched hs ht hw hU htab hfl) fun _ hn =>
      hn ⟨hmax, hal, hman⟩
  exact ⟨s', hexit, hfreed⟩

/-! ## Mapping a page -/

/-- Process `c` got the page `v` for user mode, and `g_ufree_page` moved by `g`. -/
structure GrantStep (iso : Prop) (L : Layout) (c : Pid) (v : Vpn) (g : Word) (s : Kernel)
    (fl : List Ppn) (s' : Kernel) (fl' : List Ppn) : Prop where
  space : Space iso L (s'.view s'.used s'.used) s'.phys fl'
  procs : s'.procs = s.procs
  current : s'.current = some c
  unmapped : translate s.phys.mem (s.procs c).space.root v = none
  leaf : ∃ pa, PageTaken fl pa fl' ∧ ∀ j ∈ s.used, ∀ v',
    translate s'.phys.mem (s.procs j).space.root v' =
      if j = c ∧ v' = v then some (mkPte pa userDataPerm)
    else translate s.phys.mem (s.procs j).space.root v'
  page : ∀ p, fl.head? = some p → s'.phys.mem p = s.phys.mem p
  managed : ∀ p, Managed s.phys p → Managed s'.phys p
  info : ∀ j ∈ s.used, s'.phys.mem ((s.procs j).space.own .info) =
    s.phys.mem ((s.procs j).space.own .info)
  heap : s'.gUfreePage = s.gUfreePage + g
  length : fl.length ≤ fl'.length + 3

theorem GrantStep.canReturn (h : GrantStep iso L c v g s fl s' fl') (hc : c ∈ s.used) :
    CanReturn L s' c := by
  refine (h.space.canEnter ?_).canReturn
  unfold Kernel.used
  rw [h.procs]
  exact hc

/-- The handler runs between saving the registers of the process and going back to it. -/
theorem Granted.step {ph : Phys} {va : Word} (hg : Granted iso L c va b fl ph fl')
    (hs : Space iso L (s.view s.used s.used) s.phys fl) (hc : c ∈ s.used) (hf : FrameOnly c s b)
    (hs₁ : s₁.phys = ph ∧ s₁.procs = b.procs ∧ s₁.gKernelPagetable = b.gKernelPagetable ∧
      s₁.gUfreePage = b.gUfreePage + g)
    (hf' : FrameOnly c s₁ s') (hcur : s'.current = some c) :
    GrantStep iso L c (vpn va) g s fl s' fl' := by
  obtain ⟨rfl, hprocs, hkroot, hheap⟩ := hs₁
  have hused : s₁.used = s.used := by
    unfold Kernel.used
    rw [hprocs, hf.procs]
  have hview : s₁.view s.used s.used = b.view s.used s.used := by
    unfold Kernel.view
    rw [hprocs, hkroot]
  have hspace₁ : Space iso L (s₁.view s₁.used s₁.used) s₁.phys fl' := by
    have h1 := hg.space
    rw [hf.used] at h1
    rw [hused, hview]
    exact h1
  have hc₁ : c ∈ s₁.used := by
    rw [hused]
    exact hc
  have hprocs₁ : s₁.procs = s.procs := hprocs.trans hf.procs
  obtain ⟨pa, htaken, hleaf⟩ := hg.procLeaf (hf.space hc hs) (by rw [hf.used]; exact hc)
  rw [hf.used, hf.procs] at hleaf
  have hun := hg.unmapped
  rw [hf.procs] at hun
  refine ⟨hf'.space hc₁ hspace₁, hf'.procs.trans hprocs₁, hcur,
    (hf.translate_eq hc hs hc (vpn va)).symm.trans hun, ⟨pa, htaken, fun j hj v' => ?_⟩,
    fun p hp => ?_, fun p hp => ?_, fun j hj => ?_, ?_, hg.length⟩
  · have h1 := hf'.translate_eq hc₁ hspace₁ (j := j) (by rw [hused]; exact hj) v'
    rw [hprocs₁] at h1
    refine h1.trans ((hleaf j hj v').trans (if_congr Iff.rfl rfl ?_))
    exact hf.translate_eq hc hs hj v'
  · -- the new page is neither a table nor the trapframe
    have hp0 : ∃ p', pa = addr p' ∧ fl.head? = some p' := by
      rcases htaken with ⟨hnil, -, -⟩ | ⟨p', hpa, -, hp', -⟩
      · rw [hnil] at hp
        cases hp
      · exact ⟨p', hpa, hp'⟩
    obtain ⟨p', hpa, hp'⟩ := hp0
    obtain rfl : p = p' := Option.some.inj (hp.symm.trans hp')
    have hfl : p ∈ fl := List.mem_of_mem_head? hp
    have hleafc := (hleaf c hc (vpn va)).trans (if_pos ⟨rfl, rfl⟩)
    have hspare := hspace₁.user c hc₁ (vpn va) _ (by
      show translate s₁.phys.mem (s₁.procs c).space.root (vpn va) = _
      rw [hprocs₁]
      exact hleafc) (userData_leaf_user _)
    rw [ptePpn_mkPte _ (by decide), hpa, ppn_addr] at hspare
    have hown := (hs.own_apart c hc .trapframe).1
    rw [hf'.mem p (hspare.own c hc₁ .trapframe),
      hg.frame p (by rw [hf.used, ← hview, ← hused]; exact hspare.table),
      hf.mem p fun heq => hown (heq ▸ hfl)]
  · unfold Managed
    rw [hf'.phys]
    refine hg.managed p ?_
    unfold Managed
    rw [hf.phys]
    exact hp
  · have h1 := hf'.info hc₁ hspace₁ (j := j) (by rw [hused]; exact hj)
    have h2 := hg.own j (by rw [hf.used]; exact hj) .info
    rw [hprocs₁] at h1
    rw [hf.procs] at h2
    exact h1.trans (h2.trans (hf.info hc hs hj))
  · rw [hf'.heap, hheap, hf.heap]

/-- A call of `allocate_page`. -/
theorem trap_allocate (hm : MemInv iso L s) (hsched : SchedInv s c Q)
    (hs : Space iso L (s.view s.used s.used) s.phys fl) (ht : IsSyscall t SYS_user_allocate_page)
    (hfree : iso → s.phys.gFreeMemList ≠ 0) :
    Prog.wp (trap L t) (fun _ _ => False)
      (fun s' => ∃ fl', GrantStep iso L c (vpn s.gUfreePage) PGSIZE s fl s' fl')
      (fun e => ¬ (s.gUfreePage < MAXVA ∧
          translate s.phys.mem (s.procs c).space.root (vpn s.gUfreePage) = none ∧
          (3 ≤ fl.length ∨ HasTable s.phys.mem (s.procs c).space.root (vpn s.gUfreePage))) ∧
        (s.gUfreePage < MAXVA →
          translate s.phys.mem (s.procs c).space.root (vpn s.gUfreePage) = none →
          e = .panic "fail to user_vm_map .\n" [])) s := by
  have hc : c ∈ s.used := ((hsched.live c).mp List.mem_cons_self).1
  have hframe := hm.inSyscall_frameOnly hc hsched.scratch t
  have hspec := sysUserAllocatePage_spec (c := c) (hframe.space hc hs) hsched.current
    (by rw [hframe.used]; exact hc) (by rw [hframe.heap]; exact hm.heap)
    (by rw [hframe.phys]; exact hfree)
  have hleaf : translate (inSyscall t c s).phys.mem ((inSyscall t c s).procs c).space.root
      (vpn (inSyscall t c s).gUfreePage) =
      translate s.phys.mem (s.procs c).space.root (vpn s.gUfreePage) :=
    hframe.translate_eq hc hs hc _
  have htab : HasTable (inSyscall t c s).phys.mem ((inSyscall t c s).procs c).space.root
      (vpn (inSyscall t c s).gUfreePage) ↔
      HasTable s.phys.mem (s.procs c).space.root (vpn s.gUfreePage) := hframe.hasTable hc hs hc _
  rw [hleaf, hframe.heap] at hspec
  rw [hframe.heap] at htab
  simp only [htab] at hspec
  have hcall : doSyscall L (t.regs .a0) (t.regs .a1) (t.regs .a2) = sysUserAllocatePage := by
    rw [ht.2, doSyscall, if_neg (by decide), if_neg (by decide), if_pos rfl]
  rw [← hcall] at hspec
  have hstep : ∀ {r ph fl'}, Granted iso L c s.gUfreePage (inSyscall t c s) fl ph fl' →
      GrantStep iso L c (vpn s.gUfreePage) PGSIZE s fl (returned L c r { inSyscall t c s with
        phys := ph, gUfreePage := s.gUfreePage + PGSIZE }) fl' := by
    intro r ph fl' hgranted
    have hret := returned_frameOnly (L := L) (c := c) (s := { inSyscall t c s with
      phys := ph, gUfreePage := s.gUfreePage + PGSIZE }) (hs.aligned c hc) r
    refine hgranted.step hs hc hframe ?_ hret rfl
    exact ⟨rfl, rfl, rfl, rfl⟩
  refine Prog.wp_mono (trap_call hsched (hm.canEnter hc) ht.1 hspec ?_) (fun _ _ h => h) ?_
    fun _ h => h
  · rintro r s₁ ⟨-, ph, fl', hgranted, rfl⟩
    exact ⟨hsched.current, rfl, absurd ((hstep hgranted).canReturn hc)⟩
  · rintro s' ⟨r, s₁, ⟨-, ph, fl', hgranted, rfl⟩, rfl⟩
    exact ⟨fl', hstep hgranted⟩

/-- A store page fault used up the free pages, for tables at most; no entry of a process
    changed. -/
structure DryStep (iso : Prop) (L : Layout) (c : Pid) (s s' : Kernel) : Prop where
  space : Space iso L (s'.view s'.used s'.used) s'.phys []
  procs : s'.procs = s.procs
  current : s'.current = some c
  leaf : ∀ j ∈ s.used, ∀ v, translate s'.phys.mem (s.procs j).space.root v =
    translate s.phys.mem (s.procs j).space.root v
  heap : s'.gUfreePage = s.gUfreePage

/-- A store page fault. -/
theorem trap_storeFault (hm : MemInv iso L s) (hsched : SchedInv s c Q)
    (hs : Space iso L (s.view s.used s.used) s.phys fl) (ht : t.scause = CAUSE_STORE_PAGE_FAULT)
    (hfree : iso → s.phys.gFreeMemList ≠ 0) :
    Prog.wp (trap L t) (fun _ _ => False)
      (fun s' => (∃ fl', GrantStep iso L c (vpn t.stval) 0 s fl s' fl') ∨
        fl.length < 3 ∧ DryStep iso L c s s')
      (fun _ => ¬ (t.stval < MAXVA ∧
        translate s.phys.mem (s.procs c).space.root (vpn t.stval) = none)) s := by
  have hc : c ∈ s.used := ((hsched.live c).mp List.mem_cons_self).1
  have hframe := hm.entered_frameOnly hc hsched.scratch t
  have hstval : (entered t c s).csr .stval = t.stval := by
    rw [show (entered t c s).csr = (enterTrap t s).csr from rfl,
      enterTrap_csr t s (by decide) (by decide)]
    simp
  have hspec := handleUserPageFault_spec (c := c) (hframe.space hc hs) hsched.current
    (by rw [hframe.used]; exact hc) (by rw [hframe.phys]; exact hfree)
    ((entered t c s).csr .sepc) t.stval
  have hleaf : translate (entered t c s).phys.mem ((entered t c s).procs c).space.root
      (vpn t.stval) = translate s.phys.mem (s.procs c).space.root (vpn t.stval) :=
    hframe.translate_eq hc hs hc _
  rw [hleaf] at hspec
  unfold Prog.wp
  rw [trap_eq hsched.current (hm.canEnter hc), ht, dispatchTrap, if_neg (by decide),
    if_neg (by decide), if_pos (Or.inl rfl)]
  refine Prog.wp_bind.mpr ?_
  rw [readCsr, Prog.wp_bind, Prog.wp_gets, readCsr, Prog.wp_bind, Prog.wp_gets, hstval]
  refine Prog.wp_mono hspec ?_ (fun _ h => h.elim) fun _ h => h
  rintro - s₁ ⟨ph, fl', console, rfl, hcases⟩
  have hret := afterSwitch_frameOnly (L := L) (c := c) (s := { entered t c s with
    phys := ph, console := console }) (hs.aligned c hc)
  have hresume := resume_eq (L := L) (s := { entered t c s with phys := ph, console := console })
    hsched.current
  rcases hcases with hgranted | ⟨hshort, hspace, -, rfl, -, -, hsame⟩
  · have hstep : GrantStep iso L c (vpn t.stval) 0 s fl (afterSwitch L c { entered t c s with
        phys := ph, console := console }) fl' := by
      refine hgranted.step hs hc hframe ?_ hret rfl
      exact ⟨rfl, rfl, rfl, by simp⟩
    exact wp_of_returning hresume (Or.inl ⟨fl', hstep⟩) fun hn => absurd (hstep.canReturn hc) hn
  · refine wp_of_returning hresume ?_ fun hn => absurd (hret.canReturn hc hspace) hn
    refine Or.inr ⟨hshort, hret.space hc hspace, rfl, rfl, fun j hj v => ?_, rfl⟩
    have h1 := hret.translate_eq hc hspace hj v
    have h2 := hsame _ (View.root_mem (V := (entered t c s).view _ _) hj) v
    exact h1.trans (h2.trans (hframe.translate_eq hc hs hj v))

/-- A process that can be forked still can as long as it keeps its regions and their
    pages. -/
theorem Forkable.kept (h : Forkable s c fl) (hc : c ∈ s.used)
    (hs : Space iso L (s.view s.used s.used) s.phys fl) (hprocs : s'.procs = s.procs)
    (hinfo : s'.phys.mem ((s.procs c).space.own .info) = s.phys.mem ((s.procs c).space.own .info))
    (hleaf : ∀ k < (s.procs c).totalMappedRegion, ∀ va,
      regionTarget s.phys.mem (s.procs c).space k = some va →
      translate s.phys.mem (s.procs c).space.root (vpn va) ≠ none →
      translate s'.phys.mem (s.procs c).space.root (vpn va) =
        translate s.phys.mem (s.procs c).space.root (vpn va))
    (hlen : 11 + 3 * (s.procs c).totalMappedRegion ≤ fl'.length) : Forkable s' c fl' := by
  have htarget : ∀ {k}, k < (s.procs c).totalMappedRegion →
      regionTarget s'.phys.mem (s.procs c).space k =
        regionTarget s.phys.mem (s.procs c).space k := fun {k} hk =>
    regionTarget_info hs hc hinfo hk
  refine ⟨by rw [hprocs]; exact h.slot, by rw [hprocs]; exact hlen, fun k hk va hva => ?_,
    fun i j hij hj va va' hva hva' => ?_⟩
  · rw [hprocs] at hk hva ⊢
    rw [htarget hk] at hva
    obtain ⟨hlow, hsrc⟩ := h.regions k hk va hva
    refine ⟨hlow, ?_⟩
    unfold lookupAnswer absTable at hsrc ⊢
    rw [hleaf k hk va hva fun hnone => by
      rw [hnone] at hsrc
      simp at hsrc]
    exact hsrc
  · rw [hprocs] at hj hva hva'
    rw [htarget (hij.trans hj)] at hva
    rw [htarget hj] at hva'
    exact h.apart i j hij hj va va' hva hva'

theorem GrantStep.forkable (hg : GrantStep iso L c v g s fl s' fl') (hc : c ∈ s.used)
    (hs : Space iso L (s.view s.used s.used) s.phys fl) (h : Forkable s c fl)
    (hlen : 11 + 3 * (s.procs c).totalMappedRegion ≤ fl'.length) : Forkable s' c fl' := by
  obtain ⟨pa, -, hleaf⟩ := hg.leaf
  refine h.kept hc hs hg.procs (hg.info c hc) (fun k _ va _ hsome => ?_) hlen
  rw [hleaf c hc, if_neg]
  rintro ⟨-, rfl⟩
  exact hsome hg.unmapped

theorem Freed.forkable {f : Ppn} (hf : Freed c v f s s') (hc : c ∈ s.used)
    (hs : Space iso L (s.view s.used s.used) s.phys fl) (h : Forkable s c fl)
    (hv : ∀ k < (s.procs c).totalMappedRegion, ∀ va,
      regionTarget s.phys.mem (s.procs c).space k = some va → vpn va ≠ v)
    (hlen : 11 + 3 * (s.procs c).totalMappedRegion ≤ fl'.length) : Forkable s' c fl' := by
  refine h.kept hc hs hf.procs (hf.info c hc) (fun k hk va hva _ => ?_) hlen
  rw [hf.leaf c hc, if_neg fun heq => hv k hk va hva heq.2]

end Pke
