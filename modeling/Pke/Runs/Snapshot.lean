import Pke.Runs.Memory

/-!
# What a fork copies

`do_fork` (`kernel/process.c` lines 172–228) copies the regions that `mapped_info`
records, while `allocate_page` and page faults map pages without recording them.
A fork therefore gives the child the memory of the parent exactly when every page
of the parent is one of its recorded regions.
-/

namespace Pke

open Lib Radix

variable {iso : Prop} {L : Layout} {h : Host} {s s' : Kernel} {c child : Pid} {t : TrapInput}
  {fl fl' : List Ppn}

/-- What process `p` finds at an address, process `q` finds there too. -/
def Snapshot (s : Kernel) (p q : Pid) : Prop :=
  ∀ va pa, userTranslate s.phys.mem (s.procs p).pagetable va 0 = some pa →
    ∃ pa', userTranslate s.phys.mem (s.procs q).pagetable va 0 = some pa' ∧
      load8 s.phys.mem pa' = load8 s.phys.mem pa

/-- Every page of user mode of the process is at the address of one of its regions. -/
def Recorded (s : Kernel) (p : Pid) : Prop :=
  ∀ v w, translate s.phys.mem (ppn (s.procs p).pagetable) v = some w → w &&& PTE_U ≠ 0 →
    ∃ k va, k < (s.procs p).totalMappedRegion ∧
      regionTarget s.phys.mem (s.procs p).space k = some va ∧ v = vpn va

/-! ## Addresses -/

/-- The first address of a page. -/
def pageAddr (v : Vpn) : Word := (v ++ 0#12 : BitVec 39).signExtend 64

theorem canonical_pageAddr (v : Vpn) : canonical (pageAddr v) := by
  unfold canonical pageAddr
  congr 1
  apply BitVec.eq_of_getLsbD_eq
  intro i hi
  simp only [BitVec.getLsbD_setWidth, BitVec.getLsbD_signExtend, hi, decide_true, Bool.true_and]
  simp [hi, show i < 64 by omega]

theorem vpn_pageAddr (v : Vpn) : vpn (pageAddr v) = v := by
  unfold vpn pageAddr
  apply BitVec.eq_of_getLsbD_eq
  intro i hi
  rw [BitVec.getLsbD_extractLsb', BitVec.getLsbD_signExtend, BitVec.getLsbD_append]
  simp [hi, show 12 + i < 39 by omega, show 12 + i < 64 by omega]

theorem PTE_U_bit (i : ℕ) : PTE_U.getLsbD i = decide (i = 4) := by
  rw [show PTE_U = BitVec.twoPow 64 4 from rfl, BitVec.getLsbD_twoPow]
  simp [eq_comm]

theorem and_PTE_U {w : Word} (hU : w &&& PTE_U ≠ 0) : w &&& (PTE_U ||| 0) = PTE_U ||| 0 := by
  rw [show PTE_U ||| 0 = PTE_U from by decide]
  have h4 : w.getLsbD 4 = true := by
    by_contra h4
    refine hU (BitVec.eq_of_getLsbD_eq fun i hi => ?_)
    by_cases hi4 : i = 4
    · subst hi4
      rw [BitVec.getLsbD_and, Bool.eq_false_iff.mpr h4]
      simp
    · simp [PTE_U_bit, hi4]
  refine BitVec.eq_of_getLsbD_eq fun i hi => ?_
  by_cases hi4 : i = 4
  · subst hi4
    rw [BitVec.getLsbD_and, h4, Bool.true_and]
  · simp [PTE_U_bit, hi4]

/-- The same contents at the same offset. -/
theorem load8_congr {m m' : Mem} {f f' : Ppn} (hf : m' f' = m f) (va : Word) :
    load8 m' (addr f' + (va &&& 0xFFF#64)) = load8 m (addr f + (va &&& 0xFFF#64)) := by
  have ho := offset_lt va
  have hbyte : (addr f' + (va &&& 0xFFF#64)).toNat % 8 =
      (addr f + (va &&& 0xFFF#64)).toNat % 8 := by
    rw [addr_add_toNat _ ho, addr_add_toNat _ ho]
    omega
  unfold load8 load64
  rw [ppn_addr_add _ ho, ppn_addr_add _ ho, idx_addr_add _ ho, idx_addr_add _ ho, hf, hbyte]

theorem userTranslate_of_leaf {m : Mem} {pt va w : Word} (hcan : canonical va)
    (hw : translate m (ppn pt) (vpn va) = some w) (hU : w &&& PTE_U ≠ 0) :
    userTranslate m pt va 0 = some (addr (ptePpn w) + (va &&& 0xFFF#64)) := by
  rw [userTranslate, if_pos hcan, hw, Option.bind_some, if_pos (and_PTE_U hU), PTE2PA_eq]

/-! ## The law -/

section Law

variable (hf : ForkStep iso L c child s fl s' fl') (hc : c ∈ s.used)

include hf hc

theorem ForkStep.parent_leaf (v : Vpn) : translate s'.phys.mem (ppn (s'.procs c).pagetable) v =
    translate s.phys.mem (s.procs c).space.root v := by
  have hne : c ≠ child := by
    rintro rfl
    exact hf.fresh hc
  have hleaf := hf.leaf c hc v
  rw [← (hf.same c hne).1] at hleaf
  rw [← (hf.same c hne).1]
  exact hleaf

theorem ForkStep.recorded (hsnap : Snapshot s' c child) : Recorded s c := by
  intro v w hw hU
  have hw' : translate s'.phys.mem (ppn (s'.procs c).pagetable) (vpn (pageAddr v)) = some w := by
    rw [vpn_pageAddr, hf.parent_leaf hc]
    exact hw
  obtain ⟨pa', hpa', -⟩ := hsnap (pageAddr v) _
    (userTranslate_of_leaf (canonical_pageAddr v) hw' hU)
  obtain ⟨w', -, hw', hU', -⟩ := userTranslate_eq_some hpa'
  rw [vpn_pageAddr] at hw'
  exact hf.born.pages v w' hw' hU'

theorem ForkStep.snapshot (hrec : Recorded s c) : Snapshot s' c child := by
  intro va pa hpa
  obtain ⟨w, hcan, hw, hU, rfl⟩ := userTranslate_eq_some hpa
  rw [hf.parent_leaf hc] at hw
  obtain ⟨k, va₀, hk, htarget, hva⟩ := hrec (vpn va) w hw hU
  obtain ⟨w', hw', hU', hcontent⟩ := hf.pages k va₀ hk htarget
  rw [← hva] at hw' hcontent
  refine ⟨_, userTranslate_of_leaf hcan hw' hU', load8_congr ?_ va⟩
  rw [(hcontent w hw hU).1, hf.user c hc (vpn va) w hw hU]

end Law

/-- **A fork gives the child the memory of the parent** exactly when every page of the
    parent is recorded. -/
theorem fork_snapshot_iff (hload : h.LoadsOk Set.univ) (hs : Reach L h (StepOk False) s)
    (hcur : s.current = some c) (ht : IsFork t) (hexit : trap L t s = .exit s') :
    ∃ child, firstFree s.procs = some child ∧ (Snapshot s' c child ↔ Recorded s c) := by
  obtain ⟨hm, i, Q, hsched⟩ := hs.mem hload
  obtain rfl : i = c := Option.some.inj (hsched.current.symm.trans hcur)
  have hc : i ∈ s.used := ((hsched.live i).mp List.mem_cons_self).1
  obtain ⟨fl, hspace⟩ := hm.space
  obtain ⟨child, fl', hfree, hstep, -⟩ := Prog.wp_exit
    (trap_forkStep hm hsched hspace (fun hf => hf.elim) ht) hexit
  exact ⟨child, hfree, hstep.recorded hc, hstep.snapshot hc⟩

/-- The pages of the first process are recorded. -/
theorem SingleBoot.recorded {hd : ElfProgHeader} {seg : SegType}
    (hb : SingleBoot iso L h hd seg s) (hlow : hd.vaddr < KERN_BASE)
    (hseg : seg = .CODE ∨ seg = .DATA) : Recorded s 0 := by
  obtain ⟨us, p, -, -, -, hleaf⟩ := hb.leaf
  intro v w hw hU
  rw [show translate _ (ppn (s.procs 0).pagetable) v = _ from hleaf v] at hw
  split_ifs at hw with hv
  · exact ⟨3, hd.vaddr, by rw [hb.total]; omega, hb.targets hlow hseg (by omega), hv⟩
  · rw [initialLeaf] at hw
    split_ifs at hw with h1 h2 h3
    · obtain rfl := Option.some.inj hw
      exact absurd (trapSec_leaf_kernel _) hU
    · obtain rfl := Option.some.inj hw
      exact absurd (trapframe_leaf_kernel _) hU
    · exact ⟨0, USER_STACK_TOP - PGSIZE, by rw [hb.total]; omega,
        hb.targets hlow hseg (by omega), h3⟩

theorem fork_snapshot_sample : ∃ s s' child,
    Reach sampleLayout (sampleHost 5 8) (StepOk False) s ∧
      trap sampleLayout (call SYS_user_fork 0) s = .exit s' ∧ Snapshot s' 0 child := by
  obtain ⟨s, hboot, hb⟩ := sampleBoot
  obtain ⟨s', -, -, hexit, -⟩ := sampleFork hb
  obtain ⟨child, -, hiff⟩ := fork_snapshot_iff sampleHost_loads (.boot hboot)
    hb.booted.sched.current ⟨rfl, rfl⟩ hexit
  exact ⟨s, s', child, .boot hboot, hexit, hiff.mpr (hb.recorded (by decide) (Or.inl rfl))⟩

/-- The first process gets a page of heap and forks; the child has no such page. -/
theorem heap_not_copied : ∃ s s' child, Reachable sampleLayout (sampleHost 5 8) s ∧
    firstFree s.procs = some child ∧ trap sampleLayout (call SYS_user_fork 0) s = .exit s' ∧
      ¬ Snapshot s' 0 child := by
  obtain ⟨s, hboot, hb⟩ := sampleBoot
  have h0 := hb.mem_used
  obtain ⟨s₁, fl, fl₁, hexit₁, hs, hlen, hgrant⟩ := sampleGrant hb
  have hstep : Step sampleLayout s (.trap (call SYS_user_allocate_page 0)) s₁ := .trap hexit₁
  have hsched₁ := hb.booted.sched.kept hstep hgrant.procs hgrant.current
  have hused₁ : s₁.used = s.used := by
    unfold Kernel.used
    rw [hgrant.procs]
  have hm₁ : MemInv False sampleLayout s₁ :=
    ⟨⟨fl₁, hgrant.space⟩, by rw [hgrant.heap, hb.heap]; decide⟩
  have hlen₁ := hgrant.length
  have hforkable := hgrant.forkable h0 hs
    (hb.forkable (by decide) (by decide) (Or.inl rfl) hs (by omega)) (by rw [hb.total]; omega)
  obtain ⟨s', hexit, child, fl', hfree, hfork, -⟩ := Prog.exits_of_wp
    (trap_forkStep (t := call SYS_user_fork 0) hm₁ hsched₁ hgrant.space (fun hf => hf.elim)
      ⟨rfl, rfl⟩) fun _ hn => hn hforkable
  refine ⟨s₁, s', child, (Reach.boot hboot).step trivial hstep, hfree, hexit, fun hsnap => ?_⟩
  -- the page of heap would have to be the stack or the segment
  obtain ⟨pa, -, hleaf⟩ := hgrant.leaf
  have hw : translate s₁.phys.mem (ppn (s₁.procs 0).pagetable) (vpn USER_FREE_ADDRESS_START) =
      some (mkPte pa userDataPerm) := by
    rw [hgrant.procs]
    exact (hleaf 0 h0 _).trans (if_pos ⟨rfl, rfl⟩)
  obtain ⟨k, va, hk, htarget, hva⟩ := hfork.recorded (by rw [hused₁]; exact h0) hsnap _ _ hw
    (userData_leaf_user _)
  rw [hgrant.procs, hb.total] at hk
  rw [hgrant.procs, regionTarget_info hs h0 (hgrant.info 0 h0) (by rw [hb.total]; exact hk),
    hb.targets (by decide) (Or.inl rfl) hk] at htarget
  split_ifs at htarget
  · obtain rfl := Option.some.inj htarget
    exact absurd hva (by decide)
  · obtain rfl := Option.some.inj htarget
    exact absurd hva (by decide)

end Pke
