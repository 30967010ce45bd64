import Pke.Space.Invariant
import Pke.Sched.Traps

/-!
# What `do_fork` leaves behind

The memory of the new process in terms of the state in which `do_fork` was
called: its pages are those the regions of the parent name, with the contents
they have there, and its trapframe is that of the parent but for the result.
Nothing of the other processes has changed.
-/

namespace Pke

open Lib Radix

variable {iso : Prop} {L : Layout} {P : Set Pid} {fl fl₂ fl' : List Ppn} {c child : Pid} {us : Ppn}
  {s s₁ s₂ s₃ s' : Kernel} {Q : List Pid} {n : ℕ}

/-- The memory when `do_fork` returns to `s'`, called by process `c` in `s`. -/
structure ForkMade (iso : Prop) (L : Layout) (P : Set Pid) (c child : Pid) (s : Kernel)
    (fl : List Ppn) (s' : Kernel) (fl' : List Ppn) : Prop where
  space : Space iso L (s'.view (insert child P) (insert child P)) s'.phys fl'
  same : ∀ j, j ≠ child → (s'.procs j).space = (s.procs j).space ∧
    (s'.procs j).totalMappedRegion = (s.procs j).totalMappedRegion
  leaf : ∀ j ∈ P, ∀ v, translate s'.phys.mem (s.procs j).space.root v =
    translate s.phys.mem (s.procs j).space.root v
  pages : ∀ k va, k < (s.procs c).totalMappedRegion →
    regionTarget s.phys.mem (s.procs c).space k = some va →
    ∃ w', translate s'.phys.mem (s'.procs child).space.root (vpn va) = some w' ∧
      w' &&& PTE_U ≠ 0 ∧
      ∀ w, translate s.phys.mem (s.procs c).space.root (vpn va) = some w → w &&& PTE_U ≠ 0 →
        s'.phys.mem (ptePpn w') = s.phys.mem (ptePpn w) ∧
          (CodeRegion s c k → ptePpn w' = ptePpn w)
  new : ∀ v w, translate s'.phys.mem (s'.procs child).space.root v = some w → w &&& PTE_U ≠ 0 →
    ∃ k va, k < (s.procs c).totalMappedRegion ∧
      regionTarget s.phys.mem (s.procs c).space k = some va ∧ v = vpn va
  fresh : ∀ v w, translate s'.phys.mem (s'.procs child).space.root v = some w → w &&& PTE_U ≠ 0 →
    FreshFrame P s fl (ptePpn w) ∨ ∃ k va, k < (s.procs c).totalMappedRegion ∧ CodeRegion s c k ∧
      regionTarget s.phys.mem (s.procs c).space k = some va ∧ v = vpn va
  frame : ∀ q, q ∉ fl → q ∉ tablePages s.phys.mem (s.view P P).roots →
    s'.phys.mem q = s.phys.mem q
  context : ∀ k < sizeofTrapframe / 8,
    load64 s'.phys.mem ((s'.procs child).trapframe + BitVec.ofNat 64 (8 * k)) =
      if k = Reg.a0.index then 0
      else load64 s.phys.mem ((s.procs c).trapframe + BitVec.ofNat 64 (8 * k))
  targets : ∀ j va, j < (s'.procs child).totalMappedRegion →
    regionTarget s'.phys.mem (s'.procs child).space j = some va →
    ∃ k < (s.procs c).totalMappedRegion, regionTarget s.phys.mem (s.procs c).space k = some va
  heap : s'.gUfreePage = s.gUfreePage
  length : fl.length ≤ fl'.length + 11 + 3 * (s.procs c).totalMappedRegion

/-- The pages of another process are as before. -/
theorem Created.seg {i : Pid}
    (hcr : Created iso L P s fl i us s' fl') (h : Space iso L (s.view P P) s.phys fl) (hc : c ∈ P)
    (hne : c ≠ i) {k : ℕ} (hk : k < 256) : regionSeg s'.phys.mem (s'.procs c).space k =
      regionSeg s.phys.mem (s.procs c).space k := by
  obtain ⟨hfl, htab, -⟩ := h.own_apart c hc .info
  rw [hcr.procs_eq hne, regionSeg, regionSecond_congr (a := (s.procs c).space) (h.aligned c hc)
    (hcr.frame _ hfl htab) hk, regionSeg]

theorem Created.hasCode {i : Pid}
    (hcr : Created iso L P s fl i us s' fl') (h : Space iso L (s.view P P) s.phys fl) (hi : i ∉ P)
    (hc : c ∈ P) : s'.HasCode c ↔ s.HasCode c := by
  have hne : c ≠ i := by
    rintro rfl
    exact hi hc
  have hhi : (s.procs c).totalMappedRegion ≤ 256 := (h.ready c hc).regions.hi
  have htotal : (s'.procs c).totalMappedRegion = (s.procs c).totalMappedRegion := by
    rw [hcr.procs_eq hne]
  unfold Kernel.HasCode
  rw [htotal]
  refine exists_congr fun k => and_congr_right fun hk => ?_
  rw [hcr.seg h hc hne (by omega)]

/-- The stack of a new process is a page that was free. -/
theorem Created.ownStack {i : Pid}
    (hcr : Created iso L P s fl i us s' fl') (h : Space iso L (s.view P P) s.phys fl) (hi : i ∉ P)
    (hc : c ∈ P) : OwnStack c i s' := by
  have hproc : s'.procs c = s.procs c := hcr.procs_eq (by rintro rfl; exact hi hc)
  obtain ⟨tf, pt, ks, mi, new, hfl, -⟩ := hcr.popped
  have hus : us ∈ fl := by
    rw [hfl]
    simp
  intro w' hw' v w hw hU heq
  rw [hproc, hcr.other c hc] at hw
  rw [hcr.stack_leaf] at hw'
  obtain rfl := Option.some.inj hw'
  rw [ptePpn_mkPte _ (by decide), ppn_addr] at heq
  exact h.leaf_not_free hc hw (heq ▸ hus)

section Compose

variable (hcr : Created iso L P s fl child us s₂ fl₂)

include hcr

/-- A page that was neither free nor a table is neither after `alloc_process`. -/
theorem Created.apart {q : Ppn} (hfl : q ∉ fl)
    (htab : q ∉ tablePages s.phys.mem (s.view P P).roots) :
    q ∉ fl₂ ∧ q ∉ tablePages s₂.phys.mem (s₂.view (insert child P) (insert child P)).roots := by
  obtain ⟨tf, pt, ks, mi, new, hlist, hpages⟩ := hcr.popped
  refine ⟨fun hq => hfl ?_, fun hq => ?_⟩
  · rw [hlist]
    simp [hq]
  · rw [hpages] at hq
    rcases hq with (rfl | hq) | hq
    · exact hfl (by rw [hlist]; simp)
    · exact htab hq
    · exact hfl (by rw [hlist]; simp [show q ∈ new from hq])

/-- A page that was not free is none of those the loop writes in the child. -/
theorem Created.not_target {q : Ppn} (hfl : q ∉ fl) (k : ℕ) : ¬ ForkTarget child k s₂ q := by
  obtain ⟨tf, pt, ks, mi, new, hlist, -⟩ := hcr.popped
  rintro (⟨-, w, hw, rfl⟩ | ⟨-, rfl⟩)
  · rw [hcr.stack_leaf] at hw
    obtain rfl := Option.some.inj hw
    rw [ptePpn_mkPte _ (by decide), ppn_addr] at hfl
    exact hfl (by rw [hlist]; simp)
  · exact hfl (hcr.own .trapframe)

/-- What is kept by `alloc_process` and by the loop. -/
theorem ForkedRegions.frame_created
    (hr : ForkedRegions iso L (insert child P) c child 0 n s₂ fl₂ s₃ fl') {q : Ppn} (hfl : q ∉ fl)
    (htab : q ∉ tablePages s.phys.mem (s.view P P).roots) : s₃.phys.mem q = s.phys.mem q := by
  obtain ⟨hfl₂, htab₂⟩ := hcr.apart hfl htab
  refine (hr.frame q hfl₂ htab₂ (fun heq => hfl ?_) fun j _ _ => hcr.not_target hfl j).trans
    (hcr.frame q hfl htab)
  rw [heq]
  exact hcr.own .info

/-- The regions of the parent are as when `do_fork` was called. -/
theorem Created.target (h : Space iso L (s.view P P) s.phys fl) (hc : c ∈ P) (hne : c ≠ child)
    {k : ℕ} (hk : k < 256) : regionTarget s₂.phys.mem (s₂.procs c).space k =
      regionTarget s.phys.mem (s.procs c).space k := by
  obtain ⟨hfl, htab, -⟩ := h.own_apart c hc .info
  rw [hcr.procs_eq hne]
  exact regionTarget_congr (a := (s.procs c).space) (h.aligned c hc) (hcr.frame _ hfl htab) hk

end Compose

/-! ## The last part -/

theorem ForkFinished.space_eq (hf : ForkFinished c child s s') (j : Pid) :
    (s'.procs j).space = (s.procs j).space ∧
      (s'.procs j).totalMappedRegion = (s.procs j).totalMappedRegion := by
  by_cases hj : j = child
  · subst hj
    exact ⟨(congrArg Process.space hf.self :), (congrArg Process.totalMappedRegion hf.self :)⟩
  · exact ⟨(congrArg Process.space (hf.others j hj) :),
      (congrArg Process.totalMappedRegion (hf.others j hj) :)⟩

theorem ForkFinished.view_eq (hf : ForkFinished c child s s') (P : Set Pid) :
    s'.view P P = s.view P P := by
  unfold Kernel.view
  rw [hf.kroot, funext fun j => (hf.space_eq j).1, funext fun j => (hf.space_eq j).2]

/-- Only the trapframe of the child is written. -/
theorem ForkFinished.mem (hf : ForkFinished c child s s')
    (h : Space iso L (s.view P P) s.phys fl) (hc : child ∈ P) {q : Ppn}
    (hq : q ≠ (s.procs child).space.own .trapframe) : s'.phys.mem q = s.phys.mem q := by
  have hal : addr ((s.procs child).space.own .trapframe) = (s.procs child).trapframe :=
    (h.aligned child hc).trapframe
  rw [hf.phys, ← hal]
  exact store64_of_ne (by rwa [frameSlot_ppn])

theorem ForkFinished.space (hf : ForkFinished c child s s')
    (h : Space iso L (s.view P P) s.phys fl) (hc : child ∈ P) :
    Space iso L (s'.view P P) s'.phys fl := by
  obtain ⟨hfl, htab, -⟩ := h.own_apart child hc .trapframe
  have hmem := fun q => hf.mem h hc (q := q)
  rw [hf.view_eq, hf.phys]
  rw [hf.phys] at hmem
  exact h.write hmem hfl htab fun j hj => h.own_ne hc hj (by decide)

theorem ForkFinished.leaf (hf : ForkFinished c child s s')
    (h : Space iso L (s.view P P) s.phys fl) (hc : child ∈ P) {j : Pid} (hj : j ∈ P) (v : Vpn) :
    translate s'.phys.mem (s.procs j).space.root v =
      translate s.phys.mem (s.procs j).space.root v := by
  have hmem := fun q => hf.mem h hc (q := q)
  exact @leaf_write (s.view P P) s.phys _ _ _ hmem (h.own_apart child hc .trapframe).2.1 hj v

/-! ## The parts together -/

section Parts

variable (h : Space iso L (s.view P P) s.phys fl) (hc : c ∈ P) (hchild : child ∉ P)
  (hcr : Created iso L P s fl child us s₂ fl₂)
  (hr : ForkedRegions iso L (insert child P) c child 0 (s.procs c).totalMappedRegion s₂ fl₂ s₃ fl')
  (hf : ForkFinished c child s₃ s')

include h hc hchild hcr hr hf

theorem forkMade_pages {k : ℕ} {va : Word} (hk : k < (s.procs c).totalMappedRegion)
    (hva : regionTarget s.phys.mem (s.procs c).space k = some va) :
    ∃ w', translate s'.phys.mem (s'.procs child).space.root (vpn va) = some w' ∧
      w' &&& PTE_U ≠ 0 ∧
      ∀ w, translate s.phys.mem (s.procs c).space.root (vpn va) = some w → w &&& PTE_U ≠ 0 →
        s'.phys.mem (ptePpn w') = s.phys.mem (ptePpn w) ∧
          (CodeRegion s c k → ptePpn w' = ptePpn w) := by
  have hne : c ≠ child := by
    rintro rfl
    exact hchild hc
  have hhi : (s.procs c).totalMappedRegion ≤ 256 := (h.ready c hc).regions.hi
  have hmem : child ∈ insert child P := Set.mem_insert _ _
  obtain ⟨w', hw', hU', hcontent⟩ := hr.copied k (Nat.zero_le _) (by omega) va (by
    rw [hcr.target h hc hne (by omega)]
    exact hva)
  rw [← hr.forking.space_eq] at hw'
  have hspare := hr.space.user child hmem _ w' hw' hU'
  refine ⟨w', ?_, hU', fun w hw hU => ?_⟩
  · rw [(hf.space_eq child).1]
    exact (hf.leaf hr.space hmem hmem _).trans hw'
  · rw [hf.mem hr.space hmem (hspare.own child hmem .trapframe)]
    have hw₂ : translate s₂.phys.mem (s₂.procs c).space.root (vpn va) = some w := by
      rw [hcr.procs_eq hne, hcr.other c hc]
      exact hw
    have hspare' := h.user c hc _ w hw hU
    obtain ⟨hsame, hshared⟩ := hcontent w hw₂ hU
    refine ⟨hsame.trans (hcr.frame _ hspare'.free hspare'.table), fun hcode => hshared ?_⟩
    rw [CodeRegion, hcr.seg h hc hne (by omega)]
    exact hcode

theorem forkMade_new {v : Vpn} {w : Word}
    (hw : translate s'.phys.mem (s'.procs child).space.root v = some w) (hU : w &&& PTE_U ≠ 0) :
    ∃ k va, k < (s.procs c).totalMappedRegion ∧
      regionTarget s.phys.mem (s.procs c).space k = some va ∧ v = vpn va := by
  have hne : c ≠ child := by
    rintro rfl
    exact hchild hc
  have hregs : Regions L s.phys.mem (s.procs c).space (s.procs c).totalMappedRegion :=
    (h.ready c hc).regions
  have hlo := hregs.lo
  have hhi := hregs.hi
  have hmem : child ∈ insert child P := Set.mem_insert _ _
  rw [(hf.space_eq child).1, hf.leaf hr.space hmem hmem, hr.forking.space_eq] at hw
  rcases hr.new v w hw with hw | ⟨j, va, -, hj, hva, hv, -⟩
  · refine ⟨0, USER_STACK_TOP - PGSIZE, by omega, ?_, hcr.user_leaf hw hU⟩
    rw [regionTarget, hregs.stack.2, hregs.stack.1]
  · rw [hcr.target h hc hne (by omega)] at hva
    exact ⟨j, va, by omega, hva, hv⟩

/-- The child has the frames of code in common with its parent and no others. -/
theorem forkMade_fresh {v : Vpn} {w : Word}
    (hw : translate s'.phys.mem (s'.procs child).space.root v = some w) (hU : w &&& PTE_U ≠ 0) :
    FreshFrame P s fl (ptePpn w) ∨ ∃ k va, k < (s.procs c).totalMappedRegion ∧ CodeRegion s c k ∧
      regionTarget s.phys.mem (s.procs c).space k = some va ∧ v = vpn va := by
  have hne : c ≠ child := by
    rintro rfl
    exact hchild hc
  have hhi : (s.procs c).totalMappedRegion ≤ 256 := (h.ready c hc).regions.hi
  have hmem : child ∈ insert child P := Set.mem_insert _ _
  obtain ⟨tf, pt, ks, mi, new, hlist, hpages⟩ := hcr.popped
  rw [(hf.space_eq child).1, hf.leaf hr.space hmem hmem, hr.forking.space_eq] at hw
  rcases hr.new v w hw with hw | ⟨j, va, -, hj, hva, hv, hcode | hfresh⟩
  · -- the stack, which `alloc_process` took off the free list
    have hv := hcr.user_leaf hw hU
    rw [hv, hcr.stack_leaf] at hw
    obtain rfl := Option.some.inj hw
    rw [ptePpn_mkPte _ (by decide), ppn_addr]
    exact Or.inl (Or.inl (by rw [hlist]; simp))
  · rw [hcr.target h hc hne (by omega)] at hva
    rw [CodeRegion, hcr.seg h hc hne (by omega)] at hcode
    exact Or.inr ⟨j, va, by omega, hcode, hva, hv⟩
  · by_contra hnot
    have hold := (not_or.mp hnot).1
    obtain ⟨hfl, htab⟩ := hcr.apart (not_or.mp hold).1 (not_or.mp hold).2
    exact hfresh.elim hfl htab

theorem forkMade_context {k : ℕ} (hk : k < sizeofTrapframe / 8) :
    load64 s'.phys.mem ((s'.procs child).trapframe + BitVec.ofNat 64 (8 * k)) =
      if k = Reg.a0.index then 0
      else load64 s.phys.mem ((s.procs c).trapframe + BitVec.ofNat 64 (8 * k)) := by
  have hk' : k < 35 := hk
  have hne : c ≠ child := by
    rintro rfl
    exact hchild hc
  have hlo : 3 ≤ (s.procs c).totalMappedRegion := (h.ready c hc).regions.lo
  have hmem : child ∈ insert child P := Set.mem_insert _ _
  have htf : (s'.procs child).trapframe = (s₃.procs child).trapframe :=
    (congrArg AddrSpace.trapframe (hf.space_eq child).1 :)
  have hslot : frameSlot (s₃.procs child).trapframe .a0 =
      (s₃.procs child).trapframe + BitVec.ofNat 64 (8 * Reg.a0.index) := rfl
  obtain ⟨hfl, htab, -⟩ := h.own_apart c hc .trapframe
  rw [htf, hf.phys, hslot, load_dword_store _ _ _ (by decide) (by omega)]
  refine if_congr Iff.rfl rfl ?_
  have hcontext := hr.context (by omega) (by omega) (BitVec.ofNat 9 k) (by
    rw [BitVec.toNat_ofNat]
    exact lt_of_le_of_lt (Nat.mod_le _ _) hk)
  rw [hr.space.load_trapframe hmem _ (by omega), h.load_trapframe hc _ (by omega),
    hr.forking.space_eq, hcontext, hcr.procs_eq hne]
  exact congrFun (hcr.frame _ hfl htab) _

theorem forkMade_targets {j : ℕ} {va : Word} (hj : j < (s'.procs child).totalMappedRegion)
    (hva : regionTarget s'.phys.mem (s'.procs child).space j = some va) :
    ∃ k < (s.procs c).totalMappedRegion, regionTarget s.phys.mem (s.procs c).space k = some va := by
  have hne : c ≠ child := by
    rintro rfl
    exact hchild hc
  have hregs : Regions L s.phys.mem (s.procs c).space (s.procs c).totalMappedRegion :=
    (h.ready c hc).regions
  have hlo := hregs.lo
  have hhi := hregs.hi
  have hmem : child ∈ insert child P := Set.mem_insert _ _
  have hregs₂ : Regions L s₂.phys.mem (s₂.procs child).space (s₂.procs child).totalMappedRegion :=
    (hcr.space.ready child hmem).regions
  have hhi₃ : (s₃.procs child).totalMappedRegion ≤ 256 := (hr.space.ready child hmem).regions.hi
  rw [(hf.space_eq child).2] at hj
  have hinfo : s'.phys.mem ((s₃.procs child).space.own .info) =
      s₃.phys.mem ((s₃.procs child).space.own .info) :=
    hf.mem hr.space hmem (hr.space.own_ne hmem hmem (by decide))
  rw [(hf.space_eq child).1, regionTarget_congr (a := (s₃.procs child).space)
    (hr.space.aligned child hmem) hinfo (by omega), hr.forking.space_eq] at hva
  rcases hr.targets j va hj hva with ⟨hj₂, hva₂⟩ | ⟨i, -, hi, hva₂⟩
  · -- of the three regions a new process has, only its stack is given to a child
    rw [hcr.total] at hj₂
    refine ⟨0, by omega, ?_⟩
    rw [regionTarget, hregs.stack.2, hregs.stack.1]
    unfold regionTarget at hva₂
    obtain rfl | rfl | rfl : j = 0 ∨ j = 1 ∨ j = 2 := by omega
    · rw [hregs₂.stack.2, hregs₂.stack.1] at hva₂
      exact hva₂
    · rw [hregs₂.context.2] at hva₂
      cases hva₂
    · rw [hregs₂.system.2] at hva₂
      cases hva₂
  · rw [hcr.target h hc hne (by omega)] at hva₂
    exact ⟨i, by omega, hva₂⟩

theorem forkMade : ForkMade iso L P c child s fl s' fl' := by
  have hmem : child ∈ insert child P := Set.mem_insert _ _
  have h1 := hcr.length
  have h2 := hr.length
  refine ⟨hf.space hr.space hmem, fun j hj => ?_, fun j hj v => ?_,
    fun k va => forkMade_pages h hc hchild hcr hr hf, fun v w => forkMade_new h hc hchild hcr hr hf,
    fun v w => forkMade_fresh h hc hchild hcr hr hf,
    fun q hfl htab => ?_, fun k => forkMade_context h hc hchild hcr hr hf,
    fun j va => forkMade_targets h hc hchild hcr hr hf, ?_, by omega⟩
  · rw [(hf.space_eq j).1, (hf.space_eq j).2, hr.forking.procs j hj, hcr.procs_eq hj]
    exact ⟨rfl, rfl⟩
  · have hjc : j ≠ child := by
      rintro rfl
      exact hchild hj
    have hj' : j ∈ insert child P := Set.mem_insert_of_mem _ hj
    have hleaf := hf.leaf hr.space hmem hj' v
    rw [hr.forking.space_eq, hr.forking.others j hj' hjc, hcr.procs_eq hjc,
      hcr.other j hj] at hleaf
    exact hleaf
  · rw [hf.mem hr.space hmem, hr.frame_created hcr hfl htab]
    rw [hr.forking.space_eq]
    rintro rfl
    exact hfl (hcr.own .trapframe)
  · rw [hf.heap, hr.forking.rest, hcr.rest]

end Parts

/-! ## The whole call -/

/-- Process `c` can be forked: there are a free slot and enough pages, and its
    regions name different pages below the kernel, all of them mapped. -/
structure Forkable (s : Kernel) (c : Pid) (fl : List Ppn) : Prop where
  slot : firstFree s.procs ≠ none
  pages : 11 + 3 * (s.procs c).totalMappedRegion ≤ fl.length
  regions : ∀ k < (s.procs c).totalMappedRegion, ∀ va,
    regionTarget s.phys.mem (s.procs c).space k = some va →
    va < KERN_BASE ∧ lookupAnswer s.phys.mem (s.procs c).space.root va ≠ 0
  apart : ∀ i j, i < j → j < (s.procs c).totalMappedRegion → ∀ va va',
    regionTarget s.phys.mem (s.procs c).space i = some va →
    regionTarget s.phys.mem (s.procs c).space j = some va' → vpn va ≠ vpn va'

theorem Forkable.ready (hf : Forkable s c fl) (h : Space iso L (s.view P P) s.phys fl)
    (hc : c ∈ P) (hchild : child ∉ P) (hcr : Created iso L P s fl child us s₂ fl₂) :
    ForkReady s₂ c child 0 (s.procs c).totalMappedRegion := by
  have hne : c ≠ child := by
    rintro rfl
    exact hchild hc
  have hregs : Regions L s.phys.mem (s.procs c).space (s.procs c).totalMappedRegion :=
    (h.ready c hc).regions
  have hlo := hregs.lo
  have hhi := hregs.hi
  have hmem : child ∈ insert child P := Set.mem_insert _ _
  have htarget : ∀ k < 256, regionTarget s₂.phys.mem (s₂.procs c).space k =
      regionTarget s.phys.mem (s.procs c).space k := fun k hk => hcr.target h hc hne hk
  have hstack : regionTarget s.phys.mem (s.procs c).space 0 = some (USER_STACK_TOP - PGSIZE) := by
    rw [regionTarget, hregs.stack.2, hregs.stack.1]
  have hlookup : ∀ va, lookupAnswer s₂.phys.mem (s₂.procs c).space.root va =
      lookupAnswer s.phys.mem (s.procs c).space.root va := by
    intro va
    unfold lookupAnswer absTable
    rw [hcr.procs_eq hne, hcr.other c hc]
  constructor
  · intro k _ hk va hva
    rw [htarget k (by omega)] at hva
    obtain ⟨hlow, hsrc⟩ := hf.regions k (by omega) va hva
    refine ⟨?_, by rw [hlookup]; exact hsrc, ?_⟩
    · rw [BitVec.lt_def] at hlow ⊢
      exact hlow.trans (by decide)
    · split_ifs with h0
      · subst h0
        obtain rfl : USER_STACK_TOP - PGSIZE = va := Option.some.inj (hstack.symm.trans hva)
        rw [lookupAnswer_user hcr.space hmem (by decide) hcr.stack_leaf (userData_leaf_user _),
          ptePpn_mkPte _ (by decide), ppn_addr]
        exact mt addr_eq_zero.mp (hcr.space.managed_ne_zero hcr.stack)
      · refine hcr.unmapped hlow fun heq => ?_
        exact hf.apart 0 k (by omega) (by omega) _ va hstack hva heq.symm
  · intro i j _ hij hj va va' hva hva'
    rw [htarget i (by omega)] at hva
    rw [htarget j (by omega)] at hva'
    exact hf.apart i j hij (by omega) va va' hva hva'

/-- **`do_fork`.** -/
theorem doFork_made (hsched : SchedInv s c Q) (hsame : SchedSame { s with console := [] } s₁)
    (hprocs : s₁.procs = s.procs) (h : Space iso L (s₁.view s.used s.used) s₁.phys fl)
    (hcode : iso → ¬ s₁.HasCode c) :
    Prog.wp (doFork L c)
      (fun r s' => ∃ child fl', (Forked s s' c child Q ∧ r = asInt (s.procs child).pid) ∧
        ForkMade iso L s.used c child s₁ fl s' fl')
      (fun _ => False) (fun _ => ¬ Forkable s₁ c fl) s₁ := by
  have hc : c ∈ s.used := ((hsched.live c).mp List.mem_cons_self).1
  have hfirst : firstFree s₁.procs = firstFree s.procs := by rw [hprocs]
  rw [doFork, Prog.wp_bind, proc, Prog.wp_gets, Prog.wp_bind, sprint, Prog.wp_modify, Prog.wp_bind]
  -- the message does not matter
  have hsame' := IsTrans.trans (r := SchedSame) _ _
    { s₁ with console := s₁.console ++
      [.text "will fork a child from parent %d.\n" [(s₁.procs c).pid]] } hsame
    ⟨fun _ => rfl, rfl, rfl, by simp [dispatches]⟩
  refine Prog.wp_mono (Prog.wp_and (allocProcess_space (by exact h) fun j hj => ?_)
    (allocProcess_sched L _)) ?_ (fun _ h => h.1.elim) ?_
  · rw [show _ = s.procs from hprocs]
    exact hj
  · rintro child s₂ ⟨⟨-, hchild, us, fl₂, hcr'⟩, hslot₂, hfree⟩
    have hcr : Created iso L s.used s₁ fl child us s₂ fl₂ :=
      ⟨hcr'.space, hcr'.rest, hcr'.total, hcr'.leaf, hcr'.stack, hcr'.other, hcr'.frame,
        hcr'.regions, hcr'.popped, hcr'.own, hcr'.length⟩
    have hne : c ≠ child := by
      rintro rfl
      exact hchild hc
    have hfree' : firstFree s.procs = some child := hfirst.symm.trans hfree
    have htotal : (s₂.procs c).totalMappedRegion = (s₁.procs c).totalMappedRegion := by
      rw [hcr.procs_eq hne]
    have hlen := hcr.length
    rw [proc, Prog.wp_bind, Prog.wp_gets, List.range_eq_range', htotal, Prog.wp_bind]
    refine Prog.wp_mono (Prog.wp_and (forkRegions_space (P := insert child s.used)
      (Set.mem_insert_of_mem _ hc) (Set.mem_insert _ _) hne _ 0 s₂ fl₂
      (by rw [htotal, Nat.zero_add])
      hcr.space (fun hi hcd => hcode hi ((hcr.hasCode h hchild hc).mp hcd)) ?_
      fun _ => hcr.ownStack h hchild hc) ((forkRegions_slot c child _).wp s₂)) ?_
      (fun _ h => h.1.elim) ?_
    · rw [hcr.total]
      omega
    · rintro - s₃ ⟨⟨fl₃, hr⟩, hslot₃⟩
      refine Prog.wp_mono (doFork_finish hsched
        (IsTrans.trans _ _ _ (IsTrans.trans _ _ _ hsame' hslot₂.same) hslot₃.same) hfree'
        fun i hi => ?_) ?_ (fun _ h => h) fun _ h => h.elim
      · rw [hslot₃.others i hi, hcr.procs_eq hi, hprocs]
      · rintro r s' ⟨hforked, hfin⟩
        exact ⟨child, fl₃, hforked, forkMade h hc hchild hcr hr hfin⟩
    · rintro _ ⟨hn, -⟩ hfk
      have hpages := hfk.pages
      exact hn ⟨hfk.ready h hc hchild hcr, by omega⟩
  · rintro _ ⟨hn, -⟩ hfk
    have hpages := hfk.pages
    rcases hn with hn | hn
    · omega
    · exact hfk.slot hn

end Pke
