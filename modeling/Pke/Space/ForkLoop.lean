import Pke.Space.Fork

/-!
# The regions of a process are given to a child

The loop of `do_fork` over all regions. The child ends up with the pages the
regions of the parent name, with their contents, and with no other page than
those and the pages it was created with.
-/

namespace Pke

open Lib Radix

variable {iso : Prop} {L : Layout} {P : Set Pid} {fl fl' : List Ppn} {parent child : Pid}
  {s s' s₁ : Kernel} {k d : ℕ}

/-! ## The parent during the loop -/

/-- The parent's list of regions is as before. -/
theorem Forking.target (hf : Forking P parent child s s')
    (h : Space iso L (s.view P P) s.phys fl) (hp : parent ∈ P) (hne : parent ≠ child) {j : ℕ}
    (hj : j < 256) : regionTarget s'.phys.mem (s'.procs parent).space j =
      regionTarget s.phys.mem (s.procs parent).space j := by
  rw [hf.procs parent hne]
  exact regionTarget_congr (h.aligned parent hp) hf.info hj

theorem Forking.seg (hf : Forking P parent child s s')
    (h : Space iso L (s.view P P) s.phys fl) (hp : parent ∈ P) (hne : parent ≠ child) {j : ℕ}
    (hj : j < 256) : regionSeg s'.phys.mem (s'.procs parent).space j =
      regionSeg s.phys.mem (s.procs parent).space j := by
  rw [hf.procs parent hne, regionSeg, regionSecond_congr (a := (s.procs parent).space)
    (h.aligned parent hp) hf.info hj, regionSeg]

theorem Forking.hasCode (hf : Forking P parent child s s')
    (h : Space iso L (s.view P P) s.phys fl) (hp : parent ∈ P) (hne : parent ≠ child) :
    s'.HasCode parent ↔ s.HasCode parent := by
  have hhi : (s.procs parent).totalMappedRegion ≤ 256 := (h.ready parent hp).regions.hi
  have htotal : (s'.procs parent).totalMappedRegion = (s.procs parent).totalMappedRegion := by
    rw [hf.procs parent hne]
  unfold Kernel.HasCode
  rw [htotal]
  refine exists_congr fun k => and_congr_right fun hk => ?_
  rw [hf.seg h hp hne (by omega)]

/-- A page that `lookup_pa` finds is found again. -/
theorem Forking.lookup (hf : Forking P parent child s s') {i : Pid} (hi : i ∈ P) {va : Word}
    (hva : lookupAnswer s.phys.mem (s.procs i).space.root va ≠ 0) :
    lookupAnswer s'.phys.mem (s'.procs i).space.root va ≠ 0 := by
  rw [hf.space_eq i]
  unfold lookupAnswer absTable at *
  cases ht : translate s.phys.mem (s.procs i).space.root (vpn va) with
  | none =>
    rw [ht] at hva
    simp at hva
  | some w =>
    rw [hf.mono i hi _ w ht]
    rwa [ht] at hva

/-! ## The outcome of the loop -/

/-- The outcome of the loop for the regions from `k` on, `d` of them. -/
structure ForkedRegions (iso : Prop) (L : Layout) (P : Set Pid) (parent child : Pid) (k d : ℕ)
    (s : Kernel) (fl : List Ppn) (s' : Kernel) (fl' : List Ppn) : Prop where
  space : Space iso L (s'.view P P) s'.phys fl'
  forking : Forking P parent child s s'
  length : fl.length ≤ fl'.length + 3 * d
  copied : ∀ j, k ≤ j → j < k + d → ∀ va,
    regionTarget s.phys.mem (s.procs parent).space j = some va →
    Copied parent child (CodeRegion s parent j) (vpn va) s s'
  new : ∀ v w, translate s'.phys.mem (s.procs child).space.root v = some w →
    translate s.phys.mem (s.procs child).space.root v = some w ∨
      ∃ j va, k ≤ j ∧ j < k + d ∧
        regionTarget s.phys.mem (s.procs parent).space j = some va ∧ v = vpn va ∧
        (CodeRegion s parent j ∨ FreshFrame P s fl (ptePpn w))
  frame : ∀ q, q ∉ fl → q ∉ tablePages s.phys.mem (s.view P P).roots →
    q ≠ (s.procs child).space.own .info →
    (∀ j, k ≤ j → j < k + d → ¬ ForkTarget child j s q) → s'.phys.mem q = s.phys.mem q
  sub : ∀ p, p ∈ fl' ∨ p ∈ tablePages s'.phys.mem (s.view P P).roots →
    p ∈ fl ∨ p ∈ tablePages s.phys.mem (s.view P P).roots
  context : k ≤ 1 → 1 < k + d → ∀ o : Idx, o.toNat < sizeofTrapframe / 8 →
    s'.phys.mem ((s.procs child).space.own .trapframe) o =
      s.phys.mem ((s.procs parent).space.own .trapframe) o
  targets : ∀ j va, j < (s'.procs child).totalMappedRegion →
    regionTarget s'.phys.mem (s.procs child).space j = some va →
    j < (s.procs child).totalMappedRegion ∧
      regionTarget s.phys.mem (s.procs child).space j = some va ∨
    ∃ i, k ≤ i ∧ i < k + d ∧ regionTarget s.phys.mem (s.procs parent).space i = some va

/-- The stack of the child is its own. -/
def OwnStack (parent child : Pid) (s : Kernel) : Prop :=
  ∀ w', translate s.phys.mem (s.procs child).space.root stackVpn = some w' →
    ∀ v w, translate s.phys.mem (s.procs parent).space.root v = some w → w &&& PTE_U ≠ 0 →
      ptePpn w ≠ ptePpn w'

theorem Forking.roots (hf : Forking P parent child s s') :
    (s'.view P P).roots = (s.view P P).roots := by
  have hkroot : s'.gKernelPagetable = s.gKernelPagetable := by rw [hf.rest]
  unfold View.roots Kernel.view
  dsimp only
  rw [hkroot]
  simp only [hf.space_eq]

theorem ForkedRegions.nil (h : Space iso L (s.view P P) s.phys fl) (k : ℕ) :
    ForkedRegions iso L P parent child k 0 s fl s fl where
  space := h
  forking := Forking.refl P parent child s
  length := by omega
  copied j h1 h2 := by omega
  new _ _ hw := Or.inl hw
  frame _ _ _ _ _ := rfl
  sub _ hq := hq
  context h1 h2 := by omega
  targets _ _ hj hva := Or.inl ⟨hj, hva⟩

/-- A page of user mode is not written when the regions behind the first are
    handled. -/
theorem spare_not_target {q : Ppn} (hq : (s.view P P).Spare s.phys fl q) (hc : child ∈ P) {j : ℕ}
    (hj : 1 ≤ j) : ¬ ForkTarget child j s q := by
  rintro (⟨rfl, -⟩ | ⟨-, rfl⟩)
  · omega
  · exact hq.own child hc .trapframe rfl

section Cons

variable (h : Space iso L (s.view P P) s.phys fl) (hp : parent ∈ P) (hc : child ∈ P)
  (hne : parent ≠ child) (hf : ForkedRegion iso L P parent child k s fl s₁ fl')

include h hp hc hne hf

omit h hp hc hne in
/-- What the rest of the loop keeps, in terms of the state before region `k`. -/
theorem ForkedRegions.frame_cons {fl'' : List Ppn}
    (hr : ForkedRegions iso L P parent child (k + 1) d s₁ fl' s' fl'') {q : Ppn} (hfl : q ∉ fl)
    (htab : q ∉ tablePages s.phys.mem (s.view P P).roots)
    (hinfo : q ≠ (s.procs child).space.own .info)
    (htarget : ∀ j, k + 1 ≤ j → j < k + 1 + d → ¬ ForkTarget child j s q) :
    s'.phys.mem q = s₁.phys.mem q := by
  refine hr.frame q (fun hq => ?_) (fun hq => ?_) ?_ fun j hj hj' ht => htarget j hj hj' ?_
  · exact (hf.sub q (Or.inl hq)).elim hfl htab
  · rw [hf.forking.roots] at hq
    exact (hf.sub q (Or.inr hq)).elim hfl htab
  · rwa [hf.forking.space_eq]
  · rcases ht with ⟨rfl, -⟩ | ⟨rfl, rfl⟩
    · omega
    · exact Or.inr ⟨rfl, by rw [hf.forking.space_eq]⟩

omit h hp hne in
/-- The page of region `k` keeps its contents in the rest of the loop. -/
theorem ForkedRegions.copied_first {fl'' : List Ppn}
    (hr : ForkedRegions iso L P parent child (k + 1) d s₁ fl' s' fl'') {shared : Prop} {v : Vpn}
    (hcopied : Copied parent child shared v s s₁) : Copied parent child shared v s s' := by
  obtain ⟨w', hw', hU', hcontent⟩ := hcopied
  rw [← hf.forking.space_eq child] at hw'
  have hspare := hf.space.user child hc v w' hw' hU'
  have hkeep : s'.phys.mem (ptePpn w') = s₁.phys.mem (ptePpn w') :=
    hr.frame _ hspare.free hspare.table (hspare.own child hc .info) fun j hj _ =>
      spare_not_target hspare hc (by omega)
  refine ⟨w', ?_, hU', fun w hw hU =>
    ⟨hkeep.trans (hcontent w hw hU).1, (hcontent w hw hU).2⟩⟩
  rw [← hf.forking.space_eq child]
  exact hr.forking.mono child hc v w' hw'

omit hne in
/-- A page of a later region has the contents it had before region `k`. -/
theorem ForkedRegions.copied_later (hstack : k = 0 → OwnStack parent child s) {shared : Prop}
    {v : Vpn} (hcopied : Copied parent child shared v s₁ s') :
    Copied parent child shared v s s' := by
  obtain ⟨w', hw', hU', hcontent⟩ := hcopied
  rw [hf.forking.space_eq child] at hw'
  refine ⟨w', hw', hU', fun w hw hU => ?_⟩
  have hw₁ := hf.forking.mono parent hp v w hw
  rw [← hf.forking.space_eq parent] at hw₁
  have hspare := h.user parent hp v w hw hU
  refine ⟨(hcontent w hw₁ hU).1.trans (hf.frame _ hspare.free hspare.table
    (hspare.own child hc .info) ?_), (hcontent w hw₁ hU).2⟩
  rintro (⟨hk, wc, hwc, heq⟩ | ⟨-, heq⟩)
  · exact hstack hk wc hwc v w hw hU heq
  · exact hspare.own child hc .trapframe heq

omit hne in
/-- The trapframe of the child, copied in region 1, is kept. -/
theorem ForkedRegions.context_cons {fl'' : List Ppn}
    (hr : ForkedRegions iso L P parent child (k + 1) d s₁ fl' s' fl'') (h1 : k ≤ 1)
    (h2 : 1 < k + (d + 1)) (o : Idx) (ho : o.toNat < sizeofTrapframe / 8) :
    s'.phys.mem ((s.procs child).space.own .trapframe) o =
      s.phys.mem ((s.procs parent).space.own .trapframe) o := by
  obtain rfl | rfl : k = 0 ∨ k = 1 := by omega
  · have hcontext := hr.context (by omega) (by omega) o ho
    rw [hf.forking.space_eq, hf.forking.space_eq] at hcontext
    obtain ⟨hfl, htab, -⟩ := h.own_apart parent hp .trapframe
    refine hcontext.trans
      (congrFun (hf.frame _ hfl htab (h.own_ne hp hc (by decide)) ?_) o)
    rintro (⟨-, w, hw, heq⟩ | ⟨h01, -⟩)
    · obtain ⟨hspare, -⟩ := h.user_of_ne hc hw (h.trapframe_ne_stack hc).symm
        (h.trapSec_ne_stack hc).symm
      exact hspare.own parent hp .trapframe heq.symm
    · cases h01
  · obtain ⟨hfl, htab, -⟩ := h.own_apart child hc .trapframe
    refine (congrFun (hr.frame_cons hf hfl htab (h.own_ne hc hc (by decide))
      fun j hj hj' ht => ?_) o).trans (hf.context rfl o ho)
    rcases ht with ⟨rfl, -⟩ | ⟨rfl, -⟩ <;> omega

theorem ForkedRegions.cons (hbound : k + 1 + d ≤ 256) (hstack : k = 0 → OwnStack parent child s)
    {fl'' : List Ppn} (hr : ForkedRegions iso L P parent child (k + 1) d s₁ fl' s' fl'') :
    ForkedRegions iso L P parent child k (d + 1) s fl s' fl'' := by
  have htarget : ∀ j, j < 256 → regionTarget s₁.phys.mem (s₁.procs parent).space j =
      regionTarget s.phys.mem (s.procs parent).space j := fun j hj =>
    hf.forking.target h hp hne hj
  have hlen₁ := hf.length
  have hlen₂ := hr.length
  refine ⟨hr.space, hf.forking.trans hr.forking, by omega, fun j hj hj' va hva => ?_,
    fun v w hw => ?_, fun q hfl htab hinfo ht => ?_, fun q hq => ?_, fun h1 h2 o ho => ?_,
    fun j va hj hva => ?_⟩
  · by_cases hjk : j = k
    · subst hjk
      exact ForkedRegions.copied_first hc hf hr (hf.copied va hva)
    · have hcopied := ForkedRegions.copied_later h hp hc hf hstack
        (hr.copied j (by omega) (by omega) va (by rw [htarget j (by omega)]; exact hva))
      rwa [CodeRegion, hf.forking.seg h hp hne (by omega)] at hcopied
  · rw [← hf.forking.space_eq child] at hw
    rcases hr.new v w hw with hw | ⟨j, va, hj, hj', hva, hv, hframe⟩
    · rw [hf.forking.space_eq child] at hw
      rcases hf.new v w hw with hw | ⟨va, hva, hv⟩
      · exact Or.inl hw
      · exact Or.inr ⟨k, va, le_rfl, by omega, hva, hv⟩
    · rw [htarget j (by omega)] at hva
      rw [CodeRegion, hf.forking.seg h hp hne (by omega), FreshFrame, hf.forking.roots] at hframe
      exact Or.inr ⟨j, va, by omega, by omega, hva, hv, hframe.imp_right (hf.sub _)⟩
  · rw [hr.frame_cons hf hfl htab hinfo fun j hj hj' => ht j (by omega) (by omega)]
    exact hf.frame q hfl htab hinfo (ht k le_rfl (by omega))
  · rw [← hf.forking.roots] at hq
    have := hr.sub q hq
    rw [hf.forking.roots] at this
    exact hf.sub q this
  · exact hr.context_cons h hp hc hf h1 h2 o ho
  · rw [← hf.forking.space_eq child] at hva
    rcases hr.targets j va hj hva with ⟨hj₁, hva₁⟩ | ⟨i, hi, hi', hva₁⟩
    · rw [hf.forking.space_eq child] at hva₁
      rcases hf.targets j va hj₁ hva₁ with hold | hnew
      · exact Or.inl hold
      · exact Or.inr ⟨k, le_rfl, by omega, hnew⟩
    · rw [htarget i (by omega)] at hva₁
      exact Or.inr ⟨i, by omega, by omega, hva₁⟩

end Cons

/-! ## The loop -/

/-- The `d` regions of the parent from `k` on can be given to the child. -/
structure ForkReady (s : Kernel) (parent child : Pid) (k d : ℕ) : Prop where
  forkable : ∀ j, k ≤ j → j < k + d → RegionForkable s parent child j
  apart : ∀ i j, k ≤ i → i < j → j < k + d → ∀ va va',
    regionTarget s.phys.mem (s.procs parent).space i = some va →
    regionTarget s.phys.mem (s.procs parent).space j = some va' → vpn va ≠ vpn va'

/-- After region `k`, the other regions can still be given to the child. -/
theorem ForkReady.tail (hr : ForkReady s parent child k (d + 1))
    (h : Space iso L (s.view P P) s.phys fl) (hp : parent ∈ P)
    (hne : parent ≠ child) (hbound : k + 1 + d ≤ 256)
    (hf : ForkedRegion iso L P parent child k s fl s₁ fl') :
    ForkReady s₁ parent child (k + 1) d := by
  have htarget : ∀ j, j < 256 → regionTarget s₁.phys.mem (s₁.procs parent).space j =
      regionTarget s.phys.mem (s.procs parent).space j := fun j hj =>
    hf.forking.target h hp hne hj
  constructor
  · intro j hj hj' va hva
    rw [htarget j (by omega)] at hva
    obtain ⟨hlow, hsrc, hdest⟩ := hr.forkable j (by omega) (by omega) va hva
    rw [if_neg (by omega)] at hdest ⊢
    refine ⟨hlow, hf.forking.lookup hp hsrc, ?_⟩
    rw [hf.forking.space_eq, Option.eq_none_iff_forall_ne_some]
    intro w hw
    rcases hf.new _ w hw with hw | ⟨va', hva', hv, -⟩
    · exact Option.some_ne_none _ (hw.symm.trans hdest)
    · exact hr.apart k j le_rfl (by omega) (by omega) va' va hva' hva hv.symm
  · intro i j hi hij hj va va' hva hva'
    rw [htarget i (by omega)] at hva
    rw [htarget j (by omega)] at hva'
    exact hr.apart i j (by omega) hij (by omega) va va' hva hva'

/-- **The loop of `do_fork`.** By induction on the number of regions left. -/
theorem forkRegions_space (hp : parent ∈ P) (hc : child ∈ P) (hne : parent ≠ child) :
    ∀ (d k : ℕ) (s : Kernel) (fl : List Ppn), k + d = (s.procs parent).totalMappedRegion →
      Space iso L (s.view P P) s.phys fl → (iso → ¬ s.HasCode parent) →
      (s.procs child).totalMappedRegion ≤ max 3 k → (k = 0 → OwnStack parent child s) →
      Prog.wp (forkRegions parent child (List.range' k d))
        (fun _ s' => ∃ fl', ForkedRegions iso L P parent child k d s fl s' fl')
        (fun _ => False) (fun _ => ¬ (ForkReady s parent child k d ∧ 3 * d ≤ fl.length)) s := by
  intro d
  induction d with
  | zero => exact fun k s fl _ h _ _ _ => ⟨fl, ForkedRegions.nil h k⟩
  | succ d ih =>
    intro k s fl hkd h hiso htotal hstack
    have hhi : (s.procs parent).totalMappedRegion ≤ 256 := (h.ready parent hp).regions.hi
    rw [List.range'_succ, forkRegions]
    refine Prog.wp_bind.mpr (Prog.wp_mono
      (forkRegion_space h hp hc hne hiso (by omega) htotal) ?_ (fun _ h => h) ?_)
    · rintro _ s₁ ⟨fl₁, hf⟩
      have hlen := hf.length
      refine Prog.wp_mono (ih (k + 1) s₁ fl₁ ?_ hf.space
        (fun hi hcode => hiso hi ((hf.forking.hasCode h hp hne).mp hcode)) hf.total
        fun h0 => by omega) ?_ (fun _ h => h) ?_
      · rw [hf.forking.procs parent hne]
        omega
      · rintro _ s' ⟨fl', hr⟩
        exact ⟨fl', hr.cons h hp hc hne hf (by omega) hstack⟩
      · rintro _ hn ⟨hready, hlen'⟩
        exact hn ⟨hready.tail h hp hne (by omega) hf, by omega⟩
    · rintro _ hn ⟨hready, hlen⟩
      exact hn ⟨hready.forkable k le_rfl (by omega), by omega⟩


end Pke
