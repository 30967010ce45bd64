import Pke.Build.DoFork
import Pke.Runs.Identities

/-!
# The regions of a fork tree

`do_fork` records the regions of code of the parent for the child and not those of
data (`ChildMade.regions`). Along a run no process changes the regions it has
recorded, so the first process keeps those that `elf_load` recorded, and every
other process, however many forks lie between the two, has the regions of code
among them (`segments_inherited`). A region of data is gone with the first fork,
for all generations (`segments_inherited_iff`).
-/

namespace Pke

open Lib

variable {iso : Prop} {L : Layout} {P : Placement L} {h : Host} {t : TrapInput} {s s' s₁ : Kernel}
  {c i : Pid} {Q : List Pid} {a : Action} {tr : List (Action × Kernel)}
  {rs : List (Word × BitVec 32 × Option SegType)}

/-- The regions that process `i` has recorded. -/
def Kernel.regions (s : Kernel) (i : Pid) : List (Word × BitVec 32 × Option SegType) :=
  regionList s.phys.mem (s.procs i).space (s.procs i).totalMappedRegion

/-- Those behind the three of `alloc_process`. -/
def segments (s : Kernel) (i : Pid) : List (Word × BitVec 32 × Option SegType) :=
  (s.regions i).drop 3

/-- The regions lie in one page. -/
theorem MemInv.regions_eq (hm : MemInv iso L s) (hi : i ∈ s.used)
    (hspace : (s'.procs i).space = (s.procs i).space)
    (htotal : (s'.procs i).totalMappedRegion = (s.procs i).totalMappedRegion)
    (hinfo : s'.phys.mem ((s.procs i).space.own .info) =
      s.phys.mem ((s.procs i).space.own .info)) : s'.regions i = s.regions i := by
  have hal := hm.aligned hi
  obtain ⟨⟨fl, hs⟩, -⟩ := hm
  have hhi : (s.procs i).totalMappedRegion ≤ 256 := (hs.ready i hi).regions.hi
  rw [Kernel.regions, hspace, htotal, regionList_congr hal hinfo hhi, Kernel.regions]

/-! ## One step -/

/-- A fork records the regions of code of the caller for the child. -/
theorem trap_fork_regions {N : Touched} {g : Word} {W : Set Pid} (hm : MemInv iso L s)
    (hsched : SchedInv s c Q) (ht : IsFork t) (hexit : trap L t s = .exit s')
    (hleft : Left iso L N g W c s s') :
    ∃ i, i ∉ s.used ∧ i ∈ s'.used ∧ RegionsKept L (codeOnly (segments s c)) i s' := by
  have hc : c ∈ s.used := ((hsched.live c).mp List.mem_cons_self).1
  obtain ⟨r, s₁, hret, rfl⟩ := trap_fork_run hsched ht hexit
  have hframe := hm.inFork_frameOnly hc hsched.scratch t
  obtain ⟨fl₀, hs₀⟩ := hm.space
  have hs := hframe.space hc hs₀
  have hp := hs.forkParent (j := c) (by rw [hframe.used]; exact hc) hc
  obtain ⟨i, A, us, D, s₂, fl₂, hmade⟩ := doFork_childMade hs.tables.free hp
    ⟨hsched.queue.chain, hsched.queue.ready⟩ hret
  have hready : (s₁.procs i).status = .READY := (congrArg Process.status hmade.finished.self :)
  -- the result is stored in the trapframe of the caller
  have hc' : c ∈ (returned L c r s₁).used := hleft.moved.used hc
  have hal : (s₁.procs c).space.Aligned := hleft.mem.aligned hc'
  have hlast : FrameOnly c s₁ (returned L c r s₁) := returned_frameOnly hal r
  have hi' : i ∈ (returned L c r s₁).used := by
    rw [hlast.used]
    simp [Kernel.used, hready]
  obtain ⟨fl', hs'⟩ := hleft.mem.space
  have hinfo : (returned L c r s₁).phys.mem ((s₁.procs i).space.own .info) =
      s₁.phys.mem ((s₁.procs i).space.own .info) :=
    hlast.mem _ (hs'.own_ne hi' hc' (by decide))
  have hkept : s₁.regions i = (returned L c r s₁).regions i :=
    hleft.mem.regions_eq hi' rfl rfl hinfo.symm
  have hparent : (inFork t c s).regions c = s.regions c :=
    hm.regions_eq hc (by rw [hframe.procs]) (by rw [hframe.procs]) (hframe.info hc hs₀ hc)
  refine ⟨i, fun hu => hu hmade.free, hi', ?_⟩
  calc (returned L c r s₁).regions i
      = s₁.regions i := hkept.symm
    _ = firstRegions L (s₁.procs i).space ++ codeOnly (segments (inFork t c s) c) :=
        hmade.regions hp.few
    _ = firstRegions L (s₁.procs i).space ++ codeOnly (segments s c) := by
        rw [segments, hparent, segments]

/-- Only a fork takes a slot into use. -/
theorem Step.fork_of_new (hsched : SchedInv s c Q) (ha : Step L s a s') (hi : i ∉ s.used)
    (hi' : i ∈ s'.used) : ∃ t, a = .trap t ∧ IsFork t ∧ Pke.trap L t s = .exit s' ∧
      ∀ j, j ∉ s.used → j ∈ s'.used → j = i := by
  have hc : c ∈ s.used := ((hsched.live c).mp List.mem_cons_self).1
  have hrole : ∀ j, SameRole s s' j → j ∈ s'.used → j ∈ s.used := fun j hj hu => by
    rwa [Kernel.used, Set.mem_ofPred, hj.1] at hu
  cases ha with
  | store hst =>
    obtain ⟨mem, rfl⟩ := userStore_eq hst
    exact absurd hi' hi
  | @trap _ t hst =>
    obtain ⟨q, Q', -, hstep⟩ := Prog.wp_exit (trap_sched hsched) hst
    cases hstep with
    | stay hsame _ _ => exact absurd (hrole i (hsame i) hi') hi
    | rotate q Q' _ hsame _ => exact absurd (hrole i (hsame i) hi') hi
    | exit q Q' _ _ _ hsame _ =>
      refine absurd (hrole i (hsame i ?_) hi') hi
      rintro rfl
      exact hi hc
    | fork child hcall _ _ hsame _ _ =>
      have hnew : ∀ j, j ∉ s.used → j ∈ s'.used → j = child := fun j hj hj' => by
        by_contra hne
        exact hj (hrole j (hsame j hne) hj')
      refine ⟨t, rfl, hcall, hst, fun j hj hj' => ?_⟩
      rw [hnew j hj hj', hnew i hi hi']

/-- The first process records the regions `rs` of its segments, all others the three of
    `alloc_process` and those of code among `rs`. -/
structure Inherited (L : Layout) (rs : List (Word × BitVec 32 × Option SegType)) (s : Kernel) :
    Prop where
  first : 0 ∈ s.used ∧ segments s 0 = rs
  others : ∀ i ∈ s.used, i ≠ 0 → RegionsKept L (codeOnly rs) i s

theorem Inherited.segments (hd : Inherited L rs s) (hi : i ∈ s.used) (h0 : i ≠ 0) :
    segments s i = codeOnly rs :=
  congrArg (List.drop 3) (hd.others i hi h0)

/-- Its child records the regions of code among `rs`. -/
theorem Inherited.codeOnly (hd : Inherited L rs s) (hc : c ∈ s.used) :
    codeOnly (Pke.segments s c) = Pke.codeOnly rs := by
  by_cases h0 : c = 0
  · rw [h0, hd.first.2]
  · rw [hd.segments hc h0, Pke.codeOnly, List.filter_filter]
    simp

theorem Inherited.of_kept (hd : Inherited L rs s) (hm : MemInv iso L s)
    (hused : s.used ⊆ s'.used) (hspace : ∀ i ∈ s.used, (s'.procs i).space = (s.procs i).space)
    (htotal : ∀ i ∈ s.used, (s'.procs i).totalMappedRegion = (s.procs i).totalMappedRegion)
    (hinfo : ∀ i ∈ s.used, s'.phys.mem ((s.procs i).space.own .info) =
      s.phys.mem ((s.procs i).space.own .info))
    (hnew : ∀ i ∈ s'.used, i ∉ s.used → RegionsKept L (Pke.codeOnly rs) i s') :
    Inherited L rs s' := by
  have hkept : ∀ i ∈ s.used, s'.regions i = s.regions i := fun i hi =>
    hm.regions_eq hi (hspace i hi) (htotal i hi) (hinfo i hi)
  refine ⟨⟨hused hd.first.1, ?_⟩, fun i hi' h0 => ?_⟩
  · rw [Pke.segments, hkept 0 hd.first.1]
    exact hd.first.2
  · by_cases hi : i ∈ s.used
    · refine (hkept i hi).trans ((hd.others i hi h0).trans ?_)
      rw [hspace i hi]
    · exact hnew i hi' hi

theorem Inherited.step (hd : Inherited L rs s) (hm : MemInv iso L s) (hsched : SchedInv s c Q)
    (hok : StepOk iso s a) (ha : Step L s a s') : Inherited L rs s' := by
  have hc : c ∈ s.used := ((hsched.live c).mp List.mem_cons_self).1
  have hleft := ha.left hm hsched hok
  have hmoved := hleft.moved
  refine hd.of_kept hm hmoved.used hmoved.space hmoved.total hmoved.info fun i hi' hi => ?_
  obtain ⟨t, rfl, hfork, hexit, hone⟩ := ha.fork_of_new hsched hi hi'
  obtain ⟨j, hj, hj', hkept⟩ := trap_fork_regions hm hsched hfork hexit hleft
  rwa [← hone j hj hj', ← hd.codeOnly hc]

theorem Inherited.imageOnly (hd : Inherited L rs s) (hm : MemInv iso L s)
    (ho : ImageOnly L s s') : Inherited L rs s' := by
  obtain ⟨fl, hs⟩ := hm.space
  have hused : s'.used = s.used := by rw [Kernel.used, ho.procs, Kernel.used]
  refine hd.of_kept hm hused.ge (fun i _ => by rw [ho.procs]) (fun i _ => by rw [ho.procs])
    (fun i hi => ho.managed hs (hs.own_apart i hi .info).2.2) fun i hi' hi => ?_
  exact absurd (hused ▸ hi') hi

/-! ## Runs -/

theorem StaticRun.inherited (hr : StaticRun P (StepOk iso) s tr s') (hs : InOrder iso L s)
    (hd : Inherited L rs s) : Inherited L rs s' := by
  induction hr with
  | nil s => exact hd
  | cons hok ha hr ih =>
    obtain ⟨hm, c, Q, hsched⟩ := hs
    obtain ⟨s₂, hstep, honly⟩ := ha.step hm hsched
    obtain ⟨q, Q', hsched₂, -⟩ := hsched.step hstep
    have hm₂ := (hstep.left hm hsched hok).mem
    exact ih (honly.inOrder ⟨hm₂, q, Q', hsched₂⟩)
      ((hd.step hm hsched hok hstep).imageOnly hm₂ honly)

/-- **The regions of a fork tree.** In every run the first process keeps the regions it had
    at boot, and every other one has recorded those of code among them. -/
theorem segments_inherited (hload : h.LoadsOk Set.univ) (hboot : P.Boots h s)
    (hr : StaticRun P (StepOk False) s tr s') : Inherited L (segments s 0) s' := by
  obtain ⟨-, hl, hord⟩ := hboot.lineage hload
  refine hr.inherited hord ⟨⟨(hl.used 0).mpr le_rfl, rfl⟩, fun i hi h0 => ?_⟩
  exact absurd (Fin.ext (Nat.le_zero.mp ((hl.used i).mp hi))) h0

/-- **Which applications keep their regions in every generation**: once there has been a
    fork, those without a region of data. -/
theorem segments_inherited_iff (hload : h.LoadsOk Set.univ) (hboot : P.Boots h s)
    (hr : StaticRun P (StepOk False) s tr s') :
    (∀ i ∈ s'.used, segments s' i = segments s 0) ↔
      forks tr = 0 ∨ ∀ e ∈ segments s 0, e.2.2 ≠ some .DATA := by
  have hd := segments_inherited hload hboot hr
  obtain ⟨hsched, hl, hord⟩ := hboot.lineage hload
  obtain ⟨himage, -⟩ := hr.imageRun hord
  obtain ⟨-, hl', -⟩ := himage.lineage hsched hl
  have hused : ∀ i, i ∈ s'.used ↔ i.val ≤ forks tr := fun i => by
    rw [← Nat.zero_add (forks tr)]
    exact hl'.used i
  obtain ⟨fl, hs⟩ := hord.mem.space
  have h0 : (0 : Pid) ∈ s.used := (hl.used 0).mpr le_rfl
  have hcode : codeOnly (segments s 0) = segments s 0 ↔
      ∀ e ∈ segments s 0, e.2.2 ≠ some .DATA := by
    rw [codeOnly, List.filter_eq_self]
    refine forall₂_congr fun e he => ?_
    rcases (hs.forkParent h0 h0).segs e he with hseg | hseg <;> simp [hseg]
  rw [← hcode]
  constructor
  · intro hall
    refine or_iff_not_imp_left.mpr fun hne => ?_
    have h1 : (1 : Pid) ∈ s'.used := (hused 1).mpr (Nat.one_le_iff_ne_zero.mpr hne)
    exact (hd.segments h1 (by decide)).symm.trans (hall 1 h1)
  · intro hkeep i hi
    by_cases hi0 : i = 0
    · rw [hi0, hd.first.2]
    · have hpos : forks tr ≠ 0 := fun hzero => hi0 (Fin.ext (by
        have := (hused i).mp hi
        rw [hzero] at this
        exact Nat.le_zero.mp this))
      rw [hd.segments hi hi0, hkeep.resolve_left hpos]

end Pke
