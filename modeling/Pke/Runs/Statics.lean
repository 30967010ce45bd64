import Pke.Kernel.Statics
import Pke.Sched.Runs
import Pke.Runs.Memory

/-!
# The system with its variables in memory makes the steps of `Step`

When the segments of the application lie at addresses of pages and processes
free only pages of their own, no page that user code can write is in the kernel
image, and the kernel does not write there through a pointer. So a step of the
system with the variables in memory is a step of `Step`, after which the image
holds the new values (`StaticStep.step`), and the other way round
(`Step.static`). A run is then an `ImageRun`: a run in which the contents of the
image change between the steps.
-/

namespace Pke

open Lib Radix

variable {iso : Prop} {L : Layout} {P : Placement L} {h : Host} {s s' s₁ : Kernel} {c : Pid}
  {Q : List Pid} {a : Action} {tr tr' : List (Action × Kernel)}

/-! ## Changes of the kernel image -/

/-- The states differ in the contents of the kernel image only. -/
structure ImageOnly (L : Layout) (s s' : Kernel) : Prop where
  rest : s' = { s with phys := { s.phys with mem := s'.phys.mem } }
  mem : ∀ p, ¬ InImage L p → s'.phys.mem p = s.phys.mem p

theorem ImageOnly.refl (L : Layout) (s : Kernel) : ImageOnly L s s := ⟨rfl, fun _ _ => rfl⟩

theorem Placement.flush_imageOnly (P : Placement L) (s : Kernel) : ImageOnly L s (P.flush s) :=
  ⟨rfl, fun _ => P.flush_of_not_image s⟩

section Kept

variable (ho : ImageOnly L s s')

include ho

theorem ImageOnly.procs : s'.procs = s.procs := by rw [ho.rest]

theorem ImageOnly.sched (hs : SchedInv s c Q) : SchedInv s' c Q := by
  rw [ho.rest]
  exact hs.store

theorem ImageOnly.managed {fl : List Ppn} {V : View} (hs : Space iso L V s.phys fl) {p : Ppn}
    (hp : Managed s.phys p) : s'.phys.mem p = s.phys.mem p :=
  ho.mem p fun himage => hs.image_not_managed himage hp

theorem ImageOnly.tables {fl : List Ppn} {V : View} (hs : Space iso L V s.phys fl) :
    ∀ q ∈ tablePages s.phys.mem V.roots, s'.phys.mem q = s.phys.mem q := fun q hq =>
  ho.managed hs (hs.managed q (Or.inr hq))

theorem ImageOnly.leaf {fl : List Ppn} {V : View} (hs : Space iso L V s.phys fl) {i : Pid}
    (hi : i ∈ V.all) (v : Vpn) : translate s'.phys.mem (V.procs i).root v =
      translate s.phys.mem (V.procs i).root v :=
  translate_congr (ho.tables hs) (View.root_mem hi) v

theorem ImageOnly.space {fl : List Ppn} {V : View} (hs : Space iso L V s.phys fl) :
    Space iso L V s'.phys fl := by
  have hphys : s'.phys = { s.phys with mem := s'.phys.mem } := by rw [ho.rest]
  have hpages : tablePages s'.phys.mem V.roots = tablePages s.phys.mem V.roots :=
    nodes_congr (ho.tables hs)
  rw [hphys]
  refine hs.evolve_same ⟨?_, fun q hq => ?_, rfl, rfl, fun i hi => ?_⟩ fun i hi v => ho.leaf hs hi v
  · exact hs.tables.congr (ho.tables hs)
      (hs.tables.free.frame rfl fun q hq => ho.managed hs (hs.managed q (Or.inl hq)))
      hs.tables.apart
  · rwa [hpages] at hq
  · exact ho.managed hs (hs.own_apart i (hs.ready_sub hi) .info).2.2

theorem ImageOnly.memInv (hm : MemInv iso L s) : MemInv iso L s' := by
  obtain ⟨⟨fl, hs⟩, hheap⟩ := hm
  have hs' := ho.space hs
  rw [ho.rest] at hs' ⊢
  exact ⟨⟨fl, hs'⟩, hheap⟩

end Kept

/-! ## One step -/

/-- A store outside the kernel image. -/
theorem Placement.userStore_of_not_image (P : Placement L) {va : Word} (b : BitVec 8)
    (hcur : s.current = some c)
    (himage : ∀ pa, userTranslate s.phys.mem (s.procs c).pagetable va PTE_W = some pa →
      ¬ InImage L (ppn pa)) : P.userStore va b s = Pke.userStore va b s := by
  rw [Placement.userStore, Pke.userStore, hcur]
  cases hpa : userTranslate s.phys.mem (s.procs c).pagetable va PTE_W with
  | none => simp [hpa]
  | some pa => simp [hpa, himage pa hpa]

/-- User code does not reach the kernel image. -/
theorem Placement.userStore_eq (P : Placement L) (hm : MemInv iso L s) (hsched : SchedInv s c Q)
    (va : Word) (b : BitVec 8) : P.userStore va b s = Pke.userStore va b s := by
  obtain ⟨⟨fl, hs⟩, -⟩ := hm
  have hc : c ∈ s.used := ((hsched.live c).mp List.mem_cons_self).1
  refine P.userStore_of_not_image b hsched.current fun pa hpa => ?_
  obtain ⟨w, -, hw, hU, rfl⟩ := userTranslate_eq_some hpa
  rw [ppn_addr_add _ (offset_lt va)]
  exact fun hp => hs.image_ne_spare hp (hs.user c hc _ w hw hU) rfl

/-- **A step with the variables in memory** is a step without, up to the image. -/
theorem StaticStep.step (hm : MemInv iso L s) (hsched : SchedInv s c Q)
    (ha : StaticStep P s a s') : ∃ s₁, Step L s a s₁ ∧ ImageOnly L s₁ s' := by
  cases ha with
  | trap ht _ => exact ⟨_, .trap ht, P.flush_imageOnly _⟩
  | store hst =>
    rw [P.userStore_eq hm hsched] at hst
    exact ⟨s', .store hst, .refl L s'⟩

/-- The other way round, when the step keeps memory in order. -/
theorem Step.static (P : Placement L) (hm : MemInv iso L s) (hsched : SchedInv s c Q)
    (hok : StepOk iso s a) (ha : Step L s a s₁) :
    ∃ s', StaticStep P s a s' ∧ ImageOnly L s₁ s' := by
  have himage := (ha.left hm hsched hok).moved.image
  cases ha with
  | trap ht => exact ⟨_, .trap ht himage, P.flush_imageOnly _⟩
  | store hst =>
    rw [← P.userStore_eq hm hsched] at hst
    exact ⟨s₁, .store hst, .refl L s₁⟩

/-! ## Runs -/

/-- A sequence of steps with the state after each, in which the contents of the kernel
    image change between the steps. -/
inductive ImageRun (L : Layout) : Kernel → List (Action × Kernel) → Kernel → Prop
  | nil (s : Kernel) : ImageRun L s [] s
  | cons {s s₁ s₂ s' : Kernel} {a : Action} {tr : List (Action × Kernel)} (ha : Step L s a s₁)
      (ho : ImageOnly L s₁ s₂) (hr : ImageRun L s₂ tr s') : ImageRun L s ((a, s₂) :: tr) s'

/-- The parts of a run are runs. -/
theorem StaticRun.split {ok : Kernel → Action → Prop} (hr : StaticRun P ok s (tr ++ tr') s') :
    ∃ s₁, StaticRun P ok s tr s₁ ∧ StaticRun P ok s₁ tr' s' := by
  induction tr generalizing s with
  | nil => exact ⟨s, .nil s, hr⟩
  | cons x tr ih =>
    cases hr with
    | cons hok ha hr =>
      obtain ⟨s₂, hs₂, hs'⟩ := ih hr
      exact ⟨s₂, .cons hok ha hs₂, hs'⟩

theorem StaticRun.snoc {ok : Kernel → Action → Prop} (hr : StaticRun P ok s tr s₁) (hok : ok s₁ a)
    (ha : StaticStep P s₁ a s') : StaticRun P ok s (tr ++ [(a, s')]) s' := by
  induction hr with
  | nil s => exact .cons hok ha (.nil s')
  | cons hok₁ ha₁ _ ih => exact .cons hok₁ ha₁ (ih hok ha)

/-- Memory and the process table are in order. -/
structure InOrder (iso : Prop) (L : Layout) (s : Kernel) : Prop where
  mem : MemInv iso L s
  sched : ∃ c Q, SchedInv s c Q

theorem ImageOnly.inOrder (ho : ImageOnly L s s') (hs : InOrder iso L s) : InOrder iso L s' := by
  obtain ⟨hm, c, Q, hsched⟩ := hs
  exact ⟨ho.memInv hm, c, Q, ho.sched hsched⟩

/-- **Runs** with the variables in memory. By induction on the run: memory and the process
    table are in order before each step, so it is a step without. -/
theorem StaticRun.imageRun (hr : StaticRun P (StepOk iso) s tr s') (hs : InOrder iso L s) :
    ImageRun L s tr s' ∧ InOrder iso L s' := by
  induction hr with
  | nil s => exact ⟨.nil s, hs⟩
  | cons hok ha hr ih =>
    obtain ⟨hm, c, Q, hsched⟩ := hs
    obtain ⟨s₂, hstep, honly⟩ := ha.step hm hsched
    obtain ⟨q, Q', hsched₂, -⟩ := hsched.step hstep
    have hs₂ : InOrder _ L s₂ := ⟨(hstep.left hm hsched hok).mem, q, Q', hsched₂⟩
    obtain ⟨hrun, hs'⟩ := ih (honly.inOrder hs₂)
    exact ⟨.cons hstep honly hrun, hs'⟩

/-! ## Boot -/

/-- What is known of the state in which user code runs first. -/
structure BootedStatic (iso : Prop) (L : Layout) (h : Host) (s : Kernel) : Prop where
  boot : ∃ s₀ s₁, sStart L h (coldStart h s₀) = .exit s₁ ∧ ImageOnly L s₁ s
  sched : SchedInv s 0 []
  inOrder : InOrder iso L s

theorem Placement.Boots.static (iso : Prop) (hload : h.LoadsOk Set.univ) (hb : P.Boots h s) :
    BootedStatic iso L h s := by
  obtain ⟨s₀, s₁, hboot, -, rfl⟩ := hb
  have hb : BootMem iso L Set.univ s₀.phys.mem s₁ :=
    Prog.wp_exit (sStart_mem hload (Set.mem_univ _) s₀) hboot
  have honly := P.flush_imageOnly s₁
  have hsched := honly.sched hb.booted.sched
  exact ⟨⟨s₀, s₁, hboot, honly⟩, hsched, honly.memInv hb.mem, 0, [], hsched⟩

/-- `s_start` leaves the image of the kernel alone. -/
theorem Placement.boots_flush (P : Placement L) (hload : h.LoadsOk Set.univ) {s₀ : Kernel}
    (hboot : sStart L h (coldStart h s₀) = .exit s) : P.Boots h (P.flush s) := by
  have hb : BootMem False L Set.univ s₀.phys.mem s :=
    Prog.wp_exit (sStart_mem hload (Set.mem_univ _) s₀) hboot
  exact ⟨s₀, s, hboot, hb.image, rfl⟩

theorem SingleBoot.imageOnly {hd : ElfProgHeader} {seg : SegType}
    (hb : SingleBoot iso L h hd seg s) (ho : ImageOnly L s s') : SingleBoot iso L h hd seg s' := by
  obtain ⟨fl, hs, hlen⟩ := hb.space
  obtain ⟨us, p, hus, hp, hne, hleaf⟩ := hb.leaf
  have h0 := hb.mem_used
  have hal : (s.procs 0).space.Aligned := hs.aligned 0 h0
  have hinfo : s'.phys.mem ((s.procs 0).space.own .info) =
      s.phys.mem ((s.procs 0).space.own .info) := ho.managed hs (hs.own_apart 0 h0 .info).2.2
  have hs' := ho.space hs
  have htrans : ∀ v, translate s'.phys.mem (s.procs 0).space.root v =
      translate s.phys.mem (s.procs 0).space.root v := ho.leaf hs h0
  have hva := regionVa_congr hal hinfo (show 3 < 256 by omega)
  have hsec := regionSecond_congr hal hinfo (show 3 < 256 by omega)
  rw [ho.rest] at hs' ⊢
  refine ⟨⟨hb.booted.sched.store, hb.booted.free, hb.booted.parent⟩, ⟨fl, hs', hlen⟩, hb.heap,
    ⟨us, p, hus, hp, hne, fun v => (htrans v).trans (hleaf v)⟩, hb.total, hva.trans hb.regionVa, ?_⟩
  exact (congrArg (fun w : Word => segTypeOf ((w >>> 32).setWidth 32)) hsec).trans hb.regionSeg

/-! ## A place for the variables in the small kernel image -/

def samplePlacement : Placement sampleLayout where
  procs := 0x8000B000
  globals
    | .current => 0x8000A000
    | .readyQueueHead => 0x8000A008
    | .gKernelPagetable => 0x8000A010
    | .gUfreePage => 0x8000A018
    | .gTicks => 0x8000A020
    | .gMemSize => 0x8000A028
    | .freeMemStartAddr => 0x8000A030
    | .freeMemEndAddr => 0x8000A038
    | .gFreeMemList => 0x8000A040
  procs_aligned := by decide
  procs_lo := by decide
  procs_hi := by decide
  globals_aligned g := by cases g <;> decide
  globals_range g := by cases g <;> decide
  globals_inj g g' h := by cases g <;> cases g' <;> first | rfl | exact absurd h (by decide)
  globals_apart g := by cases g <;> decide

/-- The small application boots with the variables in memory. -/
theorem sampleStatic : ∃ s, samplePlacement.Boots (sampleHost 5 8) s ∧
    SingleBoot False sampleLayout (sampleHost 5 8) (sampleSegment 5) .CODE s := by
  obtain ⟨s, hboot, hb⟩ := sampleBoot
  exact ⟨_, samplePlacement.boots_flush sampleHost_loads hboot,
    hb.imageOnly (samplePlacement.flush_imageOnly s)⟩

/-- One step of the small application. -/
theorem SingleBoot.staticRun {hd : ElfProgHeader} {seg : SegType}
    (hb : SingleBoot iso L h hd seg s) (P : Placement L) (hok : StepOk iso s a)
    (ha : Step L s a s₁) :
    ∃ s', StaticRun P (StepOk iso) s [(a, s')] s' ∧ ImageOnly L s₁ s' := by
  obtain ⟨s', hstep, ho⟩ := ha.static P hb.memInv hb.booted.sched hok
  exact ⟨s', .cons hok hstep (.nil s'), ho⟩

/-- Its first process forks. -/
theorem sampleForkRun : ∃ s s', samplePlacement.Boots (sampleHost 5 8) s ∧
    StaticRun samplePlacement (StepOk False) s [(.trap (call SYS_user_fork 0), s')] s' := by
  obtain ⟨s, hboot, hb⟩ := sampleStatic
  obtain ⟨s₁, fl, fl', hexit, -⟩ := sampleFork hb
  obtain ⟨s', hrun, -⟩ := hb.staticRun samplePlacement
    (.of_not_free fun hfree => absurd hfree.2 (by decide)) (.trap hexit)
  exact ⟨s, s', hboot, hrun⟩

end Pke
