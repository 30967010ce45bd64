import Pke.Space.DoFork

/-!
# What a trap may change

`Moved L N g W c s s'` bounds what a trap of process `c` changes of memory from
`s` to `s'`: the other processes keep their mappings, `c` gets and loses
mappings at the pages of `N` only, a new process has its pages from the regions
of `c`, the processes outside `W` keep the words of their trapframes that user
mode sees, `g_ufree_page` grows by `g`, and nothing is written into the kernel
image. Handlers compose by `Moved.trans`.
-/

namespace Pke

open Lib

/-- The pages that a trap may map for its process, and those it may unmap. -/
structure Touched where
  mapped : Set Vpn
  unmapped : Set Vpn

instance : EmptyCollection Touched := ⟨⟨∅, ∅⟩⟩

variable {iso : Prop} {L : Layout} {N : Touched} {g g' : Word} {W : Set Pid} {c d : Pid}
  {s s' s'' : Kernel}
  {fl : List Ppn}

/-- The words of a trapframe that user mode sees: the registers and `epc`. -/
def UserWord (k : ℕ) : Prop := k < 31 ∨ k = 33

/-- Process `j` of `s'` has its pages from the regions of process `c` of `s`. -/
structure Born (c : Pid) (s s' : Kernel) (j : Pid) : Prop where
  pages : ∀ v w, translate s'.phys.mem (s'.procs j).space.root v = some w → w &&& PTE_U ≠ 0 →
    ∃ k va, k < (s.procs c).totalMappedRegion ∧
      regionTarget s.phys.mem (s.procs c).space k = some va ∧ v = vpn va
  targets : ∀ i va, i < (s'.procs j).totalMappedRegion →
    regionTarget s'.phys.mem (s'.procs j).space i = some va →
    ∃ k < (s.procs c).totalMappedRegion, regionTarget s.phys.mem (s.procs c).space k = some va

/-- See the module's comment. -/
structure Moved (L : Layout) (N : Touched) (g : Word) (W : Set Pid) (c : Pid) (s s' : Kernel) :
    Prop where
  used : s.used ⊆ s'.used
  space : ∀ j ∈ s.used, (s'.procs j).space = (s.procs j).space
  total : ∀ j ∈ s.used, (s'.procs j).totalMappedRegion = (s.procs j).totalMappedRegion
  info : ∀ j ∈ s.used, s'.phys.mem ((s.procs j).space.own .info) =
    s.phys.mem ((s.procs j).space.own .info)
  target : ∀ j ∈ s.used, ∀ k < (s.procs j).totalMappedRegion,
    regionTarget s'.phys.mem (s.procs j).space k = regionTarget s.phys.mem (s.procs j).space k
  seg : ∀ j ∈ s.used, ∀ k < (s.procs j).totalMappedRegion,
    regionSeg s'.phys.mem (s.procs j).space k = regionSeg s.phys.mem (s.procs j).space k
  frame : ∀ j ∈ s.used, j ∉ W → ∀ k, UserWord k →
    load64 s'.phys.mem ((s.procs j).trapframe + BitVec.ofNat 64 (8 * k)) =
      load64 s.phys.mem ((s.procs j).trapframe + BitVec.ofNat 64 (8 * k))
  other : ∀ j ∈ s.used, j ≠ c → ∀ v, translate s'.phys.mem (s.procs j).space.root v =
    translate s.phys.mem (s.procs j).space.root v
  self : ∀ v w, translate s'.phys.mem (s.procs c).space.root v = some w →
    translate s.phys.mem (s.procs c).space.root v = some w ∨ v ∈ N.mapped
  kept : ∀ v w, translate s.phys.mem (s.procs c).space.root v = some w →
    translate s'.phys.mem (s.procs c).space.root v = some w ∨ v ∈ N.unmapped
  born : ∀ j ∈ s'.used, j ∉ s.used → Born c s s' j
  heap : s'.gUfreePage = s.gUfreePage + g
  image : SameImage L s.phys.mem s'.phys.mem

theorem Moved.trapframe (h : Moved L N g W c s s') {j : Pid} (hj : j ∈ s.used) :
    (s'.procs j).trapframe = (s.procs j).trapframe :=
  (congrArg AddrSpace.trapframe (h.space j hj) :)

/-! ## Composition -/

/-- A process born in the first part keeps its pages in the second. -/
theorem Born.later {j : Pid} (hb : Born c s s' j) (h : Moved L N g W c s' s'') (hj : j ∈ s'.used)
    (hjc : j ≠ c) : Born c s s'' j where
  pages v w hw hU := by
    rw [h.space j hj, h.other j hj hjc] at hw
    exact hb.pages v w hw hU
  targets i va hi hva := by
    rw [h.total j hj] at hi
    rw [h.space j hj, h.target j hj i hi] at hva
    exact hb.targets i va hi hva

/-- A process born in the second part has its pages from the regions `c` had
    before the first. -/
theorem Born.earlier {j : Pid} (hb : Born c s' s'' j) (h : Moved L N g W c s s') (hc : c ∈ s.used) :
    Born c s s'' j := by
  have htotal := h.total c hc
  have htarget : ∀ k < (s.procs c).totalMappedRegion,
      regionTarget s'.phys.mem (s'.procs c).space k =
        regionTarget s.phys.mem (s.procs c).space k := fun k hk => by
    rw [h.space c hc]
    exact h.target c hc k hk
  refine ⟨fun v w hw hU => ?_, fun i va hi hva => ?_⟩
  · obtain ⟨k, va, hk, hva, hv⟩ := hb.pages v w hw hU
    rw [htotal] at hk
    exact ⟨k, va, hk, (htarget k hk).symm.trans hva, hv⟩
  · obtain ⟨k, hk, hva⟩ := hb.targets i va hi hva
    rw [htotal] at hk
    exact ⟨k, hk, (htarget k hk).symm.trans hva⟩

theorem Moved.trans (hc : c ∈ s.used) (h : Moved L N g W c s s') (h' : Moved L N g' W c s' s'') :
    Moved L N (g + g') W c s s'' where
  used := h.used.trans h'.used
  space j hj := (h'.space j (h.used hj)).trans (h.space j hj)
  total j hj := (h'.total j (h.used hj)).trans (h.total j hj)
  info j hj := by
    have h1 := h'.info j (h.used hj)
    rw [h.space j hj] at h1
    exact h1.trans (h.info j hj)
  target j hj k hk := by
    have h1 := h'.target j (h.used hj) k (by rwa [h.total j hj])
    rw [h.space j hj] at h1
    exact h1.trans (h.target j hj k hk)
  seg j hj k hk := by
    have h1 := h'.seg j (h.used hj) k (by rwa [h.total j hj])
    rw [h.space j hj] at h1
    exact h1.trans (h.seg j hj k hk)
  frame j hj hjW k hk := by
    have h1 := h'.frame j (h.used hj) hjW k hk
    rw [h.trapframe hj] at h1
    exact h1.trans (h.frame j hj hjW k hk)
  other j hj hjc v := by
    have h1 := h'.other j (h.used hj) hjc v
    rw [h.space j hj] at h1
    exact h1.trans (h.other j hj hjc v)
  self v w hw := by
    have h1 := h'.self v w
    rw [h.space c hc] at h1
    rcases h1 hw with hw' | hv
    · exact h.self v w hw'
    · exact Or.inr hv
  kept v w hw := by
    have h1 := h'.kept v w
    rw [h.space c hc] at h1
    rcases h.kept v w hw with hw' | hv
    · exact h1 hw'
    · exact Or.inr hv
  born j hj hjs := by
    by_cases hj' : j ∈ s'.used
    · refine (h.born j hj' hjs).later h' hj' ?_
      rintro rfl
      exact hjs hc
    · exact (h'.born j hj hj').earlier h hc
  heap := by rw [h'.heap, h.heap, BitVec.add_assoc]
  image p hp := (h'.image p hp).trans (h.image p hp)

theorem Moved.mono {W' : Set Pid} (h : Moved L N g W c s s') (hW : W ⊆ W') :
    Moved L N g W' c s s' :=
  ⟨h.used, h.space, h.total, h.info, h.target, h.seg,
    fun j hj hjW => h.frame j hj fun hw => hjW (hW hw), h.other, h.self, h.kept, h.born, h.heap,
    h.image⟩

/-! ## Single changes -/

theorem MemSame.moved (h : MemSame s s') (L : Layout) (N : Touched) (W : Set Pid) (c : Pid) :
    Moved L N 0 W c s s' where
  used := h.used.ge
  space j _ := h.space j
  total j _ := h.total j
  info _ _ := by rw [h.phys]
  target _ _ _ _ := by rw [h.phys]
  seg _ _ _ _ := by rw [h.phys]
  frame _ _ _ _ _ := by rw [h.phys]
  other _ _ _ _ := by rw [h.phys]
  self v w hw := Or.inl (by rwa [h.phys] at hw)
  kept v w hw := Or.inl (by rwa [h.phys])
  born j hj hjs := absurd (h.used ▸ hj) hjs
  heap := by simp [h.heap]
  image _ _ := by rw [h.phys]

theorem regionTarget_info (hs : Space iso L (s.view s.used s.used) s.phys fl) {m : Mem} {j : Pid}
    (hj : j ∈ s.used)
    (hm : m ((s.procs j).space.own .info) = s.phys.mem ((s.procs j).space.own .info)) {k : ℕ}
    (hk : k < (s.procs j).totalMappedRegion) :
    regionTarget m (s.procs j).space k = regionTarget s.phys.mem (s.procs j).space k := by
  have hhi : (s.procs j).totalMappedRegion ≤ 256 := (hs.ready j hj).regions.hi
  exact regionTarget_congr (a := (s.procs j).space) (hs.aligned j hj) hm (by omega)

theorem regionSeg_info (hs : Space iso L (s.view s.used s.used) s.phys fl) {m : Mem} {j : Pid}
    (hj : j ∈ s.used)
    (hm : m ((s.procs j).space.own .info) = s.phys.mem ((s.procs j).space.own .info)) {k : ℕ}
    (hk : k < (s.procs j).totalMappedRegion) :
    regionSeg m (s.procs j).space k = regionSeg s.phys.mem (s.procs j).space k := by
  have hhi : (s.procs j).totalMappedRegion ≤ 256 := (hs.ready j hj).regions.hi
  rw [regionSeg, regionSecond_congr (a := (s.procs j).space) (hs.aligned j hj) hm (by omega),
    regionSeg]

theorem UserWord.lt {k : ℕ} (hk : UserWord k) : k < 512 := by
  rcases hk with hk | hk <;> omega

theorem trapframe_word (hs : Space iso L (s.view s.used s.used) s.phys fl) {m : Mem} {j : Pid}
    (hj : j ∈ s.used)
    (hm : m ((s.procs j).space.own .trapframe) = s.phys.mem ((s.procs j).space.own .trapframe))
    {k : ℕ} (hk : UserWord k) :
    load64 m ((s.procs j).trapframe + BitVec.ofNat 64 (8 * k)) =
      load64 s.phys.mem ((s.procs j).trapframe + BitVec.ofNat 64 (8 * k)) := by
  rw [hs.load_trapframe hj _ hk.lt, hs.load_trapframe hj _ hk.lt, hm]

theorem FrameOnly.info (h : FrameOnly d s s') (hd : d ∈ s.used)
    (hs : Space iso L (s.view s.used s.used) s.phys fl) {j : Pid} (hj : j ∈ s.used) :
    s'.phys.mem ((s.procs j).space.own .info) = s.phys.mem ((s.procs j).space.own .info) :=
  h.mem _ (hs.own_ne hj hd (by decide))

/-- The trapframe of `d` was written; if `d` is not in `W`, what user mode sees of it
    is as before. -/
theorem FrameOnly.moved (h : FrameOnly d s s') (hd : d ∈ s.used)
    (hs : Space iso L (s.view s.used s.used) s.phys fl)
    (hwords : d ∈ W ∨ ∀ k, UserWord k →
      load64 s'.phys.mem ((s.procs d).trapframe + BitVec.ofNat 64 (8 * k)) =
        load64 s.phys.mem ((s.procs d).trapframe + BitVec.ofNat 64 (8 * k)))
    (hc : c ∈ s.used) (N : Touched) : Moved L N 0 W c s s' where
  used := h.used.ge
  space j _ := by rw [h.procs]
  total j _ := by rw [h.procs]
  info j hj := h.info hd hs hj
  target j hj k hk := regionTarget_info hs hj (h.info hd hs hj) hk
  seg j hj k hk := regionSeg_info hs hj (h.info hd hs hj) hk
  frame j hj hjW k hk := by
    by_cases hjd : j = d
    · subst hjd
      exact hwords.resolve_left hjW k hk
    · exact trapframe_word hs hj
        (h.mem _ fun heq => hjd (hs.own_inj j hj d hd .trapframe .trapframe heq).1) hk
  other j hj _ v :=
    leaf_write (V := s.view s.used s.used) h.mem (hs.own_apart d hd .trapframe).2.1 hj v
  self v w hw := by
    refine Or.inl (Eq.trans (Eq.symm ?_) hw)
    exact leaf_write (V := s.view s.used s.used) h.mem (hs.own_apart d hd .trapframe).2.1 hc v
  kept v w hw := by
    refine Or.inl (Eq.trans ?_ hw)
    exact leaf_write (V := s.view s.used s.used) h.mem (hs.own_apart d hd .trapframe).2.1 hc v
  born j hj hjs := absurd (h.used ▸ hj) hjs
  heap := by simp [h.heap]
  image p hp := h.mem p (hs.image_ne_own hp hd .trapframe)

/-- Physical memory has changed outside the pages the kernel keeps. -/
theorem Moved.ofPhys {ph : Phys} (hs : Space iso L (s.view s.used s.used) s.phys fl)
    (hown : ∀ j ∈ s.used, ∀ k, ph.mem ((s.procs j).space.own k) =
      s.phys.mem ((s.procs j).space.own k))
    (hother : ∀ j ∈ s.used, j ≠ c → ∀ v, translate ph.mem (s.procs j).space.root v =
      translate s.phys.mem (s.procs j).space.root v)
    (hself : ∀ v w, translate ph.mem (s.procs c).space.root v = some w →
      translate s.phys.mem (s.procs c).space.root v = some w ∨ v ∈ N.mapped)
    (hkept : ∀ v w, translate s.phys.mem (s.procs c).space.root v = some w →
      translate ph.mem (s.procs c).space.root v = some w ∨ v ∈ N.unmapped)
    (himage : ∀ p, InImage L p → ph.mem p = s.phys.mem p) {u : Word} (hu : u = s.gUfreePage + g) :
    Moved L N g W c s { s with phys := ph, gUfreePage := u } where
  used := Set.Subset.refl _
  space _ _ := rfl
  total _ _ := rfl
  info _ hj := hown _ hj .info
  target _ hj _ hk := regionTarget_info hs hj (hown _ hj .info) hk
  seg _ hj _ hk := regionSeg_info hs hj (hown _ hj .info) hk
  frame _ hj _ _ hk := trapframe_word hs hj (hown _ hj .trapframe) hk
  other := hother
  self := hself
  kept := hkept
  born _ hj hjs := absurd hj hjs
  heap := hu
  image := himage

section Pages

variable {ph₁ ph₂ : Phys} {fl₁ fl₂ : List Ppn} {v : Vpn} {w : Word}
  (hs : Space iso L (s.view s.used s.used) s.phys fl)

include hs

theorem Moved.mapNone (hs₁ : Space iso L (s.view s.used s.used) ph₁ fl₁)
    (hmem : ph₁.mem = s.phys.mem) (hc : c ∈ s.used)
    (hmap : MapNone (s.view s.used s.used).roots ph₁ fl₁ ph₂ fl₂) :
    Moved L N 0 W c s { s with phys := ph₂ } := by
  have hleaf : ∀ j ∈ s.used, ∀ v', translate ph₂.mem (s.procs j).space.root v' =
      translate s.phys.mem (s.procs j).space.root v' := fun j hj v' => by
    rw [← hmem]
    exact hmap.leaf _ (View.root_mem (V := s.view s.used s.used) hj) v'
  refine Moved.ofPhys hs (fun j hj k => ?_) (fun j hj _ => hleaf j hj)
    (fun v' w' hw' => Or.inl ((hleaf c hc v').symm.trans hw'))
    (fun v' w' hw' => Or.inl ((hleaf c hc v').trans hw')) (fun p hp => ?_) (by simp)
  · rw [← hmem]
    exact hmap.grow.frame_old (hs₁.own_apart j hj k).1 (hs₁.own_apart j hj k).2.1
  · rw [← hmem]
    exact hmap.grow.frame_old (hs₁.image_not_free hp) (hs₁.image_not_table hp)

theorem Moved.unmapOne (hc : c ∈ s.used) (hv : v ∈ N.unmapped)
    (hw : translate s.phys.mem (s.procs c).space.root v = some w) (hU : w &&& PTE_U ≠ 0)
    (hu : UnmapOne (s.view s.used s.used).roots (s.procs c).space.root v (ptePpn w) s.phys fl ph₁) :
    Moved L N 0 W c s { s with phys := ph₁ } := by
  have hspare := hs.user c hc v w hw hU
  have hleaf : ∀ j ∈ s.used, ∀ v', translate ph₁.mem (s.procs j).space.root v' =
      if (s.procs j).space.root = (s.procs c).space.root ∧ v' = v then none
      else translate s.phys.mem (s.procs j).space.root v' :=
    fun j hj v' => hu.leaf _ (View.root_mem (V := s.view s.used s.used) hj) v'
  refine Moved.ofPhys hs (fun j hj k => ?_) (fun j hj hjc v' => ?_) (fun v' w' hw' => ?_)
    (fun v' w' hw' => ?_) (fun p hp => ?_) (by simp)
  · exact hu.frame _ (hs.own_apart j hj k).2.1 (hspare.own j hj k).symm
  · rw [hleaf j hj, if_neg]
    exact fun h => hjc (hs.root_inj j hj c hc h.1)
  · rw [hleaf c hc] at hw'
    split_ifs at hw' with h
    exact Or.inl hw'
  · rw [hleaf c hc]
    by_cases hv' : v' = v
    · exact Or.inr (hv' ▸ hv)
    · rw [if_neg fun h => hv' h.2]
      exact Or.inl hw'
  · exact hu.frame p (hs.image_not_table hp) (hs.image_ne_spare hp hspare)

end Pages

theorem ForkMade.moved {child : Pid} {fl' : List Ppn}
    (h : ForkMade iso L s.used c child s fl s' fl')
    (hs : Space iso L (s.view s.used s.used) s.phys fl) (hc : c ∈ s.used) (hchild : child ∉ s.used)
    (hused : s'.used = insert child s.used) (N : Touched) : Moved L N 0 W c s s' := by
  have hne : ∀ j ∈ s.used, j ≠ child := by
    rintro j hj rfl
    exact hchild hj
  have hown : ∀ j ∈ s.used, ∀ k, s'.phys.mem ((s.procs j).space.own k) =
      s.phys.mem ((s.procs j).space.own k) := fun j hj k =>
    h.frame _ (hs.own_apart j hj k).1 (hs.own_apart j hj k).2.1
  refine ⟨?_, fun j hj => (h.same j (hne j hj)).1, fun j hj => (h.same j (hne j hj)).2,
    fun j hj => hown j hj .info,
    fun j hj k hk => regionTarget_info hs hj (hown j hj .info) hk,
    fun j hj k hk => regionSeg_info hs hj (hown j hj .info) hk,
    fun j hj _ k hk => trapframe_word hs hj (hown j hj .trapframe) hk, fun j hj _ => h.leaf j hj,
    fun v w hw => Or.inl ((h.leaf c hc v).symm.trans hw),
    fun v w hw => Or.inl ((h.leaf c hc v).trans hw), fun j hj hjs => ?_, ?_,
    fun p hp => h.frame p (hs.image_not_free hp) (hs.image_not_table hp)⟩
  · rw [hused]
    exact Set.subset_insert _ _
  · rw [hused] at hj
    obtain rfl := hj.resolve_right hjs
    exact ⟨h.new, h.targets⟩
  · simp [h.heap]

/-! ## Leaving the kernel -/

/-- `switch_to` writes only the words of the trapframe that the kernel reads. -/
theorem afterSwitch_word (L : Layout) (i : Pid) (s : Kernel) {k : ℕ} (hk : UserWord k) :
    load64 (afterSwitch L i s).phys.mem ((s.procs i).trapframe + BitVec.ofNat 64 (8 * k)) =
      load64 s.phys.mem ((s.procs i).trapframe + BitVec.ofNat 64 (8 * k)) := by
  have hlt := hk.lt
  have h : ∀ (m : Mem) (v : Word) (j : ℕ), j = 31 ∨ j = 32 ∨ j = 34 →
      load64 (store64 m ((s.procs i).trapframe + BitVec.ofNat 64 (8 * j)) v)
        ((s.procs i).trapframe + BitVec.ofNat 64 (8 * k)) =
      load64 m ((s.procs i).trapframe + BitVec.ofNat 64 (8 * k)) := fun m v j hj => by
    rw [load_dword_store _ _ _ (by omega) (by omega), if_neg]
    rcases hk with hk | hk <;> omega
  exact (h _ _ 32 (by omega)).trans ((h _ _ 34 (by omega)).trans (h _ _ 31 (by omega)))

theorem MemInv.switched_moved (hm : MemInv iso L s) (hc : c ∈ s.used) (h : Switched L s s')
    (N : Touched) : Moved L N 0 ∅ c s s' := by
  obtain ⟨q, s₁, hsame, hq, rfl⟩ := h
  have hm₁ := hm.same hsame
  obtain ⟨fl, hs₁⟩ := hm₁.space
  have hc₁ : c ∈ s₁.used := by rwa [hsame.used]
  have hmoved := (afterSwitch_frameOnly (L := L) (hm₁.aligned hq)).moved (W := ∅) hq hs₁
    (Or.inr fun k => afterSwitch_word L q s₁) hc₁ N
  simpa using (hsame.moved L N ∅ c).trans hc hmoved

end Pke
