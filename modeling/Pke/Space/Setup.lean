import Pke.Space.Alloc

/-!
# A process that is set up

The second half of `alloc_process`: mapping the stack, the trapframe and the
trap section of the new process and recording them.
-/

namespace Pke

open Lib Radix

variable {iso : Prop} {L : Layout} {V : View} {ph : Phys} {fl fl' : List Ppn} {i : Pid}
  {us : Ppn} {s s' : Kernel}

/-! ## The three pages are different -/

theorem vpn_ne {a b : Word} (ha : a.toNat < 2 ^ 39) (hb : b.toNat < 2 ^ 39)
    (h : a.toNat / 4096 ≠ b.toNat / 4096) : vpn a ≠ vpn b := by
  intro heq
  have := congrArg BitVec.toNat heq
  rw [vpn_toNat ha, vpn_toNat hb] at this
  exact h this

theorem Space.trapframe_toNat (h : Space iso L V ph fl) (hi : i ∈ V.all) :
    2 ^ 31 ≤ (V.procs i).trapframe.toNat ∧ (V.procs i).trapframe.toNat < 2 ^ 32 := by
  rw [← (h.aligned i hi).trapframe, addr_toNat]
  exact h.managed_toNat (h.own_apart i hi .trapframe).2.2

theorem Space.trapSec_toNat (h : Space iso L V ph fl) (hi : i ∈ V.all) :
    2 ^ 31 ≤ L.trapSecStart.toNat ∧ L.trapSecStart.toNat < 2 ^ 32 := by
  have h1 := (h.own_apart i hi .trapframe).2.2.1
  have h2 := h.managed_toNat (h.own_apart i hi .trapframe).2.2
  have h3 := h.lo
  have h4 := L.base_le_trapSec
  have h5 := L.trapSec_lt_etext
  have h6 := L.etext_le_kend
  rw [BitVec.le_def, addr_toNat] at h1
  rw [BitVec.le_def] at h3 h4 h6
  rw [BitVec.lt_def] at h5
  rw [show KERN_BASE.toNat = 2 ^ 31 from rfl] at h4
  omega

theorem Space.trapSec_ne_trapframe (h : Space iso L V ph fl) (hi : i ∈ V.all) :
    vpn L.trapSecStart ≠ vpn (V.procs i).trapframe := by
  have h1 := h.trapSec_toNat hi
  have h2 := h.trapframe_toNat hi
  refine vpn_ne (by omega) (by omega) fun heq => h.trapSec_not_managed ?_
  have hpage : ppn L.trapSecStart = (V.procs i).own .trapframe :=
    BitVec.eq_of_toNat_eq (by rw [AddrSpace.own, ppn_toNat, ppn_toNat, heq])
  rw [hpage]
  exact (h.own_apart i hi .trapframe).2.2

theorem toNat_stack : (USER_STACK_TOP - PGSIZE).toNat = 2147475456 := by decide

theorem Space.trapframe_ne_stack (h : Space iso L V ph fl) (hi : i ∈ V.all) :
    vpn (V.procs i).trapframe ≠ stackVpn := by
  have h1 := h.trapframe_toNat hi
  refine vpn_ne (by omega) ?_ ?_ <;> rw [toNat_stack] <;> omega

theorem Space.trapSec_ne_stack (h : Space iso L V ph fl) (hi : i ∈ V.all) :
    vpn L.trapSecStart ≠ stackVpn := by
  have h1 := h.trapSec_toNat hi
  refine vpn_ne (by omega) ?_ ?_ <;> rw [toNat_stack] <;> omega

theorem lt_MAXVA {a : Word} (h : a.toNat < 2 ^ 38) : a < MAXVA := by
  rw [BitVec.lt_def, show MAXVA.toNat = 2 ^ 38 from rfl]
  exact h

/-! ## `mapInitial` -/

/-- What `mapInitial` does for process `i` with the user stack in the page `us`. -/
structure Initial (iso : Prop) (L : Layout) (V : View) (s : Kernel) (fl : List Ppn) (i : Pid)
    (us : Ppn) (s' : Kernel) (fl' : List Ppn) : Prop where
  rest : s' = { s with
    phys := s'.phys
    procs := Function.update s.procs i { s.procs i with totalMappedRegion := 3 }
    console := s'.console }
  space : Space iso L ⟨V.procs, Function.update V.total i 3, V.kroot, V.all, insert i V.ready⟩
    s'.phys fl'
  leaf : ∀ v, V.leaf s'.phys i v = initialLeaf L (V.procs i) us v
  other : ∀ j ∈ V.all, j ≠ i → ∀ v, V.leaf s'.phys j v = V.leaf s.phys j v
  frame : ∀ q, q ∉ fl → q ∉ tablePages s.phys.mem V.roots → q ≠ (V.procs i).own .info →
    s'.phys.mem q = s.phys.mem q
  regions : ∀ k, 3 ≤ k → k < 256 → regionVa s'.phys.mem (V.procs i) k = 0 ∧
    regionSecond s'.phys.mem (V.procs i) k = 0
  popped : ∃ new, fl = new ++ fl' ∧
    tablePages s'.phys.mem V.roots = tablePages s.phys.mem V.roots ∪ {p | p ∈ new}
  managed : ∀ q, Managed s.phys q → Managed s'.phys q
  length : fl.length ≤ fl'.length + 6

/-- On the way: the entries of process `i` are `leaves`, and its list of regions
    reads as in the memory `m`. -/
structure Progress (iso : Prop) (L : Layout) (V : View) (s : Kernel) (fl : List Ppn) (i : Pid)
    (leaves : Vpn → Option Word) (m : Mem) (s' : Kernel) (fl' : List Ppn) : Prop where
  space : Space iso L V s'.phys fl'
  only : PhysOnly s s'
  leaf : ∀ v, V.leaf s'.phys i v = leaves v
  other : ∀ j ∈ V.all, j ≠ i → ∀ v, V.leaf s'.phys j v = V.leaf s.phys j v
  frame : ∀ q, q ∉ tablePages s'.phys.mem V.roots → q ≠ (V.procs i).own .info →
    s'.phys.mem q = s.phys.mem q
  info : s'.phys.mem ((V.procs i).own .info) = m ((V.procs i).own .info)
  popped : ∃ new, fl = new ++ fl' ∧
    tablePages s'.phys.mem V.roots = tablePages s.phys.mem V.roots ∪ {p | p ∈ new}
  managed : ∀ q, Managed s.phys q → Managed s'.phys q

namespace Progress

variable {leaves : Vpn → Option Word} {m : Mem} {s'' : Kernel} {fl'' : List Ppn} {v : Vpn}
  {w : Word}

theorem map (h : Progress iso L V s fl i leaves m s' fl') (hi : i ∈ V.all)
    (hs : PhysOnly s' s'')
    (hmap : MapOne V.roots (V.procs i).root v w s'.phys fl' s''.phys fl'')
    (hnew : NewLeaf iso L V s'.phys fl' i v w) :
    Progress iso L V s fl i (Function.update leaves v (some w)) m s'' fl'' := by
  have hleaf := fun j (hj : j ∈ V.all) => h.space.leaf_mapOne hi hmap hj
  obtain ⟨new, hfl, hpages⟩ := h.popped
  obtain ⟨new', hfl', hpages'⟩ := hmap.grow.popped
  have hspace := h.space.mapOne hi hmap hnew
  refine ⟨hspace, h.only.trans hs, fun v' => ?_, fun j hj hji v' => ?_, fun q hq hqi => ?_, ?_,
    ⟨new ++ new', ?_, ?_⟩,
    fun q hq => (h.managed q hq).evolve (h.space.evolves_grow hmap.grow)⟩
  · rw [hleaf i hi v']
    by_cases hv : v' = v
    · subst hv
      rw [if_pos ⟨rfl, rfl⟩, Function.update_self]
    · rw [if_neg (fun hc => hv hc.2), Function.update_of_ne hv, h.leaf v']
  · rw [hleaf j hj v', if_neg (fun hc => hji hc.1), h.other j hj hji v']
  · exact (hmap.grow.frame q hq).trans
      (h.frame q (fun hm => hq (hmap.grow.tablePages_subset hm)) hqi)
  · exact (hmap.grow.frame _ (hspace.own_apart i hi .info).2.1).trans h.info
  · rw [hfl, hfl', List.append_assoc]
  · rw [hpages', hpages, Set.union_assoc]
    congr 1
    ext p
    simp

theorem record (h : Progress iso L V s fl i leaves m s' fl') (hi : i ∈ V.all)
    (hready : i ∉ V.ready) (hs : PhysOnly s' s'') {k : ℕ} (hk : k < 256) {va : Word}
    {npages : BitVec 32} {seg : SegType}
    (hrec : s''.phys = { s'.phys with
      mem := recordRegion s'.phys.mem (V.procs i) k va npages seg }) :
    Progress iso L V s fl i leaves (recordRegion m (V.procs i) k va npages seg) s'' fl' := by
  have hal := h.space.aligned i hi
  obtain ⟨hfl, htab, -⟩ := h.space.own_apart i hi .info
  have hne : ∀ q, q ≠ (V.procs i).own .info →
      recordRegion s'.phys.mem (V.procs i) k va npages seg q = s'.phys.mem q := fun q hq =>
    recordRegion_of_ne hal hk hq
  have hspace := h.space.write hne hfl htab fun j hj heq => hready
    ((h.space.own_inj i hi j (h.space.ready_sub hj) _ _ heq).1 ▸ hj)
  have hpages : tablePages s''.phys.mem V.roots = tablePages s'.phys.mem V.roots := by
    rw [hrec]
    exact nodes_congr fun q hq => hne q (by rintro rfl; exact htab hq)
  have hleaf : ∀ j ∈ V.all, ∀ v, V.leaf s''.phys j v = V.leaf s'.phys j v := by
    rw [hrec]
    exact fun j hj v => leaf_write hne htab hj v
  refine ⟨hrec ▸ hspace, h.only.trans hs, fun v => ?_, fun j hj hji v => ?_, fun q hq hqi => ?_, ?_,
    ?_, ?_⟩
  · rw [hleaf i hi, h.leaf]
  · rw [hleaf j hj, h.other j hj hji]
  · rw [hpages] at hq
    rw [hrec]
    exact (hne q hqi).trans (h.frame q hq hqi)
  · rw [hrec]
    exact recordRegion_congr hal hk h.info
  · rw [hpages]
    exact h.popped
  · rw [hrec]
    exact h.managed

/-- The end of the way. -/
theorem initial (h : Progress iso L V s fl i (initialLeaf L (V.procs i) us)
      (recordRegion (recordRegion (recordRegion s.phys.mem (V.procs i) 0 (USER_STACK_TOP - PGSIZE) 1
        .STACK) (V.procs i) 1 (V.procs i).trapframe 1 .CONTEXT) (V.procs i) 2 L.trapSecStart 1
        .SYSTEM) s' fl')
    (hi : i ∈ V.all) (hready : i ∉ V.ready)
    (hinfo : ∀ k, s.phys.mem ((V.procs i).own .info) k = 0) (hlen : fl.length ≤ fl'.length + 6)
    (hphys : s''.phys = s'.phys)
    (hrest : s'' = { s with
      phys := s''.phys
      procs := Function.update s.procs i { s.procs i with totalMappedRegion := 3 }
      console := s''.console }) : Initial iso L V s fl i us s'' fl' := by
  have hal := h.space.aligned i hi
  have hready_i : Ready L s'.phys.mem (V.procs i) 3 := by
    refine ⟨?_, ?_, Regions.initial.congr hal h.info⟩
    · refine (h.leaf _).trans ?_
      rw [initialLeaf, if_neg (h.space.trapSec_ne_trapframe hi).symm, if_pos rfl]
    · refine (h.leaf _).trans ?_
      rw [initialLeaf, if_pos rfl]
  refine ⟨hrest, ?_, ?_, ?_, ?_, ?_, ?_, ?_, hlen⟩ <;> rw [hphys]
  · refine h.space.withReady (Set.insert_subset hi h.space.ready_sub) ?_
    rintro j (rfl | hj)
    · rw [Function.update_self]
      exact hready_i
    · rw [Function.update_of_ne (by rintro rfl; exact hready hj)]
      exact h.space.ready j hj
  · exact h.leaf
  · exact h.other
  · intro q hfl htab hqi
    refine h.frame q (fun hq => ?_) hqi
    obtain ⟨new, hnew, hpages⟩ := h.popped
    rw [hpages] at hq
    rcases hq with hq | hq
    · exact htab hq
    · exact hfl (hnew ▸ List.mem_append_left _ hq)
  · -- the entries behind the third are those of the cleared page
    intro k h3 hk
    have hzero : ∀ a, ppn a = (V.procs i).own .info → load64 s.phys.mem a = 0 := by
      intro a ha
      rw [load64, ha, hinfo]
    have h0 := regionAddr_ppn hal (o := 0) hk (by omega)
    rw [BitVec.add_zero] at h0
    constructor
    · rw [regionVa_congr hal h.info hk, regionVa_recordRegion (by omega) hk,
        regionVa_recordRegion (by omega) hk, regionVa_recordRegion (by omega) hk,
        if_neg (by omega), if_neg (by omega), if_neg (by omega)]
      exact hzero _ h0
    · rw [regionSecond_congr hal h.info hk, regionSecond_recordRegion (by omega) hk,
        regionSecond_recordRegion (by omega) hk, regionSecond_recordRegion (by omega) hk,
        if_neg (by omega), if_neg (by omega), if_neg (by omega)]
      exact hzero _ (regionAddr_ppn hal (o := 8) hk (by omega))
  · exact h.popped
  · exact h.managed

end Progress

theorem mapInitial_space (h : Space iso L V s.phys fl) (hi : i ∈ V.all) (hready : i ∉ V.ready)
    (hproc : (s.procs i).space = V.procs i) (hnone : ∀ v, V.leaf s.phys i v = none)
    (hus : V.Fresh s.phys fl us) (hinfo : ∀ k, s.phys.mem ((V.procs i).own .info) k = 0) :
    Prog.wp (mapInitial L i (addr us)) (fun _ s' => ∃ fl', Initial iso L V s fl i us s' fl')
      (fun _ => False) (fun _ => fl.length < 6) s := by
  have hpt : (s.procs i).pagetable = (V.procs i).pagetable := congrArg AddrSpace.pagetable hproc
  have htf : (s.procs i).trapframe = (V.procs i).trapframe := congrArg AddrSpace.trapframe hproc
  have hmi : (s.procs i).mappedInfo = (V.procs i).mappedInfo :=
    congrArg AddrSpace.mappedInfo hproc
  have htfal := (h.aligned i hi).trapframe
  have htfN := h.trapframe_toNat hi
  have htsN := h.trapSec_toNat hi
  have hts_tf := h.trapSec_ne_trapframe hi
  have htf_st := h.trapframe_ne_stack hi
  have hts_st := h.trapSec_ne_stack hi
  have h₀ : Progress iso L V s fl i (fun _ => none) s.phys.mem s fl :=
    ⟨h, rfl, hnone, fun _ _ _ _ => rfl, fun _ _ _ => rfl, rfl, ⟨[], rfl, by simp⟩,
      fun _ h => h⟩
  unfold mapInitial
  rw [proc, Prog.wp_bind, Prog.wp_gets, hpt, htf, hmi]
  -- the user stack
  refine wp_userVmMap h hi (Or.inr ⟨rfl, by decide⟩) (fun _ hn _ => ?_)
    fun s₁ fl₁ hs₁ _ hmap₁ hlen₁ _ => ?_
  · by_contra hlen
    exact hn ⟨by decide, hnone _, Or.inl (by omega)⟩
  have h₁ := h₀.map hi hs₁ hmap₁ (hus.newLeaf i _ (by rw [ptePpn_mkPte _ (by decide), ppn_addr])
    (userData_leaf_user _) (userData_leaf_readable _))
  refine wp_storeRegion (a := V.procs i) fun s₂ hs₂ hrec₂ => ?_
  have h₂ := h₁.record hi hready hs₂ (by omega) hrec₂
  -- the trapframe
  refine wp_userVmMap h₂.space hi (Or.inr ⟨rfl, by rw [← htfal]; exact addr_mod _⟩)
    (fun _ hn _ => ?_)
    fun s₃ fl₃ hs₃ _ hmap₃ hlen₃ _ => ?_
  · by_contra hlen
    refine hn ⟨lt_MAXVA (by omega), ?_, Or.inl (by omega)⟩
    rw [h₂.leaf, Function.update_of_ne htf_st]
  have h₃ := h₂.map hi hs₃ hmap₃ ⟨fun hU => absurd (trapframe_leaf_kernel _) hU,
    fun hU => absurd (trapframe_leaf_kernel _) hU,
    fun _ hU => absurd (trapframe_leaf_kernel _) hU, fun _ => Or.inl ⟨rfl, rfl⟩⟩
  refine wp_storeRegion (a := V.procs i) fun s₄ hs₄ hrec₄ => ?_
  have h₄ := h₃.record hi hready hs₄ (by omega) hrec₄
  -- the trap section
  refine wp_userVmMap h₄.space hi (Or.inr ⟨rfl, L.trapSec_aligned⟩) (fun _ hn _ => ?_)
    fun s₅ fl₅ hs₅ _ hmap₅ hlen₅ _ => ?_
  · by_contra hlen
    refine hn ⟨lt_MAXVA (by omega), ?_, Or.inl (by omega)⟩
    rw [h₄.leaf, Function.update_of_ne hts_tf, Function.update_of_ne hts_st]
  have h₅ := h₄.map hi hs₅ hmap₅ ⟨fun hU => absurd (trapSec_leaf_kernel _) hU,
    fun hU => absurd (trapSec_leaf_kernel _) hU,
    fun _ hU => absurd (trapSec_leaf_kernel _) hU, fun _ => Or.inr ⟨rfl, rfl⟩⟩
  refine wp_storeRegion (a := V.procs i) fun s₆ hs₆ hrec₆ => ?_
  have h₆ := h₅.record hi hready hs₆ (by omega) hrec₆
  have hleaves : (Function.update (Function.update (Function.update (fun _ => none) stackVpn
      (some (mkPte (addr us) userDataPerm))) (vpn (V.procs i).trapframe)
      (some (mkPte (V.procs i).trapframe trapframePerm))) (vpn L.trapSecStart)
      (some (mkPte L.trapSecStart trapSecPerm)) : Vpn → Option Word) =
      initialLeaf L (V.procs i) us := by
    funext v
    simp only [initialLeaf, Function.update_apply]
  rw [hleaves] at h₆
  have honly := h₆.only
  rw [Prog.wp_bind, wp_onPhys, load, Prog.wp_gets, sprint, Prog.wp_bind, Prog.wp_modify, setProc,
    Prog.wp_modify]
  refine ⟨fl₅, h₆.initial hi hready hinfo (by omega) rfl ?_⟩
  clear hs₆ hrec₆ h₆ hs₅
  unfold PhysOnly at honly
  generalize s₆.phys = ph at honly
  subst honly
  rfl

/-! ## `alloc_process` -/

/-- What setting up process `i` does. -/
structure Created (iso : Prop) (L : Layout) (P : Set Pid) (s : Kernel) (fl : List Ppn) (i : Pid)
    (us : Ppn) (s' : Kernel) (fl' : List Ppn) : Prop where
  space : Space iso L (s'.view (insert i P) (insert i P)) s'.phys fl'
  rest : s' = { s with
    phys := s'.phys
    procs := Function.update s.procs i (s'.procs i)
    console := s'.console }
  total : (s'.procs i).totalMappedRegion = 3
  leaf : ∀ v, translate s'.phys.mem (s'.procs i).space.root v =
    initialLeaf L (s'.procs i).space us v
  stack : Managed s'.phys us
  other : ∀ j ∈ P, ∀ v, translate s'.phys.mem (s.procs j).space.root v =
    translate s.phys.mem (s.procs j).space.root v
  frame : ∀ q, q ∉ fl → q ∉ tablePages s.phys.mem (s.view P P).roots →
    s'.phys.mem q = s.phys.mem q
  regions : ∀ k, 3 ≤ k → k < 256 → regionVa s'.phys.mem (s'.procs i).space k = 0 ∧
    regionSecond s'.phys.mem (s'.procs i).space k = 0
  popped : ∃ tf pt ks mi new, fl = tf :: pt :: ks :: us :: mi :: (new ++ fl') ∧
    tablePages s'.phys.mem (s'.view (insert i P) (insert i P)).roots =
      insert pt (tablePages s.phys.mem (s.view P P).roots) ∪ {p | p ∈ new}
  own : ∀ k, (s'.procs i).space.own k ∈ fl
  length : fl.length ≤ fl'.length + 11

/-- The view after `mapInitial` is that of the new process table. -/
theorem Initial.view_eq {P : Set Pid} {s₁ : Kernel} {p : Process}
    (hs₁ : s₁ = { s with phys := s₁.phys, procs := Function.update s.procs i p })
    (h : Initial iso L ((s.view P P).add i p.space) s₁ fl i us s' fl') :
    s'.view (insert i P) (insert i P) =
      ⟨((s.view P P).add i p.space).procs, Function.update (s.view P P).total i 3,
        (s.view P P).kroot, insert i P, insert i P⟩ := by
  have hprocs : ∀ j, s'.procs j =
      if j = i then { p with totalMappedRegion := 3 } else s.procs j := by
    intro j
    rw [h.rest, hs₁]
    by_cases hj : j = i
    · subst hj
      simp
    · simp [hj]
  have hroot : s'.gKernelPagetable = s.gKernelPagetable := by rw [h.rest, hs₁]
  unfold Kernel.view
  congr 1
  · funext j
    rw [hprocs j]
    by_cases hj : j = i
    · subst hj
      rw [if_pos rfl, View.add_procs_self]
      rfl
    · rw [if_neg hj, View.add_procs_of_ne hj]
  · funext j
    rw [hprocs j]
    by_cases hj : j = i
    · subst hj
      simp
    · simp [hj]
  · rw [hroot]

theorem initVmSpace_space {P : Set Pid} (h : Space iso L (s.view P P) s.phys fl) (hi : i ∉ P) :
    Prog.wp (initVmSpace L i) (fun _ s' => ∃ us fl', Created iso L P s fl i us s' fl')
      (fun _ => False) (fun _ => fl.length < 11) s := by
  refine Prog.wp_bind.mpr (Prog.wp_mono (takePages_space (i := i) h) ?_ (fun _ h => h)
    fun _ h => by omega)
  rintro _ s₁ ⟨us, fl₁, rfl, htaken⟩
  obtain ⟨tf, pt, ks, mi, hfl, hs₁⟩ := htaken.taken
  have hroot : (s₁.procs i).space.root = pt := by
    rw [hs₁]
    simp [withPages_root]
  have hpages : tablePages s₁.phys.mem (s.view P P).roots =
      tablePages s.phys.mem (s.view P P).roots :=
    nodes_congr fun q hq => htaken.frame q (h.tables.apart q hq)
  have hs₁' : s₁ = { s with phys := s₁.phys, procs := Function.update s.procs i (s₁.procs i) } := by
    conv_lhs => rw [hs₁]
    rw [hs₁]
    simp
  have hself : ((s.view P P).add i (s₁.procs i).space).procs i = (s₁.procs i).space :=
    View.add_procs_self
  have hspace₁ := htaken.space.add (i := i) hi htaken.new
  refine Prog.wp_mono (mapInitial_space hspace₁ (Set.mem_insert _ _) hi hself.symm
    htaken.new.leaf_self (htaken.stack.add hi htaken.new htaken.stack_root htaken.stack_own)
    (by rw [hself]; exact htaken.info)) ?_ (fun _ h => h) ?_
  · rintro _ s' ⟨fl', hinit⟩
    have hview := hinit.view_eq hs₁'
    have hspace_i : (s'.procs i).space = (s₁.procs i).space := by
      rw [hinit.rest]
      simp [Process.space]
    have hpages₁ := htaken.new.tablePages_eq (i := i) hi
    rw [hroot, hpages] at hpages₁
    have hown : ∀ k, ((s₁.procs i).space).own k ∈ fl := by
      intro k
      rw [hs₁, hfl]
      cases k <;> simp [withPages_own]
    obtain ⟨new, hnew, hgrow⟩ := hinit.popped
    rw [hpages₁] at hgrow
    refine ⟨us, fl', ?_, ?_, ?_, ?_, ?_, ?_, ?_, ?_, ⟨tf, pt, ks, mi, new, ?_, ?_⟩, ?_, ?_⟩
    · rw [hview]
      exact hinit.space
    · rw [hinit.rest, hs₁']
      simp
    · rw [hinit.rest]
      simp
    · intro v
      rw [hspace_i, ← hself]
      exact hinit.leaf v
    · exact hinit.managed us htaken.stack.managed
    · intro j hj v
      have hji : j ≠ i := by
        rintro rfl
        exact hi hj
      have hother := hinit.other j (Set.mem_insert_of_mem _ hj) hji v
      rw [View.leaf, View.leaf, View.add_procs_of_ne hji] at hother
      refine hother.trans (translate_congr (R := (s.view P P).roots) (fun q hq => ?_)
        (View.root_mem (V := s.view P P) hj) v)
      exact htaken.frame q (h.tables.apart q hq)
    · intro q hqfl hqtab
      refine (hinit.frame q ?_ ?_ ?_).trans (htaken.frame q hqfl)
      · intro hq
        exact hqfl (by rw [hfl]; simp [hq])
      · rw [hpages₁]
        rintro (rfl | hq)
        · exact hqfl (by rw [hfl]; simp)
        · exact hqtab hq
      · rw [hself]
        rintro rfl
        exact hqfl (hown .info)
    · rw [hspace_i, ← hself]
      exact hinit.regions
    · rw [hfl, hnew]
    · rw [hview]
      exact hgrow
    · rw [hspace_i]
      exact hown
    · have := hinit.length
      rw [hfl]
      simp only [List.length_cons]
      omega
  · intro _ hlen
    rw [hfl]
    simp only [List.length_cons]
    omega

theorem allocProcess_space {P : Set Pid} (h : Space iso L (s.view P P) s.phys fl)
    (hP : ∀ j ∈ P, (s.procs j).status ≠ .FREE) :
    Prog.wp (allocProcess L)
      (fun i s' => firstFree s.procs = some i ∧ i ∉ P ∧ ∃ us fl', Created iso L P s fl i us s' fl')
      (fun _ => False) (fun _ => fl.length < 11 ∨ firstFree s.procs = none) s := by
  rw [allocProcess, Prog.wp_bind, Prog.wp_gets]
  cases hf : firstFree s.procs with
  | none => exact Or.inr rfl
  | some i =>
    have hfree : (s.procs i).status = .FREE := by
      simpa using List.find?_some hf
    have hi : i ∉ P := fun hi => hP i hi hfree
    refine Prog.wp_bind.mpr (Prog.wp_mono (initVmSpace_space h hi) ?_ (fun _ h => h)
      fun _ h => Or.inl h)
    exact fun _ s' hs' => ⟨rfl, hi, hs'⟩

/-! ## The new process -/

section Created

variable {P : Set Pid} {fl₂ : List Ppn} {child : Pid} {s₂ : Kernel}
  (hcr : Created iso L P s fl child us s₂ fl₂)

include hcr

/-- A process other than the new one is as before `alloc_process`. -/
theorem Created.procs_eq {j : Pid} (hj : j ≠ child) : s₂.procs j = s.procs j := by
  rw [hcr.rest]
  exact Function.update_of_ne hj _ _

theorem Created.stack_leaf : translate s₂.phys.mem (s₂.procs child).space.root stackVpn =
    some (mkPte (addr us) userDataPerm) := by
  have hi : child ∈ (s₂.view (insert child P) (insert child P)).all := Set.mem_insert _ _
  have htf : vpn (s₂.procs child).space.trapframe ≠ stackVpn := hcr.space.trapframe_ne_stack hi
  rw [hcr.leaf, initialLeaf, if_neg (hcr.space.trapSec_ne_stack hi).symm, if_neg htf.symm,
    if_pos rfl]

/-- The only page of user mode in a new process is its stack. -/
theorem Created.user_leaf {v : Vpn} {w : Word}
    (hw : translate s₂.phys.mem (s₂.procs child).space.root v = some w) (hU : w &&& PTE_U ≠ 0) :
    v = stackVpn := by
  rw [hcr.leaf, initialLeaf] at hw
  split_ifs at hw with h1 h2 h3
  · obtain rfl := Option.some.inj hw
    exact absurd (trapSec_leaf_kernel _) hU
  · obtain rfl := Option.some.inj hw
    exact absurd (trapframe_leaf_kernel _) hU
  · exact h3

/-- A page below the kernel other than the stack is not mapped in a new process. -/
theorem Created.unmapped {va : Word} (hlow : va < KERN_BASE) (hstack : vpn va ≠ stackVpn) :
    translate s₂.phys.mem (s₂.procs child).space.root (vpn va) = none := by
  rw [BitVec.lt_def, show KERN_BASE.toNat = 2 ^ 31 from rfl] at hlow
  have hi : child ∈ (s₂.view (insert child P) (insert child P)).all := Set.mem_insert _ _
  have h1 : 2 ^ 31 ≤ (s₂.procs child).space.trapframe.toNat ∧
      (s₂.procs child).space.trapframe.toNat < 2 ^ 32 := hcr.space.trapframe_toNat hi
  have h2 := hcr.space.trapSec_toNat hi
  rw [hcr.leaf, initialLeaf, if_neg (vpn_ne (by omega) (by omega) (by omega)),
    if_neg (vpn_ne (by omega) (by omega) (by omega)), if_neg hstack]

end Created

end Pke
