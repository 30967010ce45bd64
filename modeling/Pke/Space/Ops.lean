import Pke.Space.Basic

/-!
# Operations that keep the memory of the processes in order

`Space.evolve` is the common argument: when no page becomes free or a table that
was neither before, only the entries that are new have to be looked at.
-/

namespace Pke

open Lib Radix

variable {iso : Prop} {L : Layout} {V : View} {ph ph' : Phys} {fl fl' : List Ppn} {i : Pid}
  {v : Vpn} {w : Word} {p f : Ppn}

/-- The free list and the tables took no page from elsewhere, and the lists of
    regions are as before. -/
structure Evolves (V : View) (ph : Phys) (fl : List Ppn) (ph' : Phys) (fl' : List Ppn) :
    Prop where
  tables : Tables V.roots ph' fl'
  sub : ∀ p, p ∈ fl' ∨ p ∈ tablePages ph'.mem V.roots → p ∈ fl ∨ p ∈ tablePages ph.mem V.roots
  start : ph'.freeMemStartAddr = ph.freeMemStartAddr
  last : ph'.freeMemEndAddr = ph.freeMemEndAddr
  info : ∀ i ∈ V.ready, ph'.mem ((V.procs i).own .info) = ph.mem ((V.procs i).own .info)

/-- The entry `w` may be added to the table of process `i`. -/
structure NewLeaf (iso : Prop) (L : Layout) (V : View) (ph : Phys) (fl : List Ppn) (i : Pid)
    (v : Vpn) (w : Word) : Prop where
  user : w &&& PTE_U ≠ 0 → V.Spare ph fl (ptePpn w)
  readable : w &&& PTE_U ≠ 0 → w &&& PTE_R ≠ 0
  foreign : iso → w &&& PTE_U ≠ 0 → ∀ j ∈ V.all, j ≠ i → ∀ v' w', V.leaf ph j v' = some w' →
    w' &&& PTE_U ≠ 0 → ptePpn w' ≠ ptePpn w
  kernel : w &&& PTE_U = 0 → KernelLeaf L (V.procs i) v w

theorem Managed.evolve (hp : Managed ph p) (he : Evolves V ph fl ph' fl') : Managed ph' p := by
  unfold Managed
  rw [he.start, he.last]
  exact hp

theorem View.Spare.evolve (hf : V.Spare ph fl f) (he : Evolves V ph fl ph' fl') :
    V.Spare ph' fl' f where
  free h := (he.sub f (Or.inl h)).elim hf.free hf.table
  table h := (he.sub f (Or.inr h)).elim hf.free hf.table
  own := hf.own
  range := hf.range.imp_left fun hm => hm.evolve he

/-- The common argument: every entry is an old one or a new one of process `i₀`. -/
theorem Space.evolve (h : Space iso L V ph fl) (he : Evolves V ph fl ph' fl') (i₀ : Pid)
    (hleaf : ∀ i ∈ V.all, ∀ v w, V.leaf ph' i v = some w →
      V.leaf ph i v = some w ∨ i = i₀ ∧ NewLeaf iso L V ph fl i v w)
    (hkeep : ∀ i ∈ V.ready, ∀ v w, V.leaf ph i v = some w → V.leaf ph' i v = some w) :
    Space iso L V ph' fl' where
  tables := he.tables
  lo := by rw [he.start]; exact h.lo
  hi := by rw [he.last]; exact h.hi
  managed p hp := (h.managed p (he.sub p hp)).evolve he
  aligned := h.aligned
  own_apart i hi k := by
    obtain ⟨h1, h2, h3⟩ := h.own_apart i hi k
    exact ⟨fun hm => (he.sub _ (Or.inl hm)).elim h1 h2,
      fun hm => (he.sub _ (Or.inr hm)).elim h1 h2, h3.evolve he⟩
  own_inj := h.own_inj
  root_inj := h.root_inj
  user i hi v w hw hU := by
    rcases hleaf i hi v w hw with hold | ⟨-, hnew⟩
    · exact (h.user i hi v w hold hU).evolve he
    · exact (hnew.user hU).evolve he
  readable i hi v w hw hU := by
    rcases hleaf i hi v w hw with hold | ⟨-, hnew⟩
    · exact h.readable i hi v w hold hU
    · exact hnew.readable hU
  kernel i hi v w hw hU := by
    rcases hleaf i hi v w hw with hold | ⟨-, hnew⟩
    · exact h.kernel i hi v w hold hU
    · exact hnew.kernel hU
  isolated hiso i hi j hj v w v' w' hw hw' hU hU' heq := by
    rcases hleaf i hi v w hw with hold | ⟨rfl, hnew⟩ <;>
      rcases hleaf j hj v' w' hw' with hold' | ⟨rfl, hnew'⟩
    · exact h.isolated hiso i hi j hj v w v' w' hold hold' hU hU' heq
    · by_contra hne
      exact hnew'.foreign hiso hU' i hi hne v w hold hU heq
    · by_contra hne
      exact hnew.foreign hiso hU j hj (Ne.symm hne) v' w' hold' hU' heq.symm
    · rfl
  ready_sub := h.ready_sub
  ready i hi := by
    have hr := h.ready i hi
    exact ⟨hkeep i hi _ _ hr.trapframe, hkeep i hi _ _ hr.trapSec,
      hr.regions.congr (h.aligned i (h.ready_sub hi)) (he.info i hi)⟩

/-- No entry has changed. -/
theorem Space.evolve_same (h : Space iso L V ph fl) (he : Evolves V ph fl ph' fl')
    (hleaf : ∀ i ∈ V.all, ∀ v, V.leaf ph' i v = V.leaf ph i v) : Space iso L V ph' fl' := by
  refine h.evolve he 0 (fun i hi v w hw => Or.inl ?_) fun i hi v w hw => ?_
  · rwa [hleaf i hi v] at hw
  · rwa [hleaf i (h.ready_sub hi) v]

/-! ## Writing a page -/

/-- A write to a page that is not free, no table and no list of regions. -/
theorem Space.evolves_write (h : Space iso L V ph fl) {m : Mem}
    (hm : ∀ q, q ≠ p → m q = ph.mem q) (hfl : p ∉ fl) (htab : p ∉ tablePages ph.mem V.roots)
    (hinfo : ∀ i ∈ V.ready, p ≠ (V.procs i).own .info) :
    Evolves V ph fl { ph with mem := m } fl where
  tables := by
    refine h.tables.congr (fun q hq => hm q ?_) (h.tables.free.frame rfl fun q hq => hm q ?_)
      h.tables.apart
    · rintro rfl
      exact htab hq
    · rintro rfl
      exact hfl hq
  sub q hq := by
    refine hq.imp_right fun hq => ?_
    rwa [show tablePages m V.roots = tablePages ph.mem V.roots from nodes_congr fun q hq =>
      hm q (by rintro rfl; exact htab hq)] at hq
  start := rfl
  last := rfl
  info i hi := hm _ (hinfo i hi).symm

theorem leaf_write {m : Mem} (hm : ∀ q, q ≠ p → m q = ph.mem q)
    (htab : p ∉ tablePages ph.mem V.roots) (hi : i ∈ V.all) (v : Vpn) :
    V.leaf { ph with mem := m } i v = V.leaf ph i v :=
  translate_congr (fun q hq => hm q (by rintro rfl; exact htab hq)) (View.root_mem hi) v

theorem Space.write (h : Space iso L V ph fl) {m : Mem} (hm : ∀ q, q ≠ p → m q = ph.mem q)
    (hfl : p ∉ fl) (htab : p ∉ tablePages ph.mem V.roots)
    (hinfo : ∀ i ∈ V.ready, p ≠ (V.procs i).own .info) : Space iso L V { ph with mem := m } fl :=
  h.evolve_same (h.evolves_write hm hfl htab hinfo) fun _ hi v => leaf_write hm htab hi v

/-! ## Taking a page off the free list -/

/-- A page that was taken off the free list and has not been used yet. -/
structure View.Fresh (V : View) (ph : Phys) (fl : List Ppn) (p : Ppn) : Prop where
  spare : V.Spare ph fl p
  unmapped : ∀ i ∈ V.all, ∀ v w, V.leaf ph i v = some w → ptePpn w ≠ p
  managed : Managed ph p

theorem View.Fresh.evolve_same (hp : V.Fresh ph fl p) (he : Evolves V ph fl ph' fl')
    (hleaf : ∀ i ∈ V.all, ∀ v, V.leaf ph' i v = V.leaf ph i v) : V.Fresh ph' fl' p where
  spare := hp.spare.evolve he
  unmapped i hi v w hw := hp.unmapped i hi v w (by rwa [hleaf i hi v] at hw)
  managed := hp.managed.evolve he

theorem View.Fresh.newLeaf (hp : V.Fresh ph fl p) (i : Pid) (v : Vpn) (hw : ptePpn w = p)
    (hU : w &&& PTE_U ≠ 0) (hR : w &&& PTE_R ≠ 0) : NewLeaf iso L V ph fl i v w where
  user _ := hw ▸ hp.spare
  readable _ := hR
  foreign _ _ j hj _ v' w' hw' _ := hw ▸ hp.unmapped j hj v' w' hw'
  kernel h := absurd h hU

theorem Space.evolves_pop (h : Space iso L V ph (p :: fl)) {g : Word}
    (hfree : FreeList { ph with gFreeMemList := g } fl) :
    Evolves V ph (p :: fl) { ph with gFreeMemList := g } fl where
  tables := h.tables.congr (fun _ _ => rfl) hfree fun q hq hq' =>
    h.tables.apart q hq (List.mem_cons_of_mem _ hq')
  sub _ hq := hq.imp_left (List.mem_cons_of_mem _)
  start := rfl
  last := rfl
  info _ _ := rfl

theorem Space.pop (h : Space iso L V ph (p :: fl)) {g : Word}
    (hfree : FreeList { ph with gFreeMemList := g } fl) :
    Space iso L V { ph with gFreeMemList := g } fl ∧
      V.Fresh { ph with gFreeMemList := g } fl p := by
  have hman : Managed ph p := h.managed p (Or.inl List.mem_cons_self)
  refine ⟨h.evolve_same (h.evolves_pop hfree) fun _ _ _ => rfl,
    ⟨⟨?_, ?_, ?_, Or.inl hman⟩, ?_, hman⟩⟩
  · exact (List.nodup_cons.mp h.tables.free.nodup).1
  · exact fun hp => h.tables.apart p hp List.mem_cons_self
  · rintro i hi k rfl
    exact (h.own_apart i hi k).1 List.mem_cons_self
  · rintro i hi v w hw rfl
    exact h.leaf_not_free hi hw List.mem_cons_self

/-! ## Mapping a page -/

theorem Space.evolves_grow (h : Space iso L V ph fl) (hg : Grow V.roots ph fl ph' fl') :
    Evolves V ph fl ph' fl' := by
  obtain ⟨new, hfl, hpages⟩ := hg.popped
  have hsub : ∀ p, p ∈ fl' ∨ p ∈ tablePages ph'.mem V.roots →
      p ∈ fl ∨ p ∈ tablePages ph.mem V.roots := by
    rintro p (hp | hp)
    · exact Or.inl (hfl ▸ List.mem_append_right new hp)
    · rw [hpages] at hp
      rcases hp with hp | hp
      · exact Or.inr hp
      · exact Or.inl (hfl ▸ List.mem_append_left fl' hp)
  refine ⟨hg.tables, hsub, hg.start, hg.last, fun i hi => hg.frame _ fun hm => ?_⟩
  have hown := h.own_apart i (h.ready_sub hi) .info
  exact (hsub _ (Or.inr hm)).elim hown.1 hown.2.1

theorem Space.mapNone (h : Space iso L V ph fl) (hm : MapNone V.roots ph fl ph' fl') :
    Space iso L V ph' fl' :=
  h.evolve_same (h.evolves_grow hm.grow) fun _ hi v => hm.leaf _ (View.root_mem hi) v

theorem Space.leaf_mapOne (h : Space iso L V ph fl) (hi : i ∈ V.all)
    (hm : MapOne V.roots (V.procs i).root v w ph fl ph' fl') {j : Pid} (hj : j ∈ V.all)
    (v' : Vpn) : V.leaf ph' j v' = if j = i ∧ v' = v then some w else V.leaf ph j v' := by
  unfold View.leaf
  rw [hm.leaf _ (View.root_mem hj) v']
  have hiff : ((V.procs j).root = (V.procs i).root ∧ v' = v) ↔ j = i ∧ v' = v := by
    refine and_congr_left fun _ => ⟨h.root_inj j hj i hi, ?_⟩
    rintro rfl
    rfl
  simp only [hiff]

theorem Space.mapOne (h : Space iso L V ph fl) (hi : i ∈ V.all)
    (hm : MapOne V.roots (V.procs i).root v w ph fl ph' fl')
    (hnew : NewLeaf iso L V ph fl i v w) : Space iso L V ph' fl' := by
  refine h.evolve (h.evolves_grow hm.grow) i (fun j hj v' w' hw' => ?_) fun j hj v' w' hw' => ?_
  · rw [h.leaf_mapOne hi hm hj] at hw'
    split_ifs at hw' with hc
    · obtain ⟨rfl, rfl⟩ := hc
      obtain rfl := Option.some.inj hw'
      exact Or.inr ⟨rfl, hnew⟩
    · exact Or.inl hw'
  · rw [h.leaf_mapOne hi hm (h.ready_sub hj), if_neg]
    · exact hw'
    · rintro ⟨rfl, rfl⟩
      have hnone := hm.unmapped
      rw [View.leaf, hnone] at hw'
      cases hw'

theorem View.Fresh.mapOne (hp : V.Fresh ph fl p) (h : Space iso L V ph fl) (hi : i ∈ V.all)
    (hm : MapOne V.roots (V.procs i).root v w ph fl ph' fl') (hw : ptePpn w ≠ p) :
    V.Fresh ph' fl' p where
  spare := hp.spare.evolve (h.evolves_grow hm.grow)
  unmapped j hj v' w' hw' := by
    rw [h.leaf_mapOne hi hm hj] at hw'
    split_ifs at hw' with hc
    · obtain rfl := Option.some.inj hw'
      exact hw
    · exact hp.unmapped j hj v' w' hw'
  managed := hp.managed.evolve (h.evolves_grow hm.grow)

/-! ## Releasing a frame -/

/-- The entry for `v` of process `i` is the only one with its frame. -/
def View.Sole (V : View) (ph : Phys) (i : Pid) (v : Vpn) (w : Word) : Prop :=
  ∀ j ∈ V.all, ∀ v' w', V.leaf ph j v' = some w' → ptePpn w' = ptePpn w → j = i ∧ v' = v

theorem Space.unmapOne (h : Space iso L V ph fl) (hi : i ∈ V.all) (hw : V.leaf ph i v = some w)
    (hU : w &&& PTE_U ≠ 0) (hsole : V.Sole ph i v w)
    (hu : UnmapOne V.roots (V.procs i).root v (ptePpn w) ph fl ph') :
    Space iso L V ph' (ptePpn w :: fl) := by
  have hspare := h.user i hi v w hw hU
  have hleaf : ∀ j ∈ V.all, ∀ v' w', V.leaf ph' j v' = some w' →
      V.leaf ph j v' = some w' ∧ ptePpn w' ≠ ptePpn w := by
    intro j hj v' w' hw'
    rw [View.leaf, hu.leaf _ (View.root_mem hj) v'] at hw'
    split_ifs at hw' with hc
    refine ⟨hw', fun heq => hc ?_⟩
    obtain ⟨rfl, rfl⟩ := hsole j hj v' w' hw' heq
    exact ⟨rfl, rfl⟩
  have hmanaged : ∀ q, Managed ph q → Managed ph' q := by
    intro q hq
    unfold Managed
    rw [hu.start, hu.last]
    exact hq
  have hmem : ∀ j ∈ V.all, ∀ k, ph'.mem ((V.procs j).own k) = ph.mem ((V.procs j).own k) :=
    fun j hj k => hu.frame _ (h.own_apart j hj k).2.1 (hspare.own j hj k).symm
  constructor
  · exact hu.tables
  · rw [hu.start]; exact h.lo
  · rw [hu.last]; exact h.hi
  · intro q hq
    rw [hu.pages, List.mem_cons, or_assoc] at hq
    rcases hq with rfl | hq
    · exact hmanaged _ hu.managed
    · exact hmanaged q (h.managed q hq)
  · exact h.aligned
  · intro j hj k
    obtain ⟨h1, h2, h3⟩ := h.own_apart j hj k
    rw [hu.pages]
    refine ⟨fun hm => ?_, h2, hmanaged _ h3⟩
    rcases List.mem_cons.mp hm with heq | hm
    · exact hspare.own j hj k heq.symm
    · exact h1 hm
  · exact h.own_inj
  · exact h.root_inj
  · intro j hj v' w' hw' hU'
    obtain ⟨hold, hne⟩ := hleaf j hj v' w' hw'
    have hs := h.user j hj v' w' hold hU'
    exact ⟨fun hm => (List.mem_cons.mp hm).elim hne hs.free, hu.pages ▸ hs.table, hs.own,
      hs.range.imp_left (hmanaged _)⟩
  · exact fun j hj v' w' hw' hU' => h.readable j hj v' w' (hleaf j hj v' w' hw').1 hU'
  · exact fun j hj v' w' hw' hU' => h.kernel j hj v' w' (hleaf j hj v' w' hw').1 hU'
  · exact fun hiso j hj j' hj' v₁ w₁ v₂ w₂ hw₁ hw₂ => h.isolated hiso j hj j' hj' v₁ w₁ v₂ w₂
      (hleaf j hj v₁ w₁ hw₁).1 (hleaf j' hj' v₂ w₂ hw₂).1
  · exact h.ready_sub
  · intro j hj
    have hr := h.ready j hj
    have hja := h.ready_sub hj
    -- the entry removed is one of user code, so the kernel mappings stay
    have hkeep : ∀ v' w', w' &&& PTE_U = 0 → V.leaf ph j v' = some w' →
        V.leaf ph' j v' = some w' := by
      intro v' w' hU' hw'
      rw [View.leaf, hu.leaf _ (View.root_mem hja) v', if_neg]
      · exact hw'
      · rintro ⟨hroot, rfl⟩
        obtain rfl := h.root_inj j hja i hi hroot
        rw [hw] at hw'
        obtain rfl := Option.some.inj hw'
        exact hU hU'
    exact ⟨hkeep _ _ (trapframe_leaf_kernel _) hr.trapframe,
      hkeep _ _ (trapSec_leaf_kernel _) hr.trapSec,
      hr.regions.congr (h.aligned j hja) (hmem j hja .info)⟩

/-! ## Editing a list of regions -/

/-- Only the processes that are set up have to have their regions. -/
theorem Space.withReady (h : Space iso L V ph fl) {total : Pid → ℕ} {ready : Set Pid}
    (hsub : ready ⊆ V.all) (hready : ∀ i ∈ ready, Ready L ph.mem (V.procs i) (total i)) :
    Space iso L ⟨V.procs, total, V.kroot, V.all, ready⟩ ph fl :=
  { h with
    user := fun i hi v w hw hU =>
      let hs := h.user i hi v w hw hU
      ⟨hs.free, hs.table, hs.own, hs.range⟩
    ready_sub := hsub
    ready := hready }

/-- The view with `n` regions recorded for process `i`. -/
def View.setTotal (V : View) (i : Pid) (n : ℕ) : View :=
  ⟨V.procs, Function.update V.total i n, V.kroot, V.all, V.ready⟩

theorem Space.setInfo (h : Space iso L V ph fl) (hi : i ∈ V.all) {m : Mem} {n : ℕ}
    (hm : ∀ q, q ≠ (V.procs i).own .info → m q = ph.mem q)
    (hreg : i ∈ V.ready → Regions L m (V.procs i) n) :
    Space iso L (V.setTotal i n) { ph with mem := m } fl := by
  obtain ⟨hfl, htab, -⟩ := h.own_apart i hi .info
  have hleaf : ∀ j ∈ V.all, ∀ v, V.leaf { ph with mem := m } j v = V.leaf ph j v :=
    fun j hj v => leaf_write hm htab hj v
  -- without the regions, the write keeps everything
  have hbase : Space iso L ⟨V.procs, V.total, V.kroot, V.all, ∅⟩ ph fl :=
    h.withReady (Set.empty_subset _) fun _ hj => hj.elim
  refine (hbase.write hm hfl htab fun _ hj => hj.elim).withReady h.ready_sub fun j hj => ?_
  have hr := h.ready j hj
  have hja := h.ready_sub hj
  refine ⟨(hleaf j hja _).trans hr.trapframe, (hleaf j hja _).trans hr.trapSec, ?_⟩
  by_cases hij : j = i
  · subst hij
    rw [Function.update_self]
    exact hreg hj
  · rw [Function.update_of_ne hij]
    refine hr.regions.congr (h.aligned j hja) (hm _ fun heq => hij ?_)
    exact (h.own_inj j hja i hi .info .info heq).1

/-! ## A new process -/

/-- The view with the address space `a` for process `i`. -/
def View.add (V : View) (i : Pid) (a : AddrSpace) : View :=
  ⟨Function.update V.procs i a, V.total, V.kroot, insert i V.all, V.ready⟩

/-- The pages of a new process: fresh, different, and an empty page table. -/
structure NewSpace (V : View) (ph : Phys) (fl : List Ppn) (a : AddrSpace) : Prop where
  aligned : a.Aligned
  empty : ∀ k, ph.mem a.root k = 0
  root : V.Fresh ph fl a.root
  own : ∀ k, V.Fresh ph fl (a.own k)
  own_ne_root : ∀ k, a.own k ≠ a.root
  own_inj : ∀ k l, a.own k = a.own l → k = l

section Add

variable {a : AddrSpace}

theorem View.add_procs_self : (V.add i a).procs i = a := Function.update_self _ _ _

theorem View.add_procs_of_ne {j : Pid} (hj : j ≠ i) : (V.add i a).procs j = V.procs j :=
  Function.update_of_ne hj _ _

theorem View.add_roots (hi : i ∉ V.all) : (V.add i a).roots = insert a.root V.roots := by
  have hproc : ∀ j ∈ V.all, (V.add i a).procs j = V.procs j := fun j hj =>
    View.add_procs_of_ne (by rintro rfl; exact hi hj)
  ext r
  constructor
  · rintro (rfl | ⟨j, rfl | hj, rfl⟩)
    · exact Or.inr (Or.inl rfl)
    · rw [View.add_procs_self]
      exact Or.inl rfl
    · rw [hproc j hj]
      exact Or.inr (Or.inr ⟨j, hj, rfl⟩)
  · rintro (rfl | rfl | ⟨j, hj, rfl⟩)
    · exact Or.inr ⟨i, Or.inl rfl, by rw [View.add_procs_self]⟩
    · exact Or.inl rfl
    · exact Or.inr ⟨j, Or.inr hj, by rw [hproc j hj]⟩

theorem NewSpace.tablePages_eq (hi : i ∉ V.all) (hn : NewSpace V ph fl a) :
    tablePages ph.mem (V.add i a).roots = insert a.root (tablePages ph.mem V.roots) := by
  rw [View.add_roots hi]
  exact nodes_insert_of_empty fun k => ptePage_of_invalid (by rw [hn.empty k]; rfl)

theorem NewSpace.leaf_self (hn : NewSpace V ph fl a) (v : Vpn) :
    (V.add i a).leaf ph i v = none := by
  rw [View.leaf, View.add_procs_self]
  exact leafAt_of_empty (fun k => ptePage_of_invalid (by rw [hn.empty k]; rfl)) _ _

theorem View.add_leaf_of_ne {j : Pid} (hj : j ≠ i) (v : Vpn) :
    (V.add i a).leaf ph j v = V.leaf ph j v := by
  rw [View.leaf, View.add_procs_of_ne hj, View.leaf]

/-- The entries of the new process are none, those of the others are as before. -/
theorem NewSpace.leaf_old (hn : NewSpace V ph fl a) {j : Pid} (hj : j ∈ (V.add i a).all)
    {v : Vpn} {w : Word} (hw : (V.add i a).leaf ph j v = some w) :
    j ≠ i ∧ j ∈ V.all ∧ V.leaf ph j v = some w := by
  by_cases hji : j = i
  · subst hji
    rw [hn.leaf_self] at hw
    cases hw
  · rw [View.add_leaf_of_ne hji] at hw
    exact ⟨hji, hj.resolve_left hji, hw⟩

theorem View.Spare.add (hf : V.Spare ph fl f) (hi : i ∉ V.all) (hn : NewSpace V ph fl a)
    (hroot : f ≠ a.root) (hown : ∀ k, f ≠ a.own k) : (V.add i a).Spare ph fl f where
  free := hf.free
  table := by
    rw [hn.tablePages_eq hi]
    rintro (h | h)
    · exact hroot h
    · exact hf.table h
  own j hj k := by
    by_cases hji : j = i
    · subst hji
      rw [View.add_procs_self]
      exact hown k
    · rw [View.add_procs_of_ne hji]
      exact hf.own j (hj.resolve_left hji) k
  range := hf.range

theorem View.Fresh.add (hf : V.Fresh ph fl f) (hi : i ∉ V.all) (hn : NewSpace V ph fl a)
    (hroot : f ≠ a.root) (hown : ∀ k, f ≠ a.own k) : (V.add i a).Fresh ph fl f where
  spare := hf.spare.add hi hn hroot hown
  unmapped j hj v w hw := by
    obtain ⟨-, hj', hw'⟩ := hn.leaf_old hj hw
    exact hf.unmapped j hj' v w hw'
  managed := hf.managed

theorem Space.add (h : Space iso L V ph fl) (hi : i ∉ V.all) (hn : NewSpace V ph fl a) :
    Space iso L (V.add i a) ph fl := by
  have hpages := hn.tablePages_eq hi
  have hrootne : ∀ j ∈ V.all, ∀ k, (V.procs j).own k ≠ a.root := fun j hj k heq =>
    hn.root.spare.own j hj k heq.symm
  have hownne : ∀ j ∈ V.all, ∀ k l, (V.procs j).own k ≠ a.own l := fun j hj k l heq =>
    (hn.own l).spare.own j hj k heq.symm
  constructor
  · rw [View.add_roots hi]
    exact h.tables.insert_of_empty hn.empty hn.root.spare.table hn.root.spare.free
      (h.managed_ne_zero hn.root.managed)
  · exact h.lo
  · exact h.hi
  · rw [hpages]
    rintro p (hp | rfl | hp)
    · exact h.managed p (Or.inl hp)
    · exact hn.root.managed
    · exact h.managed p (Or.inr hp)
  · rintro j (rfl | hj)
    · rw [View.add_procs_self]
      exact hn.aligned
    · rw [View.add_procs_of_ne (by rintro rfl; exact hi hj)]
      exact h.aligned j hj
  · rw [hpages]
    rintro j (rfl | hj) k
    · rw [View.add_procs_self]
      refine ⟨(hn.own k).spare.free, ?_, (hn.own k).managed⟩
      rintro (heq | hm)
      · exact hn.own_ne_root k heq
      · exact (hn.own k).spare.table hm
    · rw [View.add_procs_of_ne (by rintro rfl; exact hi hj)]
      obtain ⟨h1, h2, h3⟩ := h.own_apart j hj k
      exact ⟨h1, fun hm => hm.elim (hrootne j hj k) h2, h3⟩
  · rintro j (rfl | hj) j' (rfl | hj') k l heq
    · rw [View.add_procs_self] at heq
      exact ⟨rfl, hn.own_inj k l heq⟩
    · rw [View.add_procs_self, View.add_procs_of_ne (by rintro rfl; exact hi hj')] at heq
      exact absurd heq.symm (hownne j' hj' l k)
    · rw [View.add_procs_self, View.add_procs_of_ne (by rintro rfl; exact hi hj)] at heq
      exact absurd heq (hownne j hj k l)
    · rw [View.add_procs_of_ne (by rintro rfl; exact hi hj),
        View.add_procs_of_ne (by rintro rfl; exact hi hj')] at heq
      exact h.own_inj j hj j' hj' k l heq
  · have hfresh : ∀ j ∈ V.all, (V.procs j).root ≠ a.root := fun j hj heq =>
      hn.root.spare.table (heq ▸ root_mem_nodes (View.root_mem hj))
    rintro j (rfl | hj) j' (rfl | hj') heq
    · rfl
    · rw [View.add_procs_self, View.add_procs_of_ne (by rintro rfl; exact hi hj')] at heq
      exact absurd heq.symm (hfresh j' hj')
    · rw [View.add_procs_self, View.add_procs_of_ne (by rintro rfl; exact hi hj)] at heq
      exact absurd heq (hfresh j hj)
    · rw [View.add_procs_of_ne (by rintro rfl; exact hi hj),
        View.add_procs_of_ne (by rintro rfl; exact hi hj')] at heq
      exact h.root_inj j hj j' hj' heq
  · intro j hj v w hw hU
    obtain ⟨-, hj', hw'⟩ := hn.leaf_old hj hw
    exact (h.user j hj' v w hw' hU).add hi hn (hn.root.unmapped j hj' v w hw')
      fun k => (hn.own k).unmapped j hj' v w hw'
  · intro j hj v w hw hU
    obtain ⟨-, hj', hw'⟩ := hn.leaf_old hj hw
    exact h.readable j hj' v w hw' hU
  · intro j hj v w hw hU
    obtain ⟨hji, hj', hw'⟩ := hn.leaf_old hj hw
    rw [View.add_procs_of_ne hji]
    exact h.kernel j hj' v w hw' hU
  · intro hiso j hj j' hj' v w v' w' hw hw'
    exact h.isolated hiso j (hn.leaf_old hj hw).2.1 j' (hn.leaf_old hj' hw').2.1 v w v' w'
      (hn.leaf_old hj hw).2.2 (hn.leaf_old hj' hw').2.2
  · exact h.ready_sub.trans (Set.subset_insert _ _)
  · intro j hj
    have hji : j ≠ i := by
      rintro rfl
      exact hi (h.ready_sub hj)
    rw [View.add_procs_of_ne hji]
    exact h.ready j hj

end Add

end Pke
