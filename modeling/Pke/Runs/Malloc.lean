import Pke.Build.Exposed
import Pke.Runs.Heap

/-!
# What `allocate_page` returns

`sys_user_allocate_page` returns `g_ufree_page` and moves it on, and nothing in it bounds
the counter. What does is the page of the user stack:

* a process has its stack and its pages of code mapped for good (`Pinned`), as `free_page`
  is called for pages that `allocate_page` returned only, and those were not mapped then;
* such a page has its frame to itself (`Owned`): a step maps frames that were free, and a
  fork shares frames of code only (`Origin`);
* so memory stays in order, and a call in which the counter has reached the stack does not
  come back.

For an application whose segments are not at addresses of pages none of this holds, see
`Pke.Build.Exposed`.
-/

namespace Pke

open Lib

variable {L : Layout} {h : Host} {c i j : Pid} {s s' : Kernel} {fl fl' : List Ppn} {v : Vpn}
  {va w g : Word} {t : TrapInput} {a : Action} {Q : List Pid} {led : MallocLedger}

/-! ## Pages that stay -/

/-- The page is the stack of process `i` or one of its pages of code. -/
def Pinned (s : Kernel) (i : Pid) (v : Vpn) : Prop :=
  v = stackVpn ∨ ∃ k va, k < (s.procs i).totalMappedRegion ∧ CodeRegion s i k ∧
    regionTarget s.phys.mem (s.procs i).space k = some va ∧ v = vpn va

theorem Moved.pinned {N : Touched} {W : Set Pid} (hm : Moved L N g W c s s') (hj : j ∈ s.used) :
    Pinned s' j v ↔ Pinned s j v := by
  unfold Pinned CodeRegion
  rw [hm.total j hj, hm.space j hj]
  refine or_congr_right (exists_congr fun k => exists_congr fun va =>
    and_congr_right fun hk => ?_)
  rw [hm.seg j hj k hk, hm.target j hj k hk]

/-- These pages are among those that a child gets. -/
theorem Pinned.target (hs : Space False L (s.view s.used s.used) s.phys fl) (hi : i ∈ s.used)
    (hp : Pinned s i v) : ∃ k va, k < (s.procs i).totalMappedRegion ∧
      regionTarget s.phys.mem (s.procs i).space k = some va ∧ v = vpn va := by
  have hregs : Regions L s.phys.mem (s.procs i).space (s.procs i).totalMappedRegion :=
    (hs.ready i hi).regions
  have hlo := hregs.lo
  rcases hp with rfl | ⟨k, va, hk, -, hva, hv⟩
  · refine ⟨0, USER_STACK_TOP - PGSIZE, by omega, ?_, rfl⟩
    rw [regionTarget, hregs.stack.2, hregs.stack.1]
  · exact ⟨k, va, hk, hva, hv⟩

/-- A child has them as well. -/
theorem ForkStep.pinned (hf : ForkStep False L c j s fl s' fl') (hp : Pinned s' j v) :
    UserMapped s'.phys.mem (s'.procs j).space.root v := by
  have hj : j ∈ s'.used := by
    rw [hf.used]
    exact Set.mem_insert _ _
  obtain ⟨k, va, hk, hva, rfl⟩ := hp.target hf.space hj
  obtain ⟨k', hk', hva'⟩ := hf.born.targets k va hk hva
  obtain ⟨w, hw, hU, -⟩ := hf.pages k' va hk' hva'
  exact ⟨w, hw, hU⟩

/-! ## Where frames come from -/

/-- Where the entry `w` of process `j` for the page `v` is from, after a step of process
    `c` in `s`: it was there before, it maps frame 0, a frame that no process mapped, or
    the frame of a page of code of `c`. -/
inductive Origin (c : Pid) (s : Kernel) (j : Pid) (v : Vpn) (w : Word) : Prop
  | old (hj : j ∈ s.used) (hw : translate s.phys.mem (s.procs j).space.root v = some w)
  | null (h0 : ptePpn w = 0)
  | fresh (hnew : ∀ i ∈ s.used, ∀ u w', translate s.phys.mem (s.procs i).space.root u = some w' →
      w' &&& PTE_U ≠ 0 → ptePpn w' ≠ ptePpn w)
  | shared (wc : Word) (hpin : Pinned s c v)
      (hw : translate s.phys.mem (s.procs c).space.root v = some wc) (hU : wc &&& PTE_U ≠ 0)
      (heq : ptePpn wc = ptePpn w)

theorem FreshFrame.origin (hf : FreshFrame s.used s fl (ptePpn w))
    (hs : Space False L (s.view s.used s.used) s.phys fl) : Origin c s j v w := by
  refine .fresh fun i hi u w' hw' hU heq => ?_
  have hspare := hs.user i hi u w' hw' hU
  rw [heq] at hspare
  exact hf.elim hspare.free hspare.table

theorem GrantStep.origin {u : Vpn} (hg : GrantStep False L c u g s fl s' fl')
    (hs : Space False L (s.view s.used s.used) s.phys fl) (hj : j ∈ s.used)
    (hw : translate s'.phys.mem (s.procs j).space.root v = some w) : Origin c s j v w := by
  obtain ⟨pa, htaken, hleaf⟩ := hg.leaf
  rw [hleaf j hj] at hw
  split_ifs at hw with hv
  · obtain rfl := Option.some.inj hw
    rcases htaken with ⟨-, rfl, -⟩ | ⟨p, rfl, -, hp, -⟩
    · exact .null (ptePpn_mkPte _ (by decide))
    · refine FreshFrame.origin (Or.inl ?_) hs
      rw [ptePpn_mkPte _ (by decide), ppn_addr]
      exact List.mem_of_mem_head? hp
  · exact .old hj hw

/-- The pages of code that a child has in common with its parent are mapped there. -/
theorem ForkStep.origin (hf : ForkStep False L c j s fl s' fl')
    (hs : Space False L (s.view s.used s.used) s.phys fl)
    (hpinned : ∀ v, Pinned s c v → UserMapped s.phys.mem (s.procs c).space.root v)
    (hw : translate s'.phys.mem (s'.procs j).space.root v = some w) (hU : w &&& PTE_U ≠ 0) :
    Origin c s j v w := by
  rcases hf.frames v w hw hU with hfresh | ⟨k, va, hk, hcode, hva, rfl⟩
  · exact hfresh.origin hs
  · have hpin : Pinned s c (vpn va) := Or.inr ⟨k, va, hk, hcode, hva, rfl⟩
    obtain ⟨wc, hwc, hUc⟩ := hpinned _ hpin
    obtain ⟨w', hw', -, hcontent⟩ := hf.pages k va hk hva
    obtain rfl := Option.some.inj (hw.symm.trans hw')
    exact .shared wc hpin hwc hUc ((hcontent wc hwc hUc).2 hcode).symm

/-- Only a fork puts a process to use. -/
theorem Step.used_subset (hsched : SchedInv s c Q) (ha : Step L s a s')
    (hfork : ∀ t, a = .trap t → ¬ IsFork t) : s'.used ⊆ s.used := by
  have hsame : ∀ i, SameRole s s' i → i ∈ s'.used → i ∈ s.used := fun i hrole hi hfree =>
    hi (hrole.1.trans hfree)
  cases ha with
  | store hst =>
    obtain ⟨mem, rfl⟩ := userStore_eq hst
    exact Set.Subset.refl _
  | trap hst =>
    obtain ⟨q, Q', -, hstep⟩ := Prog.wp_exit (trap_sched hsched) hst
    cases hstep with
    | stay hrole _ _ => exact fun i => hsame i (hrole i)
    | fork child hcall _ _ _ _ _ => exact absurd hcall (hfork _ rfl)
    | rotate q Q' _ hrole _ => exact fun i => hsame i (hrole i)
    | exit q Q' _ _ _ hrole _ =>
      intro i hi
      by_cases hic : i = c
      · subst hic
        exact ((hsched.live i).mp List.mem_cons_self).1
      · exact hsame i (hrole i hic) hi

/-- **Frames over one step.** -/
theorem Step.origin (hm : MemInv False L s) (hsched : SchedInv s c Q) (hok : StepOk False s a)
    (hpinned : ∀ v, Pinned s c v → UserMapped s.phys.mem (s.procs c).space.root v)
    (ha : Step L s a s') (hj : j ∈ s'.used)
    (hw : translate s'.phys.mem (s'.procs j).space.root v = some w) (hU : w &&& PTE_U ≠ 0) :
    Origin c s j v w := by
  have hmoved := (ha.left hm hsched hok).moved
  obtain ⟨fl, hs⟩ := hm.space
  by_cases hj' : j ∈ s.used
  · rw [hmoved.space j hj'] at hw
    by_cases hjc : j = c
    · subst hjc
      rcases hmoved.self v w hw with hold | hnew
      · exact .old hj' hold
      -- only `allocate_page` and a store page fault map a page
      cases ha with
      | store _ => exact hnew.elim
      | trap hst =>
        rcases hnew with ⟨halloc, -⟩ | ⟨hfault, -⟩
        · obtain ⟨fl', hg⟩ :=
            Prog.wp_exit (trap_allocate hm hsched hs halloc fun hf => hf.elim) hst
          exact hg.origin hs hj' hw
        · rcases Prog.wp_exit (trap_storeFault hm hsched hs hfault fun hf => hf.elim) hst with
            ⟨fl', hg⟩ | ⟨-, hd⟩
          · exact hg.origin hs hj' hw
          · exact .old hj' ((hd.leaf j hj' v).symm.trans hw)
    · rw [hmoved.other j hj' hjc] at hw
      exact .old hj' hw
  · obtain ⟨t, rfl, hfork⟩ : ∃ t, a = .trap t ∧ IsFork t := by
      by_contra hno
      exact hj' (ha.used_subset hsched (fun t ht hf => hno ⟨t, ht, hf⟩) hj)
    cases ha with
    | trap hst =>
      obtain ⟨child, fl', -, hf, -⟩ :=
        Prog.wp_exit (trap_forkStep hm hsched hs (fun hf => hf.elim) hfork) hst
      rw [hf.used] at hj
      obtain rfl := hj.resolve_right hj'
      exact hf.origin hs hpinned hw hU

/-! ## Pages that `allocate_page` returned -/

/-- Process `i` maps the page at `va` for user mode, by frame 0 or by a frame that nothing
    else maps for user mode. -/
def Owned (s : Kernel) (i : Pid) (va : Word) : Prop :=
  ∃ w, translate s.phys.mem (s.procs i).space.root (vpn va) = some w ∧ w &&& PTE_U ≠ 0 ∧
    (ptePpn w = 0 ∨ ∀ j ∈ s.used, ∀ v w', translate s.phys.mem (s.procs j).space.root v = some w' →
      w' &&& PTE_U ≠ 0 → ptePpn w' = ptePpn w → j = i ∧ v = vpn va)

/-- Process `i` may call `free_page` for `va`. -/
structure HeldPage (s : Kernel) (i : Pid) (va : Word) : Prop where
  used : i ∈ s.used
  loose : ¬ Pinned s i (vpn va)
  owned : Owned s i va

/-- The state of a run in which processes free what they allocated. -/
structure MallocInv (L : Layout) (s : Kernel) (led : MallocLedger) : Prop where
  mem : MemInv False L s
  lo : USER_FREE_ADDRESS_START.toNat ≤ s.gUfreePage.toNat
  hi : s.gUfreePage.toNat ≤ (USER_STACK_TOP - PGSIZE).toNat
  pinned : ∀ i ∈ s.used, ∀ v, Pinned s i v → UserMapped s.phys.mem (s.procs i).space.root v
  nodup : led.returned.Nodup
  returned : ∀ r ∈ led.returned, r % PGSIZE = 0 ∧
    USER_FREE_ADDRESS_START.toNat ≤ r.toNat ∧ r.toNat < s.gUfreePage.toNat
  held : ∀ x ∈ led.held, x.2 ∈ led.returned ∧ HeldPage s x.1 x.2

/-- A page that can be freed at all is released in order. -/
theorem Owned.releasable (ho : Owned s c va) (hc : c ∈ s.used)
    (hs : Space False L (s.view s.used s.used) s.phys fl)
    (hman : ∀ w, translate s.phys.mem (s.procs c).space.root (vpn va) = some w →
      Managed s.phys (ptePpn w)) : Releasable s c va := by
  obtain ⟨w, hw, hU, hframe⟩ := ho
  have hmanaged := hman w hw
  have hsole := hframe.resolve_left (hs.managed_ne_zero hmanaged)
  refine ⟨w, hw, hU, fun j hj v w' hw' heq => ?_⟩
  by_cases hU' : w' &&& PTE_U = 0
  · -- the entries of the kernel map its own pages
    exfalso
    rcases hs.kernel j hj v w' hw' hU' with ⟨-, rfl⟩ | ⟨-, rfl⟩
    · rw [ptePpn_mkPte _ (by decide)] at heq
      exact (hs.user c hc (vpn va) w hw hU).own j hj .trapframe heq.symm
    · rw [ptePpn_mkPte _ (by decide)] at heq
      rw [← heq] at hmanaged
      exact hs.trapSec_not_managed hmanaged
  · exact hsole j hj v w' hw' hU' heq

/-- **Every step is one that keeps memory in order**: when the page maps frame 0, the call
    of `free_page` does not come back. -/
theorem MallocInv.stepOk (hi : MallocInv L s led) (hsched : SchedInv s c Q)
    (hfree : ∀ t, a = .trap t → IsSyscall t SYS_user_free_page → (c, t.regs .a1) ∈ led.held)
    (ha : Step L s a s') : StepOk False s a := by
  cases ha with
  | store _ => trivial
  | @trap _ t hst =>
    intro c' hcur
    obtain rfl : c = c' := Option.some.inj (hsched.current.symm.trans hcur)
    refine ⟨fun hf => ?_, fun h => h.elim, fun h => h.elim⟩
    obtain ⟨-, hheld⟩ := hi.held _ (hfree t rfl hf)
    obtain ⟨fl, hs⟩ := hi.mem.space
    refine hheld.owned.releasable hheld.used hs fun w hw => ?_
    obtain ⟨w', hw', hU, -⟩ := hheld.owned
    obtain rfl := Option.some.inj (hw.symm.trans hw')
    have hspare := hs.user c hheld.used _ w hw hU
    exact (Prog.wp_exit (trap_freePage hi.mem hsched hs hf hw hU hspare.table hspare.free) hst).1

/-- Addresses that were returned are those of pages. -/
theorem MallocInv.vpn_inj (hi : MallocInv L s led) {r r' : Word} (hr : r ∈ led.returned)
    (hr' : r' ∈ led.returned) (heq : vpn r = vpn r') : r = r' := by
  have hhi := hi.hi
  rw [stackTop_toNat] at hhi
  obtain ⟨hal, -, hlt⟩ := hi.returned r hr
  obtain ⟨hal', -, hlt'⟩ := hi.returned r' hr'
  have h0 := toNat_mod_PGSIZE hal
  have h0' := toNat_mod_PGSIZE hal'
  have hN := congrArg BitVec.toNat heq
  rw [vpn_toNat (by omega), vpn_toNat (by omega)] at hN
  exact BitVec.eq_of_toNat_eq (by omega)

/-! ## One step -/

/-- A call of `allocate_page` by process `c` that comes back. -/
structure AllocStep (c : Pid) (s s' : Kernel) : Prop where
  result : s'.result c = s.gUfreePage
  below : s.gUfreePage.toNat < (USER_STACK_TOP - PGSIZE).toNat
  loose : ¬ Pinned s c (vpn s.gUfreePage)
  owned : Owned s' c s.gUfreePage

section Step

variable (hi : MallocInv L s led) (hsched : SchedInv s c Q)

include hi hsched

/-- The counter has not reached the stack, as the page it names is not mapped. -/
theorem MallocInv.allocate (ht : IsSyscall t SYS_user_allocate_page)
    (hst : trap L t s = .exit s') : AllocStep c s s' := by
  have hc : c ∈ s.used := ((hsched.live c).mp List.mem_cons_self).1
  obtain ⟨fl, hs⟩ := hi.mem.space
  obtain ⟨fl', hg⟩ := Prog.wp_exit (trap_allocate hi.mem hsched hs ht fun hf => hf.elim) hst
  have hloose : ¬ Pinned s c (vpn s.gUfreePage) := fun hp => by
    obtain ⟨w, hw, -⟩ := hi.pinned c hc _ hp
    rw [hg.unmapped] at hw
    cases hw
  refine ⟨?_, lt_of_le_of_ne hi.hi fun heq => hloose (Or.inl ?_), hloose, ?_⟩
  · have hok : TrapOk False s c t :=
      ⟨fun hf => absurd (ht.2.symm.trans hf.2) (by decide), fun h => h.elim, fun h => h.elim⟩
    rcases (Prog.wp_exit (trap_mem hi.mem hsched hok) hst).1 ht.1 with ⟨hres, -⟩ | ⟨r, hr, hans⟩
    · rw [Reschedules, ht.2] at hres
      exact absurd hres (by decide)
    · rw [Answer, ht.2, if_neg (by decide), if_pos rfl] at hr
      exact hans.saved.a0.trans hr
  · rw [BitVec.eq_of_toNat_eq heq]
  · obtain ⟨pa, htaken, hleaf⟩ := hg.leaf
    refine ⟨mkPte pa userDataPerm, ?_, userData_leaf_user _, ?_⟩
    · rw [hg.procs]
      exact (hleaf c hc _).trans (if_pos ⟨rfl, rfl⟩)
    rw [ptePpn_mkPte _ (by decide)]
    rcases htaken with ⟨-, rfl, -⟩ | ⟨p, rfl, -, hp, -⟩
    · exact Or.inl rfl
    · refine Or.inr fun j hj v w' hw' hU heq => ?_
      rw [show s'.used = s.used by unfold Kernel.used; rw [hg.procs]] at hj
      rw [hg.procs, hleaf j hj v] at hw'
      split_ifs at hw' with hv
      · exact hv
      · rw [ppn_addr] at heq
        exact absurd (heq ▸ List.mem_of_mem_head? hp) (hs.leaf_not_free hj hw')

variable (hok : StepOk False s a) (ha : Step L s a s')

include hok ha

/-- What is no page of the heap stays mapped. -/
theorem MallocInv.pinned_step
    (hfree : ∀ t, a = .trap t → IsSyscall t SYS_user_free_page → (c, t.regs .a1) ∈ led.held)
    (hj : j ∈ s'.used) (hp : Pinned s' j v) :
    UserMapped s'.phys.mem (s'.procs j).space.root v := by
  have hmoved := (ha.left hi.mem hsched hok).moved
  by_cases hj' : j ∈ s.used
  · rw [hmoved.pinned hj'] at hp
    obtain ⟨w, hw, hU⟩ := hi.pinned j hj' v hp
    rw [hmoved.space j hj']
    by_cases hjc : j = c
    · subst hjc
      refine (hmoved.kept v w hw).elim (fun hw' => ⟨w, hw', hU⟩) fun hgone => ?_
      exfalso
      cases ha with
      | store _ => exact hgone.elim
      | trap _ =>
        obtain ⟨hf, rfl⟩ := hgone
        exact (hi.held _ (hfree _ rfl hf)).2.loose hp
    · exact ⟨w, (hmoved.other j hj' hjc v).trans hw, hU⟩
  · obtain ⟨t, rfl, hfork⟩ : ∃ t, a = .trap t ∧ IsFork t := by
      by_contra hno
      exact hj' (ha.used_subset hsched (fun t ht hf => hno ⟨t, ht, hf⟩) hj)
    obtain ⟨fl, hs⟩ := hi.mem.space
    cases ha with
    | trap hst =>
      obtain ⟨child, fl', -, hf, -⟩ :=
        Prog.wp_exit (trap_forkStep hi.mem hsched hs (fun hf => hf.elim) hfork) hst
      rw [hf.used] at hj
      obtain rfl := hj.resolve_right hj'
      exact hf.pinned hp

/-- A page that is not freed is held as before. -/
theorem MallocInv.held_step {x : Pid × Word} (hx : x ∈ led.held)
    (hfree : ∀ t, a = .trap t → IsSyscall t SYS_user_free_page →
      (c, t.regs .a1) ∈ led.held ∧ x ≠ (c, t.regs .a1)) : HeldPage s' x.1 x.2 := by
  have hmoved := (ha.left hi.mem hsched hok).moved
  have hc : c ∈ s.used := ((hsched.live c).mp List.mem_cons_self).1
  obtain ⟨hret, hused, hloose, w, hw, hU, hframe⟩ := hi.held x hx
  have hw' : translate s'.phys.mem (s.procs x.1).space.root (vpn x.2) = some w := by
    by_cases hxc : x.1 = c
    · rw [hxc] at hw ⊢
      refine (hmoved.kept _ w hw).resolve_right fun hgone => ?_
      cases ha with
      | store _ => exact hgone.elim
      | trap _ =>
        obtain ⟨hf, hv⟩ := hgone
        obtain ⟨hheld, hne⟩ := hfree _ rfl hf
        exact hne (Prod.ext hxc (hi.vpn_inj hret (hi.held _ hheld).1 hv))
    · exact (hmoved.other _ hused hxc _).trans hw
  refine ⟨hmoved.used hused, fun hp => hloose ((hmoved.pinned hused).mp hp), w, ?_, hU, ?_⟩
  · rw [hmoved.space _ hused]
    exact hw'
  by_cases h0 : ptePpn w = 0
  · exact Or.inl h0
  have hsole := hframe.resolve_left h0
  refine Or.inr fun j hj v w' hwj hUj heq => ?_
  cases ha.origin hi.mem hsched hok (hi.pinned c hc) hj hwj hUj with
  | old hj' hold => exact hsole j hj' v w' hold hUj heq
  | null hzero => exact absurd (heq.symm.trans hzero) h0
  | fresh hnew => exact absurd heq.symm (hnew _ hused _ w hw hU)
  | shared wc hpin hwc hUc hshare =>
    -- the page would be one of code
    obtain ⟨hcx, hv⟩ := hsole c hc v wc hwc hUc (hshare.trans heq)
    rw [hcx, hv] at hpin
    exact absurd hpin hloose

end Step

/-- A step that is no call of `allocate_page` takes pages off the ledger at most. -/
theorem MallocLedger.after_of_not_alloc (led : MallocLedger) (c : Pid) (r : Word)
    (hno : ∀ t, a = .trap t → ¬ IsSyscall t SYS_user_allocate_page) :
    (led.after c r a).returned = led.returned ∧ ∀ x ∈ (led.after c r a).held, x ∈ led.held ∧
      ∀ t, a = .trap t → IsSyscall t SYS_user_free_page → x ≠ (c, t.regs .a1) := by
  cases a with
  | store va b => exact ⟨rfl, fun x hx => ⟨hx, fun t ht => by cases ht⟩⟩
  | trap t =>
    rw [MallocLedger.after, if_neg (hno t rfl)]
    split_ifs with hf
    · refine ⟨rfl, fun x hx => ⟨List.mem_of_mem_filter hx, fun t' ht' _ => ?_⟩⟩
      cases ht'
      simpa using List.of_mem_filter hx
    · refine ⟨rfl, fun x hx => ⟨hx, fun t' ht' hf' => ?_⟩⟩
      cases ht'
      exact absurd hf' hf

/-- A value that `allocate_page` returns is recorded. -/
theorem MallocInv.alloc_step (hi : MallocInv L s led) (hsched : SchedInv s c Q)
    (ht : IsSyscall t SYS_user_allocate_page) (hok : StepOk False s (.trap t))
    (hst : trap L t s = .exit s') :
    MallocInv L s' (led.after c (s'.result c) (.trap t)) := by
  have hc : c ∈ s.used := ((hsched.live c).mp List.mem_cons_self).1
  have hnofree : ∀ t', Action.trap t = .trap t' → ¬ IsSyscall t' SYS_user_free_page := by
    intro t' ht' hf
    cases ht'
    exact absurd (ht.2.symm.trans hf.2) (by decide)
  have hstep : Step L s (.trap t) s' := .trap hst
  have hleft := hstep.left hi.mem hsched hok
  obtain ⟨hresult, hbelow, hloose, howned⟩ := hi.allocate hsched ht hst
  have hal := toNat_mod_PGSIZE hi.mem.heap
  have hlo := hi.lo
  have hheap : s'.gUfreePage.toNat = s.gUfreePage.toNat + 4096 := by
    rw [stackTop_toNat] at hbelow
    rw [hleft.moved.heap, Action.grown, Pke.grown, if_pos ht, BitVec.toNat_add,
      show PGSIZE.toNat = 4096 from rfl]
    omega
  rw [MallocLedger.after, if_pos ht, hresult]
  refine ⟨hleft.mem, by omega, ?_, fun j hj v hp => hi.pinned_step hsched hok hstep
    (fun t' ht' hf => absurd hf (hnofree t' ht')) hj hp, ?_, fun r hr => ?_, fun x hx => ?_⟩
  · rw [stackTop_toNat] at hbelow ⊢
    omega
  · refine List.nodup_cons.mpr ⟨fun hmem => ?_, hi.nodup⟩
    exact absurd (hi.returned _ hmem).2.2 (lt_irrefl _)
  · rcases List.mem_cons.mp hr with rfl | hr
    · exact ⟨hi.mem.heap, hlo, by omega⟩
    · obtain ⟨hr0, hrlo, hrhi⟩ := hi.returned r hr
      exact ⟨hr0, hrlo, by omega⟩
  · rcases List.mem_cons.mp hx with rfl | hx
    · exact ⟨List.mem_cons_self, hleft.moved.used hc,
        fun hp => hloose ((hleft.moved.pinned hc).mp hp), howned⟩
    · exact ⟨List.mem_cons_of_mem _ (hi.held x hx).1, hi.held_step hsched hok hstep hx
        fun t' ht' hf => absurd hf (hnofree t' ht')⟩

/-- **One step** of a run in which processes free what they allocated. -/
theorem MallocInv.step (hi : MallocInv L s led) (hsched : SchedInv s c Q)
    (hfree : ∀ t, a = .trap t → IsSyscall t SYS_user_free_page → (c, t.regs .a1) ∈ led.held)
    (ha : Step L s a s') : MallocInv L s' (led.after c (s'.result c) a) := by
  have hok := hi.stepOk hsched hfree ha
  by_cases halloc : ∃ t, a = .trap t ∧ IsSyscall t SYS_user_allocate_page
  · obtain ⟨t, rfl, ht⟩ := halloc
    cases ha with
    | trap hst => exact hi.alloc_step hsched ht hok hst
  have hno : ∀ t, a = .trap t → ¬ IsSyscall t SYS_user_allocate_page := fun t ht hc =>
    halloc ⟨t, ht, hc⟩
  have hleft := ha.left hi.mem hsched hok
  have hheap : s'.gUfreePage = s.gUfreePage := by
    rw [hleft.moved.heap]
    cases a with
    | store va b => simp [Action.grown]
    | trap t => simp [Action.grown, Pke.grown, hno t rfl]
  obtain ⟨hret, hheld⟩ := led.after_of_not_alloc c (s'.result c) hno
  refine ⟨hleft.mem, by rw [hheap]; exact hi.lo, by rw [hheap]; exact hi.hi,
    fun j hj v hp => hi.pinned_step hsched hok ha hfree hj hp, by rw [hret]; exact hi.nodup,
    fun r hr => ?_, fun x hx => ?_⟩
  · rw [hret] at hr
    rw [hheap]
    exact hi.returned r hr
  · obtain ⟨hx', hne⟩ := hheld x hx
    rw [hret]
    exact ⟨(hi.held x hx').1, hi.held_step hsched hok ha hx' fun t ht hf =>
      ⟨hfree t ht hf, hne t ht hf⟩⟩

/-! ## Whole runs -/

theorem BootMem.mallocInv {m : Mem} (hb : BootMem False L Set.univ m s) :
    MallocInv L s ⟨[], []⟩ := by
  have hused : s.used = {0} := hb.booted.used
  obtain ⟨fl, hs⟩ := hb.mem.space
  refine ⟨hb.mem, by rw [hb.heap], by rw [hb.heap]; decide, fun i hi v hp => ?_, List.nodup_nil,
    fun r hr => absurd hr List.not_mem_nil, fun x hx => absurd hx List.not_mem_nil⟩
  have hregs : Regions L s.phys.mem (s.procs i).space (s.procs i).totalMappedRegion :=
    (hs.ready i hi).regions
  obtain rfl : i = 0 := by
    rw [hused] at hi
    exact hi
  rcases hp with rfl | ⟨k, va, hk, hcode, hva, rfl⟩
  · exact hb.stack
  · have h3 : 3 ≤ k := by
      by_contra hlt
      obtain rfl | rfl | rfl : k = 0 ∨ k = 1 ∨ k = 2 := by omega
      · exact absurd (hregs.stack.2.symm.trans hcode) (by decide)
      · exact absurd (hregs.context.2.symm.trans hcode) (by decide)
      · exact absurd (hregs.system.2.symm.trans hcode) (by decide)
    rw [regionTarget, hcode] at hva
    obtain rfl := Option.some.inj hva
    exact hb.mapped k h3 hk

theorem MallocRun.inv (hload : h.LoadsOk Set.univ) (hr : MallocRun L h s led) :
    MallocInv L s led ∧ ∃ c Q, SchedInv s c Q := by
  induction hr with
  | @boot s₀ s hs =>
    have hb : BootMem False L Set.univ _ s :=
      Prog.wp_exit (sStart_mem hload (Set.mem_univ _) s₀) hs
    exact ⟨hb.mallocInv, 0, [], hb.booted.sched⟩
  | @step s s' led c a hr hcur hfree ha ih =>
    obtain ⟨hi, q, Q, hsched⟩ := ih
    obtain rfl : q = c := Option.some.inj (hsched.current.symm.trans hcur)
    obtain ⟨q', Q', hsched', -⟩ := hsched.step ha
    exact ⟨hi.step hsched hfree ha, q', Q', hsched'⟩

/-- **What `allocate_page` returns**, when the segments of the application lie at addresses
    of pages: addresses of pages of the heap below the stack, each one once, that survive
    the `int` of `do_user_call`. -/
theorem malloc_returns (hload : h.LoadsOk Set.univ) (hr : MallocRun L h s led) :
    led.returned.Nodup ∧ ∀ r ∈ led.returned, r % PGSIZE = 0 ∧ USER_FREE_ADDRESS_START ≤ r ∧
      r < USER_STACK_TOP - PGSIZE ∧ asInt r = r := by
  obtain ⟨hi, -⟩ := hr.inv hload
  refine ⟨hi.nodup, fun r hr => ?_⟩
  obtain ⟨hal, hlo, hlt⟩ := hi.returned r hr
  have hhi := hi.hi
  have hbelow : r.toNat < (USER_STACK_TOP - PGSIZE).toNat := hlt.trans_le hhi
  refine ⟨hal, BitVec.le_def.mpr hlo, BitVec.lt_def.mpr hbelow, asInt_of_low ?_⟩
  rw [stackTop_toNat] at hbelow
  rw [BitVec.lt_def, show KERN_BASE.toNat = 2 ^ 31 from rfl]
  omega

/-- The first process of the small application gets the first page of the heap. -/
theorem malloc_returns_sample : ∃ s led, MallocRun sampleLayout (sampleHost 5 8) s led ∧
    led.returned ≠ [] ∧ led.returned.Nodup ∧ ∀ r ∈ led.returned, r % PGSIZE = 0 ∧
      USER_FREE_ADDRESS_START ≤ r ∧ r < USER_STACK_TOP - PGSIZE ∧ asInt r = r := by
  obtain ⟨s, hboot, hb⟩ := sampleBoot
  obtain ⟨s₁, -, -, hexit, -⟩ := sampleGrant hb
  have hrun := (MallocRun.boot hboot).allocate hb.booted.sched.current ⟨rfl, rfl⟩ hexit
  exact ⟨s₁, _, hrun, List.cons_ne_nil _ _, malloc_returns sampleHost_loads hrun⟩

/-- The application of `exposedHost` has one segment, at an address inside a page, and gets
    the page of its stack from `allocate_page`. -/
theorem malloc_returns_stack : ∃ s led, MallocRun sampleLayout exposedHost s led ∧
    USER_STACK_TOP - PGSIZE ∈ led.returned := by
  obtain ⟨s, hboot, hsched, -, -, -, fl, hx⟩ := sStart_exposed (powerOn 0)
  obtain ⟨s₁, hrun, hc⟩ := hx.climbing ⟨[], hsched⟩ (.boot hboot)
  exact hc.returns_stack hrun

end Pke
