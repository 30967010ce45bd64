import Pke.Space.Moved

/-!
# System calls and faults keep memory in order

One lemma for each handler. A call of `free_page` needs the page to be mapped
for user mode by a frame that nobody else maps (`Releasable`); with isolation,
in addition, taking a page needs a page on the free list, and a fork needs a
parent without a region of code.
-/

namespace Pke

open Lib

variable {iso : Prop} {L : Layout} {N : Touched} {g : Word} {b s s' : Kernel} {c : Pid}

/-- In the handler for a trap of process `c`, which was entered in the state `b`. -/
structure InTrap (iso : Prop) (L : Layout) (N : Touched) (g : Word) (c : Pid) (b s : Kernel) :
    Prop where
  mem : MemInv iso L s
  current : s.current = some c
  caller : c ∈ b.used
  moved : Moved L N g ∅ c b s

theorem InTrap.used (h : InTrap iso L N g c b s) : c ∈ s.used := h.moved.used h.caller

theorem InTrap.trapframe (h : InTrap iso L N g c b s) :
    (s.procs c).trapframe = (b.procs c).trapframe := h.moved.trapframe h.caller

/-- The handler returns with memory in order. -/
abbrev Returns (iso : Prop) (L : Layout) (N : Touched) (g : Word) (c : Pid) (b : Kernel)
    {α : Type} (p : KernelM α) (R : α → Prop) (s : Kernel) : Prop :=
  Prog.wp p (fun a s' => InTrap iso L N g c b s' ∧ R a) (fun _ => False) (fun _ => True) s

theorem InTrap.move (h : InTrap iso L N g c b s) (hm : MemInv iso L s')
    (hmoved : Moved L N 0 ∅ c s s') (hcur : s'.current = s.current) : InTrap iso L N g c b s' := by
  refine ⟨hm, hcur.trans h.current, h.caller, ?_⟩
  have := h.moved.trans h.caller hmoved
  simpa using this

theorem InTrap.same (h : InTrap iso L N g c b s) (hs : MemSame s s')
    (hcur : s'.current = s.current) : InTrap iso L N g c b s' :=
  h.move (h.mem.same hs) (hs.moved L N ∅ c) hcur

theorem wp_currentProc {β : Type} {k : Pid → KernelM β} {R : β → Kernel → Prop}
    {E : Kernel → Prop} {H : Halt → Prop} (hcur : s.current = some c)
    (hk : Prog.wp (k c) R E H s) : Prog.wp (currentProc >>= k) R E H s := by
  have hrun : currentProc s = .ret c s := by
    rw [currentProc, Prog.bind_of_ret (Prog.gets_apply _ _), hcur]
    rfl
  rw [Prog.wp_bind, Prog.wp_of_ret hrun]
  exact hk

theorem InTrap.sprint (h : InTrap iso L N g c b s) (m : Msg) :
    InTrap iso L N g c b { s with console := s.console ++ [m] } :=
  h.same ⟨rfl, rfl, rfl, fun _ => rfl, fun _ => rfl, fun _ => Iff.rfl⟩ rfl

/-! ## Taking a page for user mode -/

/-- `alloc_page` returned `pa`, the head of the free list `fl` if there is one, and from
    then on only `fl'` is left of the list. -/
def PageTaken (fl : List Ppn) (pa : Word) (fl' : List Ppn) : Prop :=
  (fl = [] ∧ pa = 0 ∧ fl' = []) ∨
    ∃ p, pa = addr p ∧ p ≠ 0 ∧ fl.head? = some p ∧ p ∉ fl' ∧ fl'.length < fl.length

theorem PageTaken.grow {R : Set Ppn} {fl fl₁ fl₂ : List Ppn} {pa : Word} {ph₁ ph₂ : Phys}
    (h : PageTaken fl pa fl₁) (hg : Grow R ph₁ fl₁ ph₂ fl₂) : PageTaken fl pa fl₂ := by
  obtain ⟨new, rfl, -⟩ := hg.popped
  rcases h with ⟨hnil, hpa, hnil'⟩ | ⟨p, hpa, h0, hp, hp', hlen⟩
  · exact Or.inl ⟨hnil, hpa, (List.append_eq_nil_iff.mp hnil').2⟩
  · refine Or.inr ⟨p, hpa, h0, hp, fun hm => hp' (List.mem_append_right _ hm), ?_⟩
    rw [List.length_append] at hlen
    omega

/-- The page that `alloc_page` returns, or frame 0 when it fails, may be mapped
    for user mode; frame 0 by several processes. -/
theorem allocPage_user {V : View} {ph : Phys} {fl : List Ppn} (h : Space iso L V ph fl)
    (hfree : iso → ph.gFreeMemList ≠ 0) {R : Word → Phys → Prop} {E : Phys → Prop}
    {H : Halt → Prop}
    (hR : ∀ pa ph' fl', Space iso L V ph' fl' → ph'.mem = ph.mem →
      (∀ p, Managed ph p → Managed ph' p) → fl.length ≤ fl'.length + 1 → PageTaken fl pa fl' →
      (∀ i v, NewLeaf iso L V ph' fl' i v (mkPte pa userDataPerm)) → R pa ph') :
    Prog.wp allocPage R E H ph := by
  refine allocPage_space h
    (fun hnil => hR 0 ph fl h rfl (fun _ h => h) (Nat.le_succ _) (Or.inl ⟨hnil, rfl, hnil⟩)
    fun i v => ?_)
    fun p fl' g hfl hs hp _ => hR _ _ fl' hs rfl (fun _ h => h) (by rw [hfl, List.length_cons])
      (Or.inr ⟨p, rfl, ?_, ?_, hp.spare.free, by rw [hfl]; simp⟩) fun i v => ?_
  · have hempty : ph.gFreeMemList = 0 := by
      have := h.tables.free
      rwa [hnil] at this
    refine ⟨fun _ => ?_, fun _ => userData_leaf_readable _, fun hi => absurd hempty (hfree hi),
      fun hU => absurd hU (userData_leaf_user _)⟩
    rw [ptePpn_mkPte _ (by decide)]
    exact h.ppn_zero_spare
  · exact h.managed_ne_zero (h.managed p (Or.inl (by rw [hfl]; exact List.mem_cons_self)))
  · rw [hfl]
    rfl
  · exact hp.newLeaf i v (by rw [ptePpn_mkPte _ (by decide), ppn_addr]) (userData_leaf_user _)
      (userData_leaf_readable _)

theorem add_PGSIZE_aligned {a : Word} (ha : a % PGSIZE = 0) : (a + PGSIZE) % PGSIZE = 0 := by
  have h0 := toNat_mod_PGSIZE ha
  apply BitVec.eq_of_toNat_eq
  rw [BitVec.toNat_umod, BitVec.toNat_add, show PGSIZE.toNat = 4096 from rfl]
  show _ = 0
  omega

/-- From `s` to the memory `ph` the page of `va` of process `c` was mapped for user
    mode. -/
structure Granted (iso : Prop) (L : Layout) (c : Pid) (va : Word) (s : Kernel) (fl : List Ppn)
    (ph : Phys) (fl' : List Ppn) : Prop where
  low : va < MAXVA
  space : Space iso L (s.view s.used s.used) ph fl'
  unmapped : translate s.phys.mem (s.procs c).space.root (vpn va) = none
  leaf : ∃ pa, PageTaken fl pa fl' ∧ ∀ r ∈ (s.view s.used s.used).roots, ∀ v',
    translate ph.mem r v' = if r = (s.procs c).space.root ∧ v' = vpn va
      then some (mkPte pa userDataPerm) else translate s.phys.mem r v'
  table : fl = [] → HasTable s.phys.mem (s.procs c).space.root (vpn va)
  frame : ∀ p ∉ tablePages ph.mem (s.view s.used s.used).roots, ph.mem p = s.phys.mem p
  managed : ∀ p, Managed s.phys p → Managed ph p
  own : ∀ j ∈ s.used, ∀ k, ph.mem ((s.procs j).space.own k) = s.phys.mem ((s.procs j).space.own k)
  length : fl.length ≤ fl'.length + 3

section Granted

variable {fl fl₁ fl₂ : List Ppn} {ph₁ ph₂ : Phys} {va pa u : Word}

theorem Space.granted (hs₁ : Space iso L (s.view s.used s.used) ph₁ fl₁)
    (hmem : ph₁.mem = s.phys.mem) (hman : ∀ p, Managed s.phys p → Managed ph₁ p) (hc : c ∈ s.used)
    (hlow : va < MAXVA)
    (hnew : NewLeaf iso L (s.view s.used s.used) ph₁ fl₁ c (vpn va) (mkPte pa userDataPerm))
    (hmap : MapOne (s.view s.used s.used).roots (s.procs c).space.root (vpn va)
      (mkPte pa userDataPerm) ph₁ fl₁ ph₂ fl₂) (hlen : fl.length ≤ fl₂.length + 3)
      (htaken : PageTaken fl pa fl₁)
    (htab : fl₁ = [] → HasTable ph₁.mem (s.procs c).space.root (vpn va)) :
    Granted iso L c va s fl ph₂ fl₂ where
  low := hlow
  space := hs₁.mapOne hc hmap hnew
  unmapped := by
    rw [← hmem]
    exact hmap.unmapped
  leaf := ⟨pa, htaken.grow hmap.grow, by rw [← hmem]; exact hmap.leaf⟩
  table hnil := by
    rw [← hmem]
    refine htab ?_
    rcases htaken with ⟨-, -, h⟩ | ⟨p, -, -, hp, -⟩
    · exact h
    · rw [hnil] at hp
      cases hp
  frame p hp := by
    rw [← hmem]
    exact hmap.grow.frame p hp
  managed p hp := by
    unfold Managed
    rw [hmap.grow.start, hmap.grow.last]
    exact hman p hp
  own j hj k := by
    rw [← hmem]
    exact hmap.grow.frame_old (hs₁.own_apart j hj k).1 (hs₁.own_apart j hj k).2.1
  length := hlen

/-- The entries of the processes. -/
theorem Granted.procLeaf (h : Granted iso L c va s fl ph₂ fl₂)
    (hs : Space iso L (s.view s.used s.used) s.phys fl) (hc : c ∈ s.used) :
    ∃ pa, PageTaken fl pa fl₂ ∧ ∀ j ∈ s.used, ∀ v', translate ph₂.mem (s.procs j).space.root v' =
      if j = c ∧ v' = vpn va then some (mkPte pa userDataPerm)
      else translate s.phys.mem (s.procs j).space.root v' := by
  obtain ⟨pa, htaken, hleaf⟩ := h.leaf
  refine ⟨pa, htaken, fun j hj v' => ?_⟩
  refine (hleaf _ (View.root_mem (V := s.view s.used s.used) hj) v').trans ?_
  refine if_congr (and_congr_left fun _ => ⟨hs.root_inj j hj c hc, ?_⟩) rfl rfl
  rintro rfl
  rfl

theorem Granted.moved (h : Granted iso L c va s fl ph₂ fl₂)
    (hs : Space iso L (s.view s.used s.used) s.phys fl) (hc : c ∈ s.used)
    (hv : vpn va ∈ N.mapped) {W : Set Pid} (hu : u = s.gUfreePage + g) :
    Moved L N g W c s { s with phys := ph₂, gUfreePage := u } := by
  obtain ⟨pa, -, hleaf⟩ := h.procLeaf hs hc
  refine Moved.ofPhys hs h.own (fun j hj hjc v' => ?_) (fun v' w' hw' => ?_)
    (fun v' w' hw' => Or.inl ?_) (fun p hp => h.frame p (h.space.image_not_table hp)) hu
  · rw [hleaf j hj, if_neg fun h => hjc h.1]
  · rw [hleaf c hc] at hw'
    split_ifs at hw' with h
    · exact Or.inr (h.2 ▸ hv)
    · exact Or.inl hw'
  · rw [hleaf c hc, if_neg, hw']
    rintro ⟨-, rfl⟩
    exact Option.some_ne_none w' (hw'.symm.trans h.unmapped)

theorem sysUserAllocatePage_spec (hs : Space iso L (s.view s.used s.used) s.phys fl)
    (hcur : s.current = some c) (hc : c ∈ s.used) (hheap : s.gUfreePage % PGSIZE = 0)
    (hfree : iso → s.phys.gFreeMemList ≠ 0) :
    Prog.wp sysUserAllocatePage
      (fun r s' => r = s.gUfreePage ∧ ∃ ph fl', Granted iso L c s.gUfreePage s fl ph fl' ∧
        s' = { s with phys := ph, gUfreePage := s.gUfreePage + PGSIZE })
      (fun _ => False)
      (fun e => ¬ (s.gUfreePage < MAXVA ∧
          translate s.phys.mem (s.procs c).space.root (vpn s.gUfreePage) = none ∧
          (3 ≤ fl.length ∨ HasTable s.phys.mem (s.procs c).space.root (vpn s.gUfreePage))) ∧
        (s.gUfreePage < MAXVA →
          translate s.phys.mem (s.procs c).space.root (vpn s.gUfreePage) = none →
          e = .panic "fail to user_vm_map .\n" [])) s := by
  unfold sysUserAllocatePage
  rw [Prog.wp_bind, wp_onPhys]
  refine allocPage_user hs hfree fun pa ph₁ fl₁ hs₁ hmem hman hlen₁ htaken hnew => ?_
  rw [Prog.wp_bind, Prog.wp_gets, Prog.wp_bind, Prog.wp_modify]
  refine wp_currentProc hcur ?_
  rw [proc, Prog.wp_bind, Prog.wp_gets]
  have hleaf : ∀ v, (s.view s.used s.used).leaf ph₁ c v =
      translate s.phys.mem (s.procs c).space.root v := fun v => by
    rw [← hmem]
    rfl
  refine wp_userVmMap (V := s.view s.used s.used) hs₁ hc (Or.inr ⟨rfl, hheap⟩)
    (fun e hn hfail => ?_) fun s₂ fl₂ hs₂ hlow hmap hlen₂ htab => ?_
  · rw [hleaf] at hn hfail
    refine ⟨fun h => hn ⟨h.1, h.2.1, h.2.2.imp (fun _ => by omega) fun htab => ?_⟩, hfail⟩
    rw [← hmem] at htab
    exact htab
  · have hgranted : Granted iso L c _ s fl s₂.phys fl₂ :=
      hs₁.granted hmem hman hc hlow (hnew c _) hmap (by omega) htaken htab
    unfold PhysOnly at hs₂
    generalize s₂.phys = ph₂ at hs₂ hgranted
    subst hs₂
    exact ⟨rfl, ph₂, fl₂, hgranted, rfl⟩

theorem handleUserPageFault_spec (hs : Space iso L (s.view s.used s.used) s.phys fl)
    (hcur : s.current = some c) (hc : c ∈ s.used) (hfree : iso → s.phys.gFreeMemList ≠ 0)
    (sepc stval : Word) :
    Prog.wp (handleUserPageFault CAUSE_STORE_PAGE_FAULT sepc stval)
      (fun _ s' => ∃ ph fl' console, s' = { s with phys := ph, console := console } ∧
        (Granted iso L c stval s fl ph fl' ∨ fl.length < 3 ∧
          Space iso L (s.view s.used s.used) ph fl' ∧
          (∀ N W, Moved L N 0 W c s { s with phys := ph }) ∧ fl' = [] ∧
          stval < MAXVA ∧ ¬ HasTable s.phys.mem (s.procs c).space.root (vpn stval) ∧
          ∀ r ∈ (s.view s.used s.used).roots, ∀ v, translate ph.mem r v = translate s.phys.mem r v))
      (fun _ => False)
      (fun _ => ¬ (stval < MAXVA ∧
        translate s.phys.mem (s.procs c).space.root (vpn stval) = none)) s := by
  unfold handleUserPageFault
  rw [sprint, Prog.wp_bind, Prog.wp_modify, if_pos rfl]
  refine wp_currentProc hcur ?_
  rw [proc, Prog.wp_bind, Prog.wp_gets, Prog.wp_bind, wp_onPhys]
  refine allocPage_user hs hfree fun pa ph₁ fl₁ hs₁ hmem hman hlen₁ htaken hnew => ?_
  have hroot : addr (s.procs c).space.root = (s.procs c).pagetable := (hs.aligned c hc).pagetable
  dsimp only
  rw [Prog.wp_bind, wp_onPhys, ← hroot]
  refine Prog.wp_mono (mapPages_one hs₁.tables (View.root_mem hc) (Or.inl rfl)) ?_
    (fun _ h => h.elim) fun _ hn h => hn ?_
  · rintro _ ph₂ ⟨fl₂, ⟨-, hlow, hmap, hlen₂, htab⟩ | ⟨-, hlow, hmap, hlen₂, hnil, htab⟩⟩
    · exact ⟨ph₂, fl₂, _, rfl,
        Or.inl (hs₁.granted hmem hman hc hlow (hnew c _) hmap (by omega) htaken htab)⟩
    · refine ⟨ph₂, fl₂, _, rfl, Or.inr ⟨by omega, hs₁.mapNone hmap,
        fun _ _ => Moved.mapNone hs hs₁ hmem hc hmap, hnil, hlow, ?_, ?_⟩⟩
      · rw [← hmem]
        exact htab
      · rw [← hmem]
        exact hmap.leaf
  · rw [hmem]
    exact h

end Granted

theorem sysUserAllocatePage_mem (h : InTrap iso L N 0 c b s)
    (hfree : iso → s.phys.gFreeMemList ≠ 0) (hN : vpn s.gUfreePage ∈ N.mapped) :
    Returns iso L N PGSIZE c b sysUserAllocatePage (· = s.gUfreePage) s := by
  obtain ⟨fl, hs⟩ := h.mem.space
  refine Prog.wp_mono (sysUserAllocatePage_spec hs h.current h.used h.mem.heap hfree) ?_
    (fun _ h => h) fun _ _ => trivial
  rintro r s' ⟨hr, ph, fl', hgranted, rfl⟩
  refine ⟨⟨⟨⟨fl', hgranted.space⟩, add_PGSIZE_aligned h.mem.heap⟩, h.current, h.caller, ?_⟩, hr⟩
  have := h.moved.trans h.caller (hgranted.moved (g := PGSIZE) hs h.used hN rfl)
  simpa using this

theorem handleUserPageFault_mem (h : InTrap iso L N g c b s) (mcause sepc stval : Word)
    (hfree : iso → mcause = CAUSE_STORE_PAGE_FAULT → s.phys.gFreeMemList ≠ 0)
    (hN : mcause = CAUSE_STORE_PAGE_FAULT → vpn stval ∈ N.mapped) :
    Returns iso L N g c b (handleUserPageFault mcause sepc stval) (fun _ => True) s := by
  by_cases hcause : mcause = CAUSE_STORE_PAGE_FAULT
  · obtain ⟨fl, hs⟩ := h.mem.space
    rw [hcause]
    refine Prog.wp_mono (handleUserPageFault_spec hs h.current h.used (fun hi => hfree hi hcause)
      sepc stval) ?_ (fun _ h => h) fun _ _ => trivial
    rintro - s' ⟨ph, fl', console, rfl, hcases⟩
    have hstep : Space iso L (s.view s.used s.used) ph fl' ∧
        Moved L N 0 ∅ c s { s with phys := ph } := by
      rcases hcases with hgranted | ⟨-, hspace, hmoved, -⟩
      · exact ⟨hgranted.space, hgranted.moved hs h.used (hN hcause) (by simp)⟩
      · exact ⟨hspace, hmoved N ∅⟩
    have h₁ : InTrap iso L N g c b { s with phys := ph } :=
      h.move ⟨⟨fl', hstep.1⟩, h.mem.heap⟩ hstep.2 rfl
    exact ⟨h₁.same ⟨rfl, rfl, rfl, fun _ => rfl, fun _ => rfl, fun _ => Iff.rfl⟩ rfl, trivial⟩
  · unfold Returns handleUserPageFault
    rw [sprint, Prog.wp_bind, Prog.wp_modify, if_neg hcause, sprint, Prog.wp_modify]
    exact ⟨(h.sprint _).sprint _, trivial⟩

/-! ## Releasing a page -/

/-- The page at `va` is mapped for user mode, and no other entry of any process
    maps its frame. -/
def Releasable (s : Kernel) (c : Pid) (va : Word) : Prop :=
  ∃ w, translate s.phys.mem (ppn (s.procs c).pagetable) (vpn va) = some w ∧ w &&& PTE_U ≠ 0 ∧
    ∀ j, (s.procs j).status ≠ .FREE → ∀ v w',
      translate s.phys.mem (ppn (s.procs j).pagetable) v = some w' → ptePpn w' = ptePpn w →
        j = c ∧ v = vpn va

theorem Space.start_ne_zero {V : View} {ph : Phys} {fl : List Ppn} (h : Space iso L V ph fl) :
    ph.freeMemStartAddr ≠ 0 := by
  intro h0
  have := h.base_le
  rw [h0] at this
  exact absurd this (by decide)

/-- `free_page` of a page that is mapped, by a frame that is no table and not free. -/
theorem sysUserFreePage_spec {fl : List Ppn} {va w : Word}
    (hs : Space iso L (s.view s.used s.used) s.phys fl) (hcur : s.current = some c)
    (hc : c ∈ s.used) (hw : translate s.phys.mem (s.procs c).space.root (vpn va) = some w)
    (htab : ptePpn w ∉ tablePages s.phys.mem (s.view s.used s.used).roots)
    (hfl : ptePpn w ∉ fl) :
    Prog.wp (sysUserFreePage va)
      (fun r s' => r = 0 ∧ ∃ ph, s' = { s with phys := ph } ∧
        UnmapOne (s.view s.used s.used).roots (s.procs c).space.root (vpn va) (ptePpn w)
          s.phys fl ph)
      (fun _ => False)
      (fun _ => ¬ (va < MAXVA ∧ va % PGSIZE = 0 ∧ Managed s.phys (ptePpn w))) s := by
  have hroot : addr (s.procs c).space.root = (s.procs c).pagetable := (hs.aligned c hc).pagetable
  unfold sysUserFreePage
  refine wp_currentProc hcur ?_
  rw [proc, Prog.wp_bind, Prog.wp_gets, Prog.wp_bind, wp_onPhys, ← hroot]
  refine Prog.wp_mono (userVmUnmap_mapped hs.tables (View.root_mem hc) hw htab hfl hs.start_ne_zero
    _ _) (fun _ ph' hunmap => ⟨rfl, ph', rfl, hunmap⟩) (fun _ h => h.elim) fun _ h => h

theorem sysUserFreePage_mem (h : InTrap iso L N g c b s) {va : Word} (hva : Releasable s c va)
    (hN : vpn va ∈ N.unmapped) :
    Returns iso L N g c b (sysUserFreePage va) (· = 0) s := by
  obtain ⟨fl, hs⟩ := h.mem.space
  obtain ⟨w, hw, hU, hsole⟩ := hva
  have hspare := hs.user c h.used (vpn va) w hw hU
  refine Prog.wp_mono (sysUserFreePage_spec hs h.current h.used hw hspare.table hspare.free) ?_
    (fun _ h => h) fun _ _ => trivial
  rintro r s' ⟨hr, ph', rfl, hunmap⟩
  exact ⟨h.move ⟨⟨_, hs.unmapOne h.used hw hU hsole hunmap⟩, h.mem.heap⟩
    (Moved.unmapOne hs h.used hN hw hU hunmap) rfl, hr⟩

/-! ## Printing -/

theorem userVaToPa_same {V : View} {ph : Phys} {fl : List Ppn} (h : Space iso L V ph fl)
    (hc : c ∈ V.all) (va : Word) :
    Prog.wp (userVaToPa (V.procs c).pagetable va) (fun _ ph' => ph' = ph) (fun _ => False)
      (fun _ => True) ph := by
  rw [userVaToPa, ← (h.aligned c hc).pagetable, Prog.wp_bind]
  by_cases hva : va < MAXVA
  · rw [Prog.wp_of_ret (pageWalk_lookup hva _ _)]
    split_ifs
    · rfl
    · rfl
  · rw [pageWalk, if_pos (BitVec.not_lt.mp hva)]
    trivial

theorem sysUserPrint_mem (h : InTrap iso L N g c b s) (buf n : Word) :
    Returns iso L N g c b (sysUserPrint buf n) (· = 0) s := by
  obtain ⟨fl, hs⟩ := h.mem.space
  unfold Returns sysUserPrint
  rw [Prog.wp_bind, Prog.wp_gets, h.current]
  dsimp only
  rw [proc, Prog.wp_bind, Prog.wp_gets, Prog.wp_bind, wp_onPhys]
  refine Prog.wp_mono (userVaToPa_same (V := s.view s.used s.used) hs h.used buf) ?_
    (fun _ h => h.elim) fun _ _ => trivial
  rintro pa _ rfl
  rw [sprintUser, Prog.wp_bind, Prog.wp_bind, Prog.wp_gets]
  split_ifs
  · trivial
  · cases cstring s.phys.mem (PHYS_TOP.toNat - pa.toNat) pa with
    | none => trivial
    | some bs => exact ⟨h.sprint _, rfl⟩

/-! ## Forking -/

theorem doFork_mem {s₀ : Kernel} {Q : List Pid} (h : InTrap iso L N g c b s)
    (hsched : SchedInv s₀ c Q) (hsame : SchedSame { s₀ with console := [] } s)
    (hprocs : s.procs = s₀.procs) (hcode : iso → ¬ s.HasCode c) :
    Returns iso L N g c b (doFork L c)
      (fun r => ∃ child, firstFree s₀.procs = some child ∧ r = asInt (s₀.procs child).pid) s := by
  have hused₀ : s₀.used = s.used := by
    unfold Kernel.used
    rw [hprocs]
  obtain ⟨fl, hs⟩ := h.mem.space
  refine Prog.wp_mono (doFork_made hsched hsame hprocs (by rw [hused₀]; exact hs) hcode) ?_
    (fun _ h => h) fun _ _ => trivial
  rintro r s' ⟨child, fl', ⟨hforked, hr⟩, hmade⟩
  rw [hused₀] at hmade
  have hchild : child ∉ s.used := fun hu => hu (by
    rw [hprocs]
    exact firstFree_status hforked.free)
  have hused : s'.used = insert child s.used := by
    ext j
    by_cases hj : j = child
    · subst hj
      simp [Kernel.used, hforked.born.1]
    · simp [Kernel.used, hj, (hforked.role j hj).1, hprocs]
  have hheap : s'.gUfreePage % PGSIZE = 0 := by
    rw [hmade.heap]
    exact h.mem.heap
  refine ⟨h.move ⟨⟨fl', ?_⟩, hheap⟩ (hmade.moved hs h.used hchild hused N) ?_, child,
    hforked.free, hr⟩
  · rw [hused]
    exact hmade.space
  · rw [hforked.current, hsched.current, h.current]

end Pke
