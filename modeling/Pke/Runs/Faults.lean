import Mathlib.Order.Interval.Finset.Nat
import Pke.Runs.Memory

/-!
# Pages for user mode

`sys_user_allocate_page` (`kernel/syscall.c` lines 45–53) and the handler for store page
faults (`kernel/strap.c` lines 53–64) hand the answer of `alloc_page` to `map_pages`
without looking at it, and pass any address to `page_walk`:

* with no page left, frame 0 is mapped whenever the third-level table is there already;
* a fault at an address that is mapped, but not for user stores, or that is out of
  range stops the kernel.
-/

namespace Pke

open Lib

variable {L : Layout} {h : Host} {s b b' : Kernel} {c : Pid} {fl : List Ppn} {va sepc stval : Word}

/-- The page tables of a state: that of the kernel and those of the processes. -/
abbrev Kernel.pageTables (b : Kernel) : Set Ppn := (b.view b.used b.used).roots

/-- The page table of a process. -/
abbrev Kernel.tableOf (b : Kernel) (c : Pid) : Ppn := ppn (b.procs c).pagetable

/-- The handler for a trap of process `c` that was taken in the state `s` runs in the
    state `b`: the trapframe of `c` is written, and the hart and the console may differ. -/
structure InHandler (s : Kernel) (c : Pid) (b : Kernel) : Prop where
  trapped : s.current = some c
  current : b.current = some c
  frame : FrameOnly c s b

/-- System calls run in such a state, -/
theorem MemInv.inHandler_syscall {iso : Prop} {Q : List Pid} (hm : MemInv iso L s)
    (hsched : SchedInv s c Q) (t : TrapInput) : InHandler s c (inSyscall t c s) :=
  ⟨hsched.current, hsched.current, hm.inSyscall_frameOnly
    ((hsched.live c).mp List.mem_cons_self).1 hsched.scratch t⟩

/-- and so does the handler for page faults. -/
theorem MemInv.inHandler_fault {iso : Prop} {Q : List Pid} (hm : MemInv iso L s)
    (hsched : SchedInv s c Q) (t : TrapInput) : InHandler s c (entered t c s) :=
  ⟨hsched.current, hsched.current, hm.entered_frameOnly
    ((hsched.live c).mp List.mem_cons_self).1 hsched.scratch t⟩

/-- Memory is in order in the handler, too. -/
theorem InHandler.space (hb : InHandler s c b) (hload : h.LoadsOk Set.univ)
    (hs : Reach L h (StepOk False) s) :
    (∃ fl, Space False L (b.view b.used b.used) b.phys fl) ∧ c ∈ b.used ∧
      b.gUfreePage % PGSIZE = 0 := by
  obtain ⟨hm, q, Q, hsched⟩ := hs.mem hload
  obtain rfl : q = c := Option.some.inj (hsched.current.symm.trans hb.trapped)
  have hc : q ∈ s.used := ((hsched.live q).mp List.mem_cons_self).1
  obtain ⟨fl, hspace⟩ := hm.space
  refine ⟨⟨fl, hb.frame.space hc hspace⟩, by rw [hb.frame.used]; exact hc, ?_⟩
  rw [hb.frame.heap]
  exact hm.heap

theorem gFreeMemList_eq_zero {ph : Phys} (hfl : FreeList ph fl) :
    ph.gFreeMemList = 0 ↔ fl = [] := by
  constructor
  · intro h0
    unfold FreeList at hfl
    rw [h0] at hfl
    match fl, hfl with
    | [], _ => rfl
    | p :: l, ⟨hp, h0', _⟩ => exact absurd hp.symm h0'
  · rintro rfl
    exact hfl

/-! ## Without free pages -/

/-- Every entry that became valid from `b` to `b'` has a frame that was taken off the free
    list; with an empty free list no entry changed. -/
structure MapsTaken (b b' : Kernel) : Prop where
  taken : ∀ r ∈ b.pageTables, ∀ v w, translate b.phys.mem r v = none →
    translate b'.phys.mem r v = some w → ptePpn w ≠ 0 ∧
      ∃ fl fl', FreeList b.phys fl ∧ FreeList b'.phys fl' ∧ ptePpn w ∈ fl ∧ ptePpn w ∉ fl'
  exhausted : b.phys.gFreeMemList = 0 → ∀ r ∈ b.pageTables, ∀ v,
    translate b'.phys.mem r v = translate b.phys.mem r v

/-- There is no free page, and the page of `va` is unmapped, but its third-level table is
    there. -/
def NullMapped (b : Kernel) (c : Pid) (va : Word) : Prop :=
  b.phys.gFreeMemList = 0 ∧ va < MAXVA ∧ translate b.phys.mem (b.tableOf c) (vpn va) = none ∧
    HasTable b.phys.mem (b.tableOf c) (vpn va)

section Granted

variable {fl' : List Ppn} (hspace : Space False L (b.view b.used b.used) b.phys fl)
  (hg : Granted False L c va b fl b'.phys fl')

include hspace hg

theorem Granted.mapsTaken (hne : fl ≠ []) : MapsTaken b b' := by
  obtain ⟨pa, htaken, hleaf⟩ := hg.leaf
  obtain ⟨p, rfl, h0, hp, hp', -⟩ := htaken.resolve_left fun hnil => hne hnil.1
  have hfl := hspace.tables.free
  refine ⟨fun r hr v w hnone hw => ?_, fun h0 => absurd ((gFreeMemList_eq_zero hfl).mp h0) hne⟩
  rw [hleaf r hr] at hw
  split_ifs at hw with hv
  · obtain rfl := Option.some.inj hw
    rw [ptePpn_mkPte _ (by decide), ppn_addr]
    exact ⟨h0, fl, fl', hfl, hg.space.tables.free, List.mem_of_mem_head? hp, hp'⟩
  · rw [hnone] at hw
    cases hw

/-- With an empty free list the page is mapped all the same. -/
theorem Granted.not_mapsTaken (hc : c ∈ b.used) (hnil : fl = []) : ¬ MapsTaken b b' := by
  intro hmaps
  obtain ⟨pa, -, hleaf⟩ := hg.leaf
  have hr := View.root_mem (V := b.view b.used b.used) hc
  have hnew := hleaf _ hr (vpn va)
  rw [if_pos ⟨rfl, rfl⟩,
    hmaps.exhausted ((gFreeMemList_eq_zero hspace.tables.free).mpr hnil) _ hr] at hnew
  cases hnew.symm.trans hg.unmapped

end Granted

theorem Granted.nullMapped {ph : Phys} {fl' : List Ppn} (hg : Granted False L c va b fl ph fl')
    (hspace : Space False L (b.view b.used b.used) b.phys fl) (hnil : fl = []) :
    NullMapped b c va :=
  ⟨(gFreeMemList_eq_zero hspace.tables.free).mpr hnil, hg.low, hg.unmapped, hg.table hnil⟩

/-- A fault that used up the last pages for tables changed no entry. -/
theorem mapsTaken_of_same (hsame : ∀ r ∈ b.pageTables, ∀ v,
    translate b'.phys.mem r v = translate b.phys.mem r v) : MapsTaken b b' := by
  refine ⟨fun r hr v w hnone hw => ?_, fun _ => hsame⟩
  rw [hsame r hr, hnone] at hw
  cases hw

/-- **Memory exhaustion.** A call of `sys_user_allocate_page`, or of the handler for a
    store page fault, maps nothing but a frame it took off the free list, unless the free
    list is empty and the third-level table for the unmapped page is there. -/
theorem exhaustion_maps_iff (hload : h.LoadsOk Set.univ) (hs : Reach L h (StepOk False) s)
    (hb : InHandler s c b) :
    ((∀ va b', sysUserAllocatePage b = .ret va b' → MapsTaken b b') ↔
      ¬ NullMapped b c b.gUfreePage) ∧
    ∀ sepc stval, (∀ b', handleUserPageFault CAUSE_STORE_PAGE_FAULT sepc stval b = .ret () b' →
      MapsTaken b b') ↔ ¬ NullMapped b c stval := by
  obtain ⟨⟨fl, hspace⟩, hc, hheap⟩ := hb.space hload hs
  have hfl := hspace.tables.free
  refine ⟨⟨fun hall hnull => ?_, fun hn va b' hret => ?_⟩, fun sepc stval =>
    ⟨fun hall hnull => ?_, fun hn b' hret => ?_⟩⟩
  · obtain ⟨h0, hlow, hnone, htab⟩ := hnull
    obtain ⟨va, b', hret, -, ph, fl', hg, rfl⟩ := Prog.returns_of_wp
      (sysUserAllocatePage_spec hspace hb.current hc hheap fun hf => hf.elim)
      fun _ he => he.1 ⟨hlow, hnone, Or.inr htab⟩
    exact absurd (hall _ _ hret)
      (hg.not_mapsTaken hspace hc ((gFreeMemList_eq_zero hfl).mp h0))
  · obtain ⟨-, ph, fl', hg, rfl⟩ := Prog.wp_ret
      (sysUserAllocatePage_spec hspace hb.current hc hheap fun hf => hf.elim) hret
    exact hg.mapsTaken hspace fun hnil => hn (hg.nullMapped hspace hnil)
  · obtain ⟨h0, hlow, hnone, htab⟩ := hnull
    obtain ⟨⟨⟩, b', hret, ph, fl', console, rfl, hg | ⟨-, -, -, -, -, hno, -⟩⟩ := Prog.returns_of_wp
      (handleUserPageFault_spec hspace hb.current hc (fun hf => hf.elim) sepc stval)
      fun _ he => he ⟨hlow, hnone⟩
    · exact absurd (hall _ hret)
        (hg.not_mapsTaken hspace hc ((gFreeMemList_eq_zero hfl).mp h0))
    · exact hno htab
  · obtain ⟨ph, fl', console, rfl, hg | ⟨-, -, -, -, -, -, hsame⟩⟩ := Prog.wp_ret
      (handleUserPageFault_spec hspace hb.current hc (fun hf => hf.elim) sepc stval) hret
    · exact hg.mapsTaken hspace fun hnil =>
        hn (hg.nullMapped hspace hnil)
    · exact mapsTaken_of_same hsame

/-- The first process calls `allocate_page` and gets one of the free pages. -/
theorem exhaustion_maps_sample : ∃ s b va b',
    Reach sampleLayout (sampleHost 5 8) (StepOk False) s ∧ InHandler s 0 b ∧
      sysUserAllocatePage b = .ret va b' ∧ MapsTaken b b' := by
  obtain ⟨s, hboot, hb⟩ := sampleBoot
  obtain ⟨fl, hs, hlen⟩ := hb.space
  have h0 := hb.mem_used
  have hpages : 200 ≤ (sampleHost 5 8).pageCount sampleLayout := by decide
  have hin := hb.memInv.inHandler_syscall hb.booted.sched (call SYS_user_allocate_page 0)
  have hspace := hin.frame.space h0 hs
  have hheap : (inSyscall (call SYS_user_allocate_page 0) 0 s).gUfreePage =
      USER_FREE_ADDRESS_START := hin.frame.heap.trans hb.heap
  have hnone : translate (inSyscall (call SYS_user_allocate_page 0) 0 s).phys.mem
      (s.procs 0).space.root (vpn USER_FREE_ADDRESS_START) = none :=
    (hin.frame.translate_eq h0 hs h0 _).trans (hb.unmapped (by decide) (by decide) (by decide))
  obtain ⟨va, b', hret, -⟩ := Prog.returns_of_wp
    (sysUserAllocatePage_spec hspace hin.current (by rw [hin.frame.used]; exact h0)
      (by rw [hheap]; decide) fun hf => hf.elim)
    fun _ he => he.1 (by rw [hheap]; exact ⟨by decide, hnone, Or.inl (by omega)⟩)
  refine ⟨s, _, va, b', .boot hboot, hin, hret,
    (exhaustion_maps_iff sampleHost_loads (.boot hboot) hin).1.mpr ?_ va b' hret⟩
  rintro ⟨hzero, -⟩
  have hnil := (gFreeMemList_eq_zero hspace.tables.free).mp hzero
  rw [hnil, List.length_nil] at hlen
  omega

/-! ### A run that uses up the memory -/

/-- There are at most 32768 pages. -/
theorem Space.length_le {iso : Prop} {V : View} {ph : Phys} (h : Space iso L V ph fl) :
    fl.length ≤ 2 ^ 15 := by
  have h1 := h.base_le
  have h2 := h.hi
  rw [BitVec.le_def] at h1 h2
  rw [show KERN_BASE.toNat = 2 ^ 31 from rfl] at h1
  rw [show PHYS_TOP.toNat = 2 ^ 31 + 2 ^ 27 from rfl] at h2
  have hsub : (fl.map (·.toNat)).toFinset ⊆ Finset.Ico (2 ^ 19) (2 ^ 19 + 2 ^ 15) := by
    intro n hn
    obtain ⟨p, hp, rfl⟩ := List.mem_map.mp (List.mem_toFinset.mp hn)
    obtain ⟨h3, h4⟩ := h.managed p (Or.inl hp)
    rw [BitVec.le_def, addr_toNat] at h3
    rw [BitVec.lt_def, addr_toNat] at h4
    rw [Finset.mem_Ico]
    omega
  have hnodup : (fl.map (·.toNat)).Nodup :=
    h.tables.free.nodup.map fun _ _ => BitVec.eq_of_toNat_eq
  have hcard := Finset.card_le_card hsub
  rw [List.toFinset_card_of_nodup hnodup, List.length_map, Nat.card_Ico] at hcard
  omega

/-- A store page fault at `va`. -/
def faultAt (va : Word) : TrapInput where
  regs _ := 0
  sepc := 0
  scause := CAUSE_STORE_PAGE_FAULT
  stval := va

/-- The `j`-th page of a range that the application does not use. -/
def emptyPage (j : ℕ) : Word := BitVec.ofNat 64 (0x10000000 + j * 4096)

theorem emptyPage_toNat {j : ℕ} (hj : j ≤ 2 ^ 15) :
    (emptyPage j).toNat = 0x10000000 + j * 4096 := by
  rw [emptyPage, BitVec.toNat_ofNat, Nat.mod_eq_of_lt (by omega)]

/-- The first process runs, its segment is mapped and the page behind it is not, and the
    empty range is untouched from its `k`-th page on. -/
structure Draining (s : Kernel) (k : ℕ) (fl : List Ppn) : Prop where
  reach : Reachable sampleLayout (sampleHost 5 8) s
  sched : ∃ Q, SchedInv s 0 Q
  heap : s.gUfreePage % PGSIZE = 0
  space : Space False sampleLayout (s.view s.used s.used) s.phys fl
  empty : ∀ j, k ≤ j → j ≤ 2 ^ 15 →
    translate s.phys.mem (s.procs 0).space.root (vpn (emptyPage j)) = none
  segment : translate s.phys.mem (s.procs 0).space.root (vpn 0x10000) ≠ none
  behind : translate s.phys.mem (s.procs 0).space.root (vpn 0x11000) = none

/-- One fault takes a page at least. -/
theorem Draining.step {k : ℕ} (hd : Draining s k fl) (hk : k ≤ 2 ^ 15) (hne : fl ≠ []) :
    ∃ s' fl', Draining s' (k + 1) fl' ∧ fl'.length < fl.length := by
  obtain ⟨Q, hsched⟩ := hd.sched
  have hm : MemInv False sampleLayout s := ⟨⟨fl, hd.space⟩, hd.heap⟩
  have h0 : (0 : Pid) ∈ s.used := ((hsched.live 0).mp List.mem_cons_self).1
  have hkN := emptyPage_toNat hk
  have hlow : emptyPage k < MAXVA := lt_MAXVA (by omega)
  obtain ⟨s', hexit, hcases⟩ := Prog.exits_of_wp
    (trap_storeFault (t := faultAt (emptyPage k)) hm hsched hd.space rfl fun hf => hf.elim)
    fun _ hn => hn ⟨hlow, hd.empty k le_rfl hk⟩
  have hreach : Reachable sampleLayout (sampleHost 5 8) s' :=
    .step hd.reach trivial (.trap hexit)
  obtain ⟨q, Q', hsched', -⟩ := hsched.step (.trap hexit)
  rcases hcases with ⟨fl', hg⟩ | ⟨-, hdry⟩
  · obtain ⟨pa, htaken, hleaf⟩ := hg.leaf
    obtain ⟨p, -, -, -, -, hlen⟩ := htaken.resolve_left fun hnil => hne hnil.1
    obtain rfl : q = 0 := Option.some.inj (hsched'.current.symm.trans hg.current)
    have hother : ∀ va : Word, va.toNat < 2 ^ 38 → va.toNat / 4096 ≠ 0x10000 + k →
        translate s'.phys.mem (s'.procs 0).space.root (vpn va) =
          translate s.phys.mem (s.procs 0).space.root (vpn va) := fun va hva hdiff => by
      rw [hg.procs, hleaf 0 h0, if_neg]
      exact fun heq => vpn_ne (b := emptyPage k) (by omega) (by omega) (by omega) heq.2
    refine ⟨s', fl', ⟨hreach, ⟨Q', hsched'⟩, by rw [hg.heap]; simpa using hd.heap, hg.space,
      fun j hj hj' => ?_, ?_, ?_⟩, hlen⟩
    · have hjN := emptyPage_toNat hj'
      rw [hother _ (by omega) (by omega)]
      exact hd.empty j (by omega) hj'
    · rw [hother _ (by decide) (by simp; omega)]
      exact hd.segment
    · rw [hother _ (by decide) (by simp; omega)]
      exact hd.behind
  · obtain rfl : q = 0 := Option.some.inj (hsched'.current.symm.trans hdry.current)
    have hsame : ∀ v, translate s'.phys.mem (s'.procs 0).space.root v =
        translate s.phys.mem (s.procs 0).space.root v := fun v => by
      rw [hdry.procs]
      exact hdry.leaf 0 h0 v
    refine ⟨s', [], ⟨hreach, ⟨Q', hsched'⟩, by rw [hdry.heap]; exact hd.heap, hdry.space,
      fun j hj hj' => ?_, ?_, ?_⟩, List.length_pos_iff.mpr hne⟩
    · rw [hsame]
      exact hd.empty j (by omega) hj'
    · rw [hsame]
      exact hd.segment
    · rw [hsame]
      exact hd.behind

/-- Faults go on until no page is left. -/
theorem Draining.run : ∀ {n k : ℕ} {s : Kernel} {fl : List Ppn}, Draining s k fl → fl.length ≤ n →
    k + n ≤ 2 ^ 15 → ∃ s' k', Draining s' k' [] := by
  intro n
  induction n with
  | zero =>
    intro k s fl hd hlen _
    exact ⟨s, k, List.length_eq_zero_iff.mp (Nat.le_zero.mp hlen) ▸ hd⟩
  | succ n ih =>
    intro k s fl hd hlen hk
    by_cases hnil : fl = []
    · exact ⟨s, k, hnil ▸ hd⟩
    · obtain ⟨s', fl', hd', hlen'⟩ := hd.step (by omega) hnil
      exact ih hd' (by omega) (by omega)

theorem sampleHost_drained : ∃ s k, Draining s k [] := by
  obtain ⟨s, hboot, hb⟩ := sampleBoot
  obtain ⟨fl, hs, -⟩ := hb.space
  have hd : Draining s 0 fl := by
    refine ⟨.boot hboot, ⟨[], hb.booted.sched⟩, hb.memInv.heap, hs, fun j _ hj => ?_, ?_, ?_⟩
    · have hjN := emptyPage_toNat hj
      have hstack : (USER_STACK_TOP - PGSIZE).toNat = 0x7FFFE000 := by decide
      refine hb.unmapped ?_ (vpn_ne (by omega) (by decide) (by omega))
        (vpn_ne (by omega) (by decide) ?_)
      · rw [BitVec.lt_def, show KERN_BASE.toNat = 2 ^ 31 from rfl]
        omega
      · rw [show (sampleSegment 5).vaddr.toNat = 0x10000 from rfl]
        omega
    · obtain ⟨p, -, hw⟩ := hb.segment_leaf
      have hw' : translate s.phys.mem (s.procs 0).space.root (vpn 0x10000) = _ := hw
      rw [hw']
      exact Option.some_ne_none _
    · exact hb.unmapped (by decide) (by decide) (by decide)
  exact hd.run hs.length_le (by omega)

/-- The memory is used up, and a fault behind the segment maps frame 0. -/
theorem fault_maps_null : ∃ s b b', Reachable sampleLayout (sampleHost 5 8) s ∧ InHandler s 0 b ∧
    handleUserPageFault CAUSE_STORE_PAGE_FAULT 0 0x11000 b = .ret () b' ∧ ¬ MapsTaken b b' := by
  obtain ⟨s, k, hd⟩ := sampleHost_drained
  obtain ⟨Q, hsched⟩ := hd.sched
  have hm : MemInv False sampleLayout s := ⟨⟨[], hd.space⟩, hd.heap⟩
  have h0 : (0 : Pid) ∈ s.used := ((hsched.live 0).mp List.mem_cons_self).1
  have hin := hm.inHandler_fault hsched (faultAt 0x11000)
  have hspace := hin.frame.space h0 hd.space
  have hc : (0 : Pid) ∈ (entered (faultAt 0x11000) 0 s).used := by
    rw [hin.frame.used]
    exact h0
  have hnone : translate (entered (faultAt 0x11000) 0 s).phys.mem
      ((entered (faultAt 0x11000) 0 s).procs 0).space.root (vpn 0x11000) = none :=
    (hin.frame.translate_eq h0 hd.space h0 _).trans hd.behind
  obtain ⟨⟨⟩, b', hret, ph, fl', console, rfl, hg | ⟨-, -, -, -, -, hno, -⟩⟩ := Prog.returns_of_wp
    (handleUserPageFault_spec hspace hin.current hc (fun hf => hf.elim) 0 0x11000)
    fun _ he => he ⟨by decide, hnone⟩
  · exact ⟨s, _, _, hd.reach, hin, hret, hg.not_mapsTaken hspace hc rfl⟩
  · -- the segment has the same third-level table
    obtain ⟨w, hw⟩ := Option.ne_none_iff_exists'.mp hd.segment
    exact absurd ((hin.frame.hasTable h0 hd.space h0 (vpn 0x11000)).mpr
      (nodeAt_of_translate hw (by decide))) hno

/-! ## Store page faults -/

/-- From `b` to `b'` nothing was mapped but the page of `va` in the table of process `c`,
    for user mode, to read and write, to a frame taken off the free list. -/
def MapsPage (b : Kernel) (c : Pid) (va : Word) (b' : Kernel) : Prop :=
  translate b.phys.mem (b.tableOf c) (vpn va) = none ∧
    ∃ w fl fl', FreeList b.phys fl ∧ FreeList b'.phys fl' ∧ ptePpn w ∈ fl ∧ ptePpn w ∉ fl' ∧
      w &&& PTE_R ≠ 0 ∧ w &&& PTE_W ≠ 0 ∧ w &&& PTE_U ≠ 0 ∧
      ∀ r ∈ b.pageTables, ∀ v, translate b'.phys.mem r v =
        if r = b.tableOf c ∧ v = vpn va then some w else translate b.phys.mem r v

theorem Granted.mapsPage {fl' : List Ppn} (hspace : Space False L (b.view b.used b.used) b.phys fl)
    (hg : Granted False L c va b fl b'.phys fl') (hne : fl ≠ []) : MapsPage b c va b' := by
  obtain ⟨pa, htaken, hleaf⟩ := hg.leaf
  obtain ⟨p, rfl, -, hp, hp', -⟩ := htaken.resolve_left fun hnil => hne hnil.1
  have hppn : ptePpn (mkPte (addr p) userDataPerm) = p := by
    rw [ptePpn_mkPte _ (by decide), ppn_addr]
  refine ⟨hg.unmapped, _, fl, fl', hspace.tables.free, hg.space.tables.free,
    by rw [hppn]; exact List.mem_of_mem_head? hp, by rwa [hppn], userData_leaf_readable _, ?_,
    userData_leaf_user _, hleaf⟩
  rw [mkPte_and_flag _ _ (by decide)]
  decide

/-- **Store page faults.** With a page on the free list, the handler for a store page
    fault returns, and has changed no translation or mapped exactly the page of the
    address, exactly if the address is in range and its page is not mapped. -/
theorem storeFault_safe_iff (hload : h.LoadsOk Set.univ) (hs : Reach L h (StepOk False) s)
    (hb : InHandler s c b) (hfree : b.phys.gFreeMemList ≠ 0) :
    (∃ b', handleUserPageFault CAUSE_STORE_PAGE_FAULT sepc stval b = .ret () b' ∧
      ((∀ r ∈ b.pageTables, ∀ v, translate b'.phys.mem r v = translate b.phys.mem r v) ∨
        MapsPage b c stval b')) ↔
      stval < MAXVA ∧ translate b.phys.mem (b.tableOf c) (vpn stval) = none := by
  obtain ⟨⟨fl, hspace⟩, hc, -⟩ := hb.space hload hs
  have hspec := handleUserPageFault_spec hspace hb.current hc (fun hf => hf.elim) sepc stval
  have hne : fl ≠ [] := fun hnil => hfree ((gFreeMemList_eq_zero hspace.tables.free).mpr hnil)
  constructor
  · rintro ⟨b', hret, -⟩
    obtain ⟨ph, fl', console, rfl, hg | ⟨-, -, -, -, hlow, hno, -⟩⟩ := Prog.wp_ret hspec hret
    · exact ⟨hg.low, hg.unmapped⟩
    · refine ⟨hlow, Option.eq_none_iff_forall_ne_some.mpr fun w hw => hno ?_⟩
      exact nodeAt_of_translate hw List.prefix_rfl
  · intro hin
    obtain ⟨⟨⟩, b', hret, ph, fl', console, rfl, hcases⟩ :=
      Prog.returns_of_wp hspec fun _ hn => hn hin
    refine ⟨_, hret, ?_⟩
    rcases hcases with hg | ⟨-, -, -, -, -, -, hsame⟩
    · exact Or.inr (hg.mapsPage hspace hne)
    · exact Or.inl hsame

/-- The first process stores behind its segment. -/
theorem storeFault_safe_sample : ∃ s b, Reach sampleLayout (sampleHost 5 8) (StepOk False) s ∧
    InHandler s 0 b ∧
      ∃ b', handleUserPageFault CAUSE_STORE_PAGE_FAULT 0 0x11000 b = .ret () b' := by
  obtain ⟨s, hboot, hb⟩ := sampleBoot
  obtain ⟨fl, hs, hlen⟩ := hb.space
  have hpages : 200 ≤ (sampleHost 5 8).pageCount sampleLayout := by decide
  have hin := hb.memInv.inHandler_fault hb.booted.sched (faultAt 0x11000)
  have hfree : (entered (faultAt 0x11000) 0 s).phys.gFreeMemList ≠ 0 := fun h0 => by
    have hnil := (gFreeMemList_eq_zero hs.tables.free).mp (by rwa [hin.frame.phys] at h0)
    rw [hnil, List.length_nil] at hlen
    omega
  have hnone := (hin.frame.translate_eq hb.mem_used hs hb.mem_used (vpn 0x11000)).trans
    (hb.unmapped (by decide) (by decide) (by decide))
  obtain ⟨b', hret, -⟩ := (@storeFault_safe_iff _ _ _ _ _ 0 _ sampleHost_loads (.boot hboot) hin
    hfree).mpr ⟨by decide, hnone⟩
  exact ⟨s, _, .boot hboot, hin, b', hret⟩

/-- The first process stores to an address out of range. -/
theorem storeFault_panics : ∃ s b, Reachable sampleLayout (sampleHost 5 8) s ∧ InHandler s 0 b ∧
    b.phys.gFreeMemList ≠ 0 ∧ ∀ b',
      handleUserPageFault CAUSE_STORE_PAGE_FAULT 0 MAXVA b ≠ .ret () b' := by
  obtain ⟨s, hboot, hb⟩ := sampleBoot
  obtain ⟨fl, hs, hlen⟩ := hb.space
  have hpages : 200 ≤ (sampleHost 5 8).pageCount sampleLayout := by decide
  have hin := hb.memInv.inHandler_fault hb.booted.sched (faultAt MAXVA)
  refine ⟨s, _, .boot hboot, hin, fun h0 => ?_, fun b' hret => ?_⟩
  · have hnil := (gFreeMemList_eq_zero hs.tables.free).mp (by rwa [hin.frame.phys] at h0)
    rw [hnil, List.length_nil] at hlen
    omega
  · have hspace := hin.frame.space hb.mem_used hs
    have hc : (0 : Pid) ∈ (entered (faultAt MAXVA) 0 s).used := by
      rw [hin.frame.used]
      exact hb.mem_used
    obtain ⟨ph, fl', console, -, hg | ⟨-, -, -, -, hlow, -⟩⟩ := Prog.wp_ret
      (handleUserPageFault_spec hspace hin.current hc (fun hf => hf.elim) 0 MAXVA) hret
    · exact absurd hg.low (by decide)
    · exact absurd hlow (by decide)

end Pke
