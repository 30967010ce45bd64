import Pke.Boot.Single
import Pke.Space.Steps
import Pke.Mm.Unmap

/-!
# Memory in every state reached

What `MemInv` says about the running system, and the calls that break it:

* the free list stays sound as long as `free_page` is called for pages whose
  frame is mapped once; a second call for the same page makes the list cyclic;
* processes are isolated as long as no process with code is forked and the free
  list is not empty; a fork maps the code of the parent, which the parent may
  write, in the child.
-/

namespace Pke

open Lib Radix

variable {iso : Prop} {L : Layout} {h : Host} {s s' : Kernel} {c : Pid} {Q : List Pid}
  {t : TrapInput} {fl : List Ppn} {w : Word}

/-! ## The free list -/

/-- The free list is finite and without duplicates, consists of managed pages, and
    no process maps one of them. -/
structure FreeListSound (s : Kernel) (fl : List Ppn) : Prop where
  list : FreeList s.phys fl
  nodup : fl.Nodup
  managed : ∀ p ∈ fl, Managed s.phys p
  unmapped : ∀ i, (s.procs i).status ≠ .FREE → ∀ v w,
    translate s.phys.mem (ppn (s.procs i).pagetable) v = some w → ptePpn w ∉ fl

theorem Space.freeListSound (hs : Space iso L (s.view s.used s.used) s.phys fl) :
    FreeListSound s fl where
  list := hs.tables.free
  nodup := hs.tables.free.nodup
  managed p hp := hs.managed p (Or.inl hp)
  unmapped _ hi _ _ hw := hs.leaf_not_free hi hw

/-- Process `c` is back from `free_page` for the page `v`, whose entry in the table `q` names
    the frame `f`. -/
def afterUnmap (L : Layout) (t : TrapInput) (c : Pid) (q f : Ppn) (v : Vpn) (s : Kernel) :
    Kernel :=
  returned L c 0 { inSyscall t c s with phys := released (inSyscall t c s).phys q f v }

/-- A call of `free_page` for a page that has an entry, valid or not. -/
theorem trap_unmap (hm : MemInv iso L s) (hsched : SchedInv s c Q)
    (ht : IsSyscall t SYS_user_free_page) {q f : Ppn}
    (hq : nodeAt ptePage s.phys.mem (s.procs c).space.root (vpath 2 (vpn (t.regs .a1))) = some q)
    (hf : ptePpn (s.phys.mem q (px 0 (vpn (t.regs .a1)))) = f) :
    Prog.wp (trap L t) (fun _ _ => False)
      (fun s' => s' = afterUnmap L t c q f (vpn (t.regs .a1)) s)
      (fun _ => ¬ (t.regs .a1 < MAXVA ∧ t.regs .a1 % PGSIZE = 0 ∧ Managed s.phys f ∧
        CanReturn L (afterUnmap L t c q f (vpn (t.regs .a1)) s) c)) s := by
  obtain ⟨fl, hs⟩ := hm.space
  have hc : c ∈ s.used := ((hsched.live c).mp List.mem_cons_self).1
  have hframe := hm.inSyscall_frameOnly hc hsched.scratch t
  have hspace := hframe.space hc hs
  rw [hframe.used, hframe.view] at hspace
  have hroot : (s.procs c).space.root ∈ (s.view s.used s.used).roots :=
    View.root_mem (V := s.view s.used s.used) hc
  have hpage : (inSyscall t c s).phys.mem q = s.phys.mem q := hframe.mem q fun heq =>
    (hs.own_apart c hc .trapframe).2.1 (heq ▸ mem_nodes hroot (vpath_length 2 _).le hq)
  have hentry : ptePpn ((inSyscall t c s).phys.mem q (px 0 (vpn (t.regs .a1)))) = f := by
    rw [hpage]
    exact hf
  have hunmap := userVmUnmap_entry hspace.tables hroot
    ((hframe.nodeAt hc hs hc (vpath_length 2 _).le).trans hq) hentry PGSIZE true
  have hcall : Prog.wp (doSyscall L (t.regs .a0) (t.regs .a1) (t.regs .a2))
      (fun r s' => r = 0 ∧ s' = { inSyscall t c s with
        phys := released (inSyscall t c s).phys q f (vpn (t.regs .a1)) }) (fun _ => False)
      (fun _ => ¬ (t.regs .a1 < MAXVA ∧ t.regs .a1 % PGSIZE = 0 ∧ Managed s.phys f ∧
        CanReturn L (afterUnmap L t c q f (vpn (t.regs .a1)) s) c)) (inSyscall t c s) := by
    have hpt : addr (s.procs c).space.root = ((inSyscall t c s).procs c).pagetable :=
      (hs.aligned c hc).pagetable
    rw [ht.2, doSyscall, if_neg (by decide), if_neg (by decide), if_neg (by decide), if_pos rfl,
      sysUserFreePage]
    refine wp_currentProc hsched.current ?_
    rw [proc, Prog.wp_bind, Prog.wp_gets, Prog.wp_bind, wp_onPhys, ← hpt]
    refine Prog.wp_mono hunmap ?_ (fun _ h => h.elim) fun _ hn hok => hn ?_
    · rintro _ ph rfl
      exact ⟨rfl, rfl⟩
    · rw [hframe.phys]
      exact ⟨hok.1, hok.2.1, hok.2.2.1⟩
  refine Prog.wp_mono (trap_call hsched (hm.canEnter hc) ht.1 hcall ?_) (fun _ _ h => h) ?_
    fun _ h => h
  · rintro r s₁ ⟨rfl, rfl⟩
    exact ⟨hsched.current, rfl, fun hn hok => hn hok.2.2.2⟩
  · rintro s' ⟨r, s₁, ⟨rfl, rfl⟩, rfl⟩
    rfl

section AfterUnmap

variable {q f : Ppn} {v : Vpn} (hm : MemInv iso L s) (hsched : SchedInv s c Q)
  (hs : Space iso L (s.view s.used s.used) s.phys fl)
  (hq : nodeAt ptePage s.phys.mem (s.procs c).space.root (vpath 2 v) = some q)
  (htab : f ∉ tablePages s.phys.mem (s.view s.used s.used).roots)

include hm hsched hs hq htab

theorem afterUnmap_tablePages :
    tablePages (afterUnmap L t c q f v s).phys.mem (s.view s.used s.used).roots =
      tablePages s.phys.mem (s.view s.used s.used).roots ∧
    ∀ j ∈ s.used, ∀ v', ¬ (j = c ∧ v' = v) →
      translate (afterUnmap L t c q f v s).phys.mem (s.procs j).space.root v' =
        translate s.phys.mem (s.procs j).space.root v' := by
  have hc : c ∈ s.used := ((hsched.live c).mp List.mem_cons_self).1
  have hframe := hm.inSyscall_frameOnly hc hsched.scratch t
  have hspace := hframe.space hc hs
  rw [hframe.used, hframe.view] at hspace
  have hroot : ∀ i ∈ s.used, (s.procs i).space.root ∈ (s.view s.used s.used).roots := fun i hi =>
    View.root_mem (V := s.view s.used s.used) hi
  have hq₁ := (hframe.nodeAt hc hs hc (vpath_length 2 v).le).trans hq
  have hpages := hframe.tablePages hs hc
  rw [← hpages] at htab
  have hrel := released_tablePages hspace.tables (hroot c hc) hq₁ htab
  have hret := returned_frameOnly (L := L) (c := c) (s := { inSyscall t c s with
    phys := released (inSyscall t c s).phys q f v }) (hs.aligned c hc) 0
  have hkept : ∀ p ∈ tablePages (released (inSyscall t c s).phys q f v).mem
      (s.view s.used s.used).roots, (afterUnmap L t c q f v s).phys.mem p =
        (released (inSyscall t c s).phys q f v).mem p := fun p hp => by
    refine hret.mem p fun heq => (hs.own_apart c hc .trapframe).2.1 ?_
    rw [hrel, hpages] at hp
    exact heq ▸ hp
  refine ⟨(nodes_congr hkept).trans (hrel.trans hpages), fun j hj v' hne => ?_⟩
  rw [translate_congr hkept (hroot j hj), released_leaf hspace.tables (hroot c hc) hq₁ htab
    (hroot j hj) fun heq => hne ⟨hs.root_inj j hj c hc heq.1, heq.2⟩]
  exact hframe.translate_eq hc hs hj v'

/-- If the frame is not the trapframe of the caller, no process loses the entries it needs
    to enter and to leave the kernel. -/
theorem afterUnmap_canEnter (hf : ptePpn (s.phys.mem q (px 0 v)) = f) (hman : Managed s.phys f)
    (hown : f ≠ (s.procs c).space.own .trapframe) {j : Pid} (hj : j ∈ s.used) :
    CanEnter L (afterUnmap L t c q f v s) j := by
  have hready : Ready L s.phys.mem (s.procs j).space (s.procs j).totalMappedRegion :=
    hs.ready j hj
  have htf := hs.trapframe_toNat (V := s.view s.used s.used) hj
  have hts := hs.trapSec_toNat (V := s.view s.used s.used) hj
  have hkept : ∀ {v' w'}, translate s.phys.mem (s.procs j).space.root v' = some w' →
      (j = c → ptePpn w' ≠ f) →
      translate (afterUnmap L t c q f v s).phys.mem (s.procs j).space.root v' = some w' := by
    intro v' w' hw' hne
    rw [(afterUnmap_tablePages hm hsched hs hq htab).2 j hj]
    · exact hw'
    · rintro ⟨rfl, rfl⟩
      obtain ⟨q', hq', hqw, -⟩ := leafAt_eq_some.mp hw'
      obtain rfl : q = q' := Option.some.inj (hq.symm.trans hq')
      rw [hqw] at hf
      exact hne rfl hf
  refine canEnter_of_leaves (s := afterUnmap L t c q f v s) (hs.aligned j hj)
    (htf.2.trans (by norm_num)) (hts.2.trans (by norm_num)) (hkept hready.trapframe ?_)
    (hkept hready.trapSec fun _ => ?_)
  · rintro rfl
    rw [ptePpn_mkPte _ (by decide)]
    exact hown.symm
  · rw [ptePpn_mkPte _ (by decide)]
    rintro rfl
    exact hs.trapSec_not_managed hman

end AfterUnmap

/-- The frame at the head of the free list, freed once more, becomes its own successor. -/
theorem trap_free_again (hm : MemInv iso L s) (hsched : SchedInv s c Q)
    (ht : IsSyscall t SYS_user_free_page) {q f : Ppn}
    (hq : nodeAt ptePage s.phys.mem (s.procs c).space.root (vpath 2 (vpn (t.regs .a1))) = some q)
    (hf : ptePpn (s.phys.mem q (px 0 (vpn (t.regs .a1)))) = f)
    (hmax : t.regs .a1 < MAXVA) (hal : t.regs .a1 % PGSIZE = 0)
    (hhead : s.phys.gFreeMemList = addr f) (h0 : f ≠ 0) :
    ∃ s', trap L t s = .exit s' ∧ ∀ fl, ¬ FreeList s'.phys fl := by
  obtain ⟨fl, hs⟩ := hm.space
  have hc : c ∈ s.used := ((hsched.live c).mp List.mem_cons_self).1
  have hmem : f ∈ fl := hs.tables.free.head_mem hhead h0
  have hroot : (s.procs c).space.root ∈ (s.view s.used s.used).roots :=
    View.root_mem (V := s.view s.used s.used) hc
  have htab : f ∉ tablePages s.phys.mem (s.view s.used s.used).roots := fun hp =>
    hs.tables.apart f hp hmem
  have hman : Managed s.phys f := hs.managed f (Or.inl hmem)
  have hown : f ≠ (s.procs c).space.own .trapframe := fun heq =>
    (hs.own_apart c hc .trapframe).1 (heq ▸ hmem)
  obtain ⟨s', hexit, rfl⟩ := Prog.exits_of_wp (trap_unmap hm hsched ht hq hf) fun _ hn =>
    hn ⟨hmax, hal, hman, (afterUnmap_canEnter hm hsched hs hq htab hf hman hown hc).canReturn⟩
  refine ⟨_, hexit, not_freeList_of_loop rfl (mt addr_eq_zero.mp h0) ?_⟩
  have hret := returned_frameOnly (L := L) (c := c) (s := { inSyscall t c s with
    phys := released (inSyscall t c s).phys q f (vpn (t.regs .a1)) }) (hs.aligned c hc) 0
  have hqf : f ≠ q := fun heq => htab (heq ▸ mem_nodes hroot (vpath_length 2 _).le hq)
  have hframe := hm.inSyscall_frameOnly hc hsched.scratch t
  refine (congrFun (hret.mem f hown) 0).trans ?_
  show (released (inSyscall t c s).phys q f (vpn (t.regs .a1))).mem f 0 = addr f
  rw [released, writeLeaf_of_ne hqf, Phys.push_link, hframe.phys]
  exact hhead

/-- The first process may release its stack. -/
theorem SingleBoot.releasable {hd : ElfProgHeader} {seg : SegType}
    (hb : SingleBoot iso L h hd seg s) (hstack : vpn hd.vaddr ≠ stackVpn) :
    Releasable s 0 (USER_STACK_TOP - PGSIZE) := by
  obtain ⟨us, -, hw, hsole⟩ := hb.stack_leaf hstack
  refine ⟨_, hw, userData_leaf_user _, fun j hj v w' hw' heq => ?_⟩
  obtain rfl : j = 0 := by
    have hmem : j ∈ s.used := hj
    rw [hb.used] at hmem
    exact hmem
  rw [ptePpn_mkPte _ (by decide), ppn_addr] at heq
  exact ⟨rfl, hsole v w' hw' heq⟩

/-- The call that frees the stack of the first process. -/
abbrev freeStack : TrapInput := call SYS_user_free_page (USER_STACK_TOP - PGSIZE)

/-- The first process of the small application frees its stack. -/
theorem sampleFree {s : Kernel}
    (hb : SingleBoot False sampleLayout (sampleHost 5 8) (sampleSegment 5) .CODE s) :
    ∃ s₁ us, trap sampleLayout freeStack s = .exit s₁ ∧ StepOk False s (.trap freeStack) ∧
      us ≠ 0 ∧ Freed 0 stackVpn us s s₁ := by
  obtain ⟨fl, hs, -⟩ := hb.space
  have hsched := hb.booted.sched
  have hstack : vpn (sampleSegment 5).vaddr ≠ stackVpn := by decide
  obtain ⟨us, hus, hw, -⟩ := hb.stack_leaf hstack
  have hspare := hs.user 0 hb.mem_used stackVpn _ hw (userData_leaf_user _)
  have hppn : ptePpn (mkPte (addr us) userDataPerm) = us := by
    rw [ptePpn_mkPte _ (by decide), ppn_addr]
  obtain ⟨s₁, htrap, hfreed⟩ := trap_free (t := freeStack) hb.memInv hsched hs ⟨rfl, rfl⟩ hw
    (userData_leaf_user _) hspare.table hspare.free (by decide) (by decide)
    (by rw [hppn]; exact hus)
  rw [hppn] at hfreed
  exact ⟨s₁, us, htrap, .of_releasable hsched.current (hb.releasable hstack),
    hs.managed_ne_zero hus, hfreed⟩

/-- **The free list over whole runs.** -/
theorem freeList_sound (hload : h.LoadsOk Set.univ) (hs : Reach L h (StepOk False) s) :
    ∃ fl, FreeListSound s fl := by
  obtain ⟨⟨⟨fl, hspace⟩, -⟩, -⟩ := hs.mem hload
  exact ⟨fl, hspace.freeListSound⟩

theorem sampleHost_loads : (sampleHost 5 8).LoadsOk Set.univ :=
  sampleHost_code.loadsOk (Set.mem_univ _)

/-- The first process frees its stack. -/
theorem freeList_sound_sample : ∃ s s',
    sStart sampleLayout (sampleHost 5 8) (coldStart (sampleHost 5 8) (powerOn 0)) = .exit s ∧
      StepOk False s (.trap freeStack) ∧ Step sampleLayout s (.trap freeStack) s' ∧
      ∃ fl, FreeListSound s' fl := by
  obtain ⟨s, hboot, hb⟩ := sampleBoot
  obtain ⟨s', us, htrap, hok, -⟩ := sampleFree hb
  exact ⟨s, s', hboot, hok, .trap htrap,
    freeList_sound sampleHost_loads ((Reach.boot hboot).step hok (.trap htrap))⟩

/-- The first process frees its stack twice, and the free list has no end. -/
theorem freeList_cyclic : ∃ s, Reachable sampleLayout (sampleHost 5 8) s ∧
    ∀ fl, ¬ FreeListSound s fl := by
  obtain ⟨s, hboot, hb⟩ := sampleBoot
  have hsched := hb.booted.sched
  obtain ⟨s₁, us, htrap, hok, h0, hfreed⟩ := sampleFree hb
  -- after the first call memory is still in order
  have hstep : Step sampleLayout s (.trap freeStack) s₁ := .trap htrap
  have hm₁ := (hstep.left hb.memInv hsched hok).mem
  obtain ⟨q, Q, hsched₁, -⟩ := hsched.step hstep
  obtain rfl : q = 0 := Option.some.inj (hsched₁.current.symm.trans hfreed.current)
  obtain ⟨p, hp, hpf⟩ := hfreed.stale
  rw [← hfreed.procs] at hp
  obtain ⟨s₂, htrap₂, hcyclic⟩ := trap_free_again (t := freeStack) hm₁ hsched₁ ⟨rfl, rfl⟩ hp hpf
    (by decide) (by decide) hfreed.head h0
  exact ⟨s₂, ((Reach.boot hboot).step trivial hstep).step trivial (.trap htrap₂),
    fun fl hsound => hcyclic fl hsound.list⟩

/-! ## Isolation -/

/-- No frame that a process may write is mapped for user mode by another one. -/
def Isolated (s : Kernel) : Prop :=
  ∀ i j, (s.procs i).status ≠ .FREE → (s.procs j).status ≠ .FREE → i ≠ j → ∀ v w v' w',
    translate s.phys.mem (ppn (s.procs i).pagetable) v = some w →
    translate s.phys.mem (ppn (s.procs j).pagetable) v' = some w' →
    w &&& PTE_U ≠ 0 → w &&& PTE_W ≠ 0 → w' &&& PTE_U ≠ 0 → ptePpn w ≠ ptePpn w'

/-- A store does not change what another process reads. -/
def StoresPrivate (s : Kernel) : Prop :=
  ∀ i va b s', s.current = some i → userStore va b s = some s' →
    ∀ j, (s.procs j).status ≠ .FREE → j ≠ i → ∀ va' pa,
      userTranslate s.phys.mem (s.procs j).pagetable va' PTE_R = some pa →
      load8 s'.phys.mem pa = load8 s.phys.mem pa

theorem MemInv.isolated (hm : MemInv iso L s) (hiso : iso) : Isolated s := by
  obtain ⟨⟨fl, hs⟩, -⟩ := hm
  intro i j hi hj hij v w v' w' hw hw' hU _ hU' heq
  exact hij (hs.isolated hiso i hi j hj v w v' w' hw hw' hU hU' heq)

/-- What a process reaches at an address is in the frame of its entry. -/
theorem userTranslate_eq_some {m : Mem} {pt va perm pa : Word}
    (h : userTranslate m pt va perm = some pa) :
    ∃ w, canonical va ∧ translate m (ppn pt) (vpn va) = some w ∧ w &&& PTE_U ≠ 0 ∧
      pa = addr (ptePpn w) + (va &&& 0xFFF#64) := by
  unfold userTranslate at h
  split_ifs at h with hcan
  obtain ⟨w, hw, hpa⟩ := Option.bind_eq_some_iff.mp h
  split_ifs at hpa with hperm
  obtain rfl := Option.some.inj hpa
  refine ⟨w, hcan, hw, fun hU => ?_, ?_⟩
  · have h1 : (PTE_U ||| perm) &&& PTE_U = 0 := by
      rw [← hperm, BitVec.and_assoc, BitVec.and_comm _ PTE_U, ← BitVec.and_assoc, hU]
      simp
    have h2 := congrArg (fun x : Word => x.getLsbD 4) h1
    simp [PTE_U] at h2
  · rw [PTE2PA_eq]

theorem Isolated.storesPrivate (h : Isolated s) (hlive : ∀ c, s.current = some c →
    (s.procs c).status ≠ .FREE) : StoresPrivate s := by
  intro i va b s' hcur hstore j hj hji va' pa hpa
  obtain ⟨w, hw, hU, hW, -, hmem⟩ := userStore_spec hstore hcur
  obtain ⟨w', -, hw', hU', rfl⟩ := userTranslate_eq_some hpa
  have hne := h i j (hlive i hcur) hj hji.symm _ w _ w' hw hw' hU hW hU'
  unfold load8 load64
  rw [ppn_addr_add _ (offset_lt va'), hmem _ hne.symm]

/-- **Isolation over whole runs.** -/
theorem processes_isolated (hload : h.LoadsOk Set.univ) (hs : Reach L h (StepOk True) s) :
    Isolated s ∧ StoresPrivate s := by
  obtain ⟨hm, c, Q, hsched⟩ := hs.mem hload
  have hisolated := hm.isolated trivial
  refine ⟨hisolated, hisolated.storesPrivate fun i hcur => ?_⟩
  obtain rfl : c = i := Option.some.inj (hsched.current.symm.trans hcur)
  exact ((hsched.live c).mp List.mem_cons_self).1

/-- The first process of an application with one segment forks. -/
theorem SingleBoot.fork {flags : BitVec 8} {seg : SegType} {s : Kernel}
    (hb : SingleBoot iso sampleLayout (sampleHost flags 8) (sampleSegment flags) seg s)
    (hseg : seg = .CODE ∨ seg = .DATA) (hcode : iso → ¬ s.HasCode 0) :
    ∃ s' fl fl', trap sampleLayout (call SYS_user_fork 0) s = .exit s' ∧
      ForkStep iso sampleLayout 0 1 s fl s' fl' ∧ 10 ≤ fl'.length := by
  obtain ⟨fl, hs, hlen⟩ := hb.space
  have hpages : 200 ≤ (sampleHost flags 8).pageCount sampleLayout :=
    show 200 ≤ (sampleHost 5 8).pageCount sampleLayout by decide
  have hlow : (sampleSegment flags).vaddr < KERN_BASE :=
    show (0x10000 : Word) < KERN_BASE by decide
  have hstack : vpn (sampleSegment flags).vaddr ≠ stackVpn :=
    show vpn 0x10000 ≠ stackVpn by decide
  have hforkable := hb.forkable hlow hstack hseg hs (by omega)
  obtain ⟨s', hexit, child, fl', hfree, hstep, -⟩ := Prog.exits_of_wp
    (trap_forkStep (t := call SYS_user_fork 0) hb.memInv hb.booted.sched hs hcode ⟨rfl, rfl⟩)
    fun _ hn => hn hforkable
  obtain rfl : 1 = child := Option.some.inj (hb.firstFree_eq.symm.trans hfree)
  have hlength := hstep.length
  rw [hb.total] at hlength
  exact ⟨s', fl, fl', hexit, hstep, by omega⟩

/-- An application without code forks, and the two processes are isolated. -/
theorem processes_isolated_sample : ∃ s s',
    sStart sampleLayout (sampleHost 6 8) (coldStart (sampleHost 6 8) (powerOn 0)) = .exit s ∧
      StepOk True s (.trap (call SYS_user_fork 0)) ∧
      Step sampleLayout s (.trap (call SYS_user_fork 0)) s' ∧
      (s'.procs 0).status ≠ .FREE ∧ (s'.procs 1).status ≠ .FREE ∧
      Isolated s' ∧ StoresPrivate s' := by
  obtain ⟨s, hboot, hb⟩ := sStart_single True sampleHost_data (powerOn 0)
  have hcode := hb.not_hasCode nofun
  obtain ⟨s', fl, fl', hexit, hstep, -⟩ := hb.fork (Or.inr rfl) fun _ => hcode
  have hok : StepOk True s (.trap (call SYS_user_fork 0)) := fun c hcur => by
    obtain rfl : (0 : Pid) = c := Option.some.inj (hb.booted.sched.current.symm.trans hcur)
    refine ⟨fun hf => absurd hf.2 (by decide), fun _ ht => ?_, fun _ _ => hcode⟩
    rcases ht with ht | ht
    · exact absurd ht.2 (by decide)
    · exact absurd ht (by decide)
  have hused : ∀ j, j ∈ insert 1 s.used → (s'.procs j).status ≠ .FREE := fun j hj => by
    rw [← hstep.used] at hj
    exact hj
  exact ⟨s, s', hboot, hok, .trap hexit, hused 0 (Set.mem_insert_of_mem _ hb.mem_used),
    hused 1 (Set.mem_insert _ _), processes_isolated (sampleHost_data.loadsOk (Set.mem_univ _))
      ((Reach.boot hboot).step hok (.trap hexit))⟩

/-- The first process of the small application forks. -/
theorem sampleFork {s : Kernel}
    (hb : SingleBoot False sampleLayout (sampleHost 5 8) (sampleSegment 5) .CODE s) :
    ∃ s' fl fl', trap sampleLayout (call SYS_user_fork 0) s = .exit s' ∧
      ForkStep False sampleLayout 0 1 s fl s' fl' ∧ 10 ≤ fl'.length :=
  hb.fork (Or.inl rfl) fun hf => hf.elim

/-- It gets a page of heap. -/
theorem sampleGrant {s : Kernel}
    (hb : SingleBoot False sampleLayout (sampleHost 5 8) (sampleSegment 5) .CODE s) :
    ∃ s₁ fl fl₁, trap sampleLayout (call SYS_user_allocate_page 0) s = .exit s₁ ∧
      Space False sampleLayout (s.view s.used s.used) s.phys fl ∧ 200 ≤ fl.length ∧
      GrantStep False sampleLayout 0 (vpn USER_FREE_ADDRESS_START) PGSIZE s fl s₁ fl₁ := by
  obtain ⟨fl, hs, hlen⟩ := hb.space
  have hpages : 345 ≤ (sampleHost 5 8).pageCount sampleLayout := by decide
  have hnone : translate s.phys.mem (s.procs 0).space.root (vpn s.gUfreePage) = none := by
    rw [hb.heap]
    exact hb.unmapped (by decide) (by decide) (by decide)
  obtain ⟨s₁, hexit, fl₁, hgrant⟩ := Prog.exits_of_wp
    (trap_allocate (t := call SYS_user_allocate_page 0) hb.memInv hb.booted.sched hs ⟨rfl, rfl⟩
      fun hf => hf.elim) fun e hn => hn.1 ⟨by rw [hb.heap]; decide, hnone, Or.inl (by omega)⟩
  rw [hb.heap] at hgrant
  exact ⟨s₁, fl, fl₁, hexit, hs, by omega, hgrant⟩

/-- The first process forks; it may write its code, which the child maps as well. -/
theorem fork_shares_code : ∃ s, Reach sampleLayout (sampleHost 5 8)
    (fun _ a => ∃ t, a = .trap t ∧ IsFork t) s ∧ ¬ Isolated s := by
  obtain ⟨s, hboot, hb⟩ := sampleBoot
  obtain ⟨s', fl, fl', hexit, hstep, -⟩ := sampleFork hb
  refine ⟨s', (Reach.boot hboot).step ⟨_, rfl, rfl, rfl⟩ (.trap hexit), fun hiso => ?_⟩
  have h0 := hb.mem_used
  have hne : (0 : Pid) ≠ 1 := by decide
  have htarget := hb.targets (by decide) (Or.inl rfl) (k := 3) (by omega)
  obtain ⟨p, -, hw⟩ := hb.segment_leaf
  obtain ⟨w', hw', hU', hshared⟩ := hstep.pages 3 _ (by rw [hb.total]; omega) htarget
  have heq := (hshared _ hw (elf_leaf_user _)).2 hb.regionSeg
  have hused : ∀ j, j ∈ insert 1 s.used → (s'.procs j).status ≠ .FREE := fun j hj => by
    rw [← hstep.used] at hj
    exact hj
  have hwp : translate s'.phys.mem (s'.procs 0).space.root (vpn (sampleSegment 5).vaddr) =
      some (mkPte (addr p) elfPerm) := by
    rw [(hstep.same 0 hne).1, hstep.leaf 0 h0]
    exact hw
  refine hiso 0 1 (hused 0 (Set.mem_insert_of_mem _ h0)) (hused 1 (Set.mem_insert _ _)) hne
    _ _ _ w' hwp hw' (elf_leaf_user _) ?_ hU' heq.symm
  rw [mkPte_and_flag _ _ (by decide)]
  decide

end Pke
