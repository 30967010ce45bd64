import Pke.Boot.Start

/-!
# Booting an application with one segment

With enough memory, an application that consists of one segment at the address
of a free page is loaded and dispatched. The first process then has four
mappings: its stack, its trapframe, the trap section and the segment.
-/

namespace Pke

open Lib Radix

variable {iso : Prop} {L : Layout} {h : Host} {s s' s₁ : Kernel} {fl fl' : List Ppn} {us : Ppn}
  {f : HostFile} {hd : ElfProgHeader} {seg : SegType}

/-- The host delivers an application with one program header. -/
structure Host.OneSegment (h : Host) (L : Layout) (f : HostFile) (hd : ElfProgHeader)
    (seg : SegType) : Prop where
  fits : L.kend - KERN_BASE ≤ usableSize h.memSize
  pages : 145 ≤ h.pageCount L
  mainvars : h.mainvars = 0
  argc : h.argc - 1 ≠ 0
  file : h.file = some f
  init : elfInit f = .elOk
  phnum : f.elfHeader.phnum = 1
  table : f.pread ((f.elfHeader.phoff.setWidth 32).signExtend 64) 56 = 56
  header : f.progHeader ((f.elfHeader.phoff.setWidth 32).signExtend 64 : Word).toNat = hd
  type : hd.type = ELF_PROG_LOAD
  filesz : ¬ hd.memsz < hd.filesz
  wrap : ¬ hd.vaddr + hd.memsz < hd.vaddr
  memsz : hd.memsz < PGSIZE
  aligned : hd.vaddr % PGSIZE = 0
  low : hd.vaddr < KERN_BASE
  stack : vpn hd.vaddr ≠ stackVpn
  delivered : f.pread hd.off hd.memsz = hd.memsz
  flags : segmentType hd.flags = some seg

/-- The first process after boot. -/
structure SingleBoot (iso : Prop) (L : Layout) (h : Host) (hd : ElfProgHeader) (seg : SegType)
    (s : Kernel) : Prop where
  booted : Booted s 0
  space : ∃ fl, Space iso L (s.view s.used s.used) s.phys fl ∧ h.pageCount L ≤ fl.length + 145
  heap : s.gUfreePage = USER_FREE_ADDRESS_START
  leaf : ∃ us p, Managed s.phys us ∧ Managed s.phys p ∧ us ≠ p ∧
    ∀ v, translate s.phys.mem (s.procs 0).space.root v =
      if v = vpn hd.vaddr then some (mkPte (addr p) elfPerm)
      else initialLeaf L (s.procs 0).space us v
  total : (s.procs 0).totalMappedRegion = 4
  regionVa : regionVa s.phys.mem (s.procs 0).space 3 = hd.vaddr
  regionSeg : regionSeg s.phys.mem (s.procs 0).space 3 = some seg

theorem SingleBoot.used (hb : SingleBoot iso L h hd seg s) : s.used = {0} := hb.booted.used

theorem SingleBoot.mem_used (hb : SingleBoot iso L h hd seg s) : (0 : Pid) ∈ s.used := by
  rw [hb.used]
  rfl

theorem SingleBoot.memInv (hb : SingleBoot iso L h hd seg s) : MemInv iso L s := by
  obtain ⟨fl, hs, -⟩ := hb.space
  exact ⟨⟨fl, hs⟩, by rw [hb.heap]; decide⟩

/-- The segment is in order for a load. -/
theorem Host.OneSegment.loadsOk (ho : h.OneSegment L f hd seg) {S : Set Vpn}
    (hS : vpn hd.vaddr ∈ S) : h.LoadsOk S := by
  intro f' hf'
  obtain rfl : f = f' := Option.some.inj (ho.file.symm.trans hf')
  have hloads : f.loads = [hd] := by
    rw [HostFile.loads, ho.phnum, show (1 : BitVec 16).toNat = 0 + 1 from rfl, loadHeaders,
      ho.header, if_pos ho.type, loadHeaders]
  rw [hloads]
  simp [ho.aligned, hS]

/-- The loader on one header. -/
theorem elfLoad_single {R : ElfStatus → Kernel → Prop} {H : Halt → Prop}
    (ho : h.OneSegment L f hd seg) (hl : Loading iso L {0} 0 Set.univ s fl)
    (htotal : (s.procs 0).totalMappedRegion = 3)
    (hnone : translate s.phys.mem (s.procs 0).space.root (vpn hd.vaddr) = none)
    (hlen : 3 ≤ fl.length)
    (hk : ∀ s' fl', Loading iso L {0} 0 Set.univ s' fl' → SegmentLoaded L {0} 0 hd s fl s' →
      fl.length ≤ fl'.length + 3 → R .elOk s') :
    Prog.wp (elfLoad f 0) R (fun _ => False) H s := by
  have hmax : hd.vaddr < MAXVA := by
    have hlow := ho.low
    rw [BitVec.lt_def] at hlow ⊢
    exact hlow.trans (by decide)
  rw [elfLoad, ho.phnum, show (1 : BitVec 16).toNat = 0 + 1 from rfl, elfLoadLoop,
    if_neg (not_not.mpr ho.table), ho.header]
  dsimp only
  rw [if_neg (not_not.mpr ho.type), if_neg ho.filesz, if_neg ho.wrap]
  refine wp_loadSegment hl rfl ho.aligned (by omega) (Set.mem_univ _) (fun e hn => ?_)
    (fun hr => absurd ho.delivered hr) fun s' fl' hl' hloaded hlen' => ?_
  · refine absurd ?_ hn
    exact ⟨ho.memsz, hmax, hnone, hlen, by rw [ho.flags]; simp⟩
  · exact hk s' fl' hl' hloaded hlen'

/-- The first process when the segment has been loaded into the state `s`. -/
structure SingleLoaded (iso : Prop) (L : Layout) (hd : ElfProgHeader) (seg : SegType) (s : Kernel)
    (fl : List Ppn) (s' : Kernel) : Prop where
  space : ∃ fl', Space iso L (s'.view {0} {0}) s'.phys fl' ∧ fl.length ≤ fl'.length + 3
  leaf : ∃ p ∈ fl, ∀ v, translate s'.phys.mem (s.procs 0).space.root v =
    if v = vpn hd.vaddr then some (mkPte (addr p) elfPerm)
    else translate s.phys.mem (s.procs 0).space.root v
  same : (s'.procs 0).space = (s.procs 0).space
  total : (s'.procs 0).totalMappedRegion = 4
  regionVa : regionVa s'.phys.mem (s.procs 0).space 3 = hd.vaddr
  regionSeg : regionSeg s'.phys.mem (s.procs 0).space 3 = some seg
  managed : ∀ q, Managed s.phys q → Managed s'.phys q
  heap : s'.gUfreePage = s.gUfreePage

theorem SegmentLoaded.single (hs : SegmentLoaded L {0} 0 hd s fl s')
    (hl : Loading iso L {0} 0 Set.univ s' fl') (htotal : (s.procs 0).totalMappedRegion = 3)
    (hseg : segmentType hd.flags = some seg) (hlen : fl.length ≤ fl'.length + 3) :
    SingleLoaded iso L hd seg s fl s' := by
  obtain ⟨p, hp, hleaf⟩ := hs.leaf
  obtain ⟨k, seg', h3, hk, hseg', hva, hks⟩ := hs.region
  obtain rfl : k = 3 := by omega
  obtain rfl : seg' = seg := Option.some.inj (hseg'.symm.trans hseg)
  refine ⟨⟨fl', hl.space, hlen⟩, ⟨p, hp, fun v => ?_⟩, ?_, ?_, hva, hks, hs.managed, ?_⟩
  · rw [hleaf 0 rfl v]
    simp only [true_and]
  · rw [hs.rest]
    simp [Process.space]
  · rw [hs.total, htotal]
  · rw [hs.rest]

/-- A write to the trapframe keeps what was loaded. -/
theorem SingleLoaded.frame (hs : SingleLoaded iso L hd seg s fl s') {s'' : Kernel}
    (hmem : ∀ q, q ≠ (s.procs 0).space.own .trapframe → s''.phys.mem q = s'.phys.mem q)
    (hphys : s''.phys = { s'.phys with mem := s''.phys.mem })
    (hprocs : ∀ i, (s''.procs i).space = (s'.procs i).space ∧
      (s''.procs i).totalMappedRegion = (s'.procs i).totalMappedRegion)
    (hkroot : s''.gKernelPagetable = s'.gKernelPagetable) (hheap : s''.gUfreePage = s'.gUfreePage) :
    SingleLoaded iso L hd seg s fl s'' := by
  obtain ⟨fl', hspace, hlen⟩ := hs.space
  obtain ⟨p, hp, hleaf⟩ := hs.leaf
  have hsame := hs.same
  have h0 : (0 : Pid) ∈ (s'.view {0} {0}).all := rfl
  rw [← hsame] at hmem
  have hview : s''.view {0} {0} = s'.view {0} {0} := by
    unfold Kernel.view
    rw [hkroot, funext fun i => (hprocs i).1, funext fun i => (hprocs i).2]
  obtain ⟨hfl, htab, -⟩ := hspace.own_apart 0 h0 .trapframe
  have hinfo : s''.phys.mem ((s'.procs 0).space.own .info) =
      s'.phys.mem ((s'.procs 0).space.own .info) :=
    hmem _ (hspace.own_ne h0 h0 (by decide))
  have hal : (s'.procs 0).space.Aligned := hspace.aligned 0 h0
  refine ⟨⟨fl', ?_, hlen⟩, ⟨p, hp, fun v => ?_⟩, (hprocs 0).1.trans hsame,
    (hprocs 0).2.trans hs.total, ?_, ?_, fun q hq => ?_, hheap.trans hs.heap⟩
  · rw [hview, hphys]
    exact hspace.write hmem hfl htab fun i hi => hspace.own_ne h0 hi (by decide)
  · rw [← hleaf v, ← hsame]
    exact @leaf_write (s'.view {0} {0}) s'.phys _ _ _ hmem htab h0 v
  · rw [← hsame, regionVa_congr hal hinfo (by omega), hsame]
    exact hs.regionVa
  · rw [← hsame, Pke.regionSeg, regionSecond_congr hal hinfo (by omega), hsame]
    exact hs.regionSeg
  · rw [hphys]
    exact hs.managed q hq

/-- The application is loaded into the process that `alloc_process` has made. -/
theorem loadBincodeFromHostElf_single {H : Halt → Prop} (ho : h.OneSegment L f hd seg)
    (hl : Loading iso L {0} 0 Set.univ s fl) (htotal : (s.procs 0).totalMappedRegion = 3)
    (hnone : translate s.phys.mem (s.procs 0).space.root (vpn hd.vaddr) = none)
    (hlen : 3 ≤ fl.length) :
    Prog.wp (loadBincodeFromHostElf h 0) (fun _ s' => SingleLoaded iso L hd seg s fl s')
      (fun _ => False) H s := by
  unfold loadBincodeFromHostElf parseArgs
  rw [if_neg (not_not.mpr ho.mainvars), Prog.wp_bind, Prog.wp_pure, if_neg ho.argc, Pke.sprint,
    Prog.wp_bind, Prog.wp_modify, ho.file]
  dsimp only
  rw [if_neg (not_not.mpr ho.init), Prog.wp_bind]
  refine elfLoad_single ho (hl.sprint _) htotal hnone hlen fun s₁ fl₁ hl₁ hloaded hlen₁ => ?_
  rw [if_neg (not_not.mpr rfl), proc, Prog.wp_bind, Prog.wp_gets, Prog.wp_bind, wp_onPhys, store,
    Prog.wp_modify, Prog.wp_bind, wp_onPhys, load, Prog.wp_gets, Pke.sprint, Prog.wp_modify]
  have hs := hloaded.single hl₁ htotal ho.flags hlen₁
  have hs' : SingleLoaded iso L hd seg s fl s₁ :=
    ⟨hs.space, hs.leaf, hs.same, hs.total, hs.regionVa, hs.regionSeg, hs.managed, hs.heap⟩
  refine hs'.frame (fun q hq => store64_of_ne ?_) rfl (fun i => ⟨rfl, rfl⟩) rfl rfl
  have hal : addr ((s₁.procs 0).space.own .trapframe) = (s₁.procs 0).trapframe :=
    (hl₁.space.aligned 0 rfl).trapframe
  rw [tfEpc, ← hal, ppn_addr_add _ (by decide), hs'.same]
  exact hq

/-- What the loader leaves behind, in terms of the process `alloc_process` made. -/
def SingleReady (iso : Prop) (L : Layout) (h : Host) (hd : ElfProgHeader) (seg : SegType)
    (s' : Kernel) : Prop :=
  ∃ s fl us, SingleLoaded iso L hd seg s fl s' ∧ Managed s.phys us ∧ us ∉ fl ∧
    (∀ p ∈ fl, Managed s.phys p) ∧ h.pageCount L ≤ fl.length + 142 ∧
    s.gUfreePage = USER_FREE_ADDRESS_START ∧
    ∀ v, translate s.phys.mem (s.procs 0).space.root v = initialLeaf L (s.procs 0).space us v

theorem Created.single_ready {H : Halt → Prop} (hc : Created iso L ∅ s fl 0 us s₁ fl')
    {m : Mem} (hs : Started iso L h m s fl) (ho : h.OneSegment L f hd seg) :
    Prog.wp (loadBincodeFromHostElf h 0) (fun _ s' => SingleReady iso L h hd seg s')
      (fun _ => False) H s₁ := by
  have hl := hc.loading (S := Set.univ) (Set.mem_univ _)
  have hpages := ho.pages
  have h1 := hs.length
  have h2 := hc.length
  refine Prog.wp_mono
    (loadBincodeFromHostElf_single ho hl hc.total (hc.unmapped ho.low ho.stack) (by omega))
    ?_ (fun _ h => h) fun _ h => h
  intro _ s' hs'
  refine ⟨s₁, fl', us, hs', hc.stack, ?_, fun p hp => hl.space.managed p (Or.inl hp), by omega,
    ?_, hc.leaf⟩
  · have hfree := hl.space.leaf_not_free (i := 0) rfl hc.stack_leaf
    rwa [ptePpn_mkPte _ (by decide), ppn_addr] at hfree
  · rw [hc.rest]
    exact hs.heap

theorem SingleReady.boot (hr : SingleReady iso L h hd seg s) (hd' : Dispatched L s s') :
    SingleBoot iso L h hd seg s' := by
  obtain ⟨s₀, fl, us, hl, hus, husfl, hmanaged, hlen, hheap, hinit⟩ := hr
  obtain ⟨fl₁, hspace, hlen₁⟩ := hl.space
  have hheap₁ := hl.heap.trans hheap
  obtain ⟨-, hrun⟩ := hd'.memInv hspace (by rw [hheap₁]; decide)
  have hl' := hl.frame (by rw [← hl.same]; exact hrun.mem) hrun.phys
    (fun i => ⟨hrun.space i, hrun.total i⟩) hrun.kroot hrun.heap
  obtain ⟨fl₂, hspace₂, hlen₂⟩ := hl'.space
  obtain ⟨p, hp, hleaf⟩ := hl'.leaf
  have hsame := hl'.same
  refine ⟨hrun.booted, ⟨fl₂, ?_, by omega⟩, hl'.heap.trans hheap, ⟨us, p, hl'.managed us hus,
    hl'.managed p (hmanaged p hp), by rintro rfl; exact husfl hp, fun v => ?_⟩, hl'.total, ?_, ?_⟩
  · rw [hrun.booted.used]
    exact hspace₂
  · rw [hsame, hleaf v, hinit v]
  · rw [hsame]
    exact hl'.regionVa
  · rw [hsame]
    exact hl'.regionSeg

/-- **Boot of an application with one segment.** -/
theorem sStart_single (iso : Prop) (ho : h.OneSegment L f hd seg) (s₀ : Kernel) :
    ∃ s, sStart L h (coldStart h s₀) = .exit s ∧ SingleBoot iso L h hd seg s := by
  have hsmall : ¬ h.Small L := by
    have hpages := ho.pages
    rintro (hfits | hfew)
    · exact absurd ho.fits (BitVec.not_le.mpr hfits)
    · omega
  have hstuck : ∀ s₁ s', SingleReady iso L h hd seg s₁ → Dispatched L s₁ s' →
      ¬ CanReturn L s' 0 → False := by
    intro s₁ s' hready hdisp hn
    have hb := hready.boot hdisp
    exact hn (hb.memInv.canReturn hb.mem_used)
  obtain ⟨s, hrun, s₁, hready, hdisp⟩ := Prog.exits_of_wp (sStart_loaded (L := L) (h := h)
    (H := fun _ => False) s₀ (fun h => absurd h hsmall)
    (fun s fl s₁ us fl₁ (hs : Started iso L h _ s fl) hc => hc.single_ready hs ho)
    hstuck) fun _ h => h
  exact ⟨s, hrun, hready.boot hdisp⟩

/-! ## The first process -/

/-- The stack of the first process. -/
theorem SingleBoot.stack_leaf (hb : SingleBoot iso L h hd seg s)
    (hstack : vpn hd.vaddr ≠ stackVpn) :
    ∃ us, Managed s.phys us ∧
      translate s.phys.mem (s.procs 0).space.root stackVpn = some (mkPte (addr us) userDataPerm) ∧
      ∀ v w, translate s.phys.mem (s.procs 0).space.root v = some w → ptePpn w = us →
        v = stackVpn := by
  obtain ⟨fl, hs, -⟩ := hb.space
  obtain ⟨us, p, hus, -, hne, hleaf⟩ := hb.leaf
  have h0 : (0 : Pid) ∈ (s.view s.used s.used).all := hb.mem_used
  have htf : vpn (s.procs 0).space.trapframe ≠ stackVpn := hs.trapframe_ne_stack h0
  have hw : translate s.phys.mem (s.procs 0).space.root stackVpn =
      some (mkPte (addr us) userDataPerm) := by
    rw [hleaf, if_neg hstack.symm, initialLeaf, if_neg (hs.trapSec_ne_stack h0).symm,
      if_neg htf.symm, if_pos rfl]
  refine ⟨us, hus, hw, fun v w hw' hus' => ?_⟩
  rw [hleaf] at hw'
  split_ifs at hw' with hv
  · obtain rfl := Option.some.inj hw'
    rw [ptePpn_mkPte _ (by decide), ppn_addr] at hus'
    exact absurd hus'.symm hne
  · rw [initialLeaf] at hw'
    split_ifs at hw' with h1 h2 h3
    · obtain rfl := Option.some.inj hw'
      rw [ptePpn_mkPte _ (by decide)] at hus'
      exact absurd hus (hus' ▸ hs.trapSec_not_managed)
    · obtain rfl := Option.some.inj hw'
      rw [ptePpn_mkPte _ (by decide)] at hus'
      have hspare := hs.user 0 hb.mem_used stackVpn _ hw (userData_leaf_user _)
      rw [ptePpn_mkPte _ (by decide), ppn_addr] at hspare
      exact absurd hus'.symm (hspare.own 0 hb.mem_used .trapframe)
    · exact h3

/-- The segment of the first process. -/
theorem SingleBoot.segment_leaf (hb : SingleBoot iso L h hd seg s) :
    ∃ p, Managed s.phys p ∧ translate s.phys.mem (s.procs 0).space.root (vpn hd.vaddr) =
      some (mkPte (addr p) elfPerm) := by
  obtain ⟨us, p, -, hp, -, hleaf⟩ := hb.leaf
  exact ⟨p, hp, by rw [hleaf, if_pos rfl]⟩

/-- No other page below the kernel is mapped. -/
theorem SingleBoot.unmapped (hb : SingleBoot iso L h hd seg s) {va : Word} (hlow : va < KERN_BASE)
    (hstack : vpn va ≠ stackVpn) (hne : vpn va ≠ vpn hd.vaddr) :
    translate s.phys.mem (s.procs 0).space.root (vpn va) = none := by
  obtain ⟨fl, hs, -⟩ := hb.space
  obtain ⟨us, p, -, -, -, hleaf⟩ := hb.leaf
  rw [BitVec.lt_def, show KERN_BASE.toNat = 2 ^ 31 from rfl] at hlow
  have h0 : (0 : Pid) ∈ (s.view s.used s.used).all := hb.mem_used
  have h1 : 2 ^ 31 ≤ (s.procs 0).space.trapframe.toNat ∧
      (s.procs 0).space.trapframe.toNat < 2 ^ 32 := hs.trapframe_toNat h0
  have h2 := hs.trapSec_toNat h0
  rw [hleaf, if_neg hne, initialLeaf, if_neg (vpn_ne (by omega) (by omega) (by omega)),
    if_neg (vpn_ne (by omega) (by omega) (by omega)), if_neg hstack]

theorem asInt_of_low {va : Word} (hva : va < KERN_BASE) : asInt va = va := by
  rw [BitVec.lt_def, show KERN_BASE.toNat = 2 ^ 31 from rfl] at hva
  apply BitVec.eq_of_toNat_eq
  have hmsb : (va.setWidth 32).msb = false := by
    rw [BitVec.msb_eq_decide, BitVec.toNat_setWidth, decide_eq_false_iff_not]
    omega
  rw [asInt, BitVec.toNat_signExtend, hmsb, BitVec.toNat_setWidth, BitVec.toNat_setWidth]
  simp
  omega

/-- The regions of the first process that a child gets: its stack and the segment. -/
theorem SingleBoot.targets (hb : SingleBoot iso L h hd seg s) (hlow : hd.vaddr < KERN_BASE)
    (hseg : seg = .CODE ∨ seg = .DATA) {k : ℕ} (hk : k < 4) :
    regionTarget s.phys.mem (s.procs 0).space k =
      if k = 0 then some (USER_STACK_TOP - PGSIZE) else if k = 3 then some hd.vaddr else none := by
  obtain ⟨fl, hs, -⟩ := hb.space
  have hregs : Regions L s.phys.mem (s.procs 0).space (s.procs 0).totalMappedRegion :=
    (hs.ready 0 hb.mem_used).regions
  obtain rfl | rfl | rfl | rfl : k = 0 ∨ k = 1 ∨ k = 2 ∨ k = 3 := by omega
  · rw [regionTarget, hregs.stack.2, hregs.stack.1]
    rfl
  · rw [regionTarget, hregs.context.2]
    rfl
  · rw [regionTarget, hregs.system.2]
    rfl
  · rw [regionTarget, hb.regionSeg, hb.regionVa]
    rcases hseg with rfl | rfl
    · rfl
    · exact congrArg some (asInt_of_low hlow)

/-- A process without a segment of code has no region of code. -/
theorem SingleBoot.not_hasCode (hb : SingleBoot iso L h hd seg s) (hseg : seg ≠ .CODE) :
    ¬ s.HasCode 0 := by
  obtain ⟨fl, hs, -⟩ := hb.space
  have hregs : Regions L s.phys.mem (s.procs 0).space (s.procs 0).totalMappedRegion :=
    (hs.ready 0 hb.mem_used).regions
  rintro ⟨k, hk, hcode⟩
  rw [hb.total] at hk
  obtain rfl | rfl | rfl | rfl : k = 0 ∨ k = 1 ∨ k = 2 ∨ k = 3 := by omega
  · exact nomatch hregs.stack.2.symm.trans hcode
  · exact nomatch hregs.context.2.symm.trans hcode
  · exact nomatch hregs.system.2.symm.trans hcode
  · exact hseg (Option.some.inj (hb.regionSeg.symm.trans hcode))

/-- The slot behind the first process is the next to be taken. -/
theorem SingleBoot.firstFree_eq (hb : SingleBoot iso L h hd seg s) :
    firstFree s.procs = some 1 := by
  have h0 : ¬ (s.procs 0).status = .FREE := hb.mem_used
  have h1 : (s.procs 1).status = .FREE := hb.booted.free 1 (by decide)
  obtain ⟨l, hl⟩ : ∃ l, List.finRange 32 = 0 :: 1 :: l := ⟨_, rfl⟩
  rw [firstFree, hl, List.find?_cons_of_neg (by simpa using h0),
    List.find?_cons_of_pos (by simpa using h1)]

theorem SingleBoot.forkable (hb : SingleBoot iso L h hd seg s) (hlow : hd.vaddr < KERN_BASE)
    (hstack : vpn hd.vaddr ≠ stackVpn) (hseg : seg = .CODE ∨ seg = .DATA)
    (hs : Space iso L (s.view s.used s.used) s.phys fl) (hlen : 23 ≤ fl.length) :
    Forkable s 0 fl := by
  have h0 := hb.mem_used
  obtain ⟨us, hus, hstackleaf, -⟩ := hb.stack_leaf hstack
  obtain ⟨p, hp, hsegleaf⟩ := hb.segment_leaf
  have hmax : hd.vaddr < MAXVA := by
    rw [BitVec.lt_def] at hlow ⊢
    exact hlow.trans (by decide)
  refine ⟨by rw [hb.firstFree_eq]; exact nofun, by rw [hb.total]; exact hlen,
    fun k hk va hva => ?_, fun i j hij hj va va' hva hva' => ?_⟩
  · rw [hb.total] at hk
    rw [hb.targets hlow hseg hk] at hva
    split_ifs at hva with hk0 hk3
    · obtain rfl := Option.some.inj hva
      refine ⟨by decide, ?_⟩
      rw [lookupAnswer_user hs h0 (by decide) hstackleaf (userData_leaf_user _),
        ptePpn_mkPte _ (by decide), ppn_addr]
      exact mt addr_eq_zero.mp (hs.managed_ne_zero hus)
    · obtain rfl := Option.some.inj hva
      refine ⟨hlow, ?_⟩
      rw [lookupAnswer_user hs h0 hmax hsegleaf (elf_leaf_user _), elf_leaf_ppn]
      exact mt addr_eq_zero.mp (hs.managed_ne_zero hp)
  · rw [hb.total] at hj
    rw [hb.targets hlow hseg (by omega)] at hva
    rw [hb.targets hlow hseg hj, if_neg (by omega)] at hva'
    split_ifs at hva' with hj3
    obtain rfl := Option.some.inj hva'
    rw [if_neg (c := i = 3) (by omega)] at hva
    split_ifs at hva with hi0
    obtain rfl := Option.some.inj hva
    exact hstack.symm

/-! ## A small application -/

/-- A kernel image of 64 KiB. -/
def sampleLayout : Layout where
  trapSecStart := 0x80001000
  etext := 0x80005000
  kend := 0x80010000
  smodeTrapVector := 0x80001000
  smodeTrapHandler := 0x80002000
  trapSec_aligned := by decide
  etext_aligned := by decide
  kend_aligned := by decide
  base_le_trapSec := by decide
  trapSec_lt_etext := by decide
  etext_le_kend := by decide

/-- An ELF file with one segment of eight bytes at 0x10000, the first of its file
    bytes at offset 0. -/
def sampleFile (flags filesz : BitVec 8) : HostFile where
  byte
    | 0 => 0x7F
    | 1 => 0x45
    | 2 => 0x4C
    | 3 => 0x46
    | 26 => 1
    | 32 => 64
    | 56 => 1
    | 64 => 1
    | 68 => flags
    | 82 => 1
    | 96 => filesz
    | 104 => 8
    | _ => 0
  pread _ n := n

def sampleHost (flags filesz : BitVec 8) : Host where
  memSize := 0x8000000
  mainvars := 0
  argc := 2
  file := some (sampleFile flags filesz)

/-- The segment of `sampleFile`. -/
def sampleSegment (flags : BitVec 8) : ElfProgHeader where
  type := 1
  flags := flags.setWidth 32
  off := 0
  vaddr := 0x10000
  filesz := 8
  memsz := 8

/-- The call `n` with one argument. -/
def call (n a1 : Word) : TrapInput where
  regs
    | .a0 => n
    | .a1 => a1
    | _ => 0
  sepc := 0
  scause := CAUSE_USER_ECALL
  stval := 0

theorem sampleHost_code :
    (sampleHost 5 8).OneSegment sampleLayout (sampleFile 5 8) (sampleSegment 5) .CODE where
  fits := by decide
  pages := by decide
  mainvars := rfl
  argc := by decide
  file := rfl
  init := by decide
  phnum := by decide
  table := rfl
  header := by rfl
  type := rfl
  filesz := by decide
  wrap := by decide
  memsz := by decide
  aligned := by decide
  low := by decide
  stack := by decide
  delivered := rfl
  flags := by decide

theorem sampleHost_data :
    (sampleHost 6 8).OneSegment sampleLayout (sampleFile 6 8) (sampleSegment 6) .DATA where
  fits := by decide
  pages := by decide
  mainvars := rfl
  argc := by decide
  file := rfl
  init := by decide
  phnum := by decide
  table := rfl
  header := by rfl
  type := rfl
  filesz := by decide
  wrap := by decide
  memsz := by decide
  aligned := by decide
  low := by decide
  stack := by decide
  delivered := rfl
  flags := by decide

/-- The application boots. -/
theorem sampleBoot : ∃ s,
    sStart sampleLayout (sampleHost 5 8) (coldStart (sampleHost 5 8) (powerOn 0)) = .exit s ∧
      SingleBoot False sampleLayout (sampleHost 5 8) (sampleSegment 5) .CODE s :=
  sStart_single False sampleHost_code (powerOn 0)

end Pke
