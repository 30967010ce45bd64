import Pke.Build.DataRegion
import Pke.Runs.Exposed

/-!
# Booting an application that maps a table of its page table

`elf_load` maps two pages for a segment that does not start at a page boundary, the second
to the frame behind that of the segment. At boot pages are handed out downwards, so for the
first segment this frame is the page that `alloc_process` took last: the table with the
entry of the trap section.
-/

namespace Pke

open Lib Radix

variable {L : Layout} {h : Host} {s₀ s s' : Kernel} {fl₀ fl fl' : List Ppn} {i : Pid}
  {tf pt ks us mi p : Ppn} {hd : ElfProgHeader} {seg : SegType}

/-! ## The page taken last -/

theorem pagesDown_cut {P q : Ppn} {n m : ℕ} {new : List Ppn}
    (h : pagesDown P n = new ++ q :: pagesDown P m) : q = P + BitVec.ofNat 52 m := by
  have hdrop := pagesDown_drop P n new.length
  rw [h, List.drop_left] at hdrop
  have hlen := congrArg List.length hdrop
  rw [List.length_cons, pagesDown_length, pagesDown_length] at hlen
  rw [← hlen, pagesDown] at hdrop
  exact (List.cons.inj hdrop).1

/-- The table for the trap section lies behind the first page of the list. -/
theorem Made.table_next {P : Ppn} {n : ℕ} {fl₁ : List Ppn}
    (hm : Made L s₀ (pagesDown P n) i tf pt ks us mi s (p :: fl₁))
    (habove : AboveTrapSec L (addr tf)) (hne : px 1 (vpn (addr tf)) ≠ px 1 (vpn L.trapSecStart)) :
    nodeAt ptePage s.phys.mem pt (vpath 2 (vpn L.trapSecStart)) = some (p + 1) := by
  obtain ⟨new, q, hcut, hq⟩ := hm.last habove hne
  obtain ⟨m, hrest, -⟩ := hm.rest_eq
  rw [hrest] at hcut
  rw [withPages_root] at hq
  rw [hq, pagesDown_cut hcut]
  cases m with
  | zero => cases hrest
  | succ m =>
    obtain ⟨rfl, -⟩ := List.cons.inj hrest
    rw [BitVec.add_assoc]
    congr 2
    apply BitVec.eq_of_toNat_eq
    rw [BitVec.toNat_add, BitVec.toNat_ofNat, BitVec.toNat_ofNat, show (1 : Ppn).toNat = 1 from rfl]
    omega

/-! ## The process that is loaded -/

theorem Space.aboveTrapSec {iso : Prop} {V : View} {ph : Phys} (hs : Space iso L V ph fl)
    (hp : Managed ph p) : AboveTrapSec L (addr p) := by
  have h1 := L.trapSec_lt_etext
  have h2 := BitVec.le_trans L.etext_le_kend (BitVec.le_trans hs.lo hp.1)
  have h3 := hp.2
  have h4 := hs.hi
  rw [AboveTrapSec, BitVec.lt_def, BitVec.lt_def]
  rw [BitVec.lt_def] at h1 h3
  rw [BitVec.le_def] at h2 h4
  exact ⟨by omega, by omega⟩

section Loaded

variable (ho : OneLoaded L s₀ fl₀ i tf pt ks us mi hd s fl p seg s' fl')
  (hm : Made L s₀ fl₀ i tf pt ks us mi s fl)

include ho hm

theorem OneLoaded.leaf_initial {v : Vpn} {e : Word}
    (hv : initialLeaf L (withPages (s₀.procs i) tf pt ks mi).space us v = some e) :
    translate s'.phys.mem pt v = some e := by
  obtain ⟨ph, hpage, hsame⟩ := ho.page
  rw [hsame]
  exact hpage.keepsLeaves _ _ ((hm.filling.leaf v).trans hv)

/-- The kernel can serve the process. -/
theorem OneLoaded.served (hman : ∀ q ∈ fl₀, Managed s₀.phys q)
    (habove : ∀ q ∈ fl₀, AboveTrapSec L (addr q)) (hbase : s₀.phys.freeMemStartAddr ≠ 0) :
    Served L i s' fl' := by
  have hspace := ho.inLoad.space
  have hbuilt := ho.inLoad.built
  have hroot : (s'.procs i).space.root = pt := by rw [hspace, withPages_root]
  have htf : (s'.procs i).trapframe = addr tf := congrArg AddrSpace.trapframe hspace
  have hown : (s'.procs i).space.own .trapframe = tf := by rw [hspace, withPages_own]
  have habove' := (habove tf (hm.filling.built.mem_list (by simp))).toNat
  have hal := toNat_mod_PGSIZE (addr_mod tf)
  have hal' := toNat_mod_PGSIZE L.trapSec_aligned
  rw [withPages_root] at hbuilt
  refine ⟨by rw [hspace]; exact ho.inLoad.aligned, ?_, by rw [hroot]; exact hbuilt.tables,
    fun q hq => ?_, by rw [hbuilt.bounds.1]; exact hbase, ?_, ?_, ?_⟩
  · rw [htf]
    omega
  · have hq' := hman q (hbuilt.mem_of_free hq)
    unfold Managed
    rw [hbuilt.bounds.1, hbuilt.bounds.2]
    exact hq'
  · rw [hroot, htf]
    refine ho.leaf_initial hm ?_
    exact (if_neg (vpn_ne (by omega) (by omega) (by omega))).trans (if_pos rfl)
  · rw [hroot]
    exact ho.leaf_initial hm (if_pos rfl)
  · rw [hroot, hown]
    exact ⟨hbuilt.not_free (by simp), hbuilt.apart tf (by simp)⟩

theorem OneLoaded.unmapped (habove : AboveTrapSec L (addr tf)) {v : Vpn}
    (hlo : hd.vaddr.toNat / 4096 + 2 ≤ v.toNat) (hhi : v.toNat < 0x7fffe) :
    translate s'.phys.mem pt v = none := by
  obtain ⟨ph, hpage, hsame⟩ := ho.page
  have hcount := mapCount_le hd.vaddr
  rw [hsame, hpage.leaf, if_neg (by omega), hm.filling.leaf]
  by_contra hv
  have hhigh : v ∈ highPages :=
    initialLeaf_high (a := (withPages (s₀.procs i) tf pt ks mi).space) habove hv
  exact absurd hhigh (Nat.not_le.mpr hhi)

omit hm in
/-- The frame behind that of the segment is mapped. -/
theorem OneLoaded.next_leaf (hcount : mapCount hd.vaddr = 2) :
    translate s'.phys.mem pt (vpnOf (hd.vaddr.toNat / 4096 + 1)) =
      some (mkPte (addr (p + 1)) elfPerm) := by
  obtain ⟨ph, hpage, hsame⟩ := ho.page
  have hnext : addr p + vaddr 1 = addr (p + 1) := by
    apply BitVec.eq_of_toNat_eq
    have := p.isLt
    rw [BitVec.toNat_add, addr_toNat, addr_toNat, BitVec.toNat_add, vaddr_toNat (by omega),
      show (1 : Ppn).toNat = 1 from rfl]
    omega
  rw [hsame, hpage.mapped (by omega), hnext]

/-- A first segment that is not at a page boundary exposes the table of the trap section. -/
theorem OneLoaded.exposed {P : Ppn} {n : ℕ} (hfl₀ : fl₀ = pagesDown P n)
    (hman : ∀ q ∈ fl₀, Managed s₀.phys q) (habove : ∀ q ∈ fl₀, AboveTrapSec L (addr q))
    (hbase : s₀.phys.freeMemStartAddr ≠ 0)
    (hne : px 1 (vpn (addr tf)) ≠ px 1 (vpn L.trapSecStart))
    (htrap : L.trapSecStart.toNat / 4096 = 0x80001)
    (hcount : mapCount hd.vaddr = 2) (hlow : hd.vaddr.toNat / 4096 + 1 < 0x400)
    (hheap : s₀.gUfreePage = USER_FREE_ADDRESS_START) (hlen : 1027 < fl'.length) :
    Exposed L i (vpnOf (hd.vaddr.toNat / 4096 + 1)) s' fl' := by
  have hspace := ho.inLoad.space
  have hroot : (s'.procs i).space.root = pt := by rw [hspace, withPages_root]
  have htf : (s'.procs i).trapframe = addr tf := congrArg AddrSpace.trapframe hspace
  have habove' := habove tf (hm.filling.built.mem_list (by simp))
  have hN := habove'.toNat
  obtain ⟨ph, hpage, -⟩ := ho.page
  obtain ⟨fl₁, rfl, -⟩ := hpage.list
  subst hfl₀
  have hpath : vpath 2 (vpnOf 0x80000) = vpath 2 (vpn L.trapSecStart) := by
    have hv : vpn L.trapSecStart = vpnOf 0x80001 := by
      rw [eq_vpnOf_iff (by omega), vpn_toNat (by omega), htrap]
    rw [hv]
    decide
  refine ⟨ho.served hm hman habove hbase, heapPaths_card.trans_lt hlen, ?_, by omega,
    ho.heap.trans hheap, ?_, fun v hlo hhi => ?_, ?_, p + 1, ?_, ?_⟩
  · rw [htf]
    omega
  · rw [vpnOf_toNat (by omega)]
    exact hlow
  · rw [hroot]
    exact ho.unmapped hm habove' (by omega) hhi
  · rw [hroot, ← Option.ne_none_iff_exists']
    refine nodeAt_of_leaf (v := stackVpn) ?_ (List.prefix_refl _)
    rw [ho.leaf_initial hm hm.stack]
    exact Option.some_ne_none _
  · rw [hroot, hpath]
    exact ho.nodes _ _ (vpath_length 2 _).le (hm.table_next habove' hne)
  · rw [hroot]
    exact ho.next_leaf hcount

end Loaded

/-! ## Boot -/

/-- A machine with 128 MiB and an application whose only segment is at `0x10010`. -/
def exposedHost : Host where
  memSize := 0x8000000
  mainvars := 0
  argc := 2
  file := some (elfWith [wordAt 5 0x10010])

theorem exposedHost_pageCount : exposedHost.pageCount sampleLayout = 32751 := by decide

theorem Made.sprint (hm : Made L s₀ fl₀ i tf pt ks us mi s fl) (m : Msg) :
    Made L s₀ fl₀ i tf pt ks us mi { s with console := s.console ++ [m] } fl :=
  ⟨congrArg (fun x : Kernel => { x with console := s.console ++ [m] }) hm.rest, hm.list,
    hm.filling, hm.stack, hm.length, hm.last⟩

/-- The free list that `load_user_program` starts with. -/
theorem Started.pagesDown_eq {iso : Prop} {m : Mem} (hs : Started iso L h m s fl) :
    fl = pagesDown (ppn (ROUNDUP L.kend PGSIZE)) fl.length := by
  obtain ⟨new, hnew⟩ := hs.pages
  have hdrop := pagesDown_drop (ppn (ROUNDUP L.kend PGSIZE)) (h.pageCount L) new.length
  rw [hnew, List.drop_left] at hdrop
  have hlen := congrArg List.length hdrop
  rw [pagesDown_length] at hlen
  rw [hlen]
  exact hdrop

/-- The trapframe gets the first page of the list, the last of memory. -/
theorem Made.trapframe_last {iso : Prop} {m : Mem} (hs : Started iso L h m s₀ fl₀)
    (hm : Made L s₀ fl₀ i tf pt ks us mi s fl)
    (hroom : (ppn (ROUNDUP L.kend PGSIZE)).toNat + h.pageCount L ≤ 2 ^ 52) :
    (ppn (ROUNDUP L.kend PGSIZE)).toNat + h.pageCount L ≤ tf.toNat + 132 := by
  obtain ⟨new, hnew⟩ := hs.pages
  have hlen := congrArg List.length hnew
  have hlen₀ := hs.length
  rw [pagesDown_length, List.length_append] at hlen
  obtain ⟨rest, hlist⟩ := hm.list
  have hdown := hs.pagesDown_eq
  rw [hlist, List.length_cons, pagesDown] at hdown
  obtain ⟨rfl, -⟩ := List.cons.inj hdown
  rw [hlist, List.length_cons] at hlen hlen₀
  rw [BitVec.toNat_add, BitVec.toNat_ofNat]
  omega

/-- What the loader leaves behind: the image of the kernel is as in the memory `m`, and the
    trapframe and the page table of the process lie outside. -/
structure LoadedExposed (m : Mem) (s : Kernel) : Prop where
  image : SameImage sampleLayout m s.phys.mem
  trapframe : ¬ InImage sampleLayout ((s.procs 0).space.own .trapframe)
  tables : ∀ q ∈ tablePages s.phys.mem {(s.procs 0).space.root}, ¬ InImage sampleLayout q
  exposed : ∃ fl, Exposed sampleLayout 0 (vpnOf 0x11) s fl

theorem LoadedExposed.frame {m : Mem} (hx : LoadedExposed m s) (hf : FrameOnly 0 s s') :
    LoadedExposed m s' := by
  obtain ⟨himage, htf, htab, fl, hx⟩ := hx
  refine ⟨fun p hp => ?_, by rw [hf.procs]; exact htf, ?_, fl, hx.frame hf⟩
  · rw [hf.mem p fun heq => htf (heq ▸ hp)]
    exact himage p hp
  · rw [hf.procs, show tablePages s'.phys.mem _ = tablePages s.phys.mem _ from
      nodes_congr (hx.served.frame_tables hf)]
    exact htab

theorem LoadedExposed.dispatched {m : Mem} (hx : LoadedExposed m s)
    (hd : Dispatched sampleLayout s s') : LoadedExposed m s' := by
  obtain ⟨himage, htf, htab, fl, hx⟩ := hx
  obtain ⟨-, s₂, hq, rfl⟩ := hd
  have hphys : s₂.phys = s.phys := by rw [hq.rest]
  have hx₂ : Exposed sampleLayout 0 (vpnOf 0x11) s₂ fl :=
    hx.congr hphys (hq.space 0) (by rw [hq.rest])
  have hl₂ : LoadedExposed m s₂ := by
    refine ⟨?_, ?_, ?_, fl, hx₂⟩
    · rwa [hphys]
    · rwa [hq.space]
    · rwa [hphys, hq.space]
  exact hl₂.frame (afterSwitch_frameOnly hx₂.served.aligned)

theorem Made.loads_exposed {m : Mem} (hs : Started False sampleLayout exposedHost m s₀ fl₀)
    (hm : Made sampleLayout s₀ fl₀ 0 tf pt ks us mi s fl) :
    Prog.wp (loadBincodeFromHostElf exposedHost 0) (fun _ s' => LoadedExposed m s')
      (fun _ => False) (fun _ => False) s := by
  have hloads : (elfWith [wordAt 5 0x10010]).loads = [wordAt 5 0x10010] := rfl
  have hman : ∀ q ∈ fl₀, Managed s₀.phys q := fun q hq => hs.space.managed q (Or.inl hq)
  have habove : ∀ q ∈ fl₀, AboveTrapSec sampleLayout (addr q) := fun q hq =>
    hs.space.aboveTrapSec (hman q hq)
  have htf : tf ∈ fl₀ := hm.filling.built.mem_list (by simp)
  have hcount := exposedHost_pageCount
  have hlen₀ := hs.length
  have hlen := hm.length
  have hlast := hm.trapframe_last hs (by rw [hcount]; decide)
  rw [hcount, show (ppn (ROUNDUP sampleLayout.kend PGSIZE)).toNat = 0x80010 by decide] at hlast
  have hbase : s₀.phys.freeMemStartAddr ≠ 0 := by
    have := hs.space.base_le
    rintro h0
    rw [h0] at this
    exact absurd this (by decide)
  unfold loadBincodeFromHostElf parseArgs
  rw [if_neg (not_not.mpr (show exposedHost.mainvars = 0 from rfl)), Prog.wp_bind, Prog.wp_pure,
    if_neg (by decide), Pke.sprint, Prog.wp_bind, Prog.wp_modify]
  dsimp only [exposedHost]
  rw [if_neg (by decide), Prog.wp_bind]
  have hm' := hm.sprint (.text "Application: %s\n" [])
  obtain ⟨s₁, hload⟩ := hm'.elfLoad_ok (f := elfWith [wordAt 5 0x10010]) (habove tf htf)
    (fun _ _ => rfl) (by rw [hloads]; simp) (by rw [hloads, List.length_singleton]; omega)
    (by rw [hloads]; exact wordAt_loadable (by decide) (by decide) (wordAt_low (by decide)) trivial)
  rw [Prog.wp_of_ret hload, if_neg (not_not.mpr rfl), proc, Prog.wp_bind, Prog.wp_gets,
    Prog.wp_bind, wp_onPhys, store, Prog.wp_modify, Prog.wp_bind, wp_onPhys, load, Prog.wp_gets,
    Pke.sprint, Prog.wp_modify]
  obtain ⟨p, seg, fl', hone⟩ := hm'.loaded (hloads ▸ elfLoad_run hload)
  obtain ⟨ph, hpage, -⟩ := hone.page
  have hlen' := hpage.length
  have hx : Exposed sampleLayout 0 (vpnOf 0x11) s₁ fl' := by
    refine hone.exposed hm' hs.pagesDown_eq hman habove hbase ?_ (by decide) (by decide)
      (by decide) hs.heap (by omega)
    -- the trapframe lies at the end of memory, so its table is another one
    have hpx : ∀ v : Vpn, (px 1 v).toNat = v.toNat / 512 % 512 := fun v => px_toNat 1 v
    have hmax := (habove tf htf).toNat
    intro heq
    have hidx := congrArg BitVec.toNat heq
    rw [hpx, hpx, vpn_toNat (by omega), addr_toNat, vpn_toNat (by decide),
      show sampleLayout.trapSecStart.toNat = 0x80001000 from rfl] at hidx
    rw [addr_toNat] at hmax
    omega
  have hal : addr ((s₁.procs 0).space.own .trapframe) = (s₁.procs 0).trapframe :=
    hx.served.aligned.trapframe
  have hown : (s₁.procs 0).space.own .trapframe = tf := by
    rw [hone.inLoad.space, withPages_own]
  have hout : ∀ q ∈ fl₀, ¬ InImage sampleLayout q := fun q hq hp =>
    hs.space.image_not_managed hp (hman q hq)
  have hl : LoadedExposed m s₁ := by
    refine ⟨hs.image.trans fun q hq => ?_, by rw [hown]; exact hout tf htf, fun q hq => hout q ?_,
      fl', hx⟩
    · exact hone.inLoad.built.frame q fun hfree => hout q hfree hq
    · rw [hone.inLoad.space] at hq
      exact hone.inLoad.built.mem_of_table hq
  refine hl.frame ⟨fun q hq => store64_of_ne ?_, rfl, rfl, rfl, rfl⟩
  rw [tfEpc, ← hal, ppn_addr_add _ (by decide)]
  exact hq

/-- **Boot of the application.** -/
theorem sStart_exposed (s₀ : Kernel) : ∃ s,
    sStart sampleLayout exposedHost (coldStart exposedHost s₀) = .exit s ∧ SchedInv s 0 [] ∧
      LoadedExposed s₀.phys.mem s := by
  -- with a variable for the host, no tactic runs `s_start`
  obtain ⟨h, hh⟩ : ∃ h, h = exposedHost := ⟨_, rfl⟩
  rw [← hh]
  have hcount : h.pageCount sampleLayout = 32751 := by
    rw [hh]
    exact exposedHost_pageCount
  have hsmall : ¬ h.Small sampleLayout := by
    rintro (hfits | hfew)
    · rw [hh] at hfits
      exact absurd hfits (by decide)
    · omega
  have hmake : ∀ s fl, Started False sampleLayout h s₀.phys.mem s fl →
      Prog.wp (allocProcess sampleLayout)
      (fun i s₁ => ∃ tf pt ks us mi fl', Made sampleLayout s fl i tf pt ks us mi s₁ fl')
      (fun _ => False) (fun _ => False) s := by
    intro s fl hs
    have hlen := hs.length
    exact Prog.wp_mono (allocProcess_made hs.space.tables.free) (fun _ _ h => h.2) (fun _ h => h)
      fun _ hn => hn ⟨⟨0, hs.idle.free 0⟩, by omega, fun q hq =>
        hs.space.aboveTrapSec (hs.space.managed q (Or.inl hq))⟩
  have hload : ∀ s fl s₁, Started False sampleLayout h s₀.phys.mem s fl →
      (∃ tf pt ks us mi fl', Made sampleLayout s fl 0 tf pt ks us mi s₁ fl') →
      Prog.wp (loadBincodeFromHostElf h 0) (fun _ s' => LoadedExposed s₀.phys.mem s')
        (fun _ => False) (fun _ => False)
        { s₁ with console := s₁.console ++ [.text "User application is loading.\n" []] } := by
    rintro s fl s₁ hs ⟨tf, pt, ks, us, mi, fl', hm⟩
    rw [hh] at hs ⊢
    exact (hm.sprint _).loads_exposed hs
  have hboot := sStart_process s₀ (fun h => absurd h hsmall) hmake hload
    fun _ _ hx hd hn => by
      obtain ⟨fl, hx'⟩ := (hx.dispatched hd).exposed
      exact hn hx'.served.canEnter.canReturn
  obtain ⟨s, hrun, s₁, hx, hd⟩ := Prog.exits_of_wp hboot fun _ h => h
  exact ⟨_, hrun, hd.booted.sched, hx.dispatched hd⟩

end Pke
