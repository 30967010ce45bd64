import Pke.Build.Page
import Pke.Space.Steps

/-!
# Allocating and freeing pages on a page table of any kind

`allocate_page` and `free_page` work as long as the page table of the caller is a tree
apart from the free list and traps can be entered, whatever else the entries of the table
map: `Served` says no more than that. It holds of processes whose memory is not in order
as well, such as one that maps a page of its own page table.
-/

namespace Pke

open Lib Radix

variable {L : Layout} {c : Pid} {s s' s₁ : Kernel} {fl fl' : List Ppn} {t : TrapInput} {v : Vpn}
  {p f : Ppn} {Q : List Pid}

/-- The kernel can serve process `c`. -/
structure Served (L : Layout) (c : Pid) (s : Kernel) (fl : List Ppn) : Prop where
  aligned : (s.procs c).space.Aligned
  low : (s.procs c).trapframe.toNat < 2 ^ 38 ∧ L.trapSecStart.toNat < 2 ^ 38
  tables : Tables {(s.procs c).space.root} s.phys fl
  managed : ∀ p ∈ fl, Managed s.phys p
  base : s.phys.freeMemStartAddr ≠ 0
  trapframe : translate s.phys.mem (s.procs c).space.root (vpn (s.procs c).trapframe) =
    some (mkPte (s.procs c).trapframe trapframePerm)
  trapSec : translate s.phys.mem (s.procs c).space.root (vpn L.trapSecStart) =
    some (mkPte L.trapSecStart trapSecPerm)
  apart : (s.procs c).space.own .trapframe ∉ fl ∧
    (s.procs c).space.own .trapframe ∉ tablePages s.phys.mem {(s.procs c).space.root}

theorem Served.canEnter (h : Served L c s fl) : CanEnter L s c :=
  canEnter_of_leaves h.aligned h.low.1 h.low.2 h.trapframe h.trapSec

theorem Served.congr (h : Served L c s fl) (hphys : s'.phys = s.phys)
    (hspace : (s'.procs c).space = (s.procs c).space) : Served L c s' fl := by
  have htf : (s'.procs c).trapframe = (s.procs c).trapframe := congrArg AddrSpace.trapframe hspace
  exact ⟨by rw [hspace]; exact h.aligned, by rw [htf]; exact h.low,
    by rw [hspace, hphys]; exact h.tables, by rw [hphys]; exact h.managed,
    by rw [hphys]; exact h.base, by rw [hspace, hphys, htf]; exact h.trapframe,
    by rw [hspace, hphys]; exact h.trapSec, by rw [hspace, hphys]; exact h.apart⟩

/-! ## Writing the trapframe -/

section Frame

variable (h : Served L c s fl) (hf : FrameOnly c s s')

include h hf

theorem Served.frame_tables :
    ∀ q ∈ tablePages s.phys.mem {(s.procs c).space.root}, s'.phys.mem q = s.phys.mem q :=
  fun q hq => hf.mem q fun heq => h.apart.2 (heq ▸ hq)

theorem Served.frame_translate (v : Vpn) : translate s'.phys.mem (s.procs c).space.root v =
    translate s.phys.mem (s.procs c).space.root v :=
  translate_congr (h.frame_tables hf) (Set.mem_singleton _) v

theorem Served.frame_missing (P : Finset (List Idx)) (hP : ∀ π ∈ P, π.length ≤ 2) :
    missing ptePage s'.phys.mem (s.procs c).space.root P =
      missing ptePage s.phys.mem (s.procs c).space.root P :=
  missing_congr fun π hπ => nodeAt_congr (Set.mem_singleton _) (h.frame_tables hf) π
    ((hP π hπ).trans (by omega))

theorem Served.frame : Served L c s' fl := by
  have hpages : tablePages s'.phys.mem {(s.procs c).space.root} =
      tablePages s.phys.mem {(s.procs c).space.root} := nodes_congr (h.frame_tables hf)
  have hman : ∀ p, Managed s.phys p → Managed s'.phys p := fun p hp => by
    unfold Managed
    rw [hf.phys]
    exact hp
  have hfree : FreeList s'.phys fl := h.tables.free.frame (by rw [hf.phys]) fun q hq =>
    hf.mem q fun heq => h.apart.1 (heq ▸ hq)
  refine ⟨?_, ?_, ?_, fun p hp => hman p (h.managed p hp), ?_, ?_, ?_, ?_⟩
  · rw [hf.procs]
    exact h.aligned
  · rw [hf.procs]
    exact h.low
  · rw [hf.procs]
    exact h.tables.congr (h.frame_tables hf) hfree h.tables.apart
  · rw [hf.phys]
    exact h.base
  · rw [hf.procs, h.frame_translate hf]
    exact h.trapframe
  · rw [hf.procs, h.frame_translate hf]
    exact h.trapSec
  · rw [hf.procs, hpages]
    exact h.apart

end Frame

/-! ## Getting a page -/

/-- Process `c` got the page `p` of the free list at `v`. -/
structure Gained (L : Layout) (c : Pid) (v : Vpn) (p : Ppn) (s : Kernel) (fl : List Ppn)
    (s' : Kernel) (fl' : List Ppn) : Prop where
  served : Served L c s' fl'
  procs : s'.procs = s.procs
  leaf : ∀ v', translate s'.phys.mem (s.procs c).space.root v' =
    if v' = v then some (mkPte (addr p) userDataPerm)
    else translate s.phys.mem (s.procs c).space.root v'
  count : ∃ fl₁, fl = p :: fl₁ ∧ ∀ P : Finset (List Idx), (∀ π ∈ P, π.length ≤ 2) →
    tablePaths v.toNat 1 ⊆ P →
    missing ptePage s.phys.mem (s.procs c).space.root P + fl'.length =
      missing ptePage s'.phys.mem (s.procs c).space.root P + fl₁.length
  page : p ∉ fl' ∧ p ∉ tablePages s'.phys.mem {(s.procs c).space.root}
  managed : Managed s'.phys p
  heap : s'.gUfreePage = s.gUfreePage + PGSIZE

/-- The trapframe is written before. -/
theorem Gained.after (hg : Gained L c v p s₁ fl s' fl') (h : Served L c s fl)
    (hf : FrameOnly c s s₁) : Gained L c v p s fl s' fl' := by
  obtain ⟨fl₁, hfl, hcount⟩ := hg.count
  refine ⟨hg.served, hg.procs.trans hf.procs, fun v' => ?_, ⟨fl₁, hfl, fun P hP hsub => ?_⟩, ?_,
    hg.managed, by rw [hg.heap, hf.heap]⟩
  · have := hg.leaf v'
    rwa [hf.procs, h.frame_translate hf] at this
  · have := hcount P hP hsub
    rwa [hf.procs, h.frame_missing hf P hP] at this
  · have := hg.page
    rwa [hf.procs] at this

/-- The trapframe is written afterwards. -/
theorem Gained.before (hg : Gained L c v p s fl s₁ fl') (hf : FrameOnly c s₁ s') :
    Gained L c v p s fl s' fl' := by
  have hserved := hg.served
  have htrans := hserved.frame_translate hf
  have hmiss := hserved.frame_missing hf
  have htab : tablePages s'.phys.mem {(s₁.procs c).space.root} =
      tablePages s₁.phys.mem {(s₁.procs c).space.root} := nodes_congr (hserved.frame_tables hf)
  rw [hg.procs] at htrans hmiss htab
  obtain ⟨fl₁, hfl, hcount⟩ := hg.count
  refine ⟨hserved.frame hf, hf.procs.trans hg.procs, fun v' => (htrans v').trans (hg.leaf v'),
    ⟨fl₁, hfl, fun P hP hsub => ?_⟩, ?_, ?_, by rw [hf.heap, hg.heap]⟩
  · rw [hmiss P hP]
    exact hcount P hP hsub
  · rw [htab]
    exact hg.page
  · unfold Managed
    rw [hf.phys]
    exact hg.managed

/-- There is a page for the caller of `allocate_page`, and pages for the tables it needs. -/
structure CanGain (s : Kernel) (c : Pid) (fl : List Ppn) : Prop where
  low : s.gUfreePage.toNat + 4096 ≤ 2 ^ 38
  unmapped : translate s.phys.mem (s.procs c).space.root (vpn s.gUfreePage) = none
  pages : tablesNeeded s.phys.mem (s.procs c).space.root (vpn s.gUfreePage).toNat 1 < fl.length

/-- Taking the page and mapping it. -/
theorem Served.gained {fl₁ : List Ppn} (h : Served L c s (p :: fl₁)) {g : Word} {ph : Phys}
    (hmap : MapOne {(s.procs c).space.root} (s.procs c).space.root v
      (mkPte (addr p) userDataPerm) { s.phys with gFreeMemList := g } fl₁ ph fl')
    (hcount : ∀ P : Finset (List Idx), (∀ π ∈ P, π.length ≤ 2) → tablePaths v.toNat 1 ⊆ P →
      missing ptePage s.phys.mem (s.procs c).space.root P + fl'.length =
        missing ptePage ph.mem (s.procs c).space.root P + fl₁.length) :
    Gained L c v p s (p :: fl₁) { s with phys := ph, gUfreePage := s.gUfreePage + PGSIZE } fl' := by
  obtain ⟨new, rfl, hpages⟩ := hmap.grow.popped
  have hnodup := h.tables.free.nodup
  rw [List.nodup_cons] at hnodup
  have hman : ∀ q, Managed s.phys q → Managed ph q := fun q hq => by
    unfold Managed
    rw [hmap.grow.start, hmap.grow.last]
    exact hq
  -- a page that is neither a table nor free does not become a table
  have hnew : ∀ q, q ∉ tablePages s.phys.mem {(s.procs c).space.root} → q ∉ new →
      q ∉ tablePages ph.mem {(s.procs c).space.root} := fun q hq hqn hm => by
    rw [hpages] at hm
    exact hm.elim hq hqn
  have hold : ∀ v' w, translate s.phys.mem (s.procs c).space.root v' = some w →
      translate ph.mem (s.procs c).space.root v' = some w := fun v' w hw => by
    rw [hmap.leaf _ rfl, if_neg]
    · exact hw
    · rintro ⟨-, rfl⟩
      exact Option.some_ne_none w (hw.symm.trans hmap.unmapped)
  refine ⟨⟨h.aligned, h.low, hmap.grow.tables, fun q hq => ?_, ?_, hold _ _ h.trapframe,
    hold _ _ h.trapSec, fun hq => ?_, ?_⟩, rfl, fun v' => ?_, ⟨_, rfl, hcount⟩,
    ⟨fun hm => hnodup.1 (List.mem_append_right _ hm), ?_⟩, hman p (h.managed p List.mem_cons_self),
    rfl⟩
  · exact hman q (h.managed q (List.mem_cons_of_mem _ (List.mem_append_right _ hq)))
  · show ph.freeMemStartAddr ≠ 0
    rw [hmap.grow.start]
    exact h.base
  · exact h.apart.1 (List.mem_cons_of_mem _ (List.mem_append_right _ hq))
  · exact hnew _ h.apart.2 fun hq => h.apart.1 (List.mem_cons_of_mem _ (List.mem_append_left _ hq))
  · rw [hmap.leaf _ rfl]
    simp only [true_and]
  · exact hnew p (fun hq => h.tables.apart p hq List.mem_cons_self) fun hm =>
      hnodup.1 (List.mem_append_left _ hm)

theorem Served.allocate (h : Served L c s fl) (hcur : s.current = some c)
    (hal : s.gUfreePage % PGSIZE = 0) (hcan : CanGain s c fl) :
    Prog.wp sysUserAllocatePage
      (fun r s' => r = s.gUfreePage ∧ s'.current = some c ∧
        ∃ p fl', Gained L c (vpn s.gUfreePage) p s fl s' fl')
      (fun _ => False) (fun _ => False) s := by
  have hroot : addr (s.procs c).space.root = (s.procs c).pagetable := h.aligned.pagetable
  have hlow := hcan.low
  have hvpn : (vpn s.gUfreePage).toNat = s.gUfreePage.toNat / 4096 := vpn_toNat (by omega)
  have hvpn' : vpnOf (s.gUfreePage.toNat / 4096) = vpn s.gUfreePage := by
    symm
    rw [eq_vpnOf_iff (by omega), hvpn]
  have hpages := hcan.pages
  rw [hvpn] at hpages
  cases fl with
  | nil => simp at hpages
  | cons p fl₁ =>
    obtain ⟨g, hrun, hfree⟩ := allocPage_cons h.tables.free
    have htables : Tables {(s.procs c).space.root} { s.phys with gFreeMemList := g } fl₁ :=
      ⟨hfree, h.tables.forest, fun q hq hm => h.tables.apart q hq (List.mem_cons_of_mem _ hm),
        h.tables.nonnull⟩
    unfold sysUserAllocatePage
    rw [Prog.wp_bind, wp_onPhys, Prog.wp_of_ret hrun, Prog.wp_bind, Prog.wp_gets, Prog.wp_bind,
      Prog.wp_modify]
    refine wp_currentProc hcur ?_
    rw [proc, Prog.wp_bind, Prog.wp_gets, Prog.wp_bind, wp_onPhys]
    dsimp only
    rw [← hroot]
    refine Prog.wp_mono (userVmMap_page htables (Set.mem_singleton _)) ?_ (fun _ h => h)
      fun _ hn => hn ⟨hlow, fun k hk => ?_, ?_⟩
    · rintro _ ph ⟨fl', hmap, -, -, hcount⟩
      rw [mapCount_of_aligned hal] at hmap hcount
      have hV : s.gUfreePage.toNat / 4096 < 2 ^ 26 := by omega
      have hone := hmap.one hV
      rw [hvpn'] at hone
      rw [← hvpn] at hcount
      exact ⟨rfl, hcur, p, fl', h.gained hone hcount⟩
    · rw [mapCount_of_aligned hal] at hk
      obtain rfl : k = 0 := by omega
      rw [Nat.add_zero, hvpn']
      exact hcan.unmapped
    · rw [mapCount_of_aligned hal]
      rw [List.length_cons] at hpages
      exact Nat.le_of_lt_succ hpages

/-- What the call that process `i` made last returned to it: the `a0` of its trapframe. -/
def Kernel.result (s : Kernel) (i : Pid) : Word :=
  load64 s.phys.mem (frameSlot (s.procs i).trapframe .a0)

theorem returned_result (L : Layout) (c : Pid) (r : Word) (s : Kernel) :
    (returned L c r s).result c = r := by
  refine (afterSwitch_word L c _ (k := Reg.a0.index) (Or.inl (by decide))).trans ?_
  exact (load64_store64 _ _ _ _).trans (if_pos rfl)

/-- Process `c` goes on when its call has returned. -/
theorem SchedInv.resumed (hsched : SchedInv s c Q) (ht : trap L t s = .exit s')
    (hcur : s'.current = some c) : ∃ Q', SchedInv s' c Q' := by
  obtain ⟨q, Q', hsched', -⟩ := hsched.step (.trap ht)
  obtain rfl : q = c := Option.some.inj (hsched'.current.symm.trans hcur)
  exact ⟨Q', hsched'⟩

/-- **A call of `allocate_page`.** -/
theorem Served.trap_allocate (h : Served L c s fl) (hsched : SchedInv s c Q)
    (ht : IsSyscall t SYS_user_allocate_page) (hal : s.gUfreePage % PGSIZE = 0)
    (hcan : CanGain s c fl) :
    ∃ s' p fl' Q', trap L t s = .exit s' ∧ SchedInv s' c Q' ∧ s'.result c = s.gUfreePage ∧
      Gained L c (vpn s.gUfreePage) p s fl s' fl' := by
  have hframe := inSyscall_frameOnly h.aligned hsched.scratch t
  have hpages := hcan.pages
  have hcan' : CanGain (inSyscall t c s) c fl := by
    refine ⟨hcan.low, ?_, ?_⟩
    · rw [hframe.procs, hframe.heap, h.frame_translate hframe]
      exact hcan.unmapped
    · unfold tablesNeeded at hpages ⊢
      rw [hframe.procs, hframe.heap, h.frame_missing hframe _ fun π => tablePaths_length]
      exact hpages
  have hcall := (h.frame hframe).allocate hsched.current hal hcan'
  have heq : doSyscall L (t.regs .a0) (t.regs .a1) (t.regs .a2) = sysUserAllocatePage := by
    rw [ht.2, doSyscall, if_neg (by decide), if_neg (by decide), if_pos rfl]
  rw [← heq] at hcall
  obtain ⟨s', hexit, r, s₁, ⟨hr, hcur, p, fl', hg⟩, rfl⟩ := Prog.exits_of_wp
    (trap_call hsched h.canEnter ht.1 hcall (by
      rintro r s₁ ⟨-, hcur, p, fl', hg⟩
      have hret := returned_frameOnly (L := L) hg.served.aligned r
      exact ⟨hcur, by rw [hg.procs, hframe.procs], fun hn =>
        hn (hg.served.frame hret).canEnter.canReturn⟩)) fun _ h => h
  have hret := returned_frameOnly (L := L) hg.served.aligned r
  obtain ⟨Q', hsched'⟩ := hsched.resumed hexit rfl
  refine ⟨_, p, fl', Q', hexit, hsched', (returned_result L c r s₁).trans hr, ?_⟩
  rw [hframe.heap] at hg
  exact (hg.after h hframe).before hret

/-! ## Freeing a page -/

/-- Process `c` gave up its page at `v`, and the frame `f` is free. -/
structure Dropped (L : Layout) (c : Pid) (v : Vpn) (f : Ppn) (s : Kernel) (fl : List Ppn)
    (s' : Kernel) : Prop where
  served : Served L c s' (f :: fl)
  procs : s'.procs = s.procs
  leaf : ∀ v', translate s'.phys.mem (s.procs c).space.root v' =
    if v' = v then none else translate s.phys.mem (s.procs c).space.root v'
  count : ∀ P : Finset (List Idx), (∀ π ∈ P, π.length ≤ 2) →
    missing ptePage s'.phys.mem (s.procs c).space.root P =
      missing ptePage s.phys.mem (s.procs c).space.root P
  heap : s'.gUfreePage = s.gUfreePage

/-- The page at `v` is mapped by the frame `f`, which the kernel does not use. -/
structure CanDrop (L : Layout) (c : Pid) (v : Vpn) (f : Ppn) (s : Kernel) (fl : List Ppn) :
    Prop where
  leaf : ∃ w, translate s.phys.mem (s.procs c).space.root v = some w ∧ ptePpn w = f
  table : f ∉ tablePages s.phys.mem {(s.procs c).space.root}
  free : f ∉ fl
  managed : Managed s.phys f
  trapframe : f ≠ (s.procs c).space.own .trapframe
  apart : v ≠ vpn (s.procs c).trapframe ∧ v ≠ vpn L.trapSecStart

theorem CanDrop.frame (hd : CanDrop L c v f s fl) (h : Served L c s fl) (hf : FrameOnly c s s') :
    CanDrop L c v f s' fl := by
  obtain ⟨w, hw, hwf⟩ := hd.leaf
  have hpages : tablePages s'.phys.mem {(s.procs c).space.root} =
      tablePages s.phys.mem {(s.procs c).space.root} := nodes_congr (h.frame_tables hf)
  refine ⟨⟨w, ?_, hwf⟩, ?_, hd.free, ?_, ?_, ?_⟩
  · rw [hf.procs, h.frame_translate hf]
    exact hw
  · rw [hf.procs, hpages]
    exact hd.table
  · unfold Managed
    rw [hf.phys]
    exact hd.managed
  · rw [hf.procs]
    exact hd.trapframe
  · rw [hf.procs]
    exact hd.apart

theorem UnmapOne.dropped {ph : Phys}
    (hu : UnmapOne {(s.procs c).space.root} (s.procs c).space.root v f s.phys fl ph)
    (h : Served L c s fl) (hd : CanDrop L c v f s fl) :
    Dropped L c v f s fl { s with phys := ph } := by
  have hman : ∀ q, Managed s.phys q → Managed ph q := fun q hq => by
    unfold Managed
    rw [hu.start, hu.last]
    exact hq
  have hleaf : ∀ v', translate ph.mem (s.procs c).space.root v' =
      if v' = v then none else translate s.phys.mem (s.procs c).space.root v' := fun v' => by
    rw [hu.leaf _ rfl]
    simp only [true_and]
  refine ⟨⟨h.aligned, h.low, hu.tables, fun q hq => ?_, ?_, ?_, ?_, ?_⟩, rfl, hleaf,
    fun P hP => missing_congr fun π hπ => hu.nodes _ rfl π (hP π hπ), rfl⟩
  · rcases List.mem_cons.mp hq with rfl | hq
    · exact hman _ hd.managed
    · exact hman q (h.managed q hq)
  · show ph.freeMemStartAddr ≠ 0
    rw [hu.start]
    exact h.base
  · exact (hleaf _).trans ((if_neg hd.apart.1.symm).trans h.trapframe)
  · exact (hleaf _).trans ((if_neg hd.apart.2.symm).trans h.trapSec)
  · refine ⟨fun hq => ?_, ?_⟩
    · rcases List.mem_cons.mp hq with hq | hq
      · exact hd.trapframe hq.symm
      · exact h.apart.1 hq
    · show _ ∉ tablePages ph.mem _
      rw [hu.pages]
      exact h.apart.2

theorem Dropped.after (hd : Dropped L c v f s₁ fl s') (h : Served L c s fl)
    (hf : FrameOnly c s s₁) : Dropped L c v f s fl s' := by
  refine ⟨hd.served, hd.procs.trans hf.procs, fun v' => ?_, fun P hP => ?_,
    by rw [hd.heap, hf.heap]⟩
  · have := hd.leaf v'
    rwa [hf.procs, h.frame_translate hf] at this
  · have := hd.count P hP
    rwa [hf.procs, h.frame_missing hf P hP] at this

theorem Dropped.before (hd : Dropped L c v f s fl s₁) (hf : FrameOnly c s₁ s') :
    Dropped L c v f s fl s' := by
  have htrans := hd.served.frame_translate hf
  have hmiss := hd.served.frame_missing hf
  rw [hd.procs] at htrans hmiss
  exact ⟨hd.served.frame hf, hf.procs.trans hd.procs, fun v' => (htrans v').trans (hd.leaf v'),
    fun P hP => (hmiss P hP).trans (hd.count P hP), by rw [hf.heap, hd.heap]⟩

/-- **A call of `free_page`.** -/
theorem Served.trap_free (h : Served L c s fl) (hsched : SchedInv s c Q)
    (ht : IsSyscall t SYS_user_free_page) (hmax : t.regs .a1 < MAXVA)
    (hal : t.regs .a1 % PGSIZE = 0) (hd : CanDrop L c (vpn (t.regs .a1)) f s fl) :
    ∃ s' Q', trap L t s = .exit s' ∧ SchedInv s' c Q' ∧
      Dropped L c (vpn (t.regs .a1)) f s fl s' := by
  have hframe := inSyscall_frameOnly h.aligned hsched.scratch t
  have h₁ := h.frame hframe
  have hd₁ := hd.frame h hframe
  obtain ⟨w, hw, rfl⟩ := hd₁.leaf
  have hroot : addr ((inSyscall t c s).procs c).space.root =
      ((inSyscall t c s).procs c).pagetable := h₁.aligned.pagetable
  have hcall : Prog.wp (doSyscall L (t.regs .a0) (t.regs .a1) (t.regs .a2))
      (fun _ s' => s'.current = some c ∧
        Dropped L c (vpn (t.regs .a1)) (ptePpn w) (inSyscall t c s) fl s')
      (fun _ => False) (fun _ => False) (inSyscall t c s) := by
    rw [ht.2, doSyscall, if_neg (by decide), if_neg (by decide), if_neg (by decide), if_pos rfl]
    unfold sysUserFreePage
    refine wp_currentProc hsched.current ?_
    rw [proc, Prog.wp_bind, Prog.wp_gets, Prog.wp_bind, wp_onPhys, ← hroot]
    refine Prog.wp_mono (userVmUnmap_mapped h₁.tables (Set.mem_singleton _) hw hd₁.table hd₁.free
      h₁.base _ _) (fun _ ph hu => ?_) (fun _ h => h) fun _ hn => hn ⟨hmax, hal, hd₁.managed⟩
    exact ⟨hsched.current, hu.dropped h₁ hd₁⟩
  obtain ⟨s', hexit, r, s₁, ⟨hcur, hdrop⟩, rfl⟩ := Prog.exits_of_wp
    (trap_call hsched h.canEnter ht.1 hcall (by
      rintro r s₁ ⟨hcur, hdrop⟩
      have hret := returned_frameOnly (L := L) hdrop.served.aligned r
      exact ⟨hcur, by rw [hdrop.procs, hframe.procs], fun hn =>
        hn (hdrop.served.frame hret).canEnter.canReturn⟩)) fun _ h => h
  have hret := returned_frameOnly (L := L) hdrop.served.aligned r
  obtain ⟨Q', hsched'⟩ := hsched.resumed hexit rfl
  exact ⟨_, Q', hexit, hsched', (hdrop.after h hframe).before hret⟩

end Pke
