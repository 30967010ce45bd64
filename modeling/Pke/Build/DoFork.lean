import Pke.Build.Fork
import Pke.Space.DoFork
import Pke.Boot.Single

/-!
# The child that `do_fork` makes

`do_fork` as a whole, for every parent whose regions are those of `alloc_process` and up to
253 of code and data: what the child has, what everybody else keeps, and which regions are
recorded for the child.
-/

namespace Pke

open Lib Radix

variable {L : Layout} {s s' : Kernel} {fl : List Ppn} {c i : Pid} {r : Word} {Q : List Pid}
  {rs : List (Word × BitVec 32 × Option SegType)}

/-- The parts of a call of `do_fork` that returns. -/
theorem doFork_parts (hrun : doFork L c s = .ret r s') :
    ∃ msgs i s₁ s₂, allocProcess L { s with console := msgs } = .ret i s₁ ∧
      forkRegions c i (List.range (s₁.procs c).totalMappedRegion) s₁ = .ret () s₂ ∧
      forkFinish c i s₂ = .ret r s' := by
  obtain ⟨p, t, hproc, h₁⟩ := Prog.bind_eq_ret.mp hrun
  obtain ⟨rfl, rfl⟩ : s.procs c = p ∧ s = t := by simpa [proc] using hproc
  obtain ⟨_, t, hprint, h₂⟩ := Prog.bind_eq_ret.mp h₁
  obtain rfl : _ = t := by simpa [sprint] using hprint
  obtain ⟨i, s₁, halloc, h₃⟩ := Prog.bind_eq_ret.mp h₂
  obtain ⟨q, t, hproc, h₄⟩ := Prog.bind_eq_ret.mp h₃
  obtain ⟨rfl, rfl⟩ : s₁.procs c = q ∧ s₁ = t := by simpa [proc] using hproc
  obtain ⟨_, s₂, hloop, h₅⟩ := Prog.bind_eq_ret.mp h₄
  exact ⟨_, i, s₁, s₂, halloc, hloop, h₅⟩

/-- The slot `i` was taken for the child, with the address space `a` and the user stack
    `us`; `s₂` is the state in which it comes to the queue. -/
structure ChildMade (L : Layout) (s : Kernel) (fl : List Ppn) (c i : Pid)
    (rs : List (Word × BitVec 32 × Option SegType)) (Q : List Pid) (a : AddrSpace) (us : Ppn)
    (D : Set Ppn) (s₂ : Kernel) (fl₂ : List Ppn) (s' : Kernel) : Prop where
  free : (s.procs i).status = .FREE
  first : fl.head? = some (a.own .trapframe)
  copying : Copying L s fl c i rs a us (3 + rs.length) s₂ D fl₂
  finished : ForkFinished c i s₂ s'
  queue : QueueOk s' (Q ++ [i])

theorem doFork_childMade (hfree : FreeList s.phys fl) (hp : ForkParent s fl c rs)
    (hQ : QueueOk s Q) (hrun : doFork L c s = .ret r s') :
    ∃ i a us D s₂ fl₂, ChildMade L s fl c i rs Q a us D s₂ fl₂ s' := by
  obtain ⟨msgs, i, s₁, s₂, halloc, hloop, hfin⟩ := doFork_parts hrun
  obtain ⟨hslot, tf, pt, ks, us, mi, fl₁, hm⟩ := Prog.wp_ret (allocProcess_made
    (s := { s with console := msgs }) hfree) halloc
  have hmade : Made L s fl i tf pt ks us mi s₁ fl₁ :=
    ⟨hm.rest, hm.list, hm.filling, hm.stack, hm.length, hm.last⟩
  have hne : c ≠ i := by
    rintro rfl
    exact hp.used hslot
  have htotal : (s₁.procs c).totalMappedRegion = 3 + rs.length := by
    rw [hmade.other hne, hp.total]
  rw [htotal] at hloop
  obtain ⟨D, fl₂, hcopying⟩ := forkRegions_copying hp hne (hmade.copying c rs) _ _ le_rfl hloop
  have hiQ : i ∉ Q := fun hi => by
    have := hQ.ready i hi
    rw [hslot] at this
    cases this
  have hQ₂ : QueueOk s₂ Q := by
    have hother : ∀ j ∈ Q, s₂.procs j = s.procs j := fun j hj =>
      hcopying.procs (by rintro rfl; exact hiQ hj)
    have hhead : s₂.readyQueueHead = s.readyQueueHead := by
      obtain ⟨ph, x, msgs', rfl⟩ := hcopying.rest
      rfl
    refine ⟨?_, fun j hj => ?_⟩
    · rw [hhead]
      exact Chain.congr hQ.chain fun j hj => by rw [hother j hj]
    · rw [hother j hj]
      exact hQ.ready j hj
  obtain ⟨-, hqueue, hfinished, -, -⟩ := Prog.wp_ret (forkFinish_queue hQ₂ hiQ) hfin
  obtain ⟨new, rfl⟩ := hmade.list
  refine ⟨i, _, us, D, s₂, fl₂, hslot, ?_, hcopying, hfinished, hqueue⟩
  rw [withPages_own]
  rfl

/-! ## Processes of the running system -/

section System

variable {iso : Prop} {P : Set Pid}

theorem Tables.mono {R R' : Set Ppn} {ph : Phys} (h : Tables R ph fl) (hR : R' ⊆ R) :
    Tables R' ph fl := by
  have hsub : tablePages ph.mem R' ⊆ tablePages ph.mem R := by
    rintro p ⟨r, hr, hp⟩
    exact ⟨r, hR hr, hp⟩
  exact ⟨h.free, h.forest.mono hR, fun p hp => h.apart p (hsub hp),
    fun p hp => h.nonnull p (hsub hp)⟩

theorem Space.separate (h : Space iso L (s.view P P) s.phys fl) {j : Pid} (hj : j ∈ P) :
    Separate s fl j where
  aligned := h.aligned j hj
  off := ⟨h.tables.mono (Set.singleton_subset_iff.mpr (View.root_mem (V := s.view P P) hj)),
    fun _ _ hw => h.leaf_not_free hj hw⟩
  own k := (h.own_apart j hj k).1

theorem Space.forkParent (h : Space iso L (s.view P P) s.phys fl) {j : Pid} (hj : j ∈ P)
    (hused : (s.procs j).status ≠ .FREE) :
    ForkParent s fl j
      ((regionList s.phys.mem (s.procs j).space (s.procs j).totalMappedRegion).drop 3) := by
  have hregs : Regions L s.phys.mem (s.procs j).space (s.procs j).totalMappedRegion :=
    (h.ready j hj).regions
  have hlo := hregs.lo
  have hhi := hregs.hi
  refine ⟨h.separate hj, hused, hregs.stack, hregs.context.2, hregs.system.2, ?_, ?_,
    fun e he => ?_⟩
  · conv_lhs => rw [← List.take_append_drop 3 (regionList s.phys.mem _ _)]
    congr 1
    rw [regionList, ← List.map_take, List.take_range, min_eq_left hlo]
    rfl
  · simp only [regionList, List.length_drop, List.length_map, List.length_range]
    omega
  · obtain ⟨k, hk, rfl⟩ := List.mem_iff_getElem.mp he
    simp only [regionList, List.length_drop, List.length_map, List.length_range] at hk
    simp only [regionList, List.getElem_drop, List.getElem_map, List.getElem_range]
    exact (hregs.rest (3 + k) (by omega) (by omega)).imp (fun h => h.1) fun h => h.1

end System

/-- The small application with a segment of one kind: `do_fork` for its process, as the
    first kernel code after the boot. -/
theorem booted_doFork {flags : BitVec 8} {seg : SegType}
    (ho : (sampleHost flags 8).OneSegment sampleLayout (sampleFile flags 8)
      (sampleSegment flags) seg)
    (hseg : seg = .CODE ∨ seg = .DATA) :
    ∃ s fl e r s', FreeList s.phys fl ∧ (∀ j, (s.procs j).status ≠ .FREE → Separate s fl j) ∧
      ForkParent s fl 0 [e] ∧ e.2.2 = some seg ∧ (seg = .DATA → e.2.1 = 1) ∧ e.1 = 0x10000 ∧
      (∃ w, translate s.phys.mem (s.procs 0).space.root (vpn e.1) = some w ∧ w &&& PTE_R ≠ 0) ∧
      QueueOk s [] ∧ doFork sampleLayout 0 s = .ret r s' := by
  obtain ⟨s, -, hb⟩ := sStart_single False ho (powerOn 0)
  obtain ⟨fl, hs, hlen⟩ := hb.space
  have hpages : 168 ≤ (sampleHost flags 8).pageCount sampleLayout :=
    show 168 ≤ (sampleHost 5 8).pageCount sampleLayout by decide
  have hforkable := hb.forkable ho.low ho.stack hseg hs (by omega)
  obtain ⟨r, s', hrun, -⟩ := Prog.returns_of_wp
    (doFork_made hb.booted.sched (Std.Refl.refl _) rfl hs fun hf => hf.elim) fun _ hn =>
      hn ⟨hforkable.slot, hforkable.pages, hforkable.regions, hforkable.apart⟩
  have h0 := hb.mem_used
  have hparent := hs.forkParent h0 h0
  have hdrop : (regionList s.phys.mem (s.procs 0).space (s.procs 0).totalMappedRegion).drop 3 =
      [regionEntry s.phys.mem (s.procs 0).space 3] := by
    rw [hb.total]
    rfl
  rw [hdrop] at hparent
  have hva : (regionEntry s.phys.mem (s.procs 0).space 3).1 = 0x10000 := hb.regionVa
  obtain ⟨p, -, hleaf⟩ := hb.segment_leaf
  refine ⟨{ s with console := [] }, fl, _, r, s', hs.tables.free, fun j hj => ?_, ?_, hb.regionSeg,
    fun hdata => ?_, hva, ⟨_, by rw [hva]; exact hleaf, ?_⟩, ⟨hb.booted.sched.queue.chain, by simp⟩,
    hrun⟩
  · have := hs.separate (j := j) hj
    exact ⟨this.aligned, this.off, this.own⟩
  · exact ⟨⟨hparent.aligned, hparent.off, hparent.own⟩, hparent.used, hparent.stack,
      hparent.context,
      hparent.system, hparent.regions, hparent.few, hparent.segs⟩
  · have hregs : Regions sampleLayout s.phys.mem (s.procs 0).space (s.procs 0).totalMappedRegion :=
      (hs.ready 0 h0).regions
    rcases hregs.rest 3 le_rfl (by rw [hb.total]; omega) with hcode | hdata'
    · have := hb.regionSeg.symm.trans hcode.1
      rw [hdata] at this
      cases this
    · exact hdata'.2.1
  · rw [mkPte_and_flag _ _ (by decide)]
    decide

/-! ## The child and the others -/

/-- What `do_fork` has done when it returns: slot `i` holds the child of process `c`, built
    from pages of the free list `fl`, and the processes in use keep what they have. -/
structure ForkExact (s : Kernel) (fl : List Ppn) (c i : Pid)
    (rs : List (Word × BitVec 32 × Option SegType)) (Q : List Pid) (s' : Kernel) : Prop where
  free : (s.procs i).status = .FREE
  ready : (s'.procs i).status = .READY
  trapframe : ∀ k < sizeofTrapframe / 8,
    load64 s'.phys.mem ((s'.procs i).trapframe + BitVec.ofNat 64 (8 * k)) =
      if k = Reg.a0.index then 0
      else load64 s.phys.mem ((s.procs c).trapframe + BitVec.ofNat 64 (8 * k))
  stack : ∃ e e₀, translate s'.phys.mem (s'.procs i).space.root stackVpn = some e ∧
    translate s.phys.mem (s.procs c).space.root stackVpn = some e₀ ∧ ptePpn e ∈ fl ∧
    s'.phys.mem (ptePpn e) = s.phys.mem (ptePpn e₀)
  code : ∀ e ∈ rs, e.2.2 = some .CODE → ∃ w w₀,
    translate s'.phys.mem (s'.procs i).space.root (vpn e.1) = some w ∧
    translate s.phys.mem (s.procs c).space.root (vpn e.1) = some w₀ ∧
    Grants w (ptePpn w₀) (PTE_R ||| PTE_X ||| PTE_U)
  others : ∀ j, j ≠ i → (s'.procs j).unlinked = (s.procs j).unlinked
  translations : ∀ j, (s.procs j).status ≠ .FREE → ∀ v,
    translate s'.phys.mem (s.procs j).space.root v = translate s.phys.mem (s.procs j).space.root v
  frames : ∀ j, (s.procs j).status ≠ .FREE → ∀ v e,
    translate s.phys.mem (s.procs j).space.root v = some e →
    s'.phys.mem (ptePpn e) = s.phys.mem (ptePpn e)
  own : ∀ j, (s.procs j).status ≠ .FREE → ∀ k,
    s'.phys.mem ((s.procs j).space.own k) = s.phys.mem ((s.procs j).space.own k)
  queue : QueueOk s' (Q ++ [i])

section Exact

variable {a : AddrSpace} {us : Ppn} {D : Set Ppn} {s₂ : Kernel} {fl₂ : List Ppn}

theorem ChildMade.space (h : ChildMade L s fl c i rs Q a us D s₂ fl₂ s') :
    (s'.procs i).space = a := by
  have := congrArg Process.space h.finished.self
  exact this.trans h.copying.self.1

/-- Only the trapframe is written at the end. -/
theorem ChildMade.mem (h : ChildMade L s fl c i rs Q a us D s₂ fl₂ s') {q : Ppn}
    (hq : q ≠ a.own .trapframe) : s'.phys.mem q = s₂.phys.mem q := by
  rw [h.finished.phys, h.copying.child_trapframe]
  exact store64_of_ne (by rwa [frameSlot_ppn])

/-- What was not free is as before. -/
theorem ChildMade.frame (h : ChildMade L s fl c i rs Q a us D s₂ fl₂ s') {q : Ppn} (hq : q ∉ fl) :
    s'.phys.mem q = s.phys.mem q := by
  rw [h.mem, h.copying.built.frame q hq]
  rintro rfl
  exact hq (h.copying.built.mem_list (h.copying.own.2 .trapframe))

theorem ChildMade.leaf (h : ChildMade L s fl c i rs Q a us D s₂ fl₂ s') (v : Vpn) :
    translate s'.phys.mem a.root v = translate s₂.phys.mem a.root v := by
  refine translate_congr (fun q hq => h.mem ?_) (Set.mem_singleton _) v
  rintro rfl
  exact h.copying.built.apart _ (h.copying.own.2 .trapframe) hq

theorem ChildMade.trapframe (h : ChildMade L s fl c i rs Q a us D s₂ fl₂ s')
    (hp : ForkParent s fl c rs) {k : ℕ} (hk : k < sizeofTrapframe / 8) :
    load64 s'.phys.mem ((s'.procs i).trapframe + BitVec.ofNat 64 (8 * k)) =
      if k = Reg.a0.index then 0
      else load64 s.phys.mem ((s.procs c).trapframe + BitVec.ofNat 64 (8 * k)) := by
  have hk' : k < 35 := hk
  have htf : (s'.procs i).trapframe = (s₂.procs i).trapframe :=
    congrArg AddrSpace.trapframe (h.space.trans h.copying.self.1.symm)
  have hslot : frameSlot (s₂.procs i).trapframe .a0 =
      (s₂.procs i).trapframe + BitVec.ofNat 64 (8 * Reg.a0.index) := rfl
  have hparent : (s.procs c).trapframe = addr ((s.procs c).space.own .trapframe) :=
    hp.aligned.trapframe.symm
  rw [htf, h.finished.phys, hslot, load_dword_store _ _ _ (by decide) (by omega)]
  refine if_congr Iff.rfl rfl ?_
  rw [h.copying.child_trapframe, hparent, load64_word _ _ (by omega), load64_word _ _ (by omega)]
  refine h.copying.context (by omega) _ ?_
  rw [BitVec.toNat_ofNat]
  exact lt_of_le_of_lt (Nat.mod_le _ _) hk

theorem ChildMade.stack (h : ChildMade L s fl c i rs Q a us D s₂ fl₂ s') :
    ∃ e e₀, translate s'.phys.mem (s'.procs i).space.root stackVpn = some e ∧
      translate s.phys.mem (s.procs c).space.root stackVpn = some e₀ ∧ ptePpn e ∈ fl ∧
      s'.phys.mem (ptePpn e) = s.phys.mem (ptePpn e₀) := by
  obtain ⟨q, hq0, hcopy, hsrc⟩ := h.copying.stack (by omega)
  have hne : lookupAnswer s.phys.mem (s.procs c).space.root (USER_STACK_TOP - PGSIZE) ≠ 0 := by
    rw [hsrc]
    exact mt addr_eq_zero.mp hq0
  obtain ⟨w, hw, hans⟩ := (lookupAnswer_cases _ _ _).resolve_left hne
  have hqw : q = ptePpn w := addr_injective (hsrc.symm.trans hans)
  refine ⟨_, w, by rw [h.space, h.leaf]; exact h.copying.stackLeaf, hw, ?_, ?_⟩
  · rw [ptePpn_mkPte _ (by decide), ppn_addr]
    exact h.copying.built.mem_list h.copying.own.1
  · rw [ptePpn_mkPte _ (by decide), ppn_addr, h.mem h.copying.distinct.2.1, hcopy, hqw]

theorem ChildMade.code (h : ChildMade L s fl c i rs Q a us D s₂ fl₂ s') {e : _}
    (he : e ∈ rs) (hseg : e.2.2 = some .CODE) {w₀ : Word} (hva : e.1 < MAXVA)
    (hw₀ : translate s.phys.mem (s.procs c).space.root (vpn e.1) = some w₀)
    (hRW : w₀ &&& PTE_R ≠ 0 ∨ w₀ &&& PTE_W ≠ 0) :
    ∃ w, translate s'.phys.mem (s'.procs i).space.root (vpn e.1) = some w ∧
      Grants w (ptePpn w₀) (PTE_R ||| PTE_X ||| PTE_U) := by
  have hleaf := h.copying.code e (by simpa using he) hseg
  rw [lookupAnswer_readable hva hw₀ hRW] at hleaf
  refine ⟨_, by rw [h.space, h.leaf]; exact hleaf, ?_⟩
  have hgrant := grants_mkPte (addr (ptePpn w₀)) (PROT_EXEC ||| PROT_READ) 1
  rwa [ppn_addr] at hgrant

end Exact

/-- **`do_fork` disturbs nobody.** If the processes in use keep off the free list and the
    regions of process `c` are mapped, a `do_fork` that returns has made a child as
    `ForkExact` says. -/
theorem doFork_exact (hfree : FreeList s.phys fl)
    (hsep : ∀ j, (s.procs j).status ≠ .FREE → Separate s fl j) (hp : ForkParent s fl c rs)
    (hmapped : ∀ e ∈ rs, e.1 < MAXVA ∧ ∃ w,
      translate s.phys.mem (s.procs c).space.root (vpn e.1) = some w ∧
        (w &&& PTE_R ≠ 0 ∨ w &&& PTE_W ≠ 0))
    (hQ : QueueOk s Q) (hrun : doFork L c s = .ret r s') : ∃ i, ForkExact s fl c i rs Q s' := by
  obtain ⟨i, a, us, D, s₂, fl₂, h⟩ := doFork_childMade hfree hp hQ hrun
  refine ⟨i, h.free, ?_, fun k hk => h.trapframe hp hk, h.stack, fun e he hseg => ?_,
    fun j hj => ?_,
    fun j hj v => ?_, fun j hj v e he => ?_, fun j hj k => ?_, h.queue⟩
  · exact (congrArg Process.status h.finished.self :)
  · obtain ⟨hva, w₀, hw₀, hRW⟩ := hmapped e he
    obtain ⟨w, hw, hgrant⟩ := h.code he hseg hva hw₀ hRW
    exact ⟨w, w₀, hw, hw₀, hgrant⟩
  · rw [h.finished.others j hj, h.copying.procs hj]
  · exact translate_congr (fun q hq => h.frame ((hsep j hj).off.tables.apart q hq))
      (Set.mem_singleton _) v
  · exact h.frame ((hsep j hj).off.frames v e he)
  · exact h.frame ((hsep j hj).own k)

theorem doFork_exact_sample : ∃ s fl e r s' i, FreeList s.phys fl ∧
    (∀ j, (s.procs j).status ≠ .FREE → Separate s fl j) ∧ ForkParent s fl 0 [e] ∧
    doFork sampleLayout 0 s = .ret r s' ∧ ForkExact s fl 0 i [e] [] s' := by
  obtain ⟨s, fl, e, r, s', hfree, hsep, hp, -, -, hva, ⟨w, hw, hR⟩, hQ, hrun⟩ :=
    booted_doFork sampleHost_code (Or.inl rfl)
  have hmapped : ∀ e' ∈ [e], e'.1 < MAXVA ∧ ∃ w,
      translate s.phys.mem (s.procs 0).space.root (vpn e'.1) = some w ∧
        (w &&& PTE_R ≠ 0 ∨ w &&& PTE_W ≠ 0) := by
    intro e' he'
    obtain rfl := List.mem_singleton.mp he'
    exact ⟨by rw [hva]; decide, w, hw, Or.inl hR⟩
  obtain ⟨i, hexact⟩ := doFork_exact hfree hsep hp hmapped hQ hrun
  exact ⟨s, fl, e, r, s', i, hfree, hsep, hp, hrun, hexact⟩

/-! ## The regions of the child -/

/-- The first entries of the child's `mapped_info` are the three of `alloc_process`, with its
    own trapframe, and the regions of code and data of its parent. -/
def RegionsKept (L : Layout) (rs : List (Word × BitVec 32 × Option SegType)) (i : Pid)
    (s' : Kernel) : Prop :=
  regionList s'.phys.mem (s'.procs i).space (s'.procs i).totalMappedRegion =
    firstRegions L (s'.procs i).space ++ rs

/-- The child records the regions of code alone. -/
theorem ChildMade.regions {a : AddrSpace} {us : Ppn} {D : Set Ppn} {s₂ : Kernel} {fl₂ : List Ppn}
    (h : ChildMade L s fl c i rs Q a us D s₂ fl₂ s') (hfew : rs.length ≤ 253) :
    regionList s'.phys.mem (s'.procs i).space (s'.procs i).totalMappedRegion =
      firstRegions L (s'.procs i).space ++ codeOnly rs := by
  have htotal : (s'.procs i).totalMappedRegion = (s₂.procs i).totalMappedRegion :=
    (congrArg Process.totalMappedRegion h.finished.self :)
  have hle := h.copying.total
  rw [h.space, htotal, regionList_congr h.copying.aligned (h.mem h.copying.distinct.2.2.symm)
    (by omega), h.copying.regions]
  simp

/-- **Which parents pass their regions on.** After a `do_fork` that returns, the child, which
    is at the end of the queue, has recorded all regions of its parent if and only if none of
    them is data. -/
theorem regionsKept_iff (hfree : FreeList s.phys fl) (hp : ForkParent s fl c rs)
    (hQ : QueueOk s Q) (hrun : doFork L c s = .ret r s') :
    ∃ i, (s.procs i).status = .FREE ∧ QueueOk s' (Q ++ [i]) ∧
      (RegionsKept L rs i s' ↔ ∀ e ∈ rs, e.2.2 ≠ some .DATA) := by
  obtain ⟨i, a, us, D, s₂, fl₂, h⟩ := doFork_childMade hfree hp hQ hrun
  refine ⟨i, h.free, h.queue, ?_⟩
  rw [RegionsKept, h.regions hp.few, List.append_cancel_left_eq, codeOnly, List.filter_eq_self]
  refine forall₂_congr fun e he => ?_
  rcases hp.segs e he with hseg | hseg
  · simp [hseg]
  · simp [hseg]

theorem regionsKept_sample : ∃ s fl e r s' i, FreeList s.phys fl ∧ ForkParent s fl 0 [e] ∧
    doFork sampleLayout 0 s = .ret r s' ∧ QueueOk s' [i] ∧ RegionsKept sampleLayout [e] i s' := by
  obtain ⟨s, fl, e, r, s', hfree, -, hp, hseg, -, -, -, hQ, hrun⟩ :=
    booted_doFork sampleHost_code (Or.inl rfl)
  obtain ⟨i, -, hqueue, hiff⟩ := regionsKept_iff hfree hp hQ hrun
  refine ⟨s, fl, e, r, s', i, hfree, hp, hrun, hqueue, hiff.mpr fun e' he' => ?_⟩
  rw [List.mem_singleton.mp he', hseg]
  simp

/-- The child of a process with one segment of data does not record it. -/
theorem regions_dropped : ∃ s fl e r s' i, FreeList s.phys fl ∧ ForkParent s fl 0 [e] ∧
    doFork sampleLayout 0 s = .ret r s' ∧ QueueOk s' [i] ∧ ¬ RegionsKept sampleLayout [e] i s' := by
  obtain ⟨s, fl, e, r, s', hfree, -, hp, hseg, -, -, -, hQ, hrun⟩ :=
    booted_doFork sampleHost_data (Or.inr rfl)
  obtain ⟨i, a, us, D, s₂, fl₂, h⟩ := doFork_childMade hfree hp hQ hrun
  refine ⟨s, fl, e, r, s', i, hfree, hp, hrun, h.queue, fun hkept => ?_⟩
  rw [RegionsKept, h.regions hp.few, List.append_cancel_left_eq] at hkept
  simp [codeOnly, hseg] at hkept

end Pke
