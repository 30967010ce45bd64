import Pke.Build.Elf

/-!
# The frames that `elf_load` maps for user mode

Which pages of the free list become the pages of the segments depends on how many tables
the page table needs in between. `segmentFrames` computes them from the free list and the
headers alone, and the frames that user mode can reach follow from it: a segment that does
not start at a page boundary also maps the frame behind its own.
-/

namespace Pke

open Lib Radix

variable {L : Layout} {s s' s'' : Kernel} {s₀ : Phys} {fl₀ fl fl' : List Ppn} {i : Pid} {p pt : Ppn}
  {D : Set Ppn} {f : HostFile} {h : ElfProgHeader} {M : List Vpn}

/-! ## Counting tables -/

/-- The page table `r` has the tables for the pages `M` and no others. -/
def Tight (m : Mem) (r : Ppn) (M : List Vpn) : Prop :=
  ∀ π : List Idx, π.length ≤ 2 → (nodeAt ptePage m r π ≠ none ↔ π = [] ∨ ∃ v ∈ M, π <+: vpath 2 v)

/-- How many tables the pages `V, …, V + n - 1` need besides those for the pages `M`. -/
def tableCount (M : List Vpn) (V n : ℕ) : ℕ :=
  ((tablePaths V n).filter fun π => π ≠ [] ∧ ∀ v ∈ M, ¬ π <+: vpath 2 v).card

theorem Tight.tablesNeeded_eq {m : Mem} (h : Tight m pt M) (V n : ℕ) :
    tablesNeeded m pt V n = tableCount M V n := by
  unfold tablesNeeded missing tableCount
  congr 1
  refine Finset.filter_congr fun π hπ => ?_
  have hiff := h π (tablePaths_length hπ)
  rw [ne_eq] at hiff
  rw [Option.isNone_iff_eq_none, ← not_not (a := nodeAt ptePage m pt π = none), hiff, not_or]
  simp only [not_exists, not_and, ne_eq]

/-- The pages of a header, in order. -/
def ElfProgHeader.pageList (h : ElfProgHeader) : List Vpn :=
  (List.range (mapCount h.vaddr)).map fun k => vpnOf (h.vaddr.toNat / 4096 + k)

theorem PageBuilt.tight {ph ph' : Phys} (hp : PageBuilt s₀ fl₀ pt D h.vaddr elfPerm ph fl p ph' fl')
    (hM : Tight ph.mem pt M) : Tight ph'.mem pt (M ++ h.pageList) := by
  obtain ⟨fl₁, -, hcount⟩ := hp.list
  intro π hπ
  by_cases hin : π ∈ tablePaths (h.vaddr.toNat / 4096) (mapCount h.vaddr)
  · obtain ⟨k, hk, hpre⟩ := mem_tablePaths.mp hin
    have hnode : nodeAt ptePage ph'.mem pt π ≠ none := by
      refine nodeAt_of_leaf ?_ hpre
      rw [hp.mapped hk]
      exact Option.some_ne_none _
    refine iff_of_true hnode (Or.inr ⟨_, List.mem_append_right _ ?_, hpre⟩)
    exact List.mem_map.mpr ⟨k, List.mem_range.mpr hk, rfl⟩
  · rw [ne_eq, nodeAt_of_count hcount hπ hin, ← ne_eq, hM π hπ]
    refine or_congr_right ⟨?_, ?_⟩
    · rintro ⟨v, hv, hpre⟩
      exact ⟨v, List.mem_append_left _ hv, hpre⟩
    · rintro ⟨v, hv, hpre⟩
      rcases List.mem_append.mp hv with hv | hv
      · exact ⟨v, hv, hpre⟩
      · obtain ⟨k, hk, rfl⟩ := List.mem_map.mp hv
        exact absurd (mem_tablePaths.mpr ⟨k, List.mem_range.mp hk, hpre⟩) hin

/-- The free list after a page was taken and its tables. -/
theorem PageBuilt.rest_eq {ph ph' : Phys} (hb : Built s₀ fl₀ pt D ph fl)
    (hp : PageBuilt s₀ fl₀ pt D h.vaddr elfPerm ph fl p ph' fl') (hM : Tight ph.mem pt M) :
    ∃ fl₁, fl = p :: fl₁ ∧
      fl' = fl₁.drop (tableCount M (h.vaddr.toNat / 4096) (mapCount h.vaddr)) := by
  obtain ⟨fl₁, rfl, hsuf⟩ := hp.suffix hb
  refine ⟨fl₁, rfl, ?_⟩
  obtain ⟨fl₂, hfl, hcount⟩ := hp.list
  obtain rfl : fl₁ = fl₂ := (List.cons.inj hfl).2
  have h1 := hcount _ (fun π => tablePaths_length) subset_rfl
  have h2 := hM.tablesNeeded_eq (h.vaddr.toNat / 4096) (mapCount h.vaddr)
  rw [hp.missing_eq_zero] at h1
  unfold tablesNeeded at h2
  rw [List.suffix_iff_eq_drop.mp hsuf]
  congr 1
  omega

/-! ## Recording a header behind the table

`elf_load` writes the header after the 253rd behind the region table. In a process made
from the free list of the boot, the page there is that of its user stack. -/

theorem freeRegion_le (m : Mem) (mi : Word) : freeRegion m mi ≤ 256 := by
  unfold freeRegion
  cases hfind : (List.range 256).find? fun j => load64 m (regionAddr mi j) = 0 with
  | none => exact le_rfl
  | some j =>
    have := List.mem_range.mp (List.mem_of_find?_eq_some hfind)
    rw [Option.getD_some]
    omega

theorem ppn_addr_next (p : Ppn) {o : Word} (ho : o.toNat < 4096) :
    ppn (addr p + PGSIZE + o) = p + 1 := by
  apply BitVec.eq_of_toNat_eq
  have hp := p.isLt
  rw [ppn_toNat, BitVec.toNat_add, BitVec.toNat_add, addr_toNat, BitVec.toNat_add,
    show PGSIZE.toNat = 4096 from rfl, show (1 : Ppn).toNat = 1 from rfl]
  omega

/-- A write to the region table or to the entry behind it. -/
theorem recordRegion_near {a : AddrSpace} (ha : a.Aligned) {m : Mem} {j : ℕ} (hj : j ≤ 256)
    {va : Word} {npages : BitVec 32} {seg : SegType} {q : Ppn} (hq : q ≠ a.own .info)
    (hq' : q ≠ a.own .info + 1) : recordRegion m a j va npages seg q = m q := by
  rcases Nat.lt_or_ge j 256 with hlt | hge
  · exact recordRegion_of_ne ha hlt hq
  · obtain rfl : j = 256 := by omega
    have haddr : regionAddr a.mappedInfo 256 = addr (a.own .info) + PGSIZE := by
      rw [regionAddr, ha.info]
      rfl
    have h0 : ppn (regionAddr a.mappedInfo 256) = a.own .info + 1 := by
      rw [haddr, ← ppn_addr_next (a.own .info) (o := 0#64) (by decide), BitVec.add_zero]
    have h8 : ppn (regionAddr a.mappedInfo 256 + 8) = a.own .info + 1 := by
      rw [haddr, ppn_addr_next (a.own .info) (by decide)]
    rw [recordRegion, store64_of_ne (by rwa [h8]), store64_of_ne (by rwa [h0])]

/-- The process stays in order whichever entry is written. -/
theorem InLoad.record_any {a : AddrSpace} (hl : InLoad s₀ fl₀ i a D s fl)
    (hnext : a.own .info + 1 ∈ D) {s₁ s₂ : Kernel}
    (hs : SegmentStep s₀ fl₀ i a D h s fl p s₁ s₂ fl') :
    InLoad s₀ fl₀ i a (insert p D) s₂ fl' ∧
      ∀ q, q ≠ a.own .info → q ≠ a.own .info + 1 → s₂.phys.mem q = s₁.phys.mem q := by
  have hne : ∀ seg q, q ≠ a.own .info → q ≠ a.own .info + 1 → recordRegion s₁.phys.mem a
      (freeRegion s₁.phys.mem a.mappedInfo) h.vaddr 1 seg q = s₁.phys.mem q := fun seg q hq hq' =>
    recordRegion_near hl.aligned (freeRegion_le _ _) hq hq'
  obtain ⟨hl₂, seg, -, hmem⟩ := hl.record_of hs fun seg q hq => hne seg q
    (by rintro rfl; exact hq (Set.mem_insert_of_mem _ hl.info))
    (by rintro rfl; exact hq (Set.mem_insert_of_mem _ hnext))
  exact ⟨hl₂, fun q hq hq' => by rw [hmem, hne seg q hq hq']⟩

/-- The pages of the process but for the region table and the one behind it are as before. -/
theorem LoadRun.keeps {a : AddrSpace} {hs : List ElfProgHeader} (hrun : LoadRun f i hs s s') :
    ∀ {D : Set Ppn} {fl : List Ppn}, InLoad s₀ fl₀ i a D s fl → a.own .info + 1 ∈ D →
      ∀ q ∈ D, q ≠ a.own .info → q ≠ a.own .info + 1 → s'.phys.mem q = s.phys.mem q := by
  induction hrun with
  | nil s => exact fun _ _ q _ _ _ => rfl
  | @cons h hs s s₁ s₂ s' sizes page record rest ih =>
    intro D fl hl hnext q hq hinfo hbehind
    obtain ⟨p, fl₂, hstep⟩ := hl.step page record
    obtain ⟨hl₂, hkeep⟩ := hl.record_any hnext hstep
    calc s'.phys.mem q = s₂.phys.mem q :=
          ih hl₂ (Set.mem_insert_of_mem _ hnext) q (Set.mem_insert_of_mem _ hq) hinfo hbehind
      _ = s₁.phys.mem q := hkeep q hinfo hbehind
      _ = s.phys.mem q := hstep.page.data q hq

/-! ## The frames -/

/-- The pages of the free list that become the pages of the segments, when the page table
    has the tables for the pages `M`. -/
def segmentFrames : List Vpn → List Ppn → List ElfProgHeader → List Ppn
  | _, _, [] => []
  | _, [], _ => []
  | M, p :: fl, h :: hs => p :: segmentFrames (M ++ h.pageList)
      (fl.drop (tableCount M (h.vaddr.toNat / 4096) (mapCount h.vaddr))) hs

/-- The entries that the segments have in the page table. -/
def SegmentLeaf (hs : List ElfProgHeader) (fs : List Ppn) (v : Vpn) (e : Word) : Prop :=
  ∃ h p k, (h, p) ∈ hs.zip fs ∧ k < mapCount h.vaddr ∧
    v = vpnOf (h.vaddr.toNat / 4096 + k) ∧ e = mkPte (addr p + vaddr k) elfPerm

/-- The addresses that `elf_alloc_mb` returns for the headers, from the state `s` on. -/
def segmentDests (f : HostFile) (i : Pid) : List ElfProgHeader → Kernel → List Word
  | [], _ => []
  | h :: hs, s =>
    match elfAllocMb (s.procs i).pagetable h.vaddr h.memsz s.phys with
    | .ret dest _ =>
      dest :: match loadPage f i h s with
        | .ret _ s₁ =>
          match recordSegment i h s₁ with
          | .ret _ s₂ => segmentDests f i hs s₂
          | _ => []
        | _ => []
    | _ => []

theorem segmentLeaf_cons {hs : List ElfProgHeader} {fs : List Ppn} {v : Vpn} {e : Word} :
    SegmentLeaf (h :: hs) (p :: fs) v e ↔
      (∃ k < mapCount h.vaddr, v = vpnOf (h.vaddr.toNat / 4096 + k) ∧
        e = mkPte (addr p + vaddr k) elfPerm) ∨ SegmentLeaf hs fs v e := by
  constructor
  · rintro ⟨h', p', k, hmem, hk, hv, he⟩
    rw [List.zip_cons_cons, List.mem_cons, Prod.mk.injEq] at hmem
    rcases hmem with ⟨rfl, rfl⟩ | hmem
    · exact Or.inl ⟨k, hk, hv, he⟩
    · exact Or.inr ⟨h', p', k, hmem, hk, hv, he⟩
  · rintro (⟨k, hk, hv, he⟩ | ⟨h', p', k, hmem, hk, hv, he⟩)
    · exact ⟨h, p, k, List.mem_cons_self, hk, hv, he⟩
    · exact ⟨h', p', k, List.mem_cons_of_mem _ hmem, hk, hv, he⟩

/-- `elf_alloc_mb` returned the page that was taken. -/
theorem elfAllocMb_dest {a : AddrSpace} (hl : InLoad s₀ fl₀ i a D s fl) {got : Word} {s₁ : Kernel}
    (hpage : loadPage f i h s = .ret got s₁) {fl₁ : List Ppn} (hfl : fl = p :: fl₁) :
    ∃ ph, elfAllocMb (s.procs i).pagetable h.vaddr h.memsz s.phys = .ret (addr p) ph := by
  have hpt : (s.procs i).pagetable = addr a.root :=
    (congrArg AddrSpace.pagetable hl.space).trans hl.aligned.pagetable.symm
  obtain ⟨q, s₂, hproc, hpage⟩ := Prog.bind_eq_ret.mp hpage
  obtain ⟨rfl, rfl⟩ : s.procs i = q ∧ s = s₂ := by simpa [proc] using hproc
  obtain ⟨dest, s₃, halloc, -⟩ := Prog.bind_eq_ret.mp hpage
  obtain ⟨ph, halloc, -⟩ := Prog.zoom_eq_ret.mp halloc
  rw [hpt] at halloc ⊢
  obtain ⟨p', fl', hdest, -, hp, -⟩ := Prog.wp_ret (elfAllocMb_built hl.built) halloc
  obtain ⟨fl₂, hfl₂, -⟩ := hp.list
  rw [hfl, List.cons.injEq] at hfl₂
  exact ⟨ph, by rw [halloc, hdest, hfl₂.1]⟩

/-- The page that was taken holds the segment. -/
theorem loadPage_holds {a : AddrSpace} (hl : InLoad s₀ fl₀ i a D s fl) {s₁ : Kernel}
    (hpage : loadPage f i h s = .ret h.memsz s₁) {fl₁ : List Ppn} (hfl : fl = p :: fl₁) :
    HoldsSegment f h p s₁.phys.mem := by
  have hpt : (s.procs i).pagetable = addr a.root :=
    (congrArg AddrSpace.pagetable hl.space).trans hl.aligned.pagetable.symm
  obtain ⟨-, -, p', fl', hp, hholds⟩ := Prog.wp_ret (loadPage_built hl.built hpt) hpage
  obtain ⟨fl₂, hfl₂, -⟩ := hp.list
  rw [hfl, List.cons.injEq] at hfl₂
  rw [hfl₂.1]
  exact hholds rfl

theorem HoldsSegment.congr {m m' : Mem} (hm : HoldsSegment f h p m) (hp : m' p = m p) :
    HoldsSegment f h p m' := by
  intro y hy
  have ho : (BitVec.ofNat 64 y).toNat < 4096 := by
    rw [BitVec.toNat_ofNat]
    omega
  rw [← hm y hy, load8, load8, load64, load64, ppn_addr_add p ho, hp]

/-- What a run of `elf_load` maps: the pages of the segments come from the free list as
    `segmentFrames` says, and the entries are those of the segments. -/
theorem LoadRun.frames {a : AddrSpace} {hs : List ElfProgHeader} (hrun : LoadRun f i hs s s') :
    ∀ {D : Set Ppn} {fl : List Ppn} {M : List Vpn}, InLoad s₀ fl₀ i a D s fl →
      a.own .info + 1 ∈ D → Tight s.phys.mem a.root M →
      ∃ fl', InLoad s₀ fl₀ i a (D ∪ {p | p ∈ segmentFrames M fl hs}) s' fl' ∧
        (segmentFrames M fl hs).length = hs.length ∧
        segmentDests f i hs s = (segmentFrames M fl hs).map addr ∧
        (∀ h p, (h, p) ∈ hs.zip (segmentFrames M fl hs) → HoldsSegment f h p s'.phys.mem ∧
          (mapCount h.vaddr = 0 ∨ h.vaddr.toNat + 4096 ≤ 2 ^ 38)) ∧
        ∀ v e, translate s'.phys.mem a.root v = some e ↔
          translate s.phys.mem a.root v = some e ∨ SegmentLeaf hs (segmentFrames M fl hs) v e := by
  induction hrun with
  | nil s =>
    intro D fl M hl _ _
    refine ⟨fl, ?_, by simp [segmentFrames], by cases fl <;> rfl, fun h p hmem => ?_, fun v e => ?_⟩
    · simpa [segmentFrames] using hl
    · simp at hmem
    · refine ⟨Or.inl, fun hve => hve.resolve_right ?_⟩
      rintro ⟨h, p, k, hmem, -⟩
      simp at hmem
  | @cons h hs s s₁ s₂ s' sizes page record rest ih =>
    intro D fl M hl hnext hM
    obtain ⟨p, fl₂, hstep⟩ := hl.step page record
    obtain ⟨hl₂, hkeep⟩ := hl.record_any hnext hstep
    obtain ⟨fl₁, rfl, hfl₂⟩ := hstep.page.rest_eq hl.built hM
    have htight₁ := hstep.page.tight hM
    -- recording the header touches no table
    have htab : ∀ q ∈ tablePages s₁.phys.mem {a.root}, s₂.phys.mem q = s₁.phys.mem q := by
      intro q hq
      refine hkeep q ?_ ?_
      · rintro rfl
        exact hstep.page.built.apart _ (Set.mem_insert_of_mem _ hl.info) hq
      · rintro rfl
        exact hstep.page.built.apart _ (Set.mem_insert_of_mem _ hnext) hq
    have hsame : ∀ v, translate s₂.phys.mem a.root v = translate s₁.phys.mem a.root v := fun v =>
      translate_congr htab (Set.mem_singleton a.root) v
    have htight₂ : Tight s₂.phys.mem a.root (M ++ h.pageList) := fun π hπ => by
      rw [nodeAt_congr (Set.mem_singleton a.root) htab π (by omega)]
      exact htight₁ π hπ
    obtain ⟨fl', hl', hlen, hdests, hholds, hleaf⟩ :=
      ih hl₂ (Set.mem_insert_of_mem _ hnext) htight₂
    have hframes : segmentFrames M (p :: fl₁) (h :: hs) =
        p :: segmentFrames (M ++ h.pageList) fl₂ hs := by rw [segmentFrames, hfl₂]
    obtain ⟨ph, hdest⟩ := elfAllocMb_dest hl page rfl
    rw [hframes]
    refine ⟨fl', ?_, by rw [List.length_cons, hlen, List.length_cons], ?_, fun h' p' hmem => ?_,
      fun v e => ?_⟩
    · have hset : D ∪ {q | q ∈ p :: segmentFrames (M ++ h.pageList) fl₂ hs} =
          insert p D ∪ {q | q ∈ segmentFrames (M ++ h.pageList) fl₂ hs} := by
        ext q
        simp only [Set.mem_union, Set.mem_ofPred_eq, List.mem_cons, Set.mem_insert_iff]
        rw [or_assoc, or_left_comm]
      rw [hset]
      exact hl'
    · rw [segmentDests, hdest]
      dsimp only
      rw [page]
      dsimp only
      rw [record]
      dsimp only
      rw [hdests, List.map_cons]
    · rw [List.zip_cons_cons, List.mem_cons, Prod.mk.injEq] at hmem
      rcases hmem with ⟨rfl, rfl⟩ | hmem
      · -- the page is none of those that are written afterwards
        have hpD : p' ∉ D := fun hD => hl.built.not_free hD List.mem_cons_self
        have hinfo : p' ≠ a.own .info := fun heq => hpD (heq ▸ hl.info)
        have hbehind : p' ≠ a.own .info + 1 := fun heq => hpD (heq ▸ hnext)
        refine ⟨(loadPage_holds hl page rfl).congr ?_, hstep.page.low⟩
        rw [rest.keeps hl₂ (Set.mem_insert_of_mem _ hnext) p' (Set.mem_insert _ _) hinfo hbehind]
        exact hkeep p' hinfo hbehind
      · exact hholds h' p' hmem
    · rw [hleaf, hsame, hstep.page.leaf_iff, segmentLeaf_cons, or_assoc]

/-! ## The frames that user mode reaches -/

/-- The pages that `alloc_process` maps. -/
def initialPages (L : Layout) (tf : Word) : List Vpn := [stackVpn, vpn tf, vpn L.trapSecStart]

theorem initialLeaf_ne_none {a : AddrSpace} {us : Ppn} {v : Vpn} :
    initialLeaf L a us v ≠ none ↔ v ∈ initialPages L a.trapframe := by
  unfold initialLeaf initialPages
  split_ifs <;> simp [*]

section Made

variable {tf ks us mi : Ppn} {s₁ : Kernel}

theorem Made.tight (h : Made L s₁ fl₀ i tf pt ks us mi s fl) :
    Tight s.phys.mem pt (initialPages L (addr tf)) := by
  have hiff : ∀ v, translate s.phys.mem pt v ≠ none ↔ v ∈ initialPages L (addr tf) := fun v => by
    rw [h.filling.leaf]
    exact initialLeaf_ne_none
  intro π hπ
  constructor
  · intro hnode
    by_cases hne : π = []
    · exact Or.inl hne
    · obtain ⟨v, hv, hpre⟩ := h.filling.full π hπ hne hnode
      exact Or.inr ⟨v, (hiff v).mp hv, hpre⟩
  · rintro (rfl | ⟨v, hv, hpre⟩)
    · simp
    · exact nodeAt_of_leaf ((hiff v).mpr hv) hpre

/-- At boot the page behind the region table is that of the user stack. -/
theorem Made.next_info {P : Ppn} {n : ℕ} (h : Made L s₁ (pagesDown P n) i tf pt ks us mi s fl) :
    mi + 1 = us := by
  obtain ⟨rest, hlist⟩ := h.list
  obtain ⟨k, rfl⟩ : ∃ k, n = k + 5 := by
    have := congrArg List.length hlist
    rw [pagesDown_length] at this
    simp only [List.length_cons] at this
    exact ⟨n - 5, by omega⟩
  simp only [pagesDown, List.cons.injEq] at hlist
  obtain ⟨-, -, -, rfl, rfl, -⟩ := hlist
  rw [BitVec.add_assoc]
  congr 1
  apply BitVec.eq_of_toNat_eq
  rw [BitVec.toNat_add, BitVec.toNat_ofNat, BitVec.toNat_ofNat, show (1 : Ppn).toNat = 1 from rfl]
  omega

end Made

/-- Every entry for user mode points to the frame of the user stack or to one that
    `elf_alloc_mb` got for a segment; so it points to no page table, to none of the pages
    the kernel keeps for the process, to no free page and to no page of the kernel, which
    were not free when the process was made. -/
structure UserFramesOk (f : HostFile) (i : Pid) (fl₀ : List Ppn) (s s' : Kernel) : Prop where
  frames : ∀ v e, translate s'.phys.mem (s'.procs i).space.root v = some e → e &&& PTE_U ≠ 0 →
    (∃ e₀, translate s.phys.mem (s.procs i).space.root stackVpn = some e₀ ∧
      e₀ &&& PTE_U ≠ 0 ∧ ptePpn e = ptePpn e₀) ∨
      addr (ptePpn e) ∈ segmentDests f i f.loads s
  apart : ∀ v e, translate s'.phys.mem (s'.procs i).space.root v = some e → e &&& PTE_U ≠ 0 →
    ptePpn e ∉ tablePages s'.phys.mem {(s'.procs i).space.root} ∧
      (∀ k, ptePpn e ≠ (s'.procs i).space.own k) ∧ ptePpn e ∈ fl₀ ∧
      ∀ fl', FreeList s'.phys fl' → ptePpn e ∉ fl'

/-- Each segment that is not at a page boundary follows one that needed no new table; the
    page table has the tables for the pages `M`, and `prev` says whether the last page that
    was taken is that of a segment. -/
def SegmentsFollow : List Vpn → Prop → List ElfProgHeader → Prop
  | _, _, [] => True
  | M, prev, h :: hs => (mapCount h.vaddr = 2 → prev) ∧
      SegmentsFollow (M ++ h.pageList)
        (tableCount M (h.vaddr.toNat / 4096) (mapCount h.vaddr) = 0) hs

theorem pagesDown_drop (P : Ppn) (n k : ℕ) : (pagesDown P n).drop k = pagesDown P (n - k) := by
  induction n generalizing k with
  | zero => simp [pagesDown]
  | succ n ih =>
    cases k with
    | zero => rfl
    | succ k =>
      rw [pagesDown, List.drop_succ_cons, ih]
      congr 1
      omega

theorem segmentFrames_subset : ∀ (hs : List ElfProgHeader) (M : List Vpn) (fl : List Ppn),
    ∀ q ∈ segmentFrames M fl hs, q ∈ fl := by
  intro hs
  induction hs with
  | nil => simp [segmentFrames]
  | cons h hs ih =>
    intro M fl q hq
    cases fl with
    | nil => simp [segmentFrames] at hq
    | cons p fl =>
      rw [segmentFrames] at hq
      rcases List.mem_cons.mp hq with rfl | hq
      · exact List.mem_cons_self
      · exact List.mem_cons_of_mem _ (List.mem_of_mem_drop (ih _ _ q hq))

/-- The frame behind the page of each segment that is not at a page boundary is one of `E`
    or the page of a segment. -/
def SegmentsContained (E : Set Ppn) (hs : List ElfProgHeader) (fs : List Ppn) : Prop :=
  ∀ h p, (h, p) ∈ hs.zip fs → mapCount h.vaddr = 2 → p + 1 ∈ E ∨ p + 1 ∈ fs

theorem segmentsContained_cons {E : Set Ppn} {hs : List ElfProgHeader} {fs : List Ppn} :
    SegmentsContained E (h :: hs) (p :: fs) ↔
      (mapCount h.vaddr = 2 → p + 1 ∈ E ∨ p + 1 ∈ p :: fs) ∧
        SegmentsContained (insert p E) hs fs := by
  constructor
  · refine fun hc => ⟨hc h p List.mem_cons_self, fun h' p' hmem hcount => ?_⟩
    rcases hc h' p' (List.mem_cons_of_mem _ hmem) hcount with hE | hfs
    · exact Or.inl (Set.mem_insert_of_mem _ hE)
    · exact (List.mem_cons.mp hfs).imp (fun he => by rw [he]; exact Set.mem_insert _ _) id
  · rintro ⟨hfirst, hrest⟩ h' p' hmem hcount
    rw [List.zip_cons_cons, List.mem_cons, Prod.mk.injEq] at hmem
    rcases hmem with ⟨rfl, rfl⟩ | hmem
    · exact hfirst hcount
    · rcases hrest h' p' hmem hcount with (hp | hE) | hfs
      · exact Or.inr (by rw [hp]; exact List.mem_cons_self)
      · exact Or.inl hE
      · exact Or.inr (List.mem_cons_of_mem _ hfs)

/-- On the free list of the boot, whose pages are handed out downwards, the frame behind the
    page of a segment is the page taken last before it. -/
theorem segmentsContained_iff {P : Ppn} : ∀ (hs : List ElfProgHeader) (M : List Vpn) (m : ℕ)
    (E : Set Ppn) (prev : Prop), P.toNat + m < 2 ^ 52 →
      (segmentFrames M (pagesDown P m) hs).length = hs.length →
      (∀ q ∈ E, P.toNat + m ≤ q.toNat) →
      (0 < m → ((∃ q ∈ E, q.toNat = P.toNat + m) ↔ prev)) →
      (SegmentsContained E hs (segmentFrames M (pagesDown P m) hs) ↔ SegmentsFollow M prev hs) := by
  intro hs
  induction hs with
  | nil =>
    intro M m E prev _ _ _ _
    exact iff_of_true (fun h p hmem => by simp at hmem) trivial
  | cons h hs ih =>
    intro M m E prev hm hlen hE hprev
    cases m with
    | zero => simp [pagesDown, segmentFrames] at hlen
    | succ m =>
      have hp : (P + BitVec.ofNat 52 m).toNat = P.toNat + m := by
        rw [BitVec.toNat_add, BitVec.toNat_ofNat]
        omega
      have hp1 : (P + BitVec.ofNat 52 m + 1).toNat = P.toNat + (m + 1) := by
        rw [BitVec.toNat_add, hp, show (1 : Ppn).toNat = 1 from rfl]
        omega
      rw [pagesDown, segmentFrames, List.length_cons, List.length_cons] at hlen
      rw [pagesDown, segmentFrames, segmentsContained_cons, SegmentsFollow]
      have hbelow : ∀ q ∈ segmentFrames (M ++ h.pageList) ((pagesDown P m).drop
          (tableCount M (h.vaddr.toNat / 4096) (mapCount h.vaddr))) hs,
          q.toNat < P.toNat + m := fun q hq =>
        ((mem_pagesDown (by omega)).mp (List.mem_of_mem_drop (segmentFrames_subset _ _ _ q hq))).2
      rw [pagesDown_drop] at hlen hbelow ⊢
      refine and_congr (imp_congr_right fun _ => ?_) (ih _ _ _ _ (by omega) (by omega) ?_ ?_)
      · rw [← hprev m.succ_pos]
        constructor
        · rintro (hE' | hfs)
          · exact ⟨_, hE', hp1⟩
          · rcases List.mem_cons.mp hfs with heq | hfs
            · have := congrArg BitVec.toNat heq
              omega
            · have := hbelow _ hfs
              omega
        · rintro ⟨q, hq, hqN⟩
          obtain rfl : q = P + BitVec.ofNat 52 m + 1 := BitVec.eq_of_toNat_eq (hqN.trans hp1.symm)
          exact Or.inl hq
      · rintro q (rfl | hq)
        · rw [hp]
          omega
        · have := hE q hq
          omega
      · intro hpos
        constructor
        · rintro ⟨q, rfl | hq, hqN⟩
          · omega
          · have := hE q hq
            omega
        · intro h0
          exact ⟨_, Set.mem_insert _ _, by rw [hp, h0]; omega⟩

section Frames

variable {P : Ppn} {n : ℕ} {s₀ : Kernel} {tf pt ks us mi : Ppn}

/-- A list of consecutive pages does not go beyond the last page. -/
theorem FreeList.pages_le {ph : Phys} (h : FreeList ph (pagesDown P n)) (hn : 0 < n) :
    P.toNat + n ≤ 2 ^ 52 := by
  by_contra hle
  have hP := P.isLt
  -- page 0 would be on the list
  have hdrop := pagesDown_drop P n (n - (2 ^ 52 - P.toNat) - 1)
  rw [show n - (n - (2 ^ 52 - P.toNat) - 1) = 2 ^ 52 - P.toNat + 1 by omega] at hdrop
  have hzero : P + BitVec.ofNat 52 (2 ^ 52 - P.toNat) = 0 := by
    apply BitVec.eq_of_toNat_eq
    rw [BitVec.toNat_add, BitVec.toNat_ofNat, show (0 : Ppn).toNat = 0 from rfl]
    omega
  refine h.ne_zero (List.mem_of_mem_drop (i := n - (2 ^ 52 - P.toNat) - 1) ?_) hzero
  rw [hdrop, pagesDown]
  exact List.mem_cons_self

theorem Made.rest_eq (h : Made L s₀ (pagesDown P n) i tf pt ks us mi s fl) :
    ∃ m, fl = pagesDown P m ∧ P.toNat + m < 2 ^ 52 := by
  have hbuilt := h.filling.built
  obtain ⟨rest, hlist⟩ := h.list
  have hlen := congrArg List.length hlist
  simp only [pagesDown_length, List.length_cons] at hlen
  have hle := hbuilt.free.pages_le (by omega)
  obtain ⟨tabs, htabs, -⟩ := h.tables
  refine ⟨n - (5 + tabs.length), ?_, by omega⟩
  rw [← pagesDown_drop, htabs, ← List.drop_drop]
  exact List.drop_left.symm

/-- The only entry for user mode that `alloc_process` makes is the one of the user stack. -/
theorem Made.user_leaf (h : Made L s₀ fl₀ i tf pt ks us mi s fl)
    (hv : translate s.phys.mem pt v = some e) (hU : e &&& PTE_U ≠ 0) :
    v = stackVpn ∧ ptePpn e = us := by
  rw [h.filling.leaf] at hv
  unfold initialLeaf at hv
  split_ifs at hv with h1 h2 h3
  all_goals obtain rfl := Option.some.inj hv
  · exact absurd (mkPte_and_flag _ _ (by decide)) hU
  · exact absurd (mkPte_and_flag _ _ (by decide)) hU
  · exact ⟨h3, by rw [ptePpn_mkPte _ (by decide), ppn_addr]⟩

theorem ptePpn_segment (p : Ppn) {k : ℕ} (hk : k < 2) :
    ptePpn (mkPte (addr p + vaddr k) elfPerm) = if k = 0 then p else p + 1 := by
  rw [ptePpn_mkPte _ (by decide)]
  interval_cases k
  · rw [if_pos rfl, show vaddr 0 = 0#64 from rfl, BitVec.add_zero, ppn_addr]
  · have := ppn_addr_next p (o := 0#64) (by decide)
    rwa [BitVec.add_zero] at this

theorem Made.not_free {q : Ppn} (h : Made L s₀ fl₀ i tf pt ks us mi s fl)
    (hq : q ∈ [tf, ks, us, mi]) : q ∉ fl :=
  h.filling.built.not_free (by simpa using hq)

theorem Made.stack_ne (h : Made L s₀ fl₀ i tf pt ks us mi s fl) : us ∉ [tf, ks, mi] := by
  obtain ⟨rest, hlist⟩ := h.list
  have hnodup := h.filling.built.free.nodup
  rw [hlist] at hnodup
  simp only [List.nodup_cons, List.mem_cons, not_or] at hnodup
  obtain ⟨⟨-, -, htf, -⟩, -, ⟨hks, -⟩, ⟨hmi, -⟩, -⟩ := hnodup
  simp [Ne.symm htf, Ne.symm hks, hmi]

/-- The entries for user mode point to the user stack and to pages of segments if and only
    if the frames behind those of the segments do. -/
theorem Made.userFrames (h : Made L s₀ fl₀ i tf pt ks us mi s fl) (hnext : mi + 1 = us)
    (hrun : LoadRun f i f.loads s s') :
    (segmentFrames (initialPages L (addr tf)) fl f.loads).length = f.loads.length ∧
    (UserFramesOk f i fl₀ s s' ↔
      SegmentsContained ∅ f.loads (segmentFrames (initialPages L (addr tf)) fl f.loads)) := by
  have hroot : (withPages (s₀.procs i) tf pt ks mi).space.root = pt := withPages_root _ _ _ _ _
  obtain ⟨fl', hl', hlen, hdests, -, hleaf⟩ := hrun.frames h.inLoad
    (by rw [withPages_own, hnext]; simp) (by rw [hroot]; exact h.tight)
  rw [hroot] at hleaf
  have hspace : (s'.procs i).space = (s.procs i).space := hl'.space.trans h.space.symm
  have hroots : (s.procs i).space.root = pt := by rw [h.space]; exact hroot
  have hfree : ∀ q ∈ segmentFrames (initialPages L (addr tf)) fl f.loads, q ∈ fl :=
    segmentFrames_subset _ _ _
  generalize segmentFrames (initialPages L (addr tf)) fl f.loads = fs at *
  refine ⟨hlen, fun hok hd p hmem hcount => ?_, fun hc => ?_⟩
  · -- the entry behind that of the segment
    have hve := (hleaf _ _).mpr (Or.inr ⟨hd, p, 1, hmem, by omega, rfl, rfl⟩)
    have hframe := hok.frames _ _ (by rw [hspace, hroots]; exact hve)
      (by rw [mkPte_and_flag _ _ (by decide)]; decide)
    rw [ptePpn_segment p one_lt_two, if_neg one_ne_zero, hdests, hroots] at hframe
    rcases hframe with ⟨e₀, he₀, hU₀, heq⟩ | hdest
    · rw [(h.user_leaf he₀ hU₀).2, ← hnext] at heq
      have hpmi : p = mi := (BitVec.add_left_inj 1).mp heq
      exact absurd (hfree p (List.of_mem_zip hmem).2) (hpmi ▸ h.not_free (by simp))
    · obtain ⟨q, hq, hqp⟩ := List.mem_map.mp hdest
      exact Or.inr (addr_injective hqp ▸ hq)
  · have hframe : ∀ v e, translate s'.phys.mem pt v = some e → e &&& PTE_U ≠ 0 →
        translate s.phys.mem pt v = some e ∨ ptePpn e ∈ fs := by
      intro v e hve hU
      rcases (hleaf v e).mp hve with hold | ⟨hd, p, k, hmem, hk, -, rfl⟩
      · exact Or.inl hold
      · have hk2 : k < 2 := hk.trans_le (mapCount_le _)
        rw [ptePpn_segment p hk2]
        split_ifs with h0
        · exact Or.inr (List.of_mem_zip hmem).2
        · exact Or.inr ((hc hd p hmem (by have := mapCount_le hd.vaddr; omega)).resolve_left id)
    refine ⟨fun v e hve hU => ?_, fun v e hve hU => ?_⟩
    all_goals rw [hspace, hroots] at hve
    · rw [hdests, hroots]
      rcases hframe v e hve hU with hold | hfs
      · exact Or.inl ⟨e, (h.user_leaf hold hU).1 ▸ hold, hU, rfl⟩
      · exact Or.inr (List.mem_map_of_mem hfs)
    · have hq : ptePpn e = us ∨ ptePpn e ∈ fs :=
        (hframe v e hve hU).imp_left fun hold => (h.user_leaf hold hU).2
      have hD : ptePpn e ∈ ({tf, ks, us, mi} ∪ {p | p ∈ fs} : Set Ppn) :=
        hq.imp (fun heq => by simp [heq]) id
      have hbuilt := hl'.built
      rw [hroot] at hbuilt
      rw [hspace, hroots]
      refine ⟨hbuilt.apart _ hD, fun k hk => ?_, hbuilt.mem_list hD, fun fl₂ hfl₂ => ?_⟩
      · have hown : (s.procs i).space.own k ∈ [tf, ks, mi] := by
          rw [h.space]
          change (withPages (s₀.procs i) tf pt ks mi).space.own k ∈ _
          rw [withPages_own]
          cases k <;> simp
        rw [← hk] at hown
        rcases hq with heq | hfs
        · rw [heq] at hown
          exact h.stack_ne hown
        · exact h.not_free ((show [tf, ks, mi] ⊆ [tf, ks, us, mi] by simp) hown) (hfree _ hfs)
      · rw [Chain.unique addr_injective hfl₂ hbuilt.tables.free]
        exact hbuilt.not_free hD

/-- **Which images keep user mode out of the kernel's pages.** For a process made from the
    free list of the boot, every entry for user mode points to the user stack or to a page
    that `elf_alloc_mb` got for a segment if and only if each segment that is not at a page
    boundary follows one that needed no new table. -/
theorem userFrames_iff (hfree : FreeList s₀.phys (pagesDown P n))
    (hmade : allocProcess L s₀ = .ret i s) (hload : elfLoad f i s = .ret .elOk s') :
    UserFramesOk f i (pagesDown P n) s s' ↔
      SegmentsFollow (initialPages L (s.procs i).trapframe) False f.loads := by
  obtain ⟨-, tf, pt, ks, us, mi, fl, hm⟩ := Prog.wp_ret (allocProcess_made hfree) hmade
  obtain ⟨hlen, hframes⟩ := hm.userFrames hm.next_info (elfLoad_run hload)
  obtain ⟨m, rfl, hm52⟩ := hm.rest_eq
  have htf : (s.procs i).trapframe = addr tf := congrArg AddrSpace.trapframe hm.space
  rw [hframes, htf]
  exact segmentsContained_iff _ _ _ _ _ hm52 hlen (by simp) (by simp)

theorem userFrames_sample : ∃ s₀ i s s', FreeList s₀.phys (pagesDown 0x80010 127) ∧
    allocProcess sampleLayout s₀ = .ret i s ∧
    elfLoad (elfWith [wordAt 5 0x10000]) i s = .ret .elOk s' ∧
    UserFramesOk (elfWith [wordAt 5 0x10000]) i (pagesDown 0x80010 127) s s' := by
  have hloads : (elfWith [wordAt 5 0x10000]).loads = [wordAt 5 0x10000] := rfl
  obtain ⟨s₀, i, s, s', -, -, -, -, -, -, ⟨hfree, hrun, hok, -, -⟩⟩ :=
    sampleLoad_word (by decide) (by decide) hloads
  refine ⟨s₀, i, s, s', hfree, hrun, hok, (userFrames_iff hfree hrun hok).mpr ?_⟩
  rw [hloads]
  exact ⟨fun hcount => absurd hcount (by decide), trivial⟩

/-- A segment at `0x10010` maps the page behind its own as well: a page of a table. -/
theorem userFrames_exposed : ∃ s₀ i s s', FreeList s₀.phys (pagesDown 0x80010 127) ∧
    allocProcess sampleLayout s₀ = .ret i s ∧
    elfLoad (elfWith [wordAt 5 0x10010]) i s = .ret .elOk s' ∧
    ¬ UserFramesOk (elfWith [wordAt 5 0x10010]) i (pagesDown 0x80010 127) s s' := by
  have hloads : (elfWith [wordAt 5 0x10010]).loads = [wordAt 5 0x10010] := rfl
  obtain ⟨s₀, i, s, s', tf, pt, ks, us, mi, fl', ⟨hfree, hrun, hok, hmade, -⟩⟩ :=
    sampleLoad_word (by decide) (by decide) hloads
  refine ⟨s₀, i, s, s', hfree, hrun, hok, fun hframes => ?_⟩
  obtain ⟨hlen, hiff⟩ := hmade.userFrames hmade.next_info (elfLoad_run hok)
  obtain ⟨m, rfl, hm⟩ := hmade.rest_eq
  have hfollow := (segmentsContained_iff _ _ _ _ False hm hlen (by simp) (by simp)).mp
    (hiff.mp hframes)
  rw [hloads] at hfollow
  exact hfollow.1 (by decide)

end Frames

end Pke
