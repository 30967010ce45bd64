import Pke.Build.Process

/-!
# What `elf_load` builds

`elf_load` for any ELF file and any process that `alloc_process` made, for addresses and
numbers of headers of any kind. Each PT_LOAD header gets one page of the free list; the
page is mapped at its address, together with the frame behind it when the address is not
that of a page; the header is written to the first entry of the region table whose
address is 0.
-/

namespace Pke

open Lib Radix

variable {L : Layout} {s s' s'' : Kernel} {s₀ : Phys} {fl₀ fl fl' : List Ppn} {i : Pid} {p pt : Ppn}
  {D : Set Ppn} {f : HostFile} {h : ElfProgHeader}

/-! ## One page -/

/-- The part of the loop of `elf_load` that loads the page of a segment
    (`kernel/elf.c` lines 74–79). -/
def loadPage (f : HostFile) (i : Pid) (h : ElfProgHeader) : KernelM Word := do
  let p ← proc i
  let dest ← onPhys (elfAllocMb p.pagetable h.vaddr h.memsz)
  onPhys (elfFpread f dest h.memsz h.off)

/-- The page of the segment `h` can be taken and mapped. -/
structure PageFits (pt : Ppn) (h : ElfProgHeader) (s : Phys) (fl : List Ppn) : Prop where
  size : h.memsz < PGSIZE
  low : h.vaddr.toNat + 4096 ≤ 2 ^ 38
  unmapped : ∀ k < mapCount h.vaddr,
    translate s.mem pt (vpnOf (h.vaddr.toNat / 4096 + k)) = none
  pages : 5 ≤ fl.length

/-- The byte at offset `y` of the page of a segment. -/
def segmentByte (f : HostFile) (h : ElfProgHeader) (y : ℕ) : BitVec 8 :=
  if y < h.memsz.toNat then f.byte (h.off.toNat + y) else 0

/-- The page `p` holds the segment. -/
def HoldsSegment (f : HostFile) (h : ElfProgHeader) (p : Ppn) (m : Mem) : Prop :=
  ∀ y < 4096, load8 m (addr p + BitVec.ofNat 64 y) = segmentByte f h y

/-- `elf_alloc_mb` at any address. -/
theorem elfAllocMb_built {ph : Phys} (hb : Built s₀ fl₀ pt D ph fl) :
    Prog.wp (elfAllocMb (addr pt) h.vaddr h.memsz)
      (fun pa ph' => ∃ p fl', pa = addr p ∧ h.memsz < PGSIZE ∧
        PageBuilt s₀ fl₀ pt D h.vaddr elfPerm ph fl p ph' fl' ∧ ph'.mem p = fun _ => 0)
      (fun _ => False) (fun _ => ¬ PageFits pt h ph fl) ph := by
  unfold elfAllocMb
  by_cases hsize : PGSIZE ≤ h.memsz
  · rw [if_pos hsize]
    exact fun hfit => absurd hsize (BitVec.not_le.mpr hfit.size)
  rw [if_neg hsize, Prog.wp_bind]
  cases fl with
  | nil =>
    rw [Prog.wp_of_ret (allocPage_nil hb.tables.free), if_pos rfl]
    exact fun hfit => absurd hfit.pages (by simp)
  | cons p fl₁ =>
    obtain ⟨g, hrun, hfree⟩ := allocPage_cons hb.tables.free
    have hp0 : p ≠ 0 := hb.tables.free.ne_zero List.mem_cons_self
    rw [Prog.wp_of_ret hrun, if_neg (mt addr_eq_zero.mp hp0), Prog.wp_bind,
      Prog.wp_of_ret (physMemset_eq hp0 0 4096 _), Prog.wp_bind]
    have hclear : ∀ q, q ≠ p → memset ph.mem (addr p) 0 4096 q = ph.mem q := fun q hq =>
      memset_of_ne _ _ le_rfl hq
    have hzero : memset ph.mem (addr p) 0 4096 p = fun _ => 0 := by
      rw [memset_page, Function.update_self]
    dsimp only
    generalize memset ph.mem (addr p) 0 4096 = m at hclear hzero ⊢
    refine Prog.wp_mono (hb.pageBuilt hfree hclear) ?_ (fun _ h => h) fun _ hn hfit => hn ?_
    · rintro _ ph' ⟨hkept, fl', hpage⟩
      exact ⟨p, fl', rfl, BitVec.not_le.mp hsize, hpage, hkept.trans hzero⟩
    · have hneed := tablesNeeded_le ph.mem pt (h.vaddr.toNat / 4096) (mapCount h.vaddr)
      have hcount := mapCount_le h.vaddr
      have hpages := hfit.pages
      rw [List.length_cons] at hpages
      exact ⟨hfit.low, hfit.unmapped, by omega⟩

/-- Loading the page of a segment. -/
theorem loadPage_built (hb : Built s₀ fl₀ pt D s.phys fl)
    (hpt : (s.procs i).pagetable = addr pt) :
    Prog.wp (loadPage f i h)
      (fun got s' => got = f.pread h.off h.memsz ∧ PhysOnly s s' ∧
        ∃ p fl', PageBuilt s₀ fl₀ pt D h.vaddr elfPerm s.phys fl p s'.phys fl' ∧
          (got = h.memsz → HoldsSegment f h p s'.phys.mem))
      (fun _ => False) (fun _ => ¬ PageFits pt h s.phys fl) s := by
  unfold loadPage
  rw [proc, Prog.wp_bind, Prog.wp_gets, hpt]
  refine wp_phys (elfAllocMb_built hb) ?_ fun _ h => h
  rintro _ s₁ hs₁ ⟨p, fl', rfl, hsize, hp, hzero⟩
  obtain ⟨fl₁, hfl, -⟩ := hp.list
  have hD : p ∉ D := fun hD => hb.not_free hD (hfl ▸ List.mem_cons_self)
  obtain ⟨m, hrun, hm⟩ := elfFpread_eq f p hsize h.off s₁.phys
  rw [wp_onPhys, Prog.wp_of_ret hrun]
  refine ⟨rfl, ?_, p, fl', hp.write hD hm, fun hgot y hy => ?_⟩
  · unfold PhysOnly at hs₁ ⊢
    rw [hs₁]
  · have hclear : load8 s₁.phys.mem (addr p + BitVec.ofNat 64 y) = 0 := by
      have ho : (BitVec.ofNat 64 y).toNat < 4096 := by
        rw [BitVec.toNat_ofNat]
        omega
      rw [load8, load64, ppn_addr_add p ho, hzero]
      simp
    rw [elfFpread_bytes hsize hgot hrun hy, hclear]
    rfl

theorem loadPage_only {got : Word} (hrun : loadPage f i h s = .ret got s') : PhysOnly s s' := by
  obtain ⟨q, s₁, hproc, hrun⟩ := Prog.bind_eq_ret.mp hrun
  obtain ⟨rfl, rfl⟩ : s.procs i = q ∧ s = s₁ := by simpa [proc] using hproc
  obtain ⟨dest, s₂, halloc, hrun⟩ := Prog.bind_eq_ret.mp hrun
  obtain ⟨ph₂, -, rfl⟩ := Prog.zoom_eq_ret.mp halloc
  obtain ⟨ph₃, -, rfl⟩ := Prog.zoom_eq_ret.mp hrun
  rfl

/-! ## The headers -/

/-- The PT_LOAD headers of the program header table. -/
def HostFile.tableLoads (f : HostFile) : List ElfProgHeader :=
  ((List.range f.elfHeader.phnum.toNat).map fun k =>
    f.progHeader (f.elfHeader.phoff.toNat + 56 * k)).filter fun h => h.type = ELF_PROG_LOAD

/-- A run of `elf_load` that loads the segments of the list one after the other. -/
inductive LoadRun (f : HostFile) (i : Pid) : List ElfProgHeader → Kernel → Kernel → Prop
  | nil (s : Kernel) : LoadRun f i [] s s
  | cons {h : ElfProgHeader} {hs : List ElfProgHeader} {s s₁ s₂ s' : Kernel}
      (sizes : h.filesz ≤ h.memsz) (page : loadPage f i h s = .ret h.memsz s₁)
      (record : recordSegment i h s₁ = .ret () s₂) (rest : LoadRun f i hs s₂ s') :
      LoadRun f i (h :: hs) s s'

theorem elfLoadLoop_succ (f : HostFile) (i : Pid) (n : ℕ) (off : BitVec 32) :
    elfLoadLoop f i (n + 1) off = (
      if f.pread (off.signExtend 64) 56 ≠ 56 then return .elEio
      else if (f.progHeader (off.signExtend 64 : Word).toNat).type ≠ ELF_PROG_LOAD then
        elfLoadLoop f i n (off + 56)
      else if (f.progHeader (off.signExtend 64 : Word).toNat).memsz <
          (f.progHeader (off.signExtend 64 : Word).toNat).filesz then return .elErr
      else if (f.progHeader (off.signExtend 64 : Word).toNat).vaddr +
          (f.progHeader (off.signExtend 64 : Word).toNat).memsz <
          (f.progHeader (off.signExtend 64 : Word).toNat).vaddr then return .elErr
      else do
        let got ← loadPage f i (f.progHeader (off.signExtend 64 : Word).toNat)
        if got ≠ (f.progHeader (off.signExtend 64 : Word).toNat).memsz then return .elEio
        else do
          recordSegment i (f.progHeader (off.signExtend 64 : Word).toNat)
          elfLoadLoop f i n (off + 56)) := by
  simp only [elfLoadLoop, loadPage, Prog.bind_assoc]

theorem elfLoadLoop_run (f : HostFile) (i : Pid) :
    ∀ (n : ℕ) (off : BitVec 32) (s s' : Kernel), elfLoadLoop f i n off s = .ret .elOk s' →
      LoadRun f i (loadHeaders f n off) s s' := by
  intro n
  induction n with
  | zero =>
    intro off s s' hrun
    obtain rfl : s = s' := by simpa [elfLoadLoop] using hrun
    exact .nil s
  | succ n ih =>
    intro off s s' hrun
    rw [elfLoadLoop_succ] at hrun
    rw [loadHeaders]
    generalize f.progHeader (off.signExtend 64 : Word).toNat = ph at hrun ⊢
    split_ifs at hrun with hread htype hsizes hwrap
    · simp at hrun
    · rw [if_neg htype]
      exact ih _ s s' hrun
    · simp at hrun
    · simp at hrun
    · rw [if_pos (not_not.mp htype)]
      obtain ⟨got, s₁, hpage, hrun⟩ := Prog.bind_eq_ret.mp hrun
      split_ifs at hrun with hgot
      · simp at hrun
      · obtain ⟨⟨⟩, s₂, hrec, hrun⟩ := Prog.bind_eq_ret.mp hrun
        exact .cons (BitVec.not_lt.mp hsizes) (not_not.mp hgot ▸ hpage) hrec (ih _ s₂ s' hrun)

theorem elfLoad_run (hrun : elfLoad f i s = .ret .elOk s') : LoadRun f i f.loads s s' :=
  elfLoadLoop_run f i _ _ s s' hrun

/-! ## The process that is loaded -/

/-- Process `i`, made from the free list `fl₀` of the memory `s₀`, while it is loaded: the
    page table, the region table and the pages of the segments are its own. -/
structure InLoad (s₀ : Phys) (fl₀ : List Ppn) (i : Pid) (a : AddrSpace) (D : Set Ppn) (s : Kernel)
    (fl : List Ppn) : Prop where
  space : (s.procs i).space = a
  aligned : a.Aligned
  info : a.own .info ∈ D
  built : Built s₀ fl₀ a.root D s.phys fl

theorem Made.inLoad {tf ks us mi : Ppn} {s₁ : Kernel} (h : Made L s₁ fl₀ i tf pt ks us mi s fl) :
    InLoad s₁.phys fl₀ i (withPages (s₁.procs i) tf pt ks mi).space {tf, ks, us, mi} s fl where
  space := h.space
  aligned := withPages_aligned _ _ _ _ _
  info := by
    rw [withPages_own]
    simp
  built := by
    rw [withPages_root]
    exact h.filling.built

/-- Loading one segment: a page for it, then its entry in the region table. -/
structure SegmentStep (s₀ : Phys) (fl₀ : List Ppn) (i : Pid) (a : AddrSpace) (D : Set Ppn)
    (h : ElfProgHeader) (s : Kernel) (fl : List Ppn) (p : Ppn) (s₁ s₂ : Kernel) (fl' : List Ppn) :
    Prop where
  page : PageBuilt s₀ fl₀ a.root D h.vaddr elfPerm s.phys fl p s₁.phys fl'
  only : PhysOnly s s₁
  recorded : ∃ seg, SegmentRecorded i h s₁ (freeRegion s₁.phys.mem a.mappedInfo) seg s₂

theorem InLoad.step {a : AddrSpace} (hl : InLoad s₀ fl₀ i a D s fl) {got : Word} {s₁ s₂ : Kernel}
    (hpage : loadPage f i h s = .ret got s₁) (hrec : recordSegment i h s₁ = .ret () s₂) :
    ∃ p fl', SegmentStep s₀ fl₀ i a D h s fl p s₁ s₂ fl' := by
  have hpt : (s.procs i).pagetable = addr a.root :=
    (congrArg AddrSpace.pagetable hl.space).trans hl.aligned.pagetable.symm
  obtain ⟨-, honly, p, fl', hp, -⟩ := Prog.wp_ret (loadPage_built hl.built hpt) hpage
  obtain ⟨seg, hseg⟩ := Prog.wp_ret (recordSegment_spec i h s₁) hrec
  have hmi : (s₁.procs i).mappedInfo = a.mappedInfo := by
    rw [honly.procs]
    exact congrArg AddrSpace.mappedInfo hl.space
  rw [hmi] at hseg
  exact ⟨p, fl', hp, honly, seg, hseg⟩

/-- Recording the header writes to pages of the process only, so it stays in order. -/
theorem InLoad.record_of {a : AddrSpace} (hl : InLoad s₀ fl₀ i a D s fl) {s₁ s₂ : Kernel}
    (hs : SegmentStep s₀ fl₀ i a D h s fl p s₁ s₂ fl')
    (hne : ∀ seg q, q ∉ insert p D → recordRegion s₁.phys.mem a
      (freeRegion s₁.phys.mem a.mappedInfo) h.vaddr 1 seg q = s₁.phys.mem q) :
    InLoad s₀ fl₀ i a (insert p D) s₂ fl' ∧
      ∃ seg, segmentType h.flags = some seg ∧ s₂.phys.mem = recordRegion s₁.phys.mem a
        (freeRegion s₁.phys.mem a.mappedInfo) h.vaddr 1 seg := by
  obtain ⟨seg, hseg⟩ := hs.recorded
  have hspace : (s₁.procs i).space = a := by
    rw [hs.only.procs]
    exact hl.space
  have hrest := hseg.rest
  rw [hspace] at hrest
  have hphys : s₂.phys = { s₁.phys with
      mem := recordRegion s₁.phys.mem a (freeRegion s₁.phys.mem a.mappedInfo) h.vaddr 1 seg } :=
    congrArg Kernel.phys hrest
  have hprocs : s₂.procs = Function.update s₁.procs i
      { s₁.procs i with totalMappedRegion := (s₁.procs i).totalMappedRegion + 1 } :=
    congrArg Kernel.procs hrest
  refine ⟨⟨?_, hl.aligned, Set.mem_insert_of_mem _ hl.info, ?_⟩, seg, hseg.type,
    congrArg Phys.mem hphys⟩
  · rw [hprocs, Function.update_self]
    exact hspace
  · rw [hphys]
    exact hs.page.built.write (hne seg)

theorem InLoad.record {a : AddrSpace} (hl : InLoad s₀ fl₀ i a D s fl) {s₁ s₂ : Kernel}
    (hs : SegmentStep s₀ fl₀ i a D h s fl p s₁ s₂ fl')
    (hj : freeRegion s₁.phys.mem a.mappedInfo < 256) :
    InLoad s₀ fl₀ i a (insert p D) s₂ fl' ∧
      ∃ seg, segmentType h.flags = some seg ∧ s₂.phys.mem = recordRegion s₁.phys.mem a
        (freeRegion s₁.phys.mem a.mappedInfo) h.vaddr 1 seg :=
  hl.record_of hs fun _ _ hq => recordRegion_of_ne hl.aligned hj
    (by rintro rfl; exact hq (Set.mem_insert_of_mem _ hl.info))

/-! ## The region table -/

/-- The entries of the region table that loading the headers writes, from the state `s` on. -/
def recordIndices (f : HostFile) (i : Pid) : List ElfProgHeader → Kernel → List ℕ
  | [], _ => []
  | h :: hs, s =>
    match loadPage f i h s with
    | .ret _ s₁ =>
      freeRegion s₁.phys.mem (s₁.procs i).mappedInfo ::
        match recordSegment i h s₁ with
        | .ret _ s₂ => recordIndices f i hs s₂
        | _ => []
    | _ => []

/-- Entry `k` of the region table describes the header. -/
structure EntryFor (m : Mem) (a : AddrSpace) (k : ℕ) (h : ElfProgHeader) : Prop where
  va : regionVa m a k = h.vaddr
  npages : regionPages m a k = 1
  seg : ∃ seg, segmentType h.flags = some seg ∧ regionSeg m a k = some seg

/-- The region table after the headers `hs` were recorded: `c` entries behind the first
    three are in use, all but the last of them with an address other than 0. Unless a
    header before the last has the address 0, these are the headers. -/
structure RegionTable (m : Mem) (a : AddrSpace) (hs : List ElfProgHeader) (c : ℕ) : Prop where
  first : ∀ k < 3, regionVa m a k ≠ 0
  unused : ∀ k, 3 + c ≤ k → k < 256 → regionVa m a k = 0 ∧ regionSecond m a k = 0
  used : ∀ k, 3 ≤ k → k + 1 < 3 + c → regionVa m a k ≠ 0
  exact : (∀ h ∈ hs.dropLast, h.vaddr ≠ 0) →
    c = hs.length ∧ ∀ k h, hs[k]? = some h → EntryFor m a (3 + k) h
  behind : (¬ ∀ h ∈ hs.dropLast, h.vaddr ≠ 0) → c < hs.length

theorem freeRegion_eq {m : Mem} {a : AddrSpace} {j : ℕ} (hj : j < 256) (hzero : regionVa m a j = 0)
    (hbefore : ∀ k < j, regionVa m a k ≠ 0) : freeRegion m a.mappedInfo = j := by
  have hfind : (List.range 256).find? (fun j => load64 m (regionAddr a.mappedInfo j) = 0) =
      some j := by
    rw [List.find?_range_eq_some]
    refine ⟨by simpa [regionVa] using hzero, List.mem_range.mpr hj, fun k hk => ?_⟩
    simpa [regionVa] using hbefore k hk
  rw [freeRegion, hfind, Option.getD_some]

namespace RegionTable

variable {m : Mem} {a : AddrSpace} {hs : List ElfProgHeader} {c : ℕ}

theorem congr (h : RegionTable m a hs c) (ha : a.Aligned) {m' : Mem} (hc : 3 + hs.length ≤ 256)
    (hm : m' (a.own .info) = m (a.own .info)) (hle : c ≤ hs.length) : RegionTable m' a hs c := by
  have hva := fun k (hk : k < 256) => regionVa_congr ha hm hk
  have hsec := fun k (hk : k < 256) => regionSecond_congr ha hm hk
  refine ⟨fun k hk => ?_, fun k hk hk' => ?_, fun k hk hk' => ?_, fun hlast => ?_, h.behind⟩
  · rw [hva k (by omega)]
    exact h.first k hk
  · rw [hva k hk', hsec k hk']
    exact h.unused k hk hk'
  · rw [hva k (by omega)]
    exact h.used k hk hk'
  · refine ⟨(h.exact hlast).1, fun k g hg => ?_⟩
    have hk : 3 + k < 256 := by
      have := (List.getElem?_eq_some_iff.mp hg).1
      omega
    obtain ⟨h1, h2, seg, h3, h4⟩ := (h.exact hlast).2 k g hg
    refine ⟨by rw [hva _ hk, h1], ?_, seg, h3, ?_⟩
    · rw [regionPages, hsec _ hk]
      exact h2
    · rw [regionSeg, hsec _ hk]
      exact h4

/-- The next entry that is written: the last one in use if its address is 0, and the one
    behind it otherwise. -/
theorem freeRegion_cases (h : RegionTable m a hs c) (hc : 3 + c < 256) :
    (freeRegion m a.mappedInfo = 3 + c ∧ ∀ k, 3 ≤ k → k < 3 + c → regionVa m a k ≠ 0) ∨
      (0 < c ∧ freeRegion m a.mappedInfo + 1 = 3 + c ∧ regionVa m a (2 + c) = 0) := by
  have hbefore : ∀ k, k + 1 < 3 + c → regionVa m a k ≠ 0 := by
    intro k hk
    by_cases h3 : k < 3
    · exact h.first k h3
    · exact h.used k (by omega) hk
  by_cases hlast : c = 0 ∨ regionVa m a (2 + c) ≠ 0
  · left
    have hall : ∀ k < 3 + c, regionVa m a k ≠ 0 := by
      intro k hk
      rcases hlast with rfl | hlast
      · exact h.first k hk
      · by_cases hkc : k = 2 + c
        · subst hkc
          exact hlast
        · exact hbefore k (by omega)
    exact ⟨freeRegion_eq hc (h.unused _ le_rfl hc).1 hall, fun k _ hk => hall k hk⟩
  · obtain ⟨hc0, hzero⟩ := not_or.mp hlast
    have hz : regionVa m a (2 + c) = 0 := not_not.mp hzero
    have heq := freeRegion_eq (by omega) hz fun k hk => hbefore k (by omega)
    exact Or.inr ⟨by omega, by omega, hz⟩

/-- The last header, when all before it have an address other than 0, is the last entry. -/
theorem last_entry (h : RegionTable m a hs c) (hlast : ∀ g ∈ hs.dropLast, g.vaddr ≠ 0)
    (hne : hs ≠ []) : regionVa m a (2 + c) = (hs.getLast hne).vaddr := by
  obtain ⟨hc, hentries⟩ := h.exact hlast
  have hpos := List.length_pos_iff.mpr hne
  have hget : hs[hs.length - 1]? = some (hs.getLast hne) := by
    rw [List.getElem?_eq_getElem (by omega), List.getLast_eq_getElem]
  have hva := (hentries _ _ hget).va
  rwa [show 3 + (hs.length - 1) = 2 + c by omega] at hva

theorem mem_iff_dropLast (hne : hs ≠ []) :
    (∀ g ∈ hs, g.vaddr ≠ 0) ↔ (∀ g ∈ hs.dropLast, g.vaddr ≠ 0) ∧ (hs.getLast hne).vaddr ≠ 0 := by
  conv_lhs => rw [← List.dropLast_concat_getLast hne]
  simp [or_imp, forall_and]

variable {g : ElfProgHeader} {seg : SegType}

/-- A header written behind the entries in use. -/
theorem append (h : RegionTable m a hs c) (hlen : 3 + hs.length < 256) (hle : c ≤ hs.length)
    (hseg : segmentType g.flags = some seg)
    (hall : ∀ k, 3 ≤ k → k < 3 + c → regionVa m a k ≠ 0) :
    RegionTable (recordRegion m a (3 + c) g.vaddr 1 seg) a (hs ++ [g]) (c + 1) := by
  have hva : ∀ k < 256, regionVa (recordRegion m a (3 + c) g.vaddr 1 seg) a k =
      if k = 3 + c then g.vaddr else regionVa m a k := fun k hk =>
    regionVa_recordRegion (by omega) hk
  have hsec : ∀ k < 256, regionSecond (recordRegion m a (3 + c) g.vaddr 1 seg) a k =
      if k = 3 + c then regionWord 1 seg else regionSecond m a k := fun k hk =>
    regionSecond_recordRegion (by omega) hk
  refine ⟨fun k hk => ?_, fun k hk hk' => ?_, fun k hk hk' => ?_, fun hnz => ?_, fun hz => ?_⟩
  · rw [hva k (by omega), if_neg (by omega)]
    exact h.first k hk
  · rw [hva k hk', hsec k hk', if_neg (by omega), if_neg (by omega)]
    exact h.unused k (by omega) hk'
  · rw [hva k (by omega), if_neg (by omega)]
    exact hall k hk (by omega)
  · rw [List.dropLast_concat] at hnz
    have hdrop : ∀ g' ∈ hs.dropLast, g'.vaddr ≠ 0 := fun g' hg' =>
      hnz g' (List.mem_of_mem_dropLast hg')
    obtain ⟨hc, hentries⟩ := h.exact hdrop
    refine ⟨by rw [hc, List.length_append, List.length_singleton], fun k g' hg' => ?_⟩
    have hk := (List.getElem?_eq_some_iff.mp hg').1
    rw [List.length_append, List.length_singleton] at hk
    by_cases hkc : k = hs.length
    · subst hkc
      rw [List.getElem?_concat_length] at hg'
      obtain rfl := Option.some.inj hg'
      rw [← hc]
      refine ⟨by rw [hva _ (by omega), if_pos rfl], ?_, seg, hseg, ?_⟩
      · rw [regionPages_recordRegion (by omega) (by omega), if_pos rfl]
      · rw [regionSeg_recordRegion (by omega) (by omega), if_pos rfl]
    · rw [List.getElem?_append_left (by omega)] at hg'
      obtain ⟨h1, h2, seg', h3, h4⟩ := hentries k g' hg'
      refine ⟨by rw [hva _ (by omega), if_neg (by omega), h1], ?_, seg', h3, ?_⟩
      · rw [regionPages_recordRegion (by omega) (by omega), if_neg (by omega), h2]
      · rw [regionSeg_recordRegion (by omega) (by omega), if_neg (by omega), h4]
  · rw [List.dropLast_concat] at hz
    rw [List.length_append, List.length_singleton]
    by_cases hdrop : ∀ g' ∈ hs.dropLast, g'.vaddr ≠ 0
    · -- then the last header would have the address 0, and with it an entry in use
      have hne : hs ≠ [] := by
        rintro rfl
        simp at hz
      have hlast := h.last_entry hdrop hne
      have hpos := List.length_pos_iff.mpr hne
      have hc := (h.exact hdrop).1
      exact absurd ((mem_iff_dropLast hne).mpr ⟨hdrop, hlast ▸ hall _ (by omega) (by omega)⟩) hz
    · have := h.behind hdrop
      omega

/-- A header written over one with the address 0. -/
theorem overwrite (h : RegionTable m a hs c) (hlen : 3 + hs.length < 256) (hle : c ≤ hs.length)
    (hc : 0 < c) (hzero : regionVa m a (2 + c) = 0) :
    RegionTable (recordRegion m a (2 + c) g.vaddr 1 seg) a (hs ++ [g]) c := by
  have hva : ∀ k < 256, regionVa (recordRegion m a (2 + c) g.vaddr 1 seg) a k =
      if k = 2 + c then g.vaddr else regionVa m a k := fun k hk =>
    regionVa_recordRegion (by omega) hk
  have hsec : ∀ k < 256, regionSecond (recordRegion m a (2 + c) g.vaddr 1 seg) a k =
      if k = 2 + c then regionWord 1 seg else regionSecond m a k := fun k hk =>
    regionSecond_recordRegion (by omega) hk
  refine ⟨fun k hk => ?_, fun k hk hk' => ?_, fun k hk hk' => ?_, fun hnz => ?_, fun _ => ?_⟩
  · rw [hva k (by omega), if_neg (by omega)]
    exact h.first k hk
  · rw [hva k hk', hsec k hk', if_neg (by omega), if_neg (by omega)]
    exact h.unused k hk hk'
  · rw [hva k (by omega), if_neg (by omega)]
    exact h.used k hk hk'
  · rw [List.dropLast_concat] at hnz
    have hne : hs ≠ [] := List.length_pos_iff.mp (by omega)
    obtain ⟨hdrop, hlast⟩ := (mem_iff_dropLast hne).mp hnz
    exact absurd ((h.last_entry hdrop hne).symm.trans hzero) hlast
  · rw [List.length_append, List.length_singleton]
    omega

theorem record (h : RegionTable m a hs c) (hlen : 3 + hs.length < 256) (hle : c ≤ hs.length)
    (hseg : segmentType g.flags = some seg) : freeRegion m a.mappedInfo < 256 ∧
      ∃ c' ≤ (hs ++ [g]).length, RegionTable (recordRegion m a (freeRegion m a.mappedInfo)
        g.vaddr 1 seg) a (hs ++ [g]) c' := by
  rw [List.length_append, List.length_singleton]
  rcases h.freeRegion_cases (by omega) with ⟨hj, hall⟩ | ⟨hc, hj, hzero⟩
  · rw [hj]
    exact ⟨by omega, c + 1, by omega, h.append hlen hle hseg hall⟩
  · rw [show freeRegion m a.mappedInfo = 2 + c by omega]
    exact ⟨by omega, c, by omega, h.overwrite hlen hle hc hzero⟩

end RegionTable

theorem trapSec_ne_zero (L : Layout) : L.trapSecStart ≠ 0 := by
  intro h0
  have := L.base_le_trapSec
  rw [h0] at this
  exact absurd this (by decide)

/-- The region table that `alloc_process` leaves. -/
theorem Made.regionTable {tf ks us mi : Ppn} {s₁ : Kernel}
    (h : Made L s₁ fl₀ i tf pt ks us mi s fl) :
    RegionTable s.phys.mem (withPages (s₁.procs i) tf pt ks mi).space [] 0 := by
  have ha := withPages_aligned (s₁.procs i) tf pt ks mi
  have htf : (withPages (s₁.procs i) tf pt ks mi).space.trapframe ≠ 0 :=
    mt addr_eq_zero.mp (h.filling.built.ne_zero (by simp))
  have hinfo := h.filling.info
  generalize (withPages (s₁.procs i) tf pt ks mi).space = a at ha htf hinfo
  have hregs : Regions L s.phys.mem a 3 := Regions.initial.congr ha hinfo
  refine ⟨fun k hk => ?_, fun k hk hk' => ?_, fun k hk hk' => absurd hk' (by omega), fun _ => ?_,
    fun hn => absurd hn (by simp)⟩
  · have hcases : k = 0 ∨ k = 1 ∨ k = 2 := by omega
    rcases hcases with rfl | rfl | rfl
    · rw [hregs.stack.1]
      decide
    · rw [hregs.context.1]
      exact htf
    · rw [hregs.system.1]
      exact trapSec_ne_zero L
  · rw [regionVa_congr ha hinfo hk', regionSecond_congr ha hinfo hk', initialInfo,
      regionVa_recordRegion (by omega) hk', regionVa_recordRegion (by omega) hk',
      regionVa_recordRegion (by omega) hk', regionSecond_recordRegion (by omega) hk',
      regionSecond_recordRegion (by omega) hk', regionSecond_recordRegion (by omega) hk',
      if_neg (by omega), if_neg (by omega), if_neg (by omega), if_neg (by omega),
      if_neg (by omega), if_neg (by omega)]
    exact ⟨rfl, rfl⟩
  · exact ⟨rfl, fun k g hg => by simp at hg⟩

theorem LoadRun.total {hs : List ElfProgHeader} (hrun : LoadRun f i hs s s') :
    (s'.procs i).totalMappedRegion = (s.procs i).totalMappedRegion + hs.length := by
  induction hrun with
  | nil s => rfl
  | @cons h hs s s₁ s₂ s' sizes page record rest ih =>
    obtain ⟨seg, hseg⟩ := Prog.wp_ret (recordSegment_spec i h s₁) record
    have hprocs : s₂.procs = Function.update s₁.procs i
        { s₁.procs i with totalMappedRegion := (s₁.procs i).totalMappedRegion + 1 } :=
      congrArg Kernel.procs hseg.rest
    rw [ih, hprocs, Function.update_self, (loadPage_only page).procs, List.length_cons]
    dsimp only
    omega

/-- The region table after a run. -/
theorem LoadRun.table {a : AddrSpace} {hs : List ElfProgHeader} (hrun : LoadRun f i hs s s') :
    ∀ {D : Set Ppn} {fl : List Ppn} {hs₀ : List ElfProgHeader} {c : ℕ},
      InLoad s₀ fl₀ i a D s fl → RegionTable s.phys.mem a hs₀ c → c ≤ hs₀.length →
      3 + hs₀.length + hs.length ≤ 256 →
      (∃ c', RegionTable s'.phys.mem a (hs₀ ++ hs) c') ∧ (s'.procs i).space = a ∧
        ∀ j ∈ recordIndices f i hs s, j < 256 := by
  induction hrun with
  | nil s =>
    intro D fl hs₀ c hl htab _ _
    exact ⟨⟨c, by simpa using htab⟩, hl.space, by simp [recordIndices]⟩
  | @cons h hs s s₁ s₂ s' sizes page record rest ih =>
    intro D fl hs₀ c hl htab hle hlen
    rw [List.length_cons] at hlen
    obtain ⟨p, fl', hstep⟩ := hl.step page record
    obtain ⟨seg, hseg⟩ := hstep.recorded
    have htab₁ : RegionTable s₁.phys.mem a hs₀ c :=
      htab.congr hl.aligned (by omega) (hstep.page.data _ hl.info) hle
    obtain ⟨hj, c', hc', -⟩ := htab₁.record (by omega) hle hseg.type
    obtain ⟨hl₂, seg', hseg', hmem⟩ := hl.record hstep hj
    obtain ⟨-, c', hc', htab₂⟩ := htab₁.record (by omega) hle hseg'
    rw [← hmem] at htab₂
    obtain ⟨htab', hspace, hidx⟩ := ih hl₂ htab₂ hc' (by
      rw [List.length_append, List.length_singleton]
      omega)
    refine ⟨by simpa using htab', hspace, fun j hmemj => ?_⟩
    have hmi : (s₁.procs i).mappedInfo = a.mappedInfo := by
      rw [hstep.only.procs]
      exact congrArg AddrSpace.mappedInfo hl.space
    rw [recordIndices, page] at hmemj
    dsimp only at hmemj
    rw [record, hmi] at hmemj
    rcases List.mem_cons.mp hmemj with rfl | hmemj
    · exact hj
    · exact hidx j hmemj

/-! ## Files that can be loaded -/

/-- The pages that loading the header maps. -/
def ElfProgHeader.pages (h : ElfProgHeader) : Set Vpn :=
  {v | h.vaddr.toNat / 4096 ≤ v.toNat ∧ v.toNat < h.vaddr.toNat / 4096 + mapCount h.vaddr}

theorem ElfProgHeader.vpnOf_mem_pages (hlow : h.vaddr.toNat + 4096 ≤ 2 ^ 38) {k : ℕ}
    (hk : k < mapCount h.vaddr) : vpnOf (h.vaddr.toNat / 4096 + k) ∈ h.pages := by
  have hcount := mapCount_le h.vaddr
  have hv : (vpnOf (h.vaddr.toNat / 4096 + k)).toNat = h.vaddr.toNat / 4096 + k :=
    vpnOf_toNat (by omega)
  constructor
  · rw [hv]
    omega
  · rw [hv]
    omega

/-- The headers can be loaded one after the other into an address space with the pages `S`. -/
def Loadable (S : Set Vpn) : List ElfProgHeader → Prop
  | [] => True
  | h :: hs => h.filesz ≤ h.memsz ∧ h.vaddr ≤ h.vaddr + h.memsz ∧ h.memsz < PGSIZE ∧
      h.vaddr.toNat + 4096 ≤ 2 ^ 38 ∧ segmentType h.flags ≠ none ∧ (∀ v ∈ h.pages, v ∉ S) ∧
      Loadable (S ∪ h.pages) hs

theorem PageBuilt.length {ph ph' : Phys}
    (hp : PageBuilt s₀ fl₀ pt D h.vaddr elfPerm ph fl p ph' fl') :
    fl.length ≤ fl'.length + 5 := by
  obtain ⟨fl₁, rfl, hcount⟩ := hp.list
  have h1 := hcount _ (fun π => tablePaths_length) subset_rfl
  have h2 := tablesNeeded_le ph.mem pt (h.vaddr.toNat / 4096) (mapCount h.vaddr)
  have h3 := mapCount_le h.vaddr
  unfold tablesNeeded at h2
  rw [List.length_cons]
  omega

/-- With enough free pages and a region table with room for them, `elf_load` loads the
    headers. -/
theorem elfLoadLoop_ok {a : AddrSpace} (hread : ∀ off n, f.pread off n = n) :
    ∀ (n : ℕ) (off : BitVec 32) {s : Kernel} {D : Set Ppn} {fl : List Ppn}
      {hs₀ : List ElfProgHeader} {c : ℕ} {S : Set Vpn}, InLoad s₀ fl₀ i a D s fl →
      RegionTable s.phys.mem a hs₀ c → c ≤ hs₀.length →
      3 + hs₀.length + (loadHeaders f n off).length ≤ 256 →
      5 * (loadHeaders f n off).length ≤ fl.length →
      (∀ v, translate s.phys.mem a.root v ≠ none → v ∈ S) → Loadable S (loadHeaders f n off) →
      ∃ s', elfLoadLoop f i n off s = .ret .elOk s' := by
  intro n
  induction n with
  | zero =>
    intro off s D fl hs₀ c S _ _ _ _ _ _ _
    exact ⟨s, rfl⟩
  | succ n ih =>
    intro off s D fl hs₀ c S hl htab hle hlen hfl hS hload
    rw [elfLoadLoop_succ, if_neg (not_not.mpr (hread _ _))]
    rw [loadHeaders] at hlen hfl hload
    generalize f.progHeader (off.signExtend 64 : Word).toNat = h at hlen hfl hload ⊢
    by_cases htype : h.type = ELF_PROG_LOAD
    swap
    · rw [if_pos htype]
      rw [if_neg htype] at hlen hfl hload
      exact ih _ hl htab hle hlen hfl hS hload
    rw [if_neg (not_not.mpr htype)]
    rw [if_pos htype] at hlen hfl hload
    rw [List.length_cons] at hlen hfl
    obtain ⟨hsizes, hwrap, hsize, hlow, hseg, hpages, hload⟩ := hload
    rw [if_neg (BitVec.not_lt.mpr hsizes), if_neg (BitVec.not_lt.mpr hwrap)]
    have hpt : (s.procs i).pagetable = addr a.root :=
      (congrArg AddrSpace.pagetable hl.space).trans hl.aligned.pagetable.symm
    have hfits : PageFits a.root h s.phys fl := by
      refine ⟨hsize, hlow, fun k hk => ?_, by omega⟩
      by_contra hne
      exact hpages _ (ElfProgHeader.vpnOf_mem_pages hlow hk) (hS _ hne)
    obtain ⟨got, s₁, hpage, hgot, -⟩ := Prog.returns_of_wp
      (loadPage_built (f := f) (h := h) hl.built hpt) fun _ hn => hn hfits
    obtain ⟨⟨⟩, s₂, hrec, -⟩ := Prog.returns_of_wp (recordSegment_spec i h s₁) fun _ hn => hseg hn
    rw [Prog.bind_of_ret hpage, hgot, hread, if_neg (not_not.mpr rfl), Prog.bind_of_ret hrec]
    obtain ⟨p, fl', hstep⟩ := hl.step hpage hrec
    obtain ⟨seg, hrecorded⟩ := hstep.recorded
    have htab₁ : RegionTable s₁.phys.mem a hs₀ c :=
      htab.congr hl.aligned (by omega) (hstep.page.data _ hl.info) hle
    obtain ⟨hj, -⟩ := htab₁.record (by omega) hle hrecorded.type
    obtain ⟨hl₂, seg', hseg', hmem⟩ := hl.record hstep hj
    obtain ⟨-, c', hc', htab₂⟩ := htab₁.record (by omega) hle hseg'
    have hfl' := hstep.page.length
    rw [← hmem] at htab₂
    refine ih _ hl₂ htab₂ hc' (by rw [List.length_append, List.length_singleton]; omega) (by omega)
      (fun v hv => ?_) hload
    have hsame : translate s₂.phys.mem a.root v = translate s₁.phys.mem a.root v := by
      rw [hmem]
      exact hstep.page.built.translate_write (fun q hq => recordRegion_of_ne hl.aligned hj
        (by rintro rfl; exact hq (Set.mem_insert_of_mem _ hl.info))) v
    rw [hsame, hstep.page.leaf] at hv
    split_ifs at hv with hin
    · exact Or.inr hin
    · exact Or.inl (hS v hv)

/-- The region table of process `i` describes the PT_LOAD headers of the file, and
    `elf_load` wrote no entry behind its end. -/
structure RegionTableExact (f : HostFile) (i : Pid) (s s' : Kernel) : Prop where
  inBounds : ∀ j ∈ recordIndices f i f.loads s, j < 256
  total : (s'.procs i).totalMappedRegion = 3 + f.tableLoads.length
  entries : ∀ k h, f.tableLoads[k]? = some h →
    3 + k < 256 ∧ EntryFor s'.phys.mem (s'.procs i).space (3 + k) h

/-- What the region table says of a header. -/
def ElfProgHeader.region (h : ElfProgHeader) : Word × Option SegType :=
  (h.vaddr, segmentType h.flags)

/-- At most 253 headers, none but the last with the address 0, and they are where the
    32-bit offset of `elf_load` finds them. -/
structure RegionsFit (f : HostFile) : Prop where
  few : f.tableLoads.length ≤ 253
  nonzero : ∀ h ∈ f.tableLoads.dropLast, h.vaddr ≠ 0
  found : f.loads.map ElfProgHeader.region = f.tableLoads.map ElfProgHeader.region

theorem EntryFor.region_eq {m : Mem} {a : AddrSpace} {k : ℕ} {g : ElfProgHeader}
    (h : EntryFor m a k g) : (regionVa m a k, regionSeg m a k) = g.region := by
  obtain ⟨seg, hseg, hseg'⟩ := h.seg
  rw [h.va, hseg', ElfProgHeader.region, hseg]

theorem dropLast_nonzero_iff {hs hs' : List ElfProgHeader}
    (h : hs.map ElfProgHeader.region = hs'.map ElfProgHeader.region) :
    (∀ g ∈ hs.dropLast, g.vaddr ≠ 0) ↔ ∀ g ∈ hs'.dropLast, g.vaddr ≠ 0 := by
  have key : ∀ l : List ElfProgHeader, (∀ g ∈ l.dropLast, g.vaddr ≠ 0) ↔
      ∀ r ∈ (l.map ElfProgHeader.region).dropLast, r.1 ≠ 0 := by
    intro l
    rw [← List.map_dropLast, List.forall_mem_map]
    rfl
  rw [key, key, h]

section Exact

variable {tf ks us mi : Ppn} {s₁ : Kernel} (hmade : Made L s₁ fl₀ i tf pt ks us mi s fl)
  (hrun : LoadRun f i f.loads s s')

include hmade hrun

theorem RegionTableExact.length_eq (h : RegionTableExact f i s s') :
    f.loads.length = f.tableLoads.length ∧ f.tableLoads.length ≤ 253 := by
  have htotal := hrun.total
  have hthree : (s.procs i).totalMappedRegion = 3 := by
    rw [hmade.procs, Function.update_self]
  rw [h.total, hthree] at htotal
  refine ⟨by omega, ?_⟩
  by_contra hlen
  have hget := List.getElem?_eq_getElem (l := f.tableLoads) (i := 253) (by omega)
  exact absurd (h.entries 253 _ hget).1 (by omega)

theorem RegionTableExact.fit (h : RegionTableExact f i s s') : RegionsFit f := by
  obtain ⟨hlen, hfew⟩ := h.length_eq hmade hrun
  obtain ⟨⟨c, htab⟩, hspace, -⟩ := hrun.table hmade.inLoad hmade.regionTable le_rfl
    (by rw [List.length_nil]; omega)
  rw [List.nil_append] at htab
  have hentries := h.entries
  rw [hspace] at hentries
  have hdrop : ∀ g ∈ f.loads.dropLast, g.vaddr ≠ 0 := by
    -- otherwise fewer entries than headers are in use, and the last one is not
    by_contra hz
    have hc := htab.behind hz
    have hget := List.getElem?_eq_getElem (l := f.tableLoads) (i := f.tableLoads.length - 1)
      (by omega)
    obtain ⟨hk, hentry⟩ := hentries _ _ hget
    have hzero := (htab.unused (3 + (f.tableLoads.length - 1)) (by omega) hk).2
    have hone := hentry.npages
    rw [regionPages, hzero] at hone
    exact absurd hone (by decide)
  have hfound : f.loads.map ElfProgHeader.region = f.tableLoads.map ElfProgHeader.region := by
    refine List.ext_getElem (by rw [List.length_map, List.length_map, hlen]) fun k hk hk' => ?_
    rw [List.length_map] at hk hk'
    rw [List.getElem_map, List.getElem_map]
    rw [← ((htab.exact hdrop).2 k _ (List.getElem?_eq_getElem hk)).region_eq,
      ← (hentries k _ (List.getElem?_eq_getElem hk')).2.region_eq]
  exact ⟨hfew, (dropLast_nonzero_iff hfound).mp hdrop, hfound⟩

theorem RegionsFit.exact (h : RegionsFit f) : RegionTableExact f i s s' := by
  have hlen : f.loads.length = f.tableLoads.length := by
    have := congrArg List.length h.found
    rwa [List.length_map, List.length_map] at this
  have hfew := h.few
  have hdrop := (dropLast_nonzero_iff h.found).mpr h.nonzero
  obtain ⟨⟨c, htab⟩, hspace, hidx⟩ := hrun.table hmade.inLoad hmade.regionTable le_rfl
    (by rw [List.length_nil]; omega)
  rw [List.nil_append] at htab
  refine ⟨hidx, ?_, fun k g hg => ?_⟩
  · rw [hrun.total, hmade.procs, Function.update_self, hlen]
  · obtain ⟨hk, rfl⟩ := List.getElem?_eq_some_iff.mp hg
    have hk' : k < f.loads.length := by omega
    have hentry := (htab.exact hdrop).2 k _ (List.getElem?_eq_getElem hk')
    have hreg : (f.loads[k]).region = (f.tableLoads[k]).region := by
      have := congrArg (fun l => l[k]?) h.found
      simpa [hk, hk'] using this
    have hva : (f.loads[k]).vaddr = (f.tableLoads[k]).vaddr := congrArg Prod.fst hreg
    have hseg : segmentType (f.loads[k]).flags = segmentType (f.tableLoads[k]).flags :=
      congrArg Prod.snd hreg
    rw [hspace]
    refine ⟨by omega, hentry.va.trans hva, hentry.npages, ?_⟩
    rw [← hseg]
    exact hentry.seg

end Exact

/-! ## Small files -/

/-- The doublewords of a file with the program headers `hs` behind the ELF header. -/
def elfWords (hs : List ElfProgHeader) : List Word :=
  [0x464C457F, 0, 0, 0x10000, 64, 0, 0, BitVec.ofNat 64 hs.length] ++ hs.flatMap fun h =>
    ([h.type.setWidth 64 ||| (h.flags.setWidth 64 : Word) <<< 32, h.off, h.vaddr, 0,
      h.filesz, h.memsz,
      0] : List Word)

def elfWith (hs : List ElfProgHeader) : HostFile where
  byte n := (((elfWords hs).getD (n / 8) 0) >>> (8 * (n % 8))).setWidth 8
  pread _ n := n

/-- The pages from the user stack on. -/
def highPages : Set Vpn := {v | 0x7fffe ≤ v.toNat}

theorem initialLeaf_high {a : AddrSpace} {us : Ppn} {v : Vpn} (ha : AboveTrapSec L a.trapframe)
    (hv : initialLeaf L a us v ≠ none) : v ∈ highPages := by
  have hN := ha.toNat
  have hstackN := toNat_stack
  have hmem : v = vpn L.trapSecStart ∨ v = vpn a.trapframe ∨ v = stackVpn := by
    unfold initialLeaf at hv
    split_ifs at hv <;> tauto
  show 0x7fffe ≤ v.toNat
  rcases hmem with rfl | rfl | rfl
  · rw [vpn_toNat (by omega)]
    omega
  · rw [vpn_toNat (by omega)]
    omega
  · rw [vpn_toNat (by omega)]
    omega

/-- A new process is loaded with a small file below the user stack. -/
theorem Made.elfLoad_ok {s₀ : Kernel} {tf ks us mi : Ppn}
    (hm : Made L s₀ fl₀ i tf pt ks us mi s fl) (htf : AboveTrapSec L (addr tf))
    (hread : ∀ off n, f.pread off n = n) (hfew : 3 + f.loads.length ≤ 256)
    (hlen : 5 * f.loads.length ≤ fl.length) (hload : Loadable highPages f.loads) :
    ∃ s', elfLoad f i s = .ret .elOk s' := by
  have hhigh : ∀ v, translate s.phys.mem
      (withPages (s₀.procs i) tf pt ks mi).space.root v ≠ none → v ∈ highPages := by
    intro v hv
    rw [withPages_root, hm.filling.leaf] at hv
    have htf' : AboveTrapSec L (withPages (s₀.procs i) tf pt ks mi).space.trapframe := htf
    exact initialLeaf_high htf' hv
  exact elfLoadLoop_ok hread f.elfHeader.phnum.toNat (f.elfHeader.phoff.setWidth 32) hm.inLoad
    hm.regionTable le_rfl (show 3 + 0 + f.loads.length ≤ 256 by omega)
    (show 5 * f.loads.length ≤ _ by omega) hhigh hload

/-- A machine with 127 free pages and no process made one in slot `i` and loaded the file
    into it. -/
structure SampleLoaded (f : HostFile) (s₀ : Kernel) (i : Pid) (s s' : Kernel)
    (tf pt ks us mi : Ppn) (fl : List Ppn) : Prop where
  free : FreeList s₀.phys (pagesDown 0x80010 127)
  alloc : allocProcess sampleLayout s₀ = .ret i s
  load : elfLoad f i s = .ret .elOk s'
  made : Made sampleLayout s₀ (pagesDown 0x80010 127) i tf pt ks us mi s fl
  slots : ∀ j, (s₀.procs j).status = .FREE

/-- Every small file below the user stack is loaded into a new process. -/
theorem sampleLoad {f : HostFile} (hread : ∀ off n, f.pread off n = n)
    (hfew : f.loads.length ≤ 20) (hload : Loadable highPages f.loads) :
    ∃ s₀ i s s' tf pt ks us mi fl', SampleLoaded f s₀ i s s' tf pt ks us mi fl' := by
  obtain ⟨ph, hfree⟩ := exists_sampleFree
  obtain ⟨i, s, hrun, -, tf, pt, ks, us, mi, fl', hmade⟩ := Prog.returns_of_wp
    (allocProcess_made (L := sampleLayout) (s := { powerOn 0 with phys := ph }) hfree)
    fun _ hn => hn ⟨⟨0, rfl⟩, by simp, aboveTrapSec_sample⟩
  have hlen := hmade.length
  rw [pagesDown_length] at hlen
  obtain ⟨s', hok⟩ := hmade.elfLoad_ok
    (aboveTrapSec_sample tf (hmade.filling.built.mem_list (by simp))) hread (by omega) (by omega)
    hload
  exact ⟨_, i, s, s', tf, pt, ks, us, mi, fl', hfree, hrun, hok, hmade, fun _ => rfl⟩

/-- A segment of eight bytes at `va`, the first eight of the file. -/
def wordAt (flags : BitVec 32) (va : Word) : ElfProgHeader := ⟨1, flags, 0, va, 8, 8⟩

theorem wordAt_loadable {S : Set Vpn} {flags : BitVec 32} {va : Word} {hs : List ElfProgHeader}
    (hseg : segmentType flags ≠ none) (hva : va.toNat < 0x7fffd000)
    (hS : ∀ v ∈ (wordAt flags va).pages, v ∉ S)
    (hrest : Loadable (S ∪ (wordAt flags va).pages) hs) :
    Loadable S (wordAt flags va :: hs) := by
  refine ⟨BitVec.le_refl _, ?_, show (8 : Word) < PGSIZE by decide, ?_, hseg, hS, hrest⟩
  · show va ≤ va + 8
    rw [BitVec.le_def, BitVec.toNat_add, show (8 : Word).toNat = 8 from rfl]
    omega
  · show va.toNat + 4096 ≤ 2 ^ 38
    omega

theorem wordAt_low {flags : BitVec 32} {va : Word} (hva : va.toNat < 0x7fffd000) :
    ∀ v ∈ (wordAt flags va).pages, v ∉ highPages := by
  rintro v ⟨-, hhi⟩ (hv : 0x7fffe ≤ v.toNat)
  have hcount := mapCount_le va
  change v.toNat < va.toNat / 4096 + mapCount va at hhi
  omega

/-- A file with one segment of eight bytes is loaded. -/
theorem sampleLoad_word {flags : BitVec 32} {va : Word} (hseg : segmentType flags ≠ none)
    (hva : va.toNat < 0x7fffd000)
    (hloads : (elfWith [wordAt flags va]).loads = [wordAt flags va]) :
    ∃ s₀ i s s' tf pt ks us mi fl',
      SampleLoaded (elfWith [wordAt flags va]) s₀ i s s' tf pt ks us mi fl' := by
  refine sampleLoad (fun _ _ => rfl) (by simp [hloads]) ?_
  rw [hloads]
  exact wordAt_loadable hseg hva (wordAt_low hva) trivial

/-- **The region table is exact exactly if the headers fit.** For every ELF file that
    `elf_load` accepts on a process fresh from `alloc_process`. -/
theorem regionTable_exact_iff {s₀ : Kernel} (hfree : FreeList s₀.phys fl)
    (hmade : allocProcess L s₀ = .ret i s) (hload : elfLoad f i s = .ret .elOk s') :
    RegionTableExact f i s s' ↔ RegionsFit f := by
  obtain ⟨-, tf, pt, ks, us, mi, fl', hm⟩ := Prog.wp_ret (allocProcess_made hfree) hmade
  have hrun := elfLoad_run hload
  exact ⟨fun h => h.fit hm hrun, fun h => h.exact hm hrun⟩

theorem regionTable_exact_sample : ∃ s₀ fl i s s', FreeList s₀.phys fl ∧
    allocProcess sampleLayout s₀ = .ret i s ∧
    elfLoad (elfWith [wordAt 5 0x10000]) i s = .ret .elOk s' ∧
    RegionTableExact (elfWith [wordAt 5 0x10000]) i s s' := by
  have hloads : (elfWith [wordAt 5 0x10000]).loads = [wordAt 5 0x10000] := rfl
  have htable : (elfWith [wordAt 5 0x10000]).tableLoads = [wordAt 5 0x10000] := rfl
  obtain ⟨s₀, i, s, s', -, -, -, -, -, -, ⟨hfree, hrun, hok, -, -⟩⟩ :=
    sampleLoad_word (by decide) (by decide) hloads
  refine ⟨s₀, _, i, s, s', hfree, hrun, hok,
    (regionTable_exact_iff hfree hrun hok).mpr ⟨?_, ?_, ?_⟩⟩
  · rw [htable]
    decide
  · rw [htable]
    simp
  · rw [hloads, htable]

/-- A first segment at address 0 is overwritten in the region table by the second. -/
theorem regionTable_overwritten : ∃ s₀ fl i s s', FreeList s₀.phys fl ∧
    allocProcess sampleLayout s₀ = .ret i s ∧
    elfLoad (elfWith [wordAt 5 0, wordAt 5 0x10000]) i s = .ret .elOk s' ∧
    ¬ RegionTableExact (elfWith [wordAt 5 0, wordAt 5 0x10000]) i s s' := by
  have hloads : (elfWith [wordAt 5 0, wordAt 5 0x10000]).loads = [wordAt 5 0, wordAt 5 0x10000] :=
    rfl
  have htable : (elfWith [wordAt 5 0, wordAt 5 0x10000]).tableLoads =
      [wordAt 5 0, wordAt 5 0x10000] := rfl
  have hload : Loadable highPages (elfWith [wordAt 5 0, wordAt 5 0x10000]).loads := by
    rw [hloads]
    refine wordAt_loadable (by decide) (by decide) (wordAt_low (by decide))
      (wordAt_loadable (by decide) (by decide) ?_ trivial)
    rintro v hv (hv' | hv')
    · exact wordAt_low (by decide) v hv hv'
    · have h1 : 16 ≤ v.toNat := hv.1
      have h2 : v.toNat < 0 + 1 := hv'.2
      omega
  obtain ⟨s₀, i, s, s', tf, pt, ks, us, mi, fl', ⟨hfree, hrun, hok, hmade, -⟩⟩ :=
    sampleLoad (fun _ _ => rfl) (by rw [hloads]; decide) hload
  refine ⟨s₀, _, i, s, s', hfree, hrun, hok, fun hexact => ?_⟩
  have hfit := hexact.fit hmade (elfLoad_run hok)
  have hnz := hfit.nonzero
  rw [htable] at hnz
  exact hnz (wordAt 5 0) (by simp) rfl

end Pke
