import Pke.Boot.Paging
import Pke.Space.Fork
import Pke.Kernel.Elf

/-!
# Loading the application into an empty process

Each PT_LOAD header gets one page, mapped at its address with all permissions,
filled from the file and recorded as a region. When the address is that of a
page, this keeps the memory of the process in order (`Loading`).
-/

namespace Pke

open Lib Radix

variable {iso : Prop} {L : Layout} {V : View} {P : Set Pid} {i : Pid} {s s' : Kernel}
  {ph ph' : Phys} {fl fl' : List Ppn} {p : Ppn} {f : HostFile}

/-! ## The page of a segment -/

/-- The permissions of a loaded page. -/
abbrev elfPerm : Word := protToType (PROT_WRITE ||| PROT_READ ||| PROT_EXEC) 1

theorem elf_leaf_user (pa : Word) : mkPte pa elfPerm &&& PTE_U ≠ 0 := by
  rw [mkPte_and_flag _ _ (by decide)]
  decide

theorem elf_leaf_readable (pa : Word) : mkPte pa elfPerm &&& PTE_R ≠ 0 := by
  rw [mkPte_and_flag _ _ (by decide)]
  decide

theorem elf_leaf_ppn (p : Ppn) : ptePpn (mkPte (addr p) elfPerm) = p := by
  rw [ptePpn_mkPte _ (by decide), ppn_addr]

/-- A fresh page `p` is mapped at `va` in process `i`. -/
structure PageLoaded (iso : Prop) (L : Layout) (V : View) (i : Pid) (va : Word) (ph : Phys)
    (fl : List Ppn) (p : Ppn) (ph' : Phys) (fl' : List Ppn) : Prop where
  space : Space iso L V ph' fl'
  fresh : p ∈ fl
  low : va < MAXVA
  unmapped : V.leaf ph i (vpn va) = none
  spare : V.Spare ph' fl' p
  leaf : ∀ j ∈ V.all, ∀ v, V.leaf ph' j v =
    if j = i ∧ v = vpn va then some (mkPte (addr p) elfPerm) else V.leaf ph j v
  info : ∀ j ∈ V.ready, ph'.mem ((V.procs j).own .info) = ph.mem ((V.procs j).own .info)
  managed : ∀ q, Managed ph q → Managed ph' q
  length : fl.length ≤ fl'.length + 3
  image : SameImage L ph.mem ph'.mem

/-- `elf_alloc_mb` for a segment at the address of a page. -/
theorem elfAllocMb_spec (h : Space iso L V ph fl) (hi : i ∈ V.all) {va size : Word}
    (hva : va % PGSIZE = 0) :
    Prog.wp (elfAllocMb (V.procs i).pagetable va size)
      (fun pa ph' => ∃ p fl', pa = addr p ∧ size < PGSIZE ∧ PageLoaded iso L V i va ph fl p ph' fl')
      (fun _ => False)
      (fun _ => ¬ (size < PGSIZE ∧ va < MAXVA ∧ V.leaf ph i (vpn va) = none ∧
        3 ≤ fl.length)) ph := by
  unfold elfAllocMb
  by_cases hsize : PGSIZE ≤ size
  · rw [if_pos hsize]
    exact fun hc => absurd hsize (BitVec.not_le.mpr hc.1)
  rw [if_neg hsize, Prog.wp_bind]
  refine allocPage_space h (fun hnil => ?_) fun p fl₁ g hfl hs hp _ => ?_
  · rw [if_pos rfl]
    rintro ⟨-, -, -, hlen⟩
    simp [hnil] at hlen
  have hp0 : p ≠ 0 := hs.managed_ne_zero hp.managed
  rw [if_neg (mt addr_eq_zero.mp hp0), Prog.wp_bind]
  refine (Prog.wp_of_ret (physMemset_eq hp0 0 4096 _)).mpr ?_
  obtain ⟨hs₁, hfresh⟩ := hs.writeFresh hp (m := memset ph.mem (addr p) 0 4096)
    (fun q hq => by rw [memset_page, Function.update_of_ne hq])
  have hp₁ := hfresh p hp
  have himage₁ : SameImage L ph.mem (memset ph.mem (addr p) 0 4096) := fun q hq => by
    rw [memset_page, Function.update_of_ne (h.image_ne_managed hq hp.managed)]
  have hinfo₁ : ∀ j ∈ V.ready, memset ph.mem (addr p) 0 4096 ((V.procs j).own .info) =
      ph.mem ((V.procs j).own .info) := fun j hj => by
    rw [memset_page, Function.update_of_ne (hp.spare.own j (hs.ready_sub hj) .info).symm]
  have hleaf₁ : ∀ j ∈ V.all, ∀ v,
      V.leaf { ph with mem := memset ph.mem (addr p) 0 4096, gFreeMemList := g } j v =
        V.leaf ph j v := fun j hj v => by
    refine translate_congr (fun q hq => ?_) (View.root_mem hj) v
    have hqp : q ≠ p := fun e => hp.spare.table (e ▸ hq)
    rw [memset_page]
    exact Function.update_of_ne hqp _ _
  generalize memset ph.mem (addr p) 0 4096 = m at *
  rw [Prog.wp_bind]
  refine Prog.wp_mono (userVmMap_space hs₁ hi (Or.inr ⟨rfl, hva⟩)) ?_ (fun _ h => h) ?_
  · rintro _ ph₂ ⟨fl₂, hlow, hmap, hlen, -⟩
    have hnone : V.leaf ph i (vpn va) = none := (hleaf₁ i hi _).symm.trans hmap.unmapped
    have he := hs₁.evolves_grow hmap.grow
    have hs₂ := hs₁.mapOne hi hmap (hp₁.newLeaf i _ (elf_leaf_ppn p) (elf_leaf_user _)
      (elf_leaf_readable _))
    refine ⟨p, fl₂, rfl, BitVec.not_le.mp hsize, hs₂, ?_, hlow, hnone, hp₁.spare.evolve he,
      fun j hj v => ?_, fun j hj => (he.info j hj).trans (hinfo₁ j hj),
      fun q hq => Managed.evolve (by exact hq) he, ?_, himage₁.trans fun q hq => ?_⟩
    · rw [hfl]
      exact List.mem_cons_self
    · rw [hs₁.leaf_mapOne hi hmap hj, hleaf₁ j hj]
    · rw [hfl, List.length_cons]
      omega
    · exact hmap.grow.frame q (hs₂.image_not_table hq)
  · rintro _ hn ⟨-, hlow, hnone, hlen⟩
    refine hn.1 ⟨hlow, (hleaf₁ i hi _).trans hnone, Or.inl ?_⟩
    rw [hfl, List.length_cons] at hlen
    omega

/-- Reading from the file writes the page of the destination. -/
theorem foldl_store8_of_ne {q : Ppn} (hq : q ≠ p) (g : ℕ → BitVec 8) :
    ∀ (n : ℕ) (m : Mem), n ≤ 4096 →
      (List.range n).foldl (fun m k => store8 m (addr p + BitVec.ofNat 64 k) (g k)) m q = m q := by
  intro n
  induction n with
  | zero => exact fun m _ => rfl
  | succ n ih =>
    intro m hn
    rw [List.range_succ, List.foldl_append, List.foldl_cons, List.foldl_nil, store8_of_ne]
    · exact ih m (by omega)
    · rw [ppn_addr_add p (by rw [BitVec.toNat_ofNat]; omega)]
      exact hq

theorem elfFpread_eq (f : HostFile) (p : Ppn) {n : Word} (hn : n < PGSIZE) (off : Word)
    (ph : Phys) : ∃ m, elfFpread f (addr p) n off ph = .ret (f.pread off n) { ph with mem := m } ∧
      ∀ q, q ≠ p → m q = ph.mem q := by
  refine ⟨_, rfl, fun q hq => foldl_store8_of_ne hq _ _ _ ?_⟩
  rw [BitVec.lt_def, show PGSIZE.toNat = 4096 from rfl] at hn
  split_ifs with hle
  · rw [BitVec.le_def] at hle
    omega
  · omega

/-- The bytes that were written, one after the other. -/
theorem foldl_store8_byte (p : Ppn) (g : ℕ → BitVec 8) (m : Mem) :
    ∀ n ≤ 4096, ∀ y < 4096,
      load8 ((List.range n).foldl (fun m k => store8 m (addr p + BitVec.ofNat 64 k) (g k)) m)
        (addr p + BitVec.ofNat 64 y) =
      if y < n then g y else load8 m (addr p + BitVec.ofNat 64 y) := by
  intro n
  induction n with
  | zero => exact fun _ y _ => rfl
  | succ n ih =>
    intro hn y hy
    have hinj : addr p + BitVec.ofNat 64 n = addr p + BitVec.ofNat 64 y ↔ n = y := by
      rw [BitVec.add_right_inj, ← BitVec.toNat_inj, BitVec.toNat_ofNat, BitVec.toNat_ofNat]
      omega
    rw [List.range_succ, List.foldl_append, List.foldl_cons, List.foldl_nil, load8_store8,
      ih (by omega) y hy]
    simp only [hinj]
    by_cases hny : n = y
    · subst hny
      rw [if_pos rfl, if_pos (by omega)]
    · rw [if_neg hny]
      exact if_congr (by omega) rfl rfl

/-- What `elf_fpread` delivers when the whole of it could be read. -/
theorem elfFpread_bytes {n off got : Word} (hn : n < PGSIZE) (hall : f.pread off n = n)
    (hrun : elfFpread f (addr p) n off ph = .ret got ph') {y : ℕ} (hy : y < 4096) :
    load8 ph'.mem (addr p + BitVec.ofNat 64 y) =
      if y < n.toNat then f.byte (off.toNat + y)
      else load8 ph.mem (addr p + BitVec.ofNat 64 y) := by
  have hmem : ph'.mem = (List.range n.toNat).foldl
      (fun m k => store8 m (addr p + BitVec.ofNat 64 k) (f.byte (off.toNat + k))) ph.mem := by
    have hphys := (Out.ret.inj hrun).2
    rw [← hphys]
    dsimp only
    rw [hall, if_pos (BitVec.le_refl n)]
  rw [BitVec.lt_def, show PGSIZE.toNat = 4096 from rfl] at hn
  rw [hmem]
  exact foldl_store8_byte p _ _ _ (by omega) y hy

/-! ## Recording a segment -/

/-- The first unused entry lies behind the regions of `alloc_process`, at the end
    of the list at the latest. -/
theorem freeRegion_bounds {m : Mem} {a : AddrSpace} {n : ℕ} (h : Regions L m a n) (hn : n < 256)
    (hzero : regionVa m a n = 0) (htf : a.trapframe ≠ 0) :
    3 ≤ freeRegion m a.mappedInfo ∧ freeRegion m a.mappedInfo ≤ n ∧
      (freeRegion m a.mappedInfo ≠ n → regionVa m a (freeRegion m a.mappedInfo) = 0) := by
  have hts : L.trapSecStart ≠ 0 := by
    intro h0
    have := L.base_le_trapSec
    rw [h0] at this
    exact absurd this (by decide)
  unfold freeRegion
  cases hf : (List.range 256).find? fun j => load64 m (regionAddr a.mappedInfo j) = 0 with
  | none =>
    rw [List.find?_eq_none] at hf
    exact absurd hzero (by simpa [regionVa] using hf n (List.mem_range.mpr hn))
  | some j =>
    obtain ⟨hj, k, hk, rfl, hbefore⟩ := List.find?_eq_some_iff_getElem.mp hf
    rw [List.getElem_range] at *
    rw [Option.getD_some]
    have hjz : regionVa m a k = 0 := by simpa [regionVa] using hj
    refine ⟨?_, ?_, fun _ => hjz⟩
    · by_contra hlt
      have hcases : k = 0 ∨ k = 1 ∨ k = 2 := by omega
      rcases hcases with rfl | rfl | rfl
      · rw [h.stack.1] at hjz
        exact absurd hjz (by decide)
      · exact htf (h.context.1.symm.trans hjz)
      · exact hts (h.system.1.symm.trans hjz)
    · by_contra hlt
      have := hbefore n (by omega)
      rw [List.getElem_range] at this
      exact absurd hzero (by simpa [regionVa] using this)

/-- The type that the loader gives a segment. -/
def segmentType (flags : BitVec 32) : Option SegType :=
  if flags = SEGMENT_READABLE ||| SEGMENT_EXECUTABLE then some .CODE
  else if flags = SEGMENT_READABLE ||| SEGMENT_WRITABLE then some .DATA
  else none

/-- What recording the segment `h` for process `i` does: region `j` describes it
    and the list is one longer. -/
structure SegmentRecorded (i : Pid) (h : ElfProgHeader) (s : Kernel) (j : ℕ) (seg : SegType)
    (s' : Kernel) : Prop where
  type : segmentType h.flags = some seg
  rest : s' = { s with
    phys := { s.phys with mem := recordRegion s.phys.mem (s.procs i).space j h.vaddr 1 seg }
    procs := Function.update s.procs i
      { s.procs i with totalMappedRegion := (s.procs i).totalMappedRegion + 1 }
    console := s'.console }

theorem recordSegment_spec (i : Pid) (h : ElfProgHeader) (s : Kernel) :
    Prog.wp (recordSegment i h)
      (fun _ s' => ∃ seg, SegmentRecorded i h s
        (freeRegion s.phys.mem (s.procs i).mappedInfo) seg s')
      (fun _ => False) (fun _ => segmentType h.flags = none) s := by
  unfold recordSegment
  rw [proc, Prog.wp_bind, Prog.wp_gets, Prog.wp_bind, wp_onPhys, Prog.wp_gets]
  generalize freeRegion s.phys.mem (s.procs i).mappedInfo = j
  have hstore := fun seg => storeRegion_eq (a := (s.procs i).space) s.phys j h.vaddr 1 seg
  by_cases hc : h.flags = SEGMENT_READABLE ||| SEGMENT_EXECUTABLE
  · rw [if_pos hc, Prog.wp_bind, wp_onPhys]
    refine (Prog.wp_of_ret (hstore .CODE)).mpr ?_
    rw [sprint, Prog.wp_bind, Prog.wp_modify, setProc, Prog.wp_modify]
    exact ⟨.CODE, if_pos hc, rfl⟩
  · rw [if_neg hc]
    by_cases hd : h.flags = SEGMENT_READABLE ||| SEGMENT_WRITABLE
    · rw [if_pos hd, Prog.wp_bind, wp_onPhys]
      refine (Prog.wp_of_ret (hstore .DATA)).mpr ?_
      rw [sprint, Prog.wp_bind, Prog.wp_modify, setProc, Prog.wp_modify]
      exact ⟨.DATA, (if_neg hc).trans (if_pos hd), rfl⟩
    · rw [if_neg hd, Prog.wp_bind]
      exact (if_neg hc).trans (if_neg hd)

/-! ## One segment -/

/-- An entry of the list of regions behind the first three: one of the pages `S`, or
    unused. -/
def RegionIn (S : Set Vpn) (m : Mem) (a : AddrSpace) (k : ℕ) : Prop :=
  (regionVa m a k < MAXVA ∧ vpn (regionVa m a k) ∈ S) ∨ regionVa m a k = 0

/-- The page `v` is mapped for user mode. -/
def UserMapped (m : Mem) (r : Ppn) (v : Vpn) : Prop :=
  ∃ w, translate m r v = some w ∧ w &&& PTE_U ≠ 0

/-- While process `i` is being loaded: its memory is in order, the entries behind
    its list of regions are unused, user mode can only reach the pages `S`, and the stack
    and the regions are mapped for it. -/
structure Loading (iso : Prop) (L : Layout) (P : Set Pid) (i : Pid) (S : Set Vpn) (s : Kernel)
    (fl : List Ppn) : Prop where
  space : Space iso L (s.view P P) s.phys fl
  zeros : ∀ k, (s.procs i).totalMappedRegion ≤ k → k < 256 →
    regionVa s.phys.mem (s.procs i).space k = 0 ∧ regionSecond s.phys.mem (s.procs i).space k = 0
  pages : ∀ v w, translate s.phys.mem (s.procs i).space.root v = some w → w &&& PTE_U ≠ 0 → v ∈ S
  vas : ∀ k, 3 ≤ k → k < 256 → RegionIn S s.phys.mem (s.procs i).space k
  stack : UserMapped s.phys.mem (s.procs i).space.root stackVpn
  mapped : ∀ k, 3 ≤ k → k < (s.procs i).totalMappedRegion →
    UserMapped s.phys.mem (s.procs i).space.root (vpn (regionVa s.phys.mem (s.procs i).space k))

/-- The effect of loading the segment `h`. -/
structure SegmentLoaded (L : Layout) (P : Set Pid) (i : Pid) (h : ElfProgHeader) (s : Kernel)
    (fl : List Ppn) (s' : Kernel) : Prop where
  rest : s' = { s with
    phys := s'.phys
    procs := Function.update s.procs i
      { s.procs i with totalMappedRegion := (s.procs i).totalMappedRegion + 1 }
    console := s'.console }
  leaf : ∃ p ∈ fl, ∀ j ∈ P, ∀ v, translate s'.phys.mem (s.procs j).space.root v =
    if j = i ∧ v = vpn h.vaddr then some (mkPte (addr p) elfPerm)
    else translate s.phys.mem (s.procs j).space.root v
  region : ∃ k seg, 3 ≤ k ∧ k ≤ (s.procs i).totalMappedRegion ∧
    segmentType h.flags = some seg ∧ regionVa s'.phys.mem (s.procs i).space k = h.vaddr ∧
    regionSeg s'.phys.mem (s.procs i).space k = some seg
  managed : ∀ q, Managed s.phys q → Managed s'.phys q
  image : SameImage L s.phys.mem s'.phys.mem

/-- The header describes a segment that can be loaded now. -/
def SegmentOk (s : Kernel) (i : Pid) (fl : List Ppn) (h : ElfProgHeader) : Prop :=
  h.memsz < PGSIZE ∧ h.vaddr < MAXVA ∧
    translate s.phys.mem (s.procs i).space.root (vpn h.vaddr) = none ∧ 3 ≤ fl.length ∧
    segmentType h.flags ≠ none

/-- The memory between mapping a page and recording it. -/
theorem PageLoaded.read (h : PageLoaded iso L V i va ph fl p ph' fl') {m : Mem}
    (hm : ∀ q, q ≠ p → m q = ph'.mem q) :
    PageLoaded iso L V i va ph fl p { ph' with mem := m } fl' := by
  have he := h.space.evolves_write hm h.spare.free h.spare.table fun j hj =>
    h.spare.own j (h.space.ready_sub hj) .info
  refine ⟨h.space.writeSpare h.spare hm, h.fresh, h.low, h.unmapped, h.spare.evolve he,
    fun j hj v => ?_,
    fun j hj => (he.info j hj).trans (h.info j hj), h.managed, h.length,
    h.image.trans fun q hq => hm q (h.space.image_ne_spare hq h.spare)⟩
  exact (leaf_write hm h.spare.table hj v).trans (h.leaf j hj v)

/-- A loaded page is none of the kernel mappings. -/
theorem PageLoaded.regionOk (h : PageLoaded iso L V i va ph fl p ph' fl') (hs : Space iso L V ph fl)
    (hi : i ∈ V.ready) (hva : va % PGSIZE = 0) {m : Mem} {k : ℕ} (hk : k < 256) {seg : SegType}
    (hseg : seg = .CODE ∨ seg = .DATA) :
    RegionOk L (recordRegion m (V.procs i) k va 1 seg) (V.procs i) k := by
  have hr := hs.ready i hi
  have hnone := h.unmapped
  have htf : vpn va ≠ vpn (V.procs i).trapframe := by
    intro heq
    rw [heq, View.leaf, hr.trapframe] at hnone
    cases hnone
  have hts : vpn va ≠ vpn L.trapSecStart := by
    intro heq
    rw [heq, View.leaf, hr.trapSec] at hnone
    cases hnone
  rw [RegionOk, regionSeg_recordRegion hk hk, regionVa_recordRegion hk hk,
    regionPages_recordRegion hk hk, if_pos rfl, if_pos rfl, if_pos rfl]
  rcases hseg with rfl | rfl
  · exact Or.inl ⟨rfl, htf, hts⟩
  · exact Or.inr ⟨rfl, rfl, hva⟩

/-- An unused entry passes as a region of code. -/
theorem Space.regionOk_zero (h : Space iso L V ph fl) (hi : i ∈ V.all) {m : Mem} {k : ℕ}
    (hva : regionVa m (V.procs i) k = 0) (hsec : regionSecond m (V.procs i) k = 0) :
    RegionOk L m (V.procs i) k := by
  have h1 := h.trapframe_toNat hi
  have h2 := h.trapSec_toNat hi
  refine Or.inl ⟨?_, ?_, ?_⟩
  · rw [regionSeg, hsec]
    rfl
  · rw [hva]
    exact vpn_ne (by simp) (by omega) (by simp; omega)
  · rw [hva]
    exact vpn_ne (by simp) (by omega) (by simp; omega)

theorem segmentType_cases {flags : BitVec 32} {seg : SegType} (h : segmentType flags = some seg) :
    seg = .CODE ∨ seg = .DATA := by
  unfold segmentType at h
  split_ifs at h <;> cases h
  · exact Or.inl rfl
  · exact Or.inr rfl

/-- The page of the segment was mapped. -/
theorem Loading.page {S : Set Vpn} {ph₂ : Phys} (hl : Loading iso L P i S s fl) (hi : i ∈ P)
    (hS : vpn va ∈ S) (hp : PageLoaded iso L (s.view P P) i va s.phys fl p ph₂ fl') :
    Loading iso L P i S { s with phys := ph₂ } fl' := by
  have hal : (s.procs i).space.Aligned := hp.space.aligned i hi
  have hinfo : ph₂.mem ((s.procs i).space.own .info) = s.phys.mem ((s.procs i).space.own .info) :=
    hp.info i hi
  have hhi : (s.procs i).totalMappedRegion ≤ 256 := (hl.space.ready i hi).regions.hi
  have hleaf : ∀ v, translate ph₂.mem (s.procs i).space.root v =
      if i = i ∧ v = vpn va then some (mkPte (addr p) elfPerm)
      else translate s.phys.mem (s.procs i).space.root v := hp.leaf i hi
  have hkeep : ∀ v, UserMapped s.phys.mem (s.procs i).space.root v →
      UserMapped ph₂.mem (s.procs i).space.root v := by
    rintro v ⟨w, hw, hU⟩
    unfold UserMapped
    rw [hleaf v]
    split_ifs with hc
    · exact ⟨_, rfl, elf_leaf_user _⟩
    · exact ⟨w, hw, hU⟩
  refine ⟨hp.space, fun k hk hk' => ?_, fun v w hw hU => ?_, fun k hk hk' => ?_,
    hkeep _ hl.stack, fun k hk hk' => ?_⟩
  · rw [regionVa_congr hal hinfo hk', regionSecond_congr hal hinfo hk']
    exact hl.zeros k hk hk'
  · rw [hleaf v] at hw
    split_ifs at hw with hc
    · rw [hc.2]
      exact hS
    · exact hl.pages v w hw hU
  · rw [RegionIn, regionVa_congr hal hinfo hk']
    exact hl.vas k hk hk'
  · have hk256 : k < 256 := lt_of_lt_of_le hk' hhi
    rw [regionVa_congr hal hinfo hk256]
    exact hkeep _ (hl.mapped k hk hk')

/-- The entry of the list of regions that the segment gets. -/
theorem Loading.freeRegion_bounds {S : Set Vpn} (hl : Loading iso L P i S s fl) (hi : i ∈ P)
    (htotal : (s.procs i).totalMappedRegion < 256) :
    3 ≤ freeRegion s.phys.mem (s.procs i).mappedInfo ∧
      freeRegion s.phys.mem (s.procs i).mappedInfo ≤ (s.procs i).totalMappedRegion ∧
      (freeRegion s.phys.mem (s.procs i).mappedInfo ≠ (s.procs i).totalMappedRegion →
        regionVa s.phys.mem (s.procs i).space
          (freeRegion s.phys.mem (s.procs i).mappedInfo) = 0) := by
  have hregs : Regions L s.phys.mem (s.procs i).space (s.procs i).totalMappedRegion :=
    (hl.space.ready i hi).regions
  have htf : (s.procs i).space.trapframe ≠ 0 := by
    have h0 := hl.space.trapframe_toNat hi
    intro heq
    rw [show ((s.view P P).procs i).trapframe = 0 from heq] at h0
    simp at h0
  exact Pke.freeRegion_bounds (a := (s.procs i).space) hregs htotal (hl.zeros _ le_rfl htotal).1 htf

/-- A page that is mapped was recorded as a region. -/
theorem Loading.recorded {S : Set Vpn} {npages : BitVec 32} {seg : SegType} {j : ℕ}
    (hl : Loading iso L P i S s fl) (hi : i ∈ P) (htotal : (s.procs i).totalMappedRegion < 256)
    (h3 : 3 ≤ j) (hle : j ≤ (s.procs i).totalMappedRegion)
    (hfirst : j ≠ (s.procs i).totalMappedRegion →
      regionVa s.phys.mem (s.procs i).space j = 0)
    (hok : RegionOk L (recordRegion s.phys.mem (s.procs i).space j va npages seg)
      (s.procs i).space j)
    (hlow : va < MAXVA) (hS : vpn va ∈ S)
    (hpage : UserMapped s.phys.mem (s.procs i).space.root (vpn va)) (c : List Msg) :
    Loading iso L P i S { s with
      phys := { s.phys with mem := recordRegion s.phys.mem (s.procs i).space j va npages seg }
      procs := Function.update s.procs i
        { s.procs i with totalMappedRegion := (s.procs i).totalMappedRegion + 1 }
      console := c } fl := by
  have hal : (s.procs i).space.Aligned := hl.space.aligned i hi
  have hregs : Regions L s.phys.mem (s.procs i).space (s.procs i).totalMappedRegion :=
    (hl.space.ready i hi).regions
  have hj : j < 256 := by omega
  have hne : ∀ q, q ≠ (s.procs i).space.own .info →
      recordRegion s.phys.mem (s.procs i).space j va npages seg q = s.phys.mem q := fun q hq =>
    recordRegion_of_ne hal hj hq
  have hregs' := hregs.record h3 hle htotal hok fun _ => by
    obtain ⟨hz1, hz2⟩ := hl.zeros _ le_rfl htotal
    exact hl.space.regionOk_zero hi hz1 hz2
  obtain ⟨-, htab, -⟩ := hl.space.own_apart i hi .info
  have hleaf : ∀ v, translate (recordRegion s.phys.mem (s.procs i).space j va npages seg)
      (s.procs i).space.root v = translate s.phys.mem (s.procs i).space.root v := fun v =>
    leaf_write (V := s.view P P) hne htab hi v
  have hmapped : ∀ v, UserMapped s.phys.mem (s.procs i).space.root v →
      UserMapped (recordRegion s.phys.mem (s.procs i).space j va npages seg)
        (s.procs i).space.root v := fun v h => by
    rwa [UserMapped, hleaf v]
  have hproc : (Function.update s.procs i { s.procs i with
      totalMappedRegion := (s.procs i).totalMappedRegion + 1 } i).space = (s.procs i).space := by
    rw [Function.update_self]
    rfl
  have htot : (Function.update s.procs i { s.procs i with
      totalMappedRegion := (s.procs i).totalMappedRegion + 1 } i).totalMappedRegion =
      (s.procs i).totalMappedRegion + 1 := by
    rw [Function.update_self]
  refine ⟨?_, ?_, ?_, ?_, ?_, ?_⟩ <;> dsimp only
  · rw [view_setTotal]
    exact hl.space.setInfo hi hne fun _ => hregs'
  · rw [hproc, htot]
    intro k hk hk'
    rw [regionVa_recordRegion hj hk', regionSecond_recordRegion hj hk', if_neg (by omega),
      if_neg (by omega)]
    exact hl.zeros k (by omega) hk'
  · rw [hproc]
    intro v w hw hU
    exact hl.pages v w ((hleaf v).symm.trans hw) hU
  · rw [hproc]
    intro k hk hk'
    rw [RegionIn, regionVa_recordRegion hj hk']
    split_ifs with hkj
    · exact Or.inl ⟨hlow, hS⟩
    · exact hl.vas k hk hk'
  · rw [hproc]
    exact hmapped _ hl.stack
  · rw [hproc, htot]
    intro k hk hk'
    refine hmapped _ ?_
    rw [regionVa_recordRegion hj (by omega)]
    split_ifs with hkj
    · exact hpage
    · -- the entry behind the list is unused, as the one that was taken had been
      by_cases hlast : k = (s.procs i).totalMappedRegion
      · have hzero := hfirst fun heq => hkj (hlast.trans heq.symm)
        have hpage := hl.mapped j h3 (by omega)
        rw [hlast, (hl.zeros _ le_rfl htotal).1, ← hzero]
        exact hpage
      · exact hl.mapped k hk (by omega)

theorem Loading.record {S : Set Vpn} {hd : ElfProgHeader} {seg : SegType} {ph₂ : Phys}
    (hl : Loading iso L P i S s fl) (hi : i ∈ P) (hva : hd.vaddr % PGSIZE = 0)
    (htotal : (s.procs i).totalMappedRegion < 256) (hS : vpn hd.vaddr ∈ S)
    (hp : PageLoaded iso L (s.view P P) i hd.vaddr s.phys fl p ph₂ fl')
    (hrec : SegmentRecorded i hd { s with phys := ph₂ }
      (freeRegion ph₂.mem (s.procs i).mappedInfo) seg s') :
    Loading iso L P i S s' fl' ∧ SegmentLoaded L P i hd s fl s' := by
  have hl₂ := hl.page hi hS hp
  obtain ⟨h3, hle, hfirst⟩ := hl₂.freeRegion_bounds hi htotal
  have hrest := hrec.rest
  have hseg := hrec.type
  dsimp only at h3 hle hfirst hrest
  generalize freeRegion ph₂.mem (s.procs i).mappedInfo = j at *
  have hj : j < 256 := by omega
  have hok : RegionOk L (recordRegion ph₂.mem (s.procs i).space j hd.vaddr 1 seg)
      (s.procs i).space j := hp.regionOk hl.space hi hva hj (segmentType_cases hseg)
  have hpage : UserMapped ph₂.mem (s.procs i).space.root (vpn hd.vaddr) :=
    ⟨_, (hp.leaf i hi _).trans (if_pos ⟨rfl, rfl⟩), elf_leaf_user _⟩
  have hl' := hl₂.recorded hi htotal h3 hle hfirst hok hp.low hS hpage s'.console
  have hne : ∀ q, q ≠ (s.procs i).space.own .info →
      recordRegion ph₂.mem (s.procs i).space j hd.vaddr 1 seg q = ph₂.mem q := fun q hq =>
    recordRegion_of_ne (hp.space.aligned i hi) hj hq
  obtain ⟨-, htab, -⟩ := hp.space.own_apart i hi .info
  have hmem : s'.phys.mem = recordRegion ph₂.mem (s.procs i).space j hd.vaddr 1 seg := by rw [hrest]
  refine ⟨by rw [hrest]; exact hl', by rw [hrest], ⟨p, hp.fresh, fun j hj v => ?_⟩,
    ⟨j, seg, h3, hle, hseg, ?_, ?_⟩, fun q hq => ?_, ?_⟩
  · rw [hmem]
    exact (leaf_write (V := s.view P P) hne htab hj v).trans (hp.leaf j hj v)
  · rw [hmem, regionVa_recordRegion hj hj, if_pos rfl]
  · rw [hmem, regionSeg_recordRegion hj hj, if_pos rfl]
  · rw [hrest]
    exact hp.managed q hq
  · rw [hmem]
    exact hp.image.trans fun q hq => hne q (hp.space.image_ne_own hq hi .info)

/-- **One segment** at the address of a page is loaded in order. -/
theorem wp_loadSegment {S : Set Vpn} {hd : ElfProgHeader} {k : KernelM ElfStatus}
    {R : ElfStatus → Kernel → Prop} {E : Kernel → Prop} {H : Halt → Prop}
    (hl : Loading iso L P i S s fl) (hi : i ∈ P) (hva : hd.vaddr % PGSIZE = 0)
    (htotal : (s.procs i).totalMappedRegion < 256) (hS : vpn hd.vaddr ∈ S)
    (hhalt : ∀ e, ¬ SegmentOk s i fl hd → H e)
    (hfail : f.pread hd.off hd.memsz ≠ hd.memsz → ∀ s', R .elEio s')
    (hk : ∀ s' fl', Loading iso L P i S s' fl' → SegmentLoaded L P i hd s fl s' →
      fl.length ≤ fl'.length + 3 → Prog.wp k R E H s') :
    Prog.wp (do
      let p ← proc i
      let dest ← onPhys (elfAllocMb p.pagetable hd.vaddr hd.memsz)
      let got ← onPhys (elfFpread f dest hd.memsz hd.off)
      if got ≠ hd.memsz then return .elEio
      else do
        recordSegment i hd
        k) R E H s := by
  rw [proc, Prog.wp_bind, Prog.wp_gets, Prog.wp_bind, wp_onPhys]
  refine Prog.wp_mono (elfAllocMb_spec hl.space hi hva) ?_ (fun _ h => h.elim) ?_
  · rintro _ ph₁ ⟨p, fl₁, rfl, hsize, hpage⟩
    obtain ⟨m, hread, hm⟩ := elfFpread_eq f p hsize hd.off ph₁
    rw [Prog.wp_bind, wp_onPhys]
    refine (Prog.wp_of_ret hread).mpr ?_
    have hpage₂ := hpage.read hm
    by_cases hgot : f.pread hd.off hd.memsz ≠ hd.memsz
    · rw [if_pos hgot]
      exact hfail hgot _
    rw [if_neg hgot, Prog.wp_bind]
    refine Prog.wp_mono (recordSegment_spec i hd _) ?_ (fun _ h => h.elim) ?_
    · rintro _ s₃ ⟨seg, hrec⟩
      obtain ⟨hl₃, hloaded⟩ := hl.record hi hva htotal hS hpage₂ hrec
      exact hk s₃ fl₁ hl₃ hloaded hpage.length
    · exact fun e hnone => hhalt e fun hok => hok.2.2.2.2 hnone
  · exact fun e hn => hhalt e fun hok => hn ⟨hok.1, hok.2.1, hok.2.2.1, hok.2.2.2.1⟩

/-! ## All segments -/

/-- The PT_LOAD headers among `n` program headers, the first at `off`. -/
def loadHeaders (f : HostFile) : ℕ → BitVec 32 → List ElfProgHeader
  | 0, _ => []
  | n + 1, off =>
    let ph := f.progHeader (off.signExtend 64 : Word).toNat
    if ph.type = ELF_PROG_LOAD then ph :: loadHeaders f n (off + 56) else loadHeaders f n (off + 56)

/-- The PT_LOAD headers that `elf_load` meets. -/
def HostFile.loads (f : HostFile) : List ElfProgHeader :=
  loadHeaders f f.elfHeader.phnum.toNat (f.elfHeader.phoff.setWidth 32)

/-- Loading works on memory behind the kernel image and on the list of regions of
    process `i`. -/
structure LoadOnly (L : Layout) (i : Pid) (s s' : Kernel) : Prop where
  rest : s' = { s with
    phys := s'.phys
    procs := Function.update s.procs i
      { s.procs i with totalMappedRegion := (s'.procs i).totalMappedRegion }
    console := s'.console }
  image : SameImage L s.phys.mem s'.phys.mem

theorem LoadOnly.of_phys {ph : Phys} (c : List Msg) (himage : SameImage L s.phys.mem ph.mem) :
    LoadOnly L i s { s with phys := ph, console := c } := by
  refine ⟨?_, himage⟩
  rw [show ({ s.procs i with totalMappedRegion := (s.procs i).totalMappedRegion } : Process) =
    s.procs i from rfl, Function.update_eq_self]

theorem LoadOnly.refl (L : Layout) (i : Pid) (s : Kernel) : LoadOnly L i s s :=
  LoadOnly.of_phys s.console (.refl L _)

theorem LoadOnly.trans {s'' : Kernel} (h : LoadOnly L i s s') (h' : LoadOnly L i s' s'') :
    LoadOnly L i s s'' := by
  refine ⟨?_, h.image.trans h'.image⟩
  have hrest := h'.rest
  rw [h.rest] at hrest
  simpa using hrest

theorem SegmentLoaded.total {hd : ElfProgHeader} (h : SegmentLoaded L P i hd s fl s') :
    (s'.procs i).totalMappedRegion = (s.procs i).totalMappedRegion + 1 := by
  rw [h.rest]
  simp

theorem SegmentLoaded.loadOnly {hd : ElfProgHeader} (h : SegmentLoaded L P i hd s fl s') :
    LoadOnly L i s s' := by
  refine ⟨?_, h.image⟩
  rw [h.total]
  exact h.rest

/-- **`elf_load`** of segments at addresses of pages, as long as the list of
    regions has room for them. By induction on the number of headers. -/
theorem elfLoadLoop_spec {S : Set Vpn} (hi : i ∈ P) :
    ∀ (n : ℕ) (off : BitVec 32) (s : Kernel) (fl : List Ppn), Loading iso L P i S s fl →
      (∀ hd ∈ loadHeaders f n off, hd.vaddr % PGSIZE = 0 ∧ vpn hd.vaddr ∈ S) →
      (s.procs i).totalMappedRegion + (loadHeaders f n off).length ≤ 256 →
      Prog.wp (elfLoadLoop f i n off)
        (fun r s' => r = .elOk → ∃ fl', Loading iso L P i S s' fl' ∧ LoadOnly L i s s')
        (fun _ => False) (fun _ => True) s := by
  intro n
  induction n with
  | zero => exact fun off s fl hl _ _ _ => ⟨fl, hl, LoadOnly.refl L i s⟩
  | succ n ih =>
    intro off s fl hl hall htotal
    unfold elfLoadLoop
    by_cases hread : f.pread (off.signExtend 64) 56 ≠ 56
    · rw [if_pos hread]
      exact fun h => nomatch h
    rw [if_neg hread]
    generalize hhd : f.progHeader (off.signExtend 64 : Word).toNat = hd
    extract_lets
    split_ifs with htype hmem hwrap
    · have hskip : loadHeaders f (n + 1) off = loadHeaders f n (off + 56) := by
        rw [loadHeaders, hhd]
        exact if_neg htype
      rw [hskip] at hall htotal
      exact ih _ s fl hl hall htotal
    · exact fun h => nomatch h
    · exact fun h => nomatch h
    · have hcons : loadHeaders f (n + 1) off = hd :: loadHeaders f n (off + 56) := by
        rw [loadHeaders, hhd]
        exact if_pos (not_not.mp htype)
      rw [hcons] at hall htotal
      rw [List.length_cons] at htotal
      obtain ⟨hva, hS⟩ := hall hd List.mem_cons_self
      refine wp_loadSegment hl hi hva (by omega) hS (fun _ _ => trivial)
        (fun _ _ h => nomatch h) fun s₁ fl₁ hl₁ hloaded _ => ?_
      refine Prog.wp_mono (ih _ s₁ fl₁ hl₁ (fun hd' h' => hall hd' (List.mem_cons_of_mem _ h'))
        (by rw [hloaded.total]; omega)) ?_ (fun _ h => h) (fun _ h => h)
      intro r s' hr hok
      obtain ⟨fl', hl', honly⟩ := hr hok
      exact ⟨fl', hl', hloaded.loadOnly.trans honly⟩

/-! ## The whole application -/

theorem Loading.frame_of_ne {S : Set Vpn} (hl : Loading iso L P i S s fl) (hi : i ∈ P) {o : Word}
    (ho : o.toNat < 4096) (v : Word) {q : Ppn} (hq : q ≠ (s.procs i).space.own .trapframe) :
    store64 s.phys.mem ((s.procs i).trapframe + o) v q = s.phys.mem q := by
  have hal : (s.procs i).space.Aligned := hl.space.aligned i hi
  refine store64_of_ne ?_
  rw [show (s.procs i).trapframe = addr ((s.procs i).space.own .trapframe) from
    hal.trapframe.symm, ppn_addr_add _ ho]
  exact hq

/-- A write to the trapframe of the process. -/
theorem Loading.writeFrame {S : Set Vpn} (hl : Loading iso L P i S s fl) (hi : i ∈ P) {o : Word}
    (ho : o.toNat < 4096) (v : Word) :
    Loading iso L P i S { s with phys := { s.phys with
      mem := store64 s.phys.mem ((s.procs i).trapframe + o) v } } fl := by
  have hal : (s.procs i).space.Aligned := hl.space.aligned i hi
  have hm : ∀ q, q ≠ (s.procs i).space.own .trapframe →
      store64 s.phys.mem ((s.procs i).trapframe + o) v q = s.phys.mem q := fun _ =>
    hl.frame_of_ne hi ho v
  obtain ⟨hfl, htab, -⟩ := hl.space.own_apart i hi .trapframe
  have hown : ∀ j ∈ P, (s.procs i).space.own .trapframe ≠ (s.procs j).space.own .info :=
    fun j hj => hl.space.own_ne hi hj (by decide)
  have hinfo := hm _ (hown i hi).symm
  have hleaf : ∀ v', translate (store64 s.phys.mem ((s.procs i).trapframe + o) v)
      (s.procs i).space.root v' = translate s.phys.mem (s.procs i).space.root v' := fun v' =>
    leaf_write (V := s.view P P) hm htab hi v'
  have hhi : (s.procs i).totalMappedRegion ≤ 256 := (hl.space.ready i hi).regions.hi
  refine ⟨hl.space.write hm hfl htab hown, fun k hk hk' => ?_, fun v w hw hU => ?_,
    fun k hk hk' => ?_, ?_, fun k hk hk' => ?_⟩
  · have h1 := regionVa_congr hal hinfo hk'
    have h2 := regionSecond_congr hal hinfo hk'
    exact ⟨h1.trans (hl.zeros k hk hk').1, h2.trans (hl.zeros k hk hk').2⟩
  · exact hl.pages v w ((hleaf v).symm.trans hw) hU
  · have h1 := regionVa_congr hal hinfo hk'
    have h2 := hl.vas k hk hk'
    unfold RegionIn at h2 ⊢
    rwa [← h1] at h2
  · obtain ⟨w, hw, hU⟩ := hl.stack
    exact ⟨w, (hleaf _).trans hw, hU⟩
  · have h1 := regionVa_congr hal hinfo (lt_of_lt_of_le hk' hhi)
    obtain ⟨w, hw, hU⟩ := hl.mapped k hk hk'
    rw [← h1] at hw
    exact ⟨w, (hleaf _).trans hw, hU⟩

theorem Loading.sprint {S : Set Vpn} (hl : Loading iso L P i S s fl) (m : Msg) :
    Loading iso L P i S { s with console := s.console ++ [m] } fl :=
  ⟨hl.space, hl.zeros, hl.pages, hl.vas, hl.stack, hl.mapped⟩

/-- The segments of the application lie at addresses of pages, in the pages `S`,
    and the list of regions has room for them. -/
def Host.LoadsOk (h : Host) (S : Set Vpn) : Prop :=
  ∀ f, h.file = some f →
    (∀ hd ∈ f.loads, hd.vaddr % PGSIZE = 0 ∧ vpn hd.vaddr ∈ S) ∧ f.loads.length ≤ 253

theorem loadBincodeFromHostElf_spec {S : Set Vpn} {h : Host} (hl : Loading iso L P i S s fl)
    (hi : i ∈ P) (htotal : (s.procs i).totalMappedRegion = 3) (hok : h.LoadsOk S) :
    Prog.wp (loadBincodeFromHostElf h i)
      (fun _ s' => ∃ fl', Loading iso L P i S s' fl' ∧ LoadOnly L i s s') (fun _ => False)
      (fun _ => True) s := by
  unfold loadBincodeFromHostElf parseArgs
  rw [Prog.wp_bind]
  split_ifs with hvars
  · trivial
  rw [Prog.wp_pure]
  split_ifs with hargc
  · trivial
  rw [Prog.wp_bind, Pke.sprint, Prog.wp_modify]
  cases hfile : h.file with
  | none => trivial
  | some f =>
    dsimp only
    split_ifs with hinit
    · trivial
    obtain ⟨hall, hlen⟩ := hok f hfile
    rw [Prog.wp_bind]
    refine Prog.wp_mono (elfLoadLoop_spec hi _ _ _ fl (hl.sprint _) hall
      (by rw [htotal]; exact Nat.add_le_add_left hlen 3)) ?_ (fun _ h => h) (fun _ h => h)
    intro r s₁ hr
    split_ifs with hrok
    · trivial
    obtain ⟨fl₁, hl₁, honly⟩ := hr (not_not.mp hrok)
    rw [proc, Prog.wp_bind, Prog.wp_gets, Prog.wp_bind, wp_onPhys, store, Prog.wp_modify,
      Prog.wp_bind, wp_onPhys, load, Prog.wp_gets, Pke.sprint, Prog.wp_modify]
    refine ⟨fl₁, (hl₁.writeFrame hi (by decide) _).sprint _, ?_⟩
    refine (LoadOnly.of_phys _ (.refl L _)).trans (honly.trans (LoadOnly.of_phys _ fun q hq => ?_))
    exact hl₁.frame_of_ne hi (by decide) _ (hl₁.space.image_ne_own hq hi .trapframe)

end Pke
