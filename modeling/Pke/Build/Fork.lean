import Pke.Build.Process
import Pke.Space.Fork

/-!
# What `do_fork` builds

`do_fork` for any free list and any parent whose pages are off it. The child is made from
pages of the free list alone, so whatever belongs to another process stays as it is. Data
regions are copied page by page to an address that went through an `int`; a copy at an
address that is not that of a page maps the frame behind the copy as well.
-/

namespace Pke

open Lib Radix

variable {L : Layout} {s s' s₁ : Kernel} {s₀ ph ph' : Phys} {fl₀ fl fl' : List Ppn} {D : Set Ppn}
  {r r' p : Ppn} {va : Word}

/-! ## One page of a data region -/

/-- The address of page `j` of a data region at `va` (`kernel/process.c` line 192). -/
def dataVa (va : Word) (j : ℕ) : Word := asInt (va + PGSIZE * BitVec.ofNat 64 j)

/-- One round of the loop of `do_fork` over the pages of a data region. -/
def forkPage (parentTable childTable va : Word) : PhysM Unit := do
  let pa ← allocPage
  let src ← lookupPa parentTable va
  physMemcpy pa src 4096
  userVmMap childTable va PGSIZE pa (protToType (PROT_WRITE ||| PROT_READ) 1)

theorem forkData_cons (pp pc va : Word) (j : ℕ) (js : List ℕ) :
    forkData pp pc va (j :: js) = (do
      forkPage pp pc (dataVa va j)
      forkData pp pc va js) := by
  simp only [forkData, forkPage, dataVa, Prog.bind_assoc]

/-- The page table with root `r` and the frames it maps are off the free list. -/
structure OffList (s : Phys) (fl : List Ppn) (r : Ppn) : Prop where
  tables : Tables {r} s fl
  frames : ∀ v e, translate s.mem r v = some e → ptePpn e ∉ fl

/-- The page `p` was taken for the address `va` and filled from the page table `r'`. -/
structure PageCopied (s₀ : Phys) (fl₀ : List Ppn) (r r' : Ppn) (D : Set Ppn) (va : Word) (s : Phys)
    (fl : List Ppn) (p : Ppn) (s' : Phys) (fl' : List Ppn) : Prop where
  page : PageBuilt s₀ fl₀ r D va userDataPerm s fl p s' fl'
  source : ∃ q, q ≠ 0 ∧ lookupAnswer s₀.mem r' va = addr q ∧ s'.mem p = s₀.mem q

theorem forkPage_copied (hb : Built s₀ fl₀ r D ph fl) (hoff : OffList s₀ fl₀ r') :
    Prog.wp (forkPage (addr r') (addr r) va)
      (fun _ ph' => ∃ p fl', PageCopied s₀ fl₀ r r' D va ph fl p ph' fl') (fun _ => False)
      (fun _ => ¬ (lookupAnswer s₀.mem r' va ≠ 0 ∧ va.toNat + 4096 ≤ 2 ^ 38 ∧
        (∀ k < mapCount va, translate ph.mem r (vpnOf (va.toNat / 4096 + k)) = none) ∧
        tablesNeeded ph.mem r (va.toNat / 4096) (mapCount va) + 1 ≤ fl.length)) ph := by
  unfold forkPage
  rw [Prog.wp_bind]
  cases fl with
  | nil =>
    rw [Prog.wp_of_ret (allocPage_nil hb.tables.free), Prog.wp_bind,
      Prog.wp_of_ret (hb.lookupPa_off hoff.tables va), Prog.wp_bind,
      Prog.wp_of_halt (physMemcpy_null (Or.inl rfl) _ _)]
    exact fun hfit => absurd hfit.2.2.2 (by simp)
  | cons p fl₁ =>
    obtain ⟨g, hrun, hfree⟩ := allocPage_cons hb.tables.free
    have hp0 : p ≠ 0 := hb.tables.free.ne_zero List.mem_cons_self
    rw [Prog.wp_of_ret hrun, Prog.wp_bind,
      Prog.wp_of_ret ((hb.alloc hfree).lookupPa_off hoff.tables va), Prog.wp_bind]
    rcases lookupAnswer_cases s₀.mem r' va with h0 | ⟨w, hw, hsrc⟩
    · rw [Prog.wp_of_halt (physMemcpy_null (Or.inr h0) _ _)]
      exact fun hfit => hfit.1 h0
    · by_cases hq0 : ptePpn w = 0
      · have h0 : lookupAnswer s₀.mem r' va = 0 := by rw [hsrc, hq0]; rfl
        rw [Prog.wp_of_halt (physMemcpy_null (Or.inr h0) _ _)]
        exact fun hfit => hfit.1 h0
      · rw [hsrc, Prog.wp_of_ret (physMemcpy_eq hp0 hq0 _ _), memcpy_page]
        refine Prog.wp_mono (hb.pageBuilt hfree fun q hq => Function.update_of_ne hq _ _) ?_
          (fun _ h => h) fun _ hn hfit => hn ⟨hfit.2.1, hfit.2.2.1, ?_⟩
        · rintro _ ph' ⟨hcopy, fl', hpage⟩
          refine ⟨p, fl', hpage, _, hq0, hsrc, ?_⟩
          rw [hcopy, Function.update_self]
          exact hb.frame _ (hoff.frames _ _ hw)
        · have := hfit.2.2.2
          rw [List.length_cons] at this
          omega

/-! ## The pages of a data region -/

/-- The entries that the pages `ps` have in the page table when they are mapped at the
    addresses `vas`. -/
def DataLeaf (vas : List Word) (ps : List Ppn) (v : Vpn) (e : Word) : Prop :=
  ∃ va p k, (va, p) ∈ vas.zip ps ∧ k < mapCount va ∧ v = vpnOf (va.toNat / 4096 + k) ∧
    e = mkPte (addr p + vaddr k) userDataPerm

/-- The pages `ps` were taken for the addresses `vas` and filled from the page table `r'`. -/
structure PagesCopied (s₀ : Phys) (fl₀ : List Ppn) (r r' : Ppn) (D : Set Ppn) (vas : List Word)
    (s : Phys) (fl : List Ppn) (ps : List Ppn) (s' : Phys) (fl' : List Ppn) : Prop where
  length : ps.length = vas.length
  free : ∀ p ∈ ps, p ∈ fl
  nodup : ps.Nodup
  built : Built s₀ fl₀ r (D ∪ {p | p ∈ ps}) s' fl'
  data : ∀ q ∈ D, s'.mem q = s.mem q
  source : ∀ va p, (va, p) ∈ vas.zip ps →
    ∃ q, q ≠ 0 ∧ lookupAnswer s₀.mem r' va = addr q ∧ s'.mem p = s₀.mem q
  low : ∀ va ∈ vas, mapCount va = 0 ∨ va.toNat + 4096 ≤ 2 ^ 38
  unmapped : ∀ va ∈ vas, ∀ k < mapCount va, translate s.mem r (vpnOf (va.toNat / 4096 + k)) = none
  leaf : ∀ v e, translate s'.mem r v = some e ↔
    translate s.mem r v = some e ∨ DataLeaf vas ps v e
  count : ∀ Q : Finset (List Idx), (∀ π ∈ Q, π.length ≤ 2) →
    (∀ va ∈ vas, tablePaths (va.toNat / 4096) (mapCount va) ⊆ Q) →
    missing ptePage s.mem r Q + (fl'.length + vas.length) = missing ptePage s'.mem r Q + fl.length

theorem PagesCopied.nil (hb : Built s₀ fl₀ r D ph fl) :
    PagesCopied s₀ fl₀ r r' D [] ph fl [] ph fl where
  length := rfl
  free := by simp
  nodup := List.nodup_nil
  built := by simpa using hb
  data _ _ := rfl
  source := by simp
  low := by simp
  unmapped := by simp
  leaf v e := by simp [DataLeaf]
  count _ _ _ := by simp

theorem dataLeaf_cons {vas : List Word} {ps : List Ppn} {v : Vpn} {e : Word} :
    DataLeaf (va :: vas) (p :: ps) v e ↔
      (∃ k < mapCount va, v = vpnOf (va.toNat / 4096 + k) ∧
        e = mkPte (addr p + vaddr k) userDataPerm) ∨ DataLeaf vas ps v e := by
  constructor
  · rintro ⟨va', p', k, hmem, hk, hv, he⟩
    rw [List.zip_cons_cons, List.mem_cons, Prod.mk.injEq] at hmem
    rcases hmem with ⟨rfl, rfl⟩ | hmem
    · exact Or.inl ⟨k, hk, hv, he⟩
    · exact Or.inr ⟨va', p', k, hmem, hk, hv, he⟩
  · rintro (⟨k, hk, hv, he⟩ | ⟨va', p', k, hmem, hk, hv, he⟩)
    · exact ⟨va, p, k, List.mem_cons_self, hk, hv, he⟩
    · exact ⟨va', p', k, List.mem_cons_of_mem _ hmem, hk, hv, he⟩

theorem PagesCopied.cons {vas : List Word} {ps : List Ppn} {ph₁ : Phys} {fl₁ : List Ppn}
    (hb : Built s₀ fl₀ r D ph fl) (hpage : PageCopied s₀ fl₀ r r' D va ph fl p ph₁ fl₁)
    (hrest : PagesCopied s₀ fl₀ r r' (insert p D) vas ph₁ fl₁ ps ph' fl') :
    PagesCopied s₀ fl₀ r r' D (va :: vas) ph fl (p :: ps) ph' fl' := by
  obtain ⟨hp, q, hq0, hq, hcopy⟩ := hpage
  obtain ⟨fl₂, rfl, hcount⟩ := hp.list
  have hsuf : ∀ q ∈ fl₁, q ∈ p :: fl₂ := by
    obtain ⟨fl₃, hfl, hsuf⟩ := hp.suffix hb
    exact fun q hq => hfl ▸ List.mem_cons_of_mem _ (hsuf.subset hq)
  refine ⟨by rw [List.length_cons, hrest.length, List.length_cons],
    ?_, ?_, ?_, ?_, ?_, ?_, ?_, ?_, ?_⟩
  · exact List.forall_mem_cons.mpr ⟨List.mem_cons_self, fun q hq => hsuf q (hrest.free q hq)⟩
  · refine List.nodup_cons.mpr ⟨fun hmem => ?_, hrest.nodup⟩
    exact hp.built.not_free (Set.mem_insert _ _) (hrest.free p hmem)
  · have := hrest.built
    convert this using 1
    ext q
    simp [or_left_comm, or_assoc]
  · exact fun q hq => (hrest.data q (Set.mem_insert_of_mem _ hq)).trans (hp.data q hq)
  · intro va' p' hmem
    rw [List.zip_cons_cons, List.mem_cons, Prod.mk.injEq] at hmem
    rcases hmem with ⟨rfl, rfl⟩ | hmem
    · exact ⟨q, hq0, hq, (hrest.data _ (Set.mem_insert _ _)).trans hcopy⟩
    · exact hrest.source va' p' hmem
  · exact List.forall_mem_cons.mpr ⟨hp.low, hrest.low⟩
  · refine List.forall_mem_cons.mpr ⟨hp.unmapped, fun va' hva' k hk => ?_⟩
    -- what has no entry after the first page had none before
    have hnone := hrest.unmapped va' hva' k hk
    rw [Option.eq_none_iff_forall_ne_some] at hnone ⊢
    exact fun e he => hnone e (hp.keepsLeaves _ e he)
  · intro v e
    rw [hrest.leaf, hp.leaf_iff, dataLeaf_cons, or_assoc]
  · intro Q hQ hsub
    have h1 := hcount Q hQ (hsub va List.mem_cons_self)
    have h2 := hrest.count Q hQ fun va' hva' => hsub va' (List.mem_cons_of_mem _ hva')
    simp only [List.length_cons]
    omega

/-- The loop over the pages. -/
theorem forkData_copied (hoff : OffList s₀ fl₀ r') (va : Word) :
    ∀ (js : List ℕ) {D : Set Ppn} {ph : Phys} {fl : List Ppn}, Built s₀ fl₀ r D ph fl →
      Prog.wp (forkData (addr r') (addr r) va js)
        (fun _ ph' => ∃ ps fl',
          PagesCopied s₀ fl₀ r r' D (js.map (dataVa va)) ph fl ps ph' fl')
        (fun _ => False) (fun _ => True) ph := by
  intro js
  induction js with
  | nil => exact fun {D ph fl} hb => ⟨[], fl, .nil hb⟩
  | cons j js ih =>
    intro D ph fl hb
    rw [forkData_cons, Prog.wp_bind]
    refine Prog.wp_mono (forkPage_copied hb hoff) ?_ (fun _ h => h) fun _ _ => trivial
    rintro _ ph₁ ⟨p, fl₁, hpage⟩
    refine Prog.wp_mono (ih hpage.page.built) ?_ (fun _ h => h) fun _ h => h
    rintro _ ph' ⟨ps, fl', hrest⟩
    exact ⟨p :: ps, fl', .cons hb hpage hrest⟩

/-! ## Lists of regions -/

/-- An entry of `mapped_info`: address, number of pages and type. -/
def regionEntry (m : Mem) (a : AddrSpace) (k : ℕ) : Word × BitVec 32 × Option SegType :=
  (regionVa m a k, regionPages m a k, regionSeg m a k)

/-- The first `n` entries of `mapped_info`. -/
def regionList (m : Mem) (a : AddrSpace) (n : ℕ) : List (Word × BitVec 32 × Option SegType) :=
  (List.range n).map (regionEntry m a)

/-- The entries that `alloc_process` writes (`kernel/process.c` lines 124–141). -/
def firstRegions (L : Layout) (a : AddrSpace) : List (Word × BitVec 32 × Option SegType) :=
  [(USER_STACK_TOP - PGSIZE, 1, some .STACK), (a.trapframe, 1, some .CONTEXT),
    (L.trapSecStart, 1, some .SYSTEM)]

theorem regionEntry_congr {a : AddrSpace} (ha : a.Aligned) {m m' : Mem}
    (hm : m' (a.own .info) = m (a.own .info)) {k : ℕ} (hk : k < 256) :
    regionEntry m' a k = regionEntry m a k := by
  unfold regionEntry regionPages regionSeg
  rw [regionVa_congr ha hm hk, regionSecond_congr ha hm hk]

theorem regionList_congr {a : AddrSpace} (ha : a.Aligned) {m m' : Mem}
    (hm : m' (a.own .info) = m (a.own .info)) {n : ℕ} (hn : n ≤ 256) :
    regionList m' a n = regionList m a n := by
  refine List.map_congr_left fun k hk => ?_
  have := List.mem_range.mp hk
  exact regionEntry_congr ha hm (by omega)

/-- Recording a region behind the others. -/
theorem regionList_record {m : Mem} {a : AddrSpace} {n : ℕ} (hn : n < 256) (va : Word)
    (npages : BitVec 32) (seg : SegType) :
    regionList (recordRegion m a n va npages seg) a (n + 1) =
      regionList m a n ++ [(va, npages, some seg)] := by
  unfold regionList
  rw [List.range_succ, List.map_append, List.map_singleton]
  congr 1
  · refine List.map_congr_left fun k hk => ?_
    have := List.mem_range.mp hk
    rw [regionEntry, regionVa_recordRegion hn (by omega), regionPages_recordRegion hn (by omega),
      regionSeg_recordRegion hn (by omega), if_neg (by omega), if_neg (by omega),
      if_neg (by omega)]
    rfl
  · rw [regionEntry, regionVa_recordRegion hn hn, regionPages_recordRegion hn hn,
      regionSeg_recordRegion hn hn, if_pos rfl, if_pos rfl, if_pos rfl]

/-- Writing an address behind the others. -/
theorem regionList_store_va {m : Mem} {a : AddrSpace} {n k : ℕ} (hn : n ≤ k) (hk : k < 256)
    (va : Word) :
    regionList (store64 m (regionAddr a.mappedInfo k) va) a n = regionList m a n := by
  refine List.map_congr_left fun j hj => ?_
  have := List.mem_range.mp hj
  rw [regionEntry, regionPages, regionSeg, regionVa_store_va (by omega) hk,
    regionSecond_store_va (by omega) hk]
  rfl

theorem regionList_initial {m : Mem} {a : AddrSpace} :
    regionList (initialInfo L a m) a 3 = firstRegions L a := by
  rw [initialInfo, regionList_record (by omega), regionList_record (by omega),
    regionList_record (by omega)]
  rfl

theorem store_va_of_ne {m : Mem} {a : AddrSpace} (ha : a.Aligned) {k : ℕ} (hk : k < 256) {q : Ppn}
    (hq : q ≠ a.own .info) : store64 m (regionAddr a.mappedInfo k) va q = m q := by
  have h0 := regionAddr_ppn ha (o := 0) hk (by omega)
  rw [BitVec.add_zero] at h0
  exact store64_of_ne (by rwa [h0])

/-! ## The parent -/

/-- The page table of process `i`, what it maps and the pages the kernel keeps for it are off
    the free list. -/
structure Separate (s : Kernel) (fl : List Ppn) (i : Pid) : Prop where
  aligned : (s.procs i).space.Aligned
  off : OffList s.phys fl (s.procs i).space.root
  own : ∀ k, (s.procs i).space.own k ∉ fl

/-- Process `i` can be forked: its regions are the three of `alloc_process` and the regions
    `rs` of code and data. -/
structure ForkParent (s : Kernel) (fl : List Ppn) (i : Pid)
    (rs : List (Word × BitVec 32 × Option SegType)) : Prop extends Separate s fl i where
  used : (s.procs i).status ≠ .FREE
  stack : regionVa s.phys.mem (s.procs i).space 0 = USER_STACK_TOP - PGSIZE ∧
    regionSeg s.phys.mem (s.procs i).space 0 = some .STACK
  context : regionSeg s.phys.mem (s.procs i).space 1 = some .CONTEXT
  system : regionSeg s.phys.mem (s.procs i).space 2 = some .SYSTEM
  regions : regionList s.phys.mem (s.procs i).space (s.procs i).totalMappedRegion =
    regionList s.phys.mem (s.procs i).space 3 ++ rs
  few : rs.length ≤ 253
  segs : ∀ e ∈ rs, e.2.2 = some .CODE ∨ e.2.2 = some .DATA

namespace ForkParent

variable {i : Pid} {rs : List (Word × BitVec 32 × Option SegType)}

theorem total (h : ForkParent s fl i rs) : (s.procs i).totalMappedRegion = 3 + rs.length := by
  have := congrArg List.length h.regions
  simpa [regionList] using this

/-- The entries of the regions of code and data. -/
theorem entry (h : ForkParent s fl i rs) {k : ℕ} (h3 : 3 ≤ k) (hk : k < 3 + rs.length) :
    rs[k - 3]? = some (regionEntry s.phys.mem (s.procs i).space k) := by
  have hget := congrArg (fun l => l[k]?) h.regions
  have hlen : (regionList s.phys.mem (s.procs i).space 3).length = 3 := by simp [regionList]
  rw [List.getElem?_append_right (hlen ▸ h3), hlen, h.total, regionList, List.getElem?_map,
    List.getElem?_range hk] at hget
  exact hget.symm

end ForkParent

/-! ## The loop over the regions -/

/-- The regions of code. -/
abbrev codeOnly (rs : List (Word × BitVec 32 × Option SegType)) :
    List (Word × BitVec 32 × Option SegType) := rs.filter fun e => e.2.2 = some .CODE

/-- Besides memory and messages only slot `i` changed. -/
def SlotChanged (i : Pid) (s s' : Kernel) : Prop :=
  ∃ ph x c, s' = { s with phys := ph, procs := Function.update s.procs i x, console := c }

theorem SlotChanged.of_phys {i : Pid} (h : SlotChanged i s s₁) (hp : PhysOnly s₁ s') :
    SlotChanged i s s' := by
  obtain ⟨ph, x, c, rfl⟩ := h
  exact ⟨s'.phys, x, c, hp⟩

theorem SlotChanged.set {i : Pid} (h : SlotChanged i s s₁) (ph : Phys) (x : Process)
    (c : List Msg) : SlotChanged i s
      { s₁ with phys := ph, procs := Function.update s₁.procs i x, console := c } := by
  obtain ⟨ph', x', c', rfl⟩ := h
  exact ⟨ph, x, c, by rw [Function.update_idem]⟩

theorem SlotChanged.procs {i j : Pid} (h : SlotChanged i s s') (hj : j ≠ i) :
    s'.procs j = s.procs j := by
  obtain ⟨ph, x, c, rfl⟩ := h
  exact Function.update_of_ne hj _ _

/-- The loop of `do_fork` before region `k`. The child `i` was made from the free list `fl₀`
    of `s₀`; the regions before `k` were copied or mapped. -/
structure Copying (L : Layout) (s₀ : Kernel) (fl₀ : List Ppn) (parent i : Pid)
    (rs : List (Word × BitVec 32 × Option SegType)) (a : AddrSpace) (us : Ppn) (k : ℕ) (s : Kernel)
    (D : Set Ppn) (fl : List Ppn) : Prop where
  rest : SlotChanged i s₀ s
  self : (s.procs i).space = a ∧ (s.procs i).pid = (s₀.procs i).pid
  aligned : a.Aligned
  own : us ∈ D ∧ ∀ o, a.own o ∈ D
  distinct : us ≠ a.own .info ∧ us ≠ a.own .trapframe ∧ a.own .trapframe ≠ a.own .info
  built : Built s₀.phys fl₀ a.root D s.phys fl
  stackLeaf : translate s.phys.mem a.root stackVpn = some (mkPte (addr us) userDataPerm)
  stack : 1 ≤ k → ∃ q, q ≠ 0 ∧ s.phys.mem us = s₀.phys.mem q ∧
    lookupAnswer s₀.phys.mem (s₀.procs parent).space.root (USER_STACK_TOP - PGSIZE) = addr q
  context : 2 ≤ k → ∀ o : Idx, o.toNat < sizeofTrapframe / 8 →
    s.phys.mem (a.own .trapframe) o = s₀.phys.mem ((s₀.procs parent).space.own .trapframe) o
  code : ∀ e ∈ rs.take (k - 3), e.2.2 = some .CODE →
    translate s.phys.mem a.root (vpn e.1) =
      some (mkPte (lookupAnswer s₀.phys.mem (s₀.procs parent).space.root e.1) userCodePerm)
  regions : regionList s.phys.mem a (s.procs i).totalMappedRegion =
    firstRegions L a ++ codeOnly (rs.take (k - 3))

namespace Copying

variable {s₀ s s' : Kernel} {parent i : Pid} {rs : List (Word × BitVec 32 × Option SegType)}
  {a : AddrSpace} {us : Ppn} {k : ℕ}

theorem total (h : Copying L s₀ fl₀ parent i rs a us k s D fl) :
    (s.procs i).totalMappedRegion ≤ 3 + (k - 3) := by
  have hlen := congrArg List.length h.regions
  have hle : (codeOnly (rs.take (k - 3))).length ≤ (rs.take (k - 3)).length :=
    List.length_filter_le _ _
  have htake := List.length_take_le (k - 3) rs
  simp only [regionList, firstRegions, List.length_map, List.length_range, List.length_append,
    List.length_cons, List.length_nil] at hlen
  omega

theorem three_le (h : Copying L s₀ fl₀ parent i rs a us k s D fl) :
    3 ≤ (s.procs i).totalMappedRegion := by
  have hlen := congrArg List.length h.regions
  simp only [regionList, firstRegions, List.length_map, List.length_range, List.length_append,
    List.length_cons, List.length_nil] at hlen
  omega

/-- The child's first region is its stack. -/
theorem child_first (h : Copying L s₀ fl₀ parent i rs a us k s D fl) :
    regionVa s.phys.mem a 0 = USER_STACK_TOP - PGSIZE := by
  have h0 := congrArg (fun l => l[0]?) h.regions
  have h3 := h.three_le
  rw [regionList, List.getElem?_map, List.getElem?_range (by omega)] at h0
  exact congrArg Prod.fst (Option.some.inj h0)

theorem procs (h : Copying L s₀ fl₀ parent i rs a us k s D fl) {j : Pid} (hj : j ≠ i) :
    s.procs j = s₀.procs j := h.rest.procs hj

/-- The region of the parent is still there. -/
theorem parent_entry (h : Copying L s₀ fl₀ parent i rs a us k s D fl)
    (hp : ForkParent s₀ fl₀ parent rs) (hne : parent ≠ i) {j : ℕ} (hj : j < 256) :
    regionEntry s.phys.mem (s.procs parent).space j =
      regionEntry s₀.phys.mem (s₀.procs parent).space j := by
  rw [h.procs hne]
  exact regionEntry_congr hp.aligned (h.built.frame _ (hp.own .info)) hj

/-- Lookups in the page table of the parent. -/
theorem parent_lookup (h : Copying L s₀ fl₀ parent i rs a us k s D fl)
    (hp : ForkParent s₀ fl₀ parent rs) (hne : parent ≠ i) (va : Word) :
    lookupPa (s.procs parent).pagetable va s.phys =
      .ret (lookupAnswer s₀.phys.mem (s₀.procs parent).space.root va) s.phys := by
  have hpt : (s.procs parent).pagetable = addr (s₀.procs parent).space.root := by
    rw [h.procs hne]
    exact hp.aligned.pagetable.symm
  rw [hpt, h.built.lookupPa_off hp.off.tables]

theorem child_table (h : Copying L s₀ fl₀ parent i rs a us k s D fl) :
    (s.procs i).pagetable = addr a.root :=
  (congrArg AddrSpace.pagetable h.self.1).trans h.aligned.pagetable.symm

theorem child_info (h : Copying L s₀ fl₀ parent i rs a us k s D fl) :
    (s.procs i).mappedInfo = a.mappedInfo := congrArg AddrSpace.mappedInfo h.self.1

theorem child_trapframe (h : Copying L s₀ fl₀ parent i rs a us k s D fl) :
    (s.procs i).trapframe = addr (a.own .trapframe) :=
  (congrArg AddrSpace.trapframe h.self.1).trans h.aligned.trapframe.symm

/-- Memory changes, and the entries of the page table stay. -/
theorem of_phys {D' : Set Ppn} {fl' : List Ppn} {k' : ℕ}
    (h : Copying L s₀ fl₀ parent i rs a us k s D fl) (hs : PhysOnly s s') (hD : D ⊆ D')
    (hbuilt : Built s₀.phys fl₀ a.root D' s'.phys fl')
    (hleaf : KeepsLeaves a.root s.phys.mem s'.phys.mem)
    (hstack : 1 ≤ k' → ∃ q, q ≠ 0 ∧ s'.phys.mem us = s₀.phys.mem q ∧
      lookupAnswer s₀.phys.mem (s₀.procs parent).space.root (USER_STACK_TOP - PGSIZE) = addr q)
    (hcontext : 2 ≤ k' → ∀ o : Idx, o.toNat < sizeofTrapframe / 8 →
      s'.phys.mem (a.own .trapframe) o = s₀.phys.mem ((s₀.procs parent).space.own .trapframe) o)
    (hcode : ∀ e ∈ rs.take (k' - 3), e.2.2 = some .CODE → e ∈ rs.take (k - 3))
    (hregions : regionList s'.phys.mem a (s.procs i).totalMappedRegion =
      firstRegions L a ++ codeOnly (rs.take (k' - 3))) :
    Copying L s₀ fl₀ parent i rs a us k' s' D' fl' where
  rest := h.rest.of_phys hs
  self := by
    rw [hs.procs]
    exact h.self
  aligned := h.aligned
  own := ⟨hD h.own.1, fun o => hD (h.own.2 o)⟩
  distinct := h.distinct
  built := hbuilt
  stackLeaf := hleaf _ _ h.stackLeaf
  stack := hstack
  context := hcontext
  code e he hseg := hleaf _ _ (h.code e (hcode e he hseg) hseg)
  regions := by
    rw [hs.procs]
    exact hregions

/-- Only one page of the child is written. -/
theorem write (h : Copying L s₀ fl₀ parent i rs a us k s D fl) {x : Ppn} (hx : x ∈ D) {m : Mem}
    (hm : ∀ q, q ≠ x → m q = s.phys.mem q) :
    Built s₀.phys fl₀ a.root D { s.phys with mem := m } fl ∧ KeepsLeaves a.root s.phys.mem m := by
  have hout : ∀ q, q ∉ D → m q = s.phys.mem q := fun q hq => hm q (by rintro rfl; exact hq hx)
  exact ⟨h.built.write hout, h.built.keepsLeaves_write hout⟩

theorem stack_dest (h : Copying L s₀ fl₀ parent i rs a us k s D fl) :
    lookupAnswer s.phys.mem a.root (USER_STACK_TOP - PGSIZE) = addr us := by
  have hR : mkPte (addr us) userDataPerm &&& PTE_R ≠ 0 := by
    rw [mkPte_and_flag _ _ (by decide)]
    decide
  rw [lookupAnswer_readable (by decide) h.stackLeaf (Or.inl hR), ptePpn_mkPte _ (by decide),
    ppn_addr]

/-- The region of the stack: the page of the parent is copied. -/
theorem step_stack (h : Copying L s₀ fl₀ parent i rs a us 0 s D fl)
    (hp : ForkParent s₀ fl₀ parent rs) (hne : parent ≠ i) :
    Prog.wp (forkRegion parent i 0) (fun _ s' => Copying L s₀ fl₀ parent i rs a us 1 s' D fl)
      (fun _ => False) (fun _ => lookupAnswer s₀.phys.mem (s₀.procs parent).space.root
        (USER_STACK_TOP - PGSIZE) = 0) s := by
  have hentry := h.parent_entry hp hne (by omega : 0 < 256)
  refine wp_forkRegion ((congrArg (fun e => e.2.2) hentry).trans hp.stack.2) ?_
  have hva : regionVa s.phys.mem (s.procs parent).space 0 = USER_STACK_TOP - PGSIZE :=
    (congrArg Prod.fst hentry).trans hp.stack.1
  have hload : load64 s.phys.mem (regionAddr (s.procs i).mappedInfo 0) =
      USER_STACK_TOP - PGSIZE := by
    rw [h.child_info]
    exact h.child_first
  dsimp only
  rw [hva, h.child_table, Prog.wp_bind, wp_onPhys, load, Prog.wp_gets, hload, Prog.wp_bind,
    wp_onPhys, Prog.wp_of_ret (lookupPa_eq h.built.tables rfl _), h.stack_dest, Prog.wp_bind,
    wp_onPhys, Prog.wp_of_ret (h.parent_lookup hp hne _)]
  have hus0 : us ≠ 0 := h.built.ne_zero h.own.1
  by_cases hnull :
      lookupAnswer s₀.phys.mem (s₀.procs parent).space.root (USER_STACK_TOP - PGSIZE) = 0
  · rwa [wp_onPhys, Prog.wp_of_halt (physMemcpy_null (Or.inr hnull) _ _)]
  obtain ⟨w, hw, hsrc⟩ := (lookupAnswer_cases _ _ _).resolve_left hnull
  have hq0 : ptePpn w ≠ 0 := fun h0 => hnull (by rw [hsrc, h0]; rfl)
  have hm : ∀ q, q ≠ us → Function.update s.phys.mem us (s.phys.mem (ptePpn w)) q = s.phys.mem q :=
    fun q hq => Function.update_of_ne hq _ _
  obtain ⟨hbuilt, hleaf⟩ := h.write h.own.1 hm
  refine wp_physLast (Q := fun _ ph => ph = { s.phys with
      mem := Function.update s.phys.mem us (s.phys.mem (ptePpn w)) }) ?_ (fun _ s' hs hph => ?_)
    fun _ h => h
  · rw [hsrc, Prog.wp_of_ret (physMemcpy_eq hus0 hq0 _ _), memcpy_page]
  have htotal := h.total
  have hmem : s'.phys.mem = Function.update s.phys.mem us (s.phys.mem (ptePpn w)) := by rw [hph]
  refine h.of_phys hs subset_rfl (hph ▸ hbuilt) (hmem ▸ hleaf) (fun _ => ⟨ptePpn w, hq0, ?_, hsrc⟩)
    (by omega) (by simp) ?_
  · rw [hmem, Function.update_self]
    exact h.built.frame _ (hp.off.frames _ _ hw)
  · rw [hmem, regionList_congr h.aligned (hm _ h.distinct.1.symm) (by omega)]
    exact h.regions

/-- The region of the trapframe, which is copied. -/
theorem step_context (h : Copying L s₀ fl₀ parent i rs a us 1 s D fl)
    (hp : ForkParent s₀ fl₀ parent rs) (hne : parent ≠ i) :
    Prog.wp (forkRegion parent i 1) (fun _ s' => Copying L s₀ fl₀ parent i rs a us 2 s' D fl)
      (fun _ => False) (fun _ => (s₀.procs parent).space.own .trapframe = 0) s := by
  have hentry := h.parent_entry hp hne (by omega : 1 < 256)
  refine wp_forkRegion ((congrArg (fun e => e.2.2) hentry).trans hp.context) ?_
  have hsrc : (s.procs parent).trapframe = addr ((s₀.procs parent).space.own .trapframe) := by
    rw [h.procs hne]
    exact hp.aligned.trapframe.symm
  dsimp only
  rw [h.child_trapframe, hsrc]
  have htf := h.own.2 .trapframe
  by_cases hnull : (s₀.procs parent).space.own .trapframe = 0
  · rwa [wp_onPhys, Prog.wp_of_halt (physMemcpy_null (Or.inr (addr_eq_zero.mpr hnull)) _ _)]
  have hlen : sizeofTrapframe ≤ 4096 := by decide
  obtain ⟨m, hmcpy⟩ : ∃ m, m = memcpy s.phys.mem (addr (a.own .trapframe))
      (addr ((s₀.procs parent).space.own .trapframe)) sizeofTrapframe := ⟨_, rfl⟩
  have hm : ∀ q, q ≠ a.own .trapframe → m q = s.phys.mem q := fun q hq => by
    rw [hmcpy, memcpy_of_ne _ hlen hq]
  have hcopy : ∀ o : Idx, o.toNat < sizeofTrapframe / 8 →
      m (a.own .trapframe) o = s₀.phys.mem ((s₀.procs parent).space.own .trapframe) o := by
    intro o ho
    rw [hmcpy, memcpy, memcpy_words _ _ _ _ (by omega), if_pos ⟨rfl, ho⟩,
      h.built.frame _ (hp.own .trapframe)]
  obtain ⟨hbuilt, hleaf⟩ := h.write htf hm
  refine wp_physLast (Q := fun _ ph => ph = { s.phys with mem := m }) ?_ (fun _ s' hs hph => ?_)
    fun _ h => h
  · rw [Prog.wp_of_ret (physMemcpy_eq (h.built.ne_zero htf) hnull _ _), hmcpy]
  have htotal := h.total
  have hmem : s'.phys.mem = m := by rw [hph]
  refine h.of_phys hs subset_rfl (hph ▸ hbuilt) (hmem ▸ hleaf) (fun _ => ?_) (fun _ => hmem ▸ hcopy)
    (by simp) ?_
  · rw [hmem, hm us h.distinct.2.1]
    exact h.stack le_rfl
  · rw [hmem, regionList_congr h.aligned (hm _ h.distinct.2.2.symm) (by omega)]
    exact h.regions

theorem step_system (h : Copying L s₀ fl₀ parent i rs a us 2 s D fl)
    (hp : ForkParent s₀ fl₀ parent rs) (hne : parent ≠ i) :
    Prog.wp (forkRegion parent i 2) (fun _ s' => Copying L s₀ fl₀ parent i rs a us 3 s' D fl)
      (fun _ => False) (fun _ => False) s := by
  have hentry := h.parent_entry hp hne (by omega : 2 < 256)
  refine wp_forkRegion ((congrArg (fun e => e.2.2) hentry).trans hp.system) ?_
  exact h.of_phys rfl subset_rfl h.built (KeepsLeaves.refl _ _) (fun _ => h.stack (by omega))
    (fun _ => h.context le_rfl) (by simp) h.regions

theorem take_next (hp : ForkParent s₀ fl₀ parent rs) (h3 : 3 ≤ k) (hk : k < 3 + rs.length) :
    rs.take (k + 1 - 3) =
      rs.take (k - 3) ++ [regionEntry s₀.phys.mem (s₀.procs parent).space k] := by
  rw [show k + 1 - 3 = k - 3 + 1 by omega, List.take_add_one, hp.entry h3 hk]
  rfl

/-- A region of code is recorded after its page was mapped. -/
theorem record (h : Copying L s₀ fl₀ parent i rs a us k s D fl) {va : Word} {np : BitVec 32}
    (h3 : 3 ≤ k) (hk : k < 256)
    (htake : rs.take (k + 1 - 3) = rs.take (k - 3) ++ [(va, np, some .CODE)])
    (hleaf : translate s.phys.mem a.root (vpn va) =
      some (mkPte (lookupAnswer s₀.phys.mem (s₀.procs parent).space.root va) userCodePerm))
    (c : List Msg) :
    Copying L s₀ fl₀ parent i rs a us (k + 1) { s with
      phys := { s.phys with
        mem := recordRegion s.phys.mem a (s.procs i).totalMappedRegion va np .CODE }
      procs := Function.update s.procs i
        { s.procs i with totalMappedRegion := (s.procs i).totalMappedRegion + 1 }
      console := c } D fl := by
  have htotal := h.total
  have hm : ∀ q, q ≠ a.own .info →
      recordRegion s.phys.mem a (s.procs i).totalMappedRegion va np .CODE q = s.phys.mem q :=
    fun q hq => recordRegion_of_ne h.aligned (by omega) hq
  have hlist := regionList_record (m := s.phys.mem) (a := a)
    (by omega : (s.procs i).totalMappedRegion < 256) va np .CODE
  obtain ⟨hbuilt, hkeep⟩ := h.write (h.own.2 .info) hm
  generalize recordRegion s.phys.mem a (s.procs i).totalMappedRegion va np .CODE = m at *
  refine ⟨h.rest.set _ _ _, ?_, h.aligned, h.own, h.distinct, hbuilt, hkeep _ _ h.stackLeaf,
    fun _ => ?_, fun _ o ho => ?_, fun e he hcode => hkeep _ _ ?_, ?_⟩
  · dsimp only
    rw [Function.update_self]
    exact h.self
  · dsimp only
    rw [hm us h.distinct.1]
    exact h.stack (by omega)
  · dsimp only
    rw [hm _ h.distinct.2.2]
    exact h.context (by omega) o ho
  · rw [htake] at he
    rcases List.mem_append.mp he with he | he
    · exact h.code e he hcode
    · rw [List.mem_singleton.mp he]
      exact hleaf
  · dsimp only
    rw [Function.update_self, hlist, h.regions, htake, codeOnly, codeOnly, List.filter_append,
      List.append_assoc]
    rfl

/-- A region of code: its page is mapped, and the region is recorded. -/
theorem step_code (h : Copying L s₀ fl₀ parent i rs a us k s D fl)
    (hp : ForkParent s₀ fl₀ parent rs) (hne : parent ≠ i) (h3 : 3 ≤ k) (hk : k < 3 + rs.length)
    (hseg : (regionEntry s₀.phys.mem (s₀.procs parent).space k).2.2 = some .CODE) :
    Prog.wp (forkRegion parent i k)
      (fun _ s' => ∃ fl', Copying L s₀ fl₀ parent i rs a us (k + 1) s' D fl')
      (fun _ => False) (fun _ => True) s := by
  have hfew := hp.few
  have hentry := h.parent_entry hp hne (by omega : k < 256)
  refine wp_forkRegion ((congrArg (fun e => e.2.2) hentry).trans hseg) ?_
  obtain ⟨va, hva⟩ : ∃ va, regionVa s.phys.mem (s.procs parent).space k = va := ⟨_, rfl⟩
  obtain ⟨np, hnp⟩ : ∃ np, regionPages s.phys.mem (s.procs parent).space k = np := ⟨_, rfl⟩
  have he : regionEntry s₀.phys.mem (s₀.procs parent).space k = (va, np, some .CODE) := by
    rw [← hva, ← hnp, ← hseg, ← hentry]
    rfl
  have htake := take_next hp h3 hk
  rw [he] at htake
  dsimp only
  rw [hva, hnp, h.child_table, h.child_info, Prog.wp_bind, wp_onPhys,
    Prog.wp_of_ret (h.parent_lookup hp hne _), and_not_mask]
  refine wp_phys (h.built.map_aligned (addr_mod _)) ?_ fun _ _ => trivial
  rintro _ s₁ hs₁ ⟨fl', hmap⟩
  obtain ⟨-, hone⟩ := hmap.one (addr_mod _)
  rw [vpn_addr_ppn] at hone
  have h₁ : Copying L s₀ fl₀ parent i rs a us k s₁ D fl' := by
    have htotal := h.total
    refine h.of_phys hs₁ subset_rfl hmap.built hmap.keepsLeaves ?_ ?_ (fun _ he _ => he) ?_
    · rw [hmap.data us h.own.1]
      exact h.stack
    · rw [hmap.data _ (h.own.2 .trapframe)]
      exact h.context
    · rw [regionList_congr h.aligned (hmap.data _ (h.own.2 .info)) (by omega)]
      exact h.regions
  have hleaf : translate s₁.phys.mem a.root (vpn va) = some (mkPte (lookupAnswer s₀.phys.mem
      (s₀.procs parent).space.root va) userCodePerm) := by
    rw [hone.leaf _ rfl, if_pos ⟨rfl, rfl⟩]
  rw [← hs₁.procs, Prog.wp_bind, wp_onPhys, Prog.wp_of_ret (h₁.parent_lookup hp hne _), sprint,
    Prog.wp_bind, Prog.wp_modify, Prog.wp_bind, wp_onPhys,
    Prog.wp_of_ret (storeRegion_eq _ _ _ _ _),
    setProc, Prog.wp_modify]
  exact ⟨fl', h₁.record h3 (by omega) htake hleaf _⟩

/-- Writing an address behind the child's regions. -/
theorem store_va (h : Copying L s₀ fl₀ parent i rs a us k s D fl) (hk : k < 256) (va : Word) :
    Built s₀.phys fl₀ a.root D
      { s.phys with mem := store64 s.phys.mem (regionAddr a.mappedInfo k) va } fl :=
  (h.write (h.own.2 .info) fun _ hq => store_va_of_ne h.aligned hk hq).1

/-- A region of data: its address is written behind the child's regions, then its pages are
    copied. -/
theorem wp_data (h : Copying L s₀ fl₀ parent i rs a us k s D fl) (hp : ForkParent s₀ fl₀ parent rs)
    (hne : parent ≠ i) (hk : k < 256) {va : Word} {np : BitVec 32}
    (hentry : regionEntry s₀.phys.mem (s₀.procs parent).space k = (va, np, some .DATA))
    {R : Phys → Prop} {N : Halt → Prop}
    (hdata : Prog.wp (forkData (addr (s₀.procs parent).space.root) (addr a.root) va
      (List.range np.toNat)) (fun _ ph => R ph) (fun _ => False) N
      { s.phys with mem := store64 s.phys.mem (regionAddr a.mappedInfo k) va }) :
    Prog.wp (forkRegion parent i k) (fun _ s' => PhysOnly s s' ∧ R s'.phys)
      (fun _ => False) N s := by
  have he := (h.parent_entry hp hne hk).trans hentry
  refine wp_forkRegion (congrArg (fun e => e.2.2) he) ?_
  have hva : regionVa s.phys.mem (s.procs parent).space k = va := congrArg Prod.fst he
  have hnp : regionPages s.phys.mem (s.procs parent).space k = np := congrArg (fun e => e.2.1) he
  have hpt : (s.procs parent).pagetable = addr (s₀.procs parent).space.root := by
    rw [h.procs hne]
    exact hp.aligned.pagetable.symm
  dsimp only
  rw [hva, hnp, h.child_table, h.child_info, hpt]
  refine wp_put fun s₁ hs₁ => ?_
  have hph : s₁.phys =
      { s.phys with mem := store64 s.phys.mem (regionAddr a.mappedInfo k) va } := by
    rw [hs₁]
  rw [← hph] at hdata
  refine wp_physLast hdata (fun _ s' hs hR => ⟨?_, hR⟩) fun _ h => h
  exact PhysOnly.trans (hs₁ ▸ rfl) hs

theorem step_data (h : Copying L s₀ fl₀ parent i rs a us k s D fl)
    (hp : ForkParent s₀ fl₀ parent rs) (hne : parent ≠ i) (hk : k < 256)
    {va : Word} {np : BitVec 32}
    (hentry : regionEntry s₀.phys.mem (s₀.procs parent).space k = (va, np, some .DATA)) :
    Prog.wp (forkRegion parent i k)
      (fun _ s' => PhysOnly s s' ∧ ∃ ps fl',
        PagesCopied s₀.phys fl₀ a.root (s₀.procs parent).space.root D
          ((List.range np.toNat).map (dataVa va))
          { s.phys with mem := store64 s.phys.mem (regionAddr a.mappedInfo k) va } fl ps
          s'.phys fl')
      (fun _ => False) (fun _ => True) s :=
  h.wp_data hp hne hk hentry (forkData_copied hp.off va _ (h.store_va hk va))

/-- The loop goes on after a region of data. -/
theorem after_data (h : Copying L s₀ fl₀ parent i rs a us k s D fl)
    (hp : ForkParent s₀ fl₀ parent rs) (h3 : 3 ≤ k) (hk : k < 3 + rs.length) {va : Word}
    {vas : List Word} {ps : List Ppn}
    (hseg : (regionEntry s₀.phys.mem (s₀.procs parent).space k).2.2 = some .DATA)
    (hs : PhysOnly s s')
    (hpages : PagesCopied s₀.phys fl₀ a.root (s₀.procs parent).space.root D vas
      { s.phys with mem := store64 s.phys.mem (regionAddr a.mappedInfo k) va } fl ps s'.phys fl') :
    Copying L s₀ fl₀ parent i rs a us (k + 1) s' (D ∪ {p | p ∈ ps}) fl' := by
  have hfew := hp.few
  have htotal := h.total
  have hm : ∀ q, q ≠ a.own .info →
      store64 s.phys.mem (regionAddr a.mappedInfo k) va q = s.phys.mem q := fun q hq =>
    store_va_of_ne h.aligned (by omega) hq
  have hlist := regionList_store_va (m := s.phys.mem) (a := a)
    (by omega : (s.procs i).totalMappedRegion ≤ k) (by omega) va
  obtain ⟨-, hkeep⟩ := h.write (h.own.2 .info) hm
  have hdata : ∀ q ∈ D,
      s'.phys.mem q = store64 s.phys.mem (regionAddr a.mappedInfo k) va q := hpages.data
  have hleaf : KeepsLeaves a.root (store64 s.phys.mem (regionAddr a.mappedInfo k) va) s'.phys.mem :=
    fun v e he => (hpages.leaf v e).mpr (Or.inl he)
  generalize store64 s.phys.mem (regionAddr a.mappedInfo k) va = m at *
  have htake := take_next hp h3 hk
  refine h.of_phys hs Set.subset_union_left hpages.built (hkeep.trans hleaf) (fun _ => ?_)
    (fun _ o ho => ?_) (fun e he hcode => ?_) ?_
  · rw [hdata us h.own.1, hm us h.distinct.1]
    exact h.stack (by omega)
  · rw [hdata _ (h.own.2 .trapframe), hm _ h.distinct.2.2]
    exact h.context (by omega) o ho
  · rw [htake] at he
    refine (List.mem_append.mp he).resolve_right fun hlast => ?_
    rw [List.mem_singleton.mp hlast, hseg] at hcode
    cases hcode
  · rw [regionList_congr h.aligned (hdata _ (h.own.2 .info)) (by omega), hlist, h.regions, htake,
      codeOnly, codeOnly, List.filter_append, List.filter_singleton, hseg]
    simp

/-- Any region. -/
theorem step (h : Copying L s₀ fl₀ parent i rs a us k s D fl) (hp : ForkParent s₀ fl₀ parent rs)
    (hne : parent ≠ i) (hk : k < 3 + rs.length) :
    Prog.wp (forkRegion parent i k)
      (fun _ s' => ∃ D' fl', Copying L s₀ fl₀ parent i rs a us (k + 1) s' D' fl')
      (fun _ => False) (fun _ => True) s := by
  by_cases h3 : 3 ≤ k
  · obtain ⟨e, he⟩ : ∃ e, regionEntry s₀.phys.mem (s₀.procs parent).space k = e := ⟨_, rfl⟩
    have hmem := List.mem_of_getElem? (hp.entry h3 hk)
    rcases hp.segs _ hmem with hseg | hseg
    · exact Prog.wp_mono (h.step_code hp hne h3 hk hseg) (fun _ _ ⟨fl', h'⟩ => ⟨D, fl', h'⟩)
        (fun _ h => h) fun _ h => h
    · obtain ⟨va, np, seg⟩ := e
      obtain rfl : seg = some .DATA := by rw [← hseg, he]
      have hfew := hp.few
      refine Prog.wp_mono (h.step_data hp hne (by omega) he) ?_ (fun _ h => h) fun _ h => h
      rintro _ s' ⟨hs, ps, fl', hpages⟩
      exact ⟨_, fl', h.after_data hp h3 hk hseg hs hpages⟩
  · obtain rfl | rfl | rfl : k = 0 ∨ k = 1 ∨ k = 2 := by omega
    · exact Prog.wp_mono (h.step_stack hp hne) (fun _ _ h' => ⟨D, fl, h'⟩) (fun _ h => h)
        fun _ _ => trivial
    · exact Prog.wp_mono (h.step_context hp hne) (fun _ _ h' => ⟨D, fl, h'⟩) (fun _ h => h)
        fun _ _ => trivial
    · exact Prog.wp_mono (h.step_system hp hne) (fun _ _ h' => ⟨D, fl, h'⟩) (fun _ h => h)
        fun _ h => h.elim

end Copying

/-! ## The loop from the start -/

theorem forkRegions_append (parent i : Pid) (js : List ℕ) (k : ℕ) :
    forkRegions parent i (js ++ [k]) = (do
      forkRegions parent i js
      forkRegion parent i k) := by
  induction js with
  | nil => exact Prog.bind_pure (forkRegion parent i k)
  | cons j js ih => simp only [List.cons_append, forkRegions, ih, Prog.bind_assoc]

section Loop

variable {s₀ s₁ s : Kernel} {parent i : Pid} {rs : List (Word × BitVec 32 × Option SegType)}
  {a : AddrSpace} {tf pt ks us mi : Ppn}

/-- The loop starts in the state that `alloc_process` left. -/
theorem Made.copying (h : Made L s₀ fl₀ i tf pt ks us mi s₁ fl)
    (parent : Pid) (rs : List (Word × BitVec 32 × Option SegType)) :
    Copying L s₀ fl₀ parent i rs (withPages (s₀.procs i) tf pt ks mi).space us 0 s₁
      {tf, ks, us, mi} fl := by
  have ha := withPages_aligned (s₀.procs i) tf pt ks mi
  have hroot := withPages_root (s₀.procs i) tf pt ks mi
  have hown := withPages_own (s₀.procs i) tf pt ks mi
  have hself : s₁.procs i = { withPages (s₀.procs i) tf pt ks mi with totalMappedRegion := 3 } := by
    rw [h.procs, Function.update_self]
  obtain ⟨rest, hlist⟩ := h.list
  have hnodup := h.filling.built.free.nodup
  rw [hlist] at hnodup
  simp only [List.nodup_cons, List.mem_cons, not_or] at hnodup
  obtain ⟨⟨-, -, htu, htm, -⟩, -, -, ⟨hum, -⟩, -⟩ := hnodup
  refine ⟨⟨_, _, _, h.rest⟩, ?_, ha, ⟨by simp, fun o => ?_⟩, ?_, ?_, ?_, by omega, by omega,
    by simp, ?_⟩
  · exact ⟨h.space, by simp only [hself, withPages]⟩
  · rw [hown]
    cases o <;> simp
  · rw [hown, hown]
    exact ⟨hum, Ne.symm htu, htm⟩
  · rw [hroot]
    exact h.filling.built
  · rw [hroot, h.filling.leaf]
    exact h.stack
  · rw [hself]
    dsimp only
    rw [regionList_congr ha h.filling.info (by omega), regionList_initial]
    simp

theorem forkRegions_copying {D : Set Ppn} (hp : ForkParent s₀ fl₀ parent rs) (hne : parent ≠ i)
    (h : Copying L s₀ fl₀ parent i rs a us 0 s₁ D fl) :
    ∀ (k : ℕ) (s : Kernel), k ≤ 3 + rs.length →
      forkRegions parent i (List.range k) s₁ = .ret () s →
      ∃ D' fl', Copying L s₀ fl₀ parent i rs a us k s D' fl' := by
  intro k
  induction k with
  | zero =>
    intro s _ hrun
    obtain ⟨-, rfl⟩ : () = () ∧ s₁ = s := by simpa [forkRegions] using hrun
    exact ⟨D, fl, h⟩
  | succ k ih =>
    intro s hk hrun
    rw [List.range_succ, forkRegions_append] at hrun
    obtain ⟨_, s₂, hrun₁, hrun₂⟩ := Prog.bind_eq_ret.mp hrun
    obtain ⟨D', fl', hcopying⟩ := ih s₂ (by omega) hrun₁
    exact Prog.wp_ret (hcopying.step hp hne (by omega)) hrun₂

/-- The stack and the trapframe of the parent are copied if they are there. -/
theorem forkRegions_first {D : Set Ppn} (hp : ForkParent s₀ fl₀ parent rs) (hne : parent ≠ i)
    (h : Copying L s₀ fl₀ parent i rs a us 0 s₁ D fl)
    (hstack : lookupAnswer s₀.phys.mem (s₀.procs parent).space.root (USER_STACK_TOP - PGSIZE) ≠ 0)
    (htf : (s₀.procs parent).space.own .trapframe ≠ 0) :
    ∃ s, forkRegions parent i (List.range 3) s₁ = .ret () s := by
  obtain ⟨⟨⟩, t₁, hrun₁, h₁⟩ := Prog.returns_of_wp (h.step_stack hp hne) fun _ h0 => hstack h0
  obtain ⟨⟨⟩, t₂, hrun₂, h₂⟩ := Prog.returns_of_wp (h₁.step_context hp hne) fun _ h0 => htf h0
  obtain ⟨⟨⟩, t₃, hrun₃, -⟩ := Prog.returns_of_wp (h₂.step_system hp hne) fun _ h => h
  refine ⟨t₃, ?_⟩
  rw [show List.range 3 = [0, 1, 2] from rfl, forkRegions, Prog.bind_of_ret hrun₁, forkRegions,
    Prog.bind_of_ret hrun₂, forkRegions, Prog.bind_of_ret hrun₃]
  rfl

end Loop

end Pke
