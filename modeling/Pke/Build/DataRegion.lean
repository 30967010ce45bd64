import Mathlib.Data.List.GetD
import Pke.Build.DoFork
import Pke.Build.Frames

/-!
# A data region in `do_fork`

When the loop of `do_fork` comes to a region of data, it copies the region exactly if the
region starts at a page boundary, ends below `2 ^ 31`, none of its pages is mapped in the
child yet, and the pages and the tables for them are on the free list.
-/

namespace Pke

open Lib Radix

variable {L : Layout} {s s' : Kernel} {s₀ ph ph' : Phys} {fl₀ fl fl' : List Ppn} {D : Set Ppn}
  {r r' : Ppn} {va : Word}

/-! ## Addresses that went through an `int` -/

theorem int_toNat (va : Word) (j : ℕ) :
    ((va + PGSIZE * BitVec.ofNat 64 j).setWidth 32 : BitVec 32).toNat =
      (va.toNat + 4096 * j) % 2 ^ 32 := by
  rw [BitVec.toNat_setWidth, BitVec.toNat_add, BitVec.toNat_mul, BitVec.toNat_ofNat,
    show PGSIZE.toNat = 4096 from rfl]
  omega

/-- A positive `int` stays what it is. -/
theorem dataVa_of_low {j : ℕ} (h : (va.toNat + 4096 * j) % 2 ^ 32 < 2 ^ 31) :
    (dataVa va j).toNat = (va.toNat + 4096 * j) % 2 ^ 32 := by
  rw [dataVa, asInt, BitVec.toNat_signExtend, BitVec.toNat_setWidth, BitVec.msb_eq_decide,
    int_toNat,
    decide_eq_false (by omega), if_neg Bool.false_ne_true]
  omega

/-- A negative `int` is an address that no page table covers. -/
theorem dataVa_of_high {j : ℕ} (h : 2 ^ 31 ≤ (va.toNat + 4096 * j) % 2 ^ 32) :
    2 ^ 38 ≤ (dataVa va j).toNat := by
  rw [dataVa, asInt, BitVec.toNat_signExtend, BitVec.toNat_setWidth, BitVec.msb_eq_decide,
    int_toNat,
    decide_eq_true (by omega), if_pos rfl]
  omega

theorem dataVa_toNat {j : ℕ} (h : va.toNat + 4096 * j < 2 ^ 31) :
    (dataVa va j).toNat = va.toNat + 4096 * j := by
  have hmod : (va.toNat + 4096 * j) % 2 ^ 32 = va.toNat + 4096 * j := Nat.mod_eq_of_lt (by omega)
  rw [dataVa_of_low (by omega), hmod]

/-- An address at which something was found is the lower part of the address meant. -/
theorem dataVa_of_found {j : ℕ} {m : Mem} (h : lookupAnswer m r (dataVa va j) ≠ 0) :
    (va.toNat + 4096 * j) % 2 ^ 32 < 2 ^ 31 := by
  by_contra hhigh
  refine h ?_
  have := dataVa_of_high (by omega : 2 ^ 31 ≤ (va.toNat + 4096 * j) % 2 ^ 32)
  rw [lookupAnswer, if_pos]
  rw [BitVec.le_def]
  exact this

/-! ## The loop over the pages of an aligned region -/

/-- The loop returns if the pages can be read, are not mapped yet and fit. -/
theorem forkData_ok (hoff : OffList s₀ fl₀ r') (hal : va % PGSIZE = 0) {Q : Finset (List Idx)}
    (hQ : ∀ π ∈ Q, π.length ≤ 2) :
    ∀ (d j : ℕ) {D : Set Ppn} {ph : Phys} {fl : List Ppn}, Built s₀ fl₀ r D ph fl →
      (∀ i < d, va.toNat + 4096 * (j + i) < 2 ^ 31) →
      (∀ i < d, lookupAnswer s₀.mem r' (dataVa va (j + i)) ≠ 0) →
      (∀ i < d, translate ph.mem r (vpnOf (va.toNat / 4096 + (j + i))) = none) →
      (∀ i < d, tablePaths (va.toNat / 4096 + (j + i)) 1 ⊆ Q) →
      missing ptePage ph.mem r Q + d ≤ fl.length →
      ∃ ph', forkData (addr r') (addr r) va (List.range' j d) ph = .ret () ph' := by
  have halN := toNat_mod_PGSIZE hal
  intro d
  induction d with
  | zero => exact fun j {D ph fl} _ _ _ _ _ _ => ⟨ph, rfl⟩
  | succ d ih =>
    intro j D ph fl hb hlow hsrc hnone hpaths hlen
    have hvaj : (dataVa va j).toNat = va.toNat + 4096 * j := dataVa_toNat (hlow 0 (by omega))
    have hpage : (dataVa va j).toNat / 4096 = va.toNat / 4096 + j := by omega
    have hcount : mapCount (dataVa va j) = 1 := if_pos (by omega)
    have hlow0 := hlow 0 (by omega)
    have hpath0 : tablePaths (va.toNat / 4096 + j) 1 ⊆ Q := hpaths 0 (by omega)
    have hneed : missing ptePage ph.mem r _ ≤ missing ptePage ph.mem r Q := missing_mono hpath0
    obtain ⟨⟨⟩, ph₁, hrun, p, fl₁, hcopied⟩ := Prog.returns_of_wp
      (@forkPage_copied _ _ _ _ _ _ _ (dataVa va j) hb hoff) fun _ hn =>
      hn ⟨hsrc 0 (by omega), by omega, fun k hk => by
        obtain rfl : k = 0 := by omega
        rw [hpage]
        exact hnone 0 (by omega), by
        rw [hpage, hcount, tablesNeeded]
        omega⟩
    obtain ⟨fl₂, rfl, hcnt⟩ := hcopied.page.list
    have hmissing := hcnt Q hQ (by rw [hpage, hcount]; exact hpath0)
    rw [List.length_cons] at hlen
    have hshift : ∀ i, j + 1 + i = j + (i + 1) := fun i => by omega
    -- the other pages are not mapped by the first copy
    have hnone' : ∀ i < d, translate ph₁.mem r (vpnOf (va.toNat / 4096 + (j + 1 + i))) = none := by
      intro i hi
      have hlow' := hlow (i + 1) (by omega)
      rw [hcopied.page.leaf, if_neg, hshift]
      · exact hnone (i + 1) (by omega)
      · rw [hpage, hcount, vpnOf_toNat (by omega)]
        omega
    obtain ⟨ph', hrest⟩ := ih (j + 1) hcopied.page.built
      (fun i hi => by rw [hshift]; exact hlow (i + 1) (by omega))
      (fun i hi => by rw [hshift]; exact hsrc (i + 1) (by omega)) hnone'
      (fun i hi => by rw [hshift]; exact hpaths (i + 1) (by omega)) (by omega)
    refine ⟨ph', ?_⟩
    rw [List.range'_succ, forkData_cons, Prog.bind_of_ret hrun]
    exact hrest

/-! ## What a data region is copied to -/

/-- The region of the `n` pages from `va` on was copied from process `c` to process `i`: its
    pages and no others became mapped, each to a page of its own from the free list `fl` with
    the contents of that page of process `c`. -/
structure DataRegionCopied (s : Kernel) (fl : List Ppn) (c i : Pid) (va : Word) (n : ℕ)
    (s' : Kernel) : Prop where
  mapped : ∀ v, translate s'.phys.mem (s.procs i).space.root v ≠ none ↔
    translate s.phys.mem (s.procs i).space.root v ≠ none ∨ ∃ j < n, v = vpnOf (va.toNat / 4096 + j)
  copies : ∃ frame : ℕ → Ppn, (∀ j < n, ∀ j' < n, frame j = frame j' → j = j') ∧ ∀ j < n,
    frame j ∈ fl ∧ (∀ fl', FreeList s'.phys fl' → frame j ∉ fl') ∧
    (∃ e, translate s'.phys.mem (s.procs i).space.root (vpnOf (va.toNat / 4096 + j)) = some e ∧
      ptePpn e = frame j) ∧
    ∃ w, translate s.phys.mem (s.procs c).space.root (vpnOf (va.toNat / 4096 + j)) = some w ∧
      s'.phys.mem (frame j) = s.phys.mem (ptePpn w)

/-- The page of the region can be read in process `c`. -/
def DataReadable (m : Mem) (root : Ppn) (va : Word) (j : ℕ) : Prop :=
  va.toNat / 4096 + j < 2 ^ 26 ∧ ∃ w, translate m root (vpnOf (va.toNat / 4096 + j)) = some w ∧
    (w &&& PTE_R ≠ 0 ∨ w &&& PTE_W ≠ 0) ∧ ptePpn w ≠ 0

theorem mem_zip_range {α β : Type} {f : ℕ → α} {n : ℕ} {ps : List β} (hlen : ps.length = n) (d : β)
    {x : α} {p : β} :
    (x, p) ∈ ((List.range n).map f).zip ps ↔ ∃ j < n, x = f j ∧ p = ps.getD j d := by
  subst hlen
  rw [List.mem_iff_getElem]
  simp only [List.length_zip, List.length_map, List.length_range, min_self, List.getElem_zip,
    List.getElem_map, List.getElem_range, Prod.mk.injEq]
  constructor
  · rintro ⟨j, hj, rfl, rfl⟩
    exact ⟨j, hj, rfl, (List.getD_eq_getElem _ _ hj).symm⟩
  · rintro ⟨j, hj, rfl, rfl⟩
    exact ⟨j, hj, rfl, (List.getD_eq_getElem _ _ hj).symm⟩

section Region

variable {n : ℕ} {ps : List Ppn}

namespace PagesCopied

/-- The entries that the copies have. -/
theorem leaf_range
    (h : PagesCopied s₀ fl₀ r r' D ((List.range n).map (dataVa va)) ph fl ps ph' fl') (v : Vpn)
    (e : Word) : translate ph'.mem r v = some e ↔ translate ph.mem r v = some e ∨
      ∃ j < n, ∃ k < mapCount (dataVa va j), v = vpnOf ((dataVa va j).toNat / 4096 + k) ∧
        e = mkPte (addr (ps.getD j 0) + vaddr k) userDataPerm := by
  have hlen : ps.length = n := by simpa using h.length
  rw [h.leaf, DataLeaf]
  refine or_congr_right ⟨?_, ?_⟩
  · rintro ⟨x, p, k, hmem, hk, hv, he⟩
    obtain ⟨j, hj, rfl, rfl⟩ := (mem_zip_range hlen 0).mp hmem
    exact ⟨j, hj, k, hk, hv, he⟩
  · rintro ⟨j, hj, k, hk, hv, he⟩
    exact ⟨_, _, k, (mem_zip_range hlen 0).mpr ⟨j, hj, rfl, rfl⟩, hk, hv, he⟩

/-- The sources of the copies. -/
theorem source_range
    (h : PagesCopied s₀ fl₀ r r' D ((List.range n).map (dataVa va)) ph fl ps ph' fl') {j : ℕ}
    (hj : j < n) : ∃ q, q ≠ 0 ∧ lookupAnswer s₀.mem r' (dataVa va j) = addr q ∧
      ph'.mem (ps.getD j 0) = s₀.mem q := by
  have hlen : ps.length = n := by simpa using h.length
  exact h.source _ _ ((mem_zip_range hlen 0).mpr ⟨j, hj, rfl, rfl⟩)

/-- The copies are different pages of the free list. -/
theorem frame_range
    (h : PagesCopied s₀ fl₀ r r' D ((List.range n).map (dataVa va)) ph fl ps ph' fl') :
    (∀ j < n, ∀ j' < n, ps.getD j 0 = ps.getD j' 0 → j = j') ∧
      ∀ j < n, ps.getD j 0 ∈ fl ∧ ps.getD j 0 ∉ fl' := by
  have hlen : ps.length = n := by simpa using h.length
  subst hlen
  refine ⟨fun j hj j' hj' heq => ?_, fun j hj => ?_⟩
  · rw [List.getD_eq_getElem _ _ hj, List.getD_eq_getElem _ _ hj'] at heq
    exact (h.nodup.getElem_inj_iff).mp heq
  · rw [List.getD_eq_getElem _ _ hj]
    exact ⟨h.free _ (List.getElem_mem hj),
      h.built.not_free (Set.mem_union_right _ (List.getElem_mem hj))⟩

/-- An aligned region maps its own pages. -/
theorem mapped_of_aligned
    (h : PagesCopied s₀ fl₀ r r' D ((List.range n).map (dataVa va)) ph fl ps ph' fl')
    (hal : va % PGSIZE = 0) (hlow : ∀ j < n, va.toNat + 4096 * j < 2 ^ 31) (v : Vpn) (e : Word) :
    translate ph'.mem r v = some e ↔ translate ph.mem r v = some e ∨
      ∃ j < n, v = vpnOf (va.toNat / 4096 + j) ∧ e = mkPte (addr (ps.getD j 0)) userDataPerm := by
  have halN := toNat_mod_PGSIZE hal
  rw [h.leaf_range]
  refine or_congr_right (exists_congr fun j => and_congr_right fun hj => ?_)
  have hva := dataVa_toNat (hlow j hj)
  have hcount : mapCount (dataVa va j) = 1 := if_pos (by omega)
  have hpage : (dataVa va j).toNat / 4096 = va.toNat / 4096 + j := by omega
  rw [hcount, hpage]
  constructor
  · rintro ⟨k, hk, hv, he⟩
    obtain rfl : k = 0 := by omega
    refine ⟨hv, ?_⟩
    rw [he, show vaddr 0 = 0#64 from rfl, BitVec.add_zero]
  · rintro ⟨hv, he⟩
    refine ⟨0, by omega, hv, ?_⟩
    rw [he, show vaddr 0 = 0#64 from rfl, BitVec.add_zero]

/-- Every page that was mapped has an entry now and had none before. -/
theorem newly_mapped
    (h : PagesCopied s₀ fl₀ r r' D ((List.range n).map (dataVa va)) ph fl ps ph' fl') {j k : ℕ}
    (hj : j < n) (hk : k < mapCount (dataVa va j)) :
    translate ph.mem r (vpnOf ((dataVa va j).toNat / 4096 + k)) = none ∧
      translate ph'.mem r (vpnOf ((dataVa va j).toNat / 4096 + k)) ≠ none := by
  refine ⟨h.unmapped _ (List.mem_map_of_mem (List.mem_range.mpr hj)) k hk, ?_⟩
  rw [(h.leaf_range _ _).mpr (Or.inr ⟨j, hj, k, hk, rfl, rfl⟩)]
  exact Option.some_ne_none _

/-- If only pages of the region became mapped, the addresses were not cut off. -/
theorem low_of_exact
    (h : PagesCopied s₀ fl₀ r r' D ((List.range n).map (dataVa va)) ph fl ps ph' fl')
    (hexact : ∀ v, translate ph'.mem r v ≠ none →
      translate ph.mem r v ≠ none ∨ ∃ j < n, v = vpnOf (va.toNat / 4096 + j))
    (hV : ∀ j < n, va.toNat / 4096 + j < 2 ^ 26) : ∀ j < n, va.toNat + 4096 * j < 2 ^ 31 := by
  have hfound : ∀ j < n, (va.toNat + 4096 * j) % 2 ^ 32 < 2 ^ 31 := by
    intro j hj
    obtain ⟨q, hq0, hq, -⟩ := h.source_range hj
    exact dataVa_of_found (by rw [hq]; exact mt addr_eq_zero.mp hq0)
  intro j
  induction j with
  | zero =>
    intro hn
    -- the first page that was mapped is one of the region, so nothing was cut off
    have hlow := hfound 0 hn
    have hva := dataVa_of_low hlow
    have hcount : 0 < mapCount (dataVa va 0) := by
      unfold mapCount
      split_ifs <;> omega
    obtain ⟨hnone, hsome⟩ := h.newly_mapped hn hcount
    obtain ⟨j', hj', heq⟩ := (hexact _ hsome).resolve_left (not_not_intro hnone)
    have hV' := hV j' hj'
    rw [eq_vpnOf_iff (by omega), vpnOf_toNat (by omega)] at heq
    omega
  | succ j ih =>
    intro hj
    have hprev := ih (by omega)
    have hlow := hfound (j + 1) hj
    omega

/-- If only pages of the region became mapped, it starts at a page boundary. -/
theorem aligned_of_exact
    (h : PagesCopied s₀ fl₀ r r' D ((List.range n).map (dataVa va)) ph fl ps ph' fl')
    (hexact : ∀ v, translate ph'.mem r v ≠ none →
      translate ph.mem r v ≠ none ∨ ∃ j < n, v = vpnOf (va.toNat / 4096 + j))
    (hlow : ∀ j < n, va.toNat + 4096 * j < 2 ^ 31) (hn : 0 < n) : va.toNat % 4096 = 0 := by
  by_contra hal
  -- otherwise the last copy maps the page behind the region
  have hva := dataVa_toNat (hlow (n - 1) (by omega))
  have hlast := hlow (n - 1) (by omega)
  have hcount : mapCount (dataVa va (n - 1)) = 2 := by
    unfold mapCount
    rw [if_neg (by omega), if_pos (by omega)]
  obtain ⟨hnone, hsome⟩ := h.newly_mapped (by omega : n - 1 < n) (by omega : 1 < mapCount _)
  obtain ⟨j', hj', heq⟩ := (hexact _ hsome).resolve_left (not_not_intro hnone)
  rw [eq_vpnOf_iff (by omega), vpnOf_toNat (by omega)] at heq
  omega

/-- The pages and the tables for them were on the free list. -/
theorem pages_le
    (h : PagesCopied s₀ fl₀ r r' D ((List.range n).map (dataVa va)) ph fl ps ph' fl')
    (hal : va % PGSIZE = 0) (hlow : ∀ j < n, va.toNat + 4096 * j < 2 ^ 31) :
    n + tablesNeeded ph.mem r (va.toNat / 4096) n ≤ fl.length := by
  have halN := toNat_mod_PGSIZE hal
  have hpaths : ∀ x ∈ (List.range n).map (dataVa va),
      tablePaths (x.toNat / 4096) (mapCount x) ⊆ tablePaths (va.toNat / 4096) n := by
    intro x hx
    obtain ⟨j, hj, rfl⟩ := List.mem_map.mp hx
    have hj := List.mem_range.mp hj
    have hva := dataVa_toNat (hlow j hj)
    have hcount : mapCount (dataVa va j) = 1 := if_pos (by omega)
    intro π hπ
    obtain ⟨k, hk, hpre⟩ := mem_tablePaths.mp hπ
    refine mem_tablePaths.mpr ⟨j, hj, ?_⟩
    rwa [show (dataVa va j).toNat / 4096 + k = va.toNat / 4096 + j by omega] at hpre
  have hcount := h.count _ (fun π => tablePaths_length) hpaths
  -- in the end no table is missing
  have hzero : missing ptePage ph'.mem r (tablePaths (va.toNat / 4096) n) = 0 := by
    unfold missing
    rw [Finset.card_eq_zero, Finset.filter_eq_empty_iff]
    intro π hπ hnone
    obtain ⟨j, hj, hpre⟩ := mem_tablePaths.mp hπ
    refine nodeAt_of_leaf ?_ hpre (Option.isNone_iff_eq_none.mp hnone)
    rw [(h.mapped_of_aligned hal hlow _ _).mpr (Or.inr ⟨j, hj, rfl, rfl⟩)]
    exact Option.some_ne_none _
  rw [List.length_map, List.length_range] at hcount
  unfold tablesNeeded
  omega

end PagesCopied

end Region

/-! ## The region in the loop -/

section InLoop

variable {s₀ s₁ s : Kernel} {c i : Pid} {rs : List (Word × BitVec 32 × Option SegType)}
  {a : AddrSpace} {us : Ppn} {k : ℕ} {np : BitVec 32}

/-- Writing the address of the region changes no table. -/
theorem Copying.store_va_tables (h : Copying L s₀ fl₀ c i rs a us k s D fl) (hk : k < 256)
    (va : Word) :
    (∀ v, translate (store64 s.phys.mem (regionAddr a.mappedInfo k) va) a.root v =
      translate s.phys.mem a.root v) ∧
    ∀ V n, tablesNeeded (store64 s.phys.mem (regionAddr a.mappedInfo k) va) a.root V n =
      tablesNeeded s.phys.mem a.root V n := by
  have hm : ∀ q ∈ tablePages s.phys.mem {a.root},
      store64 s.phys.mem (regionAddr a.mappedInfo k) va q = s.phys.mem q := fun q hq =>
    store_va_of_ne h.aligned hk fun heq => h.built.apart _ (h.own.2 .info) (heq ▸ hq)
  refine ⟨fun v => translate_congr hm (Set.mem_singleton _) v, fun V n => ?_⟩
  exact missing_congr fun π hπ => nodeAt_congr (Set.mem_singleton _) hm π
    ((tablePaths_length hπ).trans (by omega))

/-- The pages of the parent can still be read. -/
theorem Copying.readable (h : Copying L s₀ fl₀ c i rs a us k s D fl)
    (hp : ForkParent s₀ fl₀ c rs) (hne : c ≠ i) {v : Vpn} {w : Word}
    (hw : translate s₀.phys.mem (s₀.procs c).space.root v = some w) :
    translate s.phys.mem (s.procs c).space.root v = some w ∧
      s.phys.mem (ptePpn w) = s₀.phys.mem (ptePpn w) := by
  rw [h.procs hne, h.built.translate_off hp.off.tables.apart]
  exact ⟨hw, h.built.frame _ (hp.off.frames _ _ hw)⟩

/-- `lookup_pa` finds the pages of an aligned region. -/
theorem DataReadable.lookup {m : Mem} {root : Ppn} {j : ℕ} (h : DataReadable m root va j)
    (hlow : va.toNat + 4096 * j < 2 ^ 31) :
    ∃ w, translate m root (vpnOf (va.toNat / 4096 + j)) = some w ∧ ptePpn w ≠ 0 ∧
      lookupAnswer m root (dataVa va j) = addr (ptePpn w) := by
  obtain ⟨hV, w, hw, hRW, hw0⟩ := h
  have hva := dataVa_toNat hlow
  have hvpn : vpn (dataVa va j) = vpnOf (va.toNat / 4096 + j) := by
    rw [eq_vpnOf_iff (by omega), vpn_toNat (by omega)]
    omega
  exact ⟨w, hw, hw0, lookupAnswer_readable (lt_MAXVA (by omega)) (hvpn ▸ hw) hRW⟩

/-- The region of the `n` pages from `va` on can be copied to process `i`: it is aligned and
    below `2 ^ 31`, its pages are not mapped yet, and there are pages for it and its tables. -/
def DataFits (s : Kernel) (fl : List Ppn) (i : Pid) (va : Word) (n : ℕ) : Prop :=
  n = 0 ∨ va % PGSIZE = 0 ∧ va.toNat + 4096 * (n - 1) < 2 ^ 31 ∧
    (∀ j < n, translate s.phys.mem (s.procs i).space.root (vpnOf (va.toNat / 4096 + j)) = none) ∧
    n + tablesNeeded s.phys.mem (s.procs i).space.root (va.toNat / 4096) n ≤ fl.length

theorem DataFits.returns (h : Copying L s₀ fl₀ c i rs a us k s D fl) (hp : ForkParent s₀ fl₀ c rs)
    (hk : k < 256)
    (hread : ∀ j < np.toNat, DataReadable s₀.phys.mem (s₀.procs c).space.root va j)
    (hfits : DataFits s fl i va np.toNat) :
    ∃ ph', forkData (addr (s₀.procs c).space.root) (addr a.root) va (List.range np.toNat)
      { s.phys with mem := store64 s.phys.mem (regionAddr a.mappedInfo k) va } = .ret () ph' := by
  obtain ⟨htrans, hneed⟩ := h.store_va_tables hk va
  rcases hfits with h0 | ⟨hal, hlow, hnone, hlen⟩
  · rw [h0]
    exact ⟨_, rfl⟩
  · rw [h.self.1] at hnone hlen
    rw [List.range_eq_range']
    have hlow' : ∀ j < np.toNat, va.toNat + 4096 * (0 + j) < 2 ^ 31 := fun j hj => by omega
    refine forkData_ok hp.off hal (Q := tablePaths (va.toNat / 4096) np.toNat)
      (fun π => tablePaths_length) _ 0 (h.store_va hk va) hlow' (fun j hj => ?_) (fun j hj => ?_)
      (fun j hj π hπ => ?_) ?_
    · obtain ⟨w, -, hw0, hans⟩ := (hread j hj).lookup (by omega)
      rw [Nat.zero_add, hans]
      exact mt addr_eq_zero.mp hw0
    · rw [Nat.zero_add]
      exact (htrans _).trans (hnone j hj)
    · obtain ⟨i, hi, hpre⟩ := mem_tablePaths.mp hπ
      refine mem_tablePaths.mpr ⟨j, hj, ?_⟩
      rwa [show va.toNat / 4096 + (0 + j) + i = va.toNat / 4096 + j by omega] at hpre
    · have := hneed (va.toNat / 4096) np.toNat
      unfold tablesNeeded at this hlen
      dsimp only
      omega

/-- A region that fits is copied. -/
theorem DataFits.copied (h : Copying L s₀ fl₀ c i rs a us k s D fl) (hp : ForkParent s₀ fl₀ c rs)
    (hne : c ≠ i) (hk : k < 256) {ps : List Ppn}
    (hread : ∀ j < np.toNat, DataReadable s₀.phys.mem (s₀.procs c).space.root va j)
    (hfits : DataFits s fl i va np.toNat)
    (hpages : PagesCopied s₀.phys fl₀ a.root (s₀.procs c).space.root D
      ((List.range np.toNat).map (dataVa va))
      { s.phys with mem := store64 s.phys.mem (regionAddr a.mappedInfo k) va } fl ps s'.phys fl') :
    DataRegionCopied s fl c i va np.toNat s' := by
  obtain ⟨htrans, -⟩ := h.store_va_tables hk va
  have hlow : ∀ j < np.toNat, va.toNat + 4096 * j < 2 ^ 31 := by
    rcases hfits with h0 | ⟨-, hlow, -, -⟩
    · omega
    · intro j hj
      omega
  have hleaf : ∀ v e, translate s'.phys.mem a.root v = some e ↔
      translate s.phys.mem a.root v = some e ∨ ∃ j < np.toNat, v = vpnOf (va.toNat / 4096 + j) ∧
        e = mkPte (addr (ps.getD j 0)) userDataPerm := by
    intro v e
    rw [← htrans v]
    rcases hfits with h0 | ⟨hal, -, -, -⟩
    · rw [hpages.leaf_range, h0]
      simp
    · exact hpages.mapped_of_aligned hal hlow v e
  obtain ⟨hinj, hframe⟩ := hpages.frame_range
  refine ⟨fun v => ?_, fun j => ps.getD j 0, hinj, fun j hj => ⟨(hframe j hj).1, ?_, ?_, ?_⟩⟩
  · rw [h.self.1]
    simp only [Option.ne_none_iff_exists', hleaf, exists_or]
    refine or_congr_right ⟨?_, ?_⟩
    · rintro ⟨e, j, hj, hv, -⟩
      exact ⟨j, hj, hv⟩
    · rintro ⟨j, hj, hv⟩
      exact ⟨_, j, hj, hv, rfl⟩
  · intro fl₂ hfl₂
    rw [Chain.unique addr_injective hfl₂ hpages.built.tables.free]
    exact (hframe j hj).2
  · refine ⟨_, by rw [h.self.1]; exact (hleaf _ _).mpr (Or.inr ⟨j, hj, rfl, rfl⟩), ?_⟩
    rw [ptePpn_mkPte _ (by decide), ppn_addr]
  · obtain ⟨w, hw, -, hans⟩ := (hread j hj).lookup (hlow j hj)
    obtain ⟨q, -, hq, hcopy⟩ := hpages.source_range hj
    obtain rfl : q = ptePpn w := addr_injective (hq.symm.trans hans)
    obtain ⟨hw', hsame⟩ := h.readable hp hne hw
    exact ⟨w, hw', by rw [hcopy, hsame]⟩

/-- A region that was copied fitted. -/
theorem DataRegionCopied.fits (h : Copying L s₀ fl₀ c i rs a us k s D fl) (hk : k < 256)
    {ps : List Ppn}
    (hread : ∀ j < np.toNat, DataReadable s₀.phys.mem (s₀.procs c).space.root va j)
    (hcopied : DataRegionCopied s fl c i va np.toNat s')
    (hpages : PagesCopied s₀.phys fl₀ a.root (s₀.procs c).space.root D
      ((List.range np.toNat).map (dataVa va))
      { s.phys with mem := store64 s.phys.mem (regionAddr a.mappedInfo k) va } fl ps s'.phys fl') :
    DataFits s fl i va np.toNat := by
  obtain ⟨htrans, hneed⟩ := h.store_va_tables hk va
  rcases Nat.eq_zero_or_pos np.toNat with h0 | hpos
  · exact Or.inl h0
  have hmapped := hcopied.mapped
  rw [h.self.1] at hmapped
  have hexact : ∀ v, translate s'.phys.mem a.root v ≠ none →
      translate (store64 s.phys.mem (regionAddr a.mappedInfo k) va) a.root v ≠ none ∨
        ∃ j < np.toNat, v = vpnOf (va.toNat / 4096 + j) := fun v hv => by
    rw [htrans]
    exact (hmapped v).mp hv
  have hlow := hpages.low_of_exact hexact fun j hj => (hread j hj).1
  have halN := hpages.aligned_of_exact hexact hlow hpos
  have hal : va % PGSIZE = 0 := by
    apply BitVec.eq_of_toNat_eq
    rw [BitVec.toNat_umod]
    exact halN
  refine Or.inr ⟨hal, hlow _ (by omega), fun j hj => ?_, ?_⟩
  · have hva := dataVa_toNat (hlow j hj)
    have hlow' := hlow j hj
    have hcount : mapCount (dataVa va j) = 1 := if_pos (by omega)
    have hnone := (hpages.newly_mapped hj (by omega : 0 < mapCount (dataVa va j))).1
    rw [show (dataVa va j).toNat / 4096 + 0 = va.toNat / 4096 + j by omega] at hnone
    rw [h.self.1, ← htrans]
    exact hnone
  · have hle := hpages.pages_le hal hlow
    rw [h.self.1, ← hneed]
    exact hle

/-- **Which data regions `do_fork` copies.** When its loop comes to a region of data that the
    parent can read, the region is copied, and nothing else is mapped, if and only if it
    starts at a page boundary, ends below `2 ^ 31`, has no page that the child maps already,
    and fits into the free pages. -/
theorem dataRegion_iff (hfree : FreeList s₀.phys fl₀) (hp : ForkParent s₀ fl₀ c rs)
    (halloc : allocProcess L s₀ = .ret i s₁)
    (hloop : forkRegions c i (List.range k) s₁ = .ret () s)
    (hk : k < (s₀.procs c).totalMappedRegion)
    (hentry : regionEntry s₀.phys.mem (s₀.procs c).space k = (va, np, some .DATA))
    (hread : ∀ j < np.toNat, DataReadable s₀.phys.mem (s₀.procs c).space.root va j)
    (hfl : FreeList s.phys fl) :
    (∃ s', forkRegion c i k s = .ret () s' ∧ DataRegionCopied s fl c i va np.toNat s') ↔
      DataFits s fl i va np.toNat := by
  obtain ⟨hslot, tf, pt, ks, us, mi, fl₁, hmade⟩ := Prog.wp_ret (allocProcess_made hfree) halloc
  have hne : c ≠ i := by
    rintro rfl
    exact hp.used hslot
  have hfew := hp.few
  rw [hp.total] at hk
  have hk256 : k < 256 := by omega
  obtain ⟨D, fl₂, h⟩ := forkRegions_copying hp hne (hmade.copying c rs) k s hk.le hloop
  obtain rfl : fl = fl₂ := Chain.unique addr_injective hfl h.built.tables.free
  constructor
  · rintro ⟨s', hrun, hcopied⟩
    obtain ⟨-, ps, fl', hpages⟩ := Prog.wp_ret (h.step_data hp hne hk256 hentry) hrun
    exact hcopied.fits h hk256 hread hpages
  · intro hfits
    obtain ⟨ph', hdata⟩ := hfits.returns h hp hk256 hread
    obtain ⟨⟨⟩, s', hrun, -⟩ := Prog.returns_of_wp (h.wp_data hp hne hk256 hentry
      (R := fun _ => True) (N := fun _ => False) ((Prog.wp_of_ret hdata).mpr trivial)) fun _ h => h
    obtain ⟨-, ps, fl', hpages⟩ := Prog.wp_ret (h.step_data hp hne hk256 hentry) hrun
    exact ⟨s', hrun, hfits.copied h hp hne hk256 hread hpages⟩

end InLoop

theorem dataRegion_sample : ∃ s₀ fl₀ c i s₁ s fl, FreeList s₀.phys fl₀ ∧
    ForkParent s₀ fl₀ c [(0x10000, 1, some .DATA)] ∧
    allocProcess sampleLayout s₀ = .ret i s₁ ∧
    forkRegions c i (List.range 3) s₁ = .ret () s ∧ FreeList s.phys fl ∧
    ∃ s', forkRegion c i 3 s = .ret () s' ∧ DataRegionCopied s fl c i 0x10000 1 s' := by
  obtain ⟨s₀, fl₀, e, r, s', hfree, -, hp₀, hseg, hnp, hva, ⟨w, hw, hR⟩, -, hrun⟩ :=
    booted_doFork sampleHost_data (Or.inr rfl)
  obtain rfl : e = (0x10000, 1, some .DATA) := Prod.ext hva (Prod.ext (hnp rfl) hseg)
  obtain ⟨msgs, i, s₁, s₂, halloc, hloop, -⟩ := doFork_parts hrun
  have hp : ForkParent { s₀ with console := msgs } fl₀ 0 [(0x10000, 1, some .DATA)] :=
    ⟨⟨hp₀.aligned, hp₀.off, hp₀.own⟩, hp₀.used, hp₀.stack, hp₀.context, hp₀.system, hp₀.regions,
      hp₀.few, hp₀.segs⟩
  obtain ⟨hslot, tf, pt, ks, us, mi, fl₁, hmade⟩ := Prog.wp_ret (allocProcess_made
    (s := { s₀ with console := msgs }) hfree) halloc
  have hne : (0 : Pid) ≠ i := by
    rintro rfl
    exact hp.used hslot
  -- the loop comes to the region of data
  have htotal : (s₁.procs 0).totalMappedRegion = 3 + 1 := by
    rw [hmade.other hne]
    exact hp.total
  rw [htotal, List.range_succ, forkRegions_append] at hloop
  obtain ⟨_, s, hfirst, hlast⟩ := Prog.bind_eq_ret.mp hloop
  obtain ⟨D, fl, h⟩ := forkRegions_copying hp hne (hmade.copying 0 _) 3 s (by simp) hfirst
  have hentry := (Option.some.inj (hp.entry le_rfl (by simp))).symm
  obtain ⟨-, ps, fl', hpages⟩ := Prog.wp_ret (h.step_data hp hne (by omega) hentry) hlast
  have hone : ∀ j < (1 : BitVec 32).toNat, j = 0 := by decide
  have hlow : ∀ j < (1 : BitVec 32).toNat, (0x10000 : Word).toNat + 4096 * j < 2 ^ 31 := by decide
  have hread : ∀ j < (1 : BitVec 32).toNat,
      DataReadable s₀.phys.mem (s₀.procs 0).space.root 0x10000 j := by
    intro j hj
    obtain ⟨q, hq0, hq, -⟩ := hpages.source_range hj
    obtain rfl := hone j hj
    have hans := lookupAnswer_readable (by decide) hw (Or.inl hR)
    refine ⟨by decide, w, hw, Or.inl hR, ?_⟩
    rwa [← addr_injective (hq.symm.trans hans)]
  have hfits : DataFits s fl i 0x10000 (1 : BitVec 32).toNat := by
    obtain ⟨htrans, hneed⟩ := h.store_va_tables (by omega) 0x10000
    refine Or.inr ⟨by decide, by decide, fun j hj => ?_, ?_⟩
    · obtain rfl := hone j hj
      rw [h.self.1, ← htrans]
      exact (hpages.newly_mapped hj (by decide)).1
    · rw [h.self.1, ← hneed]
      exact hpages.pages_le (by decide) hlow
  have hfree' : FreeList ({ s₀ with console := msgs } : Kernel).phys fl₀ := hfree
  have hcopied := (dataRegion_iff hfree' hp halloc hfirst (by rw [hp.total]; simp) hentry hread
    h.built.tables.free).mpr hfits
  exact ⟨{ s₀ with console := msgs }, fl₀, 0, i, s₁, s, fl, hfree', hp, halloc, hfirst,
    h.built.tables.free, hcopied⟩

/-! ## An unaligned region -/

section Unaligned

variable {tf pt ks us mi : Ppn} {s₀ s s' : Kernel} {i : Pid} {f : HostFile} {hd : ElfProgHeader}

/-- A process with one segment, as `elf_load` leaves it: the segment got page `p`. -/
structure OneLoaded (L : Layout) (s₀ : Kernel) (fl₀ : List Ppn) (i : Pid)
    (tf pt ks us mi : Ppn) (hd : ElfProgHeader) (s : Kernel) (fl : List Ppn) (p : Ppn)
    (seg : SegType) (s' : Kernel) (fl' : List Ppn) : Prop where
  type : segmentType hd.flags = some seg
  page : ∃ ph, PageBuilt s₀.phys fl₀ pt {tf, ks, us, mi} hd.vaddr elfPerm s.phys fl p ph fl' ∧
    ∀ v, translate s'.phys.mem pt v = translate ph.mem pt v
  inLoad : InLoad s₀.phys fl₀ i (withPages (s₀.procs i) tf pt ks mi).space
    (insert p {tf, ks, us, mi}) s' fl'
  total : (s'.procs i).totalMappedRegion = 4
  regions : regionList s'.phys.mem (withPages (s₀.procs i) tf pt ks mi).space 4 =
    firstRegions L (withPages (s₀.procs i) tf pt ks mi).space ++ [(hd.vaddr, 1, some seg)]
  other : ∀ j, j ≠ i → s'.procs j = s₀.procs j
  nodes : ∀ (π : List Idx) (q : Ppn), π.length ≤ 2 →
    nodeAt ptePage s.phys.mem pt π = some q → nodeAt ptePage s'.phys.mem pt π = some q
  heap : s'.gUfreePage = s₀.gUfreePage

theorem Made.loaded (hm : Made L s₀ fl₀ i tf pt ks us mi s fl) (hrun : LoadRun f i [hd] s s') :
    ∃ p seg fl', OneLoaded L s₀ fl₀ i tf pt ks us mi hd s fl p seg s' fl' := by
  have hl := hm.inLoad
  have ha := hl.aligned
  have hroot := withPages_root (s₀.procs i) tf pt ks mi
  obtain _ | ⟨sizes, hpage, hrecord, hrest⟩ := hrun
  cases hrest
  rename_i s₁
  obtain ⟨p, fl', hstep⟩ := hl.step hpage hrecord
  -- the region table is still that of `alloc_process` when the segment is recorded
  have hinfo := hstep.page.data _ hl.info
  have htab := hm.regionTable
  have hthree : freeRegion s₁.phys.mem
      (withPages (s₀.procs i) tf pt ks mi).space.mappedInfo = 3 := by
    refine freeRegion_eq (by omega) ?_ fun k hk => ?_
    · rw [regionVa_congr ha hinfo (by omega)]
      exact (htab.unused 3 (by omega) (by omega)).1
    · rw [regionVa_congr ha hinfo (by omega)]
      exact htab.first k hk
  have hother : ∀ j, j ≠ i → s'.procs j = s₀.procs j := by
    intro j hj
    obtain ⟨_, hrec⟩ := hstep.recorded
    have hprocs : s'.procs j = s₁.procs j := by
      rw [hrec.rest]
      exact Function.update_of_ne hj _ _
    rw [hprocs, hstep.only.procs, hm.other hj]
  obtain ⟨hl', seg, hseg, hmem⟩ := hl.record hstep (by rw [hthree]; omega)
  rw [hthree] at hmem
  have htotal := (LoadRun.cons sizes hpage hrecord (.nil _)).total
  have hlist : regionList s₁.phys.mem (withPages (s₀.procs i) tf pt ks mi).space 3 =
      firstRegions L (withPages (s₀.procs i) tf pt ks mi).space := by
    rw [regionList_congr ha (hinfo.trans hm.filling.info) (by omega), regionList_initial]
  have hout : ∀ q, q ∉ insert p ({tf, ks, us, mi} : Set Ppn) → s'.phys.mem q = s₁.phys.mem q := by
    intro q hq
    rw [hmem]
    exact recordRegion_of_ne ha (by omega)
      (by rintro rfl; exact hq (Set.mem_insert_of_mem _ hl.info))
  have hpage' := hstep.page
  rw [hroot] at hpage'
  refine ⟨p, seg, fl', hseg, ⟨s₁.phys, hpage', fun v => hpage'.built.translate_write hout v⟩, hl',
    ?_, ?_, hother, fun π q hπ hq => ?_, ?_⟩
  · rw [htotal, hm.procs, Function.update_self]
    rfl
  · rw [hmem, regionList_record (by omega), hlist]
  · refine Eq.trans ?_ (hpage'.nodes π q hπ hq)
    exact nodeAt_congr (n := 2) (Set.mem_singleton _)
      (fun x hx => hout x fun hD => hpage'.built.apart x hD hx) π (by omega)
  · obtain ⟨_, hrec⟩ := hstep.recorded
    rw [hrec.rest, hstep.only, hm.rest]

/-- No frame of the process is free, if the frame behind that of the segment is not. -/
theorem OneLoaded.offList (h : OneLoaded L s₀ fl₀ i tf pt ks us mi hd s fl p seg s' fl')
    (hm : Made L s₀ fl₀ i tf pt ks us mi s fl) (habove : ∀ q ∈ fl₀, AboveTrapSec L (addr q))
    (hnext : p + 1 ∉ fl') : OffList s'.phys fl' pt := by
  have hbuilt := h.inLoad.built
  rw [withPages_root] at hbuilt
  refine ⟨hbuilt.tables, fun v e hve => ?_⟩
  obtain ⟨ph, hpage, hsame⟩ := h.page
  rw [hsame] at hve
  rcases (hpage.leaf_iff v e).mp hve with hold | ⟨k, hk, -, rfl⟩
  · rw [hm.filling.leaf] at hold
    unfold initialLeaf at hold
    split_ifs at hold with h1 h2 h3
    all_goals obtain rfl := Option.some.inj hold
    · -- the trap section lies in front of all free pages
      intro hfree
      rw [ptePpn_mkPte _ (by decide)] at hfree
      have hlt := (habove _ (hbuilt.mem_of_free hfree)).1
      rw [BitVec.lt_def, addr_toNat, ppn_toNat] at hlt
      omega
    · rw [ptePpn_mkPte _ (by decide), show (withPages (s₀.procs i) tf pt ks mi).space.trapframe =
        addr tf from rfl, ppn_addr]
      exact hbuilt.not_free (by simp)
    · rw [ptePpn_mkPte _ (by decide), ppn_addr]
      exact hbuilt.not_free (by simp)
  · rw [ptePpn_segment p (hk.trans_le (mapCount_le _))]
    split_ifs with h0
    · exact hbuilt.not_free (by simp)
    · exact hnext

/-- The process can be forked once it is made ready. -/
theorem OneLoaded.forkParent (h : OneLoaded L s₀ fl₀ i tf pt ks us mi hd s fl p seg s' fl')
    (hm : Made L s₀ fl₀ i tf pt ks us mi s fl) (habove : ∀ q ∈ fl₀, AboveTrapSec L (addr q))
    (hnext : p + 1 ∉ fl') (hseg : seg = .CODE ∨ seg = .DATA) :
    ForkParent { s' with procs := Function.update s'.procs i { s'.procs i with status := .READY } }
      fl' i [(hd.vaddr, 1, some seg)] := by
  have hspace : ({ s'.procs i with status := .READY } : Process).space =
      (withPages (s₀.procs i) tf pt ks mi).space := h.inLoad.space
  have hbuilt := h.inLoad.built
  have hfirst : regionList s'.phys.mem (withPages (s₀.procs i) tf pt ks mi).space 3 =
      firstRegions L (withPages (s₀.procs i) tf pt ks mi).space := by
    have := congrArg (List.take 3) h.regions
    simpa [regionList, ← List.map_take, List.take_range, firstRegions] using this
  have hentry : ∀ k < 3, regionEntry s'.phys.mem (withPages (s₀.procs i) tf pt ks mi).space k =
      (firstRegions L (withPages (s₀.procs i) tf pt ks mi).space).getD k default := by
    intro k hk
    rw [← hfirst, regionList]
    simp [hk]
  have hsegs : ∀ e ∈ [(hd.vaddr, (1 : BitVec 32), some seg)],
      e.2.2 = some .CODE ∨ e.2.2 = some .DATA := by
    intro e he
    obtain rfl := List.mem_singleton.mp he
    exact hseg.imp (congrArg some) (congrArg some)
  refine ⟨⟨?_, ?_, fun k => ?_⟩, ?_, ?_, ?_, ?_, ?_, by simp, hsegs⟩
  all_goals dsimp only
  all_goals rw [Function.update_self]
  all_goals try rw [hspace]
  · exact h.inLoad.aligned
  · have hoff := h.offList hm habove hnext
    rw [withPages_root]
    exact ⟨hoff.tables, hoff.frames⟩
  · rw [withPages_own]
    exact hbuilt.not_free (by cases k <;> simp)
  · simp
  · have h0 := hentry 0 (by omega)
    exact ⟨congrArg Prod.fst h0, congrArg (fun e => e.2.2) h0⟩
  · exact congrArg (fun e => e.2.2) (hentry 1 (by omega))
  · exact congrArg (fun e => e.2.2) (hentry 2 (by omega))
  · rw [show ({ s'.procs i with status := .READY } : Process).totalMappedRegion = 4 from h.total,
      h.regions, hfirst]

/-- The page of the segment can be read. -/
theorem OneLoaded.readable (h : OneLoaded L s₀ fl₀ i tf pt ks us mi hd s fl p seg s' fl')
    (hva : hd.vaddr.toNat + 4096 ≤ 2 ^ 38) (hcount : 0 < mapCount hd.vaddr) :
    DataReadable s'.phys.mem pt hd.vaddr 0 := by
  obtain ⟨ph, hpage, hsame⟩ := h.page
  refine ⟨by omega, mkPte (addr p + vaddr 0) elfPerm, ?_, Or.inl ?_, ?_⟩
  · rw [hsame]
    exact hpage.mapped hcount
  · rw [mkPte_and_flag _ _ (by decide)]
    decide
  · rw [ptePpn_segment p (by omega), if_pos rfl]
    exact hpage.built.ne_zero (Set.mem_insert _ _)

/-- The user stack can be read. -/
theorem OneLoaded.lookup_stack (h : OneLoaded L s₀ fl₀ i tf pt ks us mi hd s fl p seg s' fl')
    (hm : Made L s₀ fl₀ i tf pt ks us mi s fl) :
    lookupAnswer s'.phys.mem pt (USER_STACK_TOP - PGSIZE) ≠ 0 := by
  obtain ⟨ph, hpage, hsame⟩ := h.page
  have hleaf : translate s'.phys.mem pt (vpn (USER_STACK_TOP - PGSIZE)) =
      some (mkPte (addr us) userDataPerm) := by
    rw [hsame]
    exact hpage.keepsLeaves _ _ ((hm.filling.leaf _).trans hm.stack)
  rw [lookupAnswer_readable (by decide) hleaf
    (Or.inl (by rw [mkPte_and_flag _ _ (by decide)]; decide)), ptePpn_mkPte _ (by decide), ppn_addr]
  exact fun h0 => hm.filling.built.ne_zero (by simp) (addr_eq_zero.mp h0)

/-- A data segment of one page whose address is no page boundary is not copied: its page is
    mapped at two pages of the child. -/
theorem dataRegion_spills : ∃ s₀ fl₀ c i s₁ s fl, FreeList s₀.phys fl₀ ∧
    ForkParent s₀ fl₀ c [(0x10010, 1, some .DATA)] ∧
    DataReadable s₀.phys.mem (s₀.procs c).space.root 0x10010 0 ∧
    allocProcess sampleLayout s₀ = .ret i s₁ ∧
    forkRegions c i (List.range 3) s₁ = .ret () s ∧ FreeList s.phys fl ∧
    ¬ ∃ s', forkRegion c i 3 s = .ret () s' ∧ DataRegionCopied s fl c i 0x10010 1 s' := by
  have hloads : (elfWith [wordAt 6 0x10010]).loads = [wordAt 6 0x10010] := rfl
  obtain ⟨b, c, b', t, tf, pt, ks, us, mi, fl₁, hs⟩ :=
    sampleLoad_word (by decide) (by decide) hloads
  have hmade := hs.made
  obtain ⟨p, seg, fl₀, hone⟩ := hmade.loaded (hloads ▸ elfLoad_run hs.load)
  obtain rfl : seg = .DATA := Option.some.inj (hone.type.symm.trans (by decide))
  obtain ⟨ph, hpage, -⟩ := hone.page
  have hbuilt := hone.inLoad.built
  -- the free pages lie below the page of the segment, and so below the page behind it
  have hnext : p + 1 ∉ fl₀ := by
    obtain ⟨m, rfl, hm⟩ := hmade.rest_eq
    obtain ⟨fl₂, hfl, hsuf⟩ := hpage.suffix hmade.filling.built
    cases m with
    | zero => cases hfl
    | succ m =>
      rw [pagesDown] at hfl
      obtain ⟨rfl, rfl⟩ := List.cons.inj hfl
      intro hmem
      have := (mem_pagesDown (by omega)).mp (hsuf.subset hmem)
      rw [BitVec.toNat_add, BitVec.toNat_add, BitVec.toNat_ofNat] at this
      simp at this
      omega
  have hlen := hpage.length
  have hlen₁ := hmade.length
  rw [pagesDown_length] at hlen₁
  have hp := hone.forkParent hmade aboveTrapSec_sample hnext (Or.inr rfl)
  obtain ⟨s₀, hs₀⟩ : ∃ s₀ : Kernel, s₀ = { t with
      procs := Function.update t.procs c { t.procs c with status := .READY } } := ⟨_, rfl⟩
  rw [← hs₀] at hp
  have hfree : FreeList s₀.phys fl₀ := hs₀ ▸ hbuilt.tables.free
  have hspace : (s₀.procs c).space = (withPages (b.procs c) tf pt ks mi).space := by
    rw [hs₀]
    dsimp only
    rw [Function.update_self]
    exact hone.inLoad.space
  have hslot : ∃ j, (s₀.procs j).status = .FREE := by
    obtain ⟨j, hj⟩ : ∃ j : Pid, j ≠ c := exists_ne c
    refine ⟨j, ?_⟩
    rw [hs₀]
    dsimp only
    rw [Function.update_of_ne hj, hone.other j hj]
    exact hs.slots j
  have hmem : s₀.phys = t.phys := by rw [hs₀]
  obtain ⟨i, s₁, halloc, hi, tf', pt', ks', us', mi', fl₃, hmade'⟩ :=
    Prog.returns_of_wp (allocProcess_made hfree) fun _ hn => hn ⟨hslot, by omega, fun q hq =>
      aboveTrapSec_sample q (hbuilt.mem_of_free hq)⟩
  have hne : c ≠ i := by
    rintro rfl
    exact hp.used hi
  have hroot : (s₀.procs c).space.root = pt := by rw [hspace, withPages_root]
  have hread : DataReadable s₀.phys.mem (s₀.procs c).space.root 0x10010 0 := by
    rw [hroot, hmem]
    exact hone.readable (by decide) (by decide)
  have hcopying := hmade'.copying c [(0x10010, 1, some .DATA)]
  obtain ⟨s, hloop⟩ := forkRegions_first hp hne hcopying
    (by rw [hroot, hmem]; exact hone.lookup_stack hmade)
    (by
      rw [hspace, withPages_own]
      exact hbuilt.ne_zero (by simp))
  obtain ⟨D, fl, h⟩ := forkRegions_copying hp hne hcopying 3 s (by simp) hloop
  refine ⟨s₀, fl₀, c, i, s₁, s, fl, hfree, hp, hread, halloc, hloop, h.built.tables.free, ?_⟩
  rintro ⟨s', hrun, hcopied⟩
  have hentry := (Option.some.inj (hp.entry le_rfl (by simp))).symm
  obtain ⟨-, ps, fl', hpages⟩ := Prog.wp_ret (h.step_data hp hne (by omega) hentry) hrun
  have hreads : ∀ j < (1 : BitVec 32).toNat,
      DataReadable s₀.phys.mem (s₀.procs c).space.root 0x10010 j := by
    intro j hj
    obtain rfl : j = 0 := by
      change j < 1 at hj
      omega
    exact hread
  have hfits : DataFits s fl i 0x10010 (1 : BitVec 32).toNat :=
    hcopied.fits h (by omega) hreads hpages
  rcases hfits with h0 | ⟨hal, -⟩
  · exact absurd h0 (by decide)
  · exact absurd hal (by decide)

end Unaligned

end Pke
