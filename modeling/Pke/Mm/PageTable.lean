import Pke.Lib.Radix
import Pke.Mm.Vmm
import Mathlib.Data.Finset.Card
import Mathlib.Tactic.IntervalCases

/-!
# Page tables as radix trees

A page table is a radix tree of depth 2 whose entries are read by `ptePage`; its
leaves are the page table entries of the last level. `translate m r va` is the
valid entry for `va` in the table with root `r`: the abstraction of a page table
to a finite map. -/

namespace Pke

open Lib Radix

/-! ## Entries -/

/-- The page number in an entry. -/
def ptePpn (w : Word) : Ppn := w.extractLsb' 10 52

/-- The page an entry points to, if it is valid. -/
def ptePage (w : Word) : Option Ppn := if w &&& PTE_V ≠ 0 then some (ptePpn w) else none

theorem PTE2PA_eq (w : Word) : PTE2PA w = addr (ptePpn w) := by
  apply BitVec.eq_of_getLsbD_eq
  intro i hi
  simp [PTE2PA, addr, ptePpn]
  grind

/-- The entry that `map_pages` and `page_walk` write. -/
def mkPte (pa perm : Word) : Word := PA2PTE pa ||| perm ||| PTE_V

theorem ptePpn_mkPte (pa : Word) {perm : Word} (h : perm &&& 0x3FF = perm) :
    ptePpn (mkPte pa perm) = ppn pa := by
  apply BitVec.eq_of_getLsbD_eq
  intro i hi
  have hperm : perm.getLsbD (10 + i) = false := by
    rw [← h, BitVec.getLsbD_and]
    have : (0x3FF : Word).getLsbD (10 + i) = false := by
      interval_cases i <;> decide
    rw [this, Bool.and_false]
  have hv : PTE_V.getLsbD (10 + i) = false := by
    interval_cases i <;> decide
  simp [ptePpn, mkPte, PA2PTE, ppn, hperm, hv]
  grind

theorem mkPte_and_flag (pa perm : Word) {f : Word} (hf : f &&& 0x3FF = f) :
    mkPte pa perm &&& f = (perm ||| PTE_V) &&& f := by
  apply BitVec.eq_of_getLsbD_eq
  intro i hi
  rw [← hf]
  by_cases h10 : i < 10
  · simp [mkPte, PA2PTE]
    grind
  · have : (0x3FF : Word).getLsbD i = false := by
      interval_cases i <;> first | omega | decide
    simp only [BitVec.getLsbD_and, this, Bool.and_false]

theorem mkPte_valid (pa perm : Word) : mkPte pa perm &&& PTE_V ≠ 0 := by
  have hv : (perm ||| PTE_V) &&& PTE_V = PTE_V := by
    apply BitVec.eq_of_getLsbD_eq
    intro i hi
    simp
    grind
  rw [mkPte_and_flag pa perm (by decide), hv]
  decide

theorem ptePage_mkPte (pa : Word) {perm : Word} (h : perm &&& 0x3FF = perm) :
    ptePage (mkPte pa perm) = some (ppn pa) := by
  rw [ptePage, if_pos (mkPte_valid pa perm), ptePpn_mkPte pa h]

theorem ptePage_of_valid {w : Word} (h : w &&& PTE_V ≠ 0) : ptePage w = some (ptePpn w) :=
  if_pos h

theorem ptePage_of_invalid {w : Word} (h : w &&& PTE_V = 0) : ptePage w = none :=
  if_neg (not_not.mpr h)

theorem ptePage_eq_none {w : Word} : ptePage w = none ↔ w &&& PTE_V = 0 := by
  refine ⟨fun h => ?_, ptePage_of_invalid⟩
  by_contra hv
  rw [ptePage_of_valid hv] at h
  cases h

theorem ptePage_isSome {w : Word} : (ptePage w).isSome ↔ w &&& PTE_V ≠ 0 := by
  rw [Option.isSome_iff_ne_none, ne_eq, ptePage_eq_none]

/-- Permissions only use the flag bits of an entry. -/
theorem protToType_flags (prot user : BitVec 32) :
    protToType prot user &&& 0x3FF = protToType prot user := by
  unfold protToType
  dsimp only
  split_ifs <;> rfl

/-! ## Virtual page numbers -/

/-- A virtual page number: the three table indices of an address. -/
abbrev Vpn := BitVec 27

/-- The virtual page number of an address. -/
def vpn (va : Word) : Vpn := va.extractLsb' 12 27

/-- The index of a virtual page in the table of a level. -/
def px (level : ℕ) (v : Vpn) : Idx := v.extractLsb' (9 * level) 9

theorem PX_eq {level : ℕ} (h : level ≤ 2) (va : Word) : PX level va = px level (vpn va) := by
  apply BitVec.eq_of_getLsbD_eq
  intro i hi
  simp [PX, px, vpn]
  grind

theorem px_ext {v v' : Vpn} (h2 : px 2 v = px 2 v') (h1 : px 1 v = px 1 v')
    (h0 : px 0 v = px 0 v') : v = v' := by
  have key : ∀ (w : Vpn) (l i : ℕ), i < 9 → (px l w).getLsbD i = w.getLsbD (9 * l + i) := by
    intro w l i hi
    simp [px, hi]
  apply BitVec.eq_of_getLsbD_eq
  intro i hi
  rcases (by omega : i < 9 ∨ (9 ≤ i ∧ i < 18) ∨ 18 ≤ i) with h | h | h
  · have := congrArg (fun x => x.getLsbD i) h0
    simp only [key _ _ _ h] at this
    rwa [show 9 * 0 + i = i by omega] at this
  · have := congrArg (fun x => x.getLsbD (i - 9)) h1
    simp only [key _ _ _ (by omega : i - 9 < 9)] at this
    rwa [show 9 * 1 + (i - 9) = i by omega] at this
  · have := congrArg (fun x => x.getLsbD (i - 18)) h2
    simp only [key _ _ _ (by omega : i - 18 < 9)] at this
    rwa [show 9 * 2 + (i - 18) = i by omega] at this

/-- The indices on the way from the root to the table of level 0. -/
def vpath : ℕ → Vpn → List Idx
  | 0, _ => []
  | level + 1, v => px (level + 1) v :: vpath level v

@[simp] theorem vpath_length (level : ℕ) (v : Vpn) : (vpath level v).length = level := by
  induction level with
  | zero => rfl
  | succ level ih => simp [vpath, ih]

theorem vpath_ext {v v' : Vpn} (h : vpath 2 v = vpath 2 v') (h0 : px 0 v = px 0 v') : v = v' := by
  simp only [vpath, List.cons.injEq, and_true] at h
  exact px_ext h.1 h.2 h0

/-! ## Tables and translations -/

/-- The table pages of the page tables rooted in `R`. -/
abbrev tablePages (m : Mem) (R : Set Ppn) : Set Ppn := nodes ptePage m 2 R

/-- The valid last-level entry for `v` in the page table rooted in `r`. -/
def translate (m : Mem) (r : Ppn) (v : Vpn) : Option Word :=
  leafAt ptePage m r (vpath 2 v) (px 0 v)

/-- The page tables rooted in `R` are trees without common tables, apart from
    the free list. -/
structure Tables (R : Set Ppn) (s : Phys) (fl : List Ppn) : Prop where
  free : FreeList s fl
  forest : Forest ptePage s.mem 2 R
  apart : ∀ p ∈ tablePages s.mem R, p ∉ fl
  nonnull : ∀ p ∈ tablePages s.mem R, p ≠ 0

/-- From `s` to `s'` the page tables rooted in `R` kept their tables and took
    new ones from the head of the free list; only tables were written. -/
structure Grow (R : Set Ppn) (s : Phys) (fl : List Ppn) (s' : Phys) (fl' : List Ppn) :
    Prop where
  tables : Tables R s' fl'
  popped : ∃ new, fl = new ++ fl' ∧ tablePages s'.mem R = tablePages s.mem R ∪ {p | p ∈ new}
  keep : ∀ r ∈ R, ∀ (π : List Idx) (p : Ppn), π.length ≤ 2 →
    nodeAt ptePage s.mem r π = some p → nodeAt ptePage s'.mem r π = some p
  frame : ∀ p ∉ tablePages s'.mem R, s'.mem p = s.mem p
  start : s'.freeMemStartAddr = s.freeMemStartAddr
  last : s'.freeMemEndAddr = s.freeMemEndAddr

variable {R : Set Ppn} {s s' s'' : Phys} {fl fl' fl'' : List Ppn}

theorem Grow.refl (h : Tables R s fl) : Grow R s fl s fl where
  tables := h
  popped := ⟨[], rfl, by simp⟩
  keep _ _ _ _ _ h := h
  frame _ _ := rfl
  start := rfl
  last := rfl

theorem Grow.tablePages_subset (h : Grow R s fl s' fl') :
    tablePages s.mem R ⊆ tablePages s'.mem R := by
  obtain ⟨new, _, hnew⟩ := h.popped
  rw [hnew]
  exact Set.subset_union_left

theorem Grow.trans (h : Grow R s fl s' fl') (h' : Grow R s' fl' s'' fl'') :
    Grow R s fl s'' fl'' where
  tables := h'.tables
  popped := by
    obtain ⟨new, hfl, hnew⟩ := h.popped
    obtain ⟨new', hfl', hnew'⟩ := h'.popped
    refine ⟨new ++ new', by rw [hfl, hfl', List.append_assoc], ?_⟩
    rw [hnew', hnew, Set.union_assoc]
    congr 1
    ext p
    simp
  keep r hr π p hπ hp := h'.keep r hr π p hπ (h.keep r hr π p hπ hp)
  frame p hp := (h'.frame p hp).trans (h.frame p fun hp' => hp (h'.tablePages_subset hp'))
  start := h'.start.trans h.start
  last := h'.last.trans h.last

/-- A cleared page off the free list is the root of an empty page table. -/
theorem Tables.insert_of_empty (h : Tables R s fl) {p : Ppn} (hp : ∀ i, s.mem p i = 0)
    (hpR : p ∉ tablePages s.mem R) (hpfl : p ∉ fl) (hp0 : p ≠ 0) :
    Tables (insert p R) s fl := by
  have hinv : ∀ i, ptePage (s.mem p i) = none := fun i =>
    ptePage_of_invalid (by rw [hp i]; rfl)
  have hpages : tablePages s.mem (insert p R) = insert p (tablePages s.mem R) :=
    nodes_insert_of_empty hinv
  refine ⟨h.free, h.forest.insert_of_empty hinv hpR, ?_, ?_⟩
  · rw [hpages]
    rintro q (rfl | hq)
    · exact hpfl
    · exact h.apart q hq
  · rw [hpages]
    rintro q (rfl | hq)
    · exact hp0
    · exact h.nonnull q hq

theorem Tables.empty (h : FreeList s fl) : Tables ∅ s fl :=
  ⟨h, fun _ hr => hr.elim, fun _ ⟨_, hr, _⟩ => hr.elim, fun _ ⟨_, hr, _⟩ => hr.elim⟩

/-! ## `page_walk` -/

/-- Walking without allocation finds the entry or returns NULL. -/
theorem pageWalkLoop_lookup (va : Word) (s : Phys) :
    ∀ (level : ℕ) (p : Ppn), level ≤ 2 → pageWalkLoop va false level (addr p) s =
      .ret (match nodeAt ptePage s.mem p (vpath level (vpn va)) with
        | some q => slot (addr q) (px 0 (vpn va))
        | none => 0) s := by
  intro level
  induction level with
  | zero =>
    intro p _
    rw [pageWalkLoop, PX_eq (Nat.zero_le 2)]
    rfl
  | succ level ih =>
    intro p hl
    rw [pageWalkLoop, vpath, nodeAt_cons, load, Prog.bind_of_ret (Prog.gets_apply _ _),
      load64_slot, PX_eq hl]
    by_cases hv : s.mem p (px (level + 1) (vpn va)) &&& PTE_V = 0
    · rw [if_neg (not_not.mpr hv), ptePage_of_invalid hv]
      rfl
    · rw [if_pos hv, ptePage_of_valid hv, PTE2PA_eq, ih _ (by omega)]
      rfl

theorem pageWalk_lookup {va : Word} (hva : va < MAXVA) (r : Ppn) (s : Phys) :
    pageWalk (addr r) va false s =
      .ret (match nodeAt ptePage s.mem r (vpath 2 (vpn va)) with
        | some q => slot (addr q) (px 0 (vpn va))
        | none => 0) s := by
  rw [pageWalk, if_neg (BitVec.not_le.mpr hva), pageWalkLoop_lookup va s 2 r le_rfl]

section Alloc

variable {r p q : Ppn} {π : List Idx} {i : Idx} {g : Word}

/-- Memory after a fresh table `q` was cleared and hung under entry `i` of `p`. -/
def linkTable (m : Mem) (p : Ppn) (i : Idx) (q : Ppn) : Mem :=
  store64 (memset m (addr q) 0 4096) (slot (addr p) i) (mkPte (addr q) 0)

theorem linkTable_link {m : Mem} (hne : p ≠ q) (hv : ptePage (m p i) = none) :
    Link ptePage m (linkTable m p i q) p i q := by
  unfold linkTable
  rw [store64_slot, memset_page]
  constructor
  · exact hv
  · rw [Function.update_self, Function.update_self, ptePage_mkPte _ (by decide), ppn_addr]
  · intro j hj
    rw [Function.update_self, Function.update_of_ne hj, Function.update_of_ne hne]
  · intro j
    rw [Function.update_of_ne hne.symm, Function.update_self]
    exact ptePage_of_invalid (by decide)
  · intro p' h1 h2
    rw [Function.update_of_ne h1, Function.update_of_ne h2]

/-- Hanging the first free page under an invalid entry makes the tables grow. -/
theorem Tables.grow_link (h : Tables R s (q :: fl)) (hr : r ∈ R)
    (hp : nodeAt ptePage s.mem r π = some p) (hπ : π.length < 2)
    (hv : ptePage (s.mem p i) = none) (hg : FreeList { s with gFreeMemList := g } fl) :
    Grow R s (q :: fl) { s with mem := linkTable s.mem p i q, gFreeMemList := g } fl := by
  have hpt : p ∈ tablePages s.mem R := mem_nodes hr hπ.le hp
  have hq : q ∉ tablePages s.mem R := fun hq => h.apart q hq List.mem_cons_self
  have hqfl : q ∉ fl := (List.nodup_cons.mp h.free.nodup).1
  have hL : Link ptePage s.mem (linkTable s.mem p i q) p i q :=
    linkTable_link (fun e => hq (e ▸ hpt)) hv
  have hnodes : tablePages (linkTable s.mem p i q) R = insert q (tablePages s.mem R) :=
    nodes_link h.forest hL hr hp hπ hq
  have hmem : ∀ x, x ∈ tablePages (linkTable s.mem p i q) R ↔ x = q ∨ x ∈ tablePages s.mem R :=
    fun x => by rw [hnodes, Set.mem_insert_iff]
  constructor
  · constructor
    · refine hg.frame rfl fun x hx => hL.frame x ?_ ?_
      · rintro rfl
        exact h.apart x hpt (List.mem_cons_of_mem _ hx)
      · rintro rfl
        exact hqfl hx
    · exact h.forest.link hL hr hp hπ hq
    · intro x hx
      rcases (hmem x).mp hx with rfl | hx
      · exact hqfl
      · exact fun hfl => h.apart x hx (List.mem_cons_of_mem _ hfl)
    · intro x hx
      rcases (hmem x).mp hx with rfl | hx
      · exact h.free.ne_zero List.mem_cons_self
      · exact h.nonnull x hx
  · refine ⟨[q], rfl, hnodes.trans ?_⟩
    ext x
    simp [or_comm]
  · intro r' hr' π' p' hπ' hp'
    exact (nodeAt_link h.forest hL hr hp hπ hq hr' π' hπ' p').mpr (Or.inl hp')
  · intro x hx
    have hx' := mt (hmem x).mpr hx
    exact hL.frame x (fun e => hx' (Or.inr (e ▸ hpt))) fun e => hx' (Or.inl e)
  · rfl
  · rfl

theorem Tables.translate_link (h : Tables R s (q :: fl)) (hr : r ∈ R)
    (hp : nodeAt ptePage s.mem r π = some p) (hπ : π.length < 2)
    (hv : ptePage (s.mem p i) = none) {r' : Ppn} (hr' : r' ∈ R) (v : Vpn) :
    translate (linkTable s.mem p i q) r' v = translate s.mem r' v := by
  have hq : q ∉ tablePages s.mem R := fun hq => h.apart q hq List.mem_cons_self
  have hpq : p ≠ q := fun e => hq (e ▸ mem_nodes hr hπ.le hp)
  have hL := linkTable_link hpq hv
  exact h.forest.leafAt_link hL hr hp hπ hq hr' (vpath_length 2 v) _

/-- The tables of the last level are not written by hanging a table elsewhere. -/
theorem Tables.last_link (h : Tables R s (q :: fl)) (hr : r ∈ R)
    (hp : nodeAt ptePage s.mem r π = some p) (hπ : π.length < 2)
    (hv : ptePage (s.mem p i) = none) {r' : Ppn} (hr' : r' ∈ R) {π' : List Idx}
    (hπ' : π'.length = 2) {q' : Ppn} (hq' : nodeAt ptePage s.mem r' π' = some q') :
    linkTable s.mem p i q q' = s.mem q' := by
  have hq : q ∉ tablePages s.mem R := fun hq => h.apart q hq List.mem_cons_self
  have hpq : p ≠ q := fun e => hq (e ▸ mem_nodes hr hπ.le hp)
  refine (linkTable_link hpq hv).frame q' ?_ ?_
  · -- the same page would be a table of two levels
    rintro rfl
    rw [(h.forest r hr r' hr' π π' q' hπ.le hπ'.le hp hq').2] at hπ
    omega
  · rintro rfl
    exact hq (mem_nodes hr' hπ'.le hq')

/-- What a walk with allocation from table `p` at the end of `π` down to `ρ` does:
    it builds the missing tables on the way, writes no table of the last level and
    changes no translation; it returns the entry for `v`, or NULL when the free list
    has run out. Either way it took one page for each table it built. -/
structure WalkSpec (R : Set Ppn) (r : Ppn) (ρ : List Idx) (v : Vpn) (c : PhysM Word)
    (s : Phys) (fl : List Ppn) (s' : Phys) (fl' : List Ppn) : Prop where
  grow : Grow R s fl s' fl'
  entries : ∀ r' ∈ R, ∀ (π : List Idx) (q : Ppn), π.length = 2 →
    nodeAt ptePage s.mem r' π = some q → s'.mem q = s.mem q
  same : ∀ r' ∈ R, ∀ v', translate s'.mem r' v' = translate s.mem r' v'
  count : ∀ Q : Finset (List Idx), (∀ π ∈ Q, π.length ≤ 2) → (∀ π, π <+: ρ → π ∈ Q) →
    missing ptePage s.mem r Q + fl'.length = missing ptePage s'.mem r Q + fl.length
  result : (∃ q, nodeAt ptePage s'.mem r ρ = some q ∧ c s = .ret (slot (addr q) (px 0 v)) s') ∨
    (fl' = [] ∧ nodeAt ptePage s'.mem r ρ = none ∧ c s = .ret 0 s')

theorem pageWalkLoop_alloc (hr : r ∈ R) (va : Word) :
    ∀ (level : ℕ) (π : List Idx) (p : Ppn) (s : Phys) (fl : List Ppn), Tables R s fl →
      nodeAt ptePage s.mem r π = some p → π.length + level = 2 →
      ∃ s' fl', WalkSpec R r (π ++ vpath level (vpn va)) (vpn va)
        (pageWalkLoop va true level (addr p)) s fl s' fl' := by
  intro level
  induction level with
  | zero =>
    intro π p s fl h hp _
    refine ⟨s, fl, Grow.refl h, fun _ _ _ _ _ _ => rfl, fun _ _ _ => rfl, fun _ _ _ => rfl,
      Or.inl ⟨p, ?_, ?_⟩⟩
    · simpa [vpath] using hp
    · rw [pageWalkLoop, PX_eq (Nat.zero_le 2)]
      rfl
  | succ level ih =>
    intro π p s fl h hp hπ
    rw [show π ++ vpath (level + 1) (vpn va) =
      (π ++ [px (level + 1) (vpn va)]) ++ vpath level (vpn va) by simp [vpath]]
    have hPX : PX (level + 1) va = px (level + 1) (vpn va) := PX_eq (by omega) va
    generalize px (level + 1) (vpn va) = i at hPX ⊢
    have hlen : (π ++ [i]).length + level = 2 := by
      simp
      omega
    have hread : load (slot (addr p) i) s = .ret (s.mem p i) s := by
      rw [load, Prog.gets_apply, load64_slot]
    by_cases hv : s.mem p i &&& PTE_V = 0
    · have hnone : ptePage (s.mem p i) = none := ptePage_of_invalid hv
      cases fl with
      | nil =>
        -- no page left: the walk stops at the missing table
        refine ⟨s, [], Grow.refl h, fun _ _ _ _ _ _ => rfl, fun _ _ _ => rfl,
          fun _ _ _ => rfl, Or.inr ⟨rfl, ?_, ?_⟩⟩
        · rw [nodeAt_append, nodeAt_snoc, hp, Option.bind_some, hnone]
          rfl
        · simp only [pageWalkLoop, hPX]
          rw [Prog.bind_of_ret hread, if_neg (not_not.mpr hv), if_pos trivial,
            Prog.bind_of_ret (allocPage_nil h.free)]
          rfl
      | cons q fl =>
        obtain ⟨g, halloc, hg⟩ := allocPage_cons h.free
        have hq0 : addr q ≠ 0 := fun e =>
          h.free.ne_zero List.mem_cons_self (addr_eq_zero.mp e)
        have hq : q ∉ tablePages s.mem R := fun hq => h.apart q hq List.mem_cons_self
        have hpq : p ≠ q := fun e => hq (e ▸ mem_nodes hr (by omega) hp)
        have hL := linkTable_link hpq hnone
        have hgrow := h.grow_link hr hp (by omega) hnone hg
        have hnew : nodeAt ptePage (linkTable s.mem p i q) r (π ++ [i]) = some q :=
          (nodeAt_link h.forest hL hr hp (by omega) hq hr _ (by omega) q).mpr
            (Or.inr ⟨rfl, rfl, rfl⟩)
        obtain ⟨s', fl', hgrow', hent, hsame, hcount, hres⟩ := ih _ q _ fl hgrow.tables hnew hlen
        refine ⟨s', fl', hgrow.trans hgrow', fun r' hr' π' q' hπ' hq' => ?_,
          fun r' hr' v' => ?_, fun Q hQ hpre => ?_, ?_⟩
        · exact (hent r' hr' π' q' hπ' (hgrow.keep r' hr' π' q' hπ'.le hq')).trans
            (h.last_link hr hp (by omega) hnone hr' hπ' hq')
        · exact (hsame r' hr' v').trans (h.translate_link hr hp (by omega) hnone hr' v')
        · have h1 : missing ptePage (linkTable s.mem p i q) r Q + fl'.length =
              missing ptePage s'.mem r Q + fl.length := hcount Q hQ hpre
          have h2 := missing_link h.forest hL hr hp (by omega) hq hQ
            (hpre _ (List.prefix_append _ _))
          rw [List.length_cons]
          omega
        · have hpte : PA2PTE (addr q) ||| PTE_V = mkPte (addr q) 0 := by simp [mkPte]
          simp only [pageWalkLoop, hPX]
          rw [Prog.bind_of_ret hread, if_neg (not_not.mpr hv), if_pos trivial,
            Prog.bind_of_ret halloc, if_pos hq0, physMemset, if_neg hq0,
            Prog.bind_of_ret (Prog.modify_apply _ _), store,
            Prog.bind_of_ret (Prog.modify_apply _ _), hpte]
          unfold linkTable at hres
          dsimp only
          exact hres
    · have hp' : nodeAt ptePage s.mem r (π ++ [i]) = some (ptePpn (s.mem p i)) := by
        rw [nodeAt_snoc, hp]
        exact ptePage_of_valid hv
      obtain ⟨s', fl', hgrow, hent, hsame, hcount, hres⟩ := ih _ _ s fl h hp' hlen
      refine ⟨s', fl', hgrow, hent, hsame, hcount, ?_⟩
      simp only [pageWalkLoop, hPX]
      rw [Prog.bind_of_ret hread, if_pos hv, PTE2PA_eq]
      exact hres

/-- **`page_walk` with allocation** walks from the root. -/
theorem pageWalk_alloc (h : Tables R s fl) (hr : r ∈ R) {va : Word} (hva : va < MAXVA) :
    ∃ s' fl', WalkSpec R r (vpath 2 (vpn va)) (vpn va) (pageWalk (addr r) va true) s fl s' fl' := by
  obtain ⟨s', fl', hw⟩ := pageWalkLoop_alloc hr va 2 [] r s fl h rfl rfl
  refine ⟨s', fl', ?_⟩
  rw [pageWalk, if_neg (BitVec.not_le.mpr hva)]
  exact hw

end Alloc

end Pke
