import Pke.Mm.PageTable
import Mathlib.Algebra.Order.BigOperators.Group.Finset
import Mathlib.Data.List.Infix

/-!
# `map_pages` refines an update of a finite map

The loop of `map_pages` walks to the entry of each page of the range, building
tables from the free list on the way, and writes it. `MapSpec` says what `n`
rounds do to the page tables of the memory; `mapPagesLoop_cases` gives the three
ways the loop can end. `map_pages` updates the map if nothing in the range is
mapped and the free list holds the tables still missing.
-/

namespace Pke

open Lib Radix

/-- The address of the virtual page number `V`. -/
def vaddr (V : ℕ) : Word := BitVec.ofNat 64 (V * 4096)

/-- A virtual page number from its value. -/
def vpnOf (V : ℕ) : Vpn := BitVec.ofNat 27 V

theorem vaddr_toNat {V : ℕ} (hV : V ≤ 2 ^ 26) : (vaddr V).toNat = V * 4096 := by
  rw [vaddr, BitVec.toNat_ofNat]
  omega

theorem vpnOf_toNat {V : ℕ} (hV : V < 2 ^ 27) : (vpnOf V).toNat = V := by
  rw [vpnOf, BitVec.toNat_ofNat]
  omega

theorem vpn_vaddr {V : ℕ} (hV : V ≤ 2 ^ 26) : vpn (vaddr V) = vpnOf V := by
  apply BitVec.eq_of_toNat_eq
  rw [vpn, BitVec.extractLsb'_toNat, vaddr_toNat hV, vpnOf, BitVec.toNat_ofNat,
    Nat.shiftRight_eq_div_pow]
  omega

theorem vaddr_succ (V : ℕ) : vaddr V + PGSIZE = vaddr (V + 1) := by
  apply BitVec.eq_of_toNat_eq
  simp only [vaddr, PGSIZE, BitVec.toNat_add, BitVec.toNat_ofNat]
  omega

theorem vaddr_lt_MAXVA {V : ℕ} (hV : V < 2 ^ 26) : vaddr V < MAXVA := by
  rw [BitVec.lt_def, vaddr_toNat hV.le, show MAXVA.toNat = 2 ^ 38 from rfl]
  omega

theorem eq_vpnOf_iff {v : Vpn} {V : ℕ} (hV : V < 2 ^ 27) : v = vpnOf V ↔ v.toNat = V := by
  rw [← BitVec.toNat_inj, vpnOf_toNat hV]

/-! ## Writing an entry of the last level -/

section Write

variable {R : Set Ppn} {s : Phys} {fl : List Ppn} {r q : Ppn} {v : Vpn}

/-- The state after the entry for `v` in the table `q` was set to `w`. -/
def writeLeaf (s : Phys) (q : Ppn) (v : Vpn) (w : Word) : Phys :=
  { s with mem := store64 s.mem (slot (addr q) (px 0 v)) w }

theorem writeLeaf_mem (w : Word) : (writeLeaf s q v w).mem =
    Function.update s.mem q (Function.update (s.mem q) (px 0 v) w) := store64_slot _ _ _ _

theorem writeLeaf_of_ne {p : Ppn} (h : p ≠ q) (w : Word) : (writeLeaf s q v w).mem p = s.mem p := by
  rw [writeLeaf_mem, Function.update_of_ne h]

theorem writeLeaf_nodeAt (h : Forest ptePage s.mem 2 R) (hr : r ∈ R)
    (hq : nodeAt ptePage s.mem r (vpath 2 v) = some q) (w : Word) {r' : Ppn} (hr' : r' ∈ R)
    {π : List Idx} (hπ : π.length ≤ 2) :
    nodeAt ptePage (writeLeaf s q v w).mem r' π = nodeAt ptePage s.mem r' π :=
  h.nodeAt_write hr hq (vpath_length 2 v) (fun _ hp => writeLeaf_of_ne hp w) hr' π hπ

theorem Tables.grow_writeLeaf (h : Tables R s fl) (hr : r ∈ R)
    (hq : nodeAt ptePage s.mem r (vpath 2 v) = some q) (w : Word) :
    Grow R s fl (writeLeaf s q v w) fl := by
  have hpages : tablePages (writeLeaf s q v w).mem R = tablePages s.mem R :=
    h.forest.nodes_write hr hq (vpath_length 2 v) fun _ hp => writeLeaf_of_ne hp w
  have hqt : q ∈ tablePages s.mem R := mem_nodes hr (vpath_length 2 v).le hq
  constructor
  · constructor
    · refine h.free.frame rfl fun p hp => writeLeaf_of_ne ?_ w
      rintro rfl
      exact h.apart p hqt hp
    · exact h.forest.write hr hq (vpath_length 2 v) fun _ hp => writeLeaf_of_ne hp w
    · rw [hpages]; exact h.apart
    · rw [hpages]; exact h.nonnull
  · exact ⟨[], rfl, by rw [hpages]; simp⟩
  · intro r' hr' π p hπ hp
    rw [writeLeaf_nodeAt h.forest hr hq w hr' hπ]
    exact hp
  · intro p hp
    rw [hpages] at hp
    refine writeLeaf_of_ne ?_ w
    rintro rfl
    exact hp hqt
  · rfl
  · rfl

/-- Writing a valid entry changes the translation of its page and no other. -/
theorem translate_writeLeaf (h : Forest ptePage s.mem 2 R) (hr : r ∈ R)
    (hq : nodeAt ptePage s.mem r (vpath 2 v) = some q) (w : Word) {r' : Ppn} (hr' : r' ∈ R)
    (v' : Vpn) :
    translate (writeLeaf s q v w).mem r' v' =
      if r' = r ∧ v' = v then (if w &&& PTE_V ≠ 0 then some w else none)
      else translate s.mem r' v' := by
  split_ifs with hsame hv
  · obtain ⟨rfl, rfl⟩ := hsame
    rw [translate, leafAt_of_nodeAt ((writeLeaf_nodeAt h hr hq w hr (by simp)).trans hq)]
    rw [writeLeaf_mem, Function.update_self, Function.update_self]
    rw [if_pos (ptePage_isSome.mpr hv)]
  · obtain ⟨rfl, rfl⟩ := hsame
    rw [translate, leafAt_of_nodeAt ((writeLeaf_nodeAt h hr hq w hr (by simp)).trans hq)]
    rw [writeLeaf_mem, Function.update_self, Function.update_self]
    rw [if_neg (mt ptePage_isSome.mp hv)]
  · refine h.leafAt_write hr hq (vpath_length 2 v) (fun _ hp => writeLeaf_of_ne hp w)
      (fun j (hj : j ≠ px 0 v) => ?_) hr' (vpath_length 2 v') ?_
    · rw [writeLeaf_mem, Function.update_self, Function.update_of_ne hj]
    · rintro ⟨rfl, hπ, hi⟩
      exact hsame ⟨rfl, vpath_ext hπ hi⟩

end Write

/-! ## The tables a range needs -/

/-- The paths of the tables on the way to the pages `V, …, V + n - 1`. -/
def tablePaths (V n : ℕ) : Finset (List Idx) :=
  (Finset.range n).biUnion fun k => (vpath 2 (vpnOf (V + k))).inits.toFinset

/-- How many tables are missing on the way to the pages `V, …, V + n - 1`. -/
def tablesNeeded (m : Mem) (r : Ppn) (V n : ℕ) : ℕ := missing ptePage m r (tablePaths V n)

theorem mem_tablePaths {V n : ℕ} {π : List Idx} :
    π ∈ tablePaths V n ↔ ∃ k < n, π <+: vpath 2 (vpnOf (V + k)) := by
  simp [tablePaths]

theorem tablePaths_length {V n : ℕ} {π : List Idx} (h : π ∈ tablePaths V n) : π.length ≤ 2 := by
  obtain ⟨k, _, hk⟩ := mem_tablePaths.mp h
  simpa using hk.length_le

/-- At most two tables are missing for each page. -/
theorem tablesNeeded_le (m : Mem) (r : Ppn) (V n : ℕ) : tablesNeeded m r V n ≤ n * 2 := by
  have hsub : (tablePaths V n).filter (fun π => (nodeAt ptePage m r π).isNone) ⊆
      (Finset.range n).biUnion fun k => (vpath 2 (vpnOf (V + k))).inits.tail.toFinset := by
    intro π hπ
    obtain ⟨hmem, hnone⟩ := Finset.mem_filter.mp hπ
    obtain ⟨k, hk, hpre⟩ := mem_tablePaths.mp hmem
    refine Finset.mem_biUnion.mpr ⟨k, Finset.mem_range.mpr hk, ?_⟩
    have hmem' := (List.mem_inits _ _).mpr hpre
    -- the root is there
    have hne : π ≠ [] := by
      rintro rfl
      simp at hnone
    simp only [vpath, List.inits, List.mem_cons, List.tail_cons, List.mem_toFinset] at hmem' ⊢
    exact hmem'.resolve_left hne
  refine (Finset.card_le_card hsub).trans ?_
  refine (Finset.card_biUnion_le_card_mul _ _ 2 fun k _ => ?_).trans (by simp)
  exact (List.toFinset_card_le _).trans (by simp [vpath])

theorem tablePaths_succ_subset (V n : ℕ) : tablePaths (V + 1) n ⊆ tablePaths V (n + 1) := by
  intro π hπ
  obtain ⟨k, hk, hpre⟩ := mem_tablePaths.mp hπ
  refine mem_tablePaths.mpr ⟨k + 1, by omega, ?_⟩
  rwa [show V + (k + 1) = V + 1 + k by omega]

/-! ## The loop -/

section Loop

variable {R : Set Ppn} {r : Ppn} {s s₁ s₂ s' : Phys} {fl fl₁ fl' : List Ppn} {perm : Word}

/-- What mapping the pages `V, …, V + n - 1` of the table `r` to the frames from
    `pa` on does to the page tables rooted in `R`. -/
structure MapSpec (R : Set Ppn) (r : Ppn) (V n : ℕ) (pa perm : Word) (s : Phys) (fl : List Ppn)
    (s' : Phys) (fl' : List Ppn) : Prop where
  grow : Grow R s fl s' fl'
  unmapped : ∀ k < n, translate s.mem r (vpnOf (V + k)) = none
  leaf : ∀ r' ∈ R, ∀ v : Vpn, translate s'.mem r' v =
    if r' = r ∧ V ≤ v.toNat ∧ v.toNat < V + n then some (mkPte (pa + vaddr (v.toNat - V)) perm)
    else translate s.mem r' v

theorem MapSpec.refl (h : Tables R s fl) (V : ℕ) (pa : Word) :
    MapSpec R r V 0 pa perm s fl s fl :=
  ⟨Grow.refl h, fun _ hk => absurd hk (Nat.not_lt_zero _),
    fun r' _ v => by rw [if_neg (by omega)]⟩

/-- One round of the loop in front of `n` more. -/
theorem MapSpec.cons {V n : ℕ} {pa : Word} {q : Ppn} {c : PhysM Word} (hV : V + n < 2 ^ 26)
    (hr : r ∈ R) (hnone : translate s.mem r (vpnOf V) = none)
    (hw : WalkSpec R r (vpath 2 (vpnOf V)) (vpnOf V) c s fl s₁ fl₁)
    (hq : nodeAt ptePage s₁.mem r (vpath 2 (vpnOf V)) = some q)
    (h : MapSpec R r (V + 1) n (pa + PGSIZE) perm
      (writeLeaf s₁ q (vpnOf V) (mkPte pa perm)) fl₁ s' fl') :
    MapSpec R r V (n + 1) pa perm s fl s' fl' := by
  have hF := hw.grow.tables.forest
  refine ⟨(hw.grow.trans (hw.grow.tables.grow_writeLeaf hr hq _)).trans h.grow, ?_, ?_⟩
  · intro k hk
    rcases Nat.eq_zero_or_pos k with rfl | hpos
    · exact hnone
    · have hrest := h.unmapped (k - 1) (by omega)
      rw [show V + 1 + (k - 1) = V + k by omega, translate_writeLeaf hF hr hq _ hr, if_neg,
        hw.same r hr] at hrest
      · exact hrest
      · rintro ⟨-, he⟩
        rw [eq_vpnOf_iff (by omega), vpnOf_toNat (by omega)] at he
        omega
  intro r' hr' v
  rw [h.leaf r' hr' v, translate_writeLeaf hF hr hq _ hr' v, if_pos (mkPte_valid pa perm),
    hw.same r' hr' v]
  simp only [eq_vpnOf_iff (v := v) (by omega : V < 2 ^ 27)]
  by_cases hrr : r' = r
  · subst hrr
    simp only [true_and]
    rcases lt_trichotomy v.toNat V with hlt | heq | hgt
    · rw [if_neg (by omega), if_neg (by omega), if_neg (by omega)]
    · rw [if_neg (by omega), if_pos heq, if_pos (by omega), heq, Nat.sub_self]
      simp [vaddr]
    · by_cases hin : v.toNat < V + 1 + n
      · have hpa : pa + PGSIZE + vaddr (v.toNat - (V + 1)) = pa + vaddr (v.toNat - V) := by
          rw [show v.toNat - V = v.toNat - (V + 1) + 1 by omega, ← vaddr_succ, BitVec.add_assoc,
            BitVec.add_comm PGSIZE]
        rw [if_pos (by omega), if_pos (by omega), hpa]
      · rw [if_neg (by omega), if_neg (by omega), if_neg (by omega)]
  · rw [if_neg (fun h => hrr h.1), if_neg (fun h => hrr h.1), if_neg (fun h => hrr h.1)]

/-- The counting of pages over one round of the loop. -/
theorem WalkSpec.count_range {V n : ℕ} {c : PhysM Word}
    (hw : WalkSpec R r (vpath 2 (vpnOf V)) (vpnOf V) c s fl s₁ fl₁) {Q : Finset (List Idx)}
    (hQ : ∀ π ∈ Q, π.length ≤ 2) (hsub : tablePaths V (n + 1) ⊆ Q) :
    missing ptePage s.mem r Q + fl₁.length = missing ptePage s₁.mem r Q + fl.length :=
  hw.count Q hQ fun _ hπ => hsub (mem_tablePaths.mpr ⟨0, by omega, hπ⟩)

/-- How the loop of `map_pages` can end on the pages `V, …, V + n - 1`: all of
    them are mapped; the free list runs out, and then it was too short; or the
    loop meets a page that is mapped already. -/
theorem mapPagesLoop_cases (hr : r ∈ R) (last perm : Word) :
    ∀ (n fuel V : ℕ) (pa : Word) (s : Phys) (fl : List Ppn), n < fuel → V + n ≤ 2 ^ 26 →
      last.toNat + 4096 = (V + n) * 4096 → Tables R s fl →
      (∃ s' fl', mapPagesLoop (addr r) last perm fuel (vaddr V) pa s = .ret 0 s' ∧
        MapSpec R r V n pa perm s fl s' fl' ∧
        ∀ Q : Finset (List Idx), (∀ π ∈ Q, π.length ≤ 2) → tablePaths V n ⊆ Q →
          missing ptePage s.mem r Q + fl'.length = missing ptePage s'.mem r Q + fl.length) ∨
      (∃ k < n, ∃ s', mapPagesLoop (addr r) last perm fuel (vaddr V) pa s = .ret (-1) s' ∧
        MapSpec R r V k pa perm s fl s' [] ∧ fl.length < tablesNeeded s.mem r V n) ∨
      (∃ k < n, translate s.mem r (vpnOf (V + k)) ≠ none ∧
        mapPagesLoop (addr r) last perm fuel (vaddr V) pa s =
          .halt (.panic "map_pages fails on mapping va (0x%lx) to pa (0x%lx)"
            [vaddr (V + k), pa + vaddr k])) := by
  intro n
  induction n with
  | zero =>
    intro fuel V pa s fl hfuel hV hlast h
    obtain ⟨fuel, rfl⟩ : ∃ f, fuel = f + 1 := ⟨fuel - 1, by omega⟩
    refine Or.inl ⟨s, fl, ?_, MapSpec.refl h V pa, fun _ _ _ => rfl⟩
    have hguard : ¬ vaddr V ≤ last := by
      rw [BitVec.le_def, vaddr_toNat (by omega)]
      omega
    rw [mapPagesLoop, if_neg hguard]
    rfl
  | succ n ih =>
    intro fuel V pa s fl hfuel hV hlast h
    obtain ⟨fuel, rfl⟩ : ∃ f, fuel = f + 1 := ⟨fuel - 1, by omega⟩
    have hlast' : last.toNat + 4096 = (V + 1 + n) * 4096 := by lia
    have hguard : vaddr V ≤ last := by
      rw [BitVec.le_def, vaddr_toNat (by omega)]
      omega
    obtain ⟨s₁, fl₁, hw⟩ := pageWalk_alloc h hr (vaddr_lt_MAXVA (by omega : V < 2 ^ 26))
    rw [vpn_vaddr (by omega)] at hw
    have hlen : ∀ π ∈ tablePaths V (n + 1), π.length ≤ 2 := fun π => tablePaths_length
    have hcount := hw.count_range hlen subset_rfl
    rw [mapPagesLoop, if_pos hguard]
    rcases hw.result with ⟨q, hq, hrun⟩ | ⟨hnil, hnone, hrun⟩
    · have hq0 : slot (addr q) (px 0 (vpnOf V)) ≠ 0 :=
        slot_ne_zero (hw.grow.tables.nonnull q (mem_nodes hr (vpath_length 2 _).le hq)) _
      have hread : load (slot (addr q) (px 0 (vpnOf V))) s₁ =
          .ret (s₁.mem q (px 0 (vpnOf V))) s₁ := by
        rw [load, Prog.gets_apply, load64_slot]
      rw [Prog.bind_of_ret hrun, if_neg hq0, Prog.bind_of_ret hread]
      by_cases hv : s₁.mem q (px 0 (vpnOf V)) &&& PTE_V = 0
      · rw [if_neg (not_not.mpr hv), store, Prog.bind_of_ret (Prog.modify_apply _ _), vaddr_succ]
        have hT := (hw.grow.tables.grow_writeLeaf hr hq (mkPte pa perm)).tables
        have hnodes : ∀ π : List Idx, π.length ≤ 2 → nodeAt ptePage
            (writeLeaf s₁ q (vpnOf V) (mkPte pa perm)).mem r π = nodeAt ptePage s₁.mem r π :=
          fun π hπ => writeLeaf_nodeAt hw.grow.tables.forest hr hq _ hr hπ
        have hcount₂ : ∀ Q : Finset (List Idx), (∀ π ∈ Q, π.length ≤ 2) →
            missing ptePage (writeLeaf s₁ q (vpnOf V) (mkPte pa perm)).mem r Q =
              missing ptePage s₁.mem r Q :=
          fun Q hQ => missing_congr fun π hπ => hnodes π (hQ π hπ)
        have hnone : translate s.mem r (vpnOf V) = none := by
          rw [← hw.same r hr, translate, leafAt_of_nodeAt hq,
            if_neg (mt ptePage_isSome.mp (not_not.mpr hv))]
        rcases ih fuel (V + 1) (pa + PGSIZE) _ fl₁ (by omega) (by omega) hlast' hT with
          ⟨s', fl', hret, hmap, hQ⟩ | ⟨k, hk, s', hret, hmap, hshort⟩ | ⟨k, hk, hmapped, hret⟩
        · refine Or.inl ⟨s', fl', hret, hmap.cons (by omega) hr hnone hw hq, fun Q hlenQ hsub => ?_⟩
          have h1 := hQ Q hlenQ ((tablePaths_succ_subset V n).trans hsub)
          have h2 := hw.count_range hlenQ hsub
          have h3 := hcount₂ Q hlenQ
          omega
        · refine Or.inr (Or.inl
            ⟨k + 1, by omega, s', hret, hmap.cons (by omega) hr hnone hw hq, ?_⟩)
          have h1 : missing ptePage (writeLeaf s₁ q (vpnOf V) (mkPte pa perm)).mem r _ ≤ _ :=
            missing_mono (tablePaths_succ_subset V n)
          have h2 := hcount₂ _ hlen
          unfold tablesNeeded at hshort ⊢
          omega
        · refine Or.inr (Or.inr ⟨k + 1, by omega, ?_, ?_⟩)
          · rw [translate_writeLeaf hw.grow.tables.forest hr hq _ hr, if_neg,
              hw.same r hr] at hmapped
            · rwa [show V + (k + 1) = V + 1 + k by omega]
            · rintro ⟨-, h⟩
              rw [eq_vpnOf_iff (by omega), vpnOf_toNat (by omega)] at h
              omega
          · rw [show V + (k + 1) = V + 1 + k by omega, ← vaddr_succ k, BitVec.add_comm (vaddr k),
              ← BitVec.add_assoc]
            exact hret
      · -- the first page is mapped already
        refine Or.inr (Or.inr ⟨0, by omega, ?_, ?_⟩)
        · rw [Nat.add_zero, ← hw.same r hr, translate, leafAt_of_nodeAt hq,
            if_pos (ptePage_isSome.mpr hv)]
          exact Option.some_ne_none _
        · rw [if_pos hv, Nat.add_zero]
          simp [vaddr]
    · -- the free list ran out on the way to the first page
      refine Or.inr (Or.inl ⟨0, by omega, s₁, ?_, ⟨hnil ▸ hw.grow,
        fun _ hk => absurd hk (Nat.not_lt_zero _), fun r' hr' v => ?_⟩, ?_⟩)
      · rw [Prog.bind_of_ret hrun, if_pos rfl]
        rfl
      · rw [hw.same r' hr' v, if_neg (by omega)]
      · have hpos : 0 < missing ptePage s₁.mem r (tablePaths V (n + 1)) :=
          missing_pos (mem_tablePaths.mpr ⟨0, by omega, List.prefix_rfl⟩) hnone
        rw [hnil, List.length_nil] at hcount
        unfold tablesNeeded
        omega

/-- A mapped page has all the tables on its way. -/
theorem nodeAt_of_translate {m : Mem} {v : Vpn} {w : Word} (h : translate m r v = some w)
    {π : List Idx} (hπ : π <+: vpath 2 v) : nodeAt ptePage m r π ≠ none := by
  obtain ⟨q, hq, _⟩ := leafAt_eq_some.mp h
  obtain ⟨ρ, hρ⟩ := hπ
  intro hnone
  rw [← hρ, nodeAt_append, hnone] at hq
  cases hq

/-- The third-level table for the page `v` is there. -/
def HasTable (m : Mem) (r : Ppn) (v : Vpn) : Prop := nodeAt ptePage m r (vpath 2 v) ≠ none

/-- For one page no table is missing exactly if its third-level table is there. -/
theorem tablesNeeded_one_eq_zero {m : Mem} {V : ℕ} :
    tablesNeeded m r V 1 = 0 ↔ HasTable m r (vpnOf V) := by
  constructor
  · intro h0 hnone
    have hpos : 0 < tablesNeeded m r V 1 :=
      missing_pos (mem_tablePaths.mpr ⟨0, Nat.one_pos, List.prefix_rfl⟩) hnone
    omega
  · intro htab
    unfold tablesNeeded missing
    rw [Finset.card_eq_zero, Finset.filter_eq_empty_iff]
    intro π hπ hnone
    obtain ⟨k, hk, ρ, hρ⟩ := mem_tablePaths.mp hπ
    obtain rfl : k = 0 := by omega
    refine htab ?_
    rw [Nat.add_zero] at hρ
    rw [← hρ, nodeAt_append, Option.isNone_iff_eq_none.mp hnone]
    rfl

theorem MapSpec.tablesNeeded_eq_zero {V n : ℕ} {pa : Word} (hV : V + n ≤ 2 ^ 26) (hr : r ∈ R)
    (h : MapSpec R r V n pa perm s fl s' fl') : tablesNeeded s'.mem r V n = 0 := by
  unfold tablesNeeded missing
  rw [Finset.card_eq_zero, Finset.filter_eq_empty_iff]
  intro π hπ hnone
  obtain ⟨k, hk, hpre⟩ := mem_tablePaths.mp hπ
  have hleaf := h.leaf r hr (vpnOf (V + k))
  rw [vpnOf_toNat (by omega), if_pos ⟨rfl, by omega, by omega⟩] at hleaf
  exact nodeAt_of_translate hleaf hpre (Option.isNone_iff_eq_none.mp hnone)

end Loop

/-! ## `map_pages` -/

/-- The number of pages that `[va, va + size)` meets. -/
def pageCount (va size : Word) : ℕ :=
  (va.toNat + size.toNat - 1) / 4096 - va.toNat / 4096 + 1

section MapPages

variable {R : Set Ppn} {r : Ppn} {s s' : Phys} {fl fl' : List Ppn} {va size pa perm : Word}

theorem mapPages_eq_loop (hsize : 1 ≤ size.toNat) (hva : va.toNat + size.toNat ≤ 2 ^ 38) :
    mapPages (addr r) va size pa perm s =
        mapPagesLoop (addr r) (vaddr (va.toNat / 4096 + pageCount va size - 1)) perm
          (2 ^ 26 + 1) (vaddr (va.toNat / 4096)) pa s := by
  have hfirst : ROUNDDOWN va PGSIZE = vaddr (va.toNat / 4096) := by
    rw [ROUNDDOWN_eq]
    apply BitVec.eq_of_toNat_eq
    rw [addr_toNat, ppn_toNat, vaddr_toNat (by omega)]
  have hlast : ROUNDDOWN (va + size - 1) PGSIZE =
      vaddr (va.toNat / 4096 + pageCount va size - 1) := by
    have hsum : (va + size - 1).toNat = va.toNat + size.toNat - 1 := by
      rw [BitVec.toNat_sub, BitVec.toNat_add, show (1 : Word).toNat = 1 from rfl]
      omega
    rw [ROUNDDOWN_eq]
    apply BitVec.eq_of_toNat_eq
    unfold pageCount
    rw [addr_toNat, ppn_toNat, vaddr_toNat (by omega), hsum]
    congr 1
    omega
  rw [mapPages, hfirst, hlast]

/-- How `map_pages` can end below `MAXVA`. -/
theorem mapPages_cases (h : Tables R s fl) (hr : r ∈ R) (hsize : 1 ≤ size.toNat)
    (hva : va.toNat + size.toNat ≤ 2 ^ 38) (pa perm : Word) :
    (∃ s' fl', mapPages (addr r) va size pa perm s = .ret 0 s' ∧
      MapSpec R r (va.toNat / 4096) (pageCount va size) pa perm s fl s' fl' ∧
      fl.length = tablesNeeded s.mem r (va.toNat / 4096) (pageCount va size) + fl'.length ∧
      ∀ Q : Finset (List Idx), (∀ π ∈ Q, π.length ≤ 2) →
        tablePaths (va.toNat / 4096) (pageCount va size) ⊆ Q →
        missing ptePage s.mem r Q + fl'.length = missing ptePage s'.mem r Q + fl.length) ∨
    (∃ k < pageCount va size, ∃ s', mapPages (addr r) va size pa perm s = .ret (-1) s' ∧
      MapSpec R r (va.toNat / 4096) k pa perm s fl s' [] ∧
      fl.length < tablesNeeded s.mem r (va.toNat / 4096) (pageCount va size)) ∨
    (∃ k < pageCount va size, translate s.mem r (vpnOf (va.toNat / 4096 + k)) ≠ none ∧
      mapPages (addr r) va size pa perm s =
        .halt (.panic "map_pages fails on mapping va (0x%lx) to pa (0x%lx)"
          [vaddr (va.toNat / 4096 + k), pa + vaddr k])) := by
  have hn : va.toNat / 4096 + pageCount va size ≤ 2 ^ 26 := by
    unfold pageCount
    omega
  have hpos : 1 ≤ pageCount va size := by
    unfold pageCount
    omega
  rw [mapPages_eq_loop hsize hva]
  rcases mapPagesLoop_cases hr (vaddr (va.toNat / 4096 + pageCount va size - 1)) perm
      (pageCount va size) (2 ^ 26 + 1) (va.toNat / 4096) pa s fl (by omega) hn
      (by rw [vaddr_toNat (by omega)]; omega) h with
    ⟨s', fl', hret, hmap, hcount⟩ | hfail | hpanic
  · refine Or.inl ⟨s', fl', hret, hmap, ?_, hcount⟩
    have h1 := hcount _ (fun π => tablePaths_length) subset_rfl
    have h2 := hmap.tablesNeeded_eq_zero hn hr
    unfold tablesNeeded at h2 ⊢
    omega
  · exact Or.inr (Or.inl hfail)
  · exact Or.inr (Or.inr hpanic)

/-! ## The abstraction of a page table -/

/-- A page table as a finite map: the frame and the flags (`PTE_FLAGS`) of the
    valid entry for an address. -/
def absTable (m : Mem) (r : Ppn) (va : Word) : Option (Word × Word) :=
  (translate m r (vpn va)).map fun w => (PTE2PA w, w &&& 0x3FF#64)

/-- The answer of `lookup_pa` in terms of the abstraction. -/
def lookupAnswer (m : Mem) (r : Ppn) (va : Word) : Word :=
  if MAXVA ≤ va then 0
  else match absTable m r va with
    | some (frame, flags) => if flags &&& PTE_R = 0 ∧ flags &&& PTE_W = 0 then 0 else frame
    | none => 0

theorem flags_and_flag (w : Word) {f : Word} (hf : 0x3FF#64 &&& f = f) :
    w &&& 0x3FF#64 &&& f = w &&& f := by
  rw [BitVec.and_assoc, hf]

/-- `lookup_pa` reads the abstraction. -/
theorem lookupPa_eq (h : Tables R s fl) (hr : r ∈ R) (va : Word) :
    lookupPa (addr r) va s = .ret (lookupAnswer s.mem r va) s := by
  unfold lookupPa lookupAnswer
  by_cases hva : MAXVA ≤ va
  · rw [if_pos hva, if_pos hva]
    rfl
  · rw [if_neg hva, if_neg hva, Prog.bind_of_ret (pageWalk_lookup (BitVec.not_le.mp hva) r s),
      absTable, translate]
    cases hq : nodeAt ptePage s.mem r (vpath 2 (vpn va)) with
    | none =>
      rw [leafAt, hq, if_pos rfl]
      rfl
    | some q =>
      have hq0 : slot (addr q) (px 0 (vpn va)) ≠ 0 :=
        slot_ne_zero (h.nonnull q (mem_nodes hr (vpath_length 2 _).le hq)) _
      dsimp only
      rw [if_neg hq0, load, Prog.bind_of_ret (Prog.gets_apply _ _), load64_slot,
        leafAt_of_nodeAt hq]
      by_cases hv : s.mem q (px 0 (vpn va)) &&& PTE_V = 0
      · rw [if_pos (Or.inl hv), if_neg (mt ptePage_isSome.mp (not_not.mpr hv))]
        rfl
      · rw [if_pos (ptePage_isSome.mpr hv), Option.map_some]
        dsimp only
        rw [flags_and_flag _ (by decide : 0x3FF#64 &&& PTE_R = PTE_R),
          flags_and_flag _ (by decide : 0x3FF#64 &&& PTE_W = PTE_W), Prog.ite_apply]
        simp only [or_iff_right hv]
        split_ifs <;> rfl

theorem vpn_addr_ppn (a : Word) : vpn (addr (ppn a)) = vpn a := by
  apply BitVec.eq_of_toNat_eq
  rw [vpn, vpn, BitVec.extractLsb'_toNat, BitVec.extractLsb'_toNat, addr_toNat, ppn_toNat,
    Nat.shiftRight_eq_div_pow, Nat.shiftRight_eq_div_pow]
  omega

theorem vpn_toNat {va : Word} (h : va.toNat < 2 ^ 39) : (vpn va).toNat = va.toNat / 4096 := by
  rw [vpn, BitVec.extractLsb'_toNat, Nat.shiftRight_eq_div_pow]
  omega

theorem vaddr_eq_mul (k : ℕ) : vaddr k = BitVec.ofNat 64 k * PGSIZE := by
  apply BitVec.eq_of_toNat_eq
  rw [BitVec.toNat_mul]
  simp [vaddr, PGSIZE]

theorem PTE2PA_mkPte {pa perm : Word} (hpa : pa % PGSIZE = 0) (hperm : perm &&& 0x3FF = perm) :
    PTE2PA (mkPte pa perm) = pa := by
  rw [PTE2PA_eq, ptePpn_mkPte pa hperm, addr_ppn hpa]

theorem flags_mkPte {pa perm : Word} (hperm : perm &&& 0x3FF = perm) :
    mkPte pa perm &&& 0x3FF#64 = perm ||| PTE_V := by
  rw [mkPte_and_flag pa perm (by decide)]
  change (perm ||| PTE_V) &&& 0x3FF = perm ||| PTE_V
  nth_rewrite 2 [← hperm]
  apply BitVec.eq_of_getLsbD_eq
  intro i hi
  simp only [BitVec.getLsbD_and, BitVec.getLsbD_or]
  have hv : PTE_V.getLsbD i = (PTE_V.getLsbD i && (0x3FF : Word).getLsbD i) := by
    rw [← BitVec.getLsbD_and]
    rfl
  rw [hv]
  generalize PTE_V.getLsbD i = a
  generalize perm.getLsbD i = b
  generalize (0x3FF : Word).getLsbD i = c
  revert a b c
  decide

theorem add_vaddr_aligned {pa : Word} (h : pa % PGSIZE = 0) (k : ℕ) :
    (pa + vaddr k) % PGSIZE = 0 := by
  have h' : pa.toNat % 4096 = 0 := by simpa [PGSIZE] using congrArg BitVec.toNat h
  apply BitVec.eq_of_toNat_eq
  rw [BitVec.toNat_umod, BitVec.toNat_add, vaddr, BitVec.toNat_ofNat,
    show PGSIZE.toNat = 4096 from rfl, show (0 : Word).toNat = 0 from rfl]
  omega

/-- The page of `va'` is one of the pages from `ROUNDDOWN(va)` to
    `ROUNDDOWN(va + size - 1)`. -/
def InRange (va size va' : Word) : Prop :=
  va.toNat / 4096 ≤ va'.toNat / 4096 ∧ va'.toNat / 4096 ≤ (va.toNat + size.toNat - 1) / 4096

instance (va size va' : Word) : Decidable (InRange va size va') :=
  inferInstanceAs (Decidable (_ ∧ _))

theorem toNat_lt_of_lt_MAXVA {va : Word} (h : va < MAXVA) : va.toNat < 2 ^ 38 :=
  BitVec.lt_def.mp h

theorem inRange_iff {va' : Word} (hsize : 1 ≤ size.toNat) (h : va' < MAXVA) :
    InRange va size va' ↔ va.toNat / 4096 ≤ (vpn va').toNat ∧
      (vpn va').toNat < va.toNat / 4096 + pageCount va size := by
  have := toNat_lt_of_lt_MAXVA h
  rw [vpn_toNat (by omega)]
  unfold InRange pageCount
  omega

theorem InRange.lt_MAXVA {va' : Word} (hsize : 1 ≤ size.toNat)
    (hva : va.toNat + size.toNat ≤ 2 ^ 38) (h : InRange va size va') : va' < MAXVA := by
  rw [BitVec.lt_def, show MAXVA.toNat = 2 ^ 38 from rfl]
  have := h.2
  omega

theorem MapSpec.absTable_eq {V n : ℕ} (hmap : MapSpec R r V n pa perm s fl s' fl')
    (hpa : pa % PGSIZE = 0) (hperm : perm &&& 0x3FF = perm) {r' : Ppn} (hr' : r' ∈ R)
    (va' : Word) :
    absTable s'.mem r' va' = if r' = r ∧ V ≤ (vpn va').toNat ∧ (vpn va').toNat < V + n then
        some (pa + vaddr ((vpn va').toNat - V), perm ||| PTE_V)
      else absTable s.mem r' va' := by
  unfold absTable
  rw [hmap.leaf r' hr']
  split_ifs with hc
  · rw [Option.map_some, PTE2PA_mkPte (add_vaddr_aligned hpa _) hperm, flags_mkPte hperm]
  · rfl

/-- A page mapped with R or W is found by `lookup_pa`. -/
theorem lookupAnswer_of_mapped {m : Mem} {va' frame : Word} (hva' : va' < MAXVA)
    (hperm : perm &&& (PTE_R ||| PTE_W) ≠ 0)
    (h : absTable m r va' = some (frame, perm ||| PTE_V)) : lookupAnswer m r va' = frame := by
  have key : ∀ f : Word, f &&& PTE_V = 0 → (perm ||| PTE_V) &&& f = perm &&& f := by
    intro f hf
    have hf' : PTE_V &&& f = 0 := by rw [BitVec.and_comm, hf]
    apply BitVec.eq_of_getLsbD_eq
    intro i hi
    have := congrArg (fun x => BitVec.getLsbD x i) hf'
    simp only [BitVec.getLsbD_and, BitVec.getLsbD_or] at this ⊢
    rw [Bool.and_or_distrib_right, this]
    simp
  unfold lookupAnswer
  rw [if_neg (BitVec.not_le.mpr hva'), h]
  dsimp only
  rw [key _ (by decide), key _ (by decide), if_neg]
  rintro ⟨hR, hW⟩
  apply hperm
  rw [BitVec.and_or_distrib_left, hR, hW]
  rfl

/-- **`map_pages` refines the update of a finite map.** In a memory with any
    set `R` of well-formed page tables, if no page of the range is mapped and
    the free list holds the tables that are missing on the way to the range,
    `map_pages` returns 0 and keeps the tables well formed. The abstraction of
    the table changes exactly on the range, where the `k`-th page is mapped to
    `pa + k * PGSIZE` with `perm | PTE_V`; all other translations of all tables
    stay, and `lookup_pa` answers accordingly. -/
theorem mapPages_refines (h : Tables R s fl) (hr : r ∈ R) (prot user : BitVec 32)
    (hsize : 1 ≤ size.toNat) (hva : va.toNat + size.toNat ≤ MAXVA.toNat) (hpa : pa % PGSIZE = 0)
    (hperm : protToType prot user &&& (PTE_R ||| PTE_W) ≠ 0)
    (hfree : ∀ va', InRange va size va' → absTable s.mem r va' = none)
    (henough : tablesNeeded s.mem r (va.toNat / 4096) (pageCount va size) ≤ fl.length) :
    ∃ s' fl', mapPages (addr r) va size pa (protToType prot user) s = .ret 0 s' ∧
      Tables R s' fl' ∧
      (∀ r' ∈ R, ∀ va', va' < MAXVA → absTable s'.mem r' va' =
        if r' = r ∧ InRange va size va' then
          some (pa + BitVec.ofNat 64 (va'.toNat / 4096 - va.toNat / 4096) * PGSIZE,
            protToType prot user ||| PTE_V)
        else absTable s.mem r' va') ∧
      (∀ va', InRange va size va' → lookupPa (addr r) va' s' =
        .ret (pa + BitVec.ofNat 64 (va'.toNat / 4096 - va.toNat / 4096) * PGSIZE) s') ∧
      (∀ r' ∈ R, ∀ va', ¬ (r' = r ∧ InRange va size va') → ∃ answer,
        lookupPa (addr r') va' s = .ret answer s ∧ lookupPa (addr r') va' s' = .ret answer s') := by
  have hMAXVA : MAXVA.toNat = 2 ^ 38 := rfl
  rw [hMAXVA] at hva
  have hn : va.toNat / 4096 + pageCount va size ≤ 2 ^ 26 := by
    unfold pageCount
    omega
  rcases mapPages_cases h hr hsize hva pa (protToType prot user) with
    ⟨s', fl', hret, hmap, -⟩ | ⟨_, _, _, _, _, hshort⟩ | ⟨k, hk, hmapped, _⟩
  · have habs : ∀ r' ∈ R, ∀ va', va' < MAXVA → absTable s'.mem r' va' =
        if r' = r ∧ InRange va size va' then
          some (pa + BitVec.ofNat 64 (va'.toNat / 4096 - va.toNat / 4096) * PGSIZE,
            protToType prot user ||| PTE_V)
        else absTable s.mem r' va' := by
      intro r' hr' va' hva'
      have hlt := toNat_lt_of_lt_MAXVA hva'
      have hvpn : (vpn va').toNat = va'.toNat / 4096 := vpn_toNat (by omega)
      rw [hmap.absTable_eq hpa (protToType_flags prot user) hr' va']
      simp only [inRange_iff hsize hva', ← vaddr_eq_mul, hvpn]
    refine ⟨s', fl', hret, hmap.grow.tables, habs, fun va' hin => ?_, fun r' hr' va' hout => ?_⟩
    · have hva' := hin.lt_MAXVA hsize hva
      have := habs r hr va' hva'
      rw [if_pos ⟨rfl, hin⟩] at this
      rw [lookupPa_eq hmap.grow.tables hr, lookupAnswer_of_mapped hva' hperm this]
    · refine ⟨lookupAnswer s.mem r' va', lookupPa_eq h hr' va', ?_⟩
      rw [lookupPa_eq hmap.grow.tables hr']
      congr 1
      unfold lookupAnswer
      by_cases hva' : MAXVA ≤ va'
      · rw [if_pos hva', if_pos hva']
      · rw [habs r' hr' va' (BitVec.not_le.mp hva'), if_neg hout]
  · omega
  · -- the page that stops the loop would be in the range
    exfalso
    apply hmapped
    have hlt : vaddr (va.toNat / 4096 + k) < MAXVA := vaddr_lt_MAXVA (by omega)
    have hin : InRange va size (vaddr (va.toNat / 4096 + k)) := by
      rw [inRange_iff hsize hlt, vpn_vaddr (by omega), vpnOf_toNat (by omega)]
      omega
    have := hfree _ hin
    rwa [absTable, vpn_vaddr (by omega), Option.map_eq_none_iff] at this

/-- An empty page table at page `0x80001` and two free pages. -/
def samplePhys : Phys where
  mem p i := if p = 0x80002 ∧ i = 0 then addr 0x80003 else 0
  gFreeMemList := addr 0x80002
  freeMemStartAddr := addr 0x80001
  freeMemEndAddr := addr 0x80004

theorem samplePhys_tables : Tables {0x80001} samplePhys [0x80002, 0x80003] := by
  have hfl : FreeList samplePhys [0x80002, 0x80003] := by
    refine ⟨rfl, by decide, ?_⟩
    exact ⟨by decide, by decide, rfl⟩
  rw [← insert_empty_eq]
  refine (Tables.empty hfl).insert_of_empty (fun i => ?_) ?_ (by decide) (by decide)
  · simp [samplePhys]
  · rintro ⟨_, hr, _⟩
    exact hr

theorem samplePhys_translate (v : Vpn) : translate samplePhys.mem 0x80001 v = none :=
  leafAt_of_empty (fun i => ptePage_of_invalid (by simp [samplePhys])) _ _

/-- Mapping one page at `USER_FREE_ADDRESS_START` takes both free pages. -/
theorem mapPages_refines_sample :
    ∃ s' fl', mapPages (addr 0x80001) 0x400000 PGSIZE 0x80009000
        (protToType (PROT_READ ||| PROT_WRITE) 1) samplePhys = .ret 0 s' ∧
      Tables {0x80001} s' fl' ∧
      absTable s'.mem 0x80001 0x400000 =
        some (0x80009000, protToType (PROT_READ ||| PROT_WRITE) 1 ||| PTE_V) := by
  have hroot : (0x80001 : Ppn) ∈ ({0x80001} : Set Ppn) := rfl
  have hempty : ∀ va, absTable samplePhys.mem 0x80001 va = none := by
    intro va
    rw [absTable, translate, leafAt_of_empty]
    · rfl
    · intro i
      exact ptePage_of_invalid (by simp [samplePhys])
  have hrange : (0x400000 : Word).toNat + PGSIZE.toNat ≤ MAXVA.toNat := by decide
  have hpa : (0x80009000 : Word) % PGSIZE = 0 := by decide
  obtain ⟨s', fl', hret, hT, habs, -⟩ := mapPages_refines samplePhys_tables hroot
    (PROT_READ ||| PROT_WRITE) 1 (by decide) hrange hpa (by decide) (fun va _ => hempty va)
    (tablesNeeded_le _ _ _ _)
  refine ⟨s', fl', hret, hT, ?_⟩
  rw [habs _ hroot _ (by decide), if_pos (by decide)]
  rfl

end MapPages

end Pke
