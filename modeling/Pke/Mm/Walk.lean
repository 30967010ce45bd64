import Pke.Mm.MapPages

/-!
# The slots `page_walk` hands out

Without allocation `page_walk` is a partial map from virtual pages to the slots of
the last level. `finds_iff` reads it off the tree: the page of a slot is the table
the walk ends at, its index the last of the three indices. Because the tables of
the tree are apart, two pages never share a slot; because allocation only hangs
new tables under invalid entries of the upper levels, it moves no slot.
-/

namespace Pke

open Lib Radix

variable {r : Ppn} {s s' : Phys} {fl fl' : List Ppn} {va va' pte pte' : Word}

/-- The walk to `va` without allocation ends at the slot `pte`, not at NULL. -/
def Finds (r : Ppn) (s : Phys) (va pte : Word) : Prop :=
  pageWalk (addr r) va false s = .ret pte s ∧ pte ≠ 0

/-! ## Slots -/

theorem slot_inj {p q : Ppn} {i j : Idx} (h : slot (addr p) i = slot (addr q) j) :
    p = q ∧ i = j := by
  constructor
  · rw [← ppn_slot p i, h, ppn_slot]
  · rw [← idx_slot p i, h, idx_slot]

/-- Below `MAXVA` the three indices determine the page. -/
theorem vpn_eq_iff (hva : va < MAXVA) (hva' : va' < MAXVA) :
    vpn va = vpn va' ↔ va.toNat / 4096 = va'.toNat / 4096 := by
  have h1 := toNat_lt_of_lt_MAXVA hva
  have h2 := toNat_lt_of_lt_MAXVA hva'
  rw [← BitVec.toNat_inj, vpn_toNat (by omega), vpn_toNat (by omega)]

/-- A slot is found exactly where the tree has a table of the last level. -/
theorem finds_iff (h : Tables {r} s fl) (hva : va < MAXVA) :
    Finds r s va pte ↔ ∃ q, nodeAt ptePage s.mem r (vpath 2 (vpn va)) = some q ∧
      pte = slot (addr q) (px 0 (vpn va)) := by
  rw [Finds, pageWalk_lookup hva]
  cases hq : nodeAt ptePage s.mem r (vpath 2 (vpn va)) with
  | none =>
    constructor
    · rintro ⟨he, h0⟩
      exact absurd ((Out.ret.injEq ..).mp he).1.symm h0
    · rintro ⟨q, he, -⟩
      cases he
  | some q =>
    have hq0 : q ≠ 0 := h.nonnull q (mem_nodes (Set.mem_singleton r) (by simp) hq)
    constructor
    · rintro ⟨he, -⟩
      exact ⟨q, rfl, ((Out.ret.injEq ..).mp he).1.symm⟩
    · rintro ⟨q', he, rfl⟩
      obtain rfl : q = q' := Option.some.inj he
      exact ⟨rfl, slot_ne_zero hq0 _⟩

/-- Two addresses have the same slot exactly if they lie in the same page. -/
theorem Finds.eq_iff (h : Tables {r} s fl) (hva : va < MAXVA) (hva' : va' < MAXVA)
    (hf : Finds r s va pte) (hf' : Finds r s va' pte') :
    pte = pte' ↔ va.toNat / 4096 = va'.toNat / 4096 := by
  obtain ⟨q, hq, rfl⟩ := (finds_iff h hva).mp hf
  obtain ⟨q', hq', rfl⟩ := (finds_iff h hva').mp hf'
  rw [← vpn_eq_iff hva hva']
  constructor
  · intro he
    obtain ⟨rfl, hi⟩ := slot_inj he
    have hr : r ∈ ({r} : Set Ppn) := Set.mem_singleton r
    -- a table has one place in the tree
    have hπ := (h.forest r hr r hr _ _ q (by simp) (by simp) hq hq').2
    exact vpath_ext hπ hi
  · intro he
    rw [he, hq'] at hq
    rw [he, Option.some.inj hq]

/-! ## Allocation -/

/-- What `page_walk(pd, va, 1)` promises, with the free list `fl` before the call
    and `fl'` after it: the pages it has taken from the list are the new tables, and it
    returns NULL only when there are not enough of them. -/
structure Walked (r : Ppn) (va : Word) (s : Phys) (fl : List Ppn) (pte : Word) (s' : Phys)
    (fl' : List Ppn) : Prop where
  run : pageWalk (addr r) va true s = .ret pte s'
  tables : Tables {r} s' fl'
  taken : ∃ new, fl = new ++ fl' ∧ tablePages s'.mem {r} = tablePages s.mem {r} ∪ {p | p ∈ new}
  entries : ∀ v q, nodeAt ptePage s.mem r (vpath 2 v) = some q → s'.mem q = s.mem q
  slots : ∀ va' < MAXVA, ∀ pte', Finds r s va' pte' → Finds r s' va' pte'
  valid : ∀ v, translate s'.mem r v = translate s.mem r v
  null : pte = 0 → fl' = [] ∧ fl.length ≤ 1
  found : pte ≠ 0 → Finds r s' va pte
  apart : ∀ va₁ < MAXVA, ∀ va₂ < MAXVA, ∀ pte₁ pte₂, Finds r s' va₁ pte₁ →
    Finds r s' va₂ pte₂ → (pte₁ = pte₂ ↔ va₁.toNat / 4096 = va₂.toNat / 4096)

theorem Grow.finds (hg : Grow {r} s fl s' fl') (h : Tables {r} s fl) (hva : va < MAXVA)
    (hf : Finds r s va pte) : Finds r s' va pte := by
  obtain ⟨q, hq, hpte⟩ := (finds_iff h hva).mp hf
  exact (finds_iff hg.tables hva).mpr
    ⟨q, hg.keep r (Set.mem_singleton r) _ q (by simp) hq, hpte⟩

/-- A walk that fails has found at most one free page: it needs two tables at most. -/
theorem WalkSpec.length_le {c : PhysM Word} {v : Vpn}
    (hw : WalkSpec {r} r (vpath 2 v) v c s fl s' fl') (hfl : fl' = [])
    (hnone : nodeAt ptePage s'.mem r (vpath 2 v) = none) : fl.length ≤ 1 := by
  have hv : vpnOf (v.toNat + 0) = v := by simp [vpnOf]
  have hpath : ∀ π, π <+: vpath 2 v → π ∈ tablePaths v.toNat 1 := fun π hπ =>
    mem_tablePaths.mpr ⟨0, one_pos, by rwa [hv]⟩
  have hcount := hw.count _ (fun _ => tablePaths_length) hpath
  have hneed := tablesNeeded_le s.mem r v.toNat 1
  have hpos : 0 < missing ptePage s'.mem r (tablePaths v.toNat 1) :=
    missing_pos (hpath _ List.prefix_rfl) hnone
  rw [tablesNeeded] at hneed
  rw [hfl, List.length_nil] at hcount
  omega

/-- The walk returns a slot of the grown tree, or NULL with no free page left. -/
theorem WalkSpec.returns {c : PhysM Word}
    (hw : WalkSpec {r} r (vpath 2 (vpn va)) (vpn va) c s fl s' fl') (hva : va < MAXVA) :
    ∃ pte, c s = .ret pte s' ∧ (pte = 0 → fl' = [] ∧ fl.length ≤ 1) ∧
      (pte ≠ 0 → Finds r s' va pte) := by
  rcases hw.result with ⟨q, hq, hret⟩ | ⟨hfl, hnone, hret⟩
  · have hf : Finds r s' va (slot (addr q) (px 0 (vpn va))) :=
      (finds_iff hw.grow.tables hva).mpr ⟨q, hq, rfl⟩
    exact ⟨_, hret, fun h0 => absurd h0 hf.2, fun _ => hf⟩
  · exact ⟨0, hret, fun _ => ⟨hfl, hw.length_le hfl hnone⟩, fun h0 => absurd rfl h0⟩

/-- **`page_walk` moves and disturbs no slot**: for every page table, free list and
    address below `MAXVA`. -/
theorem pageWalk_walked (h : Tables {r} s fl) (hva : va < MAXVA) :
    ∃ pte s' fl', Walked r va s fl pte s' fl' := by
  have hr : r ∈ ({r} : Set Ppn) := Set.mem_singleton r
  obtain ⟨s', fl', hw⟩ := pageWalk_alloc h hr hva
  obtain ⟨pte, hrun, hnull, hfound⟩ := hw.returns hva
  have hT : Tables {r} s' fl' := hw.grow.tables
  refine ⟨pte, s', fl', hrun, hT, hw.grow.popped, ?_, ?_, hw.same r hr, hnull, hfound, ?_⟩
  · intro v q hq
    exact hw.entries r hr _ q (vpath_length 2 v) hq
  · intro va' hva' pte' hf
    exact hw.grow.finds h hva' hf
  · intro va₁ h₁ va₂ h₂ pte₁ pte₂ hf₁ hf₂
    exact hf₁.eq_iff hT h₁ h₂ hf₂

/-- The walk in an empty page table, with two pages free. -/
theorem pageWalk_walked_sample :
    ∃ pte s' fl', Walked 0x80001 0x400000 samplePhys [0x80002, 0x80003] pte s' fl' :=
  pageWalk_walked samplePhys_tables (by decide)

end Pke
