import Pke.Build.Page
import Pke.Space.Setup

/-!
# An address space under construction

`alloc_process`, `do_fork` and `elf_load` build an address space out of pages they take
off the free list: the tables of its page table, and pages for data. `Built` says so of
the state reached on the way. Nothing is assumed of the rest of memory; what is not on
the free list at the start is never written, and so neither are the page tables and the
frames of anybody else.
-/

namespace Pke

open Lib Radix

/-- From the state `s₀` with free list `fl₀` on, the page table with root `r` and the data
    pages `D` were built from the head of the free list, and no other page was written. -/
structure Built (s₀ : Phys) (fl₀ : List Ppn) (r : Ppn) (D : Set Ppn) (s : Phys)
    (fl : List Ppn) : Prop where
  free : FreeList s₀ fl₀
  tables : Tables {r} s fl
  taken : ∃ new, fl₀ = new ++ fl ∧ ∀ p, p ∈ new ↔ p ∈ tablePages s.mem {r} ∨ p ∈ D
  apart : ∀ p ∈ D, p ∉ tablePages s.mem {r}
  frame : ∀ p, p ∉ fl₀ → s.mem p = s₀.mem p
  bounds : s.freeMemStartAddr = s₀.freeMemStartAddr ∧ s.freeMemEndAddr = s₀.freeMemEndAddr

namespace Built

variable {s₀ s s' : Phys} {fl₀ fl fl' : List Ppn} {r p : Ppn} {D : Set Ppn} {V n : ℕ}
  {pa perm : Word}

theorem mem_list (h : Built s₀ fl₀ r D s fl) (hp : p ∈ D) : p ∈ fl₀ := by
  obtain ⟨new, hfl, hnew⟩ := h.taken
  exact hfl ▸ List.mem_append_left _ ((hnew p).mpr (Or.inr hp))

theorem ne_zero (h : Built s₀ fl₀ r D s fl) (hp : p ∈ D) : p ≠ 0 := h.free.ne_zero (h.mem_list hp)

theorem not_free (h : Built s₀ fl₀ r D s fl) (hp : p ∈ D) : p ∉ fl := by
  obtain ⟨new, hfl, hnew⟩ := h.taken
  have hnodup := h.free.nodup
  rw [hfl] at hnodup
  exact List.disjoint_of_nodup_append hnodup ((hnew p).mpr (Or.inr hp))

theorem mem_of_free (h : Built s₀ fl₀ r D s fl) (hp : p ∈ fl) : p ∈ fl₀ := by
  obtain ⟨new, hfl, -⟩ := h.taken
  exact hfl ▸ List.mem_append_right _ hp

theorem mem_of_table (h : Built s₀ fl₀ r D s fl) (hp : p ∈ tablePages s.mem {r}) : p ∈ fl₀ := by
  obtain ⟨new, hfl, hnew⟩ := h.taken
  exact hfl ▸ List.mem_append_left _ ((hnew p).mpr (Or.inl hp))

/-- A page from the free list becomes a data page. -/
theorem alloc (h : Built s₀ fl₀ r D s (p :: fl)) {g : Word}
    (hg : FreeList { s with gFreeMemList := g } fl) :
    Built s₀ fl₀ r (insert p D) { s with gFreeMemList := g } fl := by
  obtain ⟨new, hfl, hnew⟩ := h.taken
  refine ⟨h.free, ⟨hg, h.tables.forest, fun q hq hm => ?_, h.tables.nonnull⟩,
    ⟨new ++ [p], by simp [hfl], fun q => ?_⟩, ?_, h.frame, h.bounds⟩
  · exact h.tables.apart q hq (List.mem_cons_of_mem _ hm)
  · rw [List.mem_append, hnew, List.mem_singleton, Set.mem_insert_iff]
    tauto
  · rintro q (rfl | hq)
    · exact fun hm => h.tables.apart q hm List.mem_cons_self
    · exact h.apart q hq

/-- Data pages can be written. -/
theorem write (h : Built s₀ fl₀ r D s fl) {m : Mem} (hm : ∀ q, q ∉ D → m q = s.mem q) :
    Built s₀ fl₀ r D { s with mem := m } fl := by
  have htab : ∀ q ∈ tablePages s.mem {r}, m q = s.mem q := fun q hq =>
    hm q fun hD => h.apart q hD hq
  have hpages : tablePages m {r} = tablePages s.mem {r} := nodes_congr htab
  have hfree : FreeList { s with mem := m } fl :=
    h.tables.free.frame rfl fun q hq => hm q fun hD => h.not_free hD hq
  refine ⟨h.free, ⟨hfree, h.tables.forest.frame htab, ?_, ?_⟩, ?_, ?_, fun q hq => ?_, h.bounds⟩
  · exact hpages ▸ h.tables.apart
  · exact hpages ▸ h.tables.nonnull
  · exact hpages ▸ h.taken
  · exact hpages ▸ h.apart
  · exact (hm q fun hD => hq (h.mem_list hD)).trans (h.frame q hq)

theorem translate_write (h : Built s₀ fl₀ r D s fl) {m : Mem} (hm : ∀ q, q ∉ D → m q = s.mem q)
    (v : Vpn) : translate m r v = translate s.mem r v :=
  translate_congr (fun q hq => hm q fun hD => h.apart q hD hq) (Set.mem_singleton r) v

/-- The page table can grow. -/
theorem grow (h : Built s₀ fl₀ r D s fl) (hg : Grow {r} s fl s' fl') :
    Built s₀ fl₀ r D s' fl' ∧ ∀ q ∈ D, s'.mem q = s.mem q := by
  obtain ⟨new, hfl, hnew⟩ := h.taken
  obtain ⟨new', hfl', hpages⟩ := hg.popped
  have hD : ∀ q ∈ D, q ∉ tablePages s'.mem {r} := by
    intro q hq hm
    rw [hpages] at hm
    rcases hm with hm | hm
    · exact h.apart q hq hm
    · exact h.not_free hq (hfl' ▸ List.mem_append_left _ hm)
  refine ⟨⟨h.free, hg.tables, ⟨new ++ new', ?_, fun q => ?_⟩, hD, fun q hq => ?_,
    hg.start.trans h.bounds.1, hg.last.trans h.bounds.2⟩, fun q hq => hg.frame q (hD q hq)⟩
  · rw [hfl, hfl', List.append_assoc]
  · rw [List.mem_append, hnew, hpages, Set.mem_union, Set.mem_ofPred_eq]
    tauto
  · refine (hg.frame q fun hm => ?_).trans (h.frame q hq)
    rw [hpages] at hm
    rcases hm with hm | hm
    · exact hq (hfl ▸ List.mem_append_left _ ((hnew q).mpr (Or.inl hm)))
    · exact hq (h.mem_of_free (hfl' ▸ List.mem_append_left _ hm))

end Built

/-- What `user_vm_map` of `PGSIZE` bytes at `va` does to an address space under
    construction. -/
structure BuiltMap (s₀ : Phys) (fl₀ : List Ppn) (r : Ppn) (D : Set Ppn) (va pa perm : Word)
    (s : Phys) (fl : List Ppn) (s' : Phys) (fl' : List Ppn) : Prop where
  built : Built s₀ fl₀ r D s' fl'
  map : MapSpec {r} r (va.toNat / 4096) (mapCount va) pa perm s fl s' fl'
  low : mapCount va = 0 ∨ va.toNat + 4096 ≤ 2 ^ 38
  data : ∀ q ∈ D, s'.mem q = s.mem q
  length : fl.length = tablesNeeded s.mem r (va.toNat / 4096) (mapCount va) + fl'.length
  count : ∀ Q : Finset (List Idx), (∀ π ∈ Q, π.length ≤ 2) →
    tablePaths (va.toNat / 4096) (mapCount va) ⊆ Q →
    missing ptePage s.mem r Q + fl'.length = missing ptePage s'.mem r Q + fl.length

namespace Built

variable {s₀ s s' : Phys} {fl₀ fl fl' : List Ppn} {r p : Ppn} {D : Set Ppn} {va pa perm : Word}

theorem map (h : Built s₀ fl₀ r D s fl) :
    Prog.wp (userVmMap (addr r) va PGSIZE pa perm)
      (fun _ s' => ∃ fl', BuiltMap s₀ fl₀ r D va pa perm s fl s' fl') (fun _ => False)
      (fun _ => ¬ (va.toNat + 4096 ≤ 2 ^ 38 ∧
        (∀ k < mapCount va, translate s.mem r (vpnOf (va.toNat / 4096 + k)) = none) ∧
        tablesNeeded s.mem r (va.toNat / 4096) (mapCount va) ≤ fl.length)) s := by
  refine Prog.wp_mono (userVmMap_page h.tables (Set.mem_singleton r)) ?_ (fun _ h => h) fun _ h => h
  rintro _ s' ⟨fl', hmap, hlow, hlen, hcount⟩
  obtain ⟨hbuilt, hdata⟩ := h.grow hmap.grow
  exact ⟨fl', hbuilt, hmap, hlow, hdata, hlen, hcount⟩

/-- Page tables whose tables were not free translate as before. -/
theorem translate_off (h : Built s₀ fl₀ r D s fl) {r' : Ppn}
    (hr' : ∀ q ∈ tablePages s₀.mem {r'}, q ∉ fl₀) (v : Vpn) :
    translate s.mem r' v = translate s₀.mem r' v :=
  translate_congr (fun q hq => h.frame q (hr' q hq)) (Set.mem_singleton r') v

theorem tables_off (h : Built s₀ fl₀ r D s fl) {r' : Ppn} (hr' : Tables {r'} s₀ fl₀) :
    Tables {r'} s fl :=
  hr'.congr (fun q hq => h.frame q (hr'.apart q hq)) h.tables.free fun q hq hm =>
    hr'.apart q hq (h.mem_of_free hm)

/-- Lookups in such page tables are as before. -/
theorem lookupPa_off (h : Built s₀ fl₀ r D s fl) {r' : Ppn} (hr' : Tables {r'} s₀ fl₀) (va : Word) :
    lookupPa (addr r') va s = .ret (lookupAnswer s₀.mem r' va) s := by
  rw [lookupPa_eq (h.tables_off hr') rfl, lookupAnswer, lookupAnswer, absTable, absTable,
    h.translate_off hr'.apart]

end Built

/-- No page that was mapped is unmapped or mapped elsewhere. -/
def KeepsLeaves (r : Ppn) (m m' : Mem) : Prop :=
  ∀ v e, translate m r v = some e → translate m' r v = some e

theorem KeepsLeaves.refl (r : Ppn) (m : Mem) : KeepsLeaves r m m := fun _ _ h => h

theorem KeepsLeaves.trans {r : Ppn} {m m' m'' : Mem} (h : KeepsLeaves r m m')
    (h' : KeepsLeaves r m' m'') : KeepsLeaves r m m'' := fun v e he => h' v e (h v e he)

theorem Built.keepsLeaves_write {s₀ s : Phys} {fl₀ fl : List Ppn} {r : Ppn} {D : Set Ppn}
    (h : Built s₀ fl₀ r D s fl) {m : Mem} (hm : ∀ q, q ∉ D → m q = s.mem q) :
    KeepsLeaves r s.mem m := fun v _ he => (h.translate_write hm v).trans he

theorem BuiltMap.keepsLeaves {s₀ s s' : Phys} {fl₀ fl fl' : List Ppn} {r : Ppn} {D : Set Ppn}
    {va pa perm : Word} (h : BuiltMap s₀ fl₀ r D va pa perm s fl s' fl') :
    KeepsLeaves r s.mem s'.mem := by
  intro v e he
  rw [h.map.leaf r rfl, if_neg, he]
  rintro ⟨-, hlo, hhi⟩
  -- the pages that are mapped had no entry
  have hnone := h.map.unmapped (v.toNat - va.toNat / 4096) (by omega)
  have hv : vpnOf (va.toNat / 4096 + (v.toNat - va.toNat / 4096)) = v := by
    symm
    have := v.isLt
    rw [eq_vpnOf_iff (by omega)]
    omega
  rw [hv, he] at hnone
  cases hnone

/-! ## Tables that are in use -/

theorem missing_insert {m : Mem} {pt : Ppn} {Q : Finset (List Idx)} {π : List Idx} (hπ : π ∉ Q) :
    missing ptePage m pt (insert π Q) =
      missing ptePage m pt Q + if nodeAt ptePage m pt π = none then 1 else 0 := by
  unfold missing
  rw [Finset.filter_insert]
  simp only [Option.isNone_iff_eq_none]
  split_ifs
  · rw [Finset.card_insert_of_notMem fun hmem => hπ (Finset.mem_filter.mp hmem).1]
  · rfl

theorem nodeAt_of_leaf {m : Mem} {pt : Ppn} {v : Vpn} (h : translate m pt v ≠ none) {π : List Idx}
    (hπ : π <+: vpath 2 v) : nodeAt ptePage m pt π ≠ none := by
  intro hnone
  obtain ⟨ρ, hρ⟩ := hπ
  refine h ?_
  have hpath : nodeAt ptePage m pt (vpath 2 v) = none := by
    rw [← hρ, nodeAt_append, hnone]
    rfl
  rw [translate, leafAt, hpath]
  rfl

/-- Every table but the root is on the way to a page that is mapped. -/
def NoSpareTables (m : Mem) (r : Ppn) : Prop :=
  ∀ π : List Idx, π.length ≤ 2 → π ≠ [] → nodeAt ptePage m r π ≠ none →
    ∃ v, translate m r v ≠ none ∧ π <+: vpath 2 v

/-- A table off the way to the pages of a mapping is there exactly if it was there before. -/
theorem nodeAt_of_count {m m' : Mem} {r : Ppn} {V n k k' : ℕ}
    (hcount : ∀ Q : Finset (List Idx), (∀ π ∈ Q, π.length ≤ 2) → tablePaths V n ⊆ Q →
      missing ptePage m r Q + k' = missing ptePage m' r Q + k)
    {π : List Idx} (hπ : π.length ≤ 2) (hout : π ∉ tablePaths V n) :
    nodeAt ptePage m' r π = none ↔ nodeAt ptePage m r π = none := by
  have h1 := hcount _ (fun π => tablePaths_length) subset_rfl
  have h2 := hcount (insert π (tablePaths V n)) (fun ρ hρ => by
    rcases Finset.mem_insert.mp hρ with rfl | hρ
    · exact hπ
    · exact tablePaths_length hρ) (Finset.subset_insert _ _)
  rw [missing_insert hout, missing_insert hout] at h2
  split_ifs at h2 with ha hb hb
  · exact iff_of_true hb ha
  · omega
  · omega
  · exact iff_of_false hb ha

theorem BuiltMap.mapped {s₀ s s' : Phys} {fl₀ fl fl' : List Ppn} {r : Ppn} {D : Set Ppn}
    {va pa perm : Word} (h : BuiltMap s₀ fl₀ r D va pa perm s fl s' fl') {k : ℕ}
    (hk : k < mapCount va) :
    translate s'.mem r (vpnOf (va.toNat / 4096 + k)) = some (mkPte (pa + vaddr k) perm) := by
  have hlow := h.low.resolve_left (by omega)
  have hcount := mapCount_le va
  rw [h.map.leaf r rfl, if_pos, vpnOf_toNat (by omega)]
  · rw [show va.toNat / 4096 + k - va.toNat / 4096 = k by omega]
  · rw [vpnOf_toNat (by omega)]
    exact ⟨rfl, by omega, by omega⟩

theorem BuiltMap.noSpareTables {s₀ s s' : Phys} {fl₀ fl fl' : List Ppn} {r : Ppn} {D : Set Ppn}
    {va pa perm : Word} (h : BuiltMap s₀ fl₀ r D va pa perm s fl s' fl')
    (hs : NoSpareTables s.mem r) : NoSpareTables s'.mem r := by
  intro π hπ hne hnode
  by_cases hin : π ∈ tablePaths (va.toNat / 4096) (mapCount va)
  · obtain ⟨k, hk, hpre⟩ := mem_tablePaths.mp hin
    exact ⟨_, by rw [h.mapped hk]; exact Option.some_ne_none _, hpre⟩
  · obtain ⟨v, hv, hpre⟩ := hs π hπ hne (mt (nodeAt_of_count h.count hπ hin).mpr hnode)
    obtain ⟨e, he⟩ := Option.ne_none_iff_exists'.mp hv
    exact ⟨v, by rw [h.keepsLeaves v e he]; exact Option.some_ne_none _, hpre⟩

theorem Built.noSpareTables_write {s₀ s : Phys} {fl₀ fl : List Ppn} {r : Ppn} {D : Set Ppn}
    (h : Built s₀ fl₀ r D s fl) {m : Mem} (hm : ∀ q, q ∉ D → m q = s.mem q)
    (hs : NoSpareTables s.mem r) : NoSpareTables m r := by
  intro π hπ hne hnode
  rw [nodeAt_congr (Set.mem_singleton r) (fun q hq => hm q fun hD => h.apart q hD hq) π
    (by omega)] at hnode
  obtain ⟨v, hv, hpre⟩ := hs π hπ hne hnode
  exact ⟨v, by rwa [h.translate_write hm], hpre⟩

/-! ## Aligned pages -/

/-- Mapping an aligned page. -/
theorem BuiltMap.one {s₀ s s' : Phys} {fl₀ fl fl' : List Ppn} {r : Ppn} {D : Set Ppn}
    {va pa perm : Word} (h : BuiltMap s₀ fl₀ r D va pa perm s fl s' fl') (hva : va % PGSIZE = 0) :
    va < MAXVA ∧ MapOne {r} r (vpn va) (mkPte pa perm) s fl s' fl' := by
  have hcount := mapCount_of_aligned hva
  have hmap := h.map
  have hlow := h.low.resolve_left (by omega)
  rw [hcount] at hmap
  have hvpn : vpn va = vpnOf (va.toNat / 4096) := by
    rw [eq_vpnOf_iff (by omega), vpn_toNat (by omega)]
  exact ⟨lt_MAXVA (by omega), hvpn ▸ hmap.one (by omega)⟩

/-- When the table of the last level is the only one that is missing, it is the page at the
    head of the free list. -/
theorem BuiltMap.last_table {s₀ s s' : Phys} {fl₀ fl fl' : List Ppn} {r : Ppn} {D : Set Ppn}
    {va pa perm : Word} (h : BuiltMap s₀ fl₀ r D va pa perm s fl s' fl') (hva : va % PGSIZE = 0)
    (hnone : nodeAt ptePage s.mem r (vpath 2 (vpn va)) = none)
    (hneed : tablesNeeded s.mem r (va.toNat / 4096) 1 ≤ 1) :
    ∃ q, fl = q :: fl' ∧ nodeAt ptePage s'.mem r (vpath 2 (vpn va)) = some q := by
  obtain ⟨-, hone⟩ := h.one hva
  obtain ⟨new, hfl, hpages⟩ := hone.grow.popped
  have hlen := h.length
  rw [mapCount_of_aligned hva, hfl, List.length_append] at hlen
  have hleaf := hone.leaf r rfl (vpn va)
  rw [if_pos ⟨rfl, rfl⟩] at hleaf
  obtain ⟨q, hq, -⟩ := leafAt_eq_some.mp hleaf
  -- the table was not there before, so it is one of the pages taken
  have hq' : q ∈ tablePages s'.mem {r} := mem_nodes rfl (vpath_length 2 _).le hq
  rw [hpages] at hq'
  rcases hq' with ⟨r', hr', π, hπ, hold⟩ | hnew
  · rw [Set.mem_singleton_iff.mp hr'] at hold
    have hkeep := hone.grow.keep r rfl π q hπ hold
    have hsame := hone.grow.tables.forest r rfl r rfl _ _ q hπ (vpath_length 2 _).le hkeep hq
    rw [hsame.2, hnone] at hold
    cases hold
  · obtain ⟨p, rfl⟩ : ∃ p, new = [p] := by
      refine List.length_eq_one_iff.mp ?_
      have := List.length_pos_of_mem hnew
      omega
    obtain rfl := List.mem_singleton.mp hnew
    exact ⟨q, hfl, hq⟩

/-- `user_vm_map` of an aligned page. -/
theorem Built.map_aligned {s₀ s : Phys} {fl₀ fl : List Ppn} {r : Ppn} {D : Set Ppn}
    {va pa perm : Word} (h : Built s₀ fl₀ r D s fl) (hva : va % PGSIZE = 0) :
    Prog.wp (userVmMap (addr r) va PGSIZE pa perm)
      (fun _ s' => ∃ fl', BuiltMap s₀ fl₀ r D va pa perm s fl s' fl') (fun _ => False)
      (fun _ => ¬ (va < MAXVA ∧ translate s.mem r (vpn va) = none ∧
        tablesNeeded s.mem r (va.toNat / 4096) 1 ≤ fl.length)) s := by
  refine Prog.wp_mono h.map (fun _ _ h => h) (fun _ h => h) fun _ hn hok => hn ?_
  have hlt := toNat_lt_of_lt_MAXVA hok.1
  have hal := toNat_mod_PGSIZE hva
  have hvpn : vpn va = vpnOf (va.toNat / 4096) := by
    rw [eq_vpnOf_iff (by omega), vpn_toNat (by omega)]
  rw [mapCount_of_aligned hva]
  refine ⟨by omega, fun k hk => ?_, hok.2.2⟩
  obtain rfl : k = 0 := by omega
  rw [Nat.add_zero, ← hvpn]
  exact hok.2.1

/-! ## A page for an address -/

/-- The page `p` was taken and mapped at `va`. -/
structure PageBuilt (s₀ : Phys) (fl₀ : List Ppn) (r : Ppn) (D : Set Ppn) (va perm : Word)
    (s : Phys) (fl : List Ppn) (p : Ppn) (s' : Phys) (fl' : List Ppn) : Prop where
  list : ∃ fl₁, fl = p :: fl₁ ∧ ∀ Q : Finset (List Idx), (∀ π ∈ Q, π.length ≤ 2) →
    tablePaths (va.toNat / 4096) (mapCount va) ⊆ Q →
    missing ptePage s.mem r Q + fl'.length = missing ptePage s'.mem r Q + fl₁.length
  built : Built s₀ fl₀ r (insert p D) s' fl'
  low : mapCount va = 0 ∨ va.toNat + 4096 ≤ 2 ^ 38
  unmapped : ∀ k < mapCount va, translate s.mem r (vpnOf (va.toNat / 4096 + k)) = none
  leaf : ∀ v : Vpn, translate s'.mem r v =
    if va.toNat / 4096 ≤ v.toNat ∧ v.toNat < va.toNat / 4096 + mapCount va then
      some (mkPte (addr p + vaddr (v.toNat - va.toNat / 4096)) perm)
    else translate s.mem r v
  data : ∀ q ∈ D, s'.mem q = s.mem q
  nodes : ∀ (π : List Idx) (q : Ppn), π.length ≤ 2 → nodeAt ptePage s.mem r π = some q →
    nodeAt ptePage s'.mem r π = some q

section PageBuilt

variable {s₀ s s' : Phys} {fl₀ fl fl₁ fl' : List Ppn} {r p : Ppn} {D : Set Ppn} {va perm : Word}

/-- A page is taken and written, then it is mapped. -/
theorem Built.pageBuilt (hb : Built s₀ fl₀ r D s (p :: fl₁)) {g : Word}
    (hfree : FreeList { s with gFreeMemList := g } fl₁) {m : Mem}
    (hm : ∀ q, q ≠ p → m q = s.mem q) :
    Prog.wp (userVmMap (addr r) va PGSIZE (addr p) perm)
      (fun _ s' => s'.mem p = m p ∧ ∃ fl', PageBuilt s₀ fl₀ r D va perm s (p :: fl₁) p s' fl')
      (fun _ => False)
      (fun _ => ¬ (va.toNat + 4096 ≤ 2 ^ 38 ∧
        (∀ k < mapCount va, translate s.mem r (vpnOf (va.toNat / 4096 + k)) = none) ∧
        tablesNeeded s.mem r (va.toNat / 4096) (mapCount va) ≤ fl₁.length))
      { s with gFreeMemList := g, mem := m } := by
  have hb₁ := hb.alloc hfree
  have hpD : p ∉ D := fun hD => hb.not_free hD List.mem_cons_self
  have hout : ∀ q, q ∉ insert p D → m q = s.mem q := fun q hq =>
    hm q fun e => hq (e ▸ Set.mem_insert _ _)
  have hsame : ∀ v, translate m r v = translate s.mem r v := fun v => hb₁.translate_write hout v
  have hnode : ∀ π : List Idx, π.length ≤ 2 → nodeAt ptePage m r π = nodeAt ptePage s.mem r π :=
    fun π hπ => nodeAt_congr (Set.mem_singleton r)
      (fun q hq => hm q fun e => hb.tables.apart q hq (e ▸ List.mem_cons_self)) π
      (hπ.trans (by omega))
  have hnodes : ∀ Q : Finset (List Idx), (∀ π ∈ Q, π.length ≤ 2) →
      missing ptePage m r Q = missing ptePage s.mem r Q := fun Q hQ =>
    missing_congr fun π hπ => hnode π (hQ π hπ)
  refine Prog.wp_mono (hb₁.write hout).map ?_ (fun _ h => h) fun _ hn hfit =>
    hn ⟨hfit.1, fun k hk => ?_, ?_⟩
  rotate_left
  · rw [hsame]
    exact hfit.2.1 k hk
  · unfold tablesNeeded at hfit ⊢
    rw [hnodes _ fun π => tablePaths_length]
    exact hfit.2.2
  rintro _ s' ⟨fl', hmap⟩
  refine ⟨hmap.data p (Set.mem_insert _ _), fl', ⟨fl₁, rfl, fun Q hQ hsub => ?_⟩, hmap.built,
    hmap.low, fun k hk => ?_, fun v => ?_, fun q hq => ?_, fun π q hπ hq => ?_⟩
  · rw [← hnodes Q hQ]
    exact hmap.count Q hQ hsub
  · rw [← hsame]
    exact hmap.map.unmapped k hk
  · rw [hmap.map.leaf r rfl, ← hsame v]
    simp only [true_and]
  · rw [hmap.data q (Set.mem_insert_of_mem _ hq)]
    exact hm q fun e => hpD (e ▸ hq)
  · exact hmap.map.grow.keep r rfl π q hπ ((hnode π hπ).trans hq)

/-- Only the page itself is written afterwards. -/
theorem PageBuilt.write (hp : PageBuilt s₀ fl₀ r D va perm s fl p s' fl') (hD : p ∉ D) {m : Mem}
    (hm : ∀ q, q ≠ p → m q = s'.mem q) :
    PageBuilt s₀ fl₀ r D va perm s fl p { s' with mem := m } fl' := by
  have hout : ∀ q, q ∉ insert p D → m q = s'.mem q := fun q hq =>
    hm q fun e => hq (e ▸ Set.mem_insert _ _)
  have htab : ∀ q ∈ tablePages s'.mem {r}, m q = s'.mem q := fun q hq =>
    hm q fun e => hp.built.apart p (Set.mem_insert _ _) (e ▸ hq)
  obtain ⟨fl₁, hfl, hcount⟩ := hp.list
  refine ⟨⟨fl₁, hfl, fun Q hQ hsub => ?_⟩, hp.built.write hout, hp.low, hp.unmapped, fun v => ?_,
    fun q hq => ?_, fun π q hπ hq => ?_⟩
  · rw [missing_congr fun π hπ => nodeAt_congr (Set.mem_singleton r) htab π
      ((hQ π hπ).trans (by omega))]
    exact hcount Q hQ hsub
  · rw [hp.built.translate_write hout]
    exact hp.leaf v
  · exact (hm q fun e => hD (e ▸ hq)).trans (hp.data q hq)
  · exact (nodeAt_congr (Set.mem_singleton r) htab π (hπ.trans (by omega))).trans
      (hp.nodes π q hπ hq)

theorem PageBuilt.mapped (hp : PageBuilt s₀ fl₀ r D va perm s fl p s' fl') {k : ℕ}
    (hk : k < mapCount va) :
    translate s'.mem r (vpnOf (va.toNat / 4096 + k)) = some (mkPte (addr p + vaddr k) perm) := by
  have hlow := hp.low.resolve_left (by omega)
  have hcount := mapCount_le va
  rw [hp.leaf, if_pos, vpnOf_toNat (by omega)]
  · rw [show va.toNat / 4096 + k - va.toNat / 4096 = k by omega]
  · rw [vpnOf_toNat (by omega)]
    omega

theorem PageBuilt.missing_eq_zero (hp : PageBuilt s₀ fl₀ r D va perm s fl p s' fl') :
    missing ptePage s'.mem r (tablePaths (va.toNat / 4096) (mapCount va)) = 0 := by
  unfold missing
  rw [Finset.card_eq_zero, Finset.filter_eq_empty_iff]
  intro π hπ hnone
  obtain ⟨k, hk, hpre⟩ := mem_tablePaths.mp hπ
  refine nodeAt_of_leaf ?_ hpre (Option.isNone_iff_eq_none.mp hnone)
  rw [hp.mapped hk]
  exact Option.some_ne_none _

/-- The tables come off the free list behind the page. -/
theorem PageBuilt.suffix (hp : PageBuilt s₀ fl₀ r D va perm s fl p s' fl')
    (hb : Built s₀ fl₀ r D s fl) : ∃ fl₁, fl = p :: fl₁ ∧ fl' <:+ fl₁ := by
  obtain ⟨fl₁, rfl, hcount⟩ := hp.list
  obtain ⟨new, hnew, -⟩ := hb.taken
  obtain ⟨new', hnew', -⟩ := hp.built.taken
  have hsuf : fl₁ <:+ fl₀ := ⟨new ++ [p], by rw [hnew]; simp⟩
  have h1 := hcount _ (fun π => tablePaths_length) subset_rfl
  rw [hp.missing_eq_zero] at h1
  exact ⟨fl₁, rfl, List.suffix_of_suffix_length_le ⟨new', hnew'.symm⟩ hsuf (by omega)⟩

theorem PageBuilt.leaf_iff (hp : PageBuilt s₀ fl₀ r D va perm s fl p s' fl') (v : Vpn) (e : Word) :
    translate s'.mem r v = some e ↔ translate s.mem r v = some e ∨
      ∃ k < mapCount va, v = vpnOf (va.toNat / 4096 + k) ∧ e = mkPte (addr p + vaddr k) perm := by
  constructor
  · intro he
    rw [hp.leaf] at he
    split_ifs at he with hin
    · refine Or.inr ⟨v.toNat - va.toNat / 4096, by omega, ?_, (Option.some.inj he).symm⟩
      have := v.isLt
      rw [eq_vpnOf_iff (by omega)]
      omega
    · exact Or.inl he
  · rintro (he | ⟨k, hk, rfl, rfl⟩)
    · rw [hp.leaf, if_neg, he]
      rintro ⟨hlo, hhi⟩
      have hnone := hp.unmapped (v.toNat - va.toNat / 4096) (by omega)
      have hv : vpnOf (va.toNat / 4096 + (v.toNat - va.toNat / 4096)) = v := by
        symm
        have := v.isLt
        rw [eq_vpnOf_iff (by omega)]
        omega
      rw [hv, he] at hnone
      cases hnone
    · exact hp.mapped hk

theorem PageBuilt.keepsLeaves (hp : PageBuilt s₀ fl₀ r D va perm s fl p s' fl') :
    KeepsLeaves r s.mem s'.mem := fun v e he => (hp.leaf_iff v e).mpr (Or.inl he)

end PageBuilt

end Pke
