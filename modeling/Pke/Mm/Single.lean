import Pke.Mm.MapPages

/-!
# Mapping and unmapping one page

The kernel maps and unmaps single pages once it is up: `map_pages` with a size
that stays within one page, and `user_vm_unmap`.
-/

namespace Pke

open Lib Radix

variable {R : Set Ppn} {r : Ppn} {s s' : Phys} {fl fl' : List Ppn} {va size pa perm : Word}

/-- In the table `r` the page `v` got the valid entry `w`; tables were added
    as needed. -/
structure MapOne (R : Set Ppn) (r : Ppn) (v : Vpn) (w : Word) (s : Phys) (fl : List Ppn)
    (s' : Phys) (fl' : List Ppn) : Prop where
  grow : Grow R s fl s' fl'
  unmapped : translate s.mem r v = none
  leaf : ∀ r' ∈ R, ∀ v' : Vpn,
    translate s'.mem r' v' = if r' = r ∧ v' = v then some w else translate s.mem r' v'

/-- The translations are as before; tables were added. -/
structure MapNone (R : Set Ppn) (s : Phys) (fl : List Ppn) (s' : Phys) (fl' : List Ppn) :
    Prop where
  grow : Grow R s fl s' fl'
  leaf : ∀ r' ∈ R, ∀ v' : Vpn, translate s'.mem r' v' = translate s.mem r' v'

/-- The range `[va, va + size)` lies in one page. -/
def OnePage (va size : Word) : Prop := size = 1 ∨ (size = PGSIZE ∧ va % PGSIZE = 0)

theorem OnePage.size_pos (h : OnePage va size) : 1 ≤ size.toNat := by
  rcases h with rfl | ⟨rfl, -⟩ <;> decide

theorem OnePage.le (h : OnePage va size) (hva : va.toNat < 2 ^ 38) :
    va.toNat + size.toNat ≤ 2 ^ 38 := by
  rcases h with rfl | ⟨rfl, hal⟩
  · rw [show (1 : Word).toNat = 1 from rfl]
    omega
  · have := toNat_mod_PGSIZE hal
    rw [show PGSIZE.toNat = 4096 from rfl]
    omega

theorem OnePage.pageCount (h : OnePage va size) : pageCount va size = 1 := by
  unfold Pke.pageCount
  rcases h with rfl | ⟨rfl, hal⟩
  · rw [show (1 : Word).toNat = 1 from rfl]
    omega
  · have := toNat_mod_PGSIZE hal
    rw [show PGSIZE.toNat = 4096 from rfl]
    omega

theorem OnePage.last (h : OnePage va size) :
    ROUNDDOWN (va + size - 1) PGSIZE = ROUNDDOWN va PGSIZE := by
  rw [ROUNDDOWN_eq, ROUNDDOWN_eq]
  congr 1
  apply BitVec.eq_of_toNat_eq
  rw [ppn_toNat, ppn_toNat]
  rcases h with rfl | ⟨rfl, hal⟩
  · congr 1
    rw [BitVec.add_sub_cancel]
  · have h0 := toNat_mod_PGSIZE hal
    have h1 := va.isLt
    have hsum : (va + PGSIZE - 1).toNat = va.toNat + 4095 := by
      rw [BitVec.toNat_sub, BitVec.toNat_add, show (1 : Word).toNat = 1 from rfl,
        show PGSIZE.toNat = 4096 from rfl]
      omega
    rw [hsum]
    omega

theorem MapSpec.one {V : ℕ} (hV : V < 2 ^ 26) (h : MapSpec R r V 1 pa perm s fl s' fl') :
    MapOne R r (vpnOf V) (mkPte pa perm) s fl s' fl' := by
  refine ⟨h.grow, h.unmapped 0 Nat.one_pos, fun r' hr' v' => ?_⟩
  rw [h.leaf r' hr' v']
  have hiff : (r' = r ∧ V ≤ v'.toNat ∧ v'.toNat < V + 1) ↔ r' = r ∧ v' = vpnOf V := by
    rw [eq_vpnOf_iff (by omega)]
    constructor <;> rintro ⟨h1, h2⟩ <;> exact ⟨h1, by omega⟩
  by_cases hc : r' = r ∧ v' = vpnOf V
  · have hz : v'.toNat - V = 0 := by
      have := (hiff.mpr hc).2
      omega
    rw [if_pos (hiff.mpr hc), if_pos hc, hz]
    simp [vaddr]
  · rw [if_neg (mt hiff.mp hc), if_neg hc]

theorem MapSpec.zero {V : ℕ} (h : MapSpec R r V 0 pa perm s fl s' fl') : MapNone R s fl s' fl' := by
  refine ⟨h.grow, fun r' hr' v' => ?_⟩
  rw [h.leaf r' hr' v', if_neg (by omega)]

/-- **`map_pages` of one page** maps it, runs out of pages for the tables, or
    panics. -/
theorem mapPages_one (h : Tables R s fl) (hr : r ∈ R) (hone : OnePage va size) :
    Prog.wp (mapPages (addr r) va size pa perm)
      (fun x s' => ∃ fl',
        (x = 0 ∧ va < MAXVA ∧ MapOne R r (vpn va) (mkPte pa perm) s fl s' fl' ∧
          fl.length ≤ fl'.length + 2 ∧ (fl = [] → HasTable s.mem r (vpn va))) ∨
        (x = -1 ∧ va < MAXVA ∧ MapNone R s fl s' fl' ∧ fl.length < 2 ∧ fl' = [] ∧
          ¬ HasTable s.mem r (vpn va)))
      (fun _ => False) (fun _ => ¬ (va < MAXVA ∧ translate s.mem r (vpn va) = none)) s := by
  unfold Prog.wp
  by_cases hva : va < MAXVA
  · have hlt : va.toNat < 2 ^ 38 := toNat_lt_of_lt_MAXVA hva
    have hV : va.toNat / 4096 < 2 ^ 26 := by omega
    have hvpn : vpn va = vpnOf (va.toNat / 4096) := by
      rw [eq_vpnOf_iff (by omega), vpn_toNat (by omega)]
    rcases mapPages_cases h hr hone.size_pos (hone.le hlt) pa perm with
      ⟨s', fl', hret, hmap, hcount, -⟩ | ⟨k, hk, s', hret, hmap, hshort⟩ | ⟨k, hk, hne, hhalt⟩
    · have hneed := tablesNeeded_le s.mem r (va.toNat / 4096) (pageCount va size)
      rw [hret]
      rw [hone.pageCount] at hmap hneed hcount
      refine ⟨fl', Or.inl ⟨rfl, hva, hvpn ▸ hmap.one hV, by omega, fun hnil => ?_⟩⟩
      rw [hnil, List.length_nil] at hcount
      exact hvpn ▸ tablesNeeded_one_eq_zero.mp (by omega)
    · have hneed := tablesNeeded_le s.mem r (va.toNat / 4096) (pageCount va size)
      rw [hret]
      rw [hone.pageCount] at hk hneed hshort
      obtain rfl : k = 0 := by omega
      refine ⟨[], Or.inr ⟨rfl, hva, hmap.zero, by omega, rfl, fun htab => ?_⟩⟩
      rw [hvpn] at htab
      have := tablesNeeded_one_eq_zero.mpr htab
      omega
    · rw [hhalt]
      rw [hone.pageCount] at hk
      obtain rfl : k = 0 := by omega
      exact fun hsome => hne (hvpn ▸ hsome.2)
  · -- the page is out of range: `page_walk` panics
    have hround : MAXVA ≤ ROUNDDOWN va PGSIZE := by
      rw [BitVec.not_lt, BitVec.le_def] at hva
      rw [BitVec.le_def, ROUNDDOWN_eq, addr_toNat, ppn_toNat]
      rw [show MAXVA.toNat = 2 ^ 38 from rfl] at *
      omega
    have hwalk : pageWalk (addr r) (ROUNDDOWN va PGSIZE) true s =
        .halt (.panic "page_walk" []) := by
      rw [pageWalk, if_pos hround]
      rfl
    rw [mapPages, hone.last, mapPagesLoop, if_pos (BitVec.le_refl _), Prog.bind_of_halt hwalk]
    exact fun hsome => hva hsome.1

/-- With two pages for tables, an unmapped page below `MAXVA` gets mapped. -/
theorem mapPages_one_eq (h : Tables R s fl) (hr : r ∈ R) (hone : OnePage va size)
    (hva : va < MAXVA) (hnone : translate s.mem r (vpn va) = none) (hlen : 2 ≤ fl.length)
    (pa perm : Word) : ∃ s' fl', mapPages (addr r) va size pa perm s = .ret 0 s' ∧
      MapOne R r (vpn va) (mkPte pa perm) s fl s' fl' := by
  have hwp : Prog.wp (mapPages (addr r) va size pa perm) _ _ _ s := mapPages_one h hr hone
  obtain ⟨x, s', hrun, fl', ⟨rfl, -, hmap, -⟩ | ⟨-, -, -, hshort, -⟩⟩ :=
    Prog.returns_of_wp hwp fun _ hn => hn ⟨hva, hnone⟩
  · exact ⟨s', fl', hrun, hmap⟩
  · omega

/-- **`user_vm_map` of one page.** -/
theorem userVmMap_one (h : Tables R s fl) (hr : r ∈ R) (hone : OnePage va size) :
    Prog.wp (userVmMap (addr r) va size pa perm)
      (fun _ s' => ∃ fl', va < MAXVA ∧ MapOne R r (vpn va) (mkPte pa perm) s fl s' fl' ∧
        fl.length ≤ fl'.length + 2 ∧ (fl = [] → HasTable s.mem r (vpn va)))
      (fun _ => False)
      (fun e => ¬ (va < MAXVA ∧ translate s.mem r (vpn va) = none ∧
          (2 ≤ fl.length ∨ HasTable s.mem r (vpn va))) ∧
        (va < MAXVA → translate s.mem r (vpn va) = none →
          e = .panic "fail to user_vm_map .\n" [])) s := by
  refine Prog.wp_bind.mpr (Prog.wp_mono (mapPages_one h hr hone) ?_ (fun _ h => h) ?_)
  · rintro x s' ⟨fl', ⟨rfl, hva, hmap, hlen⟩ | ⟨rfl, -, -, hlen, -, htab⟩⟩
    · exact ⟨fl', hva, hmap, hlen⟩
    · exact ⟨fun hs => hs.2.2.elim (by omega) htab, fun _ _ => rfl⟩
  · exact fun _ hn => ⟨fun hs => hn ⟨hs.1, hs.2.1⟩, fun hva hnone => absurd ⟨hva, hnone⟩ hn⟩

/-! ## Writes outside the tables -/

theorem translate_congr {m m' : Mem} (hm : ∀ p ∈ tablePages m R, m' p = m p) (hr : r ∈ R)
    (v : Vpn) : translate m' r v = translate m r v :=
  leafAt_congr hr hm (vpath_length 2 v).le _

/-- Memory that agrees on the tables and the free list. -/
theorem Tables.congr (h : Tables R s fl) (hmem : ∀ p ∈ tablePages s.mem R, s'.mem p = s.mem p)
    (hfree : FreeList s' fl') (hfl : ∀ p ∈ tablePages s.mem R, p ∉ fl') : Tables R s' fl' := by
  have hpages : tablePages s'.mem R = tablePages s.mem R := nodes_congr hmem
  refine ⟨hfree, h.forest.frame hmem, ?_, ?_⟩
  · rw [hpages]
    exact hfl
  · rw [hpages]
    exact h.nonnull

/-! ## `user_vm_unmap` -/

/-- The page `v` of the table `r` is unmapped and its frame `f` is on the free
    list. -/
structure UnmapOne (R : Set Ppn) (r : Ppn) (v : Vpn) (f : Ppn) (s : Phys) (fl : List Ppn)
    (s' : Phys) : Prop where
  tables : Tables R s' (f :: fl)
  pages : tablePages s'.mem R = tablePages s.mem R
  leaf : ∀ r' ∈ R, ∀ v' : Vpn,
    translate s'.mem r' v' = if r' = r ∧ v' = v then none else translate s.mem r' v'
  frame : ∀ p ∉ tablePages s.mem R, p ≠ f → s'.mem p = s.mem p
  start : s'.freeMemStartAddr = s.freeMemStartAddr
  last : s'.freeMemEndAddr = s.freeMemEndAddr
  managed : s.freeMemStartAddr ≤ addr f ∧ addr f < s.freeMemEndAddr
  stale : ∃ q, nodeAt ptePage s'.mem r (vpath 2 v) = some q ∧ ptePpn (s'.mem q (px 0 v)) = f
  nodes : ∀ r' ∈ R, ∀ π : List Idx, π.length ≤ 2 →
    nodeAt ptePage s'.mem r' π = nodeAt ptePage s.mem r' π

theorem xor_PTE_V {w : Word} (h : w &&& PTE_V ≠ 0) : (w ^^^ PTE_V) &&& PTE_V = 0 := by
  have hbit : w &&& 1#64 = 1#64 := by
    rcases Nat.mod_two_eq_zero_or_one w.toNat with h0 | h1
    · exact absurd (BitVec.eq_of_toNat_eq (by simpa [PTE_V, Nat.and_one_is_mod] using h0)) h
    · exact BitVec.eq_of_toNat_eq (by simpa [Nat.and_one_is_mod] using h1)
  rw [show PTE_V = 1#64 from rfl]
  ext i hi
  have hi' := congrArg (fun x : Word => x[i]) hbit
  simp only [BitVec.getElem_and, BitVec.getElem_xor] at hi' ⊢
  grind

/-- Toggling the V bit leaves the frame in the entry. -/
theorem ptePpn_toggled (w : Word) : ptePpn (w ^^^ PTE_V) = ptePpn w := by
  unfold ptePpn
  apply BitVec.eq_of_getLsbD_eq
  intro i hi
  have hbit : PTE_V.getLsbD (10 + i) = false := by
    rw [show PTE_V = 1#64 from rfl, BitVec.getLsbD_one]
    simp
  simp [hbit]

/-- **`user_vm_unmap` of a mapped page** whose frame is no table and not free. -/
theorem userVmUnmap_mapped (h : Tables R s fl) (hr : r ∈ R) {w : Word}
    (hw : translate s.mem r (vpn va) = some w) (htab : ptePpn w ∉ tablePages s.mem R)
    (hfl : ptePpn w ∉ fl) (hstart : s.freeMemStartAddr ≠ 0) (size : Word) (free : Bool) :
    Prog.wp (userVmUnmap (addr r) va size free)
      (fun _ s' => UnmapOne R r (vpn va) (ptePpn w) s fl s') (fun _ => False)
      (fun _ => ¬ (va < MAXVA ∧ va % PGSIZE = 0 ∧ s.freeMemStartAddr ≤ addr (ptePpn w) ∧
        addr (ptePpn w) < s.freeMemEndAddr)) s := by
  obtain ⟨q, hq, hqw, hv⟩ := leafAt_eq_some.mp hw
  have hqtab : q ∈ tablePages s.mem R := mem_nodes hr (vpath_length 2 _).le hq
  have hqf : q ≠ ptePpn w := fun e => htab (e ▸ hqtab)
  unfold Prog.wp
  by_cases hva : va < MAXVA
  · have hread : load (slot (addr q) (px 0 (vpn va))) s = .ret w s := by
      rw [load, Prog.gets_apply, load64_slot, hqw]
    rw [userVmUnmap, Prog.bind_of_ret (pageWalk_lookup hva r s), hq]
    dsimp only
    rw [if_neg (slot_ne_zero (h.nonnull q hqtab) _), Prog.bind_of_ret hread]
    have hoff := offset_lt va
    rcases freePage_cases s (PTE2PA w + (va &&& 0xFFF#64)) with
      hfree | ⟨hal, hlo, hhi, hfree⟩
    · rw [Prog.bind_of_halt hfree]
      rintro ⟨-, hal, hlo, hhi⟩
      have hpa : PTE2PA w + (va &&& 0xFFF#64) = addr (ptePpn w) := by
        rw [and_mask, hal, PTE2PA_eq]
        exact BitVec.add_zero _
      rw [hpa, freePage_of_range hlo hhi] at hfree
      cases hfree
    rw [PTE2PA_eq, ppn_addr_add _ hoff] at hal
    rw [PTE2PA_eq, hal] at hlo hhi hfree
    rw [PTE2PA_eq, hal, Prog.bind_of_ret hfree]
    have h0 : ptePpn w ≠ 0 := by
      intro h0
      rw [h0, BitVec.le_def] at hlo
      exact hstart (BitVec.eq_of_toNat_eq (Nat.le_zero.mp hlo))
    -- the entry was not touched by the link that `free_page` wrote
    let s₁ : Phys := { s with
      mem := store64 s.mem (addr (ptePpn w)) s.gFreeMemList, gFreeMemList := addr (ptePpn w) }
    have hmem : ∀ p, p ≠ ptePpn w → s₁.mem p = s.mem p := fun p hp =>
      store64_of_ne (by rwa [ppn_addr])
    have hmemT : ∀ p ∈ tablePages s.mem R, s₁.mem p = s.mem p := fun p hp =>
      hmem p fun e => htab (e ▸ hp)
    have hread₁ : load (slot (addr q) (px 0 (vpn va))) s₁ = .ret w s₁ := by
      rw [load, Prog.gets_apply, load64_slot, hmem q hqf, hqw]
    have hT : Tables R s₁ (ptePpn w :: fl) := by
      refine h.congr hmemT (h.free.push hfl h0) fun p hp hp' => ?_
      rcases List.mem_cons.mp hp' with rfl | hp'
      · exact htab hp
      · exact h.apart p hp hp'
    have hq₁ : nodeAt ptePage s₁.mem r (vpath 2 (vpn va)) = some q :=
      (nodeAt_congr hr hmemT _ (by simp)).trans hq
    have hgrow := hT.grow_writeLeaf hr hq₁ (w ^^^ PTE_V)
    have hpages₁ : tablePages s₁.mem R = tablePages s.mem R := nodes_congr hmemT
    rw [Prog.bind_of_ret hread₁]
    refine ⟨hgrow.tables, ?_, ?_, ?_, rfl, rfl, ⟨hlo, hhi⟩, ⟨q, ?_, ?_⟩, fun r' hr' π hπ => ?_⟩
    · exact (hT.forest.nodes_write hr hq₁ (vpath_length 2 _)
        fun _ hp => writeLeaf_of_ne hp _).trans hpages₁
    · intro r' hr' v'
      refine (translate_writeLeaf hT.forest hr hq₁ (w ^^^ PTE_V) hr' v').trans ?_
      rw [if_neg (not_not.mpr (xor_PTE_V (ptePage_isSome.mp hv))), translate_congr hmemT hr']
    · intro p hp hpf
      have hpq : p ≠ q := by
        rintro rfl
        exact hp hqtab
      exact (writeLeaf_of_ne (s := s₁) (v := vpn va) hpq _).trans (hmem p hpf)
    · exact hgrow.keep r hr _ q (by simp) hq₁
    · have hself : (writeLeaf s₁ q (vpn va) (w ^^^ PTE_V)).mem q (px 0 (vpn va)) =
          w ^^^ PTE_V := by
        rw [writeLeaf_mem]
        simp
      exact (congrArg ptePpn hself).trans (ptePpn_toggled w)
    · exact (writeLeaf_nodeAt hT.forest hr hq₁ (w ^^^ PTE_V) hr' hπ).trans
        (nodeAt_congr hr' hmemT π (by omega))
  · rw [userVmUnmap, pageWalk, if_pos (BitVec.not_lt.mp hva)]
    exact fun hc => hva hc.1

end Pke
