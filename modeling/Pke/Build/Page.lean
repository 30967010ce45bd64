import Pke.Mm.Single
import Pke.Sched.Quiet

/-!
# Mapping `PGSIZE` bytes at any address

`alloc_process`, `do_fork` and `elf_alloc_mb` call `user_vm_map` with `PGSIZE` for the
size. At the address of a page this maps the page, and at any other address it maps two
pages, the second to the frame behind the one given; in the last page of the address
space `va + size - 1` wraps around and nothing is mapped.
-/

namespace Pke

open Lib Radix

variable {R : Set Ppn} {r : Ppn} {s s' : Phys} {fl fl' : List Ppn} {va pa perm : Word}

/-! ## Permissions -/

/-- The permission bits of an entry. -/
def PTE_RWXU : Word := PTE_R ||| PTE_W ||| PTE_X ||| PTE_U

/-- The entry `e` maps the frame `p` with the permissions `perms` and no others. -/
def Grants (e : Word) (p : Ppn) (perms : Word) : Prop := ptePpn e = p ∧ e &&& PTE_RWXU = perms

theorem grants_mkPte (pa : Word) (prot user : BitVec 32) :
    Grants (mkPte pa (protToType prot user)) (ppn pa) (protToType prot user &&& PTE_RWXU) := by
  refine ⟨ptePpn_mkPte pa (protToType_flags _ _), ?_⟩
  rw [mkPte_and_flag _ _ (by decide)]
  apply BitVec.eq_of_getLsbD_eq
  intro k hk
  have hdisj : (PTE_V &&& PTE_RWXU).getLsbD k = false := by
    rw [show PTE_V &&& PTE_RWXU = 0 by decide]
    exact BitVec.getLsbD_zero
  simp only [BitVec.getLsbD_and, BitVec.getLsbD_or] at hdisj ⊢
  grind

/-! ## `PGSIZE` bytes at any address -/

/-- The number of pages that `user_vm_map` maps for `PGSIZE` bytes at `va`. -/
def mapCount (va : Word) : ℕ :=
  if va.toNat % 4096 = 0 then 1 else if va.toNat + 4096 ≤ 2 ^ 64 then 2 else 0

theorem mapCount_eq_pageCount (hva : va.toNat + 4096 ≤ 2 ^ 64) :
    mapCount va = pageCount va PGSIZE := by
  unfold mapCount pageCount
  rw [show PGSIZE.toNat = 4096 from rfl]
  split_ifs
  · omega
  · omega

theorem mapCount_le (va : Word) : mapCount va ≤ 2 := by
  unfold mapCount
  split_ifs <;> omega

theorem mapCount_of_aligned (hva : va % PGSIZE = 0) : mapCount va = 1 :=
  if_pos (toNat_mod_PGSIZE hva)

theorem last_toNat (hva : va.toNat + 4096 ≤ 2 ^ 64) :
    (ROUNDDOWN (va + PGSIZE - 1) PGSIZE).toNat = (va.toNat + 4095) / 4096 * 4096 := by
  rw [ROUNDDOWN_eq, addr_toNat, ppn_toNat, BitVec.toNat_sub, BitVec.toNat_add,
    show PGSIZE.toNat = 4096 from rfl, show (1 : Word).toNat = 1 from rfl]
  omega

theorem first_toNat (va : Word) : (ROUNDDOWN va PGSIZE).toNat = va.toNat / 4096 * 4096 := by
  rw [ROUNDDOWN_eq, addr_toNat, ppn_toNat]

/-- A page needs one table at most when the table of the second level is there. -/
theorem tablesNeeded_le_one {m : Mem} {V : ℕ} (h : nodeAt ptePage m r [px 2 (vpnOf V)] ≠ none) :
    tablesNeeded m r V 1 ≤ 1 := by
  rw [tablesNeeded, missing, Finset.card_le_one_iff_subset_singleton]
  refine ⟨vpath 2 (vpnOf V), fun π hπ => ?_⟩
  obtain ⟨hmem, hnone⟩ := Finset.mem_filter.mp hπ
  obtain ⟨k, hk, hpre⟩ := mem_tablePaths.mp hmem
  obtain rfl : k = 0 := by omega
  have hmem' := (List.mem_inits _ _).mpr hpre
  simp only [Nat.add_zero, vpath, List.inits, List.map_cons, List.map_nil, List.mem_cons,
    List.not_mem_nil, or_false] at hmem'
  rcases hmem' with rfl | rfl | rfl
  · simp at hnone
  · exact absurd (Option.isNone_iff_eq_none.mp hnone) h
  · exact Finset.mem_singleton_self _

/-- A mapped page has its table of the second level. -/
theorem second_of_translate {m : Mem} {v : Vpn} (h : translate m r v ≠ none) :
    nodeAt ptePage m r [px 2 v] ≠ none := by
  intro hnone
  refine h ?_
  have hpath : nodeAt ptePage m r (vpath 2 v) = none := by
    rw [show vpath 2 v = [px 2 v] ++ [px 1 v] from rfl, nodeAt_append, hnone]
    rfl
  rw [translate, leafAt, hpath]
  rfl

/-- A round of `map_pages` that does not fail is below `MAXVA`. -/
theorem mapPagesLoop_round {pageDir last : Word} {fuel : ℕ} {first : Word}
    (h : mapPagesLoop pageDir last perm fuel first pa s = .ret 0 s') (hle : first ≤ last) :
    first < MAXVA ∧ ∃ fuel' pa' s₁,
      mapPagesLoop pageDir last perm fuel' (first + PGSIZE) pa' s₁ = .ret 0 s' := by
  cases fuel with
  | zero => cases h
  | succ fuel =>
    rw [mapPagesLoop, if_pos hle] at h
    obtain ⟨pte, s₁, hwalk, h⟩ := Prog.bind_eq_ret.mp h
    constructor
    · by_contra hmax
      rw [pageWalk, if_pos (BitVec.not_lt.mp hmax)] at hwalk
      cases hwalk
    · split_ifs at h with hpte
      · cases h
      · obtain ⟨w, s₂, -, h⟩ := Prog.bind_eq_ret.mp h
        split_ifs at h with hv
        · cases h
        · obtain ⟨⟨⟩, s₃, -, h⟩ := Prog.bind_eq_ret.mp h
          exact ⟨fuel, pa + PGSIZE, s₃, h⟩

/-- All of the range is below `MAXVA`. -/
theorem mapPages_below (h : mapPages (addr r) va PGSIZE pa perm s = .ret 0 s')
    (hva : va.toNat + 4096 ≤ 2 ^ 64) : va.toNat + 4096 ≤ 2 ^ 38 := by
  have hfirst := first_toNat va
  have hlast := last_toNat hva
  have hmax : MAXVA.toNat = 2 ^ 38 := rfl
  unfold mapPages at h
  obtain ⟨hlt, fuel, pa', s₁, h₁⟩ := mapPagesLoop_round h (by rw [BitVec.le_def]; omega)
  rw [BitVec.lt_def] at hlt
  by_cases hal : va.toNat % 4096 = 0
  · omega
  · have hnext : (ROUNDDOWN va PGSIZE + PGSIZE).toNat = va.toNat / 4096 * 4096 + 4096 := by
      rw [BitVec.toNat_add, hfirst, show PGSIZE.toNat = 4096 from rfl]
      omega
    obtain ⟨hlt', -⟩ := mapPagesLoop_round h₁ (by rw [BitVec.le_def]; omega)
    rw [BitVec.lt_def] at hlt'
    omega

/-- In the last page of the address space nothing is mapped. -/
theorem mapPages_wraps (hva : 2 ^ 64 < va.toNat + 4096) :
    mapPages (addr r) va PGSIZE pa perm s = .ret 0 s := by
  have hlt := va.isLt
  have hlast : (ROUNDDOWN (va + PGSIZE - 1) PGSIZE).toNat = 0 := by
    rw [ROUNDDOWN_eq, addr_toNat, ppn_toNat, BitVec.toNat_sub, BitVec.toNat_add,
      show PGSIZE.toNat = 4096 from rfl, show (1 : Word).toNat = 1 from rfl]
    omega
  have hnot : ¬ ROUNDDOWN va PGSIZE ≤ ROUNDDOWN (va + PGSIZE - 1) PGSIZE := by
    rw [BitVec.le_def, first_toNat]
    omega
  rw [mapPages, mapPagesLoop, if_neg hnot]
  rfl

/-- **`user_vm_map` of `PGSIZE` bytes** at any address. -/
theorem userVmMap_page (h : Tables R s fl) (hr : r ∈ R) :
    Prog.wp (userVmMap (addr r) va PGSIZE pa perm)
      (fun _ s' => ∃ fl', MapSpec R r (va.toNat / 4096) (mapCount va) pa perm s fl s' fl' ∧
        (mapCount va = 0 ∨ va.toNat + 4096 ≤ 2 ^ 38) ∧
        fl.length = tablesNeeded s.mem r (va.toNat / 4096) (mapCount va) + fl'.length ∧
        ∀ Q : Finset (List Idx), (∀ π ∈ Q, π.length ≤ 2) →
          tablePaths (va.toNat / 4096) (mapCount va) ⊆ Q →
          missing ptePage s.mem r Q + fl'.length = missing ptePage s'.mem r Q + fl.length)
      (fun _ => False)
      (fun _ => ¬ (va.toNat + 4096 ≤ 2 ^ 38 ∧
        (∀ k < mapCount va, translate s.mem r (vpnOf (va.toNat / 4096 + k)) = none) ∧
        tablesNeeded s.mem r (va.toNat / 4096) (mapCount va) ≤ fl.length)) s := by
  have hzero : tablesNeeded s.mem r (va.toNat / 4096) 0 = 0 := by
    simp [tablesNeeded, tablePaths, missing]
  rcases Nat.lt_or_ge (2 ^ 64) (va.toNat + 4096) with hwrap | hva
  · have hcount : mapCount va = 0 := by
      have hlt := va.isLt
      rw [mapCount, if_neg (by omega), if_neg (by omega)]
    have hret : userVmMap (addr r) va PGSIZE pa perm s = .ret () s := by
      rw [userVmMap, Prog.bind_of_ret (mapPages_wraps hwrap)]
      rfl
    rw [Prog.wp_of_ret hret, hcount, hzero]
    exact ⟨fl, MapSpec.refl h _ pa, Or.inl rfl, by omega, fun _ _ _ => rfl⟩
  rw [mapCount_eq_pageCount hva]
  unfold Prog.wp userVmMap
  by_cases hlow : va.toNat + 4096 ≤ 2 ^ 38
  · rcases @mapPages_cases _ _ _ _ va PGSIZE h hr (by decide) hlow pa perm with
      ⟨s', fl', hret, hmap, hlen, hcount⟩ | ⟨k, hk, s', hret, -, hshort⟩ | ⟨k, hk, hne, hhalt⟩
    · rw [Prog.bind_of_ret hret]
      exact ⟨fl', hmap, Or.inr hlow, hlen, hcount⟩
    · rw [Prog.bind_of_ret hret]
      exact fun hok => absurd hok.2.2 (by omega)
    · rw [Prog.bind_of_halt hhalt]
      exact fun hok => hne (hok.2.1 k hk)
  · rw [Prog.bind_apply]
    cases hout : mapPages (addr r) va PGSIZE pa perm s with
    | ret x s' =>
      by_cases hx : x = 0
      · subst hx
        exact absurd (mapPages_below hout hva) hlow
      · dsimp only
        rw [if_pos hx]
        exact fun hok => hlow hok.1
    | halt e => exact fun hok => hlow hok.1
    | exit s' =>
      exact (Prog.wp_exit ((mapPagesLoop_quiet _ _ _ _ _ _).wp s) hout).elim

end Pke
