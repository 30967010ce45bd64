import Pke.Build.Process

/-!
# The kernel's page table is the identity map of memory

`kern_vm_init` for any `_etext` in the memory and any free list of pages behind it: the
two mappings together take 65 tables besides the root, whichever page `_etext` is, and
leave the identity map of `[KERN_BASE, PHYS_TOP)`.
-/

namespace Pke

open Lib Radix

variable {L : Layout} {s s' : Kernel} {fl fl' : List Ppn} {r : Ppn} {ph ph' : Phys}

/-! ## One mapping, with its tables counted -/

/-- Of the tables the kernel's page table needs, `missing` are not there yet. -/
def kernelMissing (m : Mem) (r : Ppn) : ℕ := missing ptePage m r (insert [] kernelPaths)

theorem kernelPaths_length : ∀ π ∈ insert [] kernelPaths, π.length ≤ 2 := by
  intro π hπ
  rcases Finset.mem_insert.mp hπ with rfl | hπ
  · simp
  rcases Finset.mem_insert.mp hπ with rfl | hπ
  · simp
  obtain ⟨j, -, rfl⟩ := Finset.mem_image.mp hπ
  simp

/-- `kern_vm_map` of unmapped pages, with enough pages for the tables that are missing. -/
theorem kernVmMap_counted {va pa size perm : Word} (h : Tables {r} ph fl)
    (hlo : 2 ^ 31 ≤ va.toNat) (hsize : 1 ≤ size.toNat) (hhi : va.toNat + size.toNat ≤ 0x88000000)
    (hnone : ∀ k < pageCount va size, translate ph.mem r (vpnOf (va.toNat / 4096 + k)) = none)
    (hlen : kernelMissing ph.mem r ≤ fl.length) :
    ∃ ph' fl', kernVmMap (addr r) va pa size perm ph = .ret () ph' ∧
      MapSpec {r} r (va.toNat / 4096) (pageCount va size) pa perm ph fl ph' fl' ∧
      kernelMissing ph'.mem r ≤ fl'.length := by
  have hcount : pageCount va size = (va.toNat + size.toNat - 1) / 4096 - va.toNat / 4096 + 1 := rfl
  have hsub := tablePaths_kernel (V := va.toNat / 4096) (n := pageCount va size) (by omega)
    (by omega)
  have hneed : tablesNeeded ph.mem r (va.toNat / 4096) (pageCount va size) ≤ fl.length :=
    (missing_mono hsub).trans hlen
  rcases mapPages_cases h rfl hsize (show va.toNat + size.toNat ≤ 2 ^ 38 by omega) pa perm with
    ⟨ph', fl', hret, hmap, -, hQ⟩ | ⟨k, hk, ph', hret, hmap, hshort⟩ | ⟨k, hk, hmapped, -⟩
  · refine ⟨ph', fl', ?_, hmap, ?_⟩
    · rw [kernVmMap, Prog.bind_of_ret hret]
      rfl
    · have := hQ _ kernelPaths_length hsub
      unfold kernelMissing at hlen ⊢
      omega
  · omega
  · exact absurd (hnone k hk) hmapped

/-! ## The map -/

/-- The page table `root` is the identity map of memory: the text of the kernel can be
    executed, the rest can be written, and no page outside is mapped. -/
structure IdentityMap (L : Layout) (m : Mem) (root : Ppn) : Prop where
  text : ∀ v : Vpn, KERN_BASE ≤ vaddr v.toNat → vaddr v.toNat < L.etext →
    ∃ e, translate m root v = some e ∧ Grants e (ppn (vaddr v.toNat)) (PTE_R ||| PTE_X)
  data : ∀ v : Vpn, L.etext ≤ vaddr v.toNat → vaddr v.toNat < PHYS_TOP →
    ∃ e, translate m root v = some e ∧ Grants e (ppn (vaddr v.toNat)) (PTE_R ||| PTE_W)
  rest : ∀ v : Vpn, ¬ (KERN_BASE ≤ vaddr v.toNat ∧ vaddr v.toNat < PHYS_TOP) →
    translate m root v = none

theorem vaddr_vpn_toNat (v : Vpn) : (vaddr v.toNat).toNat = v.toNat * 4096 := by
  have := v.isLt
  rw [vaddr, BitVec.toNat_ofNat]
  omega

/-- The frame that a mapping from an address to itself gives a page. -/
theorem self_frame {va : Word} (hva : va % PGSIZE = 0) {V : ℕ} (hlo : va.toNat / 4096 ≤ V) :
    va + vaddr (V - va.toNat / 4096) = vaddr V := by
  have hal := toNat_mod_PGSIZE hva
  apply BitVec.eq_of_toNat_eq
  simp only [vaddr, BitVec.toNat_add, BitVec.toNat_ofNat]
  omega

theorem identityMap_of_maps (hetext : L.etext < PHYS_TOP) {s₀ s₁ s₂ : Phys} {fl₁ fl₂ : List Ppn}
    {size₁ size₂ : Word} (hsize₁ : size₁.toNat = L.etext.toNat - 2 ^ 31)
    (hsize₂ : size₂.toNat = 0x88000000 - L.etext.toNat)
    (hempty : ∀ v, translate s₀.mem r v = none)
    (h₁ : MapSpec {r} r (KERN_BASE.toNat / 4096) (pageCount KERN_BASE size₁) KERN_BASE
      (protToType (PROT_READ ||| PROT_EXEC) 0) s₀ fl s₁ fl₁)
    (h₂ : MapSpec {r} r (L.etext.toNat / 4096) (pageCount L.etext size₂) L.etext
      (protToType (PROT_READ ||| PROT_WRITE) 0) s₁ fl₁ s₂ fl₂) : IdentityMap L s₂.mem r := by
  have hal := toNat_mod_PGSIZE L.etext_aligned
  have hbase := L.base_le_trapSec
  have hlt := L.trapSec_lt_etext
  have htop := hetext
  rw [BitVec.le_def, show KERN_BASE.toNat = 2 ^ 31 from rfl] at hbase
  rw [BitVec.lt_def] at hlt htop
  rw [show PHYS_TOP.toNat = 0x88000000 from rfl] at htop
  have hcount₁ : 2 ^ 31 / 4096 + pageCount KERN_BASE size₁ = L.etext.toNat / 4096 := by
    rw [pageCount, hsize₁, show KERN_BASE.toNat = 2 ^ 31 from rfl]
    omega
  have hcount₂ : L.etext.toNat / 4096 + pageCount L.etext size₂ = 0x88000 := by
    rw [pageCount, hsize₂]
    omega
  have hleaf₁ := h₁.leaf r rfl
  have hleaf₂ := h₂.leaf r rfl
  rw [show KERN_BASE.toNat = 2 ^ 31 from rfl, hcount₁] at hleaf₁
  rw [hcount₂] at hleaf₂
  have hN := vaddr_vpn_toNat
  refine ⟨fun v hv hv' => ?_, fun v hv hv' => ?_, fun v hv => ?_⟩
  · rw [BitVec.le_def, hN, show KERN_BASE.toNat = 2 ^ 31 from rfl] at hv
    rw [BitVec.lt_def, hN] at hv'
    rw [hleaf₂, if_neg (by omega), hleaf₁, if_pos ⟨rfl, by omega, by omega⟩,
      show (2 ^ 31 / 4096 : ℕ) = KERN_BASE.toNat / 4096 from rfl,
      self_frame (by decide) (by rw [show KERN_BASE.toNat = 2 ^ 31 from rfl]; omega)]
    exact ⟨_, rfl, grants_mkPte _ _ _⟩
  · rw [BitVec.le_def, hN] at hv
    rw [BitVec.lt_def, hN, show PHYS_TOP.toNat = 0x88000000 from rfl] at hv'
    rw [hleaf₂, if_pos ⟨rfl, by omega, by omega⟩, self_frame L.etext_aligned (by omega)]
    exact ⟨_, rfl, grants_mkPte _ _ _⟩
  · rw [BitVec.le_def, BitVec.lt_def, hN, show KERN_BASE.toNat = 2 ^ 31 from rfl,
      show PHYS_TOP.toNat = 0x88000000 from rfl] at hv
    rw [hleaf₂, if_neg (by omega), hleaf₁, if_neg (by omega), hempty]

/-! ## `kern_vm_init` -/

/-- **The kernel page table is the identity map of memory.** For every `_etext` in the memory
    and every free list of pages behind it that is long enough for the root and the 65
    tables, `kern_vm_init` completes; every page of the list is mapped to itself. -/
theorem kernVmInit_identity (hetext : L.etext < PHYS_TOP) (hfree : FreeList s.phys fl)
    (hlen : 66 ≤ fl.length) (hpages : ∀ p ∈ fl, L.etext ≤ addr p ∧ addr p < PHYS_TOP) :
    ∃ s' root, kernVmInit L s = .ret () s' ∧ s'.gKernelPagetable = addr root ∧
      Forest ptePage s'.phys.mem 2 {root} ∧ IdentityMap L s'.phys.mem root ∧
      ∀ p ∈ fl, ∃ e, translate s'.phys.mem root (vpn (addr p)) = some e ∧
        Grants e p (PTE_R ||| PTE_W) := by
  cases fl with
  | nil => simp at hlen
  | cons root fl =>
  have hbase := L.base_le_etext
  have htext := L.trapSec_lt_etext
  have hbase' := L.base_le_trapSec
  have htop := hetext
  rw [BitVec.le_def] at hbase hbase'
  rw [BitVec.lt_def] at htop htext
  rw [show KERN_BASE.toNat = 2 ^ 31 from rfl] at hbase hbase'
  rw [show PHYS_TOP.toNat = 0x88000000 from rfl] at htop
  have hal := toNat_mod_PGSIZE L.etext_aligned
  have hsize₁ : (L.etext - KERN_BASE).toNat = L.etext.toNat - 2 ^ 31 :=
    BitVec.toNat_sub_of_le L.base_le_etext
  have hsize₂ : (PHYS_TOP - L.etext).toNat = 0x88000000 - L.etext.toNat :=
    BitVec.toNat_sub_of_le (BitVec.le_of_lt hetext)
  obtain ⟨ph₀, ph₁, halloc, hclear, hc⟩ := clear_spec hfree
  rw [List.length_cons] at hlen
  -- the text
  obtain ⟨ph₂, fl₂, hrun₂, hmap₂, hmiss₂⟩ := @kernVmMap_counted _ _ _ KERN_BASE DRAM_BASE
    (L.etext - KERN_BASE) (protToType (PROT_READ ||| PROT_EXEC) 0) hc.tables le_rfl
    (by omega) (by rw [hsize₁, show KERN_BASE.toNat = 2 ^ 31 from rfl]; omega)
    (fun k _ => hc.empty _) ((missing_kernel _ _).trans (by omega))
  -- the rest of memory
  have hnone : ∀ k < pageCount L.etext (PHYS_TOP - L.etext),
      translate ph₂.mem root (vpnOf (L.etext.toNat / 4096 + k)) = none := by
    intro k hk
    unfold pageCount at hk
    rw [hmap₂.leaf root rfl, if_neg, hc.empty]
    rw [vpnOf_toNat (by omega), pageCount, hsize₁, show KERN_BASE.toNat = 2 ^ 31 from rfl]
    omega
  obtain ⟨ph₃, fl₃, hrun₃, hmap₃, -⟩ := @kernVmMap_counted _ _ _ L.etext L.etext
    (PHYS_TOP - L.etext) (protToType (PROT_READ ||| PROT_WRITE) 0)
    hmap₂.grow.tables (by omega) (by omega) (by omega) hnone hmiss₂
  have hid : IdentityMap L ph₃.mem root :=
    identityMap_of_maps hetext hsize₁ hsize₂ hc.empty hmap₂ hmap₃
  have hlook₂ := lookupPa_eq hmap₂.grow.tables rfl KERN_BASE
  have hlook₃ := lookupPa_eq hmap₃.grow.tables rfl L.etext
  have hwp : Prog.wp (kernVmInit L)
      (fun _ s' => s'.phys = ph₃ ∧ s'.gKernelPagetable = addr root) (fun _ => False)
      (fun _ => False) s := by
    unfold kernVmInit
    rw [Prog.wp_bind, wp_onPhys, Prog.wp_of_ret halloc, Prog.wp_bind, wp_onPhys,
      Prog.wp_of_ret hclear, Prog.wp_bind, wp_onPhys, Prog.wp_of_ret hrun₂, Prog.wp_bind,
      wp_onPhys, Prog.wp_of_ret hlook₂, sprint, Prog.wp_bind, Prog.wp_modify, Prog.wp_bind,
      wp_onPhys, Prog.wp_of_ret hrun₃, Prog.wp_bind, wp_onPhys, Prog.wp_of_ret hlook₃, sprint,
      Prog.wp_bind, Prog.wp_modify, Prog.wp_modify]
    exact ⟨rfl, rfl⟩
  obtain ⟨_, s', hrun, hphys, hpt⟩ := Prog.returns_of_wp hwp fun _ h => h
  refine ⟨s', root, hrun, hpt, hphys ▸ hmap₃.grow.tables.forest, hphys ▸ hid, fun p hp => ?_⟩
  obtain ⟨hlo, hhi⟩ := hpages p hp
  have hpN : p.toNat < 0x88000 := by
    rw [BitVec.lt_def, addr_toNat, show PHYS_TOP.toNat = 0x88000000 from rfl] at hhi
    omega
  have hva : vaddr (vpn (addr p)).toNat = addr p := by
    apply BitVec.eq_of_toNat_eq
    rw [vaddr_vpn_toNat, vpn_toNat (by rw [addr_toNat]; omega), addr_toNat]
    omega
  have hdata := hid.data (vpn (addr p)) (by rwa [hva]) (by rwa [hva])
  rw [hva, ppn_addr] at hdata
  rw [hphys]
  exact hdata

theorem kernVmInit_identity_sample : ∃ s fl s', FreeList s.phys fl ∧ 66 ≤ fl.length ∧
    kernVmInit sampleLayout s = .ret () s' := by
  obtain ⟨ph, hfree⟩ := exists_sampleFree
  have hpages : ∀ p ∈ pagesDown 0x80010 127, sampleLayout.etext ≤ addr p ∧ addr p < PHYS_TOP := by
    intro p hp
    have hp' := (mem_pagesDown (by decide)).mp hp
    rw [show (0x80010 : Ppn).toNat = 0x80010 from rfl] at hp'
    refine ⟨?_, (aboveTrapSec_sample p hp).2⟩
    rw [BitVec.le_def, addr_toNat, show sampleLayout.etext.toNat = 0x80005000 from rfl]
    omega
  obtain ⟨s', -, hrun, -⟩ := kernVmInit_identity (L := sampleLayout)
    (s := { powerOn 0 with phys := ph }) (by decide) hfree (by simp) hpages
  exact ⟨_, _, s', hfree, by simp, hrun⟩

end Pke
