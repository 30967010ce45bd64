import Pke.Boot.Memory
import Pke.Space.Setup

/-!
# The kernel's page table

`kern_vm_init` maps the kernel image and all of physical memory in a page table
of its own. Its tables come from the free list, at most 65 of them for each of
the two mappings, and the memory of the (still empty) process table is in order.
-/

namespace Pke

open Lib Radix

variable {L : Layout} {s s' : Kernel} {fl fl' : List Ppn}

/-! ## How many tables the kernel needs -/

/-- The tables on the way to `[KERN_BASE, PHYS_TOP)`: one of the second level and
    64 of the third. -/
def kernelPaths : Finset (List Idx) :=
  insert [2] ((Finset.range 64).image fun j => [2, BitVec.ofNat 9 j])

theorem kernelPaths_card : kernelPaths.card ≤ 65 := by
  refine (Finset.card_insert_le _ _).trans ?_
  have := Finset.card_image_le (s := Finset.range 64)
    (f := fun j => ([2, BitVec.ofNat 9 j] : List Idx))
  rw [Finset.card_range] at this
  omega

theorem px_toNat (level : ℕ) (v : Vpn) : (px level v).toNat = v.toNat / 2 ^ (9 * level) % 512 := by
  rw [px, BitVec.extractLsb'_toNat, Nat.shiftRight_eq_div_pow]

theorem vpath_kernel {V : ℕ} (hlo : 0x80000 ≤ V) (hhi : V < 0x88000) :
    vpath 2 (vpnOf V) = [2, BitVec.ofNat 9 (V / 512 % 64)] := by
  have hv : (vpnOf V).toNat = V := vpnOf_toNat (by omega)
  have h2 : px 2 (vpnOf V) = 2 := by
    apply BitVec.eq_of_toNat_eq
    rw [px_toNat, hv]
    show V / 2 ^ 18 % 512 = 2
    omega
  have h1 : px 1 (vpnOf V) = BitVec.ofNat 9 (V / 512 % 64) := by
    apply BitVec.eq_of_toNat_eq
    rw [px_toNat, hv, BitVec.toNat_ofNat]
    omega
  simp only [vpath, h1, h2]

theorem mem_kernelPaths {V n : ℕ} (hlo : 0x80000 ≤ V) (hhi : V + n ≤ 0x88000) {π : List Idx}
    (h : π ∈ tablePaths V n) : π = [] ∨ π ∈ kernelPaths := by
  obtain ⟨k, hk, hpre⟩ := mem_tablePaths.mp h
  rw [vpath_kernel (by omega) (by omega)] at hpre
  have hj : (V + k) / 512 % 64 < 64 := by omega
  generalize (V + k) / 512 % 64 = j at hpre hj
  have hmem := (List.mem_inits _ _).mpr hpre
  simp only [List.inits, List.map_cons, List.map_nil, List.mem_cons, List.not_mem_nil,
    or_false] at hmem
  rcases hmem with rfl | rfl | rfl
  · exact Or.inl rfl
  · exact Or.inr (Finset.mem_insert_self _ _)
  · exact Or.inr (Finset.mem_insert_of_mem
      (Finset.mem_image.mpr ⟨j, Finset.mem_range.mpr hj, rfl⟩))

/-- The root is there, so at most 65 tables are missing. -/
theorem missing_kernel (m : Mem) (r : Ppn) : missing ptePage m r (insert [] kernelPaths) ≤ 65 := by
  refine (Finset.card_le_card fun π hπ => ?_).trans kernelPaths_card
  obtain ⟨hmem, hnone⟩ := Finset.mem_filter.mp hπ
  refine (Finset.mem_insert.mp hmem).resolve_left ?_
  rintro rfl
  simp at hnone

theorem tablePaths_kernel {V n : ℕ} (hlo : 0x80000 ≤ V) (hhi : V + n ≤ 0x88000) :
    tablePaths V n ⊆ insert [] kernelPaths := fun _ hπ =>
  Finset.mem_insert.mpr (mem_kernelPaths hlo hhi hπ)

theorem tablesNeeded_kernel (m : Mem) (r : Ppn) {V n : ℕ} (hlo : 0x80000 ≤ V)
    (hhi : V + n ≤ 0x88000) : tablesNeeded m r V n ≤ 65 :=
  (missing_mono (tablePaths_kernel hlo hhi)).trans (missing_kernel m r)

/-! ## One mapping -/

/-- `kern_vm_map` of unmapped pages in `[KERN_BASE, PHYS_TOP)`. -/
theorem kernVmMap_spec {r : Ppn} {ph : Phys} (va pa size perm : Word)
    (h : Tables {r} ph fl) (hlo : 2 ^ 31 ≤ va.toNat) (hsize : 1 ≤ size.toNat)
    (hhi : va.toNat + size.toNat ≤ 0x88000000)
    (hnone : ∀ k < pageCount va size, translate ph.mem r (vpnOf (va.toNat / 4096 + k)) = none) :
    Prog.wp (kernVmMap (addr r) va pa size perm)
      (fun _ ph' => ∃ fl',
        MapSpec {r} r (va.toNat / 4096) (pageCount va size) pa perm ph fl ph' fl' ∧
        fl.length ≤ fl'.length + 65)
      (fun _ => False) (fun _ => fl.length < 65) ph := by
  have hcount : pageCount va size = (va.toNat + size.toNat - 1) / 4096 - va.toNat / 4096 + 1 := rfl
  have hneed := tablesNeeded_kernel ph.mem r (V := va.toNat / 4096) (n := pageCount va size)
    (by omega) (by omega)
  have hmax : va.toNat + size.toNat ≤ 2 ^ 38 := by omega
  unfold Prog.wp
  rcases mapPages_cases h rfl hsize hmax pa perm with
    ⟨ph', fl', hret, hmap, hlen, -⟩ | ⟨k, hk, ph', hret, hmap, hshort⟩ | ⟨k, hk, hmapped, -⟩
  · rw [kernVmMap, Prog.bind_of_ret hret]
    exact ⟨fl', hmap, by omega⟩
  · rw [kernVmMap, Prog.bind_of_ret hret]
    show fl.length < 65
    omega
  · exact absurd (hnone k hk) hmapped

/-! ## `kern_vm_init` -/

/-- The memory behind a process table without processes. -/
theorem space_empty {iso : Prop} {ph : Phys} (procs : Pid → AddrSpace) (total : Pid → ℕ) {r : Ppn}
    (h : Tables {r} ph fl) (hlo : L.kend ≤ ph.freeMemStartAddr) (hhi : ph.freeMemEndAddr ≤ PHYS_TOP)
    (hmanaged : ∀ p, p ∈ fl ∨ p ∈ tablePages ph.mem {r} → Managed ph p) :
    Space iso L ⟨procs, total, r, ∅, ∅⟩ ph fl := by
  have hroots : View.roots ⟨procs, total, r, ∅, ∅⟩ = {r} := by
    ext q
    simp [View.roots]
  refine ⟨?_, hlo, hhi, ?_, ?_, ?_, ?_, ?_, ?_, ?_, ?_, ?_, ?_, ?_⟩
  · rwa [hroots]
  · rwa [hroots]
  all_goals intros; simp_all

/-- The bounds of the kernel image in a memory in which it fits. -/
theorem Layout.bounds (L : Layout) {size : Word} (hsize : ¬ usableSize size < L.kend - KERN_BASE) :
    2 ^ 31 + 4096 ≤ L.etext.toNat ∧ L.etext.toNat ≤ L.kend.toNat ∧
      L.kend.toNat ≤ (usableSize size).toNat + 2 ^ 31 := by
  have h1 := L.base_le_trapSec
  have h2 := L.trapSec_lt_etext
  have h3 := L.etext_le_kend
  have h4 := toNat_mod_PGSIZE L.trapSec_aligned
  have h5 := toNat_mod_PGSIZE L.etext_aligned
  have hk : KERN_BASE ≤ L.kend := by
    rw [BitVec.le_def] at h1 h3 ⊢
    rw [BitVec.lt_def] at h2
    omega
  have h6 := kend_toNat_le hk hsize
  rw [BitVec.le_def] at h1 h3
  rw [BitVec.lt_def] at h2
  rw [show KERN_BASE.toNat = 2 ^ 31 from rfl] at h1
  omega

/-- A page taken off the free list and cleared is an empty page table. -/
structure Cleared (ph : Phys) (fl : List Ppn) (p : Ppn) (ph' : Phys) : Prop where
  tables : Tables {p} ph' fl
  pages : tablePages ph'.mem {p} = {p}
  empty : ∀ v, translate ph'.mem p v = none
  start : ph'.freeMemStartAddr = ph.freeMemStartAddr
  last : ph'.freeMemEndAddr = ph.freeMemEndAddr
  frame : ∀ q, q ≠ p → ph'.mem q = ph.mem q

theorem clear_spec {ph : Phys} {p : Ppn} (h : FreeList ph (p :: fl)) :
    ∃ ph₁ ph₂, allocPage ph = .ret (addr p) ph₁ ∧ physMemset (addr p) 0 4096 ph₁ = .ret () ph₂ ∧
      Cleared ph fl p ph₂ := by
  obtain ⟨g, halloc, hfree⟩ := allocPage_cons h
  refine ⟨_, _, halloc, physMemset_eq (h.ne_zero List.mem_cons_self) 0 4096 _, ?_⟩
  dsimp only
  generalize hm : memset ph.mem (addr p) 0 4096 = m
  rw [memset_page] at hm
  have hp := List.nodup_cons.mp h.nodup
  have hempty : ∀ i, m p i = 0 := fun i => by rw [← hm, Function.update_self]
  have hinv : ∀ i, ptePage (m p i) = none := fun i => ptePage_of_invalid (by rw [hempty i]; rfl)
  have hfree' : FreeList { ph with mem := m, gFreeMemList := g } fl := by
    refine hfree.frame rfl fun q hq => ?_
    rw [← hm]
    exact Function.update_of_ne (by rintro rfl; exact hp.1 hq) _ _
  have hnil : nodes ptePage m 2 ∅ = ∅ := Set.eq_empty_of_forall_notMem fun _ ⟨_, hr, _⟩ => hr
  refine ⟨?_, ?_, fun v => leafAt_of_empty hinv _ _, rfl, rfl, fun q hq => ?_⟩
  · rw [← insert_empty_eq p]
    refine (Tables.empty hfree').insert_of_empty hempty ?_ hp.1 (h.ne_zero List.mem_cons_self)
    rintro ⟨_, hr, _⟩
    exact hr
  · rw [← insert_empty_eq p]
    exact (nodes_insert_of_empty hinv).trans (by rw [hnil])
  · rw [← hm]
    exact Function.update_of_ne hq _ _

/-- What `kern_vm_init` leaves behind. -/
structure KernelPaged (L : Layout) (s : Kernel) (fl : List Ppn) (s' : Kernel) (fl' : List Ppn) :
    Prop where
  rest : s' = { s with
    phys := s'.phys, gKernelPagetable := s'.gKernelPagetable, console := s'.console }
  space : ∀ iso procs total, Space iso L ⟨procs, total, ppn s'.gKernelPagetable, ∅, ∅⟩ s'.phys fl'
  suffix : ∃ new, fl = new ++ fl'
  length : fl.length ≤ fl'.length + 131
  frame : ∀ q, q ∉ fl → s'.phys.mem q = s.phys.mem q

/-- The free pages of the memory are managed, and the tables come from them. -/
theorem PmmReady.space {size : Word} {ph ph' : Phys} {p : Ppn} {new : List Ppn}
    (h : PmmReady L.kend size ph fl) (hsize : ¬ usableSize size < L.kend - KERN_BASE)
    (hT : Tables {p} ph' fl') (hfl : fl = p :: (new ++ fl'))
    (hpages : ∀ q ∈ tablePages ph'.mem {p}, q ∈ fl)
    (hstart : ph'.freeMemStartAddr = ph.freeMemStartAddr)
    (hlast : ph'.freeMemEndAddr = ph.freeMemEndAddr) (iso : Prop) (procs : Pid → AddrSpace)
    (total : Pid → ℕ) : Space iso L ⟨procs, total, p, ∅, ∅⟩ ph' fl' := by
  have hb := L.bounds hsize
  have hmax := usableSize_toNat_le size
  have hend := end_toNat size
  have hround : ROUNDUP L.kend PGSIZE = L.kend :=
    ROUNDUP_of_aligned L.kend_aligned fun h0 => by
      rw [h0] at hb
      exact absurd hb.2.1 (by simp; omega)
  have hk : KERN_BASE ≤ L.kend := BitVec.le_def.mpr (by
    rw [show KERN_BASE.toNat = 2 ^ 31 from rfl]; omega)
  refine space_empty procs total hT ?_ ?_ fun q hq => ?_
  · rw [hstart, h.start, hround]
    exact BitVec.le_refl _
  · rw [hlast, h.last, BitVec.le_def, hend, show PHYS_TOP.toNat = 0x88000000 from rfl]
    omega
  · have hqfl : q ∈ fl := by
      rcases hq with hq | hq
      · rw [hfl]
        exact List.mem_cons_of_mem _ (List.mem_append_right _ hq)
      · exact hpages q hq
    have hrange := (h.mem_iff hk hsize q).mp hqfl
    rw [Managed, hstart, hlast, h.start, h.last, BitVec.le_def, BitVec.lt_def, addr_toNat]
    exact ⟨hrange.1, lt_of_le_of_lt (Nat.le_add_right _ _) hrange.2⟩

/-- The second half of `kern_vm_init`: all memory behind the kernel image. -/
theorem kernVmInit_rest {size : Word} {p : Ppn} {new₁ fl₁ : List Ppn} {s₁ : Kernel}
    (h : PmmReady L.kend size s.phys (p :: fl))
    (hsize : ¬ usableSize size < L.kend - KERN_BASE) (hT : Tables {p} s₁.phys fl₁)
    (hfl₁ : fl = new₁ ++ fl₁) (hlen₁ : fl.length ≤ fl₁.length + 65)
    (hpages₁ : tablePages s₁.phys.mem {p} = {p} ∪ {q | q ∈ new₁})
    (hnone : ∀ v : Vpn, L.etext.toNat / 4096 ≤ v.toNat → translate s₁.phys.mem p v = none)
    (hstart₁ : s₁.phys.freeMemStartAddr = s.phys.freeMemStartAddr)
    (hlast₁ : s₁.phys.freeMemEndAddr = s.phys.freeMemEndAddr)
    (hframe₁ : ∀ q, q ∉ p :: fl → s₁.phys.mem q = s.phys.mem q)
    (hrest : s₁ = { s with phys := s₁.phys, console := s₁.console }) :
    Prog.wp (do
      onPhys (kernVmMap (addr p) L.etext L.etext (PHYS_TOP - L.etext)
        (protToType (PROT_READ ||| PROT_WRITE) 0))
      let pa ← onPhys (lookupPa (addr p) L.etext)
      sprint (.text "physical address of _etext is: 0x%lx\n" [pa])
      Prog.modify fun s => { s with gKernelPagetable := addr p } : KernelM Unit)
      (fun _ s' => ∃ fl', KernelPaged L s (p :: fl) s' fl') (fun _ => False)
      (fun _ => (p :: fl).length < 131) s₁ := by
  have hb := L.bounds hsize
  have hmax := usableSize_toNat_le size
  have htop : L.etext.toNat < 0x88000000 := by
    have hround := ROUNDUP_toNat (a := L.kend) (by omega) (by omega)
    have hend := end_toNat size
    have hp := (h.mem_iff (BitVec.le_trans L.base_le_etext L.etext_le_kend) hsize p).mp
      List.mem_cons_self
    omega
  have hsize₂ : (PHYS_TOP - L.etext).toNat = 0x88000000 - L.etext.toNat :=
    BitVec.toNat_sub_of_le (BitVec.le_def.mpr (by
      rw [show PHYS_TOP.toNat = 0x88000000 from rfl]; omega))
  have hmap₂ := kernVmMap_spec L.etext L.etext (PHYS_TOP - L.etext)
    (protToType (PROT_READ ||| PROT_WRITE) 0) hT (by omega) (by omega) (by omega) fun k hk => by
      refine hnone _ ?_
      unfold pageCount at hk
      rw [vpnOf_toNat (by omega)]
      omega
  rw [Prog.wp_bind, wp_onPhys]
  refine Prog.wp_mono hmap₂ ?_ (fun _ h => h) fun _ hlt => by
    rw [List.length_cons]
    omega
  rintro _ ph₂ ⟨fl₂, hm₂, hlen₂⟩
  obtain ⟨new₂, hfl₂, hpages₂⟩ := hm₂.grow.popped
  have hfl : p :: fl = p :: (new₁ ++ new₂ ++ fl₂) := by rw [hfl₁, hfl₂, List.append_assoc]
  have htab : ∀ q ∈ tablePages ph₂.mem {p}, q ∈ p :: fl := by
    intro q hq
    rw [hpages₂, hpages₁] at hq
    rw [hfl]
    rcases hq with (rfl | hq) | hq
    · exact List.mem_cons_self
    · exact List.mem_cons_of_mem _ (List.mem_append_left _ (List.mem_append_left _ hq))
    · exact List.mem_cons_of_mem _ (List.mem_append_left _ (List.mem_append_right _ hq))
  have hspace := h.space hsize hm₂.grow.tables hfl htab (hm₂.grow.start.trans hstart₁)
    (hm₂.grow.last.trans hlast₁)
  have hlen : (p :: fl).length ≤ fl₂.length + 131 := by
    rw [List.length_cons]
    omega
  have hlook := lookupPa_eq hm₂.grow.tables rfl L.etext
  rw [← ppn_addr p] at hspace
  rw [Prog.wp_bind, wp_onPhys]
  refine (Prog.wp_of_ret hlook).mpr ?_
  rw [sprint, Prog.wp_bind, Prog.wp_modify, Prog.wp_modify]
  refine ⟨fl₂, ?_, hspace, ⟨p :: (new₁ ++ new₂), hfl⟩, hlen, fun q hq => ?_⟩
  · rw [hrest]
  · exact (hm₂.grow.frame q fun hm => hq (htab q hm)).trans (hframe₁ q hq)

theorem kernVmInit_spec {size : Word} (h : PmmReady L.kend size s.phys fl)
    (hsize : ¬ usableSize size < L.kend - KERN_BASE) :
    Prog.wp (kernVmInit L) (fun _ s' => ∃ fl', KernelPaged L s fl s' fl') (fun _ => False)
      (fun _ => fl.length < 131) s := by
  have hb := L.bounds hsize
  have hmax := usableSize_toNat_le size
  unfold kernVmInit
  rw [Prog.wp_bind, wp_onPhys]
  cases fl with
  | nil =>
    refine (Prog.wp_of_ret (allocPage_nil h.free)).mpr ?_
    rw [Prog.wp_bind, wp_onPhys]
    exact (Prog.wp_of_halt (physMemset_null 0 4096 _)).mpr (by simp)
  | cons p fl =>
    obtain ⟨ph₀, ph₀', halloc, hclear, hc⟩ := clear_spec h.free
    refine (Prog.wp_of_ret halloc).mpr ?_
    rw [Prog.wp_bind, wp_onPhys]
    refine (Prog.wp_of_ret hclear).mpr ?_
    have hal := toNat_mod_PGSIZE L.etext_aligned
    have hsize₁ : (L.etext - KERN_BASE).toNat = L.etext.toNat - 2 ^ 31 :=
      BitVec.toNat_sub_of_le L.base_le_etext
    have hmap₁ := kernVmMap_spec KERN_BASE DRAM_BASE (L.etext - KERN_BASE)
      (protToType (PROT_READ ||| PROT_EXEC) 0) hc.tables le_rfl (by omega)
      (by rw [hsize₁, show KERN_BASE.toNat = 2 ^ 31 from rfl]; omega) fun k _ => hc.empty _
    rw [Prog.wp_bind, wp_onPhys]
    refine Prog.wp_mono hmap₁ ?_ (fun _ h => h) fun _ hlt => by
      rw [List.length_cons]
      omega
    rintro _ ph₁ ⟨fl₁, hm₁, hlen₁⟩
    obtain ⟨new₁, hfl₁, hpages₁⟩ := hm₁.grow.popped
    have hnone : ∀ v : Vpn, L.etext.toNat / 4096 ≤ v.toNat → translate ph₁.mem p v = none := by
      intro v hv
      rw [hm₁.leaf p rfl, if_neg, hc.empty]
      rintro ⟨-, -, hlt⟩
      rw [pageCount, hsize₁, show KERN_BASE.toNat = 2 ^ 31 from rfl] at hlt
      omega
    rw [hc.pages] at hpages₁
    have hlook := lookupPa_eq hm₁.grow.tables rfl KERN_BASE
    rw [Prog.wp_bind, wp_onPhys]
    refine (Prog.wp_of_ret hlook).mpr ?_
    rw [sprint, Prog.wp_bind, Prog.wp_modify]
    refine kernVmInit_rest h hsize hm₁.grow.tables hfl₁ hlen₁ hpages₁ hnone
      (hm₁.grow.start.trans hc.start) (hm₁.grow.last.trans hc.last) (fun q hq => ?_) rfl
    refine (hm₁.grow.frame q fun hm => hq ?_).trans (hc.frame q fun heq => hq ?_)
    · rw [hpages₁] at hm
      rcases hm with rfl | hm
      · exact List.mem_cons_self
      · exact List.mem_cons_of_mem _ (hfl₁ ▸ List.mem_append_left _ hm)
    · exact heq ▸ List.mem_cons_self

end Pke
