import Pke.Boot.Memory

/-!
# Runs of the page allocator

A client takes pages with `alloc_page`, returns pages it holds with `free_page`,
and writes what it likes into the pages it holds. `Client ph₀ ph live` collects
the memories it can reach, with the pages it holds. The links of the free list
lie in pages the client does not hold, so the list stays intact.
-/

namespace Pke

open Lib

/-- The memory `ph` and the pages `live` that a client holds, from the memory `ph₀`
    on. -/
inductive Client (ph₀ : Phys) : Phys → Finset Word → Prop
  | start : Client ph₀ ph₀ ∅
  | alloc {ph ph' : Phys} {live : Finset Word} {pa : Word} (h : Client ph₀ ph live)
      (ha : allocPage ph = .ret pa ph') : Client ph₀ ph' (if pa = 0 then live else insert pa live)
  | free {ph ph' : Phys} {live : Finset Word} {pa : Word} (h : Client ph₀ ph live)
      (hpa : pa ∈ live) (hf : freePage pa ph = .ret () ph') : Client ph₀ ph' (live.erase pa)
  | write {ph : Phys} {live : Finset Word} {m : Mem} (h : Client ph₀ ph live)
      (hm : ∀ q, addr q ∉ live → m q = ph.mem q) : Client ph₀ { ph with mem := m } live

/-- The whole page lies in the managed range. -/
def WholeIn (ph : Phys) (p : Ppn) : Prop :=
  ph.freeMemStartAddr ≤ addr p ∧ (addr p).toNat + 4096 ≤ ph.freeMemEndAddr.toNat

/-- The free pages `fl` and the pages the client holds are `n` different pages of
    the managed range. -/
structure Ledger (n : ℕ) (ph : Phys) (live : Finset Word) (fl : List Ppn) : Prop where
  free : FreeList ph fl
  whole : ∀ p ∈ fl, WholeIn ph p
  held : ∀ pa ∈ live, ∃ p, pa = addr p ∧ p ≠ 0 ∧ p ∉ fl ∧ WholeIn ph p
  count : fl.length + live.card = n

namespace Ledger

variable {n : ℕ} {ph ph' : Phys} {live : Finset Word} {fl : List Ppn} {pa : Word}

theorem notin (h : Ledger n ph live fl) {p : Ppn} (hp : p ∈ fl) : addr p ∉ live := by
  intro hm
  obtain ⟨q, hq, -, hqfl, -⟩ := h.held _ hm
  exact hqfl (addr_inj.mp hq ▸ hp)

theorem alloc (h : Ledger n ph live fl) (ha : allocPage ph = .ret pa ph') :
    ∃ fl', Ledger n ph' (if pa = 0 then live else insert pa live) fl' := by
  cases fl with
  | nil =>
    rw [allocPage_nil h.free] at ha
    cases ha
    exact ⟨[], by rwa [if_pos rfl]⟩
  | cons p fl =>
    obtain ⟨g, hrun, hfree⟩ := allocPage_cons h.free
    rw [hrun] at ha
    cases ha
    have hnodup := List.nodup_cons.mp h.free.nodup
    have hp0 : p ≠ 0 := h.free.ne_zero List.mem_cons_self
    rw [if_neg (mt addr_eq_zero.mp hp0)]
    refine ⟨fl, hfree, fun q hq => h.whole q (List.mem_cons_of_mem _ hq), fun pa hpa => ?_, ?_⟩
    · rcases Finset.mem_insert.mp hpa with rfl | hpa
      · exact ⟨p, rfl, hp0, hnodup.1, h.whole p List.mem_cons_self⟩
      · obtain ⟨q, hq, hq0, hqfl, hw⟩ := h.held pa hpa
        exact ⟨q, hq, hq0, fun hm => hqfl (List.mem_cons_of_mem _ hm), hw⟩
    · have hcount := h.count
      rw [Finset.card_insert_of_notMem (h.notin List.mem_cons_self)]
      rw [List.length_cons] at hcount
      omega

/-- A page the client holds can be freed. -/
theorem freePage_eq (h : Ledger n ph live fl) (hpa : pa ∈ live) :
    freePage pa ph = .ret () { ph with
      mem := store64 ph.mem pa ph.gFreeMemList, gFreeMemList := pa } := by
  obtain ⟨p, rfl, -, -, hlo, hhi⟩ := h.held pa hpa
  refine freePage_of_range hlo ?_
  rw [BitVec.lt_def]
  omega

theorem release (h : Ledger n ph live fl) (hpa : pa ∈ live) (hf : freePage pa ph = .ret () ph') :
    ∃ fl', Ledger n ph' (live.erase pa) fl' := by
  rw [h.freePage_eq hpa] at hf
  cases hf
  obtain ⟨p, rfl, hp0, hpfl, hw⟩ := h.held pa hpa
  refine ⟨p :: fl, h.free.push hpfl hp0, fun q hq => ?_, fun pa' hpa' => ?_, ?_⟩
  · rcases List.mem_cons.mp hq with rfl | hq
    · exact hw
    · exact h.whole q hq
  · obtain ⟨hne, hmem⟩ := Finset.mem_erase.mp hpa'
    obtain ⟨q, rfl, hq0, hqfl, hqw⟩ := h.held pa' hmem
    refine ⟨q, rfl, hq0, fun hm => ?_, hqw⟩
    rcases List.mem_cons.mp hm with rfl | hm
    · exact hne rfl
    · exact hqfl hm
  · have hcount := h.count
    have hcard := Finset.card_erase_add_one hpa
    rw [List.length_cons]
    omega

theorem write (h : Ledger n ph live fl) {m : Mem} (hm : ∀ q, addr q ∉ live → m q = ph.mem q) :
    Ledger n { ph with mem := m } live fl :=
  ⟨h.free.frame rfl fun _ hp => hm _ (h.notin hp), h.whole, h.held, h.count⟩

/-- What `alloc_page` answers. -/
theorem allocPage_answer (h : Ledger n ph live fl) :
    ∃ pa ph', allocPage ph = .ret pa ph' ∧ (pa = 0 ↔ live.card = n) ∧
      (pa ≠ 0 → pa % PGSIZE = 0 ∧ ph.freeMemStartAddr ≤ pa ∧
        pa.toNat + 4096 ≤ ph.freeMemEndAddr.toNat ∧ pa ∉ live) := by
  have hcount := h.count
  cases fl with
  | nil =>
    refine ⟨0, ph, allocPage_nil h.free, iff_of_true rfl ?_, fun h0 => absurd rfl h0⟩
    simpa using hcount
  | cons p fl =>
    obtain ⟨g, hrun, -⟩ := allocPage_cons h.free
    have hp0 : p ≠ 0 := h.free.ne_zero List.mem_cons_self
    obtain ⟨hlo, hhi⟩ := h.whole p List.mem_cons_self
    refine ⟨addr p, _, hrun, iff_of_false (mt addr_eq_zero.mp hp0) ?_, fun _ =>
      ⟨addr_mod p, hlo, hhi, h.notin List.mem_cons_self⟩⟩
    rw [List.length_cons] at hcount
    omega

end Ledger

theorem Client.ledger {n : ℕ} {ph₀ ph : Phys} {live : Finset Word} {fl₀ : List Ppn}
    (h₀ : Ledger n ph₀ ∅ fl₀) (h : Client ph₀ ph live) : ∃ fl, Ledger n ph live fl := by
  induction h with
  | start => exact ⟨fl₀, h₀⟩
  | alloc _ ha ih => exact ih.choose_spec.alloc ha
  | free _ hpa hf ih => exact ih.choose_spec.release hpa hf
  | write _ hm ih => exact ⟨_, ih.choose_spec.write hm⟩

/-- **The allocator never hands out a page that is in use.** `pmm_init` lists the
    pages `fl₀` of the managed range, without the one at its very end. Whatever the
    client has done after it: `alloc_page` returns NULL exactly when the client holds
    as many pages as there are in `fl₀`, and otherwise a whole page of the managed
    range that it does not hold; `free_page` of a page it holds does not panic; and
    the free pages and the pages it holds are always as many as there are in `fl₀`. -/
theorem allocator_sound {kend : Word} {s s' : Kernel} (hk : KERN_BASE ≤ kend)
    (hrun : pmmInit kend s = .ret () s') :
    ∃ fl₀, FreeList s'.phys fl₀ ∧
      (∀ p, p ∈ fl₀ ↔ s'.phys.freeMemStartAddr ≤ addr p ∧
        (addr p).toNat + 4096 < s'.phys.freeMemEndAddr.toNat) ∧
      ∀ ph live, Client s'.phys ph live →
        (∃ pa ph', allocPage ph = .ret pa ph' ∧ (pa = 0 ↔ live.card = fl₀.length) ∧
          (pa ≠ 0 → pa % PGSIZE = 0 ∧ ph.freeMemStartAddr ≤ pa ∧
            pa.toNat + 4096 ≤ ph.freeMemEndAddr.toNat ∧ pa ∉ live)) ∧
        (∀ pa ∈ live, ∃ ph', freePage pa ph = .ret () ph') ∧
        ∃ fl, FreeList ph fl ∧ fl.length + live.card = fl₀.length := by
  obtain ⟨hsize, ⟨fl₀, h₀⟩, -⟩ := Prog.wp_ret (pmmInit_spec hk s) hrun
  have hpages : ∀ p, p ∈ fl₀ ↔ s'.phys.freeMemStartAddr ≤ addr p ∧
      (addr p).toNat + 4096 < s'.phys.freeMemEndAddr.toNat := fun p => by
    rw [h₀.start, h₀.last, BitVec.le_def, addr_toNat]
    exact h₀.mem_iff hk hsize p
  have hledger : Ledger fl₀.length s'.phys ∅ fl₀ :=
    ⟨h₀.free, fun p hp => ⟨((hpages p).mp hp).1, ((hpages p).mp hp).2.le⟩,
      fun pa hpa => absurd hpa (Finset.notMem_empty pa), rfl⟩
  refine ⟨fl₀, h₀.free, hpages, fun ph live h => ?_⟩
  obtain ⟨fl, hl⟩ := h.ledger hledger
  exact ⟨hl.allocPage_answer, fun pa hpa => ⟨_, hl.freePage_eq hpa⟩, fl, hl.free, hl.count⟩

theorem allocator_sound_sample : ∃ s', pmmInit 0x80001000 (powerOn 0x3800) = .ret () s' ∧
    ∃ fl₀, FreeList s'.phys fl₀ ∧
      (∀ p, p ∈ fl₀ ↔ s'.phys.freeMemStartAddr ≤ addr p ∧
        (addr p).toNat + 4096 < s'.phys.freeMemEndAddr.toNat) ∧
      ∀ ph live, Client s'.phys ph live →
        (∃ pa ph', allocPage ph = .ret pa ph' ∧ (pa = 0 ↔ live.card = fl₀.length) ∧
          (pa ≠ 0 → pa % PGSIZE = 0 ∧ ph.freeMemStartAddr ≤ pa ∧
            pa.toNat + 4096 ≤ ph.freeMemEndAddr.toNat ∧ pa ∉ live)) ∧
        (∀ pa ∈ live, ∃ ph', freePage pa ph = .ret () ph') ∧
        ∃ fl, FreeList ph fl ∧ fl.length + live.card = fl₀.length := by
  obtain ⟨s', hrun⟩ := pmmInit_powerOn 0x3800 (by decide)
  exact ⟨s', hrun, allocator_sound (by decide) hrun⟩

end Pke
