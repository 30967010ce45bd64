import Pke.Mm.Single

/-!
# What `user_vm_unmap` does to a range

The header of `user_vm_unmap` (`kernel/vmm.c` lines 176–193) promises to unmap
the range `[va, va + size)` and to free its frames if `free` says so. The body
walks to the first page only, reads neither `size` nor `free`, frees whatever
frame the entry names and toggles its V bit. `UnmapCorrect` is the promise;
the module finds out exactly when the body keeps it.
-/

namespace Pke

open Lib Radix

variable {R : Set Ppn} {r : Ppn} {s s' : Phys} {fl : List Ppn} {va size : Word}

/-- The page `v` lies in `[va, va + size)`. -/
def PageIn (va size : Word) (v : Vpn) : Prop :=
  va.toNat / 4096 ≤ v.toNat ∧ v.toNat < (va.toNat + size.toNat) / 4096

/-- The frame `f` is validly mapped at a page of the range. -/
def MappedIn (m : Mem) (r : Ppn) (va size : Word) (f : Ppn) : Prop :=
  ∃ v w, PageIn va size v ∧ translate m r v = some w ∧ ptePpn w = f

/-- `user_vm_unmap` keeps its promise: it returns, the tables are still well
    formed, the pages of the range are unmapped, nothing else is, and the frames
    it pushed on the free list are the ones mapped in the range, if `free` asks
    for that, and none otherwise. -/
def UnmapCorrect (R : Set Ppn) (r : Ppn) (va size : Word) (free : Bool) (s : Phys)
    (fl : List Ppn) : Prop :=
  ∃ s' pushed, userVmUnmap (addr r) va size free s = .ret () s' ∧
    Tables R s' (pushed ++ fl) ∧
    (∀ v, PageIn va size v → translate s'.mem r v = none) ∧
    (∀ r' ∈ R, ∀ v, ¬ (r' = r ∧ PageIn va size v) →
      translate s'.mem r' v = translate s.mem r' v) ∧
    ∀ f, f ∈ pushed ↔ free = true ∧ MappedIn s.mem r va size f

/-- The pages of the range that make `user_vm_unmap` keep its promise: the first
    one is mapped to a managed frame that is neither a table nor free already, and
    no other page is mapped. -/
def OnlyFirst (R : Set Ppn) (r : Ppn) (va size : Word) (s : Phys) (fl : List Ppn) : Prop :=
  ∃ w, translate s.mem r (vpn va) = some w ∧
    s.freeMemStartAddr ≤ addr (ptePpn w) ∧ addr (ptePpn w) < s.freeMemEndAddr ∧
    ptePpn w ∉ tablePages s.mem R ∧ ptePpn w ∉ fl ∧
    ∀ v, PageIn va size v → v ≠ vpn va → translate s.mem r v = none

/-! ## The body -/

/-- The memory after `free_page` of the frame `f`. -/
def Phys.push (s : Phys) (f : Ppn) : Phys :=
  { s with mem := store64 s.mem (addr f) s.gFreeMemList, gFreeMemList := addr f }

theorem Phys.push_of_ne {f p : Ppn} (h : p ≠ f) : (s.push f).mem p = s.mem p :=
  store64_of_ne (by rwa [ppn_addr])

theorem Phys.push_link (s : Phys) (f : Ppn) : (s.push f).mem f 0 = s.gFreeMemList := by
  simp [Phys.push, store64_addr]

/-- The memory after `user_vm_unmap` for the page `v`, whose entry in the table `q` names
    the frame `f`. -/
def released (s : Phys) (q f : Ppn) (v : Vpn) : Phys :=
  writeLeaf (s.push f) q v ((s.push f).mem q (px 0 v) ^^^ PTE_V)

/-- What a run that returns has done, whatever the entry was. -/
theorem userVmUnmap_ret (h : Tables R s fl) (hr : r ∈ R) {free : Bool} :
    Prog.wp (userVmUnmap (addr r) va size free)
      (fun _ s' => ∃ q f, nodeAt ptePage s.mem r (vpath 2 (vpn va)) = some q ∧
        ptePpn (s.mem q (px 0 (vpn va))) = f ∧
        (s.freeMemStartAddr ≤ addr f ∧ addr f < s.freeMemEndAddr) ∧
        s' = released s q f (vpn va))
      (fun _ => False) (fun _ => True) s := by
  unfold Prog.wp
  by_cases hva : va < MAXVA
  · rw [userVmUnmap, Prog.bind_of_ret (pageWalk_lookup hva r s)]
    cases hq : nodeAt ptePage s.mem r (vpath 2 (vpn va)) with
    | none => trivial
    | some q =>
      have hqtab : q ∈ tablePages s.mem R := mem_nodes hr (vpath_length 2 _).le hq
      have hread : ∀ s₁ : Phys, load (slot (addr q) (px 0 (vpn va))) s₁ =
          .ret (s₁.mem q (px 0 (vpn va))) s₁ := fun s₁ => by
        rw [load, Prog.gets_apply, load64_slot]
      dsimp only
      rw [if_neg (slot_ne_zero (h.nonnull q hqtab) _), Prog.bind_of_ret (hread s), PTE2PA_eq]
      generalize hf : ptePpn (s.mem q (px 0 (vpn va))) = f
      -- `free_page` panics unless the address is that of a page
      rcases freePage_cases s (addr f + (va &&& 0xFFF#64)) with hfree | ⟨hal, hlo, hhi, hfree⟩
      · rw [Prog.bind_of_halt hfree]
        trivial
      · rw [ppn_addr_add _ (offset_lt va)] at hal
        rw [hal] at hlo hhi hfree
        rw [hal, Prog.bind_of_ret hfree, Prog.bind_of_ret (hread _)]
        exact ⟨q, f, rfl, hf, ⟨hlo, hhi⟩, rfl⟩
  · rw [userVmUnmap, pageWalk, if_pos (BitVec.not_lt.mp hva)]
    trivial

/-- A run for a page whose entry, valid or not, names the frame `f`. -/
theorem userVmUnmap_entry (h : Tables R s fl) (hr : r ∈ R) {q f : Ppn}
    (hq : nodeAt ptePage s.mem r (vpath 2 (vpn va)) = some q)
    (hf : ptePpn (s.mem q (px 0 (vpn va))) = f) (size : Word) (free : Bool) :
    Prog.wp (userVmUnmap (addr r) va size free) (fun _ s' => s' = released s q f (vpn va))
      (fun _ => False)
      (fun _ => ¬ (va < MAXVA ∧ va % PGSIZE = 0 ∧ s.freeMemStartAddr ≤ addr f ∧
        addr f < s.freeMemEndAddr)) s := by
  have hqtab : q ∈ tablePages s.mem R := mem_nodes hr (vpath_length 2 _).le hq
  have hread : ∀ s₁ : Phys, load (slot (addr q) (px 0 (vpn va))) s₁ =
      .ret (s₁.mem q (px 0 (vpn va))) s₁ := fun s₁ => by
    rw [load, Prog.gets_apply, load64_slot]
  by_cases hok : va < MAXVA ∧ va % PGSIZE = 0 ∧ s.freeMemStartAddr ≤ addr f ∧
      addr f < s.freeMemEndAddr
  · obtain ⟨hva, hal, hlo, hhi⟩ := hok
    have hpa : PTE2PA (s.mem q (px 0 (vpn va))) + (va &&& 0xFFF#64) = addr f := by
      rw [and_mask, hal, PTE2PA_eq, hf]
      exact BitVec.add_zero _
    unfold Prog.wp
    rw [userVmUnmap, Prog.bind_of_ret (pageWalk_lookup hva r s), hq]
    dsimp only
    rw [if_neg (slot_ne_zero (h.nonnull q hqtab) _), Prog.bind_of_ret (hread s), hpa,
      Prog.bind_of_ret (freePage_of_range hlo hhi), Prog.bind_of_ret (hread _)]
    rfl
  · refine Prog.wp_mono (userVmUnmap_ret h hr) ?_ (fun _ h => h) fun _ _ => hok
    rintro _ s' ⟨q', f', hq', hf', -, rfl⟩
    obtain rfl : q = q' := Option.some.inj (hq.symm.trans hq')
    rw [← hf, hf']

section Released

variable {q f : Ppn} {v : Vpn} (h : Tables R s fl) (hr : r ∈ R)
  (hq : nodeAt ptePage s.mem r (vpath 2 v) = some q) (hf : f ∉ tablePages s.mem R)

include h hr hq hf

theorem released_tablePages : tablePages (released s q f v).mem R = tablePages s.mem R := by
  have hpush : ∀ p ∈ tablePages s.mem R, (s.push f).mem p = s.mem p := fun p hp =>
    Phys.push_of_ne fun e => hf (e ▸ hp)
  have hq₁ : nodeAt ptePage (s.push f).mem r (vpath 2 v) = some q :=
    (nodeAt_congr hr hpush _ (by simp)).trans hq
  exact ((h.forest.frame hpush).nodes_write hr hq₁ (vpath_length 2 v) fun _ hp =>
    writeLeaf_of_ne hp _).trans (nodes_congr hpush)

/-- Only the entry for `v` is another one. -/
theorem released_leaf {r' : Ppn} (hr' : r' ∈ R) {v' : Vpn} (hne : ¬ (r' = r ∧ v' = v)) :
    translate (released s q f v).mem r' v' = translate s.mem r' v' := by
  have hpush : ∀ p ∈ tablePages s.mem R, (s.push f).mem p = s.mem p := fun p hp =>
    Phys.push_of_ne fun e => hf (e ▸ hp)
  have hq₁ : nodeAt ptePage (s.push f).mem r (vpath 2 v) = some q :=
    (nodeAt_congr hr hpush _ (by simp)).trans hq
  rw [released, translate_writeLeaf (h.forest.frame hpush) hr hq₁ _ hr', if_neg hne,
    translate_congr hpush hr']

end Released

/-! ## A run that keeps the promise -/

section Kept

variable {q f : Ppn} {pushed : List Ppn} {free : Bool}

/-- The frame that is pushed was no table: it would still be one. -/
theorem pushed_not_table (h : Tables R s fl) (hr : r ∈ R)
    (hq : nodeAt ptePage s.mem r (vpath 2 (vpn va)) = some q) {w : Word}
    (hT : Tables R (writeLeaf (s.push f) q (vpn va) w) fl') (hf : f ∈ fl') :
    f ∉ tablePages s.mem R := by
  intro hftab
  refine hT.apart f ?_ hf
  refine h.forest.mem_nodes_write hr hq (vpath_length 2 _) hftab fun p hpf hpq => ?_
  rw [writeLeaf_of_ne hpq, Phys.push_of_ne hpf]

/-- The frame of the entry is the only page that is pushed. -/
theorem pushed_eq (h : Tables R s fl) (hqtab : q ∈ tablePages s.mem R) (hqf : q ≠ f) {w : Word}
    (hfree : FreeList (writeLeaf (s.push f) q (vpn va) w) (pushed ++ fl)) (h0 : f ≠ 0) :
    pushed = [f] := by
  refine Chain.push_unique addr_injective h.free (fun e => h0 (addr_eq_zero.mp e)) ?_ ?_ hfree
  · show (writeLeaf (s.push f) q (vpn va) w).mem f 0 = s.gFreeMemList
    rw [writeLeaf_of_ne hqf.symm, Phys.push_link]
  · intro p hp hpf
    show (writeLeaf (s.push f) q (vpn va) w).mem p 0 = s.mem p 0
    have hpq : p ≠ q := fun e => h.apart q hqtab (e ▸ hp)
    rw [writeLeaf_of_ne hpq, Phys.push_of_ne hpf]

theorem valid_of_toggled {w : Word} (h : (w ^^^ PTE_V) &&& PTE_V = 0) : w &&& PTE_V ≠ 0 := by
  intro hw
  rw [show PTE_V = 1#64 from rfl] at *
  have h0 := congrArg (fun x : Word => x[0]) h
  have hw0 := congrArg (fun x : Word => x[0]) hw
  simp at h0 hw0
  rw [hw0] at h0
  cases h0

theorem PageIn.self (hal : va % PGSIZE = 0) (hsize : size % PGSIZE = 0) (hpos : size ≠ 0)
    (hmax : va.toNat + size.toNat ≤ MAXVA.toNat) : PageIn va size (vpn va) := by
  have hMAXVA : MAXVA.toNat = 2 ^ 38 := rfl
  have h0 : size.toNat ≠ 0 := fun e => hpos (BitVec.eq_of_toNat_eq e)
  have hs := toNat_mod_PGSIZE hsize
  have ha := toNat_mod_PGSIZE hal
  rw [PageIn, vpn_toNat (by omega)]
  omega

/-- A run that keeps the promise had little to do. -/
theorem UnmapCorrect.onlyFirst (hc : UnmapCorrect R r va size free s fl) (h : Tables R s fl)
    (hr : r ∈ R) (hstart : s.freeMemStartAddr ≠ 0) (hself : PageIn va size (vpn va)) :
    free = true ∧ OnlyFirst R r va size s fl := by
  obtain ⟨s', pushed, hrun, hT, hin, -, hpushed⟩ := hc
  obtain ⟨q, f, hq, rfl, ⟨hlo, hhi⟩, rfl⟩ := Prog.wp_ret (userVmUnmap_ret h hr) hrun
  generalize hw : s.mem q (px 0 (vpn va)) = w at *
  have hqtab : q ∈ tablePages s.mem R := mem_nodes hr (vpath_length 2 _).le hq
  have h0 : ptePpn w ≠ 0 := by
    intro h0
    rw [h0, BitVec.le_def] at hlo
    exact hstart (BitVec.eq_of_toNat_eq (Nat.le_zero.mp hlo))
  have hhead : ptePpn w ∈ pushed ++ fl := hT.free.head_mem rfl h0
  have htab := pushed_not_table h hr hq hT hhead
  have hqf : q ≠ ptePpn w := fun e => htab (e ▸ hqtab)
  obtain rfl := pushed_eq h hqtab hqf hT.free h0
  have hfl : ptePpn w ∉ fl := (List.nodup_cons.mp hT.free.nodup).1
  have hmemT : ∀ p ∈ tablePages s.mem R, (s.push (ptePpn w)).mem p = s.mem p := fun p hp =>
    Phys.push_of_ne fun e => htab (e ▸ hp)
  have hq₁ : nodeAt ptePage (s.push (ptePpn w)).mem r (vpath 2 (vpn va)) = some q :=
    (nodeAt_congr hr hmemT _ (by simp)).trans hq
  rw [released, Phys.push_of_ne hqf, hw] at hin
  have hleaf := fun v => translate_writeLeaf (h.forest.frame hmemT) hr hq₁ (w ^^^ PTE_V) hr v
  -- the toggled entry is invalid, so the entry was valid
  have hV : w &&& PTE_V ≠ 0 := by
    refine valid_of_toggled (not_not.mp fun hV => ?_)
    have := (hleaf (vpn va)).symm.trans (hin _ hself)
    rw [if_pos ⟨rfl, rfl⟩, if_pos hV] at this
    cases this
  refine ⟨((hpushed _).mp List.mem_cons_self).1, w, ?_, hlo, hhi, htab, hfl, fun v hv hne => ?_⟩
  · exact leafAt_eq_some.mpr ⟨q, hq, hw, ptePage_isSome.mpr hV⟩
  · have := (hleaf v).symm.trans (hin v hv)
    rwa [if_neg fun e => hne e.2, translate_congr hmemT hr] at this

theorem OnlyFirst.unmapCorrect (ho : OnlyFirst R r va size s fl) (h : Tables R s fl)
    (hr : r ∈ R) (hstart : s.freeMemStartAddr ≠ 0) (hva : va < MAXVA) (hal : va % PGSIZE = 0)
    (hself : PageIn va size (vpn va)) : UnmapCorrect R r va size true s fl := by
  obtain ⟨w, hw, hlo, hhi, htab, hfl, hother⟩ := ho
  obtain ⟨_, s', hrun, hun⟩ := Prog.returns_of_wp
    (userVmUnmap_mapped h hr hw htab hfl hstart size true) fun _ hn => hn ⟨hva, hal, hlo, hhi⟩
  refine ⟨s', [ptePpn w], hrun, hun.tables, fun v hv => ?_, fun r' hr' v hv => ?_, fun f => ?_⟩
  · rw [hun.leaf r hr v]
    split
    · rfl
    · rename_i hne
      exact hother v hv fun e => hne ⟨rfl, e⟩
  · rw [hun.leaf r' hr' v, if_neg]
    rintro ⟨rfl, rfl⟩
    exact hv ⟨rfl, hself⟩
  · rw [List.mem_singleton]
    constructor
    · rintro rfl
      exact ⟨rfl, vpn va, w, hself, hw, rfl⟩
    · rintro ⟨-, v, w', hv, hw', rfl⟩
      by_cases hne : v = vpn va
      · rw [hne, hw] at hw'
        rw [Option.some_inj.mp hw']
      · rw [hother v hv hne] at hw'
        cases hw'

end Kept

/-- **When `user_vm_unmap` keeps its promise.** For any set `R` of well-formed
    page tables, a page-aligned range below `MAXVA` and any `free`: exactly if
    `free` is set, the first page of the range is mapped to a managed frame that is
    neither a table nor free already, and no other page of the range is mapped. -/
theorem userVmUnmap_correct_iff (h : Tables R s fl) (hr : r ∈ R)
    (hstart : s.freeMemStartAddr ≠ 0) (hal : va % PGSIZE = 0) (hsize : size % PGSIZE = 0)
    (hpos : size ≠ 0) (hmax : va.toNat + size.toNat ≤ MAXVA.toNat) (free : Bool) :
    UnmapCorrect R r va size free s fl ↔ free = true ∧ OnlyFirst R r va size s fl := by
  have h0 : size.toNat ≠ 0 := fun e => hpos (BitVec.eq_of_toNat_eq e)
  have hva : va < MAXVA := BitVec.lt_def.mpr (by omega)
  have hself := PageIn.self hal hsize hpos hmax
  constructor
  · exact fun hc => hc.onlyFirst h hr hstart hself
  · rintro ⟨rfl, ho⟩
    exact ho.unmapCorrect h hr hstart hva hal hself

/-- `samplePhys` with a larger managed range. -/
def widePhys : Phys := { samplePhys with freeMemEndAddr := addr 0x80010 }

theorem widePhys_tables : Tables {0x80001} widePhys [0x80002, 0x80003] :=
  samplePhys_tables.congr (fun _ _ => rfl) samplePhys_tables.free samplePhys_tables.apart

theorem samplePhys_tablePages : tablePages widePhys.mem {0x80001} = {0x80001} := by
  rw [← insert_empty_eq]
  refine (nodes_insert_of_empty fun i =>
    ptePage_of_invalid (by simp [widePhys, samplePhys])).trans ?_
  congr 1
  refine Set.eq_empty_of_forall_notMem ?_
  rintro p ⟨_, hr, _⟩
  exact hr

/-- A page that has just been mapped is unmapped as promised. -/
theorem userVmUnmap_correct_sample :
    ∃ s' fl', mapPages (addr 0x80001) 0x400000 PGSIZE 0x80009000
        (protToType (PROT_READ ||| PROT_WRITE) 1) widePhys = .ret 0 s' ∧
      UnmapCorrect {0x80001} 0x80001 0x400000 PGSIZE true s' fl' := by
  have hroot : (0x80001 : Ppn) ∈ ({0x80001} : Set Ppn) := rfl
  obtain ⟨s', fl', hrun, hmap⟩ := mapPages_one_eq widePhys_tables hroot
    (Or.inr ⟨rfl, by decide⟩ : OnePage 0x400000 PGSIZE) (by decide) (samplePhys_translate _)
    le_rfl 0x80009000 (protToType (PROT_READ ||| PROT_WRITE) 1)
  have hframe : ptePpn (mkPte 0x80009000 (protToType (PROT_READ ||| PROT_WRITE) 1)) = 0x80009 := by
    decide
  have hstart : s'.freeMemStartAddr = addr 0x80001 := hmap.grow.start
  have hend : s'.freeMemEndAddr = addr 0x80010 := hmap.grow.last
  obtain ⟨new, hfl, hnew⟩ := hmap.grow.popped
  have hnot : (0x80009 : Ppn) ∉ [0x80002, 0x80003] := by decide
  refine ⟨s', fl', hrun, (userVmUnmap_correct_iff hmap.grow.tables hroot ?_ (by decide)
    (by decide) (by decide) (by decide) true).mpr ⟨rfl, _, (hmap.leaf _ hroot _).trans
      (if_pos ⟨rfl, rfl⟩), ?_, ?_, ?_, ?_, fun v hv hne => ?_⟩⟩
  · rw [hstart]
    decide
  · rw [hframe, hstart]
    decide
  · rw [hframe, hend]
    decide
  · rw [hframe, hnew, samplePhys_tablePages]
    rintro (hp | hp)
    · exact absurd hp (by decide)
    · exact hnot (hfl ▸ List.mem_append_left fl' hp)
  · rw [hframe]
    exact fun hp => hnot (hfl ▸ List.mem_append_right new hp)
  · rw [hmap.leaf _ hroot, if_neg fun e => hne e.2]
    exact samplePhys_translate v

/-- The first page of a range whose tables are missing makes it fault. -/
theorem userVmUnmap_missing :
    ¬ UnmapCorrect {0x80001} 0x80001 0x400000 PGSIZE true samplePhys [0x80002, 0x80003] := by
  intro hc
  have hself : PageIn 0x400000 PGSIZE (vpn 0x400000) :=
    PageIn.self (by decide) (by decide) (by decide) (by decide)
  obtain ⟨-, w, hw, -⟩ := hc.onlyFirst samplePhys_tables rfl (by decide)
    hself
  rw [samplePhys_translate] at hw
  cases hw

end Pke
