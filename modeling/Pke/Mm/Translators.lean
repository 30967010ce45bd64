import Pke.Mm.Single

/-!
# The two address translators

`lookup_pa` tests the address, the valid bit and the permissions of the entry it
finds; `user_va_to_pa` tests none of them. The last section says exactly when the
two agree at an address.
-/

namespace Pke

open Lib Radix

variable {R : Set Ppn} {s : Phys} {fl : List Ppn} {r : Ppn} {va w : Word}

/-- The third-level entry for `va`, valid or not, when its table exists. -/
def leafEntry (m : Mem) (r : Ppn) (va : Word) : Option Word :=
  (nodeAt ptePage m r (vpath 2 (vpn va))).map fun q => m q (px 0 (vpn va))

/-- No table of the page table is the page 0, which `page_walk` returns for a failure. -/
def TablesNonnull (m : Mem) (r : Ppn) : Prop := ∀ p ∈ tablePages m {r}, p ≠ 0

theorem Tables.tablesNonnull (h : Tables R s fl) (hr : r ∈ R) : TablesNonnull s.mem r := by
  rintro p ⟨r', rfl, hp⟩
  exact h.nonnull p ⟨r', hr, hp⟩

theorem translate_eq_leafEntry (m : Mem) (r : Ppn) (va : Word) :
    translate m r (vpn va) = (leafEntry m r va).bind fun w =>
      if w &&& PTE_V ≠ 0 then some w else none := by
  unfold leafEntry
  cases hq : nodeAt ptePage m r (vpath 2 (vpn va)) with
  | none => rw [translate, leafAt, hq]; rfl
  | some q =>
    rw [translate, leafAt_of_nodeAt hq]
    simp only [ptePage_isSome]
    rfl

theorem frame_add_offset_eq_zero : PTE2PA w + va % PGSIZE = 0 ↔ ptePpn w = 0 ∧ va % PGSIZE = 0 := by
  rw [PTE2PA_eq, ← and_mask]
  constructor
  · intro h
    have hsum := addr_add_toNat (ptePpn w) (offset_lt va)
    rw [h] at hsum
    have h0 : 0 = (ptePpn w).toNat * 4096 + (va &&& 0xFFF#64).toNat := hsum
    exact ⟨BitVec.eq_of_toNat_eq (show (ptePpn w).toNat = 0 by omega),
      BitVec.eq_of_toNat_eq (show (va &&& 0xFFF#64).toNat = 0 by omega)⟩
  · rintro ⟨h1, h2⟩
    rw [h1, h2]
    rfl

/-! ## What the translators answer -/

theorem userVaToPa_eq (h : TablesNonnull s.mem r) (hva : va < MAXVA) :
    userVaToPa (addr r) va s = .ret (match leafEntry s.mem r va with
      | some w => PTE2PA w + va % PGSIZE
      | none => 0) s := by
  rw [userVaToPa, Prog.bind_of_ret (pageWalk_lookup hva r s), leafEntry]
  cases hq : nodeAt ptePage s.mem r (vpath 2 (vpn va)) with
  | none =>
    rw [if_pos rfl]
    rfl
  | some q =>
    have hq0 : slot (addr q) (px 0 (vpn va)) ≠ 0 :=
      slot_ne_zero (h q (mem_nodes rfl (vpath_length 2 _).le hq)) _
    dsimp only [Option.map_some]
    rw [if_neg hq0, load, Prog.bind_of_ret (Prog.gets_apply _ _), load64_slot, and_mask]
    rfl

theorem userVaToPa_of_ge (hva : ¬ va < MAXVA) :
    userVaToPa (addr r) va s = .halt (.panic "page_walk" []) := by
  rw [userVaToPa, pageWalk, if_pos (BitVec.not_lt.mp hva)]
  rfl

/-- The answer of `lookup_pa` for an entry. -/
def entryAnswer (w : Word) : Word :=
  if w &&& PTE_V = 0 ∨ (w &&& PTE_R = 0 ∧ w &&& PTE_W = 0) then 0 else PTE2PA w

theorem lookupPa_leafEntry (h : TablesNonnull s.mem r) (hva : va < MAXVA) :
    lookupPa (addr r) va s = .ret (match leafEntry s.mem r va with
      | some w => entryAnswer w
      | none => 0) s := by
  rw [lookupPa, if_neg (BitVec.not_le.mpr hva), Prog.bind_of_ret (pageWalk_lookup hva r s),
    leafEntry]
  cases hq : nodeAt ptePage s.mem r (vpath 2 (vpn va)) with
  | none =>
    rw [if_pos rfl]
    rfl
  | some q =>
    have hq0 : slot (addr q) (px 0 (vpn va)) ≠ 0 :=
      slot_ne_zero (h q (mem_nodes rfl (vpath_length 2 _).le hq)) _
    dsimp only [Option.map_some]
    rw [if_neg hq0, load, Prog.bind_of_ret (Prog.gets_apply _ _), load64_slot, entryAnswer,
      Prog.ite_apply]
    split_ifs <;> rfl

/-! ## Agreement -/

/-- The translators agree at `va`: on a mapped page they give the same frame, and
    `user_va_to_pa` returns NULL where `lookup_pa` returns 0. -/
def TranslatorsAgree (s : Phys) (r : Ppn) (va : Word) : Prop :=
  ∃ answer, lookupPa (addr r) va s = .ret answer s ∧
    (va < MAXVA → translate s.mem r (vpn va) ≠ none →
      userVaToPa (addr r) va s = .ret (answer + va % PGSIZE) s) ∧
    (answer = 0 → userVaToPa (addr r) va s = .ret 0 s)

/-- The entry maps a frame other than 0 with R or W, or it names frame 0 and the
    address is that of the page. -/
def EntryOk (va w : Word) : Prop :=
  (w &&& PTE_V ≠ 0 ∧ (w &&& PTE_R ≠ 0 ∨ w &&& PTE_W ≠ 0) ∧ ptePpn w ≠ 0) ∨
    (ptePpn w = 0 ∧ va % PGSIZE = 0)

theorem agree_of_entry (h : TablesNonnull s.mem r) (hva : va < MAXVA)
    (hw : leafEntry s.mem r va = some w) : TranslatorsAgree s r va ↔ EntryOk va w := by
  have huser := userVaToPa_eq h hva
  have hlook := lookupPa_leafEntry h hva
  have htrans := translate_eq_leafEntry s.mem r va
  rw [hw] at huser hlook htrans
  dsimp only at huser hlook
  dsimp only [Option.bind_some] at htrans
  have hagree : TranslatorsAgree s r va ↔
      (w &&& PTE_V ≠ 0 → PTE2PA w + va % PGSIZE = entryAnswer w + va % PGSIZE) ∧
        (entryAnswer w = 0 → PTE2PA w + va % PGSIZE = 0) := by
    unfold TranslatorsAgree
    rw [hlook, huser, htrans]
    simp [hva]
  rw [hagree, frame_add_offset_eq_zero, BitVec.add_left_inj, EntryOk, entryAnswer]
  have hframe : PTE2PA w = 0 ↔ ptePpn w = 0 := by
    rw [PTE2PA_eq, addr_eq_zero]
  by_cases hV : w &&& PTE_V = 0
  · simp [hV]
  · by_cases hRW : w &&& PTE_R = 0 ∧ w &&& PTE_W = 0
    · have hno : ¬ (w &&& PTE_R ≠ 0 ∨ w &&& PTE_W ≠ 0) := by
        rw [not_or, not_not, not_not]
        exact hRW
      rw [if_pos (Or.inr hRW), hframe]
      simp only [hno, false_and, and_false, false_or, ne_eq, hV, not_false_eq_true, true_imp_iff]
      exact ⟨fun h => h.2, fun h => ⟨h.1, h⟩⟩
    · have hyes : w &&& PTE_R ≠ 0 ∨ w &&& PTE_W ≠ 0 := by
        rw [← not_and_or]
        exact hRW
      rw [if_neg (not_or.mpr ⟨hV, hRW⟩), hframe]
      simp only [ne_eq, hV, not_false_eq_true, hyes, true_and, imp_true_iff]
      exact imp_iff_not_or

/-- **When the translators agree.** For any page table without a table in page 0,
    whatever the free list is, `user_va_to_pa` and `lookup_pa` agree at `va` if and only
    if `va` is below `MAXVA` and its third-level table is missing, or its entry maps a
    frame other than 0 with R or W, or its entry names frame 0 and `va` is the address of
    a page. -/
theorem translators_agree_iff (h : TablesNonnull s.mem r) (va : Word) :
    TranslatorsAgree s r va ↔
      va < MAXVA ∧ ∀ w, leafEntry s.mem r va = some w → EntryOk va w := by
  by_cases hva : va < MAXVA
  · rw [and_iff_right hva]
    cases hw : leafEntry s.mem r va with
    | none =>
      have huser := userVaToPa_eq h hva
      have hlook := lookupPa_leafEntry h hva
      have htrans := translate_eq_leafEntry s.mem r va
      rw [hw] at huser hlook htrans
      refine iff_of_true ⟨0, hlook, fun _ hne => absurd htrans hne, fun _ => huser⟩ ?_
      exact fun w hw' => absurd hw' (by simp)
    | some w => simpa using agree_of_entry h hva hw
  · refine iff_of_false ?_ fun hc => hva hc.1
    rintro ⟨answer, hlook, -, hnull⟩
    have h0 : answer = 0 := by
      rw [lookupPa, if_pos (BitVec.not_lt.mp hva)] at hlook
      cases hlook
      rfl
    have := hnull h0
    rw [userVaToPa_of_ge hva] at this
    cases this

/-- `samplePhys` with the page 0x400000 mapped. -/
theorem sampleMapped : ∃ s' fl', mapPages (addr 0x80001) 0x400000 PGSIZE 0x80009000
      (protToType (PROT_READ ||| PROT_WRITE) 1) samplePhys = .ret 0 s' ∧
    Tables {0x80001} s' fl' ∧ ∀ v, translate s'.mem 0x80001 v = if v = vpn 0x400000 then
      some (mkPte 0x80009000 (protToType (PROT_READ ||| PROT_WRITE) 1)) else none := by
  have hroot : (0x80001 : Ppn) ∈ ({0x80001} : Set Ppn) := rfl
  obtain ⟨s', fl', hrun, hmap⟩ := mapPages_one_eq samplePhys_tables hroot
    (Or.inr ⟨rfl, by decide⟩ : OnePage 0x400000 PGSIZE) (by decide) (samplePhys_translate _)
    le_rfl 0x80009000 (protToType (PROT_READ ||| PROT_WRITE) 1)
  refine ⟨s', fl', hrun, hmap.grow.tables, fun v => (hmap.leaf _ hroot v).trans ?_⟩
  rw [samplePhys_translate]
  exact if_congr (and_iff_right rfl) rfl rfl

/-- They agree inside the page, and at an address whose third-level table is missing. -/
theorem translators_agree_sample :
    ∃ s', mapPages (addr 0x80001) 0x400000 PGSIZE 0x80009000
        (protToType (PROT_READ ||| PROT_WRITE) 1) samplePhys = .ret 0 s' ∧
      translate s'.mem 0x80001 (vpn 0x400008) ≠ none ∧ TranslatorsAgree s' 0x80001 0x400008 ∧
      TranslatorsAgree samplePhys 0x80001 0x400008 := by
  obtain ⟨s', fl', hrun, hT, hleaf⟩ := sampleMapped
  have hw := (hleaf (vpn 0x400008)).trans (if_pos (by decide))
  refine ⟨s', hrun, by rw [hw]; exact nofun, ?_, ?_⟩
  · refine (translators_agree_iff (hT.tablesNonnull rfl) 0x400008).mpr ⟨by decide, fun w hw' => ?_⟩
    rw [translate_eq_leafEntry, hw', Option.bind_some] at hw
    split_ifs at hw with hV
    obtain rfl := Option.some.inj hw
    exact Or.inl ⟨hV, Or.inl (by decide), by decide⟩
  · refine (translators_agree_iff (samplePhys_tables.tablesNonnull rfl) 0x400008).mpr
      ⟨by decide, fun w hw' => ?_⟩
    have hnone : ptePage (samplePhys.mem 0x80001 (px 2 (vpn 0x400008))) = none :=
      ptePage_of_invalid (by simp [samplePhys])
    rw [leafEntry,
      show vpath 2 (vpn 0x400008) = px 2 (vpn 0x400008) :: vpath 1 (vpn 0x400008) from rfl,
      nodeAt_cons, hnone] at hw'
    cases hw'

/-- Next to a page that `map_pages` has mapped, `user_va_to_pa` makes up an
    address. -/
theorem translators_disagree :
    ∃ s' fl', mapPages (addr 0x80001) 0x400000 PGSIZE 0x80009000
        (protToType (PROT_READ ||| PROT_WRITE) 1) samplePhys = .ret 0 s' ∧
      Tables {0x80001} s' fl' ∧ ¬ TranslatorsAgree s' 0x80001 0x401008 := by
  obtain ⟨s', fl', hrun, hT, hleaf⟩ := sampleMapped
  refine ⟨s', fl', hrun, hT, fun hagree => ?_⟩
  have hpage := (hleaf (vpn 0x400000)).trans (if_pos rfl)
  have hnext := (hleaf (vpn 0x401008)).trans (if_neg (by decide))
  obtain ⟨q, hq, -, -⟩ := leafAt_eq_some.mp hpage
  rw [show vpath 2 (vpn 0x400000) = vpath 2 (vpn 0x401008) by decide] at hq
  have hentry : leafEntry s'.mem 0x80001 0x401008 = some (s'.mem q (px 0 (vpn 0x401008))) := by
    rw [leafEntry, hq]
    rfl
  rcases (agree_of_entry (hT.tablesNonnull rfl) (by decide) hentry).mp hagree with
    ⟨hV, -, -⟩ | ⟨-, hoff⟩
  · rw [translate_eq_leafEntry, hentry, Option.bind_some, if_pos hV] at hnext
    cases hnext
  · exact absurd hoff (by decide)

end Pke
