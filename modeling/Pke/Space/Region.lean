import Pke.Space.Ops
import Pke.Kernel.Process

/-!
# Recording regions

`mapped_info` is an array of pairs of doublewords in one page; recording a region
writes one pair and leaves the others alone.
-/

namespace Pke

open Lib

variable {L : Layout} {a : AddrSpace} {m : Mem}

theorem load_dword_store (m : Mem) (f v : Word) {j k : ℕ} (hj : j < 2 ^ 32) (hk : k < 2 ^ 32) :
    load64 (store64 m (f + BitVec.ofNat 64 (8 * j)) v) (f + BitVec.ofNat 64 (8 * k)) =
      if k = j then v else load64 m (f + BitVec.ofNat 64 (8 * k)) := by
  rw [load64_store64]
  simp only [dword_inj f hj hk, eq_comm]

theorem regionAddr_eq (mi : Word) (k : ℕ) :
    regionAddr mi k = mi + BitVec.ofNat 64 (8 * (2 * k)) := by
  rw [regionAddr]
  congr 2
  omega

theorem regionAddr_add_eq (mi : Word) (k : ℕ) :
    regionAddr mi k + 8 = mi + BitVec.ofNat 64 (8 * (2 * k + 1)) := by
  rw [regionAddr, BitVec.add_assoc]
  congr 1
  rw [show 8 * (2 * k + 1) = 16 * k + 8 by omega, BitVec.ofNat_add]
  rfl

/-! ## One region -/

/-- Memory after region `k` was recorded. -/
def recordRegion (m : Mem) (a : AddrSpace) (k : ℕ) (va : Word) (npages : BitVec 32)
    (seg : SegType) : Mem :=
  store64 (store64 m (regionAddr a.mappedInfo k) va) (regionAddr a.mappedInfo k + 8)
    (regionWord npages seg)

theorem storeRegion_eq (ph : Phys) (k : ℕ) (va : Word) (npages : BitVec 32) (seg : SegType) :
    storeRegion (regionAddr a.mappedInfo k) va npages seg ph =
      .ret () { ph with mem := recordRegion ph.mem a k va npages seg } := rfl

variable {va : Word} {npages : BitVec 32} {seg : SegType}

theorem recordRegion_of_ne (ha : a.Aligned) {k : ℕ} (hk : k < 256) {q : Ppn}
    (hq : q ≠ a.own .info) : recordRegion m a k va npages seg q = m q := by
  have h0 := regionAddr_ppn ha (o := 0) hk (by omega)
  have h8 : ppn (regionAddr a.mappedInfo k + 8) = a.own .info :=
    regionAddr_ppn ha (o := 8) hk (by omega)
  rw [BitVec.add_zero] at h0
  rw [recordRegion, store64_of_ne (by rwa [h8]), store64_of_ne (by rwa [h0])]

/-- Recording a region works on one page. -/
theorem recordRegion_congr (ha : a.Aligned) {k : ℕ} (hk : k < 256) {m' : Mem}
    (hm : m' (a.own .info) = m (a.own .info)) :
    recordRegion m' a k va npages seg (a.own .info) =
      recordRegion m a k va npages seg (a.own .info) := by
  have h0 := regionAddr_ppn ha (o := 0) hk (by omega)
  have h8 : ppn (regionAddr a.mappedInfo k + 8) = a.own .info :=
    regionAddr_ppn ha (o := 8) hk (by omega)
  rw [BitVec.add_zero] at h0
  simp only [recordRegion, store64, h0, h8, Function.update_self, hm]

theorem regionVa_recordRegion {j k : ℕ} (hj : j < 256) (hk : k < 256) :
    regionVa (recordRegion m a j va npages seg) a k = if k = j then va else regionVa m a k := by
  rw [regionVa, regionVa, recordRegion, regionAddr_add_eq, regionAddr_eq, regionAddr_eq,
    load_dword_store _ _ _ (by omega) (by omega), if_neg (by omega),
    load_dword_store _ _ _ (by omega) (by omega)]
  simp only [show (2 * k = 2 * j) ↔ k = j by omega]

theorem regionSecond_recordRegion {j k : ℕ} (hj : j < 256) (hk : k < 256) :
    regionSecond (recordRegion m a j va npages seg) a k =
      if k = j then regionWord npages seg else regionSecond m a k := by
  rw [regionSecond, regionSecond, recordRegion, regionAddr_add_eq, regionAddr_add_eq,
    regionAddr_eq, load_dword_store _ _ _ (by omega) (by omega),
    load_dword_store _ _ _ (by omega) (by omega)]
  simp only [show (2 * k + 1 = 2 * j + 1) ↔ k = j by omega,
    show ¬ (2 * k + 1 = 2 * j) by omega, if_false]

theorem regionWord_toNat (npages : BitVec 32) (seg : SegType) :
    (regionWord npages seg).toNat = npages.toNat + seg.code.toNat * 2 ^ 32 := by
  have h1 := npages.isLt
  have h2 := seg.code.isLt
  rw [regionWord, BitVec.toNat_or, BitVec.toNat_shiftLeft, BitVec.toNat_setWidth,
    BitVec.toNat_setWidth, Nat.shiftLeft_eq, Nat.mod_eq_of_lt (by omega : npages.toNat < 2 ^ 64),
    Nat.mod_eq_of_lt (by omega : seg.code.toNat < 2 ^ 64), Nat.mod_eq_of_lt (by omega),
    Nat.or_comm, Nat.mul_comm, ← Nat.two_pow_add_eq_or_of_lt h1]
  omega

theorem regionWord_seg (npages : BitVec 32) (seg : SegType) :
    segTypeOf ((regionWord npages seg >>> 32).setWidth 32) = some seg := by
  have hcode : ((regionWord npages seg >>> 32).setWidth 32 : BitVec 32) = seg.code := by
    apply BitVec.eq_of_toNat_eq
    have h1 := npages.isLt
    have h2 := seg.code.isLt
    rw [BitVec.toNat_setWidth, BitVec.toNat_ushiftRight, regionWord_toNat,
      Nat.shiftRight_eq_div_pow]
    omega
  rw [hcode]
  cases seg <;> rfl

theorem regionWord_pages (npages : BitVec 32) (seg : SegType) :
    (regionWord npages seg).setWidth 32 = npages := by
  apply BitVec.eq_of_toNat_eq
  have h1 := npages.isLt
  rw [BitVec.toNat_setWidth, regionWord_toNat]
  omega

theorem regionSeg_recordRegion {j k : ℕ} (hj : j < 256) (hk : k < 256) :
    regionSeg (recordRegion m a j va npages seg) a k =
      if k = j then some seg else regionSeg m a k := by
  rw [regionSeg, regionSecond_recordRegion hj hk]
  split_ifs
  · exact regionWord_seg npages seg
  · rfl

theorem regionPages_recordRegion {j k : ℕ} (hj : j < 256) (hk : k < 256) :
    regionPages (recordRegion m a j va npages seg) a k =
      if k = j then npages else regionPages m a k := by
  rw [regionPages, regionSecond_recordRegion hj hk]
  split_ifs
  · exact regionWord_pages npages seg
  · rfl

/-! ## Lists of regions -/

theorem regionOk_recordRegion_of_ne {j k : ℕ} (hj : j < 256) (hk : k < 256) (hne : k ≠ j) :
    RegionOk L (recordRegion m a j va npages seg) a k ↔ RegionOk L m a k := by
  rw [RegionOk, RegionOk, regionSeg_recordRegion hj hk, regionVa_recordRegion hj hk,
    regionPages_recordRegion hj hk, if_neg hne, if_neg hne, if_neg hne]

/-- Recording a region behind the first three. The entry behind the list may
    become part of it. -/
theorem Regions.record {n j : ℕ} (h : Regions L m a n) (h3 : 3 ≤ j) (hj : j ≤ n) (hn : n < 256)
    (hok : RegionOk L (recordRegion m a j va npages seg) a j)
    (hnext : j ≠ n → RegionOk L m a n) :
    Regions L (recordRegion m a j va npages seg) a (n + 1) := by
  have hlo := h.lo
  refine ⟨by omega, by omega, ?_, ?_, ?_, fun k hk3 hk => ?_⟩
  · rw [regionVa_recordRegion (by omega) (by omega), regionSeg_recordRegion (by omega) (by omega),
      if_neg (by omega), if_neg (by omega)]
    exact h.stack
  · rw [regionVa_recordRegion (by omega) (by omega), regionSeg_recordRegion (by omega) (by omega),
      if_neg (by omega), if_neg (by omega)]
    exact h.context
  · rw [regionVa_recordRegion (by omega) (by omega), regionSeg_recordRegion (by omega) (by omega),
      if_neg (by omega), if_neg (by omega)]
    exact h.system
  · by_cases hkj : k = j
    · subst hkj
      exact hok
    · rw [regionOk_recordRegion_of_ne (by omega) (by omega) hkj]
      by_cases hkn : k = n
      · subst hkn
        exact hnext fun e => hkj e.symm
      · exact h.rest k hk3 (by omega)

/-- The three regions that `alloc_process` records. -/
theorem Regions.initial :
    Regions L (recordRegion (recordRegion (recordRegion m a 0 (USER_STACK_TOP - PGSIZE) 1 .STACK)
      a 1 a.trapframe 1 .CONTEXT) a 2 L.trapSecStart 1 .SYSTEM) a 3 := by
  refine ⟨le_rfl, by omega, ⟨?_, ?_⟩, ⟨?_, ?_⟩, ⟨?_, ?_⟩, fun k h3 hk => absurd hk (by omega)⟩
  · rw [regionVa_recordRegion (by omega) (by omega), regionVa_recordRegion (by omega) (by omega),
      regionVa_recordRegion (by omega) (by omega)]
    rfl
  · rw [regionSeg_recordRegion (by omega) (by omega), regionSeg_recordRegion (by omega) (by omega),
      regionSeg_recordRegion (by omega) (by omega)]
    rfl
  · rw [regionVa_recordRegion (by omega) (by omega), regionVa_recordRegion (by omega) (by omega)]
    rfl
  · rw [regionSeg_recordRegion (by omega) (by omega), regionSeg_recordRegion (by omega) (by omega)]
    rfl
  · rw [regionVa_recordRegion (by omega) (by omega)]
    rfl
  · rw [regionSeg_recordRegion (by omega) (by omega)]
    rfl

end Pke
