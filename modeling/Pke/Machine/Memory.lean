import Mathlib.Logic.Function.Basic
import Mathlib.Tactic.Common
import Mathlib.Tactic.IntervalCases

/-!
# Physical memory

Physical memory is a function from a page number and the index of a doubleword
in that page to the doubleword. A 64-bit address is a page number (its upper 52
bits), a doubleword index (the next 9) and a byte in the doubleword (the last
3). The kernel reads and writes doublewords at multiples of 8 (page table
entries, free list links, trapframes, region records); bytes of user data are
the little-endian bytes of the doublewords.

`memset` and `memcpy` are the word loops of `util/string.c`, which is the path
taken for aligned arguments. On whole pages they are single page updates
(`memset_page`, `memcpy_page`).
-/

namespace Pke

/-- The type `uint64`. -/
abbrev Word := BitVec 64

/-- A physical page number. -/
abbrev Ppn := BitVec 52

/-- The index of a doubleword in a page, which is also a page table index. -/
abbrev Idx := BitVec 9

/-- Physical memory, page by page. -/
abbrev Mem := Ppn → Idx → Word

/-- `PGSIZE` (`kernel/riscv.h` line 151). -/
def PGSIZE : Word := 4096#64

/-- The page number of an address. -/
def ppn (a : Word) : Ppn := a.extractLsb' 12 52

/-- The doubleword index of an address in its page. -/
def idx (a : Word) : Idx := a.extractLsb' 3 9

/-- The first address of a page. -/
def addr (p : Ppn) : Word := p.setWidth 64 <<< 12

/-- Address of element `i` of an array of doublewords, `pt + i` in C. -/
def slot (pt : Word) (i : Idx) : Word := pt + i.setWidth 64 * 8#64

/-- Read the doubleword at an address. -/
def load64 (m : Mem) (a : Word) : Word := m (ppn a) (idx a)

/-- Write the doubleword at an address. -/
def store64 (m : Mem) (a v : Word) : Mem :=
  Function.update m (ppn a) (Function.update (m (ppn a)) (idx a) v)

/-- Read the byte at an address. -/
def load8 (m : Mem) (a : Word) : BitVec 8 :=
  (load64 m a >>> (8 * (a.toNat % 8))).setWidth 8

/-- Write the byte at an address. -/
def store8 (m : Mem) (a : Word) (b : BitVec 8) : Mem :=
  let sh := 8 * (a.toNat % 8)
  store64 m a (load64 m a &&& ~~~(0xFF#64 <<< sh) ||| b.setWidth 64 <<< sh)

/-! ## Addresses -/

theorem addr_toNat (p : Ppn) : (addr p).toNat = p.toNat * 4096 := by
  have := p.isLt
  simp [addr, Nat.shiftLeft_eq]; omega

theorem ppn_toNat (a : Word) : (ppn a).toNat = a.toNat / 4096 := by
  simp [ppn, Nat.shiftRight_eq_div_pow]; omega

theorem idx_toNat (a : Word) : (idx a).toNat = a.toNat / 8 % 512 := by
  simp [idx, Nat.shiftRight_eq_div_pow]

@[simp] theorem ppn_addr (p : Ppn) : ppn (addr p) = p := by
  apply BitVec.eq_of_toNat_eq
  rw [ppn_toNat, addr_toNat]; omega

theorem addr_injective : Function.Injective addr :=
  Function.LeftInverse.injective ppn_addr

@[simp] theorem addr_inj {p q : Ppn} : addr p = addr q ↔ p = q := addr_injective.eq_iff

@[simp] theorem addr_zero : addr 0 = 0 := rfl

theorem addr_eq_zero {p : Ppn} : addr p = 0 ↔ p = 0 := by
  rw [← addr_zero, addr_inj]

theorem toNat_mod_PGSIZE {a : Word} (h : a % PGSIZE = 0) : a.toNat % 4096 = 0 := by
  have := congrArg BitVec.toNat h
  rwa [BitVec.toNat_umod] at this

theorem addr_ppn {a : Word} (h : a % PGSIZE = 0) : addr (ppn a) = a := by
  apply BitVec.eq_of_toNat_eq
  have h' : a.toNat % 4096 = 0 := by simpa [PGSIZE] using congrArg BitVec.toNat h
  rw [addr_toNat, ppn_toNat]
  omega

/-- The mask of `ROUNDDOWN` to a page. -/
theorem and_not_mask (a : Word) : a &&& ~~~0xFFF#64 = addr (ppn a) := by
  apply BitVec.eq_of_getLsbD_eq
  intro i hi
  have hm : (0xFFF#64).getLsbD i = decide (i < 12) := by
    rw [show (0xFFF#64) = (BitVec.allOnes 12).setWidth 64 from rfl, BitVec.getLsbD_setWidth,
      BitVec.getLsbD_allOnes]
    simp [hi]
  rw [BitVec.getLsbD_and, BitVec.getLsbD_not, hm, addr, ppn, BitVec.getLsbD_shiftLeft,
    BitVec.getLsbD_setWidth, BitVec.getLsbD_extractLsb']
  by_cases h : i < 12
  · simp [h]
  · simp [h, hi, show 12 + (i - 12) = i by omega, show i - 12 < 52 by omega,
      show i - 12 < 64 by omega]

theorem offset_lt (va : Word) : (va &&& 0xFFF#64).toNat < 4096 := by
  rw [BitVec.toNat_and]
  exact Nat.lt_of_le_of_lt Nat.and_le_right (by decide)

/-- The offset of an address in its page. -/
theorem and_mask (va : Word) : va &&& 0xFFF#64 = va % PGSIZE := by
  apply BitVec.eq_of_toNat_eq
  rw [BitVec.toNat_and, BitVec.toNat_umod, show (0xFFF#64).toNat = 2 ^ 12 - 1 from rfl,
    Nat.and_two_pow_sub_one_eq_mod]
  rfl

@[simp] theorem addr_mod (p : Ppn) : addr p % PGSIZE = 0 := by
  apply BitVec.eq_of_toNat_eq
  rw [BitVec.toNat_umod, addr_toNat]
  simp [PGSIZE]

/-- Inside a page, the page number stays and the doubleword index is the offset. -/
theorem addr_add_toNat (p : Ppn) {o : Word} (ho : o.toNat < 4096) :
    (addr p + o).toNat = p.toNat * 4096 + o.toNat := by
  have := p.isLt
  rw [BitVec.toNat_add, addr_toNat]
  omega

theorem ppn_addr_add (p : Ppn) {o : Word} (ho : o.toNat < 4096) : ppn (addr p + o) = p := by
  apply BitVec.eq_of_toNat_eq
  rw [ppn_toNat, addr_add_toNat p ho]
  omega

theorem idx_addr_add (p : Ppn) {o : Word} (ho : o.toNat < 4096) :
    idx (addr p + o) = (o >>> 3).setWidth 9 := by
  apply BitVec.eq_of_toNat_eq
  rw [idx_toNat, addr_add_toNat p ho]
  simp [Nat.shiftRight_eq_div_pow]
  omega

theorem slot_offset_lt (i : Idx) : (i.setWidth 64 * 8#64).toNat < 4096 := by
  have := i.isLt
  simp [BitVec.toNat_mul]; omega

@[simp] theorem ppn_slot (p : Ppn) (i : Idx) : ppn (slot (addr p) i) = p :=
  ppn_addr_add p (slot_offset_lt i)

@[simp] theorem idx_slot (p : Ppn) (i : Idx) : idx (slot (addr p) i) = i := by
  apply BitVec.eq_of_toNat_eq
  have hi := i.isLt
  rw [idx_toNat, slot, addr_add_toNat p (slot_offset_lt i)]
  simp [BitVec.toNat_mul]; omega

theorem slot_ne_zero {p : Ppn} (hp : p ≠ 0) (i : Idx) : slot (addr p) i ≠ 0 := by
  intro h
  apply hp
  rw [← ppn_slot p i, h]
  rfl

/-! ## Loads and stores -/

@[simp] theorem load64_slot (m : Mem) (p : Ppn) (i : Idx) : load64 m (slot (addr p) i) = m p i := by
  simp [load64]

theorem store64_slot (m : Mem) (p : Ppn) (i : Idx) (v : Word) :
    store64 m (slot (addr p) i) v = Function.update m p (Function.update (m p) i v) := by
  simp [store64]

@[simp] theorem idx_addr (p : Ppn) : idx (addr p) = 0 := by
  apply BitVec.eq_of_toNat_eq
  rw [idx_toNat, addr_toNat]
  simp; omega

/-- The words of a page. -/
theorem load64_word (m : Mem) (p : Ppn) {k : ℕ} (hk : k < 512) :
    load64 m (addr p + BitVec.ofNat 64 (8 * k)) = m p (BitVec.ofNat 9 k) := by
  have ho : (BitVec.ofNat 64 (8 * k)).toNat < 4096 := by
    rw [BitVec.toNat_ofNat]
    omega
  rw [load64, ppn_addr_add _ ho, idx_addr_add _ ho]
  congr 1
  apply BitVec.eq_of_toNat_eq
  simp [Nat.shiftRight_eq_div_pow]
  omega

@[simp] theorem load64_addr (m : Mem) (p : Ppn) : load64 m (addr p) = m p 0 := by
  simp [load64]

theorem store64_addr (m : Mem) (p : Ppn) (v : Word) :
    store64 m (addr p) v = Function.update m p (Function.update (m p) 0 v) := by
  simp [store64]

theorem store64_of_ne {m : Mem} {a v : Word} {p : Ppn} (h : p ≠ ppn a) : store64 m a v p = m p :=
  Function.update_of_ne h _ _

theorem store8_of_ne {m : Mem} {a : Word} {b : BitVec 8} {p : Ppn} (h : p ≠ ppn a) :
    store8 m a b p = m p := store64_of_ne h

/-- Two doubleword accesses meet exactly when the addresses agree up to the byte. -/
theorem load64_store64 (m : Mem) (a b v : Word) :
    load64 (store64 m a v) b = if a >>> 3 = b >>> 3 then v else load64 m b := by
  have key : (ppn b = ppn a ∧ idx b = idx a) ↔ a >>> 3 = b >>> 3 := by
    rw [← BitVec.toNat_inj, ← BitVec.toNat_inj, ← BitVec.toNat_inj, ppn_toNat, ppn_toNat,
      idx_toNat, idx_toNat, BitVec.toNat_ushiftRight, BitVec.toNat_ushiftRight,
      Nat.shiftRight_eq_div_pow, Nat.shiftRight_eq_div_pow]
    omega
  unfold load64 store64
  by_cases hp : ppn b = ppn a
  · by_cases hi : idx b = idx a
    · simp [hp, hi, key.mp ⟨hp, hi⟩]
    · have : ¬ a >>> 3 = b >>> 3 := fun h => hi (key.mpr h).2
      simp [hp, hi, this]
  · have : ¬ a >>> 3 = b >>> 3 := fun h => hp (key.mpr h).1
    simp [hp, this]

/-- Byte `j` of a doubleword. -/
def byteOf (w : Word) (j : ℕ) : BitVec 8 := (w >>> (8 * j)).setWidth 8

/-- The doubleword `w` with byte `j` set to `b`, as `store8` computes it. -/
def setByte (w : Word) (j : ℕ) (b : BitVec 8) : Word :=
  w &&& ~~~(0xFF#64 <<< (8 * j)) ||| b.setWidth 64 <<< (8 * j)

theorem byteOf_setByte (w : Word) (j : ℕ) {k : ℕ} (hk : k < 8) (b : BitVec 8) :
    byteOf (setByte w j b) k = if j = k then b else byteOf w k := by
  have hmask : ∀ n, (0xFF#64).getLsbD n = decide (n < 8) := fun n => by
    rw [show (0xFF#64) = (BitVec.allOnes 8).setWidth 64 from rfl, BitVec.getLsbD_setWidth,
      BitVec.getLsbD_allOnes]
    by_cases hn : n < 8 <;> simp [hn]
    omega
  apply BitVec.eq_of_getLsbD_eq
  intro n hn
  have h64 : 8 * k + n < 64 := by omega
  rw [byteOf, setByte, BitVec.getLsbD_setWidth, BitVec.getLsbD_ushiftRight, BitVec.getLsbD_or,
    BitVec.getLsbD_and, BitVec.getLsbD_not, BitVec.getLsbD_shiftLeft, BitVec.getLsbD_shiftLeft,
    BitVec.getLsbD_setWidth, hmask]
  by_cases hjk : j = k
  · subst hjk
    simp [hn, h64, hn.trans (show 8 < 64 by omega)]
  · rw [if_neg hjk, byteOf, BitVec.getLsbD_setWidth, BitVec.getLsbD_ushiftRight]
    -- the other bytes lie outside the mask
    rcases Nat.lt_or_ge (8 * k + n) (8 * j) with hlt | hge
    · simp [hlt, h64]
    · have hout : ¬ 8 * k + n - 8 * j < 8 := by omega
      have hb : b.getLsbD (8 * k + n - 8 * j) = false := BitVec.getLsbD_of_ge _ _ (by omega)
      simp [hout, h64, hb]

/-- A byte behind a store of a byte. -/
theorem load8_store8 (m : Mem) (a c : Word) (b : BitVec 8) :
    load8 (store8 m a b) c = if a = c then b else load8 m c := by
  change byteOf (load64 (store64 m a (setByte (load64 m a) (a.toNat % 8) b)) c) (c.toNat % 8) = _
  have hslot : a = c ↔ a >>> 3 = c >>> 3 ∧ a.toNat % 8 = c.toNat % 8 := by
    rw [← BitVec.toNat_inj, ← BitVec.toNat_inj, BitVec.toNat_ushiftRight,
      BitVec.toNat_ushiftRight, Nat.shiftRight_eq_div_pow, Nat.shiftRight_eq_div_pow]
    omega
  rw [load64_store64]
  by_cases hword : a >>> 3 = c >>> 3
  · rw [if_pos hword, byteOf_setByte _ _ (Nat.mod_lt _ (by omega))]
    by_cases hac : a = c
    · rw [if_pos hac, if_pos (hslot.mp hac).2]
    · have hmod : a.toNat % 8 ≠ c.toNat % 8 := fun hmod => hac (hslot.mpr ⟨hword, hmod⟩)
      have hload : load64 m a = load64 m c := by
        have hself := load64_store64 m a c (load64 m a)
        rw [if_pos hword] at hself
        rw [← hself, store64]
        unfold load64
        rw [Function.update_eq_self, Function.update_eq_self]
      rw [if_neg hac, if_neg hmod, hload]
      rfl
  · rw [if_neg hword, if_neg fun hac => hword (hslot.mp hac).1]
    rfl

/-! ## `memset` and `memcpy` (`util/string.c`) -/

/-- The doubleword that repeats a byte (`util/string.c` lines 27–30). -/
def memsetWord (byte : Word) : Word :=
  let word := byte &&& 0xFF#64
  let word := word ||| word <<< 8
  let word := word ||| word <<< 16
  word ||| word <<< 16 <<< 16

/-- The call `memset(dest, byte, len)` for aligned `dest` and `len`
    (`util/string.c` lines 25–34): `while (d < dest + len) *d++ = word`. -/
def memset (m : Mem) (dest byte : Word) (len : ℕ) : Mem :=
  (List.range (len / 8)).foldl
    (fun m k => store64 m (dest + BitVec.ofNat 64 (8 * k)) (memsetWord byte)) m

/-- The call `memcpy(dest, src, len)` for aligned arguments (`util/string.c`
    lines 12–18): one doubleword after the other. -/
def memcpy (m : Mem) (dest src : Word) (len : ℕ) : Mem :=
  (List.range (len / 8)).foldl
    (fun m k => store64 m (dest + BitVec.ofNat 64 (8 * k))
      (load64 m (src + BitVec.ofNat 64 (8 * k)))) m

theorem word_offset (p : Ppn) {k : ℕ} (hk : k < 512) :
    addr p + BitVec.ofNat 64 (8 * k) = slot (addr p) (BitVec.ofNat 9 k) := by
  unfold slot
  congr 1
  apply BitVec.eq_of_toNat_eq
  simp [BitVec.toNat_mul]
  omega

theorem memset_words (m : Mem) (p : Ppn) (byte : Word) :
    ∀ n, n ≤ 512 → ∀ q i,
      (List.range n).foldl
        (fun m k => store64 m (addr p + BitVec.ofNat 64 (8 * k)) (memsetWord byte)) m q i =
      if q = p ∧ i.toNat < n then memsetWord byte else m q i := by
  intro n
  induction n with
  | zero => intro _ q i; simp
  | succ n ih =>
    intro hn q i
    rw [List.range_succ, List.foldl_append, List.foldl_cons, List.foldl_nil,
      word_offset p (by omega), store64_slot]
    by_cases hq : q = p
    · subst hq
      rw [Function.update_self]
      by_cases hi : i = BitVec.ofNat 9 n
      · subst hi
        rw [Function.update_self, if_pos]
        exact ⟨rfl, by rw [BitVec.toNat_ofNat, Nat.mod_eq_of_lt (by omega)]; omega⟩
      · have hne : i.toNat ≠ n := by
          rintro rfl
          exact hi (BitVec.ofNat_toNat 9 i ▸ (BitVec.setWidth_eq i).symm)
        rw [Function.update_of_ne hi, ih (by omega)]
        congr 1
        simp only [true_and, eq_iff_iff]
        omega
    · rw [Function.update_of_ne hq, ih (by omega)]
      simp [hq]

theorem memcpy_words (m : Mem) (d s : Ppn) :
    ∀ n, n ≤ 512 → ∀ q i,
      (List.range n).foldl
        (fun m k => store64 m (addr d + BitVec.ofNat 64 (8 * k))
          (load64 m (addr s + BitVec.ofNat 64 (8 * k)))) m q i =
      if q = d ∧ i.toNat < n then m s i else m q i := by
  intro n
  induction n with
  | zero => intro _ q i; simp
  | succ n ih =>
    intro hn q i
    have hlt : (BitVec.ofNat 9 n).toNat = n := by
      rw [BitVec.toNat_ofNat, Nat.mod_eq_of_lt (by omega)]
    rw [List.range_succ, List.foldl_append, List.foldl_cons, List.foldl_nil,
      word_offset d (by omega), word_offset s (by omega), store64_slot, load64_slot]
    by_cases hq : q = d
    · subst hq
      rw [Function.update_self]
      by_cases hi : i = BitVec.ofNat 9 n
      · subst hi
        rw [Function.update_self, ih (by omega), if_neg (by omega), if_pos ⟨rfl, by omega⟩]
      · have hne : i.toNat ≠ n := by
          rintro rfl
          exact hi (BitVec.ofNat_toNat 9 i ▸ (BitVec.setWidth_eq i).symm)
        rw [Function.update_of_ne hi, ih (by omega)]
        congr 1
        simp only [true_and, eq_iff_iff]
        omega
    · rw [Function.update_of_ne hq, ih (by omega)]
      simp [hq]

/-- Clearing a page. -/
theorem memset_page (m : Mem) (p : Ppn) :
    memset m (addr p) 0 4096 = Function.update m p fun _ => 0 := by
  funext q i
  have h0 : memsetWord 0 = 0 := by decide
  have hi := i.isLt
  rw [memset, memset_words m p 0 (4096 / 8) (by omega), h0]
  by_cases hq : q = p
  · subst hq
    rw [Function.update_self, if_pos ⟨rfl, by omega⟩]
  · rw [Function.update_of_ne hq, if_neg (by simp [hq])]

/-- Copying a page. -/
theorem memcpy_page (m : Mem) (d s : Ppn) :
    memcpy m (addr d) (addr s) 4096 = Function.update m d (m s) := by
  funext q i
  have hi := i.isLt
  rw [memcpy, memcpy_words m d s (4096 / 8) (by omega)]
  by_cases hq : q = d
  · subst hq
    rw [Function.update_self, if_pos ⟨rfl, by omega⟩]
  · rw [Function.update_of_ne hq, if_neg (by simp [hq])]

/-- Clearing the beginning of a page touches no other page. -/
theorem memset_of_ne (m : Mem) {p q : Ppn} (byte : Word) {len : ℕ} (hlen : len ≤ 4096)
    (hq : q ≠ p) : memset m (addr p) byte len q = m q := by
  funext i
  rw [memset, memset_words m p byte (len / 8) (by omega), if_neg (by simp [hq])]

/-- Copying the beginning of a page touches no other page. -/
theorem memcpy_of_ne (m : Mem) {d s q : Ppn} {len : ℕ} (hlen : len ≤ 4096) (hq : q ≠ d) :
    memcpy m (addr d) (addr s) len q = m q := by
  funext i
  rw [memcpy, memcpy_words m d s (len / 8) (by omega), if_neg (by simp [hq])]

end Pke
