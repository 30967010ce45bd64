import Pke.Lib.Written
import Pke.Machine.Memory

/-!
# Moving memory: the code and what it does

`memcpy`, `memset` and `memmove` of `util/string.c`, with all their paths: the
loops over doublewords for aligned arguments and the loops over bytes. What they
do is stated byte by byte. For aligned arguments they are the functions on
doublewords that the kernel's model calls.

Results:
* `memcpy_copies`: `memcpy` ends and copies the bytes of the source, unless the
  destination starts inside the source;
* `memset_fills`: `memset` ends and fills the range with the byte;
* `memmove_copies`: `memmove` copies the bytes of the source, however the two
  ranges overlap.
-/

namespace Pke.Util

open Lib

/-! ## The code -/

/-- The variables of a loop that copies: memory and the pointers `d` and `s`. -/
structure Cursor where
  mem : Mem
  d : Word
  s : Word

namespace Cursor

/-- `while (d < limit) body`, with at most `fuel` rounds. -/
def loop (limit : Word) (body : Cursor → Cursor) : ℕ → Cursor → Option Cursor
  | 0, c => if c.d < limit then none else some c
  | fuel + 1, c => if c.d < limit then loop limit body fuel (body c) else some c

/-- `*(uintptr_t*)d = *(const uintptr_t*)s; d += 8; s += 8;`. -/
def word (c : Cursor) : Cursor := ⟨store64 c.mem c.d (load64 c.mem c.s), c.d + 8, c.s + 8⟩

/-- `*d++ = *s++`. -/
def byte (c : Cursor) : Cursor := ⟨store8 c.mem c.d (load8 c.mem c.s), c.d + 1, c.s + 1⟩

/-- `*--d = *--s`. -/
def byteDown (c : Cursor) : Cursor :=
  ⟨store8 c.mem (c.d - 1) (load8 c.mem (c.s - 1)), c.d - 1, c.s - 1⟩

/-- `*d++ = word` for a pointer to doublewords. -/
def fillWord (w : Word) (c : Cursor) : Cursor := { c with mem := store64 c.mem c.d w, d := c.d + 8 }

/-- `*d++ = byte` for a pointer to bytes. -/
def fillByte (b : BitVec 8) (c : Cursor) : Cursor :=
  { c with mem := store8 c.mem c.d b, d := c.d + 1 }

end Cursor

/-- `memcpy(dest, src, len)` (`util/string.c` lines 8–23). No loop makes more than
    `len` rounds. -/
def memcpy (m : Mem) (dest src len : Word) : Option Mem := do
  let c ← if (dest ||| src) &&& 7 = 0 then
      Cursor.loop (dest + len - 7) Cursor.word len.toNat ⟨m, dest, src⟩
    else some ⟨m, dest, src⟩
  let c ← Cursor.loop (dest + len) Cursor.byte len.toNat c
  return c.mem

/-- `memset(dest, byte, len)` (`util/string.c` lines 25–39). -/
def memset (m : Mem) (dest byte len : Word) : Option Mem := do
  let c ← if (dest ||| len) &&& 7 = 0 then
      Cursor.loop (dest + len) (Cursor.fillWord (memsetWord byte)) len.toNat ⟨m, dest, 0⟩
    else Cursor.loop (dest + len) (Cursor.fillByte (byte.setWidth 8)) len.toNat ⟨m, dest, 0⟩
  return c.mem

/-- `memmove(dst, src, n)` (`util/string.c` lines 84–98). -/
def memmove (m : Mem) (dst src n : Word) : Mem :=
  if src < dst ∧ dst < src + n then (Cursor.byteDown^[n.toNat] ⟨m, dst + n, src + n⟩).mem
  else (Cursor.byte^[n.toNat] ⟨m, dst, src⟩).mem

/-! ## Bytes -/

/-- The `j`-th byte from an address on. -/
def byteAt (p : Word) (j : ℕ) : Word := p + BitVec.ofNat 64 j

variable {m m' : Mem} {p dest src len : Word} {k n : ℕ} {v : ℕ → BitVec 8}

theorem byteAt_toNat (h : p.toNat + k < 2 ^ 64) : (byteAt p k).toNat = p.toNat + k := by
  rw [byteAt, BitVec.toNat_add, BitVec.toNat_ofNat]
  omega

theorem byteAt_add (p : Word) (j k : ℕ) : byteAt p (j + k) = byteAt p j + BitVec.ofNat 64 k := by
  rw [byteAt, byteAt, BitVec.ofNat_add, BitVec.add_assoc]

theorem byteAt_injOn (h : p.toNat + n ≤ 2 ^ 64) : Set.InjOn (byteAt p) (Set.Iio n) := by
  intro i hi j hj he
  rw [Set.mem_Iio] at hi hj
  have := congrArg BitVec.toNat he
  rw [byteAt_toNat (by omega), byteAt_toNat (by omega)] at this
  omega

theorem load8_eq_byteOf (m : Mem) (a : Word) : load8 m a = byteOf (load64 m a) (a.toNat % 8) := rfl

theorem load64_congr {a b : Word} (h : a.toNat / 8 = b.toNat / 8) : load64 m a = load64 m b := by
  have hp : ppn a = ppn b := by
    apply BitVec.eq_of_toNat_eq
    rw [ppn_toNat, ppn_toNat]
    omega
  have hi : idx a = idx b := by
    apply BitVec.eq_of_toNat_eq
    rw [idx_toNat, idx_toNat, h]
  rw [load64, load64, hp, hi]

/-- The bytes of an aligned doubleword. -/
theorem byteOf_load64 {a : Word} (ha : a.toNat % 8 = 0) {i : ℕ} (hi : i < 8) :
    byteOf (load64 m a) i = load8 m (byteAt a i) := by
  have hlt := a.isLt
  have hnat : (byteAt a i).toNat = a.toNat + i := byteAt_toNat (by omega)
  rw [load8_eq_byteOf, hnat, load64_congr (show (byteAt a i).toNat / 8 = a.toNat / 8 by omega)]
  congr 1
  omega

/-- Storing a byte. -/
theorem written_store8 (m : Mem) (p : Word) {b : BitVec 8} (hv : v k = b) :
    Written (load8 m) (load8 (store8 m (byteAt p k) b)) (byteAt p) v k (k + 1) := by
  refine ⟨fun j hj hj' => ?_, fun a ha => ?_⟩
  · obtain rfl : j = k := by omega
    rw [load8_store8, if_pos rfl, hv]
  · rw [load8_store8, if_neg (Ne.symm (ha k le_rfl (Nat.lt_succ_self k)))]

/-- Storing an aligned doubleword. -/
theorem written_store64 (m : Mem) (p : Word) {w : Word} (hp : (byteAt p k).toNat % 8 = 0)
    (hv : ∀ i < 8, v (k + i) = byteOf w i) :
    Written (load8 m) (load8 (store64 m (byteAt p k) w)) (byteAt p) v k (k + 8) := by
  have hlt := (byteAt p k).isLt
  have hshift : ∀ a : Word, (byteAt p k) >>> 3 = a >>> 3 ↔
      (byteAt p k).toNat / 8 = a.toNat / 8 := by
    intro a
    rw [← BitVec.toNat_inj, BitVec.toNat_ushiftRight, BitVec.toNat_ushiftRight,
      Nat.shiftRight_eq_div_pow, Nat.shiftRight_eq_div_pow]
  have hbyte : ∀ i < 8, (byteAt p (k + i)).toNat = (byteAt p k).toNat + i := by
    intro i hi
    rw [byteAt_add]
    exact byteAt_toNat (p := byteAt p k) (by omega)
  refine ⟨fun j hj hj' => ?_, fun a ha => ?_⟩
  · obtain ⟨i, rfl⟩ := Nat.exists_eq_add_of_le hj
    have hi := hbyte i (by omega)
    rw [load8_eq_byteOf, load64_store64, if_pos ((hshift _).mpr (by omega)), hv i (by omega), hi]
    congr 1
    omega
  · rw [load8_eq_byteOf, load8_eq_byteOf, load64_store64, if_neg]
    intro he
    have hdiv := (hshift a).mp he
    have hi := hbyte (a.toNat % 8) (by omega)
    refine ha (k + a.toNat % 8) (by omega) (by omega) (BitVec.eq_of_toNat_eq ?_)
    omega

/-! ## Loops -/

/-- A loop whose rounds each deal with `w` of `n` bytes, while there are as many left. -/
theorem Cursor.loop_spec (limit : Word) (body : Cursor → Cursor) {P : Cursor → ℕ → Prop} {w : ℕ}
    (hw : 0 < w) (hbody : ∀ c k, P c k → k + w ≤ n → P (body c) (k + w))
    (hguard : ∀ c k, P c k → (c.d < limit ↔ k + w ≤ n)) :
    ∀ fuel c k, P c k → n - k ≤ fuel →
      ∃ c' k', Cursor.loop limit body fuel c = some c' ∧ P c' k' ∧ n < k' + w := by
  intro fuel
  induction fuel with
  | zero =>
    intro c k hc hfuel
    have hend : ¬ k + w ≤ n := by omega
    exact ⟨c, k, if_neg (mt (hguard c k hc).mp hend), hc, Nat.lt_of_not_le hend⟩
  | succ fuel ih =>
    intro c k hc hfuel
    rw [Cursor.loop]
    by_cases hmore : k + w ≤ n
    · rw [if_pos ((hguard c k hc).mpr hmore)]
      exact ih _ _ (hbody c k hc hmore) (by omega)
    · rw [if_neg (mt (hguard c k hc).mp hmore)]
      exact ⟨c, k, rfl, hc, Nat.lt_of_not_le hmore⟩

/-- `a | b` has no low bits exactly if neither has. -/
theorem or_and_seven (a b : Word) :
    (a ||| b) &&& 7 = 0 ↔ a.toNat % 8 = 0 ∧ b.toNat % 8 = 0 := by
  have hlow : ∀ x : Word, x &&& 7 = 0 ↔ x.toNat % 8 = 0 := by
    intro x
    rw [← BitVec.toNat_inj, BitVec.toNat_and]
    exact iff_of_eq (congrArg (· = 0) (Nat.and_two_pow_sub_one_eq_mod x.toNat 3))
  rw [BitVec.and_comm, BitVec.and_or_distrib_left, BitVec.and_comm 7 a, BitVec.and_comm 7 b,
    ← hlow, ← hlow]
  exact BitVec.or_eq_zero_iff

/-! ## `memcpy` -/

/-- The memory `m'` is `m` with `n` bytes copied. -/
def Copied (m m' : Mem) (dest src : Word) (n : ℕ) : Prop :=
  Written (load8 m) (load8 m') (byteAt dest) (fun j => load8 m (byteAt src j)) 0 n

/-- The first `k` bytes have been copied. -/
structure Copying (m : Mem) (dest src : Word) (n : ℕ) (c : Cursor) (k : ℕ) : Prop where
  le : k ≤ n
  d : c.d = byteAt dest k
  s : c.s = byteAt src k
  mem : Copied m c.mem dest src k

/-- Two ranges of `n` bytes that do not go round the end of memory, the first not
    starting inside the second. -/
structure Forward (dest src : Word) (n : ℕ) : Prop where
  dest_lt : dest.toNat + n < 2 ^ 64
  src_lt : src.toNat + n < 2 ^ 64
  apart : dest.toNat ≤ src.toNat ∨ src.toNat + n ≤ dest.toNat

variable {c : Cursor}

theorem Copying.start (m : Mem) (dest src : Word) (n : ℕ) : Copying m dest src n ⟨m, dest, src⟩ 0 :=
  ⟨Nat.zero_le n, (BitVec.add_zero dest).symm, (BitVec.add_zero src).symm, .refl _ _ _ 0⟩

/-- What has not been copied yet is as it was. -/
theorem Copying.unread (h : Copying m dest src n c k) (hf : Forward dest src n) {j : ℕ}
    (hk : k ≤ j) (hj : j < n) : load8 c.mem (byteAt src j) = load8 m (byteAt src j) := by
  refine h.mem.old _ fun i _ hi he => ?_
  have hd := hf.dest_lt
  have hs := hf.src_lt
  have hnat := congrArg BitVec.toNat he
  rw [byteAt_toNat (by omega), byteAt_toNat (by omega)] at hnat
  rcases hf.apart with ha | ha <;> omega

theorem Copying.byte (h : Copying m dest src n c k) (hf : Forward dest src n) (hk : k + 1 ≤ n) :
    Copying m dest src n c.byte (k + 1) := by
  refine ⟨hk, ?_, ?_, ?_⟩
  · rw [byteAt_add, ← h.d]
    rfl
  · rw [byteAt_add, ← h.s]
    rfl
  · have hd := hf.dest_lt
    refine h.mem.up ?_ (Nat.zero_le k) (Nat.le_succ k) (byteAt_injOn (by omega))
    have hread := h.unread hf le_rfl hk
    rw [← h.s] at hread
    rw [Cursor.byte, h.d]
    exact written_store8 c.mem dest (by rw [← h.s, hread])

theorem Copying.word (h : Copying m dest src n c k) (hf : Forward dest src n) (hk : k + 8 ≤ n)
    (hd : (byteAt dest k).toNat % 8 = 0) (hs : (byteAt src k).toNat % 8 = 0) :
    Copying m dest src n c.word (k + 8) := by
  refine ⟨hk, ?_, ?_, ?_⟩
  · rw [byteAt_add, ← h.d]
    rfl
  · rw [byteAt_add, ← h.s]
    rfl
  · have hdest := hf.dest_lt
    refine h.mem.up ?_ (Nat.zero_le k) (Nat.le_add_right k 8) (byteAt_injOn (by omega))
    rw [Cursor.word, h.d, h.s]
    refine written_store64 c.mem dest hd fun i hi => ?_
    rw [byteOf_load64 hs hi, ← h.unread hf (Nat.le_add_right k i) (by omega), byteAt_add]
    rfl

/-- Where the loop over doublewords ends. -/
theorem wordLimit (h : dest.toNat + n < 2 ^ 64) (h7 : 7 ≤ dest.toNat + n) (hk : k ≤ n) :
    byteAt dest k < byteAt dest n - 7 ↔ k + 8 ≤ n := by
  have hn := byteAt_toNat h
  have hsub : (byteAt dest n - 7).toNat = dest.toNat + n - 7 := by
    rw [BitVec.toNat_sub_of_le (BitVec.le_def.mpr (by rw [hn]; exact h7)), hn]
    rfl
  rw [BitVec.lt_def, hsub, byteAt_toNat (by omega)]
  omega

theorem byteLimit (h : dest.toNat + n < 2 ^ 64) (hk : k ≤ n) :
    byteAt dest k < byteAt dest n ↔ k + 1 ≤ n := by
  rw [BitVec.lt_def, byteAt_toNat h, byteAt_toNat (by omega)]
  omega

theorem byteAt_len (dest len : Word) : byteAt dest len.toNat = dest + len := by
  rw [byteAt, BitVec.ofNat_toNat, BitVec.setWidth_eq]

theorem byteAt_aligned (hp : p.toNat % 8 = 0) (hk : k % 8 = 0) (h : p.toNat + k < 2 ^ 64) :
    (byteAt p k).toNat % 8 = 0 := by
  rw [byteAt_toNat h]
  omega

/-- The model's `memcpy` makes one more round. -/
theorem memcpy_succ (m : Mem) (dest src : Word) (hk : k % 8 = 0) :
    Pke.memcpy m dest src (k + 8) =
      store64 (Pke.memcpy m dest src k) (byteAt dest k)
        (load64 (Pke.memcpy m dest src k) (byteAt src k)) := by
  have hdiv : (k + 8) / 8 = k / 8 + 1 := by omega
  have hmul : 8 * (k / 8) = k := by omega
  unfold Pke.memcpy
  rw [hdiv, List.range_succ, List.foldl_append, List.foldl_cons, List.foldl_nil, hmul]
  rfl

theorem Cursor.loop_end {limit : Word} {body : Cursor → Cursor} (h : ¬ c.d < limit) (fuel : ℕ) :
    Cursor.loop limit body fuel c = some c := by
  cases fuel with
  | zero => exact if_neg h
  | succ fuel => exact if_neg h

/-- The loop over doublewords. -/
theorem wordLoop (hf : Forward dest src len.toNat) (h7 : 7 ≤ dest.toNat + len.toNat)
    (hd : dest.toNat % 8 = 0) (hs : src.toNat % 8 = 0) (m : Mem) :
    ∃ c k, Cursor.loop (dest + len - 7) Cursor.word len.toNat ⟨m, dest, src⟩ = some c ∧
      Copying m dest src len.toNat c k ∧ k % 8 = 0 ∧ len.toNat < k + 8 ∧
      c.mem = Pke.memcpy m dest src k := by
  have hdest := hf.dest_lt
  have hsrc := hf.src_lt
  obtain ⟨c, k, hrun, ⟨hc, hk, hmem⟩, hend⟩ := Cursor.loop_spec (n := len.toNat) (w := 8)
    (dest + len - 7) Cursor.word
    (P := fun c k => Copying m dest src len.toNat c k ∧ k % 8 = 0 ∧
      c.mem = Pke.memcpy m dest src k) (by decide)
    (by
      rintro c k ⟨hc, hk, hmem⟩ hle
      refine ⟨hc.word hf hle (byteAt_aligned hd hk (by omega)) (byteAt_aligned hs hk (by omega)),
        by omega, ?_⟩
      rw [memcpy_succ m dest src hk, ← hmem, ← hc.d, ← hc.s]
      rfl)
    (by
      rintro c k ⟨hc, -⟩
      rw [hc.d, ← byteAt_len]
      exact wordLimit hdest h7 hc.le)
    len.toNat ⟨m, dest, src⟩ 0 ⟨Copying.start m dest src len.toNat, rfl, rfl⟩ (Nat.sub_le _ _)
  exact ⟨c, k, hrun, hc, hk, hend, hmem⟩

/-- The loop over bytes copies what is left. -/
theorem byteLoop (hf : Forward dest src len.toNat) (hc : Copying m dest src len.toNat c k) :
    ∃ c', Cursor.loop (dest + len) Cursor.byte len.toNat c = some c' ∧
      Copied m c'.mem dest src len.toNat := by
  obtain ⟨c', k', hrun, hc', hend⟩ := Cursor.loop_spec (n := len.toNat) (w := 1) (dest + len)
    Cursor.byte (P := fun c k => Copying m dest src len.toNat c k) Nat.one_pos
    (fun c k hc hle => hc.byte hf hle)
    (by
      intro c k hc
      rw [hc.d, ← byteAt_len]
      exact byteLimit hf.dest_lt hc.le)
    len.toNat c k hc (Nat.sub_le _ _)
  have hle := hc'.le
  obtain rfl : k' = len.toNat := by omega
  exact ⟨c', hrun, hc'.mem⟩

/-- **`memcpy`.** It ends, with the bytes of the source copied; for aligned arguments
    it does what the kernel's model takes it to do. -/
theorem memcpy_copies (hf : Forward dest src len.toNat) (h7 : 7 ≤ dest.toNat + len.toNat)
    (m : Mem) :
    ∃ m', memcpy m dest src len = some m' ∧ Copied m m' dest src len.toNat ∧
      (dest.toNat % 8 = 0 → src.toNat % 8 = 0 → len.toNat % 8 = 0 →
        m' = Pke.memcpy m dest src len.toNat) := by
  by_cases haligned : dest.toNat % 8 = 0 ∧ src.toNat % 8 = 0
  · obtain ⟨c, k, hword, hc, hk, hend, hmem⟩ := wordLoop hf h7 haligned.1 haligned.2 m
    obtain ⟨c', hbyte, hcopied⟩ := byteLoop hf hc
    refine ⟨c'.mem, ?_, hcopied, fun _ _ hlen => ?_⟩
    · rw [memcpy, if_pos ((or_and_seven dest src).mpr haligned), hword]
      simp only [Option.bind_eq_bind, Option.bind_some, hbyte]
      rfl
    · -- no byte is left
      have hle := hc.le
      obtain rfl : k = len.toNat := by omega
      have hstop : ¬ c.d < dest + len := by
        rw [hc.d, byteAt_len]
        exact BitVec.lt_irrefl _
      rw [Cursor.loop_end hstop] at hbyte
      rw [← Option.some.inj hbyte, hmem]
  · obtain ⟨c', hbyte, hcopied⟩ := byteLoop hf (Copying.start m dest src len.toNat)
    refine ⟨c'.mem, ?_, hcopied, fun hd hs => absurd ⟨hd, hs⟩ haligned⟩
    rw [memcpy, if_neg (mt (or_and_seven dest src).mp haligned)]
    simp only [Option.bind_eq_bind, Option.bind_some, hbyte]
    rfl

/-- A memory whose words hold their own addresses. -/
def selfAddressed : Mem := fun p o => slot (addr p) o

/-- A page is copied; its second byte was 0 and is 0x10, as in the source. -/
theorem memcpy_copies_sample : ∃ m',
    memcpy selfAddressed 0x80000000 0x80001000 4096 = some m' ∧
      Copied selfAddressed m' 0x80000000 0x80001000 4096 ∧
      load8 selfAddressed 0x80000001 = 0 ∧ load8 m' 0x80000001 = 0x10 := by
  have hf : Forward 0x80000000 0x80001000 (4096 : Word).toNat :=
    ⟨by decide, by decide, Or.inl (by decide)⟩
  obtain ⟨m', hrun, hcopied, -⟩ := memcpy_copies hf (by decide) selfAddressed
  exact ⟨m', hrun, hcopied, by decide, (hcopied.new 1 (by decide) (by decide)).trans (by decide)⟩

/-! ## `memset` -/

/-- The doubleword of `memset` repeats the low byte of its argument. -/
theorem byteOf_memsetWord (byte : Word) {i : ℕ} (hi : i < 8) :
    byteOf (memsetWord byte) i = byte.setWidth 8 := by
  have hlow : byte &&& 0xFF#64 = (byte.setWidth 8).setWidth 64 := by
    apply BitVec.eq_of_toNat_eq
    rw [BitVec.toNat_and, BitVec.toNat_setWidth, BitVec.toNat_setWidth]
    exact (Nat.and_two_pow_sub_one_eq_mod byte.toNat 8).trans (by omega)
  have hall : ∀ b : BitVec 8, ∀ i : Fin 8,
      byteOf (let word := b.setWidth 64
        let word := word ||| word <<< 8
        let word := word ||| word <<< 16
        word ||| word <<< 16 <<< 16) i = b := by
    decide +kernel
  have := hall (byte.setWidth 8) ⟨i, hi⟩
  rwa [← hlow] at this

/-- The first `k` bytes have been set to `b`. -/
structure Filling (m : Mem) (dest : Word) (b : BitVec 8) (n : ℕ) (c : Cursor) (k : ℕ) : Prop where
  le : k ≤ n
  d : c.d = byteAt dest k
  mem : Written (load8 m) (load8 c.mem) (byteAt dest) (fun _ => b) 0 k

variable {b : BitVec 8}

theorem Filling.start (m : Mem) (dest s : Word) (b : BitVec 8) (n : ℕ) :
    Filling m dest b n ⟨m, dest, s⟩ 0 :=
  ⟨Nat.zero_le n, (BitVec.add_zero dest).symm, .refl _ _ _ 0⟩

theorem Filling.byte (h : Filling m dest b n c k) (hd : dest.toNat + n < 2 ^ 64)
    (hk : k + 1 ≤ n) : Filling m dest b n (c.fillByte b) (k + 1) := by
  refine ⟨hk, ?_, h.mem.up ?_ (Nat.zero_le k) (Nat.le_succ k) (byteAt_injOn (by omega))⟩
  · rw [byteAt_add, ← h.d]
    rfl
  · rw [Cursor.fillByte, h.d]
    exact written_store8 c.mem dest rfl

theorem Filling.word {w : Word} (h : Filling m dest b n c k) (hd : dest.toNat + n < 2 ^ 64)
    (hk : k + 8 ≤ n) (ha : (byteAt dest k).toNat % 8 = 0) (hw : ∀ i < 8, byteOf w i = b) :
    Filling m dest b n (c.fillWord w) (k + 8) := by
  refine ⟨hk, ?_, h.mem.up ?_ (Nat.zero_le k) (Nat.le_add_right k 8) (byteAt_injOn (by omega))⟩
  · rw [byteAt_add, ← h.d]
    rfl
  · rw [Cursor.fillWord, h.d]
    exact written_store64 c.mem dest ha fun i hi => (hw i hi).symm

theorem memset_succ (m : Mem) (dest byte : Word) (hk : k % 8 = 0) :
    Pke.memset m dest byte (k + 8) =
      store64 (Pke.memset m dest byte k) (byteAt dest k) (memsetWord byte) := by
  have hdiv : (k + 8) / 8 = k / 8 + 1 := by omega
  have hmul : 8 * (k / 8) = k := by omega
  unfold Pke.memset
  rw [hdiv, List.range_succ, List.foldl_append, List.foldl_cons, List.foldl_nil, hmul]
  rfl

/-- **`memset`.** It ends, with the range filled; for aligned arguments it does what
    the kernel's model takes it to do. -/
theorem memset_fills (hd : dest.toNat + len.toNat < 2 ^ 64) (m : Mem) (byte : Word) :
    ∃ m', memset m dest byte len = some m' ∧
      Written (load8 m) (load8 m') (byteAt dest) (fun _ => byte.setWidth 8) 0 len.toNat ∧
      (dest.toNat % 8 = 0 → len.toNat % 8 = 0 → m' = Pke.memset m dest byte len.toNat) := by
  by_cases haligned : dest.toNat % 8 = 0 ∧ len.toNat % 8 = 0
  · obtain ⟨c, k, hrun, ⟨hc, hk, hmem⟩, hend⟩ := Cursor.loop_spec (n := len.toNat) (w := 8)
      (dest + len) (Cursor.fillWord (memsetWord byte))
      (P := fun c k => Filling m dest (byte.setWidth 8) len.toNat c k ∧ k % 8 = 0 ∧
        c.mem = Pke.memset m dest byte k) (by decide)
      (by
        rintro c k ⟨hc, hk, hmem⟩ hle
        refine ⟨hc.word hd hle (byteAt_aligned haligned.1 hk (by omega))
          fun i hi => byteOf_memsetWord byte hi, by omega, ?_⟩
        rw [memset_succ m dest byte hk, ← hmem, ← hc.d]
        rfl)
      (by
        rintro c k ⟨hc, hk, -⟩
        have hle := hc.le
        rw [hc.d, ← byteAt_len, byteLimit hd hle]
        omega)
      len.toNat ⟨m, dest, 0⟩ 0 ⟨Filling.start m dest 0 _ len.toNat, rfl, rfl⟩ (Nat.sub_le _ _)
    have hle := hc.le
    obtain rfl : k = len.toNat := by omega
    refine ⟨c.mem, ?_, hc.mem, fun _ _ => hmem⟩
    rw [memset, if_pos ((or_and_seven dest len).mpr haligned), hrun]
    rfl
  · obtain ⟨c, k, hrun, hc, hend⟩ := Cursor.loop_spec (n := len.toNat) (w := 1) (dest + len)
      (Cursor.fillByte (byte.setWidth 8))
      (P := fun c k => Filling m dest (byte.setWidth 8) len.toNat c k) Nat.one_pos
      (fun c k hc hle => hc.byte hd hle)
      (by
        intro c k hc
        rw [hc.d, ← byteAt_len]
        exact byteLimit hd hc.le)
      len.toNat ⟨m, dest, 0⟩ 0 (Filling.start m dest 0 _ len.toNat) (Nat.sub_le _ _)
    have hle := hc.le
    obtain rfl : k = len.toNat := by omega
    refine ⟨c.mem, ?_, hc.mem, fun hd hl => absurd ⟨hd, hl⟩ haligned⟩
    rw [memset, if_neg (mt (or_and_seven dest len).mp haligned), hrun]
    rfl

/-- Three bytes are cleared. -/
theorem memset_fills_sample : ∃ m', memset (fun _ _ => 5) 0x80000001 0 3 = some m' ∧
    Written (load8 fun _ _ => 5) (load8 m') (byteAt 0x80000001) (fun _ => 0) 0 3 := by
  have hd : (0x80000001 : Word).toNat + (3 : Word).toNat < 2 ^ 64 := by decide
  obtain ⟨m', hrun, hfilled, -⟩ := memset_fills hd (fun _ _ => 5) 0
  exact ⟨m', hrun, hfilled⟩

/-! ## `memmove` -/

/-- The bytes from `k` on have been copied. -/
structure CopyingDown (m : Mem) (dest src : Word) (n : ℕ) (c : Cursor) (k : ℕ) : Prop where
  le : k ≤ n
  d : c.d = byteAt dest k
  s : c.s = byteAt src k
  mem : Written (load8 m) (load8 c.mem) (byteAt dest) (fun j => load8 m (byteAt src j)) k n

theorem byteAt_pred (p : Word) (k : ℕ) : byteAt p (k + 1) - 1 = byteAt p k := by
  rw [byteAt_add]
  exact BitVec.add_sub_cancel _ _

theorem CopyingDown.start (m : Mem) (dest src : Word) (n : ℕ) :
    CopyingDown m dest src n ⟨m, byteAt dest n, byteAt src n⟩ n :=
  ⟨le_rfl, rfl, rfl, .refl _ _ _ n⟩

theorem CopyingDown.byte (h : CopyingDown m dest src n c (k + 1)) (hd : dest.toNat + n < 2 ^ 64)
    (hlt : src.toNat < dest.toNat) : CopyingDown m dest src n c.byteDown k := by
  have hle := h.le
  have hpd : c.d - 1 = byteAt dest k := by rw [h.d, byteAt_pred]
  have hps : c.s - 1 = byteAt src k := by rw [h.s, byteAt_pred]
  refine ⟨by omega, hpd, hps,
    h.mem.down ?_ (Nat.le_succ k) hle (byteAt_injOn (by omega))⟩
  -- the byte read now lies below everything written so far
  have hread : load8 c.mem (byteAt src k) = load8 m (byteAt src k) := by
    refine h.mem.old _ fun i hi hi' he => ?_
    have hnat := congrArg BitVec.toNat he
    rw [byteAt_toNat (by omega), byteAt_toNat (by omega)] at hnat
    omega
  rw [Cursor.byteDown, hpd, hps]
  exact written_store8 c.mem dest hread.symm

theorem copyingDown_iterate (hd : dest.toNat + n < 2 ^ 64) (hlt : src.toNat < dest.toNat) :
    ∀ k c, CopyingDown m dest src n c k → CopyingDown m dest src n (Cursor.byteDown^[k] c) 0 := by
  intro k
  induction k with
  | zero => exact fun c hc => hc
  | succ k ih => exact fun c hc => ih _ (hc.byte hd hlt)

theorem copying_iterate (hf : Forward dest src n) :
    ∀ j c k, Copying m dest src n c k → k + j ≤ n →
      Copying m dest src n (Cursor.byte^[j] c) (k + j) := by
  intro j
  induction j with
  | zero => exact fun c k hc _ => hc
  | succ j ih =>
    intro c k hc hle
    have := ih _ _ (hc.byte hf (by omega)) (by omega)
    rwa [Nat.add_right_comm] at this

/-- **`memmove`** copies the bytes of the source, however the ranges overlap. -/
theorem memmove_copies (hd : dest.toNat + len.toNat < 2 ^ 64) (hs : src.toNat + len.toNat < 2 ^ 64)
    (m : Mem) : Copied m (memmove m dest src len) dest src len.toNat := by
  have hsum : (src + len).toNat = src.toNat + len.toNat := by
    rw [← byteAt_len]
    exact byteAt_toNat hs
  unfold memmove
  split_ifs with hover
  · rw [BitVec.lt_def, BitVec.lt_def] at hover
    have hend := copyingDown_iterate hd hover.1 _ _ (CopyingDown.start m dest src len.toNat)
    rw [byteAt_len, byteAt_len] at hend
    exact hend.mem
  · rw [BitVec.lt_def, BitVec.lt_def, hsum] at hover
    have hf : Forward dest src len.toNat := ⟨hd, hs, by omega⟩
    have := copying_iterate hf len.toNat _ 0 (Copying.start m dest src len.toNat) (by omega)
    rw [Nat.zero_add] at this
    exact this.mem

/-- Ten bytes are moved by one; the ninth of them was the first of its word. -/
theorem memmove_copies_sample :
    Copied selfAddressed (memmove selfAddressed 0x80000001 0x80000000 10) 0x80000001 0x80000000 10 ∧
      load8 (memmove selfAddressed 0x80000001 0x80000000 10) 0x80000009 = 8 := by
  have hcopied : Copied selfAddressed (memmove selfAddressed 0x80000001 0x80000000 10) 0x80000001
      0x80000000 10 := memmove_copies (by decide) (by decide) selfAddressed
  exact ⟨hcopied, (hcopied.new 8 (by decide) (by decide)).trans (by decide)⟩

end Pke.Util
