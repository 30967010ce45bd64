import Pke.Util.Snprintf

/-!
# `atol`

`atol` (`util/string.c`) reads every number back that `%ld` prints
(`atol_vsnprintf`).
-/

namespace Pke

open Lib

variable {n : ℕ} {c : BitVec 8} {text : List (BitVec 8)}

/-! ## Decimal numbers -/

/-- The last loop of `atol`; `char` is unsigned, and `long` wraps. -/
def atolDigits (str : List (BitVec 8)) : Word :=
  str.foldl (fun res c => res * 10 + (c.setWidth 64 - (ascii '0').setWidth 64)) 0

/-- `atol(str)` for the bytes of the string up to its NUL (`util/string.c` lines
    65–82). -/
def atol (str : List (BitVec 8)) : Word :=
  let str := str.dropWhile fun c => c = ascii ' '
  if str.head? = some (ascii '-') ∨ str.head? = some (ascii '+') then
    let res := atolDigits str.tail
    if str.head? = some (ascii '-') then -res else res
  else atolDigits str

theorem decDigit_value {d : ℤ} (h : -10 < d ∧ d < 10) :
    (ascii '0' + BitVec.ofInt 8 d).setWidth 64 - (ascii '0').setWidth 64 = BitVec.ofInt 64 d := by
  obtain ⟨h1, h2⟩ := h
  interval_cases d <;> decide

theorem tmod_bounds (num : ℤ) : -10 < num.tmod 10 ∧ num.tmod 10 < 10 := by
  have h := Int.natAbs_tmod num 10
  rw [show (10 : ℤ).natAbs = 10 from rfl] at h
  omega

/-- The digits of a number that has at most `i` of them. -/
theorem atolDigits_decText :
    ∀ (i : ℕ) (num : ℤ), num.natAbs < 10 ^ i →
      atolDigits (decText i num) = BitVec.ofInt 64 num := by
  intro i
  induction i with
  | zero =>
    intro num h
    obtain rfl : num = 0 := by simpa using h
    rfl
  | succ i ih =>
    intro num h
    have hdiv : (num.tdiv 10).natAbs < 10 ^ i := by
      rw [Int.natAbs_tdiv]
      refine Nat.div_lt_of_lt_mul ?_
      rwa [Nat.pow_succ, Nat.mul_comm] at h
    have hdigits := ih (num.tdiv 10) hdiv
    unfold atolDigits at hdigits ⊢
    rw [decText, List.foldl_append, hdigits, List.foldl_cons, List.foldl_nil, decDigit,
      decDigit_value (tmod_bounds num)]
    have hnum : num = num.tdiv 10 * 10 + num.tmod 10 := (Int.tdiv_mul_add_tmod num 10).symm
    conv_rhs => rw [hnum, BitVec.ofInt_add, BitVec.ofInt_mul]
    rfl

/-- The first loop of `%d` counts the digits. -/
theorem decLength_eq :
    ∀ (k : ℕ) (num : ℤ) (d : ℕ), num.natAbs < 10 ^ (k + 1) →
      ∃ j, decLength k num d = d + j ∧ num.natAbs < 10 ^ (j + 1) ∧
        (j ≠ 0 → 10 ^ j ≤ num.natAbs) := by
  intro k
  induction k with
  | zero => exact fun num d h => ⟨0, rfl, h, fun h0 => absurd rfl h0⟩
  | succ k ih =>
    intro num d h
    have hdiv : (num.tdiv 10).natAbs = num.natAbs / 10 := Int.natAbs_tdiv num 10
    rw [decLength]
    split_ifs with h0
    · refine ⟨0, rfl, ?_, fun hne => absurd rfl hne⟩
      rw [h0, Int.natAbs_zero] at hdiv
      omega
    · have hlt : (num.tdiv 10).natAbs < 10 ^ (k + 1) := by
        rw [hdiv]
        refine Nat.div_lt_of_lt_mul ?_
        rwa [Nat.pow_succ, Nat.mul_comm] at h
      obtain ⟨j, hlen, hup, hlow⟩ := ih (num.tdiv 10) (d + 1) hlt
      have hne : num.natAbs / 10 ≠ 0 := by
        rw [← hdiv]
        exact Int.natAbs_ne_zero.mpr h0
      rw [hdiv] at hup hlow
      refine ⟨j + 1, by omega, ?_, fun _ => ?_⟩
      · rw [Nat.pow_succ]
        omega
      · rw [Nat.pow_succ]
        by_cases hj : j = 0
        · subst hj
          omega
        · have := hlow hj
          omega

/-- A `long` has at most 19 digits. -/
theorem natAbs_toInt_le (w : Word) : w.toInt.natAbs ≤ 2 ^ 63 := by
  have h1 := BitVec.le_toInt w
  have h2 := BitVec.toInt_lt (x := w)
  omega

theorem decLength_long (w : Word) :
    w.toInt.natAbs < 10 ^ decLength 19 w.toInt 1 ∧ 1 ≤ decLength 19 w.toInt 1 ∧
      decLength 19 w.toInt 1 ≤ 19 := by
  have hle := natAbs_toInt_le w
  obtain ⟨j, hlen, hup, hlow⟩ := decLength_eq 19 w.toInt 1 (by omega)
  have hj : j ≤ 18 := by
    by_contra hgt
    have hpow : 10 ^ 19 ≤ 10 ^ j := Nat.pow_le_pow_right (by decide) (by omega)
    have := hlow (by omega)
    omega
  rw [hlen, Nat.add_comm 1 j]
  exact ⟨hup, by omega, by omega⟩

/-- The text of a number is read back. -/
theorem atolDigits_long (w : Word) : atolDigits (decText (decLength 19 w.toInt 1) w.toInt) = w := by
  rw [atolDigits_decText _ _ (decLength_long w).1, BitVec.ofInt_toInt]

/-- A decimal digit is a character between `'0'` and `'9'`. -/
theorem decDigit_of_nonneg {num : ℤ} (h : 0 ≤ num) :
    ascii '0' ≤ decDigit num ∧ decDigit num ≤ ascii '9' := by
  have hlt := (tmod_bounds num).2
  have hge := Int.tmod_nonneg 10 h
  unfold decDigit
  generalize num.tmod 10 = d at hlt hge
  interval_cases d <;> decide

theorem mem_decText : ∀ {i : ℕ} {num : ℤ}, c ∈ decText i num → ∃ num', c = decDigit num' ∧
    (0 ≤ num → 0 ≤ num') := by
  intro i
  induction i with
  | zero => exact fun h => absurd h List.not_mem_nil
  | succ i ih =>
    intro num h
    rcases List.mem_append.mp h with h | h
    · obtain ⟨num', hc, hpos⟩ := ih h
      exact ⟨num', hc, fun h0 => hpos (Int.tdiv_nonneg h0 (by decide))⟩
    · exact ⟨num, List.mem_singleton.mp h, id⟩

/-- `atol` of digits without a sign. -/
theorem atol_of_digits {str : List (BitVec 8)}
    (h : ∀ c ∈ str, ascii '0' ≤ c ∧ c ≤ ascii '9') : atol str = atolDigits str := by
  have hne : ∀ d, ¬ (ascii '0' ≤ d ∧ d ≤ ascii '9') → str.head? ≠ some d := fun d hd he =>
    hd (h d (List.mem_of_mem_head? he))
  have hspace : (str.dropWhile fun c => c = ascii ' ') = str := by
    cases str with
    | nil => rfl
    | cons c str =>
      refine List.dropWhile_cons_of_neg ?_
      have hc := h c List.mem_cons_self
      simp only [decide_eq_true_eq]
      rintro rfl
      exact absurd hc (by decide)
  rw [atol, hspace, if_neg]
  rintro (he | he)
  · exact hne _ (by decide) he
  · exact hne _ (by decide) he

theorem atol_minus (str : List (BitVec 8)) : atol (ascii '-' :: str) = -atolDigits str := by
  rw [atol, List.dropWhile_cons_of_neg (by decide)]
  rfl

/-- **Numbers are read back**, the least `long` included: it is printed with
    characters in front of `'0'`, which `atol` takes for negative digits. -/
theorem atol_intText (w : Word) : atol (intText w) = w := by
  unfold intText
  split_ifs with h
  · rw [atol_minus, atolDigits_long, BitVec.neg_neg]
  · rw [atol_of_digits, atolDigits_long]
    intro c hc
    obtain ⟨num, rfl, hnum⟩ := mem_decText hc
    exact decDigit_of_nonneg (hnum (not_lt.mp h))

/-! ## From the buffer -/

/-- The string at the start of a buffer of `n` bytes. -/
def bufString (n : ℕ) (out : ℕ → BitVec 8) : List (BitVec 8) :=
  ((List.range n).map out).takeWhile fun c => c ≠ 0

/-- Text that fits is the string in the buffer. -/
theorem bufString_fitted (h0 : 0 ∉ text) (hlen : text.length < n) (out : ℕ → BitVec 8) :
    bufString n (fitted n text out) = text := by
  obtain ⟨r, rfl⟩ := Nat.exists_eq_add_of_lt hlen
  have htext : (List.range text.length).map (fitted (text.length + r + 1) text out) = text := by
    refine List.ext_getElem? fun k => ?_
    rw [List.getElem?_map]
    rcases Nat.lt_or_ge k text.length with hk | hk
    · rw [List.getElem?_range hk]
      exact fitted_of_lt hk (by omega)
    · rw [List.getElem?_eq_none (by simpa using hk), List.getElem?_eq_none hk]
      rfl
  have hnul : fitted (text.length + r + 1) text out (text.length + 0) = 0 :=
    fitted_of_eq (by omega)
  rw [bufString, Nat.add_assoc, List.range_add, List.map_append, ← Nat.add_assoc, htext,
    List.takeWhile_append_of_pos, List.range_succ_eq_map, List.map_cons, List.map_cons, hnul,
    List.takeWhile_cons_of_neg (by decide), List.append_nil]
  intro c hc
  simp only [decide_eq_true_eq]
  rintro rfl
  exact h0 hc

/-- No character of a number is NUL. -/
theorem decDigit_ne_zero (num : ℤ) : decDigit num ≠ 0 := by
  obtain ⟨h1, h2⟩ := tmod_bounds num
  unfold decDigit
  generalize num.tmod 10 = d at h1 h2
  interval_cases d <;> decide

theorem zero_notMem_intText (w : Word) : 0 ∉ intText w := by
  have hdigits : ∀ i num, 0 ∉ decText i num := by
    intro i num h
    obtain ⟨num', hc, -⟩ := mem_decText h
    exact decDigit_ne_zero num' hc.symm
  unfold intText
  split_ifs
  · exact List.not_mem_cons_of_ne_of_not_mem (by decide) (hdigits _ _)
  · exact hdigits _ _

theorem intText_length_le (w : Word) : (intText w).length ≤ 20 := by
  unfold intText
  split_ifs
  · have := (decLength_long (-w)).2.2
    rw [List.length_cons, decText_length]
    omega
  · have := (decLength_long w).2.2
    rw [decText_length]
    omega

/-- **Round trip.** Every `long` that `%ld` prints into a buffer of at least 21 bytes
    is what `atol` reads there. -/
theorem atol_vsnprintf (hn : 21 ≤ n) (m : Mem) (args : ℕ → Word) (out : ℕ → BitVec 8) :
    ∃ res out', vsnprintf m args n [ascii '%', ascii 'l', ascii 'd'] out = some (res, out') ∧
      atol (bufString n out') = args 0 := by
  have hprod : produced m args .start [ascii '%', ascii 'l', ascii 'd'] =
      some (intText (args 0)) := by
    change some ([] ++ ([] ++ (intText (args 0) ++ []))) = _
    simp
  have hlen := intText_length_le (args 0)
  refine ⟨_, _, vsnprintf_of_produced hprod out, ?_⟩
  rw [bufString_fitted (zero_notMem_intText _) (by omega), atol_intText]

/-- The least `long`. -/
theorem atol_vsnprintf_sample : ∃ res out',
    vsnprintf (fun _ _ => 0) (fun _ => BitVec.intMin 64) 21 [ascii '%', ascii 'l', ascii 'd']
      (fun _ => 0) = some (res, out') ∧ atol (bufString 21 out') = BitVec.intMin 64 :=
  atol_vsnprintf le_rfl _ _ _

end Pke
