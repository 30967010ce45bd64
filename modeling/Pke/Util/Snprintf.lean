import Pke.Kernel.Printf
import Mathlib.Data.List.GetD

/-!
# `vsnprintf`

`vsnprintf` (`util/snprintf.c`) writes into a buffer of any size, in place and in
parts from the back. It keeps the first bytes of what its format produces and
counts all of them. Its specification is `produced`, the text of the format,
without buffer and positions, and `fitted`, the buffer with what fits of a text and
a NUL behind it. The round of the loop for a character produces the text of the
character (`Printer.Holds.char`).

Result:
* `vsnprintf_eq`: the result is the length of the text, and the buffer is fitted
  with the text; no byte behind the buffer is written.
-/

namespace Pke

open Lib

variable {m : Mem} {args : ℕ → Word} {n : ℕ}

/-! ## The text a format produces -/

/-- The characters that end a conversion. -/
def IsConversion (c : BitVec 8) : Prop :=
  c = ascii 'p' ∨ c = ascii 'x' ∨ c = ascii 'd' ∨ c = ascii 's' ∨ c = ascii 'c'

instance (c : BitVec 8) : Decidable (IsConversion c) := inferInstanceAs (Decidable (_ ∨ _))

/-- The hexadecimal digits of `%x`. -/
def hexText (num : Word) : ℕ → List (BitVec 8)
  | 0 => []
  | i + 1 => hexDigit num i :: hexText num i

/-- The last `i` decimal digits of a number. -/
def decText : ℕ → ℤ → List (BitVec 8)
  | 0, _ => []
  | i + 1, num => decText i (num.tdiv 10) ++ [decDigit num]

/-- The text of `%d`. -/
def intText (num : Word) : List (BitVec 8) :=
  if num.toInt < 0 then ascii '-' :: decText (decLength 19 (-num).toInt 1) (-num).toInt
  else decText (decLength 19 num.toInt 1) num.toInt

/-- The text of a conversion of the argument `w`. -/
def convText (m : Mem) (longarg : Bool) (w : Word) (c : BitVec 8) : Option (List (BitVec 8)) :=
  if c = ascii 'p' then some (ascii '0' :: ascii 'x' :: hexText w 16)
  else if c = ascii 'x' then some (hexText (vaNum longarg w) (hexLength longarg))
  else if c = ascii 'd' then some (intText (vaNum longarg w))
  else if c = ascii 's' then kstring m w
  else some [w.setWidth 8]

/-- Where in a format `vsnprintf` is: `format`, `longarg` and the number of arguments
    taken. -/
structure Mode where
  format : Bool
  longarg : Bool
  taken : ℕ

/-- The mode behind a character. -/
def Mode.next (q : Mode) (c : BitVec 8) : Mode :=
  if q.format then
    if c = ascii 'l' then { q with longarg := true }
    else if IsConversion c then ⟨false, false, q.taken + 1⟩
    else q
  else if c = ascii '%' then { q with format := true }
  else q

/-- What a character produces. -/
def Mode.text (m : Mem) (args : ℕ → Word) (q : Mode) (c : BitVec 8) : Option (List (BitVec 8)) :=
  if q.format then
    if IsConversion c then convText m q.longarg (args q.taken) c else some []
  else if c = ascii '%' then some []
  else some [c]

/-- What a format produces, from a mode on. -/
def produced (m : Mem) (args : ℕ → Word) : Mode → List (BitVec 8) → Option (List (BitVec 8))
  | _, [] => some []
  | q, c :: cs => do
    let text ← q.text m args c
    let rest ← produced m args (q.next c) cs
    return text ++ rest

/-! ## `vsnprintf` keeps what fits -/

/-- The printer has produced `bs`, of which the buffer of `n` bytes has what fits. -/
structure Printer.Holds (n : ℕ) (p : Printer) (bs : List (BitVec 8)) : Prop where
  pos : p.pos = bs.length
  out : ∀ k < bs.length, k + 1 < n → bs[k]? = some (p.out k)

/-- The mode of a printer. -/
def Printer.mode (p : Printer) : Mode := ⟨p.format, p.longarg, p.taken⟩

variable {p : Printer} {bs : List (BitVec 8)} {c : BitVec 8}

theorem Printer.Holds.put (h : p.Holds n bs) (c : BitVec 8) : (p.put n c).Holds n (bs ++ [c]) := by
  refine ⟨by simp [Printer.put, h.pos], fun k hk hn => ?_⟩
  rw [List.length_append, List.length_singleton] at hk
  unfold Printer.put
  dsimp only
  rcases Nat.lt_or_eq_of_le (Nat.lt_succ_iff.mp hk) with hlt | rfl
  · rw [List.getElem?_append_left hlt, h.out k hlt hn]
    split_ifs
    · rw [h.pos, Function.update_of_ne (by omega)]
    · rfl
  · rw [h.pos, if_pos hn, Function.update_self]
    simp

theorem Printer.Holds.done (h : p.Holds n bs) : p.done.Holds n bs := ⟨h.pos, h.out⟩

theorem Printer.Holds.putHex (num : Word) :
    ∀ (i : ℕ) {p : Printer} {bs : List (BitVec 8)}, p.Holds n bs →
      (Pke.putHex n num i p).Holds n (bs ++ hexText num i) := by
  intro i
  induction i with
  | zero =>
    intro p bs h
    rwa [hexText, List.append_nil]
  | succ i ih =>
    intro p bs h
    have := ih (h.put (hexDigit num i))
    rwa [List.append_assoc] at this

theorem Printer.Holds.puts :
    ∀ (cs : List (BitVec 8)) {p : Printer} {bs : List (BitVec 8)}, p.Holds n bs →
      (cs.foldl (fun p c => p.put n c) p).Holds n (bs ++ cs) := by
  intro cs
  induction cs with
  | nil =>
    intro p bs h
    rwa [List.append_nil]
  | cons c cs ih =>
    intro p bs h
    have := ih (h.put c)
    rwa [List.append_assoc] at this

theorem decText_length (i : ℕ) (num : ℤ) : (decText i num).length = i := by
  induction i generalizing num with
  | zero => rfl
  | succ i ih => simp [decText, ih]

/-- The loop of `%d` writes nothing outside of its digits. -/
theorem putDec_of_lt {pos k : ℕ} (hk : k < pos) :
    ∀ (i : ℕ) (num : ℤ) (out : ℕ → BitVec 8), putDec n pos i num out k = out k := by
  intro i
  induction i with
  | zero => exact fun _ _ => rfl
  | succ i ih =>
    intro num out
    rw [putDec, ih]
    split_ifs
    · exact Function.update_of_ne (by omega) _ _
    · rfl

theorem putDec_of_ge {pos k : ℕ} :
    ∀ (i : ℕ) (num : ℤ) (out : ℕ → BitVec 8), pos + i ≤ k → putDec n pos i num out k = out k := by
  intro i
  induction i with
  | zero => exact fun _ _ _ => rfl
  | succ i ih =>
    intro num out hk
    rw [putDec, ih _ _ (by omega)]
    split_ifs
    · exact Function.update_of_ne (by omega) _ _
    · rfl

/-- The loop of `%d` writes the digits that fit. -/
theorem putDec_digit {pos j : ℕ} (hn : pos + j + 1 < n) :
    ∀ (i : ℕ) (num : ℤ) (out : ℕ → BitVec 8), j < i →
      (decText i num)[j]? = some (putDec n pos i num out (pos + j)) := by
  intro i
  induction i with
  | zero => exact fun _ _ hj => absurd hj (Nat.not_lt_zero j)
  | succ i ih =>
    intro num out hj
    rw [decText, putDec]
    rcases Nat.lt_or_eq_of_le (Nat.lt_succ_iff.mp hj) with hlt | rfl
    · rw [List.getElem?_append_left (by rwa [decText_length])]
      exact ih _ _ hlt
    · -- the digit is written in this round and not touched behind it
      rw [putDec_of_ge _ _ _ le_rfl, if_pos hn, Function.update_self,
        List.getElem?_append_right (by rw [decText_length]), decText_length, Nat.sub_self]
      rfl

theorem Printer.Holds.putDec (h : p.Holds n bs) (i : ℕ) (num : ℤ) :
    ({ p with pos := p.pos + i, out := Pke.putDec n p.pos i num p.out } : Printer).Holds n
      (bs ++ decText i num) := by
  refine ⟨by simp [h.pos, decText_length], fun k hk hn => ?_⟩
  rw [List.length_append, decText_length] at hk
  dsimp only
  rcases Nat.lt_or_ge k bs.length with hlt | hge
  · rw [List.getElem?_append_left hlt, h.out k hlt hn, putDec_of_lt (by rwa [h.pos])]
  · obtain ⟨j, rfl⟩ := Nat.exists_eq_add_of_le hge
    rw [List.getElem?_append_right hge, Nat.add_sub_cancel_left, h.pos]
    exact putDec_digit hn i num p.out (by omega)

theorem Printer.Holds.hex (h : p.Holds n bs) (w : Word) :
    (p.hex n w).Holds n (bs ++ hexText (vaNum p.longarg w) (hexLength p.longarg)) :=
  (Printer.Holds.putHex _ _ h).done

theorem Printer.Holds.dec (h : p.Holds n bs) (w : Word) :
    (p.dec n w).Holds n (bs ++ intText (vaNum p.longarg w)) := by
  unfold Printer.dec intText
  dsimp only
  split_ifs
  · have := ((h.put (ascii '-')).putDec (decLength 19 (-vaNum p.longarg w).toInt 1)
      (-vaNum p.longarg w).toInt).done
    rwa [List.append_assoc] at this
  · exact (h.putDec _ _).done

theorem putHex_mode (num : Word) (i : ℕ) (p : Printer) : (putHex n num i p).mode = p.mode := by
  induction i generalizing p with
  | zero => rfl
  | succ i ih => exact ih _

theorem puts_mode (cs : List (BitVec 8)) (p : Printer) :
    (cs.foldl (fun p c => p.put n c) p).mode = p.mode := by
  induction cs generalizing p with
  | nil => rfl
  | cons c cs ih => exact ih _

theorem Printer.done_mode (p : Printer) : p.done.mode = ⟨false, false, p.mode.taken + 1⟩ := rfl

theorem Printer.hex_mode (w : Word) (p : Printer) :
    (p.hex n w).mode = ⟨false, false, p.taken + 1⟩ := by
  rw [Printer.hex, Printer.done_mode, putHex_mode]
  rfl

theorem Printer.dec_mode (w : Word) (p : Printer) :
    (p.dec n w).mode = ⟨false, false, p.taken + 1⟩ := by
  unfold Printer.dec
  dsimp only
  split_ifs <;> rfl

theorem Printer.str_mode (cs : List (BitVec 8)) (p : Printer) :
    (p.str n cs).mode = ⟨false, false, p.taken + 1⟩ := by
  rw [Printer.str, Printer.done_mode, puts_mode]
  rfl

/-- A part of the loop of `vsnprintf`, from a printer that has produced `bs` on, faults
    or ends in mode `q` with the text behind `bs`. -/
def Prints (n : ℕ) (bs : List (BitVec 8)) (q : Mode) (r : Option Printer) :
    Option (List (BitVec 8)) → Prop
  | none => r = none
  | some text => ∃ p, r = some p ∧ p.mode = q ∧ p.Holds n (bs ++ text)

theorem IsConversion.ne_l (hc : IsConversion c) : c ≠ ascii 'l' := by
  rintro rfl
  exact absurd hc (by decide)

theorem Mode.next_conversion {q : Mode} (hf : q.format = true) (hc : IsConversion c) :
    q.next c = ⟨false, false, q.taken + 1⟩ := by
  rw [Mode.next, if_pos hf, if_neg hc.ne_l, if_pos hc]

/-- The round for a conversion. -/
theorem Printer.Holds.conversion (h : p.Holds n bs) (hf : p.format = true) (hc : IsConversion c) :
    Prints n bs (p.mode.next c) (p.char n m args c) (convText m p.longarg (args p.taken) c) := by
  have hnext : p.mode.next c = ⟨false, false, p.taken + 1⟩ := Mode.next_conversion hf hc
  rw [hnext, Printer.char, if_pos hf, if_neg hc.ne_l]
  rcases hc with rfl | rfl | rfl | rfl | rfl
  · refine ⟨_, rfl, Printer.hex_mode _ _, ?_⟩
    have hlong : ({ p with longarg := true } : Printer).Holds n bs := ⟨h.pos, h.out⟩
    have := ((hlong.put (ascii '0')).put (ascii 'x')).hex (args p.taken)
    rwa [List.append_assoc, List.append_assoc] at this
  · exact ⟨_, rfl, Printer.hex_mode _ _, h.hex _⟩
  · exact ⟨_, rfl, Printer.dec_mode _ _, h.dec _⟩
  · change Prints n bs _ ((kstring m (args p.taken)).map fun bs => p.str n bs)
      (kstring m (args p.taken))
    cases kstring m (args p.taken) with
    | none => rfl
    | some text => exact ⟨_, rfl, Printer.str_mode _ _, (Printer.Holds.puts text h).done⟩
  · exact ⟨_, rfl, rfl, (h.put _).done⟩

/-- A round inside a conversion that does not end it. -/
theorem Printer.Holds.flag (h : p.Holds n bs) (hf : p.format = true) (hc : ¬ IsConversion c) :
    Prints n bs (p.mode.next c) (p.char n m args c) (some []) := by
  have hf' : p.mode.format = true := hf
  rw [Mode.next, if_pos hf', if_neg hc, Printer.char, if_pos hf]
  simp only [IsConversion, not_or] at hc
  obtain ⟨hp, hx, hd, hs, hc⟩ := hc
  by_cases hl : c = ascii 'l'
  · rw [if_pos hl, if_pos hl]
    exact ⟨_, rfl, rfl, by simpa using h.pos, by simpa using h.out⟩
  · rw [if_neg hl, if_neg hl, if_neg hp, if_neg hx, if_neg hd, if_neg hs, if_neg hc]
    exact ⟨p, rfl, rfl, by simpa using h⟩

theorem Printer.Holds.char (h : p.Holds n bs) (m : Mem) (args : ℕ → Word) (c : BitVec 8) :
    Prints n bs (p.mode.next c) (p.char n m args c) (p.mode.text m args c) := by
  by_cases hf : p.format = true
  · have hf' : p.mode.format = true := hf
    rw [Mode.text, if_pos hf']
    by_cases hc : IsConversion c
    · rw [if_pos hc]
      exact h.conversion hf hc
    · rw [if_neg hc]
      exact h.flag hf hc
  · have hf' : ¬ p.mode.format = true := hf
    rw [Mode.text, if_neg hf', Mode.next, if_neg hf', Printer.char, if_neg hf]
    by_cases hc : c = ascii '%'
    · rw [if_pos hc, if_pos hc, if_pos hc]
      exact ⟨_, rfl, rfl, by simpa using h.pos, by simpa using h.out⟩
    · rw [if_neg hc, if_neg hc, if_neg hc]
      exact ⟨_, rfl, rfl, h.put c⟩

/-- The whole loop of `vsnprintf`. -/
theorem Printer.Holds.chars (m : Mem) (args : ℕ → Word) (cs : List (BitVec 8)) :
    ∀ {p : Printer} {bs : List (BitVec 8)}, p.Holds n bs →
      Prints n bs (cs.foldl Mode.next p.mode) (cs.foldlM (Printer.char n m args) p)
        (produced m args p.mode cs) := by
  induction cs with
  | nil =>
    intro p bs h
    exact ⟨p, rfl, rfl, by rwa [List.append_nil]⟩
  | cons c cs ih =>
    intro p bs h
    have hchar := h.char m args c
    rw [produced, List.foldlM_cons, List.foldl_cons]
    cases htext : p.mode.text m args c with
    | none =>
      rw [htext] at hchar
      rw [show p.char n m args c = none from hchar]
      rfl
    | some text =>
      rw [htext] at hchar
      obtain ⟨p', hp', hmode, h'⟩ := hchar
      have hrest := ih h'
      rw [hmode] at hrest
      rw [hp']
      cases hprod : produced m args (p.mode.next c) cs with
      | none =>
        rw [hprod] at hrest
        exact hrest
      | some rest =>
        rw [hprod] at hrest
        obtain ⟨p'', hp'', hmode', h''⟩ := hrest
        exact ⟨p'', hp'', hmode', by rwa [List.append_assoc] at h''⟩

/-! ## Where `vsnprintf` writes -/

variable {p₀ p₁ : Printer}

/-- From `p₀` to `p` only the positions in between were written, and only those in
    front of the last byte of the buffer. -/
structure Printer.WritesOnly (n : ℕ) (p₀ p : Printer) : Prop where
  pos : p₀.pos ≤ p.pos
  out : ∀ k, k < p₀.pos ∨ p.pos ≤ k ∨ n ≤ k + 1 → p.out k = p₀.out k

theorem Printer.WritesOnly.refl (p : Printer) : p.WritesOnly n p := ⟨le_rfl, fun _ _ => rfl⟩

theorem Printer.WritesOnly.trans (h : p₀.WritesOnly n p₁) (h' : p₁.WritesOnly n p) :
    p₀.WritesOnly n p := by
  have h1 := h.pos
  have h2 := h'.pos
  refine ⟨h1.trans h2, fun k hk => ?_⟩
  rw [h'.out k (by omega), h.out k (by omega)]

theorem Printer.writesOnly_put (c : BitVec 8) (p : Printer) : p.WritesOnly n (p.put n c) := by
  refine ⟨Nat.le_succ _, fun k hk => ?_⟩
  change k < p.pos ∨ p.pos + 1 ≤ k ∨ n ≤ k + 1 at hk
  unfold Printer.put
  dsimp only
  split_ifs with hn
  · exact Function.update_of_ne (by omega) _ _
  · rfl

theorem writesOnly_putHex (num : Word) (i : ℕ) (p : Printer) :
    p.WritesOnly n (putHex n num i p) := by
  induction i generalizing p with
  | zero => exact .refl p
  | succ i ih => exact (p.writesOnly_put _).trans (ih _)

theorem writesOnly_puts (cs : List (BitVec 8)) (p : Printer) :
    p.WritesOnly n (cs.foldl (fun p c => p.put n c) p) := by
  induction cs generalizing p with
  | nil => exact .refl p
  | cons c cs ih => exact (p.writesOnly_put c).trans (ih _)

theorem putDec_of_fits {pos k : ℕ} (hk : n ≤ k + 1) :
    ∀ (i : ℕ) (num : ℤ) (out : ℕ → BitVec 8), putDec n pos i num out k = out k := by
  intro i
  induction i with
  | zero => exact fun _ _ => rfl
  | succ i ih =>
    intro num out
    rw [putDec, ih]
    split_ifs
    · exact Function.update_of_ne (by omega) _ _
    · rfl

theorem writesOnly_putDec (i : ℕ) (num : ℤ) (p : Printer) :
    p.WritesOnly n { p with pos := p.pos + i, out := putDec n p.pos i num p.out } := by
  refine ⟨Nat.le_add_right _ _, fun k hk => ?_⟩
  rcases hk with hk | hk | hk
  · exact putDec_of_lt hk _ _ _
  · exact putDec_of_ge _ _ _ hk
  · exact putDec_of_fits hk _ _ _

/-- Only the position and the buffer matter. -/
theorem Printer.WritesOnly.congr (h : p₀.WritesOnly n p) {q₀ q : Printer}
    (h₀ : q₀.pos = p₀.pos ∧ q₀.out = p₀.out) (h₁ : q.pos = p.pos ∧ q.out = p.out) :
    q₀.WritesOnly n q := by
  refine ⟨by rw [h₀.1, h₁.1]; exact h.pos, fun k hk => ?_⟩
  rw [h₀.1, h₁.1] at hk
  rw [h₀.2, h₁.2]
  exact h.out k hk

theorem Printer.writesOnly_hex (w : Word) (p : Printer) : p.WritesOnly n (p.hex n w) :=
  (writesOnly_putHex _ _ p).congr ⟨rfl, rfl⟩ ⟨rfl, rfl⟩

theorem Printer.writesOnly_dec (w : Word) (p : Printer) : p.WritesOnly n (p.dec n w) := by
  unfold Printer.dec
  dsimp only
  split_ifs
  · exact (p.writesOnly_put _).trans ((writesOnly_putDec _ _ _).congr ⟨rfl, rfl⟩ ⟨rfl, rfl⟩)
  · exact (writesOnly_putDec _ _ p).congr ⟨rfl, rfl⟩ ⟨rfl, rfl⟩

/-- One round of the loop. -/
theorem Printer.writesOnly_char (h : p.char n m args c = some p₁) : p.WritesOnly n p₁ := by
  unfold Printer.char at h
  split_ifs at h
  · cases h
    exact ⟨le_rfl, fun _ _ => rfl⟩
  · cases h
    have hlong : p.WritesOnly n { p with longarg := true } := ⟨le_rfl, fun _ _ => rfl⟩
    exact hlong.trans ((Printer.writesOnly_put _ _).trans
      ((Printer.writesOnly_put _ _).trans (Printer.writesOnly_hex _ _)))
  · cases h
    exact Printer.writesOnly_hex _ _
  · cases h
    exact Printer.writesOnly_dec _ _
  · obtain ⟨bs, -, rfl⟩ := Option.map_eq_some_iff.mp h
    exact (writesOnly_puts bs p).congr ⟨rfl, rfl⟩ ⟨rfl, rfl⟩
  · cases h
    exact (p.writesOnly_put _).congr ⟨rfl, rfl⟩ ⟨rfl, rfl⟩
  · cases h
    exact .refl p
  · cases h
    exact ⟨le_rfl, fun _ _ => rfl⟩
  · cases h
    exact p.writesOnly_put c

/-- The whole loop. -/
theorem Printer.writesOnly_chars :
    ∀ {cs : List (BitVec 8)} {p : Printer},
      cs.foldlM (Printer.char n m args) p = some p₁ → p.WritesOnly n p₁ := by
  intro cs
  induction cs with
  | nil =>
    intro p h
    obtain rfl := Option.some.inj h
    exact .refl p
  | cons c cs ih =>
    intro p h
    rw [List.foldlM_cons] at h
    obtain ⟨p', hchar, hrest⟩ := Option.bind_eq_some_iff.mp h
    exact (Printer.writesOnly_char hchar).trans (ih hrest)

/-! ## The buffer -/

/-- The mode at the start of a format. -/
abbrev Mode.start : Mode := ⟨false, false, 0⟩

variable {fmt text : List (BitVec 8)} {out : ℕ → BitVec 8}

theorem Printer.holds_start (out : ℕ → BitVec 8) :
    (⟨false, false, 0, out, 0⟩ : Printer).Holds n [] :=
  ⟨rfl, fun k hk => absurd hk (Nat.not_lt_zero k)⟩

/-- A buffer of `n` bytes with what fits of a text and a NUL behind it. -/
def fitted (n : ℕ) (text : List (BitVec 8)) (out : ℕ → BitVec 8) (k : ℕ) : BitVec 8 :=
  if n ≤ k then out k
  else if k + 1 = n ∧ k ≤ text.length then 0
  else (text ++ [0]).getD k (out k)

theorem fitted_of_lt {k : ℕ} (hk : k < text.length) (hn : k + 1 < n) :
    some (fitted n text out k) = text[k]? := by
  rw [fitted, if_neg (by omega), if_neg (by omega), List.getD_append _ _ _ _ hk,
    List.getD_eq_getElem _ _ hk, List.getElem?_eq_getElem hk]

theorem fitted_of_eq (hn : text.length < n) : fitted n text out text.length = 0 := by
  rw [fitted, if_neg (by omega)]
  split_ifs
  · rfl
  · simp [List.getD_eq_getElem?_getD]

theorem fitted_of_full {k : ℕ} (hn : k + 1 = n) (hk : k ≤ text.length) :
    fitted n text out k = 0 := by
  rw [fitted, if_neg (by omega), if_pos ⟨hn, hk⟩]

theorem fitted_of_gt {k : ℕ} (hk : text.length < k) : fitted n text out k = out k := by
  rw [fitted]
  split_ifs
  · rfl
  · omega
  · rw [List.getD_eq_default]
    rw [List.length_append, List.length_singleton]
    exact hk

theorem fitted_of_ge {k : ℕ} (hk : n ≤ k) : fitted n text out k = out k := if_pos hk

/-- A format with a text: the buffer is fitted with it. -/
theorem vsnprintf_of_produced (h : produced m args .start fmt = some text)
    (out : ℕ → BitVec 8) :
    vsnprintf m args n fmt out = some (BitVec.ofNat 32 text.length, fitted n text out) := by
  have hrun := (Printer.holds_start (n := n) out).chars m args fmt
  change Prints n [] _ _ (produced m args .start fmt) at hrun
  rw [h] at hrun
  obtain ⟨p, hp, -, hholds⟩ := hrun
  rw [List.nil_append] at hholds
  have hpos := hholds.pos
  have honly := Printer.writesOnly_chars hp
  have hkept : ∀ k, text.length ≤ k ∨ n ≤ k + 1 → p.out k = out k := fun k hk =>
    honly.out k (Or.inr (by rwa [hpos]))
  rw [vsnprintf, hp]
  change some (_, _) = _
  rw [hpos]
  congr 2
  funext k
  rcases Nat.lt_or_ge k n with hkn | hkn
  · rcases Nat.lt_or_ge text.length n with hlen | hlen
    · -- the whole text and its NUL fit
      rw [if_pos hlen]
      rcases Nat.lt_trichotomy k text.length with hk | rfl | hk
      · rw [Function.update_of_ne (by omega)]
        refine Option.some.inj ?_
        rw [fitted_of_lt hk (by omega), hholds.out k hk (by omega)]
      · rw [Function.update_self, fitted_of_eq hlen]
      · rw [Function.update_of_ne (by omega), hkept k (by omega), fitted_of_gt hk]
    · rw [if_neg (by omega), if_pos (by omega)]
      rcases Nat.lt_or_ge (k + 1) n with hk | hk
      · rw [Function.update_of_ne (by omega)]
        refine Option.some.inj ?_
        rw [fitted_of_lt (by omega) hk, hholds.out k (by omega) hk]
      · obtain rfl : n - 1 = k := by omega
        rw [Function.update_self, fitted_of_full (by omega) (by omega)]
  · rw [fitted_of_ge hkn]
    split_ifs
    · rw [Function.update_of_ne (by omega), hkept k (by omega)]
    · rw [Function.update_of_ne (by omega), hkept k (by omega)]
    · exact hkept k (by omega)

theorem vsnprintf_of_none (h : produced m args .start fmt = none) :
    vsnprintf m args n fmt out = none := by
  have hrun := (Printer.holds_start (n := n) out).chars m args fmt
  change Prints n [] _ _ (produced m args .start fmt) at hrun
  rw [h] at hrun
  rw [vsnprintf, show fmt.foldlM (Printer.char n m args) _ = none from hrun]
  rfl

end Pke
