import Pke.Util.Snprintf

/-!
# What a format prints

`vprintk` hands the text of its format to the host (`vprintk_eq`), or its first 255
bytes and a NUL. A format prints a given text whatever stands in the registers
exactly if it has it as plain text: up to its end, or up to a `%` that no
conversion follows.
-/

namespace Pke

open Lib

variable {m : Mem} {args args' : ℕ → Word} {c : BitVec 8} {bs fmt text : List (BitVec 8)}
  {out : ℕ → BitVec 8}

/-! ## `vprintk` -/

theorem vprintk_of_none (h : produced m args .start fmt = none) :
    vprintk m args fmt out = none := by
  rw [vprintk, vsnprintf_of_none h]
  rfl

/-- The comparison of `vprintk` for a text of this length. -/
theorem result_toNat {len : ℕ} (h : len < 2 ^ 32) :
    ((BitVec.ofNat 32 len).signExtend 64).toNat =
      if len < 2 ^ 31 then len else len + (2 ^ 64 - 2 ^ 32) := by
  rw [BitVec.toNat_signExtend, BitVec.toNat_setWidth, BitVec.msb_eq_decide, BitVec.toNat_ofNat,
    Nat.mod_eq_of_lt h]
  split_ifs <;> simp_all <;> omega

/-- Text that fits into the buffer comes out as it is. -/
theorem vprintk_of_lt (h : produced m args .start fmt = some text) (hlen : text.length < 256)
    (out : ℕ → BitVec 8) : vprintk m args fmt out = some text := by
  have hsize : ((BitVec.ofNat 32 text.length).signExtend 64).toNat = text.length := by
    rw [result_toNat (by omega), if_pos (by omega)]
  rw [vprintk, vsnprintf_of_produced h]
  change some ((List.range _).map _) = _
  rw [hsize, if_pos hlen]
  congr 1
  refine List.ext_getElem? fun k => ?_
  rw [List.getElem?_map]
  rcases Nat.lt_or_ge k text.length with hk | hk
  · rw [List.getElem?_range hk]
    exact fitted_of_lt hk (by omega)
  · rw [List.getElem?_eq_none (by simpa using hk), List.getElem?_eq_none hk]
    rfl

/-- Of a longer text the first 255 bytes come out, and a NUL. -/
theorem vprintk_of_ge (h : produced m args .start fmt = some text) (hlen : 256 ≤ text.length)
    (hlt : text.length < 2 ^ 32) (out : ℕ → BitVec 8) :
    vprintk m args fmt out = some (text.take 255 ++ [0]) := by
  have hsize : ¬ ((BitVec.ofNat 32 text.length).signExtend 64).toNat < 256 := by
    rw [result_toNat hlt]
    split_ifs <;> omega
  rw [vprintk, vsnprintf_of_produced h]
  change some ((List.range _).map _) = _
  rw [if_neg hsize]
  congr 1
  refine List.ext_getElem? fun k => ?_
  rw [List.getElem?_map]
  rcases Nat.lt_trichotomy k 255 with hk | rfl | hk
  · rw [List.getElem?_range (by omega), List.getElem?_append_left (by simp; omega),
      List.getElem?_take_of_lt hk]
    exact fitted_of_lt (by omega) (by omega)
  · have hnul : fitted 256 text out 255 = 0 := fitted_of_full rfl (by omega)
    rw [List.getElem?_range (by omega), List.getElem?_append_right (by simp)]
    simp [hnul, Nat.min_eq_left (show 255 ≤ text.length by omega)]
  · rw [List.getElem?_eq_none (by simp; omega), List.getElem?_eq_none (by simp; omega)]
    rfl

/-- What comes out in full was produced in full. -/
theorem produced_of_vprintk (hlen : text.length < 256) (h : vprintk m args fmt out = some text)
    (hlt : ∀ bs, produced m args .start fmt = some bs → bs.length < 2 ^ 32) :
    produced m args .start fmt = some text := by
  cases hprod : produced m args .start fmt with
  | none =>
    rw [vprintk_of_none hprod] at h
    cases h
  | some bs =>
    rcases Nat.lt_or_ge bs.length 256 with hlt' | hge
    · rw [← h, vprintk_of_lt hprod hlt']
    · rw [vprintk_of_ge hprod hge (hlt bs hprod)] at h
      have := congrArg List.length (Option.some.inj h)
      simp only [List.length_append, List.length_take, List.length_singleton] at this
      omega

/-! ## Formats that print themselves -/

variable {q : Mode}

theorem produced_append (xs ys : List (BitVec 8)) (q : Mode) :
    produced m args q (xs ++ ys) = (produced m args q xs).bind fun bs =>
      (produced m args (xs.foldl Mode.next q) ys).map fun bs' => bs ++ bs' := by
  induction xs generalizing q with
  | nil => simp [produced]
  | cons c xs ih =>
    simp only [List.cons_append, produced, List.foldl_cons, ih]
    cases q.text m args c with
    | none => rfl
    | some text =>
      cases produced m args (q.next c) xs with
      | none => rfl
      | some bs =>
        cases produced m args (xs.foldl Mode.next (q.next c)) ys with
        | none => rfl
        | some bs' => simp

/-- Text without `%` is produced as it is. -/
theorem produced_text (m : Mem) (args : ℕ → Word) (hq : q.format = false) :
    ∀ {bs : List (BitVec 8)}, ascii '%' ∉ bs →
      produced m args q bs = some bs ∧ bs.foldl Mode.next q = q := by
  intro bs
  induction bs with
  | nil => exact fun _ => ⟨rfl, rfl⟩
  | cons c bs ih =>
    intro hbs
    obtain ⟨hc, hbs⟩ := not_or.mp (mt List.mem_cons.mpr hbs)
    have hnext : q.next c = q := by simp [Mode.next, hq, Ne.symm hc]
    have htext : q.text m args c = some [c] := by simp [Mode.text, hq, Ne.symm hc]
    obtain ⟨hprod, hmode⟩ := ih hbs
    rw [produced, List.foldl_cons, hnext, htext, hprod]
    exact ⟨rfl, hmode⟩

/-- Behind a `%`, everything before the next conversion is swallowed. -/
theorem produced_silent (m : Mem) (args : ℕ → Word) :
    ∀ {bs : List (BitVec 8)} {q : Mode}, q.format = true → (∀ c ∈ bs, ¬ IsConversion c) →
      produced m args q bs = some [] ∧ (bs.foldl Mode.next q).format = true ∧
        (bs.foldl Mode.next q).taken = q.taken := by
  intro bs
  induction bs with
  | nil => exact fun hq _ => ⟨rfl, hq, rfl⟩
  | cons c bs ih =>
    intro q hq hbs
    have hc : ¬ IsConversion c := hbs c List.mem_cons_self
    have htext : q.text m args c = some [] := by simp [Mode.text, hq, hc]
    have hnext : (q.next c).format = true ∧ (q.next c).taken = q.taken := by
      unfold Mode.next
      rw [if_pos hq, if_neg hc]
      split_ifs
      · exact ⟨hq, rfl⟩
      · exact ⟨hq, rfl⟩
    obtain ⟨hprod, hformat, htaken⟩ := ih hnext.1 fun c hc => hbs c (List.mem_cons_of_mem _ hc)
    rw [produced, htext, hprod, List.foldl_cons]
    exact ⟨rfl, hformat, htaken.trans hnext.2⟩

/-- Only the arguments not yet taken matter. -/
theorem produced_congr :
    ∀ {bs : List (BitVec 8)} {q : Mode}, (∀ k, q.taken ≤ k → args k = args' k) →
      produced m args q bs = produced m args' q bs := by
  intro bs
  induction bs with
  | nil => exact fun _ => rfl
  | cons c bs ih =>
    intro q hargs
    have htext : q.text m args c = q.text m args' c := by
      rw [Mode.text, Mode.text, hargs _ le_rfl]
    have htaken : q.taken ≤ (q.next c).taken := by
      unfold Mode.next
      split_ifs <;> simp
    rw [produced, produced, htext, ih fun k hk => hargs k (htaken.trans hk)]

/-- The format prints itself up to its end or up to a `%` that no conversion follows. -/
structure Plain (fmt text : List (BitVec 8)) : Prop where
  percent : ascii '%' ∉ text
  rest : fmt = text ∨ ∃ tail, fmt = text ++ ascii '%' :: tail ∧ ∀ c ∈ tail, ¬ IsConversion c

theorem produced_percent (longarg : Bool) (taken : ℕ) (bs : List (BitVec 8)) :
    produced m args ⟨false, longarg, taken⟩ (ascii '%' :: bs) =
      produced m args ⟨true, longarg, taken⟩ bs := by
  change ((produced m args ⟨true, longarg, taken⟩ bs).bind fun rest => some ([] ++ rest)) = _
  cases produced m args ⟨true, longarg, taken⟩ bs <;> rfl

theorem Plain.produced (h : Plain fmt text) (m : Mem) (args : ℕ → Word) :
    produced m args .start fmt = some text := by
  obtain ⟨hprod, hmode⟩ := produced_text m args (q := .start) rfl h.percent
  rcases h.rest with rfl | ⟨tail, rfl, htail⟩
  · exact hprod
  · rw [produced_append, hprod, hmode, produced_percent, (produced_silent m args rfl htail).1]
    simp

/-! ## Formats that do not -/

/-- Arguments of which only the first may differ from 0. -/
def firstArg (w : Word) (k : ℕ) : Word := if k = 0 then w else 0

theorem hexText_ne : ∀ longarg, hexText (vaNum longarg 0) (hexLength longarg) ≠
    hexText (vaNum longarg 1) (hexLength longarg) := by
  decide

theorem intText_ne : ∀ longarg, intText (vaNum longarg 0) ≠ intText (vaNum longarg 1) := by
  decide

/-- A conversion shows whether its argument is 0 or 1, or faults. -/
theorem convText_ne (m : Mem) (longarg : Bool) (hc : IsConversion c) :
    convText m longarg 0 c = none ∨ convText m longarg 0 c ≠ convText m longarg 1 c := by
  rcases hc with rfl | rfl | rfl | rfl | rfl
  · refine Or.inr fun h => ?_
    have h' : ascii '0' :: ascii 'x' :: hexText 0 16 = ascii '0' :: ascii 'x' :: hexText 1 16 :=
      Option.some.inj h
    exact hexText_ne true (List.cons.inj (List.cons.inj h').2).2
  · exact Or.inr fun h => hexText_ne longarg (Option.some.inj h)
  · exact Or.inr fun h => intText_ne longarg (Option.some.inj h)
  · exact Or.inl rfl
  · refine Or.inr fun h => ?_
    have h' : [(0 : Word).setWidth 8] = [(1 : Word).setWidth 8] := Option.some.inj h
    exact absurd h' (by decide)

/-- A format up to its first conversion: text, a `%` and characters that are swallowed. -/
theorem produced_conversion {pre mid tail : List (BitVec 8)} (hpre : ascii '%' ∉ pre)
    (hmid : ∀ c ∈ mid, ¬ IsConversion c) (hc : IsConversion c) (w : Word) :
    produced m (firstArg w) .start (pre ++ ascii '%' :: (mid ++ c :: tail)) =
      (convText m (mid.foldl Mode.next ⟨true, false, 0⟩).longarg w c).bind fun bs =>
        (produced m (firstArg 0) ⟨false, false, 1⟩ tail).map fun rest => pre ++ (bs ++ rest) := by
  obtain ⟨hpre, hstart⟩ := produced_text m (firstArg w) (q := .start) rfl hpre
  obtain ⟨hsilent, hformat, htaken⟩ :=
    produced_silent m (firstArg w) (q := ⟨true, false, 0⟩) rfl hmid
  rw [produced_append, hpre, hstart, produced_percent, produced_append, hsilent]
  generalize mid.foldl Mode.next ⟨true, false, 0⟩ = q at hformat htaken ⊢
  have htext : q.text m (firstArg w) c = convText m q.longarg w c := by
    rw [Mode.text, if_pos hformat, if_pos hc, htaken]
    rfl
  have hrest : produced m (firstArg w) ⟨false, false, 1⟩ tail =
      produced m (firstArg 0) ⟨false, false, 1⟩ tail := by
    refine produced_congr fun k hk => ?_
    rw [firstArg, firstArg, if_neg (Nat.ne_of_gt hk), if_neg (Nat.ne_of_gt hk)]
  rw [produced, htext, Mode.next_conversion hformat hc, htaken, hrest]
  cases convText m q.longarg w c with
  | none => rfl
  | some bs =>
    cases produced m (firstArg 0) ⟨false, false, 1⟩ tail with
    | none => rfl
    | some rest => simp

/-- What a format produces whatever its arguments are, it has as plain text. -/
theorem plain_of_produced (h0 : produced m (firstArg 0) .start fmt = some text)
    (h1 : produced m (firstArg 1) .start fmt = some text) : Plain fmt text := by
  by_cases hper : ascii '%' ∈ fmt
  · obtain ⟨pre, tail, rfl, hpre⟩ := List.eq_append_cons_of_mem hper
    cases hfind : tail.find? fun c => decide (IsConversion c) with
    | none =>
      have htail : ∀ c ∈ tail, ¬ IsConversion c := by simpa using hfind
      have hplain : Plain (pre ++ ascii '%' :: tail) pre := ⟨hpre, Or.inr ⟨tail, rfl, htail⟩⟩
      obtain rfl := Option.some.inj ((hplain.produced m _).symm.trans h0)
      exact hplain
    | some c =>
      obtain ⟨hc, mid, tail, rfl, hmid⟩ := List.find?_eq_some_iff_append.mp hfind
      have hc : IsConversion c := by simpa using hc
      have hmid : ∀ c ∈ mid, ¬ IsConversion c := by simpa using hmid
      rw [produced_conversion hpre hmid hc] at h0 h1
      exfalso
      rcases convText_ne m (mid.foldl Mode.next ⟨true, false, 0⟩).longarg hc with hnone | hne
      · rw [hnone] at h0
        cases h0
      · obtain ⟨bs, hbs, hmap⟩ := Option.bind_eq_some_iff.mp h0
        obtain ⟨bs', hbs', hmap'⟩ := Option.bind_eq_some_iff.mp h1
        obtain ⟨rest, hrest, rfl⟩ := Option.map_eq_some_iff.mp hmap
        obtain ⟨rest', hrest', heq⟩ := Option.map_eq_some_iff.mp hmap'
        obtain rfl : rest = rest' := Option.some.inj (hrest.symm.trans hrest')
        have hsame : bs' = bs := by simpa using heq
        exact hne (by rw [hbs, hbs', hsame])
  · have hplain : Plain fmt fmt := ⟨hper, Or.inl rfl⟩
    obtain rfl := Option.some.inj ((hplain.produced m _).symm.trans h0)
    exact hplain

theorem hexText_length (num : Word) (i : ℕ) : (hexText num i).length = i := by
  induction i with
  | zero => rfl
  | succ i ih => simp [hexText, ih]

theorem intText_length : ∀ longarg, (intText (vaNum longarg 0)).length = 1 ∧
    (intText (vaNum longarg 1)).length = 1 := by
  decide

/-- A conversion of 0 or 1 is short. -/
theorem convText_length {longarg : Bool} {w : Word} (hw : w = 0 ∨ w = 1)
    (h : convText m longarg w c = some text) : text.length ≤ 18 := by
  unfold convText at h
  split_ifs at h
  · obtain rfl := Option.some.inj h
    simp [hexText_length]
  · obtain rfl := Option.some.inj h
    rw [hexText_length]
    cases longarg <;> decide
  · obtain rfl := Option.some.inj h
    have hlen := intText_length longarg
    rcases hw with rfl | rfl
    · omega
    · omega
  · rcases hw with rfl | rfl <;> cases h
  · obtain rfl := Option.some.inj h
    exact Nat.le_of_ble_eq_true rfl

theorem firstArg_cases {w : Word} (hw : w = 0 ∨ w = 1) (k : ℕ) :
    firstArg w k = 0 ∨ firstArg w k = 1 := by
  unfold firstArg
  split_ifs
  · exact hw
  · exact Or.inl rfl

theorem produced_length {w : Word} (hw : w = 0 ∨ w = 1) :
    ∀ {fmt : List (BitVec 8)} {q : Mode} {bs : List (BitVec 8)},
      produced m (firstArg w) q fmt = some bs → bs.length ≤ 18 * fmt.length := by
  intro fmt
  induction fmt with
  | nil =>
    intro q bs h
    obtain rfl := Option.some.inj h
    exact le_rfl
  | cons c fmt ih =>
    intro q bs h
    obtain ⟨text, htext, h⟩ := Option.bind_eq_some_iff.mp h
    obtain ⟨rest, hrest, h⟩ := Option.bind_eq_some_iff.mp h
    obtain rfl := Option.some.inj h
    have hlen : text.length ≤ 18 := by
      unfold Mode.text at htext
      split_ifs at htext
      · exact convText_length (firstArg_cases hw _) htext
      all_goals
        obtain rfl := Option.some.inj htext
        exact Nat.le_of_ble_eq_true rfl
    have := ih hrest
    rw [List.length_append, List.length_cons]
    omega

/-- **A format prints a text whatever stands in the registers** exactly if it has it as
    plain text. -/
theorem vprintk_eq_iff (hlen : text.length < 256) (hfmt : fmt.length ≤ 2 ^ 27) :
    (∀ args out, vprintk m args fmt out = some text) ↔ Plain fmt text := by
  constructor
  · intro h
    have key : ∀ w, w = 0 ∨ w = 1 → produced m (firstArg w) .start fmt = some text := by
      intro w hw
      refine produced_of_vprintk hlen (h (firstArg w) fun _ => 0) fun bs hbs => ?_
      have := produced_length hw hbs
      omega
    exact plain_of_produced (key 0 (Or.inl rfl)) (key 1 (Or.inr rfl))
  · intro h args out
    exact vprintk_of_lt (h.produced m args) hlen out

end Pke
