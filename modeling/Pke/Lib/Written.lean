import Mathlib.Data.Set.Function
import Mathlib.Order.Interval.Set.Defs
import Mathlib.Tactic.Common

/-!
# Writing a range of cells in parts

Cells are the arguments of a function. `Written f g dst v lo hi` says that `g`
is `f` with the values `v j` written to the cells `dst j` for `lo ≤ j < hi`.
A loop that fills a range from its lower end composes its rounds with
`Written.up`, one that fills it from its upper end with `Written.down`.
-/

namespace Pke.Lib

variable {α β : Type} {f g g' : α → β} {dst : ℕ → α} {v : ℕ → β} {lo mid hi : ℕ}

/-- From `f` to `g` the values `v j` were written to the cells `dst j` for `j` from
    `lo` up to `hi`, and nothing else. -/
structure Written (f g : α → β) (dst : ℕ → α) (v : ℕ → β) (lo hi : ℕ) : Prop where
  new : ∀ j, lo ≤ j → j < hi → g (dst j) = v j
  old : ∀ a, (∀ j, lo ≤ j → j < hi → a ≠ dst j) → g a = f a

namespace Written

theorem refl (f : α → β) (dst : ℕ → α) (v : ℕ → β) (n : ℕ) : Written f f dst v n n :=
  ⟨fun _ hlo hhi => absurd hhi (Nat.not_lt.mpr hlo), fun _ _ => rfl⟩

/-- The next part of the range is written. -/
theorem up (h₁ : Written f g dst v lo mid) (h₂ : Written g g' dst v mid hi) (hlo : lo ≤ mid)
    (hhi : mid ≤ hi) (hinj : Set.InjOn dst (Set.Iio hi)) : Written f g' dst v lo hi := by
  refine ⟨fun j hj hj' => ?_, fun a ha => ?_⟩
  · rcases Nat.lt_or_ge j mid with hlt | hge
    · rw [h₂.old (dst j) fun i hi₁ hi₂ he => ?_]
      · exact h₁.new j hj hlt
      · have := hinj (Set.mem_Iio.mpr hj') (Set.mem_Iio.mpr hi₂) he
        omega
    · exact h₂.new j hge hj'
  · rw [h₂.old a fun j hj hj' => ha j (hlo.trans hj) hj',
      h₁.old a fun j hj hj' => ha j hj (hj'.trans_le hhi)]

/-- The part of the range before it is written. -/
theorem down (h₁ : Written f g dst v mid hi) (h₂ : Written g g' dst v lo mid) (hlo : lo ≤ mid)
    (hhi : mid ≤ hi) (hinj : Set.InjOn dst (Set.Iio hi)) : Written f g' dst v lo hi := by
  refine ⟨fun j hj hj' => ?_, fun a ha => ?_⟩
  · rcases Nat.lt_or_ge j mid with hlt | hge
    · exact h₂.new j hj hlt
    · rw [h₂.old (dst j) fun i hi₁ hi₂ he => ?_]
      · exact h₁.new j hge hj'
      · have := hinj (Set.mem_Iio.mpr hj') (Set.mem_Iio.mpr (hi₂.trans_le hhi)) he
        omega
  · rw [h₂.old a fun j hj hj' => ha j hj (hj'.trans_le hhi),
      h₁.old a fun j hj hj' => ha j (hlo.trans hj) hj']

end Written

end Pke.Lib
