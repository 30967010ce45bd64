import Mathlib.Logic.Function.Iterate
import Mathlib.Tactic.Common

/-!
# Lists laid out in a store

A store is read by `get` at addresses, and `next` is the address behind an address.
`Laid get next a l` says that the values of `l` stand in the store one behind the other,
the first at `a`. What stands behind a list is found by going `next` over its length
(`laid_append`), and a layout only depends on the addresses it covers (`Laid.congr`).
-/

namespace Pke.Lib

variable {α β : Type} {get get' : α → β} {next : α → α}

/-- The values of the list from an address on. -/
def Laid (get : α → β) (next : α → α) : α → List β → Prop
  | _, [] => True
  | a, b :: l => get a = b ∧ Laid get next (next a) l

@[simp] theorem laid_nil (a : α) : Laid get next a [] := trivial

@[simp] theorem laid_cons {a : α} {b : β} {l : List β} :
    Laid get next a (b :: l) ↔ get a = b ∧ Laid get next (next a) l := Iff.rfl

theorem laid_append {a : α} {l₁ l₂ : List β} :
    Laid get next a (l₁ ++ l₂) ↔
      Laid get next a l₁ ∧ Laid get next (next^[l₁.length] a) l₂ := by
  induction l₁ generalizing a with
  | nil => simp
  | cons b l₁ ih => simp [ih, and_assoc]

theorem Laid.congr {a : α} {l : List β} (h : Laid get next a l)
    (hget : ∀ k < l.length, get' (next^[k] a) = get (next^[k] a)) : Laid get' next a l := by
  induction l generalizing a with
  | nil => trivial
  | cons b l ih =>
    refine ⟨(hget 0 (Nat.succ_pos _)).trans h.1, ih h.2 fun k hk => ?_⟩
    exact hget (k + 1) (Nat.succ_lt_succ hk)

end Pke.Lib
