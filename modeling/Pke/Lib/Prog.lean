import Mathlib.Logic.Basic
import Mathlib.Tactic.Common

/-!
# Programs that may leave or stop

The outcome of a piece of system code is one of three things: it returns to its
caller with a value, it leaves through an exit that never comes back to the
caller (`exit`), or the machine stops (`halt`). `Prog σ ε α` is a state
transformer with such outcomes; `bind` only continues after a return, so the
code behind a call that exits is never run.

Results:
* `bind_eq_ret`, `bind_eq_exit`: what a sequence did, in terms of its two halves.
* `zoom_eq_ret`: the same for a program that only sees a part of the state.
* `wp` and its rules: what holds of the outcome, with one condition for
  returning, one for leaving and one for stopping.
-/

namespace Pke.Lib

/-- What running a program from a state produces. -/
inductive Out (σ ε α : Type) where
  | ret (a : α) (s : σ)
  | exit (s : σ)
  | halt (e : ε)

/-- A program on states `σ` that can stop with a reason in `ε`. -/
def Prog (σ ε α : Type) : Type := σ → Out σ ε α

namespace Prog

variable {σ τ ε α β : Type}

instance : Monad (Prog σ ε) where
  pure a := fun s => .ret a s
  bind c k := fun s =>
    match c s with
    | .ret a s' => k a s'
    | .exit s' => .exit s'
    | .halt e => .halt e

/-- Stop the machine. -/
def halt (e : ε) : Prog σ ε α := fun _ => .halt e

/-- Leave for good in the current state. -/
def leave : Prog σ ε α := fun s => .exit s

/-- Read a part of the state. -/
def gets (f : σ → α) : Prog σ ε α := fun s => .ret (f s) s

/-- Change the state. -/
def modify (f : σ → σ) : Prog σ ε Unit := fun s => .ret () (f s)

/-- Run a program that works on a part `τ` of the state `σ`. -/
def zoom (get : σ → τ) (put : σ → τ → σ) (c : Prog τ ε α) : Prog σ ε α := fun s =>
  match c (get s) with
  | .ret a t => .ret a (put s t)
  | .exit t => .exit (put s t)
  | .halt e => .halt e

@[simp] theorem pure_apply (a : α) (s : σ) : (pure a : Prog σ ε α) s = .ret a s := rfl

@[simp] theorem halt_apply (e : ε) (s : σ) : (halt e : Prog σ ε α) s = .halt e := rfl

@[simp] theorem leave_apply (s : σ) : (leave : Prog σ ε α) s = .exit s := rfl

@[simp] theorem gets_apply (f : σ → α) (s : σ) : (gets f : Prog σ ε α) s = .ret (f s) s := rfl

@[simp] theorem modify_apply (f : σ → σ) (s : σ) :
    (modify f : Prog σ ε Unit) s = .ret () (f s) := rfl

theorem ite_apply (p : Prop) [Decidable p] (c d : Prog σ ε α) (s : σ) :
    (if p then c else d) s = if p then c s else d s := by
  split_ifs <;> rfl

theorem bind_apply (c : Prog σ ε α) (k : α → Prog σ ε β) (s : σ) :
    (c >>= k) s = match c s with
      | .ret a s' => k a s'
      | .exit s' => .exit s'
      | .halt e => .halt e := rfl

theorem bind_pure (c : Prog σ ε α) : (c >>= fun a => pure a) = c := by
  funext s
  rw [bind_apply]
  cases c s <;> rfl

theorem bind_assoc {γ : Type} (c : Prog σ ε α) (k : α → Prog σ ε β) (l : β → Prog σ ε γ) :
    c >>= k >>= l = c >>= fun a => k a >>= l := by
  funext s
  rw [bind_apply, bind_apply, bind_apply]
  cases c s <;> rfl

theorem bind_of_ret {c : Prog σ ε α} {s s' : σ} {a : α} (h : c s = .ret a s')
    (k : α → Prog σ ε β) : (c >>= k) s = k a s' := by
  rw [bind_apply, h]

theorem bind_of_exit {c : Prog σ ε α} {s s' : σ} (h : c s = .exit s')
    (k : α → Prog σ ε β) : (c >>= k) s = .exit s' := by
  rw [bind_apply, h]

theorem bind_of_halt {c : Prog σ ε α} {s : σ} {e : ε} (h : c s = .halt e)
    (k : α → Prog σ ε β) : (c >>= k) s = .halt e := by
  rw [bind_apply, h]

theorem bind_eq_ret {c : Prog σ ε α} {k : α → Prog σ ε β} {s s'' : σ} {b : β} :
    (c >>= k) s = .ret b s'' ↔ ∃ a s', c s = .ret a s' ∧ k a s' = .ret b s'' := by
  rw [bind_apply]
  cases c s <;> simp

theorem bind_eq_exit {c : Prog σ ε α} {k : α → Prog σ ε β} {s s'' : σ} :
    (c >>= k) s = .exit s'' ↔ c s = .exit s'' ∨ ∃ a s', c s = .ret a s' ∧ k a s' = .exit s'' := by
  rw [bind_apply]
  cases c s <;> simp

/-! ## Working on a part of the state -/

variable {get : σ → τ} {put : σ → τ → σ} {c : Prog τ ε α}

theorem zoom_eq_ret {s s' : σ} {a : α} :
    zoom get put c s = .ret a s' ↔ ∃ t, c (get s) = .ret a t ∧ put s t = s' := by
  unfold zoom
  cases c (get s) <;> simp

theorem zoom_of_ret {s : σ} {t : τ} {a : α} (h : c (get s) = .ret a t) :
    zoom get put c s = .ret a (put s t) := by
  unfold zoom; rw [h]

/-! ## Weakest preconditions -/

/-- The outcome of `c` from `s` meets the condition for its kind. -/
def wp (c : Prog σ ε α) (R : α → σ → Prop) (E : σ → Prop) (H : ε → Prop) (s : σ) : Prop :=
  match c s with
  | .ret a s' => R a s'
  | .exit s' => E s'
  | .halt e => H e

variable {R R' : α → σ → Prop} {E E' : σ → Prop} {H H' : ε → Prop} {s : σ}

theorem wp_bind {d : Prog σ ε α} {k : α → Prog σ ε β} {R : β → σ → Prop} :
    wp (d >>= k) R E H s ↔ wp d (fun a s' => wp (k a) R E H s') E H s := by
  unfold wp
  rw [bind_apply]
  cases d s <;> rfl

@[simp] theorem wp_pure {a : α} : wp (pure a) R E H s ↔ R a s := Iff.rfl

@[simp] theorem wp_halt {e : ε} : wp (halt e : Prog σ ε α) R E H s ↔ H e := Iff.rfl

@[simp] theorem wp_leave : wp (leave : Prog σ ε α) R E H s ↔ E s := Iff.rfl

@[simp] theorem wp_gets {f : σ → α} : wp (gets f) R E H s ↔ R (f s) s := Iff.rfl

@[simp] theorem wp_modify {f : σ → σ} {R : Unit → σ → Prop} :
    wp (modify f) R E H s ↔ R () (f s) := Iff.rfl

theorem wp_zoom {d : Prog τ ε α} :
    wp (zoom get put d) R E H s ↔
      wp d (fun a t => R a (put s t)) (fun t => E (put s t)) H (get s) := by
  unfold wp zoom
  cases d (get s) <;> rfl

theorem wp_of_ret {d : Prog σ ε α} {a : α} {s' : σ} (h : d s = .ret a s') :
    wp d R E H s ↔ R a s' := by
  unfold wp
  rw [h]

theorem wp_of_halt {d : Prog σ ε α} {e : ε} (h : d s = .halt e) : wp d R E H s ↔ H e := by
  unfold wp
  rw [h]

theorem wp_mono {d : Prog σ ε α} (h : wp d R E H s) (hR : ∀ a s', R a s' → R' a s')
    (hE : ∀ s', E s' → E' s') (hH : ∀ e, H e → H' e) : wp d R' E' H' s := by
  unfold wp at h ⊢
  cases hd : d s with
  | ret a s' => rw [hd] at h; exact hR a s' h
  | exit s' => rw [hd] at h; exact hE s' h
  | halt e => rw [hd] at h; exact hH e h

/-- Two facts about the outcome of one program. -/
theorem wp_and {d : Prog σ ε α} (h : wp d R E H s) (h' : wp d R' E' H' s) :
    wp d (fun a s' => R a s' ∧ R' a s') (fun s' => E s' ∧ E' s') (fun e => H e ∧ H' e) s := by
  unfold wp at *
  cases hd : d s with
  | ret a s' =>
    rw [hd] at h h'
    exact ⟨h, h'⟩
  | exit s' =>
    rw [hd] at h h'
    exact ⟨h, h'⟩
  | halt e =>
    rw [hd] at h h'
    exact ⟨h, h'⟩

theorem wp_ret {d : Prog σ ε α} {a : α} {s' : σ} (h : wp d R E H s) (hd : d s = .ret a s') :
    R a s' := by
  unfold wp at h
  rw [hd] at h
  exact h

theorem wp_exit {d : Prog σ ε α} {s' : σ} (h : wp d R E H s) (hd : d s = .exit s') : E s' := by
  unfold wp at h
  rw [hd] at h
  exact h

theorem wp_halted {d : Prog σ ε α} {e : ε} (h : wp d R E H s) (hd : d s = .halt e) : H e := by
  unfold wp at h
  rw [hd] at h
  exact h

/-- Code that neither leaves nor stops returns. -/
theorem returns_of_wp {d : Prog σ ε α} (h : wp d R (fun _ => False) H s) (hH : ∀ e, ¬ H e) :
    ∃ a s', d s = .ret a s' ∧ R a s' := by
  unfold wp at h
  cases hd : d s with
  | ret a s' => rw [hd] at h; exact ⟨a, s', rfl, h⟩
  | exit s' => rw [hd] at h; exact h.elim
  | halt e => rw [hd] at h; exact (hH e h).elim

theorem exits_of_wp {d : Prog σ ε α} (h : wp d (fun _ _ => False) E H s) (hH : ∀ e, ¬ H e) :
    ∃ s', d s = .exit s' ∧ E s' := by
  unfold wp at h
  cases hd : d s with
  | ret a s' => rw [hd] at h; exact h.elim
  | exit s' => rw [hd] at h; exact ⟨s', rfl, h⟩
  | halt e => rw [hd] at h; exact (hH e h).elim

/-! ## Code that keeps a relation

`Keeps r bad c`: the code returns or stops, never leaves; when it returns, the
states before and after are related by `r`, and it never stops for a reason in
`bad`. -/

/-- See the section's comment. -/
structure Keeps (r : σ → σ → Prop) (bad : ε → Prop) (c : Prog σ ε α) : Prop where
  wp : ∀ s, wp c (fun _ s' => r s s') (fun _ => False) (fun e => ¬ bad e) s

namespace Keeps

variable {r : σ → σ → Prop} {bad : ε → Prop}

theorem pure [Std.Refl r] (a : α) : Keeps r bad (Pure.pure a : Prog σ ε α) :=
  ⟨fun s => Std.Refl.refl s⟩

theorem gets [Std.Refl r] (f : σ → α) : Keeps r bad (Prog.gets f : Prog σ ε α) :=
  ⟨fun s => Std.Refl.refl s⟩

theorem modify {f : σ → σ} (h : ∀ s, r s (f s)) : Keeps r bad (Prog.modify f : Prog σ ε Unit) :=
  ⟨h⟩

theorem halt {e : ε} (h : ¬ bad e) : Keeps r bad (Prog.halt e : Prog σ ε α) := ⟨fun _ => h⟩

theorem bind [IsTrans σ r] {d : Prog σ ε α} {k : α → Prog σ ε β} (hd : Keeps r bad d)
    (hk : ∀ a, Keeps r bad (k a)) : Keeps r bad (d >>= k) := by
  constructor
  intro s
  rw [wp_bind]
  refine wp_mono (hd.wp s) (fun a s' h => ?_) (fun _ h => h) fun _ h => h
  exact wp_mono ((hk a).wp s') (fun _ _ h' => IsTrans.trans _ _ _ h h') (fun _ h => h)
    fun _ h => h

theorem mono {r' : σ → σ → Prop} {d : Prog σ ε α} (hd : Keeps r bad d)
    (hr : ∀ s s', r s s' → r' s s') : Keeps r' bad d :=
  ⟨fun s => wp_mono (hd.wp s) (fun _ s' h => hr s s' h) (fun _ h => h) fun _ h => h⟩

theorem ite {p : Prop} [Decidable p] {c d : Prog σ ε α} (hc : p → Keeps r bad c)
    (hd : ¬ p → Keeps r bad d) : Keeps r bad (if p then c else d) := by
  split_ifs with h
  · exact hc h
  · exact hd h

end Keeps

/-! ## Code that may also leave

`Stays r c`: the states before and after are related by `r`, whether the code
returns or leaves. -/

/-- See the section's comment. -/
structure Stays (r : σ → σ → Prop) (c : Prog σ ε α) : Prop where
  wp : ∀ s, wp c (fun _ s' => r s s') (fun s' => r s s') (fun _ => True) s

namespace Stays

variable {r : σ → σ → Prop}

theorem pure [Std.Refl r] (a : α) : Stays r (Pure.pure a : Prog σ ε α) :=
  ⟨fun s => Std.Refl.refl s⟩

theorem gets [Std.Refl r] (f : σ → α) : Stays r (Prog.gets f : Prog σ ε α) :=
  ⟨fun s => Std.Refl.refl s⟩

theorem modify {f : σ → σ} (h : ∀ s, r s (f s)) : Stays r (Prog.modify f : Prog σ ε Unit) := ⟨h⟩

theorem halt (e : ε) : Stays r (Prog.halt e : Prog σ ε α) := ⟨fun _ => trivial⟩

theorem leave [Std.Refl r] : Stays r (Prog.leave : Prog σ ε α) := ⟨fun s => Std.Refl.refl s⟩

theorem bind [IsTrans σ r] {d : Prog σ ε α} {k : α → Prog σ ε β} (hd : Stays r d)
    (hk : ∀ a, Stays r (k a)) : Stays r (d >>= k) := by
  constructor
  intro s
  rw [wp_bind]
  refine wp_mono (hd.wp s) (fun a s' h => ?_) (fun _ h => h) fun _ h => h
  exact wp_mono ((hk a).wp s') (fun _ _ h' => IsTrans.trans _ _ _ h h')
    (fun _ h' => IsTrans.trans _ _ _ h h') fun _ h => h

theorem ite {p : Prop} [Decidable p] {c d : Prog σ ε α} (hc : Stays r c) (hd : Stays r d) :
    Stays r (if p then c else d) := by
  split_ifs
  · exact hc
  · exact hd

/-- Code on a part of the state that `r` does not look at. -/
theorem zoom (h : ∀ s t, r s (put s t)) (d : Prog τ ε α) : Stays r (Prog.zoom get put d) := by
  constructor
  intro s
  rw [wp_zoom]
  unfold Prog.wp
  cases d (get s) with
  | ret a t => exact h s t
  | exit t => exact h s t
  | halt e => trivial

end Stays

end Prog

end Pke.Lib
