import Mathlib.Logic.Relation
import Mathlib.Tactic.Common

/-!
# Code that shares its state with an environment

`Code σ ε α` is code whose atomic accesses to a shared state are its steps: between any two of
them the environment may change the state. A loop repeats its body for as long as the body
returns `true`, so code that waits for the environment is written as it is.

`Triple E G P c Q` is a specification for every interleaving with an environment that takes
steps in `E`: from a state with `P` the code never fails, takes only steps in `G`, can return
from wherever it is, and has `Q` when it returns.

The rules: `Triple.ret`, `Triple.act`, `Triple.bind`, `Triple.loop`, `Triple.pre`,
`Triple.post`. An assertion has to be stable (`Stable`) where the environment can step.
-/

namespace Pke.Lib

open Relation

/-- Code over a shared state. -/
inductive Code (σ ε : Type) : Type → Type 1 where
  | ret {α : Type} (a : α) : Code σ ε α
  /-- One atomic access. -/
  | act {α β : Type} (f : σ → β × σ) (k : β → Code σ ε α) : Code σ ε α
  /-- Repeats the body while it returns `true`. -/
  | again {α : Type} (body : Code σ ε Bool) (k : Code σ ε α) : Code σ ε α
  | fail {α : Type} (e : ε) : Code σ ε α

namespace Code

variable {σ ε α β γ : Type}

/-- Sequencing. -/
protected def bind : Code σ ε α → (α → Code σ ε β) → Code σ ε β
  | ret a, g => g a
  | act f k, g => act f fun b => (k b).bind g
  | .again body k, g => .again body (k.bind g)
  | fail e, _ => fail e

instance : Monad (Code σ ε) where
  pure := ret
  bind := Code.bind

/-- Reads a part of the state. -/
def read (f : σ → α) : Code σ ε α := act (fun s => (f s, s)) ret

/-- Changes the state. -/
def write (f : σ → σ) : Code σ ε Unit := act (fun s => ((), f s)) ret

/-- A loop. -/
def loop (body : Code σ ε Bool) : Code σ ε Unit := .again body (ret ())

/-- The next step; none after a return or a failure. -/
def step : Code σ ε α → σ → Option (Code σ ε α × σ)
  | ret _, _ => none
  | act f k, s => some (k (f s).1, (f s).2)
  | .again body k, s => some (body.bind fun more => if more then .again body k else k, s)
  | fail _, _ => none

theorem bind_assoc (c : Code σ ε α) (g : α → Code σ ε β) (h : β → Code σ ε γ) :
    (c.bind g).bind h = c.bind fun a => (g a).bind h := by
  induction c with
  | ret a => rfl
  | act f k ih => exact congrArg (act f) (funext fun b => ih b g)
  | again body k _ ih => exact congrArg (Code.again body) (ih g)
  | fail e => rfl

theorem step_bind {c c' : Code σ ε α} {s s' : σ} (h : c.step s = some (c', s'))
    (g : α → Code σ ε β) : (c.bind g).step s = some (c'.bind g, s') := by
  cases c with
  | ret a => cases h
  | act f k =>
    cases h
    rfl
  | again body k =>
    cases h
    rw [bind_assoc]
    refine congrArg (fun x => some (body.bind x, s)) (funext fun more => ?_)
    cases more <;> rfl
  | fail e => cases h

/-- Before its first part has returned, a sequence does what that part does. -/
theorem bind_of_not_ret {c : Code σ ε α} (hc : ∀ a, c ≠ ret a) (g : α → Code σ ε β) (s : σ) :
    (∀ b, c.bind g ≠ ret b) ∧ (∀ e, c.bind g = fail e → c = fail e) ∧
      ∀ y, (c.bind g).step s = some y → ∃ z, c.step s = some z ∧ y = (z.1.bind g, z.2) := by
  cases c with
  | ret a => exact absurd rfl (hc a)
  | act f k =>
    refine ⟨fun b h => (by cases h), fun e h => (by cases h), fun y h => ⟨_, rfl, ?_⟩⟩
    exact (Option.some.inj h).symm
  | again body k =>
    refine ⟨fun b h => (by cases h), fun e h => (by cases h), fun y h => ⟨_, rfl, ?_⟩⟩
    exact Option.some.inj (h.symm.trans (step_bind rfl g))
  | fail e =>
    refine ⟨fun b h => (by cases h), fun e' h => ?_, fun y h => (by cases h)⟩
    cases h
    rfl

/-! ## Interleavings -/

/-- One step of the code or of the environment. -/
inductive Moves (E : σ → σ → Prop) : Code σ ε α × σ → Code σ ε α × σ → Prop
  | code {c c' : Code σ ε α} {s s' : σ} (h : c.step s = some (c', s')) : Moves E (c, s) (c', s')
  | env {c : Code σ ε α} {s s' : σ} (h : E s s') : Moves E (c, s) (c, s')

/-- Any number of steps, in any order. -/
def Runs (E : σ → σ → Prop) : Code σ ε α × σ → Code σ ε α × σ → Prop :=
  ReflTransGen (Moves E)

variable {E G : σ → σ → Prop} {c c' : Code σ ε α} {s t : σ}

theorem Runs.code {y : Code σ ε α × σ} (h : c.step s = some y) : Runs E (c, s) y :=
  ReflTransGen.single (.code h)

theorem Runs.env (c : Code σ ε α) (h : ReflTransGen E s t) : Runs E (c, s) (c, t) := by
  induction h with
  | refl => exact ReflTransGen.refl
  | tail _ hE ih => exact ih.tail (.env hE)

/-- Code that meets fewer steps of the environment. -/
theorem Runs.mono {E' : σ → σ → Prop} (hE : ∀ s t, E s t → E' s t) {x y : Code σ ε α × σ}
    (h : Runs E x y) : Runs E' x y := by
  induction h with
  | refl => exact ReflTransGen.refl
  | tail _ hm ih =>
    cases hm with
    | code hstep => exact ih.tail (.code hstep)
    | env henv => exact ih.tail (.env (hE _ _ henv))

/-- Runs the code without the environment, if it ends with no second round of a loop. -/
def exec {α : Type} : Code σ ε α → σ → Option (α × σ)
  | ret a, s => some (a, s)
  | act f k, s => (k (f s).1).exec (f s).2
  | .again body k, s => (body.exec s).bind fun x => if x.1 then none else k.exec x.2
  | fail _, _ => none

theorem Runs.bind {y : Code σ ε α × σ} (h : Runs E (c, s) y) (g : α → Code σ ε β) :
    Runs E (c.bind g, s) (y.1.bind g, y.2) := by
  induction h with
  | refl => exact ReflTransGen.refl
  | tail _ hmove ih =>
    cases hmove with
    | code hstep => exact ih.tail (.code (step_bind hstep g))
    | env hE => exact ih.tail (.env hE)

theorem Moves.of_bind {g : α → Code σ ε β} {y : Code σ ε β × σ} (h : Moves E (c.bind g, s) y) :
    (∃ a, c = .ret a ∧ Moves E (g a, s) y) ∨
      ∃ z : Code σ ε α × σ, y = (z.1.bind g, z.2) ∧ Moves E (c, s) z := by
  by_cases hret : ∃ a, c = .ret a
  · obtain ⟨a, rfl⟩ := hret
    exact .inl ⟨a, rfl, h⟩
  · cases h with
    | env hE => exact .inr ⟨(c, _), rfl, .env hE⟩
    | code hstep =>
      obtain ⟨z, hz, hy⟩ := (bind_of_not_ret (fun a h => hret ⟨a, h⟩) g s).2.2 _ hstep
      exact .inr ⟨z, hy, .code hz⟩

/-- The first part is running, or it has returned and the second one is running. -/
theorem Runs.of_bind {g : α → Code σ ε β} {y : Code σ ε β × σ} (h : Runs E (c.bind g, s) y) :
    (∃ z : Code σ ε α × σ, y = (z.1.bind g, z.2) ∧ Runs E (c, s) z) ∨
      ∃ a t, Runs E (c, s) (.ret a, t) ∧ Runs E (g a, t) y := by
  induction h with
  | refl => exact .inl ⟨(c, s), rfl, ReflTransGen.refl⟩
  | tail _ hmove ih =>
    obtain ⟨⟨c', t⟩, rfl, hrun⟩ | ⟨a, t, hrun, hrest⟩ := ih
    · obtain ⟨a, rfl, hm⟩ | ⟨z, hy, hm⟩ := hmove.of_bind
      · exact .inr ⟨a, t, hrun, ReflTransGen.single hm⟩
      · exact .inl ⟨z, hy, hrun.tail hm⟩
    · exact .inr ⟨a, t, hrun, hrest.tail hmove⟩

theorem Runs.of_exec {a : α} (h : c.exec s = some (a, t)) : Runs E (c, s) (.ret a, t) := by
  induction c generalizing s t with
  | ret b =>
    cases h
    exact ReflTransGen.refl
  | act f k ih => exact ReflTransGen.head (.code rfl) (ih _ h)
  | again body k ihb ihk =>
    rw [exec, Option.bind_eq_some_iff] at h
    obtain ⟨⟨more, u⟩, hbody, hrest⟩ := h
    cases more with
    | true => cases hrest
    | false =>
      have hrun := (ihb hbody).bind fun more => if more then .again body k else k
      exact ReflTransGen.head (.code rfl) (hrun.trans (ihk hrest))
  | fail e => cases h

theorem exec_loop {body : Code σ ε Bool} (h : body.exec s = some (false, t)) :
    (loop body).exec s = some ((), t) := by
  rw [loop, exec, h]
  rfl

@[simp] theorem exec_bind (c : Code σ ε α) (g : α → Code σ ε β) (s : σ) :
    (c >>= g).exec s = (c.exec s).bind fun x => (g x.1).exec x.2 := by
  show (c.bind g).exec s = _
  induction c generalizing s with
  | ret a => rfl
  | act f k ih => exact ih _ g _
  | again body k _ ih =>
    rw [Code.bind, exec, exec, Option.bind_assoc]
    refine congrArg _ (funext fun x => ?_)
    by_cases hx : x.1 = true
    · simp [hx]
    · simp [hx, ih]
  | fail e => rfl

/-! ## Specifications -/

/-- What holds at every moment of a run. -/
structure Fine (E G : σ → σ → Prop) (Q : α → σ → Prop) (x : Code σ ε α × σ) : Prop where
  noFail : ∀ e, x.1 ≠ .fail e
  post : ∀ a, x.1 = .ret a → Q a x.2
  keeps : ∀ y, x.1.step x.2 = some y → G x.2 y.2
  ends : ∃ a t, Runs E x (.ret a, t)

/-- Every interleaving from here is fine at every moment. -/
def Meets (E G : σ → σ → Prop) (Q : α → σ → Prop) (x : Code σ ε α × σ) : Prop :=
  ∀ y, Runs E x y → Fine E G Q y

/-- The specification of code by assertions before and behind it. -/
def Triple (E G : σ → σ → Prop) (P : σ → Prop) (c : Code σ ε α) (Q : α → σ → Prop) : Prop :=
  ∀ s, P s → Meets E G Q (c, s)

/-- The environment keeps the assertion. -/
def Stable (E : σ → σ → Prop) (P : σ → Prop) : Prop := ∀ s t, P s → E s t → P t

variable {P P' : σ → Prop} {Q R : α → σ → Prop}

theorem Stable.reach (hP : Stable E P) (h : ReflTransGen E s t) (hs : P s) : P t := by
  induction h with
  | refl => exact hs
  | tail _ hE ih => exact hP _ _ ih hE

theorem Stable.and {P₁ P₂ : σ → Prop} (h₁ : Stable E P₁) (h₂ : Stable E P₂) :
    Stable E fun s => P₁ s ∧ P₂ s := fun s t hs hE => ⟨h₁ s t hs.1 hE, h₂ s t hs.2 hE⟩

theorem Stable.exists {ι : Type} {P : ι → σ → Prop} (h : ∀ i, Stable E (P i)) :
    Stable E fun s => ∃ i, P i s := fun s t ⟨i, hs⟩ hE => ⟨i, h i s t hs hE⟩

/-- An invariant of the moves whose configurations are all fine. -/
theorem Meets.of_invariant {x : Code σ ε α × σ} (J : Code σ ε α × σ → Prop) (hx : J x)
    (hmove : ∀ y z, J y → Moves E y z → J z) (hfine : ∀ y, J y → Fine E G Q y) :
    Meets E G Q x := fun y hrun => by
  refine hfine y ?_
  induction hrun with
  | refl => exact hx
  | tail _ hm ih => exact hmove _ _ ih hm

theorem Triple.pre (h : Triple E G P' c Q) (hP : ∀ s, P s → P' s) : Triple E G P c Q :=
  fun s hs => h s (hP s hs)

theorem Triple.post (h : Triple E G P c R) (hQ : ∀ a s, R a s → Q a s) : Triple E G P c Q :=
  fun s hs y hrun =>
    have hy := h s hs y hrun
    ⟨hy.noFail, fun a ha => hQ a _ (hy.post a ha), hy.keeps, hy.ends⟩

theorem Triple.exists {ι : Type} {P : ι → σ → Prop} (h : ∀ i, Triple E G (P i) c Q) :
    Triple E G (fun s => ∃ i, P i s) c Q := fun s ⟨i, hs⟩ => h i s hs

theorem Triple.and {p : Prop} (h : p → Triple E G P c Q) :
    Triple E G (fun s => p ∧ P s) c Q := fun s ⟨hp, hs⟩ => h hp s hs

theorem Triple.ret {a : α} (hP : Stable E P) (hQ : ∀ s, P s → Q a s) :
    Triple E G P (.ret a : Code σ ε α) Q := fun s hs => by
  refine Meets.of_invariant (fun y => y.1 = .ret a ∧ P y.2) ⟨rfl, hs⟩ ?_ ?_
  · rintro ⟨c, s⟩ z ⟨rfl, hs⟩ hm
    cases hm with
    | code h => cases h
    | env hE => exact ⟨rfl, hP _ _ hs hE⟩
  · rintro ⟨c, s⟩ ⟨rfl, hs⟩
    refine ⟨fun e h => (by cases h), fun b hb => ?_, fun y h => (by cases h),
      ⟨a, s, ReflTransGen.refl⟩⟩
    cases hb
    exact hQ s hs

/-- An access: the assertion before it is stable, and it leads to the one behind it. -/
theorem Triple.act {f : σ → β × σ} {k : β → Code σ ε α} (R : β → σ → Prop) (hP : Stable E P)
    (hf : ∀ s, P s → G s (f s).2 ∧ R (f s).1 (f s).2) (hk : ∀ b, Triple E G (R b) (k b) Q) :
    Triple E G P (.act f k) Q := fun s hs => by
  refine Meets.of_invariant (fun y => (y.1 = .act f k ∧ P y.2) ∨ Meets E G Q y) (.inl ⟨rfl, hs⟩)
    ?_ ?_
  · rintro ⟨c, s⟩ z (⟨rfl, hs⟩ | hy) hm
    · cases hm with
      | code h =>
        cases h
        exact .inr (hk _ _ (hf s hs).2)
      | env hE => exact .inl ⟨rfl, hP _ _ hs hE⟩
    · exact .inr fun y hrun => hy y (ReflTransGen.head hm hrun)
  · rintro ⟨c, s⟩ (⟨rfl, hs⟩ | hy)
    · obtain ⟨a, t, hend⟩ := (hk _ _ (hf s hs).2 _ ReflTransGen.refl).ends
      refine ⟨fun e h => (by cases h), fun b h => (by cases h), fun y h => ?_,
        ⟨a, t, ReflTransGen.head (.code rfl) hend⟩⟩
      cases h
      exact (hf s hs).1
    · exact hy _ ReflTransGen.refl

theorem Fine.bind {g : α → Code σ ε β} {Q : β → σ → Prop} (hc : Fine E G R (c, s))
    (hret : ∀ a, c = .ret a → Fine E G Q (g a, s))
    (hends : ∃ b t, Runs E (c.bind g, s) (.ret b, t)) :
    Fine E G Q (c.bind g, s) := by
  by_cases h : ∃ a, c = .ret a
  · obtain ⟨a, rfl⟩ := h
    exact hret a rfl
  · obtain ⟨hnot, hfail, hstep⟩ := bind_of_not_ret (fun a ha => h ⟨a, ha⟩) g s
    refine ⟨fun e he => hc.noFail e (hfail e he), fun b hb => absurd hb (hnot b), fun y hy => ?_,
      hends⟩
    obtain ⟨z, hz, rfl⟩ := hstep y hy
    exact hc.keeps z hz

theorem Triple.bind {g : α → Code σ ε β} {Q : β → σ → Prop} (hc : Triple E G P c R)
    (hg : ∀ a, Triple E G (R a) (g a) Q) : Triple E G P (c >>= g) Q := fun s hs y hrun => by
  obtain ⟨⟨c', t⟩, rfl, hfirst⟩ | ⟨a, t, hfirst, hsecond⟩ := hrun.of_bind
  · have hfine := hc s hs _ hfirst
    obtain ⟨a, u, hend⟩ := hfine.ends
    obtain ⟨b, w, hend'⟩ :=
      (hg a u ((hc s hs _ (hfirst.trans hend)).post a rfl) _ ReflTransGen.refl).ends
    exact hfine.bind (fun a ha => hg a t (hfine.post a ha) _ ReflTransGen.refl)
      ⟨b, w, (hend.bind g).trans hend'⟩
  · exact hg a t ((hc s hs _ hfirst).post a rfl) y hsecond

theorem Triple.read {f : σ → β} {g : β → Code σ ε α} (R : β → σ → Prop) (hP : Stable E P)
    (hG : ∀ s, G s s) (hf : ∀ s, P s → R (f s) s) (hg : ∀ b, Triple E G (R b) (g b) Q) :
    Triple E G P (read f >>= g) Q :=
  Triple.act R hP (fun s hs => ⟨hG s, hf s hs⟩) hg

theorem Triple.write {f : σ → σ} {g : Unit → Code σ ε α} (R : σ → Prop) (hP : Stable E P)
    (hf : ∀ s, P s → G s (f s) ∧ R (f s)) (hg : Triple E G R (g ()) Q) :
    Triple E G P (write f >>= g) Q :=
  Triple.act (fun _ => R) hP hf fun _ => hg

/-- A change at the end of the code. -/
theorem Triple.write_ret {f : σ → σ} {R : σ → Prop} (hP : Stable E P) (hR : Stable E R)
    (hf : ∀ s, P s → G s (f s) ∧ R (f s)) :
    Triple E G P (Code.write f : Code σ ε Unit) fun _ => R :=
  Triple.act (fun _ => R) hP hf fun _ => Triple.ret hR fun _ hs => hs

section Loop

variable {body : Code σ ε Bool} {R : σ → Prop}

/-- What follows the body of a loop. -/
def back (body : Code σ ε Bool) (more : Bool) : Code σ ε Unit :=
  if more then loop body else .ret ()

theorem step_loop (s : σ) : (loop body).step s = some (body.bind (back body), s) := rfl

/-- The code of a loop is at its head, or in the body or just behind it. -/
def InLoop (E : σ → σ → Prop) (P : σ → Prop) (body : Code σ ε Bool) (y : Code σ ε Unit × σ) :
    Prop :=
  (y.1 = loop body ∧ P y.2) ∨
    ∃ c s, P s ∧ Runs E (body, s) (c, y.2) ∧ y.1 = c.bind (back body)

theorem InLoop.moves (hP : Stable E P)
    (hbody : Triple E G P body fun more s => if more then P s else R s) {y z : Code σ ε Unit × σ}
    (h : InLoop E P body y) (hm : Moves E y z) : InLoop E P body z := by
  have hhead : ∀ t, P t → Moves E (loop body, t) z → InLoop E P body z := by
    intro t ht hm
    cases hm with
    | code h =>
      cases (step_loop t).symm.trans h
      exact .inr ⟨body, t, ht, ReflTransGen.refl, rfl⟩
    | env hE => exact .inl ⟨rfl, hP _ _ ht hE⟩
  obtain ⟨c, t⟩ := y
  obtain ⟨rfl, ht⟩ | ⟨c, s, hs, hrun, rfl⟩ := h
  · exact hhead t ht hm
  · obtain ⟨more, rfl, hmore⟩ | ⟨⟨c', u⟩, rfl, hfirst⟩ := hm.of_bind
    · have hpost := (hbody s hs _ hrun).post more rfl
      cases more with
      | true => exact hhead t hpost hmore
      | false =>
        cases hmore with
        | code h => cases h
        | env hE => exact .inr ⟨.ret false, s, hs, hrun.tail (.env hE), rfl⟩
    · exact .inr ⟨c', s, hs, hrun.tail hfirst, rfl⟩

/-- A loop: the body keeps the invariant for as long as it repeats, and from every state with
    the invariant, after some steps of the environment, a round is the last one or makes the
    measure smaller. -/
theorem Triple.loop (μ : σ → ℕ) (hG : ∀ s, G s s) (hP : Stable E P)
    (hbody : Triple E G P body fun more s => if more then P s else R s)
    (hdown : ∀ s, P s → ∃ u more t, ReflTransGen E s u ∧ body.exec u = some (more, t) ∧
      (more = true → μ t < μ s)) :
    Triple E G P (loop body) fun _ => R := fun s hs => by
  have hends : ∀ n t, μ t = n → P t → ∃ u, Runs E (Code.loop body, t) (.ret (), u) := by
    intro n
    induction n using Nat.strongRecOn with
    | ind n ih =>
      rintro t rfl ht
      obtain ⟨w, more, u, henv, hexec, hless⟩ := hdown t ht
      have hrun : Runs E (body, t) (.ret more, u) :=
        (Runs.env body henv).trans (Runs.of_exec hexec)
      have hround := ReflTransGen.head (.code (step_loop t)) (hrun.bind (back body))
      have hpost := (hbody t ht _ hrun).post more rfl
      cases more with
      | false => exact ⟨u, hround⟩
      | true =>
        obtain ⟨w, hw⟩ := ih _ (hless rfl) u rfl hpost
        exact ⟨w, hround.trans hw⟩
  have hhead : ∀ t, P t → Fine E G (fun _ s => R s) (Code.loop body, t) := by
    intro t ht
    obtain ⟨u, hu⟩ := hends _ t rfl ht
    refine ⟨fun e h => (by cases h), fun a h => (by cases h), fun y h => ?_, ⟨(), u, hu⟩⟩
    cases (step_loop t).symm.trans h
    exact hG t
  refine Meets.of_invariant (InLoop E P body) (.inl ⟨rfl, hs⟩) (fun y z h hm => h.moves hP hbody hm)
    ?_
  rintro ⟨c, t⟩ (⟨rfl, ht⟩ | ⟨c, s, hs, hrun, rfl⟩)
  · exact hhead t ht
  · have hfine := hbody s hs _ hrun
    refine hfine.bind (fun more hc => ?_) ?_
    · have hpost := hfine.post more hc
      cases more with
      | true => exact hhead t hpost
      | false =>
        exact ⟨fun e h => (by cases h), fun _ _ => hpost, fun y h => (by cases h),
          ⟨(), t, ReflTransGen.refl⟩⟩
    · obtain ⟨more, u, hend⟩ := hfine.ends
      have hpost := (hbody s hs _ (hrun.trans hend)).post more rfl
      cases more with
      | false => exact ⟨(), u, hend.bind _⟩
      | true =>
        obtain ⟨w, hw⟩ := hends _ u rfl hpost
        exact ⟨(), w, (hend.bind _).trans hw⟩

end Loop

end Code

end Pke.Lib
