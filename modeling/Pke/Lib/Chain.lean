import Mathlib.Logic.Function.Basic
import Mathlib.Data.List.Basic
import Mathlib.Data.List.Nodup
import Mathlib.Tactic.Common

/-!
# Singly linked lists

A singly linked list is a head pointer and a link field in every node. Nodes
are values of `α`, pointers values of `β`; `enc` gives the pointer to a node,
`link` the pointer stored in it, and `null` ends the list.
`Chain link enc null b l` says that following `link` from `b` visits exactly
the nodes of `l`, in order, and then meets `null`.

Results:
* `Chain.unique`, `Chain.nodup`: a finite chain is determined by its head and
  has no node twice, so being null terminated already excludes a cycle.
* `Chain.congr`: a chain only reads the links of its own nodes.
* `Chain.push`, `Chain.pop`, `Chain.snoc`: the three edits; `Chain.push_unique`
  says that pushing adds one node only.
-/

namespace Pke.Lib

variable {α β : Type} {link link' : α → β} {enc : α → β} {null : β}

/-- The list that starts at a pointer. -/
def Chain (link : α → β) (enc : α → β) (null : β) : β → List α → Prop
  | b, [] => b = null
  | b, a :: l => b = enc a ∧ enc a ≠ null ∧ Chain link enc null (link a) l

namespace Chain

@[simp] theorem nil_iff {b : β} : Chain link enc null b [] ↔ b = null := Iff.rfl

theorem unique (henc : Function.Injective enc) :
    ∀ {b : β} {l l' : List α}, Chain link enc null b l → Chain link enc null b l' → l = l' := by
  intro b l
  induction l generalizing b with
  | nil =>
    intro l' h h'
    cases l' with
    | nil => rfl
    | cons a' l' => exact absurd (h'.1.symm.trans h) h'.2.1
  | cons a l ih =>
    intro l' h h'
    cases l' with
    | nil => exact absurd (h.1.symm.trans h') h.2.1
    | cons a' l' =>
      have ha : a = a' := henc (h.1.symm.trans h'.1)
      subst ha
      rw [ih h.2.2 h'.2.2]

/-- The part of a chain behind one of its nodes hangs off that node's link. -/
theorem drop {b : β} {a : α} {l₁ l₂ : List α} (h : Chain link enc null b (l₁ ++ a :: l₂)) :
    Chain link enc null (link a) l₂ := by
  induction l₁ generalizing b with
  | nil => exact h.2.2
  | cons c l₁ ih => exact ih h.2.2

theorem ne_null {b : β} {a : α} {l : List α} (h : Chain link enc null b l) (ha : a ∈ l) :
    enc a ≠ null := by
  induction l generalizing b with
  | nil => cases ha
  | cons c l ih =>
    rcases List.mem_cons.mp ha with rfl | ha
    · exact h.2.1
    · exact ih h.2.2 ha

theorem nodup (henc : Function.Injective enc) {b : β} {l : List α}
    (h : Chain link enc null b l) : l.Nodup := by
  induction l generalizing b with
  | nil => exact List.nodup_nil
  | cons a l ih =>
    refine List.nodup_cons.mpr ⟨fun ha => ?_, ih h.2.2⟩
    -- a second visit to `a` would make the tail behind it equal to a proper part of itself
    obtain ⟨l₁, l₂, rfl⟩ := List.append_of_mem ha
    have h1 : Chain link enc null (link a) l₂ := drop h.2.2
    have h2 := unique henc h1 h.2.2
    have h3 := congrArg List.length h2
    simp only [List.length_append, List.length_cons] at h3
    omega

theorem congr {b : β} {l : List α} (h : Chain link enc null b l)
    (hl : ∀ a ∈ l, link' a = link a) : Chain link' enc null b l := by
  induction l generalizing b with
  | nil => exact h
  | cons a l ih =>
    refine ⟨h.1, h.2.1, ?_⟩
    rw [hl a List.mem_cons_self]
    exact ih h.2.2 fun c hc => hl c (List.mem_cons_of_mem _ hc)

/-- Put a node in front: its link takes the old head. -/
theorem push {b : β} {a : α} {l : List α} (h : Chain link enc null b l) (ha : enc a ≠ null)
    (hlink : link' a = b) (hl : ∀ c ∈ l, link' c = link c) :
    Chain link' enc null (enc a) (a :: l) := by
  refine ⟨rfl, ha, ?_⟩
  rw [hlink]
  exact h.congr hl

/-- After a node was put in front, it is the only new one. -/
theorem push_unique (henc : Function.Injective enc) {b : β} {a : α} {l p : List α}
    (h : Chain link enc null b l) (ha : enc a ≠ null) (hlink : link' a = b)
    (hl : ∀ c ∈ l, c ≠ a → link' c = link c) (h' : Chain link' enc null (enc a) (p ++ l)) :
    p = [a] := by
  have hnodup := nodup henc h'
  cases p with
  | nil =>
    -- the old list would start with the new node, and then so would its tail
    exfalso
    cases l with
    | nil => exact ha h'
    | cons c l =>
      obtain rfl : a = c := henc h'.1
      have htail := h'.2.2
      rw [hlink, h.1] at htail
      cases l with
      | nil => exact ha htail
      | cons c' l =>
        obtain rfl : a = c' := henc htail.1
        simp at hnodup
  | cons c p =>
    obtain rfl : a = c := henc h'.1
    have htail : Chain link' enc null (link' a) (p ++ l) := h'.2.2
    rw [hlink] at htail
    have hal : a ∉ l := fun hmem => by
      rw [List.cons_append, List.nodup_cons] at hnodup
      exact hnodup.1 (List.mem_append_right _ hmem)
    have hold := h.congr fun c hc => hl c hc fun e => hal (e ▸ hc)
    have hlen := congrArg List.length (unique henc htail hold)
    rw [List.length_append] at hlen
    rw [List.length_eq_zero_iff.mp (by omega : p.length = 0)]

theorem pop {b : β} {a : α} {l : List α} (h : Chain link enc null b (a :: l)) :
    Chain link enc null (link a) l := h.2.2

/-- Put a node at the end: the last node's link takes it, and it ends the list. -/
theorem snoc {b : β} {a last : α} {l : List α}
    (h : Chain link enc null b (l ++ [last])) (ha : enc a ≠ null)
    (hlast : link' last = enc a) (hlink : link' a = null)
    (hl : ∀ c ∈ l, link' c = link c) : Chain link' enc null b (l ++ [last, a]) := by
  induction l generalizing b with
  | nil =>
    refine ⟨h.1, h.2.1, ?_⟩
    rw [hlast]
    exact ⟨rfl, ha, hlink⟩
  | cons c l ih =>
    refine ⟨h.1, h.2.1, ?_⟩
    rw [hl c List.mem_cons_self]
    exact ih h.2.2 fun d hd => hl d (List.mem_cons_of_mem _ hd)

theorem head_eq {b : β} {a : α} {l : List α} (h : Chain link enc null b (a :: l)) : b = enc a :=
  h.1

end Chain

end Pke.Lib
