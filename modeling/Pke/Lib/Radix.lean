import Mathlib.Data.Set.Basic
import Mathlib.Data.List.Induction
import Mathlib.Data.Finset.Card
import Mathlib.Tactic.Common

/-!
# Radix trees in a paged memory

A radix tree is a set of pages whose entries point to pages. The memory is a
function `m : P → I → W` from a page and an index in it to the entry there, and
`dec : W → Option P` reads an entry: the page it points to when the entry is
valid, `none` otherwise. A path is the list of indices taken from the root.
Pages reached by at most `n` steps are the tables of the tree; the entries of
the tables at depth exactly `n` are its leaves.

A `Forest` is a set of roots whose tables are all distinct, within one tree and
between trees. Three edits are enough to describe an operation on a forest:
* `Forest.link`: hang a fresh empty table under an invalid entry; no
  translation changes.
* `Forest.leafAt_write`: overwrite one leaf; that translation changes and no
  other.
* `Forest.frame`: write pages that are not tables; nothing changes.
-/

namespace Pke.Lib.Radix

variable {P I W : Type} (dec : W → Option P)

/-- The page at the end of a path. -/
def nodeAt (m : P → I → W) : P → List I → Option P
  | p, [] => some p
  | p, i :: π => (dec (m p i)).bind fun q => nodeAt m q π

/-- The valid entry at index `i` of the table at the end of a path. -/
def leafAt (m : P → I → W) (r : P) (π : List I) (i : I) : Option W :=
  (nodeAt dec m r π).bind fun p => if (dec (m p i)).isSome then some (m p i) else none

/-- The tables of the trees rooted in `R`: the pages at most `n` steps away. -/
def nodes (m : P → I → W) (n : ℕ) (R : Set P) : Set P :=
  {p | ∃ r ∈ R, ∃ π : List I, π.length ≤ n ∧ nodeAt dec m r π = some p}

/-- No page is used as a table twice. -/
def Forest (m : P → I → W) (n : ℕ) (R : Set P) : Prop :=
  ∀ r ∈ R, ∀ r' ∈ R, ∀ (π π' : List I) (p : P), π.length ≤ n → π'.length ≤ n →
    nodeAt dec m r π = some p → nodeAt dec m r' π' = some p → r = r' ∧ π = π'

/-- How many of the tables at the end of the paths `Q` do not exist. -/
def missing (m : P → I → W) (r : P) (Q : Finset (List I)) : ℕ :=
  (Q.filter fun π => (nodeAt dec m r π).isNone).card

variable {dec} {m m' : P → I → W} {n : ℕ} {R : Set P}

@[simp] theorem nodeAt_nil (m : P → I → W) (r : P) : nodeAt dec m r [] = some r := rfl

@[simp] theorem nodeAt_cons (m : P → I → W) (r : P) (i : I) (π : List I) :
    nodeAt dec m r (i :: π) = (dec (m r i)).bind fun q => nodeAt dec m q π := rfl

theorem nodeAt_append (m : P → I → W) (r : P) (π ρ : List I) :
    nodeAt dec m r (π ++ ρ) = (nodeAt dec m r π).bind fun p => nodeAt dec m p ρ := by
  induction π generalizing r with
  | nil => rfl
  | cons j π ih =>
    rw [List.cons_append, nodeAt_cons, nodeAt_cons]
    cases dec (m r j) with
    | none => rfl
    | some q => exact ih q

theorem nodeAt_snoc (m : P → I → W) (r : P) (π : List I) (i : I) :
    nodeAt dec m r (π ++ [i]) = (nodeAt dec m r π).bind fun p => dec (m p i) := by
  simp [nodeAt_append]

theorem nodeAt_snoc_eq_some {r p : P} {π : List I} {i : I} :
    nodeAt dec m r (π ++ [i]) = some p ↔
      ∃ q, nodeAt dec m r π = some q ∧ dec (m q i) = some p := by
  rw [nodeAt_snoc]
  cases nodeAt dec m r π <;> simp

theorem leafAt_eq_some {r : P} {π : List I} {i : I} {w : W} :
    leafAt dec m r π i = some w ↔
      ∃ p, nodeAt dec m r π = some p ∧ m p i = w ∧ (dec w).isSome := by
  unfold leafAt
  cases nodeAt dec m r π with
  | none => simp
  | some p =>
    simp only [Option.bind_some, Option.some.injEq, exists_eq_left']
    constructor
    · intro h
      split_ifs at h with hv
      cases h
      exact ⟨rfl, hv⟩
    · rintro ⟨rfl, hv⟩
      simp [hv]

theorem leafAt_of_nodeAt {r p : P} {π : List I} (h : nodeAt dec m r π = some p) (i : I) :
    leafAt dec m r π i = if (dec (m p i)).isSome then some (m p i) else none := by
  rw [leafAt, h, Option.bind_some]

theorem mem_nodes {r p : P} {π : List I} (hr : r ∈ R) (hπ : π.length ≤ n)
    (h : nodeAt dec m r π = some p) : p ∈ nodes dec m n R := ⟨r, hr, π, hπ, h⟩

theorem root_mem_nodes {r : P} (hr : r ∈ R) : r ∈ nodes dec m n R :=
  ⟨r, hr, [], Nat.zero_le n, rfl⟩

theorem Forest.mono {R' : Set P} (h : Forest dec m n R) (hR : R' ⊆ R) : Forest dec m n R' :=
  fun r hr r' hr' => h r (hR hr) r' (hR hr')

/-! ## A table without valid entries -/

theorem nodeAt_of_empty {p q : P} (hp : ∀ i, dec (m p i) = none) {π : List I} :
    nodeAt dec m p π = some q ↔ π = [] ∧ p = q := by
  cases π with
  | nil => simp
  | cons i π => simp [hp]

theorem leafAt_of_empty {p : P} (hp : ∀ i, dec (m p i) = none) (π : List I) (i : I) :
    leafAt dec m p π i = none := by
  refine Option.eq_none_iff_forall_ne_some.mpr fun w hw => ?_
  obtain ⟨q, hq, rfl, hv⟩ := leafAt_eq_some.mp hw
  obtain ⟨rfl, rfl⟩ := (nodeAt_of_empty hp).mp hq
  rw [hp i] at hv
  cases hv

theorem nodes_insert_of_empty {p : P} (hp : ∀ i, dec (m p i) = none) :
    nodes dec m n (insert p R) = insert p (nodes dec m n R) := by
  ext q
  constructor
  · rintro ⟨r, hr, π, hπ, h⟩
    rcases hr with rfl | hr
    · exact Or.inl ((nodeAt_of_empty hp).mp h).2.symm
    · exact Or.inr ⟨r, hr, π, hπ, h⟩
  · rintro (rfl | ⟨r, hr, π, hπ, h⟩)
    · exact root_mem_nodes (Set.mem_insert q R)
    · exact ⟨r, Set.mem_insert_of_mem p hr, π, hπ, h⟩

/-- A fresh empty table is a tree of its own. -/
theorem Forest.insert_of_empty {p : P} (hF : Forest dec m n R)
    (hp : ∀ i, dec (m p i) = none) (hpR : p ∉ nodes dec m n R) :
    Forest dec m n (insert p R) := by
  intro r hr r' hr' π π' q hπ hπ' h h'
  rcases hr with rfl | hr
  · obtain ⟨rfl, rfl⟩ := (nodeAt_of_empty hp).mp h
    rcases hr' with rfl | hr'
    · exact ⟨rfl, ((nodeAt_of_empty hp).mp h').1.symm⟩
    · exact absurd (mem_nodes hr' hπ' h') hpR
  · rcases hr' with rfl | hr'
    · obtain ⟨rfl, rfl⟩ := (nodeAt_of_empty hp).mp h'
      exact absurd (mem_nodes hr hπ h) hpR
    · exact hF r hr r' hr' π π' q hπ hπ' h h'

/-! ## Missing tables -/

section Missing

variable {r : P} {Q Q' : Finset (List I)}

theorem missing_mono (h : Q ⊆ Q') : missing dec m r Q ≤ missing dec m r Q' :=
  Finset.card_le_card (Finset.filter_subset_filter _ h)

theorem missing_pos {π : List I} (hπ : π ∈ Q) (h : nodeAt dec m r π = none) :
    0 < missing dec m r Q :=
  Finset.card_pos.mpr ⟨π, Finset.mem_filter.mpr ⟨hπ, by rw [h]; rfl⟩⟩

theorem missing_congr (h : ∀ π ∈ Q, nodeAt dec m' r π = nodeAt dec m r π) :
    missing dec m' r Q = missing dec m r Q := by
  unfold missing
  congr 1
  exact Finset.filter_congr fun π hπ => by rw [h π hπ]

end Missing

/-! ## Memories that agree on the tables -/

/-- A node only depends on the tables passed on the way to it. -/
theorem nodeAt_congr {r : P} (hr : r ∈ R) (hm : ∀ p ∈ nodes dec m n R, m' p = m p) :
    ∀ (π : List I), π.length ≤ n + 1 → nodeAt dec m' r π = nodeAt dec m r π := by
  intro π
  induction π using List.reverseRecOn with
  | nil => intro _; rfl
  | append_singleton π i ih =>
    intro hπ
    rw [List.length_append, List.length_singleton] at hπ
    rw [nodeAt_snoc, nodeAt_snoc, ih (by omega)]
    cases h : nodeAt dec m r π with
    | none => rfl
    | some p => rw [Option.bind_some, Option.bind_some, hm p (mem_nodes hr (by omega) h)]

theorem leafAt_congr {r : P} (hr : r ∈ R) (hm : ∀ p ∈ nodes dec m n R, m' p = m p)
    {π : List I} (hπ : π.length ≤ n) (i : I) : leafAt dec m' r π i = leafAt dec m r π i := by
  unfold leafAt
  rw [nodeAt_congr hr hm π (by omega)]
  cases h : nodeAt dec m r π with
  | none => rfl
  | some p => simp only [Option.bind_some, hm p (mem_nodes hr hπ h)]

theorem nodes_congr (hm : ∀ p ∈ nodes dec m n R, m' p = m p) :
    nodes dec m' n R = nodes dec m n R := by
  ext p
  constructor
  · rintro ⟨r, hr, π, hπ, h⟩
    exact ⟨r, hr, π, hπ, by rw [← nodeAt_congr hr hm π (by omega)]; exact h⟩
  · rintro ⟨r, hr, π, hπ, h⟩
    exact ⟨r, hr, π, hπ, by rw [nodeAt_congr hr hm π (by omega)]; exact h⟩

theorem Forest.frame (h : Forest dec m n R) (hm : ∀ p ∈ nodes dec m n R, m' p = m p) :
    Forest dec m' n R := by
  intro r hr r' hr' π π' p hπ hπ' h1 h2
  rw [nodeAt_congr hr hm π (by omega)] at h1
  rw [nodeAt_congr hr' hm π' (by omega)] at h2
  exact h r hr r' hr' π π' p hπ hπ' h1 h2

/-! ## Hanging a fresh table under an invalid entry -/

/-- The memory `m'` is `m` after entry `i` of page `p`, invalid before, was made
    to point to the page `q`, all of whose entries are invalid in `m'`. -/
structure Link (dec : W → Option P) (m m' : P → I → W) (p : P) (i : I) (q : P) : Prop where
  unused : dec (m p i) = none
  entry : dec (m' p i) = some q
  rest : ∀ j, j ≠ i → m' p j = m p j
  fresh : ∀ j, dec (m' q j) = none
  frame : ∀ p', p' ≠ p → p' ≠ q → m' p' = m p'

section Link

variable {r p q : P} {π₀ : List I} {i₀ : I}

/-- After a link the nodes are the old ones and the new table. -/
theorem nodeAt_link (hF : Forest dec m n R) (hL : Link dec m m' p i₀ q) (hr : r ∈ R)
    (hp : nodeAt dec m r π₀ = some p) (hπ₀ : π₀.length < n) (hq : q ∉ nodes dec m n R)
    {r' : P} (hr' : r' ∈ R) :
    ∀ (π : List I), π.length ≤ n → ∀ p', nodeAt dec m' r' π = some p' ↔
      nodeAt dec m r' π = some p' ∨ (r' = r ∧ π = π₀ ++ [i₀] ∧ p' = q) := by
  intro π
  induction π using List.reverseRecOn with
  | nil => intro _ p'; simp
  | append_singleton π i ih =>
    intro hπ p'
    rw [List.length_append, List.length_singleton] at hπ
    rw [nodeAt_snoc_eq_some, nodeAt_snoc_eq_some]
    constructor
    · rintro ⟨p₁, h1, h2⟩
      rcases (ih (by omega) p₁).mp h1 with h1 | ⟨_, _, rfl⟩
      · have hne : p₁ ≠ q := fun e => hq (e ▸ mem_nodes hr' (by omega) h1)
        by_cases hpp : p₁ = p
        · subst hpp
          obtain ⟨rfl, rfl⟩ := hF r' hr' r hr π π₀ p₁ (by omega) (by omega) h1 hp
          by_cases hi : i = i₀
          · subst hi
            rw [hL.entry] at h2
            exact Or.inr ⟨rfl, rfl, (Option.some.inj h2).symm⟩
          · rw [hL.rest i hi] at h2
            exact Or.inl ⟨p₁, h1, h2⟩
        · rw [hL.frame p₁ hpp hne] at h2
          exact Or.inl ⟨p₁, h1, h2⟩
      · rw [hL.fresh i] at h2; cases h2
    · rintro (⟨p₁, h1, h2⟩ | ⟨rfl, hπi, rfl⟩)
      · refine ⟨p₁, (ih (by omega) p₁).mpr (Or.inl h1), ?_⟩
        have hne : p₁ ≠ q := fun e => hq (e ▸ mem_nodes hr' (by omega) h1)
        by_cases hpp : p₁ = p
        · subst hpp
          have hi : i ≠ i₀ := by
            rintro rfl
            rw [hL.unused] at h2; cases h2
          rw [hL.rest i hi]; exact h2
        · rw [hL.frame p₁ hpp hne]; exact h2
      · obtain ⟨rfl, rfl⟩ : π = π₀ ∧ i = i₀ := by simpa using hπi
        exact ⟨p, (ih (by omega) p).mpr (Or.inl hp), hL.entry⟩

theorem nodes_link (hF : Forest dec m n R) (hL : Link dec m m' p i₀ q) (hr : r ∈ R)
    (hp : nodeAt dec m r π₀ = some p) (hπ₀ : π₀.length < n) (hq : q ∉ nodes dec m n R) :
    nodes dec m' n R = insert q (nodes dec m n R) := by
  ext p'
  constructor
  · rintro ⟨r', hr', π, hπ, h⟩
    rcases (nodeAt_link hF hL hr hp hπ₀ hq hr' π hπ p').mp h with h | ⟨_, _, rfl⟩
    · exact Or.inr ⟨r', hr', π, hπ, h⟩
    · exact Or.inl rfl
  · rintro (rfl | ⟨r', hr', π, hπ, h⟩)
    · have hlen : (π₀ ++ [i₀]).length ≤ n := by simp; omega
      exact ⟨r, hr, π₀ ++ [i₀], hlen,
        (nodeAt_link hF hL hr hp hπ₀ hq hr _ hlen p').mpr (Or.inr ⟨rfl, rfl, rfl⟩)⟩
    · exact ⟨r', hr', π, hπ, (nodeAt_link hF hL hr hp hπ₀ hq hr' π hπ p').mpr (Or.inl h)⟩

/-- A link keeps the tables distinct. -/
theorem Forest.link (hF : Forest dec m n R) (hL : Link dec m m' p i₀ q) (hr : r ∈ R)
    (hp : nodeAt dec m r π₀ = some p) (hπ₀ : π₀.length < n) (hq : q ∉ nodes dec m n R) :
    Forest dec m' n R := by
  intro r₁ hr₁ r₂ hr₂ π₁ π₂ p' hπ₁ hπ₂ h1 h2
  have new₁ := (nodeAt_link hF hL hr hp hπ₀ hq hr₁ π₁ hπ₁ p').mp h1
  have new₂ := (nodeAt_link hF hL hr hp hπ₀ hq hr₂ π₂ hπ₂ p').mp h2
  rcases new₁ with h1 | ⟨rfl, rfl, rfl⟩
  · rcases new₂ with h2 | ⟨_, _, rfl⟩
    · exact hF r₁ hr₁ r₂ hr₂ π₁ π₂ p' hπ₁ hπ₂ h1 h2
    · exact absurd (mem_nodes hr₁ hπ₁ h1) hq
  · rcases new₂ with h2 | ⟨rfl, rfl, _⟩
    · exact absurd (mem_nodes hr₂ hπ₂ h2) hq
    · exact ⟨rfl, rfl⟩

/-- A link changes no translation. -/
theorem Forest.leafAt_link (hF : Forest dec m n R) (hL : Link dec m m' p i₀ q) (hr : r ∈ R)
    (hp : nodeAt dec m r π₀ = some p) (hπ₀ : π₀.length < n) (hq : q ∉ nodes dec m n R)
    {r' : P} (hr' : r' ∈ R) {π : List I} (hπ : π.length = n) (i : I) :
    leafAt dec m' r' π i = leafAt dec m r' π i := by
  apply Option.ext
  intro w
  rw [leafAt_eq_some, leafAt_eq_some]
  have hold : ∀ p₁, nodeAt dec m r' π = some p₁ → m' p₁ = m p₁ := by
    intro p₁ h
    refine hL.frame p₁ ?_ fun e => hq (e ▸ mem_nodes hr' hπ.le h)
    rintro rfl
    -- the page linked from is not at leaf depth
    have := (hF r' hr' r hr π π₀ p₁ hπ.le hπ₀.le h hp).2
    rw [this] at hπ
    omega
  constructor
  · rintro ⟨p₁, h1, h2, h3⟩
    rcases (nodeAt_link hF hL hr hp hπ₀ hq hr' π hπ.le p₁).mp h1 with h1 | ⟨_, _, rfl⟩
    · exact ⟨p₁, h1, by rw [← hold p₁ h1]; exact h2, h3⟩
    · rw [← h2, hL.fresh] at h3; cases h3
  · rintro ⟨p₁, h1, h2, h3⟩
    exact ⟨p₁, (nodeAt_link hF hL hr hp hπ₀ hq hr' π hπ.le p₁).mpr (Or.inl h1),
      by rw [hold p₁ h1]; exact h2, h3⟩

theorem nodeAt_link_eq_none (hF : Forest dec m n R) (hL : Link dec m m' p i₀ q) (hr : r ∈ R)
    (hp : nodeAt dec m r π₀ = some p) (hπ₀ : π₀.length < n) (hq : q ∉ nodes dec m n R)
    {π : List I} (hπ : π.length ≤ n) :
    nodeAt dec m' r π = none ↔ nodeAt dec m r π = none ∧ π ≠ π₀ ++ [i₀] := by
  rw [Option.eq_none_iff_forall_ne_some, Option.eq_none_iff_forall_ne_some]
  have key := nodeAt_link hF hL hr hp hπ₀ hq hr π hπ
  constructor
  · intro h
    exact ⟨fun p' hp' => h p' ((key p').mpr (Or.inl hp')),
      fun e => h q ((key q).mpr (Or.inr ⟨rfl, e, rfl⟩))⟩
  · rintro ⟨h, hne⟩ p' hp'
    rcases (key p').mp hp' with hp' | ⟨_, e, _⟩
    · exact h p' hp'
    · exact hne e

/-- A link builds one of the missing tables. -/
theorem missing_link [DecidableEq I] (hF : Forest dec m n R) (hL : Link dec m m' p i₀ q)
    (hr : r ∈ R) (hp : nodeAt dec m r π₀ = some p) (hπ₀ : π₀.length < n)
    (hq : q ∉ nodes dec m n R) {Q : Finset (List I)} (hQ : ∀ π ∈ Q, π.length ≤ n)
    (hmem : π₀ ++ [i₀] ∈ Q) : missing dec m r Q = missing dec m' r Q + 1 := by
  have hnone : nodeAt dec m r (π₀ ++ [i₀]) = none := by
    rw [nodeAt_snoc, hp]
    exact hL.unused
  have hset : (Q.filter fun π => (nodeAt dec m' r π).isNone) =
      (Q.filter fun π => (nodeAt dec m r π).isNone).erase (π₀ ++ [i₀]) := by
    ext π
    simp only [Finset.mem_filter, Finset.mem_erase, Option.isNone_iff_eq_none]
    constructor
    · rintro ⟨hπ, h⟩
      have := (nodeAt_link_eq_none hF hL hr hp hπ₀ hq (hQ π hπ)).mp h
      exact ⟨this.2, hπ, this.1⟩
    · rintro ⟨hne, hπ, h⟩
      exact ⟨hπ, (nodeAt_link_eq_none hF hL hr hp hπ₀ hq (hQ π hπ)).mpr ⟨h, hne⟩⟩
  have hin : π₀ ++ [i₀] ∈ Q.filter fun π => (nodeAt dec m r π).isNone := by
    simp only [Finset.mem_filter, Option.isNone_iff_eq_none]
    exact ⟨hmem, hnone⟩
  unfold missing
  rw [hset, Finset.card_erase_of_mem hin]
  have := Finset.card_pos.mpr ⟨_, hin⟩
  omega

end Link

/-! ## Overwriting a leaf -/

section Write

variable {r p : P} {π₀ : List I} {i₀ : I}

/-- Writing a table at leaf depth moves no node. -/
theorem Forest.nodeAt_write (hF : Forest dec m n R) (hr : r ∈ R)
    (hp : nodeAt dec m r π₀ = some p) (hπ₀ : π₀.length = n) (hm : ∀ p', p' ≠ p → m' p' = m p')
    {r' : P} (hr' : r' ∈ R) :
    ∀ (π : List I), π.length ≤ n → nodeAt dec m' r' π = nodeAt dec m r' π := by
  intro π
  induction π using List.reverseRecOn with
  | nil => intro _; rfl
  | append_singleton π i ih =>
    intro hπ
    rw [List.length_append, List.length_singleton] at hπ
    rw [nodeAt_snoc, nodeAt_snoc, ih (by omega)]
    cases h : nodeAt dec m r' π with
    | none => rfl
    | some p₁ =>
      have hne : p₁ ≠ p := by
        rintro rfl
        have := (hF r' hr' r hr π π₀ p₁ (by omega) hπ₀.le h hp).2
        rw [← this] at hπ₀
        omega
      rw [Option.bind_some, Option.bind_some, hm p₁ hne]

theorem Forest.write (hF : Forest dec m n R) (hr : r ∈ R)
    (hp : nodeAt dec m r π₀ = some p) (hπ₀ : π₀.length = n)
    (hm : ∀ p', p' ≠ p → m' p' = m p') : Forest dec m' n R := by
  intro r₁ hr₁ r₂ hr₂ π₁ π₂ p' hπ₁ hπ₂ h1 h2
  rw [hF.nodeAt_write hr hp hπ₀ hm hr₁ π₁ hπ₁] at h1
  rw [hF.nodeAt_write hr hp hπ₀ hm hr₂ π₂ hπ₂] at h2
  exact hF r₁ hr₁ r₂ hr₂ π₁ π₂ p' hπ₁ hπ₂ h1 h2

theorem Forest.nodes_write (hF : Forest dec m n R) (hr : r ∈ R)
    (hp : nodeAt dec m r π₀ = some p) (hπ₀ : π₀.length = n)
    (hm : ∀ p', p' ≠ p → m' p' = m p') : nodes dec m' n R = nodes dec m n R := by
  ext p'
  constructor
  · rintro ⟨r', hr', π, hπ, h⟩
    exact ⟨r', hr', π, hπ, by rw [← hF.nodeAt_write hr hp hπ₀ hm hr' π hπ]; exact h⟩
  · rintro ⟨r', hr', π, hπ, h⟩
    exact ⟨r', hr', π, hπ, by rw [hF.nodeAt_write hr hp hπ₀ hm hr' π hπ]; exact h⟩

/-- The way to a node reads the nodes above it only. -/
theorem nodeAt_of_above {r p : P} {π : List I} (h : nodeAt dec m r π = some p)
    (hm : ∀ ρ, ρ <+: π → ρ ≠ π → ∀ p', nodeAt dec m r ρ = some p' → m' p' = m p') :
    nodeAt dec m' r π = some p := by
  induction π using List.reverseRecOn generalizing p with
  | nil => exact h
  | append_singleton π i ih =>
    obtain ⟨q, hq, hqi⟩ := nodeAt_snoc_eq_some.mp h
    have hpre : π <+: π ++ [i] := List.prefix_append _ _
    have hq' : nodeAt dec m' r π = some q := by
      refine ih hq fun ρ hρ hne => hm ρ (hρ.trans hpre) fun e => ?_
      have := hρ.length_le
      simp only [e, List.length_append, List.length_singleton] at this
      omega
    refine nodeAt_snoc_eq_some.mpr ⟨q, hq', ?_⟩
    rw [hm π hpre (by simp) q hq]
    exact hqi

/-- A node stays one when only it and nodes of the last level are written. -/
theorem Forest.mem_nodes_write (hF : Forest dec m n R) (hr : r ∈ R)
    (hp : nodeAt dec m r π₀ = some p) (hπ₀ : π₀.length = n) {f : P} (hf : f ∈ nodes dec m n R)
    (hm : ∀ p', p' ≠ f → p' ≠ p → m' p' = m p') : f ∈ nodes dec m' n R := by
  obtain ⟨r', hr', π, hπ, h⟩ := hf
  refine mem_nodes hr' hπ (nodeAt_of_above h fun ρ hρ hne p' hp' => ?_)
  have hlen := hρ.length_le
  have hlt : ρ.length ≠ π.length := fun e => hne (hρ.eq_of_length e)
  refine hm p' ?_ ?_
  · rintro rfl
    exact hne (hF _ hr' _ hr' _ _ _ (by omega) hπ hp' h).2
  · rintro rfl
    have := (hF _ hr' _ hr _ _ _ (by omega) hπ₀.le hp' hp).2
    rw [this] at hlt hlen
    omega

/-- Overwriting the leaf `i₀` at `π₀` changes that translation only. -/
theorem Forest.leafAt_write (hF : Forest dec m n R) (hr : r ∈ R)
    (hp : nodeAt dec m r π₀ = some p) (hπ₀ : π₀.length = n)
    (hm : ∀ p', p' ≠ p → m' p' = m p') (hi : ∀ j, j ≠ i₀ → m' p j = m p j)
    {r' : P} (hr' : r' ∈ R) {π : List I} (hπ : π.length = n) {i : I}
    (hne : ¬ (r' = r ∧ π = π₀ ∧ i = i₀)) :
    leafAt dec m' r' π i = leafAt dec m r' π i := by
  unfold leafAt
  rw [hF.nodeAt_write hr hp hπ₀ hm hr' π hπ.le]
  cases h : nodeAt dec m r' π with
  | none => rfl
  | some p₁ =>
    have he : m' p₁ i = m p₁ i := by
      by_cases hpp : p₁ = p
      · subst hpp
        obtain ⟨rfl, rfl⟩ := hF r' hr' r hr π π₀ p₁ hπ.le hπ₀.le h hp
        exact hi i fun e => hne ⟨rfl, rfl, e⟩
      · rw [hm p₁ hpp]
    simp only [Option.bind_some, he]

end Write

end Pke.Lib.Radix
