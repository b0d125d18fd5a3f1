import Mathlib.Logic.Relation
import Mathlib.Tactic.Common

/-! # Parent pointers

A forest is a function `parent : ι → Option ι`; a root has no parent. `Descends parent a x`: `a`
is `x` or is met on the way up from `x`. `Graded parent depth`: a node is one deeper than its
parent, so the way up from a node is a chain with one node at each depth.

`climb parent n x` is the `n`-th ancestor. `Graft parent b p parent'`: a new leaf `b` is hung
below `p`; nothing else moves. -/

namespace NakamotoNode.Foundations.Forest
set_option autoImplicit false

variable {ι : Type} {parent : ι → Option ι}

/-- `a` is `x` or an ancestor of `x`. -/
def Descends (parent : ι → Option ι) (a x : ι) : Prop :=
  Relation.ReflTransGen (fun y z => parent y = some z) x a

theorem Descends.refl (a : ι) : Descends parent a a := Relation.ReflTransGen.refl

theorem Descends.step {a x y : ι} (hxy : parent x = some y) (h : Descends parent a y) :
    Descends parent a x := Relation.ReflTransGen.head hxy h

theorem Descends.trans {a x y : ι} (h₁ : Descends parent a x) (h₂ : Descends parent x y) :
    Descends parent a y := Relation.ReflTransGen.trans h₂ h₁

theorem Descends.of_parent {x y : ι} (h : parent x = some y) : Descends parent y x :=
  .step h (.refl y)

theorem Descends.mono {parent' : ι → Option ι}
    (hlink : ∀ x p, parent x = some p → parent' x = some p) {a x : ι}
    (h : Descends parent a x) : Descends parent' a x :=
  Relation.ReflTransGen.mono (fun x p => hlink x p) _ _ h

theorem descends_iff {a x : ι} :
    Descends parent a x ↔ x = a ∨ ∃ y, parent x = some y ∧ Descends parent a y :=
  Relation.ReflTransGen.cases_head_iff

theorem descends_iff_of_parent {a x y : ι} (hxy : parent x = some y) :
    Descends parent a x ↔ x = a ∨ Descends parent a y := by
  rw [descends_iff]
  simp [hxy]

theorem descends_root_iff {a x : ι} (hx : parent x = none) : Descends parent a x ↔ x = a := by
  rw [descends_iff]
  simp [hx]

theorem Descends.total {a b x : ι} (ha : Descends parent a x) (hb : Descends parent b x) :
    Descends parent a b ∨ Descends parent b a := by
  have hunique : Relator.RightUnique fun y z => parent y = some z := by
    intro y z z' hz hz'
    exact Option.some.inj (hz.symm.trans hz')
  rcases Relation.ReflTransGen.total_of_right_unique hunique ha hb with h | h
  · exact .inr h
  · exact .inl h

/-! ## Depth -/

/-- Every node is one deeper than its parent. -/
def Graded (parent : ι → Option ι) (depth : ι → ℕ) : Prop :=
  ∀ x y, parent x = some y → depth x = depth y + 1

section Graded
variable {depth : ι → ℕ}

theorem Graded.le (hg : Graded parent depth) {a x : ι} (h : Descends parent a x) :
    depth a ≤ depth x := by
  induction h using Relation.ReflTransGen.head_induction_on with
  | refl => exact Nat.le_refl _
  | head hxy _ ih =>
    have := hg _ _ hxy
    omega

theorem Graded.eq_of_le (hg : Graded parent depth) {a x : ι} (h : Descends parent a x)
    (hd : depth x ≤ depth a) : x = a := by
  rcases descends_iff.mp h with rfl | ⟨y, hy, h⟩
  · rfl
  · have := hg _ _ hy
    have := hg.le h
    omega

theorem Graded.unique (hg : Graded parent depth) {a b x : ι} (ha : Descends parent a x)
    (hb : Descends parent b x) (hd : depth a = depth b) : a = b := by
  rcases ha.total hb with h | h
  · exact (hg.eq_of_le h (Nat.le_of_eq hd.symm)).symm
  · exact hg.eq_of_le h (Nat.le_of_eq hd)

/-- An ancestor of `x` that is no deeper than the ancestor `b` of `x` is an ancestor of `b`. -/
theorem Graded.descends_of_le (hg : Graded parent depth) {a b x : ι} (ha : Descends parent a x)
    (hb : Descends parent b x) (hd : depth a ≤ depth b) : Descends parent a b := by
  rcases ha.total hb with h | h
  · exact h
  · rw [hg.eq_of_le h hd]
    exact .refl b

/-- The child of `a` on the branch of a strict descendant. -/
theorem exists_child {a x : ι} (h : Descends parent a x) (hne : x ≠ a) :
    ∃ c, parent c = some a ∧ Descends parent c x := by
  induction h using Relation.ReflTransGen.head_induction_on with
  | refl => exact absurd rfl hne
  | @head x y hxy h ih =>
    by_cases hy : y = a
    · subst hy
      exact ⟨x, hxy, .refl x⟩
    · obtain ⟨c, hc, hcy⟩ := ih hy
      exact ⟨c, hc, .step hxy hcy⟩

end Graded

/-! ## Climbing -/

/-- The `n`-th ancestor. -/
def climb (parent : ι → Option ι) : ℕ → ι → Option ι
  | 0, x => some x
  | n + 1, x => (parent x).bind (climb parent n)

theorem climb_succ {n : ℕ} {x y : ι} (hxy : parent x = some y) :
    climb parent (n + 1) x = climb parent n y := by
  simp [climb, hxy]

theorem Graded.depth_climb {depth : ι → ℕ} (hg : Graded parent depth) :
    ∀ {n : ℕ} {a x : ι}, climb parent n x = some a → depth x = depth a + n
  | 0, a, x, h => by
      obtain rfl : x = a := Option.some.inj h
      rfl
  | n + 1, a, x, h => by
      obtain ⟨y, hxy, hy⟩ := Option.bind_eq_some_iff.mp h
      have h₁ := hg _ _ hxy
      have h₂ := hg.depth_climb hy
      omega

/-- An ancestor is reached by climbing the difference of the depths. -/
theorem Graded.climb_of_descends {depth : ι → ℕ} (hg : Graded parent depth) {a x : ι}
    (h : Descends parent a x) : climb parent (depth x - depth a) x = some a := by
  induction h using Relation.ReflTransGen.head_induction_on with
  | refl => simp [climb]
  | @head x y hxy h ih =>
    have h₁ := hg x y hxy
    have h₂ := hg.le h
    rw [show depth x - depth a = (depth y - depth a) + 1 by omega, climb_succ hxy]
    exact ih

/-! ## A new leaf -/

/-- `parent'` is `parent` with a new leaf `b` below `p`. -/
structure Graft (parent : ι → Option ι) (b p : ι) (parent' : ι → Option ι) : Prop where
  leaf : parent' b = some p
  old : ∀ x, x ≠ b → parent' x = parent x
  fresh : ∀ x, parent x ≠ some b
  fresh_leaf : p ≠ b

section Graft
variable {parent' : ι → Option ι} {b p : ι}

theorem Graft.descends_old (hgraft : Graft parent b p parent') {a x : ι} (hx : x ≠ b) :
    Descends parent' a x ↔ Descends parent a x := by
  constructor
  · intro h
    induction h using Relation.ReflTransGen.head_induction_on with
    | refl => exact .refl a
    | @head x y hxy _ ih =>
      rw [hgraft.old x hx] at hxy
      have hy : y ≠ b := by
        rintro rfl
        exact hgraft.fresh x hxy
      exact .step hxy (ih hy)
  · intro h
    induction h using Relation.ReflTransGen.head_induction_on with
    | refl => exact .refl a
    | @head x y hxy _ ih =>
      have hy : y ≠ b := by
        rintro rfl
        exact hgraft.fresh x hxy
      exact .step ((hgraft.old x hx).trans hxy) (ih hy)

theorem Graft.descends_leaf (hgraft : Graft parent b p parent') {a : ι} :
    Descends parent' a b ↔ b = a ∨ Descends parent a p := by
  rw [descends_iff_of_parent hgraft.leaf, hgraft.descends_old hgraft.fresh_leaf]

end Graft

end NakamotoNode.Foundations.Forest
