import Mathlib.Data.List.Basic
import Mathlib.Data.List.Infix

/-! # Two branches of one tree, as lists

A branch is the list of its elements from the tip to the root. In a tree an element has one way to
the root, so two branches that share an element go on alike from there (`Coherent`): they are two
lists of their own elements above a common end (`Splits`).

`F` is buried `k` deep in `l` when it is what remains of `l` below its last `k` elements or more.
What two coherent branches bury `k` deep is comparable, or the branches have been apart for more
than `k` elements each (`Coherent.comparable_or_fork`). -/

namespace NakamotoNode.Foundations.Branching
set_option autoImplicit false

variable {α : Type} {l₁ l₂ : List α}

/-- An element of both lists is followed by the same elements in both. -/
def Coherent (l₁ l₂ : List α) : Prop :=
  ∀ s₁ a t₁ s₂ t₂, l₁ = s₁ ++ a :: t₁ → l₂ = s₂ ++ a :: t₂ → t₁ = t₂

theorem Coherent.of_cons {a : α} (h : Coherent (a :: l₁) l₂) : Coherent l₁ l₂ := by
  intro s₁ b t₁ s₂ t₂ h₁ h₂
  exact h (a :: s₁) b t₁ s₂ t₂ (by rw [h₁, List.cons_append]) h₂

/-- Own elements above a common end. -/
structure Splits (l₁ l₂ own₁ own₂ common : List α) : Prop where
  left : l₁ = own₁ ++ common
  right : l₂ = own₂ ++ common
  disjoint : List.Disjoint own₁ own₂

theorem Coherent.splits (h : Coherent l₁ l₂) :
    ∃ own₁ own₂ common, Splits l₁ l₂ own₁ own₂ common := by
  classical
  induction l₁ with
  | nil => exact ⟨[], l₂, [], rfl, (List.append_nil l₂).symm, List.disjoint_nil_left _⟩
  | cons a l₁ ih =>
    by_cases ha : a ∈ l₂
    · obtain ⟨s₂, t₂, h₂⟩ := List.append_of_mem ha
      obtain rfl := h [] a l₁ s₂ t₂ rfl h₂
      exact ⟨[], s₂, a :: l₁, rfl, h₂, List.disjoint_nil_left _⟩
    · obtain ⟨own₁, own₂, common, hs⟩ := ih h.of_cons
      refine ⟨a :: own₁, own₂, common, ?_, hs.right, ?_⟩
      · rw [hs.left, List.cons_append]
      · refine List.disjoint_cons_left.mpr ⟨fun hmem => ha ?_, hs.disjoint⟩
        rw [hs.right]
        exact List.mem_append_left _ hmem

/-- A suffix of `l₁` that is at least as long as its own elements are few is a suffix of the common
end. -/
theorem Splits.suffix_common {own₁ own₂ common F : List α} {k : ℕ}
    (h : Splits l₁ l₂ own₁ own₂ common) (hF : F <:+ l₁) (hdeep : F.length + k ≤ l₁.length)
    (hown : own₁.length ≤ k) : F <:+ common := by
  refine List.suffix_of_suffix_length_le hF ?_ ?_
  · exact ⟨own₁, h.left.symm⟩
  · rw [h.left, List.length_append] at hdeep
    omega

/-- What is buried `k` deep in both branches is comparable, or both have forked more than `k`
elements ago. -/
theorem Coherent.comparable_or_fork {F₁ F₂ : List α} {k : ℕ} (h : Coherent l₁ l₂)
    (hF₁ : F₁ <:+ l₁) (hF₂ : F₂ <:+ l₂) (hdeep₁ : F₁.length + k ≤ l₁.length)
    (hdeep₂ : F₂.length + k ≤ l₂.length) :
    F₁ <:+ F₂ ∨ F₂ <:+ F₁ ∨ ∃ own₁ own₂ common, Splits l₁ l₂ own₁ own₂ common ∧
      k < own₁.length ∧ k < own₂.length := by
  obtain ⟨own₁, own₂, common, hs⟩ := h.splits
  have hsuffix₁ : common <:+ l₁ := ⟨own₁, hs.left.symm⟩
  have hsuffix₂ : common <:+ l₂ := ⟨own₂, hs.right.symm⟩
  have hs' : Splits l₂ l₁ own₂ own₁ common := ⟨hs.right, hs.left, List.disjoint_symm hs.disjoint⟩
  rcases Nat.lt_or_ge k own₁.length with hlong₁ | hshort
  · rcases Nat.lt_or_ge k own₂.length with hlong₂ | hshort
    · exact .inr (.inr ⟨own₁, own₂, common, hs, hlong₁, hlong₂⟩)
    · have hF := (hs'.suffix_common hF₂ hdeep₂ hshort).trans hsuffix₁
      exact (List.suffix_or_suffix_of_suffix hF₁ hF).imp_right .inl
  · have hF := (hs.suffix_common hF₁ hdeep₁ hshort).trans hsuffix₂
    exact (List.suffix_or_suffix_of_suffix hF hF₂).imp_right .inl

end NakamotoNode.Foundations.Branching
