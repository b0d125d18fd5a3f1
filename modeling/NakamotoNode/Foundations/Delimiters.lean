import Mathlib.Data.List.Infix

/-! # Two texts and the delimiter between them

A delimiter of the form `a b a` shares one character with itself. Two texts can be told apart from the
whole exactly when it occurs nowhere in them, nor where it would share that character with the delimiter
itself (`splits_iff`). -/

namespace NakamotoNode.Foundations
set_option autoImplicit false

variable {α : Type}

/-- There is no other way to find `delimiter` between two texts. -/
def Splits (delimiter l m : List α) : Prop :=
  ∀ l' m', l' ++ delimiter ++ m' = l ++ delimiter ++ m → l' = l ∧ m' = m

variable {a b : α} {l m : List α}

/-- What stands before a delimiter in a text that starts with one: nothing, all but its last
character, or the whole delimiter and more. -/
theorem delimiter_overlap (hab : a ≠ b) {x : List α}
    (h : [a, b, a] ++ m = x ++ ([a, b, a] ++ l)) :
    (x = [] ∧ m = l) ∨ (x = [a, b] ∧ m = b :: a :: l) ∨
      ∃ y, x = [a, b, a] ++ y ∧ m = y ++ ([a, b, a] ++ l) := by
  match x with
  | [] => exact .inl ⟨rfl, List.append_cancel_left h⟩
  | [c] =>
    have hba : b = a := (List.cons.inj (List.cons.inj h).2).1
    exact absurd hba.symm hab
  | [c, d] =>
    obtain ⟨hc, h⟩ := List.cons.inj h
    obtain ⟨hd, h⟩ := List.cons.inj h
    rw [← hc, ← hd]
    exact .inr (.inl ⟨rfl, (List.cons.inj h).2⟩)
  | c :: d :: e :: y =>
    obtain ⟨hc, h⟩ := List.cons.inj h
    obtain ⟨hd, h⟩ := List.cons.inj h
    obtain ⟨he, h⟩ := List.cons.inj h
    rw [← hc, ← hd, ← he]
    exact .inr (.inr ⟨y, rfl, h⟩)

/-- The delimiter starts earlier. -/
theorem not_splits_of_left (h : [a, b, a] <:+: l ++ [a]) : ¬ Splits [a, b, a] l m := by
  obtain ⟨p, s, h⟩ := h
  intro hsplits
  rcases List.eq_nil_or_concat' s with rfl | ⟨s, c, rfl⟩
  · have hl : l = p ++ [a, b] := by
      apply (List.append_left_inj [a]).mp
      simpa using h.symm
    obtain ⟨hp, -⟩ := hsplits p (b :: a :: m) (by simp [hl])
    exact absurd (hp.trans hl) (by simp)
  · rw [← List.append_assoc] at h
    obtain ⟨hl, -⟩ := List.append_inj' h rfl
    obtain ⟨hp, -⟩ := hsplits p (s ++ [a, b, a] ++ m) (by simp [← hl])
    have hlen := congrArg List.length (hp.trans hl.symm)
    simp at hlen

/-- The delimiter starts later. -/
theorem not_splits_of_right (h : [a, b, a] <:+: a :: m) : ¬ Splits [a, b, a] l m := by
  obtain ⟨p, s, h⟩ := h
  intro hsplits
  have hlen : s.length < m.length := by
    have hlen := congrArg List.length h
    simp at hlen
    omega
  cases p with
  | nil =>
    have hm : b :: a :: s = m := (List.cons.inj h).2
    obtain ⟨-, hs⟩ := hsplits (l ++ [a, b]) s (by simp [← hm])
    rw [hs] at hlen
    exact absurd hlen (Nat.lt_irrefl _)
  | cons c p =>
    have hm : p ++ [a, b, a] ++ s = m := (List.cons.inj h).2
    obtain ⟨-, hs⟩ := hsplits (l ++ [a, b, a] ++ p) s (by simp [← hm])
    rw [hs] at hlen
    exact absurd hlen (Nat.lt_irrefl _)

theorem splits_iff (hab : a ≠ b) : Splits [a, b, a] l m ↔
    ¬ [a, b, a] <:+: l ++ [a] ∧ ¬ [a, b, a] <:+: a :: m := by
  constructor
  · intro h
    exact ⟨fun hl => not_splits_of_left hl h, fun hm => not_splits_of_right hm h⟩
  · rintro ⟨hl, hm⟩ l' m' h
    rw [List.append_assoc, List.append_assoc] at h
    rcases List.append_eq_append_iff.mp h with ⟨x, rfl, hx⟩ | ⟨x, rfl, hx⟩
    · rcases delimiter_overlap hab hx with ⟨rfl, rfl⟩ | ⟨rfl, -⟩ | ⟨y, rfl, -⟩
      · exact ⟨(List.append_nil _).symm, rfl⟩
      · exact absurd ⟨l', [], by simp⟩ hl
      · exact absurd ⟨l', y ++ [a], by simp⟩ hl
    · rcases delimiter_overlap hab hx with ⟨rfl, rfl⟩ | ⟨-, rfl⟩ | ⟨y, -, rfl⟩
      · exact ⟨List.append_nil _, rfl⟩
      · exact absurd ⟨[], m', rfl⟩ hm
      · exact absurd ⟨a :: y, m', by simp⟩ hm

end NakamotoNode.Foundations
