import Mathlib.Data.List.Basic
import Mathlib.Data.List.TakeWhile

/-! # Texts in pieces

The pieces between separators, lines that each end in a separator, and a text wrapped to lines of a
given width. -/

namespace NakamotoNode.Foundations
set_option autoImplicit false

variable {α : Type}

/-- The lines, each with the separator after it. -/
def unlines (sep : α) (lines : List (List α)) : List α := lines.flatMap fun line => line ++ [sep]

theorem takeWhile_append_cons {p : α → Bool} {c : α} (hc : p c = false) (l m : List α) :
    (l ++ c :: m).takeWhile p = l.takeWhile p := by
  induction l with
  | nil => exact List.takeWhile_cons_of_neg (by simp [hc])
  | cons d l ih =>
    rw [List.cons_append, List.takeWhile_cons, List.takeWhile_cons, ih]

section
variable [DecidableEq α]

/-! ## The first pieces -/

/-- A text without the separator is its own first piece. -/
theorem splitOn_takeWhile (sep : α) (l : List α) :
    (l.splitOn sep)[0]? = some (l.takeWhile fun c => c ≠ sep) := by
  induction l with
  | nil => rfl
  | cons c l ih =>
    by_cases hc : c = sep
    · subst hc
      rw [show c :: l = [] ++ c :: l from rfl, List.splitOn_append_cons_self_of_not_mem List.not_mem_nil]
      simp
    · rw [List.splitOn_cons_eq_if_modifyHead, if_neg (by simpa using hc)]
      obtain ⟨piece, pieces, hpieces⟩ := List.exists_cons_of_ne_nil (List.splitOn_ne_nil sep l)
      rw [hpieces] at ih ⊢
      obtain rfl := Option.some.inj ih
      rw [List.takeWhile_cons_of_pos (by simpa using hc)]
      rfl

theorem splitOn_second {sep : α} {l : List α} (h : sep ∉ l) (m : List α) :
    ((l ++ sep :: m).splitOn sep)[1]? = some (m.takeWhile fun c => c ≠ sep) := by
  rw [List.splitOn_append_cons_self_of_not_mem h, List.getElem?_cons_succ, splitOn_takeWhile]

/-- Nothing, or a text after a separator. -/
def EndsAt (sep : α) (tail : List α) : Prop := tail = [] ∨ ∃ more, tail = sep :: more

theorem takeWhile_ne_eq_iff {sep : α} {l piece : List α} : (l.takeWhile fun c => c ≠ sep) = piece ↔
    sep ∉ piece ∧ ∃ tail, EndsAt sep tail ∧ l = piece ++ tail := by
  constructor
  · rintro rfl
    refine ⟨fun hmem => by simpa using List.mem_takeWhile_imp hmem, l.dropWhile fun c => c ≠ sep, ?_,
      List.takeWhile_append_dropWhile.symm⟩
    have hhead := List.head?_dropWhile_not (fun c => decide (c ≠ sep)) l
    cases hdrop : l.dropWhile fun c => c ≠ sep with
    | nil => exact .inl rfl
    | cons c more =>
      rw [hdrop] at hhead
      exact .inr ⟨more, by simpa using hhead⟩
  · rintro ⟨hpiece, tail, htail, rfl⟩
    have hall : ∀ c ∈ piece, decide (c ≠ sep) = true := fun c hc =>
      decide_eq_true (ne_of_mem_of_not_mem hc hpiece)
    rw [List.takeWhile_append_of_pos hall]
    rcases htail with rfl | ⟨more, rfl⟩
    · rw [List.takeWhile_nil, List.append_nil]
    · rw [List.takeWhile_cons_of_neg (by simp), List.append_nil]

theorem splitOn_second_eq_some {sep : α} {l piece : List α} : (l.splitOn sep)[1]? = some piece ↔
    ∃ first tail, sep ∉ first ∧ sep ∉ piece ∧ EndsAt sep tail ∧ l = first ++ sep :: (piece ++ tail) := by
  constructor
  · intro h
    by_cases hmem : sep ∈ l
    · obtain ⟨first, rest, rfl, hfirst⟩ := List.eq_append_cons_of_mem hmem
      rw [splitOn_second hfirst, Option.some_inj, takeWhile_ne_eq_iff] at h
      obtain ⟨hpiece, tail, htail, rfl⟩ := h
      exact ⟨first, tail, hfirst, hpiece, htail, rfl⟩
    · rw [List.splitOn_eq_singleton hmem] at h
      exact absurd h (by simp)
  · rintro ⟨first, tail, hfirst, hpiece, htail, rfl⟩
    rw [splitOn_second hfirst, Option.some_inj, takeWhile_ne_eq_iff]
    exact ⟨hpiece, tail, htail, rfl⟩

/-! ## Lines -/

theorem splitOn_unlines {sep : α} {lines : List (List α)} (h : ∀ line ∈ lines, sep ∉ line) :
    (unlines sep lines).splitOn sep = lines ++ [[]] := by
  induction lines with
  | nil => rfl
  | cons line lines ih =>
    obtain ⟨hline, hlines⟩ := List.forall_mem_cons.mp h
    have hcons : unlines sep (line :: lines) = line ++ sep :: unlines sep lines := by
      simp [unlines]
    rw [hcons, List.splitOn_append_cons_self_of_not_mem hline, ih hlines]
    rfl

theorem unlines_inj {sep : α} {lines lines' : List (List α)} (h : ∀ line ∈ lines, sep ∉ line)
    (h' : ∀ line ∈ lines', sep ∉ line) : unlines sep lines = unlines sep lines' ↔ lines = lines' := by
  constructor
  · intro heq
    have hsplit := congrArg (List.splitOn sep) heq
    rw [splitOn_unlines h, splitOn_unlines h'] at hsplit
    exact List.append_cancel_right hsplit
  · exact congrArg _

end

/-! ## Wrapping -/

variable {width : ℕ} {l : List α}

/-- The text in lines of `width`, the last of which may be shorter. -/
def wrap (width : ℕ) (l : List α) : List (List α) :=
  if 0 < width ∧ 0 < l.length then l.take width :: wrap width (l.drop width) else []
termination_by l.length
decreasing_by
  rw [List.length_drop]
  omega

theorem wrap_nil : wrap width ([] : List α) = [] := by
  rw [wrap, if_neg (by simp)]

theorem wrap_cons (hwidth : 0 < width) (hl : l ≠ []) :
    wrap width l = l.take width :: wrap width (l.drop width) := by
  rw [wrap, if_pos ⟨hwidth, List.length_pos_iff.mpr hl⟩]

theorem flatten_wrap (hwidth : 0 < width) (l : List α) : (wrap width l).flatten = l := by
  induction hn : l.length using Nat.strong_induction_on generalizing l with
  | h n ih =>
    by_cases hl : l = []
    · rw [hl, wrap_nil]
      rfl
    · have hpos := List.length_pos_iff.mpr hl
      rw [wrap_cons hwidth hl, List.flatten_cons,
        ih (l.drop width).length (by rw [List.length_drop]; omega) _ rfl, List.take_append_drop]

theorem mem_of_mem_wrap (hwidth : 0 < width) {line : List α} (hline : line ∈ wrap width l) {c : α}
    (hc : c ∈ line) : c ∈ l := by
  rw [← flatten_wrap hwidth l]
  exact List.mem_flatten.mpr ⟨line, hline, hc⟩

theorem wrap_two (hwidth : 0 < width) (hlt : width < l.length) (hle : l.length ≤ 2 * width) :
    wrap width l = [l.take width, l.drop width] := by
  have hl : l ≠ [] := List.ne_nil_of_length_pos (by omega)
  have hdrop : l.drop width ≠ [] := List.ne_nil_of_length_pos (by rw [List.length_drop]; omega)
  have hlen : (l.drop width).length ≤ width := by
    rw [List.length_drop]
    omega
  rw [wrap_cons hwidth hl, wrap_cons hwidth hdrop, List.take_of_length_le hlen,
    List.drop_of_length_le hlen, wrap_nil]

end NakamotoNode.Foundations
