import Mathlib.Logic.Function.Basic
import Mathlib.Data.List.Basic

/-! # Runs of a labelled transition system

`Run step s ls t`: the calls `ls` lead from `s` to `t`, one `step` each. An invariant of `step` is
an invariant of every run (`Run.invariant`); a condition on every step of a run is a run of the
restricted relation `Guarded`, so the same rule covers it. -/

namespace NakamotoNode.Foundations
set_option autoImplicit false

variable {σ ι : Type} {step : σ → ι → σ → Prop}

inductive Run (step : σ → ι → σ → Prop) : σ → List ι → σ → Prop
  | nil (s : σ) : Run step s [] s
  | snoc {s t u : σ} {ls : List ι} {a : ι} (h : Run step s ls t) (ha : step t a u) :
      Run step s (ls ++ [a]) u

namespace Run

theorem single {s t : σ} {a : ι} (h : step s a t) : Run step s [a] t := (Run.nil s).snoc h

theorem trans {s t u : σ} {ls ms : List ι} (h₁ : Run step s ls t) (h₂ : Run step t ms u) :
    Run step s (ls ++ ms) u := by
  induction h₂ with
  | nil => simpa using h₁
  | snoc _ ha ih =>
    rw [← List.append_assoc]
    exact ih.snoc ha

theorem mono {step' : σ → ι → σ → Prop} (hstep : ∀ s a t, step s a t → step' s a t) {s t : σ}
    {ls : List ι} (h : Run step s ls t) : Run step' s ls t := by
  induction h with
  | nil => exact .nil _
  | snoc _ ha ih => exact ih.snoc (hstep _ _ _ ha)

theorem map {τ κ : Type} {step' : τ → κ → τ → Prop} (f : σ → τ) (g : ι → κ)
    (hstep : ∀ s a t, step s a t → step' (f s) (g a) (f t)) {s t : σ} {ls : List ι}
    (h : Run step s ls t) : Run step' (f s) (ls.map g) (f t) := by
  induction h with
  | nil => exact .nil _
  | snoc _ ha ih =>
    rw [List.map_append]
    exact ih.snoc (hstep _ _ _ ha)

theorem eq_of_nil {s t : σ} (h : Run step s [] t) : t = s := by
  generalize hls : [] = ls at h
  cases h with
  | nil => rfl
  | snoc => exact absurd hls (by simp)

theorem cons_inv {s u : σ} {a : ι} {ls : List ι} (h : Run step s (a :: ls) u) :
    ∃ t, step s a t ∧ Run step t ls u := by
  generalize hns : a :: ls = ns at h
  induction h generalizing ls with
  | nil => exact absurd hns (by simp)
  | @snoc t u ns b h hb ih =>
    rcases List.cons_eq_append_iff.mp hns with ⟨rfl, hb'⟩ | ⟨ns', rfl, rfl⟩
    · obtain ⟨rfl, rfl⟩ := List.cons.inj hb'
      obtain rfl := h.eq_of_nil
      exact ⟨u, hb, .nil u⟩
    · obtain ⟨t', ha, h'⟩ := ih rfl
      exact ⟨t', ha, h'.snoc hb⟩

/-- Where each step has one outcome, so has a run. -/
theorem unique (hstep : ∀ s a t t', step s a t → step s a t' → t = t') {s t t' : σ}
    {ls : List ι} (h : Run step s ls t) (h' : Run step s ls t') : t = t' := by
  induction ls generalizing s with
  | nil => rw [h.eq_of_nil, h'.eq_of_nil]
  | cons a ls ih =>
    obtain ⟨u, ha, hu⟩ := h.cons_inv
    obtain ⟨u', ha', hu'⟩ := h'.cons_inv
    obtain rfl := hstep _ _ _ _ ha ha'
    exact ih hu hu'

/-- Every label of a run is that of a step on the way. -/
theorem step_of_mem {s t : σ} {ls : List ι} (h : Run step s ls t) {a : ι} (ha : a ∈ ls) :
    ∃ ms u v, ms ++ [a] <+: ls ∧ Run step s ms u ∧ step u a v := by
  induction h with
  | nil => exact absurd ha List.not_mem_nil
  | @snoc t u ls b h hb ih =>
    rcases List.mem_append.mp ha with ha | ha
    · obtain ⟨ms, u', v, hms, hrun, hstep⟩ := ih ha
      exact ⟨ms, u', v, hms.trans (List.prefix_append ls [b]), hrun, hstep⟩
    · rw [List.mem_singleton.mp ha]
      exact ⟨ls, t, u, List.prefix_refl _, h, hb⟩

/-- What holds first and is kept by every step holds at the end. -/
theorem invariant {I : σ → Prop} (hstep : ∀ s a t, I s → step s a t → I t) {s t : σ} {ls : List ι}
    (h : Run step s ls t) (hs : I s) : I t := by
  induction h with
  | nil => exact hs
  | snoc _ ha ih => exact hstep _ _ _ ih ha

/-- The same for what is said of the labels so far and the state. -/
theorem invariant_labels {I : List ι → σ → Prop}
    (hstep : ∀ ls s a t, I ls s → step s a t → I (ls ++ [a]) t) {s t : σ} {ls : List ι}
    (h : Run step s ls t) (hs : I [] s) : I ls t := by
  induction h with
  | nil => exact hs
  | snoc _ ha ih => exact hstep _ _ _ _ ih ha

/-- Where a step lowers a rank, but for some that may raise it a little, runs are short. -/
theorem length_le (rank : σ → ℕ) (raises : ι → Bool) (c : ℕ)
    (hstep : ∀ s a t, step s a t → rank t + 1 ≤ rank s + if raises a then c else 0) {s t : σ}
    {ls : List ι} (h : Run step s ls t) : ls.length + rank t ≤ rank s + c * ls.countP raises := by
  induction h with
  | nil => simp
  | @snoc t u ls a _ ha ih =>
    have hlast := hstep t a u ha
    have hcount : c * (ls ++ [a]).countP raises =
        c * ls.countP raises + if raises a then c else 0 := by
      rw [List.countP_append, List.countP_singleton, Nat.mul_add]
      split <;> simp
    rw [hcount, List.length_append, List.length_singleton]
    omega

/-- Forward simulation: a step with a label that `g` keeps is matched by one step, any other by
none. -/
theorem simulate {τ κ : Type} {step' : τ → κ → τ → Prop} {R : σ → τ → Prop} (g : ι → Option κ)
    (hstep : ∀ s a t s', R s s' → step s a t → ∃ t', Run step' s' (g a).toList t' ∧ R t t')
    {s t : σ} {s' : τ} {ls : List ι} (h : Run step s ls t) (hs : R s s') :
    ∃ t', Run step' s' (ls.filterMap g) t' ∧ R t t' := by
  induction h with
  | nil => exact ⟨s', .nil s', hs⟩
  | @snoc t u ls a _ ha ih =>
    obtain ⟨t', hrun, ht⟩ := ih
    obtain ⟨u', hlast, hu⟩ := hstep _ _ _ _ ht ha
    refine ⟨u', ?_, hu⟩
    rw [List.filterMap_append]
    apply hrun.trans
    cases hg : g a <;> simpa [hg] using hlast

/-- A part of a system moves as one by itself, or not at all. -/
theorem update {ν : Type} [DecidableEq ν] {S : ν → σ → ι → σ → Prop} {f : ν → σ} {u : ν} {a : ι}
    {t : σ} (h : S u (f u) a t) (v : ν) :
    Run (S v) (f v) (if u = v then some a else none).toList (Function.update f u t v) := by
  by_cases hv : u = v
  · subst hv
    rw [if_pos rfl, Function.update_self]
    exact .single h
  · rw [if_neg hv, Function.update_of_ne (Ne.symm hv)]
    exact .nil _

end Run

/-- The steps that also meet a condition on the state before and the label. -/
def Guarded (step : σ → ι → σ → Prop) (cond : σ → ι → Prop) : σ → ι → σ → Prop :=
  fun s a t => step s a t ∧ cond s a

/-- What holds first and is kept holds before every step of a run. -/
theorem Run.guarded_of_first {P : σ → Prop} (hstep : ∀ s a t, P s → step s a t → P t) {s t : σ}
    {ls : List ι} (h : Run step s ls t) (hs : P s) : Run (Guarded step fun s _ => P s) s ls t := by
  induction h with
  | nil => exact .nil _
  | snoc h ha ih => exact ih.snoc ⟨ha, h.invariant hstep hs⟩

/-- What holds at the end, and is not gained by any step, holds before every step. -/
theorem Run.guarded_of_last {P : σ → Prop} (hstep : ∀ s a t, step s a t → P t → P s) {s t : σ}
    {ls : List ι} (h : Run step s ls t) (ht : P t) : Run (Guarded step fun s _ => P s) s ls t := by
  induction h with
  | nil => exact .nil _
  | snoc _ ha ih =>
    have hlast := hstep _ _ _ ha ht
    exact (ih hlast).snoc ⟨ha, hlast⟩

theorem Run.guarded_of_forall {P : ι → Prop} {s t : σ} {ls : List ι} (h : Run step s ls t)
    (hP : ∀ a ∈ ls, P a) : Run (Guarded step fun _ a => P a) s ls t := by
  induction h with
  | nil => exact .nil _
  | snoc _ ha ih =>
    exact (ih fun a ha' => hP a (List.mem_append_left _ ha')).snoc ⟨ha, hP _ (by simp)⟩

end NakamotoNode.Foundations
