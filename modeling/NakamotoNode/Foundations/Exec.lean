import Mathlib.Tactic.Common
import Mathlib.Logic.Basic

/-! # Fuelled executions

A program that may panic and whose loops may not end is a function of a fuel `n`: it returns,
it panics, or it runs out of fuel. Nothing here is about one program.

* `Exec ε α`: an outcome with panics `ε`; `Sat x Q E`: every outcome but exhaustion is allowed
  (a returned value satisfies `Q`, a panic satisfies `E`).
* `loop body n s`: a `while` loop, at most `n` rounds. Rules: an invariant (`Sat.loop`) and a measure
  (`loop_ne_outOfFuel`).
* `Growing f`: more fuel only ever turns exhaustion into an outcome.
-/

namespace NakamotoNode.Foundations
set_option autoImplicit false

/-- Why an execution has no result. -/
inductive Fault (ε : Type) where
  | panic (e : ε)
  | outOfFuel
  deriving DecidableEq, Repr

/-- The outcome of an execution whose panics are `ε`. -/
abbrev Exec (ε α : Type) := Except (Fault ε) α

namespace Exec

variable {ε α β σ : Type}

def panic (e : ε) : Exec ε α := .error (.panic e)

def outOfFuel : Exec ε α := .error .outOfFuel

/-- `Option::unwrap`, with the panic of this place in the program. -/
def unwrap (e : ε) : Option α → Exec ε α
  | some a => .ok a
  | none => panic e

@[simp] theorem unwrap_some (e : ε) (a : α) : unwrap e (some a) = .ok a := rfl

@[simp] theorem unwrap_none (e : ε) : unwrap e (none : Option α) = panic e := rfl

@[simp] theorem ok_bind (a : α) (f : α → Exec ε β) : (Except.ok a : Exec ε α) >>= f = f a := rfl

@[simp] theorem panic_bind (e : ε) (f : α → Exec ε β) : (panic e : Exec ε α) >>= f = panic e := rfl

@[simp] theorem outOfFuel_bind (f : α → Exec ε β) :
    (outOfFuel : Exec ε α) >>= f = outOfFuel := rfl

@[simp] theorem pure_eq_ok (a : α) : (pure a : Exec ε α) = .ok a := rfl

@[simp] theorem panic_ne_ok (e : ε) (a : α) : (panic e : Exec ε α) ≠ .ok a := nofun

@[simp] theorem ok_ne_panic (e : ε) (a : α) : (.ok a : Exec ε α) ≠ panic e := nofun

@[simp] theorem outOfFuel_ne_ok (a : α) : (outOfFuel : Exec ε α) ≠ .ok a := nofun

@[simp] theorem ok_ne_outOfFuel (a : α) : (.ok a : Exec ε α) ≠ outOfFuel := nofun

@[simp] theorem panic_ne_outOfFuel (e : ε) : (panic e : Exec ε α) ≠ outOfFuel := nofun

@[simp] theorem panic_inj {e e' : ε} : (panic e : Exec ε α) = panic e' ↔ e = e' := by
  simp [panic]

theorem outcome_cases (x : Exec ε α) : (∃ a, x = .ok a) ∨ (∃ e, x = panic e) ∨ x = outOfFuel := by
  match x with
  | .ok a => exact .inl ⟨a, rfl⟩
  | .error (.panic e) => exact .inr (.inl ⟨e, rfl⟩)
  | .error .outOfFuel => exact .inr (.inr rfl)

theorem bind_eq_ok {x : Exec ε α} {f : α → Exec ε β} {b : β} :
    x >>= f = .ok b ↔ ∃ a, x = .ok a ∧ f a = .ok b := by
  obtain ⟨a, rfl⟩ | ⟨e, rfl⟩ | rfl := outcome_cases x <;> simp

theorem bind_eq_outOfFuel {x : Exec ε α} {f : α → Exec ε β} :
    x >>= f = outOfFuel ↔ x = outOfFuel ∨ ∃ a, x = .ok a ∧ f a = outOfFuel := by
  obtain ⟨a, rfl⟩ | ⟨e, rfl⟩ | rfl := outcome_cases x <;> simp

theorem bind_ne_outOfFuel {x : Exec ε α} {f : α → Exec ε β} (hx : x ≠ outOfFuel)
    (hf : ∀ a, x = .ok a → f a ≠ outOfFuel) : x >>= f ≠ outOfFuel := by
  rw [Ne, bind_eq_outOfFuel]
  rintro (h | ⟨a, ha, h⟩)
  · exact hx h
  · exact hf a ha h

@[simp] theorem unwrap_eq_ok {e : ε} {o : Option α} {a : α} :
    unwrap e o = .ok a ↔ o = some a := by
  cases o <;> simp [eq_comm]

theorem unwrap_ne_outOfFuel (e : ε) (o : Option α) : unwrap e o ≠ outOfFuel := by
  cases o <;> simp

/-- The same outcome, its panics under other names. -/
def mapPanic {ε' : Type} (f : ε → ε') : Exec ε α → Exec ε' α
  | .ok a => .ok a
  | .error (.panic e) => panic (f e)
  | .error .outOfFuel => outOfFuel

@[simp] theorem mapPanic_ok {ε' : Type} (f : ε → ε') (a : α) :
    mapPanic f (.ok a : Exec ε α) = .ok a := rfl

@[simp] theorem mapPanic_eq_ok {ε' : Type} {f : ε → ε'} {x : Exec ε α} {a : α} :
    mapPanic f x = .ok a ↔ x = .ok a := by
  obtain ⟨b, rfl⟩ | ⟨e, rfl⟩ | rfl := outcome_cases x
  · rw [mapPanic_ok, Except.ok.injEq, Except.ok.injEq]
  · exact iff_of_false (panic_ne_ok _ _) (panic_ne_ok _ _)
  · exact iff_of_false (outOfFuel_ne_ok _) (outOfFuel_ne_ok _)

theorem mapPanic_ne_outOfFuel {ε' : Type} {f : ε → ε'} {x : Exec ε α} (h : x ≠ outOfFuel) :
    mapPanic f x ≠ outOfFuel := by
  obtain ⟨a, rfl⟩ | ⟨e, rfl⟩ | rfl := outcome_cases x
  · exact ok_ne_outOfFuel a
  · exact panic_ne_outOfFuel (f e)
  · exact absurd rfl h

theorem bind_panics {x : Exec ε α} {f : α → Exec ε β} : (∃ e, x >>= f = panic e) ↔
    (∃ e, x = panic e) ∨ ∃ a, x = .ok a ∧ ∃ e, f a = panic e := by
  obtain ⟨a, rfl⟩ | ⟨e, rfl⟩ | rfl := outcome_cases x
  · simp
  · simp
  · rw [outOfFuel_bind]
    simp [outOfFuel, panic]

theorem unwrap_panics {e : ε} {o : Option α} : (∃ e', unwrap e o = panic e') ↔ o = none := by
  cases o <;> simp

theorem mapPanic_panics {ε' : Type} {f : ε → ε'} {x : Exec ε α} :
    (∃ e, mapPanic f x = panic e) ↔ ∃ e, x = panic e := by
  obtain ⟨a, rfl⟩ | ⟨e, rfl⟩ | rfl := outcome_cases x
  · simp
  · simp [mapPanic, panic]
  · simp [mapPanic, panic, outOfFuel]

/-! ## What an execution may do -/

/-- A returned value satisfies `Q`, a panic satisfies `E`; running out of fuel is allowed. -/
def Sat (x : Exec ε α) (Q : α → Prop) (E : ε → Prop) : Prop :=
  match x with
  | .ok a => Q a
  | .error (.panic e) => E e
  | .error .outOfFuel => True

@[simp] theorem sat_ok {a : α} {Q : α → Prop} {E : ε → Prop} : Sat (.ok a) Q E ↔ Q a := .rfl

@[simp] theorem sat_panic {e : ε} {Q : α → Prop} {E : ε → Prop} : Sat (panic e) Q E ↔ E e := .rfl

@[simp] theorem sat_outOfFuel {Q : α → Prop} {E : ε → Prop} :
    Sat (outOfFuel : Exec ε α) Q E := trivial

theorem Sat.of_ok {x : Exec ε α} {Q : α → Prop} {E : ε → Prop} (h : Sat x Q E) {a : α}
    (hx : x = .ok a) : Q a := by
  subst hx; exact h

theorem Sat.of_panic {x : Exec ε α} {Q : α → Prop} {E : ε → Prop} (h : Sat x Q E) {e : ε}
    (hx : x = panic e) : E e := by
  subst hx; exact h

theorem sat_iff {x : Exec ε α} {Q : α → Prop} {E : ε → Prop} :
    Sat x Q E ↔ (∀ a, x = .ok a → Q a) ∧ ∀ e, x = panic e → E e := by
  constructor
  · exact fun h => ⟨fun a ha => h.of_ok ha, fun e he => h.of_panic he⟩
  · rintro ⟨hQ, hE⟩
    obtain ⟨a, rfl⟩ | ⟨e, rfl⟩ | rfl := outcome_cases x
    · exact hQ a rfl
    · exact hE e rfl
    · trivial

theorem Sat.exists_ok {x : Exec ε α} {Q : α → Prop} (h : Sat x Q fun _ => False)
    (hx : x ≠ outOfFuel) : ∃ a, x = .ok a ∧ Q a := by
  obtain ⟨a, rfl⟩ | ⟨e, rfl⟩ | rfl := outcome_cases x
  · exact ⟨a, rfl, h⟩
  · exact h.elim
  · exact absurd rfl hx

theorem Sat.mono {x : Exec ε α} {Q Q' : α → Prop} {E E' : ε → Prop} (h : Sat x Q E)
    (hQ : ∀ a, Q a → Q' a) (hE : ∀ e, E e → E' e) : Sat x Q' E' := by
  rw [sat_iff] at h ⊢
  exact ⟨fun a ha => hQ a (h.1 a ha), fun e he => hE e (h.2 e he)⟩

theorem Sat.bind {x : Exec ε α} {f : α → Exec ε β} {P : α → Prop} {Q : β → Prop} {E : ε → Prop}
    (hx : Sat x P E) (hf : ∀ a, P a → Sat (f a) Q E) : Sat (x >>= f) Q E := by
  obtain ⟨a, rfl⟩ | ⟨e, rfl⟩ | rfl := outcome_cases x
  · exact hf a hx
  · exact hx
  · trivial

theorem Sat.unwrap {e : ε} {o : Option α} {Q : α → Prop} {E : ε → Prop}
    (hsome : ∀ a, o = some a → Q a) (hnone : o = none → E e) : Sat (unwrap e o) Q E := by
  cases o with
  | none => exact hnone rfl
  | some a => exact hsome a rfl

/-- A `for` loop over a list keeps its invariant. -/
theorem Sat.foldlM {f : β → α → Exec ε β} {I : β → Prop} {E : ε → Prop} :
    ∀ (l : List α) (b : β), (∀ a ∈ l, ∀ b, I b → Sat (f b a) I E) → I b →
      Sat (l.foldlM f b) I E
  | [], _, _, hb => hb
  | a :: l, b, hf, hb => by
      rw [List.foldlM_cons]
      refine Sat.bind (hf a (by simp) b hb) fun b' hb' => ?_
      exact Sat.foldlM l b' (fun a' ha' => hf a' (by simp [ha'])) hb'

theorem foldlM_ne_outOfFuel {f : β → α → Exec ε β} :
    ∀ (l : List α) (b : β), (∀ a b, f b a ≠ outOfFuel) → l.foldlM f b ≠ outOfFuel
  | [], _, _ => nofun
  | a :: l, b, hf => by
      rw [List.foldlM_cons]
      exact bind_ne_outOfFuel (hf a b) fun b' _ => foldlM_ne_outOfFuel l b' hf

/-! ## Panics decided by a condition -/

/-- Where `P` holds `x` returns a value with `Q`, elsewhere it panics. -/
structure Decides (x : Exec ε α) (P : Prop) (Q : α → Prop) : Prop where
  returns : P → ∃ a, x = .ok a ∧ Q a
  panics : ¬ P → ∃ e, x = panic e

theorem Decides.eq {x : Exec ε α} {P : Prop} {a : α} (h : Decides x P (· = a)) (hP : P) :
    x = .ok a := by
  obtain ⟨b, hb, rfl⟩ := h.returns hP
  exact hb

theorem Decides.of_ok {x : Exec ε α} {P : Prop} {Q : α → Prop} (h : Decides x P Q) {a : α}
    (hx : x = .ok a) : P ∧ Q a := by
  by_cases hP : P
  · obtain ⟨b, hb, hQ⟩ := h.returns hP
    obtain rfl := Except.ok.inj (hx.symm.trans hb)
    exact ⟨hP, hQ⟩
  · obtain ⟨e, he⟩ := h.panics hP
    exact absurd (he.symm.trans hx) (panic_ne_ok e a)

theorem decides_ok {a : α} {Q : α → Prop} (h : Q a) : Decides (.ok a : Exec ε α) True Q :=
  ⟨fun _ => ⟨a, rfl, h⟩, fun h => absurd trivial h⟩

theorem Decides.congr {x : Exec ε α} {P P' : Prop} {Q : α → Prop} (h : Decides x P Q)
    (hP : P ↔ P') : Decides x P' Q := by
  rwa [← hP]

theorem Decides.bind {x : Exec ε α} {f : α → Exec ε β} {P P' : Prop} {a : α} {Q : β → Prop}
    (hx : Decides x P (· = a)) (hf : P → Decides (f a) P' Q) : Decides (x >>= f) (P ∧ P') Q := by
  constructor
  · rintro ⟨hP, hP'⟩
    rw [hx.eq hP, ok_bind]
    exact (hf hP).returns hP'
  · intro h
    by_cases hP : P
    · rw [hx.eq hP, ok_bind]
      exact (hf hP).panics fun hP' => h ⟨hP, hP'⟩
    · obtain ⟨e, he⟩ := hx.panics hP
      exact ⟨e, by rw [he, panic_bind]⟩

/-! ## Loops -/

/-- `while`: the body either goes on with a new state or leaves the loop with a result. -/
def loop (body : σ → Exec ε (σ ⊕ β)) : ℕ → σ → Exec ε β
  | 0, _ => outOfFuel
  | n + 1, s => body s >>= fun r =>
      match r with
      | .inl s' => loop body n s'
      | .inr b => .ok b

section Loop
variable {body : σ → Exec ε (σ ⊕ β)}

/-- The invariant rule. -/
theorem Sat.loop {I : σ → Prop} {Q : β → Prop} {E : ε → Prop}
    (hbody : ∀ s, I s → Sat (body s) (fun r => r.elim I Q) E) :
    ∀ (n : ℕ) (s : σ), I s → Sat (loop body n s) Q E
  | 0, _, _ => trivial
  | n + 1, s, hs => by
      refine Sat.bind (hbody s hs) fun r hr => ?_
      cases r with
      | inl s' => exact Sat.loop hbody n s' hr
      | inr b => exact hr

/-- The measure rule: as many rounds as the measure says, and one to leave. -/
theorem loop_ne_outOfFuel {I : σ → Prop} (μ : σ → ℕ) (hfuel : ∀ s, I s → body s ≠ outOfFuel)
    (hstep : ∀ s s', I s → body s = .ok (.inl s') → I s' ∧ μ s' < μ s) :
    ∀ (n : ℕ) (s : σ), I s → μ s < n → loop body n s ≠ outOfFuel
  | 0, _, _, hn => absurd hn (Nat.not_lt_zero _)
  | n + 1, s, hs, hn => by
      rw [loop, Ne, bind_eq_outOfFuel]
      rintro (h | ⟨r, hr, h⟩)
      · exact hfuel s hs h
      · cases r with
        | inr b => exact ok_ne_outOfFuel b h
        | inl s' =>
          obtain ⟨hs', hlt⟩ := hstep s s' hs hr
          exact loop_ne_outOfFuel μ hfuel hstep n s' hs' (by omega) h

end Loop

/-! ## More fuel -/

/-- `x` ran out of fuel or is already the outcome `y`. -/
def Cut (x y : Exec ε α) : Prop := x = outOfFuel ∨ x = y

theorem Cut.refl (x : Exec ε α) : Cut x x := .inr rfl

theorem Cut.eq {x y : Exec ε α} (h : Cut x y) (hx : x ≠ Exec.outOfFuel) : y = x :=
  (h.resolve_left hx).symm

theorem Cut.bind {x y : Exec ε α} {f g : α → Exec ε β} (hx : Cut x y) (hf : ∀ a, Cut (f a) (g a)) :
    Cut (x >>= f) (y >>= g) := by
  rcases hx with rfl | rfl
  · exact .inl rfl
  · obtain ⟨a, rfl⟩ | ⟨e, rfl⟩ | rfl := outcome_cases x
    · exact hf a
    · exact .inr rfl
    · exact .inl rfl

/-- More fuel only turns exhaustion into an outcome. -/
def Growing (f : ℕ → Exec ε α) : Prop := ∀ m n, m ≤ n → Cut (f m) (f n)

theorem growing_const (x : Exec ε α) : Growing fun _ => x := fun _ _ _ => .inr rfl

theorem Growing.bind {f : ℕ → Exec ε α} {g : ℕ → α → Exec ε β} (hf : Growing f)
    (hg : ∀ a, Growing fun n => g n a) : Growing fun n => f n >>= g n :=
  fun m n hmn => (hf m n hmn).bind fun a => hg a m n hmn

theorem growing_loop (body : σ → Exec ε (σ ⊕ β)) (s : σ) : Growing fun n => loop body n s := by
  intro m n hmn
  induction m generalizing n s with
  | zero => exact .inl rfl
  | succ m ih =>
    obtain ⟨n, rfl⟩ : ∃ k, n = k + 1 := ⟨n - 1, by omega⟩
    refine (Cut.refl (body s)).bind fun r => ?_
    cases r with
    | inl s' => exact ih s' n (by omega)
    | inr b => exact .refl _

/-- The outcome of one run that is not cut short is that of all. -/
theorem Growing.sat {f : ℕ → Exec ε α} (hf : Growing f) {n : ℕ} {Q : α → Prop} {E : ε → Prop}
    (h : Sat (f n) Q E) (hn : f n ≠ outOfFuel) (m : ℕ) : Sat (f m) Q E := by
  rcases Nat.le_total m n with hmn | hnm
  · rcases hf m n hmn with hout | heq
    · rw [hout]
      trivial
    · rwa [heq]
  · rwa [(hf n m hnm).eq hn]

theorem Growing.eq_of_ok {f : ℕ → Exec ε α} (hf : Growing f) {m n : ℕ} {a b : α}
    (hm : f m = .ok a) (hn : f n = .ok b) : a = b := by
  rcases Nat.le_total m n with h | h
  · have := (hf m n h).eq (by simp [hm])
    rw [hm, hn] at this
    exact (Except.ok.inj this).symm
  · have := (hf n m h).eq (by simp [hn])
    rw [hm, hn] at this
    exact Except.ok.inj this

end Exec

end NakamotoNode.Foundations
