import Mathlib.Data.Multiset.AddSub
import Mathlib.Data.Set.Insert
import Mathlib.Logic.Relation
import NakamotoNode.Foundations.Runs

/-! # Flooding a network

Every node sends what it originates, and what it accepts for the first time, to the nodes that `route`
names for it. Copies travel without loss in any order. In every run a node accepts a message once at
most (`accept_count_le`), and when no copy is left every node that `route` leads to has seen what any
one on the way has (`seen_of_reaches`). -/

namespace NakamotoNode.Foundations
set_option autoImplicit false

structure Flood (ν μ : Type) where
  /-- what a node has originated or accepted -/
  seen : ν → Set μ
  /-- the copies on their way to a node -/
  pending : Multiset (ν × μ)

namespace Flood
variable {ν μ : Type}

inductive Move (ν μ : Type) where
  | originate (u : ν) (m : μ)
  | accept (v : ν) (m : μ)
  | drop (v : ν) (m : μ)
  deriving DecidableEq

/-- A copy of `m` for each of `targets`. -/
def copies (targets : List ν) (m : μ) : Multiset (ν × μ) := targets.map fun w => (w, m)

theorem mem_copies {targets : List ν} {m m' : μ} {w : ν} :
    (w, m') ∈ copies targets m ↔ w ∈ targets ∧ m' = m := by
  simp [copies, eq_comm]

theorem copies_nil (m : μ) : copies ([] : List ν) m = 0 := rfl

theorem copies_cons (w : ν) (ws : List ν) (m : μ) : copies (w :: ws) m = (w, m) ::ₘ copies ws m :=
  rfl

theorem copies_perm {targets targets' : List ν} (h : targets.Perm targets') (m : μ) :
    copies targets m = copies targets' m :=
  Multiset.coe_eq_coe.mpr (h.map _)

variable [DecidableEq ν]

/-- The node sees `m` too. -/
def see (seen : ν → Set μ) (v : ν) (m : μ) : ν → Set μ :=
  Function.update seen v (insert m (seen v))

theorem mem_see {seen : ν → Set μ} {u v : ν} {m m' : μ} :
    m' ∈ see seen v m u ↔ (u = v ∧ m' = m) ∨ m' ∈ seen u := by
  by_cases h : u = v
  · subst h
    simp [see]
  · simp [see, h]

inductive Step (route : ν → μ → List ν) : Flood ν μ → Move ν μ → Flood ν μ → Prop
  | originate {F : Flood ν μ} {u : ν} {m : μ} :
      Step route F (.originate u m)
        { seen := see F.seen u m, pending := copies (route u m) m + F.pending }
  | accept {F : Flood ν μ} {v : ν} {m : μ} {rest : Multiset (ν × μ)}
      (h : F.pending = (v, m) ::ₘ rest) (hnew : m ∉ F.seen v) :
      Step route F (.accept v m)
        { seen := see F.seen v m, pending := copies (route v m) m + rest }
  | drop {F : Flood ν μ} {v : ν} {m : μ} {rest : Multiset (ν × μ)}
      (h : F.pending = (v, m) ::ₘ rest) (hold : m ∈ F.seen v) :
      Step route F (.drop v m) { F with pending := rest }

variable {route : ν → μ → List ν} {F F' : Flood ν μ} {a : Move ν μ} {u v : ν} {m : μ}

theorem Step.mem_seen (h : Step route F a F') :
    m ∈ F'.seen v ↔ m ∈ F.seen v ∨ a = .originate v m ∨ a = .accept v m := by
  cases h with
  | originate =>
    simp only [mem_see, Move.originate.injEq, reduceCtorEq, or_false, eq_comm]
    tauto
  | accept =>
    simp only [mem_see, Move.accept.injEq, reduceCtorEq, false_or, eq_comm]
    tauto
  | drop => simp

theorem Step.not_mem_seen_of_accept (h : Step route F (.accept v m) F') : m ∉ F.seen v := by
  cases h with
  | accept _ hnew => exact hnew

theorem Step.mem_pending (h : Step route F a F') (hmem : (v, m) ∈ F.pending) :
    (v, m) ∈ F'.pending ∨ m ∈ F'.seen v := by
  cases h with
  | originate => exact .inl (Multiset.mem_add.mpr (.inr hmem))
  | accept hp =>
    rw [hp, Multiset.mem_cons] at hmem
    rcases hmem with he | hmem
    · obtain ⟨rfl, rfl⟩ := Prod.mk.inj he
      exact .inr (mem_see.mpr (.inl ⟨rfl, rfl⟩))
    · exact .inl (Multiset.mem_add.mpr (.inr hmem))
  | drop hp hold =>
    rw [hp, Multiset.mem_cons] at hmem
    rcases hmem with he | hmem
    · obtain ⟨rfl, rfl⟩ := Prod.mk.inj he
      exact .inr hold
    · exact .inl hmem

theorem Step.sends (h : Step route F a F') (hnew : m ∉ F.seen u) (hseen : m ∈ F'.seen u)
    (hw : v ∈ route u m) : (v, m) ∈ F'.pending := by
  have hcopy : (v, m) ∈ copies (route u m) m := mem_copies.mpr ⟨hw, rfl⟩
  cases h with
  | originate =>
    obtain ⟨rfl, rfl⟩ := (mem_see.mp hseen).resolve_right hnew
    exact Multiset.mem_add.mpr (.inl hcopy)
  | accept =>
    obtain ⟨rfl, rfl⟩ := (mem_see.mp hseen).resolve_right hnew
    exact Multiset.mem_add.mpr (.inl hcopy)
  | drop => exact absurd hseen hnew

/-- What a node has seen, each node it sends to has seen or will get. -/
def Covered (route : ν → μ → List ν) (F : Flood ν μ) : Prop :=
  ∀ u m, m ∈ F.seen u → ∀ v ∈ route u m, m ∈ F.seen v ∨ (v, m) ∈ F.pending

theorem Step.covered (h : Step route F a F') (hF : Covered route F) : Covered route F' := by
  intro u m hseen v hv
  by_cases hold : m ∈ F.seen u
  · rcases hF u m hold v hv with hseen' | hpending
    · exact .inl (h.mem_seen.mpr (.inl hseen'))
    · exact (h.mem_pending hpending).symm
  · exact .inr (h.sends hold hseen hv)

/-! ## Runs -/

/-- The network before any message. -/
def empty (ν μ : Type) : Flood ν μ where
  seen := fun _ => ∅
  pending := 0

variable {as : List (Move ν μ)}

theorem mem_seen_iff (h : Run (Step route) (empty ν μ) as F) :
    m ∈ F.seen v ↔ .originate v m ∈ as ∨ .accept v m ∈ as :=
  h.invariant_labels (I := fun as F => m ∈ F.seen v ↔ Move.originate v m ∈ as ∨ .accept v m ∈ as)
    (fun as F a F' hI hstep => by
      rw [hstep.mem_seen, hI, List.mem_append, List.mem_append, List.mem_singleton,
        List.mem_singleton]
      tauto)
    (by simp [empty])

theorem covered_of_run (h : Run (Step route) (empty ν μ) as F) : Covered route F :=
  h.invariant (fun _ _ _ hI hstep => hstep.covered hI) fun _ _ hseen => hseen.elim

theorem accept_count_le [DecidableEq μ] (h : Run (Step route) (empty ν μ) as F) :
    as.count (.accept v m) ≤ 1 := by
  refine (h.invariant_labels (I := fun as F => as.count (Move.accept v m) ≤ 1 ∧
    (m ∉ F.seen v → as.count (Move.accept v m) = 0)) (fun as F a F' hI hstep => ?_)
    (by simp)).1
  obtain ⟨hle, hzero⟩ := hI
  rw [List.count_append, List.count_singleton]
  by_cases ha : a = .accept v m
  · subst ha
    have hnew := hzero hstep.not_mem_seen_of_accept
    have hseen : m ∈ F'.seen v := hstep.mem_seen.mpr (.inr (.inr rfl))
    simp [hnew, hseen]
  · have hne : (a == Move.accept v m) = false := beq_eq_false_iff_ne.mpr ha
    rw [hne]
    refine ⟨by simpa using hle, fun hnot => ?_⟩
    simpa using hzero fun hseen => hnot (hstep.mem_seen.mpr (.inl hseen))

/-- Along the routes of `m` it is seen everywhere once no copy is left. -/
theorem seen_of_reaches (h : Run (Step route) (empty ν μ) as F) (hquiet : F.pending = 0)
    (hseen : m ∈ F.seen u) (hreach : Relation.ReflTransGen (fun a b => b ∈ route a m) u v) :
    m ∈ F.seen v := by
  induction hreach with
  | refl => exact hseen
  | tail _ hedge ih =>
    apply (covered_of_run h _ m ih _ hedge).resolve_right
    rw [hquiet]
    exact Multiset.notMem_zero _

end Flood
end NakamotoNode.Foundations
