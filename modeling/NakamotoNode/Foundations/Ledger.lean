import Mathlib.Data.List.AList
import Mathlib.Algebra.BigOperators.Group.List.Basic
import Mathlib.Algebra.Order.BigOperators.Group.List
import Mathlib.Algebra.Order.Ring.Int
import Mathlib.Tactic.Ring
import Mathlib.Tactic.Linarith

/-! # Double-entry ledgers

A ledger is a finite map of balances (an absent account holds 0). A transfer debits one account
and credits another, so it keeps the total; its effect on an account is the integer `flow`.

`Funded f ts`: replaying the transfers `ts` from the balances `f`, every sender holds the amount
at its turn. Funded transfers of non-negative amounts never make a balance negative, and they stay
funded when the balances of senders are raised. -/

namespace NakamotoNode.Foundations
set_option autoImplicit false

variable {κ : Type} [DecidableEq κ]

abbrev Ledger (κ : Type) := AList fun _ : κ => ℤ

structure Transfer (κ : Type) where
  sender : κ
  receiver : κ
  amount : ℤ
  deriving DecidableEq, Repr

/-- What a transfer adds to the account `u`: received minus sent. -/
def Transfer.flow (t : Transfer κ) (u : κ) : ℤ :=
  (if t.receiver = u then t.amount else 0) - (if t.sender = u then t.amount else 0)

namespace Ledger

def balance (L : Ledger κ) (u : κ) : ℤ := (L.lookup u).getD 0

def total (L : Ledger κ) : ℤ := (L.entries.map fun e => e.2).sum

def credit (L : Ledger κ) (u : κ) (a : ℤ) : Ledger κ := L.insert u (balance L u + a)

def transfer (L : Ledger κ) (t : Transfer κ) : Ledger κ :=
  credit (credit L t.sender (-t.amount)) t.receiver t.amount

@[simp] theorem balance_empty (u : κ) : balance (∅ : Ledger κ) u = 0 := rfl

omit [DecidableEq κ] in
@[simp] theorem total_empty : total (∅ : Ledger κ) = 0 := rfl

theorem balance_insert (L : Ledger κ) (u v : κ) (b : ℤ) :
    balance (L.insert u b) v = if v = u then b else balance L v := by
  unfold balance
  split
  · next h => rw [h, AList.lookup_insert, Option.getD_some]
  · next h => rw [AList.lookup_insert_ne h]

theorem total_eq_kerase :
    ∀ (l : List (Sigma fun _ : κ => ℤ)) (u : κ),
      (l.map fun e => e.2).sum = ((l.dlookup u).getD 0) + ((l.kerase u).map fun e => e.2).sum
  | [], u => by simp
  | ⟨v, b⟩ :: l, u => by
      by_cases h : u = v
      · subst h
        simp [List.dlookup_cons_eq, List.kerase_cons_eq]
      · have hhead : u ≠ (⟨v, b⟩ : Sigma fun _ : κ => ℤ).1 := h
        rw [List.dlookup_cons_ne _ _ hhead, List.kerase_cons_ne hhead, List.map_cons,
          List.sum_cons, List.map_cons, List.sum_cons, total_eq_kerase l u]
        ring

theorem total_insert (L : Ledger κ) (u : κ) (b : ℤ) :
    total (L.insert u b) = total L - balance L u + b := by
  have h := total_eq_kerase L.entries u
  simp only [total, balance, AList.entries_insert, List.map_cons, List.sum_cons, AList.lookup] at h ⊢
  omega

theorem balance_credit (L : Ledger κ) (u v : κ) (a : ℤ) :
    balance (credit L u a) v = balance L v + if u = v then a else 0 := by
  rw [credit, balance_insert]
  by_cases h : v = u
  · simp [h]
  · simp [h, Ne.symm h]

theorem total_credit (L : Ledger κ) (u : κ) (a : ℤ) : total (credit L u a) = total L + a := by
  rw [credit, total_insert]
  ring

theorem balance_transfer (L : Ledger κ) (t : Transfer κ) (u : κ) :
    balance (transfer L t) u = balance L u + t.flow u := by
  rw [transfer, balance_credit, balance_credit, Transfer.flow]
  split_ifs <;> ring

theorem total_transfer (L : Ledger κ) (t : Transfer κ) : total (transfer L t) = total L := by
  rw [transfer, total_credit, total_credit]
  ring

theorem balance_foldl_transfer (L : Ledger κ) (ts : List (Transfer κ)) (u : κ) :
    balance (ts.foldl transfer L) u = balance L u + (ts.map fun t => t.flow u).sum := by
  induction ts generalizing L with
  | nil => simp
  | cons t ts ih =>
    rw [List.foldl_cons, ih, balance_transfer, List.map_cons, List.sum_cons]
    ring

theorem total_foldl_transfer (L : Ledger κ) (ts : List (Transfer κ)) :
    total (ts.foldl transfer L) = total L := by
  induction ts generalizing L with
  | nil => rfl
  | cons t ts ih => rw [List.foldl_cons, ih, total_transfer]

/-! ## Bounds -/

/-- No balance is greater than `B` in absolute value. -/
def Within (L : Ledger κ) (B : ℤ) : Prop := ∀ u, |balance L u| ≤ B

theorem Within.mono {L : Ledger κ} {B B' : ℤ} (h : Within L B) (hB : B ≤ B') : Within L B' :=
  fun u => (h u).trans hB

theorem Within.credit {L : Ledger κ} {B : ℤ} (h : Within L B) (u : κ) (a : ℤ) :
    Within (credit L u a) (B + |a|) := by
  intro v
  rw [balance_credit]
  split
  · exact (abs_add_le _ _).trans (add_le_add_left (h v) _)
  · rw [add_zero]
    exact (h v).trans (le_add_of_nonneg_right (abs_nonneg a))

theorem abs_flow_le (t : Transfer κ) (u : κ) : |t.flow u| ≤ |t.amount| := by
  unfold Transfer.flow
  split_ifs <;> simp

theorem Within.transfer {L : Ledger κ} {B : ℤ} (h : Within L B) (t : Transfer κ) :
    Within (transfer L t) (B + |t.amount|) := by
  intro v
  rw [balance_transfer]
  exact (abs_add_le _ _).trans (add_le_add (h v) (abs_flow_le t v))

theorem Within.foldl_transfer {L : Ledger κ} {B : ℤ} (h : Within L B) (ts : List (Transfer κ)) :
    Within (ts.foldl Ledger.transfer L) (B + (ts.map fun t => |t.amount|).sum) := by
  induction ts generalizing L B with
  | nil => simpa using h
  | cons t ts ih =>
    rw [List.foldl_cons, List.map_cons, List.sum_cons, ← add_assoc]
    exact ih (h.transfer t)

/-! ## Postings -/

/-- Add the amounts to the accounts, one after the other. -/
def post (L : Ledger κ) (ps : List (κ × ℤ)) : Ledger κ :=
  ps.foldl (fun L p => L.credit p.1 p.2) L

/-- Each balance that the postings write has `P`. -/
def Contained (P : ℤ → Prop) : Ledger κ → List (κ × ℤ) → Prop
  | _, [] => True
  | L, p :: ps => P (L.balance p.1 + p.2) ∧ Contained P (L.credit p.1 p.2) ps

theorem contained_append {P : ℤ → Prop} {L : Ledger κ} {ps qs : List (κ × ℤ)} :
    Contained P L (ps ++ qs) ↔ Contained P L ps ∧ Contained P (L.post ps) qs := by
  induction ps generalizing L with
  | nil => simp [Contained, post]
  | cons p ps ih =>
    rw [List.cons_append, Contained, Contained, ih, and_assoc]
    rfl

theorem contained_singleton {P : ℤ → Prop} {L : Ledger κ} {u : κ} {a : ℤ} :
    Contained P L [(u, a)] ↔ P (L.balance u + a) := and_iff_left trivial

end Ledger

/-- The two postings of a transfer. -/
def Transfer.postings (t : Transfer κ) : List (κ × ℤ) :=
  [(t.sender, -t.amount), (t.receiver, t.amount)]

theorem Ledger.post_flatMap_postings (L : Ledger κ) (ts : List (Transfer κ)) :
    L.post (ts.flatMap Transfer.postings) = ts.foldl Ledger.transfer L := by
  induction ts generalizing L with
  | nil => rfl
  | cons t ts ih =>
    rw [List.flatMap_cons, post, List.foldl_append, List.foldl_cons, ← ih]
    rfl

/-! ## Funded transfers -/

/-- Every sender holds the amount at its turn. -/
def Funded : (κ → ℤ) → List (Transfer κ) → Prop
  | _, [] => True
  | f, t :: ts => t.amount ≤ f t.sender ∧ Funded (fun u => f u + t.flow u) ts

theorem Funded.mono {f g : κ → ℤ} {ts : List (Transfer κ)} (h : Funded f ts)
    (hfg : ∀ t ∈ ts, f t.sender ≤ g t.sender) : Funded g ts := by
  induction ts generalizing f g with
  | nil => trivial
  | cons t ts ih =>
    refine ⟨h.1.trans (hfg t (by simp)), ih h.2 fun t' ht' => ?_⟩
    have := hfg t' (by simp [ht'])
    omega

theorem Transfer.nonneg_flow {f : κ → ℤ} {t : Transfer κ} (hf : ∀ u, 0 ≤ f u) (ha : 0 ≤ t.amount)
    (hfund : t.amount ≤ f t.sender) (u : κ) : 0 ≤ f u + t.flow u := by
  have hu := hf u
  unfold Transfer.flow
  split_ifs with hr hs hs
  · omega
  · omega
  · subst hs
    omega
  · omega

theorem Funded.nonneg {f : κ → ℤ} {ts : List (Transfer κ)} (hf : ∀ u, 0 ≤ f u)
    (ha : ∀ t ∈ ts, 0 ≤ t.amount) (h : Funded f ts) (u : κ) :
    0 ≤ f u + (ts.map fun t => t.flow u).sum := by
  induction ts generalizing f with
  | nil => simpa using hf u
  | cons t ts ih =>
    have hstep := Transfer.nonneg_flow hf (ha t (by simp)) h.1
    have := ih hstep (fun t' ht' => ha t' (by simp [ht'])) h.2
    rw [List.map_cons, List.sum_cons]
    omega

/-- Transfer while the senders hold the amounts; `none` once one does not. -/
def Ledger.pay : Ledger κ → List (Transfer κ) → Option (Ledger κ)
  | L, [] => some L
  | L, t :: ts => if L.balance t.sender < t.amount then none else Ledger.pay (L.transfer t) ts

theorem Ledger.pay_eq_some_iff {L L' : Ledger κ} {ts : List (Transfer κ)} :
    L.pay ts = some L' ↔ Funded L.balance ts ∧ L' = ts.foldl Ledger.transfer L := by
  induction ts generalizing L with
  | nil => simp [pay, Funded, eq_comm]
  | cons t ts ih =>
    have hbal : (L.transfer t).balance = fun u => L.balance u + t.flow u :=
      funext (Ledger.balance_transfer L t)
    rw [pay, Funded, List.foldl_cons]
    split
    · next hlt => simp [not_le.mpr hlt]
    · next hle => rw [ih, hbal, and_assoc, and_iff_right (not_lt.mp hle)]

/-- One sender that holds all the amounts together. -/
theorem funded_of_sender {f : κ → ℤ} {a : κ} {ts : List (Transfer κ)}
    (hs : ∀ t ∈ ts, t.sender = a) (h : (ts.map fun t => |t.amount|).sum ≤ f a) : Funded f ts := by
  induction ts generalizing f with
  | nil => trivial
  | cons t ts ih =>
    obtain rfl := hs t (by simp)
    rw [List.map_cons, List.sum_cons] at h
    have hrest : 0 ≤ (ts.map fun t => |t.amount|).sum := by
      refine List.sum_nonneg fun x hx => ?_
      obtain ⟨t', -, rfl⟩ := List.mem_map.mp hx
      exact abs_nonneg _
    have hamount := le_abs_self t.amount
    refine ⟨by omega, ih (fun t' ht' => hs t' (by simp [ht'])) ?_⟩
    have hflow := (abs_le.mp (Ledger.abs_flow_le t t.sender)).1
    omega

end NakamotoNode.Foundations
