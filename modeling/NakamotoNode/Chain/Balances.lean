import NakamotoNode.Chain.BlockTree

/-! # Balance arithmetic

What the balance updates of the chain compute. In a debug build a returning update is the exact
`Ledger` operation (`addBalance_debug`, `applyTx_debug`, `checkTxs_debug`, `finalizeTxs_debug`); in
a release build only an amount that does not parse can stop one. -/

namespace NakamotoNode.Chain
open Foundations Foundations.RustStd
set_option autoImplicit false

/-- The message of the transaction has an amount. -/
def Transaction.Parses (tx : Transaction) : Prop := ∃ a, extractAmount tx.message = .ok a

/-- The amount of the message, 0 when it has none. -/
def Transaction.amount (tx : Transaction) : ℤ :=
  match extractAmount tx.message with
  | .ok a => a
  | .error _ => 0

/-- The transaction as a ledger transfer. -/
def Transaction.transfer (tx : Transaction) : Transfer UserId where
  sender := tx.sender
  receiver := tx.receiver
  amount := tx.amount

theorem Transaction.amount_of_ok {tx : Transaction} {a : ℤ} (h : extractAmount tx.message = .ok a) :
    tx.amount = a := by
  simp [amount, h]

theorem Transaction.Parses.amount_eq {tx : Transaction} (h : tx.Parses) :
    extractAmount tx.message = .ok tx.amount := by
  obtain ⟨a, ha⟩ := h
  rw [amount_of_ok ha, ha]

theorem verifySig_ne_outOfFuel (C : Crates) (tx : Transaction) :
    tx.verifySig C ≠ Exec.outOfFuel := by
  unfold Transaction.verifySig
  refine Exec.bind_ne_outOfFuel (Exec.unwrap_ne_outOfFuel _ _) fun _ _ => ?_
  refine Exec.bind_ne_outOfFuel (Exec.unwrap_ne_outOfFuel _ _) fun _ _ => ?_
  refine Exec.bind_ne_outOfFuel (Exec.unwrap_ne_outOfFuel _ _) fun _ _ => ?_
  refine Exec.bind_ne_outOfFuel (Exec.unwrap_ne_outOfFuel _ _) fun _ _ => ?_
  exact Exec.bind_ne_outOfFuel (Exec.unwrap_ne_outOfFuel _ _) fun _ _ => Exec.ok_ne_outOfFuel _

theorem extractAmount_ne_outOfFuel (message : String) :
    extractAmount message ≠ Exec.outOfFuel :=
  Exec.bind_ne_outOfFuel (Exec.unwrap_ne_outOfFuel _ _) fun _ _ => Exec.unwrap_ne_outOfFuel _ _

namespace BlockTree

/-- The finalized ledger is built as the pending one is, the ids beside it. -/
theorem finalizeTxs_eq_ok {C : Crates} {profile : Profile} {txs : List Transaction}
    {L L' : Ledger UserId} {ids : Finset TxId} (h : finalizeTxs C profile L txs = .ok (L', ids)) :
    txs.foldlM (applyTx profile) L = .ok L' ∧
      ids = (txs.map fun tx => tx.genHash C).toFinset := by
  suffices hgen : ∀ (txs : List Transaction) (s : Ledger UserId × Finset TxId),
      txs.foldlM (fun (s : Ledger UserId × Finset TxId) tx =>
        applyTx profile s.1 tx >>= fun balances => .ok (balances, insert (tx.genHash C) s.2)) s
        = .ok (L', ids) →
      txs.foldlM (applyTx profile) s.1 = .ok L' ∧
        ids = s.2 ∪ (txs.map fun tx => tx.genHash C).toFinset by
    simpa using hgen txs (L, ∅) h
  intro txs
  induction txs with
  | nil =>
    intro s h
    obtain rfl := Except.ok.inj h
    exact ⟨rfl, by simp⟩
  | cons tx txs ih =>
    intro s h
    rw [List.foldlM_cons] at h
    obtain ⟨s₁, h₁, h₂⟩ := Exec.bind_eq_ok.mp h
    obtain ⟨L₁, hL₁, hs₁⟩ := Exec.bind_eq_ok.mp h₁
    obtain rfl := Except.ok.inj hs₁
    obtain ⟨hL, hids⟩ := ih _ h₂
    refine ⟨?_, ?_⟩
    · rw [List.foldlM_cons, hL₁]
      exact hL
    · rw [hids, List.map_cons, List.toFinset_cons, Finset.insert_union, Finset.union_insert]

/-! ## Debug builds -/

section Debug

theorem addBalance_debug {L L' : Ledger UserId} {u : UserId} {a : ℤ}
    (h : addBalance .debug L u a = .ok L') : L' = L.credit u a := by
  obtain ⟨v, hv, h⟩ := Exec.bind_eq_ok.mp h
  obtain ⟨rfl, -⟩ := i64_debug_eq_ok hv
  exact (Except.ok.inj h).symm

theorem subBalance_debug {L L' : Ledger UserId} {u : UserId} {a : ℤ}
    (h : subBalance .debug L u a = .ok L') : L' = L.credit u (-a) := by
  obtain ⟨v, hv, h⟩ := Exec.bind_eq_ok.mp h
  obtain ⟨rfl, -⟩ := i64_debug_eq_ok hv
  rw [Ledger.credit, ← sub_eq_add_neg]
  exact (Except.ok.inj h).symm

theorem moveAmount_debug {L L' : Ledger UserId} {tx : Transaction} {a : ℤ}
    (h : moveAmount .debug L tx a = .ok L') :
    L' = L.transfer { sender := tx.sender, receiver := tx.receiver, amount := a } := by
  obtain ⟨L₁, h₁, h₂⟩ := Exec.bind_eq_ok.mp h
  rw [addBalance_debug h₂, subBalance_debug h₁]
  rfl

theorem applyTx_debug {L L' : Ledger UserId} {tx : Transaction}
    (h : applyTx .debug L tx = .ok L') : tx.Parses ∧ L' = L.transfer tx.transfer := by
  obtain ⟨a, ha, hmove⟩ := Exec.bind_eq_ok.mp h
  refine ⟨⟨a, ha⟩, ?_⟩
  rw [moveAmount_debug hmove, Transaction.transfer, Transaction.amount_of_ok ha]

theorem foldlM_applyTx_debug {txs : List Transaction} {L L' : Ledger UserId}
    (h : txs.foldlM (applyTx .debug) L = .ok L') :
    L' = (txs.map Transaction.transfer).foldl Ledger.transfer L := by
  induction txs generalizing L with
  | nil => exact (Except.ok.inj h).symm
  | cons tx txs ih =>
    rw [List.foldlM_cons] at h
    obtain ⟨L₁, h₁, h₂⟩ := Exec.bind_eq_ok.mp h
    obtain ⟨-, rfl⟩ := applyTx_debug h₁
    rw [ih h₂, List.map_cons, List.foldl_cons]

theorem checkTxs_debug {txs : List Transaction} {L L' : Ledger UserId}
    (h : checkTxs .debug L txs = .ok (some L')) :
    Funded L.balance (txs.map Transaction.transfer) := by
  induction txs generalizing L with
  | nil => trivial
  | cons tx txs ih =>
    obtain ⟨a, ha, h⟩ := Exec.bind_eq_ok.mp h
    split at h
    · exact absurd (Except.ok.inj h) (by simp)
    · next hbal =>
      obtain ⟨L₁, hmove, h⟩ := Exec.bind_eq_ok.mp h
      have hamount : tx.amount = a := Transaction.amount_of_ok ha
      have hL₁ : L₁ = L.transfer tx.transfer := by
        rw [moveAmount_debug hmove, Transaction.transfer, hamount]
      refine ⟨?_, ?_⟩
      · change tx.amount ≤ L.balance tx.sender
        omega
      · have hnext := ih h
        rw [hL₁] at hnext
        exact hnext.mono fun t _ => (Ledger.balance_transfer L tx.transfer t.sender).le

theorem finalizeTxs_debug {C : Crates} {txs : List Transaction} {L L' : Ledger UserId}
    {ids : Finset TxId} (h : finalizeTxs C .debug L txs = .ok (L', ids)) :
    L' = (txs.map Transaction.transfer).foldl Ledger.transfer L ∧
      ids = (txs.map fun tx => tx.genHash C).toFinset :=
  (finalizeTxs_eq_ok h).imp_left foldlM_applyTx_debug

end Debug

/-! ## Both builds -/

section Profiles
variable {profile : Profile}

theorem addBalance_ne_outOfFuel (L : Ledger UserId) (u : UserId) (a : ℤ) :
    addBalance profile L u a ≠ Exec.outOfFuel :=
  Exec.bind_ne_outOfFuel (i64_ne_outOfFuel _ _) fun _ _ => Exec.ok_ne_outOfFuel _

theorem addBalance_sat (profile : Profile) (L : Ledger UserId) (u : UserId) (a : ℤ) :
    Exec.Sat (addBalance profile L u a) (fun _ => True)
      (fun e => profile = .debug ∧ e = .balanceOverflow) :=
  (i64_sat profile _ _).bind fun _ _ => trivial

theorem addBalance_release (L : Ledger UserId) (u : UserId) (a : ℤ) :
    ∃ L', addBalance .release L u a = .ok L' := by
  obtain ⟨v, hv⟩ := i64_release Panic.balanceOverflow (L.balance u + a)
  exact ⟨_, by rw [addBalance, hv, Exec.ok_bind]⟩

theorem subBalance_ne_outOfFuel (L : Ledger UserId) (u : UserId) (a : ℤ) :
    subBalance profile L u a ≠ Exec.outOfFuel :=
  Exec.bind_ne_outOfFuel (i64_ne_outOfFuel _ _) fun _ _ => Exec.ok_ne_outOfFuel _

theorem moveAmount_ne_outOfFuel (L : Ledger UserId) (tx : Transaction) (a : ℤ) :
    moveAmount profile L tx a ≠ Exec.outOfFuel :=
  Exec.bind_ne_outOfFuel (subBalance_ne_outOfFuel _ _ _) fun _ _ => addBalance_ne_outOfFuel _ _ _

theorem applyTx_ne_outOfFuel (L : Ledger UserId) (tx : Transaction) :
    applyTx profile L tx ≠ Exec.outOfFuel :=
  Exec.bind_ne_outOfFuel (extractAmount_ne_outOfFuel _) fun _ _ => moveAmount_ne_outOfFuel _ _ _

theorem moveAmount_release (L : Ledger UserId) (tx : Transaction) (a : ℤ) :
    ∃ L', moveAmount .release L tx a = .ok L' := by
  obtain ⟨v, hv⟩ := i64_release Panic.balanceOverflow (L.balance tx.sender - a)
  obtain ⟨L', hL'⟩ := addBalance_release (L.insert tx.sender v) tx.receiver a
  exact ⟨L', by rw [moveAmount, subBalance, hv, Exec.ok_bind, Exec.ok_bind, hL']⟩

theorem foldlM_applyTx_release {txs : List Transaction} (h : ∀ tx ∈ txs, tx.Parses)
    (L : Ledger UserId) : ∃ L', txs.foldlM (applyTx .release) L = .ok L' := by
  induction txs generalizing L with
  | nil => exact ⟨L, rfl⟩
  | cons tx txs ih =>
    obtain ⟨a, ha⟩ := h tx (by simp)
    obtain ⟨L₁, hL₁⟩ := moveAmount_release L tx a
    obtain ⟨L', hL'⟩ := ih (fun tx' htx' => h tx' (by simp [htx'])) L₁
    exact ⟨L', by rw [List.foldlM_cons, applyTx, ha, Exec.ok_bind, hL₁, Exec.ok_bind, hL']⟩

theorem checkTxs_ne_outOfFuel (L : Ledger UserId) (txs : List Transaction) :
    checkTxs profile L txs ≠ Exec.outOfFuel := by
  induction txs generalizing L with
  | nil => nofun
  | cons tx txs ih =>
    unfold checkTxs
    refine Exec.bind_ne_outOfFuel (extractAmount_ne_outOfFuel _) fun a _ => ?_
    split
    · exact Exec.ok_ne_outOfFuel _
    · exact Exec.bind_ne_outOfFuel (moveAmount_ne_outOfFuel _ _ _) fun L₁ _ => ih L₁

theorem parses_of_checkTxs {txs : List Transaction} {L L' : Ledger UserId}
    (h : checkTxs profile L txs = .ok (some L')) : ∀ tx ∈ txs, tx.Parses := by
  induction txs generalizing L with
  | nil => simp
  | cons tx txs ih =>
    obtain ⟨a, ha, h⟩ := Exec.bind_eq_ok.mp h
    split at h
    · exact absurd (Except.ok.inj h) (by simp)
    · obtain ⟨L₁, -, h⟩ := Exec.bind_eq_ok.mp h
      exact List.forall_mem_cons.mpr ⟨⟨a, ha⟩, ih h⟩

theorem finalizeTxs_ne_outOfFuel (C : Crates) (L : Ledger UserId) (txs : List Transaction) :
    finalizeTxs C profile L txs ≠ Exec.outOfFuel :=
  Exec.foldlM_ne_outOfFuel txs _ fun _ _ =>
    Exec.bind_ne_outOfFuel (applyTx_ne_outOfFuel _ _) fun _ _ => Exec.ok_ne_outOfFuel _

end Profiles

/-! ## Far from overflow

Balances that are small against the amounts that move are exact in both builds. -/

/-- The absolute amounts of the transactions, together. -/
def volume (txs : List Transaction) : ℤ := (txs.map fun tx => |tx.amount|).sum

@[simp] theorem volume_nil : volume [] = 0 := rfl

@[simp] theorem volume_cons (tx : Transaction) (txs : List Transaction) :
    volume (tx :: txs) = |tx.amount| + volume txs := by simp [volume]

theorem volume_nonneg (txs : List Transaction) : 0 ≤ volume txs := by
  induction txs with
  | nil => exact Int.le_refl 0
  | cons tx txs ih =>
    rw [volume_cons]
    exact add_nonneg (abs_nonneg _) ih

theorem volume_append (txs txs' : List Transaction) :
    volume (txs ++ txs') = volume txs + volume txs' := by simp [volume]

theorem inI64_of_abs_le {v B : ℤ} (hv : |v| ≤ B) (hB : B < 2 ^ 63) : InI64 v := by
  have h₁ := neg_abs_le v
  have h₂ := le_abs_self v
  constructor <;> omega

section Exact
variable {profile : Profile} {L : Ledger UserId} {B : ℤ}

theorem addBalance_of_within (h : L.Within B) (u : UserId) (a : ℤ) (hB : B + |a| < 2 ^ 63) :
    addBalance profile L u a = .ok (L.credit u a) := by
  have hu := h.credit u a u
  rw [Ledger.balance_credit, if_pos rfl] at hu
  rw [addBalance, i64_of_inI64 _ (inI64_of_abs_le hu hB), Exec.ok_bind]
  rfl

theorem moveAmount_of_within (h : L.Within B) (tx : Transaction) (hB : B + |tx.amount| < 2 ^ 63) :
    moveAmount profile L tx tx.amount = .ok (L.transfer tx.transfer) := by
  have hsub := h.credit tx.sender (-tx.amount) tx.sender
  rw [Ledger.balance_credit, if_pos rfl, abs_neg] at hsub
  have hadd := h.transfer tx.transfer tx.receiver
  have htransfer : (L.transfer tx.transfer).balance tx.receiver =
      (L.credit tx.sender (-tx.amount)).balance tx.receiver + tx.amount := by
    rw [Ledger.transfer, Ledger.balance_credit]
    exact congrArg _ (if_pos rfl)
  rw [htransfer] at hadd
  rw [moveAmount, subBalance, sub_eq_add_neg, i64_of_inI64 _ (inI64_of_abs_le hsub hB),
    Exec.ok_bind, Exec.ok_bind, ← Ledger.credit, addBalance,
    i64_of_inI64 _ (inI64_of_abs_le hadd hB), Exec.ok_bind]
  rfl

theorem foldlM_applyTx_of_within {txs : List Transaction} (h : L.Within B)
    (hparse : ∀ tx ∈ txs, tx.Parses) (hB : B + volume txs < 2 ^ 63) :
    txs.foldlM (applyTx profile) L =
      .ok ((txs.map Transaction.transfer).foldl Ledger.transfer L) := by
  induction txs generalizing L B with
  | nil => rfl
  | cons tx txs ih =>
    have hnonneg := volume_nonneg txs
    rw [volume_cons] at hB
    rw [List.foldlM_cons, applyTx, (hparse tx (by simp)).amount_eq, Exec.ok_bind,
      moveAmount_of_within h tx (by omega), Exec.ok_bind,
      ih (h.transfer tx.transfer) (fun tx' htx' => hparse tx' (by simp [htx'])) ?_]
    · rfl
    · change B + |tx.amount| + volume txs < 2 ^ 63
      omega

theorem checkTxs_of_within {txs : List Transaction} (h : L.Within B)
    (hparse : ∀ tx ∈ txs, tx.Parses) (hfund : Funded L.balance (txs.map Transaction.transfer))
    (hB : B + volume txs < 2 ^ 63) :
    checkTxs profile L txs =
      .ok (some ((txs.map Transaction.transfer).foldl Ledger.transfer L)) := by
  induction txs generalizing L B with
  | nil => rfl
  | cons tx txs ih =>
    have hnonneg := volume_nonneg txs
    rw [volume_cons] at hB
    obtain ⟨hle, hfund⟩ := hfund
    have hle : tx.amount ≤ L.balance tx.sender := hle
    rw [checkTxs, (hparse tx (by simp)).amount_eq, Exec.ok_bind, if_neg (by omega),
      moveAmount_of_within h tx (by omega), Exec.ok_bind,
      ih (h.transfer tx.transfer) (fun tx' htx' => hparse tx' (by simp [htx'])) ?_ ?_]
    · rfl
    · exact hfund.mono fun t _ => (Ledger.balance_transfer L tx.transfer t.sender).ge
    · change B + |tx.amount| + volume txs < 2 ^ 63
      omega

theorem finalizeTxs_of_within (C : Crates) {txs : List Transaction} (h : L.Within B)
    (hparse : ∀ tx ∈ txs, tx.Parses) (hB : B + volume txs < 2 ^ 63) :
    finalizeTxs C profile L txs =
      .ok ((txs.map Transaction.transfer).foldl Ledger.transfer L,
        (txs.map fun tx => tx.genHash C).toFinset) := by
  suffices hgen : ∀ (txs : List Transaction) (L : Ledger UserId) (B : ℤ) (ids : Finset TxId),
      L.Within B → (∀ tx ∈ txs, tx.Parses) → B + volume txs < 2 ^ 63 →
      txs.foldlM (fun (s : Ledger UserId × Finset TxId) tx =>
        applyTx profile s.1 tx >>= fun balances => .ok (balances, insert (tx.genHash C) s.2)) (L, ids)
        = .ok ((txs.map Transaction.transfer).foldl Ledger.transfer L,
          ids ∪ (txs.map fun tx => tx.genHash C).toFinset) by
    rw [finalizeTxs, hgen txs L B ∅ h hparse hB, Finset.empty_union]
  intro txs
  induction txs with
  | nil => simp
  | cons tx txs ih =>
    intro L B ids h hparse hB
    have hnonneg := volume_nonneg txs
    rw [volume_cons] at hB
    rw [List.foldlM_cons, applyTx, (hparse tx (by simp)).amount_eq, Exec.ok_bind,
      moveAmount_of_within h tx (by omega), Exec.ok_bind, Exec.ok_bind,
      ih _ _ _ (h.transfer tx.transfer) (fun tx' htx' => hparse tx' (by simp [htx'])) ?_]
    · rw [List.map_cons, List.foldl_cons, List.map_cons, List.toFinset_cons, Finset.insert_union,
        Finset.union_insert]
    · change B + |tx.amount| + volume txs < 2 ^ 63
      omega

end Exact

end BlockTree

end NakamotoNode.Chain
