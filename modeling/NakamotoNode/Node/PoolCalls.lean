import NakamotoNode.Node.Puzzle

/-! # The pool over its calls

Any calls of `add_tx`, `del_tx` and `remove_txs_from_finalized_blocks` from `TxPool::new()`. The pool
offers what it has accepted, in that order (`filterTx_safe`). Three things do not hold of every run:
the map keeps the transactions of finalized blocks (`pool_wellFormed_iff`), an id that the pool does not
have is not deleted for good (`removal_permanent_iff`), and a limit of 0 is no limit
(`filterTx_count_iff`). -/

namespace NakamotoNode.Node
open Foundations Foundations.RustStd Chain
set_option autoImplicit false

/-- A call, and what `add_tx` returned. -/
inductive PoolCall where
  | addTx (tx : Transaction) (added : Bool)
  | delTx (txId : TxId)
  | removeTxs (finalizedBlocks : List BlockNode)

/-- A call that returns. -/
inductive PoolStep (C : Crates) : TxPool → PoolCall → TxPool → Prop
  | addTx {P P' : TxPool} {tx : Transaction} {added : Bool} (h : P.addTx C tx = .ok (added, P')) :
      PoolStep C P (.addTx tx added) P'
  | delTx {P : TxPool} (txId : TxId) : PoolStep C P (.delTx txId) (P.delTx txId)
  | removeTxs {P : TxPool} (finalizedBlocks : List BlockNode) :
      PoolStep C P (.removeTxs finalizedBlocks) (P.removeTxsFromFinalizedBlocks C finalizedBlocks)

/-- The transaction that the call has put into the pool. -/
def PoolCall.accepted : PoolCall → Option Transaction
  | .addTx tx true => some tx
  | _ => none

/-- The transactions put into the pool, in that order. -/
def accepted (calls : List PoolCall) : List Transaction := calls.filterMap PoolCall.accepted

theorem accepted_snoc (calls : List PoolCall) (call : PoolCall) :
    accepted (calls ++ [call]) = accepted calls ++ call.accepted.toList := by
  rw [accepted, List.filterMap_append]
  cases h : call.accepted <;> simp [accepted, h]

theorem mem_accepted {calls : List PoolCall} {tx : Transaction} :
    tx ∈ accepted calls ↔ .addTx tx true ∈ calls := by
  rw [accepted, List.mem_filterMap]
  constructor
  · rintro ⟨call, hcall, h⟩
    match call, h with
    | .addTx tx' true, h =>
      obtain rfl := Option.some.inj h
      exact hcall
  · exact fun h => ⟨_, h, rfl⟩

namespace TxPool
variable {C : Crates} {P P' Q : TxPool} {tx : Transaction} {calls : List PoolCall}
  {call : PoolCall}

/-- The ids that are left are those of the pool before, with what the map has under them. -/
theorem txs_sublist (hids : P'.poolTxIds.Sublist P.poolTxIds)
    (hmap : ∀ id ∈ P'.poolTxIds, P'.poolTxMap.lookup id = P.poolTxMap.lookup id) :
    P'.txs.Sublist P.txs := by
  have heq : P'.txs = P'.poolTxIds.filterMap P.poolTxMap.lookup := List.filterMap_congr hmap
  rw [heq]
  exact hids.filterMap _

theorem removeTxs_sublist (txs : List Transaction) :
    ∀ P : TxPool, (txs.foldl (removeTx C) P).poolTxIds.Sublist P.poolTxIds := by
  induction txs with
  | nil => exact fun P => .refl _
  | cons tx txs ih => exact fun P => (ih _).trans List.filter_sublist

theorem removeTxsFromFinalizedBlocks_sublist (blocks : List BlockNode) : ∀ P : TxPool,
    (P.removeTxsFromFinalizedBlocks C blocks).poolTxIds.Sublist P.poolTxIds := by
  induction blocks with
  | nil => exact fun P => .refl _
  | cons b blocks ih => exact fun P => (ih _).trans (removeTxs_sublist b.txs P)

/-! ## What holds after any calls -/

/-- The pool after the calls. -/
structure Records (C : Crates) (calls : List PoolCall) (P : TxPool) : Prop where
  inv : Inv C P
  nodup : P.poolTxIds.Nodup
  length_le : P.poolTxIds.length ≤ maxTxPool
  txs : P.txs.Sublist (accepted calls)

theorem records_new : Records C [] new where
  inv := inv_new C
  nodup := List.nodup_nil
  length_le := Nat.zero_le _
  txs := .refl _

namespace Records

/-- A call that only takes ids away. -/
theorem shrink (h : Records C calls P) (hinv : Inv C P') (hnone : call.accepted = none)
    (hids : P'.poolTxIds.Sublist P.poolTxIds)
    (hmap : ∀ id ∈ P'.poolTxIds, P'.poolTxMap.lookup id = P.poolTxMap.lookup id) :
    Records C (calls ++ [call]) P' where
  inv := hinv
  nodup := h.nodup.sublist hids
  length_le := hids.length_le.trans h.length_le
  txs := by
    rw [accepted_snoc, hnone, Option.toList_none, List.append_nil]
    exact (txs_sublist hids hmap).trans h.txs

theorem addTx {added : Bool} (h : Records C calls P) (hadd : P.addTx C tx = .ok (added, P')) :
    Records C (calls ++ [.addTx tx added]) P' := by
  have hinv := h.inv.addTx hadd
  rcases addTx_cases hadd with ⟨rfl, rfl⟩ | ⟨rfl, hpool, -, hsize, -, rfl⟩
  · exact h.shrink hinv rfl (.refl _) fun _ _ => rfl
  · have hnew : tx.genHash C ∉ P.poolTxIds := fun hid => hpool (h.inv.mapped _ hid)
    refine ⟨hinv, ?_, ?_, ?_⟩
    · rw [← List.concat_eq_append]
      exact h.nodup.concat hnew
    · rw [List.length_append, List.length_singleton]
      exact hsize
    · have hold : P.poolTxIds.filterMap (P.poolTxMap.insert (tx.genHash C) tx).lookup = P.txs :=
        List.filterMap_congr fun id hid => AList.lookup_insert_ne (ne_of_mem_of_not_mem hid hnew)
      rw [accepted_snoc, TxPool.txs, List.filterMap_append, hold]
      refine h.txs.append ?_
      simp [PoolCall.accepted]

theorem delTx (h : Records C calls P) (txId : TxId) :
    Records C (calls ++ [.delTx txId]) (P.delTx txId) := by
  have hinv := h.inv.delTx txId
  by_cases hmem : txId ∈ P.poolTxMap
  · rw [delTx_of_mem hmem] at hinv ⊢
    refine h.shrink hinv rfl List.filter_sublist fun id hid => ?_
    exact AList.lookup_erase_ne (of_decide_eq_true (List.mem_filter.mp hid).2)
  · rw [delTx_of_notMem hmem] at hinv ⊢
    exact h.shrink hinv rfl (.refl _) fun _ _ => rfl

theorem removeTxs (h : Records C calls P) (blocks : List BlockNode) :
    Records C (calls ++ [.removeTxs blocks]) (P.removeTxsFromFinalizedBlocks C blocks) := by
  refine h.shrink (h.inv.remove blocks) rfl (removeTxsFromFinalizedBlocks_sublist blocks P) ?_
  intro id _
  rw [(removeTxsFromFinalizedBlocks_spec (C := C) blocks P).1]

theorem step (h : Records C calls P) (hstep : PoolStep C P call P') :
    Records C (calls ++ [call]) P' := by
  cases hstep with
  | addTx hadd => exact h.addTx hadd
  | delTx txId => exact h.delTx txId
  | removeTxs blocks => exact h.removeTxs blocks

end Records

theorem records_of_run (hrun : Run (PoolStep C) new calls P) : Records C calls P :=
  hrun.invariant_labels (I := Records C) (fun _ _ _ _ h hstep => h.step hstep) records_new

/-! ## Selection -/

theorem Records.txs_nodup (h : Records C calls P) : P.txs.Nodup := by
  refine List.Nodup.filterMap (fun id id' tx hid hid' => ?_) h.nodup
  rw [← (h.inv.keyed id tx hid).1, ← (h.inv.keyed id' tx hid').1]

/-- After any calls of the pool, `filter_tx` returns, for any count and any exclusion list: a list
without duplicates, in the order in which `add_tx` has accepted its transactions, each with a good
signature, none excluded and none removed. -/
theorem filterTx_safe (hrun : Run (PoolStep C) new calls P) (maxCount : ℕ)
    (excludingTxs : List Transaction) :
    ∃ r, P.filterTx maxCount excludingTxs = some r ∧ r.Nodup ∧ r.Sublist (accepted calls) ∧
      ∀ tx ∈ r, .addTx tx true ∈ calls ∧ tx.verifySig C = .ok true ∧ tx ∉ excludingTxs ∧
        tx.genHash C ∉ P.removedTxIds := by
  have h := records_of_run hrun
  have hr := filterTx_eq h.inv maxCount excludingTxs
  have hsub := (filterTx_sublist h.inv hr).trans List.filter_sublist
  refine ⟨_, hr, h.txs_nodup.sublist hsub, hsub.trans h.txs, fun tx htx => ?_⟩
  obtain ⟨hnot, hid, hsig⟩ := mem_filterTx h.inv hr htx
  exact ⟨mem_accepted.mp ((hsub.trans h.txs).subset htx), hsig, hnot, h.inv.kept _ hid⟩

theorem run_loan : Run (PoolStep walletCrates) new [.addTx loan.1 true] (poolWith loan) :=
  Run.single (.addTx (addTx_poolWith payable_loan.signed genHash_loan))

theorem ids_loan_spend : ([loan, spend].map Prod.snd).Nodup := by decide +kernel

theorem run_loan_spend : Run (PoolStep walletCrates) new
    [.addTx loan.1 true, .addTx spend.1 true] (poolOf [loan, spend]) := by
  have hnew : spend.2 ∉ [loan].map Prod.snd := by decide +kernel
  exact run_loan.snoc (.addTx (addTx_poolOf (by simp [wallet]) genHash_spend hnew (by decide)))

theorem filterTx_safe_spend : (poolOf [loan, spend]).filterTx 1 [loan.1] = some [spend.1] ∧
    [spend.1].Sublist [loan.1, spend.1] ∧ spend.1.verifySig walletCrates = .ok true ∧
    spend.2 ∉ (poolOf [loan, spend]).removedTxIds := by
  have hr : (poolOf [loan, spend]).filterTx 1 [loan.1] = some [spend.1] := by
    rw [filterTx_poolOf ids_loan_spend]
    decide +kernel
  obtain ⟨r, hr', -, hsub, hall⟩ := filterTx_safe run_loan_spend 1 [loan.1]
  obtain rfl := Option.some.inj (hr.symm.trans hr')
  obtain ⟨-, hsig, -, hkept⟩ := hall spend.1 List.mem_cons_self
  rw [genHash_spend] at hkept
  exact ⟨hr, hsub, hsig, hkept⟩

/-- After any calls of the pool, for any exclusion list: `filter_tx` returns the first `max_count` of the
transactions that are not excluded, and all if they are fewer, exactly when `max_count` is not 0 or there
are none. -/
theorem filterTx_count_iff (hrun : Run (PoolStep C) new calls P) (maxCount : ℕ)
    (excludingTxs : List Transaction) :
    P.filterTx maxCount excludingTxs = some ((P.eligible excludingTxs).take maxCount) ↔
      0 < maxCount ∨ P.eligible excludingTxs = [] := by
  rw [filterTx_eq (records_of_run hrun).inv, Option.some_inj]
  by_cases hpos : 0 < maxCount
  · rw [if_pos hpos]
    exact iff_of_true rfl (.inl hpos)
  · obtain rfl : maxCount = 0 := by omega
    rw [if_neg hpos, List.take_zero]
    exact (or_iff_right hpos).symm

theorem filterTx_count_loan_spend : (poolOf [loan, spend]).filterTx 1 [] =
    some (((poolOf [loan, spend]).eligible []).take 1) ∧
    (poolOf [loan, spend]).eligible [] = [loan.1, spend.1] := by
  have heligible : (poolOf [loan, spend]).eligible [] = [loan.1, spend.1] := by
    rw [eligible, txs_poolOf ids_loan_spend]
    rfl
  exact ⟨(filterTx_count_iff run_loan_spend 1 []).mpr (.inl Nat.one_pos), heligible⟩

/-- Asked for no transaction, the pool returns all it has. -/
theorem none_asked : Run (PoolStep walletCrates) new [.addTx loan.1 true] (poolWith loan) ∧
    (poolWith loan).filterTx 0 [] = some [loan.1] ∧
    (poolWith loan).filterTx 0 [] ≠ some (((poolWith loan).eligible []).take 0) := by
  have heligible : (poolWith loan).eligible [] = [loan.1] := by
    have hids : ([loan].map Prod.snd).Nodup := List.nodup_singleton loan.2
    rw [eligible, poolWith, txs_poolOf hids]
    rfl
  have hall : (poolWith loan).filterTx 0 [] = some [loan.1] := by
    rw [filterTx_eq (records_of_run run_loan).inv, heligible]
    rfl
  refine ⟨run_loan, hall, ?_⟩
  rw [hall, List.take_zero]
  simp

/-! ## The collections of the pool -/

/-- The collections of the pool are in step. -/
structure WellFormed (C : Crates) (P : TxPool) : Prop where
  nodup : P.poolTxIds.Nodup
  keys : ∀ id, id ∈ P.poolTxMap ↔ id ∈ P.poolTxIds
  keyed : ∀ id tx, P.poolTxMap.lookup id = some tx → tx.genHash C = id
  kept : ∀ id ∈ P.poolTxIds, id ∉ P.removedTxIds
  ids_le : P.poolTxIds.length ≤ maxTxPool
  map_le : P.poolTxMap.keys.length ≤ maxTxPool

/-- The call does not finalize a transaction that is in the map. -/
def Spares (C : Crates) (P : TxPool) : PoolCall → Prop
  | .removeTxs finalizedBlocks => ∀ id, HasTx C finalizedBlocks id → id ∉ P.poolTxMap
  | _ => True

theorem Records.wellFormed_iff (h : Records C calls P) :
    WellFormed C P ↔ ∀ id ∈ P.poolTxMap, id ∈ P.poolTxIds := by
  refine ⟨fun hP id => (hP.keys id).mp, fun hkeys => ?_⟩
  have hiff : ∀ id, id ∈ P.poolTxMap ↔ id ∈ P.poolTxIds := fun id => ⟨hkeys id, h.inv.mapped id⟩
  have hperm : P.poolTxMap.keys.Perm P.poolTxIds :=
    (List.perm_ext_iff_of_nodup P.poolTxMap.keys_nodup h.nodup).mpr hiff
  exact ⟨h.nodup, hiff, fun id tx hid => (h.inv.keyed id tx hid).1, h.inv.kept, h.length_le,
    hperm.length_eq.trans_le h.length_le⟩

/-- One call keeps the collections in step exactly when no transaction of the map is finalized. -/
theorem Records.step_wellFormed_iff (h : Records C calls P) (hP : WellFormed C P)
    (hstep : PoolStep C P call P') : WellFormed C P' ↔ Spares C P call := by
  rw [(h.step hstep).wellFormed_iff]
  cases hstep with
  | @addTx _ tx added hadd =>
    refine iff_of_true (fun id hid => ?_) trivial
    rcases addTx_cases hadd with ⟨-, rfl⟩ | ⟨-, -, -, -, -, rfl⟩
    · exact (hP.keys id).mp hid
    · rw [AList.mem_insert] at hid
      rcases hid with rfl | hid
      · exact List.mem_append_right _ (List.mem_singleton_self _)
      · exact List.mem_append_left _ ((hP.keys id).mp hid)
  | delTx txId =>
    refine iff_of_true (fun id hid => ?_) trivial
    by_cases hmem : txId ∈ P.poolTxMap
    · rw [delTx_of_mem hmem] at hid ⊢
      obtain ⟨hne, hid⟩ := AList.mem_erase.mp hid
      exact List.mem_filter.mpr ⟨(hP.keys id).mp hid, decide_eq_true hne⟩
    · rw [delTx_of_notMem hmem] at hid ⊢
      exact (hP.keys id).mp hid
  | removeTxs blocks =>
    obtain ⟨hmap, hids, -⟩ := removeTxsFromFinalizedBlocks_spec (C := C) blocks P
    rw [hmap]
    refine ⟨fun hleft id hblocks hid => ?_, fun hspares id hid => ?_⟩
    · exact ((hids id).mp (hleft id hid)).2 hblocks
    · exact (hids id).mpr ⟨(hP.keys id).mp hid, fun hblocks => hspares id hblocks hid⟩

theorem wellFormed_new : WellFormed C new :=
  records_new.wellFormed_iff.mpr fun _ h => absurd h (by simp [new])

/-- In every run in which no call finalizes a transaction of the map, the collections of the pool are
in step and of no more than `MAX_TX_POOL` entries; and the first call that finalizes one ends that. -/
theorem pool_wellFormed_iff (hrun : Run (Guarded (PoolStep C) (Spares C)) new calls P) :
    WellFormed C P ∧
      ∀ call P', PoolStep C P call P' → (WellFormed C P' ↔ Spares C P call) := by
  have hrecords : ∀ {calls : List PoolCall} {P : TxPool},
      Run (Guarded (PoolStep C) (Spares C)) new calls P → Records C calls P :=
    fun hrun => records_of_run (hrun.mono fun _ _ _ h => h.1)
  have hP : WellFormed C P := by
    induction hrun with
    | nil => exact wellFormed_new
    | snoc hrun hstep ih => exact ((hrecords hrun).step_wellFormed_iff ih hstep.1).mpr hstep.2
  exact ⟨hP, fun call P' hstep => (hrecords hrun).step_wellFormed_iff hP hstep⟩

theorem hasTx_minedBlock {id : TxId} :
    HasTx walletCrates [minedBlock 'a' "0" loan] id ↔ id = loan.2 := by
  have htxs : (minedBlock 'a' "0" loan).txs = [loan.1] := rfl
  simp [HasTx, htxs, genHash_loan, eq_comm]

theorem pool_wellFormed_loan : WellFormed walletCrates (poolWith loan) ∧
    ¬ WellFormed walletCrates
      ((poolWith loan).removeTxsFromFinalizedBlocks walletCrates [minedBlock 'a' "0" loan]) := by
  have hrun : Run (Guarded (PoolStep walletCrates) (Spares walletCrates)) new _ (poolWith loan) :=
    Run.single ⟨.addTx (addTx_poolWith payable_loan.signed genHash_loan), trivial⟩
  obtain ⟨hP, hnext⟩ := pool_wellFormed_iff hrun
  refine ⟨hP, fun hremoved => ?_⟩
  have hspares := (hnext _ _ (.removeTxs [minedBlock 'a' "0" loan])).mp hremoved
  exact hspares loan.2 (hasTx_minedBlock.mpr rfl) (mem_poolWith loan)

/-- The loan is added and finalized: it stays in the map. -/
theorem finalized_tx_in_map : ∃ P,
    Run (PoolStep walletCrates) new
      [.addTx loan.1 true, .removeTxs [minedBlock 'a' "0" loan]] P ∧
    loan.2 ∈ P.poolTxMap ∧ loan.2 ∉ P.poolTxIds ∧ ¬ WellFormed walletCrates P := by
  obtain ⟨hmap, hids, -⟩ := removeTxsFromFinalizedBlocks_spec (C := walletCrates)
    [minedBlock 'a' "0" loan] (poolWith loan)
  have hmem : loan.2 ∈ ((poolWith loan).removeTxsFromFinalizedBlocks walletCrates
      [minedBlock 'a' "0" loan]).poolTxMap := by
    rw [hmap]
    exact mem_poolWith loan
  have hnot : loan.2 ∉ ((poolWith loan).removeTxsFromFinalizedBlocks walletCrates
      [minedBlock 'a' "0" loan]).poolTxIds := by
    rw [hids, not_and, not_not]
    exact fun _ => hasTx_minedBlock.mpr rfl
  exact ⟨_, run_loan.snoc (.removeTxs _), hmem, hnot, fun hP => hnot ((hP.keys _).mp hmem)⟩

/-! ## Removal for good -/

/-- The call deletes the transaction, or finalizes a block that contains it. -/
inductive Removes (C : Crates) (tx : Transaction) : PoolCall → Prop
  | delTx : Removes C tx (.delTx (tx.genHash C))
  | removeTxs {finalizedBlocks : List BlockNode} {b : BlockNode} (hb : b ∈ finalizedBlocks)
      (htx : tx ∈ b.txs) : Removes C tx (.removeTxs finalizedBlocks)

/-- Whatever is called from now on, the transaction is neither added nor selected. -/
def Gone (C : Crates) (tx : Transaction) (P : TxPool) : Prop :=
  ∀ later Q, Run (PoolStep C) P later Q →
    (∀ Q', Q.addTx C tx ≠ .ok (true, Q')) ∧
    ∀ maxCount excludingTxs r, Q.filterTx maxCount excludingTxs = some r → tx ∉ r

/-- A transaction that is deleted is in the map, or was removed before, or has no good signature. -/
def Buried (C : Crates) (tx : Transaction) (P : TxPool) : PoolCall → Prop
  | .delTx _ => tx.genHash C ∈ P.poolTxMap ∨ tx.genHash C ∈ P.removedTxIds ∨
      tx.verifySig C ≠ .ok true
  | _ => True

theorem removed_mono (hstep : PoolStep C P call P') : P.removedTxIds ⊆ P'.removedTxIds := by
  cases hstep with
  | addTx hadd => rw [(addTx_last hadd).2]
  | delTx txId =>
    by_cases hmem : txId ∈ P.poolTxMap
    · rw [delTx_of_mem hmem]
      exact Finset.subset_insert _ _
    · rw [delTx_of_notMem hmem]
  | removeTxs blocks =>
    intro id hid
    rw [(removeTxsFromFinalizedBlocks_spec (C := C) blocks P).2.2]
    exact .inl hid

theorem removed_of_run {later : List PoolCall} (hrun : Run (PoolStep C) P later Q) :
    P.removedTxIds ⊆ Q.removedTxIds :=
  hrun.invariant (I := fun Q => P.removedTxIds ⊆ Q.removedTxIds)
    (fun _ _ _ hsub hstep => hsub.trans (removed_mono hstep)) (Finset.Subset.refl _)

theorem gone_of_barred (hrun : Run (PoolStep C) new calls P)
    (hbarred : ∀ later Q, Run (PoolStep C) P later Q →
      tx.genHash C ∈ Q.removedTxIds ∨ tx.verifySig C ≠ .ok true) : Gone C tx P := by
  intro later Q hlater
  have hQ := (records_of_run (hrun.trans hlater)).inv
  have hbar := hbarred later Q hlater
  refine ⟨fun Q' hadd => ?_, fun maxCount excludingTxs r hr htx => ?_⟩
  · rcases addTx_cases hadd with ⟨hfalse, -⟩ | ⟨-, -, hnot, -, hgood, -⟩
    · exact absurd hfalse (by simp)
    · exact hbar.elim hnot fun hsig => hsig hgood
  · obtain ⟨-, hid, hgood⟩ := mem_filterTx hQ hr htx
    exact hbar.elim (hQ.kept _ hid) fun hsig => hsig hgood

theorem gone_of_removed (hrun : Run (PoolStep C) new calls P)
    (hmem : tx.genHash C ∈ P.removedTxIds) : Gone C tx P :=
  gone_of_barred hrun fun _ _ hlater => .inl (removed_of_run hlater hmem)

theorem gone_of_badSig (hrun : Run (PoolStep C) new calls P) (hsig : tx.verifySig C ≠ .ok true) :
    Gone C tx P :=
  gone_of_barred hrun fun _ _ _ => .inr hsig

theorem addTx_of_room (hmap : tx.genHash C ∉ P.poolTxMap) (hremoved : tx.genHash C ∉ P.removedTxIds)
    (hroom : P.poolTxIds.length < maxTxPool) (hsig : tx.verifySig C = .ok true) :
    ∃ Q, P.addTx C tx = .ok (true, Q) := by
  rw [TxPool.addTx, hsig, Exec.ok_bind]
  exact ⟨_, if_pos (by simp [hmap, hremoved, hroom])⟩

/-- A signed transaction that the pool does not know can be added later: a full pool is first made
to give one up. -/
theorem Records.not_gone (h : Records C calls P) (hmap : tx.genHash C ∉ P.poolTxMap)
    (hremoved : tx.genHash C ∉ P.removedTxIds) (hsig : tx.verifySig C = .ok true) :
    ¬ Gone C tx P := by
  intro hgone
  by_cases hroom : P.poolTxIds.length < maxTxPool
  · obtain ⟨Q, hadd⟩ := addTx_of_room hmap hremoved hroom hsig
    exact (hgone [] P (.nil P)).1 Q hadd
  · obtain ⟨id, ids, hids⟩ := List.exists_cons_of_length_pos
      (show 0 < P.poolTxIds.length by unfold maxTxPool at hroom; omega)
    have hid : id ∈ P.poolTxMap := h.inv.mapped id (by rw [hids]; exact List.mem_cons_self)
    have hne : tx.genHash C ≠ id := fun he => hmap (he ▸ hid)
    have hdel := delTx_of_mem hid
    have hrun : Run (PoolStep C) P [.delTx id] (P.delTx id) := Run.single (.delTx id)
    obtain ⟨Q, hadd⟩ : ∃ Q, (P.delTx id).addTx C tx = .ok (true, Q) := by
      apply addTx_of_room _ _ _ hsig
      · rw [hdel, AList.mem_erase]
        exact fun hmem => hmap hmem.2
      · rw [hdel, Finset.mem_insert, not_or]
        exact ⟨hne, hremoved⟩
      · rw [hdel, hids]
        have hle := h.length_le
        rw [hids, List.length_cons] at hle
        rw [List.filter_cons_of_neg (by simp)]
        exact (List.length_filter_le _ ids).trans_lt hle
    exact (hgone _ _ hrun).1 Q hadd

/-- Of every reachable pool: a call that deletes a transaction, or finalizes a block that contains it,
removes it for good exactly when it is not a deletion of a signed transaction that the pool neither has
nor has removed before. -/
theorem removal_permanent_iff (hrun : Run (PoolStep C) new calls P) (hremoves : Removes C tx call)
    (hstep : PoolStep C P call P') : Gone C tx P' ↔ Buried C tx P call := by
  have hrun' := hrun.snoc hstep
  cases hremoves with
  | delTx =>
    cases hstep
    by_cases hmem : tx.genHash C ∈ P.poolTxMap
    · refine iff_of_true (gone_of_removed hrun' ?_) (.inl hmem)
      rw [delTx_of_mem hmem]
      exact Finset.mem_insert_self _ _
    rw [delTx_of_notMem hmem] at hrun' ⊢
    constructor
    · intro hgone
      by_contra hburied
      unfold Buried at hburied
      push Not at hburied
      exact (records_of_run hrun).not_gone hmem hburied.2.1 hburied.2.2 hgone
    · rintro (hmem' | hremoved | hsig)
      · exact absurd hmem' hmem
      · exact gone_of_removed hrun hremoved
      · exact gone_of_badSig hrun hsig
  | @removeTxs blocks b hb htx =>
    cases hstep
    refine iff_of_true (gone_of_removed hrun' ?_) trivial
    rw [(removeTxsFromFinalizedBlocks_spec (C := C) blocks P).2.2]
    exact .inr ⟨b, hb, tx, htx, rfl⟩

theorem removes_loan : Removes walletCrates loan.1 (.delTx loan.2) := by
  rw [← genHash_loan]
  exact .delTx

theorem removal_permanent_loan : Gone walletCrates loan.1 ((poolWith loan).delTx loan.2) := by
  apply (removal_permanent_iff run_loan removes_loan (.delTx loan.2)).mpr
  refine .inl ?_
  rw [genHash_loan]
  exact mem_poolWith loan

/-- A new pool is asked to delete the loan, and then takes it. -/
theorem deleted_tx_added : Run (PoolStep walletCrates) new [.delTx loan.2] new ∧
    new.addTx walletCrates loan.1 = .ok (true, poolWith loan) ∧
    ¬ ∀ (calls : List PoolCall) (call : PoolCall) (tx : Transaction) (P P' : TxPool),
      Run (PoolStep walletCrates) new calls P → Removes walletCrates tx call →
      PoolStep walletCrates P call P' → Gone walletCrates tx P' := by
  have hdel : PoolStep walletCrates new (.delTx loan.2) new := .delTx loan.2
  have hadd := addTx_poolWith payable_loan.signed genHash_loan
  refine ⟨Run.single hdel, hadd, fun hall => ?_⟩
  exact (hall _ _ _ _ _ (.nil new) removes_loan hdel [] new (.nil new)).1 _ hadd

end TxPool
end NakamotoNode.Node
