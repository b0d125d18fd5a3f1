import NakamotoNode.Chain.BlockTree

/-! # The transaction pool

`TxPool` of `lib_tx_pool/src/pool.rs` and its operations. The pool holds each of its ids with a
signed transaction of that id, and none that was removed (`Inv`). -/

namespace NakamotoNode.Node
open Foundations Foundations.RustStd Chain
set_option autoImplicit false

/-- `MAX_TX_POOL` -/
def maxTxPool : ℕ := 10000

structure TxPool where
  poolTxIds : List TxId
  poolTxMap : AList fun _ : TxId => Transaction
  removedTxIds : Finset TxId
  lastFinalizedBlockId : BlockId

namespace TxPool

/-- `TxPool::new`. -/
def new : TxPool where
  poolTxIds := []
  poolTxMap := ∅
  removedTxIds := ∅
  lastFinalizedBlockId := "0"

section
variable (C : Crates)

def addTx (P : TxPool) (tx : Transaction) : Exec Panic (Bool × TxPool) :=
  let txId := tx.genHash C
  let existInPoolTxId := decide (txId ∈ P.poolTxMap)
  let existInRemovedTxIds := decide (txId ∈ P.removedTxIds)
  let withinPoolSize := decide (P.poolTxIds.length < maxTxPool)
  tx.verifySig C >>= fun validSignature =>
  if !existInPoolTxId && !existInRemovedTxIds && withinPoolSize && validSignature then
    .ok (true, { P with
      poolTxMap := P.poolTxMap.insert txId tx
      poolTxIds := P.poolTxIds ++ [txId] })
  else .ok (false, P)

def delTx (P : TxPool) (txId : TxId) : TxPool :=
  let existInPoolTxId := decide (txId ∈ P.poolTxMap)
  let existInRemovedTxIds := decide (txId ∈ P.removedTxIds)
  if existInPoolTxId then
    { P with
      poolTxMap := P.poolTxMap.erase txId
      poolTxIds := P.poolTxIds.filter (· ≠ txId)
      removedTxIds := if !existInRemovedTxIds then insert txId P.removedTxIds else P.removedTxIds }
  else P

/-- The loop of `filter_tx`; `none` where `pool_tx_map.get(tx_id).unwrap()` panics. -/
def filterFrom (P : TxPool) (maxCount : ℕ) (excludingTxs : List Transaction) :
    List TxId → List Transaction → Option (List Transaction)
  | [], filteredTxs => some filteredTxs
  | txId :: txIds, filteredTxs =>
      (P.poolTxMap.lookup txId).bind fun tx =>
      if tx ∈ excludingTxs then filterFrom P maxCount excludingTxs txIds filteredTxs
      else if (filteredTxs ++ [tx]).length = maxCount then some (filteredTxs ++ [tx])
      else filterFrom P maxCount excludingTxs txIds (filteredTxs ++ [tx])

def filterTx (P : TxPool) (maxCount : ℕ) (excludingTxs : List Transaction) :
    Option (List Transaction) :=
  P.filterFrom maxCount excludingTxs P.poolTxIds []

/-- The inner loop of `remove_txs_from_finalized_blocks`, for one transaction. -/
def removeTx (P : TxPool) (tx : Transaction) : TxPool :=
  { P with
    poolTxIds := P.poolTxIds.filter (· ≠ tx.genHash C)
    removedTxIds := insert (tx.genHash C) P.removedTxIds }

def removeBlock (P : TxPool) (block : BlockNode) : TxPool :=
  { block.txs.foldl (removeTx C) P with lastFinalizedBlockId := block.header.blockId }

def removeTxsFromFinalizedBlocks (P : TxPool) (finalizedBlocks : List BlockNode) : TxPool :=
  finalizedBlocks.foldl (removeBlock C) P

/-! ## The invariant -/

/-- The ids of the pool are in the map, under which is a signed transaction of that id, and they were
not removed. -/
structure Inv (P : TxPool) : Prop where
  mapped : ∀ id ∈ P.poolTxIds, id ∈ P.poolTxMap
  keyed : ∀ id tx, P.poolTxMap.lookup id = some tx →
    tx.genHash C = id ∧ tx.verifySig C = .ok true
  kept : ∀ id ∈ P.poolTxIds, id ∉ P.removedTxIds

end

variable {C : Crates} {P P' : TxPool} {tx : Transaction}

theorem inv_new (C : Crates) : Inv C new :=
  ⟨fun _ h => absurd h (by simp [new]), fun _ _ h => absurd h (by simp [new]),
    fun _ h => absurd h (by simp [new])⟩

theorem addTx_cases {r : Bool} (h : P.addTx C tx = .ok (r, P')) :
    (r = false ∧ P' = P) ∨ (r = true ∧ tx.genHash C ∉ P.poolTxMap ∧
      tx.genHash C ∉ P.removedTxIds ∧ P.poolTxIds.length < maxTxPool ∧
      tx.verifySig C = .ok true ∧
      P' = { P with
        poolTxMap := P.poolTxMap.insert (tx.genHash C) tx
        poolTxIds := P.poolTxIds ++ [tx.genHash C] }) := by
  obtain ⟨valid, hvalid, h⟩ := Exec.bind_eq_ok.mp h
  split at h
  · next hall =>
    obtain ⟨rfl, rfl⟩ := Prod.mk.inj (Except.ok.inj h)
    simp only [Bool.and_eq_true, Bool.not_eq_true', decide_eq_false_iff_not,
      decide_eq_true_eq] at hall
    obtain ⟨⟨⟨hpool, hremoved⟩, hsize⟩, rfl⟩ := hall
    exact .inr ⟨rfl, hpool, hremoved, hsize, hvalid, rfl⟩
  · obtain ⟨rfl, rfl⟩ := Prod.mk.inj (Except.ok.inj h)
    exact .inl ⟨rfl, rfl⟩

theorem addTx_of_verifySig {valid : Bool} (h : tx.verifySig C = .ok valid) :
    ∃ r P', P.addTx C tx = .ok (r, P') := by
  unfold addTx
  rw [h, Exec.ok_bind]
  split <;> exact ⟨_, _, rfl⟩

theorem addTx_last {r : Bool} (h : P.addTx C tx = .ok (r, P')) :
    P'.lastFinalizedBlockId = P.lastFinalizedBlockId ∧ P'.removedTxIds = P.removedTxIds := by
  rcases addTx_cases h with ⟨-, rfl⟩ | ⟨-, -, -, -, -, rfl⟩ <;> exact ⟨rfl, rfl⟩

theorem Inv.addTx (hP : Inv C P) {r : Bool} (h : P.addTx C tx = .ok (r, P')) : Inv C P' := by
  rcases addTx_cases h with ⟨-, rfl⟩ | ⟨-, -, hremoved, -, hsig, rfl⟩
  · exact hP
  constructor
  case mapped =>
    intro id hid
    rw [AList.mem_insert]
    rcases List.mem_append.mp hid with hid | hid
    · exact .inr (hP.mapped id hid)
    · exact .inl (List.mem_singleton.mp hid)
  case keyed =>
    intro id tx' hid
    by_cases he : id = tx.genHash C
    · subst he
      rw [AList.lookup_insert] at hid
      obtain rfl := Option.some.inj hid
      exact ⟨rfl, hsig⟩
    · rw [AList.lookup_insert_ne he] at hid
      exact hP.keyed id tx' hid
  case kept =>
    intro id hid
    rcases List.mem_append.mp hid with hid | hid
    · exact hP.kept id hid
    · rw [List.mem_singleton.mp hid]
      exact hremoved

/-! ## Deletion -/

/-- What the pool forgets it does not take again; what it does not have it leaves as it is. -/
theorem delTx_of_mem {txId : TxId} (h : txId ∈ P.poolTxMap) :
    P.delTx txId = { P with
      poolTxMap := P.poolTxMap.erase txId
      poolTxIds := P.poolTxIds.filter (· ≠ txId)
      removedTxIds := insert txId P.removedTxIds } := by
  by_cases hremoved : txId ∈ P.removedTxIds
  · simp [delTx, h, hremoved]
  · simp [delTx, h, hremoved]

theorem delTx_of_notMem {txId : TxId} (h : txId ∉ P.poolTxMap) : P.delTx txId = P := by
  simp [delTx, h]

theorem Inv.delTx (hP : Inv C P) (txId : TxId) : Inv C (P.delTx txId) := by
  by_cases h : txId ∈ P.poolTxMap
  · rw [delTx_of_mem h]
    constructor
    case mapped =>
      intro id hid
      obtain ⟨hid, hne⟩ := List.mem_filter.mp hid
      exact AList.mem_erase.mpr ⟨of_decide_eq_true hne, hP.mapped id hid⟩
    case keyed =>
      intro id tx hid
      by_cases he : id = txId
      · rw [he, AList.lookup_erase] at hid
        exact absurd hid (by simp)
      · rw [AList.lookup_erase_ne he] at hid
        exact hP.keyed id tx hid
    case kept =>
      intro id hid
      obtain ⟨hid, hne⟩ := List.mem_filter.mp hid
      rw [Finset.mem_insert, not_or]
      exact ⟨of_decide_eq_true hne, hP.kept id hid⟩
  · rw [delTx_of_notMem h]
    exact hP

/-! ## Filtering -/

/-- The transactions of the pool, by the order of their ids. -/
def txs (P : TxPool) : List Transaction := P.poolTxIds.filterMap P.poolTxMap.lookup

/-- Those that are not excluded. -/
def eligible (P : TxPool) (excludingTxs : List Transaction) : List Transaction :=
  P.txs.filter fun tx => tx ∉ excludingTxs

/-- The loop stops when the length comes to `maxCount`, so not at all if it has passed it before. -/
theorem filterFrom_eq {maxCount : ℕ} {excludingTxs : List Transaction} {ids : List TxId}
    (hids : ∀ id ∈ ids, id ∈ P.poolTxMap) (filtered : List Transaction) :
    P.filterFrom maxCount excludingTxs ids filtered = some (filtered ++
      if filtered.length < maxCount then
        ((ids.filterMap P.poolTxMap.lookup).filter fun tx => tx ∉ excludingTxs).take
          (maxCount - filtered.length)
      else (ids.filterMap P.poolTxMap.lookup).filter fun tx => tx ∉ excludingTxs) := by
  induction ids generalizing filtered with
  | nil => simp [filterFrom]
  | cons id ids ih =>
    have hrest := ih fun id' hid' => hids id' (List.mem_cons_of_mem _ hid')
    obtain ⟨tx, htx⟩ := Option.isSome_iff_exists.mp
      (AList.lookup_isSome.mpr (hids id List.mem_cons_self))
    rw [filterFrom, htx, Option.bind_some,
      List.filterMap_cons_some (f := fun id => P.poolTxMap.lookup id) htx]
    by_cases hex : tx ∈ excludingTxs
    · rw [if_pos hex, hrest, List.filter_cons_of_neg (by simpa using hex)]
    rw [if_neg hex, List.filter_cons_of_pos (by simpa using hex), List.length_append,
      List.length_singleton]
    by_cases hlen : filtered.length + 1 = maxCount
    · have hone : maxCount - filtered.length = 1 := by omega
      rw [if_pos hlen, if_pos (by omega), hone, List.take_succ_cons, List.take_zero]
    · rw [if_neg hlen, hrest, List.length_append, List.length_singleton, List.append_assoc]
      by_cases hlt : filtered.length < maxCount
      · have hsucc : maxCount - filtered.length = maxCount - (filtered.length + 1) + 1 := by omega
        rw [if_pos (by omega), if_pos hlt, hsucc, List.take_succ_cons, List.singleton_append]
      · rw [if_neg (by omega), if_neg hlt, List.singleton_append]

theorem filterTx_eq (hP : Inv C P) (maxCount : ℕ) (excludingTxs : List Transaction) :
    P.filterTx maxCount excludingTxs =
      some (if 0 < maxCount then (P.eligible excludingTxs).take maxCount
        else P.eligible excludingTxs) :=
  filterFrom_eq hP.mapped []

theorem filterTx_sublist {maxCount : ℕ} {excludingTxs r : List Transaction} (hP : Inv C P)
    (h : P.filterTx maxCount excludingTxs = some r) : r.Sublist (P.eligible excludingTxs) := by
  rw [filterTx_eq hP] at h
  obtain rfl := Option.some.inj h
  split
  · exact List.take_sublist _ _
  · exact .refl _

theorem mem_filterTx {maxCount : ℕ} {excludingTxs r : List Transaction} (hP : Inv C P)
    (h : P.filterTx maxCount excludingTxs = some r) (htx : tx ∈ r) :
    tx ∉ excludingTxs ∧ tx.genHash C ∈ P.poolTxIds ∧ tx.verifySig C = .ok true := by
  obtain ⟨hmem, hex⟩ := List.mem_filter.mp ((filterTx_sublist hP h).subset htx)
  obtain ⟨id, hid, hlookup⟩ := List.mem_filterMap.mp hmem
  obtain ⟨rfl, hsig⟩ := hP.keyed id tx hlookup
  exact ⟨of_decide_eq_true hex, hid, hsig⟩

/-! ## Removal -/

/-- Some of the blocks has a transaction of this id. -/
def HasTx (C : Crates) (blocks : List BlockNode) (id : TxId) : Prop :=
  ∃ b ∈ blocks, ∃ tx ∈ b.txs, tx.genHash C = id

theorem removeTxs_spec (txs : List Transaction) : ∀ P : TxPool,
    (txs.foldl (removeTx C) P).poolTxMap = P.poolTxMap ∧
    (∀ id, id ∈ (txs.foldl (removeTx C) P).poolTxIds ↔
      id ∈ P.poolTxIds ∧ ¬ ∃ tx ∈ txs, tx.genHash C = id) ∧
    ∀ id, id ∈ (txs.foldl (removeTx C) P).removedTxIds ↔
      id ∈ P.removedTxIds ∨ ∃ tx ∈ txs, tx.genHash C = id := by
  induction txs with
  | nil => exact fun P => ⟨rfl, by simp, by simp⟩
  | cons tx txs ih =>
    intro P
    obtain ⟨hmap, hids, hremoved⟩ := ih (removeTx C P tx)
    rw [List.foldl_cons]
    refine ⟨hmap, fun id => ?_, fun id => ?_⟩
    · rw [hids, removeTx, List.mem_filter, decide_eq_true_iff, List.exists_mem_cons_iff, not_or,
        and_assoc, ne_comm]
    · rw [hremoved, removeTx, Finset.mem_insert, List.exists_mem_cons_iff, or_assoc,
        or_left_comm, eq_comm]

theorem removeTxsFromFinalizedBlocks_spec (blocks : List BlockNode) : ∀ P : TxPool,
    (P.removeTxsFromFinalizedBlocks C blocks).poolTxMap = P.poolTxMap ∧
    (∀ id, id ∈ (P.removeTxsFromFinalizedBlocks C blocks).poolTxIds ↔
      id ∈ P.poolTxIds ∧ ¬ HasTx C blocks id) ∧
    ∀ id, id ∈ (P.removeTxsFromFinalizedBlocks C blocks).removedTxIds ↔
      id ∈ P.removedTxIds ∨ HasTx C blocks id := by
  induction blocks with
  | nil => exact fun P => ⟨rfl, by simp [removeTxsFromFinalizedBlocks, HasTx],
      by simp [removeTxsFromFinalizedBlocks, HasTx]⟩
  | cons b blocks ih =>
    intro P
    obtain ⟨hmap, hids, hremoved⟩ := ih (removeBlock C P b)
    obtain ⟨hmap', hids', hremoved'⟩ := removeTxs_spec (C := C) b.txs P
    have hcons : ∀ id, HasTx C (b :: blocks) id ↔
        (∃ tx ∈ b.txs, tx.genHash C = id) ∨ HasTx C blocks id :=
      fun id => List.exists_mem_cons_iff _ _ _
    refine ⟨hmap.trans hmap', fun id => ?_, fun id => ?_⟩
    · rw [hcons, not_or, ← and_assoc, ← hids' id]
      exact hids id
    · rw [hcons, ← or_assoc, ← hremoved' id]
      exact hremoved id

theorem last_removeTxsFromFinalizedBlocks (blocks : List BlockNode) (b : BlockNode) :
    (P.removeTxsFromFinalizedBlocks C (blocks ++ [b])).lastFinalizedBlockId = b.header.blockId := by
  rw [removeTxsFromFinalizedBlocks, List.foldl_append]
  rfl

theorem Inv.remove (hP : Inv C P) (blocks : List BlockNode) :
    Inv C (P.removeTxsFromFinalizedBlocks C blocks) := by
  obtain ⟨hmap, hids, hremoved⟩ := removeTxsFromFinalizedBlocks_spec (C := C) blocks P
  constructor
  case mapped =>
    intro id hid
    rw [hmap]
    exact hP.mapped id ((hids id).mp hid).1
  case keyed =>
    rw [hmap]
    exact hP.keyed
  case kept =>
    intro id hid
    rw [hids] at hid
    rw [hremoved, not_or]
    exact ⟨hP.kept id hid.1, hid.2⟩

end TxPool
end NakamotoNode.Node
