import NakamotoNode.Chain.Block
import NakamotoNode.Foundations.Ledger
import NakamotoNode.Foundations.Runs
import Mathlib.Data.Finset.Insert
import Mathlib.Data.Finset.Union
import Mathlib.Data.String.Basic

/-! # The block tree

`BlockTree` of `lib_chain/src/block.rs` and its operations, down to `addBlock`. A hash map is a
finite map, and the order in which a `for` loop meets its entries is a parameter (`IterOrder`).
Walks along parent links and the recursion over orphans take a fuel; messages to stdout and stderr
are left out. -/

namespace NakamotoNode.Chain
open Foundations Foundations.RustStd
set_option autoImplicit false

structure BlockTree where
  allBlocks : AList fun _ : BlockId => BlockNode
  childrenMap : AList fun _ : BlockId => List BlockId
  blockDepth : AList fun _ : BlockId => ℕ
  rootId : BlockId
  workingBlockId : BlockId
  orphans : AList fun _ : BlockId => BlockNode
  finalizedBlockId : BlockId
  finalizedBalanceMap : Ledger UserId
  finalizedTxIds : Finset TxId

/-- The orders in which the successive loops of one call meet the entries of the orphan map. -/
structure IterOrder where
  visit : ℕ → List (Sigma fun _ : BlockId => BlockNode) → List (Sigma fun _ : BlockId => BlockNode)
  visit_perm : ∀ k entries, (visit k entries).Perm entries

/-- The orders that are left after the first loop. -/
def IterOrder.next (order : IterOrder) : IterOrder where
  visit := fun k => order.visit (k + 1)
  visit_perm := fun k => order.visit_perm (k + 1)

namespace BlockTree

/-- `BlockTree::new`. -/
def new : Exec Panic BlockTree :=
  let genesisBlock := BlockNode.genesisBlock
  genesisBlock.txs.foldlM (fun (balances : Ledger UserId) tx =>
    extractAmount tx.message >>= fun amount => .ok (balances.insert tx.receiver amount)) ∅
    >>= fun finalizedBalanceMap => .ok
      { allBlocks := AList.insert "0" genesisBlock ∅
        childrenMap := ∅
        blockDepth := AList.insert "0" 0 ∅
        rootId := "0"
        workingBlockId := "0"
        orphans := ∅
        finalizedBlockId := "0"
        finalizedBalanceMap := finalizedBalanceMap
        finalizedTxIds := ∅ }

def getBlock (T : BlockTree) (blockId : BlockId) : Option BlockNode := T.allBlocks.lookup blockId

/-! ## Checks -/

/-- The loop of `get_pending_finalization_txs`, from the working block down. -/
def getPendingFinalizationTxs (T : BlockTree) (fuel : ℕ) : Exec Panic (List Transaction) :=
  Exec.unwrap .workingBlock (T.getBlock T.workingBlockId) >>= fun block =>
  Exec.loop (fun (s : List Transaction × BlockNode) =>
    let (pendingTxs, block) := s
    if block.header.blockId ≠ T.finalizedBlockId then
      Exec.unwrap .pendingParent (T.getBlock block.header.parent) >>= fun parentBlock =>
      .ok (.inl (pendingTxs ++ block.txs, parentBlock))
    else .ok (.inr pendingTxs)) fuel ([], block)

def verifyBlockIntegrity (C : Crates) (block : BlockNode) (leadingZeroLen : ℕ) : Exec Panic Bool :=
  let validBlockId := decide (block.header.blockId = block.computedBlockId C)
  let validLeadingZeroLen := block.validLeadingZeroLen leadingZeroLen
  allVerifySig C block.txs >>= fun validTransactions =>
  .ok (validBlockId && validLeadingZeroLen && validTransactions)

def verifyBlockAncestry (T : BlockTree) (blockMerkleRoot : String) (parentBlock : BlockNode)
    (fuel : ℕ) : Exec Panic Bool :=
  Exec.loop (fun (parentBlock : BlockNode) =>
    if parentBlock.header.parent ≠ T.rootId then
      if blockMerkleRoot = parentBlock.header.merkleRoot then .ok (.inr false)
      else
        Exec.unwrap .ancestryParent (T.getBlock parentBlock.header.parent) >>= fun block =>
        .ok (.inl block)
    else .ok (.inr true)) fuel parentBlock

section Balances
variable (profile : Profile)

/-- `*balances.entry(user).or_insert(0) += amount` -/
def addBalance (balances : Ledger UserId) (user : UserId) (amount : ℤ) :
    Exec Panic (Ledger UserId) :=
  i64 profile .balanceOverflow (balances.balance user + amount) >>= fun value =>
  .ok (balances.insert user value)

/-- `*balances.entry(user).or_insert(0) -= amount` -/
def subBalance (balances : Ledger UserId) (user : UserId) (amount : ℤ) :
    Exec Panic (Ledger UserId) :=
  i64 profile .balanceOverflow (balances.balance user - amount) >>= fun value =>
  .ok (balances.insert user value)

/-- Debit the sender, then credit the receiver. -/
def moveAmount (balances : Ledger UserId) (tx : Transaction) (amount : ℤ) :
    Exec Panic (Ledger UserId) :=
  subBalance profile balances tx.sender amount >>= fun balances =>
  addBalance profile balances tx.receiver amount

/-- One transaction without a check of the sender's balance. -/
def applyTx (balances : Ledger UserId) (tx : Transaction) : Exec Panic (Ledger UserId) :=
  extractAmount tx.message >>= moveAmount profile balances tx

/-- The last loop of `verifiy_transactions_balance`: `none` when a sender cannot pay. -/
def checkTxs : Ledger UserId → List Transaction → Exec Panic (Option (Ledger UserId))
  | balances, [] => .ok (some balances)
  | balances, tx :: txs =>
      extractAmount tx.message >>= fun amount =>
      if balances.balance tx.sender < amount then .ok none
      else moveAmount profile balances tx amount >>= fun balances => checkTxs balances txs

/-- The walk of `verifiy_transactions_balance` that adds the rewards of the ancestors. -/
def addRewards (T : BlockTree) (balances : Ledger UserId) (parentBlock : BlockNode) (fuel : ℕ) :
    Exec Panic (Ledger UserId × BlockNode) :=
  Exec.loop (fun (s : Ledger UserId × BlockNode) =>
    let (balances, parentBlock) := s
    if parentBlock.header.parent ≠ T.finalizedBlockId then
      addBalance profile balances parentBlock.header.rewardReceiver 10 >>= fun balances =>
      Exec.unwrap .rewardParent (T.getBlock parentBlock.header.parent) >>= fun block =>
      .ok (.inl (balances, block))
    else .ok (.inr (balances, parentBlock))) fuel (balances, parentBlock)

def verifiyTransactionsBalance (T : BlockTree) (block parentBlock : BlockNode) (fuel : ℕ) :
    Exec Panic Bool :=
  T.getPendingFinalizationTxs fuel >>= fun pending =>
  pending.foldlM (applyTx profile) T.finalizedBalanceMap >>= fun balances =>
  addRewards profile T balances parentBlock fuel >>= fun (balances, parentBlock) =>
  checkTxs profile balances block.txs >>= fun checked =>
  match checked with
  | none => .ok false
  | some balances =>
      addBalance profile balances parentBlock.header.rewardReceiver 10 >>= fun _ => .ok true

end Balances

/-! ## Updates -/

/-- The loop of `finalize_block`: `k` parents up; `none` on an early return. -/
def kDeepBlock (T : BlockTree) : ℕ → BlockNode → Option BlockNode
  | 0, block => some block
  | k + 1, block =>
      if block.header.parent = T.finalizedBlockId then none
      else (T.getBlock block.header.parent).bind (kDeepBlock T k)

section Updates
variable (C : Crates) (profile : Profile)

/-- The transactions of the block that becomes final, on the balances and the finalized ids. -/
def finalizeTxs (balances : Ledger UserId) (txs : List Transaction) :
    Exec Panic (Ledger UserId × Finset TxId) :=
  txs.foldlM (fun (s : Ledger UserId × Finset TxId) tx =>
    applyTx profile s.1 tx >>= fun balances => .ok (balances, insert (tx.genHash C) s.2))
    (balances, ∅)

def finalizeBlock (T : BlockTree) (block : BlockNode) : Exec Panic BlockTree :=
  Exec.unwrap .finalizedChildren (T.childrenMap.lookup T.finalizedBlockId) >>= fun fBlockChildren =>
  match T.kDeepBlock 6 block with
  | none => .ok T
  | some newFBlock =>
      if newFBlock.header.blockId ∈ fBlockChildren then
        finalizeTxs C profile T.finalizedBalanceMap newFBlock.txs >>= fun (balances, txIds) =>
        addBalance profile balances newFBlock.header.rewardReceiver 10 >>= fun balances => .ok
          { T with
            finalizedTxIds := T.finalizedTxIds ∪ txIds
            finalizedBalanceMap := balances
            finalizedBlockId := newFBlock.header.blockId }
      else .ok T

def updateBlocktree (T : BlockTree) (block : BlockNode) : Exec Panic BlockTree :=
  let allBlocks := T.allBlocks.insert block.header.blockId block
  Exec.unwrap .parentDepth (T.blockDepth.lookup block.header.parent) >>= fun parentBlockDepth =>
  let blockDepth := T.blockDepth.insert block.header.blockId (parentBlockDepth + 1)
  let childrenMap := T.childrenMap.insert block.header.parent
    ((T.childrenMap.lookup block.header.parent).getD [] ++ [block.header.blockId])
  Exec.unwrap .parentChildren (childrenMap.lookup block.header.parent) >>= fun allChildren =>
  let largestChild := (maxBy compare allChildren).getD block.header.blockId
  finalizeBlock C profile
    { T with
      allBlocks := allBlocks
      blockDepth := blockDepth
      childrenMap := childrenMap
      workingBlockId := largestChild }
    block

/-! ## Adding blocks -/

/-- The first orphan met whose parent is `blockId`. -/
def findOrphan (order : IterOrder) (T : BlockTree) (blockId : BlockId) : Option BlockNode :=
  ((order.visit 0 T.orphans.entries).find? fun e => e.2.header.parent = blockId).map fun e => e.2

/-- What `add_block` and `add_orphan_block` do alike once the parent is known: the two checks
against the tree, the update, and the first waiting orphan, added by `addOrphan`. -/
def attachBlock (order : IterOrder) (addOrphan : BlockTree → BlockNode → Exec Panic BlockTree)
    (T : BlockTree) (block parentBlock : BlockNode) (fuel : ℕ) : Exec Panic BlockTree :=
  T.verifyBlockAncestry block.header.merkleRoot parentBlock fuel >>= fun noDuplicate =>
  if ¬ noDuplicate then .ok T
  else
    verifiyTransactionsBalance profile T block parentBlock fuel >>= fun sufficient =>
    if ¬ sufficient then .ok T
    else
      updateBlocktree C profile T block >>= fun T =>
      match findOrphan order T block.header.blockId with
      | none => .ok T
      | some oBlock =>
          addOrphan T oBlock >>= fun T =>
          .ok { T with orphans := T.orphans.erase block.header.blockId }

def addOrphanBlock : ℕ → IterOrder → BlockTree → BlockNode → ℕ → Exec Panic BlockTree
  | 0, _, _, _, _ => Exec.outOfFuel
  | fuel + 1, order, T, block, leadingZeroLen =>
      let blockExist := decide (block.header.blockId ∈ T.allBlocks)
      verifyBlockIntegrity C block leadingZeroLen >>= fun integrity =>
      if ¬ integrity ∨ blockExist then .ok T
      else
        match T.getBlock block.header.parent with
        | none => .ok { T with orphans := T.orphans.insert block.header.blockId block }
        | some parentBlock =>
            attachBlock C profile order
              (fun T oBlock => addOrphanBlock fuel order.next T oBlock leadingZeroLen)
              T block parentBlock fuel

def addBlock (fuel : ℕ) (order : IterOrder) (T : BlockTree) (block : BlockNode)
    (leadingZeroLen : ℕ) : Exec Panic BlockTree :=
  let blockExist := decide (block.header.blockId ∈ T.allBlocks ∨ block.header.blockId ∈ T.orphans)
  if blockExist then .ok T
  else
    verifyBlockIntegrity C block leadingZeroLen >>= fun integrity =>
    if ¬ integrity then .ok T
    else
      match T.getBlock block.header.parent with
      | none => .ok { T with orphans := T.orphans.insert block.header.blockId block }
      | some parentBlock =>
          attachBlock C profile order
            (fun T oBlock => addOrphanBlock C profile fuel order.next T oBlock leadingZeroLen)
            T block parentBlock fuel

end Updates

end BlockTree

/-! ## Calls -/

/-- One call of `add_block`: the block, the difficulty, and the iteration orders it happens on. -/
structure Call where
  block : BlockNode
  leadingZeroLen : ℕ
  order : IterOrder

/-- The call returns, and leaves the tree `T'`. -/
def Returns (C : Crates) (profile : Profile) (T : BlockTree) (call : Call) (T' : BlockTree) : Prop :=
  ∃ fuel, BlockTree.addBlock C profile fuel call.order T call.block call.leadingZeroLen = .ok T'

/-- The trees reached from `BlockTree::new()` by `add_block` calls that return. -/
def Reachable (C : Crates) (profile : Profile) (T : BlockTree) : Prop :=
  ∃ T₀ calls, BlockTree.new = .ok T₀ ∧ Run (Returns C profile) T₀ calls T

end NakamotoNode.Chain
