import NakamotoNode.Chain.Calls

/-! # The finalized ledger is the replay of the finalized chain

`replay T id u` is what `u` owns after the blocks from the root to `id`, over the integers. In a
debug build the finalized balances are the replay of the branch of the finalized block, whatever
was forked, adopted or finalized on the way. -/

namespace NakamotoNode.Chain
open Foundations Foundations.RustStd
set_option autoImplicit false

/-- What the transactions of the block move to `u`: received minus sent. -/
def BlockNode.flow (b : BlockNode) (u : UserId) : ℤ :=
  (b.txs.map fun tx => tx.transfer.flow u).sum

theorem neg_volume_le_flow (b : BlockNode) (u : UserId) :
    -(BlockTree.volume b.txs) ≤ b.flow u := by
  unfold BlockNode.flow
  induction b.txs with
  | nil => exact Int.le_refl 0
  | cons tx txs ih =>
    have htx := (abs_le.mp (Ledger.abs_flow_le tx.transfer u)).1
    have hamount : tx.transfer.amount = tx.amount := rfl
    rw [BlockTree.volume_cons, List.map_cons, List.sum_cons]
    rw [hamount] at htx
    omega

/-- The mining reward of the block, for `u`. -/
def BlockNode.reward (b : BlockNode) (u : UserId) : ℤ :=
  if b.header.rewardReceiver = u then 10 else 0

/-- The address of Alice, to whom the genesis block gives its money. -/
def alice : UserId :=
  "MDgCMQCqrJ1yIJ7cDQIdTuS+4CkKn/tQPN7bZFbbGCBhvjQxs71f6Vu+sD9eh8JGpfiZSckCAwEAAQ=="

/-- What the genesis block gives `u`. -/
def genesisCredit (u : UserId) : ℤ :=
  (BlockNode.genesisBlock.txs.map fun tx => if tx.receiver = u then tx.amount else 0).sum

theorem genesisCredit_eq (u : UserId) :
    genesisCredit u = if alice = u then 299792458 else 0 := by
  have hamount : Transaction.amount ⟨"GENESIS", alice, "SEND $299792458", "GENESIS"⟩ = 299792458 :=
    Transaction.amount_of_ok BlockTree.genesis_amount
  rw [alice] at hamount ⊢
  rw [genesisCredit, BlockNode.genesisBlock, List.map_cons, List.map_nil, List.sum_cons,
    List.sum_nil, add_zero, hamount]

theorem genesisCredit_nonneg (u : UserId) : 0 ≤ genesisCredit u := by
  rw [genesisCredit_eq]
  split <;> omega

theorem BlockNode.reward_nonneg (b : BlockNode) (u : UserId) : 0 ≤ b.reward u := by
  unfold BlockNode.reward
  split <;> omega

namespace BlockTree

/-- What `u` owns after the blocks from the root to `id`. -/
def replay (T : BlockTree) (id : BlockId) (u : UserId) : ℤ :=
  genesisCredit u + ((T.branch id).map fun b => b.flow u + b.reward u).sum

/-- The transactions of the blocks from the root to `id`, the genesis block left out. -/
def branchTxs (T : BlockTree) (id : BlockId) : List Transaction :=
  (T.branch id).flatMap BlockNode.txs

variable {C : Crates} {profile : Profile} {leadingZeroLen : ℕ} {T T' : BlockTree}
  {block : BlockNode}

theorem replay_root (hT : Shape T) (u : UserId) : T.replay "0" u = genesisCredit u := by
  simp [replay, branch_root hT]

/-! ## Branches under insertion -/

section Insert
variable (h : Inserted C profile T block T') (hT : Shape T)
  (hfresh : block.header.blockId ∉ T.allBlocks) (hparent : block.header.parent ∈ T.allBlocks)
include h hT hfresh

theorem Inserted.branchFrom_old :
    ∀ (n : ℕ) {id : BlockId}, id ∈ T.allBlocks → T'.branchFrom n id = T.branchFrom n id
  | 0, _, _ => rfl
  | n + 1, id, hid => by
      have hne : id ≠ block.header.blockId := fun he => hfresh (he ▸ hid)
      obtain ⟨b, hb⟩ := mem_allBlocks_iff.mp hid
      have hb' : T'.getBlock id = some b := by
        rw [h.getBlock, getBlock_graft_of_ne hne, hb]
      have hnext : b.header.parent ∈ T.allBlocks := by
        by_cases hroot : id = "0"
        · subst hroot
          obtain rfl := hT.getBlock_root_parent hb
          exact hT.root_mem
        · exact hT.parent_mem id b hb hroot
      rw [branchFrom, hb', branchFrom, hb]
      simp only [List.cons.injEq, true_and]
      exact Inserted.branchFrom_old n hnext

theorem Inserted.branch_old {id : BlockId} (hid : id ∈ T.allBlocks) :
    T'.branch id = T.branch id := by
  rw [branch, branch, h.depthOf_old hfresh hid]
  exact h.branchFrom_old hT hfresh _ hid

include hparent in
theorem Inserted.branch_leaf :
    T'.branch block.header.blockId = block :: T.branch block.header.parent := by
  have hroot : block.header.blockId ≠ "0" := fun he => hfresh (he ▸ hT.root_mem)
  rw [branch_of_parent (h.shape hT hfresh hparent) h.stored hroot,
    h.branch_old hT hfresh hparent]

theorem Inserted.replay_old {id : BlockId} (hid : id ∈ T.allBlocks) (u : UserId) :
    T'.replay id u = T.replay id u := by
  rw [replay, replay, h.branch_old hT hfresh hid]

include hparent in
theorem Inserted.replay_leaf (u : UserId) :
    T'.replay block.header.blockId u =
      T.replay block.header.parent u + (block.flow u + block.reward u) := by
  rw [replay, replay, h.branch_leaf hT hfresh hparent, List.map_cons, List.sum_cons]
  ring

end Insert

theorem Adopts.branch_eq {G : BlockTree → BlockNode → Prop}
    (h : Adopts C profile leadingZeroLen G T block T') (hT : Inv T) {id : BlockId}
    (hid : id ∈ T.allBlocks) : id ∈ T'.allBlocks ∧ T'.branch id = T.branch id := by
  have hkeeps : Keeps C profile leadingZeroLen G
      (fun T' => id ∈ T'.allBlocks ∧ T'.branch id = T.branch id) := by
    refine ⟨fun hT hI hacc _ hins => ⟨hins.mem_allBlocks.mpr (.inr hI.1), ?_⟩,
      fun os hI => ⟨hI.1, ?_⟩⟩
    · rw [hins.branch_old hT.shape hacc.fresh hI.1, hI.2]
    · rw [branch_withOrphans]
      exact hI.2
  exact (h.keeps hkeeps hT ⟨hid, rfl⟩).2

theorem branch_of_returns {call : Call} (hT : Inv T) (h : Returns C profile T call T')
    {id : BlockId} (hid : id ∈ T.allBlocks) : id ∈ T'.allBlocks ∧ T'.branch id = T.branch id := by
  rcases returns_cases h with ⟨-, rfl⟩ | ⟨-, -, h⟩
  · exact ⟨hid, rfl⟩
  · exact h.branch_eq hT hid

/-! ## The invariant -/

/-- The finalized data are those of the branch of the finalized block. -/
structure Replayed (C : Crates) (T : BlockTree) : Prop where
  balance : ∀ u, T.finalizedBalanceMap.balance u = T.replay T.finalizedBlockId u
  total : T.finalizedBalanceMap.total = 299792458 + 10 * T.depthOf T.finalizedBlockId
  txIds : T.finalizedTxIds =
    ((T.branchTxs T.finalizedBlockId).map fun tx => tx.genHash C).toFinset

/-- The balances after the finalization of `c`, over the integers. -/
def finalizedBy (L : Ledger UserId) (c : BlockNode) : Ledger UserId :=
  ((c.txs.map Transaction.transfer).foldl Ledger.transfer L).credit c.header.rewardReceiver 10

theorem balance_finalizedBy (L : Ledger UserId) (c : BlockNode) (u : UserId) :
    (finalizedBy L c).balance u = L.balance u + (c.flow u + c.reward u) := by
  rw [finalizedBy, Ledger.balance_credit, Ledger.balance_foldl_transfer, List.map_map,
    BlockNode.flow, BlockNode.reward]
  exact add_assoc _ _ _

theorem total_finalizedBy (L : Ledger UserId) (c : BlockNode) :
    (finalizedBy L c).total = L.total + 10 := by
  rw [finalizedBy, Ledger.total_credit, Ledger.total_foldl_transfer]

/-- The finalization of `c` computes what it should: no balance overflows. -/
def Exact (C : Crates) (profile : Profile) (L : Ledger UserId) (c : BlockNode) : Prop :=
  ∀ L₁ L₂ ids, finalizeTxs C profile L c.txs = .ok (L₁, ids) →
    addBalance profile L₁ c.header.rewardReceiver 10 = .ok L₂ →
    L₂ = finalizedBy L c ∧ ids = (c.txs.map fun tx => tx.genHash C).toFinset

theorem exact_debug (C : Crates) (L : Ledger UserId) (c : BlockNode) : Exact C .debug L c := by
  intro L₁ L₂ ids htxs hreward
  obtain ⟨rfl, rfl⟩ := finalizeTxs_debug htxs
  exact ⟨addBalance_debug hreward, rfl⟩

theorem Inserted.replayed (h : Inserted C profile T block T') (hT : Inv T) (hI : Replayed C T)
    (hfresh : block.header.blockId ∉ T.allBlocks) (hparent : block.header.parent ∈ T.allBlocks)
    (hexact : ∀ c, T'.Stored c → c.header.blockId ≠ "0" →
      Exact C profile T.finalizedBalanceMap c) : Replayed C T' := by
  have hfin := hT.final.final_mem
  have hshape := h.shape hT.shape hfresh hparent
  have hreplay := h.replay_old hT.shape hfresh hfin
  have hbranch := h.branch_old hT.shape hfresh hfin
  have hdepth := h.depthOf_old hfresh hfin
  cases h with
  | hung =>
    refine ⟨fun u => (hI.balance u).trans (hreplay u).symm, ?_, ?_⟩
    · rw [graft_finalizedBlockId, hdepth]
      exact hI.total
    · rw [branchTxs, graft_finalizedBlockId, hbranch]
      exact hI.txIds
  | finalized c L L' txIds _ hc hchild _ htxs hreward =>
    obtain ⟨hroot, c', hc', hcparent⟩ := hshape.parentOf_eq_some.mp hchild
    obtain rfl : c = c' := Option.some.inj (hc.symm.trans hc')
    obtain ⟨rfl, rfl⟩ := hexact c hc hroot _ _ _ htxs hreward
    -- the branch of the block that becomes final is that block and the old branch
    have hcons := branch_of_parent hshape hc' hroot
    rw [hcparent, hbranch] at hcons
    refine ⟨fun u => ?_, ?_, ?_⟩
    · unfold replay
      dsimp only
      rw [hcons, List.map_cons, List.sum_cons, balance_finalizedBy, hI.balance u, replay]
      ring
    · have hcdepth := hshape.graded _ _ hchild
      rw [hdepth] at hcdepth
      dsimp only
      rw [total_finalizedBy, hI.total, hcdepth]
      push_cast
      ring
    · unfold branchTxs
      dsimp only
      rw [hcons, hI.txIds, branchTxs, List.flatMap_cons, List.map_append, List.toFinset_append,
        Finset.union_comm]

/-! ## The balances a new block is checked against -/

/-- The transactions from the working block up to the finalized one. -/
def pendingTxs (T : BlockTree) : List Transaction :=
  (T.segment T.finalizedBlockId T.workingBlockId).flatMap BlockNode.txs

/-- The finalized balance and the pending transactions, without their rewards. -/
def pendingBalance (T : BlockTree) (u : UserId) : ℤ :=
  T.finalizedBalanceMap.balance u + (T.pendingTxs.map fun tx => tx.transfer.flow u).sum

theorem sum_flow_flatMap (l : List BlockNode) (u : UserId) :
    ((l.flatMap BlockNode.txs).map fun tx => tx.transfer.flow u).sum =
      (l.map fun b => b.flow u).sum := by
  induction l with
  | nil => rfl
  | cons b l ih =>
    rw [List.flatMap_cons, List.map_append, List.sum_append, ih]
    rfl

theorem sum_flow_reward (l : List BlockNode) (u : UserId) :
    (l.map fun b => b.flow u + b.reward u).sum =
      (l.map fun b => b.flow u).sum + (l.map fun b => b.reward u).sum := by
  induction l with
  | nil => rfl
  | cons b l ih =>
    rw [List.map_cons, List.sum_cons, ih, List.map_cons, List.sum_cons, List.map_cons,
      List.sum_cons]
    ring

theorem sum_reward_nonneg (l : List BlockNode) (u : UserId) :
    0 ≤ (l.map fun b => b.reward u).sum := by
  induction l with
  | nil => exact Int.le_refl 0
  | cons b l ih =>
    rw [List.map_cons, List.sum_cons]
    exact add_nonneg (b.reward_nonneg u) ih

/-- What the transactions from `id` up to the finalized block move to `u`. -/
def pendingFlow (T : BlockTree) (id : BlockId) (u : UserId) : ℤ :=
  ((T.segment T.finalizedBlockId id).map fun b => b.flow u).sum

theorem pendingBalance_eq (T : BlockTree) (u : UserId) : T.pendingBalance u =
    T.finalizedBalanceMap.balance u + T.pendingFlow T.workingBlockId u := by
  rw [pendingBalance, pendingTxs, sum_flow_flatMap, pendingFlow]

/-- Below the finalized block the replay is the finalized balance, the pending transactions and
their rewards. -/
theorem replay_eq_pending (hT : Inv T) (hI : Replayed C T) {id : BlockId}
    (hdesc : T.Descends T.finalizedBlockId id) (u : UserId) : T.replay id u =
      T.finalizedBalanceMap.balance u + T.pendingFlow id u +
        ((T.segment T.finalizedBlockId id).map fun b => b.reward u).sum := by
  rw [hI.balance, pendingFlow, replay, replay, branch_eq_segment_append hT.shape hdesc,
    List.map_append, List.sum_append, sum_flow_reward (T.segment _ _)]
  ring

/-- The pending balance is at least what the transactions of the working branch leave. -/
theorem le_pendingBalance (hT : Inv T) (hI : Replayed C T) (u : UserId) :
    genesisCredit u + ((T.branch T.workingBlockId).map fun b => b.flow u).sum ≤
      T.pendingBalance u := by
  have hfin := sum_reward_nonneg (T.branch T.finalizedBlockId) u
  rw [pendingBalance, hI.balance, pendingTxs, sum_flow_flatMap, replay, sum_flow_reward,
    branch_eq_segment_append hT.shape hT.final.working_below, List.map_append, List.sum_append]
  omega

/-! ## Reachable trees -/

theorem keeps_replayed (leadingZeroLen : ℕ) :
    Keeps C .debug leadingZeroLen (fun _ _ => True) (Replayed C) where
  insert := fun hT hI hacc _ hins =>
    hins.replayed hT hI hacc.fresh hacc.parent_mem fun c _ _ => exact_debug C _ c
  orphans := fun {T} os hI => by
    refine ⟨fun u => ?_, hI.total, ?_⟩
    · rw [replay, branch_withOrphans]
      exact hI.balance u
    · rw [branchTxs, branch_withOrphans]
      exact hI.txIds

theorem replayed_genesisTree (C : Crates) : Replayed C genesisTree := by
  have hbranch : genesisTree.branch genesisTree.finalizedBlockId = [] :=
    branch_root shape_genesisTree
  refine ⟨fun u => ?_, ?_, ?_⟩
  · rw [replay, hbranch, genesisCredit_eq, genesisTree, Ledger.balance_insert]
    simp [alice, eq_comm]
  · have hdepth : genesisTree.depthOf genesisTree.finalizedBlockId = 0 :=
      shape_genesisTree.depthOf_root
    rw [hdepth, genesisTree, Ledger.total_insert]
    simp
  · rw [branchTxs, hbranch]
    rfl

theorem replayed_of_reachable (h : Reachable C .debug T) : Replayed C T :=
  (h.keeps keeps_replayed (replayed_genesisTree C)).2

end BlockTree

end NakamotoNode.Chain
