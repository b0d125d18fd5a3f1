import NakamotoNode.Node.Threads

/-! # Transactions that are mined again

`create_puzzle` reads the parent of its block, the transactions to leave out and those to select under
three acquisitions of locks, after the refresh has read the finalized blocks under others. A block of its
puzzle has no transaction of its ancestors where the parent and the finalized block are still, when
the pending transactions are read, what the earlier reads have seen (`ParentKept`). -/

namespace NakamotoNode.Node
open Foundations Foundations.RustStd Chain Chain.BlockTree
set_option autoImplicit false

/-- No transaction of the block is in its parent or an ancestor of that. -/
def NotIncluded (chain : BlockTree) (preBlock : BlockNode) : Prop :=
  ∀ tx ∈ preBlock.txs, ∀ b, chain.Stored b →
    chain.Descends b.header.blockId preBlock.header.parent → tx ∉ b.txs

/-- The block of the puzzle that the miner thread is at. -/
def Miner.preBlock : Miner → Option BlockNode
  | .created _ preBlock _ => some preBlock
  | .solving preBlock _ _ _ => some preBlock
  | .solved preBlock _ _ _ => some preBlock
  | _ => none

namespace Nakamoto

/-- Where `create_puzzle` reads the pending transactions: the parent that it has read before is
final for the pool, or the pool has caught up with the chain and the parent is still on the path to the
working block. -/
def ParentKept (s : Nakamoto) (m : Move) : Prop :=
  ∀ workingBlockId mark, m = .readPending → s.miner = .working workingBlockId mark →
    s.shared.chain.Descends workingBlockId s.shared.txPool.lastFinalizedBlockId ∨
      (s.shared.txPool.lastFinalizedBlockId = s.shared.chain.finalizedBlockId ∧
        s.shared.chain.Descends workingBlockId s.shared.chain.workingBlockId)

/-- The transactions of a branch are left out or were removed from the pool. -/
def Excluded (C : Crates) (shared : Shared) (id : BlockId) (excludingTxs : List Transaction) :
    Prop :=
  ∀ tx ∈ shared.chain.branchTxs id, tx ∈ excludingTxs ∨ tx.genHash C ∈ shared.txPool.removedTxIds

/-- What the miner thread has read, on the way to a block and after. -/
def Parent (C : Crates) (shared : Shared) (miner : Miner) : Prop :=
  match miner with
  | .working workingBlockId _ => workingBlockId ∈ shared.chain.allBlocks
  | .excluding workingBlockId _ excludingTxs => workingBlockId ∈ shared.chain.allBlocks ∧
      Excluded C shared workingBlockId excludingTxs
  | miner => ∀ preBlock ∈ miner.preBlock, preBlock.header.parent ∈ shared.chain.allBlocks ∧
      ∀ tx ∈ preBlock.txs, tx ∉ shared.chain.branchTxs preBlock.header.parent ∧
        tx.verifySig C = .ok true

variable {N : Setting} {s s' : Nakamoto} {m : Move} {shared shared' : Shared} {e : Event}
  {events : List Event} {C : Crates} {profile : Profile} {miner : Miner}

/-! ## Steps that leave the miner thread where it is -/

/-- The chain and the pool after a step of their own. -/
structure Later (shared shared' : Shared) : Prop where
  chain : Extends shared.chain shared'.chain
  shape : Shape shared.chain
  shape' : Shape shared'.chain
  removed : shared.txPool.removedTxIds ⊆ shared'.txPool.removedTxIds

theorem later_of_step (h : Follows C events shared)
    (hstep : Node.Step C profile shared e shared') : Later shared shared' := by
  refine ⟨h.extends (Run.single hstep), h.chain.shape, (h.step hstep).chain.shape, ?_⟩
  cases hstep with
  | addTx hadd => exact (TxPool.addTx_last hadd).2.symm.subset
  | removeTxs =>
    intro id hid
    exact ((TxPool.removeTxsFromFinalizedBlocks_spec _ _).2.2 id).mpr (.inl hid)
  | _ => exact Finset.Subset.refl _

theorem Later.branchTxs_eq (h : Later shared shared') {id : BlockId}
    (hid : id ∈ shared.chain.allBlocks) :
    shared'.chain.branchTxs id = shared.chain.branchTxs id := by
  rw [branchTxs, branchTxs, h.chain.branch_eq h.shape h.shape' hid]

theorem Parent.later (h : Parent C shared miner) (hlater : Later shared shared') :
    Parent C shared' miner := by
  have hblock : ∀ preBlock : BlockNode, preBlock.header.parent ∈ shared.chain.allBlocks ∧
      (∀ tx ∈ preBlock.txs, tx ∉ shared.chain.branchTxs preBlock.header.parent ∧
        tx.verifySig C = .ok true) →
      preBlock.header.parent ∈ shared'.chain.allBlocks ∧
        ∀ tx ∈ preBlock.txs, tx ∉ shared'.chain.branchTxs preBlock.header.parent ∧
          tx.verifySig C = .ok true := by
    rintro preBlock ⟨hmem, htxs⟩
    rw [hlater.branchTxs_eq hmem]
    exact ⟨hlater.chain.mem hmem, htxs⟩
  cases miner with
  | working => exact hlater.chain.mem h
  | excluding =>
    obtain ⟨hmem, hexcluded⟩ := h
    refine ⟨hlater.chain.mem hmem, fun tx htx => ?_⟩
    rw [hlater.branchTxs_eq hmem] at htx
    exact (hexcluded tx htx).imp_right fun hid => hlater.removed hid
  | _ => exact fun preBlock hpre => hblock preBlock (h preBlock hpre)

/-! ## The reads of `create_puzzle` -/

theorem removed_of_mem_branchTxs (h : Follows C events shared) {tx : Transaction}
    (htx : tx ∈ shared.chain.branchTxs shared.txPool.lastFinalizedBlockId) :
    tx.genHash C ∈ shared.txPool.removedTxIds := by
  obtain ⟨b, hb, htx⟩ := List.mem_flatMap.mp htx
  refine h.removed _ ⟨b, ?_, tx, htx, rfl⟩
  rw [h.path, List.mem_reverse]
  exact hb

theorem branchTxs_subset {T : BlockTree} (hT : Shape T) {a id : BlockId} (hdesc : T.Descends a id)
    {tx : Transaction} (htx : tx ∈ T.branchTxs a) : tx ∈ T.branchTxs id := by
  obtain ⟨b, hb, htx⟩ := List.mem_flatMap.mp htx
  refine List.mem_flatMap.mpr ⟨b, ?_, htx⟩
  rw [branch_eq_segment_append hT hdesc]
  exact List.mem_append_right _ hb

theorem excluded_of_kept (h : Follows C events shared) {workingBlockId : BlockId} {fuel : ℕ}
    {excludingTxs : List Transaction}
    (hpending : shared.chain.getPendingFinalizationTxs fuel = .ok excludingTxs)
    (hkept : shared.chain.Descends workingBlockId shared.txPool.lastFinalizedBlockId ∨
      (shared.txPool.lastFinalizedBlockId = shared.chain.finalizedBlockId ∧
        shared.chain.Descends workingBlockId shared.chain.workingBlockId)) :
    Excluded C shared workingBlockId excludingTxs := by
  have hfinal := h.chain.final
  have hshape := h.chain.shape
  obtain rfl := (getPendingFinalizationTxs_sat hshape hfinal.working_mem hfinal.working_below
    fuel).of_ok hpending
  intro tx htx
  rcases hkept with hlast | ⟨hlast, hworking⟩
  · exact .inr (removed_of_mem_branchTxs h (branchTxs_subset hshape hlast htx))
  · have htx := branchTxs_subset hshape hworking htx
    rw [branchTxs, branch_eq_segment_append hshape hfinal.working_below, List.flatMap_append,
      List.mem_append] at htx
    rcases htx with htx | htx
    · exact .inl htx
    · refine .inr (removed_of_mem_branchTxs h ?_)
      rw [hlast]
      exact htx

theorem not_mem_of_excluded (h : Follows C events shared) {workingBlockId : BlockId} {max : ℕ}
    {excludingTxs filteredTx : List Transaction}
    (hexcluded : Excluded C shared workingBlockId excludingTxs)
    (hfilter : shared.txPool.filterTx max excludingTxs = some filteredTx) :
    ∀ tx ∈ filteredTx, tx ∉ shared.chain.branchTxs workingBlockId ∧ tx.verifySig C = .ok true := by
  intro tx htx
  obtain ⟨hnot, hpool, hsig⟩ := TxPool.mem_filterTx h.txPool hfilter htx
  refine ⟨fun hmem => ?_, hsig⟩
  rcases hexcluded tx hmem with hex | hremoved
  · exact hnot hex
  · exact h.txPool.kept _ hpool hremoved

/-- The genesis transaction has no signature, so it is in no pool. -/
theorem verifySig_genesis {tx : Transaction} (htx : tx ∈ BlockNode.genesisBlock.txs) :
    tx.verifySig C ≠ .ok true := by
  obtain rfl := List.mem_singleton.mp htx
  exact Exec.panic_ne_ok Panic.senderSlice true

/-! ## All moves -/

theorem Step.parent (hstep : Step N s m s') (hled : Led N s) (hkept : ParentKept s m)
    (h : Parent N.crates s.shared s.miner) : Parent N.crates s'.shared s'.miner := by
  obtain ⟨events, hs⟩ := hled
  cases hstep with
  | addTx hadd => exact h.later (later_of_step hs hadd)
  | raise => exact h
  | addReceived _ hadd => exact h.later (later_of_step hs hadd)
  | lower => exact h
  | wake => exact fun _ hpre => absurd hpre (by simp [Miner.preBlock])
  | readExcluding => exact fun _ hpre => absurd hpre (by simp [Miner.preBlock])
  | filter =>
    dsimp only
    split <;> exact fun _ hpre => absurd hpre (by simp [Miner.preBlock])
  | refresh _ _ hread => exact h.later (later_of_step hs hread)
  | remove => exact fun _ hpre => absurd hpre (by simp [Miner.preBlock])
  | readWorking => exact hs.chain.final.working_mem
  | readPending hpc hpending =>
    rw [hpc] at h
    exact ⟨h, excluded_of_kept hs hpending (hkept _ _ rfl hpc)⟩
  | createPuzzle hpc hfilter hpuzzle =>
    rw [hpc] at h
    obtain ⟨hmem, hexcluded⟩ := h
    obtain ⟨hparent, htxs, -, -⟩ := puzzleOf_eq_ok hpuzzle
    intro preBlock hpre
    obtain rfl := Option.some.inj hpre
    rw [hparent, htxs]
    exact ⟨hmem, not_mem_of_excluded hs hexcluded hfilter⟩
  | solve hpc =>
    rw [hpc] at h
    dsimp only
    split
    · exact fun _ hpre => absurd hpre (by simp [Miner.preBlock])
    · exact h
  | tick hpc =>
    rw [hpc] at h
    exact h
  | @join _ _ _ _ solution hpc =>
    rw [hpc] at h
    cases solution with
    | none => exact fun _ hpre => absurd hpre (by simp [Miner.afterJoin, Miner.preBlock])
    | some => exact h
  | addOwn => exact fun _ hpre => absurd hpre (by simp [Miner.preBlock])

end Nakamoto

open Nakamoto

/-- In every run of a node in which each read of the pending transactions finds the parent of the
puzzle kept, no block that `create_puzzle` returns has a transaction of its parent or of an ancestor of
it. -/
theorem not_included_of_parentKept {N : Setting} {s₀ s : Nakamoto} {moves : List Move}
    (h₀ : Nakamoto.new = .ok s₀) (hrun : Run (Guarded (Nakamoto.Step N) ParentKept) s₀ moves s) :
    ∀ preBlock, s.miner.preBlock = some preBlock → NotIncluded s.shared.chain preBlock := by
  rw [Nakamoto.new_eq] at h₀
  obtain rfl := Except.ok.inj h₀
  obtain ⟨⟨events, hs⟩, hparent⟩ := hrun.invariant
    (I := fun s => Led N s ∧ Parent N.crates s.shared s.miner)
    (fun t m t' ⟨hled, hparent⟩ ⟨hstep, hkept⟩ =>
      ⟨hled.step hstep, hstep.parent hled hkept hparent⟩)
    ⟨⟨[], follows_new⟩, fun _ hpre => absurd hpre (by simp [fresh, Miner.preBlock])⟩
  intro preBlock hpre
  have hno : ∀ tx ∈ preBlock.txs, tx ∉ s.shared.chain.branchTxs preBlock.header.parent ∧
      tx.verifySig N.crates = .ok true := by
    generalize s.miner = miner at hparent hpre
    cases miner with
    | created => exact (hparent _ hpre).2
    | solving => exact (hparent _ hpre).2
    | solved => exact (hparent _ hpre).2
    | _ => exact absurd hpre (by simp [Miner.preBlock])
  intro tx htx b hb hdesc hmem
  obtain ⟨hbranch, hsig⟩ := hno tx htx
  by_cases hroot : b.header.blockId = "0"
  · rw [hs.chain.shape.stored_eq_genesis hb hroot] at hmem
    exact verifySig_genesis hmem hsig
  · exact hbranch (List.mem_flatMap.mpr
      ⟨b, (mem_branch hs.chain.shape).mpr ⟨hb, hroot, hdesc⟩, hmem⟩)

theorem parentKept_of_run {N : Setting} {s s' : Nakamoto} {moves : List Move}
    (hrun : Run (Nakamoto.Step N) s moves s') (hmoves : ∀ m ∈ moves, m ≠ .readPending) :
    Run (Guarded (Nakamoto.Step N) ParentKept) s moves s' :=
  (hrun.guarded_of_forall hmoves).mono fun _ _ _ h => ⟨h.1, fun _ _ he => absurd he h.2⟩

/-- The pool has the loan, which a block has brought too, and another transaction; one more block
arrives between the two reads of `create_puzzle`. -/
theorem not_included_spend : ∃ (moves : List Move) (s : Nakamoto),
    Run (Guarded (Nakamoto.Step walletSetting) ParentKept) fresh moves s ∧
    s.shared.chain.Stored (minedBlock 'a' "0" loan) ∧
    s.shared.chain.workingBlockId = minedId 's' ∧
    loan.2 ∈ s.shared.txPool.poolTxIds ∧
    s.miner.preBlock = some (unminedBlock (minedId 'a') spend) ∧
    NotIncluded s.shared.chain (unminedBlock (minedId 'a') spend) := by
  obtain ⟨T, hcall, hos, hwork, hT⟩ := loan_returns .debug
  have hfits : Fits walletCrates 0 1000 (minedId 'a') [minedBlock 'a' "0" loan]
      (minedBlock 's' (minedId 'a') (payment 0)) :=
    minedBlock_fits (by decide) (by decide) (payable_payment 0) (by decide) (by decide)
  obtain ⟨T', hcall', -, hwork', hT'⟩ :=
    hT.extend .debug hos (by rw [hwork]; exact hfits) (by decide) asStored
  obtain ⟨fuel, hsince⟩ := since_of_root hT.inv (hT.finalizedBlockId_eq_root (by decide))
  obtain ⟨hstored, -, hdesc⟩ := hT'.mem_line (b := minedBlock 'a' "0" loan) (by simp)
  have hids : ([loan, spend].map Prod.snd).Nodup := by decide +kernel
  have hfilter : (poolOf [loan, spend]).filterTx 1 [loan.1] = some [spend.1] := by
    rw [filterTx_poolOf hids]
    decide +kernel
  have hfilter' : (poolOf [loan, spend]).filterTx 1 [(payment 0).1, loan.1] = some [spend.1] := by
    rw [filterTx_poolOf hids]
    decide +kernel
  have hadd : Run (Nakamoto.Step walletSetting) fresh _ _ := Run.single (Nakamoto.Step.addTx
    (Node.Step.addTx (addTx_poolWith payable_loan.signed genHash_loan)))
  have hspend : (poolOf [loan]).addTx walletCrates spend.1 = .ok (true, poolOf ([loan] ++ [spend])) :=
    addTx_poolOf (by simp [wallet]) genHash_spend (by decide +kernel) (by decide)
  have hpool := hadd.snoc (Nakamoto.Step.addTx (Node.Step.addTx hspend))
  have hloan := (hpool.trans (receives (N := walletSetting) rfl hcall.1)).snoc
    (Nakamoto.Step.wake rfl rfl)
  have hloop := hloan.trans (run_loopMoves rfl rfl (pending_of_tip hT (by decide)) hfilter
    (List.cons_ne_nil _ _) hsince)
  have hreceived := (hloop.snoc (Nakamoto.Step.readWorking rfl)).trans
    (receives (N := walletSetting) rfl hcall'.1)
  have hexcluding := (parentKept_of_run hreceived (by simp [loopMoves])).snoc
    ⟨Nakamoto.Step.readPending rfl (pending_of_tip hT' (by decide)), fun _ _ _ he => by
      obtain ⟨rfl, -⟩ := Miner.working.inj he
      exact .inr ⟨(hT'.finalizedBlockId_eq_root (by decide)).symm, hwork.symm ▸ hdesc⟩⟩
  have hcreated := hexcluding.snoc ⟨Nakamoto.Step.createPuzzle rfl hfilter'
    (puzzleOf_single _ genHash_spend), fun _ _ he => absurd he (by simp)⟩
  have hblock : some (unminedBlock T.workingBlockId spend) =
      some (unminedBlock (minedId 'a') spend) := by rw [hwork]
  exact ⟨_, _, hcreated, hstored, hwork', List.mem_cons_self, hblock,
    not_included_of_parentKept new_eq hcreated _ hblock⟩

/-- The working block changes between the two reads of `create_puzzle`: the loan is in the parent, but
not among the pending transactions of the new branch. -/
theorem loan_mined_again : ∃ (moves : List Move) (s : Nakamoto), Nakamoto.new = .ok fresh ∧
    Run (Nakamoto.Step walletSetting) fresh moves s ∧
    s.miner.preBlock = some (unminedBlock (minedId 'a') loan) ∧
    s.shared.chain.Stored (minedBlock 'a' "0" loan) ∧
    ¬ NotIncluded s.shared.chain (unminedBlock (minedId 'a') loan) := by
  obtain ⟨T, hcall, hos, hwork, hT⟩ := loan_returns .debug
  obtain ⟨T', hcall', -, -, hT'⟩ := spend_returns hT hos
  have hnot : loan.1 ∉ [spend.1] := fun hmem =>
    absurd (congrArg Transaction.sender (List.mem_singleton.mp hmem)) (by decide)
  have hstored : T'.Stored (minedBlock 'a' "0" loan) :=
    (extends_of_run hT.inv (Run.single hcall')).2.getBlock _ _ (hT.mem_line List.mem_cons_self).1
  have hrun := (run_refreshMoves payable_loan.signed genHash_loan).trans
    (receives (N := walletSetting) rfl hcall.1)
  have hworking := hrun.snoc (Nakamoto.Step.readWorking rfl)
  have hswitched := hworking.trans (receives (N := walletSetting) rfl hcall')
  have hexcluding := hswitched.snoc
    (Nakamoto.Step.readPending rfl (pending_of_tip hT' (by decide)))
  have hcreated := hexcluding.snoc (Nakamoto.Step.createPuzzle rfl (filterTx_poolWith hnot)
    (puzzleOf_single _ genHash_loan))
  refine ⟨_, _, new_eq, hcreated, ?_, hstored, fun hno => ?_⟩
  · rw [← hwork]
    rfl
  · exact hno loan.1 List.mem_cons_self _ hstored (.refl _) List.mem_cons_self

end NakamotoNode.Node
