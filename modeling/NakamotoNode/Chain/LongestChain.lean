import NakamotoNode.Chain.Chains

/-! # The longest chain

`update_blocktree` makes the greatest id among the children of the new block's parent the working
block, whatever its depth. So the working block is a deepest block in the runs where no block is
inserted above the level of the working block. -/

namespace NakamotoNode.Chain
open Foundations Foundations.RustStd
set_option autoImplicit false

namespace BlockTree

/-- No block is deeper than the working block. -/
def Longest (T : BlockTree) : Prop := ∀ id ∈ T.allBlocks, T.depthOf id ≤ T.depthOf T.workingBlockId

/-- The new block is at least as deep as the working block. -/
def NotShallower (T : BlockTree) (block : BlockNode) : Prop :=
  T.depthOf T.workingBlockId ≤ T.depthOf block.header.parent + 1

variable {C : Crates} {profile : Profile} {leadingZeroLen : ℕ} {T T' : BlockTree}
  {block : BlockNode}

theorem notShallower_of_extendsWorking (h : ExtendsWorking T block) : NotShallower T block := by
  rw [NotShallower, h]
  exact Nat.le_succ _

theorem Inserted.depthOf_working (h : Inserted C profile T block T') (hT : Shape T)
    (hacc : Accepts C profile leadingZeroLen T block) :
    T'.depthOf T'.workingBlockId = T.depthOf block.header.parent + 1 := by
  have hshape := h.shape hT hacc.fresh hacc.parent_mem
  rw [hshape.graded _ _ (h.parentOf_working hT hacc.fresh hacc.parent_mem),
    h.depthOf_old hacc.fresh hacc.parent_mem]

theorem keeps_longest (leadingZeroLen : ℕ) :
    Keeps C profile leadingZeroLen NotShallower Longest where
  insert := fun {T block T'} hT hI hacc hG hins id hid => by
    have hwork := hins.depthOf_working hT.shape hacc
    rw [hwork]
    rcases hins.mem_allBlocks.mp hid with rfl | hid
    · rw [hins.depthOf_leaf]
    · rw [hins.depthOf_old hacc.fresh hid]
      exact (hI id hid).trans hG
  orphans := fun _ hI => hI

theorem longest_genesisTree : Longest genesisTree := by
  intro id hid
  obtain ⟨b, hb⟩ := mem_allBlocks_iff.mp hid
  obtain ⟨rfl, -⟩ := getBlock_genesisTree hb
  exact Nat.le_refl _

end BlockTree

open BlockTree

/-- In every run in which each inserted block is at least as deep as the working block of its time,
the working block is a deepest block of the tree. -/
theorem working_block_deepest {C : Crates} {profile : Profile} {calls : List Call} {T : BlockTree}
    (hrun : Run (ReturnsWith C profile NotShallower) genesisTree calls T) :
    T.workingBlockId ∈ T.allBlocks ∧
      ∀ id ∈ T.allBlocks, T.depthOf id ≤ T.depthOf T.workingBlockId := by
  obtain ⟨hT, hI⟩ := run_with_keeps hrun (fun _ _ => keeps_longest _) longest_genesisTree
  exact ⟨hT.final.working_mem, hI⟩

theorem working_block_deepest_settledChain : ∃ T : BlockTree, T.finalizedBlockId = minedId 'a' ∧
    ∀ id ∈ T.allBlocks, T.depthOf id ≤ T.depthOf T.workingBlockId := by
  obtain ⟨T, hrun, -, -, hfin, -⟩ := settledChain_run .debug
  exact ⟨T, hfin, (working_block_deepest
    (hrun.mono fun _ _ _ h => h.mono fun _ _ => notShallower_of_extendsWorking)).2⟩

/-- Two blocks below each other, and a third below the genesis block: the working block moves up. -/
theorem working_block_moves_up : ∃ T T',
    Run (Returns walletCrates .debug) genesisTree
      (delivery (minedChain "0" [('a', loan), ('s', payment 0)])) T ∧
    Returns walletCrates .debug T ⟨minedBlock 'u' "0" (payment 1), 0, asStored⟩ T' ∧
    T.depthOf T.workingBlockId = 2 ∧ T'.depthOf T'.workingBlockId = 1 ∧
    ∃ id ∈ T'.allBlocks, T'.depthOf id = 2 := by
  obtain ⟨T, hrun, hos, hT⟩ := minedChain_run .debug
    [('a', loan), ('s', payment 0)] (by decide)
    (by simp [payable_loan, payable_payment]; decide) (by decide) (by decide)
  have hdepth : T.depthOf T.workingBlockId = 2 := hT.depth_working
  have hfits : Fits walletCrates 0 1000 "0" (minedChain "0" [('a', loan), ('s', payment 0)]).reverse
      (minedBlock 'u' "0" (payment 1)) :=
    minedBlock_fits (by decide) (by decide) (payable_payment 1) (by decide) (by decide)
  have hgood := hT.good hfits hT.inv.shape.root_mem
    (.inl (hT.finalizedBlockId_eq_root (by decide))) (by decide)
  obtain ⟨T', hacc, hins, -, -, -, hcont⟩ :=
    inserted_of_good .debug hT.inv hT.modest hgood hT.replayed
  refine ⟨T, T', run_of_returnsWith hrun, ?_, hdepth, ?_, T.workingBlockId, ?_, ?_⟩
  · refine returns_of_continues hacc.fresh (by simp [hos]) hcont (fun id o ho => ?_) asStored
    rw [hins.orphans, hos] at ho
    exact absurd ho (by simp)
  · rw [hins.depthOf_working hT.inv.shape hacc]
    exact congrArg (· + 1) hT.inv.shape.depthOf_root
  · exact hins.mem_allBlocks.mpr (.inr hT.inv.final.working_mem)
  · rw [hins.depthOf_old hacc.fresh hT.inv.final.working_mem, hdepth]

end NakamotoNode.Chain
