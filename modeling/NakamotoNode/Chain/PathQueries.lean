import NakamotoNode.Chain.FinalizedBlocks
import NakamotoNode.Chain.AllOrNothing

/-! # What the two walks return

`get_finalized_blocks_since` goes from the finalized block up to a given one, and
`get_pending_finalization_txs` from the working block up to the finalized one. The lists are those of the
segments between (`PathTo`), so that both together miss no block of the longest chain and take none
twice (`path_queries_exact`). -/

namespace NakamotoNode.Chain
open Foundations Foundations.RustStd
set_option autoImplicit false

namespace BlockTree

/-- The blocks strictly below `a` down to `id`, each once, the oldest first. -/
structure PathTo (T : BlockTree) (a id : BlockId) (blocks : List BlockNode) : Prop where
  mem : ∀ b, b ∈ blocks ↔ T.Stored b ∧ b.header.blockId ≠ a ∧ T.Descends a b.header.blockId ∧
    T.Descends b.header.blockId id
  nodup : blocks.Nodup
  isPath : IsPath a blocks

variable {C : Crates} {profile : Profile} {T : BlockTree} {a id : BlockId}

/-! ## Segments -/

theorem mem_segment (hT : Shape T) (hdesc : T.Descends a id) {b : BlockNode} :
    b ∈ T.segment a id ↔ T.Stored b ∧ b.header.blockId ≠ a ∧ T.Descends a b.header.blockId ∧
      T.Descends b.header.blockId id := by
  induction hdesc using Relation.ReflTransGen.head_induction_on with
  | refl =>
    rw [segment_self]
    refine iff_of_false List.not_mem_nil fun ⟨_, hne, hab, hba⟩ => ?_
    exact hne (hT.graded.eq_of_le hab (hT.graded.le hba))
  | @head x p hp hpa ih =>
    obtain ⟨hroot, c, hc, rfl⟩ := hT.parentOf_eq_some.mp hp
    obtain ⟨hid, hst⟩ := hT.stored_of_getBlock hc
    have hax : T.Descends a x := .step hp hpa
    have hne : c.header.blockId ≠ a := by
      intro he
      have hdepth := hT.graded _ _ hp
      have hle := hT.graded.le hpa
      rw [← hid, he] at hdepth
      omega
    have hstep : T.Descends b.header.blockId x ↔
        x = b.header.blockId ∨ T.Descends b.header.blockId c.header.parent :=
      Forest.descends_iff_of_parent hp
    rw [segment_of_parent hT hc hroot (hT.graded.le hpa), List.mem_cons, ih, hstep]
    constructor
    · rintro (rfl | ⟨hb, hba, hab, hbp⟩)
      · exact ⟨hst, hne, by rw [hid]; exact hax, .inl hid.symm⟩
      · exact ⟨hb, hba, hab, .inr hbp⟩
    · rintro ⟨hb, hba, hab, hself | hbp⟩
      · rw [Stored, ← hself, hc] at hb
        exact .inl (Option.some.inj hb).symm
      · exact .inr ⟨hb, hba, hab, hbp⟩

theorem isPath_segment (hT : Shape T) (hdesc : T.Descends a id) :
    IsPath a (T.segment a id).reverse := by
  induction hdesc using Relation.ReflTransGen.head_induction_on with
  | refl =>
    rw [segment_self]
    trivial
  | @head x p hp hpa ih =>
    obtain ⟨hroot, c, hc, rfl⟩ := hT.parentOf_eq_some.mp hp
    rw [segment_of_parent hT hc hroot (hT.graded.le hpa), List.reverse_cons]
    -- the parent is `a`, or the last block of the path so far
    rcases segment_cases hT hpa with ⟨ha, hnil⟩ | ⟨b, l, hcons, hid⟩
    · rw [hnil]
      exact ⟨ha, trivial⟩
    · rw [hcons, List.reverse_cons] at ih ⊢
      rw [List.append_assoc, List.singleton_append, isPath_append_cons]
      exact ⟨ih, hid.symm, trivial⟩

theorem pathTo_segment (hT : Shape T) (hid : id ∈ T.allBlocks) (hdesc : T.Descends a id) :
    PathTo T a id (T.segment a id).reverse where
  mem := fun b => List.mem_reverse.trans (mem_segment hT hdesc)
  nodup := by
    have hnodup := branch_nodup hT hid
    rw [branch_eq_segment_append hT hdesc] at hnodup
    exact List.nodup_reverse.mpr hnodup.of_append_left
  isPath := isPath_segment hT hdesc

end BlockTree

open BlockTree

/-- For a reachable tree: with enough fuel, and never with a panic, the one query returns for each block
above the finalized one, or that itself, the path from there to it, and the other the transactions on the
path from it to the working block, this first. Those of the path from the root, and the pending ones, are
together those of the path from the root to the working block. -/
theorem path_queries_exact {C : Crates} {profile : Profile} {T : BlockTree}
    (hT : Reachable C profile T) :
    (∀ s, T.Descends s T.finalizedBlockId → ∃ fBlocks, PathTo T s T.finalizedBlockId fBlocks ∧
      (∀ fuel e, T.getFinalizedBlocksSince s fuel ≠ Exec.panic e) ∧
      ∃ n, ∀ fuel, n ≤ fuel → T.getFinalizedBlocksSince s fuel = .ok fBlocks) ∧
    (∃ blocks, PathTo T T.finalizedBlockId T.workingBlockId blocks ∧
      (∀ fuel e, T.getPendingFinalizationTxs fuel ≠ Exec.panic e) ∧
      ∃ n, ∀ fuel, n ≤ fuel →
        T.getPendingFinalizationTxs fuel = .ok (blocks.reverse.flatMap BlockNode.txs)) ∧
    ∃ chain, PathTo T T.rootId T.workingBlockId chain ∧ ∀ m n fBlocks pending,
      T.getFinalizedBlocksSince T.rootId m = .ok fBlocks →
      T.getPendingFinalizationTxs n = .ok pending →
        (fBlocks.flatMap BlockNode.txs ++ pending).Perm (chain.flatMap BlockNode.txs) := by
  have hinv := hT.inv
  have hshape := hinv.shape
  have hfinal := hinv.final
  refine ⟨fun s hdesc => ?_, ?_, ?_⟩
  · refine ⟨_, pathTo_segment hshape hfinal.final_mem hdesc, fun fuel e he =>
      (getFinalizedBlocksSince_sat hinv hdesc fuel).of_panic he,
      T.depthOf T.finalizedBlockId + 1, fun fuel hfuel => ?_⟩
    obtain ⟨fBlocks, hok, rfl⟩ := (getFinalizedBlocksSince_sat hinv hdesc fuel).exists_ok
      (getFinalizedBlocksSince_ne_outOfFuel hinv hdesc hfuel)
    exact hok
  · refine ⟨_, pathTo_segment hshape hfinal.working_mem hfinal.working_below, fun fuel e he =>
      (getPendingFinalizationTxs_sat hshape hfinal.working_mem hfinal.working_below
        fuel).of_panic he, T.depthOf T.workingBlockId + 1, fun fuel hfuel => ?_⟩
    rw [List.reverse_reverse]
    exact getPendingFinalizationTxs_eq hinv hfuel
  · have hroot := hshape.root_id
    have hworking := hshape.descends_root hfinal.working_mem
    have hfinalized := hshape.descends_root hfinal.final_mem
    rw [hroot]
    refine ⟨_, pathTo_segment hshape hfinal.working_mem hworking, fun m n fBlocks pending hf hp => ?_⟩
    obtain rfl := (getFinalizedBlocksSince_eq_ok_iff hinv hfinalized).mp ⟨m, hf⟩
    obtain rfl := (getPendingFinalizationTxs_sat hshape hfinal.working_mem hfinal.working_below
      n).of_ok hp
    -- the branch of the working block goes through the finalized one
    rw [segment_root hshape, segment_root hshape,
      branch_eq_segment_append hshape hfinal.working_below, List.reverse_append,
      List.flatMap_append]
    exact ((List.reverse_perm _).symm.flatMap_right BlockNode.txs).append_left _

theorem path_queries_exact_settledChain : ∃ T, Reachable walletCrates .debug T ∧
    T.finalizedBlockId = minedId 'a' ∧ T.workingBlockId = minedId 'F' ∧
    (∃ n fBlocks, PathTo T "0" (minedId 'a') fBlocks ∧
      T.getFinalizedBlocksSince "0" n = .ok fBlocks) ∧
    ∃ n blocks, PathTo T (minedId 'a') (minedId 'F') blocks ∧
      T.getPendingFinalizationTxs n = .ok (blocks.reverse.flatMap BlockNode.txs) := by
  obtain ⟨T, hrun, hT, -, hfin, -⟩ := settledChain_run .debug
  have hreach : Reachable walletCrates .debug T := reachable_iff.mpr ⟨_, run_of_returnsWith hrun⟩
  have hwork : T.workingBlockId = minedId 'F' := hT.working_eq_head rfl
  obtain ⟨hsince, ⟨blocks, hblocks, -, n, hpending⟩, -⟩ := path_queries_exact hreach
  obtain ⟨fBlocks, hfinal, -, m, hfblocks⟩ :=
    hsince "0" (hT.inv.shape.descends_root hT.inv.final.final_mem)
  rw [hfin, hwork] at hblocks
  rw [hfin] at hfinal
  exact ⟨T, hreach, hfin, hwork, ⟨m, fBlocks, hfinal, hfblocks m le_rfl⟩,
    n, blocks, hblocks, hpending n le_rfl⟩

end NakamotoNode.Chain
