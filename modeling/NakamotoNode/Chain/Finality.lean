import NakamotoNode.Chain.Chains

/-! # Finality

What is final stays final: along every run the finalized block only moves down, from a block to one
of its descendants (`Extends`). `Finality` of `Chain.Insertion` bounds where the rest of the tree
can be, and `Replayed` of `Chain.LedgerReplay` says what the finalized balances are. -/

namespace NakamotoNode.Chain
open Foundations Foundations.RustStd
set_option autoImplicit false

namespace BlockTree
variable {C : Crates} {profile : Profile} {T T' T₀ : BlockTree} {block : BlockNode}

/-- `T'` stores every block of `T`, and its finalized block is below that of `T`. -/
structure Extends (T T' : BlockTree) : Prop where
  rootId : T'.rootId = T.rootId
  getBlock : ∀ id b, T.getBlock id = some b → T'.getBlock id = some b
  final : T'.Descends T.finalizedBlockId T'.finalizedBlockId

namespace Extends

theorem refl (T : BlockTree) : Extends T T := ⟨rfl, fun _ _ h => h, .refl _⟩

theorem descends (h : Extends T T') {a id : BlockId} (hd : T.Descends a id) :
    T'.Descends a id := by
  refine Forest.Descends.mono (fun x p hp => ?_) hd
  rw [parentOf] at hp ⊢
  rw [h.rootId]
  split at hp
  · exact absurd hp (by simp)
  · next hx =>
    obtain ⟨b, hb, rfl⟩ := Option.map_eq_some_iff.mp hp
    rw [if_neg hx, h.getBlock x b hb]
    rfl

theorem trans (h₁ : Extends T₀ T) (h₂ : Extends T T') : Extends T₀ T' where
  rootId := h₂.rootId.trans h₁.rootId
  getBlock := fun id b hb => h₂.getBlock id b (h₁.getBlock id b hb)
  final := Forest.Descends.trans (h₂.descends h₁.final) h₂.final

end Extends

theorem Inserted.extends (h : Inserted C profile T block T')
    (hfresh : block.header.blockId ∉ T.allBlocks) : Extends T T' where
  rootId := h.rootId
  getBlock := fun id b hb => by
    have hne : id ≠ block.header.blockId := fun he => hfresh (he ▸ mem_of_getBlock hb)
    rw [h.getBlock, getBlock_graft_of_ne hne, hb]
  final := h.final_descends

theorem keeps_extends (T₀ : BlockTree) (leadingZeroLen : ℕ) :
    Keeps C profile leadingZeroLen (fun _ _ => True) (Extends T₀) where
  insert := fun _ hI hacc _ hins => hI.trans (hins.extends hacc.fresh)
  orphans := fun _ hI => ⟨hI.rootId, hI.getBlock, hI.final⟩

theorem extends_of_run {calls : List Call} (hT : Inv T)
    (hrun : Run (Returns C profile) T calls T') : Inv T' ∧ Extends T T' := by
  refine hrun.invariant (I := fun T' => Inv T' ∧ Extends T T') ?_ ⟨hT, .refl T⟩
  rintro T₁ call T₂ ⟨hT₁, hI⟩ hcall
  exact returns_keeps (keeps_extends T _) (returnsWith_true hcall) hT₁ hI

end BlockTree

/-- The finalized block of a reachable tree is an ancestor of the finalized block after any further
calls. The working block is below the finalized one, strictly so once something is final; the
blocks below the finalized one are at most six deeper, and once something is final one of them is
exactly six deeper. -/
theorem finality {C : Crates} {profile : Profile} {T T' : BlockTree} {calls : List Call}
    (hT : Reachable C profile T) (hrun : Run (Returns C profile) T calls T') :
    T'.Descends T.finalizedBlockId T'.finalizedBlockId ∧
    T'.finalizedBlockId ∈ T'.allBlocks ∧ T'.workingBlockId ∈ T'.allBlocks ∧
    T'.Descends T'.finalizedBlockId T'.workingBlockId ∧
    (T'.finalizedBlockId ≠ T'.rootId → T'.workingBlockId ≠ T'.finalizedBlockId) ∧
    (∀ id ∈ T'.allBlocks, T'.Descends T'.finalizedBlockId id →
      T'.depthOf id ≤ T'.depthOf T'.finalizedBlockId + 6) ∧
    (0 < T'.depthOf T'.finalizedBlockId → ∃ id ∈ T'.allBlocks,
      T'.Descends T'.finalizedBlockId id ∧
      T'.depthOf id = T'.depthOf T'.finalizedBlockId + 6) := by
  obtain ⟨hT', hext⟩ := BlockTree.extends_of_run hT.inv hrun
  have hfin := hT'.final
  refine ⟨hext.final, hfin.final_mem, hfin.working_mem, hfin.working_below, ?_, hfin.depth_le,
    fun hpos => hfin.depth_eq ?_⟩
  · rw [hT'.shape.root_id]
    exact hfin.working_ne
  · intro he
    rw [he, hT'.shape.depthOf_root] at hpos
    exact absurd hpos (Nat.lt_irrefl 0)

theorem finality_settledChain : ∃ T : BlockTree, T.finalizedBlockId = minedId 'a' ∧
    T.Descends "0" (minedId 'a') ∧ T.workingBlockId ≠ minedId 'a' ∧
    ∃ id ∈ T.allBlocks, T.Descends (minedId 'a') id ∧
      T.depthOf id = T.depthOf (minedId 'a') + 6 := by
  obtain ⟨T, hrun, hT, -, hfin, hbranch⟩ := BlockTree.settledChain_run .debug
  have hdepth := BlockTree.length_branch hT.inv.shape hT.inv.final.final_mem
  rw [hbranch, hfin] at hdepth
  obtain ⟨hfinal, -, -, -, hne, -, hdeep⟩ := finality reachable_genesisTree
    (run_of_returnsWith hrun)
  rw [hfin] at hfinal hne hdeep
  refine ⟨T, hfin, hfinal, hne ?_, hdeep (hdepth ▸ Nat.one_pos)⟩
  rw [hT.inv.shape.root_id]
  decide

/-- In a reachable tree of a debug build, where no balance has overflowed: the finalized balance of
a user is the genesis credit and, for each block from the root to the finalized one, what its
transactions bring minus what they take and the reward of 10; all balances together are the genesis
amount and 10 per finalized block; the finalized ids are those of the transactions of these
blocks. The amounts in question are those the messages state. -/
theorem finalized_ledger_eq_replay {C : Crates} {T : BlockTree} (h : Reachable C .debug T) :
    (∀ u, T.finalizedBalanceMap.balance u = genesisCredit u +
      ((T.branch T.finalizedBlockId).map fun b => b.flow u + b.reward u).sum) ∧
    T.finalizedBalanceMap.total = 299792458 + 10 * T.depthOf T.finalizedBlockId ∧
    (∀ id, id ∈ T.finalizedTxIds ↔
      ∃ b ∈ T.branch T.finalizedBlockId, ∃ tx ∈ b.txs, tx.genHash C = id) ∧
    (∀ b, b ∈ T.branch T.finalizedBlockId ↔ T.Stored b ∧ b.header.blockId ≠ T.rootId ∧
      T.Descends b.header.blockId T.finalizedBlockId) ∧
    (T.branch T.finalizedBlockId).length = T.depthOf T.finalizedBlockId ∧
    ∀ b ∈ T.branch T.finalizedBlockId, ∀ tx ∈ b.txs, extractAmount tx.message = .ok tx.amount := by
  have hT := h.inv
  have hI := BlockTree.replayed_of_reachable h
  have hmem : ∀ b, b ∈ T.branch T.finalizedBlockId ↔ T.Stored b ∧
      b.header.blockId ≠ T.rootId ∧ T.Descends b.header.blockId T.finalizedBlockId := by
    intro b
    rw [hT.shape.root_id]
    exact BlockTree.mem_branch hT.shape
  refine ⟨hI.balance, hI.total, fun id => ?_, hmem, ?_, fun b hb tx htx => ?_⟩
  · rw [hI.txIds, BlockTree.branchTxs]
    simp only [List.mem_toFinset, List.mem_map, List.mem_flatMap]
    constructor
    · rintro ⟨tx, ⟨b, hb, htx⟩, rfl⟩
      exact ⟨b, hb, tx, htx, rfl⟩
    · rintro ⟨b, hb, tx, htx, rfl⟩
      exact ⟨tx, ⟨b, hb, htx⟩, rfl⟩
  · exact BlockTree.length_branch hT.shape hT.final.final_mem
  · obtain ⟨hst, hid, -⟩ := (hmem b).mp hb
    rw [hT.shape.root_id] at hid
    exact (h.parses hst hid tx htx).amount_eq

/-- In the tree of the settled chain Bob owns his loan. -/
theorem finalized_ledger_eq_replay_settledChain : ∃ T : BlockTree,
    T.finalizedBlockId = minedId 'a' ∧ T.finalizedBalanceMap.balance bob = 100 ∧
    T.finalizedBalanceMap.total = 299792468 := by
  obtain ⟨T, hrun, hT, -, hfin, hbranch⟩ := BlockTree.settledChain_run .debug
  obtain ⟨hbal, htotal, -, -, hlen, -⟩ :=
    finalized_ledger_eq_replay (reachable_iff.mpr ⟨_, run_of_returnsWith hrun⟩)
  rw [hbranch] at hlen
  refine ⟨T, hfin, ?_, ?_⟩
  · rw [hbal bob, hbranch, bob_after, flow_loan]
  · rw [htotal, ← hlen]
    rfl

end NakamotoNode.Chain
