import NakamotoNode.Chain.DeliveryOrder

/-! # Six confirmations

In a tree without forks all blocks are on the branch of one of them, the last. Then the finalized
blocks are all but the last six of this branch (`branch_final_of_line`), and a path that is part of the
way to its last block (`Partway`) is such a branch. -/

namespace NakamotoNode.Chain
open Foundations Foundations.RustStd
set_option autoImplicit false

namespace BlockTree
variable {C : Crates} {profile : Profile} {d : ℕ} {T Tn : BlockTree} {p : BlockId}
  {bs : List BlockNode}

/-- No block is beside the branch of `p`. -/
def Line (T : BlockTree) (p : BlockId) : Prop :=
  p ∈ T.allBlocks ∧ ∀ id ∈ T.allBlocks, T.Descends id p

theorem branch_final_of_line (hT : Inv T) (hp : T.Line p) :
    T.branch T.finalizedBlockId = (T.branch p).drop 6 := by
  have hfin := hT.final
  have hdesc := hp.2 _ hfin.final_mem
  have hdeep := hfin.depth_le p hp.1 hdesc
  have hlen := length_branch hT.shape hp.1
  by_cases hroot : T.finalizedBlockId = "0"
  · rw [hroot, hT.shape.depthOf_root] at hdeep
    rw [hroot, branch_root hT.shape, List.drop_eq_nil_of_le (by omega)]
  · obtain ⟨id, hid, -, hsix⟩ := hfin.depth_eq hroot
    have hle := hT.shape.graded.le (hp.2 id hid)
    have hseg := congrArg List.length (branch_eq_segment_append hT.shape hdesc)
    rw [List.length_append, hlen, length_branch hT.shape hfin.final_mem] at hseg
    rw [branch_eq_segment_append hT.shape hdesc,
      List.drop_left' (show (T.segment T.finalizedBlockId p).length = 6 by omega)]

/-! ## Paths -/

/-- The end of the path `bs` below `p`. -/
def lastId : BlockId → List BlockNode → BlockId
  | p, [] => p
  | _, b :: bs => lastId b.header.blockId bs

theorem lastId_cases (p : BlockId) (bs : List BlockNode) :
    lastId p bs = p ∨ ∃ b ∈ bs, lastId p bs = b.header.blockId := by
  induction bs generalizing p with
  | nil => exact .inl rfl
  | cons b bs ih =>
    refine .inr ((ih b.header.blockId).elim (fun he => ⟨b, by simp, he⟩) ?_)
    rintro ⟨c, hc, he⟩
    exact ⟨c, List.mem_cons_of_mem _ hc, he⟩

theorem branch_lastId (hT : Shape T) (hpath : IsPath p bs)
    (hst : ∀ b ∈ bs, T.Stored b ∧ b.header.blockId ≠ "0") :
    T.branch (lastId p bs) = bs.reverse ++ T.branch p := by
  induction bs generalizing p with
  | nil => rfl
  | cons b bs ih =>
    obtain ⟨hb, hroot⟩ := hst b List.mem_cons_self
    have hrest := ih hpath.2 fun c hc => hst c (List.mem_cons_of_mem _ hc)
    rw [branch_of_parent hT hb hroot, hpath.1] at hrest
    rw [lastId, hrest, List.reverse_cons, List.append_assoc]
    rfl

theorem isPath_of_append {bs' : List BlockNode} (h : IsPath p (bs ++ bs')) : IsPath p bs := by
  induction bs generalizing p with
  | nil => trivial
  | cons b bs ih => exact ⟨h.1, ih h.2⟩

section Partway
variable {chain seen done rest : List BlockNode} {calls : List Call}
  (h : Partway C profile d chain Tn seen done rest T)
  (hchain : Grows C profile d genesisTree chain Tn)
  (hrun : Run (Returns C profile) genesisTree calls T)
  (hcalls : ∀ call ∈ calls, call.block ∈ chain ∨ call.block.header.blockId = "0")
include h hchain

theorem Partway.mem_chain {b : BlockNode} (hb : b ∈ done) :
    b ∈ chain ∧ b.header.blockId ≠ "0" := by
  have hmem : b ∈ chain := by
    rw [← h.split]
    exact List.mem_append_left _ hb
  exact ⟨hmem, fun he => hchain.fresh inv_genesisTree b hmem (he ▸ inv_genesisTree.shape.root_mem)⟩

include hrun hcalls

/-- The blocks that are in the tree are those of `done`. -/
theorem Partway.stored_iff {b : BlockNode} :
    T.Stored b ↔ b = BlockNode.genesisBlock ∨ b ∈ done := by
  have hdone : ∀ b, T.Stored b → b.header.blockId ≠ "0" → b ∈ done := by
    intro b hb hroot
    rcases stored_delivered hrun hb with rfl | ⟨⟨call, hcall, rfl⟩, -⟩
    · exact absurd rfl hroot
    have hmem := (hcalls call hcall).resolve_right hroot
    rw [← h.split] at hmem
    exact (List.mem_append.mp hmem).resolve_right fun hrest =>
      h.grows.fresh h.inv _ hrest (mem_of_getBlock hb)
  constructor
  · intro hb
    by_cases hroot : b.header.blockId = "0"
    · exact .inl (h.inv.shape.stored_eq_genesis hb hroot)
    · exact .inr (hdone b hb hroot)
  · rintro (rfl | hb)
    · exact h.inv.shape.root_block
    obtain ⟨hmem, hroot⟩ := h.mem_chain hchain hb
    obtain ⟨b', hb'⟩ := mem_allBlocks_iff.mp (h.stored b hb).1
    obtain ⟨hid, hst⟩ := h.inv.shape.stored_of_getBlock hb'
    have hmem' := (h.mem_chain hchain (hdone b' hst (hid ▸ hroot))).1
    obtain rfl := List.inj_on_of_nodup_map (hchain.nodup inv_genesisTree) hmem' hmem hid
    exact hst

theorem Partway.branch_last (hpath : IsPath "0" chain) :
    T.branch (lastId "0" done) = done.reverse ∧ T.Line (lastId "0" done) := by
  have hshape := h.inv.shape
  have hst : ∀ b ∈ done, T.Stored b ∧ b.header.blockId ≠ "0" := fun b hb =>
    ⟨(h.stored_iff hchain hrun hcalls).mpr (.inr hb), (h.mem_chain hchain hb).2⟩
  have hbranch := branch_lastId hshape (isPath_of_append (h.split ▸ hpath)) hst
  rw [branch_root hshape, List.append_nil] at hbranch
  have hmem : lastId "0" done ∈ T.allBlocks := by
    rcases lastId_cases "0" done with he | ⟨b, hb, he⟩
    · rw [he]
      exact hshape.root_mem
    · rw [he]
      exact mem_of_getBlock (hst b hb).1
  refine ⟨hbranch, hmem, fun id hid => ?_⟩
  obtain ⟨b, hb⟩ := mem_allBlocks_iff.mp hid
  obtain ⟨rfl, hb⟩ := hshape.stored_of_getBlock hb
  rcases (h.stored_iff hchain hrun hcalls).mp hb with rfl | hb
  · exact hshape.descends_root hmem
  · rw [← List.mem_reverse, ← hbranch] at hb
    exact ((mem_branch hshape).mp hb).2.2

end Partway

theorem Tip.line {v : ℤ} {bs : List BlockNode} (h : Tip C v bs bs T) :
    T.Line T.workingBlockId := by
  refine ⟨h.inv.final.working_mem, fun id hid => ?_⟩
  obtain ⟨b, hb⟩ := mem_allBlocks_iff.mp hid
  obtain ⟨rfl, hst⟩ := h.inv.shape.stored_of_getBlock hb
  by_cases hroot : b.header.blockId = "0"
  · rw [hroot]
    exact h.inv.shape.descends_root h.inv.final.working_mem
  · exact (h.mem_line (h.stored b hst hroot)).2.2

end BlockTree

/-- In a reachable tree of a debug build that has no fork, a block is final once six blocks are below
it, and the finalized ledger is the replay of the blocks but the last six. -/
theorem confirmed_after_six {C : Crates} {T : BlockTree} {p : BlockId} (h : Reachable C .debug T)
    (hp : T.Line p) :
    T.branch T.finalizedBlockId = (T.branch p).drop 6 ∧
    (∀ u, T.finalizedBalanceMap.balance u = genesisCredit u +
      (((T.branch p).drop 6).map fun b => b.flow u + b.reward u).sum) ∧
    T.finalizedBalanceMap.total = 299792458 + 10 * (T.depthOf p - 6 : ℕ) := by
  have hbranch := BlockTree.branch_final_of_line h.inv hp
  have hI := BlockTree.replayed_of_reachable h
  refine ⟨hbranch, fun u => ?_, ?_⟩
  · rw [hI.balance, BlockTree.replay, hbranch]
  · have hlen := BlockTree.length_branch h.inv.shape h.inv.final.final_mem
    rw [hbranch, List.length_drop, BlockTree.length_branch h.inv.shape hp.1] at hlen
    rw [hI.total, ← hlen]

theorem confirmed_after_six_settledChain : ∃ T : BlockTree, T.Line T.workingBlockId ∧
    T.branch T.workingBlockId = BlockTree.settledChain.reverse ∧
    T.branch T.finalizedBlockId = BlockTree.settledChain.reverse.drop 6 := by
  obtain ⟨T, hrun, hT, -, -, -⟩ := BlockTree.settledChain_run .debug
  have hall := confirmed_after_six (reachable_iff.mpr ⟨_, run_of_returnsWith hrun⟩) hT.line
  exact ⟨T, hT.line, hT.branch, by rw [hall.1, hT.branch]⟩

end NakamotoNode.Chain
