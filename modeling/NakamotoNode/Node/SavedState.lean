import NakamotoNode.Node.Refresh

/-! # The saved state

A node saves its state by cloning the chain under its lock, then the pool under its own. The saved
pair is the chain of one state and the pool of a later one. `saved_state_consistent_iff` says when the
pool's last finalized block is one that the saved chain has finalized; `saved_state_inconsistent` is a
run where it is not, and where the restarted node panics. -/

namespace NakamotoNode.Node
open Foundations Foundations.RustStd Chain Chain.BlockTree
set_option autoImplicit false

variable {C : Crates} {profile : Profile} {s s₁ s₂ : Shared} {events later : List Event}

theorem id_of_branch_eq_cons {T : BlockTree} (hT : Shape T) {id : BlockId} {b : BlockNode}
    {l : List BlockNode} (h : T.branch id = b :: l) (hid : id ∈ T.allBlocks) :
    b.header.blockId = id := by
  obtain ⟨c, hc⟩ := mem_allBlocks_iff.mp hid
  by_cases hroot : id = "0"
  · rw [hroot, branch_root hT] at h
    exact absurd h (by simp)
  · rw [branch_of_parent hT hc hroot] at h
    obtain ⟨rfl, -⟩ := List.cons.inj h
    exact (hT.stored_of_getBlock hc).1

/-- The pool stands where it stood, or at the last block it was handed since. -/
theorem Follows.last_cases (h₁ : Follows C events s₁) (h₂ : Follows C (events ++ later) s₂)
    (hext : Extends s₁.chain s₂.chain) :
    s₂.txPool.lastFinalizedBlockId = s₁.txPool.lastFinalizedBlockId ∨
      ∃ b ∈ handed later, b.header.blockId = s₂.txPool.lastFinalizedBlockId := by
  have hshape := h₂.chain.shape
  have hhanded := h₂.path
  rw [handed_append] at hhanded
  rcases List.eq_nil_or_concat (handed later) with hnil | ⟨l, b, hl⟩
  · -- two blocks on one path at one depth
    rw [hnil, List.append_nil, h₁.path, List.reverse_inj,
      ← hext.branch_eq h₁.chain.shape hshape h₁.last_mem] at hhanded
    have hlen := congrArg List.length hhanded
    rw [length_branch hshape (hext.mem h₁.last_mem), length_branch hshape h₂.last_mem] at hlen
    exact .inl (hshape.graded.unique h₂.last ((hext.descends h₁.last).trans hext.final) hlen.symm)
  · rw [List.concat_eq_append] at hl
    refine .inr ⟨b, by rw [hl]; exact List.mem_concat_self, ?_⟩
    rw [hl, ← List.append_assoc] at hhanded
    have hbranch := congrArg List.reverse hhanded
    rw [List.reverse_reverse, List.reverse_append] at hbranch
    exact id_of_branch_eq_cons hshape hbranch.symm h₂.last_mem

/-- Where the chain is cloned in one state and the pool in a later one: the pool's last finalized block
is the finalized block of the cloned chain or an ancestor of it exactly when every block that was
handed to the pool in between is. Then the restarted node gets an answer from the chain; otherwise it
panics, if the cloned chain stores the block at all. -/
theorem saved_state_consistent_iff {s₀ : Shared} (h₀ : Shared.new = .ok s₀)
    (hrun : Run (Step C profile) s₀ events s₁) (hlater : Run (Step C profile) s₁ later s₂) :
    (s₁.chain.Descends s₂.txPool.lastFinalizedBlockId s₁.chain.finalizedBlockId ↔
      ∀ finalizedBlocks, Event.removeTxs finalizedBlocks ∈ later → ∀ b ∈ finalizedBlocks,
        s₁.chain.Descends b.header.blockId s₁.chain.finalizedBlockId) ∧
    (s₁.chain.Descends s₂.txPool.lastFinalizedBlockId s₁.chain.finalizedBlockId →
      s₁.chain.AnswersSince s₂.txPool.lastFinalizedBlockId) ∧
    (¬ s₁.chain.Descends s₂.txPool.lastFinalizedBlockId s₁.chain.finalizedBlockId →
      s₂.txPool.lastFinalizedBlockId ∈ s₁.chain.allBlocks → ∀ fuel,
      s₁.chain.getFinalizedBlocksSince s₂.txPool.lastFinalizedBlockId fuel =
        Exec.panic .notFinalized) := by
  have h₁ := follows_of_run h₀ hrun
  have h₂ := h₁.run hlater
  have hext := h₁.extends hlater
  have hshape := h₁.chain.shape
  refine ⟨⟨fun hlast finalizedBlocks hmem b hb => ?_, fun hall => ?_⟩,
    answersSince h₁.chain, fun hnot hmem => getFinalizedBlocksSince_panics h₁.chain hmem ?_⟩
  · -- what was handed over is on the path to the pool's last finalized block
    have hhanded : b ∈ handed (events ++ later) := by
      rw [handed_append]
      exact List.mem_append_right _ (List.mem_flatMap.mpr ⟨_, hmem, hb⟩)
    rw [h₂.path, List.mem_reverse, mem_branch h₂.chain.shape] at hhanded
    have hstored := hshape.mem_of_descends h₁.chain.final.final_mem hlast
    exact ((hext.descends_iff hshape hstored).mp hhanded.2.2).trans hlast
  · rcases h₁.last_cases h₂ hext with heq | ⟨b, hb, heq⟩
    · rw [heq]
      exact h₁.last
    · obtain ⟨e, he, hb⟩ := List.mem_flatMap.mp hb
      rw [← heq]
      cases e with
      | removeTxs finalizedBlocks => exact hall finalizedBlocks he b hb
      | _ => exact absurd hb List.not_mem_nil
  · -- both are on the path to the block that is final in the end
    have hold := hext.descends_iff (a := s₁.chain.finalizedBlockId) hshape hmem
    rcases Forest.Descends.total hext.final h₂.last with hbelow | habove
    · refine lt_of_le_of_ne (hshape.graded.le (hold.mp hbelow)) fun heq => hnot ?_
      rw [hshape.graded.eq_of_le (hold.mp hbelow) heq.ge]
      exact .refl _
    · exact absurd ((hext.descends_iff hshape h₁.chain.final.final_mem).mp habove) hnot

/-- A refresh between the two clones that hands over what the cloned chain has finalized. -/
theorem saved_state_consistent_settledChain : ∃ s₁ s₂ : Shared,
    s₁.chain.finalizedBlockId = minedId 'a' ∧ s₂.txPool.lastFinalizedBlockId = minedId 'a' ∧
    s₁.txPool.lastFinalizedBlockId = "0" ∧ s₁.chain.AnswersSince s₂.txPool.lastFinalizedBlockId := by
  obtain ⟨T, hrun, -, -, hfin, -⟩ := settledChain_run .debug
  have hrunT := run_addBlocks (run_of_returnsWith hrun) TxPool.new .idle
  have hT := follows_of_run Shared.new_eq hrunT
  obtain ⟨t₁, t₂, hsince, hread, hremove⟩ := hT.refreshes .debug rfl
  obtain ⟨hiff, hanswers, -⟩ := saved_state_consistent_iff Shared.new_eq hrunT
    (((Run.single hsince).snoc hread).snoc hremove)
  refine ⟨_, _, hfin, (hT.last_removeTxs hT.last).trans hfin, rfl, hanswers (hiff.mpr ?_)⟩
  intro finalizedBlocks hmem b hb
  obtain rfl : finalizedBlocks = _ := by simpa using hmem
  have hb := mem_branch_of_mem_segment hT.chain.shape hT.last (List.mem_reverse.mp hb)
  exact ((mem_branch hT.chain.shape).mp hb).2.2

/-- The block with the loan becomes final, and is removed from the pool, after the chain is cloned. -/
theorem saved_state_inconsistent : ∃ (s₀ s₁ s₂ : Shared) (events later : List Event),
    Shared.new = .ok s₀ ∧ Run (Step walletCrates .debug) s₀ events s₁ ∧
    Run (Step walletCrates .debug) s₁ later s₂ ∧ s₁.chain.finalizedBlockId = "0" ∧
    s₂.txPool.lastFinalizedBlockId = minedId 'a' ∧
    ¬ s₁.chain.Descends (minedId 'a') s₁.chain.finalizedBlockId ∧
    ∀ fuel, s₁.chain.getFinalizedBlocksSince (minedId 'a') fuel = Exec.panic .notFinalized := by
  obtain ⟨T, T', hrun, hroot, hcall, -, -, hfin, -, hstored⟩ := payments_finalize .debug
    'a' 'A' 'B' 'C' 'D' 'E' 'F' payable_loan (by decide) (by decide) (by decide)
  have hrunT := run_addBlocks (run_of_returnsWith hrun) TxPool.new .idle
  have hadd : Step walletCrates .debug ⟨T, TxPool.new, .idle⟩
      (.addBlock ⟨minedBlock 'F' (minedId 'E') (payment 5), 0, asStored⟩) ⟨T', TxPool.new, .idle⟩ :=
    .addBlock hcall.1
  have hT := follows_of_run Shared.new_eq hrunT
  have hT' := hT.step hadd
  obtain ⟨t₁, t₂, hsince, hread, hremove⟩ := hT'.refreshes .debug rfl
  have hlast := hT'.last_removeTxs hT'.last
  have hdeep := hT.chain.shape.depth_succ _ _ hstored (by decide)
  rw [show (minedBlock 'a' "0" loan).header.parent = "0" from rfl, hT.chain.shape.depthOf_root]
    at hdeep
  refine ⟨_, _, _, _, _, Shared.new_eq, hrunT,
    (((Run.single hadd).snoc hsince).snoc hread).snoc hremove, hroot, hlast.trans hfin, ?_, ?_⟩
  · rw [hroot]
    exact fun hdesc => absurd (hT.chain.shape.eq_root_of_descends hdesc) (by decide)
  · refine getFinalizedBlocksSince_panics hT.chain (Shape.stored_mem hstored) ?_
    have hid : minedId 'a' = (minedBlock 'a' "0" loan).header.blockId := rfl
    rw [hroot, hT.chain.shape.depthOf_root, hid, hdeep]
    exact Nat.one_pos

end NakamotoNode.Node
