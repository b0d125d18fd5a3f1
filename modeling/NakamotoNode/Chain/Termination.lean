import Mathlib.Data.Finset.Card
import Mathlib.Data.Finset.Lattice.Fold
import NakamotoNode.Chain.Chains

/-! # Does a call end?

The walks of `verify_block_ancestry` and `get_pending_finalization_txs` always end, and so does the
recursion over orphans: each adopted orphan is one waiting key less. The reward walk of
`verifiy_transactions_balance` ends just when the parent of the block is strictly below the
finalized block (or nothing is final yet); otherwise it passes the finalized block by and goes
round at the genesis block, which is its own parent. -/

namespace NakamotoNode.Chain
open Foundations Foundations.RustStd
set_option autoImplicit false

namespace BlockTree
variable {C : Crates} {profile : Profile} {leadingZeroLen : ℕ} {T T' : BlockTree}
  {block : BlockNode}

/-! ## No fuel is needed outside the walks -/

theorem allVerifySig_ne_outOfFuel (C : Crates) :
    ∀ txs : List Transaction, allVerifySig C txs ≠ Exec.outOfFuel
  | [] => Exec.ok_ne_outOfFuel _
  | tx :: txs => by
      refine Exec.bind_ne_outOfFuel (verifySig_ne_outOfFuel C tx) fun valid _ => ?_
      cases valid with
      | false => exact Exec.ok_ne_outOfFuel _
      | true => exact allVerifySig_ne_outOfFuel C txs

theorem verifyBlockIntegrity_ne_outOfFuel (C : Crates) (block : BlockNode) (leadingZeroLen : ℕ) :
    verifyBlockIntegrity C block leadingZeroLen ≠ Exec.outOfFuel :=
  Exec.bind_ne_outOfFuel (allVerifySig_ne_outOfFuel C _) fun _ _ => Exec.ok_ne_outOfFuel _

theorem finalizeBlock_ne_outOfFuel (T : BlockTree) (block : BlockNode) :
    finalizeBlock C profile T block ≠ Exec.outOfFuel := by
  refine Exec.bind_ne_outOfFuel (Exec.unwrap_ne_outOfFuel _ _) fun cs _ => ?_
  split
  · exact Exec.ok_ne_outOfFuel _
  · split
    · exact Exec.bind_ne_outOfFuel (finalizeTxs_ne_outOfFuel C _ _) fun _ _ =>
        Exec.bind_ne_outOfFuel (addBalance_ne_outOfFuel _ _ _) fun _ _ => Exec.ok_ne_outOfFuel _
    · exact Exec.ok_ne_outOfFuel _

theorem updateBlocktree_ne_outOfFuel (T : BlockTree) (block : BlockNode) :
    updateBlocktree C profile T block ≠ Exec.outOfFuel :=
  Exec.bind_ne_outOfFuel (Exec.unwrap_ne_outOfFuel _ _) fun _ _ =>
    Exec.bind_ne_outOfFuel (Exec.unwrap_ne_outOfFuel _ _) fun _ _ =>
      finalizeBlock_ne_outOfFuel _ _

theorem verifiyTransactionsBalance_ne_outOfFuel_of_walks {pb : BlockNode} {fuel : ℕ}
    (hpending : T.getPendingFinalizationTxs fuel ≠ Exec.outOfFuel)
    (hwalk : ∀ pending L, T.getPendingFinalizationTxs fuel = .ok pending →
      pending.foldlM (applyTx profile) T.finalizedBalanceMap = .ok L →
      addRewards profile T L pb fuel ≠ Exec.outOfFuel) :
    verifiyTransactionsBalance profile T block pb fuel ≠ Exec.outOfFuel := by
  refine Exec.bind_ne_outOfFuel hpending fun pending hp => ?_
  refine Exec.bind_ne_outOfFuel (Exec.foldlM_ne_outOfFuel pending _ fun tx L =>
    applyTx_ne_outOfFuel L tx) fun L hL => ?_
  refine Exec.bind_ne_outOfFuel (hwalk pending L hp hL) fun r _ => ?_
  refine Exec.bind_ne_outOfFuel (checkTxs_ne_outOfFuel _ _) fun checked _ => ?_
  cases checked with
  | none => exact Exec.ok_ne_outOfFuel _
  | some L₂ =>
    exact Exec.bind_ne_outOfFuel (addBalance_ne_outOfFuel _ _ _) fun _ _ => Exec.ok_ne_outOfFuel _

theorem verifiyTransactionsBalance_ne_outOfFuel (hT : Inv T) {pb : BlockNode} (hpb : T.Stored pb)
    (hbelow : T.BelowFinal pb.header.blockId) {d fuel : ℕ}
    (hd : ∀ id ∈ T.allBlocks, T.depthOf id ≤ d) (hfuel : d < fuel) :
    verifiyTransactionsBalance profile T block pb fuel ≠ Exec.outOfFuel := by
  have hwork := hd _ hT.final.working_mem
  have hpar := hd _ (Shape.stored_mem hpb)
  refine verifiyTransactionsBalance_ne_outOfFuel_of_walks ?_ fun _ L _ _ => ?_
  · exact getPendingFinalizationTxs_ne_outOfFuel hT.shape hT.final.working_below (by omega)
  · exact addRewards_ne_outOfFuel hT.shape hpb hbelow L (by omega)

/-! ## The recursion over orphans -/

/-- The orphans, `block` apart, whose id is not in the tree. -/
def waiting (T : BlockTree) (block : BlockNode) : Finset BlockId :=
  T.orphans.keys.toFinset.filter fun id => id ∉ T.allBlocks ∧ id ≠ block.header.blockId

theorem Inserted.waiting_lt (h : Inserted C profile T block T') {o : BlockNode}
    (ho : o.header.blockId ∈ T.orphans) (hfresh : o.header.blockId ∉ T'.allBlocks) :
    (T'.waiting o).card < (T.waiting block).card := by
  rw [h.mem_allBlocks, not_or] at hfresh
  refine Finset.card_lt_card (Finset.ssubset_iff_of_subset ?_ |>.mpr ?_)
  · intro id hid
    simp only [waiting, Finset.mem_filter, h.orphans, h.mem_allBlocks, not_or] at hid ⊢
    exact ⟨hid.1, hid.2.1.2, hid.2.1.1⟩
  · refine ⟨o.header.blockId, ?_, ?_⟩
    · simp only [waiting, Finset.mem_filter, List.mem_toFinset]
      exact ⟨ho, hfresh.2, hfresh.1⟩
    · simp [waiting]

/-- A block that passes the checks made before the reward walk has its parent where that walk
ends. -/
def WalkEnds (C : Crates) (T : BlockTree) (block : BlockNode) (leadingZeroLen : ℕ) : Prop :=
  block.header.blockId ∉ T.allBlocks →
  verifyBlockIntegrity C block leadingZeroLen = .ok true →
  ∀ pb, T.getBlock block.header.parent = some pb →
  (∃ fuel, T.verifyBlockAncestry block.header.merkleRoot pb fuel = .ok true) →
  T.BelowFinal block.header.parent

theorem Inserted.belowFinal (h : Inserted C profile T block T') (hT : Inv T)
    (hacc : Accepts C profile leadingZeroLen T block) : T'.BelowFinal block.header.blockId := by
  have hshape := h.shape hT.shape hacc.fresh hacc.parent_mem
  have hdesc : T'.Descends T'.finalizedBlockId block.header.blockId := by
    rcases h.final_cases with ⟨he, -⟩ | ⟨-, hdesc, -⟩
    · rw [he]
      exact (h.descends_leaf hT.shape hacc.fresh hacc.parent_mem).mpr
        (.inr ((hacc.belowFinal hT.shape).descends hT.shape hacc.parent_mem))
    · exact hdesc
  refine .inr ⟨hdesc, fun heq => ?_⟩
  rcases h.final_cases with ⟨he, -⟩ | ⟨hchild, -, hdepth⟩
  · exact hacc.fresh (heq.trans he ▸ hT.final.final_mem)
  · have h₁ := hshape.graded _ _ hchild
    have h₂ := h.depthOf_leaf
    rw [h.depthOf_old hacc.fresh hT.final.final_mem] at h₁
    rw [heq] at h₂
    omega

theorem addOrphanBlock_ne_outOfFuel_of_mem {fuel : ℕ} {order : IterOrder}
    (hmem : block.header.blockId ∈ T.allBlocks) :
    addOrphanBlock C profile (fuel + 1) order T block leadingZeroLen ≠ Exec.outOfFuel := by
  refine Exec.bind_ne_outOfFuel (verifyBlockIntegrity_ne_outOfFuel C block _) fun _ _ => ?_
  rw [if_pos (.inr (decide_eq_true hmem))]
  exact Exec.ok_ne_outOfFuel _

/-- The checks need as much fuel as the tree is deep; the rest depends on the orphan that waits. -/
theorem attachBlock_ne_outOfFuel (hT : Inv T) {d fuel : ℕ}
    (hd : ∀ id ∈ T.allBlocks, T.depthOf id ≤ d) (hfuel : d < fuel)
    (hwalk : WalkEnds C T block leadingZeroLen) (hfresh : block.header.blockId ∉ T.allBlocks)
    (hint : verifyBlockIntegrity C block leadingZeroLen = .ok true) {pb : BlockNode}
    (hpb : T.getBlock block.header.parent = some pb) {order : IterOrder}
    {addOrphan : BlockTree → BlockNode → Exec Panic BlockTree}
    (hrec : ∀ T₁ o, Accepts C profile leadingZeroLen T block → Inserted C profile T block T₁ →
      Inv T₁ → findOrphan order T₁ block.header.blockId = some o →
      addOrphan T₁ o ≠ Exec.outOfFuel) :
    attachBlock C profile order addOrphan T block pb fuel ≠ Exec.outOfFuel := by
  obtain ⟨hpid, hst⟩ := hT.shape.stored_of_getBlock hpb
  have hpd := hd _ (Shape.stored_mem hst)
  refine Exec.bind_ne_outOfFuel (verifyBlockAncestry_ne_outOfFuel hT.shape hst _ (by omega))
    fun noDuplicate hanc => ?_
  cases noDuplicate with
  | false => exact Exec.ok_ne_outOfFuel _
  | true =>
    have hbelow := hwalk hfresh hint pb hpb ⟨fuel, hanc⟩
    refine Exec.bind_ne_outOfFuel (verifiyTransactionsBalance_ne_outOfFuel hT hst
      (hpid ▸ hbelow) hd hfuel) fun sufficient hbal => ?_
    cases sufficient with
    | false => exact Exec.ok_ne_outOfFuel _
    | true =>
      have hacc : Accepts C profile leadingZeroLen T block :=
        ⟨hfresh, hint, pb, fuel, hpb, hanc, hbal⟩
      refine Exec.bind_ne_outOfFuel (updateBlocktree_ne_outOfFuel T block) fun T₁ hupd => ?_
      obtain ⟨hins, hT₁⟩ := hacc.inserted hT hupd
      cases hfind : findOrphan order T₁ block.header.blockId with
      | none => exact Exec.ok_ne_outOfFuel _
      | some o =>
        exact Exec.bind_ne_outOfFuel (hrec T₁ o hacc hins hT₁ hfind) fun _ _ =>
          Exec.ok_ne_outOfFuel _

theorem Inserted.depth_le_succ (h : Inserted C profile T block T')
    (hfresh : block.header.blockId ∉ T.allBlocks) (hparent : block.header.parent ∈ T.allBlocks)
    {d : ℕ} (hd : ∀ id ∈ T.allBlocks, T.depthOf id ≤ d) :
    ∀ id ∈ T'.allBlocks, T'.depthOf id ≤ d + 1 := by
  intro id hid
  rcases h.mem_allBlocks.mp hid with rfl | hid
  · rw [h.depthOf_leaf]
    exact Nat.succ_le_succ (hd _ hparent)
  · rw [h.depthOf_old hfresh hid]
    exact (hd id hid).trans (Nat.le_succ d)

/-- The depth of the tree, two rounds per waiting orphan and two more are enough. -/
theorem addOrphanBlock_ne_outOfFuel :
    ∀ {fuel : ℕ} {order : IterOrder} {T : BlockTree} {block : BlockNode} {d : ℕ}, Inv T →
      (∀ id ∈ T.allBlocks, T.depthOf id ≤ d) → d + 2 * (T.waiting block).card + 2 ≤ fuel →
      WalkEnds C T block leadingZeroLen →
      addOrphanBlock C profile fuel order T block leadingZeroLen ≠ Exec.outOfFuel
  | 0, _, _, _, _, _, _, hfuel, _ => absurd hfuel (by omega)
  | fuel + 1, order, T, block, d, hT, hd, hfuel, hwalk => by
      refine Exec.bind_ne_outOfFuel (verifyBlockIntegrity_ne_outOfFuel C block _)
        fun integrity hint => ?_
      split
      · exact Exec.ok_ne_outOfFuel _
      · next hyes =>
        obtain ⟨rfl, hfresh⟩ : integrity = true ∧ block.header.blockId ∉ T.allBlocks := by
          simpa using hyes
        cases hpb : T.getBlock block.header.parent with
        | none => exact Exec.ok_ne_outOfFuel _
        | some pb =>
          refine attachBlock_ne_outOfFuel hT hd (by omega) hwalk hfresh hint hpb
            fun T₁ o hacc hins hT₁ hfind => ?_
          obtain ⟨hwaits, key, ho⟩ := findOrphan_eq_some hfind
          by_cases hknown : o.header.blockId ∈ T₁.allBlocks
          · obtain ⟨k, rfl⟩ : ∃ k, fuel = k + 1 := ⟨fuel - 1, by omega⟩
            exact addOrphanBlock_ne_outOfFuel_of_mem hknown
          · -- one waiting key less, and the tree at most one level deeper
            have hkey := hT₁.shape.orphans_keyed key o ho
            rw [hins.orphans] at ho
            have hmem : o.header.blockId ∈ T.orphans := hkey ▸ mem_orphans_of_lookup ho
            have hlt := hins.waiting_lt hmem hknown
            refine addOrphanBlock_ne_outOfFuel hT₁
              (hins.depth_le_succ hfresh hacc.parent_mem hd) (by omega) fun _ _ _ _ _ => ?_
            rw [hwaits]
            exact hins.belowFinal hT hacc

theorem addOrphanBlock_ends (hT : Inv T) (hwalk : WalkEnds C T block leadingZeroLen)
    (order : IterOrder) : ∃ n,
      addOrphanBlock C profile (n + 1) order T block leadingZeroLen ≠ Exec.outOfFuel := by
  obtain ⟨d, hd⟩ : ∃ d, ∀ id ∈ T.allBlocks, T.depthOf id ≤ d :=
    ⟨T.allBlocks.keys.toFinset.sup T.depthOf, fun id hid =>
      Finset.le_sup (f := T.depthOf) (List.mem_toFinset.mpr hid)⟩
  exact ⟨d + 2 * (T.waiting block).card + 1, addOrphanBlock_ne_outOfFuel hT hd (by omega) hwalk⟩

/-! ## Walks that do not end -/

theorem verifiyTransactionsBalance_ne_ok (hT : Inv T) {pb : BlockNode} (hpb : T.Stored pb)
    (hbelow : ¬ T.BelowFinal pb.header.blockId) (fuel : ℕ) (r : Bool) :
    verifiyTransactionsBalance profile T block pb fuel ≠ .ok r := by
  intro h
  obtain ⟨pending, -, h⟩ := Exec.bind_eq_ok.mp h
  obtain ⟨L, -, h⟩ := Exec.bind_eq_ok.mp h
  obtain ⟨s, hwalk, -⟩ := Exec.bind_eq_ok.mp h
  exact hbelow ((addRewards_sat hT.shape hpb L fuel).of_ok hwalk)

theorem verifiyTransactionsBalance_release_eq_outOfFuel (hT : Reachable C .release T)
    {pb : BlockNode} (hpb : T.Stored pb) (hbelow : ¬ T.BelowFinal pb.header.blockId) (fuel : ℕ) :
    verifiyTransactionsBalance .release T block pb fuel = Exec.outOfFuel := by
  have hinv := hT.inv
  have hsat := getPendingFinalizationTxs_sat hinv.shape hinv.final.working_mem
    hinv.final.working_below fuel
  obtain ⟨pending, hpending⟩ | ⟨e, he⟩ | hout :=
    Exec.outcome_cases (T.getPendingFinalizationTxs fuel)
  · have hparse : ∀ tx ∈ pending, tx.Parses := by
      rw [hsat.of_ok hpending]
      exact parses_of_pending hinv fun b hb hid => hT.parses hb hid
    obtain ⟨L, hL⟩ := foldlM_applyTx_release hparse T.finalizedBalanceMap
    rw [verifiyTransactionsBalance, hpending, Exec.ok_bind, hL, Exec.ok_bind,
      addRewards_release_eq_outOfFuel hinv.shape hpb hbelow, Exec.outOfFuel_bind]
  · exact (hsat.of_panic he).elim
  · rw [verifiyTransactionsBalance, hout, Exec.outOfFuel_bind]

variable (profile) in
/-- A block that is not known and fails `WalkEnds` has got as far as the balance check. -/
theorem addBlock_of_not_walkEnds (hT : Inv T)
    (hknown : ¬ (block.header.blockId ∈ T.allBlocks ∨ block.header.blockId ∈ T.orphans))
    (hwalk : ¬ WalkEnds C T block leadingZeroLen) :
    ∃ pb, T.Stored pb ∧ ¬ T.BelowFinal pb.header.blockId ∧ ∀ fuel order,
      addBlock C profile fuel order T block leadingZeroLen = Exec.outOfFuel ∨
      ∃ f, addBlock C profile fuel order T block leadingZeroLen =
        verifiyTransactionsBalance profile T block pb fuel >>= f := by
  unfold WalkEnds at hwalk
  push Not at hwalk
  obtain ⟨hfresh, hint, pb, hpb, ⟨n, hanc⟩, hbelow⟩ := hwalk
  obtain ⟨hpid, hst⟩ := hT.shape.stored_of_getBlock hpb
  refine ⟨pb, hst, hpid ▸ hbelow, fun fuel order => ?_⟩
  have hanc_fuel : T.verifyBlockAncestry block.header.merkleRoot pb fuel = .ok true ∨
      T.verifyBlockAncestry block.header.merkleRoot pb fuel = Exec.outOfFuel := by
    rcases Nat.le_total n fuel with hle | hle
    · refine .inl ?_
      rw [(growing_verifyBlockAncestry T _ pb n fuel hle).eq (by simp [hanc]), hanc]
    · rcases growing_verifyBlockAncestry T _ pb fuel n hle with hout | heq
      · exact .inr hout
      · exact .inl (heq.trans hanc)
  rw [not_or] at hknown
  have hattach : addBlock C profile fuel order T block leadingZeroLen =
      attachBlock C profile order (fun T oBlock =>
        addOrphanBlock C profile fuel order.next T oBlock leadingZeroLen) T block pb fuel := by
    simp [addBlock, hknown.1, hknown.2, hint, hpb]
  rw [hattach, attachBlock]
  rcases hanc_fuel with hok | hout
  · rw [hok]
    exact .inr ⟨_, rfl⟩
  · rw [hout]
    exact .inl rfl

end BlockTree

open BlockTree

/-- What makes a call end: a new block that passes the checks before the reward walk has its parent
strictly below the finalized block, or nothing is final yet. -/
def RewardWalkEnds (C : Crates) (T : BlockTree) (call : Call) : Prop :=
  call.block.header.blockId ∉ T.orphans → WalkEnds C T call.block call.leadingZeroLen

/-- Otherwise no number of rounds gives a result, and a release build runs forever. -/
theorem addBlock_of_not_rewardWalkEnds {C : Crates} {profile : Profile} {T : BlockTree}
    (hT : Reachable C profile T) {call : Call} (hwalk : ¬ RewardWalkEnds C T call) :
    (∀ fuel T', addBlock C profile fuel call.order T call.block call.leadingZeroLen ≠ .ok T') ∧
    (profile = .release → ∀ fuel, addBlock C profile fuel call.order T call.block
      call.leadingZeroLen = Exec.outOfFuel) := by
  have hinv := hT.inv
  rw [RewardWalkEnds, Classical.not_imp] at hwalk
  have hfresh : call.block.header.blockId ∉ T.allBlocks :=
    fun h => hwalk.2 fun hfresh => absurd h hfresh
  obtain ⟨pb, hpb, hbelow, hrun⟩ := addBlock_of_not_walkEnds profile hinv
    (not_or.mpr ⟨hfresh, hwalk.1⟩) hwalk.2
  refine ⟨fun fuel T' hok => ?_, ?_⟩
  · rcases hrun fuel call.order with hout | ⟨f, hf⟩
    · rw [hout] at hok
      exact Exec.outOfFuel_ne_ok _ hok
    · rw [hf] at hok
      obtain ⟨r, hr, -⟩ := Exec.bind_eq_ok.mp hok
      exact verifiyTransactionsBalance_ne_ok hinv hpb hbelow fuel r hr
  · rintro rfl fuel
    rcases hrun fuel call.order with hout | ⟨f, hf⟩
    · exact hout
    · rw [hf, verifiyTransactionsBalance_release_eq_outOfFuel hT hpb hbelow, Exec.outOfFuel_bind]

/-- For a reachable tree and any block, `add_block` ends if `RewardWalkEnds`. If not, no number of
rounds gives a result, and a release build runs forever. -/
theorem addBlock_ends_iff {C : Crates} {profile : Profile} {T : BlockTree}
    (hT : Reachable C profile T) (call : Call) :
    (RewardWalkEnds C T call → ∃ fuel,
      addBlock C profile fuel call.order T call.block call.leadingZeroLen ≠ Exec.outOfFuel) ∧
    (¬ RewardWalkEnds C T call → (∀ fuel T',
      addBlock C profile fuel call.order T call.block call.leadingZeroLen ≠ .ok T') ∧
      (profile = .release → ∀ fuel, addBlock C profile fuel call.order T call.block
        call.leadingZeroLen = Exec.outOfFuel)) := by
  refine ⟨fun hwalk => ?_, addBlock_of_not_rewardWalkEnds hT⟩
  have hinv := hT.inv
  by_cases hknown : call.block.header.blockId ∈ T.allBlocks ∨
      call.block.header.blockId ∈ T.orphans
  · exact ⟨0, by rw [addBlock_eq, if_pos hknown]; exact Exec.ok_ne_outOfFuel _⟩
  · obtain ⟨n, hn⟩ := addOrphanBlock_ends hinv (hwalk fun h => hknown (.inr h)) call.order
    refine ⟨n, ?_⟩
    rw [addBlock_eq, if_neg hknown]
    exact hn

theorem addBlock_ends_iff_loan : ∃ fuel,
    addBlock walletCrates .debug fuel asStored genesisTree (minedBlock 'a' "0" loan) 0 ≠
      Exec.outOfFuel :=
  (addBlock_ends_iff reachable_genesisTree ⟨minedBlock 'a' "0" loan, 0, asStored⟩).1
    fun _ _ _ _ _ _ => .inl rfl

theorem not_rewardWalkEnds_settledChain {T : BlockTree}
    (hT : Tip walletCrates 1000 settledChain.reverse settledChain.reverse T)
    (hos : T.orphans = ∅) (hfin : T.finalizedBlockId = minedId 'a')
    (hbranch : T.branch T.finalizedBlockId = [minedBlock 'a' "0" loan]) :
    ¬ RewardWalkEnds walletCrates T
      ⟨minedBlock 'G' (minedId 'a') (payment 6), 0, asStored⟩ := by
  intro hwalk
  have hshape := hT.inv.shape
  have hother : ∀ b ∈ settledChain.reverse,
      b.header.blockId ≠ minedId 'G' ∧ (payment 6).2 ≠ b.header.merkleRoot := by decide
  have hroot : minedId 'G' ≠ "0" ∧ minedId 'a' ≠ "0" := by decide
  have hfresh : minedId 'G' ∉ T.allBlocks := by
    intro hmem
    obtain ⟨b, hb⟩ := mem_allBlocks_iff.mp hmem
    obtain ⟨hid, hst⟩ := hshape.stored_of_getBlock hb
    exact (hother b (hT.stored b hst (hid ▸ hroot.1))).1 hid
  have hparent : T.Stored (minedBlock 'a' "0" loan) :=
    ((mem_branch hshape).mp (hbranch ▸ List.mem_singleton.mpr rfl)).1
  have hanc : T.verifyBlockAncestry (payment 6).2 (minedBlock 'a' "0" loan)
      (T.depthOf (minedId 'a') + 1) = .ok true := by
    refine verifyBlockAncestry_eq_true hshape hparent (Nat.lt_succ_self _) fun b hb _ hparent => ?_
    exact (hother b (hT.stored b hb (hshape.ne_root_of_parent_ne hb hparent))).2
  have hbelow : T.BelowFinal (minedId 'a') := hwalk (by simp [hos]) hfresh
    (minedBlock_integrity (by decide) _ (payable_payment 6).signed)
    (minedBlock 'a' "0" loan) hparent ⟨_, hanc⟩
  rcases hbelow with hbelow | ⟨-, hbelow⟩
  · exact hroot.2 (hfin ▸ hbelow)
  · exact hbelow hfin.symm

/-- A signed payment in a block right below the finalized block: the call has no result. -/
theorem addBlock_endless :
    (∀ tx ∈ (minedBlock 'G' (minedId 'a') (payment 6)).txs,
      tx.verifySig walletCrates = .ok true ∧ tx.Parses) ∧
    (∃ T, Reachable walletCrates .release T ∧ T.finalizedBlockId = minedId 'a' ∧
      ∀ fuel, addBlock walletCrates .release fuel asStored T
        (minedBlock 'G' (minedId 'a') (payment 6)) 0 = Exec.outOfFuel) ∧
    (∃ T, Reachable walletCrates .debug T ∧ T.finalizedBlockId = minedId 'a' ∧
      ∀ fuel T', addBlock walletCrates .debug fuel asStored T
        (minedBlock 'G' (minedId 'a') (payment 6)) 0 ≠ .ok T') := by
  refine ⟨fun tx htx => ?_, ?_, ?_⟩
  · obtain rfl := List.mem_singleton.mp htx
    exact ⟨verifySig_of_wallet (payable_payment 6).signed, (payable_payment 6).parses⟩
  · obtain ⟨T, hrun, hT, hos, hfin, hbranch⟩ := settledChain_run .release
    have hreach := reachable_iff.mpr ⟨_, run_of_returnsWith hrun⟩
    exact ⟨T, hreach, hfin, (addBlock_of_not_rewardWalkEnds hreach
      (not_rewardWalkEnds_settledChain hT hos hfin hbranch)).2 rfl⟩
  · obtain ⟨T, hrun, hT, hos, hfin, hbranch⟩ := settledChain_run .debug
    have hreach := reachable_iff.mpr ⟨_, run_of_returnsWith hrun⟩
    exact ⟨T, hreach, hfin, (addBlock_of_not_rewardWalkEnds hreach
      (not_rewardWalkEnds_settledChain hT hos hfin hbranch)).1⟩

end NakamotoNode.Chain
