import NakamotoNode.Chain.Finality
import NakamotoNode.Foundations.Branching

/-! # Agreement of two nodes

Two nodes build their trees from their own deliveries. When a block id names one block in all of
them, the branches of both trees fit together (`coherent_branch`): a block has the same ancestors
wherever it is stored. A finalized block is six blocks above the tip of some branch, so either the
finalized branches of both nodes are comparable, and then so are their ledgers, or there are two
tips that are more than six blocks apart on either side. -/

namespace NakamotoNode.Chain
open Foundations Foundations.RustStd Foundations.Branching
set_option autoImplicit false

namespace BlockTree
variable {C : Crates} {profile profile' : Profile} {T T' : BlockTree}

/-- No id names two blocks. -/
def Alike (T T' : BlockTree) : Prop :=
  ∀ id b b', T.getBlock id = some b → T'.getBlock id = some b' → b = b'

theorem Alike.symm (h : Alike T T') : Alike T' T := fun id b b' hb hb' => (h id b' b hb' hb).symm

/-- Nodes to which an id is delivered with one block store one block under it. -/
theorem alike_of_runs {calls calls' : List Call}
    (hrun : Run (Returns C profile) genesisTree calls T)
    (hrun' : Run (Returns C profile') genesisTree calls' T')
    (hids : ∀ call ∈ calls, ∀ call' ∈ calls',
      call.block.header.blockId = call'.block.header.blockId → call.block = call'.block) :
    Alike T T' := by
  have hT := (extends_of_run inv_genesisTree hrun).1.shape
  have hT' := (extends_of_run inv_genesisTree hrun').1.shape
  intro id b b' hb hb'
  by_cases hroot : id = "0"
  · subst hroot
    rw [hT.getBlock_root_parent hb, hT'.getBlock_root_parent hb']
  obtain ⟨hid, hst⟩ := hT.stored_of_getBlock hb
  obtain ⟨hid', hst'⟩ := hT'.stored_of_getBlock hb'
  rcases stored_delivered hrun hst with rfl | ⟨⟨call, hcall, rfl⟩, -⟩
  · exact absurd hid.symm hroot
  rcases stored_delivered hrun' hst' with rfl | ⟨⟨call', hcall', rfl⟩, -⟩
  · exact absurd hid'.symm hroot
  · exact hids call hcall call' hcall' (hid.trans hid'.symm)

/-- A block that both trees store has one branch. -/
theorem Alike.branch_eq (h : Alike T T') (hT : Shape T) (hT' : Shape T') {id : BlockId}
    (hid : id ∈ T.allBlocks) (hid' : id ∈ T'.allBlocks) : T.branch id = T'.branch id := by
  induction hd : T.depthOf id generalizing id with
  | zero =>
    have hroot : id = "0" := by
      by_contra hroot
      obtain ⟨b, hb⟩ := mem_allBlocks_iff.mp hid
      have := hT.depth_succ id b hb hroot
      omega
    subst hroot
    rw [branch_root hT, branch_root hT']
  | succ n ih =>
    have hroot : id ≠ "0" := by
      rintro rfl
      rw [hT.depthOf_root] at hd
      omega
    obtain ⟨b, hb⟩ := mem_allBlocks_iff.mp hid
    obtain ⟨b', hb'⟩ := mem_allBlocks_iff.mp hid'
    obtain rfl := h id b b' hb hb'
    have hdepth := hT.depth_succ id b hb hroot
    rw [branch_of_parent hT hb hroot, branch_of_parent hT' hb' hroot,
      ih (hT.parent_mem id b hb hroot) (hT'.parent_mem id b hb' hroot) (by omega)]

theorem branch_eq_cons (hT : Shape T) {id : BlockId} {b : BlockNode} {l : List BlockNode}
    (h : T.branch id = b :: l) : T.getBlock id = some b ∧ T.branch b.header.parent = l := by
  have hroot : id ≠ "0" := by
    rintro rfl
    rw [branch_root hT] at h
    exact absurd h (by simp)
  have hid : id ∈ T.allBlocks := by
    by_contra hid
    have hnone : T.depthOf id = 0 := by
      rw [depthOf, AList.lookup_eq_none.mpr (mt (hT.depth_keys id).mp hid), Option.getD_none]
    rw [branch, hnone, branchFrom] at h
    exact absurd h (by simp)
  obtain ⟨b', hb'⟩ := mem_allBlocks_iff.mp hid
  rw [branch_of_parent hT hb' hroot] at h
  obtain ⟨rfl, hl⟩ := List.cons.inj h
  exact ⟨hb', hl⟩

/-- What follows a block on a branch is the branch of its parent. -/
theorem branch_of_append (hT : Shape T) {id : BlockId} {s t : List BlockNode} {b : BlockNode}
    (h : T.branch id = s ++ b :: t) :
    T.Stored b ∧ T.branch b.header.blockId = b :: t := by
  induction s generalizing id with
  | nil =>
    obtain ⟨hb, -⟩ := branch_eq_cons hT h
    obtain ⟨hid, hst⟩ := hT.stored_of_getBlock hb
    rw [hid]
    exact ⟨hst, h⟩
  | cons c s ih => exact ih (branch_eq_cons hT h).2

theorem Alike.coherent_branch (h : Alike T T') (hT : Shape T) (hT' : Shape T')
    (id id' : BlockId) : Coherent (T.branch id) (T'.branch id') := by
  intro s b t s' t' hs hs'
  obtain ⟨hst, ht⟩ := branch_of_append hT hs
  obtain ⟨hst', ht'⟩ := branch_of_append hT' hs'
  rw [h.branch_eq hT hT' (mem_of_getBlock hst) (mem_of_getBlock hst'), ht'] at ht
  exact (List.cons.inj ht).2.symm

/-! ## Finalized branches -/

/-- `T'` has finalized what `T` has and the blocks `later`, and its ledger is that of `T` after
them. -/
structure LedgerExtends (C : Crates) (T T' : BlockTree) (later : List BlockNode) : Prop where
  branch : T'.branch T'.finalizedBlockId = later ++ T.branch T.finalizedBlockId
  balance : ∀ u, T'.finalizedBalanceMap.balance u = T.finalizedBalanceMap.balance u +
    (later.map fun b => b.flow u + b.reward u).sum
  total : T'.finalizedBalanceMap.total = T.finalizedBalanceMap.total + 10 * later.length
  txIds : T'.finalizedTxIds = T.finalizedTxIds ∪
    ((later.flatMap BlockNode.txs).map fun tx => tx.genHash C).toFinset

/-- Branches of the two trees below their finalized blocks that share their end `common` and have
more than six blocks each of their own above it. -/
structure DeepFork (T T' : BlockTree) (own own' common : List BlockNode) : Prop where
  branch : ∃ id ∈ T.allBlocks, T.Descends T.finalizedBlockId id ∧ T.branch id = own ++ common
  branch' : ∃ id ∈ T'.allBlocks, T'.Descends T'.finalizedBlockId id ∧
    T'.branch id = own' ++ common
  disjoint : List.Disjoint own own'
  deep : 6 < own.length
  deep' : 6 < own'.length

theorem ledgerExtends_of_suffix (hT : Inv T) (hT' : Inv T') (hI : Replayed C T)
    (hI' : Replayed C T') (h : T.branch T.finalizedBlockId <:+ T'.branch T'.finalizedBlockId) :
    ∃ later, LedgerExtends C T T' later := by
  obtain ⟨later, hlater⟩ := h
  have hlen := length_branch hT.shape hT.final.final_mem
  have hlen' := length_branch hT'.shape hT'.final.final_mem
  refine ⟨later, hlater.symm, fun u => ?_, ?_, ?_⟩
  · rw [hI'.balance, hI.balance, replay, replay, ← hlater, List.map_append, List.sum_append]
    ring
  · rw [hI'.total, hI.total, ← hlen', ← hlen, ← hlater, List.length_append]
    push_cast
    ring
  · rw [hI'.txIds, hI.txIds, branchTxs, branchTxs, ← hlater, List.flatMap_append,
      List.map_append, List.toFinset_append, Finset.union_comm]

/-- A tip six blocks below the finalized block; the finalized block itself when that is the
root. -/
theorem exists_tip (hT : Inv T) : ∃ id ∈ T.allBlocks, T.Descends T.finalizedBlockId id ∧
    (T.finalizedBlockId = "0" ∨
      (T.branch T.finalizedBlockId).length + 6 ≤ (T.branch id).length) := by
  by_cases hroot : T.finalizedBlockId = "0"
  · exact ⟨_, hT.final.final_mem, .refl _, .inl hroot⟩
  · obtain ⟨id, hid, hdesc, hdepth⟩ := hT.final.depth_eq hroot
    refine ⟨id, hid, hdesc, .inr ?_⟩
    rw [length_branch hT.shape hT.final.final_mem, length_branch hT.shape hid, hdepth]

theorem Alike.finalized_comparable (h : Alike T T') (hT : Inv T) (hT' : Inv T') :
    T.branch T.finalizedBlockId <:+ T'.branch T'.finalizedBlockId ∨
    T'.branch T'.finalizedBlockId <:+ T.branch T.finalizedBlockId ∨
    ∃ own own' common, DeepFork T T' own own' common := by
  obtain ⟨id, hid, hdesc, hdeep⟩ := exists_tip hT
  obtain ⟨id', hid', hdesc', hdeep'⟩ := exists_tip hT'
  rcases hdeep with hroot | hdeep
  · rw [hroot, branch_root hT.shape]
    exact .inl (List.nil_suffix)
  rcases hdeep' with hroot | hdeep'
  · rw [hroot, branch_root hT'.shape]
    exact .inr (.inl (List.nil_suffix))
  refine ((h.coherent_branch hT.shape hT'.shape id id').comparable_or_fork
    ⟨_, (branch_eq_segment_append hT.shape hdesc).symm⟩
    ⟨_, (branch_eq_segment_append hT'.shape hdesc').symm⟩ hdeep hdeep').imp_right
      (Or.imp_right ?_)
  rintro ⟨own, own', common, hs, hlong, hlong'⟩
  exact ⟨own, own', common, ⟨id, hid, hdesc, hs.left⟩, ⟨id', hid', hdesc', hs.right⟩,
    hs.disjoint, hlong, hlong'⟩

end BlockTree

open BlockTree

/-- Two debug nodes, whatever was delivered to each, so long as no id names two of the blocks: one
finalized ledger is the other one after the blocks that the first finalized on top, or their
branches have forked more than six blocks ago on both sides. -/
theorem finalized_agree {C : Crates} {T T' : BlockTree} {calls calls' : List Call}
    (hrun : Run (Returns C .debug) genesisTree calls T)
    (hrun' : Run (Returns C .debug) genesisTree calls' T')
    (hids : ∀ call ∈ calls, ∀ call' ∈ calls',
      call.block.header.blockId = call'.block.header.blockId → call.block = call'.block) :
    (∃ later, LedgerExtends C T T' later) ∨ (∃ later, LedgerExtends C T' T later) ∨
      ∃ own own' common, DeepFork T T' own own' common := by
  have hT := reachable_iff.mpr ⟨calls, hrun⟩
  have hT' := reachable_iff.mpr ⟨calls', hrun'⟩
  have hI := replayed_of_reachable hT
  have hI' := replayed_of_reachable hT'
  rcases (alike_of_runs hrun hrun' hids).finalized_comparable hT.inv hT'.inv with h | h | hfork
  · exact .inl (ledgerExtends_of_suffix hT.inv hT'.inv hI hI' h)
  · exact .inr (.inl (ledgerExtends_of_suffix hT'.inv hT.inv hI' hI h))
  · exact .inr (.inr hfork)

/-! ## A fork below the settled loan -/

/-- The chain with the settled loan where a block beside its second one has come before that. -/
theorem forkedChain_run (profile : Profile) :
    ∃ T, Run (Returns walletCrates profile) genesisTree
        (delivery (minedBlock 'a' "0" loan :: minedBlock 'G' (minedId 'a') (payment 6) ::
          settledChain.tail)) T ∧
      Tip walletCrates 1000 (settledChain.tail.reverse ++
        [minedBlock 'G' (minedId 'a') (payment 6), minedBlock 'a' "0" loan])
        settledChain.reverse T ∧
      minedId 'G' ∈ T.allBlocks := by
  obtain ⟨T₁, hcall₁, hos₁, hwork₁, hT₁⟩ := loan_returns profile
  have hfits : Fits walletCrates 0 1000 (minedId 'a') [minedBlock 'a' "0" loan]
      (minedBlock 'G' (minedId 'a') (payment 6)) :=
    minedBlock_fits (by decide) (by decide) (payable_payment 6) (by decide) (by decide)
  obtain ⟨T₂, hcall₂, hos₂, hwork₂, hT₂⟩ :=
    hT₁.extend profile hos₁ (by rw [hwork₁]; exact hfits) (by decide) asStored
  have hshape := hT₂.inv.shape
  have hbranch₂ := hT₂.branch
  -- the block next on the chain has the greater id of the two, so it becomes the tip
  have hfits₃ : Fits walletCrates 0 1000 (minedId 'a')
      [minedBlock 'G' (minedId 'a') (payment 6), minedBlock 'a' "0" loan]
      (minedBlock 'A' (minedId 'a') (payment 0)) :=
    minedBlock_fits (by decide) (by decide) (payable_payment 0) (by decide) (by decide)
  have hG : T₂.getBlock (minedId 'G') = some (minedBlock 'G' (minedId 'a') (payment 6)) := by
    exact (hT₂.mem_line List.mem_cons_self).1
  have hparent : T₂.parentOf (minedId 'G') = some (minedId 'a') :=
    hshape.parentOf_eq_some.mpr ⟨by decide, _, hG, rfl⟩
  have ha : T₂.branch (minedId 'a') = [minedBlock 'a' "0" loan] := by
    rw [hwork₂] at hbranch₂
    exact (branch_eq_cons hshape hbranch₂).2
  have hdepth : T₂.depthOf (minedId 'a') = 1 := by
    rw [← length_branch hshape (hshape.mem_of_parentOf hparent).2, ha]
    rfl
  have hchildren : T₂.childrenMap.lookup (minedId 'a') = some [minedId 'G'] := by
    refine hshape.children_singleton hparent fun id hid => ?_
    obtain ⟨hne, b, hb, hbparent⟩ := hshape.parentOf_eq_some.mp hid
    obtain ⟨rfl, hst⟩ := hshape.stored_of_getBlock hb
    rcases List.mem_cons.mp (hT₂.stored b hst hne) with rfl | hloan
    · rfl
    · obtain rfl := List.mem_singleton.mp hloan
      exact absurd hbparent (by decide)
  have hgood := hT₂.good hfits₃ (hshape.mem_of_parentOf hparent).2
    (.inl (hT₂.finalizedBlockId_eq_root (by decide))) (by decide)
  obtain ⟨T₃, hcall₃, hos₃, hwork₃, hT₃⟩ := hT₂.beside profile hos₂ hgood hchildren
    (by decide +kernel) (by
      change 2 ≤ T₂.depthOf (minedId 'a') + 1
      rw [hdepth]) asStored
  have hline : (minedBlock 'A' (minedId 'a') (payment 0) :: T₂.branch (minedId 'a')) =
      [minedBlock 'A' (minedId 'a') (payment 0), minedBlock 'a' "0" loan] := by rw [ha]
  change Tip _ _ _ (_ :: T₂.branch (minedId 'a')) T₃ at hT₃
  rw [hline] at hT₃
  have hnames : ∀ e ∈ payments ['A', 'B', 'C', 'D', 'E', 'F'], e.1 ≠ '\x7b' ∧ minedId e.1 ≠ "0" := by
    decide
  have hrest := minedChain_fits (payments ['A', 'B', 'C', 'D', 'E', 'F']).tail (minedId 'A')
    [minedBlock 'A' (minedId 'a') (payment 0), minedBlock 'G' (minedId 'a') (payment 6),
      minedBlock 'a' "0" loan]
    (fun e he => ⟨(hnames e (List.mem_of_mem_tail he)).1, (hnames e (List.mem_of_mem_tail he)).2,
      payable_payments e (List.mem_of_mem_tail he)⟩) (by decide) (by decide)
  obtain ⟨T, hrun, -, hT⟩ := Tip.run profile asStored _ hT₃ hos₃
    (by rw [hwork₃]; exact hrest) (by norm_num) (by decide)
  have hrun' : Run (Returns walletCrates profile) T₂ (delivery settledChain.tail) T :=
    (Run.single hcall₃).trans (run_of_returnsWith hrun)
  refine ⟨T, ((Run.single hcall₁.1).snoc hcall₂.1).trans hrun', hT, ?_⟩
  exact mem_of_getBlock ((extends_of_run hT₂.inv hrun').2.getBlock _ _ hG)

/-- Nodes that have finalized one common block do not fork deeply while they have seven blocks. -/
theorem not_deepFork {T T' : BlockTree} {b : BlockNode} (hT : Inv T) (hT' : Inv T')
    (hfin : T.branch T.finalizedBlockId = [b]) (hfin' : T'.branch T'.finalizedBlockId = [b])
    (hdeep : ∀ id ∈ T.allBlocks, T.depthOf id ≤ 7) {own own' common : List BlockNode} :
    ¬ DeepFork T T' own own' common := by
  intro hfork
  obtain ⟨id, hid, hdesc, hbranch⟩ := hfork.branch
  obtain ⟨id', -, hdesc', hbranch'⟩ := hfork.branch'
  have hlen := length_branch hT.shape hid
  have hdepth := hdeep id hid
  have hown := hfork.deep
  rw [hbranch, List.length_append] at hlen
  obtain rfl : common = [] := List.length_eq_zero_iff.mp (by omega)
  rw [branch_eq_segment_append hT.shape hdesc, hfin, List.append_nil] at hbranch
  rw [branch_eq_segment_append hT'.shape hdesc', hfin', List.append_nil] at hbranch'
  exact hfork.disjoint (a := b) (hbranch ▸ by simp) (hbranch' ▸ by simp)

/-- One node gets the settled chain, another one also a block beside the second of that chain: both
have finalized the loan, with one ledger. -/
theorem finalized_agree_forkedChain : ∃ T T', T.finalizedBlockId = minedId 'a' ∧
    T'.finalizedBlockId = minedId 'a' ∧ minedId 'G' ∉ T.allBlocks ∧ minedId 'G' ∈ T'.allBlocks ∧
    (LedgerExtends walletCrates T T' [] ∨ LedgerExtends walletCrates T' T []) := by
  obtain ⟨T, hrun, hT, -, hfin, hbranch⟩ := settledChain_run .debug
  obtain ⟨T', hrun', hT', hG⟩ := forkedChain_run .debug
  have hids : ∀ call ∈ delivery settledChain, ∀ call' ∈ delivery (minedBlock 'a' "0" loan ::
      minedBlock 'G' (minedId 'a') (payment 6) :: settledChain.tail),
      call.block.header.blockId = call'.block.header.blockId → call.block = call'.block := by
    simp only [delivery, List.forall_mem_map]
    decide
  have hG' : minedId 'G' ∉ T.allBlocks := by
    intro hmem
    obtain ⟨b, hb⟩ := mem_allBlocks_iff.mp hmem
    obtain ⟨hid, hst⟩ := hT.inv.shape.stored_of_getBlock hb
    have hmem' := List.mem_reverse.mp (hT.stored b hst (hid ▸ by decide))
    have hnone : ∀ b ∈ settledChain, b.header.blockId ≠ minedId 'G' := by decide
    exact hnone b hmem' hid
  obtain ⟨b, hb, hparent, hbid, hbranch'⟩ := hT'.finalized_of_length rfl
  obtain rfl : b = minedBlock 'a' "0" loan :=
    eq_first_of_parent (by decide) (List.mem_reverse.mp hb) hparent
  refine ⟨T, T', hfin, hbid.symm, hG', hG, ?_⟩
  rcases finalized_agree (run_of_returnsWith hrun) hrun' hids with
    ⟨later, h⟩ | ⟨later, h⟩ | ⟨own, own', common, h⟩
  · have hnil : later = [] := by simpa [hbranch, hbranch'] using h.branch
    exact .inl (hnil ▸ h)
  · have hnil : later = [] := by simpa [hbranch, hbranch'] using h.branch
    exact .inr (hnil ▸ h)
  · exact absurd h (not_deepFork hT.inv hT'.inv hbranch hbranch' fun id hid => hT.deepest id hid)

end NakamotoNode.Chain
