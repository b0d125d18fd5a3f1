import NakamotoNode.Chain.Chains

/-! # Repeated transactions

Condition 6 of `add_block` says that a block repeats no transaction of its ancestors. The walk of
`verify_block_ancestry` compares Merkle roots instead, and stops before the block next to the root.
So no path repeats a transaction just when, at each insertion, Merkle roots tell repetition
(`RootTells`): the block lists no transaction twice, and an ancestor that shares one has the same
root and is not next to the genesis block. -/

namespace NakamotoNode.Chain
open Foundations Foundations.RustStd
set_option autoImplicit false

/-- The ids of the transactions of a block. -/
def BlockNode.txIds (C : Crates) (b : BlockNode) : List TxId := b.txs.map fun tx => tx.genHash C

namespace BlockTree

/-- The ids on the path from `id` to the root, the root included. -/
def pathTxIds (C : Crates) (T : BlockTree) (id : BlockId) : List TxId :=
  (T.branch id ++ [BlockNode.genesisBlock]).flatMap (BlockNode.txIds C)

/-- The Merkle root tells whether the block repeats a transaction of its ancestors. -/
structure RootTells (C : Crates) (T : BlockTree) (block : BlockNode) : Prop where
  nodup : (block.txIds C).Nodup
  shared : ∀ a, T.Stored a → T.Descends a.header.blockId block.header.parent →
    ∀ id ∈ a.txIds C, id ∈ block.txIds C →
      a.header.parent ≠ "0" ∧ a.header.merkleRoot = block.header.merkleRoot

/-- No path repeats an id. -/
def Distinct (C : Crates) (T : BlockTree) : Prop := ∀ id ∈ T.allBlocks, (T.pathTxIds C id).Nodup

variable {C : Crates} {profile : Profile} {leadingZeroLen : ℕ} {T T' : BlockTree}
  {block : BlockNode}

theorem mem_path (hT : Shape T) {id : BlockId} (hid : id ∈ T.allBlocks) {a : BlockNode} :
    a ∈ T.branch id ++ [BlockNode.genesisBlock] ↔ T.Stored a ∧ T.Descends a.header.blockId id := by
  rw [List.mem_append, mem_branch hT, List.mem_singleton]
  constructor
  · rintro (⟨hst, -, hdesc⟩ | rfl)
    · exact ⟨hst, hdesc⟩
    · exact ⟨hT.root_block, hT.descends_root hid⟩
  · rintro ⟨hst, hdesc⟩
    by_cases hroot : a.header.blockId = "0"
    · exact .inr (hT.stored_eq_genesis hst hroot)
    · exact .inl ⟨hst, hroot, hdesc⟩

/-- The ids of an accepted block are new on its path just when its Merkle root tells. -/
theorem Accepts.rootTells_iff (hacc : Accepts C profile leadingZeroLen T block) (hT : Shape T)
    (hparent : (T.pathTxIds C block.header.parent).Nodup) :
    (block.txIds C ++ T.pathTxIds C block.header.parent).Nodup ↔ RootTells C T block := by
  rw [List.nodup_append']
  constructor
  · rintro ⟨hnodup, -, hdisj⟩
    refine ⟨hnodup, fun a hst hdesc id ha hid => ?_⟩
    have hpath : id ∈ T.pathTxIds C block.header.parent :=
      List.mem_flatMap.mpr ⟨a, (mem_path hT hacc.parent_mem).mpr ⟨hst, hdesc⟩, ha⟩
    exact absurd hpath (hdisj hid)
  · intro htell
    refine ⟨htell.nodup, hparent, fun id hid hpath => ?_⟩
    obtain ⟨a, ha, haid⟩ := List.mem_flatMap.mp hpath
    obtain ⟨hst, hdesc⟩ := (mem_path hT hacc.parent_mem).mp ha
    -- the walk has compared the roots of the two
    obtain ⟨hne, hroot⟩ := htell.shared a hst hdesc id haid hid
    exact hacc.merkleRoot_ne hT hst hdesc hne hroot.symm

theorem Inserted.distinct_iff (h : Inserted C profile T block T') (hT : Shape T)
    (hacc : Accepts C profile leadingZeroLen T block) :
    Distinct C T' ↔ Distinct C T ∧ RootTells C T block := by
  have hleaf : T'.pathTxIds C block.header.blockId =
      block.txIds C ++ T.pathTxIds C block.header.parent := by
    rw [pathTxIds, h.branch_leaf hT hacc.fresh hacc.parent_mem, List.cons_append,
      List.flatMap_cons, pathTxIds]
  have hold : ∀ id ∈ T.allBlocks, T'.pathTxIds C id = T.pathTxIds C id := by
    intro id hid
    rw [pathTxIds, h.branch_old hT hacc.fresh hid, pathTxIds]
  constructor
  · intro hdistinct
    have hT₀ : Distinct C T := fun id hid =>
      hold id hid ▸ hdistinct id (h.mem_allBlocks.mpr (.inr hid))
    refine ⟨hT₀, (hacc.rootTells_iff hT (hT₀ _ hacc.parent_mem)).mp ?_⟩
    rw [← hleaf]
    exact hdistinct _ (h.mem_allBlocks.mpr (.inl rfl))
  · rintro ⟨hdistinct, htell⟩ id hid
    rcases h.mem_allBlocks.mp hid with rfl | hid
    · rw [hleaf]
      exact (hacc.rootTells_iff hT (hdistinct _ hacc.parent_mem)).mpr htell
    · rw [hold id hid]
      exact hdistinct id hid

theorem Distinct.of_branches (h : Distinct C T')
    (hbranch : ∀ id ∈ T.allBlocks, id ∈ T'.allBlocks ∧ T'.branch id = T.branch id) :
    Distinct C T := by
  intro id hid
  obtain ⟨hmem, heq⟩ := hbranch id hid
  rw [pathTxIds, ← heq]
  exact h id hmem

theorem Distinct.withOrphans (h : Distinct C T) (os : AList fun _ : BlockId => BlockNode) :
    Distinct C { T with orphans := os } :=
  h.of_branches fun id hid => ⟨hid, (congrFun (branch_withOrphans os) id).symm⟩

theorem keeps_distinct (leadingZeroLen : ℕ) :
    Keeps C profile leadingZeroLen (RootTells C) (Distinct C) where
  insert := fun hT hI hacc hG hins => (hins.distinct_iff hT.shape hacc).mpr ⟨hI, hG⟩
  orphans := fun os hI => hI.withOrphans os

/-- Where no path repeats an id in the end, each inserted block had a root that tells. -/
theorem Adopts.rootTells {G : BlockTree → BlockNode → Prop}
    (h : Adopts C profile leadingZeroLen G T block T') (hT : Inv T) (hdistinct : Distinct C T') :
    Adopts C profile leadingZeroLen (RootTells C) T block T' := by
  induction h with
  | rejected hnot => exact .rejected hnot
  | stored hfresh hint hparent => exact .stored hfresh hint hparent
  | connected hacc _ hupd hnone =>
    obtain ⟨hins, -⟩ := hacc.inserted hT hupd
    exact .connected hacc ((hins.distinct_iff hT.shape hacc).mp hdistinct).2 hupd hnone
  | @cascaded T T₁ T₂ block o id hacc _ hupd ho hwaits hrec ih =>
    obtain ⟨hins, hT₁⟩ := hacc.inserted hT hupd
    have hdistinct₂ : Distinct C T₂ :=
      hdistinct.of_branches fun id hid => ⟨hid, congrFun (branch_withOrphans _) id⟩
    have hdistinct₁ : Distinct C T₁ := hdistinct₂.of_branches fun id hid => hrec.branch_eq hT₁ hid
    exact .cascaded hacc ((hins.distinct_iff hT.shape hacc).mp hdistinct₁).2 hupd ho hwaits
      (ih hT₁ hdistinct₂)

theorem distinct_genesisTree (C : Crates) : Distinct C genesisTree := by
  intro id hid
  obtain ⟨b, hb⟩ := mem_allBlocks_iff.mp hid
  obtain ⟨rfl, -⟩ := getBlock_genesisTree hb
  rw [pathTxIds, branch_root shape_genesisTree]
  exact List.nodup_singleton _

theorem run_rootTells {T₀ : BlockTree} {calls : List Call}
    (hrun : Run (Returns C profile) T₀ calls T) (hT₀ : Inv T₀) (hdistinct : Distinct C T) :
    Run (ReturnsWith C profile (RootTells C)) T₀ calls T := by
  induction hrun with
  | nil => exact .nil _
  | snoc hrun hcall ih =>
    have hT := (hrun.invariant (fun _ _ _ hT hcall => returns_inv hcall hT)) hT₀
    exact (ih (hdistinct.of_branches fun id hid => branch_of_returns hT hcall hid)).snoc
      ⟨hcall, (returns_cases hcall).imp id fun h => h.2.2.rootTells hT hdistinct⟩

end BlockTree

open BlockTree

/-- No transaction id occurs twice on the path from the root to a stored block, in exactly the runs
in which Merkle roots tell repetition at each insertion. -/
theorem path_tx_ids_nodup_iff {C : Crates} {profile : Profile} {calls : List Call} {T : BlockTree}
    (hrun : Run (Returns C profile) genesisTree calls T) :
    (∀ id ∈ T.allBlocks, (T.pathTxIds C id).Nodup) ↔
      Run (ReturnsWith C profile (RootTells C)) genesisTree calls T := by
  constructor
  · exact run_rootTells hrun inv_genesisTree
  · intro hrun
    exact (run_with_keeps hrun (fun _ _ => keeps_distinct _) (distinct_genesisTree C)).2

theorem txIds_minedBlock (nonce : Char) (w : BlockId) {entry : Transaction × TxId}
    (h : entry ∈ wallet) : (minedBlock nonce w entry).txIds walletCrates = [entry.2] :=
  congrArg (fun id => [id]) (genHash_of_mem (List.mem_cons_of_mem _ h))

theorem txIds_minedChain {entries : List (Char × Transaction × TxId)} {w : BlockId}
    (h : ∀ e ∈ entries, e.2 ∈ wallet) :
    (minedChain w entries).flatMap (BlockNode.txIds walletCrates) = entries.map fun e => e.2.2 := by
  induction entries generalizing w with
  | nil => rfl
  | cons e rest ih =>
    rw [minedChain, List.flatMap_cons, txIds_minedBlock _ _ (h e List.mem_cons_self),
      ih fun e' he' => h e' (List.mem_cons_of_mem _ he')]
    rfl

theorem path_tx_ids_nodup_iff_settledChain : ∃ T : BlockTree,
    T.finalizedBlockId = minedId 'a' ∧ T.workingBlockId = minedId 'F' ∧
    Run (ReturnsWith walletCrates .debug (RootTells walletCrates)) genesisTree
      (delivery settledChain) T := by
  obtain ⟨T, hrun, hT, -, hfin, -⟩ := settledChain_run .debug
  have hshape := hT.inv.shape
  refine ⟨T, hfin, hT.working_eq_head rfl,
    (path_tx_ids_nodup_iff (run_of_returnsWith hrun)).mp fun id hid => ?_⟩
  -- the path to each block is a part of the path to the tip
  have hdesc : T.Descends id T.workingBlockId := by
    by_cases hroot : id = "0"
    · rw [hroot]
      exact hshape.descends_root hT.inv.final.working_mem
    · obtain ⟨b, hb⟩ := mem_allBlocks_iff.mp hid
      obtain ⟨rfl, hst⟩ := hshape.stored_of_getBlock hb
      exact (hT.mem_line (hT.stored b hst hroot)).2.2
  have hsuffix : T.branch id <:+ settledChain.reverse := by
    rw [← hT.branch, branch_eq_segment_append hshape hdesc]
    exact List.suffix_append _ _
  have hgenesis : BlockNode.genesisBlock.txIds walletCrates = [grant.2] :=
    congrArg (fun id => [id]) genHash_grant
  have hnodup : ((settledChain ++ [BlockNode.genesisBlock]).flatMap
      (BlockNode.txIds walletCrates)).Nodup := by
    rw [List.flatMap_append, settledChain, txIds_minedChain, List.flatMap_singleton, hgenesis]
    · decide +kernel
    · exact List.forall_mem_cons.mpr ⟨payable_loan.signed, fun e he => (payable_payments e he).signed⟩
  have hreverse := ((settledChain.reverse_perm.append_right [BlockNode.genesisBlock]).flatMap_right
    (BlockNode.txIds walletCrates)).nodup_iff.mpr hnodup
  exact hreverse.sublist ((hsuffix.sublist.append_right _).flatMap _)

/-- A second block with the loan, below the first, is accepted. -/
theorem loan_repeated : ∃ T : BlockTree,
    Run (Returns walletCrates .debug) genesisTree
      (delivery (minedChain "0" [('a', loan), ('r', loan)])) T ∧
    minedId 'r' ∈ T.allBlocks ∧ ¬ (T.pathTxIds walletCrates (minedId 'r')).Nodup := by
  obtain ⟨T₁, hcall₁, hos, hwork₁, hT₁⟩ := loan_returns .debug
  -- the root is compared with those of the ancestors at depth two or more only
  have hfits : Fits walletCrates 0 1000 (minedId 'a') [minedBlock 'a' "0" loan]
      (minedBlock 'r' (minedId 'a') loan) :=
    minedBlock_fits (by decide) (by decide) payable_loan (by decide) (by decide)
  rw [← hwork₁] at hfits
  obtain ⟨T, hcall, -, hwork, hT⟩ := hT₁.extend .debug hos hfits (by norm_num) asStored
  rw [hwork₁] at hcall hwork hT
  have hbranch : T.branch (minedId 'r') =
      [minedBlock 'r' (minedId 'a') loan, minedBlock 'a' "0" loan] := by
    rw [← hT.branch, hwork, minedBlock]
  refine ⟨T, Run.trans (Run.single hcall₁.1) (Run.single hcall.1),
    Shape.stored_mem (hT.mem_line List.mem_cons_self).1, fun hnodup => ?_⟩
  rw [pathTxIds, hbranch, List.cons_append, List.flatMap_cons, List.cons_append,
    List.flatMap_cons, txIds_minedBlock _ _ payable_loan.signed,
    txIds_minedBlock _ _ payable_loan.signed] at hnodup
  exact (List.nodup_cons.mp hnodup).1 List.mem_cons_self

end NakamotoNode.Chain
