import NakamotoNode.Chain.Walks

/-! # Inserting one block

`Accepts` is the conjunction of the checks that `add_block` and `add_orphan_block` make before they
update the tree. `Finality` says how the finalized and the working block lie in the forest, and
`Inv` adds it to the representation invariant. Under `Inv` the update of an accepted block has two
cases (`Inserted`): the block is hung below its parent, or it is the first block seven below the
finalized one, and then the child of the finalized block above it becomes final. -/

namespace NakamotoNode.Chain
open Foundations Foundations.RustStd
set_option autoImplicit false

namespace BlockTree

/-- The finalized block is above the working block, and no block below it is seven deeper. -/
structure Finality (T : BlockTree) : Prop where
  final_mem : T.finalizedBlockId ∈ T.allBlocks
  working_mem : T.workingBlockId ∈ T.allBlocks
  working_below : T.Descends T.finalizedBlockId T.workingBlockId
  working_ne : T.finalizedBlockId ≠ "0" → T.workingBlockId ≠ T.finalizedBlockId
  depth_le : ∀ id ∈ T.allBlocks, T.Descends T.finalizedBlockId id →
    T.depthOf id ≤ T.depthOf T.finalizedBlockId + 6
  depth_eq : T.finalizedBlockId ≠ "0" → ∃ id ∈ T.allBlocks, T.Descends T.finalizedBlockId id ∧
    T.depthOf id = T.depthOf T.finalizedBlockId + 6

/-- The invariant of every run. -/
structure Inv (T : BlockTree) : Prop where
  shape : Shape T
  final : Finality T

theorem Finality.belowFinal {T : BlockTree} (h : Finality T) : T.BelowFinal T.workingBlockId := by
  by_cases hf : T.finalizedBlockId = "0"
  · exact .inl hf
  · exact .inr ⟨h.working_below, h.working_ne hf⟩

section
variable (C : Crates) (profile : Profile)

/-- The block passes the checks: 1 to 5 of the comment on `add_block` by itself and the tree's
maps, 6 by the walk along its ancestors, 7 by the balances. -/
structure Accepts (leadingZeroLen : ℕ) (T : BlockTree) (block : BlockNode) : Prop where
  fresh : block.header.blockId ∉ T.allBlocks
  integrity : verifyBlockIntegrity C block leadingZeroLen = .ok true
  connects : ∃ parentBlock fuel, T.getBlock block.header.parent = some parentBlock ∧
    T.verifyBlockAncestry block.header.merkleRoot parentBlock fuel = .ok true ∧
    verifiyTransactionsBalance profile T block parentBlock fuel = .ok true

/-- What the update of an accepted block leaves. -/
inductive Inserted (T : BlockTree) (block : BlockNode) : BlockTree → Prop
  | hung (hdepth : T.depthOf block.header.parent < T.depthOf T.finalizedBlockId + 6) :
      Inserted T block (T.graft block)
  | finalized (c : BlockNode) (L L' : Ledger UserId) (txIds : Finset TxId)
      (hdepth : T.depthOf block.header.parent = T.depthOf T.finalizedBlockId + 6)
      (hc : (T.graft block).Stored c)
      (hchild : (T.graft block).parentOf c.header.blockId = some T.finalizedBlockId)
      (hdesc : (T.graft block).Descends c.header.blockId block.header.blockId)
      (htxs : finalizeTxs C profile T.finalizedBalanceMap c.txs = .ok (L, txIds))
      (hreward : addBalance profile L c.header.rewardReceiver 10 = .ok L') :
      Inserted T block
        { T.graft block with
          finalizedTxIds := T.finalizedTxIds ∪ txIds
          finalizedBalanceMap := L'
          finalizedBlockId := c.header.blockId }

end

variable {C : Crates} {profile : Profile} {leadingZeroLen : ℕ} {T T' : BlockTree}
  {block : BlockNode}

/-! ## Accepted blocks -/

theorem verifiyTransactionsBalance_eq_ok {pb : BlockNode} {fuel : ℕ}
    (h : verifiyTransactionsBalance profile T block pb fuel = .ok true) :
    ∃ pending L L₁ L₂ b, T.getPendingFinalizationTxs fuel = .ok pending ∧
      pending.foldlM (applyTx profile) T.finalizedBalanceMap = .ok L ∧
      addRewards profile T L pb fuel = .ok (L₁, b) ∧
      checkTxs profile L₁ block.txs = .ok (some L₂) := by
  obtain ⟨pending, hpending, h⟩ := Exec.bind_eq_ok.mp h
  obtain ⟨L, hL, h⟩ := Exec.bind_eq_ok.mp h
  obtain ⟨⟨L₁, b⟩, hL₁, h⟩ := Exec.bind_eq_ok.mp h
  obtain ⟨checked, hchecked, h⟩ := Exec.bind_eq_ok.mp h
  cases checked with
  | none => exact absurd (Except.ok.inj h) (by simp)
  | some L₂ => exact ⟨pending, L, L₁, L₂, b, hpending, hL, hL₁, hchecked⟩

namespace Accepts

theorem parent_mem (h : Accepts C profile leadingZeroLen T block) :
    block.header.parent ∈ T.allBlocks := by
  obtain ⟨pb, fuel, hpb, -, -⟩ := h.connects
  exact mem_of_getBlock hpb

theorem id_ne_root (h : Accepts C profile leadingZeroLen T block) (hT : Shape T) :
    block.header.blockId ≠ "0" := fun he => h.fresh (he ▸ hT.root_mem)

theorem belowFinal (h : Accepts C profile leadingZeroLen T block) (hT : Shape T) :
    T.BelowFinal block.header.parent := by
  obtain ⟨pb, fuel, hpb, -, hbal⟩ := h.connects
  obtain ⟨hid, hst⟩ := hT.stored_of_getBlock hpb
  obtain ⟨pending, L, L₁, L₂, b, -, -, hwalk, -⟩ := verifiyTransactionsBalance_eq_ok hbal
  rw [← hid]
  exact (addRewards_sat hT hst L fuel).of_ok hwalk

theorem parses (h : Accepts C profile leadingZeroLen T block) : ∀ tx ∈ block.txs, tx.Parses := by
  obtain ⟨pb, fuel, -, -, hbal⟩ := h.connects
  obtain ⟨pending, L, L₁, L₂, b, -, -, -, hcheck⟩ := verifiyTransactionsBalance_eq_ok hbal
  exact parses_of_checkTxs hcheck

/-- An accepted block repeats the Merkle root of no ancestor at depth two or more. -/
theorem merkleRoot_ne (h : Accepts C profile leadingZeroLen T block) (hT : Shape T) {b : BlockNode}
    (hb : T.Stored b) (hdesc : T.Descends b.header.blockId block.header.parent)
    (hparent : b.header.parent ≠ "0") : block.header.merkleRoot ≠ b.header.merkleRoot := by
  obtain ⟨pb, fuel, hpb, hanc, -⟩ := h.connects
  obtain ⟨hid, hst⟩ := hT.stored_of_getBlock hpb
  rw [← hid] at hdesc
  exact ((verifyBlockAncestry_sat hT hst _ fuel).of_ok hanc).mp rfl b hb hdesc hparent

end Accepts

/-! ## The update -/

theorem updateBlocktree_eq (hT : Shape T) (hparent : block.header.parent ∈ T.allBlocks) :
    updateBlocktree C profile T block = finalizeBlock C profile (T.graft block) block := by
  rw [updateBlocktree, hT.depth_lookup hparent, Exec.unwrap_some, Exec.ok_bind]
  dsimp only
  rw [AList.lookup_insert, Exec.unwrap_some, Exec.ok_bind]
  rfl

theorem stored_graft_self : (T.graft block).Stored block := getBlock_graft_self

theorem depthOf_graft_self :
    (T.graft block).depthOf block.header.blockId = T.depthOf block.header.parent + 1 := by
  rw [depthOf_graft, if_pos rfl]

theorem depthOf_graft_of_mem (hfresh : block.header.blockId ∉ T.allBlocks) {id : BlockId}
    (hid : id ∈ T.allBlocks) : (T.graft block).depthOf id = T.depthOf id := by
  have hne : id ≠ block.header.blockId := fun he => hfresh (he ▸ hid)
  rw [depthOf_graft, if_neg hne]

section Insert
variable (hT : Inv T) (hfresh : block.header.blockId ∉ T.allBlocks)
  (hparent : block.header.parent ∈ T.allBlocks) (hbelow : T.BelowFinal block.header.parent)
include hT hfresh hparent hbelow

theorem descends_graft_block :
    (T.graft block).Descends T.finalizedBlockId block.header.blockId :=
  (hT.shape.graft_forest hfresh hparent).descends_leaf.mpr (.inr (hbelow.descends hT.shape hparent))

theorem finalized_children_mem :
    T.finalizedBlockId ∈ (T.graft block).childrenMap := by
  obtain ⟨-, hshape⟩ := hT.shape.graft hfresh hparent
  rw [hshape.children_keys]
  have hne : block.header.blockId ≠ T.finalizedBlockId :=
    fun he => hfresh (he ▸ hT.final.final_mem)
  obtain ⟨c, hc, -⟩ :=
    Forest.exists_child (descends_graft_block hT hfresh hparent hbelow) hne
  exact ⟨c, hc⟩

omit hfresh in
theorem parent_depth_le :
    T.depthOf block.header.parent ≤ T.depthOf T.finalizedBlockId + 6 :=
  hT.final.depth_le _ hparent (hbelow.descends hT.shape hparent)

omit hbelow in
/-- The climb of `finalize_block` ends at a child of the finalized block just for a block that is
seven deeper. -/
theorem kDeep_mem_children {cs : List BlockId}
    (hcs : (T.graft block).childrenMap.lookup T.finalizedBlockId = some cs) {c : BlockNode}
    (hc : (T.graft block).kDeepBlock 6 block = some c) (hmem : c.header.blockId ∈ cs) :
    T.depthOf block.header.parent = T.depthOf T.finalizedBlockId + 6 ∧
      (T.graft block).Stored c ∧
      (T.graft block).parentOf c.header.blockId = some T.finalizedBlockId ∧
      (T.graft block).Descends c.header.blockId block.header.blockId := by
  obtain ⟨-, hshape⟩ := hT.shape.graft hfresh hparent
  obtain ⟨hst, hdesc, hdepth⟩ := kDeepBlock_eq_some hshape stored_graft_self hc
  have hchild := (hshape.mem_children _ cs hcs _).mp hmem
  have hroot : c.header.blockId ≠ "0" := by
    intro he
    rw [he, hshape.parentOf_root] at hchild
    exact absurd hchild (by simp)
  have hcdepth := hshape.graded _ _ hchild
  rw [depthOf_graft_of_mem hfresh hT.final.final_mem] at hcdepth
  have hbdepth := hdepth.resolve_left hroot
  rw [depthOf_graft_self] at hbdepth
  exact ⟨by omega, hst, hchild, hdesc⟩

theorem exists_kDeep_mem_children {cs : List BlockId}
    (hcs : (T.graft block).childrenMap.lookup T.finalizedBlockId = some cs)
    (hdeep : T.depthOf block.header.parent = T.depthOf T.finalizedBlockId + 6) :
    ∃ c, (T.graft block).kDeepBlock 6 block = some c ∧ c.header.blockId ∈ cs := by
  obtain ⟨-, hshape⟩ := hT.shape.graft hfresh hparent
  have hdepth : (T.graft block).depthOf block.header.blockId =
      (T.graft block).depthOf (T.graft block).finalizedBlockId + 6 + 1 := by
    rw [depthOf_graft_self, graft_finalizedBlockId,
      depthOf_graft_of_mem hfresh hT.final.final_mem, hdeep]
  obtain ⟨c, hk, hchild⟩ := kDeepBlock_of_depth hshape (k := 6)
    (show (T.graft block).Stored block from stored_graft_self)
    (descends_graft_block hT hfresh hparent hbelow) hdepth
  exact ⟨c, hk, (hshape.mem_children _ cs hcs _).mpr hchild⟩

theorem finalizeBlock_eq_ok (h : finalizeBlock C profile (T.graft block) block = .ok T') :
    Inserted C profile T block T' := by
  obtain ⟨cs, hcs, h⟩ := Exec.bind_eq_ok.mp h
  rw [Exec.unwrap_eq_ok] at hcs
  have hle := parent_depth_le hT hparent hbelow
  by_cases hdeep : T.depthOf block.header.parent = T.depthOf T.finalizedBlockId + 6
  · obtain ⟨c, hk, hmem⟩ := exists_kDeep_mem_children hT hfresh hparent hbelow hcs hdeep
    rw [hk] at h
    dsimp only at h
    rw [if_pos hmem] at h
    obtain ⟨⟨L, txIds⟩, htxs, h⟩ := Exec.bind_eq_ok.mp h
    obtain ⟨L', hreward, h⟩ := Exec.bind_eq_ok.mp h
    obtain ⟨-, hst, hchild, hdesc⟩ := kDeep_mem_children hT hfresh hparent hcs hk hmem
    obtain rfl := Except.ok.inj h
    exact .finalized c L L' txIds hdeep hst hchild hdesc htxs hreward
  · have hT' : T' = T.graft block := by
      split at h
      · exact (Except.ok.inj h).symm
      · next c hk =>
        split at h
        · next hmem =>
          exact absurd (kDeep_mem_children hT hfresh hparent hcs hk hmem).1 hdeep
        · exact (Except.ok.inj h).symm
    rw [hT']
    exact .hung (by omega)

end Insert

/-! ## What an insertion changes -/

theorem parentOf_newWorking (hT : Shape T) (hfresh : block.header.blockId ∉ T.allBlocks)
    (hparent : block.header.parent ∈ T.allBlocks) :
    (T.graft block).parentOf (T.newWorking block) = some block.header.parent := by
  obtain ⟨-, hshape⟩ := hT.graft hfresh hparent
  have hcs : (T.graft block).childrenMap.lookup block.header.parent = some _ :=
    (lookup_children_graft _).trans (if_pos rfl)
  apply (hshape.mem_children _ _ hcs _).mp
  unfold newWorking
  cases hmax : maxBy compare ((T.childrenMap.lookup block.header.parent).getD [] ++
      [block.header.blockId]) with
  | none => simp
  | some m => exact maxBy_mem hmax

namespace Inserted
variable (h : Inserted C profile T block T')
include h

theorem rootId : T'.rootId = T.rootId := by cases h <;> rfl
theorem allBlocks : T'.allBlocks = (T.graft block).allBlocks := by cases h <;> rfl
theorem orphans : T'.orphans = T.orphans := by cases h <;> rfl
theorem workingBlockId : T'.workingBlockId = T.newWorking block := by cases h <;> rfl
theorem childrenMap : T'.childrenMap = (T.graft block).childrenMap := by cases h <;> rfl
theorem getBlock : T'.getBlock = (T.graft block).getBlock := by cases h <;> rfl
theorem parentOf : T'.parentOf = (T.graft block).parentOf := by cases h <;> rfl
theorem depthOf : T'.depthOf = (T.graft block).depthOf := by cases h <;> rfl

theorem stored : T'.Stored block := by
  rw [Stored, h.getBlock]
  exact stored_graft_self

theorem stored_cases {b : BlockNode} (hb : T'.Stored b) : b = block ∨ T.Stored b := by
  rw [Stored, h.getBlock, getBlock_graft] at hb
  split at hb
  · exact .inl (Option.some.inj hb).symm
  · exact .inr hb

theorem mem_allBlocks {id : BlockId} :
    id ∈ T'.allBlocks ↔ id = block.header.blockId ∨ id ∈ T.allBlocks := by
  rw [h.allBlocks]
  exact mem_graft

theorem shape (hT : Shape T) (hfresh : block.header.blockId ∉ T.allBlocks)
    (hparent : block.header.parent ∈ T.allBlocks) : Shape T' := by
  have hshape := (hT.graft hfresh hparent).2
  cases h with
  | hung => exact hshape
  | finalized c L L' txIds => exact hshape.finalized _ _ _

theorem forest (hT : Shape T) (hfresh : block.header.blockId ∉ T.allBlocks)
    (hparent : block.header.parent ∈ T.allBlocks) :
    Forest.Graft T.parentOf block.header.blockId block.header.parent T'.parentOf := by
  rw [h.parentOf]
  exact hT.graft_forest hfresh hparent

theorem descends_old (hT : Shape T) (hfresh : block.header.blockId ∉ T.allBlocks)
    (hparent : block.header.parent ∈ T.allBlocks) {a id : BlockId} (hid : id ∈ T.allBlocks) :
    T'.Descends a id ↔ T.Descends a id :=
  (h.forest hT hfresh hparent).descends_old fun he => hfresh (he ▸ hid)

theorem descends_leaf (hT : Shape T) (hfresh : block.header.blockId ∉ T.allBlocks)
    (hparent : block.header.parent ∈ T.allBlocks) {a : BlockId} :
    T'.Descends a block.header.blockId ↔
      block.header.blockId = a ∨ T.Descends a block.header.parent :=
  (h.forest hT hfresh hparent).descends_leaf

theorem depthOf_leaf : T'.depthOf block.header.blockId = T.depthOf block.header.parent + 1 := by
  rw [h.depthOf]
  exact depthOf_graft_self

theorem depthOf_old (hfresh : block.header.blockId ∉ T.allBlocks) {id : BlockId}
    (hid : id ∈ T.allBlocks) : T'.depthOf id = T.depthOf id := by
  rw [h.depthOf]
  exact depthOf_graft_of_mem hfresh hid

theorem parentOf_working (hT : Shape T) (hfresh : block.header.blockId ∉ T.allBlocks)
    (hparent : block.header.parent ∈ T.allBlocks) :
    T'.parentOf T'.workingBlockId = some block.header.parent := by
  rw [h.workingBlockId, h.parentOf]
  exact parentOf_newWorking hT hfresh hparent

theorem final_cases :
    (T'.finalizedBlockId = T.finalizedBlockId ∧
      T.depthOf block.header.parent < T.depthOf T.finalizedBlockId + 6) ∨
    (T'.parentOf T'.finalizedBlockId = some T.finalizedBlockId ∧
      T'.Descends T'.finalizedBlockId block.header.blockId ∧
      T.depthOf block.header.parent = T.depthOf T.finalizedBlockId + 6) := by
  cases h with
  | hung hdepth => exact .inl ⟨rfl, hdepth⟩
  | finalized c L L' txIds hdepth _ hchild hdesc => exact .inr ⟨hchild, hdesc, hdepth⟩

theorem final_descends : T'.Descends T.finalizedBlockId T'.finalizedBlockId := by
  rcases h.final_cases with ⟨he, -⟩ | ⟨hchild, -, -⟩
  · rw [he]
    exact .refl _
  · exact .of_parent hchild

theorem final_above_parent (hT : Inv T) (hfresh : block.header.blockId ∉ T.allBlocks)
    (hparent : block.header.parent ∈ T.allBlocks) (hbelow : T.BelowFinal block.header.parent) :
    T'.Descends T'.finalizedBlockId block.header.parent := by
  rcases h.final_cases with ⟨he, -⟩ | ⟨hchild, hdesc, hdepth⟩
  · rw [he]
    exact (h.descends_old hT.shape hfresh hparent hparent).mpr (hbelow.descends hT.shape hparent)
  · have hleaf := (h.forest hT.shape hfresh hparent).leaf
    refine ((Forest.descends_iff_of_parent hleaf).mp hdesc).resolve_left fun heq => ?_
    -- the new block is seven deeper than the block whose child is final
    have h₁ := (h.shape hT.shape hfresh hparent).graded _ _ hchild
    have h₂ := h.depthOf_leaf
    rw [h.depthOf_old hfresh hT.final.final_mem] at h₁
    rw [heq] at h₂
    omega

theorem inv (hT : Inv T) (hfresh : block.header.blockId ∉ T.allBlocks)
    (hparent : block.header.parent ∈ T.allBlocks) (hbelow : T.BelowFinal block.header.parent) :
    Inv T' := by
  have hshape := h.shape hT.shape hfresh hparent
  have hwork := h.parentOf_working hT.shape hfresh hparent
  have habove := h.final_above_parent hT hfresh hparent hbelow
  have hdepthf := h.depthOf_old hfresh hT.final.final_mem
  refine ⟨hshape, ?_⟩
  constructor
  case final_mem =>
    rcases h.final_cases with ⟨he, -⟩ | ⟨hchild, -, -⟩
    · rw [he]
      exact h.mem_allBlocks.mpr (.inr hT.final.final_mem)
    · exact (hshape.mem_of_parentOf hchild).1
  case working_mem => exact (hshape.mem_of_parentOf hwork).1
  case working_below => exact .step hwork habove
  case working_ne =>
    intro _ heq
    have h₁ := hshape.graded _ _ hwork
    have h₂ := hshape.graded.le habove
    rw [heq] at h₁
    omega
  case depth_le =>
    intro id hid hdesc
    have hold : id ∈ T.allBlocks → T.depthOf id ≤ T.depthOf T.finalizedBlockId + 6 := fun hid =>
      hT.final.depth_le id hid ((h.descends_old hT.shape hfresh hparent hid).mp
        (Forest.Descends.trans h.final_descends hdesc))
    rcases h.final_cases with ⟨he, hdepth⟩ | ⟨hchild, -, hdepth⟩
    · rw [he, hdepthf]
      rcases h.mem_allBlocks.mp hid with rfl | hid
      · rw [h.depthOf_leaf]
        omega
      · rw [h.depthOf_old hfresh hid]
        exact hold hid
    · rw [hshape.graded _ _ hchild, hdepthf]
      rcases h.mem_allBlocks.mp hid with rfl | hid
      · rw [h.depthOf_leaf]
        omega
      · rw [h.depthOf_old hfresh hid]
        exact (hold hid).trans (by omega)
  case depth_eq =>
    intro hne
    rcases h.final_cases with ⟨he, -⟩ | ⟨hchild, hdesc, hdepth⟩
    · -- the deepest block below the old finalized block is still there
      rw [he] at hne ⊢
      obtain ⟨id, hid, hdesc, hdepth⟩ := hT.final.depth_eq hne
      refine ⟨id, h.mem_allBlocks.mpr (.inr hid),
        (h.descends_old hT.shape hfresh hparent hid).mpr hdesc, ?_⟩
      rw [hdepthf, h.depthOf_old hfresh hid, hdepth]
    · refine ⟨block.header.blockId, h.mem_allBlocks.mpr (.inl rfl), hdesc, ?_⟩
      rw [h.depthOf_leaf, hshape.graded _ _ hchild, hdepthf]
      omega

end Inserted

theorem Accepts.inserted (h : Accepts C profile leadingZeroLen T block) (hT : Inv T)
    (hupd : updateBlocktree C profile T block = .ok T') :
    Inserted C profile T block T' ∧ Inv T' := by
  rw [updateBlocktree_eq hT.shape h.parent_mem] at hupd
  have hbelow := h.belowFinal hT.shape
  have hins := finalizeBlock_eq_ok hT h.fresh h.parent_mem hbelow hupd
  exact ⟨hins, hins.inv hT h.fresh h.parent_mem hbelow⟩

/-! ## The orphans play no part -/

theorem accepts_withOrphans (os : AList fun _ : BlockId => BlockNode) :
    Accepts C profile leadingZeroLen { T with orphans := os } block ↔
      Accepts C profile leadingZeroLen T block :=
  ⟨fun h => ⟨h.fresh, h.integrity, h.connects⟩, fun h => ⟨h.fresh, h.integrity, h.connects⟩⟩

theorem kDeepBlock_withOrphans (os : AList fun _ : BlockId => BlockNode) :
    ∀ (k : ℕ) (b : BlockNode), kDeepBlock { T with orphans := os } k b = T.kDeepBlock k b
  | 0, _ => rfl
  | k + 1, b => by
      rw [kDeepBlock, kDeepBlock]
      exact ite_congr rfl (fun _ => rfl) fun _ =>
        Option.bind_congr fun b' _ => kDeepBlock_withOrphans os k b'

theorem finalizeBlock_withOrphans (os : AList fun _ : BlockId => BlockNode)
    (h : finalizeBlock C profile T block = .ok T') :
    finalizeBlock C profile { T with orphans := os } block = .ok { T' with orphans := os } := by
  obtain ⟨cs, hcs, h⟩ := Exec.bind_eq_ok.mp h
  rw [finalizeBlock, hcs, Exec.ok_bind, kDeepBlock_withOrphans]
  split at h
  · obtain rfl := Except.ok.inj h
    rfl
  · next c =>
    dsimp only
    split at h
    · next hmem =>
      obtain ⟨s, htxs, h⟩ := Exec.bind_eq_ok.mp h
      obtain ⟨L, hreward, h⟩ := Exec.bind_eq_ok.mp h
      obtain rfl := Except.ok.inj h
      rw [if_pos hmem, htxs, Exec.ok_bind]
      dsimp only
      rw [hreward, Exec.ok_bind]
    · next hmem =>
      obtain rfl := Except.ok.inj h
      rw [if_neg hmem]

theorem updateBlocktree_withOrphans (os : AList fun _ : BlockId => BlockNode)
    (h : updateBlocktree C profile T block = .ok T') :
    updateBlocktree C profile { T with orphans := os } block = .ok { T' with orphans := os } := by
  obtain ⟨d, hd, h⟩ := Exec.bind_eq_ok.mp h
  obtain ⟨cs, hcs, h⟩ := Exec.bind_eq_ok.mp h
  rw [updateBlocktree, hd, Exec.ok_bind]
  dsimp only
  rw [hcs, Exec.ok_bind]
  exact finalizeBlock_withOrphans os h

end BlockTree

end NakamotoNode.Chain
