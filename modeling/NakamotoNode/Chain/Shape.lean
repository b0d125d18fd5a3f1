import NakamotoNode.Chain.BlockTree
import NakamotoNode.Foundations.Forest

/-! # The representation invariant of the block tree

`Shape T`: the maps of a block tree agree with each other, so that its blocks form a forest with
the genesis block as only root (`parentOf`) and `depthOf` as depth. `graft` is what
`update_blocktree` writes before it finalizes; it hangs a new leaf below a stored block. -/

namespace NakamotoNode.Chain
open Foundations Foundations.RustStd
set_option autoImplicit false

namespace BlockTree

/-- The parent link of a stored block; the root has none. -/
def parentOf (T : BlockTree) (id : BlockId) : Option BlockId :=
  if id = T.rootId then none else (T.getBlock id).map fun b => b.header.parent

def depthOf (T : BlockTree) (id : BlockId) : ℕ := (T.blockDepth.lookup id).getD 0

/-- `id` is `a` or a stored descendant of `a`. -/
def Descends (T : BlockTree) (a id : BlockId) : Prop := Forest.Descends T.parentOf a id

/-- The maps are keyed by block ids and agree with the parent links. -/
structure Shape (T : BlockTree) : Prop where
  root_id : T.rootId = "0"
  root_block : T.getBlock "0" = some BlockNode.genesisBlock
  root_depth : T.blockDepth.lookup "0" = some 0
  all_keyed : ∀ id b, T.getBlock id = some b → b.header.blockId = id
  orphans_keyed : ∀ id b, T.orphans.lookup id = some b → b.header.blockId = id
  depth_keys : ∀ id, id ∈ T.blockDepth ↔ id ∈ T.allBlocks
  parent_mem : ∀ id b, T.getBlock id = some b → id ≠ "0" → b.header.parent ∈ T.allBlocks
  depth_succ : ∀ id b, T.getBlock id = some b → id ≠ "0" →
    T.depthOf id = T.depthOf b.header.parent + 1
  children_nodup : ∀ p cs, T.childrenMap.lookup p = some cs → cs.Nodup
  mem_children : ∀ p cs, T.childrenMap.lookup p = some cs →
    ∀ id, id ∈ cs ↔ T.parentOf id = some p
  children_keys : ∀ p, p ∈ T.childrenMap ↔ ∃ id, T.parentOf id = some p

theorem mem_allBlocks_iff {T : BlockTree} {id : BlockId} :
    id ∈ T.allBlocks ↔ ∃ b, T.getBlock id = some b := by
  rw [← AList.lookup_isSome, Option.isSome_iff_exists]
  rfl

theorem mem_of_getBlock {T : BlockTree} {id : BlockId} {b : BlockNode}
    (h : T.getBlock id = some b) : id ∈ T.allBlocks := mem_allBlocks_iff.mpr ⟨b, h⟩

theorem getBlock_eq_none {T : BlockTree} {id : BlockId} :
    T.getBlock id = none ↔ id ∉ T.allBlocks := AList.lookup_eq_none

theorem mem_orphans_of_lookup {T : BlockTree} {id : BlockId} {o : BlockNode}
    (h : T.orphans.lookup id = some o) : id ∈ T.orphans := by
  rw [← AList.lookup_isSome, h]
  rfl

namespace Shape
variable {T : BlockTree}

theorem root_mem (h : Shape T) : "0" ∈ T.allBlocks := mem_of_getBlock h.root_block

theorem parentOf_eq_some (h : Shape T) {id p : BlockId} :
    T.parentOf id = some p ↔ id ≠ "0" ∧ ∃ b, T.getBlock id = some b ∧ b.header.parent = p := by
  unfold parentOf
  rw [h.root_id]
  split <;> simp_all

theorem parentOf_of_getBlock (h : Shape T) {id : BlockId} {b : BlockNode}
    (hb : T.getBlock id = some b) (hid : id ≠ "0") : T.parentOf id = some b.header.parent :=
  h.parentOf_eq_some.mpr ⟨hid, b, hb, rfl⟩

@[simp] theorem parentOf_root (h : Shape T) : T.parentOf "0" = none := by
  simp [parentOf, h.root_id]

theorem getBlock_root_parent (h : Shape T) {b : BlockNode} (hb : T.getBlock "0" = some b) :
    b = BlockNode.genesisBlock := Option.some.inj (hb.symm.trans h.root_block)

theorem mem_of_parentOf (h : Shape T) {id p : BlockId} (hp : T.parentOf id = some p) :
    id ∈ T.allBlocks ∧ p ∈ T.allBlocks := by
  obtain ⟨hid, b, hb, rfl⟩ := h.parentOf_eq_some.mp hp
  exact ⟨mem_of_getBlock hb, h.parent_mem id b hb hid⟩

theorem graded (h : Shape T) : Forest.Graded T.parentOf T.depthOf := by
  intro id p hp
  obtain ⟨hid, b, hb, rfl⟩ := h.parentOf_eq_some.mp hp
  exact h.depth_succ id b hb hid

@[simp] theorem depthOf_root (h : Shape T) : T.depthOf "0" = 0 := by
  simp [depthOf, h.root_depth]

theorem depth_lookup (h : Shape T) {id : BlockId} (hid : id ∈ T.allBlocks) :
    T.blockDepth.lookup id = some (T.depthOf id) := by
  obtain ⟨d, hd⟩ := Option.isSome_iff_exists.mp (AList.lookup_isSome.mpr ((h.depth_keys id).mpr hid))
  rw [depthOf, hd, Option.getD_some]

theorem descends_root (h : Shape T) {id : BlockId} (hid : id ∈ T.allBlocks) :
    T.Descends "0" id := by
  induction hd : T.depthOf id generalizing id with
  | zero =>
    by_cases hroot : id = "0"
    · subst hroot
      exact .refl _
    · obtain ⟨b, hb⟩ := mem_allBlocks_iff.mp hid
      have := h.depth_succ id b hb hroot
      omega
  | succ n ih =>
    have hroot : id ≠ "0" := by
      rintro rfl
      rw [h.depthOf_root] at hd
      omega
    obtain ⟨b, hb⟩ := mem_allBlocks_iff.mp hid
    have hdepth := h.depth_succ id b hb hroot
    exact .step (h.parentOf_of_getBlock hb hroot) (ih (h.parent_mem id b hb hroot) (by omega))

theorem eq_root_of_descends (h : Shape T) {a : BlockId} (hd : T.Descends a "0") : a = "0" :=
  ((Forest.descends_root_iff h.parentOf_root).mp hd).symm

theorem mem_children_getD (h : Shape T) {p id : BlockId} :
    id ∈ (T.childrenMap.lookup p).getD [] ↔ T.parentOf id = some p := by
  cases hl : T.childrenMap.lookup p with
  | none =>
    have hnone : ¬ ∃ id, T.parentOf id = some p := by
      rw [← h.children_keys]
      exact AList.lookup_eq_none.mp hl
    simpa using fun hid => hnone ⟨id, hid⟩
  | some cs => exact h.mem_children p cs hl id

theorem children_getD_nodup (h : Shape T) (p : BlockId) :
    ((T.childrenMap.lookup p).getD []).Nodup := by
  cases hl : T.childrenMap.lookup p with
  | none => exact List.nodup_nil
  | some cs => exact h.children_nodup p cs hl

theorem children_singleton (h : Shape T) {p child : BlockId} (hchild : T.parentOf child = some p)
    (honly : ∀ id, T.parentOf id = some p → id = child) :
    T.childrenMap.lookup p = some [child] := by
  obtain ⟨cs, hcs⟩ := Option.isSome_iff_exists.mp
    (AList.lookup_isSome.mpr ((h.children_keys p).mpr ⟨child, hchild⟩))
  have hone : cs.Perm [child] := by
    refine (List.perm_ext_iff_of_nodup (h.children_nodup p cs hcs)
      (List.nodup_singleton _)).mpr fun id => ?_
    rw [h.mem_children p cs hcs, List.mem_singleton]
    exact ⟨honly id, fun he => he ▸ hchild⟩
  rw [hcs, List.perm_singleton.mp hone]

end Shape

/-! ## A new leaf -/

/-- The working block that `update_blocktree` picks: the greatest id below the same parent. -/
def newWorking (T : BlockTree) (block : BlockNode) : BlockId :=
  (maxBy compare ((T.childrenMap.lookup block.header.parent).getD [] ++
    [block.header.blockId])).getD block.header.blockId

/-- The tree that `update_blocktree` hands to `finalize_block`. -/
def graft (T : BlockTree) (block : BlockNode) : BlockTree :=
  { T with
    allBlocks := T.allBlocks.insert block.header.blockId block
    blockDepth := T.blockDepth.insert block.header.blockId (T.depthOf block.header.parent + 1)
    childrenMap := T.childrenMap.insert block.header.parent
      ((T.childrenMap.lookup block.header.parent).getD [] ++ [block.header.blockId])
    workingBlockId := T.newWorking block }

section Graft
variable {T : BlockTree} {block : BlockNode}

@[simp] theorem graft_rootId : (T.graft block).rootId = T.rootId := rfl
@[simp] theorem graft_finalizedBlockId :
    (T.graft block).finalizedBlockId = T.finalizedBlockId := rfl
@[simp] theorem graft_finalizedBalanceMap :
    (T.graft block).finalizedBalanceMap = T.finalizedBalanceMap := rfl

theorem getBlock_graft (id : BlockId) : (T.graft block).getBlock id =
    if id = block.header.blockId then some block else T.getBlock id := by
  unfold getBlock graft
  split
  · next h => rw [h, AList.lookup_insert]
  · next h => rw [AList.lookup_insert_ne h]

theorem getBlock_graft_self : (T.graft block).getBlock block.header.blockId = some block := by
  rw [getBlock_graft, if_pos rfl]

theorem getBlock_graft_of_ne {id : BlockId} (h : id ≠ block.header.blockId) :
    (T.graft block).getBlock id = T.getBlock id := by
  rw [getBlock_graft, if_neg h]

theorem mem_graft {id : BlockId} :
    id ∈ (T.graft block).allBlocks ↔ id = block.header.blockId ∨ id ∈ T.allBlocks :=
  AList.mem_insert _

theorem depthOf_graft (id : BlockId) : (T.graft block).depthOf id =
    if id = block.header.blockId then T.depthOf block.header.parent + 1 else T.depthOf id := by
  unfold depthOf graft
  split
  · next h => rw [h, AList.lookup_insert, Option.getD_some]; rfl
  · next h => rw [AList.lookup_insert_ne h]

theorem lookup_children_graft (p : BlockId) : (T.graft block).childrenMap.lookup p =
    if p = block.header.parent then
      some ((T.childrenMap.lookup block.header.parent).getD [] ++ [block.header.blockId])
    else T.childrenMap.lookup p := by
  unfold graft
  split
  · next h => rw [h, AList.lookup_insert]
  · next h => rw [AList.lookup_insert_ne h]

end Graft

theorem Shape.graft_forest {T : BlockTree} {block : BlockNode} (h : Shape T)
    (hfresh : block.header.blockId ∉ T.allBlocks) (hparent : block.header.parent ∈ T.allBlocks) :
    Forest.Graft T.parentOf block.header.blockId block.header.parent (T.graft block).parentOf := by
  have hne : block.header.parent ≠ block.header.blockId := fun he => hfresh (he ▸ hparent)
  have hroot : block.header.blockId ≠ "0" := fun he => hfresh (he ▸ h.root_mem)
  refine ⟨?_, fun id hid => ?_, fun id hp => hfresh (h.mem_of_parentOf hp).2, hne⟩
  · rw [parentOf, graft_rootId, h.root_id, if_neg hroot, getBlock_graft_self]
    rfl
  · rw [parentOf, parentOf, graft_rootId, getBlock_graft_of_ne hid]

theorem Shape.graft {T : BlockTree} {block : BlockNode} (h : Shape T)
    (hfresh : block.header.blockId ∉ T.allBlocks) (hparent : block.header.parent ∈ T.allBlocks) :
    Forest.Graft T.parentOf block.header.blockId block.header.parent (T.graft block).parentOf ∧
      Shape (T.graft block) := by
  have hforest := h.graft_forest hfresh hparent
  have hne : block.header.parent ≠ block.header.blockId := hforest.fresh_leaf
  have hroot : block.header.blockId ≠ "0" := fun he => hfresh (he ▸ h.root_mem)
  have hold : ∀ id, id ∈ T.allBlocks → id ≠ block.header.blockId :=
    fun id hid he => hfresh (he ▸ hid)
  refine ⟨hforest, ?_⟩
  constructor
  case root_id => exact h.root_id
  case root_block => rw [getBlock_graft_of_ne (Ne.symm hroot), h.root_block]
  case root_depth =>
    rw [BlockTree.graft, AList.lookup_insert_ne (Ne.symm hroot), h.root_depth]
  case all_keyed =>
    intro id b hb
    rw [getBlock_graft] at hb
    split at hb
    · next he => rw [← Option.some.inj hb, he]
    · exact h.all_keyed id b hb
  case orphans_keyed => exact h.orphans_keyed
  case depth_keys =>
    intro id
    rw [mem_graft, ← h.depth_keys id]
    exact AList.mem_insert _
  case parent_mem =>
    intro id b hb hid
    rw [mem_graft]
    rw [getBlock_graft] at hb
    split at hb
    · obtain rfl := Option.some.inj hb
      exact .inr hparent
    · exact .inr (h.parent_mem id b hb hid)
  case depth_succ =>
    intro id b hb hid
    rw [getBlock_graft] at hb
    split at hb
    · next he =>
      obtain rfl := Option.some.inj hb
      rw [depthOf_graft, if_pos he, depthOf_graft, if_neg hne]
    · next he =>
      have hp := hold _ (h.parent_mem id b hb hid)
      rw [depthOf_graft, if_neg he, depthOf_graft, if_neg hp, h.depth_succ id b hb hid]
  case children_nodup =>
    intro p cs hcs
    rw [lookup_children_graft] at hcs
    split at hcs
    · obtain rfl := Option.some.inj hcs
      rw [← List.concat_eq_append]
      exact (h.children_getD_nodup _).concat fun hmem =>
        hfresh (h.mem_of_parentOf (h.mem_children_getD.mp hmem)).1
    · exact h.children_nodup p cs hcs
  case mem_children =>
    intro p cs hcs id
    rw [lookup_children_graft] at hcs
    split at hcs
    · next hp =>
      subst hp
      obtain rfl := Option.some.inj hcs
      rw [List.mem_append, List.mem_singleton, h.mem_children_getD]
      by_cases hid : id = block.header.blockId
      · subst hid
        simp [hforest.leaf]
      · rw [hforest.old id hid]
        simp [hid]
    · next hp =>
      rw [h.mem_children p cs hcs id]
      by_cases hid : id = block.header.blockId
      · subst hid
        rw [hforest.leaf]
        constructor
        · exact fun he => absurd (h.mem_of_parentOf he).1 hfresh
        · exact fun he => absurd (Option.some.inj he).symm hp
      · rw [hforest.old id hid]
  case children_keys =>
    intro p
    rw [BlockTree.graft, AList.mem_insert, h.children_keys]
    constructor
    · rintro (rfl | ⟨id, hid⟩)
      · exact ⟨_, hforest.leaf⟩
      · exact ⟨id, (hforest.old id (hold id (h.mem_of_parentOf hid).1)).trans hid⟩
    · rintro ⟨id, hid⟩
      by_cases he : id = block.header.blockId
      · subst he
        exact .inl (Option.some.inj (hid.symm.trans hforest.leaf))
      · exact .inr ⟨id, (hforest.old id he).symm.trans hid⟩

/-! ## The other writes -/

/-- The shape does not depend on what is final. -/
theorem Shape.finalized {T : BlockTree} (h : Shape T) (f : BlockId) (L : Ledger UserId)
    (ids : Finset TxId) :
    Shape { T with finalizedTxIds := ids, finalizedBalanceMap := L, finalizedBlockId := f } :=
  ⟨h.root_id, h.root_block, h.root_depth, h.all_keyed, h.orphans_keyed, h.depth_keys,
    h.parent_mem, h.depth_succ, h.children_nodup, h.mem_children, h.children_keys⟩

theorem Shape.storeOrphan {T : BlockTree} (h : Shape T) (block : BlockNode) :
    Shape { T with orphans := T.orphans.insert block.header.blockId block } := by
  refine ⟨h.root_id, h.root_block, h.root_depth, h.all_keyed, fun id b hb => ?_, h.depth_keys,
    h.parent_mem, h.depth_succ, h.children_nodup, h.mem_children, h.children_keys⟩
  by_cases hid : id = block.header.blockId
  · subst hid
    rw [AList.lookup_insert] at hb
    rw [Option.some.inj hb]
  · rw [AList.lookup_insert_ne hid] at hb
    exact h.orphans_keyed id b hb

theorem Shape.eraseOrphan {T : BlockTree} (h : Shape T) (id : BlockId) :
    Shape { T with orphans := T.orphans.erase id } := by
  refine ⟨h.root_id, h.root_block, h.root_depth, h.all_keyed, fun id' b hb => ?_, h.depth_keys,
    h.parent_mem, h.depth_succ, h.children_nodup, h.mem_children, h.children_keys⟩
  by_cases hid : id' = id
  · subst hid
    rw [AList.lookup_erase] at hb
    exact absurd hb (by simp)
  · rw [AList.lookup_erase_ne hid] at hb
    exact h.orphans_keyed id' b hb

end BlockTree

end NakamotoNode.Chain
