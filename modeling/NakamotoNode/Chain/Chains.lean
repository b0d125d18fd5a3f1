import Mathlib.Data.Fintype.Basic
import Mathlib.Tactic.FinCases
import NakamotoNode.Chain.Acceptance

/-! # Chains of good blocks

In a `Tip` tree the working block is at the tip: it has no child and no block is deeper. A block
that fits (`Fits`) extends it, and a chain of such blocks is accepted whole (`Tip.run`); the
seventh makes the first final. At the end, blocks mined and signed with the keys of the
repository's test wallets. -/

namespace NakamotoNode.Chain
open Foundations Foundations.RustStd
set_option autoImplicit false

namespace BlockTree
variable {C : Crates} {profile : Profile} {leadingZeroLen : ℕ} {T T' : BlockTree}
  {block : BlockNode} {v : ℤ}

/-! ## The tip -/

/-- The block extends the working block. -/
def ExtendsWorking (T : BlockTree) (block : BlockNode) : Prop :=
  block.header.parent = T.workingBlockId

/-- The working block has no child and no block is deeper; `line` is its branch, and the blocks of
the tree are among `bs`. -/
structure Tip (C : Crates) (v : ℤ) (bs line : List BlockNode) (T : BlockTree) : Prop where
  inv : Inv T
  modest : Modest v T
  replayed : Replayed C T
  branch : T.branch T.workingBlockId = line
  childless : T.childrenMap.lookup T.workingBlockId = none
  deepest : ∀ id ∈ T.allBlocks, T.depthOf id ≤ line.length
  stored : ∀ b, T.Stored b → b.header.blockId ≠ "0" → b ∈ bs

theorem tip_genesisTree (C : Crates) (v : ℤ) : Tip C v [] [] genesisTree where
  inv := inv_genesisTree
  modest := by
    have hdepth : genesisTree.depthOf genesisTree.finalizedBlockId = 0 :=
      shape_genesisTree.depthOf_root
    refine ⟨fun b hb hid => absurd (getBlock_genesisTree hb).1 hid,
      fun b hb hid => absurd (getBlock_genesisTree hb).1 hid, fun u => ?_⟩
    have hbal := (replayed_genesisTree C).balance u
    have hroot : genesisTree.replay genesisTree.finalizedBlockId u = genesisCredit u :=
      replay_root shape_genesisTree u
    rw [hbal, hroot, hdepth, genesisCredit_eq]
    split <;> simp
  replayed := replayed_genesisTree C
  branch := branch_root shape_genesisTree
  childless := rfl
  deepest := fun id hid => by
    obtain ⟨b, hb⟩ := mem_allBlocks_iff.mp hid
    obtain ⟨rfl, -⟩ := getBlock_genesisTree hb
    exact Nat.le_refl 0
  stored := fun b hb hid => absurd (getBlock_genesisTree hb).1 hid

/-- What a block must have by itself to be put on top of the blocks `bs`, below the block `w`. -/
structure Fits (C : Crates) (leadingZeroLen : ℕ) (v : ℤ) (w : BlockId) (bs : List BlockNode)
    (block : BlockNode) : Prop where
  parent : block.header.parent = w
  id_ne_root : block.header.blockId ≠ "0"
  integrity : verifyBlockIntegrity C block leadingZeroLen = .ok true
  parses : ∀ tx ∈ block.txs, tx.Parses
  senders : ∀ tx ∈ block.txs, tx.sender = alice
  volume_le : volume block.txs ≤ v
  ids : ∀ b ∈ bs, b.header.blockId ≠ block.header.blockId
  roots : ∀ b ∈ bs, b.header.parent ≠ "0" → block.header.merkleRoot ≠ b.header.merkleRoot

namespace Tip
variable {bs line : List BlockNode} (h : Tip C v bs line T)
include h

theorem depth_working : T.depthOf T.workingBlockId = line.length := by
  rw [← length_branch h.inv.shape h.inv.final.working_mem, h.branch]

theorem working_eq_head {b : BlockNode} {l : List BlockNode} (hline : line = b :: l) :
    T.workingBlockId = b.header.blockId := by
  obtain ⟨w, hw⟩ := mem_allBlocks_iff.mp h.inv.final.working_mem
  by_cases hroot : T.workingBlockId = "0"
  · have := h.branch
    rw [hroot, branch_root h.inv.shape, hline] at this
    exact absurd this (by simp)
  · have := h.branch
    rw [branch_of_parent h.inv.shape hw hroot, hline] at this
    rw [← (List.cons.inj this).1, (h.inv.shape.stored_of_getBlock hw).1]

theorem storeOrphan (o : BlockNode) :
    Tip C v bs line { T with orphans := T.orphans.insert o.header.blockId o } where
  inv := h.inv.storeOrphan o
  modest := ⟨h.modest.parses, h.modest.volume_le, h.modest.within⟩
  replayed := (keeps_replayed 0).orphans _ h.replayed
  branch := by
    rw [branch_withOrphans]
    exact h.branch
  childless := h.childless
  deepest := h.deepest
  stored := h.stored

theorem mem_line {b : BlockNode} (hb : b ∈ line) : T.Stored b ∧ b.header.blockId ≠ "0" ∧
    T.Descends b.header.blockId T.workingBlockId := by
  rw [← h.branch] at hb
  exact (mem_branch h.inv.shape).mp hb

theorem alice_le (hlen : (v + 10) * (2 * line.length + 2) ≤ 299792458) (hv : 0 ≤ v) :
    v ≤ T.pendingBalance alice := by
  have hle := le_pendingBalance h.inv h.replayed alice
  rw [h.branch, genesisCredit_eq, if_pos rfl] at hle
  have hflow : ∀ l : List BlockNode, (∀ b ∈ l, volume b.txs ≤ v) →
      -(v * l.length) ≤ (l.map fun b => b.flow alice).sum := by
    intro l hl
    induction l with
    | nil => simp
    | cons b l ih =>
      have hb := hl b (by simp)
      have hrest := ih fun b' hb' => hl b' (by simp [hb'])
      have hone : -(volume b.txs) ≤ b.flow alice := neg_volume_le_flow b alice
      rw [List.map_cons, List.sum_cons, List.length_cons]
      push_cast
      linarith
  have hline := hflow line fun b hb =>
    h.modest.volume_le b (h.mem_line hb).1 (h.mem_line hb).2.1
  have hnn : (0 : ℤ) ≤ line.length := Int.natCast_nonneg _
  have hvl : 0 ≤ v * line.length := mul_nonneg hv hnn
  linarith

theorem bound_le {w : BlockId} (hw : w ∈ T.allBlocks) (hv : 0 ≤ v)
    (hlen : (v + 10) * (2 * line.length + 2) ≤ 299792458) :
    299792458 + (v + 10) * (T.depthOf T.workingBlockId + T.depthOf w + 2) < 2 ^ 63 := by
  have hdepth := h.deepest w hw
  have hle : (v + 10) * (T.depthOf T.workingBlockId + T.depthOf w + 2 : ℤ) ≤
      (v + 10) * (2 * line.length + 2) := by
    rw [h.depth_working]
    exact mul_le_mul_of_nonneg_left (by omega) (by omega)
  linarith

/-- A block that fits is good, also below another block than the working one. -/
theorem good {w : BlockId} (hfits : Fits C leadingZeroLen v w bs block) (hw : w ∈ T.allBlocks)
    (hbelow : T.BelowFinal w) (hlen : (v + 10) * (2 * line.length + 2) ≤ 299792458) :
    Good C leadingZeroLen v T block := by
  have hv := (volume_nonneg _).trans hfits.volume_le
  obtain rfl := hfits.parent
  constructor
  case fresh =>
    intro hmem
    obtain ⟨b, hb⟩ := mem_allBlocks_iff.mp hmem
    obtain ⟨hid, hst⟩ := h.inv.shape.stored_of_getBlock hb
    exact hfits.ids b (h.stored b hst (hid ▸ hfits.id_ne_root)) hid
  case integrity => exact hfits.integrity
  case parent_mem => exact hw
  case below => exact hbelow
  case roots =>
    intro b hb _ hparent
    exact hfits.roots b (h.stored b hb (h.inv.shape.ne_root_of_parent_ne hb hparent)) hparent
  case parses => exact hfits.parses
  case volume_le => exact hfits.volume_le
  case funded =>
    refine funded_of_sender (a := alice) (fun t ht => ?_) ?_
    · obtain ⟨tx, htx, rfl⟩ := List.mem_map.mp ht
      exact hfits.senders tx htx
    · rw [sum_transfer_amount]
      exact hfits.volume_le.trans (h.alice_le hlen hv)
  case bound => exact h.bound_le hw hv hlen

/-- A good block that is as deep as the rest and becomes the working block is the new tip. -/
theorem of_inserted (hgood : Good C leadingZeroLen v T block)
    (hins : Inserted C profile T block T') (hT' : Inv T' ∧ Modest v T' ∧ Replayed C T')
    (hwork : T'.workingBlockId = block.header.blockId)
    (hle : line.length ≤ T.depthOf block.header.parent + 1) :
    Tip C v (block :: bs) (block :: T.branch block.header.parent) T' := by
  constructor
  case inv => exact hT'.1
  case modest => exact hT'.2.1
  case replayed => exact hT'.2.2
  case branch => rw [hwork, hins.branch_leaf h.inv.shape hgood.fresh hgood.parent_mem]
  case childless =>
    have hne : block.header.blockId ≠ block.header.parent :=
      fun he => hgood.fresh (he ▸ hgood.parent_mem)
    rw [hwork, hins.childrenMap, graft, AList.lookup_insert_ne hne, AList.lookup_eq_none,
      h.inv.shape.children_keys]
    rintro ⟨id, hid⟩
    exact hgood.fresh (h.inv.shape.mem_of_parentOf hid).2
  case deepest =>
    intro id hid
    rw [List.length_cons, length_branch h.inv.shape hgood.parent_mem]
    rcases hins.mem_allBlocks.mp hid with rfl | hid
    · rw [hins.depthOf_leaf]
    · rw [hins.depthOf_old hgood.fresh hid]
      exact (h.deepest id hid).trans hle
  case stored =>
    intro b hb hid
    rcases hins.stored_cases hb with rfl | hb
    · exact List.mem_cons_self
    · exact List.mem_cons_of_mem _ (h.stored b hb hid)

variable (profile) in
theorem insert_good (hgood : Good C leadingZeroLen v T block) (hparent : ExtendsWorking T block) :
    ∃ T', Accepts C profile leadingZeroLen T block ∧ Inserted C profile T block T' ∧
      T'.workingBlockId = block.header.blockId ∧ Tip C v (block :: bs) (block :: line) T' ∧
      Continues C profile leadingZeroLen T block T' := by
  obtain ⟨T', hacc, hins, hT', hm', hI', hcont⟩ :=
    inserted_of_good profile h.inv h.modest hgood h.replayed
  have hchildren : T.childrenMap.lookup block.header.parent = none := hparent ▸ h.childless
  have hwork : T'.workingBlockId = block.header.blockId := by
    rw [hins.workingBlockId, newWorking, hchildren]
    rfl
  have htip := h.of_inserted hgood hins ⟨hT', hm', hI'⟩ hwork (by
    rw [hparent, h.depth_working]
    exact Nat.le_succ _)
  rw [hparent, h.branch] at htip
  exact ⟨T', hacc, hins, hwork, htip, hcont⟩

variable (profile) in
theorem insert (hfits : Fits C leadingZeroLen v T.workingBlockId bs block)
    (hlen : (v + 10) * (2 * line.length + 2) ≤ 299792458) :
    ∃ T', Accepts C profile leadingZeroLen T block ∧ T'.orphans = T.orphans ∧
      T'.workingBlockId = block.header.blockId ∧ Tip C v (block :: bs) (block :: line) T' ∧
      Continues C profile leadingZeroLen T block T' := by
  have hgood := h.good hfits h.inv.final.working_mem
      h.inv.final.belowFinal hlen
  obtain ⟨T', hacc, hins, hwork, htip, hcont⟩ := h.insert_good profile hgood hfits.parent
  exact ⟨T', hacc, hins.orphans, hwork, htip, hcont⟩

variable (profile) in
theorem extend (hos : T.orphans = ∅) (hfits : Fits C leadingZeroLen v T.workingBlockId bs block)
    (hlen : (v + 10) * (2 * line.length + 2) ≤ 299792458) (order : IterOrder) :
    ∃ T', ReturnsWith C profile ExtendsWorking T ⟨block, leadingZeroLen, order⟩ T' ∧
      T'.orphans = ∅ ∧ T'.workingBlockId = block.header.blockId ∧
      Tip C v (block :: bs) (block :: line) T' := by
  obtain ⟨T', hacc, hos', hwork, hT', hcont⟩ := h.insert profile hfits hlen
  rw [hos] at hos'
  have hcall : Returns C profile T ⟨block, leadingZeroLen, order⟩ T' := by
    refine returns_of_continues hacc.fresh (by simp [hos]) hcont (fun id o ho => ?_) order
    rw [hos'] at ho
    exact absurd ho (by simp)
  exact ⟨T', returnsWith_of_orphans_empty h.inv hos hcall hfits.parent, hos', hwork, hT'⟩

variable (profile) in
/-- A block beside the only child of its parent becomes the tip when its id is greater. -/
theorem beside (hos : T.orphans = ∅) (hgood : Good C leadingZeroLen v T block) {id : BlockId}
    (hchildren : T.childrenMap.lookup block.header.parent = some [id])
    (hgreater : compare id block.header.blockId = .lt)
    (hle : line.length ≤ T.depthOf block.header.parent + 1) (order : IterOrder) :
    ∃ T', Returns C profile T ⟨block, leadingZeroLen, order⟩ T' ∧ T'.orphans = ∅ ∧
      T'.workingBlockId = block.header.blockId ∧
      Tip C v (block :: bs) (block :: T.branch block.header.parent) T' := by
  obtain ⟨T', hacc, hins, hT', hm', hI', hcont⟩ :=
    inserted_of_good profile h.inv h.modest hgood h.replayed
  have hos' : T'.orphans = ∅ := hins.orphans.trans hos
  have hwork : T'.workingBlockId = block.header.blockId := by
    rw [hins.workingBlockId, newWorking, hchildren]
    change (if compare id block.header.blockId = .gt then id else block.header.blockId) = _
    rw [hgreater]
    rfl
  refine ⟨T', returns_of_continues hacc.fresh (by simp [hos]) hcont (fun id o ho => ?_) order,
    hos', hwork, h.of_inserted hgood hins ⟨hT', hm', hI'⟩ hwork hle⟩
  rw [hos'] at ho
  exact absurd ho (by simp)

theorem finalizedBlockId_eq_root (hlen : line.length ≤ 6) : T.finalizedBlockId = "0" := by
  by_contra hne
  obtain ⟨id, hid, -, hdepth⟩ := h.inv.final.depth_eq hne
  have := h.deepest id hid
  obtain ⟨b, hb⟩ := mem_allBlocks_iff.mp h.inv.final.final_mem
  have := h.inv.shape.depth_succ _ b hb hne
  omega

/-- Seven blocks down the line, the first of them is final. -/
theorem finalized_of_length (hlen : line.length = 7) : ∃ b ∈ line, b.header.parent = "0" ∧
    b.header.blockId = T.finalizedBlockId ∧ T.branch T.finalizedBlockId = [b] := by
  have hfin := h.inv.final
  have hle := hfin.depth_le _ hfin.working_mem hfin.working_below
  rw [h.depth_working, hlen] at hle
  have hne : T.finalizedBlockId ≠ "0" := by
    intro he
    rw [he, h.inv.shape.depthOf_root] at hle
    omega
  obtain ⟨id, hid, -, hdepth⟩ := hfin.depth_eq hne
  have hid7 := h.deepest id hid
  obtain ⟨b, hb⟩ := mem_allBlocks_iff.mp hfin.final_mem
  obtain ⟨hbid, hst⟩ := h.inv.shape.stored_of_getBlock hb
  have hbdepth := h.inv.shape.depth_succ _ b hb hne
  have hparent : b.header.parent = "0" := by
    have hdesc := h.inv.shape.descends_root (h.inv.shape.parent_mem _ b hb hne)
    exact h.inv.shape.graded.eq_of_le hdesc (by omega)
  refine ⟨b, ?_, hparent, hbid, ?_⟩
  · rw [← h.branch]
    exact (mem_branch h.inv.shape).mpr ⟨hst, hbid ▸ hne, hbid ▸ hfin.working_below⟩
  · rw [branch_of_parent h.inv.shape hb hne, hparent, branch_root h.inv.shape]

end Tip

/-- Blocks that fit, one below the other. -/
def FitsAll (C : Crates) (leadingZeroLen : ℕ) (v : ℤ) :
    BlockId → List BlockNode → List BlockNode → Prop
  | _, _, [] => True
  | w, bs, b :: blocks =>
      Fits C leadingZeroLen v w bs b ∧ FitsAll C leadingZeroLen v b.header.blockId (b :: bs) blocks

variable (profile) in
theorem Tip.run (order : IterOrder) :
    ∀ (blocks : List BlockNode) {bs line : List BlockNode} {T : BlockTree}, Tip C v bs line T →
      T.orphans = ∅ → FitsAll C leadingZeroLen v T.workingBlockId bs blocks → 0 ≤ v →
      (v + 10) * (2 * (line.length + blocks.length)) ≤ 299792458 →
      ∃ T', Run (ReturnsWith C profile ExtendsWorking) T
          (blocks.map fun b => ⟨b, leadingZeroLen, order⟩) T' ∧
        T'.orphans = ∅ ∧ Tip C v (blocks.reverse ++ bs) (blocks.reverse ++ line) T'
  | [], _, _, T, h, hos, _, _, _ => ⟨T, .nil T, hos, h⟩
  | b :: blocks, bs, line, T, h, hos, hfits, hv, hlen => by
      rw [List.length_cons] at hlen
      push_cast at hlen
      have hblocks : (0 : ℤ) ≤ (v + 10) * (2 * blocks.length) :=
        mul_nonneg (by omega) (by omega)
      obtain ⟨T₁, hstep, hos₁, hwork, h₁⟩ :=
        h.extend profile hos hfits.1 (by linarith) order
      obtain ⟨T', hrun, hos', h'⟩ := Tip.run order blocks h₁ hos₁ (hwork ▸ hfits.2) hv (by
        rw [List.length_cons]
        push_cast
        linarith)
      refine ⟨T', Run.trans (Run.single hstep) hrun, hos', ?_⟩
      rw [List.reverse_cons, List.append_assoc, List.append_assoc]
      exact h'

end BlockTree

/-! ## Blocks of the test wallets

Transactions signed with the wallets of `tests/_secrets`, each with its id, which is the Merkle root
of a block of it alone; and the ids of blocks mined from them, by their nonce. -/

def bob : UserId :=
  "MDgCMQDZDExOs97sRTnQLYtgFjDKpDzmO7Uo5HPP62u6MDimXBpZtGxtwa8dhJe5NBIsJjUCAwEAAQ=="

def charles : UserId :=
  "MDgCMQDeoEeA8OtGME/SRwp+ASKVOnjlEUHYvQfo0FLp3+fwVi/SztDdJskjzCRasGk06UUCAwEAAQ=="

def loan : Transaction × TxId :=
  (⟨alice, bob, "SEND $100",
    "N8LMcAmwzshRnisRvQjaJLA459JKcqIj9pOnSuzs83D3BvDDUYlh70DFGaDkdDTU"⟩,
    "2ac293134fc07bba69282b3c255b9a873dfbaf808346e2a47d2a56fb5fba00ea")

def debt : Transaction × TxId :=
  (⟨alice, bob, "SEND $-100",
    "JHFsVWIubT/sx0lWV6Xk4ysiAUsTHmmX7wUpLg66epIE9+cUnpunhkmmIKOSFWHD"⟩,
    "0d5133d6ff6bb104093e8ebf8d571e35d4c7f4c9956afbb7f915e9839951c2d7")

def spend : Transaction × TxId :=
  (⟨bob, charles, "SEND $100",
    "xWgxvzmNLATremsXMUVAY11IVmcXBxl1lpVhIn/y8SoxMbQq6OWS6ttwfjz0+DbE"⟩,
    "5b4cc6c19d157b47a9d6035768355dc191bfbb4ffdf970775e8d30d4e63e26b9")

def thanks : Transaction × TxId :=
  (⟨charles, bob, "SEND $10",
    "RY03HsoVFZisoneyHVrLJl4G/zPPqjoUQqOydZRHQco6Y25SaO1t/DY1Vpdn5XdO"⟩,
    "25894c6970861d494b81f0ef5709315265d89b4dab93eb9da6c85489613e4ffd")

def payment : Fin 7 → Transaction × TxId
  | 0 => (⟨alice, bob, "SEND $1",
      "Oy8C8UVdY90XoFl1a7HbQ9LtqhmL5A9VkGg8HIGeiYuqypZ6QDqyC/9cgYCYMH9Q"⟩,
      "9beae19602ce463e059604f4ac3546809296202477497c007d66b8b4bf508c52")
  | 1 => (⟨alice, bob, "SEND $2",
      "VSr4ZIhxpiulUfuUV8aWrnitjcEuRZ/PNx5IjVUhbOaCNgd3Q6+CoZHsZL2t2pLy"⟩,
      "26c285f5c8e361fa7317d2260554a68733a3a79d8ef4b5f9098e2e07a2f76456")
  | 2 => (⟨alice, bob, "SEND $3",
      "p5GnBO4yh7qfbPCOql8tnIqXw3ykSDbMxX8fVyl9PvaIfne3l3s57EM9n0PlmdkW"⟩,
      "ade525d40be3180a53440d12af1f83841c65f936facb978c6dc3fe80c49ea637")
  | 3 => (⟨alice, bob, "SEND $4",
      "OhzAm6vln2+asjuQlIaKsTp0LSXhQbAb569O86O40cTe+CCDY0IM6GKAICODlm/N"⟩,
      "65a9250e6b874638f4eee80d661a1d940f7b61bac7352592b6a22b8b74c7475f")
  | 4 => (⟨alice, bob, "SEND $5",
      "LbH+rI0WofbSmXjfxP2yrtc3NadKtX+zsbUxrID10QC2D1fSaVm3MTB6v4Lr2fWp"⟩,
      "a263f17603967d3f71e62dab554f303b78e659a5fb0881d1dc77d0c02a1721dc")
  | 5 => (⟨alice, bob, "SEND $6",
      "HQrsbKB39HGM67iEy2Xe3C+OLwkdWVcU9nlOMS3t9q0oIMMI9JqRTI/VvQrmY9iO"⟩,
      "ce868fb7002f710c1496238ede0dbbadd1d8e3d1aa5a5632082090e3dff7fcbb")
  | 6 => (⟨alice, bob, "SEND $7",
      "kKhQlggZgh0km98nIlr/vI61L2nve3JFL/De6zZ36g/igqFQnT9t1ahgd8ki74ND"⟩,
      "636b78cb3f4289fb667a5bc3912b997a922ed44345de5c9cb723f2add12055a1")

def minedId : Char → BlockId
  | 'a' => "2b2d1254f052f48d6bfa151ccd5001ce00712f8d9d485268df3dfa63b57beec9"
  | 'b' => "f83f9f008f097efa7ec5aff179279a583bf2af08055922c063fa8ff1082a046f"
  | 'c' => "e94586e0e4ad712ebf0a01fbadbe0e151c67d2ba7862815ad8f106ca394a3a3c"
  | 'd' => "fd2412bfe91e03bf16751ec1ad172e321c85abf9c05d618f6daa9a779a896349"
  | 'e' => "9deca60db354f55ab97869149e5eaf14f7795e7aa609dc2371f9460713c93524"
  | 'f' => "c32c6337f327cb24cbb627d2aee5c1a188217f3a2337b5f3a6618d342d7f381a"
  | 'g' => "86bce7d7f8e39849fbfb6a5dc8389a6af18feb7921b0aa1176c5020ad6cec403"
  | 'h' => "04f1ac7a9f386816ee724277b0b22e03bc1aa262a15014f060992f3c5bdfe3e3"
  | 'j' => "9b706b15e43b68a3f6556b1385bd881c5d2fb5186502e5053fd579395e4fb932"
  | 'k' => "4da66a04b6845f2ff9eb4f5a24a5d800e41a2aba9b916bbd8e9fb6d630b92e5e"
  | 'l' => "59772169e2409cfa5face80df17033e20829f07ee60923cdc11344309f7ceae6"
  | 'm' => "a97dae42e25a6dec8922317364ed552230d11fedd6e90c697596f4cee5819f2c"
  | 'n' => "931beb736e7be0873a14b57409f07dfdec67aac0ef6d2b12d979ed632a103b32"
  | 'o' => "6d6d0271ded1e8c006914834ea0c738ef971acf2ef5354f41026de35bc1d7230"
  | 'p' => "32867532534cc2b4f474a2a78a2d4b66d70776964df0d7aa074e10ff799b4536"
  | 'A' => "83f9c252c117d712bcd31e3823c4a166d2fe50cb533f1662727a6c9d87dc9f6c"
  | 'B' => "40ba4f1c00c18fbbfa506327fb96fb63a7fe23b8f61a7a377a48eb6d0135c459"
  | 'C' => "47f2a87c863a6aa198500b605bcce6e6fd14d84a72e0a1f41c90a4328c8df55d"
  | 'D' => "95d98f86140cfefdc4c4eb867381afb6e6b37ae6eea504e17ec379e37fe72fc4"
  | 'E' => "e94df00bcf7e0d5aacb1ca8089dde31c2c3cad325498f80070984538be725a27"
  | 'F' => "dacaab0b5f3a7595679916f2fe90511a40cbfe23a4f45bd42b965a572b4b3e74"
  | 'G' => "0af6f61fb548b72be7c6389f551e346a5fd01dae0d7fddcfafe915ecdaba0734"
  | 'r' => "aad57a56c00767579fcb5ec94a1cedbc48252c5baefeddd4a7a40c049c2b21d0"
  | 's' => "7bfed1aa146d43518c23c51cf43735cd2ad2128b884f3808a55f176744089fd1"
  | 't' => "ea97ebe2e20446c5ea07d21c6e1bffe733a9db2f2826d54c14e66529823cfd2c"
  | 'u' => "dc67e2e224463a47e64b388c64d83b3182be6729c423516a6eaa7093efb9fd99"
  | 'w' => "49b43b28f0da2675af1cb872f6d019fbca6edfd9ab722665e617303bbfbf350c"
  | 'x' => "0ded0c9a5ca1e36c01dce59acdab04db821f3b5d5903f3d0024153eaa8492314"
  | _ => ""

/-- The transaction of the genesis block. -/
def grant : Transaction × TxId :=
  (⟨"GENESIS", alice, "SEND $299792458", "GENESIS"⟩,
    "1c5d8a16dbe6d3a70f28f30cc1514a549648416be228237bd7bc33e93fa79961")

/-- The transactions signed with the wallets. -/
def wallet : List (Transaction × TxId) := [loan, debt, spend] ++ List.ofFn payment

/-- The value of a base64 digit. -/
def base64Digit (c : Char) : ℕ :=
  if 'A' ≤ c ∧ c ≤ 'Z' then c.toNat - 65
  else if 'a' ≤ c ∧ c ≤ 'z' then c.toNat - 71
  else if '0' ≤ c ∧ c ≤ '9' then c.toNat + 4
  else if c = '+' then 62
  else 63

/-- Base64 without padding, as in signatures of 48 bytes. -/
def base64Bytes : List Char → List UInt8
  | a :: b :: c :: d :: rest =>
      let n := ((base64Digit a * 64 + base64Digit b) * 64 + base64Digit c) * 64 + base64Digit d
      UInt8.ofNat (n / 65536) :: UInt8.ofNat (n / 256 % 256) :: UInt8.ofNat (n % 256) ::
        base64Bytes rest
  | _ => []

/-- The other crates on the texts of these blocks, for any SHA-256: no text needs escaping. -/
def cratesWith (sha256Hex : String → String) : Crates where
  sha256Hex := sha256Hex
  jsonString := fun s => "\"" ++ s ++ "\""
  RsaPublicKey := String
  RsaSignature := List UInt8
  fromPkcs1Pem := some
  base64DecodeVec := fun s => some (base64Bytes s.toList)
  signatureFromBytes := some
  verify := fun _ text sig =>
    wallet.any fun entry => entry.1.signedText = text && base64Bytes entry.1.sig.toList = sig

/-- SHA-256 of these texts: that of a transaction starts with a brace, that of a block with its
nonce. -/
@[irreducible] def walletSha (text : String) : String :=
  match text.toList.head? with
  | some c =>
      if c = '\x7b' then
        (((grant :: wallet).find? fun entry =>
          entry.1.toJson (cratesWith id) = text).map Prod.snd).getD ""
      else minedId c
  | none => ""

def walletCrates : Crates := cratesWith walletSha

/-- The block with this nonce. -/
def minedBlock (nonce : Char) (parent : BlockId) (entry : Transaction × TxId) : BlockNode where
  header :=
    { parent := parent, merkleRoot := entry.2, timestamp := 1, blockId := minedId nonce,
      nonce := String.singleton nonce, rewardReceiver := charles }
  transactionsBlock := { merkleTree := { hashes := [[entry.2]] }, transactions := [entry.1] }

/-- Blocks below each other. -/
def minedChain : BlockId → List (Char × Transaction × TxId) → List BlockNode
  | _, [] => []
  | w, e :: rest => minedBlock e.1 w e.2 :: minedChain (minedId e.1) rest

theorem length_minedChain :
    ∀ (entries : List (Char × Transaction × TxId)) (w : BlockId),
      (minedChain w entries).length = entries.length
  | [], _ => rfl
  | e :: rest, _ => by
      rw [minedChain, List.length_cons, List.length_cons, length_minedChain rest]

theorem txs_minedChain {entries : List (Char × Transaction × TxId)} {w : BlockId} :
    ∀ b ∈ minedChain w entries, ∃ e ∈ entries, b.txs = [e.2.1] := by
  induction entries generalizing w with
  | nil => exact fun b hb => absurd hb List.not_mem_nil
  | cons e rest ih =>
    intro b hb
    rcases List.mem_cons.mp hb with rfl | hb
    · exact ⟨e, List.mem_cons_self, rfl⟩
    · obtain ⟨e', he', htxs⟩ := ih b hb
      exact ⟨e', List.mem_cons_of_mem _ he', htxs⟩

theorem parent_minedChain {entries : List (Char × Transaction × TxId)} {w : BlockId}
    (hw : w ≠ "0") (hall : ∀ e ∈ entries, minedId e.1 ≠ "0") :
    ∀ b ∈ minedChain w entries, b.header.parent ≠ "0" := by
  induction entries generalizing w with
  | nil => exact fun b hb => absurd hb List.not_mem_nil
  | cons e rest ih =>
    intro b hb
    rcases List.mem_cons.mp hb with rfl | hb
    · exact hw
    · exact ih (hall e (by simp)) (fun e' he' => hall e' (by simp [he'])) b hb

theorem eq_first_of_parent {nonce : Char} {entry : Transaction × TxId}
    {entries : List (Char × Transaction × TxId)}
    (hnames : ∀ e ∈ (nonce, entry) :: entries, minedId e.1 ≠ "0") {b : BlockNode}
    (hb : b ∈ minedChain "0" ((nonce, entry) :: entries)) (hparent : b.header.parent = "0") :
    b = minedBlock nonce "0" entry := by
  refine (List.mem_cons.mp hb).resolve_right fun hb => ?_
  exact parent_minedChain (hnames _ List.mem_cons_self)
    (fun e he => hnames e (List.mem_cons_of_mem _ he)) b hb hparent

/-- Iteration in the order of the entries. -/
def asStored : IterOrder where
  visit := fun _ entries => entries
  visit_perm := fun _ entries => List.Perm.refl entries

/-- Calls at difficulty zero. -/
def delivery (blocks : List BlockNode) : List Call := blocks.map fun b => ⟨b, 0, asStored⟩

/-- The first six payments, in blocks of these nonces. -/
def payments (nonces : List Char) : List (Char × Transaction × TxId) :=
  nonces.zip (List.ofFn fun k : Fin 6 => payment k.castSucc)

theorem walletSha_of_head {text : String} {c : Char} (h : text.toList.head? = some c)
    (hc : c ≠ '\x7b') : walletSha text = minedId c := by
  rw [walletSha, h]
  exact if_neg hc

theorem head_toJson (C : Crates) (tx : Transaction) :
    (tx.toJson C).toList.head? = some '\x7b' := by
  delta Transaction.toJson
  simp only [String.append_assoc, String.toList_append]
  rfl

theorem toJson_cratesWith (sha256Hex : String → String) (tx : Transaction) :
    tx.toJson (cratesWith sha256Hex) = tx.toJson (cratesWith id) := rfl

theorem toJson_wallet_nodup :
    ((grant :: wallet).map fun entry => entry.1.toJson (cratesWith id)).Nodup := by decide +kernel

/-- The texts of the transactions differ, so each has its own entry. -/
theorem genHash_of_mem {entry : Transaction × TxId} (h : entry ∈ grant :: wallet) :
    entry.1.genHash walletCrates = entry.2 := by
  have hfind : ((grant :: wallet).find? fun e =>
      e.1.toJson (cratesWith id) = entry.1.toJson (cratesWith id)) = some entry := by
    cases he : (grant :: wallet).find? fun e =>
        e.1.toJson (cratesWith id) = entry.1.toJson (cratesWith id) with
    | none => exact absurd (decide_eq_true rfl) (List.find?_eq_none.mp he entry h)
    | some e =>
      have htext : e.1.toJson (cratesWith id) = entry.1.toJson (cratesWith id) := by
        simpa using List.find?_some he
      rw [List.inj_on_of_nodup_map toJson_wallet_nodup (List.mem_of_find?_eq_some he) h htext]
  have hsha : walletCrates.sha256Hex = walletSha := rfl
  rw [Transaction.genHash, hsha, walletCrates, toJson_cratesWith, walletSha, head_toJson]
  apply (if_pos rfl).trans
  rw [hfind, Option.map_some, Option.getD_some]

theorem genHash_grant : grant.1.genHash walletCrates = grant.2 := genHash_of_mem (by simp)

theorem genHash_loan : loan.1.genHash walletCrates = loan.2 := genHash_of_mem (by simp [wallet])

theorem genHash_spend : spend.1.genHash walletCrates = spend.2 := genHash_of_mem (by simp [wallet])

theorem sender_of_wallet {entry : Transaction × TxId} (h : entry ∈ wallet) :
    entry.1.sender = alice ∨ entry.1.sender = bob := by
  simp only [wallet, List.cons_append, List.nil_append, List.mem_cons, List.mem_ofFn] at h
  rcases h with rfl | rfl | rfl | ⟨k, rfl⟩
  · exact .inl rfl
  · exact .inl rfl
  · exact .inr rfl
  · exact .inl (by fin_cases k <;> rfl)

theorem ascii_of_wallet {entry : Transaction × TxId} (h : entry ∈ wallet) :
    (∀ c ∈ entry.1.sender.toList, c.val ≤ 127) ∧ entry.1.sender.toList.length = 80 := by
  have hascii : ∀ id, id = alice ∨ id = bob →
      id.toList.all (fun c => decide (c.val ≤ 127)) = true ∧ id.toList.length = 80 := by
    rintro id (rfl | rfl) <;> decide +kernel
  obtain ⟨hall, hlen⟩ := hascii _ (sender_of_wallet h)
  exact ⟨fun c hc => of_decide_eq_true (List.all_eq_true.mp hall c hc), hlen⟩

theorem verifySig_of_wallet {entry : Transaction × TxId} (h : entry ∈ wallet) :
    entry.1.verifySig walletCrates = .ok true := by
  obtain ⟨hascii, hlen⟩ := ascii_of_wallet h
  have hfirst := sliceGet_of_ascii hascii (a := 0) (b := 64) (by omega) (by omega)
  have hsecond := sliceGet_of_ascii hascii (a := 64) (b := 80) (by omega) (by omega)
  have hverify : (wallet.any fun e => e.1.signedText = entry.1.signedText &&
      base64Bytes e.1.sig.toList = base64Bytes entry.1.sig.toList) = true :=
    List.any_eq_true.mpr ⟨entry, h, by simp⟩
  rw [Transaction.verifySig, hfirst, Exec.unwrap_some, Exec.ok_bind, hsecond, Exec.unwrap_some,
    Exec.ok_bind]
  exact congrArg Except.ok hverify

theorem computedBlockId_minedBlock {nonce : Char} (hnonce : nonce ≠ '\x7b') (parent : BlockId)
    (entry : Transaction × TxId) :
    (minedBlock nonce parent entry).computedBlockId walletCrates = minedId nonce := by
  refine walletSha_of_head ?_ hnonce
  simp [BlockNode.challenge, minedBlock]

theorem minedBlock_integrity {nonce : Char} (hnonce : nonce ≠ '\x7b') (parent : BlockId)
    {entry : Transaction × TxId} (h : entry ∈ wallet) :
    BlockTree.verifyBlockIntegrity walletCrates (minedBlock nonce parent entry) 0 = .ok true := by
  have hsigs : allVerifySig walletCrates (minedBlock nonce parent entry).txs = .ok true := by
    change allVerifySig walletCrates [entry.1] = .ok true
    rw [allVerifySig, verifySig_of_wallet h]
    rfl
  rw [BlockTree.verifyBlockIntegrity, hsigs, Exec.ok_bind, computedBlockId_minedBlock hnonce]
  simp [BlockNode.validLeadingZeroLen, startsWith, minedBlock]

/-- A signed transaction of Alice over at most 1000. -/
structure Payable (entry : Transaction × TxId) : Prop where
  signed : entry ∈ wallet
  sender : entry.1.sender = alice
  parses : entry.1.Parses
  amount_le : |entry.1.amount| ≤ 1000

theorem payment_amount (k : Fin 7) :
    extractAmount (payment k).1.message = .ok ((k.val : ℤ) + 1) := by
  fin_cases k <;> rfl

theorem loan_amount : extractAmount loan.1.message = .ok 100 := by rfl

theorem debt_amount : extractAmount debt.1.message = .ok (-100) := by rfl

theorem spend_amount : extractAmount spend.1.message = .ok 100 := by rfl

theorem payable_payment (k : Fin 7) : Payable (payment k) where
  signed := List.mem_append.mpr (.inr (List.mem_ofFn.mpr ⟨k, rfl⟩))
  sender := by fin_cases k <;> rfl
  parses := ⟨_, payment_amount k⟩
  amount_le := by
    have hk := k.isLt
    rw [Transaction.amount_of_ok (payment_amount k), abs_of_nonneg (by omega)]
    omega

theorem payable_loan : Payable loan where
  signed := List.mem_append.mpr (.inl (by simp))
  sender := rfl
  parses := ⟨_, loan_amount⟩
  amount_le := by
    rw [Transaction.amount_of_ok loan_amount]
    decide

theorem payable_debt : Payable debt where
  signed := List.mem_append.mpr (.inl (by simp))
  sender := rfl
  parses := ⟨_, debt_amount⟩
  amount_le := by
    rw [Transaction.amount_of_ok debt_amount]
    decide

theorem amount_payments {nonces : List Char} : ∀ e ∈ payments nonces, 0 < e.2.1.amount := by
  rintro ⟨nonce, entry⟩ he
  obtain ⟨k, rfl⟩ := List.mem_ofFn.mp (List.of_mem_zip he).2
  rw [Transaction.amount_of_ok (payment_amount _)]
  omega

theorem bob_after (nonce : Char) (w : BlockId) (entry : Transaction × TxId) : genesisCredit bob +
    ([minedBlock nonce w entry].map fun b => b.flow bob + b.reward bob).sum =
      entry.1.transfer.flow bob := by
  have hflow : (minedBlock nonce w entry).flow bob = entry.1.transfer.flow bob := add_zero _
  have hcredit : ¬ alice = bob := by decide
  have hreward : ¬ (minedBlock nonce w entry).header.rewardReceiver = bob := by
    change ¬ charles = bob
    decide
  rw [genesisCredit_eq, if_neg hcredit, List.map_singleton, List.sum_singleton, hflow,
    BlockNode.reward, if_neg hreward, add_zero, zero_add]

theorem flow_loan : loan.1.transfer.flow bob = 100 := by
  have hamount : loan.1.transfer.amount = 100 := Transaction.amount_of_ok loan_amount
  rw [Transfer.flow, hamount]
  decide

theorem flow_debt : debt.1.transfer.flow bob = -100 := by
  have hamount : debt.1.transfer.amount = -100 := Transaction.amount_of_ok debt_amount
  rw [Transfer.flow, hamount]
  decide

theorem flow_spend : spend.1.transfer.flow bob = -100 := by
  have hamount : spend.1.transfer.amount = 100 := Transaction.amount_of_ok spend_amount
  rw [Transfer.flow, hamount]
  decide

theorem payable_payments {nonces : List Char} : ∀ e ∈ payments nonces, Payable e.2 := by
  rintro ⟨nonce, entry⟩ he
  obtain ⟨k, rfl⟩ := List.mem_ofFn.mp (List.of_mem_zip he).2
  exact payable_payment _

namespace BlockTree

theorem minedBlock_fits {nonce : Char} (hnonce : nonce ≠ '\x7b')
    (hroot : minedId nonce ≠ "0") {w : BlockId} {entry : Transaction × TxId} (h : Payable entry)
    {bs : List BlockNode} (hids : ∀ b ∈ bs, b.header.blockId ≠ minedId nonce)
    (hroots : ∀ b ∈ bs, b.header.parent ≠ "0" → entry.2 ≠ b.header.merkleRoot) :
    Fits walletCrates 0 1000 w bs (minedBlock nonce w entry) where
  parent := rfl
  id_ne_root := hroot
  integrity := minedBlock_integrity hnonce w h.signed
  parses := fun tx htx => by
    obtain rfl := List.mem_singleton.mp htx
    exact h.parses
  senders := fun tx htx => by
    obtain rfl := List.mem_singleton.mp htx
    exact h.sender
  volume_le := by
    change volume [entry.1] ≤ 1000
    simpa [volume] using h.amount_le
  ids := hids
  roots := hroots

theorem minedChain_fits :
    ∀ (entries : List (Char × Transaction × TxId)) (w : BlockId) (bs : List BlockNode),
      (∀ e ∈ entries, e.1 ≠ '\x7b' ∧ minedId e.1 ≠ "0" ∧ Payable e.2) →
      ((entries.map fun e => minedId e.1) ++ bs.map fun b => b.header.blockId).Nodup →
      ((entries.map fun e => e.2.2) ++ bs.map fun b => b.header.merkleRoot).Nodup →
      FitsAll walletCrates 0 1000 w bs (minedChain w entries)
  | [], _, _, _, _, _ => trivial
  | e :: entries, w, bs, hall, hids, hroots => by
      obtain ⟨hnonce, hroot, hpay⟩ := hall e (by simp)
      rw [List.map_cons, List.cons_append, List.nodup_cons] at hids hroots
      refine ⟨minedBlock_fits hnonce hroot hpay (fun b hb he => hids.1 ?_)
        fun b hb _ he => hroots.1 ?_, ?_⟩
      · rw [← he]
        exact List.mem_append_right _ (List.mem_map_of_mem hb)
      · rw [he]
        exact List.mem_append_right _ (List.mem_map_of_mem hb)
      · refine minedChain_fits entries (minedId e.1) (minedBlock e.1 w e.2 :: bs)
          (fun e' he' => hall e' (by simp [he'])) ?_ ?_
        · rw [List.map_cons]
          exact List.nodup_middle.mpr (List.nodup_cons.mpr hids)
        · rw [List.map_cons]
          exact List.nodup_middle.mpr (List.nodup_cons.mpr hroots)

theorem minedChain_run (profile : Profile) (entries : List (Char × Transaction × TxId))
    (hlen : entries.length ≤ 7)
    (hall : ∀ e ∈ entries, e.1 ≠ '\x7b' ∧ minedId e.1 ≠ "0" ∧ Payable e.2)
    (hids : (entries.map fun e => minedId e.1).Nodup)
    (hroots : (entries.map fun e => e.2.2).Nodup) :
    ∃ T, Run (ReturnsWith walletCrates profile ExtendsWorking) genesisTree
        (delivery (minedChain "0" entries)) T ∧ T.orphans = ∅ ∧
      Tip walletCrates 1000 (minedChain "0" entries).reverse (minedChain "0" entries).reverse T := by
  have hfits := minedChain_fits entries "0" [] hall (by simpa using hids)
    (by simpa using hroots)
  have hlen' : (minedChain "0" entries).length ≤ 7 := by
    rw [length_minedChain]
    exact hlen
  obtain ⟨T, hrun, hos, hT⟩ := Tip.run profile asStored (minedChain "0" entries)
    (tip_genesisTree walletCrates 1000) rfl hfits (by norm_num)
    (by simp only [List.length_nil, Nat.cast_zero, zero_add]; omega)
  rw [List.append_nil] at hT
  exact ⟨T, hrun, hos, hT⟩

/-- Six payments below a block make it final, the last of them. -/
theorem payments_finalize (profile : Profile) (nonce c₁ c₂ c₃ c₄ c₅ c₆ : Char)
    {entry : Transaction × TxId} (hpay : Payable entry)
    (hnames : ∀ e ∈ (nonce, entry) :: payments [c₁, c₂, c₃, c₄, c₅, c₆],
      e.1 ≠ '\x7b' ∧ minedId e.1 ≠ "0")
    (hids : (((nonce, entry) :: payments [c₁, c₂, c₃, c₄, c₅, c₆]).map fun e =>
      minedId e.1).Nodup)
    (hroots : (((nonce, entry) :: payments [c₁, c₂, c₃, c₄, c₅, c₆]).map fun e => e.2.2).Nodup) :
    ∃ T T', Run (ReturnsWith walletCrates profile ExtendsWorking) genesisTree
        (delivery (minedChain "0" ((nonce, entry) :: payments [c₁, c₂, c₃, c₄, c₅]))) T ∧
      T.finalizedBlockId = "0" ∧
      ReturnsWith walletCrates profile ExtendsWorking T
        ⟨minedBlock c₆ (minedId c₅) (payment 5), 0, asStored⟩ T' ∧ T'.orphans = ∅ ∧
      Tip walletCrates 1000
        (minedChain "0" ((nonce, entry) :: payments [c₁, c₂, c₃, c₄, c₅, c₆])).reverse
        (minedChain "0" ((nonce, entry) :: payments [c₁, c₂, c₃, c₄, c₅, c₆])).reverse T' ∧
      T'.finalizedBlockId = minedId nonce ∧
      T'.branch T'.finalizedBlockId = [minedBlock nonce "0" entry] ∧
      T.Stored (minedBlock nonce "0" entry) := by
  have hall : ∀ e ∈ (nonce, entry) :: payments [c₁, c₂, c₃, c₄, c₅, c₆], Payable e.2 :=
    List.forall_mem_cons.mpr ⟨hpay, payable_payments⟩
  obtain ⟨h₀, h₁, h₂, h₃, h₄, h₅, h₆, -⟩ := minedChain_fits _ "0" []
    (fun e he => ⟨(hnames e he).1, (hnames e he).2, hall e he⟩) (by simpa using hids)
    (by simpa using hroots)
  have hsix : (minedChain "0" ((nonce, entry) :: payments [c₁, c₂, c₃, c₄, c₅])).length = 6 := rfl
  obtain ⟨T, hrun, hos, hT⟩ := Tip.run profile asStored
    (minedChain "0" ((nonce, entry) :: payments [c₁, c₂, c₃, c₄, c₅]))
    (tip_genesisTree walletCrates 1000) rfl ⟨h₀, h₁, h₂, h₃, h₄, h₅, trivial⟩ (by norm_num)
    (by rw [hsix]; decide)
  rw [List.append_nil] at hT
  have hwork : T.workingBlockId = minedId c₅ := hT.working_eq_head rfl
  obtain ⟨T', hcall, hos', -, hT'⟩ := hT.extend profile hos
    (by rw [hwork]; exact h₆) (by rw [List.length_reverse, hsix]; decide) asStored
  obtain ⟨b, hb, hparent, hid, hbranch⟩ := hT'.finalized_of_length rfl
  have hfirst : b = minedBlock nonce "0" entry :=
    eq_first_of_parent (fun e he => (hnames e he).2) (List.mem_reverse.mp hb) hparent
  subst hfirst
  exact ⟨T, T', hrun, hT.finalizedBlockId_eq_root (by rw [List.length_reverse, hsix]), hcall,
    hos', hT', hid.symm, hbranch, (hT.mem_line (List.mem_reverse.mpr List.mem_cons_self)).1⟩

theorem loan_fits : Fits walletCrates 0 1000 "0" [] (minedBlock 'a' "0" loan) :=
  minedBlock_fits (by decide) (by decide) payable_loan (by simp) (by simp)

theorem loan_returns (profile : Profile) :
    ∃ T, ReturnsWith walletCrates profile ExtendsWorking genesisTree
        ⟨minedBlock 'a' "0" loan, 0, asStored⟩ T ∧
      T.orphans = ∅ ∧ T.workingBlockId = minedId 'a' ∧
      Tip walletCrates 1000 [minedBlock 'a' "0" loan] [minedBlock 'a' "0" loan] T :=
  (tip_genesisTree walletCrates 1000).extend profile rfl loan_fits (by norm_num) asStored

/-- A block with the loan, and six payments below it. -/
def settledChain : List BlockNode :=
  minedChain "0" (('a', loan) :: payments ['A', 'B', 'C', 'D', 'E', 'F'])

theorem settledChain_run (profile : Profile) :
    ∃ T, Run (ReturnsWith walletCrates profile ExtendsWorking) genesisTree
        (delivery settledChain) T ∧
      Tip walletCrates 1000 settledChain.reverse settledChain.reverse T ∧
      T.orphans = ∅ ∧ T.finalizedBlockId = minedId 'a' ∧
      T.branch T.finalizedBlockId = [minedBlock 'a' "0" loan] := by
  obtain ⟨T, T', hrun, -, hcall, hos, hT, hfin, hbranch, -⟩ := payments_finalize profile
    'a' 'A' 'B' 'C' 'D' 'E' 'F' payable_loan
    (by decide) (by decide) (by decide)
  exact ⟨T', hrun.snoc hcall, hT, hos, hfin, hbranch⟩

end BlockTree

end NakamotoNode.Chain
