import NakamotoNode.Chain.MerkleLevels

/-! # What a block id commits to

Two functions check a block by itself: `validate_block` and `verify_block_integrity`. They agree
but for the Merkle root, which only the first computes (`validateBlock_eq_ok_iff`); the tree uses
the second. So a stored block is valid just when it came with the root of its own transactions. -/

namespace NakamotoNode.Chain
open Foundations Foundations.RustStd
set_option autoImplicit false

/-- The header has the Merkle root of the transactions. -/
def BlockNode.MerkleHonest (C : Crates) (b : BlockNode) : Prop :=
  ∃ tree, createMerkleTree C b.txs = .ok (b.header.merkleRoot, tree)

namespace BlockTree
variable {C : Crates} {profile : Profile} {leadingZeroLen : ℕ} {T T' : BlockTree}
  {block b : BlockNode}

theorem verifyBlockIntegrity_eq_true : verifyBlockIntegrity C b leadingZeroLen = .ok true ↔
    b.header.blockId = b.computedBlockId C ∧ b.validLeadingZeroLen leadingZeroLen = true ∧
      allVerifySig C b.txs = .ok true := by
  rw [verifyBlockIntegrity, Exec.bind_eq_ok]
  constructor
  · rintro ⟨valid, hsig, h⟩
    have h := Except.ok.inj h
    simp only [Bool.and_eq_true, decide_eq_true_eq] at h
    obtain ⟨⟨hid, hzero⟩, rfl⟩ := h
    exact ⟨hid, hzero, hsig⟩
  · rintro ⟨hid, hzero, hsig⟩
    exact ⟨true, hsig, by simp [← hid, hzero]⟩

/-- `validate_block` is `verify_block_integrity` and the comparison of the Merkle roots. -/
theorem validateBlock_eq_ok_iff : b.validateBlock C leadingZeroLen = .ok (true, b.header.blockId) ↔
    verifyBlockIntegrity C b leadingZeroLen = .ok true ∧ b.MerkleHonest C := by
  rw [verifyBlockIntegrity_eq_true, BlockNode.validateBlock, Exec.bind_eq_ok]
  constructor
  · rintro ⟨valid, hsig, h⟩
    obtain ⟨⟨root, tree⟩, htree, h⟩ := Exec.bind_eq_ok.mp h
    obtain ⟨hall, hid⟩ := Prod.mk.inj (Except.ok.inj h)
    simp only [Bool.and_eq_true, decide_eq_true_eq] at hall
    obtain ⟨⟨⟨hid, hzero⟩, rfl⟩, hroot⟩ := hall
    exact ⟨⟨hid, hzero, hsig⟩, tree, hroot ▸ htree⟩
  · rintro ⟨⟨hid, hzero, hsig⟩, tree, htree⟩
    refine ⟨true, hsig, ?_⟩
    rw [htree, Exec.ok_bind]
    simp [← hid, hzero]

end BlockTree

open BlockTree

/-- After any calls with difficulty `d`, a stored block passes `validate_block` just when its header
has the Merkle root of its transactions; so all do, if every delivered block that passes
`verify_block_integrity` has. -/
theorem stored_block_valid_iff {C : Crates} {profile : Profile} {d : ℕ} {calls : List Call}
    {T : BlockTree} (hrun : Run (Returns C profile) genesisTree calls T)
    (hd : ∀ call ∈ calls, call.leadingZeroLen = d) :
    (∀ b, T.Stored b → b.header.blockId ≠ "0" →
      (b.validateBlock C d = .ok (true, b.header.blockId) ↔ b.MerkleHonest C)) ∧
    ((∀ call ∈ calls, verifyBlockIntegrity C call.block d = .ok true →
        call.block.MerkleHonest C) →
      ∀ b, T.Stored b → b.header.blockId ≠ "0" →
        b.validateBlock C d = .ok (true, b.header.blockId)) := by
  have hstored : ∀ b, T.Stored b → b.header.blockId ≠ "0" →
      verifyBlockIntegrity C b d = .ok true ∧ ∃ call ∈ calls, call.block = b := by
    intro b hb hid
    rcases stored_delivered hrun hb with rfl | ⟨hcall, call, hmem, hint⟩
    · exact absurd rfl hid
    · exact ⟨hd call hmem ▸ hint, hcall⟩
  constructor
  · intro b hb hid
    rw [validateBlock_eq_ok_iff]
    exact and_iff_right (hstored b hb hid).1
  · intro hhonest b hb hid
    obtain ⟨hint, call, hcall, rfl⟩ := hstored b hb hid
    exact validateBlock_eq_ok_iff.mpr ⟨hint, hhonest call hcall hint⟩

theorem merkleHonest_loan (w : BlockId) : (minedBlock 'a' w loan).MerkleHonest walletCrates := by
  refine ⟨{ hashes := [[loan.2]] }, ?_⟩
  change createMerkleTree walletCrates [loan.1] = .ok (loan.2, { hashes := [[loan.2]] })
  rw [createMerkleTree, if_neg (by simp), List.map_singleton, genHash_loan, merkleLevels]
  rfl

theorem stored_block_valid_iff_loan : ∃ T : BlockTree, T.Stored (minedBlock 'a' "0" loan) ∧
    (minedBlock 'a' "0" loan).validateBlock walletCrates 0 = .ok (true, minedId 'a') := by
  obtain ⟨T, hcall, -, -, hT⟩ := loan_returns .debug
  have hst := (hT.mem_line List.mem_cons_self).1
  refine ⟨T, hst, (stored_block_valid_iff (d := 0) (Run.single hcall.1) ?_).2 ?_ _ hst (by decide)⟩
  · intro call hcall
    rw [List.mem_singleton.mp hcall]
  · intro call hcall _
    rw [List.mem_singleton.mp hcall]
    exact merkleHonest_loan "0"

/-- The block with the loan, its transaction taken out. -/
def emptied : BlockNode :=
  { minedBlock 'a' "0" loan with
    transactionsBlock := { merkleTree := { hashes := [] }, transactions := [] } }

theorem emptied_fits : Fits walletCrates 0 1000 "0" [] emptied where
  parent := rfl
  id_ne_root := by decide
  integrity := by
    have hmined : verifyBlockIntegrity walletCrates (minedBlock 'a' "0" loan) 0 = .ok true :=
      minedBlock_integrity (by decide) "0" payable_loan.signed
    obtain ⟨hid, hzero, -⟩ := verifyBlockIntegrity_eq_true.mp hmined
    exact verifyBlockIntegrity_eq_true.mpr ⟨hid, hzero, rfl⟩
  parses := fun tx htx => absurd htx List.not_mem_nil
  senders := fun tx htx => absurd htx List.not_mem_nil
  volume_le := by
    change volume [] ≤ 1000
    decide
  ids := fun b hb => absurd hb List.not_mem_nil
  roots := fun b hb => absurd hb List.not_mem_nil

/-- The emptied block is accepted under the id of the mined one. -/
theorem emptied_accepted :
    emptied.header = (minedBlock 'a' "0" loan).header ∧
    ∃ T, Returns walletCrates .debug genesisTree ⟨emptied, 0, asStored⟩ T ∧ T.Stored emptied ∧
      emptied.validateBlock walletCrates 0 ≠ .ok (true, emptied.header.blockId) := by
  obtain ⟨T, hcall, -, -, hT⟩ := (tip_genesisTree walletCrates 1000).extend .debug rfl
    emptied_fits (by norm_num) asStored
  refine ⟨rfl, T, hcall.1, (hT.mem_line List.mem_cons_self).1, fun hvalid => ?_⟩
  obtain ⟨-, tree, htree⟩ := validateBlock_eq_ok_iff.mp hvalid
  have hroot : "" = loan.2 := congrArg Prod.fst (Except.ok.inj htree)
  exact absurd hroot (by decide)

end NakamotoNode.Chain
