import NakamotoNode.Chain.Integrity
import NakamotoNode.Foundations.JsonText

/-! # One header for a block id

A block id is the hash of the nonce, a text of any kind, and the puzzle in JSON right after it. Where
the puzzle begins can be told from the whole: inside of a puzzle no other one begins, whatever its
fields are (`toJson_suffix`). So the hashed text has one nonce and one puzzle, and the id one header
(`block_id_commits`). -/

namespace NakamotoNode.Chain
open Foundations Foundations.RustStd
set_option autoImplicit false

variable {C : Crates}

namespace Puzzle
variable {p q : Puzzle}

/-- The puzzle after its brace, field by field. -/
def fieldsJson (C : Crates) (p : Puzzle) : String :=
  field "\"parent\":" (C.jsonString p.parent) (field ",\"merkle_root\":" (C.jsonString p.merkleRoot)
    (field ",\"reward_receiver\":" (C.jsonString p.rewardReceiver) "\x7d"))

theorem toJson_eq (C : Crates) (p : Puzzle) : p.toJson C = "\x7b" ++ p.fieldsJson C := by
  have hbrace : "\x7b\"parent\":" = "\x7b" ++ "\"parent\":" := rfl
  unfold toJson fieldsJson field
  simp only [hbrace, String.append_assoc]

theorem toList_toJson (C : Crates) (p : Puzzle) :
    (p.toJson C).toList = '\x7b' :: (p.fieldsJson C).toList := by
  rw [toJson_eq, String.toList_append]
  rfl

theorem fieldsJson_prefix (C : Crates) (p : Puzzle) : ['"', 'p'] <+: (p.fieldsJson C).toList := by
  unfold fieldsJson
  rw [field, String.toList_append]
  exact ⟨"arent\":".toList ++ _, rfl⟩

/-- No puzzle begins after the brace of another. -/
theorem fieldsJson_free (h : WritesJson C.jsonString) (p : Puzzle) :
    ¬ ['\x7b', '"', 'p'] <:+: (p.fieldsJson C).toList := by
  unfold fieldsJson
  apply free_field h (by decide)
  · apply free_field h (by decide)
    · exact free_field h (by decide) (by decide) (by decide) _
    · rw [field, String.toList_append]
      exact fun hhead => absurd (Option.some.inj hhead) (by decide)
  · rw [field, String.toList_append]
    exact fun hhead => absurd (Option.some.inj hhead) (by decide)

/-- A puzzle that ends in a puzzle is that puzzle. -/
theorem toJson_suffix (h : WritesJson C.jsonString) {x : List Char}
    (heq : (p.toJson C).toList = x ++ (q.toJson C).toList) : x = [] := by
  cases x with
  | nil => rfl
  | cons c x =>
    rw [toList_toJson, toList_toJson] at heq
    obtain ⟨t, ht⟩ := fieldsJson_prefix C q
    refine absurd ⟨x, t, ?_⟩ (fieldsJson_free h p)
    rw [(List.cons.inj heq).2, ← ht]
    simp

theorem toJson_inj (h : WritesJson C.jsonString) (heq : p.toJson C = q.toJson C) : p = q := by
  rw [toJson_eq, toJson_eq, String.append_right_inj] at heq
  obtain ⟨hparent, heq⟩ := field_inj h.unambiguous heq
  obtain ⟨hroot, heq⟩ := field_inj h.unambiguous heq
  obtain ⟨hreceiver, -⟩ := field_inj h.unambiguous heq
  cases p
  cases q
  simp_all

end Puzzle

/-- The hashed text has one nonce and one puzzle. -/
theorem nonce_puzzle_inj (h : WritesJson C.jsonString) {n₁ n₂ : String} {p₁ p₂ : Puzzle}
    (heq : n₁ ++ p₁.toJson C = n₂ ++ p₂.toJson C) : n₁ = n₂ ∧ p₁ = p₂ := by
  have hlist := congrArg String.toList heq
  rw [String.toList_append, String.toList_append] at hlist
  have hnonce : n₁ = n₂ := by
    rcases List.append_eq_append_iff.mp hlist with ⟨x, hx, hp⟩ | ⟨x, hx, hp⟩
    · rw [Puzzle.toJson_suffix h hp, List.append_nil] at hx
      exact String.toList_inj.mp hx.symm
    · rw [Puzzle.toJson_suffix h hp, List.append_nil] at hx
      exact String.toList_inj.mp hx
  subst hnonce
  exact ⟨rfl, Puzzle.toJson_inj h ((String.append_right_inj n₁).mp heq)⟩

open BlockTree in
/-- For all nonces and puzzles: the text of a nonce and a puzzle is that of no other. So two blocks that
`verify_block_integrity` accepts under one id, the hash not colliding on their texts, have the same
nonce, parent, Merkle root and reward receiver. -/
theorem block_id_commits (h : WritesJson C.jsonString) :
    (∀ n₁ n₂ (p₁ p₂ : Puzzle), n₁ ++ p₁.toJson C = n₂ ++ p₂.toJson C → n₁ = n₂ ∧ p₁ = p₂) ∧
    ∀ (b b' : BlockNode) (d d' : ℕ), verifyBlockIntegrity C b d = .ok true →
      verifyBlockIntegrity C b' d' = .ok true → b.header.blockId = b'.header.blockId →
      (C.sha256Hex (b.challenge C) = C.sha256Hex (b'.challenge C) →
        b.challenge C = b'.challenge C) →
      b.header.nonce = b'.header.nonce ∧ b.header.parent = b'.header.parent ∧
        b.header.merkleRoot = b'.header.merkleRoot ∧
        b.header.rewardReceiver = b'.header.rewardReceiver := by
  refine ⟨fun n₁ n₂ p₁ p₂ => nonce_puzzle_inj h, fun b b' d d' hb hb' hid hsha => ?_⟩
  have hid₁ := (verifyBlockIntegrity_eq_true.mp hb).1
  have hid₂ := (verifyBlockIntegrity_eq_true.mp hb').1
  obtain ⟨hnonce, hpuzzle⟩ := nonce_puzzle_inj h (hsha (hid₁.symm.trans (hid.trans hid₂)))
  obtain ⟨hparent, hroot, hreceiver⟩ := Puzzle.mk.inj hpuzzle
  exact ⟨hnonce, hparent, hroot, hreceiver⟩

/-! ## With the strings of `serde_json` -/

/-- The crates of these blocks, strings escaped. -/
def jsonCrates : Crates := { walletCrates with jsonString := serdeString }

/-- The parent is the beginning of a puzzle. -/
def nestedPuzzle : Puzzle where
  parent := "\x7b\"parent\":\"0\""
  merkleRoot := loan.2
  rewardReceiver := charles

theorem computedBlockId_jsonCrates {b : BlockNode} (h : b.header = (minedBlock 'a' "0" loan).header) :
    b.computedBlockId jsonCrates = minedId 'a' := by
  apply walletSha_of_head _ (by decide)
  simp [BlockNode.challenge, minedBlock, h]

theorem jsonCrates_integrity {b : BlockNode} (h : b.header = (minedBlock 'a' "0" loan).header)
    (hsigs : allVerifySig jsonCrates b.txs = .ok true) :
    BlockTree.verifyBlockIntegrity jsonCrates b 0 = .ok true := by
  refine BlockTree.verifyBlockIntegrity_eq_true.mpr ⟨?_, ?_, hsigs⟩
  · rw [computedBlockId_jsonCrates h, h]
    rfl
  · simp [BlockNode.validLeadingZeroLen, startsWith]

theorem verifySig_jsonCrates (tx : Transaction) :
    tx.verifySig jsonCrates = tx.verifySig walletCrates := rfl

theorem jsonCrates_loan : allVerifySig jsonCrates (minedBlock 'a' "0" loan).txs = .ok true := by
  change allVerifySig jsonCrates [loan.1] = .ok true
  rw [allVerifySig, verifySig_jsonCrates, verifySig_of_wallet payable_loan.signed]
  rfl

theorem block_id_commits_loan :
    "a" ++ nestedPuzzle.toJson jsonCrates ≠
      "a" ++ (minedBlock 'a' "0" loan).puzzle.toJson jsonCrates ∧
    emptied.header.merkleRoot = (minedBlock 'a' "0" loan).header.merkleRoot := by
  obtain ⟨htexts, hblocks⟩ := block_id_commits (C := jsonCrates) writesJson_serdeString
  refine ⟨fun heq => ?_, ?_⟩
  · exact absurd (congrArg Puzzle.parent (htexts _ _ _ _ heq).2) (by decide)
  · exact (hblocks emptied (minedBlock 'a' "0" loan) 0 0 (jsonCrates_integrity rfl rfl)
      (jsonCrates_integrity rfl jsonCrates_loan) rfl fun _ => rfl).2.2.1

end NakamotoNode.Chain
