import NakamotoNode.Foundations.RustStd

/-! # Transactions and blocks

The data types of `lib_chain/src/block.rs` and what is computed from one transaction or one block:
`Transaction.genHash`, `Transaction.verifySig`, the Merkle tree, the genesis block and
`BlockNode.validateBlock`. Hashing, JSON string escaping, RSA and base64 come from other crates and
are the fields of `Crates`. -/

namespace NakamotoNode.Chain
open Foundations Foundations.RustStd
set_option autoImplicit false

abbrev UserId := String
abbrev BlockId := String
abbrev Signature := String
abbrev TxId := String

/-- The places where the chain can panic. -/
inductive Panic where
  /-- `message.split(" ")...[1]` -/
  | amountIndex
  /-- `parse::<i64>().unwrap()` -/
  | amountParse
  /-- `+=` or `-=` on a balance -/
  | balanceOverflow
  /-- `sender.get(0..64).unwrap()` and `sender.get(64..80).unwrap()` -/
  | senderSlice
  /-- `RsaPublicKey::from_pkcs1_pem(..).unwrap()` -/
  | publicKey
  /-- `Base64::decode_vec(..).unwrap()` -/
  | sigBase64
  /-- `RsaSignature::from_bytes(..).unwrap()` -/
  | sigBytes
  /-- `hashes.last().unwrap()[0]` -/
  | merkleRoot
  /-- `verify_block_ancestry`: `get_block(parent).unwrap()` -/
  | ancestryParent
  /-- `get_pending_finalization_txs`: `get_block(working_block_id).unwrap()` -/
  | workingBlock
  /-- `get_pending_finalization_txs`: `get_block(parent).unwrap()` -/
  | pendingParent
  /-- `verifiy_transactions_balance`: `get_block(parent).unwrap()` -/
  | rewardParent
  /-- `finalize_block`: `children_map.get(finalized_block_id).unwrap()` -/
  | finalizedChildren
  /-- `update_blocktree`: `block_depth.get(parent).unwrap()` -/
  | parentDepth
  /-- `update_blocktree`: `children_map.get(parent).unwrap()` -/
  | parentChildren
  deriving DecidableEq, Repr

/-- What the chain uses from crates outside the repository. -/
structure Crates where
  /-- `format!("{:x}", Sha256::digest(text))` (crate `sha2`) -/
  sha256Hex : String → String
  /-- a string as `serde_json` writes it, quotes included -/
  jsonString : String → String
  /-- `rsa::RsaPublicKey` -/
  RsaPublicKey : Type
  /-- `rsa::pkcs1v15::Signature` -/
  RsaSignature : Type
  /-- `RsaPublicKey::from_pkcs1_pem` -/
  fromPkcs1Pem : String → Option RsaPublicKey
  /-- `Base64::decode_vec` (crate `base64ct`) -/
  base64DecodeVec : String → Option (List UInt8)
  /-- `RsaSignature::from_bytes` -/
  signatureFromBytes : List UInt8 → Option RsaSignature
  /-- `VerifyingKey::<Sha256>::new(key).verify(msg, signature)` is `Ok` -/
  verify : RsaPublicKey → String → RsaSignature → Bool

/-! ## Transactions -/

structure Transaction where
  sender : UserId
  receiver : UserId
  message : String
  sig : Signature
  deriving DecidableEq, Repr

/-- The amount a message moves: the second of the pieces between blanks, less the leading `$`s. -/
def extractAmount (message : String) : Exec Panic ℤ :=
  Exec.unwrap .amountIndex ((split ' ' message)[1]?) >>= fun piece =>
  Exec.unwrap .amountParse (parseI64 (trimStartMatches '$' piece))

section Transactions
variable (C : Crates)

/-- `serde_json::to_string` of a transaction: the fields in the order of their declaration. -/
def Transaction.toJson (tx : Transaction) : String :=
  "\x7b\"sender\":" ++ C.jsonString tx.sender ++ ",\"receiver\":" ++ C.jsonString tx.receiver ++
    ",\"message\":" ++ C.jsonString tx.message ++ ",\"sig\":" ++ C.jsonString tx.sig ++ "\x7d"

def Transaction.genHash (tx : Transaction) : TxId := C.sha256Hex (tx.toJson C)

/-- The PEM text rebuilt from a user id. -/
def senderIdPem (firstHalf secondHalf : String) : String :=
  "-----BEGIN RSA PUBLIC KEY-----\n" ++ firstHalf ++ "\n" ++ secondHalf ++
    "\n-----END RSA PUBLIC KEY-----\n"

/-- The text whose signature is checked. -/
def Transaction.signedText (tx : Transaction) : String :=
  "[\"" ++ tx.sender ++ "\",\"" ++ tx.receiver ++ "\",\"" ++ tx.message ++ "\"]"

def Transaction.verifySig (tx : Transaction) : Exec Panic Bool :=
  Exec.unwrap .senderSlice (sliceGet tx.sender 0 64) >>= fun firstHalf =>
  Exec.unwrap .senderSlice (sliceGet tx.sender 64 80) >>= fun secondHalf =>
  Exec.unwrap .publicKey (C.fromPkcs1Pem (senderIdPem firstHalf secondHalf)) >>= fun publicKey =>
  Exec.unwrap .sigBase64 (C.base64DecodeVec tx.sig) >>= fun signature =>
  Exec.unwrap .sigBytes (C.signatureFromBytes signature) >>= fun verifySignature =>
  .ok (C.verify publicKey tx.signedText verifySignature)

/-- `transactions.iter().all(|t| t.verify_sig())`: stops at the first that is not valid. -/
def allVerifySig : List Transaction → Exec Panic Bool
  | [] => .ok true
  | tx :: txs => tx.verifySig C >>= fun valid => if valid then allVerifySig txs else .ok false

end Transactions

/-! ## Merkle trees -/

structure MerkleTree where
  hashes : List (List String)
  deriving DecidableEq, Repr

/-- `chunks_exact(2)` -/
def chunksExact2 : List String → List (String × String)
  | a :: b :: rest => (a, b) :: chunksExact2 rest
  | _ => []

section Merkle
variable (C : Crates)

/-- One round of the loop of `create_merkle_tree`: the pairs, then the odd hash with itself. -/
def merkleLevel (lastLevel : List String) : List String :=
  (chunksExact2 lastLevel).map (fun c => C.sha256Hex (c.1 ++ c.2)) ++
    if lastLevel.length % 2 = 1 then
      (lastLevel.getLast?.map fun lastHash => C.sha256Hex (lastHash ++ lastHash)).toList
    else []

theorem chunksExact2_length : ∀ l : List String, (chunksExact2 l).length = l.length / 2
  | [] => rfl
  | [_] => by simp [chunksExact2]
  | _ :: _ :: rest => by
      simp only [chunksExact2, List.length_cons, chunksExact2_length rest]
      omega

theorem merkleLevel_length (l : List String) : (merkleLevel C l).length = (l.length + 1) / 2 := by
  rw [merkleLevel, List.length_append, List.length_map, chunksExact2_length]
  split
  · next hodd =>
    have hne : l ≠ [] := by
      rintro rfl
      simp at hodd
    rw [List.getLast?_eq_some_getLast hne]
    simp only [Option.map_some, Option.toList_some, List.length_singleton]
    omega
  · simp only [List.length_nil]
    omega

/-- The levels from `level` up to the root. -/
def merkleLevels (level : List String) : List (List String) :=
  if 1 < level.length then level :: merkleLevels (merkleLevel C level) else [level]
termination_by level.length
decreasing_by
  rw [merkleLevel_length]
  omega

def createMerkleTree (txs : List Transaction) : Exec Panic (String × MerkleTree) :=
  if txs.length = 0 then .ok ("", { hashes := [] })
  else
    let hashes := merkleLevels C (txs.map fun tx => tx.genHash C)
    Exec.unwrap .merkleRoot (hashes.getLast?.bind fun level => level.head?) >>= fun rootHash =>
    .ok (rootHash, { hashes := hashes })

@[simp] theorem createMerkleTree_nil : createMerkleTree C [] = .ok ("", { hashes := [] }) := rfl

end Merkle

/-! ## Blocks -/

structure Transactions where
  merkleTree : MerkleTree
  transactions : List Transaction
  deriving DecidableEq, Repr

structure Puzzle where
  parent : BlockId
  merkleRoot : String
  rewardReceiver : UserId
  deriving DecidableEq, Repr

/-- `serde_json::to_string` of a puzzle. -/
def Puzzle.toJson (C : Crates) (puzzle : Puzzle) : String :=
  "\x7b\"parent\":" ++ C.jsonString puzzle.parent ++ ",\"merkle_root\":" ++
    C.jsonString puzzle.merkleRoot ++ ",\"reward_receiver\":" ++
    C.jsonString puzzle.rewardReceiver ++ "\x7d"

structure BlockNodeHeader where
  parent : BlockId
  merkleRoot : String
  timestamp : ℕ
  blockId : BlockId
  nonce : String
  rewardReceiver : UserId
  deriving DecidableEq, Repr

structure BlockNode where
  header : BlockNodeHeader
  transactionsBlock : Transactions
  deriving DecidableEq, Repr

namespace BlockNode

/-- The transactions of a block. -/
abbrev txs (block : BlockNode) : List Transaction := block.transactionsBlock.transactions

def genesisBlock : BlockNode where
  header :=
    { parent := "0", merkleRoot := "0", timestamp := 0, blockId := "0", nonce := "0",
      rewardReceiver := "GENESIS" }
  transactionsBlock :=
    { transactions :=
        [{ sender := "GENESIS",
           receiver :=
            "MDgCMQCqrJ1yIJ7cDQIdTuS+4CkKn/tQPN7bZFbbGCBhvjQxs71f6Vu+sD9eh8JGpfiZSckCAwEAAQ==",
           message := "SEND $299792458", sig := "GENESIS" }],
      merkleTree := { hashes := [] } }

section Integrity
variable (C : Crates)

def puzzle (block : BlockNode) : Puzzle where
  parent := block.header.parent
  merkleRoot := block.header.merkleRoot
  rewardReceiver := block.header.rewardReceiver

/-- The nonce and the puzzle, hashed into the block id. -/
def challenge (block : BlockNode) : String := block.header.nonce ++ block.puzzle.toJson C

def computedBlockId (block : BlockNode) : BlockId := C.sha256Hex (block.challenge C)

/-- The block id starts with `leading_zero_len` zeros. -/
def validLeadingZeroLen (block : BlockNode) (leadingZeroLen : ℕ) : Bool :=
  startsWith block.header.blockId (String.ofList (List.replicate leadingZeroLen '0'))

def validateBlock (block : BlockNode) (leadingZeroLen : ℕ) : Exec Panic (Bool × BlockId) :=
  let validBlockId := decide (block.header.blockId = block.computedBlockId C)
  let validLeadingZeroLen := block.validLeadingZeroLen leadingZeroLen
  allVerifySig C block.txs >>= fun validTransactions =>
  createMerkleTree C block.txs >>= fun merkle =>
  let validMerkleRoot := decide (merkle.1 = block.header.merkleRoot)
  .ok (validBlockId && validLeadingZeroLen && validTransactions && validMerkleRoot,
    block.computedBlockId C)

end Integrity

end BlockNode

end NakamotoNode.Chain
