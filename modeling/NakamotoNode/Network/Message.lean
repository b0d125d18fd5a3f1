import NakamotoNode.Chain.Block
import NakamotoNode.Foundations.DebugFormat

/-! # Messages

`NetMessage` of `lib_network/src/netchannel.rs`, and its `Debug` text, by which a node tells the messages
it has met. The text is that of the derived `Debug` of the message and of the types in it; no two
messages share one. -/

namespace NakamotoNode.Chain
open Foundations
set_option autoImplicit false

variable (printable : Char → Bool)

def Transaction.debug (tx : Transaction) : String :=
  field "Transaction \x7b sender: " (debugStr printable tx.sender) <|
  field ", receiver: " (debugStr printable tx.receiver) <|
  field ", message: " (debugStr printable tx.message) <|
  field ", sig: " (debugStr printable tx.sig) " \x7d"

def MerkleTree.debug (tree : MerkleTree) : String :=
  field "MerkleTree \x7b hashes: " (debugVec (debugVec (debugStr printable)) tree.hashes)
    " \x7d"

def Transactions.debug (txs : Transactions) : String :=
  field "Transactions \x7b merkle_tree: " (txs.merkleTree.debug printable) <|
  field ", transactions: " (debugVec (Transaction.debug printable) txs.transactions) " \x7d"

def BlockNodeHeader.debug (header : BlockNodeHeader) : String :=
  field "BlockNodeHeader \x7b parent: " (debugStr printable header.parent) <|
  field ", merkle_root: " (debugStr printable header.merkleRoot) <|
  field ", timestamp: " (debugNat header.timestamp ++ ",") <|
  field " block_id: " (debugStr printable header.blockId) <|
  field ", nonce: " (debugStr printable header.nonce) <|
  field ", reward_receiver: " (debugStr printable header.rewardReceiver) " \x7d"

def BlockNode.debug (block : BlockNode) : String :=
  field "BlockNode \x7b header: " (block.header.debug printable) <|
  field ", transactions_block: " (block.transactionsBlock.debug printable) " \x7d"

variable {printable}

theorem Transaction.unambiguous_debug : Unambiguous (Transaction.debug printable) := by
  have hstr : Unambiguous (debugStr printable) := unambiguous_debugStr
  rintro ⟨sender, receiver, message, sig⟩ ⟨sender', receiver', message', sig'⟩ r r' h
  obtain ⟨he, hr⟩ := hstr.field (hstr.field (hstr.field hstr.close))
    (sender, receiver, message, sig) (sender', receiver', message', sig') r r' h
  cases he
  exact ⟨rfl, hr⟩

theorem MerkleTree.unambiguous_debug : Unambiguous (MerkleTree.debug printable) := by
  have hhash : Avoids (debugStr printable) "]" :=
    Avoids.prepend (c := '"') (d := ']') rfl rfl (by decide)
  have hhashes := unambiguous_debugVec (unambiguous_debugVec unambiguous_debugStr hhash)
    avoids_debugVec
  rintro ⟨hashes⟩ ⟨hashes'⟩ r r' h
  obtain ⟨rfl, hr⟩ := hhashes.close hashes hashes' r r' h
  exact ⟨rfl, hr⟩

theorem Transactions.unambiguous_debug : Unambiguous (Transactions.debug printable) := by
  have htxs : Unambiguous (debugVec (Transaction.debug printable)) :=
    unambiguous_debugVec Transaction.unambiguous_debug
      (avoids_field (c := 'T') (by decide) rfl (by decide) _ _)
  rintro ⟨tree, txs⟩ ⟨tree', txs'⟩ r r' h
  obtain ⟨he, hr⟩ := MerkleTree.unambiguous_debug.field htxs.close (tree, txs) (tree', txs') r r' h
  cases he
  exact ⟨rfl, hr⟩

theorem BlockNodeHeader.unambiguous_debug : Unambiguous (BlockNodeHeader.debug printable) := by
  have hstr : Unambiguous (debugStr printable) := unambiguous_debugStr
  have htimestamp : Unambiguous fun n => debugNat n ++ "," :=
    unambiguous_digits (b := 10) (c := ',') (by decide) (by decide) (by decide)
  rintro ⟨parent, root, time, id, nonce, reward⟩ ⟨parent', root', time', id', nonce', reward'⟩ r r' h
  obtain ⟨he, hr⟩ := hstr.field (hstr.field (htimestamp.field (hstr.field (hstr.field hstr.close))))
    (parent, root, time, id, nonce, reward) (parent', root', time', id', nonce', reward') r r' h
  cases he
  exact ⟨rfl, hr⟩

theorem BlockNode.unambiguous_debug : Unambiguous (BlockNode.debug printable) := by
  rintro ⟨header, txs⟩ ⟨header', txs'⟩ r r' h
  obtain ⟨he, hr⟩ := BlockNodeHeader.unambiguous_debug.field Transactions.unambiguous_debug.close
    (header, txs) (header', txs') r r' h
  cases he
  exact ⟨rfl, hr⟩

end NakamotoNode.Chain

namespace NakamotoNode.Network
open Foundations Chain
set_option autoImplicit false

structure NetAddress where
  ip : String
  port : ℤ
  deriving DecidableEq, Repr

inductive NetMessage where
  | broadcastBlock (blockNode : BlockNode)
  | broadcastTx (transaction : Transaction)
  | requestBlock (blockId : BlockId)
  | unknown (text : String)
  deriving DecidableEq, Repr

namespace NetMessage

/-- `format!("{:?}", message)`, the key of a message in the ack set. -/
def debug (printable : Char → Bool) : NetMessage → String
  | broadcastBlock blockNode => field "BroadcastBlock(" (blockNode.debug printable) ")"
  | broadcastTx transaction => field "BroadcastTx(" (transaction.debug printable) ")"
  | requestBlock blockId => field "RequestBlock(" (debugStr printable blockId) ")"
  | unknown text => field "Unknown(" (debugStr printable text) ")"

theorem debug_injective (printable : Char → Bool) : Function.Injective (debug printable) := by
  intro m m' h
  cases m <;> cases m' <;> simp only [debug] at h
  case broadcastBlock.broadcastBlock => rw [(field_inj BlockNode.unambiguous_debug h).1]
  case broadcastTx.broadcastTx => rw [(field_inj Transaction.unambiguous_debug h).1]
  case requestBlock.requestBlock => rw [(field_inj unambiguous_debugStr h).1]
  case unknown.unknown => rw [(field_inj unambiguous_debugStr h).1]
  case broadcastBlock.broadcastTx =>
    exact absurd h (field_ne (n := 9) (by decide) (by decide) (by decide) _ _ _ _)
  case broadcastTx.broadcastBlock =>
    exact absurd h (field_ne (n := 9) (by decide) (by decide) (by decide) _ _ _ _)
  all_goals
    exact absurd h (field_ne (n := 0) (by decide) (by decide) (by decide) _ _ _ _)

end NetMessage
end NakamotoNode.Network
