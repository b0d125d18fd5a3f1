import NakamotoNode.Foundations.JsonText
import NakamotoNode.Network.Message

/-! # Messages in JSON

The compact text that `serde_json` makes of `NetMessage` of `lib_network/src/netchannel.rs`: the derived
`Serialize` of the message and of the types in it. However deep in it a string lies, the text has no line
break, and it is the text of no other message. -/

namespace NakamotoNode.Chain
open Foundations
set_option autoImplicit false

section
variable (C : Crates)

def MerkleTree.toJson (tree : MerkleTree) : String :=
  field "\x7b\"hashes\":" (writeVec "," (writeVec "," C.jsonString) tree.hashes) "\x7d"

def Transactions.toJson (txs : Transactions) : String :=
  field "\x7b\"merkle_tree\":" (txs.merkleTree.toJson C) <|
  field ",\"transactions\":" (writeVec "," (Transaction.toJson C) txs.transactions) "\x7d"

def BlockNodeHeader.toJson (header : BlockNodeHeader) : String :=
  field "\x7b\"parent\":" (C.jsonString header.parent) <|
  field ",\"merkle_root\":" (C.jsonString header.merkleRoot) <|
  field ",\"timestamp\":" (debugNat header.timestamp ++ ",") <|
  field "\"block_id\":" (C.jsonString header.blockId) <|
  field ",\"nonce\":" (C.jsonString header.nonce) <|
  field ",\"reward_receiver\":" (C.jsonString header.rewardReceiver) "\x7d"

def BlockNode.toJson (block : BlockNode) : String :=
  field "\x7b\"header\":" (block.header.toJson C) <|
  field ",\"transactions_block\":" (block.transactionsBlock.toJson C) "\x7d"

end

theorem Transaction.toJson_eq (C : Crates) (tx : Transaction) : tx.toJson C =
    (field "\x7b\"sender\":" (C.jsonString tx.sender) <|
      field ",\"receiver\":" (C.jsonString tx.receiver) <|
      field ",\"message\":" (C.jsonString tx.message) <|
      field ",\"sig\":" (C.jsonString tx.sig) "\x7d") := by
  unfold toJson field
  simp only [String.append_assoc]

/-! ## No line breaks -/

section Compact
variable {C : Crates} (h : ∀ s, Compact (C.jsonString s))
include h

theorem Transaction.compact_toJson (tx : Transaction) : Compact (tx.toJson C) := by
  rw [toJson_eq]
  apply (h _).field (by decide +kernel)
  apply (h _).field (by decide +kernel)
  apply (h _).field (by decide +kernel)
  exact (h _).field (by decide +kernel) (by decide +kernel)

theorem MerkleTree.compact_toJson (tree : MerkleTree) : Compact (tree.toJson C) := by
  have hlevels : ∀ level, Compact (writeVec "," C.jsonString level) :=
    compact_writeVec h (by decide +kernel)
  exact (compact_writeVec hlevels (by decide +kernel) _).field (by decide +kernel) (by decide +kernel)

theorem Transactions.compact_toJson (txs : Transactions) : Compact (txs.toJson C) := by
  apply (txs.merkleTree.compact_toJson h).field (by decide +kernel)
  exact (compact_writeVec (Transaction.compact_toJson h) (by decide +kernel) _).field
    (by decide +kernel) (by decide +kernel)

theorem BlockNodeHeader.compact_toJson (header : BlockNodeHeader) : Compact (header.toJson C) := by
  apply (h _).field (by decide +kernel)
  apply (h _).field (by decide +kernel)
  apply (compact_append.mpr ⟨compact_debugNat _, by decide +kernel⟩).field (by decide +kernel)
  apply (h _).field (by decide +kernel)
  apply (h _).field (by decide +kernel)
  exact (h _).field (by decide +kernel) (by decide +kernel)

theorem BlockNode.compact_toJson (block : BlockNode) : Compact (block.toJson C) := by
  apply (block.header.compact_toJson h).field (by decide +kernel)
  exact (block.transactionsBlock.compact_toJson h).field (by decide +kernel) (by decide +kernel)

end Compact

/-! ## One value for a text -/

section Unambiguous
variable {C : Crates} (h : WritesJson C.jsonString)
include h

theorem Transaction.unambiguous_toJson : Unambiguous (Transaction.toJson C) := by
  have hstr := h.unambiguous
  rintro ⟨sender, receiver, message, sig⟩ ⟨sender', receiver', message', sig'⟩ r r' heq
  rw [toJson_eq, toJson_eq] at heq
  obtain ⟨he, hr⟩ := hstr.field (hstr.field (hstr.field hstr.close))
    (sender, receiver, message, sig) (sender', receiver', message', sig') r r' heq
  cases he
  exact ⟨rfl, hr⟩

theorem MerkleTree.unambiguous_toJson : Unambiguous (MerkleTree.toJson C) := by
  have hhash : Avoids C.jsonString "]" := by
    obtain ⟨escape, -, hs⟩ := h
    rw [show C.jsonString = _ from funext hs]
    exact Avoids.prepend (c := '"') (d := ']') rfl rfl (by decide)
  have hlevel : Unambiguous (writeVec "," C.jsonString) :=
    unambiguous_writeVec h.unambiguous hhash (c := ',') rfl (by decide)
  have hlevels : Unambiguous (writeVec "," (writeVec "," C.jsonString)) :=
    unambiguous_writeVec hlevel avoids_writeVec (c := ',') rfl (by decide)
  rintro ⟨hashes⟩ ⟨hashes'⟩ r r' heq
  obtain ⟨rfl, hr⟩ := hlevels.close hashes hashes' r r' heq
  exact ⟨rfl, hr⟩

theorem Transactions.unambiguous_toJson : Unambiguous (Transactions.toJson C) := by
  have hbrace : Avoids (Transaction.toJson C) "]" := by
    rw [show Transaction.toJson C = _ from funext (Transaction.toJson_eq C)]
    exact avoids_field (c := '\x7b') (by decide) rfl (by decide) _ _
  have htxs : Unambiguous (writeVec "," (Transaction.toJson C)) :=
    unambiguous_writeVec (Transaction.unambiguous_toJson h) hbrace (c := ',') rfl (by decide)
  rintro ⟨tree, txs⟩ ⟨tree', txs'⟩ r r' heq
  obtain ⟨he, hr⟩ :=
    (MerkleTree.unambiguous_toJson h).field htxs.close (tree, txs) (tree', txs') r r' heq
  cases he
  exact ⟨rfl, hr⟩

theorem BlockNodeHeader.unambiguous_toJson : Unambiguous (BlockNodeHeader.toJson C) := by
  have hstr := h.unambiguous
  have htimestamp : Unambiguous fun n => debugNat n ++ "," :=
    unambiguous_digits (b := 10) (c := ',') (by decide) (by decide) (by decide)
  rintro ⟨parent, root, time, id, nonce, reward⟩ ⟨parent', root', time', id', nonce', reward'⟩ r r' heq
  obtain ⟨he, hr⟩ := hstr.field (hstr.field (htimestamp.field (hstr.field (hstr.field hstr.close))))
    (parent, root, time, id, nonce, reward) (parent', root', time', id', nonce', reward') r r' heq
  cases he
  exact ⟨rfl, hr⟩

theorem BlockNode.unambiguous_toJson : Unambiguous (BlockNode.toJson C) := by
  rintro ⟨header, txs⟩ ⟨header', txs'⟩ r r' heq
  obtain ⟨he, hr⟩ := (BlockNodeHeader.unambiguous_toJson h).field
    (Transactions.unambiguous_toJson h).close (header, txs) (header', txs') r r' heq
  cases he
  exact ⟨rfl, hr⟩

end Unambiguous

end NakamotoNode.Chain

namespace NakamotoNode.Network
open Foundations Chain
set_option autoImplicit false

namespace NetMessage

/-- `serde_json::to_string` of a message. -/
def toJson (C : Crates) : NetMessage → String
  | broadcastBlock blockNode => field "\x7b\"BroadcastBlock\":" (blockNode.toJson C) "\x7d"
  | broadcastTx transaction => field "\x7b\"BroadcastTx\":" (transaction.toJson C) "\x7d"
  | requestBlock blockId => field "\x7b\"RequestBlock\":" (C.jsonString blockId) "\x7d"
  | unknown text => field "\x7b\"Unknown\":" (C.jsonString text) "\x7d"

variable {C : Crates}

theorem compact_toJson (h : ∀ s, Compact (C.jsonString s)) (m : NetMessage) :
    Compact (m.toJson C) := by
  cases m with
  | broadcastBlock blockNode =>
    exact (blockNode.compact_toJson h).field (by decide +kernel) (by decide +kernel)
  | broadcastTx transaction =>
    exact (transaction.compact_toJson h).field (by decide +kernel) (by decide +kernel)
  | requestBlock blockId => exact (h blockId).field (by decide +kernel) (by decide +kernel)
  | unknown text => exact (h text).field (by decide +kernel) (by decide +kernel)

theorem toJson_injective (h : WritesJson C.jsonString) : Function.Injective (toJson C) := by
  intro m m' heq
  cases m <;> cases m' <;> simp only [toJson] at heq
  case broadcastBlock.broadcastBlock => rw [(field_inj (BlockNode.unambiguous_toJson h) heq).1]
  case broadcastTx.broadcastTx => rw [(field_inj (Transaction.unambiguous_toJson h) heq).1]
  case requestBlock.requestBlock => rw [(field_inj h.unambiguous heq).1]
  case unknown.unknown => rw [(field_inj h.unambiguous heq).1]
  case broadcastBlock.broadcastTx =>
    exact absurd heq (field_ne (n := 11) (by decide) (by decide) (by decide) _ _ _ _)
  case broadcastTx.broadcastBlock =>
    exact absurd heq (field_ne (n := 11) (by decide) (by decide) (by decide) _ _ _ _)
  all_goals
    exact absurd heq (field_ne (n := 2) (by decide) (by decide) (by decide) _ _ _ _)

end NetMessage
end NakamotoNode.Network
