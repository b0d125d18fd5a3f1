import NakamotoNode.Chain.Chains
import NakamotoNode.Foundations.Delimiters

/-! # What a signature is for

`verify_sig` checks a signature of the sender, the receiver and the message with `","` between them,
written as they are. A receiver or a message that contains the delimiter, or a part of it at the
delimiter, makes the same text as another payment (`signature_binds_iff`). -/

namespace NakamotoNode.Chain
open Foundations Foundations.RustStd
set_option autoImplicit false

/-- `","`, which stands between the fields. -/
def fieldDelimiter : List Char := ['"', ',', '"']

namespace Transaction
variable {tx tx' : Transaction}

/-- The delimiter occurs neither in the receiver, followed by a quote, nor in the message, after one. -/
def Sealed (tx : Transaction) : Prop :=
  ¬ fieldDelimiter <:+: tx.receiver.toList ++ ['"'] ∧
    ¬ fieldDelimiter <:+: '"' :: tx.message.toList

theorem toList_signedText (tx : Transaction) : tx.signedText.toList =
    ['[', '"'] ++ tx.sender.toList ++ fieldDelimiter ++
      (tx.receiver.toList ++ fieldDelimiter ++ tx.message.toList) ++ ['"', ']'] := by
  unfold signedText fieldDelimiter
  simp only [String.toList_append, List.append_assoc]
  rfl

/-- With the same sender the texts differ in the receiver and the message only. -/
theorem signedText_eq_iff (hsender : tx'.sender = tx.sender) :
    tx'.signedText = tx.signedText ↔
      tx'.receiver.toList ++ fieldDelimiter ++ tx'.message.toList =
        tx.receiver.toList ++ fieldDelimiter ++ tx.message.toList := by
  rw [← String.toList_inj, toList_signedText, toList_signedText, hsender, List.append_left_inj,
    List.append_right_inj]

/-- For every transaction: the text that `verify_sig` checks for it is that of no other receiver or
message of the same sender exactly when the transaction is sealed. -/
theorem signature_binds_iff (tx : Transaction) :
    (∀ tx' : Transaction, tx'.sender = tx.sender → tx'.signedText = tx.signedText →
      tx'.receiver = tx.receiver ∧ tx'.message = tx.message) ↔ tx.Sealed := by
  unfold Sealed fieldDelimiter
  rw [← splits_iff (by decide)]
  constructor
  · intro h receiver message heq
    obtain ⟨tx', htx'⟩ : ∃ tx' : Transaction, tx' = { tx with
        receiver := String.ofList receiver, message := String.ofList message } := ⟨_, rfl⟩
    have hsender : tx'.sender = tx.sender := by rw [htx']
    have hreceiver : tx'.receiver.toList = receiver := by rw [htx', String.toList_ofList]
    have hmessage : tx'.message.toList = message := by rw [htx', String.toList_ofList]
    rw [← hreceiver, ← hmessage] at heq ⊢
    obtain ⟨hr, hm⟩ := h tx' hsender ((signedText_eq_iff hsender).mpr heq)
    rw [hr, hm]
    exact ⟨rfl, rfl⟩
  · intro h tx' hsender heq
    obtain ⟨hr, hm⟩ := h _ _ ((signedText_eq_iff hsender).mp heq)
    exact ⟨String.toList_inj.mp hr, String.toList_inj.mp hm⟩

/-- Alice signs a payment of $1 to a receiver who has put more than an id into theirs. -/
def signedDollar : Transaction where
  sender := alice
  receiver := bob ++ "\",\"" ++ "SEND $100 "
  message := "SEND $1"
  sig := loan.1.sig

/-- The same signature with a payment of $100. -/
def movedSignature : Transaction where
  sender := alice
  receiver := bob
  message := "SEND $100 " ++ "\",\"" ++ "SEND $1"
  sig := loan.1.sig

theorem signature_moved : movedSignature.sender = signedDollar.sender ∧
    movedSignature.signedText = signedDollar.signedText ∧
    (∀ C, movedSignature.verifySig C = signedDollar.verifySig C) ∧
    movedSignature.receiver ≠ signedDollar.receiver ∧
    extractAmount signedDollar.message = .ok 1 ∧
    extractAmount movedSignature.message = .ok 100 := by
  have htext : movedSignature.signedText = signedDollar.signedText := by
    unfold signedText movedSignature signedDollar
    simp only [String.append_assoc]
  refine ⟨rfl, htext, fun C => ?_, ?_, by decide, by decide⟩
  · unfold verifySig
    rw [htext]
    rfl
  · intro h
    have hlen := congrArg (fun s => s.toList.length) h
    simp [movedSignature, signedDollar] at hlen

end Transaction
end NakamotoNode.Chain
