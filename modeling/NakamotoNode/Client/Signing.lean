import NakamotoNode.Chain.Commitment

/-! # Signing a payment

`create_sign_req` of `bin_client/src/main.rs` has the wallet sign a triple as `serde_json` writes it;
`PublishTx` of `bin_nakamoto/src/main.rs` reads that text back and makes a transaction of it, whose
signed text `verify_sig` puts together without escaping anything. The two texts agree on the triples
that need no escape, and only there (`signed_text_iff`). -/

namespace NakamotoNode.Client
open Foundations Foundations.RustStd Chain
set_option autoImplicit false

/-- `format!("{}   // {}", message, millis)`, with the time in milliseconds. -/
def timestamped (message : String) (millis : ℕ) : String :=
  message ++ "   // " ++ debugNat millis

section
variable (C : Crates)

/-- `serde_json::to_string` of a triple. -/
def tripleJson (sender receiver message : String) : String :=
  "[" ++ C.jsonString sender ++ "," ++ C.jsonString receiver ++ "," ++ C.jsonString message ++ "]"

/-- The data string that `create_sign_req` sends to the wallet. -/
def createSignReq (sender receiver message : String) (millis : ℕ) : String :=
  tripleJson C sender receiver (timestamped message millis)

/-- The places where `PublishTx` can panic. -/
inductive PublishPanic where
  /-- `serde_json::from_str(&data_string).unwrap()` -/
  | parse
  /-- `tx_data[0]`, `tx_data[1]`, `tx_data[2]` -/
  | index
  deriving DecidableEq, Repr

/-- The transaction that `PublishTx` publishes. `fromStr` is `serde_json::from_str::<Vec<String>>`. -/
def publishTx (fromStr : String → Option (List String)) (dataString : String)
    (signature : Signature) : Exec PublishPanic Transaction :=
  Exec.unwrap .parse (fromStr dataString) >>= fun txData =>
  Exec.unwrap .index txData[0]? >>= fun sender =>
  Exec.unwrap .index txData[1]? >>= fun receiver =>
  Exec.unwrap .index txData[2]? >>= fun message =>
  .ok { sender := sender, receiver := receiver, message := message, sig := signature }

/-- What `verify_sig` does, of a given text. -/
def verifyText (sender : UserId) (sig : Signature) (text : String) : Exec Panic Bool :=
  Exec.unwrap .senderSlice (sliceGet sender 0 64) >>= fun firstHalf =>
  Exec.unwrap .senderSlice (sliceGet sender 64 80) >>= fun secondHalf =>
  Exec.unwrap .publicKey (C.fromPkcs1Pem (senderIdPem firstHalf secondHalf)) >>= fun publicKey =>
  Exec.unwrap .sigBase64 (C.base64DecodeVec sig) >>= fun signature =>
  Exec.unwrap .sigBytes (C.signatureFromBytes signature) >>= fun verifySignature =>
  .ok (C.verify publicKey text verifySignature)

end

variable {C : Crates}

theorem verifySig_eq (tx : Transaction) :
    tx.verifySig C = verifyText C tx.sender tx.sig tx.signedText := rfl

theorem plain_timestamped {message : String} {millis : ℕ} :
    Plain (timestamped message millis).toList ↔ Plain message.toList := by
  have hdigits : Plain (debugNat millis).toList := by
    have hdigit : ∀ d < 10, ¬ MustEscape (Nat.digitChar d) := by decide
    intro c hc
    rw [debugNat, String.toList_ofList] at hc
    obtain ⟨d, hd, rfl⟩ := mem_toDigits (by decide) hc
    exact hdigit d hd
  have hslashes : Plain "   // ".toList := by decide
  rw [timestamped, String.toList_append, String.toList_append, plain_append, plain_append]
  exact ⟨fun h => h.1.1, fun h => ⟨⟨h, hslashes⟩, hdigits⟩⟩

/-- The text without escapes is that of `serde_json` just where nothing has to be escaped: elsewhere
that is longer. -/
theorem signedText_eq_tripleJson_iff (h : WritesJson C.jsonString) (tx : Transaction) :
    tx.signedText = tripleJson C tx.sender tx.receiver tx.message ↔
      Plain tx.sender.toList ∧ Plain tx.receiver.toList ∧ Plain tx.message.toList := by
  constructor
  · intro heq
    have hlen := congrArg (fun s => s.toList.length) heq
    simp only [Transaction.signedText, tripleJson, String.toList_append, List.length_append] at hlen
    change 2 + _ + 3 + _ + 3 + _ + 2 = 1 + _ + 1 + _ + 1 + _ + 1 at hlen
    have hs := h.length_le tx.sender
    have hr := h.length_le tx.receiver
    have hm := h.length_le tx.message
    rw [← h.length_eq_iff, ← h.length_eq_iff, ← h.length_eq_iff]
    omega
  · rintro ⟨hs, hr, hm⟩
    unfold Transaction.signedText tripleJson
    rw [h.eq_quoted hs, h.eq_quoted hr, h.eq_quoted hm]
    have hopen : ("[\"" : String) = "[" ++ "\"" := rfl
    have hcomma : ("\",\"" : String) = "\"" ++ ("," ++ "\"") := rfl
    have hclose : ("\"]" : String) = "\"" ++ "]" := rfl
    rw [hopen, hcomma, hclose]
    simp only [String.append_assoc]

theorem publishTx_of_read {fromStr : String → Option (List String)} {dataString : String}
    {sender receiver message : String} (hread : fromStr dataString = some [sender, receiver, message])
    (signature : Signature) : publishTx fromStr dataString signature =
      .ok { sender := sender, receiver := receiver, message := message, sig := signature } := by
  rw [publishTx, hread]
  rfl

/-- For every sender, receiver, message and time, `serde_json` escaping what it must and reading back
what it wrote: `PublishTx` makes a transaction of the data string; `verify_sig` checks its signature of
that very string exactly when no character of the three has to be escaped, and then it accepts just
the signatures of the string that the wallet signed. -/
theorem signed_text_iff (hjson : WritesJson C.jsonString)
    (fromStr : String → Option (List String)) (sender receiver message : String) (millis : ℕ)
    (hread : fromStr (createSignReq C sender receiver message millis) =
      some [sender, receiver, timestamped message millis]) (signature : Signature) :
    ∃ tx, publishTx fromStr (createSignReq C sender receiver message millis) signature = .ok tx ∧
      (tx.signedText = createSignReq C sender receiver message millis ↔
        Plain sender.toList ∧ Plain receiver.toList ∧ Plain message.toList) ∧
      (Plain sender.toList ∧ Plain receiver.toList ∧ Plain message.toList →
        tx.verifySig C =
          verifyText C sender signature (createSignReq C sender receiver message millis)) := by
  have hiff := signedText_eq_tripleJson_iff hjson
    { sender := sender, receiver := receiver, message := timestamped message millis, sig := signature }
  rw [plain_timestamped] at hiff
  refine ⟨_, publishTx_of_read hread signature, hiff, fun hplain => ?_⟩
  rw [verifySig_eq, hiff.mpr hplain]
  rfl

/-- The message that the doc of `Transaction` shows. -/
def examplePayment : String := timestamped "SEND $300   // By Alice" 1678173972743

theorem signed_text_example : ∃ tx,
    publishTx (fun _ => some [alice, bob, examplePayment])
      (createSignReq jsonCrates alice bob "SEND $300   // By Alice" 1678173972743) loan.1.sig =
      .ok tx ∧
    tx.signedText = createSignReq jsonCrates alice bob "SEND $300   // By Alice" 1678173972743 := by
  have hplain : Plain alice.toList ∧ Plain bob.toList ∧
      Plain "SEND $300   // By Alice".toList := by decide +kernel
  obtain ⟨tx, htx, hiff, -⟩ := signed_text_iff (C := jsonCrates) writesJson_serdeString
    (fun _ => some [alice, bob, examplePayment]) alice bob "SEND $300   // By Alice" 1678173972743
    rfl loan.1.sig
  exact ⟨tx, htx, hiff.mpr hplain⟩

/-- A message with quotes. -/
def quotedMessage : String := "SEND $100   // \"rent\""

/-- The wallet signs the message with its quotes escaped, and `verify_sig` checks it without. -/
theorem signed_text_differs : ∃ tx,
    publishTx (fun _ => some [alice, bob, timestamped quotedMessage 1678173972743])
      (createSignReq jsonCrates alice bob quotedMessage 1678173972743) loan.1.sig = .ok tx ∧
    tx.signedText ≠ createSignReq jsonCrates alice bob quotedMessage 1678173972743 := by
  refine ⟨_, publishTx_of_read rfl loan.1.sig, fun heq => ?_⟩
  obtain ⟨-, -, hplain⟩ := (signedText_eq_tripleJson_iff (C := jsonCrates) writesJson_serdeString
    { sender := alice, receiver := bob, message := timestamped quotedMessage 1678173972743,
      sig := loan.1.sig }).mp heq
  exact plain_timestamped.mp hplain '"' (by decide) (.inl rfl)

end NakamotoNode.Client
