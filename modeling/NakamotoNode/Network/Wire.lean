import NakamotoNode.Foundations.Lines
import NakamotoNode.Foundations.SharedStream
import NakamotoNode.Network.Message

/-! # Messages on a connection

`NetChannelTCP` of `lib_network/src/netchannel.rs`: a message is written as one line of JSON, and read as
one. The threads that write to a neighbor hold clones of one channel and share no lock, so that what a
long message leaves over can come after a part of another. -/

namespace NakamotoNode.Network
open Foundations Chain
set_option autoImplicit false

/-- The crate `serde_json`, for messages. -/
structure SerdeJson where
  /-- `serde_json::to_string` -/
  toString : NetMessage → String
  /-- `serde_json::from_str` -/
  fromStr : String → Option NetMessage

namespace SerdeJson

/-- What is documented of the compact text of a message: control characters are escaped, and the text is
read back, white space after it being skipped. -/
structure ReadsBack (J : SerdeJson) (m : NetMessage) : Prop where
  compact : '\n' ∉ (J.toString m).toList
  fromStr_toString : J.fromStr (J.toString m ++ "\n") = some m

variable (J : SerdeJson)

/-- The bytes that `write_msg` sends. -/
def serializedMsg (m : NetMessage) : List UInt8 := utf8 (J.toString m ++ "\n")

/-- `read_msg` at what is left of a stream that is closed at its end. -/
def readMsg (stream : List UInt8) : Option NetMessage × List UInt8 :=
  match readLine stream with
  | ([], rest) => (none, rest)
  | (line, rest) => ((ofUtf8 line).bind J.fromStr, rest)

/-- What the first calls of `read_msg` return, up to the one that returns nothing. -/
def readMsgs : ℕ → List UInt8 → List NetMessage
  | 0, _ => []
  | n + 1, stream =>
      match J.readMsg stream with
      | (some m, rest) => m :: readMsgs n rest
      | (none, _) => []

variable {J} {m : NetMessage}

theorem serializedMsg_ne_nil : J.serializedMsg m ≠ [] := utf8_line_ne_nil

theorem readMsg_text {s : String} (h : '\n' ∉ s.toList) (rest : List UInt8) :
    J.readMsg (utf8 (s ++ "\n") ++ rest) = (J.fromStr (s ++ "\n"), rest) := by
  rw [readMsg, readLine_text h rest]
  cases hline : utf8 (s ++ "\n") with
  | nil => exact absurd hline utf8_line_ne_nil
  | cons b line =>
    dsimp only
    rw [← hline, ofUtf8_utf8, Option.bind_some]

theorem ReadsBack.readMsg (h : J.ReadsBack m) (rest : List UInt8) :
    J.readMsg (J.serializedMsg m ++ rest) = (some m, rest) := by
  rw [serializedMsg, readMsg_text h.compact, h.fromStr_toString]

theorem readMsgs_nil (n : ℕ) : J.readMsgs n [] = [] := by
  cases n <;> rfl

/-- The serialized messages are read back in their order, and then nothing. -/
theorem readMsgs_flatMap {order : List NetMessage} (h : ∀ m ∈ order, J.ReadsBack m) {n : ℕ}
    (hn : order.length ≤ n) : J.readMsgs n (order.flatMap J.serializedMsg) = order := by
  induction order generalizing n with
  | nil => exact readMsgs_nil n
  | cons m order ih =>
    cases n with
    | zero => simp at hn
    | succ n =>
      rw [List.flatMap_cons, readMsgs, (h m List.mem_cons_self).readMsg]
      dsimp only
      rw [ih (fun m' hm' => h m' (List.mem_cons_of_mem m hm')) (by simpa using hn)]

/-- The peer gets what was written, each message once. -/
def Delivers (J : SerdeJson) (msgs : List NetMessage) (S : SharedStream NetMessage UInt8) : Prop :=
  S.Done → ∃ order : List NetMessage, order.Perm msgs ∧
    ∀ n, order.length ≤ n → J.readMsgs n S.sent = order

end SerdeJson

open SerdeJson

/-! ## Two requests at once -/

/-- `serde_json` at the requests for the blocks "1" and "2". -/
def requestJson : SerdeJson where
  toString
    | .requestBlock blockId => "\x7b" ++ ("\"RequestBlock\":\"" ++ blockId ++ "\"\x7d")
    | _ => "null"
  fromStr text :=
    if text = "\x7b\"RequestBlock\":\"1\"\x7d\n" then some (.requestBlock "1")
    else if text = "\x7b\"RequestBlock\":\"2\"\x7d\n" then some (.requestBlock "2")
    else none

def requests : List NetMessage := [.requestBlock "1", .requestBlock "2"]

theorem serializedMsg_cut (blockId : BlockId) :
    requestJson.serializedMsg (.requestBlock blockId) =
      utf8 "\x7b" ++ utf8 ("\"RequestBlock\":\"" ++ blockId ++ "\"\x7d" ++ "\n") := by
  rw [serializedMsg, ← utf8_append]
  simp only [requestJson, String.append_assoc]

theorem readsBack_requests : ∀ m ∈ requests, requestJson.ReadsBack m := by
  intro m hm
  simp only [requests, List.mem_cons, List.not_mem_nil, or_false] at hm
  rcases hm with rfl | rfl
  · exact ⟨by decide, by decide⟩
  · exact ⟨by decide, by decide⟩

theorem writers_start (text : NetMessage → List UInt8) (a b : NetMessage) :
    (SharedStream.start text [a, b]).writers = ⟨a, text a⟩ ::ₘ ⟨b, text b⟩ ::ₘ 0 := rfl

/-- The first writer sends a part, then the rest, then the second its line. -/
theorem run_in_turn {text : NetMessage → List UInt8} {a b : NetMessage} {x y : List UInt8}
    (ha : text a = x ++ y) (hx : x ≠ []) (hy : y ≠ []) (hb : text b ≠ []) :
    ∃ calls S, Run (Guarded SharedStream.Step (SharedStream.Alone text))
      (SharedStream.start text [a, b]) calls S ∧ S.Done := by
  have hwaits : ∀ w ∈ (StreamWriter.mk b (text b) ::ₘ 0), ¬ w.Partway text := fun w hw => by
    obtain rfl := Multiset.mem_singleton.mp hw
    exact fun h => h.2 rfl
  have hdone : ∀ w ∈ (StreamWriter.mk a [] ::ₘ 0), ¬ w.Partway text := fun w hw => by
    obtain rfl := Multiset.mem_singleton.mp hw
    exact fun h => h.1 rfl
  have hwriters := writers_start text a b
  have hfirst : Run (Guarded SharedStream.Step (SharedStream.Alone text)) _ _ _ := Run.single
    ⟨SharedStream.Step.of_append _ hwriters ha hx, SharedStream.alone_of_cons hwriters hwaits⟩
  have hsecond := hfirst.snoc ⟨SharedStream.Step.of_append (w := ⟨a, y⟩) (⟨b, text b⟩ ::ₘ 0) rfl
    (List.append_nil _).symm hy, SharedStream.alone_of_cons rfl hwaits⟩
  have hswap := Multiset.cons_swap (StreamWriter.mk a []) (StreamWriter.mk b (text b)) 0
  have hthird := hsecond.snoc ⟨SharedStream.Step.of_append _ hswap (List.append_nil _).symm hb,
    SharedStream.alone_of_cons hswap hdone⟩
  refine ⟨_, _, hthird, fun w hw => ?_⟩
  simp only [Multiset.mem_cons, Multiset.notMem_zero, or_false] at hw
  rcases hw with rfl | rfl <;> rfl

/-- The first writer sends a part, then the second its line, then the first the rest. -/
theorem run_interleaved {text : NetMessage → List UInt8} {a b : NetMessage} {x y : List UInt8}
    (ha : text a = x ++ y) (hx : x ≠ []) (hy : y ≠ []) (hb : text b ≠ []) :
    ∃ calls S, Run SharedStream.Step (SharedStream.start text [a, b]) calls S ∧ S.Done ∧
      S.sent = x ++ text b ++ y := by
  have hfirst := Run.single (SharedStream.Step.of_append _ (writers_start text a b) ha hx)
  have hsecond := hfirst.snoc (SharedStream.Step.of_append (w := ⟨b, text b⟩) _
    (Multiset.cons_swap (StreamWriter.mk a y) _ 0) (List.append_nil _).symm hb)
  have hthird := hsecond.snoc (SharedStream.Step.of_append (w := ⟨a, y⟩) _
    (Multiset.cons_swap (StreamWriter.mk b []) _ 0) (List.append_nil _).symm hy)
  refine ⟨_, _, hthird, fun w hw => ?_, rfl⟩
  simp only [Multiset.mem_cons, Multiset.notMem_zero, or_false] at hw
  rcases hw with rfl | rfl <;> rfl

/-- In every run of concurrent writers in which no call to write comes while another writer is partway
through its message, the peer reads the messages, each once, in some order. -/
theorem messages_whole {J : SerdeJson} {msgs : List NetMessage} (hJ : ∀ m ∈ msgs, J.ReadsBack m)
    {S : SharedStream NetMessage UInt8} {calls : List (StreamWriter NetMessage UInt8 × ℕ)}
    (hrun : Run (Guarded SharedStream.Step (SharedStream.Alone J.serializedMsg))
      (SharedStream.start J.serializedMsg msgs) calls S) : J.Delivers msgs S := by
  intro hdone
  obtain ⟨order, hperm, hsent⟩ :=
    SharedStream.sent_of_done (fun m _ => serializedMsg_ne_nil) hrun hdone
  refine ⟨order, hperm, fun n hn => ?_⟩
  rw [hsent]
  exact readMsgs_flatMap (fun m hm => hJ m (hperm.subset hm)) hn

theorem messages_whole_requests : ∃ calls S,
    Run (Guarded SharedStream.Step (SharedStream.Alone requestJson.serializedMsg))
      (SharedStream.start requestJson.serializedMsg requests) calls S ∧ S.Done ∧
    requestJson.Delivers requests S := by
  obtain ⟨calls, S, hrun, hdone⟩ := run_in_turn (b := .requestBlock "2") (serializedMsg_cut "1")
    (by rw [utf8_eq]; decide) utf8_line_ne_nil serializedMsg_ne_nil
  exact ⟨calls, S, hrun, hdone, messages_whole readsBack_requests hrun⟩

/-- The second writer's line falls into the first one's: the peer reads no message. -/
theorem messages_garbled : ∃ calls S,
    Run SharedStream.Step (SharedStream.start requestJson.serializedMsg requests) calls S ∧
    (∀ m ∈ requests, requestJson.ReadsBack m) ∧ S.Done ∧ (∀ n, requestJson.readMsgs n S.sent = []) ∧
    ¬ requestJson.Delivers requests S := by
  obtain ⟨calls, S, hrun, hdone, hsent⟩ := run_interleaved (b := .requestBlock "2")
    (serializedMsg_cut "1") (by rw [utf8_eq]; decide) utf8_line_ne_nil serializedMsg_ne_nil
  have hnone : ∀ n, requestJson.readMsgs n S.sent = [] := by
    intro n
    cases n with
    | zero => rfl
    | succ n =>
      rw [readMsgs, hsent, serializedMsg, ← utf8_append, ← String.append_assoc,
        readMsg_text (by decide)]
      have hbad : requestJson.fromStr
          ("\x7b" ++ requestJson.toString (.requestBlock "2") ++ "\n") = none := by decide
      rw [hbad]
  refine ⟨calls, S, hrun, readsBack_requests, hdone, hnone, fun h => ?_⟩
  obtain ⟨order, hperm, hread⟩ := h hdone
  have horder := hread order.length le_rfl
  rw [hnone] at horder
  rw [← horder] at hperm
  exact absurd hperm.length_eq (by decide)

end NakamotoNode.Network
