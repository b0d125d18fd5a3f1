import Mathlib.Data.List.ReduceOption
import NakamotoNode.Chain.Commitment
import NakamotoNode.Network.MessageJson
import NakamotoNode.Network.Wire

/-! # Reading a connection

A connection carries messages as lines. What was written is read back (`wire_round_trip`). The reader
thread of `P2PNetwork::create` reads as long as `read_msg` returns a message; it returns none for a closed
stream and for a line that is no message alike, so the reader stops at the first such line
(`readerLoop_eq`). -/

namespace NakamotoNode.Network
open Foundations Chain
set_option autoImplicit false

/-- The values up to the first that is missing. -/
def untilNone {α : Type} : List (Option α) → List α
  | [] => []
  | none :: _ => []
  | some a :: l => a :: untilNone l

/-- No value is left out where none follows a missing one. -/
theorem untilNone_eq_reduceOption {α : Type} (l : List (Option α)) :
    untilNone l = l.reduceOption ↔ l.Pairwise fun a b => a = none → b = none := by
  induction l with
  | nil => simp [untilNone, List.reduceOption_nil]
  | cons a l ih =>
    cases a with
    | none =>
      rw [List.pairwise_cons, List.reduceOption_cons_of_none, untilNone]
      constructor
      · intro hnil
        have hall : ∀ b ∈ l, b = none := by
          intro b hb
          cases b with
          | none => rfl
          | some a => exact absurd (hnil ▸ List.reduceOption_mem_iff.mpr hb) List.not_mem_nil
        exact ⟨fun b hb _ => hall b hb, List.pairwise_of_forall_mem_list fun _ _ b hb _ => hall b hb⟩
      · rintro ⟨hall, -⟩
        symm
        apply List.eq_nil_iff_forall_not_mem.mpr
        intro a ha
        exact absurd (hall _ (List.reduceOption_mem_iff.mp ha) rfl) (by simp)
    | some a =>
      rw [List.pairwise_cons, List.reduceOption_cons_of_some, untilNone, List.cons_inj_right, ih]
      simp

namespace SerdeJson
variable (J : SerdeJson)

/-- The messages' text is the compact one. -/
def compact (C : Crates) (fromStr : String → Option NetMessage) : SerdeJson where
  toString := NetMessage.toJson C
  fromStr := fromStr

/-- A line as a message. -/
def parseLine (line : List UInt8) : Option NetMessage := (ofUtf8 line).bind J.fromStr

theorem readMsg_cons (b : UInt8) (bytes : List UInt8) : J.readMsg (b :: bytes) =
    (J.parseLine (readLine (b :: bytes)).1, (readLine (b :: bytes)).2) := by
  unfold readMsg
  cases hline : readLine (b :: bytes) with
  | mk line rest =>
    cases line with
    | nil => exact absurd (congrArg Prod.fst hline) (readLine_cons_fst_ne_nil b bytes)
    | cons c line => rfl

theorem readMsg_length (b : UInt8) (bytes : List UInt8) :
    (J.readMsg (b :: bytes)).2.length < bytes.length + 1 := by
  have hlen := readLine_snd_length (b :: bytes)
  rw [readMsg_cons]
  dsimp only
  rw [List.length_cons] at hlen
  omega

/-- What `read_msg` returns, call after call, until the stream is closed. -/
def readAll : List UInt8 → List (Option NetMessage)
  | [] => [(J.readMsg []).1]
  | b :: bytes => (J.readMsg (b :: bytes)).1 :: readAll (J.readMsg (b :: bytes)).2
termination_by stream => stream.length
decreasing_by exact J.readMsg_length b bytes

theorem readAll_eq (stream : List UInt8) :
    J.readAll stream = (lines stream).map J.parseLine ++ [none] := by
  induction hn : stream.length using Nat.strong_induction_on generalizing stream with
  | h n ih =>
    cases stream with
    | nil =>
      rw [readAll, lines]
      rfl
    | cons b bytes =>
      have hlen := readLine_snd_length (b :: bytes)
      simp only [List.length_cons] at hlen hn
      rw [readAll, lines, readMsg_cons]
      dsimp only
      rw [ih _ (by omega) _ rfl]
      rfl

theorem length_of_readMsg {stream rest : List UInt8} {message : NetMessage}
    (h : J.readMsg stream = (some message, rest)) : rest.length < stream.length := by
  cases stream with
  | nil => exact absurd (congrArg Prod.fst h) (by simp [readMsg, readLine])
  | cons b bytes =>
    have hlen := J.readMsg_length b bytes
    rw [h] at hlen
    exact hlen

/-- The reader thread: `while let Some(message) = net_channel_read.read_msg()`. -/
def readerLoop {σ : Type} (body : σ → NetMessage → σ) (s : σ) (stream : List UInt8) : σ :=
  match _h : J.readMsg stream with
  | (some message, rest) => readerLoop body (body s message) rest
  | (none, _) => s
termination_by stream.length
decreasing_by exact J.length_of_readMsg _h

variable {J}

theorem readerLoop_eq {σ : Type} (body : σ → NetMessage → σ) (s : σ) (stream : List UInt8) :
    J.readerLoop body s stream = (untilNone ((lines stream).map J.parseLine)).foldl body s := by
  induction hn : stream.length using Nat.strong_induction_on generalizing stream s with
  | h n ih =>
    unfold readerLoop
    split
    · next message rest hread =>
      cases stream with
      | nil => exact absurd (congrArg Prod.fst hread) (by simp [readMsg, readLine])
      | cons b bytes =>
        have hlen := J.length_of_readMsg hread
        rw [ih _ (hn ▸ hlen) _ _ rfl, lines, List.map_cons]
        obtain ⟨hline, hrest⟩ := Prod.mk.inj ((J.readMsg_cons b bytes).symm.trans hread)
        rw [hline, hrest]
        rfl
    · next rest hread =>
      cases stream with
      | nil =>
        rw [lines]
        rfl
      | cons b bytes =>
        obtain ⟨hline, -⟩ := Prod.mk.inj ((J.readMsg_cons b bytes).symm.trans hread)
        rw [lines, List.map_cons, hline]
        rfl

/-- The messages on a stream, in their order. -/
def arrived (J : SerdeJson) (stream : List UInt8) : List NetMessage :=
  ((lines stream).map J.parseLine).reduceOption

theorem ReadsBack.readAll {m : NetMessage} (h : J.ReadsBack m) (rest : List UInt8) :
    J.readAll (J.serializedMsg m ++ rest) = some m :: J.readAll rest := by
  have hline : J.parseLine (J.serializedMsg m) = some m := by
    rw [parseLine, serializedMsg, ofUtf8_utf8, Option.bind_some, h.fromStr_toString]
  rw [readAll_eq, readAll_eq, serializedMsg, lines_text h.compact, List.map_cons, ← serializedMsg,
    hline]
  rfl

theorem readAll_flatMap {msgs : List NetMessage} (h : ∀ m ∈ msgs, J.ReadsBack m) :
    J.readAll (msgs.flatMap J.serializedMsg) = msgs.map some ++ [none] := by
  induction msgs with
  | nil =>
    rw [List.flatMap_nil, SerdeJson.readAll]
    rfl
  | cons m msgs ih =>
    rw [List.flatMap_cons, (h m List.mem_cons_self).readAll,
      ih fun m' hm' => h m' (List.mem_cons_of_mem m hm')]
    rfl

end SerdeJson

open SerdeJson

/-- Messages of any content, written one after another: `read_msg` returns them in their order, and then
that the stream is closed. -/
theorem wire_round_trip {C : Crates} {fromStr : String → Option NetMessage} {msgs : List NetMessage}
    (hescaped : ∀ s, Compact (C.jsonString s))
    (hparses : ∀ m ∈ msgs, fromStr (m.toJson C ++ "\n") = some m) :
    (compact C fromStr).readAll (msgs.flatMap (compact C fromStr).serializedMsg) =
      msgs.map some ++ [none] := by
  apply readAll_flatMap
  intro m hm
  exact ⟨(NetMessage.compact_toJson hescaped m).newline_notMem, hparses m hm⟩

/-- A message of each kind, with line breaks and quotes. -/
def quoted : List NetMessage :=
  [.unknown "one\nline \"and\" another\n", .requestBlock "\n", .broadcastTx loan.1,
    .broadcastBlock BlockNode.genesisBlock]

/-- `serde_json::from_str` on the lines of these messages. -/
def parseQuoted (text : String) : Option NetMessage :=
  quoted.find? fun m => m.toJson jsonCrates ++ "\n" = text

theorem parseQuoted_toJson {m : NetMessage} (hm : m ∈ quoted) :
    parseQuoted (m.toJson jsonCrates ++ "\n") = some m := by
  cases hfind : parseQuoted (m.toJson jsonCrates ++ "\n") with
  | none => exact absurd (List.find?_eq_none.mp hfind m hm) (by simp)
  | some m' =>
    have hline : m'.toJson jsonCrates ++ "\n" = m.toJson jsonCrates ++ "\n" := by
      simpa using List.find?_some hfind
    rw [NetMessage.toJson_injective writesJson_serdeString ((String.append_left_inj _).mp hline)]

theorem wire_round_trip_quoted :
    (compact jsonCrates parseQuoted).readAll
      (quoted.flatMap (compact jsonCrates parseQuoted).serializedMsg) = quoted.map some ++ [none] :=
  wire_round_trip compact_serdeString fun _ hm => parseQuoted_toJson hm

/-- The reader thread does for every stream what it would do for the messages on it, whatever it does with
a message, if and only if no message comes after a line that is none. -/
theorem readerLoop_iff (J : SerdeJson) (stream : List UInt8) :
    (∀ (σ : Type) (body : σ → NetMessage → σ) (s : σ),
      J.readerLoop body s stream = (J.arrived stream).foldl body s) ↔
    (lines stream).Pairwise fun line later => J.parseLine line = none → J.parseLine later = none := by
  have hpairs := untilNone_eq_reduceOption ((lines stream).map J.parseLine)
  rw [List.pairwise_map] at hpairs
  rw [← hpairs]
  constructor
  · intro h
    have hlog := h (List NetMessage) (fun log m => log ++ [m]) []
    have hself : ∀ l : List NetMessage, l.foldl (fun log m => log ++ [m]) [] = l := by
      intro l
      rw [List.foldl_append_eq_append, List.nil_append, ← List.flatMap_def, List.flatMap_singleton']
    rw [readerLoop_eq, hself, hself] at hlog
    exact hlog
  · intro h σ body s
    rw [readerLoop_eq, h, arrived]

/-- A line that is no message, and a request after it. -/
def badLine : List UInt8 := utf8 ("oops" ++ "\n") ++ requestJson.serializedMsg (.requestBlock "1")

theorem silenced : requestJson.ReadsBack (.requestBlock "1") ∧
    requestJson.arrived badLine = [.requestBlock "1"] ∧
    requestJson.readerLoop (fun log m => log ++ [m]) [] badLine = [] := by
  have hback : requestJson.ReadsBack (.requestBlock "1") := readsBack_requests _ List.mem_cons_self
  have hbad : requestJson.parseLine (utf8 ("oops" ++ "\n")) = none := by
    rw [parseLine, ofUtf8_utf8]
    decide
  have hgood : requestJson.parseLine (requestJson.serializedMsg (.requestBlock "1")) =
      some (.requestBlock "1") := by
    rw [parseLine, serializedMsg, ofUtf8_utf8, Option.bind_some, hback.fromStr_toString]
  have hlines : lines badLine =
      [utf8 ("oops" ++ "\n"), requestJson.serializedMsg (.requestBlock "1")] := by
    have hlast := lines_text hback.compact []
    rw [List.append_nil, lines] at hlast
    rw [badLine, lines_text (by decide), serializedMsg, hlast]
  refine ⟨hback, ?_, ?_⟩
  · rw [arrived, hlines, List.map_cons, List.map_singleton, hbad, hgood]
    rfl
  · rw [readerLoop_eq, hlines, List.map_cons, List.map_singleton, hbad, hgood]
    rfl

end NakamotoNode.Network
