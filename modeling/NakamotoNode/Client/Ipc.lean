import NakamotoNode.Chain.Commitment
import NakamotoNode.Foundations.JsonValues

/-! # Messages between the processes

`bin_client` writes requests to the standard input of `bin_nakamoto` and `bin_wallet` and reads their
responses, each a line of JSON. The enumerations are declared on both sides, with the same variants; the
names here are those of `bin_client/src/main.rs`. A line is the line of one message only, and the client
lets no response of the node go by unread (`ipc_lines`). -/

namespace NakamotoNode.Client
open Foundations Foundations.RustStd Chain
set_option autoImplicit false

/-- Requests to `bin_nakamoto`. -/
inductive IPCMessageReqNakamoto where
  | initializeWith (blocktreeJson txPoolJson configJson : String)
  | getAddressBalance (userId : UserId)
  | publishTx (dataString : String) (signature : Signature)
  | requestBlock (blockId : BlockId)
  | requestNetStatus
  | requestChainStatus
  | requestMinerStatus
  | requestTxPoolStatus
  | requestStateSerialization
  | quit
  deriving DecidableEq, Repr

/-- What `bin_nakamoto` writes: responses, and notifications at any time. -/
inductive IPCMessageRespNakamoto where
  | initialized
  | publishTxDone
  | addressBalance (userId : UserId) (balance : ℤ)
  | blockData (data : String)
  | netStatus (map : List (String × String))
  | chainStatus (map : List (String × String))
  | minerStatus (map : List (String × String))
  | txPoolStatus (map : List (String × String))
  | stateSerialization (blocktreeJson txPoolJson : String)
  | quitting
  | notify (message : String)
  deriving DecidableEq, Repr

/-- Requests to `bin_wallet`. -/
inductive IPCMessageReqWallet where
  | initializeWith (wallet : String)
  | quit
  | signRequest (dataString : String)
  | verifyRequest (dataString : String) (signature : Signature)
  | getUserInfo
  deriving DecidableEq, Repr

/-- Responses of `bin_wallet`. -/
inductive IPCMessageRespWallet where
  | initialized
  | quitting
  | signResponse (dataString : String) (signature : Signature)
  | verifyResponse (isSuccess : Bool) (dataString : String)
  | userInfo (userName : String) (userId : UserId)
  deriving DecidableEq, Repr

/-! ## Their text -/

section
variable (C : Crates)

/-- A tuple of strings. -/
def tuple (values : List String) : String := writeVec "," C.jsonString values

namespace IPCMessageReqNakamoto

def name : IPCMessageReqNakamoto → String
  | initializeWith _ _ _ => "Initialize"
  | getAddressBalance _ => "GetAddressBalance"
  | publishTx _ _ => "PublishTx"
  | requestBlock _ => "RequestBlock"
  | requestNetStatus => "RequestNetStatus"
  | requestChainStatus => "RequestChainStatus"
  | requestMinerStatus => "RequestMinerStatus"
  | requestTxPoolStatus => "RequestTxPoolStatus"
  | requestStateSerialization => "RequestStateSerialization"
  | quit => "Quit"

def content : IPCMessageReqNakamoto → Option String
  | initializeWith blocktreeJson txPoolJson configJson =>
      some (tuple C [blocktreeJson, txPoolJson, configJson])
  | getAddressBalance userId => some (C.jsonString userId)
  | publishTx dataString signature => some (tuple C [dataString, signature])
  | requestBlock blockId => some (C.jsonString blockId)
  | _ => none

/-- `serde_json::to_string` -/
def toJson (m : IPCMessageReqNakamoto) : String := writeVariant m.name (m.content C)

end IPCMessageReqNakamoto

namespace IPCMessageRespNakamoto

def name : IPCMessageRespNakamoto → String
  | initialized => "Initialized"
  | publishTxDone => "PublishTxDone"
  | addressBalance _ _ => "AddressBalance"
  | blockData _ => "BlockData"
  | netStatus _ => "NetStatus"
  | chainStatus _ => "ChainStatus"
  | minerStatus _ => "MinerStatus"
  | txPoolStatus _ => "TxPoolStatus"
  | stateSerialization _ _ => "StateSerialization"
  | quitting => "Quitting"
  | notify _ => "Notify"

def content : IPCMessageRespNakamoto → Option String
  | addressBalance userId balance =>
      some (field "[" (C.jsonString userId) ("," ++ (jsonInt balance ++ "]")))
  | blockData data => some (C.jsonString data)
  | netStatus map => some (jsonMap C.jsonString map)
  | chainStatus map => some (jsonMap C.jsonString map)
  | minerStatus map => some (jsonMap C.jsonString map)
  | txPoolStatus map => some (jsonMap C.jsonString map)
  | stateSerialization blocktreeJson txPoolJson => some (tuple C [blocktreeJson, txPoolJson])
  | notify message => some (C.jsonString message)
  | _ => none

def toJson (m : IPCMessageRespNakamoto) : String := writeVariant m.name (m.content C)

/-- What the client's reader looks for in a line of the node. -/
def keywords : List String :=
  ["Initialized", "PublishTxDone", "AddressBalance", "BlockData", "NetStatus", "ChainStatus",
    "MinerStatus", "TxPoolStatus", "StateSerialization", "Quitting", "Notify"]

end IPCMessageRespNakamoto

namespace IPCMessageReqWallet

def name : IPCMessageReqWallet → String
  | initializeWith _ => "Initialize"
  | quit => "Quit"
  | signRequest _ => "SignRequest"
  | verifyRequest _ _ => "VerifyRequest"
  | getUserInfo => "GetUserInfo"

def content : IPCMessageReqWallet → Option String
  | initializeWith wallet => some (C.jsonString wallet)
  | signRequest dataString => some (C.jsonString dataString)
  | verifyRequest dataString signature => some (tuple C [dataString, signature])
  | _ => none

def toJson (m : IPCMessageReqWallet) : String := writeVariant m.name (m.content C)

end IPCMessageReqWallet

namespace IPCMessageRespWallet

def name : IPCMessageRespWallet → String
  | initialized => "Initialized"
  | quitting => "Quitting"
  | signResponse _ _ => "SignResponse"
  | verifyResponse _ _ => "VerifyResponse"
  | userInfo _ _ => "UserInfo"

def content : IPCMessageRespWallet → Option String
  | signResponse dataString signature => some (tuple C [dataString, signature])
  | verifyResponse isSuccess dataString =>
      some (field (if isSuccess then "[true," else "[false,") (C.jsonString dataString) "]")
  | userInfo userName userId => some (tuple C [userName, userId])
  | _ => none

def toJson (m : IPCMessageRespWallet) : String := writeVariant m.name (m.content C)

end IPCMessageRespWallet
end

/-! ## Lines -/

section
variable {C : Crates}

theorem compact_tuple (h : ∀ s, Compact (C.jsonString s)) (values : List String) :
    Compact (tuple C values) := compact_writeVec h (by decide +kernel) values

theorem tuple_inj (h : WritesJson C.jsonString) {values values' : List String}
    (heq : tuple C values = tuple C values') : values = values' :=
  (unambiguous_writeVec h.unambiguous (h.avoids (d := ']') rfl (by decide)) (c := ',') rfl (by decide)
    values values' "" "" (by rw [tuple, tuple] at heq; rw [heq])).1

theorem string_inj (h : WritesJson C.jsonString) {s t : String}
    (heq : C.jsonString s = C.jsonString t) : s = t :=
  (h.unambiguous s t "" "" (by rw [heq])).1

theorem map_inj (h : WritesJson C.jsonString) {map map' : List (String × String)}
    (heq : jsonMap C.jsonString map = jsonMap C.jsonString map') : map = map' :=
  (unambiguous_jsonMap h map map' "" "" (by rw [heq])).1

theorem IPCMessageRespNakamoto.name_mem_keywords (m : IPCMessageRespNakamoto) : m.name ∈ keywords := by
  cases m <;> simp [name, keywords]

/-- The names of the variants. -/
def variantNames : List String :=
  ["Initialize", "GetAddressBalance", "PublishTx", "RequestBlock", "RequestNetStatus",
    "RequestChainStatus", "RequestMinerStatus", "RequestTxPoolStatus", "RequestStateSerialization",
    "Quit", "SignRequest", "VerifyRequest", "GetUserInfo", "SignResponse", "VerifyResponse",
    "UserInfo"] ++ IPCMessageRespNakamoto.keywords

theorem variantNames_spec : ∀ name ∈ variantNames, Compact name ∧ '"' ∉ name.toList := by
  have hall : variantNames.all (fun name => decide (Compact name ∧ '"' ∉ name.toList)) = true := by
    decide +kernel
  exact fun name hname => of_decide_eq_true (List.all_eq_true.mp hall name hname)

/-- What is to be shown of an enumeration: its messages are lines, and their texts differ if their
contents do. -/
theorem writeVariant_lines {α : Type} {name : α → String} {content : α → Option String}
    (hname : ∀ m, name m ∈ variantNames) (hcompact : ∀ m, ∀ s ∈ content m, Compact s)
    (hinj : ∀ m m', name m = name m' → content m = content m' → m = m') :
    (∀ m, Compact (writeVariant (name m) (content m))) ∧
      Function.Injective fun m => writeVariant (name m) (content m) := by
  refine ⟨fun m => compact_writeVariant (variantNames_spec _ (hname m)).1 (hcompact m), ?_⟩
  intro m m' heq
  obtain ⟨hn, hc⟩ := writeVariant_inj (variantNames_spec _ (hname m)).2
    (variantNames_spec _ (hname m')).2 heq
  exact hinj m m' hn hc

variable (h : ∀ s, Compact (C.jsonString s)) (hjson : WritesJson C.jsonString)
include h hjson

theorem IPCMessageReqNakamoto.lines : (∀ m : IPCMessageReqNakamoto, Compact (m.toJson C)) ∧
    Function.Injective (IPCMessageReqNakamoto.toJson C) := by
  refine writeVariant_lines (fun m => by cases m <;> simp [name, variantNames]) (fun m s hs => ?_)
    fun m m' hname hcontent => ?_
  · cases m <;> simp only [content, Option.mem_some_iff, Option.not_mem_none] at hs <;> subst hs
    case initializeWith => exact compact_tuple h _
    case getAddressBalance => exact h _
    case publishTx => exact compact_tuple h _
    case requestBlock => exact h _
  · cases m <;> cases m' <;> simp only [name, String.reduceEq] at hname <;>
      simp only [content, Option.some.injEq] at hcontent
    case initializeWith.initializeWith =>
      obtain ⟨rfl, rfl, rfl⟩ := by simpa using tuple_inj hjson hcontent
      rfl
    case publishTx.publishTx =>
      obtain ⟨rfl, rfl⟩ := by simpa using tuple_inj hjson hcontent
      rfl
    case getAddressBalance.getAddressBalance => rw [string_inj hjson hcontent]
    case requestBlock.requestBlock => rw [string_inj hjson hcontent]
    all_goals rfl

theorem IPCMessageRespNakamoto.lines : (∀ m : IPCMessageRespNakamoto, Compact (m.toJson C)) ∧
    Function.Injective (IPCMessageRespNakamoto.toJson C) := by
  refine writeVariant_lines (fun m => List.mem_append_right _ m.name_mem_keywords) (fun m s hs => ?_)
    fun m m' hname hcontent => ?_
  · cases m <;> simp only [content, Option.mem_some_iff, Option.not_mem_none] at hs <;> subst hs
    case addressBalance userId balance =>
      refine (h userId).field (by decide +kernel) (compact_append.mpr ⟨by decide +kernel, ?_⟩)
      exact compact_append.mpr ⟨compact_jsonInt balance, by decide +kernel⟩
    case blockData => exact h _
    case stateSerialization => exact compact_tuple h _
    case notify => exact h _
    all_goals exact compact_jsonMap h _
  · cases m <;> cases m' <;> simp only [name, String.reduceEq] at hname <;>
      simp only [content, Option.some.injEq] at hcontent
    case addressBalance.addressBalance userId balance userId' balance' =>
      obtain ⟨rfl, hbalance⟩ := field_inj hjson.unambiguous hcontent
      have hint := (String.append_right_inj ",").mp hbalance
      rw [(unambiguous_jsonInt balance balance' "" "" (by dsimp only; rw [hint])).1]
    case stateSerialization.stateSerialization =>
      obtain ⟨rfl, rfl⟩ := by simpa using tuple_inj hjson hcontent
      rfl
    case blockData.blockData => rw [string_inj hjson hcontent]
    case notify.notify => rw [string_inj hjson hcontent]
    case netStatus.netStatus => rw [map_inj hjson hcontent]
    case chainStatus.chainStatus => rw [map_inj hjson hcontent]
    case minerStatus.minerStatus => rw [map_inj hjson hcontent]
    case txPoolStatus.txPoolStatus => rw [map_inj hjson hcontent]
    all_goals rfl

theorem IPCMessageReqWallet.lines : (∀ m : IPCMessageReqWallet, Compact (m.toJson C)) ∧
    Function.Injective (IPCMessageReqWallet.toJson C) := by
  refine writeVariant_lines (fun m => by cases m <;> simp [name, variantNames]) (fun m s hs => ?_)
    fun m m' hname hcontent => ?_
  · cases m <;> simp only [content, Option.mem_some_iff, Option.not_mem_none] at hs <;> subst hs
    case initializeWith => exact h _
    case signRequest => exact h _
    case verifyRequest => exact compact_tuple h _
  · cases m <;> cases m' <;> simp only [name, String.reduceEq] at hname <;>
      simp only [content, Option.some.injEq] at hcontent
    case verifyRequest.verifyRequest =>
      obtain ⟨rfl, rfl⟩ := by simpa using tuple_inj hjson hcontent
      rfl
    case initializeWith.initializeWith => rw [string_inj hjson hcontent]
    case signRequest.signRequest => rw [string_inj hjson hcontent]
    all_goals rfl

theorem IPCMessageRespWallet.lines : (∀ m : IPCMessageRespWallet, Compact (m.toJson C)) ∧
    Function.Injective (IPCMessageRespWallet.toJson C) := by
  have hnames : ∀ m, name m ∈ variantNames := fun m => by
    cases m <;> simp [name, variantNames, IPCMessageRespNakamoto.keywords]
  refine writeVariant_lines hnames (fun m s hs => ?_) fun m m' hname hcontent => ?_
  · cases m <;> simp only [content, Option.mem_some_iff, Option.not_mem_none] at hs <;> subst hs
    case verifyResponse isSuccess dataString =>
      exact (h dataString).field (by cases isSuccess <;> decide +kernel) (by decide +kernel)
    all_goals exact compact_tuple h _
  · cases m <;> cases m' <;> simp only [name, String.reduceEq] at hname <;>
      simp only [content, Option.some.injEq] at hcontent
    case signResponse.signResponse =>
      obtain ⟨rfl, rfl⟩ := by simpa using tuple_inj hjson hcontent
      rfl
    case userInfo.userInfo =>
      obtain ⟨rfl, rfl⟩ := by simpa using tuple_inj hjson hcontent
      rfl
    case verifyResponse.verifyResponse isSuccess dataString isSuccess' dataString' =>
      cases isSuccess <;> cases isSuccess'
      · rw [(field_inj hjson.unambiguous hcontent).1]
      · exact absurd hcontent (field_ne (n := 1) (by decide) (by decide) (by decide) _ _ _ _)
      · exact absurd hcontent (field_ne (n := 1) (by decide) (by decide) (by decide) _ _ _ _)
      · rw [(field_inj hjson.unambiguous hcontent).1]
    all_goals rfl

/-- Where strings are written as JSON asks for: of each kind of message, whatever strings are in it, a
stream is read as one line for each message, and no other messages have that stream; the client's reader
finds a word that it looks for in every line of the node, and the thread that publishes in every
signature. -/
theorem ipc_lines : ReadsLines (IPCMessageReqNakamoto.toJson C) ∧
    ReadsLines (IPCMessageRespNakamoto.toJson C) ∧ ReadsLines (IPCMessageReqWallet.toJson C) ∧
    ReadsLines (IPCMessageRespWallet.toJson C) ∧
    (∀ m : IPCMessageRespNakamoto, ∃ word ∈ IPCMessageRespNakamoto.keywords,
      contains word (m.toJson C) = true) ∧
    ∀ dataString signature, contains "SignResponse"
      ((IPCMessageRespWallet.signResponse dataString signature).toJson C) = true := by
  have hreqNakamoto := IPCMessageReqNakamoto.lines h hjson
  have hrespNakamoto := IPCMessageRespNakamoto.lines h hjson
  have hreqWallet := IPCMessageReqWallet.lines h hjson
  have hrespWallet := IPCMessageRespWallet.lines h hjson
  exact ⟨readsLines_of hreqNakamoto.1 hreqNakamoto.2, readsLines_of hrespNakamoto.1 hrespNakamoto.2,
    readsLines_of hreqWallet.1 hreqWallet.2, readsLines_of hrespWallet.1 hrespWallet.2,
    fun m => ⟨m.name, m.name_mem_keywords, contains_writeVariant _ _⟩,
    fun _ _ => contains_writeVariant "SignResponse" _⟩

end

/-- A data string with a line break in it, and a request after it. -/
theorem ipc_lines_example : (lines (stream (IPCMessageReqWallet.toJson jsonCrates)
    [.signRequest "[\"a\nb\"]", .quit])).length = 2 := by
  rw [(ipc_lines compact_serdeString writesJson_serdeString).2.2.1.1]
  rfl

end NakamotoNode.Client
