import NakamotoNode.Client.App
import NakamotoNode.Client.Processes
import NakamotoNode.Foundations.Channels

/-! # A client and its two processes

The threads of `bin_client/src/main.rs`, the process of the wallet, the main thread of the node, and the
pipes between them. The client's threads write a line under the lock of the pipe, so that a line is in the
pipe as a whole; a line to a process that has ended stays there, except that `main` unwraps the result of
its last two. What the other threads of the node do shows in a step in the node's state at that moment, in
the locks that they have poisoned, and in the notifications that they print. -/

namespace NakamotoNode.Client
open Foundations Foundations.RustStd Chain Node
set_option autoImplicit false

/-- Where `main` of `bin_client` is; the threads run from `joining` to `waiting`. -/
inductive MainPc where
  | start
  | awaitNakamoto
  | initWallet
  | awaitWallet
  | askUser
  | awaitUser
  /-- `handle_ui.join()` -/
  | joining
  | quitWallet
  /-- for the processes and the threads -/
  | waiting
  | finished
  /-- at `write_all(..).unwrap()`, or at `join().unwrap()` -/
  | panicked
  deriving DecidableEq, Repr

/-- The threads are not there yet. -/
def MainPc.starting : MainPc → Bool
  | start | awaitNakamoto | initWallet | awaitWallet | askUser | awaitUser => true
  | _ => false

def MainPc.spawned : MainPc → Bool
  | joining | quitWallet | waiting => true
  | _ => false

/-- The wallet has been asked something. -/
def MainPc.walletAsked : MainPc → Bool
  | start | awaitNakamoto | initWallet => false
  | _ => true

/-- The UI thread. -/
inductive UiPc where
  | drawing
  | polling
  /-- before the check of `should_quit` -/
  | handled
  | ended
  deriving DecidableEq, Repr

/-- The thread that reads signatures from the wallet and publishes. -/
inductive Publisher where
  | outer
  | inner
  | reading
  | holding (resp : IPCMessageRespWallet)
  | publishing (dataString : String) (signature : Signature)
  | ended
  deriving DecidableEq, Repr

/-- `if let IPCMessageRespWallet::SignResponse(data, signature) = wallet_sign_response` -/
def Publisher.ofResp : IPCMessageRespWallet → Publisher
  | .signResponse dataString signature => publishing dataString signature
  | _ => outer

/-- The thread that reads what the node prints. -/
inductive Reader where
  | outer
  | inner
  | reading
  | ended
  /-- `serde_json::from_str("").unwrap()` -/
  | panicked
  deriving DecidableEq, Repr

/-- The thread that asks for the status; the requests of the round that are left. -/
inductive StatusPc where
  | outer
  | writing (rest : List IPCMessageReqNakamoto)
  | ended
  deriving DecidableEq, Repr

inductive WalletPc where
  | reading
  | exited
  | panicked (e : WalletMainPanic)
  deriving DecidableEq, Repr

/-- The process has ended. -/
def WalletPc.over : WalletPc → Bool
  | reading => false
  | _ => true

/-- What the client is started with. -/
structure Launch (A : TextAreas) where
  host : Host
  blocktreeJson : String
  txPoolJson : String
  configJson : String
  walletFile : String

structure Site (A : TextAreas) where
  main : MainPc
  /-- the app; it exists when the threads are spawned -/
  app : App A
  ui : UiPc
  publisher : Publisher
  reader : Reader
  status : StatusPc
  /-- standard input and output of `bin_wallet` -/
  walletIn : List IPCMessageReqWallet
  walletOut : List IPCMessageRespWallet
  wallet : Option SigningWallet
  walletPc : WalletPc
  /-- standard input and output of `bin_nakamoto` -/
  nakamotoIn : List IPCMessageReqNakamoto
  nakamotoOut : List IPCMessageRespNakamoto
  nakamoto : NakamotoMain

inductive SiteMove where
  /-- the client writes to the node, or to the wallet -/
  | askNakamoto (req : IPCMessageReqNakamoto)
  | askWallet (req : IPCMessageReqWallet)
  /-- of the UI thread: a payment to be signed -/
  | pay (sender receiver : UserId) (message : String) (millis : ℕ)
  /-- of the thread that executes bot commands -/
  | botSend (sender receiver : UserId) (message : String) (millis : ℕ)
  /-- the client reads what the node, or the wallet, has printed -/
  | readNakamoto (resp : IPCMessageRespNakamoto)
  | readWallet (resp : IPCMessageRespWallet)
  /-- of the publishing thread -/
  | publish (dataString : String) (signature : Signature)
  | wallet (req : IPCMessageReqWallet) (resp : IPCMessageRespWallet)
  | walletPanics (req : IPCMessageReqWallet)
  /-- of the main thread of the node, the chain and the pool being as given -/
  | nakamoto (req : IPCMessageReqNakamoto) (shared : Shared)
  | resume (shared : Shared)
  | print (resp : IPCMessageRespNakamoto)
  | nakamotoPanics (req : IPCMessageReqNakamoto) (shared : Shared)
  | resumePanics (shared : Shared)
  /-- a neighbor accepts the connection, or the thread that connects to it has panicked -/
  | connect (neighbor : Network.NetAddress)
  | connectPanics (shared : Shared)
  /-- of another thread of the node -/
  | notify (message : String)
  /-- within the client -/
  | inside

namespace Site
variable {A : TextAreas}

/-- The client when it has spawned its two processes. -/
def start (A : TextAreas) : Site A where
  main := .start
  app := App.new "" "" "" ""
  ui := .drawing
  publisher := .outer
  reader := .outer
  status := .outer
  walletIn := []
  walletOut := []
  wallet := none
  walletPc := .reading
  nakamotoIn := []
  nakamotoOut := []
  nakamoto := { created := false, pc := .reading }

/-- The requests of one round of the status thread. -/
def statusRound (userId : UserId) : List IPCMessageReqNakamoto :=
  [.getAddressBalance userId, .requestNetStatus, .requestChainStatus, .requestMinerStatus,
    .requestTxPoolStatus]

/-- The app of the user that the wallet has named. -/
def newApp : IPCMessageRespWallet → App A
  | .userInfo userName userId => App.new userName userId "" ("SEND $100   // By " ++ userName)
  | _ => App.new "" "" "" "SEND $100   // By "

/-- What the reader does with a line of the node. -/
def onResp (app : App A) : IPCMessageRespNakamoto → App A
  | .addressBalance userId balance => app.setBalance userId balance
  | .notify message => { app with notifyLog := app.notifyLog ++ [message] }
  | _ => app

/-- The requests of a key, besides a payment. -/
def keyRequests : Key A → List IPCMessageReqNakamoto
  | .save => [.requestStateSerialization]
  | _ => []

inductive Step (L : Launch A) : Site A → SiteMove → Site A → Prop
  -- the start of `main`
  | initNakamoto {s : Site A} (h : s.main = .start) :
      Step L s (.askNakamoto (.initializeWith L.blocktreeJson L.txPoolJson L.configJson))
        { s with
          main := .awaitNakamoto
          nakamotoIn := s.nakamotoIn ++
            [.initializeWith L.blocktreeJson L.txPoolJson L.configJson] }
  | awaitNakamoto {s : Site A} {resp : IPCMessageRespNakamoto} {rest : List IPCMessageRespNakamoto}
      (h : s.main = .awaitNakamoto) (hout : s.nakamotoOut = resp :: rest) :
      Step L s (.readNakamoto resp)
        { s with
          main := if contains "Initialized" (resp.toJson L.host.crates) then .initWallet
            else .awaitNakamoto
          nakamotoOut := rest }
  | initWallet {s : Site A} (h : s.main = .initWallet) :
      Step L s (.askWallet (.initializeWith L.walletFile))
        { s with
          main := .awaitWallet
          walletIn := s.walletIn ++ [.initializeWith L.walletFile] }
  | awaitWallet {s : Site A} {resp : IPCMessageRespWallet} {rest : List IPCMessageRespWallet}
      (h : s.main = .awaitWallet) (hout : s.walletOut = resp :: rest) :
      Step L s (.readWallet resp)
        { s with
          main := if contains "Initialized" (resp.toJson L.host.crates) then .askUser else .awaitWallet
          walletOut := rest }
  | askUser {s : Site A} (h : s.main = .askUser) :
      Step L s (.askWallet .getUserInfo)
        { s with main := .awaitUser, walletIn := s.walletIn ++ [.getUserInfo] }
  | awaitUser {s : Site A} {resp : IPCMessageRespWallet} {rest : List IPCMessageRespWallet}
      (h : s.main = .awaitUser) (hout : s.walletOut = resp :: rest) :
      Step L s (.readWallet resp)
        (if contains "UserInfo" (resp.toJson L.host.crates) then
          { s with main := .joining, app := newApp resp, walletOut := rest }
        else { s with walletOut := rest })
  -- the UI thread
  | draw {s : Site A} {app : App A} (h : s.main.spawned = true) (hui : s.ui = .drawing)
      (hdraw : s.app.draw = .ok app) :
      Step L s .inside { s with ui := .polling, app := app }
  | noKey {s : Site A} (h : s.main.spawned = true) (hui : s.ui = .polling) :
      Step L s .inside { s with ui := .handled }
  | key {s : Site A} {key : Key A} (h : s.main.spawned = true) (hui : s.ui = .polling)
      (hpayment : s.app.payment key = none) (hreq : keyRequests key = []) :
      Step L s .inside { s with ui := .handled, app := s.app.onKey key }
  | save {s : Site A} {key : Key A} {req : IPCMessageReqNakamoto} (h : s.main.spawned = true)
      (hui : s.ui = .polling) (hreq : keyRequests key = [req]) :
      Step L s (.askNakamoto req)
        { s with ui := .handled, app := s.app.onKey key, nakamotoIn := s.nakamotoIn ++ [req] }
  | pay {s : Site A} {key : Key A} {sender receiver : UserId} {message : String} {millis : ℕ}
      (h : s.main.spawned = true) (hui : s.ui = .polling)
      (hpayment : s.app.payment key = some (sender, receiver, message)) :
      Step L s (.pay sender receiver message millis)
        { s with
          ui := .handled
          app := s.app.onKey key
          walletIn := s.walletIn ++
            [.signRequest (createSignReq L.host.crates sender receiver message millis)] }
  | redraw {s : Site A} (h : s.main.spawned = true) (hui : s.ui = .handled)
      (hquit : s.app.shouldQuit = false) : Step L s .inside { s with ui := .drawing }
  | endUi {s : Site A} (h : s.main.spawned = true) (hui : s.ui = .handled)
      (hquit : s.app.shouldQuit = true) : Step L s .inside { s with ui := .ended }
  -- the bot thread
  | botSend {s : Site A} {receiver : UserId} {message : String} {millis : ℕ}
      (h : s.main.spawned = true) :
      Step L s (.botSend s.app.userId receiver message millis)
        { s with
          walletIn := s.walletIn ++
            [.signRequest (createSignReq L.host.crates s.app.userId receiver message millis)] }
  -- the publishing thread
  | publisherOn {s : Site A} (h : s.main.spawned = true)
      (hp : s.publisher = .outer ∨ s.publisher = .inner) (hquit : s.app.shouldQuit = false) :
      Step L s .inside
        { s with publisher := if s.publisher = .outer then .inner else .reading }
  | publisherEnds {s : Site A} (h : s.main.spawned = true)
      (hp : s.publisher = .outer ∨ s.publisher = .inner ∨ ∃ resp, s.publisher = .holding resp)
      (hquit : s.app.shouldQuit = true) : Step L s .inside { s with publisher := .ended }
  | publisherReads {s : Site A} {resp : IPCMessageRespWallet} {rest : List IPCMessageRespWallet}
      (h : s.main.spawned = true) (hp : s.publisher = .reading) (hout : s.walletOut = resp :: rest) :
      Step L s (.readWallet resp)
        { s with
          publisher := if contains "SignResponse" (resp.toJson L.host.crates) then .holding resp
            else .inner
          walletOut := rest }
  -- the end of the file
  | publisherEof {s : Site A} (h : s.main.spawned = true) (hp : s.publisher = .reading)
      (hout : s.walletOut = []) (hpc : s.walletPc.over = true) :
      Step L s .inside { s with publisher := .inner }
  | publisherGoes {s : Site A} {resp : IPCMessageRespWallet} (h : s.main.spawned = true)
      (hp : s.publisher = .holding resp) (hquit : s.app.shouldQuit = false) :
      Step L s .inside
        { s with publisher := Publisher.ofResp resp }
  | publish {s : Site A} {dataString : String} {signature : Signature} (h : s.main.spawned = true)
      (hp : s.publisher = .publishing dataString signature) :
      Step L s (.publish dataString signature)
        { s with
          publisher := .outer
          nakamotoIn := s.nakamotoIn ++ [.publishTx dataString signature] }
  -- the status thread
  | statusRound {s : Site A} (h : s.main.spawned = true) (hs : s.status = .outer)
      (hquit : s.app.shouldQuit = false) :
      Step L s .inside { s with status := .writing (Site.statusRound s.app.userId) }
  | statusAsks {s : Site A} {req : IPCMessageReqNakamoto} {rest : List IPCMessageReqNakamoto}
      (h : s.main.spawned = true) (hs : s.status = .writing (req :: rest)) :
      Step L s (.askNakamoto req)
        { s with status := .writing rest, nakamotoIn := s.nakamotoIn ++ [req] }
  | statusAgain {s : Site A} (h : s.main.spawned = true) (hs : s.status = .writing []) :
      Step L s .inside { s with status := .outer }
  | statusEnds {s : Site A} (h : s.main.spawned = true) (hs : s.status = .outer)
      (hquit : s.app.shouldQuit = true) : Step L s .inside { s with status := .ended }
  -- the reading thread
  | readerOn {s : Site A} (h : s.main.spawned = true) (hr : s.reader = .outer ∨ s.reader = .inner)
      (hquit : s.app.shouldQuit = false) :
      Step L s .inside { s with reader := if s.reader = .outer then .inner else .reading }
  | readerEnds {s : Site A} (h : s.main.spawned = true) (hr : s.reader = .outer)
      (hquit : s.app.shouldQuit = true) : Step L s .inside { s with reader := .ended }
  | readerPanics {s : Site A} (h : s.main.spawned = true) (hr : s.reader = .inner)
      (hquit : s.app.shouldQuit = true) : Step L s .inside { s with reader := .panicked }
  | readerReads {s : Site A} {resp : IPCMessageRespNakamoto} {rest : List IPCMessageRespNakamoto}
      (h : s.main.spawned = true) (hr : s.reader = .reading) (hout : s.nakamotoOut = resp :: rest) :
      Step L s (.readNakamoto resp)
        { s with reader := .outer, app := onResp s.app resp, nakamotoOut := rest }
  | readerEof {s : Site A} (h : s.main.spawned = true) (hr : s.reader = .reading)
      (hout : s.nakamotoOut = []) (hpc : s.nakamoto.pc.over = true) :
      Step L s .inside { s with reader := .inner }
  -- the end of `main`
  | quitNakamoto {s : Site A} (h : s.main = .joining) (hui : s.ui = .ended)
      (hpc : s.nakamoto.pc.over = false) :
      Step L s (.askNakamoto .quit)
        { s with main := .quitWallet, nakamotoIn := s.nakamotoIn ++ [.quit] }
  | quitNakamotoFails {s : Site A} (h : s.main = .joining) (hui : s.ui = .ended)
      (hpc : s.nakamoto.pc.over = true) : Step L s .inside { s with main := .panicked }
  | quitWallet {s : Site A} (h : s.main = .quitWallet) (hpc : s.walletPc.over = false) :
      Step L s (.askWallet .quit) { s with main := .waiting, walletIn := s.walletIn ++ [.quit] }
  | quitWalletFails {s : Site A} (h : s.main = .quitWallet) (hpc : s.walletPc.over = true) :
      Step L s .inside { s with main := .panicked }
  | join {s : Site A} (h : s.main = .waiting) (hnakamoto : s.nakamoto.pc.over = true)
      (hwallet : s.walletPc.over = true) (hp : s.publisher = .ended) (hs : s.status = .ended)
      (hr : s.reader = .ended) : Step L s .inside { s with main := .finished }
  | joinPanics {s : Site A} (h : s.main = .waiting) (hnakamoto : s.nakamoto.pc.over = true)
      (hwallet : s.walletPc.over = true) (hp : s.publisher = .ended) (hs : s.status = .ended)
      (hr : s.reader = .panicked) : Step L s .inside { s with main := .panicked }
  -- the wallet
  | wallet {s : Site A} {rng : ℕ} {req : IPCMessageReqWallet} {rest : List IPCMessageReqWallet}
      {wallet : Option SigningWallet} {resp : IPCMessageRespWallet} (hpc : s.walletPc = .reading)
      (hin : s.walletIn = req :: rest)
      (h : walletHandle L.host rng s.wallet req = .ok (wallet, resp)) :
      Step L s (.wallet req resp)
        { s with
          walletIn := rest
          wallet := wallet
          walletPc := if resp = .quitting then .exited else .reading
          walletOut := s.walletOut ++ [resp] }
  | walletPanics {s : Site A} {rng : ℕ} {req : IPCMessageReqWallet}
      {rest : List IPCMessageReqWallet} {e : WalletMainPanic} (hpc : s.walletPc = .reading)
      (hin : s.walletIn = req :: rest) (h : walletHandle L.host rng s.wallet req = Exec.panic e) :
      Step L s (.walletPanics req) { s with walletIn := rest, walletPc := .panicked e }
  -- the node
  | nakamoto {s : Site A} {poison : Poison} {map : List (String × String)} {shared : Shared}
      {req : IPCMessageReqNakamoto} {rest : List IPCMessageReqNakamoto} {pc : NakamotoPc}
      (hpc : s.nakamoto.pc = .reading) (hin : s.nakamotoIn = req :: rest)
      (h : nakamotoHandle L.host poison map shared s.nakamoto.created req = .ok pc) :
      Step L s (.nakamoto req shared)
        { s with nakamotoIn := rest, nakamoto := s.nakamoto.goTo pc }
  | nakamotoPanics {s : Site A} {poison : Poison} {map : List (String × String)} {shared : Shared}
      {req : IPCMessageReqNakamoto} {rest : List IPCMessageReqNakamoto} {e : NakamotoMainPanic}
      (hpc : s.nakamoto.pc = .reading) (hin : s.nakamotoIn = req :: rest)
      (h : nakamotoHandle L.host poison map shared s.nakamoto.created req = Exec.panic e) :
      Step L s (.nakamotoPanics req shared)
        { s with nakamotoIn := rest, nakamoto := { s.nakamoto with pc := .panicked e } }
  | connect {s : Site A} {neighbor next : Network.NetAddress} {rest : List Network.NetAddress}
      (hpc : s.nakamoto.pc = .connecting next rest) (hneighbor : neighbor ∈ next :: rest) :
      Step L s (.connect neighbor)
        { s with nakamoto := s.nakamoto.goTo (.create ((next :: rest).erase neighbor)) }
  | connectPanics {s : Site A} {poison : Poison} {shared : Shared} {e : NakamotoMainPanic}
      {next : Network.NetAddress} {rest : List Network.NetAddress}
      (hpc : s.nakamoto.pc = .connecting next rest)
      (h : nakamotoResume L.host poison shared s.nakamoto.pc = some (Exec.panic e)) :
      Step L s (.connectPanics shared) { s with nakamoto := { s.nakamoto with pc := .panicked e } }
  | resume {s : Site A} {poison : Poison} {shared : Shared} {pc : NakamotoPc}
      (h : nakamotoResume L.host poison shared s.nakamoto.pc = some (.ok pc)) :
      Step L s (.resume shared) { s with nakamoto := s.nakamoto.goTo pc }
  | resumePanics {s : Site A} {poison : Poison} {shared : Shared} {e : NakamotoMainPanic}
      (hpc : s.nakamoto.pc.atWork = true)
      (h : nakamotoResume L.host poison shared s.nakamoto.pc = some (Exec.panic e)) :
      Step L s (.resumePanics shared) { s with nakamoto := { s.nakamoto with pc := .panicked e } }
  | print {s : Site A} {resp : IPCMessageRespNakamoto} (hpc : s.nakamoto.pc = .printing resp) :
      Step L s (.print resp)
        { s with
          nakamoto :=
            { s.nakamoto with pc := if resp = .quitting then .exited else .reading }
          nakamotoOut := s.nakamotoOut ++ [resp] }
  -- until it has been created, the node prints fixed texts and the addresses of its neighbors
  | notify {s : Site A} {message : String}
      (h : s.nakamoto.created = true ∨
        contains "Initialized" ((IPCMessageRespNakamoto.notify message).toJson L.host.crates) = false) :
      Step L s (.notify message)
        { s with nakamotoOut := s.nakamotoOut ++ [.notify message] }

end Site
end NakamotoNode.Client
