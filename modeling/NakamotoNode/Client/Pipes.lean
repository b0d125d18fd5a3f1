import NakamotoNode.Client.Site

/-! # What goes through the pipes of a client

The wallet holds the key of the file that the client was started with, and signs what it is asked to with
that key; the node is asked to publish nothing else. Both processes take `Initialize` before anything
else, so that they have what every later request needs, and `main` waits for the node until it is connected
to its neighbors (`Site.sound_of_run`). -/

namespace NakamotoNode.Client
open Foundations Foundations.RustStd Chain Node
set_option autoImplicit false

variable {A : TextAreas}

namespace Launch
variable (L : Launch A)

/-- The wallet of the file. -/
def Holds (wallet : SigningWallet) : Prop := L.host.walletFromStr L.walletFile = some wallet

/-- A signature of the text by the wallet. -/
def Signs (dataString : String) (signature : Signature) : Prop :=
  ∃ wallet rng, L.Holds wallet ∧ L.host.rsaSign rng wallet.privKeyPem dataString = some signature

/-- The user of the wallet. -/
def IsUser (userId : UserId) : Prop :=
  ∃ wallet, L.Holds wallet ∧ wallet.toWallet.getUserId = .ok userId

/-- What the client asks the wallet. -/
def AsksWallet : IPCMessageReqWallet → Prop
  | .initializeWith string => string = L.walletFile
  | .verifyRequest _ _ => False
  | _ => True

/-- What the wallet responds. -/
def Responds : IPCMessageRespWallet → Prop
  | .signResponse dataString signature => L.Signs dataString signature
  | .userInfo _ userId => L.IsUser userId
  | .verifyResponse _ _ => False
  | _ => True

/-- The first request to the node. -/
def initialRequest : IPCMessageReqNakamoto :=
  .initializeWith L.blocktreeJson L.txPoolJson L.configJson

/-- What the client asks the node. -/
def AsksNakamoto : IPCMessageReqNakamoto → Prop
  | .initializeWith blocktreeJson txPoolJson configJson =>
      .initializeWith blocktreeJson txPoolJson configJson = L.initialRequest
  | .publishTx dataString signature => L.Signs dataString signature
  | .requestBlock _ => False
  | _ => True

/-- What the publishing thread has in hand. -/
def Handles : Publisher → Prop
  | .holding resp => L.Responds resp
  | .publishing dataString signature => L.Signs dataString signature
  | _ => True

end Launch

/-! ## The texts on their way -/

/-- The text that a request to the wallet has signed. -/
def requestedData : IPCMessageReqWallet → Option String
  | .signRequest dataString => some dataString
  | _ => none

def signedData : IPCMessageRespWallet → Option String
  | .signResponse dataString _ => some dataString
  | _ => none

def publishedData : IPCMessageReqNakamoto → Option String
  | .publishTx dataString _ => some dataString
  | _ => none

/-! ## The wallet -/

section
variable {L : Launch A} {rng : ℕ} {wallet wallet' : Option SigningWallet} {req : IPCMessageReqWallet}
  {resp : IPCMessageRespWallet}

/-- The wallet does what it is asked with the key of the file. -/
theorem walletHandle_spec (h : walletHandle L.host rng wallet req = .ok (wallet', resp))
    (hreq : L.AsksWallet req) (hwallet : ∀ w, wallet = some w → L.Holds w) :
    L.Responds resp ∧ (∀ w, wallet' = some w → L.Holds w) ∧ (wallet ≠ none → wallet' ≠ none) ∧
      signedData resp = requestedData req := by
  cases req with
  | initializeWith string =>
    obtain rfl : string = L.walletFile := hreq
    obtain ⟨parsed, hparsed, h⟩ := Exec.bind_eq_ok.mp h
    obtain ⟨rfl, rfl⟩ := Prod.mk.inj (Except.ok.inj h)
    refine ⟨trivial, ?_, fun _ => by simp, rfl⟩
    rintro w ⟨⟩
    exact Exec.unwrap_eq_ok.mp hparsed
  | signRequest dataString =>
    obtain ⟨signer, hsigner, h⟩ := Exec.bind_eq_ok.mp h
    obtain ⟨-, -, h⟩ := Exec.bind_eq_ok.mp h
    obtain ⟨signature, hsignature, h⟩ := Exec.bind_eq_ok.mp h
    obtain ⟨rfl, rfl⟩ := Prod.mk.inj (Except.ok.inj h)
    exact ⟨⟨signer, _, hwallet _ (Exec.unwrap_eq_ok.mp hsigner), Exec.unwrap_eq_ok.mp hsignature⟩,
      hwallet, id, rfl⟩
  | verifyRequest => exact hreq.elim
  | getUserInfo =>
    obtain ⟨signer, hsigner, h⟩ := Exec.bind_eq_ok.mp h
    obtain ⟨userId, huserId, h⟩ := Exec.bind_eq_ok.mp h
    obtain ⟨rfl, rfl⟩ := Prod.mk.inj (Except.ok.inj h)
    exact ⟨⟨signer, hwallet _ (Exec.unwrap_eq_ok.mp hsigner), Exec.mapPanic_eq_ok.mp huserId⟩, hwallet,
      id, rfl⟩
  | quit =>
    obtain ⟨rfl, rfl⟩ := Prod.mk.inj (Except.ok.inj h)
    exact ⟨trivial, hwallet, id, rfl⟩

end

/-! ## What a process is asked first -/

/-- The process has started, or `first` is the first request to it. -/
def Starts {β : Type} (first : β) (asked started : Prop) (queue : List β) : Prop :=
  started ∨ (¬ asked ∧ queue = []) ∨ ∃ rest, queue = first :: rest

namespace Starts
variable {β : Type} {first req : β} {asked asked' started started' : Prop} {queue rest : List β}

theorem put (h : Starts first asked started queue) (hreq : asked ∨ req = first) :
    Starts first asked' started (queue ++ [req]) := by
  rcases h with hstarted | ⟨hasked, rfl⟩ | ⟨rest, rfl⟩
  · exact .inl hstarted
  · exact .inr (.inr ⟨[], by rw [hreq.resolve_left hasked]; rfl⟩)
  · exact .inr (.inr ⟨rest ++ [req], rfl⟩)

theorem mono (h : Starts first asked started queue) (hasked : asked' → asked) :
    Starts first asked' started queue :=
  h.imp id (.imp (.imp (mt hasked) id) id)

/-- It has started, or takes `first`. -/
theorem take (h : Starts first asked started (req :: rest)) : started ∨ req = first := by
  rcases h with hstarted | ⟨-, hnil⟩ | ⟨rest', hcons⟩
  · exact .inl hstarted
  · exact absurd hnil (by simp)
  · exact .inr (List.cons.inj hcons).1

end Starts

/-- A thread adds at most one request to a pipe, and not this one. -/
def Asked {β : Type} (other : β) (queue queue' : List β) : Prop :=
  queue' = queue ∨ ∃ req, req ≠ other ∧ queue' = queue ++ [req]

theorem Asked.put {β : Type} {other req : β} {queue : List β} (h : req ≠ other) :
    Asked other queue (queue ++ [req]) :=
  .inr ⟨req, h, rfl⟩

theorem Asked.mem {β : Type} {other : β} {queue queue' : List β} (h : Asked other queue queue') :
    other ∈ queue' ↔ other ∈ queue := by
  rcases h with rfl | ⟨req, hreq, rfl⟩
  · exact .rfl
  · rw [List.mem_append, List.mem_singleton]
    exact or_iff_left hreq.symm

/-! ## Every run -/

theorem forall_mem_snoc {β : Type} {P : β → Prop} {l : List β} {b : β} (h : ∀ x ∈ l, P x) (hb : P b) :
    ∀ x ∈ l ++ [b], P x := List.forall_mem_append.mpr ⟨h, List.forall_mem_singleton.mpr hb⟩

theorem forall_mem_rest {β : Type} {P : β → Prop} {l rest : List β} {b : β} (h : ∀ x ∈ l, P x)
    (hl : l = b :: rest) : P b ∧ ∀ x ∈ rest, P x := List.forall_mem_cons.mp (hl ▸ h)

namespace Site

/-- What is in the pipes, and in the hands of the threads. -/
structure Sound (L : Launch A) (s : Site A) : Prop where
  walletIn : ∀ req ∈ s.walletIn, L.AsksWallet req
  wallet : ∀ wallet, s.wallet = some wallet → L.Holds wallet
  walletOut : ∀ resp ∈ s.walletOut, L.Responds resp
  publisher : L.Handles s.publisher
  status : ∀ rest, s.status = .writing rest → ∀ req ∈ rest, ∃ userId, req ∈ Site.statusRound userId
  nakamotoIn : ∀ req ∈ s.nakamotoIn, L.AsksNakamoto req

/-- Nothing that the node has printed lets `main` go on. -/
structure Silent (L : Launch A) (s : Site A) : Prop where
  created : s.nakamoto.created = false
  nakamotoOut : ∀ resp ∈ s.nakamotoOut, contains "Initialized" (resp.toJson L.host.crates) = false

/-- How the node comes to be created: it is asked for that once, and `main` waits until it is. -/
inductive Creating (L : Launch A) (s : Site A) : Prop
  | unasked (hsilent : Silent L s) (hmain : s.main = .start) (hpc : s.nakamoto.pc = .reading)
      (hin : s.nakamotoIn = [])
  | asked (hsilent : Silent L s) (hmain : s.main = .awaitNakamoto) (hpc : s.nakamoto.pc = .reading)
      (hin : s.nakamotoIn = [L.initialRequest])
  | taken (hsilent : Silent L s) (hmain : s.main = .awaitNakamoto) (hpc : (∃ e, s.nakamoto.pc = .panicked e) ∨
      ∃ neighbor rest, s.nakamoto.pc = .connecting neighbor rest) (hin : s.nakamotoIn = [])
  | created (hcreated : s.nakamoto.created = true) (hmain : s.main ≠ .start)
      (hpc : ∀ neighbor rest, s.nakamoto.pc ≠ .connecting neighbor rest)
      (hin : L.initialRequest ∉ s.nakamotoIn)

/-- How far the start has come. -/
structure Startup (L : Launch A) (s : Site A) : Prop where
  waiting : s.main.starting = true → s.publisher = .outer ∧
    (∀ req ∈ s.walletIn, requestedData req = none) ∧ ∀ resp ∈ s.walletOut, signedData resp = none
  user : s.main.spawned = true → L.IsUser s.app.userId
  wallet : Starts (.initializeWith L.walletFile) (s.main.walletAsked = true)
    (s.wallet ≠ none ∨ ∃ e, s.walletPc = .panicked e) s.walletIn
  nakamoto : Creating L s

variable {L : Launch A} {s t : Site A} {a : SiteMove}

theorem sound_start : Sound L (start A) where
  walletIn := nofun
  wallet := nofun
  walletOut := nofun
  publisher := trivial
  status := nofun
  nakamotoIn := nofun

theorem startup_start : Startup L (start A) where
  waiting := fun _ => ⟨rfl, nofun, nofun⟩
  user := nofun
  wallet := .inr (.inl ⟨Bool.false_ne_true, rfl⟩)
  nakamoto := .unasked ⟨rfl, nofun⟩ rfl rfl rfl

theorem asks_statusRound {userId : UserId} {req : IPCMessageReqNakamoto}
    (h : req ∈ Site.statusRound userId) :
    L.AsksNakamoto req ∧ publishedData req = none ∧ req ≠ L.initialRequest := by
  simp only [Site.statusRound, List.mem_cons, List.not_mem_nil, or_false] at h
  rcases h with rfl | rfl | rfl | rfl | rfl <;> exact ⟨trivial, rfl, nofun⟩

theorem asks_key {key : Key A} {req : IPCMessageReqNakamoto} (h : keyRequests key = [req]) :
    L.AsksNakamoto req ∧ publishedData req = none ∧ req ≠ L.initialRequest := by
  cases key with
  | save =>
    obtain rfl := (List.cons.inj h).1
    exact ⟨trivial, rfl, nofun⟩
  | _ => exact absurd h (by simp [keyRequests])

theorem Step.sound (hstep : Step L s a t) (h : Sound L s) : Sound L t := by
  cases hstep with
  | initNakamoto => exact { h with nakamotoIn := forall_mem_snoc h.nakamotoIn rfl }
  | initWallet => exact { h with walletIn := forall_mem_snoc h.walletIn rfl }
  | awaitWallet _ hout => exact { h with walletOut := (forall_mem_rest h.walletOut hout).2 }
  | askUser => exact { h with walletIn := forall_mem_snoc h.walletIn trivial }
  | awaitUser _ hout =>
    have hrest := (forall_mem_rest h.walletOut hout).2
    split <;> exact { h with walletOut := hrest }
  | save _ _ hreq => exact { h with nakamotoIn := forall_mem_snoc h.nakamotoIn (asks_key hreq).1 }
  | pay => exact { h with walletIn := forall_mem_snoc h.walletIn trivial }
  | botSend => exact { h with walletIn := forall_mem_snoc h.walletIn trivial }
  | publisherOn =>
    refine { h with publisher := ?_ }
    dsimp only
    split <;> trivial
  | publisherEnds | publisherEof => exact { h with publisher := trivial }
  | publisherReads _ _ hout =>
    obtain ⟨hresp, hrest⟩ := forall_mem_rest h.walletOut hout
    refine { h with walletOut := hrest, publisher := ?_ }
    dsimp only
    split
    · exact hresp
    · trivial
  | @publisherGoes resp _ hp =>
    have hheld := h.publisher
    rw [hp] at hheld
    refine { h with publisher := ?_ }
    cases resp with
    | signResponse => exact hheld
    | _ => trivial
  | publish _ hp =>
    have hheld := h.publisher
    rw [hp] at hheld
    exact { h with publisher := trivial, nakamotoIn := forall_mem_snoc h.nakamotoIn hheld }
  | statusRound =>
    refine { h with status := fun rest hrest req hreq => ⟨s.app.userId, ?_⟩ }
    rwa [StatusPc.writing.inj hrest]
  | statusAsks _ hs =>
    obtain ⟨⟨userId, hreq⟩, hrest⟩ := forall_mem_rest (h.status _ hs) rfl
    have hasks := (asks_statusRound (L := L) hreq).1
    refine { h with nakamotoIn := forall_mem_snoc h.nakamotoIn hasks, status := fun rest hr => ?_ }
    rwa [← StatusPc.writing.inj hr]
  | statusAgain => exact { h with status := nofun }
  | statusEnds => exact { h with status := nofun }
  | quitNakamoto => exact { h with nakamotoIn := forall_mem_snoc h.nakamotoIn trivial }
  | quitWallet => exact { h with walletIn := forall_mem_snoc h.walletIn trivial }
  | wallet _ hin hhandle =>
    obtain ⟨hreq, hrest⟩ := forall_mem_rest h.walletIn hin
    obtain ⟨hresp, hwallet, -, -⟩ := walletHandle_spec hhandle hreq h.wallet
    exact { h with walletIn := hrest, wallet := hwallet, walletOut := forall_mem_snoc h.walletOut hresp }
  | walletPanics _ hin => exact { h with walletIn := (forall_mem_rest h.walletIn hin).2 }
  | nakamoto _ hin => exact { h with nakamotoIn := (forall_mem_rest h.nakamotoIn hin).2 }
  | nakamotoPanics _ hin => exact { h with nakamotoIn := (forall_mem_rest h.nakamotoIn hin).2 }
  | _ => exact { h with }

theorem onResp_frame (app : App A) (resp : IPCMessageRespNakamoto) :
    (onResp app resp).userId = app.userId ∧ (onResp app resp).shouldQuit = app.shouldQuit := by
  cases resp with
  | addressBalance userId balance =>
    unfold onResp App.setBalance
    dsimp only
    split <;> exact ⟨rfl, rfl⟩
  | _ => exact ⟨rfl, rfl⟩

theorem spawned_cases {main : MainPc} (h : main.spawned = true) :
    main.starting = false ∧ main.walletAsked = true ∧ main ≠ .start ∧ main ≠ .awaitNakamoto := by
  cases main <;> first | exact absurd h Bool.false_ne_true | exact ⟨rfl, rfl, nofun, nofun⟩

/-- A step that `main` does not wait for, and neither does the node. -/
theorem Creating.frame (h : Creating L s) (hmain : t.main = s.main) (hnakamoto : t.nakamoto = s.nakamoto)
    (hin : t.nakamotoIn = s.nakamotoIn) (hout : t.nakamotoOut = s.nakamotoOut) : Creating L t := by
  have hsilent : Silent L s → Silent L t := fun h =>
    ⟨by rw [hnakamoto]; exact h.created, by rw [hout]; exact h.nakamotoOut⟩
  have hpc : t.nakamoto.pc = s.nakamoto.pc := by rw [hnakamoto]
  cases h with
  | unasked hs hm hreading hnil =>
    exact .unasked (hsilent hs) (hmain.trans hm) (hpc.trans hreading) (hin.trans hnil)
  | asked hs hm hreading hfirst =>
    exact .asked (hsilent hs) (hmain.trans hm) (hpc.trans hreading) (hin.trans hfirst)
  | taken hs hm hbusy hnil => exact .taken (hsilent hs) (hmain.trans hm) (hpc ▸ hbusy) (hin.trans hnil)
  | created hcreated hm hconnected hfirst =>
    exact .created (by rw [hnakamoto]; exact hcreated) (hmain ▸ hm) (hpc ▸ hconnected) (hin ▸ hfirst)

/-- A step when `main` no longer waits for the node. -/
theorem Creating.running (h : Creating L s) (hs : s.main ≠ .start ∧ s.main ≠ .awaitNakamoto)
    (hmain : t.main ≠ .start) (hnakamoto : t.nakamoto = s.nakamoto)
    (hin : Asked L.initialRequest s.nakamotoIn t.nakamotoIn) : Creating L t := by
  cases h with
  | unasked _ hm => exact absurd hm hs.1
  | asked _ hm => exact absurd hm hs.2
  | taken _ hm => exact absurd hm hs.2
  | created hcreated _ hconnected hfirst =>
    exact .created (by rw [hnakamoto]; exact hcreated) hmain (by rw [hnakamoto]; exact hconnected)
      (mt hin.mem.mp hfirst)

/-- `main` goes on when the node is created. -/
theorem Creating.read (h : Creating L s) (hm : s.main = .awaitNakamoto) {resp : IPCMessageRespNakamoto}
    {rest : List IPCMessageRespNakamoto} (hout : s.nakamotoOut = resp :: rest) :
    Creating L
      { s with
        main := if contains "Initialized" (resp.toJson L.host.crates) then .initWallet
          else .awaitNakamoto
        nakamotoOut := rest } := by
  have hsilent (hs : Silent L s) : contains "Initialized" (resp.toJson L.host.crates) = false ∧
      Silent L { s with main := .awaitNakamoto, nakamotoOut := rest } := by
    obtain ⟨hresp, hrest⟩ := forall_mem_rest hs.nakamotoOut hout
    exact ⟨hresp, hs.created, hrest⟩
  cases h with
  | unasked _ hm' => exact absurd (hm.symm.trans hm') nofun
  | asked hs _ hpc hin =>
    rw [(hsilent hs).1]
    exact .asked (hsilent hs).2 rfl hpc hin
  | taken hs _ hpc hin =>
    rw [(hsilent hs).1]
    exact .taken (hsilent hs).2 rfl hpc hin
  | created hcreated _ hpc hin =>
    refine .created hcreated ?_ hpc hin
    dsimp only
    split <;> nofun

/-- Afterwards the node is connected. -/
theorem Creating.connected (h : Creating L s) (hs : s.main ≠ .start ∧ s.main ≠ .awaitNakamoto)
    (neighbor : Network.NetAddress) (rest : List Network.NetAddress) :
    s.nakamoto.pc ≠ .connecting neighbor rest := by
  cases h with
  | unasked _ hm => exact absurd hm hs.1
  | asked _ hm | taken _ hm => exact absurd hm hs.2
  | created _ _ hpc => exact hpc neighbor rest

/-- A node that is at work has been created. -/
theorem Creating.atWork (h : Creating L s) (hpc : s.nakamoto.pc.atWork = true) :
    s.nakamoto.created = true ∧ s.main ≠ .start ∧ L.initialRequest ∉ s.nakamotoIn := by
  cases h with
  | unasked _ _ hreading | asked _ _ hreading =>
    rw [hreading] at hpc
    exact absurd hpc Bool.false_ne_true
  | taken _ _ hbusy =>
    rcases hbusy with ⟨e, hbusy⟩ | ⟨neighbor, rest, hbusy⟩ <;> rw [hbusy] at hpc <;>
      exact absurd hpc Bool.false_ne_true
  | created hcreated hm _ hin => exact ⟨hcreated, hm, hin⟩

/-- `create_nakamoto` has come to one of its neighbors, or returns. -/
theorem Creating.create (hsilent : Silent L s) (hm : s.main = .awaitNakamoto)
    (neighbors : List Network.NetAddress) :
    Creating L { s with nakamotoIn := [], nakamoto := s.nakamoto.goTo (.create neighbors) } := by
  cases neighbors with
  | nil => exact .created (by simp [NakamotoPc.create]) (by simp [hm]) nofun List.not_mem_nil
  | cons neighbor rest =>
    exact .taken ⟨by simp [NakamotoPc.create, hsilent.created], hsilent.nakamotoOut⟩ hm
      (.inr ⟨neighbor, rest, rfl⟩) rfl

/-- The node takes a request. -/
theorem Creating.take (h : Creating L s) (hpc : s.nakamoto.pc = .reading) {req : IPCMessageReqNakamoto}
    {rest : List IPCMessageReqNakamoto} (hin : s.nakamotoIn = req :: rest) :
    (Silent L s ∧ s.main = .awaitNakamoto ∧ req = L.initialRequest ∧ rest = []) ∨
    s.nakamoto.created = true ∧ s.main ≠ .start ∧ req ≠ L.initialRequest ∧ L.initialRequest ∉ rest := by
  cases h with
  | unasked _ _ _ hnil => exact absurd (hin.symm.trans hnil) (List.cons_ne_nil _ _)
  | asked hsilent hm _ hfirst =>
    obtain ⟨rfl, rfl⟩ := List.cons.inj (hin.symm.trans hfirst)
    exact .inl ⟨hsilent, hm, rfl, rfl⟩
  | taken _ _ hbusy =>
    rcases hbusy with ⟨e, he⟩ | ⟨neighbor, rest, hconn⟩
    · exact absurd (hpc.symm.trans he) nofun
    · exact absurd (hpc.symm.trans hconn) nofun
  | created hcreated hm _ hfirst =>
    rw [hin, List.mem_cons, not_or] at hfirst
    exact .inr ⟨hcreated, hm, Ne.symm hfirst.1, hfirst.2⟩

theorem Creating.thread (h : Creating L s) (hs : s.main.spawned = true) (hmain : t.main ≠ .start)
    (hnakamoto : t.nakamoto = s.nakamoto) (hin : Asked L.initialRequest s.nakamotoIn t.nakamotoIn) :
    Creating L t :=
  h.running (spawned_cases hs).2.2 hmain hnakamoto hin

theorem Step.creating (hstep : Step L s a t) (hsound : Sound L s) (h : Creating L s) : Creating L t := by
  cases hstep with
  | initNakamoto hm =>
    cases h with
    | unasked hsilent _ hpc hin =>
      exact .asked ⟨hsilent.created, hsilent.nakamotoOut⟩ rfl hpc (by rw [hin]; rfl)
    | asked _ hm' | taken _ hm' => exact absurd (hm.symm.trans hm') nofun
    | created _ hm' => exact absurd hm hm'
  | awaitNakamoto hm hout => exact h.read hm hout
  | initWallet hm | askUser hm => exact h.running (by simp [hm]) nofun rfl (.inl rfl)
  | awaitWallet hm =>
    refine h.running (by simp [hm]) ?_ rfl (.inl rfl)
    dsimp only
    split <;> nofun
  | awaitUser hm => split <;> exact h.running (by simp [hm]) (by simp [hm]) rfl (.inl rfl)
  | save hs _ hreq =>
    exact h.thread hs (spawned_cases hs).2.2.1 rfl (.put (asks_key hreq).2.2)
  | publish hs => exact h.thread hs (spawned_cases hs).2.2.1 rfl (.put nofun)
  | statusAsks hs hstatus =>
    obtain ⟨⟨userId, hreq⟩, -⟩ := forall_mem_rest (hsound.status _ hstatus) rfl
    exact h.thread hs (spawned_cases hs).2.2.1 rfl (.put (asks_statusRound hreq).2.2)
  | quitNakamoto hm => exact h.thread (by rw [hm]; rfl) nofun rfl (.put nofun)
  | quitWallet hm | quitNakamotoFails hm | quitWalletFails hm | join hm | joinPanics hm =>
    exact h.thread (by rw [hm]; rfl) nofun rfl (.inl rfl)
  | readerReads hs => exact h.thread hs (spawned_cases hs).2.2.1 rfl (.inl rfl)
  | nakamoto hpc hin hhandle =>
    rcases h.take hpc hin with ⟨hsilent, hm, rfl, rfl⟩ | ⟨hcreated, hm, hreq, hrest⟩
    · obtain ⟨neighbors, rfl⟩ := answers_of_handle hhandle
      exact .create hsilent hm neighbors
    · refine .created (by simp [hcreated]) hm (fun neighbor rest hconn => ?_) hrest
      rw [NakamotoMain.goTo_pc] at hconn
      have hasks := (forall_mem_rest hsound.nakamotoIn hin).1
      rcases (answers_of_handle hhandle).cases with ⟨_, _, _, _, rfl, -⟩ | ⟨_, hpc⟩ | ⟨_, hpc⟩ | ⟨_, hpc, -⟩
      · exact hreq hasks
      · exact absurd (hconn.symm.trans hpc) nofun
      · exact absurd (hconn.symm.trans hpc) nofun
      · exact absurd (hconn.symm.trans hpc) nofun
  | nakamotoPanics hpc hin =>
    rcases h.take hpc hin with ⟨hsilent, hm, -, hnil⟩ | ⟨hcreated, hm, -, hrest⟩
    · exact .taken ⟨hsilent.created, hsilent.nakamotoOut⟩ hm (.inl ⟨_, rfl⟩) hnil
    · exact .created hcreated hm nofun hrest
  | @connect neighbor next rest hpc =>
    cases h with
    | unasked _ _ hpc' | asked _ _ hpc' => exact absurd (hpc.symm.trans hpc') nofun
    | taken hsilent hm _ hin =>
      have hcreate := Creating.create hsilent hm ((next :: rest).erase neighbor)
      rw [← hin] at hcreate
      exact hcreate
    | created _ _ hpc' => exact absurd hpc (hpc' _ _)
  | connectPanics hpc =>
    cases h with
    | unasked _ _ hpc' | asked _ _ hpc' => exact absurd (hpc.symm.trans hpc') nofun
    | taken hsilent hm _ hin => exact .taken ⟨hsilent.created, hsilent.nakamotoOut⟩ hm (.inl ⟨_, rfl⟩) hin
    | created _ _ hpc' => exact absurd hpc (hpc' _ _)
  | resume hresume =>
    obtain ⟨hcreated, hm, hin⟩ := h.atWork (atWork_of_resume hresume)
    refine .created (by simp [hcreated]) hm (fun neighbor rest => ?_) hin
    rcases resumed_of_ok hresume with rfl | ⟨_, _, rfl⟩ <;> simp
  | resumePanics hpc =>
    obtain ⟨hcreated, hm, hin⟩ := h.atWork hpc
    exact .created hcreated hm (by simp) hin
  | @print resp hpc =>
    obtain ⟨hcreated, hm, hin⟩ := h.atWork (by rw [hpc]; rfl)
    refine .created hcreated hm (fun neighbor rest => ?_) hin
    by_cases hquitting : resp = .quitting <;> simp [hquitting]
  | notify hnotify =>
    have hsilent (hs : Silent L s) : Silent L { s with nakamotoOut := s.nakamotoOut ++ [.notify _] } :=
      ⟨hs.created, forall_mem_snoc hs.nakamotoOut (hnotify.resolve_left (by simp [hs.created]))⟩
    cases h with
    | unasked hs hm hpc hin => exact .unasked (hsilent hs) hm hpc hin
    | asked hs hm hpc hin => exact .asked (hsilent hs) hm hpc hin
    | taken hs hm hpc hin => exact .taken (hsilent hs) hm hpc hin
    | created hcreated hm hpc hin => exact .created hcreated hm hpc hin
  | _ => exact h.frame rfl rfl rfl rfl

/-- A step of a thread. -/
theorem Startup.spawned (h : Startup L s) (hs : s.main.spawned = true)
    (hmain : t.main = s.main ∨ t.main.starting = false)
    (huser : t.app.userId = s.app.userId) (hwallet : t.wallet = s.wallet ∧ t.walletPc = s.walletPc)
    (hwalletIn : t.walletIn = s.walletIn ∨ ∃ req, t.walletIn = s.walletIn ++ [req])
    (hcreating : Creating L t) : Startup L t := by
  obtain ⟨hstarting, hwalletAsked, -⟩ := spawned_cases hs
  have hmain' : t.main.starting = false := hmain.elim (fun heq => heq ▸ hstarting) id
  refine ⟨fun hwaiting => absurd (hmain'.symm.trans hwaiting) Bool.false_ne_true, fun _ => ?_, ?_, hcreating⟩
  · rw [huser]
    exact h.user hs
  · rw [hwallet.1, hwallet.2]
    rcases hwalletIn with heq | ⟨req, heq⟩
    · rw [heq]
      exact h.wallet.mono fun _ => hwalletAsked
    · rw [heq]
      exact h.wallet.put (.inl hwalletAsked)

/-- The user of the app is the one that the wallet has named. -/
theorem isUser_newApp {resp : IPCMessageRespWallet} (hresp : L.Responds resp)
    (hsigned : signedData resp = none)
    (hcontains : contains "UserInfo" (resp.toJson L.host.crates) = true) :
    L.IsUser (newApp resp : App A).userId := by
  cases resp with
  | userInfo => exact hresp
  | signResponse => exact absurd hsigned (by simp [signedData])
  | verifyResponse => exact hresp.elim
  | initialized => exact absurd hcontains (show ¬ contains "UserInfo" "\"Initialized\"" = true by decide)
  | quitting => exact absurd hcontains (show ¬ contains "UserInfo" "\"Quitting\"" = true by decide)

theorem Step.startup (hstep : Step L s a t) (hsound : Sound L s) (h : Startup L s) : Startup L t := by
  have hcreating := hstep.creating hsound h.nakamoto
  cases hstep with
  | initNakamoto hm =>
    exact ⟨fun _ => h.waiting (by rw [hm]; rfl), nofun, h.wallet.mono nofun, hcreating⟩
  | awaitNakamoto hm =>
    refine ⟨fun _ => h.waiting (by rw [hm]; rfl), fun hspawned => ?_, h.wallet.mono fun hasked => ?_,
      hcreating⟩
    · dsimp only at hspawned
      split at hspawned <;> exact absurd hspawned Bool.false_ne_true
    · dsimp only at hasked
      split at hasked <;> exact absurd hasked Bool.false_ne_true
  | initWallet hm =>
    obtain ⟨hpublisher, hin, hout⟩ := h.waiting (by rw [hm]; rfl)
    exact ⟨fun _ => ⟨hpublisher, forall_mem_snoc hin rfl, hout⟩, nofun, h.wallet.put (.inr rfl),
      hcreating⟩
  | awaitWallet hm hrespOut =>
    obtain ⟨hpublisher, hin, hout⟩ := h.waiting (by rw [hm]; rfl)
    refine ⟨fun _ => ⟨hpublisher, hin, (forall_mem_rest hout hrespOut).2⟩, fun hspawned => ?_,
      h.wallet.mono fun _ => by rw [hm]; rfl, hcreating⟩
    dsimp only at hspawned
    split at hspawned <;> exact absurd hspawned Bool.false_ne_true
  | askUser hm =>
    obtain ⟨hpublisher, hin, hout⟩ := h.waiting (by rw [hm]; rfl)
    exact ⟨fun _ => ⟨hpublisher, forall_mem_snoc hin rfl, hout⟩, nofun,
      h.wallet.put (.inl (by rw [hm]; rfl)), hcreating⟩
  | awaitUser hm hrespOut =>
    obtain ⟨hpublisher, hin, hout⟩ := h.waiting (by rw [hm]; rfl)
    obtain ⟨hresp, hrest⟩ := forall_mem_rest hout hrespOut
    have hwallet : s.main.walletAsked = true := by rw [hm]; rfl
    split at hcreating
    · next hcontains =>
      rw [if_pos hcontains]
      exact ⟨nofun, fun _ => isUser_newApp (forall_mem_rest hsound.walletOut hrespOut).1 hresp hcontains,
        h.wallet.mono fun _ => hwallet, hcreating⟩
    · next hcontains =>
      rw [if_neg hcontains]
      exact ⟨fun _ => ⟨hpublisher, hin, hrest⟩, fun hspawned => h.user hspawned, h.wallet, hcreating⟩
  | draw hs _ hdraw =>
    exact h.spawned hs (.inl rfl) (App.draw_frame hdraw).2.2 ⟨rfl, rfl⟩ (.inl rfl) hcreating
  | key hs =>
    exact h.spawned hs (.inl rfl) (App.onKey_frame _).2.1 ⟨rfl, rfl⟩ (.inl rfl) hcreating
  | save hs =>
    exact h.spawned hs (.inl rfl) (App.onKey_frame _).2.1 ⟨rfl, rfl⟩ (.inl rfl) hcreating
  | pay hs =>
    exact h.spawned hs (.inl rfl) (App.onKey_frame _).2.1 ⟨rfl, rfl⟩ (.inr ⟨_, rfl⟩) hcreating
  | botSend hs => exact h.spawned hs (.inl rfl) rfl ⟨rfl, rfl⟩ (.inr ⟨_, rfl⟩) hcreating
  | publish hs => exact h.spawned hs (.inl rfl) rfl ⟨rfl, rfl⟩ (.inl rfl) hcreating
  | statusAsks hs => exact h.spawned hs (.inl rfl) rfl ⟨rfl, rfl⟩ (.inl rfl) hcreating
  | readerReads hs =>
    exact h.spawned hs (.inl rfl) (onResp_frame _ _).1 ⟨rfl, rfl⟩ (.inl rfl) hcreating
  | quitNakamotoFails hm | quitWalletFails hm | join hm | joinPanics hm =>
    exact h.spawned (by rw [hm]; rfl) (.inr rfl) rfl ⟨rfl, rfl⟩ (.inl rfl) hcreating
  | quitNakamoto hm =>
    exact h.spawned (by rw [hm]; rfl) (.inr rfl) rfl ⟨rfl, rfl⟩ (.inl rfl) hcreating
  | quitWallet hm =>
    exact h.spawned (by rw [hm]; rfl) (.inr rfl) rfl ⟨rfl, rfl⟩ (.inr ⟨_, rfl⟩) hcreating
  | noKey hs | redraw hs | endUi hs | publisherOn hs | publisherEnds hs | publisherReads hs
  | publisherEof hs | publisherGoes hs | statusRound hs | statusAgain hs | statusEnds hs | readerOn hs
  | readerEnds hs | readerPanics hs | readerEof hs =>
    exact h.spawned hs (.inl rfl) rfl ⟨rfl, rfl⟩ (.inl rfl) hcreating
  | wallet hpc hin hhandle =>
    obtain ⟨hreq, -⟩ := forall_mem_rest hsound.walletIn hin
    obtain ⟨-, -, hkept, hdata⟩ := walletHandle_spec hhandle hreq hsound.wallet
    refine ⟨fun hwaiting => ?_, h.user, .inl (.inl ?_), hcreating⟩
    · obtain ⟨hpublisher, hins, houts⟩ := h.waiting hwaiting
      obtain ⟨hnone, hrest⟩ := forall_mem_rest hins hin
      exact ⟨hpublisher, hrest, forall_mem_snoc houts (hdata.trans hnone)⟩
    · have hfirst := h.wallet
      rw [hin] at hfirst
      rcases hfirst.take with (hwallet | ⟨e, he⟩) | rfl
      · exact hkept hwallet
      · exact absurd (hpc.symm.trans he) nofun
      · obtain ⟨parsed, -, heq⟩ := Exec.bind_eq_ok.mp hhandle
        rw [← (Prod.mk.inj (Except.ok.inj heq)).1]
        exact Option.some_ne_none _
  | walletPanics _ hin =>
    refine ⟨fun hwaiting => ?_, h.user, .inl (.inr ⟨_, rfl⟩), hcreating⟩
    obtain ⟨hpublisher, hins, houts⟩ := h.waiting hwaiting
    exact ⟨hpublisher, (forall_mem_rest hins hin).2, houts⟩
  | _ => exact ⟨h.waiting, h.user, h.wallet, hcreating⟩

theorem sound_of_run {moves : List SiteMove} (hrun : Run (Step L) (start A) moves s) :
    Sound L s ∧ Startup L s :=
  hrun.invariant (I := fun s => Sound L s ∧ Startup L s)
    (fun _ _ _ h hstep => ⟨hstep.sound h.1, hstep.startup h.1 h.2⟩) ⟨sound_start, startup_start⟩

end Site
end NakamotoNode.Client
