import NakamotoNode.Client.Payments
import NakamotoNode.Network.Provenance

/-! # A network with its clients

Each node has a client with a wallet (`Site`), and the main thread of the node is the same in both: what it
reads is the chain and the pool of the node, and what it publishes goes into that pool and from there to
the network. So every transaction anywhere, in a pool or in a block, is a payment that somebody made at a
client, signed by the wallet there (`transactions_requested`). -/

namespace NakamotoNode.Network
open Foundations Foundations.RustStd Chain Node Client
set_option autoImplicit false

/-- The state of the node that the main thread reads. -/
def readShared : SiteMove → Option Shared
  | .nakamoto _ shared | .nakamotoPanics _ shared | .connectPanics shared | .resume shared
  | .resumePanics shared => some shared
  | _ => none

/-- The main thread of the node publishes a transaction. -/
def publishes : SiteMove → Bool
  | .nakamoto (.publishTx _ _) _ => true
  | _ => false

structure Clients (A : TextAreas) (ν : Type) where
  peers : Peers ν
  sites : ν → Site A

inductive ClientsMove (ν : Type) where
  | peers (a : PeersMove ν)
  | site (v : ν) (a : SiteMove)
  /-- of the node and of its main thread -/
  | publish (v : ν) (dataString : String) (signature : Signature) (tx : Transaction) (shared : Shared)

namespace ClientsMove
variable {ν : Type}

def toPeers : ClientsMove ν → Option (PeersMove ν)
  | peers a => some a
  | site _ _ => none
  | publish v _ _ tx _ => some (.inside v (.publish tx))

/-- The site that the move is at, and what it does there. -/
def place : ClientsMove ν → Option (ν × SiteMove)
  | peers _ => none
  | site v a => some (v, a)
  | publish v dataString signature _ shared =>
      some (v, .nakamoto (.publishTx dataString signature) shared)

end ClientsMove

namespace Clients
variable {A : TextAreas} {ν : Type} [DecidableEq ν]

/-- The state of the node at `v`. -/
def shared (s : Clients A ν) (v : ν) : Shared := (s.peers.nodes v).nakamoto.shared

inductive Step (L : ν → Launch A) (N : ν → Setting) (printable : Char → Bool) :
    Clients A ν → ClientsMove ν → Clients A ν → Prop
  | peers {s : Clients A ν} {a : PeersMove ν} {peers : Peers ν}
      (h : Peers.Step N printable s.peers a peers) (ha : ∀ v tx, a ≠ .inside v (.publish tx)) :
      Step L N printable s (.peers a) { s with peers := peers }
  | site {s : Clients A ν} {v : ν} {a : SiteMove} {site : Site A}
      (h : Site.Step (L v) (s.sites v) a site) (hread : ∀ shared ∈ readShared a, shared = s.shared v)
      (ha : publishes a = false) :
      Step L N printable s (.site v a) { s with sites := Function.update s.sites v site }
  | publish {s : Clients A ν} {v : ν} {dataString : String} {signature : Signature} {tx : Transaction}
      {site : Site A} {peers : Peers ν}
      (h : Site.Step (L v) (s.sites v) (.nakamoto (.publishTx dataString signature) (s.shared v)) site)
      (htx : publishTx (L v).host.fromStr dataString signature = .ok tx)
      (hpeers : Peers.Step N printable s.peers (.inside v (.publish tx)) peers) :
      Step L N printable s (.publish v dataString signature tx (s.shared v))
        { peers := peers, sites := Function.update s.sites v site }

/-- What the move does at the site `v`. -/
def atSite (v : ν) (a : ClientsMove ν) : Option SiteMove :=
  a.place.bind fun e => if e.1 = v then some e.2 else none

/-- What happens at the site `v`. -/
def siteHistory (v : ν) (moves : List (ClientsMove ν)) : List SiteMove := moves.filterMap (atSite v)

structure Started (neighbors : ν → List ν) (s : Clients A ν) : Prop where
  peers : Peers.Started neighbors s.peers
  sites : ∀ v, s.sites v = Site.start A

variable {L : ν → Launch A} {N : ν → Setting} {printable : Char → Bool} {neighbors : ν → List ν}
  {s₀ s t : Clients A ν} {a : ClientsMove ν} {moves : List (ClientsMove ν)} {v : ν}

theorem Step.toPeers (h : Step L N printable s a t) :
    Run (Peers.Step N printable) s.peers a.toPeers.toList t.peers := by
  cases h with
  | peers h => exact Run.single h
  | site => exact .nil _
  | publish _ _ hpeers => exact Run.single hpeers

theorem Step.atSite (h : Step L N printable s a t) (v : ν) :
    Run (Site.Step (L v)) (s.sites v) (atSite v a).toList (t.sites v) := by
  cases h with
  | peers => exact .nil _
  | site h => exact Run.update (S := fun v => Site.Step (L v)) h v
  | publish h => exact Run.update (S := fun v => Site.Step (L v)) h v

theorem run_peers (hrun : Run (Step L N printable) s₀ moves s) :
    Run (Peers.Step N printable) s₀.peers (moves.filterMap ClientsMove.toPeers) s.peers := by
  obtain ⟨p, hp, rfl⟩ := hrun.simulate (R := fun s p => s.peers = p) ClientsMove.toPeers
    (fun _ _ _ _ hR h => ⟨_, hR ▸ h.toPeers, rfl⟩) rfl
  exact hp

theorem run_site (h₀ : Started neighbors s₀) (hrun : Run (Step L N printable) s₀ moves s) (v : ν) :
    Run (Site.Step (L v)) (Site.start A) (siteHistory v moves) (s.sites v) := by
  obtain ⟨p, hp, rfl⟩ := hrun.simulate (R := fun s p => s.sites v = p) (atSite v)
    (fun _ _ _ _ hR h => ⟨_, hR ▸ h.atSite v, rfl⟩) rfl
  rwa [h₀.sites v] at hp

theorem mem_siteHistory {b : SiteMove} :
    b ∈ siteHistory v moves ↔ ∃ a ∈ moves, a.place = some (v, b) := by
  rw [siteHistory, List.mem_filterMap]
  refine exists_congr fun a => and_congr_right fun _ => ?_
  rw [atSite]
  cases a.place with
  | none => simp
  | some e =>
    obtain ⟨u, c⟩ := e
    by_cases hu : u = v <;> simp [hu]

/-- What is published at a node, its main thread has taken out of the pipe. -/
theorem taken_of_published (hrun : Run (Step L N printable) s₀ moves s) {tx : Transaction}
    (h : .inside v (.publish tx) ∈ moves.filterMap ClientsMove.toPeers) :
    ∃ dataString signature shared, publishTx (L v).host.fromStr dataString signature = .ok tx ∧
      .nakamoto (.publishTx dataString signature) shared ∈ siteHistory v moves := by
  obtain ⟨a, ha, htoPeers⟩ := List.mem_filterMap.mp h
  obtain ⟨before, u, w, -, -, hstep⟩ := hrun.step_of_mem ha
  cases hstep with
  | peers _ hpeers => exact absurd (Option.some.inj htoPeers) (hpeers v tx)
  | site => exact absurd htoPeers nofun
  | publish _ htx =>
    obtain ⟨rfl, hl⟩ := PeersMove.inside.inj (Option.some.inj htoPeers)
    obtain rfl := PeerMove.publish.inj hl
    exact ⟨_, _, _, htx, mem_siteHistory.mpr ⟨_, ha, rfl⟩⟩

/-- The balance of the user in the finalized ledger of the node, at a moment of the run. -/
def Held (L : ν → Launch A) (N : ν → Setting) (printable : Char → Bool) (s₀ : Clients A ν)
    (moves : List (ClientsMove ν)) (v : ν) (userId : UserId) (balance : ℤ) : Prop :=
  ∃ before u, before <+: moves ∧ Run (Step L N printable) s₀ before u ∧
    balance = (u.shared v).chain.finalizedBalanceMap.balance userId

theorem held_of_reported (hrun : Run (Step L N printable) s₀ moves s) {userId : UserId} {balance : ℤ}
    (h : Reported (siteHistory v moves) userId balance) :
    Held L N printable s₀ moves v userId balance := by
  obtain ⟨shared, hmem, rfl⟩ := h
  obtain ⟨a, ha, hplace⟩ := mem_siteHistory.mp hmem
  obtain ⟨before, u, w, hbefore, hu, hstep⟩ := hrun.step_of_mem ha
  refine ⟨before, u, (List.prefix_append _ _).trans hbefore, hu, ?_⟩
  cases hstep with
  | peers => exact absurd hplace nofun
  | site _ hread =>
    obtain ⟨rfl, rfl⟩ := Prod.mk.inj (Option.some.inj hplace)
    rw [hread shared rfl]
  | publish =>
    obtain ⟨-, heq⟩ := Prod.mk.inj (Option.some.inj hplace)
    exact absurd heq nofun

end Clients

/-! ## What every transaction was -/

/-- The node has the transaction in its pool, or in a block that it stores. -/
def Peers.Has {ν : Type} (s : Peers ν) (v : ν) (tx : Transaction) : Prop :=
  (∃ id, (s.nodes v).nakamoto.shared.txPool.poolTxMap.lookup id = some tx) ∨
    ∃ block, (s.nodes v).nakamoto.shared.chain.Stored block ∧ block ≠ BlockNode.genesisBlock ∧
      tx ∈ block.txs

theorem Peers.publishedTo_of_has {ν : Type} [DecidableEq ν] {N : ν → Setting} {printable : Char → Bool}
    {neighbors : ν → List ν} {s₀ s : Peers ν} {moves : List (PeersMove ν)}
    (h₀ : Peers.Started neighbors s₀) (hrun : Run (Peers.Step N printable) s₀ moves s) {v : ν}
    {tx : Transaction} (h : s.Has v tx) : Peers.PublishedTo neighbors moves v tx := by
  have haccounted := accounted_of_run (Peers.run_history h₀ hrun v)
  rcases h with ⟨id, hlookup⟩ | ⟨block, hblock, hne, htx⟩
  · exact Peers.publishedTo_of_added h₀ hrun v tx (haccounted.fromPool.pool id tx hlookup)
  · rcases Chain.stored_delivered haccounted.chain hblock with rfl | ⟨⟨call, hcall, rfl⟩, -⟩
    · exact absurd rfl hne
    · obtain ⟨u, order, -, hreach, hauthored⟩ := Peers.minedFor_of_call h₀ hrun hcall
      obtain ⟨w, hw, hreach'⟩ := hauthored.supplied tx htx
      exact ⟨w, hw, hreach'.trans hreach⟩

/-- A payment that was made at the client, by its user or by a bot, and that the wallet there has signed.
The bot's is of the user of the wallet, and the user's was valid against a balance of that user with `P`. -/
def Requested {A : TextAreas} (L : Launch A) (moves : List SiteMove) (P : UserId → ℤ → Prop)
    (tx : Transaction) : Prop :=
  ∃ message millis, tx.message = timestamped message millis ∧
    L.Signs (createSignReq L.host.crates tx.sender tx.receiver message millis) tx.sig ∧
    ((.botSend tx.sender tx.receiver message millis ∈ moves ∧ L.IsUser tx.sender) ∨
      (.pay tx.sender tx.receiver message millis ∈ moves ∧ ∃ userId balance, L.IsUser userId ∧
        P userId balance ∧ App.Valid tx.sender tx.receiver message balance))

/-- `serde_json` reads back the payments that it has written. -/
def ReadsBack {A : TextAreas} (L : Launch A) (moves : List SiteMove) : Prop :=
  ∀ sender receiver message millis,
    .botSend sender receiver message millis ∈ moves ∨ .pay sender receiver message millis ∈ moves →
    L.host.fromStr (createSignReq L.host.crates sender receiver message millis) =
      some [sender, receiver, timestamped message millis]

theorem requested_of_taken {A : TextAreas} {L : Launch A} {s : Site A} {moves : List SiteMove}
    (hrun : Run (Site.Step L) (Site.start A) moves s) (hreads : ReadsBack L moves)
    {dataString : String} {signature : Signature} {shared : Shared} {tx : Transaction}
    (hmem : .nakamoto (.publishTx dataString signature) shared ∈ moves)
    (htx : publishTx L.host.fromStr dataString signature = .ok tx) :
    Requested L moves (Reported moves) tx := by
  have hsigns : L.Signs dataString signature := Site.asks_of_taken hrun hmem rfl
  obtain ⟨lost, lost', heq, -, -⟩ := Site.conveys_of_run hrun
  have hpublished : dataString ∈ moves.filterMap SiteMove.published :=
    List.mem_filterMap.mpr ⟨_, hmem, rfl⟩
  have hsubmitted : dataString ∈ moves.filterMap (SiteMove.submitted L.host.crates) :=
    heq ▸ List.mem_append_left _ hpublished
  obtain ⟨a, ha, hdata⟩ := List.mem_filterMap.mp hsubmitted
  cases a <;> simp only [SiteMove.submitted, reduceCtorEq, Option.some.injEq] at hdata
  case pay sender receiver message millis =>
    subst hdata
    obtain rfl := Except.ok.inj (htx.symm.trans (publishTx_of_read (hreads _ _ _ _ (.inr ha)) signature))
    exact ⟨message, millis, rfl, hsigns, .inr ⟨ha, Site.covered_of_pay hrun ha⟩⟩
  case botSend sender receiver message millis =>
    subst hdata
    obtain rfl := Except.ok.inj (htx.symm.trans (publishTx_of_read (hreads _ _ _ _ (.inl ha)) signature))
    exact ⟨message, millis, rfl, hsigns, .inl ⟨ha, Site.user_of_botSend hrun ha⟩⟩

theorem Requested.mono {A : TextAreas} {L : Launch A} {moves : List SiteMove} {P Q : UserId → ℤ → Prop}
    {tx : Transaction} (hPQ : ∀ userId balance, P userId balance → Q userId balance)
    (h : Requested L moves P tx) : Requested L moves Q tx := by
  obtain ⟨message, millis, hmessage, hsigns, hmade⟩ := h
  refine ⟨message, millis, hmessage, hsigns, hmade.imp id (.imp id ?_)⟩
  rintro ⟨userId, balance, huser, hP, hvalid⟩
  exact ⟨userId, balance, huser, hPQ userId balance hP, hvalid⟩

/-- In every run of a network of nodes with their clients from its start, where `serde_json` reads back what
it writes: a transaction in a pool, or in a stored block other than the genesis block, is a payment that was
made at the client of a node whose connections lead there. The wallet of this client has signed it; if its
user has made it, then at a moment when the finalized ledger of this node had covered it for the user of
the wallet, and if a bot, then that user is the sender. -/
theorem transactions_requested {A : TextAreas} {ν : Type} [DecidableEq ν] {L : ν → Launch A}
    {N : ν → Setting} {printable : Char → Bool} {neighbors : ν → List ν} {s₀ s : Clients A ν}
    {moves : List (ClientsMove ν)} (h₀ : Clients.Started neighbors s₀)
    (hreads : ∀ w, ReadsBack (L w) (Clients.siteHistory w moves))
    (hrun : Run (Clients.Step L N printable) s₀ moves s) {v : ν} {tx : Transaction}
    (h : s.peers.Has v tx) : ∃ w, Gossip.Reaches neighbors w v ∧
      Requested (L w) (Clients.siteHistory w moves) (Clients.Held L N printable s₀ moves w) tx := by
  obtain ⟨w, hpublish, hreach⟩ :=
    Peers.publishedTo_of_has h₀.peers (Clients.run_peers hrun) h
  obtain ⟨dataString, signature, shared, htx, hmem⟩ := Clients.taken_of_published hrun hpublish
  refine ⟨w, hreach, ?_⟩
  exact (requested_of_taken (Clients.run_site h₀ hrun w) (hreads w) hmem htx).mono fun _ _ =>
    Clients.held_of_reported hrun

/-! ## A payment -/

namespace Clients

/-- What a site does by itself. -/
theorem run_own {A : TextAreas} {ν : Type} [DecidableEq ν] {L : ν → Launch A} {N : ν → Setting}
    {printable : Char → Bool} {s : Clients A ν} {v : ν} {siteMoves : List SiteMove} {site : Site A}
    (hrun : Run (Site.Step (L v)) (s.sites v) siteMoves site)
    (hmoves : ∀ a ∈ siteMoves, (∀ shared ∈ readShared a, shared = s.shared v) ∧ publishes a = false) :
    Run (Step L N printable) s (siteMoves.map (.site v))
      { s with sites := Function.update s.sites v site } := by
  have hstep : ∀ site a site', (Site.Step (L v) site a site' ∧
      ((∀ shared ∈ readShared a, shared = s.shared v) ∧ publishes a = false)) →
      Step L N printable { s with sites := Function.update s.sites v site } (.site v a)
        { s with sites := Function.update s.sites v site' } := by
    rintro site a site' ⟨hsite, hread, ha⟩
    have hat : Site.Step (L v) (Function.update s.sites v site v) a site' := by
      rwa [Function.update_self]
    have hown : Step L N printable _ _ _ :=
      .site (s := { s with sites := Function.update s.sites v site }) hat hread ha
    rwa [Function.update_idem] at hown
  have hlift := (hrun.guarded_of_forall hmoves).map
    (fun site => ({ s with sites := Function.update s.sites v site } : Clients A ν)) (ClientsMove.site v)
    hstep
  rwa [Function.update_eq_self] at hlift

/-- Two nodes with clients; both have the files of Alice. -/
def aliceClients : Clients lineAreas Bool where
  peers := Peers.couple
  sites := fun _ => Site.start lineAreas

theorem started_aliceClients : Started (fun v => [!v]) aliceClients where
  peers := Peers.started_couple
  sites := fun _ => rfl

def aliceSetting : Setting := { Nakamoto.walletSetting with crates := aliceCrates }

/-- The node is to publish the payment. -/
def paidSite (app : App lineAreas) : Site lineAreas :=
  { Site.funded with
    app := app, ui := .handled, nakamotoIn := [.publishTx aliceData alicePayment.sig] }

/-- Alice pays at the first node. -/
theorem run_aliceSite : ∃ (siteMoves : List SiteMove) (app : App lineAreas),
    Run (Step (fun _ => aliceLaunch) (fun _ => aliceSetting) fun _ => true) aliceClients
      (siteMoves.map (.site false))
      { aliceClients with sites := Function.update aliceClients.sites false (paidSite app) } ∧
    app.shouldQuit = false ∧ ReadsBack aliceLaunch siteMoves ∧
    .pay alice bob aliceMessage 1678250102871 ∈ siteMoves := by
  obtain ⟨typing, app, hpayment, hinside, hquit⟩ := Site.run_payment Nakamoto.fresh.shared rfl
  have hall : ∀ P : SiteMove → Prop, P .inside → (∀ a ∈ Site.launchMoves Nakamoto.fresh.shared, P a) →
      (∀ a ∈ Site.balanceMoves Nakamoto.fresh.shared, P a) → (∀ a ∈ Site.payMoves, P a) →
      ∀ a ∈ Site.launchMoves Nakamoto.fresh.shared ++ (Site.balanceMoves Nakamoto.fresh.shared ++
        (typing ++ Site.payMoves)), P a := by
    intro P htyping hlaunch hbalance hpay
    simp only [List.forall_mem_append]
    exact ⟨hlaunch, hbalance, fun a ha => hinside a ha ▸ htyping, hpay⟩
  have hown : Run (Step (fun _ => aliceLaunch) (fun _ => aliceSetting) fun _ => true) aliceClients _ _ :=
    run_own (v := false) hpayment (hall _ ⟨nofun, rfl⟩
      (by simp [Site.launchMoves, readShared, publishes, Launch.initialRequest]; rfl)
      (by simp [Site.balanceMoves, readShared, publishes]; rfl)
      (by simp [Site.payMoves, readShared, publishes]))
  have hpay := hall (fun a => ∀ sender receiver message millis,
      (.botSend sender receiver message millis = a ∨ .pay sender receiver message millis = a) →
        (sender, receiver, message, millis) = (alice, bob, aliceMessage, 1678250102871)) (by simp)
    (by simp [Site.launchMoves]) (by simp [Site.balanceMoves]) (by simp [Site.payMoves])
  refine ⟨_, app, hown, hquit, fun sender receiver message millis hmem => ?_, by simp [Site.payMoves]⟩
  have heq : (sender, receiver, message, millis) = (alice, bob, aliceMessage, 1678250102871) := by
    rcases hmem with hmem | hmem
    · exact hpay _ hmem _ _ _ _ (.inl rfl)
    · exact hpay _ hmem _ _ _ _ (.inr rfl)
  simp only [Prod.mk.injEq] at heq
  obtain ⟨rfl, rfl, rfl, rfl⟩ := heq
  rfl

/-- A node that has the payment in its pool. -/
def aliceNakamoto : Nakamoto :=
  { Nakamoto.fresh with
    shared :=
      { Nakamoto.fresh.shared with
        txPool :=
          { TxPool.new with
            poolTxMap := TxPool.new.poolTxMap.insert (alicePayment.genHash aliceCrates) alicePayment
            poolTxIds := [alicePayment.genHash aliceCrates] } }
    signalled := true }

theorem add_alicePayment :
    Nakamoto.Step aliceSetting Nakamoto.fresh (.addTx alicePayment) aliceNakamoto :=
  .addTx (Node.Step.addTx addTx_alicePayment)

/-- The first node has published it. -/
def publishedClients (app : App lineAreas) : Clients lineAreas Bool where
  peers :=
    { Peers.couple with
      nodes := Peers.both { Peer.fresh with nakamoto := aliceNakamoto, added := {alicePayment} }
        Peer.fresh }
  sites := Function.update (fun _ => Site.start lineAreas) false
    { paidSite app with
      nakamotoIn := [], nakamoto := { created := true, pc := .sending alicePayment } }

theorem publish_alicePayment (app : App lineAreas) :
    Step (fun _ => aliceLaunch) (fun _ => aliceSetting) (fun _ => true)
      { aliceClients with sites := Function.update aliceClients.sites false (paidSite app) }
      (.publish false aliceData alicePayment.sig alicePayment Nakamoto.fresh.shared)
      (publishedClients app) := by
  have hsite := @Site.Step.nakamoto _ aliceLaunch (paidSite app) .clean [] Nakamoto.fresh.shared _ _
    (.sending alicePayment) rfl rfl handle_alicePayment
  have hpeers : Peers.Step (fun _ => aliceSetting) (fun _ => true) Peers.couple
      (.inside false (.publish alicePayment)) _ :=
    .inside (fun w => Multiset.notMem_zero _) rfl (.publish add_alicePayment)
  have hpublish := @Step.publish _ _ _ (fun _ => aliceLaunch) (fun _ => aliceSetting) (fun _ => true)
    { aliceClients with sites := Function.update aliceClients.sites false (paidSite app) } false
    aliceData alicePayment.sig alicePayment _ _ hsite rfl hpeers
  dsimp only [aliceClients, Peers.couple] at hpublish
  rw [Function.update_idem, Peers.update_first] at hpublish
  exact hpublish

theorem run_alicePayment : ∃ (siteMoves : List SiteMove) (s : Clients lineAreas Bool),
    Run (Step (fun _ => aliceLaunch) (fun _ => aliceSetting) fun _ => true) aliceClients
      (siteMoves.map (.site false) ++
        [.publish false aliceData alicePayment.sig alicePayment Nakamoto.fresh.shared]) s ∧
    ReadsBack aliceLaunch siteMoves ∧ s.peers.Has false alicePayment := by
  obtain ⟨siteMoves, app, hrun, -, hreads, -⟩ := run_aliceSite
  exact ⟨siteMoves, _, hrun.snoc (publish_alicePayment app), hreads, .inl ⟨alicePayment.genHash aliceCrates,
    AList.lookup_insert TxPool.new.poolTxMap⟩⟩

/-- What else happens is no payment. -/
theorem readsBack_history {siteMoves : List SiteMove} (hreads : ReadsBack aliceLaunch siteMoves)
    {rest : List (ClientsMove Bool)}
    (hrest : ∀ a ∈ rest, ∀ e ∈ a.place, e.2.submitted aliceCrates = none) (w : Bool) :
    ReadsBack aliceLaunch (siteHistory w (siteMoves.map (.site false) ++ rest)) := by
  have hown : ∀ b ∈ siteHistory w (siteMoves.map (.site false) ++ rest),
      b.submitted aliceCrates ≠ none → b ∈ siteMoves := by
    intro b hb hsubmitted
    obtain ⟨a, ha, hplace⟩ := mem_siteHistory.mp hb
    rcases List.mem_append.mp ha with ha | ha
    · obtain ⟨b', hb', rfl⟩ := List.mem_map.mp ha
      obtain ⟨-, rfl⟩ := Prod.mk.inj (Option.some.inj hplace)
      exact hb'
    · exact absurd (hrest a ha _ hplace) hsubmitted
  intro sender receiver message millis hmem
  exact hreads _ _ _ _ (hmem.imp (fun h => hown _ h (by simp [SiteMove.submitted]))
    fun h => hown _ h (by simp [SiteMove.submitted]))

end Clients

/-- The transaction in the pool of the first node is the payment that Alice has made there. -/
theorem transactions_requested_payment : ∃ w moves, Gossip.Reaches (fun v => [!v]) w false ∧
    Requested aliceLaunch (Clients.siteHistory w moves)
      (Clients.Held (fun _ => aliceLaunch) (fun _ => Clients.aliceSetting) (fun _ => true)
        Clients.aliceClients moves w) alicePayment := by
  obtain ⟨siteMoves, s, hrun, hreads, hhas⟩ := Clients.run_alicePayment
  have hall : ∀ w, ReadsBack aliceLaunch (Clients.siteHistory w (siteMoves.map (.site false) ++
      [.publish false aliceData alicePayment.sig alicePayment Nakamoto.fresh.shared])) :=
    Clients.readsBack_history hreads (by simp [ClientsMove.place, SiteMove.submitted])
  obtain ⟨w, hreach, hrequested⟩ := transactions_requested Clients.started_aliceClients hall hrun hhas
  exact ⟨w, _, hreach, hrequested⟩

end NakamotoNode.Network
