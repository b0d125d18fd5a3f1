import NakamotoNode.Network.Clients
import NakamotoNode.Network.Transactions

/-! # From a client to every pool

A payment goes from the client through its wallet and its node, and from there through the network. When
nothing is left on either way it has come to every node that its node reaches (`payments_delivered`). -/

namespace NakamotoNode.Client.Site
open Foundations Foundations.RustStd Chain Node
set_option autoImplicit false

variable {A : TextAreas} {L : Launch A} {s t : Site A} {a : SiteMove} {moves : List SiteMove}

/-- The client and both processes work, and nothing that the client has had signed is on its way. -/
structure Settled (s : Site A) : Prop where
  onTheWay : s.onTheWay = []
  shouldQuit : s.app.shouldQuit = false
  wallet : ∀ e, s.walletPc ≠ .panicked e
  nakamoto : ∀ e, s.nakamoto.pc ≠ .panicked e

/-- What has panicked stays there. -/
theorem Step.panicked (hstep : Step L s a t) {e : NakamotoMainPanic} (h : s.nakamoto.pc = .panicked e) :
    t.nakamoto.pc = .panicked e := by
  cases hstep with
  | nakamoto hpc | nakamotoPanics hpc | connect hpc | connectPanics hpc | print hpc =>
    exact absurd (hpc.symm.trans h) nofun
  | resume hresume | resumePanics _ hresume =>
    rw [h] at hresume
    exact absurd hresume nofun
  | awaitUser =>
    split <;> exact h
  | _ => exact h

theorem panicked_of_mem (hrun : Run (Step L) (start A) moves s) {req : IPCMessageReqNakamoto}
    {shared : Shared} (hmem : .nakamotoPanics req shared ∈ moves) :
    ∃ e, s.nakamoto.pc = .panicked e := by
  refine hrun.invariant_labels (I := fun moves s => .nakamotoPanics req shared ∈ moves →
    ∃ e, s.nakamoto.pc = .panicked e) (fun moves s a t hI hstep hmem => ?_) nofun hmem
  rcases List.mem_append.mp hmem with hmem | hmem
  · obtain ⟨e, he⟩ := hI hmem
    exact ⟨e, hstep.panicked he⟩
  · rw [← List.mem_singleton.mp hmem] at hstep
    cases hstep with
    | nakamotoPanics => exact ⟨_, rfl⟩

/-- Once the site has settled, the node has taken every text. -/
theorem taken_of_submitted (hrun : Run (Step L) (start A) moves s) (hsettled : s.Settled)
    {dataString : String} (h : dataString ∈ moves.filterMap (SiteMove.submitted L.host.crates)) :
    ∃ signature shared, .nakamoto (.publishTx dataString signature) shared ∈ moves := by
  rw [submitted_eq hrun hsettled.shouldQuit hsettled.wallet, hsettled.onTheWay, List.append_nil] at h
  obtain ⟨a, ha, hpublished⟩ := List.mem_filterMap.mp h
  obtain ⟨req, htaken, hdata⟩ := Option.bind_eq_some_iff.mp hpublished
  have hreq : ∃ signature, req = .publishTx dataString signature := by
    cases req <;> simp only [publishedData, reduceCtorEq, Option.some.injEq] at hdata
    subst hdata
    exact ⟨_, rfl⟩
  obtain ⟨signature, rfl⟩ := hreq
  cases a <;> simp only [SiteMove.taken, reduceCtorEq, Option.some.injEq] at htaken
  case nakamoto =>
    subst htaken
    exact ⟨signature, _, ha⟩
  case nakamotoPanics =>
    obtain ⟨e, he⟩ := panicked_of_mem hrun ha
    exact absurd he (hsettled.nakamoto e)

end NakamotoNode.Client.Site

namespace NakamotoNode.Network
open Foundations Foundations.RustStd Chain Node Client
set_option autoImplicit false

namespace Clients
variable {A : TextAreas} {ν : Type} [DecidableEq ν] {L : ν → Launch A} {N : ν → Setting}
  {printable : Char → Bool} {s₀ s : Clients A ν} {moves : List (ClientsMove ν)} {v : ν}

/-- What the main thread of a node has taken out of the pipe is published there. -/
theorem published_of_taken (hrun : Run (Step L N printable) s₀ moves s) {dataString : String}
    {signature : Signature} {shared : Shared}
    (hmem : .nakamoto (.publishTx dataString signature) shared ∈ siteHistory v moves) :
    ∃ tx, publishTx (L v).host.fromStr dataString signature = .ok tx ∧
      .inside v (.publish tx) ∈ moves.filterMap ClientsMove.toPeers := by
  obtain ⟨a, ha, hplace⟩ := mem_siteHistory.mp hmem
  obtain ⟨before, u, w, -, -, hstep⟩ := hrun.step_of_mem ha
  cases hstep with
  | peers => exact absurd hplace nofun
  | site _ _ hpublishes =>
    obtain ⟨rfl, rfl⟩ := Prod.mk.inj (Option.some.inj hplace)
    exact absurd hpublishes.symm Bool.false_ne_true
  | publish _ htx =>
    obtain ⟨rfl, hsite⟩ := Prod.mk.inj (Option.some.inj hplace)
    obtain ⟨hreq, -⟩ := SiteMove.nakamoto.inj hsite
    obtain ⟨rfl, rfl⟩ := IPCMessageReqNakamoto.publishTx.inj hreq
    exact ⟨_, htx, List.mem_filterMap.mpr ⟨_, ha, rfl⟩⟩

end Clients

/-- In every run of a network of nodes with their clients in which no client publishes before every node
is connected to its neighbors, and where `serde_json` reads back what it writes: when the client of a node
works and nothing is left on the way, there or in the network, each payment that was made there has been
signed by the wallet and handed to `add_tx` at every node that the node reaches. If the transactions
published have fewer ids than a pool has room for, the pool there knows it, if its signature is valid. -/
theorem payments_delivered {A : TextAreas} {ν : Type} [DecidableEq ν] {L : ν → Launch A}
    {N : ν → Setting} {printable : Char → Bool} {neighbors : ν → List ν} {s₀ s₁ s : Clients A ν}
    {before moves : List (ClientsMove ν)} {u v : ν} {sender receiver : UserId} {message : String}
    {millis : ℕ} (h₀ : Clients.Started neighbors s₀)
    (hbefore : Run (Clients.Step L N printable) s₀ before s₁)
    (hestablished : Peers.Established neighbors s₁.peers)
    (hsilent : ∀ w tx, .inside w (.publish tx) ∉ before.filterMap ClientsMove.toPeers)
    (hrun : Run (Clients.Step L N printable) s₁ moves s)
    (hreads : ReadsBack (L u) (Clients.siteHistory u (before ++ moves)))
    (hpayment : .botSend sender receiver message millis ∈ Clients.siteHistory u (before ++ moves) ∨
      .pay sender receiver message millis ∈ Clients.siteHistory u (before ++ moves))
    (hsettled : (s.sites u).Settled) (hrest : Peers.TxAtRest s.peers)
    (hreach : Gossip.Reaches neighbors u v) :
    ∃ tx : Transaction, tx.sender = sender ∧ tx.receiver = receiver ∧
      tx.message = timestamped message millis ∧
      (L u).Signs (createSignReq (L u).host.crates sender receiver message millis) tx.sig ∧
      AddedAt (Peers.history v (moves.filterMap ClientsMove.toPeers)) tx ∧
      ∀ ids : Finset TxId, ids.card < maxTxPool →
        (∀ w tx', .inside w (.publish tx') ∈ moves.filterMap ClientsMove.toPeers →
          tx'.genHash (N v).crates ∈ ids) →
        tx.verifySig (N v).crates = .ok true →
        Knows (N v).crates (s.peers.nodes v).nakamoto.shared.txPool tx := by
  have hall := hbefore.trans hrun
  have hsite := Clients.run_site h₀ hall u
  have hsubmitted : createSignReq (L u).host.crates sender receiver message millis ∈
      (Clients.siteHistory u (before ++ moves)).filterMap (SiteMove.submitted (L u).host.crates) := by
    rcases hpayment with hmem | hmem <;> exact List.mem_filterMap.mpr ⟨_, hmem, rfl⟩
  obtain ⟨signature, shared, hmem⟩ := Site.taken_of_submitted hsite hsettled hsubmitted
  have hsigns : (L u).Signs _ signature := Site.asks_of_taken hsite hmem rfl
  obtain ⟨tx, htx, hpublished⟩ := Clients.published_of_taken hall hmem
  obtain rfl := Except.ok.inj (htx.symm.trans (publishTx_of_read (hreads _ _ _ _ hpayment) signature))
  rw [List.filterMap_append, List.mem_append] at hpublished
  have hpublished := hpublished.resolve_left (hsilent _ _)
  have hpeers := Clients.run_peers hrun
  have hadded := Peers.addedAt_of_publish hestablished hpeers hrest hpublished hreach
  exact ⟨_, rfl, rfl, rfl, hsigns, hadded, fun ids hroom hids hsig =>
    Peers.knows_of_added hestablished.started hpeers hadded hroom hids hsig⟩

/-! ## A payment -/

namespace Clients

/-- What the network does by itself. -/
theorem run_ofPeers {A : TextAreas} {ν : Type} [DecidableEq ν] {L : ν → Launch A} {N : ν → Setting}
    {printable : Char → Bool} {s : Clients A ν} {peerMoves : List (PeersMove ν)} {peers : Peers ν}
    (hrun : Run (Peers.Step N printable) s.peers peerMoves peers)
    (hnone : ∀ v tx, .inside v (.publish tx) ∉ peerMoves) :
    Run (Step L N printable) s (peerMoves.map .peers) { s with peers := peers } := by
  have hguarded := hrun.guarded_of_forall (P := fun a => ∀ v tx, a ≠ .inside v (.publish tx))
    fun a ha v tx he => hnone v tx (he ▸ ha)
  exact hguarded.map (fun peers => ({ s with peers := peers } : Clients A ν)) ClientsMove.peers
    fun _ _ _ h => .peers h.1 h.2

/-- A site publishes nothing by itself. -/
theorem not_publish_own {ν : Type} {u v : ν} {siteMoves : List SiteMove} {l : PeerMove} :
    .inside u l ∉ (siteMoves.map (ClientsMove.site v)).filterMap ClientsMove.toPeers := by
  simp [ClientsMove.toPeers]

end Clients

/-- The payment of Alice, and then moves of the network. -/
def publishing (peerMoves : List (PeersMove Bool)) : List (ClientsMove Bool) :=
  [.publish false aliceData alicePayment.sig alicePayment Nakamoto.fresh.shared] ++ peerMoves.map .peers

theorem submitted_of_publishing (peerMoves : List (PeersMove Bool)) {a : ClientsMove Bool}
    (ha : a ∈ publishing peerMoves) {e : Bool × SiteMove} (he : e ∈ a.place) :
    e.2.submitted aliceCrates = none := by
  rcases List.mem_append.mp ha with ha | ha
  · rw [List.mem_singleton.mp ha] at he
    obtain rfl := Option.some.inj he
    rfl
  · obtain ⟨b, -, rfl⟩ := List.mem_map.mp ha
    exact absurd he nofun

theorem eq_of_publishing {peerMoves : List (PeersMove Bool)}
    (hnone : ∀ w tx, .inside w (.publish tx) ∉ peerMoves) {w : Bool} {tx : Transaction}
    (hmem : .inside w (.publish tx) ∈ (publishing peerMoves).filterMap ClientsMove.toPeers) :
    tx = alicePayment := by
  rw [publishing, List.filterMap_append, List.mem_append] at hmem
  rcases hmem with hmem | hmem
  · simp only [List.filterMap_cons, ClientsMove.toPeers, List.filterMap_nil, List.mem_singleton,
      PeersMove.inside.injEq, PeerMove.publish.injEq] at hmem
    exact hmem.2
  · obtain ⟨a, ha, htoPeers⟩ := List.mem_filterMap.mp hmem
    obtain ⟨b, hb, rfl⟩ := List.mem_map.mp ha
    obtain rfl := Option.some.inj htoPeers
    exact absurd hb (hnone w tx)

/-- The payment of Alice comes to the second node. -/
theorem payments_delivered_payment : ∃ before moves s₁ s,
    Run (Clients.Step (fun _ => aliceLaunch) (fun _ => Clients.aliceSetting) fun _ => true)
      Clients.aliceClients before s₁ ∧
    Run (Clients.Step (fun _ => aliceLaunch) (fun _ => Clients.aliceSetting) fun _ => true) s₁ moves s ∧
    Knows aliceCrates (s.peers.nodes true).nakamoto.shared.txPool alicePayment := by
  obtain ⟨siteMoves, app, hbefore, hquit, hreads, hpay⟩ := Clients.run_aliceSite
  obtain ⟨peerMoves, peers, hspread, hrest, -, hnone, -⟩ := Peers.run_spread Clients.add_alicePayment
  have hpublish := Run.single (Clients.publish_alicePayment app)
  have hpeers := Clients.run_ofPeers (L := fun _ => aliceLaunch) (s := Clients.publishedClients app) hspread
    hnone
  have hrun := hpublish.trans hpeers
  have hall := Clients.readsBack_history hreads (w := false) fun a ha e he =>
    submitted_of_publishing peerMoves ha he
  have hmem : .pay alice bob aliceMessage 1678250102871 ∈ Clients.siteHistory false
      (siteMoves.map (.site false) ++ publishing peerMoves) :=
    Clients.mem_siteHistory.mpr ⟨.site false (.pay alice bob aliceMessage 1678250102871),
      List.mem_append_left _ (List.mem_map_of_mem hpay), rfl⟩
  have hsettled : ((Clients.publishedClients app).sites false).Settled :=
    ⟨rfl, hquit, nofun, nofun⟩
  obtain ⟨tx, hsender, hreceiver, hmessage, ⟨wallet, rng, -, hsig⟩, -, hknows⟩ :=
    payments_delivered (u := false) (v := true) Clients.started_aliceClients hbefore
      Peers.established_couple (fun _ _ => Clients.not_publish_own) hrun hall (.inr hmem) hsettled hrest
      (reaches_couple false true)
  obtain rfl : tx = alicePayment := by
    obtain ⟨sender, receiver, message, sig⟩ := tx
    obtain rfl := Option.some.inj hsig
    dsimp only at hsender hreceiver hmessage
    rw [hsender, hreceiver, hmessage]
    rfl
  refine ⟨_, _, _, _, hbefore, hrun, hknows {alicePayment.genHash aliceCrates} (by decide) ?_ ?_⟩
  · intro w tx htx
    rw [eq_of_publishing hnone htx, Finset.mem_singleton]
    rfl
  · exact verifySig_alicePayment

end NakamotoNode.Network
