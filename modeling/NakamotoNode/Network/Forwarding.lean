import NakamotoNode.Chain.Chains
import NakamotoNode.Network.Startup
import NakamotoNode.Node.TxPool

/-! # Forwarding transactions

`create_nakamoto` of `bin_nakamoto/src/nakamoto.rs` on top of `P2PNetwork::create`. A transaction that a
reader passes on is added to the pool and sent on to the channel of the published ones, from where it goes
back to the network and is broadcast again. The ack set is asked by the readers only, so that a node writes
what it receives to its neighbors twice: once relayed, once broadcast. -/

namespace NakamotoNode.Network
open Foundations Chain Node
set_option autoImplicit false

/-- The transactions in the channels of a node, and its pool. -/
structure Forwarder where
  txPool : TxPool
  /-- `upd_trans_in_rx` -/
  updTransIn : List Transaction
  /-- of the receiving thread and of clients, between `add_tx` and the channel -/
  added : Multiset Transaction
  /-- `trans_tx` -/
  transTx : List Transaction
  /-- `trans_out_tx` -/
  transOut : List Transaction

structure Forwarding (ν : Type) where
  network : Gossip ν
  nodes : ν → Forwarder

inductive ForwardMove (ν : Type) where
  | network (a : Move ν)
  /-- `publish_tx`: `add_tx` -/
  | publish (u : ν) (tx : Transaction)
  /-- of the receiving thread: `recv` and `add_tx` -/
  | receive (v : ν) (tx : Transaction)
  /-- of both: `send` to `trans_tx` -/
  | send (v : ν) (tx : Transaction)
  /-- of the sending thread: from `trans_tx` to `trans_out_tx` -/
  | sendOut (v : ν) (tx : Transaction)
  deriving DecidableEq

/-- The transaction that a move takes from the node's channel or puts into it. -/
def Move.handed {ν : Type} : Move ν → Option (ν × Transaction)
  | .originate u (.broadcastTx tx) => some (u, tx)
  | .pass v (.broadcastTx tx) => some (v, tx)
  | _ => none

namespace Forwarding
variable {ν : Type} [DecidableEq ν]

/-- One node's channels changed. -/
def update (s : Forwarding ν) (v : ν) (f : Forwarder) : ν → Forwarder := Function.update s.nodes v f

inductive Step (C : Crates) (printable : Char → Bool) :
    Forwarding ν → ForwardMove ν → Forwarding ν → Prop
  | network {s : Forwarding ν} {a : Move ν} {network : Gossip ν}
      (h : Gossip.Step printable s.network a network) (ha : a.handed = none) :
      Step C printable s (.network a) { s with network := network }
  | pass {s : Forwarding ν} {v : ν} {tx : Transaction} {network : Gossip ν}
      (h : Gossip.Step printable s.network (.pass v (.broadcastTx tx)) network) :
      Step C printable s (.network (.pass v (.broadcastTx tx)))
        { network := network
          nodes := s.update v { s.nodes v with updTransIn := (s.nodes v).updTransIn ++ [tx] } }
  | originate {s : Forwarding ν} {u : ν} {tx : Transaction} {rest : List Transaction}
      {network : Gossip ν} (hout : (s.nodes u).transOut = tx :: rest)
      (h : Gossip.Step printable s.network (.originate u (.broadcastTx tx)) network) :
      Step C printable s (.network (.originate u (.broadcastTx tx)))
        { network := network, nodes := s.update u { s.nodes u with transOut := rest } }
  | publish {s : Forwarding ν} {u : ν} {tx : Transaction} {valid : Bool} {txPool : TxPool}
      (hcreated : s.network.Connected u) (hadd : (s.nodes u).txPool.addTx C tx = .ok (valid, txPool)) :
      Step C printable s (.publish u tx)
        { s with
          nodes := s.update u
            { s.nodes u with txPool := txPool, added := tx ::ₘ (s.nodes u).added } }
  | receive {s : Forwarding ν} {v : ν} {tx : Transaction} {rest : List Transaction} {valid : Bool}
      {txPool : TxPool} (hcreated : s.network.Connected v) (hin : (s.nodes v).updTransIn = tx :: rest)
      (hadd : (s.nodes v).txPool.addTx C tx = .ok (valid, txPool)) :
      Step C printable s (.receive v tx)
        { s with
          nodes := s.update v
            { s.nodes v with
              txPool := txPool, updTransIn := rest, added := tx ::ₘ (s.nodes v).added } }
  | send {s : Forwarding ν} {v : ν} {tx : Transaction} {rest : Multiset Transaction}
      (hadded : (s.nodes v).added = tx ::ₘ rest) :
      Step C printable s (.send v tx)
        { s with
          nodes := s.update v
            { s.nodes v with added := rest, transTx := (s.nodes v).transTx ++ [tx] } }
  | sendOut {s : Forwarding ν} {v : ν} {tx : Transaction} {rest : List Transaction}
      (htrans : (s.nodes v).transTx = tx :: rest) :
      Step C printable s (.sendOut v tx)
        { s with
          nodes := s.update v
            { s.nodes v with transTx := rest, transOut := (s.nodes v).transOut ++ [tx] } }

/-- All nodes have just been started, and no message has been sent. -/
structure Launched (neighbors : ν → List ν) (s : Forwarding ν) : Prop where
  starting : ∀ v, s.network.Starting (neighbors v) v
  threads : ∀ T ∈ s.network.threads, ∃ v w, T = .connecting v w
  inFlight : s.network.inFlight = 0
  channels : ∀ v, (s.nodes v).updTransIn = [] ∧ (s.nodes v).added = 0 ∧ (s.nodes v).transTx = [] ∧
    (s.nodes v).transOut = []

/-- How often a node has written the transaction to a neighbor. -/
def writes (v w : ν) (tx : Transaction) (moves : List (ForwardMove ν)) : ℕ :=
  moves.countP fun a => decide (a = .network (.relayTo v w (.broadcastTx tx)) ∨
    a = .network (.write v w (.broadcastTx tx)))

/-- A transaction that one node publishes once is written by each node to each neighbor channel once
at most. -/
def NoDuplicates (neighbors : ν → List ν) (tx : Transaction) (moves : List (ForwardMove ν)) : Prop :=
  (∃ u, ∀ v, moves.count (.publish v tx) = if v = u then 1 else 0) →
    ∀ v w, writes v w tx moves ≤ (neighbors v).count w

/-- The thread that broadcasts takes the transaction up only where the ack set does not have it. -/
def BroadcastsNew (printable : Char → Bool) (tx : Transaction) (s : Forwarding ν)
    (a : ForwardMove ν) : Prop :=
  ∀ u, a = .network (.originate u (.broadcastTx tx)) →
    (NetMessage.broadcastTx tx).debug printable ∉ (s.network.nodes u).ack

end Forwarding

/-! ## What a node may still write -/

namespace Gossip
variable {ν : Type} [DecidableEq ν]

/-- The copies of a message that a thread of `v` has still to write to `w`, where `v` has no more than `n`
channels to it. -/
def toWrite (n : ℕ) (v w : ν) (m : NetMessage) : Thread ν → ℕ
  | .connecting _ _ => 0
  | .accepted v' m' => if v' = v ∧ m' = m then n else 0
  | .passed v' m' => if v' = v ∧ m' = m then n else 0
  | .relaying v' m' rest => if v' = v ∧ m' = m then rest.count w else 0
  | .originated v' m' => if v' = v ∧ m' = m then n else 0
  | .spawning v' m' rest => if v' = v ∧ m' = m then rest.count w else 0
  | .writing v' w' m' => if v' = v ∧ m' = m then (if w' = w then 1 else 0) else 0

/-- These copies, and `n` more while the node has not seen the message. -/
def budget (printable : Char → Bool) (n : ℕ) (v w : ν) (m : NetMessage) (s : Gossip ν) : ℕ :=
  (s.threads.map (toWrite n v w m)).sum + if m.debug printable ∈ (s.nodes v).ack then 0 else n

/-- The move writes the message to `w`. -/
def writesTo (v w : ν) (m : NetMessage) (a : Move ν) : ℕ :=
  if a = .relayTo v w m ∨ a = .write v w m then 1 else 0

variable {printable : Char → Bool} {n : ℕ} {v w u : ν} {m : NetMessage} {s t : Gossip ν} {a : Move ν}

theorem ack_connect (u w' : ν) : (s.connect u w' v).ack = (s.nodes v).ack := by
  by_cases hu : v = u
  · subst hu
    rw [connect, Function.update_self]
  · rw [connect, Function.update_of_ne hu]

variable (printable) in
/-- Seen or handed to a thread of the node: the copies are counted once. -/
theorem unseen_acknowledge (v' : ν) (m' : NetMessage)
    (hnew : v' = v → m' = m → m.debug printable ∉ (s.nodes v).ack) :
    (if v' = v ∧ m' = m then n else 0) +
      (if m.debug printable ∈ (s.acknowledge printable v' m' v).ack then 0 else n) =
      if m.debug printable ∈ (s.nodes v).ack then 0 else n := by
  by_cases he : v' = v ∧ m' = m
  · obtain ⟨rfl, rfl⟩ := he
    simp [ack_acknowledge, hnew rfl rfl]
  · have hne : ¬ (v = v' ∧ m = m') := fun h => he ⟨h.1.symm, h.2.symm⟩
    simp [ack_acknowledge, he, hne]

theorem writesTo_of_write {v' w' : ν} {m' : NetMessage} (ha : a = .write v' w' m' ∨ a = .relayTo v' w' m') :
    writesTo v w m a = if v' = v ∧ m' = m then (if w' = w then 1 else 0) else 0 := by
  have hiff : (a = .relayTo v w m ∨ a = .write v w m) ↔ (v' = v ∧ m' = m) ∧ w' = w := by
    rcases ha with rfl | rfl <;> simp <;> tauto
  rw [writesTo, ← ite_and]
  exact if_congr hiff rfl rfl

theorem toWrite_reader (v' : ν) (m' : NetMessage) :
    ((reader v' m').map (toWrite n v w m)).sum ≤ if v' = v ∧ m' = m then n else 0 := by
  unfold reader
  split
  · rw [Multiset.map_singleton, Multiset.sum_singleton]
    exact Nat.le_refl _
  · exact Nat.zero_le _

theorem Step.budget_le (hstep : Step printable s a t)
    (hnew : a = .originate v m → m.debug printable ∉ (s.nodes v).ack)
    (hchannels : (s.nodes v).channels.count w ≤ n) :
    writesTo v w m a + budget printable n v w m t ≤ budget printable n v w m s := by
  unfold budget
  cases hstep with
  | connect ht =>
    simp only [ht, Multiset.map_cons, Multiset.sum_cons, toWrite, ack_connect]
    simp [writesTo]
  | @originate u' m' =>
    have hunseen := unseen_acknowledge printable (n := n) (s := s) (v := v) (m := m)
      u' m' fun hu hm => hnew (by rw [hu, hm])
    simp only [Multiset.map_cons, Multiset.sum_cons, toWrite]
    simp [writesTo]
    omega
  | @accept v' m' _ _ hack =>
    have hunseen := unseen_acknowledge printable (n := n) (s := s) (v := v) (m := m)
      v' m' fun hu hm => by rwa [hu, hm] at hack
    have hreader := toWrite_reader (n := n) (v := v) (w := w) (m := m) v' m'
    simp only [Multiset.map_add, Multiset.sum_add]
    simp [writesTo]
    omega
  | broadcast ht | relay ht =>
    simp only [ht, Multiset.map_cons, Multiset.sum_cons, toWrite]
    simp [writesTo]
    split
    · next he =>
      rw [he.1]
      omega
    · omega
  | pass ht =>
    simp only [ht, Multiset.map_cons, Multiset.sum_cons, toWrite]
    simp [writesTo]
  | spawn ht =>
    simp only [ht, Multiset.map_cons, Multiset.sum_cons, toWrite, List.count_cons]
    simp [writesTo]
    split <;> omega
  | spawned ht | relayed ht =>
    simp only [ht, Multiset.map_cons, Multiset.sum_cons, toWrite]
    simp [writesTo]
  | drop => simp [writesTo]
  | write ht =>
    rw [writesTo_of_write (.inl rfl)]
    simp only [ht, Multiset.map_cons, Multiset.sum_cons, toWrite]
    omega
  | relayTo ht =>
    rw [writesTo_of_write (.inr rfl)]
    simp only [ht, Multiset.map_cons, Multiset.sum_cons, toWrite, List.count_cons, beq_iff_eq]
    split <;> omega

end Gossip

/-! ## Runs -/

namespace Forwarding
variable {ν : Type} [DecidableEq ν] {C : Crates} {printable : Char → Bool} {neighbors : ν → List ν}
  {tx : Transaction} {s t : Forwarding ν} {a : ForwardMove ν} {v w : ν}

/-- A move is one of the network, or leaves it as it is. -/
theorem Step.network_cases (hstep : Step C printable s a t) :
    (∃ b, a = .network b ∧ Gossip.Step printable s.network b t.network) ∨
    ((∀ b, a ≠ .network b) ∧ t.network = s.network) := by
  cases hstep with
  | network h | pass h | originate _ h => exact .inl ⟨_, rfl, h⟩
  | publish | receive | send | sendOut => exact .inr ⟨fun _ he => by simp at he, rfl⟩

theorem writes_append_network (moves : List (ForwardMove ν)) (b : Move ν) :
    writes v w tx (moves ++ [.network b]) =
      writes v w tx moves + Gossip.writesTo v w (.broadcastTx tx) b := by
  unfold writes Gossip.writesTo
  rw [List.countP_append, List.countP_singleton]
  simp

theorem writes_append_of_ne (moves : List (ForwardMove ν)) (ha : ∀ b, a ≠ .network b) :
    writes v w tx (moves ++ [a]) = writes v w tx moves := by
  unfold writes
  rw [List.countP_append, List.countP_singleton]
  simp [ha]

/-- What has been written and what may still be written to a neighbor does not grow. -/
theorem writes_le {s₀ : Forwarding ν} {moves : List (ForwardMove ν)} (h₀ : Launched neighbors s₀)
    (hrun : Run (Guarded (Step C printable) (BroadcastsNew printable tx)) s₀ moves s) :
    Gossip.Joining (neighbors v) v s.network ∧
      writes v w tx moves + Gossip.budget printable ((neighbors v).count w) v w (.broadcastTx tx)
        s.network ≤ (neighbors v).count w := by
  refine hrun.invariant_labels (I := fun moves s => Gossip.Joining (neighbors v) v s.network ∧
    writes v w tx moves + Gossip.budget printable ((neighbors v).count w) v w (.broadcastTx tx)
      s.network ≤ (neighbors v).count w) (fun moves s a t hI hstep => ?_) ⟨fun u => ?_, ?_⟩
  · obtain ⟨hjoin, hle⟩ := hI
    obtain ⟨hstep, hguard⟩ := hstep
    rcases hstep.network_cases with ⟨b, rfl, hnet⟩ | ⟨hne, hsame⟩
    · have hchannels : (s.network.nodes v).channels.count w ≤ (neighbors v).count w := by
        have hcount := hjoin w
        omega
      have hbudget := hnet.budget_le (m := .broadcastTx tx)
        (fun hb => hguard v (congrArg ForwardMove.network hb)) hchannels
      refine ⟨hnet.joining hjoin, ?_⟩
      rw [writes_append_network]
      omega
    · rw [writes_append_of_ne moves hne, hsame]
      exact ⟨hjoin, hle⟩
  · rw [(h₀.starting v).channels, (h₀.starting v).connecting, List.count_nil, Nat.zero_add]
  · have hidle : (s₀.network.threads.map
        (Gossip.toWrite ((neighbors v).count w) v w (.broadcastTx tx))).sum = 0 := by
      apply Multiset.sum_eq_zero
      intro k hk
      obtain ⟨T, hT, rfl⟩ := Multiset.mem_map.mp hk
      obtain ⟨v', w', rfl⟩ := h₀.threads T hT
      rfl
    rw [Gossip.budget, hidle, (h₀.starting v).ack]
    simp [writes]

end Forwarding

open Forwarding

/-- In every run of a network from its start in which the broadcasting threads take the transaction up
only at nodes that have not seen it, no node writes it to a neighbor channel twice. -/
theorem no_duplicates {ν : Type} [DecidableEq ν] {C : Crates} {printable : Char → Bool}
    {neighbors : ν → List ν} {tx : Transaction} {s₀ s : Forwarding ν} {moves : List (ForwardMove ν)}
    (h₀ : Launched neighbors s₀)
    (hrun : Run (Guarded (Forwarding.Step C printable) (BroadcastsNew printable tx)) s₀ moves s) :
    NoDuplicates neighbors tx moves := by
  intro _ v w
  have hle := (writes_le (v := v) (w := w) h₀ hrun).2
  omega

/-! ## Two nodes -/

namespace Forwarding
section
variable {ν : Type} [DecidableEq ν] (C : Crates) (printable : Char → Bool) (tx : Transaction)
  {s : Forwarding ν} {u v : ν}

theorem run_network {net : Gossip ν} {moves : List (Move ν)}
    (hrun : Run (Gossip.Step printable) s.network moves net) (hmoves : ∀ a ∈ moves, a.handed = none) :
    Run (Step C printable) s (moves.map .network) { s with network := net } := by
  have hfree := hrun.guarded_of_forall hmoves
  have hlift := hfree.map (fun net => { s with network := net }) ForwardMove.network
    fun net a net' h => (Step.network (s := { s with network := net }) h.1 h.2 : Step C printable _ _ _)
  exact hlift

/-- A transaction in the hands of a thread comes to the channel of the broadcasting one. -/
theorem run_carry (hadded : (s.nodes u).added = {tx}) (htrans : (s.nodes u).transTx = [])
    (hout : (s.nodes u).transOut = []) :
    ∃ t, Run (Step C printable) s [.send u tx, .sendOut u tx] t ∧ t.network = s.network ∧
      (t.nodes u).transOut = [tx] ∧ ∀ v, v ≠ u → t.nodes v = s.nodes v := by
  have hone : (s.nodes u).added = tx ::ₘ 0 := hadded
  have hsend : Run (Step C printable) s [.send u tx] _ := Run.single (.send hone)
  have hnext : (s.update u { s.nodes u with
      added := 0, transTx := (s.nodes u).transTx ++ [tx] } u).transTx = [tx] := by
    simp [update, htrans]
  have hcarried := hsend.snoc (.sendOut hnext)
  refine ⟨_, hcarried, rfl, by simp [update, hout], fun v hv => ?_⟩
  simp [update, hv]

theorem run_publish (hcreated : s.network.Connected u) {valid : Bool}
    (hsig : tx.verifySig C = .ok valid) (hadded : (s.nodes u).added = 0)
    (htrans : (s.nodes u).transTx = []) (hout : (s.nodes u).transOut = []) :
    ∃ t, Run (Step C printable) s [.publish u tx, .send u tx, .sendOut u tx] t ∧
      t.network = s.network ∧ (t.nodes u).transOut = [tx] ∧ ∀ v, v ≠ u → t.nodes v = s.nodes v := by
  obtain ⟨r, P, hadd⟩ := TxPool.addTx_of_verifySig (P := (s.nodes u).txPool) hsig
  have hpublish : Run (Step C printable) s _ _ := Run.single (.publish hcreated hadd)
  obtain ⟨t, hcarry, hnet, htx, hrest⟩ := run_carry C printable tx (u := u) (s := {
      s with nodes := s.update u { s.nodes u with txPool := P, added := tx ::ₘ (s.nodes u).added } })
    (by simp [update, hadded]) (by simp [update, htrans]) (by simp [update, hout])
  refine ⟨t, hpublish.trans hcarry, hnet, htx, fun v hv => ?_⟩
  rw [hrest v hv]
  simp [update, hv]

theorem run_receive (hcreated : s.network.Connected u) {valid : Bool}
    (hsig : tx.verifySig C = .ok valid) (hin : (s.nodes u).updTransIn = [tx])
    (hadded : (s.nodes u).added = 0) (htrans : (s.nodes u).transTx = [])
    (hout : (s.nodes u).transOut = []) :
    ∃ t, Run (Step C printable) s [.receive u tx, .send u tx, .sendOut u tx] t ∧
      t.network = s.network ∧ (t.nodes u).transOut = [tx] ∧ ∀ v, v ≠ u → t.nodes v = s.nodes v := by
  obtain ⟨r, P, hadd⟩ := TxPool.addTx_of_verifySig (P := (s.nodes u).txPool) hsig
  have hreceive : Run (Step C printable) s _ _ := Run.single (.receive hcreated hin hadd)
  obtain ⟨t, hcarry, hnet, htx, hrest⟩ := run_carry C printable tx (u := u) (s := {
      s with nodes := s.update u {
        s.nodes u with txPool := P, updTransIn := [], added := tx ::ₘ (s.nodes u).added } })
    (by simp [update, hadded]) (by simp [update, htrans]) (by simp [update, hout])
  refine ⟨t, hreceive.trans hcarry, hnet, htx, fun v hv => ?_⟩
  rw [hrest v hv]
  simp [update, hv]

theorem step_originate (hthreads : s.network.threads = 0) (hout : (s.nodes u).transOut = [tx]) :
    ∃ t, Step C printable s (.network (.originate u (.broadcastTx tx))) t ∧
      t.network =
        { nodes := s.network.acknowledge printable u (.broadcastTx tx)
          threads := {.originated u (.broadcastTx tx)}
          inFlight := s.network.inFlight } ∧ ∀ v, v ≠ u → t.nodes v = s.nodes v := by
  have hjoined : ∀ w, .connecting u w ∉ s.network.threads := fun w => by
    rw [hthreads]
    exact Multiset.notMem_zero _
  refine ⟨_, .originate hout (.originate rfl hjoined), ?_, fun v hv => ?_⟩
  · dsimp only
    rw [hthreads]
    rfl
  · simp [update, hv]

end

/-- Two nodes, each about to connect to the other. -/
def couple : Forwarding Bool where
  network :=
    { nodes := fun _ => { ack := ∅, channels := [] }
      threads := {.connecting false true, .connecting true false}
      inFlight := 0 }
  nodes := fun _ =>
    { txPool := TxPool.new, updTransIn := [], added := 0, transTx := [], transOut := [] }

theorem launched_couple : Launched (fun v => [!v]) couple where
  starting := fun v => ⟨rfl, rfl, by revert v; decide⟩
  threads := fun T hT => by
    simp only [couple, Multiset.insert_eq_cons, Multiset.mem_cons, Multiset.mem_singleton] at hT
    rcases hT with rfl | rfl <;> exact ⟨_, _, rfl⟩
  inFlight := rfl
  channels := fun _ => ⟨rfl, rfl, rfl, rfl⟩

section
variable (C : Crates) (printable : Char → Bool) (tx : Transaction) {valid : Bool}

/-- Both connect, and the first publishes the transaction. -/
def opening (tx : Transaction) : List (ForwardMove Bool) :=
  [.network (.connect false true), .network (.connect true false), .publish false tx, .send false tx,
    .sendOut false tx]

/-- The first writes it to the second, which relays it. -/
def relaying (tx : Transaction) : List (ForwardMove Bool) :=
  [.broadcast false (.broadcastTx tx), .spawn false true (.broadcastTx tx),
    .finish false (.broadcastTx tx), .write false true (.broadcastTx tx),
    .accept true (.broadcastTx tx), .pass true (.broadcastTx tx), .relay true (.broadcastTx tx),
    .relayTo true false (.broadcastTx tx), .finish true (.broadcastTx tx)].map .network

def firstRound (tx : Transaction) : List (ForwardMove Bool) :=
  opening tx ++ [.network (.originate false (.broadcastTx tx))] ++ relaying tx

/-- The second broadcasts what it has received. -/
def echoing (tx : Transaction) : List (ForwardMove Bool) :=
  [.receive true tx, .send true tx, .sendOut true tx, .network (.originate true (.broadcastTx tx)),
    .network (.broadcast true (.broadcastTx tx)), .network (.spawn true false (.broadcastTx tx)),
    .network (.finish true (.broadcastTx tx)), .network (.write true false (.broadcastTx tx))]

theorem run_opening (hsig : tx.verifySig C = .ok valid) : ∃ s,
    Run (Step C printable) couple (opening tx) s ∧ s.network = Gossip.pair ∧
      (s.nodes false).transOut = [tx] ∧ s.nodes true = couple.nodes true := by
  have hconnect : Run (Gossip.Step printable) couple.network
      [.connect false true, .connect true false] Gossip.pair := by
    have hfirst : Run (Gossip.Step printable) couple.network _ _ :=
      Run.single (@Gossip.Step.connect _ _ _ _ false true {.connecting true false} rfl)
    have hboth := hfirst.snoc (@Gossip.Step.connect _ _ _ _ true false 0 rfl)
    apply Eq.mp _ hboth
    apply congrArg (Run (Gossip.Step printable) couple.network _)
    rw [Gossip.pair]
    congr 1
    funext v
    cases v <;> rfl
  obtain ⟨s, hpublish, hnet, hout, hrest⟩ := run_publish C printable tx
    (u := false) (s := { couple with network := Gossip.pair }) (fun w => Multiset.notMem_zero _) hsig
    rfl rfl rfl
  exact ⟨s, (run_network C printable hconnect (by simp [Move.handed])).trans hpublish, hnet, hout,
    hrest true (by decide)⟩

/-- The second node has relayed the transaction, and has it in its channel. -/
theorem run_relaying {s : Forwarding Bool}
    (hthreads : s.network.threads = {.originated false (.broadcastTx tx)})
    (hflight : s.network.inFlight = 0) (hchannels : ∀ v, (s.network.nodes v).channels = [!v])
    (hack : (s.network.nodes true).ack = ∅) (hempty : s.nodes true = couple.nodes true) : ∃ t,
    Run (Step C printable) s (relaying tx) t ∧ t.network.threads = 0 ∧
      t.network.inFlight = {(false, .broadcastTx tx)} ∧
      (∀ v, (t.network.nodes v).channels = [!v]) ∧
      t.nodes true = { couple.nodes true with updTransIn := [tx] } := by
  have hwritten : Run (Gossip.Step printable) s.network _ _ :=
    Gossip.run_broadcast (w := true) 0 hthreads (hchannels _)
  rw [hflight] at hwritten
  have haccept := hwritten.snoc (@Gossip.Step.accept _ _ printable _ true (.broadcastTx tx) 0 rfl
    (by rw [hack]; exact Finset.notMem_empty _))
  rw [reader, if_pos (show (NetMessage.broadcastTx tx).relayed = true from rfl)] at haccept
  have hfirst := run_network C printable haccept (by simp [Move.handed])
  have hpass := hfirst.snoc (.pass (@Gossip.Step.pass _ _ printable _ true (.broadcastTx tx) 0 rfl))
  have hchannels' : ∀ v, (Gossip.acknowledge printable
      { s.network with threads := 0, inFlight := {(true, .broadcastTx tx)} } true
      (.broadcastTx tx) v).channels = [!v] := fun v => Gossip.channels_acknowledge.trans (hchannels v)
  have hrelayed := hpass.trans (run_network C printable (Gossip.run_relay (u := true) (w := false)
    (m := .broadcastTx tx) 0 rfl (hchannels' true)) (by simp [Move.handed]))
  refine ⟨_, hrelayed, rfl, rfl, hchannels', ?_⟩
  simp [update, hempty, couple]

/-- The second node takes the transaction up again, and broadcasts it. -/
theorem run_echoing (hsig : tx.verifySig C = .ok valid) {s : Forwarding Bool}
    (hthreads : s.network.threads = 0) (hchannels : ∀ v, (s.network.nodes v).channels = [!v])
    (hin : s.nodes true = { couple.nodes true with updTransIn := [tx] }) :
    ∃ t, Run (Step C printable) s (echoing tx) t := by
  obtain ⟨t, hreceive, hnet, hout, -⟩ := run_receive C printable tx (u := true)
    (s := s) (fun w => by rw [hthreads]; exact Multiset.notMem_zero _) hsig (by rw [hin])
    (by rw [hin]; rfl) (by rw [hin]; rfl) (by rw [hin]; rfl)
  obtain ⟨t', horiginate, hnet', -⟩ := step_originate C printable tx (u := true)
    (s := t) (by rw [hnet, hthreads]) hout
  have hchannel : (t'.network.nodes true).channels = [false] := by
    rw [hnet', hnet]
    exact Gossip.channels_acknowledge.trans (hchannels true)
  have hwritten : Run (Gossip.Step printable) t'.network _ _ :=
    Gossip.run_broadcast (u := true) (w := false) (m := .broadcastTx tx) 0 (by rw [hnet']; rfl) hchannel
  have hbroadcast := run_network C printable hwritten (by simp [Move.handed])
  exact ⟨_, (hreceive.snoc horiginate).trans hbroadcast⟩

theorem guarded_of_free {ν : Type} [DecidableEq ν] {s t : Forwarding ν}
    {moves : List (ForwardMove ν)} (hrun : Run (Step C printable) s moves t)
    (hfree : ∀ a ∈ moves, ∀ u, a ≠ .network (.originate u (.broadcastTx tx))) :
    Run (Guarded (Step C printable) (BroadcastsNew printable tx)) s moves t :=
  (hrun.guarded_of_forall hfree).mono fun _ _ _ h => ⟨h.1, fun u he => absurd he (h.2 u)⟩

/-- The transaction is published, broadcast and relayed, the threads taking up what is new. -/
theorem run_couple (hsig : tx.verifySig C = .ok valid) : ∃ s,
    Run (Guarded (Step C printable) (BroadcastsNew printable tx)) couple
      (firstRound tx) s ∧
    s.network.threads = 0 ∧ (∀ v, (s.network.nodes v).channels = [!v]) ∧
    s.nodes true = { couple.nodes true with updTransIn := [tx] } := by
  obtain ⟨s₁, hopening, hnet, hout, hrest⟩ := run_opening C printable tx hsig
  obtain ⟨s₂, horiginate, hnet', hrest'⟩ := step_originate C printable tx
    (s := s₁) (u := false) (by rw [hnet]; rfl) hout
  have hchannels : ∀ v, (s₂.network.nodes v).channels = [!v] := fun v => by
    rw [hnet', hnet]
    exact Gossip.channels_acknowledge
  obtain ⟨s₃, hrelaying, hthreads, -, hchannels', hnodes⟩ := run_relaying C printable tx
    (s := s₂) (by rw [hnet']) (by rw [hnet', hnet]; rfl) hchannels
    (by rw [hnet', hnet]; rfl) ((hrest' true (by decide)).trans hrest)
  have hnew : BroadcastsNew printable tx s₁ (.network (.originate false (.broadcastTx tx))) := by
    intro u _
    rw [hnet]
    exact Finset.notMem_empty _
  exact ⟨s₃, ((guarded_of_free C printable tx hopening (by simp [opening])).snoc ⟨horiginate, hnew⟩).trans
    (guarded_of_free C printable tx hrelaying (by simp [relaying])), hthreads, hchannels', hnodes⟩

end

theorem published_once (tx : Transaction) (v : Bool) :
    ((firstRound tx ++ echoing tx).count (.publish v tx) = if v = false then 1 else 0) ∧
    ((firstRound tx).count (.publish v tx) = if v = false then 1 else 0) := by
  cases v <;> simp [firstRound, opening, relaying, echoing]

end Forwarding

theorem no_duplicates_couple : ∃ moves s,
    Run (Guarded (Forwarding.Step walletCrates fun _ => true) (BroadcastsNew (fun _ => true) loan.1))
      couple moves s ∧
    (∀ v, moves.count (.publish v loan.1) = if v = false then 1 else 0) ∧
    writes true false loan.1 moves = 1 ∧ NoDuplicates (fun v => [!v]) loan.1 moves := by
  obtain ⟨s, hrun, -⟩ := run_couple walletCrates (fun _ => true) loan.1
    (verifySig_of_wallet payable_loan.signed)
  refine ⟨firstRound loan.1, s, hrun, fun v => (published_once loan.1 v).2, ?_,
    no_duplicates launched_couple hrun⟩
  simp [writes, firstRound, opening, relaying]

/-- The second node, to which the transaction was sent, writes it back twice. -/
theorem sent_twice : ∃ moves s, Launched (fun v => [!v]) couple ∧
    Run (Forwarding.Step walletCrates fun _ => true) couple moves s ∧
    (∀ v, moves.count (.publish v loan.1) = if v = false then 1 else 0) ∧
    writes true false loan.1 moves = 2 ∧ ¬ NoDuplicates (fun v => [!v]) loan.1 moves := by
  have hsig := verifySig_of_wallet payable_loan.signed
  obtain ⟨s, hrun, hthreads, hchannels, hnodes⟩ := run_couple walletCrates (fun _ => true) loan.1 hsig
  obtain ⟨t, hecho⟩ := run_echoing walletCrates (fun _ => true) loan.1 hsig hthreads hchannels hnodes
  have hpublished : ∀ v, _ := fun v => (published_once loan.1 v).1
  have htwice : writes true false loan.1 (firstRound loan.1 ++ echoing loan.1) = 2 := by
    simp [writes, firstRound, opening, relaying, echoing]
  refine ⟨_, t, launched_couple, (hrun.mono fun _ _ _ h => h.1).trans hecho, hpublished, htwice,
    fun hnone => ?_⟩
  have hle := hnone ⟨false, hpublished⟩ true false
  rw [htwice] at hle
  exact absurd hle (by decide)

end NakamotoNode.Network
