import Mathlib.Algebra.BigOperators.Ring.List
import NakamotoNode.Network.Traffic

/-! # What a node counts

`send_msg_count` and `recv_msg_count` of `P2PNetwork`, which `get_status` shows. A thread raises them after
it has accepted or written a message, under another lock than that of the ack set and that of the channels,
so that other threads move in between. When all is counted, the counters are those of the traffic
(`statistics_at_rest`). -/

namespace NakamotoNode.Network
open Foundations Foundations.RustStd Chain Node
set_option autoImplicit false

/-- The fields of `P2PNetwork` that `get_status` reads. -/
structure Statistics where
  sendMsgCount : UInt64
  recvMsgCount : UInt64
  address : NetAddress

namespace Statistics

/-- `get_status`, in the order of a `BTreeMap`. -/
def getStatus (s : Statistics) : List (String × String) :=
  [("#address", "ip: " ++ s.address.ip ++ " port: " ++ toString s.address.port),
    ("#recv_msg", debugNat s.recvMsgCount.toNat), ("#send_msg", debugNat s.sendMsgCount.toNat)]

/-- As `create` makes them. -/
def new (address : NetAddress) : Statistics := ⟨0, 0, address⟩

end Statistics

/-- A thread that has a counter to raise. -/
inductive Uncounted (ν : Type) where
  /-- a reader, the message in the ack set -/
  | received (v : ν) (m : NetMessage)
  /-- a reader that holds the lock of the channels, the message written -/
  | relayed (v : ν)
  /-- a writer that a broadcasting thread has spawned, the message written -/
  | wrote (v : ν)
  deriving DecidableEq

namespace Uncounted
variable {ν : Type} [DecidableEq ν]

/-- The counter is raised. -/
def count : Uncounted ν → (ν → Statistics) → ν → Statistics
  | received v _, stats =>
      Function.update stats v { stats v with recvMsgCount := (stats v).recvMsgCount + 1 }
  | relayed v, stats | wrote v, stats =>
      Function.update stats v { stats v with sendMsgCount := (stats v).sendMsgCount + 1 }

/-- One for `recv_msg_count` of the node. -/
def recv (v : ν) : Uncounted ν → ℕ
  | received u _ => if u = v then 1 else 0
  | _ => 0

/-- One for `send_msg_count` of the node. -/
def send (v : ν) : Uncounted ν → ℕ
  | relayed u | wrote u => if u = v then 1 else 0
  | _ => 0

end Uncounted

/-- What the move leaves to count. -/
def Move.uncounted {ν : Type} : Move ν → Multiset (Uncounted ν)
  | .accept v m => {.received v m}
  | .relayTo v _ _ => {.relayed v}
  | .write v _ _ => {.wrote v}
  | _ => 0

def PeersMove.uncounted {ν : Type} : PeersMove ν → Multiset (Uncounted ν)
  | .network a => a.uncounted
  | .inside _ _ => 0

/-- The node, under the lock of whose channels the move is made. -/
def Move.locks {ν : Type} : Move ν → Option ν
  | .connect v _ | .broadcast v _ | .spawn v _ _ | .relay v _ | .relayTo v _ _ | .finish v _ => some v
  | _ => none

structure Counted (ν : Type) where
  peers : Peers ν
  statistics : ν → Statistics
  uncounted : Multiset (Uncounted ν)

inductive CountedMove (ν : Type) where
  | peers (a : PeersMove ν)
  | count (e : Uncounted ν)

/-- The move of the network. -/
def CountedMove.toPeers {ν : Type} : CountedMove ν → Option (PeersMove ν)
  | peers a => some a
  | count _ => none

namespace Counted
variable {ν : Type} [DecidableEq ν]

/-- A reader counts before it passes the message on, and what it has written before it lets go of the
channels. -/
def Ready (s : Counted ν) : PeersMove ν → Prop
  | .network a => (∀ v m, a = .pass v m → .received v m ∉ s.uncounted) ∧
      ∀ v, a.locks = some v → .relayed v ∉ s.uncounted
  | .inside _ _ => True

inductive Step (N : ν → Setting) (printable : Char → Bool) :
    Counted ν → CountedMove ν → Counted ν → Prop
  | peers {s : Counted ν} {a : PeersMove ν} {peers : Peers ν}
      (h : Peers.Step N printable s.peers a peers) (hready : s.Ready a) :
      Step N printable s (.peers a)
        { s with peers := peers, uncounted := a.uncounted + s.uncounted }
  | count {s : Counted ν} {e : Uncounted ν} {rest : Multiset (Uncounted ν)}
      (h : s.uncounted = e ::ₘ rest) :
      Step N printable s (.count e)
        { s with statistics := e.count s.statistics, uncounted := rest }

variable {N : ν → Setting} {printable : Char → Bool} {neighbors : ν → List ν} {s₀ s t : Counted ν}
  {moves : List (CountedMove ν)} {a : CountedMove ν} {v : ν}

/-- What the nodes do, but for the counting. -/
def traffic (moves : List (CountedMove ν)) : List (PeersMove ν) := moves.filterMap CountedMove.toPeers

theorem run_peers (hrun : Run (Step N printable) s₀ moves s) :
    Run (Peers.Step N printable) s₀.peers (traffic moves) s.peers := by
  obtain ⟨p, hp, rfl⟩ := hrun.simulate (R := fun s p => s.peers = p) CountedMove.toPeers
    (fun s a t p hR h => by
      subst hR
      cases h with
      | peers h => exact ⟨_, Run.single h, rfl⟩
      | count => exact ⟨_, .nil _, rfl⟩) rfl
  exact hp

/-! ## Counting -/

/-- Counted, or left to count. -/
structure Tallied (stats : ν → Statistics) (s : Counted ν) (v : ν) (received sent : ℕ) : Prop where
  address : (s.statistics v).address = (stats v).address
  recv : ∃ n, (s.statistics v).recvMsgCount = .ofNat n ∧
    n + (s.uncounted.map (Uncounted.recv v)).sum = received
  send : ∃ n, (s.statistics v).sendMsgCount = .ofNat n ∧
    n + (s.uncounted.map (Uncounted.send v)).sum = sent

/-- The messages that a node has written to its neighbors. -/
def sent (v : ν) (moves : List (PeersMove ν)) : ℕ :=
  ((moves.filterMap PeersMove.gossip).map (Gossip.sent v fun _ _ => 1)).sum

theorem count_apply (e : Uncounted ν) (stats : ν → Statistics) (v : ν) :
    e.count stats v = { stats v with
      recvMsgCount := (stats v).recvMsgCount + .ofNat (e.recv v)
      sendMsgCount := (stats v).sendMsgCount + .ofNat (e.send v) } := by
  cases e with
  | received u m | relayed u | wrote u =>
    by_cases hu : u = v
    · subst hu
      simp [Uncounted.count, Uncounted.recv, Uncounted.send]
    · simp [Uncounted.count, Uncounted.recv, Uncounted.send, hu, Function.update_of_ne (Ne.symm hu)]

/-- A move leaves to count what it has accepted and written. -/
theorem sum_uncounted (a : PeersMove ν) :
    (a.uncounted.map (Uncounted.recv v)).sum = (Peers.accepted v [a]).length ∧
      (a.uncounted.map (Uncounted.send v)).sum = sent v [a] := by
  cases a with
  | inside => exact ⟨rfl, rfl⟩
  | network a =>
    cases a with
    | accept u m | relayTo u w m | write u w m =>
      by_cases hu : u = v <;> simp [PeersMove.uncounted, Move.uncounted, Uncounted.recv, Uncounted.send,
        Peers.accepted, PeersMove.gossip, Gossip.acceptedAt, List.filterMap_cons, sent, Gossip.sent, hu]
    | _ => exact ⟨rfl, rfl⟩

theorem accepted_append (moves moves' : List (PeersMove ν)) :
    Peers.accepted v (moves ++ moves') = Peers.accepted v moves ++ Peers.accepted v moves' := by
  rw [Peers.accepted, List.filterMap_append, List.filterMap_append]
  rfl

theorem sent_append (moves moves' : List (PeersMove ν)) :
    sent v (moves ++ moves') = sent v moves + sent v moves' := by
  rw [sent, List.filterMap_append, List.map_append, List.sum_append]
  rfl

theorem Step.tallied {stats : ν → Statistics} (hstep : Step N printable s a t)
    (h : Tallied stats s v (Peers.accepted v (traffic moves)).length (sent v (traffic moves))) :
    Tallied stats t v (Peers.accepted v (traffic (moves ++ [a]))).length
      (sent v (traffic (moves ++ [a]))) := by
  obtain ⟨haddress, ⟨r, hr, hrecv⟩, n, hn, hsend⟩ := h
  rw [traffic, filterMap_snoc, ← traffic]
  cases hstep with
  | @peers a =>
    obtain ⟨hrecv', hsend'⟩ := sum_uncounted (v := v) a
    refine ⟨haddress, ⟨r, hr, ?_⟩, n, hn, ?_⟩
    · simp only [CountedMove.toPeers, Option.toList_some, accepted_append, List.length_append, ← hrecv,
        ← hrecv', Multiset.map_add, Multiset.sum_add]
      omega
    · simp only [CountedMove.toPeers, Option.toList_some, sent_append, ← hsend, ← hsend',
        Multiset.map_add, Multiset.sum_add]
      omega
  | @count e rest he =>
    rw [he, Multiset.map_cons, Multiset.sum_cons, ← Nat.add_assoc] at hrecv hsend
    simp only [CountedMove.toPeers, Option.toList_none, List.append_nil]
    refine ⟨?_, ⟨_, ?_, hrecv⟩, _, ?_, hsend⟩ <;> dsimp only <;> rw [count_apply]
    · exact haddress
    · rw [UInt64.ofNat_add, ← hr]
    · rw [UInt64.ofNat_add, ← hn]

/-- A network that is about to send its first message, and has counted none. -/
structure Established (neighbors : ν → List ν) (addresses : ν → NetAddress) (s : Counted ν) : Prop where
  peers : s.peers.Established neighbors
  statistics : ∀ v, s.statistics v = .new (addresses v)
  uncounted : s.uncounted = 0

theorem tallied_of_run {addresses : ν → NetAddress} (h₀ : Established neighbors addresses s₀)
    (hrun : Run (Step N printable) s₀ moves s) (v : ν) :
    Tallied s₀.statistics s v (Peers.accepted v (traffic moves)).length (sent v (traffic moves)) := by
  refine hrun.invariant_labels (I := fun moves s => Tallied s₀.statistics s v
    (Peers.accepted v (traffic moves)).length (sent v (traffic moves)))
    (fun moves s a t hI hstep => hstep.tallied hI) ⟨rfl, ⟨0, ?_, ?_⟩, 0, ?_, ?_⟩
  · rw [h₀.statistics]
    rfl
  · rw [h₀.uncounted]
    rfl
  · rw [h₀.statistics]
    rfl
  · rw [h₀.uncounted]
    rfl

/-- What is left to count may be counted. -/
theorem run_count (peers : Peers ν) (stats : ν → Statistics) (uncounted : Multiset (Uncounted ν)) :
    ∃ counting s, Run (Step N printable) ⟨peers, stats, uncounted⟩ counting s ∧ s.peers = peers ∧
      s.uncounted = 0 ∧ traffic counting = [] := by
  induction uncounted using Multiset.induction generalizing stats with
  | empty => exact ⟨[], _, .nil _, rfl, rfl, rfl⟩
  | cons e rest ih =>
    obtain ⟨counting, s, hrest, hpeers, hnone, htraffic⟩ := ih (e.count stats)
    have hfirst : Run (Step N printable) ⟨peers, stats, e ::ₘ rest⟩ [.count e] _ :=
      Run.single (.count rfl)
    exact ⟨_, s, hfirst.trans hrest, hpeers, hnone, htraffic⟩

/-- Counting is never in the way: what the network does may be counted at once. -/
theorem exists_run (stats : ν → Statistics) {peers peers' : Peers ν} {moves : List (PeersMove ν)}
    (hrun : Run (Peers.Step N printable) peers moves peers') :
    ∃ counting s, Run (Step N printable) ⟨peers, stats, 0⟩ counting s ∧ s.peers = peers' ∧
      s.uncounted = 0 ∧ traffic counting = moves := by
  induction hrun with
  | nil => exact ⟨[], _, .nil _, rfl, rfl, rfl⟩
  | @snoc p p' moves a hrun hstep ih =>
    obtain ⟨counting, s, hcounting, rfl, hnone, htraffic⟩ := ih
    have hready : s.Ready a := by
      cases a with
      | inside => trivial
      | network a => simp [Ready, hnone]
    obtain ⟨more, t, hmore, hpeers, hclear, hsilent⟩ :=
      run_count p' s.statistics (a.uncounted + s.uncounted)
    refine ⟨_, t, (hcounting.snoc (.peers hstep hready)).trans hmore, hpeers, hclear, ?_⟩
    rw [traffic] at htraffic hsilent ⊢
    rw [List.filterMap_append, List.filterMap_append, htraffic, hsilent, List.append_nil]
    rfl

end Counted

open Peers Counted

/-- In every run of an established network, when nothing is left on the way and all is counted,
`get_status` of a node shows how many messages its readers have accepted, and for each neighbor channel
one message sent for each of its own and for each block accepted, and two for each transaction accepted. -/
theorem statistics_at_rest {ν : Type} [DecidableEq ν] {N : ν → Setting} {printable : Char → Bool}
    {neighbors : ν → List ν} {addresses : ν → NetAddress} {s₀ s : Counted ν}
    {moves : List (CountedMove ν)} (h₀ : Counted.Established neighbors addresses s₀)
    (hrun : Run (Counted.Step N printable) s₀ moves s) (hrest : AtRest s.peers)
    (hrest' : TxAtRest s.peers) (hcounted : s.uncounted = 0) (v : ν) :
    (s.statistics v).getStatus =
      [("#address", "ip: " ++ (addresses v).ip ++ " port: " ++ toString (addresses v).port),
        ("#recv_msg", debugNat ((accepted v (traffic moves)).length % 2 ^ 64)),
        ("#send_msg", debugNat ((neighbors v).length * ((own v (traffic moves)).length +
          ((accepted v (traffic moves)).map NetMessage.rounds).sum) % 2 ^ 64))] := by
  obtain ⟨haddress, ⟨r, hr, hrecv⟩, n, hn, hsend⟩ := tallied_of_run h₀ hrun v
  rw [hcounted, Multiset.map_zero, Multiset.sum_zero, Nat.add_zero] at hrecv hsend
  have hall : Gossip.toAll (fun _ _ => 1) (neighbors v) = fun _ => (neighbors v).length := by
    funext m
    simp [Gossip.toAll]
  have hsent : sent v (traffic moves) = (neighbors v).length * ((own v (traffic moves)).length +
      ((accepted v (traffic moves)).map NetMessage.rounds).sum) := by
    rw [sent, sum_sent _ h₀.peers (run_peers hrun) hrest hrest']
    simp only [hall, List.map_const', List.sum_replicate_nat, List.sum_map_mul_right]
    ring
  rw [Statistics.getStatus, haddress, hr, hn, h₀.statistics, hrecv, hsend, hsent]
  rfl

/-- The second node has received the loan once, and sent it twice. -/
theorem statistics_at_rest_loan : ∃ moves s,
    Run (Counted.Step (fun _ => Nakamoto.walletSetting) fun _ => true)
      ⟨Peers.couple, fun _ => .new ⟨"127.0.0.1", 9000⟩, 0⟩ moves s ∧
    AtRest s.peers ∧ TxAtRest s.peers ∧ s.uncounted = 0 ∧
    (s.statistics true).getStatus =
      [("#address", "ip: 127.0.0.1 port: 9000"), ("#recv_msg", "1"), ("#send_msg", "2")] := by
  obtain ⟨moves, s, hrun, hrest, hrest', hown⟩ := run_ownLoan
  obtain ⟨counting, t, hcounting, rfl, hcounted, rfl⟩ :=
    exists_run (fun _ => .new ⟨"127.0.0.1", 9000⟩) hrun
  have hnone : own true (traffic counting) = [] := List.eq_nil_iff_forall_not_mem.mpr fun m hm =>
    absurd ((hown true m).mp hm).1 (by decide)
  have hone : accepted true (traffic counting) = [.broadcastTx loan.1] := by
    refine List.perm_singleton.mp ((List.perm_ext_iff_of_nodup
      (nodup_accepted established_couple hrun) (List.nodup_singleton _)).mpr fun m => ?_)
    rw [List.mem_singleton]
    constructor
    · intro hm
      obtain ⟨u, -, hu, -⟩ := other_of_accepted established_couple hrun hm
      exact ((hown u m).mp hu).2
    · rintro rfl
      refine (accepted_of_own established_couple hrun hrest hrest' ((hown _ _).mpr ⟨rfl, rfl⟩)
        (reaches_couple false true)).resolve_left ?_
      rw [hnone]
      exact List.not_mem_nil
  refine ⟨counting, t, hcounting, hrest, hrest', hcounted, ?_⟩
  rw [statistics_at_rest ⟨established_couple, fun _ => rfl, rfl⟩ hcounting hrest hrest' hcounted true,
    hnone, hone]
  decide

end NakamotoNode.Network
