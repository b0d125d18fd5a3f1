import NakamotoNode.Foundations.Channels
import NakamotoNode.Network.Startup
import NakamotoNode.Node.Threads

/-! # A network of nodes

Every node runs the threads of `create_nakamoto` (`Nakamoto`) and those of `P2PNetwork::create`
(`Gossip`), with FIFO channels between them: a reader hands blocks, transactions and block ids to the
threads inside, and these hand what the node mines or publishes to the broadcasting threads. A move of
the network is one at a single node, and what it does there is a `Peer.Step`, so that every run of the
network is a run of each node by itself (`Peers.run_at`). -/

namespace NakamotoNode.Network
open Foundations Chain Node
set_option autoImplicit false

/-- The threads of a node, and what is in the channels between them. -/
structure Peer where
  nakamoto : Nakamoto
  /-- `upd_block_in_rx` -/
  updBlockIn : List BlockNode
  /-- of the miner thread, between `add_block` and the channel -/
  ownBlock : Option BlockNode
  /-- `block_out_tx` -/
  blockOut : List BlockNode
  /-- `upd_trans_in_rx` -/
  updTransIn : List Transaction
  /-- of the receiving thread and of clients, between `add_tx` and the channel -/
  added : Multiset Transaction
  /-- `trans_tx` -/
  transTx : List Transaction
  /-- `trans_out_tx` -/
  transOut : List Transaction
  /-- `req_block_id_out_tx`, to which the readers send as well -/
  blockIds : List BlockId

/-- What a thread of a node does, as far as channels go. -/
inductive PeerMove where
  /-- of a reader: what the message carries goes to a channel -/
  | pass (m : NetMessage)
  /-- of a broadcasting thread: it takes what the message carries -/
  | take (m : NetMessage)
  /-- `publish_tx`: `add_tx` -/
  | publish (tx : Transaction)
  /-- of the thread that receives transactions: `recv` and `add_tx` -/
  | receiveTx (tx : Transaction)
  /-- of both: `send` to `trans_tx` -/
  | sendTx (tx : Transaction)
  /-- of the sending thread: from `trans_tx` to `trans_out_tx` -/
  | sendOutTx (tx : Transaction)
  /-- of the thread that receives blocks -/
  | raise (block : BlockNode)
  | addReceived (block : BlockNode) (order : IterOrder)
  | lower
  /-- of the miner thread, but for its own block -/
  | mine (m : Node.Move)
  | addOwn (block : BlockNode) (order : IterOrder)
  | sendBlock (block : BlockNode)

namespace PeerMove

/-- The moves of the miner thread before it has a solution. -/
def ofMiner : Node.Move → Bool
  | .wake | .readExcluding | .filter | .refresh _ | .readWorking | .readPending | .createPuzzle
  | .solve | .tick _ | .join => true
  | _ => false

/-- The other end of the channel is a thread of `P2PNetwork`. -/
def ofNetwork : PeerMove → Bool
  | pass _ => true
  | take _ => true
  | _ => false

end PeerMove

namespace Peer

/-- The reader's `match` on the message. -/
def passed (p : Peer) : NetMessage → Peer
  | .broadcastBlock block => { p with updBlockIn := p.updBlockIn ++ [block] }
  | .broadcastTx tx => { p with updTransIn := p.updTransIn ++ [tx] }
  | .requestBlock blockId => { p with blockIds := p.blockIds ++ [blockId] }
  | .unknown _ => p

inductive Step (N : Setting) : Peer → PeerMove → Peer → Prop
  | pass {p : Peer} {m : NetMessage} : Step N p (.pass m) (p.passed m)
  | takeBlock {p : Peer} {block : BlockNode} {rest : List BlockNode}
      (h : p.blockOut = block :: rest) :
      Step N p (.take (.broadcastBlock block)) { p with blockOut := rest }
  | takeTx {p : Peer} {tx : Transaction} {rest : List Transaction}
      (h : p.transOut = tx :: rest) :
      Step N p (.take (.broadcastTx tx)) { p with transOut := rest }
  | takeBlockId {p : Peer} {blockId : BlockId} {rest : List BlockId}
      (h : p.blockIds = blockId :: rest) :
      Step N p (.take (.requestBlock blockId)) { p with blockIds := rest }
  | publish {p : Peer} {tx : Transaction} {nakamoto : Nakamoto}
      (h : Nakamoto.Step N p.nakamoto (.addTx tx) nakamoto) :
      Step N p (.publish tx) { p with nakamoto := nakamoto, added := tx ::ₘ p.added }
  | receiveTx {p : Peer} {tx : Transaction} {rest : List Transaction} {nakamoto : Nakamoto}
      (hin : p.updTransIn = tx :: rest) (h : Nakamoto.Step N p.nakamoto (.addTx tx) nakamoto) :
      Step N p (.receiveTx tx)
        { p with nakamoto := nakamoto, updTransIn := rest, added := tx ::ₘ p.added }
  | sendTx {p : Peer} {tx : Transaction} {rest : Multiset Transaction}
      (h : p.added = tx ::ₘ rest) :
      Step N p (.sendTx tx) { p with added := rest, transTx := p.transTx ++ [tx] }
  | sendOutTx {p : Peer} {tx : Transaction} {rest : List Transaction}
      (h : p.transTx = tx :: rest) :
      Step N p (.sendOutTx tx) { p with transTx := rest, transOut := p.transOut ++ [tx] }
  | raise {p : Peer} {block : BlockNode} {rest : List BlockNode} {nakamoto : Nakamoto}
      (hin : p.updBlockIn = block :: rest)
      (h : Nakamoto.Step N p.nakamoto (.raise block) nakamoto) :
      Step N p (.raise block) { p with nakamoto := nakamoto, updBlockIn := rest }
  | addReceived {p : Peer} {block : BlockNode} {order : IterOrder} {nakamoto : Nakamoto}
      (hraised : p.nakamoto.receiver = .raised block)
      (h : Nakamoto.Step N p.nakamoto (.addReceived order) nakamoto) :
      Step N p (.addReceived block order) { p with nakamoto := nakamoto }
  | lower {p : Peer} {nakamoto : Nakamoto} (h : Nakamoto.Step N p.nakamoto .lower nakamoto) :
      Step N p .lower { p with nakamoto := nakamoto }
  | mine {p : Peer} {m : Node.Move} {nakamoto : Nakamoto} (hm : PeerMove.ofMiner m = true)
      (hsent : p.ownBlock = none) (h : Nakamoto.Step N p.nakamoto m nakamoto) :
      Step N p (.mine m) { p with nakamoto := nakamoto }
  | addOwn {p : Peer} {preBlock : BlockNode} {mark : ℕ} {foundAt : Option ℕ}
      {solution : PuzzleSolution} {order : IterOrder} {nakamoto : Nakamoto}
      (hsent : p.ownBlock = none)
      (hsolved : p.nakamoto.miner = .solved preBlock mark foundAt solution)
      (h : Nakamoto.Step N p.nakamoto (.addOwn order) nakamoto) :
      Step N p (.addOwn (completed preBlock solution) order)
        { p with nakamoto := nakamoto, ownBlock := some (completed preBlock solution) }
  | sendBlock {p : Peer} {block : BlockNode} (h : p.ownBlock = some block) :
      Step N p (.sendBlock block)
        { p with ownBlock := none, blockOut := p.blockOut ++ [block] }

/-- A node as `create_nakamoto` starts it with a new chain and a new pool. -/
def fresh : Peer where
  nakamoto := Nakamoto.fresh
  updBlockIn := []
  ownBlock := none
  blockOut := []
  updTransIn := []
  added := 0
  transTx := []
  transOut := []
  blockIds := []

end Peer

/-! ## The network -/

structure Peers (ν : Type) where
  network : Gossip ν
  nodes : ν → Peer

inductive PeersMove (ν : Type) where
  | network (a : Move ν)
  | inside (v : ν) (l : PeerMove)

/-- What a move of the network does to the channels of the node. -/
def Move.exchange {ν : Type} : Move ν → Option (ν × PeerMove)
  | .originate u m => some (u, .take m)
  | .pass v m => some (v, .pass m)
  | _ => none

namespace PeersMove
variable {ν : Type}

/-- The node that the move is at, and what it does there. -/
def place : PeersMove ν → Option (ν × PeerMove)
  | network a => a.exchange
  | inside v l => some (v, l)

def gossip : PeersMove ν → Option (Move ν)
  | network a => some a
  | inside _ _ => none

end PeersMove

namespace Peers
variable {ν : Type} [DecidableEq ν]

/-- What the move does at the node `v`. -/
def atNode (v : ν) (a : PeersMove ν) : Option PeerMove :=
  a.place.bind fun e => if e.1 = v then some e.2 else none

inductive Step (N : ν → Setting) (printable : Char → Bool) : Peers ν → PeersMove ν → Peers ν → Prop
  | network {s : Peers ν} {a : Move ν} {network : Gossip ν}
      (h : Gossip.Step printable s.network a network) (ha : a.exchange = none) :
      Step N printable s (.network a) { s with network := network }
  | exchange {s : Peers ν} {a : Move ν} {v : ν} {l : PeerMove} {network : Gossip ν} {p : Peer}
      (h : Gossip.Step printable s.network a network) (ha : a.exchange = some (v, l))
      (hnode : Peer.Step (N v) (s.nodes v) l p) :
      Step N printable s (.network a)
        { network := network, nodes := Function.update s.nodes v p }
  | inside {s : Peers ν} {v : ν} {l : PeerMove} {p : Peer} (hcreated : s.network.Connected v)
      (hl : l.ofNetwork = false) (hnode : Peer.Step (N v) (s.nodes v) l p) :
      Step N printable s (.inside v l) { s with nodes := Function.update s.nodes v p }

variable {N : ν → Setting} {printable : Char → Bool} {s t : Peers ν} {a : PeersMove ν} {v : ν}

theorem atNode_eq_some {l : PeerMove} : atNode v a = some l ↔ a.place = some (v, l) := by
  rw [atNode, Option.bind_eq_some_iff]
  constructor
  · rintro ⟨⟨u, l'⟩, he, hl⟩
    split at hl
    · next hu =>
      obtain rfl : u = v := hu
      obtain rfl := Option.some.inj hl
      exact he
    · exact absurd hl (by simp)
  · intro he
    exact ⟨(v, l), he, if_pos rfl⟩

theorem Step.gossip (h : Step N printable s a t) :
    Run (Gossip.Step printable) s.network a.gossip.toList t.network := by
  cases h with
  | network h => exact Run.single h
  | exchange h => exact Run.single h
  | inside => exact .nil _

/-- A node moves as one by itself, or not at all. -/
theorem Step.node (h : Step N printable s a t) (v : ν) :
    Run (Peer.Step (N v)) (s.nodes v) (atNode v a).toList (t.nodes v) := by
  cases h with
  | network _ ha =>
    rw [atNode, show PeersMove.place (.network _) = none from ha]
    exact .nil _
  | exchange _ ha hnode =>
    rw [atNode, show PeersMove.place (.network _) = some _ from ha]
    exact Run.update (S := fun v => Peer.Step (N v)) hnode v
  | inside _ _ hnode => exact Run.update (S := fun v => Peer.Step (N v)) hnode v

/-! ## Runs -/

section Runs
variable {s₀ : Peers ν} {moves : List (PeersMove ν)}

theorem run_network (hrun : Run (Step N printable) s₀ moves s) :
    Run (Gossip.Step printable) s₀.network (moves.filterMap PeersMove.gossip) s.network := by
  obtain ⟨n, hn, rfl⟩ := hrun.simulate (R := fun s n => s.network = n) PeersMove.gossip
    (fun _ _ _ _ hR h => ⟨_, hR ▸ h.gossip, rfl⟩) rfl
  exact hn

/-- Each node runs as one by itself. -/
theorem run_at (hrun : Run (Step N printable) s₀ moves s) (v : ν) :
    Run (Peer.Step (N v)) (s₀.nodes v) (moves.filterMap (atNode v)) (s.nodes v) := by
  obtain ⟨p, hp, rfl⟩ := hrun.simulate (R := fun s p => s.nodes v = p) (atNode v)
    (fun _ _ _ _ hR h => ⟨_, hR ▸ h.node v, rfl⟩) rfl
  exact hp

end Runs

end Peers
end NakamotoNode.Network
