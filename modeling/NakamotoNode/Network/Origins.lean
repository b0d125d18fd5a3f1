import NakamotoNode.Network.Forwarding
import NakamotoNode.Network.Peers

/-! # Where messages come from

Whatever a connection carries was broadcast by a node from which the connections lead there
(`Gossip.origin_of_run`), and what a broadcasting thread takes up was put into its channel by the
threads inside (`Peer.fifo_blockOut` and the like). From the start of a network on, also while the
neighbors are being connected. -/

namespace NakamotoNode.Network
open Foundations Chain Node
set_option autoImplicit false

namespace Gossip
variable {ν : Type}

/-- No message yet; the channels lead to neighbors or are being connected to them. -/
structure Silent (neighbors : ν → List ν) (s : Gossip ν) : Prop where
  channels : ∀ u, ∀ w ∈ (s.nodes u).channels, w ∈ neighbors u
  threads : ∀ T ∈ s.threads, ∃ u w, T = .connecting u w ∧ w ∈ neighbors u
  inFlight : s.inFlight = 0

/-- The channels of `u` lead to `v`, over any number of nodes. -/
def Reaches (neighbors : ν → List ν) (u v : ν) : Prop :=
  Relation.ReflTransGen (fun a b => b ∈ neighbors a) u v

/-- Broadcast by a node that reaches `v`. -/
def From (neighbors : ν → List ν) (moves : List (Move ν)) (v : ν) (m : NetMessage) : Prop :=
  ∃ u, .originate u m ∈ moves ∧ Reaches neighbors u v

/-- What a thread works on was broadcast, and it writes to neighbors. -/
def Sourced (neighbors : ν → List ν) (moves : List (Move ν)) : Thread ν → Prop
  | .connecting u w => w ∈ neighbors u
  | .accepted v m => From neighbors moves v m
  | .passed v m => From neighbors moves v m
  | .relaying v m rest => From neighbors moves v m ∧ ∀ w ∈ rest, w ∈ neighbors v
  | .originated u m => From neighbors moves u m
  | .spawning u m rest => From neighbors moves u m ∧ ∀ w ∈ rest, w ∈ neighbors u
  | .writing u w m => From neighbors moves u m ∧ w ∈ neighbors u

/-- So was what the connections carry. -/
structure Origin (neighbors : ν → List ν) (moves : List (Move ν)) (s : Gossip ν) : Prop where
  channels : ∀ u, ∀ w ∈ (s.nodes u).channels, w ∈ neighbors u
  threads : ∀ T ∈ s.threads, Sourced neighbors moves T
  inFlight : ∀ e ∈ s.inFlight, From neighbors moves e.1 e.2

variable {neighbors : ν → List ν} {moves : List (Move ν)} {u v w : ν} {m : NetMessage} {a : Move ν}

theorem From.mono (h : From neighbors moves v m) (a : Move ν) :
    From neighbors (moves ++ [a]) v m := by
  obtain ⟨u, hu, hreach⟩ := h
  exact ⟨u, List.mem_append_left _ hu, hreach⟩

theorem From.step (h : From neighbors moves v m) (hw : w ∈ neighbors v) :
    From neighbors moves w m := by
  obtain ⟨u, hu, hreach⟩ := h
  exact ⟨u, hu, hreach.tail hw⟩

theorem Sourced.mono {T : Thread ν} (h : Sourced neighbors moves T) (a : Move ν) :
    Sourced neighbors (moves ++ [a]) T := by
  cases T with
  | connecting => exact h
  | accepted | passed | originated => exact From.mono h a
  | relaying | spawning | writing => exact ⟨h.1.mono a, h.2⟩

theorem Origin.mono {s : Gossip ν} (h : Origin neighbors moves s) (a : Move ν) :
    Origin neighbors (moves ++ [a]) s :=
  ⟨h.channels, fun T hT => (h.threads T hT).mono a, fun e he => (h.inFlight e he).mono a⟩

theorem Silent.origin {s : Gossip ν} (h : Silent neighbors s) : Origin neighbors [] s where
  channels := h.channels
  threads := fun T hT => by
    obtain ⟨u, w, rfl, hw⟩ := h.threads T hT
    exact hw
  inFlight := fun e he => by
    rw [h.inFlight] at he
    exact absurd he (Multiset.notMem_zero e)

variable [DecidableEq ν] {printable : Char → Bool} {s t : Gossip ν}

theorem Step.origin (hstep : Step printable s a t) (h : Origin neighbors moves s) :
    Origin neighbors (moves ++ [a]) t := by
  have hchannels : ∀ (v' : ν) (m' : NetMessage), ∀ u,
      ∀ w ∈ (s.acknowledge printable v' m' u).channels, w ∈ neighbors u := by
    intro v' m' u w hw
    rw [channels_acknowledge] at hw
    exact h.channels u w hw
  have h' := h.mono a
  have hthreads := h'.threads
  have hflight := h'.inFlight
  cases hstep with
  | @connect u w rest ht =>
    rw [ht, Multiset.forall_mem_cons] at hthreads
    refine ⟨fun u' w' hw' => ?_, hthreads.2, hflight⟩
    change w' ∈ (s.connect u w u').channels at hw'
    by_cases hu : u' = u
    · subst hu
      rw [Gossip.connect, Function.update_self, List.mem_append, List.mem_singleton] at hw'
      exact hw'.elim (h.channels u' w') fun he => he ▸ hthreads.1
    · rw [Gossip.connect, Function.update_of_ne hu] at hw'
      exact h.channels u' w' hw'
  | @originate u m =>
    have hnew : From neighbors (moves ++ [.originate u m]) u m := ⟨u, by simp, .refl⟩
    exact ⟨hchannels u m, Multiset.forall_mem_cons.mpr ⟨hnew, hthreads⟩, hflight⟩
  | broadcast ht | relay ht =>
    rw [ht, Multiset.forall_mem_cons] at hthreads
    exact ⟨h.channels, Multiset.forall_mem_cons.mpr ⟨⟨hthreads.1, h.channels _⟩, hthreads.2⟩, hflight⟩
  | spawn ht =>
    rw [ht, Multiset.forall_mem_cons] at hthreads
    obtain ⟨⟨hfrom, hws⟩, hrest⟩ := hthreads
    rw [List.forall_mem_cons] at hws
    refine ⟨h.channels, ?_, hflight⟩
    rw [Multiset.forall_mem_cons, Multiset.forall_mem_cons]
    exact ⟨⟨hfrom, hws.2⟩, ⟨hfrom, hws.1⟩, hrest⟩
  | spawned ht | relayed ht =>
    rw [ht, Multiset.forall_mem_cons] at hthreads
    exact ⟨h.channels, hthreads.2, hflight⟩
  | write ht =>
    rw [ht, Multiset.forall_mem_cons] at hthreads
    obtain ⟨⟨hfrom, hw⟩, hrest⟩ := hthreads
    exact ⟨h.channels, hrest, Multiset.forall_mem_cons.mpr ⟨hfrom.step hw, hflight⟩⟩
  | drop hf =>
    rw [hf, Multiset.forall_mem_cons] at hflight
    exact ⟨h.channels, hthreads, hflight.2⟩
  | @accept v m rest hf =>
    rw [hf, Multiset.forall_mem_cons] at hflight
    refine ⟨hchannels v m, fun T hT => ?_, hflight.2⟩
    rcases Multiset.mem_add.mp hT with hT | hT
    · unfold reader at hT
      split at hT
      · rw [Multiset.mem_singleton.mp hT]
        exact hflight.1
      · exact absurd hT (Multiset.notMem_zero T)
    · exact hthreads T hT
  | pass ht =>
    rw [ht, Multiset.forall_mem_cons] at hthreads
    exact ⟨h.channels, Multiset.forall_mem_cons.mpr hthreads, hflight⟩
  | relayTo ht =>
    rw [ht, Multiset.forall_mem_cons] at hthreads
    obtain ⟨⟨hfrom, hws⟩, hrest⟩ := hthreads
    rw [List.forall_mem_cons] at hws
    exact ⟨h.channels, Multiset.forall_mem_cons.mpr ⟨⟨hfrom, hws.2⟩, hrest⟩,
      Multiset.forall_mem_cons.mpr ⟨hfrom.step hws.1, hflight⟩⟩

/-- What a reader passes on was broadcast. -/
theorem Step.from_of_pass (hstep : Step printable s (.pass v m) t) (h : Origin neighbors moves s) :
    From neighbors moves v m := by
  generalize ha : Move.pass v m = a at hstep
  cases hstep with
  | pass ht =>
    obtain ⟨rfl, rfl⟩ := Move.pass.inj ha
    exact h.threads _ (ht ▸ Multiset.mem_cons_self _ _)
  | _ => exact absurd ha (by simp)

theorem origin_of_run {s₀ : Gossip ν} (h₀ : Silent neighbors s₀)
    (hrun : Run (Step printable) s₀ moves s) : Origin neighbors moves s ∧
      ∀ v m, .pass v m ∈ moves → From neighbors moves v m := by
  refine hrun.invariant_labels (I := fun moves s => Origin neighbors moves s ∧
    ∀ v m, .pass v m ∈ moves → From neighbors moves v m) (fun moves s a t hI hstep => ?_)
    ⟨h₀.origin, fun v m hmem => absurd hmem List.not_mem_nil⟩
  refine ⟨hstep.origin hI.1, fun v m hmem => From.mono ?_ a⟩
  rcases List.mem_append.mp hmem with hmem | hmem
  · exact hI.2 v m hmem
  · obtain rfl := List.mem_singleton.mp hmem
    exact hstep.from_of_pass hI.1

end Gossip

/-! ## The channels of a node -/

namespace PeerMove

def passedBlock : PeerMove → Option BlockNode
  | pass (.broadcastBlock block) => some block
  | _ => none

def raisedBlock : PeerMove → Option BlockNode
  | raise block => some block
  | _ => none

def receivedBlock : PeerMove → Option BlockNode
  | addReceived block _ => some block
  | _ => none

def completedBlock : PeerMove → Option BlockNode
  | addOwn block _ => some block
  | _ => none

def sentBlock : PeerMove → Option BlockNode
  | sendBlock block => some block
  | _ => none

def takenBlock : PeerMove → Option BlockNode
  | take (.broadcastBlock block) => some block
  | _ => none

def passedTx : PeerMove → Option Transaction
  | pass (.broadcastTx tx) => some tx
  | _ => none

def receivedTx : PeerMove → Option Transaction
  | receiveTx tx => some tx
  | _ => none

/-- Added to the pool. -/
def addedTx : PeerMove → Option Transaction
  | publish tx => some tx
  | receiveTx tx => some tx
  | _ => none

def sentTx : PeerMove → Option Transaction
  | sendTx tx => some tx
  | _ => none

def sentOutTx : PeerMove → Option Transaction
  | sendOutTx tx => some tx
  | _ => none

def takenTx : PeerMove → Option Transaction
  | take (.broadcastTx tx) => some tx
  | _ => none

def passedBlockId : PeerMove → Option BlockId
  | pass (.requestBlock blockId) => some blockId
  | _ => none

def takenBlockId : PeerMove → Option BlockId
  | take (.requestBlock blockId) => some blockId
  | _ => none

end PeerMove

namespace Peer
open PeerMove
variable {N : Setting}

/-- The block that the receiving thread has taken and not added yet. -/
def raisedBlocks (p : Peer) : List BlockNode :=
  match p.nakamoto.receiver with
  | .raised block => [block]
  | _ => []

theorem receiver_eq {n n' : Nakamoto} {m : Node.Move} (h : Nakamoto.Step N n m n')
    (hm : (∀ block, m ≠ .raise block) ∧ (∀ order, m ≠ .addReceived order) ∧ m ≠ .lower) :
    n'.receiver = n.receiver := by
  cases h with
  | raise => exact absurd rfl (hm.1 _)
  | addReceived => exact absurd rfl (hm.2.1 _)
  | lower => exact absurd rfl hm.2.2
  | _ => rfl

theorem raisedBlocks_mine {p : Peer} {n : Nakamoto} {m : Node.Move}
    (hm : ofMiner m = true) (h : Nakamoto.Step N p.nakamoto m n) :
    ({ p with nakamoto := n } : Peer).raisedBlocks = p.raisedBlocks := by
  unfold raisedBlocks
  dsimp only
  rw [receiver_eq h]
  refine ⟨fun block he => ?_, fun order he => ?_, fun he => ?_⟩ <;> subst he <;>
    exact absurd hm (by simp [ofMiner])

theorem fifo_updBlockIn : Fifo (Step N) passedBlock raisedBlock Peer.updBlockIn := by
  intro p l p' h
  cases h with
  | @pass m => cases m <;> simp [passedBlock, raisedBlock, passed]
  | raise hin => simp [passedBlock, raisedBlock, hin]
  | _ => simp [passedBlock, raisedBlock]

theorem fifo_blockOut : Fifo (Step N) sentBlock takenBlock Peer.blockOut := by
  intro p l p' h
  cases h with
  | @pass m => cases m <;> simp [sentBlock, takenBlock, passed]
  | takeBlock hout => simp [sentBlock, takenBlock, hout]
  | _ => simp [sentBlock, takenBlock]

theorem fifo_ownBlock : Fifo (Step N) completedBlock sentBlock fun p => p.ownBlock.toList := by
  intro p l p' h
  cases h with
  | @pass m => cases m <;> simp [completedBlock, sentBlock, passed]
  | addOwn hsent => simp [completedBlock, sentBlock, hsent]
  | sendBlock hown => simp [completedBlock, sentBlock, hown]
  | _ => simp [completedBlock, sentBlock]

theorem fifo_raisedBlocks : Fifo (Step N) raisedBlock receivedBlock raisedBlocks := by
  intro p l p' h
  cases h with
  | @pass m => cases m <;> simp [raisedBlock, receivedBlock, passed, raisedBlocks]
  | publish h | receiveTx _ h =>
    simp [raisedBlock, receivedBlock, raisedBlocks, receiver_eq h]
  | raise _ h =>
    cases h with
    | raise hidle => simp [raisedBlock, receivedBlock, raisedBlocks, hidle]
  | addReceived hraised h =>
    cases h with
    | addReceived => simp [raisedBlock, receivedBlock, raisedBlocks, hraised]
  | lower h =>
    cases h with
    | lower hadded => simp [raisedBlock, receivedBlock, raisedBlocks, hadded]
  | mine hm _ h => simp [raisedBlock, receivedBlock, raisedBlocks_mine hm h]
  | addOwn _ _ h => simp [raisedBlock, receivedBlock, raisedBlocks, receiver_eq h]
  | _ => simp [raisedBlock, receivedBlock, raisedBlocks]

/-- The blocks on the way from the readers to the chain. -/
def incoming (p : Peer) : List BlockNode := p.raisedBlocks ++ p.updBlockIn

/-- The node's own blocks on the way to the broadcasting thread. -/
def outgoing (p : Peer) : List BlockNode := p.blockOut ++ p.ownBlock.toList

theorem fifo_incoming : Fifo (Step N) passedBlock receivedBlock incoming :=
  fifo_updBlockIn.comp fifo_raisedBlocks

theorem fifo_outgoing : Fifo (Step N) completedBlock takenBlock outgoing :=
  fifo_ownBlock.comp fifo_blockOut

theorem fifo_updTransIn : Fifo (Step N) passedTx receivedTx Peer.updTransIn := by
  intro p l p' h
  cases h with
  | @pass m => cases m <;> simp [passedTx, receivedTx, passed]
  | receiveTx hin => simp [passedTx, receivedTx, hin]
  | _ => simp [passedTx, receivedTx]

theorem bag_added : Bag (Step N) addedTx sentTx Peer.added := by
  intro p l p' h
  cases h with
  | @pass m => cases m <;> simp [addedTx, sentTx, passed]
  | publish | receiveTx => simp [addedTx, sentTx, ← Multiset.singleton_add, add_comm]
  | sendTx hadded => simp [addedTx, sentTx, hadded]
  | _ => simp [addedTx, sentTx]

theorem fifo_transTx : Fifo (Step N) sentTx sentOutTx Peer.transTx := by
  intro p l p' h
  cases h with
  | @pass m => cases m <;> simp [sentTx, sentOutTx, passed]
  | sendOutTx htrans => simp [sentTx, sentOutTx, htrans]
  | _ => simp [sentTx, sentOutTx]

theorem fifo_transOut : Fifo (Step N) sentOutTx takenTx Peer.transOut := by
  intro p l p' h
  cases h with
  | @pass m => cases m <;> simp [sentOutTx, takenTx, passed]
  | takeTx hout => simp [sentOutTx, takenTx, hout]
  | _ => simp [sentOutTx, takenTx]

theorem fifo_blockIds : Fifo (Step N) passedBlockId takenBlockId Peer.blockIds := by
  intro p l p' h
  cases h with
  | @pass m => cases m <;> simp [passedBlockId, takenBlockId, passed]
  | takeBlockId hout => simp [passedBlockId, takenBlockId, hout]
  | _ => simp [passedBlockId, takenBlockId]

end Peer
end NakamotoNode.Network
