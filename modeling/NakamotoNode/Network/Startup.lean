import NakamotoNode.Network.Gossip

/-! # Starting a node

`P2PNetwork::create` starts to listen before it connects to its neighbors: one thread for each neighbor
adds a channel, while the readers of the other nodes' connections are at work already. A reader relays a
message over the channels it finds, once. So a neighbor that is connected later gets the messages that are
relayed after that, and none of those before. -/

namespace NakamotoNode.Network
open Foundations Chain
set_option autoImplicit false

/-- A block or a transaction. -/
def NetMessage.broadcast : NetMessage → Bool
  | broadcastBlock _ => true
  | broadcastTx _ => true
  | _ => false

theorem NetMessage.relayed_of_broadcast {m : NetMessage} (h : m.broadcast = true) :
    m.relayed = true := by
  cases m <;> simp_all [broadcast, relayed]

namespace Thread
variable {ν : Type}

/-- A reader of a node that is not done with its message. -/
def ReaderOf (v : ν) (m : NetMessage) : Thread ν → Prop
  | .accepted v' m' => v' = v ∧ m' = m
  | .passed v' m' => v' = v ∧ m' = m
  | .relaying v' m' _ => v' = v ∧ m' = m
  | _ => False

/-- A reader that will still write the message to `w`, if it finds `w` connected. -/
def Owes (v w : ν) (m : NetMessage) : Thread ν → Prop
  | .accepted v' m' => v' = v ∧ m' = m
  | .passed v' m' => v' = v ∧ m' = m
  | .relaying v' m' rest => v' = v ∧ m' = m ∧ w ∈ rest
  | _ => False

theorem Owes.readerOf {v w : ν} {m : NetMessage} {T : Thread ν} (h : T.Owes v w m) :
    T.ReaderOf v m := by
  cases T with
  | accepted | passed => exact h
  | relaying => exact ⟨h.1, h.2.1⟩
  | _ => exact h

end Thread

namespace Gossip
variable {ν : Type}

/-- The node has been started, and nothing has been read: a thread for each neighbor is connecting.
What the other nodes do, and which of their messages are on the way, is left open. -/
structure Starting [DecidableEq ν] (neighbors : List ν) (v : ν) (s : Gossip ν) : Prop where
  ack : (s.nodes v).ack = ∅
  channels : (s.nodes v).channels = []
  connecting : ∀ w, s.threads.count (.connecting v w) = neighbors.count w

/-- The threads that connect to the neighbors have ended. -/
def Connected (v : ν) (s : Gossip ν) : Prop := ∀ w, .connecting v w ∉ s.threads

/-- No reader of the node is at work on a message. -/
def Idle (v : ν) (s : Gossip ν) : Prop := ∀ T ∈ s.threads, ∀ m, ¬ T.ReaderOf v m

/-- Once the neighbors are connected and no relay is in progress, what the node has accepted has been
written to each neighbor. -/
def NoneLost (neighbors : List ν) (v : ν) (moves : List (Move ν)) (s : Gossip ν) : Prop :=
  s.Connected v → s.Idle v → ∀ m, m.broadcast = true → .accept v m ∈ moves →
    ∀ w ∈ neighbors, .relayTo v w m ∈ moves ∨ .write v w m ∈ moves

/-- The reader comes to the channels when all neighbors are connected. -/
def RelaysConnected (v : ν) (s : Gossip ν) (a : Move ν) : Prop :=
  ∀ m, m.broadcast = true → a = .relay v m → s.Connected v

variable [DecidableEq ν] {printable : Char → Bool} {neighbors : List ν} {s t : Gossip ν}
  {a : Move ν} {v w : ν} {m : NetMessage}

/-! ## Steps -/

/-- The neighbors are connected or being connected. -/
def Joining (neighbors : List ν) (v : ν) (s : Gossip ν) : Prop :=
  ∀ w, (s.nodes v).channels.count w + s.threads.count (.connecting v w) = neighbors.count w

theorem count_connect (u w' : ν) : (s.connect u w' v).channels.count w =
    (s.nodes v).channels.count w + if Thread.connecting v w = .connecting u w' then 1 else 0 := by
  by_cases hu : v = u
  · subst hu
    rw [connect, Function.update_self, List.count_append, List.count_singleton]
    by_cases hw : w' = w
    · simp [hw]
    · simp [hw, Ne.symm hw]
  · rw [connect, Function.update_of_ne hu]
    simp [hu]

theorem Step.joining (hstep : Step printable s a t) (h : Joining neighbors v s) :
    Joining neighbors v t := by
  intro w
  rw [← h w]
  cases hstep with
  | connect ht =>
    dsimp only
    rw [ht, Multiset.count_cons, count_connect]
    omega
  | originate => simp [channels_acknowledge]
  | @accept v' m' =>
    rw [channels_acknowledge]
    by_cases hm : m'.relayed = true <;> simp [reader, hm]
  | broadcast ht | spawned ht | pass ht | relay ht | relayed ht | write ht => simp [ht]
  | spawn ht | relayTo ht => simp [ht]
  | drop => rfl

/-- The neighbors have channels when they are connected. -/
theorem Joining.mem_channels (h : Joining neighbors v s) (hconn : s.Connected v)
    (hw : w ∈ neighbors) : w ∈ (s.nodes v).channels := by
  have hcount := h w
  rw [Multiset.count_eq_zero_of_notMem (hconn w), add_zero] at hcount
  exact List.count_pos_iff.mp (hcount ▸ List.count_pos_iff.mpr hw)

/-- A write that a reader owes is made or still owed, if the reader finds the neighbor connected. -/
theorem Step.owed (hstep : Step printable s a t) (hm : m.broadcast = true)
    (hguard : RelaysConnected v s a) (hjoin : Joining neighbors v s) (hw : w ∈ neighbors)
    (h : ∃ T ∈ s.threads, T.Owes v w m) :
    a = .relayTo v w m ∨ ∃ T ∈ t.threads, T.Owes v w m := by
  obtain ⟨T, hT, howes⟩ := h
  cases hstep with
  | connect ht | spawned ht | write ht =>
    rw [ht, Multiset.mem_cons] at hT
    rcases hT with rfl | hT
    · exact howes.elim
    · exact .inr ⟨T, hT, howes⟩
  | originate => exact .inr ⟨T, Multiset.mem_cons_of_mem hT, howes⟩
  | broadcast ht =>
    rw [ht, Multiset.mem_cons] at hT
    rcases hT with rfl | hT
    · exact howes.elim
    · exact .inr ⟨T, Multiset.mem_cons_of_mem hT, howes⟩
  | spawn ht =>
    rw [ht, Multiset.mem_cons] at hT
    rcases hT with rfl | hT
    · exact howes.elim
    · exact .inr ⟨T, Multiset.mem_cons_of_mem (Multiset.mem_cons_of_mem hT), howes⟩
  | drop => exact .inr ⟨T, hT, howes⟩
  | accept => exact .inr ⟨T, Multiset.mem_add.mpr (.inr hT), howes⟩
  | pass ht =>
    rw [ht, Multiset.mem_cons] at hT
    rcases hT with rfl | hT
    · exact .inr ⟨_, Multiset.mem_cons_self _ _, howes⟩
    · exact .inr ⟨T, Multiset.mem_cons_of_mem hT, howes⟩
  | relay ht =>
    rw [ht, Multiset.mem_cons] at hT
    rcases hT with rfl | hT
    · obtain ⟨rfl, rfl⟩ := howes
      have hchannel := hjoin.mem_channels (hguard _ hm rfl) hw
      exact .inr ⟨_, Multiset.mem_cons_self _ _, rfl, rfl, hchannel⟩
    · exact .inr ⟨T, Multiset.mem_cons_of_mem hT, howes⟩
  | relayTo ht =>
    rw [ht, Multiset.mem_cons] at hT
    rcases hT with rfl | hT
    · obtain ⟨rfl, rfl, hrest⟩ := howes
      rcases List.mem_cons.mp hrest with rfl | hrest
      · exact .inl rfl
      · exact .inr ⟨_, Multiset.mem_cons_self _ _, rfl, rfl, hrest⟩
    · exact .inr ⟨T, Multiset.mem_cons_of_mem hT, howes⟩
  | relayed ht =>
    rw [ht, Multiset.mem_cons] at hT
    rcases hT with rfl | hT
    · exact absurd howes.2.2 List.not_mem_nil
    · exact .inr ⟨T, hT, howes⟩

theorem Step.connected (hstep : Step printable s a t) (h : s.Connected v) : t.Connected v := by
  intro w hmem
  apply h w
  cases hstep with
  | connect ht | spawned ht | write ht | relayed ht =>
    rw [ht]
    exact Multiset.mem_cons_of_mem hmem
  | originate | broadcast ht | spawn ht | pass ht | relay ht | relayTo ht => simp_all
  | drop => exact hmem
  | @accept v' m' =>
    by_cases hm : m'.relayed = true <;> simpa [reader, hm] using hmem

/-! ## Runs -/

/-- From a connected node on, every relay comes to all channels. -/
theorem guarded_of_connected {moves : List (Move ν)} (hrun : Run (Step printable) s moves t)
    (h : s.Connected v) : Run (Guarded (Step printable) (RelaysConnected v)) s moves t := by
  have hboth : Run (Guarded (Step printable) (RelaysConnected v)) s moves t ∧ t.Connected v := by
    induction hrun with
    | nil => exact ⟨.nil _, h⟩
    | snoc _ hstep ih =>
      obtain ⟨hrun, hconn⟩ := ih
      exact ⟨hrun.snoc ⟨hstep, fun _ _ _ => hconn⟩, hstep.connected hconn⟩
  exact hboth.1

/-- Each write of an accepted message has been made or is owed. -/
def Kept (neighbors : List ν) (v : ν) (moves : List (Move ν)) (s : Gossip ν) : Prop :=
  ∀ m, m.broadcast = true → .accept v m ∈ moves → ∀ w ∈ neighbors,
    .relayTo v w m ∈ moves ∨ ∃ T ∈ s.threads, T.Owes v w m

theorem Step.kept {moves : List (Move ν)} (hstep : Step printable s a t)
    (hguard : RelaysConnected v s a) (hjoin : Joining neighbors v s)
    (h : Kept neighbors v moves s) : Kept neighbors v (moves ++ [a]) t := by
  intro m hm hacc w hw
  rcases List.mem_append.mp hacc with hacc | hacc
  · rcases h m hm hacc w hw with hmade | howed
    · exact .inl (List.mem_append_left _ hmade)
    · refine (hstep.owed hm hguard hjoin hw howed).imp_left fun ha => ?_
      rw [ha]
      exact List.mem_append_right _ List.mem_cons_self
  · -- the message has just been accepted
    rw [List.mem_singleton] at hacc
    subst hacc
    cases hstep with
    | accept =>
      rw [reader, if_pos (NetMessage.relayed_of_broadcast hm)]
      exact .inr ⟨_, Multiset.mem_add.mpr (.inl (Multiset.mem_singleton_self _)), rfl, rfl⟩

end Gossip

open Gossip

/-- A node that has just been started, among other nodes that do what they like. In every run in which its
readers relay no block and no transaction before all neighbors are connected, each block or transaction
that it accepts is written to every neighbor. -/
theorem none_lost {ν : Type} [DecidableEq ν] {printable : Char → Bool} {neighbors : List ν} {v : ν}
    {s₀ s : Gossip ν} {moves : List (Move ν)} (h₀ : Starting neighbors v s₀)
    (hrun : Run (Guarded (Gossip.Step printable) (RelaysConnected v)) s₀ moves s) :
    NoneLost neighbors v moves s := by
  have hinv := hrun.invariant_labels
    (I := fun moves s => Joining neighbors v s ∧ Kept neighbors v moves s)
    (fun moves s a t hI hstep => ⟨hstep.1.joining hI.1, hstep.1.kept hstep.2 hI.1 hI.2⟩)
    ⟨fun w => by rw [h₀.channels, List.count_nil, Nat.zero_add, h₀.connecting],
      fun m _ hacc => absurd hacc List.not_mem_nil⟩
  intro _ hidle m hm hacc w hw
  rcases hinv.2 m hm hacc w hw with hmade | ⟨T, hT, howes⟩
  · exact .inl hmade
  · exact absurd howes.readerOf (hidle T hT m)

def someBlock : NetMessage := .broadcastBlock BlockNode.genesisBlock

/-- A node with a block on the way to it, before it is connected. -/
def waking : Gossip Bool where
  nodes := fun _ => { ack := ∅, channels := [] }
  threads := {.connecting true false}
  inFlight := {(true, someBlock)}

theorem starting_waking : Starting [false] true waking := by
  refine ⟨rfl, rfl, fun w => ?_⟩
  cases w <;> rfl

theorem none_lost_waking : ∃ moves s,
    Run (Guarded (Gossip.Step fun _ => true) (RelaysConnected true)) waking moves s ∧
    s.Connected true ∧ s.Idle true ∧ .accept true someBlock ∈ moves ∧
    NoneLost [false] true moves s := by
  have hconnect : Run (Guarded (Gossip.Step fun _ => true) (RelaysConnected true)) waking _ _ :=
    Run.single ⟨@Step.connect _ _ _ _ true false 0 rfl, fun _ _ he => by simp at he⟩
  have haccept : Run (Gossip.Step fun _ => true)
      { waking with nodes := waking.connect true false, threads := 0 } _ _ :=
    Run.single (@Step.accept _ _ (fun _ => true) _ true someBlock 0 rfl (Finset.notMem_empty _))
  rw [reader, if_pos (show someBlock.relayed = true from rfl)] at haccept
  have hrelayed := haccept.trans (run_reader (u := true) (w := false) 0 rfl rfl)
  have hrun := hconnect.trans (guarded_of_connected hrelayed fun w => Multiset.notMem_zero _)
  exact ⟨_, _, hrun, fun w => Multiset.notMem_zero _, fun T hT => absurd hT (Multiset.notMem_zero _),
    by simp, none_lost starting_waking hrun⟩

/-- Three nodes in a row, each about to connect to the next. -/
def row : Gossip (Fin 3) where
  nodes := fun _ => { ack := ∅, channels := [] }
  threads := {.connecting 0 1, .connecting 1 2}
  inFlight := 0

/-- The first node is connected and broadcasts a block, which the second relays to nobody, and then
connects to the third. -/
theorem lost_in_row : ∃ moves s,
    Starting [2] 1 row ∧ Run (Gossip.Step fun _ => true) row moves s ∧ s.Connected 1 ∧ s.Quiet ∧
    .accept 1 someBlock ∈ moves ∧ ¬ NoneLost [2] 1 moves s := by
  have hconnect : Run (Gossip.Step fun _ => true) row _ _ :=
    Run.single (@Step.connect _ _ _ _ 0 1 {.connecting 1 2} rfl)
  have horiginate := hconnect.snoc (.originate (u := 0) (m := someBlock) rfl fun w => by simp)
  have hwritten := horiginate.trans (run_broadcast (u := 0) (w := 1) {.connecting 1 2} rfl rfl)
  have haccept := hwritten.snoc
    (@Step.accept _ _ (fun _ => true) _ 1 someBlock 0 rfl (Finset.notMem_empty _))
  rw [reader, if_pos (show someBlock.relayed = true from rfl)] at haccept
  have hpass := haccept.snoc (@Step.pass _ _ _ _ 1 someBlock {.connecting 1 2} rfl)
  have hnobody := hpass.snoc (@Step.relay _ _ _ _ 1 someBlock {.connecting 1 2} rfl)
  have hfinish := hnobody.snoc (@Step.relayed _ _ _ _ 1 someBlock {.connecting 1 2} rfl)
  have hlate := hfinish.snoc (@Step.connect _ _ _ _ 1 2 0 rfl)
  refine ⟨_, _, ⟨rfl, rfl, fun w => ?_⟩, hlate, fun w => Multiset.notMem_zero _, ⟨rfl, rfl⟩, by simp,
    fun hnone => ?_⟩
  · revert w
    decide
  · have hsent := hnone (fun w => Multiset.notMem_zero _)
      (fun T hT => absurd hT (Multiset.notMem_zero _)) someBlock rfl (by simp) 2 List.mem_cons_self
    simp at hsent

end NakamotoNode.Network
