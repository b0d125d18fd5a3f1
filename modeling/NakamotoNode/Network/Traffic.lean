import NakamotoNode.Network.Transactions

/-! # What is written to the connections

A node writes to each neighbor what it broadcasts and what its readers accept. What is accepted was made
by another node, and comes once. A transaction that is accepted is broadcast as well, after the readers have
relayed it, so that a block goes over a connection once and a transaction twice (`message_traffic`). -/

namespace NakamotoNode.Network
open Foundations Foundations.RustStd Chain Chain.BlockTree Node
set_option autoImplicit false

/-! ## What is begun and what is written -/

namespace Gossip
variable {ν : Type} [DecidableEq ν] {printable : Char → Bool} {neighbors : ν → List ν}
  {s t : Gossip ν} {a : Move ν} {v w : ν} {m : NetMessage} {weight : ν → NetMessage → ℕ}

/-- The weight of a message to all of `ws`. -/
def toAll (weight : ν → NetMessage → ℕ) (ws : List ν) (m : NetMessage) : ℕ :=
  (ws.map fun w => weight w m).sum

/-- What a thread of `v` has still to write. -/
def unsent (neighbors : ν → List ν) (v : ν) (weight : ν → NetMessage → ℕ) : Thread ν → ℕ
  | .connecting _ _ => 0
  | .accepted u m | .passed u m | .originated u m =>
      if u = v then toAll weight (neighbors v) m else 0
  | .relaying u m rest | .spawning u m rest => if u = v then toAll weight rest m else 0
  | .writing u w m => if u = v then weight w m else 0

def unsentBy (neighbors : ν → List ν) (v : ν) (weight : ν → NetMessage → ℕ)
    (threads : Multiset (Thread ν)) : ℕ :=
  (threads.map (unsent neighbors v weight)).sum

/-- What a move of `v` writes to a connection. -/
def sent (v : ν) (weight : ν → NetMessage → ℕ) : Move ν → ℕ
  | .relayTo u w m | .write u w m => if u = v then weight w m else 0
  | _ => 0

/-- What a move of `v` sets a thread to write. -/
def begun (neighbors : ν → List ν) (v : ν) (weight : ν → NetMessage → ℕ) : Move ν → ℕ
  | .originate u m => if u = v then toAll weight (neighbors v) m else 0
  | .accept u m => if u = v ∧ m.relayed = true then toAll weight (neighbors v) m else 0
  | _ => 0

section
omit [DecidableEq ν]

@[simp] theorem toAll_nil : toAll weight [] m = 0 := rfl

@[simp] theorem toAll_cons (ws : List ν) :
    toAll weight (w :: ws) m = weight w m + toAll weight ws m := by
  simp [toAll]

theorem toAll_perm {ws ws' : List ν} (h : ws.Perm ws') : toAll weight ws m = toAll weight ws' m :=
  (h.map _).sum_nat

end

@[simp] theorem unsentBy_cons (T : Thread ν) (rest : Multiset (Thread ν)) :
    unsentBy neighbors v weight (T ::ₘ rest) =
      unsent neighbors v weight T + unsentBy neighbors v weight rest := by
  simp [unsentBy]

theorem unsentBy_reader_add (u : ν) (rest : Multiset (Thread ν)) :
    unsentBy neighbors v weight (reader u m + rest) =
      begun neighbors v weight (.accept u m) + unsentBy neighbors v weight rest := by
  by_cases hm : m.relayed = true <;> simp [unsentBy, reader, begun, unsent, hm]

theorem Step.sent_add_unsentBy (hstep : Step printable s a t)
    (hchannels : ∀ u, (s.nodes u).channels.Perm (neighbors u)) :
    sent v weight a + unsentBy neighbors v weight t.threads =
      begun neighbors v weight a + unsentBy neighbors v weight s.threads := by
  have hall : ∀ u m, toAll weight (s.nodes u).channels m = toAll weight (neighbors u) m :=
    fun u m => toAll_perm (hchannels u)
  cases hstep with
  | connect ht | spawned ht | relayed ht => simp [sent, begun, ht, unsent]
  | originate => simp [sent, begun, unsent]
  | broadcast ht | relay ht =>
    simp only [sent, begun, ht, unsentBy_cons, unsent, hall]
    split
    · next hu => rw [hu]
    · rfl
  | spawn ht =>
    simp only [sent, begun, ht, unsentBy_cons, unsent, toAll_cons]
    split <;> omega
  | write ht => simp [sent, begun, ht, unsent]
  | drop => simp [sent, begun]
  | accept => simp [sent, unsentBy_reader_add]
  | pass ht => simp [sent, begun, ht, unsent]
  | relayTo ht =>
    simp only [sent, begun, ht, unsentBy_cons, unsent, toAll_cons]
    split <;> omega

/-- A quiet node has written what it was set to write. -/
theorem sent_eq_begun {s₀ : Gossip ν} {moves : List (Move ν)} (h₀ : Established neighbors s₀)
    (hrun : Run (Step printable) s₀ moves s) (hquiet : s.Quiet) :
    (moves.map (sent v weight)).sum = (moves.map (begun neighbors v weight)).sum := by
  have hguarded := hrun.guarded_of_first (P := fun s => ∃ F, Simulates printable neighbors s F)
    (fun s a t hF hstep => by
      obtain ⟨F, hF⟩ := hF
      obtain ⟨F', -, hF'⟩ := hstep.simulates hF
      exact ⟨F', hF'⟩) ⟨_, h₀.simulates⟩
  have hkept : ∀ s a t, Guarded (Step printable) (fun s _ => ∃ F, Simulates printable neighbors s F)
      s a t → sent v weight a + unsentBy neighbors v weight t.threads =
        begun neighbors v weight a + unsentBy neighbors v weight s.threads := by
    rintro s a t ⟨hstep, F, hF⟩
    exact hstep.sent_add_unsentBy hF.channels
  have hbalance := hguarded.balance hkept
  simpa [unsentBy, h₀.threads, hquiet.1] using hbalance

/-- What the broadcasting threads of the node have taken up. -/
def originatedAt (v : ν) : Move ν → Option NetMessage
  | .originate u m => if u = v then some m else none
  | _ => none

/-- What the readers of the node have accepted. -/
def acceptedAt (v : ν) : Move ν → Option NetMessage
  | .accept u m => if u = v then some m else none
  | _ => none

theorem count_originatedAt (moves : List (Move ν)) (v : ν) (m : NetMessage) :
    (moves.filterMap (originatedAt v)).count m = moves.count (.originate v m) := by
  rw [List.count_filterMap, List.count]
  refine List.countP_congr fun a _ => ?_
  cases a <;> simp [originatedAt]

theorem count_acceptedAt (moves : List (Move ν)) (v : ν) (m : NetMessage) :
    (moves.filterMap (acceptedAt v)).count m = moves.count (.accept v m) := by
  rw [List.count_filterMap, List.count]
  refine List.countP_congr fun a _ => ?_
  cases a <;> simp [acceptedAt]

theorem sum_begun (moves : List (Move ν)) : (moves.map (begun neighbors v weight)).sum =
    ((moves.filterMap (originatedAt v)).map (toAll weight (neighbors v))).sum +
    (((moves.filterMap (acceptedAt v)).filter NetMessage.relayed).map
      (toAll weight (neighbors v))).sum := by
  induction moves with
  | nil => rfl
  | cons a moves ih =>
    rw [List.map_cons, List.sum_cons, ih, List.filterMap_cons, List.filterMap_cons]
    cases a with
    | originate u m =>
      by_cases hu : u = v <;> simp [begun, originatedAt, acceptedAt, hu, Nat.add_assoc]
    | accept u m =>
      by_cases hu : u = v <;> by_cases hm : m.relayed = true <;>
        simp [begun, originatedAt, acceptedAt, hu, hm, Nat.add_left_comm]
    | _ => simp [begun, originatedAt, acceptedAt]

/-- When a node is quiet, the readers have passed on what they have accepted. -/
theorem count_pass_of_quiet {s₀ : Gossip ν} {moves : List (Move ν)} (h₀ : Established neighbors s₀)
    (hrun : Run (Step printable) s₀ moves s) (hquiet : s.Quiet) (hm : m.relayed = true) :
    moves.count (.pass v m) = moves.count (.accept v m) := by
  have hcount := congrArg (Multiset.count (.pass v m)) (dues_of_run h₀ hrun)
  rw [Multiset.count_add, count_made rfl, count_promised rfl, hquiet.1] at hcount
  have honce : (promised neighbors (.accept v m)).count (.pass v m) = 1 := by
    simp [promised, reader, hm, dues, due, relays, List.count_eq_zero]
  rw [honce, Nat.mul_one] at hcount
  simpa [dues] using hcount

end Gossip

/-! ## What a node has of its own -/

/-- What a client publishes or the miner thread completes. -/
def PeerMove.ownMessage : PeerMove → Option NetMessage
  | publish tx => some (.broadcastTx tx)
  | addOwn block _ => some (.broadcastBlock block)
  | _ => none

def NetMessage.isTx : NetMessage → Bool
  | broadcastTx _ => true
  | _ => false

/-- How often a node sends on what it accepts: a transaction is relayed, and goes through the channel of
the published ones. -/
def NetMessage.rounds (m : NetMessage) : ℕ := if m.isTx then 2 else 1

theorem ownMessage_eq_some {l : PeerMove} {m : NetMessage} : l.ownMessage = some m ↔
    (∃ tx, l = .publish tx ∧ m = .broadcastTx tx) ∨
    ∃ block order, l = .addOwn block order ∧ m = .broadcastBlock block := by
  cases l <;> simp [PeerMove.ownMessage, eq_comm]

/-- What a broadcasting thread takes is the node's own, or a reader has passed it on. -/
theorem own_or_passed_of_take {N : Setting} {p : Peer} {moves : List PeerMove} {m : NetMessage}
    (hrun : Run (Peer.Step N) Peer.fresh moves p) (h : .take m ∈ moves) :
    m ∈ moves.filterMap PeerMove.ownMessage ∨ .pass m ∈ moves := by
  cases m with
  | broadcastBlock block =>
    obtain ⟨order, hown⟩ := mined_of_take hrun h
    exact .inl (List.mem_filterMap.mpr ⟨_, hown, rfl⟩)
  | broadcastTx tx =>
    obtain ⟨l, hl, htx⟩ := added_of_take hrun h
    rcases addedTx_eq_some.mp htx with rfl | rfl
    · exact .inl (List.mem_filterMap.mpr ⟨_, hl, rfl⟩)
    · obtain ⟨l, hl, htx⟩ := Peer.fifo_updTransIn.mem_put_of_take hrun rfl hl rfl
      rw [Peers.passedTx_eq_some.mp htx] at hl
      exact .inr hl
  | requestBlock blockId =>
    obtain ⟨l, hl, hid⟩ := Peer.fifo_blockIds.mem_put_of_take hrun rfl h rfl
    rcases l with ⟨_ | _ | blockId' | _⟩ | _ <;> simp [PeerMove.passedBlockId] at hid
    subst hid
    exact .inr hl
  | unknown text =>
    obtain ⟨_, _, _, -, -, hstep⟩ := hrun.step_of_mem h
    cases hstep

namespace Peers
variable {ν : Type} [DecidableEq ν] {N : ν → Setting} {printable : Char → Bool}
  {neighbors : ν → List ν} {s₀ s : Peers ν} {moves : List (PeersMove ν)} {u v w : ν}
  {m : NetMessage}

/-- The transactions that clients of the node have published, and the blocks it has mined. -/
def own (v : ν) (moves : List (PeersMove ν)) : List NetMessage :=
  (history v moves).filterMap PeerMove.ownMessage

/-- The messages that readers of the node have accepted. -/
def accepted (v : ν) (moves : List (PeersMove ν)) : List NetMessage :=
  (moves.filterMap PeersMove.gossip).filterMap (Gossip.acceptedAt v)

/-- The messages that broadcasting threads of the node have taken up. -/
def originated (v : ν) (moves : List (PeersMove ν)) : List NetMessage :=
  (moves.filterMap PeersMove.gossip).filterMap (Gossip.originatedAt v)

/-- How often the node has written the message to the neighbor. -/
def written (v w : ν) (m : NetMessage) (moves : List (PeersMove ν)) : ℕ :=
  (moves.filterMap PeersMove.gossip).countP fun a =>
    decide (a = .relayTo v w m ∨ a = .write v w m)

theorem mem_originated_iff_take (hrun : Run (Step N printable) s₀ moves s) :
    m ∈ originated v moves ↔ .take m ∈ history v moves := by
  rw [originated, ← List.count_pos_iff, Gossip.count_originatedAt, List.count_pos_iff]
  constructor
  · exact history_of_exchange rfl
  · intro h
    obtain ⟨a, ha, hmem⟩ := exchange_of_history hrun rfl h
    cases a <;> simp [Move.exchange] at ha
    obtain ⟨rfl, rfl⟩ := ha
    exact hmem

theorem mem_accepted : m ∈ accepted v moves ↔ .accept v m ∈ moves.filterMap PeersMove.gossip := by
  rw [accepted, ← List.count_pos_iff, Gossip.count_acceptedAt, List.count_pos_iff]

theorem own_mono {moves' : List (PeersMove ν)} (h : moves <+: moves') (hm : m ∈ own v moves) :
    m ∈ own v moves' :=
  ((h.filterMap (atNode v)).filterMap PeerMove.ownMessage).subset hm

/-- Whatever is broadcast, a node whose own it is has broadcast it. -/
theorem owner_of_take (h₀ : Started neighbors s₀) (hrun : Run (Step N printable) s₀ moves s) :
    ∀ u, .take m ∈ history u moves →
      ∃ w, .take m ∈ history w moves ∧ m ∈ own w moves ∧ Gossip.Reaches neighbors w u := by
  induction hrun with
  | nil => exact fun u h => absurd h List.not_mem_nil
  | @snoc s t moves a hrun hstep ih =>
    have hgrow : ∀ u, (∃ w, .take m ∈ history w moves ∧ m ∈ own w moves ∧
        Gossip.Reaches neighbors w u) → ∃ w, .take m ∈ history w (moves ++ [a]) ∧
          m ∈ own w (moves ++ [a]) ∧ Gossip.Reaches neighbors w u := by
      rintro u ⟨w, htake, hown, hreach⟩
      refine ⟨w, ?_, own_mono (List.prefix_append _ _) hown, hreach⟩
      rw [history_snoc]
      exact List.mem_append_left _ htake
    intro u htake
    rcases own_or_passed_of_take (run_history h₀ (hrun.snoc hstep) u) htake with hown | hpass
    · exact ⟨u, htake, hown, .refl⟩
    rw [history_snoc] at htake hpass
    rcases List.mem_append.mp htake with htake | htake
    · exact hgrow u (ih u htake)
    · -- the move takes the message up, so that it was passed on before
      have ha := Option.mem_toList.mp htake
      rw [ha] at hpass
      obtain ⟨w, hw, hreach⟩ := taken_of_passed h₀ hrun
        ((List.mem_append.mp hpass).resolve_right (by simp))
      obtain ⟨w', hw', hown, hreach'⟩ := ih w hw
      exact hgrow u ⟨w', hw', hown, hreach'.trans hreach⟩

/-- A node accepts what another has made. -/
theorem other_of_accepted (h₀ : Established neighbors s₀) (hrun : Run (Step N printable) s₀ moves s)
    (hm : m ∈ accepted v moves) :
    ∃ u, u ≠ v ∧ m ∈ own u moves ∧ Gossip.Reaches neighbors u v := by
  obtain ⟨a, hmem, ha⟩ := List.mem_filterMap.mp (mem_accepted.mp hm)
  cases a <;> simp [PeersMove.gossip] at ha
  subst ha
  obtain ⟨before, r, t, hprefix, hbefore, hstep⟩ := hrun.step_of_mem hmem
  have haccept := hstep.gossip.cons_inv
  obtain ⟨net, haccept, -⟩ := haccept
  cases haccept with
  | accept hflight hack =>
    obtain ⟨u, hu, hreach⟩ := (Gossip.origin_of_run h₀.started.network (run_network hbefore)).1.inFlight
      (v, m) (by rw [hflight]; exact Multiset.mem_cons_self _ _)
    obtain ⟨w, htake, hown, hreach'⟩ := owner_of_take h₀.started hbefore u (history_of_exchange rfl hu)
    refine ⟨w, ?_, own_mono ((List.prefix_append _ _).trans hprefix) hown, hreach'.trans hreach⟩
    -- the ack set has what the node itself has broadcast
    rintro rfl
    obtain ⟨F, hF, hsim⟩ := Gossip.floods_of_run h₀.network (run_network hbefore)
    apply hack
    rw [← hsim.seen, Gossip.seen_iff hF]
    refine .inl ?_
    rw [← List.count_pos_iff, ← Gossip.count_originatedAt, List.count_pos_iff]
    exact (mem_originated_iff_take hbefore).mpr htake

theorem broadcast_of_own (h : m ∈ own v moves) : m.broadcast = true := by
  obtain ⟨l, -, hl⟩ := List.mem_filterMap.mp h
  rcases ownMessage_eq_some.mp hl with ⟨tx, -, rfl⟩ | ⟨block, order, -, rfl⟩ <;> rfl

theorem nodup_accepted (h₀ : Established neighbors s₀) (hrun : Run (Step N printable) s₀ moves s) :
    (accepted v moves).Nodup := by
  rw [List.nodup_iff_count_le_one]
  intro m
  obtain ⟨F, hF, -⟩ := Gossip.floods_of_run h₀.network (run_network hrun)
  rw [accepted, Gossip.count_acceptedAt, ← Gossip.count_flooding]
  exact Flood.accept_count_le hF

/-! ## What a node broadcasts -/

theorem count_addedTx (ls : List PeerMove) (tx : Transaction) :
    (ls.filterMap PeerMove.addedTx).count tx =
      (ls.filterMap PeerMove.ownMessage).count (.broadcastTx tx) +
        (ls.filterMap PeerMove.receivedTx).count tx := by
  induction ls with
  | nil => rfl
  | cons l ls ih =>
    rw [List.filterMap_cons, List.filterMap_cons, List.filterMap_cons]
    cases l with
    | publish tx' =>
      simp only [PeerMove.addedTx, PeerMove.ownMessage, PeerMove.receivedTx, List.count_cons, ih,
        beq_iff_eq, NetMessage.broadcastTx.injEq]
      omega
    | receiveTx tx' =>
      simp only [PeerMove.addedTx, PeerMove.ownMessage, PeerMove.receivedTx, List.count_cons, ih]
      omega
    | _ => simpa [PeerMove.addedTx, PeerMove.ownMessage, PeerMove.receivedTx, List.count_cons] using ih

theorem count_completedBlock (ls : List PeerMove) (block : BlockNode) :
    (ls.filterMap PeerMove.completedBlock).count block =
      (ls.filterMap PeerMove.ownMessage).count (.broadcastBlock block) := by
  rw [List.count_filterMap, List.count_filterMap]
  refine List.countP_congr fun l _ => ?_
  cases l <;> simp [PeerMove.completedBlock, PeerMove.ownMessage]

/-- At rest, a node has broadcast what is its own, and the transactions it has accepted. -/
theorem count_originated (h₀ : Established neighbors s₀) (hrun : Run (Step N printable) s₀ moves s)
    (hrest : AtRest s) (hrest' : TxAtRest s) (m : NetMessage) : (originated v moves).count m =
      (own v moves).count m + ((accepted v moves).filter NetMessage.isTx).count m := by
  have hv := run_history h₀.started hrun v
  have hneither : m.broadcast = false → (originated v moves).count m =
      (own v moves).count m + ((accepted v moves).filter NetMessage.isTx).count m := by
    intro hm
    have hown : ∀ u, m ∉ own u moves := fun u h => by
      rw [broadcast_of_own h] at hm
      exact absurd hm (by simp)
    have htake : m ∉ originated v moves := fun h => by
      obtain ⟨w, -, hw, -⟩ := owner_of_take h₀.started hrun v ((mem_originated_iff_take hrun).mp h)
      exact hown w hw
    have haccept : m ∉ accepted v moves := fun h => by
      obtain ⟨u, -, hu, -⟩ := other_of_accepted h₀ hrun h
      exact hown u hu
    rw [List.count_eq_zero_of_not_mem htake, List.count_eq_zero_of_not_mem (hown v),
      List.count_eq_zero_of_not_mem fun h => haccept (List.mem_of_mem_filter h)]
  cases m with
  | broadcastTx tx =>
    have hadded := congrArg (Multiset.count tx) (added_eq_taken h₀.started hrun hrest' v)
    rw [Multiset.coe_count, Multiset.coe_count, count_addedTx] at hadded
    have hpassed := congrArg (List.count tx) (Peer.fifo_updTransIn.put_eq hv rfl)
    rw [hrest'.updTransIn, List.append_nil, count_exchange hrun
      (a := .pass v (.broadcastTx tx)) rfl (fun l => passedTx_eq_some) (fun a => by
        cases a <;> simp [Move.exchange]),
      Gossip.count_pass_of_quiet h₀.network (run_network hrun) hrest'.network rfl] at hpassed
    rw [originated, Gossip.count_originatedAt, List.count_filter rfl, accepted,
      Gossip.count_acceptedAt, hpassed, own, hadded]
    exact (count_exchange hrun rfl (fun l => takenTx_eq_some) (fun a => by
      cases a <;> simp [Move.exchange])).symm
  | broadcastBlock block =>
    have hmined := congrArg (List.count block) (Peer.fifo_outgoing.put_eq hv rfl)
    rw [hrest.outgoing, List.append_nil, count_completedBlock, count_exchange hrun
      (a := .originate v (.broadcastBlock block)) rfl (fun l => takenBlock_eq_some) (fun a => by
        cases a <;> simp [Move.exchange])] at hmined
    have hnone : .broadcastBlock block ∉ (accepted v moves).filter NetMessage.isTx := by
      simp [NetMessage.isTx]
    rw [originated, Gossip.count_originatedAt, own, hmined, List.count_eq_zero_of_not_mem hnone,
      Nat.add_zero]
  | requestBlock | unknown => exact hneither rfl

theorem sum_rounds (f : NetMessage → ℕ) (ls : List NetMessage) :
    (ls.map fun m => m.rounds * f m).sum = ((ls.filter NetMessage.isTx).map f).sum + (ls.map f).sum := by
  induction ls with
  | nil => rfl
  | cons m ls ih =>
    rw [List.map_cons, List.sum_cons, ih, NetMessage.rounds, List.filter_cons, List.map_cons,
      List.sum_cons]
    split
    · rw [List.map_cons, List.sum_cons]
      omega
    · omega

/-- What a node writes at rest, by any measure of messages. -/
theorem sum_sent (weight : ν → NetMessage → ℕ) (h₀ : Established neighbors s₀)
    (hrun : Run (Step N printable) s₀ moves s) (hrest : AtRest s) (hrest' : TxAtRest s) :
    ((moves.filterMap PeersMove.gossip).map (Gossip.sent v weight)).sum =
      ((own v moves).map (Gossip.toAll weight (neighbors v))).sum +
      ((accepted v moves).map fun m => m.rounds * Gossip.toAll weight (neighbors v) m).sum := by
  have hrelayed : (accepted v moves).filter NetMessage.relayed = accepted v moves := by
    refine List.filter_eq_self.mpr fun m hm => ?_
    obtain ⟨u, -, hown, -⟩ := other_of_accepted h₀ hrun hm
    exact NetMessage.relayed_of_broadcast (broadcast_of_own hown)
  have hperm : (originated v moves).Perm
      (own v moves ++ (accepted v moves).filter NetMessage.isTx) := by
    refine List.perm_iff_count.mpr fun m => ?_
    rw [List.count_append, count_originated h₀ hrun hrest hrest']
  rw [Gossip.sent_eq_begun h₀.network (run_network hrun) hrest.network, Gossip.sum_begun, ← accepted,
    ← originated, hrelayed, (hperm.map _).sum_nat, List.map_append, List.sum_append, sum_rounds,
    Nat.add_assoc]

/-- One for each copy of the message to the neighbor. -/
def copiesTo (w : ν) (m : NetMessage) : ν → NetMessage → ℕ :=
  fun w' m' => if w' = w ∧ m' = m then 1 else 0

theorem toAll_copiesTo (ws : List ν) :
    Gossip.toAll (copiesTo w m) ws = fun m' => if m' = m then ws.count w else 0 := by
  funext m'
  induction ws with
  | nil => simp
  | cons w' ws ih =>
    rw [Gossip.toAll_cons, ih, copiesTo, List.count_cons]
    by_cases hm : m' = m <;> simp [hm, Nat.add_comm]

theorem sum_sent_copiesTo (moves : List (PeersMove ν)) :
    ((moves.filterMap PeersMove.gossip).map (Gossip.sent v (copiesTo w m))).sum =
      written v w m moves := by
  rw [written]
  induction moves.filterMap PeersMove.gossip with
  | nil => rfl
  | cons a as ih =>
    rw [List.map_cons, List.sum_cons, ih, List.countP_cons, Nat.add_comm]
    congr 1
    cases a <;> simp [Gossip.sent, copiesTo, ← ite_and]

theorem sum_map_ite (f : NetMessage → ℕ) (c : ℕ) (ls : List NetMessage) :
    (ls.map fun m' => f m' * if m' = m then c else 0).sum = c * (f m * ls.count m) := by
  induction ls with
  | nil => simp
  | cons m' ls ih =>
    rw [List.map_cons, List.sum_cons, ih, List.count_cons]
    by_cases hm : m' = m
    · simp only [hm, if_true, beq_self_eq_true]
      ring
    · simp [hm]

/-- At rest, a node has what every node that reaches it has of its own. -/
theorem accepted_of_own (h₀ : Established neighbors s₀) (hrun : Run (Step N printable) s₀ moves s)
    (hrest : AtRest s) (hrest' : TxAtRest s) (hown : m ∈ own u moves)
    (hreach : Gossip.Reaches neighbors u v) : m ∈ own v moves ∨ m ∈ accepted v moves := by
  have hcount := fun u => count_originated (v := u) h₀ hrun hrest hrest' m
  have hu : .originate u m ∈ moves.filterMap PeersMove.gossip := by
    rw [← List.count_pos_iff, ← Gossip.count_originatedAt, ← originated, hcount]
    exact Nat.add_pos_left (List.count_pos_iff.mpr hown) _
  rcases Gossip.spread_of_quiet h₀.network (run_network hrun) hrest.network
    (NetMessage.relayed_of_broadcast (broadcast_of_own hown)) hu hreach with h | h
  · rw [← List.count_pos_iff, ← Gossip.count_originatedAt, ← originated, hcount] at h
    rcases Nat.add_pos_iff_pos_or_pos.mp h with h | h
    · exact .inl (List.count_pos_iff.mp h)
    · exact .inr (List.mem_of_mem_filter (List.count_pos_iff.mp h))
  · exact .inr (mem_accepted.mpr (Gossip.accept_of_mem h₀.network (run_network hrun) rfl h))

end Peers

open Peers

/-- In every run of an established network a node accepts a message once at most, and only what another
node that reaches it has published or mined. When nothing is left on the way, it has accepted all of that
but for what is its own as well; and to each neighbor channel it has written each message as often as it is
its own, and when it has accepted it, a block once more and a transaction twice. -/
theorem message_traffic {ν : Type} [DecidableEq ν] {N : ν → Setting} {printable : Char → Bool}
    {neighbors : ν → List ν} {s₀ s : Peers ν} {moves : List (PeersMove ν)}
    (h₀ : Peers.Established neighbors s₀) (hrun : Run (Peers.Step N printable) s₀ moves s) (v : ν) :
    (accepted v moves).Nodup ∧
    (∀ m ∈ accepted v moves, ∃ u, u ≠ v ∧ m ∈ own u moves ∧ Gossip.Reaches neighbors u v) ∧
    (AtRest s → TxAtRest s →
      (∀ u m, m ∈ own u moves → Gossip.Reaches neighbors u v →
        m ∈ own v moves ∨ m ∈ accepted v moves) ∧
      ∀ w m, written v w m moves =
        (neighbors v).count w * ((own v moves).count m + m.rounds * (accepted v moves).count m)) := by
  refine ⟨nodup_accepted h₀ hrun, fun m hm => other_of_accepted h₀ hrun hm, fun hrest hrest' =>
    ⟨fun u m hown hreach => accepted_of_own h₀ hrun hrest hrest' hown hreach, fun w m => ?_⟩⟩
  have hsent := sum_sent (v := v) (copiesTo w m) h₀ hrun hrest hrest'
  have hown := sum_map_ite (m := m) (fun _ => 1) ((neighbors v).count w) (own v moves)
  simp only [Nat.one_mul] at hown
  simp only [toAll_copiesTo, sum_map_ite, hown, sum_sent_copiesTo] at hsent
  rw [hsent, Nat.mul_add]

/-- The loan is published at the first of two nodes, and nothing is left on the way. -/
theorem run_ownLoan : ∃ moves s,
    Run (Peers.Step (fun _ => Nakamoto.walletSetting) fun _ => true) Peers.couple moves s ∧
    AtRest s ∧ TxAtRest s ∧ ∀ u m, m ∈ own u moves ↔ u = false ∧ m = .broadcastTx loan.1 := by
  obtain ⟨moves, s, hrun, hrest', hrest, hmined, hpublish⟩ := run_loanTx
  refine ⟨moves, s, hrun, hrest, hrest', fun u m => ?_⟩
  constructor
  · intro hmem
    obtain ⟨l, hl, hown⟩ := List.mem_filterMap.mp hmem
    rcases ownMessage_eq_some.mp hown with ⟨tx, rfl, rfl⟩ | ⟨block, order, rfl, -⟩
    · obtain ⟨hu, htx⟩ := (hpublish u tx).mp ((inside_of_history rfl).mp hl)
      exact ⟨hu, by rw [htx]⟩
    · exact absurd ((inside_of_history rfl).mp hl) (hmined u block order)
  · rintro ⟨rfl, rfl⟩
    exact List.mem_filterMap.mpr
      ⟨_, (inside_of_history rfl).mpr ((hpublish false loan.1).mpr ⟨rfl, rfl⟩), rfl⟩

/-- The second node writes the loan, which was published at the first, back to it twice. -/
theorem message_traffic_loan : ∃ moves s,
    Run (Peers.Step (fun _ => Nakamoto.walletSetting) fun _ => true) Peers.couple moves s ∧
    AtRest s ∧ TxAtRest s ∧ .broadcastTx loan.1 ∈ own false moves ∧
    written true false (.broadcastTx loan.1) moves = 2 := by
  obtain ⟨moves, s, hrun, hrest, hrest', hown⟩ := run_ownLoan
  obtain ⟨hnodup, -, htraffic⟩ := message_traffic established_couple hrun true
  obtain ⟨hall, hwritten⟩ := htraffic hrest hrest'
  have hloan : .broadcastTx loan.1 ∈ own false moves := (hown _ _).mpr ⟨rfl, rfl⟩
  have hother : .broadcastTx loan.1 ∉ own true moves := fun h => absurd ((hown _ _).mp h).1 (by decide)
  have haccepted := (hall false _ hloan (reaches_couple _ _)).resolve_left hother
  refine ⟨moves, s, hrun, hrest, hrest', hloan, ?_⟩
  rw [hwritten, List.count_eq_zero_of_not_mem hother, List.count_eq_one_of_mem hnodup haccepted]
  rfl

end NakamotoNode.Network
