import NakamotoNode.Network.Replication
import NakamotoNode.Node.PoolCalls

/-! # The way of a transaction

When nothing is left on the way a transaction that a client has published at one node has been handed to
`add_tx` at every node that this one reaches. A pool that has had room for all that was published then
knows it (`Knows`): it is in the map, or was removed with the block that has it
(`transactions_delivered`). What the network never carries is a request for a block: its readers pass
requests on, but no thread makes the first one (`no_block_requested`). -/

namespace NakamotoNode.Network
open Foundations Foundations.RustStd Chain Chain.BlockTree Node
set_option autoImplicit false

/-! ## What a pool knows -/

/-- The transaction is in the map of the pool, or is removed. -/
def Knows (C : Crates) (pool : TxPool) (tx : Transaction) : Prop :=
  tx.genHash C ∈ pool.poolTxMap ∨ tx.genHash C ∈ pool.removedTxIds

section Knows
variable {C : Crates} {pool pool' : TxPool} {call : PoolCall} {calls : List PoolCall}
  {tx : Transaction}

theorem Knows.step (h : Knows C pool tx) (hstep : PoolStep C pool call pool') :
    Knows C pool' tx := by
  rcases h with h | h
  · cases hstep with
    | addTx hadd =>
      rcases TxPool.addTx_cases hadd with ⟨-, rfl⟩ | ⟨-, -, -, -, -, rfl⟩
      · exact .inl h
      · exact .inl ((AList.mem_insert _).mpr (.inr h))
    | delTx txId =>
      by_cases hmem : txId ∈ pool.poolTxMap
      · rw [TxPool.delTx_of_mem hmem]
        by_cases hid : tx.genHash C = txId
        · exact .inr (Finset.mem_insert.mpr (.inl hid))
        · exact .inl (AList.mem_erase.mpr ⟨hid, h⟩)
      · rw [TxPool.delTx_of_notMem hmem]
        exact .inl h
    | removeTxs blocks =>
      refine .inl ?_
      rw [(TxPool.removeTxsFromFinalizedBlocks_spec _ _).1]
      exact h
  · exact .inr (TxPool.removed_mono hstep h)

/-- A pool with room takes in what is signed. -/
theorem knows_of_addTx {added : Bool} (hadd : pool.addTx C tx = .ok (added, pool'))
    (hsig : tx.verifySig C = .ok true) (hroom : pool.poolTxIds.length < maxTxPool) :
    Knows C pool' tx := by
  by_cases hknown : Knows C pool tx
  · exact hknown.step (.addTx hadd)
  · obtain ⟨hmap, hremoved⟩ := not_or.mp hknown
    obtain ⟨P, hP⟩ := TxPool.addTx_of_room hmap hremoved hroom hsig
    obtain ⟨rfl, rfl⟩ := Prod.mk.inj (Except.ok.inj (hadd.symm.trans hP))
    rcases TxPool.addTx_cases hP with ⟨hfalse, -⟩ | ⟨-, -, -, -, -, rfl⟩
    · exact absurd hfalse (by simp)
    · exact .inl ((AList.mem_insert _).mpr (.inl rfl))

theorem poolTxIds_of_step {ids : Finset TxId} (h : ∀ id ∈ pool.poolTxIds, id ∈ ids)
    (hcall : ∀ tx added, call = .addTx tx added → tx.genHash C ∈ ids)
    (hstep : PoolStep C pool call pool') : ∀ id ∈ pool'.poolTxIds, id ∈ ids := by
  cases hstep with
  | addTx hadd =>
    rcases TxPool.addTx_cases hadd with ⟨-, rfl⟩ | ⟨-, -, -, -, -, rfl⟩
    · exact h
    · intro id hid
      rcases List.mem_append.mp hid with hid | hid
      · exact h id hid
      · rw [List.mem_singleton.mp hid]
        exact hcall _ _ rfl
  | delTx txId =>
    by_cases hmem : txId ∈ pool.poolTxMap
    · rw [TxPool.delTx_of_mem hmem]
      exact fun id hid => h id (List.mem_of_mem_filter hid)
    · rw [TxPool.delTx_of_notMem hmem]
      exact h
  | removeTxs blocks =>
    intro id hid
    exact h id (((TxPool.removeTxsFromFinalizedBlocks_spec (C := C) blocks pool).2.1 id).mp hid).1

/-- While fewer ids than there is room for are added, every signed transaction that was is known. -/
theorem knows_of_run {ids : Finset TxId} (hrun : Run (PoolStep C) TxPool.new calls pool)
    (hids : ∀ tx added, .addTx tx added ∈ calls → tx.genHash C ∈ ids) (hroom : ids.card < maxTxPool)
    {added : Bool} (hmem : .addTx tx added ∈ calls) (hsig : tx.verifySig C = .ok true) :
    Knows C pool tx := by
  have hguarded := hrun.guarded_of_forall
    (P := fun call => ∀ tx added, call = .addTx tx added → tx.genHash C ∈ ids)
    fun call hcall tx added he => hids tx added (he ▸ hcall)
  refine (hguarded.invariant_labels (I := fun calls pool => TxPool.Records C calls pool ∧
    (∀ id ∈ pool.poolTxIds, id ∈ ids) ∧ ∀ tx added, .addTx tx added ∈ calls →
      tx.verifySig C = .ok true → Knows C pool tx) (fun calls pool call pool' hI hstep => ?_)
    ⟨TxPool.records_new, by simp [TxPool.new], by simp⟩).2.2 tx added hmem hsig
  obtain ⟨hrecords, hsub, hknows⟩ := hI
  obtain ⟨hstep, hcall⟩ := hstep
  refine ⟨hrecords.step hstep, poolTxIds_of_step hsub hcall hstep, fun tx added hmem hsig => ?_⟩
  rcases List.mem_append.mp hmem with hmem | hmem
  · exact (hknows tx added hmem hsig).step hstep
  obtain rfl := List.mem_singleton.mp hmem
  cases hstep with
  | addTx hadd =>
    refine knows_of_addTx hadd hsig (Nat.lt_of_le_of_lt ?_ hroom)
    rw [← List.toFinset_card_of_nodup hrecords.nodup]
    exact Finset.card_le_card fun id hid => hsub id (List.mem_toFinset.mp hid)

end Knows

/-! ## The pool of a node -/

section
variable {N : Setting} {p p' : Peer} {l : PeerMove}

/-- The pool of a node changes by its own calls. -/
theorem Peer.Step.pool (h : Peer.Step N p l p') : ∃ calls,
    Run (PoolStep N.crates) p.nakamoto.shared.txPool calls p'.nakamoto.shared.txPool ∧
    ∀ tx, (∃ added, .addTx tx added ∈ calls) ↔ l.addedTx = some tx := by
  have hone : ∀ {n n' : Nakamoto} {m : Node.Move}, Nakamoto.Step N n m n' → ∃ calls,
      Run (PoolStep N.crates) n.shared.txPool calls n'.shared.txPool ∧
      ∀ tx, (∃ added, .addTx tx added ∈ calls) ↔ m = .addTx tx := by
    intro n n' m hstep
    cases hstep with
    | addTx hadd =>
      cases hadd with
      | addTx hadd => exact ⟨_, Run.single (.addTx hadd), fun tx => by simp [eq_comm]⟩
    | addReceived _ hadd | addOwn _ hadd => cases hadd; exact ⟨[], .nil _, by simp⟩
    | refresh _ he hread =>
      rcases he with rfl | rfl <;> cases hread <;> exact ⟨[], .nil _, by simp⟩
    | remove _ hremove =>
      cases hremove
      exact ⟨_, Run.single (.removeTxs _), by simp⟩
    | _ => exact ⟨[], .nil _, by simp⟩
  cases h with
  | @pass m => cases m <;> exact ⟨[], .nil _, by simp [PeerMove.addedTx]⟩
  | publish h | receiveTx _ h =>
    obtain ⟨calls, hrun, hadds⟩ := hone h
    exact ⟨calls, hrun, by simpa [PeerMove.addedTx] using hadds⟩
  | raise _ h | addReceived _ h | lower h | addOwn _ _ h =>
    obtain ⟨calls, hrun, hadds⟩ := hone h
    exact ⟨calls, hrun, by simpa [PeerMove.addedTx] using hadds⟩
  | mine hm _ h =>
    obtain ⟨calls, hrun, hadds⟩ := hone h
    refine ⟨calls, hrun, fun tx => (hadds tx).trans ?_⟩
    constructor
    · rintro rfl
      exact absurd hm (by simp [PeerMove.ofMiner])
    · exact fun h => absurd h (by simp [PeerMove.addedTx])
  | _ => exact ⟨[], .nil _, by simp [PeerMove.addedTx]⟩

theorem pool_of_run {moves : List PeerMove} (hrun : Run (Peer.Step N) Peer.fresh moves p) :
    ∃ calls, Run (PoolStep N.crates) TxPool.new calls p.nakamoto.shared.txPool ∧
      ∀ tx, (∃ added, .addTx tx added ∈ calls) ↔ AddedAt moves tx := by
  refine hrun.invariant_labels (I := fun moves p => ∃ calls,
    Run (PoolStep N.crates) TxPool.new calls p.nakamoto.shared.txPool ∧
      ∀ tx, (∃ added, .addTx tx added ∈ calls) ↔ AddedAt moves tx)
    (fun moves p l p' hI hstep => ?_) ⟨[], .nil _, by simp [AddedAt]⟩
  obtain ⟨calls, hcalls, hadds⟩ := hI
  obtain ⟨new, hnew, hadded⟩ := hstep.pool
  refine ⟨calls ++ new, hcalls.trans hnew, fun tx => ?_⟩
  have hsnoc : AddedAt (moves ++ [l]) tx ↔ AddedAt moves tx ∨ l.addedTx = some tx := by
    simp [AddedAt, or_and_right, exists_or]
  rw [hsnoc, ← hadds, ← hadded, ← exists_or]
  exact exists_congr fun added => List.mem_append

end

/-! ## Across the network -/

namespace Peers
variable {ν : Type} [DecidableEq ν] {N : ν → Setting} {printable : Char → Bool}
  {neighbors : ν → List ν} {s₀ s : Peers ν} {moves : List (PeersMove ν)} {u v : ν}
  {tx : Transaction}

/-- No message is on a connection or in the hands of a thread, and no transaction in a channel. -/
structure TxAtRest (s : Peers ν) : Prop where
  network : s.network.Quiet
  updTransIn : ∀ v, (s.nodes v).updTransIn = []
  added : ∀ v, (s.nodes v).added = 0
  transTx : ∀ v, (s.nodes v).transTx = []
  transOut : ∀ v, (s.nodes v).transOut = []

theorem takenTx_eq_some {l : PeerMove} :
    l.takenTx = some tx ↔ l = .take (.broadcastTx tx) := by
  rcases l with _ | ⟨_ | _ | _ | _⟩ | _ <;> simp [PeerMove.takenTx]

theorem passedTx_eq_some {l : PeerMove} :
    l.passedTx = some tx ↔ l = .pass (.broadcastTx tx) := by
  rcases l with ⟨_ | _ | _ | _⟩ | _ <;> simp [PeerMove.passedTx]

/-- A node broadcasts what is added to its pool, as often, at rest. -/
theorem added_eq_taken (h₀ : Started neighbors s₀) (hrun : Run (Step N printable) s₀ moves s)
    (hrest : TxAtRest s) (v : ν) :
    ((history v moves).filterMap PeerMove.addedTx : Multiset Transaction) =
      ((history v moves).filterMap PeerMove.takenTx : Multiset Transaction) := by
  have hv := run_history h₀ hrun v
  rw [Peer.bag_added.put_eq hv rfl, hrest.added, add_zero, Peer.fifo_transTx.put_eq hv rfl,
    hrest.transTx, List.append_nil, Peer.fifo_transOut.put_eq hv rfl, hrest.transOut,
    List.append_nil]

theorem addedAt_iff_take (h₀ : Started neighbors s₀) (hrun : Run (Step N printable) s₀ moves s)
    (hrest : TxAtRest s) :
    AddedAt (history v moves) tx ↔ .take (.broadcastTx tx) ∈ history v moves := by
  have hmem := congrArg (tx ∈ ·) (added_eq_taken h₀ hrun hrest v)
  simp only [Multiset.mem_coe, List.mem_filterMap, takenTx_eq_some, eq_iff_iff] at hmem
  rw [AddedAt, hmem]
  simp

/-- At rest, what a client has published has come to every node that its node reaches. -/
theorem addedAt_of_publish (h₀ : Established neighbors s₀) (hrun : Run (Step N printable) s₀ moves s)
    (hrest : TxAtRest s) (hpublish : .inside u (.publish tx) ∈ moves)
    (hreach : Gossip.Reaches neighbors u v) : AddedAt (history v moves) tx := by
  have hadded : AddedAt (history u moves) tx := ⟨_, (inside_of_history rfl).mpr hpublish, rfl⟩
  rw [addedAt_iff_take h₀.started hrun hrest] at hadded
  obtain ⟨a, ha, hmem⟩ := exchange_of_history hrun rfl hadded
  cases a <;> simp [Move.exchange] at ha
  obtain ⟨rfl, rfl⟩ := ha
  rcases Gossip.spread_of_quiet h₀.network (run_network hrun) hrest.network rfl hmem hreach with
    h | h
  · rw [addedAt_iff_take h₀.started hrun hrest]
    exact history_of_exchange rfl h
  · have hpassed : tx ∈ (history v moves).filterMap PeerMove.passedTx :=
      List.mem_filterMap.mpr ⟨_, history_of_exchange rfl h, rfl⟩
    rw [Peer.fifo_updTransIn.put_eq (run_history h₀.started hrun v) rfl, hrest.updTransIn,
      List.append_nil] at hpassed
    obtain ⟨l, hl, htx⟩ := List.mem_filterMap.mp hpassed
    cases l <;> simp [PeerMove.receivedTx] at htx
    exact ⟨_, hl, by simp [PeerMove.addedTx, htx]⟩

/-- A pool with room for all that is published knows what has been added to it. -/
theorem knows_of_added (h₀ : Started neighbors s₀) (hrun : Run (Step N printable) s₀ moves s)
    (hadded : AddedAt (history v moves) tx) {ids : Finset TxId} (hroom : ids.card < maxTxPool)
    (hids : ∀ w tx', .inside w (.publish tx') ∈ moves → tx'.genHash (N v).crates ∈ ids)
    (hsig : tx.verifySig (N v).crates = .ok true) :
    Knows (N v).crates (s.nodes v).nakamoto.shared.txPool tx := by
  obtain ⟨calls, hcalls, hadds⟩ := pool_of_run (run_history h₀ hrun v)
  obtain ⟨added, hmem⟩ := (hadds tx).mpr hadded
  refine knows_of_run hcalls (fun tx' added' hmem' => ?_) hroom hmem hsig
  obtain ⟨w, hw, -⟩ := publishedTo_of_added h₀ hrun v tx' ((hadds tx').mp ⟨added', hmem'⟩)
  exact hids w tx' hw

end Peers

open Peers

/-- In every run of an established network, when no transaction is left on the way: what a client has
published at one node has been handed to `add_tx` at every node that this one reaches. If the
transactions published have fewer ids than a pool has room for, the pool there knows each that is
signed. -/
theorem transactions_delivered {ν : Type} [DecidableEq ν] {N : ν → Setting} {printable : Char → Bool}
    {neighbors : ν → List ν} {s₀ s : Peers ν} {moves : List (PeersMove ν)} {u v : ν} {tx : Transaction}
    (h₀ : Peers.Established neighbors s₀) (hrun : Run (Peers.Step N printable) s₀ moves s)
    (hrest : TxAtRest s) (hpublish : .inside u (.publish tx) ∈ moves)
    (hreach : Gossip.Reaches neighbors u v) :
    AddedAt (history v moves) tx ∧
    ∀ ids : Finset TxId, ids.card < maxTxPool →
      (∀ w tx', .inside w (.publish tx') ∈ moves → tx'.genHash (N v).crates ∈ ids) →
      tx.verifySig (N v).crates = .ok true →
      Knows (N v).crates (s.nodes v).nakamoto.shared.txPool tx := by
  have hadded := addedAt_of_publish h₀ hrun hrest hpublish hreach
  exact ⟨hadded, fun ids hroom hids hsig => knows_of_added h₀.started hrun hadded hroom hids hsig⟩

/-! ## Requests for blocks -/

namespace Peers
variable {ν : Type} [DecidableEq ν] {N : ν → Setting} {printable : Char → Bool}
  {neighbors : ν → List ν} {s₀ s : Peers ν} {moves : List (PeersMove ν)}

/-- A first request would have to be one that another node has passed on. -/
theorem not_take_requestBlock (h₀ : Started neighbors s₀)
    (hrun : Run (Step N printable) s₀ moves s) :
    ∀ v blockId, .take (.requestBlock blockId) ∉ history v moves := by
  induction hrun with
  | nil => exact fun v blockId => List.not_mem_nil
  | @snoc s t moves a hrun hstep ih =>
    intro v blockId hmem
    rw [history_snoc] at hmem
    rcases List.mem_append.mp hmem with hmem | hmem
    · exact ih v blockId hmem
    have hnode := hstep.node v
    rw [Option.mem_toList.mp hmem] at hnode
    obtain ⟨p, htake, -⟩ := hnode.cons_inv
    cases htake with
    | takeBlockId hids =>
      obtain ⟨l, hl, hid⟩ := Peer.fifo_blockIds.mem_put_of_queue (run_history h₀ hrun v) rfl
        (b := blockId) (by rw [hids]; exact List.mem_cons_self)
      rcases l with ⟨_ | _ | blockId' | _⟩ | _ <;> simp [PeerMove.passedBlockId] at hid
      subst hid
      obtain ⟨u, hu, -⟩ := taken_of_passed h₀ hrun hl
      exact ih u blockId' hu

end Peers

/-- In every run of a network from its start no node broadcasts a request for a block or gets one, no
connection carries one, and the channel of the requests is empty. -/
theorem no_block_requested {ν : Type} [DecidableEq ν] {N : ν → Setting} {printable : Char → Bool}
    {neighbors : ν → List ν} {s₀ s : Peers ν} {moves : List (PeersMove ν)}
    (h₀ : Started neighbors s₀) (hrun : Run (Peers.Step N printable) s₀ moves s) (v : ν) :
    (∀ blockId, .network (.originate v (.requestBlock blockId)) ∉ moves ∧
      .network (.pass v (.requestBlock blockId)) ∉ moves ∧
      (v, .requestBlock blockId) ∉ s.network.inFlight) ∧
    (s.nodes v).blockIds = [] := by
  have hnone := not_take_requestBlock h₀ hrun
  have hpass : ∀ blockId, .pass (.requestBlock blockId) ∉ history v moves := by
    intro blockId hpass
    obtain ⟨u, hu, -⟩ := taken_of_passed h₀ hrun hpass
    exact hnone u blockId hu
  refine ⟨fun blockId => ⟨fun h => ?_, fun h => ?_, fun h => ?_⟩, ?_⟩
  · exact hnone v blockId (mem_history.mpr ⟨_, h, rfl⟩)
  · exact hpass blockId (mem_history.mpr ⟨_, h, rfl⟩)
  · obtain ⟨u, hu, -⟩ := (Gossip.origin_of_run h₀.network (run_network hrun)).1.inFlight _ h
    exact hnone u blockId (history_of_exchange rfl hu)
  · refine List.eq_nil_iff_forall_not_mem.mpr fun blockId hmem => ?_
    obtain ⟨l, hl, hid⟩ := Peer.fifo_blockIds.mem_put_of_queue (run_history h₀ hrun v) rfl hmem
    rcases l with ⟨_ | _ | blockId' | _⟩ | _ <;> simp [PeerMove.passedBlockId] at hid
    exact hpass blockId' hl

/-! ## Two nodes -/

namespace Peers
variable {N : Bool → Setting} {p q : Peer}

/-- The second node broadcasts what both have seen. -/
theorem run_echo {m : NetMessage} {net : Gossip Bool} (hm : m.relayed = true) (hnet : Seen m net)
    {q' : Peer} (htake : Peer.Step (N true) q (.take m) q') : ∃ moves net',
    Run (Step N fun _ => true) ⟨net, both p q⟩ moves ⟨net', both p q'⟩ ∧ net'.Quiet ∧
    ∀ v l, .inside v l ∉ moves := by
  obtain ⟨nodes, threads, inFlight⟩ := net
  obtain ⟨⟨hthreads, hflight⟩, hchannels, hack⟩ := hnet
  dsimp only at hthreads hflight
  subst hthreads hflight
  have htake : Run (Step N fun _ => true) ⟨⟨nodes, 0, 0⟩, both p q⟩ _ _ :=
    Run.single (.exchange (.originate (u := true) hm fun w => Multiset.notMem_zero _) rfl htake)
  rw [update_second] at htake
  have hwritten : Run (Gossip.Step fun _ => true) _ _ _ :=
    Gossip.run_broadcast (u := true) (w := false) (m := m)
      (s := ⟨Gossip.acknowledge (fun _ => true) ⟨nodes, 0, 0⟩ true m, {.originated true m}, 0⟩) 0 rfl
      (Gossip.channels_acknowledge.trans (hchannels true))
  have hdrop := hwritten.snoc (@Gossip.Step.drop _ _ (fun _ => true) _ false m 0 rfl
    (Gossip.ack_acknowledge.mpr (.inr (hack false))))
  exact ⟨_, _, htake.trans (run_gossip hdrop (by simp [Move.exchange])), ⟨rfl, rfl⟩, by simp⟩

end Peers

/-- A node that has a transaction in its pool, and nothing in its channels but what a broadcasting thread
has to take. -/
def Peer.ofAdded (nakamoto : Nakamoto) (transOut : List Transaction) : Peer :=
  { Peer.fresh with nakamoto := nakamoto, transOut := transOut }

theorem Peer.run_send {N : Setting} {nakamoto : Nakamoto} {tx : Transaction} :
    Run (Peer.Step N) { Peer.ofAdded nakamoto [] with added := {tx} } [.sendTx tx, .sendOutTx tx]
      (Peer.ofAdded nakamoto [tx]) :=
  (Run.single (.sendTx rfl)).snoc (.sendOutTx rfl)

/-- What was added at the first node comes to the second, and nothing is left on the way. -/
theorem Peers.run_spread {N : Setting} {nakamoto : Nakamoto} {tx : Transaction}
    (hadd : Nakamoto.Step N Nakamoto.fresh (.addTx tx) nakamoto) : ∃ moves s,
    Run (Peers.Step (fun _ => N) fun _ => true) { Peers.couple with
      nodes := Peers.both { Peer.ofAdded nakamoto [] with added := {tx} } Peer.fresh } moves s ∧
    TxAtRest s ∧ (∀ v, s.nodes v = Peer.ofAdded nakamoto []) ∧
    (∀ u tx', .inside u (.publish tx') ∉ moves) ∧
    ∀ u block order, .inside u (.addOwn block order) ∉ moves := by
  have htake : Peer.Step N (Peer.ofAdded nakamoto [tx]) (.take (.broadcastTx tx))
      (Peer.ofAdded nakamoto []) := .takeTx rfl
  have hfirst : Run (Peers.Step (fun _ => N) fun _ => true) { Peers.couple with
      nodes := Peers.both { Peer.ofAdded nakamoto [] with added := {tx} } Peer.fresh } _ _ :=
    Peers.run_inside (v := false) Peer.run_send (by simp [PeerMove.ofNetwork])
      fun w => Multiset.notMem_zero _
  rw [Peers.couple] at hfirst ⊢
  dsimp only at hfirst
  rw [Peers.update_first] at hfirst
  obtain ⟨moves, net, hexchange, hnet, hnone⟩ := Peers.run_exchange
    (N := fun _ => N) (q := Peer.fresh) rfl htake
  have hreceive : Run (Peer.Step N) (Peer.fresh.passed (.broadcastTx tx)) _ _ :=
    Run.single (.receiveTx rfl hadd)
  have hsecond := (hfirst.trans hexchange).trans (Peers.run_inside (v := true)
    (hreceive.trans Peer.run_send) (by simp [PeerMove.ofNetwork])
    fun w => by rw [hnet.quiet.1]; exact Multiset.notMem_zero _)
  dsimp only at hsecond
  rw [Peers.update_second] at hsecond
  obtain ⟨moves', net', hecho, hquiet, hnone'⟩ := Peers.run_echo
    (N := fun _ => N) (p := Peer.ofAdded nakamoto []) rfl hnet htake
  have hnodes : ∀ v, Peers.both (Peer.ofAdded nakamoto []) (Peer.ofAdded nakamoto []) v =
      Peer.ofAdded nakamoto [] := fun v => by cases v <;> rfl
  refine ⟨_, _, hsecond.trans hecho, ⟨hquiet, fun v => ?_, fun v => ?_, fun v => ?_, fun v => ?_⟩, hnodes,
    fun u tx => by simp [hnone, hnone'], fun u block order => by simp [hnone, hnone']⟩
  all_goals
    cases v <;> rfl

/-- A node that has the loan in its pool. -/
def loanNakamoto : Nakamoto :=
  { Nakamoto.fresh with
    shared := { Nakamoto.fresh.shared with txPool := poolWith loan }, signalled := true }

theorem addTx_fresh :
    Nakamoto.Step Nakamoto.walletSetting Nakamoto.fresh (.addTx loan.1) loanNakamoto :=
  .addTx (Node.Step.addTx (addTx_poolWith payable_loan.signed genHash_loan))

/-- Published at the first node and in both pools, and nothing is left on the way. -/
theorem run_loanTx : ∃ moves s,
    Run (Peers.Step (fun _ => Nakamoto.walletSetting) fun _ => true) Peers.couple moves s ∧
    TxAtRest s ∧ AtRest s ∧ (∀ u block order, .inside u (.addOwn block order) ∉ moves) ∧
    ∀ u tx, .inside u (.publish tx) ∈ moves ↔ u = false ∧ tx = loan.1 := by
  have hpublish : Run (Peers.Step (fun _ => Nakamoto.walletSetting) fun _ => true) Peers.couple _ _ :=
    Peers.run_inside (v := false) (Run.single (.publish addTx_fresh)) (by decide)
      fun w => Multiset.notMem_zero _
  rw [Peers.couple] at hpublish
  dsimp only at hpublish
  rw [Peers.update_first] at hpublish
  obtain ⟨moves, s, hspread, hrest, hnodes, hnone, hmined⟩ := Peers.run_spread addTx_fresh
  refine ⟨_, s, hpublish.trans hspread, hrest, ⟨hrest.network, fun v => ?_, fun v => ?_⟩,
    fun u block order => by simp [hmined], fun u tx => by simp [hnone]⟩
  · rw [hnodes]
    rfl
  · rw [hnodes]
    rfl

/-- The second pool knows the loan that was published at the first node. -/
theorem transactions_delivered_loan : ∃ moves s,
    Run (Peers.Step (fun _ => Nakamoto.walletSetting) fun _ => true) Peers.couple moves s ∧
    AddedAt (history true moves) loan.1 ∧
    Knows walletCrates (s.nodes true).nakamoto.shared.txPool loan.1 := by
  obtain ⟨moves, s, hrun, hrest, -, -, hpublish⟩ := run_loanTx
  have hdelivered := transactions_delivered established_couple hrun hrest
    ((hpublish false loan.1).mpr ⟨rfl, rfl⟩) (reaches_couple false true)
  refine ⟨moves, s, hrun, hdelivered.1, hdelivered.2 {loan.2} (by decide) ?_
    (verifySig_of_wallet payable_loan.signed)⟩
  intro w tx hw
  rw [((hpublish w tx).mp hw).2, Finset.mem_singleton]
  exact genHash_loan

/-- Neither node has requested a block on the way there. -/
theorem no_block_requested_loan : ∃ moves s,
    Run (Peers.Step (fun _ => Nakamoto.walletSetting) fun _ => true) Peers.couple moves s ∧
    .inside false (.publish loan.1) ∈ moves ∧
    ∀ v blockId, .network (.originate v (.requestBlock blockId)) ∉ moves := by
  obtain ⟨moves, s, hrun, -, -, -, hpublish⟩ := run_loanTx
  exact ⟨moves, s, hrun, (hpublish _ _).mpr ⟨rfl, rfl⟩, fun v blockId =>
    ((no_block_requested started_couple hrun v).1 blockId).1⟩

end NakamotoNode.Network
