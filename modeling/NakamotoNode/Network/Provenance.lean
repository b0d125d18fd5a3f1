import NakamotoNode.Network.Origins
import NakamotoNode.Node.OwnBlocks

/-! # Where blocks and transactions come from

Over whole runs of a network that starts with new chains and pools: a block that is stored anywhere,
other than the genesis block, was completed by the miner thread of a node from which the connections
lead there, and each transaction of it was published by a client of a node that reaches this one
(`stored_block_mined`). -/

namespace NakamotoNode.Network
open Foundations Foundations.RustStd Chain Chain.BlockTree Node
set_option autoImplicit false

/-! ## The transactions of a node -/

/-- What the miner thread works on is a block for its own receiver, of transactions that have `P`. -/
def Supplied (N : Setting) (P : Transaction → Prop) : Miner → Prop
  | .created _ preBlock _ =>
      (∀ tx ∈ preBlock.txs, P tx) ∧ preBlock.header.rewardReceiver = N.config.miningRewardReceiver
  | .solving preBlock _ _ _ | .solved preBlock _ _ _ =>
      (∀ tx ∈ preBlock.txs, P tx) ∧
        preBlock.header.rewardReceiver = N.config.miningRewardReceiver ∧ preBlock.txs ≠ []
  | _ => True

structure FromPool (N : Setting) (P : Transaction → Prop) (n : Nakamoto) : Prop where
  pool : ∀ id tx, n.shared.txPool.poolTxMap.lookup id = some tx → P tx
  miner : Supplied N P n.miner

variable {N : Setting} {P Q : Transaction → Prop} {n n' : Nakamoto} {m : Node.Move}

theorem Supplied.mono (hPQ : ∀ tx, P tx → Q tx) {miner : Miner} (h : Supplied N P miner) :
    Supplied N Q miner := by
  cases miner with
  | created | solving | solved => exact ⟨fun tx htx => hPQ tx (h.1 tx htx), h.2⟩
  | _ => trivial

theorem FromPool.mono (hPQ : ∀ tx, P tx → Q tx) (h : FromPool N P n) : FromPool N Q n :=
  ⟨fun id tx htx => hPQ tx (h.pool id tx htx), h.miner.mono hPQ⟩

theorem fromPool_fresh : FromPool N P Nakamoto.fresh where
  pool := fun id tx h => absurd h (by simp [Nakamoto.fresh, TxPool.new])
  miner := trivial

theorem pool_of_step {S S' : Shared} {e : Event} (hstep : Node.Step N.crates N.profile S e S')
    (he : ∀ tx, e = .addTx tx → P tx)
    (h : ∀ id tx, S.txPool.poolTxMap.lookup id = some tx → P tx) :
    ∀ id tx, S'.txPool.poolTxMap.lookup id = some tx → P tx := by
  cases hstep with
  | @addTx tx _ _ hadd =>
    rcases TxPool.addTx_cases hadd with ⟨-, rfl⟩ | ⟨-, -, -, -, -, rfl⟩
    · exact h
    · intro id tx' hlookup
      by_cases hid : id = tx.genHash N.crates
      · subst hid
        rw [AList.lookup_insert] at hlookup
        exact he tx' (congrArg Event.addTx (Option.some.inj hlookup))
      · rw [AList.lookup_insert_ne hid] at hlookup
        exact h id tx' hlookup
  | removeTxs =>
    intro id tx hlookup
    dsimp only at hlookup
    rw [(TxPool.removeTxsFromFinalizedBlocks_spec _ _).1] at hlookup
    exact h id tx hlookup
  | _ => exact h

theorem Step.pool_fromPool (hstep : Nakamoto.Step N n m n') (hm : ∀ tx, m = .addTx tx → P tx)
    (h : ∀ id tx, n.shared.txPool.poolTxMap.lookup id = some tx → P tx) :
    ∀ id tx, n'.shared.txPool.poolTxMap.lookup id = some tx → P tx := by
  cases hstep with
  | addTx hadd => exact pool_of_step hadd (fun tx he => hm tx (by rw [Event.addTx.inj he])) h
  | addReceived _ hadd => exact pool_of_step hadd nofun h
  | refresh _ he hread =>
    refine pool_of_step hread (fun tx heq => ?_) h
    rcases he with rfl | rfl <;> exact absurd heq (by simp)
  | remove _ hremove => exact pool_of_step hremove nofun h
  | addOwn _ hadd => exact pool_of_step hadd nofun h
  | _ => exact h

/-- `filter_tx` gives what is in the pool. -/
theorem mem_filterTx_of_pool {pool : TxPool} (hpool : TxPool.Inv N.crates pool)
    (h : ∀ id tx, pool.poolTxMap.lookup id = some tx → P tx) {maxCount : ℕ}
    {excludingTxs filteredTx : List Transaction}
    (hfilter : pool.filterTx maxCount excludingTxs = some filteredTx) : ∀ tx ∈ filteredTx, P tx := by
  intro tx htx
  obtain ⟨hmem, -⟩ := List.mem_filter.mp ((TxPool.filterTx_sublist hpool hfilter).subset htx)
  obtain ⟨id, -, hlookup⟩ := List.mem_filterMap.mp hmem
  exact h id tx hlookup

theorem Step.fromPool (hstep : Nakamoto.Step N n m n') (hm : ∀ tx, m = .addTx tx → P tx)
    (hpool : TxPool.Inv N.crates n.shared.txPool) (h : FromPool N P n) : FromPool N P n' := by
  refine ⟨Step.pool_fromPool hstep hm h.pool, ?_⟩
  have hminer := h.miner
  cases hstep with
  | filter => dsimp only; split <;> trivial
  | createPuzzle _ hfilter hpuzzle =>
    obtain ⟨-, htxs, -, -⟩ := puzzleOf_eq_ok hpuzzle
    obtain ⟨⟨root, tree⟩, -, hblock⟩ := Exec.bind_eq_ok.mp hpuzzle
    obtain ⟨-, rfl⟩ := Prod.mk.inj (Except.ok.inj hblock)
    exact ⟨mem_filterTx_of_pool hpool h.pool hfilter, rfl⟩
  | solve hpc =>
    rw [hpc] at hminer
    dsimp only
    split
    · trivial
    · next hne => exact ⟨hminer.1, hminer.2, hne⟩
  | tick hpc =>
    rw [hpc] at hminer
    exact hminer
  | @join _ _ _ _ solution hpc =>
    rw [hpc] at hminer
    cases solution with
    | none => trivial
    | some => exact hminer
  | addTx | raise | addReceived | lower | refresh => exact hminer
  | _ => trivial

/-! ## The blocks of a node -/

/-- The call of `add_block` that the move makes. -/
def PeerMove.call (N : Setting) : PeerMove → Option Call
  | addReceived block order => some ⟨block, N.config.difficultyLeadingZeroLenAcc, order⟩
  | addOwn block order => some ⟨block, N.config.difficultyLeadingZeroLenAcc, order⟩
  | _ => none

/-- A block as the miner thread of a node completes it. -/
structure Authored (N : Setting) (P : Transaction → Prop) (block : BlockNode) : Prop where
  valid : ∀ d ≤ N.config.difficultyLeadingZeroLen,
    verifyBlockIntegrity N.crates block d = .ok true
  merkle : block.MerkleHonest N.crates
  signed : ∀ tx ∈ block.txs, tx.verifySig N.crates = .ok true
  supplied : ∀ tx ∈ block.txs, P tx
  nonempty : block.txs ≠ []
  reward : block.header.rewardReceiver = N.config.miningRewardReceiver

theorem Authored.mono (hPQ : ∀ tx, P tx → Q tx) {block : BlockNode} (h : Authored N P block) :
    Authored N Q block :=
  ⟨h.valid, h.merkle, h.signed, fun tx htx => hPQ tx (h.supplied tx htx), h.nonempty, h.reward⟩

/-- A transaction that a client or the network has added at the node. -/
def AddedAt (moves : List PeerMove) (tx : Transaction) : Prop :=
  ∃ l ∈ moves, l.addedTx = some tx

theorem addedTx_eq_some {l : PeerMove} {tx : Transaction} :
    l.addedTx = some tx ↔ l = .publish tx ∨ l = .receiveTx tx := by
  cases l <;> simp [PeerMove.addedTx]

theorem AddedAt.snoc {moves : List PeerMove} {tx : Transaction} (h : AddedAt moves tx)
    (l : PeerMove) : AddedAt (moves ++ [l]) tx := by
  obtain ⟨l', hl', htx⟩ := h
  exact ⟨l', List.mem_append_left _ hl', htx⟩

structure Accounted (N : Setting) (moves : List PeerMove) (p : Peer) : Prop where
  honest : Nakamoto.Honest N p.nakamoto
  fromPool : FromPool N (AddedAt moves) p.nakamoto
  chain : Run (Returns N.crates N.profile) genesisTree (moves.filterMap (PeerMove.call N))
    p.nakamoto.shared.chain
  authored : ∀ block order, .addOwn block order ∈ moves → Authored N (AddedAt moves) block

theorem accounted_fresh : Accounted N [] Peer.fresh where
  honest := ⟨TxPool.inv_new _, trivial⟩
  fromPool := fromPool_fresh
  chain := .nil _
  authored := fun _ _ hmem => absurd hmem List.not_mem_nil

/-- The chain changes by the call of `add_block` alone. -/
theorem Peer.Step.chain {p p' : Peer} {l : PeerMove} (h : Peer.Step N p l p') :
    Run (Returns N.crates N.profile) p.nakamoto.shared.chain (l.call N).toList
      p'.nakamoto.shared.chain := by
  have hsame : ∀ {n n' : Nakamoto} {m : Node.Move}, Nakamoto.Step N n m n' →
      (∀ order, m ≠ .addReceived order) → (∀ order, m ≠ .addOwn order) →
      Run (Returns N.crates N.profile) n.shared.chain [] n'.shared.chain := by
    intro n n' m hstep hreceived hown
    cases hstep with
    | addTx hadd => cases hadd; exact .nil _
    | addReceived => exact absurd rfl (hreceived _)
    | refresh _ he hread =>
      rcases he with rfl | rfl <;> cases hread <;> exact .nil _
    | remove _ hremove => cases hremove; exact .nil _
    | addOwn => exact absurd rfl (hown _)
    | _ => exact .nil _
  cases h with
  | @pass m => cases m <;> exact .nil _
  | publish h | receiveTx _ h | raise _ h | lower h => exact hsame h (by simp) (by simp)
  | mine hm _ h =>
    refine hsame h (fun order he => ?_) fun order he => ?_ <;> subst he <;>
      exact absurd hm (by simp [PeerMove.ofMiner])
  | addReceived hraised h =>
    cases h with
    | addReceived hraised' hadd =>
      obtain rfl := Receiver.raised.inj (hraised.symm.trans hraised')
      cases hadd with
      | addBlock hcall => exact Run.single hcall
  | addOwn _ hsolved h =>
    cases h with
    | addOwn hsolved' hadd =>
      obtain ⟨rfl, rfl, rfl, rfl⟩ := Miner.solved.inj (hsolved.symm.trans hsolved')
      cases hadd with
      | addBlock hcall => exact Run.single hcall
  | _ => exact .nil _

theorem Peer.Step.accounted {moves : List PeerMove} {p p' : Peer} {l : PeerMove}
    (h : Peer.Step N p l p') (hI : Accounted N moves p) : Accounted N (moves ++ [l]) p' := by
  have hmono : ∀ tx, AddedAt moves tx → AddedAt (moves ++ [l]) tx := fun tx htx => htx.snoc l
  have hnode : Nakamoto.Honest N p'.nakamoto ∧
      FromPool N (AddedAt (moves ++ [l])) p'.nakamoto := by
    have hone : ∀ {m : Node.Move} {n' : Nakamoto}, Nakamoto.Step N p.nakamoto m n' →
        (∀ tx, m = .addTx tx → l.addedTx = some tx) →
        Nakamoto.Honest N n' ∧ FromPool N (AddedAt (moves ++ [l])) n' := by
      intro m n' hstep hm
      refine ⟨hstep.honest hI.honest, Step.fromPool hstep (fun tx he => ?_) hI.honest.txPool
        (hI.fromPool.mono hmono)⟩
      exact ⟨l, by simp, hm tx he⟩
    cases h with
    | @pass m => cases m <;> exact ⟨hI.honest, hI.fromPool.mono hmono⟩
    | publish h => exact hone h fun tx he => congrArg some (Node.Move.addTx.inj he)
    | receiveTx _ h => exact hone h fun tx he => congrArg some (Node.Move.addTx.inj he)
    | raise _ h | addReceived _ h | lower h | addOwn _ _ h => exact hone h nofun
    | mine hm _ h =>
      refine hone h fun tx he => ?_
      subst he
      exact absurd hm (by simp [PeerMove.ofMiner])
    | _ => exact ⟨hI.honest, hI.fromPool.mono hmono⟩
  refine ⟨hnode.1, hnode.2, ?_, fun block order hmem => ?_⟩
  · rw [filterMap_snoc]
    exact hI.chain.trans h.chain
  rcases List.mem_append.mp hmem with hmem | hmem
  · exact (hI.authored block order hmem).mono hmono
  -- the miner thread has the solution of its puzzle
  obtain rfl := List.mem_singleton.mp hmem
  cases h with
  | addOwn _ hsolved =>
    have hminer := hI.honest.miner
    have hsupplied := hI.fromPool.miner
    rw [hsolved] at hminer hsupplied
    exact ⟨fun d hd => (hminer.1.valid hminer.2 d hd).2, hminer.1.merkle, hminer.1.signed,
      fun tx htx => hmono tx (hsupplied.1 tx htx), hsupplied.2.2, hsupplied.2.1⟩

theorem accounted_of_run {moves : List PeerMove} {p : Peer}
    (hrun : Run (Peer.Step N) Peer.fresh moves p) : Accounted N moves p :=
  hrun.invariant_labels (fun _ _ _ _ hI hstep => hstep.accounted hI) accounted_fresh

/-- What the broadcasting thread takes has been added at the node. -/
theorem added_of_take {moves : List PeerMove} {p : Peer}
    (hrun : Run (Peer.Step N) Peer.fresh moves p) {tx : Transaction}
    (h : .take (.broadcastTx tx) ∈ moves) : AddedAt moves tx := by
  obtain ⟨l, hl, hout⟩ := Peer.fifo_transOut.mem_put_of_take hrun rfl h rfl
  obtain ⟨l, hl, hsent⟩ := Peer.fifo_transTx.mem_put_of_take hrun rfl hl hout
  exact Peer.bag_added.mem_put_of_take hrun rfl hl hsent

/-- And its blocks are the node's own. -/
theorem mined_of_take {moves : List PeerMove} {p : Peer}
    (hrun : Run (Peer.Step N) Peer.fresh moves p) {block : BlockNode}
    (h : .take (.broadcastBlock block) ∈ moves) : ∃ order, .addOwn block order ∈ moves := by
  obtain ⟨l, hl, hown⟩ := Peer.fifo_outgoing.mem_put_of_take hrun rfl h rfl
  cases l <;> simp [PeerMove.completedBlock] at hown
  subst hown
  exact ⟨_, hl⟩

/-! ## Across the network -/

namespace Peers
variable {ν : Type} [DecidableEq ν] {N : ν → Setting} {printable : Char → Bool}
  {neighbors : ν → List ν} {s₀ s : Peers ν} {moves : List (PeersMove ν)} {u v : ν}

/-- New chains and pools, and no message yet; the neighbors are connected, or are being connected. -/
structure Started (neighbors : ν → List ν) (s : Peers ν) : Prop where
  network : s.network.Silent neighbors
  nodes : ∀ v, s.nodes v = Peer.fresh

/-- What the node `v` has done. -/
def history (v : ν) (moves : List (PeersMove ν)) : List PeerMove := moves.filterMap (atNode v)

theorem mem_history {l : PeerMove} :
    l ∈ history v moves ↔ ∃ a ∈ moves, a.place = some (v, l) := by
  rw [history, List.mem_filterMap]
  exact exists_congr fun a => and_congr_right fun _ => atNode_eq_some

theorem inside_of_history {l : PeerMove} (hl : l.ofNetwork = false) :
    l ∈ history v moves ↔ .inside v l ∈ moves := by
  rw [mem_history]
  constructor
  · rintro ⟨a, ha, hplace⟩
    cases a with
    | inside u l' =>
      obtain ⟨rfl, rfl⟩ := Prod.mk.inj (Option.some.inj hplace)
      exact ha
    | network a =>
      cases a <;> simp [PeersMove.place, Move.exchange] at hplace
      all_goals
        obtain ⟨rfl, rfl⟩ := hplace
        exact absurd hl (by simp [PeerMove.ofNetwork])
  · exact fun h => ⟨_, h, rfl⟩

theorem not_ofNetwork_of_inside (hrun : Run (Step N printable) s₀ moves s) {l : PeerMove}
    (h : .inside v l ∈ moves) : l.ofNetwork = false := by
  refine hrun.invariant_labels (I := fun moves _ => ∀ v l, .inside v l ∈ moves →
    l.ofNetwork = false) (fun moves s a t hI hstep => ?_) (by simp) v l h
  intro v l hmem
  rcases List.mem_append.mp hmem with hmem | hmem
  · exact hI v l hmem
  · obtain rfl := List.mem_singleton.mp hmem
    cases hstep with
    | inside _ hl => exact hl

theorem exchange_of_history (hrun : Run (Step N printable) s₀ moves s) {l : PeerMove}
    (hl : l.ofNetwork = true) (h : l ∈ history v moves) :
    ∃ a, a.exchange = some (v, l) ∧ a ∈ moves.filterMap PeersMove.gossip := by
  obtain ⟨a, ha, hplace⟩ := mem_history.mp h
  cases a with
  | inside u l' =>
    obtain ⟨rfl, rfl⟩ := Prod.mk.inj (Option.some.inj hplace)
    rw [not_ofNetwork_of_inside hrun ha] at hl
    exact absurd hl (by simp)
  | network a => exact ⟨a, hplace, List.mem_filterMap.mpr ⟨_, ha, rfl⟩⟩

theorem history_of_exchange {a : Move ν} {l : PeerMove} (ha : a.exchange = some (v, l))
    (h : a ∈ moves.filterMap PeersMove.gossip) : l ∈ history v moves := by
  obtain ⟨a', ha', hgossip⟩ := List.mem_filterMap.mp h
  cases a' <;> simp [PeersMove.gossip] at hgossip
  subst hgossip
  exact mem_history.mpr ⟨_, ha', ha⟩

/-- What the node passes on inside was taken up by a broadcasting thread of a node that reaches it. -/
theorem taken_of_passed (h₀ : Started neighbors s₀) (hrun : Run (Step N printable) s₀ moves s)
    {m : NetMessage} (h : .pass m ∈ history v moves) :
    ∃ u, .take m ∈ history u moves ∧ Gossip.Reaches neighbors u v := by
  obtain ⟨a, ha, hmem⟩ := exchange_of_history hrun rfl h
  cases a <;> simp [Move.exchange] at ha
  obtain ⟨rfl, rfl⟩ := ha
  obtain ⟨-, hfrom⟩ := Gossip.origin_of_run h₀.network (run_network hrun)
  obtain ⟨u, hu, hreach⟩ := hfrom _ _ hmem
  exact ⟨u, history_of_exchange rfl hu, hreach⟩

theorem run_history (h₀ : Started neighbors s₀) (hrun : Run (Step N printable) s₀ moves s) (v : ν) :
    Run (Peer.Step (N v)) Peer.fresh (history v moves) (s.nodes v) := by
  have hv := run_at hrun v
  rw [h₀.nodes v] at hv
  exact hv

/-- A client of a node that reaches `v` has published the transaction. -/
def PublishedTo (neighbors : ν → List ν) (moves : List (PeersMove ν)) (v : ν) (tx : Transaction) :
    Prop :=
  ∃ w, .inside w (.publish tx) ∈ moves ∧ Gossip.Reaches neighbors w v

omit [DecidableEq ν] in
theorem PublishedTo.snoc {tx : Transaction} (h : PublishedTo neighbors moves v tx)
    (a : PeersMove ν) : PublishedTo neighbors (moves ++ [a]) v tx := by
  obtain ⟨w, hw, hreach⟩ := h
  exact ⟨w, List.mem_append_left _ hw, hreach⟩

theorem history_snoc (v : ν) (moves : List (PeersMove ν)) (a : PeersMove ν) :
    history v (moves ++ [a]) = history v moves ++ (atNode v a).toList := filterMap_snoc _ _ _

/-- What the thread that receives transactions takes has been passed on. -/
theorem passed_of_receiveTx {t : Peers ν} {a : PeersMove ν} {tx : Transaction}
    (h₀ : Started neighbors s₀) (hrun : Run (Step N printable) s₀ moves s)
    (hstep : Step N printable s a t) (ha : atNode v a = some (.receiveTx tx)) :
    .pass (.broadcastTx tx) ∈ history v moves := by
  have hnode := hstep.node v
  rw [ha] at hnode
  obtain ⟨p, hreceive, -⟩ := hnode.cons_inv
  cases hreceive with
  | receiveTx hin =>
    obtain ⟨l, hl, htx⟩ := Peer.fifo_updTransIn.mem_put_of_queue (run_history h₀ hrun v) rfl
      (b := tx) (by rw [hin]; exact List.mem_cons_self)
    rcases l with ⟨_ | tx' | _ | _⟩ | _ <;> simp [PeerMove.passedTx] at htx
    subst htx
    exact hl

/-- Whatever comes into a pool, some client has published. -/
theorem publishedTo_of_added (h₀ : Started neighbors s₀)
    (hrun : Run (Step N printable) s₀ moves s) :
    ∀ v tx, AddedAt (history v moves) tx → PublishedTo neighbors moves v tx := by
  induction hrun with
  | nil =>
    rintro v tx ⟨l, hl, -⟩
    exact absurd hl List.not_mem_nil
  | @snoc s t moves a hrun hstep ih =>
    rintro v tx ⟨l, hl, htx⟩
    rw [history_snoc] at hl
    rcases List.mem_append.mp hl with hl | hl
    · exact (ih v tx ⟨l, hl, htx⟩).snoc a
    have ha : atNode v a = some l := Option.mem_toList.mp hl
    rcases addedTx_eq_some.mp htx with rfl | rfl
    · have hmem : .publish tx ∈ history v [a] := mem_history.mpr ⟨a, by simp, atNode_eq_some.mp ha⟩
      have ha' := List.mem_singleton.mp ((inside_of_history rfl).mp hmem)
      exact ⟨v, by rw [ha']; simp, .refl⟩
    · obtain ⟨u, htake, hreach⟩ := taken_of_passed h₀ hrun (passed_of_receiveTx h₀ hrun hstep ha)
      obtain ⟨w, hw, hreach'⟩ := ih u tx (added_of_take (run_history h₀ hrun u) htake)
      exact ⟨w, List.mem_append_left _ hw, hreach'.trans hreach⟩

/-- The block was completed at a node that reaches `v`, of transactions published to it. -/
def MinedFor (N : ν → Setting) (neighbors : ν → List ν) (moves : List (PeersMove ν)) (v : ν)
    (block : BlockNode) : Prop :=
  ∃ u order, .inside u (.addOwn block order) ∈ moves ∧ Gossip.Reaches neighbors u v ∧
    Authored (N u) (PublishedTo neighbors moves u) block

theorem minedFor_of_addOwn (h₀ : Started neighbors s₀) (hrun : Run (Step N printable) s₀ moves s)
    {block : BlockNode} {order : IterOrder} (h : .addOwn block order ∈ history u moves)
    (hreach : Gossip.Reaches neighbors u v) : MinedFor N neighbors moves v block := by
  have hauthored := (accounted_of_run (run_history h₀ hrun u)).authored block order h
  exact ⟨u, order, (inside_of_history rfl).mp h, hreach,
    hauthored.mono (publishedTo_of_added h₀ hrun u)⟩

/-- What the receiving thread hands to `add_block` was mined at a node that reaches this one. -/
theorem mined_of_received (h₀ : Started neighbors s₀) (hrun : Run (Step N printable) s₀ moves s)
    {block : BlockNode} {order : IterOrder} (h : .addReceived block order ∈ history v moves) :
    ∃ u order', .addOwn block order' ∈ history u moves ∧ Gossip.Reaches neighbors u v := by
  obtain ⟨l, hpass, hblock⟩ := Peer.fifo_incoming.mem_put_of_take (run_history h₀ hrun v) rfl h rfl
  rcases l with ⟨block' | _ | _ | _⟩ | _ <;> simp [PeerMove.passedBlock] at hblock
  subst hblock
  obtain ⟨u, htake, hreach⟩ := taken_of_passed h₀ hrun hpass
  obtain ⟨order', hown⟩ := mined_of_take (run_history h₀ hrun u) htake
  exact ⟨u, order', hown, hreach⟩

/-- What the node hands to `add_block` was mined. -/
theorem minedFor_of_call (h₀ : Started neighbors s₀) (hrun : Run (Step N printable) s₀ moves s)
    {call : Call} (h : call ∈ (history v moves).filterMap (PeerMove.call (N v))) :
    MinedFor N neighbors moves v call.block := by
  obtain ⟨l, hl, hcall⟩ := List.mem_filterMap.mp h
  cases l <;> simp [PeerMove.call] at hcall <;> subst hcall
  case addOwn block order => exact minedFor_of_addOwn h₀ hrun hl .refl
  case addReceived block order =>
    obtain ⟨u, order', hown, hreach⟩ := mined_of_received h₀ hrun hl
    exact minedFor_of_addOwn h₀ hrun hown hreach

end Peers

open Peers

/-- In every run of a network from its start: a block that a node stores is the genesis block, or the
miner thread of a node whose connections lead there completed it, of transactions that clients published
at nodes whose connections lead to that one. -/
theorem stored_block_mined {ν : Type} [DecidableEq ν] {N : ν → Setting} {printable : Char → Bool}
    {neighbors : ν → List ν} {s₀ s : Peers ν} {moves : List (PeersMove ν)}
    (h₀ : Started neighbors s₀) (hrun : Run (Peers.Step N printable) s₀ moves s) (v : ν) :
    (∀ block, (s.nodes v).nakamoto.shared.chain.Stored block → block = BlockNode.genesisBlock ∨
      MinedFor N neighbors moves v block) ∧
    ∀ id tx, (s.nodes v).nakamoto.shared.txPool.poolTxMap.lookup id = some tx →
      tx.genHash (N v).crates = id ∧ tx.verifySig (N v).crates = .ok true ∧
        PublishedTo neighbors moves v tx := by
  have haccounted := accounted_of_run (run_history h₀ hrun v)
  constructor
  · intro block hblock
    rcases stored_delivered haccounted.chain hblock with rfl | ⟨⟨call, hcall, rfl⟩, -⟩
    · exact .inl rfl
    · exact .inr (minedFor_of_call h₀ hrun hcall)
  · intro id tx hlookup
    obtain ⟨hid, hsig⟩ := haccounted.honest.txPool.keyed id tx hlookup
    exact ⟨hid, hsig, publishedTo_of_added h₀ hrun v tx (haccounted.fromPool.pool id tx hlookup)⟩

/-! ## Two nodes -/

namespace Peer
variable {p : Peer}

/-- The moves of the miner thread at the node. -/
theorem run_mine {moves : List Node.Move} (hrun : Run (Nakamoto.Step N) p.nakamoto moves n)
    (hmoves : ∀ m ∈ moves, PeerMove.ofMiner m = true) (hsent : p.ownBlock = none) :
    Run (Step N) p (moves.map .mine) { p with nakamoto := n } :=
  (hrun.guarded_of_forall hmoves).map (fun n => { p with nakamoto := n }) PeerMove.mine
    fun n _ _ h => (Step.mine (p := { p with nakamoto := n }) h.2 hsent h.1 : Step N _ _ _)

end Peer

namespace Peers
section
variable {ν : Type} [DecidableEq ν] {N : ν → Setting} {printable : Char → Bool} {s : Peers ν} {v : ν}

theorem run_inside {moves : List PeerMove} {p : Peer}
    (hrun : Run (Peer.Step (N v)) (s.nodes v) moves p) (hmoves : ∀ l ∈ moves, l.ofNetwork = false)
    (hcreated : s.network.Connected v) : Run (Step N printable) s (moves.map (.inside v))
      { s with nodes := Function.update s.nodes v p } := by
  have hstep : ∀ p l p', (Peer.Step (N v) p l p' ∧ l.ofNetwork = false) →
      Step N printable { s with nodes := Function.update s.nodes v p } (.inside v l)
        { s with nodes := Function.update s.nodes v p' } := by
    intro p l p' h
    have hnode : Peer.Step (N v) (Function.update s.nodes v p v) l p' := by
      rw [Function.update_self]
      exact h.1
    have hinside : Step N printable _ _ _ :=
      .inside (s := { s with nodes := Function.update s.nodes v p }) hcreated h.2 hnode
    rwa [Function.update_idem] at hinside
  have hlift := (hrun.guarded_of_forall hmoves).map
    (fun p => ({ s with nodes := Function.update s.nodes v p } : Peers ν)) (PeersMove.inside v) hstep
  rwa [Function.update_eq_self] at hlift

theorem run_gossip {network : Gossip ν} {moves : List (Move ν)}
    (hrun : Run (Gossip.Step printable) s.network moves network)
    (hmoves : ∀ a ∈ moves, a.exchange = none) :
    Run (Step N printable) s (moves.map .network) { s with network := network } :=
  (hrun.guarded_of_forall hmoves).map (fun network => { s with network := network })
    PeersMove.network fun network _ _ h =>
      (Step.network (s := { s with network := network }) h.1 h.2 : Step N printable _ _ _)

end
end Peers

namespace Peers

/-- The nodes of a network of two. -/
def both (p q : Peer) : Bool → Peer
  | false => p
  | true => q

theorem update_first (p q p' : Peer) : Function.update (both p q) false p' = both p' q := by
  funext v
  cases v <;> rfl

theorem update_second (p q q' : Peer) : Function.update (both p q) true q' = both p q' := by
  funext v
  cases v <;> rfl

/-- Two nodes, each connected to the other. -/
def couple : Peers Bool where
  network := Gossip.pair
  nodes := both Peer.fresh Peer.fresh

theorem started_couple : Started (fun v => [!v]) couple where
  network := ⟨fun _ _ hw => hw, fun T hT => absurd hT (Multiset.notMem_zero T), rfl⟩
  nodes := fun v => by cases v <;> rfl

end Peers

/-- The block that a node mines of the loan. -/
def loanBlock : BlockNode := minedBlock 'a' "0" loan

/-- What the node does to get there. -/
def mineLoan : List PeerMove :=
  .publish loan.1 ::
    (((Nakamoto.refreshMoves loan.1).tail ++ puzzleMoves ++ solveMoves).map .mine ++
      [.addOwn loanBlock asStored, .sendBlock loanBlock])

theorem run_mineLoan : ∃ p T, Run (Peer.Step Nakamoto.walletSetting) Peer.fresh mineLoan p ∧
    Returns walletCrates .debug genesisTree ⟨loanBlock, 0, asStored⟩ T ∧ T.Stored loanBlock ∧
    p.incoming = [] ∧ p.ownBlock = none ∧ p.blockOut = [loanBlock] ∧
    p.nakamoto.shared.chain = T := by
  obtain ⟨T, hcall, -, -, hT⟩ := loan_returns .debug
  obtain ⟨n, hadd, hrest⟩ := (run_firstPuzzle payable_loan.signed genHash_loan).cons_inv
  have hpublish : Run (Peer.Step Nakamoto.walletSetting) Peer.fresh _ _ := Run.single (.publish hadd)
  have hmine := Peer.run_mine
    (p := { Peer.fresh with nakamoto := n, added := loan.1 ::ₘ Peer.fresh.added })
    (hrest.trans (run_solveMoves 427 rfl (by decide) rfl rfl))
    (by decide) rfl
  have hown := (hpublish.trans hmine).snoc
    (.addOwn rfl rfl (Nakamoto.Step.addOwn rfl (Node.Step.addBlock hcall.1)))
  exact ⟨_, T, hown.snoc (.sendBlock rfl), hcall.1, (hT.mem_line List.mem_cons_self).1, rfl, rfl, rfl,
    rfl⟩

namespace Peers

variable {N : Bool → Setting} {p q : Peer}

/-- Both nodes have seen the message, and it is on its way no more. -/
structure Seen (m : NetMessage) (net : Gossip Bool) : Prop where
  quiet : net.Quiet
  channels : ∀ v, (net.nodes v).channels = [!v]
  ack : ∀ v, m.debug (fun _ => true) ∈ (net.nodes v).ack

/-- A message goes from the first node to the second, and back. -/
theorem run_exchange {m : NetMessage} (hm : m.relayed = true) {p' : Peer}
    (htake : Peer.Step (N false) p (.take m) p') : ∃ moves net,
    Run (Step N fun _ => true) ⟨Gossip.pair, both p q⟩ moves ⟨net, both p' (q.passed m)⟩ ∧
    Seen m net ∧ ∀ v l, .inside v l ∉ moves := by
  have htake : Run (Step N fun _ => true) ⟨Gossip.pair, both p q⟩ _ _ :=
    Run.single (.exchange (.originate (u := false) hm fun w => Multiset.notMem_zero _) rfl htake)
  rw [update_first] at htake
  have hwritten : Run (Gossip.Step fun _ => true) _ _ _ :=
    Gossip.run_broadcast (u := false) (w := true) (m := m)
      (s := { Gossip.pair with
        nodes := Gossip.pair.acknowledge (fun _ => true) false m
        threads := {.originated false m} }) 0 rfl rfl
  have haccept := hwritten.snoc (@Gossip.Step.accept _ _ (fun _ => true) _ true m 0 rfl
    (Finset.notMem_empty _))
  rw [reader, if_pos hm] at haccept
  have hsent := htake.trans (run_gossip haccept (by simp [Move.exchange]))
  have hpass := hsent.snoc (.exchange (@Gossip.Step.pass _ _ (fun _ => true) _ true m 0 rfl) rfl
    .pass)
  dsimp only at hpass
  rw [update_second] at hpass
  have hrelayed := hpass.trans (run_gossip (Gossip.run_relay (u := true) (w := false) (m := m) 0 rfl
    rfl) (by simp [Move.exchange]))
  have hdrop := hrelayed.snoc (.network (@Gossip.Step.drop _ _ (fun _ => true) _ false m 0 rfl
    (Finset.mem_insert_self _ _)) rfl)
  refine ⟨_, _, hdrop, ⟨⟨rfl, rfl⟩, fun v => ?_, fun v => ?_⟩, by simp⟩
  · cases v <;> rfl
  · cases v <;> exact Finset.mem_insert_self _ _

end Peers

/-- Mined at the first node and stored at both, and nothing is left on the way. -/
theorem run_loanBlock : ∃ moves s T,
    Run (Peers.Step (fun _ => Nakamoto.walletSetting) fun _ => true) Peers.couple moves s ∧
    s.network.Quiet ∧ (∀ v, (s.nodes v).incoming = [] ∧ (s.nodes v).outgoing = []) ∧
    (∀ v block order, .inside v (.addOwn block order) ∈ moves ↔
      v = false ∧ block = loanBlock ∧ order = asStored) ∧
    Returns walletCrates .debug genesisTree ⟨loanBlock, 0, asStored⟩ T ∧ T.Stored loanBlock ∧
    (∀ v, (s.nodes v).nakamoto.shared.chain = T) := by
  obtain ⟨p, T, hmine, hcall, hstored, hin, hown, hout, hchain⟩ := run_mineLoan
  have hmined : Run (Peers.Step (fun _ => Nakamoto.walletSetting) fun _ => true) Peers.couple _ _ :=
    Peers.run_inside (v := false) hmine (by decide) fun w => Multiset.notMem_zero _
  rw [Peers.couple] at hmined ⊢
  dsimp only at hmined
  rw [Peers.update_first] at hmined
  obtain ⟨moves, net, hexchange, ⟨hquiet, -, -⟩, hnone⟩ := Peers.run_exchange
    (N := fun _ => Nakamoto.walletSetting) (q := Peer.fresh) rfl (.takeBlock hout)
  have hraise : Run (Peer.Step Nakamoto.walletSetting)
    (Peer.fresh.passed (.broadcastBlock loanBlock)) _ _ :=
      Run.single (.raise rfl (Nakamoto.Step.raise rfl))
  have hreceived := (hraise.snoc (.addReceived rfl
    (Nakamoto.Step.addReceived rfl (Node.Step.addBlock hcall)))).snoc (.lower (Nakamoto.Step.lower rfl))
  have hall := (hmined.trans hexchange).trans (Peers.run_inside (v := true) hreceived (by decide)
    fun w => by rw [hquiet.1]; exact Multiset.notMem_zero _)
  dsimp only at hall
  rw [Peers.update_second] at hall
  refine ⟨_, _, T, hall, hquiet, fun v => ?_, fun v block order => ?_, hcall, hstored, fun v => ?_⟩
  · cases v
    · exact ⟨hin, by simp [Peers.both, Peer.outgoing, hown]⟩
    · exact ⟨rfl, rfl⟩
  · simp only [List.mem_append, List.mem_map, hnone, or_false, PeersMove.inside.injEq]
    constructor
    · rintro (⟨l, hl, rfl, rfl⟩ | ⟨l, hl, rfl, rfl⟩)
      · simp [mineLoan] at hl
        exact ⟨rfl, hl.resolve_left fun h => by simpa using List.mem_of_mem_tail h⟩
      · simp at hl
    · rintro ⟨rfl, rfl, rfl⟩
      exact .inl ⟨_, by simp [mineLoan], rfl, rfl⟩
  · cases v
    · exact hchain
    · rfl

/-- The second node stores what the first has mined of the loan that was published there. -/
theorem stored_block_mined_loan : ∃ moves s, (s.nodes true).nakamoto.shared.chain.Stored loanBlock ∧
    Run (Peers.Step (fun _ => Nakamoto.walletSetting) fun _ => true) Peers.couple moves s ∧
    MinedFor (fun _ => Nakamoto.walletSetting) (fun v => [!v]) moves true loanBlock := by
  obtain ⟨moves, s, T, hrun, -, -, -, -, hstored, hchain⟩ := run_loanBlock
  have hboth : (s.nodes true).nakamoto.shared.chain.Stored loanBlock := by
    rw [hchain]
    exact hstored
  refine ⟨moves, s, hboth, hrun, ?_⟩
  exact ((stored_block_mined started_couple hrun true).1 _ hboth).resolve_left fun he =>
    absurd (congrArg (fun b => b.header.blockId) he) (by decide)

end NakamotoNode.Network
