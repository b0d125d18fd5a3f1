import NakamotoNode.Chain.Agreement
import NakamotoNode.Chain.Confirmations
import NakamotoNode.Network.Provenance

/-! # Replication of the chain

In a network whose connections are up every block is handed to `add_block` once at most at each node
that did not mine it, in the order in which the readers passed the blocks on, and when nothing is left
on the way every node that the miner's connections lead to has got it (`blocks_delivered`). If all
blocks that are mined make up one path, the nodes are copies of one chain, each part of the way to it:
their finalized ledgers are comparable at any time, and their trees are equal at rest
(`replicas_agree`). -/

namespace NakamotoNode.Network
open Foundations Foundations.RustStd Chain Chain.BlockTree Node
set_option autoImplicit false

/-- At rest, what one node broadcasts has been broadcast or passed on by each that it reaches. -/
theorem Gossip.spread_of_quiet {ν : Type} [DecidableEq ν] {printable : Char → Bool}
    {neighbors : ν → List ν} {s₀ s : Gossip ν} {moves : List (Move ν)} {u v : ν} {m : NetMessage}
    (h₀ : Established neighbors s₀) (hrun : Run (Step printable) s₀ moves s) (hquiet : s.Quiet)
    (hm : m.relayed = true) (hu : .originate u m ∈ moves) (hreach : Reaches neighbors u v) :
    .originate v m ∈ moves ∨ .pass v m ∈ moves := by
  obtain ⟨F, hF, hsim⟩ := floods_of_run h₀ hrun
  have hpending : F.pending = 0 := by
    rw [hsim.pending, hquiet.1, hquiet.2]
    rfl
  have hroute : Relation.ReflTransGen (fun a b => b ∈ route neighbors a m) u v := by
    simpa only [route, hm, if_true, Reaches] using hreach
  have hseen := Flood.seen_of_reaches hF hpending ((seen_iff hF).mpr (.inl hu)) hroute
  exact ((seen_iff hF).mp hseen).imp_right (passed_of_quiet h₀ hrun hquiet hm)

namespace Peers
variable {ν : Type} [DecidableEq ν] {N : ν → Setting} {printable : Char → Bool}
  {neighbors : ν → List ν} {s₀ s : Peers ν} {moves : List (PeersMove ν)} {u v : ν}
  {block : BlockNode}

/-- New chains and pools, every node connected to its neighbors, and no message yet. -/
structure Established (neighbors : ν → List ν) (s : Peers ν) : Prop where
  network : s.network.Established neighbors
  nodes : ∀ v, s.nodes v = Peer.fresh

/-- No message is on a connection or in the hands of a thread, and no block in a channel of a node. -/
structure AtRest (s : Peers ν) : Prop where
  network : s.network.Quiet
  incoming : ∀ v, (s.nodes v).incoming = []
  outgoing : ∀ v, (s.nodes v).outgoing = []

omit [DecidableEq ν] in
theorem Established.started (h : Established neighbors s) : Started neighbors s where
  network := by
    refine ⟨fun u w hw => (h.network.channels u).mem_iff.mp hw, fun T hT => ?_, h.network.inFlight⟩
    rw [h.network.threads] at hT
    exact absurd hT (Multiset.notMem_zero T)
  nodes := h.nodes

/-! ## Delivery -/

/-- The blocks that the readers of the node have passed on, in their order. -/
def passedBlocks (v : ν) (moves : List (PeersMove ν)) : List BlockNode :=
  (history v moves).filterMap PeerMove.passedBlock

/-- The blocks that the receiving thread has handed to `add_block`, in their order. -/
def receivedBlocks (v : ν) (moves : List (PeersMove ν)) : List BlockNode :=
  (history v moves).filterMap PeerMove.receivedBlock

/-- The blocks that the miner thread has handed to `add_block`, in their order. -/
def minedBlocks (v : ν) (moves : List (PeersMove ν)) : List BlockNode :=
  (history v moves).filterMap PeerMove.completedBlock

theorem mem_minedBlocks :
    block ∈ minedBlocks v moves ↔ ∃ order, .inside v (.addOwn block order) ∈ moves := by
  rw [minedBlocks, List.mem_filterMap]
  constructor
  · rintro ⟨l, hl, hblock⟩
    cases l <;> simp [PeerMove.completedBlock] at hblock
    subst hblock
    exact ⟨_, (inside_of_history rfl).mp hl⟩
  · rintro ⟨order, h⟩
    exact ⟨_, (inside_of_history rfl).mpr h, rfl⟩

theorem passedBlocks_eq (h₀ : Started neighbors s₀) (hrun : Run (Step N printable) s₀ moves s) :
    passedBlocks v moves = receivedBlocks v moves ++ (s.nodes v).incoming :=
  Peer.fifo_incoming.put_eq (run_history h₀ hrun v) rfl

theorem passedBlock_eq_some {l : PeerMove} :
    l.passedBlock = some block ↔ l = .pass (.broadcastBlock block) := by
  rcases l with ⟨_ | _ | _ | _⟩ | _ <;> simp [PeerMove.passedBlock]

/-- A move of a broadcasting thread or a reader is one of the network. -/
theorem count_exchange {β : Type} [DecidableEq β] (hrun : Run (Step N printable) s₀ moves s)
    {f : PeerMove → Option β} {b : β} {l : PeerMove} {a : Move ν} (hl : l.ofNetwork = true)
    (hf : ∀ l', f l' = some b ↔ l' = l) (ha : ∀ a', a'.exchange = some (v, l) ↔ a' = a) :
    ((history v moves).filterMap f).count b = (moves.filterMap PeersMove.gossip).count a := by
  rw [history, List.filterMap_filterMap, List.count_filterMap, List.count_filterMap]
  refine List.countP_congr fun a' hmem => ?_
  rw [beq_iff_eq, beq_iff_eq, Option.bind_eq_some_iff]
  simp only [hf, exists_eq_right, atNode_eq_some]
  cases a' with
  | inside u l' =>
    simp only [PeersMove.place, PeersMove.gossip, Option.some.injEq, Prod.mk.injEq, reduceCtorEq,
      iff_false, not_and]
    rintro - rfl
    exact absurd (hl.symm.trans (not_ofNetwork_of_inside hrun hmem)) (by simp)
  | network a' =>
    rw [PeersMove.gossip, Option.some.injEq]
    exact ha a'

theorem count_passedBlocks (hrun : Run (Step N printable) s₀ moves s) :
    (passedBlocks v moves).count block =
      (moves.filterMap PeersMove.gossip).count (.pass v (.broadcastBlock block)) :=
  count_exchange hrun rfl (fun _ => passedBlock_eq_some) fun a => by
    cases a <;> simp [Move.exchange]

theorem nodup_receivedBlocks (h₀ : Established neighbors s₀)
    (hrun : Run (Step N printable) s₀ moves s) : (receivedBlocks v moves).Nodup := by
  have hpassed : (passedBlocks v moves).Nodup := by
    rw [List.nodup_iff_count_le_one]
    intro block
    rw [count_passedBlocks hrun]
    refine (Gossip.count_le h₀.network (run_network hrun) rfl).trans (le_of_eq ?_)
    simp [Gossip.due, Gossip.relays, List.count_eq_zero]
  rw [passedBlocks_eq h₀.started hrun] at hpassed
  exact (List.nodup_append.mp hpassed).1

theorem takenBlock_eq_some {l : PeerMove} :
    l.takenBlock = some block ↔ l = .take (.broadcastBlock block) := by
  rcases l with _ | ⟨_ | _ | _ | _⟩ | _ <;> simp [PeerMove.takenBlock]

/-- When the node's own blocks have all been taken, a block it has mined is one that it broadcasts. -/
theorem mem_minedBlocks_iff (h₀ : Started neighbors s₀) (hrun : Run (Step N printable) s₀ moves s)
    (hout : (s.nodes v).outgoing = []) : block ∈ minedBlocks v moves ↔
      .originate v (.broadcastBlock block) ∈ moves.filterMap PeersMove.gossip := by
  rw [minedBlocks, Peer.fifo_outgoing.put_eq (run_history h₀ hrun v) rfl, hout, List.append_nil,
    List.mem_filterMap]
  constructor
  · rintro ⟨l, hl, hblock⟩
    obtain rfl := takenBlock_eq_some.mp hblock
    obtain ⟨a, ha, hmem⟩ := exchange_of_history hrun rfl hl
    cases a <;> simp [Move.exchange] at ha
    obtain ⟨rfl, rfl⟩ := ha
    exact hmem
  · exact fun h => ⟨_, history_of_exchange rfl h, rfl⟩

/-- At rest, a block that was mined has come to every node that the miner's connections lead to. -/
theorem delivered_of_mined (h₀ : Established neighbors s₀)
    (hrun : Run (Step N printable) s₀ moves s) (hrest : AtRest s)
    (hmined : block ∈ minedBlocks u moves) (hreach : Gossip.Reaches neighbors u v) :
    block ∈ minedBlocks v moves ∨ block ∈ receivedBlocks v moves := by
  rw [mem_minedBlocks_iff h₀.started hrun (hrest.outgoing u)] at hmined
  rw [mem_minedBlocks_iff h₀.started hrun (hrest.outgoing v)]
  refine (Gossip.spread_of_quiet h₀.network (run_network hrun) hrest.network rfl hmined
    hreach).imp_right fun hpass => ?_
  have hpassed : block ∈ passedBlocks v moves :=
    List.mem_filterMap.mpr ⟨_, history_of_exchange rfl hpass, rfl⟩
  rwa [passedBlocks_eq h₀.started hrun, hrest.incoming, List.append_nil] at hpassed

end Peers

open Peers

/-- In every run of an established network the receiving thread of a node hands the blocks that the
readers passed on to `add_block` in their order, none twice, and only blocks that some node has mined;
at rest, those of every node whose connections lead there that the node has not mined itself. -/
theorem blocks_delivered {ν : Type} [DecidableEq ν] {N : ν → Setting} {printable : Char → Bool}
    {neighbors : ν → List ν} {s₀ s : Peers ν} {moves : List (PeersMove ν)}
    (h₀ : Peers.Established neighbors s₀) (hrun : Run (Peers.Step N printable) s₀ moves s) (v : ν) :
    receivedBlocks v moves <+: passedBlocks v moves ∧ (receivedBlocks v moves).Nodup ∧
    (∀ block ∈ receivedBlocks v moves, ∃ u, block ∈ minedBlocks u moves ∧
      Gossip.Reaches neighbors u v) ∧
    (AtRest s → ∀ u block, block ∈ minedBlocks u moves → Gossip.Reaches neighbors u v →
      block ∈ minedBlocks v moves ∨ (receivedBlocks v moves).count block = 1) := by
  have hnodup := nodup_receivedBlocks (v := v) h₀ hrun
  refine ⟨⟨_, (passedBlocks_eq h₀.started hrun).symm⟩, hnodup, fun block hblock => ?_,
    fun hrest u block hmined hreach => ?_⟩
  · obtain ⟨l, hl, hreceived⟩ := List.mem_filterMap.mp hblock
    cases l <;> simp [PeerMove.receivedBlock] at hreceived
    subst hreceived
    obtain ⟨u, order, hown, hreach⟩ := mined_of_received h₀.started hrun hl
    exact ⟨u, List.mem_filterMap.mpr ⟨_, hown, rfl⟩, hreach⟩
  · exact (delivered_of_mined h₀ hrun hrest hmined hreach).imp_right fun hmem =>
      List.count_eq_one_of_mem hnodup hmem

/-! ## One path -/

namespace Peers
variable {ν : Type} [DecidableEq ν] {N : ν → Setting} {printable : Char → Bool}
  {neighbors : ν → List ν} {s₀ s : Peers ν} {moves : List (PeersMove ν)} {v : ν}

/-- The tree of a node. -/
def chain (s : Peers ν) (v : ν) : BlockTree := (s.nodes v).nakamoto.shared.chain

/-- The calls of `add_block` at a node. -/
def calls (N : ν → Setting) (v : ν) (moves : List (PeersMove ν)) : List Call :=
  (history v moves).filterMap (PeerMove.call (N v))

/-- The nodes run one build, and accept blocks alike. -/
structure Uniform (N : ν → Setting) (C : Crates) (profile : Profile) (d : ℕ) : Prop where
  crates : ∀ v, (N v).crates = C
  profile : ∀ v, (N v).profile = profile
  difficulty : ∀ v, (N v).config.difficultyLeadingZeroLenAcc = d

theorem run_calls {C : Crates} {profile : Profile} {d : ℕ} (hN : Uniform N C profile d)
    (h₀ : Started neighbors s₀) (hrun : Run (Step N printable) s₀ moves s) (v : ν) :
    Run (Returns C profile) genesisTree (calls N v moves) (s.chain v) := by
  have hcalls := (accounted_of_run (run_history h₀ hrun v)).chain
  rw [hN.crates, hN.profile] at hcalls
  exact hcalls

theorem mem_calls {call : Call} (h : call ∈ calls N v moves) :
    (call.block ∈ minedBlocks v moves ∨ call.block ∈ receivedBlocks v moves) ∧
      call.leadingZeroLen = (N v).config.difficultyLeadingZeroLenAcc := by
  obtain ⟨l, hl, hcall⟩ := List.mem_filterMap.mp h
  cases l <;> simp [PeerMove.call] at hcall <;> subst hcall
  · exact ⟨.inr (List.mem_filterMap.mpr ⟨_, hl, rfl⟩), rfl⟩
  · exact ⟨.inl (List.mem_filterMap.mpr ⟨_, hl, rfl⟩), rfl⟩

theorem block_mem_calls {block : BlockNode}
    (h : block ∈ minedBlocks v moves ∨ block ∈ receivedBlocks v moves) :
    block ∈ (calls N v moves).map Call.block := by
  have hcall : ∀ {l : PeerMove}, l ∈ history v moves →
      (l.completedBlock = some block ∨ l.receivedBlock = some block) →
      block ∈ (calls N v moves).map Call.block := by
    intro l hl hblock
    cases l <;> simp [PeerMove.completedBlock, PeerMove.receivedBlock] at hblock <;> subst hblock
    all_goals exact List.mem_map.mpr ⟨_, List.mem_filterMap.mpr ⟨_, hl, rfl⟩, rfl⟩
  rcases h with h | h
  · obtain ⟨l, hl, hblock⟩ := List.mem_filterMap.mp h
    exact hcall hl (.inl hblock)
  · obtain ⟨l, hl, hblock⟩ := List.mem_filterMap.mp h
    exact hcall hl (.inr hblock)

/-- What is handed to `add_block` anywhere was mined somewhere. -/
theorem mined_of_call (h₀ : Started neighbors s₀) (hrun : Run (Step N printable) s₀ moves s)
    {call : Call} (h : call ∈ calls N v moves) : ∃ u, call.block ∈ minedBlocks u moves := by
  rcases (mem_calls h).1 with hown | hreceived
  · exact ⟨v, hown⟩
  · obtain ⟨l, hl, hblock⟩ := List.mem_filterMap.mp hreceived
    cases l <;> simp [PeerMove.receivedBlock] at hblock
    obtain ⟨u, order, hown, -⟩ := mined_of_received h₀ hrun hl
    exact ⟨u, List.mem_filterMap.mpr ⟨_, hown, by simp [PeerMove.completedBlock, hblock]⟩⟩

/-- If what is mined is on one path, each node is part of the way along it. -/
theorem partway_of_run {C : Crates} {profile : Profile} {d : ℕ} (hN : Uniform N C profile d)
    (h₀ : Started neighbors s₀) (hrun : Run (Step N printable) s₀ moves s)
    {line : List BlockNode} {Tn : BlockTree} (hline : Grows C profile d genesisTree line Tn)
    (hos : Tn.orphans = ∅) (hpath : IsPath "0" line)
    (hmined : ∀ u, ∀ block ∈ minedBlocks u moves, block ∈ line ∨ block.header.blockId = "0")
    (v : ν) : ∃ done rest,
      Partway C profile d line Tn ((calls N v moves).map Call.block) done rest (s.chain v) ∧
      (∀ b, (s.chain v).Stored b ↔ b = BlockNode.genesisBlock ∨ b ∈ done) ∧
      (s.chain v).branch (s.chain v).finalizedBlockId = done.reverse.drop 6 := by
  have hcalls : ∀ call ∈ calls N v moves,
      (call.block ∈ line ∨ call.block.header.blockId = "0") ∧ call.leadingZeroLen = d := by
    intro call hcall
    obtain ⟨u, hu⟩ := mined_of_call h₀ hrun hcall
    exact ⟨hmined u _ hu, (mem_calls hcall).2.trans (hN.difficulty v)⟩
  have hblocks := fun call hcall => (hcalls call hcall).1
  have hv := run_calls hN h₀ hrun v
  obtain ⟨T, done, rest, hT, hpartway⟩ := partway_run hline hos hpath hcalls
  obtain rfl := run_unique hv hT
  obtain ⟨hbranch, hlast⟩ := hpartway.branch_last hline hv hblocks hpath
  refine ⟨done, rest, hpartway, fun b => hpartway.stored_iff hline hv hblocks, ?_⟩
  rw [branch_final_of_line hpartway.inv hlast, hbranch]

theorem drop_suffix_drop {α : Type} {l l' : List α} (h : l <:+ l') (n : ℕ) :
    l.drop n <:+ l'.drop n := by
  refine List.suffix_of_suffix_length_le ((List.drop_suffix n l).trans h) (List.drop_suffix n l') ?_
  have := h.length_le
  rw [List.length_drop, List.length_drop]
  omega

/-- Nodes that are part of the way along one path have comparable ledgers. -/
theorem ledgers_comparable {C : Crates} {d : ℕ} {T T' Tn : BlockTree}
    {line seen seen' done done' rest rest' : List BlockNode}
    (hT : Reachable C .debug T) (hT' : Reachable C .debug T')
    (h : Partway C .debug d line Tn seen done rest T)
    (h' : Partway C .debug d line Tn seen' done' rest' T')
    (hfinal : T.branch T.finalizedBlockId = done.reverse.drop 6)
    (hfinal' : T'.branch T'.finalizedBlockId = done'.reverse.drop 6) :
    (∃ later, LedgerExtends C T T' later) ∨ ∃ later, LedgerExtends C T' T later := by
  have hI := replayed_of_reachable hT
  have hI' := replayed_of_reachable hT'
  have hdone : done <+: line := ⟨rest, h.split⟩
  have hdone' : done' <+: line := ⟨rest', h'.split⟩
  rcases List.prefix_or_prefix_of_prefix hdone hdone' with hle | hle
  · refine .inl (ledgerExtends_of_suffix hT.inv hT'.inv hI hI' ?_)
    rw [hfinal, hfinal']
    exact drop_suffix_drop (List.reverse_suffix.mpr hle) 6
  · refine .inr (ledgerExtends_of_suffix hT'.inv hT.inv hI' hI ?_)
    rw [hfinal, hfinal']
    exact drop_suffix_drop (List.reverse_suffix.mpr hle) 6

end Peers

/-- Debug nodes that accept blocks alike, when the blocks they mine make up a single path that can be
added in order: at any time the finalized ledger of one of two nodes is that of the other after the
blocks between, and each node has finalized what it stores but for the last six blocks. At rest, when all
blocks of the path have been mined, every node of a connected network has the tree of the path, but for
the orphan map. -/
theorem replicas_agree {ν : Type} [DecidableEq ν] {N : ν → Setting} {printable : Char → Bool}
    {neighbors : ν → List ν} {s₀ s : Peers ν} {moves : List (PeersMove ν)} {C : Crates} {d : ℕ}
    {inOrder : List Call} {Tn : BlockTree} (hN : Uniform N C .debug d)
    (h₀ : Peers.Established neighbors s₀) (hrun : Run (Peers.Step N printable) s₀ moves s)
    (hpath : IsPath "0" (inOrder.map Call.block)) (hd : ∀ call ∈ inOrder, call.leadingZeroLen = d)
    (hin : Run (Returns C .debug) genesisTree inOrder Tn)
    (hall : ∀ call ∈ inOrder, Tn.Stored call.block)
    (hmined : ∀ u, ∀ block ∈ minedBlocks u moves, block ∈ inOrder.map Call.block) :
    (∀ u v, (∃ later, LedgerExtends C (s.chain u) (s.chain v) later) ∨
      ∃ later, LedgerExtends C (s.chain v) (s.chain u) later) ∧
    (∀ v, ∃ done : List BlockNode, (∀ b, (s.chain v).Stored b ↔ b = BlockNode.genesisBlock ∨ b ∈ done) ∧
      (s.chain v).branch (s.chain v).finalizedBlockId = done.reverse.drop 6) ∧
    (AtRest s → (∀ u v, Gossip.Reaches neighbors u v) →
      (∀ call ∈ inOrder, ∃ u, call.block ∈ minedBlocks u moves) →
      ∀ v, s.chain v = { Tn with orphans := (s.chain v).orphans }) := by
  have hdeep : ∀ id ∈ genesisTree.allBlocks, genesisTree.depthOf id ≤ genesisTree.depthOf "0" := by
    intro id hid
    obtain ⟨b, hb⟩ := mem_allBlocks_iff.mp hid
    rw [(getBlock_genesisTree hb).1]
  obtain ⟨line, hline, hpath', hos, hsub, hcover⟩ := grows_of_run inv_genesisTree rfl
    inv_genesisTree.shape.root_mem hdeep hpath hd hin hall
  have hmined' : ∀ u, ∀ block ∈ minedBlocks u moves, block ∈ line ∨ block.header.blockId = "0" := by
    intro u block hblock
    obtain ⟨call, hcall, rfl⟩ := List.mem_map.mp (hmined u block hblock)
    exact hcover call hcall
  have hpartway := partway_of_run hN h₀.started hrun hline hos hpath' hmined'
  refine ⟨fun u v => ?_, fun v => ?_, fun hrest hreach hmine v => ?_⟩
  · obtain ⟨done, rest, hu, -, hfinal⟩ := hpartway u
    obtain ⟨done', rest', hv, -, hfinal'⟩ := hpartway v
    exact ledgers_comparable (reachable_iff.mpr ⟨_, run_calls hN h₀.started hrun u⟩)
      (reachable_iff.mpr ⟨_, run_calls hN h₀.started hrun v⟩) hu hv hfinal hfinal'
  · obtain ⟨done, rest, -, hstored, hfinal⟩ := hpartway v
    exact ⟨done, hstored, hfinal⟩
  · obtain ⟨done, rest, hv, -, -⟩ := hpartway v
    refine hv.complete fun b hb => ?_
    obtain ⟨call, hcall, rfl⟩ := List.mem_map.mp (hsub b hb)
    obtain ⟨u, hu⟩ := hmine call hcall
    exact block_mem_calls (delivered_of_mined h₀ hrun hrest hu (hreach u v))

/-! ## Two nodes -/

theorem Peers.established_couple : Peers.Established (fun v => [!v]) Peers.couple where
  network := ⟨fun _ => rfl, fun _ => .refl _, rfl, rfl⟩
  nodes := fun v => by cases v <;> rfl

theorem Peers.uniform_wallet :
    Uniform (fun _ : Bool => Nakamoto.walletSetting) walletCrates .debug 0 :=
  ⟨fun _ => rfl, fun _ => rfl, fun _ => rfl⟩

theorem reaches_couple (u v : Bool) : Gossip.Reaches (fun v => [!v]) u v := by
  by_cases h : u = v
  · subst h
    exact .refl
  · refine .single ?_
    revert h
    revert u v
    decide

theorem blocks_delivered_loan : ∃ moves s,
    Run (Peers.Step (fun _ => Nakamoto.walletSetting) fun _ => true) Peers.couple moves s ∧
    AtRest s ∧ minedBlocks true moves = [] ∧ (receivedBlocks true moves).count loanBlock = 1 := by
  obtain ⟨moves, s, T, hrun, hquiet, hempty, hown, -, -, -⟩ := run_loanBlock
  have hrest : AtRest s := ⟨hquiet, fun v => (hempty v).1, fun v => (hempty v).2⟩
  have hnone : minedBlocks true moves = [] := by
    refine List.eq_nil_iff_forall_not_mem.mpr fun block hblock => ?_
    obtain ⟨order, hmem⟩ := mem_minedBlocks.mp hblock
    exact absurd ((hown _ _ _).mp hmem).1 (by decide)
  have hmined : loanBlock ∈ minedBlocks false moves :=
    mem_minedBlocks.mpr ⟨_, (hown _ _ _).mpr ⟨rfl, rfl, rfl⟩⟩
  refine ⟨moves, s, hrun, hrest, hnone, ?_⟩
  refine ((blocks_delivered established_couple hrun true).2.2.2 hrest false loanBlock hmined
    (reaches_couple _ _)).resolve_left ?_
  rw [hnone]
  exact List.not_mem_nil

/-- Both nodes have the tree of the one block that was mined. -/
theorem replicas_agree_loan : ∃ (moves : List (PeersMove Bool)) (s : Peers Bool) (T : BlockTree),
    Run (Peers.Step (fun _ => Nakamoto.walletSetting) fun _ => true) Peers.couple moves s ∧
    T.Stored loanBlock ∧ ∀ v, s.chain v = { T with orphans := (s.chain v).orphans } := by
  obtain ⟨moves, s, T, hrun, hquiet, hempty, hown, hcall, hstored, -⟩ := run_loanBlock
  have hmined : ∀ u, ∀ block ∈ minedBlocks u moves, block ∈ [loanBlock] := by
    intro u block hblock
    obtain ⟨order, hmem⟩ := mem_minedBlocks.mp hblock
    rw [((hown _ _ _).mp hmem).2.1]
    exact List.mem_singleton_self _
  have hin : Run (Returns walletCrates .debug) genesisTree [⟨loanBlock, 0, asStored⟩] T :=
    Run.single hcall
  have hpath : IsPath "0" ([⟨loanBlock, 0, asStored⟩].map Call.block) := ⟨rfl, trivial⟩
  have hagree := replicas_agree uniform_wallet established_couple hrun hpath (by simp) hin
    (by simpa using hstored) hmined
  refine ⟨moves, s, T, hrun, hstored, hagree.2.2
    ⟨hquiet, fun v => (hempty v).1, fun v => (hempty v).2⟩ reaches_couple fun call hc => ?_⟩
  rw [List.mem_singleton.mp hc]
  exact ⟨false, mem_minedBlocks.mpr ⟨_, (hown _ _ _).mpr ⟨rfl, rfl, rfl⟩⟩⟩

end NakamotoNode.Network
