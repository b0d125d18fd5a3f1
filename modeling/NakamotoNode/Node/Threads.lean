import NakamotoNode.Node.Solver

/-! # The threads of a node

What `create_nakamoto` starts: the threads that receive transactions, the thread that receives blocks
and the thread that mines, each move of which holds at most one lock. The moves of all of them
interleave. On the chain and the pool every move does what one step of `Node.Step` does, or nothing
(`Nakamoto.Step.shared`), so that what holds along its runs holds here. -/

namespace NakamotoNode.Node
open Foundations Foundations.RustStd Chain Chain.BlockTree
set_option autoImplicit false

/-- Where the thread is that receives blocks. -/
inductive Receiver where
  | idle
  /-- the cancellation token is raised for this block -/
  | raised (block : BlockNode)
  /-- `add_block` has returned -/
  | added

/-- Where the miner thread is, with what it has read. `mark` is the number of blocks that the receiving
thread had had accepted when the parent of the puzzle was read, `foundAt` that number when a worker found
the solution. -/
inductive Miner where
  /-- before the first signal -/
  | waiting
  /-- at the head of the loop -/
  | top
  | excluded (excludingTxs : List Transaction)
  /-- in the refresh, which `Shared.refresh` follows -/
  | refreshing
  | refreshed
  /-- `create_puzzle` has read `working_block_id` -/
  | working (workingBlockId : BlockId) (mark : ℕ)
  /-- `create_puzzle` has read the pending transactions -/
  | excluding (workingBlockId : BlockId) (mark : ℕ) (excludingTxs : List Transaction)
  /-- `create_puzzle` has returned -/
  | created (puzzle : String) (preBlock : BlockNode) (mark : ℕ)
  | solving (preBlock : BlockNode) (mark : ℕ) (foundAt : Option ℕ) (solver : Solver)
  /-- `solve_puzzle` has returned a solution -/
  | solved (preBlock : BlockNode) (mark : ℕ) (foundAt : Option ℕ) (solution : PuzzleSolution)

/-- After `solve_puzzle`: a solution is added, and without one the loop starts again. -/
def Miner.afterJoin (preBlock : BlockNode) (mark : ℕ) (foundAt : Option ℕ) :
    Option PuzzleSolution → Miner
  | some solution => .solved preBlock mark foundAt solution
  | none => .top

/-- When the solution was found, after a step at the number `accepted`. -/
def Tick.foundAt (accepted : ℕ) (foundAt : Option ℕ) : Tick → Option ℕ
  | .found _ => some accepted
  | _ => foundAt

structure Nakamoto where
  shared : Shared
  cancellationToken : Bool
  receiver : Receiver
  /-- a signal is in the channel to the miner thread -/
  signalled : Bool
  miner : Miner
  /-- how many blocks the receiving thread has had accepted by the chain -/
  accepted : ℕ

/-- The moves of the threads. -/
inductive Move where
  /-- of the receiver of transactions, or of `publish_tx` -/
  | addTx (tx : Transaction)
  /-- of the receiver of blocks -/
  | raise (block : BlockNode)
  | addReceived (order : IterOrder)
  | lower
  /-- of the miner -/
  | wake
  | readExcluding
  | filter
  | refresh (e : Event)
  | readWorking
  | readPending
  | createPuzzle
  | solve
  | tick (t : Tick)
  | join
  | addOwn (order : IterOrder)

namespace Nakamoto

/-- `create_nakamoto` with a new chain and a new pool. -/
def new : Exec Panic Nakamoto :=
  Shared.new >>= fun shared => .ok
    { shared := shared, cancellationToken := false, receiver := .idle, signalled := false,
      miner := .waiting, accepted := 0 }

/-- The block was not stored before the call, and is after it. -/
def newlyStored (block : BlockNode) (chain chain' : BlockTree) : Bool :=
  decide (block.header.blockId ∉ chain.allBlocks ∧ block.header.blockId ∈ chain'.allBlocks)

inductive Step (N : Setting) : Nakamoto → Move → Nakamoto → Prop
  | addTx {s : Nakamoto} {tx : Transaction} {shared : Shared}
      (h : Node.Step N.crates N.profile s.shared (.addTx tx) shared) :
      Step N s (.addTx tx) { s with shared := shared, signalled := true }
  | raise {s : Nakamoto} {block : BlockNode} (h : s.receiver = .idle) :
      Step N s (.raise block) { s with cancellationToken := true, receiver := .raised block }
  | addReceived {s : Nakamoto} {block : BlockNode} {order : IterOrder} {shared : Shared}
      (h : s.receiver = .raised block)
      (hadd : Node.Step N.crates N.profile s.shared
        (.addBlock ⟨block, N.config.difficultyLeadingZeroLenAcc, order⟩) shared) :
      Step N s (.addReceived order)
        { s with
          shared := shared
          receiver := .added
          accepted := s.accepted + (newlyStored block s.shared.chain shared.chain).toNat }
  | lower {s : Nakamoto} (h : s.receiver = .added) :
      Step N s .lower { s with cancellationToken := false, receiver := .idle, signalled := true }
  | wake {s : Nakamoto} (h : s.miner = .waiting) (hsignal : s.signalled = true) :
      Step N s .wake { s with signalled := false, miner := .top }
  | readExcluding {s : Nakamoto} {excludingTxs : List Transaction} {fuel : ℕ} (h : s.miner = .top)
      (hpending : s.shared.chain.getPendingFinalizationTxs fuel = .ok excludingTxs) :
      Step N s .readExcluding { s with miner := .excluded excludingTxs }
  | filter {s : Nakamoto} {excludingTxs filteredTx : List Transaction}
      (h : s.miner = .excluded excludingTxs)
      (hfilter : s.shared.txPool.filterTx N.config.maxTxInOneBlock excludingTxs = some filteredTx) :
      Step N s .filter { s with miner := if filteredTx = [] then .top else .refreshing }
  | refresh {s : Nakamoto} {e : Event} {shared : Shared} (h : s.miner = .refreshing)
      (he : e = .readSince ∨ e = .readBlocks)
      (hread : Node.Step N.crates N.profile s.shared e shared) :
      Step N s (.refresh e) { s with shared := shared }
  | remove {s : Nakamoto} {finalizedBlocks : List BlockNode} {shared : Shared}
      (h : s.miner = .refreshing)
      (hremove : Node.Step N.crates N.profile s.shared (.removeTxs finalizedBlocks) shared) :
      Step N s (.refresh (.removeTxs finalizedBlocks))
        { s with shared := shared, miner := .refreshed }
  | readWorking {s : Nakamoto} (h : s.miner = .refreshed) :
      Step N s .readWorking
        { s with miner := .working s.shared.chain.workingBlockId s.accepted }
  | readPending {s : Nakamoto} {workingBlockId : BlockId} {mark : ℕ}
      {excludingTxs : List Transaction} {fuel : ℕ} (h : s.miner = .working workingBlockId mark)
      (hpending : s.shared.chain.getPendingFinalizationTxs fuel = .ok excludingTxs) :
      Step N s .readPending { s with miner := .excluding workingBlockId mark excludingTxs }
  | createPuzzle {s : Nakamoto} {workingBlockId : BlockId} {mark : ℕ}
      {excludingTxs filteredTx : List Transaction} {puzzle : String} {preBlock : BlockNode}
      (h : s.miner = .excluding workingBlockId mark excludingTxs)
      (hfilter : s.shared.txPool.filterTx N.config.maxTxInOneBlock excludingTxs = some filteredTx)
      (hpuzzle : puzzleOf N.crates workingBlockId N.config.miningRewardReceiver filteredTx =
        .ok (puzzle, preBlock)) :
      Step N s .createPuzzle { s with miner := .created puzzle preBlock mark }
  | solve {s : Nakamoto} {puzzle : String} {preBlock : BlockNode} {mark : ℕ}
      (h : s.miner = .created puzzle preBlock mark) :
      Step N s .solve
        { s with
          miner := if preBlock.txs = [] then .top
            else .solving preBlock mark none (Solver.new puzzle) }
  | tick {s : Nakamoto} {t : Tick} {preBlock : BlockNode} {mark : ℕ} {foundAt : Option ℕ}
      {solver solver' : Solver} (h : s.miner = .solving preBlock mark foundAt solver)
      (htick : Solver.Step N s.cancellationToken solver t solver') :
      Step N s (.tick t)
        { s with
          miner := .solving preBlock mark (t.foundAt s.accepted foundAt) solver' }
  | join {s : Nakamoto} {preBlock : BlockNode} {mark : ℕ} {foundAt : Option ℕ} {solver : Solver}
      {solution : Option PuzzleSolution} (h : s.miner = .solving preBlock mark foundAt solver)
      (hjoin : solver.joined N = some solution) :
      Step N s .join { s with miner := .afterJoin preBlock mark foundAt solution }
  | addOwn {s : Nakamoto} {preBlock : BlockNode} {mark : ℕ} {foundAt : Option ℕ}
      {solution : PuzzleSolution} {order : IterOrder} {shared : Shared}
      (h : s.miner = .solved preBlock mark foundAt solution)
      (hadd : Node.Step N.crates N.profile s.shared
        (.addBlock ⟨completed preBlock solution, N.config.difficultyLeadingZeroLenAcc, order⟩)
        shared) :
      Step N s (.addOwn order) { s with shared := shared, miner := .top }

variable {N : Setting} {s s' : Nakamoto} {m : Move}

/-- What a move does to the chain and the pool. -/
theorem Step.shared (h : Step N s m s') : s'.shared = s.shared ∨
    ∃ e, Node.Step N.crates N.profile s.shared e s'.shared := by
  cases h with
  | addTx h => exact .inr ⟨_, h⟩
  | addReceived _ hadd => exact .inr ⟨_, hadd⟩
  | refresh _ _ hread => exact .inr ⟨_, hread⟩
  | remove _ hremove => exact .inr ⟨_, hremove⟩
  | addOwn _ hadd => exact .inr ⟨_, hadd⟩
  | _ => exact .inl rfl

/-- The chain and the pool of a node are those of a run of their own steps. -/
def Led (N : Setting) (s : Nakamoto) : Prop := ∃ events, Follows N.crates events s.shared

theorem Led.step (h : Led N s) (hstep : Step N s m s') : Led N s' := by
  obtain ⟨events, h⟩ := h
  rcases hstep.shared with heq | ⟨e, he⟩
  · exact ⟨events, heq ▸ h⟩
  · exact ⟨_, h.step he⟩

/-- A node that has not moved. -/
def fresh : Nakamoto where
  shared := { chain := genesisTree, txPool := TxPool.new, refresh := .idle }
  cancellationToken := false
  receiver := .idle
  signalled := false
  miner := .waiting
  accepted := 0

theorem new_eq : Nakamoto.new = .ok fresh := by
  rw [new, Shared.new_eq]
  rfl

/-! ## Runs -/

/-- The thread that receives blocks takes one, while the others wait. -/
theorem receives {block : BlockNode} {order : IterOrder} {chain : BlockTree}
    (hidle : s.receiver = .idle)
    (hadd : Returns N.crates N.profile s.shared.chain
      ⟨block, N.config.difficultyLeadingZeroLenAcc, order⟩ chain) :
    Run (Step N) s [.raise block, .addReceived order, .lower]
      { s with
        shared := { s.shared with chain := chain }
        cancellationToken := false
        receiver := .idle
        signalled := true
        accepted := s.accepted + (newlyStored block s.shared.chain chain).toNat } := by
  have hraise : Run (Step N) s [.raise block] _ := Run.single (Step.raise hidle)
  exact (hraise.snoc (Step.addReceived rfl (Node.Step.addBlock hadd))).snoc (Step.lower rfl)

/-- The first nonces from these seeds. -/
def firstNonce : ℕ → Char
  | 8 => 't'
  | 11 => 'b'
  | _ => 'a'

/-- Blocks of one transaction; Charles mines, with so many workers and this seed. -/
def miningWith (minerThreadCount minerThread0Seed : ℕ) : Setting where
  crates := walletCrates
  profile := .debug
  config :=
    { minerThreadCount := minerThreadCount, nonceLen := 1, difficultyLeadingZeroLen := 0,
      difficultyLeadingZeroLenAcc := 0, minerThread0Seed := minerThread0Seed,
      miningRewardReceiver := charles, maxTxInOneBlock := 1 }
  sampleNonce := fun threadSeed _ => String.singleton (firstNonce threadSeed)

/-- One worker, which finds the block of the loan at once. -/
def walletSetting : Setting := miningWith 1 427

variable {threads seed : ℕ}

theorem pending_of_tip {C : Crates} {v : ℤ} {bs line : List BlockNode} {T : BlockTree}
    (hT : Tip C v bs line T) (hlen : line.length ≤ 6) :
    T.getPendingFinalizationTxs (line.length + 1) = .ok (line.flatMap BlockNode.txs) := by
  have hfuel : T.depthOf T.workingBlockId < line.length + 1 := by
    rw [hT.depth_working]
    exact Nat.lt_succ_self _
  rw [getPendingFinalizationTxs_eq hT.inv hfuel, pendingTxs, hT.finalizedBlockId_eq_root hlen,
    segment_root hT.inv.shape, hT.branch]

theorem since_of_root {T : BlockTree} (hT : Inv T) (hroot : T.finalizedBlockId = "0") :
    ∃ fuel, T.getFinalizedBlocksSince "0" fuel = .ok [] := by
  refine (getFinalizedBlocksSince_eq_ok_iff hT (hroot ▸ .refl _)).mpr ?_
  rw [hroot, segment_self]
  rfl

/-- The moves of the miner thread up to the end of its refresh, when there is something to mine. -/
def loopMoves : List Move :=
  [.readExcluding, .filter, .refresh .readSince, .refresh .readBlocks, .refresh (.removeTxs [])]

theorem run_loopMoves {excludingTxs filteredTx : List Transaction} {fuel fuel' : ℕ}
    (hpc : s.miner = .top) (hidle : s.shared.refresh = .idle)
    (hpending : s.shared.chain.getPendingFinalizationTxs fuel = .ok excludingTxs)
    (hfilter : s.shared.txPool.filterTx 1 excludingTxs = some filteredTx) (hne : filteredTx ≠ [])
    (hblocks : s.shared.chain.getFinalizedBlocksSince s.shared.txPool.lastFinalizedBlockId fuel' =
      .ok []) :
    Run (Step (miningWith threads seed)) s loopMoves { s with miner := .refreshed } := by
  obtain ⟨⟨chain, txPool, refresh⟩, cancellationToken, receiver, signalled, miner, accepted⟩ := s
  obtain rfl : refresh = .idle := hidle
  have hexcluding : Run (Step (miningWith threads seed)) _ _ _ :=
    Run.single (Step.readExcluding hpc hpending)
  have hfiltered := hexcluding.snoc (Step.filter rfl hfilter)
  rw [if_neg hne] at hfiltered
  have hsince := hfiltered.snoc (Step.refresh rfl (.inl rfl) (Node.Step.readSince rfl))
  have hread := hsince.snoc (Step.refresh rfl (.inr rfl) (Node.Step.readBlocks rfl hblocks))
  exact hread.snoc (Step.remove rfl (Node.Step.removeTxs rfl))

/-- The node with nothing but one transaction, its miner thread past the refresh. -/
def refreshedNode (entry : Transaction × TxId) : Nakamoto where
  shared := { chain := genesisTree, txPool := poolWith entry, refresh := .idle }
  cancellationToken := false
  receiver := .idle
  signalled := false
  miner := .refreshed
  accepted := 0

/-- The moves to there. -/
def refreshMoves (tx : Transaction) : List Move := .addTx tx :: .wake :: loopMoves

theorem run_refreshMoves {entry : Transaction × TxId} (hmem : entry ∈ wallet)
    (hentry : entry.1.genHash walletCrates = entry.2) :
    Run (Step (miningWith threads seed)) fresh (refreshMoves entry.1) (refreshedNode entry) := by
  have hpending : genesisTree.getPendingFinalizationTxs 1 = .ok [] := rfl
  have hblocks : genesisTree.getFinalizedBlocksSince "0" 1 = .ok [] := rfl
  have hadd : Run (Step (miningWith threads seed)) fresh _ _ :=
    Run.single (Step.addTx (Node.Step.addTx (addTx_poolWith hmem hentry)))
  exact (hadd.snoc (Step.wake rfl rfl)).trans (run_loopMoves rfl rfl hpending
    (filterTx_poolWith List.not_mem_nil) (List.cons_ne_nil _ _) hblocks)

end Nakamoto
end NakamotoNode.Node
