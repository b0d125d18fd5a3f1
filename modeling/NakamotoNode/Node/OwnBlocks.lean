import NakamotoNode.Node.Cancellation
import NakamotoNode.Node.PoolCalls
import NakamotoNode.Node.Workers

/-! # The blocks a node makes

The puzzle is written by `create_puzzle`, hashed by `solve_puzzle`, and written and hashed again by
`validate_block`; the Merkle root is computed by the first and by the last, and the pool vouches for
the signatures. Whatever the other threads do meanwhile, the block that a node completes is valid
(`own_block_valid`). -/

namespace NakamotoNode.Node
open Foundations Foundations.RustStd Chain Chain.BlockTree
set_option autoImplicit false

theorem startsWith_zeros {s : String} {m n : ℕ} (hmn : m ≤ n)
    (h : startsWith s (String.ofList (List.replicate n '0')) = true) :
    startsWith s (String.ofList (List.replicate m '0')) = true := by
  unfold startsWith at h ⊢
  rw [String.toList_ofList, List.isPrefixOf_iff_prefix] at h ⊢
  apply List.IsPrefix.trans _ h
  refine ⟨List.replicate (n - m) '0', ?_⟩
  rw [List.replicate_append_replicate, Nat.add_sub_cancel' hmn]

/-- The block, less its nonce and its id, has the Merkle root of its transactions, all of which are
signed. -/
structure Made (C : Crates) (preBlock : BlockNode) : Prop where
  merkle : preBlock.MerkleHonest C
  signed : ∀ tx ∈ preBlock.txs, tx.verifySig C = .ok true

/-- The completed block is valid at every difficulty up to that of the miner. -/
def Valid (N : Setting) (preBlock : BlockNode) (solution : PuzzleSolution) : Prop :=
  ∀ d ≤ N.config.difficultyLeadingZeroLen,
    (completed preBlock solution).validateBlock N.crates d = .ok (true, solution.hash) ∧
    verifyBlockIntegrity N.crates (completed preBlock solution) d = .ok true

variable {N : Setting} {preBlock : BlockNode} {puzzle : String} {solution : PuzzleSolution}
  {txPool : TxPool}

theorem made_of_puzzleOf (hpool : TxPool.Inv N.crates txPool) {maxCount : ℕ}
    {workingBlockId : BlockId} {rewardReceiver : UserId} {excludingTxs filteredTx : List Transaction}
    (hfilter : txPool.filterTx maxCount excludingTxs = some filteredTx)
    (hpuzzle : puzzleOf N.crates workingBlockId rewardReceiver filteredTx = .ok (puzzle, preBlock)) :
    Made N.crates preBlock ∧ puzzle = preBlock.puzzle.toJson N.crates := by
  obtain ⟨-, htxs, hjson, hmerkle⟩ := puzzleOf_eq_ok hpuzzle
  rw [← htxs] at hmerkle
  refine ⟨⟨⟨_, hmerkle⟩, fun tx htx => ?_⟩, hjson⟩
  rw [htxs] at htx
  exact (TxPool.mem_filterTx hpool hfilter htx).2.2

theorem Made.valid (h : Made N.crates preBlock)
    (hsolves : Solves N (preBlock.puzzle.toJson N.crates) solution) :
    Valid N preBlock solution := by
  intro d hd
  have hint : verifyBlockIntegrity N.crates (completed preBlock solution) d = .ok true :=
    completed_integrity h.signed hsolves.hash_eq (startsWith_zeros hd hsolves.zeros)
  exact ⟨validateBlock_eq_ok_iff.mpr ⟨hint, h.merkle⟩, hint⟩

theorem solves_of_joined {token : Bool} {labels : List Race.Label} {R : Race}
    (hrun : Run (Race.Step N) (Race.start token puzzle) labels R)
    (hjoined : R.solver.joined N = some (some solution)) : Solves N puzzle solution := by
  obtain ⟨i, hi⟩ := List.mem_iff_getElem?.mp (Solver.mem_of_joined hjoined)
  exact ((Race.raced_of_run hrun).solves i solution hi).2

/-! ## While the threads run -/

namespace Nakamoto

/-- `create_nakamoto` with the chain and the pool that it is given. -/
def started (chain : BlockTree) (txPool : TxPool) : Nakamoto where
  shared := { chain := chain, txPool := txPool, refresh := .idle }
  cancellationToken := false
  receiver := .idle
  signalled := false
  miner := .waiting
  accepted := 0

/-- What the miner thread works on: a puzzle of its block; a race of the workers for it, with the
other threads at the cancellation token; a solution of it. -/
def Miner.Honest (N : Setting) (cancellationToken : Bool) : Miner → Prop
  | .created puzzle preBlock _ =>
      Made N.crates preBlock ∧ puzzle = preBlock.puzzle.toJson N.crates
  | .solving preBlock _ _ solver => Made N.crates preBlock ∧ ∃ token labels,
      Run (Race.Step N) (Race.start token (preBlock.puzzle.toJson N.crates)) labels
        { cancellationToken := cancellationToken, solver := solver }
  | .solved preBlock _ _ solution =>
      Made N.crates preBlock ∧ Solves N (preBlock.puzzle.toJson N.crates) solution
  | _ => True

/-- The state of a node as far as its own blocks depend on it. -/
structure Honest (N : Setting) (s : Nakamoto) : Prop where
  txPool : TxPool.Inv N.crates s.shared.txPool
  miner : Miner.Honest N s.cancellationToken s.miner

theorem honest_started {chain : BlockTree} (h : TxPool.Inv N.crates txPool) :
    Honest N (started chain txPool) := ⟨h, trivial⟩

variable {s s' : Nakamoto} {m : Move}

/-- Other threads may set the token while the workers race. -/
theorem Miner.Honest.set {miner : Miner} {token : Bool} (h : Miner.Honest N token miner)
    (token' : Bool) : Miner.Honest N token' miner := by
  cases miner with
  | solving preBlock mark foundAt solver =>
    obtain ⟨hmade, token₀, labels, hrun⟩ := h
    exact ⟨hmade, token₀, _, hrun.snoc (.set token')⟩
  | _ => exact h

theorem txPool_of_step {S S' : Shared} {e : Event} (h : TxPool.Inv N.crates S.txPool)
    (hstep : Node.Step N.crates N.profile S e S') : TxPool.Inv N.crates S'.txPool := by
  cases hstep with
  | addBlock => exact h
  | addTx hadd => exact h.addTx hadd
  | readSince => exact h
  | readBlocks => exact h
  | removeTxs => exact h.remove _

theorem Step.txPool_inv (hstep : Step N s m s') (h : TxPool.Inv N.crates s.shared.txPool) :
    TxPool.Inv N.crates s'.shared.txPool := by
  rcases hstep.shared with heq | ⟨e, he⟩
  · rw [heq]
    exact h
  · exact txPool_of_step h he

theorem Step.honest (hstep : Step N s m s') (h : Honest N s) : Honest N s' := by
  refine ⟨hstep.txPool_inv h.txPool, ?_⟩
  have hminer := h.miner
  cases hstep with
  | addTx => exact hminer
  | raise => exact hminer.set true
  | addReceived => exact hminer
  | lower => exact hminer.set false
  | wake => trivial
  | readExcluding => trivial
  | filter => dsimp only; split <;> trivial
  | refresh => exact hminer
  | remove => trivial
  | readWorking => trivial
  | readPending => trivial
  | createPuzzle _ hfilter hpuzzle => exact made_of_puzzleOf h.txPool hfilter hpuzzle
  | solve hpc =>
    rw [hpc] at hminer
    obtain ⟨hmade, rfl⟩ := hminer
    dsimp only
    split
    · trivial
    · exact ⟨hmade, s.cancellationToken, [], .nil _⟩
  | tick hpc htick =>
    rw [hpc] at hminer
    obtain ⟨hmade, token, labels, hrun⟩ := hminer
    exact ⟨hmade, token, _, hrun.snoc (.tick htick)⟩
  | @join _ _ _ _ solution hpc hjoin =>
    rw [hpc] at hminer
    obtain ⟨hmade, token, labels, hrun⟩ := hminer
    cases solution with
    | none => trivial
    | some solution => exact ⟨hmade, solves_of_joined hrun hjoin⟩
  | addOwn => trivial

theorem honest_of_run {chain : BlockTree} {moves : List Move} (hpool : TxPool.Inv N.crates txPool)
    (hrun : Run (Step N) (started chain txPool) moves s) : Honest N s :=
  hrun.invariant (fun _ _ _ h hstep => hstep.honest h) (honest_started hpool)

end Nakamoto

open Nakamoto

/-- From every pool that is reachable: a puzzle that `create_puzzle` makes of what the pool gives it,
below any block and with any exclusions, and a solution that `solve_puzzle` returns for it in any
interleaving, make a valid block; and so does, in every run of the threads of a node that starts with
this pool, every solution that its miner thread gets. -/
theorem own_block_valid {calls : List PoolCall}
    (hpool : Run (PoolStep N.crates) TxPool.new calls txPool) :
    (∀ workingBlockId excludingTxs filteredTx puzzle preBlock,
      txPool.filterTx N.config.maxTxInOneBlock excludingTxs = some filteredTx →
      puzzleOf N.crates workingBlockId N.config.miningRewardReceiver filteredTx =
        .ok (puzzle, preBlock) →
      ∀ token labels R solution, Run (Race.Step N) (Race.start token puzzle) labels R →
        R.solver.joined N = some (some solution) → Valid N preBlock solution) ∧
    ∀ chain moves s, Run (Nakamoto.Step N) (started chain txPool) moves s →
      ∀ preBlock mark foundAt solution, s.miner = .solved preBlock mark foundAt solution →
        Valid N preBlock solution := by
  have hinv := (TxPool.records_of_run hpool).inv
  constructor
  · intro workingBlockId excludingTxs filteredTx puzzle preBlock hfilter hpuzzle
    obtain ⟨hmade, rfl⟩ := made_of_puzzleOf hinv hfilter hpuzzle
    exact fun token labels R solution hrun hjoined => hmade.valid (solves_of_joined hrun hjoined)
  · intro chain moves s hrun preBlock mark foundAt solution hpc
    have hminer := (honest_of_run hinv hrun).miner
    rw [hpc] at hminer
    exact hminer.1.valid hminer.2

theorem own_block_valid_loan : ∃ (moves : List Move) (s : Nakamoto),
    Run (Nakamoto.Step walletSetting) fresh moves s ∧
    s.miner = .solved (unminedBlock "0" loan) 0 (some 0) (minedSolution 'a' "0" loan) ∧
    Valid walletSetting (unminedBlock "0" loan) (minedSolution 'a' "0" loan) := by
  have hrun := (run_firstPuzzle payable_loan.signed genHash_loan).trans
    (run_solveMoves 427 rfl (by decide) rfl rfl)
  have hvalid := (own_block_valid (N := walletSetting) (.nil TxPool.new)).2
  exact ⟨_, _, hrun, rfl, hvalid _ _ _ hrun _ _ _ _ rfl⟩

end NakamotoNode.Node
