import NakamotoNode.Node.Threads

/-! # Cancelling a puzzle

The receiving thread raises the cancellation token before it adds a block and lowers it after. The
workers look at the token once in an iteration, so what protects a puzzle is that the token stays up until
they all have stopped (`LowersLate`). A pulse that falls before the workers start is not seen:
`stale_puzzle_solved`. -/

namespace NakamotoNode.Node
open Foundations Foundations.RustStd Chain Chain.BlockTree
set_option autoImplicit false

/-- The mark of the puzzle that the miner thread is at, from the read of its parent on. -/
def Miner.mark : Miner → Option ℕ
  | .working _ mark => some mark
  | .excluding _ mark _ => some mark
  | .created _ _ mark => some mark
  | .solving _ mark _ _ => some mark
  | _ => none

/-- The workers of the puzzle have all stopped. -/
def Miner.Stopped (N : Setting) : Miner → Prop
  | .solving _ _ _ solver => solver.AllStopped N
  | _ => False

namespace Nakamoto

/-- The token is lowered when no block was accepted since the parent of the puzzle was read, or
when all workers have stopped. -/
def LowersLate (N : Setting) (s : Nakamoto) (m : Move) : Prop :=
  m = .lower → ∀ mark ∈ s.miner.mark, s.accepted = mark ∨ s.miner.Stopped N

/-- A solution that was found, with its mark and the number of blocks accepted when it was found. -/
def Miner.Found (miner : Miner) (mark : ℕ) (foundAt : Option ℕ) : Prop :=
  match miner with
  | .solving _ mark' foundAt' solver => mark' = mark ∧ foundAt' = foundAt ∧
      ∃ solution, Worker.stopped (some solution) ∈ solver.workers
  | .solved _ mark' foundAt' _ => mark' = mark ∧ foundAt' = foundAt
  | _ => False

/-- The token is up while the receiving thread adds a block; a puzzle is current, or about to be
cancelled, or past being solved; what was found was found in time. -/
structure Cancels (N : Setting) (s : Nakamoto) : Prop where
  token : s.receiver ≠ .idle → s.cancellationToken = true
  current : ∀ mark ∈ s.miner.mark,
    s.accepted = mark ∨ s.cancellationToken = true ∨ s.miner.Stopped N
  found : ∀ mark foundAt, Miner.Found s.miner mark foundAt → foundAt = some mark

variable {N : Setting} {s s' : Nakamoto} {m : Move}

theorem cancels_fresh (N : Setting) : Cancels N fresh :=
  ⟨fun h => absurd rfl h, fun _ h => absurd h (by simp [fresh, Miner.mark]), fun _ _ h => h.elim⟩

/-- Without a puzzle there is nothing to cancel. -/
theorem Cancels.leave (h : Cancels N s) {shared : Shared} {signalled : Bool} {miner : Miner}
    (hmark : miner.mark = none) (hfound : ∀ mark foundAt, ¬ Miner.Found miner mark foundAt) :
    Cancels N { s with shared := shared, signalled := signalled, miner := miner } := by
  refine ⟨h.token, fun mark hmem => ?_, fun mark foundAt hmem => absurd hmem (hfound mark foundAt)⟩
  dsimp only at hmem
  rw [hmark] at hmem
  exact absurd hmem (by simp)

theorem foundAt_of_ne {t : Tick} (h : ∀ i, t ≠ .found i) (accepted : ℕ) (foundAt : Option ℕ) :
    t.foundAt accepted foundAt = foundAt := by
  cases t with
  | found i => exact absurd rfl (h i)
  | _ => rfl

/-- A worker that goes on sees the token down. -/
theorem Cancels.tick {preBlock : BlockNode} {mark : ℕ} {foundAt : Option ℕ}
    {solver solver' : Solver} {t : Tick} (h : Cancels N s)
    (hpc : s.miner = .solving preBlock mark foundAt solver)
    (htick : Solver.Step N s.cancellationToken solver t solver') :
    Cancels N { s with
      miner := .solving preBlock mark (t.foundAt s.accepted foundAt) solver' } := by
  have hcurrent : s.accepted = mark ∨ s.cancellationToken = true := by
    rcases h.current mark (by rw [hpc]; rfl) with hmark | htoken | hstopped
    · exact .inl hmark
    · exact .inr htoken
    · rw [hpc] at hstopped
      exact absurd hstopped htick.not_allStopped
  refine ⟨h.token, fun mark' hmark => ?_, fun mark' foundAt' hfound => ?_⟩
  · obtain rfl := Option.some.inj hmark
    exact hcurrent.imp_right .inl
  · obtain ⟨rfl, rfl, solution, hmem⟩ := hfound
    by_cases ht : ∃ i, t = .found i
    · obtain ⟨i, rfl⟩ := ht
      cases htick with
      | found hrunning hgo =>
        rw [Bool.or_eq_false_iff] at hgo
        rw [hgo.1] at hcurrent
        exact congrArg some (hcurrent.resolve_right (by simp))
    · rw [not_exists] at ht
      rw [foundAt_of_ne ht]
      have hold := (htick.solution_mem hmem).resolve_right fun ⟨i, he⟩ => ht i he
      apply h.found mark foundAt
      rw [hpc]
      exact ⟨rfl, rfl, solution, hold⟩

theorem Step.cancels (hstep : Step N s m s') (hlate : LowersLate N s m) (h : Cancels N s) :
    Cancels N s' := by
  cases hstep with
  | addTx => exact ⟨h.token, h.current, h.found⟩
  | raise => exact ⟨fun _ => rfl, fun _ _ => .inr (.inl rfl), h.found⟩
  | addReceived hraised =>
    have htoken := h.token (by rw [hraised]; simp)
    exact ⟨fun _ => htoken, fun _ _ => .inr (.inl htoken), h.found⟩
  | lower =>
    refine ⟨fun hne => absurd rfl hne, fun mark hmark => ?_, h.found⟩
    exact (hlate rfl mark hmark).imp_right .inr
  | wake => exact h.leave rfl fun _ _ h => h
  | readExcluding => exact h.leave rfl fun _ _ h => h
  | filter => split <;> exact h.leave rfl fun _ _ h => h
  | refresh => exact ⟨h.token, h.current, h.found⟩
  | remove => exact h.leave rfl fun _ _ h => h
  | readWorking =>
    exact ⟨h.token, fun mark hmark => .inl (Option.some.inj hmark), fun _ _ h => h.elim⟩
  | readPending hpc =>
    have hcurrent := h.current
    rw [hpc] at hcurrent
    exact ⟨h.token, hcurrent, fun _ _ h => h.elim⟩
  | createPuzzle hpc =>
    have hcurrent := h.current
    rw [hpc] at hcurrent
    exact ⟨h.token, hcurrent, fun _ _ h => h.elim⟩
  | @solve puzzle preBlock mark hpc =>
    have hcurrent := h.current
    rw [hpc] at hcurrent
    split
    · exact h.leave rfl fun _ _ h => h
    · refine ⟨h.token, fun mark' hmark => ?_, fun _ _ hfound => ?_⟩
      · exact (hcurrent mark' hmark).imp_right fun h => .inl (h.resolve_right id)
      · obtain ⟨-, -, solution, hmem⟩ := hfound
        exact absurd hmem List.not_mem_nil
  | tick hpc htick => exact h.tick hpc htick
  | @join _ _ _ _ solution hpc hjoin =>
    cases solution with
    | none => exact h.leave rfl fun _ _ h => h
    | some solution =>
      refine ⟨h.token, fun _ hmark => absurd hmark (by simp [Miner.afterJoin, Miner.mark]),
        fun mark foundAt hfound => h.found mark foundAt ?_⟩
      obtain ⟨rfl, rfl⟩ := hfound
      rw [hpc]
      exact ⟨rfl, rfl, solution, Solver.mem_of_joined hjoin⟩
  | addOwn => exact h.leave rfl fun _ _ h => h

end Nakamoto

open Nakamoto

/-- In every run of a node in which the token is lowered late enough, no block was accepted by the
receiving thread between the read of the parent of a solved puzzle and the iteration that found its
solution. -/
theorem no_stale_puzzle {N : Setting} {s₀ s : Nakamoto} {moves : List Move}
    (h₀ : Nakamoto.new = .ok s₀) (hrun : Run (Guarded (Nakamoto.Step N) (LowersLate N)) s₀ moves s) :
    ∀ preBlock mark foundAt solution, s.miner = .solved preBlock mark foundAt solution →
      foundAt = some mark := by
  rw [Nakamoto.new_eq] at h₀
  obtain rfl := Except.ok.inj h₀
  have h : Cancels N s := hrun.invariant (fun _ _ _ h hstep => hstep.1.cancels hstep.2 h)
    (cancels_fresh N)
  intro preBlock mark foundAt solution hpc
  apply h.found mark foundAt
  rw [hpc]
  exact ⟨rfl, rfl⟩

/-! ## A pulse before the workers start -/

/-- The moves from the refresh to the puzzle. -/
def puzzleMoves : List Move := [.readWorking, .readPending, .createPuzzle]

/-- The moves of one worker that finds a solution at once. -/
def solveMoves : List Move := [.solve, .tick .spawn, .tick (.found 0), .join]

section Solving
variable {s : Nakamoto} {threads seed : ℕ} {entry : Transaction × TxId}

theorem lowersLate_of_run {N : Setting} {s' : Nakamoto} {moves : List Move}
    (hrun : Run (Nakamoto.Step N) s moves s') (hmoves : ∀ m ∈ moves, m ≠ .lower) :
    Run (Guarded (Nakamoto.Step N) (LowersLate N)) s moves s' :=
  (hrun.guarded_of_forall hmoves).mono fun _ _ _ h => ⟨h.1, fun he => absurd he h.2⟩

theorem run_puzzleMoves {excludingTxs : List Transaction} {fuel : ℕ}
    (hentry : entry.1.genHash walletCrates = entry.2) (hpc : s.miner = .refreshed)
    (hpending : s.shared.chain.getPendingFinalizationTxs fuel = .ok excludingTxs)
    (hfilter : s.shared.txPool.filterTx 1 excludingTxs = some [entry.1]) :
    Run (Nakamoto.Step (miningWith threads seed)) s puzzleMoves
      { s with
        miner := .created
          ((unminedBlock s.shared.chain.workingBlockId entry).puzzle.toJson walletCrates)
          (unminedBlock s.shared.chain.workingBlockId entry) s.accepted } := by
  have hworking : Run (Nakamoto.Step (miningWith threads seed)) s _ _ :=
    Run.single (Nakamoto.Step.readWorking hpc)
  exact (hworking.snoc (Nakamoto.Step.readPending rfl hpending)).snoc
    (Nakamoto.Step.createPuzzle rfl hfilter (puzzleOf_single _ hentry))

theorem run_solveMoves {parent : BlockId} {mark : ℕ} (seed : ℕ)
    (hseed : u64 .debug () (seed + 0) = .ok seed) (hnonce : firstNonce seed ≠ '\x7b')
    (hpc : s.miner = .created ((unminedBlock parent entry).puzzle.toJson walletCrates)
      (unminedBlock parent entry) mark) (htoken : s.cancellationToken = false) :
    Run (Nakamoto.Step (miningWith 1 seed)) s solveMoves
      { s with
        miner := .solved (unminedBlock parent entry) mark (some s.accepted)
          (minedSolution (firstNonce seed) parent entry) } := by
  have hne : (unminedBlock parent entry).txs ≠ [] := List.cons_ne_nil _ _
  have hsolve := Run.single (Nakamoto.Step.solve (N := miningWith 1 seed) hpc)
  rw [if_neg hne] at hsolve
  have hspawn := hsolve.snoc (Nakamoto.Step.tick rfl (Solver.Step.spawn Nat.zero_lt_one hseed))
  have hfound := hspawn.snoc (Nakamoto.Step.tick rfl (Solver.Step.found (i := 0)
    (show _ = some (Worker.running seed) from rfl) (by rw [htoken]; rfl)
    (tryNonce_mined hnonce parent entry)))
  have hjoined : Solver.joined (miningWith 1 seed)
      { puzzle := (unminedBlock parent entry).puzzle.toJson walletCrates
        foundToken := true
        workers := [.stopped (some (minedSolution (firstNonce seed) parent entry))] } =
      some (some _) := rfl
  exact hfound.snoc (Nakamoto.Step.join rfl hjoined)

/-- The moves of a worker that sees the token up when a block arrives, and stops before the token is
lowered. -/
def cancelMoves (block : BlockNode) : List Move :=
  [.solve, .tick .spawn, .raise block, .addReceived asStored, .tick (.stop 0), .lower, .join]

theorem run_cancelMoves {parent : BlockId} {mark : ℕ} {block : BlockNode} {chain : BlockTree}
    (hseed : u64 .debug () (seed + 0) = .ok seed)
    (hpc : s.miner = .created ((unminedBlock parent entry).puzzle.toJson walletCrates)
      (unminedBlock parent entry) mark) (hidle : s.receiver = .idle)
    (hadd : Returns walletCrates .debug s.shared.chain ⟨block, 0, asStored⟩ chain) :
    Run (Guarded (Nakamoto.Step (miningWith 1 seed)) (LowersLate (miningWith 1 seed))) s
      (cancelMoves block)
      { s with
        shared := { s.shared with chain := chain }
        cancellationToken := false
        receiver := .idle
        signalled := true
        miner := .top
        accepted := s.accepted + (newlyStored block s.shared.chain chain).toNat } := by
  have hne : (unminedBlock parent entry).txs ≠ [] := List.cons_ne_nil _ _
  have hsolve := Run.single (Nakamoto.Step.solve (N := miningWith 1 seed) hpc)
  rw [if_neg hne] at hsolve
  have hspawn := hsolve.snoc (Nakamoto.Step.tick rfl (Solver.Step.spawn Nat.zero_lt_one hseed))
  have hraise := hspawn.snoc (@Nakamoto.Step.raise _ _ block hidle)
  have hadded := hraise.snoc (Nakamoto.Step.addReceived rfl (Node.Step.addBlock hadd))
  have hstopped := hadded.snoc (Nakamoto.Step.tick rfl (Solver.Step.stop (i := 0)
    (show _ = some (Worker.running seed) from rfl) rfl))
  have hlower := (lowersLate_of_run hstopped (by simp)).snoc
    ⟨Nakamoto.Step.lower rfl, fun _ _ _ =>
      .inr ⟨rfl, fun w hw => ⟨none, List.mem_singleton.mp hw⟩⟩⟩
  have hjoined : Solver.joined (miningWith 1 seed)
      { puzzle := (unminedBlock parent entry).puzzle.toJson walletCrates
        foundToken := false
        workers := [.stopped none] } = some none := rfl
  exact hlower.snoc ⟨Nakamoto.Step.join rfl hjoined, fun he => absurd he (by simp)⟩

/-- A fresh node gets a transaction and makes a puzzle of it. -/
theorem run_firstPuzzle (hmem : entry ∈ wallet) (hentry : entry.1.genHash walletCrates = entry.2) :
    Run (Nakamoto.Step (miningWith threads seed)) fresh (refreshMoves entry.1 ++ puzzleMoves)
      { refreshedNode entry with
        miner := .created ((unminedBlock "0" entry).puzzle.toJson walletCrates)
          (unminedBlock "0" entry) 0 } := by
  have hpending : genesisTree.getPendingFinalizationTxs 1 = .ok [] := rfl
  exact (run_refreshMoves hmem hentry).trans
    (run_puzzleMoves hentry rfl hpending (filterTx_poolWith List.not_mem_nil))

end Solving

theorem newlyStored_loan {T : BlockTree} (hstored : T.Stored (minedBlock 'a' "0" loan)) :
    newlyStored (minedBlock 'a' "0" loan) genesisTree T = true := by
  refine decide_eq_true ⟨fun hmem => ?_, Shape.stored_mem hstored⟩
  obtain ⟨b, hb⟩ := mem_allBlocks_iff.mp hmem
  exact absurd (getBlock_genesisTree hb).1 (by decide)

/-- A block arrives while the worker is at its puzzle, which is given up; the next one is below the
new block, and is solved. -/
theorem no_stale_puzzle_spend : ∃ (moves : List Move) (s : Nakamoto) (foundAt : Option ℕ),
    Run (Guarded (Nakamoto.Step (miningWith 1 8)) (LowersLate (miningWith 1 8))) fresh moves s ∧
    .lower ∈ moves ∧
    s.miner = .solved (unminedBlock (minedId 'a') spend) 1 foundAt
      (minedSolution 't' (minedId 'a') spend) ∧
    foundAt = some 1 := by
  have hmem : spend ∈ wallet := by simp [wallet]
  obtain ⟨T, hcall, -, hwork, hT⟩ := loan_returns .debug
  obtain ⟨fuel, hsince⟩ := since_of_root hT.inv (hT.finalizedBlockId_eq_root (by decide))
  have hpending := pending_of_tip hT (by decide)
  have hfilter : (poolWith spend).filterTx 1 [loan.1] = some [spend.1] :=
    filterTx_poolWith fun hmem =>
      absurd (congrArg Transaction.sender (List.mem_singleton.mp hmem)) (by decide)
  have hpuzzled : Run (Nakamoto.Step (miningWith 1 8)) fresh _ _ := run_firstPuzzle hmem genHash_spend
  have hfirst := lowersLate_of_run hpuzzled (by simp [refreshMoves, loopMoves, puzzleMoves])
  have hcancelled := hfirst.trans (run_cancelMoves rfl rfl rfl hcall.1)
  have hloop := hcancelled.trans (lowersLate_of_run
    (run_loopMoves rfl rfl hpending hfilter (List.cons_ne_nil _ _) hsince) (by simp [loopMoves]))
  have hpuzzle := hloop.trans (lowersLate_of_run
    (run_puzzleMoves genHash_spend rfl hpending hfilter) (by simp [puzzleMoves]))
  have hsolved := hpuzzle.trans (lowersLate_of_run
    (run_solveMoves _ rfl (by decide) rfl rfl) (by simp [solveMoves]))
  have hnew := newlyStored_loan (hT.mem_line List.mem_cons_self).1
  have hpc : Miner.solved (unminedBlock T.workingBlockId spend)
      (0 + (newlyStored (minedBlock 'a' "0" loan) genesisTree T).toNat)
      (some (0 + (newlyStored (minedBlock 'a' "0" loan) genesisTree T).toNat))
      (minedSolution 't' T.workingBlockId spend) =
    .solved (unminedBlock (minedId 'a') spend) 1 (some 1)
      (minedSolution 't' (minedId 'a') spend) := by
    rw [hwork, hnew]
    rfl
  exact ⟨_, _, some 1, hsolved, by simp [cancelMoves], hpc,
    no_stale_puzzle new_eq hsolved _ _ _ _ hpc⟩

/-- A block arrives after the puzzle is made and before its worker starts: the token is down again,
and the puzzle below the old working block is solved. -/
theorem stale_puzzle_solved : ∃ (moves : List Move) (s : Nakamoto), Nakamoto.new = .ok fresh ∧
    Run (Nakamoto.Step (miningWith 1 11)) fresh moves s ∧
    s.shared.chain.workingBlockId = minedId 'a' ∧
    s.miner = .solved (unminedBlock "0" spend) 0 (some 1) (minedSolution 'b' "0" spend) := by
  have hmem : spend ∈ wallet := by simp [wallet]
  obtain ⟨T, hcall, -, hwork, hT⟩ := loan_returns .debug
  have hpuzzle : Run (Nakamoto.Step (miningWith 1 11)) fresh _ _ := run_firstPuzzle hmem genHash_spend
  have hpulse := hpuzzle.trans (receives (N := miningWith 1 11) rfl hcall.1)
  have hsolved := hpulse.trans (run_solveMoves _ rfl (by decide) rfl rfl)
  refine ⟨_, _, new_eq, hsolved, hwork, ?_⟩
  have hnew := newlyStored_loan (hT.mem_line List.mem_cons_self).1
  change Miner.solved _ 0 (some (0 + (newlyStored _ genesisTree T).toNat)) _ = _
  rw [hnew]
  rfl

end NakamotoNode.Node
