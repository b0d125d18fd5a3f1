import NakamotoNode.Node.Puzzle

/-! # Solving a puzzle

`solve_puzzle` of `lib_miner/src/miner.rs`: the calling thread spawns the workers one after another
and joins them in that order. A worker holds the lock of the found token and a read lock of the
cancellation token while it decides on its nonce, so that its iteration is one step. The state of a
`Miner`, which only `get_status` reads, is left out. -/

namespace NakamotoNode.Node
open Foundations Foundations.RustStd Chain
set_option autoImplicit false

/-- What the chain and the miner of a node use of its `Config`. -/
structure Config where
  minerThreadCount : ℕ
  nonceLen : ℕ
  difficultyLeadingZeroLen : ℕ
  difficultyLeadingZeroLenAcc : ℕ
  minerThread0Seed : ℕ
  miningRewardReceiver : UserId
  maxTxInOneBlock : ℕ

/-- What is fixed while a node runs. -/
structure Setting where
  crates : Crates
  profile : Profile
  config : Config
  /-- `Pcg32::seed_from_u64(seed).sample_iter(&Alphanumeric).take(nonce_len)` (crates `rand` and
  `rand_pcg`) -/
  sampleNonce : ℕ → ℕ → String

inductive Worker where
  | running (threadSeed : ℕ)
  | stopped (result : Option PuzzleSolution)
  deriving DecidableEq, Repr

/-- A call of `solve_puzzle`: its puzzle, its found token, and the workers spawned so far. -/
structure Solver where
  puzzle : String
  foundToken : Bool
  workers : List Worker
  deriving DecidableEq, Repr

/-- A step of a worker, or of the thread that spawns them. -/
inductive Tick where
  | spawn
  | stop (i : ℕ)
  | found (i : ℕ)
  | missed (i : ℕ)
  deriving DecidableEq, Repr

namespace Solver

def new (puzzle : String) : Solver where
  puzzle := puzzle
  foundToken := false
  workers := []

/-- The steps while the cancellation token is `cancellationToken`. A seed that overflows is a panic in
a debug build; then the worker is gone. -/
inductive Step (N : Setting) (cancellationToken : Bool) : Solver → Tick → Solver → Prop
  | spawn {S : Solver} {threadSeed : ℕ} (h : S.workers.length < N.config.minerThreadCount)
      (hseed : u64 N.profile () (N.config.minerThread0Seed + S.workers.length) = .ok threadSeed) :
      Step N cancellationToken S .spawn
        { S with workers := S.workers ++ [.running threadSeed] }
  | stop {S : Solver} {i threadSeed : ℕ} (h : S.workers[i]? = some (.running threadSeed))
      (hstop : (cancellationToken || S.foundToken) = true) :
      Step N cancellationToken S (.stop i)
        { S with workers := S.workers.set i (.stopped none) }
  | found {S : Solver} {i threadSeed : ℕ} {solution : PuzzleSolution}
      (h : S.workers[i]? = some (.running threadSeed))
      (hgo : (cancellationToken || S.foundToken) = false)
      (hsolved : tryNonce N.crates N.config.difficultyLeadingZeroLen S.puzzle
        (N.sampleNonce threadSeed N.config.nonceLen) = some solution) :
      Step N cancellationToken S (.found i)
        { S with foundToken := true, workers := S.workers.set i (.stopped (some solution)) }
  | missed {S : Solver} {i threadSeed nextSeed : ℕ}
      (h : S.workers[i]? = some (.running threadSeed))
      (hgo : (cancellationToken || S.foundToken) = false)
      (hmissed : tryNonce N.crates N.config.difficultyLeadingZeroLen S.puzzle
        (N.sampleNonce threadSeed N.config.nonceLen) = none)
      (hseed : u64 N.profile () (threadSeed + N.config.minerThreadCount) = .ok nextSeed) :
      Step N cancellationToken S (.missed i)
        { S with workers := S.workers.set i (.running nextSeed) }

/-- What joining the workers in order gives; `none` while one that is waited for is running. -/
def joinFrom : List Worker → Option (Option PuzzleSolution)
  | [] => some none
  | .running _ :: _ => none
  | .stopped (some solution) :: _ => some (some solution)
  | .stopped none :: workers => joinFrom workers

/-- What `solve_puzzle` returns, once it does. -/
def joined (N : Setting) (S : Solver) : Option (Option PuzzleSolution) :=
  if S.workers.length = N.config.minerThreadCount then joinFrom S.workers else none

/-- All workers are spawned, and none is running. -/
def AllStopped (N : Setting) (S : Solver) : Prop :=
  S.workers.length = N.config.minerThreadCount ∧ ∀ w ∈ S.workers, ∃ result, w = .stopped result

variable {N : Setting} {S S' : Solver} {token : Bool} {t : Tick} {solution : PuzzleSolution}

theorem mem_of_joinFrom {workers : List Worker} (h : joinFrom workers = some (some solution)) :
    Worker.stopped (some solution) ∈ workers := by
  induction workers with
  | nil => exact absurd h (by simp [joinFrom])
  | cons w workers ih =>
    match w with
    | .running _ => exact absurd h (by simp [joinFrom])
    | .stopped (some solution') =>
      obtain rfl := Option.some.inj (Option.some.inj h)
      exact List.mem_cons_self
    | .stopped none => exact List.mem_cons_of_mem _ (ih h)

theorem mem_of_joined (h : S.joined N = some (some solution)) :
    Worker.stopped (some solution) ∈ S.workers := by
  unfold joined at h
  split at h
  · exact mem_of_joinFrom h
  · exact absurd h (by simp)

namespace Step

theorem not_allStopped (h : Step N token S t S') : ¬ S.AllStopped N := by
  rintro ⟨hlen, hall⟩
  have hno : ∀ {i seed : ℕ}, S.workers[i]? ≠ some (Worker.running seed) := by
    intro i seed hi
    obtain ⟨result, he⟩ := hall _ (List.mem_of_getElem? hi)
    exact absurd he (by simp)
  cases h with
  | spawn hlt => omega
  | stop hi => exact hno hi
  | found hi => exact hno hi
  | missed hi => exact hno hi

theorem solution_mem (h : Step N token S t S')
    (hmem : Worker.stopped (some solution) ∈ S'.workers) :
    Worker.stopped (some solution) ∈ S.workers ∨ ∃ i, t = .found i := by
  cases h with
  | spawn =>
    rcases List.mem_append.mp hmem with hmem | hmem
    · exact .inl hmem
    · exact absurd (List.mem_singleton.mp hmem) (by simp)
  | @stop i =>
    rcases List.mem_or_eq_of_mem_set hmem with hmem | he
    · exact .inl hmem
    · exact absurd he (by simp)
  | @found i => exact .inr ⟨i, rfl⟩
  | @missed i =>
    rcases List.mem_or_eq_of_mem_set hmem with hmem | he
    · exact .inl hmem
    · exact absurd he (by simp)

end Step
end Solver
end NakamotoNode.Node
