import NakamotoNode.Node.Threads

/-! # The workers of a puzzle

A call of `solve_puzzle` while others raise and lower the cancellation token at any time (`Race`). The
found token goes up once, with the one solution that a worker returns; until then a worker stops only
for the cancellation token (`parallel_mining_sound`). -/

namespace NakamotoNode.Node
open Foundations Foundations.RustStd Chain
set_option autoImplicit false

/-- The worker whose iteration it is. -/
def Tick.worker : Tick → Option ℕ
  | .spawn => none
  | .stop i => some i
  | .found i => some i
  | .missed i => some i

/-- A solution of the puzzle at the difficulty of the node. -/
structure Solves (N : Setting) (puzzle : String) (solution : PuzzleSolution) : Prop where
  puzzle_eq : solution.puzzle = puzzle
  hash_eq : solution.hash = N.crates.sha256Hex (solution.nonce ++ puzzle)
  zeros : startsWith solution.hash
    (String.ofList (List.replicate N.config.difficultyLeadingZeroLen '0')) = true

theorem solves_of_tryNonce {N : Setting} {puzzle nonce : String} {solution : PuzzleSolution}
    (h : tryNonce N.crates N.config.difficultyLeadingZeroLen puzzle nonce = some solution) :
    Solves N puzzle solution := by
  obtain ⟨hpuzzle, hhash, hzeros⟩ := tryNonce_eq_some h
  exact ⟨hpuzzle, hhash, hzeros⟩

theorem getElem?_set_cases {α : Type} {l : List α} {i j : ℕ} {a b : α}
    (h : (l.set j a)[i]? = some b) : (j = i ∧ a = b) ∨ (j ≠ i ∧ l[i]? = some b) := by
  by_cases he : j = i
  · subst he
    rw [List.getElem?_set_self'] at h
    obtain ⟨_, _, hab⟩ := Option.map_eq_some_iff.mp h
    exact .inl ⟨rfl, hab⟩
  · rw [List.getElem?_set_ne he] at h
    exact .inr ⟨he, h⟩

namespace Solver
variable {N : Setting} {S S' : Solver} {token : Bool} {t : Tick} {i : ℕ}
  {result : Option PuzzleSolution} {solution : PuzzleSolution}

namespace Step

theorem puzzle_eq (h : Step N token S t S') : S'.puzzle = S.puzzle := by
  cases h <;> rfl

theorem foundToken_eq_true (h : Step N token S t S') :
    S'.foundToken = true ↔ S.foundToken = true ∨ ∃ i, t = .found i := by
  cases h <;> simp

theorem stopped_kept (h : Step N token S t S')
    (hi : S.workers[i]? = some (.stopped result)) : S'.workers[i]? = some (.stopped result) := by
  have hset : ∀ {j threadSeed : ℕ} (w : Worker), S.workers[j]? = some (.running threadSeed) →
      (S.workers.set j w)[i]? = some (.stopped result) := by
    intro j threadSeed w hj
    have hne : j ≠ i := by
      rintro rfl
      exact absurd (hj.symm.trans hi) (by simp)
    rw [List.getElem?_set_ne hne]
    exact hi
  cases h with
  | spawn =>
    have hlt := (List.getElem?_eq_some_iff.mp hi).1
    exact (List.getElem?_append_left hlt).trans hi
  | stop hj => exact hset _ hj
  | found hj => exact hset _ hj
  | missed hj => exact hset _ hj

/-- How a worker comes to have stopped: it had before, or in this iteration it sees a token up, or
it finds a solution. -/
theorem stopped_cases (h : Step N token S t S')
    (hi : S'.workers[i]? = some (.stopped result)) :
    (S.workers[i]? = some (.stopped result) ∧ t.worker ≠ some i) ∨
    (t = .stop i ∧ result = none ∧ (token || S.foundToken) = true) ∨
    (t = .found i ∧ (token || S.foundToken) = false ∧
      ∃ solution, result = some solution ∧ Solves N S.puzzle solution) := by
  have hother : ∀ {j : ℕ}, j ≠ i → some j ≠ some i := fun hne he => hne (Option.some.inj he)
  cases h with
  | spawn =>
    refine .inl ⟨?_, by simp [Tick.worker]⟩
    rw [List.getElem?_append] at hi
    split at hi
    · exact hi
    · exact absurd (List.mem_singleton.mp (List.mem_of_getElem? hi)) (by simp)
  | stop hj hstop =>
    rcases getElem?_set_cases hi with ⟨rfl, he⟩ | ⟨hne, hi⟩
    · exact .inr (.inl ⟨rfl, (Worker.stopped.inj he).symm, hstop⟩)
    · exact .inl ⟨hi, hother hne⟩
  | found hj hgo hsolved =>
    rcases getElem?_set_cases hi with ⟨rfl, he⟩ | ⟨hne, hi⟩
    · exact .inr (.inr ⟨rfl, hgo, _, (Worker.stopped.inj he).symm, solves_of_tryNonce hsolved⟩)
    · exact .inl ⟨hi, hother hne⟩
  | missed hj =>
    rcases getElem?_set_cases hi with ⟨rfl, he⟩ | ⟨hne, hi⟩
    · exact absurd he (by simp)
    · exact .inl ⟨hi, hother hne⟩

end Step

/-! ## Joining -/

theorem joinFrom_set {threadSeed : ℕ} {w : Worker} {joined : Option PuzzleSolution} :
    ∀ {workers : List Worker} {i : ℕ}, joinFrom workers = some joined →
      workers[i]? = some (.running threadSeed) → joinFrom (workers.set i w) = some joined
  | [], _, _, hi => absurd hi (by simp)
  | .running _ :: _, _, h, _ => absurd h (by simp [joinFrom])
  | .stopped (some _) :: _, 0, _, hi => absurd hi (by simp)
  | .stopped (some _) :: _, _ + 1, h, _ => h
  | .stopped none :: _, 0, _, hi => absurd hi (by simp)
  | .stopped none :: workers, i + 1, h, hi => @joinFrom_set _ _ _ workers i h hi

theorem joinFrom_eq_none {workers : List Worker} :
    joinFrom workers = some none ↔ ∀ w ∈ workers, w = .stopped none := by
  induction workers with
  | nil => simp [joinFrom]
  | cons w workers ih =>
    rw [List.forall_mem_cons]
    cases w with
    | running => simp [joinFrom]
    | stopped result =>
      cases result with
      | some => simp [joinFrom]
      | none =>
        rw [joinFrom, ih]
        exact (and_iff_right rfl).symm

theorem joined_eq_some {joined : Option PuzzleSolution} : S.joined N = some joined ↔
    S.workers.length = N.config.minerThreadCount ∧ joinFrom S.workers = some joined := by
  unfold Solver.joined
  split
  · next hlen => exact (and_iff_right hlen).symm
  · next hlen => simp [hlen]

/-- What the workers do after `solve_puzzle` has returned does not matter to what it returned. -/
theorem Step.joined (h : Step N token S t S') {joined : Option PuzzleSolution}
    (hjoined : S.joined N = some joined) : S'.joined N = some joined := by
  rw [joined_eq_some] at hjoined ⊢
  obtain ⟨hlen, hjoin⟩ := hjoined
  cases h with
  | spawn hlt => omega
  | stop hi => exact ⟨List.length_set.trans hlen, joinFrom_set hjoin hi⟩
  | found hi => exact ⟨List.length_set.trans hlen, joinFrom_set hjoin hi⟩
  | missed hi => exact ⟨List.length_set.trans hlen, joinFrom_set hjoin hi⟩

end Solver

/-! ## Workers and others -/

structure Race where
  cancellationToken : Bool
  solver : Solver

namespace Race

/-- What happens: others set the cancellation token, or the call goes on, seeing the token so. -/
inductive Label where
  | set (cancellationToken : Bool)
  | tick (cancellationToken : Bool) (t : Tick)

inductive Step (N : Setting) : Race → Label → Race → Prop
  | set {R : Race} (cancellationToken : Bool) :
      Step N R (.set cancellationToken) { R with cancellationToken := cancellationToken }
  | tick {R : Race} {t : Tick} {solver : Solver}
      (h : Solver.Step N R.cancellationToken R.solver t solver) :
      Step N R (.tick R.cancellationToken t) { R with solver := solver }

/-- The worker has returned the solution. -/
def Finds (R : Race) (i : ℕ) (solution : PuzzleSolution) : Prop :=
  R.solver.workers[i]? = some (Worker.stopped (some solution))

/-- The call of `solve_puzzle` begins. -/
def start (cancellationToken : Bool) (puzzle : String) : Race where
  cancellationToken := cancellationToken
  solver := Solver.new puzzle

/-- The iteration of the worker, with the token it has seen. -/
def Label.iteration (i : ℕ) : Label → Option (Bool × Tick)
  | .set _ => none
  | .tick cancellationToken t => if t.worker = some i then some (cancellationToken, t) else none

def lastIteration (labels : List Label) (i : ℕ) : Option (Bool × Tick) :=
  (labels.filterMap (Label.iteration i)).getLast?

variable {N : Setting} {R R' : Race} {labels : List Label} {label : Label} {puzzle : String}

theorem lastIteration_snoc_none {i : ℕ} (h : label.iteration i = none) :
    lastIteration (labels ++ [label]) i = lastIteration labels i := by
  rw [lastIteration, List.filterMap_append, List.filterMap_cons_none h, List.filterMap_nil,
    List.append_nil]
  rfl

theorem lastIteration_snoc_some {i : ℕ} {iteration : Bool × Tick}
    (h : label.iteration i = some iteration) :
    lastIteration (labels ++ [label]) i = some iteration := by
  rw [lastIteration, List.filterMap_append, List.filterMap_cons_some h, List.filterMap_nil,
    List.getLast?_concat]

/-- A worker that has stopped has a solution, and the found token is up with it; as long as that is
down, it has seen the cancellation token up. -/
structure Raced (N : Setting) (puzzle : String) (labels : List Label) (R : Race) : Prop where
  puzzle_eq : R.solver.puzzle = puzzle
  solves : ∀ i solution, R.Finds i solution → R.solver.foundToken = true ∧ Solves N puzzle solution
  unique : ∀ i j solution solution', R.Finds i solution → R.Finds j solution' → i = j
  finder : R.solver.foundToken = true → ∃ i solution, R.Finds i solution
  cancelled : R.solver.foundToken = false →
    ∀ i, R.solver.workers[i]? = some (Worker.stopped none) →
      lastIteration labels i = some (true, .stop i)

theorem raced_start (token : Bool) : Raced N puzzle [] (start token puzzle) :=
  ⟨rfl, fun _ _ h => absurd h (by simp [Finds, start, Solver.new]),
    fun _ _ _ _ h => absurd h (by simp [Finds, start, Solver.new]),
    fun h => absurd h (by simp [start, Solver.new]),
    fun _ _ h => absurd h (by simp [start, Solver.new])⟩

theorem Raced.tick {t : Tick} {solver : Solver} (h : Raced N puzzle labels R)
    (hstep : Solver.Step N R.cancellationToken R.solver t solver) :
    Raced N puzzle (labels ++ [.tick R.cancellationToken t]) { R with solver := solver } := by
  have hfinds : ∀ i solution, Finds { R with solver := solver } i solution →
      R.Finds i solution ∨ (t = .found i ∧ R.solver.foundToken = false ∧
        Solves N puzzle solution) := by
    intro i solution hi
    rcases hstep.stopped_cases hi with ⟨hi, -⟩ | ⟨-, he, -⟩ | ⟨ht, hgo, solution', he, hsolves⟩
    · exact .inl hi
    · exact absurd he (by simp)
    · obtain rfl := Option.some.inj he
      rw [h.puzzle_eq] at hsolves
      exact .inr ⟨ht, (Bool.or_eq_false_iff.mp hgo).2, hsolves⟩
  constructor
  case puzzle_eq => exact hstep.puzzle_eq.trans h.puzzle_eq
  case solves =>
    intro i solution hi
    rcases hfinds i solution hi with hi | ⟨rfl, -, hsolves⟩
    · obtain ⟨hfound, hsolves⟩ := h.solves i solution hi
      exact ⟨hstep.foundToken_eq_true.mpr (.inl hfound), hsolves⟩
    · exact ⟨hstep.foundToken_eq_true.mpr (.inr ⟨i, rfl⟩), hsolves⟩
  case unique =>
    intro i j solution solution' hi hj
    rcases hfinds i solution hi with hi | ⟨rfl, hdown, -⟩ <;>
      rcases hfinds j solution' hj with hj | ⟨ht, hdown', -⟩
    · exact h.unique i j solution solution' hi hj
    · have hup := (h.solves i solution hi).1
      exact absurd (hup.symm.trans hdown') (by simp)
    · have hup := (h.solves j solution' hj).1
      exact absurd (hup.symm.trans hdown) (by simp)
    · exact Tick.found.inj ht
  case finder =>
    intro hfound
    rcases hstep.foundToken_eq_true.mp hfound with hfound | ⟨i, rfl⟩
    · obtain ⟨i, solution, hi⟩ := h.finder hfound
      exact ⟨i, solution, hstep.stopped_kept hi⟩
    · cases hstep with
      | @found _ _ solution hi =>
        exact ⟨i, solution, List.getElem?_set_self (List.getElem?_eq_some_iff.mp hi).1⟩
  case cancelled =>
    intro hdown i hi
    have hdown' : R.solver.foundToken = false := by
      rw [← Bool.not_eq_true] at hdown ⊢
      exact fun hup => hdown (hstep.foundToken_eq_true.mpr (.inl hup))
    rcases hstep.stopped_cases hi with ⟨hi, hne⟩ | ⟨rfl, -, hstop⟩ | ⟨-, -, solution, he, -⟩
    · have hnone : (Label.tick R.cancellationToken t).iteration i = none := if_neg hne
      rw [lastIteration_snoc_none hnone]
      exact h.cancelled hdown' i hi
    · rw [hdown', Bool.or_false] at hstop
      rw [hstop]
      exact lastIteration_snoc_some (if_pos rfl)
    · exact absurd he (by simp)

theorem Raced.step (h : Raced N puzzle labels R) (hstep : Step N R label R') :
    Raced N puzzle (labels ++ [label]) R' := by
  cases hstep with
  | tick htick => exact h.tick htick
  | set token =>
    refine ⟨h.puzzle_eq, h.solves, h.unique, h.finder, fun hdown i hi => ?_⟩
    rw [lastIteration_snoc_none rfl]
    exact h.cancelled hdown i hi

theorem raced_of_run {token : Bool} (hrun : Run (Step N) (start token puzzle) labels R) :
    Raced N puzzle labels R :=
  hrun.invariant_labels (I := Raced N puzzle) (fun _ _ _ _ h hstep => h.step hstep)
    (raced_start token)

theorem joined_of_run {later : List Label} {result : Option PuzzleSolution}
    (hrun : Run (Step N) R later R') (hjoined : R.solver.joined N = some result) :
    R'.solver.joined N = some result := by
  refine hrun.invariant (I := fun R => R.solver.joined N = some result) (fun R label R' h hstep => ?_)
    hjoined
  cases hstep with
  | set => exact h
  | tick htick => exact htick.joined h

theorem Raced.result_eq (h : Raced N puzzle labels R) {result : Option PuzzleSolution}
    (hjoined : R.solver.joined N = some result) {i : ℕ} {solution : PuzzleSolution}
    (hi : R.Finds i solution) : result = some solution := by
  cases result with
  | none =>
    have hnone := Solver.joinFrom_eq_none.mp (Solver.joined_eq_some.mp hjoined).2
    exact absurd (hnone _ (List.mem_of_getElem? hi)) (by simp)
  | some solution' =>
    obtain ⟨j, hj⟩ := List.mem_iff_getElem?.mp (Solver.mem_of_joined hjoined)
    obtain rfl := h.unique i j solution solution' hi hj
    exact Worker.stopped.inj (Option.some.inj (hj.symm.trans hi))

end Race

open Race

/-- For every puzzle, nonce length, difficulty and number of workers, in every interleaving of the
workers' iterations with changes of the cancellation token: at most one worker returns a solution.
Once `solve_puzzle` returns: what a worker has found, or ever finds, is what it returns; what it returns
a worker has found, and it solves the puzzle; and if it returns nothing, every worker has seen the
cancellation token up in its last iteration. -/
theorem parallel_mining_sound {N : Setting} {token : Bool} {puzzle : String} {labels : List Label}
    {R : Race} (hrun : Run (Race.Step N) (Race.start token puzzle) labels R) :
    (∀ i j solution solution', R.Finds i solution → R.Finds j solution' → i = j) ∧
    ∀ result, R.solver.joined N = some result →
      (∀ later R' i solution, Run (Race.Step N) R later R' → R'.Finds i solution →
        result = some solution) ∧
      (∀ solution, result = some solution →
        (∃ i, R.Finds i solution) ∧ Solves N puzzle solution) ∧
      (result = none → ∀ i < N.config.minerThreadCount,
        lastIteration labels i = some (true, .stop i)) := by
  have h := raced_of_run hrun
  refine ⟨h.unique, fun result hjoined => ⟨?_, ?_, ?_⟩⟩
  · intro later R' i solution hlater hi
    exact (raced_of_run (hrun.trans hlater)).result_eq (joined_of_run hlater hjoined) hi
  · rintro solution rfl
    obtain ⟨i, hi⟩ := List.mem_iff_getElem?.mp (Solver.mem_of_joined hjoined)
    exact ⟨⟨i, hi⟩, (h.solves i solution hi).2⟩
  · rintro rfl i hlt
    obtain ⟨hlen, hjoin⟩ := Solver.joined_eq_some.mp hjoined
    have hnone := Solver.joinFrom_eq_none.mp hjoin
    have hdown : R.solver.foundToken = false := by
      rw [← Bool.not_eq_true]
      intro hup
      obtain ⟨j, solution, hj⟩ := h.finder hup
      exact absurd (hnone _ (List.mem_of_getElem? hj)) (by simp)
    apply h.cancelled hdown
    rw [List.getElem?_eq_getElem (hlen ▸ hlt), hnone _ (List.getElem_mem _)]

/-- Two workers at the loan: the first finds the solution, and the other one, which then sees both
tokens up, stops; or the cancellation token comes first, and both stop. -/
theorem parallel_mining_sound_loan :
    (∃ labels R, Run (Race.Step (Nakamoto.miningWith 2 427))
        (Race.start false ((unminedBlock "0" loan).puzzle.toJson walletCrates)) labels R ∧
      .set true ∈ labels ∧
      R.solver.joined (Nakamoto.miningWith 2 427) = some (some (minedSolution 'a' "0" loan)) ∧
      Solves (Nakamoto.miningWith 2 427) ((unminedBlock "0" loan).puzzle.toJson walletCrates)
        (minedSolution 'a' "0" loan)) ∧
    ∃ labels R, Run (Race.Step (Nakamoto.miningWith 2 427))
        (Race.start false ((unminedBlock "0" loan).puzzle.toJson walletCrates)) labels R ∧
      R.solver.joined (Nakamoto.miningWith 2 427) = some none ∧
      ∀ i < 2, lastIteration labels i = some (true, .stop i) := by
  have hfirst : Run (Race.Step (Nakamoto.miningWith 2 427))
      (Race.start false ((unminedBlock "0" loan).puzzle.toJson walletCrates)) _ _ :=
    Run.single (.tick (Solver.Step.spawn (by decide) rfl))
  have hspawn := hfirst.snoc (.tick (Solver.Step.spawn (by decide) rfl))
  constructor
  · have hfound := hspawn.snoc (.tick (Solver.Step.found (i := 0)
      (show _ = some (Worker.running 427) from rfl) rfl (tryNonce_mined (by decide) "0" loan)))
    have hset := hfound.snoc (.set true)
    have hrun := hset.snoc (.tick (Solver.Step.stop (i := 1)
      (show _ = some (Worker.running 428) from rfl) rfl))
    have hjoined : Solver.joined (Nakamoto.miningWith 2 427)
        { puzzle := (unminedBlock "0" loan).puzzle.toJson walletCrates
          foundToken := true
          workers := [.stopped (some (minedSolution 'a' "0" loan)), .stopped none] } =
        some (some _) := rfl
    obtain ⟨-, hall⟩ := parallel_mining_sound hrun
    exact ⟨_, _, hrun, by simp, hjoined, ((hall _ hjoined).2.1 _ rfl).2⟩
  · have hset := hspawn.snoc (.set true)
    have hstopped := hset.snoc (.tick (Solver.Step.stop (i := 1)
      (show _ = some (Worker.running 428) from rfl) rfl))
    have hrun := hstopped.snoc (.tick (Solver.Step.stop (i := 0)
      (show _ = some (Worker.running 427) from rfl) rfl))
    have hjoined : Solver.joined (Nakamoto.miningWith 2 427)
        { puzzle := (unminedBlock "0" loan).puzzle.toJson walletCrates
          foundToken := false
          workers := [.stopped none, .stopped none] } = some none := rfl
    obtain ⟨-, hall⟩ := parallel_mining_sound hrun
    exact ⟨_, _, hrun, hjoined, (hall _ hjoined).2.2 rfl⟩

end NakamotoNode.Node
