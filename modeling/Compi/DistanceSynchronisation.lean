import Compi.GuardedCfgSearch

/-!
# Distances in step with the coverage

In a run of the heuristic search whose counter of covered branches does not
wrap, every iteration of the solve loop starts with the distances in step with
the coverage.  Where the counter wraps, a new branch is not noticed.
-/

namespace Compi

namespace DistanceSynchronisation

open SearchRun StoppableRun BranchTables CfgDistance Coverage ObservedSearch
  ObservedCfgSearch SearchProgress GuardedCfgSearch

/--
As long as the counter of covered branches does not wrap, every iteration of
the solve loop starts in step, and the asserted distance is not zero.
-/
theorem inSync_observations
    (env : Environment)
    (wellFormed : WellFormed env)
    (fuel : Nat)
    (world : World)
    (consistent : Consistent env (progress world))
    (fits :
      ∀ before ex,
        .update before ex ∈ observations env fuel world →
        Fits env before ex) :
    (∀ reached,
        .iteration reached ∈ observations env fuel world →
        InSync env.tables (snapshot (progress reached))) ∧
      ∀ dist, .nonzero dist ∈ observations env fuel world → dist ≠ 0 := by
  have guarantees :=
    (guards_cfgHeuristic False wellFormed fuel).guarantees_of_run consistent
  have assumed :
      ∀ observation ∈ observations env fuel world,
        Assumed env False observation := by
    refine assumed_of fits fun _ _ _ _ _ _ => ?_
    exact fun impossible => absurd impossible not_false
  exact ⟨fun reached => guarantees assumed (.iteration reached),
    fun dist => guarantees assumed (.nonzero dist)⟩

section Wrap

/-- Two conditionals in one function. -/
def twoPairs : BranchTables where
  branches := [1, 2, 3, 4]
  pairedBranch := [0, 2, 1, 4, 3]
  branchFunction := [0, 1, 1, 1, 1]
  branchCount := [0, 4]

/-- A run that takes all branches and records no constraint. -/
def takesAll : SymbolicExecution :=
  { SymbolicExecution.empty with
    path := { SymbolicPath.empty with branches := [1, 2, 3, 4] } }

/-- A comparison of a variable with zero. -/
def comparison (x : Var) (op : CompareOp) : SymbolicPred where
  op := op
  expr := .ofTerm 1 x

/-- A run that tests the first input and then the second. -/
def takes (branches : List BranchId) (second : CompareOp) :
    SymbolicExecution :=
  { SymbolicExecution.empty with
    executionTag := 1
    vars := ((∅ : OrderedMap Var CType).insert 0 .int).insert 1 .int
    inputs := [1, 1]
    path :=
      { SymbolicPath.empty with
        branches := branches
        constraintsIdx := [0, 2]
        constraints := [comparison 0 .le, comparison 1 second] } }

/-- Rounds that take all branches, and a last one that tests and flips. -/
def wrapping (rounds flips : Nat) : Environment where
  maxIters := rounds + 1 + flips
  tables := twoPairs
  cfgRev := [[], [], [], [], []]
  rand := fun _ => 0
  solve := fun _ _ _ => some ((∅ : OrderedMap Var Value).insert 0 0)
  execution := fun run _ =>
    if run ≤ rounds then
      takesAll
    else if run = rounds + 1 then
      takes [2, 1, 3] .gt
    else
      takes [2, 1, 4] .le
  branchesOfRank := fun _ _ => none

theorem wellFormed_twoPairs : twoPairs.WellFormed := by
  constructor
  · decide
  · decide
  · decide
  · decide

theorem wellFormed_wrapping (rounds flips : Nat) :
    WellFormed (wrapping rounds flips) where
  tables := wellFormed_twoPairs
  positive := by
    show ∀ bid ∈ twoPairs.branches, 0 < bid
    decide
  paired := by
    have pairedInTable :
        ∀ bid ∈ twoPairs.branches,
          ∀ other ∈ lookup? twoPairs.pairedBranch bid,
            other ∈ twoPairs.branches := by
      decide
    exact fun bid member other => pairedInTable bid member other
  executions := by
    intro run ex
    have drawn :
        ∀ branches ∈ [[1, 2, 3, 4], [2, 1, 3], [2, 1, 4]],
          ∀ bid ∈ branches, bid ∈ twoPairs.branches ∨ bid < 0 := by
      decide
    show Drawn twoPairs (ite _ _ _ : SymbolicExecution).path.branches
    split
    · exact drawn [1, 2, 3, 4] (by decide)
    · split
      · exact drawn [2, 1, 3] (by decide)
      · exact drawn [2, 1, 4] (by decide)
  others := by
    intro run rank branches impossible
    cases impossible

/-- All branches are covered. -/
def allCovered (numCovered : Nat) : Coverage where
  covered := [false, true, true, true, true]
  totalCovered := [false, true, true, true, true]
  numCovered := numCovered
  totalNumCovered := 4
  reached := [false, true]
  reachableFunctions := 1
  reachableBranches := 4

/-- New branches, found one after the other. -/
def foundIn (branches : List BranchId) : OrderedSet BranchId :=
  branches.foldl (fun found bid => found.insert bid) ∅

/-- The distances before a round. -/
def distAt : Nat → List Nat
  | 0 => [0, 0, 0, 0, 0]
  | _ + 1 =>
      [0, kInfiniteDistance, kInfiniteDistance, kInfiniteDistance,
        kInfiniteDistance]

/-- The search before a round. -/
def searchAt (round : Nat) : Search :=
  { Search.start "a.out" 4 0 with
    numIters := round
    isFirstRun := decide (round = 0) }

/-- The calls before a round. -/
def callsAt : Nat → List Call
  | 0 => []
  | round + 1 =>
      .launchProgram { searchAt round with numIters := round + 1 } [] ::
        callsAt round

/-- The state before a round. -/
def worldAt (round : Nat) : World where
  search := searchAt round
  coverage := allCovered (4 * (round + 1))
  dist := distAt round
  successEx := SymbolicExecution.empty
  draws := 0
  solves := 0
  calls := callsAt round

/-- The state in a round at the call of `UpdateCoverage`. -/
def launchedAt (round : Nat) : World :=
  { worldAt (round + 1) with
    coverage := (worldAt round).coverage.restart
    dist := distAt round }

/-- What is observed before a round. -/
def logAt : Nat → List Observation
  | 0 => []
  | round + 1 => .update (launchedAt round) takesAll :: logAt round

/-- The first round starts from a search that finds all branches on file. -/
theorem consistent_worldAt (rounds flips : Nat) :
    Consistent (wrapping rounds flips) (progress (worldAt 0)) := by
  have listed : ∀ bid ∈ [1, 2, 3, 4], bid ∈ (wrapping rounds flips).tables.branches :=
    fun _ member => member
  obtain ⟨coverage, loads, consistent⟩ :=
    consistent_start (wellFormed_wrapping rounds flips)
      (by decide) listed
  have loaded : load twoPairs [1, 2, 3, 4] = some (allCovered 4) := by
    rfl
  obtain rfl := Option.some.inj (loads.symm.trans loaded)
  exact consistent "a.out" 4 0

/-- Counting does not wrap if there is room. -/
theorem iterate_count
    {numCovered count : Nat}
    (room : numCovered + count < 2 ^ 32) :
    (fun counted => (counted + 1) % 2 ^ 32)^[count] numCovered =
      numCovered + count := by
  induction count with
  | zero =>
      rfl
  | succ count inductionHypothesis =>
      rw [Function.iterate_succ_apply', inductionHypothesis (by omega)]
      exact Nat.mod_eq_of_lt room

/-- A run that takes all branches covers them. -/
theorem updateCoverage_takesAll
    {numCovered : Nat}
    (room : numCovered + 4 < 2 ^ 32) :
    (allCovered numCovered).restart.updateCoverage twoPairs
        takesAll.path.branches [] =
      some (allCovered (numCovered + 4), true, foundIn [1, 2, 3, 4]) := by
  have computed :
      (allCovered numCovered).restart.updateCoverage twoPairs
          takesAll.path.branches [] =
        some
          (allCovered
              ((fun counted => (counted + 1) % 2 ^ 32)^[4] numCovered),
            decide
              ((fun counted => (counted + 1) % 2 ^ 32)^[4] numCovered >
                numCovered),
            foundIn [1, 2, 3, 4]) := by
    rfl
  rw [computed, iterate_count room, decide_eq_true (by omega)]

/-- A run that does not take branch 4 covers the others. -/
theorem updateCoverage_takes
    {numCovered : Nat}
    (room : numCovered + 3 < 2 ^ 32) :
    (allCovered numCovered).restart.updateCoverage twoPairs
        (takes [2, 1, 3] .gt).path.branches [] =
      some
        ({ allCovered (numCovered + 3) with
            covered := [false, true, true, true, false] },
          true, foundIn [2, 1, 3]) := by
  have computed :
      (allCovered numCovered).restart.updateCoverage twoPairs
          (takes [2, 1, 3] .gt).path.branches [] =
        some
          ({ allCovered
                ((fun counted => (counted + 1) % 2 ^ 32)^[3] numCovered) with
              covered := [false, true, true, true, false] },
            decide
              ((fun counted => (counted + 1) % 2 ^ 32)^[3] numCovered >
                numCovered),
            foundIn [2, 1, 3]) := by
    rfl
  rw [computed, iterate_count room, decide_eq_true (by omega)]

/-- A launch in a round reports the execution of the round. -/
theorem runProgram_wrapping
    {rounds round : Nat}
    (isRound : round ≤ rounds)
    (flips : Nat)
    (ex : SymbolicExecution) :
    Yields (runProgram (wrapping rounds flips) [] ex)
      (restarted (worldAt round))
      ((wrapping rounds flips).execution (round + 1) ex) (launchedAt round) := by
  have inBudget :
      ¬((round + 1 : Nat) : Int) > (wrapping rounds flips).maxIters := by
    show ¬((round + 1 : Nat) : Int) > rounds + 1 + flips
    omega
  refine Yields.bind rfl (Yields.bind rfl ?_)
  refine (congrArg
    (fun program : Run SymbolicExecution => program.run.run _)
    (if_neg inBudget)).trans ?_
  exact Yields.bind rfl rfl

/-- A round before the last one covers all branches again. -/
theorem heuristicRound_wrapping
    {rounds flips round : Nat}
    (isRound : round < rounds)
    (room : 4 * (round + 1) + 4 < 2 ^ 32)
    (fuel : Nat)
    (ex : SymbolicExecution) :
    Yields (heuristicRound (wrapping rounds flips) (fuel + 1) ex)
      (worldAt round, logAt round) takesAll
      (worldAt (round + 1), logAt (round + 1)) := by
  have launched := runProgram_wrapping (Nat.le_of_lt isRound) flips ex
  have reports : (wrapping rounds flips).execution (round + 1) ex = takesAll :=
    if_pos isRound
  rw [reports] at launched
  have noticed :
      Yields (SearchRun.updateCoverage (wrapping rounds flips) takesAll)
        (launchedAt round)
        (true, foundIn [1, 2, 3, 4])
        { worldAt (round + 1) with dist := distAt round } :=
    yields_updateCoverage (updateCoverage_takesAll room)
  have updated :
      Yields (SearchStrategies.updateDistances (wrapping rounds flips))
        { worldAt (round + 1) with dist := distAt round } ()
        (worldAt (round + 1)) := by
    cases round with
    | zero =>
        rfl
    | succ round =>
        rfl
  refine Yields.bind (Yields.lift rfl _) ?_
  refine Yields.bind (Yields.lift rfl _) ?_
  refine Yields.bind (launched.lift _) ?_
  refine Yields.bind (Yields.bind rfl (noticed.lift _)) ?_
  exact Yields.bind (updated.lift _) rfl

/-- The rounds before the last one. -/
theorem run_rounds
    {rounds flips : Nat}
    (room : 4 * rounds + 4 < 2 ^ 32)
    (fuel bound : Nat)
    {round : Nat}
    (upTo : round ≤ rounds) :
    ∃ ex,
      (forever (round + bound) (heuristicRound (wrapping rounds flips) (fuel + 1))
          SymbolicExecution.empty).run.run (worldAt 0, []) =
        (forever bound (heuristicRound (wrapping rounds flips) (fuel + 1))
          ex).run.run (worldAt round, logAt round) := by
  induction round generalizing bound with
  | zero =>
      exact ⟨_, by rw [Nat.zero_add]; rfl⟩
  | succ round inductionHypothesis =>
      obtain ⟨ex, ran⟩ := inductionHypothesis (bound + 1) (by omega)
      refine ⟨takesAll, ?_⟩
      rw [Nat.add_assoc, Nat.add_comm 1 bound, ran]
      exact run_forever
        (heuristicRound_wrapping (Nat.lt_of_succ_le upTo) (by omega) fuel ex)
        bound

/-- The state in the last round when the scored constraints are solved. -/
def solvingAt (rounds : Nat) : World :=
  { worldAt (rounds + 1) with
    coverage :=
      { allCovered (4 * (rounds + 1) + 3) with
        covered := [false, true, true, true, false] }
    dist := [0, kInfiniteDistance, kInfiniteDistance, kInfiniteDistance, 0]
    draws := 1 }

/-- The solve loop of the last round. -/
def lastSolve (rounds flips : Nat) : Observed Observation Bool :=
  heuristicSolve (wrapping rounds flips) (rounds + 1) kInfiniteDistance
    (takes [2, 1, 3] .gt) [(1, 0), (0, kInfiniteDistance)] 30
    SymbolicExecution.empty

/-- What is observed when the solve loop of the last round starts. -/
def solvingLog (rounds : Nat) : List Observation :=
  .update (launchedAt rounds) (takes [2, 1, 3] .gt) :: logAt rounds

/-- If the solve loop of the last round exits, so does the whole search. -/
theorem cfgHeuristic_wrapping
    {rounds flips : Nat}
    (room : 4 * (rounds + 1) + 4 ≤ 2 ^ 32)
    {final : World × List Observation}
    (solved :
      Stops (lastSolve rounds flips) (solvingAt rounds, solvingLog rounds) .exit
        final) :
    Stops (cfgHeuristic (wrapping rounds flips) (rounds + 1)) (worldAt 0, []) .exit
      final := by
  obtain ⟨ex, ran⟩ := run_rounds (by omega) rounds 1 (Nat.le_refl rounds)
  refine ran.trans ?_
  have launched := runProgram_wrapping (Nat.le_refl rounds) flips ex
  have reports :
      (wrapping rounds flips).execution (rounds + 1) ex = takes [2, 1, 3] .gt :=
    (if_neg (Nat.not_succ_le_self rounds)).trans (if_pos rfl)
  rw [reports] at launched
  have noticed :
      Yields
        (SearchRun.updateCoverage (wrapping rounds flips) (takes [2, 1, 3] .gt))
        (launchedAt rounds) (true, foundIn [2, 1, 3])
        { solvingAt rounds with
          dist := distAt rounds
          draws := 0 } :=
    yields_updateCoverage (updateCoverage_takes (by omega))
  have updated :
      Yields (SearchStrategies.updateDistances (wrapping rounds flips))
        { solvingAt rounds with
          dist := distAt rounds
          draws := 0 }
        () { solvingAt rounds with draws := 0 } := by
    cases rounds with
    | zero =>
        rfl
    | succ rounds =>
        rfl
  have scored :
      Yields
        (SearchStrategies.scoredBranches (wrapping rounds flips)
          SearchStrategies.heuristicScore (takes [2, 1, 3] .gt) 0)
        { solvingAt rounds with draws := 0 }
        [(1, 0), (0, kInfiniteDistance)] (solvingAt rounds) := by
    refine Yields.bind rfl (Yields.bind rfl ?_)
    exact congrArg (fun sorted => (Except.ok sorted, _))
      (List.mergeSort_of_pairwise (by decide))
  have lastRound :
      Stops (heuristicRound (wrapping rounds flips) (rounds + 1) ex)
        (worldAt rounds, logAt rounds) .exit final :=
    stops_heuristicRound launched noticed updated (by decide) scored solved
  exact ((lastRound.bind _).bind _).bind _

/-- Whether the last round exits with a log that passes a test. -/
def exitsWith (test : List Observation → Bool) (rounds flips : Nat) : Bool :=
  match (lastSolve rounds flips).run.run (solvingAt rounds, solvingLog rounds) with
  | (.error .exit, _, log) => test log
  | _ => false

/-- The log of the last round is what is observed of the search. -/
theorem test_observations
    (test : List Observation → Bool)
    (rounds flips : Nat)
    (room : 4 * (rounds + 1) + 4 ≤ 2 ^ 32)
    (exits : exitsWith test rounds flips = true) :
    test (observations (wrapping rounds flips) (rounds + 1) (worldAt 0)) = true := by
  unfold exitsWith at exits
  split at exits
  · next final log solved =>
      have searched := cfgHeuristic_wrapping room solved
      rw [observations, searched]
      exact exits
  · cases exits

/-- Whether an observation fits, if it is an update. -/
def fitting (rounds flips : Nat) : Observation → Bool
  | .update before ex => decide (Fits (wrapping rounds flips) before ex)
  | _ => true

/-- Whether an observation is an iteration that starts out of step. -/
def outOfSync : Observation → Bool
  | .iteration reached => !decide (InSync twoPairs (snapshot (progress reached)))
  | _ => false

theorem inSync_observations_oneRound :
    (∀ reached,
        .iteration reached ∈ observations (wrapping 0 0) 1 (worldAt 0) →
        InSync twoPairs (snapshot (progress reached))) ∧
      ∀ dist,
        .nonzero dist ∈ observations (wrapping 0 0) 1 (worldAt 0) →
        dist ≠ 0 := by
  refine inSync_observations (wrapping 0 0) (wellFormed_wrapping 0 0) 1
    (worldAt 0) (consistent_worldAt 0 0) ?_
  have allFit :
      (observations (wrapping 0 0) 1 (worldAt 0)).all (fitting 0 0) = true :=
    test_observations (List.all · (fitting 0 0)) 0 0 (by decide)
      (by decide +kernel)
  intro before ex member
  exact of_decide_eq_true (List.all_eq_true.mp allFit _ member)

/-- Rounds after which there is room for less than four branches. -/
def manyRounds : Nat :=
  2 ^ 30 - 2

/--
After `manyRounds` rounds that cover four branches each, the counter is at
2 ^ 32 - 4.  The last round covers three branches and then the fourth, which
is not noticed: its distance is still zero in the next iteration.
-/
theorem not_inSync_observations_wrap :
    WellFormed (wrapping manyRounds 1) ∧
      Consistent (wrapping manyRounds 1) (progress (worldAt 0)) ∧
      ¬ ∀ reached,
          .iteration reached ∈
            observations (wrapping manyRounds 1) (manyRounds + 1) (worldAt 0) →
          InSync twoPairs (snapshot (progress reached)) := by
  refine ⟨wellFormed_wrapping _ _, consistent_worldAt _ _, ?_⟩
  have someOutOfSync :
      (observations (wrapping manyRounds 1) (manyRounds + 1)
          (worldAt 0)).any outOfSync = true :=
    test_observations (List.any · outOfSync) manyRounds 1 (by decide)
      (by decide +kernel)
  obtain ⟨observation, member, isOutOfSync⟩ :=
    List.any_eq_true.mp someOutOfSync
  intro inSync
  cases observation with
  | iteration reached =>
      have notInSync := of_decide_eq_false (Bool.not_eq_true' _ ▸ isOutOfSync)
      exact notInSync (inSync reached member)
  | update before ex =>
      cases isOutOfSync
  | nonzero dist =>
      cases isOutOfSync
  | visit lucky maxDist reached ex j =>
      cases isOutOfSync
  | recursion start depth maxDist =>
      cases isOutOfSync

end Wrap

end DistanceSynchronisation

end Compi
