import Compi.GuardedCfgSearch

/-!
# The bound of the search along the graph

`SolveAlongCfg` subtracts one from an unsigned bound for every recursive call.
The bound does not wrap unless a lucky search, whose distances are out of date,
meets a zero of a covered branch when its bound is zero.
-/

namespace Compi

namespace SearchBound

open SearchRun StoppableRun BranchTables CfgDistance Coverage ObservedSearch
  ObservedCfgSearch SearchProgress GuardedCfgSearch

/--
As long as the counter of covered branches does not wrap and no lucky search
meets an outdated zero at bound zero, every recursive call is made with a
positive bound, which is the first bound less the depth.
-/
theorem bounded_observations
    (env : Environment)
    (wellFormed : WellFormed env)
    (fuel : Nat)
    (world : World)
    (consistent : Consistent env (progress world))
    (fits :
      ∀ before ex,
        .update before ex ∈ observations env fuel world →
        Fits env before ex)
    (fresh :
      ∀ before ex j,
        .visit true 0 before ex j ∈ observations env fuel world →
        FreshAt env.tables (snapshot (progress before)) ex j) :
    ∀ start depth maxDist,
      .recursion start depth maxDist ∈ observations env fuel world →
      0 < maxDist ∧ depth + maxDist = start := by
  have guarantees :=
    (guards_cfgHeuristic True wellFormed fuel).guarantees_of_run consistent
  have assumed :
      ∀ observation ∈ observations env fuel world,
        Assumed env True observation := by
    refine assumed_of fits fun lucky maxDist before ex j member => ?_
    rintro - rfl rfl
    exact fresh before ex j member
  intro start depth maxDist member
  exact guarantees assumed (.recursion start depth maxDist) member trivial

section Lucky

/-- Four conditionals in one function. -/
def fourPairs : BranchTables where
  branches := [1, 2, 3, 4, 5, 6, 7, 8]
  pairedBranch := [0, 2, 1, 4, 3, 6, 5, 8, 7]
  branchFunction := [0, 1, 1, 1, 1, 1, 1, 1, 1]
  branchCount := [0, 8]

theorem wellFormed_fourPairs : fourPairs.WellFormed := by
  constructor
  · decide
  · decide
  · decide
  · decide

/-- A run on four inputs, with constraints on some of the branches. -/
def takes
    (branches : List BranchId)
    (constraintsIdx : List Nat) : SymbolicExecution :=
  { SymbolicExecution.empty with
    executionTag := 1
    vars :=
      [0, 1, 2, 3].foldl (fun vars x => vars.insert x .int)
        (∅ : OrderedMap Var CType)
    inputs := [1, 1, 1, 1]
    path :=
      { SymbolicPath.empty with
        branches := branches
        constraintsIdx := constraintsIdx
        constraints :=
          constraintsIdx.map fun x => { op := .le, expr := .ofTerm 1 x } } }

/--
Branch 2 leads to 3 and 4, branch 3 to 5 and 6, and branches 4 and 5 lead to 7
and 8.  The other ranks cover all but 1 and 7 in the first run.
-/
def ladder (runs : Int) (second : List BranchId) : Environment where
  maxIters := runs
  tables := fourPairs
  cfgRev := [[], [], [], [2], [2], [3], [3], [5, 4], [5, 4]]
  rand := fun _ => 0
  solve := fun _ _ _ => some ((∅ : OrderedMap Var Value).insert 0 0)
  execution := fun run _ =>
    if run = 1 then
      takes [1] [0]
    else if run = 2 then
      takes second [0, 1, 2]
    else
      takes [2, 4, 7, 1] [0, 1, 3]
  branchesOfRank := fun run _ =>
    if run = 1 then some [2, 3, 4, 5, 6, 8] else none

/-- A new search without a coverage file. -/
def newSearch : World :=
  World.start "a.out" 4 0 (uncovered fourPairs) (List.replicate 9 0)

theorem wellFormed_ladder
    (runs : Int)
    {second : List BranchId}
    (drawn : ∀ bid ∈ second, bid ∈ fourPairs.branches) :
    WellFormed (ladder runs second) where
  tables := wellFormed_fourPairs
  positive := by
    show ∀ bid ∈ fourPairs.branches, 0 < bid
    decide
  paired := by
    have pairedInTable :
        ∀ bid ∈ fourPairs.branches,
          ∀ other ∈ lookup? fourPairs.pairedBranch bid,
            other ∈ fourPairs.branches := by
      decide
    exact fun bid member other => pairedInTable bid member other
  executions := by
    intro run ex
    have others :
        ∀ branches ∈ [[1], [2, 4, 7, 1]],
          ∀ bid ∈ branches, bid ∈ fourPairs.branches := by
      decide
    show Drawn fourPairs (ite _ _ _ : SymbolicExecution).path.branches
    split
    · exact fun bid member => Or.inl (others [1] (by decide) bid member)
    · split
      · exact fun bid member => Or.inl (drawn bid member)
      · exact fun bid member =>
          Or.inl (others [2, 4, 7, 1] (by decide) bid member)
  others := by
    intro run rank branches reports
    have listed : ∀ bid ∈ [2, 3, 4, 5, 6, 8], bid ∈ fourPairs.branches := by
      decide
    replace reports :
        (if run = 1 then some [2, 3, 4, 5, 6, 8] else none) =
          some branches :=
      reports
    split at reports
    · obtain rfl := Option.some.inj reports
      exact fun bid member => Or.inl (listed bid member)
    · cases reports

theorem consistent_newSearch
    (runs : Int)
    {second : List BranchId}
    (drawn : ∀ bid ∈ second, bid ∈ fourPairs.branches) :
    Consistent (ladder runs second) (progress newSearch) := by
  obtain ⟨coverage, loads, consistent⟩ :=
    SearchProgress.consistent_start (wellFormed_ladder runs drawn)
      List.nodup_nil (List.forall_mem_nil _)
  obtain rfl := Option.some.inj loads
  exact consistent "a.out" 4 0

/-- The state in the first run at the call of `UpdateCoverage`. -/
def launched : World :=
  { newSearch with
    search :=
      { newSearch.search with
        numIters := 1
        isFirstRun := false }
    calls := [.launchProgram { newSearch.search with numIters := 1 } []] }

/-- The state when the constraint of the first run is scored. -/
def noticed : World :=
  { launched with
    coverage :=
      { covered :=
          [false, true, true, true, true, true, true, false, true]
        totalCovered :=
          [false, true, true, true, true, true, true, false, true]
        numCovered := 7
        totalNumCovered := 7
        reached := [false, true]
        reachableFunctions := 1
        reachableBranches := 8 }
    dist := [0, kInfiniteDistance, 2, 2, 1, 1, kInfiniteDistance, 0,
      kInfiniteDistance] }

/-- The solve loop of the first run. -/
def firstSolve (runs : Int) (second : List BranchId) :
    Observed Observation Bool :=
  heuristicSolve (ladder runs second) 6 kInfiniteDistance (takes [1] [0])
    [(0, 2)] 30 SymbolicExecution.empty

/-- If the solve loop of the first run exits, so does the whole search. -/
theorem cfgHeuristic_ladder
    {runs : Int}
    {second : List BranchId}
    (someRun : 1 ≤ runs)
    {final : World × List Observation}
    (solves :
      Stops (firstSolve runs second)
        (noticed, [.update launched (takes [1] [0])]) .exit final) :
    Stops (cfgHeuristic (ladder runs second) 6) (newSearch, []) .exit final := by
  have launches :
      Yields (runProgram (ladder runs second) [] SymbolicExecution.empty)
        (restarted newSearch) (takes [1] [0]) launched := by
    refine Yields.bind rfl (Yields.bind rfl ?_)
    refine (congrArg
      (fun program : Run SymbolicExecution => program.run.run _)
      (if_neg (Int.not_lt.mpr someRun))).trans ?_
    exact Yields.bind rfl rfl
  have notices :
      Yields (SearchRun.updateCoverage (ladder runs second) (takes [1] [0]))
        launched
        (true,
          [1, 2, 3, 4, 5, 6, 8].foldl (fun found bid => found.insert bid) ∅)
        { noticed with dist := List.replicate 9 0 } :=
    yields_updateCoverage rfl
  have updates :
      Yields (SearchStrategies.updateDistances (ladder runs second))
        { noticed with dist := List.replicate 9 0 } () noticed := by
    rfl
  have scores :
      Yields
        (SearchStrategies.scoredBranches (ladder runs second)
          SearchStrategies.heuristicScore (takes [1] [0]) 0)
        noticed [(0, 2)] noticed := by
    refine Yields.bind rfl (Yields.bind rfl ?_)
    exact congrArg (fun sorted => (Except.ok sorted, noticed))
      (List.mergeSort_singleton _)
  have firstRound :
      Stops
        (heuristicRound (ladder runs second) 6 SymbolicExecution.empty)
        (newSearch, []) .exit final :=
    stops_heuristicRound launches notices updates (by decide) scores solves
  exact ((firstRound.bind _).bind _).bind _

/-- Whether the first run exits with a log that passes a test. -/
def exitsWith
    (test : List Observation → Bool)
    (runs : Int)
    (second : List BranchId) : Bool :=
  match (firstSolve runs second).run.run
      (noticed, [.update launched (takes [1] [0])]) with
  | (.error .exit, _, log) => test log
  | _ => false

/-- The log of the first run is what is observed of the search. -/
theorem test_observations
    (test : List Observation → Bool)
    {runs : Int}
    {second : List BranchId}
    (someRun : 1 ≤ runs)
    (exits : exitsWith test runs second = true) :
    test (observations (ladder runs second) 6 newSearch) = true := by
  unfold exitsWith at exits
  split at exits
  · next final log solves =>
      have searched := cfgHeuristic_ladder someRun solves
      rw [observations, searched]
      exact exits
  · cases exits

/-- Whether an observation fits, if it is an update. -/
def fitting
    (runs : Int)
    (second : List BranchId) : Observation → Bool
  | .update before ex => decide (Fits (ladder runs second) before ex)
  | _ => true

/-- Whether an observation is not a lucky visit. -/
def unlucky : Observation → Bool
  | .visit lucky _ _ _ _ => !lucky
  | _ => true

/-- Whether an observation is the given recursive call. -/
def isRecursion (first depth maxDist : Nat) : Observation → Bool
  | .recursion start depth' maxDist' =>
      decide (start = first ∧ depth' = depth ∧ maxDist' = maxDist)
  | _ => false

theorem mem_of_isRecursion
    {first depth maxDist : Nat}
    {log : List Observation}
    (found : log.any (isRecursion first depth maxDist) = true) :
    .recursion first depth maxDist ∈ log := by
  obtain ⟨observation, member, isIt⟩ := List.any_eq_true.mp found
  cases observation with
  | recursion start depth' maxDist' =>
      obtain ⟨rfl, rfl, rfl⟩ := of_decide_eq_true isIt
      exact member
  | update before ex =>
      cases isIt
  | iteration reached =>
      cases isIt
  | nonzero dist =>
      cases isIt
  | visit lucky bound before ex j =>
      cases isIt

theorem bounded_observations_unlucky :
    .recursion 1 0 1 ∈ observations (ladder 2 [2, 4, 8]) 6 newSearch ∧
      ∀ start depth maxDist,
        .recursion start depth maxDist ∈
          observations (ladder 2 [2, 4, 8]) 6 newSearch →
        0 < maxDist ∧ depth + maxDist = start := by
  have drawn : ∀ bid ∈ [2, 4, 8], bid ∈ fourPairs.branches := by
    decide
  have allFit :
      (observations (ladder 2 [2, 4, 8]) 6 newSearch).all
          (fitting 2 [2, 4, 8]) =
        true :=
    test_observations (List.all · (fitting 2 [2, 4, 8])) (by decide)
      (by decide +kernel)
  have allUnlucky :
      (observations (ladder 2 [2, 4, 8]) 6 newSearch).all unlucky = true :=
    test_observations (List.all · unlucky) (by decide) (by decide +kernel)
  refine ⟨mem_of_isRecursion ?_, ?_⟩
  · exact test_observations (List.any · (isRecursion 1 0 1)) (by decide)
      (by decide +kernel)
  · refine bounded_observations _ (wellFormed_ladder 2 drawn) 6 newSearch
      (consistent_newSearch 2 drawn) ?_ ?_
    · intro before ex member
      exact of_decide_eq_true (List.all_eq_true.mp allFit _ member)
    · intro before ex j member
      exact absurd (List.all_eq_true.mp allUnlucky _ member)
        Bool.false_ne_true

/--
The second run covers 7 and goes on with distances that are out of date.  The
third one takes 4 and 7, and finds nothing new: the distance of 7 is still
zero, and a recursive call is made with the bound zero less one.
-/
theorem not_bounded_observations_lucky :
    WellFormed (ladder 3 [2, 3, 5, 7]) ∧
      Consistent (ladder 3 [2, 3, 5, 7]) (progress newSearch) ∧
      (∀ before ex,
        .update before ex ∈
          observations (ladder 3 [2, 3, 5, 7]) 6 newSearch →
        Fits (ladder 3 [2, 3, 5, 7]) before ex) ∧
      ¬ ∀ start depth maxDist,
          .recursion start depth maxDist ∈
            observations (ladder 3 [2, 3, 5, 7]) 6 newSearch →
          0 < maxDist := by
  have drawn : ∀ bid ∈ [2, 3, 5, 7], bid ∈ fourPairs.branches := by
    decide
  have allFit :
      (observations (ladder 3 [2, 3, 5, 7]) 6 newSearch).all
          (fitting 3 [2, 3, 5, 7]) =
        true :=
    test_observations (List.all · (fitting 3 [2, 3, 5, 7])) (by decide)
      (by decide +kernel)
  have unbounded :
      .recursion 1 1 0 ∈
        observations (ladder 3 [2, 3, 5, 7]) 6 newSearch :=
    mem_of_isRecursion
      (test_observations (List.any · (isRecursion 1 1 0)) (by decide)
        (by decide +kernel))
  refine ⟨wellFormed_ladder 3 drawn, consistent_newSearch 3 drawn, ?_, ?_⟩
  · intro before ex member
    exact of_decide_eq_true (List.all_eq_true.mp allFit _ member)
  · intro bounded
    exact absurd (bounded 1 1 0 unbounded) (Nat.lt_irrefl 0)

end Lucky

end SearchBound

end Compi
