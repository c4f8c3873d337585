import Compi.ObservedSearch

/-!
# The heuristic search, observed

What happens to the coverage and the distances in a run of the heuristic
search: the calls of `UpdateCoverage`, the iterations of the solve loop, the
assertion on a distance, and the steps of `SolveAlongCfg`.
-/

namespace Compi

namespace ObservedCfgSearch

open SearchRun StoppableRun BranchTables CfgDistance ObservedSearch

/--
An observation.  `SolveAlongCfg` is lucky if it continues after a new branch
that was not found along the graph; it visits the positions that follow a
branch, and a recursive call has the bound of the first call, the depth of its
caller and the bound of its caller.
-/
inductive Observation where
  | update (world : World) (ex : SymbolicExecution)
  | iteration (world : World)
  | nonzero (dist : Nat)
  | visit
      (lucky : Bool)
      (maxDist : Nat)
      (world : World)
      (ex : SymbolicExecution)
      (j : Nat)
  | recursion (start depth maxDist : Nat)

/-- `&&`, observed. -/
def both
    (first : Bool)
    (second : Observed Observation Bool) : Observed Observation Bool :=
  if first then second else return false

section Programs

variable (env : Environment)

/-- `updateCoverage`, observed. -/
def updateCoverage
    (ex : SymbolicExecution) :
    Observed Observation (Bool × OrderedSet BranchId) := do
  note fun world => .update world ex
  lift (SearchRun.updateCoverage env ex)

/-- A recursive call of `SolveAlongCfg`, observed. -/
def recur
    (recurse :
      Nat → Nat → Nat → SymbolicExecution → Observed Observation Bool)
    (start depth maxDist j : Nat)
    (ex : SymbolicExecution) : Observed Observation Bool := do
  note fun _ => .recursion start depth maxDist
  recurse (depth + 1) j (SearchStrategies.predUnsigned maxDist) ex

/-- `solveEachAlongCfg`, observed. -/
def solveEachAlongCfg
    (recurse :
      Nat → Nat → Nat → SymbolicExecution → Observed Observation Bool)
    (lucky : Bool)
    (start depth maxDist : Nat)
    (prevEx : SymbolicExecution) :
    List Nat → SymbolicExecution → Observed Observation Bool
  | [], _ => return false
  | j :: rest, curEx => do
      note fun world => .visit lucky maxDist world prevEx j
      let (own, paired) ←
        lift
          (SearchStrategies.nearEnough env prevEx.path.branches maxDist j)
      let along ← both own (recur recurse start depth maxDist j prevEx)
      let c_idx := (prevEx.path.constraintsIdx.takeWhile (· < j)).length
      if along then
        return true
      else if prevEx.path.constraintsIdx[c_idx]? = some j ∧ paired then
        match ← lift (solveAtBranch env prevEx c_idx) with
        | none =>
            solveEachAlongCfg recurse lucky start depth maxDist prevEx rest
              curEx
        | some input =>
            let curEx ← lift (runProgram env input curEx)
            let (found, _) ← updateCoverage env curEx
            if found then
              lift (SearchStrategies.succeed curEx)
              return true
            else if ← lift (checkPrediction env prevEx curEx j) then
              if ← recur recurse start depth maxDist j curEx then
                return true
              else
                solveEachAlongCfg recurse lucky start depth maxDist prevEx
                  rest curEx
            else
              solveEachAlongCfg recurse lucky start depth maxDist prevEx rest
                curEx
      else
        solveEachAlongCfg recurse lucky start depth maxDist prevEx rest curEx

/-- `solveAlongCfg` at a depth of the recursion, observed. -/
def solveAlongCfg
    (lucky : Bool)
    (start : Nat) :
    Nat → Nat → Nat → Nat → SymbolicExecution → Observed Observation Bool
  | 0, _, _, _, _ => throw .outOfFuel
  | fuel + 1, depth, i, maxDist, prevEx => do
      let path := prevEx.path.branches
      let idxs ← lift (require (nextBranches path i))
      let near ←
        lift (idxs.mapM (SearchStrategies.nearEnough env path maxDist))
      if near.any (fun (own, paired) => own || paired) then
        let idxs ← lift (randomShuffle env idxs)
        solveEachAlongCfg env (solveAlongCfg lucky start fuel) lucky start
          depth maxDist prevEx idxs SymbolicExecution.empty
      else
        return false

/-- `foundAlongCfg`, observed. -/
def foundAlongCfg
    (curEx : SymbolicExecution)
    (newBranches : OrderedSet BranchId)
    (b_idx dist : Nat) : Observed Observation Bool := do
  let path := curEx.path.branches
  let minDist ← lift (require (minCflDistance path newBranches b_idx))
  if ← lift (require (findAlongCfg path newBranches dist b_idx)) then
    lift (SearchRun.assert (decide (minDist ≤ dist)))
    return true
  else
    lift (SearchRun.assert (decide (minDist > dist)))
    note fun _ => .nonzero dist
    lift (SearchRun.assert (decide (dist ≠ 0)))
    return false

/-- `afterFlip`, observed. -/
def afterFlip
    (fuel : Nat)
    (prevEx curEx : SymbolicExecution)
    (idx : Nat)
    (score : Int) : Observed Observation Bool := do
  let b_idx ← lift (require prevEx.path.constraintsIdx[idx]?)
  let bid ← lift (SearchStrategies.pairedAt env prevEx idx)
  let (found, newBranches) ← updateCoverage env curEx
  let predicted ← lift (checkPrediction env prevEx curEx b_idx)
  if found ∧ ¬predicted then
    lift (SearchStrategies.succeed curEx)
    return true
  else if ¬found ∧ ¬predicted then
    return false
  else
    let dist ← lift (SearchStrategies.distanceOf bid)
    let along ← both found (foundAlongCfg curEx newBranches b_idx dist)
    if along then
      lift (SearchStrategies.succeed curEx)
      return true
    else
      let start := (toUnsigned 32 (score - 1)).toNat
      let further ← both (decide (dist > 0))
        (solveAlongCfg env found start fuel 0 b_idx start curEx)
      if further then
        return true
      else if found then
        lift (SearchStrategies.succeed curEx)
        return true
      else
        return false

/-- `heuristicSolve`, observed. -/
def heuristicSolve
    (fuel : Nat)
    (maxDist : Int)
    (prevEx : SymbolicExecution) :
    List (Nat × Int) → Nat → SymbolicExecution → Observed Observation Bool
  | [], _, _ => return false
  | (idx, score) :: rest, iters, curEx => do
      note fun world => .iteration world
      if iters = 0 ∨ score > maxDist then
        return false
      else
        match ← lift (solveAtBranch env prevEx idx) with
        | none => heuristicSolve fuel maxDist prevEx rest iters curEx
        | some input =>
            let curEx ← lift (runProgram env input curEx)
            if ← afterFlip env fuel prevEx curEx idx score then
              return true
            else
              heuristicSolve fuel maxDist prevEx rest (iters - 1) curEx

/-- `heuristicDoSearch`, observed. -/
def heuristicDoSearch
    (fuel : Nat)
    (prevEx : SymbolicExecution) : Observed Observation Bool := do
  if prevEx.path.constraints.length = 0 then
    return false
  else
    let scored ←
      lift
        (SearchStrategies.scoredBranches env SearchStrategies.heuristicScore
          prevEx 0)
    heuristicSolve env fuel kInfiniteDistance prevEx scored 30
      SymbolicExecution.empty

/-- `searchOn`, observed. -/
def searchOn
    (doSearch : SymbolicExecution → Observed Observation Bool)
    (afterSuccess : Run Unit)
    (fuel : Nat)
    (ex : SymbolicExecution) : Observed Observation SymbolicExecution := do
  let result ← loop
    (fun ex => do
      if ← doSearch ex then
        lift afterSuccess
        let world ← lift get
        lift (modify fun world =>
          { world with successEx := world.successEx.swap ex })
        return .again (ex.swap world.successEx)
      else
        return .done ex)
    fuel ex
  match result with
  | .again _ => throw .outOfFuel
  | .done ex => return ex

/-- One restart of `cfgHeuristic`, observed. -/
def heuristicRound
    (fuel : Nat)
    (ex : SymbolicExecution) : Observed Observation SymbolicExecution := do
  lift SearchStrategies.clearIndices
  lift (modify fun world =>
    { world with coverage := world.coverage.restart })
  let ex ← lift (runProgram env [] ex)
  let (found, _) ← updateCoverage env ex
  if found then
    lift (SearchStrategies.updateDistances env)
  searchOn (heuristicDoSearch env fuel)
    (SearchStrategies.updateDistances env) fuel ex

/-- `cfgHeuristic`, observed. -/
def cfgHeuristic (fuel : Nat) : Observed Observation Unit :=
  forever fuel (heuristicRound env fuel) SymbolicExecution.empty

end Programs

section Erasure

variable {env : Environment}

theorem erases_both
    {first : Bool}
    {observed : Observed Observation Bool}
    {second : Run Bool}
    (erases : Erases observed second) :
    Erases (both first observed) (SearchStrategies.both first second) := by
  cases first with
  | false =>
      exact Erases.pure
  | true =>
      exact erases

theorem erases_updateCoverage (ex : SymbolicExecution) :
    Erases (updateCoverage env ex) (SearchRun.updateCoverage env ex) :=
  Erases.note (Erases.lift _)

theorem erases_solveEachAlongCfg
    {observed :
      Nat → Nat → Nat → SymbolicExecution → Observed Observation Bool}
    {recurse : Nat → Nat → SymbolicExecution → Run Bool}
    (recursion :
      ∀ depth i maxDist ex,
        Erases (observed depth i maxDist ex) (recurse i maxDist ex))
    (lucky : Bool)
    (start depth maxDist : Nat)
    (prevEx : SymbolicExecution)
    (idxs : List Nat)
    (curEx : SymbolicExecution) :
    Erases
      (solveEachAlongCfg env observed lucky start depth maxDist prevEx idxs
        curEx)
      (SearchStrategies.solveEachAlongCfg env recurse maxDist prevEx idxs
        curEx) := by
  induction idxs generalizing curEx with
  | nil =>
      exact Erases.pure
  | cons j rest inductionHypothesis =>
      refine Erases.note ?_
      refine Erases.bind (Erases.lift _) ?_
      rintro ⟨own, paired⟩
      refine Erases.bind
        (erases_both (Erases.note (recursion _ j _ prevEx))) fun along => ?_
      dsimp only
      split
      · exact Erases.pure
      · split
        · refine Erases.bind (Erases.lift _) fun solved => ?_
          cases solved with
          | none =>
              exact inductionHypothesis curEx
          | some input =>
              refine Erases.bind (Erases.lift _) fun newEx => ?_
              refine Erases.bind (erases_updateCoverage newEx) ?_
              rintro ⟨found, newBranches⟩
              dsimp only
              split
              · exact Erases.bind (Erases.lift _) fun _ => Erases.pure
              · refine Erases.bind (Erases.lift _) fun predicted => ?_
                split
                · refine Erases.bind (Erases.note (recursion _ j _ newEx))
                    fun further => ?_
                  split
                  · exact Erases.pure
                  · exact inductionHypothesis newEx
                · exact inductionHypothesis newEx
        · exact inductionHypothesis curEx

theorem erases_solveAlongCfg
    (lucky : Bool)
    (start fuel depth i maxDist : Nat)
    (prevEx : SymbolicExecution) :
    Erases (solveAlongCfg env lucky start fuel depth i maxDist prevEx)
      (SearchStrategies.solveAlongCfg env fuel i maxDist prevEx) := by
  induction fuel generalizing depth i maxDist prevEx with
  | zero =>
      exact Erases.throw
  | succ fuel inductionHypothesis =>
      refine Erases.bind (Erases.lift _) fun idxs => ?_
      refine Erases.bind (Erases.lift _) fun near => ?_
      split
      · refine Erases.bind (Erases.lift _) fun idxs => ?_
        exact erases_solveEachAlongCfg inductionHypothesis lucky start depth
          maxDist prevEx idxs _
      · exact Erases.pure

theorem erases_foundAlongCfg
    (curEx : SymbolicExecution)
    (newBranches : OrderedSet BranchId)
    (b_idx dist : Nat) :
    Erases (foundAlongCfg curEx newBranches b_idx dist)
      (SearchStrategies.foundAlongCfg curEx newBranches b_idx dist) := by
  refine Erases.bind (Erases.lift _) fun minDist => ?_
  refine Erases.bind (Erases.lift _) fun found => ?_
  split
  · exact Erases.bind (Erases.lift _) fun _ => Erases.pure
  · refine Erases.bind (Erases.lift _) fun _ => ?_
    refine Erases.note ?_
    exact Erases.bind (Erases.lift _) fun _ => Erases.pure

theorem erases_afterFlip
    (fuel : Nat)
    (prevEx curEx : SymbolicExecution)
    (idx : Nat)
    (score : Int) :
    Erases (afterFlip env fuel prevEx curEx idx score)
      (SearchStrategies.afterFlip env fuel prevEx curEx idx score) := by
  refine Erases.bind (Erases.lift _) fun b_idx => ?_
  refine Erases.bind (Erases.lift _) fun bid => ?_
  refine Erases.bind (erases_updateCoverage curEx) ?_
  rintro ⟨found, newBranches⟩
  refine Erases.bind (Erases.lift _) fun predicted => ?_
  dsimp only
  split
  · exact Erases.bind (Erases.lift _) fun _ => Erases.pure
  · split
    · exact Erases.pure
    · refine Erases.bind (Erases.lift _) fun dist => ?_
      refine Erases.bind (erases_both (erases_foundAlongCfg _ _ _ _))
        fun along => ?_
      split
      · exact Erases.bind (Erases.lift _) fun _ => Erases.pure
      · refine Erases.bind
          (erases_both (erases_solveAlongCfg _ _ _ _ _ _ _))
          fun further => ?_
        split
        · exact Erases.pure
        · split
          · exact Erases.bind (Erases.lift _) fun _ => Erases.pure
          · exact Erases.pure

theorem erases_heuristicSolve
    (fuel : Nat)
    (maxDist : Int)
    (prevEx : SymbolicExecution)
    (scored : List (Nat × Int))
    (iters : Nat)
    (curEx : SymbolicExecution) :
    Erases (heuristicSolve env fuel maxDist prevEx scored iters curEx)
      (SearchStrategies.heuristicSolve env fuel maxDist prevEx scored iters
        curEx) := by
  induction scored generalizing iters curEx with
  | nil =>
      exact Erases.pure
  | cons entry rest inductionHypothesis =>
      unfold SearchStrategies.heuristicSolve
      refine Erases.note ?_
      split
      · exact Erases.pure
      · refine Erases.bind (Erases.lift _) fun solved => ?_
        cases solved with
        | none =>
            exact inductionHypothesis iters curEx
        | some input =>
            refine Erases.bind (Erases.lift _) fun newEx => ?_
            refine Erases.bind (erases_afterFlip fuel prevEx newEx _ _)
              fun succeeded => ?_
            split
            · exact Erases.pure
            · exact inductionHypothesis (iters - 1) newEx

theorem erases_heuristicDoSearch
    (fuel : Nat)
    (prevEx : SymbolicExecution) :
    Erases (heuristicDoSearch env fuel prevEx)
      (SearchStrategies.heuristicDoSearch env fuel prevEx) := by
  unfold heuristicDoSearch SearchStrategies.heuristicDoSearch
  split
  · exact Erases.pure
  · refine Erases.bind (Erases.lift _) fun scored => ?_
    exact erases_heuristicSolve fuel _ prevEx scored 30 _

theorem erases_searchOn
    {observed : SymbolicExecution → Observed Observation Bool}
    {doSearch : SymbolicExecution → Run Bool}
    (searches : ∀ ex, Erases (observed ex) (doSearch ex))
    (afterSuccess : Run Unit)
    (fuel : Nat)
    (ex : SymbolicExecution) :
    Erases (searchOn observed afterSuccess fuel ex)
      (SearchStrategies.searchOn doSearch afterSuccess fuel ex) := by
  refine Erases.bind (Erases.loop ?_ fuel ex) fun result => ?_
  · intro ex
    refine Erases.bind (searches ex) fun succeeded => ?_
    split
    · refine Erases.bind (Erases.lift _) fun _ => ?_
      refine Erases.bind (Erases.lift _) fun world => ?_
      exact Erases.bind (Erases.lift _) fun _ => Erases.pure
    · exact Erases.pure
  · cases result with
    | again locals =>
        exact Erases.throw
    | done ex =>
        exact Erases.pure

/-- The observed search is the search. -/
theorem erases_cfgHeuristic (fuel : Nat) :
    Erases (cfgHeuristic env fuel) (SearchStrategies.cfgHeuristic env fuel) := by
  refine erases_forever ?_ fuel _
  intro ex
  refine Erases.bind (Erases.lift _) fun _ => ?_
  refine Erases.bind (Erases.lift _) fun _ => ?_
  refine Erases.bind (Erases.lift _) fun ex => ?_
  refine Erases.bind (erases_updateCoverage ex) ?_
  rintro ⟨found, newBranches⟩
  dsimp only
  split
  · refine Erases.bind (Erases.lift _) fun _ => ?_
    exact erases_searchOn (erases_heuristicDoSearch fuel) _ fuel ex
  · exact erases_searchOn (erases_heuristicDoSearch fuel) _ fuel ex

end Erasure

/-- What is observed of a run, latest first. -/
def observations
    (env : Environment)
    (fuel : Nat)
    (world : World) : List Observation :=
  ((cfgHeuristic env fuel).run.run (world, [])).2.2

section Stopping

variable
  {env : Environment}
  {fuel : Nat}
  {oldEx ex : SymbolicExecution}
  {world launched noticed updated scoring : World}
  {newBranches : OrderedSet BranchId}
  {scored : List (Nat × Int)}
  {log : List Observation}
  {stop : Stop}
  {final : World × List Observation}

/-- A search that starts again. -/
def restarted (world : World) : World :=
  { world with
    search :=
      { world.search with
        rankIndices := []
        worldSizeIndices := [] }
    coverage := world.coverage.restart }

/-- If the first solve loop of a round stops, so does the round. -/
theorem stops_heuristicRound
    (launches :
      Yields (runProgram env [] oldEx) (restarted world) ex launched)
    (notices :
      Yields (SearchRun.updateCoverage env ex) launched (true, newBranches)
        noticed)
    (updates :
      Yields (SearchStrategies.updateDistances env) noticed () updated)
    (hasConstraints : ex.path.constraints.length ≠ 0)
    (scores :
      Yields
        (SearchStrategies.scoredBranches env SearchStrategies.heuristicScore
          ex 0)
        updated scored scoring)
    (solves :
      Stops
        (heuristicSolve env (fuel + 1) kInfiniteDistance ex scored 30
          SymbolicExecution.empty)
        (scoring, .update launched ex :: log) stop final) :
    Stops (heuristicRound env (fuel + 1) oldEx) (world, log) stop final := by
  have searches :
      Stops (heuristicDoSearch env (fuel + 1) ex)
        (updated, .update launched ex :: log) stop final := by
    rw [heuristicDoSearch, if_neg hasConstraints]
    exact Yields.thenStops (scores.lift _) solves
  refine Yields.thenStops (Yields.lift rfl log) ?_
  refine Yields.thenStops (Yields.lift rfl log) ?_
  refine Yields.thenStops (launches.lift log) ?_
  refine Yields.thenStops (Yields.bind rfl (notices.lift _)) ?_
  refine Yields.thenStops (updates.lift _) ?_
  exact ((searches.bind _).bind _).bind _

end Stopping

end ObservedCfgSearch

end Compi
