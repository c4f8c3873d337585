import Compi.SearchRun

/-!
# The search strategies

The strategies differ in which constraints they solve at, when they restart on
an empty input, and what they do when a prediction fails.  Loops that the
source never leaves take a bound on the number of rounds.
-/

namespace Compi

namespace SearchStrategies

open SearchRun StoppableRun BranchTables CfgDistance

variable (env : Environment)

/-- Repeat forever; only the bound on the number of rounds ends it. -/
def forever
    {Locals : Type}
    (fuel : Nat)
    (body : Locals → Run Locals)
    (locals : Locals) : Run Unit := do
  let next ← loop
    (fun locals => do
      let locals ← body locals
      return (Next.again locals : Next Locals Unit))
    fuel locals
  match next with
  | .again _ => throw .outOfFuel
  | .done result => return result

section BoundedDepthFirstSearch

/--
The loop of `DFS` over the constraints from a position on, at a positive
depth.  After a success it goes on with one depth less, as the recursive call
does.
-/
def dfsLoop
    (shallower :
      Nat → SymbolicExecution → SymbolicExecution → Run Unit)
    (prevEx : SymbolicExecution) :
    Nat → Nat → SymbolicExecution → Run Unit
  | 0, _, _ => return ()
  | remaining + 1, i, curEx => do
      match ← solveAtBranch env prevEx i with
      | none => dfsLoop shallower prevEx remaining (i + 1) curEx
      | some input =>
          let curEx ← runProgram env input curEx
          let _ ← updateCoverage env curEx
          let branchIdx ← require prevEx.path.constraintsIdx[i]?
          if ← checkPrediction env prevEx curEx branchIdx then
            shallower (i + 1) curEx SymbolicExecution.empty
            shallower (i + 1) prevEx curEx
          else
            dfsLoop shallower prevEx remaining (i + 1) curEx

/-- `DFS`, with the depth first; the last argument is its `cur_ex`. -/
def dfs : Nat → Nat → SymbolicExecution → SymbolicExecution → Run Unit
  | 0, _, _, _ => return ()
  | depth + 1, pos, prevEx, curEx =>
      dfsLoop env (dfs depth) prevEx
        (prevEx.path.constraints.length - pos) pos curEx

/-- `BoundedDepthFirstSearch::Run`. -/
def boundedDepthFirst (maxDepth : Int) (fuel : Nat) : Run Unit := do
  let ex ← runProgram env [] SymbolicExecution.empty
  let _ ← updateCoverage env ex
  forever fuel
    (fun ex => do
      dfs env maxDepth.toNat 0 ex SymbolicExecution.empty
      return ex)
    ex

end BoundedDepthFirstSearch

section RandomInputSearch

/-- A random 64-bit value. -/
def randomBits : Run Nat :=
  (List.range 8).foldlM (fun val _ => do
    let r ← rand env
    return (val * 256 + r / 256) % 2 ^ 64) 0

/-- `RandomInput`; the size of the vector is the number of variables. -/
def randomInput
    (worldSizeIndex : Nat)
    (vars : OrderedMap Var CType)
    (input : List Value) : Run (List Value) :=
  vars.toList.foldlM (fun input (v, type) => do
    let val ← randomBits env
    if v < input.length then
      if v = worldSizeIndex then
        return input.set v ((val % 10 : Nat) : Int)
      else
        return input.set v (toSigned 64 (castTo (val : Int) type))
    else
      throw .undefinedBehaviour)
    ((input ++ List.replicate vars.size 0).take vars.size)

/-- `RandomInputSearch::Run`. -/
def randomInputSearch (fuel : Nat) : Run Unit := do
  let ex ← runProgram env [] SymbolicExecution.empty
  forever fuel
    (fun (ex, worldSizeIndex, input) => do
      let _ ← updateCoverage env ex
      let worldSizeIndex :=
        match ex.worldSizeIndices with
        | [] => worldSizeIndex
        | index :: _ => Search.position index
      let input ← randomInput env worldSizeIndex ex.vars input
      let ex ← runProgram env input ex
      return (ex, worldSizeIndex, input))
    (ex, 2 ^ 64 - 1, [])

end RandomInputSearch

section RandomSearch

/-- `SolveRandomBranch`: the input and the index of the constraint. -/
def solveRandomBranch
    (ex : SymbolicExecution) : Run (Option (List Value × Nat)) := do
  let result ← loop
    (fun idxs => do
      match ← takeRandom env idxs with
      | none => return .done none
      | some (i, idxs) =>
          match ← solveAtBranch env ex i with
          | some input => return .done (some (input, i))
          | none => return .again idxs)
    1000 (List.range ex.path.constraints.length)
  match result with
  | .again _ => return none
  | .done result => return result

/-- One round of the inner loop of `RandomSearch::Run`. -/
def randomRound
    (count : Nat)
    (ex nextEx : SymbolicExecution) :
    Run (Nat × SymbolicExecution × SymbolicExecution) := do
  match ← solveRandomBranch env ex with
  | none => return (count, ex, nextEx)
  | some (input, idx) =>
      let nextEx ← runProgram env input nextEx
      let (found, _) ← updateCoverage env nextEx
      let branchIdx ← require ex.path.constraintsIdx[idx]?
      let predicted ← checkPrediction env ex nextEx branchIdx
      if found then
        return (0, ex.swap nextEx, nextEx.swap ex)
      else if predicted then
        return (count, ex.swap nextEx, nextEx.swap ex)
      else
        return (count, ex, nextEx)

/-- `RandomSearch::Run`. -/
def randomSearch (fuel : Nat) : Run Unit :=
  forever fuel
    (fun (ex, nextEx) => do
      let ex ← runProgram env [] ex
      let _ ← updateCoverage env ex
      let result ← loop
        (fun (count, ex, nextEx) => do
          if count < 10000 then
            let next ← randomRound env (count + 1) ex nextEx
            return .again next
          else
            return .done (ex, nextEx))
        fuel (0, ex, nextEx)
      match result with
      | .again _ => throw .outOfFuel
      | .done next => return next)
    (SymbolicExecution.empty, SymbolicExecution.empty)

end RandomSearch

section UniformRandomSearch

/-- `DoUniformRandomPath`. -/
def doUniformRandomPath
    (maxDepth fuel : Nat)
    (prevEx curEx : SymbolicExecution) :
    Run (SymbolicExecution × SymbolicExecution) := do
  let result ← loop
    (fun (i, depth, prevEx, curEx) => do
      if i < prevEx.path.constraints.length ∧ depth < maxDepth then
        match ← solveAtBranch env prevEx i with
        | none => return .again (i + 1, depth, prevEx, curEx)
        | some input =>
            let r ← rand env
            if r % 2 = 0 then
              let curEx ← runProgram env input curEx
              let _ ← updateCoverage env curEx
              let branchIdx ← require prevEx.path.constraintsIdx[i]?
              if ← checkPrediction env prevEx curEx branchIdx then
                return .again
                  (i + 1, depth + 1, prevEx.swap curEx, curEx.swap prevEx)
              else
                return .again (i + 1, depth, prevEx, curEx)
            else
              return .again (i + 1, depth + 1, prevEx, curEx)
      else
        return .done (prevEx, curEx))
    fuel (0, 0, prevEx, curEx)
  match result with
  | .again _ => throw .outOfFuel
  | .done next => return next

/-- `UniformRandomSearch::Run`. -/
def uniformRandom (maxDepth fuel : Nat) : Run Unit := do
  let prevEx ← runProgram env [] SymbolicExecution.empty
  let _ ← updateCoverage env prevEx
  forever fuel
    (fun (prevEx, curEx) =>
      doUniformRandomPath env maxDepth fuel prevEx curEx)
    (prevEx, SymbolicExecution.empty)

end UniformRandomSearch

section HybridSearch

/-- `RandomStep`: whether a flip was confirmed, and the new `*ex`. -/
def randomStep
    (ex : SymbolicExecution)
    (start finish : Nat) : Run (Bool × SymbolicExecution) := do
  let finish := min finish ex.path.constraints.length
  assert (decide (start < finish))
  let result ← loop
    (fun (idxs, nextEx) => do
      match ← takeRandom env idxs with
      | none => return .done (false, ex)
      | some (i, idxs) =>
          match ← solveAtBranch env ex i with
          | none => return .again (idxs, nextEx)
          | some input =>
              let nextEx ← runProgram env input nextEx
              let _ ← updateCoverage env nextEx
              let branchIdx ← require ex.path.constraintsIdx[i]?
              if ← checkPrediction env ex nextEx branchIdx then
                return .done (true, ex.swap nextEx)
              else
                return .again (idxs, nextEx))
    1000
    ((List.range (finish - start)).map (start + ·), SymbolicExecution.empty)
  match result with
  | .again _ => return (false, ex)
  | .done result => return result

/-- `RandomLocalSearch`; the result is the new `*ex`. -/
def randomLocalSearch
    (ex : SymbolicExecution)
    (start finish : Nat) : Run SymbolicExecution := do
  let result ← loop
    (fun ex => do
      let (stepped, ex) ← randomStep env ex start finish
      if stepped then
        return .again ex
      else
        return .done ex)
    100 ex
  match result with
  | .again ex => return ex
  | .done ex => return ex

/-- `HybridSearch::Run`. -/
def hybrid (stepSize fuel : Nat) : Run Unit :=
  forever fuel
    (fun ex => do
      let ex ← runProgram env [] ex
      let _ ← updateCoverage env ex
      let result ← loop
        (fun (pos, ex) => do
          if pos < ex.path.constraints.length then
            let ex ← randomLocalSearch env ex pos (pos + stepSize)
            return .again (pos + stepSize, ex)
          else
            return .done ex)
        fuel (0, ex)
      match result with
      | .again _ => throw .outOfFuel
      | .done ex => return ex)
    SymbolicExecution.empty

end HybridSearch

section Cfg

/-- Clear the MPI index lists that are used at launching time. -/
def clearIndices : Run Unit :=
  modify fun world =>
    { world with
      search :=
        { world.search with
          rankIndices := []
          worldSizeIndices := [] } }

/-- The paired branch of the branch at a constraint. -/
def pairedAt (ex : SymbolicExecution) (idx : Nat) : Run BranchId := do
  let branchIdx ← require ex.path.constraintsIdx[idx]?
  let bid ← require ex.path.branches[branchIdx]?
  require (lookup? env.tables.pairedBranch bid)

/-- The shuffled constraints from a position on, by increasing score. -/
def scoredBranches
    (score : BranchId → Int → Run Int)
    (ex : SymbolicExecution)
    (pos : Nat) : Run (List (Nat × Int)) := do
  let shuffled ←
    randomShuffle env
      ((List.range (ex.path.constraints.length - pos)).map (· + pos))
  let (scored, _) ← shuffled.foldlM
    (fun (scored, seen) idx => do
      let bid ← pairedAt env ex idx
      let times := (seen : OrderedMap BranchId Int).getD bid 0
      let second ← score bid times
      return (scored ++ [(idx, second)], seen.insert bid (times + 1)))
    (([] : List (Nat × Int)), (∅ : OrderedMap BranchId Int))
  return scored.mergeSort fun a b => decide (a.2 ≤ b.2)

/-- `success_ex_.Swap(cur_ex)`; the old `cur_ex` is not used afterwards. -/
def succeed (curEx : SymbolicExecution) : Run Unit :=
  modify fun world =>
    { world with successEx := world.successEx.swap curEx }

/-- `CfgBaselineSearch::DoSearch`; its `depth` is not used. -/
def baselineDoSearch
    (prevEx : SymbolicExecution) : List (Nat × Int) → Nat →
    SymbolicExecution → Run Bool
  | [], _, _ => return false
  | (idx, _) :: rest, iters, curEx => do
      if iters = 0 then
        return false
      else
        match ← solveAtBranch env prevEx idx with
        | none => baselineDoSearch prevEx rest iters curEx
        | some input =>
            let curEx ← runProgram env input curEx
            let (found, _) ← updateCoverage env curEx
            if found then
              succeed curEx
              return true
            else
              baselineDoSearch prevEx rest (iters - 1) curEx

/-- The score of a branch in `CfgBaselineSearch`. -/
def baselineScore (bid : BranchId) (times : Int) : Run Int := do
  let world ← get
  let covered ← require (lookup? world.coverage.covered bid)
  return if covered then 100000000 + times else times

/-- Search as long as new branches are found, from one execution on. -/
def searchOn
    (doSearch : SymbolicExecution → Run Bool)
    (afterSuccess : Run Unit)
    (fuel : Nat)
    (ex : SymbolicExecution) : Run SymbolicExecution := do
  let result ← loop
    (fun ex => do
      if ← doSearch ex then
        afterSuccess
        let world ← get
        modify fun world =>
          { world with successEx := world.successEx.swap ex }
        return .again (ex.swap world.successEx)
      else
        return .done ex)
    fuel ex
  match result with
  | .again _ => throw .outOfFuel
  | .done ex => return ex

/-- `CfgBaselineSearch::Run`. -/
def cfgBaseline (fuel : Nat) : Run Unit :=
  forever fuel
    (fun ex => do
      clearIndices
      let ex ← runProgram env [] ex
      let _ ← updateCoverage env ex
      searchOn
        (fun ex => do
          let scored ← scoredBranches env baselineScore ex 0
          baselineDoSearch env ex scored 250 SymbolicExecution.empty)
        (return ()) fuel ex)
    SymbolicExecution.empty

/-- `UpdateBranchDistances`. -/
def updateDistances : Run Unit := do
  let world ← get
  let dist ←
    require
      (updateBranchDistances env.cfgRev world.coverage.covered
        env.tables.branches world.dist)
  modify fun world => { world with dist := dist }

/-- The distance of a branch. -/
def distanceOf (bid : BranchId) : Run Nat := do
  let world ← get
  require (lookup? world.dist bid)

/-- One less than an `unsigned` value. -/
def predUnsigned (value : Nat) : Nat :=
  (value + 2 ^ 32 - 1) % 2 ^ 32

/-- Whether a branch at a position or its paired branch is near enough. -/
def nearEnough
    (path : List BranchId)
    (maxDist : Nat)
    (j : Nat) : Run (Bool × Bool) := do
  let bid ← require path[j]?
  let own ← distanceOf bid
  let paired ← require (lookup? env.tables.pairedBranch bid)
  let other ← distanceOf paired
  return (decide (own ≤ maxDist), decide (other ≤ maxDist))

/-- `&&`: the second operand runs only if the first is true. -/
def both (first : Bool) (second : Run Bool) : Run Bool :=
  if first then second else return false

/-- The loop of `SolveAlongCfg` over the shuffled positions. -/
def solveEachAlongCfg
    (recurse : Nat → Nat → SymbolicExecution → Run Bool)
    (maxDist : Nat)
    (prevEx : SymbolicExecution) :
    List Nat → SymbolicExecution → Run Bool
  | [], _ => return false
  | j :: rest, curEx => do
      let (own, paired) ← nearEnough env prevEx.path.branches maxDist j
      let along ← both own (recurse j (predUnsigned maxDist) prevEx)
      let c_idx := (prevEx.path.constraintsIdx.takeWhile (· < j)).length
      if along then
        return true
      else if prevEx.path.constraintsIdx[c_idx]? = some j ∧ paired then
        match ← solveAtBranch env prevEx c_idx with
        | none => solveEachAlongCfg recurse maxDist prevEx rest curEx
        | some input =>
            let curEx ← runProgram env input curEx
            let (found, _) ← updateCoverage env curEx
            if found then
              succeed curEx
              return true
            else if ← checkPrediction env prevEx curEx j then
              if ← recurse j (predUnsigned maxDist) curEx then
                return true
              else
                solveEachAlongCfg recurse maxDist prevEx rest curEx
            else
              solveEachAlongCfg recurse maxDist prevEx rest curEx
      else
        solveEachAlongCfg recurse maxDist prevEx rest curEx

/-- `SolveAlongCfg`, with a bound on the depth of the recursion. -/
def solveAlongCfg : Nat → Nat → Nat → SymbolicExecution → Run Bool
  | 0, _, _, _ => throw .outOfFuel
  | fuel + 1, i, maxDist, prevEx => do
      let path := prevEx.path.branches
      let idxs ← require (nextBranches path i)
      let near ← idxs.mapM (nearEnough env path maxDist)
      if near.any (fun (own, paired) => own || paired) then
        let idxs ← randomShuffle env idxs
        solveEachAlongCfg env (solveAlongCfg fuel) maxDist prevEx idxs
          SymbolicExecution.empty
      else
        return false

/-- The score of a branch in `CfgHeuristicSearch`. -/
def heuristicScore (bid : BranchId) (times : Int) : Run Int := do
  let dist ← distanceOf bid
  return dist + times

/-- Whether a new branch is found along the graph, with the assertions. -/
def foundAlongCfg
    (curEx : SymbolicExecution)
    (newBranches : OrderedSet BranchId)
    (b_idx dist : Nat) : Run Bool := do
  let path := curEx.path.branches
  let minDist ← require (minCflDistance path newBranches b_idx)
  if ← require (findAlongCfg path newBranches dist b_idx) then
    SearchRun.assert (decide (minDist ≤ dist))
    return true
  else
    SearchRun.assert (decide (minDist > dist))
    SearchRun.assert (decide (dist ≠ 0))
    return false

/--
What `CfgHeuristicSearch::DoSearch` does with a new execution: whether it is
the success that ends the loop.
-/
def afterFlip
    (fuel : Nat)
    (prevEx curEx : SymbolicExecution)
    (idx : Nat)
    (score : Int) : Run Bool := do
  let b_idx ← require prevEx.path.constraintsIdx[idx]?
  let bid ← pairedAt env prevEx idx
  let (found, newBranches) ← updateCoverage env curEx
  let predicted ← checkPrediction env prevEx curEx b_idx
  if found ∧ ¬predicted then
    succeed curEx
    return true
  else if ¬found ∧ ¬predicted then
    return false
  else
    let dist ← distanceOf bid
    let along ← both found (foundAlongCfg curEx newBranches b_idx dist)
    if along then
      succeed curEx
      return true
    else
      let further ← both (decide (dist > 0))
        (solveAlongCfg env fuel b_idx (toUnsigned 32 (score - 1)).toNat curEx)
      if further then
        return true
      else if found then
        succeed curEx
        return true
      else
        return false

/-- The loop of `CfgHeuristicSearch::DoSearch`. -/
def heuristicSolve
    (fuel : Nat)
    (maxDist : Int)
    (prevEx : SymbolicExecution) : List (Nat × Int) → Nat →
    SymbolicExecution → Run Bool
  | [], _, _ => return false
  | (idx, score) :: rest, iters, curEx => do
      if iters = 0 ∨ score > maxDist then
        return false
      else
        match ← solveAtBranch env prevEx idx with
        | none => heuristicSolve fuel maxDist prevEx rest iters curEx
        | some input =>
            let curEx ← runProgram env input curEx
            if ← afterFlip env fuel prevEx curEx idx score then
              return true
            else
              heuristicSolve fuel maxDist prevEx rest (iters - 1) curEx

/-- `CfgHeuristicSearch::DoSearch`, at the depth and position it is used. -/
def heuristicDoSearch
    (fuel : Nat)
    (prevEx : SymbolicExecution) : Run Bool := do
  if prevEx.path.constraints.length = 0 then
    return false
  else
    let scored ← scoredBranches env heuristicScore prevEx 0
    heuristicSolve env fuel kInfiniteDistance prevEx scored 30
      SymbolicExecution.empty

/-- `CfgHeuristicSearch::Run`. -/
def cfgHeuristic (fuel : Nat) : Run Unit :=
  forever fuel
    (fun ex => do
      clearIndices
      modify fun world => { world with coverage := world.coverage.restart }
      let ex ← runProgram env [] ex
      let (found, _) ← updateCoverage env ex
      if found then
        updateDistances env
      searchOn (heuristicDoSearch env fuel) (updateDistances env) fuel ex)
    SymbolicExecution.empty

end Cfg

/-- The strategies with their options. -/
inductive Strategy where
  | boundedDepthFirst (maxDepth : Int)
  | random
  | randomInput
  | uniformRandom (maxDepth : Nat)
  | hybrid (stepSize : Nat)
  | cfgBaseline
  | cfgHeuristic
  deriving DecidableEq

/-- `Run` of a strategy. -/
def Strategy.run (fuel : Nat) : Strategy → Run Unit
  | boundedDepthFirst maxDepth =>
      SearchStrategies.boundedDepthFirst env maxDepth fuel
  | random => randomSearch env fuel
  | randomInput => randomInputSearch env fuel
  | uniformRandom maxDepth => SearchStrategies.uniformRandom env maxDepth fuel
  | hybrid stepSize => SearchStrategies.hybrid env stepSize fuel
  | cfgBaseline => SearchStrategies.cfgBaseline env fuel
  | cfgHeuristic => SearchStrategies.cfgHeuristic env fuel

end SearchStrategies

end Compi
