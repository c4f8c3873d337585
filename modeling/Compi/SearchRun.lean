import Compi.CfgDistance
import Compi.LaunchProgram
import Compi.SolveAtBranch
import Compi.StoppableRun

/-!
# The steps of a search

A search runs in an environment: the random numbers, the answers of the
decision procedure, and the executions that the program under test reports.
The calls of `SolveAtBranch` and `LaunchProgram` are recorded, latest first,
with what they are given.
-/

namespace Compi

/-- What a search does not decide itself. -/
structure Environment where
  maxIters : Int
  tables : BranchTables
  cfgRev : List (List BranchId)
  rand : Nat → Nat
  solve : Nat → YicesSolver.Solve
  execution : Nat → SymbolicExecution → SymbolicExecution
  branchesOfRank : Nat → Int → Option (List BranchId)

/-- A call of one of the two functions that touch the MPI index lists. -/
inductive Call where
  | solveAtBranch (ex : SymbolicExecution) (branchIdx : Nat)
  | launchProgram (search : Search) (inputs : List Value)

/-- The state of a search and of its environment. -/
structure World where
  search : Search
  coverage : Coverage
  dist : List Nat
  successEx : SymbolicExecution
  draws : Nat
  solves : Nat
  calls : List Call

/-- Why a search stops. -/
inductive Stop where
  | exit
  | assertFailed
  | undefinedBehaviour
  | outOfFuel
  deriving DecidableEq

namespace SearchRun

open StoppableRun

/-- A part of a search. -/
abbrev Run (Result : Type) : Type :=
  Program World Stop Result

variable (env : Environment)

/-- Stop unless there is a result. -/
def require {Result : Type} (result : Option Result) : Run Result :=
  match result with
  | some value => return value
  | none => throw .undefinedBehaviour

/-- `assert`. -/
def assert (holds : Bool) : Run Unit :=
  if holds then return () else throw .assertFailed

/-- `rand`. -/
def rand : Run Nat := do
  let world ← get
  modify fun world => { world with draws := world.draws + 1 }
  return env.rand world.draws

/-- `LaunchProgram`. -/
def launchProgram (inputs : List Value) : Run Unit := do
  let world ← get
  modify fun world =>
    { world with calls := .launchProgram world.search inputs :: world.calls }
  match world.search.launchProgram inputs with
  | none => throw .undefinedBehaviour
  | some (search, _) =>
      modify fun world => { world with search := search }

/-- `RunProgram`; the result is the execution object after the run. -/
def runProgram
    (inputs : List Value)
    (ex : SymbolicExecution) : Run SymbolicExecution := do
  modify fun world =>
    { world with
      search :=
        { world.search with numIters := world.search.numIters + 1 } }
  let world ← get
  if (world.search.numIters : Int) > env.maxIters then
    throw .exit
  else
    launchProgram inputs
    return env.execution world.search.numIters ex

/-- `SolveAtBranch`; the result is the input if it succeeds. -/
def solveAtBranch
    (ex : SymbolicExecution)
    (branchIdx : Nat) : Run (Option (List Value)) := do
  let world ← get
  modify fun world =>
    { world with
      solves := world.solves + 1
      calls := .solveAtBranch ex branchIdx :: world.calls }
  match world.search.solveAtBranch (env.solve world.solves) ex branchIdx with
  | none => throw .undefinedBehaviour
  | some solved =>
      modify fun world => { world with search := solved.search }
      return solved.input

/-- The branches reported by the ranks other than the focus. -/
def allOthers (search : Search) : List (List BranchId) :=
  (List.range search.commWorldSize.toNat).filterMap fun rank =>
    if (rank : Int) = search.targetRank then
      none
    else
      env.branchesOfRank search.numIters rank

/-- `UpdateCoverage`: whether a branch is new, and the new branches. -/
def updateCoverage
    (ex : SymbolicExecution) : Run (Bool × OrderedSet BranchId) := do
  let world ← get
  let (coverage, found, newBranches) ←
    require
      (world.coverage.updateCoverage env.tables ex.path.branches
        (allOthers env world.search))
  modify fun world => { world with coverage := coverage }
  return (found, newBranches)

/-- `CheckPrediction`. -/
def checkPrediction
    (oldEx newEx : SymbolicExecution)
    (branchIdx : Nat) : Run Bool :=
  require (env.tables.checkPrediction oldEx newEx branchIdx)

/-- Exchange two entries of a vector. -/
def swapAt {Entry : Type} (items : List Entry) (i j : Nat) : List Entry :=
  match items[i]?, items[j]? with
  | some first, some second => (items.set i second).set j first
  | _, _ => items

/-- `random_shuffle`. -/
def randomShuffle {Entry : Type} (items : List Entry) : Run (List Entry) :=
  (List.range items.length).foldlM (fun items i => do
    if i = 0 then
      return items
    else
      let r ← rand env
      return swapAt items i (r % (i + 1))) items

/-- Take a random entry out of a vector, and move the last one there. -/
def takeRandom
    {Entry : Type}
    (items : List Entry) : Run (Option (Entry × List Entry)) := do
  if items.length = 0 then
    return none
  else
    let r ← rand env
    let i := r % items.length
    return (items[i]?).map fun entry =>
      (entry, (swapAt items i (items.length - 1)).dropLast)

end SearchRun

end Compi
