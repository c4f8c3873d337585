import Compi.SymbolicExecution
import Mathlib.Data.List.Nodup

/-!
# Branch tables and coverage

The tables that say which branches are paired and to which functions they
belong, the accounting of covered branches and reached functions, and the file
`coverage` in which a search leaves its total coverage to the next one.

The counters are of type `unsigned int`.  All but `num_covered_` count entries
of the tables, whose indices are `int`s, and cannot wrap; `num_covered_` is not
reset when the covered branches are, and does.
-/

namespace Compi

/-- The tables that a search reads from the file `branches`. -/
structure BranchTables where
  branches : List BranchId
  pairedBranch : List BranchId
  branchFunction : List Nat
  branchCount : List Nat
  deriving DecidableEq

namespace BranchTables

/-- The entry of a branch in a table; there is none outside the table. -/
def lookup?
    {Entry : Type}
    (table : List Entry)
    (bid : BranchId) : Option Entry :=
  if 0 ≤ bid then table[bid.toNat]? else none

/-- Set the entry of a branch in a table. -/
def update
    {Entry : Type}
    (table : List Entry)
    (bid : BranchId)
    (entry : Entry) : List Entry :=
  table.set bid.toNat entry

/-- The branch pairs of each function, as the file `branches` lists them. -/
abbrev File : Type :=
  List (List (BranchId × BranchId))

/-- The branches of a function in file order. -/
def idsOf (pairs : List (BranchId × BranchId)) : List BranchId :=
  pairs.flatMap fun pair => [pair.1, pair.2]

section Ids

variable
  {pairs : List (BranchId × BranchId)}
  {pair : BranchId × BranchId}

theorem idsOf_cons
    (pair : BranchId × BranchId)
    (pairs : List (BranchId × BranchId)) :
    idsOf (pair :: pairs) = pair.1 :: pair.2 :: idsOf pairs :=
  rfl

theorem idsOf_append (pairs others : List (BranchId × BranchId)) :
    idsOf (pairs ++ others) = idsOf pairs ++ idsOf others :=
  List.flatMap_append

theorem length_idsOf (pairs : List (BranchId × BranchId)) :
    (idsOf pairs).length = 2 * pairs.length := by
  induction pairs with
  | nil =>
      rfl
  | cons pair rest inductionHypothesis =>
      rw [idsOf_cons, List.length_cons, List.length_cons, inductionHypothesis,
        List.length_cons]
      omega

theorem mem_idsOf_iff {bid : BranchId} :
    bid ∈ idsOf pairs ↔ ∃ pair ∈ pairs, bid = pair.1 ∨ bid = pair.2 := by
  simp only [idsOf, List.mem_flatMap, List.mem_cons, List.not_mem_nil,
    or_false]

theorem fst_mem_idsOf (member : pair ∈ pairs) : pair.1 ∈ idsOf pairs :=
  mem_idsOf_iff.mpr ⟨pair, member, .inl rfl⟩

theorem snd_mem_idsOf (member : pair ∈ pairs) : pair.2 ∈ idsOf pairs :=
  mem_idsOf_iff.mpr ⟨pair, member, .inr rfl⟩

/-- Where all ids are distinct, those of a pair are. -/
theorem fst_ne_snd_of_nodup
    (nodup : (idsOf pairs).Nodup)
    (member : pair ∈ pairs) :
    pair.1 ≠ pair.2 := by
  have distinct := (List.nodup_flatMap.mp nodup).1 pair member
  intro same
  rw [List.nodup_cons, same] at distinct
  exact distinct.1 List.mem_cons_self

end Ids

/-- The tables that the constructor of a search builds from a file. -/
def ofFile (file : File) : BranchTables :=
  let branches := file.flatMap idsOf
  let maxBranch := (branches.foldl max 0 + 1).toNat
  { branches := branches.mergeSort (fun left right => decide (left ≤ right))
    pairedBranch :=
      file.flatten.foldl
        (fun table pair =>
          update (update table pair.1 pair.2) pair.2 pair.1)
        (List.replicate maxBranch 0)
    branchFunction :=
      (file.zipIdx 1).foldl
        (fun table entry =>
          (idsOf entry.1).foldl (fun table bid => update table bid entry.2)
            table)
        (List.replicate maxBranch 0)
    branchCount := 0 :: file.map fun pairs => 2 * pairs.length }

/--
`CheckPrediction`: the new execution follows the old one up to a position and
takes the paired branch there.
-/
def checkPrediction
    (tables : BranchTables)
    (oldEx newEx : SymbolicExecution)
    (branchIdx : Nat) : Option Bool :=
  match oldEx.path.branches[branchIdx]?, newEx.path.branches[branchIdx]? with
  | some oldBranch, some newBranch =>
      if newEx.path.branches.take branchIdx =
          oldEx.path.branches.take branchIdx then
        (lookup? tables.pairedBranch oldBranch).map fun paired =>
          decide (newBranch = paired)
      else
        some false
  | _, _ => some false

end BranchTables

/-- The coverage that a search keeps. -/
structure Coverage where
  covered : List Bool
  totalCovered : List Bool
  numCovered : Nat
  totalNumCovered : Nat
  reached : List Bool
  reachableFunctions : Nat
  reachableBranches : Nat
  deriving DecidableEq

namespace Coverage

open BranchTables

/-- Mark a function as reached. -/
def reachFunction
    (tables : BranchTables)
    (coverage : Coverage)
    (function : Nat) : Option Coverage := do
  if ← coverage.reached[function]? then
    return coverage
  else
    let count ← tables.branchCount[function]?
    return { coverage with
      reached := coverage.reached.set function true
      reachableFunctions := coverage.reachableFunctions + 1
      reachableBranches := coverage.reachableBranches + count }

/-- Mark a branch as covered, and enter it among the new branches. -/
def coverBranch
    (tables : BranchTables)
    (state : Coverage × OrderedSet BranchId)
    (bid : BranchId) : Option (Coverage × OrderedSet BranchId) := do
  let (coverage, newBranches) := state
  if ← lookup? coverage.covered bid then
    return state
  else
    let function ← lookup? tables.branchFunction bid
    let coverage ←
      { coverage with
        covered := update coverage.covered bid true
        numCovered := (coverage.numCovered + 1) % 2 ^ 32
      }.reachFunction tables function
    return (coverage, newBranches.insert bid)

/-- Mark a branch as covered in total. -/
def coverTotal
    (coverage : Coverage)
    (bid : BranchId) : Option Coverage := do
  if ← lookup? coverage.totalCovered bid then
    return coverage
  else
    return { coverage with
      totalCovered := update coverage.totalCovered bid true
      totalNumCovered := coverage.totalNumCovered + 1 }

/-- Account for one branch of a path. -/
def visitBranch
    (tables : BranchTables)
    (state : Coverage × OrderedSet BranchId)
    (bid : BranchId) : Option (Coverage × OrderedSet BranchId) := do
  if 0 < bid then
    let (coverage, newBranches) ← coverBranch tables state bid
    let coverage ← coverage.coverTotal bid
    return (coverage, newBranches)
  else
    return state

/--
`UpdateCoverage` for the branches of the focus process and of the others: the
new coverage, whether a branch is new, and the new branches.
-/
def updateCoverage
    (tables : BranchTables)
    (coverage : Coverage)
    (branches : List BranchId)
    (allOthers : List (List BranchId)) :
    Option (Coverage × Bool × OrderedSet BranchId) := do
  let state ← branches.foldlM (visitBranch tables) (coverage, ∅)
  let (updated, newBranches) ←
    allOthers.foldlM (fun state other =>
      other.foldlM (visitBranch tables) state) state
  return (updated, decide (updated.numCovered > coverage.numCovered),
    newBranches)

/-- `covered_.assign(max_branch_, false)`. -/
def restart (coverage : Coverage) : Coverage :=
  { coverage with covered := coverage.covered.map fun _ => false }

/-- The sizes that the constructor of a search gives to its vectors. -/
def uncovered (tables : BranchTables) : Coverage :=
  { covered := List.replicate tables.branchFunction.length false
    totalCovered := List.replicate tables.branchFunction.length false
    numCovered := 0
    totalNumCovered := 0
    reached := List.replicate tables.branchCount.length false
    reachableFunctions := 0
    reachableBranches := 0 }

/-- Read one branch of the file `coverage`. -/
def loadBranch
    (tables : BranchTables)
    (coverage : Coverage)
    (bid : BranchId) : Option Coverage := do
  let _ ← lookup? coverage.covered bid
  let function ← lookup? tables.branchFunction bid
  { coverage with
    covered := update coverage.covered bid true
    numCovered := (coverage.numCovered + 1) % 2 ^ 32
  }.reachFunction tables function

/-- The coverage of a new search that finds the given branches on file. -/
def load
    (tables : BranchTables)
    (file : List BranchId) : Option Coverage := do
  let coverage ← file.foldlM (loadBranch tables) (uncovered tables)
  return { coverage with
    totalNumCovered := coverage.numCovered
    totalCovered := coverage.covered }

/-- `WriteCoverageToFileOrDie`. -/
def writeCoverage
    (tables : BranchTables)
    (totalCovered : List Bool) : List BranchId :=
  tables.branches.filter fun bid => lookup? totalCovered bid == some true

end Coverage

end Compi
