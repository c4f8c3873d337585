import Compi.SymbolicPath

/-!
# Symbolic executions

What one run of the program under test reports: the marked variables with
their types and inputs, the information about MPI variables, and the path.
-/

namespace Compi

/-- The assignment that an input vector gives to the marked variables. -/
def assignmentOf (inputs : List Value) : Var → Value :=
  fun v => inputs.getD v 0

/-- `SymbolicExecution`. -/
structure SymbolicExecution where
  limits : UnorderedMap Id Value
  rankIndices : List Id
  rankNonDefaultCommIndices : List Id
  rankNonDefaultCommMap : List (List Id)
  worldSizeIndices : List Id
  executionTag : Nat
  vars : OrderedMap Var CType
  inputs : List Value
  path : SymbolicPath
  deriving DecidableEq

namespace SymbolicExecution

/-- A fresh execution. -/
def empty : SymbolicExecution where
  limits := ∅
  rankIndices := []
  rankNonDefaultCommIndices := []
  rankNonDefaultCommMap := []
  worldSizeIndices := []
  executionTag := 0
  vars := ∅
  inputs := []
  path := SymbolicPath.empty

/-- The execution after `Swap` with another one. -/
def swap (ex other : SymbolicExecution) : SymbolicExecution :=
  { other with path := ex.path.swap other.path }

end SymbolicExecution

end Compi
