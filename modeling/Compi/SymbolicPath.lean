import Mathlib.Data.List.AList
import Compi.SymbolicPredicate

/-!
# Symbolic paths

The path of an execution: the branches taken, in order, and the symbolic
constraints recorded at some of them.  Recording drops the constraint of a
branch that was last recorded with the same outcome.
-/

namespace Compi

/-- An unordered map; its entry order is the order of iteration. -/
abbrev UnorderedMap (Key Value : Type) : Type :=
  AList fun _ : Key => Value

/-- `SymbolicPath`. -/
structure SymbolicPath where
  branchesSet : List BranchId
  branches : List BranchId
  constraintsIdx : List Nat
  constraints : List SymbolicPred
  branchesHash : UnorderedMap BranchId BranchState
  deriving DecidableEq

namespace SymbolicPath

/-- A fresh path. -/
def empty : SymbolicPath where
  branchesSet := []
  branches := []
  constraintsIdx := []
  constraints := []
  branchesHash := ∅

/-- `Push(bid)`: enter a branch only in the set of reached branches. -/
def pushReached (path : SymbolicPath) (bid : BranchId) : SymbolicPath :=
  { path with branchesSet := path.branchesSet.insert bid }

/-- Whether `Push` keeps a constraint of a branch with this outcome. -/
def retains
    (path : SymbolicPath)
    (bid : BranchId)
    (state : BranchState) : Bool :=
  decide (path.branchesHash.lookup bid ≠ some state)

/-- `Push(bid, constraint, state)`. -/
def push
    (path : SymbolicPath)
    (bid : BranchId)
    (constraint : Option SymbolicPred)
    (state : BranchState) : SymbolicPath :=
  match constraint with
  | none =>
      { path with branches := path.branches ++ [bid] }
  | some pred =>
      if path.retains bid state then
        { path with
          branchesHash := path.branchesHash.insert bid state
          constraints := path.constraints ++ [pred]
          constraintsIdx := path.constraintsIdx ++ [path.branches.length]
          branches := path.branches ++ [bid] }
      else
        { path with branches := path.branches ++ [bid] }

/-- The path after `Swap` with another one. -/
def swap (path other : SymbolicPath) : SymbolicPath :=
  { path with
    branches := other.branches
    constraintsIdx := other.constraintsIdx
    constraints := other.constraints }

@[simp] theorem push_branches
    (path : SymbolicPath)
    (bid : BranchId)
    (constraint : Option SymbolicPred)
    (state : BranchState) :
    (path.push bid constraint state).branches = path.branches ++ [bid] := by
  unfold push
  split
  · rfl
  · split <;> rfl

end SymbolicPath

end Compi
