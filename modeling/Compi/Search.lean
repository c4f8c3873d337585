import Compi.YicesSolver

/-!
# The state of a search

The fields of `Search` that choose the next input and launch the program.  The
coverage tables are separate.
-/

namespace Compi

/-- `Search`, with the constraints cached by its solver. -/
structure Search where
  program : String
  rankIndices : List Id
  rankNonDefaultCommIndices : List Id
  worldSizeIndices : List Id
  numIters : Nat
  isFirstRun : Bool
  commWorldSize : Int
  targetRank : Int
  executionTag : Nat
  constraintsMPI : List SymbolicPred
  deriving DecidableEq

namespace Search

/-- The constructor. -/
def start
    (program : String)
    (commWorldSize targetRank : Int) : Search where
  program := program
  rankIndices := []
  rankNonDefaultCommIndices := []
  worldSizeIndices := []
  numIters := 0
  isFirstRun := true
  commWorldSize := commWorldSize
  targetRank := targetRank
  executionTag := 0
  constraintsMPI := []

end Search

end Compi
