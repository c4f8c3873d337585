import Compi.BranchCoverage

/-!
# Distances along the control-flow graph

The heuristic search measures how far a branch is from uncovered branches in
the graph of branches, and looks for new branches that closely follow a
position of a recorded path.  Calls and returns bracket the path.
-/

namespace Compi

namespace CfgDistance

open BranchTables

/-- `kInfiniteDistance`. -/
def kInfiniteDistance : Nat :=
  10000

/-- `numeric_limits<size_t>::max()`. -/
def sizeMax : Nat :=
  2 ^ 64 - 1

/--
`SkipUntilReturn` from a position; there is no result if an assertion fails or
the fuel runs out.
-/
def skipUntilReturn (path : List BranchId) : Nat → Nat → Option Nat
  | 0, _ => none
  | fuel + 1, pos =>
      match path[pos]? with
      | none => some pos
      | some bid =>
          if bid = kReturnId then
            some pos
          else if bid = kCallId then do
            let pos ← skipUntilReturn path fuel (pos + 1)
            match path[pos]? with
            | none => some pos
            | some closing =>
                if closing = kReturnId then
                  skipUntilReturn path fuel (pos + 1)
                else
                  none
          else
            skipUntilReturn path fuel (pos + 1)

/--
`CollectNextBranches` from a position: the position after them, and the
collected positions.
-/
def collectNextBranches (path : List BranchId) :
    Nat → Nat → List Nat → Option (Nat × List Nat)
  | 0, _, _ => none
  | fuel + 1, pos, idxs =>
      match path[pos]? with
      | none => some (pos, idxs)
      | some bid =>
          if bid = kCallId then do
            let (pos, idxs) ← collectNextBranches path fuel (pos + 1) idxs
            let pos ← skipUntilReturn path (path.length + 1) pos
            match path[pos]? with
            | none => some (pos, idxs)
            | some closing =>
                if closing = kReturnId then
                  collectNextBranches path fuel (pos + 1) idxs
                else
                  none
          else if 0 ≤ bid then
            some (pos + 1, idxs ++ [pos])
          else
            some (pos, idxs)

/-- The positions of the branches that immediately follow a position. -/
def nextBranches (path : List BranchId) (i : Nat) : Option (List Nat) :=
  (collectNextBranches path (path.length + 1) (i + 1) []).map Prod.snd

/-- `FindAlongCfg`, with the distance first. -/
def findAlongCfg
    (path : List BranchId)
    (newBranches : OrderedSet BranchId) : Nat → Nat → Option Bool
  | 0, i =>
      match path[i]? with
      | none => some false
      | some bid => some (decide (bid ∈ newBranches))
  | dist + 1, i =>
      match path[i]? with
      | none => some false
      | some bid =>
          if bid ∈ newBranches then
            some true
          else do
            let idxs ← nextBranches path i
            idxs.anyM (findAlongCfg path newBranches dist)

/-- The loop of `MinCflDistance`; a bad branch id ends the program. -/
def minCflDistanceFrom
    (newBranches : OrderedSet BranchId) :
    List BranchId → List Nat → Nat → Nat → Option Nat
  | [], _, minDist, _ => some minDist
  | bid :: rest, stack, minDist, curDist =>
      let minDist :=
        if bid ∈ newBranches then min minDist curDist else minDist
      if 0 ≤ bid then
        minCflDistanceFrom newBranches rest stack minDist (curDist + 1)
      else if bid = kCallId then
        minCflDistanceFrom newBranches rest (curDist :: stack) minDist curDist
      else if bid = kReturnId then
        match stack with
        | [] => some minDist
        | saved :: stack =>
            minCflDistanceFrom newBranches rest stack minDist saved
      else
        none

/-- `MinCflDistance`. -/
def minCflDistance
    (path : List BranchId)
    (newBranches : OrderedSet BranchId)
    (i : Nat) : Option Nat :=
  match path[i]? with
  | none => some sizeMax
  | some bid =>
      if bid ∈ newBranches then
        some 0
      else
        minCflDistanceFrom newBranches (path.drop (i + 1)) [] sizeMax 1

/-- Lower the distance of a branch, and queue it if it was larger. -/
def relax
    (distance : Nat)
    (state : List Nat × List BranchId)
    (bid : BranchId) : Option (List Nat × List BranchId) := do
  let (dist, queue) := state
  let current ← lookup? dist bid
  if distance < current then
    return (update dist bid distance, queue ++ [bid])
  else
    return state

/-- The loop of `UpdateBranchDistances`. -/
def relaxAll
    (cfgRev : List (List BranchId)) :
    Nat → List Nat × List BranchId → Option (List Nat)
  | 0, _ => none
  | _ + 1, (dist, []) => some dist
  | fuel + 1, (dist, bid :: queue) => do
      let distance ← lookup? dist bid
      let predecessors ← lookup? cfgRev bid
      let state ← predecessors.foldlM (relax (distance + 1)) (dist, queue)
      relaxAll cfgRev fuel state

/-- The distances before the loop, and the uncovered branches. -/
def resetDistances
    (covered : List Bool)
    (branches : List BranchId)
    (dist : List Nat) : Option (List Nat × List BranchId) :=
  branches.foldlM (fun (dist, queue) bid => do
    if ← lookup? covered bid then
      return (update dist bid kInfiniteDistance, queue)
    else
      return (update dist bid 0, queue ++ [bid])) (dist, [])

/--
`UpdateBranchDistances`.  Each entry of the queue after the first ones has
lowered a distance, so the fuel is enough.
-/
def updateBranchDistances
    (cfgRev : List (List BranchId))
    (covered : List Bool)
    (branches : List BranchId)
    (dist : List Nat) : Option (List Nat) := do
  let state ← resetDistances covered branches dist
  relaxAll cfgRev (kInfiniteDistance * dist.length + branches.length + 1)
    state

end CfgDistance

end Compi
