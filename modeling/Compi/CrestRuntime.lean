import Compi.Instrumentation
import Compi.SymbolicInterpreter

/-!
# The runtime library

The functions that instrumentation inserts calls of.  Until the first input is
marked they forward calls and returns only, and a branch with a concrete load
of its outcome.  What their arguments evaluate to is given from outside.
-/

namespace Compi

open Cil

/-- The state of the runtime library. -/
structure Crest where
  si : SymbolicInterpreter
  preSymbolic : Bool
  deriving DecidableEq

/--
What is given when an inserted call is made: the values of expressions, the
values that addresses point to, and the answers of the MPI library.
-/
structure Circumstances where
  addr : Exp → Addr
  value : Exp → Value
  pointee : Exp → Value
  rank : Int
  targetRank : Int
  worldSize : Int
  focus : Int
  gathered : List Value

namespace Crest

/-- `kOpTable`. -/
def kOpTable : List Nat :=
  [0, 1, 2, 4, 4,
    4, 4, 4, 3, 4,
    4, 4,
    0, 1, 2, 3, 4, 5,
    4,
    0, 2, 1]

/-- The unary operator with a numeric code. -/
def unaryOfCode : Nat → UnaryOp
  | 0 => .negate
  | 1 => .logicalNot
  | _ => .bitwiseNot

/-- The binary operator with a numeric code. -/
def binaryOfCode : Nat → BinaryOp
  | 0 => .add
  | 1 => .subtract
  | 2 => .multiply
  | 3 => .shiftL
  | _ => .concrete

/-- From `__CREST_NEGATE` to `__CREST_L_NOT`. -/
def isUnaryCode (op : Int) : Bool :=
  decide (19 ≤ op ∧ op ≤ 21)

/-- From `__CREST_ADD` to `__CREST_CONCRETE`. -/
def isBinaryCode (op : Int) : Bool :=
  decide (0 ≤ op ∧ op ≤ 18)

/-- The event of `__CrestApply2`: other operators go to the comparison. -/
def apply2Event (op : Int) (value : Value) : SymbolicInterpreter.Event :=
  let entry := kOpTable.getD op.toNat 0
  if op ≤ 11 then
    .applyBinaryOp (binaryOfCode entry) value
  else
    .applyCompareOp (CompareOp.ofCode entry) value

/-- The event of `__CrestApply1`. -/
def apply1Event (op : Int) (value : Value) : SymbolicInterpreter.Event :=
  .applyUnaryOp (unaryOfCode (kOpTable.getD op.toNat 0)) value

variable (crest : Crest)

/-- Forward an event to the interpreter. -/
def forward (event : SymbolicInterpreter.Event) : Option Crest :=
  (crest.si.step event).map fun si => { crest with si := si }

/-- Forward an event unless no input has been marked yet. -/
def forwardTracked (event : SymbolicInterpreter.Event) : Option Crest :=
  if crest.preSymbolic then some crest else crest.forward event

/-- `__CrestBranch`. -/
def branch (bid : BranchId) (taken : Bool) : Option Crest :=
  let loaded :=
    if crest.preSymbolic then
      crest.si.load 0 (if taken then 1 else 0)
    else
      crest.si
  some { crest with si := loaded.branch bid taken }

/-- A marking call starts the tracking. -/
def mark (event : SymbolicInterpreter.Event) : Option Crest :=
  { crest with preSymbolic := false }.forward event

/-- `__CrestRankNonDefaultComm2`, if the communicator has the focus. -/
def rankNonDefaultComm2
    (here : Circumstances)
    (addr : Exp) : Crest :=
  if here.focus < 0 then
    crest
  else if crest.si.rank = crest.si.targetRank then
    let index := crest.si.numInputs - 1
    { crest with
      si :=
        { crest.si with
          ex :=
            { crest.si.ex with
              rankNonDefaultCommMap :=
                crest.si.ex.rankNonDefaultCommMap ++ [here.gathered]
              inputs := crest.si.ex.inputs.set index (here.pointee addr)
              limits :=
                crest.si.ex.limits.insert (index : Id)
                  here.gathered.length } } }
  else
    crest

/-- `__CrestGetMPIInfo`. -/
def getMPIInfo (here : Circumstances) : Crest :=
  { crest with
    si :=
      { crest.si with
        rank := here.rank
        targetRank := here.targetRank
        worldSize := here.worldSize } }

/-- The effect of an inserted call; there is none if an assertion fails. -/
def perform (here : Circumstances) : RuntimeCall → Option Crest
  | .load addr value =>
      crest.forwardTracked (.load (here.addr addr) (here.value value))
  | .store addr => crest.forwardTracked (.store (here.addr addr))
  | .clearStack => crest.forwardTracked .clearStack
  | .apply1 op value =>
      if isUnaryCode op then
        crest.forwardTracked (apply1Event op (here.value value))
      else
        none
  | .apply2 op value =>
      if isBinaryCode op then
        crest.forwardTracked (apply2Event op (here.value value))
      else
        none
  | .branch bid taken => crest.branch bid taken
  | .branchOnly bid => crest.forward (.branchOnly bid)
  | .call fid => crest.forward (.call fid)
  | .returns => crest.forward .returns
  | .handleReturn value =>
      crest.forwardTracked (.handleReturn (here.value value))
  | .rank addr => crest.mark (.newInputRank .uInt (here.addr addr))
  | .rankNonDefaultComm1 addr =>
      crest.mark (.newInputRankNonDefaultComm .uInt (here.addr addr))
  | .rankNonDefaultComm2 _ addr => some (crest.rankNonDefaultComm2 here addr)
  | .worldSizeWithLimit addr limit =>
      crest.mark (.newInputWorldSizeWithLimit .uInt (here.addr addr) limit)
  | .getMPIInfo => some (crest.getMPIInfo here)

end Crest

end Compi
