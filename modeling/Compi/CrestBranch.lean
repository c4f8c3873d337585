import Compi.Instrumentation

/-!
# The light instrumenter

The instrumenter for the processes that are not under test.  It only reports
the branches that are reached and marks ranks and world sizes, and it visits
every function.
-/

namespace Compi.Cil.CrestBranch

/-- `rankMarker`. -/
def rankMarker : List Exp → Instr → List Instrumented :=
  Cil.rankMarker

/-- `worldSizeMarker`. -/
def worldSizeMarker : List Exp → List Instrumented :=
  Cil.worldSizeMarker

/-- The list that replaces a call of a function that is not skipped. -/
def changeCall
    (ret : Option Lval)
    (callee : Exp)
    (args : List Exp) : List Instrumented :=
  let i := Instr.call ret callee args
  let name := (calledFunction? callee).map Varinfo.vname
  if name = some "MPI_Init" then
    [.program i, .runtime .getMPIInfo]
  else if name = some "MPI_Comm_rank" then
    rankMarker args i
  else if name = some "MPI_Comm_size" then
    worldSizeMarker args ++ [.program i]
  else
    [.program i]

/-- `vinst`. -/
def vinst : Instr → List Instrumented
  | .call ret callee args =>
      if skipsCall callee then
        [.program (.call ret callee args)]
      else
        changeCall ret callee args
  | i => [.program i]

/-- `crestInstrumentVisitor`: its `vstmt` and `vinst`. -/
def visitor : Visitor where
  atInstr := vinst
  beforeIf := fun _ => []
  atBranch := fun bid _ => .branchOnly bid
  beforeReturn := fun _ => []

/-- The visit of a function: `vfunc` is not overridden. -/
def visitFunction (f : Fundec Instr) : Fundec Instrumented where
  svar := f.svar
  sformals := f.sformals
  sbody := visitor.visitBlock f.sbody

/-- The visit of the functions of a file. -/
def visitFile : List (Fundec Instr) → List (Fundec Instrumented) :=
  List.map visitFunction

end Compi.Cil.CrestBranch
