import Compi.Instrumentation

/-!
# The heavy instrumenter

The instrumenter for the process under test.  It mirrors expressions, stores,
calls and returns on the symbolic stack, reports branches, and marks the ranks
and world sizes that the program asks for.
-/

namespace Compi.Cil.CrestAll

/-- `unaryOpCode`. -/
def unaryOpCode : Unop → Int
  | .neg => 19
  | .bNot => 20
  | .lNot => 21

/-- `binaryOpCode`: operators on pointers are unhandled. -/
def binaryOpCode : Binop → Int
  | .plusA => 0
  | .minusA => 1
  | .mult => 2
  | .div => 3
  | .mod => 4
  | .bAnd => 5
  | .bOr => 6
  | .bXor => 7
  | .shiftlt => 8
  | .shiftrt => 9
  | .lAnd => 10
  | .lOr => 11
  | .eq => 12
  | .ne => 13
  | .gt => 14
  | .le => 15
  | .lt => 16
  | .ge => 17
  | _ => 18

/-- `mkLoad`. -/
def mkLoad (addr value : Exp) : RuntimeCall :=
  .load (toAddr addr) (toValue value)

/-- `mkStore`. -/
def mkStore (addr : Exp) : RuntimeCall :=
  .store (toAddr addr)

/-- `mkApply1`. -/
def mkApply1 (op : Unop) (value : Exp) : RuntimeCall :=
  .apply1 (unaryOpCode op) (toValue value)

/-- `mkApply2`. -/
def mkApply2 (op : Binop) (value : Exp) : RuntimeCall :=
  .apply2 (binaryOpCode op) (toValue value)

/-- `mkHandleReturn`. -/
def mkHandleReturn (value : Exp) : RuntimeCall :=
  .handleReturn (toValue value)

/-- `rankMarker`. -/
def rankMarker : List Exp → Instr → List Instrumented :=
  Cil.rankMarker

/-- `worldSizeMarker`. -/
def worldSizeMarker : List Exp → List Instrumented :=
  Cil.worldSizeMarker

/-- `instrumentExpr`: the postfix evaluation; casts are taken as no-ops. -/
def instrumentExpr (e : Exp) : List RuntimeCall :=
  if isConstant e then
    [mkLoad noAddr e]
  else
    match e with
    | .lval lv =>
        if hasAddress lv then
          [mkLoad (addressOf lv) (.lval lv)]
        else
          [mkLoad noAddr (.lval lv)]
    | .unOp op e₁ type =>
        instrumentExpr e₁ ++ [mkApply1 op (.unOp op e₁ type)]
    | .binOp op e₁ e₂ type =>
        instrumentExpr e₁ ++ instrumentExpr e₂ ++
          [mkApply2 op (.binOp op e₁ e₂ type)]
    | .castE _ e₁ => instrumentExpr e₁
    | e => [mkLoad noAddr e]

/-- Every expression has an evaluation. -/
theorem instrumentExpr_ne_nil (e : Exp) : instrumentExpr e ≠ [] := by
  fun_induction instrumentExpr e with
  | case4 op e₁ type _ inductionHypothesis =>
      simp
  | case5 op e₁ e₂ type _ firstHypothesis secondHypothesis =>
      simp
  | case6 type e₁ _ inductionHypothesis =>
      exact inductionHypothesis
  | _ =>
      simp

/-- What follows a call whose function has no special treatment. -/
def afterCall (ret : Option Lval) : List RuntimeCall :=
  match ret with
  | some lv =>
      if isSymbolicLval lv && hasAddress lv then
        [mkHandleReturn (.lval lv), mkStore (addressOf lv)]
      else
        [.clearStack]
  | none => [.clearStack]

/-- The list that replaces a call, after its arguments are pushed. -/
def changeCall
    (ret : Option Lval)
    (callee : Exp)
    (args : List Exp) : List Instrumented :=
  let i := Instr.call ret callee args
  let name := (calledFunction? callee).map Varinfo.vname
  if name = some "MPI_Init" then
    [.program i, .runtime .getMPIInfo]
  else if name = some "MPI_Comm_rank" then
    rankMarker args i ++ [.runtime .clearStack]
  else if name = some "MPI_Comm_size" then
    worldSizeMarker args ++ [.program i] ++ [.runtime .clearStack]
  else
    .program i :: (afterCall ret).map .runtime

/-- `vinst`: the queued calls and the list that replaces the instruction. -/
def vinst : Instr → List Instrumented
  | .set lv e =>
      if isSymbolicExp e && hasAddress lv then
        (instrumentExpr e ++ [mkStore (addressOf lv)]).map .runtime ++
          [.program (.set lv e)]
      else
        [.program (.set lv e)]
  | .call ret callee args =>
      if skipsCall callee then
        [.program (.call ret callee args)]
      else
        ((args.filter isSymbolicExp).flatMap instrumentExpr).map .runtime ++
          changeCall ret callee args
  | .asm template => [.program (.asm template)]

/-- The calls before a return. -/
def beforeReturn (value : Option Exp) : List RuntimeCall :=
  match value with
  | some e =>
      if isSymbolicExp e then
        instrumentExpr e ++ [.returns]
      else
        [.returns]
  | none => [.returns]

/-- `crestInstrumentVisitor`: its `vstmt` and `vinst`. -/
def visitor : Visitor where
  atInstr := vinst
  beforeIf := instrumentExpr
  atBranch := fun bid taken => .branch bid taken
  beforeReturn := beforeReturn

/-- The calls at the entry of a function: the last formal is stored first. -/
def entryStores (f : Fundec Instr) : List RuntimeCall :=
  if f.svar.vtype.isVarArgs then
    []
  else
    ((f.sformals.filter fun v => isSymbolicType v.vtype).map
      fun v => mkStore (addressOf (.var v .noOffset))).reverse

mutual

/-- The pairs that visiting a statement adds, in the order of the visits. -/
def stmtBranchPairs : Stmt Instr → List (BranchId × BranchId)
  | .ite _ _ _ thenBlock elseBlock =>
      (getFirstStmtId thenBlock, getFirstStmtId elseBlock) ::
        blockBranchPairs thenBlock ++ blockBranchPairs elseBlock
  | .loop _ _ body => blockBranchPairs body
  | .block _ _ body => blockBranchPairs body
  | _ => []

/-- The pairs that visiting a block adds. -/
def blockBranchPairs : Block Instr → List (BranchId × BranchId)
  | .nil => []
  | .cons s rest => stmtBranchPairs s ++ blockBranchPairs rest

end

/-- The counter of functions and the branches seen so far. -/
structure Seen where
  funCount : Nat
  curBranches : List (BranchId × BranchId)
  branches : List (Nat × List (BranchId × BranchId))
  deriving DecidableEq

namespace Seen

/-- What has been seen before the first function of a file. -/
def start (funCount : Nat) : Seen where
  funCount := funCount
  curBranches := []
  branches := []

/-- `addFunction`. -/
def addFunction (seen : Seen) : Seen where
  funCount := seen.funCount + 1
  curBranches := []
  branches := (seen.funCount, seen.curBranches) :: seen.branches

/-- `addBranchPair` for each pair of a list. -/
def addBranchPairs
    (seen : Seen)
    (pairs : List (BranchId × BranchId)) : Seen :=
  { seen with curBranches := pairs.reverse ++ seen.curBranches }

/--
`writeBranches`: the entries appended to the file `branches`.  The entry of
what was seen before the first function is left out.
-/
def writeBranches (seen : Seen) : List (Nat × List (BranchId × BranchId)) :=
  (((seen.funCount, seen.curBranches) :: seen.branches).reverse.tail).filter
    fun entry => decide (0 < entry.1)

end Seen

/-- `vfunc`. -/
def vfunc
    (seen : Seen)
    (f : Fundec Instr) : Seen × Fundec Instrumented :=
  if shouldSkipFunction f.svar then
    (seen, { svar := f.svar, sformals := f.sformals, sbody := f.sbody.plain })
  else
    let seen := seen.addFunction
    let body := visitor.visitBlock f.sbody
    let stored :=
      if f.svar.vtype.isVarArgs then
        body
      else
        prependToBlock (entryStores f) body
    (seen.addBranchPairs (blockBranchPairs f.sbody),
      { svar := f.svar
        sformals := f.sformals
        sbody := prependToBlock [.call seen.funCount] stored })

/-- The visit of the functions of a file. -/
def visitFile (seen : Seen) : List (Fundec Instr) → Seen × List (Fundec Instrumented)
  | [] => (seen, [])
  | f :: rest =>
      let visited := vfunc seen f
      let later := visitFile visited.1 rest
      (later.1, visited.2 :: later.2)

end Compi.Cil.CrestAll
