import Compi.PartialRun
import Compi.SymbolicExecution

/-!
# The symbolic interpreter

The interpreter runs inside the program under test.  Instrumentation feeds it
one event at a time; it keeps a stack of concrete values with optional
symbolic expressions, a symbolic memory, and a predicate register, and it
records the execution.

An operation that returns `none` is one whose assertion fails, or that traps.
-/

namespace Compi

/-- `StackElem`: no expression means that the element is concrete. -/
structure StackElem where
  expr : Option SymbolicExpr
  concrete : Value
  deriving DecidableEq

namespace StackElem

variable (a b : StackElem)

/-- The expression of `a + b`. -/
def addExpr : Option SymbolicExpr :=
  match a.expr, b.expr with
  | none, none => none
  | none, some y => some (y.addConst a.concrete)
  | some x, none => some (x.addConst b.concrete)
  | some x, some y => some (x.addAssign y)

/-- The expression of `a - b`, for `SUBTRACT` and for every comparison. -/
def subtractExpr : Option SymbolicExpr :=
  match a.expr, b.expr with
  | none, none => none
  | none, some y => some (y.negate.addConst a.concrete)
  | some x, none => some (x.subConst b.concrete)
  | some x, some y => some (x.subAssign y)

/-- The expression of `a * b`: of two symbolic factors the left is fixed. -/
def multiplyExpr : Option SymbolicExpr :=
  match a.expr, b.expr with
  | none, none => none
  | none, some y => some (y.mulConst a.concrete)
  | some x, none => some (x.mulConst b.concrete)
  | some _, some y => some (y.mulConst a.concrete)

/-- `1 << count` on an `int`, where the machine masks the count. -/
def shiftFactor (count : Value) : Value :=
  toSigned 32 (2 ^ (count % 32).toNat)

/-- The expression of `a << b`: a symbolic count is fixed. -/
def shiftLExpr : Option SymbolicExpr :=
  a.expr.map fun x => x.mulConst (shiftFactor b.concrete)

/-- The expression that a binary operator leaves. -/
def binaryExpr : BinaryOp → Option SymbolicExpr
  | .add => a.addExpr b
  | .subtract => a.subtractExpr b
  | .multiply => a.multiplyExpr b
  | .shiftL => a.shiftLExpr b
  | .concrete => none

end StackElem

/-- `SymbolicInterpreter`; the head of `stack` is its top. -/
structure SymbolicInterpreter where
  worldSize : Int
  rank : Int
  targetRank : Int
  ex : SymbolicExecution
  numInputs : Nat
  stack : List StackElem
  pred : Option SymbolicPred
  returnValue : Bool
  mem : OrderedMap Addr SymbolicExpr
  deriving DecidableEq

namespace SymbolicInterpreter

/-- `SymbolicInterpreter(input, exec_times)` of a process. -/
def fresh
    (input : List Value)
    (execTimes : Nat)
    (rank targetRank worldSize : Int) : SymbolicInterpreter where
  worldSize := worldSize
  rank := rank
  targetRank := targetRank
  ex :=
    { SymbolicExecution.empty with
      inputs := input
      executionTag := execTimes }
  numInputs := 0
  stack := []
  pred := none
  returnValue := false
  mem := ∅

section StackOperations

variable (si : SymbolicInterpreter)

/-- `ClearPredicateRegister`. -/
def clearPredicateRegister : SymbolicInterpreter :=
  { si with pred := none }

/-- `PushSymbolic`. -/
def pushSymbolic
    (expr : Option SymbolicExpr)
    (value : Value) : SymbolicInterpreter :=
  { si with stack := { expr := expr, concrete := value } :: si.stack }

/-- `PushConcrete`. -/
def pushConcrete (value : Value) : SymbolicInterpreter :=
  si.pushSymbolic none value

/-- `ClearStack`. -/
def clearStack : SymbolicInterpreter :=
  { si with stack := [], pred := none, returnValue := false }

/-- `Load`. -/
def load (addr : Addr) (value : Value) : SymbolicInterpreter :=
  (si.pushSymbolic si.mem[addr]? value).clearPredicateRegister

/-- `Store`: a concrete or constant top erases the symbolic memory. -/
def store (addr : Addr) : Option SymbolicInterpreter :=
  match si.stack with
  | [] => none
  | se :: rest =>
      let mem :=
        match se.expr with
        | some e =>
            if e.isConcrete then si.mem.erase addr else si.mem.insert addr e
        | none => si.mem.erase addr
      some { si with mem := mem, stack := rest, pred := none }

/-- `ApplyUnaryOp`: a concrete top leaves the predicate register alone. -/
def applyUnaryOp
    (op : UnaryOp)
    (value : Value) : Option SymbolicInterpreter :=
  match si.stack with
  | [] => none
  | se :: rest =>
      match se.expr, op, si.pred with
      | none, _, _ =>
          some { si with stack := { se with concrete := value } :: rest }
      | some e, .negate, _ =>
          some { si with
            stack := { expr := some e.negate, concrete := value } :: rest
            pred := none }
      | some e, .logicalNot, some p =>
          some { si with
            stack := { expr := some e, concrete := value } :: rest
            pred := some p.negate }
      | some _, _, _ =>
          some { si with
            stack := { expr := none, concrete := value } :: rest
            pred := none }

/-- `ApplyBinaryOp`. -/
def applyBinaryOp
    (op : BinaryOp)
    (value : Value) : Option SymbolicInterpreter :=
  match si.stack with
  | b :: a :: rest =>
      some { si with
        stack := { expr := a.binaryExpr b op, concrete := value } :: rest
        pred := none }
  | _ => none

/--
`ApplyCompareOp`: two concrete operands leave the predicate register alone,
and a comparison always leaves a concrete value.
-/
def applyCompareOp
    (op : CompareOp)
    (value : Value) : Option SymbolicInterpreter :=
  match si.stack with
  | b :: a :: rest =>
      some { si with
        stack := { expr := none, concrete := value } :: rest
        pred :=
          match a.subtractExpr b with
          | none => si.pred
          | some e =>
              if e.isConcrete then none else some { op := op, expr := e } }
  | _ => none

end StackOperations

section PathOperations

variable (si : SymbolicInterpreter)

/-- Replace the path of the recorded execution. -/
def withPath (path : SymbolicPath) : SymbolicInterpreter :=
  { si with ex := { si.ex with path := path } }

/-- `Call`. -/
def call (_fid : FunctionId) : SymbolicInterpreter :=
  si.withPath (si.ex.path.pushReached kCallId)

/-- `Return`: at most the return value is on the stack. -/
def returns : Option SymbolicInterpreter :=
  if si.stack.length ≤ 1 then
    some
      { si.withPath (si.ex.path.pushReached kReturnId) with
        returnValue := decide (si.stack.length = 1) }
  else
    none

/--
`HandleReturn`: keep the value an instrumented callee left, or replace the
arguments to an uninstrumented one by its concrete result.
-/
def handleReturn (value : Value) : Option SymbolicInterpreter :=
  if si.returnValue then
    if si.stack.length = 1 then
      some { si with returnValue := false }
    else
      none
  else
    some (si.clearStack.pushConcrete value)

/-- The constraint that `Branch` hands to the path. -/
def branchConstraint (predValue : Bool) : Option SymbolicPred :=
  si.pred.map fun p => if predValue then p else p.negate

/-- `Branch`: the whole stack is dropped. -/
def branch (bid : BranchId) (predValue : Bool) : SymbolicInterpreter :=
  { si.withPath
      (si.ex.path.push bid (si.branchConstraint predValue)
        (if predValue then .true else .false)) with
    stack := []
    pred := none }

/-- `BranchOnly`. -/
def branchOnly (bid : BranchId) : SymbolicInterpreter :=
  si.withPath (si.ex.path.pushReached bid)

end PathOperations

section Inputs

variable (si : SymbolicInterpreter)

/--
What the marking calls share: the variable `numInputs` is recorded and
assigned to the address.  Its value is `fromFile` of the given input if there
is one, which is written back, and otherwise `generated`, which is appended.
-/
def takeInput
    (type : CType)
    (addr : Addr)
    (fromFile : Value → Value)
    (generated : Value) : Value × SymbolicInterpreter :=
  let taken :=
    match si.ex.inputs[si.numInputs]? with
    | some given =>
        (fromFile given, si.ex.inputs.set si.numInputs (fromFile given))
    | none =>
        (generated, si.ex.inputs ++ [generated])
  (taken.1,
    { si with
      mem := si.mem.insert addr (.ofTerm 1 si.numInputs)
      ex :=
        { si.ex with
          vars := si.ex.vars.insertIfNew si.numInputs type
          inputs := taken.2 }
      numInputs := si.numInputs + 1 })

/-- Set the limit of the next variable. -/
def setLimit (limit : Value) : SymbolicInterpreter :=
  { si with
    ex := { si.ex with limits := si.ex.limits.insert si.numInputs limit } }

/--
`NewInput`: a value drawn as `rand() % limit` by process 0 and broadcast from
it to every process.  A zero limit traps when a value has to be drawn.
-/
def newInput
    (type : CType)
    (addr : Addr)
    (limit : Value)
    (draw : Nat)
    (broadcast : Value) : Option (Value × SymbolicInterpreter) :=
  if si.ex.inputs.length ≤ si.numInputs ∧ limit = 0 then
    none
  else
    some (si.takeInput type addr id
      (if si.rank = 0 then
        castTo (Int.tmod draw limit) type
      else
        broadcast))

/-- `NewInputWithLimit`. -/
def newInputWithLimit
    (type : CType)
    (addr : Addr)
    (limit : Value)
    (draw : Nat)
    (broadcast : Value) : Option (Value × SymbolicInterpreter) :=
  (si.setLimit limit).newInput type addr limit draw broadcast

/-- Apply `record` to the execution if this is the process under test. -/
def recordIfTarget
    (record : SymbolicExecution → SymbolicExecution) :
    SymbolicInterpreter :=
  if si.targetRank = si.rank then
    { si with ex := record si.ex }
  else
    si

/-- `NewInputRank`: the rank replaces a given input. -/
def newInputRank
    (type : CType)
    (addr : Addr) : Value × SymbolicInterpreter :=
  let taken :=
    si.takeInput type addr
      (fun _ => castTo si.rank type) (castTo si.rank type)
  (taken.1,
    taken.2.recordIfTarget fun ex =>
      { ex with rankIndices := ex.rankIndices ++ [(si.numInputs : Id)] })

/-- `NewInputRankNonDefaultComm`. -/
def newInputRankNonDefaultComm
    (type : CType)
    (addr : Addr) : Value × SymbolicInterpreter :=
  let taken := si.takeInput type addr id (castTo 0 type)
  (taken.1,
    taken.2.recordIfTarget fun ex =>
      { ex with
        rankNonDefaultCommIndices :=
          ex.rankNonDefaultCommIndices ++ [(si.numInputs : Id)] })

/-- `NewInputWorldSize`. -/
def newInputWorldSize
    (type : CType)
    (addr : Addr) : Value × SymbolicInterpreter :=
  let taken := si.takeInput type addr id (castTo si.worldSize type)
  (taken.1,
    taken.2.recordIfTarget fun ex =>
      { ex with
        worldSizeIndices := ex.worldSizeIndices ++ [(si.numInputs : Id)] })

/-- `NewInputWorldSizeWithLimit`. -/
def newInputWorldSizeWithLimit
    (type : CType)
    (addr : Addr)
    (limit : Value) : Value × SymbolicInterpreter :=
  (si.setLimit limit).newInputWorldSize type addr

end Inputs

/-- The calls of the instrumented program. -/
inductive Event where
  | clearStack
  | load (addr : Addr) (value : Value)
  | store (addr : Addr)
  | applyUnaryOp (op : UnaryOp) (value : Value)
  | applyBinaryOp (op : BinaryOp) (value : Value)
  | applyCompareOp (op : CompareOp) (value : Value)
  | call (fid : FunctionId)
  | returns
  | handleReturn (value : Value)
  | branch (bid : BranchId) (predValue : Bool)
  | branchOnly (bid : BranchId)
  | newInput
      (type : CType)
      (addr : Addr)
      (limit : Value)
      (draw : Nat)
      (broadcast : Value)
  | newInputWithLimit
      (type : CType)
      (addr : Addr)
      (limit : Value)
      (draw : Nat)
      (broadcast : Value)
  | newInputRank (type : CType) (addr : Addr)
  | newInputRankNonDefaultComm (type : CType) (addr : Addr)
  | newInputWorldSize (type : CType) (addr : Addr)
  | newInputWorldSizeWithLimit
      (type : CType)
      (addr : Addr)
      (limit : Value)
  deriving DecidableEq

/-- A marking call: its address, the value it returns, and its effect. -/
def marking? (si : SymbolicInterpreter) :
    Event → Option (Addr × Option (Value × SymbolicInterpreter))
  | .newInput type addr limit draw broadcast =>
      some (addr, si.newInput type addr limit draw broadcast)
  | .newInputWithLimit type addr limit draw broadcast =>
      some (addr, si.newInputWithLimit type addr limit draw broadcast)
  | .newInputRank type addr =>
      some (addr, some (si.newInputRank type addr))
  | .newInputRankNonDefaultComm type addr =>
      some (addr, some (si.newInputRankNonDefaultComm type addr))
  | .newInputWorldSize type addr =>
      some (addr, some (si.newInputWorldSize type addr))
  | .newInputWorldSizeWithLimit type addr limit =>
      some (addr, some (si.newInputWorldSizeWithLimit type addr limit))
  | _ => none

/-- The effect of one event. -/
def step
    (si : SymbolicInterpreter)
    (event : Event) : Option SymbolicInterpreter :=
  match event with
  | .clearStack => some si.clearStack
  | .load addr value => some (si.load addr value)
  | .store addr => si.store addr
  | .applyUnaryOp op value => si.applyUnaryOp op value
  | .applyBinaryOp op value => si.applyBinaryOp op value
  | .applyCompareOp op value => si.applyCompareOp op value
  | .call fid => some (si.call fid)
  | .returns => si.returns
  | .handleReturn value => si.handleReturn value
  | .branch bid predValue => some (si.branch bid predValue)
  | .branchOnly bid => some (si.branchOnly bid)
  | _ => ((si.marking? event).bind Prod.snd).map Prod.snd

end SymbolicInterpreter

end Compi
