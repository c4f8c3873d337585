import Compi.SymbolicInterpreter
import Compi.WrappingExpression

/-!
# The interpreter over an arithmetic

The interpreter computes expressions with the operators of `SymbolicExpr`.
Over exact operators it is the interpreter on integers; over those of the
machine it is the one that runs.  Both pass the same concrete values, which
the program under test computes, and differ in expressions that overflow.
-/

namespace Compi

/-- The operators on expressions. -/
structure ExprArithmetic where
  negate : SymbolicExpr → SymbolicExpr
  addConst : SymbolicExpr → Value → SymbolicExpr
  subConst : SymbolicExpr → Value → SymbolicExpr
  mulConst : SymbolicExpr → Value → SymbolicExpr
  addAssign : SymbolicExpr → SymbolicExpr → SymbolicExpr
  subAssign : SymbolicExpr → SymbolicExpr → SymbolicExpr

namespace ExprArithmetic

/-- Operators on integers. -/
def exact : ExprArithmetic where
  negate := SymbolicExpr.negate
  addConst := SymbolicExpr.addConst
  subConst := SymbolicExpr.subConst
  mulConst := SymbolicExpr.mulConst
  addAssign := SymbolicExpr.addAssign
  subAssign := SymbolicExpr.subAssign

/-- Operators on `value_t`, whose overflow wraps on the machine. -/
def machine : ExprArithmetic where
  negate := SymbolicExpr.wrappingNegate
  addConst := SymbolicExpr.wrappingAddConst
  subConst := SymbolicExpr.wrappingSubConst
  mulConst := SymbolicExpr.wrappingMulConst
  addAssign := SymbolicExpr.wrappingAddAssign
  subAssign := SymbolicExpr.wrappingSubAssign

end ExprArithmetic

variable (arithmetic : ExprArithmetic)

namespace StackElem

variable (a b : StackElem)

/-- The expression of `a + b`. -/
def addExprIn : Option SymbolicExpr :=
  match a.expr, b.expr with
  | none, none => none
  | none, some y => some (arithmetic.addConst y a.concrete)
  | some x, none => some (arithmetic.addConst x b.concrete)
  | some x, some y => some (arithmetic.addAssign x y)

/-- The expression of `a - b`, for `SUBTRACT` and for every comparison. -/
def subtractExprIn : Option SymbolicExpr :=
  match a.expr, b.expr with
  | none, none => none
  | none, some y => some (arithmetic.addConst (arithmetic.negate y) a.concrete)
  | some x, none => some (arithmetic.subConst x b.concrete)
  | some x, some y => some (arithmetic.subAssign x y)

/-- The expression of `a * b`: of two symbolic factors the left is fixed. -/
def multiplyExprIn : Option SymbolicExpr :=
  match a.expr, b.expr with
  | none, none => none
  | none, some y => some (arithmetic.mulConst y a.concrete)
  | some x, none => some (arithmetic.mulConst x b.concrete)
  | some _, some y => some (arithmetic.mulConst y a.concrete)

/-- The expression of `a << b`: a symbolic count is fixed. -/
def shiftLExprIn : Option SymbolicExpr :=
  a.expr.map fun x => arithmetic.mulConst x (shiftFactor b.concrete)

/-- The expression that a binary operator leaves. -/
def binaryExprIn : BinaryOp → Option SymbolicExpr
  | .add => a.addExprIn arithmetic b
  | .subtract => a.subtractExprIn arithmetic b
  | .multiply => a.multiplyExprIn arithmetic b
  | .shiftL => a.shiftLExprIn arithmetic b
  | .concrete => none

@[simp] theorem subtractExprIn_exact :
    a.subtractExprIn .exact b = a.subtractExpr b := by
  unfold subtractExprIn subtractExpr
  cases a.expr <;> cases b.expr <;> rfl

@[simp] theorem binaryExprIn_exact (op : BinaryOp) :
    a.binaryExprIn .exact b op = a.binaryExpr b op := by
  cases op with
  | add =>
      change a.addExprIn .exact b = a.addExpr b
      unfold addExprIn addExpr
      cases a.expr <;> cases b.expr <;> rfl
  | subtract =>
      exact a.subtractExprIn_exact b
  | multiply =>
      change a.multiplyExprIn .exact b = a.multiplyExpr b
      unfold multiplyExprIn multiplyExpr
      cases a.expr <;> cases b.expr <;> rfl
  | shiftL =>
      change a.shiftLExprIn .exact b = a.shiftLExpr b
      simp only [shiftLExprIn, shiftLExpr, ExprArithmetic.exact]
  | concrete =>
      rfl

end StackElem

namespace SymbolicInterpreter

variable (si : SymbolicInterpreter)

/-- `ApplyUnaryOp`: a concrete top leaves the predicate register alone. -/
def applyUnaryOpIn
    (op : UnaryOp)
    (value : Value) : Option SymbolicInterpreter :=
  match si.stack with
  | [] => none
  | se :: rest =>
      match se.expr, op, si.pred with
      | none, _, _ =>
          some { si with stack := { se with concrete := value } :: rest }
      | some e, .negate, _ =>
          some { si with
            stack :=
              { expr := some (arithmetic.negate e), concrete := value } :: rest
            pred := none }
      | some e, .logicalNot, some p =>
          some { si with
            stack := { expr := some e, concrete := value } :: rest
            pred := some p.negate }
      | some _, _, _ =>
          some { si with
            stack := { expr := none, concrete := value } :: rest
            pred := none }

/-- `ApplyBinaryOp`. -/
def applyBinaryOpIn
    (op : BinaryOp)
    (value : Value) : Option SymbolicInterpreter :=
  match si.stack with
  | b :: a :: rest =>
      some { si with
        stack :=
          { expr := a.binaryExprIn arithmetic b op, concrete := value } :: rest
        pred := none }
  | _ => none

/-- `ApplyCompareOp`. -/
def applyCompareOpIn
    (op : CompareOp)
    (value : Value) : Option SymbolicInterpreter :=
  match si.stack with
  | b :: a :: rest =>
      some { si with
        stack := { expr := none, concrete := value } :: rest
        pred :=
          match a.subtractExprIn arithmetic b with
          | none => si.pred
          | some e =>
              if e.isConcrete then none else some { op := op, expr := e } }
  | _ => none

/-- The effect of one event. -/
def stepIn : Event → Option SymbolicInterpreter
  | .applyUnaryOp op value => si.applyUnaryOpIn arithmetic op value
  | .applyBinaryOp op value => si.applyBinaryOpIn arithmetic op value
  | .applyCompareOp op value => si.applyCompareOpIn arithmetic op value
  | event => si.step event

variable {arithmetic} {si}

/-- A negation that is exact is applied as on integers. -/
theorem applyUnaryOpIn_eq
    {op : UnaryOp}
    {value : Value}
    (same :
      ∀ se rest e,
        si.stack = se :: rest →
        op = .negate →
        se.expr = some e →
        arithmetic.negate e = e.negate) :
    si.applyUnaryOpIn arithmetic op value = si.applyUnaryOp op value := by
  unfold applyUnaryOpIn applyUnaryOp
  rcases stackShape : si.stack with _ | ⟨⟨_ | e, concrete⟩, rest⟩
  · rfl
  · rfl
  · cases op with
    | negate =>
        simp only [same _ rest e stackShape rfl rfl]
    | logicalNot =>
        cases si.pred <;> rfl
    | bitwiseNot =>
        rfl

/-- A binary operator whose result is exact is applied as on integers. -/
theorem applyBinaryOpIn_eq
    {op : BinaryOp}
    {value : Value}
    (same :
      ∀ b a rest,
        si.stack = b :: a :: rest →
        a.binaryExprIn arithmetic b op = a.binaryExpr b op) :
    si.applyBinaryOpIn arithmetic op value = si.applyBinaryOp op value := by
  rcases stackShape : si.stack with _ | ⟨b, _ | ⟨a, rest⟩⟩
  · simp [applyBinaryOpIn, applyBinaryOp, stackShape]
  · simp [applyBinaryOpIn, applyBinaryOp, stackShape]
  · simp [applyBinaryOpIn, applyBinaryOp, stackShape,
      same b a rest stackShape]

/-- A comparison whose difference is exact is applied as on integers. -/
theorem applyCompareOpIn_eq
    {op : CompareOp}
    {value : Value}
    (same :
      ∀ b a rest,
        si.stack = b :: a :: rest →
        a.subtractExprIn arithmetic b = a.subtractExpr b) :
    si.applyCompareOpIn arithmetic op value = si.applyCompareOp op value := by
  rcases stackShape : si.stack with _ | ⟨b, _ | ⟨a, rest⟩⟩
  · simp [applyCompareOpIn, applyCompareOp, stackShape]
  · simp [applyCompareOpIn, applyCompareOp, stackShape]
  · cases difference : a.subtractExpr b <;>
      simp [applyCompareOpIn, applyCompareOp, stackShape, difference,
        same b a rest stackShape]

/-- Over exact operators the interpreter is the one on integers. -/
@[simp] theorem stepIn_exact (event : Event) :
    si.stepIn .exact event = si.step event := by
  cases event with
  | applyUnaryOp op value =>
      exact applyUnaryOpIn_eq fun _ _ _ _ _ _ => rfl
  | applyBinaryOp op value =>
      exact applyBinaryOpIn_eq fun b a _ _ => a.binaryExprIn_exact b op
  | applyCompareOp op value =>
      exact applyCompareOpIn_eq fun b a _ _ => a.subtractExprIn_exact b
  | _ =>
      rfl

end SymbolicInterpreter

end Compi
