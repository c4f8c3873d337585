import Compi.SymbolicExpression

/-!
# Symbolic predicates

A symbolic predicate compares a symbolic expression to zero.
-/

namespace Compi

/-- `SymbolicPred`: the expression `expr` compares to zero by `op`. -/
structure SymbolicPred where
  op : CompareOp
  expr : SymbolicExpr
  deriving DecidableEq

namespace SymbolicPred

/-- `Negate`. -/
def negate (p : SymbolicPred) : SymbolicPred where
  op := negateCompareOp p.op
  expr := p.expr

/-- `Equal`. -/
def equal (p q : SymbolicPred) : Bool :=
  decide (p.op = q.op) && decide (p.expr = q.expr)

/-- `AppendVars`: the variables of the expression. -/
def vars (p : SymbolicPred) : List Var :=
  p.expr.vars

/-- `DependsOn`. -/
def dependsOn
    (p : SymbolicPred)
    (among : OrderedMap Var CType) : Bool :=
  p.expr.dependsOn among

/-- Whether the predicate is true under an assignment of the variables. -/
def holds (p : SymbolicPred) (assignment : Var → Value) : Bool :=
  p.op.holdsOf (p.expr.eval assignment)

@[simp] theorem equal_iff {p q : SymbolicPred} :
    p.equal q = true ↔ p = q := by
  cases p
  cases q
  simp [equal]

@[simp] theorem negate_negate (p : SymbolicPred) :
    p.negate.negate = p := by
  simp [negate]

@[simp] theorem negate_vars (p : SymbolicPred) :
    p.negate.vars = p.vars :=
  rfl

@[simp] theorem holds_negate
    (p : SymbolicPred)
    (assignment : Var → Value) :
    p.negate.holds assignment = !p.holds assignment := by
  simp [holds, negate]

/-- The truth of a predicate depends only on its variables. -/
theorem holds_congr
    {p : SymbolicPred}
    {left right : Var → Value}
    (agree : ∀ v ∈ p.vars, left v = right v) :
    p.holds left = p.holds right := by
  rw [holds, holds, SymbolicExpr.eval_congr agree]

end SymbolicPred

end Compi
