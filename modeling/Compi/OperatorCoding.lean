import Compi.CrestAll
import Compi.CrestRuntime
import Compi.MachineInterpreter
import Compi.ShiftExactness

/-!
# The coding of operators

An operator of the program reaches the interpreter as a number.  The
instrumenter chooses the number, the runtime library looks it up in a table
and sends it to one of two operations, and the entry is cast to the
enumeration of that operation.
-/

namespace Compi

open Cil

/-- The comparison that an operator stands for, if it is one. -/
def Cil.Binop.comparison? : Binop → Option (Value → Value → Bool)
  | .eq => some fun a b => decide (a = b)
  | .ne => some fun a b => decide (a ≠ b)
  | .gt => some fun a b => decide (a > b)
  | .le => some fun a b => decide (a ≤ b)
  | .lt => some fun a b => decide (a < b)
  | .ge => some fun a b => decide (a ≥ b)
  | _ => none

/-- The value of an element when the inputs have given values. -/
def StackElem.valueUnder
    (elem : StackElem)
    (assignment : Var → Value) : Value :=
  match elem.expr with
  | some e => e.eval assignment
  | none => elem.concrete

/-- An operator applied to the two elements that were pushed last. -/
structure OperatorApplication where
  op : Binop
  operation : Exp
  here : Circumstances
  si : SymbolicInterpreter
  left : StackElem
  right : StackElem
  rest : List StackElem

namespace OperatorApplication

section Actions

variable (application : OperatorApplication)

/-- The runtime library once an input has been marked. -/
def before : Crest where
  si :=
    { application.si with
      stack :=
        application.right :: application.left :: application.rest }
  preSymbolic := false

/-- The effect of the inserted call. -/
def after : Option Crest :=
  application.before.perform application.here
    (CrestAll.mkApply2 application.op application.operation)

/-- The result in place of the operands, and a new predicate register. -/
def leaves
    (expr : Option SymbolicExpr)
    (register : Option SymbolicPred) : Crest where
  si :=
    { application.si with
      stack :=
        { expr := expr
          concrete :=
            application.here.value (toValue application.operation) } ::
          application.rest
      pred := register }
  preSymbolic := false

/-- One of the operands is symbolic. -/
def isSymbolic : Bool :=
  application.left.expr.isSome || application.right.expr.isSome

/-- The operator has a symbolic result on these operands. -/
def isTracked : Bool :=
  match application.op with
  | .plusA => application.isSymbolic
  | .minusA => application.isSymbolic
  | .mult => application.isSymbolic
  | .shiftlt => application.left.expr.isSome
  | _ => false

/-- A left factor is fixed where the other factor is symbolic, too. -/
def leftFactor (assignment : Var → Value) : Value :=
  if application.right.expr.isSome then
    application.left.concrete
  else
    application.left.valueUnder assignment

/--
The value that a symbolic result must have.  A shift has one only for the
counts that a word permits.
-/
def IsResult (assignment : Var → Value) (value : Value) : Prop :=
  let left := application.left.valueUnder assignment
  let right := application.right.valueUnder assignment
  match application.op with
  | .plusA => value = left + right
  | .minusA => value = left - right
  | .mult => value = application.leftFactor assignment * right
  | .shiftlt =>
      0 ≤ application.right.concrete →
        application.right.concrete < 64 →
        value ≡
          left * 2 ^ application.right.concrete.toNat [ZMOD 2 ^ 64]
  | _ => False

/-- The expression left is that of the operator. -/
def ExprActs
    (assignment : Var → Value) : Option SymbolicExpr → Prop
  | some e =>
      application.isTracked = true ∧
        application.IsResult assignment (e.eval assignment)
  | none => application.isTracked = false

/--
The register holds the comparison of the operands in their order.  It is empty
where the comparison does not depend on the inputs, and after operators that
compare nothing.
-/
def RegisterActs
    (assignment : Var → Value)
    (register : Option SymbolicPred) : Prop :=
  match application.op.comparison?, register with
  | some compare, some p =>
      application.isSymbolic = true ∧
        p.holds assignment =
          compare
            (application.left.valueUnder assignment)
            (application.right.valueUnder assignment)
  | some compare, none =>
      ∀ other,
        compare
            (application.left.valueUnder other)
            (application.right.valueUnder other) =
          compare
            (application.left.valueUnder assignment)
            (application.right.valueUnder assignment)
  | none, register => register = none

/-- The inserted call makes the interpreter act as the operator. -/
def Acts (assignment : Var → Value) : Prop :=
  ∃ expr register,
    application.after = some (application.leaves expr register) ∧
      application.ExprActs assignment expr ∧
      application.RegisterActs assignment register

/-- The register after a comparison. -/
def compared (op : CompareOp) : Option SymbolicPred :=
  match application.left.subtractExpr application.right with
  | none => application.si.pred
  | some e => if e.isConcrete then none else some { op := op, expr := e }

/--
The operands and the register with which the codes line up: an operator on
pointers is taken as a comparison, a comparison of concrete operands leaves the
register alone, and a shift has a factor of the width of an `int`.
-/
def LinesUp (assignment : Var → Value) : Prop :=
  match application.op with
  | .plusPI | .indexPI | .minusPI | .minusPP =>
      match application.left.subtractExpr application.right with
      | none => application.si.pred = none
      | some e => e.isConcrete = true
  | .eq | .ne | .gt | .le | .lt | .ge =>
      application.isSymbolic = false → application.si.pred = none
  | .shiftlt =>
      application.left.expr.isSome = true →
        0 ≤ application.right.concrete →
        application.right.concrete < 64 →
        let count := application.right.concrete.toNat
        let left := application.left.valueUnder assignment
        count ≤ 30 ∨
          (count = 31 ∧ 2 ^ 32 ∣ left) ∨
          (32 ≤ count ∧ 2 ^ (96 - count) ∣ left)
  | _ => True

end Actions

section Tables

variable (application : OperatorApplication)

/-- What the tables together make of an operator. -/
def outcome : Option SymbolicExpr × Option SymbolicPred :=
  let left := application.left
  let right := application.right
  match application.op with
  | .plusA => (left.addExpr right, none)
  | .minusA => (left.subtractExpr right, none)
  | .mult => (left.multiplyExpr right, none)
  | .shiftlt => (left.shiftLExpr right, none)
  | .eq => (none, application.compared .eq)
  | .ne => (none, application.compared .neq)
  | .gt => (none, application.compared .gt)
  | .le => (none, application.compared .le)
  | .lt => (none, application.compared .lt)
  | .ge => (none, application.compared .ge)
  | .plusPI | .indexPI | .minusPI | .minusPP =>
      (none, application.compared .lt)
  | _ => (none, none)

theorem after_eq :
    application.after =
      some (application.leaves application.outcome.1 application.outcome.2) := by
  obtain ⟨op, operation, here, si, left, right, rest⟩ := application
  cases op <;> rfl

/-- The event that the inserted call sends to the interpreter. -/
def event : SymbolicInterpreter.Event :=
  Crest.apply2Event (CrestAll.binaryOpCode application.op)
    (application.here.value (toValue application.operation))

/-- The effect of the inserted call on the machine. -/
def machineAfter : Option Crest :=
  (application.before.si.stepIn .machine application.event).map fun si =>
    { application.before with si := si }

/-- On the machine the call has this effect if nothing overflows. -/
theorem machineAfter_eq
    (fits : application.before.si.NoOverflow application.event) :
    application.machineAfter = application.after := by
  have forwarded :
      application.after = application.before.forward application.event := by
    obtain ⟨op, operation, here, si, left, right, rest⟩ := application
    cases op <;> rfl
  rw [forwarded, machineAfter, SymbolicInterpreter.stepIn_machine fits]
  rfl

theorem leaves_injective
    {expr expr' : Option SymbolicExpr}
    {register register' : Option SymbolicPred}
    (same :
      application.leaves expr register =
        application.leaves expr' register') :
    expr = expr' ∧ register = register' := by
  simp only [leaves, Crest.mk.injEq, SymbolicInterpreter.mk.injEq,
    List.cons.injEq, StackElem.mk.injEq] at same
  tauto

/-- The call acts as the operator where its outcome does. -/
theorem acts_iff_outcome (assignment : Var → Value) :
    application.Acts assignment ↔
      application.ExprActs assignment application.outcome.1 ∧
        application.RegisterActs assignment application.outcome.2 := by
  constructor
  · rintro ⟨expr, register, left, exprActs, registerActs⟩
    rw [application.after_eq, Option.some_inj] at left
    obtain ⟨rfl, rfl⟩ := application.leaves_injective left
    exact ⟨exprActs, registerActs⟩
  · rintro ⟨exprActs, registerActs⟩
    exact ⟨_, _, application.after_eq, exprActs, registerActs⟩

end Tables

section Results

variable
  {application : OperatorApplication}
  {assignment : Var → Value}

/-- Sums, differences and products leave the expression of the operator. -/
theorem exprActs_arithmetic
    (arithmetic : application.op ∈ [Binop.plusA, .minusA, .mult]) :
    application.ExprActs assignment application.outcome.1 := by
  obtain ⟨op, operation, here, si, ⟨leftExpr, leftValue⟩,
    ⟨rightExpr, rightValue⟩, rest⟩ := application
  simp only [List.mem_cons, List.not_mem_nil, or_false] at arithmetic
  rcases arithmetic with rfl | rfl | rfl
  · cases leftExpr <;> cases rightExpr <;>
      simp [ExprActs, IsResult, isTracked, isSymbolic, outcome,
        StackElem.addExpr, StackElem.valueUnder, add_comm]
  · cases leftExpr <;> cases rightExpr <;>
      simp [ExprActs, IsResult, isTracked, isSymbolic, outcome,
        StackElem.subtractExpr, StackElem.valueUnder, neg_add_eq_sub]
  · cases leftExpr <;> cases rightExpr <;>
      simp [ExprActs, IsResult, isTracked, isSymbolic, outcome, leftFactor,
        StackElem.multiplyExpr, StackElem.valueUnder, mul_comm]

/-- A shift leaves the expression of the operator up to its factor. -/
theorem exprActs_shift
    (shift : application.op = .shiftlt) :
    application.ExprActs assignment application.outcome.1 ↔
      application.LinesUp assignment := by
  obtain ⟨op, operation, here, si, ⟨leftExpr, leftValue⟩, right, rest⟩ :=
    application
  subst shift
  cases leftExpr with
  | none =>
      simp [ExprActs, LinesUp, isTracked, outcome, StackElem.shiftLExpr]
  | some e =>
      simp only [ExprActs, LinesUp, IsResult, isTracked, outcome,
        StackElem.shiftLExpr, Option.map_some, Option.isSome_some, true_and,
        forall_const, StackElem.valueUnder, SymbolicExpr.eval_mulConst]
      refine forall_congr' fun nonneg => forall_congr' fun permitted => ?_
      have count_cast : (right.concrete.toNat : Value) = right.concrete :=
        Int.toNat_of_nonneg nonneg
      have count_lt : right.concrete.toNat < 64 :=
        (Int.toNat_lt nonneg).mpr permitted
      rw [← dvd_mul_error_iff _ count_lt, count_cast, mul_sub, mul_comm,
        Int.modEq_comm, Int.modEq_iff_dvd]

/-- Where the operands compare, their difference compares to zero. -/
theorem holdsOf_subtractExpr
    {op : CompareOp}
    {compare : Value → Value → Bool}
    (difference : ∀ a b, op.holdsOf (a - b) = compare a b)
    {a b : StackElem}
    {e : SymbolicExpr}
    (subtracted : a.subtractExpr b = some e)
    (assignment : Var → Value) :
    op.holdsOf (e.eval assignment) =
      compare (a.valueUnder assignment) (b.valueUnder assignment) := by
  obtain ⟨leftExpr, leftValue⟩ := a
  obtain ⟨rightExpr, rightValue⟩ := b
  rw [← difference]
  congr 1
  cases leftExpr <;> cases rightExpr <;>
    simp only [StackElem.subtractExpr, Option.some.injEq, reduceCtorEq]
      at subtracted
  all_goals
    subst subtracted
    simp [StackElem.valueUnder, neg_add_eq_sub]

/-- An expression without variables has one value. -/
theorem eval_of_isConcrete
    {e : SymbolicExpr}
    (constant : e.isConcrete = true)
    (assignment other : Var → Value) :
    e.eval assignment = e.eval other := by
  refine SymbolicExpr.eval_congr fun v occurs => ?_
  rw [SymbolicExpr.mem_vars,
    Std.ExtTreeMap.isEmpty_iff.mp constant] at occurs
  exact absurd occurs Std.ExtTreeMap.not_mem_empty

theorem isSymbolic_eq_false :
    application.isSymbolic = false ↔
      application.left.expr = none ∧ application.right.expr = none := by
  simp [isSymbolic]

/-- Two elements without expressions have no symbolic difference. -/
theorem subtractExpr_eq_none {a b : StackElem} :
    a.subtractExpr b = none ↔ a.expr = none ∧ b.expr = none := by
  obtain ⟨leftExpr, leftValue⟩ := a
  obtain ⟨rightExpr, rightValue⟩ := b
  cases leftExpr <;> cases rightExpr <;> simp [StackElem.subtractExpr]

/-- A comparison leaves the comparison of its operands, if one is symbolic. -/
theorem registerActs_compared
    {op : CompareOp}
    {compare : Value → Value → Bool}
    (comparison : application.op.comparison? = some compare)
    (difference : ∀ a b, op.holdsOf (a - b) = compare a b) :
    application.RegisterActs assignment (application.compared op) ↔
      (application.isSymbolic = false → application.si.pred = none) := by
  cases subtracted :
      application.left.subtractExpr application.right with
  | none =>
      have bothNone := subtractExpr_eq_none.mp subtracted
      have concrete := isSymbolic_eq_false.mpr bothNone
      simp only [RegisterActs, compared, comparison, subtracted, concrete,
        StackElem.valueUnder, bothNone, forall_const]
      cases application.si.pred <;> simp
  | some e =>
      have symbolic : application.isSymbolic = true := by
        rw [← Bool.not_eq_false, isSymbolic_eq_false, ← subtractExpr_eq_none,
          subtracted]
        exact Option.some_ne_none e
      have value := holdsOf_subtractExpr difference subtracted
      cases constant : e.isConcrete with
      | true =>
          simp only [RegisterActs, compared, comparison, subtracted, constant,
            if_true, symbolic, reduceCtorEq, false_implies, iff_true]
          intro other
          rw [← value, ← value, eval_of_isConcrete constant other]
      | false =>
          simp [RegisterActs, compared, comparison, subtracted, constant,
            symbolic, SymbolicPred.holds, value]

/-- The register is emptied where the difference has no variable. -/
theorem compared_eq_none (op : CompareOp) :
    application.compared op = none ↔
      match application.left.subtractExpr application.right with
      | none => application.si.pred = none
      | some e => e.isConcrete = true := by
  unfold compared
  split <;> simp

end Results

variable (application : OperatorApplication)

/-- `p + i` for a pointer `p` to characters and an input `i`. -/
def movedPointer : OperatorApplication where
  op := .plusPI
  operation :=
    .binOp .plusPI
      (.lval (.var ⟨"p", .ptr (.int .char), false, []⟩ .noOffset))
      (.lval (.var ⟨"i", .int .int, false, []⟩ .noOffset))
      (.ptr (.int .char))
  here :=
    { addr := fun _ => 8192
      value := fun _ => 4099
      pointee := fun _ => 3
      rank := 0
      targetRank := 0
      worldSize := 1
      focus := 0
      gathered := [] }
  si := .fresh [3] 0 0 0 1
  left := { expr := none, concrete := 4096 }
  right := { expr := some (.ofTerm 1 0), concrete := 3 }
  rest := []

end OperatorApplication

end Compi
