import Compi.PreparedProgram
import Mathlib.Algebra.Order.Ring.Int
import Mathlib.Order.Compare

/-!
# The meaning of conditions

A condition is taken if its value compares unequal to zero.  Values of two
operands may be unordered, if one of them is a floating-point value that is not
a number; then only the operator `!=` holds of them.
-/

namespace Compi.Cil

/-- A value; a floating-point value may not be a number. -/
inductive CValue (R : Type) where
  | int (value : Int)
  | ptr (address : Int)
  | float (value : Option R)
  deriving DecidableEq

/--
What conditions are evaluated with: how an integer is converted for the
comparison with a floating-point value, and the values of expressions other
than constants, negations and comparisons.
-/
structure Evaluation (R : Type) where
  toFloat : Int → R
  leaf : Exp → CValue R

/-- Whether a comparison holds of two operands that compare in a way. -/
def holdsOf (op : Binop) (compared : Option Ordering) : Bool :=
  match op with
  | .eq => decide (compared = some .eq)
  | .ne => decide (compared ≠ some .eq)
  | .lt => decide (compared = some .lt)
  | .gt => decide (compared = some .gt)
  | .le => decide (compared = some .lt ∨ compared = some .eq)
  | .ge => decide (compared = some .gt ∨ compared = some .eq)
  | _ => false

/-- Comparisons that need an order. -/
def isRelational : Binop → Bool
  | .lt | .gt | .le | .ge => true
  | _ => false

namespace Evaluation

variable {R : Type} [LinearOrder R] (evaluation : Evaluation R)

/-- A floating-point operand of a comparison. -/
def number : CValue R → Option R
  | .int value => some (evaluation.toFloat value)
  | .ptr address => some (evaluation.toFloat address)
  | .float value => value

/-- How two operands compare, if they are not unordered. -/
def compare? : CValue R → CValue R → Option Ordering
  | .int a, .int b => some (compare a b)
  | .int a, .ptr b => some (compare a b)
  | .ptr a, .int b => some (compare a b)
  | .ptr a, .ptr b => some (compare a b)
  | a, b =>
      (evaluation.number a).bind fun x =>
        (evaluation.number b).map fun y => compare x y

/-- A value counts as true if it compares unequal to zero. -/
def truth (value : CValue R) : Bool :=
  holdsOf .ne (evaluation.compare? value (.int 0))

/-- The truth of an expression as an integer. -/
def ofBool (truth : Bool) : CValue R :=
  .int (if truth then 1 else 0)

/-- The value of an expression. -/
def eval : Exp → CValue R
  | .const (.int64 value _) => .int value
  | .unOp .lNot e _ => ofBool !evaluation.truth (eval e)
  | .binOp op e₁ e₂ type =>
      if isCompareOp op then
        ofBool (holdsOf op (evaluation.compare? (eval e₁) (eval e₂)))
      else
        evaluation.leaf (.binOp op e₁ e₂ type)
  | e => evaluation.leaf e

/-- The branch of a condition that is taken. -/
def taken (e : Exp) : Bool :=
  evaluation.truth (evaluation.eval e)

end Evaluation

/-- An expression is a comparison. -/
def isComparison : Exp → Bool
  | .binOp op _ _ _ => isCompareOp op
  | _ => false

/--
The predicate of a condition is a comparison that holds if the condition does,
or if it does not.
-/
structure Preserves
    {R : Type}
    [LinearOrder R]
    (evaluation : Evaluation R)
    (e : Exp)
    (negated : Bool) : Prop where
  isComparison : isComparison (mkPredicate e negated) = true
  taken :
    evaluation.taken (mkPredicate e negated) =
      (evaluation.taken e != negated)

/--
Under the negations of a condition there is no comparison by order, negated
an odd number of times, whose operands are unordered.
-/
def OrderedWhereNegated
    {R : Type}
    [LinearOrder R]
    (evaluation : Evaluation R) : Exp → Bool → Prop
  | .unOp .lNot e _, negated =>
      OrderedWhereNegated evaluation e !negated
  | .binOp op e₁ e₂ _, negated =>
      negated = true → isRelational op = true →
        evaluation.compare? (evaluation.eval e₁) (evaluation.eval e₂) ≠ none
  | _, _ => True

section Comparisons

variable
  {R : Type}
  [LinearOrder R]
  (evaluation : Evaluation R)

@[simp] theorem isCompareOp_negateCompareOp (op : Binop) :
    isCompareOp (negateCompareOp op) = isCompareOp op := by
  cases op <;> rfl

/-- The negated operator is the negation unless the operands are unordered. -/
theorem holdsOf_negateCompareOp_iff
    {op : Binop}
    (isCompare : isCompareOp op = true)
    (compared : Option Ordering) :
    holdsOf (negateCompareOp op) compared = !holdsOf op compared ↔
      (isRelational op = true → compared ≠ none) := by
  cases op with
  | eq | ne | lt | gt | le | ge =>
      cases compared with
      | none => decide
      | some ordering => cases ordering <;> decide
  | _ => cases isCompare

/-- The integers for true and false count as true and false. -/
@[simp] theorem truth_ofBool (truth : Bool) :
    evaluation.truth (Evaluation.ofBool truth) = truth := by
  cases truth <;> rfl

@[simp] theorem taken_lNot (e : Exp) (type : Typ) :
    evaluation.taken (.unOp .lNot e type) = !evaluation.taken e := by
  unfold Evaluation.taken
  rw [Evaluation.eval, truth_ofBool]

/-- A comparison is taken if it holds of its operands. -/
theorem taken_compare
    {op : Binop}
    (isCompare : isCompareOp op = true)
    (e₁ e₂ : Exp)
    (type : Typ) :
    evaluation.taken (.binOp op e₁ e₂ type) =
      holdsOf op
        (evaluation.compare? (evaluation.eval e₁) (evaluation.eval e₂)) := by
  unfold Evaluation.taken
  rw [Evaluation.eval, if_pos isCompare, truth_ofBool]

/-- The comparison of an expression with zero. -/
theorem taken_compareZero
    (e : Exp)
    (negated : Bool) :
    evaluation.taken
        (.binOp (if negated then .eq else .ne) e
          (.const (.int64 0 .int)) (.int .int)) =
      (evaluation.taken e != negated) := by
  cases negated with
  | false =>
      rw [if_neg Bool.false_ne_true, taken_compare evaluation rfl,
        Bool.bne_false]
      rfl
  | true =>
      rw [if_pos rfl, taken_compare evaluation rfl, Bool.bne_true]
      have isCompare : isCompareOp .ne = true := rfl
      exact
        (holdsOf_negateCompareOp_iff isCompare _).mpr fun relational =>
          nomatch relational

end Comparisons

section Predicates

variable
  {R : Type}
  [LinearOrder R]
  (evaluation : Evaluation R)

/-- Every condition becomes a comparison. -/
theorem isComparison_mkPredicate (e : Exp) (negated : Bool) :
    isComparison (mkPredicate e negated) = true := by
  fun_induction mkPredicate e negated with
  | case1 e type negated inductionHypothesis =>
      exact inductionHypothesis
  | case2 op e₁ e₂ type isCompare =>
      rw [isComparison, isCompareOp_negateCompareOp]
      exact isCompare
  | case3 op e₁ e₂ type negated isCompare =>
      exact isCompare
  | case4 op e₁ e₂ type negated =>
      cases negated <;> rfl
  | case5 e negated =>
      cases negated <;> rfl

/-- The meaning of the predicate of a condition. -/
theorem taken_mkPredicate_iff (e : Exp) (negated : Bool) :
    evaluation.taken (mkPredicate e negated) =
        (evaluation.taken e != negated) ↔
      OrderedWhereNegated evaluation e negated := by
  fun_induction mkPredicate e negated with
  | case1 e type negated inductionHypothesis =>
      rw [taken_lNot, OrderedWhereNegated, ← inductionHypothesis]
      cases evaluation.taken e <;> cases negated <;> rfl
  | case2 op e₁ e₂ type isCompare =>
      have isNegated : isCompareOp (negateCompareOp op) = true := by
        rw [isCompareOp_negateCompareOp]
        exact isCompare
      rw [taken_compare evaluation isNegated, taken_compare evaluation isCompare,
        Bool.bne_true, holdsOf_negateCompareOp_iff isCompare,
        OrderedWhereNegated]
      simp
  | case3 op e₁ e₂ type negated isCompare notNegated =>
      rw [Bool.not_eq_true] at notNegated
      subst notNegated
      rw [OrderedWhereNegated, Bool.bne_false]
      simp
  | case4 op e₁ e₂ type negated notCompare =>
      refine iff_of_true (taken_compareZero evaluation _ negated) ?_
      intro _ relational
      cases op with
      | lt | gt | le | ge => exact absurd rfl notCompare
      | _ => cases relational
  | case5 e negated notNegation notBinary =>
      refine iff_of_true (taken_compareZero evaluation e negated) ?_
      unfold OrderedWhereNegated
      split
      · next e type => exact (notNegation e type rfl).elim
      · next op e₁ e₂ type => exact (notBinary op e₁ e₂ type rfl).elim
      · trivial

/--
The predicate of a condition preserves its meaning unless it negates a
comparison by order of unordered operands.
-/
theorem preserves_iff (e : Exp) (negated : Bool) :
    Preserves evaluation e negated ↔
      OrderedWhereNegated evaluation e negated := by
  rw [← taken_mkPredicate_iff]
  constructor
  · exact fun preserves => preserves.taken
  · exact fun taken =>
      { isComparison := isComparison_mkPredicate e negated
        taken := taken }

end Predicates

/-- The `double` variable with a name. -/
def doubleLocal (name : String) : Exp :=
  .lval (.var ⟨name, .float, false, []⟩ .noOffset)

/-- `!(a < b)`. -/
def notLess : Exp :=
  .unOp .lNot
    (.binOp .lt (doubleLocal "a") (doubleLocal "b") (.int .int)) (.int .int)

/-- `a` is not a number, and `b` is one. -/
def unordered : Evaluation Int where
  toFloat := id
  leaf := fun e =>
    .float (if e = doubleLocal "a" then none else some 1)

/-- `!(a < b)` holds of unordered operands, but `a >= b` does not. -/
theorem not_preserves_notLess :
    ¬ Preserves unordered notLess false := by
  intro preserves
  have differs :
      unordered.taken (mkPredicate notLess false) ≠
        (unordered.taken notLess != false) := by
    decide
  exact differs preserves.taken

end Compi.Cil
