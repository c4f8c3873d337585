import Compi.SymbolicInterpreter
import Mathlib.Data.Int.ModEq
import Mathlib.RingTheory.Coprime.Lemmas
import Mathlib.Tactic.IntervalCases
import Mathlib.Tactic.NormNum
import Mathlib.Tactic.Positivity
import Mathlib.Tactic.Ring

/-!
# Exactness of left shifts

A left shift of a symbolic operand multiplies it by `1 << count`.  The literal
is an `int`, so the factor is the power of two that the shift stands for only
up to a count of 30; from there on it is off by a power of two times an odd
number.
-/

namespace Compi

/-- A left shift of a symbolic operand by a count that a word permits. -/
structure LeftShift where
  si : SymbolicInterpreter
  left : SymbolicExpr
  leftValue : Value
  right : StackElem
  rest : List StackElem
  value : Value
  permitted : 0 ≤ right.concrete ∧ right.concrete < 64

namespace LeftShift

variable (shift : LeftShift)

/-- The count of a shift is the concrete value of its right operand. -/
def count : Nat :=
  shift.right.concrete.toNat

/-- The interpreter with both operands on its stack. -/
def before : SymbolicInterpreter :=
  { shift.si with
    stack :=
      shift.right ::
        { expr := some shift.left
          concrete := shift.leftValue } :: shift.rest }

/-- The effect of the shift. -/
def apply : Option SymbolicInterpreter :=
  shift.before.applyBinaryOp .shiftL shift.value

/-- The expression that the shift leaves. -/
def result? : Option SymbolicExpr :=
  (shift.apply.bind fun next => next.stack.head?).bind StackElem.expr

/-- The same shift with another expression for the count. -/
def withRight (expr : Option SymbolicExpr) : LeftShift :=
  { shift with right := { shift.right with expr := expr } }

/--
The expression has the value of the shift modulo the word, and does not depend
on the expression of the count.
-/
structure IsExact (assignment : Var → Value) : Prop where
  value :
    ∃ e,
      shift.result? = some e ∧
        e.eval assignment ≡
          shift.left.eval assignment * 2 ^ shift.count [ZMOD 2 ^ 64]
  dropped : ∀ expr, (shift.withRight expr).apply = shift.apply

end LeftShift

section Factors

open StackElem

/-- Up to a count of 30 the factor is exact. -/
theorem shiftFactor_of_small
    {count : Nat}
    (small : count ≤ 30) :
    shiftFactor count = 2 ^ count := by
  interval_cases count <;> rfl

/-- The machine masks a count to the width of an `int`. -/
theorem shiftFactor_add_width (count : Nat) :
    shiftFactor ((count + 32 : Nat) : Value) = shiftFactor count := by
  have masked : ((count + 32 : Nat) : Int) % 32 = (count : Int) % 32 := by
    omega
  unfold shiftFactor
  rw [masked]

/-- From a count of 32 on the factor is off by a power of two and an odd number. -/
theorem shiftFactor_of_large
    {count : Nat}
    (large : 32 ≤ count)
    (permitted : count < 64) :
    ∃ odd : Int,
      IsCoprime (2 : Int) odd ∧
        shiftFactor count - 2 ^ count = 2 ^ (count - 32) * odd := by
  obtain ⟨excess, rfl⟩ := Nat.exists_eq_add_of_le' large
  rw [shiftFactor_add_width, Nat.add_sub_cancel, pow_add]
  rcases Nat.lt_or_ge excess 31 with small | top
  · refine ⟨1 - 2 ^ 32, ⟨2 ^ 31, 1, by norm_num⟩, ?_⟩
    rw [shiftFactor_of_small (by omega)]
    ring
  · have last : excess = 31 := by omega
    subst last
    exact ⟨-1 - 2 ^ 32, ⟨-2 ^ 31, -1, by norm_num⟩, by decide⟩

/-- A product with a power of two and an odd number vanishes with its other factor. -/
theorem dvd_mul_pow_mul_odd_iff
    {exponent : Nat}
    {odd : Int}
    (value : Int)
    (bounded : exponent ≤ 64)
    (coprime : IsCoprime (2 : Int) odd) :
    2 ^ 64 ∣ value * (2 ^ exponent * odd) ↔
      2 ^ (64 - exponent) ∣ value := by
  have regroup :
      value * (2 ^ exponent * odd) = value * 2 ^ exponent * odd := by
    ring
  have split : (2 : Int) ^ 64 = 2 ^ (64 - exponent) * 2 ^ exponent := by
    rw [← pow_add]
    congr 1
    omega
  have drop :
      2 ^ 64 ∣ value * 2 ^ exponent * odd ↔ 2 ^ 64 ∣ value * 2 ^ exponent :=
    ⟨coprime.pow_left.dvd_of_dvd_mul_right, fun divides => divides.mul_right odd⟩
  rw [regroup, drop, split]
  exact Int.mul_dvd_mul_iff_right (by positivity)

/-- When the error of the factor makes no difference modulo the word. -/
theorem dvd_mul_error_iff
    {count : Nat}
    (value : Int)
    (permitted : count < 64) :
    2 ^ 64 ∣ value * (shiftFactor count - 2 ^ count) ↔
      count ≤ 30 ∨
        (count = 31 ∧ 2 ^ 32 ∣ value) ∨
        (32 ≤ count ∧ 2 ^ (96 - count) ∣ value) := by
  rcases Nat.lt_or_ge count 31 with small | notSmall
  · rw [shiftFactor_of_small (Nat.le_of_lt_succ small), sub_self, mul_zero]
    exact iff_of_true (dvd_zero _) (.inl (Nat.le_of_lt_succ small))
  rcases Nat.lt_or_ge count 32 with sign | large
  · have count_eq : count = 31 := by omega
    have error : shiftFactor (31 : Nat) - 2 ^ 31 = 2 ^ 32 * (-1) := by
      decide
    rw [count_eq, error,
      dvd_mul_pow_mul_odd_iff _ (by decide) ⟨1, 1, by norm_num⟩]
    simp
  · obtain ⟨odd, coprime, error⟩ := shiftFactor_of_large large permitted
    have exponent : 64 - (count - 32) = 96 - count := by omega
    rw [error, dvd_mul_pow_mul_odd_iff _ (by omega) coprime, exponent]
    constructor
    · exact fun divides => .inr (.inr ⟨large, divides⟩)
    · rintro (small | ⟨sign, -⟩ | ⟨-, divides⟩)
      · omega
      · omega
      · exact divides

end Factors

namespace LeftShift

variable (shift : LeftShift)

/-- A shift leaves its left operand times the factor. -/
theorem result?_eq :
    shift.result? =
      some (shift.left.mulConst (StackElem.shiftFactor shift.right.concrete)) := by
  rfl

/-- The expression of the count does not matter. -/
theorem withRight_apply (expr : Option SymbolicExpr) :
    (shift.withRight expr).apply = shift.apply := by
  rfl

/-- The count as the machine sees it. -/
theorem count_cast :
    (shift.count : Value) = shift.right.concrete := by
  exact Int.toNat_of_nonneg shift.permitted.1

theorem count_lt : shift.count < 64 := by
  have bound := shift.permitted.2
  rw [← shift.count_cast] at bound
  exact_mod_cast bound

/-- A shift is exact where the error of its factor vanishes modulo the word. -/
theorem isExact_iff_dvd (assignment : Var → Value) :
    shift.IsExact assignment ↔
      2 ^ 64 ∣
        shift.left.eval assignment *
          (StackElem.shiftFactor shift.count - 2 ^ shift.count) := by
  have value_iff (e : SymbolicExpr) :
      shift.result? = some e ↔
        e = shift.left.mulConst (StackElem.shiftFactor shift.count) := by
    rw [shift.result?_eq, shift.count_cast, Option.some_inj, eq_comm]
  constructor
  · rintro ⟨⟨e, left, congruent⟩, -⟩
    rw [(value_iff e).mp left, SymbolicExpr.eval_mulConst, mul_comm]
      at congruent
    rw [mul_sub]
    exact congruent.symm.dvd
  · intro divides
    refine ⟨⟨_, (value_iff _).mpr rfl, ?_⟩, shift.withRight_apply⟩
    rw [SymbolicExpr.eval_mulConst, mul_comm]
    rw [mul_sub] at divides
    exact (Int.modEq_iff_dvd.mpr divides).symm

/--
The left shift of a symbolic operand is exact for counts up to 30; beyond that
it is exact only for the values whose low bits hide the error of the factor.
-/
theorem isExact_iff (assignment : Var → Value) :
    shift.IsExact assignment ↔
      shift.count ≤ 30 ∨
        (shift.count = 31 ∧ 2 ^ 32 ∣ shift.left.eval assignment) ∨
        (32 ≤ shift.count ∧
          2 ^ (96 - shift.count) ∣ shift.left.eval assignment) := by
  rw [shift.isExact_iff_dvd]
  exact dvd_mul_error_iff _ shift.count_lt

/-- An input shifted by the width of an `int`. -/
def wordShift : LeftShift where
  si := .fresh [] 0 0 0 1
  left := .ofTerm 1 0
  leftValue := 1
  right := { expr := none, concrete := 32 }
  rest := []
  value := 2 ^ 32
  permitted := by decide

/-- The shift by 32 leaves the input itself. -/
theorem wordShift_not_exact :
    ¬ wordShift.IsExact fun _ => 1 := by
  rw [isExact_iff_dvd]
  decide

end LeftShift

end Compi
