import Mathlib.Algebra.Ring.Int.Defs
import Mathlib.Algebra.Ring.Nat
import Mathlib.Data.Int.Basic
import Mathlib.Order.Basic

/-!
# Basic types

The scalar types shared by the interpreter in the target and by the search in
the driver, with their operator enumerations and the conversion of a value to
a C type.

`value_t` is a signed 64-bit type, and signed overflow has no meaning in C++:
an execution whose arithmetic is defined computes exactly these integers, so
a `Value` is an integer.  Where the source converts or shifts on purpose, the
width is explicit.  The operators on expressions have a second form in the
arithmetic of the machine, which agrees as long as nothing overflows.
-/

namespace Compi

/-- `value_t`: a concrete value of the program under test. -/
abbrev Value := Int

/-- `addr_t`: an address in the program under test. -/
abbrev Addr := Nat

/-- `var_t`: the index of a marked variable, in marking order. -/
abbrev Var := Nat

/-- `id_t`: a signed 32-bit identifier. -/
abbrev Id := Int

/-- `branch_id_t`: a branch, or a virtual identifier of a call or return. -/
abbrev BranchId := Int

/-- `function_id_t`: a function of the program under test. -/
abbrev FunctionId := Nat

/-- The virtual branch identifier of a function call. -/
def kCallId : BranchId := -1

/-- The virtual branch identifier of a function return. -/
def kReturnId : BranchId := -2

/-- Conversion of an integer to a signed type of the given width. -/
def toSigned (bits : Nat) (value : Int) : Int :=
  value.bmod (2 ^ bits)

/-- Conversion of an integer to an unsigned type of the given width. -/
def toUnsigned (bits : Nat) (value : Int) : Int :=
  value % 2 ^ bits

/-- `branch_state_t`: the outcome reported with a branch. -/
inductive BranchState where
  | true
  | false
  deriving Repr, DecidableEq

/-- `compare_op_t`. -/
inductive CompareOp where
  | eq
  | neq
  | gt
  | le
  | lt
  | ge
  deriving Repr, DecidableEq

namespace CompareOp

/-- The numeric code of a comparison. -/
def code : CompareOp → Nat
  | eq => 0
  | neq => 1
  | gt => 2
  | le => 3
  | lt => 4
  | ge => 5

/--
The comparison with a numeric code.  A cast of any other number to the
enumeration has no specified value; the model gives it the first one.
-/
def ofCode : Nat → CompareOp
  | 0 => eq
  | 1 => neq
  | 2 => gt
  | 3 => le
  | 4 => lt
  | 5 => ge
  | _ => eq

@[simp] theorem ofCode_code (op : CompareOp) :
    ofCode op.code = op := by
  cases op <;> rfl

/-- Whether `value` compares to zero as the operator says. -/
def holdsOf (op : CompareOp) (value : Value) : Bool :=
  match op with
  | eq => decide (value = 0)
  | neq => decide (value ≠ 0)
  | gt => decide (value > 0)
  | le => decide (value ≤ 0)
  | lt => decide (value < 0)
  | ge => decide (value ≥ 0)

end CompareOp

/-- `NegateCompareOp`: flip the lowest bit of the operator's code. -/
def negateCompareOp (op : CompareOp) : CompareOp :=
  CompareOp.ofCode (op.code ^^^ 1)

/-- Flipping the lowest bit of the code negates the comparison. -/
@[simp] theorem holdsOf_negateCompareOp
    (op : CompareOp)
    (value : Value) :
    (negateCompareOp op).holdsOf value = !op.holdsOf value := by
  rw [Bool.eq_iff_iff]
  cases op <;>
    simp [negateCompareOp, CompareOp.code, CompareOp.ofCode,
      CompareOp.holdsOf]

/-- Negating a comparison twice restores it. -/
@[simp] theorem negateCompareOp_negateCompareOp (op : CompareOp) :
    negateCompareOp (negateCompareOp op) = op := by
  cases op <;> rfl

/-- `binary_op_t`. -/
inductive BinaryOp where
  | add
  | subtract
  | multiply
  | shiftL
  | concrete
  deriving Repr, DecidableEq

/-- `unary_op_t`. -/
inductive UnaryOp where
  | negate
  | logicalNot
  | bitwiseNot
  deriving Repr, DecidableEq

/-- `type_t`: the C numeric types of marked variables. -/
inductive CType where
  | uChar
  | char
  | uShort
  | short
  | uInt
  | int
  | uLong
  | long
  | uLongLong
  | longLong
  deriving Repr, DecidableEq

namespace CType

/-- The numeric code of a type. -/
def code : CType → Nat
  | uChar => 0
  | char => 1
  | uShort => 2
  | short => 3
  | uInt => 4
  | int => 5
  | uLong => 6
  | long => 7
  | uLongLong => 8
  | longLong => 9

/-- The type with a numeric code; other codes have no specified value. -/
def ofCode : Nat → CType
  | 0 => uChar
  | 1 => char
  | 2 => uShort
  | 3 => short
  | 4 => uInt
  | 5 => int
  | 6 => uLong
  | 7 => long
  | 8 => uLongLong
  | 9 => longLong
  | _ => uChar

@[simp] theorem ofCode_code (type : CType) :
    ofCode type.code = type := by
  cases type <;> rfl

/-- `kMinValueStr`: the lower bound the solver asserts for a variable. -/
def minValue : CType → Value
  | uChar => 0
  | char => -128
  | uShort => 0
  | short => -32768
  | uInt => 0
  | int => -2147483648
  | uLong => 0
  | long => -2147483648
  | uLongLong => 0
  | longLong => -9223372036854775808

/-- `kMaxValueStr`: the upper bound the solver asserts for a variable. -/
def maxValue : CType → Value
  | uChar => 255
  | char => 127
  | uShort => 65535
  | short => 32767
  | uInt => 4294967295
  | int => 2147483647
  | uLong => 4294967295
  | long => 2147483647
  | uLongLong => 18446744073709551615
  | longLong => 9223372036854775807

/-- A value lies between the bounds the solver asserts for its type. -/
def InRange (type : CType) (value : Value) : Prop :=
  type.minValue ≤ value ∧ value ≤ type.maxValue

instance (type : CType) (value : Value) : Decidable (type.InRange value) :=
  inferInstanceAs (Decidable (_ ∧ _))

end CType

/--
`CastTo`: convert a value to a C type and back to `value_t`.  A `long` has 64
bits in the target, so the last four conversions change nothing.
-/
def castTo (value : Value) : CType → Value
  | .uChar => toUnsigned 8 value
  | .char => toSigned 8 value
  | .uShort => toUnsigned 16 value
  | .short => toSigned 16 value
  | .uInt => toUnsigned 32 value
  | .int => toSigned 32 value
  | .uLong => value
  | .long => value
  | .uLongLong => value
  | .longLong => value

end Compi
