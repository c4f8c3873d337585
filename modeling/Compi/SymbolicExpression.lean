import Compi.AffineForm
import Compi.BasicTypes
import Compi.OrderedMap

/-!
# Symbolic expressions

A symbolic expression is a constant and a map from marked variables to
coefficients, updated in place by the arithmetic operators.  Each operator is
the corresponding operation of affine forms, which gives its effect on the
value of the expression.
-/

namespace Compi

/-- `SymbolicExpr`: `const_` plus the terms of `coeff_`. -/
structure SymbolicExpr where
  const : Value
  coeff : OrderedMap Var Value
  deriving DecidableEq

namespace SymbolicExpr

/-- `SymbolicExpr(c)`: the constant expression. -/
def ofConst (c : Value) : SymbolicExpr where
  const := c
  coeff := ∅

/-- `SymbolicExpr(c, v)`: the single term `c * v`. -/
def ofTerm (c : Value) (v : Var) : SymbolicExpr where
  const := 0
  coeff := (∅ : OrderedMap Var Value).insert v c

/-- `Negate`. -/
def negate (e : SymbolicExpr) : SymbolicExpr where
  const := -e.const
  coeff := e.coeff.map fun _ c => -c

/-- `IsConcrete`: no variable occurs. -/
def isConcrete (e : SymbolicExpr) : Bool :=
  e.coeff.isEmpty

/-- `AppendVars`: the variables that occur, in increasing order. -/
def vars (e : SymbolicExpr) : List Var :=
  e.coeff.keys

/-- `DependsOn`: some variable of the expression is a key of `vars`. -/
def dependsOn
    (e : SymbolicExpr)
    (among : OrderedMap Var CType) : Bool :=
  e.vars.any fun v => decide (v ∈ among)

/-- `operator+=` with an expression: a sum of zero erases its variable. -/
def addAssign (e other : SymbolicExpr) : SymbolicExpr where
  const := e.const + other.const
  coeff :=
    other.coeff.foldl
      (fun coeff v c =>
        match coeff[v]? with
        | none => coeff.insert v c
        | some d =>
            if d + c = 0 then coeff.erase v else coeff.insert v (d + c))
      e.coeff

/-- `operator-=` with an expression. -/
def subAssign (e other : SymbolicExpr) : SymbolicExpr where
  const := e.const - other.const
  coeff :=
    other.coeff.foldl
      (fun coeff v c =>
        match coeff[v]? with
        | none => coeff.insert v (-c)
        | some d =>
            if d - c = 0 then coeff.erase v else coeff.insert v (d - c))
      e.coeff

/-- `operator+=` with a constant. -/
def addConst (e : SymbolicExpr) (c : Value) : SymbolicExpr :=
  { e with const := e.const + c }

/-- `operator-=` with a constant. -/
def subConst (e : SymbolicExpr) (c : Value) : SymbolicExpr :=
  { e with const := e.const - c }

/-- `operator*=` with a constant: multiplying by zero drops every term. -/
def mulConst (e : SymbolicExpr) (c : Value) : SymbolicExpr :=
  if c = 0 then
    { const := 0, coeff := ∅ }
  else
    { const := e.const * c, coeff := e.coeff.map fun _ d => d * c }

/-- The value of an expression under an assignment of the variables. -/
def eval (e : SymbolicExpr) (assignment : Var → Value) : Value :=
  e.const +
    (e.coeff.toList.map fun term => term.2 * assignment term.1).sum

section AffineMeaning

/-- The affine form an expression represents. -/
def toAffine (e : SymbolicExpr) : AffineForm Value Var :=
  (e.const, OrderedMap.toFinsupp e.coeff)

/-- Evaluation is evaluation of the represented affine form. -/
theorem eval_eq_affine
    (e : SymbolicExpr)
    (assignment : Var → Value) :
    e.eval assignment = AffineForm.eval assignment e.toAffine := by
  rw [AffineForm.eval_apply]
  exact congrArg (e.const + ·)
    (OrderedMap.sum_toList e.coeff
      (fun v c => c * assignment v) (by simp))

/-- Two expressions represent the same form when their data agree. -/
theorem toAffine_eq_iff {e : SymbolicExpr} {form : AffineForm Value Var} :
    e.toAffine = form ↔
      e.const = form.1 ∧ ∀ v, e.coeff.getD v 0 = form.2 v := by
  constructor
  · rintro rfl
    exact ⟨rfl, fun v => rfl⟩
  · rintro ⟨sameConst, sameCoeff⟩
    exact Prod.ext sameConst (Finsupp.ext sameCoeff)

@[simp] theorem toAffine_ofConst (c : Value) :
    (ofConst c).toAffine = AffineForm.ofConst c := by
  simp [toAffine_eq_iff, ofConst, AffineForm.ofConst]

@[simp] theorem toAffine_ofTerm (c : Value) (v : Var) :
    (ofTerm c v).toAffine = AffineForm.ofTerm c v := by
  simp [toAffine_eq_iff, ofTerm, AffineForm.ofTerm,
    Std.ExtTreeMap.getD_insert, Finsupp.single_apply]

private theorem getD_map
    {f : Value → Value}
    (preservesZero : f 0 = 0)
    (coeff : OrderedMap Var Value)
    (v : Var) :
    (coeff.map fun _ c => f c).getD v 0 = f (coeff.getD v 0) := by
  simp only [Std.ExtTreeMap.getD_eq_getD_getElem?,
    Std.ExtTreeMap.getElem?_map]
  cases coeff[v]? <;> simp [preservesZero]

@[simp] theorem toAffine_negate (e : SymbolicExpr) :
    e.negate.toAffine = -e.toAffine := by
  refine toAffine_eq_iff.mpr ⟨rfl, fun v => ?_⟩
  exact getD_map (f := fun c => -c) (by simp) e.coeff v

/-- Adding to the coefficient of a variable; a sum that is zero is removed. -/
theorem getD_combine
    (coeff : OrderedMap Var Value)
    (w : Var)
    {added : Value}
    {sum : Value → Value}
    (isSum : ∀ d, sum d = d + added)
    (query : Var) :
    (match coeff[w]? with
        | none => coeff.insert w added
        | some d =>
            if sum d = 0 then
              coeff.erase w
            else
              coeff.insert w (sum d)).getD query 0 =
      coeff.getD query 0 + if w = query then added else 0 := by
  by_cases same : w = query
  · subst query
    cases found : coeff[w]? with
    | none =>
        simp [Std.ExtTreeMap.getD_eq_getD_getElem?, found]
    | some d =>
        by_cases cancels : d + added = 0 <;>
          simp [Std.ExtTreeMap.getD_eq_getD_getElem?, found, isSum, cancels]
  · cases coeff[w]? with
    | none =>
        simp [Std.ExtTreeMap.getD_insert, same]
    | some d =>
        by_cases cancels : sum d = 0 <;>
          simp [Std.ExtTreeMap.getD_insert, Std.ExtTreeMap.getD_erase,
            same, cancels]

@[simp] theorem toAffine_addAssign (e other : SymbolicExpr) :
    (e.addAssign other).toAffine = e.toAffine + other.toAffine := by
  refine toAffine_eq_iff.mpr ⟨rfl, fun v => ?_⟩
  refine OrderedMap.getD_foldl id rfl ?_ other.coeff e.coeff v
  intro coeff w c query
  exact getD_combine coeff w (fun _ => rfl) query

@[simp] theorem toAffine_subAssign (e other : SymbolicExpr) :
    (e.subAssign other).toAffine = e.toAffine - other.toAffine := by
  refine toAffine_eq_iff.mpr ⟨rfl, fun v => ?_⟩
  rw [show (e.toAffine - other.toAffine).2 v =
      e.coeff.getD v 0 + -other.coeff.getD v 0 from sub_eq_add_neg _ _]
  refine OrderedMap.getD_foldl Neg.neg rfl ?_
    other.coeff e.coeff v
  intro coeff w c query
  exact getD_combine coeff w (fun d => sub_eq_add_neg d c) query

@[simp] theorem toAffine_addConst (e : SymbolicExpr) (c : Value) :
    (e.addConst c).toAffine = e.toAffine + AffineForm.ofConst c := by
  simp [addConst, toAffine, AffineForm.ofConst]

@[simp] theorem toAffine_subConst (e : SymbolicExpr) (c : Value) :
    (e.subConst c).toAffine = e.toAffine - AffineForm.ofConst c := by
  simp [subConst, toAffine, AffineForm.ofConst]

@[simp] theorem toAffine_mulConst (e : SymbolicExpr) (c : Value) :
    (e.mulConst c).toAffine = c • e.toAffine := by
  by_cases zero : c = 0
  · simp [toAffine_eq_iff, mulConst, zero]
  · refine toAffine_eq_iff.mpr ⟨?_, fun v => ?_⟩
    · simp [mulConst, zero, toAffine, mul_comm]
    · simp only [mulConst, zero, ↓reduceIte]
      rw [getD_map (f := fun d => d * c) (by simp)]
      simp [toAffine, mul_comm]

end AffineMeaning

section Values

variable (assignment : Var → Value) (e other : SymbolicExpr) (c : Value)

@[simp] theorem eval_ofConst :
    (ofConst c).eval assignment = c := by
  simp [eval_eq_affine]

@[simp] theorem eval_ofTerm (v : Var) :
    (ofTerm c v).eval assignment = c * assignment v := by
  simp [eval_eq_affine]

@[simp] theorem eval_negate :
    e.negate.eval assignment = -e.eval assignment := by
  simp [eval_eq_affine]

@[simp] theorem eval_addAssign :
    (e.addAssign other).eval assignment =
      e.eval assignment + other.eval assignment := by
  simp [eval_eq_affine]

@[simp] theorem eval_subAssign :
    (e.subAssign other).eval assignment =
      e.eval assignment - other.eval assignment := by
  simp [eval_eq_affine]

@[simp] theorem eval_addConst :
    (e.addConst c).eval assignment = e.eval assignment + c := by
  simp [eval_eq_affine]

@[simp] theorem eval_subConst :
    (e.subConst c).eval assignment = e.eval assignment - c := by
  simp [eval_eq_affine]

@[simp] theorem eval_mulConst :
    (e.mulConst c).eval assignment = c * e.eval assignment := by
  simp [eval_eq_affine]

end Values

section Variables

/-- Every variable of the expression is below `bound`. -/
def VarsBelow (e : SymbolicExpr) (bound : Nat) : Prop :=
  ∀ v ∈ e.vars, v < bound

@[simp] theorem mem_vars {e : SymbolicExpr} {v : Var} :
    v ∈ e.vars ↔ v ∈ e.coeff :=
  Std.ExtTreeMap.mem_keys

variable {e other : SymbolicExpr} {bound : Nat}

theorem VarsBelow.mono
    {larger : Nat}
    (below : e.VarsBelow bound)
    (le : bound ≤ larger) :
    e.VarsBelow larger :=
  fun v member => lt_of_lt_of_le (below v member) le

theorem varsBelow_ofTerm
    {c : Value}
    {v : Var}
    (small : v < bound) :
    (ofTerm c v).VarsBelow bound := by
  intro w member
  have same : v = w := by
    simpa [ofTerm] using member
  exact same ▸ small

theorem VarsBelow.negate (below : e.VarsBelow bound) :
    e.negate.VarsBelow bound := by
  intro v member
  exact below v (by simpa [SymbolicExpr.negate] using member)

theorem VarsBelow.addConst
    (below : e.VarsBelow bound)
    (c : Value) :
    (e.addConst c).VarsBelow bound :=
  below

theorem VarsBelow.subConst
    (below : e.VarsBelow bound)
    (c : Value) :
    (e.subConst c).VarsBelow bound :=
  below

theorem VarsBelow.mulConst
    (below : e.VarsBelow bound)
    (c : Value) :
    (e.mulConst c).VarsBelow bound := by
  intro v member
  by_cases zero : c = 0
  · simp [SymbolicExpr.mulConst, zero] at member
  · exact below v
      (by simpa [SymbolicExpr.mulConst, zero] using member)

private theorem mem_of_mem_accumulated
    {combine : Value → Value → Value}
    {single : Value → Value}
    {left right : OrderedMap Var Value}
    {v : Var}
    (member :
      v ∈ right.foldl
        (fun coeff w c =>
          match coeff[w]? with
          | none => coeff.insert w (single c)
          | some d =>
              if combine d c = 0 then
                coeff.erase w
              else
                coeff.insert w (combine d c))
        left) :
    v ∈ left ∨ v ∈ right := by
  refine OrderedMap.mem_of_mem_foldl ?_ member
  intro coeff key value query present
  split at present
  · exact OrderedMap.mem_or_eq_of_mem_insert present
  · split at present
    · exact Or.inl (Std.ExtTreeMap.mem_of_mem_erase present)
    · exact OrderedMap.mem_or_eq_of_mem_insert present

theorem VarsBelow.addAssign
    (below : e.VarsBelow bound)
    (otherBelow : other.VarsBelow bound) :
    (e.addAssign other).VarsBelow bound := by
  intro v member
  rcases mem_of_mem_accumulated (mem_vars.mp member) with own | added
  · exact below v (mem_vars.mpr own)
  · exact otherBelow v (mem_vars.mpr added)

theorem VarsBelow.subAssign
    (below : e.VarsBelow bound)
    (otherBelow : other.VarsBelow bound) :
    (e.subAssign other).VarsBelow bound := by
  intro v member
  rcases mem_of_mem_accumulated (mem_vars.mp member) with own | added
  · exact below v (mem_vars.mpr own)
  · exact otherBelow v (mem_vars.mpr added)

end Variables

/-- The value depends only on the variables that occur. -/
theorem eval_congr
    {e : SymbolicExpr}
    {left right : Var → Value}
    (agree : ∀ v ∈ e.vars, left v = right v) :
    e.eval left = e.eval right := by
  rw [eval_eq_affine, eval_eq_affine]
  refine AffineForm.eval_congr fun v member => agree v ?_
  have nonzero : e.coeff.getD v 0 ≠ 0 := Finsupp.mem_support_iff.mp member
  refine Std.ExtTreeMap.mem_keys.mpr ?_
  by_contra absent
  exact nonzero (Std.ExtTreeMap.getD_eq_fallback absent)

end SymbolicExpr

end Compi
