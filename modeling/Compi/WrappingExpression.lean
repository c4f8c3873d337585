import Compi.SymbolicExpression
import Mathlib.Data.ZMod.Basic
import Mathlib.GroupTheory.GroupAction.Ring

/-!
# Symbolic expressions in the arithmetic of the machine

The constant and the coefficients of an expression are of `value_t`, and an
operation on them keeps the last 64 bits of its result.  The operators compute
the exact expression as long as it fits, and one with the same values modulo
`2 ^ 64` in any case.
-/

namespace Compi

/-- What the machine keeps of a result of type `value_t`. -/
def wrap (result : Int) : Value :=
  toSigned 64 result

/-- A result that `value_t` holds. -/
def FitsValue (result : Int) : Prop :=
  CType.longLong.InRange result

instance (result : Int) : Decidable (FitsValue result) :=
  inferInstanceAs (Decidable (CType.longLong.InRange result))

theorem wrap_of_fits
    {result : Int}
    (fits : FitsValue result) :
    wrap result = result :=
  Int.bmod_eq_of_le fits.1 (Int.lt_add_one_of_le fits.2)

@[simp] theorem wrap_zero : wrap 0 = 0 :=
  rfl

theorem wrap_wrap_add (result added : Int) :
    wrap (wrap result + added) = wrap (result + added) :=
  Int.bmod_add_bmod

/-- The values of `value_t` modulo `2 ^ 64`. -/
abbrev Residue : Type :=
  ZMod (2 ^ 64)

/-- The machine keeps a result modulo `2 ^ 64`. -/
@[simp] theorem cast_wrap (result : Int) :
    ((wrap result : Int) : Residue) = result :=
  (ZMod.intCast_eq_intCast_iff _ _ _).mpr Int.bmod_emod

namespace SymbolicExpr

section Operators

variable (e other : SymbolicExpr) (c : Value)

/-- The entries of another map combined into a map of coefficients. -/
def combineCoeff
    (single : Value → Value)
    (combine : Value → Value → Value)
    (coeff added : OrderedMap Var Value) : OrderedMap Var Value :=
  added.foldl
    (fun coeff v c =>
      match coeff[v]? with
      | none => coeff.insert v (single c)
      | some d =>
          if combine d c = 0 then
            coeff.erase v
          else
            coeff.insert v (combine d c))
    coeff

/-- `Negate`. -/
def wrappingNegate : SymbolicExpr where
  const := wrap (-e.const)
  coeff := e.coeff.map fun _ d => wrap (-d)

/-- `operator+=` with an expression. -/
def wrappingAddAssign : SymbolicExpr where
  const := wrap (e.const + other.const)
  coeff := combineCoeff id (fun d c => wrap (d + c)) e.coeff other.coeff

/-- `operator-=` with an expression. -/
def wrappingSubAssign : SymbolicExpr where
  const := wrap (e.const - other.const)
  coeff :=
    combineCoeff (fun c => wrap (-c)) (fun d c => wrap (d - c)) e.coeff
      other.coeff

/-- `operator+=` with a constant. -/
def wrappingAddConst : SymbolicExpr :=
  { e with const := wrap (e.const + c) }

/-- `operator-=` with a constant. -/
def wrappingSubConst : SymbolicExpr :=
  { e with const := wrap (e.const - c) }

/-- `operator*=` with a constant: a coefficient that becomes zero stays. -/
def wrappingMulConst : SymbolicExpr :=
  if c = 0 then
    { const := 0, coeff := ∅ }
  else
    { const := wrap (e.const * c), coeff := e.coeff.map fun _ d => wrap (d * c) }

/-- The constant and the coefficients are values of `value_t`. -/
structure Fits : Prop where
  const : FitsValue e.const
  coeff : ∀ (v : Var) d, e.coeff[v]? = some d → FitsValue d

end Operators

instance (e : SymbolicExpr) : Decidable e.Fits :=
  decidable_of_iff
    (FitsValue e.const ∧ ∀ entry ∈ e.coeff.toList, FitsValue entry.2)
    ⟨fun fits => ⟨fits.1, OrderedMap.forall_getElem?_iff.mpr fits.2⟩,
      fun fits => ⟨fits.const, OrderedMap.forall_getElem?_iff.mp fits.coeff⟩⟩

section Coefficients

variable
  {single : Value → Value}
  {combine : Value → Value → Value}

/-- The coefficient of a variable in a combination. -/
theorem getElem?_combineCoeff
    (coeff added : OrderedMap Var Value)
    (v : Var) :
    (combineCoeff single combine coeff added)[v]? =
      match added[v]? with
      | none => coeff[v]?
      | some c =>
          match coeff[v]? with
          | none => some (single c)
          | some d => if combine d c = 0 then none else some (combine d c) := by
  let change (stored : Option Value) (c : Value) : Option Value :=
    match stored with
    | none => some (single c)
    | some d => if combine d c = 0 then none else some (combine d c)
  unfold combineCoeff
  rw [OrderedMap.getElem?_foldl change ?_ added coeff v]
  · cases added[v]? <;> rfl
  intro accumulated w c query
  by_cases same : w = query
  · subst query
    cases found : accumulated[w]? with
    | none =>
        simp [change]
    | some d =>
        by_cases cancels : combine d c = 0 <;> simp [change, cancels]
  · cases accumulated[w]? with
    | none =>
        simp [Std.ExtTreeMap.getElem?_insert, same]
    | some d =>
        by_cases cancels : combine d c = 0 <;>
          simp [Std.ExtTreeMap.getElem?_insert, Std.ExtTreeMap.getElem?_erase,
            same, cancels]

/-- A combination that fits is computed without a wrap. -/
theorem combineCoeff_wrap_eq
    {coeff added : OrderedMap Var Value}
    (fits :
      ∀ (v : Var) d,
        (combineCoeff single combine coeff added)[v]? = some d →
        FitsValue d)
    {wrappedSingle : Value → Value}
    (singleFits : ∀ c, FitsValue (single c) → wrappedSingle c = single c) :
    combineCoeff wrappedSingle (fun d c => wrap (combine d c)) coeff added =
      combineCoeff single combine coeff added := by
  refine Std.ExtTreeMap.ext_getElem? fun v => ?_
  have fitsHere := fits v
  rw [getElem?_combineCoeff] at fitsHere
  rw [getElem?_combineCoeff, getElem?_combineCoeff]
  cases isAdded : added[v]? with
  | none =>
      rfl
  | some c =>
      cases isOld : coeff[v]? with
      | none =>
          simp only [isAdded, isOld, Option.some.injEq, forall_eq'] at fitsHere
          simp only [singleFits c fitsHere]
      | some d =>
          by_cases cancels : combine d c = 0
          · simp [cancels, wrap_zero]
          · simp only [isAdded, isOld, if_neg cancels, Option.some.injEq,
              forall_eq'] at fitsHere
            simp only [wrap_of_fits fitsHere]

/-- A change of every coefficient that fits is made without a wrap. -/
theorem map_wrap_eq
    {coeff : OrderedMap Var Value}
    (fits :
      ∀ (v : Var) d,
        (coeff.map fun _ c => single c)[v]? = some d → FitsValue d) :
    (coeff.map fun _ c => wrap (single c)) = coeff.map fun _ c => single c := by
  refine Std.ExtTreeMap.ext_getElem? fun v => ?_
  have fitsHere := fits v
  rw [Std.ExtTreeMap.getElem?_map] at fitsHere ⊢
  rw [Std.ExtTreeMap.getElem?_map]
  cases found : coeff[v]? with
  | none =>
      rfl
  | some c =>
      simp only [found, Option.map_some, Option.some.injEq, forall_eq']
        at fitsHere
      simp only [Option.map_some, wrap_of_fits fitsHere]

end Coefficients

section Exactness

variable {e other : SymbolicExpr} {c : Value}

theorem wrappingNegate_eq (fits : e.negate.Fits) :
    e.wrappingNegate = e.negate :=
  congrArg₂ SymbolicExpr.mk (wrap_of_fits fits.const)
    (map_wrap_eq fits.coeff)

theorem wrappingAddAssign_eq (fits : (e.addAssign other).Fits) :
    e.wrappingAddAssign other = e.addAssign other :=
  congrArg₂ SymbolicExpr.mk (wrap_of_fits fits.const)
    (combineCoeff_wrap_eq fits.coeff fun _ _ => rfl)

theorem wrappingSubAssign_eq (fits : (e.subAssign other).Fits) :
    e.wrappingSubAssign other = e.subAssign other :=
  congrArg₂ SymbolicExpr.mk (wrap_of_fits fits.const)
    (combineCoeff_wrap_eq fits.coeff fun _ => wrap_of_fits)

theorem wrappingAddConst_eq (fits : (e.addConst c).Fits) :
    e.wrappingAddConst c = e.addConst c :=
  congrArg (SymbolicExpr.mk · e.coeff) (wrap_of_fits fits.const)

theorem wrappingSubConst_eq (fits : (e.subConst c).Fits) :
    e.wrappingSubConst c = e.subConst c :=
  congrArg (SymbolicExpr.mk · e.coeff) (wrap_of_fits fits.const)

theorem wrappingMulConst_eq (fits : (e.mulConst c).Fits) :
    e.wrappingMulConst c = e.mulConst c := by
  unfold wrappingMulConst
  unfold mulConst at fits ⊢
  split
  · rfl
  · next factor =>
      rw [if_neg factor] at fits
      exact
        congrArg₂ SymbolicExpr.mk (wrap_of_fits fits.const)
          (map_wrap_eq fits.coeff)

end Exactness

section Modulo

/-- The affine form that an expression represents modulo `2 ^ 64`. -/
noncomputable def toAffineModulo
    (e : SymbolicExpr) : AffineForm Residue Var :=
  (e.const, (OrderedMap.toFinsupp e.coeff).mapRange Int.cast Int.cast_zero)

/-- The value of an expression modulo `2 ^ 64`. -/
theorem cast_eval
    (e : SymbolicExpr)
    (assignment : Var → Value) :
    ((e.eval assignment : Int) : Residue) =
      AffineForm.eval (fun v => ((assignment v : Int) : Residue))
        e.toAffineModulo := by
  rw [eval_eq_affine, AffineForm.eval_apply, AffineForm.eval_apply,
    toAffineModulo, Finsupp.sum_mapRange_index (fun _ => zero_mul _),
    Int.cast_add, Finsupp.sum, Finsupp.sum, Int.cast_sum]
  refine congrArg _ (Finset.sum_congr rfl fun v _ => ?_)
  exact Int.cast_mul _ _

/-- Two expressions represent the same form modulo `2 ^ 64`. -/
theorem toAffineModulo_eq_iff
    {e : SymbolicExpr}
    {form : AffineForm Residue Var} :
    e.toAffineModulo = form ↔
      (e.const : Residue) = form.1 ∧
        ∀ v, ((e.coeff.getD v 0 : Int) : Residue) = form.2 v := by
  constructor
  · rintro rfl
    exact ⟨rfl, fun v => rfl⟩
  · rintro ⟨sameConst, sameCoeff⟩
    exact Prod.ext sameConst (Finsupp.ext sameCoeff)

/-- The coefficients of a combination modulo `2 ^ 64`. -/
theorem cast_getD_combineCoeff
    {single : Value → Value}
    {combine : Value → Value → Value}
    (change : Residue →+ Residue)
    (isSingle : ∀ c, (single c : Residue) = change c)
    (isSum : ∀ d c, (combine d c : Residue) = d + change c)
    (coeff added : OrderedMap Var Value)
    (v : Var) :
    (((combineCoeff single combine coeff added).getD v 0 : Int) :
        Residue) =
      coeff.getD v 0 + change (added.getD v 0 : Int) := by
  simp only [Std.ExtTreeMap.getD_eq_getD_getElem?, getElem?_combineCoeff]
  cases added[v]? with
  | none =>
      simp
  | some c =>
      cases coeff[v]? with
      | none =>
          simp [isSingle]
      | some d =>
          by_cases cancels : combine d c = 0
          · have isZero := isSum d c
            rw [cancels] at isZero
            simpa [cancels] using isZero
          · simp [cancels, isSum]

/-- The coefficients after a change of each modulo `2 ^ 64`. -/
theorem cast_getD_map
    {single : Value → Value}
    (change : Residue →+ Residue)
    (isSingle : ∀ c, (single c : Residue) = change c)
    (coeff : OrderedMap Var Value)
    (v : Var) :
    (((coeff.map fun _ c => single c).getD v 0 : Int) : Residue) =
      change (coeff.getD v 0 : Int) := by
  simp only [Std.ExtTreeMap.getD_eq_getD_getElem?, Std.ExtTreeMap.getElem?_map]
  cases coeff[v]? <;> simp [isSingle]

variable (e other : SymbolicExpr) (c : Value)

@[simp] theorem toAffineModulo_wrappingNegate :
    e.wrappingNegate.toAffineModulo = -e.toAffineModulo := by
  refine toAffineModulo_eq_iff.mpr ⟨by simp [wrappingNegate, toAffineModulo], ?_⟩
  exact cast_getD_map negAddMonoidHom (fun d => by simp) e.coeff

@[simp] theorem toAffineModulo_wrappingAddAssign :
    (e.wrappingAddAssign other).toAffineModulo =
      e.toAffineModulo + other.toAffineModulo := by
  refine
    toAffineModulo_eq_iff.mpr ⟨by simp [wrappingAddAssign, toAffineModulo], ?_⟩
  exact
    cast_getD_combineCoeff (AddMonoidHom.id _) (fun _ => rfl)
      (fun d c => by simp) e.coeff other.coeff

@[simp] theorem toAffineModulo_wrappingSubAssign :
    (e.wrappingSubAssign other).toAffineModulo =
      e.toAffineModulo - other.toAffineModulo := by
  refine
    toAffineModulo_eq_iff.mpr ⟨by simp [wrappingSubAssign, toAffineModulo], ?_⟩
  intro v
  rw [sub_eq_add_neg]
  exact
    cast_getD_combineCoeff negAddMonoidHom (fun d => by simp)
      (fun d c => by simp [sub_eq_add_neg]) e.coeff other.coeff v

@[simp] theorem toAffineModulo_wrappingAddConst :
    (e.wrappingAddConst c).toAffineModulo =
      e.toAffineModulo + AffineForm.ofConst (c : Residue) := by
  simp [wrappingAddConst, toAffineModulo, AffineForm.ofConst]

@[simp] theorem toAffineModulo_wrappingSubConst :
    (e.wrappingSubConst c).toAffineModulo =
      e.toAffineModulo - AffineForm.ofConst (c : Residue) := by
  simp [wrappingSubConst, toAffineModulo, AffineForm.ofConst]

@[simp] theorem toAffineModulo_wrappingMulConst :
    (e.wrappingMulConst c).toAffineModulo =
      (c : Residue) • e.toAffineModulo := by
  by_cases zero : c = 0
  · rw [toAffineModulo_eq_iff]
    simp [wrappingMulConst, zero]
  · refine toAffineModulo_eq_iff.mpr ⟨?_, fun v => ?_⟩
    · simp [wrappingMulConst, zero, toAffineModulo, mul_comm]
    · simp only [wrappingMulConst, zero, ↓reduceIte]
      exact
        cast_getD_map (AddMonoidHom.mulLeft (c : Residue))
          (fun d => by simp [mul_comm]) e.coeff v

end Modulo

section Variables

variable {e other : SymbolicExpr} {bound : Nat}

theorem VarsBelow.wrappingNegate (below : e.VarsBelow bound) :
    e.wrappingNegate.VarsBelow bound := by
  intro v member
  exact below v (by simpa [SymbolicExpr.wrappingNegate] using member)

theorem VarsBelow.wrappingMulConst
    (below : e.VarsBelow bound)
    (c : Value) :
    (e.wrappingMulConst c).VarsBelow bound := by
  intro v member
  by_cases zero : c = 0
  · simp [SymbolicExpr.wrappingMulConst, zero] at member
  · exact below v
      (by simpa [SymbolicExpr.wrappingMulConst, zero] using member)

/-- A variable of a combination is one of the combined maps. -/
theorem mem_of_mem_combineCoeff
    {single : Value → Value}
    {combine : Value → Value → Value}
    {coeff added : OrderedMap Var Value}
    {v : Var}
    (member : v ∈ combineCoeff single combine coeff added) :
    v ∈ coeff ∨ v ∈ added := by
  rw [Std.ExtTreeMap.mem_iff_isSome_getElem?, getElem?_combineCoeff] at member
  rw [Std.ExtTreeMap.mem_iff_isSome_getElem?,
    Std.ExtTreeMap.mem_iff_isSome_getElem?]
  cases isAdded : added[v]? with
  | none =>
      rw [isAdded] at member
      exact Or.inl member
  | some c =>
      exact Or.inr rfl

theorem VarsBelow.combineCoeff
    {single : Value → Value}
    {combine : Value → Value → Value}
    (below : e.VarsBelow bound)
    (otherBelow : other.VarsBelow bound)
    (const : Value) :
    VarsBelow
      { const := const
        coeff :=
          SymbolicExpr.combineCoeff single combine e.coeff other.coeff }
      bound := by
  intro v member
  rcases mem_of_mem_combineCoeff (mem_vars.mp member) with own | added
  · exact below v (mem_vars.mpr own)
  · exact otherBelow v (mem_vars.mpr added)

end Variables

end SymbolicExpr

end Compi
