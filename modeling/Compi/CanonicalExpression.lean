import Compi.SymbolicExpression

/-!
# Canonical expressions

An expression that is built by the constructors and the operators stores no
coefficient that is zero.  Such an expression is determined by its values, so
comparing the stored data compares the values.
-/

namespace Compi

namespace SymbolicExpr

/-- `operator==`. -/
def equal (e other : SymbolicExpr) : Bool :=
  decide (e.const = other.const) && decide (e.coeff = other.coeff)

@[simp] theorem equal_iff {e other : SymbolicExpr} :
    e.equal other = true ↔ e = other := by
  cases e
  cases other
  simp [equal]

/-- No stored coefficient is zero. -/
def Canonical (e : SymbolicExpr) : Prop :=
  ∀ v : Var, e.coeff[v]? ≠ some 0

section Operators

variable {e other : SymbolicExpr} {c : Value} {v : Var}

theorem canonical_ofConst (c : Value) : (ofConst c).Canonical := by
  intro v
  simp [ofConst]

/-- A term is canonical unless its coefficient is zero. -/
theorem canonical_ofTerm
    (nonzero : c ≠ 0)
    (v : Var) :
    (ofTerm c v).Canonical := by
  intro w
  rw [ofTerm, Std.ExtTreeMap.getElem?_insert]
  split
  · simpa using nonzero
  · simp

/-- A change of every coefficient that makes none zero. -/
theorem canonical_map
    {f : Value → Value}
    (nonzero : ∀ d, d ≠ 0 → f d ≠ 0)
    (canonical : e.Canonical)
    (v : Var) :
    (e.coeff.map fun _ d => f d)[v]? ≠ some 0 := by
  rw [Std.ExtTreeMap.getElem?_map]
  intro isZero
  obtain ⟨d, stored, becomesZero⟩ := Option.map_eq_some_iff.mp isZero
  apply nonzero d ?_ becomesZero
  rintro rfl
  exact canonical v stored

theorem Canonical.negate (canonical : e.Canonical) : e.negate.Canonical :=
  canonical_map (fun _ nonzero => neg_ne_zero.mpr nonzero) canonical

theorem Canonical.addConst
    (canonical : e.Canonical)
    (c : Value) :
    (e.addConst c).Canonical :=
  canonical

theorem Canonical.subConst
    (canonical : e.Canonical)
    (c : Value) :
    (e.subConst c).Canonical :=
  canonical

theorem Canonical.mulConst
    (canonical : e.Canonical)
    (c : Value) :
    (e.mulConst c).Canonical := by
  unfold SymbolicExpr.mulConst
  split
  · exact canonical_ofConst 0
  · next factor =>
      exact
        canonical_map (fun _ nonzero => mul_ne_zero nonzero factor) canonical

/-- Combining two maps of coefficients drops what becomes zero. -/
theorem canonical_combined
    {single : Value → Value}
    {combine : Value → Value → Value}
    (nonzero : ∀ d, d ≠ 0 → single d ≠ 0)
    (canonical : e.Canonical)
    (otherCanonical : other.Canonical)
    (query : Var) :
    (other.coeff.foldl
      (fun coeff w d =>
        match coeff[w]? with
        | none => coeff.insert w (single d)
        | some stored =>
            if combine stored d = 0 then
              coeff.erase w
            else
              coeff.insert w (combine stored d))
      e.coeff)[query]? ≠ some 0 := by
  let invariant : OrderedMap Var Value → Prop := fun coeff =>
    ∀ v : Var, coeff[v]? ≠ some 0
  have insert
      {coeff : OrderedMap Var Value}
      {w : Var}
      {d : Value}
      (stored : invariant coeff)
      (isNew : d ≠ 0) :
      invariant (coeff.insert w d) := by
    intro v
    rw [Std.ExtTreeMap.getElem?_insert]
    split
    · simpa using isNew
    · exact stored v
  have combined :
      invariant
        (other.coeff.foldl
          (fun coeff w d =>
            match coeff[w]? with
            | none => coeff.insert w (single d)
            | some stored =>
                if combine stored d = 0 then
                  coeff.erase w
                else
                  coeff.insert w (combine stored d))
          e.coeff) := by
    apply OrderedMap.foldl_invariant invariant ?_ canonical
    intro coeff w d found stored
    have present : d ≠ 0 := by
      rintro rfl
      exact otherCanonical w found
    split
    · exact insert stored (nonzero d present)
    · split
      · intro v
        rw [Std.ExtTreeMap.getElem?_erase]
        split
        · simp
        · exact stored v
      · next differs => exact insert stored differs
  exact combined query

theorem Canonical.addAssign
    (canonical : e.Canonical)
    (otherCanonical : other.Canonical) :
    (e.addAssign other).Canonical :=
  canonical_combined (fun _ nonzero => nonzero) canonical otherCanonical

theorem Canonical.subAssign
    (canonical : e.Canonical)
    (otherCanonical : other.Canonical) :
    (e.subAssign other).Canonical :=
  canonical_combined (fun _ nonzero => neg_ne_zero.mpr nonzero) canonical
    otherCanonical

end Operators

section Values

variable {e other : SymbolicExpr}

/-- A canonical expression stores the coefficients of its form. -/
theorem Canonical.getElem?_coeff
    (canonical : e.Canonical)
    (v : Var) :
    e.coeff[v]? =
      if e.toAffine.2 v = 0 then none else some (e.toAffine.2 v) := by
  have isCoefficient : e.toAffine.2 v = (e.coeff[v]?).getD 0 :=
    Std.ExtTreeMap.getD_eq_getD_getElem?
  cases stored : e.coeff[v]? with
  | none =>
      rw [isCoefficient, stored]
      rfl
  | some d =>
      have nonzero : d ≠ 0 := by
        rintro rfl
        exact canonical v stored
      rw [isCoefficient, stored, Option.getD_some, if_neg nonzero]

/-- Canonical expressions of the same form store the same data. -/
theorem Canonical.eq_of_toAffine
    (canonical : e.Canonical)
    (otherCanonical : other.Canonical)
    (same : e.toAffine = other.toAffine) :
    e = other := by
  have sameConst : e.const = other.const :=
    congrArg Prod.fst same
  have sameCoeff : e.coeff = other.coeff := by
    apply Std.ExtTreeMap.ext_getElem?
    intro v
    rw [canonical.getElem?_coeff, otherCanonical.getElem?_coeff, same]
  cases e
  cases other
  congr

/-- Canonical expressions are equal exactly if their values are. -/
theorem Canonical.eq_iff_eval
    (canonical : e.Canonical)
    (otherCanonical : other.Canonical) :
    e = other ↔
      ∀ assignment, e.eval assignment = other.eval assignment := by
  constructor
  · rintro rfl _
    rfl
  · intro same
    apply canonical.eq_of_toAffine otherCanonical
    rw [AffineForm.eq_iff_eval]
    intro assignment
    rw [← eval_eq_affine, ← eval_eq_affine]
    exact same assignment

/-- A canonical expression is concrete exactly if its value does not vary. -/
theorem Canonical.isConcrete_iff
    (canonical : e.Canonical) :
    e.isConcrete = true ↔
      ∀ assignment another, e.eval assignment = e.eval another := by
  have noTerms : e.isConcrete = true ↔ e.toAffine.2 = 0 := by
    rw [isConcrete, Std.ExtTreeMap.isEmpty_iff]
    constructor
    · intro empty
      apply Finsupp.ext
      intro v
      show e.coeff.getD v 0 = 0
      rw [empty]
      simp
    · intro zero
      apply Std.ExtTreeMap.ext_getElem?
      intro v
      rw [canonical.getElem?_coeff, zero]
      simp
  rw [noTerms, AffineForm.terms_eq_zero_iff_eval]
  simp only [eval_eq_affine]

end Values

/-- How an expression is built; the operand of an operator is another one. -/
inductive Construction where
  | ofConst (c : Value)
  | ofVar (v : Var)
  | negate (built : Construction)
  | addAssign (built operand : Construction)
  | subAssign (built operand : Construction)
  | addConst (built : Construction) (c : Value)
  | subConst (built : Construction) (c : Value)
  | mulConst (built : Construction) (c : Value)

namespace Construction

/-- The expression that is built. -/
def build : Construction → SymbolicExpr
  | .ofConst c => SymbolicExpr.ofConst c
  | .ofVar v => ofTerm 1 v
  | .negate built => built.build.negate
  | .addAssign built operand => built.build.addAssign operand.build
  | .subAssign built operand => built.build.subAssign operand.build
  | .addConst built c => built.build.addConst c
  | .subConst built c => built.build.subConst c
  | .mulConst built c => built.build.mulConst c

/-- The arithmetic that the operators stand for. -/
def value (assignment : Var → Value) : Construction → Value
  | .ofConst c => c
  | .ofVar v => assignment v
  | .negate built => -built.value assignment
  | .addAssign built operand =>
      built.value assignment + operand.value assignment
  | .subAssign built operand =>
      built.value assignment - operand.value assignment
  | .addConst built c => built.value assignment + c
  | .subConst built c => built.value assignment - c
  | .mulConst built c => built.value assignment * c

theorem canonical (construction : Construction) :
    construction.build.Canonical := by
  induction construction with
  | ofConst c => exact canonical_ofConst c
  | ofVar v => exact canonical_ofTerm one_ne_zero v
  | negate built hypothesis => exact hypothesis.negate
  | addAssign built operand hypothesis operandHypothesis =>
      exact hypothesis.addAssign operandHypothesis
  | subAssign built operand hypothesis operandHypothesis =>
      exact hypothesis.subAssign operandHypothesis
  | addConst built c hypothesis => exact hypothesis.addConst c
  | subConst built c hypothesis => exact hypothesis.subConst c
  | mulConst built c hypothesis => exact hypothesis.mulConst c

theorem eval_build
    (construction : Construction)
    (assignment : Var → Value) :
    construction.build.eval assignment = construction.value assignment := by
  induction construction with
  | ofConst c => simp [build, value]
  | ofVar v => simp [build, value]
  | negate built hypothesis => simp [build, value, hypothesis]
  | addAssign built operand hypothesis operandHypothesis =>
      simp [build, value, hypothesis, operandHypothesis]
  | subAssign built operand hypothesis operandHypothesis =>
      simp [build, value, hypothesis, operandHypothesis]
  | addConst built c hypothesis => simp [build, value, hypothesis]
  | subConst built c hypothesis => simp [build, value, hypothesis]
  | mulConst built c hypothesis =>
      simp [build, value, hypothesis, mul_comm]

/--
A built expression stores no zero, has the value of its construction, and is
determined by that value.
-/
theorem build_canonical (construction : Construction) :
    construction.build.Canonical ∧
      (∀ assignment,
        construction.build.eval assignment =
          construction.value assignment) ∧
      (∀ another : Construction,
        construction.build.equal another.build = true ↔
          ∀ assignment,
            construction.value assignment = another.value assignment) ∧
      (construction.build.isConcrete = true ↔
        ∀ assignment another,
          construction.value assignment = construction.value another) := by
  refine ⟨construction.canonical, construction.eval_build, ?_, ?_⟩
  · intro another
    rw [equal_iff,
      construction.canonical.eq_iff_eval another.canonical]
    simp only [eval_build]
  · rw [construction.canonical.isConcrete_iff]
    simp only [eval_build]

end Construction

end SymbolicExpr

end Compi
