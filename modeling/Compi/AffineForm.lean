import Mathlib.LinearAlgebra.Finsupp.LinearCombination
import Mathlib.LinearAlgebra.Prod
import Mathlib.Data.Finsupp.Order

/-!
# Affine forms

An affine form over variables `V` is a constant together with finitely many
nonzero coefficients.  Affine forms are a module, and evaluating one under an
assignment of the variables is a linear map, so the value of a sum, a
difference or a multiple of forms is computed by the map lemmas of Mathlib.
-/

namespace Compi

/-- A constant together with finitely many coefficients. -/
abbrev AffineForm (R V : Type) [CommRing R] : Type :=
  R × (V →₀ R)

namespace AffineForm

variable {R V : Type} [CommRing R]

/-- The value of a form under an assignment, as a linear map of the form. -/
noncomputable def eval (assignment : V → R) : AffineForm R V →ₗ[R] R :=
  LinearMap.coprod LinearMap.id (Finsupp.linearCombination R assignment)

/-- The form that is the constant `c`. -/
def ofConst (c : R) : AffineForm R V :=
  (c, 0)

/-- The form `c * v`. -/
noncomputable def ofTerm (c : R) (v : V) : AffineForm R V :=
  (0, Finsupp.single v c)

theorem eval_apply
    (assignment : V → R)
    (form : AffineForm R V) :
    eval assignment form =
      form.1 + form.2.sum fun v c => c * assignment v := by
  simp [eval, Finsupp.linearCombination_apply]

@[simp] theorem eval_ofConst
    (assignment : V → R)
    (c : R) :
    eval assignment (ofConst c) = c := by
  simp [eval, ofConst]

@[simp] theorem eval_ofTerm
    (assignment : V → R)
    (c : R)
    (v : V) :
    eval assignment (ofTerm c v) = c * assignment v := by
  simp [eval, ofTerm]

/-- Only the variables with a nonzero coefficient matter. -/
theorem eval_congr
    {left right : V → R}
    {form : AffineForm R V}
    (agree : ∀ v ∈ form.2.support, left v = right v) :
    eval left form = eval right form := by
  rw [eval_apply, eval_apply]
  congr 1
  exact Finsupp.sum_congr fun v member => by
    rw [agree v member]

section Separation

variable [DecidableEq V] (form other : AffineForm R V)

omit [DecidableEq V] in
/-- A form takes its constant where every variable is zero. -/
theorem eval_zero : eval 0 form = form.1 := by
  simp [eval_apply]

/-- Where one variable is one and the others are zero, its term is added. -/
theorem eval_single (v : V) :
    eval (Pi.single v 1) form = form.1 + form.2 v := by
  rw [eval_apply]
  congr 1
  rw [Finsupp.sum, Finset.sum_eq_single v]
  · simp
  · intro w _ different
    simp [different]
  · intro absent
    simpa using absent

/-- Forms are told apart by their values. -/
theorem eq_iff_eval :
    form = other ↔ ∀ assignment, eval assignment form = eval assignment other := by
  constructor
  · rintro rfl _
    rfl
  · intro same
    have sameConst : form.1 = other.1 := by
      rw [← eval_zero form, ← eval_zero other, same]
    refine Prod.ext sameConst (Finsupp.ext fun v => ?_)
    have sameSum := same (Pi.single v 1)
    rw [eval_single, eval_single, sameConst] at sameSum
    exact add_left_cancel sameSum

/-- A form without terms is one whose value does not vary. -/
theorem terms_eq_zero_iff_eval :
    form.2 = 0 ↔
      ∀ assignment another, eval assignment form = eval another form := by
  constructor
  · intro empty assignment another
    rw [eval_apply, eval_apply, empty]
    rfl
  · intro steady
    apply Finsupp.ext
    intro v
    have same := steady (Pi.single v 1) 0
    rw [eval_single, eval_zero] at same
    exact add_eq_left.mp same

end Separation

end AffineForm

end Compi
