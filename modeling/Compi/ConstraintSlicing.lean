import Mathlib.Data.Set.Basic

/-!
# Slicing a system of local constraints

A constraint is local when its truth depends only on the variables of its
support.  If a set of variables contains the whole support of every constraint
it touches, a system splits in two: a solution of the constraints it touches
and a solution of the others merge into a solution of all.
-/

namespace Compi.ConstraintSlicing

variable {V A C : Type}

/-- The truth of each constraint depends only on its support. -/
def Local (support : C → Set V) (holds : C → (V → A) → Prop) : Prop :=
  ∀ c left right,
    (∀ v ∈ support c, left v = right v) →
    holds c left →
    holds c right

/-- The constraint mentions a variable of the set. -/
def Touches (support : C → Set V) (slice : Set V) (c : C) : Prop :=
  ∃ v ∈ support c, v ∈ slice

/-- Take the variables of a set from one assignment, the others from another. -/
noncomputable def merge
    (slice : Set V)
    (inside outside : V → A) : V → A :=
  open Classical in fun v => if v ∈ slice then inside v else outside v

theorem merge_of_mem
    {slice : Set V}
    {v : V}
    (inside outside : V → A)
    (member : v ∈ slice) :
    merge slice inside outside v = inside v := by
  simp [merge, member]

theorem merge_of_not_mem
    {slice : Set V}
    {v : V}
    (inside outside : V → A)
    (absent : v ∉ slice) :
    merge slice inside outside v = outside v := by
  simp [merge, absent]

/-- Solutions of the touched and of the untouched constraints merge. -/
theorem merge_satisfies
    {support : C → Set V}
    {holds : C → (V → A) → Prop}
    (isLocal : Local support holds)
    (slice : Set V)
    (system : Set C)
    (closed :
      ∀ c ∈ system,
        Touches support slice c → ∀ v ∈ support c, v ∈ slice)
    {inside outside : V → A}
    (touched : ∀ c ∈ system, Touches support slice c → holds c inside)
    (untouched : ∀ c ∈ system, ¬Touches support slice c → holds c outside) :
    ∀ c ∈ system, holds c (merge slice inside outside) := by
  intro c member
  by_cases touches : Touches support slice c
  · apply isLocal c inside _ _ (touched c member touches)
    intro v occurs
    exact (merge_of_mem inside outside
      (closed c member touches v occurs)).symm
  · apply isLocal c outside _ _ (untouched c member touches)
    intro v occurs
    have absent : v ∉ slice := fun inSlice => touches ⟨v, occurs, inSlice⟩
    exact (merge_of_not_mem inside outside absent).symm

end Compi.ConstraintSlicing
