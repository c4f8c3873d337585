import Compi.InterpreterInvariant

/-!
# The constraints handed to the path

A branch that finds a predicate in the register hands it to the path.  The
predicate was built by the last comparison with a symbolic operand; a unary
operator on a concrete top and a comparison of two concrete operands leave it
in place.  The constraint is right as long as these keep the truth of the
stack top.
-/

namespace Compi

namespace Tracked

open SymbolicInterpreter

/--
Comparisons and logical negations pass their exact result, and a branch passes
whether the stack top is nonzero.
-/
def TruthExact (t : Tracked) : Event → Prop
  | .applyUnaryOp op value =>
      ∀ se rest,
        t.si.stack = se :: rest →
        op = .logicalNot →
        value = if se.concrete = 0 then 1 else 0
  | .applyCompareOp op value =>
      ∀ b a rest,
        t.si.stack = b :: a :: rest →
        value = if op.holdsOf (a.concrete - b.concrete) then 1 else 0
  | .branch _ predValue =>
      ∀ se rest,
        t.si.stack = se :: rest →
        (predValue = true ↔ se.concrete ≠ 0)
  | _ => True

/-- The constraint a branch hands to the path is true under the inputs. -/
def ConstraintTrue (t : Tracked) : Event → Prop
  | .branch _ predValue =>
      ∀ p,
        t.si.branchConstraint predValue = some p →
        p.holds (assignmentOf t.si.ex.inputs) = true
  | _ => True

/--
An operator that leaves the predicate register alone while it is set keeps
the truth value of the stack top.
-/
def KeepsTruth (t : Tracked) : Event → Prop
  | .applyUnaryOp _ value =>
      t.si.pred ≠ none →
      ∀ se rest,
        t.si.stack = se :: rest →
        (value ≠ 0 ↔ se.concrete ≠ 0)
  | .applyCompareOp _ value =>
      t.si.pred ≠ none →
      ∀ b a rest,
        t.si.stack = b :: a :: rest →
        a.expr = none →
        b.expr = none →
        (value ≠ 0 ↔ b.concrete ≠ 0)
  | _ => True

/-- A held predicate is true under the inputs iff the top is nonzero. -/
def RegisterAgrees (t : Tracked) : Prop :=
  ∀ p se rest,
    t.si.pred = some p →
    t.si.stack = se :: rest →
    (p.holds (assignmentOf t.si.ex.inputs) = true ↔ se.concrete ≠ 0)

variable {t next : Tracked} {event : Event}

private theorem subtractExpr_eq_none
    {a b : StackElem}
    (absent : a.subtractExpr b = none) :
    a.expr = none ∧ b.expr = none := by
  unfold StackElem.subtractExpr at absent
  split at absent
  · next left right =>
      exact ⟨left, right⟩
  · cases absent
  · cases absent
  · cases absent

/-- A comparison keeps the register and the stack top in agreement. -/
theorem RegisterAgrees.applyCompareOp
    (agrees : t.RegisterAgrees)
    (values : t.ConcolicValues)
    {op : CompareOp}
    {value : Value}
    {si : SymbolicInterpreter}
    (exact : t.TruthExact (.applyCompareOp op value))
    (keeps : t.KeepsTruth (.applyCompareOp op value))
    (applied : t.si.applyCompareOp op value = some si) :
    RegisterAgrees { si := si, last := t.last } := by
  unfold SymbolicInterpreter.applyCompareOp at applied
  split at applied
  · next b a rest stackShape =>
      cases applied
      rintro p se below held ⟨⟩
      cases difference : a.subtractExpr b with
      | none =>
          obtain ⟨aConcrete, bConcrete⟩ := subtractExpr_eq_none difference
          simp only [difference] at held
          have registerSet : t.si.pred ≠ none := by
            simp [held]
          have sameTruth :=
            keeps registerSet b a rest stackShape aConcrete bConcrete
          exact (agrees p b (a :: rest) held stackShape).trans
            sameTruth.symm
      | some e =>
          simp only [difference] at held
          split at held
          · cases held
          · cases held
            have evaluates :
                e.eval (assignmentOf t.si.ex.inputs) =
                  a.concrete - b.concrete := by
              rw [← StackElem.subtractExprIn_exact] at difference
              apply StackElem.subtractExpr_related (eval_compatible _)
                _ _ e difference
              · intro x present
                exact (values.stack a (by simp [stackShape]) x present).2
              · intro y present
                exact (values.stack b (by simp [stackShape]) y present).2
            have passed := exact b a rest stackShape
            change op.holdsOf (e.eval _) = true ↔ value ≠ 0
            rw [evaluates, passed]
            by_cases holds : op.holdsOf (a.concrete - b.concrete) = true
            · simp [holds]
            · simp [holds]
  · cases applied

/-- A unary operator keeps the register and the stack top in agreement. -/
theorem RegisterAgrees.applyUnaryOp
    (agrees : t.RegisterAgrees)
    (wellFormed : t.WellFormed)
    {op : UnaryOp}
    {value : Value}
    {si : SymbolicInterpreter}
    (keeps : t.KeepsTruth (.applyUnaryOp op value))
    (applied : t.si.applyUnaryOp op value = some si) :
    RegisterAgrees { si := si, last := t.last } := by
  unfold SymbolicInterpreter.applyUnaryOp at applied
  split at applied
  · cases applied
  · next se rest stackShape =>
      split at applied
      · cases applied
        rintro p top below held ⟨⟩
        have registerSet : t.si.pred ≠ none := by
          rw [show t.si.pred = some p from held]
          simp
        have sameTruth := keeps registerSet se rest stackShape
        exact (agrees p se rest held stackShape).trans sameTruth.symm
      · cases applied
        intro p top below held
        cases held
      · next e old topExpr heldOld =>
          have concreteTop :=
            wellFormed.overConcrete old se rest heldOld stackShape
          simp [concreteTop] at topExpr
      · cases applied
        intro p top below held
        cases held

/-- Marking an input keeps agreement. -/
theorem RegisterAgrees.marked
    {addr : Addr}
    {ret : Value}
    (agrees : t.RegisterAgrees)
    (wellFormed : t.WellFormed)
    (marked : t.si.Marked addr ret next.si) :
    next.RegisterAgrees := by
  intro p se rest held stackShape
  rw [marked.pred] at held
  rw [marked.stack] at stackShape
  have below := (wellFormed.predicate p held).1
  have sameValue :
      p.holds (assignmentOf next.si.ex.inputs) =
        p.holds (assignmentOf t.si.ex.inputs) := by
    apply SymbolicPred.holds_congr
    intro v occurs
    exact marked.assignment_agree wellFormed.inputsCover (below v occurs)
  rw [sameValue]
  exact agrees p se rest held stackShape

/-- An event with exact truth values that keeps truth keeps agreement. -/
theorem RegisterAgrees.step
    (agrees : t.RegisterAgrees)
    (wellFormed : t.WellFormed)
    (values : t.ConcolicValues)
    (exact : t.TruthExact event)
    (keeps : t.KeepsTruth event)
    (stepped : t.step event = some next) :
    next.RegisterAgrees := by
  cases marks : t.si.marking? event with
  | some marked =>
      obtain ⟨addr, result⟩ := marked
      obtain ⟨ret, marked, _⟩ := marked_of_step marks stepped
      exact agrees.marked wellFormed marked
  | none =>
      obtain ⟨si, siStepped, rfl⟩ := Option.map_eq_some_iff.mp stepped
      cases event with
      | clearStack | load | branch =>
          cases siStepped
          intro p se rest held
          cases held
      | call fid =>
          cases siStepped
          exact agrees
      | branchOnly bid =>
          cases siStepped
          exact agrees
      | store addr =>
          simp only [SymbolicInterpreter.step, SymbolicInterpreter.store]
            at siStepped
          split at siStepped <;> cases siStepped
          intro p se rest held
          cases held
      | applyUnaryOp op value =>
          exact agrees.applyUnaryOp wellFormed keeps siStepped
      | applyBinaryOp op value =>
          simp only [SymbolicInterpreter.step,
            SymbolicInterpreter.applyBinaryOp] at siStepped
          split at siStepped <;> cases siStepped
          intro p se rest held
          cases held
      | applyCompareOp op value =>
          exact agrees.applyCompareOp values exact keeps siStepped
      | returns =>
          simp only [SymbolicInterpreter.step, SymbolicInterpreter.returns]
            at siStepped
          split at siStepped <;> cases siStepped
          exact agrees
      | handleReturn value =>
          simp only [SymbolicInterpreter.step,
            SymbolicInterpreter.handleReturn] at siStepped
          split at siStepped
          · split at siStepped <;> cases siStepped
            exact agrees
          · cases siStepped
            intro p se rest held
            cases held
      | _ =>
          cases marks

/-- In agreement with the stack top, a branch hands over a true constraint. -/
theorem RegisterAgrees.constraintTrue
    (agrees : t.RegisterAgrees)
    (wellFormed : t.WellFormed)
    (exact : t.TruthExact event) :
    t.ConstraintTrue event := by
  cases event with
  | branch bid predValue =>
      intro constraint handed
      obtain ⟨p, held, rfl⟩ := Option.map_eq_some_iff.mp handed
      obtain ⟨_, se, rest, stackShape, _⟩ := wellFormed.predicate p held
      have truth := agrees p se rest held stackShape
      have reported := exact se rest stackShape
      cases predValue with
      | true =>
          exact truth.mpr (reported.mp rfl)
      | false =>
          have zero : ¬se.concrete ≠ 0 := fun nonzero => by
            simpa using reported.mpr nonzero
          have untrue : p.holds (assignmentOf t.si.ex.inputs) = false :=
            Bool.eq_false_iff.mpr fun true => zero (truth.mp true)
          simp [untrue]
  | _ =>
      trivial

/-- What makes the constraints of a run true. -/
structure RegisterInvariant (t : Tracked) : Prop where
  wellFormed : t.WellFormed
  agrees : t.RegisterAgrees

theorem registerInvariant_fresh
    (input : List Value)
    (execTimes : Nat)
    (rank targetRank worldSize : Int) :
    (fresh input execTimes rank targetRank worldSize).RegisterInvariant where
  wellFormed := wellFormed_fresh input execTimes rank targetRank worldSize
  agrees := by
    intro p se rest held
    cases held

theorem RegisterInvariant.step
    (invariant : t.RegisterInvariant)
    (values : t.ConcolicValues)
    (exact : t.TruthExact event)
    (keeps : t.KeepsTruth event)
    (stepped : t.step event = some next) :
    next.RegisterInvariant where
  wellFormed := invariant.wellFormed.step stepped
  agrees :=
    invariant.agrees.step invariant.wellFormed values exact keeps stepped

/-- The calls inserted for the condition `-(x > 3)`, where `x` is 5. -/
def negatedComparison : List Event :=
  [.newInput .int 16 100 0 0, .load 16 5, .load 0 3,
    .applyCompareOp .gt 1, .applyUnaryOp .negate (-1), .branch 1 true]

/-- The calls inserted for the condition `0 == (x > 3)`, where `x` is 5. -/
def nestedComparison : List Event :=
  [.newInput .int 16 100 0 0, .load 0 0, .load 16 5, .load 0 3,
    .applyCompareOp .gt 1, .applyCompareOp .eq 0, .branch 2 false]

private theorem nestedComparison_valuesExact :
    PartialRun.Along Tracked.step ValuesExact (fresh [5] 0 0 0 1)
      nestedComparison := by
  apply PartialRun.Along.cons trivial rfl
  apply PartialRun.Along.cons (by rintro stored ⟨⟩) rfl
  apply PartialRun.Along.cons (by rintro stored ⟨⟩; rfl) rfl
  apply PartialRun.Along.cons (by rintro stored ⟨⟩) rfl
  apply PartialRun.Along.cons trivial rfl
  apply PartialRun.Along.cons trivial rfl
  exact PartialRun.Along.cons trivial rfl trivial

private theorem nestedComparison_truthExact :
    PartialRun.Along Tracked.step TruthExact (fresh [5] 0 0 0 1)
      nestedComparison := by
  apply PartialRun.Along.cons trivial rfl
  apply PartialRun.Along.cons trivial rfl
  apply PartialRun.Along.cons trivial rfl
  apply PartialRun.Along.cons trivial rfl
  apply PartialRun.Along.cons (by rintro b a rest ⟨⟩; rfl) rfl
  apply PartialRun.Along.cons (by rintro b a rest ⟨⟩; rfl) rfl
  exact PartialRun.Along.cons (by rintro se rest ⟨⟩; decide) rfl trivial

end Tracked

end Compi
