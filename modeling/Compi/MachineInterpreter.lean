import Compi.InterpreterInvariant

/-!
# The interpreter in the arithmetic of the machine

The interpreter that runs computes the constant and the coefficients of its
expressions in `value_t`.  As long as the exact results fit, it takes the steps
of the interpreter on integers.  An expression that has overflowed still has
the value it stands for modulo `2 ^ 64`, and no other one in general.
-/

namespace Compi

namespace StackElem

variable {a b : StackElem}

/-- A difference that fits is computed without a wrap. -/
theorem subtractExprIn_machine
    (fits : ∀ e ∈ a.subtractExpr b, e.Fits) :
    a.subtractExprIn .machine b = a.subtractExpr b := by
  unfold subtractExpr at fits ⊢
  unfold subtractExprIn
  cases left : a.expr with
  | none =>
      cases right : b.expr with
      | none =>
          rfl
      | some y =>
          have sumFits := fits (y.negate.addConst a.concrete) (by simp [left, right])
          -- An overflow of the negated constant is undone by the sum.
          have sameConst :
              wrap (wrap (-y.const) + a.concrete) = -y.const + a.concrete := by
            rw [wrap_wrap_add]
            exact wrap_of_fits sumFits.const
          exact
            congrArg some
              (congrArg₂ SymbolicExpr.mk sameConst
                (SymbolicExpr.map_wrap_eq sumFits.coeff))
  | some x =>
      cases right : b.expr with
      | none =>
          exact
            congrArg some
              (SymbolicExpr.wrappingSubConst_eq (fits _ (by simp [left, right])))
      | some y =>
          exact
            congrArg some
              (SymbolicExpr.wrappingSubAssign_eq
                (fits _ (by simp [left, right])))

/-- The result of a binary operator that fits is computed without a wrap. -/
theorem binaryExprIn_machine
    {op : BinaryOp}
    (fits : ∀ e ∈ a.binaryExpr b op, e.Fits) :
    a.binaryExprIn .machine b op = a.binaryExpr b op := by
  cases op with
  | add =>
      change ∀ e ∈ a.addExpr b, e.Fits at fits
      change a.addExprIn .machine b = a.addExpr b
      unfold addExpr at fits ⊢
      unfold addExprIn
      cases left : a.expr <;> cases right : b.expr <;>
        simp only [left, right, Option.mem_some_iff, forall_eq'] at fits
      · rfl
      · exact congrArg some (SymbolicExpr.wrappingAddConst_eq fits)
      · exact congrArg some (SymbolicExpr.wrappingAddConst_eq fits)
      · exact congrArg some (SymbolicExpr.wrappingAddAssign_eq fits)
  | subtract =>
      exact subtractExprIn_machine fits
  | multiply =>
      change ∀ e ∈ a.multiplyExpr b, e.Fits at fits
      change a.multiplyExprIn .machine b = a.multiplyExpr b
      unfold multiplyExpr at fits ⊢
      unfold multiplyExprIn
      cases left : a.expr <;> cases right : b.expr <;>
        simp only [left, right, Option.mem_some_iff, forall_eq'] at fits
      · rfl
      · exact congrArg some (SymbolicExpr.wrappingMulConst_eq fits)
      · exact congrArg some (SymbolicExpr.wrappingMulConst_eq fits)
      · exact congrArg some (SymbolicExpr.wrappingMulConst_eq fits)
  | shiftL =>
      simp only [binaryExpr, shiftLExpr] at fits
      simp only [binaryExprIn, binaryExpr, shiftLExprIn, shiftLExpr,
        ExprArithmetic.machine]
      refine Option.map_congr fun x member => ?_
      exact
        SymbolicExpr.wrappingMulConst_eq
          (fits _ (Option.mem_map_of_mem _ member))
  | concrete =>
      rfl

end StackElem

namespace SymbolicInterpreter

/-- The exact expression that an operator leaves on the stack fits. -/
def ResultFits (si : SymbolicInterpreter) : Event → Prop
  | .applyUnaryOp op _ =>
      ∀ se rest e,
        si.stack = se :: rest →
        op = .negate →
        se.expr = some e →
        e.negate.Fits
  | .applyBinaryOp op _ =>
      ∀ b a rest e,
        si.stack = b :: a :: rest →
        a.binaryExpr b op = some e →
        e.Fits
  | _ => True

/-- The exact difference that a comparison puts in the register fits. -/
def DifferenceFits (si : SymbolicInterpreter) : Event → Prop
  | .applyCompareOp _ _ =>
      ∀ b a rest e,
        si.stack = b :: a :: rest →
        a.subtractExpr b = some e →
        e.Fits
  | _ => True

/-- No expression that an event computes overflows. -/
structure NoOverflow (si : SymbolicInterpreter) (event : Event) : Prop where
  result : si.ResultFits event
  difference : si.DifferenceFits event

variable {si : SymbolicInterpreter} {event : Event}

/-- An event without overflow is an event of the interpreter on integers. -/
theorem stepIn_machine (fits : si.NoOverflow event) :
    si.stepIn .machine event = si.step event := by
  cases event with
  | applyUnaryOp op value =>
      refine applyUnaryOpIn_eq fun se rest e isStack isNegate isExpr => ?_
      exact
        SymbolicExpr.wrappingNegate_eq
          (fits.result se rest e isStack isNegate isExpr)
  | applyBinaryOp op value =>
      refine applyBinaryOpIn_eq fun b a rest isStack => ?_
      exact
        StackElem.binaryExprIn_machine fun e isResult =>
          fits.result b a rest e isStack isResult
  | applyCompareOp op value =>
      refine applyCompareOpIn_eq fun b a rest isStack => ?_
      exact
        StackElem.subtractExprIn_machine fun e isResult =>
          fits.difference b a rest e isStack isResult
  | _ =>
      rfl

end SymbolicInterpreter

namespace Tracked

open SymbolicInterpreter

/--
The concolic value invariant modulo `2 ^ 64`: every expression is over variables
that have inputs, and its value differs from the one it stands for by a multiple
of `2 ^ 64`.
-/
def ConcolicResidues (t : Tracked) : Prop :=
  t.Related fun e c =>
    (∀ v ∈ e.vars, v < t.si.ex.inputs.length) ∧
      e.eval (assignmentOf t.si.ex.inputs) ≡ c [ZMOD 2 ^ 64]

variable {t next : Tracked} {event : Event}

theorem stepIn_machine (fits : t.si.NoOverflow event) :
    t.stepIn .machine event = t.step event := by
  rw [stepIn, step, SymbolicInterpreter.stepIn_machine fits]

/-- The invariant holds of the machine as long as no result overflows. -/
theorem ExactInvariant.stepIn_machine
    (invariant : t.ExactInvariant)
    (exact : t.ValuesExact event)
    (fits : t.si.ResultFits event)
    (stepped : t.stepIn .machine event = some next) :
    next.ExactInvariant := by
  cases event with
  | applyCompareOp op value =>
      -- The register is no part of the invariant, so it may overflow.
      have wellFormed :=
        invariant.wellFormed.stepIn varsBelow_compatible_machine stepped
      have sameInputs := (inputs_stepIn_of_unmarked rfl stepped).1
      obtain ⟨si, applied, rfl⟩ := Option.map_eq_some_iff.mp stepped
      exact ⟨wellFormed, sameInputs ▸ invariant.evaluates.applyCompareOp applied⟩
  | _ =>
      rw [Tracked.stepIn_machine ⟨fits, trivial⟩] at stepped
      exact invariant.step exact stepped

/-- The invariant of the machine, whatever overflows. -/
structure ResidueInvariant (t : Tracked) : Prop where
  wellFormed : t.WellFormed
  evaluates :
    t.Related fun e c =>
      ((e.eval (assignmentOf t.si.ex.inputs) : Int) : Residue) = c

theorem residueInvariant_fresh
    (input : List Value)
    (execTimes : Nat)
    (rank targetRank worldSize : Int) :
    (fresh input execTimes rank targetRank worldSize).ResidueInvariant where
  wellFormed := wellFormed_fresh input execTimes rank targetRank worldSize
  evaluates :=
    (exactInvariant_fresh input execTimes rank targetRank
      worldSize).evaluates.mono fun _ _ same => congrArg Int.cast same

theorem ResidueInvariant.stepIn_machine
    (invariant : t.ResidueInvariant)
    (exact : t.ValuesExact event)
    (stepped : t.stepIn .machine event = some next) :
    next.ResidueInvariant where
  wellFormed :=
    invariant.wellFormed.stepIn varsBelow_compatible_machine stepped
  evaluates :=
    valueRelation_machine.step invariant.wellFormed invariant.evaluates exact
      stepped

theorem ResidueInvariant.concolicResidues
    (invariant : t.ResidueInvariant) :
    t.ConcolicResidues := by
  apply (invariant.wellFormed.varsBelow.and invariant.evaluates).mono
  rintro e c ⟨below, evaluated⟩
  refine ⟨?_, (ZMod.intCast_eq_intCast_iff _ _ _).mp evaluated⟩
  intro v occurs
  exact lt_of_lt_of_le (below v occurs) invariant.wellFormed.inputsCover

/--
In every state that the interpreter reaches on the machine, without a failing
assertion, by events that pass exact values, expressions have the values they
stand for modulo `2 ^ 64`, and exactly if no result has overflowed.
-/
theorem concolicValues_of_machineRun
    (input : List Value)
    (execTimes : Nat)
    (rank targetRank worldSize : Int)
    (events : List Event)
    (reached : Tracked)
    (exact :
      PartialRun.Along (stepIn .machine) ValuesExact
        (fresh input execTimes rank targetRank worldSize) events)
    (ran :
      PartialRun.run? (stepIn .machine)
        (fresh input execTimes rank targetRank worldSize) events =
          some reached) :
    reached.ConcolicResidues ∧
      (PartialRun.Along (stepIn .machine)
          (fun t event => t.si.ResultFits event)
          (fresh input execTimes rank targetRank worldSize) events →
        reached.ConcolicValues) := by
  constructor
  · have initially :=
      residueInvariant_fresh input execTimes rank targetRank worldSize
    have final :=
      PartialRun.run?_invariant
        (fun invariant exactEvent stepped =>
          ResidueInvariant.stepIn_machine invariant exactEvent stepped)
        initially exact ran
    exact final.concolicResidues
  · intro fits
    have initially :=
      exactInvariant_fresh input execTimes rank targetRank worldSize
    have final :=
      PartialRun.run?_invariant
        (fun invariant admissible stepped =>
          ExactInvariant.stepIn_machine invariant admissible.1 admissible.2
            stepped)
        initially (exact.and fits) ran
    exact final.concolicValues

/-- Mark an input with value 7, negate it, store it and load it back. -/
def negatedInput : List Event :=
  [.newInput .int 16 100 0 0, .load 16 7, .applyUnaryOp .negate (-7),
    .store 24, .load 24 (-7)]

theorem concolicValues_of_negatedInput :
    ∃ reached,
      PartialRun.run? (stepIn .machine) (fresh [7] 0 0 0 1) negatedInput =
        some reached ∧
      reached.ConcolicValues := by
  obtain ⟨reached, ran⟩ :
      ∃ reached,
        PartialRun.run? (stepIn .machine) (fresh [7] 0 0 0 1) negatedInput =
          some reached :=
    ⟨_, rfl⟩
  refine
    ⟨reached, ran,
      (concolicValues_of_machineRun [7] 0 0 0 1 negatedInput reached ?_ ran).2
        ?_⟩
  · apply PartialRun.Along.cons trivial rfl
    apply PartialRun.Along.cons (by rintro stored ⟨⟩; rfl) rfl
    apply PartialRun.Along.cons (by rintro se rest ⟨⟩ _; rfl) rfl
    apply PartialRun.Along.cons trivial rfl
    exact PartialRun.Along.cons (by rintro stored ⟨⟩; rfl) rfl trivial
  · apply PartialRun.Along.cons trivial rfl
    apply PartialRun.Along.cons trivial rfl
    apply PartialRun.Along.cons (by rintro se rest e ⟨⟩ _ ⟨⟩; decide) rfl
    apply PartialRun.Along.cons trivial rfl
    exact PartialRun.Along.cons trivial rfl trivial

/-- `(x + y) * 2 ^ 62 + x * 2 ^ 62`, where `x` is 1 and `y` is -1. -/
def overflowingSum : List Event :=
  [.newInput .int 16 100 0 0, .newInput .int 24 100 0 0,
    .load 16 1, .load 24 (-1), .applyBinaryOp .add 0,
    .load 0 (2 ^ 62), .applyBinaryOp .multiply 0,
    .load 16 1, .load 0 (2 ^ 62), .applyBinaryOp .multiply (2 ^ 62),
    .applyBinaryOp .add (2 ^ 62)]

/-- The coefficient of `x` becomes `-2 ^ 63`, though no value overflows. -/
theorem not_concolicValues_overflowingSum :
    ¬ ∀ (input : List Value)
        (execTimes : Nat)
        (rank targetRank worldSize : Int)
        (events : List Event)
        (reached : Tracked),
        PartialRun.Along (stepIn .machine) ValuesExact
          (fresh input execTimes rank targetRank worldSize) events →
        PartialRun.run? (stepIn .machine)
            (fresh input execTimes rank targetRank worldSize) events =
          some reached →
        reached.ConcolicValues := by
  intro claimed
  have exact :
      PartialRun.Along (stepIn .machine) ValuesExact (fresh [1, -1] 0 0 0 1)
        overflowingSum := by
    apply PartialRun.Along.cons trivial rfl
    apply PartialRun.Along.cons trivial rfl
    apply PartialRun.Along.cons (by rintro stored ⟨⟩; rfl) rfl
    apply PartialRun.Along.cons (by rintro stored ⟨⟩; rfl) rfl
    apply PartialRun.Along.cons
      ⟨by decide, by rintro b a rest ⟨⟩ _; rfl⟩ rfl
    apply PartialRun.Along.cons (by rintro stored ⟨⟩) rfl
    apply PartialRun.Along.cons
      ⟨by decide, by rintro b a rest ⟨⟩ _; rfl⟩ rfl
    apply PartialRun.Along.cons (by rintro stored ⟨⟩; rfl) rfl
    apply PartialRun.Along.cons (by rintro stored ⟨⟩) rfl
    apply PartialRun.Along.cons
      ⟨by decide, by rintro b a rest ⟨⟩ _; rfl⟩ rfl
    exact PartialRun.Along.cons
      ⟨by decide, by rintro b a rest ⟨⟩ _; rfl⟩ rfl trivial
  have values := claimed [1, -1] 0 0 0 1 overflowingSum _ exact rfl
  have atTop := (values.stack _ List.mem_cons_self _ rfl).2
  revert atTop
  decide

end Tracked

end Compi
