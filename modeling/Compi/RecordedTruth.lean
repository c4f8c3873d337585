import Compi.InterpreterPathConstraint
import Compi.MachineInterpreter
import Compi.VariableIndices

/-!
# The truth of the recorded path

On the machine, too, branches hand true constraints to the path as long as no
expression overflows.  Inputs that are marked later leave the values of the
earlier variables alone, so that what a run records in the end is a path of the
inputs that it records.
-/

namespace Compi

namespace Tracked

open SymbolicInterpreter

/-- The constraints of the recorded path are true under the recorded inputs. -/
def PathTrue (t : Tracked) : Prop :=
  ∀ c ∈ t.si.ex.path.constraints,
    c.holds (assignmentOf t.si.ex.inputs) = true

/--
The program under test passes exact values with an event, no operator changes
the truth of the stack top under a held predicate, and nothing overflows.
-/
structure PassesExactly (t : Tracked) (event : Event) : Prop where
  values : t.ValuesExact event
  truth : t.TruthExact event
  keeps : t.KeepsTruth event
  fits : t.si.NoOverflow event

/-- What makes the recorded path true. -/
structure RecordInvariant (t : Tracked) : Prop where
  exact : t.ExactInvariant
  agrees : t.RegisterAgrees
  indexed : Indexed t.si.numInputs t.si.ex
  pathTrue : t.PathTrue

variable {t next : Tracked} {event : Event}

/-- An event that hands over a true constraint, if any, keeps the path true. -/
theorem PathTrue.step
    (pathTrue : t.PathTrue)
    (covered : t.si.numInputs ≤ t.si.ex.inputs.length)
    (indexed : Indexed t.si.numInputs t.si.ex)
    (handed : t.ConstraintTrue event)
    (stepped : t.step event = some next) :
    next.PathTrue := by
  obtain ⟨si, siStepped, rfl⟩ := Option.map_eq_some_iff.mp stepped
  intro c member
  cases marks : event.marking with
  | some marking =>
      have records := records_of_step marks siStepped
      change c ∈ si.ex.path.constraints at member
      rw [records.path] at member
      have below := indexed.constraints c member
      have sameTruth :
          c.holds (assignmentOf si.ex.inputs) =
            c.holds (assignmentOf t.si.ex.inputs) := by
        apply SymbolicPred.holds_congr
        intro v occurs
        exact records.marked.assignment_agree covered (below v occurs)
      exact sameTruth.trans (pathTrue c member)
  | none =>
      obtain ⟨keeps, isPath⟩ := keepsRecord_of_step marks siStepped
      have sameInputs : si.ex.inputs = t.si.ex.inputs := by
        rw [keeps.ex]
      change c ∈ si.ex.path.constraints at member
      change c.holds (assignmentOf si.ex.inputs) = true
      rw [isPath] at member
      rw [sameInputs]
      cases event with
      | branch bid predValue =>
          rcases mem_push_constraints member with old | isNew
          · exact pathTrue c old
          · exact handed c isNew
      | _ =>
          exact pathTrue c member

theorem recordInvariant_fresh
    (input : List Value)
    (execTimes : Nat)
    (rank targetRank worldSize : Int) :
    (fresh input execTimes rank targetRank worldSize).RecordInvariant where
  exact := exactInvariant_fresh input execTimes rank targetRank worldSize
  agrees :=
    (registerInvariant_fresh input execTimes rank targetRank worldSize).agrees
  indexed :=
    (markedOnly_fresh input execTimes rank targetRank worldSize).record
  pathTrue := by
    intro c member
    cases member

theorem RecordInvariant.constraintTrue
    (invariant : t.RecordInvariant)
    (passes : t.PassesExactly event) :
    t.ConstraintTrue event :=
  invariant.agrees.constraintTrue invariant.exact.wellFormed passes.truth

/-- An event of the machine keeps the recorded path true. -/
theorem RecordInvariant.stepIn_machine
    (invariant : t.RecordInvariant)
    (passes : t.PassesExactly event)
    (stepped : t.stepIn .machine event = some next) :
    next.RecordInvariant := by
  rw [Tracked.stepIn_machine passes.fits] at stepped
  have wellFormed := invariant.exact.wellFormed
  have registers : t.RegisterInvariant := ⟨wellFormed, invariant.agrees⟩
  have markedOnly : t.si.MarkedOnly := ⟨⟨t.last, wellFormed⟩, invariant.indexed⟩
  obtain ⟨si, siStepped, isNext⟩ := Option.map_eq_some_iff.mp stepped
  exact
    { exact := invariant.exact.step passes.values stepped
      agrees :=
        (registers.step invariant.exact.concolicValues passes.truth
          passes.keeps stepped).agrees
      indexed := isNext ▸ (markedOnly.step siStepped).record
      pathTrue :=
        invariant.pathTrue.step wellFormed.inputsCover invariant.indexed
          (invariant.constraintTrue passes) stepped }

/--
In a run of the interpreter on the machine by events that pass exact values,
without overflow, every branch hands a true constraint to the path, and at the
end all constraints of the recorded path are true under the recorded inputs.
-/
theorem pathTrue_of_machineRun
    (input : List Value)
    (execTimes : Nat)
    (rank targetRank worldSize : Int)
    (events : List Event)
    (reached : Tracked)
    (passes :
      PartialRun.Along (stepIn .machine) PassesExactly
        (fresh input execTimes rank targetRank worldSize) events)
    (ran :
      PartialRun.run? (stepIn .machine)
        (fresh input execTimes rank targetRank worldSize) events =
          some reached) :
    PartialRun.Along (stepIn .machine) ConstraintTrue
        (fresh input execTimes rank targetRank worldSize) events ∧
      reached.PathTrue := by
  have initially :=
    recordInvariant_fresh input execTimes rank targetRank worldSize
  constructor
  · exact
      PartialRun.along_of_invariant
        (fun invariant passesHere stepped =>
          RecordInvariant.stepIn_machine invariant passesHere stepped)
        (fun invariant passesHere => invariant.constraintTrue passesHere)
        initially passes
  · have final :=
      PartialRun.run?_invariant
        (fun invariant passesHere stepped =>
          RecordInvariant.stepIn_machine invariant passesHere stepped)
        initially passes ran
    exact final.pathTrue

/-- The calls for `if (x > 3)`, taken, and `if (x > 10)`, not, where `x` is 5. -/
def betweenBounds : List Event :=
  [.newInput .int 16 100 0 0,
    .load 16 5, .load 0 3, .applyCompareOp .gt 1, .branch 1 true,
    .load 16 5, .load 0 10, .applyCompareOp .gt 0, .branch 4 false]

/-- Both constraints are kept, and true. -/
theorem pathTrue_of_betweenBounds :
    ∃ reached,
      PartialRun.run? (stepIn .machine) (fresh [5] 0 0 0 1) betweenBounds =
        some reached ∧
      reached.si.ex.path.constraints.length = 2 ∧ reached.PathTrue := by
  have passes :
      PartialRun.Along (stepIn .machine) PassesExactly (fresh [5] 0 0 0 1)
        betweenBounds := by
    have ofLoad {t : Tracked} {addr : Addr} {value : Value}
        (values : t.ValuesExact (.load addr value)) :
        t.PassesExactly (.load addr value) :=
      ⟨values, trivial, trivial, trivial, trivial⟩
    apply PartialRun.Along.cons
      ⟨trivial, trivial, trivial, trivial, trivial⟩ rfl
    apply PartialRun.Along.cons (ofLoad (by rintro stored ⟨⟩; rfl)) rfl
    apply PartialRun.Along.cons (ofLoad (by rintro stored ⟨⟩)) rfl
    apply PartialRun.Along.cons
      ⟨trivial, by rintro b a rest ⟨⟩; rfl, fun set => absurd rfl set, trivial,
        by rintro b a rest e ⟨⟩ ⟨⟩; decide⟩ rfl
    apply PartialRun.Along.cons
      ⟨trivial, by rintro se rest ⟨⟩; decide, trivial, trivial, trivial⟩ rfl
    apply PartialRun.Along.cons (ofLoad (by rintro stored ⟨⟩; rfl)) rfl
    apply PartialRun.Along.cons (ofLoad (by rintro stored ⟨⟩)) rfl
    apply PartialRun.Along.cons
      ⟨trivial, by rintro b a rest ⟨⟩; rfl, fun set => absurd rfl set, trivial,
        by rintro b a rest e ⟨⟩ ⟨⟩; decide⟩ rfl
    exact PartialRun.Along.cons
      ⟨trivial, by rintro se rest ⟨⟩; decide, trivial, trivial, trivial⟩ rfl
      trivial
  exact
    ⟨_, rfl, rfl,
      (pathTrue_of_machineRun [5] 0 0 0 1 betweenBounds _ passes rfl).2⟩

end Tracked

end Compi
