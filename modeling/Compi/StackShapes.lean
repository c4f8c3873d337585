import Compi.CrestRuntime
import Compi.InterpreterInvariant

/-!
# Stack shapes

An abstract machine that keeps the number of elements of the symbolic stack
and the two flags, and nothing else.  The runtime library refines it exactly:
an assertion fails in one precisely if it fails in the other.
-/

namespace Compi

open Cil

/-- The shape of the symbolic stack, with the flags that govern it. -/
structure StackShape where
  length : Nat
  returnValue : Bool
  preSymbolic : Bool
  deriving DecidableEq

namespace StackShape

/-- Change a shape unless no input has been marked yet. -/
def tracked
    (shape : StackShape)
    (change : StackShape → Option StackShape) : Option StackShape :=
  if shape.preSymbolic then some shape else change shape

/-- What an inserted call does to the shape of the stack. -/
def perform (shape : StackShape) : RuntimeCall → Option StackShape
  | .load _ _ =>
      shape.tracked fun shape =>
        some { shape with length := shape.length + 1 }
  | .store _ =>
      shape.tracked fun shape =>
        if 1 ≤ shape.length then
          some { shape with length := shape.length - 1 }
        else
          none
  | .clearStack =>
      shape.tracked fun shape =>
        some { shape with length := 0, returnValue := false }
  | .apply1 op _ =>
      if Crest.isUnaryCode op then
        shape.tracked fun shape =>
          if 1 ≤ shape.length then some shape else none
      else
        none
  | .apply2 op _ =>
      if Crest.isBinaryCode op then
        shape.tracked fun shape =>
          if 2 ≤ shape.length then
            some { shape with length := shape.length - 1 }
          else
            none
      else
        none
  | .branch _ _ => some { shape with length := 0 }
  | .returns =>
      if shape.length ≤ 1 then
        some { shape with returnValue := decide (shape.length = 1) }
      else
        none
  | .handleReturn _ =>
      shape.tracked fun shape =>
        if shape.returnValue then
          if shape.length = 1 then
            some { shape with returnValue := false }
          else
            none
        else
          some { shape with length := 1, returnValue := false }
  | .rank _ => some { shape with preSymbolic := false }
  | .rankNonDefaultComm1 _ => some { shape with preSymbolic := false }
  | .worldSizeWithLimit _ _ => some { shape with preSymbolic := false }
  | .branchOnly _ => some shape
  | .call _ => some shape
  | .rankNonDefaultComm2 _ _ => some shape
  | .getMPIInfo => some shape

end StackShape

namespace Crest

/-- The shape of the stack of the interpreter. -/
def shape (crest : Crest) : StackShape where
  length := crest.si.stack.length
  returnValue := crest.si.returnValue
  preSymbolic := crest.preSymbolic

variable {crest : Crest}

/-- An event whose effect on the stack has a shape. -/
def HasShape
    (event : SymbolicInterpreter.Event)
    (change : StackShape → Option StackShape) : Prop :=
  ∀ crest : Crest,
    (crest.forward event).map Crest.shape = change crest.shape

theorem shape_forwardTracked
    {event : SymbolicInterpreter.Event}
    {change : StackShape → Option StackShape}
    (hasShape : HasShape event change)
    (crest : Crest) :
    (crest.forwardTracked event).map Crest.shape =
      crest.shape.tracked change := by
  unfold forwardTracked StackShape.tracked
  cases pre : crest.preSymbolic with
  | true =>
      simp [shape, pre]
  | false =>
      have same := hasShape crest
      simpa [shape, pre] using same

theorem hasShape_load (addr : Addr) (value : Value) :
    HasShape (.load addr value) fun shape =>
      some { shape with length := shape.length + 1 } :=
  fun _ => rfl

theorem hasShape_clearStack :
    HasShape .clearStack fun shape =>
      some { shape with length := 0, returnValue := false } :=
  fun _ => rfl

theorem hasShape_store (addr : Addr) :
    HasShape (.store addr) fun shape =>
      if 1 ≤ shape.length then
        some { shape with length := shape.length - 1 }
      else
        none := by
  intro crest
  cases stack : crest.si.stack with
  | nil =>
      simp [forward, SymbolicInterpreter.step, SymbolicInterpreter.store,
        shape, stack]
  | cons se rest =>
      simp [forward, SymbolicInterpreter.step, SymbolicInterpreter.store,
        shape, stack]

theorem hasShape_apply1 (op : Int) (value : Value) :
    HasShape (apply1Event op value) fun shape =>
      if 1 ≤ shape.length then some shape else none := by
  intro crest
  cases stack : crest.si.stack with
  | nil =>
      simp [forward, apply1Event, SymbolicInterpreter.step,
        SymbolicInterpreter.applyUnaryOp, shape, stack]
  | cons se rest =>
      simp only [forward, apply1Event, SymbolicInterpreter.step,
        SymbolicInterpreter.applyUnaryOp, stack]
      split <;> simp [shape, stack]

theorem hasShape_apply2 (op : Int) (value : Value) :
    HasShape (apply2Event op value) fun shape =>
      if 2 ≤ shape.length then
        some { shape with length := shape.length - 1 }
      else
        none := by
  intro crest
  unfold apply2Event
  dsimp only
  split
  · match stack : crest.si.stack with
    | [] | [_] =>
        simp [forward, SymbolicInterpreter.step,
          SymbolicInterpreter.applyBinaryOp, shape, stack]
    | b :: a :: rest =>
        simp [forward, SymbolicInterpreter.step,
          SymbolicInterpreter.applyBinaryOp, shape, stack]
  · match stack : crest.si.stack with
    | [] | [_] =>
        simp [forward, SymbolicInterpreter.step,
          SymbolicInterpreter.applyCompareOp, shape, stack]
    | b :: a :: rest =>
        simp [forward, SymbolicInterpreter.step,
          SymbolicInterpreter.applyCompareOp, shape, stack]

theorem hasShape_handleReturn (value : Value) :
    HasShape (.handleReturn value) fun shape =>
      if shape.returnValue then
        if shape.length = 1 then
          some { shape with returnValue := false }
        else
          none
      else
        some { shape with length := 1, returnValue := false } := by
  intro crest
  cases flag : crest.si.returnValue with
  | true =>
      by_cases single : crest.si.stack.length = 1
      · simp [forward, SymbolicInterpreter.step,
          SymbolicInterpreter.handleReturn, shape, flag, single]
      · simp [forward, SymbolicInterpreter.step,
          SymbolicInterpreter.handleReturn, shape, flag, single]
  | false =>
      simp [forward, SymbolicInterpreter.step,
        SymbolicInterpreter.handleReturn, SymbolicInterpreter.pushConcrete,
        SymbolicInterpreter.pushSymbolic, SymbolicInterpreter.clearStack,
        shape, flag]

theorem hasShape_returns :
    HasShape .returns fun shape =>
      if shape.length ≤ 1 then
        some { shape with returnValue := decide (shape.length = 1) }
      else
        none := by
  intro crest
  by_cases few : crest.si.stack.length ≤ 1
  · simp only [forward, SymbolicInterpreter.step, SymbolicInterpreter.returns,
      shape, few, if_true]
    rfl
  · simp [forward, SymbolicInterpreter.step, SymbolicInterpreter.returns,
      shape, few]

/-- A marking event that goes through leaves the stack alone. -/
theorem stack_of_marking
    {si next : SymbolicInterpreter}
    {event : SymbolicInterpreter.Event}
    (marks : (si.marking? event).isSome = true)
    (stepped : si.step event = some next) :
    next.stack = si.stack ∧ next.returnValue = si.returnValue := by
  obtain ⟨⟨addr, result⟩, isMarking⟩ := Option.isSome_iff_exists.mp marks
  have viaMarking :
      si.step event = ((si.marking? event).bind Prod.snd).map Prod.snd := by
    cases event <;> first | rfl | cases marks
  rw [viaMarking, isMarking] at stepped
  obtain ⟨⟨ret, marked⟩, returned, rfl⟩ := Option.map_eq_some_iff.mp stepped
  obtain rfl : result = some (ret, marked) := returned
  have effect := SymbolicInterpreter.marked_of_marking? isMarking
  exact ⟨effect.stack, effect.returnValue⟩

theorem shape_mark
    {event : SymbolicInterpreter.Event}
    (marks : (crest.si.marking? event).isSome = true)
    (succeeds : (crest.si.step event).isSome = true) :
    (crest.mark event).map Crest.shape =
      some { crest.shape with preSymbolic := false } := by
  obtain ⟨next, stepped⟩ := Option.isSome_iff_exists.mp succeeds
  obtain ⟨stack, returnValue⟩ := stack_of_marking marks stepped
  simp [mark, forward, stepped, shape, stack, returnValue]

/-- The runtime library refines the abstract machine of stack shapes. -/
theorem shape_perform
    (crest : Crest)
    (here : Circumstances)
    (c : RuntimeCall) :
    (crest.perform here c).map Crest.shape = crest.shape.perform c := by
  cases c with
  | load addr value =>
      exact shape_forwardTracked (hasShape_load _ _) crest
  | store addr =>
      exact shape_forwardTracked (hasShape_store _) crest
  | clearStack =>
      exact shape_forwardTracked hasShape_clearStack crest
  | apply1 op value =>
      simp only [perform, StackShape.perform]
      split
      · exact shape_forwardTracked (hasShape_apply1 _ _) crest
      · rfl
  | apply2 op value =>
      simp only [perform, StackShape.perform]
      split
      · exact shape_forwardTracked (hasShape_apply2 _ _) crest
      · rfl
  | branch bid taken =>
      simp only [perform, branch]
      split <;> rfl
  | branchOnly bid =>
      rfl
  | call fid =>
      rfl
  | returns =>
      exact hasShape_returns crest
  | handleReturn value =>
      exact shape_forwardTracked (hasShape_handleReturn _) crest
  | rank addr =>
      exact shape_mark rfl rfl
  | rankNonDefaultComm1 addr =>
      exact shape_mark rfl rfl
  | rankNonDefaultComm2 comm addr =>
      simp only [perform, rankNonDefaultComm2]
      split
      · rfl
      · split <;> rfl
  | worldSizeWithLimit addr limit =>
      exact shape_mark rfl rfl
  | getMPIInfo =>
      rfl

/-- An assertion fails exactly if it does in the abstract machine. -/
theorem perform_isSome
    (crest : Crest)
    (here : Circumstances)
    (c : RuntimeCall) :
    (crest.perform here c).isSome = (crest.shape.perform c).isSome := by
  rw [← shape_perform crest here c, Option.isSome_map]

/-- A performed call steps in the abstract machine. -/
theorem shape_of_perform
    {here : Circumstances}
    {c : RuntimeCall}
    {next : Crest}
    (performed : crest.perform here c = some next) :
    crest.shape.perform c = some next.shape := by
  rw [← shape_perform crest here c, performed]
  rfl

end Crest

end Compi
