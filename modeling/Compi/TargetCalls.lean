import Compi.CrestRuntime
import Compi.InterpreterEffects
import Compi.PartialRun

/-!
# The calls of the program under test

The program under test calls the functions that instrumentation has inserted,
and the marking functions that its authors wrote.  All that these calls do to
the interpreter is to pass it events, to set the configuration of the process,
or to patch the variable of a rank in another communicator.
-/

namespace Compi

open Cil

/-- A call of the runtime library. -/
inductive TargetCall where
  | inserted (here : Circumstances) (call : RuntimeCall)
  | marks (event : SymbolicInterpreter.Event)

namespace Crest

/-- The state before the first call. -/
def start
    (input : List Value)
    (execTimes : Nat)
    (rank targetRank worldSize : Int) : Crest where
  si := SymbolicInterpreter.fresh input execTimes rank targetRank worldSize
  preSymbolic := true

/-- Whether a call patches the variable marked last. -/
def isPatch : RuntimeCall → Bool
  | .rankNonDefaultComm2 _ _ => true
  | _ => false

/-- One call; there is no variable to patch before the first one is marked. -/
def step (crest : Crest) : TargetCall → Option Crest
  | .inserted here call =>
      if isPatch call = true ∧ crest.si.numInputs = 0 then
        none
      else
        crest.perform here call
  | .marks event =>
      if event.marking.isSome then crest.mark event else none

section Cases

variable {crest next : Crest}

/-- The interpreter handles some events. -/
def Handles (crest next : Crest) : Prop :=
  ∃ events,
    PartialRun.run? SymbolicInterpreter.step crest.si events = some next.si

theorem handles_forward
    {event : SymbolicInterpreter.Event}
    (forwarded : crest.forward event = some next) :
    Handles crest next := by
  obtain ⟨si, stepped, rfl⟩ := Option.map_eq_some_iff.mp forwarded
  refine ⟨[event], ?_⟩
  rw [PartialRun.run?_cons_eq_some]
  exact ⟨si, stepped, rfl⟩

theorem handles_forwardTracked
    {event : SymbolicInterpreter.Event}
    (forwarded : crest.forwardTracked event = some next) :
    Handles crest next := by
  unfold forwardTracked at forwarded
  split at forwarded
  · obtain rfl := Option.some.inj forwarded
    exact ⟨[], rfl⟩
  · exact handles_forward forwarded

theorem handles_mark
    {event : SymbolicInterpreter.Event}
    (marked : crest.mark event = some next) :
    Handles crest next := by
  obtain ⟨events, ran⟩ := handles_forward marked
  exact ⟨events, ran⟩

theorem handles_branch
    {bid : BranchId}
    {taken : Bool}
    (branched : crest.branch bid taken = some next) :
    Handles crest next := by
  obtain rfl := Option.some.inj branched
  cases untracked : crest.preSymbolic with
  | true =>
      refine ⟨[.load 0 (if taken then 1 else 0), .branch bid taken], ?_⟩
      simp only [↓reduceIte]
      rfl
  | false =>
      refine ⟨[.branch bid taken], ?_⟩
      simp only [Bool.false_eq_true, ↓reduceIte]
      rfl

/-- Whether a call works on the stack and on memory only. -/
def isTracked : RuntimeCall → Bool
  | .load _ _ | .store _ | .clearStack => true
  | .apply1 _ _ | .apply2 _ _ | .handleReturn _ => true
  | _ => false

/-- Such a call is one event that marks nothing. -/
theorem exists_tracked
    {here : Circumstances}
    {call : RuntimeCall}
    (tracked : isTracked call = true)
    (performed : crest.perform here call = some next) :
    ∃ event : SymbolicInterpreter.Event,
      event.marking = none ∧ crest.forwardTracked event = some next := by
  cases call with
  | load | store | clearStack | handleReturn => exact ⟨_, rfl, performed⟩
  | apply1 op value =>
      simp only [perform] at performed
      split at performed
      · exact ⟨_, rfl, performed⟩
      · cases performed
  | apply2 op value =>
      simp only [perform] at performed
      split at performed
      · refine ⟨_, ?_, performed⟩
        unfold apply2Event
        dsimp only
        split
        · rfl
        · rfl
      · cases performed
  | _ => cases tracked

/-- What an inserted call does to the interpreter. -/
theorem perform_cases
    {here : Circumstances}
    {call : RuntimeCall}
    (performed : crest.perform here call = some next) :
    Handles crest next ∨
      (isPatch call = true ∧
        ∃ addr, next = crest.rankNonDefaultComm2 here addr) ∨
      next = crest.getMPIInfo here := by
  cases call with
  | load | store | clearStack | apply1 | apply2 | handleReturn =>
      obtain ⟨event, _, forwarded⟩ := exists_tracked rfl performed
      exact Or.inl (handles_forwardTracked forwarded)
  | branch => exact Or.inl (handles_branch performed)
  | branchOnly | call | returns =>
      exact Or.inl (handles_forward performed)
  | rank | rankNonDefaultComm1 | worldSizeWithLimit =>
      exact Or.inl (handles_mark performed)
  | rankNonDefaultComm2 comm addr =>
      obtain rfl := Option.some.inj performed
      exact Or.inr (Or.inl ⟨rfl, addr, rfl⟩)
  | getMPIInfo =>
      obtain rfl := Option.some.inj performed
      exact Or.inr (Or.inr rfl)

/-- What a call does to the interpreter. -/
theorem step_cases
    {call : TargetCall}
    (stepped : crest.step call = some next) :
    Handles crest next ∨
      (0 < crest.si.numInputs ∧
        ∃ here addr, next = crest.rankNonDefaultComm2 here addr) ∨
      ∃ here, next = crest.getMPIInfo here := by
  cases call with
  | marks event =>
      simp only [step] at stepped
      split at stepped
      · exact Or.inl (handles_mark stepped)
      · cases stepped
  | inserted here call =>
      simp only [step] at stepped
      split at stepped
      · cases stepped
      · next guarded =>
          rcases perform_cases stepped with
            handles | ⟨patches, addr, isNext⟩ | isNext
          · exact Or.inl handles
          · have marked : 0 < crest.si.numInputs :=
              Nat.pos_of_ne_zero fun unmarked => guarded ⟨patches, unmarked⟩
            exact Or.inr (Or.inl ⟨marked, here, addr, isNext⟩)
          · exact Or.inr (Or.inr ⟨here, isNext⟩)

end Cases

end Crest

end Compi
