import Compi.StoppableRun
import Mathlib.Order.Defs.Unbundled

/-!
# Assumptions about the end of a run

What the environment of a program does is known only when the program has
asked for it.  A rule in hindsight assumes something of the state in which the
program ends.  If the assumption survives going back along a run, a sequence
of programs can be followed step by step: in each state it may be assumed, as
otherwise nothing is claimed of the end.
-/

namespace Compi.StoppableRun

variable {State Stop Value Result : Type}

/-- A program moves its state along a relation, wherever it ends. -/
def Advances
    (along : State → State → Prop)
    (program : Program State Stop Value) : Prop :=
  ∀ state, along state (program.run.run state).2

/--
From every state with the precondition, the program returns with its
postcondition, provided that the assumption is true where it ends.
-/
def InHindsight
    (known : State → Prop)
    (pre : State → Prop)
    (program : Program State Stop Value)
    (post : Value → State → Prop) : Prop :=
  Rule (fun after => ¬known after) pre program
    fun value after => known after → post value after

namespace Advances

variable
  {along : State → State → Prop}
  {program : Program State Stop Value}

theorem keeps
    {View : Type}
    {view : State → View}
    (keeps : Keeps view program)
    (same : ∀ before after, view after = view before → along before after) :
    Advances along program :=
  fun state => same state _ (keeps state)

theorem modify
    {update : State → State}
    (moves : ∀ state, along state (update state)) :
    Advances along (modify update : Program State Stop Unit) :=
  moves

variable [IsPreorder State along]

theorem pure {value : Value} :
    Advances along (Pure.pure value : Program State Stop Value) :=
  fun state => refl_of along state

theorem throw {stop : Stop} :
    Advances along (MonadExcept.throw stop : Program State Stop Value) :=
  fun state => refl_of along state

theorem get :
    Advances along (MonadState.get : Program State Stop State) :=
  fun state => refl_of along state

theorem bind
    {next : Value → Program State Stop Result}
    (first : Advances along program)
    (second : ∀ value, Advances along (next value)) :
    Advances along (program >>= next) := by
  intro state
  have reached := first state
  simp only [ExceptT.run_bind, StateT.run_bind]
  revert reached
  rcases program.run.run state with ⟨stop | value, after⟩
  · intro reached
    exact reached
  · intro reached
    exact trans_of along reached (second value after)

/-- Where the first of two programs ends is before the end of both. -/
theorem endOfFirst
    {next : Value → Program State Stop Result}
    (second : ∀ value, Advances along (next value))
    (state : State) :
    along (program.run.run state).2 ((program >>= next).run.run state).2 := by
  simp only [ExceptT.run_bind, StateT.run_bind]
  rcases program.run.run state with ⟨stop | value, after⟩
  · exact refl_of along after
  · exact second value after

theorem loop
    {Locals : Type}
    {body : Locals → Program State Stop (Next Locals Result)}
    (step : ∀ locals, Advances along (body locals))
    (bound : Nat)
    (locals : Locals) :
    Advances along (StoppableRun.loop body bound locals) := by
  induction bound generalizing locals with
  | zero => exact Advances.pure
  | succ bound inductionHypothesis =>
      refine Advances.bind (step locals) fun next => ?_
      cases next with
      | again locals => exact inductionHypothesis locals
      | done result => exact Advances.pure

end Advances

namespace InHindsight

variable
  {along : State → State → Prop}
  {known : State → Prop}
  {program : Program State Stop Value}
  {next : Value → Program State Stop Result}
  {state : State}
  {value : Value}
  {post : Value → State → Prop}
  {final : Result → State → Prop}

theorem pure
    (holds : post value state) :
    InHindsight known (fun current => current = state)
      (Pure.pure value : Program State Stop Value) post :=
  Rule.pureFrom fun _ => holds

theorem weaken
    {pre : State → Prop}
    {weaker : Value → State → Prop}
    (rule : InHindsight known pre program post)
    (after : ∀ value state, known state → post value state → weaker value state) :
    InHindsight known pre program weaker :=
  Rule.weaken rule (fun _ => id) fun value state holds isKnown =>
    after value state isKnown (holds isKnown)

/-- What is not known in a state is not known later. -/
theorem ofUnknown
    (antitone : ∀ before after, along before after → known after → known before)
    (advances : Advances along program)
    (unknown : ¬known state) :
    InHindsight known (fun current => current = state) program post := by
  rintro current rfl
  have reached := advances current
  revert reached
  rcases program.run.run current with ⟨stop | value, after⟩
  · intro reached isKnown
    exact unknown (antitone current after reached isKnown)
  · intro reached isKnown
    exact absurd (antitone current after reached isKnown) unknown

/-- The assumption may be used between two programs. -/
theorem bind
    (antitone : ∀ before after, along before after → known after → known before)
    {pre : State → Prop}
    (first : InHindsight known pre program post)
    (advances : ∀ value, Advances along (next value))
    (second :
      ∀ value middle,
        known middle →
        post value middle →
        InHindsight known (fun current => current = middle) (next value)
          final) :
    InHindsight known pre (program >>= next) final := by
  refine Rule.bind first fun value => ?_
  apply Rule.ofStates
  intro middle reached
  by_cases isKnown : known middle
  · exact second value middle isKnown (reached isKnown)
  · exact ofUnknown antitone (advances value) isKnown

/-- Go on after a program that returns. -/
theorem afterReturn
    {middle : State}
    (yields : Yields program state value middle)
    (rule :
      InHindsight known (fun current => current = middle) (next value)
        final) :
    InHindsight known (fun current => current = state) (program >>= next)
      final := by
  rintro current rfl
  rw [yields.run_bind]
  exact rule middle rfl

/-- Go on after a program that returns, with the assumption. -/
theorem afterYields
    {middle : State}
    (antitone : ∀ before after, along before after → known after → known before)
    (yields : Yields program state value middle)
    (advances : Advances along (next value))
    (second :
      known middle →
      InHindsight known (fun current => current = middle) (next value)
        final) :
    InHindsight known (fun current => current = state) (program >>= next)
      final := by
  refine afterReturn yields ?_
  by_cases isKnown : known middle
  · exact second isKnown
  · exact ofUnknown antitone advances isKnown

/-- Where the assumption is true of the end, the program returns. -/
theorem exists_yields
    (rule :
      InHindsight known (fun current => current = state) program post)
    (isKnown : known (program.run.run state).2) :
    ∃ value after,
      Yields program state value after ∧ known after ∧ post value after := by
  have reached := rule state rfl
  revert reached isKnown
  rcases isEnd : program.run.run state with ⟨stop | value, after⟩
  · intro isKnown unknown
    exact absurd isKnown unknown
  · intro isKnown holds
    exact ⟨value, after, isEnd, isKnown, holds isKnown⟩

end InHindsight

end Compi.StoppableRun
