/-!
# Programs that can stop

A stateful program either returns a value or stops; the state it reached is
kept in both cases.  A rule about a program has a precondition, a
postcondition for its value, and a condition that is true of the state
wherever it stops.
-/

namespace Compi.StoppableRun

/-- A program over a state that can stop instead of returning. -/
abbrev Program (State Stop Value : Type) : Type :=
  ExceptT Stop (StateM State) Value

/-- Whether a loop goes on with new loop variables or ends with a result. -/
inductive Next (Locals Result : Type) where
  | again (locals : Locals)
  | done (result : Result)

/-- What is true of the loop variables, or of the result. -/
def Next.Holds
    {Locals Result : Type}
    (onAgain : Locals → Prop)
    (onDone : Result → Prop) : Next Locals Result → Prop
  | again locals => onAgain locals
  | done result => onDone result

/-- Repeat a loop body at most a number of times. -/
def loop
    {State Stop Locals Result : Type}
    (body : Locals → Program State Stop (Next Locals Result)) :
    Nat → Locals → Program State Stop (Next Locals Result)
  | 0, locals => pure (.again locals)
  | bound + 1, locals => do
      match ← body locals with
      | .again locals => loop body bound locals
      | .done result => return .done result

variable {State Stop : Type}

/--
From every state with the precondition, the program returns with its
postcondition or stops in a state with the condition for stops.
-/
def Rule
    {Value : Type}
    (stopped : State → Prop)
    (pre : State → Prop)
    (program : Program State Stop Value)
    (post : Value → State → Prop) : Prop :=
  ∀ state,
    pre state →
    match program.run.run state with
    | (.ok value, after) => post value after
    | (.error _, after) => stopped after

namespace Rule

variable
  {Value Result Locals : Type}
  {stopped pre : State → Prop}
  {program : Program State Stop Value}
  {post : Value → State → Prop}

theorem pure
    {value : Value}
    (holds : ∀ state, pre state → post value state) :
    Rule stopped pre (Pure.pure value : Program State Stop Value) post :=
  holds

theorem throw
    {stop : Stop}
    (holds : ∀ state, pre state → stopped state) :
    Rule stopped pre (MonadExcept.throw stop : Program State Stop Value)
      post :=
  holds

/-- Run one program after another. -/
theorem bind
    {next : Value → Program State Stop Result}
    {final : Result → State → Prop}
    (first : Rule stopped pre program post)
    (second : ∀ value, Rule stopped (post value) (next value) final) :
    Rule stopped pre (program >>= next) final := by
  intro state holds
  have reached := first state holds
  simp only [ExceptT.run_bind, StateT.run_bind]
  revert reached
  rcases program.run.run state with ⟨stop | value, after⟩
  · intro reached
    exact reached
  · intro reached
    exact second value after reached

/-- Strengthen what is known before and weaken what is known after. -/
theorem weaken
    {weakerPost : Value → State → Prop}
    {strongerPre : State → Prop}
    (rule : Rule stopped pre program post)
    (before : ∀ state, strongerPre state → pre state)
    (after : ∀ value state, post value state → weakerPost value state) :
    Rule stopped strongerPre program weakerPost := by
  intro state holds
  have reached := rule state (before state holds)
  revert reached
  rcases program.run.run state with ⟨stop | value, final⟩
  · intro reached
    exact reached
  · intro reached
    exact after value final reached

theorem strengthen
    {strongerPre : State → Prop}
    (rule : Rule stopped pre program post)
    (before : ∀ state, strongerPre state → pre state) :
    Rule stopped strongerPre program post :=
  rule.weaken before fun _ _ holds => holds

/-- Weaken what is known where the program stops. -/
theorem relax
    {weakerStopped : State → Prop}
    (rule : Rule stopped pre program post)
    (weaker : ∀ state, stopped state → weakerStopped state) :
    Rule weakerStopped pre program post := by
  intro state holds
  have reached := rule state holds
  revert reached
  rcases program.run.run state with ⟨stop | value, after⟩
  · intro reached
    exact weaker after reached
  · intro reached
    exact reached

/-- Prove a rule from each state on its own. -/
theorem ofStates
    (rule :
      ∀ state,
        pre state → Rule stopped (fun current => current = state) program post) :
    Rule stopped pre program post := by
  intro state holds
  exact rule state holds state rfl

section FromState

variable {state : State}

theorem pureFrom
    {value : Value}
    (holds : post value state) :
    Rule stopped (fun current => current = state)
      (Pure.pure value : Program State Stop Value) post :=
  Rule.pure fun _ same => same ▸ holds

theorem throwFrom
    {stop : Stop}
    (holds : stopped state) :
    Rule stopped (fun current => current = state)
      (MonadExcept.throw stop : Program State Stop Value) post :=
  Rule.throw fun _ same => same ▸ holds

/-- Reading the state returns it. -/
theorem getFrom
    {next : State → Program State Stop Value}
    (rule : Rule stopped (fun current => current = state) (next state) post) :
    Rule stopped (fun current => current = state) (get >>= next) post := by
  rintro current rfl
  exact rule current rfl

/-- Changing the state changes it. -/
theorem modifyFrom
    {update : State → State}
    {next : Unit → Program State Stop Value}
    (rule :
      Rule stopped (fun current => current = update state) (next ()) post) :
    Rule stopped (fun current => current = state) (modify update >>= next)
      post := by
  rintro current rfl
  exact rule (update current) rfl

theorem modifyLast
    {update : State → State}
    {post : Unit → State → Prop}
    (holds : post () (update state)) :
    Rule stopped (fun current => current = state)
      (modify update : Program State Stop Unit) post := by
  rintro current rfl
  exact holds

end FromState

/-- A loop keeps what its body keeps, and ends with what its body ends with. -/
theorem loop
    {body : Locals → Program State Stop (Next Locals Result)}
    (invariant : Locals → State → Prop)
    (post : Result → State → Prop)
    (step :
      ∀ locals,
        Rule stopped (invariant locals) (body locals)
          fun next state =>
            next.Holds (invariant · state) (post · state))
    (bound : Nat)
    (locals : Locals) :
    Rule stopped (invariant locals)
      (StoppableRun.loop body bound locals)
      fun next state =>
        next.Holds (invariant · state) (post · state) := by
  induction bound generalizing locals with
  | zero =>
      exact Rule.pure fun state holds => holds
  | succ bound inductionHypothesis =>
      refine Rule.bind (step locals) ?_
      intro next
      cases next with
      | again locals =>
          exact inductionHypothesis locals
      | done result =>
          exact Rule.pure fun state holds => holds

/-- Use what is known independently of the state. -/
theorem fact
    {known : Prop}
    (rule : known → Rule stopped pre program post) :
    Rule stopped (fun state => pre state ∧ known) program post := by
  intro state holds
  exact rule holds.2 state holds.1

/--
A loop keeps a state fact, and what its body keeps true of the loop variables
under this fact.
-/
theorem loopKnowing
    {body : Locals → Program State Stop (Next Locals Result)}
    {held : State → Prop}
    (known : Locals → Prop)
    (finished : Result → Prop)
    (step :
      ∀ locals,
        known locals →
        Rule stopped held (body locals)
          fun next state => held state ∧ next.Holds known finished)
    (bound : Nat)
    {locals : Locals}
    (initially : known locals) :
    Rule stopped held (StoppableRun.loop body bound locals)
      fun next state => held state ∧ next.Holds known finished := by
  have bodyRule :
      ∀ locals,
        Rule stopped (fun state => held state ∧ known locals) (body locals)
          fun next state =>
            next.Holds (fun locals => held state ∧ known locals)
              (fun result => held state ∧ finished result) := by
    intro locals
    apply Rule.fact
    intro knownLocals
    refine Rule.weaken (step locals knownLocals) (fun _ => id) ?_
    intro next state holds
    cases next with
    | again locals =>
        exact holds
    | done result =>
        exact holds
  refine Rule.weaken
    (Rule.loop
      (fun locals state => held state ∧ known locals)
      (fun result state => held state ∧ finished result)
      bodyRule bound locals)
    (fun _ holds => ⟨holds, initially⟩) ?_
  intro next state holds
  cases next with
  | again locals =>
      exact holds
  | done result =>
      exact holds

/-- Fix what a part of the state is before the program. -/
theorem ofView
    {View : Type}
    (view : State → View)
    (rule :
      ∀ before,
        Rule stopped (fun state => pre state ∧ view state = before) program
          post) :
    Rule stopped pre program post := by
  intro state holds
  exact rule (view state) state ⟨holds, rfl⟩

end Rule

/-- A part of the state is left as it is. -/
def Keeps
    {Value View : Type}
    (view : State → View)
    (program : Program State Stop Value) : Prop :=
  ∀ state, view (program.run.run state).2 = view state

namespace Keeps

variable
  {Value Result View : Type}
  {view : State → View}
  {program : Program State Stop Value}

theorem pure
    {value : Value} :
    Keeps view (Pure.pure value : Program State Stop Value) :=
  fun _ => rfl

theorem throw
    {stop : Stop} :
    Keeps view (MonadExcept.throw stop : Program State Stop Value) :=
  fun _ => rfl

theorem get : Keeps view (MonadState.get : Program State Stop State) :=
  fun _ => rfl

theorem modify
    {update : State → State}
    (same : ∀ state, view (update state) = view state) :
    Keeps view (modify update : Program State Stop Unit) :=
  same

theorem bind
    {next : Value → Program State Stop Result}
    (first : Keeps view program)
    (second : ∀ value, Keeps view (next value)) :
    Keeps view (program >>= next) := by
  intro state
  have reached := first state
  simp only [ExceptT.run_bind, StateT.run_bind]
  revert reached
  rcases program.run.run state with ⟨stop | value, after⟩
  · intro reached
    exact reached
  · intro reached
    exact (second value after).trans reached

theorem foldlM
    {Item : Type}
    {body : Result → Item → Program State Stop Result}
    (step : ∀ result item, Keeps view (body result item))
    (items : List Item)
    (result : Result) :
    Keeps view (items.foldlM body result) := by
  induction items generalizing result with
  | nil =>
      exact Keeps.pure
  | cons item rest inductionHypothesis =>
      rw [List.foldlM_cons]
      exact Keeps.bind (step result item) inductionHypothesis

theorem mapM
    {Item : Type}
    {body : Item → Program State Stop Result}
    (step : ∀ item, Keeps view (body item))
    (items : List Item) :
    Keeps view (items.mapM body) := by
  induction items with
  | nil =>
      exact Keeps.pure
  | cons item rest inductionHypothesis =>
      rw [List.mapM_cons]
      refine Keeps.bind (step item) fun first => ?_
      exact Keeps.bind inductionHypothesis fun _ => Keeps.pure

/-- What is known of a part of the state stays known if the part stays. -/
theorem rule
    (known stopped : View → Prop)
    (keeps : Keeps view program)
    (stops : ∀ part, known part → stopped part) :
    Rule (fun state => stopped (view state)) (fun state => known (view state))
      program fun _ state => known (view state) := by
  intro state holds
  have reached := keeps state
  revert reached
  rcases program.run.run state with ⟨stop | value, after⟩
  · intro reached
    exact stops _ (reached ▸ holds)
  · intro reached
    show known (view after)
    rw [show view after = view state from reached]
    exact holds

end Keeps

section Outcomes

/-- From a state the program returns a value in another state. -/
abbrev Yields
    {Value : Type}
    (program : Program State Stop Value)
    (state : State)
    (value : Value)
    (after : State) : Prop :=
  program.run.run state = (.ok value, after)

/-- From a state the program stops in another state. -/
abbrev Stops
    {Value : Type}
    (program : Program State Stop Value)
    (state : State)
    (stop : Stop)
    (after : State) : Prop :=
  program.run.run state = (.error stop, after)

variable
  {Value Result Locals : Type}
  {program : Program State Stop Value}
  {next : Value → Program State Stop Result}
  {state middle after : State}
  {value : Value}
  {stop : Stop}

/-- A program after one that returns runs from the state that one reached. -/
theorem Yields.run_bind
    (first : Yields program state value after)
    (next : Value → Program State Stop Result) :
    (program >>= next).run.run state = (next value).run.run after := by
  simp only [ExceptT.run_bind, StateT.run_bind, first]
  rfl

theorem Yields.bind
    {result : Result}
    (first : Yields program state value middle)
    (second : Yields (next value) middle result after) :
    Yields (program >>= next) state result after :=
  (first.run_bind next).trans second

theorem Yields.thenStops
    (first : Yields program state value middle)
    (second : Stops (next value) middle stop after) :
    Stops (program >>= next) state stop after :=
  (first.run_bind next).trans second

/-- A program after one that stops is not run. -/
theorem Stops.bind
    (first : Stops program state stop after)
    (next : Value → Program State Stop Result) :
    Stops (program >>= next) state stop after := by
  simp only [Stops, ExceptT.run_bind, StateT.run_bind, first]
  rfl

/-- A round of a loop leaves one round less. -/
theorem Yields.run_loop
    {body : Locals → Program State Stop (Next Locals Result)}
    {locals again : Locals}
    (step : Yields (body locals) state (.again again) after)
    (bound : Nat) :
    (loop body (bound + 1) locals).run.run state =
      (loop body bound again).run.run after :=
  step.run_bind _

end Outcomes

end Compi.StoppableRun
