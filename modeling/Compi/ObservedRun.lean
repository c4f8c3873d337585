import Compi.StoppableRun

/-!
# Observed programs

A program whose state also carries a log, latest entry first, says what
happens inside a run.  The log never decides anything: without it an observed
program is the program it observes.
-/

namespace Compi.StoppableRun

variable {State Stop Observation Value : Type}

/-- A program that leaves the log alone. -/
def lift (program : Program State Stop Value) :
    Program (State × List Observation) Stop Value :=
  ExceptT.mk fun (state, log) =>
    let (result, after) := program.run.run state
    (result, (after, log))

/-- Enter an observation of the state in the log. -/
def note (observe : State → Observation) :
    Program (State × List Observation) Stop Unit :=
  modify fun (state, log) => (state, observe state :: log)

/-- Without its log an observed program is another program. -/
def Erases
    (observed : Program (State × List Observation) Stop Value)
    (program : Program State Stop Value) : Prop :=
  ∀ state log,
    ((observed.run.run (state, log)).1, (observed.run.run (state, log)).2.1) =
      program.run.run state

/-- What a program observes is added to the log. -/
def Extends
    (pre : State × List Observation → Prop)
    (program : Program (State × List Observation) Stop Value) : Prop :=
  ∀ observed,
    pre observed →
    ∃ added, (program.run.run observed).2.2 = added ++ observed.2

namespace Erases

variable
  {Result Locals : Type}
  {observed : Program (State × List Observation) Stop Value}
  {program : Program State Stop Value}

theorem pure
    {value : Value} :
    Erases (Pure.pure value : Program (State × List Observation) Stop Value)
      (Pure.pure value) :=
  fun _ _ => rfl

theorem throw
    {stop : Stop} :
    Erases
      (MonadExcept.throw stop :
        Program (State × List Observation) Stop Value)
      (MonadExcept.throw stop) :=
  fun _ _ => rfl

theorem lift (program : Program State Stop Value) :
    Erases (StoppableRun.lift program :
      Program (State × List Observation) Stop Value) program :=
  fun _ _ => rfl

theorem bind
    {observedNext :
      Value → Program (State × List Observation) Stop Result}
    {next : Value → Program State Stop Result}
    (first : Erases observed program)
    (second : ∀ value, Erases (observedNext value) (next value)) :
    Erases (observed >>= observedNext) (program >>= next) := by
  intro state log
  have reached := first state log
  simp only [ExceptT.run_bind, StateT.run_bind]
  rw [← reached]
  rcases observed.run.run (state, log) with ⟨stop | value, after, later⟩
  · rfl
  · exact second value after later

/-- A note is left out. -/
theorem note
    {observe : State → Observation}
    {observedNext :
      Unit → Program (State × List Observation) Stop Result}
    {next : Program State Stop Result}
    (second : Erases (observedNext ()) next) :
    Erases (StoppableRun.note observe >>= observedNext) next :=
  fun state log => second state (observe state :: log)

theorem loop
    {observedBody :
      Locals → Program (State × List Observation) Stop (Next Locals Result)}
    {body : Locals → Program State Stop (Next Locals Result)}
    (step : ∀ locals, Erases (observedBody locals) (body locals))
    (bound : Nat)
    (locals : Locals) :
    Erases (StoppableRun.loop observedBody bound locals)
      (StoppableRun.loop body bound locals) := by
  induction bound generalizing locals with
  | zero =>
      exact Erases.pure
  | succ bound inductionHypothesis =>
      refine Erases.bind (step locals) fun next => ?_
      cases next with
      | again locals =>
          exact inductionHypothesis locals
      | done result =>
          exact Erases.pure

end Erases

namespace Rule

variable
  {stopped pre : State × List Observation → Prop}
  {program : Program State Stop Value}

/-- A program that leaves the log alone has its rules for every log. -/
theorem lift
    {post : Value → State × List Observation → Prop}
    (rule :
      ∀ log,
        Rule (fun state => stopped (state, log))
          (fun state => pre (state, log)) program
          fun value state => post value (state, log)) :
    Rule stopped pre (StoppableRun.lift program) post := by
  rintro ⟨state, log⟩ holds
  have reached := rule log state holds
  revert reached
  unfold StoppableRun.lift
  simp only [ExceptT.run_mk, StateT.run]
  rcases program.run state with ⟨stop | value, after⟩
  · intro reached
    exact reached
  · intro reached
    exact reached

/-- A note adds an observation of the state to the log. -/
theorem noteThen
    {observe : State → Observation}
    {next : Unit → Program (State × List Observation) Stop Value}
    {post : Value → State × List Observation → Prop}
    (noted : State × List Observation → Prop)
    (holds :
      ∀ state log, pre (state, log) → noted (state, observe state :: log))
    (rule : Rule stopped noted (next ()) post) :
    Rule stopped pre (StoppableRun.note observe >>= next) post :=
  fun (state, log) before =>
    rule (state, observe state :: log) (holds state log before)

/-- What is true wherever a program stops or returns is true of its run. -/
theorem afterRun
    {held pre : State → Prop}
    {program : Program State Stop Value}
    (rule : Rule held pre program fun _ => held)
    {state : State}
    (initially : pre state) :
    held (program.run.run state).2 := by
  have reached := rule state initially
  revert reached
  split
  · next final ran =>
      intro holds
      rw [ran]
      exact holds
  · next final ran =>
      intro holds
      rw [ran]
      exact holds

/-- Two rules about one program. -/
theorem also
    {stopped otherStopped pre : State → Prop}
    {program : Program State Stop Value}
    {post otherPost : Value → State → Prop}
    (rule : Rule stopped pre program post)
    (other : Rule otherStopped pre program otherPost) :
    Rule stopped pre program
      fun value state => post value state ∧ otherPost value state := by
  intro state holds
  have reached := rule state holds
  have otherReached := other state holds
  revert reached otherReached
  split
  · intro reached otherReached
    exact ⟨reached, otherReached⟩
  · intro reached _
    exact reached

/-- What is known independently of the state stays known. -/
theorem unconditional
    {known : Prop}
    (program : Program State Stop Value) :
    Rule (fun _ => True) (fun _ => known) program fun _ _ => known := by
  intro state isKnown
  split
  · exact isKnown
  · trivial

/-- Go on with what is true of a value whatever the state is. -/
theorem bindFact
    {Result : Type}
    {program : Program State Stop Value}
    {next : Value → Program State Stop Result}
    {fact : Value → Prop}
    {final : Result → State → Prop}
    (first :
      Rule (fun _ => True) (fun _ => True) program fun value _ => fact value)
    (second :
      ∀ value,
        fact value →
        Rule (fun _ => True) (fun _ => True) (next value) final) :
    Rule (fun _ => True) (fun _ => True) (program >>= next) final :=
  Rule.bind first fun value state isFact => second value isFact state trivial

/-- A program that leaves the log alone keeps what is known of the log. -/
theorem keepLog
    (held : List Observation → Prop)
    (program : Program State Stop Value) :
    Rule (fun observed => held observed.2) (fun observed => held observed.2)
      (StoppableRun.lift program)
      fun _ observed => held observed.2 := by
  apply Rule.lift
  intro log state holds
  dsimp only
  split
  · exact holds
  · exact holds

/-- What is true of its value whatever the state is also known. -/
theorem keepLogKnowing
    (held : List Observation → Prop)
    {fact : Value → Prop}
    (rule :
      Rule (fun _ => True) (fun _ => True) program fun value _ => fact value) :
    Rule (fun observed => held observed.2) (fun observed => held observed.2)
      (StoppableRun.lift program)
      fun value observed => held observed.2 ∧ fact value := by
  apply Rule.lift
  intro log state holds
  have reached := rule state trivial
  revert reached
  dsimp only
  split
  · intro isFact
    exact ⟨holds, isFact⟩
  · intro _
    exact holds

end Rule

namespace Extends

variable
  {Result : Type}
  {pre : State × List Observation → Prop}

theorem pure
    {value : Value} :
    Extends pre
      (Pure.pure value : Program (State × List Observation) Stop Value) :=
  fun _ _ => ⟨[], rfl⟩

theorem throw
    {stop : Stop} :
    Extends pre
      (MonadExcept.throw stop :
        Program (State × List Observation) Stop Value) :=
  fun _ _ => ⟨[], rfl⟩

theorem lift (program : Program State Stop Value) :
    Extends pre (StoppableRun.lift program) :=
  fun _ _ => ⟨[], rfl⟩

theorem bind
    {stopped : State × List Observation → Prop}
    {program : Program (State × List Observation) Stop Value}
    {post : Value → State × List Observation → Prop}
    {next : Value → Program (State × List Observation) Stop Result}
    (first : Extends pre program)
    (rule : Rule stopped pre program post)
    (second : ∀ value, Extends (post value) (next value)) :
    Extends pre (program >>= next) := by
  intro observed holds
  obtain ⟨added, logged⟩ := first observed holds
  have reached := rule observed holds
  simp only [ExceptT.run_bind, StateT.run_bind]
  revert logged reached
  rcases program.run.run observed with ⟨stop | value, after⟩
  · intro logged _
    exact ⟨added, logged⟩
  · intro logged reached
    obtain ⟨more, extended⟩ := second value after reached
    refine ⟨more ++ added, ?_⟩
    rw [List.append_assoc, ← logged]
    exact extended

theorem noteThen
    {observe : State → Observation}
    {next : Unit → Program (State × List Observation) Stop Result}
    (noted : State × List Observation → Prop)
    (holds :
      ∀ state log, pre (state, log) → noted (state, observe state :: log))
    (second : Extends noted (next ())) :
    Extends pre (StoppableRun.note observe >>= next) := by
  rintro ⟨state, log⟩ before
  obtain ⟨added, logged⟩ :=
    second (state, observe state :: log) (holds state log before)
  refine ⟨added ++ [observe state], ?_⟩
  rw [List.append_assoc]
  exact logged

end Extends

/-- A program that leaves the log alone reaches the same state. -/
theorem Yields.lift
    {program : Program State Stop Value}
    {state after : State}
    {value : Value}
    (ran : Yields program state value after)
    (log : List Observation) :
    Yields (StoppableRun.lift program) (state, log) value (after, log) :=
  congrArg
    (fun reached : Except Stop Value × State =>
      (reached.1, (reached.2, log)))
    ran

end Compi.StoppableRun
