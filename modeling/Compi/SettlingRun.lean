import Compi.ObservedRun

/-!
# Programs that settle

A program can be given a cap, at which it stops, and fuel, without which it
gives up.  It settles if with enough fuel its outcome no longer depends on the
fuel, nor on the cap unless it stops at the cap.
-/

namespace Compi.StoppableRun

variable {Cap State Stop Observation Value Result : Type}

/-- A program never stops for a reason. -/
def Avoids (reason : Stop) (program : Program State Stop Value) : Prop :=
  ∀ state, (program.run.run state).1 ≠ .error reason

namespace Avoids

variable {reason stop : Stop} {program : Program State Stop Value}

theorem pure
    {value : Value} :
    Avoids reason (Pure.pure value : Program State Stop Value) := by
  intro state stops
  cases stops

theorem throw (other : stop ≠ reason) :
    Avoids reason (MonadExcept.throw stop : Program State Stop Value) := by
  intro state stops
  exact other (Except.error.inj stops)

theorem get : Avoids reason (MonadState.get : Program State Stop State) := by
  intro state stops
  cases stops

theorem modify
    {update : State → State} :
    Avoids reason
      (modifyGet fun state => (PUnit.unit, update state) :
        Program State Stop PUnit) := by
  intro state stops
  cases stops

theorem bind
    {next : Value → Program State Stop Result}
    (first : Avoids reason program)
    (second : ∀ value, Avoids reason (next value)) :
    Avoids reason (program >>= next) := by
  intro state
  have avoided := first state
  simp only [ExceptT.run_bind, StateT.run_bind]
  revert avoided
  rcases program.run.run state with ⟨stop | value, after⟩
  · intro avoided stops
    exact avoided (congrArg Except.error (Except.error.inj stops))
  · exact fun _ => second value after

end Avoids

/--
With enough fuel a program has an outcome that is not the lack of fuel, or it
stops at its cap.
-/
def Settles
    (capped exhausted : Stop)
    (program : Cap → Nat → Program State Stop Value)
    (state : State) : Prop :=
  ∃ outcome : Except Stop Value × State,
    outcome.1 ≠ .error exhausted ∧
      ∃ bound, ∀ cap fuel,
        bound ≤ fuel →
        (program cap fuel).run.run state = outcome ∨
          ((program cap fuel).run.run state).1 = .error capped

namespace Settles

variable {capped exhausted : Stop} {state : State}

/-- What follows a program that stops is not run. -/
theorem bind_stops
    {program : Program State Stop Value}
    {next : Value → Program State Stop Result}
    {stop : Stop}
    (stopped : (program.run.run state).1 = .error stop) :
    ((program >>= next).run.run state).1 = .error stop := by
  simp only [ExceptT.run_bind, StateT.run_bind]
  revert stopped
  rcases program.run.run state with ⟨other | value, after⟩
  · intro stopped
    exact congrArg Except.error (Except.error.inj stopped)
  · intro stopped
    cases stopped

/-- A program without cap and fuel settles unless it lacks fuel. -/
theorem constant
    {program : Program State Stop Value}
    (avoids : Avoids exhausted program) :
    Settles capped exhausted (fun (_ : Cap) _ => program) state :=
  ⟨program.run.run state, avoids state, 0, fun _ _ _ => .inl rfl⟩

/-- One part after another. -/
theorem bind
    {program : Cap → Nat → Program State Stop Value}
    {next : Cap → Nat → Value → Program State Stop Result}
    (first : Settles capped exhausted program state)
    (second :
      ∀ value after,
        Settles capped exhausted (fun cap fuel => next cap fuel value) after) :
    Settles capped exhausted
      (fun cap fuel => program cap fuel >>= next cap fuel) state := by
  obtain ⟨⟨result, after⟩, avoids, bound, settles⟩ := first
  cases result with
  | error stop =>
      refine ⟨(.error stop, after), ?_, bound, ?_⟩
      · intro stops
        exact avoids (congrArg Except.error (Except.error.inj stops))
      · intro cap fuel enough
        rcases settles cap fuel enough with same | stopped
        · simp only [ExceptT.run_bind, StateT.run_bind]
          rw [same]
          exact .inl rfl
        · exact .inr (bind_stops stopped)
  | ok value =>
      obtain ⟨outcome, avoidsNext, boundNext, settlesNext⟩ :=
        second value after
      refine ⟨outcome, avoidsNext, max bound boundNext, ?_⟩
      intro cap fuel enough
      rcases settles cap fuel (Nat.le_trans (Nat.le_max_left _ _) enough) with
        same | stopped
      · simp only [ExceptT.run_bind, StateT.run_bind]
        rw [same]
        exact settlesNext cap fuel (Nat.le_trans (Nat.le_max_right _ _) enough)
      · exact .inr (bind_stops stopped)

/-- A step that takes one unit of fuel. -/
theorem step
    {program body : Cap → Nat → Program State Stop Value}
    (unfolds : ∀ cap fuel, program cap (fuel + 1) = body cap fuel)
    (settles : Settles capped exhausted body state) :
    Settles capped exhausted program state := by
  obtain ⟨outcome, avoids, bound, settled⟩ := settles
  refine ⟨outcome, avoids, bound + 1, ?_⟩
  intro cap fuel enough
  cases fuel with
  | zero => exact absurd enough (Nat.not_succ_le_zero bound)
  | succ fuel =>
      rw [unfolds]
      exact settled cap fuel (Nat.le_of_succ_le_succ enough)

/-- A program that is observed. -/
theorem lift
    {program : Cap → Nat → Program State Stop Value}
    {log : List Observation}
    (settles : Settles capped exhausted program state) :
    Settles capped exhausted
      (fun cap fuel =>
        (StoppableRun.lift (program cap fuel) :
          Program (State × List Observation) Stop Value))
      (state, log) := by
  obtain ⟨outcome, avoids, bound, settled⟩ := settles
  refine ⟨(outcome.1, (outcome.2, log)), avoids, bound, ?_⟩
  intro cap fuel enough
  rcases settled cap fuel enough with same | stopped
  · refine .inl ?_
    rw [← same]
    rfl
  · exact .inr stopped

/-- With enough fuel a settling program does not lack fuel. -/
theorem exists_bound
    {program : Cap → Nat → Program State Stop Value}
    (different : capped ≠ exhausted)
    (settles : Settles capped exhausted program state) :
    ∃ bound, ∀ cap fuel,
      bound ≤ fuel →
      ((program cap fuel).run.run state).1 ≠ .error exhausted := by
  obtain ⟨outcome, avoids, bound, settled⟩ := settles
  refine ⟨bound, fun cap fuel enough => ?_⟩
  rcases settled cap fuel enough with same | stopped
  · rw [same]
    exact avoids
  · rw [stopped]
    intro same
    exact different (Except.error.inj same)

end Settles

/-- Without its log an observed program is another, unless it lacks fuel. -/
def ErasesUnless
    (exhausted : Stop)
    (observed : Program (State × List Observation) Stop Value)
    (program : Program State Stop Value) : Prop :=
  ∀ state log,
    (observed.run.run (state, log)).1 ≠ .error exhausted →
    ((observed.run.run (state, log)).1, (observed.run.run (state, log)).2.1) =
      program.run.run state

namespace ErasesUnless

variable
  {exhausted : Stop}
  {observed : Program (State × List Observation) Stop Value}
  {program : Program State Stop Value}

theorem ofErases (erases : Erases observed program) :
    ErasesUnless exhausted observed program :=
  fun state log _ => erases state log

theorem bind
    {observedNext :
      Value → Program (State × List Observation) Stop Result}
    {next : Value → Program State Stop Result}
    (first : ErasesUnless exhausted observed program)
    (second : ∀ value, ErasesUnless exhausted (observedNext value) (next value)) :
    ErasesUnless exhausted (observed >>= observedNext) (program >>= next) := by
  intro state log
  have reached := first state log
  simp only [ExceptT.run_bind, StateT.run_bind]
  revert reached
  rcases observed.run.run (state, log) with ⟨stop | value, after, later⟩
  · intro reached hasFuel
    rw [← reached fun lacks =>
      hasFuel (congrArg Except.error (Except.error.inj lacks))]
    rfl
  · intro reached
    rw [← reached fun lacks => nomatch lacks]
    exact second value after later

/-- A note is left out. -/
theorem noteThen
    {observe : State → Observation}
    {observedNext :
      Unit → Program (State × List Observation) Stop Result}
    {next : Program State Stop Result}
    (second : ErasesUnless exhausted (observedNext ()) next) :
    ErasesUnless exhausted (StoppableRun.note observe >>= observedNext) next :=
  fun state log => second state (observe state :: log)

end ErasesUnless

end Compi.StoppableRun
