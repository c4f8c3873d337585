import Mathlib.Computability.StateTransition
import Compi.ConditionMeaning
import Compi.InstrumentedRun

/-!
# The meaning of statements

A function body is executed on states of any kind, which may record what has
been executed.  Calls are instructions like others.  A body that never ends,
and one that cannot go on, have no outcome.
-/

namespace Compi.Cil

/--
What statements are executed with: the values of expressions in a state, what
an instruction does unless it ends the program, and the label whose address an
expression is.
-/
structure Machine (Inst State R : Type) where
  evaluation : State → Evaluation R
  execute : Inst → State → Option State
  jump : Exp → State → Option String

/-- How an execution ends: by a return from the function, or in an instruction. -/
inductive Outcome (State R : Type) where
  | returned (value : Option (CValue R)) (state : State)
  | exited (state : State)

/-- An execution: some code is left to run, or it has ended. -/
inductive Progress (Code State R : Type) where
  | running (code : Code) (state : State)
  | ended (outcome : Outcome State R)

/-- An execution ends with an outcome. -/
def EndsWith
    {Code State R : Type}
    (step : Progress Code State R → Option (Progress Code State R))
    (start : Progress Code State R)
    (outcome : Outcome State R) : Prop :=
  StateTransition.Reaches step start (.ended outcome)

/--
Two executions have the same outcomes, up to what is the same, and one of them
goes on forever exactly when the other does.
-/
structure SameMeaning
    {Code Code' State State' R : Type}
    (same : Outcome State R → Outcome State' R → Prop)
    (step : Progress Code State R → Option (Progress Code State R))
    (start : Progress Code State R)
    (step' : Progress Code' State' R → Option (Progress Code' State' R))
    (start' : Progress Code' State' R) : Prop where
  forward :
    ∀ outcome, EndsWith step start outcome →
      ∃ outcome', same outcome outcome' ∧ EndsWith step' start' outcome'
  backward :
    ∀ outcome', EndsWith step' start' outcome' →
      ∃ outcome, same outcome outcome' ∧ EndsWith step start outcome
  halts :
    (StateTransition.eval step start).Dom ↔
      (StateTransition.eval step' start').Dom

section Simulation

variable
  {Code Code' Code'' State State' State'' R : Type}
  {step : Progress Code State R → Option (Progress Code State R)}
  {step' : Progress Code' State' R → Option (Progress Code' State' R)}
  {step'' : Progress Code'' State'' R → Option (Progress Code'' State'' R)}
  {same : Outcome State R → Outcome State' R → Prop}
  {same' : Outcome State' R → Outcome State'' R → Prop}

/-- Executions that correspond: they have ended alike, or both go on. -/
inductive Corresponds
    (same : Outcome State R → Outcome State' R → Prop)
    (related : Code → State → Code' → State' → Prop) :
    Progress Code State R → Progress Code' State' R → Prop where
  | running
      {code : Code}
      {code' : Code'}
      {state : State}
      {state' : State'}
      (isRelated : related code state code' state') :
      Corresponds same related (.running code state) (.running code' state')
  | ended
      {outcome : Outcome State R}
      {outcome' : Outcome State' R}
      (isSame : same outcome outcome') :
      Corresponds same related (.ended outcome) (.ended outcome')

/-- Executions whose steps correspond have the same meaning. -/
theorem SameMeaning.of_respects
    {related : Code → State → Code' → State' → Prop}
    (respects :
      StateTransition.Respects step step' (Corresponds same related))
    (stops : ∀ outcome, step' (.ended outcome) = none)
    {start : Progress Code State R}
    {start' : Progress Code' State' R}
    (corresponds : Corresponds same related start start') :
    SameMeaning same step start step' start' := by
  constructor
  · intro outcome ends
    obtain ⟨last, isLast, reached⟩ :=
      StateTransition.tr_reaches respects corresponds ends
    cases isLast with
    | ended isSame =>
        exact ⟨_, isSame, reached⟩
  · intro outcome' ends
    obtain ⟨last, isLast, evaluates⟩ :=
      StateTransition.tr_eval_rev respects corresponds
        (StateTransition.mem_eval.mpr ⟨ends, stops outcome'⟩)
    cases isLast with
    | ended isSame =>
        exact ⟨_, isSame, (StateTransition.mem_eval.mp evaluates).1⟩
  · exact (StateTransition.tr_eval_dom respects corresponds).symm

/-- A step of one execution and the steps of the other one for it. -/
inductive StepsAlike
    (step : Progress Code State R → Option (Progress Code State R))
    (step' : Progress Code' State' R → Option (Progress Code' State' R))
    (same : Outcome State R → Outcome State' R → Prop)
    (related : Code → State → Code' → State' → Prop)
    (progress : Progress Code State R)
    (progress' : Progress Code' State' R) : Prop where
  | steps
      {next : Progress Code State R}
      {next' : Progress Code' State' R}
      (isStep : step progress = some next)
      (isSteps : StateTransition.Reaches₁ step' progress' next')
      (corresponds : Corresponds same related next next') :
      StepsAlike step step' same related progress progress'
  | stuck
      (isStuck : step progress = none)
      (isStuck' : step' progress' = none) :
      StepsAlike step step' same related progress progress'

/-- Executions whose steps are alike at related points have the same meaning. -/
theorem SameMeaning.of_stepsAlike
    {related : Code → State → Code' → State' → Prop}
    (alike :
      ∀ code state code' state', related code state code' state' →
        StepsAlike step step' same related (.running code state)
          (.running code' state'))
    (stops : ∀ outcome, step (.ended outcome) = none)
    (stops' : ∀ outcome, step' (.ended outcome) = none)
    {code : Code}
    {code' : Code'}
    {state : State}
    {state' : State'}
    (starts : related code state code' state') :
    SameMeaning same step (.running code state) step'
      (.running code' state') := by
  have respects :
      StateTransition.Respects step step' (Corresponds same related) := by
    intro progress progress' corresponds
    cases corresponds with
    | ended isSame =>
        rw [stops]
        exact stops' _
    | running isRelated =>
        cases alike _ _ _ _ isRelated with
        | steps isStep isSteps corresponds =>
            rw [isStep]
            exact ⟨_, corresponds, isSteps⟩
        | stuck isStuck isStuck' =>
            rw [isStuck]
            exact isStuck'
  exact .of_respects respects stops' (.running starts)

/-- The same meaning from a start that first makes some steps. -/
theorem SameMeaning.of_reaches
    {start : Progress Code State R}
    {start' next' : Progress Code' State' R}
    (reached : StateTransition.Reaches step' start' next')
    (stops' : ∀ outcome, step' (.ended outcome) = none)
    (sameMeaning : SameMeaning same step start step' next') :
    SameMeaning same step start step' start' := by
  constructor
  · intro outcome ends
    obtain ⟨outcome', isSame, ends⟩ := sameMeaning.forward outcome ends
    exact ⟨outcome', isSame, reached.trans ends⟩
  · intro outcome' ends
    apply sameMeaning.backward
    rcases StateTransition.reaches_total ends reached with atEnd | ends
    · rcases atEnd.cases_head with rfl | ⟨after, isStep, -⟩
      · exact .refl
      · rw [stops'] at isStep
        cases isStep
    · exact ends
  · rw [StateTransition.reaches_eval reached]
    exact sameMeaning.halts

/-- Outcomes that are the same may be related by less. -/
theorem SameMeaning.mono
    {weaker : Outcome State R → Outcome State' R → Prop}
    {start : Progress Code State R}
    {start' : Progress Code' State' R}
    (sameMeaning : SameMeaning same step start step' start')
    (implies : ∀ outcome outcome', same outcome outcome' → weaker outcome outcome') :
    SameMeaning weaker step start step' start' := by
  constructor
  · intro outcome ends
    obtain ⟨outcome', isSame, ends⟩ := sameMeaning.forward outcome ends
    exact ⟨outcome', implies outcome outcome' isSame, ends⟩
  · intro outcome' ends
    obtain ⟨outcome, isSame, ends⟩ := sameMeaning.backward outcome' ends
    exact ⟨outcome, implies outcome outcome' isSame, ends⟩
  · exact sameMeaning.halts

/-- The same meaning goes through an execution in between. -/
theorem SameMeaning.trans
    {start : Progress Code State R}
    {start' : Progress Code' State' R}
    {start'' : Progress Code'' State'' R}
    (first : SameMeaning same step start step' start')
    (second : SameMeaning same' step' start' step'' start'') :
    SameMeaning (Relation.Comp same same') step start step'' start'' := by
  constructor
  · intro outcome ends
    obtain ⟨between, isSame, ends⟩ := first.forward outcome ends
    obtain ⟨last, isSame', ends⟩ := second.forward between ends
    exact ⟨last, ⟨between, isSame, isSame'⟩, ends⟩
  · intro last ends
    obtain ⟨between, isSame', ends⟩ := second.backward last ends
    obtain ⟨outcome, isSame, ends⟩ := first.backward between ends
    exact ⟨outcome, ⟨between, isSame, isSame'⟩, ends⟩
  · exact first.halts.trans second.halts

end Simulation

section Bodies

variable
  {Inst State R : Type}
  [LinearOrder R]
  (machine : Machine Inst State R)

/-- One step of a function body. -/
def step
    (body : Block Inst) :
    Progress (List (Stmt Inst)) State R →
      Option (Progress (List (Stmt Inst)) State R)
  | .ended _ => none
  | .running [] state => some (.ended (.returned none state))
  | .running (.instr _ _ [] :: code) state => some (.running code state)
  | .running (.instr sid _ (i :: is) :: code) state =>
      match machine.execute i state with
      | none => some (.ended (.exited state))
      | some next => some (.running (.instr sid [] is :: code) next)
  | .running (.ret _ _ value :: _) state =>
      some
        (.ended
          (.returned (value.map (machine.evaluation state).eval) state))
  | .running (.goto _ _ target :: _) state =>
      (body.findLabel target []).map fun code => .running code state
  | .running (.computedGoto _ _ target :: _) state =>
      (machine.jump target state).bind fun label =>
        (body.findLabel label []).map fun code => .running code state
  | .running (.ite _ _ condition thenBlock elseBlock :: code) state =>
      let chosen :=
        if (machine.evaluation state).taken condition then thenBlock
        else elseBlock
      some (.running (chosen.toList ++ code) state)
  | .running (.loop sid labels body :: code) state =>
      some (.running (body.toList ++ .loop sid labels body :: code) state)
  | .running (.block _ _ body :: code) state =>
      some (.running (body.toList ++ code) state)

/-- The start of a function body. -/
def start (body : Block Inst) (state : State) :
    Progress (List (Stmt Inst)) State R :=
  .running body.toList state

/-- How expressions are evaluated where one variable has a value. -/
def holding (v : Varinfo) (held : CValue Int) : Evaluation Int where
  toFloat := id
  leaf := fun e => if e = .lval (.var v .noOffset) then held else .int 0

/-- A machine whose state is the value of one variable. -/
def Machine.ofVariable (v : Varinfo) : Machine Instr (CValue Int) Int where
  evaluation := holding v
  execute := fun i held =>
    match i with
    | .set lv e =>
        some (if lv = .var v .noOffset then (holding v held).eval e else held)
    | _ => some held
  jump := fun _ _ => none

end Bodies

end Compi.Cil
