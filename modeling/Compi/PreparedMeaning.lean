import Compi.PreparedMatching

/-!
# The meaning of prepared functions

A prepared function means what the parsed one means: at matching positions every
step of the parsed function is made by one or more steps of the prepared one.
-/

namespace Compi.Cil

section Tests

variable
  {State R : Type}
  [LinearOrder R]
  (machine : Machine Instr State R)
  (body : Block Instr)
  (state : State)

open StateTransition

/-- The statement of an `if` that `make_if_stmt` makes. -/
theorem step_makeIfStmt
    (pred : Exp)
    (target : String)
    (code : List (Stmt Instr)) :
    step machine body (.running (makeIfStmt pred target :: code) state) =
      some
        (.running
          (if (machine.evaluation state).taken pred then
            .goto (-1) [] target :: code
          else
            code)
          state) := by
  unfold makeIfStmt
  rw [step]
  cases (machine.evaluation state).taken pred <;> rfl

/-- The test for a label goes to its statement if the value matches it. -/
theorem reaches_testOf
    (e : Exp)
    (target : String)
    (label : ParsedLabel)
    (code : List (Stmt Instr)) :
    Reaches (step machine body)
      (.running (testOf e target label ++ code) state)
      (.running
        (if (machine.evaluation state).selects e label then
          .goto (-1) [] target :: code
        else
          code)
        state) := by
  cases label with
  | label name =>
      exact .refl
  | default =>
      exact .refl
  | caseExp value =>
      have isTaken :
          (machine.evaluation state).taken
              (.binOp .eq e value (.int .int)) =
            (machine.evaluation state).selects e (.caseExp value) :=
        taken_compare _ rfl e value _
      rw [← isTaken]
      exact .single (step_makeIfStmt machine body state _ target code)
  | caseRange low high =>
      have lowTaken :
          (machine.evaluation state).taken (.binOp .ge e low (.int .int)) =
            holdsOf .ge
              ((machine.evaluation state).compare?
                ((machine.evaluation state).eval e)
                ((machine.evaluation state).eval low)) :=
        taken_compare _ rfl e low _
      have highTaken :
          (machine.evaluation state).taken (.binOp .le e high (.int .int)) =
            holdsOf .le
              ((machine.evaluation state).compare?
                ((machine.evaluation state).eval e)
                ((machine.evaluation state).eval high)) :=
        taken_compare _ rfl e high _
      have isTaken :
          (machine.evaluation state).selects e (.caseRange low high) =
            ((machine.evaluation state).taken
                (.binOp .ge e low (.int .int)) &&
              (machine.evaluation state).taken
                (.binOp .le e high (.int .int))) := by
        rw [lowTaken, highTaken]
        rfl
      rw [isTaken]
      unfold testOf
      rw [List.singleton_append]
      cases aboveLow :
          (machine.evaluation state).taken (.binOp .ge e low (.int .int)) with
      | false =>
          refine .single (Option.mem_def.mpr ?_)
          rw [step, aboveLow]
          rfl
      | true =>
          have second :=
            step_makeIfStmt machine body state
              (.binOp .le e high (.int .int)) target code
          refine .head (Option.mem_def.mpr ?_) (.single second)
          rw [step, aboveLow]
          rfl

/-- The tests for the labels of a statement. -/
theorem reaches_tests
    (e : Exp)
    (target : String)
    (labels : List ParsedLabel)
    (code : List (Stmt Instr)) :
    ∃ rest,
      Reaches (step machine body)
        (.running (labels.flatMap (testOf e target) ++ code) state)
        (.running
          (if labels.any ((machine.evaluation state).selects e) then
            .goto (-1) [] target :: rest
          else
            code)
          state) := by
  induction labels with
  | nil =>
      exact ⟨code, .refl⟩
  | cons label labels inductionHypothesis =>
      have first :=
        reaches_testOf machine body state e target label
          (labels.flatMap (testOf e target) ++ code)
      rw [List.flatMap_cons, List.append_assoc]
      cases selected : (machine.evaluation state).selects e label with
      | true =>
          rw [selected] at first
          refine ⟨labels.flatMap (testOf e target) ++ code, ?_⟩
          rw [List.any_cons, selected, Bool.true_or]
          exact first
      | false =>
          obtain ⟨rest, reached⟩ := inductionHypothesis
          rw [selected] at first
          refine ⟨rest, ?_⟩
          rw [List.any_cons, selected, Bool.false_or]
          exact first.trans reached

/-- The tests of a `switch` go to the first case whose test succeeds. -/
theorem reaches_choices
    (e : Exp)
    (cases : List CaseStmt)
    (code : List (Stmt Instr)) :
    ∃ rest,
      Reaches (step machine body)
        (.running (cases.flatMap (xformChoice e) ++ code) state)
        (.running
          (match cases.find? (·.isSelected (machine.evaluation state) e) with
            | some c => .goto (-1) [] c.target :: rest
            | none => code)
          state) := by
  induction cases with
  | nil =>
      exact ⟨code, .refl⟩
  | cons c cases inductionHypothesis =>
      obtain ⟨later, reached⟩ := inductionHypothesis
      rw [List.flatMap_cons, List.append_assoc]
      cases isDefault : c.labels.contains .default with
      | true =>
          have notSelected : c.isSelected (machine.evaluation state) e = false := by
            rw [CaseStmt.isSelected, isDefault]
            rfl
          have noTests : xformChoice e c = [] := by
            rw [xformChoice, if_pos isDefault]
          refine ⟨later, ?_⟩
          rw [noTests, List.nil_append, List.find?_cons_of_neg (by simp [notSelected])]
          exact reached
      | false =>
          have tests : xformChoice e c = c.labels.flatMap (testOf e c.target) := by
            rw [xformChoice, isDefault]
            rfl
          have isSelected :
              c.isSelected (machine.evaluation state) e =
                c.labels.any ((machine.evaluation state).selects e) := by
            rw [CaseStmt.isSelected, isDefault]
            rfl
          obtain ⟨rest, first⟩ :=
            reaches_tests machine body state e c.target c.labels
              (cases.flatMap (xformChoice e) ++ code)
          rw [tests]
          cases selected : c.isSelected (machine.evaluation state) e with
          | true =>
              rw [← isSelected, selected] at first
              refine ⟨rest, ?_⟩
              rw [List.find?_cons_of_pos (by simp [selected])]
              exact first
          | false =>
              rw [← isSelected, selected] at first
              refine ⟨later, ?_⟩
              rw [List.find?_cons_of_neg (by simp [selected])]
              exact first.trans reached

end Tests

section Meaning

open StateTransition

variable
  {State R : Type}
  [LinearOrder R]
  (machine : Machine Instr State R)
  (parsed : ParsedBlock)
  (body : Block Instr)

/--
Corresponding points of an execution.  After a `continue` the prepared code has
already started the next round of the loop.
-/
inductive SamePoint :
    List Pending → State → List (Stmt Instr) → State → Prop where
  | code
      {breakDest contDest : Option String}
      {code : List Pending}
      {rest : List (Stmt Instr)}
      {state : State}
      (isMatch :
        Matches machine parsed.labelNames body breakDest contDest code rest) :
      SamePoint code state rest state
  | round
      {breakDest : Option String}
      {contLabel : String}
      {loopBody : ParsedBlock}
      {text : Block Instr}
      {after : List Pending}
      {rest : List (Stmt Instr)}
      {state : State}
      (isMatch :
        Matches machine parsed.labelNames body breakDest (some contLabel)
          (.again loopBody :: after) (thisStmt contLabel text :: rest)) :
      SamePoint (.again loopBody :: after) state
        (landing contLabel :: (text.toList ++ thisStmt contLabel text :: rest))
        state

variable {machine parsed body}

/-- A landing statement is passed. -/
theorem step_landing
    (label : String)
    (rest : List (Stmt Instr))
    (state : State) :
    step machine body (.running (landing label :: rest) state) =
      some (.running rest state) :=
  rfl

/-- The next round of a loop starts with its body. -/
theorem Matches.round
    {breakDest : Option String}
    {contLabel : String}
    {loopBody : ParsedBlock}
    {text : Block Instr}
    {names : List String}
    {after : List Pending}
    {rest : List (Stmt Instr)}
    (isMatch :
      Matches machine names body breakDest (some contLabel)
        (.again loopBody :: after) (thisStmt contLabel text :: rest)) :
    ∃ breakDest,
      Matches machine names body breakDest (some contLabel)
        (loopBody.pending ++ .again loopBody :: after)
        (text.toList ++ thisStmt contLabel text :: rest) := by
  generalize isText : thisStmt contLabel text :: rest = next at isMatch
  cases isMatch with
  | again wellFormed prepared isAt atBreak later =>
      obtain ⟨isThis, rfl⟩ := List.cons.inj isText
      unfold thisStmt at isThis
      obtain ⟨-, -, isBody⟩ := Stmt.loop.inj isThis
      obtain ⟨-, rfl⟩ := Block.cons.inj isBody
      exact
        ⟨_, .pending _ wellFormed prepared isAt.inLoop.tail
          (.again wellFormed prepared isAt atBreak later)⟩

/-- The tests of a `switch` end at the `goto` to the target. -/
theorem reaches_goto_chosenTarget
    (machine : Machine Instr State R)
    (body : Block Instr)
    (state : State)
    (e : Exp)
    (cases : List CaseStmt)
    (breakLabel : String)
    (code : List (Stmt Instr)) :
    ∃ rest,
      Reaches (step machine body)
        (.running
          (cases.flatMap (xformChoice e) ++
            (.goto (-1) [] (fallThrough cases breakLabel) :: code))
          state)
        (.running
          (.goto (-1) []
              (chosenTarget (machine.evaluation state) e cases breakLabel) ::
            rest)
          state) := by
  obtain ⟨rest, reached⟩ :=
    reaches_choices machine body state e cases
      (.goto (-1) [] (fallThrough cases breakLabel) :: code)
  unfold chosenTarget
  cases selected : cases.find? (·.isSelected (machine.evaluation state) e) with
  | some c =>
      rw [selected] at reached
      exact ⟨rest, reached⟩
  | none =>
      rw [selected] at reached
      exact ⟨code, reached⟩

/-- A step of a parsed body and the steps of the prepared body for it. -/
abbrev PreparedSteps
    (machine : Machine Instr State R)
    (parsed : ParsedBlock)
    (body : Block Instr) :
    Progress (List Pending) State R → Progress (List (Stmt Instr)) State R →
      Prop :=
  StepsAlike (parsedStep machine parsed) (step machine body) Eq
    (SamePoint machine parsed body)

variable
  {breakDest contDest : Option String}
  {code : List Pending}
  {rest : List (Stmt Instr)}
  {state : State}

/-- The same point in code that matches. -/
theorem sameCode
    (isMatch :
      Matches machine parsed.labelNames body breakDest contDest code rest) :
    Corresponds Eq (SamePoint machine parsed body)
      (Progress.running code state : Progress _ State R)
      (.running rest state) :=
  .running (.code isMatch)

/-- What a function that is prepared has. -/
structure IsPrepared
    (machine : Machine Instr State R)
    (parsed : ParsedBlock)
    (body : Block Instr) : Prop where
  wellFormed : parsed.WellFormed machine parsed.labelNames
  prepared : ∃ cases, PreparedBlock none none parsed body cases
  nodup : body.allLabels.Nodup
  jumps :
    ∀ e state label, machine.jump e state = some label →
      label ∈ parsed.labelNames

/-- Gotos to the same label. -/
theorem stepsAlike_jump
    (isPrepared : IsPrepared machine parsed body)
    {label : String}
    (member : label ∈ parsed.labelNames)
    {code : List Pending}
    {rest : List (Stmt Instr)}
    (isStep :
      parsedStep machine parsed (.running code state) =
        (parsed.findLabel label).map fun code => .running code state)
    (isStep' :
      step machine body (.running rest state) =
        (body.findLabel label []).map fun code => .running code state) :
    PreparedSteps machine parsed body (.running code state)
      (.running rest state) := by
  obtain ⟨cases, prepared⟩ := isPrepared.prepared
  obtain ⟨after, after', breakDest, contDest, isFound, isFound', isMatch⟩ :=
    findLabel_matches isPrepared.wellFormed prepared isPrepared.nodup member
  rw [isFound, Option.map_some] at isStep
  rw [isFound', Option.map_some] at isStep'
  exact StepsAlike.steps isStep (.single isStep') (sameCode isMatch)

/-- The step at a statement. -/
theorem stepsAlike_stmt
    (isPrepared : IsPrepared machine parsed body)
    {s : ParsedStmt}
    {text : Stmt Instr}
    {cases : List CaseStmt}
    (wellFormed : s.WellFormed machine parsed.labelNames)
    (prepared : PreparedStmt breakDest contDest s text cases)
    (isAt : StmtAt body text rest)
    (later :
      Matches machine parsed.labelNames body breakDest contDest code rest) :
    PreparedSteps machine parsed body (.running (.stmt s :: code) state)
      (.running (text :: rest) state) := by
  cases prepared with
  | instr named =>
      next labels names is =>
      cases is with
      | nil =>
          exact StepsAlike.steps rfl (.single rfl) (sameCode later)
      | cons i is =>
          cases executed : machine.execute i state with
          | none =>
              have isStep :
                  parsedStep machine parsed
                      (.running (.stmt (.instr labels (i :: is)) :: code) state) =
                    some (.ended (.exited state)) := by
                simp only [parsedStep, executed]
              have isStep' :
                  step machine body
                      (.running (.instr (-1) names (i :: is) :: rest) state) =
                    some (.ended (.exited state)) := by
                simp only [step, executed]
              exact StepsAlike.steps isStep (.single isStep') (.ended rfl)
          | some after =>
              have isStep :
                  parsedStep machine parsed
                      (.running (.stmt (.instr labels (i :: is)) :: code) state) =
                    some (.running (.stmt (.instr [] is) :: code) after) := by
                simp only [parsedStep, executed]
              have isStep' :
                  step machine body
                      (.running (.instr (-1) names (i :: is) :: rest) state) =
                    some (.running (.instr (-1) [] is :: rest) after) := by
                simp only [step, executed]
              exact
                StepsAlike.steps isStep (.single isStep')
                  (sameCode
                    (.stmt trivial (.instr .nil) (.of_noLabels rfl) later))
  | ret named =>
      exact StepsAlike.steps rfl (.single rfl) (.ended rfl)
  | goto named =>
      exact stepsAlike_jump isPrepared wellFormed rfl rfl
  | computedGoto named =>
      next labels names target =>
      cases jumped : machine.jump target state with
      | none =>
          have isStep :
              parsedStep machine parsed
                  (.running (.stmt (.computedGoto labels target) :: code) state) =
                none := by
            simp only [parsedStep, jumped, Option.bind_none]
          have isStep' :
              step machine body
                  (.running (.computedGoto (-1) names target :: rest) state) =
                none := by
            simp only [step, jumped, Option.bind_none]
          exact .stuck isStep isStep'
      | some label =>
          refine
            stepsAlike_jump isPrepared (isPrepared.jumps target state label jumped)
              ?_ ?_
          · simp only [parsedStep, jumped, Option.bind_some]
          · simp only [step, jumped, Option.bind_some]
  | brk named =>
      next dest labels names =>
      obtain ⟨after, after', _, _, isTarget, isFound, isMatch⟩ :=
        later.breakTarget
      refine
        StepsAlike.steps ?_
          (.head ?_ (.single (step_landing dest after' state)))
          (sameCode isMatch)
      · simp only [parsedStep, isTarget, Option.map_some]
      · simp only [step, isFound, Option.map_some, Option.mem_def]
  | cont named =>
      obtain ⟨loopBody, after, text, rest, _, isTarget, isFound, isMatch⟩ :=
        later.continueTarget
      have same :
          Corresponds Eq (SamePoint machine parsed body)
            (Progress.running (.again loopBody :: after) state :
              Progress _ State R)
            (.running _ state) :=
        .running (.round isMatch)
      refine StepsAlike.steps ?_ (.single ?_) same
      · simp only [parsedStep, isTarget, Option.map_some]
      · simp only [step, isFound, Option.map_some, Option.mem_def]
  | ite named first second =>
      next labels names condition thenBlock elseBlock thenText elseText _ _ =>
      refine StepsAlike.steps rfl (.single rfl) ?_
      cases (machine.evaluation state).taken condition with
      | true =>
          exact sameCode (.pending _ wellFormed.1 first isAt.inThen later)
      | false =>
          exact sameCode (.pending _ wellFormed.2 second isAt.inElse later)
  | switch named inner =>
      next breakLabel labels names e switchBody text cases =>
      obtain ⟨inBody, atBreak⟩ := positions_switchBlock isAt
      have exclusive : Exclusive (machine.evaluation state) e cases := by
        have apart := wellFormed.1
        unfold ExclusiveCases at apart
        rw [← labels_cases_block _ inner, List.pairwise_map] at apart
        exact apart.imp fun both => ⟨both.1 state, both.2⟩
      obtain ⟨target, isFound, same⟩ :=
        switchTarget_matches exclusive wellFormed.2 inner inBody atBreak later
      obtain ⟨others, chosen⟩ :=
        reaches_goto_chosenTarget machine body state e cases breakLabel
          (text.toList ++ [landing breakLabel] ++ rest)
      have atTarget :
          step machine body
              (.running
                (.goto (-1) []
                    (chosenTarget (machine.evaluation state) e cases
                      breakLabel) ::
                  others)
                state) =
            some (.running target state) := by
        simp only [step, isFound, Option.map_some]
      have isStep' :
          step machine body
              (.running (switchBlock names e cases text breakLabel :: rest)
                state) =
            some
              (.running
                (cases.flatMap (xformChoice e) ++
                  (.goto (-1) [] (fallThrough cases breakLabel) ::
                    (text.toList ++ [landing breakLabel] ++ rest)))
                state) := by
        simp [switchBlock, step]
      have steps :
          Reaches₁ (step machine body)
            (.running (switchBlock names e cases text breakLabel :: rest) state)
            (.running target state) :=
        .tail (.head' isStep' chosen) atTarget
      rcases same with ⟨leaves, rfl⟩ | ⟨_, _, isMatch⟩
      · refine
          StepsAlike.steps rfl (steps.tail (step_landing _ rest state)) ?_
        rw [leaves]
        exact sameCode later
      · exact StepsAlike.steps rfl steps (sameCode isMatch)
  | loop named inner =>
      have atLoop := isAt.inBlock.head
      have atBreak := isAt.inBlock.tail.head
      obtain ⟨_, isMatch⟩ :=
        (Matches.again wellFormed inner atLoop atBreak later).round
      exact
        StepsAlike.steps rfl (.head rfl (.head rfl (.single rfl)))
          (sameCode isMatch)
  | block named inner =>
      exact
        StepsAlike.steps rfl (.single rfl)
          (sameCode (.pending _ wellFormed inner isAt.inBlock later))

/-- The step at the same point. -/
theorem stepsAlike_of_samePoint
    (isPrepared : IsPrepared machine parsed body)
    (code : List Pending)
    (state : State)
    (rest : List (Stmt Instr))
    (state' : State)
    (isPoint : SamePoint machine parsed body code state rest state') :
    PreparedSteps machine parsed body (.running code state)
      (.running rest state') := by
  cases isPoint with
  | code isMatch =>
      cases isMatch with
      | nil =>
          exact StepsAlike.steps rfl (.single rfl) (.ended rfl)
      | stmt wellFormed prepared isAt later =>
          exact stepsAlike_stmt isPrepared wellFormed prepared isAt later
      | leave atBreak later =>
          exact StepsAlike.steps rfl (.single rfl) (sameCode later)
      | again wellFormed prepared isAt atBreak later =>
          obtain ⟨_, isMatch⟩ :=
            (Matches.again wellFormed prepared isAt atBreak later).round
          exact
            StepsAlike.steps rfl (.head rfl (.single rfl)) (sameCode isMatch)
  | round isMatch =>
      obtain ⟨_, inRound⟩ := isMatch.round
      exact StepsAlike.steps rfl (.single rfl) (sameCode inRound)

/-- A prepared body means what the parsed one means. -/
theorem IsPrepared.sameMeaning
    (isPrepared : IsPrepared machine parsed body)
    (state : State) :
    SameMeaning Eq (parsedStep machine parsed) (parsedStart parsed state)
      (step machine body) (start body state) := by
  obtain ⟨cases, shape⟩ := isPrepared.prepared
  have ends : Matches machine parsed.labelNames body none none [] [] :=
    .nil
  have starts :=
    Matches.pending parsed isPrepared.wellFormed shape (.self isPrepared.nodup)
      ends
  rw [List.append_nil, List.append_nil] at starts
  exact
    .of_stepsAlike (stepsAlike_of_samePoint isPrepared) (fun _ => rfl)
      (fun _ => rfl) (.code starts)

/-- What `prepareCFG` makes of a function is prepared. -/
theorem isPrepared_of_prepareCFG
    {getInteger : Exp → Option Int}
    {fd : ParsedFundec}
    {prepared : Fundec Instr}
    (wellFormed : fd.WellFormed machine)
    (done : prepareCFG getInteger fd = some prepared) :
    IsPrepared machine fd.sbody prepared.sbody := by
  obtain ⟨shape, -, nodup, -⟩ :=
    prepareCFG_spec getInteger wellFormed.nodup wellFormed.notEmpty done
  exact
    { wellFormed := wellFormed.body
      prepared := shape
      nodup := nodup
      jumps := wellFormed.jumps }

/--
`prepareCFG` preserves the meaning of a function: from every state the prepared
body has the outcomes of the parsed one, and halts if and only if that does.
-/
theorem prepareCFG_preserves
    (machine : Machine Instr State R)
    (getInteger : Exp → Option Int)
    {fd : ParsedFundec}
    {prepared : Fundec Instr}
    (wellFormed : fd.WellFormed machine)
    (done : prepareCFG getInteger fd = some prepared)
    (state : State) :
    SameMeaning Eq
      (parsedStep machine fd.sbody) (parsedStart fd.sbody state)
      (step machine prepared.sbody) (start prepared.sbody state) :=
  (isPrepared_of_prepareCFG wellFormed done).sameMeaning state

/-- `while (1) { switch (1) { case 1: break; default: return; } continue; }`. -/
def loopWithSwitch : ParsedFundec where
  svar := ⟨"f", .fn .void false, true, []⟩
  sformals := []
  sbody :=
    .cons
      (.loop []
        (.cons
          (.switch [] (.const (.int64 1 .int))
            (.cons (.brk [.caseExp (.const (.int64 1 .int))])
              (.cons (.ret [.default] none) .nil)))
          (.cons (.cont []) .nil)))
      .nil

theorem wellFormed_loopWithSwitch (v : Varinfo) :
    loopWithSwitch.WellFormed (Machine.ofVariable v) where
  nodup := .nil
  notEmpty := fun _ member => absurd member List.not_mem_nil
  body := by
    refine ⟨⟨⟨?_, trivial, trivial, trivial⟩, trivial, trivial⟩, trivial⟩
    refine
      .cons ?_ (.cons (fun _ member => absurd member List.not_mem_nil) .nil)
    rintro _ (_ | ⟨_, member⟩)
    · exact ⟨fun _ _ => rfl, fun isDefault => by cases isDefault⟩
    · cases member
  jumps := fun _ _ _ jumped => by cases jumped

/-- The function above without loops to leave and without a switch. -/
theorem prepareCFG_preserves_loopWithSwitch :
    ∃ prepared,
      prepareCFG (fun _ => some 1) loopWithSwitch = some prepared ∧
        SameMeaning Eq
          (parsedStep (Machine.ofVariable ⟨"x", .int .int, false, []⟩)
            loopWithSwitch.sbody)
          (parsedStart loopWithSwitch.sbody (.int 0))
          (step (Machine.ofVariable ⟨"x", .int .int, false, []⟩)
            prepared.sbody)
          (start prepared.sbody (.int 0)) :=
  ⟨_, rfl,
    prepareCFG_preserves (Machine.ofVariable ⟨"x", .int .int, false, []⟩)
      (fun _ => some 1) (wellFormed_loopWithSwitch _) rfl (.int 0)⟩

end Meaning

end Compi.Cil
