import Compi.LabelPositions
import Compi.StatementMeaning

/-!
# Refined statements

Refined code runs further instructions.  Those in front of a statement do not
change what is seen of the state, and those in place of an instruction do what
it does, as far as it is seen.  Refined code has the same meaning.
-/

namespace Compi.Cil

section Instructions

variable
  {Inst Inst' State State' R : Type}

/--
Execute some instructions.  The error is the state in which one of them ends
the program.
-/
def Machine.executeAll
    (machine : Machine Inst State R) : List Inst → State → Except State State
  | [], state => .ok state
  | i :: is, state =>
      match machine.execute i state with
      | none => .error state
      | some next => machine.executeAll is next

/-- What is seen of a result. -/
def seen (view : State' → State) : Except State' State' → Except State State
  | .ok state => .ok (view state)
  | .error state => .error (view state)

/-- Expressions mean in a state what they mean in what is seen of it. -/
structure Views
    (machine : Machine Inst State R)
    (machine' : Machine Inst' State' R)
    (view : State' → State) : Prop where
  evaluation :
    ∀ state, machine'.evaluation state = machine.evaluation (view state)
  jump : ∀ e state, machine'.jump e state = machine.jump e (view state)

/-- Instructions that change nothing that is seen. -/
def Silent
    (machine' : Machine Inst' State' R)
    (view : State' → State)
    (out : List Inst') : Prop :=
  ∀ state, ∃ next,
    machine'.executeAll out state = .ok next ∧ view next = view state

/-- Instructions that do what one instruction does. -/
structure Replaces
    (machine : Machine Inst State R)
    (machine' : Machine Inst' State' R)
    (view : State' → State)
    (i : Inst)
    (out : List Inst') : Prop where
  notEmpty : out ≠ []
  runs :
    ∀ state,
      seen view (machine'.executeAll out state) =
        machine.executeAll [i] (view state)

/-- Instructions that do what some instructions do, one after the other. -/
inductive ReplacesAll
    (machine : Machine Inst State R)
    (machine' : Machine Inst' State' R)
    (view : State' → State) : List Inst → List Inst' → Prop where
  | nil : ReplacesAll machine machine' view [] []
  | cons
      {i : Inst}
      {out : List Inst'}
      {is : List Inst}
      {outs : List Inst'}
      (first : Replaces machine machine' view i out)
      (later : ReplacesAll machine machine' view is outs) :
      ReplacesAll machine machine' view (i :: is) (out ++ outs)

theorem replacesAll_flatMap
    {machine : Machine Inst State R}
    {machine' : Machine Inst' State' R}
    {view : State' → State}
    {replacement : Inst → List Inst'}
    {is : List Inst}
    (replaces :
      ∀ i ∈ is, Replaces machine machine' view i (replacement i)) :
    ReplacesAll machine machine' view is (is.flatMap replacement) := by
  induction is with
  | nil =>
      exact .nil
  | cons i is inductionHypothesis =>
      exact
        .cons (replaces i List.mem_cons_self)
          (inductionHypothesis fun j member =>
            replaces j (List.mem_cons_of_mem i member))

/-- Instructions in a row. -/
theorem executeAll_append
    (machine : Machine Inst State R)
    (out outs : List Inst)
    (state : State) :
    machine.executeAll (out ++ outs) state =
      (machine.executeAll out state).bind (machine.executeAll outs) := by
  induction out generalizing state with
  | nil =>
      rfl
  | cons i out inductionHypothesis =>
      rw [List.cons_append, Machine.executeAll, Machine.executeAll]
      cases machine.execute i state with
      | none =>
          rfl
      | some next =>
          exact inductionHypothesis next

/-- Everything is seen. -/
@[simp] theorem seen_id (result : Except State State) :
    seen id result = result := by
  cases result <;> rfl

theorem silent_nil
    (machine' : Machine Inst' State' R)
    (view : State' → State) :
    Silent machine' view [] :=
  fun state => ⟨state, rfl, rfl⟩

/-- Silent instructions may be added in front and behind. -/
theorem Replaces.surround
    {machine : Machine Inst State R}
    {machine' : Machine Inst' State' R}
    {view : State' → State}
    {i : Inst}
    {front out back : List Inst'}
    (replaces : Replaces machine machine' view i out)
    (silentFront : Silent machine' view front)
    (silentBack : Silent machine' view back) :
    Replaces machine machine' view i (front ++ out ++ back) := by
  constructor
  · intro isEmpty
    rw [List.append_eq_nil_iff, List.append_eq_nil_iff] at isEmpty
    exact replaces.notEmpty isEmpty.1.2
  · intro state
    obtain ⟨between, ranFront, sameFront⟩ := silentFront state
    have runs := replaces.runs between
    rw [sameFront] at runs
    rw [executeAll_append, executeAll_append, ranFront, ← runs, Except.bind]
    cases machine'.executeAll out between with
    | error last =>
        rfl
    | ok after =>
        obtain ⟨last, ranBack, sameBack⟩ := silentBack after
        rw [Except.bind, ranBack, seen, seen, sameBack]

variable [LinearOrder R]

/-- What runs after some instructions. -/
def afterAll
    (sid : Int)
    (is : List Inst)
    (code : List (Stmt Inst)) :
    Except State State → Progress (List (Stmt Inst)) State R
  | .ok state => .running (.instr sid [] is :: code) state
  | .error state => .ended (.exited state)

/-- Instructions of a statement are executed one after the other. -/
theorem reaches_executeAll
    (machine : Machine Inst State R)
    (body : Block Inst)
    {out : List Inst}
    (notEmpty : out ≠ [])
    (sid : Int)
    (labels : List String)
    (is : List Inst)
    (code : List (Stmt Inst))
    (state : State) :
    StateTransition.Reaches₁ (step machine body)
      (.running (.instr sid labels (out ++ is) :: code) state)
      (afterAll sid is code (machine.executeAll out state)) := by
  induction out generalizing labels state with
  | nil =>
      exact absurd rfl notEmpty
  | cons i out inductionHypothesis =>
      unfold Machine.executeAll
      cases executed : machine.execute i state with
      | none =>
          have isStep :
              step machine body
                  (.running (.instr sid labels ((i :: out) ++ is) :: code)
                    state) =
                some (.ended (.exited state)) := by
            simp only [List.cons_append, step, executed]
          exact .single isStep
      | some next =>
          have isStep :
              step machine body
                  (.running (.instr sid labels ((i :: out) ++ is) :: code)
                    state) =
                some (.running (.instr sid [] (out ++ is) :: code) next) := by
            simp only [List.cons_append, step, executed]
          cases out with
          | nil =>
              exact .single isStep
          | cons j out =>
              exact .head isStep (inductionHypothesis (List.cons_ne_nil j out) [] next)

/-- A statement of silent instructions is passed. -/
theorem Silent.reaches
    {machine : Machine Inst State R}
    {view : State → State'}
    {out : List Inst}
    (silent : Silent machine view out)
    (body : Block Inst)
    (sid : Int)
    (code : List (Stmt Inst))
    (state : State) :
    ∃ next,
      StateTransition.Reaches (step machine body)
          (.running (.instr sid [] out :: code) state)
          (.running code next) ∧
        view next = view state := by
  obtain ⟨next, executed, sameSeen⟩ := silent state
  refine ⟨next, ?_, sameSeen⟩
  cases out with
  | nil =>
      obtain rfl := Except.ok.inj executed
      exact .single rfl
  | cons i out =>
      have reached :=
        reaches_executeAll machine body (List.cons_ne_nil i out) sid [] [] code
          state
      rw [executed, List.append_nil] at reached
      exact reached.to_reflTransGen.tail rfl

end Instructions

section Shape

variable
  {Inst Inst' State State' R : Type}
  [LinearOrder R]
  (machine : Machine Inst State R)
  (machine' : Machine Inst' State' R)
  (view : State' → State)

mutual

/--
What a statement is refined to.  A `return` and an `if` may go into a block, for
instructions in front of them.
-/
inductive RefinesStmt : Stmt Inst → Stmt Inst' → Prop where
  | instr
      {sid sid' : Int}
      {labels : List String}
      {is : List Inst}
      {out : List Inst'}
      (replaces : ReplacesAll machine machine' view is out) :
      RefinesStmt (.instr sid labels is) (.instr sid' labels out)
  | ret
      {sid sid' : Int}
      {labels : List String}
      {value : Option Exp} :
      RefinesStmt (.ret sid labels value) (.ret sid' labels value)
  | goto
      {sid sid' : Int}
      {labels : List String}
      {target : String} :
      RefinesStmt (.goto sid labels target) (.goto sid' labels target)
  | computedGoto
      {sid sid' : Int}
      {labels : List String}
      {target : Exp} :
      RefinesStmt (.computedGoto sid labels target)
        (.computedGoto sid' labels target)
  | ite
      {sid sid' : Int}
      {labels : List String}
      {condition condition' : Exp}
      {thenBlock elseBlock : Block Inst}
      {thenText elseText : Block Inst'}
      (sameTest :
        ∀ state,
          (machine.evaluation state).taken condition' =
            (machine.evaluation state).taken condition)
      (first : RefinesBlock thenBlock thenText)
      (second : RefinesBlock elseBlock elseText) :
      RefinesStmt (.ite sid labels condition thenBlock elseBlock)
        (.ite sid' labels condition' thenText elseText)
  | loop
      {sid sid' : Int}
      {labels : List String}
      {body : Block Inst}
      {text : Block Inst'}
      (inner : RefinesBlock body text) :
      RefinesStmt (.loop sid labels body) (.loop sid' labels text)
  | block
      {sid sid' : Int}
      {labels : List String}
      {body : Block Inst}
      {text : Block Inst'}
      (inner : RefinesBlock body text) :
      RefinesStmt (.block sid labels body) (.block sid' labels text)
  | behindRet
      {sid sid' : Int}
      {labels : List String}
      {value : Option Exp}
      {text : Block Inst'}
      (inner : RefinesBlock (.cons (.ret sid [] value) .nil) text) :
      RefinesStmt (.ret sid labels value) (.block sid' labels text)
  | behindIte
      {sid sid' : Int}
      {labels : List String}
      {condition : Exp}
      {thenBlock elseBlock : Block Inst}
      {text : Block Inst'}
      (inner :
        RefinesBlock (.cons (.ite sid [] condition thenBlock elseBlock) .nil)
          text) :
      RefinesStmt (.ite sid labels condition thenBlock elseBlock)
        (.block sid' labels text)

/-- What a block is refined to, with silent instructions anywhere in it. -/
inductive RefinesBlock : Block Inst → Block Inst' → Prop where
  | nil : RefinesBlock .nil .nil
  | cons
      {s : Stmt Inst}
      {text : Stmt Inst'}
      {rest : Block Inst}
      {restText : Block Inst'}
      (first : RefinesStmt s text)
      (later : RefinesBlock rest restText) :
      RefinesBlock (.cons s rest) (.cons text restText)
  | silent
      {b : Block Inst}
      {sid : Int}
      {out : List Inst'}
      {text : Block Inst'}
      (isSilent : Silent machine' view out)
      (later : RefinesBlock b text) :
      RefinesBlock b (.cons (.instr sid [] out) text)

end

/-- Code and what it is refined to. -/
inductive RefinesCode : List (Stmt Inst) → List (Stmt Inst') → Prop where
  | nil : RefinesCode [] []
  | cons
      {s : Stmt Inst}
      {text : Stmt Inst'}
      {code : List (Stmt Inst)}
      {code' : List (Stmt Inst')}
      (first : RefinesStmt machine machine' view s text)
      (later : RefinesCode code code') :
      RefinesCode (s :: code) (text :: code')
  | silent
      {code : List (Stmt Inst)}
      {sid : Int}
      {out : List Inst'}
      {code' : List (Stmt Inst')}
      (isSilent : Silent machine' view out)
      (later : RefinesCode code code') :
      RefinesCode code (.instr sid [] out :: code')

/-- Code that is refined, and has nothing silent in front. -/
inductive ReadyCode : List (Stmt Inst) → List (Stmt Inst') → Prop where
  | nil : ReadyCode [] []
  | instr
      {sid sid' : Int}
      {labels labels' : List String}
      {is : List Inst}
      {out : List Inst'}
      {code : List (Stmt Inst)}
      {code' : List (Stmt Inst')}
      (replaces : ReplacesAll machine machine' view is out)
      (later : RefinesCode machine machine' view code code') :
      ReadyCode (.instr sid labels is :: code) (.instr sid' labels' out :: code')
  | ret
      {sid sid' : Int}
      {labels labels' : List String}
      {value : Option Exp}
      {code : List (Stmt Inst)}
      {code' : List (Stmt Inst')} :
      ReadyCode (.ret sid labels value :: code) (.ret sid' labels' value :: code')
  | goto
      {sid sid' : Int}
      {labels labels' : List String}
      {target : String}
      {code : List (Stmt Inst)}
      {code' : List (Stmt Inst')} :
      ReadyCode (.goto sid labels target :: code)
        (.goto sid' labels' target :: code')
  | computedGoto
      {sid sid' : Int}
      {labels labels' : List String}
      {target : Exp}
      {code : List (Stmt Inst)}
      {code' : List (Stmt Inst')} :
      ReadyCode (.computedGoto sid labels target :: code)
        (.computedGoto sid' labels' target :: code')
  | ite
      {sid sid' : Int}
      {labels labels' : List String}
      {condition condition' : Exp}
      {thenBlock elseBlock : Block Inst}
      {thenText elseText : Block Inst'}
      {code : List (Stmt Inst)}
      {code' : List (Stmt Inst')}
      (sameTest :
        ∀ state,
          (machine.evaluation state).taken condition' =
            (machine.evaluation state).taken condition)
      (first : RefinesBlock machine machine' view thenBlock thenText)
      (second : RefinesBlock machine machine' view elseBlock elseText)
      (later : RefinesCode machine machine' view code code') :
      ReadyCode (.ite sid labels condition thenBlock elseBlock :: code)
        (.ite sid' labels' condition' thenText elseText :: code')
  | loop
      {sid sid' : Int}
      {labels : List String}
      {body : Block Inst}
      {text : Block Inst'}
      {code : List (Stmt Inst)}
      {code' : List (Stmt Inst')}
      (inner : RefinesBlock machine machine' view body text)
      (later : RefinesCode machine machine' view code code') :
      ReadyCode (.loop sid labels body :: code) (.loop sid' labels text :: code')
  | block
      {sid sid' : Int}
      {labels : List String}
      {body : Block Inst}
      {text : Block Inst'}
      {code : List (Stmt Inst)}
      {code' : List (Stmt Inst')}
      (inner : RefinesBlock machine machine' view body text)
      (later : RefinesCode machine machine' view code code') :
      ReadyCode (.block sid labels body :: code) (.block sid' labels text :: code')

variable {machine machine' view}

/-- A refined block in front of refined code. -/
theorem RefinesBlock.code
    {b : Block Inst}
    (text : Block Inst')
    (refines : RefinesBlock machine machine' view b text)
    {next : List (Stmt Inst)}
    {next' : List (Stmt Inst')}
    (later : RefinesCode machine machine' view next next') :
    RefinesCode machine machine' view (b.toList ++ next)
      (text.toList ++ next') := by
  cases text with
  | nil =>
      cases refines with
      | nil =>
          exact later
  | cons s restText =>
      cases refines with
      | cons first rest =>
          exact .cons first (RefinesBlock.code restText rest later)
      | silent isSilent rest =>
          exact .silent isSilent (RefinesBlock.code restText rest later)

section Search

variable {label : String}

mutual

/-- A search for a label finds the same position. -/
theorem findLabel_refinesStmt
    (text : Stmt Inst')
    {s : Stmt Inst}
    (refines : RefinesStmt machine machine' view s text)
    {next : List (Stmt Inst)}
    {next' : List (Stmt Inst')}
    (later : RefinesCode machine machine' view next next') :
    Option.Rel (RefinesCode machine machine' view) (s.findLabel label next)
      (text.findLabel label next') := by
  cases text with
  | instr sid' labels out =>
      cases refines with
      | instr replaces =>
          exact rel_ite (.cons (.instr replaces) later) .none
  | ret sid' labels value =>
      cases refines with
      | ret =>
          exact rel_ite (.cons .ret later) .none
  | goto sid' labels target =>
      cases refines with
      | goto =>
          exact rel_ite (.cons .goto later) .none
  | computedGoto sid' labels target =>
      cases refines with
      | computedGoto =>
          exact rel_ite (.cons .computedGoto later) .none
  | ite sid' labels condition' thenText elseText =>
      cases refines with
      | ite sameTest first second =>
          refine rel_ite (.cons (.ite sameTest first second) later) ?_
          exact
            rel_or (findLabel_refinesBlock thenText first later)
              (findLabel_refinesBlock elseText second later)
  | loop sid' labels text =>
      cases refines with
      | loop inner =>
          refine rel_ite (.cons (.loop inner) later) ?_
          exact
            findLabel_refinesBlock text inner (.cons (.loop inner) later)
  | block sid' labels text =>
      cases refines with
      | block inner =>
          exact
            rel_ite (.cons (.block inner) later)
              (findLabel_refinesBlock text inner later)
      | behindRet inner =>
          exact
            rel_ite (.cons (.behindRet inner) later)
              (findLabel_refinesBlock text inner later)
      | behindIte inner =>
          next sid condition thenBlock elseBlock =>
          have onlyOne :
              (Block.cons (.ite sid [] condition thenBlock elseBlock)
                    .nil).findLabel label next =
                (thenBlock.findLabel label next).or
                  (elseBlock.findLabel label next) :=
            Option.or_none
          have found := findLabel_refinesBlock text inner later
          rw [onlyOne] at found
          exact rel_ite (.cons (.behindIte inner) later) found

/-- The same in a block. -/
theorem findLabel_refinesBlock
    (text : Block Inst')
    {b : Block Inst}
    (refines : RefinesBlock machine machine' view b text)
    {next : List (Stmt Inst)}
    {next' : List (Stmt Inst')}
    (later : RefinesCode machine machine' view next next') :
    Option.Rel (RefinesCode machine machine' view) (b.findLabel label next)
      (text.findLabel label next') := by
  cases text with
  | nil =>
      cases refines with
      | nil =>
          exact .none
  | cons s restText =>
      cases refines with
      | cons first rest =>
          exact
            rel_or (findLabel_refinesStmt s first (rest.code restText later))
              (findLabel_refinesBlock restText rest later)
      | silent isSilent rest =>
          exact findLabel_refinesBlock restText rest later

end

end Search

section Progress

variable {body' : Block Inst'}

/-- After silent steps, refined code is ready. -/
def BecomesReady
    (machine : Machine Inst State R)
    (machine' : Machine Inst' State' R)
    (view : State' → State)
    (body' : Block Inst')
    (code : List (Stmt Inst))
    (code' : List (Stmt Inst'))
    (state : State') : Prop :=
  ∃ code'' next,
    StateTransition.Reaches (step machine' body') (.running code' state)
        (.running code'' next) ∧
      view next = view state ∧
      ReadyCode machine machine' view code code''

mutual

theorem becomesReady_stmt
    (text : Stmt Inst')
    {s : Stmt Inst}
    (refines : RefinesStmt machine machine' view s text)
    {next : List (Stmt Inst)}
    {next' : List (Stmt Inst')}
    (later : RefinesCode machine machine' view next next')
    (state : State') :
    BecomesReady machine machine' view body' (s :: next) (text :: next')
      state := by
  cases text with
  | instr sid' labels out =>
      cases refines with
      | instr replaces =>
          exact ⟨_, _, .refl, rfl, .instr replaces later⟩
  | ret sid' labels value =>
      cases refines with
      | ret =>
          exact ⟨_, _, .refl, rfl, .ret⟩
  | goto sid' labels target =>
      cases refines with
      | goto =>
          exact ⟨_, _, .refl, rfl, .goto⟩
  | computedGoto sid' labels target =>
      cases refines with
      | computedGoto =>
          exact ⟨_, _, .refl, rfl, .computedGoto⟩
  | ite sid' labels condition' thenText elseText =>
      cases refines with
      | ite sameTest first second =>
          exact ⟨_, _, .refl, rfl, .ite sameTest first second later⟩
  | loop sid' labels text =>
      cases refines with
      | loop inner =>
          exact ⟨_, _, .refl, rfl, .loop inner later⟩
  | block sid' labels text =>
      cases refines with
      | block inner =>
          exact ⟨_, _, .refl, rfl, .block inner later⟩
      | behindRet inner =>
          obtain ⟨code'', after, reached, sameSeen, isReady⟩ :=
            becomesReady_block text inner later state
          cases isReady with
          | ret =>
              exact ⟨_, after, .head rfl reached, sameSeen, .ret⟩
      | behindIte inner =>
          obtain ⟨code'', after, reached, sameSeen, isReady⟩ :=
            becomesReady_block text inner later state
          cases isReady with
          | ite sameTest first second later =>
              exact
                ⟨_, after, .head rfl reached, sameSeen,
                  .ite sameTest first second later⟩

theorem becomesReady_block
    (text : Block Inst')
    {s : Stmt Inst}
    {rest : Block Inst}
    (refines : RefinesBlock machine machine' view (.cons s rest) text)
    {next : List (Stmt Inst)}
    {next' : List (Stmt Inst')}
    (later : RefinesCode machine machine' view next next')
    (state : State') :
    BecomesReady machine machine' view body' (s :: (rest.toList ++ next))
      (text.toList ++ next') state := by
  cases text with
  | nil =>
      cases refines
  | cons textHead restText =>
      cases refines with
      | cons first rest =>
          exact
            becomesReady_stmt textHead first (rest.code restText later) state
      | silent isSilent rest =>
          obtain ⟨between, passed, sameSeen⟩ :=
            isSilent.reaches body' _ (restText.toList ++ next') state
          obtain ⟨code'', after, reached, sameSeen', isReady⟩ :=
            becomesReady_block restText rest later between
          exact
            ⟨code'', after, passed.trans reached, sameSeen'.trans sameSeen,
              isReady⟩

end

/-- Refined code becomes ready. -/
theorem RefinesCode.becomesReady
    {code : List (Stmt Inst)}
    {code' : List (Stmt Inst')}
    (refines : RefinesCode machine machine' view code code')
    (state : State') :
    BecomesReady machine machine' view body' code code' state := by
  induction refines generalizing state with
  | nil =>
      exact ⟨_, _, .refl, rfl, .nil⟩
  | cons first later =>
      exact becomesReady_stmt _ first later state
  | silent isSilent later inductionHypothesis =>
      obtain ⟨between, passed, sameSeen⟩ := isSilent.reaches body' _ _ state
      obtain ⟨code'', after, reached, sameSeen', isReady⟩ :=
        inductionHypothesis between
      exact
        ⟨code'', after, passed.trans reached, sameSeen'.trans sameSeen, isReady⟩

end Progress

section Meaning

/-- Executions that end alike as far as it is seen. -/
inductive SameSeen (view : State' → State) :
    Outcome State R → Outcome State' R → Prop where
  | returned
      {value : Option (CValue R)}
      {state : State'} :
      SameSeen view (.returned value (view state)) (.returned value state)
  | exited
      {state : State'} :
      SameSeen view (.exited (view state)) (.exited state)

/-- ReadyCode code in a state, and what is seen of it. -/
def ReadyAt
    (machine : Machine Inst State R)
    (machine' : Machine Inst' State' R)
    (view : State' → State)
    (code : List (Stmt Inst))
    (state : State)
    (code' : List (Stmt Inst'))
    (state' : State') : Prop :=
  ReadyCode machine machine' view code code' ∧ view state' = state

variable
  {body : Block Inst}
  {body' : Block Inst'}

/-- A step, and steps to code that is refined. -/
theorem stepsAlike_of_refinesCode
    {code next : List (Stmt Inst)}
    {code' next' : List (Stmt Inst')}
    {state : State}
    {state' after : State'}
    (isStep :
      step machine body (.running code state) =
        some (.running next (view after)))
    (isSteps :
      StateTransition.Reaches₁ (step machine' body') (.running code' state')
        (.running next' after))
    (refines : RefinesCode machine machine' view next next') :
    StepsAlike (step machine body) (step machine' body') (SameSeen view)
      (ReadyAt machine machine' view) (.running code state)
      (.running code' state') := by
  obtain ⟨readyCode, last, reached, sameSeen, isReady⟩ :=
    refines.becomesReady after
  exact .steps isStep (isSteps.trans_left reached) (.running ⟨isReady, sameSeen⟩)

/-- Gotos to the same label. -/
theorem stepsAlike_findLabel
    (refines : RefinesBlock machine machine' view body body')
    (label : String)
    {code : List (Stmt Inst)}
    {code' : List (Stmt Inst')}
    {state : State'}
    (isStep :
      step machine body (.running code (view state)) =
        (body.findLabel label []).map fun code => .running code (view state))
    (isStep' :
      step machine' body' (.running code' state) =
        (body'.findLabel label []).map fun code => .running code state) :
    StepsAlike (step machine body) (step machine' body') (SameSeen view)
      (ReadyAt machine machine' view) (.running code (view state))
      (.running code' state) := by
  have found :
      Option.Rel (RefinesCode machine machine' view) (body.findLabel label [])
        (body'.findLabel label []) :=
    findLabel_refinesBlock body' refines .nil
  generalize body.findLabel label [] = source at found isStep
  generalize body'.findLabel label [] = target at found isStep'
  cases found with
  | none =>
      exact .stuck isStep isStep'
  | some isCode =>
      exact stepsAlike_of_refinesCode isStep (.single isStep') isCode

/-- Instructions and what they are replaced by. -/
theorem stepsAlike_instr
    {is : List Inst}
    {out : List Inst'}
    (replaces : ReplacesAll machine machine' view is out)
    {code : List (Stmt Inst)}
    {code' : List (Stmt Inst')}
    (later : RefinesCode machine machine' view code code')
    (sid sid' : Int)
    (labels labels' : List String)
    (state : State') :
    StepsAlike (step machine body) (step machine' body') (SameSeen view)
      (ReadyAt machine machine' view)
      (.running (.instr sid labels is :: code) (view state))
      (.running (.instr sid' labels' out :: code') state) := by
  cases replaces with
  | nil =>
      exact stepsAlike_of_refinesCode rfl (.single rfl) later
  | cons first rest =>
      next i out is outs =>
      have reached :=
        reaches_executeAll machine' body' first.notEmpty sid' labels' outs code'
          state
      have runs := first.runs state
      cases executed : machine.execute i (view state) with
      | none =>
          have alone :
              machine.executeAll [i] (view state) = .error (view state) := by
            simp only [Machine.executeAll, executed]
          rw [alone] at runs
          have isStep :
              step machine body
                  (.running (.instr sid labels (i :: is) :: code)
                    (view state)) =
                some (.ended (.exited (view state))) := by
            simp only [step, executed]
          generalize machine'.executeAll out state = result at reached runs
          cases result with
          | ok after =>
              cases runs
          | error after =>
              refine .steps isStep reached (.ended ?_)
              rw [← Except.error.inj runs]
              exact .exited
      | some next =>
          have alone : machine.executeAll [i] (view state) = .ok next := by
            simp only [Machine.executeAll, executed]
          rw [alone] at runs
          have isStep :
              step machine body
                  (.running (.instr sid labels (i :: is) :: code)
                    (view state)) =
                some (.running (.instr sid [] is :: code) next) := by
            simp only [step, executed]
          generalize machine'.executeAll out state = result at reached runs
          cases result with
          | error after =>
              cases runs
          | ok after =>
              rw [← Except.ok.inj runs] at isStep
              exact
                stepsAlike_of_refinesCode isStep reached
                  (.cons (.instr rest) later)

/-- The step of ready code. -/
theorem stepsAlike_of_readyAt
    (views : Views machine machine' view)
    (refines : RefinesBlock machine machine' view body body')
    (code : List (Stmt Inst))
    (state : State)
    (code' : List (Stmt Inst'))
    (state' : State')
    (readyAt : ReadyAt machine machine' view code state code' state') :
    StepsAlike (step machine body) (step machine' body') (SameSeen view)
      (ReadyAt machine machine' view) (.running code state)
      (.running code' state') := by
  obtain ⟨isReady, rfl⟩ := readyAt
  cases isReady with
  | nil =>
      exact .steps rfl (.single rfl) (.ended .returned)
  | instr replaces later =>
      exact stepsAlike_instr replaces later _ _ _ _ state'
  | ret =>
      next sid sid' labels labels' value code code' =>
      have isStep :
          step machine' body'
              (.running (.ret sid' labels' value :: code') state') =
            some
              (.ended
                (.returned
                  (value.map (machine.evaluation (view state')).eval)
                  state')) := by
        simp only [step, views.evaluation]
      exact .steps rfl (.single isStep) (.ended .returned)
  | goto =>
      exact stepsAlike_findLabel refines _ rfl rfl
  | computedGoto =>
      next sid sid' labels labels' target code code' =>
      cases jumped : machine.jump target (view state') with
      | none =>
          refine .stuck ?_ ?_
          · simp only [step, jumped, Option.bind_none]
          · simp only [step, views.jump, jumped, Option.bind_none]
      | some label =>
          refine stepsAlike_findLabel refines label ?_ ?_
          · simp only [step, jumped, Option.bind_some]
          · simp only [step, views.jump, jumped, Option.bind_some]
  | ite sameTest first second later =>
      next sid sid' labels labels' condition condition' thenBlock elseBlock
        thenText elseText code code' =>
      have isStep :
          step machine' body'
              (.running (.ite sid' labels' condition' thenText elseText :: code')
                state') =
            some
              (.running
                ((if (machine.evaluation (view state')).taken condition then
                    thenText
                  else elseText).toList ++
                  code')
                state') := by
        simp only [step, views.evaluation, sameTest]
      refine stepsAlike_of_refinesCode rfl (.single isStep) ?_
      cases (machine.evaluation (view state')).taken condition with
      | true =>
          exact first.code _ later
      | false =>
          exact second.code _ later
  | loop inner later =>
      exact
        stepsAlike_of_refinesCode rfl (.single rfl)
          (inner.code _ (.cons (.loop inner) later))
  | block inner later =>
      exact stepsAlike_of_refinesCode rfl (.single rfl) (inner.code _ later)

/-- A refined body has the same meaning. -/
theorem RefinesBlock.sameMeaning
    (views : Views machine machine' view)
    (refines : RefinesBlock machine machine' view body body')
    (state : State') :
    SameMeaning (SameSeen view) (step machine body) (start body (view state))
      (step machine' body') (start body' state) := by
  have refinesCode := refines.code _ .nil
  rw [List.append_nil, List.append_nil] at refinesCode
  obtain ⟨code', next, reached, sameSeen, isReady⟩ :=
    refinesCode.becomesReady state
  exact
    .of_reaches reached (fun _ => rfl)
      (.of_stepsAlike (stepsAlike_of_readyAt views refines) (fun _ => rfl)
        (fun _ => rfl) ⟨isReady, sameSeen⟩)

end Meaning

end Shape

end Compi.Cil
