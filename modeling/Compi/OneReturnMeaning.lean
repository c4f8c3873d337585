import Compi.OneReturn

/-!
# The meaning of functions with one return

A function that is left through its last statement means what it meant before:
it returns the same value, in a state that differs in the variable for this
value at most.
-/

namespace Compi.Cil

section Code

variable (site : ReturnSite) (haveGoto : Bool)

/-- Code of a function before and after the scan. -/
inductive ScannedCode : List (Stmt Instr) → List (Stmt Instr) → Prop where
  | last : ScannedCode [] [site.retStmt haveGoto]
  | kept
      {sid : Int}
      {labels : List String}
      {retval : Option Exp}
      (noGoto : haveGoto = false) :
      ScannedCode [.ret sid labels retval] [.ret sid labels retval]
  | set
      {sid : Int}
      {labels : List String}
      {retval : Option Exp}
      (agrees : site.hasRet = retval.isSome) :
      ScannedCode [.ret sid labels retval]
        [site.setReturn sid labels retval, site.retStmt haveGoto]
  | jump
      {sid : Int}
      {labels : List String}
      {retval : Option Exp}
      {code code' : List (Stmt Instr)}
      (agrees : site.hasRet = retval.isSome)
      (hasGoto : haveGoto = true)
      (later : ScannedCode code code') :
      ScannedCode (.ret sid labels retval :: code)
        (site.setReturn sid labels retval :: ReturnSite.gotoReturn :: code')
  | cons
      {s text : Stmt Instr}
      {code code' : List (Stmt Instr)}
      (first : ScannedStmt site haveGoto s text)
      (later : ScannedCode code code') :
      ScannedCode (s :: code) (text :: code')

/-- What runs after a block: nothing after the main body. -/
inductive AfterBlock :
    Bool → List (Stmt Instr) → List (Stmt Instr) → Prop where
  | main : AfterBlock true [] []
  | inside
      {code code' : List (Stmt Instr)}
      (later : ScannedCode site haveGoto code code') :
      AfterBlock false code code'

variable {site haveGoto} {next next' : List (Stmt Instr)}

/-- A block before and after the scan, in front of what follows. -/
theorem ScannedBlock.code
    {mainbody : Bool}
    (b : Block Instr)
    {text : Block Instr}
    (scanned : ScannedBlock site haveGoto mainbody b text)
    (after : AfterBlock site haveGoto mainbody next next') :
    ScannedCode site haveGoto (b.toList ++ next) (text.toList ++ next') := by
  cases b with
  | nil =>
      cases scanned with
      | nil =>
          cases after with
          | inside later =>
              exact later
      | last =>
          cases after with
          | main =>
              exact .last
  | cons s rests =>
      cases scanned with
      | kept noGoto =>
          cases after with
          | main =>
              exact .kept noGoto
      | set agrees =>
          cases after with
          | main =>
              exact .set agrees
      | jump agrees hasGoto later =>
          exact .jump agrees hasGoto (ScannedBlock.code rests later after)
      | cons first later =>
          exact .cons first (ScannedBlock.code rests later after)

/-- What a `return` becomes keeps its labels. -/
@[simp] theorem labels_setReturn
    (sid : Int)
    (labels : List String)
    (retval : Option Exp) :
    (site.setReturn sid labels retval).allLabels = labels := by
  cases retval <;> rfl

theorem findLabel_setReturn
    (sid : Int)
    (labels : List String)
    (retval : Option Exp)
    (label : String) :
    (site.setReturn sid labels retval).findLabel label next =
      if label ∈ labels then
        some (site.setReturn sid labels retval :: next)
      else
        none := by
  cases retval <;> rfl

section Search

variable {label : String}

mutual

/-- A search for a label finds the same position. -/
theorem findLabel_scannedStmt
    (notReturn : label ≠ ReturnSite.returnLabel)
    (s : Stmt Instr)
    {text : Stmt Instr}
    (scanned : ScannedStmt site haveGoto s text)
    {next next' : List (Stmt Instr)}
    (later : ScannedCode site haveGoto next next') :
    Option.Rel (ScannedCode site haveGoto) (s.findLabel label next)
      (text.findLabel label next') := by
  cases scanned with
  | instr =>
      exact rel_ite (.cons .instr later) .none
  | goto other =>
      exact rel_ite (.cons (.goto other) later) .none
  | computedGoto =>
      exact rel_ite (.cons .computedGoto later) .none
  | ite first second =>
      refine rel_ite (.cons (.ite first second) later) (rel_or ?_ ?_)
      · exact findLabel_scannedBlock notReturn _ first (.inside later)
      · exact findLabel_scannedBlock notReturn _ second (.inside later)
  | loop inner =>
      refine rel_ite (.cons (.loop inner) later) ?_
      exact
        findLabel_scannedBlock notReturn _ inner
          (.inside (.cons (.loop inner) later))
  | block inner =>
      refine rel_ite (.cons (.block inner) later) ?_
      exact findLabel_scannedBlock notReturn _ inner (.inside later)

/-- The same in a block. -/
theorem findLabel_scannedBlock
    (notReturn : label ≠ ReturnSite.returnLabel)
    {mainbody : Bool}
    (b : Block Instr)
    {text : Block Instr}
    (scanned : ScannedBlock site haveGoto mainbody b text)
    {next next' : List (Stmt Instr)}
    (after : AfterBlock site haveGoto mainbody next next') :
    Option.Rel (ScannedCode site haveGoto) (b.findLabel label next)
      (text.findLabel label next') := by
  have notLast (next : List (Stmt Instr)) :
      (Block.cons (site.retStmt haveGoto) .nil).findLabel label next =
        none := by
    apply findLabelBlock_eq_none
    unfold ReturnSite.retStmt
    cases haveGoto <;> simp [Block.allLabels, Stmt.allLabels, notReturn]
  cases scanned with
  | nil =>
      exact .none
  | last =>
      rw [notLast]
      exact .none
  | kept noGoto =>
      cases after with
      | main =>
          exact rel_or (rel_ite (.kept noGoto) .none) .none
  | set agrees =>
      cases after with
      | main =>
          have found :
              (Block.cons (site.retStmt haveGoto) .nil).findLabel label [] =
                none :=
            notLast []
          unfold Block.findLabel
          rw [findLabel_setReturn, found]
          exact rel_or (rel_ite (.set agrees) .none) .none
  | jump agrees hasGoto later =>
      unfold Block.findLabel
      rw [findLabel_setReturn]
      refine rel_or (rel_ite ?_ .none) ?_
      · exact .jump agrees hasGoto (later.code _ after)
      · exact findLabel_scannedBlock notReturn _ later after
  | cons first later =>
      refine rel_or ?_ ?_
      · exact
          findLabel_scannedStmt notReturn _ first (later.code _ after)
      · exact findLabel_scannedBlock notReturn _ later after

end

end Search

mutual

/-- A statement keeps its labels. -/
theorem allLabels_scannedStmt
    (s : Stmt Instr)
    {text : Stmt Instr}
    (scanned : ScannedStmt site haveGoto s text) :
    text.allLabels = s.allLabels := by
  cases scanned with
  | ite first second =>
      unfold Stmt.allLabels
      rw [allLabels_scannedBlock _ first, allLabels_scannedBlock _ second]
  | loop inner =>
      unfold Stmt.allLabels
      rw [allLabels_scannedBlock _ inner]
  | block inner =>
      unfold Stmt.allLabels
      rw [allLabels_scannedBlock _ inner]
  | _ =>
      rfl

/-- A block other than the main body keeps its labels. -/
theorem allLabels_scannedBlock
    (b : Block Instr)
    {text : Block Instr}
    (scanned : ScannedBlock site haveGoto false b text) :
    text.allLabels = b.allLabels := by
  cases b with
  | nil =>
      cases scanned with
      | nil =>
          rfl
  | cons s rests =>
      cases scanned with
      | jump agrees hasGoto later =>
          unfold Block.allLabels
          rw [labels_setReturn, Block.allLabels,
            allLabels_scannedBlock rests later]
          rfl
      | cons first later =>
          unfold Block.allLabels
          rw [allLabels_scannedStmt s first, allLabels_scannedBlock rests later]

end

/-- The label of the last statement leads there. -/
theorem findLabel_returnLabel
    (b : Block Instr)
    {text : Block Instr}
    (scanned : ScannedBlock site true true b text)
    (absent : ReturnSite.returnLabel ∉ b.allLabels) :
    text.findLabel ReturnSite.returnLabel [] = some [site.retStmt true] := by
  have atLast :
      (Block.cons (site.retStmt true) .nil).findLabel ReturnSite.returnLabel [] =
        some [site.retStmt true] := by
    simp [Block.findLabel, ReturnSite.retStmt, Stmt.findLabel, Stmt.labels,
      Block.toList]
  cases b with
  | nil =>
      cases scanned with
      | last =>
          exact atLast
  | cons s rests =>
      have notInFirst := fun member => absent (List.mem_append_left _ member)
      have notInRests := fun member => absent (List.mem_append_right _ member)
      cases scanned with
      | kept noGoto =>
          cases noGoto
      | set agrees =>
          next labels _ =>
          have notOwn : ReturnSite.returnLabel ∉ labels := notInFirst
          unfold Block.findLabel
          rw [findLabel_setReturn, if_neg notOwn, Option.none_or]
          exact atLast
      | jump agrees hasGoto later =>
          next labels _ _ =>
          have notOwn : ReturnSite.returnLabel ∉ labels := notInFirst
          unfold Block.findLabel
          rw [findLabel_setReturn, if_neg notOwn, Option.none_or]
          have atRests := findLabel_returnLabel rests later notInRests
          exact atRests
      | cons first later =>
          unfold Block.findLabel
          rw [← allLabels_scannedStmt s first] at notInFirst
          rw [findLabelStmt_eq_none notInFirst, Option.none_or]
          exact findLabel_returnLabel rests later notInRests

end Code

section Meaning

open StateTransition (Reaches Reaches₁)

/-- How a function with one return ends, which may return what it did not before. -/
inductive SameReturn
    {State R Observed : Type}
    (hasRet : Bool)
    (observe : State → Observed) :
    Outcome State R → Outcome State R → Prop where
  | returned
      {value value' : Option (CValue R)}
      {state state' : State}
      (sameValue : value' = value ∨ hasRet = true ∧ value = none)
      (sameState : observe state' = observe state) :
      SameReturn hasRet observe (.returned value state)
        (.returned value' state')
  | exited
      {state : State} :
      SameReturn hasRet observe (.exited state) (.exited state)

variable
  {State R Observed : Type}
  [LinearOrder R]

/-- A variable that holds what is assigned to it and is not observed. -/
structure IsTempVar
    (machine : Machine Instr State R)
    (observe : State → Observed)
    (v : Varinfo) : Prop where
  assigns :
    ∀ value state, ∃ next,
      machine.execute (.set (.var v .noOffset) value) state = some next ∧
        observe next = observe state ∧
        (machine.evaluation next).eval (.lval (.var v .noOffset)) =
          (machine.evaluation state).eval value

/-- What `oneret` needs: its label is not used. -/
structure FreeOfReturnLabel
    (machine : Machine Instr State R)
    (b : Block Instr) : Prop where
  labels : ReturnSite.returnLabel ∉ b.allLabels
  gotos : ReturnSite.returnLabel ∉ b.gotoTargets
  jumps :
    ∀ e state, machine.jump e state ≠ some ReturnSite.returnLabel

variable
  {machine : Machine Instr State R}
  {observe : State → Observed}
  {site : ReturnSite}
  {haveGoto : Bool}
  {b text : Block Instr}

/-- The same point in scanned code. -/
def SamePlace
    (site : ReturnSite)
    (haveGoto : Bool)
    (code : List (Stmt Instr))
    (state : State)
    (code' : List (Stmt Instr))
    (state' : State) : Prop :=
  ScannedCode site haveGoto code code' ∧ state' = state

/-- The value is stored, and returned by the last statement. -/
theorem reaches_setReturn
    (isTemp : IsTempVar machine observe site.retVar)
    {retval : Option Exp}
    (agrees : site.hasRet = retval.isSome)
    (sid : Int)
    (labels : List String)
    (code : List (Stmt Instr))
    (state : State) :
    ∃ next,
      Reaches₁ (step machine text)
          (.running (site.setReturn sid labels retval :: code) state)
          (.running code next) ∧
        observe next = observe state ∧
        step machine text (.running [site.retStmt haveGoto] next) =
          some
            (.ended
              (.returned (retval.map (machine.evaluation state).eval)
                next)) := by
  cases retval with
  | none =>
      refine ⟨state, .single rfl, rfl, ?_⟩
      have noValue : site.hasRet = false := agrees
      simp [ReturnSite.retStmt, noValue, step]
  | some rval =>
      obtain ⟨next, executed, sameState, stored⟩ := isTemp.assigns rval state
      have withValue : site.hasRet = true := agrees
      have isSet :
          step machine text
              (.running
                (site.setReturn sid labels (some rval) :: code) state) =
            some (.running (.instr sid [] [] :: code) next) := by
        simp only [ReturnSite.setReturn, step, executed]
      refine ⟨next, .head isSet (.single rfl), sameState, ?_⟩
      simp [ReturnSite.retStmt, withValue, step, stored]

/-- A `return` of the function, and what there is for it. -/
theorem stepsAlike_return
    (isTemp : IsTempVar machine observe site.retVar)
    {retval : Option Exp}
    (agrees : site.hasRet = retval.isSome)
    {sid : Int}
    {labels : List String}
    {rests code : List (Stmt Instr)}
    (state : State)
    (later :
      ∀ next,
        Reaches (step machine text) (.running code next)
          (.running [site.retStmt haveGoto] next)) :
    StepsAlike (step machine b) (step machine text)
      (SameReturn site.hasRet observe) (SamePlace site haveGoto)
      (.running (.ret sid labels retval :: rests) state)
      (.running (site.setReturn sid labels retval :: code) state) := by
  obtain ⟨next, stored, sameState, returned⟩ :=
    reaches_setReturn isTemp agrees sid labels code state
  refine StepsAlike.steps rfl ?_ (.ended (.returned (.inl rfl) sameState))
  exact .tail (stored.trans_left (later next)) returned

omit [LinearOrder R] in
/-- The same place in scanned code. -/
theorem samePlace
    {code code' : List (Stmt Instr)}
    {state : State}
    (isScanned : ScannedCode site haveGoto code code') :
    Corresponds (SameReturn site.hasRet observe) (SamePlace site haveGoto)
      (Progress.running code state : Progress _ State R)
      (.running code' state) :=
  .running ⟨isScanned, rfl⟩

/-- What a function has before and after the scan. -/
structure IsScanned
    (machine : Machine Instr State R)
    (site : ReturnSite)
    (haveGoto : Bool)
    (b text : Block Instr) : Prop where
  scanned : ScannedBlock site haveGoto true b text
  free : FreeOfReturnLabel machine b

/-- Gotos to one of the labels of the function. -/
theorem stepsAlike_label
    (isScanned : IsScanned machine site haveGoto b text)
    {label : String}
    (notReturn : label ≠ ReturnSite.returnLabel)
    {code code' : List (Stmt Instr)}
    {state : State}
    (isStep :
      step machine b (.running code state) =
        (b.findLabel label []).map fun code => .running code state)
    (isStep' :
      step machine text (.running code' state) =
        (text.findLabel label []).map fun code => .running code state) :
    StepsAlike (step machine b) (step machine text)
      (SameReturn site.hasRet observe) (SamePlace site haveGoto)
      (.running code state) (.running code' state) := by
  have found := findLabel_scannedBlock notReturn b isScanned.scanned .main
  generalize b.findLabel label [] = source at found isStep
  generalize text.findLabel label [] = target at found isStep'
  cases found with
  | none =>
      exact .stuck isStep isStep'
  | some isCode =>
      exact .steps isStep (.single isStep') (samePlace isCode)

/-- The step at a statement other than a `return`. -/
theorem stepsAlike_scannedStmt
    (isScanned : IsScanned machine site haveGoto b text)
    {s s' : Stmt Instr}
    (scanned : ScannedStmt site haveGoto s s')
    {code code' : List (Stmt Instr)}
    (state : State)
    (later : ScannedCode site haveGoto code code') :
    StepsAlike (step machine b) (step machine text)
      (SameReturn site.hasRet observe) (SamePlace site haveGoto)
      (.running (s :: code) state) (.running (s' :: code') state) := by
  cases scanned with
  | instr =>
      next sid labels is =>
      cases is with
      | nil =>
          exact StepsAlike.steps rfl (.single rfl) (samePlace later)
      | cons i is =>
          cases executed : machine.execute i state with
          | none =>
              have isStep
                  (body : Block Instr)
                  (code : List (Stmt Instr)) :
                  step machine body
                      (.running (.instr sid labels (i :: is) :: code) state) =
                    some (.ended (.exited state)) := by
                simp only [step, executed]
              exact
                StepsAlike.steps (isStep b code) (.single (isStep text code'))
                  (.ended .exited)
          | some next =>
              have isStep
                  (body : Block Instr)
                  (code : List (Stmt Instr)) :
                  step machine body
                      (.running (.instr sid labels (i :: is) :: code) state) =
                    some (.running (.instr sid [] is :: code) next) := by
                simp only [step, executed]
              exact
                StepsAlike.steps (isStep b code) (.single (isStep text code'))
                  (samePlace (.cons .instr later))
  | goto notReturn =>
      exact stepsAlike_label isScanned notReturn rfl rfl
  | computedGoto =>
      next sid labels target =>
      cases jumped : machine.jump target state with
      | none =>
          have isStuck
              (body : Block Instr)
              (code : List (Stmt Instr)) :
              step machine body
                  (.running (.computedGoto sid labels target :: code) state) =
                none := by
            simp only [step, jumped, Option.bind_none]
          exact .stuck (isStuck b code) (isStuck text code')
      | some label =>
          have notReturn : label ≠ ReturnSite.returnLabel := by
            rintro rfl
            exact isScanned.free.jumps target state jumped
          refine stepsAlike_label isScanned notReturn ?_ ?_
          · simp only [step, jumped, Option.bind_some]
          · simp only [step, jumped, Option.bind_some]
  | ite first second =>
      next sid labels condition thenBlock elseBlock thenText elseText =>
      refine StepsAlike.steps rfl (.single rfl) ?_
      cases (machine.evaluation state).taken condition with
      | true =>
          exact samePlace (first.code _ (.inside later))
      | false =>
          exact samePlace (second.code _ (.inside later))
  | loop inner =>
      exact
        StepsAlike.steps rfl (.single rfl)
          (samePlace (inner.code _ (.inside (.cons (.loop inner) later))))
  | block inner =>
      exact
        StepsAlike.steps rfl (.single rfl)
          (samePlace (inner.code _ (.inside later)))

/-- The step at the same place. -/
theorem stepsAlike_of_samePlace
    (isTemp : IsTempVar machine observe site.retVar)
    (isScanned : IsScanned machine site haveGoto b text)
    (code : List (Stmt Instr))
    (state : State)
    (code' : List (Stmt Instr))
    (state' : State)
    (samePlace : SamePlace site haveGoto code state code' state') :
    StepsAlike (step machine b) (step machine text)
      (SameReturn site.hasRet observe) (SamePlace site haveGoto)
      (.running code state) (.running code' state') := by
  obtain ⟨isCode, rfl⟩ := samePlace
  cases isCode with
  | last =>
      refine StepsAlike.steps rfl (.single rfl) (.ended (.returned ?_ rfl))
      cases hasRet : site.hasRet with
      | true =>
          exact .inr ⟨rfl, rfl⟩
      | false =>
          exact .inl (by simp)
  | kept noGoto =>
      exact
        StepsAlike.steps rfl (.single rfl) (.ended (.returned (.inl rfl) rfl))
  | set agrees =>
      exact stepsAlike_return isTemp agrees state' fun next => .refl
  | jump agrees hasGoto later =>
      subst hasGoto
      have target :
          text.findLabel ReturnSite.returnLabel [] =
            some [site.retStmt true] :=
        findLabel_returnLabel b isScanned.scanned isScanned.free.labels
      apply stepsAlike_return isTemp agrees state'
      intro next
      refine .single ?_
      simp only [ReturnSite.gotoReturn, step, target, Option.map_some,
        Option.mem_def]
  | cons first later =>
      exact stepsAlike_scannedStmt isScanned first state' later

/-- A function with one return means what it meant before. -/
theorem IsScanned.sameMeaning
    (isScanned : IsScanned machine site haveGoto b text)
    (isTemp : IsTempVar machine observe site.retVar)
    (state : State) :
    SameMeaning (SameReturn site.hasRet observe) (step machine b)
      (start b state) (step machine text) (start text state) := by
  have startsAt := isScanned.scanned.code _ .main
  rw [List.append_nil, List.append_nil] at startsAt
  exact
    .of_stepsAlike (stepsAlike_of_samePlace isTemp isScanned) (fun _ => rfl)
      (fun _ => rfl) ⟨startsAt, rfl⟩

omit [LinearOrder R] in
/-- What `oneret` makes of a function is scanned. -/
theorem isScanned_of_oneret
    {retVar : Varinfo}
    {f once : Fundec Instr}
    (free : FreeOfReturnLabel machine f.sbody)
    (done : oneret retVar f = some once) :
    ∃ hasRet haveGoto,
      hasRet? f.svar.vtype = some hasRet ∧
        IsScanned machine { hasRet := hasRet, retVar := retVar } haveGoto
          f.sbody once.sbody := by
  obtain ⟨hasRet, hasType, done⟩ := Option.bind_eq_some_iff.mp done
  obtain ⟨⟨text, haveGoto⟩, isText, rfl⟩ := Option.map_eq_some_iff.mp done
  have scanned := scanStmts_spec f.sbody free.gotos id (fun _ => rfl) isText
  exact ⟨hasRet, haveGoto, hasType, { scanned := scanned.1, free := free }⟩

/--
The text of a function with one return.  A `return` of the function stores its
value and goes to the last statement, which is the only `return` of the text.
-/
structure ReturnsOnce
    (site : ReturnSite)
    (haveGoto : Bool)
    (b text : Block Instr) : Prop where
  scanned : ScannedBlock site haveGoto true b text
  last :
    ∃ before last,
      text.toList = before ++ [last] ∧
        (∀ s ∈ before, s.returns = []) ∧ IsLastReturn site haveGoto last
  target :
    haveGoto = true →
      text.findLabel ReturnSite.returnLabel [] = some [site.retStmt true]

omit [LinearOrder R] in
theorem IsScanned.returnsOnce
    (isScanned : IsScanned machine site haveGoto b text) :
    ReturnsOnce site haveGoto b text where
  scanned := isScanned.scanned
  last := exists_lastReturn b isScanned.scanned
  target := by
    rintro rfl
    exact findLabel_returnLabel b isScanned.scanned isScanned.free.labels

/--
`oneret` gives a function one return, its last statement, and preserves its
meaning: it ends as before, in a state that looks the same, with the value that
it had returned if it had returned one.
-/
theorem oneret_preserves
    (machine : Machine Instr State R)
    (observe : State → Observed)
    {retVar : Varinfo}
    (isTemp : IsTempVar machine observe retVar)
    {f once : Fundec Instr}
    (free : FreeOfReturnLabel machine f.sbody)
    (done : oneret retVar f = some once) :
    ∃ hasRet haveGoto,
      hasRet? f.svar.vtype = some hasRet ∧
        ReturnsOnce { hasRet := hasRet, retVar := retVar } haveGoto f.sbody
          once.sbody ∧
        ∀ state,
          SameMeaning (SameReturn hasRet observe)
            (step machine f.sbody) (start f.sbody state)
            (step machine once.sbody) (start once.sbody state) := by
  obtain ⟨hasRet, haveGoto, hasType, isScanned⟩ := isScanned_of_oneret free done
  exact
    ⟨hasRet, haveGoto, hasType, isScanned.returnsOnce,
      isScanned.sameMeaning isTemp⟩

/-- `int f() { if (1) return 1; return 2; }`. -/
def earlyReturn : Fundec Instr where
  svar := ⟨"f", .fn (.int .int) false, true, []⟩
  sformals := []
  sbody :=
    .cons
      (.ite (-1) [] (.const (.int64 1 .int))
        (.cons (.ret (-1) [] (some (.const (.int64 1 .int)))) .nil) .nil)
      (.cons (.ret (-1) [] (some (.const (.int64 2 .int)))) .nil)

/-- `__retres`. -/
def retres : Varinfo where
  vname := "__retres"
  vtype := .int .int
  vglob := false
  vattr := []

theorem isTempVar_ofVariable (v : Varinfo) :
    IsTempVar (Machine.ofVariable v) (fun _ => ()) v := by
  constructor
  intro value state
  refine ⟨(holding v state).eval value, ?_, rfl, ?_⟩
  · exact congrArg some (if_pos rfl)
  · simp [Machine.ofVariable, holding, Evaluation.eval]

/-- The function above with one return, which a `goto` leads to. -/
theorem oneret_preserves_earlyReturn :
    ∃ once, oneret retres earlyReturn = some once ∧
      ∃ hasRet haveGoto,
        hasRet? earlyReturn.svar.vtype = some hasRet ∧
          ReturnsOnce { hasRet := hasRet, retVar := retres } haveGoto
            earlyReturn.sbody once.sbody ∧
          ∀ state,
            SameMeaning (SameReturn hasRet fun _ => ())
              (step (Machine.ofVariable retres) earlyReturn.sbody)
              (start earlyReturn.sbody state)
              (step (Machine.ofVariable retres) once.sbody)
              (start once.sbody state) := by
  have free :
      FreeOfReturnLabel (Machine.ofVariable retres) earlyReturn.sbody :=
    { labels := List.not_mem_nil
      gotos := List.not_mem_nil
      jumps := fun _ _ jumped => by cases jumped }
  exact
    ⟨_, rfl,
      oneret_preserves (Machine.ofVariable retres) (fun _ => ())
        (isTempVar_ofVariable retres) free rfl⟩

end Meaning

end Compi.Cil
