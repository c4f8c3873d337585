import Compi.ControlFlow

/-!
# The control of a program

A program runs with a stack of functions, in several files.  Wherever control
gets to, the graph of the whole program has a way, and the distances of the
heuristic search bound how many branches control still has to enter.
-/

namespace Compi.Cil

open CfgFiles CfgBranchesFile

/-- A function of a file, with the code that is left to run. -/
structure ActiveFunction where
  output : Output
  f : Fundec Instr
  code : List (Stmt Instr)

/-- The functions that are active, the innermost first, and the state. -/
abbrev Control (State : Type) := List ActiveFunction × State

section Runs

variable
  (ctx : Output → FileContext)
  (outputs : List Output)

/--
What a variable refers to: a function of the same file, or one that another file
exports under its name.
-/
inductive RefersTo (output : Output) (v : Varinfo) :
    Output → Fundec Instr → Prop where
  | sameFile
      {g : Fundec Instr}
      (isFunction : g ∈ output.prepared)
      (sameVariable : (ctx output).vid g.svar = (ctx output).vid v) :
      RefersTo output v output g
  | otherFile
      {other : Output}
      {g : Fundec Instr}
      (isOutput : other ∈ outputs)
      (isFunction : g ∈ other.prepared)
      (isExported : (ctx other).isStatic g.svar = false)
      (sameName : g.svar.vname = v.vname)
      (notDefined :
        ∀ f ∈ output.prepared, (ctx output).vid f.svar ≠ (ctx output).vid v) :
      RefersTo output v other g

variable
  {State R : Type}
  [LinearOrder R]
  (machine : Machine Instr State R)

/--
A step of a program, and the statement that control enters in it.  A call by
name may be followed into the function; how arguments and results are passed is
left open, as it is for other calls, which are instructions.  What is declared
not to return does not, and a computed goto goes to a label of the function
whose address is taken there.
-/
inductive ControlStep : Control State → Option Int → Control State → Prop where
  | executes
      {output : Output}
      {f : Fundec Instr}
      {sid : Int}
      {labels : List String}
      {i : Instr}
      {is : List Instr}
      {rest : List (Stmt Instr)}
      {callers : List ActiveFunction}
      {state after : State}
      (executed : machine.execute i state = some after)
      (fallsThrough : instrFallsThrough ((ctx output).cfg f) i = true) :
      ControlStep
        (⟨output, f, .instr sid labels (i :: is) :: rest⟩ :: callers, state)
        none
        (⟨output, f, .instr sid [] is :: rest⟩ :: callers, after)
  | moves
      {output : Output}
      {f : Fundec Instr}
      {code next : List (Stmt Instr)}
      {callers : List ActiveFunction}
      {state after : State}
      (notExecuting : isExecuting code = false)
      (jumps :
        ∀ sid labels target rest label,
          code = .computedGoto sid labels target :: rest →
          machine.jump target state = some label →
          label ∈ f.sbody.addrOfLabels)
      (stepped :
        step machine f.sbody (.running code state) =
          some (.running next after)) :
      ControlStep (⟨output, f, code⟩ :: callers, state) (nextSid? next)
        (⟨output, f, next⟩ :: callers, after)
  | calls
      {output other : Output}
      {f g : Fundec Instr}
      {sid : Int}
      {labels : List String}
      {ret : Option Lval}
      {callee : Exp}
      {args : List Exp}
      {is : List Instr}
      {rest : List (Stmt Instr)}
      {callers : List ActiveFunction}
      {state after : State}
      {v : Varinfo}
      (named : calledFunction? callee = some v)
      (refersTo : RefersTo ctx outputs output v other g) :
      ControlStep
        (⟨output, f, .instr sid labels (.call ret callee args :: is) :: rest⟩ ::
            callers,
          state)
        (nextSid? g.sbody.toList)
        (⟨other, g, g.sbody.toList⟩ ::
            ⟨output, f, .instr sid labels (.call ret callee args :: is) :: rest⟩ ::
              callers,
          after)
  | returns
      {output other : Output}
      {f g : Fundec Instr}
      {code : List (Stmt Instr)}
      {sid : Int}
      {labels : List String}
      {i : Instr}
      {is : List Instr}
      {rest : List (Stmt Instr)}
      {callers : List ActiveFunction}
      {state after final : State}
      {value : Option (CValue R)}
      (fallsThrough : instrFallsThrough ((ctx output).cfg f) i = true)
      (stepped :
        step machine g.sbody (.running code state) =
          some (.ended (.returned value final))) :
      ControlStep
        (⟨other, g, code⟩ ::
            ⟨output, f, .instr sid labels (i :: is) :: rest⟩ :: callers,
          state)
        none
        (⟨output, f, .instr sid [] is :: rest⟩ :: callers, after)

/-- A run that enters a number of marked statements. -/
inductive Enters (Marked : Int → Prop) (start : Control State) :
    Control State → Nat → Prop where
  | start : Enters Marked start start 0
  | passes
      {control next : Control State}
      {count : Nat}
      {entered : Option Int}
      (run : Enters Marked start control count)
      (step : ControlStep ctx outputs machine control entered next)
      (notMarked : ∀ sid, entered = some sid → ¬Marked sid) :
      Enters Marked start next count
  | enters
      {control next : Control State}
      {count : Nat}
      {sid : Int}
      (run : Enters Marked start control count)
      (step : ControlStep ctx outputs machine control (some sid) next)
      (isMarked : Marked sid) :
      Enters Marked start next (count + 1)

end Runs

section Graphs

variable
  {ctx : Output → FileContext}
  {outputs : List Output}
  {files : List (List Function)}
  {output : Output}
  {file : List Function}

/-- The graph of a file that belongs to a program. -/
structure IsGraphIn
    (ctx : Output → FileContext)
    (files : List (List Function))
    (output : Output)
    (file : List Function) : Prop where
  isFile : file ∈ files
  isWritten : (ctx output).file? output.prepared = some file

/-- Every file has a graph. -/
theorem exists_isGraphIn
    (isWritten : writtenGraphs ctx outputs = some files)
    (isOutput : output ∈ outputs) :
    ∃ file, IsGraphIn ctx files output file := by
  obtain ⟨file, isFile, isGraph⟩ :=
    exists_of_mem_forall₂
      (List.Forall₂.flip (R := flip fun output file =>
        (ctx output).file? output.prepared = some file)
        (forall₂_of_mapM isWritten)) isOutput
  exact ⟨file, isFile, isGraph⟩

/-- Every function has its place in the graph of its file. -/
theorem exists_function?
    (isGraph : IsGraphIn ctx files output file)
    {f : Fundec Instr}
    (isFunction : f ∈ output.prepared) :
    ∃ g ∈ file, (ctx output).function? f = some g := by
  obtain ⟨g, isMember, isPlace⟩ :=
    exists_of_mem_forall₂
      (List.Forall₂.flip (R := flip fun f g =>
        (ctx output).function? f = some g)
        (forall₂_of_mapM isGraph.isWritten)) isFunction
  exact ⟨g, isMember, isPlace⟩

/-- A place in the graph of a file is that of a function. -/
theorem exists_fundec
    (isGraph : IsGraphIn ctx files output file)
    {g : Function}
    (isMember : g ∈ file) :
    ∃ f ∈ output.prepared, (ctx output).function? f = some g :=
  exists_of_mem_forall₂ (forall₂_of_mapM isGraph.isWritten) isMember

theorem head?_sids (b : Block Instr) :
    b.sids.head? = nextSid? b.toList := by
  cases b with
  | nil =>
      rfl
  | cons s rest =>
      rfl

/-- The graph has the first statement of a function. -/
theorem nextSid?_of_function?
    {f : Fundec Instr}
    {g : Function}
    (isPlace : (ctx output).function? f = some g) :
    nextSid? f.sbody.toList = some g.first.sid := by
  obtain ⟨nodes, _⟩ := nodes_of_function? (ctx output) isPlace
  have sids : g.nodes.map Node.sid = f.sbody.sids := by
    rw [nodes, List.map_map]
    exact sids_cfgStmts _ none f.sbody
  rw [← head?_sids, ← sids]
  rfl

/-- A statement of a file has an instruction. -/
def HasInstr
    (fileCtx : FileContext)
    (file : List Function)
    (sid : Int)
    (i : Instr) : Prop :=
  ∃ s ∈ nodesOf file, s.sid = sid ∧ fileCtx.instr i ∈ s.is

/-- The graph of a program allows what is in that of a function. -/
theorem within_flows
    (isGraph : IsGraphIn ctx files output file)
    {f : Fundec Instr}
    (isFunction : f ∈ output.prepared) :
    Within (Flows files) (HasInstr (ctx output) file)
      (cfgFun ((ctx output).cfg f) f) := by
  intro node visited
  have isNode : (ctx output).node node ∈ nodesOf file := by
    rw [nodesOf_of_file? (ctx output) isGraph.isWritten]
    exact
      List.mem_flatMap.mpr ⟨f, isFunction, List.mem_map_of_mem visited⟩
  constructor
  · intro n isSucc
    exact ⟨file, isGraph.isFile, _, isNode, rfl, .inl isSucc⟩
  · intro i isInstr
    exact ⟨_, isNode, rfl, List.mem_map_of_mem isInstr⟩

/-- Files whose functions have different variables. -/
def DistinctVariables (files : List (List Function)) : Prop :=
  ∀ file ∈ files, (file.map fun f => f.svar.vid).Nodup

/-- The graph resolves a call in its file as the linker does. -/
theorem target_of_sameFile
    (distinct : DistinctVariables files)
    (isGraph : IsGraphIn ctx files output file)
    {g : Fundec Instr}
    (isFunction : g ∈ output.prepared)
    {v : Varinfo}
    (sameVariable : (ctx output).vid g.svar = (ctx output).vid v) :
    target files file ((ctx output).funcVar v) = nextSid? g.sbody.toList := by
  obtain ⟨place, isMember, isPlace⟩ := exists_function? isGraph isFunction
  have hasVid : place.svar.vid = ((ctx output).funcVar v).vid := by
    rw [(nodes_of_function? (ctx output) isPlace).2]
    exact sameVariable
  have found :
      (file.find? fun f =>
        decide (f.svar.vid = ((ctx output).funcVar v).vid)) = some place := by
    refine
      find?_eq_some_of_unique isMember (decide_eq_true hasVid)
        fun first isIn accepted => ?_
    exact
      List.inj_on_of_nodup_map (distinct file isGraph.isFile) isIn isMember
        ((of_decide_eq_true accepted).trans hasVid.symm)
  rw [nextSid?_of_function? isPlace, target, found]

/-- The graph resolves a call into another file as the linker does. -/
theorem target_of_otherFile
    (linkable : Linkable files)
    (isGraph : IsGraphIn ctx files output file)
    {s : Node}
    (isNode : s ∈ nodesOf file)
    {v : Varinfo}
    (isCall : (ctx output).funcVar v ∈ s.calls)
    {other : Output}
    {otherFile : List Function}
    (isOtherGraph : IsGraphIn ctx files other otherFile)
    {g : Fundec Instr}
    (isFunction : g ∈ other.prepared)
    (isExported : (ctx other).isStatic g.svar = false)
    (sameName : g.svar.vname = v.vname)
    (notDefined :
      ∀ f ∈ output.prepared, (ctx output).vid f.svar ≠ (ctx output).vid v) :
    target files file ((ctx output).funcVar v) = nextSid? g.sbody.toList := by
  obtain ⟨place, isMember, isPlace⟩ := exists_function? isOtherGraph isFunction
  have ownVar := (nodes_of_function? (ctx other) isPlace).2
  have hasName : place.svar.vname = ((ctx output).funcVar v).vname := by
    rw [ownVar]
    exact congrArg String.toList sameName
  have exported : place.isExported = true := by
    rw [Function.isExported, ownVar]
    exact congrArg Bool.not isExported
  have notHere :
      ∀ here ∈ file, here.svar.vid ≠ ((ctx output).funcVar v).vid := by
    intro here isHere sameVid
    obtain ⟨f, isOwn, isOwnPlace⟩ := exists_fundec isGraph isHere
    rw [(nodes_of_function? (ctx output) isOwnPlace).2] at sameVid
    exact notDefined f isOwn sameVid
  -- A name stands for one variable in a file, which would be defined there.
  have isOther : otherFile ≠ file := by
    rintro rfl
    exact
      notHere place isMember
        (linkable.oneVariable otherFile isGraph.isFile place isMember s isNode
          _ isCall hasName)
  have notFound :
      (file.find? fun f =>
        decide (f.svar.vid = ((ctx output).funcVar v).vid)) = none :=
    List.find?_eq_none.mpr fun here isHere accepted =>
      notHere here isHere (of_decide_eq_true accepted)
  have found :
      ((files.filter fun other => decide (other ≠ file)).flatten.find?
        fun f =>
          f.isExported &&
            decide (f.svar.vname = ((ctx output).funcVar v).vname)) =
        some place := by
    refine find?_eq_some_of_unique ?_ ?_ fun first isIn accepted => ?_
    · exact
        List.mem_flatten.mpr
          ⟨otherFile,
            List.mem_filter.mpr ⟨isOtherGraph.isFile, decide_eq_true isOther⟩,
            isMember⟩
    · rw [exported, decide_eq_true hasName]
      rfl
    · obtain ⟨isExportedFirst, accepted⟩ := Bool.and_eq_true_iff.mp accepted
      obtain ⟨firstFile, isFirstFile, isIn⟩ := List.mem_flatten.mp isIn
      have firstInFiles : first ∈ files.flatten :=
        List.mem_flatten.mpr
          ⟨firstFile, (List.mem_filter.mp isFirstFile).1, isIn⟩
      have placeInFiles : place ∈ files.flatten :=
        List.mem_flatten.mpr ⟨otherFile, isOtherGraph.isFile, isMember⟩
      exact
        List.inj_on_of_nodup_map linkable.exported
          (List.mem_filter.mpr ⟨firstInFiles, isExportedFirst⟩)
          (List.mem_filter.mpr ⟨placeInFiles, exported⟩)
          ((of_decide_eq_true accepted).trans hasName.symm)
  rw [nextSid?_of_function? isPlace, target, notFound]
  dsimp only
  rw [found]
  rfl

/-- The graph resolves a call as the linker does. -/
theorem target_of_refersTo
    (isWritten : writtenGraphs ctx outputs = some files)
    (linkable : Linkable files)
    (distinct : DistinctVariables files)
    (isGraph : IsGraphIn ctx files output file)
    {s : Node}
    (isNode : s ∈ nodesOf file)
    {v : Varinfo}
    (isCall : (ctx output).funcVar v ∈ s.calls)
    {other : Output}
    {g : Fundec Instr}
    (refersTo : RefersTo ctx outputs output v other g) :
    target files file ((ctx output).funcVar v) = nextSid? g.sbody.toList := by
  cases refersTo with
  | sameFile isFunction sameVariable =>
      exact target_of_sameFile distinct isGraph isFunction sameVariable
  | otherFile isOutput isFunction isExported sameName notDefined =>
      obtain ⟨otherFile, isOtherGraph⟩ := exists_isGraphIn isWritten isOutput
      exact
        target_of_otherFile linkable isGraph isNode isCall isOtherGraph
          isFunction isExported sameName notDefined

end Graphs

section Ways

/-- A function of a program, with code that is laid out as its graph says. -/
structure Located
    (ctx : Output → FileContext)
    (outputs : List Output)
    (files : List (List Function))
    (active : ActiveFunction) : Prop where
  isOutput : active.output ∈ outputs
  isFunction : active.f ∈ active.output.prepared
  laid :
    ∀ file, IsGraphIn ctx files active.output file →
      Laid (Flows files) (HasInstr (ctx active.output) file)
        ((ctx active.output).cfg active.f) active.code

/--
After a step all functions are located, and wherever control is, it either was
before or has come along the graph.
-/
structure Advances
    (ctx : Output → FileContext)
    (outputs : List Output)
    (files : List (List Function))
    (before : List ActiveFunction)
    (entered : Option Int)
    (after : List ActiveFunction) : Prop where
  located : ∀ active ∈ after, Located ctx outputs files active
  arrives :
    ∀ active ∈ after, ∀ sid, nextSid? active.code = some sid →
      (∃ old ∈ before, nextSid? old.code = some sid) ∨
        entered = some sid ∧
          ∃ old ∈ before,
            ∃ source, nextSid? old.code = some source ∧ Flows files source sid

variable
  {ctx : Output → FileContext}
  {outputs : List Output}
  {files : List (List Function)}
  {State R : Type}
  [LinearOrder R]
  {machine : Machine Instr State R}

/-- A function is located when it is called. -/
theorem located_start
    {output : Output}
    {f : Fundec Instr}
    (isOutput : output ∈ outputs)
    (isFunction : f ∈ output.prepared) :
    Located ctx outputs files ⟨output, f, f.sbody.toList⟩ where
  isOutput := isOutput
  isFunction := isFunction
  laid := fun _ isGraph => laid_start (within_flows isGraph isFunction)

/-- An instruction is executed where control is. -/
theorem located_of_executes
    {output : Output}
    {f : Fundec Instr}
    {sid : Int}
    {labels : List String}
    {i : Instr}
    {is : List Instr}
    {rest : List (Stmt Instr)}
    (located :
      Located ctx outputs files
        ⟨output, f, .instr sid labels (i :: is) :: rest⟩)
    (fallsThrough : instrFallsThrough ((ctx output).cfg f) i = true) :
    Located ctx outputs files ⟨output, f, .instr sid [] is :: rest⟩ where
  isOutput := located.isOutput
  isFunction := located.isFunction
  laid := fun file isGraph =>
    (laid_of_executes (located.laid file isGraph) fallsThrough).1

variable
  (isWritten : writtenGraphs ctx outputs = some files)
  (linkable : Linkable files)
  (distinct : DistinctVariables files)

include isWritten linkable distinct

/-- A call goes along the graph of the program. -/
theorem flows_of_call
    {output other : Output}
    {f g : Fundec Instr}
    {sid next : Int}
    {labels : List String}
    {ret : Option Lval}
    {callee : Exp}
    {args : List Exp}
    {is : List Instr}
    {rest : List (Stmt Instr)}
    {v : Varinfo}
    (located :
      Located ctx outputs files
        ⟨output, f, .instr sid labels (.call ret callee args :: is) :: rest⟩)
    (named : calledFunction? callee = some v)
    (refersTo : RefersTo ctx outputs output v other g)
    (isNext : nextSid? g.sbody.toList = some next) :
    Flows files sid next := by
  obtain ⟨file, isGraph⟩ := exists_isGraphIn isWritten located.isOutput
  have laid := located.laid file isGraph
  cases laid with
  | cons here later =>
      obtain ⟨_, instrs⟩ := here _ (List.mem_singleton_self _)
      obtain ⟨s, isNode, sameSid, isInstr⟩ := instrs _ List.mem_cons_self
      have isCall : (ctx output).funcVar v ∈ s.calls := by
        refine List.mem_filterMap.mpr ⟨_, isInstr, ?_⟩
        simp only [FileContext.instr, named, CfgFiles.Instr.called?]
      have resolved :=
        target_of_refersTo isWritten linkable distinct isGraph isNode isCall
          refersTo
      exact
        ⟨file, isGraph.isFile, s, isNode, sameSid,
          .inr ⟨_, isCall, resolved.trans isNext⟩⟩

/-- What each step of a program does to its control. -/
theorem advances_of_step
    {before after : Control State}
    {entered : Option Int}
    (located : ∀ active ∈ before.1, Located ctx outputs files active)
    (step : ControlStep ctx outputs machine before entered after) :
    Advances ctx outputs files before.1 entered after.1 := by
  cases step with
  | executes executed fallsThrough =>
      obtain ⟨own, callers⟩ := List.forall_mem_cons.mp located
      constructor
      · exact
          List.forall_mem_cons.mpr
            ⟨located_of_executes own fallsThrough, callers⟩
      · refine List.forall_mem_cons.mpr ⟨?_, ?_⟩
        · intro sid isNext
          exact .inl ⟨_, List.mem_cons_self, isNext⟩
        · intro active member sid isNext
          exact .inl ⟨active, List.mem_cons_of_mem _ member, isNext⟩
  | @moves output f code next callers state state' notExecuting jumps stepped =>
      obtain ⟨own, callers⟩ := List.forall_mem_cons.mp located
      have moved (file : List Function)
          (isGraph : IsGraphIn ctx files output file) :=
        laid_of_moves (within_flows isGraph own.isFunction)
          (own.laid file isGraph) notExecuting jumps stepped
      constructor
      · exact
          List.forall_mem_cons.mpr
            ⟨⟨own.isOutput, own.isFunction,
                fun file isGraph => (moved file isGraph).1⟩,
              callers⟩
      · refine List.forall_mem_cons.mpr ⟨?_, ?_⟩
        · intro sid isNext
          obtain ⟨file, isGraph⟩ := exists_isGraphIn isWritten own.isOutput
          obtain ⟨source, isSource, flows⟩ := (moved file isGraph).2 sid isNext
          exact .inr ⟨isNext, _, List.mem_cons_self, source, isSource, flows⟩
        · intro active member sid isNext
          exact .inl ⟨active, List.mem_cons_of_mem _ member, isNext⟩
  | calls named refersTo =>
      obtain ⟨own, callers⟩ := List.forall_mem_cons.mp located
      constructor
      · refine List.forall_mem_cons.mpr ⟨?_, located⟩
        cases refersTo with
        | sameFile isFunction _ =>
            exact located_start own.isOutput isFunction
        | otherFile isOutput isFunction _ _ _ =>
            exact located_start isOutput isFunction
      · refine List.forall_mem_cons.mpr ⟨?_, ?_⟩
        · intro sid isNext
          exact
            .inr
              ⟨isNext, _, List.mem_cons_self, _, rfl,
                flows_of_call isWritten linkable distinct own named refersTo
                  isNext⟩
        · intro active member sid isNext
          exact .inl ⟨active, member, isNext⟩
  | returns fallsThrough stepped =>
      obtain ⟨_, others⟩ := List.forall_mem_cons.mp located
      obtain ⟨own, callers⟩ := List.forall_mem_cons.mp others
      constructor
      · exact
          List.forall_mem_cons.mpr
            ⟨located_of_executes own fallsThrough, callers⟩
      · refine List.forall_mem_cons.mpr ⟨?_, ?_⟩
        · intro sid isNext
          exact
            .inl ⟨_, List.mem_cons_of_mem _ List.mem_cons_self, isNext⟩
        · intro active member sid isNext
          exact
            .inl
              ⟨active, List.mem_cons_of_mem _ (List.mem_cons_of_mem _ member),
                isNext⟩

variable
  {Marked : Int → Prop}
  {start control : Control State}
  {count : Nat}

/-- All functions are located in a whole run. -/
theorem located_of_enters
    (located : ∀ active ∈ start.1, Located ctx outputs files active)
    (run : Enters ctx outputs machine Marked start control count) :
    ∀ active ∈ control.1, Located ctx outputs files active := by
  induction run with
  | start =>
      exact located
  | passes _ step _ inductionHypothesis =>
      exact
        (advances_of_step isWritten linkable distinct inductionHypothesis
          step).located
  | enters _ step _ inductionHypothesis =>
      exact
        (advances_of_step isWritten linkable distinct inductionHypothesis
          step).located

/-- Wherever a run gets to, the graph has a way that enters no more. -/
theorem way_of_enters
    (located : ∀ active ∈ start.1, Located ctx outputs files active)
    {origin : Int}
    (starts : ∀ active ∈ start.1, nextSid? active.code = some origin)
    (run : Enters ctx outputs machine Marked start control count) :
    ∀ active ∈ control.1, ∀ sid, nextSid? active.code = some sid →
      ∃ entered ≤ count,
        ThinnedGraph.Way (Flows files) Marked origin sid entered := by
  induction run with
  | start =>
      intro active member sid isNext
      cases (starts active member).symm.trans isNext
      exact ⟨0, Nat.le_refl 0, .here⟩
  | passes earlier step notMarked inductionHypothesis =>
      have advances :=
        advances_of_step isWritten linkable distinct
          (located_of_enters isWritten linkable distinct located earlier) step
      intro active member sid isNext
      rcases advances.arrives active member sid isNext with
        ⟨old, isOld, wasThere⟩ |
          ⟨isEntered, old, isOld, source, isSource, flows⟩
      · exact inductionHypothesis old isOld sid wasThere
      · obtain ⟨entered, few, way⟩ :=
          inductionHypothesis old isOld source isSource
        exact ⟨entered, few, .pass way flows (notMarked sid isEntered)⟩
  | enters earlier step isMarked inductionHypothesis =>
      have advances :=
        advances_of_step isWritten linkable distinct
          (located_of_enters isWritten linkable distinct located earlier) step
      intro active member sid isNext
      rcases advances.arrives active member sid isNext with
        ⟨old, isOld, wasThere⟩ |
          ⟨isEntered, old, isOld, source, isSource, flows⟩
      · obtain ⟨entered, few, way⟩ := inductionHypothesis old isOld sid wasThere
        exact ⟨entered, Nat.le_succ_of_le few, way⟩
      · obtain ⟨entered, few, way⟩ :=
          inductionHypothesis old isOld source isSource
        cases isEntered
        exact ⟨entered + 1, Nat.succ_le_succ few, .enter way flows isMarked⟩

end Ways

section Distances

/-- The runs of the heavy instrumenter over the files of a program. -/
abbrev heavyOutputs (sources : List (List (Fundec Instr))) : List Output :=
  instrumentAll CrestAll.doit noCounterFiles sources

/-- The branches of the files of a program. -/
abbrev branchesIn (sources : List (List (Fundec Instr))) : List BranchId :=
  branchesOf ((heavyOutputs sources).map Output.visitedPairs)

variable
  {files : List (List Function)}
  {branchFiles : List (List Pairs)}
  {covered : List Bool}

/-- A way to an uncovered branch enters as many branches as its distance. -/
theorem le_of_isControlDistance
    {bid goal : Int}
    {dist entered : Nat}
    (isDistance : IsControlDistance files branchFiles covered bid dist)
    (way :
      ThinnedGraph.Way (Flows files) (· ∈ branchesOf branchFiles) bid goal
        entered)
    (isUncovered : IsUncovered branchFiles covered goal) :
    dist ≤ entered := by
  have path := way.entries (.here isUncovered)
  rcases isDistance with ⟨_, _, isLower⟩ | ⟨isFar, isInfinite⟩
  · exact isLower path
  · rw [isInfinite]
    exact isFar _ path

/--
A program in several files whose graphs the heavy instrumenter has written, and
for whose branches the heuristic search has measured the distances.
-/
structure Measured
    (ctx : Output → FileContext)
    (sources : List (List (Fundec Instr)))
    (files : List (List Function))
    (covered : List Bool)
    (final : List Nat) : Prop where
  fewStatements : (sources.map statementCount).sum < 2 ^ 31 - 1
  fewFunctions : (sources.map List.length).sum < 2 ^ 31
  isWritten : writtenGraphs ctx (heavyOutputs sources) = some files
  linkable : Linkable files
  distinct : DistinctVariables files
  measured :
    ∃ garbage dist,
      (∀ tables,
        BranchTables.ofText (branchesText sources) = some tables →
        covered.length = tables.pairedBranch.length ∧
          dist.length = tables.pairedBranch.length) ∧
        heuristicDistances garbage (branchesText sources) (cfgFuncMap files)
            (CfgFiles.cfg files) covered dist =
          some final

/-- What has been measured are the distances of control. -/
theorem Measured.isControlDistance
    {ctx : Output → FileContext}
    {sources : List (List (Fundec Instr))}
    {final : List Nat}
    (measured : Measured ctx sources files covered final)
    {bid : BranchId}
    (isBranch : bid ∈ branchesIn sources) :
    ∃ far,
      BranchTables.lookup? final bid = some far ∧
        IsControlDistance files
          ((heavyOutputs sources).map Output.visitedPairs) covered bid far := by
  obtain ⟨garbage, dist, sized, ran⟩ := measured.measured
  rw [branchesText_eq] at sized ran
  obtain ⟨_, sameFinal, distances⟩ :=
    isControlDistance_heuristicDistances garbage
      (ofProgram_writtenGraphs measured.fewStatements measured.fewFunctions
        measured.isWritten measured.linkable)
      sized
  cases ran.symm.trans sameFinal
  exact distances bid isBranch

/--
The distances of the heuristic search hold for every run of the program: once
control is at a branch, it has to enter as many branches as the distance says
before it is at an uncovered one, unless the function returns.
-/
theorem heuristicDistances_le
    (ctx : Output → FileContext)
    (sources : List (List (Fundec Instr)))
    (files : List (List Function))
    (covered : List Bool)
    (final : List Nat)
    (measured : Measured ctx sources files covered final)
    {State R : Type}
    [LinearOrder R]
    (machine : Machine Instr State R)
    (output : Output)
    (isOutput : output ∈ heavyOutputs sources)
    (main : Fundec Instr)
    (isMain : main ∈ output.prepared)
    (atStart atBranch atGoal : State)
    (active reaching : ActiveFunction)
    (callers called : List ActiveFunction)
    (earlier entered : Nat)
    (reached :
      Enters ctx (heavyOutputs sources) machine (· ∈ branchesIn sources)
        ([⟨output, main, main.sbody.toList⟩], atStart)
        (active :: callers, atBranch) earlier)
    (onward :
      Enters ctx (heavyOutputs sources) machine (· ∈ branchesIn sources)
        ([active], atBranch) (reaching :: called, atGoal) entered)
    (bid goal : BranchId)
    (isAtBranch : nextSid? active.code = some bid)
    (isBranch : bid ∈ branchesIn sources)
    (isAtGoal : nextSid? reaching.code = some goal)
    (isUncovered :
      IsUncovered ((heavyOutputs sources).map Output.visitedPairs) covered
        goal) :
    ∃ far, BranchTables.lookup? final bid = some far ∧ far ≤ entered := by
  have located :=
    located_of_enters measured.isWritten measured.linkable measured.distinct
      (List.forall_mem_singleton.mpr (located_start isOutput isMain)) reached
  have locatedHere : ∀ other ∈ [active], Located ctx _ files other :=
    List.forall_mem_singleton.mpr (located active List.mem_cons_self)
  have isOrigin : ∀ other ∈ [active], nextSid? other.code = some bid :=
    List.forall_mem_singleton.mpr isAtBranch
  obtain ⟨least, few, way⟩ :=
    way_of_enters measured.isWritten measured.linkable measured.distinct
      locatedHere isOrigin onward reaching List.mem_cons_self goal isAtGoal
  obtain ⟨far, found, isDistance⟩ := measured.isControlDistance isBranch
  exact
    ⟨far, found,
      Nat.le_trans (le_of_isControlDistance isDistance way isUncovered) few⟩

/-- A test of `name`, whose blocks have a statement each. -/
def testOn
    (name : String)
    (sid : Int)
    (thenStmt elseStmt : Stmt Instr) : Stmt Instr :=
  .ite sid []
    (.binOp .ne (.lval (.var (intVariable name) .noOffset))
      (.const (.int64 0 .int)) (.int .int))
    (.cons thenStmt .nil) (.cons elseStmt .nil)

/-- `other();`. -/
def callOther : Stmt Instr :=
  .instr 2 []
    [.call none
      (.lval (.var ⟨"other", .fn .void false, true, []⟩ .noOffset)) []]

/-- `main` of the two files, as it is numbered. -/
def numberedMain : Fundec Instr :=
  plainFunction "main"
    (.cons (testOn "x" 1 callOther (.instr 3 [] []))
      (.cons (.ret 4 [] none) .nil))

/-- `other` of the two files, as it is numbered. -/
def numberedOther : Fundec Instr :=
  plainFunction "other"
    (.cons (testOn "y" 5 (.instr 6 [] []) (.instr 7 [] []))
      (.cons (.ret 8 [] none) .nil))

/-- What the instrumenter makes of one of the two files. -/
def outputOfTwo (i : Nat) : Output :=
  (heavyOutputs testsInTwoFiles).getD i ⟨[], []⟩

/-- `main` at the call of `other`. -/
def mainAtCall : ActiveFunction :=
  ⟨outputOfTwo 0, numberedMain, [callOther, .ret 4 [] none]⟩

/-- `other` behind its test. -/
def otherAfterTest : ActiveFunction :=
  ⟨outputOfTwo 1, numberedOther, [.instr 7 [] [], .ret 8 [] none]⟩

theorem enters_mainAtCall :
    Enters (fun _ => byLength) (heavyOutputs testsInTwoFiles)
      (Machine.ofVariable (intVariable "x")) (· ∈ branchesIn testsInTwoFiles)
      ([⟨outputOfTwo 0, numberedMain, numberedMain.sbody.toList⟩], .int 1)
      ([mainAtCall], .int 1) 1 := by
  have step :
      ControlStep (fun _ => byLength) (heavyOutputs testsInTwoFiles)
        (Machine.ofVariable (intVariable "x"))
        ([⟨outputOfTwo 0, numberedMain, numberedMain.sbody.toList⟩], .int 1)
        (nextSid? mainAtCall.code) ([mainAtCall], .int 1) := by
    refine .moves rfl ?_ rfl
    intro _ _ _ _ _ impossible
    cases impossible
  exact .enters .start step (by decide)

theorem enters_otherAfterTest :
    Enters (fun _ => byLength) (heavyOutputs testsInTwoFiles)
      (Machine.ofVariable (intVariable "x")) (· ∈ branchesIn testsInTwoFiles)
      ([mainAtCall], .int 1) ([otherAfterTest, mainAtCall], .int 1) 1 := by
  have refersTo :
      RefersTo (fun _ => byLength) (heavyOutputs testsInTwoFiles)
        (outputOfTwo 0) ⟨"other", .fn .void false, true, []⟩ (outputOfTwo 1)
        numberedOther :=
    .otherFile (.tail _ (.head _)) (.head _) rfl rfl (by decide)
  have called :
      ControlStep (fun _ => byLength) (heavyOutputs testsInTwoFiles)
        (Machine.ofVariable (intVariable "x")) ([mainAtCall], .int 1) (some 5)
        ([⟨outputOfTwo 1, numberedOther, numberedOther.sbody.toList⟩,
            mainAtCall],
          .int 1) :=
    ControlStep.calls rfl refersTo
  have tested :
      ControlStep (fun _ => byLength) (heavyOutputs testsInTwoFiles)
        (Machine.ofVariable (intVariable "x"))
        ([⟨outputOfTwo 1, numberedOther, numberedOther.sbody.toList⟩,
            mainAtCall],
          .int 1)
        (nextSid? otherAfterTest.code) ([otherAfterTest, mainAtCall], .int 1) := by
    refine .moves rfl ?_ rfl
    intro _ _ _ _ _ impossible
    cases impossible
  exact .enters (.passes .start called (by decide)) tested (by decide)

/-- The graphs of the two files. -/
def filesOfTwo : List (List Function) :=
  (writtenGraphs (fun _ => byLength) (heavyOutputs testsInTwoFiles)).getD []

theorem heuristicDistances_le_testsInTwoFiles :
    ∃ final far,
      heuristicDistances ⟨0, 0, 0, 0⟩ (branchesText testsInTwoFiles)
          (cfgFuncMap filesOfTwo) (CfgFiles.cfg filesOfTwo)
          (allButLast tablesOfTwo)
          (List.replicate tablesOfTwo.pairedBranch.length 0) =
        some final ∧
        BranchTables.lookup? final 2 = some far ∧ far ≤ 1 := by
  have recorded :
      BranchTables.Recorded
        ((heavyOutputs testsInTwoFiles).map Output.visitedPairs) :=
    recorded_instrumentAll (by decide) (by decide)
  have sized :
      ∀ tables,
        BranchTables.ofText (branchesText testsInTwoFiles) = some tables →
        (allButLast tablesOfTwo).length = tables.pairedBranch.length ∧
          (List.replicate tablesOfTwo.pairedBranch.length 0).length =
            tables.pairedBranch.length := by
    intro tables read
    rw [branchesText_eq, BranchTables.ofText_textOf recorded] at read
    cases read
    exact
      ⟨(BranchTables.length_update _ _ _).trans List.length_replicate,
        List.length_replicate⟩
  have reconstructed := BranchTables.reconstructed_ofFile recorded
  have inRange :=
    reconstructed.inRange 7 (reconstructed.branches.mem_iff.mpr (by decide))
  have uncovered :
      BranchTables.lookup? (allButLast tablesOfTwo) 7 = some false := by
    refine
      (BranchTables.lookup?_update ⟨by decide, ?_⟩).trans (if_pos rfl)
    rw [List.length_replicate]
    exact inRange.2.1
  have isWritten :
      writtenGraphs (fun _ => byLength) (heavyOutputs testsInTwoFiles) =
        some filesOfTwo :=
    rfl
  have linkable : Linkable filesOfTwo :=
    ⟨by decide, by decide, by decide, by decide⟩
  have distinct : DistinctVariables filesOfTwo := by
    unfold DistinctVariables
    decide
  have ofProgram :=
    ofProgram_writtenGraphs (by decide) (by decide) isWritten linkable
  obtain ⟨final, ran, _⟩ :=
    isControlDistance_heuristicDistances ⟨0, 0, 0, 0⟩ ofProgram
      (branchesText_eq testsInTwoFiles ▸ sized)
  rw [← branchesText_eq] at ran
  have measured :
      Measured (fun _ => byLength) testsInTwoFiles filesOfTwo
        (allButLast tablesOfTwo) final :=
    ⟨by decide, by decide, isWritten, linkable, distinct, _, _, sized, ran⟩
  obtain ⟨far, found, few⟩ :=
    heuristicDistances_le (fun _ => byLength) testsInTwoFiles filesOfTwo
      (allButLast tablesOfTwo) final measured
      (Machine.ofVariable (intVariable "x")) (outputOfTwo 0) (.head _)
      numberedMain (.head _) (.int 1) (.int 1) (.int 1) mainAtCall
      otherAfterTest [] [mainAtCall] 1 1 enters_mainAtCall
      enters_otherAfterTest 2 7 rfl (by decide) rfl ⟨by decide, uncovered⟩
  exact ⟨final, far, ran, found, few⟩

end Distances

end Compi.Cil
