import Compi.CrestAll
import Compi.CrestRuntime

/-!
# Runs of instrumented programs

An instrumented program runs statement by statement on top of the runtime
library.  Memory is not modelled: what conditions and pointers evaluate to,
and which inputs an uninstrumented function marks, is chosen at each step.
Uninstrumented functions do not call back.
-/

namespace Compi.Cil

section Labels

variable {Inst : Type}

/-- `bstmts`. -/
def Block.toList : Block Inst → List (Stmt Inst)
  | .nil => []
  | .cons s rest => s :: rest.toList

/-- The labels of a statement. -/
def Stmt.labels : Stmt Inst → List String
  | .instr _ labels _ => labels
  | .ret _ labels _ => labels
  | .goto _ labels _ => labels
  | .computedGoto _ labels _ => labels
  | .ite _ labels _ _ _ => labels
  | .loop _ labels _ => labels
  | .block _ labels _ => labels

mutual

/-- What runs from a label in a statement, before a continuation. -/
def Stmt.findLabel
    (label : String)
    (next : List (Stmt Inst)) : Stmt Inst → Option (List (Stmt Inst))
  | .ite sid labels condition thenBlock elseBlock =>
      if label ∈ labels then
        some (.ite sid labels condition thenBlock elseBlock :: next)
      else
        (thenBlock.findLabel label next).or (elseBlock.findLabel label next)
  | .loop sid labels body =>
      if label ∈ labels then
        some (.loop sid labels body :: next)
      else
        body.findLabel label (.loop sid labels body :: next)
  | .block sid labels body =>
      if label ∈ labels then
        some (.block sid labels body :: next)
      else
        body.findLabel label next
  | s => if label ∈ s.labels then some (s :: next) else none

/-- What runs from a label in a block, before a continuation. -/
def Block.findLabel
    (label : String)
    (next : List (Stmt Inst)) : Block Inst → Option (List (Stmt Inst))
  | .nil => none
  | .cons s rest =>
      (s.findLabel label (rest.toList ++ next)).or
        (rest.findLabel label next)

end

/-- A label of a statement stands before the statement itself. -/
theorem Stmt.findLabel_of_mem
    {label : String}
    {next : List (Stmt Inst)}
    (s : Stmt Inst)
    (labelled : label ∈ s.labels) :
    s.findLabel label next = some (s :: next) := by
  cases s with
  | _ =>
      unfold Stmt.findLabel
      exact if_pos labelled

end Labels

/-- A running function: its body, and what is left to run of it. -/
structure Frame where
  body : Block Instrumented
  code : List (Stmt Instrumented)

/-- A function that waits for a call to return. -/
structure Suspended where
  frame : Frame
  call : Instr

/-- A running program. -/
structure Config where
  crest : Crest
  frame : Frame
  callers : List Suspended

/-- What is chosen at a step. -/
structure Choice where
  here : Circumstances
  taken : Bool
  pointedTo : Option Nat
  inputs : List SymbolicInterpreter.Event
  label : String

/-- The functions of a program, instrumented or marked as uninstrumented. -/
abbrev Program : Type :=
  List (Fundec Instrumented)

/-- The inputs that an uninstrumented function marks. -/
def markInputs
    (crest : Crest) : List SymbolicInterpreter.Event → Option Crest
  | [] => some crest
  | event :: rest =>
      if (crest.si.marking? event).isSome then
        (crest.mark event).bind fun marked => markInputs marked rest
      else
        none

/-- The number of arguments that are pushed. -/
def pushedArguments (args : List Exp) : Nat :=
  (args.filter isSymbolicExp).length

/-- Whether arguments match the formals of a function in integral type. -/
def matchesFormals (g : Fundec Instrumented) (args : List Exp) : Bool :=
  let integral := args.map isSymbolicExp
  let formals := g.sformals.map fun v => isSymbolicType v.vtype
  if g.svar.vtype.isVarArgs then
    integral.take formals.length == formals
  else
    integral == formals

namespace Program

variable (program : Program)

/-- The instrumented function that a plain callee names. -/
def named? (callee : Exp) : Option (Fundec Instrumented) :=
  (calledFunction? callee).bind fun f =>
    program.find? fun g => g.svar = f && !shouldSkipFunction g.svar

/-- The instrumented function that is called, if it is one. -/
def callee? (choice : Choice) (callee : Exp) : Option (Fundec Instrumented) :=
  match calledFunction? callee with
  | some _ => program.named? callee
  | none =>
      (choice.pointedTo.bind fun index => program[index]?).filter
        fun g => !shouldSkipFunction g.svar

/-- Start a function. -/
def enter (g : Fundec Instrumented) : Frame where
  body := g.sbody
  code := g.sbody.toList

/-- Return to the caller; the program ends if there is none. -/
def leave (config : Config) : Option Config :=
  match config.callers with
  | [] => none
  | caller :: rest =>
      some
        { config with
          frame := caller.frame
          callers := rest }

/-- Go on with some code in the same function. -/
def goOn (config : Config) (code : List (Stmt Instrumented)) : Config :=
  { config with frame := { config.frame with code := code } }

/-- Execute an instruction before the code that is left. -/
def execute
    (config : Config)
    (choice : Choice)
    (code : List (Stmt Instrumented)) : Instrumented → Option Config
  | .runtime c =>
      (config.crest.perform choice.here c).map fun crest =>
        goOn { config with crest := crest } code
  | .program (.call ret callee args) =>
      match program.callee? choice callee with
      | some g =>
          if matchesFormals g args then
            some
              { config with
                frame := enter g
                callers :=
                  { frame := { config.frame with code := code }
                    call := .call ret callee args } :: config.callers }
          else
            none
      | none =>
          (markInputs config.crest choice.inputs).map fun crest =>
            goOn { config with crest := crest } code
  | .program _ => some (goOn config code)

/-- One step of a program. -/
def step (config : Config) (choice : Choice) : Option Config :=
  match config.frame.code with
  | [] => leave config
  | .instr _ _ [] :: code => some (goOn config code)
  | .instr sid _ (i :: is) :: code =>
      program.execute config choice (.instr sid [] is :: code) i
  | .ret _ _ _ :: _ => leave config
  | .goto _ _ target :: _ =>
      (config.frame.body.findLabel target []).map (goOn config)
  | .computedGoto _ _ _ :: _ =>
      (config.frame.body.findLabel choice.label []).map (goOn config)
  | .ite _ _ _ thenBlock elseBlock :: code =>
      some (goOn config
        ((if choice.taken then thenBlock else elseBlock).toList ++ code))
  | .loop sid labels body :: code =>
      some (goOn config (body.toList ++ .loop sid labels body :: code))
  | .block _ _ body :: code =>
      some (goOn config (body.toList ++ code))

/-- No assertion of the interpreter fails at a step. -/
def assertsHold (config : Config) (choice : Choice) : Bool :=
  match config.frame.code with
  | .instr _ _ (.runtime c :: _) :: _ =>
      (config.crest.perform choice.here c).isSome
  | _ => true

/-- The start of a program, after the runtime library has been initialized. -/
def start (main : Fundec Instrumented) (si : SymbolicInterpreter) : Config where
  crest :=
    { si := si
      preSymbolic := true }
  frame := enter main
  callers := []

end Program

end Compi.Cil
