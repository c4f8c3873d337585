import Compi.InstrumentationAgreement
import Compi.VariableIndices

/-!
# Marked calls of the MPI library

The instrumenter marks the variables that `MPI_Comm_rank` and `MPI_Comm_size`
write to.  What is recorded for such a variable comes from the configuration,
from the input file, or from the variable itself after the call.
-/

namespace Compi

open Cil SymbolicInterpreter

/--
A communicator of a process: the ranks of its members in `MPI_COMM_WORLD`, and
where the process stands among them.
-/
structure Communicator (worldRank : Nat) where
  members : List Nat
  rank : Nat
  isMember : members[rank]? = some worldRank

/-- The functions of the MPI library whose results are marked. -/
inductive MpiFunction where
  | commRank
  | commSize
  deriving DecidableEq

/-- The name of a function of the MPI library. -/
def MpiFunction.vname : MpiFunction → String
  | commRank => "MPI_Comm_rank"
  | commSize => "MPI_Comm_size"

/--
A visited call of the MPI library, the communicator that its first argument
denotes, and what its arguments evaluate to.
-/
structure MpiCall (worldRank : Nat) where
  function : MpiFunction
  ret : Option Lval
  callee : Exp
  args : List Exp
  names : (calledFunction? callee).map Varinfo.vname = some function.vname
  visited : skipsCall callee = false
  comm : Communicator worldRank
  here : Circumstances

namespace MpiCall

variable {worldRank : Nat} (call : MpiCall worldRank)

/-- The true rank or size, which is what MPI writes. -/
def answer : Value :=
  match call.function with
  | .commRank => call.comm.rank
  | .commSize => call.comm.members.length

/--
What the inserted calls find: a pointer to the variable points to what MPI has
written, and the process under test has the focus in all its communicators.
-/
def circumstances : Circumstances :=
  { call.here with
    pointee := fun _ => call.answer
    focus := call.comm.rank
    gathered := call.comm.members.map fun member => (member : Value) }

/-- An instruction of the instrumented call. -/
def perform (crest : Crest) : Instrumented → Option Crest
  | .program _ => some crest
  | .runtime c => crest.perform call.circumstances c

/-- The instructions that the call has become. -/
def instrumented : List Instrumented :=
  CrestAll.vinst (.call call.ret call.callee call.args)

/-- Whether the first argument is a constant. -/
def namesConstant : Bool :=
  (call.args.head?).any isConstant

/-- The list in which the variable of the call is entered, if it is marked. -/
def marked : Option IndexList :=
  match call.function with
  | .commRank =>
      if acceptsRank call.args then
        some (if call.namesConstant then .rank else .rankNonDefaultComm)
      else
        none
  | .commSize =>
      if acceptsWorldSize call.args then some .worldSize else none

/-- What the call leaves in the inputs for its variable. -/
def recorded (si : SymbolicInterpreter) : IndexList → Value
  | .rank => castTo si.rank .uInt
  | .rankNonDefaultComm => call.answer
  | .worldSize =>
      (si.ex.inputs[si.numInputs]?).getD (castTo si.worldSize .uInt)

/--
The rank in a constant communicator is the one in `MPI_COMM_WORLD`, and the
size of a constant communicator is what the input file has for it or else the
world size.
-/
def Agrees (si : SymbolicInterpreter) : Prop :=
  match call.marked with
  | some .rank => call.answer = si.rank
  | some .worldSize =>
      call.answer = (si.ex.inputs[si.numInputs]?).getD si.worldSize
  | _ => True

end MpiCall

/-- The process under test, with what MPI wrote into marked variables. -/
structure FocusProcess where
  crest : Crest
  written : List (Id × Value)

/-- What the process does: a call of the MPI library, or anything else. -/
inductive FocusEvent (worldRank : Nat) where
  | mpi (call : MpiCall worldRank)
  | other (event : Event)

namespace FocusProcess

variable {worldRank : Nat}

/-- Pass on an event that enters no variable in a list. -/
def passOn (crest : Crest) (event : Event) : Option Crest :=
  match event.marking with
  | none => crest.forwardTracked event
  | some marking =>
      if marking.list = none then crest.mark event else none

/-- One event of the process. -/
def step (process : FocusProcess) : FocusEvent worldRank → Option FocusProcess
  | .mpi call =>
      (PartialRun.run? call.perform process.crest call.instrumented).map
        fun crest =>
          { crest := crest
            written :=
              if process.crest.si.numInputs < crest.si.numInputs then
                process.written ++
                  [((process.crest.si.numInputs : Id), call.answer)]
              else
                process.written }
  | .other event =>
      (passOn process.crest event).map fun crest =>
        { process with crest := crest }

/-- The process before its first call. -/
def start
    (input : List Value)
    (execTimes : Nat)
    (worldRank worldSize : Nat) : FocusProcess where
  crest := Crest.start input execTimes worldRank worldRank worldSize
  written := []

/--
The input of every variable that is marked as a rank or a size is what MPI
wrote into it.
-/
def Real (process : FocusProcess) : Prop :=
  ∀ list : IndexList, ∀ id ∈ list.of process.crest.si.ex,
    ∃ value,
      (id, value) ∈ process.written ∧
        process.crest.si.ex.inputs[id.toNat]? = some value

/-- The calls of the MPI library agree with what is recorded for them. -/
def Agrees (process : FocusProcess) : FocusEvent worldRank → Prop
  | .mpi call => call.Agrees process.crest.si
  | .other _ => True

end FocusProcess

section Effects

variable {si middle next : SymbolicInterpreter}

/-- The variables, their inputs and the configuration are left alone. -/
structure Leaves (si next : SymbolicInterpreter) : Prop where
  numInputs : next.numInputs = si.numInputs
  inputs : next.ex.inputs = si.ex.inputs
  lists : ∀ list : IndexList, list.of next.ex = list.of si.ex
  worldSize : next.worldSize = si.worldSize
  rank : next.rank = si.rank
  targetRank : next.targetRank = si.targetRank

/-- One more variable with an input is entered in a list or in none. -/
structure Enters
    (si : SymbolicInterpreter)
    (entered : Option IndexList)
    (value : Value)
    (next : SymbolicInterpreter) : Prop where
  numInputs : next.numInputs = si.numInputs + 1
  inputs : next.ex.inputs = si.inputsAfter value
  lists :
    ∀ list : IndexList,
      list.of next.ex =
        if entered = some list then
          list.of si.ex ++ [(si.numInputs : Id)]
        else
          list.of si.ex
  worldSize : next.worldSize = si.worldSize
  rank : next.rank = si.rank
  targetRank : next.targetRank = si.targetRank

/-- An entry of a list is old or the new variable. -/
theorem Enters.mem_lists
    {entered : Option IndexList}
    {value : Value}
    {list : IndexList}
    {id : Id}
    (enters : Enters si entered value next)
    (member : id ∈ list.of next.ex) :
    id ∈ list.of si.ex ∨ (entered = some list ∧ id = (si.numInputs : Id)) := by
  rw [enters.lists] at member
  split at member
  · next isList =>
      rcases List.mem_append.mp member with old | isNew
      · exact Or.inl old
      · exact Or.inr ⟨isList, List.mem_singleton.mp isNew⟩
  · exact Or.inl member

theorem Enters.mem_lists_of_old
    {entered : Option IndexList}
    {value : Value}
    {list : IndexList}
    {id : Id}
    (enters : Enters si entered value next)
    (member : id ∈ list.of si.ex) :
    id ∈ list.of next.ex := by
  rw [enters.lists]
  split
  · exact List.mem_append_left _ member
  · exact member

theorem Leaves.refl (si : SymbolicInterpreter) : Leaves si si :=
  ⟨rfl, rfl, fun _ => rfl, rfl, rfl, rfl⟩

theorem Leaves.trans
    (first : Leaves si middle)
    (second : Leaves middle next) :
    Leaves si next where
  numInputs := second.numInputs.trans first.numInputs
  inputs := second.inputs.trans first.inputs
  lists := fun list => (second.lists list).trans (first.lists list)
  worldSize := second.worldSize.trans first.worldSize
  rank := second.rank.trans first.rank
  targetRank := second.targetRank.trans first.targetRank

theorem Leaves.enters
    {entered : Option IndexList}
    {value : Value}
    (first : Leaves si middle)
    (second : Enters middle entered value next) :
    Enters si entered value next where
  numInputs := by
    rw [second.numInputs, first.numInputs]
  inputs := by
    rw [second.inputs]
    unfold inputsAfter
    rw [first.inputs, first.numInputs]
  lists := by
    intro list
    rw [second.lists, first.lists, first.numInputs]
  worldSize := second.worldSize.trans first.worldSize
  rank := second.rank.trans first.rank
  targetRank := second.targetRank.trans first.targetRank

theorem Enters.leaves
    {entered : Option IndexList}
    {value : Value}
    (first : Enters si entered value middle)
    (second : Leaves middle next) :
    Enters si entered value next where
  numInputs := second.numInputs.trans first.numInputs
  inputs := second.inputs.trans first.inputs
  lists := fun list => (second.lists list).trans (first.lists list)
  worldSize := second.worldSize.trans first.worldSize
  rank := second.rank.trans first.rank
  targetRank := second.targetRank.trans first.targetRank

/-- An event that marks nothing leaves the variables alone. -/
theorem leaves_of_step
    {event : Event}
    (unmarked : event.marking = none)
    (stepped : si.step event = some next) :
    Leaves si next := by
  obtain ⟨keeps, _⟩ := keepsRecord_of_step unmarked stepped
  exact
    { numInputs := keeps.numInputs
      inputs := by rw [keeps.ex]
      lists := by
        intro list
        rw [keeps.ex]
        cases list <;> rfl
      worldSize := keeps.worldSize
      rank := keeps.rank
      targetRank := keeps.targetRank }

/-- A marking call of the process under test enters its variable. -/
theorem enters_of_step
    {event : Event}
    {marking : Marking}
    (isTarget : si.targetRank = si.rank)
    (marks : event.marking = some marking)
    (stepped : si.step event = some next) :
    Enters si marking.list (si.returned event) next := by
  have records := records_of_step marks stepped
  exact
    { numInputs := records.numInputs
      inputs := records.inputs
      lists := by
        intro list
        rw [records.of_list]
        simp only [listAfter, isTarget, true_and]
      worldSize := records.worldSize
      rank := records.rank
      targetRank := records.targetRank }

theorem leaves_forwardTracked
    {crest after : Crest}
    {event : Event}
    (unmarked : event.marking = none)
    (forwarded : crest.forwardTracked event = some after) :
    Leaves crest.si after.si := by
  unfold Crest.forwardTracked at forwarded
  split at forwarded
  · obtain rfl := Option.some.inj forwarded
    exact Leaves.refl _
  · obtain ⟨si, stepped, rfl⟩ := Option.map_eq_some_iff.mp forwarded
    exact leaves_of_step unmarked stepped

theorem enters_mark
    {crest after : Crest}
    {event : Event}
    {marking : Marking}
    (isTarget : crest.si.targetRank = crest.si.rank)
    (marks : event.marking = some marking)
    (marked : crest.mark event = some after) :
    Enters crest.si marking.list (crest.si.returned event) after.si := by
  obtain ⟨si, stepped, rfl⟩ := Option.map_eq_some_iff.mp marked
  exact enters_of_step isTarget marks stepped

/-- The variable marked last is given what its pointer points to. -/
theorem Enters.rankNonDefaultComm2
    {crest : Crest}
    {entered : Option IndexList}
    {value : Value}
    {here : Circumstances}
    (enters : Enters si entered value crest.si)
    (isTarget : si.targetRank = si.rank)
    (hasFocus : 0 ≤ here.focus)
    (covered : si.numInputs ≤ si.ex.inputs.length)
    (addr : Exp) :
    Enters si entered (here.pointee addr)
      (crest.rankNonDefaultComm2 here addr).si := by
  have stillTarget : crest.si.rank = crest.si.targetRank := by
    rw [enters.rank, enters.targetRank, isTarget]
  have isLast : crest.si.numInputs - 1 = si.numInputs := by
    rw [enters.numInputs]
    rfl
  unfold Crest.rankNonDefaultComm2
  rw [if_neg (not_lt.mpr hasFocus), if_pos stillTarget]
  refine
    { numInputs := enters.numInputs
      inputs := ?_
      lists := ?_
      worldSize := enters.worldSize
      rank := enters.rank
      targetRank := enters.targetRank }
  · change crest.si.ex.inputs.set (crest.si.numInputs - 1) _ = _
    rw [isLast, enters.inputs]
    unfold inputsAfter
    split
    · rw [List.set_set]
    · next outside =>
        have isLength : si.numInputs = si.ex.inputs.length :=
          le_antisymm covered (not_lt.mp outside)
        rw [isLength]
        simp
  · intro list
    rw [← enters.lists list]
    cases list <;> rfl

end Effects

section Instrumented

/-- The inserted calls that evaluate arguments and drop them. -/
def Cil.RuntimeCall.evaluates : RuntimeCall → Bool
  | .load _ _ => true
  | .apply1 _ _ => true
  | .apply2 _ _ => true
  | .clearStack => true
  | _ => false

theorem leaves_of_evaluates
    {crest next : Crest}
    {here : Circumstances}
    {c : RuntimeCall}
    (evaluates : c.evaluates = true)
    (performed : crest.perform here c = some next) :
    Leaves crest.si next.si := by
  have tracked : Crest.isTracked c = true := by
    cases c with
    | load | apply1 | apply2 | clearStack => rfl
    | _ => cases evaluates
  obtain ⟨event, unmarked, forwarded⟩ :=
    Crest.exists_tracked tracked performed
  exact leaves_forwardTracked unmarked forwarded

theorem evaluates_instrumentExpr (e : Exp) :
    ∀ c ∈ CrestAll.instrumentExpr e, c.evaluates = true := by
  fun_induction CrestAll.instrumentExpr e with
  | case4 op e₁ type _ inductionHypothesis =>
      intro c member
      rcases List.mem_append.mp member with operand | isApply
      · exact inductionHypothesis c operand
      · rw [List.mem_singleton.mp isApply]
        rfl
  | case5 op e₁ e₂ type _ firstHypothesis secondHypothesis =>
      intro c member
      rcases List.mem_append.mp member with operands | isApply
      · rcases List.mem_append.mp operands with first | second
        · exact firstHypothesis c first
        · exact secondHypothesis c second
      · rw [List.mem_singleton.mp isApply]
        rfl
  | case6 type e₁ _ inductionHypothesis =>
      exact inductionHypothesis
  | _ =>
      intro c member
      rw [List.mem_singleton.mp member]
      rfl

namespace MpiCall

variable {worldRank : Nat} {call : MpiCall worldRank} {crest next : Crest}
  {i : Instr}

theorem leaves_of_run
    {calls : List RuntimeCall}
    (evaluate : ∀ c ∈ calls, c.evaluates = true)
    (ran :
      PartialRun.run? call.perform crest (calls.map .runtime) = some next) :
    Leaves crest.si next.si := by
  induction calls generalizing crest with
  | nil =>
      obtain rfl := Option.some.inj ran
      exact Leaves.refl _
  | cons c rest inductionHypothesis =>
      obtain ⟨middle, performed, restRan⟩ :=
        PartialRun.run?_cons_eq_some.mp ran
      have first : Leaves crest.si middle.si :=
        leaves_of_evaluates (evaluate c List.mem_cons_self) performed
      exact first.trans
        (inductionHypothesis
          (fun other member => evaluate other (List.mem_cons_of_mem _ member))
          restRan)

/-- The call with its marking calls, without its arguments. -/
def core (call : MpiCall worldRank) : List Instrumented :=
  let i := Instr.call call.ret call.callee call.args
  match call.function with
  | .commRank => CrestAll.rankMarker call.args i
  | .commSize => CrestAll.worldSizeMarker call.args ++ [.program i]

/-- The arguments are evaluated before the call and dropped after it. -/
theorem instrumented_eq (call : MpiCall worldRank) :
    call.instrumented =
      ((call.args.filter isSymbolicExp).flatMap
          CrestAll.instrumentExpr).map .runtime ++
        (call.core ++ [RuntimeCall.clearStack].map .runtime) := by
  have names := call.names
  simp only [instrumented, CrestAll.vinst, call.visited, Bool.false_eq_true,
    ↓reduceIte]
  congr 1
  unfold CrestAll.changeCall core
  cases function : call.function with
  | commRank =>
      rw [function] at names
      simp [names, MpiFunction.vname]
  | commSize =>
      rw [function] at names
      simp [names, MpiFunction.vname]

/-- The configured rank is what is recorded for a rank. -/
theorem returned_newInputRank
    (si : SymbolicInterpreter)
    (type : CType)
    (addr : Addr) :
    si.returned (.newInputRank type addr) = castTo si.rank type := by
  unfold returned
  cases si.ex.inputs[si.numInputs]? <;> rfl

theorem enters_rank
    {addr : Exp}
    (isTarget : crest.si.targetRank = crest.si.rank)
    (ran :
      PartialRun.run? call.perform crest
        [.runtime (.rank addr), .program i] = some next) :
    Enters crest.si (some .rank) (call.recorded crest.si .rank) next.si := by
  obtain ⟨middle, performed, ran⟩ := PartialRun.run?_cons_eq_some.mp ran
  obtain rfl := Option.some.inj ran
  let event : Event := .newInputRank .uInt (call.circumstances.addr addr)
  have isMarked : crest.mark event = some middle := performed
  have enters := enters_mark isTarget rfl isMarked
  rw [returned_newInputRank] at enters
  exact enters

theorem enters_rankNonDefaultComm
    {comm addr other : Exp}
    (isTarget : crest.si.targetRank = crest.si.rank)
    (covered : crest.si.numInputs ≤ crest.si.ex.inputs.length)
    (ran :
      PartialRun.run? call.perform crest
        [.runtime (.rankNonDefaultComm1 addr), .program i,
          .runtime (.rankNonDefaultComm2 comm other)] = some next) :
    Enters crest.si (some .rankNonDefaultComm)
      (call.recorded crest.si .rankNonDefaultComm) next.si := by
  obtain ⟨middle, performed, ran⟩ := PartialRun.run?_cons_eq_some.mp ran
  obtain rfl := Option.some.inj ran
  let event : Event :=
    .newInputRankNonDefaultComm .uInt (call.circumstances.addr addr)
  have isMarked : crest.mark event = some middle := performed
  have enters := enters_mark isTarget rfl isMarked
  have hasFocus : 0 ≤ call.circumstances.focus := Int.natCast_nonneg _
  exact enters.rankNonDefaultComm2 isTarget hasFocus covered other

theorem enters_worldSize
    {addr : Exp}
    {limit : Int}
    (isTarget : crest.si.targetRank = crest.si.rank)
    (ran :
      PartialRun.run? call.perform crest
        [.runtime (.worldSizeWithLimit addr limit), .program i] =
          some next) :
    Enters crest.si (some .worldSize) (call.recorded crest.si .worldSize)
      next.si := by
  obtain ⟨middle, performed, ran⟩ := PartialRun.run?_cons_eq_some.mp ran
  obtain rfl := Option.some.inj ran
  let event : Event :=
    .newInputWorldSizeWithLimit .uInt (call.circumstances.addr addr) limit
  have isMarked : crest.mark event = some middle := performed
  have enters := enters_mark isTarget rfl isMarked
  have isRecorded :
      crest.si.returned event = call.recorded crest.si .worldSize := by
    unfold returned recorded
    cases crest.si.ex.inputs[crest.si.numInputs]? <;> rfl
  rw [isRecorded] at enters
  exact enters

/-- The marking calls enter the variable of the call. -/
theorem effect_core
    (isTarget : crest.si.targetRank = crest.si.rank)
    (covered : crest.si.numInputs ≤ crest.si.ex.inputs.length)
    (ran : PartialRun.run? call.perform crest call.core = some next) :
    (call.marked = none ∧ Leaves crest.si next.si) ∨
      ∃ list,
        call.marked = some list ∧
          Enters crest.si (some list) (call.recorded crest.si list) next.si := by
  unfold core at ran
  unfold marked
  cases function : call.function with
  | commRank =>
      simp only [function, CrestAll.rankMarker] at ran ⊢
      cases accepts : acceptsRank call.args with
      | false =>
          rw [rankMarker_eq_nil accepts] at ran
          obtain rfl := Option.some.inj ran
          exact Or.inl ⟨rfl, Leaves.refl _⟩
      | true =>
          obtain ⟨h, k, rest, address, isArgs, isAddress⟩ :=
            exists_marked_of_acceptsRank accepts
          simp only [rankMarker, isArgs, isAddress] at ran
          simp only [namesConstant, isArgs, List.head?_cons, Option.any_some]
          cases constant : isConstant h with
          | true =>
              simp only [constant, ↓reduceIte] at ran
              exact Or.inr ⟨.rank, rfl, enters_rank isTarget ran⟩
          | false =>
              simp only [constant, Bool.false_eq_true, ↓reduceIte] at ran
              exact Or.inr ⟨.rankNonDefaultComm, rfl,
                enters_rankNonDefaultComm isTarget covered ran⟩
  | commSize =>
      simp only [function, CrestAll.worldSizeMarker] at ran ⊢
      cases accepts : acceptsWorldSize call.args with
      | false =>
          rw [worldSizeMarker_eq_nil accepts] at ran
          obtain rfl := Option.some.inj ran
          exact Or.inl ⟨rfl, Leaves.refl _⟩
      | true =>
          obtain ⟨h, k, rest, address, isArgs, constant, isAddress⟩ :=
            exists_marked_of_acceptsWorldSize accepts
          simp only [worldSizeMarker, isArgs, isAddress, constant,
            ↓reduceIte] at ran
          exact Or.inr ⟨.worldSize, rfl, enters_worldSize isTarget ran⟩

/-- What a call of the MPI library does to the interpreter. -/
theorem effect
    (isTarget : crest.si.targetRank = crest.si.rank)
    (covered : crest.si.numInputs ≤ crest.si.ex.inputs.length)
    (ran :
      PartialRun.run? call.perform crest call.instrumented = some next) :
    (call.marked = none ∧ Leaves crest.si next.si) ∨
      ∃ list,
        call.marked = some list ∧
          Enters crest.si (some list) (call.recorded crest.si list) next.si := by
  rw [instrumented_eq] at ran
  obtain ⟨pushed, argumentsRan, ran⟩ := PartialRun.run?_append_eq_some.mp ran
  obtain ⟨called, coreRan, dropRan⟩ := PartialRun.run?_append_eq_some.mp ran
  have arguments : Leaves crest.si pushed.si := by
    refine leaves_of_run ?_ argumentsRan
    intro c member
    obtain ⟨e, _, inEvaluation⟩ := List.mem_flatMap.mp member
    exact evaluates_instrumentExpr e c inEvaluation
  have dropped : Leaves called.si next.si := by
    refine leaves_of_run ?_ dropRan
    intro c member
    rw [List.mem_singleton.mp member]
    rfl
  have pushedTarget : pushed.si.targetRank = pushed.si.rank := by
    rw [arguments.targetRank, arguments.rank, isTarget]
  have pushedCovered : pushed.si.numInputs ≤ pushed.si.ex.inputs.length := by
    rw [arguments.numInputs, arguments.inputs]
    exact covered
  rcases effect_core pushedTarget pushedCovered coreRan with
    ⟨unmarked, leaves⟩ | ⟨list, isMarked, enters⟩
  · exact Or.inl ⟨unmarked, (arguments.trans leaves).trans dropped⟩
  · have sameRecorded :
        call.recorded pushed.si list = call.recorded crest.si list := by
      unfold recorded
      cases list <;>
        simp only [arguments.rank, arguments.numInputs, arguments.inputs,
          arguments.worldSize]
    rw [sameRecorded] at enters
    exact Or.inr ⟨list, isMarked, (arguments.enters enters).leaves dropped⟩

end MpiCall

end Instrumented

section Runs

namespace FocusProcess

variable {worldRank worldSize : Nat} {process next : FocusProcess}
  {event : FocusEvent worldRank}

/--
The configuration is the true one, and every variable in a list is one that
MPI wrote to.
-/
structure Configured
    (worldRank worldSize : Nat)
    (process : FocusProcess) : Prop where
  rank : process.crest.si.rank = worldRank
  targetRank : process.crest.si.targetRank = worldRank
  worldSize : process.crest.si.worldSize = worldSize
  covered :
    process.crest.si.numInputs ≤ process.crest.si.ex.inputs.length
  written :
    ∀ entry ∈ process.written, IsIndex process.crest.si.numInputs entry.1
  listed :
    ∀ list : IndexList, ∀ id ∈ list.of process.crest.si.ex,
      ∃ value, (id, value) ∈ process.written

/-- A variable with an input, if one is added, that MPI may have written to. -/
inductive Advances
    (process : FocusProcess) :
    FocusEvent worldRank → FocusProcess → Prop where
  | leaves
      {event : FocusEvent worldRank}
      {next : FocusProcess}
      (leaves : Leaves process.crest.si next.crest.si)
      (written : next.written = process.written)
      (agrees : process.Agrees event) :
      Advances process event next
  | plain
      {event : FocusEvent worldRank}
      {next : FocusProcess}
      {value : Value}
      (enters : Enters process.crest.si none value next.crest.si)
      (written : next.written = process.written)
      (agrees : process.Agrees event) :
      Advances process event next
  | marked
      {call : MpiCall worldRank}
      {list : IndexList}
      {next : FocusProcess}
      (isMarked : call.marked = some list)
      (enters :
        Enters process.crest.si (some list)
          (call.recorded process.crest.si list) next.crest.si)
      (written :
        next.written =
          process.written ++
            [((process.crest.si.numInputs : Id), call.answer)]) :
      Advances process (.mpi call) next

theorem Configured.isTarget
    (configured : process.Configured worldRank worldSize) :
    process.crest.si.targetRank = process.crest.si.rank :=
  configured.targetRank.trans configured.rank.symm

/-- What an event does to the process. -/
theorem advances_of_step
    (configured : process.Configured worldRank worldSize)
    (stepped : process.step event = some next) :
    process.Advances event next := by
  have isTarget := configured.isTarget
  cases event with
  | mpi call =>
      obtain ⟨crest, ran, rfl⟩ := Option.map_eq_some_iff.mp stepped
      rcases MpiCall.effect isTarget configured.covered ran with
        ⟨unmarked, leaves⟩ | ⟨list, isMarked, enters⟩
      · refine .leaves leaves ?_ ?_
        · dsimp only
          rw [if_neg (by rw [leaves.numInputs]; exact lt_irrefl _)]
        · unfold Agrees MpiCall.Agrees
          simp only [unmarked]
      · refine .marked isMarked enters ?_
        dsimp only
        rw [if_pos (by rw [enters.numInputs]; exact Nat.lt_succ_self _)]
  | other event =>
      obtain ⟨crest, passed, rfl⟩ := Option.map_eq_some_iff.mp stepped
      unfold passOn at passed
      split at passed
      · next unmarked =>
          exact .leaves (leaves_forwardTracked unmarked passed) rfl trivial
      · next marking isMarking =>
          split at passed
          · next noList =>
              have enters := enters_mark isTarget isMarking passed
              rw [noList] at enters
              exact .plain enters rfl trivial
          · cases passed

theorem covered_of_enters
    {si next : SymbolicInterpreter}
    {entered : Option IndexList}
    {value : Value}
    (enters : Enters si entered value next)
    (covered : si.numInputs ≤ si.ex.inputs.length) :
    next.numInputs ≤ next.ex.inputs.length := by
  rw [enters.numInputs, enters.inputs, length_inputsAfter covered]
  exact le_max_right _ _

theorem Configured.step
    (configured : process.Configured worldRank worldSize)
    (stepped : process.step event = some next) :
    next.Configured worldRank worldSize := by
  have advances := advances_of_step configured stepped
  obtain ⟨isRank, isTarget, isSize, covered, written, listed⟩ := configured
  cases advances with
  | leaves leaves sameWritten =>
      refine
        { rank := leaves.rank.trans isRank
          targetRank := leaves.targetRank.trans isTarget
          worldSize := leaves.worldSize.trans isSize
          covered := ?_
          written := ?_
          listed := ?_ }
      · rw [leaves.numInputs, leaves.inputs]
        exact covered
      · rw [sameWritten, leaves.numInputs]
        exact written
      · intro list id member
        rw [leaves.lists] at member
        rw [sameWritten]
        exact listed list id member
  | plain enters sameWritten =>
      refine
        { rank := enters.rank.trans isRank
          targetRank := enters.targetRank.trans isTarget
          worldSize := enters.worldSize.trans isSize
          covered := covered_of_enters enters covered
          written := ?_
          listed := ?_ }
      · intro entry member
        rw [sameWritten] at member
        rw [enters.numInputs]
        exact (written entry member).mono (Nat.le_succ _)
      · intro list id member
        rw [enters.lists, if_neg (by simp)] at member
        rw [sameWritten]
        exact listed list id member
  | @marked call entered _ isMarked enters writtenNow =>
      refine
        { rank := enters.rank.trans isRank
          targetRank := enters.targetRank.trans isTarget
          worldSize := enters.worldSize.trans isSize
          covered := covered_of_enters enters covered
          written := ?_
          listed := ?_ }
      · intro entry member
        rw [writtenNow] at member
        rw [enters.numInputs]
        rcases List.mem_append.mp member with old | isNew
        · exact (written entry old).mono (Nat.le_succ _)
        · rw [List.mem_singleton.mp isNew]
          exact isIndex_new _
      · intro list id member
        rw [writtenNow]
        rcases enters.mem_lists member with old | ⟨_, rfl⟩
        · obtain ⟨value, isWritten⟩ := listed list id old
          exact ⟨value, List.mem_append_left _ isWritten⟩
        · exact ⟨call.answer, by simp⟩

/-- A rank or a size is in the range of an unsigned integer. -/
theorem castTo_uInt
    {value : Nat}
    (fits : value < 2 ^ 32) :
    castTo (value : Value) .uInt = value := by
  have reduced : ((value : Int) % 2 ^ 32) = value := by
    omega
  exact reduced

/-- Whether a marked call agrees is whether it records what MPI writes. -/
theorem agrees_iff_recorded
    {call : MpiCall worldRank}
    {list : IndexList}
    (configured : process.Configured worldRank worldSize)
    (rankFits : worldRank < 2 ^ 32)
    (sizeFits : worldSize < 2 ^ 32)
    (isMarked : call.marked = some list) :
    call.Agrees process.crest.si ↔
      call.recorded process.crest.si list = call.answer := by
  unfold MpiCall.Agrees MpiCall.recorded
  rw [isMarked]
  cases list with
  | rank =>
      rw [configured.rank, castTo_uInt rankFits]
      exact eq_comm
  | rankNonDefaultComm => simp
  | worldSize =>
      rw [configured.worldSize, castTo_uInt sizeFits]
      exact eq_comm

/-- A step keeps the inputs real exactly if its call agrees. -/
theorem real_step_iff
    (configured : process.Configured worldRank worldSize)
    (rankFits : worldRank < 2 ^ 32)
    (sizeFits : worldSize < 2 ^ 32)
    (stepped : process.step event = some next) :
    next.Real ↔ process.Real ∧ process.Agrees event := by
  have below :
      ∀ list : IndexList, ∀ id ∈ list.of process.crest.si.ex,
        IsIndex process.crest.si.numInputs id := by
    intro list id member
    obtain ⟨value, isWritten⟩ := configured.listed list id member
    exact configured.written _ isWritten
  cases advances_of_step configured stepped with
  | leaves leaves sameWritten agrees =>
      unfold Real
      simp only [leaves.lists, leaves.inputs, sameWritten, agrees, and_true]
  | plain enters sameWritten agrees =>
      unfold Real
      simp only [enters.lists, enters.inputs, sameWritten, agrees, and_true,
        reduceCtorEq, ↓reduceIte]
      refine forall_congr' fun list => forall₂_congr fun id member => ?_
      rw [getElem?_inputsAfter_old configured.covered
        (below list id member).toNat_lt.ne]
  | @marked call entered _ isMarked enters writtenNow =>
      have agreesIff : process.Agrees (.mpi call) ↔ _ :=
        agrees_iff_recorded configured rankFits sizeFits isMarked
      have isNew :=
        getElem?_inputsAfter_new configured.covered
          (call.recorded process.crest.si entered)
      rw [agreesIff]
      constructor
      · intro real
        constructor
        · intro list id member
          have isIndex := below list id member
          obtain ⟨value, isWritten, isInput⟩ :=
            real list id (enters.mem_lists_of_old member)
          rw [enters.inputs,
            getElem?_inputsAfter_old configured.covered isIndex.toNat_lt.ne]
            at isInput
          rw [writtenNow] at isWritten
          rcases List.mem_append.mp isWritten with old | added
          · exact ⟨value, old, isInput⟩
          · obtain ⟨rfl, _⟩ := Prod.mk.inj (List.mem_singleton.mp added)
            exact absurd isIndex.2 (lt_irrefl _)
        · have isEntered := enters.lists entered
          rw [if_pos rfl] at isEntered
          obtain ⟨value, isWritten, isInput⟩ :=
            real entered (process.crest.si.numInputs : Id)
              (by rw [isEntered]; simp)
          rw [enters.inputs, Int.toNat_natCast, isNew] at isInput
          rw [writtenNow] at isWritten
          rcases List.mem_append.mp isWritten with old | added
          · exact absurd (configured.written _ old).2 (lt_irrefl _)
          · obtain ⟨_, rfl⟩ := Prod.mk.inj (List.mem_singleton.mp added)
            exact Option.some.inj isInput
      · rintro ⟨real, isAnswer⟩ list id member
        rw [writtenNow, enters.inputs]
        rcases enters.mem_lists member with old | ⟨_, rfl⟩
        · obtain ⟨value, isWritten, isInput⟩ := real list id old
          refine ⟨value, List.mem_append_left _ isWritten, ?_⟩
          rw [getElem?_inputsAfter_old configured.covered
            (below list id old).toNat_lt.ne]
          exact isInput
        · refine ⟨call.answer, by simp, ?_⟩
          rw [Int.toNat_natCast, isNew, isAnswer]

theorem configured_start
    (input : List Value)
    (execTimes worldRank worldSize : Nat) :
    (start input execTimes worldRank worldSize).Configured worldRank
      worldSize where
  rank := rfl
  targetRank := rfl
  worldSize := rfl
  covered := Nat.zero_le _
  written := by
    intro entry member
    cases member
  listed := by
    intro list id member
    cases list <;> cases member

theorem real_start
    (input : List Value)
    (execTimes worldRank worldSize : Nat) :
    (start input execTimes worldRank worldSize).Real := by
  intro list id member
  cases list <;> cases member

/--
After a run of the process under test from any input file, the recorded inputs
of ranks and sizes are what MPI wrote exactly if in all calls the rank in a
constant communicator was the world rank, and the size of a constant
communicator was what the file had for it or else the world size.
-/
theorem real_run_iff
    (input : List Value)
    (execTimes worldRank worldSize : Nat)
    (isRank : worldRank < worldSize)
    (sizeFits : worldSize < 2 ^ 31)
    (events : List (FocusEvent worldRank))
    (final : FocusProcess)
    (ran :
      PartialRun.run? step (start input execTimes worldRank worldSize)
        events = some final) :
    final.Real ↔
      PartialRun.Along step Agrees (start input execTimes worldRank worldSize)
        events := by
  have sizeBelow : worldSize < 2 ^ 32 := by
    omega
  have rankBelow : worldRank < 2 ^ 32 := lt_trans isRank sizeBelow
  have exactly :=
    PartialRun.run?_iff_along
      (fun configured stepped => Configured.step configured stepped)
      (fun configured stepped =>
        real_step_iff configured rankBelow sizeBelow stepped)
      (configured_start input execTimes worldRank worldSize) ran
  rw [exactly]
  exact and_iff_right (real_start input execTimes worldRank worldSize)

/-- The variable `rank`. -/
def rankVariable : Varinfo where
  vname := "rank"
  vtype := .int .int
  vglob := false
  vattr := []

/-- `MPI_Comm_rank(comm, &rank)` for a communicator with a constant handle. -/
def rankCall
    (handle : Int)
    (comm : Communicator worldRank) : MpiCall worldRank where
  function := .commRank
  ret := none
  callee := .lval (.var mpiCommRank .noOffset)
  args :=
    [.castE (.named "MPI_Comm" (.int .int)) (.const (.int64 handle .int)),
      .addrOf (.var rankVariable .noOffset)]
  names := rfl
  visited := by decide
  comm := comm
  here :=
    { addr := fun _ => 8
      value := fun _ => 0
      pointee := fun _ => 0
      rank := worldRank
      targetRank := worldRank
      worldSize := 0
      focus := 0
      gathered := [] }

/-- The call in `MPI_COMM_WORLD` of process 1 of 4. -/
def rankInWorld : MpiCall 1 :=
  rankCall 0x44000000 { members := [0, 1, 2, 3], rank := 1, isMember := rfl }

/-- The call in `MPI_COMM_SELF` of process 1. -/
def rankInSelf : MpiCall 1 :=
  rankCall 0x44000001 { members := [1], rank := 0, isMember := rfl }

/-- Process 1 of 4 after a call. -/
def afterCall (call : MpiCall 1) : FocusProcess :=
  (PartialRun.run? step (start [] 0 1 4) [.mpi call]).getD (start [] 0 1 4)

theorem real_run_rankInWorld : (afterCall rankInWorld).Real := by
  have agrees :
      PartialRun.Along step Agrees (start [] 0 1 4) [.mpi rankInWorld] :=
    ⟨rfl, fun _ _ => trivial⟩
  exact (real_run_iff [] 0 1 4 (by decide) (by decide) [.mpi rankInWorld]
    (afterCall rankInWorld) rfl).mpr agrees

/-- In `MPI_COMM_SELF` every process has rank 0, but rank 1 is recorded. -/
theorem not_real_run_rankInSelf :
    PartialRun.run? step (start [] 0 1 4) [.mpi rankInSelf] =
        some (afterCall rankInSelf) ∧
      ¬(afterCall rankInSelf).Real := by
  refine ⟨rfl, ?_⟩
  intro real
  obtain ⟨value, isWritten, isInput⟩ := real .rank 0 List.mem_cons_self
  have isZero : (0, value) = ((0 : Id), (0 : Value)) :=
    List.mem_singleton.mp isWritten
  have isOne : some (1 : Value) = some value := isInput
  rw [(Prod.mk.inj isZero).2] at isOne
  cases isOne

end FocusProcess

end Runs

end Compi
