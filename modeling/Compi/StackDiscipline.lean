import Compi.PartialRun
import Compi.StackLayout

/-!
# Stack discipline of instrumented programs

Along every run of an instrumented program the symbolic stack agrees with the
layout of the code that is left, so no assertion of the interpreter fails.
The runs are those on which nobody leaves arguments or results behind:
variadic functions do not take theirs off the stack, and nothing clears the
stack after `MPI_Init`.
-/

namespace Compi.Cil

/-- Whether an inserted call starts the tracking of inputs. -/
def RuntimeCall.startsTracking : RuntimeCall → Bool
  | .rank _ => true
  | .rankNonDefaultComm1 _ => true
  | .worldSizeWithLimit _ _ => true
  | _ => false

namespace Program

variable (program : Program)

/-- The call that comes next does not expect arguments on the stack. -/
def startsClean : List Instrumented → Bool
  | .program (.call _ callee args) :: _ =>
      (program.named? callee).isNone || decide (pushedArguments args = 0)
  | _ => true

/-- A call from which no arguments are left on the stack. -/
def leavesNothing
    (choice : Choice)
    (callee : Exp)
    (args : List Exp) : Bool :=
  skipsCall callee || decide (pushedArguments args = 0) ||
    match program.callee? choice callee with
    | some g => !g.svar.vtype.isVarArgs
    | none => !namesInit callee

/-- Whether nothing is cleared after a call. -/
def keepsResult : Instr → Bool
  | .call _ callee _ => namesInit callee
  | _ => false

/--
A step that leaves nothing behind: while inputs are tracked, no integral
argument is passed to a variadic function or to an uninstrumented `MPI_Init`,
and no integral result is returned from an instrumented one.  Tracking does
not start between pushing the arguments of an instrumented function and its
call.
-/
def tidy (config : Config) (choice : Choice) : Bool :=
  match config.frame.code with
  | .instr _ _ (.runtime c :: is) :: _ =>
      !(c.startsTracking && config.crest.preSymbolic) ||
        program.startsClean is
  | .instr _ _ (.program (.call _ callee args) :: _) :: _ =>
      config.crest.preSymbolic || program.leavesNothing choice callee args
  | .ret _ _ (some e) :: _ =>
      config.crest.preSymbolic || !isSymbolicExp e ||
        !(config.callers.head?.any fun caller => keepsResult caller.call)
  | _ => true

/-- The shape of a tracked stack that a layout describes. -/
def Describes
    (is : List Instrumented)
    (shape : StackShape) : Layout → Prop
  | .depth n => shape.length = n ∧ shape.returnValue = false
  | .marked n =>
      shape.returnValue = false ∧
        (shape.length = n ∨ shape.length = 0 ∧ program.startsClean is = true)
  | .resuming => shape.returnValue = true → shape.length = 1
  | .returning n =>
      n ≤ 1 ∧ shape.length = n ∧ shape.returnValue = decide (n = 1)

/-- A shape agrees with a layout: it is empty until inputs are tracked. -/
structure Agrees
    (layout : Layout)
    (is : List Instrumented)
    (shape : StackShape) : Prop where
  untracked :
    shape.preSymbolic = true →
      shape.length = 0 ∧ shape.returnValue = false
  tracked :
    shape.preSymbolic = false → program.Describes is shape layout

section Calls

variable
  {program : Program}
  {layout next : Layout}
  {c : RuntimeCall}
  {is : List Instrumented}
  {shape : StackShape}

/-- A unary operator has an accepted code and an operand. -/
theorem transfer_apply1
    {op : Int}
    {value : Exp}
    (transfer : (RuntimeCall.apply1 op value).transfer layout = some next) :
    Crest.isUnaryCode op = true ∧
      ∃ n, layout = .depth (n + 1) ∧ next = .depth (n + 1) := by
  match layout, transfer with
  | .depth (n + 1), transfer =>
      obtain ⟨accepted, isNext⟩ := Option.ite_none_right_eq_some.mp transfer
      exact ⟨accepted, n, rfl, (Option.some.inj isNext).symm⟩

/-- A binary operator has an accepted code and two operands. -/
theorem transfer_apply2
    {op : Int}
    {value : Exp}
    (transfer : (RuntimeCall.apply2 op value).transfer layout = some next) :
    Crest.isBinaryCode op = true ∧
      ∃ n, layout = .depth (n + 2) ∧ next = .depth (n + 1) := by
  match layout, transfer with
  | .depth (n + 2), transfer =>
      obtain ⟨accepted, isNext⟩ := Option.ite_none_right_eq_some.mp transfer
      exact ⟨accepted, n, rfl, (Option.some.inj isNext).symm⟩

/-- Before inputs are tracked other calls do not change the shape. -/
theorem perform_untracked
    (pre : shape.preSymbolic = true)
    (empty : shape.length = 0)
    (unreturned : shape.returnValue = false)
    (other : c.startsTracking = false)
    (transfer : c.transfer layout = some next) :
    shape.perform c = some shape := by
  obtain ⟨length, returnValue, preSymbolic⟩ := shape
  dsimp only at pre empty unreturned
  subst pre empty unreturned
  cases c with
  | apply1 op value =>
      rw [StackShape.perform, if_pos (transfer_apply1 transfer).1]
      rfl
  | apply2 op value =>
      rw [StackShape.perform, if_pos (transfer_apply2 transfer).1]
      rfl
  | _ =>
      first
      | rfl
      | cases other

/-- A call that starts the tracking. -/
theorem perform_startsTracking
    (starts : c.startsTracking = true) :
    shape.perform c = some { shape with preSymbolic := false } := by
  cases c <;> first | rfl | cases starts

/-- A call that starts the tracking marks what has been pushed. -/
theorem transfer_startsTracking
    (starts : c.startsTracking = true)
    (transfer : c.transfer layout = some next) :
    ∃ n, layout = .depth n ∧ next = .marked n := by
  cases c with
  | rank addr | rankNonDefaultComm1 addr | worldSizeWithLimit addr limit =>
      cases layout with
      | depth n =>
          obtain rfl := Option.some.inj transfer
          exact ⟨n, rfl, rfl⟩
      | _ =>
          cases transfer
  | _ =>
      cases starts

/-- A call on a tracked stack of some depth follows the layout. -/
theorem perform_depth
    {n : Nat}
    (transfer : c.transfer (.depth n) = some next) :
    ∃ after,
      StackShape.perform
          { length := n, returnValue := false, preSymbolic := false } c =
        some after ∧
        after.preSymbolic = false ∧ program.Describes is after next := by
  cases c with
  | load addr value | clearStack | branch bid taken | call fid | getMPIInfo =>
      obtain rfl := Option.some.inj transfer
      exact ⟨_, rfl, rfl, rfl, rfl⟩
  | rank addr | rankNonDefaultComm1 addr | worldSizeWithLimit addr limit =>
      obtain rfl := Option.some.inj transfer
      exact ⟨_, rfl, rfl, rfl, Or.inl rfl⟩
  | store addr =>
      cases n with
      | zero =>
          cases transfer
      | succ n =>
          obtain rfl := Option.some.inj transfer
          exact ⟨_, rfl, rfl, rfl, rfl⟩
  | apply1 op value =>
      obtain ⟨accepted, n, isDepth, rfl⟩ := transfer_apply1 transfer
      obtain rfl := Layout.depth.inj isDepth
      refine
        ⟨{ length := n + 1, returnValue := false, preSymbolic := false },
          ?_, rfl, rfl, rfl⟩
      simp [StackShape.perform, StackShape.tracked, accepted]
  | apply2 op value =>
      obtain ⟨accepted, n, isDepth, rfl⟩ := transfer_apply2 transfer
      obtain rfl := Layout.depth.inj isDepth
      refine
        ⟨{ length := n + 1, returnValue := false, preSymbolic := false },
          ?_, rfl, rfl, rfl⟩
      simp [StackShape.perform, StackShape.tracked, accepted]
  | returns =>
      rcases n with _ | _ | n
      · obtain rfl := Option.some.inj transfer
        exact ⟨_, rfl, rfl, Nat.zero_le 1, rfl, rfl⟩
      · obtain rfl := Option.some.inj transfer
        exact ⟨_, rfl, rfl, Nat.le_refl 1, rfl, rfl⟩
      · cases transfer
  | branchOnly bid | handleReturn value | rankNonDefaultComm2 comm addr =>
      cases transfer

/-- A call on a tracked stack that a call has left follows the layout. -/
theorem perform_resuming
    {length : Nat}
    {returnValue : Bool}
    (single : returnValue = true → length = 1)
    (transfer : c.transfer .resuming = some next) :
    ∃ after,
      StackShape.perform
          { length := length
            returnValue := returnValue
            preSymbolic := false } c =
        some after ∧
        after.preSymbolic = false ∧ program.Describes is after next := by
  cases c with
  | clearStack =>
      obtain rfl := Option.some.inj transfer
      exact ⟨_, rfl, rfl, rfl, rfl⟩
  | handleReturn value =>
      obtain rfl := Option.some.inj transfer
      cases returnValue with
      | true =>
          obtain rfl := single rfl
          exact ⟨_, rfl, rfl, rfl, rfl⟩
      | false =>
          exact ⟨_, rfl, rfl, rfl, rfl⟩
  | rankNonDefaultComm2 comm addr =>
      obtain rfl := Option.some.inj transfer
      exact ⟨_, rfl, rfl, single⟩
  | _ =>
      cases transfer

/-- A call on a tracked stack follows the layout. -/
theorem perform_tracked
    {i : Instrumented}
    (tracked : shape.preSymbolic = false)
    (describes : program.Describes (i :: is) shape layout)
    (transfer : c.transfer layout = some next) :
    ∃ after,
      shape.perform c = some after ∧
        after.preSymbolic = false ∧ program.Describes is after next := by
  obtain ⟨length, returnValue, preSymbolic⟩ := shape
  dsimp only at tracked
  subst tracked
  cases layout with
  | depth n =>
      obtain ⟨rfl, rfl⟩ := describes
      exact perform_depth transfer
  | resuming =>
      exact perform_resuming describes transfer
  | marked n =>
      cases c with
      | clearStack =>
          obtain rfl := Option.some.inj transfer
          exact ⟨_, rfl, rfl, rfl, rfl⟩
      | _ =>
          cases transfer
  | returning n =>
      cases c <;> cases transfer

/-- An inserted call is performed and keeps the agreement. -/
theorem Agrees.perform
    (agrees : program.Agrees layout (.runtime c :: is) shape)
    (transfer : c.transfer layout = some next) :
    ∃ after,
      shape.perform c = some after ∧
        ((c.startsTracking = true →
            shape.preSymbolic = true → program.startsClean is = true) →
          program.Agrees next is after) := by
  cases pre : shape.preSymbolic with
  | false =>
      obtain ⟨after, performed, tracked, describes⟩ :=
        perform_tracked pre (agrees.tracked pre) transfer
      refine ⟨after, performed, fun _ => ⟨?_, fun _ => describes⟩⟩
      intro impossible
      rw [tracked] at impossible
      cases impossible
  | true =>
      obtain ⟨empty, unreturned⟩ := agrees.untracked pre
      cases starts : c.startsTracking with
      | false =>
          refine
            ⟨shape, perform_untracked pre empty unreturned starts transfer,
              fun _ => ⟨fun _ => ⟨empty, unreturned⟩, ?_⟩⟩
          intro impossible
          rw [pre] at impossible
          cases impossible
      | true =>
          obtain ⟨n, rfl, rfl⟩ := transfer_startsTracking starts transfer
          refine
            ⟨_, perform_startsTracking starts,
              fun clean => ⟨?_, fun _ => ?_⟩⟩
          · intro impossible
            cases impossible
          · exact ⟨unreturned, Or.inr ⟨empty, clean rfl rfl⟩⟩

end Calls

section Invariant

/-- A body that fits from some depth. -/
def BodyFits (body : Block Instrumented) : Prop :=
  ∃ n, body.Fits (.depth n) (.depth 0)

/-- The layout in which a function resumes after a call. -/
def resumesAt (call : Instr) : Layout :=
  if keepsResult call then .depth 0 else .resuming

/-- A suspended function whose code fits what the call will leave. -/
structure SuspendedFits (suspended : Suspended) : Prop where
  body : BodyFits suspended.frame.body
  code : CodeFits (resumesAt suspended.call) suspended.frame.code

/-- The instructions that come first. -/
def firstInstrs : List (Stmt Instrumented) → List Instrumented
  | .instr _ _ is :: _ => is
  | _ => []

/-- The stack agrees with a layout that fits the code that is left. -/
structure Disciplined
    (config : Config)
    (layout : Layout) : Prop where
  body : BodyFits config.frame.body
  code : CodeFits layout config.frame.code
  agrees :
    program.Agrees layout (firstInstrs config.frame.code) config.crest.shape
  callers : ∀ caller ∈ config.callers, SuspendedFits caller

/-- The functions of a program that are instrumented fit their arguments. -/
def FunctionsFit : Prop :=
  ∀ g ∈ program,
    shouldSkipFunction g.svar = false →
    g.sbody.Fits (.depth (entryDepth g)) (.depth 0)

variable
  {program : Program}
  {config next : Config}
  {layout : Layout}
  {is others : List Instrumented}
  {shape : StackShape}

/-- Between statements the agreement does not depend on what comes next. -/
theorem Agrees.settled
    (agrees : program.Agrees layout is shape)
    (settled : layout.Settled) :
    program.Agrees layout others shape := by
  refine ⟨agrees.untracked, fun tracked => ?_⟩
  have describes := agrees.tracked tracked
  cases layout with
  | depth n => exact describes
  | returning n => exact describes
  | marked n => exact absurd settled id
  | resuming => exact absurd settled id

/-- An empty stack agrees with an empty layout. -/
theorem agrees_depth_zero
    (empty : shape.length = 0)
    (unreturned : shape.returnValue = false) :
    program.Agrees (.depth 0) is shape :=
  ⟨fun _ => ⟨empty, unreturned⟩, fun _ => ⟨empty, unreturned⟩⟩

/-- An empty stack agrees with what is left after every call. -/
theorem agrees_of_empty
    {call : Instr}
    (empty : shape.length = 0)
    (unreturned : shape.returnValue = false) :
    program.Agrees (resumesAt call) is shape := by
  unfold resumesAt
  split
  · exact agrees_depth_zero empty unreturned
  · refine ⟨fun _ => ⟨empty, unreturned⟩, fun _ returned => ?_⟩
    rw [unreturned] at returned
    cases returned

/-- Going on in a function keeps the discipline if the code fits. -/
theorem Disciplined.goOn
    (disciplined : program.Disciplined config layout)
    {after : Layout}
    {code : List (Stmt Instrumented)}
    (codeFits : CodeFits after code)
    (agrees :
      program.Agrees after (firstInstrs code) config.crest.shape) :
    program.Disciplined (goOn config code) after where
  body := disciplined.body
  code := codeFits
  agrees := agrees
  callers := disciplined.callers

/-- Returning keeps the discipline if the stack fits the caller. -/
theorem Disciplined.leave
    (disciplined : program.Disciplined config layout)
    (fitsCaller :
      ∀ caller ∈ config.callers.head?, ∀ is,
        program.Agrees (resumesAt caller.call) is config.crest.shape)
    (left : Program.leave config = some next) :
    ∃ after, program.Disciplined next after := by
  unfold Program.leave at left
  split at left
  · cases left
  · next caller rest callers =>
      obtain rfl := Option.some.inj left
      have inCallers : caller ∈ config.callers := by
        rw [callers]
        exact List.mem_cons_self
      have suspended := disciplined.callers caller inCallers
      refine ⟨resumesAt caller.call, suspended.body, suspended.code, ?_, ?_⟩
      · apply fitsCaller
        rw [callers]
        rfl
      · intro other member
        apply disciplined.callers
        rw [callers]
        exact List.mem_cons_of_mem caller member

/-- Marking inputs changes at most whether inputs are tracked. -/
theorem shape_markInputs
    {crest marked : Crest}
    {inputs : List SymbolicInterpreter.Event}
    (marks : markInputs crest inputs = some marked) :
    marked.shape.length = crest.shape.length ∧
      marked.shape.returnValue = crest.shape.returnValue ∧
      (marked.shape.preSymbolic = true → crest.shape.preSymbolic = true) := by
  induction inputs generalizing crest with
  | nil =>
      obtain rfl := Option.some.inj marks
      exact ⟨rfl, rfl, id⟩
  | cons event rest inductionHypothesis =>
      unfold markInputs at marks
      split at marks
      · next isMarking =>
          obtain ⟨first, marksFirst, marksRest⟩ :=
            Option.bind_eq_some_iff.mp marks
          obtain ⟨si, stepped, rfl⟩ := Option.map_eq_some_iff.mp marksFirst
          obtain ⟨stack, returnValue⟩ :=
            Crest.stack_of_marking isMarking stepped
          obtain ⟨sameLength, sameReturn, tracked⟩ :=
            inductionHypothesis marksRest
          refine ⟨?_, ?_, ?_⟩
          · rw [sameLength]
            exact congrArg List.length stack
          · rw [sameReturn]
            exact returnValue
          · intro untracked
            cases tracked untracked
      · cases marks

/-- The first instruction transfers the layout to what is left. -/
theorem codeFits_instr
    {sid : Int}
    {labels : List String}
    {i : Instrumented}
    {code : List (Stmt Instrumented)}
    (fits : CodeFits layout (.instr sid labels (i :: is) :: code)) :
    ∃ after,
      i.transfer layout = some after ∧
        CodeFits after (.instr sid [] is :: code) := by
  obtain ⟨middle, ⟨_, settled, transfer⟩, codeFits⟩ := fits
  obtain ⟨after, first, later⟩ := Option.bind_eq_some_iff.mp transfer
  refine ⟨after, first, middle, ⟨?_, settled, later⟩, codeFits⟩
  intro impossible
  exact absurd rfl impossible

/-- How a call transfers a layout. -/
theorem transfer_call_cases
    {ret : Option Lval}
    {callee : Exp}
    {args : List Exp}
    {after : Layout}
    (transfer : (Instr.call ret callee args).transfer layout = some after) :
    (skipsCall callee = true ∧ layout = .depth 0 ∧ after = .depth 0) ∨
      (skipsCall callee = false ∧ after = layoutAfter callee ∧
        (layout = .depth (pushedArguments args) ∨
          layout = .marked (pushedArguments args) ∧
            (calledFunction? callee).isSome = true ∧
            namesInit callee = false)) := by
  cases skipped : skipsCall callee with
  | true =>
      simp only [Instr.transfer, skipped, if_true] at transfer
      split at transfer
      · next isEmpty =>
          exact Or.inl ⟨rfl, isEmpty, (Option.some.inj transfer).symm⟩
      · cases transfer
  | false =>
      simp only [Instr.transfer, skipped, Bool.false_eq_true, if_false]
        at transfer
      split at transfer
      · next n =>
          split at transfer
          · next isPushed =>
              subst isPushed
              exact Or.inr
                ⟨rfl, (Option.some.inj transfer).symm, Or.inl rfl⟩
          · cases transfer
      · next n =>
          split at transfer
          · next isMarked =>
              obtain ⟨rfl, isPlain, notInit⟩ := isMarked
              have resumes : layoutAfter callee = .resuming := by
                simp [layoutAfter, notInit]
              refine Or.inr ⟨rfl, ?_, Or.inr ⟨rfl, isPlain, notInit⟩⟩
              rw [resumes]
              exact (Option.some.inj transfer).symm
          · cases transfer
      · cases transfer

/-- Matching arguments are as many integral ones as a function takes. -/
theorem pushedArguments_of_matches
    {g : Fundec Instrumented}
    {args : List Exp}
    (fixed : g.svar.vtype.isVarArgs = false)
    (isMatch : matchesFormals g args = true) :
    pushedArguments args = entryDepth g := by
  have countTrue {Item : Type} (integral : Item → Bool) (items : List Item) :
      (items.filter integral).length = (items.map integral).count true := by
    induction items with
    | nil =>
        rfl
    | cons item rest inductionHypothesis =>
        cases kind : integral item <;> simp [kind, inductionHypothesis]
  have same :
      args.map isSymbolicExp =
        g.sformals.map fun v => isSymbolicType v.vtype := by
    simpa [matchesFormals, fixed] using isMatch
  rw [pushedArguments, entryDepth, fixed, countTrue, same, ← countTrue]
  rfl

/-- A function that is called is instrumented and not skipped. -/
theorem callee?_eq_some
    {choice : Choice}
    {callee : Exp}
    {g : Fundec Instrumented}
    (called : program.callee? choice callee = some g) :
    g ∈ program ∧ shouldSkipFunction g.svar = false ∧
      skipsCall callee = false ∧
      ((calledFunction? callee).isSome = true →
        program.named? callee = some g) := by
  unfold callee? at called
  cases plain : calledFunction? callee with
  | some f =>
      simp only [plain] at called
      have found := called
      simp only [named?, plain, Option.bind_some] at found
      have isFound := List.find?_some found
      simp only [Bool.and_eq_true, decide_eq_true_eq,
        Bool.not_eq_true'] at isFound
      refine ⟨List.mem_of_find?_eq_some found, isFound.2, ?_, fun _ => called⟩
      simp [skipsCall, plain, ← isFound.1, isFound.2]
  | none =>
      simp only [plain] at called
      obtain ⟨found, visited⟩ := Option.filter_eq_some_iff.mp called
      obtain ⟨index, _, inProgram⟩ := Option.bind_eq_some_iff.mp found
      refine ⟨List.mem_of_getElem? inProgram, by simpa using visited, ?_, ?_⟩
      · simp [skipsCall, plain]
      · intro impossible
        cases impossible

end Invariant

section Steps

variable
  {program : Program}
  {config next : Config}
  {choice : Choice}
  {layout after : Layout}
  {ret : Option Lval}
  {callee : Exp}
  {args : List Exp}
  {is : List Instrumented}
  {code : List (Stmt Instrumented)}

/-- An empty stack in a layout without values. -/
theorem Agrees.empty
    {shape : StackShape}
    (agrees : program.Agrees (.depth 0) is shape) :
    shape.length = 0 ∧ shape.returnValue = false := by
  cases pre : shape.preSymbolic with
  | true =>
      exact agrees.untracked pre
  | false =>
      exact agrees.tracked pre

/-- No value has been returned where a call is made. -/
theorem Agrees.unreturned
    {shape : StackShape}
    {i : Instr}
    (agrees : program.Agrees layout is shape)
    (transfer : i.transfer layout = some after) :
    shape.returnValue = false := by
  cases pre : shape.preSymbolic with
  | true =>
      exact (agrees.untracked pre).2
  | false =>
      have describes := agrees.tracked pre
      cases layout with
      | depth n => exact describes.2
      | marked n => exact describes.1
      | resuming => cases i <;> simp [Instr.transfer] at transfer
      | returning n => cases i <;> simp [Instr.transfer] at transfer

/-- An uninstrumented function keeps the agreement. -/
theorem agrees_external
    {marked : Crest}
    {inputs : List SymbolicInterpreter.Event}
    (agrees :
      program.Agrees layout
        (.program (.call ret callee args) :: is) config.crest.shape)
    (transfer : (Instr.call ret callee args).transfer layout = some after)
    (external : program.callee? choice callee = none)
    (isTidy :
      config.crest.preSymbolic = false →
        program.leavesNothing choice callee args = true)
    (marks : markInputs config.crest inputs = some marked) :
    program.Agrees after is marked.shape := by
  obtain ⟨sameLength, sameReturn, tracked⟩ := shape_markInputs marks
  have unreturned : marked.shape.returnValue = false := by
    rw [sameReturn]
    exact agrees.unreturned transfer
  have ofEmpty :
      config.crest.shape.length = 0 →
        program.Agrees (resumesAt (.call ret callee args)) is
          marked.shape := by
    intro empty
    exact agrees_of_empty (sameLength.trans empty) unreturned
  rcases transfer_call_cases transfer with
    ⟨_, rfl, rfl⟩ | ⟨visited, rfl, layouts⟩
  · exact agrees_depth_zero (sameLength.trans agrees.empty.1) unreturned
  · cases pre : config.crest.preSymbolic with
    | true =>
        exact ofEmpty (agrees.untracked pre).1
    | false =>
        cases isInit : namesInit callee with
        | true =>
            have nothing : pushedArguments args = 0 := by
              simpa [leavesNothing, visited, external, isInit]
                using isTidy pre
            rcases layouts with rfl | ⟨_, _, notInit⟩
            · have empty := (agrees.tracked pre).1
              rw [nothing] at empty
              exact ofEmpty empty
            · rw [isInit] at notInit
              cases notInit
        | false =>
            refine ⟨?_, fun _ => ?_⟩
            · intro untracked
              have impossible : config.crest.preSymbolic = true :=
                tracked untracked
              rw [pre] at impossible
              cases impossible
            · simp only [layoutAfter, isInit]
              intro returned
              rw [unreturned] at returned
              cases returned

/-- An instrumented function is entered with its arguments on the stack. -/
theorem agrees_enter
    {g : Fundec Instrumented}
    {others : List Instrumented}
    (agrees :
      program.Agrees layout
        (.program (.call ret callee args) :: is) config.crest.shape)
    (transfer : (Instr.call ret callee args).transfer layout = some after)
    (called : program.callee? choice callee = some g)
    (isMatch : matchesFormals g args = true)
    (isTidy :
      config.crest.preSymbolic = false →
        program.leavesNothing choice callee args = true) :
    program.Agrees (.depth (entryDepth g)) others config.crest.shape := by
  obtain ⟨_, _, visited, named⟩ := callee?_eq_some called
  refine ⟨agrees.untracked, fun tracked => ?_⟩
  have unreturned := agrees.unreturned transfer
  refine ⟨?_, unreturned⟩
  have pushed : config.crest.shape.length = pushedArguments args := by
    have describes := agrees.tracked tracked
    rcases transfer_call_cases transfer with
      ⟨skipped, _⟩ | ⟨_, _, rfl | ⟨rfl, isPlain, _⟩⟩
    · rw [visited] at skipped
      cases skipped
    · exact describes.1
    · rcases describes.2 with pushed | ⟨empty, clean⟩
      · exact pushed
      · have nothing : pushedArguments args = 0 := by
          simpa [startsClean, named isPlain] using clean
        rw [empty, nothing]
  cases variadic : g.svar.vtype.isVarArgs with
  | false =>
      rw [pushed, pushedArguments_of_matches variadic isMatch]
  | true =>
      have nothing : pushedArguments args = 0 := by
        simpa [leavesNothing, visited, called, variadic] using isTidy tracked
      rw [pushed, nothing, entryDepth, if_pos variadic]

/-- Executing an instruction of the program keeps the discipline. -/
theorem Disciplined.execute_program
    {i : Instr}
    {sid : Int}
    {labels : List String}
    (functionsFit : program.FunctionsFit)
    (disciplined : program.Disciplined config layout)
    (here :
      config.frame.code = .instr sid labels (.program i :: is) :: code)
    (isTidy : program.tidy config choice = true)
    (executed :
      program.execute config choice (.instr sid [] is :: code) (.program i) =
        some next) :
    ∃ after, program.Disciplined next after := by
  have codeFits := disciplined.code
  have agrees := disciplined.agrees
  rw [here] at codeFits agrees
  obtain ⟨after, transfer, afterFits⟩ := codeFits_instr codeFits
  have transferred : i.transfer layout = some after := transfer
  cases i with
  | set lv e | asm template =>
      obtain rfl := Option.some.inj executed
      cases layout with
      | depth n =>
          obtain rfl := Option.some.inj transferred
          exact ⟨_, disciplined.goOn afterFits (agrees.settled trivial)⟩
      | _ =>
          cases transferred
  | call ret callee args =>
      have tidyCall :
          config.crest.preSymbolic = false →
            program.leavesNothing choice callee args = true := by
        intro tracked
        simpa [tidy, here, tracked] using isTidy
      cases called : program.callee? choice callee with
      | none =>
          simp only [execute, called] at executed
          obtain ⟨marked, marks, rfl⟩ := Option.map_eq_some_iff.mp executed
          exact
            ⟨after, disciplined.body, afterFits,
              agrees_external agrees transferred called tidyCall marks,
              disciplined.callers⟩
      | some g =>
          simp only [execute, called] at executed
          split at executed
          · next isMatch =>
              obtain rfl := Option.some.inj executed
              obtain ⟨inProgram, visitedBody, visited, _⟩ :=
                callee?_eq_some called
              have bodyFits := functionsFit g inProgram visitedBody
              refine
                ⟨.depth (entryDepth g), ⟨_, bodyFits⟩,
                  CodeFits.ofBlock bodyFits,
                  agrees_enter agrees transferred called isMatch tidyCall, ?_⟩
              intro caller member
              rcases List.mem_cons.mp member with rfl | inCallers
              · refine ⟨disciplined.body, ?_⟩
                rcases transfer_call_cases transferred with
                  ⟨skipped, _⟩ | ⟨_, rfl, _⟩
                · rw [visited] at skipped
                  cases skipped
                · exact afterFits
              · exact disciplined.callers caller inCallers
          · cases executed

/-- Executing an inserted call keeps the discipline. -/
theorem Disciplined.execute_runtime
    {c : RuntimeCall}
    {sid : Int}
    {labels : List String}
    (disciplined : program.Disciplined config layout)
    (here :
      config.frame.code = .instr sid labels (.runtime c :: is) :: code)
    (isTidy : program.tidy config choice = true)
    (executed :
      program.execute config choice (.instr sid [] is :: code) (.runtime c) =
        some next) :
    ∃ after, program.Disciplined next after := by
  have codeFits := disciplined.code
  have agrees := disciplined.agrees
  rw [here] at codeFits agrees
  obtain ⟨after, transfer, afterFits⟩ := codeFits_instr codeFits
  obtain ⟨crest, performed, rfl⟩ := Option.map_eq_some_iff.mp executed
  obtain ⟨shape, shapePerformed, keeps⟩ := agrees.perform transfer
  have sameShape : crest.shape = shape := by
    have refined := Crest.shape_of_perform performed
    rw [shapePerformed] at refined
    exact (Option.some.inj refined).symm
  have clean :
      c.startsTracking = true →
        config.crest.preSymbolic = true →
        program.startsClean is = true := by
    intro starts pre
    simpa [tidy, here, starts, pre] using isTidy
  refine ⟨after, disciplined.body, afterFits, ?_, disciplined.callers⟩
  show program.Agrees after is crest.shape
  rw [sameShape]
  exact keeps clean

/-- A return keeps the discipline. -/
theorem Disciplined.step_ret
    {sid : Int}
    {labels : List String}
    {value : Option Exp}
    (disciplined : program.Disciplined config layout)
    (here : config.frame.code = .ret sid labels value :: code)
    (isTidy : program.tidy config choice = true)
    (left : Program.leave config = some next) :
    ∃ after, program.Disciplined next after := by
  have codeFits := disciplined.code
  have agrees := disciplined.agrees
  rw [here] at codeFits
  obtain ⟨_, ⟨_, rfl, _⟩, _⟩ := codeFits
  apply disciplined.leave ?_ left
  intro caller isCaller is
  cases pre : config.crest.preSymbolic with
  | true =>
      obtain ⟨empty, unreturned⟩ := agrees.untracked pre
      exact agrees_of_empty empty unreturned
  | false =>
      obtain ⟨_, length, returned⟩ := agrees.tracked pre
      cases symbolic : value.any isSymbolicExp with
      | false =>
          rw [symbolic] at length returned
          exact agrees_of_empty length returned
      | true =>
          rw [symbolic] at length
          obtain ⟨e, rfl⟩ : ∃ e, value = some e := by
            cases value with
            | none => cases symbolic
            | some e => exact ⟨e, rfl⟩
          have isFirst : config.callers.head? = some caller := isCaller
          have clears : keepsResult caller.call = false := by
            have isIntegral : isSymbolicExp e = true := symbolic
            simpa [tidy, here, pre, isIntegral, isFirst] using isTidy
          rw [resumesAt, clears]
          refine ⟨fun untracked => ?_, fun _ _ => length⟩
          have impossible : config.crest.preSymbolic = true := untracked
          rw [pre] at impossible
          cases impossible

/-- A jump from an empty stack keeps the discipline. -/
theorem Disciplined.jump
    {label : String}
    (disciplined : program.Disciplined config (.depth 0))
    (jumped :
      (config.frame.body.findLabel label []).map (Program.goOn config) =
        some next) :
    ∃ after, program.Disciplined next after := by
  obtain ⟨found, isFound, rfl⟩ := Option.map_eq_some_iff.mp jumped
  obtain ⟨n, bodyFits⟩ := disciplined.body
  have endFits : CodeFits (.depth 0) [] := rfl
  have foundFits :=
    codeFits_findLabelBlock config.frame.body bodyFits endFits isFound
  have agrees := disciplined.agrees
  exact ⟨_, disciplined.goOn foundFits (agrees.settled trivial)⟩

/-- Every tidy step keeps the discipline. -/
theorem Disciplined.step
    (functionsFit : program.FunctionsFit)
    (disciplined : program.Disciplined config layout)
    (isTidy : program.tidy config choice = true)
    (stepped : program.step config choice = some next) :
    ∃ after, program.Disciplined next after := by
  have codeFits := disciplined.code
  have agrees := disciplined.agrees
  unfold Program.step at stepped
  split at stepped
  · next here =>
      rw [here] at codeFits
      obtain rfl : layout = .depth 0 := codeFits
      apply disciplined.leave ?_ stepped
      intro caller _ is
      exact agrees_of_empty agrees.empty.1 agrees.empty.2
  · next sid labels code here =>
      rw [here] at codeFits
      obtain ⟨middle, ⟨_, settled, transfer⟩, codeFits⟩ := codeFits
      obtain rfl := Option.some.inj transfer
      obtain rfl := Option.some.inj stepped
      exact ⟨layout, disciplined.goOn codeFits (agrees.settled settled)⟩
  · next sid labels i is code here =>
      cases i with
      | program i =>
          exact disciplined.execute_program functionsFit here isTidy stepped
      | runtime c =>
          exact disciplined.execute_runtime here isTidy stepped
  · next sid labels value code here =>
      exact disciplined.step_ret here isTidy stepped
  · next sid labels target code here =>
      rw [here] at codeFits
      obtain ⟨_, ⟨rfl, _⟩, _⟩ := codeFits
      exact disciplined.jump stepped
  · next sid labels target code here =>
      rw [here] at codeFits
      obtain ⟨_, ⟨rfl, _⟩, _⟩ := codeFits
      exact disciplined.jump stepped
  · next sid labels condition thenBlock elseBlock code here =>
      rw [here] at codeFits
      obtain ⟨_, ⟨_, settled, rfl, thenFits, elseFits⟩, codeFits⟩ := codeFits
      obtain rfl := Option.some.inj stepped
      split
      · exact
          ⟨layout,
            disciplined.goOn (CodeFits.append thenBlock thenFits codeFits)
              (agrees.settled settled)⟩
      · exact
          ⟨layout,
            disciplined.goOn (CodeFits.append elseBlock elseFits codeFits)
              (agrees.settled settled)⟩
  · next sid labels body code here =>
      rw [here] at codeFits
      obtain ⟨_, ⟨rfl, rfl, bodyFits⟩, codeFits⟩ := codeFits
      obtain rfl := Option.some.inj stepped
      have again : CodeFits (.depth 0) (.loop sid labels body :: code) :=
        ⟨.depth 0, ⟨rfl, rfl, bodyFits⟩, codeFits⟩
      exact
        ⟨.depth 0,
          disciplined.goOn (CodeFits.append body bodyFits again)
            (agrees.settled trivial)⟩
  · next sid labels body code here =>
      rw [here] at codeFits
      obtain ⟨middle, ⟨_, settled, bodyFits⟩, codeFits⟩ := codeFits
      obtain rfl := Option.some.inj stepped
      exact
        ⟨layout,
          disciplined.goOn (CodeFits.append body bodyFits codeFits)
            (agrees.settled settled)⟩

/-- No assertion fails at a step from a disciplined state. -/
theorem Disciplined.holds
    (disciplined : program.Disciplined config layout) :
    Program.assertsHold config choice = true := by
  have codeFits := disciplined.code
  have agrees := disciplined.agrees
  unfold Program.assertsHold
  split
  · next sid labels c is code here =>
      rw [here] at codeFits agrees
      obtain ⟨after, transfer, _⟩ := codeFits_instr codeFits
      obtain ⟨shape, performed, _⟩ := agrees.perform transfer
      rw [Crest.perform_isSome, performed]
      rfl
  · rfl

end Steps

section Runs

/--
The program that instrumented files make; each file comes with the number of
functions that were instrumented before it.
-/
def ofFiles (files : List (Nat × List (Fundec Instr))) : Program :=
  files.flatMap fun file => (CrestAll.visitFile (.start file.1) file.2).2

/-- Every function of a visited file is visited. -/
theorem mem_visitFile
    {seen : CrestAll.Seen}
    {functions : List (Fundec Instr)}
    {g : Fundec Instrumented}
    (member : g ∈ (CrestAll.visitFile seen functions).2) :
    ∃ before f, g = (CrestAll.vfunc before f).2 := by
  induction functions generalizing seen with
  | nil =>
      cases member
  | cons f rest inductionHypothesis =>
      rcases List.mem_cons.mp member with rfl | inRest
      · exact ⟨seen, f, rfl⟩
      · exact inductionHypothesis inRest

/-- A visited function keeps its name and type. -/
theorem svar_vfunc
    (seen : CrestAll.Seen)
    (f : Fundec Instr) :
    (CrestAll.vfunc seen f).2.svar = f.svar := by
  unfold CrestAll.vfunc
  split <;> rfl

/-- The functions of instrumented files fit their arguments. -/
theorem functionsFit_ofFiles (files : List (Nat × List (Fundec Instr))) :
    (ofFiles files).FunctionsFit := by
  intro g member visited
  obtain ⟨file, _, inFile⟩ := List.mem_flatMap.mp member
  obtain ⟨seen, f, rfl⟩ := mem_visitFile inFile
  rw [svar_vfunc] at visited
  exact fits_vfunc visited seen

/-- A program starts with a discipline that its arguments do not matter for. -/
theorem disciplined_start
    {program : Program}
    {main : Fundec Instrumented}
    {si : SymbolicInterpreter}
    (functionsFit : program.FunctionsFit)
    (isMain : main ∈ program)
    (visited : shouldSkipFunction main.svar = false)
    (empty : si.stack = [])
    (unreturned : si.returnValue = false) :
    program.Disciplined (start main si) (.depth (entryDepth main)) := by
  have bodyFits := functionsFit main isMain visited
  refine ⟨⟨_, bodyFits⟩, CodeFits.ofBlock bodyFits, ⟨?_, ?_⟩, ?_⟩
  · intro _
    exact ⟨congrArg List.length empty, unreturned⟩
  · intro impossible
    cases impossible
  · intro caller member
    cases member

end Runs

section Examples

/-- The type `int name(...)` of a function. -/
def intFunction
    (name : String)
    (isVarArgs : Bool)
    (attributes : List String) : Varinfo where
  vname := name
  vtype := .fn (.int .int) isVarArgs
  vglob := true
  vattr := attributes

/-- `int name`, as a formal or a local. -/
def intLocal (name : String) : Varinfo where
  vname := name
  vtype := .int .int
  vglob := false
  vattr := []

/-- `int first(int n) { return n; }`, or the same with `int n, ...`. -/
def first (isVarArgs : Bool) : Fundec Instr where
  svar := intFunction "first" isVarArgs []
  sformals := [intLocal "n"]
  sbody :=
    .cons (.ret 1 [] (some (.lval (.var (intLocal "n") .noOffset)))) .nil

/-- Mark the local `x` as an input, and pass it and more to `first`. -/
def callsFirst (isVarArgs : Bool) (more : List Exp) : Fundec Instr where
  svar := intFunction "main" false []
  sformals := []
  sbody :=
    .cons
      (.instr 2 []
        [.call none
            (.lval
              (.var (intFunction "__CrestInt" false ["crest_skip"]) .noOffset))
            [.addrOf (.var (intLocal "x") .noOffset)],
          .call none (.lval (.var (first isVarArgs).svar .noOffset))
            (.lval (.var (intLocal "x") .noOffset) :: more)])
      (.cons (.ret 3 [] none) .nil)

/-- Two files, one for each function. -/
def firstFiles
    (isVarArgs : Bool)
    (more : List Exp) : List (Nat × List (Fundec Instr)) :=
  [(0, [first isVarArgs]), (1, [callsFirst isVarArgs more])]

/-- The instrumented `main` of the second file. -/
def firstMain (isVarArgs : Bool) (more : List Exp) : Fundec Instrumented :=
  (CrestAll.vfunc (.start 1) (callsFirst isVarArgs more)).2

/-- The input is drawn below a limit; memory holds zeros. -/
def marksInput : Choice where
  here :=
    { addr := fun _ => 0
      value := fun _ => 0
      pointee := fun _ => 0
      rank := 0
      targetRank := 0
      worldSize := 1
      focus := 0
      gathered := [] }
  taken := true
  pointedTo := none
  inputs := [.newInput .int 100 10 0 0]
  label := ""

end Examples

end Program

end Compi.Cil
