import Compi.InstrumentationErasure
import Compi.SymbolicMemory

/-!
# Tracked writes

Where an instruction assigns an integral lvalue that has an address, the heavy
instrumenter stores the description of the new value at that address.  The
result of a call of `MPI_Init`, `MPI_Comm_rank` or `MPI_Comm_size` is not
stored: the memory goes on describing what the lvalue held before.
-/

namespace Compi.Cil

section Writes

/-- The lvalue that an instruction assigns. -/
def Instr.result? : Instr → Option Lval
  | .set lv _ => some lv
  | .call ret _ _ => ret
  | .asm _ => none

/-- Whether an instruction calls a function marked as uninstrumented. -/
def Instr.skipped : Instr → Bool
  | .call _ callee _ => skipsCall callee
  | _ => false

/-- An instruction that assigns an integral lvalue, not of a bit field. -/
structure TrackedWrite where
  instr : Instr
  lv : Lval
  assigns : instr.result? = some lv
  integral : isSymbolicLval lv = true
  addressed : hasAddress lv = true
  visited : instr.skipped = false

/--
What an instruction is given: how expressions evaluate before and after it,
and the address to which a call writes its result.
-/
structure Placement where
  before : Circumstances
  after : Circumstances
  target : Addr

/-- The address that is written; that of an assignment is known before it. -/
def TrackedWrite.written
    (write : TrackedWrite)
    (placement : Placement) : Addr :=
  match write.instr with
  | .call _ _ _ => placement.target
  | _ => placement.before.addr (toAddr (addressOf write.lv))

/--
What a function leaves behind, with the description of its result.  One that
is not instrumented marks inputs at most and has a concrete result.  One that
is instrumented does anything, and returns the top of the stack.
-/
inductive Returned (met : Crest) : Option SymbolicExpr → Crest → Prop where
  | uninstrumented
      {inputs : List SymbolicInterpreter.Event}
      {left : Crest}
      (marks : markInputs met inputs = some left) :
      Returned met none left
  | instrumented
      {here : Circumstances}
      {leaving left : Crest}
      (becomes : met.Becomes leaving)
      (performed : leaving.perform here .returns = some left) :
      Returned met leaving.newest left

/--
What an instruction does, with the description of the value it writes.  The
value of an assignment is described as it is evaluated at the start; a value
of another type is not tracked.
-/
inductive Does
    (before : Circumstances)
    (start met : Crest) :
    Instr → Option SymbolicExpr → Crest → Prop where
  | set
      {lv : Lval}
      {e : Exp}
      {evaluated : Crest}
      (evaluates :
        start.performAll before (CrestAll.instrumentExpr e) =
          some evaluated) :
      Does before start met (.set lv e)
        (if isSymbolicExp e then evaluated.newest else none) met
  | call
      {ret : Option Lval}
      {callee : Exp}
      {args : List Exp}
      {value : Option SymbolicExpr}
      {left : Crest}
      (returned : Returned met value left) :
      Does before start met (.call ret callee args) value left

/-- An instruction is executed between the calls inserted for it. -/
inductive Executes
    (placement : Placement)
    (i : Instr)
    (start : Crest)
    (value : Option SymbolicExpr)
    (final : Crest) : Prop where
  | between
      {earlier later : List RuntimeCall}
      {met left : Crest}
      (emitted :
        CrestAll.vinst i =
          earlier.map .runtime ++ .program i :: later.map .runtime)
      (queued : start.performAll placement.before earlier = some met)
      (done : Does placement.before start met i value left)
      (followed : left.performAll placement.after later = some final)

/--
The runtime library at the start of an instruction, in some run of some
instrumented program, with no return value left over.
-/
inductive Ready (i : Instr) : Crest → Prop where
  | reached
      {files : List (Nat × List (Fundec Instr))}
      {main : Fundec Instrumented}
      {input : List Value}
      {execTimes : Nat}
      {rank targetRank worldSize : Int}
      {choices : List Choice}
      {config : Config}
      {sid : Int}
      {labels : List String}
      {rest : List Instrumented}
      {code : List (Stmt Instrumented)}
      (isMain : main ∈ Program.ofFiles files)
      (visited : shouldSkipFunction main.svar = false)
      (ran :
        PartialRun.run? (Program.ofFiles files).step
            (Program.start main
              (.fresh input execTimes rank targetRank worldSize))
            choices =
          some config)
      (here :
        config.frame.code =
          .instr sid labels (CrestAll.vinst i ++ rest) :: code)
      (unreturned : config.crest.si.returnValue = false) :
      Ready i config.crest

/--
The write refreshes the symbolic memory: it can be executed, and after it the
memory describes the value that was written, and no other.
-/
def TrackedWrite.Refreshes
    (write : TrackedWrite)
    (placement : Placement) : Prop :=
  ∀ crest,
    Ready write.instr crest →
    (∃ value final, Executes placement write.instr crest value final) ∧
      ∀ value final,
        Executes placement write.instr crest value final →
        final.si.mem[write.written placement]? = value

/-- Whether the calls inserted for an instruction store its result. -/
def Instr.storesResult : Instr → Bool
  | .set _ e => isSymbolicExp e
  | .call _ callee _ =>
      !(calledFunction? callee).any fun f =>
        ["MPI_Init", "MPI_Comm_rank", "MPI_Comm_size"].contains f.vname
  | .asm _ => false

/-- After a call its lvalue still has the address that was written. -/
def TrackedWrite.Settles
    (write : TrackedWrite)
    (placement : Placement) : Prop :=
  ∀ ret callee args,
    write.instr = .call ret callee args →
    placement.after.addr (toAddr (addressOf write.lv)) = placement.target

variable
  {write : TrackedWrite}
  {lv : Lval}
  {e callee : Exp}
  {ret : Option Lval}
  {args : List Exp}

/-- There is only one lvalue that an instruction assigns. -/
theorem TrackedWrite.eq_lv
    (assigns : write.instr.result? = some lv) :
    lv = write.lv :=
  Option.some.inj (assigns.symm.trans write.assigns)

theorem TrackedWrite.visited_callee
    (isCall : write.instr = .call ret callee args) :
    skipsCall callee = false := by
  have visited := write.visited
  rw [isCall] at visited
  exact visited

end Writes

section Emissions

variable {lv : Lval} {e callee : Exp} {args : List Exp}

/-- The calls before and after an instruction are given by what is emitted. -/
theorem emitted_inj
    {i : Instr}
    {earlier later others rest : List RuntimeCall}
    (same :
      earlier.map Instrumented.runtime ++
          .program i :: later.map Instrumented.runtime =
        others.map .runtime ++ .program i :: rest.map .runtime) :
    earlier = others ∧ later = rest := by
  have injective : Function.Injective Instrumented.runtime := by
    intro c other isSame
    exact Instrumented.runtime.inj isSame
  induction earlier generalizing others with
  | nil =>
      cases others with
      | nil =>
          simp only [List.map_nil, List.nil_append, List.cons.injEq,
            true_and] at same
          exact ⟨rfl, injective.list_map same⟩
      | cons c others =>
          simp at same
  | cons c earlier inductionHypothesis =>
      cases others with
      | nil =>
          simp at same
      | cons other others =>
          simp only [List.map_cons, List.cons_append, List.cons.injEq,
            Instrumented.runtime.injEq] at same
          obtain ⟨rfl, sameRest⟩ := same
          obtain ⟨rfl, rfl⟩ := inductionHypothesis sameRest
          exact ⟨rfl, rfl⟩

/-- What is emitted for an assignment of an integral value. -/
theorem emitted_set
    (symbolic : isSymbolicExp e = true)
    (addressed : hasAddress lv = true) :
    CrestAll.vinst (.set lv e) =
      (CrestAll.instrumentExpr e ++
          [CrestAll.mkStore (addressOf lv)]).map .runtime ++
        .program (.set lv e) :: List.map .runtime [] := by
  simp [CrestAll.vinst, symbolic, addressed]

/-- An assignment of another value is left as it is. -/
theorem emitted_untrackedSet
    (symbolic : isSymbolicExp e = false) :
    CrestAll.vinst (.set lv e) =
      List.map .runtime [] ++
        .program (.set lv e) :: List.map .runtime [] := by
  simp [CrestAll.vinst, symbolic]

/-- The evaluation of the arguments that are pushed for a call. -/
def argumentCalls (args : List Exp) : List RuntimeCall :=
  (args.filter isSymbolicExp).flatMap CrestAll.instrumentExpr

/-- What is emitted for a call with a result that is stored. -/
theorem emitted_call
    (visited : skipsCall callee = false)
    (integral : isSymbolicLval lv = true)
    (addressed : hasAddress lv = true)
    (stores : (Instr.call (some lv) callee args).storesResult = true) :
    CrestAll.vinst (.call (some lv) callee args) =
      (argumentCalls args).map .runtime ++
        .program (.call (some lv) callee args) ::
          List.map .runtime
            [CrestAll.mkHandleReturn (.lval lv),
              CrestAll.mkStore (addressOf lv)] := by
  have unnamed :
      ∀ name ∈ ["MPI_Init", "MPI_Comm_rank", "MPI_Comm_size"],
        (calledFunction? callee).map Varinfo.vname ≠ some name := by
    intro name member isName
    obtain ⟨f, isCalled, rfl⟩ := Option.map_eq_some_iff.mp isName
    simp only [Instr.storesResult, isCalled, Option.any_some,
      Bool.not_eq_true', List.contains_eq_mem, decide_eq_false_iff_not]
      at stores
    exact stores member
  simp [CrestAll.vinst, visited, argumentCalls, CrestAll.changeCall,
    unnamed, CrestAll.afterCall, integral, addressed]

/-- A list that holds an instruction among calls that store nothing. -/
def Attended (i : Instr) (out : List Instrumented) : Prop :=
  ∃ earlier later : List RuntimeCall,
    (∀ c ∈ earlier, Crest.Attends c) ∧
      (∀ c ∈ later, Crest.Attends c) ∧
      out = earlier.map .runtime ++ .program i :: later.map .runtime

/-- Clearing the stack stores nothing. -/
theorem Attended.clear
    {i : Instr}
    {out : List Instrumented}
    (attended : Attended i out) :
    Attended i (out ++ [.runtime .clearStack]) := by
  obtain ⟨earlier, later, before, after, rfl⟩ := attended
  refine ⟨earlier, later ++ [.clearStack], before, ?_, ?_⟩
  · intro c member
    rcases List.mem_append.mp member with inLater | isClear
    · exact after c inLater
    · rw [List.mem_singleton.mp isClear]
      exact Crest.attends_clearStack
  · simp

/-- Marking a rank stores nothing. -/
theorem attended_rankMarker
    {i : Instr}
    (accepts : acceptsRank args = true) :
    Attended i (rankMarker args i) := by
  obtain ⟨h, k, rest, marked, rfl, isMarked⟩ :=
    exists_marked_of_acceptsRank accepts
  simp only [rankMarker, isMarked]
  split
  · refine ⟨[.rank (toAddr marked)], [], ?_, ?_, rfl⟩
    · simpa using Crest.attends_rank _
    · simp
  · refine
      ⟨[.rankNonDefaultComm1 (toAddr k)],
        [.rankNonDefaultComm2 (toValue h) (toAddr marked)], ?_, ?_, rfl⟩
    · simpa using Crest.attends_rankNonDefaultComm1 _
    · simpa using Crest.attends_rankNonDefaultComm2 _ _

/-- Marking a world size stores nothing. -/
theorem attended_worldSizeMarker (args : List Exp) (i : Instr) :
    Attended i (worldSizeMarker args ++ [.program i]) := by
  have unmarked : Attended i [.program i] :=
    ⟨[], [], by simp, by simp, rfl⟩
  unfold worldSizeMarker
  split
  · split
    · exact unmarked
    · next marked _ =>
        split
        · refine
            ⟨[.worldSizeWithLimit (toAddr marked) worldSizeLimit], [],
              ?_, ?_, rfl⟩
          · simpa using Crest.attends_worldSizeWithLimit _ _
          · simp
        · exact unmarked
  · exact unmarked

/-- A call whose result is not stored names a function of the library. -/
theorem named_of_unstored
    {ret : Option Lval}
    (unstored : (Instr.call ret callee args).storesResult = false) :
    ∃ name ∈ ["MPI_Init", "MPI_Comm_rank", "MPI_Comm_size"],
      (calledFunction? callee).map Varinfo.vname = some name := by
  cases isCalled : calledFunction? callee with
  | none =>
      simp [Instr.storesResult, isCalled] at unstored
  | some f =>
      simp only [Instr.storesResult, isCalled, Option.any_some,
        Bool.not_eq_false', List.contains_eq_mem, decide_eq_true_eq]
        at unstored
      exact ⟨f.vname, unstored, rfl⟩

/-- What replaces a call whose result is not stored stores nothing. -/
theorem attended_changeCall
    {ret : Option Lval}
    (kept : losesCall (.call ret callee args) = false)
    (visited : skipsCall callee = false)
    (unstored : (Instr.call ret callee args).storesResult = false) :
    Attended (.call ret callee args)
      (CrestAll.changeCall ret callee args) := by
  obtain ⟨name, member, isName⟩ := named_of_unstored unstored
  simp only [List.mem_cons, List.not_mem_nil, or_false] at member
  rcases member with rfl | rfl | rfl
  · have replaced :
        CrestAll.changeCall ret callee args =
          [.program (.call ret callee args), .runtime .getMPIInfo] := by
      simp [CrestAll.changeCall, isName]
    rw [replaced]
    refine ⟨[], [.getMPIInfo], ?_, ?_, rfl⟩
    · simp
    · simpa using Crest.attends_getMPIInfo
  · have accepts : acceptsRank args = true := by
      simpa [losesCall, visited, isName] using kept
    have replaced :
        CrestAll.changeCall ret callee args =
          rankMarker args (.call ret callee args) ++
            [.runtime .clearStack] := by
      simp [CrestAll.changeCall, isName, CrestAll.rankMarker]
    rw [replaced]
    exact (attended_rankMarker accepts).clear
  · have replaced :
        CrestAll.changeCall ret callee args =
          worldSizeMarker args ++ [.program (.call ret callee args)] ++
            [.runtime .clearStack] := by
      simp [CrestAll.changeCall, isName, CrestAll.worldSizeMarker]
    rw [replaced]
    exact (attended_worldSizeMarker args _).clear

/-- What is emitted for such a call: its arguments, and nothing is stored. -/
theorem emitted_unstored
    {ret : Option Lval}
    (kept : losesCall (.call ret callee args) = false)
    (visited : skipsCall callee = false)
    (unstored : (Instr.call ret callee args).storesResult = false) :
    ∃ earlier later : List RuntimeCall,
      (∀ c ∈ earlier, Crest.Attends c) ∧
        (∀ c ∈ later, Crest.Attends c) ∧
        CrestAll.vinst (.call ret callee args) =
          (argumentCalls args ++ earlier).map .runtime ++
            .program (.call ret callee args) :: later.map .runtime := by
  obtain ⟨earlier, later, before, after, replaced⟩ :=
    attended_changeCall kept visited unstored
  refine ⟨earlier, later, before, after, ?_⟩
  simp [CrestAll.vinst, visited, argumentCalls, replaced]

end Emissions

section Stores

variable
  {crest met left : Crest}
  {value : Option SymbolicExpr}
  {placement : Placement}

theorem Ready.dormant
    {i : Instr}
    (ready : Ready i crest) :
    crest.Dormant := by
  obtain ⟨_, _, ran, _, _⟩ := ready
  apply Crest.Dormant.becomes ?_ (Program.becomes_run ran)
  intro _
  rfl

theorem Ready.unreturned
    {i : Instr}
    (ready : Ready i crest) :
    crest.si.returnValue = false := by
  obtain ⟨_, _, _, _, unreturned⟩ := ready
  exact unreturned

/-- A result that no function has returned is stored as a concrete value. -/
theorem exists_storeResult_of_unreturned
    (after : Circumstances)
    (result addr : Exp)
    (dormant : left.Dormant)
    (unreturned : left.si.returnValue = false) :
    ∃ final,
      left.performAll after
          [CrestAll.mkHandleReturn result, CrestAll.mkStore addr] =
        some final ∧
        ∀ other,
          final.si.mem[other]? =
            if other = after.addr (toAddr addr) then
              none
            else
              left.si.mem[other]? := by
  cases pre : left.preSymbolic with
  | true =>
      refine
        ⟨left, Crest.performAll_storeResult_untracked pre, fun other => ?_⟩
      rw [dormant.getElem?_mem pre, ite_self]
  | false =>
      obtain ⟨handled, isHandled, tracked, mem, isStack⟩ :=
        Crest.exists_handleReturn_of_unreturned pre unreturned
      obtain ⟨final, isStored, described⟩ :=
        Crest.exists_store tracked isStack
      refine ⟨final, ?_, fun other => ?_⟩
      · rw [Crest.performAll_cons_eq_some]
        refine ⟨handled, isHandled, ?_⟩
        rw [Crest.performAll_singleton]
        exact isStored
      · rw [described, mem]
        rfl

/-- A result that a function has returned is stored with its description. -/
theorem exists_storeResult_of_returned
    {se : StackElem}
    (after : Circumstances)
    (result addr : Exp)
    (tracked : left.preSymbolic = false)
    (returned : left.si.returnValue = true)
    (isStack : left.si.stack = [se]) :
    ∃ final,
      left.performAll after
          [CrestAll.mkHandleReturn result, CrestAll.mkStore addr] =
        some final ∧
        final.si.mem[after.addr (toAddr addr)]? = se.description := by
  have single : left.si.stack.length = 1 := by
    rw [isStack]
    rfl
  obtain ⟨handled, isHandled, stillTracked, _, sameStack⟩ :=
    Crest.exists_handleReturn_of_returned tracked returned single
  obtain ⟨final, isStored, described⟩ :=
    Crest.exists_store stillTracked (sameStack.trans isStack)
  refine ⟨final, ?_, ?_⟩
  · rw [Crest.performAll_cons_eq_some]
    refine ⟨handled, isHandled, ?_⟩
    rw [Crest.performAll_singleton]
    exact isStored
  · rw [described, if_pos rfl]

/-- What a call leaves behind is stored with its description. -/
theorem Returned.exists_storeResult
    (returned : Returned met value left)
    (after : Circumstances)
    (result addr : Exp)
    (dormant : met.Dormant)
    (unreturned : met.si.returnValue = false) :
    ∃ final,
      left.performAll after
          [CrestAll.mkHandleReturn result, CrestAll.mkStore addr] =
        some final ∧
        final.si.mem[after.addr (toAddr addr)]? = value := by
  have ofUnreturned
      (leftDormant : left.Dormant)
      (noReturn : left.si.returnValue = false)
      (concrete : value = none) :
      ∃ final,
        left.performAll after
            [CrestAll.mkHandleReturn result, CrestAll.mkStore addr] =
          some final ∧
          final.si.mem[after.addr (toAddr addr)]? = value := by
    obtain ⟨final, isStored, described⟩ :=
      exists_storeResult_of_unreturned after result addr leftDormant noReturn
    refine ⟨final, isStored, ?_⟩
    rw [described, if_pos rfl, concrete]
  cases returned with
  | uninstrumented marks =>
      exact
        ofUnreturned (dormant.becomes (Crest.becomes_markInputs marks))
          ((Program.shape_markInputs marks).2.1.trans unreturned) rfl
  | @instrumented here leaving left becomes performed =>
      have leavingDormant := dormant.becomes becomes
      obtain ⟨pre, mem, isStack, atMostOne, flag⟩ :=
        Crest.of_returns performed
      cases untracked : leaving.preSymbolic with
      | true =>
          refine
            ⟨left,
              Crest.performAll_storeResult_untracked (pre.trans untracked),
              ?_⟩
          rw [mem, leavingDormant.getElem?_mem untracked]
          simp [Crest.newest, untracked]
      | false =>
          -- At most the value that is being returned is on the stack.
          match top : leaving.si.stack with
          | [] =>
              apply ofUnreturned (leavingDormant.perform performed)
              · rw [flag, top]
                rfl
              · simp [Crest.newest, untracked, top]
          | [se] =>
              have isReturned : left.si.returnValue = true := by
                rw [flag, top]
                rfl
              have described : leaving.newest = se.description := by
                simp [Crest.newest, untracked, top]
              rw [described]
              exact
                exists_storeResult_of_returned after result addr
                  (pre.trans untracked) isReturned (isStack.trans top)
          | first :: second :: rest =>
              rw [top] at atMostOne
              simp at atMostOne

/-- A value that was pushed is stored with its description. -/
theorem exists_store_of_pushes
    (before : Circumstances)
    (addr : Exp)
    (dormant : crest.Dormant)
    (pushes : Crest.Pushes 1 crest met) :
    ∃ final,
      met.perform before (CrestAll.mkStore addr) = some final ∧
        final.si.mem[before.addr (toAddr addr)]? = met.newest := by
  cases pre : crest.preSymbolic with
  | true =>
      have untracked := pushes.preSymbolic.trans pre
      refine ⟨met, ?_, ?_⟩
      · simp [CrestAll.mkStore, Crest.perform, Crest.forwardTracked,
          untracked]
      · rw [pushes.mem, dormant.getElem?_mem pre]
        simp [Crest.newest, untracked]
  | false =>
      have tracked := pushes.preSymbolic.trans pre
      obtain ⟨pushed, length, isStack⟩ := pushes.stack pre
      obtain ⟨se, rfl⟩ := List.length_eq_one_iff.mp length
      obtain ⟨final, isStored, described⟩ :=
        Crest.exists_store tracked isStack
      refine ⟨final, isStored, ?_⟩
      rw [described, if_pos rfl]
      simp [Crest.newest, tracked, isStack]

end Stores

section StaleMemory

/-- A function that marks an input and goes on with an instruction. -/
def marksFirst (i : Instr) : Fundec Instr where
  svar := Program.intFunction "main" false []
  sformals := []
  sbody :=
    .cons
      (.instr 1 []
        [.call none
            (.lval
              (.var
                (Program.intFunction "__CrestInt" false ["crest_skip"])
                .noOffset))
            [],
          i])
      .nil

/-- The input is marked at an address. -/
def marksAt (addr : Addr) : Choice :=
  { Program.marksInput with inputs := [.newInputRank .uInt addr] }

/-- The state after the input has been marked. -/
def markedAt (addr : Addr) : Crest where
  si :=
    ((SymbolicInterpreter.fresh [] 0 0 0 1).call 1).newInputRank .uInt addr
      |>.2
  preSymbolic := false

/-- Every instruction starts in some run with any address in the memory. -/
theorem ready_markedAt (i : Instr) (addr : Addr) :
    Ready i (markedAt addr) := by
  let main : Fundec Instrumented :=
    (CrestAll.vfunc (.start 0) (marksFirst i)).2
  let config : Config :=
    { crest := markedAt addr
      frame :=
        { body := main.sbody
          code := [.instr 1 [] (CrestAll.vinst i ++ [])] }
      callers := [] }
  have isMain : main ∈ Program.ofFiles [(0, [marksFirst i])] :=
    List.mem_cons_self
  have ran :
      PartialRun.run? (Program.ofFiles [(0, [marksFirst i])]).step
          (Program.start main (.fresh [] 0 0 0 1))
          (List.replicate 4 (marksAt addr)) =
        some config := by
    rfl
  exact .reached isMain rfl ran rfl rfl

theorem isSome_markedAt (addr : Addr) :
    (markedAt addr).si.mem[addr]?.isSome = true := by
  have marked :
      (markedAt addr).si.mem =
        (∅ : OrderedMap Addr SymbolicExpr).insert addr (.ofTerm 1 0) :=
    rfl
  rw [marked, Std.ExtTreeMap.getElem?_insert_self]
  rfl

/-- A concrete value is written, and the old description is still there. -/
theorem not_refreshes_of_stale
    {write : TrackedWrite}
    {placement : Placement}
    {crest final : Crest}
    (ready : Ready write.instr crest)
    (executes : Executes placement write.instr crest none final)
    (stale : final.si.mem[write.written placement]?.isSome = true) :
    ¬write.Refreshes placement := by
  intro refreshes
  have refreshed := (refreshes crest ready).2 none final executes
  rw [refreshed] at stale
  cases stale

end StaleMemory

section Refreshing

variable
  {write : TrackedWrite}
  {placement : Placement}
  {lv : Lval}
  {e callee : Exp}
  {args : List Exp}

/-- An assignment of an integral value refreshes the memory. -/
theorem refreshes_set
    (isSet : write.instr = .set lv e)
    (symbolic : isSymbolicExp e = true) :
    write.Refreshes placement := by
  have sameLval : lv = write.lv := by
    apply write.eq_lv
    rw [isSet]
    rfl
  have addressed : hasAddress lv = true := by
    rw [sameLval]
    exact write.addressed
  have isWritten :
      write.written placement =
        placement.before.addr (toAddr (addressOf lv)) := by
    simp [TrackedWrite.written, isSet, sameLval]
  have emission := emitted_set symbolic addressed
  intro crest ready
  rw [isSet] at ready ⊢
  obtain ⟨evaluated, evaluates, pushes⟩ :=
    Crest.exists_instrumentExpr placement.before e crest
  obtain ⟨stored, isStored, described⟩ :=
    exists_store_of_pushes placement.before (addressOf lv) ready.dormant
      pushes
  have queued :
      crest.performAll placement.before
          (CrestAll.instrumentExpr e ++
            [CrestAll.mkStore (addressOf lv)]) =
        some stored := by
    rw [Crest.performAll_append_eq_some]
    refine ⟨evaluated, evaluates, ?_⟩
    rw [Crest.performAll_singleton]
    exact isStored
  constructor
  · exact ⟨_, stored, .between emission queued (.set evaluates) rfl⟩
  · rintro value final ⟨emitted, nowQueued, done, followed⟩
    obtain ⟨rfl, rfl⟩ := emitted_inj (emitted.symm.trans emission)
    rw [queued] at nowQueued
    obtain rfl := Option.some.inj nowQueued
    cases done with
    | set nowEvaluates =>
        rw [evaluates] at nowEvaluates
        obtain rfl := Option.some.inj nowEvaluates
        obtain rfl := Option.some.inj followed
        rw [isWritten, described, if_pos symbolic]

/-- A call whose result is stored refreshes the memory. -/
theorem refreshes_call
    (isCall : write.instr = .call (some lv) callee args)
    (stores : write.instr.storesResult = true)
    (settles : write.Settles placement) :
    write.Refreshes placement := by
  have sameLval : lv = write.lv := by
    apply write.eq_lv
    rw [isCall]
    rfl
  have isWritten :
      write.written placement =
        placement.after.addr (toAddr (addressOf lv)) := by
    rw [sameLval, settles _ _ _ isCall]
    simp [TrackedWrite.written, isCall]
  have visited := write.visited_callee isCall
  rw [isCall] at stores
  have emission :=
    emitted_call visited (sameLval ▸ write.integral)
      (sameLval ▸ write.addressed) stores
  intro crest ready
  rw [isCall] at ready ⊢
  obtain ⟨met, queued, pushes⟩ :=
    Crest.exists_arguments placement.before (args.filter isSymbolicExp) crest
  have dormant := pushes.dormant ready.dormant
  have unreturned : met.si.returnValue = false :=
    pushes.returnValue.trans ready.unreturned
  constructor
  · have nothing : markInputs met [] = some met :=
      rfl
    have returned : Returned met none met :=
      .uninstrumented nothing
    obtain ⟨final, followed, _⟩ :=
      returned.exists_storeResult placement.after (.lval lv) (addressOf lv)
        dormant unreturned
    exact ⟨none, final, .between emission queued (.call returned) followed⟩
  · rintro value final ⟨emitted, nowQueued, done, followed⟩
    obtain ⟨rfl, rfl⟩ := emitted_inj (emitted.symm.trans emission)
    have sameMet := queued.symm.trans nowQueued
    obtain rfl := Option.some.inj sameMet
    cases done with
    | call returned =>
        obtain ⟨stored, isStored, described⟩ :=
          returned.exists_storeResult placement.after (.lval lv)
            (addressOf lv) dormant unreturned
        rw [followed] at isStored
        obtain rfl := Option.some.inj isStored
        rw [isWritten, described]

/-- A write whose result is stored, where its lvalue is, refreshes the memory. -/
theorem refreshes_of_stores
    (stores : write.instr.storesResult = true)
    (settles : write.Settles placement) :
    write.Refreshes placement := by
  have assigns := write.assigns
  cases isInstr : write.instr with
  | set lv e =>
      rw [isInstr] at stores
      exact refreshes_set isInstr stores
  | call ret callee args =>
      rw [isInstr] at assigns
      obtain rfl : ret = some write.lv := assigns
      exact refreshes_call isInstr stores settles
  | asm template =>
      rw [isInstr] at assigns
      cases assigns

/-- An assignment of a value that is not integral is not stored. -/
theorem not_refreshes_set
    (isSet : write.instr = .set lv e)
    (symbolic : isSymbolicExp e = false) :
    ¬write.Refreshes placement := by
  have ready :=
    ready_markedAt write.instr (write.written placement)
  have stale := isSome_markedAt (write.written placement)
  apply not_refreshes_of_stale ready ?_ stale
  rw [isSet]
  obtain ⟨evaluated, evaluates, _⟩ :=
    Crest.exists_instrumentExpr placement.before e
      (markedAt (write.written placement))
  have done :
      Does placement.before (markedAt (write.written placement))
        (markedAt (write.written placement)) (.set lv e)
        (if isSymbolicExp e then evaluated.newest else none)
        (markedAt (write.written placement)) :=
    .set evaluates
  rw [symbolic] at done
  exact .between (emitted_untrackedSet symbolic) rfl done rfl

/-- The result of a call that asks the library is not stored. -/
theorem not_refreshes_unstored
    {ret : Option Lval}
    (isCall : write.instr = .call ret callee args)
    (unstored : write.instr.storesResult = false) :
    ¬write.Refreshes placement := by
  have visited := write.visited_callee isCall
  have ready :=
    ready_markedAt write.instr (write.written placement)
  cases lost : losesCall write.instr with
  | true =>
      intro refreshes
      obtain ⟨⟨value, final, executes⟩, _⟩ := refreshes _ ready
      obtain ⟨emitted, _, _, _⟩ := executes
      apply CrestAll.vinst_lost lost
      rw [emitted]
      simp
  | false =>
      rw [isCall] at lost unstored
      obtain ⟨earlier, later, before, after, emission⟩ :=
        emitted_unstored lost visited unstored
      obtain ⟨pushed, evaluates, pushes⟩ :=
        Crest.exists_arguments placement.before (args.filter isSymbolicExp)
          (markedAt (write.written placement))
      obtain ⟨met, attends, keepsEarlier⟩ :=
        Crest.exists_performAll_of_attends before placement.before pushed
      obtain ⟨final, followed, keepsLater⟩ :=
        Crest.exists_performAll_of_attends after placement.after met
      have queued :
          (markedAt (write.written placement)).performAll placement.before
              (argumentCalls args ++ earlier) =
            some met :=
        Crest.performAll_append_eq_some.mpr ⟨pushed, evaluates, attends⟩
      have nothing : markInputs met [] = some met :=
        rfl
      have stale := isSome_markedAt (write.written placement)
      rw [← pushes.mem] at stale
      apply not_refreshes_of_stale ready ?_
        (keepsLater _ (keepsEarlier _ stale))
      rw [isCall]
      exact
        .between emission queued (.call (.uninstrumented nothing)) followed

/-- A result is stored where its lvalue has moved to. -/
theorem not_refreshes_unsettled
    (isCall : write.instr = .call (some lv) callee args)
    (stores : write.instr.storesResult = true)
    (moved :
      placement.after.addr (toAddr (addressOf write.lv)) ≠
        placement.target) :
    ¬write.Refreshes placement := by
  have sameLval : lv = write.lv := by
    apply write.eq_lv
    rw [isCall]
    rfl
  have isWritten : write.written placement = placement.target := by
    simp [TrackedWrite.written, isCall]
  have visited := write.visited_callee isCall
  have ready := ready_markedAt write.instr placement.target
  rw [isCall] at stores
  have emission :=
    emitted_call visited (sameLval ▸ write.integral)
      (sameLval ▸ write.addressed) stores
  obtain ⟨met, queued, pushes⟩ :=
    Crest.exists_arguments placement.before (args.filter isSymbolicExp)
      (markedAt placement.target)
  have nothing : markInputs met [] = some met :=
    rfl
  have unreturned : met.si.returnValue = false :=
    pushes.returnValue.trans ready.unreturned
  have dormant := pushes.dormant ready.dormant
  obtain ⟨final, followed, described⟩ :=
    exists_storeResult_of_unreturned placement.after (.lval lv)
      (addressOf lv) dormant unreturned
  have stale : final.si.mem[write.written placement]?.isSome = true := by
    rw [described, isWritten, sameLval, if_neg moved.symm, pushes.mem]
    exact isSome_markedAt placement.target
  apply not_refreshes_of_stale ready ?_ stale
  rw [isCall]
  exact .between emission queued (.call (.uninstrumented nothing)) followed

/--
A write refreshes the memory exactly if its result is stored, where its lvalue
still is.
-/
theorem refreshes_iff
    (write : TrackedWrite)
    (placement : Placement) :
    write.Refreshes placement ↔
      write.instr.storesResult = true ∧ write.Settles placement := by
  constructor
  · intro refreshes
    have assigns := write.assigns
    cases isInstr : write.instr with
    | set lv e =>
        have symbolic : isSymbolicExp e = true := by
          by_contra untracked
          exact
            not_refreshes_set isInstr (Bool.eq_false_of_not_eq_true untracked)
              refreshes
        refine ⟨symbolic, fun ret callee args isCall => ?_⟩
        rw [isInstr] at isCall
        cases isCall
    | call ret callee args =>
        rw [isInstr] at assigns
        obtain rfl : ret = some write.lv := assigns
        rw [← isInstr]
        have stores : write.instr.storesResult = true := by
          by_contra unstored
          exact
            not_refreshes_unstored isInstr
              (Bool.eq_false_of_not_eq_true unstored) refreshes
        refine ⟨stores, fun _ _ _ _ => ?_⟩
        by_contra moved
        exact not_refreshes_unsettled isInstr stores moved refreshes
    | asm template =>
        rw [isInstr] at assigns
        cases assigns
  · rintro ⟨stores, settles⟩
    exact refreshes_of_stores stores settles

/-- `x = MPI_Comm_rank(MPI_COMM_WORLD, &rank)`. -/
def rankResult : TrackedWrite where
  instr :=
    .call (some (.var (Program.intLocal "x") .noOffset))
      (.lval (.var mpiCommRank .noOffset))
      [.castE (.named "MPI_Comm" (.int .int))
          (.const (.int64 0x44000000 .int)),
        .addrOf (.var (Program.intLocal "rank") .noOffset)]
  lv := .var (Program.intLocal "x") .noOffset
  assigns := rfl
  integral := rfl
  addressed := rfl
  visited := by
    decide

/-- The local `x` has address 100 throughout, and all else has address 200. -/
def rankPlacement : Placement :=
  let here : Circumstances :=
    { Program.marksInput.here with
      addr := fun e =>
        if e = toAddr (addressOf rankResult.lv) then 100 else 200 }
  { before := here
    after := here
    target := 100 }

/-- The call writes a rank to `x`, which still is described as an input. -/
theorem not_refreshes_rankResult :
    rankResult.Settles rankPlacement ∧ ¬rankResult.Refreshes rankPlacement := by
  constructor
  · intro ret callee args _
    rfl
  · have unstored : rankResult.instr.storesResult = false := by
      decide
    exact not_refreshes_unstored rfl unstored

end Refreshing

end Compi.Cil
