import Compi.StackDiscipline
import Compi.TargetCalls
import Mathlib.Logic.Relation

/-!
# Symbolic memory under inserted calls

What inserted calls do to the symbolic memory.  The evaluation of an
expression leaves it alone and pushes one value; a store moves the description
of the top of the stack to one address; only a store takes anything out.
Until inputs are tracked the memory is empty, in every state of every run.
-/

namespace Compi

open Cil

/-- The expression that describes a value; a constant describes nothing. -/
def StackElem.description (se : StackElem) : Option SymbolicExpr :=
  se.expr.filter fun e => !e.isConcrete

namespace Crest

/-- Perform inserted calls one after another. -/
def performAll
    (here : Circumstances)
    (crest : Crest)
    (calls : List RuntimeCall) : Option Crest :=
  PartialRun.run? (fun crest c => crest.perform here c) crest calls

/-- The description of the top of the stack. -/
def newest (crest : Crest) : Option SymbolicExpr :=
  if crest.preSymbolic then
    none
  else
    crest.si.stack.head?.bind StackElem.description

/-- Nothing is in the symbolic memory until inputs are tracked. -/
def Dormant (crest : Crest) : Prop :=
  crest.preSymbolic = true → crest.si.mem = ∅

/-- The runtime library goes on with an inserted call or a marking call. -/
def Moves (crest next : Crest) : Prop :=
  (∃ here c, crest.perform here c = some next) ∨
    ∃ event,
      (crest.si.marking? event).isSome = true ∧
        crest.mark event = some next

/-- The runtime library goes on with any number of calls. -/
def Becomes : Crest → Crest → Prop :=
  Relation.ReflTransGen Moves

variable {crest middle next final : Crest} {here : Circumstances}

/-- The calls of two lists are performed one list after the other. -/
theorem performAll_append_eq_some {calls others : List RuntimeCall} :
    crest.performAll here (calls ++ others) = some final ↔
      ∃ middle,
        crest.performAll here calls = some middle ∧
          middle.performAll here others = some final :=
  PartialRun.run?_append_eq_some

/-- The first call is performed before the others. -/
theorem performAll_cons_eq_some
    {c : RuntimeCall}
    {rest : List RuntimeCall} :
    crest.performAll here (c :: rest) = some final ↔
      ∃ middle,
        crest.perform here c = some middle ∧
          middle.performAll here rest = some final :=
  PartialRun.run?_cons_eq_some

/-- A list of one call performs it. -/
theorem performAll_singleton (c : RuntimeCall) :
    crest.performAll here [c] = crest.perform here c := by
  unfold performAll PartialRun.run?
  cases crest.perform here c <;> rfl

section Evaluation

/-- The effect of pushing some values on the runtime library. -/
structure Pushes (count : Nat) (crest next : Crest) : Prop where
  preSymbolic : next.preSymbolic = crest.preSymbolic
  mem : next.si.mem = crest.si.mem
  returnValue : next.si.returnValue = crest.si.returnValue
  stack :
    crest.preSymbolic = false →
      ∃ pushed,
        pushed.length = count ∧ next.si.stack = pushed ++ crest.si.stack

theorem Pushes.refl (crest : Crest) : Pushes 0 crest crest where
  preSymbolic := rfl
  mem := rfl
  returnValue := rfl
  stack := fun _ => ⟨[], rfl, rfl⟩

theorem Pushes.trans
    {count more : Nat}
    (first : Pushes count crest middle)
    (second : Pushes more middle next) :
    Pushes (count + more) crest next where
  preSymbolic := second.preSymbolic.trans first.preSymbolic
  mem := second.mem.trans first.mem
  returnValue := second.returnValue.trans first.returnValue
  stack := by
    intro tracked
    obtain ⟨pushed, rfl, isFirst⟩ := first.stack tracked
    obtain ⟨others, rfl, isSecond⟩ :=
      second.stack (first.preSymbolic.trans tracked)
    refine ⟨others ++ pushed, ?_, ?_⟩
    · rw [List.length_append, Nat.add_comm]
    · rw [isSecond, isFirst, List.append_assoc]

/-- A load pushes a value. -/
theorem exists_load
    (crest : Crest)
    (addr value : Exp) :
    ∃ next,
      crest.perform here (CrestAll.mkLoad addr value) = some next ∧
        Pushes 1 crest next := by
  cases pre : crest.preSymbolic with
  | true =>
      refine ⟨crest, ?_, rfl, rfl, rfl, ?_⟩
      · simp [CrestAll.mkLoad, perform, forwardTracked, pre]
      · intro tracked
        rw [pre] at tracked
        cases tracked
  | false =>
      refine
        ⟨{ crest with
            si :=
              crest.si.load (here.addr (toAddr addr))
                (here.value (toValue value)) },
          ?_, rfl, rfl, rfl, fun _ => ⟨[_], rfl, rfl⟩⟩
      simp [CrestAll.mkLoad, perform, forwardTracked, pre, forward,
        SymbolicInterpreter.step]

/-- A unary operator replaces the value that was pushed last. -/
theorem exists_apply1
    {count : Nat}
    (op : Unop)
    (value : Exp)
    (pushes : Pushes (count + 1) crest middle) :
    ∃ next,
      middle.perform here (CrestAll.mkApply1 op value) = some next ∧
        Pushes (count + 1) crest next := by
  have accepted := isUnaryCode_unaryOpCode op
  cases pre : crest.preSymbolic with
  | true =>
      refine ⟨middle, ?_, pushes⟩
      simp [CrestAll.mkApply1, perform, accepted, forwardTracked,
        pushes.preSymbolic, pre]
  | false =>
      obtain ⟨pushed, length, isStack⟩ := pushes.stack pre
      obtain ⟨se, rest, rfl⟩ := List.exists_cons_of_length_eq_add_one length
      have tracked := pushes.preSymbolic.trans pre
      simp only [CrestAll.mkApply1, perform, accepted, if_true,
        forwardTracked, tracked, Bool.false_eq_true, if_false, forward,
        apply1Event, SymbolicInterpreter.step,
        SymbolicInterpreter.applyUnaryOp, isStack, List.cons_append]
      split
      all_goals
        refine
          ⟨_, rfl, pre.symm, pushes.mem, pushes.returnValue,
            fun _ => ⟨_ :: rest, ?_, rfl⟩⟩
        simpa using length

/-- A binary operator replaces the two values that were pushed last. -/
theorem exists_apply2
    {count : Nat}
    (op : Binop)
    (value : Exp)
    (pushes : Pushes (count + 2) crest middle) :
    ∃ next,
      middle.perform here (CrestAll.mkApply2 op value) = some next ∧
        Pushes (count + 1) crest next := by
  have accepted := isBinaryCode_binaryOpCode op
  cases pre : crest.preSymbolic with
  | true =>
      refine
        ⟨middle, ?_, pushes.preSymbolic, pushes.mem, pushes.returnValue, ?_⟩
      · simp [CrestAll.mkApply2, perform, accepted, forwardTracked,
          pushes.preSymbolic, pre]
      · intro tracked
        rw [pre] at tracked
        cases tracked
  | false =>
      obtain ⟨pushed, length, isStack⟩ := pushes.stack pre
      obtain ⟨b, others, rfl⟩ := List.exists_cons_of_length_eq_add_one length
      have more : others.length = count + 1 := by
        simpa using length
      obtain ⟨a, rest, rfl⟩ := List.exists_cons_of_length_eq_add_one more
      have left : rest.length = count := by
        simpa using more
      have tracked := pushes.preSymbolic.trans pre
      simp only [CrestAll.mkApply2, perform, accepted, if_true,
        forwardTracked, tracked, Bool.false_eq_true, if_false, forward,
        apply2Event]
      split
      all_goals
        simp only [SymbolicInterpreter.step,
          SymbolicInterpreter.applyBinaryOp,
          SymbolicInterpreter.applyCompareOp, isStack, List.cons_append]
        refine
          ⟨_, rfl, pre.symm, pushes.mem, pushes.returnValue,
            fun _ => ⟨_ :: rest, ?_, rfl⟩⟩
        simpa using left

/-- The evaluation of an expression pushes one value and does nothing else. -/
theorem exists_instrumentExpr
    (here : Circumstances)
    (e : Exp)
    (crest : Crest) :
    ∃ next,
      crest.performAll here (CrestAll.instrumentExpr e) = some next ∧
        Pushes 1 crest next := by
  fun_induction CrestAll.instrumentExpr e generalizing crest with
  | case4 op e₁ type _ inductionHypothesis =>
      obtain ⟨middle, ran, pushes⟩ := inductionHypothesis crest
      obtain ⟨next, applied, pushesNext⟩ :=
        exists_apply1 op (.unOp op e₁ type) pushes
      refine
        ⟨next, performAll_append_eq_some.mpr ⟨middle, ran, ?_⟩, pushesNext⟩
      rw [performAll_singleton]
      exact applied
  | case5 op e₁ e₂ type _ firstHypothesis secondHypothesis =>
      obtain ⟨first, firstRan, pushesFirst⟩ := firstHypothesis crest
      obtain ⟨second, secondRan, pushesSecond⟩ := secondHypothesis first
      have pushesBoth : Pushes (0 + 2) crest second :=
        pushesFirst.trans pushesSecond
      obtain ⟨next, applied, pushesNext⟩ :=
        exists_apply2 op (.binOp op e₁ e₂ type) pushesBoth
      refine
        ⟨next, performAll_append_eq_some.mpr ⟨second, ?_, ?_⟩, pushesNext⟩
      · exact performAll_append_eq_some.mpr ⟨first, firstRan, secondRan⟩
      · rw [performAll_singleton]
        exact applied
  | case6 type e₁ _ inductionHypothesis =>
      exact inductionHypothesis crest
  | _ =>
      rw [performAll_singleton]
      exact exists_load crest _ _

/-- The evaluation of arguments pushes them all. -/
theorem exists_arguments
    (here : Circumstances)
    (args : List Exp)
    (crest : Crest) :
    ∃ next,
      crest.performAll here (args.flatMap CrestAll.instrumentExpr) =
          some next ∧
        Pushes args.length crest next := by
  induction args generalizing crest with
  | nil =>
      exact ⟨crest, rfl, Pushes.refl crest⟩
  | cons e rest inductionHypothesis =>
      obtain ⟨middle, ran, pushes⟩ := exists_instrumentExpr here e crest
      obtain ⟨next, restRan, pushesRest⟩ := inductionHypothesis middle
      refine ⟨next, ?_, ?_⟩
      · rw [List.flatMap_cons]
        exact performAll_append_eq_some.mpr ⟨middle, ran, restRan⟩
      · rw [List.length_cons, Nat.add_comm]
        exact pushes.trans pushesRest

end Evaluation

section Stores

/-- Nothing is described by the memory of a dormant library. -/
theorem Dormant.getElem?_mem
    (dormant : crest.Dormant)
    (pre : crest.preSymbolic = true)
    (addr : Addr) :
    crest.si.mem[addr]? = none := by
  rw [dormant pre]
  exact Std.ExtTreeMap.getElem?_empty

/-- A store moves the description of the top of the stack to its address. -/
theorem exists_store
    {addr : Exp}
    {se : StackElem}
    {rest : List StackElem}
    (tracked : crest.preSymbolic = false)
    (isStack : crest.si.stack = se :: rest) :
    ∃ next,
      crest.perform here (CrestAll.mkStore addr) = some next ∧
        ∀ other,
          next.si.mem[other]? =
            if other = here.addr (toAddr addr) then
              se.description
            else
              crest.si.mem[other]? := by
  simp only [CrestAll.mkStore, perform, forwardTracked, tracked,
    Bool.false_eq_true, if_false, forward, SymbolicInterpreter.step,
    SymbolicInterpreter.store, isStack]
  refine ⟨_, rfl, fun other => ?_⟩
  by_cases same : other = here.addr (toAddr addr)
  · subst same
    rw [if_pos rfl]
    cases isExpr : se.expr with
    | none =>
        simp [StackElem.description, isExpr]
    | some e =>
        cases constant : e.isConcrete with
        | true =>
            simp [StackElem.description, isExpr, constant, Option.filter]
        | false =>
            simp [StackElem.description, isExpr, constant, Option.filter]
  · have differs : compare (here.addr (toAddr addr)) other ≠ .eq := by
      rw [ne_eq, compare_eq_iff_eq]
      exact Ne.symm same
    rw [if_neg same]
    split
    · split
      · rw [Std.ExtTreeMap.getElem?_erase, if_neg differs]
      · rw [Std.ExtTreeMap.getElem?_insert, if_neg differs]
    · rw [Std.ExtTreeMap.getElem?_erase, if_neg differs]

end Stores

section Calls

/-- What the return of an instrumented function leaves behind. -/
theorem of_returns
    (performed : crest.perform here .returns = some next) :
    next.preSymbolic = crest.preSymbolic ∧
      next.si.mem = crest.si.mem ∧
      next.si.stack = crest.si.stack ∧
      crest.si.stack.length ≤ 1 ∧
      next.si.returnValue = decide (crest.si.stack.length = 1) := by
  obtain ⟨si, stepped, rfl⟩ := Option.map_eq_some_iff.mp performed
  simp only [SymbolicInterpreter.step, SymbolicInterpreter.returns]
    at stepped
  split at stepped
  · next atMostOne =>
      obtain rfl := Option.some.inj stepped
      exact ⟨rfl, rfl, rfl, atMostOne, rfl⟩
  · cases stepped

/-- The result of an instrumented function stays on the stack. -/
theorem exists_handleReturn_of_returned
    {value : Exp}
    (tracked : crest.preSymbolic = false)
    (returned : crest.si.returnValue = true)
    (single : crest.si.stack.length = 1) :
    ∃ next,
      crest.perform here (CrestAll.mkHandleReturn value) = some next ∧
        next.preSymbolic = false ∧
        next.si.mem = crest.si.mem ∧
        next.si.stack = crest.si.stack := by
  simp only [CrestAll.mkHandleReturn, perform, forwardTracked, tracked,
    Bool.false_eq_true, if_false, forward, SymbolicInterpreter.step,
    SymbolicInterpreter.handleReturn, returned, single, if_true]
  exact ⟨_, rfl, rfl, rfl, rfl⟩

/-- Any other result replaces the arguments by a concrete value. -/
theorem exists_handleReturn_of_unreturned
    {value : Exp}
    (tracked : crest.preSymbolic = false)
    (unreturned : crest.si.returnValue = false) :
    ∃ next,
      crest.perform here (CrestAll.mkHandleReturn value) = some next ∧
        next.preSymbolic = false ∧
        next.si.mem = crest.si.mem ∧
        next.si.stack =
          [{ expr := none, concrete := here.value (toValue value) }] := by
  simp only [CrestAll.mkHandleReturn, perform, forwardTracked, tracked,
    Bool.false_eq_true, if_false, forward, SymbolicInterpreter.step,
    SymbolicInterpreter.handleReturn, unreturned]
  exact ⟨_, rfl, rfl, rfl, rfl⟩

/-- Before inputs are tracked a result is not stored. -/
theorem performAll_storeResult_untracked
    {value addr : Exp}
    (pre : crest.preSymbolic = true) :
    crest.performAll here
        [CrestAll.mkHandleReturn value, CrestAll.mkStore addr] =
      some crest := by
  simp [performAll, PartialRun.run?, CrestAll.mkHandleReturn,
    CrestAll.mkStore, perform, forwardTracked, pre]

/-- Nothing is taken out of the symbolic memory. -/
def Keeps (crest next : Crest) : Prop :=
  ∀ addr : Addr,
    crest.si.mem[addr]?.isSome = true →
    next.si.mem[addr]?.isSome = true

/-- A call that never fails and takes nothing out of the memory. -/
def Attends (c : RuntimeCall) : Prop :=
  ∀ (here : Circumstances) (crest : Crest),
    ∃ next, crest.perform here c = some next ∧ crest.Keeps next

/-- Marking an input puts it into the memory. -/
theorem exists_mark
    {event : SymbolicInterpreter.Event}
    (succeeds :
      ∃ addr ret si,
        crest.si.marking? event = some (addr, some (ret, si))) :
    ∃ next, crest.mark event = some next ∧ crest.Keeps next := by
  obtain ⟨marked, ret, si, marks⟩ := succeeds
  have effect := SymbolicInterpreter.marked_of_marking? marks
  have stepped : crest.si.step event = some si := by
    have viaMarking :
        crest.si.step event =
          ((crest.si.marking? event).bind Prod.snd).map Prod.snd := by
      cases event <;> first | rfl | cases marks
    rw [viaMarking, marks]
    rfl
  refine ⟨{ si := si, preSymbolic := false }, ?_, ?_⟩
  · simp [mark, forward, stepped]
  · intro addr known
    rw [effect.mem, Std.ExtTreeMap.getElem?_insert]
    split
    · rfl
    · exact known

theorem attends_rank (addr : Exp) : Attends (.rank addr) :=
  fun _ _ => exists_mark ⟨_, _, _, rfl⟩

theorem attends_rankNonDefaultComm1 (addr : Exp) :
    Attends (.rankNonDefaultComm1 addr) :=
  fun _ _ => exists_mark ⟨_, _, _, rfl⟩

theorem attends_worldSizeWithLimit (addr : Exp) (limit : Int) :
    Attends (.worldSizeWithLimit addr limit) :=
  fun _ _ => exists_mark ⟨_, _, _, rfl⟩

theorem attends_rankNonDefaultComm2 (comm addr : Exp) :
    Attends (.rankNonDefaultComm2 comm addr) := by
  intro here crest
  refine ⟨crest.rankNonDefaultComm2 here addr, rfl, ?_⟩
  intro other known
  unfold rankNonDefaultComm2
  split
  · exact known
  · split <;> exact known

theorem attends_getMPIInfo : Attends .getMPIInfo :=
  fun _ _ => ⟨_, rfl, fun _ known => known⟩

theorem attends_clearStack : Attends .clearStack := by
  intro here crest
  cases pre : crest.preSymbolic with
  | true =>
      refine ⟨crest, ?_, fun _ known => known⟩
      simp [perform, forwardTracked, pre]
  | false =>
      refine
        ⟨{ crest with si := crest.si.clearStack }, ?_, fun _ known => known⟩
      simp [perform, forwardTracked, pre, forward, SymbolicInterpreter.step]

/-- Such calls one after another take nothing out of the memory either. -/
theorem exists_performAll_of_attends
    {calls : List RuntimeCall}
    (attend : ∀ c ∈ calls, Attends c)
    (here : Circumstances)
    (crest : Crest) :
    ∃ next, crest.performAll here calls = some next ∧ crest.Keeps next := by
  induction calls generalizing crest with
  | nil =>
      exact ⟨crest, rfl, fun _ known => known⟩
  | cons c rest inductionHypothesis =>
      obtain ⟨middle, performed, keeps⟩ :=
        attend c List.mem_cons_self here crest
      obtain ⟨next, restRan, restKeeps⟩ :=
        inductionHypothesis
          (fun other member => attend other (List.mem_cons_of_mem c member))
          middle
      exact
        ⟨next, performAll_cons_eq_some.mpr ⟨middle, performed, restRan⟩,
          fun addr known => restKeeps addr (keeps addr known)⟩

end Calls

section Dormancy

/-- Pushing values keeps the library dormant. -/
theorem Pushes.dormant
    {count : Nat}
    (pushes : Pushes count crest next)
    (dormant : crest.Dormant) :
    next.Dormant := by
  intro pre
  rw [pushes.mem]
  exact dormant (pushes.preSymbolic.symm.trans pre)

/-- A call that is not forwarded yet does nothing to a dormant library. -/
theorem dormant_forwardTracked
    {event : SymbolicInterpreter.Event}
    (dormant : crest.Dormant)
    (forwarded : crest.forwardTracked event = some next) :
    next.Dormant := by
  unfold forwardTracked at forwarded
  split at forwarded
  · obtain rfl := Option.some.inj forwarded
    exact dormant
  · next tracked =>
      obtain ⟨si, _, rfl⟩ := Option.map_eq_some_iff.mp forwarded
      intro pre
      exact absurd pre tracked

/-- Once inputs are tracked the library is not dormant any more. -/
theorem dormant_mark
    {event : SymbolicInterpreter.Event}
    (marked : crest.mark event = some next) :
    next.Dormant := by
  obtain ⟨si, _, rfl⟩ := Option.map_eq_some_iff.mp marked
  intro pre
  cases pre

/-- An inserted call keeps the memory empty until inputs are tracked. -/
theorem Dormant.perform
    {c : RuntimeCall}
    (dormant : crest.Dormant)
    (performed : crest.perform here c = some next) :
    next.Dormant := by
  cases c with
  | load | store | clearStack | apply1 | apply2 | handleReturn =>
      obtain ⟨event, _, forwarded⟩ := exists_tracked rfl performed
      exact dormant_forwardTracked dormant forwarded
  | rank | rankNonDefaultComm1 | worldSizeWithLimit =>
      exact dormant_mark performed
  | branch bid taken =>
      obtain rfl := Option.some.inj performed
      intro pre
      have untracked : crest.preSymbolic = true := pre
      have loaded :
          (crest.si.load 0 (if taken then 1 else 0)).mem = crest.si.mem :=
        rfl
      simp only [untracked, if_true]
      exact loaded.trans (dormant untracked)
  | branchOnly bid | call fid =>
      obtain rfl := Option.some.inj performed
      exact dormant
  | returns =>
      obtain ⟨si, stepped, rfl⟩ := Option.map_eq_some_iff.mp performed
      simp only [SymbolicInterpreter.step, SymbolicInterpreter.returns]
        at stepped
      split at stepped
      · obtain rfl := Option.some.inj stepped
        exact dormant
      · cases stepped
  | rankNonDefaultComm2 comm addr =>
      obtain rfl := Option.some.inj performed
      unfold rankNonDefaultComm2
      split
      · exact dormant
      · split <;> exact dormant
  | getMPIInfo =>
      obtain rfl := Option.some.inj performed
      exact dormant

/-- However the library goes on, it stays dormant until inputs are tracked. -/
theorem Dormant.becomes
    (dormant : crest.Dormant)
    (becomes : crest.Becomes next) :
    next.Dormant := by
  induction becomes with
  | refl =>
      exact dormant
  | tail _ moves inductionHypothesis =>
      rcases moves with ⟨here, c, performed⟩ | ⟨event, _, marked⟩
      · exact inductionHypothesis.perform performed
      · exact dormant_mark marked

/-- An uninstrumented function goes on by marking inputs. -/
theorem becomes_markInputs
    {inputs : List SymbolicInterpreter.Event}
    (marks : markInputs crest inputs = some next) :
    crest.Becomes next := by
  induction inputs generalizing crest with
  | nil =>
      obtain rfl := Option.some.inj marks
      exact .refl
  | cons event rest inductionHypothesis =>
      unfold markInputs at marks
      split at marks
      · next isMarking =>
          obtain ⟨first, marksFirst, marksRest⟩ :=
            Option.bind_eq_some_iff.mp marks
          exact .head (.inr ⟨event, isMarking, marksFirst⟩)
            (inductionHypothesis marksRest)
      · cases marks

end Dormancy

end Crest

namespace Cil.Program

variable {program : Program} {config next : Config} {choice : Choice}

/-- Every step of a program goes on with the runtime library. -/
theorem becomes_step
    (stepped : program.step config choice = some next) :
    config.crest.Becomes next.crest := by
  have left
      (left : leave config = some next) :
      config.crest.Becomes next.crest := by
    unfold leave at left
    split at left
    · cases left
    · obtain rfl := Option.some.inj left
      exact .refl
  have jumped
      {found : Option (List (Stmt Instrumented))}
      (jumped : found.map (goOn config) = some next) :
      config.crest.Becomes next.crest := by
    obtain ⟨code, _, rfl⟩ := Option.map_eq_some_iff.mp jumped
    exact .refl
  unfold step at stepped
  split at stepped
  · exact left stepped
  · obtain rfl := Option.some.inj stepped
    exact .refl
  · next sid labels i is code here =>
      unfold execute at stepped
      split at stepped
      · next c =>
          obtain ⟨crest, performed, rfl⟩ := Option.map_eq_some_iff.mp stepped
          exact .single (.inl ⟨choice.here, c, performed⟩)
      · split at stepped
        · split at stepped
          · obtain rfl := Option.some.inj stepped
            exact .refl
          · cases stepped
        · obtain ⟨crest, marks, rfl⟩ := Option.map_eq_some_iff.mp stepped
          exact Crest.becomes_markInputs marks
      · obtain rfl := Option.some.inj stepped
        exact .refl
  · exact left stepped
  · exact jumped stepped
  · exact jumped stepped
  all_goals
    obtain rfl := Option.some.inj stepped
    exact .refl

/-- Every run of a program goes on with the runtime library. -/
theorem becomes_run
    {choices : List Choice}
    (ran : PartialRun.run? program.step config choices = some next) :
    config.crest.Becomes next.crest := by
  induction choices generalizing config with
  | nil =>
      obtain rfl := Option.some.inj ran
      exact .refl
  | cons choice rest inductionHypothesis =>
      obtain ⟨middle, stepped, restRan⟩ :=
        PartialRun.run?_cons_eq_some.mp ran
      exact (becomes_step stepped).trans (inductionHypothesis restRan)

end Cil.Program

end Compi
