import Compi.InterpreterArithmetic
import Compi.InterpreterEffects

/-!
# The concolic value invariant

Along every run whose events report exact values, each symbolic expression on
the stack or in the symbolic memory evaluates, under the inputs, to the
concrete value it stands for.

Two facts about the interpreter alone carry the induction: expressions mention
only variables that are already marked, so that appending an input changes no
value, and a predicate is held only over a concrete stack top.
-/

namespace Compi

/--
A relation between expressions and values that every symbolic operation
preserves, given that the concrete operation is applied to the values.
-/
structure OperationCompatible
    (arithmetic : ExprArithmetic)
    (relates : SymbolicExpr → Value → Prop) : Prop where
  negate :
    ∀ {e c}, relates e c → relates (arithmetic.negate e) (-c)
  addConst :
    ∀ {e c} d, relates e c → relates (arithmetic.addConst e d) (c + d)
  subConst :
    ∀ {e c} d, relates e c → relates (arithmetic.subConst e d) (c - d)
  mulConst :
    ∀ {e c} d, relates e c → relates (arithmetic.mulConst e d) (c * d)
  addAssign :
    ∀ {e f c d},
      relates e c → relates f d → relates (arithmetic.addAssign e f) (c + d)
  subAssign :
    ∀ {e f c d},
      relates e c → relates f d → relates (arithmetic.subAssign e f) (c - d)

theorem varsBelow_compatible (bound : Nat) :
    OperationCompatible .exact fun e _ => e.VarsBelow bound where
  negate := fun below => below.negate
  addConst := fun d below => below.addConst d
  subConst := fun d below => below.subConst d
  mulConst := fun d below => below.mulConst d
  addAssign := fun below otherBelow => below.addAssign otherBelow
  subAssign := fun below otherBelow => below.subAssign otherBelow

theorem varsBelow_compatible_machine (bound : Nat) :
    OperationCompatible .machine fun e _ => e.VarsBelow bound where
  negate := fun below => below.wrappingNegate
  addConst := fun _ below => below
  subConst := fun _ below => below
  mulConst := fun d below => below.wrappingMulConst d
  addAssign := fun below otherBelow => below.combineCoeff otherBelow _
  subAssign := fun below otherBelow => below.combineCoeff otherBelow _

theorem eval_compatible (assignment : Var → Value) :
    OperationCompatible .exact fun e c => e.eval assignment = c where
  negate := by
    rintro e c rfl
    exact e.eval_negate assignment
  addConst := by
    rintro e c d rfl
    exact e.eval_addConst assignment d
  subConst := by
    rintro e c d rfl
    exact e.eval_subConst assignment d
  mulConst := by
    rintro e c d rfl
    rw [mul_comm]
    exact e.eval_mulConst assignment d
  addAssign := by
    rintro e f c d rfl rfl
    exact e.eval_addAssign assignment f
  subAssign := by
    rintro e f c d rfl rfl
    exact e.eval_subAssign assignment f

/-- On the machine the values of expressions are right modulo `2 ^ 64`. -/
theorem residue_compatible (assignment : Var → Value) :
    OperationCompatible .machine fun e c =>
      ((e.eval assignment : Int) : Residue) = c where
  negate := by
    intro e c same
    rw [SymbolicExpr.cast_eval] at same
    simp [ExprArithmetic.machine, SymbolicExpr.cast_eval, same]
  addConst := by
    intro e c d same
    rw [SymbolicExpr.cast_eval] at same
    simp [ExprArithmetic.machine, SymbolicExpr.cast_eval, same]
  subConst := by
    intro e c d same
    rw [SymbolicExpr.cast_eval] at same
    simp [ExprArithmetic.machine, SymbolicExpr.cast_eval, same]
  mulConst := by
    intro e c d same
    rw [SymbolicExpr.cast_eval] at same
    simp [ExprArithmetic.machine, SymbolicExpr.cast_eval, same, mul_comm]
  addAssign := by
    intro e f c d same otherSame
    rw [SymbolicExpr.cast_eval] at same otherSame
    simp [ExprArithmetic.machine, SymbolicExpr.cast_eval, same, otherSame]
  subAssign := by
    intro e f c d same otherSame
    rw [SymbolicExpr.cast_eval] at same otherSame
    simp [ExprArithmetic.machine, SymbolicExpr.cast_eval, same, otherSame]

/-- The value that a symbolic binary operator stands for. -/
def BinaryOp.result (op : BinaryOp) (a b : Value) : Value :=
  match op with
  | add => a + b
  | subtract => a - b
  | multiply => a * b
  | shiftL => a * StackElem.shiftFactor b
  | concrete => 0

namespace StackElem

/-- The expression of an element, if any, is related to its value. -/
def Related
    (relates : SymbolicExpr → Value → Prop)
    (elem : StackElem) : Prop :=
  ∀ e ∈ elem.expr, relates e elem.concrete

theorem related_of_concrete
    {relates : SymbolicExpr → Value → Prop}
    (value : Value) :
    Related relates { expr := none, concrete := value } := by
  intro e present
  cases present

section Operands

variable
  {arithmetic : ExprArithmetic}
  {relates : SymbolicExpr → Value → Prop}
  {a b : StackElem}

theorem subtractExpr_related
    (compatible : OperationCompatible arithmetic relates)
    (aRelated : a.Related relates)
    (bRelated : b.Related relates) :
    ∀ e ∈ a.subtractExprIn arithmetic b, relates e (a.concrete - b.concrete) := by
  intro e result
  simp only [subtractExprIn] at result
  split at result
  · cases result
  · next y _ rightExpr =>
      cases result
      have negated := compatible.negate (bRelated y rightExpr)
      have added := compatible.addConst a.concrete negated
      rwa [neg_add_eq_sub] at added
  · next x leftExpr _ =>
      cases result
      exact compatible.subConst b.concrete (aRelated x leftExpr)
  · next x y leftExpr rightExpr =>
      cases result
      exact compatible.subAssign (aRelated x leftExpr)
        (bRelated y rightExpr)

theorem addExpr_related
    (compatible : OperationCompatible arithmetic relates)
    (aRelated : a.Related relates)
    (bRelated : b.Related relates) :
    ∀ e ∈ a.addExprIn arithmetic b, relates e (a.concrete + b.concrete) := by
  intro e result
  simp only [addExprIn] at result
  split at result
  · cases result
  · next y _ rightExpr =>
      cases result
      have added :=
        compatible.addConst a.concrete (bRelated y rightExpr)
      rwa [add_comm] at added
  · next x leftExpr _ =>
      cases result
      exact compatible.addConst b.concrete (aRelated x leftExpr)
  · next x y leftExpr rightExpr =>
      cases result
      exact compatible.addAssign (aRelated x leftExpr)
        (bRelated y rightExpr)

theorem multiplyExpr_related
    (compatible : OperationCompatible arithmetic relates)
    (aRelated : a.Related relates)
    (bRelated : b.Related relates) :
    ∀ e ∈ a.multiplyExprIn arithmetic b, relates e (a.concrete * b.concrete) := by
  intro e result
  have scaledRight
      {y : SymbolicExpr}
      (rightExpr : b.expr = some y) :
      relates (arithmetic.mulConst y a.concrete) (a.concrete * b.concrete) := by
    have scaled := compatible.mulConst a.concrete (bRelated y rightExpr)
    rwa [mul_comm] at scaled
  simp only [multiplyExprIn] at result
  split at result
  · cases result
  · next y _ rightExpr =>
      cases result
      exact scaledRight rightExpr
  · next x leftExpr _ =>
      cases result
      exact compatible.mulConst b.concrete (aRelated x leftExpr)
  · next y _ rightExpr =>
      cases result
      exact scaledRight rightExpr

/-- The expression a binary operator leaves stands for its result. -/
theorem binaryExpr_related
    (compatible : OperationCompatible arithmetic relates)
    {op : BinaryOp}
    (aRelated : a.Related relates)
    (bRelated : b.Related relates) :
    ∀ e ∈ a.binaryExprIn arithmetic b op,
      relates e (op.result a.concrete b.concrete) := by
  cases op with
  | add =>
      exact addExpr_related compatible aRelated bRelated
  | subtract =>
      exact subtractExpr_related compatible aRelated bRelated
  | multiply =>
      exact multiplyExpr_related compatible aRelated bRelated
  | shiftL =>
      intro e result
      obtain ⟨x, leftExpr, same⟩ :=
        Option.map_eq_some_iff.mp (show a.shiftLExprIn arithmetic b = some e from result)
      exact same ▸ compatible.mulConst _ (aRelated x leftExpr)
  | concrete =>
      intro e result
      cases result

end Operands

end StackElem

namespace SymbolicInterpreter

section Marking

/-- The effect of a marking call on everything but the recorded lists. -/
structure Marked
    (si : SymbolicInterpreter)
    (addr : Addr)
    (ret : Value)
    (next : SymbolicInterpreter) : Prop where
  stack : next.stack = si.stack
  returnValue : next.returnValue = si.returnValue
  pred : next.pred = si.pred
  mem : next.mem = si.mem.insert addr (.ofTerm 1 si.numInputs)
  numInputs : next.numInputs = si.numInputs + 1
  inputs :
    next.ex.inputs =
      if si.numInputs < si.ex.inputs.length then
        si.ex.inputs.set si.numInputs ret
      else
        si.ex.inputs ++ [ret]

variable {si next : SymbolicInterpreter} {addr : Addr} {ret : Value}

/-- What a marking call records includes the common effect. -/
theorem Records.marked
    {marking : Marking}
    (records : Records si marking ret next) :
    Marked si marking.addr ret next where
  stack := records.stack
  returnValue := records.returnValue
  pred := records.pred
  mem := records.mem
  numInputs := records.numInputs
  inputs := records.inputs

/-- Every marking call has the common effect. -/
theorem marked_of_marking?
    {event : Event}
    (marks : si.marking? event = some (addr, some (ret, next))) :
    Marked si addr ret next := by
  have sameAddr := marking?_map_fst si event
  rw [marks] at sameAddr
  obtain ⟨marking, isMarking, rfl⟩ :=
    Option.map_eq_some_iff.mp sameAddr.symm
  have isMarked :
      (si.marking? event).bind Prod.snd = some (ret, next) := by
    rw [marks]
    rfl
  obtain ⟨returned, records⟩ := records_of_marking isMarking isMarked
  rw [← returned] at records
  exact records.marked

theorem Marked.inputsCover
    (marked : Marked si addr ret next)
    (covered : si.numInputs ≤ si.ex.inputs.length) :
    next.numInputs ≤ next.ex.inputs.length := by
  have isInputs : next.ex.inputs = si.inputsAfter ret := marked.inputs
  rw [marked.numInputs, isInputs, length_inputsAfter covered]
  exact le_max_right _ _

/-- A marking call leaves the values of the earlier variables alone. -/
theorem Marked.assignment_agree
    (marked : Marked si addr ret next)
    {v : Var}
    (covered : si.numInputs ≤ si.ex.inputs.length)
    (earlier : v < si.numInputs) :
    assignmentOf next.ex.inputs v = assignmentOf si.ex.inputs v := by
  have isInputs : next.ex.inputs = si.inputsAfter ret := marked.inputs
  have isOld : v ≠ si.numInputs := Nat.ne_of_lt earlier
  rw [assignmentOf, assignmentOf, List.getD_eq_getElem?_getD,
    List.getD_eq_getElem?_getD, isInputs,
    getElem?_inputsAfter_old covered isOld]

/-- A marking call returns the input of the new variable. -/
theorem Marked.assignment_new
    (marked : Marked si addr ret next)
    (covered : si.numInputs ≤ si.ex.inputs.length) :
    assignmentOf next.ex.inputs si.numInputs = ret := by
  have isInputs : next.ex.inputs = si.inputsAfter ret := marked.inputs
  rw [assignmentOf, List.getD_eq_getElem?_getD, isInputs,
    getElem?_inputsAfter_new covered]
  rfl

end Marking

end SymbolicInterpreter

/-- An interpreter with the value last stored at or marked for an address. -/
structure Tracked where
  si : SymbolicInterpreter
  last : Addr → Option Value

namespace Tracked

open SymbolicInterpreter

/-- A fresh interpreter, before anything is stored or marked. -/
def fresh
    (input : List Value)
    (execTimes : Nat)
    (rank targetRank worldSize : Int) : Tracked where
  si := SymbolicInterpreter.fresh input execTimes rank targetRank worldSize
  last := fun _ => none

/-- The address and the value that an event stores or marks. -/
def written? (t : Tracked) (event : Event) : Option (Addr × Value) :=
  match event with
  | .store addr => t.si.stack.head?.map fun se => (addr, se.concrete)
  | _ =>
      match t.si.marking? event with
      | some (addr, some (ret, _)) => some (addr, ret)
      | _ => none

/-- The values after an event. -/
def lastAfter (t : Tracked) (event : Event) : Addr → Option Value :=
  match t.written? event with
  | some (addr, value) => Function.update t.last addr (some value)
  | none => t.last

/-- One event of the interpreter, with the values it stores. -/
def step (t : Tracked) (event : Event) : Option Tracked :=
  (t.si.step event).map fun next =>
    { si := next, last := t.lastAfter event }

/-- One event of the interpreter over an arithmetic. -/
def stepIn
    (arithmetic : ExprArithmetic)
    (t : Tracked)
    (event : Event) : Option Tracked :=
  (t.si.stepIn arithmetic event).map fun next =>
    { si := next, last := t.lastAfter event }

@[simp] theorem stepIn_exact (t : Tracked) (event : Event) :
    t.stepIn .exact event = t.step event := by
  simp [stepIn, step]

/--
Every stack element is related to its value, and every expression in memory
to the value last stored at its address.
-/
structure Related
    (relates : SymbolicExpr → Value → Prop)
    (t : Tracked) : Prop where
  stack : ∀ elem ∈ t.si.stack, elem.Related relates
  mem :
    ∀ addr e,
      t.si.mem[addr]? = some e →
      ∃ value, t.last addr = some value ∧ relates e value

/-- The relation does not tell the passed value from the computed one. -/
def Passes
    (arithmetic : ExprArithmetic)
    (relates : SymbolicExpr → Value → Prop)
    (t : Tracked) : Event → Prop
  | .load addr value =>
      ∀ stored e,
        t.last addr = some stored → relates e stored → relates e value
  | .applyUnaryOp op value =>
      ∀ se rest e,
        t.si.stack = se :: rest →
        op = .negate →
        relates e (-se.concrete) →
        relates e value
  | .applyBinaryOp op value =>
      ∀ b a rest e,
        t.si.stack = b :: a :: rest →
        a.binaryExprIn arithmetic b op = some e →
        relates e (op.result a.concrete b.concrete) →
        relates e value
  | _ => True

section StackEvents

variable
  {arithmetic : ExprArithmetic}
  {relates : SymbolicExpr → Value → Prop}
  {t : Tracked}
  {next : SymbolicInterpreter}

/-- An event that writes no memory only has to relate the new elements. -/
theorem Related.of_stack
    (related : t.Related relates)
    (sameMem : next.mem = t.si.mem)
    (stack :
      ∀ elem ∈ next.stack,
        elem ∈ t.si.stack ∨ elem.Related relates) :
    Related relates { si := next, last := t.last } where
  stack := by
    intro elem member
    rcases stack elem member with old | fresh
    · exact related.stack elem old
    · exact fresh
  mem := by
    intro addr e held
    exact related.mem addr e (sameMem ▸ held)

/-- An event that writes no memory and leaves one new element on old ones. -/
theorem Related.of_push
    (related : t.Related relates)
    (sameMem : next.mem = t.si.mem)
    {top : StackElem}
    {rest : List StackElem}
    (stack : next.stack = top :: rest)
    (kept : ∀ elem ∈ rest, elem ∈ t.si.stack)
    (topRelated : top.Related relates) :
    Related relates { si := next, last := t.last } := by
  refine related.of_stack sameMem ?_
  intro elem member
  rw [stack] at member
  rcases List.mem_cons.mp member with rfl | old
  · exact Or.inr topRelated
  · exact Or.inl (kept elem old)

theorem Related.load
    (related : t.Related relates)
    {addr : Addr}
    {value : Value}
    (passes : t.Passes arithmetic relates (.load addr value)) :
    Related relates { si := t.si.load addr value, last := t.last } := by
  refine related.of_push rfl rfl (fun elem old => old) ?_
  intro e held
  obtain ⟨stored, lastStored, relatesStored⟩ :=
    related.mem addr e held
  exact passes stored e lastStored relatesStored

theorem Related.store
    (related : t.Related relates)
    {addr : Addr}
    (stored : t.si.store addr = some next) :
    Related relates
      { si := next, last := t.lastAfter (.store addr) } := by
  cases stackShape : t.si.stack with
  | nil =>
      simp [SymbolicInterpreter.store, stackShape] at stored
  | cons se rest =>
      have lastNow :
          t.lastAfter (.store addr) =
            Function.update t.last addr (some se.concrete) := by
        simp [lastAfter, written?, stackShape]
      have topRelated : se.Related relates :=
        related.stack se (by simp [stackShape])
      simp only [SymbolicInterpreter.store, stackShape,
        Option.some.injEq] at stored
      subst next
      constructor
      · intro elem member
        exact related.stack elem (by simp [stackShape, member])
      · intro query e held
        rw [lastNow]
        by_cases same : query = addr
        · subst query
          refine ⟨se.concrete, by simp, ?_⟩
          cases topExpr : se.expr with
          | none =>
              simp [topExpr] at held
          | some top =>
              by_cases constant : top.isConcrete
              · simp [topExpr, constant] at held
              · have isTop : top = e := by
                  simpa [topExpr, constant] using held
                exact isTop ▸ topRelated top topExpr
        · have kept : t.si.mem[query]? = some e := by
            cases topExpr : se.expr with
            | none =>
                simpa [topExpr, Std.ExtTreeMap.getElem?_erase,
                  Ne.symm same] using held
            | some top =>
                by_cases constant : top.isConcrete
                · simpa [topExpr, constant,
                    Std.ExtTreeMap.getElem?_erase, Ne.symm same]
                    using held
                · simpa [topExpr, constant,
                    Std.ExtTreeMap.getElem?_insert, Ne.symm same]
                    using held
          obtain ⟨value, lastStored, relatesStored⟩ :=
            related.mem query e kept
          exact ⟨value, by simp [same, lastStored], relatesStored⟩

theorem Related.applyUnaryOp
    (compatible : OperationCompatible arithmetic relates)
    (related : t.Related relates)
    (overConcrete :
      ∀ p se rest,
        t.si.pred = some p → t.si.stack = se :: rest → se.expr = none)
    {op : UnaryOp}
    {value : Value}
    (passes : t.Passes arithmetic relates (.applyUnaryOp op value))
    (applied : t.si.applyUnaryOpIn arithmetic op value = some next) :
    Related relates { si := next, last := t.last } := by
  cases stackShape : t.si.stack with
  | nil =>
      simp [SymbolicInterpreter.applyUnaryOpIn, stackShape] at applied
  | cons se rest =>
      have restOld : ∀ elem ∈ rest, elem ∈ t.si.stack := by
        intro elem member
        simp [stackShape, member]
      simp only [SymbolicInterpreter.applyUnaryOpIn, stackShape] at applied
      split at applied
      · next concreteTop =>
          cases applied
          refine related.of_push rfl rfl restOld ?_
          intro e held
          simp [concreteTop] at held
      · next e topExpr =>
          cases applied
          refine related.of_push rfl rfl restOld ?_
          intro negated held
          cases held
          have topRelated : relates e se.concrete :=
            related.stack se (by simp [stackShape]) e topExpr
          exact passes se rest (arithmetic.negate e) stackShape rfl
            (compatible.negate topRelated)
      · next e p topExpr held =>
          -- The register is never set over a symbolic top.
          have concreteTop := overConcrete p se rest held stackShape
          simp [concreteTop] at topExpr
      · cases applied
        exact
          related.of_push rfl rfl restOld
            (StackElem.related_of_concrete value)

theorem Related.applyBinaryOp
    (compatible : OperationCompatible arithmetic relates)
    (related : t.Related relates)
    {op : BinaryOp}
    {value : Value}
    (passes : t.Passes arithmetic relates (.applyBinaryOp op value))
    (applied : t.si.applyBinaryOpIn arithmetic op value = some next) :
    Related relates { si := next, last := t.last } := by
  unfold SymbolicInterpreter.applyBinaryOpIn at applied
  split at applied
  · next b a rest stackShape =>
      cases applied
      have restOld : ∀ elem ∈ rest, elem ∈ t.si.stack := by
        intro elem member
        simp [stackShape, member]
      refine related.of_push rfl rfl restOld ?_
      intro e result
      have aRelated : a.Related relates :=
        related.stack a (by simp [stackShape])
      have bRelated : b.Related relates :=
        related.stack b (by simp [stackShape])
      exact passes b a rest e stackShape result
        (StackElem.binaryExpr_related compatible
          aRelated bRelated e result)
  · cases applied

theorem Related.applyCompareOp
    (related : t.Related relates)
    {op : CompareOp}
    {value : Value}
    (applied : t.si.applyCompareOpIn arithmetic op value = some next) :
    Related relates { si := next, last := t.last } := by
  unfold SymbolicInterpreter.applyCompareOpIn at applied
  split at applied
  · next b a rest stackShape =>
      cases applied
      have restOld : ∀ elem ∈ rest, elem ∈ t.si.stack := by
        intro elem member
        simp [stackShape, member]
      exact
        related.of_push rfl rfl restOld (StackElem.related_of_concrete value)
  · cases applied

theorem Related.returns
    (related : t.Related relates)
    (returned : t.si.returns = some next) :
    Related relates { si := next, last := t.last } := by
  unfold SymbolicInterpreter.returns at returned
  split at returned
  · cases returned
    exact related.of_stack rfl fun elem member => Or.inl member
  · cases returned

theorem Related.handleReturn
    (related : t.Related relates)
    {value : Value}
    (handled : t.si.handleReturn value = some next) :
    Related relates { si := next, last := t.last } := by
  unfold SymbolicInterpreter.handleReturn at handled
  split at handled
  · split at handled
    · cases handled
      exact related.of_stack rfl fun elem member => Or.inl member
    · cases handled
  · cases handled
    exact
      related.of_push rfl rfl (List.forall_mem_nil _)
        (StackElem.related_of_concrete value)

/-- A marking call relates the new variable to the value it returns. -/
theorem Related.marked
    {relatesNext : SymbolicExpr → Value → Prop}
    {addr : Addr}
    {ret : Value}
    (related : t.Related relates)
    (marked : t.si.Marked addr ret next)
    (keeps : ∀ e c, relates e c → relatesNext e c)
    (relatesNew : relatesNext (.ofTerm 1 t.si.numInputs) ret) :
    Related relatesNext
      { si := next
        last := Function.update t.last addr (some ret) } where
  stack := by
    intro elem member e held
    rw [marked.stack] at member
    exact keeps e elem.concrete (related.stack elem member e held)
  mem := by
    intro query e held
    rw [marked.mem, Std.ExtTreeMap.getElem?_insert] at held
    by_cases same : query = addr
    · subst query
      have isNew : SymbolicExpr.ofTerm 1 t.si.numInputs = e := by
        simpa using held
      exact ⟨ret, by simp, isNew ▸ relatesNew⟩
    · have kept : t.si.mem[query]? = some e := by
        simpa [Ne.symm same] using held
      obtain ⟨value, lastStored, relatesStored⟩ :=
        related.mem query e kept
      exact ⟨value, by simp [same, lastStored],
        keeps e value relatesStored⟩

end StackEvents

section Steps

variable
  {arithmetic : ExprArithmetic}
  {t next : Tracked}
  {event : Event}

/-- An event that marks nothing keeps the inputs. -/
theorem inputs_of_unmarked
    (unmarked : t.si.marking? event = none)
    (stepped : t.step event = some next) :
    next.si.ex.inputs = t.si.ex.inputs ∧
      next.si.numInputs = t.si.numInputs := by
  obtain ⟨si, siStepped, rfl⟩ := Option.map_eq_some_iff.mp stepped
  have marksNothing :=
    SymbolicInterpreter.marking_of_marking?_eq_none unmarked
  obtain ⟨keeps, _⟩ :=
    SymbolicInterpreter.keepsRecord_of_step marksNothing siStepped
  refine ⟨?_, keeps.numInputs⟩
  rw [keeps.ex]

/-- A marking event has the common effect and stores what it returns. -/
theorem marked_of_step
    {addr : Addr}
    {result : Option (Value × SymbolicInterpreter)}
    (marks : t.si.marking? event = some (addr, result))
    (stepped : t.step event = some next) :
    ∃ ret,
      t.si.Marked addr ret next.si ∧
        next.last = Function.update t.last addr (some ret) := by
  obtain ⟨si, siStepped, rfl⟩ := Option.map_eq_some_iff.mp stepped
  have written :
      t.written? event =
        match t.si.marking? event with
        | some (addr, some (ret, _)) => some (addr, ret)
        | _ => none := by
    cases event <;> first | rfl | cases marks
  rw [SymbolicInterpreter.step_of_marking? marks] at siStepped
  obtain ⟨⟨ret, marked⟩, returned, rfl⟩ :=
    Option.map_eq_some_iff.mp siStepped
  have isResult : result = some (ret, marked) := returned
  subst result
  refine ⟨ret, SymbolicInterpreter.marked_of_marking? marks, ?_⟩
  simp [lastAfter, written, marks]

/-- The arithmetic makes no difference to a marking event. -/
theorem stepIn_of_marking?
    {addr : Addr}
    {result : Option (Value × SymbolicInterpreter)}
    (marks : t.si.marking? event = some (addr, result)) :
    t.stepIn arithmetic event = t.step event := by
  cases event <;> first | rfl | cases marks

/-- Over every arithmetic an event that marks nothing keeps the inputs. -/
theorem inputs_stepIn_of_unmarked
    (unmarked : t.si.marking? event = none)
    (stepped : t.stepIn arithmetic event = some next) :
    next.si.ex.inputs = t.si.ex.inputs ∧
      next.si.numInputs = t.si.numInputs := by
  have isStep := stepped
  obtain ⟨si, siStepped, rfl⟩ := Option.map_eq_some_iff.mp stepped
  cases event with
  | applyUnaryOp op value =>
      simp only [SymbolicInterpreter.stepIn,
        SymbolicInterpreter.applyUnaryOpIn] at siStepped
      split at siStepped
      · cases siStepped
      · split at siStepped <;> cases siStepped <;> exact ⟨rfl, rfl⟩
  | applyBinaryOp op value =>
      simp only [SymbolicInterpreter.stepIn,
        SymbolicInterpreter.applyBinaryOpIn] at siStepped
      split at siStepped <;> cases siStepped
      exact ⟨rfl, rfl⟩
  | applyCompareOp op value =>
      simp only [SymbolicInterpreter.stepIn,
        SymbolicInterpreter.applyCompareOpIn] at siStepped
      split at siStepped <;> cases siStepped
      exact ⟨rfl, rfl⟩
  | _ =>
      exact inputs_of_unmarked unmarked isStep

/-- Relating elements to values survives an event that marks nothing. -/
theorem Related.stepIn_of_unmarked
    {relates : SymbolicExpr → Value → Prop}
    (compatible : OperationCompatible arithmetic relates)
    (related : t.Related relates)
    (overConcrete :
      ∀ p se rest,
        t.si.pred = some p → t.si.stack = se :: rest → se.expr = none)
    (passes : t.Passes arithmetic relates event)
    (unmarked : t.si.marking? event = none)
    (stepped : t.stepIn arithmetic event = some next) :
    next.Related relates := by
  obtain ⟨si, siStepped, rfl⟩ := Option.map_eq_some_iff.mp stepped
  cases event with
  | clearStack =>
      cases siStepped
      refine related.of_stack rfl ?_
      intro elem member
      cases member
  | load addr value =>
      cases siStepped
      exact related.load passes
  | store addr =>
      exact related.store siStepped
  | applyUnaryOp op value =>
      exact related.applyUnaryOp compatible overConcrete passes siStepped
  | applyBinaryOp op value =>
      exact related.applyBinaryOp compatible passes siStepped
  | applyCompareOp op value =>
      exact related.applyCompareOp siStepped
  | call fid =>
      cases siStepped
      exact related.of_stack rfl fun elem member => Or.inl member
  | returns =>
      exact related.returns siStepped
  | handleReturn value =>
      exact related.handleReturn siStepped
  | branch bid predValue =>
      cases siStepped
      refine related.of_stack rfl ?_
      intro elem member
      cases member
  | branchOnly bid =>
      cases siStepped
      exact related.of_stack rfl fun elem member => Or.inl member
  | _ =>
      cases unmarked

end Steps

section Structure

/--
What holds of every reachable interpreter whatever values are passed:
expressions mention only marked variables, every marked variable has an
input, and a predicate is held only over a concrete stack top.
-/
structure WellFormed (t : Tracked) : Prop where
  inputsCover : t.si.numInputs ≤ t.si.ex.inputs.length
  varsBelow : t.Related fun e _ => e.VarsBelow t.si.numInputs
  predicate :
    ∀ p,
      t.si.pred = some p →
      p.expr.VarsBelow t.si.numInputs ∧
        ∃ se rest, t.si.stack = se :: rest ∧ se.expr = none

theorem wellFormed_fresh
    (input : List Value)
    (execTimes : Nat)
    (rank targetRank worldSize : Int) :
    (fresh input execTimes rank targetRank worldSize).WellFormed where
  inputsCover := Nat.zero_le _
  varsBelow :=
    { stack := by
        intro elem member
        cases member
      mem := by
        intro addr e held
        simp [fresh, SymbolicInterpreter.fresh] at held }
  predicate := by
    intro p held
    cases held

variable
  {arithmetic : ExprArithmetic}
  {t next : Tracked}
  {event : Event}

theorem WellFormed.overConcrete
    (wellFormed : t.WellFormed)
    (p : SymbolicPred)
    (se : StackElem)
    (rest : List StackElem)
    (held : t.si.pred = some p)
    (stackShape : t.si.stack = se :: rest) :
    se.expr = none := by
  obtain ⟨_, top, below, topShape, concreteTop⟩ :=
    wellFormed.predicate p held
  rw [topShape] at stackShape
  cases stackShape
  exact concreteTop

/-- The register after an event that marks nothing. -/
private theorem WellFormed.predicate_of_unmarked
    (wellFormed : t.WellFormed)
    (compatible :
      ∀ bound,
        OperationCompatible arithmetic fun e _ => e.VarsBelow bound)
    (unmarked : t.si.marking? event = none)
    (stepped : t.stepIn arithmetic event = some next)
    (p : SymbolicPred)
    (held : next.si.pred = some p) :
    p.expr.VarsBelow t.si.numInputs ∧
      ∃ se rest, next.si.stack = se :: rest ∧ se.expr = none := by
  obtain ⟨si, siStepped, rfl⟩ := Option.map_eq_some_iff.mp stepped
  cases event with
  | clearStack | load | branch =>
      cases siStepped
      cases held
  | call fid =>
      cases siStepped
      exact wellFormed.predicate p held
  | branchOnly bid =>
      cases siStepped
      exact wellFormed.predicate p held
  | store addr =>
      simp only [SymbolicInterpreter.stepIn, SymbolicInterpreter.step,
        SymbolicInterpreter.store] at siStepped
      split at siStepped <;> cases siStepped
      cases held
  | applyUnaryOp op value =>
      simp only [SymbolicInterpreter.stepIn,
        SymbolicInterpreter.applyUnaryOpIn] at siStepped
      split at siStepped
      · cases siStepped
      · next se rest stackShape =>
          split at siStepped
          · next concreteTop =>
              cases siStepped
              exact ⟨(wellFormed.predicate p held).1,
                _, rest, rfl, concreteTop⟩
          · cases siStepped
            cases held
          · next e old topExpr heldOld =>
              have concreteTop :=
                wellFormed.overConcrete old se rest heldOld stackShape
              simp [concreteTop] at topExpr
          · cases siStepped
            cases held
  | applyBinaryOp op value =>
      simp only [SymbolicInterpreter.stepIn,
        SymbolicInterpreter.applyBinaryOpIn] at siStepped
      split at siStepped <;> cases siStepped
      cases held
  | applyCompareOp op value =>
      simp only [SymbolicInterpreter.stepIn,
        SymbolicInterpreter.applyCompareOpIn] at siStepped
      split at siStepped
      · next b a rest stackShape =>
          cases siStepped
          refine ⟨?_, _, rest, rfl, rfl⟩
          have aBelow := wellFormed.varsBelow.stack a (by simp [stackShape])
          have bBelow := wellFormed.varsBelow.stack b (by simp [stackShape])
          have differenceBelow :=
            StackElem.subtractExpr_related (compatible _) aBelow bBelow
          cases difference : a.subtractExprIn arithmetic b with
          | none =>
              simp only [difference] at held
              exact (wellFormed.predicate p held).1
          | some e =>
              simp only [difference] at held
              split at held
              · cases held
              · cases held
                exact differenceBelow e difference
      · cases siStepped
  | returns =>
      simp only [SymbolicInterpreter.stepIn, SymbolicInterpreter.step,
        SymbolicInterpreter.returns] at siStepped
      split at siStepped <;> cases siStepped
      exact wellFormed.predicate p held
  | handleReturn value =>
      simp only [SymbolicInterpreter.stepIn, SymbolicInterpreter.step,
        SymbolicInterpreter.handleReturn] at siStepped
      split at siStepped
      · split at siStepped <;> cases siStepped
        exact wellFormed.predicate p held
      · cases siStepped
        cases held
  | _ =>
      cases unmarked

/-- Every event keeps the interpreter well formed, over every arithmetic. -/
theorem WellFormed.stepIn
    (wellFormed : t.WellFormed)
    (compatible :
      ∀ bound,
        OperationCompatible arithmetic fun e _ => e.VarsBelow bound)
    (stepped : t.stepIn arithmetic event = some next) :
    next.WellFormed := by
  cases marks : t.si.marking? event with
  | none =>
      obtain ⟨sameInputs, sameCount⟩ := inputs_stepIn_of_unmarked marks stepped
      refine ⟨?_, ?_, ?_⟩
      · rw [sameInputs, sameCount]
        exact wellFormed.inputsCover
      · rw [sameCount]
        have passes :
            t.Passes arithmetic (fun e _ => e.VarsBelow t.si.numInputs)
              event := by
          cases event with
          | load =>
              exact fun _ _ _ below => below
          | applyUnaryOp =>
              exact fun _ _ _ _ _ below => below
          | applyBinaryOp =>
              exact fun _ _ _ _ _ _ below => below
          | _ =>
              trivial
        exact wellFormed.varsBelow.stepIn_of_unmarked (compatible _)
          wellFormed.overConcrete passes marks stepped
      · intro p held
        rw [sameCount]
        exact
          wellFormed.predicate_of_unmarked compatible marks stepped p held
  | some marked =>
      obtain ⟨addr, result⟩ := marked
      rw [stepIn_of_marking? marks] at stepped
      obtain ⟨ret, marked, lastNow⟩ := marked_of_step marks stepped
      have larger : t.si.numInputs ≤ next.si.numInputs := by
        rw [marked.numInputs]
        exact Nat.le_succ _
      refine ⟨marked.inputsCover wellFormed.inputsCover, ?_, ?_⟩
      · obtain ⟨si, last⟩ := next
        subst lastNow
        apply wellFormed.varsBelow.marked marked
        · intro e _ below
          exact below.mono larger
        · apply SymbolicExpr.varsBelow_ofTerm
          rw [marked.numInputs]
          exact Nat.lt_succ_self _
      · intro p held
        rw [marked.pred] at held
        rw [marked.stack]
        obtain ⟨below, concreteTop⟩ := wellFormed.predicate p held
        exact ⟨below.mono larger, concreteTop⟩

theorem WellFormed.step
    (wellFormed : t.WellFormed)
    (stepped : t.step event = some next) :
    next.WellFormed :=
  wellFormed.stepIn varsBelow_compatible
    ((stepIn_exact t event).trans stepped)

end Structure

section Values

/--
Each load passes the value last stored at or marked for its address, and each
operator is applied exactly.  An operator without a symbolic counterpart may
pass any value, and shifts are left out.
-/
def ValuesExact (t : Tracked) : Event → Prop
  | .load addr value =>
      ∀ stored, t.last addr = some stored → value = stored
  | .applyUnaryOp op value =>
      ∀ se rest,
        t.si.stack = se :: rest →
        op = .negate →
        value = -se.concrete
  | .applyBinaryOp op value =>
      op ≠ .shiftL ∧
        ∀ b a rest,
          t.si.stack = b :: a :: rest →
          op ≠ .concrete →
          value = op.result a.concrete b.concrete
  | _ => True

/--
The concolic value invariant: every expression on the stack, and every one in
memory, is over variables that have inputs, and evaluates under the inputs to
the value it stands for.
-/
def ConcolicValues (t : Tracked) : Prop :=
  t.Related fun e c =>
    (∀ v ∈ e.vars, v < t.si.ex.inputs.length) ∧
      e.eval (assignmentOf t.si.ex.inputs) = c

/--
What ties expressions to values under an assignment: the operations keep it, it
depends on the variables that occur, and it holds of a new variable.
-/
structure ValueRelation
    (arithmetic : ExprArithmetic)
    (relates : (Var → Value) → SymbolicExpr → Value → Prop) : Prop where
  compatible :
    ∀ assignment, OperationCompatible arithmetic (relates assignment)
  congr :
    ∀ {left right : Var → Value} {e c},
      (∀ v ∈ e.vars, left v = right v) → relates left e c → relates right e c
  marked :
    ∀ (assignment : Var → Value) v,
      relates assignment (.ofTerm 1 v) (assignment v)

theorem valueRelation_exact :
    ValueRelation .exact fun assignment e c => e.eval assignment = c where
  compatible := eval_compatible
  congr := fun agree evaluated =>
    (SymbolicExpr.eval_congr agree).symm.trans evaluated
  marked := fun assignment v => by
    rw [SymbolicExpr.eval_ofTerm, one_mul]

theorem valueRelation_machine :
    ValueRelation .machine fun assignment e c =>
      ((e.eval assignment : Int) : Residue) = c where
  compatible := residue_compatible
  congr := fun agree evaluated => by
    rw [← SymbolicExpr.eval_congr agree]
    exact evaluated
  marked := fun assignment v => by
    rw [SymbolicExpr.eval_ofTerm, one_mul]

variable
  {arithmetic : ExprArithmetic}
  {t next : Tracked}
  {event : Event}

private theorem passes_of_exact
    (exact : t.ValuesExact event)
    (relates : SymbolicExpr → Value → Prop) :
    t.Passes arithmetic relates event := by
  cases event with
  | load addr value =>
      intro stored e lastStored evaluated
      rw [exact stored lastStored]
      exact evaluated
  | applyUnaryOp op value =>
      intro se rest e stackShape isNegate evaluated
      rw [exact se rest stackShape isNegate]
      exact evaluated
  | applyBinaryOp op value =>
      intro b a rest e stackShape result evaluated
      have symbolic : op ≠ .concrete := by
        rintro rfl
        cases result
      rw [exact.2 b a rest stackShape symbolic]
      exact evaluated
  | _ =>
      trivial

theorem Related.and
    {left right : SymbolicExpr → Value → Prop}
    (leftRelated : t.Related left)
    (rightRelated : t.Related right) :
    t.Related fun e c => left e c ∧ right e c where
  stack := by
    intro elem member e held
    exact ⟨leftRelated.stack elem member e held,
      rightRelated.stack elem member e held⟩
  mem := by
    intro addr e held
    obtain ⟨value, lastStored, leftHolds⟩ := leftRelated.mem addr e held
    obtain ⟨other, otherStored, rightHolds⟩ :=
      rightRelated.mem addr e held
    have same : value = other := by
      simpa [lastStored] using otherStored
    exact ⟨value, lastStored, leftHolds, same ▸ rightHolds⟩

theorem Related.mono
    {left right : SymbolicExpr → Value → Prop}
    (related : t.Related left)
    (weaken : ∀ e c, left e c → right e c) :
    t.Related right where
  stack := by
    intro elem member e held
    exact weaken e _ (related.stack elem member e held)
  mem := by
    intro addr e held
    obtain ⟨value, lastStored, holds⟩ := related.mem addr e held
    exact ⟨value, lastStored, weaken e value holds⟩

/-- Exact events keep every expression tied to its value. -/
theorem ValueRelation.step
    {relates : (Var → Value) → SymbolicExpr → Value → Prop}
    (relation : ValueRelation arithmetic relates)
    (wellFormed : t.WellFormed)
    (related : t.Related (relates (assignmentOf t.si.ex.inputs)))
    (exact : t.ValuesExact event)
    (stepped : t.stepIn arithmetic event = some next) :
    next.Related (relates (assignmentOf next.si.ex.inputs)) := by
  cases marks : t.si.marking? event with
  | none =>
      rw [(inputs_stepIn_of_unmarked marks stepped).1]
      exact
        related.stepIn_of_unmarked (relation.compatible _)
          wellFormed.overConcrete (passes_of_exact exact _) marks stepped
  | some marked =>
      obtain ⟨addr, result⟩ := marked
      rw [stepIn_of_marking? marks] at stepped
      obtain ⟨ret, marked, lastNow⟩ := marked_of_step marks stepped
      obtain ⟨si, last⟩ := next
      subst lastNow
      have covered := wellFormed.inputsCover
      apply (wellFormed.varsBelow.and related).marked marked
      · rintro e c ⟨below, evaluated⟩
        refine relation.congr ?_ evaluated
        intro v occurs
        exact (marked.assignment_agree covered (below v occurs)).symm
      · have isNew := relation.marked (assignmentOf si.ex.inputs) t.si.numInputs
        rwa [marked.assignment_new covered] at isNew

/-- A well formed state whose expressions evaluate to their values. -/
structure ExactInvariant (t : Tracked) : Prop where
  wellFormed : t.WellFormed
  evaluates :
    t.Related fun e c => e.eval (assignmentOf t.si.ex.inputs) = c

theorem exactInvariant_fresh
    (input : List Value)
    (execTimes : Nat)
    (rank targetRank worldSize : Int) :
    (fresh input execTimes rank targetRank worldSize).ExactInvariant where
  wellFormed := wellFormed_fresh input execTimes rank targetRank worldSize
  evaluates :=
    { stack := by
        intro elem member
        cases member
      mem := by
        intro addr e held
        simp [fresh, SymbolicInterpreter.fresh] at held }

theorem ExactInvariant.step
    (invariant : t.ExactInvariant)
    (exact : t.ValuesExact event)
    (stepped : t.step event = some next) :
    next.ExactInvariant where
  wellFormed := invariant.wellFormed.step stepped
  evaluates :=
    valueRelation_exact.step invariant.wellFormed invariant.evaluates exact
      ((stepIn_exact t event).trans stepped)

theorem ExactInvariant.concolicValues
    (invariant : t.ExactInvariant) :
    t.ConcolicValues := by
  apply (invariant.wellFormed.varsBelow.and invariant.evaluates).mono
  rintro e c ⟨below, evaluated⟩
  refine ⟨?_, evaluated⟩
  intro v occurs
  exact lt_of_lt_of_le (below v occurs) invariant.wellFormed.inputsCover

/-- Exact events keep the concolic value invariant all along a run. -/
theorem concolicValues_along
    {events : List Event}
    (invariant : t.ExactInvariant)
    (exact : PartialRun.Along Tracked.step ValuesExact t events) :
    PartialRun.Along Tracked.step (fun state _ => state.ConcolicValues)
      t events := by
  apply PartialRun.along_of_invariant _ _ invariant exact
  · intro state event after holds exactEvent stepped
    exact holds.step exactEvent stepped
  · intro state event holds _
    exact holds.concolicValues

end Values

end Tracked

end Compi
