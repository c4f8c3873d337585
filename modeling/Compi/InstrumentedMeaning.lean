import Compi.InstrumentationErasure
import Compi.RefinedStatements

/-!
# The meaning of instrumented functions

Both instrumenters refine a function: its own instructions do what they did, and
the calls of the runtime library change nothing that they see, except that a
call which marks a variable overwrites it in front of the call that sets it.
-/

namespace Compi.Cil

section Normalizing

variable
  {State R : Type}
  {machine : Machine Instr State R}

theorem views_id (machine : Machine Instr State R) : Views machine machine id where
  evaluation := fun _ => rfl
  jump := fun _ _ => rfl

/-- Instructions that stay as they are. -/
theorem replacesAll_refl (is : List Instr) :
    ReplacesAll machine machine id is is := by
  have same (i : Instr) : Replaces machine machine id i [i] := by
    constructor
    · exact List.cons_ne_nil i []
    · intro state
      exact seen_id _
  induction is with
  | nil =>
      exact .nil
  | cons i is inductionHypothesis =>
      exact .cons (same i) inductionHypothesis

variable [LinearOrder R]

/-- Conditions in which no negation meets a comparison of unordered operands. -/
def OrderedConditions
    (machine : Machine Instr State R)
    (text : List (Token Instr)) : Prop :=
  ∀ condition, .ite condition ∈ text →
    ∀ state, OrderedWhereNegated (machine.evaluation state) condition false

/-- An empty block gets a statement that does nothing. -/
theorem refines_nonempty
    {b text : Block Instr}
    (refines :
      ∀ startId, RefinesBlock machine machine id b (text.number startId).2)
    (startId : Int) :
    RefinesBlock machine machine id b ((nonempty text).number startId).2 := by
  cases text with
  | nil =>
      exact .silent (silent_nil machine id) (refines startId)
  | cons s rest =>
      exact refines startId

mutual

/-- Normalizing conditions and numbering statements refines a statement. -/
theorem refines_normalizeStmt
    (s : Stmt Instr)
    (ordered : OrderedConditions machine s.text)
    (startId : Int) :
    RefinesStmt machine machine id s (s.normalize.number startId).2 := by
  cases s with
  | instr sid labels is =>
      exact .instr (replacesAll_refl is)
  | ret sid labels value =>
      exact .ret
  | goto sid labels target =>
      exact .goto
  | computedGoto sid labels target =>
      exact .computedGoto
  | ite sid labels condition thenBlock elseBlock =>
      have inThen : OrderedConditions machine thenBlock.text := by
        intro condition member
        exact ordered condition (by simp [Stmt.text, member])
      have inElse : OrderedConditions machine elseBlock.text := by
        intro condition member
        exact ordered condition (by simp [Stmt.text, member])
      refine .ite ?_ ?_ ?_
      · intro state
        have own := ordered condition (by simp [Stmt.text]) state
        rw [(taken_mkPredicate_iff (machine.evaluation state) condition
          false).mpr own, Bool.bne_false]
      · exact refines_nonempty (refines_normalizeBlock thenBlock inThen) _
      · exact refines_nonempty (refines_normalizeBlock elseBlock inElse) _
  | loop sid labels body =>
      refine .loop (refines_normalizeBlock body ?_ _)
      intro condition member
      exact ordered condition (by simp [Stmt.text, member])
  | block sid labels body =>
      refine .block (refines_normalizeBlock body ?_ _)
      intro condition member
      exact ordered condition (by simp [Stmt.text, member])

/-- The same in a block. -/
theorem refines_normalizeBlock
    (b : Block Instr)
    (ordered : OrderedConditions machine b.text)
    (startId : Int) :
    RefinesBlock machine machine id b (b.normalize.number startId).2 := by
  cases b with
  | nil =>
      exact .nil
  | cons s rest =>
      refine .cons ?_ ?_
      · refine refines_normalizeStmt s ?_ startId
        intro condition member
        exact ordered condition (List.mem_append_left _ member)
      · refine refines_normalizeBlock rest ?_ _
        intro condition member
        exact ordered condition (List.mem_append_right _ member)

end

end Normalizing

section Library

variable {State R Rt : Type}

/--
What the calls of the runtime library do to the state of a program and to its
own one, which also changes within calls of instrumented functions.
-/
structure Library (State Rt : Type) where
  perform : RuntimeCall → State × Rt → State × Rt
  within : Instr → State × Rt → Rt

/-- A machine with the runtime library. -/
def Machine.withLibrary
    (machine : Machine Instr State R)
    (library : Library State Rt) : Machine Instrumented (State × Rt) R where
  evaluation := fun state => machine.evaluation state.1
  execute := fun i state =>
    match i with
    | .program i =>
        (machine.execute i state.1).map fun next =>
          (next, library.within i state)
    | .runtime c => some (library.perform c state)
  jump := fun e state => machine.jump e state.1

/-- Calls that write to the address of the variable that they mark. -/
def RuntimeCall.writes : RuntimeCall → Bool
  | .rank _ => true
  | .rankNonDefaultComm1 _ => true
  | .worldSizeWithLimit _ _ => true
  | _ => false

/-- What a call writes is overwritten by an instruction that returns. -/
def Overwrites
    (machine : Machine Instr State R)
    (library : Library State Rt)
    (i : Instr)
    (c : RuntimeCall) : Prop :=
  ∀ state, ∃ next,
    machine.execute i state.1 = some next ∧
      machine.execute i (library.perform c state).1 = some next

/--
A library that changes a program only where it marks a variable, which the
instruction that the mark is for sets anyway.
-/
structure Unobtrusive
    (machine : Machine Instr State R)
    (library : Library State Rt)
    (atInstr : Instr → List Instrumented) : Prop where
  keeps :
    ∀ c state, c.writes = false → (library.perform c state).1 = state.1
  overwritten :
    ∀ i c, .runtime c ∈ atInstr i → c.writes = true →
      Overwrites machine library i c

variable
  {machine : Machine Instr State R}
  {library : Library State Rt}
  {atInstr : Instr → List Instrumented}
  {i : Instr}

theorem views_withLibrary
    (machine : Machine Instr State R)
    (library : Library State Rt) :
    Views machine (machine.withLibrary library) Prod.fst where
  evaluation := fun _ => rfl
  jump := fun _ _ => rfl

/-- Calls that do not write are silent. -/
theorem Unobtrusive.silent
    (unobtrusive : Unobtrusive machine library atInstr)
    {calls : List RuntimeCall}
    (noWrites : ∀ c ∈ calls, c.writes = false) :
    Silent (machine.withLibrary library) Prod.fst
      (calls.map Instrumented.runtime) := by
  induction calls with
  | nil =>
      exact silent_nil _ _
  | cons c calls inductionHypothesis =>
      intro state
      obtain ⟨next, executed, sameSeen⟩ :=
        inductionHypothesis
          (fun other member => noWrites other (List.mem_cons_of_mem c member))
          (library.perform c state)
      refine ⟨next, executed, sameSeen.trans ?_⟩
      exact unobtrusive.keeps c state (noWrites c List.mem_cons_self)

/-- An instruction of the program itself. -/
theorem replaces_program
    (machine : Machine Instr State R)
    (library : Library State Rt)
    (i : Instr) :
    Replaces machine (machine.withLibrary library) Prod.fst i
      [.program i] := by
  constructor
  · exact List.cons_ne_nil _ []
  · intro state
    unfold Machine.executeAll Machine.withLibrary
    cases executed : machine.execute i state.1 with
    | none =>
        simp only [executed, Option.map_none]
        rfl
    | some next =>
        simp only [executed, Option.map_some]
        rfl

/-- An instruction that overwrites what is marked in front of it. -/
theorem Overwrites.replaces
    {c : RuntimeCall}
    (overwrites : Overwrites machine library i c) :
    Replaces machine (machine.withLibrary library) Prod.fst i
      [.runtime c, .program i] := by
  constructor
  · exact List.cons_ne_nil _ _
  · intro state
    obtain ⟨next, executed, executed'⟩ := overwrites state
    have alone := (replaces_program machine library i).runs
    have marked :
        (machine.withLibrary library).executeAll [.runtime c, .program i]
            state =
          (machine.withLibrary library).executeAll [.program i]
            (library.perform c state) :=
      rfl
    rw [marked, alone]
    simp only [Machine.executeAll, executed, executed']

end Library

section Markers

variable
  {State R Rt : Type}
  {machine : Machine Instr State R}
  {library : Library State Rt}
  {atInstr : Instr → List Instrumented}
  {i : Instr}
  {g : List Exp}

/-- A call that asks for a rank, with its marks. -/
theorem rankMarker_replaces
    (unobtrusive : Unobtrusive machine library atInstr)
    (accepts : acceptsRank g = true)
    (inserted : ∀ c, .runtime c ∈ rankMarker g i → .runtime c ∈ atInstr i) :
    Replaces machine (machine.withLibrary library) Prod.fst i
      (rankMarker g i) := by
  obtain ⟨h, k, rest, marked, rfl, isMarked⟩ :=
    exists_marked_of_acceptsRank accepts
  simp only [rankMarker, isMarked] at inserted ⊢
  split at inserted
  · next isWorld =>
      rw [if_pos isWorld]
      exact
        (unobtrusive.overwritten i _ (inserted _ List.mem_cons_self)
          rfl).replaces
  · next notWorld =>
      rw [if_neg notWorld]
      have first :=
        unobtrusive.overwritten i _ (inserted _ List.mem_cons_self) rfl
      have back :
          Silent (machine.withLibrary library) Prod.fst
            ([RuntimeCall.rankNonDefaultComm2 (toValue h) (toAddr marked)].map
              Instrumented.runtime) :=
        unobtrusive.silent (by simp [RuntimeCall.writes])
      exact first.replaces.surround (silent_nil _ _) back

/-- A call that asks for a size, with its mark. -/
theorem worldSizeMarker_replaces
    (unobtrusive : Unobtrusive machine library atInstr)
    (inserted : ∀ c, .runtime c ∈ worldSizeMarker g → .runtime c ∈ atInstr i) :
    Replaces machine (machine.withLibrary library) Prod.fst i
      (worldSizeMarker g ++ [.program i]) := by
  have alone := replaces_program machine library i
  match g with
  | [] => exact alone
  | [_] => exact alone
  | h :: k :: rest =>
      cases isMarked : markedAddress? k with
      | none =>
          simp only [worldSizeMarker, isMarked]
          exact alone
      | some marked =>
          simp only [worldSizeMarker, isMarked] at inserted ⊢
          split at inserted
          · next isWorld =>
              rw [if_pos isWorld]
              exact
                (unobtrusive.overwritten i _ (inserted _ List.mem_cons_self)
                  rfl).replaces
          · next notWorld =>
              rw [if_neg notWorld]
              exact alone

end Markers

section Instructions

variable
  {State R Rt : Type}
  {machine : Machine Instr State R}
  {library : Library State Rt}
  {ret : Option Lval}
  {callee : Exp}
  {args : List Exp}

/-- The evaluation of an expression does not write. -/
theorem instrumentExpr_noWrites
    (e : Exp)
    (c : RuntimeCall)
    (member : c ∈ CrestAll.instrumentExpr e) :
    c.writes = false := by
  fun_induction CrestAll.instrumentExpr e with
  | case4 op e₁ type _ inductionHypothesis =>
      rcases List.mem_append.mp member with inside | own
      · exact inductionHypothesis inside
      · obtain rfl := List.mem_singleton.mp own
        rfl
  | case5 op e₁ e₂ type _ firstHypothesis secondHypothesis =>
      rcases List.mem_append.mp member with inside | own
      · rcases List.mem_append.mp inside with first | second
        · exact firstHypothesis first
        · exact secondHypothesis second
      · obtain rfl := List.mem_singleton.mp own
        rfl
  | case6 type e₁ _ inductionHypothesis =>
      exact inductionHypothesis member
  | _ =>
      obtain rfl := List.mem_singleton.mp member
      rfl

theorem afterCall_noWrites
    (c : RuntimeCall)
    (member : c ∈ CrestAll.afterCall ret) :
    c.writes = false := by
  unfold CrestAll.afterCall at member
  split at member
  · split at member
    · rcases List.mem_pair.mp member with rfl | rfl
      · rfl
      · rfl
    · obtain rfl := List.mem_singleton.mp member
      rfl
  · obtain rfl := List.mem_singleton.mp member
    rfl

/-- What the heavy instrumenter replaces a visited call by does what it does. -/
theorem CrestAll.changeCall_replaces
    {atInstr : Instr → List Instrumented}
    (unobtrusive : Unobtrusive machine library atInstr)
    (kept : losesCall (.call ret callee args) = false)
    (visited : skipsCall callee = false)
    (inserted :
      ∀ c, .runtime c ∈ CrestAll.changeCall ret callee args →
        .runtime c ∈ atInstr (.call ret callee args)) :
    Replaces machine (machine.withLibrary library) Prod.fst
      (.call ret callee args) (CrestAll.changeCall ret callee args) := by
  have alone := replaces_program machine library (.call ret callee args)
  have front := silent_nil (machine.withLibrary library) Prod.fst
  have silent
      (calls : List RuntimeCall)
      (noWrites : ∀ c ∈ calls, c.writes = false) :
      Silent (machine.withLibrary library) Prod.fst
        (calls.map Instrumented.runtime) :=
    unobtrusive.silent noWrites
  unfold CrestAll.changeCall at inserted ⊢
  dsimp only at inserted ⊢
  split at inserted
  · next isInit =>
      rw [if_pos isInit]
      exact alone.surround front (silent [.getMPIInfo] (by simp [RuntimeCall.writes]))
  · next notInit =>
      rw [if_neg notInit]
      have back := silent [.clearStack] (by simp [RuntimeCall.writes])
      split at inserted
      · next isRank =>
          rw [if_pos isRank]
          have accepts : acceptsRank args = true := by
            simpa [losesCall, visited, isRank] using kept
          have marked :=
            rankMarker_replaces unobtrusive accepts fun c member =>
              inserted c (List.mem_append_left _ member)
          exact marked.surround front back
      · next notRank =>
          rw [if_neg notRank]
          split at inserted
          · next isSize =>
              rw [if_pos isSize]
              have marked :=
                worldSizeMarker_replaces unobtrusive fun c member =>
                  inserted c
                    (List.mem_append_left _ (List.mem_append_left _ member))
              exact marked.surround front back
          · next notSize =>
              rw [if_neg notSize]
              exact
                alone.surround front
                  (silent (CrestAll.afterCall ret) afterCall_noWrites)

/-- What the heavy instrumenter replaces an instruction by does what it does. -/
theorem CrestAll.vinst_replaces
    (unobtrusive : Unobtrusive machine library CrestAll.vinst)
    {i : Instr}
    (kept : losesCall i = false) :
    Replaces machine (machine.withLibrary library) Prod.fst i
      (CrestAll.vinst i) := by
  have back := silent_nil (machine.withLibrary library) Prod.fst
  cases i with
  | set lv e =>
      have alone := replaces_program machine library (.set lv e)
      simp only [CrestAll.vinst]
      split
      · have front :
            Silent (machine.withLibrary library) Prod.fst
              ((CrestAll.instrumentExpr e ++
                  [CrestAll.mkStore (addressOf lv)]).map
                Instrumented.runtime) := by
          apply unobtrusive.silent
          intro c member
          rcases List.mem_append.mp member with inside | own
          · exact instrumentExpr_noWrites e c inside
          · obtain rfl := List.mem_singleton.mp own
            rfl
        have queued := alone.surround front back
        rw [List.append_nil] at queued
        exact queued
      · exact alone
  | call ret callee args =>
      have alone := replaces_program machine library (.call ret callee args)
      cases visited : skipsCall callee with
      | true =>
          simp only [CrestAll.vinst, visited, if_true]
          exact alone
      | false =>
          have isList :
              CrestAll.vinst (.call ret callee args) =
                ((args.filter isSymbolicExp).flatMap
                    CrestAll.instrumentExpr).map .runtime ++
                  CrestAll.changeCall ret callee args := by
            simp only [CrestAll.vinst, visited, Bool.false_eq_true, if_false]
          have changed :=
            CrestAll.changeCall_replaces unobtrusive kept visited
              fun c member => by
                rw [isList]
                exact List.mem_append_right _ member
          have front :
              Silent (machine.withLibrary library) Prod.fst
                (((args.filter isSymbolicExp).flatMap
                    CrestAll.instrumentExpr).map Instrumented.runtime) := by
            apply unobtrusive.silent
            intro c member
            obtain ⟨e, -, inside⟩ := List.mem_flatMap.mp member
            exact instrumentExpr_noWrites e c inside
          have queued := changed.surround front back
          rw [List.append_nil] at queued
          rw [isList]
          exact queued
  | asm template =>
      exact replaces_program machine library (.asm template)

/-- What the light instrumenter replaces a visited call by does what it does. -/
theorem CrestBranch.changeCall_replaces
    {atInstr : Instr → List Instrumented}
    (unobtrusive : Unobtrusive machine library atInstr)
    (kept : losesCall (.call ret callee args) = false)
    (visited : skipsCall callee = false)
    (inserted :
      ∀ c, .runtime c ∈ CrestBranch.changeCall ret callee args →
        .runtime c ∈ atInstr (.call ret callee args)) :
    Replaces machine (machine.withLibrary library) Prod.fst
      (.call ret callee args) (CrestBranch.changeCall ret callee args) := by
  have alone := replaces_program machine library (.call ret callee args)
  unfold CrestBranch.changeCall at inserted ⊢
  dsimp only at inserted ⊢
  split at inserted
  · next isInit =>
      rw [if_pos isInit]
      have back :
          Silent (machine.withLibrary library) Prod.fst
            ([RuntimeCall.getMPIInfo].map Instrumented.runtime) :=
        unobtrusive.silent (by simp [RuntimeCall.writes])
      exact alone.surround (silent_nil _ _) back
  · next notInit =>
      rw [if_neg notInit]
      split at inserted
      · next isRank =>
          rw [if_pos isRank]
          have accepts : acceptsRank args = true := by
            simpa [losesCall, visited, isRank] using kept
          exact rankMarker_replaces unobtrusive accepts inserted
      · next notRank =>
          rw [if_neg notRank]
          split at inserted
          · next isSize =>
              rw [if_pos isSize]
              exact
                worldSizeMarker_replaces unobtrusive fun c member =>
                  inserted c (List.mem_append_left _ member)
          · next notSize =>
              rw [if_neg notSize]
              exact alone

/-- What the light instrumenter replaces an instruction by does what it does. -/
theorem CrestBranch.vinst_replaces
    (unobtrusive : Unobtrusive machine library CrestBranch.vinst)
    {i : Instr}
    (kept : losesCall i = false) :
    Replaces machine (machine.withLibrary library) Prod.fst i
      (CrestBranch.vinst i) := by
  cases i with
  | set lv e =>
      exact replaces_program machine library (.set lv e)
  | call ret callee args =>
      cases visited : skipsCall callee with
      | true =>
          simp only [CrestBranch.vinst, visited, if_true]
          exact replaces_program machine library (.call ret callee args)
      | false =>
          have isList :
              CrestBranch.vinst (.call ret callee args) =
                CrestBranch.changeCall ret callee args := by
            simp only [CrestBranch.vinst, visited, Bool.false_eq_true, if_false]
          have changed :=
            CrestBranch.changeCall_replaces unobtrusive kept visited
              fun c member => by
                rw [isList]
                exact member
          rw [isList]
          exact changed
  | asm template =>
      exact replaces_program machine library (.asm template)

end Instructions

section Visiting

variable
  {State R Rt : Type}
  [LinearOrder R]
  {machine : Machine Instr State R}
  {library : Library State Rt}

/-- What a visitor inserts at conditions, branches and returns does not write. -/
structure Visitor.NoWrites (v : Visitor) : Prop where
  beforeIf : ∀ e, ∀ c ∈ v.beforeIf e, c.writes = false
  atBranch : ∀ bid taken, (v.atBranch bid taken).writes = false
  beforeReturn : ∀ value, ∀ c ∈ v.beforeReturn value, c.writes = false

theorem CrestAll.visitor_noWrites : CrestAll.visitor.NoWrites where
  beforeIf := instrumentExpr_noWrites
  atBranch := fun _ _ => rfl
  beforeReturn := by
    have returns (c : RuntimeCall) (member : c ∈ [RuntimeCall.returns]) :
        c.writes = false := by
      obtain rfl := List.mem_singleton.mp member
      rfl
    intro value c member
    cases value with
    | none =>
        exact returns c member
    | some e =>
        simp only [CrestAll.visitor, CrestAll.beforeReturn] at member
        split at member
        · rcases List.mem_append.mp member with inside | own
          · exact instrumentExpr_noWrites e c inside
          · exact returns c own
        · exact returns c member

theorem CrestBranch.visitor_noWrites : CrestBranch.visitor.NoWrites where
  beforeIf := fun _ _ member => absurd member List.not_mem_nil
  atBranch := fun _ _ => rfl
  beforeReturn := fun _ _ member => absurd member List.not_mem_nil

/-- A function in which what replaces each instruction does what it does. -/
def ReplacesIn
    (machine : Machine Instr State R)
    (library : Library State Rt)
    (atInstr : Instr → List Instrumented)
    (text : List (Token Instr)) : Prop :=
  ∀ i, .instr i ∈ text →
    Replaces machine (machine.withLibrary library) Prod.fst i (atInstr i)

section Visits

variable {v : Visitor}

/-- A branch behind the call for it. -/
theorem refines_branch
    (noWrites : v.NoWrites)
    (unobtrusive : Unobtrusive machine library v.atInstr)
    {b : Block Instr}
    {text : Block Instrumented}
    (refines : RefinesBlock machine (machine.withLibrary library) Prod.fst b text)
    (bid : BranchId)
    (taken : Bool) :
    RefinesBlock machine (machine.withLibrary library) Prod.fst b
      (prependToBlock [v.atBranch bid taken] text) := by
  refine .silent (unobtrusive.silent ?_) refines
  intro c member
  obtain rfl := List.mem_singleton.mp member
  exact noWrites.atBranch bid taken

mutual

/-- Visiting a statement refines it. -/
theorem refines_visitStmt
    (noWrites : v.NoWrites)
    (unobtrusive : Unobtrusive machine library v.atInstr)
    (s : Stmt Instr)
    (replaces : ReplacesIn machine library v.atInstr s.text) :
    RefinesStmt machine (machine.withLibrary library) Prod.fst s
      (v.visitStmt s) := by
  cases s with
  | instr sid labels is =>
      refine .instr (replacesAll_flatMap fun i member => replaces i ?_)
      exact List.mem_append_right _ (List.mem_map_of_mem member)
  | ret sid labels value =>
      unfold Visitor.visitStmt
      cases queue : v.beforeReturn value with
      | nil =>
          exact .ret
      | cons c calls =>
          refine .behindRet (.silent (unobtrusive.silent ?_) (.cons .ret .nil))
          rw [← queue]
          exact noWrites.beforeReturn value
  | goto sid labels target =>
      exact .goto
  | computedGoto sid labels target =>
      exact .computedGoto
  | ite sid labels condition thenBlock elseBlock =>
      have inThen : ReplacesIn machine library v.atInstr thenBlock.text := by
        intro i member
        exact replaces i (by simp [Stmt.text, member])
      have inElse : ReplacesIn machine library v.atInstr elseBlock.text := by
        intro i member
        exact replaces i (by simp [Stmt.text, member])
      have first :=
        refines_branch noWrites unobtrusive
          (refines_visitBlock noWrites unobtrusive thenBlock inThen)
          (getFirstStmtId thenBlock) true
      have second :=
        refines_branch noWrites unobtrusive
          (refines_visitBlock noWrites unobtrusive elseBlock inElse)
          (getFirstStmtId elseBlock) false
      unfold Visitor.visitStmt
      cases queue : v.beforeIf condition with
      | nil =>
          exact .ite (fun _ => rfl) first second
      | cons c calls =>
          refine
            .behindIte
              (.silent (unobtrusive.silent ?_)
                (.cons (.ite (fun _ => rfl) first second) .nil))
          rw [← queue]
          exact noWrites.beforeIf condition
  | loop sid labels body =>
      refine
        .loop
          (refines_visitBlock noWrites unobtrusive body fun i member =>
            replaces i ?_)
      simp [Stmt.text, member]
  | block sid labels body =>
      refine
        .block
          (refines_visitBlock noWrites unobtrusive body fun i member =>
            replaces i ?_)
      simp [Stmt.text, member]

/-- Visiting a block refines it. -/
theorem refines_visitBlock
    (noWrites : v.NoWrites)
    (unobtrusive : Unobtrusive machine library v.atInstr)
    (b : Block Instr)
    (replaces : ReplacesIn machine library v.atInstr b.text) :
    RefinesBlock machine (machine.withLibrary library) Prod.fst b
      (v.visitBlock b) := by
  cases b with
  | nil =>
      exact .nil
  | cons s rest =>
      refine .cons ?_ ?_
      · exact
          refines_visitStmt noWrites unobtrusive s fun i member =>
            replaces i (List.mem_append_left _ member)
      · exact
          refines_visitBlock noWrites unobtrusive rest fun i member =>
            replaces i (List.mem_append_right _ member)

end

end Visits

mutual

/-- A statement of an uninstrumented function. -/
theorem refines_plainStmt (s : Stmt Instr) :
    RefinesStmt machine (machine.withLibrary library) Prod.fst s s.plain := by
  cases s with
  | instr sid labels is =>
      have replaced :=
        replacesAll_flatMap fun i (_ : i ∈ is) =>
          replaces_program machine library i
      rw [← List.map_eq_flatMap] at replaced
      exact .instr replaced
  | ret sid labels value =>
      exact .ret
  | goto sid labels target =>
      exact .goto
  | computedGoto sid labels target =>
      exact .computedGoto
  | ite sid labels condition thenBlock elseBlock =>
      exact
        .ite (fun _ => rfl) (refines_plainBlock thenBlock)
          (refines_plainBlock elseBlock)
  | loop sid labels body =>
      exact .loop (refines_plainBlock body)
  | block sid labels body =>
      exact .block (refines_plainBlock body)

/-- A block of an uninstrumented function. -/
theorem refines_plainBlock (b : Block Instr) :
    RefinesBlock machine (machine.withLibrary library) Prod.fst b b.plain := by
  cases b with
  | nil =>
      exact .nil
  | cons s rest =>
      exact .cons (refines_plainStmt s) (refines_plainBlock rest)

end

/-- The heavy instrumenter refines a function that loses no call. -/
theorem refines_vfunc
    (unobtrusive : Unobtrusive machine library CrestAll.vinst)
    (seen : CrestAll.Seen)
    (f : Fundec Instr)
    (kept :
      shouldSkipFunction f.svar = false →
        ∀ i ∈ f.sbody.instrs, losesCall i = false) :
    RefinesBlock machine (machine.withLibrary library) Prod.fst f.sbody
      (CrestAll.vfunc seen f).2.sbody := by
  unfold CrestAll.vfunc
  cases skipped : shouldSkipFunction f.svar with
  | true =>
      exact refines_plainBlock f.sbody
  | false =>
      have visited :=
        refines_visitBlock CrestAll.visitor_noWrites unobtrusive f.sbody
          fun i member =>
            CrestAll.vinst_replaces unobtrusive
              (kept skipped i (Block.mem_instrs.mpr member))
      have entry : Silent (machine.withLibrary library) Prod.fst
          ([RuntimeCall.call seen.addFunction.funCount].map
            Instrumented.runtime) :=
        unobtrusive.silent (by simp [RuntimeCall.writes])
      refine .silent entry ?_
      split
      · exact visited
      · refine .silent (unobtrusive.silent ?_) visited
        intro c member
        unfold CrestAll.entryStores at member
        split at member
        · cases member
        · obtain ⟨formal, -, rfl⟩ :=
            List.mem_map.mp (List.mem_reverse.mp member)
          rfl

/-- The light instrumenter refines a function that loses no call. -/
theorem refines_visitFunction
    (unobtrusive : Unobtrusive machine library CrestBranch.vinst)
    (f : Fundec Instr)
    (kept : ∀ i ∈ f.sbody.instrs, losesCall i = false) :
    RefinesBlock machine (machine.withLibrary library) Prod.fst f.sbody
      (CrestBranch.visitFunction f).sbody :=
  refines_visitBlock CrestBranch.visitor_noWrites unobtrusive f.sbody
    fun i member =>
      CrestBranch.vinst_replaces unobtrusive
        (kept i (Block.mem_instrs.mpr member))

end Visiting

section Preservation

variable
  {State R Rt : Type}
  [LinearOrder R]

/--
Preparing a file preserves the meaning of its functions, unless a condition
negates a comparison by order of unordered operands.
-/
theorem prepareFile_preserves
    (machine : Machine Instr State R)
    (file : List (Fundec Instr))
    (ordered : ∀ f ∈ file, OrderedConditions machine f.sbody.text)
    (startId : Int) :
    List.Forall₂
      (fun f prepared =>
        ∀ state,
          SameMeaning (SameSeen id) (step machine f.sbody)
            (start f.sbody state) (step machine prepared.sbody)
            (start prepared.sbody state))
      file (prepareFile startId file) := by
  induction file generalizing startId with
  | nil =>
      exact .nil
  | cons f rest inductionHypothesis =>
      apply List.Forall₂.cons
      · have refines :=
          refines_normalizeBlock f.sbody (ordered f List.mem_cons_self) startId
        exact fun state => refines.sameMeaning (views_id machine) state
      · exact
          inductionHypothesis
            (fun g member => ordered g (List.mem_cons_of_mem f member)) _

/-- `if (!(1 < 2)) return;`. -/
def negatedTest : Fundec Instr where
  svar := ⟨"f", .fn .void false, true, []⟩
  sformals := []
  sbody :=
    .cons
      (.ite (-1) []
        (.unOp .lNot
          (.binOp .lt (.const (.int64 1 .int)) (.const (.int64 2 .int))
            (.int .int))
          (.int .int))
        (.cons (.ret (-1) [] none) .nil) .nil)
      .nil

/-- The file with the function above. -/
theorem prepareFile_preserves_negatedTest :
    List.Forall₂
      (fun f prepared =>
        ∀ state,
          SameMeaning (SameSeen id)
            (step (Machine.ofVariable ⟨"x", .int .int, false, []⟩) f.sbody)
            (start f.sbody state)
            (step (Machine.ofVariable ⟨"x", .int .int, false, []⟩)
              prepared.sbody)
            (start prepared.sbody state))
      [negatedTest] (prepareFile 0 [negatedTest]) := by
  refine
    prepareFile_preserves (Machine.ofVariable ⟨"x", .int .int, false, []⟩)
      [negatedTest] ?_ 0
  intro f isFunction condition member state
  obtain rfl := List.mem_singleton.mp isFunction
  have isCondition :
      condition =
        .unOp .lNot
          (.binOp .lt (.const (.int64 1 .int)) (.const (.int64 2 .int))
            (.int .int))
          (.int .int) := by
    simpa [negatedTest, Block.text, Stmt.text] using member
  subst isCondition
  intro _ _
  simp [Evaluation.eval, Evaluation.compare?]

/--
Both instrumenters preserve the meaning of a function that loses no call: it
ends as before, in a state in which the program is as before.
-/
theorem instrumentation_preserves
    (machine : Machine Instr State R)
    (library : Library State Rt)
    (heavy : Unobtrusive machine library CrestAll.vinst)
    (light : Unobtrusive machine library CrestBranch.vinst)
    (seen : CrestAll.Seen)
    (f : Fundec Instr)
    (kept : ∀ i ∈ f.sbody.instrs, losesCall i = false)
    (state : State)
    (rt : Rt) :
    SameMeaning (SameSeen Prod.fst) (step machine f.sbody)
        (start f.sbody state)
        (step (machine.withLibrary library) (CrestAll.vfunc seen f).2.sbody)
        (start (CrestAll.vfunc seen f).2.sbody (state, rt)) ∧
      SameMeaning (SameSeen Prod.fst) (step machine f.sbody)
        (start f.sbody state)
        (step (machine.withLibrary library)
          (CrestBranch.visitFunction f).sbody)
        (start (CrestBranch.visitFunction f).sbody (state, rt)) := by
  have views := views_withLibrary machine library
  constructor
  · exact
      (refines_vfunc heavy seen f fun _ => kept).sameMeaning views (state, rt)
  · exact (refines_visitFunction light f kept).sameMeaning views (state, rt)

/-- A library that counts its calls. -/
def Library.counting (State : Type) : Library State Nat where
  perform := fun _ state => (state.1, state.2 + 1)
  within := fun _ state => state.2

theorem unobtrusive_counting
    (v : Varinfo)
    (atInstr : Instr → List Instrumented) :
    Unobtrusive (Machine.ofVariable v) (Library.counting (CValue Int))
      atInstr := by
  have executes (i : Instr) (state : CValue Int) :
      ∃ next, (Machine.ofVariable v).execute i state = some next := by
    cases i with
    | set lv e =>
        exact ⟨_, rfl⟩
    | _ =>
        exact ⟨_, rfl⟩
  constructor
  · intro c state _
    rfl
  · intro i c _ _ state
    obtain ⟨next, executed⟩ := executes i state.1
    exact ⟨next, executed, executed⟩

/-- `int f() { if (x) x = 2; return x; }`. -/
def assignment : Fundec Instr where
  svar := ⟨"f", .fn (.int .int) false, true, []⟩
  sformals := []
  sbody :=
    .cons
      (.ite 1 [] (.lval (.var ⟨"x", .int .int, false, []⟩ .noOffset))
        (.cons
          (.instr 2 []
            [.set (.var ⟨"x", .int .int, false, []⟩ .noOffset)
              (.const (.int64 2 .int))])
          .nil)
        (.cons (.instr 3 [] []) .nil))
      (.cons
        (.ret 4 []
          (some (.lval (.var ⟨"x", .int .int, false, []⟩ .noOffset))))
        .nil)

/-- The function above with a library that counts its calls. -/
theorem instrumentation_preserves_assignment :
    SameMeaning (SameSeen Prod.fst)
        (step (Machine.ofVariable ⟨"x", .int .int, false, []⟩)
          assignment.sbody)
        (start assignment.sbody (.int 1))
        (step
          ((Machine.ofVariable ⟨"x", .int .int, false, []⟩).withLibrary
            (Library.counting (CValue Int)))
          (CrestAll.vfunc (.start 0) assignment).2.sbody)
        (start (CrestAll.vfunc (.start 0) assignment).2.sbody (.int 1, 0)) ∧
      SameMeaning (SameSeen Prod.fst)
        (step (Machine.ofVariable ⟨"x", .int .int, false, []⟩)
          assignment.sbody)
        (start assignment.sbody (.int 1))
        (step
          ((Machine.ofVariable ⟨"x", .int .int, false, []⟩).withLibrary
            (Library.counting (CValue Int)))
          (CrestBranch.visitFunction assignment).sbody)
        (start (CrestBranch.visitFunction assignment).sbody (.int 1, 0)) := by
  refine
    instrumentation_preserves
      (Machine.ofVariable ⟨"x", .int .int, false, []⟩)
      (Library.counting (CValue Int)) (unobtrusive_counting _ _)
      (unobtrusive_counting _ _)
      (.start 0) assignment ?_ (.int 1) 0
  intro i member
  have isSet :
      i =
        .set (.var ⟨"x", .int .int, false, []⟩ .noOffset)
          (.const (.int64 2 .int)) := by
    simpa [assignment, Block.instrs, Block.text, Stmt.text] using member
  rw [isSet]
  rfl

end Preservation

end Compi.Cil
