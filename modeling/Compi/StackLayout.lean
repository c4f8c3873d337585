import Compi.InstrumentedRun
import Compi.StackShapes

/-!
# Stack layouts

What the symbolic stack holds at each point of an instrumented program once
inputs are tracked.  A layout is transferred over each instruction; a block
fits if its statements start and end with layouts that are transferred into
each other, and every block that the heavy instrumenter makes fits.
-/

namespace Compi.Cil

/-- What the symbolic stack holds at a program point. -/
inductive Layout where
  /-- Some values, and no return value. -/
  | depth (n : Nat)
  /-- Values that were pushed before a marking call. -/
  | marked (n : Nat)
  /-- What a call leaves: a return value, or arguments nobody has taken. -/
  | resuming
  /-- At most the value that is being returned. -/
  | returning (n : Nat)
  deriving DecidableEq

/-- Whether a callee is `MPI_Init`, by name. -/
def namesInit (callee : Exp) : Bool :=
  decide ((calledFunction? callee).map Varinfo.vname = some "MPI_Init")

/-- The layout after a call: nothing is cleared after `MPI_Init`. -/
def layoutAfter (callee : Exp) : Layout :=
  if namesInit callee then .depth 0 else .resuming

/-- The layout after an inserted call; there is none where it is misplaced. -/
def RuntimeCall.transfer : RuntimeCall → Layout → Option Layout
  | .load _ _, .depth n => some (.depth (n + 1))
  | .store _, .depth (n + 1) => some (.depth n)
  | .apply1 op _, .depth (n + 1) =>
      if Crest.isUnaryCode op then some (.depth (n + 1)) else none
  | .apply2 op _, .depth (n + 2) =>
      if Crest.isBinaryCode op then some (.depth (n + 1)) else none
  | .clearStack, .depth _ => some (.depth 0)
  | .clearStack, .marked _ => some (.depth 0)
  | .clearStack, .resuming => some (.depth 0)
  | .branch _ _, .depth _ => some (.depth 0)
  | .call _, .depth n => some (.depth n)
  | .returns, .depth 0 => some (.returning 0)
  | .returns, .depth 1 => some (.returning 1)
  | .handleReturn _, .resuming => some (.depth 1)
  | .rank _, .depth n => some (.marked n)
  | .rankNonDefaultComm1 _, .depth n => some (.marked n)
  | .worldSizeWithLimit _ _, .depth n => some (.marked n)
  | .rankNonDefaultComm2 _ _, .resuming => some .resuming
  | .getMPIInfo, .depth n => some (.depth n)
  | _, _ => none

/-- The layout after an instruction of the program. -/
def Instr.transfer : Instr → Layout → Option Layout
  | .call _ callee args, layout =>
      if skipsCall callee then
        if layout = .depth 0 then some (.depth 0) else none
      else
        match layout with
        | .depth n =>
            if n = pushedArguments args then
              some (layoutAfter callee)
            else
              none
        | .marked n =>
            if n = pushedArguments args ∧
                (calledFunction? callee).isSome = true ∧
                namesInit callee = false then
              some .resuming
            else
              none
        | _ => none
  | _, .depth n => some (.depth n)
  | _, _ => none

/-- The layout after an instruction of an instrumented program. -/
def Instrumented.transfer : Instrumented → Layout → Option Layout
  | .program i, layout => i.transfer layout
  | .runtime c, layout => c.transfer layout

/-- The layout after a list of instructions. -/
def transferAll (layout : Layout) : List Instrumented → Option Layout
  | [] => some layout
  | i :: is => (i.transfer layout).bind fun next => transferAll next is

/-- A layout between two statements. -/
def Layout.Settled : Layout → Prop
  | .depth _ => True
  | .returning _ => True
  | _ => False

mutual

/-- A statement that starts with one layout and ends with another. -/
def Stmt.Fits (layout : Layout) : Stmt Instrumented → Layout → Prop
  | .instr _ labels is, final =>
      (labels ≠ [] → layout = .depth 0) ∧
        final.Settled ∧ transferAll layout is = some final
  | .ret _ labels value, final =>
      labels = [] ∧
        layout = .returning (if value.any isSymbolicExp then 1 else 0) ∧
        final = .depth 0
  | .goto _ _ _, final => layout = .depth 0 ∧ final = .depth 0
  | .computedGoto _ _ _, final => layout = .depth 0 ∧ final = .depth 0
  | .ite _ labels _ thenBlock elseBlock, final =>
      (labels ≠ [] → layout = .depth 0) ∧
        layout.Settled ∧ final = .depth 0 ∧
        thenBlock.Fits layout (.depth 0) ∧ elseBlock.Fits layout (.depth 0)
  | .loop _ _ body, final =>
      layout = .depth 0 ∧ final = .depth 0 ∧
        body.Fits (.depth 0) (.depth 0)
  | .block _ labels body, final =>
      (labels ≠ [] → layout = .depth 0) ∧
        layout.Settled ∧ body.Fits layout final

/-- A block that starts with one layout and ends with another. -/
def Block.Fits (layout : Layout) : Block Instrumented → Layout → Prop
  | .nil, final => layout = final
  | .cons s rest, final => ∃ middle, s.Fits layout middle ∧ rest.Fits middle final

end

/-- The code that is left of a function, which leaves nothing behind. -/
def CodeFits (layout : Layout) : List (Stmt Instrumented) → Prop
  | [] => layout = .depth 0
  | s :: code => ∃ middle, s.Fits layout middle ∧ CodeFits middle code

section Code

/-- A block in front of code that fits. -/
theorem CodeFits.append
    {layout final : Layout}
    {code : List (Stmt Instrumented)}
    (b : Block Instrumented)
    (fits : b.Fits layout final)
    (codeFits : CodeFits final code) :
    CodeFits layout (b.toList ++ code) := by
  cases b with
  | nil =>
      obtain rfl : layout = final := fits
      exact codeFits
  | cons s rest =>
      obtain ⟨middle, first, later⟩ := fits
      exact ⟨middle, first, CodeFits.append rest later codeFits⟩

/-- A block that runs to the end of a function. -/
theorem CodeFits.ofBlock
    {layout : Layout}
    {b : Block Instrumented}
    (fits : b.Fits layout (.depth 0)) :
    CodeFits layout b.toList := by
  have whole : CodeFits layout (b.toList ++ []) :=
    CodeFits.append b fits rfl
  rwa [List.append_nil] at whole

/-- A statement with a label starts with an empty stack. -/
theorem Stmt.Fits.of_label
    {layout final : Layout}
    {s : Stmt Instrumented}
    {label : String}
    (fits : s.Fits layout final)
    (labelled : label ∈ s.labels) :
    layout = .depth 0 := by
  have some : s.labels ≠ [] := List.ne_nil_of_mem labelled
  cases s with
  | instr sid labels is => exact fits.1 some
  | ret sid labels value => exact absurd fits.1 some
  | goto sid labels target => exact fits.1
  | computedGoto sid labels target => exact fits.1
  | ite sid labels condition thenBlock elseBlock => exact fits.1 some
  | loop sid labels body => exact fits.1
  | block sid labels body => exact fits.1 some

mutual

/-- What runs from a label in a statement fits an empty stack. -/
theorem codeFits_findLabelStmt
    {layout final : Layout}
    {code next : List (Stmt Instrumented)}
    {label : String}
    (s : Stmt Instrumented)
    (fits : s.Fits layout final)
    (nextFits : CodeFits final next)
    (found : s.findLabel label next = some code) :
    CodeFits (.depth 0) code := by
  by_cases labelled : label ∈ s.labels
  · rw [s.findLabel_of_mem labelled] at found
    obtain rfl := Option.some.inj found
    obtain rfl := fits.of_label labelled
    exact ⟨final, fits, nextFits⟩
  cases s with
  | ite sid labels condition thenBlock elseBlock =>
      have inside := (if_neg labelled).symm.trans found
      obtain ⟨_, _, rfl, thenFits, elseFits⟩ := fits
      rcases Option.or_eq_some_iff.mp inside with inThen | ⟨_, inElse⟩
      · exact codeFits_findLabelBlock thenBlock thenFits nextFits inThen
      · exact codeFits_findLabelBlock elseBlock elseFits nextFits inElse
  | loop sid labels body =>
      have inside := (if_neg labelled).symm.trans found
      obtain ⟨rfl, rfl, bodyFits⟩ := fits
      have again : CodeFits (.depth 0) (.loop sid labels body :: next) :=
        ⟨.depth 0, ⟨rfl, rfl, bodyFits⟩, nextFits⟩
      exact codeFits_findLabelBlock body bodyFits again inside
  | block sid labels body =>
      have inside := (if_neg labelled).symm.trans found
      exact codeFits_findLabelBlock body fits.2.2 nextFits inside
  | _ =>
      have inside := (if_neg labelled).symm.trans found
      cases inside

/-- What runs from a label in a block fits an empty stack. -/
theorem codeFits_findLabelBlock
    {layout final : Layout}
    {code next : List (Stmt Instrumented)}
    {label : String}
    (b : Block Instrumented)
    (fits : b.Fits layout final)
    (nextFits : CodeFits final next)
    (found : b.findLabel label next = some code) :
    CodeFits (.depth 0) code := by
  cases b with
  | nil =>
      cases found
  | cons s rest =>
      obtain ⟨middle, first, later⟩ := fits
      rcases Option.or_eq_some_iff.mp found with inFirst | ⟨_, inRest⟩
      · exact codeFits_findLabelStmt s first
          (CodeFits.append rest later nextFits) inFirst
      · exact codeFits_findLabelBlock rest later nextFits inRest

end

end Code

section Visits

@[simp] theorem transferAll_append
    (layout : Layout)
    (is others : List Instrumented) :
    transferAll layout (is ++ others) =
      (transferAll layout is).bind fun next => transferAll next others := by
  induction is generalizing layout with
  | nil =>
      rfl
  | cons i rest inductionHypothesis =>
      rw [List.cons_append, transferAll, transferAll]
      cases i.transfer layout with
      | none =>
          rfl
      | some next =>
          exact inductionHypothesis next

/-- The runtime library accepts the codes of unary operators. -/
theorem isUnaryCode_unaryOpCode (op : Unop) :
    Crest.isUnaryCode (CrestAll.unaryOpCode op) = true := by
  cases op <;> rfl

/-- The runtime library accepts the codes of binary operators. -/
theorem isBinaryCode_binaryOpCode (op : Binop) :
    Crest.isBinaryCode (CrestAll.binaryOpCode op) = true := by
  cases op <;> rfl

/-- Applying a unary operator keeps the depth. -/
theorem transfer_mkApply1
    (op : Unop)
    (value : Exp)
    (n : Nat) :
    transferAll (.depth (n + 1)) [.runtime (CrestAll.mkApply1 op value)] =
      some (.depth (n + 1)) := by
  simp [transferAll, Instrumented.transfer, CrestAll.mkApply1,
    RuntimeCall.transfer, isUnaryCode_unaryOpCode]

/-- Applying a binary operator takes one of two values. -/
theorem transfer_mkApply2
    (op : Binop)
    (value : Exp)
    (n : Nat) :
    transferAll (.depth (n + 2)) [.runtime (CrestAll.mkApply2 op value)] =
      some (.depth (n + 1)) := by
  simp [transferAll, Instrumented.transfer, CrestAll.mkApply2,
    RuntimeCall.transfer, isBinaryCode_binaryOpCode]

/-- The evaluation of an expression pushes one value. -/
theorem transfer_instrumentExpr
    (e : Exp)
    (n : Nat) :
    transferAll (.depth n) ((CrestAll.instrumentExpr e).map .runtime) =
      some (.depth (n + 1)) := by
  fun_induction CrestAll.instrumentExpr e generalizing n with
  | case4 op e₁ type _ inductionHypothesis =>
      rw [List.map_append, transferAll_append, inductionHypothesis]
      exact transfer_mkApply1 op (.unOp op e₁ type) n
  | case5 op e₁ e₂ type _ firstHypothesis secondHypothesis =>
      rw [List.map_append, List.map_append, transferAll_append,
        transferAll_append, firstHypothesis, Option.bind_some,
        secondHypothesis]
      exact transfer_mkApply2 op (.binOp op e₁ e₂ type) n
  | case6 type e₁ _ inductionHypothesis =>
      exact inductionHypothesis n
  | _ =>
      rfl

/-- The evaluation of arguments pushes them all. -/
theorem transfer_arguments
    (args : List Exp)
    (n : Nat) :
    transferAll (.depth n)
        ((args.flatMap CrestAll.instrumentExpr).map .runtime) =
      some (.depth (n + args.length)) := by
  induction args generalizing n with
  | nil =>
      rfl
  | cons e rest inductionHypothesis =>
      rw [List.flatMap_cons, List.map_append, transferAll_append,
        transfer_instrumentExpr, Option.bind_some, inductionHypothesis,
        List.length_cons, Nat.add_assoc, Nat.add_comm 1]

/-- The calls before a return leave at most the value. -/
theorem transfer_beforeReturn (value : Option Exp) :
    transferAll (.depth 0) ((CrestAll.beforeReturn value).map .runtime) =
      some (.returning (if value.any isSymbolicExp then 1 else 0)) := by
  cases value with
  | none =>
      rfl
  | some e =>
      cases symbolic : isSymbolicExp e with
      | true =>
          simp only [CrestAll.beforeReturn, symbolic, if_true,
            List.map_append, transferAll_append, transfer_instrumentExpr,
            Option.bind_some, Option.any_some]
          rfl
      | false =>
          simp only [CrestAll.beforeReturn, symbolic, Option.any_some]
          rfl

/-- What follows a call stores its result, or clears the stack. -/
theorem transfer_afterCall (ret : Option Lval) :
    transferAll .resuming ((CrestAll.afterCall ret).map .runtime) =
      some (.depth 0) := by
  unfold CrestAll.afterCall
  split
  · split <;> rfl
  · rfl

section Calls

variable (ret : Option Lval) {callee : Exp} (args : List Exp)

/-- A visited call takes the arguments that were pushed. -/
theorem transfer_call
    (visited : skipsCall callee = false) :
    (Instr.call ret callee args).transfer (.depth (pushedArguments args)) =
      some (layoutAfter callee) := by
  simp [Instr.transfer, visited]

/-- A marked call takes the arguments that were pushed. -/
theorem transfer_markedCall
    (visited : skipsCall callee = false)
    {name : String}
    (named : (calledFunction? callee).map Varinfo.vname = some name)
    (isOther : name ≠ "MPI_Init") :
    (Instr.call ret callee args).transfer (.marked (pushedArguments args)) =
      some .resuming := by
  have isPlain : (calledFunction? callee).isSome = true := by
    rw [← Option.isSome_map, named]
    rfl
  have notInit : namesInit callee = false := by
    simp [namesInit, named, isOther]
  simp [Instr.transfer, visited, isPlain, notInit]

theorem layoutAfter_eq
    {name : String}
    (named : (calledFunction? callee).map Varinfo.vname = some name)
    (isOther : name ≠ "MPI_Init") :
    layoutAfter callee = .resuming := by
  simp [layoutAfter, namesInit, named, isOther]

/-- The call of a rank leaves an empty stack. -/
theorem transfer_rankMarker
    (visited : skipsCall callee = false)
    (named :
      (calledFunction? callee).map Varinfo.vname = some "MPI_Comm_rank") :
    transferAll (.depth (pushedArguments args))
        (rankMarker args (.call ret callee args) ++
          [.runtime .clearStack]) =
      some (.depth 0) := by
  have marked :=
    transfer_markedCall ret args visited named (by decide)
  unfold rankMarker
  split
  · split
    · rfl
    · split
      · simp [transferAll, Instrumented.transfer, RuntimeCall.transfer,
          marked]
      · simp [transferAll, Instrumented.transfer, RuntimeCall.transfer,
          marked]
  · rfl

/-- The call of a world size leaves an empty stack. -/
theorem transfer_worldSizeMarker
    (visited : skipsCall callee = false)
    (named :
      (calledFunction? callee).map Varinfo.vname = some "MPI_Comm_size") :
    transferAll (.depth (pushedArguments args))
        (worldSizeMarker args ++ [.program (.call ret callee args)] ++
          [.runtime .clearStack]) =
      some (.depth 0) := by
  have marked :=
    transfer_markedCall ret args visited named (by decide)
  have called := transfer_call ret args visited
  rw [layoutAfter_eq named (by decide)] at called
  have unmarked :
      transferAll (.depth (pushedArguments args))
          [.program (.call ret callee args), .runtime .clearStack] =
        some (.depth 0) := by
    simp [transferAll, Instrumented.transfer, RuntimeCall.transfer, called]
  unfold worldSizeMarker
  split
  · split
    · exact unmarked
    · split
      · simp [transferAll, Instrumented.transfer, RuntimeCall.transfer,
          marked]
      · exact unmarked
  · exact unmarked

/-- What replaces a visited call takes the arguments off the stack. -/
theorem transfer_changeCall
    (visited : skipsCall callee = false) :
    transferAll (.depth (pushedArguments args))
        (CrestAll.changeCall ret callee args) =
      some (.depth 0) := by
  have called := transfer_call ret args visited
  unfold CrestAll.changeCall
  dsimp only
  split
  · next isInit =>
      have nothingLeft : layoutAfter callee = .depth 0 := by
        simp [layoutAfter, namesInit, isInit]
      simp [transferAll, Instrumented.transfer, RuntimeCall.transfer, called,
        nothingLeft]
  · next notInit =>
      split
      · next isRank =>
          exact transfer_rankMarker ret args visited isRank
      · split
        · next isSize =>
            exact transfer_worldSizeMarker ret args visited isSize
        · have resumes : layoutAfter callee = .resuming := by
            simp [layoutAfter, namesInit, notInit]
          rw [transferAll, Instrumented.transfer, called, resumes]
          exact transfer_afterCall ret

end Calls

/-- What replaces an instruction leaves an empty stack empty. -/
theorem transfer_vinst (i : Instr) :
    transferAll (.depth 0) (CrestAll.vinst i) = some (.depth 0) := by
  cases i with
  | set lv e =>
      simp only [CrestAll.vinst]
      split
      · rw [List.map_append, transferAll_append, transferAll_append,
          transfer_instrumentExpr]
        rfl
      · rfl
  | call ret callee args =>
      simp only [CrestAll.vinst]
      split
      · next skipped =>
          simp [transferAll, Instrumented.transfer, Instr.transfer, skipped]
      · next visited =>
          rw [transferAll_append, transfer_arguments, Option.bind_some,
            Nat.zero_add]
          exact transfer_changeCall ret args (Bool.eq_false_iff.mpr visited)
  | asm template =>
      rfl

theorem transfer_instrs (is : List Instr) :
    transferAll (.depth 0) (is.flatMap CrestAll.vinst) =
      some (.depth 0) := by
  induction is with
  | nil =>
      rfl
  | cons i rest inductionHypothesis =>
      rw [List.flatMap_cons, transferAll_append, transfer_vinst]
      exact inductionHypothesis

/-- A block after calls that are prepended to it. -/
theorem fits_prependToBlock
    {layout final : Layout}
    {n : Nat}
    {calls : List RuntimeCall}
    {b : Block Instrumented}
    (transfer :
      transferAll layout (calls.map .runtime) = some (.depth n))
    (fits : b.Fits (.depth n) final) :
    (prependToBlock calls b).Fits layout final := by
  refine ⟨.depth n, ⟨?_, trivial, transfer⟩, fits⟩
  intro impossible
  exact absurd rfl impossible

/-- A statement after the calls that are queued for it. -/
theorem fits_withQueue
    {middle : Layout}
    {queue : List RuntimeCall}
    {sid : Int}
    {labels : List String}
    {make : Int → List String → Stmt Instrumented}
    (nonempty : queue ≠ [])
    (transfer :
      transferAll (.depth 0) (queue.map .runtime) = some middle)
    (settled : middle.Settled)
    (fits : (make (-1) []).Fits middle (.depth 0)) :
    (withQueue queue sid labels make).Fits (.depth 0) (.depth 0) := by
  cases queue with
  | nil =>
      exact absurd rfl nonempty
  | cons call rest =>
      refine ⟨fun _ => rfl, trivial, middle, ⟨?_, settled, transfer⟩,
        .depth 0, fits, rfl⟩
      intro impossible
      exact absurd rfl impossible

theorem beforeReturn_ne_nil (value : Option Exp) :
    CrestAll.beforeReturn value ≠ [] := by
  intro isNil
  have leaves := transfer_beforeReturn value
  rw [isNil] at leaves
  cases leaves

mutual

/-- Every statement that the heavy instrumenter makes fits an empty stack. -/
theorem fits_visitStmt (s : Stmt Instr) :
    (CrestAll.visitor.visitStmt s).Fits (.depth 0) (.depth 0) := by
  cases s with
  | instr sid labels is =>
      exact ⟨fun _ => rfl, trivial, transfer_instrs is⟩
  | ret sid labels value =>
      unfold Visitor.visitStmt
      apply fits_withQueue (beforeReturn_ne_nil value)
        (transfer_beforeReturn value)
      · trivial
      · exact ⟨rfl, rfl, rfl⟩
  | goto sid labels target =>
      exact ⟨rfl, rfl⟩
  | computedGoto sid labels target =>
      exact ⟨rfl, rfl⟩
  | ite sid labels condition thenBlock elseBlock =>
      unfold Visitor.visitStmt
      apply fits_withQueue (CrestAll.instrumentExpr_ne_nil condition)
        (transfer_instrumentExpr condition 0)
      · trivial
      · refine ⟨?_, trivial, rfl, ?_, ?_⟩
        · intro impossible
          exact absurd rfl impossible
        · exact fits_prependToBlock rfl (fits_visitBlock thenBlock)
        · exact fits_prependToBlock rfl (fits_visitBlock elseBlock)
  | loop sid labels body =>
      exact ⟨rfl, rfl, fits_visitBlock body⟩
  | block sid labels body =>
      exact ⟨fun _ => rfl, trivial, fits_visitBlock body⟩

/-- Every block that the heavy instrumenter makes fits an empty stack. -/
theorem fits_visitBlock (b : Block Instr) :
    (CrestAll.visitor.visitBlock b).Fits (.depth 0) (.depth 0) := by
  cases b with
  | nil =>
      rfl
  | cons s rest =>
      exact ⟨.depth 0, fits_visitStmt s, fits_visitBlock rest⟩

end

/-- The arguments that a function takes off the stack when it is entered. -/
def entryDepth (g : Fundec Instrumented) : Nat :=
  if g.svar.vtype.isVarArgs then
    0
  else
    (g.sformals.filter fun v => isSymbolicType v.vtype).length

/-- Storing takes values off the stack. -/
theorem transfer_stores
    (stores : List RuntimeCall)
    (areStores : ∀ c ∈ stores, ∃ addr, c = .store addr) :
    transferAll (.depth stores.length) (stores.map .runtime) =
      some (.depth 0) := by
  induction stores with
  | nil =>
      rfl
  | cons c rest inductionHypothesis =>
      obtain ⟨addr, rfl⟩ := areStores c List.mem_cons_self
      exact inductionHypothesis fun other member =>
        areStores other (List.mem_cons_of_mem _ member)

/-- A function that the heavy instrumenter visits takes its arguments. -/
theorem fits_vfunc
    {f : Fundec Instr}
    (visited : shouldSkipFunction f.svar = false)
    (seen : CrestAll.Seen) :
    (CrestAll.vfunc seen f).2.sbody.Fits
      (.depth (entryDepth (CrestAll.vfunc seen f).2)) (.depth 0) := by
  have bodyFits := fits_visitBlock f.sbody
  simp only [CrestAll.vfunc, visited, Bool.false_eq_true, if_false,
    entryDepth]
  split
  · exact fits_prependToBlock rfl bodyFits
  · next fixed =>
      refine fits_prependToBlock rfl (fits_prependToBlock ?_ bodyFits)
      have areStores :
          ∀ c ∈ CrestAll.entryStores f, ∃ addr, c = .store addr := by
        intro c member
        rw [CrestAll.entryStores, if_neg fixed, List.mem_reverse,
          List.mem_map] at member
        obtain ⟨formal, _, rfl⟩ := member
        exact ⟨_, rfl⟩
      have count :
          (CrestAll.entryStores f).length =
            (f.sformals.filter fun v => isSymbolicType v.vtype).length := by
        rw [CrestAll.entryStores, if_neg fixed, List.length_reverse,
          List.length_map]
      rw [← count]
      exact transfer_stores _ areStores

end Visits

end Compi.Cil
