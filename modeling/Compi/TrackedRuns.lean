import Compi.TrackedWrites

/-!
# Tracked writes in runs

A program that goes through what is emitted for an instruction executes the
instruction: the inserted calls are performed one after another around a step
or around a run through an instrumented function.  In runs that leave nothing
behind on the symbolic stack every stored write is ready, so the memory
describes what it has written.
-/

namespace Compi.Cil

variable
  {program : Program}
  {config next : Config}
  {choices : List Choice}
  {here : Circumstances}
  {sid : Int}
  {labels : List String}
  {rest : List Instrumented}
  {code : List (Stmt Instrumented)}

/-- A program performs inserted calls one after another. -/
theorem Program.performAll_of_run
    {calls : List RuntimeCall}
    (sameLength : choices.length = calls.length)
    (evaluate : ∀ choice ∈ choices, choice.here = here)
    (isCode :
      config.frame.code =
        .instr sid labels (calls.map .runtime ++ rest) :: code)
    (ran : PartialRun.run? program.step config choices = some next) :
    config.crest.performAll here calls = some next.crest ∧
      ∃ others, next.frame.code = .instr sid others rest :: code := by
  induction choices generalizing config labels calls with
  | nil =>
      obtain rfl := List.eq_nil_of_length_eq_zero sameLength.symm
      obtain rfl := Option.some.inj ran
      exact ⟨rfl, labels, isCode⟩
  | cons choice choices inductionHypothesis =>
      obtain ⟨c, calls, rfl⟩ :=
        List.exists_cons_of_length_eq_add_one sameLength.symm
      obtain ⟨middle, stepped, restRan⟩ :=
        PartialRun.run?_cons_eq_some.mp ran
      simp only [Program.step, isCode, List.map_cons, List.cons_append,
        Program.execute] at stepped
      obtain ⟨crest, performed, rfl⟩ := Option.map_eq_some_iff.mp stepped
      obtain ⟨performedRest, isRest⟩ :=
        inductionHypothesis (Nat.succ.inj sameLength)
          (fun other member => evaluate other (.tail choice member))
          rfl restRan
      rw [evaluate choice (.head choices)] at performed
      exact
        ⟨Crest.performAll_cons_eq_some.mpr ⟨crest, performed, performedRest⟩,
          isRest⟩

section Passing

/-- The function that has been entered reports that it returns, and is left. -/
inductive Program.Returns
    (program : Program)
    (entered leaving left : Config) : Prop where
  | reported
      {sid returnSid : Int}
      {labels returnLabels : List String}
      {value : Option Exp}
      {code : List (Stmt Instrumented)}
      {reporting closing going : Choice}
      (sameCallers : leaving.callers = entered.callers)
      (isCode :
        leaving.frame.code =
          .instr sid labels [.runtime .returns] ::
            .ret returnSid returnLabels value :: code)
      (ran :
        PartialRun.run? program.step leaving [reporting, closing, going] =
          some left) :
      program.Returns entered leaving left

/--
A program gets past an instruction, with the description of the value that is
written: it steps over it, or goes through an instrumented function.
-/
inductive Program.Crosses
    (program : Program)
    (here : Circumstances)
    (start : Crest)
    (met : Config) :
    Instr → Option SymbolicExpr → Config → Prop where
  | set
      {lv : Lval}
      {e : Exp}
      {evaluated : Crest}
      {choice : Choice}
      {left : Config}
      (evaluates :
        start.performAll here (CrestAll.instrumentExpr e) = some evaluated)
      (stepped : program.step met choice = some left) :
      Crosses program here start met (.set lv e)
        (if isSymbolicExp e then evaluated.newest else none) left
  | external
      {ret : Option Lval}
      {callee : Exp}
      {args : List Exp}
      {choice : Choice}
      {left : Config}
      (outside : program.callee? choice callee = none)
      (stepped : program.step met choice = some left) :
      Crosses program here start met (.call ret callee args) none left
  | entered
      {ret : Option Lval}
      {callee : Exp}
      {args : List Exp}
      {choice : Choice}
      {choices : List Choice}
      {g : Fundec Instrumented}
      {entered leaving left : Config}
      (called : program.callee? choice callee = some g)
      (stepped : program.step met choice = some entered)
      (inside : PartialRun.run? program.step entered choices = some leaving)
      (returns : program.Returns entered leaving left) :
      Crosses program here start met (.call ret callee args)
        leaving.crest.newest left

/-- A program goes through what is emitted for an instruction. -/
inductive Program.Passes
    (program : Program)
    (placement : Placement)
    (i : Instr)
    (config : Config)
    (value : Option SymbolicExpr)
    (final : Config) : Prop where
  | between
      {earlier later : List RuntimeCall}
      {before after : List Choice}
      {met left : Config}
      (emitted :
        CrestAll.vinst i =
          earlier.map .runtime ++ .program i :: later.map .runtime)
      (beforeLength : before.length = earlier.length)
      (evaluateBefore : ∀ choice ∈ before, choice.here = placement.before)
      (ranBefore : PartialRun.run? program.step config before = some met)
      (crosses :
        program.Crosses placement.before config.crest met i value left)
      (afterLength : after.length = later.length)
      (evaluateAfter : ∀ choice ∈ after, choice.here = placement.after)
      (ranAfter : PartialRun.run? program.step left after = some final) :
      program.Passes placement i config value final

variable
  {i : Instr}
  {start : Crest}
  {value : Option SymbolicExpr}
  {placement : Placement}
  {entered leaving met left final : Config}

/-- A function that returns goes back to the caller that entered it. -/
theorem Program.Returns.spec
    (returns : program.Returns entered leaving left)
    {caller : Suspended}
    {callers : List Suspended}
    (isCaller : entered.callers = caller :: callers) :
    left.frame = caller.frame ∧
      ∃ here, leaving.crest.perform here .returns = some left.crest := by
  obtain ⟨sameCallers, isCode, ran⟩ := returns
  obtain ⟨reported, isReported, ran⟩ := PartialRun.run?_cons_eq_some.mp ran
  obtain ⟨closed, isClosed, ran⟩ := PartialRun.run?_cons_eq_some.mp ran
  obtain ⟨gone, isGone, ran⟩ := PartialRun.run?_cons_eq_some.mp ran
  obtain rfl := Option.some.inj ran
  simp only [Program.step, isCode, Program.execute] at isReported
  obtain ⟨crest, performed, rfl⟩ := Option.map_eq_some_iff.mp isReported
  obtain rfl := Option.some.inj isClosed
  simp only [Program.step, Program.goOn, Program.leave, sameCallers,
    isCaller] at isGone
  obtain rfl := Option.some.inj isGone
  exact ⟨rfl, _, performed⟩

/-- A program that gets past an instruction does what this does. -/
theorem Program.Crosses.spec
    (crosses : program.Crosses here start met i value left)
    (isCode :
      met.frame.code = .instr sid labels (.program i :: rest) :: code) :
    Does here start met.crest i value left.crest ∧
      left.frame.code = .instr sid [] rest :: code := by
  cases crosses with
  | set evaluates stepped =>
      simp only [Program.step, isCode] at stepped
      obtain rfl := Option.some.inj stepped
      exact ⟨.set evaluates, rfl⟩
  | external outside stepped =>
      simp only [Program.step, isCode, Program.execute, outside] at stepped
      obtain ⟨crest, marks, rfl⟩ := Option.map_eq_some_iff.mp stepped
      exact ⟨.call (.uninstrumented marks), rfl⟩
  | entered called stepped inside returns =>
      simp only [Program.step, isCode, Program.execute, called] at stepped
      split at stepped
      · obtain rfl := Option.some.inj stepped
        obtain ⟨sameFrame, _, performed⟩ := returns.spec rfl
        have becomes := Program.becomes_run inside
        exact
          ⟨.call (.instrumented becomes performed),
            congrArg Frame.code sameFrame⟩
      · cases stepped

/-- A program that goes through what is emitted executes the instruction. -/
theorem Program.Passes.executes
    (passes : program.Passes placement i config value final)
    (isCode :
      config.frame.code =
        .instr sid labels (CrestAll.vinst i ++ rest) :: code) :
    Executes placement i config.crest value final.crest := by
  obtain
    ⟨emitted, beforeLength, evaluateBefore, ranBefore, crosses, afterLength,
      evaluateAfter, ranAfter⟩ := passes
  rw [emitted, List.append_assoc] at isCode
  obtain ⟨queued, _, isMet⟩ :=
    Program.performAll_of_run beforeLength evaluateBefore isCode ranBefore
  obtain ⟨done, resumes⟩ := crosses.spec isMet
  have followed :=
    (Program.performAll_of_run afterLength evaluateAfter resumes ranAfter).1
  exact .between emitted queued done followed

end Passing

/-- The evaluation of an expression starts with a load. -/
theorem instrumentExpr_eq_load (e : Exp) :
    ∃ addr value rest,
      CrestAll.instrumentExpr e = CrestAll.mkLoad addr value :: rest := by
  fun_induction CrestAll.instrumentExpr e with
  | case4 op e₁ type _ inductionHypothesis =>
      obtain ⟨addr, value, rest, isLoad⟩ := inductionHypothesis
      rw [isLoad]
      exact ⟨addr, value, _, rfl⟩
  | case5 op e₁ e₂ type _ firstHypothesis secondHypothesis =>
      obtain ⟨addr, value, rest, isLoad⟩ := firstHypothesis
      rw [isLoad]
      exact ⟨addr, value, _, rfl⟩
  | case6 type e₁ _ inductionHypothesis =>
      exact inductionHypothesis
  | _ =>
      exact ⟨_, _, [], rfl⟩

/-- What is emitted for a stored write starts with a load or the write. -/
theorem vinst_eq_cons
    (write : TrackedWrite)
    (stores : write.instr.storesResult = true) :
    ∃ first tail,
      CrestAll.vinst write.instr = first :: tail ∧
        (first = .program write.instr ∨
          ∃ addr value, first = .runtime (CrestAll.mkLoad addr value)) := by
  have assigns := write.assigns
  have visited := write.visited
  have addressed := write.addressed
  have integral := write.integral
  cases isInstr : write.instr with
  | set lv e =>
      rw [isInstr] at assigns stores
      obtain rfl := Option.some.inj assigns
      obtain ⟨addr, value, rest, isLoad⟩ := instrumentExpr_eq_load e
      rw [emitted_set stores addressed, isLoad]
      exact ⟨_, _, rfl, .inr ⟨addr, value, rfl⟩⟩
  | call ret callee args =>
      rw [isInstr] at assigns stores visited
      obtain rfl : ret = some write.lv := assigns
      rw [emitted_call visited integral addressed stores, argumentCalls]
      cases args.filter isSymbolicExp with
      | nil =>
          exact ⟨_, _, rfl, .inl rfl⟩
      | cons e pushed =>
          obtain ⟨addr, value, rest, isLoad⟩ := instrumentExpr_eq_load e
          rw [List.flatMap_cons, isLoad]
          exact ⟨_, _, rfl, .inr ⟨addr, value, rfl⟩⟩
  | asm template =>
      rw [isInstr] at assigns
      cases assigns

/-- No return value is left over where a stored write starts. -/
theorem unreturned_of_disciplined
    {layout : Layout}
    (write : TrackedWrite)
    (stores : write.instr.storesResult = true)
    (disciplined : program.Disciplined config layout)
    (isCode :
      config.frame.code =
        .instr sid labels (CrestAll.vinst write.instr ++ rest) :: code) :
    config.crest.si.returnValue = false := by
  have codeFits := disciplined.code
  have agrees := disciplined.agrees
  obtain ⟨first, tail, isFirst, isStart⟩ := vinst_eq_cons write stores
  rw [isCode, isFirst, List.cons_append] at codeFits agrees
  obtain ⟨after, transfer, _⟩ := Program.codeFits_instr codeFits
  rcases isStart with rfl | ⟨addr, value, rfl⟩
  · exact agrees.unreturned transfer
  · cases layout with
    | depth n =>
        cases pre : config.crest.preSymbolic with
        | true => exact (agrees.untracked pre).2
        | false => exact (agrees.tracked pre).2
    | _ =>
        cases transfer

/-- A run that leaves nothing behind is ready at every stored write. -/
theorem ready_of_tidy_run
    {files : List (Nat × List (Fundec Instr))}
    {main : Fundec Instrumented}
    {input : List Value}
    {execTimes : Nat}
    {rank targetRank worldSize : Int}
    (write : TrackedWrite)
    (stores : write.instr.storesResult = true)
    (isMain : main ∈ Program.ofFiles files)
    (visited : shouldSkipFunction main.svar = false)
    (isTidy :
      PartialRun.Along (Program.ofFiles files).step
        (fun config choice =>
          (Program.ofFiles files).tidy config choice = true)
        (Program.start main
          (.fresh input execTimes rank targetRank worldSize))
        choices)
    (ran :
      PartialRun.run? (Program.ofFiles files).step
          (Program.start main
            (.fresh input execTimes rank targetRank worldSize))
          choices =
        some config)
    (isCode :
      config.frame.code =
        .instr sid labels (CrestAll.vinst write.instr ++ rest) :: code) :
    Ready write.instr config.crest := by
  have functionsFit := Program.functionsFit_ofFiles files
  let invariant : Config → Prop := fun config =>
    ∃ layout, (Program.ofFiles files).Disciplined config layout
  have disciplined : invariant config := by
    apply PartialRun.run?_invariant ?_ ?_ isTidy ran
    · rintro config choice next ⟨layout, disciplined⟩ tidyStep stepped
      exact disciplined.step functionsFit tidyStep stepped
    · exact
        ⟨_, Program.disciplined_start functionsFit isMain visited rfl rfl⟩
  obtain ⟨layout, disciplined⟩ := disciplined
  exact
    .reached isMain visited ran isCode
      (unreturned_of_disciplined write stores disciplined isCode)

/--
Over a run that leaves nothing behind, a stored write refreshes the memory: when
the program has gone through what is emitted for it, the memory describes the
value that was written.
-/
theorem memory_of_tidy_run
    {files : List (Nat × List (Fundec Instr))}
    {main : Fundec Instrumented}
    {input : List Value}
    {execTimes : Nat}
    {rank targetRank worldSize : Int}
    {placement : Placement}
    {value : Option SymbolicExpr}
    {final : Config}
    (write : TrackedWrite)
    (stores : write.instr.storesResult = true)
    (settles : write.Settles placement)
    (isMain : main ∈ Program.ofFiles files)
    (visited : shouldSkipFunction main.svar = false)
    (isTidy :
      PartialRun.Along (Program.ofFiles files).step
        (fun config choice =>
          (Program.ofFiles files).tidy config choice = true)
        (Program.start main
          (.fresh input execTimes rank targetRank worldSize))
        choices)
    (ran :
      PartialRun.run? (Program.ofFiles files).step
          (Program.start main
            (.fresh input execTimes rank targetRank worldSize))
          choices =
        some config)
    (isCode :
      config.frame.code =
        .instr sid labels (CrestAll.vinst write.instr ++ rest) :: code)
    (passes :
      (Program.ofFiles files).Passes placement write.instr config value
        final) :
    final.crest.si.mem[write.written placement]? = value := by
  have ready := ready_of_tidy_run write stores isMain visited isTidy ran isCode
  have executes := passes.executes isCode
  exact
    (refreshes_of_stores stores settles config.crest ready).2 value final.crest
      executes

/-- `y = first(x)`. -/
def firstResult : TrackedWrite where
  instr :=
    .call (some (.var (Program.intLocal "y") .noOffset))
      (.lval (.var (Program.first false).svar .noOffset))
      [.lval (.var (Program.intLocal "x") .noOffset)]
  lv := .var (Program.intLocal "y") .noOffset
  assigns := rfl
  integral := rfl
  addressed := rfl
  visited := by
    decide

/-- Three variables have addresses of their own: `x`, `y` and the formal `n`. -/
def firstResultHere : Circumstances :=
  { Program.marksInput.here with
    addr := fun e =>
      if e = toAddr (addressOf (.var (Program.intLocal "x") .noOffset)) then
        100
      else if e = toAddr (addressOf firstResult.lv) then
        200
      else
        300 }

/-- The result is written to `y`. -/
def firstResultPlacement : Placement where
  before := firstResultHere
  after := firstResultHere
  target := 200

/-- The input is marked at the address of `x`. -/
def firstResultChoice : Choice :=
  { Program.marksInput with here := firstResultHere }

/-- `int first(int n)` and a function that marks `x` and calls it, in two files. -/
def firstResultFiles : List (Nat × List (Fundec Instr)) :=
  [(0, [Program.first false]), (1, [marksFirst firstResult.instr])]

/-- The instrumented caller. -/
def firstResultMain : Fundec Instrumented :=
  (CrestAll.vfunc (.start 1) (marksFirst firstResult.instr)).2

/-- The program after some steps. -/
def firstResultAfter (steps : Nat) : Config :=
  let started := Program.start firstResultMain (.fresh [] 0 0 0 1)
  (PartialRun.run? (Program.ofFiles firstResultFiles).step started
      (List.replicate steps firstResultChoice)).getD
    started

/-- After the call `y` is described as the input that was passed. -/
theorem memory_of_tidy_run_firstResult :
    (firstResultAfter 17).crest.si.mem[(200 : Addr)]? =
      some (.ofTerm 1 0) := by
  have isTidy :
      PartialRun.Along (Program.ofFiles firstResultFiles).step
        (fun config choice =>
          (Program.ofFiles firstResultFiles).tidy config choice = true)
        (Program.start firstResultMain (.fresh [] 0 0 0 1))
        (List.replicate 4 firstResultChoice) := by
    decide +kernel
  have emitted :
      CrestAll.vinst firstResult.instr =
        List.map .runtime
            [CrestAll.mkLoad
              (addressOf (.var (Program.intLocal "x") .noOffset))
              (.lval (.var (Program.intLocal "x") .noOffset))] ++
          .program firstResult.instr ::
            List.map .runtime
              [CrestAll.mkHandleReturn (.lval firstResult.lv),
                CrestAll.mkStore (addressOf firstResult.lv)] :=
    rfl
  have inside :
      PartialRun.run? (Program.ofFiles firstResultFiles).step
          (firstResultAfter 6) (List.replicate 6 firstResultChoice) =
        some (firstResultAfter 12) :=
    rfl
  have leaves :
      PartialRun.run? (Program.ofFiles firstResultFiles).step
          (firstResultAfter 12)
          [firstResultChoice, firstResultChoice, firstResultChoice] =
        some (firstResultAfter 15) :=
    rfl
  have returns :
      (Program.ofFiles firstResultFiles).Returns (firstResultAfter 6)
        (firstResultAfter 12) (firstResultAfter 15) :=
    .reported rfl rfl leaves
  have stepped :
      (Program.ofFiles firstResultFiles).step (firstResultAfter 5)
          firstResultChoice =
        some (firstResultAfter 6) :=
    rfl
  have crosses :
      (Program.ofFiles firstResultFiles).Crosses firstResultHere
        (firstResultAfter 4).crest (firstResultAfter 5) firstResult.instr
        (firstResultAfter 12).crest.newest (firstResultAfter 15) :=
    .entered rfl stepped inside returns
  have evaluate (n : Nat) :
      ∀ choice ∈ List.replicate n firstResultChoice,
        choice.here = firstResultHere := by
    intro choice member
    rw [List.eq_of_mem_replicate member]
    rfl
  have passes :
      (Program.ofFiles firstResultFiles).Passes firstResultPlacement
        firstResult.instr (firstResultAfter 4)
        (firstResultAfter 12).crest.newest (firstResultAfter 17) :=
    .between emitted rfl (evaluate 1) rfl crosses rfl (evaluate 2) rfl
  exact
    memory_of_tidy_run firstResult rfl (fun _ _ _ _ => rfl)
      (List.mem_cons_of_mem _ List.mem_cons_self) rfl isTidy rfl rfl passes

end Compi.Cil
