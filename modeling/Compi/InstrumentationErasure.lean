import Compi.CrestAll
import Compi.CrestBranch

/-!
# Erasing the inserted calls

Deleting the inserted calls from an instrumented function gives its text back,
unless an instruction was deleted by the instrumentation: in front of a call
of `MPI_Comm_rank` with an argument that it does not accept, the marker of
ranks leaves out the call itself.
-/

namespace Compi.Cil

/-- A token of the program itself; an inserted call is none. -/
def Token.own? : Token Instrumented → Option (Token Instr)
  | .label name => some (.label name)
  | .instr (.program i) => some (.instr i)
  | .instr (.runtime _) => none
  | .ret value => some (.ret value)
  | .goto target => some (.goto target)
  | .computedGoto target => some (.computedGoto target)
  | .ite condition => some (.ite condition)
  | .otherwise => some .otherwise
  | .endIf => some .endIf
  | .loop => some .loop
  | .endLoop => some .endLoop

/-- The text of a block without the inserted calls. -/
def Block.erase (b : Block Instrumented) : List (Token Instr) :=
  b.text.filterMap Token.own?

/-- A list holds an instruction once and otherwise only inserted calls. -/
def ReplacesOnce (i : Instr) (out : List Instrumented) : Prop :=
  ∃ before after : List RuntimeCall,
    out = before.map .runtime ++ .program i :: after.map .runtime

/--
Each instruction of a function is replaced by a list that holds it once, and
erasing the inserted calls gives back the text of the function.
-/
structure ErasesTo
    (f : Fundec Instr)
    (replace : Instr → List Instrumented)
    (g : Fundec Instrumented) : Prop where
  once : ∀ i ∈ f.sbody.instrs, ReplacesOnce i (replace i)
  erased : g.sbody.erase = f.sbody.text

/-- Whether a call of `MPI_Comm_rank` has an argument that can be marked. -/
def acceptsRank (args : List Exp) : Bool :=
  match args with
  | _ :: k :: _ => (markedAddress? k).isSome
  | _ => false

/-- A call of `MPI_Comm_rank` that is visited but cannot be marked. -/
def losesCall : Instr → Bool
  | .call _ callee args =>
      !skipsCall callee &&
        decide
          ((calledFunction? callee).map Varinfo.vname =
            some "MPI_Comm_rank") &&
        !acceptsRank args
  | _ => false

@[simp] theorem own_inserted (calls : List RuntimeCall) :
    (inserted calls).filterMap Token.own? = [] := by
  rw [List.filterMap_eq_nil_iff]
  intro token member
  obtain ⟨call, _, rfl⟩ := List.mem_map.mp member
  rfl

namespace ReplacesOnce

variable {i : Instr} {out : List Instrumented}

theorem refl (i : Instr) : ReplacesOnce i [.program i] :=
  ⟨[], [], rfl⟩

/-- Inserted calls may be added in front and behind. -/
theorem surround
    (once : ReplacesOnce i out)
    (front back : List RuntimeCall) :
    ReplacesOnce i (front.map .runtime ++ out ++ back.map .runtime) := by
  obtain ⟨before, after, rfl⟩ := once
  exact ⟨front ++ before, after ++ back, by simp⟩

/-- A list without the instruction does not replace it. -/
theorem mem (once : ReplacesOnce i out) : .program i ∈ out := by
  obtain ⟨before, after, rfl⟩ := once
  simp

/-- The instruction is what erasing leaves of the list. -/
theorem own (once : ReplacesOnce i out) :
    (out.map Token.instr).filterMap Token.own? = [.instr i] := by
  obtain ⟨before, after, rfl⟩ := once
  have ownFirst :
      Token.own? (.instr (.program i)) = some (.instr i) :=
    rfl
  have shape :
      (before.map Instrumented.runtime ++
            .program i :: after.map Instrumented.runtime).map Token.instr =
        inserted before ++ .instr (.program i) :: inserted after := by
    simp [inserted, Function.comp_def]
  rw [shape, List.filterMap_append, own_inserted, List.nil_append,
    List.filterMap_cons_some ownFirst, own_inserted]

end ReplacesOnce

section Markers

variable {g : List Exp} {i : Instr}

/-- What a list of arguments that the marker of ranks accepts looks like. -/
theorem exists_marked_of_acceptsRank
    (accepts : acceptsRank g = true) :
    ∃ h k rest marked,
      g = h :: k :: rest ∧ markedAddress? k = some marked := by
  match g with
  | [] => cases accepts
  | [_] => cases accepts
  | h :: k :: rest =>
      obtain ⟨marked, isMarked⟩ := Option.isSome_iff_exists.mp accepts
      exact ⟨h, k, rest, marked, rfl, isMarked⟩

/-- A call that can be marked is kept by the marker. -/
theorem rankMarker_once (accepts : acceptsRank g = true) :
    ReplacesOnce i (rankMarker g i) := by
  obtain ⟨h, k, rest, marked, rfl, isMarked⟩ :=
    exists_marked_of_acceptsRank accepts
  simp only [rankMarker, isMarked]
  split
  · exact ⟨[.rank (toAddr marked)], [], rfl⟩
  · exact
      ⟨[.rankNonDefaultComm1 (toAddr k)],
        [.rankNonDefaultComm2 (toValue h) (toAddr marked)], rfl⟩

/-- A call that cannot be marked is dropped by the marker. -/
theorem rankMarker_eq_nil (rejects : acceptsRank g = false) :
    rankMarker g i = [] := by
  match g with
  | [] => rfl
  | [_] => rfl
  | h :: k :: rest =>
      have notMarked : markedAddress? k = none :=
        Option.not_isSome_iff_eq_none.mp (by simpa [acceptsRank] using rejects)
      simp only [rankMarker, notMarked]

/-- The marker of world sizes gives inserted calls only. -/
theorem worldSizeMarker_runtime (g : List Exp) :
    ∃ calls : List RuntimeCall, worldSizeMarker g = calls.map .runtime := by
  match g with
  | [] => exact ⟨[], rfl⟩
  | [_] => exact ⟨[], rfl⟩
  | h :: k :: rest =>
      simp only [worldSizeMarker]
      split
      · exact ⟨[], rfl⟩
      · next marked _ =>
          split
          · exact ⟨[.worldSizeWithLimit (toAddr marked) worldSizeLimit], rfl⟩
          · exact ⟨[], rfl⟩

end Markers

section Instructions

variable {ret : Option Lval} {callee : Exp} {args : List Exp}

/-- The list that the heavy instrumenter gives a visited call. -/
theorem CrestAll.changeCall_once
    (kept : losesCall (.call ret callee args) = false)
    (visited : skipsCall callee = false) :
    ReplacesOnce (.call ret callee args)
      (CrestAll.changeCall ret callee args) := by
  unfold CrestAll.changeCall
  dsimp only
  split
  · exact ⟨[], [.getMPIInfo], rfl⟩
  · split
    · next isRank =>
        have accepts : acceptsRank args = true := by
          simpa [losesCall, visited, isRank] using kept
        have marked := rankMarker_once accepts (i := .call ret callee args)
        exact marked.surround [] [.clearStack]
    · split
      · obtain ⟨calls, isCalls⟩ := worldSizeMarker_runtime args
        have shape :=
          (ReplacesOnce.refl (.call ret callee args)).surround calls
            [.clearStack]
        rw [CrestAll.worldSizeMarker, isCalls]
        exact shape
      · exact ⟨[], CrestAll.afterCall ret, rfl⟩

theorem CrestAll.vinst_once
    {i : Instr}
    (kept : losesCall i = false) :
    ReplacesOnce i (CrestAll.vinst i) := by
  cases i with
  | set lv e =>
      simp only [CrestAll.vinst]
      split
      · have queued :=
          (ReplacesOnce.refl (.set lv e)).surround
            (CrestAll.instrumentExpr e ++ [CrestAll.mkStore (addressOf lv)]) []
        simpa using queued
      · exact ReplacesOnce.refl _
  | call ret callee args =>
      simp only [CrestAll.vinst]
      split
      · exact ReplacesOnce.refl _
      · next visited =>
          have changed :=
            CrestAll.changeCall_once kept (Bool.eq_false_iff.mpr visited)
          have queued :=
            changed.surround
              ((args.filter isSymbolicExp).flatMap CrestAll.instrumentExpr) []
          simpa using queued
  | asm template =>
      exact ReplacesOnce.refl _

theorem CrestBranch.changeCall_once
    (kept : losesCall (.call ret callee args) = false)
    (visited : skipsCall callee = false) :
    ReplacesOnce (.call ret callee args)
      (CrestBranch.changeCall ret callee args) := by
  unfold CrestBranch.changeCall
  dsimp only
  split
  · exact ⟨[], [.getMPIInfo], rfl⟩
  · split
    · next isRank =>
        have accepts : acceptsRank args = true := by
          simpa [losesCall, visited, isRank] using kept
        exact rankMarker_once accepts
    · split
      · obtain ⟨calls, isCalls⟩ := worldSizeMarker_runtime args
        rw [CrestBranch.worldSizeMarker, isCalls]
        exact ⟨calls, [], rfl⟩
      · exact ReplacesOnce.refl _

theorem CrestBranch.vinst_once
    {i : Instr}
    (kept : losesCall i = false) :
    ReplacesOnce i (CrestBranch.vinst i) := by
  cases i with
  | set lv e =>
      exact ReplacesOnce.refl _
  | call ret callee args =>
      simp only [CrestBranch.vinst]
      split
      · exact ReplacesOnce.refl _
      · next visited =>
          exact CrestBranch.changeCall_once kept
            (Bool.eq_false_iff.mpr visited)
  | asm template =>
      exact ReplacesOnce.refl _

/-- Of a lost call only inserted calls are left. -/
theorem losesCall_iff
    {i : Instr} :
    losesCall i = true ↔
      ∃ ret callee args,
        i = .call ret callee args ∧
        skipsCall callee = false ∧
        (calledFunction? callee).map Varinfo.vname =
          some "MPI_Comm_rank" ∧
        acceptsRank args = false := by
  cases i with
  | call ret callee args =>
      simp [losesCall, and_assoc]
  | _ =>
      simp [losesCall]

theorem CrestAll.vinst_lost
    {i : Instr}
    (lost : losesCall i = true) :
    .program i ∉ CrestAll.vinst i := by
  obtain ⟨ret, callee, args, rfl, visited, isRank, rejects⟩ :=
    losesCall_iff.mp lost
  simp [CrestAll.vinst, visited, CrestAll.changeCall, isRank,
    CrestAll.rankMarker, rankMarker_eq_nil rejects]

theorem CrestBranch.vinst_lost
    {i : Instr}
    (lost : losesCall i = true) :
    .program i ∉ CrestBranch.vinst i := by
  obtain ⟨ret, callee, args, rfl, visited, isRank, rejects⟩ :=
    losesCall_iff.mp lost
  simp [CrestBranch.vinst, visited, CrestBranch.changeCall, isRank,
    CrestBranch.rankMarker, rankMarker_eq_nil rejects]

end Instructions

section Blocks

variable {v : Visitor}

/-- What is left of an expanded site after erasing. -/
theorem own_expand
    {site : Site}
    (once :
      ∀ i, site = .own (.instr i) → ReplacesOnce i (v.atInstr i)) :
    (v.expand site).filterMap Token.own? = site.token?.toList := by
  cases site with
  | entry bid taken =>
      exact own_inserted _
  | own token =>
      cases token with
      | instr i =>
          exact (once i rfl).own
      | ret value =>
          simp [Visitor.expand, Site.token?, Token.own?]
      | ite condition =>
          simp [Visitor.expand, Site.token?, Token.own?]
      | _ =>
          rfl

/-- Erasing a visited block gives back its text. -/
theorem erase_visitBlock
    {b : Block Instr}
    (once : ∀ i ∈ b.instrs, ReplacesOnce i (v.atInstr i)) :
    (v.visitBlock b).erase = b.text := by
  have expanded :
      ∀ sites : List Site,
        (∀ site ∈ sites, site ∈ b.sites) →
        (sites.flatMap v.expand).filterMap Token.own? =
          sites.filterMap Site.token? := by
    intro sites inBlock
    induction sites with
    | nil =>
        rfl
    | cons site rest inductionHypothesis =>
        have first : (v.expand site).filterMap Token.own? =
            site.token?.toList := by
          apply own_expand
          intro i isInstr
          apply once
          rw [Block.mem_instrs, ← own_mem_sites, ← isInstr]
          exact inBlock site List.mem_cons_self
        have later := inductionHypothesis fun other member =>
          inBlock other (List.mem_cons_of_mem site member)
        rw [List.flatMap_cons, List.filterMap_append, first, later]
        cases site with
        | own token =>
            rfl
        | entry bid taken =>
            rfl
  rw [Block.erase, text_visitBlock, expanded b.sites fun _ member => member,
    token_sitesBlock]

/-- A block that is not visited has nothing to erase. -/
theorem erase_plain (b : Block Instr) : b.plain.erase = b.text := by
  have plainOwn : Token.own? ∘ Token.plain = some := by
    funext token
    cases token <;> rfl
  rw [Block.erase, text_plainBlock, List.filterMap_map, plainOwn,
    List.filterMap_some]

@[simp] theorem erase_prependToBlock
    (calls : List RuntimeCall)
    (b : Block Instrumented) :
    (prependToBlock calls b).erase = b.erase := by
  simp [Block.erase]

end Blocks

/-- The list by which the heavy instrumenter replaces an instruction. -/
def CrestAll.replacement
    (f : Fundec Instr)
    (i : Instr) : List Instrumented :=
  if shouldSkipFunction f.svar then [.program i] else CrestAll.vinst i

/--
An erasure law: each instrumenter keeps every instruction once, and erasing
what it inserted gives the function back, exactly if it visits no call of
`MPI_Comm_rank` whose argument cannot be marked.
-/
theorem erasesTo_iff (f : Fundec Instr) (seen : CrestAll.Seen) :
    (ErasesTo f (CrestAll.replacement f) (CrestAll.vfunc seen f).2 ↔
      (shouldSkipFunction f.svar = false →
        ∀ i ∈ f.sbody.instrs, losesCall i = false)) ∧
      (ErasesTo f CrestBranch.vinst (CrestBranch.visitFunction f) ↔
        ∀ i ∈ f.sbody.instrs, losesCall i = false) := by
  constructor
  · constructor
    · intro erases visited i member
      rw [Bool.eq_false_iff]
      intro lost
      have once := erases.once i member
      rw [CrestAll.replacement, visited] at once
      exact CrestAll.vinst_lost lost once.mem
    · intro kept
      cases skipped : shouldSkipFunction f.svar with
      | true =>
          refine ⟨?_, ?_⟩
          · intro i _
            rw [CrestAll.replacement, if_pos skipped]
            exact ReplacesOnce.refl i
          · simp only [CrestAll.vfunc, skipped, if_true]
            exact erase_plain f.sbody
      | false =>
          have once :
              ∀ i ∈ f.sbody.instrs, ReplacesOnce i (CrestAll.vinst i) :=
            fun i member => CrestAll.vinst_once (kept skipped i member)
          refine ⟨?_, ?_⟩
          · intro i member
            rw [CrestAll.replacement, skipped]
            exact once i member
          · have erased :
                (CrestAll.visitor.visitBlock f.sbody).erase = f.sbody.text :=
              erase_visitBlock once
            simp only [CrestAll.vfunc, skipped, Bool.false_eq_true, if_false]
            split <;> simp [erased]
  · constructor
    · intro erases i member
      rw [Bool.eq_false_iff]
      intro lost
      exact CrestBranch.vinst_lost lost (erases.once i member).mem
    · intro kept
      have once :
          ∀ i ∈ f.sbody.instrs, ReplacesOnce i (CrestBranch.vinst i) :=
        fun i member => CrestBranch.vinst_once (kept i member)
      exact ⟨once, erase_visitBlock once⟩

/-- `MPI_Comm_rank`. -/
def mpiCommRank : Varinfo where
  vname := "MPI_Comm_rank"
  vtype := .fn (.int .int) false
  vglob := true
  vattr := []

/-- `MPI_Comm_rank(MPI_COMM_WORLD, ranks)` for an array `ranks`. -/
def rankIntoArray : Instr :=
  .call none (.lval (.var mpiCommRank .noOffset))
    [.castE (.named "MPI_Comm" (.int .int)) (.const (.int64 0x44000000 .int)),
      .startOf
        (.var
          { vname := "ranks"
            vtype := .array (.int .int)
            vglob := false
            vattr := [] }
          .noOffset)]

/-- A function that asks for its rank in the first element of an array. -/
def rankIntoArrayMain : Fundec Instr where
  svar :=
    { vname := "main"
      vtype := .fn (.int .int) false
      vglob := true
      vattr := [] }
  sformals := []
  sbody := .cons (.instr 1 [] [rankIntoArray]) .nil

/-- Both instrumenters lose the call. -/
theorem not_erasesTo_rankIntoArray :
    ¬ErasesTo rankIntoArrayMain (CrestAll.replacement rankIntoArrayMain)
        (CrestAll.vfunc (.start 0) rankIntoArrayMain).2 ∧
      ¬ErasesTo rankIntoArrayMain CrestBranch.vinst
        (CrestBranch.visitFunction rankIntoArrayMain) := by
  have member : rankIntoArray ∈ rankIntoArrayMain.sbody.instrs := by
    simp [rankIntoArrayMain, Block.text, Stmt.text]
  have lost : losesCall rankIntoArray = true := by
    decide
  have visited : shouldSkipFunction rankIntoArrayMain.svar = false := by
    decide
  constructor
  · intro erases
    have once := erases.once rankIntoArray member
    rw [CrestAll.replacement, visited] at once
    exact CrestAll.vinst_lost lost once.mem
  · intro erases
    exact CrestBranch.vinst_lost lost (erases.once rankIntoArray member).mem

end Compi.Cil
