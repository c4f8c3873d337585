import Compi.InstrumentationErasure
import Compi.PreparedProgram

/-!
# Agreement of the two instrumenters

The processes of one test run programs of both instrumenters, so the branches
and marks of the two have to be the same.  They are, up to the functions that
are marked as uninstrumented: only the heavy instrumenter leaves those alone.
-/

namespace Compi.Cil

/-- Whether a call marks an input. -/
def RuntimeCall.isMarking : RuntimeCall → Bool
  | .rank _ => true
  | .rankNonDefaultComm1 _ => true
  | .rankNonDefaultComm2 _ _ => true
  | .worldSizeWithLimit _ _ => true
  | _ => false

/-- What the two instrumenters should agree on. -/
inductive Point where
  | own (token : Token Instr)
  | branch (bid : BranchId)
  | marking (c : RuntimeCall)
  deriving DecidableEq

/-- The point of an inserted call, if it reports a branch or marks. -/
def RuntimeCall.point? : RuntimeCall → Option Point
  | .branch bid _ => some (.branch bid)
  | .branchOnly bid => some (.branch bid)
  | c => if c.isMarking then some (.marking c) else none

/--
The point of a token.  A call that both instrumenters would lose is left out:
nothing is inserted for it.
-/
def Token.point? : Token Instrumented → Option Point
  | .instr (.program i) =>
      if losesCall i then none else some (.own (.instr i))
  | .instr (.runtime c) => c.point?
  | token => token.own?.map .own

/-- The points of a block in textual order. -/
def Block.points (b : Block Instrumented) : List Point :=
  b.text.filterMap Token.point?

/-- The ids that a block reports by `BranchOnly`. -/
def Block.reported (b : Block Instrumented) : List BranchId :=
  b.text.filterMap fun
    | .instr (.runtime (.branchOnly bid)) => some bid
    | _ => none

/-- What the heavy instrumenter makes of a file. -/
def CrestAll.instrument
    (stmtCount : Int)
    (funCount : Nat)
    (file : List (Fundec Instr)) :
    CrestAll.Seen × List (Fundec Instrumented) :=
  CrestAll.visitFile (.start funCount) (prepareFile stmtCount file)

/-- What the light instrumenter makes of a file. -/
def CrestBranch.instrument
    (stmtCount : Int)
    (file : List (Fundec Instr)) : List (Fundec Instrumented) :=
  CrestBranch.visitFile (prepareFile stmtCount file)

/-- Whether a branch is listed in the entries of the file `branches`. -/
def Listed
    (entries : List (Nat × List (BranchId × BranchId)))
    (bid : BranchId) : Prop :=
  ∃ entry ∈ entries, ∃ pair ∈ entry.2, bid = pair.1 ∨ bid = pair.2

/--
The branches and marks of two instrumented files are the same, and what the
light one reports is listed by the heavy one.
-/
structure Agree
    (heavy : CrestAll.Seen × List (Fundec Instrumented))
    (light : List (Fundec Instrumented)) : Prop where
  points :
    heavy.2.map (fun f => f.sbody.points) =
      light.map (fun f => f.sbody.points)
  listed :
    ∀ f ∈ light, ∀ bid ∈ f.sbody.reported, Listed heavy.1.writeBranches bid

/-- Whether a call of `MPI_Comm_size` is for a world that can be marked. -/
def acceptsWorldSize (args : List Exp) : Bool :=
  match args with
  | h :: k :: _ => isConstant h && (markedAddress? k).isSome
  | _ => false

/-- A visited call for which marking calls are inserted. -/
def insertsMark : Instr → Bool
  | .call _ callee args =>
      let name := (calledFunction? callee).map Varinfo.vname
      !skipsCall callee &&
        (decide (name = some "MPI_Comm_rank") && acceptsRank args ||
          decide (name = some "MPI_Comm_size") && acceptsWorldSize args)
  | _ => false

/-- A function without anything to report or to mark. -/
structure Unmarked (f : Fundec Instr) : Prop where
  noIf : ¬HasIf f.sbody.text
  noMark : ∀ i ∈ f.sbody.instrs, insertsMark i = false

section Invisible

/-- The points of a list of instructions. -/
def pointsOf (out : List Instrumented) : List Point :=
  (out.map Token.instr).filterMap Token.point?

@[simp] theorem pointsOf_append (out others : List Instrumented) :
    pointsOf (out ++ others) = pointsOf out ++ pointsOf others := by
  simp [pointsOf]

/-- The points of inserted calls. -/
theorem pointsOf_runtime (calls : List RuntimeCall) :
    pointsOf (calls.map .runtime) = calls.filterMap RuntimeCall.point? := by
  rw [pointsOf, List.map_map, List.filterMap_map]
  rfl

theorem points_inserted (calls : List RuntimeCall) :
    (inserted calls).filterMap Token.point? =
      calls.filterMap RuntimeCall.point? := by
  rw [inserted, List.filterMap_map]
  rfl

/-- The evaluation of an expression has no points. -/
@[simp] theorem instrumentExpr_invisible (e : Exp) :
    (CrestAll.instrumentExpr e).filterMap RuntimeCall.point? = [] := by
  fun_induction CrestAll.instrumentExpr e with
  | case4 op e₁ type _ inductionHypothesis =>
      rw [List.filterMap_append, inductionHypothesis]
      rfl
  | case5 op e₁ e₂ type _ firstHypothesis secondHypothesis =>
      rw [List.filterMap_append, List.filterMap_append, firstHypothesis,
        secondHypothesis]
      rfl
  | case6 type e₁ _ inductionHypothesis =>
      exact inductionHypothesis
  | _ =>
      rfl

@[simp] theorem arguments_invisible (args : List Exp) :
    (args.flatMap CrestAll.instrumentExpr).filterMap RuntimeCall.point? =
      [] := by
  induction args with
  | nil =>
      rfl
  | cons e rest inductionHypothesis =>
      rw [List.flatMap_cons, List.filterMap_append, inductionHypothesis,
        instrumentExpr_invisible, List.append_nil]

theorem afterCall_invisible (ret : Option Lval) :
    (CrestAll.afterCall ret).filterMap RuntimeCall.point? = [] := by
  unfold CrestAll.afterCall
  split
  · split <;> rfl
  · rfl

theorem beforeReturn_invisible (value : Option Exp) :
    (CrestAll.beforeReturn value).filterMap RuntimeCall.point? = [] := by
  unfold CrestAll.beforeReturn
  split
  · next e =>
      split
      · rw [List.filterMap_append, instrumentExpr_invisible]
        rfl
      · rfl
  · rfl

theorem entryStores_invisible (f : Fundec Instr) :
    (CrestAll.entryStores f).filterMap RuntimeCall.point? = [] := by
  rw [List.filterMap_eq_nil_iff]
  intro call member
  unfold CrestAll.entryStores at member
  split at member
  · cases member
  · rw [List.mem_reverse, List.mem_map] at member
    obtain ⟨formal, _, rfl⟩ := member
    rfl

end Invisible

section Points

/-- Both instrumenters give an instruction the same points. -/
theorem points_vinst (i : Instr) :
    pointsOf (CrestAll.vinst i) = pointsOf (CrestBranch.vinst i) := by
  cases i with
  | set lv e =>
      simp only [CrestAll.vinst, CrestBranch.vinst]
      split
      · rw [pointsOf_append, pointsOf_runtime, List.filterMap_append,
          instrumentExpr_invisible]
        rfl
      · rfl
  | call ret callee args =>
      simp only [CrestAll.vinst, CrestBranch.vinst]
      split
      · rfl
      · rw [pointsOf_append, pointsOf_runtime, arguments_invisible,
          List.nil_append]
        unfold CrestAll.changeCall CrestBranch.changeCall
        dsimp only
        split
        · rfl
        · split
          · rw [pointsOf_append]
            exact List.append_nil _
          · split
            · rw [pointsOf_append]
              exact List.append_nil _
            · have noneAfter :
                  pointsOf ((CrestAll.afterCall ret).map .runtime) = [] := by
                rw [pointsOf_runtime, afterCall_invisible]
              rw [← List.singleton_append, pointsOf_append, noneAfter,
                List.append_nil]
  | asm template =>
      rfl

/-- Both instrumenters give a site the same points. -/
theorem points_expand (site : Site) :
    (CrestAll.visitor.expand site).filterMap Token.point? =
      (CrestBranch.visitor.expand site).filterMap Token.point? := by
  cases site with
  | entry bid taken =>
      rfl
  | own token =>
      cases token with
      | instr i =>
          exact points_vinst i
      | ret value =>
          simp only [Visitor.expand, List.filterMap_append, points_inserted]
          rw [CrestAll.visitor, beforeReturn_invisible]
          rfl
      | ite condition =>
          simp only [Visitor.expand, List.filterMap_append, points_inserted]
          rw [CrestAll.visitor, instrumentExpr_invisible]
          rfl
      | _ =>
          rfl

/-- Both instrumenters give a block the same points. -/
theorem points_visitBlock (b : Block Instr) :
    (CrestAll.visitor.visitBlock b).points =
      (CrestBranch.visitor.visitBlock b).points := by
  rw [Block.points, Block.points, text_visitBlock, text_visitBlock]
  induction b.sites with
  | nil =>
      rfl
  | cons site rest inductionHypothesis =>
      rw [List.flatMap_cons, List.filterMap_append, points_expand,
        inductionHypothesis, List.flatMap_cons, List.filterMap_append]

@[simp] theorem points_prependToBlock
    {calls : List RuntimeCall}
    (invisible : calls.filterMap RuntimeCall.point? = [])
    (b : Block Instrumented) :
    (prependToBlock calls b).points = b.points := by
  rw [Block.points, text_prependToBlock, List.filterMap_append,
    points_inserted, invisible]
  rfl

/-- The entry of a function has no points. -/
theorem points_vfunc
    {f : Fundec Instr}
    (visited : shouldSkipFunction f.svar = false)
    (seen : CrestAll.Seen) :
    (CrestAll.vfunc seen f).2.sbody.points =
      (CrestBranch.visitFunction f).sbody.points := by
  simp only [CrestAll.vfunc, visited, Bool.false_eq_true, if_false]
  rw [points_prependToBlock rfl]
  split
  · exact points_visitBlock f.sbody
  · rw [points_prependToBlock (entryStores_invisible f)]
    exact points_visitBlock f.sbody

end Points

/-- A branch of one of some pairs. -/
def InPairs (pairs : List (BranchId × BranchId)) (bid : BranchId) : Prop :=
  ∃ pair ∈ pairs, bid = pair.1 ∨ bid = pair.2

theorem InPairs.mono
    {pairs others : List (BranchId × BranchId)}
    {bid : BranchId}
    (subset : pairs ⊆ others)
    (inPairs : InPairs pairs bid) :
    InPairs others bid := by
  obtain ⟨pair, member, isBranch⟩ := inPairs
  exact ⟨pair, subset member, isBranch⟩

section Entries

variable {bid : BranchId} {taken : Bool}

mutual

/-- A front of a branch in a statement belongs to a pair and to an `if`. -/
theorem entry_stmt
    (s : Stmt Instr)
    (member : .entry bid taken ∈ s.sites) :
    InPairs (CrestAll.stmtBranchPairs s) bid ∧ HasIf s.text := by
  cases s with
  | ite sid labels condition thenBlock elseBlock =>
      refine ⟨?_, condition, by simp [Stmt.text]⟩
      have cases :
          bid = getFirstStmtId thenBlock ∨ bid = getFirstStmtId elseBlock ∨
            .entry bid taken ∈ thenBlock.sites ∨
            .entry bid taken ∈ elseBlock.sites := by
        simp [Stmt.sites, labelSites] at member
        tauto
      rcases cases with isFirst | isSecond | inThen | inElse
      · exact ⟨_, List.mem_cons_self, Or.inl isFirst⟩
      · exact ⟨_, List.mem_cons_self, Or.inr isSecond⟩
      · apply (entry_block thenBlock inThen).1.mono
        intro pair isPair
        simp [CrestAll.stmtBranchPairs, isPair]
      · apply (entry_block elseBlock inElse).1.mono
        intro pair isPair
        simp [CrestAll.stmtBranchPairs, isPair]
  | loop sid labels body =>
      have inBody : .entry bid taken ∈ body.sites := by
        simpa [Stmt.sites, labelSites] using member
      obtain ⟨inPairs, condition, isIf⟩ := entry_block body inBody
      exact ⟨inPairs, condition, by simp [Stmt.text, isIf]⟩
  | block sid labels body =>
      have inBody : .entry bid taken ∈ body.sites := by
        simpa [Stmt.sites, labelSites] using member
      obtain ⟨inPairs, condition, isIf⟩ := entry_block body inBody
      exact ⟨inPairs, condition, by simp [Stmt.text, isIf]⟩
  | _ =>
      simp [Stmt.sites, labelSites] at member

/-- A front of a branch in a block belongs to a pair and to an `if`. -/
theorem entry_block
    (b : Block Instr)
    (member : .entry bid taken ∈ b.sites) :
    InPairs (CrestAll.blockBranchPairs b) bid ∧ HasIf b.text := by
  cases b with
  | nil =>
      cases member
  | cons s rest =>
      rcases List.mem_append.mp member with inFirst | inRest
      · obtain ⟨inPairs, condition, isIf⟩ := entry_stmt s inFirst
        exact ⟨inPairs.mono (List.subset_append_left _ _), condition,
          List.mem_append_left _ isIf⟩
      · obtain ⟨inPairs, condition, isIf⟩ := entry_block rest inRest
        exact ⟨inPairs.mono (List.subset_append_right _ _), condition,
          List.mem_append_right _ isIf⟩

end

mutual

/-- An `if` in a statement has a front of a branch. -/
theorem exists_entry_stmt
    (s : Stmt Instr)
    (hasIf : HasIf s.text) :
    ∃ bid, .entry bid true ∈ s.sites := by
  obtain ⟨condition, member⟩ := hasIf
  cases s with
  | ite sid labels condition thenBlock elseBlock =>
      exact ⟨getFirstStmtId thenBlock, by simp [Stmt.sites]⟩
  | loop sid labels body =>
      have inBody : HasIf body.text :=
        ⟨condition, by simpa [Stmt.text] using member⟩
      obtain ⟨bid, isEntry⟩ := exists_entry_block body inBody
      exact ⟨bid, by simp [Stmt.sites, isEntry]⟩
  | block sid labels body =>
      have inBody : HasIf body.text :=
        ⟨condition, by simpa [Stmt.text] using member⟩
      obtain ⟨bid, isEntry⟩ := exists_entry_block body inBody
      exact ⟨bid, by simp [Stmt.sites, isEntry]⟩
  | _ =>
      simp [Stmt.text] at member

/-- An `if` in a block has a front of a branch. -/
theorem exists_entry_block
    (b : Block Instr)
    (hasIf : HasIf b.text) :
    ∃ bid, .entry bid true ∈ b.sites := by
  obtain ⟨condition, member⟩ := hasIf
  cases b with
  | nil =>
      cases member
  | cons s rest =>
      rcases List.mem_append.mp member with inFirst | inRest
      · obtain ⟨bid, isEntry⟩ := exists_entry_stmt s ⟨condition, inFirst⟩
        exact ⟨bid, List.mem_append_left _ isEntry⟩
      · obtain ⟨bid, isEntry⟩ := exists_entry_block rest ⟨condition, inRest⟩
        exact ⟨bid, List.mem_append_right _ isEntry⟩

end

end Entries

section Skipped

variable {f : Fundec Instr} {b : Block Instr} {i : Instr}

/-- The marker of world sizes gives nothing if it does not accept. -/
theorem worldSizeMarker_eq_nil
    {g : List Exp}
    (rejects : acceptsWorldSize g = false) :
    worldSizeMarker g = [] := by
  match g with
  | [] => rfl
  | [_] => rfl
  | h :: k :: rest =>
      cases marked : markedAddress? k with
      | none =>
          simp [worldSizeMarker, marked]
      | some address =>
          have notConstant : isConstant h = false := by
            simpa [acceptsWorldSize, marked] using rejects
          simp [worldSizeMarker, marked, notConstant]

/-- Without marking calls an instruction keeps its own point only. -/
theorem points_of_not_insertsMark
    (unmarked : insertsMark i = false) :
    pointsOf (CrestBranch.vinst i) = pointsOf [.program i] := by
  cases i with
  | call ret callee args =>
      simp only [CrestBranch.vinst]
      split
      · rfl
      · next visited =>
          have isVisited := Bool.eq_false_iff.mpr visited
          unfold CrestBranch.changeCall
          dsimp only
          split
          · rfl
          · split
            · next isRank =>
                have rejects : acceptsRank args = false := by
                  simpa [insertsMark, isVisited, isRank] using unmarked
                have lost : losesCall (.call ret callee args) = true := by
                  simp [losesCall, isVisited, isRank, rejects]
                rw [CrestBranch.rankMarker, rankMarker_eq_nil rejects]
                simp [pointsOf, Token.point?, lost]
            · split
              · next isSize =>
                  have rejects : acceptsWorldSize args = false := by
                    simpa [insertsMark, isVisited, isSize] using unmarked
                  rw [CrestBranch.worldSizeMarker,
                    worldSizeMarker_eq_nil rejects]
                  rfl
              · rfl
  | _ =>
      rfl

/-- What a list of arguments that the marker of sizes accepts looks like. -/
theorem exists_marked_of_acceptsWorldSize
    {args : List Exp}
    (accepts : acceptsWorldSize args = true) :
    ∃ h k rest marked,
      args = h :: k :: rest ∧
        isConstant h = true ∧ markedAddress? k = some marked := by
  match args with
  | [] => cases accepts
  | [_] => cases accepts
  | h :: k :: rest =>
      obtain ⟨constant, isSome⟩ := Bool.and_eq_true_iff.mp accepts
      obtain ⟨marked, isMarked⟩ := Option.isSome_iff_exists.mp isSome
      exact ⟨h, k, rest, marked, rfl, constant, isMarked⟩

/-- A rank that is accepted gives a marking point. -/
theorem rankMarker_marking
    {g : List Exp}
    (accepts : acceptsRank g = true) :
    ∃ c, Point.marking c ∈ pointsOf (rankMarker g i) := by
  obtain ⟨h, k, rest, marked, rfl, isMarked⟩ :=
    exists_marked_of_acceptsRank accepts
  simp only [rankMarker, isMarked]
  split
  · exact ⟨.rank (toAddr marked), List.mem_cons_self⟩
  · exact ⟨.rankNonDefaultComm1 (toAddr k), List.mem_cons_self⟩

/-- A world size that is accepted gives a marking point. -/
theorem worldSizeMarker_marking
    {g : List Exp}
    (accepts : acceptsWorldSize g = true) :
    ∃ c, Point.marking c ∈ pointsOf (worldSizeMarker g) := by
  obtain ⟨h, k, rest, marked, rfl, constant, isMarked⟩ :=
    exists_marked_of_acceptsWorldSize accepts
  simp only [worldSizeMarker, isMarked, constant, if_true]
  exact
    ⟨.worldSizeWithLimit (toAddr marked) worldSizeLimit,
      List.mem_cons_self⟩

/-- A call with marking calls has a marking point. -/
theorem exists_marking
    (marked : insertsMark i = true) :
    ∃ c, Point.marking c ∈ pointsOf (CrestBranch.vinst i) := by
  cases i with
  | call ret callee args =>
      simp only [insertsMark, Bool.and_eq_true, Bool.or_eq_true,
        Bool.not_eq_true', decide_eq_true_eq] at marked
      obtain ⟨visited, ⟨isRank, accepts⟩ | ⟨isSize, accepts⟩⟩ := marked
      · simp only [CrestBranch.vinst, visited, CrestBranch.changeCall, isRank]
        exact rankMarker_marking accepts
      · obtain ⟨c, member⟩ := worldSizeMarker_marking accepts
        simp only [CrestBranch.vinst, visited, CrestBranch.changeCall, isSize]
        exact ⟨c, by simp [CrestBranch.worldSizeMarker, member]⟩
  | _ =>
      cases marked

/-- The light instrumenter adds no points to an unmarked function. -/
theorem points_of_unmarked (unmarked : Unmarked f) :
    (CrestBranch.visitFunction f).sbody.points = f.sbody.plain.points := by
  have expanded :
      ∀ sites : List Site,
        sites ⊆ f.sbody.sites →
        (sites.flatMap CrestBranch.visitor.expand).filterMap Token.point? =
          ((sites.filterMap Site.token?).map Token.plain).filterMap
            Token.point? := by
    intro sites inBlock
    induction sites with
    | nil =>
        rfl
    | cons site rest inductionHypothesis =>
        have later := inductionHypothesis fun other member =>
          inBlock (List.mem_cons_of_mem site member)
        have inSites : site ∈ f.sbody.sites := inBlock List.mem_cons_self
        rw [List.flatMap_cons, List.filterMap_append, later]
        cases site with
        | entry bid taken =>
            exact absurd (entry_block f.sbody inSites).2 unmarked.noIf
        | own token =>
            rw [List.filterMap_cons_some (show Site.token? _ = _ from rfl),
              List.map_cons, ← List.singleton_append, List.filterMap_append]
            congr 1
            cases token with
            | instr i =>
                apply points_of_not_insertsMark
                apply unmarked.noMark
                rw [Block.mem_instrs, ← own_mem_sites]
                exact inSites
            | _ =>
                rfl
  rw [CrestBranch.visitFunction, Block.points, text_visitBlock,
    expanded f.sbody.sites (List.Subset.refl _), token_sitesBlock,
    Block.points, text_plainBlock]

/-- A program without inserted calls has only points of its own. -/
theorem own_of_mem_points_plain
    {point : Point}
    (member : point ∈ b.plain.points) :
    ∃ token, point = .own token := by
  rw [Block.points, text_plainBlock, List.mem_filterMap] at member
  obtain ⟨token, inText, isPoint⟩ := member
  obtain ⟨original, _, rfl⟩ := List.mem_map.mp inText
  cases original with
  | instr i =>
      simp only [Token.plain, Token.point?] at isPoint
      split at isPoint
      · cases isPoint
      · exact ⟨_, (Option.some.inj isPoint).symm⟩
  | _ =>
      exact ⟨_, (Option.some.inj isPoint).symm⟩

/-- The points that are made of a site are points of the block. -/
theorem mem_points_of_site
    {v : Visitor}
    {site : Site}
    {point : Point}
    (inBlock : site ∈ b.sites)
    (member : point ∈ (v.expand site).filterMap Token.point?) :
    point ∈ (v.visitBlock b).points := by
  rw [Block.points, text_visitBlock, List.mem_filterMap]
  obtain ⟨token, expanded, isPoint⟩ := List.mem_filterMap.mp member
  exact ⟨token, List.mem_flatMap.mpr ⟨site, inBlock, expanded⟩, isPoint⟩

/-- If the light instrumenter adds no points, then a function is unmarked. -/
theorem unmarked_of_points
    (same :
      f.sbody.plain.points = (CrestBranch.visitFunction f).sbody.points) :
    Unmarked f := by
  constructor
  · intro hasIf
    obtain ⟨bid, isEntry⟩ := exists_entry_block f.sbody hasIf
    have branches :
        Point.branch bid ∈ (CrestBranch.visitFunction f).sbody.points :=
      mem_points_of_site isEntry List.mem_cons_self
    rw [← same] at branches
    obtain ⟨token, impossible⟩ := own_of_mem_points_plain branches
    cases impossible
  · intro i member
    rw [Bool.eq_false_iff]
    intro marked
    obtain ⟨c, isMarking⟩ := exists_marking marked
    have inSites : Site.own (.instr i) ∈ f.sbody.sites :=
      own_mem_sites.mpr (Block.mem_instrs.mp member)
    have marks :
        Point.marking c ∈ (CrestBranch.visitFunction f).sbody.points :=
      mem_points_of_site inSites isMarking
    rw [← same] at marks
    obtain ⟨token, impossible⟩ := own_of_mem_points_plain marks
    cases impossible

end Skipped

section Reported

/-- No instruction is given a report of a branch by the light instrumenter. -/
theorem not_branchOnly_mem_vinst
    {i : Instr}
    {bid : BranchId} :
    .runtime (.branchOnly bid) ∉ CrestBranch.vinst i := by
  have noRank (g : List Exp) (i : Instr) :
      .runtime (.branchOnly bid) ∉ rankMarker g i := by
    unfold rankMarker
    split
    · split
      · exact List.not_mem_nil
      · split <;> simp
    · exact List.not_mem_nil
  have noSize (g : List Exp) :
      .runtime (.branchOnly bid) ∉ worldSizeMarker g := by
    unfold worldSizeMarker
    split
    · split
      · exact List.not_mem_nil
      · split <;> simp
    · exact List.not_mem_nil
  cases i with
  | call ret callee args =>
      simp only [CrestBranch.vinst, CrestBranch.changeCall,
        CrestBranch.rankMarker, CrestBranch.worldSizeMarker]
      split
      · simp
      · split
        · simp
        · split
          · exact noRank args _
          · split
            · simp [noSize]
            · simp
  | _ =>
      simp [CrestBranch.vinst]

/-- What the light instrumenter reports in a block is a front of a branch. -/
theorem entry_of_reported
    {b : Block Instr}
    {bid : BranchId}
    (reported : bid ∈ (CrestBranch.visitor.visitBlock b).reported) :
    ∃ taken, .entry bid taken ∈ b.sites := by
  unfold Block.reported at reported
  rw [text_visitBlock, List.mem_filterMap] at reported
  obtain ⟨token, member, isReport⟩ := reported
  obtain ⟨site, inBlock, expanded⟩ := List.mem_flatMap.mp member
  have isBranchOnly : token = .instr (.runtime (.branchOnly bid)) := by
    split at isReport
    · rw [Option.some.inj isReport]
    · cases isReport
  rw [isBranchOnly] at expanded
  cases site with
  | entry other taken =>
      have isEntry : bid = other := by
        simpa [Visitor.expand, inserted, CrestBranch.visitor] using expanded
      exact ⟨taken, isEntry ▸ inBlock⟩
  | own token =>
      cases token with
      | instr i =>
          have inList :
              Instrumented.runtime (.branchOnly bid) ∈ CrestBranch.vinst i := by
            simpa [Visitor.expand, CrestBranch.visitor] using expanded
          exact absurd inList not_branchOnly_mem_vinst
      | _ =>
          simp [Visitor.expand, CrestBranch.visitor, inserted] at expanded

end Reported

namespace CrestAll

section Branches

variable
  {seen : Seen}
  {bid : BranchId}
  {pairs : List (BranchId × BranchId)}

/-- The entries that are written. -/
theorem Seen.mem_writeBranches {entry : Nat × List (BranchId × BranchId)} :
    entry ∈ seen.writeBranches ↔
      entry ∈ ((seen.funCount, seen.curBranches) :: seen.branches).dropLast ∧
        0 < entry.1 := by
  rw [Seen.writeBranches, List.tail_reverse, List.mem_filter,
    List.mem_reverse, decide_eq_true_eq]

theorem Seen.listed_addFunction
    (listed : Listed seen.writeBranches bid) :
    Listed seen.addFunction.writeBranches bid := by
  obtain ⟨entry, member, inPairs⟩ := listed
  obtain ⟨isEntry, positive⟩ := mem_writeBranches.mp member
  refine ⟨entry, mem_writeBranches.mpr ⟨?_, positive⟩, inPairs⟩
  exact List.mem_cons_of_mem _ isEntry

theorem Seen.listed_addBranchPairs
    (listed : Listed seen.writeBranches bid) :
    Listed (seen.addBranchPairs pairs).writeBranches bid := by
  obtain ⟨entry, member, pair, isPair, isBranch⟩ := listed
  obtain ⟨isEntry, positive⟩ := mem_writeBranches.mp member
  cases branches : seen.branches with
  | nil =>
      rw [branches] at isEntry
      cases isEntry
  | cons first rest =>
      rw [branches, List.dropLast_cons_cons] at isEntry
      rcases List.mem_cons.mp isEntry with rfl | inRest
      · refine
          ⟨(seen.funCount, pairs.reverse ++ seen.curBranches),
            mem_writeBranches.mpr ⟨?_, positive⟩, pair,
            List.mem_append_right _ isPair, isBranch⟩
        simp [addBranchPairs, branches]
      · refine
          ⟨entry, mem_writeBranches.mpr ⟨?_, positive⟩, pair, isPair,
            isBranch⟩
        simp [addBranchPairs, branches, inRest]

/-- The pairs of a visited function are listed. -/
theorem listed_vfunc_new
    {f : Fundec Instr}
    (visited : shouldSkipFunction f.svar = false)
    (inPairs : InPairs (blockBranchPairs f.sbody) bid) :
    Listed (vfunc seen f).1.writeBranches bid := by
  obtain ⟨pair, isPair, isBranch⟩ := inPairs
  simp only [vfunc, visited, Bool.false_eq_true, if_false]
  refine
    ⟨(seen.funCount + 1, (blockBranchPairs f.sbody).reverse),
      Seen.mem_writeBranches.mpr ⟨?_, Nat.succ_pos _⟩, pair,
      List.mem_reverse.mpr isPair, isBranch⟩
  simp [Seen.addBranchPairs, Seen.addFunction]

theorem listed_vfunc
    {f : Fundec Instr}
    (listed : Listed seen.writeBranches bid) :
    Listed (vfunc seen f).1.writeBranches bid := by
  unfold vfunc
  split
  · exact listed
  · exact Seen.listed_addBranchPairs (Seen.listed_addFunction listed)

theorem listed_visitFile
    {file : List (Fundec Instr)}
    (listed : Listed seen.writeBranches bid) :
    Listed (visitFile seen file).1.writeBranches bid := by
  induction file generalizing seen with
  | nil =>
      exact listed
  | cons f rest inductionHypothesis =>
      exact inductionHypothesis (listed_vfunc listed)

/-- The pairs of each visited function of a file are listed. -/
theorem listed_visitFile_new
    {file : List (Fundec Instr)}
    {f : Fundec Instr}
    (member : f ∈ file)
    (visited : shouldSkipFunction f.svar = false)
    (inPairs : InPairs (blockBranchPairs f.sbody) bid) :
    Listed (visitFile seen file).1.writeBranches bid := by
  induction file generalizing seen with
  | nil =>
      cases member
  | cons g rest inductionHypothesis =>
      rcases List.mem_cons.mp member with rfl | inRest
      · have listed : Listed (vfunc seen f).1.writeBranches bid :=
          listed_vfunc_new visited inPairs
        show Listed (visitFile (vfunc seen f).1 rest).1.writeBranches bid
        exact listed_visitFile listed
      · exact inductionHypothesis inRest

end Branches

end CrestAll

section Files

/-- The points of a function agree if and only if it is visited or unmarked. -/
theorem points_vfunc_iff (f : Fundec Instr) (seen : CrestAll.Seen) :
    (CrestAll.vfunc seen f).2.sbody.points =
        (CrestBranch.visitFunction f).sbody.points ↔
      (shouldSkipFunction f.svar = true → Unmarked f) := by
  cases skipped : shouldSkipFunction f.svar with
  | false =>
      simp [points_vfunc skipped]
  | true =>
      simp only [CrestAll.vfunc, skipped, if_true, forall_const]
      constructor
      · exact unmarked_of_points
      · intro unmarked
        exact (points_of_unmarked unmarked).symm

/-- The points of two visited files agree. -/
theorem points_visitFile_iff
    (file : List (Fundec Instr))
    (seen : CrestAll.Seen) :
    (CrestAll.visitFile seen file).2.map (fun f => f.sbody.points) =
        (CrestBranch.visitFile file).map (fun f => f.sbody.points) ↔
      ∀ f ∈ file, shouldSkipFunction f.svar = true → Unmarked f := by
  induction file generalizing seen with
  | nil =>
      simp [CrestAll.visitFile, CrestBranch.visitFile]
  | cons f rest inductionHypothesis =>
      have later := inductionHypothesis (CrestAll.vfunc seen f).1
      simp only [CrestAll.visitFile, CrestBranch.visitFile, List.map_cons,
        List.cons.injEq, List.forall_mem_cons, points_vfunc_iff] at later ⊢
      rw [later]

/-- Where unvisited functions are unmarked, all reports are listed. -/
theorem listed_of_reported
    {file : List (Fundec Instr)}
    (unmarked :
      ∀ f ∈ file, shouldSkipFunction f.svar = true → Unmarked f)
    (seen : CrestAll.Seen) :
    ∀ f ∈ CrestBranch.visitFile file, ∀ bid ∈ f.sbody.reported,
      Listed (CrestAll.visitFile seen file).1.writeBranches bid := by
  intro g inFile bid reported
  obtain ⟨f, member, rfl⟩ := List.mem_map.mp inFile
  obtain ⟨taken, isEntry⟩ := entry_of_reported reported
  obtain ⟨inPairs, hasIf⟩ := entry_block f.sbody isEntry
  cases skipped : shouldSkipFunction f.svar with
  | false =>
      exact CrestAll.listed_visitFile_new member skipped inPairs
  | true =>
      exact absurd hasIf (unmarked f member skipped).noIf

/-- An unmarked function stays one when a file is prepared. -/
theorem SameSkeleton.unmarked_iff
    {f g : Fundec Instr}
    (same : SameSkeleton f g) :
    Unmarked g ↔ Unmarked f := by
  constructor
  · intro unmarked
    constructor
    · rw [← same.hasIf_iff]
      exact unmarked.noIf
    · intro i member
      exact unmarked.noMark i (same.mem_instrs.mpr member)
  · intro unmarked
    constructor
    · rw [same.hasIf_iff]
      exact unmarked.noIf
    · intro i member
      exact unmarked.noMark i (same.mem_instrs.mp member)

/-- A file has unmarked unvisited functions also after it is prepared. -/
theorem unmarked_prepareFile_iff
    (stmtCount : Int)
    (file : List (Fundec Instr)) :
    (∀ f ∈ prepareFile stmtCount file,
        shouldSkipFunction f.svar = true → Unmarked f) ↔
      ∀ f ∈ file, shouldSkipFunction f.svar = true → Unmarked f := by
  have skeletons := sameSkeleton_prepareFile stmtCount file
  generalize prepareFile stmtCount file = prepared at skeletons ⊢
  induction skeletons with
  | nil =>
      exact Iff.rfl
  | cons same rest inductionHypothesis =>
      rw [List.forall_mem_cons, List.forall_mem_cons, same.svar,
        same.unmarked_iff]
      exact and_congr_right fun _ => inductionHypothesis

/--
An agreement law: from the same counters, the two instrumenters agree on a
file exactly if its functions that are marked as uninstrumented have no `if`
statement and no call for which marking calls are inserted.
-/
theorem agree_iff
    (file : List (Fundec Instr))
    (stmtCount : Int)
    (funCount : Nat) :
    Agree (CrestAll.instrument stmtCount funCount file)
        (CrestBranch.instrument stmtCount file) ↔
      ∀ f ∈ file, shouldSkipFunction f.svar = true → Unmarked f := by
  rw [← unmarked_prepareFile_iff stmtCount file]
  constructor
  · intro agree
    exact (points_visitFile_iff _ _).mp agree.points
  · intro unmarked
    exact ⟨(points_visitFile_iff _ _).mpr unmarked,
      listed_of_reported unmarked _⟩

/-- A function that is marked as uninstrumented and tests its parameter. -/
def skippedTest : Fundec Instr where
  svar :=
    { vname := "positive"
      vtype := .fn (.int .int) false
      vglob := true
      vattr := ["crest_skip"] }
  sformals :=
    [{ vname := "x"
       vtype := .int .int
       vglob := false
       vattr := [] }]
  sbody :=
    .cons
      (.ite (-1) []
        (.binOp .gt
          (.lval
            (.var
              { vname := "x"
                vtype := .int .int
                vglob := false
                vattr := [] }
              .noOffset))
          (.const (.int64 0 .int)) (.int .int))
        (.cons (.ret (-1) [] (some (.const (.int64 1 .int)))) .nil)
        (.cons (.ret (-1) [] (some (.const (.int64 0 .int)))) .nil))
      .nil

/-- The light instrumenter reports branches 2 and 3, which are not listed. -/
theorem not_agree_skippedTest :
    (2 ∈ (CrestBranch.instrument 0 [skippedTest]).flatMap
        fun f => f.sbody.reported) ∧
      (CrestAll.instrument 0 0 [skippedTest]).1.writeBranches = [] ∧
      ¬Agree (CrestAll.instrument 0 0 [skippedTest])
        (CrestBranch.instrument 0 [skippedTest]) := by
  have reported :
      (CrestBranch.instrument 0 [skippedTest]).map
          (fun f => f.sbody.reported) =
        [[2, 3]] := by
    decide +kernel
  have unlisted :
      (CrestAll.instrument 0 0 [skippedTest]).1.writeBranches = [] := by
    decide +kernel
  refine ⟨?_, unlisted, ?_⟩
  · rw [List.flatMap_def, reported]
    decide
  · intro agree
    have inReported :
        [2, 3] ∈ (CrestBranch.instrument 0 [skippedTest]).map
          (fun f => f.sbody.reported) := by
      rw [reported]
      exact List.mem_cons_self
    obtain ⟨f, member, isReported⟩ := List.mem_map.mp inReported
    have twoReported : (2 : BranchId) ∈ f.sbody.reported := by
      rw [isReported]
      exact List.mem_cons_self
    obtain ⟨entry, inEntries, _⟩ := agree.listed f member 2 twoReported
    rw [unlisted] at inEntries
    cases inEntries

end Files

end Compi.Cil
