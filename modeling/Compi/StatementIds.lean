import Compi.BranchCoverage
import Compi.InstrumentationAgreement

/-!
# Statement ids

The pass that numbers the statements of a file gives consecutive ids in
textual order.  The branches of an `if` statement are named by the first
statements of its blocks, so different `if` statements have different pairs.
-/

namespace Compi.Cil

section Ids

variable {Inst : Type}

mutual

/-- The ids of the statements inside a statement, in textual order. -/
def Stmt.inside : Stmt Inst → List Int
  | .ite _ _ _ thenBlock elseBlock => thenBlock.sids ++ elseBlock.sids
  | .loop _ _ body => body.sids
  | .block _ _ body => body.sids
  | _ => []

/-- The ids of the statements of a block, in textual order. -/
def Block.sids : Block Inst → List Int
  | .nil => []
  | .cons s rest => s.sid :: (s.inside ++ rest.sids)

end

/-- The ids of the statements of the functions of a file. -/
def fileSids (functions : List (Fundec Inst)) : List Int :=
  functions.flatMap fun f => f.sbody.sids

end Ids

/-- As many ids as given, after the given one. -/
def consecutive (startId : Int) (count : Nat) : List Int :=
  (List.range count).map fun (i : Nat) => startId + 1 + i

theorem mem_consecutive
    {startId : Int}
    {count : Nat}
    {sid : Int} :
    sid ∈ consecutive startId count ↔
      startId < sid ∧ sid ≤ startId + count := by
  rw [consecutive, List.mem_map]
  constructor
  · rintro ⟨i, member, rfl⟩
    have small := List.mem_range.mp member
    omega
  · rintro ⟨above, below⟩
    refine ⟨(sid - startId - 1).toNat, List.mem_range.mpr ?_, ?_⟩
    · omega
    · omega

theorem nodup_consecutive (startId : Int) (count : Nat) :
    (consecutive startId count).Nodup := by
  refine List.Nodup.map ?_ List.nodup_range
  intro i j same
  exact Int.ofNat.inj (Int.add_left_cancel same)

theorem consecutive_succ (startId : Int) (count : Nat) :
    consecutive startId (count + 1) =
      (startId + 1) :: consecutive (startId + 1) count := by
  rw [consecutive, List.range_succ_eq_map, List.map_cons, List.map_map]
  congr 1
  · exact Int.add_zero _
  · refine List.map_congr_left fun i _ => ?_
    simp only [Function.comp, Nat.succ_eq_add_one]
    omega

theorem consecutive_add (startId : Int) (first second : Nat) :
    consecutive startId (first + second) =
      consecutive startId first ++ consecutive (startId + first) second := by
  induction first generalizing startId with
  | zero =>
      rw [Nat.zero_add]
      exact congrArg (consecutive · second) (Int.add_zero startId).symm
  | succ first inductionHypothesis =>
      rw [Nat.succ_add, consecutive_succ, inductionHypothesis,
        consecutive_succ, List.cons_append]
      congr 3
      omega

section Numbering

mutual

/-- A statement and those inside get consecutive ids. -/
theorem ids_numberStmt
    (startId : Int)
    (s : Stmt Instr) :
    (s.number startId).2.sid = startId + 1 ∧
      (s.number startId).2.inside =
        consecutive (startId + 1) s.inside.length ∧
      (s.number startId).1 = startId + 1 + s.inside.length := by
  cases s with
  | ite sid labels condition thenBlock elseBlock =>
      obtain ⟨firstIds, firstCount⟩ := ids_numberBlock (startId + 1) thenBlock
      obtain ⟨secondIds, secondCount⟩ :=
        ids_numberBlock (thenBlock.number (startId + 1)).1 elseBlock
      rw [firstCount] at secondIds secondCount
      refine ⟨rfl, ?_, ?_⟩
      · simp only [Stmt.number, Stmt.inside, firstIds, secondIds, firstCount,
          List.length_append, consecutive_add]
      · simp only [Stmt.number, Stmt.inside, secondCount, firstCount,
          List.length_append]
        omega
  | loop sid labels body =>
      obtain ⟨ids, count⟩ := ids_numberBlock (startId + 1) body
      exact ⟨rfl, ids, count⟩
  | block sid labels body =>
      obtain ⟨ids, count⟩ := ids_numberBlock (startId + 1) body
      exact ⟨rfl, ids, count⟩
  | _ =>
      exact ⟨rfl, rfl, (Int.add_zero _).symm⟩

/-- The statements of a block get consecutive ids. -/
theorem ids_numberBlock
    (startId : Int)
    (b : Block Instr) :
    (b.number startId).2.sids = consecutive startId b.sids.length ∧
      (b.number startId).1 = startId + b.sids.length := by
  cases b with
  | nil =>
      exact ⟨rfl, (Int.add_zero _).symm⟩
  | cons s rest =>
      obtain ⟨sid, inside, count⟩ := ids_numberStmt startId s
      obtain ⟨restIds, restCount⟩ :=
        ids_numberBlock (s.number startId).1 rest
      rw [count] at restIds restCount
      constructor
      · simp only [Block.number, Block.sids, sid, inside, restIds, count,
          List.length_cons, List.length_append, consecutive_succ,
          consecutive_add]
      · simp only [Block.number, Block.sids, restCount, count,
          List.length_cons, List.length_append]
        omega

end

/-- `start_id` after the functions of a file are numbered. -/
def numberFile (startId : Int) : List (Fundec Instr) → Int
  | [] => startId
  | f :: rest => numberFile (f.sbody.normalize.number startId).1 rest

/-- How many statements of a file are numbered. -/
def statementCount : List (Fundec Instr) → Nat
  | [] => 0
  | f :: rest => f.sbody.normalize.sids.length + statementCount rest

/-- The statements of a file get consecutive ids. -/
theorem ids_prepareFile
    (startId : Int)
    (file : List (Fundec Instr)) :
    fileSids (prepareFile startId file) =
        consecutive startId (statementCount file) ∧
      numberFile startId file = startId + statementCount file := by
  induction file generalizing startId with
  | nil =>
      exact ⟨rfl, (Int.add_zero _).symm⟩
  | cons f rest inductionHypothesis =>
      obtain ⟨ids, count⟩ := ids_numberBlock startId f.sbody.normalize
      obtain ⟨restIds, restCount⟩ :=
        inductionHypothesis (f.sbody.normalize.number startId).1
      constructor
      · rw [prepareFile, fileSids, List.flatMap_cons, ← fileSids, ids,
          restIds, count, statementCount, consecutive_add]
      · rw [numberFile, restCount, count, statementCount]
        omega

end Numbering

section Conditionals

/-- The branch that an inserted call reports. -/
def RuntimeCall.branch? : RuntimeCall → Option BranchId
  | .branch bid _ => some bid
  | .branchOnly bid => some bid
  | _ => none

/-- The branch that is reported at the front of a block. -/
def frontBranch? : Block Instrumented → Option BranchId
  | .cons (.instr _ _ (.runtime c :: _)) _ => c.branch?
  | _ => none

/-- The pair of branches that an `if` statement reports. -/
def branchPair?
    (thenBlock elseBlock : Block Instrumented) :
    Option (BranchId × BranchId) := do
  let first ← frontBranch? thenBlock
  let second ← frontBranch? elseBlock
  return (first, second)

mutual

/-- The pairs of the `if` statements of a statement, where they have one. -/
def Stmt.conditionals :
    Stmt Instrumented → List (Option (BranchId × BranchId))
  | .ite _ _ _ thenBlock elseBlock =>
      branchPair? thenBlock elseBlock ::
        (thenBlock.conditionals ++ elseBlock.conditionals)
  | .loop _ _ body => body.conditionals
  | .block _ _ body => body.conditionals
  | _ => []

/-- The pairs of the `if` statements of a block, where they have one. -/
def Block.conditionals :
    Block Instrumented → List (Option (BranchId × BranchId))
  | .nil => []
  | .cons s rest => s.conditionals ++ rest.conditionals

end

@[simp] theorem conditionals_prependToBlock
    (calls : List RuntimeCall)
    (b : Block Instrumented) :
    (prependToBlock calls b).conditionals = b.conditionals :=
  rfl

theorem conditionals_withQueue
    {queue : List RuntimeCall}
    {sid : Int}
    {labels : List String}
    {make : Int → List String → Stmt Instrumented}
    {pairs : List (Option (BranchId × BranchId))}
    (shape : ∀ sid labels, (make sid labels).conditionals = pairs) :
    (withQueue queue sid labels make).conditionals = pairs := by
  cases queue with
  | nil =>
      exact shape sid labels
  | cons call rest =>
      exact (List.append_nil _).trans (shape (-1) [])

variable {v : Visitor}

/-- The calls in front of the blocks of an `if` statement report its pair. -/
theorem branchPair?_prependToBlock
    {first second : RuntimeCall}
    {one other : BranchId}
    (reportsFirst : first.branch? = some one)
    (reportsSecond : second.branch? = some other)
    (thenBlock elseBlock : Block Instrumented) :
    branchPair? (prependToBlock [first] thenBlock)
        (prependToBlock [second] elseBlock) =
      some (one, other) := by
  show
    (first.branch?.bind fun one =>
      second.branch?.bind fun other => some (one, other)) =
      some (one, other)
  rw [reportsFirst, reportsSecond]
  rfl

mutual

/-- A visitor gives each `if` statement of a statement its pair. -/
theorem conditionals_visitStmt
    (reports : ∀ bid taken, (v.atBranch bid taken).branch? = some bid)
    (s : Stmt Instr) :
    (v.visitStmt s).conditionals =
      (CrestAll.stmtBranchPairs s).map some := by
  cases s with
  | ite sid labels condition thenBlock elseBlock =>
      unfold Visitor.visitStmt
      refine conditionals_withQueue fun sid labels => ?_
      simp only [Stmt.conditionals, conditionals_prependToBlock,
        conditionals_visitBlock reports thenBlock,
        conditionals_visitBlock reports elseBlock,
        branchPair?_prependToBlock (reports (getFirstStmtId thenBlock) true)
          (reports (getFirstStmtId elseBlock) false),
        CrestAll.stmtBranchPairs, List.map_cons, List.map_append,
        List.cons_append]
  | loop sid labels body =>
      exact conditionals_visitBlock reports body
  | block sid labels body =>
      exact conditionals_visitBlock reports body
  | ret sid labels value =>
      unfold Visitor.visitStmt
      exact conditionals_withQueue fun sid labels => rfl
  | _ =>
      rfl

/-- A visitor gives each `if` statement of a block its pair. -/
theorem conditionals_visitBlock
    (reports : ∀ bid taken, (v.atBranch bid taken).branch? = some bid)
    (b : Block Instr) :
    (v.visitBlock b).conditionals =
      (CrestAll.blockBranchPairs b).map some := by
  cases b with
  | nil =>
      rfl
  | cons s rest =>
      simp only [Visitor.visitBlock, Block.conditionals,
        conditionals_visitStmt reports s, conditionals_visitBlock reports rest,
        CrestAll.blockBranchPairs, List.map_append]

end

/-- A program without inserted calls reports no branch. -/
theorem frontBranch?_plain (b : Block Instr) :
    frontBranch? b.plain = none := by
  cases b with
  | nil =>
      rfl
  | cons s rest =>
      cases s with
      | instr sid labels is =>
          cases is with
          | nil =>
              rfl
          | cons i is =>
              rfl
      | _ =>
          rfl

mutual

/-- Without inserted calls no `if` statement of a statement has a pair. -/
theorem conditionals_plainStmt (s : Stmt Instr) :
    s.plain.conditionals =
      (CrestAll.stmtBranchPairs s).map fun _ => none := by
  cases s with
  | ite sid labels condition thenBlock elseBlock =>
      simp only [Stmt.plain, Stmt.conditionals, branchPair?,
        frontBranch?_plain, conditionals_plainBlock thenBlock,
        conditionals_plainBlock elseBlock, CrestAll.stmtBranchPairs,
        List.map_cons, List.map_append, List.cons_append]
      rfl
  | loop sid labels body =>
      exact conditionals_plainBlock body
  | block sid labels body =>
      exact conditionals_plainBlock body
  | _ =>
      rfl

/-- Without inserted calls no `if` statement of a block has a pair. -/
theorem conditionals_plainBlock (b : Block Instr) :
    b.plain.conditionals =
      (CrestAll.blockBranchPairs b).map fun _ => none := by
  cases b with
  | nil =>
      rfl
  | cons s rest =>
      simp only [Block.plain, Block.conditionals, conditionals_plainStmt s,
        conditionals_plainBlock rest, CrestAll.blockBranchPairs,
        List.map_append]

end

section Pairs

variable {pair : BranchId × BranchId}

mutual

/-- A statement with a pair has an `if` statement. -/
theorem hasIf_of_mem_stmtBranchPairs
    (s : Stmt Instr)
    (member : pair ∈ CrestAll.stmtBranchPairs s) :
    HasIf s.text := by
  cases s with
  | ite sid labels condition thenBlock elseBlock =>
      exact ⟨condition, by simp [Stmt.text]⟩
  | loop sid labels body =>
      obtain ⟨condition, isIf⟩ := hasIf_of_mem_blockBranchPairs body member
      exact ⟨condition, by simp [Stmt.text, isIf]⟩
  | block sid labels body =>
      obtain ⟨condition, isIf⟩ := hasIf_of_mem_blockBranchPairs body member
      exact ⟨condition, by simp [Stmt.text, isIf]⟩
  | _ =>
      cases member

/-- A block with a pair has an `if` statement. -/
theorem hasIf_of_mem_blockBranchPairs
    (b : Block Instr)
    (member : pair ∈ CrestAll.blockBranchPairs b) :
    HasIf b.text := by
  cases b with
  | nil =>
      cases member
  | cons s rest =>
      rcases List.mem_append.mp member with inFirst | inRest
      · obtain ⟨condition, isIf⟩ := hasIf_of_mem_stmtBranchPairs s inFirst
        exact ⟨condition, List.mem_append_left _ isIf⟩
      · obtain ⟨condition, isIf⟩ := hasIf_of_mem_blockBranchPairs rest inRest
        exact ⟨condition, List.mem_append_right _ isIf⟩

end

/-- A block has a pair exactly if it has an `if` statement. -/
theorem blockBranchPairs_eq_nil_iff (b : Block Instr) :
    CrestAll.blockBranchPairs b = [] ↔ ¬HasIf b.text := by
  constructor
  · intro noPairs hasIf
    obtain ⟨bid, isEntry⟩ := exists_entry_block b hasIf
    obtain ⟨pair, member, _⟩ := (entry_block b isEntry).1
    rw [noPairs] at member
    cases member
  · intro noIf
    refine List.eq_nil_iff_forall_not_mem.mpr fun pair member => ?_
    exact noIf (hasIf_of_mem_blockBranchPairs b member)

end Pairs

end Conditionals

section Distinct

open BranchTables

/-- The first statement of a nonempty block is none that names a branch in it. -/
theorem firstStmt_subperm
    {b : Block Instr}
    {startId : Int}
    (inner :
      (idsOf (CrestAll.blockBranchPairs (b.number startId).2)).Subperm
        (b.number startId).2.sids.tail) :
    (getFirstStmtId ((nonempty b).number startId).2 ::
        idsOf
          (CrestAll.blockBranchPairs
            ((nonempty b).number startId).2)).Subperm
      ((nonempty b).number startId).2.sids := by
  cases b with
  | nil =>
      exact List.Subperm.refl _
  | cons s rest =>
      exact (List.subperm_cons _).mpr inner

mutual

/-- The branches in a statement are named by different statements inside. -/
theorem stmtBranchPairs_subperm
    (startId : Int)
    (s : Stmt Instr) :
    (idsOf
        (CrestAll.stmtBranchPairs (s.normalize.number startId).2)).Subperm
      (s.normalize.number startId).2.inside := by
  cases s with
  | ite sid labels condition thenBlock elseBlock =>
      have first :=
        firstStmt_subperm (blockBranchPairs_subperm (startId + 1) thenBlock)
      have second :=
        firstStmt_subperm
          (blockBranchPairs_subperm
            ((nonempty thenBlock.normalize).number (startId + 1)).1 elseBlock)
      have apart := first.append second
      simp only [Stmt.normalize, Stmt.number, CrestAll.stmtBranchPairs,
        Stmt.inside]
      refine List.Perm.subperm ?_ |>.trans apart
      rw [List.cons_append, idsOf_cons, idsOf_append]
      exact List.perm_middle.symm.cons _
  | loop sid labels body =>
      exact (blockBranchPairs_subperm (startId + 1) body).trans
        (List.tail_sublist _).subperm
  | block sid labels body =>
      exact (blockBranchPairs_subperm (startId + 1) body).trans
        (List.tail_sublist _).subperm
  | _ =>
      exact List.nil_subperm

/-- The branches in a block are named by different statements but the first. -/
theorem blockBranchPairs_subperm
    (startId : Int)
    (b : Block Instr) :
    (idsOf
        (CrestAll.blockBranchPairs (b.normalize.number startId).2)).Subperm
      (b.normalize.number startId).2.sids.tail := by
  cases b with
  | nil =>
      exact List.nil_subperm
  | cons s rest =>
      have first := stmtBranchPairs_subperm startId s
      have later :=
        (blockBranchPairs_subperm (s.normalize.number startId).1 rest).trans
          (List.tail_sublist _).subperm
      have both := first.append later
      rw [← idsOf_append] at both
      exact both

end

end Distinct

end Compi.Cil
