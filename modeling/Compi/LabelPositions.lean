import Mathlib.Data.List.Nodup
import Mathlib.Data.Option.Basic
import Compi.InstrumentedRun

/-!
# Positions of labels

With distinct labels a `goto` to a label inside a statement finds it there: what
runs from the label is what the search in the statement alone answers, before
what follows the statement.
-/

namespace Compi.Cil

variable {Inst : Type}

mutual

/-- The labels in a statement, its own first. -/
def Stmt.allLabels : Stmt Inst → List String
  | .instr _ labels _ => labels
  | .ret _ labels _ => labels
  | .goto _ labels _ => labels
  | .computedGoto _ labels _ => labels
  | .ite _ labels _ thenBlock elseBlock =>
      labels ++ (thenBlock.allLabels ++ elseBlock.allLabels)
  | .loop _ labels body => labels ++ body.allLabels
  | .block _ labels body => labels ++ body.allLabels

/-- The labels in a block. -/
def Block.allLabels : Block Inst → List String
  | .nil => []
  | .cons s rest => s.allLabels ++ rest.allLabels

end

mutual

/-- The labels that the gotos in a statement go to. -/
def Stmt.gotoTargets : Stmt Inst → List String
  | .goto _ _ target => [target]
  | .ite _ _ _ thenBlock elseBlock =>
      thenBlock.gotoTargets ++ elseBlock.gotoTargets
  | .loop _ _ body => body.gotoTargets
  | .block _ _ body => body.gotoTargets
  | _ => []

/-- The labels that the gotos in a block go to. -/
def Block.gotoTargets : Block Inst → List String
  | .nil => []
  | .cons s rest => s.gotoTargets ++ rest.gotoTargets

end

/-- A block of some statements. -/
def Block.ofList : List (Stmt Inst) → Block Inst
  | [] => .nil
  | s :: rest => .cons s (ofList rest)

@[simp] theorem Block.toList_ofList (stmts : List (Stmt Inst)) :
    (Block.ofList stmts).toList = stmts := by
  induction stmts with
  | nil =>
      rfl
  | cons s rest inductionHypothesis =>
      simp [Block.ofList, Block.toList, inductionHypothesis]

@[simp] theorem Block.ofList_toList (b : Block Inst) :
    Block.ofList b.toList = b :=
  match b with
  | .nil => rfl
  | .cons s rest => congrArg (Block.cons s) (Block.ofList_toList rest)

theorem Block.allLabels_eq (b : Block Inst) :
    b.allLabels = b.toList.flatMap Stmt.allLabels :=
  match b with
  | .nil => rfl
  | .cons s rest => by
      rw [Block.allLabels, Block.toList, List.flatMap_cons,
        Block.allLabels_eq rest]

@[simp] theorem Block.allLabels_ofList (stmts : List (Stmt Inst)) :
    (Block.ofList stmts).allLabels = stmts.flatMap Stmt.allLabels := by
  rw [Block.allLabels_eq, Block.toList_ofList]

theorem Stmt.labels_subset (s : Stmt Inst) : s.labels ⊆ s.allLabels := by
  intro label member
  cases s with
  | ite => exact List.mem_append_left _ member
  | loop => exact List.mem_append_left _ member
  | block => exact List.mem_append_left _ member
  | _ => exact member

section Search

variable {label : String}

mutual

/-- A label is found in a statement exactly if it is there. -/
theorem isSome_findLabelStmt
    (next : List (Stmt Inst))
    (s : Stmt Inst) :
    (s.findLabel label next).isSome = true ↔ label ∈ s.allLabels := by
  cases s with
  | ite sid labels condition thenBlock elseBlock =>
      unfold Stmt.findLabel Stmt.allLabels
      rw [List.mem_append, List.mem_append,
        ← isSome_findLabelBlock next thenBlock,
        ← isSome_findLabelBlock next elseBlock]
      by_cases own : label ∈ labels
      · simp [own]
      · simp [own]
  | loop sid labels body =>
      unfold Stmt.findLabel Stmt.allLabels
      rw [List.mem_append,
        ← isSome_findLabelBlock (.loop sid labels body :: next) body]
      by_cases own : label ∈ labels
      · simp [own]
      · simp [own]
  | block sid labels body =>
      unfold Stmt.findLabel Stmt.allLabels
      rw [List.mem_append, ← isSome_findLabelBlock next body]
      by_cases own : label ∈ labels
      · simp [own]
      · simp [own]
  | _ =>
      unfold Stmt.findLabel Stmt.allLabels
      exact Option.isSome_ite

/-- The same in a block. -/
theorem isSome_findLabelBlock
    (next : List (Stmt Inst))
    (b : Block Inst) :
    (b.findLabel label next).isSome = true ↔ label ∈ b.allLabels := by
  cases b with
  | nil =>
      simp [Block.findLabel, Block.allLabels]
  | cons s rest =>
      unfold Block.findLabel Block.allLabels
      rw [List.mem_append, ← isSome_findLabelStmt (rest.toList ++ next) s,
        ← isSome_findLabelBlock next rest]
      simp

end

theorem findLabelStmt_eq_none
    {next : List (Stmt Inst)}
    {s : Stmt Inst}
    (absent : label ∉ s.allLabels) :
    s.findLabel label next = none := by
  rw [← isSome_findLabelStmt next s] at absent
  exact Option.not_isSome_iff_eq_none.mp absent

theorem findLabelBlock_eq_none
    {next : List (Stmt Inst)}
    {b : Block Inst}
    (absent : label ∉ b.allLabels) :
    b.findLabel label next = none := by
  rw [← isSome_findLabelBlock next b] at absent
  exact Option.not_isSome_iff_eq_none.mp absent

end Search

section RelatedSearches

variable
  {Code Code' : Type}
  {related : Code → Code' → Prop}

/-- Two searches in a row have related results if each of them has. -/
theorem rel_or
    {first second : Option Code}
    {first' second' : Option Code'}
    (isFirst : Option.Rel related first first')
    (isSecond : Option.Rel related second second') :
    Option.Rel related (first.or second) (first'.or second') := by
  cases isFirst with
  | some isRelated =>
      exact .some isRelated
  | none =>
      exact isSecond

/-- Searches in statements with the same labels have related results. -/
theorem rel_ite
    {label : String}
    {labels : List String}
    {code : Code}
    {code' : Code'}
    {inside : Option Code}
    {inside' : Option Code'}
    (own : related code code')
    (isInside : Option.Rel related inside inside') :
    Option.Rel related (if label ∈ labels then some code else inside)
      (if label ∈ labels then some code' else inside') := by
  split
  · exact .some own
  · exact isInside

end RelatedSearches

/-- The labels in a statement of a body are distinct, and found there. -/
structure StmtAt
    (body : Block Inst)
    (s : Stmt Inst)
    (next : List (Stmt Inst)) : Prop where
  nodup : s.allLabels.Nodup
  found :
    ∀ label ∈ s.allLabels, body.findLabel label [] = s.findLabel label next

/-- The labels in a block of a body are distinct, and found there. -/
structure BlockAt
    (body : Block Inst)
    (b : Block Inst)
    (next : List (Stmt Inst)) : Prop where
  nodup : b.allLabels.Nodup
  found :
    ∀ label ∈ b.allLabels, body.findLabel label [] = b.findLabel label next

section Positions

variable
  {body b thenBlock elseBlock : Block Inst}
  {s : Stmt Inst}
  {rest : Block Inst}
  {next : List (Stmt Inst)}
  {sid : Int}
  {labels : List String}
  {condition : Exp}

/-- A body with distinct labels is at its own position. -/
theorem BlockAt.self (nodup : b.allLabels.Nodup) : BlockAt b b [] where
  nodup := nodup
  found := fun _ _ => rfl

/-- A statement without labels is at any position. -/
theorem StmtAt.of_noLabels (noLabels : s.allLabels = []) : StmtAt body s next where
  nodup := by
    rw [noLabels]
    exact List.nodup_nil
  found := by
    intro label member
    rw [noLabels] at member
    cases member

/-- What runs from a label of the statement itself. -/
theorem StmtAt.findLabel
    (isAt : StmtAt body s next)
    {label : String}
    (member : label ∈ s.labels) :
    body.findLabel label [] = some (s :: next) := by
  rw [isAt.found label (s.labels_subset member)]
  exact s.findLabel_of_mem member

theorem BlockAt.head (isAt : BlockAt body (.cons s rest) next) :
    StmtAt body s (rest.toList ++ next) where
  nodup := (List.nodup_append.mp isAt.nodup).1
  found := by
    intro label member
    rw [isAt.found label (List.mem_append_left _ member), Block.findLabel]
    rw [← isSome_findLabelStmt (rest.toList ++ next) s] at member
    exact Option.or_of_isSome member

theorem BlockAt.tail (isAt : BlockAt body (.cons s rest) next) :
    BlockAt body rest next where
  nodup := (List.nodup_append.mp isAt.nodup).2.1
  found := by
    intro label member
    have notBefore : label ∉ s.allLabels := fun before =>
      (List.nodup_append.mp isAt.nodup).2.2 label before label member rfl
    rw [isAt.found label (List.mem_append_right _ member), Block.findLabel,
      findLabelStmt_eq_none notBefore, Option.none_or]

theorem StmtAt.inThen
    (isAt : StmtAt body (.ite sid labels condition thenBlock elseBlock) next) :
    BlockAt body thenBlock next := by
  obtain ⟨-, inside, apart⟩ := List.nodup_append.mp isAt.nodup
  constructor
  · exact (List.nodup_append.mp inside).1
  · intro label member
    have notOwn : label ∉ labels := fun own =>
      apart label own label (List.mem_append_left _ member) rfl
    rw [isAt.found label
        (List.mem_append_right _ (List.mem_append_left _ member)),
      Stmt.findLabel, if_neg notOwn]
    rw [← isSome_findLabelBlock next thenBlock] at member
    exact Option.or_of_isSome member

theorem StmtAt.inElse
    (isAt : StmtAt body (.ite sid labels condition thenBlock elseBlock) next) :
    BlockAt body elseBlock next := by
  obtain ⟨-, inside, apart⟩ := List.nodup_append.mp isAt.nodup
  constructor
  · exact (List.nodup_append.mp inside).2.1
  · intro label member
    have notOwn : label ∉ labels := fun own =>
      apart label own label (List.mem_append_right _ member) rfl
    have notBefore : label ∉ thenBlock.allLabels := fun before =>
      (List.nodup_append.mp inside).2.2 label before label member rfl
    rw [isAt.found label
        (List.mem_append_right _ (List.mem_append_right _ member)),
      Stmt.findLabel, if_neg notOwn, findLabelBlock_eq_none notBefore,
      Option.none_or]

theorem StmtAt.inLoop
    (isAt : StmtAt body (.loop sid labels b) next) :
    BlockAt body b (.loop sid labels b :: next) := by
  obtain ⟨-, inside, apart⟩ := List.nodup_append.mp isAt.nodup
  constructor
  · exact inside
  · intro label member
    have notOwn : label ∉ labels := fun own => apart label own label member rfl
    rw [isAt.found label (List.mem_append_right _ member), Stmt.findLabel,
      if_neg notOwn]

theorem StmtAt.inBlock
    (isAt : StmtAt body (.block sid labels b) next) :
    BlockAt body b next := by
  obtain ⟨-, inside, apart⟩ := List.nodup_append.mp isAt.nodup
  constructor
  · exact inside
  · intro label member
    have notOwn : label ∉ labels := fun own => apart label own label member rfl
    rw [isAt.found label (List.mem_append_right _ member), Stmt.findLabel,
      if_neg notOwn]

/-- Statements in front are passed. -/
theorem BlockAt.drop
    (front : List (Stmt Inst))
    (isAt : BlockAt body (Block.ofList (front ++ b.toList)) next) :
    BlockAt body b next := by
  induction front with
  | nil =>
      rw [List.nil_append, Block.ofList_toList] at isAt
      exact isAt
  | cons s front inductionHypothesis =>
      exact inductionHypothesis isAt.tail

/-- The search in a block that goes on with some statements. -/
theorem findLabel_append
    {label : String}
    (next back : List (Stmt Inst))
    (b : Block Inst) :
    (Block.ofList (b.toList ++ back)).findLabel label next =
      (b.findLabel label (back ++ next)).or
        ((Block.ofList back).findLabel label next) :=
  match b with
  | .nil => rfl
  | .cons s rest => by
      rw [Block.toList, List.cons_append, Block.ofList, Block.findLabel,
        findLabel_append next back rest, Block.toList_ofList,
        List.append_assoc, Block.findLabel, Option.or_assoc]

/-- Statements behind follow. -/
theorem BlockAt.take
    {back : List (Stmt Inst)}
    (isAt : BlockAt body (Block.ofList (b.toList ++ back)) next) :
    BlockAt body b (back ++ next) := by
  have labels :
      (Block.ofList (b.toList ++ back)).allLabels =
        b.allLabels ++ (Block.ofList back).allLabels := by
    rw [Block.allLabels_ofList, Block.allLabels_ofList, List.flatMap_append,
      Block.allLabels_eq]
  have nodup := isAt.nodup
  rw [labels] at nodup
  constructor
  · exact (List.nodup_append.mp nodup).1
  · intro label member
    have inBoth : label ∈ (Block.ofList (b.toList ++ back)).allLabels := by
      rw [labels]
      exact List.mem_append_left _ member
    rw [isAt.found label inBoth, findLabel_append]
    rw [← isSome_findLabelBlock (back ++ next) b] at member
    exact Option.or_of_isSome member

end Positions

end Compi.Cil
