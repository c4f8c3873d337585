import Compi.ObjectHeap
import Compi.WrappingExpression
import Compi.YicesSolver

/-!
# The solver object

The MPI constraints are built in place from expression objects: the first
expressions of ranks and sizes are subtracted from others, and at the end the
first rank is itself changed and becomes a constraint.  The solver object keeps
the constraints of the execution that was processed last.
-/

namespace Compi

open ObjectHeap (Ref)

namespace YicesSolver

/-- The first rank is below the first size, if there are both. -/
def firstBelow (rankIndices worldSizeIndices : List Id) : List SymbolicPred :=
  match rankIndices, worldSizeIndices with
  | rank :: _, worldSize :: _ =>
      [{ op := .lt
         expr := (indexed rank).subAssign (indexed worldSize) }]
  | _, _ => []

theorem generateConstraintsMPI_eq (ex : SymbolicExecution) :
    generateConstraintsMPI ex =
      equalToFirst ex.worldSizeIndices ++
        (equalToFirst ex.rankIndices ++
          (firstBelow ex.rankIndices ex.worldSizeIndices ++
            ex.limits.entries.map fun limit =>
              { op := .le, expr := (indexed limit.1).subConst limit.2 })) := by
  rfl

/-- The value of the variable that an index list entry names. -/
def valueAt (assignment : Var → Value) (id : Id) : Value :=
  assignment (varOfId id)

/--
The ranks and the sizes are each equal, ranks are below sizes, and limited
variables are at most their limits.
-/
structure KeepsMpi
    (ex : SymbolicExecution)
    (assignment : Var → Value) : Prop where
  sizes :
    ∀ size ∈ ex.worldSizeIndices, ∀ other ∈ ex.worldSizeIndices,
      valueAt assignment size = valueAt assignment other
  ranks :
    ∀ rank ∈ ex.rankIndices, ∀ other ∈ ex.rankIndices,
      valueAt assignment rank = valueAt assignment other
  rankBelow :
    ∀ rank ∈ ex.rankIndices, ∀ size ∈ ex.worldSizeIndices,
      valueAt assignment rank < valueAt assignment size
  limited :
    ∀ id limit,
      ex.limits.lookup id = some limit → valueAt assignment id ≤ limit

section Meaning

variable {assignment : Var → Value}

theorem eval_indexed (id : Id) :
    (indexed id).eval assignment = valueAt assignment id := by
  unfold indexed
  rw [SymbolicExpr.eval_ofTerm, one_mul]
  rfl

theorem holds_eq_iff (id other : Id) :
    SymbolicPred.holds
        { op := .eq, expr := (indexed id).subAssign (indexed other) }
        assignment = true ↔
      valueAt assignment id = valueAt assignment other := by
  unfold SymbolicPred.holds
  rw [SymbolicExpr.eval_subAssign, eval_indexed, eval_indexed]
  simp only [CompareOp.holdsOf, decide_eq_true_eq]
  exact sub_eq_zero

theorem holds_lt_iff (id other : Id) :
    SymbolicPred.holds
        { op := .lt, expr := (indexed id).subAssign (indexed other) }
        assignment = true ↔
      valueAt assignment id < valueAt assignment other := by
  unfold SymbolicPred.holds
  rw [SymbolicExpr.eval_subAssign, eval_indexed, eval_indexed]
  simp only [CompareOp.holdsOf, decide_eq_true_eq]
  exact sub_neg

theorem holds_le_iff (id : Id) (limit : Value) :
    SymbolicPred.holds
        { op := .le, expr := (indexed id).subConst limit }
        assignment = true ↔
      valueAt assignment id ≤ limit := by
  unfold SymbolicPred.holds
  rw [SymbolicExpr.eval_subConst, eval_indexed]
  simp only [CompareOp.holdsOf, decide_eq_true_eq]
  exact sub_nonpos

/-- The variables that equal the first are all equal. -/
theorem holds_equalToFirst_iff (ids : List Id) :
    (∀ c ∈ equalToFirst ids, c.holds assignment = true) ↔
      ∀ id ∈ ids, ∀ other ∈ ids,
        valueAt assignment id = valueAt assignment other := by
  cases ids with
  | nil =>
      simp [equalToFirst]
  | cons first others =>
      unfold equalToFirst
      rw [List.forall_mem_map]
      simp only [holds_eq_iff]
      constructor
      · intro equal
        have toFirst :
            ∀ id ∈ first :: others,
              valueAt assignment id = valueAt assignment first := by
          rw [List.forall_mem_cons]
          exact ⟨rfl, equal⟩
        intro id member other otherMember
        exact (toFirst id member).trans (toFirst other otherMember).symm
      · intro equal id later
        exact equal id (List.mem_cons_of_mem _ later) first
          List.mem_cons_self

/-- Where ranks and sizes are each equal, the first ones stand for all. -/
theorem holds_firstBelow_iff
    {rankIndices worldSizeIndices : List Id}
    (ranks :
      ∀ rank ∈ rankIndices, ∀ other ∈ rankIndices,
        valueAt assignment rank = valueAt assignment other)
    (sizes :
      ∀ size ∈ worldSizeIndices, ∀ other ∈ worldSizeIndices,
        valueAt assignment size = valueAt assignment other) :
    (∀ c ∈ firstBelow rankIndices worldSizeIndices,
        c.holds assignment = true) ↔
      ∀ rank ∈ rankIndices, ∀ size ∈ worldSizeIndices,
        valueAt assignment rank < valueAt assignment size := by
  cases rankIndices with
  | nil => simp [firstBelow]
  | cons first others =>
      cases worldSizeIndices with
      | nil => simp [firstBelow]
      | cons firstSize otherSizes =>
          unfold firstBelow
          rw [List.forall_mem_singleton, holds_lt_iff]
          constructor
          · intro below rank isRank size isSize
            rw [ranks rank isRank first List.mem_cons_self,
              sizes size isSize firstSize List.mem_cons_self]
            exact below
          · intro below
            exact below first List.mem_cons_self firstSize
              List.mem_cons_self

/-- The constraints of the limits say that the limits are kept. -/
theorem holds_limits_iff (ex : SymbolicExecution) :
    (∀ entry ∈ ex.limits.entries,
        SymbolicPred.holds
            { op := .le, expr := (indexed entry.1).subConst entry.2 }
            assignment = true) ↔
      ∀ id limit,
        ex.limits.lookup id = some limit → valueAt assignment id ≤ limit := by
  simp only [holds_le_iff, ← AList.mem_lookup_iff, Option.mem_def,
    Sigma.forall]

/-- What the MPI constraints say of an assignment. -/
theorem holds_generateConstraintsMPI
    (ex : SymbolicExecution)
    (assignment : Var → Value) :
    (∀ c ∈ generateConstraintsMPI ex, c.holds assignment = true) ↔
      KeepsMpi ex assignment := by
  rw [generateConstraintsMPI_eq]
  simp only [List.forall_mem_append]
  rw [holds_equalToFirst_iff, holds_equalToFirst_iff, List.forall_mem_map,
    holds_limits_iff]
  constructor
  · rintro ⟨sizes, ranks, below, limited⟩
    exact
      { sizes := sizes
        ranks := ranks
        rankBelow := (holds_firstBelow_iff ranks sizes).mp below
        limited := limited }
  · intro keeps
    have below :=
      (holds_firstBelow_iff keeps.ranks keeps.sizes).mpr keeps.rankBelow
    exact ⟨keeps.sizes, keeps.ranks, below, keeps.limited⟩

end Meaning

section Overflow

/-- A single variable has the coefficient one. -/
theorem getElem?_indexed (id : Id) (v : Var) :
    (indexed id).coeff[v]? = if varOfId id = v then some 1 else none := by
  by_cases same : varOfId id = v <;>
    simp [indexed, SymbolicExpr.ofTerm, same]

/-- The difference of two variables has no large coefficient. -/
theorem fits_difference (id other : Id) :
    ((indexed id).subAssign (indexed other)).Fits := by
  have constFits : FitsValue (0 - 0) := by
    decide
  refine ⟨constFits, fun v d stored => ?_⟩
  change
    (SymbolicExpr.combineCoeff (fun c => -c) (fun d c => d - c)
      (indexed id).coeff (indexed other).coeff)[v]? = some d at stored
  rw [SymbolicExpr.getElem?_combineCoeff, getElem?_indexed,
    getElem?_indexed] at stored
  by_cases isOther : varOfId other = v
  · by_cases isOwn : varOfId id = v
    · simp [isOther, isOwn] at stored
    · simp only [if_pos isOther, if_neg isOwn, Option.some.injEq] at stored
      subst stored
      decide
  · by_cases isOwn : varOfId id = v
    · simp only [if_neg isOther, if_pos isOwn, Option.some.injEq] at stored
      subst stored
      decide
    · simp [isOther, isOwn] at stored

/-- A limit is subtracted without overflow unless it is the least value. -/
theorem fits_limit_iff (id : Id) (limit : Value) :
    ((indexed id).subConst limit).Fits ↔ FitsValue (-limit) := by
  have isConst : ((indexed id).subConst limit).const = -limit := zero_sub limit
  constructor
  · intro fits
    exact isConst ▸ fits.const
  · intro fits
    refine ⟨isConst ▸ fits, fun v d stored => ?_⟩
    have isOne : (if varOfId id = v then some (1 : Value) else none) = some d :=
      (getElem?_indexed id v).symm.trans stored
    split at isOne <;> cases isOne
    decide

/-- No MPI constraint overflows if every limit can be negated. -/
theorem fits_generateConstraintsMPI
    (ex : SymbolicExecution)
    (negatable : ∀ limit ∈ ex.limits.entries, FitsValue (-limit.2)) :
    ∀ p ∈ generateConstraintsMPI ex, p.expr.Fits := by
  have ofDifferences : ∀ ids : List Id, ∀ p ∈ equalToFirst ids, p.expr.Fits := by
    intro ids p member
    cases ids with
    | nil =>
        cases member
    | cons first others =>
        obtain ⟨other, -, rfl⟩ := List.mem_map.mp member
        exact fits_difference other first
  rw [generateConstraintsMPI_eq]
  simp only [List.forall_mem_append]
  refine ⟨ofDifferences _, ofDifferences _, ?_, ?_⟩
  · intro p member
    unfold firstBelow at member
    split at member
    · obtain rfl := List.mem_singleton.mp member
      exact fits_difference _ _
    · cases member
  · refine List.forall_mem_map.mpr fun limit member => ?_
    exact (fits_limit_iff _ _).mpr (negatable limit member)

end Overflow

end YicesSolver

/-- A `SymbolicPred` object: it owns the expression that it points to. -/
structure PredObject where
  op : CompareOp
  expr : Ref

/-- `YicesSolver`, with the objects that it has created. -/
structure SolverObject where
  heap : ObjectHeap SymbolicExpr
  constraintsMPI : List PredObject

namespace SolverObject

section Processing

variable (solver : SolverObject)

/-- `YicesSolver()`. -/
def fresh : SolverObject where
  heap := .empty
  constraintsMPI := []

/-- The expressions that the constraints own. -/
def refs : List Ref :=
  solver.constraintsMPI.map PredObject.expr

/-- `new SymbolicExpr(1, id)`. -/
def newExpr (id : Id) : SolverObject × Ref :=
  let (heap, ref) := solver.heap.new (YicesSolver.indexed id)
  ({ solver with heap := heap }, ref)

/-- `*target -= *other`. -/
def subAssign (target other : Ref) : Option SolverObject := do
  let e ← solver.heap.deref? other
  let heap ← solver.heap.modify target fun expr => expr.subAssign e
  return { solver with heap := heap }

/-- `*target -= c`. -/
def subConst (target : Ref) (c : Value) : Option SolverObject := do
  let heap ← solver.heap.modify target fun expr => expr.subConst c
  return { solver with heap := heap }

/-- `constraintsMPI.push_back(new SymbolicPred(op, expr))`. -/
def push (op : CompareOp) (expr : Ref) : SolverObject :=
  { solver with
    constraintsMPI := solver.constraintsMPI ++ [{ op := op, expr := expr }] }

/-- `delete expr`. -/
def delete (expr : Ref) : Option SolverObject := do
  let heap ← solver.heap.delete expr
  return { solver with heap := heap }

/-- Clear the old contents. -/
def clear : Option SolverObject := do
  let heap ← solver.heap.deleteAll solver.refs
  return { heap := heap, constraintsMPI := [] }

/-- The loop over the other variables of an index list. -/
def constrainOthers
    (first : Ref)
    (solver : SolverObject) : List Id → Option SolverObject
  | [] => some solver
  | id :: rest => do
      let (created, other) := solver.newExpr id
      let subtracted ← created.subAssign other first
      (subtracted.push .eq other).constrainOthers first rest

/-- Make the variables of an index list equal to the first, if there is one. -/
def constrainEqual : List Id → Option (SolverObject × Option Ref)
  | [] => some (solver, none)
  | id :: others => do
      let (created, first) := solver.newExpr id
      let constrained ← created.constrainOthers first others
      return (constrained, some first)

/-- The rank is below the size, if there are both. -/
def constrainRank
    (rankFirst worldSizeFirst : Option Ref) : Option SolverObject :=
  match rankFirst, worldSizeFirst with
  | some rank, some worldSize => do
      let subtracted ← solver.subAssign rank worldSize
      (subtracted.push .lt rank).delete worldSize
  | _, _ => some solver

/-- The loop over the limits. -/
def constrainLimits
    (solver : SolverObject) :
    List (Sigma fun _ : Id => Value) → Option SolverObject
  | [] => some solver
  | limit :: rest => do
      let (created, expr) := solver.newExpr limit.1
      let subtracted ← created.subConst expr limit.2
      (subtracted.push .le expr).constrainLimits rest

/-- `GenerateConstraintsMPI`; it fails if it uses a deleted object. -/
def generateConstraintsMPI (ex : SymbolicExecution) : Option SolverObject := do
  let cleared ← solver.clear
  let (sized, worldSizeFirst) ← cleared.constrainEqual ex.worldSizeIndices
  let (ranked, rankFirst) ← sized.constrainEqual ex.rankIndices
  let below ← ranked.constrainRank rankFirst worldSizeFirst
  below.constrainLimits ex.limits.entries

/-- Repeated calls on the same object. -/
def generateAll
    (solver : SolverObject) : List SymbolicExecution → Option SolverObject
  | [] => some solver
  | ex :: rest => do
      let next ← solver.generateConstraintsMPI ex
      next.generateAll rest

/-- The predicate of an object, if its expression is live. -/
def predicate? (p : PredObject) : Option SymbolicPred :=
  (solver.heap.deref? p.expr).map fun e => { op := p.op, expr := e }

/-- The predicates that the solver reads from its constraints. -/
def predicates : List (Option SymbolicPred) :=
  solver.constraintsMPI.map solver.predicate?

/-- An assignment satisfies all constraints. -/
def IsSatisfied (assignment : Var → Value) : Prop :=
  ∀ p ∈ solver.predicates, ∃ c, p = some c ∧ c.holds assignment = true

end Processing

section Ownership

/-- Each constraint owns a live expression of its own. -/
structure Owns
    (solver : SolverObject)
    (contents : List SymbolicPred) : Prop where
  separate : solver.refs.Nodup
  predicates : solver.predicates = contents.map some

/-- A live expression that no constraint owns. -/
structure Pins
    (solver : SolverObject)
    (ref : Ref)
    (e : SymbolicExpr) : Prop where
  live : solver.heap.deref? ref = some e
  unowned : ref ∉ solver.refs

variable {solver next : SolverObject} {contents : List SymbolicPred}

theorem owns_fresh : fresh.Owns [] where
  separate := List.nodup_nil
  predicates := rfl

/-- The expression of an owned constraint is live. -/
theorem Owns.live
    (owns : solver.Owns contents)
    {ref : Ref}
    (owned : ref ∈ solver.refs) :
    ∃ e, solver.heap.deref? ref = some e := by
  obtain ⟨p, member, rfl⟩ := List.mem_map.mp owned
  have isPredicate : solver.predicate? p ∈ contents.map some :=
    owns.predicates ▸ List.mem_map_of_mem member
  obtain ⟨c, -, isSome⟩ := List.mem_map.mp isPredicate
  obtain ⟨e, isLive, -⟩ := Option.map_eq_some_iff.mp isSome.symm
  exact ⟨e, isLive⟩

/-- What is owned stays owned while its expressions stay. -/
theorem Owns.of_heap
    (owns : solver.Owns contents)
    (same : next.constraintsMPI = solver.constraintsMPI)
    (stays :
      ∀ ref ∈ solver.refs,
        next.heap.deref? ref = solver.heap.deref? ref) :
    next.Owns contents where
  separate := by
    unfold refs
    rw [same]
    exact owns.separate
  predicates := by
    rw [← owns.predicates]
    unfold SolverObject.predicates
    rw [same]
    refine List.map_congr_left fun p member => ?_
    unfold predicate?
    rw [stays p.expr (List.mem_map_of_mem member)]

/-- A pinned expression becomes a constraint. -/
theorem Owns.push
    {op : CompareOp}
    {ref : Ref}
    {e : SymbolicExpr}
    (owns : solver.Owns contents)
    (pinned : solver.Pins ref e) :
    (solver.push op ref).Owns (contents ++ [{ op := op, expr := e }]) where
  separate := by
    unfold refs SolverObject.push
    rw [List.map_append]
    exact List.Nodup.append owns.separate (List.nodup_singleton ref)
      (List.disjoint_singleton.mpr pinned.unowned)
  predicates := by
    have last :
        (solver.push op ref).predicate? { op := op, expr := ref } =
          some { op := op, expr := e } := by
      unfold predicate? SolverObject.push
      rw [pinned.live]
      rfl
    unfold SolverObject.predicates
    rw [show (solver.push op ref).constraintsMPI =
        solver.constraintsMPI ++ [{ op := op, expr := ref }] from rfl,
      List.map_append, List.map_append, List.map_singleton, last,
      List.map_singleton]
    exact congrArg (· ++ _) owns.predicates

/--
Constraints are added, and the live expressions stay as they are: those that
no constraint owned still have no owner.
-/
structure Grows
    (solver next : SolverObject)
    (added : List SymbolicPred) : Prop where
  owns :
    ∀ contents, solver.Owns contents → next.Owns (contents ++ added)
  keeps :
    ∀ ref e,
      solver.heap.deref? ref = some e → next.heap.deref? ref = some e
  pins : ∀ ref e, solver.Pins ref e → next.Pins ref e

theorem Grows.refl (solver : SolverObject) : solver.Grows solver [] where
  owns contents owns := by
    rw [List.append_nil]
    exact owns
  keeps _ _ live := live
  pins _ _ pinned := pinned

theorem Grows.trans
    {middle : SolverObject}
    {first second : List SymbolicPred}
    (before : solver.Grows middle first)
    (after : middle.Grows next second) :
    solver.Grows next (first ++ second) where
  owns contents owns := by
    rw [← List.append_assoc]
    exact after.owns _ (before.owns contents owns)
  keeps ref e live := after.keeps ref e (before.keeps ref e live)
  pins ref e pinned := after.pins ref e (before.pins ref e pinned)

end Ownership

section Steps

variable {solver : SolverObject} {contents : List SymbolicPred}

/-- A new expression is not owned. -/
theorem Owns.pins_newExpr
    (owns : solver.Owns contents)
    (id : Id) :
    (solver.newExpr id).1.Pins (solver.newExpr id).2
      (YicesSolver.indexed id) where
  live := ObjectHeap.deref?_new
  unowned := by
    intro owned
    obtain ⟨e, live⟩ := owns.live owned
    have dead :=
      solver.heap.deref?_new_ref (YicesSolver.indexed id)
    exact Option.some_ne_none e (live.symm.trans dead)

theorem grows_newExpr (solver : SolverObject) (id : Id) :
    solver.Grows (solver.newExpr id).1 [] where
  owns contents owns := by
    rw [List.append_nil]
    refine owns.of_heap rfl fun ref owned => ?_
    obtain ⟨e, live⟩ := owns.live owned
    rw [live]
    exact ObjectHeap.deref?_new_of_live live
  keeps _ _ live := ObjectHeap.deref?_new_of_live live
  pins _ _ pinned :=
    { live := ObjectHeap.deref?_new_of_live pinned.live
      unowned := pinned.unowned }

/-- A new expression that is changed in place and becomes a constraint. -/
theorem exists_constrained
    (solver : SolverObject)
    (op : CompareOp)
    (id : Id)
    (f : SymbolicExpr → SymbolicExpr) :
    ∃ heap,
      (solver.newExpr id).1.heap.modify (solver.newExpr id).2 f = some heap ∧
        solver.Grows
          (SolverObject.push
            { heap := heap, constraintsMPI := solver.constraintsMPI }
            op (solver.newExpr id).2)
          [{ op := op, expr := f (YicesSolver.indexed id) }] := by
  have created : (solver.newExpr id).1.heap.deref? (solver.newExpr id).2 =
      some (YicesSolver.indexed id) :=
    ObjectHeap.deref?_new
  have dead : solver.heap.deref? (solver.newExpr id).2 = none :=
    solver.heap.deref?_new_ref (YicesSolver.indexed id)
  obtain ⟨heap, modified, changed, others⟩ :=
    ObjectHeap.exists_modify f created
  have keeps :
      ∀ ref e,
        solver.heap.deref? ref = some e → heap.deref? ref = some e := by
    intro ref e live
    have different : ref ≠ (solver.newExpr id).2 := by
      rintro rfl
      exact Option.some_ne_none e (live.symm.trans dead)
    rw [others ref different]
    exact ObjectHeap.deref?_new_of_live live
  refine ⟨heap, modified, ?_, keeps, ?_⟩
  · intro contents owns
    refine Owns.push ?_ { live := changed, unowned := ?_ }
    · refine owns.of_heap rfl fun ref owned => ?_
      obtain ⟨e, live⟩ := owns.live owned
      rw [live]
      exact keeps ref e live
    · exact (owns.pins_newExpr id).unowned
  · intro ref e pinned
    refine { live := keeps ref e pinned.live, unowned := ?_ }
    unfold refs SolverObject.push
    rw [List.map_append, List.mem_append, not_or]
    refine ⟨pinned.unowned, ?_⟩
    rw [List.map_singleton, List.mem_singleton]
    rintro rfl
    exact Option.some_ne_none e (pinned.live.symm.trans dead)

/-- The loop over the other variables of an index list. -/
theorem exists_constrainOthers
    {first : Ref}
    {id : Id}
    (others : List Id)
    (pinned : solver.Pins first (YicesSolver.indexed id)) :
    ∃ next,
      solver.constrainOthers first others = some next ∧
        solver.Grows next
          (others.map fun other =>
            { op := .eq
              expr :=
                (YicesSolver.indexed other).subAssign
                  (YicesSolver.indexed id) }) := by
  induction others generalizing solver with
  | nil =>
      exact ⟨solver, rfl, .refl solver⟩
  | cons other rest inductionHypothesis =>
      obtain ⟨heap, modified, grows⟩ :=
        solver.exists_constrained .eq other fun expr =>
          expr.subAssign (YicesSolver.indexed id)
      obtain ⟨next, constrained, growsRest⟩ :=
        inductionHypothesis (grows.pins first _ pinned)
      have firstStays :
          (solver.newExpr other).1.heap.deref? first =
            some (YicesSolver.indexed id) :=
        ObjectHeap.deref?_new_of_live pinned.live
      refine ⟨next, ?_, grows.trans growsRest⟩
      simp only [constrainOthers, subAssign, firstStays, modified,
        Option.bind_eq_bind, Option.bind_some, Option.pure_def]
      exact constrained

/-- The loop over the limits. -/
theorem exists_constrainLimits
    (solver : SolverObject)
    (limits : List (Sigma fun _ : Id => Value)) :
    ∃ next,
      solver.constrainLimits limits = some next ∧
        solver.Grows next
          (limits.map fun limit =>
            { op := .le
              expr :=
                (YicesSolver.indexed limit.1).subConst limit.2 }) := by
  induction limits generalizing solver with
  | nil =>
      exact ⟨solver, rfl, .refl solver⟩
  | cons limit rest inductionHypothesis =>
      obtain ⟨heap, modified, grows⟩ :=
        solver.exists_constrained .le limit.1 fun expr =>
          expr.subConst limit.2
      obtain ⟨next, constrained, growsRest⟩ := inductionHypothesis _
      refine ⟨next, ?_, grows.trans growsRest⟩
      simp only [constrainLimits, subConst, modified,
        Option.bind_eq_bind, Option.bind_some, Option.pure_def]
      exact constrained

/--
What making the variables of an index list equal leaves: the first expression
is new, and no constraint owns it.
-/
structure Constrained
    (solver : SolverObject)
    (ids : List Id)
    (next : SolverObject)
    (first : Option Ref) : Prop where
  grows : solver.Grows next (YicesSolver.equalToFirst ids)
  first :
    Option.Rel
      (fun ref id =>
        next.Pins ref (YicesSolver.indexed id) ∧
          solver.heap.deref? ref = none)
      first ids.head?

theorem exists_constrainEqual
    (owns : solver.Owns contents)
    (ids : List Id) :
    ∃ next first,
      solver.constrainEqual ids = some (next, first) ∧
        solver.Constrained ids next first := by
  cases ids with
  | nil =>
      exact ⟨solver, none, rfl, .refl solver, .none⟩
  | cons id others =>
      have pinned := owns.pins_newExpr id
      obtain ⟨next, constrained, growsOthers⟩ :=
        exists_constrainOthers others pinned
      refine
        ⟨next, some (solver.newExpr id).2, ?_,
          (solver.grows_newExpr id).trans growsOthers, .some ⟨?_, ?_⟩⟩
      · simp only [constrainEqual, constrained, Option.bind_eq_bind,
          Option.bind_some, Option.pure_def]
      · exact growsOthers.pins _ _ pinned
      · exact solver.heap.deref?_new_ref (YicesSolver.indexed id)

/-- The first rank becomes a constraint, and the first size is deleted. -/
theorem exists_subtractSize
    {rankRef sizeRef : Ref}
    {rank size : SymbolicExpr}
    (owns : solver.Owns contents)
    (rankPinned : solver.Pins rankRef rank)
    (sizePinned : solver.Pins sizeRef size)
    (different : rankRef ≠ sizeRef) :
    ∃ next,
      solver.constrainRank (some rankRef) (some sizeRef) = some next ∧
        next.Owns
          (contents ++ [{ op := .lt, expr := rank.subAssign size }]) := by
  obtain ⟨heap, modified, changed, others⟩ :=
    ObjectHeap.exists_modify (fun expr => expr.subAssign size)
      rankPinned.live
  have sizeStays : heap.deref? sizeRef = some size := by
    rw [others sizeRef different.symm]
    exact sizePinned.live
  obtain ⟨final, deleted, remaining⟩ := ObjectHeap.exists_delete sizeStays
  have pushed :
      (SolverObject.push
          { heap := heap, constraintsMPI := solver.constraintsMPI }
          .lt rankRef).Owns
        (contents ++ [{ op := .lt, expr := rank.subAssign size }]) := by
    refine Owns.push ?_ { live := changed, unowned := rankPinned.unowned }
    refine owns.of_heap rfl fun ref owned => others ref ?_
    exact ne_of_mem_of_not_mem owned rankPinned.unowned
  refine
    ⟨{ heap := final
       constraintsMPI :=
         solver.constraintsMPI ++ [{ op := .lt, expr := rankRef }] }, ?_, ?_⟩
  · simp only [constrainRank, subAssign, sizePinned.live, modified,
      SolverObject.push, delete, deleted, Option.bind_eq_bind,
      Option.bind_some, Option.pure_def]
  · refine pushed.of_heap rfl fun ref owned => remaining ref ?_
    unfold refs SolverObject.push at owned
    rw [List.map_append, List.mem_append, List.map_singleton,
      List.mem_singleton] at owned
    rcases owned with owned | rfl
    · exact ne_of_mem_of_not_mem owned sizePinned.unowned
    · exact different

/-- The old contents can be cleared. -/
theorem exists_clear (owns : solver.Owns contents) :
    ∃ cleared, solver.clear = some cleared ∧ cleared.Owns [] := by
  obtain ⟨heap, deleted⟩ :=
    ObjectHeap.exists_deleteAll owns.separate fun ref owned =>
      owns.live owned
  refine ⟨{ heap := heap, constraintsMPI := [] }, ?_, List.nodup_nil, rfl⟩
  simp only [clear, deleted, Option.bind_eq_bind, Option.bind_some,
    Option.pure_def]

end Steps

section Calls

variable {solver : SolverObject} {contents : List SymbolicPred}

/-- The rank is constrained where there are both a rank and a size. -/
theorem exists_constrainRank
    {sized ranked : SolverObject}
    {rankFirst worldSizeFirst : Option Ref}
    {ex : SymbolicExecution}
    (sizeConstrained :
      solver.Constrained ex.worldSizeIndices sized worldSizeFirst)
    (rankConstrained :
      sized.Constrained ex.rankIndices ranked rankFirst)
    (owns : ranked.Owns contents) :
    ∃ next,
      ranked.constrainRank rankFirst worldSizeFirst = some next ∧
        next.Owns
          (contents ++
            YicesSolver.firstBelow ex.rankIndices ex.worldSizeIndices) := by
  have rankMatches := rankConstrained.first
  have sizeMatches := sizeConstrained.first
  cases ranks : ex.rankIndices with
  | nil =>
      rw [ranks] at rankMatches
      cases rankMatches
      refine ⟨ranked, rfl, ?_⟩
      simpa [YicesSolver.firstBelow] using owns
  | cons rank otherRanks =>
      cases sizes : ex.worldSizeIndices with
      | nil =>
          rw [sizes] at sizeMatches
          cases sizeMatches
          refine ⟨ranked, ?_, ?_⟩
          · cases rankFirst <;> rfl
          · simpa [YicesSolver.firstBelow] using owns
      | cons size otherSizes =>
          rw [ranks] at rankMatches
          rw [sizes] at sizeMatches
          cases rankMatches with
          | some rankHolds =>
              cases sizeMatches with
              | some sizeHolds =>
                  obtain ⟨rankPinned, rankNew⟩ := rankHolds
                  have sizePinned := sizeHolds.1
                  refine exists_subtractSize owns rankPinned
                    (rankConstrained.grows.pins _ _ sizePinned) ?_
                  rintro rfl
                  exact Option.some_ne_none _
                    (sizePinned.live.symm.trans rankNew)

/-- A call leaves exactly the constraints of its execution. -/
theorem exists_generateConstraintsMPI
    (owns : solver.Owns contents)
    (ex : SymbolicExecution) :
    ∃ next,
      solver.generateConstraintsMPI ex = some next ∧
        next.Owns (YicesSolver.generateConstraintsMPI ex) := by
  obtain ⟨cleared, isCleared, ownsNothing⟩ := exists_clear owns
  obtain ⟨sized, worldSizeFirst, isSized, sizeConstrained⟩ :=
    exists_constrainEqual ownsNothing ex.worldSizeIndices
  have ownsSizes := sizeConstrained.grows.owns [] ownsNothing
  obtain ⟨ranked, rankFirst, isRanked, rankConstrained⟩ :=
    exists_constrainEqual ownsSizes ex.rankIndices
  have ownsRanks := rankConstrained.grows.owns _ ownsSizes
  obtain ⟨below, isBelow, ownsBelow⟩ :=
    exists_constrainRank sizeConstrained rankConstrained ownsRanks
  obtain ⟨next, isNext, limited⟩ :=
    below.exists_constrainLimits ex.limits.entries
  refine ⟨next, ?_, ?_⟩
  · simp only [generateConstraintsMPI, isCleared, isSized, isRanked, isBelow,
      isNext, Option.bind_eq_bind, Option.bind_some]
  · have ownsAll := limited.owns _ ownsBelow
    rw [YicesSolver.generateConstraintsMPI_eq]
    simpa only [List.nil_append, List.append_assoc] using ownsAll

/-- Repeated calls do not fail. -/
theorem exists_generateAll
    (owns : solver.Owns contents)
    (exs : List SymbolicExecution) :
    ∃ next after,
      solver.generateAll exs = some next ∧ next.Owns after := by
  induction exs generalizing solver contents with
  | nil =>
      exact ⟨solver, contents, rfl, owns⟩
  | cons ex rest inductionHypothesis =>
      obtain ⟨middle, generated, ownsGenerated⟩ :=
        exists_generateConstraintsMPI owns ex
      obtain ⟨next, after, generatedRest, ownsRest⟩ :=
        inductionHypothesis ownsGenerated
      refine ⟨next, after, ?_, ownsRest⟩
      simp only [generateAll, generated, Option.bind_eq_bind,
        Option.bind_some]
      exact generatedRest

theorem generateAll_append
    (solver : SolverObject)
    (earlier : List SymbolicExecution)
    (ex : SymbolicExecution) :
    solver.generateAll (earlier ++ [ex]) =
      (solver.generateAll earlier).bind fun middle =>
        middle.generateConstraintsMPI ex := by
  induction earlier generalizing solver with
  | nil =>
      simp [generateAll]
  | cons first rest inductionHypothesis =>
      simp only [List.cons_append, generateAll, Option.bind_eq_bind,
        Option.bind_assoc, inductionHypothesis]

theorem Owns.isSatisfied_iff
    (owns : solver.Owns contents)
    (assignment : Var → Value) :
    solver.IsSatisfied assignment ↔
      ∀ c ∈ contents, c.holds assignment = true := by
  unfold IsSatisfied
  rw [owns.predicates, List.forall_mem_map]
  simp

end Calls

end SolverObject

end Compi
