import Compi.ConstraintSlicing
import Compi.SymbolicExecution
import Compi.Worklist

/-!
# The solver front end

The decision procedure itself is a parameter.  Before it is called, the
constraints that a target constraint depends on are cut out by a breadth-first
search over variables that occur together; afterwards its model is completed
with the old values of the other variables.
-/

namespace Compi

namespace YicesSolver

/-- An index list entry as a variable. -/
def varOfId (id : Id) : Var :=
  (toUnsigned 32 id).toNat

/-- The expression of a single marked variable. -/
def indexed (id : Id) : SymbolicExpr :=
  .ofTerm 1 (varOfId id)

/-- All variables of an index list are equal to the first. -/
def equalToFirst : List Id → List SymbolicPred
  | [] => []
  | first :: others =>
      others.map fun other =>
        { op := .eq, expr := (indexed other).subAssign (indexed first) }

/-- `GenerateConstraintsMPI`. -/
def generateConstraintsMPI (ex : SymbolicExecution) : List SymbolicPred :=
  equalToFirst ex.worldSizeIndices ++
    (equalToFirst ex.rankIndices ++
      ((match ex.rankIndices, ex.worldSizeIndices with
        | rank :: _, worldSize :: _ =>
            [{ op := .lt
               expr := (indexed rank).subAssign (indexed worldSize) }]
        | _, _ => []) ++
        ex.limits.entries.map fun limit =>
          { op := .le, expr := (indexed limit.1).subConst limit.2 }))

/-- A decision procedure: a model of the constraints over the variables. -/
abbrev Solve : Type :=
  OrderedMap Var CType →
    List SymbolicPred → Option (OrderedMap Var Value)

/-- `AppendVars` for a sequence of constraints. -/
def varsOf (constraints : List SymbolicPred) : OrderedSet Var :=
  Std.ExtTreeSet.ofList (constraints.flatMap SymbolicPred.vars) compare

/-- Which variables each variable occurs with, indexed by variable. -/
def dependsOf
    (size : Nat)
    (constraints : List SymbolicPred) : List (OrderedSet Var) :=
  constraints.foldl
    (fun depends constraint =>
      let tmp := varsOf [constraint]
      tmp.toList.foldl
        (fun depends v => depends.modify v (· ∪ tmp)) depends)
    (List.replicate size ∅)

/-- The dependent variables, with the types they have in `vars`. -/
def marking (vars : OrderedMap Var CType) :
    Worklist.Marking Var (OrderedMap Var CType) where
  isMarked := fun dependent v => decide (v ∈ dependent)
  mark := fun dependent v =>
    match vars[v]? with
    | some type => dependent.insertIfNew v type
    | none => dependent

/-- The search for the variables that depend on those of the target. -/
def dependentVars
    (vars : OrderedMap Var CType)
    (constraints : List SymbolicPred)
    (target : SymbolicPred) : Option (OrderedMap Var CType) :=
  let depends := dependsOf vars.size constraints
  let start := (varsOf [target]).toList
  Worklist.search (marking vars)
    (fun v => (depends.getD v ∅).toList)
    vars.size
    start
    (start.foldl (marking vars).mark ∅)

/-- Add the old values of the variables that a solution does not have. -/
def complete
    (oldSoln : List Value)
    (constraints : List SymbolicPred)
    (soln : OrderedMap Var Value) : OrderedMap Var Value :=
  (varsOf constraints).toList.foldl
    (fun soln v => soln.insertIfNew v (oldSoln.getD v 0)) soln

/--
`IncrementalSolve`, given the constraints and the cached MPI constraints that
are appended to them; the last constraint is the target.
-/
def incrementalSolve
    (solve : Solve)
    (constraintsMPI : List SymbolicPred)
    (oldSoln : List Value)
    (vars : OrderedMap Var CType)
    (before : List SymbolicPred)
    (target : SymbolicPred) : Option (Option (OrderedMap Var Value)) := do
  let constraints := before ++ [target] ++ constraintsMPI
  let dependent ← dependentVars vars constraints target
  let dependentConstraints :=
    constraints.filter fun constraint => constraint.dependsOn dependent
  return (solve dependent dependentConstraints).map
    (complete oldSoln constraints)

section Dependence

theorem mem_varsOf
    {constraints : List SymbolicPred}
    {v : Var} :
    v ∈ varsOf constraints ↔ ∃ c ∈ constraints, v ∈ c.vars := by
  rw [varsOf, Std.ExtTreeSet.mem_ofList, List.contains_iff_mem,
    List.mem_flatMap]

private theorem mem_modify_union
    {depends : List (OrderedSet Var)}
    {tmp : OrderedSet Var}
    {v w u : Var}
    (inBounds : w < depends.length) :
    u ∈ (depends.modify v (· ∪ tmp)).getD w ∅ ↔
      u ∈ depends.getD w ∅ ∨ (v = w ∧ u ∈ tmp) := by
  rw [List.getD_eq_getElem?_getD, List.getElem?_modify,
    List.getElem?_eq_getElem inBounds]
  by_cases same : v = w
  · simp [same, inBounds]
  · simp [same, inBounds]

private theorem mem_foldl_modify
    {depends : List (OrderedSet Var)}
    {tmp : OrderedSet Var}
    (items : List Var)
    {w u : Var}
    (inBounds : w < depends.length) :
    u ∈ (items.foldl
        (fun depends v => depends.modify v (· ∪ tmp)) depends).getD w ∅ ↔
      u ∈ depends.getD w ∅ ∨ (w ∈ items ∧ u ∈ tmp) := by
  induction items generalizing depends with
  | nil =>
      simp
  | cons v rest inductionHypothesis =>
      have stillInBounds : w < (depends.modify v (· ∪ tmp)).length := by
        simpa using inBounds
      rw [List.foldl_cons, inductionHypothesis stillInBounds,
        mem_modify_union inBounds, List.mem_cons]
      constructor
      · rintro ((old | ⟨same, inTmp⟩) | ⟨later, inTmp⟩)
        · exact Or.inl old
        · exact Or.inr ⟨Or.inl same.symm, inTmp⟩
        · exact Or.inr ⟨Or.inr later, inTmp⟩
      · rintro (old | ⟨same | later, inTmp⟩)
        · exact Or.inl (Or.inl old)
        · exact Or.inl (Or.inr ⟨same.symm, inTmp⟩)
        · exact Or.inr ⟨later, inTmp⟩

/-- Updates that keep the length of a list keep it in a row. -/
theorem length_foldl
    {Item Entry : Type}
    {update : List Entry → Item → List Entry}
    (step : ∀ entries item, (update entries item).length = entries.length)
    (items : List Item)
    (entries : List Entry) :
    (items.foldl update entries).length = entries.length := by
  induction items generalizing entries with
  | nil =>
      rfl
  | cons item rest inductionHypothesis =>
      rw [List.foldl_cons, inductionHypothesis, step]

private theorem length_foldl_modify
    (items : List Var)
    (tmp : OrderedSet Var)
    (depends : List (OrderedSet Var)) :
    (items.foldl
        (fun depends v => depends.modify v (· ∪ tmp)) depends).length =
      depends.length :=
  length_foldl (fun _ _ => List.length_modify _ _ _) items depends

@[simp] theorem length_dependsOf
    (size : Nat)
    (constraints : List SymbolicPred) :
    (dependsOf size constraints).length = size := by
  unfold dependsOf
  rw [length_foldl, List.length_replicate]
  intro depends constraint
  exact length_foldl_modify _ _ _

/-- Two variables depend on each other when a constraint mentions both. -/
theorem mem_dependsOf
    {size : Nat}
    {constraints : List SymbolicPred}
    {v u : Var}
    (inBounds : v < size) :
    u ∈ (dependsOf size constraints).getD v ∅ ↔
      ∃ c ∈ constraints, v ∈ c.vars ∧ u ∈ c.vars := by
  have loop :
      ∀ (items : List SymbolicPred) (depends : List (OrderedSet Var)),
        v < depends.length →
        (u ∈ (items.foldl
            (fun depends constraint =>
              let tmp := varsOf [constraint]
              tmp.toList.foldl
                (fun depends v => depends.modify v (· ∪ tmp)) depends)
            depends).getD v ∅ ↔
          u ∈ depends.getD v ∅ ∨
            ∃ c ∈ items, v ∈ c.vars ∧ u ∈ c.vars) := by
    intro items
    induction items with
    | nil =>
        simp
    | cons constraint rest inductionHypothesis =>
        intro depends stillInBounds
        have nextInBounds :
            v < ((varsOf [constraint]).toList.foldl
              (fun depends v => depends.modify v (· ∪ varsOf [constraint]))
              depends).length := by
          rw [length_foldl_modify]
          exact stillInBounds
        rw [List.foldl_cons, inductionHypothesis _ nextInBounds,
          mem_foldl_modify _ stillInBounds, Std.ExtTreeSet.mem_toList,
          mem_varsOf, mem_varsOf]
        simp [or_assoc]
  unfold dependsOf
  rw [loop constraints _ (by simpa using inBounds)]
  simp [inBounds]

end Dependence

section Search

variable {vars : OrderedMap Var CType}

theorem marking_marks
    (seen : OrderedMap Var CType)
    (a b : Var)
    (declared : a ∈ vars.keys.toFinset) :
    (marking vars).isMarked ((marking vars).mark seen a) b = true ↔
      (marking vars).isMarked seen b = true ∨ b = a := by
  have declared : a ∈ vars := by
    simpa using declared
  obtain ⟨type, found⟩ : ∃ type, vars[a]? = some type :=
    ⟨_, Std.ExtTreeMap.getElem?_eq_some_getElem declared⟩
  simp only [marking, found, decide_eq_true_eq]
  rw [Std.ExtTreeMap.mem_insertIfNew, Std.LawfulEqOrd.compare_eq_iff_eq,
    or_comm, eq_comm]

/-- Marked variables have the types they are declared with. -/
def Typed (vars dependent : OrderedMap Var CType) : Prop :=
  ∀ (v : Var) (type : CType),
    dependent[v]? = some type → vars[v]? = some type

theorem typed_mark
    (seen : OrderedMap Var CType)
    (a : Var)
    (typed : Typed vars seen) :
    Typed vars ((marking vars).mark seen a) := by
  simp only [marking]
  split
  · next type found =>
      intro v other present
      rw [Std.ExtTreeMap.getElem?_insertIfNew] at present
      split at present
      · next isNew =>
          have same : a = v :=
            Std.LawfulEqOrd.compare_eq_iff_eq.mp isNew.1
          exact same ▸ (found.trans present)
      · exact typed v other present
  · exact typed

/--
What the search for dependent variables returns: the least set that contains
the variables of the target and is closed under occurring together.
-/
structure IsSlice
    (vars : OrderedMap Var CType)
    (constraints : List SymbolicPred)
    (target : SymbolicPred)
    (dependent : OrderedMap Var CType) : Prop where
  typed : Typed vars dependent
  start : ∀ v ∈ target.vars, v ∈ dependent
  closed :
    ∀ c ∈ constraints,
      ∀ v ∈ c.vars, v ∈ dependent → ∀ u ∈ c.vars, u ∈ dependent
  least :
    ∀ inside : Var → Prop,
      (∀ v ∈ target.vars, inside v) →
      (∀ c ∈ constraints, ∀ v ∈ c.vars, inside v →
        ∀ u ∈ c.vars, inside u) →
      ∀ v ∈ dependent, inside v

/-- The target mentions the variable, or constraints connect it to one. -/
inductive Depends
    (constraints : List SymbolicPred)
    (target : SymbolicPred) : Var → Prop where
  | start {v : Var} (occurs : v ∈ target.vars) :
      Depends constraints target v
  | step
      {c : SymbolicPred}
      {v u : Var}
      (member : c ∈ constraints)
      (occurs : v ∈ c.vars)
      (alsoOccurs : u ∈ c.vars)
      (depends : Depends constraints target v) :
      Depends constraints target u

theorem IsSlice.mem_iff
    {constraints : List SymbolicPred}
    {target : SymbolicPred}
    {dependent : OrderedMap Var CType}
    (slice : IsSlice vars constraints target dependent)
    {v : Var} :
    v ∈ dependent ↔ Depends constraints target v := by
  constructor
  · intro member
    refine slice.least (Depends constraints target) ?_ ?_ v member
    · intro v occurs
      exact Depends.start occurs
    · intro c inConstraints v occurs depends u alsoOccurs
      exact Depends.step inConstraints occurs alsoOccurs depends
  · intro depends
    induction depends with
    | start occurs =>
        exact slice.start _ occurs
    | step inConstraints occurs alsoOccurs _ inductionHypothesis =>
        exact slice.closed _ inConstraints _ occurs inductionHypothesis _
          alsoOccurs

/-- The starting variables, and only they, are marked at the start. -/
private theorem isMarked_start
    (items : List Var)
    (seen : OrderedMap Var CType)
    (declared : ∀ v ∈ items, v ∈ vars.keys.toFinset)
    (a : Var) :
    (marking vars).isMarked (items.foldl (marking vars).mark seen) a = true ↔
      (marking vars).isMarked seen a = true ∨ a ∈ items := by
  induction items generalizing seen with
  | nil =>
      simp
  | cons v rest inductionHypothesis =>
      have restDeclared : ∀ w ∈ rest, w ∈ vars.keys.toFinset :=
        fun w member => declared w (List.mem_cons_of_mem _ member)
      rw [List.foldl_cons, inductionHypothesis _ restDeclared,
        marking_marks seen v a (declared v (by simp)), List.mem_cons,
        or_assoc]

private theorem typed_start
    (items : List Var)
    {seen : OrderedMap Var CType}
    (typed : Typed vars seen) :
    Typed vars (items.foldl (marking vars).mark seen) := by
  induction items generalizing seen with
  | nil =>
      exact typed
  | cons v rest inductionHypothesis =>
      exact inductionHypothesis (typed_mark seen v typed)

/-- The variables that the search starts from. -/
def startVars (target : SymbolicPred) : List Var :=
  (varsOf [target]).toList

/-- The marks that the search starts with. -/
def startMarks
    (vars : OrderedMap Var CType)
    (target : SymbolicPred) : OrderedMap Var CType :=
  (startVars target).foldl (marking vars).mark ∅

/-- The variables that the search visits from a variable. -/
def neighbours
    (vars : OrderedMap Var CType)
    (constraints : List SymbolicPred)
    (v : Var) : List Var :=
  ((dependsOf vars.size constraints).getD v ∅).toList

/-- A set of declared variables that the search does not leave. -/
structure Confines
    (vars : OrderedMap Var CType)
    (constraints : List SymbolicPred)
    (target : SymbolicPred)
    (domain : Finset Var) : Prop where
  declared : ∀ v ∈ domain, v ∈ vars
  start : ∀ v ∈ target.vars, v ∈ domain
  closed :
    ∀ c ∈ constraints,
      ∀ v ∈ c.vars, v ∈ domain → ∀ u ∈ c.vars, u ∈ domain

section Confined

variable
  {n : Nat}
  {constraints : List SymbolicPred}
  {target : SymbolicPred}
  {domain : Finset Var}

theorem mem_startVars {v : Var} :
    v ∈ startVars target ↔ v ∈ target.vars := by
  simp [startVars, mem_varsOf]

/-- The search visits the variables that occur in a common constraint. -/
theorem mem_neighbours
    (keys : vars.keys = List.range n)
    {v u : Var}
    (declared : v ∈ vars) :
    u ∈ neighbours vars constraints v ↔
      ∃ c ∈ constraints, v ∈ c.vars ∧ u ∈ c.vars := by
  have size : vars.size = n := by
    rw [← Std.ExtTreeMap.length_keys, keys, List.length_range]
  have small : v < vars.size := by
    have listed : v ∈ vars.keys := by
      simpa using declared
    rw [keys] at listed
    rw [size]
    exact List.mem_range.mp listed
  rw [neighbours, Std.ExtTreeSet.mem_toList]
  exact mem_dependsOf small

/-- The declared variables confine the search. -/
theorem confines_declared
    (declared : ∀ c ∈ constraints, ∀ v ∈ c.vars, v ∈ vars)
    (member : target ∈ constraints) :
    Confines vars constraints target vars.keys.toFinset where
  declared := by
    intro v inside
    simpa using inside
  start := by
    intro v occurs
    simpa using declared target member v occurs
  closed := by
    intro c inConstraints v _ _ u alsoOccurs
    simpa using declared c inConstraints u alsoOccurs

/-- A property that is closed under occurring together confines further. -/
theorem Confines.filter
    (confines : Confines vars constraints target domain)
    {inside : Var → Prop}
    [DecidablePred inside]
    (startInside : ∀ v ∈ target.vars, inside v)
    (closedUnder :
      ∀ c ∈ constraints, ∀ v ∈ c.vars, inside v →
        ∀ u ∈ c.vars, inside u) :
    Confines vars constraints target (domain.filter inside) where
  declared := by
    intro v member
    exact confines.declared v (Finset.mem_filter.mp member).1
  start := by
    intro v occurs
    exact Finset.mem_filter.mpr
      ⟨confines.start v occurs, startInside v occurs⟩
  closed := by
    intro c inConstraints v occurs member u alsoOccurs
    obtain ⟨inDomain, isInside⟩ := Finset.mem_filter.mp member
    exact Finset.mem_filter.mpr
      ⟨confines.closed c inConstraints v occurs inDomain u alsoOccurs,
        closedUnder c inConstraints v occurs isInside u alsoOccurs⟩

theorem Confines.marks
    (confines : Confines vars constraints target domain)
    (seen : OrderedMap Var CType)
    (a b : Var)
    (inside : a ∈ domain) :
    (marking vars).isMarked ((marking vars).mark seen a) b = true ↔
      (marking vars).isMarked seen b = true ∨ b = a := by
  apply marking_marks seen a b
  simpa using confines.declared a inside

theorem Confines.stays
    (confines : Confines vars constraints target domain)
    (keys : vars.keys = List.range n) :
    ∀ a ∈ domain, ∀ b ∈ neighbours vars constraints a, b ∈ domain := by
  intro a inside b neighbour
  obtain ⟨c, inConstraints, occurs, alsoOccurs⟩ :=
    (mem_neighbours keys (confines.declared a inside)).mp neighbour
  exact confines.closed c inConstraints a occurs inside b alsoOccurs

/-- The variables of the target, and only they, are marked at the start. -/
theorem Confines.isMarked_startMarks
    (confines : Confines vars constraints target domain)
    (v : Var) :
    (marking vars).isMarked (startMarks vars target) v = true ↔
      v ∈ target.vars := by
  have startDeclared : ∀ v ∈ startVars target, v ∈ vars.keys.toFinset := by
    intro v inStart
    simpa using
      confines.declared v (confines.start v (mem_startVars.mp inStart))
  rw [startMarks, isMarked_start _ ∅ startDeclared v, mem_startVars]
  simp [marking]

theorem Confines.frontier
    (confines : Confines vars constraints target domain) :
    Worklist.Frontier (marking vars) domain (neighbours vars constraints)
      (startVars target) (startMarks vars target) where
  queueInside := by
    intro v inStart
    exact confines.start v (mem_startVars.mp inStart)
  markedInside := by
    intro v isMarked
    exact confines.start v ((confines.isMarked_startMarks v).mp isMarked)
  pending := by
    intro v isMarked
    exact Or.inl
      (mem_startVars.mpr ((confines.isMarked_startMarks v).mp isMarked))

/-- There is a step for every variable that is marked or still unmarked. -/
theorem Confines.enough
    (confines : Confines vars constraints target domain) :
    (startVars target).length +
        (domain.filter fun v =>
          (marking vars).isMarked (startMarks vars target) v = false).card ≤
      vars.size := by
  have startNodup : (startVars target).Nodup := by
    apply Std.ExtTreeSet.distinct_toList.imp
    intro a b different same
    exact different (Std.LawfulEqOrd.compare_eq_iff_eq.mpr same)
  have unmarked :
      (domain.filter fun v =>
        (marking vars).isMarked (startMarks vars target) v = false) =
        domain \ (startVars target).toFinset := by
    ext v
    have same : v ∈ (startVars target).toFinset ↔
        (marking vars).isMarked (startMarks vars target) v = true :=
      List.mem_toFinset.trans
        (mem_startVars.trans (confines.isMarked_startMarks v).symm)
    rw [Finset.mem_filter, Finset.mem_sdiff, same, Bool.not_eq_true]
  have startSubset : (startVars target).toFinset ⊆ domain := by
    intro v inStart
    exact confines.start v (mem_startVars.mp (List.mem_toFinset.mp inStart))
  have domainSubset : domain ⊆ vars.keys.toFinset := by
    intro v inside
    simpa using confines.declared v inside
  have total := Finset.card_sdiff_add_card_eq_card startSubset
  have domainCard := Finset.card_le_card domainSubset
  rw [List.toFinset_card_of_nodup startNodup] at total
  rw [List.toFinset_card_of_nodup (OrderedMap.nodup_keys vars),
    Std.ExtTreeMap.length_keys] at domainCard
  rw [unmarked]
  omega

/-- The search stays in every set that confines it. -/
theorem Confines.mem_of_found
    (confines : Confines vars constraints target domain)
    (keys : vars.keys = List.range n)
    {dependent : OrderedMap Var CType}
    (found : dependentVars vars constraints target = some dependent)
    {v : Var}
    (member : v ∈ dependent) :
    v ∈ domain := by
  obtain ⟨_, final⟩ :=
    Worklist.search_closed confines.marks (confines.stays keys)
      confines.frontier found
  have isMarked : (marking vars).isMarked dependent v = true := by
    simpa [marking] using member
  exact final.markedInside v isMarked

end Confined

/-- The search ends with a slice around the target. -/
theorem exists_isSlice
    {n : Nat}
    {constraints : List SymbolicPred}
    {target : SymbolicPred}
    (keys : vars.keys = List.range n)
    (declared : ∀ c ∈ constraints, ∀ v ∈ c.vars, v ∈ vars)
    (member : target ∈ constraints) :
    ∃ dependent,
      dependentVars vars constraints target = some dependent ∧
        IsSlice vars constraints target dependent := by
  have confines := confines_declared declared member
  obtain ⟨dependent, found⟩ :=
    Worklist.search_ends confines.marks (confines.stays keys)
      confines.frontier confines.enough
  obtain ⟨kept, final⟩ :=
    Worklist.search_closed confines.marks (confines.stays keys)
      confines.frontier found
  refine ⟨dependent, found, ?_, ?_, ?_, ?_⟩
  · have typedEmpty : Typed vars ∅ := by
      intro v type present
      simp at present
    exact Worklist.search_invariant typed_mark
      (typed_start (startVars target) typedEmpty) found
  · intro v occurs
    have marked := kept v ((confines.isMarked_startMarks v).mpr occurs)
    simpa [marking] using marked
  · intro c inConstraints v occurs dependentV u alsoOccurs
    have marked : (marking vars).isMarked dependent v = true := by
      simpa [marking] using dependentV
    have inside := final.markedInside v marked
    rcases final.pending v marked with inQueue | closed
    · cases inQueue
    · have neighbour :=
        (mem_neighbours keys (confines.declared v inside)).mpr
          ⟨c, inConstraints, occurs, alsoOccurs⟩
      simpa [marking] using closed u neighbour
  · intro inside startInside closedUnder v inDependent
    classical
    have confined := confines.filter startInside closedUnder
    have inConfined := confined.mem_of_found keys found inDependent
    exact (Finset.mem_filter.mp inConfined).2

end Search

section Exactness

/-- The assignment of a solution. -/
def solutionOf (soln : OrderedMap Var Value) : Var → Value :=
  fun v => soln.getD v 0

/-- All constraints hold and all variables are in the range of their type. -/
def Satisfies
    (vars : OrderedMap Var CType)
    (constraints : List SymbolicPred)
    (assignment : Var → Value) : Prop :=
  (∀ c ∈ constraints, c.holds assignment = true) ∧
    ∀ (v : Var) (type : CType),
      vars[v]? = some type → type.InRange (assignment v)

/-- Every variable of the constraints is declared. -/
def Declared
    (vars : OrderedMap Var CType)
    (constraints : List SymbolicPred) : Prop :=
  ∀ c ∈ constraints, ∀ v ∈ c.vars, v ∈ vars

/--
A sound and complete decision procedure: over declared variables, it returns
a model of exactly the variables if there is one, and nothing otherwise.
-/
structure ExactSolver (solve : Solve) : Prop where
  sound :
    ∀ {vars constraints soln},
      Declared vars constraints →
      solve vars constraints = some soln →
      (∀ v, v ∈ soln ↔ v ∈ vars) ∧
        Satisfies vars constraints (solutionOf soln)
  complete :
    ∀ {vars constraints assignment},
      Declared vars constraints →
      Satisfies vars constraints assignment →
      ∃ soln, solve vars constraints = some soln

/-- A sound decision procedure: over declared variables it returns models. -/
structure SoundSolver (solve : Solve) : Prop where
  sound :
    ∀ {vars constraints soln},
      Declared vars constraints →
      solve vars constraints = some soln →
      (∀ v, v ∈ soln ↔ v ∈ vars) ∧
        Satisfies vars constraints (solutionOf soln)

theorem ExactSolver.toSound
    {solve : Solve}
    (exact : ExactSolver solve) :
    SoundSolver solve :=
  ⟨exact.sound⟩

/-- An assignment as a solution for some variables. -/
def modelOf
    (vars : OrderedMap Var CType)
    (assignment : Var → Value) : OrderedMap Var Value :=
  vars.map fun v _ => assignment v

theorem satisfies_modelOf
    {vars : OrderedMap Var CType}
    {constraints : List SymbolicPred}
    {assignment : Var → Value}
    (declared : Declared vars constraints)
    (model : Satisfies vars constraints assignment) :
    Satisfies vars constraints (solutionOf (modelOf vars assignment)) := by
  have agree :
      ∀ v ∈ vars, solutionOf (modelOf vars assignment) v = assignment v := by
    intro v member
    simp [solutionOf, modelOf, Std.ExtTreeMap.getD_map, member]
  constructor
  · intro c member
    rw [SymbolicPred.holds_congr fun v occurs =>
      agree v (declared c member v occurs)]
    exact model.1 c member
  · intro v type present
    rw [agree v (Std.ExtTreeMap.mem_iff_isSome_getElem?.mpr
      (by rw [present]; rfl))]
    exact model.2 v type present

open Classical in
/--
The decision procedure that returns a preferred assignment where it is a
model, and otherwise some model whenever there is one.
-/
noncomputable def preferring (preferred : Var → Value) : Solve :=
  fun vars constraints =>
    if Satisfies vars constraints preferred then
      some (modelOf vars preferred)
    else if satisfiable :
        ∃ assignment, Satisfies vars constraints assignment then
      some (modelOf vars satisfiable.choose)
    else
      none

theorem preferring_exact (preferred : Var → Value) :
    ExactSolver (preferring preferred) where
  sound := by
    intro vars constraints soln declared returned
    have ofModel :
        ∀ assignment,
          Satisfies vars constraints assignment →
          soln = modelOf vars assignment →
          (∀ v, v ∈ soln ↔ v ∈ vars) ∧
            Satisfies vars constraints (solutionOf soln) := by
      rintro assignment model rfl
      exact ⟨fun v => Std.ExtTreeMap.mem_map,
        satisfies_modelOf declared model⟩
    unfold preferring at returned
    split at returned
    · next model =>
        exact ofModel preferred model (Option.some.inj returned).symm
    · split at returned
      · next satisfiable =>
          exact ofModel _ satisfiable.choose_spec
            (Option.some.inj returned).symm
      · cases returned
  complete := by
    intro vars constraints assignment _ model
    unfold preferring
    split
    · exact ⟨_, rfl⟩
    · rw [dif_pos ⟨assignment, model⟩]
      exact ⟨_, rfl⟩

/-- A new assignment over the variables of a solution, otherwise the old. -/
def updated
    (soln : OrderedMap Var Value)
    (old : Var → Value) : Var → Value :=
  fun v => (soln[v]?).getD (old v)

private theorem updated_foldl_insertIfNew
    (old : Var → Value)
    (items : List Var)
    (soln : OrderedMap Var Value) :
    updated (items.foldl (fun soln v => soln.insertIfNew v (old v)) soln)
        old =
      updated soln old := by
  induction items generalizing soln with
  | nil =>
      rfl
  | cons v rest inductionHypothesis =>
      rw [List.foldl_cons, inductionHypothesis]
      funext w
      unfold updated
      rw [Std.ExtTreeMap.getElem?_insertIfNew]
      split
      · next isNew =>
          have same : v = w := Std.LawfulEqOrd.compare_eq_iff_eq.mp isNew.1
          subst w
          have absent : soln[v]? = none :=
            Std.ExtTreeMap.getElem?_eq_none isNew.2
          simp [absent]
      · rfl

theorem updated_complete
    (oldSoln : List Value)
    (constraints : List SymbolicPred)
    (soln : OrderedMap Var Value) :
    updated (complete oldSoln constraints soln) (assignmentOf oldSoln) =
      updated soln (assignmentOf oldSoln) :=
  updated_foldl_insertIfNew (assignmentOf oldSoln) _ soln

private theorem mem_foldl_insertIfNew
    {old : Var → Value}
    {items : List Var}
    {soln : OrderedMap Var Value}
    {v : Var}
    (member :
      v ∈ items.foldl (fun soln v => soln.insertIfNew v (old v)) soln) :
    v ∈ soln ∨ v ∈ items := by
  induction items generalizing soln with
  | nil =>
      exact Or.inl member
  | cons w rest inductionHypothesis =>
      rcases inductionHypothesis member with inserted | later
      · rcases Std.ExtTreeMap.mem_insertIfNew.mp inserted with same | before
        · have isHead : w = v := Std.LawfulEqOrd.compare_eq_iff_eq.mp same
          exact Or.inr (by simp [isHead])
        · exact Or.inl before
      · exact Or.inr (List.mem_cons_of_mem _ later)

private theorem holds_local :
    ConstraintSlicing.Local
      (fun c : SymbolicPred => {v | v ∈ c.vars})
      (fun c assignment => c.holds assignment = true) := by
  intro c left right agree holds
  rw [← SymbolicPred.holds_congr (p := c) agree]
  exact holds

private theorem dependsOn_iff
    {c : SymbolicPred}
    {among : OrderedMap Var CType} :
    c.dependsOn among = true ↔ ∃ v ∈ c.vars, v ∈ among := by
  simp [SymbolicPred.dependsOn, SymbolicExpr.dependsOn, SymbolicPred.vars]

/-- A model of all constraints is a model of a slice. -/
theorem IsSlice.satisfies
    {vars dependent : OrderedMap Var CType}
    {constraints : List SymbolicPred}
    {target : SymbolicPred}
    (slice : IsSlice vars constraints target dependent)
    {assignment : Var → Value}
    (model : Satisfies vars constraints assignment) :
    Satisfies dependent
      (constraints.filter fun c => c.dependsOn dependent) assignment := by
  constructor
  · intro c member
    exact model.1 c (List.mem_filter.mp member).1
  · intro v type present
    exact model.2 v type (slice.typed v type present)

/-- A solution of a slice is merged with the old values of the others. -/
theorem updated_eq_merge
    {dependent : OrderedMap Var CType}
    {soln : OrderedMap Var Value}
    (covers : ∀ v, v ∈ soln ↔ v ∈ dependent)
    (old : Var → Value) :
    updated soln old =
      ConstraintSlicing.merge {v | v ∈ dependent} (solutionOf soln) old := by
  funext v
  by_cases inSlice : v ∈ {v : Var | v ∈ dependent}
  · rw [ConstraintSlicing.merge_of_mem _ _ inSlice, updated, solutionOf,
      Std.ExtTreeMap.getD_eq_getD_getElem?]
    obtain ⟨value, found⟩ : ∃ value, soln[v]? = some value :=
      ⟨_, Std.ExtTreeMap.getElem?_eq_some_getElem
        ((covers v).mpr inSlice)⟩
    simp [found]
  · have absent : soln[v]? = none :=
      Std.ExtTreeMap.getElem?_eq_none fun inSoln =>
        inSlice ((covers v).mp inSoln)
    rw [ConstraintSlicing.merge_of_not_mem _ _ inSlice, updated, absent,
      Option.getD_none]

/--
A model of the sliced constraints, completed by old values, satisfies a
constraint that the old values satisfy or that the slice touches.
-/
theorem holds_updated
    {vars dependent : OrderedMap Var CType}
    {constraints : List SymbolicPred}
    {target : SymbolicPred}
    {soln : OrderedMap Var Value}
    {old : Var → Value}
    (slice : IsSlice vars constraints target dependent)
    (covers : ∀ v, v ∈ soln ↔ v ∈ dependent)
    (model :
      Satisfies dependent
        (constraints.filter fun c => c.dependsOn dependent)
        (solutionOf soln))
    {c : SymbolicPred}
    (member : c ∈ constraints)
    (untouchedHolds :
      (∀ v ∈ c.vars, v ∉ dependent) → c.holds old = true) :
    c.holds (updated soln old) = true := by
  rw [updated_eq_merge covers]
  refine
    ConstraintSlicing.merge_satisfies holds_local {v | v ∈ dependent} {c}
      ?_ ?_ ?_ c rfl
  · rintro c rfl ⟨v, occurs, inSlice⟩
    exact slice.closed c member v occurs inSlice
  · rintro c rfl ⟨v, occurs, inSlice⟩
    apply model.1 c
    rw [List.mem_filter]
    exact ⟨member, dependsOn_iff.mpr ⟨v, occurs, inSlice⟩⟩
  · rintro c rfl untouched
    apply untouchedHolds
    intro v occurs inSlice
    exact untouched ⟨v, occurs, inSlice⟩

/-- A model of the sliced constraints, completed by old values, is a model. -/
theorem satisfies_updated
    {vars dependent : OrderedMap Var CType}
    {constraints : List SymbolicPred}
    {target : SymbolicPred}
    {soln : OrderedMap Var Value}
    {old : Var → Value}
    (slice : IsSlice vars constraints target dependent)
    (mentions : target.vars ≠ [])
    (oldInRange :
      ∀ (v : Var) (type : CType),
        vars[v]? = some type → type.InRange (old v))
    (othersHold : ∀ c ∈ constraints, c ≠ target → c.holds old = true)
    (covers : ∀ v, v ∈ soln ↔ v ∈ dependent)
    (model :
      Satisfies dependent
        (constraints.filter fun c => c.dependsOn dependent)
        (solutionOf soln)) :
    Satisfies vars constraints (updated soln old) := by
  constructor
  · intro c member
    refine holds_updated slice covers model member fun untouched => ?_
    apply othersHold c member
    rintro rfl
    obtain ⟨v, occurs⟩ := List.exists_mem_of_ne_nil _ mentions
    exact untouched v occurs (slice.start v occurs)
  · intro v type declared
    rw [updated_eq_merge covers]
    by_cases inSlice : v ∈ {v : Var | v ∈ dependent}
    · rw [ConstraintSlicing.merge_of_mem _ _ inSlice]
      obtain ⟨own, found⟩ : ∃ own, dependent[v]? = some own :=
        ⟨_, Std.ExtTreeMap.getElem?_eq_some_getElem inSlice⟩
      have sameType : own = type := by
        have typed := slice.typed v own found
        rw [declared] at typed
        exact (Option.some.inj typed).symm
      exact sameType ▸ model.2 v own found
    · rw [ConstraintSlicing.merge_of_not_mem _ _ inSlice]
      exact oldInRange v type declared

section Incremental

variable
  {solve : Solve}
  {n : Nat}
  {vars : OrderedMap Var CType}
  {before constraintsMPI : List SymbolicPred}
  {target : SymbolicPred}
  {oldSoln : List Value}

/-- The decision procedure is given a slice of the system. -/
theorem incrementalSolve_eq
    (solve : Solve)
    (keys : vars.keys = List.range n)
    (declared : Declared vars (before ++ [target] ++ constraintsMPI))
    (oldSoln : List Value) :
    ∃ dependent,
      IsSlice vars (before ++ [target] ++ constraintsMPI) target dependent ∧
      Declared dependent
        ((before ++ [target] ++ constraintsMPI).filter fun c =>
          c.dependsOn dependent) ∧
      incrementalSolve solve constraintsMPI oldSoln vars before target =
        some
          ((solve dependent
              ((before ++ [target] ++ constraintsMPI).filter fun c =>
                c.dependsOn dependent)).map
            (complete oldSoln (before ++ [target] ++ constraintsMPI))) := by
  have targetMember : target ∈ before ++ [target] ++ constraintsMPI := by
    simp
  obtain ⟨dependent, found, slice⟩ :=
    exists_isSlice keys declared targetMember
  refine ⟨dependent, slice, ?_, ?_⟩
  · intro c member
    obtain ⟨inConstraints, depends⟩ := List.mem_filter.mp member
    obtain ⟨v, occurs, inSlice⟩ := dependsOn_iff.mp depends
    exact slice.closed c inConstraints v occurs inSlice
  · simp only [incrementalSolve, found, Option.bind_eq_bind,
      Option.bind_some, Option.pure_def]

/-- Completed solutions have only declared variables. -/
theorem IsSlice.declared_complete
    {constraints : List SymbolicPred}
    {soln : OrderedMap Var Value}
    {types : OrderedMap Var CType}
    (slice : IsSlice vars constraints target types)
    (declared : Declared vars constraints)
    (covers : ∀ v ∈ soln, v ∈ types) :
    ∀ v ∈ complete oldSoln constraints soln, v ∈ vars := by
  intro v member
  rcases mem_foldl_insertIfNew member with own | listed
  · obtain ⟨type, present⟩ : ∃ type, types[v]? = some type :=
      ⟨_, Std.ExtTreeMap.getElem?_eq_some_getElem (covers v own)⟩
    exact Std.ExtTreeMap.mem_iff_isSome_getElem?.mpr
      (by simp [slice.typed v type present])
  · obtain ⟨c, inConstraints, occurs⟩ :=
      mem_varsOf.mp (Std.ExtTreeSet.mem_toList.mp listed)
    exact declared c inConstraints v occurs

/--
With a sound decision procedure, a solution keeps every constraint true that
the old values satisfy.
-/
theorem incrementalSolve_holds
    (sound : SoundSolver solve)
    (keys : vars.keys = List.range n)
    (declared : Declared vars (before ++ [target] ++ constraintsMPI))
    {soln : OrderedMap Var Value}
    (answered :
      incrementalSolve solve constraintsMPI oldSoln vars before target =
        some (some soln)) :
    (∀ v ∈ soln, v ∈ vars) ∧
      ∀ c ∈ before ++ [target] ++ constraintsMPI,
        c.holds (assignmentOf oldSoln) = true →
        c.holds (updated soln (assignmentOf oldSoln)) = true := by
  obtain ⟨dependent, slice, sliceDeclared, isAnswer⟩ :=
    incrementalSolve_eq solve keys declared oldSoln
  rw [answered] at isAnswer
  obtain ⟨own, returned, rfl⟩ :=
    Option.map_eq_some_iff.mp (Option.some.inj isAnswer).symm
  obtain ⟨covers, model⟩ := sound.sound sliceDeclared returned
  refine ⟨slice.declared_complete declared fun v => (covers v).mp, ?_⟩
  rw [updated_complete]
  intro c member heldBefore
  exact holds_updated slice covers model member fun _ => heldBefore

/--
With a sound decision procedure, a solution leaves a variable alone, or gives
it a value of its type with which the constraints on it hold.
-/
theorem incrementalSolve_cases
    (sound : SoundSolver solve)
    (keys : vars.keys = List.range n)
    (declared : Declared vars (before ++ [target] ++ constraintsMPI))
    {soln : OrderedMap Var Value}
    (answered :
      incrementalSolve solve constraintsMPI oldSoln vars before target =
        some (some soln))
    (v : Var) :
    updated soln (assignmentOf oldSoln) v = assignmentOf oldSoln v ∨
      (∀ c ∈ before ++ [target] ++ constraintsMPI,
          v ∈ c.vars →
          c.holds (updated soln (assignmentOf oldSoln)) = true) ∧
        ∀ type : CType,
          vars[v]? = some type →
          type.InRange (updated soln (assignmentOf oldSoln) v) := by
  obtain ⟨dependent, slice, sliceDeclared, isAnswer⟩ :=
    incrementalSolve_eq solve keys declared oldSoln
  rw [answered] at isAnswer
  obtain ⟨own, returned, rfl⟩ :=
    Option.map_eq_some_iff.mp (Option.some.inj isAnswer).symm
  obtain ⟨covers, model⟩ := sound.sound sliceDeclared returned
  rw [updated_complete]
  by_cases inSlice : v ∈ dependent
  · refine Or.inr ⟨?_, ?_⟩
    · intro c member occurs
      refine holds_updated slice covers model member fun untouched => ?_
      exact absurd inSlice (untouched v occurs)
    · intro type isType
      obtain ⟨value, found⟩ : ∃ value, own[v]? = some value :=
        ⟨_, Std.ExtTreeMap.getElem?_eq_some_getElem ((covers v).mpr inSlice)⟩
      obtain ⟨sliceType, isSliceType⟩ : ∃ type, dependent[v]? = some type :=
        ⟨_, Std.ExtTreeMap.getElem?_eq_some_getElem inSlice⟩
      have sameType : sliceType = type := by
        have typed := slice.typed v sliceType isSliceType
        rw [isType] at typed
        exact (Option.some.inj typed).symm
      have inRange := model.2 v sliceType isSliceType
      rw [sameType, solutionOf, Std.ExtTreeMap.getD_eq_getD_getElem?, found]
        at inRange
      rw [updated, found]
      exact inRange
  · have absent : own[v]? = none :=
      Std.ExtTreeMap.getElem?_eq_none fun inSoln =>
        inSlice ((covers v).mp inSoln)
    refine Or.inl ?_
    rw [updated, absent, Option.getD_none]

/--
With an exact decision procedure, old values that satisfy all constraints but
the target, and a target that mentions a variable, the incremental solver
succeeds exactly when all constraints are satisfiable, and its solution
updates the old values to a model, only where variables depend on the target.
-/
theorem incrementalSolve_spec
    (exact : ExactSolver solve)
    (keys : vars.keys = List.range n)
    (declared : Declared vars (before ++ [target] ++ constraintsMPI))
    (mentions : target.vars ≠ [])
    (oldInRange :
      ∀ (v : Var) (type : CType),
        vars[v]? = some type → type.InRange (assignmentOf oldSoln v))
    (othersHold :
      ∀ c ∈ before ++ constraintsMPI,
        c.holds (assignmentOf oldSoln) = true) :
    ∃ answer,
      incrementalSolve solve constraintsMPI oldSoln vars before target =
        some answer ∧
      (answer.isSome = true ↔
        ∃ assignment,
          Satisfies vars (before ++ [target] ++ constraintsMPI)
            assignment) ∧
      ∀ soln,
        answer = some soln →
        (∀ v ∈ soln, v ∈ vars) ∧
          Satisfies vars (before ++ [target] ++ constraintsMPI)
            (updated soln (assignmentOf oldSoln)) ∧
          ∀ v,
            ¬Depends (before ++ [target] ++ constraintsMPI) target v →
            updated soln (assignmentOf oldSoln) v =
              assignmentOf oldSoln v := by
  have othersHold :
      ∀ c ∈ before ++ [target] ++ constraintsMPI,
        c ≠ target → c.holds (assignmentOf oldSoln) = true := by
    intro c member different
    apply othersHold c
    simp only [List.mem_append, List.mem_singleton] at member ⊢
    rcases member with (isBefore | isTarget) | isMPI
    · exact Or.inl isBefore
    · exact absurd isTarget different
    · exact Or.inr isMPI
  obtain ⟨dependent, slice, sliceDeclared, answered⟩ :=
    incrementalSolve_eq solve keys declared oldSoln
  generalize before ++ [target] ++ constraintsMPI = constraints at *
  have solved :
      ∀ soln,
        solve dependent
            (constraints.filter fun c => c.dependsOn dependent) =
          some soln →
        Satisfies vars constraints
          (updated soln (assignmentOf oldSoln)) := by
    intro soln returned
    obtain ⟨covers, model⟩ := exact.sound sliceDeclared returned
    exact satisfies_updated slice mentions oldInRange othersHold covers
      model
  refine ⟨_, answered, ?_, ?_⟩
  · rw [Option.isSome_map]
    constructor
    · intro succeeded
      obtain ⟨soln, returned⟩ := Option.isSome_iff_exists.mp succeeded
      exact ⟨_, solved soln returned⟩
    · rintro ⟨assignment, model⟩
      have sliceModel :
          Satisfies dependent
            (constraints.filter fun c => c.dependsOn dependent)
            assignment :=
        slice.satisfies model
      obtain ⟨soln, returned⟩ := exact.complete sliceDeclared sliceModel
      simp [returned]
  · intro merged isMerged
    obtain ⟨soln, returned, rfl⟩ := Option.map_eq_some_iff.mp isMerged
    obtain ⟨covers, _⟩ := exact.sound sliceDeclared returned
    refine ⟨?_, ?_, ?_⟩
    · exact slice.declared_complete declared fun v => (covers v).mp
    · rw [updated_complete]
      exact solved soln returned
    · intro v independent
      have absent : soln[v]? = none :=
        Std.ExtTreeMap.getElem?_eq_none fun inSoln =>
          independent (slice.mem_iff.mp ((covers v).mp inSoln))
      rw [updated_complete, updated, absent, Option.getD_none]

/--
A model of all constraints that keeps the old values of the variables the
target does not depend on is what some exact decision procedure leads to.
-/
theorem incrementalSolve_preferring
    (keys : vars.keys = List.range n)
    (declared : Declared vars (before ++ [target] ++ constraintsMPI))
    {preferred : Var → Value}
    (model :
      Satisfies vars (before ++ [target] ++ constraintsMPI) preferred)
    (outside :
      ∀ v,
        ¬Depends (before ++ [target] ++ constraintsMPI) target v →
        preferred v = assignmentOf oldSoln v) :
    ∃ soln,
      incrementalSolve (preferring preferred) constraintsMPI oldSoln vars
          before target =
        some (some soln) ∧
      (∀ v ∈ soln, v ∈ vars) ∧
      updated soln (assignmentOf oldSoln) = preferred := by
  obtain ⟨dependent, slice, sliceDeclared, answered⟩ :=
    incrementalSolve_eq (preferring preferred) keys declared oldSoln
  generalize before ++ [target] ++ constraintsMPI = constraints at *
  have returned :
      preferring preferred dependent
          (constraints.filter fun c => c.dependsOn dependent) =
        some (modelOf dependent preferred) :=
    if_pos (slice.satisfies model)
  rw [returned, Option.map_some] at answered
  refine ⟨_, answered, ?_, ?_⟩
  · exact slice.declared_complete declared fun v =>
      Std.ExtTreeMap.mem_map.mp
  · rw [updated_complete]
    funext v
    rw [updated, modelOf, Std.ExtTreeMap.getElem?_map]
    by_cases member : v ∈ dependent
    · rw [Std.ExtTreeMap.getElem?_eq_some_getElem member]
      rfl
    · rw [Std.ExtTreeMap.getElem?_eq_none member]
      exact (outside v fun depends =>
        member (slice.mem_iff.mpr depends)).symm

end Incremental

end Exactness

end YicesSolver

end Compi
