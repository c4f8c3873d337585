import Compi.ConcolicPrediction

/-!
# The paths of a program

A program without loops takes no branch twice in a run, so that recording its
runs drops nothing.  Its paths are the leaves of a binary tree: the others that
share some branches with a path leave it at one of the positions after them,
and all that leave it at the same position go on with the same branch.
-/

namespace Compi

namespace SymbolicPath

/-- A path that has retained the constraints of all events. -/
structure RetainsAll
    (events : List BranchEvent)
    (path : SymbolicPath) : Prop where
  branches : path.branches = events.map BranchEvent.bid
  constraints : path.constraints.map some = events.map BranchEvent.constraint
  constraintsIdx : path.constraintsIdx = List.range events.length
  branchesHash :
    ∀ bid ∈ path.branchesHash, bid ∈ events.map BranchEvent.bid

/-- An event of a new branch is retained. -/
theorem RetainsAll.push
    {events : List BranchEvent}
    {path : SymbolicPath}
    (retainsAll : RetainsAll events path)
    {event : BranchEvent}
    {c : SymbolicPred}
    (symbolic : event.constraint = some c)
    (isNew : event.bid ∉ events.map BranchEvent.bid) :
    RetainsAll (events ++ [event]) (path.pushEvent event) := by
  have absent : path.branchesHash.lookup event.bid = none := by
    rw [AList.lookup_eq_none]
    exact fun present => isNew (retainsAll.branchesHash event.bid present)
  have retained : path.retains event.bid event.state = true := by
    simp [retains, absent]
  have count : path.branches.length = events.length := by
    rw [retainsAll.branches, List.length_map]
  unfold pushEvent SymbolicPath.push
  simp only [symbolic, retained, if_true]
  constructor
  · simp [retainsAll.branches]
  · simp [retainsAll.constraints, symbolic]
  · simp [retainsAll.constraintsIdx, count, List.range_succ]
  · intro bid member
    rw [AList.mem_insert] at member
    rw [List.map_append, List.mem_append]
    rcases member with rfl | earlier
    · exact Or.inr (by simp)
    · exact Or.inl (retainsAll.branchesHash bid earlier)

/-- Symbolic events of different branches are all retained. -/
theorem retainsAll_record
    {events : List BranchEvent}
    (symbolic : ∀ event ∈ events, ∃ c, event.constraint = some c)
    (distinct : (events.map BranchEvent.bid).Nodup) :
    RetainsAll events (record events) := by
  induction events using List.reverseRecOn with
  | nil =>
      refine ⟨rfl, rfl, rfl, ?_⟩
      intro bid member
      cases member
  | append_singleton events event inductionHypothesis =>
      rw [List.map_append, List.nodup_append] at distinct
      obtain ⟨distinctBefore, -, apart⟩ := distinct
      have retainsAll :=
        inductionHypothesis
          (fun earlier member =>
            symbolic earlier (List.mem_append_left _ member))
          distinctBefore
      obtain ⟨c, isSymbolic⟩ := symbolic event (by simp)
      have isNew : event.bid ∉ events.map BranchEvent.bid :=
        fun earlier => apart event.bid earlier event.bid (by simp) rfl
      rw [record, List.foldl_append]
      exact retainsAll.push isSymbolic isNew

end SymbolicPath

namespace TestedProgram

/-- The branches of a run. -/
def path
    (program : TestedProgram)
    (steps : Nat)
    (assignment : Var → Value) : List BranchId :=
  (program.events assignment steps []).map BranchEvent.bid

/-- In so many steps every run ends, and it takes no branch twice. -/
structure LoopFree (program : TestedProgram) (steps : Nat) : Prop where
  nodup : ∀ assignment, (program.path steps assignment).Nodup
  ends : ∀ assignment, program (program.path steps assignment) = none

variable
  {program : TestedProgram}
  {steps : Nat}
  {assignment other third : Var → Value}

theorem symbolic_events
    {history : List BranchId} :
    ∀ event ∈ program.events assignment steps history,
      ∃ c, event.constraint = some c := by
  induction steps generalizing history with
  | zero =>
      intro event member
      cases member
  | succ steps inductionHypothesis =>
      intro event member
      unfold events at member
      cases next : program history with
      | none =>
          rw [next] at member
          cases member
      | some conditional =>
          rw [next] at member
          rcases List.mem_cons.mp member with rfl | later
          · exact conditional.exists_constraint assignment
          · exact inductionHypothesis event later

theorem length_path_le : (program.path steps assignment).length ≤ steps := by
  rw [path, List.length_map]
  by_contra longer
  have inBounds : steps < (program.events assignment steps []).length := by
    omega
  have present := List.getElem?_eq_getElem inBounds
  rw [getElem?_events, if_neg (Nat.lt_irrefl steps)] at present
  cases present

/-- Recording a run of a program without loops drops nothing. -/
theorem LoopFree.retainsAll
    (loopFree : LoopFree program steps)
    (assignment : Var → Value) :
    SymbolicPath.RetainsAll (program.events assignment steps [])
      (SymbolicPath.record (program.events assignment steps [])) :=
  SymbolicPath.retainsAll_record symbolic_events (loopFree.nodup assignment)

/-- Another path that shares so many branches with that of a run. -/
structure Shares
    (program : TestedProgram)
    (steps : Nat)
    (admissible : (Var → Value) → Prop)
    (pos : Nat)
    (assignment : Var → Value)
    (taken : List BranchId) : Prop where
  isPath : ∃ other, admissible other ∧ taken = program.path steps other
  shared : taken.take pos = (program.path steps assignment).take pos
  different : taken ≠ program.path steps assignment

/-- Another path that leaves that of a run at a position. -/
structure Leaves
    (program : TestedProgram)
    (steps : Nat)
    (admissible : (Var → Value) → Prop)
    (pos : Nat)
    (assignment : Var → Value)
    (taken : List BranchId) : Prop where
  isPath : ∃ other, admissible other ∧ taken = program.path steps other
  shared : taken.take pos = (program.path steps assignment).take pos
  leaves :
    taken.take (pos + 1) ≠ (program.path steps assignment).take (pos + 1)

variable
  {admissible : (Var → Value) → Prop}
  {pos : Nat}
  {taken otherTaken : List BranchId}

/-- Where a run has ended, no other path shares all its branches. -/
theorem LoopFree.not_shares
    (loopFree : LoopFree program steps)
    (ended : (program.path steps assignment).length ≤ pos) :
    ¬Shares program steps admissible pos assignment taken := by
  rintro ⟨⟨other, -, rfl⟩, shared, different⟩
  rw [List.take_of_length_le ended] at shared
  have length : (program.path steps other).length ≤ pos := by
    by_contra longer
    have inBounds : pos < (program.events other steps []).length := by
      rw [path, List.length_map] at longer
      omega
    have present := List.getElem?_eq_getElem inBounds
    rw [getElem?_events] at present
    rw [path, ← List.map_take] at shared
    split at present
    · rw [List.nil_append, shared, loopFree.ends] at present
      cases present
    · cases present
  rw [List.take_of_length_le length] at shared
  exact different shared

/-- Sharing at a position is sharing one more branch, or leaving there. -/
theorem shares_iff :
    Shares program steps admissible pos assignment taken ↔
      Shares program steps admissible (pos + 1) assignment taken ∨
        Leaves program steps admissible pos assignment taken := by
  constructor
  · rintro ⟨isPath, shared, different⟩
    by_cases more :
        taken.take (pos + 1) =
          (program.path steps assignment).take (pos + 1)
    · exact Or.inl ⟨isPath, more, different⟩
    · exact Or.inr ⟨isPath, shared, more⟩
  · rintro (⟨isPath, shared, different⟩ | ⟨isPath, shared, leaves⟩)
    · have fewer := congrArg (List.take pos) shared
      rw [List.take_take, List.take_take, Nat.min_eq_left (Nat.le_succ pos)]
        at fewer
      exact ⟨isPath, fewer, different⟩
    · refine ⟨isPath, shared, ?_⟩
      rintro rfl
      exact leaves rfl

/-- What leaves a path no longer shares it. -/
theorem Leaves.not_shares
    (leaves : Leaves program steps admissible pos assignment taken) :
    ¬Shares program steps admissible (pos + 1) assignment taken :=
  fun shares => leaves.leaves shares.shared

/-- The branches before a position decide what is evaluated there. -/
theorem getElem?_events_path
    (program : TestedProgram)
    (assignment : Var → Value)
    (enough : pos < steps) :
    (program.events assignment steps [])[pos]? =
      (program ((program.path steps assignment).take pos)).map
        (Conditional.event · assignment) := by
  rw [getElem?_events, if_pos enough, List.nil_append, path, List.map_take]

theorem take_succ_path
    (program : TestedProgram)
    (assignment : Var → Value)
    (enough : pos < steps) :
    (program.path steps assignment).take (pos + 1) =
      (program.path steps assignment).take pos ++
        ((program ((program.path steps assignment).take pos)).map fun next =>
          (next.event assignment).bid).toList := by
  have here := getElem?_events_path program assignment enough
  rw [List.take_add_one]
  congr 2
  rw [path, List.getElem?_map, ← path, here, Option.map_map]
  rfl

/-- Two paths that leave a third one at a position go on together. -/
theorem Leaves.take_eq
    (inBounds : pos < (program.path steps assignment).length)
    (leaves : Leaves program steps admissible pos assignment taken)
    (otherLeaves : Leaves program steps admissible pos assignment otherTaken) :
    otherTaken.take (pos + 1) = taken.take (pos + 1) := by
  obtain ⟨⟨other, -, rfl⟩, shared, leaves⟩ := leaves
  obtain ⟨⟨third, -, rfl⟩, otherShared, otherLeaves⟩ := otherLeaves
  have enough : pos < steps := lt_of_lt_of_le inBounds length_path_le
  rw [take_succ_path program other enough,
    take_succ_path program assignment enough, shared] at leaves
  rw [take_succ_path program third enough,
    take_succ_path program assignment enough, otherShared] at otherLeaves
  rw [take_succ_path program third enough, take_succ_path program other enough,
    shared, otherShared]
  -- All three evaluate the same condition there, which has two branches.
  cases next : program ((program.path steps assignment).take pos) with
  | none => rfl
  | some conditional =>
      simp only [next, Option.map_some, Option.toList_some, ne_eq,
        List.append_cancel_left_eq, List.cons.injEq, and_true]
        at leaves otherLeaves ⊢
      unfold Conditional.event at leaves otherLeaves ⊢
      by_cases holds : conditional.condition.holds assignment = true
      · by_cases otherHolds : conditional.condition.holds other = true
        · simp [holds, otherHolds] at leaves
        · by_cases thirdHolds : conditional.condition.holds third = true
          · simp [holds, thirdHolds] at otherLeaves
          · simp [otherHolds, thirdHolds]
      · by_cases otherHolds : conditional.condition.holds other = true
        · by_cases thirdHolds : conditional.condition.holds third = true
          · simp [otherHolds, thirdHolds]
          · simp [holds, thirdHolds] at otherLeaves
        · simp [holds, otherHolds] at leaves

/-- The paths that leave at a position are one of them, and what shares it. -/
theorem leaves_iff
    (inBounds : pos < (program.path steps assignment).length)
    (leaves :
      Leaves program steps admissible pos assignment
        (program.path steps other)) :
    Leaves program steps admissible pos assignment taken ↔
      taken = program.path steps other ∨
        Shares program steps admissible (pos + 1) other taken := by
  constructor
  · intro otherLeaves
    by_cases same : taken = program.path steps other
    · exact Or.inl same
    · exact Or.inr
        ⟨otherLeaves.isPath, leaves.take_eq inBounds otherLeaves, same⟩
  · rintro (rfl | ⟨isPath, shared, different⟩)
    · exact leaves
    · refine ⟨isPath, ?_, ?_⟩
      · have fewer := congrArg (List.take pos) shared
        rw [List.take_take, List.take_take, Nat.min_eq_left (Nat.le_succ pos)]
          at fewer
        exact fewer.trans leaves.shared
      · rw [shared]
        exact leaves.leaves

variable {tables : BranchTables}

theorem holdsBefore_iff
    {events : List BranchEvent}
    {constraints : List SymbolicPred}
    (recorded : constraints.map some = events.map BranchEvent.constraint) :
    HoldsBefore pos events other ↔
      ∀ c ∈ constraints.take pos, c.holds other = true := by
  have atIndex (j : Nat) :
      (constraints[j]?).map some = (events[j]?).map BranchEvent.constraint := by
    rw [← List.getElem?_map, recorded, List.getElem?_map]
  constructor
  · intro holds c member
    obtain ⟨j, found⟩ := List.mem_iff_getElem?.mp member
    rw [List.getElem?_take] at found
    split at found
    · next isBefore =>
        have here := atIndex j
        rw [found] at here
        obtain ⟨event, present, supplies⟩ :=
          Option.map_eq_some_iff.mp here.symm
        exact holds j isBefore event present c supplies
    · cases found
  · intro holds j isBefore event present c supplies
    have here := atIndex j
    rw [Option.mem_def.mp present, Option.map_some,
      Option.mem_def.mp supplies] at here
    obtain ⟨d, found, same⟩ := Option.map_eq_some_iff.mp here
    obtain rfl := Option.some.inj same
    refine holds d (List.mem_iff_getElem?.mpr ⟨j, ?_⟩)
    rw [List.getElem?_take, if_pos isBefore]
    exact found

/-- A run shares branches as long as the constraints are true of it. -/
theorem take_path_eq_iff
    (paired : Paired tables program)
    {constraints : List SymbolicPred}
    (recorded :
      constraints.map some =
        (program.events assignment steps []).map BranchEvent.constraint)
    (inBounds : pos ≤ constraints.length) :
    (program.path steps other).take pos =
        (program.path steps assignment).take pos ↔
      ∀ c ∈ constraints.take pos, c.holds other = true := by
  have count :
      constraints.length = (program.path steps assignment).length := by
    rw [path, List.length_map]
    simpa using congrArg List.length recorded
  rw [count] at inBounds
  have enough : pos ≤ steps := inBounds.trans length_path_le
  rw [← holdsBefore_iff recorded,
    ← sameBefore_iff_holdsBefore paired
      (by rw [path, List.length_map] at inBounds; exact inBounds) enough,
    sameBefore_iff, path, path, List.map_take, List.map_take]

/--
A run leaves that of another assignment at a position exactly if the
constraints recorded before it are true, and the one there is not.
-/
theorem leaves_iff_flips
    (paired : Paired tables program)
    {constraints : List SymbolicPred}
    (recorded :
      constraints.map some =
        (program.events assignment steps []).map BranchEvent.constraint)
    (inBounds : pos < constraints.length)
    (isAdmissible : admissible other) :
    Leaves program steps admissible pos assignment
        (program.path steps other) ↔
      (∀ c ∈ constraints.take pos, c.holds other = true) ∧
        ∀ c ∈ constraints[pos]?, c.holds other = false := by
  have before :
      (program.path steps other).take pos =
          (program.path steps assignment).take pos ↔
        ∀ c ∈ constraints.take pos, c.holds other = true :=
    take_path_eq_iff paired recorded (Nat.le_of_lt inBounds)
  have upTo :
      (program.path steps other).take (pos + 1) =
          (program.path steps assignment).take (pos + 1) ↔
        ∀ c ∈ constraints.take (pos + 1), c.holds other = true :=
    take_path_eq_iff paired recorded (Nat.succ_le_of_lt inBounds)
  have here := List.getElem?_eq_getElem inBounds
  rw [List.take_succ_eq_append_getElem inBounds] at upTo
  constructor
  · rintro ⟨-, shared, leaves⟩
    have holds := before.mp shared
    refine ⟨holds, ?_⟩
    intro c isHere
    rw [here] at isHere
    obtain rfl := Option.some.inj isHere
    rw [← Bool.not_eq_true]
    intro holdsHere
    refine leaves (upTo.mpr ?_)
    intro d member
    rcases List.mem_append.mp member with earlier | isLast
    · exact holds d earlier
    · rw [List.mem_singleton.mp isLast]
      exact holdsHere
  · rintro ⟨holds, fails⟩
    refine ⟨⟨other, isAdmissible, rfl⟩, before.mpr holds, ?_⟩
    intro shared
    have holdsHere :=
      upTo.mp shared constraints[pos]
        (List.mem_append_right _ (List.mem_singleton.mpr rfl))
    rw [fails _ here] at holdsHere
    cases holdsHere

end TestedProgram

end Compi
