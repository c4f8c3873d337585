import Compi.SymbolicPath

/-!
# Recorded paths

The path of an execution is recorded by pushing its branch events one after
another.  The retained constraints are aligned with the positions of the
events that supplied them.
-/

namespace Compi

/-- A branch event, with the constraint of a symbolic branch. -/
structure BranchEvent where
  bid : BranchId
  constraint : Option SymbolicPred
  state : BranchState
  deriving DecidableEq

namespace SymbolicPath

/-- Push an event. -/
def pushEvent (path : SymbolicPath) (event : BranchEvent) : SymbolicPath :=
  path.push event.bid event.constraint event.state

/-- The path that a sequence of events leaves in a fresh one. -/
def record (events : List BranchEvent) : SymbolicPath :=
  events.foldl pushEvent empty

/-- A path holds the branches of events and retains some constraints. -/
structure Records
    (events : List BranchEvent)
    (path : SymbolicPath) : Prop where
  branches : path.branches = events.map BranchEvent.bid
  aligned : path.constraints.length = path.constraintsIdx.length
  increasing : path.constraintsIdx.Pairwise (· < ·)
  supplied :
    ∀ i pos : Nat,
      path.constraintsIdx[i]? = some pos →
      ∃ (event : BranchEvent) (c : SymbolicPred),
        events[pos]? = some event ∧
        event.constraint = some c ∧
        path.constraints[i]? = some c

namespace Records

variable {events : List BranchEvent} {path : SymbolicPath}

/-- Recorded positions are positions of events. -/
theorem position_lt
    (records : Records events path)
    {pos : Nat}
    (member : pos ∈ path.constraintsIdx) :
    pos < events.length := by
  obtain ⟨i, found⟩ := List.mem_iff_getElem?.mp member
  obtain ⟨event, _, present, _⟩ := records.supplied i pos found
  exact (List.getElem?_eq_some_iff.mp present).1

/-- Later events leave the suppliers of retained constraints in place. -/
theorem supplied_append
    (records : Records events path)
    (event : BranchEvent)
    {i pos : Nat}
    (found : path.constraintsIdx[i]? = some pos) :
    ∃ (supplier : BranchEvent) (c : SymbolicPred),
      (events ++ [event])[pos]? = some supplier ∧
      supplier.constraint = some c ∧
      path.constraints[i]? = some c := by
  obtain ⟨supplier, c, present, supplies, retained⟩ :=
    records.supplied i pos found
  refine ⟨supplier, c, ?_, supplies, retained⟩
  rw [List.getElem?_append_left (List.getElem?_eq_some_iff.mp present).1]
  exact present

theorem branches_append
    (records : Records events path)
    (event : BranchEvent) :
    path.branches ++ [event.bid] =
      (events ++ [event]).map BranchEvent.bid := by
  rw [records.branches, List.map_append]
  rfl

/-- An event whose constraint is not retained. -/
theorem pass
    (records : Records events path)
    (event : BranchEvent) :
    Records (events ++ [event])
      { path with branches := path.branches ++ [event.bid] } where
  branches := records.branches_append event
  aligned := records.aligned
  increasing := records.increasing
  supplied := fun _ _ found => records.supplied_append event found

/-- An event whose constraint is retained. -/
theorem retain
    (records : Records events path)
    {event : BranchEvent}
    {c : SymbolicPred}
    (symbolic : event.constraint = some c) :
    Records (events ++ [event])
      { path with
        branchesHash := path.branchesHash.insert event.bid event.state
        constraints := path.constraints ++ [c]
        constraintsIdx := path.constraintsIdx ++ [path.branches.length]
        branches := path.branches ++ [event.bid] } := by
  have newPosition : path.branches.length = events.length := by
    rw [records.branches, List.length_map]
  refine ⟨records.branches_append event, ?_, ?_, ?_⟩
  · simp [records.aligned]
  · refine List.pairwise_append.mpr
      ⟨records.increasing, List.pairwise_singleton _ _, ?_⟩
    intro earlier member later isNew
    rw [List.mem_singleton.mp isNew, newPosition]
    exact records.position_lt member
  · intro i pos found
    dsimp only at found ⊢
    rcases Nat.lt_trichotomy i path.constraintsIdx.length with
      isBefore | isNew | isAfter
    · rw [List.getElem?_append_left isBefore] at found
      obtain ⟨supplier, d, present, supplies, kept⟩ :=
        records.supplied_append event found
      refine ⟨supplier, d, present, supplies, ?_⟩
      rw [List.getElem?_append_left (records.aligned ▸ isBefore)]
      exact kept
    · rw [isNew, List.getElem?_concat_length, newPosition] at found
      obtain rfl := Option.some.inj found
      refine ⟨event, c, List.getElem?_concat_length, symbolic, ?_⟩
      rw [isNew, ← records.aligned]
      exact List.getElem?_concat_length
    · rw [List.getElem?_eq_none (by simp; omega)] at found
      cases found

theorem push
    (records : Records events path)
    (event : BranchEvent) :
    Records (events ++ [event]) (path.pushEvent event) := by
  unfold pushEvent
  cases symbolic : event.constraint with
  | none =>
      exact records.pass event
  | some c =>
      by_cases retained : path.retains event.bid event.state = true
      · have isRetained := records.retain symbolic
        rwa [SymbolicPath.push, if_pos retained]
      · have isPassed := records.pass event
        rwa [SymbolicPath.push, if_neg retained]

end Records

/-- Every sequence of events is recorded. -/
theorem records_record (events : List BranchEvent) :
    Records events (record events) := by
  induction events using List.reverseRecOn with
  | nil =>
      refine ⟨rfl, rfl, List.Pairwise.nil, ?_⟩
      intro i pos found
      cases found
  | append_singleton events event inductionHypothesis =>
      rw [record, List.foldl_append]
      exact inductionHypothesis.push event

/-- The constraints before a retained one come from events before its own. -/
theorem Records.mem_take
    {events : List BranchEvent}
    {path : SymbolicPath}
    (records : Records events path)
    {i pos : Nat}
    (position : path.constraintsIdx[i]? = some pos)
    {c : SymbolicPred}
    (before : c ∈ path.constraints.take i) :
    ∃ earlier < pos, ∃ event : BranchEvent,
      earlier ∈ path.constraintsIdx ∧
      events[earlier]? = some event ∧ event.constraint = some c := by
  obtain ⟨k, found⟩ := List.mem_iff_getElem?.mp before
  have isBefore : k < i := by
    by_contra notBefore
    rw [List.getElem?_take, if_neg notBefore] at found
    cases found
  rw [List.getElem?_take, if_pos isBefore] at found
  have inBounds : k < path.constraintsIdx.length := by
    rw [← records.aligned]
    exact (List.getElem?_eq_some_iff.mp found).1
  have earlierPosition := List.getElem?_eq_getElem inBounds
  obtain ⟨event, d, present, supplies, kept⟩ :=
    records.supplied k _ earlierPosition
  obtain rfl := Option.some.inj (found.symm.trans kept)
  refine ⟨_, ?_, event, List.getElem_mem inBounds, present, supplies⟩
  obtain ⟨iInBounds, isPos⟩ := List.getElem?_eq_some_iff.mp position
  rw [← isPos]
  exact List.pairwise_iff_getElem.mp records.increasing k i inBounds
    iInBounds isBefore

end SymbolicPath

end Compi
