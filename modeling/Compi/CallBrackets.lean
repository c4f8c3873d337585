import Compi.CflDistance
import Compi.NestedWord

/-!
# Calls and returns as brackets

On any path, whether its calls are closed or not and whether its returns close
a call or not, `SkipUntilReturn` and `CollectNextBranches` are described by
which calls return where, without the tree of calls.
-/

namespace Compi

open CfgDistance NestedWord

namespace CallBrackets

/-- Calls and returns are brackets. -/
def bracket (bid : BranchId) : Bracket :=
  if bid = kCallId then
    .opening
  else if bid = kReturnId then
    .closing
  else
    .plain

/-- The call at a position returns at another one. -/
abbrev Returns (path : List BranchId) (call stop : Nat) : Prop :=
  Matched bracket path call stop

/--
Where `SkipUntilReturn` stops: at the first return of no call from the start
on, or at the end.
-/
structure FirstReturn
    (path : List BranchId)
    (start stop : Nat) : Prop where
  ahead : start ≤ stop
  passed :
    ∀ pos, start ≤ pos → pos < stop → path[pos]? = some kReturnId →
      ∃ call, start ≤ call ∧ Returns path call pos
  stops :
    stop = max start path.length ∨
      (path[stop]? = some kReturnId ∧
        ∀ call, start ≤ call → ¬Returns path call stop)

/--
A branch is reached from the start without leaving its frame and without
passing another branch but in calls that have returned.
-/
structure Reached
    (path : List BranchId)
    (start pos : Nat) : Prop where
  isBranch : ∃ bid, path[pos]? = some bid ∧ 0 ≤ bid
  ahead : start ≤ pos
  returned :
    ∀ passed, start ≤ passed → passed < pos →
      path[passed]? = some kReturnId →
      ∃ call, start ≤ call ∧ Returns path call passed
  inside :
    ∀ passed bid, start ≤ passed → passed < pos →
      path[passed]? = some bid → 0 ≤ bid →
      ∃ call stop,
        start ≤ call ∧ call < passed ∧ passed < stop ∧ stop < pos ∧
          Returns path call stop

/--
The next branches: one here, those inside a call here, and those after its
return.
-/
inductive Follows (path : List BranchId) : Nat → Nat → Prop where
  | here {pos : Nat} {bid : BranchId}
      (isBranch : path[pos]? = some bid)
      (nonnegative : 0 ≤ bid) :
      Follows path pos pos
  | inside {start pos : Nat}
      (isCall : path[start]? = some kCallId)
      (follows : Follows path (start + 1) pos) :
      Follows path start pos
  | after {start stop pos : Nat}
      (returns : Returns path start stop)
      (follows : Follows path (stop + 1) pos) :
      Follows path start pos

/-- What `CollectNextBranches` appends. -/
structure Collected
    (path : List BranchId)
    (start : Nat)
    (found : List Nat) : Prop where
  increasing : found.Pairwise (· < ·)
  reached : ∀ pos, pos ∈ found ↔ Reached path start pos
  follows : ∀ pos, pos ∈ found ↔ Follows path start pos

variable {path suffix : List BranchId} {start stop pos : Nat} {isOpen : Bool}

section Brackets

theorem bracketAt_of_call (isCall : path[pos]? = some kCallId) :
    bracketAt bracket path pos = some .opening := by
  rw [bracketAt, isCall]
  rfl

theorem bracketAt_of_return (isReturn : path[pos]? = some kReturnId) :
    bracketAt bracket path pos = some .closing := by
  rw [bracketAt, isReturn]
  rfl

theorem bracketAt_of_branch
    {bid : BranchId}
    (isBranch : path[pos]? = some bid)
    (nonnegative : 0 ≤ bid) :
    bracketAt bracket path pos = some .plain := by
  have notCall : bid ≠ kCallId := by
    rintro rfl
    exact absurd nonnegative (by decide)
  have notReturn : bid ≠ kReturnId := by
    rintro rfl
    exact absurd nonnegative (by decide)
  rw [bracketAt, isBranch, Option.map_some, bracket, if_neg notCall,
    if_neg notReturn]

theorem call_of_bracketAt
    (opens : bracketAt bracket path pos = some .opening) :
    path[pos]? = some kCallId := by
  obtain ⟨bid, here, isOpening⟩ := Option.map_eq_some_iff.mp opens
  unfold bracket at isOpening
  split at isOpening
  · next isCall =>
      rw [here, isCall]
  · split at isOpening
    · cases isOpening
    · cases isOpening

theorem return_of_bracketAt
    (closes : bracketAt bracket path pos = some .closing) :
    path[pos]? = some kReturnId := by
  obtain ⟨bid, here, isClosing⟩ := Option.map_eq_some_iff.mp closes
  unfold bracket at isClosing
  split at isClosing
  · cases isClosing
  · split at isClosing
    · next isReturn =>
        rw [here, isReturn]
    · cases isClosing

end Brackets

section Frames

/-- A frame does not fall below its level, and returns to it if it is left. -/
theorem level_frame
    (frame : Frame isOpen)
    (left : path.drop pos = frame.ids ++ suffix) :
    Covered bracket path pos (pos + frame.ids.length) ∧
      (isOpen = false →
        level bracket path (pos + frame.ids.length) =
          level bracket path pos) := by
  induction frame generalizing pos suffix with
  | done =>
      exact ⟨Covered.refl pos, fun _ => rfl⟩
  | branch bid rest inductionHypothesis =>
      obtain ⟨here, after⟩ := Frame.getElem?_of_drop left
      obtain ⟨covered, returns⟩ := inductionHypothesis after
      have isPlain := bracketAt_of_branch here (Int.natCast_nonneg bid)
      have notClosing : bracketAt bracket path pos ≠ some .closing := by
        rw [isPlain]
        decide
      have length :
          pos + (Frame.branch bid rest).ids.length =
            pos + 1 + rest.ids.length := by
        rw [Frame.ids, List.length_cons]
        omega
      rw [length]
      constructor
      · exact (covered_succ notClosing).trans (Nat.le_succ pos) covered
      · exact fun closed => (returns closed).trans (level_of_plain isPlain)
  | call callee rest calleeHypothesis restHypothesis =>
      obtain ⟨here, inside, returned, after⟩ := Frame.positions_of_call left
      obtain ⟨calleeCovered, calleeReturns⟩ := calleeHypothesis inside
      obtain ⟨covered, returns⟩ := restHypothesis after
      have isMatched :
          Returns path pos (pos + 1 + callee.ids.length) :=
        matched_of_covered (bracketAt_of_call here)
          (bracketAt_of_return returned) (by omega) calleeCovered
          (calleeReturns rfl)
      have length :
          pos + (Frame.call callee rest).ids.length =
            pos + 1 + callee.ids.length + 1 + rest.ids.length := by
        rw [Frame.ids, List.length_cons, List.length_append, List.length_cons]
        omega
      rw [length]
      constructor
      · exact isMatched.covered.trans (by omega) covered
      · exact fun closed => (returns closed).trans isMatched.returns
  | enter callee inductionHypothesis =>
      obtain ⟨here, inside, _⟩ := Frame.positions_of_enter left
      obtain ⟨covered, _⟩ := inductionHypothesis inside
      have notClosing : bracketAt bracket path pos ≠ some .closing := by
        rw [bracketAt_of_call here]
        decide
      have length :
          pos + (Frame.enter callee).ids.length =
            pos + 1 + callee.ids.length := by
        rw [Frame.ids, List.length_cons]
        omega
      rw [length]
      constructor
      · exact (covered_succ notClosing).trans (Nat.le_succ pos) covered
      · intro closed
        cases closed

/-- A call in a frame returns after its callee. -/
theorem returns_of_call
    {callee : Frame false}
    {rest : Frame isOpen}
    (left : path.drop pos = (Frame.call callee rest).ids ++ suffix) :
    Returns path pos (pos + 1 + callee.ids.length) := by
  obtain ⟨here, inside, returned, _⟩ := Frame.positions_of_call left
  obtain ⟨covered, returns⟩ := level_frame callee inside
  exact
    matched_of_covered (bracketAt_of_call here) (bracketAt_of_return returned)
      (by omega) covered (returns rfl)

/-- A call that is open at the end returns nowhere. -/
theorem not_returns_of_enter
    {callee : Frame isOpen}
    (left : path.drop pos = (Frame.enter callee).ids) :
    ¬Returns path pos stop := by
  have whole : path.drop pos = (Frame.enter callee).ids ++ [] := by
    rw [left, List.append_nil]
  obtain ⟨here, inside, _⟩ := Frame.positions_of_enter whole
  obtain ⟨covered, _⟩ := level_frame callee inside
  intro returns
  have up := level_of_opening (bracketAt_of_call here)
  have inBounds : stop < path.length :=
    (List.getElem?_eq_some_iff.mp (return_of_bracketAt returns.closes)).1
  have length : path.length - pos = callee.ids.length + 1 := by
    rw [← List.length_drop, left, Frame.ids, List.length_cons]
  have notBelow :=
    covered (stop + 1) (by have := returns.before; omega) (by omega)
  have back := returns.returns
  omega

end Frames

section Rules

/--
What determines the next branches from each position: what stands there, and
where a call there returns.
-/
structure FollowsRules
    (path : List BranchId)
    (next : Nat → Nat → Prop) : Prop where
  atEnd : ∀ {start pos}, path[start]? = none → ¬next start pos
  atReturn : ∀ {start pos}, path[start]? = some kReturnId → ¬next start pos
  atBranch :
    ∀ {start pos} {bid : BranchId},
      path[start]? = some bid → 0 ≤ bid → (next start pos ↔ pos = start)
  atCall :
    ∀ {start stop pos},
      Returns path start stop →
        (next start pos ↔ next (start + 1) pos ∨ next (stop + 1) pos)
  atOpenCall :
    ∀ {start pos},
      path[start]? = some kCallId → (∀ stop, ¬Returns path start stop) →
        (next start pos ↔ next (start + 1) pos)

/-- The first branches of a frame follow its start, by any such rules. -/
theorem FollowsRules.mem_next_iff
    {next : Nat → Nat → Prop}
    (rules : FollowsRules path next)
    (frame : Frame isOpen)
    (left : path.drop start = frame.ids ++ suffix)
    (ends : Frame.Ends isOpen suffix) :
    pos ∈ frame.next start ↔ next start pos := by
  induction frame generalizing start suffix with
  | done =>
      have none : ¬next start pos := by
        rcases Frame.getElem?_of_ends left ends with atEnd | here
        · exact rules.atEnd atEnd
        · exact rules.atReturn here
      exact iff_of_false List.not_mem_nil none
  | branch bid rest _ =>
      obtain ⟨here, _⟩ := Frame.getElem?_of_drop left
      rw [Frame.next, List.mem_singleton,
        rules.atBranch here (Int.natCast_nonneg bid)]
  | call callee rest calleeHypothesis restHypothesis =>
      obtain ⟨_, inside, _, after⟩ := Frame.positions_of_call left
      rw [Frame.next, List.mem_append, rules.atCall (returns_of_call left),
        calleeHypothesis inside (Or.inr ⟨rfl, rfl⟩),
        restHypothesis after ends]
  | enter callee inductionHypothesis =>
      obtain rfl := ends.eq_nil
      obtain ⟨here, inside, _⟩ := Frame.positions_of_enter left
      rw [List.append_nil] at left
      rw [Frame.next,
        rules.atOpenCall here fun stop => not_returns_of_enter left,
        inductionHypothesis inside (Or.inl rfl)]

theorem kCallId_lt : kCallId < 0 := by
  decide

theorem kReturnId_lt : kReturnId < 0 := by
  decide

/-- A marker is no branch. -/
theorem not_branch
    {marker bid : BranchId}
    (negative : marker < 0)
    (here : path[pos]? = some marker)
    (isBranch : path[pos]? = some bid) :
    ¬0 ≤ bid := by
  obtain rfl := Option.some.inj (here.symm.trans isBranch)
  exact Int.not_le.mpr negative

theorem followsRules_follows : FollowsRules path (Follows path) where
  atEnd := by
    rintro start pos atEnd (⟨isBranch, _⟩ | ⟨isCall, _⟩ | ⟨returns, _⟩)
    · cases atEnd.symm.trans isBranch
    · cases atEnd.symm.trans isCall
    · cases atEnd.symm.trans (call_of_bracketAt returns.opens)
  atReturn := by
    rintro start pos here (⟨isBranch, nonnegative⟩ | ⟨isCall, _⟩ | ⟨returns, _⟩)
    · exact not_branch kReturnId_lt here isBranch nonnegative
    · cases here.symm.trans isCall
    · cases here.symm.trans (call_of_bracketAt returns.opens)
  atBranch := by
    intro start pos bid here nonnegative
    constructor
    · rintro (_ | ⟨isCall, _⟩ | ⟨returns, _⟩)
      · rfl
      · exact absurd nonnegative (not_branch kCallId_lt isCall here)
      · have isCall := call_of_bracketAt returns.opens
        exact absurd nonnegative (not_branch kCallId_lt isCall here)
    · rintro rfl
      exact Follows.here here nonnegative
  atCall := by
    intro start stop pos returns
    have here := call_of_bracketAt returns.opens
    constructor
    · rintro (⟨isBranch, nonnegative⟩ | ⟨_, follows⟩ | ⟨others, follows⟩)
      · exact absurd nonnegative (not_branch kCallId_lt here isBranch)
      · exact Or.inl follows
      · rw [returns.unique others]
        exact Or.inr follows
    · rintro (inCall | afterwards)
      · exact Follows.inside here inCall
      · exact Follows.after returns afterwards
  atOpenCall := by
    intro start pos here isOpen
    constructor
    · rintro (⟨isBranch, nonnegative⟩ | ⟨_, follows⟩ | ⟨returns, _⟩)
      · exact absurd nonnegative (not_branch kCallId_lt here isBranch)
      · exact follows
      · exact absurd returns (isOpen _)
    · exact Follows.inside here

/-- Reaching a branch in terms of levels. -/
theorem reached_iff :
    Reached path start pos ↔
      (∃ bid, path[pos]? = some bid ∧ 0 ≤ bid) ∧
        start ≤ pos ∧
        Covered bracket path start pos ∧
        ∀ passed bid, start ≤ passed → passed < pos →
          path[passed]? = some bid → 0 ≤ bid →
          ∃ k,
            passed < k ∧ k ≤ pos ∧
              level bracket path k < level bracket path passed := by
  constructor
  · rintro ⟨isBranch, ahead, returned, inside⟩
    have covered : Covered bracket path start pos := by
      refine (covered_iff start pos).mpr fun passed fromStart isBefore closes => ?_
      exact returned passed fromStart isBefore (return_of_bracketAt closes)
    refine ⟨isBranch, ahead, covered, ?_⟩
    intro passed bid fromStart isBefore here nonnegative
    exact
      (exists_below_iff covered fromStart
        (bracketAt_of_branch here nonnegative)).mpr
        (inside passed bid fromStart isBefore here nonnegative)
  · rintro ⟨isBranch, ahead, covered, below⟩
    refine ⟨isBranch, ahead, ?_, ?_⟩
    · intro passed fromStart isBefore here
      exact
        (covered_iff start pos).mp covered passed fromStart isBefore
          (bracketAt_of_return here)
    · intro passed bid fromStart isBefore here nonnegative
      exact
        (exists_below_iff covered fromStart
          (bracketAt_of_branch here nonnegative)).mp
          (below passed bid fromStart isBefore here nonnegative)

/-- A call or a return is no branch. -/
theorem lt_of_reached
    {bid : BranchId}
    (here : path[start]? = some bid)
    (negative : bid < 0)
    (reached : Reached path start pos) :
    start < pos := by
  refine Nat.lt_of_le_of_ne reached.ahead ?_
  rintro rfl
  obtain ⟨other, isBranch, nonnegative⟩ := reached.isBranch
  exact not_branch negative here isBranch nonnegative

/-- What is reached inside a call is reached from the call. -/
theorem reached_of_inside
    (here : path[start]? = some kCallId)
    (reached : Reached path (start + 1) pos) :
    Reached path start pos := by
  obtain ⟨isBranch, ahead, covered, below⟩ := reached_iff.mp reached
  have notClosing : bracketAt bracket path start ≠ some .closing := by
    rw [bracketAt_of_call here]
    decide
  refine reached_iff.mpr ⟨isBranch, Nat.le_of_succ_le ahead, ?_, ?_⟩
  · exact (covered_succ notClosing).trans (Nat.le_succ start) covered
  · intro passed bid fromStart isBefore isPassed nonnegative
    rcases Nat.lt_or_eq_of_le fromStart with isAfter | rfl
    · exact below passed bid isAfter isBefore isPassed nonnegative
    · exact absurd nonnegative (not_branch kCallId_lt here isPassed)

/-- What is reached from the return of a call is reached from the call. -/
theorem reached_of_after
    (returns : Returns path start stop)
    (reached : Reached path (stop + 1) pos) :
    Reached path start pos := by
  obtain ⟨isBranch, ahead, covered, below⟩ := reached_iff.mp reached
  have here := call_of_bracketAt returns.opens
  have isCall := returns.before
  refine reached_iff.mpr ⟨isBranch, by omega, ?_, ?_⟩
  · exact returns.covered.trans (by omega) covered
  · intro passed bid fromStart isBefore isPassed nonnegative
    rcases Nat.lt_or_ge stop passed with isAfter | inCall
    · exact below passed bid isAfter isBefore isPassed nonnegative
    · rcases Nat.lt_or_eq_of_le fromStart with isInside | rfl
      · refine ⟨stop + 1, Nat.lt_succ_of_le inCall, ahead, ?_⟩
        rw [returns.returns]
        exact returns.above passed isInside inCall
      · exact absurd nonnegative (not_branch kCallId_lt here isPassed)

/-- What is reached from a call is reached inside it or from its return. -/
theorem inside_or_after_of_reached
    (returns : Returns path start stop)
    (reached : Reached path start pos) :
    Reached path (start + 1) pos ∨ Reached path (stop + 1) pos := by
  have here := call_of_bracketAt returns.opens
  have isAfter := lt_of_reached here kCallId_lt reached
  obtain ⟨isBranch, _, covered, below⟩ := reached_iff.mp reached
  rcases Nat.lt_or_ge stop pos with hasReturned | inCall
  · refine Or.inr (reached_iff.mpr ⟨isBranch, hasReturned, ?_, ?_⟩)
    · intro k fromStart toStop
      rw [returns.returns]
      have isCall := returns.before
      exact covered k (by omega) toStop
    · intro passed bid fromStart isBefore isPassed nonnegative
      have isCall := returns.before
      exact below passed bid (by omega) isBefore isPassed nonnegative
  · refine Or.inl (reached_iff.mpr ⟨isBranch, isAfter, ?_, ?_⟩)
    · intro k fromStart toStop
      have up := level_of_opening returns.opens
      have higher := returns.above k fromStart (Nat.le_trans toStop inCall)
      omega
    · intro passed bid fromStart isBefore isPassed nonnegative
      exact
        below passed bid (Nat.le_of_succ_le fromStart) isBefore isPassed
          nonnegative

theorem followsRules_reached : FollowsRules path (Reached path) where
  atEnd := by
    intro start pos atEnd reached
    obtain ⟨bid, isBranch, _⟩ := reached.isBranch
    have inBounds := (List.getElem?_eq_some_iff.mp isBranch).1
    have isEnd := List.getElem?_eq_none_iff.mp atEnd
    have ahead := reached.ahead
    omega
  atReturn := by
    intro start pos here reached
    have isAfter := lt_of_reached here kReturnId_lt reached
    obtain ⟨call, fromStart, returns⟩ :=
      reached.returned start (Nat.le_refl start) isAfter here
    exact absurd returns.before (Nat.not_lt.mpr fromStart)
  atBranch := by
    intro start pos bid here nonnegative
    constructor
    · intro reached
      by_contra different
      have isAfter :=
        Nat.lt_of_le_of_ne reached.ahead fun same => different same.symm
      obtain ⟨call, _, fromStart, isBefore, _⟩ :=
        reached.inside start bid (Nat.le_refl start) isAfter here nonnegative
      exact absurd isBefore (Nat.not_lt.mpr fromStart)
    · rintro rfl
      refine ⟨⟨bid, here, nonnegative⟩, Nat.le_refl pos, ?_, ?_⟩
      · intro passed fromStart isBefore
        exact absurd isBefore (Nat.not_lt.mpr fromStart)
      · intro passed _ fromStart isBefore
        exact absurd isBefore (Nat.not_lt.mpr fromStart)
  atCall := by
    intro start stop pos returns
    have here := call_of_bracketAt returns.opens
    constructor
    · exact inside_or_after_of_reached returns
    · rintro (inCall | afterwards)
      · exact reached_of_inside here inCall
      · exact reached_of_after returns afterwards
  atOpenCall := by
    intro start pos here isOpen
    constructor
    · intro reached
      have isAfter := lt_of_reached here kCallId_lt reached
      have later
          {call stop : Nat}
          (fromStart : start ≤ call)
          (returns : Returns path call stop) :
          start + 1 ≤ call := by
        refine Nat.lt_of_le_of_ne fromStart ?_
        rintro rfl
        exact isOpen stop returns
      refine ⟨reached.isBranch, isAfter, ?_, ?_⟩
      · intro passed fromStart isBefore isReturn
        obtain ⟨call, isInside, returns⟩ :=
          reached.returned passed (Nat.le_of_succ_le fromStart) isBefore
            isReturn
        exact ⟨call, later isInside returns, returns⟩
      · intro passed bid fromStart isBefore isPassed nonnegative
        obtain ⟨call, stop, isInside, around, within, hasReturned, returns⟩ :=
          reached.inside passed bid (Nat.le_of_succ_le fromStart) isBefore
            isPassed nonnegative
        exact
          ⟨call, stop, later isInside returns, around, within, hasReturned,
            returns⟩
    · exact reached_of_inside here

end Rules

section Positions

/-- The first branches of a frame stand in it, in increasing order. -/
theorem next_increasing (frame : Frame isOpen) (start : Nat) :
    (frame.next start).Pairwise (· < ·) ∧
      ∀ pos ∈ frame.next start,
        start ≤ pos ∧ pos < start + frame.ids.length := by
  induction frame generalizing start with
  | done =>
      exact ⟨List.Pairwise.nil, List.forall_mem_nil _⟩
  | branch bid rest _ =>
      refine ⟨List.pairwise_singleton _ _, List.forall_mem_singleton.mpr ?_⟩
      rw [Frame.ids, List.length_cons]
      omega
  | call callee rest calleeHypothesis restHypothesis =>
      obtain ⟨calleeOrder, inCallee⟩ := calleeHypothesis (start + 1)
      obtain ⟨restOrder, inRest⟩ :=
        restHypothesis (start + 1 + callee.ids.length + 1)
      rw [Frame.next, Frame.ids, List.length_cons, List.length_append,
        List.length_cons]
      constructor
      · refine List.pairwise_append.mpr ⟨calleeOrder, restOrder, ?_⟩
        intro pos isInside later isAfter
        have inside := inCallee pos isInside
        have after := inRest later isAfter
        omega
      · intro pos member
        rcases List.mem_append.mp member with isInside | isAfter
        · have inside := inCallee pos isInside
          omega
        · have after := inRest pos isAfter
          omega
  | enter callee inductionHypothesis =>
      obtain ⟨order, inCallee⟩ := inductionHypothesis (start + 1)
      rw [Frame.next, Frame.ids, List.length_cons]
      refine ⟨order, fun pos member => ?_⟩
      have inside := inCallee pos member
      omega

/-- A frame ends at the first return of no call from its start on. -/
theorem firstReturn_frame
    (frame : Frame isOpen)
    (left : path.drop start = frame.ids ++ suffix)
    (ends : Frame.Ends isOpen suffix) :
    FirstReturn path start (start + frame.ids.length) := by
  obtain ⟨covered, balanced⟩ := level_frame frame left
  refine ⟨Nat.le_add_right _ _, ?_, ?_⟩
  · intro pos fromStart isBefore isReturn
    exact
      (covered_iff start _).mp covered pos fromStart isBefore
        (bracketAt_of_return isReturn)
  · rcases ends with rfl | ⟨isClosed, returns⟩
    · have length := congrArg List.length left
      rw [List.append_nil, List.length_drop] at length
      exact Or.inl (by omega)
    · have isReturn :
          path[start + frame.ids.length]? = some kReturnId := by
        rw [← List.head?_drop, Frame.drop_of_drop left, returns]
      have down := level_of_closing (bracketAt_of_return isReturn)
      have sameLevel := balanced isClosed
      refine Or.inr ⟨isReturn, fun call fromStart => ?_⟩
      exact not_matched_of_below covered (by omega) fromStart

/-- The first branches of a frame are what is collected from its start. -/
theorem collected_frame
    (frame : Frame isOpen)
    (left : path.drop start = frame.ids ++ suffix)
    (ends : Frame.Ends isOpen suffix) :
    Collected path start (frame.next start) where
  increasing := (next_increasing frame start).1
  reached := fun _ => followsRules_reached.mem_next_iff frame left ends
  follows := fun _ => followsRules_follows.mem_next_iff frame left ends

/--
With enough fuel for the length of a path, both functions end without a failed
assertion.  `SkipUntilReturn` stops at the first return of no call from the
start on, also after `CollectNextBranches`, which appends the next branches.
-/
theorem skips_and_collects
    (path : List BranchId)
    (pathIds : ∀ bid ∈ path, Frame.PathId bid)
    (start : Nat)
    (idxs : List Nat) :
    ∃ stop found,
      FirstReturn path start stop ∧
        Collected path start found ∧
        ∀ fuel, path.length < fuel →
          skipUntilReturn path fuel start = some stop ∧
            ∃ last,
              collectNextBranches path fuel start idxs =
                  some (last, idxs ++ found) ∧
                skipUntilReturn path fuel last = some stop := by
  have restIds : ∀ bid ∈ path.drop start, Frame.PathId bid :=
    fun bid member => pathIds bid (List.mem_of_mem_drop member)
  obtain ⟨isOpen, frame, suffix, left, ends⟩ :=
    Frame.exists_frame_of_pathIds _ restIds
  refine
    ⟨start + frame.ids.length, frame.next start,
      firstReturn_frame frame left ends, collected_frame frame left ends, ?_⟩
  intro fuel enough
  have fits := Nat.lt_of_le_of_lt (Frame.length_ids_le left) enough
  obtain ⟨last, _, unread, collected, unreadLeft, unreadEnds, same⟩ :=
    Frame.collectNextBranches_frame frame left ends fits idxs
  have unreadFits := Nat.lt_of_le_of_lt (Frame.length_ids_le unreadLeft) enough
  refine
    ⟨Frame.skipUntilReturn_frame frame left ends fits, last, collected, ?_⟩
  rw [← same]
  exact Frame.skipUntilReturn_frame unread unreadLeft unreadEnds unreadFits

/-- A call that returns, a return of no call, and a call that is left open. -/
theorem skips_and_collects_unmatched :
    let path : List BranchId :=
      [kCallId, 3, 4, kReturnId, 5, 6, kReturnId, kCallId, 7]
    FirstReturn path 0 6 ∧ Collected path 0 [1, 4] := by
  intro path
  have pathIds : ∀ bid ∈ path, Frame.PathId bid := by
    unfold Frame.PathId
    decide
  obtain ⟨stop, found, first, collected, runs⟩ :=
    skips_and_collects path pathIds 0 []
  obtain ⟨skipped, last, appended, _⟩ := runs 10 (by decide)
  have skips : skipUntilReturn path 10 0 = some 6 := rfl
  have collects : collectNextBranches path 10 0 [] = some (5, [1, 4]) := rfl
  obtain rfl := Option.some.inj (skips.symm.trans skipped)
  obtain ⟨_, same⟩ :=
    Prod.mk.inj (Option.some.inj (collects.symm.trans appended))
  rw [List.nil_append] at same
  rw [same]
  exact ⟨first, collected⟩

-- The path `* ( ( ( 1 2 ) 4 ) ( 5 ( 6 7 ) ) 8 ) 9` of `SolveAlongCfg`.
example :
    nextBranches
        [0, kCallId, kCallId, kCallId, 1, 2, kReturnId, 4, kReturnId, kCallId,
          5, kCallId, 6, 7, kReturnId, kReturnId, 8, kReturnId, 9] 0 =
      some [4, 7, 10, 16, 18] := by
  decide

end Positions

end CallBrackets

end Compi
