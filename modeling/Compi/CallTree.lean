import Compi.CfgDistance
import Compi.InterpreterEffects
import Compi.PartialRun

/-!
# Call trees

The events of a run form a tree of calls, and the branches of a recorded path
are meant to spell it out with the identifiers of calls and returns.  On a
path that does, `CollectNextBranches` finds the branches that immediately
follow a position of the tree.
-/

namespace Compi

/--
What is left to happen in a frame: branches and calls up to its return, or in
an open frame up to the end of the run inside some calls.
-/
inductive Frame : Bool → Type where
  | done : Frame false
  | branch {isOpen : Bool} (bid : Nat) (rest : Frame isOpen) : Frame isOpen
  | call {isOpen : Bool}
      (callee : Frame false)
      (rest : Frame isOpen) : Frame isOpen
  | enter {isOpen : Bool} (callee : Frame isOpen) : Frame true

namespace Frame

/-- The identifiers of the events of a frame, in order. -/
def ids : {isOpen : Bool} → Frame isOpen → List BranchId
  | _, done => []
  | _, branch bid rest => (bid : BranchId) :: rest.ids
  | _, call callee rest => kCallId :: (callee.ids ++ kReturnId :: rest.ids)
  | _, enter callee => kCallId :: callee.ids

/--
The first branches from the start of a frame at a position: those inside the
calls before the next branch of the frame, and that branch.
-/
def next (pos : Nat) : {isOpen : Bool} → Frame isOpen → List Nat
  | _, done => []
  | _, branch _ _ => [pos]
  | _, call callee rest =>
      callee.next (pos + 1) ++ rest.next (pos + 1 + callee.ids.length + 1)
  | _, enter callee => callee.next (pos + 1)

/-- The branches that immediately follow an event of a frame at a position. -/
def followers (pos i : Nat) : {isOpen : Bool} → Frame isOpen → List Nat
  | _, done => []
  | _, branch _ rest =>
      if i = pos then rest.next (pos + 1) else rest.followers (pos + 1) i
  | _, call callee rest =>
      let returned := pos + 1 + callee.ids.length
      if i = pos then
        callee.next (pos + 1)
      else if i < returned then
        callee.followers (pos + 1) i
      else if i = returned then
        rest.next (returned + 1)
      else
        rest.followers (returned + 1) i
  | _, enter callee =>
      if i = pos then callee.next (pos + 1) else callee.followers (pos + 1) i

/-- Whether identifiers are properly nested below a number of calls. -/
def Nested : Nat → List BranchId → Prop
  | _, [] => True
  | depth, bid :: rest =>
      if bid = kCallId then
        Nested (depth + 1) rest
      else if bid = kReturnId then
        0 < depth ∧ Nested (depth - 1) rest
      else
        0 ≤ bid ∧ Nested depth rest

/-- Properly nested identifiers begin with a frame and may return from it. -/
theorem exists_frame_or_return
    {depth : Nat}
    (ids : List BranchId)
    (nested : Nested depth ids) :
    (∃ (isOpen : Bool) (frame : Frame isOpen), frame.ids = ids) ∨
      ∃ (frame : Frame false) (rest : List BranchId),
        0 < depth ∧
          ids = frame.ids ++ kReturnId :: rest ∧
          Nested (depth - 1) rest := by
  induction length : ids.length using Nat.strongRecOn generalizing depth ids with
  | _ n inductionHypothesis =>
      subst length
      cases ids with
      | nil =>
          exact Or.inl ⟨false, done, rfl⟩
      | cons bid rest =>
          have shorter : rest.length < (bid :: rest).length := by simp
          unfold Nested at nested
          split at nested
          · next isCall =>
              rcases inductionHypothesis _ shorter rest nested rfl with
                ⟨isOpen, callee, isRest⟩ | ⟨callee, after, _, isRest, left⟩
              · exact Or.inl ⟨true, enter callee, by rw [ids, isCall, isRest]⟩
              · have afterShorter :
                    after.length < (bid :: rest).length := by
                  rw [isRest]
                  simp only [List.length_cons, List.length_append]
                  omega
                rw [Nat.add_sub_cancel] at left
                rcases inductionHypothesis _ afterShorter after left rfl with
                  ⟨isOpen, frame, isAfter⟩ |
                    ⟨frame, later, inside, isAfter, later_nested⟩
                · exact Or.inl ⟨isOpen, call callee frame, by
                    rw [ids, isCall, isRest, isAfter]⟩
                · exact Or.inr ⟨call callee frame, later, inside, by
                    rw [ids, isCall, isRest, isAfter]
                    simp, later_nested⟩
          · split at nested
            · next isReturn =>
                exact Or.inr ⟨done, rest, nested.1, by rw [isReturn]; rfl,
                  nested.2⟩
            · have isBid : ((bid.toNat : Nat) : BranchId) = bid :=
                Int.toNat_of_nonneg nested.1
              rcases inductionHypothesis _ shorter rest nested.2 rfl with
                ⟨isOpen, frame, isRest⟩ |
                  ⟨frame, later, inside, isRest, later_nested⟩
              · exact Or.inl ⟨isOpen, branch bid.toNat frame, by
                  rw [ids, isBid, isRest]⟩
              · exact Or.inr ⟨branch bid.toNat frame, later, inside, by
                  rw [ids, isBid, isRest]
                  rfl, later_nested⟩

/-- Properly nested identifiers are those of a call tree. -/
theorem exists_frame
    {ids : List BranchId}
    (nested : Nested 0 ids) :
    ∃ (isOpen : Bool) (frame : Frame isOpen), frame.ids = ids := by
  rcases exists_frame_or_return ids nested with found | ⟨_, _, inside, _⟩
  · exact found
  · exact absurd inside (Nat.lt_irrefl 0)

section MarkedPaths

open CfgDistance

/-- What follows a frame on a path: its return, or the end of the run. -/
def Ends (isOpen : Bool) (suffix : List BranchId) : Prop :=
  suffix = [] ∨ (isOpen = false ∧ suffix.head? = some kReturnId)

theorem kCallId_ne_kReturnId : kCallId ≠ kReturnId := by
  decide

theorem bid_ne_kCallId (bid : Nat) : (bid : BranchId) ≠ kCallId := by
  change (bid : Int) ≠ -1
  omega

theorem bid_ne_kReturnId (bid : Nat) : (bid : BranchId) ≠ kReturnId := by
  change (bid : Int) ≠ -2
  omega

/-- The identifiers from a position on. -/
theorem getElem?_of_drop
    {path rest : List BranchId}
    {pos : Nat}
    {bid : BranchId}
    (left : path.drop pos = bid :: rest) :
    path[pos]? = some bid ∧ path.drop (pos + 1) = rest := by
  constructor
  · rw [← List.head?_drop, left, List.head?_cons]
  · rw [← List.tail_drop, left, List.tail_cons]

theorem getElem?_of_drop_nil
    {path : List BranchId}
    {pos : Nat}
    (left : path.drop pos = []) :
    path[pos]? = none := by
  rw [← List.head?_drop, left, List.head?_nil]

/-- What comes after a part of what is left. -/
theorem drop_of_drop
    {path ids rest : List BranchId}
    {pos : Nat}
    (left : path.drop pos = ids ++ rest) :
    path.drop (pos + ids.length) = rest := by
  rw [← List.drop_drop, left, List.drop_left]

variable {isOpen : Bool} {path suffix : List BranchId} {pos fuel : Nat}

/-- Only the end of the run follows a frame that is never left. -/
theorem Ends.eq_nil (ends : Ends true suffix) : suffix = [] := by
  rcases ends with isEnd | ⟨impossible, _⟩
  · exact isEnd
  · cases impossible

/-- After the last branch of a frame comes its return or the end of the run. -/
theorem getElem?_of_ends
    (left : path.drop pos = suffix)
    (ends : Ends isOpen suffix) :
    path[pos]? = none ∨ path[pos]? = some kReturnId := by
  rw [← List.head?_drop, left]
  rcases ends with rfl | ⟨_, returns⟩
  · exact Or.inl rfl
  · exact Or.inr returns

/-- The positions of a call on a path, and what is left inside and after it. -/
theorem positions_of_call
    {callee : Frame false}
    {rest : Frame isOpen}
    (left : path.drop pos = (call callee rest).ids ++ suffix) :
    path[pos]? = some kCallId ∧
      path.drop (pos + 1) =
        callee.ids ++ kReturnId :: (rest.ids ++ suffix) ∧
      path[pos + 1 + callee.ids.length]? = some kReturnId ∧
      path.drop (pos + 1 + callee.ids.length + 1) = rest.ids ++ suffix := by
  rw [ids, List.cons_append, List.append_assoc, List.cons_append] at left
  obtain ⟨here, inside⟩ := getElem?_of_drop left
  obtain ⟨returns, after⟩ := getElem?_of_drop (drop_of_drop inside)
  exact ⟨here, inside, returns, after⟩

/-- The position of a call that does not return, and what is left inside it. -/
theorem positions_of_enter
    {callee : Frame isOpen}
    (left : path.drop pos = (enter callee).ids ++ suffix) :
    path[pos]? = some kCallId ∧
      path.drop (pos + 1) = callee.ids ++ suffix ∧
      path.drop (pos + 1 + callee.ids.length) = suffix := by
  rw [ids, List.cons_append] at left
  obtain ⟨here, inside⟩ := getElem?_of_drop left
  exact ⟨here, inside, drop_of_drop inside⟩

/-- `SkipUntilReturn` skips the rest of a frame. -/
theorem skipUntilReturn_frame
    (frame : Frame isOpen)
    (left : path.drop pos = frame.ids ++ suffix)
    (ends : Ends isOpen suffix)
    (enough : frame.ids.length < fuel) :
    skipUntilReturn path fuel pos = some (pos + frame.ids.length) := by
  induction frame generalizing pos fuel suffix with
  | done =>
      obtain ⟨fuel, rfl⟩ := Nat.exists_eq_add_of_lt enough
      rcases getElem?_of_ends left ends with atEnd | here
      · simp only [skipUntilReturn, atEnd]
        rfl
      · simp only [skipUntilReturn, here, ↓reduceIte]
        rfl
  | branch bid rest inductionHypothesis =>
      obtain ⟨here, after⟩ := getElem?_of_drop left
      cases fuel with
      | zero => cases enough
      | succ fuel =>
          have skipped :=
            inductionHypothesis after ends (Nat.lt_of_succ_lt_succ enough)
          simp only [skipUntilReturn, here, bid_ne_kReturnId,
            bid_ne_kCallId, ↓reduceIte, skipped, ids, List.length_cons]
          rw [Nat.add_assoc, Nat.add_comm 1]
  | call callee rest calleeHypothesis restHypothesis =>
      obtain ⟨here, inside, returns, after⟩ := positions_of_call left
      rw [ids, List.length_cons, List.length_append,
        List.length_cons] at enough
      cases fuel with
      | zero => cases enough
      | succ fuel =>
          have calleeSkipped :=
            calleeHypothesis inside (Or.inr ⟨rfl, rfl⟩)
              (show callee.ids.length < fuel by omega)
          have restSkipped :=
            restHypothesis after ends (show rest.ids.length < fuel by omega)
          simp only [skipUntilReturn, here, kCallId_ne_kReturnId,
            ↓reduceIte, calleeSkipped, Option.bind_eq_bind,
            Option.bind_some, returns, restSkipped]
          rw [ids, List.length_cons, List.length_append, List.length_cons]
          congr 1
          omega
  | enter callee inductionHypothesis =>
      obtain rfl := ends.eq_nil
      obtain ⟨here, inside, after⟩ := positions_of_enter left
      have isEnd := getElem?_of_drop_nil after
      rw [ids, List.length_cons] at enough
      cases fuel with
      | zero => cases enough
      | succ fuel =>
          have skipped :=
            inductionHypothesis inside (Or.inl rfl)
              (Nat.lt_of_succ_lt_succ enough)
          simp only [skipUntilReturn, here, kCallId_ne_kReturnId,
            ↓reduceIte, skipped, Option.bind_eq_bind, Option.bind_some,
            isEnd]
          rw [ids, List.length_cons]
          congr 1
          omega

theorem length_ids_le
    {frame : Frame isOpen}
    (left : path.drop pos = frame.ids ++ suffix) :
    frame.ids.length ≤ path.length := by
  have lengths := congrArg List.length left
  rw [List.length_drop, List.length_append] at lengths
  omega

/--
`CollectNextBranches` finds the first branches of a frame, and stops where
another part of the frame is left.
-/
theorem collectNextBranches_frame
    (frame : Frame isOpen)
    (left : path.drop pos = frame.ids ++ suffix)
    (ends : Ends isOpen suffix)
    (enough : frame.ids.length < fuel)
    (idxs : List Nat) :
    ∃ (stop : Nat) (isOpen' : Bool) (rest : Frame isOpen'),
      collectNextBranches path fuel pos idxs =
          some (stop, idxs ++ frame.next pos) ∧
        path.drop stop = rest.ids ++ suffix ∧
        Ends isOpen' suffix ∧
        stop + rest.ids.length = pos + frame.ids.length := by
  induction frame generalizing pos fuel suffix idxs with
  | done =>
      obtain ⟨fuel, rfl⟩ := Nat.exists_eq_add_of_lt enough
      refine ⟨pos, false, done, ?_, left, ends, rfl⟩
      rw [next, List.append_nil]
      rcases getElem?_of_ends left ends with atEnd | here
      · simp only [collectNextBranches, atEnd]
      · simp only [collectNextBranches, here, kCallId_ne_kReturnId.symm,
          ↓reduceIte]
        rfl
  | branch bid rest _ =>
      obtain ⟨here, after⟩ := getElem?_of_drop left
      cases fuel with
      | zero => cases enough
      | succ fuel =>
          have nonneg : (0 : BranchId) ≤ bid := Int.natCast_nonneg bid
          refine ⟨pos + 1, _, rest, ?_, after, ends, ?_⟩
          · simp only [collectNextBranches, here, bid_ne_kCallId, nonneg,
              ↓reduceIte, next]
          · rw [ids, List.length_cons]
            omega
  | call callee rest calleeHypothesis restHypothesis =>
      obtain ⟨here, inside, returns, after⟩ := positions_of_call left
      rw [ids, List.length_cons, List.length_append,
        List.length_cons] at enough
      cases fuel with
      | zero => cases enough
      | succ fuel =>
          obtain ⟨stop, _, unread, collected, unreadLeft, unreadEnds, same⟩ :=
            calleeHypothesis inside (Or.inr ⟨rfl, rfl⟩)
              (show callee.ids.length < fuel by omega) idxs
          have skipped :=
            skipUntilReturn_frame unread unreadLeft unreadEnds
              (Nat.lt_succ_of_le (length_ids_le unreadLeft))
          obtain ⟨last, isOpen', unread', restCollected, found⟩ :=
            restHypothesis after ends
              (show rest.ids.length < fuel by omega)
              (idxs ++ callee.next (pos + 1))
          refine ⟨last, isOpen', unread', ?_, found.1, found.2.1, ?_⟩
          · simp only [collectNextBranches, here, ↓reduceIte, collected,
              Option.bind_eq_bind, Option.bind_some, skipped, same, returns,
              restCollected, next, List.append_assoc]
          · rw [found.2.2, ids, List.length_cons, List.length_append,
              List.length_cons]
            omega
  | enter callee inductionHypothesis =>
      obtain rfl := ends.eq_nil
      obtain ⟨here, inside, isEnd⟩ := positions_of_enter left
      rw [ids, List.length_cons] at enough
      cases fuel with
      | zero => cases enough
      | succ fuel =>
          obtain ⟨stop, _, unread, collected, unreadLeft, unreadEnds, same⟩ :=
            inductionHypothesis inside (Or.inl rfl)
              (Nat.lt_of_succ_lt_succ enough) idxs
          have skipped :=
            skipUntilReturn_frame unread unreadLeft unreadEnds
              (Nat.lt_succ_of_le (length_ids_le unreadLeft))
          refine ⟨pos + 1 + callee.ids.length, false, done, ?_, isEnd,
            Or.inl rfl, ?_⟩
          · simp only [collectNextBranches, here, ↓reduceIte, collected,
              Option.bind_eq_bind, Option.bind_some, skipped, same,
              getElem?_of_drop_nil isEnd, next]
          · rw [ids, ids, List.length_nil, List.length_cons]
            omega

/-- From the start of a frame `CollectNextBranches` returns its first branches. -/
theorem nextBranches_of_drop
    (frame : Frame isOpen)
    (left : path.drop (pos + 1) = frame.ids ++ suffix)
    (ends : Ends isOpen suffix) :
    nextBranches path pos = some (frame.next (pos + 1)) := by
  obtain ⟨_, _, _, collected, _⟩ :=
    collectNextBranches_frame frame left ends
      (Nat.lt_succ_of_le (length_ids_le left)) []
  rw [nextBranches, collected]
  rfl

/-- `CollectNextBranches` returns what follows an event of a frame. -/
theorem nextBranches_frame
    (frame : Frame isOpen)
    (left : path.drop pos = frame.ids ++ suffix)
    (ends : Ends isOpen suffix)
    {i : Nat}
    (isAfter : pos ≤ i)
    (isBefore : i < pos + frame.ids.length) :
    nextBranches path i = some (frame.followers pos i) := by
  induction frame generalizing pos suffix with
  | done =>
      rw [ids, List.length_nil] at isBefore
      omega
  | branch bid rest inductionHypothesis =>
      obtain ⟨_, after⟩ := getElem?_of_drop left
      rw [ids, List.length_cons] at isBefore
      rw [followers]
      split
      · next isHere =>
          subst isHere
          exact nextBranches_of_drop rest after ends
      · next isLater =>
          exact inductionHypothesis after ends (by omega) (by omega)
  | call callee rest calleeHypothesis restHypothesis =>
      obtain ⟨_, inside, _, after⟩ := positions_of_call left
      rw [ids, List.length_cons, List.length_append,
        List.length_cons] at isBefore
      have calleeEnds : Ends false (kReturnId :: (rest.ids ++ suffix)) :=
        Or.inr ⟨rfl, rfl⟩
      simp only [followers]
      split
      · next isHere =>
          subst isHere
          exact nextBranches_of_drop callee inside calleeEnds
      · split
        · next isInside =>
            exact calleeHypothesis inside calleeEnds (by omega) isInside
        · split
          · next isReturn =>
              subst isReturn
              exact nextBranches_of_drop rest after ends
          · next isLater =>
              exact restHypothesis after ends (by omega) (by omega)
  | enter callee inductionHypothesis =>
      obtain rfl := ends.eq_nil
      obtain ⟨_, inside, _⟩ := positions_of_enter left
      rw [ids, List.length_cons] at isBefore
      rw [followers]
      split
      · next isHere =>
          subst isHere
          exact nextBranches_of_drop callee inside (Or.inl rfl)
      · next isLater =>
          exact inductionHypothesis inside (Or.inl rfl) (by omega) (by omega)

end MarkedPaths

/-- A path spells out a call tree, and its branches are followed rightly. -/
structure SpelledOut (frame : Frame isOpen) (path : List BranchId) : Prop where
  branches : path = frame.ids
  followed :
    ∀ i < path.length,
      CfgDistance.nextBranches path i = some (frame.followers 0 i)

/-- The identifiers of the events in order are all that is needed. -/
theorem spelledOut_iff {frame : Frame isOpen} {path : List BranchId} :
    SpelledOut frame path ↔ path = frame.ids := by
  constructor
  · intro spelledOut
    exact spelledOut.branches
  · rintro rfl
    refine ⟨rfl, ?_⟩
    intro i inBounds
    exact nextBranches_frame frame (List.append_nil _).symm (Or.inl rfl)
      (Nat.zero_le i) (by omega)

end Frame

namespace SymbolicInterpreter

/-- The identifier that an event is meant to leave on the path. -/
def Event.id? : Event → Option BranchId
  | .call _ => some kCallId
  | .returns => some kReturnId
  | .branch bid _ => some bid
  | _ => none

/-- The identifier that an event leaves on the path. -/
def Event.pushed? : Event → Option BranchId
  | .branch bid _ => some bid
  | _ => none

section Runs

variable {si next final : SymbolicInterpreter} {event : Event}

/-- Only branches extend the path. -/
theorem branches_of_step (stepped : si.step event = some next) :
    next.ex.path.branches =
      si.ex.path.branches ++ event.pushed?.toList := by
  cases marks : event.marking with
  | some marking =>
      rw [(records_of_step marks stepped).path]
      cases event <;> first | exact (List.append_nil _).symm | cases marks
  | none =>
      rw [(keepsRecord_of_step marks stepped).2]
      cases event with
      | branch bid predValue =>
          exact SymbolicPath.push_branches _ _ _ _
      | _ => exact (List.append_nil _).symm

/-- A run leaves its branches on the path. -/
theorem branches_of_run
    {events : List Event}
    (ran : PartialRun.run? step si events = some final) :
    final.ex.path.branches =
      si.ex.path.branches ++ events.filterMap Event.pushed? := by
  induction events generalizing si with
  | nil =>
      obtain rfl := Option.some.inj ran
      exact (List.append_nil _).symm
  | cons event rest inductionHypothesis =>
      obtain ⟨next, stepped, restRan⟩ := PartialRun.run?_cons_eq_some.mp ran
      rw [inductionHypothesis restRan, branches_of_step stepped,
        List.append_assoc]
      cases pushed : event.pushed? with
      | none => rw [List.filterMap_cons_none pushed]; rfl
      | some bid => rw [List.filterMap_cons_some pushed]; rfl

/-- An event is a call or a return. -/
def Event.Calls : Event → Prop
  | .call _ => True
  | .returns => True
  | _ => False

instance : DecidablePred Event.Calls := fun event => by
  cases event <;> first | exact isTrue trivial | exact isFalse id

/-- Without calls and returns, all identifiers are pushed. -/
theorem pushed?_eq_id? (plain : ¬event.Calls) : event.pushed? = event.id? := by
  cases event <;> first | rfl | exact absurd trivial plain

/-- A call or return is pushed nowhere. -/
theorem pushed?_of_calls
    (calls : event.Calls) :
    event.pushed? = none ∧ ∃ bid, event.id? = some bid := by
  cases event <;> first | exact ⟨rfl, _, rfl⟩ | cases calls

/-- The pushed identifiers are all of them if there is no call or return. -/
theorem filterMap_pushed?_iff (events : List Event) :
    events.filterMap Event.pushed? = events.filterMap Event.id? ↔
      ∀ event ∈ events, ¬event.Calls := by
  have shorter :
      ∀ events : List Event,
        (events.filterMap Event.pushed?).length ≤
          (events.filterMap Event.id?).length := by
    intro events
    induction events with
    | nil => exact Nat.le_refl 0
    | cons event rest inductionHypothesis =>
        by_cases calls : event.Calls
        · obtain ⟨notPushed, bid, isId⟩ := pushed?_of_calls calls
          rw [List.filterMap_cons_none notPushed,
            List.filterMap_cons_some isId, List.length_cons]
          omega
        · have same := pushed?_eq_id? calls
          rw [List.filterMap_cons, List.filterMap_cons, same]
          cases event.id? with
          | none => exact inductionHypothesis
          | some bid => exact Nat.succ_le_succ inductionHypothesis
  induction events with
  | nil =>
      simp
  | cons event rest inductionHypothesis =>
      rw [List.forall_mem_cons]
      by_cases calls : event.Calls
      · obtain ⟨notPushed, bid, isId⟩ := pushed?_of_calls calls
        rw [List.filterMap_cons_none notPushed,
          List.filterMap_cons_some isId]
        constructor
        · intro same
          have lengths := congrArg List.length same
          rw [List.length_cons] at lengths
          have atMost := shorter rest
          omega
        · intro plain
          exact absurd calls plain.1
      · have same := pushed?_eq_id? calls
        rw [List.filterMap_cons, List.filterMap_cons, same,
          and_iff_right calls]
        refine Iff.trans ?_ inductionHypothesis
        cases event.id? with
        | none => exact Iff.rfl
        | some bid =>
            constructor
            · intro equal
              exact List.tail_eq_of_cons_eq equal
            · intro equal
              rw [equal]

/--
The recorded path of a run spells out its call tree, and is followed rightly
at every position, exactly if the run has no call and no return.
-/
theorem spelledOut_run_iff
    (input : List Value)
    (execTimes : Nat)
    (rank targetRank worldSize : Int)
    (events : List Event)
    (final : SymbolicInterpreter)
    (isOpen : Bool)
    (frame : Frame isOpen)
    (ran :
      PartialRun.run? step
          (fresh input execTimes rank targetRank worldSize) events =
        some final)
    (tree : events.filterMap Event.id? = frame.ids) :
    Frame.SpelledOut frame final.ex.path.branches ↔
      ∀ event ∈ events, ¬event.Calls := by
  have start :
      (fresh input execTimes rank targetRank worldSize).ex.path.branches =
        [] :=
    rfl
  rw [Frame.spelledOut_iff, branches_of_run ran, start, List.nil_append,
    ← tree]
  exact filterMap_pushed?_iff events

/-- Two branches without a call. -/
theorem spelledOut_run_branches :
    Frame.SpelledOut (.branch 3 (.branch 5 .done)) [3, 5] :=
  (spelledOut_run_iff [] 1 0 0 2 [.branch 3 true, .branch 5 true]
    (((fresh [] 1 0 0 2).branch 3 true).branch 5 true) false
    (.branch 3 (.branch 5 .done)) rfl rfl).mpr (by decide)

/-- A branch inside a call and one after it leave no trace of the call. -/
theorem not_spelledOut_run_call :
    [Event.call 1, .branch 3 true, .returns, .branch 5 true].filterMap
        Event.id? =
      (Frame.call (.branch 3 .done) (.branch 5 .done)).ids ∧
    ∃ final,
      PartialRun.run? step (fresh [] 1 0 0 2)
          [.call 1, .branch 3 true, .returns, .branch 5 true] =
        some final ∧
      ¬Frame.SpelledOut (.call (.branch 3 .done) (.branch 5 .done))
        final.ex.path.branches := by
  refine ⟨rfl, _, rfl, ?_⟩
  intro spelledOut
  have markers := spelledOut.branches
  revert markers
  decide

end Runs

end SymbolicInterpreter

end Compi
