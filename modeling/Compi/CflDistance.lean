import Compi.CallTree

/-!
# Distances in a call tree

Both measures of how closely new branches follow a position of a path agree
with the distances in the call tree of what is left of the frame: a branch
that is passed makes everything after it in its frame one step farther, and
what happens inside a call does not.
-/

namespace Compi

namespace Frame

open CfgDistance

/-- The branches of a frame with their distances, from a first one on. -/
def distances (dist : Nat) : {isOpen : Bool} → Frame isOpen → List (Nat × Nat)
  | _, done => []
  | _, branch bid rest => (bid, dist) :: rest.distances (dist + 1)
  | _, call callee rest => callee.distances dist ++ rest.distances dist
  | _, enter callee => callee.distances dist

/-- Whether a new branch is within a distance. -/
def Within
    (newBranches : OrderedSet BranchId)
    (bound dist : Nat)
    {isOpen : Bool}
    (frame : Frame isOpen) : Prop :=
  ∃ bid far,
    (bid, far) ∈ frame.distances dist ∧
      (bid : BranchId) ∈ newBranches ∧ far ≤ bound

variable
  {newBranches : OrderedSet BranchId}
  {isOpen : Bool}
  {path suffix : List BranchId}
  {pos bound dist : Nat}

/-- Distances are counted from the start of the frame. -/
theorem distances_succ (frame : Frame isOpen) (dist : Nat) :
    frame.distances (dist + 1) =
      (frame.distances dist).map fun (bid, far) => (bid, far + 1) := by
  induction frame generalizing dist with
  | done =>
      rfl
  | branch bid rest inductionHypothesis =>
      rw [distances, distances, List.map_cons, inductionHypothesis]
  | call callee rest calleeHypothesis restHypothesis =>
      rw [distances, distances, List.map_append, calleeHypothesis,
        restHypothesis]
  | enter callee inductionHypothesis =>
      exact inductionHypothesis dist

theorem within_succ_iff (frame : Frame isOpen) :
    frame.Within newBranches (bound + 1) (dist + 1) ↔
      frame.Within newBranches bound dist := by
  unfold Within
  rw [distances_succ]
  constructor
  · rintro ⟨bid, far, member, isNew, isNear⟩
    obtain ⟨⟨sameBid, before⟩, isBefore, same⟩ := List.mem_map.mp member
    cases same
    exact ⟨bid, before, isBefore, isNew, Nat.le_of_succ_le_succ isNear⟩
  · rintro ⟨bid, far, member, isNew, isNear⟩
    exact ⟨bid, far + 1, List.mem_map.mpr ⟨_, member, rfl⟩, isNew,
      Nat.succ_le_succ isNear⟩

/-- Nothing is nearer than the first distance. -/
theorem not_within_zero_succ (frame : Frame isOpen) :
    ¬frame.Within newBranches 0 (dist + 1) := by
  rintro ⟨bid, far, member, _, isNear⟩
  rw [distances_succ] at member
  obtain ⟨_, _, same⟩ := List.mem_map.mp member
  cases same
  exact absurd isNear (Nat.not_succ_le_zero _)

theorem within_call_iff
    {callee : Frame false}
    {rest : Frame isOpen} :
    (call callee rest).Within newBranches bound dist ↔
      callee.Within newBranches bound dist ∨
        rest.Within newBranches bound dist := by
  unfold Within
  rw [distances]
  simp only [List.mem_append, or_and_right, exists_or]

theorem within_branch_iff
    {bid : Nat}
    {rest : Frame isOpen} :
    (branch bid rest).Within newBranches bound dist ↔
      ((bid : BranchId) ∈ newBranches ∧ dist ≤ bound) ∨
        rest.Within newBranches bound (dist + 1) := by
  unfold Within
  rw [distances]
  constructor
  · rintro ⟨found, far, member, isNew, isNear⟩
    rcases List.mem_cons.mp member with same | inRest
    · cases same
      exact Or.inl ⟨isNew, isNear⟩
    · exact Or.inr ⟨found, far, inRest, isNew, isNear⟩
  · rintro (⟨isNew, isNear⟩ | ⟨found, far, inRest, isNew, isNear⟩)
    · exact ⟨bid, dist, List.mem_cons_self, isNew, isNear⟩
    · exact ⟨found, far, List.mem_cons_of_mem _ inRest, isNew, isNear⟩

section Scan

/-- The least of a bound and the distances of the new branches of a frame. -/
def nearest
    (newBranches : OrderedSet BranchId)
    (minDist dist : Nat)
    {isOpen : Bool}
    (frame : Frame isOpen) : Nat :=
  (frame.distances dist).foldl (fun minDist (bid, far) =>
    if (bid : BranchId) ∈ newBranches then min minDist far else minDist)
    minDist

theorem foldl_min_le_iff
    (distances : List (Nat × Nat))
    (minDist : Nat) :
    distances.foldl (fun minDist (bid, far) =>
        if (bid : BranchId) ∈ newBranches then min minDist far
        else minDist) minDist ≤ bound ↔
      minDist ≤ bound ∨
        ∃ bid far,
          (bid, far) ∈ distances ∧
            (bid : BranchId) ∈ newBranches ∧ far ≤ bound := by
  induction distances generalizing minDist with
  | nil =>
      simp
  | cons entry rest inductionHypothesis =>
      obtain ⟨bid, far⟩ := entry
      rw [List.foldl_cons, inductionHypothesis]
      simp only [List.mem_cons, Prod.mk.injEq, or_and_right, exists_or]
      rw [← or_assoc]
      refine or_congr ?_ Iff.rfl
      have isHead :
          (∃ other distance,
              (other = bid ∧ distance = far) ∧
                (other : BranchId) ∈ newBranches ∧ distance ≤ bound) ↔
            (bid : BranchId) ∈ newBranches ∧ far ≤ bound := by
        constructor
        · rintro ⟨_, _, ⟨rfl, rfl⟩, found⟩
          exact found
        · intro found
          exact ⟨bid, far, ⟨rfl, rfl⟩, found⟩
      rw [isHead]
      by_cases isNew : (bid : BranchId) ∈ newBranches
      · rw [if_pos isNew, min_le_iff, and_iff_right isNew]
      · rw [if_neg isNew]
        simp [isNew]

theorem nearest_le_iff (frame : Frame isOpen) (minDist : Nat) :
    frame.nearest newBranches minDist dist ≤ bound ↔
      minDist ≤ bound ∨ frame.Within newBranches bound dist :=
  foldl_min_le_iff _ minDist

/-- Only branches are new. -/
def OnlyBranches (newBranches : OrderedSet BranchId) : Prop :=
  ∀ bid ∈ newBranches, (0 : BranchId) ≤ bid

theorem OnlyBranches.kCallId_notMem
    (onlyBranches : OnlyBranches newBranches) :
    kCallId ∉ newBranches :=
  fun member => absurd (onlyBranches _ member) (by decide)

theorem OnlyBranches.kReturnId_notMem
    (onlyBranches : OnlyBranches newBranches) :
    kReturnId ∉ newBranches :=
  fun member => absurd (onlyBranches _ member) (by decide)

/-- The scan passes a branch. -/
theorem minCflDistanceFrom_branch
    (bid : Nat)
    (rest : List BranchId)
    (stack : List Nat)
    (minDist dist : Nat) :
    minCflDistanceFrom newBranches ((bid : BranchId) :: rest) stack minDist
        dist =
      minCflDistanceFrom newBranches rest stack
        (if (bid : BranchId) ∈ newBranches then min minDist dist
          else minDist) (dist + 1) := by
  have nonneg : (0 : BranchId) ≤ bid := Int.natCast_nonneg bid
  simp only [minCflDistanceFrom, nonneg, ↓reduceIte]

/-- The scan enters a call. -/
theorem minCflDistanceFrom_call
    (onlyBranches : OnlyBranches newBranches)
    (rest : List BranchId)
    (stack : List Nat)
    (minDist dist : Nat) :
    minCflDistanceFrom newBranches (kCallId :: rest) stack minDist dist =
      minCflDistanceFrom newBranches rest (dist :: stack) minDist dist := by
  have negative : ¬(0 : BranchId) ≤ kCallId := by decide
  simp only [minCflDistanceFrom, negative, onlyBranches.kCallId_notMem,
    ↓reduceIte]

/-- The scan takes a return. -/
theorem minCflDistanceFrom_return
    (onlyBranches : OnlyBranches newBranches)
    (rest : List BranchId)
    (stack : List Nat)
    (minDist dist : Nat) :
    minCflDistanceFrom newBranches (kReturnId :: rest) stack minDist dist =
      match stack with
      | [] => some minDist
      | saved :: stack =>
          minCflDistanceFrom newBranches rest stack minDist saved := by
  have negative : ¬(0 : BranchId) ≤ kReturnId := by decide
  cases stack with
  | nil =>
      simp only [minCflDistanceFrom, negative, kCallId_ne_kReturnId.symm,
        onlyBranches.kReturnId_notMem, ↓reduceIte]
  | cons saved stack =>
      simp only [minCflDistanceFrom, negative, kCallId_ne_kReturnId.symm,
        onlyBranches.kReturnId_notMem, ↓reduceIte]

/--
Over a frame the scan finds its nearest new branch.  At the return of a frame
the stack is what it was at its start.
-/
theorem minCflDistanceFrom_frame
    (onlyBranches : OnlyBranches newBranches)
    (frame : Frame isOpen)
    (stack : List Nat)
    (minDist dist : Nat)
    (ends : Ends isOpen suffix) :
    ∃ left last,
      minCflDistanceFrom newBranches (frame.ids ++ suffix) stack minDist
          dist =
        minCflDistanceFrom newBranches suffix left
          (frame.nearest newBranches minDist dist) last ∧
      (isOpen = false → left = stack) := by
  induction frame generalizing suffix stack minDist dist with
  | done =>
      exact ⟨stack, dist, rfl, fun _ => rfl⟩
  | branch bid rest inductionHypothesis =>
      obtain ⟨left, last, scanned, kept⟩ :=
        inductionHypothesis stack _ (dist + 1) ends
      refine ⟨left, last, ?_, kept⟩
      rw [ids, List.cons_append, minCflDistanceFrom_branch, scanned]
      rfl
  | call callee rest calleeHypothesis restHypothesis =>
      obtain ⟨left, last, scanned, kept⟩ :=
        @calleeHypothesis (kReturnId :: (rest.ids ++ suffix)) (dist :: stack)
          minDist dist (Or.inr ⟨rfl, rfl⟩)
      obtain ⟨finalLeft, finalLast, restScanned, restKept⟩ :=
        restHypothesis stack (callee.nearest newBranches minDist dist) dist
          ends
      refine ⟨finalLeft, finalLast, ?_, restKept⟩
      rw [ids, List.cons_append, List.append_assoc, List.cons_append,
        minCflDistanceFrom_call onlyBranches, scanned, kept rfl,
        minCflDistanceFrom_return onlyBranches]
      dsimp only
      rw [restScanned]
      simp only [nearest, distances, List.foldl_append]
  | enter callee inductionHypothesis =>
      obtain rfl := ends.eq_nil
      obtain ⟨left, last, scanned, _⟩ :=
        inductionHypothesis (dist :: stack) minDist dist (Or.inl rfl)
      refine ⟨left, last, ?_, fun impossible => by cases impossible⟩
      rw [ids, List.cons_append, minCflDistanceFrom_call onlyBranches,
        scanned]
      rfl

/-- The scan ends with the frame it starts in. -/
theorem minCflDistanceFrom_eq
    (onlyBranches : OnlyBranches newBranches)
    (frame : Frame isOpen)
    (minDist dist : Nat)
    (ends : Ends isOpen suffix) :
    minCflDistanceFrom newBranches (frame.ids ++ suffix) [] minDist dist =
      some (frame.nearest newBranches minDist dist) := by
  obtain ⟨left, last, scanned, kept⟩ :=
    minCflDistanceFrom_frame onlyBranches frame [] minDist dist ends
  rw [scanned]
  rcases ends with rfl | ⟨isClosed, returns⟩
  · rfl
  · obtain ⟨rest, rfl⟩ := List.head?_eq_some_iff.mp returns
    rw [kept isClosed, minCflDistanceFrom_return onlyBranches]

end Scan

section Search

/-- A search that always answers finds what one of the items answers. -/
theorem anyM_eq_some
    {Item : Type}
    {test : Item → Option Bool}
    (items : List Item)
    (answers : ∀ item ∈ items, ∃ found, test item = some found) :
    ∃ found,
      items.anyM test = some found ∧
        (found = true ↔ ∃ item ∈ items, test item = some true) := by
  induction items with
  | nil =>
      exact ⟨false, rfl, by simp⟩
  | cons item rest inductionHypothesis =>
      obtain ⟨isHere, answer⟩ := answers item List.mem_cons_self
      obtain ⟨isLater, later, meaning⟩ :=
        inductionHypothesis fun item member =>
          answers item (List.mem_cons_of_mem _ member)
      rw [List.anyM_cons, answer]
      cases isHere with
      | true =>
          refine ⟨true, rfl, ?_⟩
          simp [answer]
      | false =>
          refine ⟨isLater, later, ?_⟩
          rw [meaning, List.exists_mem_cons_iff, answer]
          simp

/--
Every first branch of a frame answers the bounded search, and one of them
finds a new branch if one is near.
-/
theorem findAlongCfg_next
    (frame : Frame isOpen)
    (bound : Nat)
    (left : path.drop pos = frame.ids ++ suffix)
    (ends : Ends isOpen suffix) :
    (∀ i ∈ frame.next pos,
        ∃ found, findAlongCfg path newBranches bound i = some found) ∧
      ((∃ i ∈ frame.next pos,
          findAlongCfg path newBranches bound i = some true) ↔
        frame.Within newBranches bound 0) := by
  induction frame generalizing pos suffix bound with
  | done =>
      simp [next, Within, distances]
  | branch bid rest inductionHypothesis =>
      obtain ⟨here, after⟩ := getElem?_of_drop left
      simp only [next, List.mem_singleton, forall_eq, exists_eq_left]
      rw [within_branch_iff]
      cases bound with
      | zero =>
          simp only [findAlongCfg, here]
          simp [not_within_zero_succ rest]
      | succ bound =>
          simp only [findAlongCfg, here]
          by_cases isNew : (bid : BranchId) ∈ newBranches
          · simp [isNew]
          · obtain ⟨answers, near⟩ := inductionHypothesis bound after ends
            obtain ⟨found, searched, meaning⟩ := anyM_eq_some _ answers
            simp only [isNew, ↓reduceIte, false_and, false_or,
              nextBranches_of_drop rest after ends, Option.bind_eq_bind,
              Option.bind_some, searched, Option.some.injEq]
            rw [within_succ_iff, ← near, ← meaning]
            exact ⟨⟨found, rfl⟩, Iff.rfl⟩
  | call callee rest calleeHypothesis restHypothesis =>
      obtain ⟨_, inside, _, after⟩ := positions_of_call left
      obtain ⟨calleeAnswers, calleeNear⟩ :=
        calleeHypothesis bound inside (Or.inr ⟨rfl, rfl⟩)
      obtain ⟨restAnswers, restNear⟩ := restHypothesis bound after ends
      rw [within_call_iff, ← calleeNear, ← restNear]
      simp only [next, List.mem_append, or_and_right, exists_or]
      refine ⟨?_, trivial⟩
      rintro i (inCallee | inRest)
      · exact calleeAnswers i inCallee
      · exact restAnswers i inRest
  | enter callee inductionHypothesis =>
      obtain rfl := ends.eq_nil
      obtain ⟨_, inside, _⟩ := positions_of_enter left
      exact inductionHypothesis bound inside (Or.inl rfl)

end Search

section Agreement

/-- The ids that a path with marked calls can hold. -/
def PathId (bid : BranchId) : Prop :=
  0 ≤ bid ∨ bid = kCallId ∨ bid = kReturnId

/-- Below enough calls all returns are matched. -/
theorem nested_of_length_le
    (ids : List BranchId)
    (depth : Nat)
    (enough : ids.length ≤ depth)
    (pathIds : ∀ bid ∈ ids, PathId bid) :
    Nested depth ids := by
  induction ids generalizing depth with
  | nil =>
      trivial
  | cons bid rest inductionHypothesis =>
      have restIds : ∀ bid ∈ rest, PathId bid :=
        fun bid member => pathIds bid (List.mem_cons_of_mem _ member)
      have shorter : rest.length ≤ depth - 1 := Nat.le_pred_of_lt enough
      unfold Nested
      split
      · exact inductionHypothesis (depth + 1)
          (Nat.le_trans shorter (by omega)) restIds
      · next notCall =>
          split
          · exact ⟨Nat.lt_of_lt_of_le (Nat.succ_pos _) enough,
              inductionHypothesis _ shorter restIds⟩
          · next notReturn =>
              have isBranch : 0 ≤ bid := by
                rcases pathIds bid List.mem_cons_self with
                  nonneg | isCall | isReturn
                · exact nonneg
                · exact absurd isCall notCall
                · exact absurd isReturn notReturn
              exact ⟨isBranch, inductionHypothesis _
                (Nat.le_trans shorter (Nat.sub_le _ _)) restIds⟩

/-- Every part of a path is a frame up to its return or to the end. -/
theorem exists_frame_of_pathIds
    (ids : List BranchId)
    (pathIds : ∀ bid ∈ ids, PathId bid) :
    ∃ (isOpen : Bool) (frame : Frame isOpen) (suffix : List BranchId),
      ids = frame.ids ++ suffix ∧ Ends isOpen suffix := by
  have nested := nested_of_length_le ids ids.length (Nat.le_refl _) pathIds
  rcases exists_frame_or_return ids nested with
    ⟨isOpen, frame, isIds⟩ | ⟨frame, rest, _, isIds, _⟩
  · exact ⟨isOpen, frame, [], by rw [isIds, List.append_nil], Or.inl rfl⟩
  · exact ⟨false, frame, kReturnId :: rest, isIds, Or.inr ⟨rfl, rfl⟩⟩

/-- The bounded search and the scan agree at every position of a path. -/
theorem agrees
    (path : List BranchId)
    (newBranches : OrderedSet BranchId)
    (i bound : Nat)
    (pathIds : ∀ bid ∈ path, PathId bid)
    (onlyBranches : OnlyBranches newBranches)
    (finite : bound < sizeMax) :
    ∃ found minDist,
      findAlongCfg path newBranches bound i = some found ∧
        minCflDistance path newBranches i = some minDist ∧
        (found = true ↔ minDist ≤ bound) := by
  have notNear : ¬sizeMax ≤ bound := Nat.not_le_of_lt finite
  unfold minCflDistance
  cases here : path[i]? with
  | none =>
      refine ⟨false, sizeMax, ?_, rfl, ?_⟩
      · cases bound <;> simp only [findAlongCfg, here]
      · simp [notNear]
  | some bid =>
      dsimp only
      by_cases isNew : bid ∈ newBranches
      · refine ⟨true, 0, ?_, if_pos isNew, ?_⟩
        · cases bound <;> simp [findAlongCfg, here, isNew]
        · simp
      · rw [if_neg isNew]
        have restIds : ∀ bid ∈ path.drop (i + 1), PathId bid :=
          fun bid member => pathIds bid (List.mem_of_mem_drop member)
        obtain ⟨isOpen, frame, suffix, left, ends⟩ :=
          exists_frame_of_pathIds _ restIds
        rw [left, minCflDistanceFrom_eq onlyBranches frame sizeMax 1 ends]
        cases bound with
        | zero =>
            refine ⟨false, _, ?_, rfl, ?_⟩
            · simp [findAlongCfg, here, isNew]
            · rw [nearest_le_iff]
              simp [notNear, not_within_zero_succ frame]
        | succ bound =>
            obtain ⟨answers, near⟩ := findAlongCfg_next frame bound left ends
            obtain ⟨found, searched, meaning⟩ := anyM_eq_some _ answers
            refine ⟨found, _, ?_, rfl, ?_⟩
            · simp only [findAlongCfg, here, isNew, ↓reduceIte,
                nextBranches_of_drop frame left ends, Option.bind_eq_bind,
                Option.bind_some]
              exact searched
            · rw [nearest_le_iff, within_succ_iff, or_iff_right notNear,
                meaning, near]

/--
The two algorithms for distances along the path agree: within an `unsigned`
bound one finds a new branch exactly if the other measures at most the bound.
-/
theorem findAlongCfg_iff
    (path : List BranchId)
    (newBranches : OrderedSet BranchId)
    (i bound : Nat)
    (pathIds : ∀ bid ∈ path, PathId bid)
    (onlyBranches : OnlyBranches newBranches)
    (isUnsigned : bound < 2 ^ 32) :
    ∃ found minDist,
      findAlongCfg path newBranches bound i = some found ∧
        minCflDistance path newBranches i = some minDist ∧
        (found = true ↔ minDist ≤ bound) :=
  agrees path newBranches i bound pathIds onlyBranches
    (Nat.lt_trans isUnsigned (by decide))

/-- A new branch inside an open call is as near as the call. -/
theorem findAlongCfg_openCall :
    let path : List BranchId := [3, kCallId, 5, kReturnId, kCallId, 7]
    let newBranches := (∅ : OrderedSet BranchId).insert 7
    ∃ found minDist,
      findAlongCfg path newBranches 1 0 = some found ∧
        minCflDistance path newBranches 0 = some minDist ∧
        (found = true ↔ minDist ≤ 1) := by
  refine findAlongCfg_iff _ _ 0 1 ?_ ?_ (by decide)
  · unfold PathId
    decide
  · intro bid member
    rw [Std.ExtTreeSet.mem_insert,
      Std.LawfulEqOrd.compare_eq_iff_eq] at member
    rcases member with rfl | impossible
    · decide
    · exact absurd impossible Std.ExtTreeSet.not_mem_empty

end Agreement

end Frame

end Compi
