import Compi.LaunchIndices
import Compi.SearchProgress

/-!
# Rules of the heuristic search

The heuristic search computes the distances only after a new branch is found.
As long as the counter by which it notices new branches does not wrap, a step
that finds none leaves the coverage and the distances as they are, and every
iteration of the solve loop starts with the distances in step.
-/

namespace Compi

namespace GuardedCfgSearch

open SearchRun StoppableRun BranchTables CfgDistance Coverage ObservedSearch
  ObservedCfgSearch SearchProgress

/-- A branch whose distance is zero is not covered. -/
def Fresh (seen : Snapshot) (bid : BranchId) : Prop :=
  lookup? seen.dist bid = some 0 → bid ∉ seen.covered

/--
The distance of the branch at a position is not an outdated zero, nor is the
one of its paired branch if its constraint is retained.
-/
structure FreshAt
    (tables : BranchTables)
    (seen : Snapshot)
    (ex : SymbolicExecution)
    (j : Nat) : Prop where
  own : ∀ bid, ex.path.branches[j]? = some bid → Fresh seen bid
  paired :
    j ∈ ex.path.constraintsIdx →
    ∀ bid paired,
      ex.path.branches[j]? = some bid →
      lookup? tables.pairedBranch bid = some paired →
      Fresh seen paired

/--
What is assumed of a run: updates fit and, for results about the bound of
`SolveAlongCfg`, lucky visits at bound zero meet no outdated zero.
-/
def Assumed
    (env : Environment)
    (bounded : Prop) : Observation → Prop
  | .update world ex => Fits env world ex
  | .visit lucky maxDist world ex j =>
      bounded →
      lucky = true →
      maxDist = 0 →
      FreshAt env.tables (snapshot (progress world)) ex j
  | _ => True

/-- What then holds of a run. -/
def Guaranteed
    (env : Environment)
    (bounded : Prop) : Observation → Prop
  | .iteration world => InSync env.tables (snapshot (progress world))
  | .nonzero dist => dist ≠ 0
  | .recursion start depth maxDist =>
      bounded → 0 < maxDist ∧ depth + maxDist = start
  | _ => True

/-- Only of updates and visits is something assumed. -/
theorem assumed_of
    {env : Environment}
    {bounded : Prop}
    {noted : List Observation}
    (fits :
      ∀ before ex, .update before ex ∈ noted → Fits env before ex)
    (visits :
      ∀ lucky maxDist before ex j,
        .visit lucky maxDist before ex j ∈ noted →
        Assumed env bounded (.visit lucky maxDist before ex j)) :
    ∀ observation ∈ noted, Assumed env bounded observation := by
  intro observation member
  cases observation with
  | update before ex =>
      exact fits before ex member
  | visit lucky maxDist before ex j =>
      exact visits lucky maxDist before ex j member
  | _ =>
      trivial

/-- The progress is consistent and has a snapshot. -/
def At (env : Environment) (seen : Snapshot) (reached : Progress) : Prop :=
  Consistent env reached ∧ snapshot reached = seen

/-- What a call of `SolveAlongCfg` needs of the snapshot and its arguments. -/
structure Searching
    (env : Environment)
    (bounded : Prop)
    (seen : Snapshot)
    (lucky : Bool)
    (start depth maxDist : Nat)
    (ex : SymbolicExecution) : Prop where
  covered : positives ex.path.branches ⊆ seen.covered
  synced : lucky = false → InSync env.tables seen
  bound : bounded → depth + maxDist = start ∧ start < 2 ^ 32

/-- A search that fails leaves the snapshot. -/
def Searched
    (env : Environment)
    (seen : Snapshot)
    (result : Bool)
    (reached : Progress) : Prop :=
  Consistent env reached ∧ (result = false → snapshot reached = seen)

/-- A rule about the progress of the search. -/
abbrev Guards
    {Result : Type}
    (env : Environment)
    (bounded : Prop)
    (pre : Progress → Prop)
    (program : Observed Observation Result)
    (post : Result → Progress → Prop) : Prop :=
  Guarded progress (Assumed env bounded) (Guaranteed env bounded) pre program
    post

section Rules

variable
  {env : Environment}
  {bounded : Prop}
  {seen : Snapshot}
  {lucky : Bool}
  {start depth maxDist : Nat}
  {ex : SymbolicExecution}

/-- In step, every branch is fresh. -/
theorem Fresh.of_inSync
    (inSync : InSync env.tables seen)
    {bid : BranchId}
    (listed : bid ∈ env.tables.branches) :
    Fresh seen bid :=
  (inSync bid listed).mp

/-- A branch of a path that has a table entry is one of the program. -/
theorem listed_of_lookup?
    {Entry : Type}
    {table : List Entry}
    {entry : Entry}
    {bid : BranchId}
    (drawn : Drawn env.tables ex.path.branches)
    (member : bid ∈ ex.path.branches)
    (found : lookup? table bid = some entry) :
    bid ∈ env.tables.branches := by
  rcases drawn bid member with listed | isMarker
  · exact listed
  · exact absurd (inRange_of_lookup? found).1 (Int.not_le_of_gt isMarker)

theorem mem_positives
    (wellFormed : WellFormed env)
    {bid : BranchId}
    (member : bid ∈ ex.path.branches)
    (listed : bid ∈ env.tables.branches) :
    bid ∈ positives ex.path.branches := by
  rw [positives, List.mem_toFinset, List.mem_filter]
  exact ⟨member, decide_eq_true (wellFormed.positive bid listed)⟩

/-- In step, every position is fresh. -/
theorem FreshAt.of_inSync
    (wellFormed : WellFormed env)
    (drawn : Drawn env.tables ex.path.branches)
    (inSync : InSync env.tables seen)
    (j : Nat) :
    FreshAt env.tables seen ex j where
  own := by
    intro bid isBranch isZero
    have member := List.mem_of_getElem? isBranch
    exact Fresh.of_inSync inSync (listed_of_lookup? drawn member isZero)
      isZero
  paired := by
    intro _ bid paired isBranch isPaired
    have member := List.mem_of_getElem? isBranch
    have listed := listed_of_lookup? drawn member isPaired
    exact Fresh.of_inSync inSync
      (wellFormed.paired bid listed paired isPaired)

/-- A call of `UpdateCoverage` that fits. -/
theorem guards_updateCoverage
    (wellFormed : WellFormed env)
    (drawn : Drawn env.tables ex.path.branches)
    (seen : Snapshot) :
    Guards env bounded (At env seen) (updateCoverage env ex)
      fun result reached =>
        Consistent env reached ∧ Noticed seen ex result (snapshot reached) := by
  refine Guarded.ofState ?_
  refine Guarded.noteThen
    (fun world => At env seen (progress world) ∧ Fits env world ex)
    (fun _ reached fits => ⟨trivial, reached, fits⟩) ?_
  exact Guarded.lift (rule_updateCoverage wellFormed drawn seen)

theorem guards_succeed
    (drawn : Drawn env.tables ex.path.branches) :
    Guards env bounded (Consistent env)
      (lift (SearchStrategies.succeed ex))
      fun _ => Consistent env :=
  Guarded.lift (rule_succeed drawn)

/-- One less than a positive `unsigned` value. -/
theorem predUnsigned_of_pos
    (positive : 0 < maxDist)
    (isUnsigned : maxDist < 2 ^ 32) :
    SearchStrategies.predUnsigned maxDist = maxDist - 1 := by
  unfold SearchStrategies.predUnsigned
  omega

/-- A recursive call at a positive bound is one level deeper. -/
theorem guards_recur
    {recurse :
      Nat → Nat → Nat → SymbolicExecution → Observed Observation Bool}
    (recursion :
      ∀ depth i maxDist ex,
        Drawn env.tables ex.path.branches →
        Guards env bounded
          (fun reached =>
            At env seen reached ∧
              Searching env bounded seen lucky start depth maxDist ex)
          (recurse depth i maxDist ex) (Searched env seen))
    (drawn : Drawn env.tables ex.path.branches)
    (j : Nat) :
    Guards env bounded
      (fun reached =>
        (At env seen reached ∧
          Searching env bounded seen lucky start depth maxDist ex) ∧
          (bounded → 0 < maxDist))
      (recur recurse start depth maxDist j ex) (Searched env seen) := by
  refine Guarded.noteThen
    (fun reached =>
      At env seen reached ∧
        Searching env bounded seen lucky start (depth + 1)
          (SearchStrategies.predUnsigned maxDist) ex)
    ?_ (recursion _ j _ ex drawn)
  rintro world ⟨⟨reached, searching⟩, positive⟩ _
  refine ⟨fun isBounded => ⟨positive isBounded,
    (searching.bound isBounded).1⟩, reached, ?_⟩
  refine ⟨searching.covered, searching.synced, ?_⟩
  intro isBounded
  obtain ⟨total, isUnsigned⟩ := searching.bound isBounded
  have isPositive := positive isBounded
  rw [predUnsigned_of_pos isPositive (by omega)]
  exact ⟨by omega, isUnsigned⟩

/-- What `nearEnough` has found at a position, in a snapshot. -/
def FoundNear
    (env : Environment)
    (seen : Snapshot)
    (ex : SymbolicExecution)
    (maxDist j : Nat)
    (near : Bool × Bool) : Prop :=
  ∃ bid paired own other,
    Near env.tables seen.dist ex.path.branches j bid paired own other ∧
      near = (decide (own ≤ maxDist), decide (other ≤ maxDist))

theorem guards_nearEnough
    (known : Prop)
    (j : Nat) :
    Guards env bounded
      (fun reached => At env seen reached ∧ known)
      (lift
        (SearchStrategies.nearEnough env ex.path.branches maxDist j))
      fun near reached =>
        At env seen reached ∧ known ∧
          FoundNear env seen ex maxDist j near := by
  have read :
      Guards env bounded (fun reached => At env seen reached ∧ known)
        (lift
          (SearchStrategies.nearEnough env ex.path.branches maxDist j))
        fun near reached =>
          (At env seen reached ∧ known) ∧
            ∃ bid paired own other,
              Near env.tables reached.dist ex.path.branches j bid paired own
                  other ∧
                near = (decide (own ≤ maxDist), decide (other ≤ maxDist)) :=
    Guarded.lift
      (rule_nearEnough (fun reached => At env seen reached ∧ known)
        ex.path.branches maxDist j)
  refine Guarded.weaken read (fun _ holds => holds) ?_
  rintro near reached ⟨⟨⟨consistent, rfl⟩, isKnown⟩, found⟩
  exact ⟨⟨consistent, rfl⟩, isKnown, found⟩

/-- A fresh covered branch that is near enough needs a positive bound. -/
theorem pos_of_near
    {bid : BranchId}
    {distance : Nat}
    (fresh : maxDist = 0 → Fresh seen bid)
    (isCovered : bid ∈ seen.covered)
    (found : lookup? seen.dist bid = some distance)
    (near : distance ≤ maxDist) :
    0 < maxDist := by
  rcases Nat.eq_zero_or_pos maxDist with isZero | positive
  · rw [isZero, Nat.le_zero] at near
    rw [near] at found
    exact absurd isCovered (fresh isZero found)
  · exact positive

/-- The branch at a visited position. -/
theorem pos_of_own
    (wellFormed : WellFormed env)
    (drawn : Drawn env.tables ex.path.branches)
    (searching : Searching env bounded seen lucky start depth maxDist ex)
    {j : Nat}
    (fresh : maxDist = 0 → FreshAt env.tables seen ex j)
    {paired : Bool}
    (found : FoundNear env seen ex maxDist j (true, paired)) :
    0 < maxDist := by
  obtain ⟨bid, _, own, _, near, isNear⟩ := found
  have isOwn := (Prod.mk.inj isNear).1
  have member := List.mem_of_getElem? near.branch
  have listed := listed_of_lookup? drawn member near.own
  refine pos_of_near (fun isZero => (fresh isZero).own bid near.branch)
    (searching.covered (mem_positives wellFormed member listed)) near.own ?_
  exact of_decide_eq_true isOwn.symm

/-- A right prediction puts the paired branch into the new path. -/
theorem exists_of_checkPrediction
    {tables : BranchTables}
    {newEx : SymbolicExecution}
    {j : Nat}
    (confirmed : tables.checkPrediction ex newEx j = some true) :
    ∃ bid paired,
      ex.path.branches[j]? = some bid ∧
        newEx.path.branches[j]? = some paired ∧
          lookup? tables.pairedBranch bid = some paired := by
  unfold BranchTables.checkPrediction at confirmed
  split at confirmed
  · next bid newBid isBranch isNew =>
      split at confirmed
      · obtain ⟨paired, isPaired, same⟩ :=
          Option.map_eq_some_iff.mp confirmed
        obtain rfl := of_decide_eq_true same
        exact ⟨bid, newBid, isBranch, isNew, isPaired⟩
      · cases confirmed
  · cases confirmed

/-- The paired branch at a visited position, after a confirmed flip. -/
theorem pos_of_paired
    (wellFormed : WellFormed env)
    (drawn : Drawn env.tables ex.path.branches)
    {newEx : SymbolicExecution}
    (newCovered : positives newEx.path.branches ⊆ seen.covered)
    {j : Nat}
    (isRetained : j ∈ ex.path.constraintsIdx)
    (fresh : maxDist = 0 → FreshAt env.tables seen ex j)
    {own : Bool}
    (found : FoundNear env seen ex maxDist j (own, true))
    (confirmed : env.tables.checkPrediction ex newEx j = some true) :
    0 < maxDist := by
  obtain ⟨bid, paired, _, other, near, isNear⟩ := found
  have isOther := (Prod.mk.inj isNear).2
  obtain ⟨branch, newBranch, isBranch, isNew, isPaired⟩ :=
    exists_of_checkPrediction confirmed
  obtain rfl := Option.some.inj (near.branch.symm.trans isBranch)
  obtain rfl := Option.some.inj (near.pair.symm.trans isPaired)
  have listed :=
    listed_of_lookup? drawn (List.mem_of_getElem? isBranch) isPaired
  have isListed := wellFormed.paired bid listed paired isPaired
  refine pos_of_near
    (fun isZero =>
      (fresh isZero).paired isRetained bid paired isBranch isPaired)
    (newCovered
      (mem_positives wellFormed (List.mem_of_getElem? isNew) isListed))
    near.other ?_
  exact of_decide_eq_true isOther.symm

theorem guards_both
    {pre : Progress → Prop}
    {first : Bool}
    {second : Observed Observation Bool}
    {post : Bool → Progress → Prop}
    (skipped : ∀ reached, first = false → pre reached → post false reached)
    (rule : first = true → Guards env bounded pre second post) :
    Guards env bounded pre (both first second) post := by
  cases first with
  | false =>
      exact Guarded.pure fun reached holds => skipped reached rfl holds
  | true =>
      exact rule rfl

/-- What the loop does at a position after it has tried its own branch. -/
theorem guards_afterOwn
    (wellFormed : WellFormed env)
    {recurse :
      Nat → Nat → Nat → SymbolicExecution → Observed Observation Bool}
    (recursion :
      ∀ depth i maxDist ex,
        Drawn env.tables ex.path.branches →
        Guards env bounded
          (fun reached =>
            At env seen reached ∧
              Searching env bounded seen lucky start depth maxDist ex)
          (recurse depth i maxDist ex) (Searched env seen))
    (drawn : Drawn env.tables ex.path.branches)
    {rest : SymbolicExecution → Observed Observation Bool}
    (goesOn :
      ∀ curEx,
        Guards env bounded
          (fun reached =>
            At env seen reached ∧
              Searching env bounded seen lucky start depth maxDist ex)
          (rest curEx) (Searched env seen))
    (j : Nat)
    (paired : Bool)
    (curEx : SymbolicExecution) :
    Guards env bounded
      (fun reached =>
        At env seen reached ∧
          (Searching env bounded seen lucky start depth maxDist ex ∧
            (bounded → maxDist = 0 → FreshAt env.tables seen ex j)) ∧
          ∃ own, FoundNear env seen ex maxDist j (own, paired))
      (if ex.path.constraintsIdx[
            (ex.path.constraintsIdx.takeWhile (· < j)).length]? = some j ∧
          paired then do
        match ← lift (solveAtBranch env ex
            (ex.path.constraintsIdx.takeWhile (· < j)).length) with
        | none => rest curEx
        | some input =>
            let curEx ← lift (runProgram env input curEx)
            let (found, _) ← updateCoverage env curEx
            if found then
              lift (SearchStrategies.succeed curEx)
              return true
            else if ← lift (SearchRun.checkPrediction env ex curEx j) then
              if ← recur recurse start depth maxDist j curEx then
                return true
              else
                rest curEx
            else
              rest curEx
      else
        rest curEx)
      (Searched env seen) := by
  split
  · next isFlipped =>
      obtain ⟨position, isPaired⟩ := isFlipped
      subst isPaired
      refine Guarded.bind
        (Guarded.liftKeeps (steady_solveAtBranch ex _)) fun solved => ?_
      cases solved with
      | none =>
          exact (goesOn curEx).strengthen fun _ holds => ⟨holds.1, holds.2.1.1⟩
      | some input =>
          refine Guarded.bindKnowing
            (SearchProgress.rule_runProgram wellFormed input curEx)
            (steady_runProgram input curEx) fun newEx newDrawn => ?_
          refine Guarded.bind
            (Guarded.frame _
              (guards_updateCoverage wellFormed newDrawn seen)) ?_
          rintro ⟨found, newBranches⟩
          cases found with
          | true =>
              refine Guarded.bind
                (Guarded.strengthen (guards_succeed newDrawn)
                  fun _ holds => holds.1.1) fun _ => ?_
              refine Guarded.pure fun _ consistent => ⟨consistent, ?_⟩
              intro impossible
              cases impossible
          | false =>
              refine Guarded.bindKnowing (rule_require _)
                (steady_require _) fun predicted isPrediction => ?_
              cases predicted with
              | false =>
                  refine (goesOn newEx).strengthen fun _ holds => ?_
                  exact ⟨⟨holds.1.1, holds.1.2.same rfl⟩, holds.2.1.1⟩
              | true =>
                  refine Guarded.bind
                    (Guarded.strengthen
                      (Guarded.frame
                        (Searching env bounded seen lucky start depth
                          maxDist ex)
                        (guards_recur recursion newDrawn j)) ?_) ?_
                  · rintro reached ⟨⟨consistent, noticed⟩,
                      ⟨searching, fresh⟩, own, found⟩
                    have newCovered :
                        positives newEx.path.branches ⊆ seen.covered := by
                      rw [← noticed.same rfl]
                      exact noticed.covers
                    refine ⟨⟨⟨⟨consistent, noticed.same rfl⟩, newCovered, searching.synced, searching.bound⟩, ?_⟩,
                      searching⟩
                    intro isBounded
                    exact pos_of_paired wellFormed drawn newCovered
                      (List.mem_of_getElem? position) (fresh isBounded) found
                      isPrediction
                  · intro further
                    cases further with
                    | true =>
                        exact Guarded.pure fun _ holds => holds.1
                    | false =>
                        refine (goesOn newEx).strengthen fun _ holds => ?_
                        exact ⟨⟨holds.1.1, holds.1.2 rfl⟩, holds.2⟩
  · exact (goesOn curEx).strengthen fun _ holds => ⟨holds.1, holds.2.1.1⟩

/-- The loop over the positions that follow a branch. -/
theorem guards_solveEachAlongCfg
    (wellFormed : WellFormed env)
    {recurse :
      Nat → Nat → Nat → SymbolicExecution → Observed Observation Bool}
    (recursion :
      ∀ depth i maxDist ex,
        Drawn env.tables ex.path.branches →
        Guards env bounded
          (fun reached =>
            At env seen reached ∧
              Searching env bounded seen lucky start depth maxDist ex)
          (recurse depth i maxDist ex) (Searched env seen))
    (drawn : Drawn env.tables ex.path.branches)
    (idxs : List Nat)
    (curEx : SymbolicExecution) :
    Guards env bounded
      (fun reached =>
        At env seen reached ∧
          Searching env bounded seen lucky start depth maxDist ex)
      (solveEachAlongCfg env recurse lucky start depth maxDist ex idxs curEx)
      (Searched env seen) := by
  induction idxs generalizing curEx with
  | nil =>
      exact Guarded.pure fun _ holds => ⟨holds.1.1, fun _ => holds.1.2⟩
  | cons j rest inductionHypothesis =>
      refine Guarded.noteThen
        (fun reached =>
          At env seen reached ∧
            Searching env bounded seen lucky start depth maxDist ex ∧
              (bounded → maxDist = 0 → FreshAt env.tables seen ex j))
        ?_ ?_
      · rintro world ⟨reached, searching⟩ assumed
        refine ⟨trivial, reached, searching, ?_⟩
        intro isBounded isZero
        cases lucky with
        | false =>
            exact FreshAt.of_inSync wellFormed drawn (searching.synced rfl) j
        | true =>
            rw [← reached.2]
            exact assumed isBounded rfl isZero
      refine Guarded.bind (guards_nearEnough _ j) ?_
      rintro ⟨own, paired⟩
      refine Guarded.bind
        (guards_both
          (fun _ _ holds => ⟨⟨holds.1.1, fun _ => holds.1.2⟩, holds.2⟩)
          fun isOwn =>
            Guarded.strengthen
              (Guarded.frame _ (guards_recur recursion drawn j)) ?_) ?_
      · rintro reached ⟨isAt, ⟨searching, fresh⟩, found⟩
        refine ⟨⟨⟨isAt, searching⟩, fun isBounded => ?_⟩,
          ⟨searching, fresh⟩, found⟩
        subst isOwn
        exact pos_of_own wellFormed drawn searching (fresh isBounded) found
      intro along
      dsimp only
      cases along with
      | true =>
          exact Guarded.pure fun _ holds => holds.1
      | false =>
          refine Guarded.strengthen
            (guards_afterOwn wellFormed recursion drawn
              inductionHypothesis j paired curEx) ?_
          rintro reached ⟨⟨consistent, same⟩, ⟨searching, fresh⟩, found⟩
          exact ⟨⟨consistent, same rfl⟩, ⟨searching, fresh⟩, own, found⟩

/-- A call of `SolveAlongCfg`, at any depth of the recursion. -/
theorem guards_solveAlongCfg
    (wellFormed : WellFormed env)
    (fuel depth i maxDist : Nat)
    {ex : SymbolicExecution}
    (drawn : Drawn env.tables ex.path.branches) :
    Guards env bounded
      (fun reached =>
        At env seen reached ∧
          Searching env bounded seen lucky start depth maxDist ex)
      (solveAlongCfg env lucky start fuel depth i maxDist ex)
      (Searched env seen) := by
  induction fuel generalizing depth i maxDist ex with
  | zero =>
      exact Guarded.throw
  | succ fuel inductionHypothesis =>
      refine Guarded.bind (Guarded.liftKeeps (steady_require _)) fun idxs => ?_
      refine Guarded.bind
        (Guarded.liftKeeps (Keeps.mapM (steady_nearEnough _ _) _))
        fun near => ?_
      split
      · refine Guarded.bind (Guarded.liftKeeps (steady_randomShuffle _))
          fun idxs => ?_
        exact guards_solveEachAlongCfg wellFormed
          (fun depth i maxDist ex drawn =>
            inductionHypothesis depth i maxDist drawn)
          drawn idxs _
      · exact Guarded.pure fun _ holds => ⟨holds.1.1, fun _ => holds.1.2⟩

/-- A new branch at a position is found along the graph at once. -/
theorem findAlongCfg_of_mem
    {path : List BranchId}
    {newBranches : OrderedSet BranchId}
    {i : Nat}
    {bid : BranchId}
    (isBranch : path[i]? = some bid)
    (isNew : bid ∈ newBranches)
    (dist : Nat) :
    findAlongCfg path newBranches dist i = some true := by
  cases dist with
  | zero =>
      simp [findAlongCfg, isBranch, isNew]
  | succ dist =>
      simp [findAlongCfg, isBranch, isNew]

/-- The assertions after a new branch is found. -/
theorem guards_foundAlongCfg
    {pre : Progress → Prop}
    {newBranches : OrderedSet BranchId}
    {b_idx dist : Nat}
    (nonzero :
      ∀ reached,
        pre reached →
        findAlongCfg ex.path.branches newBranches dist b_idx = some false →
        dist ≠ 0) :
    Guards env bounded pre (foundAlongCfg ex newBranches b_idx dist)
      fun _ => pre := by
  refine Guarded.bind (Guarded.liftKeeps (steady_require _)) fun minDist => ?_
  refine Guarded.bindKnowing (rule_require _) (steady_require _)
    fun found isFound => ?_
  cases found with
  | true =>
      refine Guarded.bind (Guarded.liftKeeps (steady_assert _)) fun _ => ?_
      exact Guarded.pure fun _ holds => holds
  | false =>
      refine Guarded.bind (Guarded.liftKeeps (steady_assert _)) fun _ => ?_
      refine Guarded.noteThen pre ?_ ?_
      · intro world holds _
        exact ⟨nonzero _ holds isFound, holds⟩
      · refine Guarded.bind (Guarded.liftKeeps (steady_assert _)) fun _ => ?_
        exact Guarded.pure fun _ holds => holds

/-- The distance of a branch in a snapshot. -/
theorem guards_distanceOf
    (known : Prop)
    (bid : BranchId) :
    Guards env bounded (fun reached => At env seen reached ∧ known)
      (lift (SearchStrategies.distanceOf bid))
      fun distance reached =>
        At env seen reached ∧ known ∧
          lookup? seen.dist bid = some distance := by
  have read :
      Guards env bounded (fun reached => At env seen reached ∧ known)
        (lift (SearchStrategies.distanceOf bid))
        fun distance reached =>
          (At env seen reached ∧ known) ∧
            lookup? reached.dist bid = some distance :=
    Guarded.lift
      (rule_distanceOf (fun reached => At env seen reached ∧ known) bid)
  refine Guarded.weaken read (fun _ holds => holds) ?_
  rintro distance reached ⟨⟨⟨consistent, rfl⟩, isKnown⟩, found⟩
  exact ⟨⟨consistent, rfl⟩, isKnown, found⟩

/-- What happens after a flip whose prediction is right. -/
theorem guards_afterPrediction
    (wellFormed : WellFormed env)
    (fuel : Nat)
    {prevEx curEx : SymbolicExecution}
    (drawn : Drawn env.tables curEx.path.branches)
    {b_idx : Nat}
    (confirmed : env.tables.checkPrediction prevEx curEx b_idx = some true)
    {old bid : BranchId}
    (isOld : prevEx.path.branches[b_idx]? = some old)
    (isPair : lookup? env.tables.pairedBranch old = some bid)
    {found : Bool}
    {newBranches : OrderedSet BranchId}
    (now : Snapshot)
    (isUnsigned : start < 2 ^ 32) :
    Guards env bounded
      (fun reached =>
        At env now reached ∧
          Noticed seen curEx (found, newBranches) now ∧
            InSync env.tables seen)
      (do
        let dist ← lift (SearchStrategies.distanceOf bid)
        let along ← both found (foundAlongCfg curEx newBranches b_idx dist)
        if along then
          lift (SearchStrategies.succeed curEx)
          return true
        else
          let further ← both (decide (dist > 0))
            (solveAlongCfg env found start fuel 0 b_idx start curEx)
          if further then
            return true
          else if found then
            lift (SearchStrategies.succeed curEx)
            return true
          else
            return false)
      (Searched env seen) := by
  obtain ⟨branch, paired, isBranch, isNew, isPaired⟩ :=
    exists_of_checkPrediction confirmed
  obtain rfl := Option.some.inj (isOld.symm.trans isBranch)
  obtain rfl := Option.some.inj (isPair.symm.trans isPaired)
  have succeeded :
      Guards env bounded (Consistent env)
        (do
          lift (SearchStrategies.succeed curEx)
          return true)
        (Searched env seen) := by
    refine Guarded.bind (guards_succeed drawn) fun _ => ?_
    refine Guarded.pure fun _ consistent => ⟨consistent, ?_⟩
    intro impossible
    cases impossible
  refine Guarded.bind (guards_distanceOf _ bid) fun dist => ?_
  have nonzero :
      ∀ reached,
        At env now reached ∧
            (Noticed seen curEx (found, newBranches) now ∧
              InSync env.tables seen) ∧
              lookup? now.dist bid = some dist →
        findAlongCfg curEx.path.branches newBranches dist b_idx =
          some false →
        dist ≠ 0 := by
    rintro reached ⟨_, ⟨noticed, inSync⟩, isDist⟩ notFound rfl
    have member := List.mem_of_getElem? isNew
    have listed := listed_of_lookup? drawn member isDist
    rw [noticed.dist] at isDist
    have isFound :=
      noticed.newBranches bid (mem_positives wellFormed member listed)
        ((inSync bid listed).mp isDist)
    rw [findAlongCfg_of_mem isNew isFound] at notFound
    cases notFound
  refine Guarded.bind
    (guards_both (fun _ _ holds => holds)
      fun _ => guards_foundAlongCfg nonzero) fun along => ?_
  split
  · exact succeeded.strengthen fun _ holds => holds.1.1
  · refine Guarded.bind
      (guards_both
        (fun _ _ holds => ⟨⟨holds.1.1, fun _ => holds.1.2⟩, holds.2.1⟩)
        fun _ => Guarded.strengthen
          (Guarded.frame _
            (guards_solveAlongCfg wellFormed fuel 0 b_idx start drawn)) ?_)
      fun further => ?_
    · rintro reached ⟨reachedNow, ⟨noticed, inSync⟩, _⟩
      refine ⟨⟨reachedNow, noticed.covers, ?_, ?_⟩, noticed, inSync⟩
      · intro notFound
        rw [noticed.same notFound]
        exact inSync
      · intro _
        exact ⟨Nat.zero_add start, isUnsigned⟩
    · cases further with
      | true =>
          refine Guarded.pure fun _ holds => ⟨holds.1.1, ?_⟩
          intro impossible
          cases impossible
      | false =>
          cases found with
          | true =>
              exact succeeded.strengthen fun _ holds => holds.1.1
          | false =>
              refine Guarded.pure fun _ holds => ⟨holds.1.1, fun _ => ?_⟩
              rw [holds.1.2 rfl]
              exact holds.2.1.same rfl

/-- A flip that is not the success that ends the loop leaves the snapshot. -/
theorem guards_afterFlip
    (wellFormed : WellFormed env)
    (fuel : Nat)
    (prevEx : SymbolicExecution)
    {curEx : SymbolicExecution}
    (drawn : Drawn env.tables curEx.path.branches)
    (idx : Nat)
    (score : Int) :
    Guards env bounded
      (fun reached => At env seen reached ∧ InSync env.tables seen)
      (afterFlip env fuel prevEx curEx idx score) (Searched env seen) := by
  refine Guarded.bindKnowing (rule_require _) (steady_require _)
    fun b_idx position => ?_
  refine Guarded.bindKnowing (rule_pairedAt prevEx idx)
    (steady_pairedAt prevEx idx) fun bid isPaired => ?_
  obtain ⟨pos, old, isPos, isOld, isPair⟩ := isPaired
  obtain rfl := Option.some.inj (position.symm.trans isPos)
  refine Guarded.bind
    (Guarded.frame _ (guards_updateCoverage wellFormed drawn seen)) ?_
  rintro ⟨found, newBranches⟩
  refine Guarded.bindKnowing (rule_require _) (steady_require _)
    fun predicted isPrediction => ?_
  dsimp only
  cases predicted with
  | false =>
      cases found with
      | false =>
          exact Guarded.pure fun _ holds =>
            ⟨holds.1.1, fun _ => holds.1.2.same rfl⟩
      | true =>
          refine Guarded.bind
            (Guarded.strengthen (guards_succeed drawn)
              fun _ holds => holds.1.1) fun _ => ?_
          refine Guarded.pure fun _ consistent => ⟨consistent, ?_⟩
          intro impossible
          cases impossible
  | true =>
      rw [if_neg (by simp), if_neg (by simp)]
      have isUnsigned : (toUnsigned 32 (score - 1)).toNat < 2 ^ 32 := by
        unfold toUnsigned
        omega
      apply Guarded.ofView
      intro before
      refine Guarded.strengthen
        (guards_afterPrediction wellFormed fuel drawn isPrediction isOld
          isPair (snapshot before) isUnsigned) ?_
      rintro reached ⟨⟨⟨consistent, noticed⟩, inSync⟩, rfl⟩
      exact ⟨⟨consistent, rfl⟩, noticed, inSync⟩

/-- The solve loop starts every iteration in step. -/
theorem guards_heuristicSolve
    (wellFormed : WellFormed env)
    (seen : Snapshot)
    (fuel : Nat)
    (limit : Int)
    (prevEx : SymbolicExecution)
    (scored : List (Nat × Int))
    (iters : Nat)
    (curEx : SymbolicExecution) :
    Guards env bounded
      (fun reached => At env seen reached ∧ InSync env.tables seen)
      (heuristicSolve env fuel limit prevEx scored iters curEx)
      fun _ => Consistent env := by
  induction scored generalizing iters curEx with
  | nil =>
      exact Guarded.pure fun _ holds => holds.1.1
  | cons entry rest inductionHypothesis =>
      refine Guarded.noteThen
        (fun reached => At env seen reached ∧ InSync env.tables seen) ?_ ?_
      · rintro world ⟨⟨consistent, same⟩, inSync⟩ _
        refine ⟨?_, ⟨consistent, same⟩, inSync⟩
        show InSync env.tables (snapshot (progress world))
        rw [same]
        exact inSync
      · split
        · exact Guarded.pure fun _ holds => holds.1.1
        · refine Guarded.bind
            (Guarded.liftKeeps (steady_solveAtBranch prevEx _))
            fun solved => ?_
          cases solved with
          | none =>
              exact inductionHypothesis iters curEx
          | some input =>
              refine Guarded.bindKnowing
                (SearchProgress.rule_runProgram wellFormed input curEx)
                (steady_runProgram input curEx) fun newEx drawn => ?_
              refine Guarded.bind
                (Guarded.strengthen
                  (Guarded.frame (InSync env.tables seen)
                    (guards_afterFlip wellFormed fuel prevEx drawn _ _))
                  fun _ holds => ⟨holds, holds.2⟩) fun succeeded => ?_
              cases succeeded with
              | true =>
                  exact Guarded.pure fun _ holds => holds.1.1
              | false =>
                  refine (inductionHypothesis (iters - 1) newEx).strengthen ?_
                  intro _ holds
                  exact ⟨⟨holds.1.1, holds.1.2 rfl⟩, holds.2⟩

/-- An execution that reports a branch. -/
def HasBranch (ex : SymbolicExecution) : Prop :=
  ∃ bid ∈ ex.path.branches, 0 ≤ bid

/-- What holds before a search from an execution. -/
structure Ready
    (env : Environment)
    (ex : SymbolicExecution)
    (reached : Progress) : Prop where
  consistent : Consistent env reached
  drawn : Drawn env.tables ex.path.branches
  inSync : HasBranch ex → InSync env.tables (snapshot reached)

theorem guards_heuristicDoSearch
    (wellFormed : WellFormed env)
    (fuel : Nat)
    (prevEx : SymbolicExecution) :
    Guards env bounded (Ready env prevEx)
      (heuristicDoSearch env fuel prevEx)
      fun _ => Consistent env := by
  unfold heuristicDoSearch
  split
  · exact Guarded.pure fun _ ready => ready.consistent
  · next hasConstraints =>
      refine Guarded.bindKnowing
        (rule_scoredBranches _ prevEx hasConstraints)
        (steady_scoredBranches prevEx 0) fun scored hasBranch => ?_
      apply Guarded.ofView
      intro before
      refine Guarded.strengthen
        (guards_heuristicSolve wellFormed (snapshot before) fuel _ prevEx
          scored 30 _) ?_
      rintro reached ⟨ready, rfl⟩
      exact ⟨⟨ready.consistent, rfl⟩, ready.inSync hasBranch⟩

theorem guards_updateDistances (wellFormed : WellFormed env) :
    Guards env bounded (Consistent env)
      (lift (SearchStrategies.updateDistances env))
      fun _ reached =>
        Consistent env reached ∧ InSync env.tables (snapshot reached) :=
  Guarded.lift (rule_updateDistances wellFormed)

/-- Reading the state returns it. -/
theorem guards_get (pre : Progress → Prop) :
    Guards env bounded pre (lift get)
      fun world reached => pre reached ∧ progress world = reached :=
  Guarded.lift fun _ holds => ⟨holds, rfl⟩

/-- The execution that was kept is exchanged with the one searched from. -/
theorem guards_takeSuccess
    (world : World)
    (ex : SymbolicExecution) :
    Guards env bounded
      (fun reached =>
        ((Consistent env reached ∧ InSync env.tables (snapshot reached)) ∧
          Drawn env.tables ex.path.branches) ∧
          progress world = reached)
      (lift (modify fun world =>
        { world with successEx := world.successEx.swap ex }))
      fun _ => Ready env (ex.swap world.successEx) := by
  refine Guarded.lift ?_
  apply Rule.ofStates
  rintro current ⟨⟨⟨consistent, inSync⟩, drawn⟩, same⟩
  refine Rule.modifyLast ?_
  have isKept : Drawn env.tables world.successEx.path.branches := by
    have success := consistent.success
    rw [← same] at success
    exact success
  exact {
    consistent :=
      { accounted := consistent.accounted
        bounded := consistent.bounded
        sized := consistent.sized
        success := drawn }
    drawn := isKept
    inSync := fun _ => inSync }

theorem guards_searchOn
    (wellFormed : WellFormed env)
    (fuel : Nat)
    (ex : SymbolicExecution) :
    Guards env bounded (Ready env ex)
      (searchOn (heuristicDoSearch env fuel)
        (SearchStrategies.updateDistances env) fuel ex)
      fun _ => Consistent env := by
  refine Guarded.bind
    (Guarded.loop (Ready env) (fun _ => Consistent env) ?_ fuel ex) ?_
  · intro ex
    refine Guarded.bind
      (Guarded.strengthen
        (Guarded.frame (Drawn env.tables ex.path.branches)
          (guards_heuristicDoSearch wellFormed fuel ex))
        fun _ ready => ⟨ready, ready.drawn⟩) fun succeeded => ?_
    split
    · refine Guarded.bind
        (Guarded.frame _ (guards_updateDistances wellFormed)) fun _ => ?_
      refine Guarded.bind (guards_get _) fun world => ?_
      refine Guarded.bind (guards_takeSuccess world ex) fun _ => ?_
      exact Guarded.pure fun _ ready => ready
    · exact Guarded.pure fun _ holds => holds.1
  · intro next
    cases next with
    | again ex =>
        exact Guarded.throw
    | done ex =>
        exact Guarded.pure fun _ consistent => consistent

/-- A restart leaves no branch covered. -/
theorem guards_restart :
    Guards env bounded (Consistent env)
      (lift (modify fun world =>
        { world with coverage := world.coverage.restart }))
      fun _ reached =>
        Consistent env reached ∧ (snapshot reached).covered = ∅ := by
  refine Guarded.lift ?_
  apply Rule.ofStates
  intro world consistent
  refine Rule.modifyLast ⟨consistent.restart, ?_⟩
  exact setBits_map_false _

/-- After a restart, an execution with a branch has a new one. -/
theorem not_hasBranch_of_noticed
    (wellFormed : WellFormed env)
    (drawn : Drawn env.tables ex.path.branches)
    {newBranches : OrderedSet BranchId}
    {now : Snapshot}
    (uncovered : seen.covered = ∅)
    (noticed : Noticed seen ex (false, newBranches) now) :
    ¬HasBranch ex := by
  rintro ⟨bid, member, isId⟩
  have listed : bid ∈ env.tables.branches := by
    rcases drawn bid member with listed | isMarker
    · exact listed
    · exact absurd isId (Int.not_le_of_gt isMarker)
  have covered :=
    noticed.covers (mem_positives wellFormed member listed)
  rw [noticed.same rfl, uncovered] at covered
  exact absurd covered (Finset.notMem_empty bid)

theorem guards_cfgHeuristic
    (bounded : Prop)
    (wellFormed : WellFormed env)
    (fuel : Nat) :
    Guards env bounded (Consistent env) (cfgHeuristic env fuel)
      fun _ _ => True := by
  refine Guarded.bind
    (Guarded.loop (fun _ => Consistent env) (fun _ _ => True) ?_ fuel _) ?_
  · intro ex
    refine Guarded.bind ?_ fun ex => Guarded.pure fun _ holds => holds
    refine Guarded.bind (Guarded.liftKeeps steady_clearIndices) fun _ => ?_
    refine Guarded.bind guards_restart fun _ => ?_
    refine Guarded.bindKnowing
      (SearchProgress.rule_runProgram wellFormed [] ex)
      (steady_runProgram [] ex) fun ex drawn => ?_
    apply Guarded.ofView
    intro before
    refine Guarded.bind
      (Guarded.strengthen
        (Guarded.frame ((snapshot before).covered = ∅)
          (guards_updateCoverage wellFormed drawn (snapshot before))) ?_) ?_
    · rintro reached ⟨⟨consistent, uncovered⟩, rfl⟩
      exact ⟨⟨consistent, rfl⟩, uncovered⟩
    · rintro ⟨found, newBranches⟩
      cases found with
      | true =>
          refine Guarded.bind
            (Guarded.strengthen (guards_updateDistances wellFormed)
              fun _ holds => holds.1.1) fun _ => ?_
          refine (guards_searchOn wellFormed fuel ex).strengthen ?_
          exact fun _ holds => ⟨holds.1, drawn, fun _ => holds.2⟩
      | false =>
          refine (guards_searchOn wellFormed fuel ex).strengthen ?_
          rintro reached ⟨⟨consistent, noticed⟩, uncovered⟩
          refine ⟨consistent, drawn, fun hasBranch => ?_⟩
          exact absurd hasBranch
            (not_hasBranch_of_noticed wellFormed drawn uncovered noticed)
  · intro next
    cases next with
    | again locals =>
        exact Guarded.throw
    | done result =>
        exact Guarded.pure fun _ _ => trivial

end Rules

end GuardedCfgSearch

end Compi
