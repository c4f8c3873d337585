import Compi.LaunchProgram
import Compi.SolveAtBranch

/-!
# The cached MPI information

`SolveAtBranch` takes over the MPI variables of an execution if its tag is not
the one of the execution taken over last.  The restarts of the searches that
follow the control flow clear two of the index lists, but keep the tag.
-/

namespace Compi

namespace MpiCache

/-- What the searches do to the cached MPI information. -/
inductive Event where
  | solveAtBranch
      (solve : YicesSolver.Solve)
      (ex : SymbolicExecution)
      (branchIdx : Nat)
  | restart
  | runProgram (inputs : List Value)

/--
A search, with the execution taken over last and whether there has been a
restart since then.
-/
structure Session where
  search : Search
  takenOver : Option SymbolicExecution
  restarted : Bool

/-- Before the first run. -/
def Session.start
    (program : String)
    (commWorldSize targetRank : Int) : Session where
  search := Search.start program commWorldSize targetRank
  takenOver := none
  restarted := false

/-- Whether a call gets to compare the tags and finds another one. -/
def takesOver
    (search : Search)
    (ex : SymbolicExecution)
    (branchIdx : Nat) : Prop :=
  Search.repeats ex branchIdx = false ∧
    search.executionTag ≠ ex.executionTag

instance (search : Search) (ex : SymbolicExecution) (branchIdx : Nat) :
    Decidable (takesOver search ex branchIdx) :=
  inferInstanceAs (Decidable (_ ∧ _))

/-- One event. -/
def step (session : Session) : Event → Option Session
  | .solveAtBranch solve ex branchIdx =>
      (session.search.solveAtBranch solve ex branchIdx).map fun solved =>
        if takesOver session.search ex branchIdx then
          { search := solved.search, takenOver := some ex, restarted := false }
        else
          { session with search := solved.search }
  | .restart =>
      some
        { session with
          search :=
            { session.search with
              rankIndices := []
              worldSizeIndices := [] }
          restarted := true }
  | .runProgram inputs =>
      let search :=
        { session.search with numIters := session.search.numIters + 1 }
      (search.launchProgram inputs).map fun launched =>
        { session with search := launched.1 }

/-- The executions that a list of events solves at. -/
def executions (events : List Event) : List SymbolicExecution :=
  events.filterMap fun
    | .solveAtBranch _ ex _ => some ex
    | _ => none

/-- The cached information is that of an execution. -/
structure Current (search : Search) (ex : SymbolicExecution) : Prop where
  rankIndices : search.rankIndices = ex.rankIndices
  worldSizeIndices : search.worldSizeIndices = ex.worldSizeIndices
  rankNonDefaultCommIndices :
    search.rankNonDefaultCommIndices = ex.rankNonDefaultCommIndices
  constraintsMPI :
    search.constraintsMPI = YicesSolver.generateConstraintsMPI ex

/-- `LaunchProgram` reads the rank and the size of an input. -/
def ReadsInput
    (search : Search)
    (ex : SymbolicExecution)
    (input : List Value) : Prop :=
  Search.firstInput search.rankIndices input search.targetRank =
      Search.firstInput ex.rankIndices input search.targetRank ∧
    Search.firstInput search.worldSizeIndices input search.commWorldSize =
      Search.firstInput ex.worldSizeIndices input search.commWorldSize

/-- Whether a call of `SolveAtBranch` returns true, and with which input. -/
def Succeeds
    (search : Search)
    (solve : YicesSolver.Solve)
    (ex : SymbolicExecution)
    (branchIdx : Nat)
    (after : Search)
    (input : List Value) : Prop :=
  ∃ solved,
    search.solveAtBranch solve ex branchIdx = some solved ∧
      solved.search = after ∧ solved.input = some input

/-- Whenever `SolveAtBranch` returns true, the cache is up to date. -/
def UpToDate (session : Session) : Event → Prop
  | .solveAtBranch solve ex branchIdx =>
      ∀ after input,
        Succeeds session.search solve ex branchIdx after input →
        Current after ex ∧ ReadsInput after ex input
  | _ => True

/-- An execution without anything that the search caches. -/
structure Unmarked (ex : SymbolicExecution) : Prop where
  rankIndices : ex.rankIndices = []
  worldSizeIndices : ex.worldSizeIndices = []
  rankNonDefaultCommIndices : ex.rankNonDefaultCommIndices = []
  constraintsMPI : YicesSolver.generateConstraintsMPI ex = []

/--
What the cached tag has to vouch for: no restart since the execution was taken
over, unless it marks neither the rank nor the size.
-/
def Vouched (session : Session) (ex : SymbolicExecution) : Prop :=
  match session.takenOver with
  | none => Unmarked ex
  | some _ =>
      session.restarted = false ∨
        ex.rankIndices = [] ∧ ex.worldSizeIndices = []

/-- Whenever `SolveAtBranch` returns true without a new tag, the old is good. -/
def Undisturbed (session : Session) : Event → Prop
  | .solveAtBranch solve ex branchIdx =>
      (∃ after input,
        Succeeds session.search solve ex branchIdx after input) →
      session.search.executionTag = ex.executionTag →
      Vouched session ex
  | _ => True

/-- The execution taken over last, or one without variables before. -/
def Session.owner (session : Session) : SymbolicExecution :=
  session.takenOver.getD SymbolicExecution.empty

/-- The cache holds what was taken over, except for what was cleared. -/
structure Holds
    (known : List SymbolicExecution)
    (session : Session) : Prop where
  known : ∀ ex, session.takenOver = some ex → ex ∈ known
  tag : session.search.executionTag = session.owner.executionTag
  rankNonDefaultCommIndices :
    session.search.rankNonDefaultCommIndices =
      session.owner.rankNonDefaultCommIndices
  constraintsMPI :
    session.search.constraintsMPI =
      YicesSolver.generateConstraintsMPI session.owner
  kept :
    session.restarted = false →
    session.search.rankIndices = session.owner.rankIndices ∧
      session.search.worldSizeIndices = session.owner.worldSizeIndices
  cleared :
    session.restarted = true →
    session.search.rankIndices = [] ∧ session.search.worldSizeIndices = []

/-- Equal tags mean equal executions. -/
def Identified (known : List SymbolicExecution) : Prop :=
  ∀ ex ∈ known, ∀ other ∈ known,
    ex.executionTag = other.executionTag → ex = other

/-- An event solves at known executions only. -/
def SolvesAt (known : List SymbolicExecution) (event : Event) : Prop :=
  ∀ ex ∈ executions [event], ex ∈ known

section Steps

variable
  {known : List SymbolicExecution}
  {session next : Session}
  {solve : YicesSolver.Solve}
  {ex : SymbolicExecution}
  {branchIdx : Nat}

theorem holds_start
    (program : String)
    (commWorldSize targetRank : Int) :
    Holds known (Session.start program commWorldSize targetRank) where
  known := by
    intro ex isTakenOver
    cases isTakenOver
  tag := rfl
  rankNonDefaultCommIndices := rfl
  constraintsMPI := rfl
  kept := fun _ => ⟨rfl, rfl⟩
  cleared := fun restarted => nomatch restarted

/-- A call that succeeds has refreshed the cache. -/
theorem Succeeds.refreshed
    {search after : Search}
    {input : List Value}
    (succeeds : Succeeds search solve ex branchIdx after input) :
    after = search.refresh ex ∧ Search.repeats ex branchIdx = false := by
  obtain ⟨solved, returned, rfl, isInput⟩ := succeeds
  rcases Search.solveAtBranch_cases returned with
    ⟨_, _, noInput⟩ | ⟨fresh, refreshed, _⟩
  · rw [noInput] at isInput
    cases isInput
  · exact ⟨refreshed, fresh⟩

/-- A refresh for another tag brings the cache up to date. -/
theorem current_refresh
    {search : Search}
    (newTag : search.executionTag ≠ ex.executionTag) :
    Current (search.refresh ex) ex := by
  rw [Search.refresh, if_neg newTag]
  exact ⟨rfl, rfl, rfl, rfl⟩

/-- `LaunchProgram` reads through the cached indices. -/
theorem Current.readsInput
    {search : Search}
    (current : Current search ex)
    (input : List Value) :
    ReadsInput search ex input := by
  unfold ReadsInput
  rw [current.rankIndices, current.worldSizeIndices]
  exact ⟨rfl, rfl⟩

/-- With the cached tag, the cache is up to date if the tag vouches for it. -/
theorem Holds.current_iff
    (holds : Holds known session)
    (identified : Identified known)
    (isKnown : ex ∈ known)
    (sameTag : session.search.executionTag = ex.executionTag) :
    Current session.search ex ↔ Vouched session ex := by
  have tag := holds.tag
  have nonDefault := holds.rankNonDefaultCommIndices
  have constraints := holds.constraintsMPI
  have kept := holds.kept
  unfold Session.owner at tag nonDefault constraints kept
  unfold Vouched
  cases takenOver : session.takenOver with
  | none =>
      rw [takenOver] at nonDefault constraints kept
      have noLists :
          session.search.rankIndices = [] ∧
            session.search.worldSizeIndices = [] := by
        cases restarted : session.restarted with
        | false => exact kept restarted
        | true => exact holds.cleared restarted
      constructor
      · intro current
        exact
          { rankIndices := current.rankIndices.symm.trans noLists.1
            worldSizeIndices := current.worldSizeIndices.symm.trans noLists.2
            rankNonDefaultCommIndices :=
              current.rankNonDefaultCommIndices.symm.trans nonDefault
            constraintsMPI := current.constraintsMPI.symm.trans constraints }
      · intro unmarked
        exact
          { rankIndices := noLists.1.trans unmarked.rankIndices.symm
            worldSizeIndices := noLists.2.trans unmarked.worldSizeIndices.symm
            rankNonDefaultCommIndices :=
              nonDefault.trans unmarked.rankNonDefaultCommIndices.symm
            constraintsMPI := constraints.trans unmarked.constraintsMPI.symm }
  | some owner =>
      rw [takenOver] at tag nonDefault constraints kept
      have isOwner : owner = ex :=
        identified owner (holds.known owner takenOver) ex isKnown
          (tag.symm.trans sameTag)
      subst isOwner
      constructor
      · intro current
        cases restarted : session.restarted with
        | false => exact Or.inl rfl
        | true =>
            obtain ⟨noRank, noSize⟩ := holds.cleared restarted
            exact Or.inr
              ⟨current.rankIndices.symm.trans noRank,
                current.worldSizeIndices.symm.trans noSize⟩
      · intro vouched
        have lists :
            session.search.rankIndices = owner.rankIndices ∧
              session.search.worldSizeIndices = owner.worldSizeIndices := by
          cases restarted : session.restarted with
          | false => exact kept restarted
          | true =>
              obtain ⟨noRank, noSize⟩ := holds.cleared restarted
              rcases vouched with notRestarted | ⟨unmarkedRank, unmarkedSize⟩
              · rw [restarted] at notRestarted
                cases notRestarted
              · exact ⟨noRank.trans unmarkedRank.symm,
                  noSize.trans unmarkedSize.symm⟩
        exact ⟨lists.1, lists.2, nonDefault, constraints⟩

/-- One call: the cache is up to date exactly if the call is undisturbed. -/
theorem upToDate_iff
    (identified : Identified known)
    (holds : Holds known session)
    {event : Event}
    (allowed : SolvesAt known event) :
    UpToDate session event ↔ Undisturbed session event := by
  cases event with
  | restart =>
      exact Iff.rfl
  | runProgram inputs =>
      exact Iff.rfl
  | solveAtBranch solve ex branchIdx =>
      have isKnown : ex ∈ known := allowed ex List.mem_cons_self
      by_cases sameTag : session.search.executionTag = ex.executionTag
      · have unchanged : session.search.refresh ex = session.search := by
          rw [Search.refresh, if_pos sameTag]
        have current_iff := holds.current_iff identified isKnown sameTag
        constructor
        · rintro upToDate ⟨after, input, succeeds⟩ _
          have current := (upToDate after input succeeds).1
          rw [succeeds.refreshed.1, unchanged] at current
          exact current_iff.mp current
        · intro undisturbed after input succeeds
          have current : Current after ex := by
            rw [succeeds.refreshed.1, unchanged]
            exact current_iff.mpr (undisturbed ⟨after, input, succeeds⟩ sameTag)
          exact ⟨current, current.readsInput input⟩
      · constructor
        · intro _ _ isCached
          exact absurd isCached sameTag
        · intro _ after input succeeds
          have current : Current after ex := by
            rw [succeeds.refreshed.1]
            exact current_refresh sameTag
          exact ⟨current, current.readsInput input⟩

/-- Every event keeps the invariant. -/
theorem Holds.step
    (holds : Holds known session)
    {event : Event}
    (allowed : SolvesAt known event)
    (stepped : step session event = some next) :
    Holds known next := by
  cases event with
  | restart =>
      obtain rfl := Option.some.inj stepped
      exact
        { known := holds.known
          tag := holds.tag
          rankNonDefaultCommIndices := holds.rankNonDefaultCommIndices
          constraintsMPI := holds.constraintsMPI
          kept := fun notRestarted => nomatch notRestarted
          cleared := fun _ => ⟨rfl, rfl⟩ }
  | runProgram inputs =>
      obtain ⟨launched, isLaunched, rfl⟩ := Option.map_eq_some_iff.mp stepped
      obtain ⟨targetRank, commWorldSize, isNext⟩ :=
        Search.launchProgram_next isLaunched
      rw [isNext]
      exact
        { known := holds.known
          tag := holds.tag
          rankNonDefaultCommIndices := holds.rankNonDefaultCommIndices
          constraintsMPI := holds.constraintsMPI
          kept := holds.kept
          cleared := holds.cleared }
  | solveAtBranch solve ex branchIdx =>
      have isKnown : ex ∈ known := allowed ex List.mem_cons_self
      obtain ⟨solved, returned, rfl⟩ := Option.map_eq_some_iff.mp stepped
      split
      · next taken =>
          have refreshed : solved.search = session.search.refresh ex := by
            rcases Search.solveAtBranch_cases returned with
              ⟨repeated, _⟩ | ⟨_, refreshed, _⟩
            · rw [taken.1] at repeated
              cases repeated
            · exact refreshed
          have current := current_refresh taken.2
          rw [← refreshed] at current
          exact
            { known := by
                intro other isOther
                obtain rfl := Option.some.inj isOther
                exact isKnown
              tag := by
                change solved.search.executionTag = ex.executionTag
                rw [refreshed, Search.refresh, if_neg taken.2]
              rankNonDefaultCommIndices := current.rankNonDefaultCommIndices
              constraintsMPI := current.constraintsMPI
              kept := fun _ => ⟨current.rankIndices, current.worldSizeIndices⟩
              cleared := fun restarted => nomatch restarted }
      · next untaken =>
          have unchanged : solved.search = session.search := by
            rcases Search.solveAtBranch_cases returned with
              ⟨_, unchanged, _⟩ | ⟨fresh, refreshed, _⟩
            · exact unchanged
            · have sameTag : session.search.executionTag = ex.executionTag :=
                not_not.mp fun newTag => untaken ⟨fresh, newTag⟩
              rw [refreshed, Search.refresh, if_pos sameTag]
          rw [unchanged]
          exact holds

end Steps

/--
In every run whose executions are identified by their tags, the cached MPI
information is that of the execution whenever `SolveAtBranch` returns true, if
and only if no such call relies on a tag seen before a restart.
-/
theorem upToDate_along_iff
    (program : String)
    (commWorldSize targetRank : Int)
    (events : List Event)
    (identified : Identified (executions events)) :
    PartialRun.Along step UpToDate
        (Session.start program commWorldSize targetRank) events ↔
      PartialRun.Along step Undisturbed
        (Session.start program commWorldSize targetRank) events := by
  have everyAllowed :
      ∀ event ∈ events, SolvesAt (executions events) event := by
    intro event member ex solvedAt
    obtain ⟨found, isEvent, isEx⟩ := List.mem_filterMap.mp solvedAt
    obtain rfl := List.mem_singleton.mp isEvent
    exact List.mem_filterMap.mpr ⟨found, member, isEx⟩
  have initially :
      Holds (executions events)
        (Session.start program commWorldSize targetRank) :=
    holds_start program commWorldSize targetRank
  refine PartialRun.along_iff_of_allowed ?_ ?_ initially everyAllowed
  · intro session event holds allowed
    exact upToDate_iff identified holds allowed
  · intro session event next holds allowed _ stepped
    exact holds.step allowed stepped

/-- A decision procedure that always finds the same two values. -/
def answering (rank size : Value) : YicesSolver.Solve :=
  fun _ _ =>
    some (((∅ : OrderedMap Var Value).insert 0 rank).insert 1 size)

/-- A run, and a flip of the only branch of an execution. -/
def firstFlip : List Event :=
  [.runProgram [], .solveAtBranch (answering 1 4) Search.rankZero 0]

/-- A restart after which no run replaces the recorded execution. -/
def restart : List Event :=
  [.runProgram [1, 4], .restart, .runProgram []]

theorem upToDate_along_firstFlip :
    PartialRun.Along step UpToDate (Session.start "a.out" 4 0) firstFlip := by
  refine (upToDate_along_iff "a.out" 4 0 firstFlip ?_).mpr ?_
  · intro ex member other otherMember _
    rw [List.mem_singleton.mp member, List.mem_singleton.mp otherMember]
  · refine ⟨trivial, ?_⟩
    intro next stepped
    obtain rfl := Option.some.inj stepped
    refine ⟨?_, fun _ _ => trivial⟩
    intro _ sameTag
    exact absurd sameTag (by decide)

/-- The same flip after a restart finds no rank in the cache. -/
theorem not_upToDate_afterRestart :
    Identified
        (executions
          ((firstFlip ++ restart) ++
            [.solveAtBranch (answering 1 4) Search.rankZero 0])) ∧
      ¬PartialRun.Along step UpToDate (Session.start "a.out" 4 0)
        ((firstFlip ++ restart) ++
          [.solveAtBranch (answering 1 4) Search.rankZero 0]) := by
  constructor
  · have all :
        executions
            ((firstFlip ++ restart) ++
              [.solveAtBranch (answering 1 4) Search.rankZero 0]) =
          List.replicate 2 Search.rankZero :=
      rfl
    intro ex member other otherMember _
    rw [all] at member otherMember
    rw [List.eq_of_mem_replicate member, List.eq_of_mem_replicate otherMember]
  · intro along
    have stale :
        ((PartialRun.run? step (Session.start "a.out" 4 0)
              (firstFlip ++ restart)).bind fun session =>
            session.search.solveAtBranch (answering 1 4)
              Search.rankZero 0).map
            (fun solved => (solved.search.rankIndices, solved.input)) =
          some ([], some [1, 4]) := by
      decide
    obtain ⟨solved, returned, isStale⟩ := Option.map_eq_some_iff.mp stale
    obtain ⟨session, ran, returned⟩ := Option.bind_eq_some_iff.mp returned
    obtain ⟨noRank, isInput⟩ := Prod.mk.inj isStale
    have upToDate := (along.after ran).1 solved.search [1, 4]
      ⟨solved, returned, rfl, isInput⟩
    have same := upToDate.1.rankIndices
    rw [noRank] at same
    cases same

end MpiCache

end Compi
