import Compi.CoverageAccounting

/-!
# The coverage file over the calls of a search

A search that starts from a coverage file keeps its accounting over every
sequence of `UpdateCoverage` calls and restarts, and the file it leaves
rebuilds it, exactly as long as `num_covered_` does not wrap.
-/

namespace Compi

/-- The coverage of a search, and the file `coverage` on disk. -/
structure CoverageSession where
  coverage : Coverage
  file : List BranchId

/-- What happens to the coverage of a search. -/
inductive CoverageEvent where
  | update (branches : List BranchId) (allOthers : List (List BranchId))
  | restart

/-- Branches of the program, and markers of calls and returns. -/
def CoverageEvent.Drawn
    (tables : BranchTables) : CoverageEvent → Prop
  | .update branches allOthers =>
      ∀ bid ∈ Coverage.reported branches allOthers,
        bid ∈ tables.branches ∨ bid < 0
  | .restart => True

namespace CoverageSession

open BranchTables Coverage

/-- `UpdateCoverage` with the file that it writes if a branch is new. -/
def updateCoverage
    (tables : BranchTables)
    (session : CoverageSession)
    (branches : List BranchId)
    (allOthers : List (List BranchId)) :
    Option (CoverageSession × Bool × OrderedSet BranchId) := do
  let (coverage, found, newBranches) ←
    session.coverage.updateCoverage tables branches allOthers
  let file :=
    if found then
      writeCoverage tables coverage.totalCovered
    else
      session.file
  return ({ coverage, file }, found, newBranches)

def step
    (tables : BranchTables)
    (session : CoverageSession) : CoverageEvent → Option CoverageSession
  | .update branches allOthers =>
      (session.updateCoverage tables branches allOthers).map Prod.fst
  | .restart => some { session with coverage := session.coverage.restart }

/-- The coverage is accounted, and a new search that loads the file has it. -/
structure Sound
    (tables : BranchTables)
    (session : CoverageSession) : Prop where
  accounted : Accounted tables session.coverage
  reloads :
    ∃ reloaded,
      load tables session.file = some reloaded ∧
        SameTotals reloaded session.coverage

/-- An event covers the new positive ids, reports them, and stays sound. -/
def Accounts
    (tables : BranchTables)
    (session : CoverageSession) : CoverageEvent → Prop
  | .update branches allOthers =>
      let added := newIds session.coverage branches allOthers
      ∃ next found newBranches,
        session.updateCoverage tables branches allOthers =
            some (next, found, newBranches) ∧
          Sound tables next ∧
          setBits next.coverage.covered =
            setBits session.coverage.covered ∪ added ∧
          setBits next.coverage.totalCovered =
            setBits session.coverage.totalCovered ∪ added ∧
          (∀ bid, bid ∈ newBranches ↔ bid ∈ added) ∧
          (found = true ↔ added.Nonempty)
  | .restart =>
      let next := session.coverage.restart
      Sound tables { session with coverage := next } ∧
        setBits next.covered = ∅ ∧
        SameTotals next session.coverage

/-- The counter of covered branches has room for the new ids. -/
def Fits (session : CoverageSession) : CoverageEvent → Prop
  | .update branches allOthers =>
      session.coverage.numCovered +
          (newIds session.coverage branches allOthers).card < 2 ^ 32
  | .restart => True

/-- The file is the one that the total coverage would be written to. -/
structure Kept
    (tables : BranchTables)
    (session : CoverageSession) : Prop where
  accounted : Accounted tables session.coverage
  bounded : session.coverage.numCovered < 2 ^ 32
  file :
    session.file = writeCoverage tables session.coverage.totalCovered

theorem Kept.sound
    {tables : BranchTables}
    {session : CoverageSession}
    (wellFormed : WellFormed tables)
    (kept : Kept tables session) :
    Sound tables session := by
  refine ⟨kept.accounted, ?_⟩
  rw [kept.file]
  exact kept.accounted.reload wellFormed

/-- The search that loads a written file. -/
theorem kept_load
    {tables : BranchTables}
    (wellFormed : WellFormed tables)
    (total : List Bool) :
    ∃ coverage,
      load tables (writeCoverage tables total) = some coverage ∧
        Kept tables
          { coverage := coverage, file := writeCoverage tables total } := by
  have distinct : (writeCoverage tables total).Nodup :=
    wellFormed.nodup.filter _
  have listed :
      ∀ bid ∈ writeCoverage tables total, bid ∈ tables.branches :=
    fun _ member => (mem_writeCoverage.mp member).1
  obtain ⟨coverage, loads, accounted, totalBits, bounded⟩ :=
    load_spec wellFormed distinct listed
  refine ⟨coverage, loads, accounted, bounded, ?_⟩
  apply List.filter_congr
  intro bid member
  rw [Bool.eq_iff_iff, beq_iff_eq, beq_iff_eq, ← mem_setBits, ← mem_setBits,
    totalBits, List.mem_toFinset, mem_writeCoverage]
  exact ⟨fun isSet => ⟨member, isSet⟩, And.right⟩

/-- A restart uncovers all branches and leaves the totals. -/
theorem Kept.restart
    {tables : BranchTables}
    {session : CoverageSession}
    (kept : Kept tables session) :
    Kept tables { session with coverage := session.coverage.restart } := by
  have accounted := kept.accounted
  refine ⟨?_, kept.bounded, kept.file⟩
  constructor
  · exact (List.length_map _).trans accounted.coveredLength
  · exact accounted.totalLength
  · rw [Coverage.restart, setBits_map_false]
    exact Finset.empty_subset _
  · exact accounted.listed
  · exact accounted.totalNumCovered
  · exact ⟨accounted.reaches.length, accounted.reaches.reached,
      accounted.reaches.reachableFunctions,
      accounted.reaches.reachableBranches⟩

/-- What a call does to the sets of covered branches. -/
structure Updated
    (tables : BranchTables)
    (session next : CoverageSession)
    (added : Finset BranchId)
    (newBranches : OrderedSet BranchId) : Prop where
  accounted : Accounted tables next.coverage
  covered :
    setBits next.coverage.covered = setBits session.coverage.covered ∪ added
  totalCovered :
    setBits next.coverage.totalCovered =
      setBits session.coverage.totalCovered ∪ added
  newBranches : ∀ bid, bid ∈ newBranches ↔ bid ∈ added
  numCovered :
    next.coverage.numCovered =
      (session.coverage.numCovered + added.card) % 2 ^ 32
  few : added.card ≤ 2 ^ 31

/-- A call of `UpdateCoverage` in a kept session. -/
theorem Kept.updateCoverage
    {tables : BranchTables}
    {session : CoverageSession}
    (wellFormed : WellFormed tables)
    (kept : Kept tables session)
    {branches : List BranchId}
    {allOthers : List (List BranchId)}
    (drawn : (CoverageEvent.update branches allOthers).Drawn tables) :
    ∃ next newBranches,
      session.updateCoverage tables branches allOthers =
          some (next,
            decide (next.coverage.numCovered > session.coverage.numCovered),
            newBranches) ∧
        Updated tables session next
          (newIds session.coverage branches allOthers) newBranches ∧
        next.file =
          if next.coverage.numCovered > session.coverage.numCovered then
            writeCoverage tables next.coverage.totalCovered
          else
            session.file := by
  obtain ⟨coverage, newBranches, computed, visited⟩ :=
    updateCoverage_spec wellFormed kept.accounted kept.bounded drawn
  have unionNew :
      ∀ bits : Finset BranchId,
        setBits session.coverage.covered ⊆ bits →
        bits ∪ positives (reported branches allOthers) =
          bits ∪ newIds session.coverage branches allOthers := by
    intro bits subset
    rw [newIds, ← Finset.union_eq_left.mpr subset, Finset.union_assoc,
      Finset.union_assoc, Finset.union_sdiff_self_eq_union]
  refine
    ⟨{ coverage := coverage
       file :=
        if coverage.numCovered > session.coverage.numCovered then
          writeCoverage tables coverage.totalCovered
        else
          session.file },
      newBranches, ?_, ?_, rfl⟩
  · simp [CoverageSession.updateCoverage, computed]
  · constructor
    · exact visited.accounted
    · exact visited.covered.trans (unionNew _ (Finset.Subset.refl _))
    · exact visited.totalCovered.trans
        (unionNew _ kept.accounted.subset)
    · exact visited.newBranches
    · exact visited.numCovered
    · apply wellFormed.card_le
      refine Finset.Subset.trans ?_ visited.accounted.listed
      rw [visited.totalCovered]
      exact Finset.Subset.trans Finset.sdiff_subset Finset.subset_union_right

/-- A call that fits keeps the session, and says whether it adds a branch. -/
theorem Kept.update_of_fits
    {tables : BranchTables}
    {session : CoverageSession}
    (wellFormed : WellFormed tables)
    (kept : Kept tables session)
    {branches : List BranchId}
    {allOthers : List (List BranchId)}
    (drawn : (CoverageEvent.update branches allOthers).Drawn tables)
    (fits : Fits session (.update branches allOthers)) :
    ∃ next newBranches,
      session.updateCoverage tables branches allOthers =
          some (next,
            decide (newIds session.coverage branches allOthers).Nonempty,
            newBranches) ∧
        Updated tables session next
          (newIds session.coverage branches allOthers) newBranches ∧
        Kept tables next := by
  obtain ⟨next, newBranches, computed, updated, file⟩ :=
    kept.updateCoverage wellFormed drawn
  have counted :
      next.coverage.numCovered =
        session.coverage.numCovered +
          (newIds session.coverage branches allOthers).card := by
    rw [updated.numCovered, Nat.mod_eq_of_lt fits]
  have grows :
      next.coverage.numCovered > session.coverage.numCovered ↔
        (newIds session.coverage branches allOthers).Nonempty := by
    rw [counted, gt_iff_lt, Nat.lt_add_right_iff_pos, Finset.card_pos]
  refine ⟨next, newBranches, ?_, updated, updated.accounted, ?_, ?_⟩
  · rw [computed, decide_eq_decide.mpr grows]
  · rw [counted]
    exact fits
  · by_cases found :
        next.coverage.numCovered > session.coverage.numCovered
    · rw [file, if_pos found]
    · have nothing : newIds session.coverage branches allOthers = ∅ :=
        Finset.not_nonempty_iff_eq_empty.mp (found ∘ grows.mpr)
      have sameTotal :
          session.coverage.totalCovered = next.coverage.totalCovered := by
        apply eq_of_setBits_eq
        · exact kept.accounted.totalLength.trans
            updated.accounted.totalLength.symm
        · rw [updated.totalCovered, nothing, Finset.union_empty]
      rw [file, if_neg found, ← sameTotal]
      exact kept.file

/-- A call that does not fit adds a branch and says that it does not. -/
theorem Kept.not_accounts_of_not_fits
    {tables : BranchTables}
    {session : CoverageSession}
    (wellFormed : WellFormed tables)
    (kept : Kept tables session)
    {branches : List BranchId}
    {allOthers : List (List BranchId)}
    (drawn : (CoverageEvent.update branches allOthers).Drawn tables)
    (overflows : ¬ Fits session (.update branches allOthers)) :
    ¬ Accounts tables session (.update branches allOthers) := by
  obtain ⟨next, newBranches, computed, updated, -⟩ :=
    kept.updateCoverage wellFormed drawn
  rintro ⟨other, found, otherNew, otherComputed, -, -, -, -, reports⟩
  rw [computed] at otherComputed
  obtain ⟨-, rfl, -⟩ :
      next = other ∧
        decide (next.coverage.numCovered > session.coverage.numCovered) =
          found ∧ newBranches = otherNew := by
    simpa using otherComputed
  have wraps := updated.numCovered
  have few := updated.few
  have bounded := kept.bounded
  rw [Fits, not_lt] at overflows
  have nonempty :
      (newIds session.coverage branches allOthers).Nonempty := by
    rw [← Finset.card_pos]
    omega
  have grown := of_decide_eq_true (reports.mpr nonempty)
  omega

/-- Under the invariant an event is accounted exactly if it fits. -/
theorem Kept.accounts_iff_fits
    {tables : BranchTables}
    {session : CoverageSession}
    (wellFormed : WellFormed tables)
    (kept : Kept tables session)
    {event : CoverageEvent}
    (drawn : event.Drawn tables) :
    Accounts tables session event ↔ Fits session event := by
  cases event with
  | update branches allOthers =>
      constructor
      · intro accounts
        by_contra overflows
        exact kept.not_accounts_of_not_fits wellFormed drawn overflows accounts
      · intro fits
        obtain ⟨next, newBranches, computed, updated, nextKept⟩ :=
          kept.update_of_fits wellFormed drawn fits
        exact
          ⟨next, _, newBranches, computed, nextKept.sound wellFormed,
            updated.covered, updated.totalCovered, updated.newBranches,
            decide_eq_true_iff⟩
  | restart =>
      constructor
      · intro _
        trivial
      · intro _
        refine ⟨kept.restart.sound wellFormed, ?_, ?_⟩
        · exact setBits_map_false _
        · exact ⟨rfl, rfl, rfl, rfl, rfl⟩

/-- An event that fits keeps the invariant. -/
theorem Kept.step
    {tables : BranchTables}
    {session next : CoverageSession}
    (wellFormed : WellFormed tables)
    (kept : Kept tables session)
    {event : CoverageEvent}
    (drawn : event.Drawn tables)
    (fits : Fits session event)
    (stepped : step tables session event = some next) :
    Kept tables next := by
  cases event with
  | update branches allOthers =>
      obtain ⟨updated, newBranches, computed, -, updatedKept⟩ :=
        kept.update_of_fits wellFormed drawn fits
      rw [CoverageSession.step, computed] at stepped
      obtain rfl := Option.some.inj stepped
      exact updatedKept
  | restart =>
      obtain rfl := Option.some.inj stepped
      exact kept.restart

/-- Along a run from a kept session the accounting is right iff it fits. -/
theorem Kept.along_accounts_iff
    {tables : BranchTables}
    {session : CoverageSession}
    (wellFormed : WellFormed tables)
    (kept : Kept tables session)
    {events : List CoverageEvent}
    (drawn : ∀ event ∈ events, event.Drawn tables) :
    PartialRun.Along (CoverageSession.step tables) (Accounts tables)
        session events ↔
      PartialRun.Along (CoverageSession.step tables) Fits session events := by
  refine PartialRun.along_iff_of_allowed ?_ ?_ kept drawn
  · intro state event kept isDrawn
    exact kept.accounts_iff_fits wellFormed isDrawn
  · intro state event next kept isDrawn fits stepped
    exact kept.step wellFormed isDrawn fits stepped

/-- The file `branches` of a program with one conditional. -/
def oneConditional : File :=
  [[(1, 2)]]

theorem regular_oneConditional : Regular oneConditional := by
  constructor
  · decide
  · decide

theorem ofFile_oneConditional :
    ofFile oneConditional =
      { branches := [1, 2]
        pairedBranch := [0, 2, 1]
        branchFunction := [0, 1, 1]
        branchCount := [0, 2] } := by
  have sorted :
      [1, 2].mergeSort (fun left right : BranchId => decide (left ≤ right)) =
        [1, 2] :=
    List.mergeSort_of_pairwise (by decide)
  simp [ofFile, oneConditional, idsOf, sorted, update]

/-- A search for which branch 1 is covered in total. -/
def firstInTotal
    (covered : List Bool)
    (numCovered : Nat) : CoverageSession :=
  { coverage :=
      { covered := covered
        totalCovered := [false, true, false]
        numCovered := numCovered
        totalNumCovered := 1
        reached := [false, true]
        reachableFunctions := 1
        reachableBranches := 2 }
    file := [1] }

/-- The search that loads the file with branch 1. -/
theorem load_firstInTotal :
    writeCoverage (ofFile oneConditional) [false, true, false] = [1] ∧
      load (ofFile oneConditional) [1] =
        some (firstInTotal [false, true, false] 1).coverage := by
  rw [ofFile_oneConditional]
  exact ⟨rfl, rfl⟩

theorem kept_firstInTotal :
    Kept (ofFile oneConditional) (firstInTotal [false, true, false] 1) := by
  obtain ⟨written, loads⟩ := load_firstInTotal
  obtain ⟨coverage, otherLoads, kept⟩ :=
    kept_load (wellFormed_ofFile regular_oneConditional) [false, true, false]
  rw [written, loads] at otherLoads
  obtain rfl := Option.some.inj otherLoads
  rw [written] at kept
  exact kept

/-- Cover branch 1 again and restart, several times. -/
def rounds : Nat → List CoverageEvent
  | 0 => []
  | count + 1 => .update [1] [] :: .restart :: rounds count

/-- Each round adds one to the counter and changes nothing else. -/
theorem run?_rounds
    {count start : Nat}
    (room : start + count < 2 ^ 32) :
    PartialRun.run? (step (ofFile oneConditional))
        (firstInTotal [false, false, false] start) (rounds count) =
      some (firstInTotal [false, false, false] (start + count)) := by
  induction count generalizing start with
  | zero =>
      rfl
  | succ count inductionHypothesis =>
      have computed :
          (firstInTotal [false, false, false] start).coverage.updateCoverage
              (ofFile oneConditional) [1] [] =
            some
              ((firstInTotal [false, true, false]
                  ((start + 1) % 2 ^ 32)).coverage,
                decide ((start + 1) % 2 ^ 32 > start), {1}) := by
        rw [ofFile_oneConditional]
        rfl
      have small : (start + 1) % 2 ^ 32 = start + 1 :=
        Nat.mod_eq_of_lt (by omega)
      have written :
          writeCoverage (ofFile oneConditional) [false, true, false] = [1] :=
        load_firstInTotal.1
      have covers :
          step (ofFile oneConditional)
              (firstInTotal [false, false, false] start) (.update [1] []) =
            some (firstInTotal [false, true, false] (start + 1)) := by
        rw [small, decide_eq_true (Nat.lt_succ_self start)] at computed
        simp only [step, CoverageSession.updateCoverage, computed]
        exact congrArg
          (fun file => some
            { firstInTotal [false, true, false] (start + 1) with file := file })
          written
      rw [rounds, PartialRun.run?_cons_eq_some]
      refine ⟨_, covers, ?_⟩
      rw [PartialRun.run?_cons_eq_some]
      refine ⟨firstInTotal [false, false, false] (start + 1), rfl, ?_⟩
      rw [inductionHypothesis (by omega), Nat.add_right_comm, Nat.add_assoc]

/--
Coverage accounting over every sequence of calls and restarts of a search
that starts from a written coverage file: it is right at the start, and right
after each event exactly if the counter of covered branches never wraps.
-/
theorem coverageAccounted_iff_fits
    {file : File}
    (regular : Regular file)
    (total : List Bool)
    (events : List CoverageEvent)
    (drawn : ∀ event ∈ events, event.Drawn (ofFile file)) :
    ∃ coverage,
      load (ofFile file) (writeCoverage (ofFile file) total) =
          some coverage ∧
        Sound (ofFile file)
          { coverage := coverage
            file := writeCoverage (ofFile file) total } ∧
        (PartialRun.Along (step (ofFile file)) (Accounts (ofFile file))
            { coverage := coverage
              file := writeCoverage (ofFile file) total } events ↔
          PartialRun.Along (step (ofFile file)) Fits
            { coverage := coverage
              file := writeCoverage (ofFile file) total } events) := by
  have wellFormed := wellFormed_ofFile regular
  obtain ⟨coverage, loads, kept⟩ := kept_load wellFormed total
  exact ⟨coverage, loads, kept.sound wellFormed,
    kept.along_accounts_iff wellFormed drawn⟩

theorem coverageAccounted_iff_fits_oneConditional :
    ∃ coverage,
      load (ofFile oneConditional)
          (writeCoverage (ofFile oneConditional) [false, true, false]) =
          some coverage ∧
        PartialRun.Along (step (ofFile oneConditional))
          (Accounts (ofFile oneConditional))
          { coverage := coverage
            file :=
              writeCoverage (ofFile oneConditional) [false, true, false] }
          [.restart, .update [-1, 1, -2] [[1, 1], [2, 1]], .restart] := by
  have updateDrawn :
      (CoverageEvent.update [-1, 1, -2] [[1, 1], [2, 1]]).Drawn
        (ofFile oneConditional) := by
    rw [ofFile_oneConditional, CoverageEvent.Drawn]
    decide
  have drawn :
      ∀ event ∈
        [CoverageEvent.restart,
          .update [-1, 1, -2] [[1, 1], [2, 1]], .restart],
        event.Drawn (ofFile oneConditional) := by
    simpa [CoverageEvent.Drawn] using updateDrawn
  obtain ⟨coverage, loads, -, accounted⟩ :=
    coverageAccounted_iff_fits regular_oneConditional [false, true, false]
      _ drawn
  refine ⟨coverage, loads, accounted.mpr ?_⟩
  rw [load_firstInTotal.1, load_firstInTotal.2] at loads
  obtain rfl := Option.some.inj loads
  refine ⟨trivial, fun next stepped => ?_⟩
  obtain rfl := Option.some.inj stepped
  refine ⟨?_, fun next _ => ⟨trivial, fun _ _ => trivial⟩⟩
  have few :
      (newIds (firstInTotal [false, false, false] 1).coverage [-1, 1, -2]
        [[1, 1], [2, 1]]).card = 2 :=
    rfl
  show 1 + (newIds (firstInTotal [false, false, false] 1).coverage _ _).card
    < 2 ^ 32
  rw [few]
  omega

/--
A search that covers one branch again after each of 2 ^ 32 - 2 restarts and
then once more says that it covers nothing.
-/
theorem not_coverageAccounted_after_wrap :
    ∃ coverage,
      load (ofFile oneConditional)
          (writeCoverage (ofFile oneConditional) [false, true, false]) =
          some coverage ∧
        (∀ event ∈
            CoverageEvent.restart ::
              (rounds (2 ^ 32 - 2) ++ [.update [1] []]),
          event.Drawn (ofFile oneConditional)) ∧
        ¬ PartialRun.Along (step (ofFile oneConditional))
          (Accounts (ofFile oneConditional))
          { coverage := coverage
            file :=
              writeCoverage (ofFile oneConditional) [false, true, false] }
          (.restart :: (rounds (2 ^ 32 - 2) ++ [.update [1] []])) := by
  have updateDrawn :
      (CoverageEvent.update [1] []).Drawn (ofFile oneConditional) := by
    rw [ofFile_oneConditional, CoverageEvent.Drawn]
    decide
  have roundsDrawn :
      ∀ count, ∀ event ∈ rounds count, event.Drawn (ofFile oneConditional) := by
    intro count
    induction count with
    | zero =>
        exact fun _ member => nomatch member
    | succ count inductionHypothesis =>
        exact List.forall_mem_cons.mpr
          ⟨updateDrawn, List.forall_mem_cons.mpr
            ⟨trivial, inductionHypothesis⟩⟩
  have drawn :
      ∀ event ∈
        CoverageEvent.restart :: (rounds (2 ^ 32 - 2) ++ [.update [1] []]),
        event.Drawn (ofFile oneConditional) := by
    refine List.forall_mem_cons.mpr ⟨trivial, ?_⟩
    refine List.forall_mem_append.mpr ⟨roundsDrawn _, ?_⟩
    exact List.forall_mem_cons.mpr ⟨updateDrawn, fun _ member => nomatch member⟩
  refine ⟨(firstInTotal [false, true, false] 1).coverage, ?_, drawn, ?_⟩
  · rw [load_firstInTotal.1]
    exact load_firstInTotal.2
  · rw [load_firstInTotal.1]
    intro accounts
    have fits :=
      (kept_firstInTotal.along_accounts_iff
        (wellFormed_ofFile regular_oneConditional) drawn).mp accounts
    have afterRestart :=
      fits.2 (firstInTotal [false, false, false] 1) rfl
    have room : 1 + (2 ^ 32 - 2) < 2 ^ 32 := by
      omega
    have last := afterRestart.after (run?_rounds room)
    have one :
        (newIds (firstInTotal [false, false, false] (1 + (2 ^ 32 - 2))).coverage
          [1] []).card = 1 :=
      rfl
    have tooLarge := last.1
    rw [Fits, one] at tooLarge
    exact absurd tooLarge (by decide)

end CoverageSession

end Compi
