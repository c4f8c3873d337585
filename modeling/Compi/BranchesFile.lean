import Compi.CounterFiles
import Compi.TextStream

/-!
# The file of branches

The heavy instrumenter appends the branches of each function to a text file,
run after run.  A search and `process_cfg` read the whole file back.
-/

namespace Compi

open BranchTables TextStream

/-- The branch pairs of a function. -/
abbrev Pairs : Type :=
  List (BranchId × BranchId)

namespace BranchesFile

section Writing

/-- Two numbers on a line. -/
def printLine (first second : Int) : List Char :=
  decimal first ++ ' ' :: (decimal second ++ ['\n'])

/-- `compare` on pairs. -/
def comparePairs (left right : BranchId × BranchId) : Bool :=
  decide (left.1 < right.1 ∨ left.1 = right.1 ∧ left.2 ≤ right.2)

/-- `writeFunBranches`, with the pairs already sorted. -/
def printEntry (entry : Nat × Pairs) : List Char :=
  printLine entry.1 entry.2.length ++
    entry.2.flatMap fun pair => printLine pair.1 pair.2

/-- The entries of a run, with their pairs in the order of the file. -/
def sortedEntries (seen : Cil.CrestAll.Seen) : List (Nat × Pairs) :=
  seen.writeBranches.map fun entry =>
    (entry.1, entry.2.mergeSort comparePairs)

/--
A run over the functions of a file that are not skipped, each given by the
pairs that are added for it.
-/
def visitFunctions
    (seen : Cil.CrestAll.Seen)
    (functions : List Pairs) : Cil.CrestAll.Seen :=
  functions.foldl (fun seen pairs => seen.addFunction.addBranchPairs pairs)
    seen

/-- The entries that the runs over some files append, from a function count. -/
def entriesOf : Nat → List (List Pairs) → List (Nat × Pairs)
  | _, [] => []
  | funCount, functions :: rest =>
      let seen := visitFunctions (.start funCount) functions
      sortedEntries seen ++ entriesOf seen.funCount rest

/-- The file `branches` after the runs over some files. -/
def textOf (files : List (List Pairs)) : List Char :=
  (entriesOf 0 files).flatMap printEntry

end Writing

section Entries

/-- What `writeBranches` goes through, its first entry included. -/
def allEntries (seen : Cil.CrestAll.Seen) : List (Nat × Pairs) :=
  ((seen.funCount, seen.curBranches) :: seen.branches).reverse

/-- Every function adds an entry with the next id. -/
theorem allEntries_visitFunctions
    (seen : Cil.CrestAll.Seen)
    (functions : List Pairs) :
    allEntries (visitFunctions seen functions) =
        allEntries seen ++
          (functions.zipIdx (seen.funCount + 1)).map
            (fun entry => (entry.2, entry.1.reverse)) ∧
      (visitFunctions seen functions).funCount =
        seen.funCount + functions.length := by
  induction functions generalizing seen with
  | nil =>
      exact ⟨(List.append_nil _).symm, rfl⟩
  | cons pairs rest inductionHypothesis =>
      obtain ⟨entries, count⟩ :=
        inductionHypothesis (seen.addFunction.addBranchPairs pairs)
      have added :
          allEntries (seen.addFunction.addBranchPairs pairs) =
            allEntries seen ++ [(seen.funCount + 1, pairs.reverse)] := by
        simp [allEntries, Cil.CrestAll.Seen.addFunction,
          Cil.CrestAll.Seen.addBranchPairs]
      constructor
      · show allEntries
            (visitFunctions (seen.addFunction.addBranchPairs pairs) rest) = _
        rw [entries, added, List.append_assoc, List.zipIdx_cons]
        rfl
      · show (visitFunctions (seen.addFunction.addBranchPairs pairs)
            rest).funCount = _
        rw [count, List.length_cons]
        show seen.funCount + 1 + rest.length = _
        omega

/-- The entry of a function with its number. -/
def entryOf (function : Pairs × Nat) : Nat × Pairs :=
  (function.2, function.1.reverse.mergeSort comparePairs)

theorem sortedEntries_visitFunctions
    (funCount : Nat)
    (functions : List Pairs) :
    sortedEntries (visitFunctions (.start funCount) functions) =
      (functions.zipIdx (funCount + 1)).map entryOf := by
  have entries :=
    (allEntries_visitFunctions (.start funCount) functions).1
  have written :
      (visitFunctions (.start funCount) functions).writeBranches =
        (allEntries
            (visitFunctions (.start funCount) functions)).tail.filter
          fun entry => decide (0 < entry.1) :=
    rfl
  have allNumbered :
      ∀ entry ∈
          (functions.zipIdx (funCount + 1)).map
            (fun entry => (entry.2, entry.1.reverse)),
        decide (0 < entry.1) = true := by
    intro entry member
    obtain ⟨function, isFunction, rfl⟩ := List.mem_map.mp member
    have above := List.le_snd_of_mem_zipIdx isFunction
    exact decide_eq_true (Nat.lt_of_lt_of_le (Nat.succ_pos funCount) above)
  rw [sortedEntries, written, entries]
  show
    ((((functions.zipIdx (funCount + 1)).map
        (fun entry => (entry.2, entry.1.reverse))).filter
          (fun entry => decide (0 < entry.1))).map
        fun entry => (entry.1, entry.2.mergeSort comparePairs)) = _
  rw [List.filter_eq_self.mpr allNumbered, List.map_map]
  rfl

/-- The functions of all files are numbered in a row. -/
theorem entriesOf_eq
    (funCount : Nat)
    (files : List (List Pairs)) :
    entriesOf funCount files =
      (files.flatten.zipIdx (funCount + 1)).map entryOf := by
  induction files generalizing funCount with
  | nil =>
      rfl
  | cons functions rest inductionHypothesis =>
      have count :=
        (allEntries_visitFunctions (.start funCount) functions).2
      rw [entriesOf, sortedEntries_visitFunctions, inductionHypothesis, count,
        List.flatten_cons, List.zipIdx_append, List.map_append]
      congr 3
      show funCount + functions.length + 1 = _
      omega

end Entries

section Reading

/-- What is read of a function: its id, its count and its pairs. -/
structure Group where
  fid : Int
  numBranches : Int
  pairs : Pairs

/-- `in >> first >> second`, where the stream is `true` afterwards. -/
def readTwo (readFirst : Reader (Option Int)) : Reader (Option (Int × Int)) := do
  let first ← readFirst
  let second ← readInt
  let isOk ← ok
  match first, second, isOk with
  | some first, some second, true => return some (first, second)
  | _, _, _ => return none

/-- The loop over the pairs of a function, which stops at a failed assertion. -/
def readPairs : Nat → Reader (Option Pairs)
  | 0 => return some []
  | count + 1 => do
      match ← readTwo readInt with
      | none => return none
      | some pair => do
          match ← readPairs count with
          | none => return none
          | some pairs => return some (pair :: pairs)

/--
The loop over the functions of the file.  It takes a bound on the rounds, and
the type of the ids of functions, which the readers declare differently.
-/
def readGroups (readFid : Reader (Option Int)) :
    Nat → Reader (Option (List Group))
  | 0 => return none
  | rounds + 1 => do
      match ← readTwo readFid with
      | none => return some []
      | some (fid, numBranches) => do
          match ← readPairs numBranches.toNat with
          | none => return none
          | some pairs => do
              match ← readGroups readFid rounds with
              | none => return none
              | some groups =>
                  return some
                    ({ fid := fid, numBranches := numBranches, pairs := pairs } ::
                      groups)

/-- Every round takes a character. -/
def groupsOf
    (readFid : Reader (Option Int))
    (text : List Char) : Option (List Group) :=
  (readGroups readFid (text.length + 1) (opened text)).1

end Reading

section RoundTrip

/-- Whether a number is an `int`. -/
def IsInt (n : Int) : Prop :=
  -2 ^ 31 ≤ n ∧ n < 2 ^ 31

/-- A reader takes a printed number that is not negative and an `int`. -/
def ReadsNumber (reader : Reader (Option Int)) : Prop :=
  ∀ spaces rest n,
    (∀ c ∈ spaces, isSpace c = true) →
    (0 ≤ n ∧ IsInt n) →
    Ends Char.isDigit rest →
    reader (opened (spaces ++ (decimal n ++ rest))) = (some n, past rest)

/-- A reader fails in front of spaces. -/
def FailsAtSpaces (reader : Reader (Option Int)) : Prop :=
  ∀ spaces,
    (∀ c ∈ spaces, isSpace c = true) →
    reader (opened spaces) = (none, { rest := [], eof := true, failed := true })

theorem readsNumber_readInt : ReadsNumber readInt :=
  fun _ _ _ areSpaces isInt ends => readInt_decimal areSpaces isInt.2 ends

theorem readsNumber_readUnsigned : ReadsNumber readUnsigned := by
  intro spaces rest n areSpaces isInt ends
  have isUnsigned : 0 ≤ n ∧ n < 2 ^ 32 := by
    unfold IsInt at isInt
    omega
  exact readUnsigned_decimal areSpaces isUnsigned ends

theorem failsAtSpaces_readInt : FailsAtSpaces readInt :=
  fun _ areSpaces => tryExtract_spaces areSpaces

theorem failsAtSpaces_readUnsigned : FailsAtSpaces readUnsigned :=
  fun _ areSpaces => tryExtract_spaces areSpaces

variable
  {reader : Reader (Option Int)}
  {spaces : List Char}

/-- A line of two numbers is read; the end of the line is left. -/
theorem readTwo_printLine
    (reads : ReadsNumber reader)
    (areSpaces : ∀ c ∈ spaces, isSpace c = true)
    {first second : Int}
    (firstInt : 0 ≤ first ∧ IsInt first)
    (secondInt : 0 ≤ second ∧ IsInt second)
    (rest : List Char) :
    readTwo reader (opened (spaces ++ (printLine first second ++ rest))) =
      (some (first, second), opened ('\n' :: rest)) := by
  have text :
      spaces ++ (printLine first second ++ rest) =
        spaces ++
          (decimal first ++
            ([' '] ++ (decimal second ++ '\n' :: rest))) := by
    simp [printLine]
  have secondSpaces : ∀ c ∈ [' '], isSpace c = true :=
    List.forall_mem_singleton.mpr rfl
  rw [text]
  refine
    (run_bind
      (reads spaces _ first areSpaces firstInt (ends_cons.mpr (by decide)))
      _).trans ?_
  refine
    (run_bind
      (readsNumber_readInt [' '] ('\n' :: rest) second secondSpaces secondInt
        (ends_cons.mpr (by decide))) _).trans ?_
  rfl

/-- At the end of a file no two numbers are read. -/
theorem readTwo_spaces
    (fails : FailsAtSpaces reader)
    (areSpaces : ∀ c ∈ spaces, isSpace c = true) :
    readTwo reader (opened spaces) =
      (none, { rest := [], eof := true, failed := true }) := by
  refine (run_bind (fails spaces areSpaces) _).trans ?_
  rfl

/-- The lines of some pairs are read. -/
theorem readPairs_printLines
    {pairs : Pairs}
    (areInts :
      ∀ pair ∈ pairs,
        (0 ≤ pair.1 ∧ IsInt pair.1) ∧ (0 ≤ pair.2 ∧ IsInt pair.2))
    (rest : List Char) :
    readPairs pairs.length
        (opened
          ('\n' ::
            ((pairs.flatMap fun pair => printLine pair.1 pair.2) ++ rest))) =
      (some pairs, opened ('\n' :: rest)) := by
  have isSpaceNewline : ∀ c ∈ ['\n'], isSpace c = true :=
    List.forall_mem_singleton.mpr rfl
  induction pairs with
  | nil =>
      rfl
  | cons pair pairs inductionHypothesis =>
      obtain ⟨here, later⟩ := List.forall_mem_cons.mp areInts
      have read :=
        readTwo_printLine readsNumber_readInt isSpaceNewline here.1 here.2
          ((pairs.flatMap fun pair => printLine pair.1 pair.2) ++ rest)
      rw [List.flatMap_cons, List.append_assoc]
      refine (run_bind read _).trans ?_
      refine (run_bind (inductionHypothesis later) _).trans ?_
      rfl

/-- The numbers of an entry are `int`s. -/
structure HasInts (entry : Nat × Pairs) : Prop where
  fid : IsInt entry.1
  count : IsInt entry.2.length
  pairs :
    ∀ pair ∈ entry.2,
      (0 ≤ pair.1 ∧ IsInt pair.1) ∧ (0 ≤ pair.2 ∧ IsInt pair.2)

/-- What is read of an entry. -/
def groupOf (entry : Nat × Pairs) : Group where
  fid := entry.1
  numBranches := entry.2.length
  pairs := entry.2

/-- Printed entries are read, whatever the type of the function ids. -/
theorem readGroups_printEntries
    (reads : ReadsNumber reader)
    (fails : FailsAtSpaces reader)
    {entries : List (Nat × Pairs)}
    (haveInts : ∀ entry ∈ entries, HasInts entry)
    (areSpaces : ∀ c ∈ spaces, isSpace c = true)
    {rounds : Nat}
    (enough : entries.length < rounds) :
    ∃ after,
      readGroups reader rounds
          (opened (spaces ++ entries.flatMap printEntry)) =
        (some (entries.map groupOf), after) := by
  induction entries generalizing spaces rounds with
  | nil =>
      cases rounds with
      | zero =>
          cases enough
      | succ rounds =>
          rw [List.flatMap_nil, List.append_nil]
          exact ⟨_, run_bind (readTwo_spaces fails areSpaces) _⟩
  | cons entry rest inductionHypothesis =>
      obtain ⟨here, later⟩ := List.forall_mem_cons.mp haveInts
      cases rounds with
      | zero =>
          cases enough
      | succ rounds =>
          have header :=
            readTwo_printLine reads areSpaces
              ⟨Int.natCast_nonneg entry.1, here.fid⟩
              ⟨Int.natCast_nonneg entry.2.length, here.count⟩
              ((entry.2.flatMap fun pair => printLine pair.1 pair.2) ++
                rest.flatMap printEntry)
          have lines :=
            readPairs_printLines here.pairs (rest.flatMap printEntry)
          have newline : ∀ c ∈ ['\n'], isSpace c = true :=
            List.forall_mem_singleton.mpr rfl
          obtain ⟨after, read⟩ :=
            inductionHypothesis later newline (Nat.lt_of_succ_lt_succ enough)
          refine ⟨after, ?_⟩
          rw [List.flatMap_cons, printEntry, List.append_assoc]
          refine (run_bind header _).trans ?_
          refine (run_bind lines _).trans ?_
          exact run_bind read _

theorem printEntry_ne_nil (entry : Nat × Pairs) : printEntry entry ≠ [] := by
  simp [printEntry, printLine]

/-- The file is read back. -/
theorem groupsOf_printEntries
    (reads : ReadsNumber reader)
    (fails : FailsAtSpaces reader)
    {entries : List (Nat × Pairs)}
    (haveInts : ∀ entry ∈ entries, HasInts entry) :
    groupsOf reader (entries.flatMap printEntry) =
      some (entries.map groupOf) := by
  have enough :=
    Nat.lt_succ_of_le (length_le_length_flatMap printEntry_ne_nil entries)
  obtain ⟨after, read⟩ :=
    readGroups_printEntries reads fails haveInts (List.forall_mem_nil _) enough
  rw [List.nil_append] at read
  rw [groupsOf, read]

end RoundTrip

end BranchesFile

end Compi
