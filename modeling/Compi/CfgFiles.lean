import Compi.TextStream

/-!
# The files of the control-flow graph

The heavy instrumenter appends the graph of each file, a statement a line, and
the first statements of the functions that other files can call.  A call is
written as a statement if the function is in the file, and by name if not;
`process_cfg` resolves the names when it has read all files.

A variable of a function is known in its file by its identity, and elsewhere
by its name.
-/

namespace Compi

open TextStream

namespace CfgFiles

/-- The variable of a function, as a file has it. -/
structure FuncVar where
  vid : Nat
  vname : List Char
  isStatic : Bool
  deriving DecidableEq

/-- An instruction, as far as the graph is concerned. -/
inductive Instr where
  | call (f : FuncVar)
  | callExp
  | other
  deriving DecidableEq

/--
A statement with its successors; where it is no list of instructions, it has
none.
-/
structure Node where
  sid : Int
  succs : List Int
  is : List Instr
  deriving DecidableEq

/-- `writeCfgInst`: the function that an instruction calls by name. -/
def Instr.called? : Instr → Option FuncVar
  | .call f => some f
  | .callExp => none
  | .other => none

/-- The functions that a statement calls by name. -/
def Node.calls (s : Node) : List FuncVar :=
  s.is.filterMap Instr.called?

/-- A function with the statements of its body in the order of the visits. -/
structure Function where
  svar : FuncVar
  first : Node
  others : List Node
  deriving DecidableEq

/-- The statements of a function. -/
def Function.nodes (f : Function) : List Node :=
  f.first :: f.others

section Writing

/-- What stands in a line after the id of the statement. -/
inductive Word where
  | id (n : Int)
  | name (cs : List Char)
  deriving DecidableEq

def Word.text : Word → List Char
  | .id n => decimal n
  | .name cs => cs

/-- `buildFirstStmtIdMap`. -/
def buildFirstStmtIdMap (file : List Function) : List (FuncVar × Int) :=
  file.map fun f => (f.svar, f.first.sid)

/-- `writeCfgCall`. -/
def writeCfgCall
    (firstStmtIdMap : List (FuncVar × Int))
    (f : FuncVar) : Word :=
  match firstStmtIdMap.find? fun entry => decide (entry.1.vid = f.vid) with
  | some entry => .id entry.2
  | none => .name f.vname

/-- The words of the line of a statement. -/
def wordsOf
    (firstStmtIdMap : List (FuncVar × Int))
    (s : Node) : List Word :=
  s.succs.map .id ++ s.calls.map (writeCfgCall firstStmtIdMap)

/-- Words, each after a space. -/
def spaced (words : List Word) : List Char :=
  words.flatMap fun word => ' ' :: word.text

/-- The line of a statement. -/
def lineOf
    (firstStmtIdMap : List (FuncVar × Int))
    (s : Node) : List Char :=
  decimal s.sid ++ spaced (wordsOf firstStmtIdMap s)

/-- `writeCfg`. -/
def writeCfg (file : List Function) : List Char :=
  (file.flatMap Function.nodes).flatMap fun s =>
    lineOf (buildFirstStmtIdMap file) s ++ ['\n']

/-- `writeFirstStmtIdMap`. -/
def writeFirstStmtIdMap (file : List Function) : List Char :=
  (buildFirstStmtIdMap file).flatMap fun entry =>
    if entry.1.isStatic then
      []
    else
      entry.1.vname ++ ' ' :: (decimal entry.2 ++ ['\n'])

/-- The file `cfg` after the runs over some files. -/
def cfg (files : List (List Function)) : List Char :=
  files.flatMap writeCfg

/-- The file `cfg_func_map` after the runs over some files. -/
def cfgFuncMap (files : List (List Function)) : List Char :=
  files.flatMap writeFirstStmtIdMap

end Writing

section Reading

/-- The neighbours of the nodes, with the lengths of the edges. -/
abbrev Graph : Type :=
  List (List (Int × Nat))

/-- The first statements of functions, latest first. -/
abbrev FuncNodeMap : Type :=
  List (List Char × Int)

/-- The loop over the file `cfg_func_map`; it takes a bound on the rounds. -/
def readFuncNodeMap : Nat → FuncNodeMap → Reader FuncNodeMap
  | 0, funcNodeMap => return funcNodeMap
  | rounds + 1, funcNodeMap => do
      let func ← readWord
      let sid ← readInt
      let isOk ← ok
      match func, sid, isOk with
      | some func, some sid, true =>
          readFuncNodeMap rounds ((func, sid) :: funcNodeMap)
      | _, _, _ => return funcNodeMap

/--
The next neighbour of a line, if it names one.  An `int` is stored wherever a
digit is next.
-/
def readNeighbour (funcNodeMap : FuncNodeMap) :
    Reader (Option (Int × Nat)) := do
  let next ← peek
  if next.any Char.isDigit then
    let dst ← readInt
    return dst.map fun dst => (dst, 0)
  else
    let func ← readWord
    return (funcNodeMap.lookup (func.getD [])).map fun dst => (dst, 0)

/-- The loop over a line; it takes a bound on the rounds. -/
def readNeighbours (funcNodeMap : FuncNodeMap) :
    Nat → List (Int × Nat) → Reader (List (Int × Nat))
  | 0, nbhrs => return nbhrs
  | rounds + 1, nbhrs => do
      if ← ok then
        let nbhr ← readNeighbour funcNodeMap
        let _ ← TextStream.get
        readNeighbours funcNodeMap rounds (nbhrs ++ nbhr.toList)
      else
        return nbhrs

/-- The graph with room for a node. -/
def resize (graph : Graph) (src : Nat) : Graph :=
  graph ++ List.replicate (src + 1 - graph.length) []

/--
Read a line of a number of characters; where no id is stored, or a negative
one, this is undefined.
-/
def extendGraph
    (funcNodeMap : FuncNodeMap)
    (graph : Graph)
    (length : Nat) : Reader (Option Graph) := do
  let src ← readInt
  let _ ← TextStream.get
  match src with
  | none => return none
  | some src =>
      if 0 ≤ src then
        let graph := resize graph src.toNat
        let nbhrs ←
          readNeighbours funcNodeMap (length + 1) (graph.getD src.toNat [])
        return some (graph.set src.toNat nbhrs)
      else
        return none

/-- Read a line from a stream of its own. -/
def readLine
    (funcNodeMap : FuncNodeMap)
    (graph : Graph)
    (line : List Char) : Option Graph :=
  (extendGraph funcNodeMap graph line.length (opened line)).1

/-- The loop over the lines of the file `cfg`. -/
def readLines (funcNodeMap : FuncNodeMap) :
    Nat → Graph → Reader (Option Graph)
  | 0, _ => return none
  | rounds + 1, graph => do
      let line ← getLine
      if ← ok then
        match readLine funcNodeMap graph (line.getD []) with
        | none => return none
        | some graph => readLines funcNodeMap rounds graph
      else
        return some graph

/-- `readCfg`. -/
def readCfg (funcMapText cfgText : List Char) : Option Graph :=
  let funcNodeMap :=
    (readFuncNodeMap (funcMapText.length + 1) [] (opened funcMapText)).1
  (readLines funcNodeMap (cfgText.length + 1) [] (opened cfgText)).1

/-- The neighbours of a node. -/
def neighbours (graph : Graph) (sid : Int) : List (Int × Nat) :=
  graph.getD sid.toNat []

end Reading

section Words

/-- An identifier of C. -/
def isIdentifier (name : List Char) : Bool :=
  match name with
  | [] => false
  | c :: rest =>
      (c.isAlpha || c = '_') && rest.all fun d => d.isAlphanum || d = '_'

/-- Whether a word is an id that is an `int`, or an identifier. -/
def Word.IsValid : Word → Prop
  | .id n => 0 ≤ n ∧ n < 2 ^ 31
  | .name cs => isIdentifier cs = true

/-- What a word stands for. -/
def Word.resolve (funcNodeMap : FuncNodeMap) : Word → Option Int
  | .id n => some n
  | .name cs => funcNodeMap.lookup cs

theorem identifier_char
    {c : Char}
    (isPart : (c.isAlphanum || decide (c = '_')) = true) :
    isSpace c = false := by
  unfold Char.isAlphanum Char.isAlpha Char.isUpper Char.isLower Char.isDigit
    at isPart
  simp only [Bool.or_eq_true, Bool.and_eq_true, decide_eq_true_eq,
    UInt32.le_iff_toNat_le, ge_iff_le] at isPart
  change
    (((65 ≤ c.toNat ∧ c.toNat ≤ 90) ∨ (97 ≤ c.toNat ∧ c.toNat ≤ 122)) ∨
      (48 ≤ c.toNat ∧ c.toNat ≤ 57)) ∨ c = '_' at isPart
  simp only [isSpace, Bool.or_eq_false_iff, Bool.and_eq_false_iff,
    decide_eq_false_iff_not]
  rcases isPart with ((isUpper | isLower) | isDigit) | rfl
  · omega
  · omega
  · omega
  · decide

theorem identifier_start
    {c : Char}
    (isStart : (c.isAlpha || decide (c = '_')) = true) :
    c.isDigit = false := by
  unfold Char.isAlpha Char.isUpper Char.isLower at isStart
  simp only [Bool.or_eq_true, Bool.and_eq_true, decide_eq_true_eq,
    UInt32.le_iff_toNat_le, ge_iff_le] at isStart
  change
    ((65 ≤ c.toNat ∧ c.toNat ≤ 90) ∨ (97 ≤ c.toNat ∧ c.toNat ≤ 122)) ∨
      c = '_' at isStart
  rw [Bool.eq_false_iff]
  intro isDigit
  simp only [Char.isDigit, Bool.and_eq_true, decide_eq_true_eq, ge_iff_le,
    UInt32.le_iff_toNat_le] at isDigit
  change 48 ≤ c.toNat ∧ c.toNat ≤ 57 at isDigit
  rcases isStart with (isUpper | isLower) | rfl
  · omega
  · omega
  · revert isDigit
    decide

variable {name : List Char}

/-- An identifier is a word that does not start with a digit. -/
theorem identifier_spec (isName : isIdentifier name = true) :
    name ≠ [] ∧
      (∀ c ∈ name, isSpace c = false) ∧
      ∀ rest, Ends Char.isDigit (name ++ rest) := by
  cases name with
  | nil =>
      cases isName
  | cons c more =>
      simp only [isIdentifier, Bool.and_eq_true, List.all_eq_true] at isName
      obtain ⟨isStart, areParts⟩ := isName
      have isPart : (c.isAlphanum || decide (c = '_')) = true := by
        simp only [Char.isAlphanum, Bool.or_eq_true] at isStart ⊢
        exact isStart.imp Or.inl id
      refine ⟨List.cons_ne_nil _ _, ?_, fun rest => ?_⟩
      · intro d member
        rcases List.mem_cons.mp member with rfl | inRest
        · exact identifier_char isPart
        · exact identifier_char (areParts d inRest)
      · exact ends_cons.mpr (identifier_start isStart)

end Words

section Lines

variable {funcNodeMap : FuncNodeMap}

/-- What follows a word in a line starts with a space. -/
theorem ends_spaced (words : List Word) :
    Ends Char.isDigit (spaced words) ∧
      Ends (fun c => !isSpace c) (spaced words) := by
  cases words with
  | nil =>
      exact ⟨ends_nil _, ends_nil _⟩
  | cons word rest =>
      exact ⟨ends_cons.mpr (by decide), ends_cons.mpr (by decide)⟩

/-- A word gives the neighbour that it stands for. -/
theorem readNeighbour_word
    {word : Word}
    (isValid : word.IsValid)
    (words : List Word) :
    readNeighbour funcNodeMap (opened (word.text ++ spaced words)) =
      ((word.resolve funcNodeMap).map (fun dst => (dst, 0)),
        past (spaced words)) := by
  obtain ⟨endsNumber, endsWord⟩ := ends_spaced words
  cases word with
  | id n =>
      obtain ⟨c, more, text, isDigit⟩ := decimal_head isValid.1
      have peeked :
          peek (opened (decimal n ++ spaced words)) =
            (some c, opened (decimal n ++ spaced words)) := by
        rw [text]
        rfl
      have isInt : -2 ^ 31 ≤ n ∧ n < 2 ^ 31 :=
        ⟨Int.le_trans (by decide) isValid.1, isValid.2⟩
      have read := readInt_decimal (List.forall_mem_nil _) isInt endsNumber
      refine (run_bind peeked _).trans ?_
      rw [Option.any_some, if_pos isDigit]
      exact run_bind read _
  | name cs =>
      obtain ⟨notEmpty, noSpace, startsName⟩ := identifier_spec isValid
      have read :=
        readWord_token (List.forall_mem_nil _) notEmpty noSpace endsWord
      cases cs with
      | nil =>
          exact absurd rfl notEmpty
      | cons c more =>
          have notDigit : c.isDigit = false := ends_cons.mp (startsName [])
          refine (run_bind (peek_opened c (more ++ spaced words)) _).trans ?_
          rw [Option.any_some, notDigit, if_neg Bool.false_ne_true]
          exact run_bind read _

/-- A round of the loop over a line. -/
theorem readNeighbours_round
    {text : List Char}
    {nbhr : Option (Int × Nat)}
    {between after : TextStream}
    {c : Option Char}
    (read : readNeighbour funcNodeMap (opened text) = (nbhr, between))
    (got : TextStream.get between = (c, after))
    (rounds : Nat)
    (nbhrs : List (Int × Nat)) :
    readNeighbours funcNodeMap (rounds + 1) nbhrs (opened text) =
      readNeighbours funcNodeMap rounds (nbhrs ++ nbhr.toList) after := by
  refine (run_bind (ok_opened text) _).trans ?_
  rw [if_pos rfl]
  refine (run_bind read _).trans ?_
  exact run_bind got _

/-- The words of a line give their neighbours in order. -/
theorem readNeighbours_words
    {word : Word}
    {words : List Word}
    (areValid : ∀ other ∈ word :: words, other.IsValid)
    (nbhrs : List (Int × Nat))
    {rounds : Nat}
    (enough : words.length + 1 < rounds) :
    (readNeighbours funcNodeMap rounds nbhrs
        (opened (word.text ++ spaced words))).1 =
      nbhrs ++
        ((word :: words).filterMap (Word.resolve funcNodeMap)).map
          fun dst => (dst, 0) := by
  induction words generalizing word nbhrs rounds with
  | nil =>
      have isValid := areValid word List.mem_cons_self
      match rounds, enough with
      | rounds + 2, _ =>
          have read :
              readNeighbour funcNodeMap (opened (word.text ++ spaced [])) =
                _ :=
            readNeighbour_word isValid []
          rw [readNeighbours_round read get_past_nil]
          show nbhrs ++ _ = _
          cases resolved : word.resolve funcNodeMap with
          | none =>
              simp [resolved]
          | some dst =>
              simp [resolved]
  | cons next words inductionHypothesis =>
      obtain ⟨isValid, areLater⟩ := List.forall_mem_cons.mp areValid
      match rounds, enough with
      | rounds + 1, enough =>
          have read :
              readNeighbour funcNodeMap
                  (opened (word.text ++ spaced (next :: words))) =
                _ :=
            readNeighbour_word isValid (next :: words)
          have got :
              TextStream.get (past (spaced (next :: words))) =
                (some ' ', opened (next.text ++ spaced words)) :=
            rfl
          rw [readNeighbours_round read got,
            inductionHypothesis areLater _ (Nat.lt_of_succ_lt_succ enough)]
          cases resolved : word.resolve funcNodeMap with
          | none =>
              simp [resolved]
          | some dst =>
              simp [resolved]

/-- The neighbours that words stand for. -/
def edges
    (funcNodeMap : FuncNodeMap)
    (words : List Word) : List (Int × Nat) :=
  (words.filterMap (Word.resolve funcNodeMap)).map fun dst => (dst, 0)

/-- A line adds the neighbours of its words to its node. -/
def addEdges
    (funcNodeMap : FuncNodeMap)
    (graph : Graph)
    (sid : Int)
    (words : List Word) : Graph :=
  let graph := resize graph sid.toNat
  graph.set sid.toNat
    (graph.getD sid.toNat [] ++ edges funcNodeMap words)

/-- Whether a number is an id that a table of nodes has room for. -/
def IsNode (sid : Int) : Prop :=
  0 ≤ sid ∧ sid < 2 ^ 31 - 1

instance (sid : Int) : Decidable (IsNode sid) :=
  inferInstanceAs (Decidable (_ ∧ _))

theorem readLine_spaced
    {sid : Int}
    (isNode : IsNode sid)
    {words : List Word}
    (areValid : ∀ word ∈ words, word.IsValid)
    (graph : Graph) :
    readLine funcNodeMap graph (decimal sid ++ spaced words) =
      some (addEdges funcNodeMap graph sid words) := by
  have isInt : -2 ^ 31 ≤ sid ∧ sid < 2 ^ 31 := by
    unfold IsNode at isNode
    omega
  have read :
      readInt (opened (decimal sid ++ spaced words)) =
        (some sid, past (spaced words)) :=
    readInt_decimal (List.forall_mem_nil _) isInt (ends_spaced words).1
  have notEmpty : 0 < (decimal sid).length :=
    List.length_pos_iff.mpr (decimal_ne_nil sid)
  have entered (length : Nat) :
      extendGraph funcNodeMap graph length
          (opened (decimal sid ++ spaced words)) =
        (do
          let _ ← TextStream.get
          let graph := resize graph sid.toNat
          let nbhrs ←
            readNeighbours funcNodeMap (length + 1)
              (graph.getD sid.toNat [])
          return some (graph.set sid.toNat nbhrs) : Reader (Option Graph))
          (past (spaced words)) := by
    refine (run_bind read _).trans ?_
    simp only [if_pos isNode.1]
  rw [readLine, entered]
  cases words with
  | nil =>
      simp only [spaced, List.flatMap_nil, addEdges, edges,
        List.filterMap_nil, List.map_nil, List.append_nil]
      rfl
  | cons word words =>
      have got :
          TextStream.get (past (spaced (word :: words))) =
            (some ' ', opened (word.text ++ spaced words)) :=
        rfl
      have enough :
          words.length + 1 <
            (decimal sid ++ spaced (word :: words)).length + 1 := by
        have fits : (word :: words).length ≤ (spaced (word :: words)).length :=
          length_le_length_flatMap (fun _ => List.cons_ne_nil _ _) _
        rw [List.length_cons] at fits
        rw [List.length_append]
        omega
      rw [run_bind got]
      exact congrArg
        (fun nbhrs => some ((resize graph sid.toNat).set sid.toNat nbhrs))
        (readNeighbours_words areValid _ enough)

end Lines

section Graphs

variable
  {funcNodeMap : FuncNodeMap}
  {graph : Graph}

theorem neighbours_resize
    (graph : Graph)
    (src : Nat)
    (sid : Int) :
    neighbours (resize graph src) sid = neighbours graph sid := by
  simp only [neighbours, resize, List.getD_eq_getElem?_getD]
  by_cases inRange : sid.toNat < graph.length
  · rw [List.getElem?_append_left inRange]
  · rw [List.getElem?_append_right (Nat.le_of_not_lt inRange),
      List.getElem?_eq_none (Nat.le_of_not_lt inRange),
      List.getElem?_replicate]
    split
    · rfl
    · rfl

theorem neighbours_addEdges
    (words : List Word)
    {sid other : Int}
    (nonnegative : 0 ≤ sid)
    (otherNonnegative : 0 ≤ other) :
    neighbours (addEdges funcNodeMap graph sid words) other =
      if other = sid then
        neighbours graph sid ++ edges funcNodeMap words
      else
        neighbours graph other := by
  have kept := neighbours_resize graph sid.toNat
  have hasRoom : sid.toNat < (resize graph sid.toNat).length := by
    rw [resize, List.length_append, List.length_replicate]
    omega
  by_cases same : other = sid
  · subst same
    rw [if_pos rfl, ← kept]
    simp [neighbours, addEdges, List.getD_eq_getElem?_getD, hasRoom]
  · have different : sid.toNat ≠ other.toNat := by omega
    rw [if_neg same, ← kept]
    simp [neighbours, addEdges, List.getD_eq_getElem?_getD, different]

/-- A statement with the words of its line. -/
abbrev Line : Type :=
  Int × List Word

/-- A line as it stands in the file. -/
def Line.text (line : Line) : List Char :=
  decimal line.1 ++ spaced line.2

/-- The id and the words of a line are valid. -/
def Line.IsValid (line : Line) : Prop :=
  IsNode line.1 ∧ ∀ word ∈ line.2, word.IsValid

theorem Word.ne_newline
    {word : Word}
    (isValid : word.IsValid)
    {c : Char}
    (member : c ∈ word.text) :
    c ≠ '\n' := by
  have noSpace : isSpace c = false := by
    cases word with
    | id n =>
        obtain ⟨n, rfl⟩ := Int.eq_ofNat_of_zero_le isValid.1
        exact not_isSpace_of_isDigit (isDigit_of_mem_decimal member)
    | name cs =>
        exact (identifier_spec isValid).2.1 c member
  rintro rfl
  exact absurd noSpace (by decide)

theorem Line.ne_newline
    {line : Line}
    (isValid : line.IsValid) :
    ∀ c ∈ line.text, c ≠ '\n' := by
  intro c member
  rcases List.mem_append.mp member with inId | inWords
  · have isId : (Word.id line.1).IsValid := by
      have isNode := isValid.1
      unfold IsNode at isNode
      exact ⟨isNode.1, by omega⟩
    exact Word.ne_newline isId inId
  · obtain ⟨word, isWord, isPart⟩ := List.mem_flatMap.mp inWords
    rcases List.mem_cons.mp isPart with rfl | inWord
    · decide
    · exact Word.ne_newline (isValid.2 word isWord) inWord

/-- The lines of the file add their neighbours one after the other. -/
theorem readLines_texts
    {lines : List Line}
    (areValid : ∀ line ∈ lines, line.IsValid)
    (graph : Graph)
    {rounds : Nat}
    (enough : lines.length < rounds) :
    (readLines funcNodeMap rounds graph
        (opened (lines.flatMap fun line => line.text ++ ['\n']))).1 =
      some
        (lines.foldl
          (fun graph line => addEdges funcNodeMap graph line.1 line.2)
          graph) := by
  induction lines generalizing graph rounds with
  | nil =>
      match rounds, enough with
      | rounds + 1, _ =>
          rfl
  | cons line lines inductionHypothesis =>
      obtain ⟨isValid, areLater⟩ := List.forall_mem_cons.mp areValid
      match rounds, enough with
      | rounds + 1, enough =>
          have text :
              ((line :: lines).flatMap fun line => line.text ++ ['\n']) =
                line.text ++
                  '\n' :: lines.flatMap fun line => line.text ++ ['\n'] := by
            simp
          have taken :=
            getLine_line (Line.ne_newline isValid)
              (lines.flatMap fun line => line.text ++ ['\n'])
          have read : readLine funcNodeMap graph line.text = _ :=
            readLine_spaced isValid.1 isValid.2 graph
          have later :=
            inductionHypothesis areLater
              (addEdges funcNodeMap graph line.1 line.2)
              (Nat.lt_of_succ_lt_succ enough)
          rw [text, readLines, run_bind taken, run_bind (ok_opened _),
            if_pos rfl, Option.getD_some, read]
          exact later

/-- Where the ids are distinct, a node has the neighbours of its own line. -/
theorem neighbours_foldl
    {lines : List Line}
    (areValid : ∀ line ∈ lines, line.IsValid)
    (distinct : (lines.map Prod.fst).Nodup)
    (graph : Graph)
    (sid : Int)
    (nonnegative : 0 ≤ sid) :
    neighbours
        (lines.foldl
          (fun graph line => addEdges funcNodeMap graph line.1 line.2) graph)
        sid =
      neighbours graph sid ++
        (((lines.find? fun line => decide (line.1 = sid)).map
          fun line => edges funcNodeMap line.2).getD []) := by
  induction lines generalizing graph with
  | nil =>
      exact (List.append_nil _).symm
  | cons line lines inductionHypothesis =>
      obtain ⟨isValid, areLater⟩ := List.forall_mem_cons.mp areValid
      obtain ⟨fresh, distinctLater⟩ := List.nodup_cons.mp distinct
      rw [List.foldl_cons, inductionHypothesis areLater distinctLater,
        neighbours_addEdges line.2 isValid.1.1 nonnegative]
      by_cases same : sid = line.1
      · subst same
        have noOther :
            lines.find? (fun other => decide (other.1 = line.1)) = none := by
          refine List.find?_eq_none.mpr fun other isOther equal => fresh ?_
          rw [← of_decide_eq_true equal]
          exact List.mem_map_of_mem isOther
        rw [if_pos rfl, noOther, List.find?_cons_of_pos (by simp)]
        exact List.append_nil _
      · rw [if_neg same,
          List.find?_cons_of_neg (by simpa using fun equal => same equal.symm)]

end Graphs

section Names

/-- An entry of the file `cfg_func_map`. -/
def entryText (entry : List Char × Int) : List Char :=
  entry.1 ++ ' ' :: (decimal entry.2 ++ ['\n'])

/-- Whether an entry has an identifier and an id. -/
def IsEntry (entry : List Char × Int) : Prop :=
  isIdentifier entry.1 = true ∧ IsNode entry.2

/-- A round of the loop reads an entry. -/
theorem readFuncNodeMap_entry
    {entry : List Char × Int}
    (isEntry : IsEntry entry)
    {spaces : List Char}
    (areSpaces : ∀ c ∈ spaces, isSpace c = true)
    (rest : List Char)
    (rounds : Nat)
    (funcNodeMap : FuncNodeMap) :
    readFuncNodeMap (rounds + 1) funcNodeMap
        (opened (spaces ++ (entryText entry ++ rest))) =
      readFuncNodeMap rounds (entry :: funcNodeMap)
        (opened ('\n' :: rest)) := by
  obtain ⟨notEmpty, noSpace, _⟩ := identifier_spec isEntry.1
  have oneSpace : ∀ c ∈ [' '], isSpace c = true :=
    List.forall_mem_singleton.mpr rfl
  have isInt : -2 ^ 31 ≤ entry.2 ∧ entry.2 < 2 ^ 31 := by
    have isNode := isEntry.2
    unfold IsNode at isNode
    omega
  have text :
      entryText entry ++ rest =
        entry.1 ++ ([' '] ++ (decimal entry.2 ++ '\n' :: rest)) := by
    simp [entryText]
  have func :
      readWord
          (opened
            (spaces ++
              (entry.1 ++ ([' '] ++ (decimal entry.2 ++ '\n' :: rest))))) =
        _ :=
    readWord_token areSpaces notEmpty noSpace (ends_cons.mpr (by decide))
  have sid :
      readInt (opened ([' '] ++ (decimal entry.2 ++ '\n' :: rest))) = _ :=
    readInt_decimal oneSpace isInt (ends_cons.mpr (by decide))
  rw [text, readFuncNodeMap, run_bind func]
  exact run_bind sid _

/-- The entries of the file are read; the last one comes first. -/
theorem readFuncNodeMap_texts
    {entries : List (List Char × Int)}
    (areEntries : ∀ entry ∈ entries, IsEntry entry)
    {spaces : List Char}
    (areSpaces : ∀ c ∈ spaces, isSpace c = true)
    (funcNodeMap : FuncNodeMap)
    {rounds : Nat}
    (enough : entries.length < rounds) :
    (readFuncNodeMap rounds funcNodeMap
        (opened (spaces ++ entries.flatMap entryText))).1 =
      entries.reverse ++ funcNodeMap := by
  have newline : ∀ c ∈ ['\n'], isSpace c = true :=
    List.forall_mem_singleton.mpr rfl
  induction entries generalizing spaces funcNodeMap rounds with
  | nil =>
      match rounds, enough with
      | rounds + 1, _ =>
          have noWord :
              readWord (opened (spaces ++ [].flatMap entryText)) =
                (none, { rest := [], eof := true, failed := true }) := by
            rw [List.flatMap_nil, List.append_nil]
            exact tryExtract_spaces areSpaces
          rw [readFuncNodeMap, run_bind noWord]
          rfl
  | cons entry rest inductionHypothesis =>
      obtain ⟨isEntry, areLater⟩ := List.forall_mem_cons.mp areEntries
      match rounds, enough with
      | rounds + 1, enough =>
          rw [List.flatMap_cons, readFuncNodeMap_entry isEntry areSpaces,
            List.reverse_cons, List.append_assoc]
          exact
            inductionHypothesis areLater newline (entry :: funcNodeMap)
              (Nat.lt_of_succ_lt_succ enough)

end Names

end CfgFiles

end Compi
