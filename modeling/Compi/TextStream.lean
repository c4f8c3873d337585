import Mathlib.Algebra.Ring.Int.Defs
import Mathlib.Algebra.Ring.Nat
import Mathlib.Data.Int.Basic
import Mathlib.Data.List.TakeWhile

/-!
# Text streams

A stream from which numbers, words and lines are extracted.  What an
extraction leaves in the flags decides whether the next one is tried at all;
reaching the end sets `eofbit` even where the extraction succeeds.
-/

namespace Compi

/-- The characters that are left, and the flags `eofbit` and `failbit`. -/
structure TextStream where
  rest : List Char
  eof : Bool
  failed : Bool
  deriving DecidableEq

namespace TextStream

/-- A computation that extracts from a stream. -/
abbrev Reader (α : Type) : Type :=
  StateM TextStream α

/-- A stream in front of a text. -/
def opened (text : List Char) : TextStream where
  rest := text
  eof := false
  failed := false

section Extraction

/-- `isspace`. -/
def isSpace (c : Char) : Bool :=
  c.toNat = 32 || (9 ≤ c.toNat && c.toNat ≤ 13)

/-- `operator bool`. -/
def ok : Reader Bool := fun stream =>
  (!stream.failed, stream)

/-- `sentry`: whether an extraction is tried. -/
def enter (skipsSpaces : Bool) : Reader Bool := fun stream =>
  if stream.eof || stream.failed then
    (false, { stream with failed := true })
  else if skipsSpaces then
    let rest := stream.rest.dropWhile isSpace
    if rest.isEmpty then
      (false, { rest := [], eof := true, failed := true })
    else
      (true, opened rest)
  else
    (true, stream)

/-- The number that digits stand for, and what follows them. -/
def takeDigits (text : List Char) : Option Nat × List Char :=
  let digits := text.takeWhile Char.isDigit
  (if digits.isEmpty then none else some (Nat.ofDigitChars 10 digits 0),
    text.dropWhile Char.isDigit)

/-- The number in front of a text, and what follows it. -/
def takeNumber (text : List Char) : Option Int × List Char :=
  match text with
  | [] => (none, [])
  | c :: rest =>
      if c = '-' then
        ((takeDigits rest).1.map fun n => -(n : Int), (takeDigits rest).2)
      else if c = '+' then
        ((takeDigits rest).1.map fun n => (n : Int), (takeDigits rest).2)
      else
        ((takeDigits text).1.map fun n => (n : Int), (takeDigits text).2)

/-- Extract if the stream is ready for it; nothing is stored otherwise. -/
def tryExtract
    {α : Type}
    (skipsSpaces : Bool)
    (extract : Reader (Option α)) : Reader (Option α) := do
  if ← enter skipsSpaces then
    extract
  else
    return none

/--
Take a number of a type, given by the numbers that it has and by what is
stored for others.
-/
def extractNumber
    (fits : Int → Bool)
    (stored : Int → Int) : Reader (Option Int) := fun stream =>
  match takeNumber stream.rest with
  | (none, rest) =>
      (some 0, { rest := rest, eof := rest.isEmpty, failed := true })
  | (some number, rest) =>
      (some (stored number),
        { rest := rest, eof := rest.isEmpty, failed := !fits number })

/-- Extract an `int`. -/
def readInt : Reader (Option Int) :=
  tryExtract true
    (extractNumber (fun n => decide (-2 ^ 31 ≤ n ∧ n < 2 ^ 31))
      fun n => max (-2 ^ 31) (min n (2 ^ 31 - 1)))

/-- Extract an `unsigned int`. -/
def readUnsigned : Reader (Option Int) :=
  tryExtract true
    (extractNumber (fun n => decide (n.natAbs < 2 ^ 32))
      fun n => if n.natAbs < 2 ^ 32 then n % 2 ^ 32 else 2 ^ 32 - 1)

/-- Extract a `long long`. -/
def readLong : Reader (Option Int) :=
  tryExtract true
    (extractNumber (fun n => decide (-2 ^ 63 ≤ n ∧ n < 2 ^ 63))
      fun n => max (-2 ^ 63) (min n (2 ^ 63 - 1)))

/-- Extract a `size_t`. -/
def readSize : Reader (Option Int) :=
  tryExtract true
    (extractNumber (fun n => decide (n.natAbs < 2 ^ 64))
      fun n => if n.natAbs < 2 ^ 64 then n % 2 ^ 64 else 2 ^ 64 - 1)

/-- Take the characters up to a space. -/
def extractWord : Reader (Option (List Char)) := fun stream =>
  let rest := stream.rest.dropWhile fun c => !isSpace c
  (some (stream.rest.takeWhile fun c => !isSpace c),
    { rest := rest, eof := rest.isEmpty, failed := false })

/-- Extract a word. -/
def readWord : Reader (Option (List Char)) :=
  tryExtract true extractWord

/-- `get`. -/
def get : Reader (Option Char) :=
  tryExtract false fun stream =>
    match stream.rest with
    | [] => (none, { rest := [], eof := true, failed := true })
    | c :: rest => (some c, { stream with rest := rest })

/-- `peek`. -/
def peek : Reader (Option Char) :=
  tryExtract false fun stream =>
    match stream.rest with
    | [] => (none, { stream with eof := true })
    | c :: _ => (some c, stream)

/-- Take the characters up to the end of the line, and this end. -/
def extractLine : Reader (Option (List Char)) := fun stream =>
  let line := stream.rest.takeWhile fun c => c != '\n'
  match stream.rest.dropWhile fun c => c != '\n' with
  | [] => (some line, { rest := [], eof := true, failed := line.isEmpty })
  | _ :: rest => (some line, { stream with rest := rest })

/-- `getline`. -/
def getLine : Reader (Option (List Char)) :=
  tryExtract false extractLine

end Extraction

section Printing

/-- A number as `%d` prints it. -/
def decimal : Int → List Char
  | .ofNat n => Nat.toDigits 10 n
  | .negSucc n => '-' :: Nat.toDigits 10 (n + 1)

theorem isDigit_of_mem_decimal
    {n : Nat}
    {c : Char}
    (member : c ∈ decimal n) :
    c.isDigit = true :=
  Nat.isDigit_of_mem_toDigits (by decide) (by decide) member

theorem decimal_ne_nil (n : Int) : decimal n ≠ [] := by
  cases n with
  | ofNat n => exact Nat.toDigits_ne_nil
  | negSucc n => exact List.cons_ne_nil _ _

/-- A number that is not negative starts with a digit. -/
theorem decimal_head
    {n : Int}
    (nonnegative : 0 ≤ n) :
    ∃ c more, decimal n = c :: more ∧ c.isDigit = true := by
  obtain ⟨n, rfl⟩ := Int.eq_ofNat_of_zero_le nonnegative
  cases digits : decimal n with
  | nil =>
      exact absurd digits (decimal_ne_nil n)
  | cons c more =>
      refine ⟨c, more, rfl, isDigit_of_mem_decimal (n := n) ?_⟩
      rw [digits]
      exact List.mem_cons_self

/-- There are at most as many texts as characters, if no text is empty. -/
theorem length_le_length_flatMap
    {α : Type}
    {text : α → List Char}
    (notEmpty : ∀ x, text x ≠ [])
    (items : List α) :
    items.length ≤ (items.flatMap text).length := by
  induction items with
  | nil =>
      exact Nat.le_refl 0
  | cons item rest inductionHypothesis =>
      have positive := List.length_pos_iff.mpr (notEmpty item)
      rw [List.flatMap_cons, List.length_append, List.length_cons]
      omega

end Printing

section Lemmas

/-- A text does not go on with a character of a kind. -/
def Ends (kind : Char → Bool) (rest : List Char) : Prop :=
  ∀ c ∈ rest.head?, kind c = false

@[simp] theorem ends_nil (kind : Char → Bool) : Ends kind [] := by
  intro c member
  cases member

@[simp] theorem ends_cons
    {kind : Char → Bool}
    {c : Char}
    {rest : List Char} :
    Ends kind (c :: rest) ↔ kind c = false := by
  simp [Ends]

variable {kind : Char → Bool} {token rest : List Char}

theorem takeWhile_token
    (inside : ∀ c ∈ token, kind c = true)
    (ends : Ends kind rest) :
    (token ++ rest).takeWhile kind = token := by
  rw [List.takeWhile_append_of_pos inside]
  cases rest with
  | nil =>
      simp
  | cons c rest =>
      simp [ends_cons.mp ends]

theorem dropWhile_token
    (inside : ∀ c ∈ token, kind c = true)
    (ends : Ends kind rest) :
    (token ++ rest).dropWhile kind = rest := by
  rw [List.dropWhile_append_of_pos inside]
  cases rest with
  | nil =>
      rfl
  | cons c rest =>
      simp [ends_cons.mp ends]

theorem takeDigits_toDigits
    (n : Nat)
    (ends : Ends Char.isDigit rest) :
    takeDigits (Nat.toDigits 10 n ++ rest) = (some n, rest) := by
  have inside : ∀ c ∈ Nat.toDigits 10 n, c.isDigit = true :=
    fun c member => Nat.isDigit_of_mem_toDigits (by decide) (by decide) member
  have notEmpty : (Nat.toDigits 10 n).isEmpty = false :=
    List.isEmpty_eq_false_iff.mpr Nat.toDigits_ne_nil
  simp [takeDigits, takeWhile_token inside ends, dropWhile_token inside ends,
    notEmpty]

/-- A printed number is taken back. -/
theorem takeNumber_decimal
    (n : Int)
    (ends : Ends Char.isDigit rest) :
    takeNumber (decimal n ++ rest) = (some n, rest) := by
  cases n with
  | negSucc n =>
      simp only [decimal, List.cons_append, takeNumber, if_true,
        takeDigits_toDigits (n + 1) ends]
      rfl
  | ofNat n =>
      have taken := takeDigits_toDigits n ends
      obtain ⟨c, more, digits, isDigit⟩ := decimal_head (Int.natCast_nonneg n)
      have notMinus : c ≠ '-' := by
        rintro rfl
        exact absurd isDigit (by decide)
      have notPlus : c ≠ '+' := by
        rintro rfl
        exact absurd isDigit (by decide)
      change decimal (Int.ofNat n) = c :: more at digits
      change takeDigits (decimal (Int.ofNat n) ++ rest) = _ at taken
      rw [digits] at taken ⊢
      simp only [List.cons_append, takeNumber, if_neg notMinus,
        if_neg notPlus]
      rw [← List.cons_append, taken]
      rfl

theorem not_isSpace_of_isDigit
    {c : Char}
    (isDigit : c.isDigit = true) :
    isSpace c = false := by
  simp only [Char.isDigit, Bool.and_eq_true, decide_eq_true_eq, ge_iff_le,
    UInt32.le_iff_toNat_le] at isDigit
  change 48 ≤ c.toNat ∧ c.toNat ≤ 57 at isDigit
  simp only [isSpace, Bool.or_eq_false_iff, Bool.and_eq_false_iff,
    decide_eq_false_iff_not]
  omega

/-- A printed number does not start with a space. -/
theorem ends_decimal (n : Int) : Ends isSpace (decimal n ++ rest) := by
  cases n with
  | negSucc n =>
      exact ends_cons.mpr (by decide)
  | ofNat n =>
      obtain ⟨c, more, digits, isDigit⟩ := decimal_head (Int.natCast_nonneg n)
      change decimal (Int.ofNat n) = c :: more at digits
      rw [digits]
      exact ends_cons.mpr (not_isSpace_of_isDigit isDigit)

/-- What follows a computation goes on from where it has left the stream. -/
theorem run_bind
    {α β : Type}
    {reader : Reader α}
    {stream after : TextStream}
    {value : α}
    (ran : reader stream = (value, after))
    (next : α → Reader β) :
    (reader >>= next) stream = next value after := by
  show next (reader stream).1 (reader stream).2 = next value after
  rw [ran]

/-- A stream from which the text before has been extracted. -/
def past (rest : List Char) : TextStream where
  rest := rest
  eof := rest.isEmpty
  failed := false

/-- An extraction is tried where something follows the spaces. -/
theorem enter_text
    {spaces text : List Char}
    (areSpaces : ∀ c ∈ spaces, isSpace c = true)
    (notEmpty : text ≠ [])
    (ends : Ends isSpace text) :
    enter true (opened (spaces ++ text)) = (true, opened text) := by
  have skipped : (spaces ++ text).dropWhile isSpace = text :=
    dropWhile_token areSpaces ends
  have isText : text.isEmpty = false := List.isEmpty_eq_false_iff.mpr notEmpty
  simp [enter, opened, skipped, isText]

/-- No extraction is tried where only spaces are left. -/
theorem enter_spaces
    {spaces : List Char}
    (areSpaces : ∀ c ∈ spaces, isSpace c = true) :
    enter true (opened spaces) =
      (false, { rest := [], eof := true, failed := true }) := by
  have skipped : spaces.dropWhile isSpace = [] :=
    List.dropWhile_eq_nil_iff.mpr areSpaces
  simp [enter, opened, skipped]

section Extractions

variable
  {α : Type}
  {skipsSpaces : Bool}
  {extract : Reader (Option α)}
  {stream after : TextStream}

theorem tryExtract_entered
    (entered : enter skipsSpaces stream = (true, after)) :
    tryExtract skipsSpaces extract stream = extract after :=
  run_bind entered _

theorem tryExtract_refused
    (refused : enter skipsSpaces stream = (false, after)) :
    tryExtract skipsSpaces extract stream = (none, after) :=
  run_bind refused _

variable {spaces : List Char}

/-- Where only spaces are left, nothing is extracted. -/
theorem tryExtract_spaces (areSpaces : ∀ c ∈ spaces, isSpace c = true) :
    tryExtract true extract (opened spaces) =
      (none, { rest := [], eof := true, failed := true }) :=
  tryExtract_refused (enter_spaces areSpaces)

/-- A printed number is extracted. -/
theorem tryExtract_decimal
    {fits : Int → Bool}
    {stored : Int → Int}
    (areSpaces : ∀ c ∈ spaces, isSpace c = true)
    {n : Int}
    (isFit : fits n = true)
    (ends : Ends Char.isDigit rest) :
    tryExtract true (extractNumber fits stored)
        (opened (spaces ++ (decimal n ++ rest))) =
      (some (stored n), past rest) := by
  have notEmpty : decimal n ++ rest ≠ [] :=
    List.append_ne_nil_of_left_ne_nil (decimal_ne_nil n) rest
  rw [tryExtract_entered (enter_text areSpaces notEmpty (ends_decimal n))]
  simp [extractNumber, opened, takeNumber_decimal n ends, isFit, past]

/-- A printed `int` is extracted. -/
theorem readInt_decimal
    (areSpaces : ∀ c ∈ spaces, isSpace c = true)
    {n : Int}
    (isInt : -2 ^ 31 ≤ n ∧ n < 2 ^ 31)
    (ends : Ends Char.isDigit rest) :
    readInt (opened (spaces ++ (decimal n ++ rest))) =
      (some n, past rest) := by
  have stored : max (-2 ^ 31) (min n (2 ^ 31 - 1)) = n := by omega
  rw [readInt, tryExtract_decimal areSpaces (decide_eq_true isInt) ends,
    stored]

/-- A printed `unsigned int` is extracted. -/
theorem readUnsigned_decimal
    (areSpaces : ∀ c ∈ spaces, isSpace c = true)
    {n : Int}
    (isUnsigned : 0 ≤ n ∧ n < 2 ^ 32)
    (ends : Ends Char.isDigit rest) :
    readUnsigned (opened (spaces ++ (decimal n ++ rest))) =
      (some n, past rest) := by
  have small : n.natAbs < 2 ^ 32 := by omega
  have stored :
      (if n.natAbs < 2 ^ 32 then n % 2 ^ 32 else 2 ^ 32 - 1) = n := by
    rw [if_pos small]
    omega
  rw [readUnsigned, tryExtract_decimal areSpaces (decide_eq_true small) ends,
    stored]

/-- A word is extracted. -/
theorem readWord_token
    (areSpaces : ∀ c ∈ spaces, isSpace c = true)
    (notEmpty : token ≠ [])
    (noSpace : ∀ c ∈ token, isSpace c = false)
    (ends : Ends (fun c => !isSpace c) rest) :
    readWord (opened (spaces ++ (token ++ rest))) =
      (some token, past rest) := by
  have startsToken : Ends isSpace (token ++ rest) := by
    cases token with
    | nil =>
        exact absurd rfl notEmpty
    | cons c token =>
        exact ends_cons.mpr (noSpace c List.mem_cons_self)
  have inside : ∀ c ∈ token, (!isSpace c) = true := by
    intro c member
    rw [noSpace c member]
    rfl
  have isText : token ++ rest ≠ [] :=
    List.append_ne_nil_of_left_ne_nil notEmpty rest
  rw [readWord, tryExtract_entered (enter_text areSpaces isText startsToken)]
  simp [extractWord, opened, past, takeWhile_token inside ends,
    dropWhile_token inside ends]

/-- After the last token there is nothing to get. -/
theorem get_past_nil :
    get (past []) = (none, { rest := [], eof := true, failed := true }) :=
  rfl

@[simp] theorem peek_opened (c : Char) (rest : List Char) :
    peek (opened (c :: rest)) = (some c, opened (c :: rest)) :=
  rfl

@[simp] theorem ok_opened (text : List Char) :
    ok (opened text) = (true, opened text) :=
  rfl

/-- A line is taken with its end. -/
theorem getLine_line
    {line : List Char}
    (oneLine : ∀ c ∈ line, c ≠ '\n')
    (rest : List Char) :
    getLine (opened (line ++ '\n' :: rest)) = (some line, opened rest) := by
  have inside : ∀ c ∈ line, (c != '\n') = true :=
    fun c member => bne_iff_ne.mpr (oneLine c member)
  have ends : Ends (fun c => c != '\n') ('\n' :: rest) :=
    ends_cons.mpr rfl
  have entered :
      enter false (opened (line ++ '\n' :: rest)) =
        (true, opened (line ++ '\n' :: rest)) :=
    rfl
  rw [getLine, tryExtract_entered entered]
  simp [extractLine, opened, takeWhile_token inside ends,
    dropWhile_token inside ends]

end Extractions

end Lemmas

section Lines

/-- `while (in >> value)`; the loop takes a bound on the rounds. -/
def readWhile (reader : Reader (Option Int)) : Nat → Reader (List Int)
  | 0 => return []
  | rounds + 1 => do
      let value ← reader
      let isOk ← ok
      match value, isOk with
      | some value, true => do
          let rest ← readWhile reader rounds
          return value :: rest
      | _, _ => return []

/-- Every round takes a character. -/
def readNumbers (reader : Reader (Option Int)) (text : List Char) : List Int :=
  (readWhile reader (text.length + 1) (opened text)).1

/-- Numbers, each on a line of its own. -/
def printLines (numbers : List Int) : List Char :=
  numbers.flatMap fun n => decimal n ++ ['\n']

/-- A reader takes printed numbers of a kind. -/
def Extracts (reader : Reader (Option Int)) (fits : Int → Prop) : Prop :=
  ∀ (spaces rest : List Char) (n : Int),
    (∀ c ∈ spaces, isSpace c = true) → fits n → Ends Char.isDigit rest →
      reader (opened (spaces ++ (decimal n ++ rest))) = (some n, past rest)

theorem extracts_readLong :
    Extracts readLong fun n => -2 ^ 63 ≤ n ∧ n < 2 ^ 63 := by
  intro spaces rest n areSpaces isLong ends
  have stored : max (-2 ^ 63) (min n (2 ^ 63 - 1)) = n := by omega
  rw [readLong, tryExtract_decimal areSpaces (decide_eq_true isLong) ends,
    stored]

theorem extracts_readSize :
    Extracts readSize fun n => 0 ≤ n ∧ n < 2 ^ 64 := by
  intro spaces rest n areSpaces isSize ends
  have small : n.natAbs < 2 ^ 64 := by omega
  have stored :
      (if n.natAbs < 2 ^ 64 then n % 2 ^ 64 else 2 ^ 64 - 1) = n := by
    rw [if_pos small]
    omega
  rw [readSize, tryExtract_decimal areSpaces (decide_eq_true small) ends,
    stored]

theorem extracts_readInt :
    Extracts readInt fun n => -2 ^ 31 ≤ n ∧ n < 2 ^ 31 :=
  fun _ _ _ areSpaces isInt ends => readInt_decimal areSpaces isInt ends

/-- A number alone in a file is extracted. -/
theorem Extracts.alone
    {reader : Reader (Option Int)}
    {fits : Int → Prop}
    (extracts : Extracts reader fits)
    {n : Int}
    (isFit : fits n) :
    (reader (opened (decimal n))).1 = some n := by
  have read := extracts [] [] n (List.forall_mem_nil _) isFit (ends_nil _)
  rw [List.append_nil, List.nil_append] at read
  rw [read]

variable
  {fits : Int → Prop}
  {isKind : Int → Bool}
  {stored : Int → Int}

/-- The loop reads the lines up to the end. -/
theorem readWhile_printLines
    (extracts :
      Extracts (tryExtract true (extractNumber isKind stored)) fits)
    {numbers : List Int}
    (areFit : ∀ n ∈ numbers, fits n)
    {spaces : List Char}
    (areSpaces : ∀ c ∈ spaces, isSpace c = true)
    {rounds : Nat}
    (enough : numbers.length < rounds) :
    ∃ after,
      readWhile (tryExtract true (extractNumber isKind stored)) rounds
          (opened (spaces ++ printLines numbers)) =
        (numbers, after) := by
  induction numbers generalizing spaces rounds with
  | nil =>
      cases rounds with
      | zero =>
          cases enough
      | succ rounds =>
          rw [printLines, List.flatMap_nil, List.append_nil]
          exact ⟨_, run_bind (tryExtract_spaces areSpaces) _⟩
  | cons n rest inductionHypothesis =>
      obtain ⟨isFit, laterFit⟩ := List.forall_mem_cons.mp areFit
      cases rounds with
      | zero =>
          cases enough
      | succ rounds =>
          have number :=
            extracts spaces ('\n' :: printLines rest) n areSpaces isFit
              (ends_cons.mpr rfl)
          have newline : ∀ c ∈ ['\n'], isSpace c = true :=
            List.forall_mem_singleton.mpr rfl
          obtain ⟨after, read⟩ :=
            inductionHypothesis laterFit newline
              (Nat.lt_of_succ_lt_succ enough)
          refine ⟨after, ?_⟩
          rw [printLines, List.flatMap_cons, List.append_assoc]
          have isOk :
              ok (past ('\n' :: printLines rest)) =
                (true, opened (['\n'] ++ printLines rest)) :=
            rfl
          refine (run_bind number _).trans ?_
          refine (run_bind isOk _).trans ?_
          exact run_bind read _

/-- The numbers that were printed are read back. -/
theorem readNumbers_printLines
    (extracts :
      Extracts (tryExtract true (extractNumber isKind stored)) fits)
    {numbers : List Int}
    (areFit : ∀ n ∈ numbers, fits n) :
    readNumbers (tryExtract true (extractNumber isKind stored))
        (printLines numbers) =
      numbers := by
  have notEmpty (n : Int) : decimal n ++ ['\n'] ≠ [] :=
    List.append_ne_nil_of_right_ne_nil _ (List.cons_ne_nil _ _)
  have enough :=
    Nat.lt_succ_of_le (length_le_length_flatMap notEmpty numbers)
  obtain ⟨after, read⟩ :=
    readWhile_printLines extracts areFit (List.forall_mem_nil _) enough
  rw [List.nil_append] at read
  exact congrArg Prod.fst read

end Lines

end TextStream

end Compi
