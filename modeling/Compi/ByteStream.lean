import Mathlib.Algebra.Order.Ring.Int
import Mathlib.Tactic.Positivity
import Mathlib.Tactic.Ring

/-!
# Little-endian integers over an input stream

An input stream delivers bytes until it runs dry; from then on it is failed
and delivers nothing.  A read overwrites the front of a buffer with the bytes
it gets, so that a short read leaves the rest of the old contents in place.

`Reads reader bytes value` says that, in front of anything, `reader` consumes
exactly `bytes` and returns `value`.  Encoders are proved against it by
following the structure of the reader.
-/

namespace Compi.ByteStream

/-- The low `width` bytes of an integer, least significant first. -/
def toBytes : Nat → Int → List UInt8
  | 0, _ => []
  | width + 1, value =>
      UInt8.ofNat (value % 256).toNat :: toBytes width (value / 256)

/-- The natural number with the given bytes. -/
def ofBytes : List UInt8 → Nat
  | [] => 0
  | byte :: rest => byte.toNat + 256 * ofBytes rest

@[simp] theorem length_toBytes (width : Nat) (value : Int) :
    (toBytes width value).length = width := by
  induction width generalizing value with
  | zero =>
      rfl
  | succ width inductionHypothesis =>
      simp [toBytes, inductionHypothesis]

theorem ofBytes_toBytes (width : Nat) (value : Int) :
    (ofBytes (toBytes width value) : Int) = value % 256 ^ width := by
  induction width generalizing value with
  | zero =>
      simp [toBytes, ofBytes]
  | succ width inductionHypothesis =>
      have lowByte :
          ((UInt8.ofNat (value % 256).toNat).toNat : Int) = value % 256 := by
        rw [UInt8.toNat_ofNat']
        omega
      have split :
          value % (256 * 256 ^ width) =
            value % 256 + 256 * (value / 256 % 256 ^ width) := by
        have power : (0 : Int) < 256 ^ width := by positivity
        rw [Int.emod_def, Int.emod_def value 256,
          Int.emod_def (value / 256), Int.ediv_ediv_of_nonneg (by omega)]
        ring
      rw [toBytes, ofBytes, Nat.cast_add, lowByte, Nat.cast_mul,
        inductionHypothesis, pow_succ', split]
      rfl

/-- The values of an unsigned type of `width` bytes. -/
def UnsignedRange (width value : Nat) : Prop :=
  value < 256 ^ width

/-- The values of a signed type of `width` bytes. -/
def SignedRange (width : Nat) (value : Int) : Prop :=
  -(256 ^ width : Int) ≤ value * 2 ∧ value * 2 < 256 ^ width

instance (width value : Nat) : Decidable (UnsignedRange width value) :=
  inferInstanceAs (Decidable (_ < _))

instance (width : Nat) (value : Int) : Decidable (SignedRange width value) :=
  inferInstanceAs (Decidable (_ ∧ _))

theorem ofBytes_toBytes_of_range
    {width value : Nat}
    (inRange : UnsignedRange width value) :
    ofBytes (toBytes width value) = value := by
  have decoded := ofBytes_toBytes width value
  have kept : (value : Int) % 256 ^ width = value :=
    Int.emod_eq_of_lt (by omega) (by exact_mod_cast inRange)
  omega

theorem bmod_ofBytes_toBytes
    {width : Nat}
    {value : Int}
    (inRange : SignedRange width value) :
    Int.bmod (ofBytes (toBytes width value)) (256 ^ width) = value := by
  rw [ofBytes_toBytes]
  have modulus : ((256 ^ width : Nat) : Int) = 256 ^ width := by
    norm_cast
  rw [← modulus, Int.emod_bmod]
  apply Int.bmod_eq_of_le_mul_two
  · rw [modulus]
    exact inRange.1
  · rw [modulus]
    exact inRange.2

/-- A stream of bytes that has or has not run dry. -/
structure IStream where
  rest : List UInt8
  failed : Bool
  deriving DecidableEq

/-- A computation that reads from a stream. -/
abbrev Reader (α : Type) : Type :=
  StateM IStream α

/-- The next byte, or nothing at the end of the stream. -/
def getByte : Reader (Option UInt8) := fun stream =>
  if stream.failed then
    (none, stream)
  else
    match stream.rest with
    | [] => (none, { rest := [], failed := true })
    | byte :: rest => (some byte, { rest := rest, failed := false })

/-- Read into a buffer; also return the number of bytes that were read. -/
def read (buffer : List UInt8) : Reader (List UInt8 × Nat) := fun stream =>
  if stream.failed then
    ((buffer, 0), stream)
  else
    let taken := stream.rest.take buffer.length
    ((taken ++ buffer.drop taken.length, taken.length),
      { rest := stream.rest.drop buffer.length
        failed := decide (taken.length < buffer.length) })

/-- Whether the stream is failed. -/
def fail : Reader Bool := fun stream =>
  (stream.failed, stream)

/-- Read an unsigned integer into a variable. -/
def readUnsigned (width : Nat) (old : Nat) : Reader Nat := do
  let (bytes, _) ← read (toBytes width old)
  return ofBytes bytes

/-- Read a signed integer into a variable. -/
def readSigned (width : Nat) (old : Int) : Reader Int := do
  let (bytes, _) ← read (toBytes width old)
  return Int.bmod (ofBytes bytes) (256 ^ width)

/-- The integers of a block of bytes. -/
def ofBlock
    (decode : List UInt8 → α)
    (width : Nat) : Nat → List UInt8 → List α
  | 0, _ => []
  | count + 1, bytes =>
      decode (bytes.take width) ::
        ofBlock decode width count (bytes.drop width)

/-- In front of anything, exactly these bytes are read, as this value. -/
def Reads
    (reader : Reader α)
    (bytes : List UInt8)
    (value : α) : Prop :=
  ∀ trailing,
    reader { rest := bytes ++ trailing, failed := false } =
      (value, { rest := trailing, failed := false })

section Rules

variable {α β : Type}

theorem Reads.pure (value : α) :
    Reads (Pure.pure value) [] value := by
  intro trailing
  rfl

theorem Reads.bind
    {reader : Reader α}
    {next : α → Reader β}
    {first second : List UInt8}
    {a : α}
    {b : β}
    (readsFirst : Reads reader first a)
    (readsSecond : Reads (next a) second b) :
    Reads (reader >>= next) (first ++ second) b := by
  intro trailing
  have whole := readsFirst (second ++ trailing)
  have after := readsSecond trailing
  rw [← List.append_assoc] at whole
  change
    (let read := reader ⟨first ++ second ++ trailing, false⟩
     next read.1 read.2) = _
  rw [whole]
  exact after

/-- A first step that reads nothing. -/
theorem Reads.nothing_bind
    {reader : Reader α}
    {next : α → Reader β}
    {bytes : List UInt8}
    {a : α}
    {b : β}
    (readsNothing : Reads reader [] a)
    (reads : Reads (next a) bytes b) :
    Reads (reader >>= next) bytes b :=
  readsNothing.bind reads

/-- A last step that reads nothing. -/
theorem Reads.bind_nothing
    {reader : Reader α}
    {next : α → Reader β}
    {bytes : List UInt8}
    {a : α}
    {b : β}
    (reads : Reads reader bytes a)
    (readsNothing : Reads (next a) [] b) :
    Reads (reader >>= next) bytes b := by
  have composed := reads.bind readsNothing
  rw [List.append_nil] at composed
  exact composed

theorem reads_getByte (byte : UInt8) :
    Reads getByte [byte] (some byte) := by
  intro trailing
  rfl

theorem reads_fail : Reads fail [] false := by
  intro trailing
  rfl

theorem reads_read
    {buffer bytes : List UInt8}
    (sameLength : buffer.length = bytes.length) :
    Reads (read buffer) bytes (bytes, bytes.length) := by
  intro trailing
  have filled : buffer.drop bytes.length = [] :=
    List.drop_eq_nil_of_le (le_of_eq sameLength)
  simp [read, sameLength, filled]

theorem reads_unsigned
    {width value : Nat}
    (old : Nat)
    (inRange : UnsignedRange width value) :
    Reads (readUnsigned width old) (toBytes width value) value := by
  have sameLength :
      (toBytes width old).length = (toBytes width value).length := by
    simp
  refine (reads_read sameLength).bind_nothing ?_
  have same := ofBytes_toBytes_of_range inRange
  simp only [same]
  exact Reads.pure value

theorem reads_signed
    {width : Nat}
    {value : Int}
    (old : Int)
    (inRange : SignedRange width value) :
    Reads (readSigned width old) (toBytes width value) value := by
  have sameLength :
      (toBytes width old).length = (toBytes width value).length := by
    simp
  refine (reads_read sameLength).bind_nothing ?_
  have same := bmod_ofBytes_toBytes inRange
  simp only [same]
  exact Reads.pure value

/-- A loop over old contents reads the values one after the other. -/
theorem Reads.mapM
    {Old : Type}
    {one : Old → Reader α}
    {encode : α → List UInt8}
    {values : List α}
    (readsOne : ∀ old, ∀ value ∈ values, Reads (one old) (encode value) value)
    {olds : List Old}
    (sameLength : olds.length = values.length) :
    Reads (olds.mapM one) (values.flatMap encode) values := by
  induction values generalizing olds with
  | nil =>
      have noOld : olds = [] := List.length_eq_zero_iff.mp sameLength
      subst olds
      exact Reads.pure []
  | cons value rest inductionHypothesis =>
      cases olds with
      | nil =>
          cases sameLength
      | cons old olds =>
          have readsHead := readsOne old value (by simp)
          have readsRest :=
            inductionHypothesis
              (fun old value member =>
                readsOne old value (List.mem_cons_of_mem _ member))
              (Nat.succ.inj sameLength)
          rw [List.mapM_cons, List.flatMap_cons]
          exact readsHead.bind
            (readsRest.bind_nothing (Reads.pure (value :: rest)))

/-- Decoding a block of encoded values returns the values. -/
theorem ofBlock_flatMap
    {decode : List UInt8 → α}
    {encode : α → List UInt8}
    {width : Nat}
    {values : List α}
    (decodes :
      ∀ value ∈ values,
        (encode value).length = width ∧ decode (encode value) = value) :
    ofBlock decode width values.length (values.flatMap encode) = values := by
  induction values with
  | nil =>
      rfl
  | cons value rest inductionHypothesis =>
      obtain ⟨encodedLength, decoded⟩ := decodes value (by simp)
      have tail :=
        inductionHypothesis fun other member =>
          decodes other (List.mem_cons_of_mem _ member)
      simp [ofBlock, List.take_left' encodedLength,
        List.drop_left' encodedLength, decoded, tail]

end Rules

end Compi.ByteStream
