import LeaseChain.Key
import LeaseChain.Text.Utf8

/-!
# The wire format of values

Every value that is hashed, stored or sent has one byte form. Words are little-endian and of fixed
width; hashes and keys are their bytes; text, lists and signatures are preceded by their count as a
sixty-four-bit word; fields follow one another without padding. `Wire` gives a type both
directions: `write`, and a `read` that takes the value from the front of the input and leaves the
rest, or reports the first problem in the order of the stream.
-/

namespace LeaseChain

/-- Why bytes are not the form of a value. -/
inductive WireError where
  /-- A word, a key, a hash or an element is cut off by the end of the input. -/
  | unexpectedEnd
  /-- The input ends before as many bytes of text as its count announces. -/
  | textCutOff
  /-- The bytes of a text are not UTF-8. -/
  | invalidText (fault : Utf8.Fault)
  /-- A variant's tag is not below the number of variants. -/
  | unknownTag (tag : UInt32) (count : Nat)
  /-- Thirty-two bytes in place of a public key compress no point. -/
  | invalidPublicKey
  /-- The count of a signature's bytes is not sixty-four. -/
  | signatureLength
  /-- A value ends before the input that it should fill. -/
  | trailingBytes
deriving DecidableEq

namespace WireError

/-- The text shown for the error. -/
def message : WireError → String
  | unexpectedEnd => "io error: unexpected end of file"
  | textCutOff => "io error: "
  | invalidText fault => s!"string is not valid utf8: {fault.message}"
  | unknownTag tag count =>
    s!"invalid value: integer `{tag}`, expected variant index 0 <= i < {count}"
  | invalidPublicKey => "Invalid public key"
  | signatureLength => "Invalid signature length"
  | trailingBytes => "Slice had bytes remaining after deserialization"

end WireError

/-- Takes a value from the front of the input, which it leaves shorter. -/
abbrev Reader (α : Type) := StateT Bytes (Except WireError) α

/-- Types with a byte form. -/
class Wire (α : Type) where
  /-- The byte form of a value. -/
  write : α → Bytes
  /-- Takes a value from the front of the input. -/
  read : Reader α

namespace Reader

/-- Takes exactly `n` bytes. -/
def take (n : Nat) : Reader Bytes := fun input =>
  let front := input.take n
  if front.length = n then .ok (front, input.drop n) else .error .unexpectedEnd

/-- Takes a little-endian integer of `width` bytes. -/
def natLE (width : Nat) : Reader Nat := do
  return Bytes.toNatLE (← take width)

/-- Takes `n` items, which `done` precede in reverse order. -/
def items {α : Type} (item : Reader α) : Nat → List α → Bytes → Except WireError (List α × Bytes)
  | 0, done, input => .ok (done.reverse, input)
  | n + 1, done, input =>
    match item input with
    | .error e => .error e
    | .ok (a, rest) => items item n (a :: done) rest

/-- Takes `n` items. -/
def many {α : Type} (item : Reader α) (n : Nat) : Reader (List α) := items item n []

/-- Takes text of `n` bytes. -/
def text (n : Nat) : Reader String := fun input =>
  let front := input.take n
  if front.length = n then
    match Utf8.decode front with
    | .ok text => .ok (text, input.drop n)
    | .error fault => .error (.invalidText fault)
  else .error .textCutOff

/-- A value that has to fill the input, or not: what is left over decides. -/
def run {α : Type} (reader : Reader α) (input : Bytes) (mayLeaveRest : Bool) :
    Except WireError α := do
  let (a, rest) ← reader input
  if rest.isEmpty || mayLeaveRest then return a else throw .trailingBytes

end Reader

namespace Wire

instance : Wire UInt8 where
  write n := [n]
  read := do return UInt8.ofNat (← Reader.natLE 1)

instance : Wire UInt16 where
  write n := Bytes.ofNatLE 2 n.toNat
  read := do return UInt16.ofNat (← Reader.natLE 2)

instance : Wire UInt32 where
  write n := Bytes.ofNatLE 4 n.toNat
  read := do return UInt32.ofNat (← Reader.natLE 4)

instance : Wire UInt64 where
  write n := Bytes.ofNatLE 8 n.toNat
  read := do return UInt64.ofNat (← Reader.natLE 8)

instance : Wire Hash where
  write h := h.bytes
  read := do
    match Hash.ofBytes? (← Reader.take 32) with
    | some h => return h
    | none => throw .unexpectedEnd

instance : Wire PublicKey where
  write key := key.bytes
  read := do
    match PublicKey.ofBytes? (← Reader.take 32) with
    | some key => return key
    | none => throw .invalidPublicKey

/-- The count in front of text and lists. -/
def writeCount (n : Nat) : Bytes := write (UInt64.ofNat n)

/-- Takes the count in front of text and lists. -/
def readCount : Reader Nat := do
  let n : UInt64 ← read
  return n.toNat

instance : Wire String where
  write text := writeCount text.utf8ByteSize ++ Bytes.ofText text
  read := do Reader.text (← readCount)

/-- The elements of a list one after the other, behind their count. -/
def writeList {α : Type} [Wire α] (as : List α) : Bytes :=
  writeCount as.length ++ as.flatMap write

instance {α : Type} [Wire α] : Wire (List α) where
  write := writeList
  read := do Reader.many read (← readCount)

instance : Wire Signature where
  write signature := write signature.bytes
  read := do
    let bytes : Bytes ← read
    match Signature.ofBytes? bytes with
    | some signature => return signature
    | none => throw .signatureLength

/-- The value that a byte string begins with; bytes after it are let pass. -/
def readFront {α : Type} [Wire α] (input : Bytes) : Except WireError α :=
  Reader.run read input true

/-- The value that a byte string is the whole form of. -/
def readAll {α : Type} [Wire α] (input : Bytes) : Except WireError α :=
  Reader.run read input false

end Wire

end LeaseChain
