import LeaseChain.Json.Value

/-!
# Reading JSON

`Value.parse?` accepts exactly the texts of RFC 8259: one value, with blanks around and between
tokens, nested to any depth. Strings are checked for their escapes and for bare control characters,
not for the text that they denote.
-/

namespace LeaseChain.Json

/-- Whether a byte is blank: space, tab, line feed or carriage return. -/
def isBlank (b : UInt8) : Bool := b = 0x20 ∨ b = 0x09 ∨ b = 0x0a ∨ b = 0x0d

/-- The input after its blanks. -/
def skipBlanks (input : Bytes) : Bytes := input.dropWhile isBlank

/-- Whether a byte is a decimal digit. -/
def isDigit (b : UInt8) : Bool := 0x30 ≤ b ∧ b ≤ 0x39

/-- Takes one digit or more. -/
def digits1? (input : Bytes) : Option (Bytes × Bytes) :=
  match input.span isDigit with
  | ([], _) => none
  | (digits, rest) => some (digits, rest)

/-- Takes the whole part of a number: a zero, or digits that do not start with one. -/
def wholePart? : Bytes → Option (Bytes × Bytes)
  | 0x30 :: rest =>
    match rest with
    | b :: _ => if isDigit b then none else some ([0x30], rest)
    | [] => some ([0x30], rest)
  | input => digits1? input

/-- Takes a fraction, if there is a point. -/
def fraction? : Bytes → Option (Bytes × Bytes)
  | 0x2e :: rest => do
    let (digits, rest) ← digits1? rest
    return (0x2e :: digits, rest)
  | input => some ([], input)

/-- Takes a sign of an exponent, if there is one. -/
def exponentSign : Bytes → Bytes × Bytes
  | 0x2b :: rest => ([0x2b], rest)
  | 0x2d :: rest => ([0x2d], rest)
  | input => ([], input)

/-- Takes an exponent, if there is an `e`. -/
def exponent? : Bytes → Option (Bytes × Bytes)
  | [] => some ([], [])
  | b :: rest =>
    if b = 0x65 ∨ b = 0x45 then do
      let (sign, rest) := exponentSign rest
      let (digits, rest) ← digits1? rest
      return (b :: sign ++ digits, rest)
    else some ([], b :: rest)

/-- Takes a number. -/
def number? (input : Bytes) : Option (Bytes × Bytes) := do
  let (sign, input) := match input with
    | 0x2d :: rest => ([0x2d], rest)
    | _ => (([] : Bytes), input)
  let (whole, input) ← wholePart? input
  let (fraction, input) ← fraction? input
  let (exponent, input) ← exponent? input
  return (sign ++ whole ++ fraction ++ exponent, input)

/-- Takes the rest of a string and the quote that closes it; `done` is in reverse order. -/
def textRest? : Bytes → Bytes → Option (Bytes × Bytes)
  | _, [] => none
  | done, 0x22 :: rest => some (done.reverse, rest)
  | done, 0x5c :: 0x75 :: a :: b :: c :: d :: rest =>
    if (codeUnit? a b c d).isSome then
      textRest? (d :: c :: b :: a :: 0x75 :: 0x5c :: done) rest
    else none
  | done, 0x5c :: b :: rest =>
    if (simpleEscape? b).isSome then textRest? (b :: 0x5c :: done) rest else none
  | done, b :: rest => if b < 0x20 then none else textRest? (b :: done) rest

/-- Takes the given bytes. -/
def word? (word input : Bytes) : Option Bytes :=
  if word.isPrefixOf input then some (input.drop word.length) else none

mutual

/-- Takes a value and the blanks in front of it; `fuel` bounds the number of steps. -/
def value? : Nat → Bytes → Option (Value × Bytes)
  | 0, _ => none
  | fuel + 1, input =>
    match skipBlanks input with
    | [] => none
    | 0x22 :: rest => do
      let (raw, rest) ← textRest? [] rest
      return (.text raw, rest)
    | 0x5b :: rest =>
      match skipBlanks rest with
      | 0x5d :: rest => some (.array [], rest)
      | _ => items? fuel [] rest
    | 0x7b :: rest =>
      match skipBlanks rest with
      | 0x7d :: rest => some (.object [], rest)
      | _ => members? fuel [] rest
    | 0x6e :: rest => do return (.null, ← word? (Bytes.ofText "ull") rest)
    | 0x74 :: rest => do return (.bool true, ← word? (Bytes.ofText "rue") rest)
    | 0x66 :: rest => do return (.bool false, ← word? (Bytes.ofText "alse") rest)
    | input => do
      let (literal, rest) ← number? input
      return (.number literal, rest)

/-- Takes one item or more and the bracket that closes the array. -/
def items? : Nat → List Value → Bytes → Option (Value × Bytes)
  | 0, _, _ => none
  | fuel + 1, done, input =>
    match value? fuel input with
    | none => none
    | some (item, rest) =>
      match skipBlanks rest with
      | 0x5d :: rest => some (.array (item :: done).reverse, rest)
      | 0x2c :: rest => items? fuel (item :: done) rest
      | _ => none

/-- Takes one member or more and the brace that closes the object. -/
def members? : Nat → List (Bytes × Value) → Bytes → Option (Value × Bytes)
  | 0, _, _ => none
  | fuel + 1, done, input =>
    match skipBlanks input with
    | 0x22 :: rest =>
      match textRest? [] rest with
      | none => none
      | some (name, rest) =>
        match skipBlanks rest with
        | 0x3a :: rest =>
          match value? fuel rest with
          | none => none
          | some (value, rest) =>
            match skipBlanks rest with
            | 0x7d :: rest => some (.object ((name, value) :: done).reverse, rest)
            | 0x2c :: rest => members? fuel ((name, value) :: done) rest
            | _ => none
        | _ => none
    | _ => none

end

/-- The value that a text denotes. Each step takes a byte, so the length of the text is enough. -/
def Value.parse? (input : Bytes) : Option Value := do
  let (value, rest) ← value? (2 * input.length + 1) input
  if (skipBlanks rest).isEmpty then some value else none

end LeaseChain.Json
