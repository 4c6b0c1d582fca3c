import LeaseChain.Text.Utf8

/-!
# JSON values

A `Value` is a JSON text without its layout. Numbers and strings stay as they are spelled, because a
document may hold members that nobody reads: only what is asked for has to be a number in range, or
text in UTF-8 (`Value.word?`, `Value.text?`). `Value.fields?` reads a value as a record.
-/

namespace LeaseChain.Json

/-- A JSON text without its layout. -/
inductive Value where
  | null
  | bool (b : Bool)
  /-- A number, as it is spelled. -/
  | number (literal : Bytes)
  /-- A string, as it is spelled between its quotes. -/
  | text (raw : Bytes)
  | array (items : List Value)
  /-- An object's members in order, each name as it is spelled between its quotes. -/
  | object (members : List (Bytes × Value))

/-- The value of a hexadecimal digit. -/
def hexDigit? (b : UInt8) : Option Nat := Bytes.hexValue? (Char.ofNat b.toNat)

/-- The value of four hexadecimal digits. -/
def codeUnit? (a b c d : UInt8) : Option Nat := do
  return ((16 * (← hexDigit? a) + (← hexDigit? b)) * 16 + (← hexDigit? c)) * 16 + (← hexDigit? d)

/-- The byte that a single-letter escape stands for. -/
def simpleEscape? (b : UInt8) : Option UInt8 :=
  if b = 0x22 ∨ b = 0x5c ∨ b = 0x2f then some b
  else if b = 0x62 then some 0x08
  else if b = 0x66 then some 0x0c
  else if b = 0x6e then some 0x0a
  else if b = 0x72 then some 0x0d
  else if b = 0x74 then some 0x09
  else none

/--
Replaces the escapes of a string by the bytes they stand for, behind `done`, which is in reverse
order. A surrogate has to be the first of a pair that is escaped together.
-/
def unescape : Bytes → Bytes → Option Bytes
  | done, [] => some done.reverse
  | done, 0x5c :: 0x75 :: a :: b :: c :: d :: rest =>
    match codeUnit? a b c d with
    | none => none
    | some unit =>
      if unit < 0xd800 ∨ 0xe000 ≤ unit then
        unescape ((String.utf8EncodeChar (Char.ofNat unit)).reverse ++ done) rest
      else if 0xdc00 ≤ unit then none
      else match rest with
        | 0x5c :: 0x75 :: a :: b :: c :: d :: rest =>
          match codeUnit? a b c d with
          | none => none
          | some second =>
            if 0xdc00 ≤ second ∧ second < 0xe000 then
              let scalar := 0x10000 + (unit - 0xd800) * 0x400 + (second - 0xdc00)
              unescape ((String.utf8EncodeChar (Char.ofNat scalar)).reverse ++ done) rest
            else none
        | _ => none
  | done, 0x5c :: b :: rest =>
    match simpleEscape? b with
    | some c => unescape (c :: done) rest
    | none => none
  | done, b :: rest => unescape (b :: done) rest

/-- The text that a spelled string denotes. -/
def decodeText? (raw : Bytes) : Option String := do
  (Utf8.decode (← unescape [] raw)).toOption

/-- The spelling of a byte within a string: quotes, backslashes and controls are escaped. -/
def escapeByte (b : UInt8) : Bytes :=
  if b = 0x22 then [0x5c, 0x22]
  else if b = 0x5c then [0x5c, 0x5c]
  else if b = 0x08 then [0x5c, 0x62]
  else if b = 0x0c then [0x5c, 0x66]
  else if b = 0x0a then [0x5c, 0x6e]
  else if b = 0x0d then [0x5c, 0x72]
  else if b = 0x09 then [0x5c, 0x74]
  else if b < 0x20 then Bytes.ofText "\\u00" ++ Bytes.ofText (Bytes.toHex [b])
  else [b]

/-- The spelling of a text. -/
def encodeText (text : String) : Bytes := (Bytes.ofText text).flatMap escapeByte

namespace Value

/-- The value that denotes a text. -/
def ofText (text : String) : Value := .text (encodeText text)

/-- The value that denotes a natural number. -/
def ofNat (n : Nat) : Value := .number (Bytes.ofText (toString n))

/-- The value that denotes a word. -/
def ofWord (n : UInt64) : Value := ofNat n.toNat

/-- The text that a value denotes. -/
def text? : Value → Option String
  | .text raw => decodeText? raw
  | _ => none

/-- The natural number that decimal digits denote. -/
def ofDigits (digits : Bytes) : Nat := digits.foldl (fun n b => 10 * n + (b.toNat - 48)) 0

/-- The word that a value denotes: digits alone, and no more than the largest word. -/
def word? : Value → Option UInt64
  | .number literal =>
    if literal.all (fun b => 0x30 ≤ b ∧ b ≤ 0x39) ∧ ofDigits literal < UInt64.size then
      some (UInt64.ofNat (ofDigits literal))
    else none
  | _ => none

/-- The truth value that a value denotes. -/
def bool? : Value → Option Bool
  | .bool b => some b
  | _ => none

/-- The items of an array. -/
def items? : Value → Option (List Value)
  | .array items => some items
  | _ => none

/-- Adds the members whose names are known to the fields found before; no name may come twice. -/
def collect (names : List String) :
    List (String × Value) → List (Bytes × Value) → Option (List (String × Value))
  | found, [] => some found
  | found, (raw, value) :: rest => do
    let name ← decodeText? raw
    if name ∈ names then
      if found.any (·.1 == name) then none else collect names (found ++ [(name, value)]) rest
    else collect names found rest

/--
The fields of a record with the given names. An object gives them by name, each at most once, and
may hold other members; an array gives the first few of them in order, and nothing else.
-/
def fields? (names : List String) : Value → Option (List (String × Value))
  | .object members => collect names [] members
  | .array items => if items.length ≤ names.length then some (names.zip items) else none
  | _ => none

end Value

/-- A field that has to be there, read by `f`. -/
def required {α : Type} (fields : List (String × Value)) (name : String) (f : Value → Option α) :
    Option α :=
  (fields.lookup name).bind f

/-- A field read by `f`, or the given value where there is none. -/
def withDefault {α : Type} (fields : List (String × Value)) (name : String) (f : Value → Option α)
    (value : α) : Option α :=
  match fields.lookup name with
  | some v => f v
  | none => some value

end LeaseChain.Json
