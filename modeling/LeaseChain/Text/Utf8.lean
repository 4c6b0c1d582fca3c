import LeaseChain.Bytes

/-!
# Text in UTF-8

`decode` turns bytes into text, or says where they stop being UTF-8. The place is given as a
`Fault`: the length of the longest well-formed front part, and how many bytes after it cannot start
a character — or that the string ends inside a character.
-/

namespace LeaseChain.Utf8

/-- Where and how a byte string stops being UTF-8. -/
structure Fault where
  /-- The number of bytes in front that are well formed. -/
  validUpTo : Nat
  /-- How many bytes after them are in error; none if the string ends inside a character. -/
  length? : Option Nat
deriving DecidableEq

namespace Fault

/-- The text shown for the fault. -/
def message (fault : Fault) : String :=
  match fault.length? with
  | some n => s!"invalid utf-8 sequence of {n} bytes from index {fault.validUpTo}"
  | none => s!"incomplete utf-8 byte sequence from index {fault.validUpTo}"

end Fault

/-- Whether a byte continues a character. -/
def isContinuation (b : UInt8) : Bool := 0x80 ≤ b ∧ b ≤ 0xbf

/--
What a byte that starts a character of several bytes promises: their number, and the least and
greatest second byte. The bounds exclude overlong forms, surrogates and values past `U+10FFFF`.
-/
def lead? (b : UInt8) : Option (Nat × UInt8 × UInt8) :=
  if 0xc2 ≤ b ∧ b ≤ 0xdf then some (2, 0x80, 0xbf)
  else if b = 0xe0 then some (3, 0xa0, 0xbf)
  else if b = 0xed then some (3, 0x80, 0x9f)
  else if 0xe1 ≤ b ∧ b ≤ 0xef then some (3, 0x80, 0xbf)
  else if b = 0xf0 then some (4, 0x90, 0xbf)
  else if 0xf1 ≤ b ∧ b ≤ 0xf3 then some (4, 0x80, 0xbf)
  else if b = 0xf4 then some (4, 0x80, 0x8f)
  else none

/--
The first fault of a byte string whose first `i` bytes were read before. A string without a fault
counts as one that ends inside a character it has not begun.
-/
def faultFrom : Nat → Bytes → Fault
  | i, [] => ⟨i, none⟩
  | i, a :: rest =>
    if a < 0x80 then faultFrom (i + 1) rest
    else match lead? a, rest with
      | none, _ => ⟨i, some 1⟩
      | some _, [] => ⟨i, none⟩
      | some (width, least, greatest), b :: rest =>
        if b < least ∨ greatest < b then ⟨i, some 1⟩
        else if width = 2 then faultFrom (i + 2) rest
        else match rest with
          | [] => ⟨i, none⟩
          | c :: rest =>
            if !isContinuation c then ⟨i, some 2⟩
            else if width = 3 then faultFrom (i + 3) rest
            else match rest with
              | [] => ⟨i, none⟩
              | d :: rest => if !isContinuation d then ⟨i, some 3⟩ else faultFrom (i + 4) rest

/-- The text that a byte string encodes, or its first fault. -/
def decode (bytes : Bytes) : Except Fault String :=
  match String.fromUTF8? (ByteArray.mk bytes.toArray) with
  | some text => .ok text
  | none => .error (faultFrom 0 bytes)

end LeaseChain.Utf8
