import LeaseChain.Wire

/-!
# Frames

A frame is a version, the payload's length and the payload, in a header of six bytes and at most a
given size in all. `Framing` holds the version and the limit that two ends have to agree on; its
`decode` undoes its `encode`, and refuses a frame with a fault in the order size, header, version,
length, payload.
-/

namespace LeaseChain

/-- Why a value has no frame, or bytes are no frame of a value. -/
inductive FrameError where
  /-- The payload is not the form of one value. -/
  | payload (cause : WireError)
  /-- Fewer bytes than a header. -/
  | tooShort (size : Nat)
  /-- The frame has another version. -/
  | versionMismatch (expected found : UInt16)
  /-- The payload has another length than the header says. -/
  | lengthMismatch (declared actual : Nat)
  /-- The frame is over the limit. -/
  | tooLarge (size limit : Nat)
deriving DecidableEq

namespace FrameError

/-- The text shown for the error. -/
def message : FrameError → String
  | payload cause => s!"Serialization error: {cause.message}"
  | tooShort size => s!"Frame too short: {size} bytes"
  | versionMismatch expected found =>
    s!"Unsupported codec version: expected {expected}, got {found}"
  | lengthMismatch declared actual =>
    s!"Frame length mismatch: header says {declared}, payload has {actual}"
  | tooLarge size limit => s!"Frame of {size} bytes exceeds limit of {limit}"

end FrameError

/-- The version and the greatest size of the frames of one network. -/
structure Framing where
  version : UInt16
  limit : Nat
deriving DecidableEq

namespace Framing

/-- Version 1, and at most two mebibytes. -/
def standard : Framing := ⟨1, 2 * 1024 * 1024⟩

/-- The size of the version and the length in front of a payload. -/
def headerSize : Nat := 6

variable {α : Type} [Wire α]

/-- The frame of a value. -/
def encode (framing : Framing) (a : α) : Except FrameError Bytes :=
  let payload := Wire.write a
  let length := payload.length
  if framing.limit < length + headerSize ∨ UInt32.size ≤ length then
    .error (.tooLarge (length + headerSize) framing.limit)
  else
    .ok (Wire.write framing.version ++ Wire.write (UInt32.ofNat length) ++ payload)

/-- The value of a frame. -/
def decode (framing : Framing) (frame : Bytes) : Except FrameError α :=
  let size := frame.length
  if framing.limit < size then .error (.tooLarge size framing.limit)
  else if size < headerSize then .error (.tooShort size)
  else
    let version := UInt16.ofNat (Bytes.toNatLE (frame.take 2))
    let declared := Bytes.toNatLE ((frame.drop 2).take 4)
    if version ≠ framing.version then .error (.versionMismatch framing.version version)
    else if size - headerSize ≠ declared then
      .error (.lengthMismatch declared (size - headerSize))
    else (Wire.readAll (frame.drop headerSize)).mapError .payload

end Framing

end LeaseChain
