import LeaseChain.Json.Value

/-!
# Writing JSON

`Value.pretty` lays a value out over lines: every item and member has a line of its own, indented by
two spaces per level, and empty arrays and objects stay closed.
-/

namespace LeaseChain.Json

/-- A line feed and the indentation of a level. -/
def newline (level : Nat) : Bytes := 0x0a :: List.replicate (2 * level) 0x20

/-- A string in its quotes. -/
def quoted (raw : Bytes) : Bytes := 0x22 :: (raw ++ [0x22])

mutual

/-- The layout of a value whose first line starts at the given level. -/
def Value.layout (level : Nat) : Value → Bytes
  | .null => Bytes.ofText "null"
  | .bool true => Bytes.ofText "true"
  | .bool false => Bytes.ofText "false"
  | .number literal => literal
  | .text raw => quoted raw
  | .array [] => [0x5b, 0x5d]
  | .array (item :: items) =>
    0x5b :: (newline (level + 1) ++ item.layout (level + 1) ++ layoutItems (level + 1) items ++
      newline level ++ [0x5d])
  | .object [] => [0x7b, 0x7d]
  | .object ((name, value) :: members) =>
    0x7b :: (newline (level + 1) ++ quoted name ++ [0x3a, 0x20] ++ value.layout (level + 1) ++
      layoutMembers (level + 1) members ++ newline level ++ [0x7d])

/-- The items after the first. -/
def layoutItems (level : Nat) : List Value → Bytes
  | [] => []
  | item :: items => 0x2c :: (newline level ++ item.layout level ++ layoutItems level items)

/-- The members after the first. -/
def layoutMembers (level : Nat) : List (Bytes × Value) → Bytes
  | [] => []
  | (name, value) :: members =>
    0x2c :: (newline level ++ quoted name ++ [0x3a, 0x20] ++ value.layout level ++
      layoutMembers level members)

end

/-- The layout of a value over lines. -/
def Value.pretty (value : Value) : Bytes := value.layout 0

end LeaseChain.Json
