import LeaseChain.Store.Table

/-!
# Layered views

A `View` is a durable table under layers of staged changes. A key is looked up in the nearest layer
that writes it, and in the table last; a scan starts from the table's and carries the layers out on
it from the farthest to the nearest. An `Overlay` stages changes of its own on a view, which it
leaves as it is; overlays nest, because a view with an overlay's changes as nearest layer is a view
again.

## Key results

- `View.get?_push`: the nearest layer answers for the keys it writes
- `View.getElem?_scan`: a scan finds the keys that looking up finds
-/

namespace LeaseChain

/-- A durable table under layers of changes, nearest first. -/
structure View where
  layers : List Changes
  base : Table Bytes

namespace View

/-- The view of a table alone. -/
def durable (base : Table Bytes) : View := ⟨[], base⟩

/-- The view with a nearer layer. -/
def push (view : View) (changes : Changes) : View := ⟨changes :: view.layers, view.base⟩

/-- The value of a key in the nearest layer that writes it, or in the table. -/
def lookup (base : Table Bytes) (key : Bytes) : List Changes → Option Bytes
  | [] => base[key]?
  | layer :: layers =>
    match layer[key]? with
    | some staged => staged
    | none => lookup base key layers

/-- The value of a key, if it has one. -/
def get? (view : View) (key : Bytes) : Option Bytes := lookup view.base key view.layers

/-- Whether a key has a value. -/
def has (view : View) (key : Bytes) : Bool := (view.get? key).isSome

/-- The entries whose keys start with the given bytes. -/
def scan (view : View) (start : Bytes) : Table Bytes :=
  view.layers.foldr (fun layer entries => entries.applyUnder layer start) (view.base.scan start)

/-- `durable` answers by the table itself. -/
@[simp] theorem get?_durable (base : Table Bytes) (key : Bytes) :
    (durable base).get? key = base[key]? := rfl

/--
`push` lets the nearer layer answer for the keys that it writes, and leaves the others to the view.
-/
theorem get?_push (view : View) (changes : Changes) (key : Bytes) :
    (view.push changes).get? key = changes[key]?.getD (view.get? key) := by
  simp only [push, get?, lookup]
  cases changes[key]? <;> rfl

/-- `scan` carries out the changes of the nearer layer on what the view's scan finds. -/
theorem scan_push (view : View) (changes : Changes) (start : Bytes) :
    (view.push changes).scan start = (view.scan start).apply (changes.restrict start) :=
  Table.applyUnder_eq _ changes start

/--
A scan finds what `get?` finds under the keys that start with the given bytes, and nothing else.
-/
theorem getElem?_scan (view : View) (start j : Bytes) :
    (view.scan start)[j]? = if start.isPrefixOf j then view.get? j else none := by
  obtain ⟨layers, base⟩ := view
  induction layers with
  | nil => exact Table.getElem?_scan base start j
  | cons layer layers ih =>
    change ((push ⟨layers, base⟩ layer).scan start)[j]? =
      if start.isPrefixOf j then (push ⟨layers, base⟩ layer).get? j else none
    rw [scan_push, Table.getElem?_apply, Changes.getElem?_restrict, ih, get?_push]
    split <;> rfl

end View

/-- Changes staged on a view. -/
structure Overlay where
  staged : Changes
  below : View

namespace Overlay

/-- An overlay without changes. -/
def on (below : View) : Overlay := ⟨∅, below⟩

/-- The view through the staged changes. -/
def view (overlay : Overlay) : View := overlay.below.push overlay.staged

/-- An overlay without changes on an overlay. -/
def nested (overlay : Overlay) : Overlay := on overlay.view

/-- Stages a value. -/
def put (overlay : Overlay) (key value : Bytes) : Overlay :=
  { overlay with staged := overlay.staged.put key value }

/-- Stages a deletion. -/
def delete (overlay : Overlay) (key : Bytes) : Overlay :=
  { overlay with staged := overlay.staged.delete key }

/-- Stages changes over those staged before. -/
def merge (overlay : Overlay) (changes : Changes) : Overlay :=
  { overlay with staged := overlay.staged.merge changes }

end Overlay

end LeaseChain
