import LeaseChain.Store.View

/-!
# A view is one table

Layers of changes over a table show what the table would show after the changes were carried out,
the farthest first. That table is `View.flatten`. Two views that agree on a set of keys cannot be
told apart by reading those keys alone.

## Key results

- `View.getElem?_flatten`: the flat table has what the view shows
- `Table.apply_merge`: merged changes do what the two do one after the other
- `View.AgreeOn`: two views show the same under the keys of a set
- `View.scan_push_of_write`: what a scan finds after one key was written
-/

namespace LeaseChain

/-- To `apply` merged changes is to apply the two one after the other. -/
theorem Table.apply_merge (table : Table Bytes) (changes later : Changes) :
    table.apply (changes.merge later) = (table.apply changes).apply later := by
  apply Std.ExtTreeMap.ext_getElem?
  intro key
  rw [getElem?_apply, getElem?_apply, getElem?_apply, Changes.getElem?_merge]
  cases later[key]? <;> rfl

/-- `apply` carries a `put` out last that was staged last. -/
theorem Table.apply_put (table : Table Bytes) (changes : Changes) (key value : Bytes) :
    table.apply (changes.put key value) = (table.apply changes).insert key value := by
  apply Std.ExtTreeMap.ext_getElem?
  intro j
  rw [getElem?_apply, Changes.getElem?_put, Std.ExtTreeMap.getElem?_insert, getElem?_apply]
  simp only [Std.LawfulEqCmp.compare_eq_iff_eq]
  split <;> rfl

/-- Without changes a table is left as it is. -/
@[simp] theorem Table.apply_empty (table : Table Bytes) : table.apply ∅ = table := by
  apply Std.ExtTreeMap.ext_getElem?
  intro key
  rw [getElem?_apply]
  simp

namespace View

/-- The table that the view shows. -/
def flatten (view : View) : Table Bytes :=
  view.layers.foldr (fun layer table => table.apply layer) view.base

/-- `flatten` carries the nearest layer out last. -/
@[simp] theorem flatten_push (view : View) (changes : Changes) :
    (view.push changes).flatten = view.flatten.apply changes := rfl

/-- `flatten` has what the view shows. -/
theorem getElem?_flatten (view : View) (key : Bytes) : view.flatten[key]? = view.get? key := by
  obtain ⟨layers, base⟩ := view
  -- the nearest layer is looked at first, and carried out last
  induction layers with
  | nil => rfl
  | cons layer layers ih =>
    show ((push ⟨layers, base⟩ layer).flatten)[key]? = (push ⟨layers, base⟩ layer).get? key
    rw [flatten_push, Table.getElem?_apply, ih, get?_push]

/-- Two views show the same under the keys of a set. -/
def AgreeOn (p : Bytes → Prop) (v w : View) : Prop := ∀ key, p key → v.get? key = w.get? key

namespace AgreeOn

variable {p : Bytes → Prop} {v w : View}

theorem refl (p : Bytes → Prop) (v : View) : AgreeOn p v v := fun _ _ => rfl

/-- Where views `AgreeOn` all keys under a start, a `scan` of it gives the same. -/
theorem scan_eq (h : AgreeOn p v w) {start : Bytes}
    (hstart : ∀ key, start.isPrefixOf key = true → p key) : v.scan start = w.scan start := by
  apply Std.ExtTreeMap.ext_getElem?
  intro key
  rw [getElem?_scan, getElem?_scan]
  split
  · next hkey => exact h key (hstart key hkey)
  · rfl

end AgreeOn

/-- Changes that write nothing under a start leave a `scan` of it as it is. -/
theorem scan_push_of_unwritten {view : View} {changes : Changes} {start : Bytes}
    (h : ∀ j, start.isPrefixOf j = true → changes[j]? = none) :
    (view.push changes).scan start = view.scan start := by
  refine AgreeOn.scan_eq (p := fun j => start.isPrefixOf j = true) (fun j hj => ?_) fun _ hj => hj
  rw [get?_push, h j hj, Option.getD_none]

/-- Changes to one key under a start change that key in a `scan` of it. -/
theorem scan_push_of_write {view : View} {changes : Changes} {start key : Bytes}
    {change : Option Bytes} (hstart : start.isPrefixOf key = true)
    (hkey : changes[key]? = some change)
    (hothers : ∀ j, start.isPrefixOf j = true → key ≠ j → changes[j]? = none) :
    (view.push changes).scan start = (view.scan start).write key change := by
  apply Std.ExtTreeMap.ext_getElem?
  intro j
  rw [getElem?_scan, Table.getElem?_write, getElem?_scan, get?_push]
  -- at the written key, at another key under the start and at any other key
  by_cases hj : start.isPrefixOf j = true
  · by_cases heq : key = j
    · subst heq
      rw [if_pos hj, if_pos rfl, hkey, Option.getD_some]
    · rw [if_pos hj, if_neg heq, if_pos hj, hothers j hj heq, Option.getD_none]
  · rw [if_neg hj, if_neg hj, if_neg]
    rintro rfl
    exact hj hstart

/-- A value that is put under a start is found in a `scan` of it. -/
theorem scan_push_of_put {view : View} {changes : Changes} {start key value : Bytes}
    (hstart : start.isPrefixOf key = true) (hkey : changes[key]? = some (some value))
    (hothers : ∀ j, start.isPrefixOf j = true → key ≠ j → changes[j]? = none) :
    (view.push changes).scan start = (view.scan start).insert key value :=
  scan_push_of_write hstart hkey hothers

/-- A value that is deleted under a start is missing from a `scan` of it. -/
theorem scan_push_of_delete {view : View} {changes : Changes} {start key : Bytes}
    (hstart : start.isPrefixOf key = true) (hkey : changes[key]? = some none)
    (hothers : ∀ j, start.isPrefixOf j = true → key ≠ j → changes[j]? = none) :
    (view.push changes).scan start = (view.scan start).erase key :=
  scan_push_of_write hstart hkey hothers

/-- A view and the table `flatten` makes of it `AgreeOn` all keys. -/
theorem agreeOn_durable_flatten (p : Bytes → Prop) (view : View) :
    AgreeOn p view (durable view.flatten) := by
  intro key _
  rw [get?_durable, getElem?_flatten]

end View

namespace Overlay

/-- An overlay without changes shows what is below: they `AgreeOn` all keys. -/
theorem agreeOn_on (p : Bytes → Prop) (view : View) : View.AgreeOn p (on view).view view := by
  intro key _
  simp [on, Overlay.view, View.get?_push]

/-- Changes that `merge` stages last are seen first. -/
theorem get?_view_merge (overlay : Overlay) (changes : Changes) (key : Bytes) :
    (overlay.merge changes).view.get? key = changes[key]?.getD (overlay.view.get? key) := by
  simp only [view, merge, View.get?_push, Changes.getElem?_merge]
  cases changes[key]? <;> rfl

/-- Overlays that `AgreeOn` a set still do when both stage changes that agree on it. -/
theorem agreeOn_merge {p : Bytes → Prop} {overlay overlay' : Overlay}
    (h : View.AgreeOn p overlay.view overlay'.view) {changes changes' : Changes}
    (hc : ∀ key, p key → changes[key]? = changes'[key]?) :
    View.AgreeOn p (overlay.merge changes).view (overlay'.merge changes').view := by
  intro key hp
  rw [get?_view_merge, get?_view_merge, hc key hp, h key hp]

end Overlay

end LeaseChain
