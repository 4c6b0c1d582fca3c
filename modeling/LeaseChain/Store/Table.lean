import Std.Data.ExtTreeMap
import LeaseChain.Bytes

/-!
# Tables and changes

A `Table` maps byte strings to values and lists them in the order of their keys. `Changes` are
pending writes: a value to put, or nothing to delete. Looking a key up after `apply` or `merge` asks
the changes first and what they were applied to second. The keys that start alike stand together in
that order, so that the changes to them are found by a walk that begins at the common start and
stops at the first key past it.

## Key results

- `Table.getElem?_apply`, `Changes.getElem?_merge`: what is found under a key afterwards
- `Table.getElem?_scan`, `Changes.getElem?_restrict`: the part of a table under a common start
- `Changes.toList_restrict`: the walk finds the changes under a common start, and no others
-/

namespace LeaseChain

namespace Bytes

/-- `compare` is not decided by what two byte strings have in common in front. -/
theorem compare_append_left (front a b : Bytes) :
    compare (front ++ a) (front ++ b) = compare a b := by
  induction front with
  | nil => rfl
  | cons byte front ih =>
    have hself : compare byte byte = .eq := Std.ReflCmp.compare_self
    exact (List.compareLex_cons_cons).trans (by rw [hself]; exact ih)

/-- `compare` never puts what starts with given bytes before them. -/
theorem compare_of_prefix {start key : Bytes} (h : start <+: key) : compare key start ≠ .lt := by
  obtain ⟨rest, rfl⟩ := h
  have hrest : compare (start ++ rest) start = compare rest [] := by
    simpa using compare_append_left start rest []
  rw [hrest]
  -- the empty rest is equal, and any other one is longer
  cases rest <;> exact nofun

/--
`compare` leaves no room between `start` and what starts with it: what stands there does so too.
-/
theorem prefix_of_compare {start a b : Bytes} (ha : compare a start ≠ .lt)
    (hab : compare a b = .lt) (hb : start <+: b) : start <+: a := by
  -- induction on the start, byte by byte along the two keys
  induction start generalizing a b with
  | nil => exact List.nil_prefix
  | cons byte start ih =>
    obtain ⟨rest, rfl⟩ := hb
    cases a with
    | nil => exact absurd rfl ha
    | cons x a =>
      have hstart : compare (x :: a) (byte :: start) = (compare x byte).then (compare a start) :=
        List.compareLex_cons_cons
      have hlater : compare (x :: a) (byte :: start ++ rest) =
          (compare x byte).then (compare a (start ++ rest)) := List.compareLex_cons_cons
      rw [hstart] at ha
      rw [hlater] at hab
      -- the first bytes are the same, as neither order is decided by them
      cases hbyte : compare x byte with rw [hbyte] at ha hab
      | lt => exact absurd rfl ha
      | gt => cases hab
      | eq =>
        obtain rfl := Std.LawfulEqCmp.compare_eq_iff_eq.1 hbyte
        exact List.cons_prefix_cons.2 ⟨rfl, ih ha hab (List.prefix_append start rest)⟩

end Bytes

/-- A finite map from byte strings, in the order of its keys. -/
abbrev Table (V : Type) := Std.ExtTreeMap Bytes V

/--
Looks a key up after a fold that writes the entries of one table into another, where each step
writes the value that `written` makes of an entry under the entry's key.
-/
theorem Table.getElem?_foldl {V W : Type} {step : Table V → Bytes → W → Table V}
    (written : W → Option V)
    (hstep : ∀ (t : Table V) (k : Bytes) (w : W) (j : Bytes),
      (step t k w)[j]? = if k = j then written w else t[j]?)
    (source : Table W) (t : Table V) (j : Bytes) :
    (source.foldl step t)[j]? =
      match source[j]? with
      | some w => written w
      | none => t[j]? := by
  -- the walk over a list of distinct keys passes `j` once at most
  have fold (entries : List (Bytes × W)) (hd : entries.Pairwise fun a b => a.1 ≠ b.1) :
      ∀ t : Table V,
        (∀ w, (j, w) ∈ entries →
          (entries.foldl (fun t e => step t e.1 e.2) t)[j]? = written w) ∧
        ((∀ w, (j, w) ∉ entries) →
          (entries.foldl (fun t e => step t e.1 e.2) t)[j]? = t[j]?) := by
    -- induction on the entries; after the one under `j` no other one writes there
    induction entries with
    | nil => intro t; simp
    | cons e entries ih =>
      intro t
      obtain ⟨k, v⟩ := e
      rw [List.pairwise_cons] at hd
      obtain ⟨hin, hout⟩ := ih hd.2 (step t k v)
      constructor
      · intro w hw
        rcases List.mem_cons.1 hw with heq | hmem
        · obtain ⟨rfl, rfl⟩ := Prod.mk.inj heq
          rw [List.foldl_cons, hout fun w' h' => hd.1 _ h' rfl, hstep, if_pos rfl]
        · rw [List.foldl_cons, hin w hmem]
      · intro hno
        have hk : k ≠ j := fun h => hno v (h ▸ List.mem_cons_self)
        rw [List.foldl_cons, hout fun w' h' => hno w' (List.mem_cons_of_mem _ h'), hstep,
          if_neg hk]
  have distinct : source.toList.Pairwise fun a b => a.1 ≠ b.1 :=
    source.distinct_keys_toList.imp fun h heq => h (Std.LawfulEqCmp.compare_eq_iff_eq.2 heq)
  rw [Std.ExtTreeMap.foldl_eq_foldl_toList]
  split
  · next w hw =>
    exact (fold source.toList distinct t).1 w
      (Std.ExtTreeMap.mem_toList_iff_getElem?_eq_some.2 hw)
  · next hnone =>
    refine (fold source.toList distinct t).2 fun w hw => ?_
    rw [Std.ExtTreeMap.mem_toList_iff_getElem?_eq_some, hnone] at hw
    cases hw

/-- Pending writes by key; nothing stands for a deletion. -/
abbrev Changes := Table (Option Bytes)

namespace Changes

/-- Stages a value. -/
def put (changes : Changes) (key value : Bytes) : Changes := changes.insert key (some value)

/-- Stages a deletion. -/
def delete (changes : Changes) (key : Bytes) : Changes := changes.insert key none

/-- The changes listed; a later one replaces an earlier one of the same key. -/
def ofList (entries : List (Bytes × Option Bytes)) : Changes :=
  entries.foldl (fun changes (key, value) => changes.insert key value) ∅

/-- Both changes, of which `later` win where they meet. -/
def merge (changes later : Changes) : Changes :=
  later.foldl (fun changes key value => changes.insert key value) changes

/-- The changes to keys that start with the given bytes. -/
def restrict (changes : Changes) (start : Bytes) : Changes :=
  changes.filter fun key _ => start.isPrefixOf key

/--
The changes to keys that start with the given bytes, as a walk over the keys in their order finds
them, which begins with the first that is not before those bytes and stops at the first that does
not start with them.
-/
def under (changes : Changes) (start : Bytes) : List (Bytes × Option Bytes) :=
  (changes.toList.dropWhile fun change => (compare change.1 start).isLT).takeWhile
    fun change => start.isPrefixOf change.1

/-- `put` has the key found with its new value, any other key as before. -/
theorem getElem?_put (changes : Changes) (key value j : Bytes) :
    (changes.put key value)[j]? = if key = j then some (some value) else changes[j]? := by
  simp [put, Std.ExtTreeMap.getElem?_insert, Std.LawfulEqCmp.compare_eq_iff_eq]

/-- `delete` has the key found deleted, any other key as before. -/
theorem getElem?_delete (changes : Changes) (key j : Bytes) :
    (changes.delete key)[j]? = if key = j then some none else changes[j]? := by
  simp [delete, Std.ExtTreeMap.getElem?_insert, Std.LawfulEqCmp.compare_eq_iff_eq]

/-- `merge` lets the later changes win. -/
theorem getElem?_merge (changes later : Changes) (j : Bytes) :
    (changes.merge later)[j]? = later[j]?.or changes[j]? := by
  rw [merge, Table.getElem?_foldl some]
  · cases later[j]? <;> rfl
  · intro t k w j
    simp [Std.ExtTreeMap.getElem?_insert, Std.LawfulEqCmp.compare_eq_iff_eq]

/-- `restrict` takes away the keys that do not start with the given bytes. -/
theorem getElem?_restrict (changes : Changes) (start j : Bytes) :
    (changes.restrict start)[j]? = if start.isPrefixOf j then changes[j]? else none := by
  rw [restrict, Std.ExtTreeMap.getElem?_filter']
  cases changes[j]? <;> simp [Option.filter]

/--
`takeWhile` is `filter` on sorted entries that are not before `start`: where a key does not start
with it, no later one does.
-/
theorem filter_eq_takeWhile {start : Bytes} {entries : List (Bytes × Option Bytes)}
    (hsorted : entries.Pairwise fun a b => compare a.1 b.1 = .lt)
    (hstart : ∀ e ∈ entries, compare e.1 start ≠ .lt) :
    entries.filter (fun e => start.isPrefixOf e.1) =
      entries.takeWhile fun e => start.isPrefixOf e.1 := by
  -- induction on the entries in their order, as the walk meets them
  induction entries with
  | nil => rfl
  | cons e entries ih =>
    obtain ⟨hlater, hsorted⟩ := List.pairwise_cons.1 hsorted
    obtain ⟨he, hrest⟩ := List.forall_mem_cons.1 hstart
    rw [List.filter_cons, List.takeWhile_cons]
    by_cases hprefix : start.isPrefixOf e.1 = true
    · rw [if_pos hprefix, if_pos hprefix, ih hsorted hrest]
    · rw [if_neg hprefix, if_neg hprefix]
      refine List.filter_eq_nil_iff.2 fun b hb hbprefix => hprefix ?_
      rw [List.isPrefixOf_iff_prefix] at hbprefix ⊢
      exact Bytes.prefix_of_compare he (hlater b hb) hbprefix

/-- `under` walks over the changes that `restrict` leaves, and no others. -/
theorem toList_restrict (changes : Changes) (start : Bytes) :
    (changes.restrict start).toList = changes.under start := by
  have hsorted := changes.ordered_keys_toList
  rw [restrict, Std.ExtTreeMap.toList_filter, under]
  generalize changes.toList = entries at hsorted
  -- the keys before the start are passed over, and none of them starts with it
  induction entries with
  | nil => rfl
  | cons e entries ih =>
    rw [List.dropWhile_cons]
    by_cases hbefore : compare e.1 start = .lt
    · have hprefix : ¬start.isPrefixOf e.1 = true := fun hprefix =>
        Bytes.compare_of_prefix (List.isPrefixOf_iff_prefix.1 hprefix) hbefore
      rw [if_pos (Ordering.isLT_iff_eq_lt.2 hbefore), List.filter_cons, if_neg hprefix,
        ih (List.pairwise_cons.1 hsorted).2]
    · rw [if_neg (mt Ordering.isLT_iff_eq_lt.1 hbefore)]
      refine filter_eq_takeWhile hsorted (List.forall_mem_cons.2 ⟨hbefore, fun b hb hlt => ?_⟩)
      exact hbefore (Std.TransCmp.lt_trans ((List.pairwise_cons.1 hsorted).1 b hb) hlt)

end Changes

namespace Table

/-- Carries one write out. -/
def write (table : Table Bytes) (key : Bytes) : Option Bytes → Table Bytes
  | some value => table.insert key value
  | none => table.erase key

/-- Carries changes out. -/
def apply (table : Table Bytes) (changes : Changes) : Table Bytes :=
  changes.foldl write table

/-- Carries out the changes to keys that start with the given bytes. -/
def applyUnder (table : Table Bytes) (changes : Changes) (start : Bytes) : Table Bytes :=
  (changes.under start).foldl (fun table change => table.write change.1 change.2) table

/-- The entries whose keys start with the given bytes. -/
def scan (table : Table Bytes) (start : Bytes) : Table Bytes :=
  table.filter fun key _ => start.isPrefixOf key

/-- `write` puts the change under its key, and leaves the others. -/
theorem getElem?_write (table : Table Bytes) (key : Bytes) (change : Option Bytes) (j : Bytes) :
    (table.write key change)[j]? = if key = j then change else table[j]? := by
  cases change <;>
    simp [write, Std.ExtTreeMap.getElem?_insert, Std.ExtTreeMap.getElem?_erase,
      Std.LawfulEqCmp.compare_eq_iff_eq]

/-- `apply` gives a key what the changes write, and what the table had where they write nothing. -/
theorem getElem?_apply (table : Table Bytes) (changes : Changes) (j : Bytes) :
    (table.apply changes)[j]? = changes[j]?.getD table[j]? := by
  rw [apply, getElem?_foldl id getElem?_write]
  cases changes[j]? <;> rfl

/-- `applyUnder` is `apply` of what `restrict` leaves of the changes. -/
theorem applyUnder_eq (table : Table Bytes) (changes : Changes) (start : Bytes) :
    table.applyUnder changes start = table.apply (changes.restrict start) := by
  rw [applyUnder, apply, Std.ExtTreeMap.foldl_eq_foldl_toList, Changes.toList_restrict]

/-- `scan` finds a key that starts with the given bytes as the table does, and no other. -/
theorem getElem?_scan (table : Table Bytes) (start j : Bytes) :
    (table.scan start)[j]? = if start.isPrefixOf j then table[j]? else none := by
  rw [scan, Std.ExtTreeMap.getElem?_filter']
  cases table[j]? <;> simp [Option.filter]

end Table

end LeaseChain
