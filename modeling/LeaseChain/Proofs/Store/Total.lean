import LeaseChain.Store.Table
import Mathlib.Algebra.GroupWithZero.Nat
import Mathlib.Data.List.Perm.Basic

/-!
# Totals over a table

The total of a table is the sum of what its values weigh. Writing one key changes it by what the key
gains and what it had, which is said without subtraction: an entry's weight and the total of the
table without the entry make the total.

## Key results

- `Table.total_of_getElem?`, `Table.total_of_getElem?_none`: one entry is split off
- `Table.total_insert`: the total after a write
-/

namespace LeaseChain.Table

variable {V : Type} (weight : V → Nat)

/-- The sum of what the values of a table weigh. -/
def total (table : Table V) : Nat := (table.toList.map fun entry => weight entry.2).sum

@[simp] theorem total_empty : total weight ∅ = 0 := by
  rw [total, Std.ExtTreeMap.toList_eq_nil_iff.2 rfl]
  rfl

private theorem nodup_toList (table : Table V) : table.toList.Nodup := by
  refine table.distinct_keys_toList.imp fun h heq => h ?_
  rw [heq]
  exact Std.ReflCmp.compare_self

variable {weight} {table : Table V} {key : Bytes}

/-- `total` is an entry's weight and that of the table without it. -/
theorem total_of_getElem? {value : V} (h : table[key]? = some value) :
    total weight table = weight value + total weight (table.erase key) := by
  have hperm : table.toList.Perm ((key, value) :: (table.erase key).toList) := by
    refine (List.perm_ext_iff_of_nodup (nodup_toList table) ?_).2 fun entry => ?_
    · rw [List.nodup_cons, Std.ExtTreeMap.mem_toList_iff_getElem?_eq_some]
      exact ⟨by simp, nodup_toList _⟩
    · obtain ⟨k, v⟩ := entry
      rw [List.mem_cons, Std.ExtTreeMap.mem_toList_iff_getElem?_eq_some,
        Std.ExtTreeMap.mem_toList_iff_getElem?_eq_some, Std.ExtTreeMap.getElem?_erase,
        Prod.mk.injEq]
      simp only [Std.LawfulEqCmp.compare_eq_iff_eq]
      grind
  rw [total, (hperm.map _).sum_nat, List.map_cons, List.sum_cons, total]

/-- `total` loses nothing with a key that has no entry. -/
theorem total_of_getElem?_none (h : table[key]? = none) :
    total weight table = total weight (table.erase key) := by
  congr 1
  apply Std.ExtTreeMap.ext_getElem?
  intro k
  rw [Std.ExtTreeMap.getElem?_erase]
  simp only [Std.LawfulEqCmp.compare_eq_iff_eq]
  grind

/-- `insert` puts the weight of its value in place of what the key had. -/
theorem total_insert (value : V) : total weight (table.insert key value) =
    weight value + total weight (table.erase key) := by
  have hwritten : (table.insert key value)[key]? = some value := by simp
  rw [total_of_getElem? hwritten]
  congr 2
  apply Std.ExtTreeMap.ext_getElem?
  intro k
  rw [Std.ExtTreeMap.getElem?_erase, Std.ExtTreeMap.getElem?_insert, Std.ExtTreeMap.getElem?_erase]
  split <;> rfl

end LeaseChain.Table
