import LeaseChain.Mempool
import Mathlib.Data.List.Nodup

/-!
# The two indexes of the pool agree

A pool holds its items by identifier and by rank. In a consistent pool every item stands under its
own identifier, and the ranks are exactly those of the items. Every operation keeps a pool
consistent, and what it does is said by what is found by identifier afterwards.

## Key results

- `Mempool.Consistent`: the two indexes agree
- `Mempool.get?_removeAll`, `Mempool.get?_prune`: what is found after items were taken out
- `Mempool.Consistent.mem_top`, `Mempool.Consistent.nodup_ids_top`: what the pool lists
-/

namespace LeaseChain.Mempool

section LookUps

variable {α : Type} {pool : Mempool α}

/-- `get?` finds nothing in an empty pool. -/
theorem get?_empty (maxSize : Nat) (id : Hash) : (empty maxSize : Mempool α).get? id = none := by
  simp [get?, empty]

/-- An identifier is not in the pool where `get?` finds nothing under it. -/
theorem has_eq_false_iff {id : Hash} : pool.has id = false ↔ pool.get? id = none := by
  rw [has, get?, Std.ExtTreeMap.contains_eq_isSome_getElem?, Option.isSome_eq_false_iff,
    Option.isNone_iff_eq_none]

/-- `takeAt` takes the item of one rank out and leaves the others. -/
theorem get?_takeAt (rank : Rank) (id : Hash) :
    (pool.takeAt rank).2.get? id = if rank.id = id then none else pool.get? id := by
  simp only [get?, takeAt, Std.ExtTreeMap.getElem?_erase, Std.LawfulEqCmp.compare_eq_iff_eq]

/-- `popMin` brings nothing in. -/
theorem get?_popMin {id : Hash} {item : α} (h : pool.popMin.2.get? id = some item) :
    pool.get? id = some item := by
  unfold popMin at h
  split at h
  · rw [get?_takeAt] at h
    split at h
    · cases h
    · exact h
  · exact h

end LookUps

variable {α : Type} [Pooled α] {pool : Mempool α}

/-- Every item stands under its identifier, and the ranks are those of the items. -/
structure Consistent (pool : Mempool α) : Prop where
  id_eq : ∀ {id : Hash} {item : α}, pool.get? id = some item → Pooled.id item = id
  rank_iff : ∀ rank : Rank, rank ∈ pool.byRank ↔
    ∃ item, pool.get? rank.id = some item ∧ rankOf item = rank

/-- An empty pool is `Consistent`. -/
theorem consistent_empty (maxSize : Nat) : (empty maxSize : Mempool α).Consistent where
  id_eq h := by
    rw [get?_empty] at h
    cases h
  rank_iff rank := by
    simp only [get?_empty]
    simp [empty]

/-! ## Putting items in -/

/-- After an `insert` the item is found under its identifier, and else what was found before. -/
theorem get?_insert (item : α) (id : Hash) :
    (pool.insert item).get? id = if Pooled.id item = id then some item else pool.get? id := by
  simp only [get?, insert, Std.ExtTreeMap.getElem?_insert, Std.LawfulEqCmp.compare_eq_iff_eq]

/-- `add` brings nothing in but the item. -/
theorem get?_add {item : α} {id : Hash} {found : α} (h : (pool.add item).2.get? id = some found) :
    found = item ∨ pool.get? id = some found := by
  have hgrown {pool' : Mempool α} (h : pool'.get? id = some found)
      (heq : pool' = pool.insert item) : found = item ∨ pool.get? id = some found := by
    rw [heq, get?_insert] at h
    split at h
    · exact .inl (Option.some.inj h).symm
    · exact .inr h
  simp only [add] at h
  -- an item that is in the pool already changes nothing
  split at h
  · exact .inr h
  · -- a pool that is full gives its least item up again
    split at h
    · have hpop : (pool.insert item).popMin.2.get? id = some found := by
        split at h <;> next heq => rwa [heq]
      exact hgrown (get?_popMin hpop) rfl
    · exact hgrown h rfl

/-! ## Taking items out -/

/-- After a `remove` nothing is found under the identifier, and else what was found before. -/
theorem get?_remove (id j : Hash) :
    (pool.remove id).2.get? j = if id = j then none else pool.get? j := by
  unfold remove
  -- a pool without the identifier is left as it is
  split
  · next h =>
    split
    · next hid => rw [← hid, h]
    · rfl
  · simp only [get?, Std.ExtTreeMap.getElem?_erase, Std.LawfulEqCmp.compare_eq_iff_eq]

/-- After a `removeAll` nothing is found under any of the identifiers. -/
theorem get?_removeAll (ids : List Hash) (j : Hash) :
    (pool.removeAll ids).get? j = if j ∈ ids then none else pool.get? j := by
  induction ids generalizing pool with
  | nil => simp [removeAll]
  | cons id ids ih =>
    -- an identifier may come again later in the list
    rw [removeAll, List.foldl_cons, ← removeAll, ih, get?_remove]
    by_cases hmem : j ∈ ids
    · simp [hmem]
    · by_cases hid : id = j
      · simp [hid]
      · simp [hmem, hid, Ne.symm hid]

/-- `removeAll` takes items out in two goes, or in one. -/
theorem removeAll_append (ids ids' : List Hash) :
    pool.removeAll (ids ++ ids') = (pool.removeAll ids).removeAll ids' :=
  List.foldl_append

theorem mem_staleIds_iff {valid : Hash → Bool} {id : Hash} :
    id ∈ pool.staleIds valid ↔ ∃ item, pool.get? id = some item ∧
      valid (Pooled.blockId item) = false := by
  simp only [staleIds, List.mem_map, List.mem_filter, Prod.exists, exists_and_right,
    exists_eq_right, Std.ExtTreeMap.mem_toList_iff_getElem?_eq_some, Bool.not_eq_true', get?]

/-- `prune` takes out exactly the items that were made against a block that is not valid. -/
theorem get?_prune (valid : Hash → Bool) (id : Hash) :
    (pool.prune valid).2.get? id =
      (pool.get? id).filter fun item => valid (Pooled.blockId item) := by
  rw [prune, get?_removeAll]
  -- by what stands under the identifier: nothing, a stale item or a valid one
  cases h : pool.get? id with
  | none => simp
  | some item =>
    cases hvalid : valid (Pooled.blockId item) with
    | false =>
      rw [if_pos (mem_staleIds_iff.2 ⟨item, h, hvalid⟩), Option.filter, hvalid]
      rfl
    | true =>
      -- the item under the identifier is the only one there, and it is valid
      have hnot : id ∉ pool.staleIds valid := by
        intro hmem
        obtain ⟨other, hother, hstale⟩ := mem_staleIds_iff.1 hmem
        obtain rfl := Option.some.inj (h.symm.trans hother)
        rw [hvalid] at hstale
        cases hstale
      rw [if_neg hnot, Option.filter, hvalid]
      rfl

namespace Consistent

variable (hc : pool.Consistent)

include hc

/-- `Consistent` survives `insert` of an item with a new identifier. -/
theorem insert {item : α} (hnew : pool.get? (Pooled.id item) = none) :
    (pool.insert item).Consistent where
  id_eq h := by
    rw [get?_insert] at h
    split at h
    · next hid => exact Option.some.inj h ▸ hid
    · exact hc.id_eq h
  rank_iff rank := by
    have hmem : rank ∈ (pool.insert item).byRank ↔ rankOf item = rank ∨ rank ∈ pool.byRank := by
      simp only [Mempool.insert, Std.ExtTreeSet.mem_insert, Std.LawfulEqCmp.compare_eq_iff_eq]
    rw [hmem, hc.rank_iff]
    simp only [get?_insert]
    constructor
    · rintro (rfl | ⟨other, hother, hrank⟩)
      · exact ⟨item, if_pos rfl, rfl⟩
      · refine ⟨other, ?_, hrank⟩
        -- the new item takes no other item's place
        rw [if_neg fun hid => ?_]
        · exact hother
        · rw [hid, hother] at hnew
          cases hnew
    · rintro ⟨other, hother, rfl⟩
      split at hother
      · exact .inl (Option.some.inj hother ▸ rfl)
      · exact .inr ⟨other, hother, rfl⟩

/-- `Consistent` survives that a rank is given up together with its item. -/
theorem erase {rank : Rank} (hmem : rank ∈ pool.byRank) :
    Consistent { pool with
      byId := pool.byId.erase rank.id
      byRank := pool.byRank.erase rank } where
  id_eq {id item} h := by
    refine hc.id_eq (?_ : pool.get? id = some item)
    simp only [get?, Std.ExtTreeMap.getElem?_erase] at h
    split at h
    · cases h
    · exact h
  rank_iff other := by
    have hmem' : other ∈ pool.byRank.erase rank ↔ rank ≠ other ∧ other ∈ pool.byRank := by
      rw [Std.ExtTreeSet.mem_erase, Ne, Std.LawfulEqCmp.compare_eq_iff_eq]
    rw [hmem', hc.rank_iff]
    simp only [get?, Std.ExtTreeMap.getElem?_erase, Std.LawfulEqCmp.compare_eq_iff_eq]
    -- two ranks of one identifier are those of one item
    obtain ⟨item, hitem, hrank⟩ := (hc.rank_iff rank).1 hmem
    constructor
    · rintro ⟨hne, found, hfound, rfl⟩
      refine ⟨found, ?_, rfl⟩
      rw [if_neg fun hid => ?_]
      · exact hfound
      · rw [hid] at hitem
        obtain rfl := Option.some.inj (hitem.symm.trans hfound)
        exact hne hrank.symm
    · rintro ⟨found, hfound, rfl⟩
      split at hfound
      · cases hfound
      · next hid => exact ⟨fun heq => hid (congrArg Rank.id heq), found, hfound, rfl⟩

/-- `Consistent` survives `popMin`. -/
theorem popMin : pool.popMin.2.Consistent := by
  unfold Mempool.popMin
  split
  · next rank hrank => exact hc.erase (Std.ExtTreeSet.min?_mem hrank)
  · exact hc

/-- `Consistent` survives `add`, also where the pool overflows. -/
theorem add (item : α) : (pool.add item).2.Consistent := by
  simp only [Mempool.add]
  -- already there; put in where there is room; put in and the least taken out again
  split
  · exact hc
  · next hnew =>
    have hgrown := hc.insert (has_eq_false_iff.1 (Bool.eq_false_iff.2 hnew))
    split
    · have hpop := hgrown.popMin
      split <;> next heq => rwa [heq] at hpop
    · exact hgrown

/-- `Consistent` survives `remove`. -/
theorem remove (id : Hash) : (pool.remove id).2.Consistent := by
  unfold Mempool.remove
  split
  · exact hc
  · next item hitem =>
    -- the rank that is erased is the item's, since the item has the identifier that it stands under
    have hid := hc.id_eq hitem
    exact hc.erase ((hc.rank_iff ⟨Pooled.fee item, id⟩).2 ⟨item, hitem, by rw [rankOf, hid]⟩)

/-- `Consistent` survives `removeAll`. -/
theorem removeAll (ids : List Hash) : (pool.removeAll ids).Consistent := by
  induction ids generalizing pool with
  | nil => exact hc
  | cons id ids ih => exact ih (hc.remove id)

/-- `Consistent` survives `prune`. -/
theorem prune (valid : Hash → Bool) : (pool.prune valid).2.Consistent := hc.removeAll _

theorem mem_top {limit : Nat} {item : α} (h : item ∈ pool.top limit) :
    pool.get? (Pooled.id item) = some item := by
  obtain ⟨rank, -, hitem⟩ := List.mem_filterMap.1 h
  rw [hc.id_eq hitem]
  exact hitem

/-- `top` lists no identifier twice. -/
theorem nodup_ids_top (limit : Nat) : ((pool.top limit).map Pooled.id).Nodup := by
  -- the ranks are listed without repetition, as they are those of a set
  have hranks : (pool.byRank.toList.reverse.take limit).Nodup := by
    have hdistinct : pool.byRank.toList.Pairwise fun a b => ¬compare a b = .eq :=
      pool.byRank.distinct_toList
    have hnodup : pool.byRank.toList.Nodup :=
      hdistinct.imp fun h heq => h (Std.LawfulEqCmp.compare_eq_iff_eq.2 heq)
    exact (List.nodup_reverse.2 hnodup).sublist (List.take_sublist _ _)
  have hmem : ∀ rank ∈ pool.byRank.toList.reverse.take limit, rank ∈ pool.byRank := fun rank h =>
    Std.ExtTreeSet.mem_toList.1 (List.mem_reverse.1 (List.mem_of_mem_take h))
  rw [List.Nodup, List.pairwise_map, top, List.pairwise_filterMap]
  refine hranks.imp_of_mem fun {a b} ha hb hne item hitem other hother hid => hne ?_
  -- two ranks of one identifier are those of one item
  obtain ⟨x, hx, hxa⟩ := (hc.rank_iff a).1 (hmem a ha)
  obtain ⟨y, hy, hyb⟩ := (hc.rank_iff b).1 (hmem b hb)
  have hab : a.id = b.id := by rw [← hc.id_eq hitem, hid, hc.id_eq hother]
  rw [hab, hy] at hx
  rw [← hxa, ← hyb, Option.some.inj hx]

end Consistent

end LeaseChain.Mempool
