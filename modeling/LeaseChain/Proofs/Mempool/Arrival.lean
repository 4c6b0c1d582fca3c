import LeaseChain.Proofs.Mempool.Ranking

/-!
# Arrival order does not matter

A pool that items are added to one after the other holds the best of them in the end, as many as it
has room for, whatever order they came in and however often they came. The invariant is that all
items that were offered, each once and in order, are the items of the pool after others
(`Ranking.IsTop`), and that there are others only if the pool is full. An item that gave way once
and comes again is among those others, so it gives way again.

## Key results

- `Ranking.place_append_tail`: what a full list keeps is the end of what was offered
- `Ranking.IsTop.add`: one more item keeps the invariant
- `Mempool.addAll_eq_of_same_items`: two orders of arrival lead to one pool
-/

namespace LeaseChain

variable {α : Type} [Pooled α]

/-- The pool after items were added one after the other. -/
def Mempool.addAll (pool : Mempool α) (items : List α) : Mempool α :=
  items.foldl (fun pool item => (pool.add item).2) pool

namespace Ranking

/-- The ranking after items were added one after the other. -/
def addAll (ranking : Ranking α) (items : List α) : Ranking α :=
  items.foldl (fun ranking item => (ranking.add item).2) ranking

/-- `place` puts an item that is below all others in front of them. -/
theorem place_of_below {item : α} {items : List α} (h : ∀ other ∈ items, below item other = true) :
    place item items = item :: items := by
  cases items with
  | nil => rfl
  | cons other items => rw [place, if_pos (h other List.mem_cons_self)]

/--
The least of the `items` that end a list with a new one gives way. What is left still ends the whole
list with the new one.
-/
theorem place_append_tail (item : α) {lower items : List α}
    (h : (lower ++ items).Pairwise (below · · = true)) :
    ∃ lower', place item (lower ++ items) = lower' ++ (place item items).tail := by
  -- induction on the part that gave way before, which ends up in front of what is kept
  induction lower with
  | nil =>
    have hne : place item items ≠ [] :=
      List.ne_nil_of_mem ((place_perm item items).mem_iff.2 List.mem_cons_self)
    exact ⟨[(place item items).head hne], (List.cons_head_tail hne).symm⟩
  | cons other lower ih =>
    rw [List.cons_append, List.pairwise_cons] at h
    rw [List.cons_append, place]
    by_cases hlt : below item other = true
    · -- the new item is below all, so it is the one that gives way
      have hbelow : ∀ kept ∈ items, below item kept = true := by
        intro kept hkept
        exact below_trans hlt (h.1 kept (List.mem_append_right lower hkept))
      refine ⟨item :: other :: lower, ?_⟩
      rw [if_pos hlt, place_of_below hbelow, List.tail_cons]
      simp
    · obtain ⟨lower', hlower⟩ := ih h.2
      exact ⟨other :: lower', by rw [if_neg hlt, hlower, List.cons_append]⟩

/--
The items of a ranking are the best of those that were offered: these are the items after others in
ascending order, and there are others only if the ranking is full.
-/
structure IsTop (ranking : Ranking α) (offered lower : List α) : Prop where
  ascending : (lower ++ ranking.items).Pairwise (below · · = true)
  mem_iff : ∀ item, item ∈ lower ++ ranking.items ↔ item ∈ offered
  le : ranking.items.length ≤ ranking.maxSize
  full : lower ≠ [] → ranking.items.length = ranking.maxSize

variable {ranking : Ranking α} {offered lower : List α}

/-- Nothing was offered to an empty ranking. -/
theorem isTop_empty (maxSize : Nat) : (empty maxSize : Ranking α).IsTop [] [] :=
  ⟨.nil, fun _ => .rfl, Nat.zero_le _, fun h => absurd rfl h⟩

namespace IsTop

variable (h : ranking.IsTop offered lower) {item : α}

include h

/-- `IsTop` reads what was offered as a set, whatever its order and its repetitions. -/
theorem congr {offered' : List α} (hsame : ∀ item, item ∈ offered ↔ item ∈ offered') :
    ranking.IsTop offered' lower :=
  ⟨h.ascending, fun item => (h.mem_iff item).trans (hsame item), h.le, h.full⟩

/-- `add` of an item that was offered before leaves the ranking as it is. -/
theorem add_of_mem (hmem : item ∈ offered) : (ranking.add item).2 = ranking := by
  -- an item that was offered is in the pool or among those that gave way
  rw [← h.mem_iff, List.mem_append] at hmem
  by_cases hhas : ranking.has (Pooled.id item) = true
  · rw [add, if_pos hhas]
  · have hlower : item ∈ lower := by
      refine hmem.resolve_right fun hitem => hhas ?_
      exact List.any_eq_true.2 ⟨item, hitem, decide_eq_true rfl⟩
    -- it gave way once, so it is below all that is there, and gives way again
    have hbelow : ∀ kept ∈ ranking.items, below item kept = true :=
      (List.pairwise_append.1 h.ascending).2.2 item hlower
    have hfull := h.full (List.ne_nil_of_mem hlower)
    rw [add, if_neg hhas]
    simp only [trim, place_of_below hbelow, List.length_cons, List.tail_cons]
    rw [if_pos (by omega)]

/-- `add` gives a new item its place, and the least gives way where the ranking is full. -/
theorem add_of_not_mem (hnew : ∀ other ∈ offered, Pooled.id other ≠ Pooled.id item) :
    ∃ lower', (ranking.add item).2.IsTop (item :: offered) lower' := by
  have hhas : ¬ranking.has (Pooled.id item) = true := by
    intro hhas
    obtain ⟨other, hother, hid⟩ := List.any_eq_true.1 hhas
    have hoffered := (h.mem_iff other).1 (List.mem_append_right lower hother)
    exact hnew other hoffered (of_decide_eq_true hid)
  have hascending : (place item (lower ++ ranking.items)).Pairwise (below · · = true) :=
    pairwise_place h.ascending fun other hother => hnew other ((h.mem_iff other).1 hother)
  have hmem (other : α) :
      other ∈ place item (lower ++ ranking.items) ↔ other ∈ item :: offered := by
    rw [(place_perm item _).mem_iff, List.mem_cons, List.mem_cons, h.mem_iff]
  have hlength := (place_perm item ranking.items).length_eq
  rw [List.length_cons] at hlength
  have hle := h.le
  rw [add, if_neg hhas]
  -- the invariant is moved along `place` on the whole list; only the front part can grow
  by_cases hfull : ranking.items.length = ranking.maxSize
  · -- the ranking is full: its least item, or the new one, joins those that gave way
    obtain ⟨lower', hlower⟩ := place_append_tail item h.ascending
    rw [hlower] at hascending hmem
    simp only [trim]
    rw [if_pos (by omega)]
    refine ⟨lower', hascending, hmem, ?_, fun _ => ?_⟩
    · simp only [List.length_tail]
      omega
    · simp only [List.length_tail]
      omega
  · -- nothing has given way so far
    have hnone : lower = [] := by
      by_cases hlower : lower = []
      · exact hlower
      · exact absurd (h.full hlower) hfull
    rw [hnone, List.nil_append] at hascending hmem
    simp only [trim]
    rw [if_neg (by omega)]
    refine ⟨[], hascending, hmem, ?_, fun hne => absurd rfl hne⟩
    simp only
    omega

/-- `IsTop` survives `add`, with one more item offered. -/
theorem add (hids : ∀ other ∈ offered, Pooled.id other = Pooled.id item → other = item) :
    ∃ lower', (ranking.add item).2.IsTop (item :: offered) lower' := by
  -- whether the item is new is decided by its identifier, which tells the offered ones apart
  by_cases hmem : item ∈ offered
  · refine ⟨lower, ?_⟩
    rw [h.add_of_mem hmem]
    refine h.congr fun other => ?_
    rw [List.mem_cons]
    exact ⟨.inr, fun hother => hother.elim (fun heq => heq ▸ hmem) id⟩
  · refine h.add_of_not_mem fun other hother hid => hmem ?_
    exact hids other hother hid ▸ hother

/-- Items that are added one after the other keep the invariant, each by `IsTop.add`. -/
theorem addAll {all items : List α}
    (hids : ∀ a ∈ all, ∀ b ∈ all, Pooled.id a = Pooled.id b → a = b)
    (hoffered : ∀ item ∈ offered, item ∈ all) (hitems : ∀ item ∈ items, item ∈ all) :
    ∃ lower', (ranking.addAll items).IsTop (items.reverse ++ offered) lower' := by
  -- induction on the items, with ranking, offered and front generalized as each step changes them
  induction items generalizing ranking offered lower with
  | nil => exact ⟨lower, h⟩
  | cons item items ih =>
    rw [List.forall_mem_cons] at hitems
    obtain ⟨lower', h'⟩ :=
      h.add fun other hother => hids other (hoffered other hother) item hitems.1
    obtain ⟨last, hlast⟩ := ih h' (List.forall_mem_cons.2 ⟨hitems.1, hoffered⟩) hitems.2
    refine ⟨last, ?_⟩
    rw [List.reverse_cons, List.append_assoc]
    exact hlast

/-- By `IsTop` the items are the first ones of all in descending order. -/
theorem items_eq :
    ranking.items = ((lower ++ ranking.items).reverse.take ranking.maxSize).reverse := by
  rw [List.reverse_append]
  -- others gave way only to a full ranking, so that otherwise everything is there
  by_cases hlower : lower = []
  · rw [hlower, List.reverse_nil, List.append_nil, List.take_of_length_le, List.reverse_reverse]
    rw [List.length_reverse]
    exact h.le
  · rw [← h.full hlower, List.take_left' List.length_reverse, List.reverse_reverse]

end IsTop

/-- `addAll` keeps the room of a ranking. -/
theorem maxSize_addAll (ranking : Ranking α) (items : List α) :
    (ranking.addAll items).maxSize = ranking.maxSize := by
  induction items generalizing ranking with
  | nil => rfl
  | cons item items ih => exact (ih _).trans (maxSize_step ranking (.add item))

/-- `addAll` to an empty ranking leaves the first of the items in descending order. -/
theorem addAll_empty (maxSize : Nat) {items : List α}
    (hids : ∀ a ∈ items, ∀ b ∈ items, Pooled.id a = Pooled.id b → a = b) :
    ∃ best : List α, best.Pairwise (fun a b => below b a = true) ∧
      (∀ item, item ∈ best ↔ item ∈ items) ∧
      (empty maxSize).addAll items = ⟨maxSize, (best.take maxSize).reverse⟩ := by
  obtain ⟨lower, h⟩ := (isTop_empty maxSize).addAll hids (fun _ => nofun) fun _ hitem => hitem
  have hmax : ((empty maxSize).addAll items).maxSize = maxSize := maxSize_addAll _ items
  refine ⟨(lower ++ ((empty maxSize).addAll items).items).reverse,
    List.pairwise_reverse.2 h.ascending, fun item => ?_, ?_⟩
  · rw [List.mem_reverse, h.mem_iff, List.append_nil, List.mem_reverse]
  -- the best ones are the items of the list read from its end
  · have hitems := h.items_eq
    rw [hmax] at hitems
    rw [← hitems]
    exact congrArg (mk · _) hmax

/-- Items are listed in strictly descending order in one way. -/
theorem eq_of_descending {best best' : List α} (h : best.Pairwise fun a b => below b a = true)
    (h' : best'.Pairwise fun a b => below b a = true)
    (hsame : ∀ item, item ∈ best ↔ item ∈ best') : best = best' := by
  have hnodup {items : List α} (h : items.Pairwise fun a b => below b a = true) : items.Nodup := by
    refine h.imp fun {a b} hlt heq => ?_
    subst heq
    exact not_below_self a hlt
  -- two descending lists with the same members are permutations, and the order decides
  refine ((List.perm_ext_iff_of_nodup (hnodup h) (hnodup h')).2 hsame).eq_of_pairwise ?_ h h'
  intro a b _ _ hba hab
  exact absurd (below_trans hab hba) (not_below_self a)

end Ranking

namespace Mempool

/-- A pool that `Shows` a ranking still does while the same items are added to both. -/
theorem Shows.addAll {pool : Mempool α} {ranking : Ranking α} (h : pool.Shows ranking)
    (items : List α) : (pool.addAll items).Shows (ranking.addAll items) := by
  induction items generalizing pool ranking with
  | nil => exact h
  | cons item items ih => exact ih (h.add item).2

/-- Pools that have the same ranking to show (`Shows`) are the same in both indexes. -/
theorem Shows.unique {pool pool' : Mempool α} {ranking : Ranking α} (h : pool.Shows ranking)
    (h' : pool'.Shows ranking) : pool = pool' := by
  have hbyId : pool.byId = pool'.byId := by
    apply Std.ExtTreeMap.ext_getElem?
    intro id
    exact (h.get?_eq id).trans (h'.get?_eq id).symm
  have hbyRank : pool.byRank = pool'.byRank := by
    apply Std.ExtTreeSet.ext_mem
    intro rank
    rw [← Std.ExtTreeSet.mem_toList, ← Std.ExtTreeSet.mem_toList, h.ranks_eq, h'.ranks_eq]
  -- a pool is its room and its two indexes
  cases pool
  cases pool'
  simp only [mk.injEq]
  exact ⟨h.maxSize_eq.trans h'.maxSize_eq.symm, hbyId, hbyRank⟩

/--
The order of arrival does not matter to `addAll`. Where the same items are offered to two new pools
of one size, in any order and any number of times each, both are the same pool in the end. With the
items in descending order as `best`, it `Shows` the first `maxSize` of them, each listed once, and
`top` lists them.
-/
theorem addAll_eq_of_same_items (maxSize : Nat) {items items' : List α}
    (hids : ∀ a ∈ items, ∀ b ∈ items, Pooled.id a = Pooled.id b → a = b)
    (hsame : ∀ item, item ∈ items ↔ item ∈ items') :
    (empty maxSize).addAll items = (empty maxSize).addAll items' ∧
    ∃ best : List α, best.Pairwise (fun a b => Ranking.below b a = true) ∧
      (∀ item, item ∈ best ↔ item ∈ items) ∧
      ((empty maxSize).addAll items).Shows ⟨maxSize, (best.take maxSize).reverse⟩ ∧
      ((empty maxSize).addAll items).top maxSize = best.take maxSize := by
  have hids' : ∀ a ∈ items', ∀ b ∈ items', Pooled.id a = Pooled.id b → a = b :=
    fun a ha b hb => hids a ((hsame a).2 ha) b ((hsame b).2 hb)
  -- both pools show the front of a descending list of the same items, of which there is one
  obtain ⟨best, hbest, hmem, hranking⟩ := Ranking.addAll_empty maxSize hids
  obtain ⟨best', hbest', hmem', hranking'⟩ := Ranking.addAll_empty maxSize hids'
  obtain rfl := Ranking.eq_of_descending hbest hbest' fun item => by rw [hmem, hmem', hsame]
  have hshows := (shows_empty maxSize).addAll items
  have hshows' := (shows_empty maxSize).addAll items'
  rw [hranking] at hshows
  rw [hranking'] at hshows'
  refine ⟨hshows.unique hshows', best, hbest, hmem, hshows, ?_⟩
  rw [hshows.top_eq, List.reverse_reverse, List.take_take, Nat.min_self]

/-! ## Three bids for two places -/

namespace Bids

/-- A bid is worth its fee. -/
instance : Pooled Rank := ⟨Rank.id, Rank.fee, fun _ => Hash.zero⟩

def low : Rank := ⟨1, Hash.replicate 9⟩

def middle : Rank := ⟨2, Hash.replicate 1⟩

def high : Rank := ⟨2, Hash.replicate 2⟩

/-- `low` gives way, comes again and gives way again; where it comes last it does not stay. -/
theorem same_places :
    (empty 2).addAll [low, middle, high, low, middle] = (empty 2).addAll [high, middle, low] ∧
    ((empty 2).addAll [low, middle, high, low, middle]).top 2 = [high, middle] := by
  have hids : ∀ a ∈ [low, middle, high, low, middle], ∀ b ∈ [low, middle, high, low, middle],
      Pooled.id a = Pooled.id b → a = b := by decide
  have hsame (bid : Rank) :
      bid ∈ [low, middle, high, low, middle] ↔ bid ∈ [high, middle, low] := by
    simp only [List.mem_cons, List.not_mem_nil]
    tauto
  have hdescending : [high, middle, low].Pairwise fun a b => Ranking.below b a = true := by decide
  obtain ⟨heq, best, hbest, hmem, -, htop⟩ := addAll_eq_of_same_items 2 hids hsame
  obtain rfl := Ranking.eq_of_descending hbest hdescending fun bid => by rw [hmem, hsame]
  exact ⟨heq, htop⟩

end Bids

end Mempool

end LeaseChain
