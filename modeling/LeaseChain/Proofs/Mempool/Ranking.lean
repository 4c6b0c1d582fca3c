import LeaseChain.Proofs.Mempool
import Mathlib.Data.List.Sort

/-!
# The pool is a bounded sorted set

A pool with its two indexes answers every request as a plain list does that holds the items from the
least rank to the greatest (`Ranking`). The list has one item for each identifier, and each of its
operations is a list operation: the ends are popped, a full list gives up its head, and pruning is a
filter. `Mempool.Shows` relates the two, and every request keeps it.

## Key results

- `Mempool.Shows.restrict`: taking items out is filtering the list
- `Mempool.Shows.step`: one request has the same answer, and leads to related pools
- `Mempool.serve_eq_ranking`: so do all requests that follow one another on a new pool
-/

namespace LeaseChain

/-- The items of a pool from the least rank to the greatest. -/
structure Ranking (α : Type) where
  maxSize : Nat
  items : List α

/-- What a pool can be asked to do. -/
inductive PoolRequest (α : Type) where
  | add (item : α)
  | popMax
  | popMin
  | remove (id : Hash)
  | get (id : Hash)
  | has (id : Hash)
  | peekMax
  | peekMin
  | prune (valid : Hash → Bool)
  | top (limit : Nat)

/-- What a pool answers. -/
inductive PoolAnswer (α : Type) where
  | flag (b : Bool)
  | item (found : Option α)
  /-- An item with its fee. -/
  | priced (found : Option (α × UInt64))
  | count (n : Nat)
  | items (list : List α)

/-- Serves requests one after the other. -/
def PoolRequest.serve {α σ : Type} (step : σ → PoolRequest α → PoolAnswer α × σ) :
    σ → List (PoolRequest α) → List (PoolAnswer α) × σ
  | s, [] => ([], s)
  | s, request :: requests =>
    let served := serve step (step s request).2 requests
    ((step s request).1 :: served.1, served.2)

variable {α : Type} [Pooled α]

/-- What the pool answers to a request, and the pool afterwards. -/
def Mempool.step (pool : Mempool α) : PoolRequest α → PoolAnswer α × Mempool α
  | .add item => (pool.add item).map .flag id
  | .popMax => pool.popMax.map .priced id
  | .popMin => pool.popMin.map .priced id
  | .remove key => (pool.remove key).map .item id
  | .get id => (.item (pool.get? id), pool)
  | .has id => (.flag (pool.has id), pool)
  | .peekMax => (.priced pool.max?, pool)
  | .peekMin => (.priced pool.min?, pool)
  | .prune valid => (pool.prune valid).map .count id
  | .top limit => (.items (pool.top limit), pool)

namespace Ranking

/-- A ranking without items. -/
def empty (maxSize : Nat) : Ranking α := ⟨maxSize, []⟩

/-- An item with its fee. -/
def price (item : α) : α × UInt64 := (item, Pooled.fee item)

/-- Whether an item ranks below another. -/
def below (a b : α) : Bool := compare (Mempool.rankOf a) (Mempool.rankOf b) = .lt

/-- The list with one more item at its place. -/
def place (item : α) : List α → List α
  | [] => [item]
  | other :: items => if below item other then item :: other :: items else other :: place item items

/-- The item with an identifier. -/
def get? (ranking : Ranking α) (id : Hash) : Option α :=
  ranking.items.find? (Pooled.id · = id)

/-- Whether an item has the identifier. -/
def has (ranking : Ranking α) (id : Hash) : Bool := ranking.items.any (Pooled.id · = id)

/-- The list without its least item if it is too long. -/
def trim (ranking : Ranking α) : Ranking α :=
  if ranking.maxSize < ranking.items.length then { ranking with items := ranking.items.tail }
  else ranking

/--
Puts an item at its place unless its identifier is there, and trims the list. The answer is whether
the new item has stayed.
-/
def add (ranking : Ranking α) (item : α) : Bool × Ranking α :=
  if ranking.has (Pooled.id item) then (false, ranking)
  else
    let trimmed := Ranking.trim { ranking with items := place item ranking.items }
    (trimmed.has (Pooled.id item), trimmed)

/-- What a ranking answers to a request, and the ranking afterwards. -/
def step (ranking : Ranking α) : PoolRequest α → PoolAnswer α × Ranking α
  | .add item => (ranking.add item).map .flag id
  | .popMax =>
    (.priced (ranking.items.getLast?.map price), { ranking with items := ranking.items.dropLast })
  | .popMin =>
    (.priced (ranking.items.head?.map price), { ranking with items := ranking.items.tail })
  | .remove id =>
    (.item (ranking.get? id), { ranking with items := ranking.items.filter (Pooled.id · ≠ id) })
  | .get id => (.item (ranking.get? id), ranking)
  | .has id => (.flag (ranking.has id), ranking)
  | .peekMax => (.priced (ranking.items.getLast?.map price), ranking)
  | .peekMin => (.priced (ranking.items.head?.map price), ranking)
  | .prune valid =>
    (.count (ranking.items.countP fun item => !valid (Pooled.blockId item)),
      { ranking with items := ranking.items.filter fun item => valid (Pooled.blockId item) })
  | .top limit => (.items (ranking.items.reverse.take limit), ranking)

/-! ## The order -/

/-- `below` is the strict order of the ranks. -/
theorem below_iff {a b : α} :
    below a b = true ↔ compare (Mempool.rankOf a) (Mempool.rankOf b) = .lt := by
  simp [below]

/-- `below` is transitive, as the order of ranks is. -/
theorem below_trans {a b c : α} (hab : below a b = true) (hbc : below b c = true) :
    below a c = true :=
  below_iff.2 (Std.TransCmp.lt_trans (below_iff.1 hab) (below_iff.1 hbc))

/-- No item is `below` itself. -/
theorem not_below_self (a : α) : ¬below a a = true := by
  intro h
  have hself : compare (Mempool.rankOf a) (Mempool.rankOf a) = .eq := Std.ReflCmp.compare_self
  rw [below_iff, hself] at h
  cases h

/-- Of two items with different identifiers one is `below` the other. -/
theorem below_or_below {a b : α} (hne : Pooled.id a ≠ Pooled.id b) :
    below a b = true ∨ below b a = true := by
  simp only [below_iff]
  -- ranks are compared by fee and then by identifier, so equal ranks have one identifier
  cases h : compare (Mempool.rankOf a) (Mempool.rankOf b) with
  | lt => exact .inl rfl
  | eq => exact absurd (congrArg Rank.id (Std.LawfulEqCmp.compare_eq_iff_eq.1 h)) hne
  | gt => exact .inr (Std.OrientedCmp.gt_iff_lt.1 h)

/-- An item that is `below` another has no higher fee. -/
theorem fee_le_of_below {a b : α} (h : below a b = true) : Pooled.fee a ≤ Pooled.fee b := by
  have hcompare : (compare (Pooled.fee a) (Pooled.fee b)).then
      (compare (Pooled.id a) (Pooled.id b)) = .lt := below_iff.1 h
  -- either the fees decide, or they are equal and the identifiers do
  refine Std.isLE_compare.1 ?_
  rcases Ordering.then_eq_lt.1 hcompare with hlt | ⟨heq, -⟩
  · rw [hlt]
    rfl
  · rw [heq]
    rfl

/-- `place` adds the item to those that were there. -/
theorem place_perm (item : α) (items : List α) : (place item items).Perm (item :: items) := by
  -- induction along the walk to the place, which swaps the new item with those before it
  induction items with
  | nil => exact .refl _
  | cons other items ih =>
    rw [place]
    split
    · exact .refl _
    · exact (ih.cons other).trans (.swap item other items)

/-- `place` puts an item with a new identifier where the order wants it. -/
theorem pairwise_place {item : α} {items : List α} (h : items.Pairwise (below · · = true))
    (hnew : ∀ other ∈ items, Pooled.id other ≠ Pooled.id item) :
    (place item items).Pairwise (below · · = true) := by
  -- induction along the walk: at each item, the new one is put here or belongs behind
  induction items with
  | nil => exact List.pairwise_singleton _ _
  | cons other items ih =>
    rw [List.pairwise_cons] at h
    rw [List.forall_mem_cons] at hnew
    rw [place]
    split
    · next hlt =>
      refine List.pairwise_cons.2 ⟨fun b hb => ?_, List.pairwise_cons.2 h⟩
      rcases List.mem_cons.1 hb with rfl | hb
      · exact hlt
      · exact below_trans hlt (h.1 b hb)
    · next hnot =>
      refine List.pairwise_cons.2 ⟨fun b hb => ?_, ih h.2 hnew.2⟩
      rcases List.mem_cons.1 ((place_perm item items).mem_iff.1 hb) with rfl | hb
      · exact (below_or_below hnew.1).resolve_right hnot
      · exact h.1 b hb

/-! ## The bound -/

omit [Pooled α] in
/-- `trim` keeps the room of a ranking. -/
theorem maxSize_trim (ranking : Ranking α) : ranking.trim.maxSize = ranking.maxSize := by
  unfold trim
  split <;> rfl

/-- No `step` changes the room of a ranking. -/
theorem maxSize_step (ranking : Ranking α) (request : PoolRequest α) :
    (ranking.step request).2.maxSize = ranking.maxSize := by
  -- only adding touches more than the list, through the trimming
  cases request with
  | add item =>
    simp only [step, add]
    split
    · rfl
    · exact maxSize_trim _
  | _ => rfl

omit [Pooled α] in
/-- `trim` cuts a ranking that is too long by one item at most to its room. -/
theorem trim_le {ranking : Ranking α} (h : ranking.items.length ≤ ranking.maxSize + 1) :
    ranking.trim.items.length ≤ ranking.maxSize := by
  unfold trim
  split
  · rw [List.length_tail]
    omega
  · omega

/-- No `step` makes a ranking too long. -/
theorem step_le {ranking : Ranking α} (h : ranking.items.length ≤ ranking.maxSize)
    (request : PoolRequest α) : (ranking.step request).2.items.length ≤ ranking.maxSize := by
  cases request with
  | add item =>
    simp only [step, add]
    split
    -- only adding makes a list longer, and by one item
    · exact h
    · refine trim_le ?_
      rw [(place_perm item ranking.items).length_eq]
      exact Nat.succ_le_succ h
  | popMax => exact (List.dropLast_sublist _).length_le.trans h
  | popMin => exact (List.tail_sublist _).length_le.trans h
  | remove id => exact (List.length_filter_le _ _).trans h
  | prune valid => exact (List.length_filter_le _ _).trans h
  | get | has | peekMax | peekMin | top => exact h

/-- `serve` never makes a ranking longer than its `maxSize`. -/
theorem serve_le {ranking : Ranking α} (h : ranking.items.length ≤ ranking.maxSize)
    (requests : List (PoolRequest α)) :
    (PoolRequest.serve step ranking requests).2.items.length ≤ ranking.maxSize := by
  -- induction on the requests, with the ranking generalized: the bound is kept by every step
  induction requests generalizing ranking with
  | nil => exact h
  | cons request requests ih =>
    rw [← maxSize_step ranking request]
    exact ih (by rw [maxSize_step]; exact step_le h request)

/-! ## Look-ups -/

/-- What `get?` finds is in the list and has the identifier. -/
theorem get?_mem {ranking : Ranking α} {id : Hash} {item : α} (h : ranking.get? id = some item) :
    item ∈ ranking.items ∧ Pooled.id item = id :=
  ⟨List.mem_of_find?_eq_some h,
    of_decide_eq_true (List.find?_some (p := fun item => decide (Pooled.id item = id)) h)⟩

/-- Where no identifier comes twice, `get?` finds an item under its own. -/
theorem get?_of_mem {ranking : Ranking α} (hdistinct : (ranking.items.map Pooled.id).Nodup)
    {item : α} (h : item ∈ ranking.items) : ranking.get? (Pooled.id item) = some item := by
  cases hget : ranking.get? (Pooled.id item) with
  | none =>
    exact absurd (decide_eq_true rfl) (List.find?_eq_none.1 hget item h)
  | some found =>
    obtain ⟨hmem, hid⟩ := get?_mem hget
    rw [List.inj_on_of_nodup_map hdistinct hmem h hid]

/-- `has` without the least item holds of an item exactly if it was another one. -/
theorem id_bne_eq_has_tail {maxSize : Nat} {items rest : List α} {least item : α}
    (hitems : items = least :: rest) (hdistinct : (items.map Pooled.id).Nodup)
    (hmem : item ∈ items) :
    (Pooled.id least != Pooled.id item) = Ranking.has ⟨maxSize, rest⟩ (Pooled.id item) := by
  rw [hitems, List.map_cons, List.nodup_cons] at hdistinct
  rw [hitems, List.mem_cons] at hmem
  rw [Bool.eq_iff_iff, bne_iff_ne, has, List.any_eq_true]
  simp only [decide_eq_true_eq, ← List.mem_map]
  constructor
  · intro hne
    rcases hmem with rfl | hmem
    · exact absurd rfl hne
    · exact List.mem_map_of_mem hmem
  · intro hrest heq
    exact hdistinct.1 (heq ▸ hrest)

/-- An identifier is in the list exactly where `get?` finds something under it. -/
theorem has_eq_isSome (ranking : Ranking α) (id : Hash) :
    ranking.has id = (ranking.get? id).isSome := by
  rw [has, get?, List.isSome_find?]

end Ranking

namespace Mempool

@[simp] theorem rankOf_id (item : α) : (rankOf item).id = Pooled.id item := rfl

/-- The pool holds the items of the list, in both of its indexes. -/
structure Shows (pool : Mempool α) (ranking : Ranking α) : Prop where
  maxSize_eq : pool.maxSize = ranking.maxSize
  /-- The list is in ascending order, -/
  ascending : ranking.items.Pairwise (Ranking.below · · = true)
  /-- and no identifier comes twice. -/
  distinct : (ranking.items.map Pooled.id).Nodup
  /-- By identifier the pool finds what the list finds, -/
  get?_eq : ∀ id, pool.get? id = ranking.get? id
  /-- and its ranks are those of the list. -/
  ranks_eq : pool.byRank.toList = ranking.items.map rankOf

variable {pool : Mempool α} {ranking : Ranking α}

/-- An ascending list with the items of a `Consistent` pool is what the pool `Shows`. -/
theorem Shows.of_mem_iff (hc : pool.Consistent) (hmax : pool.maxSize = ranking.maxSize)
    (hasc : ranking.items.Pairwise (Ranking.below · · = true))
    (hmem : ∀ item, item ∈ ranking.items ↔ pool.get? (Pooled.id item) = some item) :
    pool.Shows ranking := by
  have hdistinct : (ranking.items.map Pooled.id).Nodup := by
    refine List.pairwise_map.2 (hasc.imp_of_mem fun {a b} ha hb hlt hid => ?_)
    -- two items of one identifier are one item, which is not below itself
    have hab : some a = some b := by rw [← (hmem a).1 ha, hid, (hmem b).1 hb]
    obtain rfl := Option.some.inj hab
    exact Ranking.not_below_self a hlt
  refine ⟨hmax, hasc, hdistinct, fun id => ?_, ?_⟩
  · cases hget : pool.get? id with
    | none =>
      cases hfound : ranking.get? id with
      | none => rfl
      | some item =>
        obtain ⟨hitem, rfl⟩ := Ranking.get?_mem hfound
        rw [(hmem item).1 hitem] at hget
        cases hget
    | some item =>
      obtain rfl := hc.id_eq hget
      exact (Ranking.get?_of_mem hdistinct ((hmem item).2 hget)).symm
  · -- two lists in strictly ascending order are equal if they have the same members
    have hreal : pool.byRank.toList.Pairwise (compare · · = .lt) := pool.byRank.ordered_toList
    have hideal : (ranking.items.map rankOf).Pairwise (compare · · = .lt) :=
      List.pairwise_map.2 (hasc.imp fun h => Ranking.below_iff.1 h)
    have hnodup {ranks : List Rank} (h : ranks.Pairwise (compare · · = .lt)) : ranks.Nodup :=
      h.imp fun {a b} hlt heq => by
        subst heq
        have hself : compare a a = .eq := Std.ReflCmp.compare_self
        rw [hself] at hlt
        cases hlt
    have hperm : pool.byRank.toList.Perm (ranking.items.map rankOf) := by
      refine (List.perm_ext_iff_of_nodup (hnodup hreal) (hnodup hideal)).2 fun rank => ?_
      rw [Std.ExtTreeSet.mem_toList, hc.rank_iff, List.mem_map]
      refine exists_congr fun item => and_congr_left fun hrank => ?_
      rw [hmem, ← hrank]
      rfl
    refine hperm.eq_of_pairwise (fun a b _ _ hab hba => ?_) hreal hideal
    rw [Std.OrientedCmp.gt_iff_lt.2 hba] at hab
    cases hab

/-- Every `Consistent` pool `Shows` a list. -/
theorem Consistent.exists_shows (hc : pool.Consistent) :
    ∃ items, pool.Shows ⟨pool.maxSize, items⟩ := by
  have hranked {rank : Rank} (hrank : rank ∈ pool.byRank.toList) {item : α}
      (hitem : pool.get? rank.id = some item) : rankOf item = rank := by
    obtain ⟨found, hfound, heq⟩ := (hc.rank_iff rank).1 (Std.ExtTreeSet.mem_toList.1 hrank)
    exact Option.some.inj (hfound.symm.trans hitem) ▸ heq
  refine ⟨pool.byRank.toList.filterMap fun rank => pool.get? rank.id,
    .of_mem_iff hc rfl ?_ fun item => ?_⟩
  · refine List.pairwise_filterMap.2 (pool.byRank.ordered_toList.imp_of_mem ?_)
    intro a b ha hb hlt item hitem other hother
    rw [Ranking.below_iff, hranked ha hitem, hranked hb hother]
    exact hlt
  · rw [List.mem_filterMap]
    -- the item of a rank in the one index is found in the other, and the other way round
    constructor
    · rintro ⟨rank, -, hitem⟩
      rw [hc.id_eq hitem]
      exact hitem
    · intro hitem
      have hrank := (hc.rank_iff (rankOf item)).2 ⟨item, hitem, rfl⟩
      exact ⟨rankOf item, Std.ExtTreeSet.mem_toList.2 hrank, hitem⟩

/-- A new pool `Shows` the empty list. -/
theorem shows_empty (maxSize : Nat) : (empty maxSize : Mempool α).Shows (Ranking.empty maxSize) :=
  .of_mem_iff (consistent_empty maxSize) rfl .nil fun item => by simp [Ranking.empty, get?_empty]

namespace Shows

variable (h : pool.Shows ranking)

include h

/-- The list holds the items that `get?` finds under their own identifiers. -/
theorem mem_iff {item : α} :
    item ∈ ranking.items ↔ pool.get? (Pooled.id item) = some item := by
  rw [h.get?_eq]
  exact ⟨Ranking.get?_of_mem h.distinct, fun hget => (Ranking.get?_mem hget).1⟩

/-- A pool that shows a list is `Consistent`: both of its indexes have the items of that list. -/
theorem toConsistent : pool.Consistent where
  -- a rank is in its index exactly where the item with that rank is in the list
  id_eq hget := (Ranking.get?_mem (h.get?_eq _ ▸ hget)).2
  rank_iff rank := by
    rw [← Std.ExtTreeSet.mem_toList, h.ranks_eq, List.mem_map]
    refine exists_congr fun item => and_congr_left fun hrank => ?_
    rw [h.mem_iff, ← hrank]
    rfl

/-- `has` is the same of pool and list. -/
theorem has_eq (id : Hash) : pool.has id = ranking.has id := by
  rw [Ranking.has_eq_isSome, ← h.get?_eq, has, get?, Std.ExtTreeMap.contains_eq_isSome_getElem?]

/-- The identifiers of the index `byId` are those of the list. -/
theorem keys_perm : pool.byId.keys.Perm (ranking.items.map Pooled.id) := by
  refine (List.perm_ext_iff_of_nodup Std.ExtTreeMap.nodup_keys h.distinct).2 fun id => ?_
  rw [Std.ExtTreeMap.mem_keys, ← Std.ExtTreeMap.contains_iff_mem, ← has, h.has_eq, Ranking.has,
    List.any_eq_true, List.mem_map]
  simp only [decide_eq_true_eq]

theorem size_eq : pool.size = ranking.items.length := by
  rw [size, ← Std.ExtTreeMap.length_keys, h.keys_perm.length_eq, List.length_map]

/-- `max?` of the pool is the last item of the list. -/
theorem max?_eq : pool.max? = ranking.items.getLast?.map Ranking.price := by
  rw [max?, Std.ExtTreeSet.max?_eq_getLast?_toList, h.ranks_eq, List.getLast?_map]
  cases hlast : ranking.items.getLast? with
  | none => rfl
  | some item =>
    have hget := h.mem_iff.1 (List.mem_of_getLast? hlast)
    simp only [Option.map_some, Option.bind_some, atRank?, rankOf, hget, Ranking.price]

/-- `min?` of the pool is the first item of the list. -/
theorem min?_eq : pool.min? = ranking.items.head?.map Ranking.price := by
  rw [min?, Std.ExtTreeSet.min?_eq_head?_toList, h.ranks_eq, List.head?_map]
  cases hhead : ranking.items.head? with
  | none => rfl
  | some item =>
    have hget := h.mem_iff.1 (List.mem_of_head? hhead)
    simp only [Option.map_some, Option.bind_some, atRank?, rankOf, hget, Ranking.price]

/-- `top` lists the items of the list from its end on. -/
theorem top_eq (limit : Nat) : pool.top limit = ranking.items.reverse.take limit := by
  rw [top, h.ranks_eq, ← List.map_reverse, ← List.map_take, List.filterMap_map]
  have hall : ∀ item ∈ ranking.items.reverse.take limit, pool.get? (rankOf item).id = some item :=
    fun item hitem => h.mem_iff.1 (List.mem_reverse.1 (List.mem_of_mem_take hitem))
  -- every rank that is listed has its item in the other index, so that none is skipped
  calc (ranking.items.reverse.take limit).filterMap ((fun rank => pool.get? rank.id) ∘ rankOf)
      = (ranking.items.reverse.take limit).filterMap some := List.filterMap_congr hall
    _ = ranking.items.reverse.take limit := List.filterMap_some

/-! ### Taking items out -/

/-- A pool that has lost some of its items `Shows` the list without them. -/
theorem restrict {rest : Mempool α} {items : List α} (hc : rest.Consistent)
    (hmax : rest.maxSize = pool.maxSize) (hsub : items.Sublist ranking.items)
    (hkept : ∀ item ∈ ranking.items, item ∈ items ↔ rest.get? (Pooled.id item) = some item)
    (hget : ∀ {id : Hash} {item : α}, rest.get? id = some item → pool.get? id = some item) :
    rest.Shows { ranking with items } := by
  refine .of_mem_iff hc (hmax.trans h.maxSize_eq) (h.ascending.sublist hsub) fun item => ?_
  -- the list without the items is one in which exactly the items of the pool are left
  constructor
  · exact fun hitem => (hkept item (hsub.subset hitem)).1 hitem
  · exact fun hitem => (hkept item (h.mem_iff.2 (hget hitem))).2 hitem

/-- `takeAt` gives the item at one place up. -/
theorem takeAt {item : α} {before after : List α}
    (hitems : ranking.items = before ++ item :: after) :
    (pool.takeAt (rankOf item)).1 = some (Ranking.price item) ∧
      (pool.takeAt (rankOf item)).2.Shows { ranking with items := before ++ after } := by
  have hmem : item ∈ ranking.items := by simp [hitems]
  have hget := h.mem_iff.1 hmem
  constructor
  · simp only [Mempool.takeAt, atRank?, rankOf, hget, Option.map_some, Ranking.price]
  · have hrank : rankOf item ∈ pool.byRank := (h.toConsistent.rank_iff _).2 ⟨item, hget, rfl⟩
    refine h.restrict (h.toConsistent.erase hrank) rfl ?_ (fun other hother => ?_)
      fun {id found} => ?_
    · rw [hitems]
      exact (List.sublist_cons_self item after).append_left before
    · rw [get?_takeAt, rankOf_id, h.mem_iff.1 hother]
      -- what is left has other identifiers
      have hdistinct := h.distinct
      rw [hitems, List.map_append, List.map_cons, List.nodup_middle, List.nodup_cons,
        ← List.map_append] at hdistinct
      constructor
      · intro hleft
        refine if_neg fun hid => hdistinct.1 ?_
        exact hid ▸ List.mem_map_of_mem hleft
      · intro hsome
        rw [hitems, List.mem_append, List.mem_cons] at hother
        rcases hother with hother | rfl | hother
        · exact List.mem_append_left _ hother
        · rw [if_pos rfl] at hsome
          cases hsome
        · exact List.mem_append_right _ hother
    · rw [get?_takeAt]
      split
      · intro hnone
        cases hnone
      · exact fun hfound => hfound

/-- `popMax` gives up the last item of the list. -/
theorem popMax : pool.popMax.1 = ranking.items.getLast?.map Ranking.price ∧
    pool.popMax.2.Shows { ranking with items := ranking.items.dropLast } := by
  rw [Mempool.popMax, Std.ExtTreeSet.max?_eq_getLast?_toList, h.ranks_eq, List.getLast?_map]
  -- an empty list gives up nothing; otherwise the item at the end is taken out
  rcases List.eq_nil_or_concat ranking.items with hnil | ⟨before, item, hitems⟩
  · rw [hnil]
    refine ⟨rfl, ?_⟩
    have heq : ranking = { ranking with items := [].dropLast } := by
      rw [List.dropLast_nil, ← hnil]
    exact heq ▸ h
  · have hlast : ranking.items = before ++ item :: [] := hitems.trans List.concat_eq_append
    have htaken := h.takeAt hlast
    rw [hitems, List.concat_eq_append, List.getLast?_concat, List.dropLast_concat]
    rwa [List.append_nil] at htaken

/-- `popMin` gives up the first item of the list. -/
theorem popMin : pool.popMin.1 = ranking.items.head?.map Ranking.price ∧
    pool.popMin.2.Shows { ranking with items := ranking.items.tail } := by
  rw [Mempool.popMin, Std.ExtTreeSet.min?_eq_head?_toList, h.ranks_eq, List.head?_map]
  cases hitems : ranking.items with
  | nil =>
    refine ⟨rfl, ?_⟩
    have heq : ranking = { ranking with items := [].tail } := by rw [List.tail_nil, ← hitems]
    exact heq ▸ h
  | cons item after =>
    have hfirst : ranking.items = [] ++ item :: after := hitems
    exact h.takeAt hfirst

/-- `remove` takes the item with the identifier out of the list, if there is one. -/
theorem remove (id : Hash) : (pool.remove id).1 = ranking.get? id ∧
    (pool.remove id).2.Shows { ranking with items := ranking.items.filter (Pooled.id · ≠ id) } := by
  constructor
  · rw [← h.get?_eq, Mempool.remove]
    split <;> next hget => exact hget.symm
  -- an item is kept exactly where it has another identifier
  · refine h.restrict (h.toConsistent.remove id) ?_ List.filter_sublist (fun item hitem => ?_)
      fun {other found} => ?_
    · unfold Mempool.remove
      split <;> rfl
    · rw [get?_remove, h.mem_iff.1 hitem, List.mem_filter, decide_eq_true_eq]
      by_cases hid : id = Pooled.id item
      · simp [← hid]
      · simp [hid, hitem, Ne.symm hid]
    · rw [get?_remove]
      split
      · intro hnone
        cases hnone
      · exact fun hfound => hfound

/-- `removeAll` takes out all items with one of the identifiers. -/
theorem removeAll (ids : List Hash) : (pool.removeAll ids).Shows
    { ranking with items := ranking.items.filter fun item => Pooled.id item ∉ ids } := by
  -- induction on the identifiers; two filters in a row are one
  induction ids generalizing pool ranking with
  | nil => simpa [Mempool.removeAll] using h
  | cons id ids ih =>
    have hitems : (ranking.items.filter fun item => Pooled.id item ∉ id :: ids) =
        (ranking.items.filter (Pooled.id · ≠ id)).filter fun item => Pooled.id item ∉ ids := by
      rw [List.filter_filter]
      refine List.filter_congr fun item _ => ?_
      simp [Bool.and_comm]
    rw [hitems]
    exact ih (h.remove id).2

/-- After `removeAll` of some of its items, the pool `Shows` the others. -/
theorem removeAll_of_perm {gone rest : List α} (hperm : ranking.items.Perm (gone ++ rest)) :
    ∃ items, (pool.removeAll (gone.map Pooled.id)).Shows { ranking with items } ∧
      items.Perm rest := by
  -- the items that are gone are those with an identifier of one that is gone
  refine ⟨_, h.removeAll (gone.map Pooled.id), (hperm.filter _).trans ?_⟩
  have hdistinct := (hperm.map Pooled.id).nodup_iff.1 h.distinct
  rw [List.map_append, List.nodup_append] at hdistinct
  have hgone : gone.filter (fun item => Pooled.id item ∉ gone.map Pooled.id) = [] := by
    rw [List.filter_eq_nil_iff]
    intro item hitem
    simpa using ⟨item, hitem, rfl⟩
  have hrest : rest.filter (fun item => Pooled.id item ∉ gone.map Pooled.id) = rest := by
    rw [List.filter_eq_self]
    intro item hitem
    refine decide_eq_true fun hid => ?_
    exact hdistinct.2.2 _ hid _ (List.mem_map_of_mem hitem) rfl
  rw [List.filter_append, hgone, hrest, List.nil_append]

theorem length_staleIds (valid : Hash → Bool) : (pool.staleIds valid).length =
    ranking.items.countP fun item => !valid (Pooled.blockId item) := by
  -- both count the identifiers of the items that are not valid
  have hkeys : (pool.byId.toList.map Prod.fst).Nodup := by
    rw [Std.ExtTreeMap.map_fst_toList_eq_keys]
    exact Std.ExtTreeMap.nodup_keys
  have hstale : (pool.staleIds valid).Nodup := hkeys.sublist (List.filter_sublist.map _)
  have hlisted : ((ranking.items.filter fun item => !valid (Pooled.blockId item)).map
      Pooled.id).Nodup := h.distinct.sublist (List.filter_sublist.map _)
  have hperm := (List.perm_ext_iff_of_nodup hstale hlisted).2 fun id => ?_
  · rw [hperm.length_eq, List.length_map, List.countP_eq_length_filter]
  · rw [mem_staleIds_iff, List.mem_map]
    refine exists_congr fun item => ?_
    rw [List.mem_filter, Bool.not_eq_true', h.mem_iff]
    constructor
    · rintro ⟨hget, hvalid⟩
      obtain rfl := h.toConsistent.id_eq hget
      exact ⟨⟨hget, hvalid⟩, rfl⟩
    · rintro ⟨⟨hget, hvalid⟩, rfl⟩
      exact ⟨hget, hvalid⟩

omit h in
/-- `removeAll` keeps the room of the pool. -/
theorem maxSize_removeAll (ids : List Hash) : (pool.removeAll ids).maxSize = pool.maxSize := by
  induction ids generalizing pool with
  | nil => rfl
  | cons id ids ih =>
    rw [Mempool.removeAll, List.foldl_cons, ← Mempool.removeAll, ih]
    unfold Mempool.remove
    split <;> rfl

/-- `prune` counts the stale items and filters them out of the list. -/
theorem prune (valid : Hash → Bool) :
    (pool.prune valid).1 = ranking.items.countP (fun item => !valid (Pooled.blockId item)) ∧
      (pool.prune valid).2.Shows
        { ranking with items := ranking.items.filter fun item => valid (Pooled.blockId item) } := by
  refine ⟨h.length_staleIds valid, h.restrict (h.toConsistent.prune valid) (maxSize_removeAll _)
    List.filter_sublist (fun item hitem => ?_) fun {id found} hfound => ?_⟩
  · -- a stale item stands in the pool under its own identifier, and so it is the one that is
    -- removed
    rw [get?_prune, h.mem_iff.1 hitem, List.mem_filter, Option.filter_eq_some_iff]
    simp [hitem]
  · rw [get?_prune, Option.filter_eq_some_iff] at hfound
    exact hfound.1

/-! ### Putting an item in -/

/-- `insert` puts an item with a new identifier at its place. -/
theorem insert {item : α} (hnew : pool.get? (Pooled.id item) = none) :
    (pool.insert item).Shows { ranking with items := Ranking.place item ranking.items } := by
  have hother : ∀ other ∈ ranking.items, Pooled.id other ≠ Pooled.id item := by
    intro other hmem hid
    rw [← hid, h.mem_iff.1 hmem] at hnew
    cases hnew
  -- the new item is the only one under its identifier
  refine .of_mem_iff (h.toConsistent.insert hnew) h.maxSize_eq
    (Ranking.pairwise_place h.ascending hother) fun other => ?_
  rw [get?_insert, (Ranking.place_perm item ranking.items).mem_iff, List.mem_cons, h.mem_iff]
  split
  · next hid =>
    rw [← hid, hnew, Option.some.injEq]
    simp [eq_comm]
  · next hid =>
    have hne : other ≠ item := fun heq => hid (heq ▸ rfl)
    simp [hne]

/-- `Mempool.add` answers as `Ranking.add` does, and the pool shows the list afterwards. -/
theorem add (item : α) : (pool.add item).1 = (ranking.add item).1 ∧
    (pool.add item).2.Shows (ranking.add item).2 := by
  rw [Mempool.add, Ranking.add, h.has_eq]
  -- an identifier that is there already changes nothing on either side
  split
  · exact ⟨rfl, h⟩
  · next hnew =>
    rw [← h.has_eq, Bool.not_eq_true, has_eq_false_iff] at hnew
    have hgrown := h.insert hnew
    have hmem : item ∈ Ranking.place item ranking.items :=
      (Ranking.place_perm item ranking.items).mem_iff.2 List.mem_cons_self
    simp only [Ranking.trim, hgrown.size_eq, hgrown.maxSize_eq]
    split
    · -- the least item gives way; it is the new one if that has not stayed
      obtain ⟨hevicted, hrest⟩ := hgrown.popMin
      obtain ⟨least, rest, hitems⟩ := List.exists_cons_of_ne_nil (List.ne_nil_of_mem hmem)
      simp only [hitems, List.head?_cons, Option.map_some, List.tail_cons] at hevicted hrest ⊢
      split
      · next evicted fee left heq =>
        rw [heq] at hevicted hrest
        obtain ⟨rfl, rfl⟩ := Prod.mk.inj (Option.some.inj hevicted)
        exact ⟨Ranking.id_bne_eq_has_tail hitems hgrown.distinct hmem, hrest⟩
      · next left heq =>
        rw [heq] at hevicted
        cases hevicted
    · -- there is room, so that the new item stays
      refine ⟨?_, hgrown⟩
      rw [Ranking.has_eq_isSome, Ranking.get?_of_mem hgrown.distinct hmem]
      rfl

end Shows

/-- A `step` has the same answer on both, and the pool `Shows` the list afterwards. -/
theorem Shows.step (h : pool.Shows ranking) (request : PoolRequest α) :
    (pool.step request).1 = (ranking.step request).1 ∧
      (pool.step request).2.Shows (ranking.step request).2 := by
  -- each request is one of the operations above; those that only look keep pool and list
  cases request with
  | add item => exact ⟨congrArg _ (h.add item).1, (h.add item).2⟩
  | popMax => exact ⟨congrArg _ h.popMax.1, h.popMax.2⟩
  | popMin => exact ⟨congrArg _ h.popMin.1, h.popMin.2⟩
  | remove id => exact ⟨congrArg _ (h.remove id).1, (h.remove id).2⟩
  | get id => exact ⟨congrArg _ (h.get?_eq id), h⟩
  | has id => exact ⟨congrArg _ (h.has_eq id), h⟩
  | peekMax => exact ⟨congrArg _ h.max?_eq, h⟩
  | peekMin => exact ⟨congrArg _ h.min?_eq, h⟩
  | prune valid => exact ⟨congrArg _ (h.prune valid).1, (h.prune valid).2⟩
  | top limit => exact ⟨congrArg _ (h.top_eq limit), h⟩

/-- Requests that follow one another have the same answers, by `Shows.step` for each of them. -/
theorem Shows.serve (h : pool.Shows ranking) (requests : List (PoolRequest α)) :
    (PoolRequest.serve Mempool.step pool requests).1 =
        (PoolRequest.serve Ranking.step ranking requests).1 ∧
      (PoolRequest.serve Mempool.step pool requests).2.Shows
        (PoolRequest.serve Ranking.step ranking requests).2 := by
  -- induction on the requests, with pool and ranking generalized along `Shows.step`
  induction requests generalizing pool ranking with
  | nil => exact ⟨rfl, h⟩
  | cons request requests ih =>
    obtain ⟨hanswer, hshows⟩ := h.step request
    obtain ⟨hanswers, hshows'⟩ := ih hshows
    exact ⟨congrArg₂ List.cons hanswer hanswers, hshows'⟩

/--
A new pool answers any `requests` as the `Ranking` does, and `Shows` its items afterwards, with the
same identifiers in `byId` and `byRank` and never more than `maxSize` of them.
-/
theorem serve_eq_ranking (maxSize : Nat) (requests : List (PoolRequest α)) :
    let pool := PoolRequest.serve Mempool.step (empty maxSize : Mempool α) requests
    let ranking := PoolRequest.serve Ranking.step (Ranking.empty maxSize : Ranking α) requests
    pool.1 = ranking.1 ∧ pool.2.Shows ranking.2 ∧
      pool.2.byId.keys.Perm (pool.2.byRank.toList.map Rank.id) ∧
      pool.2.size = ranking.2.items.length ∧ pool.2.size ≤ maxSize := by
  obtain ⟨hanswers, hshows⟩ := (shows_empty maxSize).serve requests
  -- both indexes have the identifiers of the list
  refine ⟨hanswers, hshows, ?_, hshows.size_eq, ?_⟩
  · rw [hshows.ranks_eq, List.map_map]
    exact hshows.keys_perm
  · rw [hshows.size_eq]
    have hempty : (Ranking.empty maxSize : Ranking α).items.length ≤ maxSize := Nat.zero_le _
    exact Ranking.serve_le hempty requests

end Mempool

end LeaseChain
