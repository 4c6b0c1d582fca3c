import LeaseChain.Proofs.Ledger.Accounting

/-!
# What is stored is what was written last

A value is live if it was set, and if no later transaction set or deleted it or claimed its
namespace. Along every run of the ledger the live values of a namespace are those that are found
under their keys, and those that are listed, in the order of their keys. A claim of an expired
namespace wipes what a scan of the store finds there; that this is neither too little nor too much
rests on names without a slash, which have no key in common.

## Key results

- `LiveWrite`: the values that the history of a ledger leaves
- `Outcome.value?_push`: what an operation does to the values of its own namespace
- `View.WithoutNamespaces.value?_attemptAll`: the values of a run are the live ones
- `View.values_live`: so are those that are listed, in the order of their keys
-/

namespace LeaseChain

open Ledger

namespace Bytes

/-- The `compare` that sorts the keys of the store is the order of byte strings. -/
theorem lt_of_compare {a b : Bytes} (h : compare a b = .lt) : a < b := by
  -- induction byte by byte along both strings
  induction a generalizing b with
  | nil =>
    cases b with
    | nil => cases h
    | cons => exact List.nil_lt_cons _ _
  | cons x a ih =>
    cases b with
    | nil => cases h
    | cons y b =>
      have hcons : (compare x y).then (compare a b) = .lt := List.compareLex_cons_cons.symm.trans h
      rw [Ordering.then_eq_lt] at hcons
      rcases hcons with hlt | ⟨heq, hlt⟩
      · exact List.cons_lt_cons_iff.2 (.inl (Std.compare_eq_lt.1 hlt))
      · exact List.cons_lt_cons_iff.2 (.inr ⟨Std.LawfulEqCmp.compare_eq_iff_eq.1 heq, ih hlt⟩)

end Bytes

/-! ## Live values -/

/-- The operation sets or deletes a value, or claims the namespace that it is under. -/
def Operation.Overwrites (op : Operation) (name : String) (key : Bytes) : Prop :=
  op = .claim name ∨ (∃ value, op = .set name key value) ∨ op = .delete name key

/-- The transaction sets a value, of which the record is made. -/
structure Attempt.Stores (a : Attempt) (name : String) (key : Bytes) (stored : StoredValue) :
    Prop where
  operation : a.tx.operation = .set name key stored.value
  txId : stored.txId = a.txId
  updated : stored.updated = a.time
  size : stored.size.toNat = stored.value.length

namespace Attempt

variable {a : Attempt} {name : String} {key : Bytes} {stored : StoredValue}

/-- What `Stores` a value `Overwrites` it. -/
theorem Stores.overwrites (h : a.Stores name key stored) : a.tx.operation.Overwrites name key :=
  .inr (.inl ⟨_, h.operation⟩)

/-- What an attempt `Stores` is the record `written` at its time for its transaction. -/
theorem Stores.eq_written (h : a.Stores name key stored) (g : Genesis) :
    stored = .written ⟨g, a.time, a.txId⟩ stored.value := by
  obtain ⟨txId, updated, size, value⟩ := stored
  obtain ⟨-, rfl, rfl, hsize⟩ := h
  rw [StoredValue.written, ← hsize, UInt64.ofNat_toNat]

/-- A transaction that does not overwrite a value leaves it. -/
theorem stores_or_kept_iff (hnot : ¬a.tx.operation.Overwrites name key) {p : Prop} :
    a.Stores name key stored ∨ ¬a.tx.operation.Overwrites name key ∧ p ↔ p :=
  ⟨fun h => h.elim (fun hstores => absurd hstores.overwrites hnot) And.right,
    fun hp => .inr ⟨hnot, hp⟩⟩

end Attempt

/-- The last of the executed transactions to overwrite a value stores it. -/
def LiveWrite (history : List Attempt) (name : String) (key : Bytes) (stored : StoredValue) :
    Prop :=
  ∃ before a after, history = before ++ a :: after ∧ a.Stores name key stored ∧
    ∀ b ∈ after, ¬b.tx.operation.Overwrites name key

/-- No value is a `LiveWrite` of an empty history. -/
theorem not_liveWrite_nil (name : String) (key : Bytes) (stored : StoredValue) :
    ¬LiveWrite [] name key stored := by
  rintro ⟨before, a, after, h, -⟩
  exact List.append_ne_nil_of_right_ne_nil before (List.cons_ne_nil a after) h.symm

/-- One more attempt `Stores` the value, or does not overwrite it and leaves the `LiveWrite`. -/
theorem liveWrite_concat {history : List Attempt} {a : Attempt} {name : String} {key : Bytes}
    {stored : StoredValue} : LiveWrite (history ++ [a]) name key stored ↔
      a.Stores name key stored ∨
        ¬a.tx.operation.Overwrites name key ∧ LiveWrite history name key stored := by
  constructor
  · rintro ⟨before, b, after, h, hstores, hafter⟩
    -- either the last transaction is the one that stores, or it leaves what was stored before
    rcases List.eq_nil_or_concat after with rfl | ⟨front, last, rfl⟩
    · obtain ⟨-, hab⟩ := List.append_inj' h rfl
      exact .inl (List.singleton_inj.1 hab ▸ hstores)
    · rw [List.concat_eq_append, ← List.cons_append, ← List.append_assoc] at h
      obtain ⟨rfl, hlast⟩ := List.append_inj' h rfl
      obtain rfl := List.singleton_inj.1 hlast
      rw [List.concat_eq_append] at hafter
      exact .inr ⟨hafter a (by simp), before, b, front, rfl, hstores,
        fun c hc => hafter c (List.mem_append_left _ hc)⟩
  · rintro (hstores | ⟨hnot, before, b, after, rfl, hstores, hafter⟩)
    · exact ⟨history, a, [], rfl, hstores, nofun⟩
    · refine ⟨before, b, after ++ [a], by simp, hstores, fun c hc => ?_⟩
      rcases List.mem_append.1 hc with hc | hc
      · exact hafter c hc
      · exact List.mem_singleton.1 hc ▸ hnot

namespace View

variable {g : Genesis} {view : View} {name : String}

/-! ## Values that are found -/

/-- `value?` reads from among what a `scan` of the namespace finds. -/
theorem value?_eq_scan (view : View) (name : String) (key : Bytes) :
    view.value? name key =
      match (view.scan (StoreKey.valuesOf name))[StoreKey.value name key]? with
      | some bytes => some <$> readRecord bytes
      | none => .ok none := by
  rw [getElem?_scan, if_pos (StoreKey.isPrefixOf_value name key)]
  rfl

/-- `value?` has an answer on a ledger that is `WellKept`. -/
theorem WellKept.exists_value? (hw : view.WellKept) (name : String) (key : Bytes) :
    ∃ found, view.value? name key = .ok found := by
  cases hget : view.get? (StoreKey.value name key) with
  | none => exact ⟨none, by simp only [value?, record?, hget]⟩
  | some bytes =>
    obtain ⟨stored, rfl, hsize⟩ := hw.values hget
    have hread := readRecord_storedValue (hsize ▸ stored.size.toNat_lt)
    exact ⟨some stored, by simp only [value?, record?, hget, hread]; rfl⟩

end View

/-- Views with the same `scan` of a namespace have the same `value?` in it. -/
theorem View.value?_congr {view view' : View} {name : String}
    (h : view.scan (StoreKey.valuesOf name) = view'.scan (StoreKey.valuesOf name)) (key : Bytes) :
    view.value? name key = view'.value? name key := by
  rw [value?_eq_scan, value?_eq_scan, h]

namespace Outcome

variable {ctx : ExecutionContext} {view : View} {sender : PublicKey} {fee : UInt64}
  {changes : Changes}

/-- A `claim` leaves no value, whether the namespace was expired or had none. -/
theorem value?_push_claim {name : String}
    (h : Outcome ctx view sender fee (.claim name) changes)
    (hvacant : view.lease? name = .ok none → view.scan (StoreKey.valuesOf name) = ∅) (key : Bytes) :
    (view.push changes).value? name key = .ok none := by
  have hempty : (view.push changes).scan (StoreKey.valuesOf name) = ∅ := by
    -- a name without a lease has no values, and an expired one loses them
    rcases scan_push h with ⟨habsent, hscan⟩ | hscan
    · rw [hscan, hvacant habsent]
    · exact hscan
  rw [View.value?_eq_scan, hempty, Std.ExtTreeMap.getElem?_empty]

/-- A `set` leaves its own record, and the other values as they were. -/
theorem value?_push_set {name : String} {own value : Bytes}
    (h : Outcome ctx view sender fee (.set name own value) changes) (key : Bytes) :
    (view.push changes).value? name key =
      if own = key then .ok (some (StoredValue.written ctx value)) else view.value? name key := by
  obtain ⟨hvalue, hscan⟩ := scan_push h
  rw [View.value?_eq_scan, hscan, Std.ExtTreeMap.getElem?_insert]
  simp only [Std.LawfulEqCmp.compare_eq_iff_eq, StoreKey.value_inj]
  -- the value just written reads back, since `validateValue` bounds its length
  have hread : readRecord (Wire.write (StoredValue.written ctx value)) =
      .ok (StoredValue.written ctx value) :=
    readRecord_storedValue (length_lt_of_validateValue hvalue)
  by_cases hown : own = key
  · rw [if_pos hown, if_pos hown]
    simp only [hread]
    rfl
  · rw [if_neg hown, if_neg hown]
    exact (View.value?_eq_scan view name key).symm

/-- A `delete` takes its value away, and leaves the others as they were. -/
theorem value?_push_delete {name : String} {own : Bytes}
    (h : Outcome ctx view sender fee (.delete name own) changes) (key : Bytes) :
    (view.push changes).value? name key = if own = key then .ok none else view.value? name key := by
  rw [View.value?_eq_scan, scan_push h, Std.ExtTreeMap.getElem?_erase]
  simp only [Std.LawfulEqCmp.compare_eq_iff_eq, StoreKey.value_inj]
  by_cases hown : own = key
  · rw [if_pos hown, if_pos hown]
  · rw [if_neg hown, if_neg hown]
    exact (View.value?_eq_scan view name key).symm

end Outcome

namespace View

variable {g : Genesis} {view : View}

/--
After a transaction the values of a name that `IsSegment` are the one that it `Stores`, and those
before that are not what it `Overwrites`.
-/
theorem WellKept.value?_push_iff (hw : view.WellKept) {a : Attempt} {changes : Changes}
    (h : a.tx.execute ⟨g, a.time, a.txId⟩ view = .ok changes) {name : String}
    (hsegment : StoreKey.IsSegment name) {key : Bytes} {stored : StoredValue} :
    (view.push changes).value? name key = .ok (some stored) ↔
      a.Stores name key stored ∨
        ¬a.tx.operation.Overwrites name key ∧ view.value? name key = .ok (some stored) := by
  have houtcome := (Unsigned.execute_eq_ok_iff.1 h).2
  by_cases hop : a.tx.operation.name? = some name
  · obtain ⟨⟨base, op⟩, time, txId⟩ := a
    -- one case for each operation on the namespace, against what it overwrites
    cases op with
    | claim own =>
      obtain rfl := Option.some.inj hop
      rw [houtcome.value?_push_claim (hw.scan_eq_empty hsegment)]
      constructor
      · exact nofun
      · rintro (hstores | ⟨hnot, -⟩)
        · cases hstores.operation
        · exact absurd (.inl rfl) hnot
    | set own j value =>
      obtain rfl := Option.some.inj hop
      rw [houtcome.value?_push_set]
      by_cases hkey : j = key
      · subst hkey
        rw [if_pos rfl]
        constructor
        · intro hstored
          obtain rfl := Option.some.inj (Except.ok.inj hstored)
          have hlength := length_lt_of_validateValue (houtcome.scan_push).1
          exact .inl ⟨rfl, rfl, rfl, UInt64.toNat_ofNat_of_lt' hlength⟩
        · rintro (hstores | ⟨hnot, -⟩)
          · have hvalue : Operation.set own j value = .set own j stored.value := hstores.operation
            obtain rfl := (Operation.set.inj hvalue).2.2
            rw [← hstores.eq_written g]
          · exact absurd (.inr (.inl ⟨value, rfl⟩)) hnot
      · -- the set is of another key
        rw [if_neg hkey]
        refine (Attempt.stores_or_kept_iff ?_).symm
        simp [Operation.Overwrites, hkey]
    | delete own j =>
      obtain rfl := Option.some.inj hop
      rw [houtcome.value?_push_delete]
      by_cases hkey : j = key
      · subst hkey
        rw [if_pos rfl]
        constructor
        · exact nofun
        · rintro (hstores | ⟨hnot, -⟩)
          · cases hstores.operation
          · exact absurd (.inr (.inr rfl)) hnot
      · rw [if_neg hkey]
        refine (Attempt.stores_or_kept_iff ?_).symm
        simp [Operation.Overwrites, hkey]
    | move own | lifeline own =>
      obtain rfl := Option.some.inj hop
      rw [value?_congr houtcome.scan_push]
      refine (Attempt.stores_or_kept_iff ?_).symm
      simp [Operation.Overwrites]
    | transfer => cases hop
  · -- the transaction is about another namespace, with which this one has no key in common
    have hagree := Unsigned.agreeOn_of_execute h hsegment hop
    have hsame : (view.push changes).value? name key = view.value? name key :=
      record?_congr (hagree _ (.inr (StoreKey.isPrefixOf_value name key)))
    rw [hsame]
    refine (Attempt.stores_or_kept_iff ?_).symm
    rintro (hkind | ⟨value, hkind⟩ | hkind) <;> exact hop (by rw [hkind]; rfl)

/-! ## Runs -/

/-- The transactions that were executed when some were tried one after the other. -/
def succeeded (g : Genesis) (view : View) : List Attempt → List Attempt
  | [] => []
  | a :: attempts =>
    match a.tx.execute ⟨g, a.time, a.txId⟩ view with
    | .ok _ => a :: succeeded g (view.attempt g a) attempts
    | .error _ => succeeded g (view.attempt g a) attempts

/-- `succeeded` gains the last attempt if that is executed; else it changes nothing. -/
theorem succeeded_concat (attempts : List Attempt) (a : Attempt) :
    view.succeeded g (attempts ++ [a]) = view.succeeded g attempts ++
      match a.tx.execute ⟨g, a.time, a.txId⟩ (view.attemptAll g attempts) with
      | .ok _ => [a]
      | .error _ => [] := by
  -- induction on the attempts from the first one on, as `succeeded` recurses
  induction attempts generalizing view with
  | nil => simp only [succeeded, attemptAll, List.foldl_nil, List.nil_append]
  | cons b attempts ih =>
    have hrun : view.attemptAll g (b :: attempts) = (view.attempt g b).attemptAll g attempts := rfl
    rw [List.cons_append, succeeded, succeeded, hrun, ih]
    split <;> rfl

/-- What `value?` finds after a run is a `LiveWrite` of it. -/
theorem WithoutNamespaces.value?_attemptAll (hempty : view.WithoutNamespaces)
    (attempts : List Attempt) {name : String} (hsegment : StoreKey.IsSegment name) {key : Bytes}
    {stored : StoredValue} : (view.attemptAll g attempts).value? name key = .ok (some stored) ↔
      LiveWrite (view.succeeded g attempts) name key stored := by
  -- induction on the attempts from the last one back, which is the way of `liveWrite_concat`
  induction attempts using List.reverseRecOn with
  | nil =>
    have hnone : view.value? name key = .ok none := by
      have hget := hempty name _ (.inr (StoreKey.isPrefixOf_value name key))
      simp only [value?, record?, hget]
    have hstart : view.attemptAll g [] = view := rfl
    rw [hstart, hnone]
    exact iff_of_false (by simp) (not_liveWrite_nil name key stored)
  | append_singleton front a ih =>
    rw [attemptAll_concat, attempt, succeeded_concat]
    cases hexecute : a.tx.execute ⟨g, a.time, a.txId⟩ (view.attemptAll g front) with
    | error cause =>
      rw [List.append_nil]
      exact ih
    | ok changes =>
      rw [liveWrite_concat, ← ih]
      exact (hempty.attemptAll front).value?_push_iff hexecute hsegment

/-! ## Values that are listed -/

variable {name : String} {values : List (Bytes × StoredValue)}

/-- Reads an entry of a scan: the value, under what follows the namespace in its key. -/
def readEntry (name : String) (entry : Bytes × Bytes) : Except StorageError (Bytes × StoredValue) :=
  (entry.1.drop (StoreKey.valuesOf name).length, ·) <$> readRecord entry.2

/-- `values` are what the entries of a `scan` are read as, one by one. -/
theorem map_readEntry_scan (h : view.values name = .ok values) :
    (view.scan (StoreKey.valuesOf name)).toList.map (readEntry name) = values.map .ok := by
  rw [← Except.mapM_eq_ok_iff, ← h]
  rfl

/-- An entry of a `scan` stands under the key of the value that it is read as. -/
theorem readEntry_of_mem_scan {entry : Bytes × Bytes} {listed : Bytes × StoredValue}
    (hmem : entry ∈ (view.scan (StoreKey.valuesOf name)).toList)
    (hread : readEntry name entry = .ok listed) :
    entry.1 = StoreKey.value name listed.1 ∧
      view.value? name listed.1 = .ok (some listed.2) := by
  obtain ⟨start, bytes⟩ := entry
  obtain ⟨stored, hstored, rfl⟩ := Except.map_eq_ok_iff.1 hread
  rw [Std.ExtTreeMap.mem_toList_iff_getElem?_eq_some] at hmem
  have hstart := hmem
  rw [getElem?_scan] at hstart
  split at hstart
  · next hprefix =>
    -- the key listed is the rest of the stored one behind the prefix
    obtain ⟨key, rfl⟩ := StoreKey.isPrefixOf_valuesOf_iff.1 hprefix
    have hdrop : (StoreKey.value name key).drop (StoreKey.valuesOf name).length = key :=
      List.drop_left
    rw [hdrop, value?_eq_scan, hmem]
    exact ⟨rfl, Except.map_eq_ok_iff.2 ⟨stored, hstored, rfl⟩⟩
  · cases hstart

/-- What `values` lists is what `value?` finds. -/
theorem mem_values_iff (h : view.values name = .ok values) {key : Bytes} {stored : StoredValue} :
    (key, stored) ∈ values ↔ view.value? name key = .ok (some stored) := by
  have hlisted (listed : Bytes × StoredValue) : listed ∈ values ↔
      ∃ entry ∈ (view.scan (StoreKey.valuesOf name)).toList, readEntry name entry = .ok listed := by
    rw [← List.mem_map, map_readEntry_scan h]
    exact (List.mem_map_of_injective fun _ _ => Except.ok.inj).symm
  rw [hlisted]
  constructor
  · rintro ⟨entry, hentry, hread⟩
    exact (readEntry_of_mem_scan hentry hread).2
  · intro hvalue
    -- the entry that is found is listed, and read as the value
    rw [value?_eq_scan] at hvalue
    split at hvalue
    · next bytes hbytes =>
      obtain ⟨found, hfound, hsome⟩ := Except.map_eq_ok_iff.1 hvalue
      obtain rfl := Option.some.inj hsome
      refine ⟨(StoreKey.value name key, bytes),
        Std.ExtTreeMap.mem_toList_iff_getElem?_eq_some.2 hbytes, ?_⟩
      rw [readEntry, hfound, StoreKey.value, List.drop_left]
      rfl
    · cases hvalue

/-- The keys that `values` lists ascend, as those of the store do. -/
theorem pairwise_values (h : view.values name = .ok values) :
    values.Pairwise fun a b => a.1 < b.1 := by
  have hordered : (view.scan (StoreKey.valuesOf name)).toList.Pairwise
      fun entry other => compare entry.1 other.1 = .lt := Std.ExtTreeMap.ordered_keys_toList
  -- the values are as many as the entries, and in the same order
  have hread : (values.map (Except.ok (ε := StorageError))).Pairwise
      fun x y => ∀ a b, x = .ok a → y = .ok b → a.1 < b.1 := by
    rw [← map_readEntry_scan h, List.pairwise_map]
    refine hordered.imp_of_mem fun {entry other} hentry hother hlt a b ha hb => ?_
    rw [(readEntry_of_mem_scan hentry ha).1, (readEntry_of_mem_scan hother hb).1,
      StoreKey.value, StoreKey.value, Bytes.compare_append_left] at hlt
    exact Bytes.lt_of_compare hlt
  exact (List.pairwise_map.1 hread).imp fun h => h _ _ rfl rfl

end View

/--
After any `attempts` from a ledger `WithoutNamespaces`, of which those that fail change nothing, the
`values` of a name that `IsSegment` are listed in the order of their keys, none twice, and are
exactly the `LiveWrite`s of the `succeeded` ones: set, and neither set again nor deleted nor claimed
anew since. What `value?` finds under a key is what is listed.
-/
theorem View.values_live {g : Genesis} {view : View} (hempty : view.WithoutNamespaces)
    (attempts : List Attempt) {name : String} (hsegment : StoreKey.IsSegment name) :
    ∃ values, (view.attemptAll g attempts).values name = .ok values ∧
      (values.map Prod.fst).Pairwise (· < ·) ∧
      (∀ key stored, (key, stored) ∈ values ↔
        LiveWrite (view.succeeded g attempts) name key stored) ∧
      ∀ key, ∃ found, (view.attemptAll g attempts).value? name key = .ok found ∧
        ∀ stored, found = some stored ↔ (key, stored) ∈ values := by
  have hw := hempty.attemptAll (g := g) attempts
  obtain ⟨values, hvalues, -⟩ := hw.exists_values name
  refine ⟨values, hvalues, List.pairwise_map.2 (pairwise_values hvalues), fun key stored => ?_,
    fun key => ?_⟩
  · rw [mem_values_iff hvalues, hempty.value?_attemptAll attempts hsegment]
  · obtain ⟨found, hfound⟩ := hw.exists_value? name key
    refine ⟨found, hfound, fun stored => ?_⟩
    rw [mem_values_iff hvalues, hfound, Except.ok.injEq]

/-! ## Two hamlets

The names of two namespaces start alike, and a key of the one holds a slash. One of three values is
deleted again, and another one is rewritten.
-/

namespace Neighbours

/-- Two namespaces of which one name starts like the other, and writes, rewrites and deletions. -/
def hamlets : List Attempt := [works owner (.claim "foo"), works owner (.claim "foobar"),
  works owner (.set "foo" [0x2f, 1] [7]), works owner (.set "foobar" [1] [8]),
  works owner (.set "foo" [1] [9]), works owner (.delete "foo" [1]),
  works guest (.set "foo" [2] [9]), works owner (.set "foo" [0x2f, 1] [7, 7])]

/-- The namespace `foo` is left with its last write under the key with a slash. -/
theorem live_hamlets : meadow.WithoutNamespaces ∧ StoreKey.IsSegment "foo" ∧
    ∃ stored, (meadow.attemptAll plots hamlets).values "foo" = .ok [([0x2f, 1], stored)] ∧
      stored.value = [7, 7] ∧
      LiveWrite (meadow.succeeded plots hamlets) "foo" [0x2f, 1] stored := by
  have hsegment : StoreKey.IsSegment "foo" := by decide +kernel
  obtain ⟨values, hvalues, -, hlive, -⟩ :=
    View.values_live (g := plots) withoutNamespaces_meadow hamlets hsegment
  have hone : (meadow.attemptAll plots hamlets).values "foo" =
      .ok [([0x2f, 1], ⟨Hash.replicate 3, 50, 2, [7, 7]⟩)] := by
    decide +kernel
  obtain rfl := Except.ok.inj (hvalues.symm.trans hone)
  exact ⟨withoutNamespaces_meadow, hsegment, _, hone, rfl, (hlive _ _).1 List.mem_cons_self⟩

end Neighbours

end LeaseChain
