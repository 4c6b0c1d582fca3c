import LeaseChain.Genesis.Document
import LeaseChain.Proofs.ForStd.Except
import LeaseChain.Proofs.Json.Layout

/-!
# A genesis document is read back

The document that is written into a new store names every parameter, so that opening the store again
gives the same parameters, on which every later execution depends.

## Key results

- `Json.Value.collect_zip`: a record that was written by name has the fields that were written
- `Genesis.ofDocument_toDocument`: valid parameters are read back from their document
-/

namespace LeaseChain

open Json (Value)

namespace Json.Value

/--
`collect` turns members that are spelled by different names into fields, behind those `found`
before.
-/
theorem collect_zip (names : List String) {fresh : List String} (values : List Value)
    (found : List (String × Value)) (hknown : fresh ⊆ names) (hdistinct : fresh.Nodup)
    (hfound : ∀ field ∈ found, field.1 ∉ fresh) :
    collect names found ((fresh.map encodeText).zip values) = some (found ++ fresh.zip values) := by
  -- induction on the names that are still to come, none of which was found
  induction fresh generalizing values found with
  | nil => simp [collect]
  | cons name fresh ih =>
    cases values with
    | nil => simp [collect]
    | cons value values =>
      obtain ⟨hnew, hdistinct⟩ := List.nodup_cons.1 hdistinct
      have hname : name ∈ names := hknown List.mem_cons_self
      have hnot : found.any (·.1 == name) = false := by
        rw [List.any_eq_false]
        intro field hfield heq
        exact hfound field hfield (eq_of_beq heq ▸ List.mem_cons_self)
      have hrest := ih values (found ++ [(name, value)])
        (fun n hn => hknown (List.mem_cons_of_mem name hn)) hdistinct (by
          intro field hfield
          rcases List.mem_append.1 hfield with h | h
          · exact fun hmem => hfound field h (List.mem_cons_of_mem name hmem)
          · rw [List.mem_singleton.1 h]
            exact hnew)
      simp only [List.map_cons, List.zip_cons_cons, collect, decodeText?_encodeText,
        Option.bind_eq_bind, Option.bind_some, if_pos hname, hnot, Bool.false_eq_true, if_false,
        hrest, List.append_assoc, List.cons_append, List.nil_append]

/-- `fields?` of a record that was written by name are the fields that were written. -/
theorem fields?_zip (names : List String) (hdistinct : names.Nodup) (values : List Value) :
    fields? names (.object ((names.map encodeText).zip values)) = some (names.zip values) :=
  collect_zip names values [] (fun _ h => h) hdistinct (fun _ h => nomatch h)

/-- `Spelled` holds of a text, by its bytes. -/
theorem spelled_ofText (text : String) : (ofText text).Spelled := .text (Bytes.ofText text)

/-- `Spelled` holds of a word, by its digits. -/
theorem spelled_ofWord (n : UInt64) : (ofWord n).Spelled := .number n.toNat

/-- `Spelled` holds of a record whose names and values are spelled. -/
theorem spelled_record (names : List String) {values : List Value}
    (h : ∀ v ∈ values, v.Spelled) : (object ((names.map encodeText).zip values)).Spelled := by
  refine .object (fun m hm => ?_) fun m hm => h _ (List.of_mem_zip hm).2
  obtain ⟨name, -, hname⟩ := List.mem_map.1 (List.of_mem_zip hm).1
  exact ⟨Bytes.ofText name, hname.symm⟩

end Json.Value

namespace Json

/-- `withDefault` finds a field of a record with distinct names by its place. -/
theorem withDefault_zip {α : Type} {names : List String} {values : List Value} {i : Nat}
    {name : String} {v : Value} (hdistinct : names.Nodup) (hname : names[i]? = some name)
    (hvalue : values[i]? = some v) (f : Value → Option α) (d : α) :
    withDefault (names.zip values) name f d = f v := by
  suffices hlookup : (names.zip values).lookup name = some v by rw [withDefault, hlookup]
  -- induction on the names, with the place of the one that is looked up
  induction names generalizing values i with
  | nil => simp at hname
  | cons first names ih =>
    obtain ⟨hfirst, hdistinct⟩ := List.nodup_cons.1 hdistinct
    cases values with
    | nil => simp at hvalue
    | cons value values =>
      cases i with
      | zero =>
        simp only [List.getElem?_cons_zero, Option.some.injEq] at hname hvalue
        simp [hname, hvalue]
      | succ i =>
        simp only [List.getElem?_cons_succ] at hname hvalue
        have hne : (name == first) = false :=
          beq_false_of_ne fun heq => hfirst (heq ▸ List.mem_of_getElem? hname)
        rw [List.zip_cons_cons, List.lookup_cons, hne]
        exact ih hdistinct hname hvalue

end Json

namespace Allocation

/-- `Spelled` holds of an allocation, as a record of a text and a word. -/
theorem spelled_toJson (a : Allocation) : a.toJson.Spelled := by
  show (Value.object ((["public_key", "balance"].map Json.encodeText).zip
    [.ofText a.publicKey, .ofWord a.balance])).Spelled
  refine Json.Value.spelled_record _ fun v hv => ?_
  simp only [List.mem_cons, List.not_mem_nil, or_false] at hv
  rcases hv with rfl | rfl
  · exact Json.Value.spelled_ofText _
  · exact Json.Value.spelled_ofWord _

/-- `ofJson?` reads an allocation back from `toJson`. -/
theorem ofJson?_toJson (a : Allocation) : ofJson? a.toJson = some a := by
  have hfields := Json.Value.fields?_zip ["public_key", "balance"] (by decide)
    [.ofText a.publicKey, .ofWord a.balance]
  have hrecord : a.toJson = .object ((["public_key", "balance"].map Json.encodeText).zip
      [.ofText a.publicKey, .ofWord a.balance]) := rfl
  rw [ofJson?, hrecord, hfields]
  simp [Json.required, List.lookup_cons]

end Allocation

namespace Genesis

/-- `Spelled` holds of the parameters, as a record of words and the allocations. -/
theorem spelled_toJson (g : Genesis) : g.toJson.Spelled := by
  refine Json.Value.spelled_record fieldNames fun v hv => ?_
  simp only [fieldValues, List.mem_cons, List.not_mem_nil, or_false] at hv
  -- the last one is the list of allocations, and all others are words
  rcases hv with rfl | rfl | rfl | rfl | rfl | rfl | rfl | rfl | rfl | rfl | rfl | rfl | rfl | rfl |
    rfl | rfl
  case inr.inr.inr.inr.inr.inr.inr.inr.inr.inr.inr.inr.inr.inr.inr =>
    refine .array fun v hv => ?_
    obtain ⟨a, -, rfl⟩ := List.mem_map.1 hv
    exact a.spelled_toJson
  all_goals exact Json.Value.spelled_ofWord _

/-- `mapM` reads each allocation of the list back. -/
private theorem mapM_allocations (allocations : List Allocation) :
    allocations.mapM (Allocation.ofJson? ∘ Allocation.toJson) = some allocations := by
  induction allocations with
  | nil => rfl
  | cons a allocations ih => simp [Allocation.ofJson?_toJson, ih]

/-- `ofJson?` reads the parameters back from `toJson`. -/
theorem ofJson?_toJson (g : Genesis) : ofJson? g.toJson = some g := by
  have hdistinct : fieldNames.Nodup := by decide
  have hword (i : Nat) {name : String} {n : UInt64} (hname : fieldNames[i]? = some name)
      (hvalue : g.fieldValues[i]? = some (.ofWord n)) (d : UInt64) :
      Json.withDefault (fieldNames.zip g.fieldValues) name Value.word? d = some n := by
    rw [Json.withDefault_zip hdistinct hname hvalue, Value.word?_ofWord]
  have hallocations (d : List Allocation) :
      Json.withDefault (fieldNames.zip g.fieldValues) "allocations"
        (fun value => do (← value.items?).mapM Allocation.ofJson?) d = some g.allocations := by
    rw [Json.withDefault_zip hdistinct (show fieldNames[15]? = _ from rfl) rfl, Value.items?,
      Option.bind_eq_bind, Option.bind_some, List.mapM_map, mapM_allocations]
  rw [toJson, ofJson?, Value.fields?_zip fieldNames hdistinct, Option.bind_eq_bind,
    Option.bind_some]
  -- The fields are looked up by their places: the record itself is never opened.
  simp only [hword 0 rfl rfl, hword 1 rfl rfl, hword 2 rfl rfl, hword 3 rfl rfl, hword 4 rfl rfl,
    hword 5 rfl rfl, hword 6 rfl rfl, hword 7 rfl rfl, hword 8 rfl rfl, hword 9 rfl rfl,
    hword 10 rfl rfl, hword 11 rfl rfl, hword 12 rfl rfl, hword 13 rfl rfl, hword 14 rfl rfl,
    hallocations]
  rfl

/-- `ofDocument` reads valid parameters back from `toDocument`. -/
theorem ofDocument_toDocument {g : Genesis} (h : g.validate = .ok ()) :
    ofDocument g.toDocument = .ok g := by
  have hparse : parse g.toDocument = .ok g := by
    rw [parse, toDocument, Value.parse?_pretty g.spelled_toJson, Option.bind_some, ofJson?_toJson]
  rw [ofDocument, hparse, Except.ok_bind, h]
  rfl

end Genesis

end LeaseChain
