import LeaseChain.Proofs.Json.Text

/-!
# What is written is read

A value whose numbers and strings are spelled as this library spells them is read back from its
layout. The proof follows the layout: an item or a member is read up to the comma, the line feed or
the end behind it, none of which continues a number.

## Key results

- `Json.value?_layout`: a value is read back from its layout, whatever ends it
- `Json.Value.parse?_pretty`: a document is read back
-/

namespace LeaseChain.Json

/-- Values whose numbers and strings are spelled as natural numbers and texts are. -/
inductive Value.Spelled : Value → Prop where
  | null : Spelled .null
  | bool (b : Bool) : Spelled (.bool b)
  | number (n : Nat) : Spelled (.ofNat n)
  | text (text : Bytes) : Spelled (.text (text.flatMap escapeByte))
  | array {items : List Value} (h : ∀ v ∈ items, Spelled v) : Spelled (.array items)
  | object {members : List (Bytes × Value)}
      (hn : ∀ m ∈ members, ∃ text : Bytes, m.1 = text.flatMap escapeByte)
      (h : ∀ m ∈ members, Spelled m.2) : Spelled (.object members)

/-! ## Blanks -/

/-- A `newline`, with its indentation, is of blanks. -/
@[simp] theorem skipBlanks_newline (level : Nat) (input : Bytes) :
    skipBlanks (newline level ++ input) = skipBlanks input := by
  have hblank : ∀ b ∈ newline level, isBlank b := by
    intro b hb
    rcases List.mem_cons.1 hb with rfl | hb
    · rfl
    · obtain rfl := (List.mem_replicate.1 hb).2
      rfl
  exact List.dropWhile_append_of_pos hblank

/-- `skipBlanks` leaves what starts with a byte that is no blank. -/
theorem skipBlanks_cons {b : UInt8} (h : ¬isBlank b) (input : Bytes) :
    skipBlanks (b :: input) = b :: input :=
  List.dropWhile_cons_of_neg h

/-- `value?` skips a `newline` in front of a value. -/
theorem value?_newline (fuel level : Nat) (input : Bytes) :
    value? fuel (newline level ++ input) = value? fuel input := by
  cases fuel with
  | zero => rfl
  | succ fuel => simp only [value?, skipBlanks_newline]

/-- `value?` skips a space in front of a value. -/
theorem value?_space (fuel : Nat) (input : Bytes) :
    value? fuel (0x20 :: input) = value? fuel input := by
  cases fuel with
  | zero => rfl
  | succ fuel =>
    have hspace : skipBlanks (0x20 :: input) = skipBlanks input := rfl
    simp only [value?, hspace]

/-- A `newline` ends a number. -/
theorem endsNumber_newline (level : Nat) (rest : Bytes) : EndsNumber (newline level ++ rest) := by
  intro b bs h
  obtain ⟨rfl, -⟩ := List.cons.inj h
  decide

/-- `EndsNumber` holds of what a comma starts. -/
theorem endsNumber_comma (rest : Bytes) : EndsNumber (0x2c :: rest) := by
  intro b bs h
  obtain ⟨rfl, -⟩ := List.cons.inj h
  decide

/-- A byte that `isDigit` is no blank and closes nothing. -/
theorem not_isBlank_of_isDigit {b : UInt8} (h : isDigit b) : ¬isBlank b ∧ b ≠ 0x5d := by
  simp only [isDigit, isBlank, decide_eq_true_eq] at h ⊢
  grind

/-- The `layout` of a value starts with a byte that is no blank and closes nothing. -/
theorem layout_head {v : Value} (h : v.Spelled) (level : Nat) :
    ∃ b bs, v.layout level = b :: bs ∧ ¬isBlank b ∧ b ≠ 0x5d := by
  -- the first byte tells the kinds of values apart
  cases h with
  | null => exact ⟨_, _, rfl, by decide, by decide⟩
  | bool b => cases b <;> exact ⟨_, _, rfl, by decide, by decide⟩
  | number n =>
    obtain ⟨b, bs, hform, hdigit⟩ := exists_decimal_eq_cons n
    exact ⟨b, bs, by simpa only [Value.ofNat, Value.layout] using hform,
      not_isBlank_of_isDigit hdigit⟩
  | text text => exact ⟨_, _, rfl, by decide, by decide⟩
  | @array items h =>
    cases items <;> exact ⟨_, _, rfl, by decide, by decide⟩
  | @object members hn h =>
    cases members <;> exact ⟨_, _, rfl, by decide, by decide⟩

/-! ## Values -/

/-- A value whose layout is read back, whatever ends it, with as much fuel as it is long. -/
private def ReadBack (v : Value) : Prop :=
  ∀ level fuel rest, (v.layout level).length ≤ fuel → EndsNumber rest →
    value? fuel (v.layout level ++ rest) = some (v, rest)

/-- `items?` reads items back one after the other, up to the bracket on a line of its own. -/
private theorem items?_layoutItems {item : Value} {items : List Value}
    (hitem : ReadBack item) (hitems : ∀ v ∈ items, ReadBack v) (level outer fuel : Nat)
    (done : List Value) (rest : Bytes)
    (hfuel : (item.layout level).length + (layoutItems level items).length < fuel) :
    items? fuel done (newline level ++ item.layout level ++ layoutItems level items ++
      newline outer ++ 0x5d :: rest) = some (.array (done.reverse ++ item :: items), rest) := by
  -- induction on the items that follow, with fuel for each, while those before are kept in `done`
  induction items generalizing item done fuel with
  | nil =>
    obtain ⟨fuel, rfl⟩ : ∃ n, fuel = n + 1 := ⟨fuel - 1, by omega⟩
    have hread := hitem level fuel (newline outer ++ 0x5d :: rest) (by omega)
      (endsNumber_newline outer _)
    simp only [layoutItems, List.append_nil, List.append_assoc, items?, value?_newline, hread,
      skipBlanks_newline, skipBlanks_cons (b := 0x5d) (by decide), List.reverse_cons]
  | cons next items ih =>
    obtain ⟨fuel, rfl⟩ : ∃ n, fuel = n + 1 := ⟨fuel - 1, by omega⟩
    simp only [layoutItems, List.length_cons, List.length_append] at hfuel
    -- an item that another one follows ends before a comma
    have hread := hitem level fuel (0x2c :: (newline level ++ (next.layout level ++
      (layoutItems level items ++ (newline outer ++ 0x5d :: rest))))) (by omega)
      (endsNumber_comma _)
    have hrest := ih (hitems next List.mem_cons_self)
      (fun v hv => hitems v (List.mem_cons_of_mem next hv)) fuel (item :: done) (by omega)
    simp only [List.append_assoc] at hrest
    simp only [layoutItems, List.append_assoc, List.cons_append, items?, value?_newline, hread,
      skipBlanks_cons (b := 0x2c) (by decide), hrest, List.reverse_cons, List.nil_append]

/-- `members?` reads members back one after the other, up to the brace on a line of its own. -/
private theorem members?_layoutMembers {name : Bytes} {value : Value}
    {members : List (Bytes × Value)} (hname : ∃ text : Bytes, name = text.flatMap escapeByte)
    (hvalue : ReadBack value)
    (hnames : ∀ m ∈ members, ∃ text : Bytes, m.1 = text.flatMap escapeByte)
    (hvalues : ∀ m ∈ members, ReadBack m.2) (level outer fuel : Nat)
    (done : List (Bytes × Value)) (rest : Bytes)
    (hfuel : (value.layout level).length + (layoutMembers level members).length < fuel) :
    members? fuel done (newline level ++ quoted name ++ [0x3a, 0x20] ++ value.layout level ++
      layoutMembers level members ++ newline outer ++ 0x7d :: rest) =
        some (.object (done.reverse ++ (name, value) :: members), rest) := by
  obtain ⟨fuel, rfl⟩ : ∃ n, fuel = n + 1 := ⟨fuel - 1, by omega⟩
  obtain ⟨text, rfl⟩ := hname
  have htext (tail : Bytes) : textRest? [] (text.flatMap escapeByte ++ 0x22 :: tail) =
      some (text.flatMap escapeByte, tail) := textRest?_spelled text [] tail
  -- the same induction as for items, with a name and a colon in front of each value
  induction members generalizing text value done fuel with
  | nil =>
    have hread := hvalue level fuel (newline outer ++ 0x7d :: rest) (by omega)
      (endsNumber_newline outer _)
    simp only [layoutMembers, quoted, List.append_nil, List.append_assoc, List.cons_append,
      List.nil_append, members?, skipBlanks_newline, skipBlanks_cons (b := 0x22) (by decide), htext,
      skipBlanks_cons (b := 0x3a) (by decide), value?_space, hread,
      skipBlanks_cons (b := 0x7d) (by decide), List.reverse_cons]
  | cons next members ih =>
    obtain ⟨name, next⟩ := next
    -- a value that another member follows ends before a comma
    obtain ⟨text', rfl⟩ := hnames (name, next) List.mem_cons_self
    simp only [layoutMembers, List.length_cons, List.length_append] at hfuel
    have hread := hvalue level fuel (0x2c :: (newline level ++ (quoted (text'.flatMap escapeByte) ++
      (0x3a :: 0x20 :: (next.layout level ++ (layoutMembers level members ++
        (newline outer ++ 0x7d :: rest)))))))
      (by omega) (endsNumber_comma _)
    obtain ⟨fuel, rfl⟩ : ∃ n, fuel = n + 1 := ⟨fuel - 1, by omega⟩
    have hrest := ih (hvalues _ List.mem_cons_self)
      (fun m hm => hnames m (List.mem_cons_of_mem _ hm))
      (fun m hm => hvalues m (List.mem_cons_of_mem _ hm)) ((text.flatMap escapeByte, value) :: done)
      fuel (by simp only [] at hfuel ⊢; omega) text' (fun tail => textRest?_spelled text' [] tail)
    simp only [quoted, List.append_assoc, List.cons_append, List.nil_append] at hrest hread
    rw [members?]
    simp only [layoutMembers, quoted, List.append_assoc, List.cons_append, List.nil_append,
      skipBlanks_newline, skipBlanks_cons (b := 0x22) (by decide), htext,
      skipBlanks_cons (b := 0x3a) (by decide), value?_space, hread,
      skipBlanks_cons (b := 0x2c) (by decide), hrest, List.reverse_cons]

/-- A `layout` is not empty, so that there is fuel for its first byte. -/
private theorem ReadBack.of_succ {v : Value} (hv : v.Spelled)
    (h : ∀ level fuel rest, (v.layout level).length ≤ fuel + 1 → EndsNumber rest →
      value? (fuel + 1) (v.layout level ++ rest) = some (v, rest)) : ReadBack v := by
  intro level fuel rest hfuel hrest
  -- one step of fuel is spent on the first byte
  obtain ⟨b, bs, hform, -⟩ := layout_head hv level
  cases fuel with
  | zero =>
    rw [hform, List.length_cons] at hfuel
    omega
  | succ fuel => exact h level fuel rest hfuel hrest

/-- The layout of `null` is read back. -/
private theorem readBack_null : ReadBack .null := by
  refine .of_succ .null fun level fuel rest _ _ => ?_
  show value? (fuel + 1) (0x6e :: (Bytes.ofText "ull" ++ rest)) = _
  rw [value?, skipBlanks_cons (by decide)]
  simp [word?]

/-- `ReadBack` holds of the two truth values. -/
private theorem readBack_bool (b : Bool) : ReadBack (.bool b) := by
  refine .of_succ (.bool b) fun level fuel rest _ _ => ?_
  cases b with
  | true =>
    show value? (fuel + 1) (0x74 :: (Bytes.ofText "rue" ++ rest)) = _
    rw [value?, skipBlanks_cons (by decide)]
    simp [word?]
  | false =>
    show value? (fuel + 1) (0x66 :: (Bytes.ofText "alse" ++ rest)) = _
    rw [value?, skipBlanks_cons (by decide)]
    simp [word?]

/-- `ReadBack` holds of numbers, as what follows one `EndsNumber`. -/
private theorem readBack_number (n : Nat) : ReadBack (.ofNat n) := by
  refine .of_succ (.number n) fun level fuel rest _ hrest => ?_
  show value? (fuel + 1) (decimal n ++ rest) = _
  obtain ⟨b, bs, hform, hdigit⟩ := exists_decimal_eq_cons n
  have hnumber := number?_decimal n hrest
  rw [hform, List.cons_append] at hnumber ⊢
  rw [value?, skipBlanks_cons (not_isBlank_of_isDigit hdigit).1]
  -- a digit starts no other kind of value
  split
  case h_8 => simp only [hnumber, Option.bind_eq_bind, Option.bind_some, Option.pure_def,
    Value.ofNat, ← hform]
  all_goals
    rename_i h
    cases h
    try exact absurd hdigit (by decide)

/-- `ReadBack` holds of strings that `escapeByte` spells. -/
private theorem readBack_text (text : Bytes) : ReadBack (.text (text.flatMap escapeByte)) := by
  refine .of_succ (.text text) fun level fuel rest _ _ => ?_
  have htext : textRest? [] (text.flatMap escapeByte ++ 0x22 :: rest) =
    some (text.flatMap escapeByte, rest) := textRest?_spelled text [] rest
  simp only [Value.layout, quoted, List.cons_append, List.append_assoc, List.nil_append]
  rw [value?, skipBlanks_cons (by decide)]
  simp [htext]

/-- `ReadBack` passes from the items to their array. -/
private theorem readBack_array {items : List Value} (h : ∀ v ∈ items, v.Spelled)
    (hitems : ∀ v ∈ items, ReadBack v) : ReadBack (.array items) := by
  refine .of_succ (.array h) fun level fuel rest hfuel _ => ?_
  -- an empty array is two brackets on one line, and any other one stands on lines of its own
  cases items with
  | nil =>
    simp only [Value.layout, List.cons_append, List.nil_append]
    rw [value?, skipBlanks_cons (by decide)]
    simp [skipBlanks_cons (b := 0x5d) (by decide)]
  | cons item items =>
    simp only [Value.layout, List.length_cons, List.length_append, List.length_nil] at hfuel
    have hread := items?_layoutItems (hitems item List.mem_cons_self)
      (fun v hv => hitems v (List.mem_cons_of_mem item hv)) (level + 1) level fuel [] rest
      (by omega)
    -- the first item is not taken for the bracket that closes the array
    obtain ⟨b, bs, hform, hblank, hclose⟩ := layout_head (h item List.mem_cons_self) (level + 1)
    simp only [hform, List.append_assoc, List.cons_append] at hread
    simp only [Value.layout, hform, List.cons_append, List.append_assoc, List.nil_append]
    rw [value?, skipBlanks_cons (by decide)]
    simp only [skipBlanks_newline, skipBlanks_cons hblank]
    split
    · next hb => exact absurd (List.cons.inj hb).1 hclose
    · exact hread

/-- `ReadBack` passes from the members to their object. -/
private theorem readBack_object {members : List (Bytes × Value)}
    (hnames : ∀ m ∈ members, ∃ text : Bytes, m.1 = text.flatMap escapeByte)
    (h : ∀ m ∈ members, m.2.Spelled) (hvalues : ∀ m ∈ members, ReadBack m.2) :
    ReadBack (.object members) := by
  refine .of_succ (.object hnames h) fun level fuel rest hfuel _ => ?_
  -- an empty object is two braces on one line
  cases members with
  | nil =>
    simp only [Value.layout, List.cons_append, List.nil_append]
    rw [value?, skipBlanks_cons (by decide)]
    simp [skipBlanks_cons (b := 0x7d) (by decide)]
  | cons member members =>
    obtain ⟨name, value⟩ := member
    simp only [Value.layout, List.length_cons, List.length_append, List.length_nil] at hfuel
    have hread := members?_layoutMembers (hnames _ List.mem_cons_self)
      (hvalues _ List.mem_cons_self) (fun m hm => hnames m (List.mem_cons_of_mem _ hm))
      (fun m hm => hvalues m (List.mem_cons_of_mem _ hm)) (level + 1) level fuel [] rest
      (by simp only [] at hfuel ⊢; omega)
    simp only [quoted, List.append_assoc, List.cons_append, List.nil_append] at hread
    simp only [Value.layout, quoted, List.cons_append, List.append_assoc, List.nil_append]
    rw [value?, skipBlanks_cons (by decide)]
    simp only [skipBlanks_newline, skipBlanks_cons (b := 0x22) (by decide)]
    exact hread

/-- Every value that is `Spelled` is `ReadBack`. -/
private theorem readBack_of_spelled {v : Value} (h : v.Spelled) : ReadBack v := by
  -- induction along `Value.Spelled`, which gives for arrays and objects that their parts are read
  -- back
  induction h with
  | null => exact readBack_null
  | bool b => exact readBack_bool b
  | number n => exact readBack_number n
  | text text => exact readBack_text text
  | array h ih => exact readBack_array h ih
  | object hnames h ih => exact readBack_object hnames h ih

/-- `value?` reads a `Spelled` value back from its `layout`, whatever ends it. -/
theorem value?_layout {v : Value} (h : v.Spelled) (level fuel : Nat) (rest : Bytes)
    (hfuel : (v.layout level).length ≤ fuel) (hrest : EndsNumber rest) :
    value? fuel (v.layout level ++ rest) = some (v, rest) :=
  readBack_of_spelled h level fuel rest hfuel hrest

/-- `parse?` reads a `Spelled` document back from its `pretty` form. -/
theorem Value.parse?_pretty {v : Value} (h : v.Spelled) : parse? v.pretty = some v := by
  -- the document ends with the value, and its length is more than enough fuel
  have hread := value?_layout h 0 (2 * v.pretty.length + 1) []
    (by rw [pretty]; omega) (fun b bs h => nomatch h)
  rw [List.append_nil] at hread
  rw [parse?, pretty] at *
  simp [hread, skipBlanks]

end LeaseChain.Json
