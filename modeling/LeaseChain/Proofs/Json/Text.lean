import LeaseChain.Json.Parser
import LeaseChain.Json.Printer
import LeaseChain.Proofs.Text.Utf8
import Mathlib.Data.List.TakeDrop

/-!
# Spelled strings and numbers

How `escapeByte` spells a byte is taken off again by `unescape`, and is passed over as a whole by
the parser, so a text spelled by `encodeText` denotes itself. A natural number is spelled in digits,
of which the first is a zero only for the number zero.

## Key results

- `Json.textRest?_spelled`: the parser takes a spelled string up to its closing quote
- `Json.decodeText?_encodeText`: a spelled text denotes itself
- `Json.number?_decimal`: the parser takes a spelled number up to what follows its digits
- `Json.Value.word?_ofWord`: a spelled word denotes itself
-/

namespace LeaseChain.Json

/-! ## Strings -/

/-- `toHex` of a control byte is two digits that `codeUnit?` reads back. -/
private theorem hexDigits_control (b : UInt8) (h : b < 0x20) :
    ∃ c d, Bytes.ofText "\\u00" ++ Bytes.ofText (Bytes.toHex [b]) = [0x5c, 0x75, 0x30, 0x30, c, d] ∧
      codeUnit? 0x30 0x30 c d = some b.toNat := by
  -- there are thirty-two of them, and each is looked at
  have hall : ∀ n : Fin 32, Bytes.ofText "\\u00" ++
      Bytes.ofText (Bytes.toHex [UInt8.ofNat n.val]) =
        [0x5c, 0x75, 0x30, 0x30, UInt8.ofNat (Bytes.hexDigit (n.val / 16)).toNat,
          UInt8.ofNat (Bytes.hexDigit (n.val % 16)).toNat] ∧
      codeUnit? 0x30 0x30 (UInt8.ofNat (Bytes.hexDigit (n.val / 16)).toNat)
        (UInt8.ofNat (Bytes.hexDigit (n.val % 16)).toNat) = some n.val := by
    decide +kernel
  have hb : b.toNat < 32 := UInt8.lt_iff_toNat_lt.1 h
  have := hall ⟨b.toNat, hb⟩
  simp only [UInt8.ofNat_toNat] at this
  exact ⟨_, _, this⟩

/-- `textRest?` passes over an `escapeByte` as a whole. -/
private theorem textRest?_escapeByte (b : UInt8) (done rest : Bytes) :
    textRest? done (escapeByte b ++ rest) = textRest? ((escapeByte b).reverse ++ done) rest := by
  simp only [escapeByte]
  -- first the seven bytes with an escape of two characters
  split
  · rfl
  split
  · rfl
  split
  · rfl
  split
  · rfl
  split
  · rfl
  split
  · rfl
  split
  · rfl
  split
  · next h =>
    obtain ⟨c, d, hform, hunit⟩ := hexDigits_control b h
    -- a control is passed over with the four digits behind its escape
    simp [hform, textRest?, hunit]
  · next h22 h5c _ _ _ _ _ h20 =>
    -- a plain byte is neither a quote nor a backslash nor a control
    rw [List.singleton_append, textRest?]
    · simp [h20]
    · exact h22
    · rintro _ _ _ _ _ rfl
      exact absurd rfl h5c
    · rintro _ _ rfl
      exact absurd rfl h5c

/-- `textRest?` takes a spelled string up to its closing quote. -/
theorem textRest?_spelled (text done rest : Bytes) :
    textRest? done (text.flatMap escapeByte ++ 0x22 :: rest) =
      some (done.reverse ++ text.flatMap escapeByte, rest) := by
  -- induction on the text: each byte is passed over as a whole, whatever was taken before
  induction text generalizing done with
  | nil => simp [textRest?]
  | cons b text ih =>
    rw [List.flatMap_cons, List.append_assoc, textRest?_escapeByte, ih]
    simp

/-- `unescape` gives an `escapeByte` back. -/
private theorem unescape_escapeByte (b : UInt8) (done rest : Bytes) :
    unescape done (escapeByte b ++ rest) = unescape (b :: done) rest := by
  simp only [escapeByte]
  -- first the seven bytes with an escape of two characters, then the controls, then plain bytes
  split
  · next h => subst h; rfl
  split
  · next h => subst h; rfl
  split
  · next h => subst h; rfl
  split
  · next h => subst h; rfl
  split
  · next h => subst h; rfl
  split
  · next h => subst h; rfl
  split
  · next h => subst h; rfl
  split
  · next h =>
    obtain ⟨c, d, hform, hunit⟩ := hexDigits_control b h
    have hb : b.toNat < 32 := UInt8.lt_iff_toNat_lt.1 h
    -- the code unit that the digits denote is the byte itself
    have hchar : String.utf8EncodeChar (Char.ofNat b.toNat) = [b] := by
      have hall : ∀ n : Fin 32, String.utf8EncodeChar (Char.ofNat n.val) = [UInt8.ofNat n.val] := by
        decide
      simpa using hall ⟨b.toNat, hb⟩
    have hsmall : b.toNat < 0xd800 := by omega
    simp [hform, unescape, hunit, hchar, hsmall]
  · next h5c _ _ _ _ _ _ =>
    -- a plain byte stands for itself
    rw [List.singleton_append, unescape]
    · rintro _ _ _ _ _ rfl
      exact absurd rfl h5c
    · rintro _ _ rfl
      exact absurd rfl h5c

/-- `unescape` gives a spelled text back. -/
private theorem unescape_spelled (text done : Bytes) :
    unescape done (text.flatMap escapeByte) = some (done.reverse ++ text) := by
  induction text generalizing done with
  -- induction on the text: each byte is given back as a whole
  | nil => simp [unescape]
  | cons b text ih =>
    rw [List.flatMap_cons, unescape_escapeByte, ih]
    simp

/-- `decodeText?` gives a text back from `encodeText`. -/
@[simp] theorem decodeText?_encodeText (text : String) :
    decodeText? (encodeText text) = some text := by
  rw [decodeText?, encodeText, unescape_spelled]
  simp [Utf8.decode_ofText, Except.toOption]

/-- `text?` gives a text back from `ofText`. -/
@[simp] theorem Value.text?_ofText (text : String) : (Value.ofText text).text? = some text :=
  decodeText?_encodeText text

/-! ## Numbers -/

/-- The spelling of a natural number. -/
abbrev decimal (n : Nat) : Bytes := Bytes.ofText (toString n)

/-- `decimal` of a number below ten is one digit. -/
theorem decimal_of_lt {n : Nat} (h : n < 10) : decimal n = [UInt8.ofNat (48 + n)] := by
  have hall : ∀ m : Fin 10, decimal m.val = [UInt8.ofNat (48 + m.val)] := by decide +kernel
  exact hall ⟨n, h⟩

/-- `decimal` of a number is that of its front, with its last digit behind. -/
theorem decimal_of_ge {n : Nat} (h : 10 ≤ n) :
    decimal n = decimal (n / 10) ++ [UInt8.ofNat (48 + n % 10)] := by
  rw [← decimal_of_lt (Nat.mod_lt n (by decide))]
  simp only [decimal, Nat.toString_eq_repr]
  rw [Nat.repr_eq_repr_append_repr h, Bytes.ofText_append]

/-- Every byte of a `decimal` is a digit. -/
theorem isDigit_of_mem_decimal {n : Nat} {b : UInt8} (h : b ∈ decimal n) : isDigit b := by
  have hdigit {m : Nat} (hm : m < 10) : isDigit (UInt8.ofNat (48 + m)) := by
    have hall : ∀ m : Fin 10, isDigit (UInt8.ofNat (48 + m.val)) := by decide
    exact hall ⟨m, hm⟩
  -- by the number: a digit alone, or the number without its last digit
  induction n using Nat.strongRecOn with
  | ind n ih =>
    rcases Nat.lt_or_ge n 10 with hn | hn
    · rw [decimal_of_lt hn, List.mem_singleton] at h
      exact h ▸ hdigit hn
    · rw [decimal_of_ge hn, List.mem_append, List.mem_singleton] at h
      rcases h with h | rfl
      · exact ih (n / 10) (by omega) h
      · exact hdigit (Nat.mod_lt n (by decide))

/-- A `decimal` starts with a zero only where it is that of the number zero. -/
theorem decimal_head (n : Nat) : n = 0 ∧ decimal n = [0x30] ∨
    ∃ b bs, decimal n = b :: bs ∧ b ≠ 0x30 := by
  -- by the number: a number of several digits starts as its front does
  induction n using Nat.strongRecOn with
  | ind n ih =>
    rcases Nat.lt_or_ge n 10 with hn | hn
    · have hall : ∀ m : Fin 10, m.val = 0 ∨ UInt8.ofNat (48 + m.val) ≠ 0x30 := by decide
      rw [decimal_of_lt hn]
      rcases hall ⟨n, hn⟩ with h | h
      · exact .inl ⟨h, by simp only [show n = 0 from h]; rfl⟩
      · exact .inr ⟨_, [], rfl, h⟩
    · rcases ih (n / 10) (by omega) with ⟨h, _⟩ | ⟨b, bs, h, hb⟩
      · omega
      · exact .inr ⟨b, bs ++ [UInt8.ofNat (48 + n % 10)], by rw [decimal_of_ge hn, h]; rfl, hb⟩

/-- A `decimal` starts with a digit. -/
theorem exists_decimal_eq_cons (n : Nat) : ∃ b bs, decimal n = b :: bs ∧ isDigit b := by
  obtain ⟨b, bs, hform⟩ : ∃ b bs, decimal n = b :: bs := by
    rcases decimal_head n with ⟨-, h⟩ | ⟨b, bs, h, -⟩
    · exact ⟨_, _, h⟩
    · exact ⟨b, bs, h⟩
  exact ⟨b, bs, hform, isDigit_of_mem_decimal (by rw [hform]; exact List.mem_cons_self)⟩

/-- `ofDigits` gives a number back from its `decimal`. -/
theorem ofDigits_decimal (n : Nat) : Value.ofDigits (decimal n) = n := by
  have hdigit {m : Nat} (hm : m < 10) : (UInt8.ofNat (48 + m)).toNat - 48 = m := by
    rw [UInt8.toNat_ofNat']
    omega
  -- by the number, as the digits are read from the front
  induction n using Nat.strongRecOn with
  | ind n ih =>
    rcases Nat.lt_or_ge n 10 with hn | hn
    · rw [decimal_of_lt hn]
      simp only [Value.ofDigits, List.foldl_cons, List.foldl_nil, hdigit hn]
      omega
    · -- the digits in front denote `n / 10`, and the last one adds `n % 10`
      have hfront := ih (n / 10) (by omega)
      rw [decimal_of_ge hn]
      simp only [Value.ofDigits, List.foldl_append, List.foldl_cons, List.foldl_nil] at hfront ⊢
      rw [hfront, hdigit (Nat.mod_lt n (by decide))]
      omega

/-- `word?` gives a word back from `ofWord`. -/
@[simp] theorem Value.word?_ofWord (n : UInt64) : (Value.ofWord n).word? = some n := by
  have hall : (decimal n.toNat).all (fun b => decide (0x30 ≤ b ∧ b ≤ 0x39)) := by
    rw [List.all_eq_true]
    intro b hb
    simpa [isDigit] using isDigit_of_mem_decimal hb
  have hn := ofDigits_decimal n.toNat
  have hlt := n.toNat_lt
  simp only [Value.ofWord, Value.ofNat, Value.word?]
  rw [hn, if_pos ⟨hall, hlt⟩, UInt64.ofNat_toNat]

/-- What follows a number does not continue it. -/
def EndsNumber (rest : Bytes) : Prop :=
  ∀ b bs, rest = b :: bs → ¬isDigit b ∧ b ≠ 0x2e ∧ b ≠ 0x65 ∧ b ≠ 0x45

/-- `span isDigit` takes all digits, up to what ends a number. -/
private theorem span_digits {digits rest : Bytes} (hd : ∀ b ∈ digits, isDigit b)
    (hr : EndsNumber rest) : (digits ++ rest).span isDigit = (digits, rest) := by
  -- the digits are taken, and the byte behind them is none
  rw [List.span_eq_takeWhile_dropWhile, List.takeWhile_append_of_pos hd,
    List.dropWhile_append_of_pos hd]
  cases rest with
  | nil => simp
  | cons b bs =>
    have hb := (hr b bs rfl).1
    rw [List.takeWhile_cons_of_neg hb, List.dropWhile_cons_of_neg hb, List.append_nil]

/-- `number?` takes a `decimal` up to what follows its digits. -/
theorem number?_decimal (n : Nat) {rest : Bytes} (hr : EndsNumber rest) :
    number? (decimal n ++ rest) = some (decimal n, rest) := by
  -- a number is a whole part, a fraction and an exponent; the last two are absent
  have hwhole : wholePart? (decimal n ++ rest) = some (decimal n, rest) := by
    rcases decimal_head n with ⟨rfl, h⟩ | ⟨b, bs, h, hb⟩
    · rw [h]
      cases rest with
      | nil => rfl
      | cons b bs => simp [wholePart?, (hr b bs rfl).1]
    · -- the first digit is no zero, and all digits are taken
      have hspan := span_digits (fun b => isDigit_of_mem_decimal (n := n)) hr
      rw [h] at hspan ⊢
      rw [List.cons_append, wholePart?]
      · rw [digits1?, ← List.cons_append, hspan]
      · rintro _ h'
        exact absurd (List.cons.inj h').1 hb
  have hfraction : fraction? rest = some ([], rest) := by
    cases rest with
    | nil => rfl
    | cons b bs =>
      rw [fraction?]
      rintro _ h
      exact absurd (List.cons.inj h).1 (hr b bs rfl).2.1
  have hexponent : exponent? rest = some ([], rest) := by
    cases rest with
    | nil => rfl
    | cons b bs =>
      obtain ⟨-, -, h65, h45⟩ := hr b bs rfl
      simp [exponent?, h65, h45]
  have hsign : ∀ tail, decimal n ++ rest ≠ 0x2d :: tail := by
    intro tail h
    obtain ⟨b, bs, hform, hb⟩ := exists_decimal_eq_cons n
    rw [hform, List.cons_append] at h
    obtain ⟨rfl, -⟩ := List.cons.inj h
    exact absurd hb (by decide)
  -- there is no sign, which the equation of `number?` for that case has to be told
  rw [number?]
  · simp [hwhole, hfraction, hexponent]
  · exact hsign

end LeaseChain.Json
