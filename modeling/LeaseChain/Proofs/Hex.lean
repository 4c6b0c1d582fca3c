import LeaseChain.Key

/-!
# Hexadecimal text

Bytes have one lower-case text and are read from every text that differs from it in letter case
only. So a public key has many spellings, and two texts spell the same key exactly when they are the
same in lower case.

## Key results

- `Bytes.hexValue?_eq_some_iff`, `Bytes.ofHex?_eq_some_iff`: what is read is what is written, in
  lower case
- `PublicKey.ofHex_eq_ok_iff`: the spellings of a public key
-/

namespace LeaseChain

namespace Bytes

variable {c : Char} {v : Nat} {bs : Bytes}

/-- A character with a `hexValue?` is an ASCII character. -/
theorem toNat_lt_of_hexValue? (h : hexValue? c = some v) : c.toNat < 128 := by
  have hbound {last : Char} (hle : c ≤ last) (hlast : last.toNat < 128) : c.toNat < 128 :=
    Nat.lt_of_le_of_lt (UInt32.le_iff_toNat_le.1 (Char.le_def.1 hle)) hlast
  unfold hexValue? at h
  split at h
  · next hdigit => exact hbound hdigit.2 (by decide)
  · split at h
    · next hlower => exact hbound hlower.2 (by decide)
    · split at h
      · next hupper => exact hbound hupper.2 (by decide)
      · cases h

/-- What holds of the characters with small codes can be checked one by one. -/
theorem forall_ascii {p : Char → Bool} (h : ∀ n : Fin 128, p (Char.ofNat n) = true)
    (hc : c.toNat < 128) : p c = true := by
  have hchar := h ⟨c.toNat, hc⟩
  rwa [Char.ofNat_toNat] at hchar

/-- A digit has the lower-case form `hexDigit` that its value is written with. -/
theorem toLower_of_hexValue? (h : hexValue? c = some v) : v < 16 ∧ c.toLower = hexDigit v := by
  -- there are few such characters, and each of them is checked
  have hall := forall_ascii
    (p := fun c => (hexValue? c).all fun v => v < 16 ∧ c.toLower = hexDigit v)
    (by decide +kernel) (toNat_lt_of_hexValue? h)
  simpa only [h, Option.all_some, decide_eq_true_eq] using hall

/-- Letter case makes no difference to `hexValue?`. -/
theorem hexValue?_toLower (c : Char) : hexValue? c.toLower = hexValue? c := by
  by_cases hascii : c.toNat < 128
  · have hall := forall_ascii (p := fun c => hexValue? c.toLower = hexValue? c)
      (by decide +kernel) hascii
    simpa only [decide_eq_true_eq] using hall
  · have hcapital : ¬(c.val ≥ 'A'.val ∧ c.val ≤ 'Z'.val) := fun h =>
      hascii (Nat.lt_of_le_of_lt (UInt32.le_iff_toNat_le.1 h.2) (by decide))
    have hsame : c.toLower = c := dif_neg hcapital
    rw [hsame]

/--
A character is a digit of the value `v` exactly if its lower-case form is what `v` is written with.
-/
theorem hexValue?_eq_some_iff : hexValue? c = some v ↔ v < 16 ∧ c.toLower = hexDigit v := by
  refine ⟨toLower_of_hexValue?, fun ⟨hv, hlower⟩ => ?_⟩
  rw [← hexValue?_toLower, hlower, hexValue?_hexDigit hv]

/-- The two digits of a byte. -/
def hexPair (b : UInt8) : List Char := [hexDigit (b.toNat / 16), hexDigit (b.toNat % 16)]

/-- `toHex` has the two digits of each byte. -/
theorem toList_toHex (bs : Bytes) : (toHex bs).toList = bs.flatMap hexPair := by
  -- `toHex` adds to a text, so that the induction is on any text in front
  have hfold (text : String) : (bs.foldl (fun text b =>
      (text.push (hexDigit (b.toNat / 16))).push (hexDigit (b.toNat % 16))) text).toList =
      text.toList ++ bs.flatMap hexPair := by
    induction bs generalizing text with
    | nil => simp
    | cons b bs ih => simp [ih, hexPair]
  exact hfold ""

/-- `ofHexChars?` reads a pair of digits as a byte. -/
theorem ofHexChars?_pair_eq_some_iff {high low : Char} {rest : List Char} :
    ofHexChars? (high :: low :: rest) = some bs ↔ ∃ x, hexValue? high = some x ∧
      ∃ y, hexValue? low = some y ∧ ∃ tail, ofHexChars? rest = some tail ∧
        UInt8.ofNat (16 * x + y) :: tail = bs := by
  simp only [ofHexChars?, Option.bind_eq_bind, Option.bind_eq_some_iff, Option.pure_def,
    Option.some.injEq]

/-- `ofHexChars?` reads bytes from what they are written as, in any letter case. -/
theorem ofHexChars?_eq_some_iff {cs : List Char} :
    ofHexChars? cs = some bs ↔ cs.map Char.toLower = bs.flatMap hexPair := by
  -- induction as `ofHexChars?` recurses: no digit, a single one, or a pair in front of the rest
  induction cs using ofHexChars?.induct generalizing bs with
  | case1 => cases bs <;> simp [ofHexChars?, hexPair]
  | case2 c => cases bs <;> simp [ofHexChars?, hexPair]
  | case3 high low rest ih =>
    rw [ofHexChars?_pair_eq_some_iff]
    constructor
    · rintro ⟨x, hx, y, hy, tail, htail, rfl⟩
      obtain ⟨hx, hhigh⟩ := toLower_of_hexValue? hx
      obtain ⟨hy, hlow⟩ := toLower_of_hexValue? hy
      -- the byte has the two values for its halves
      have hbyte : (UInt8.ofNat (16 * x + y)).toNat = 16 * x + y := by
        rw [UInt8.toNat_ofNat']
        omega
      have hhalves : (16 * x + y) / 16 = x ∧ (16 * x + y) % 16 = y := by omega
      rw [List.flatMap_cons, hexPair, hbyte, hhalves.1, hhalves.2, List.map_cons, List.map_cons,
        hhigh, hlow, ih.1 htail]
      rfl
    · intro h
      cases bs with
      | nil => cases h
      | cons b bs =>
        rw [List.flatMap_cons, hexPair, List.map_cons, List.map_cons] at h
        obtain ⟨hhigh, h⟩ := List.cons.inj h
        obtain ⟨hlow, h⟩ := List.cons.inj h
        have hb := b.toNat_lt
        have hbyte : UInt8.ofNat (16 * (b.toNat / 16) + b.toNat % 16) = b := by
          rw [Nat.div_add_mod, UInt8.ofNat_toNat]
        exact ⟨b.toNat / 16, hexValue?_eq_some_iff.2 ⟨by omega, hhigh⟩, b.toNat % 16,
          hexValue?_eq_some_iff.2 ⟨by omega, hlow⟩, bs, ih.2 h, by rw [hbyte]⟩

/-- A text spells bytes exactly if its lower-case form is their `toHex`. -/
theorem ofHex?_eq_some_iff {text : String} : ofHex? text = some bs ↔ text.toLower = toHex bs := by
  have hlower : text.toLower.toList = text.toList.map Char.toLower := String.toList_map
  rw [ofHex?, ofHexChars?_eq_some_iff, ← toList_toHex, ← String.toList_inj, hlower]

/-- A text that `ofHex?` reads takes two bytes for each of those it spells. -/
theorem utf8ByteSize_of_ofHex? {text : String} (h : ofHex? text = some bs) :
    text.utf8ByteSize = 2 * bs.length := by
  -- every digit is a character of one byte
  have hdigit {c : Char} {v : Nat} (hv : hexValue? c = some v) : c.utf8Size = 1 :=
    Char.utf8Size_eq_one_iff.2
      (UInt32.le_iff_toNat_le.2 (Nat.le_of_lt_succ (toNat_lt_of_hexValue? hv)))
  have hchars (cs : List Char) {bs : Bytes} (h : ofHexChars? cs = some bs) :
      (String.ofList cs).utf8ByteSize = 2 * bs.length := by
    -- induction on the pairs again, each of which takes two bytes of the text
    induction cs using ofHexChars?.induct generalizing bs with
    | case1 =>
      obtain rfl := Option.some.inj h
      rfl
    | case2 c => cases h
    | case3 high low rest ih =>
      obtain ⟨x, hx, y, hy, tail, htail, rfl⟩ := ofHexChars?_pair_eq_some_iff.1 h
      have hsplit : String.ofList (high :: low :: rest) =
          String.singleton high ++ String.singleton low ++ String.ofList rest := by
        rw [String.singleton_eq_ofList, String.singleton_eq_ofList, ← String.ofList_append,
          ← String.ofList_append]
        rfl
      rw [hsplit, String.utf8ByteSize_append, String.utf8ByteSize_append,
        String.utf8ByteSize_singleton, String.utf8ByteSize_singleton, hdigit hx, hdigit hy,
        ih htail, List.length_cons]
      omega
  rw [← hchars text.toList h, String.ofList_toList]

end Bytes

/-- `Hash.ofHex?` reads a hash where `Bytes.ofHex?` reads the bytes of it. -/
theorem Hash.ofHex?_eq_some_iff {text : String} {h : Hash} :
    Hash.ofHex? text = some h ↔ Bytes.ofHex? text = some h.bytes := by
  rw [Hash.ofHex?]
  constructor
  · intro hread
    split at hread
    · obtain ⟨bs, hbs, hof⟩ := Option.bind_eq_some_iff.1 hread
      rw [hbs, Hash.ofBytes?_eq_some_iff.1 hof]
    · cases hread
  · intro hread
    -- the bytes of a hash have the length that is asked of the text
    rw [if_pos (by rw [Bytes.utf8ByteSize_of_ofHex? hread, h.length_eq]), hread]
    exact Hash.ofBytes?_bytes h

namespace PublicKey

variable {key : PublicKey}

/-- The bytes of a key are those of that key and of no other. -/
theorem ofBytes_eq_ok_iff {bytes : Bytes} : ofBytes bytes = .ok key ↔ bytes = key.bytes := by
  rw [← ofBytes?_eq_some_iff, ofBytes]
  cases ofBytes? bytes <;> simp

/-- `ofHex` reads a key from its text `toHex`, in any letter case. -/
theorem ofHex_eq_ok_iff {text : String} : ofHex text = .ok key ↔ text.toLower = key.toHex := by
  rw [toHex, ← Bytes.ofHex?_eq_some_iff, ofHex]
  constructor
  · intro h
    split at h
    · next hash hhash => rw [Hash.ofHex?_eq_some_iff.1 hhash, ofBytes_eq_ok_iff.1 h]
    · cases h
  · intro h
    have hhash := Hash.ofHex?_eq_some_iff (h := ⟨key.bytes, key.length_eq⟩).2 h
    simp only [hhash, ofBytes_eq_ok_iff]

end PublicKey

end LeaseChain
