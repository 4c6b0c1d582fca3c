import LeaseChain.Block
import LeaseChain.Proofs.ForStd.Except
import LeaseChain.Proofs.Text.Utf8

/-!
# One encoding per value

`Wire.write` and `Wire.read` undo each other. `LawfulWire` states both directions in front-of-input
form, so that the laws of a record follow from those of its fields: whatever follows a written value
is left over by the reader, and what a reader took from the front of its input is the written form
of the value it gave.

A count in front of text and lists is a word of sixty-four bits, so a value is read back when its
form is shorter than that.

## Key results

- `Reader.bind_apply`, `Reader.pure_apply`: how a reader's `do` block threads the input
- `instLawfulWireList`: the laws of a list from those of its elements
- `Wire.bind_read_append`, `Wire.bind_read_eq_ok`: a record is read field by field
- `Wire.write_injective`: two values with one short form are one value
-/

namespace LeaseChain

/-- Types whose two directions undo each other. -/
class LawfulWire (α : Type) [Wire α] : Prop where
  /-- No value has an empty form. -/
  write_pos (a : α) : 0 < (Wire.write a).length
  /-- A short form is read back, whatever follows it. -/
  read_write (a : α) (rest : Bytes) (h : (Wire.write a).length < UInt64.size) :
    (Wire.read : Reader α) (Wire.write a ++ rest) = .ok (a, rest)
  /-- What was read was the form of the value. -/
  write_read {input rest : Bytes} {a : α} (h : (Wire.read : Reader α) input = .ok (a, rest)) :
    Wire.write a ++ rest = input

/-- `toNatLE` of a byte string is below the power of its length. -/
theorem Bytes.toNatLE_lt (bs : Bytes) : toNatLE bs < Nat.pow 256 bs.length := by
  induction bs with
  | nil => exact Nat.one_pos
  | cons b bs ih =>
    -- one more byte multiplies the bound by 256 and adds less than 256 to the integer
    have hb := b.toNat_lt
    rw [Nat.pow_eq] at ih ⊢
    rw [toNatLE, List.length_cons, Nat.pow_succ]
    omega

/-- `ofNatLE` gives a byte string back from its `toNatLE`, in as many bytes as it has. -/
theorem Bytes.ofNatLE_toNatLE_of_length {bs : Bytes} {width : Nat} (h : bs.length = width) :
    ofNatLE width (toNatLE bs) = bs := by
  rw [← h, ofNatLE_toNatLE]

/-! ## Readers -/

namespace Reader

variable {α β : Type}

theorem bind_apply (r : Reader α) (f : α → Reader β) (input : Bytes) :
    (r >>= f) input = (r input >>= fun p => f p.1 p.2) := rfl

theorem pure_apply (a : α) (input : Bytes) : (pure a : Reader α) input = .ok (a, input) := rfl

theorem throw_apply (e : WireError) (input : Bytes) :
    (throw e : Reader α) input = .error e := rfl

/-- A sequence `r >>= f` of readers succeeds where both do, `f` on what `r` left. -/
theorem bind_eq_ok_iff {r : Reader α} {f : α → Reader β} {input rest : Bytes} {b : β} :
    (r >>= f) input = .ok (b, rest) ↔
      ∃ a middle, r input = .ok (a, middle) ∧ f a middle = .ok (b, rest) := by
  rw [bind_apply, Except.bind_eq_ok_iff]
  simp only [Prod.exists]

/-- `take` takes as many bytes off as there are in `front`. -/
theorem take_append (front rest : Bytes) :
    take front.length (front ++ rest) = .ok (front, rest) := by
  simp [take]

/-- What `take` took has the length that was asked for, and was in front of the rest. -/
theorem take_eq_ok {n : Nat} {input front rest : Bytes} (h : take n input = .ok (front, rest)) :
    front.length = n ∧ front ++ rest = input := by
  simp only [take] at h
  split at h
  · rename_i hlen
    simp only [Except.ok.injEq, Prod.mk.injEq] at h
    obtain ⟨rfl, rfl⟩ := h
    exact ⟨hlen, List.take_append_drop n input⟩
  · cases h

/-- `natLE` reads an integer back from its `ofNatLE`. -/
theorem natLE_append {width n : Nat} (h : n < Nat.pow 256 width) (rest : Bytes) :
    natLE width (Bytes.ofNatLE width n ++ rest) = .ok (n, rest) := by
  have ht := take_append (Bytes.ofNatLE width n) rest
  rw [Bytes.length_ofNatLE] at ht
  rw [natLE, bind_apply, ht, Except.ok_bind, pure_apply, Bytes.toNatLE_ofNatLE h]

/-- The bytes of an integer that `natLE` read are its `ofNatLE`. -/
theorem natLE_eq_ok {width n : Nat} {input rest : Bytes} (h : natLE width input = .ok (n, rest)) :
    Bytes.ofNatLE width n ++ rest = input ∧ n < Nat.pow 256 width := by
  rw [natLE, bind_eq_ok_iff] at h
  obtain ⟨front, middle, ht, hn⟩ := h
  simp only [pure_apply, Except.ok.injEq, Prod.mk.injEq] at hn
  obtain ⟨rfl, rfl⟩ := hn
  obtain ⟨rfl, rfl⟩ := take_eq_ok ht
  exact ⟨by rw [Bytes.ofNatLE_toNatLE], Bytes.toNatLE_lt front⟩

end Reader

/-! ## Words -/

namespace Wire

/--
A word type whose form is its little-endian bytes is lawful; `toNat` and `ofNat` are its
conversions, which undo each other within the width.
-/
private theorem lawful_of_natLE {W : Type} [Wire W] (width : Nat) (toNat : W → Nat)
    (ofNat : Nat → W) (hpos : 0 < width)
    (hwrite : ∀ w : W, write w = Bytes.ofNatLE width (toNat w))
    (hread : (read : Reader W) = (Reader.natLE width >>= fun n => pure (ofNat n)))
    (hlt : ∀ w, toNat w < Nat.pow 256 width) (hof : ∀ w, ofNat (toNat w) = w)
    (hto : ∀ n, n < Nat.pow 256 width → toNat (ofNat n) = n) : LawfulWire W where
  write_pos w := by rw [hwrite, Bytes.length_ofNatLE]; exact hpos
  read_write w rest _ := by
    rw [hread, hwrite, Reader.bind_apply, Reader.natLE_append (hlt w), Except.ok_bind,
      Reader.pure_apply, hof]
  write_read {input rest w} h := by
    rw [hread, Reader.bind_eq_ok_iff] at h
    obtain ⟨n, middle, hn, hw⟩ := h
    simp only [Reader.pure_apply, Except.ok.injEq, Prod.mk.injEq] at hw
    obtain ⟨rfl, rfl⟩ := hw
    -- the bytes that were taken bound the integer, so that `ofNat` loses nothing of it
    obtain ⟨hform, hn⟩ := Reader.natLE_eq_ok hn
    rw [hwrite, hto n hn, hform]

/-- A byte is written as itself. -/
instance : LawfulWire UInt8 :=
  lawful_of_natLE 1 UInt8.toNat UInt8.ofNat Nat.one_pos
    (fun w => by simp only [write, Bytes.ofNatLE, UInt8.ofNat_toNat]) rfl
    (fun w => by simpa using w.toNat_lt) (fun w => UInt8.ofNat_toNat)
    (fun n h => by simp only [UInt8.toNat_ofNat']; exact Nat.mod_eq_of_lt (by simpa using h))

/-- A word of 16 bits is written in two bytes. -/
instance : LawfulWire UInt16 :=
  lawful_of_natLE 2 UInt16.toNat UInt16.ofNat Nat.two_pos (fun _ => rfl) rfl
    (fun w => by simpa using w.toNat_lt) (fun w => UInt16.ofNat_toNat)
    (fun n h => by simp only [UInt16.toNat_ofNat']; exact Nat.mod_eq_of_lt (by simpa using h))

/-- A word of 32 bits is written in four bytes. -/
instance : LawfulWire UInt32 :=
  lawful_of_natLE 4 UInt32.toNat UInt32.ofNat (by decide) (fun _ => rfl) rfl
    (fun w => by simpa using w.toNat_lt) (fun w => UInt32.ofNat_toNat)
    (fun n h => by simp only [UInt32.toNat_ofNat']; exact Nat.mod_eq_of_lt (by simpa using h))

/-- A word of 64 bits is written in eight bytes. -/
instance : LawfulWire UInt64 :=
  lawful_of_natLE 8 UInt64.toNat UInt64.ofNat (by decide) (fun _ => rfl) rfl
    (fun w => by simpa using w.toNat_lt) (fun w => UInt64.ofNat_toNat)
    (fun n h => by simp only [UInt64.toNat_ofNat']; exact Nat.mod_eq_of_lt (by simpa using h))

/-- A hash is written as its 32 bytes, without a count. -/
instance : LawfulWire Hash where
  write_pos h := by
    have := h.length_eq
    simp only [write]
    omega
  read_write h rest _ := by
    have ht := Reader.take_append h.bytes rest
    rw [h.length_eq] at ht
    simp only [read, write, Reader.bind_apply, ht, Except.ok_bind, Hash.ofBytes?_bytes,
      Reader.pure_apply]
  write_read {input rest h} hr := by
    simp only [read, Reader.bind_eq_ok_iff] at hr
    obtain ⟨front, middle, ht, hr⟩ := hr
    obtain ⟨-, rfl⟩ := Reader.take_eq_ok ht
    -- the bytes that were taken have the length of a hash, and the hash is them
    cases hk : Hash.ofBytes? front with
    | none => simp only [hk, Reader.throw_apply] at hr; cases hr
    | some k =>
      simp only [hk, Reader.pure_apply, Except.ok.injEq, Prod.mk.injEq] at hr
      obtain ⟨rfl, rfl⟩ := hr
      rw [Hash.ofBytes?_eq_some_iff.1 hk]
      rfl

/-- A key is written as its 32 bytes, and not every 32 bytes are a key. -/
instance : LawfulWire PublicKey where
  write_pos key := by
    have := key.length_eq
    simp only [write]
    omega
  read_write key rest _ := by
    have ht := Reader.take_append key.bytes rest
    rw [key.length_eq] at ht
    simp only [read, write, Reader.bind_apply, ht, Except.ok_bind, PublicKey.ofBytes?_bytes,
      Reader.pure_apply]
  write_read {input rest key} hr := by
    simp only [read, Reader.bind_eq_ok_iff] at hr
    obtain ⟨front, middle, ht, hr⟩ := hr
    obtain ⟨-, rfl⟩ := Reader.take_eq_ok ht
    -- a key keeps the bytes that it was decoded from, canonical or not
    cases hk : PublicKey.ofBytes? front with
    | none => simp only [hk, Reader.throw_apply] at hr; cases hr
    | some k =>
      simp only [hk, Reader.pure_apply, Except.ok.injEq, Prod.mk.injEq] at hr
      obtain ⟨rfl, rfl⟩ := hr
      rw [PublicKey.ofBytes?_eq_some_iff.1 hk]
      rfl

/-! ## Counted sequences -/

@[simp] theorem length_writeCount (n : Nat) : (writeCount n).length = 8 :=
  Bytes.length_ofNatLE 8 _

/-- `readCount` reads a count in range back. -/
theorem readCount_append {n : Nat} (h : n < UInt64.size) (rest : Bytes) :
    readCount (writeCount n ++ rest) = .ok (n, rest) := by
  have hlen : (write (UInt64.ofNat n)).length < UInt64.size := by
    show (writeCount n).length < _
    rw [length_writeCount]
    decide
  rw [readCount, Reader.bind_apply, writeCount, LawfulWire.read_write _ _ hlen, Except.ok_bind,
    Reader.pure_apply, UInt64.toNat_ofNat', Nat.mod_eq_of_lt h]

/-- A count that `readCount` read was written as one, and is in range. -/
theorem readCount_eq_ok {n : Nat} {input rest : Bytes} (h : readCount input = .ok (n, rest)) :
    writeCount n ++ rest = input ∧ n < UInt64.size := by
  rw [readCount, Reader.bind_eq_ok_iff] at h
  obtain ⟨w, middle, hw, hn⟩ := h
  simp only [Reader.pure_apply, Except.ok.injEq, Prod.mk.injEq] at hn
  obtain ⟨rfl, rfl⟩ := hn
  exact ⟨by rw [writeCount, UInt64.ofNat_toNat, LawfulWire.write_read hw], w.toNat_lt⟩

section List

variable {α : Type} [Wire α] [LawfulWire α]

/--
`items` reads as many values back as were written, behind `done`, those that were read before.
-/
private theorem items_append (as done : List α) (rest : Bytes)
    (h : ∀ a ∈ as, (write a).length < UInt64.size) :
    Reader.items read as.length done (as.flatMap write ++ rest) =
      .ok (done.reverse ++ as, rest) := by
  induction as generalizing done with
  | nil => simp [Reader.items]
  | cons a as ih =>
    have ha := LawfulWire.read_write a (as.flatMap write ++ rest) (h a List.mem_cons_self)
    simp only [List.length_cons, List.flatMap_cons, List.append_assoc, Reader.items, ha]
    -- the reader collects in reverse order
    rw [ih (a :: done) fun b hb => h b (List.mem_cons_of_mem a hb)]
    simp

/-- The values that `items` read were written one after the other. -/
private theorem items_eq_ok (n : Nat) (done : List α) {as : List α} {input rest : Bytes}
    (h : Reader.items read n done input = .ok (as, rest)) :
    ∃ bs, as = done.reverse ++ bs ∧ bs.length = n ∧ bs.flatMap write ++ rest = input := by
  -- induction on the number of items; those that were read before are `done`
  induction n generalizing done input with
  | zero =>
    simp only [Reader.items, Except.ok.injEq, Prod.mk.injEq] at h
    obtain ⟨rfl, rfl⟩ := h
    exact ⟨[], by simp⟩
  | succ n ih =>
    simp only [Reader.items] at h
    split at h
    · cases h
    · rename_i a middle ha
      obtain ⟨bs, rfl, hlen, hform⟩ := ih (a :: done) h
      refine ⟨a :: bs, by simp, by simp [hlen], ?_⟩
      rw [List.flatMap_cons, List.append_assoc, hform, LawfulWire.write_read ha]

/-- `flatMap write` has at least as many bytes as the list has elements. -/
theorem length_le_length_flatMap (as : List α) : as.length ≤ (as.flatMap write).length := by
  -- induction on the elements, each of which has a byte at least
  induction as with
  | nil => exact Nat.le_refl _
  | cons a as ih =>
    have := LawfulWire.write_pos a
    simp only [List.flatMap_cons, List.length_append, List.length_cons]
    omega

omit [LawfulWire α] in
/-- `flatMap write` is at least as long as what one element writes. -/
theorem length_write_le_length_flatMap {a : α} {as : List α} (h : a ∈ as) :
    (write a).length ≤ (as.flatMap write).length := by
  induction as with
  | nil => cases h
  | cons b as ih =>
    simp only [List.flatMap_cons, List.length_append]
    rcases List.mem_cons.1 h with rfl | h
    · omega
    · have := ih h
      omega

/--
`read` gets a list back where its count and the forms of its elements are short, however long it is
itself.
-/
theorem read_list_append {as : List α} (rest : Bytes) (hcount : as.length < UInt64.size)
    (hitems : ∀ a ∈ as, (write a).length < UInt64.size) :
    (read : Reader (List α)) (write as ++ rest) = .ok (as, rest) := by
  simp only [read, write, writeList, List.append_assoc, Reader.bind_apply]
  rw [readCount_append hcount, Except.ok_bind, Reader.many, items_append as [] rest hitems]
  rfl

/-- A list is its count, and the forms of its elements. -/
instance : LawfulWire (List α) where
  write_pos as := by
    simp only [write, writeList, List.length_append, length_writeCount]
    omega
  read_write as rest h := by
    simp only [write, writeList, List.length_append, length_writeCount] at h
    -- no element is empty, so that a list whose form is short has few elements
    have hcount := length_le_length_flatMap as
    refine read_list_append rest (by omega) fun a ha => ?_
    have := length_write_le_length_flatMap ha
    omega
  write_read {input rest as} h := by
    simp only [read, Reader.bind_eq_ok_iff] at h
    obtain ⟨n, middle, hn, h⟩ := h
    obtain ⟨bs, has, rfl, hform⟩ := items_eq_ok n [] h
    rw [List.reverse_nil, List.nil_append] at has
    subst has
    simp only [write, writeList, List.append_assoc]
    rw [hform, (readCount_eq_ok hn).1]

end List

/-! ## Text and signatures -/

/-- A text is the count of its bytes, and its UTF-8. -/
instance : LawfulWire String where
  write_pos text := by
    simp only [write, List.length_append, length_writeCount]
    omega
  read_write text rest h := by
    simp only [write, List.length_append, length_writeCount, Bytes.length_ofText] at h
    simp only [read, write, List.append_assoc, Reader.bind_apply]
    rw [readCount_append (by omega), Except.ok_bind, ← Bytes.length_ofText]
    simp only [Reader.text, List.take_left', if_pos, List.drop_left', Utf8.decode_ofText]
  write_read {input rest text} h := by
    simp only [read, Reader.bind_eq_ok_iff] at h
    obtain ⟨n, middle, hn, h⟩ := h
    simp only [Reader.text] at h
    split at h
    · rename_i hlen
      split at h
      · rename_i found hfound
        simp only [Except.ok.injEq, Prod.mk.injEq] at h
        obtain ⟨rfl, rfl⟩ := h
        -- only the bytes of a text decode to it, and the count in front was their number
        have hbytes := Utf8.ofText_of_decode hfound
        simp only [write, List.append_assoc, ← Bytes.length_ofText]
        rw [hbytes, hlen, List.take_append_drop, (readCount_eq_ok hn).1]
      · cases h
    · cases h

/-- A `Signature` is read as a list of bytes that has to have its length. -/
private theorem read_signature_apply (input : Bytes) :
    (read : Reader Signature) input =
      ((read : Reader Bytes) input >>= fun p =>
        match Signature.ofBytes? p.1 with
        | some signature => .ok (signature, p.2)
        | none => .error .signatureLength) := by
  show ((read : Reader Bytes) input >>= _) = _
  congr 1
  funext p
  cases h : Signature.ofBytes? p.1 <;> simp only [h] <;> rfl

/-- A signature is a list of 64 bytes, with their count. -/
instance : LawfulWire Signature where
  write_pos signature := LawfulWire.write_pos signature.bytes
  read_write signature rest h := by
    have hof : Signature.ofBytes? signature.bytes = some signature := by
      rw [Signature.ofBytes?, dif_pos signature.length_eq]
    have hread := LawfulWire.read_write signature.bytes rest h
    show (read : Reader Signature) (write signature.bytes ++ rest) = _
    rw [read_signature_apply, hread, Except.ok_bind, hof]
  write_read {input rest signature} h := by
    rw [read_signature_apply, Except.bind_eq_ok_iff] at h
    obtain ⟨⟨bytes, middle⟩, hb, h⟩ := h
    cases hs : Signature.ofBytes? bytes with
    | none => simp only [hs] at h; cases h
    | some s =>
      simp only [hs, Except.ok.injEq, Prod.mk.injEq] at h
      obtain ⟨rfl, rfl⟩ := h
      simp only [Signature.ofBytes?, Option.dite_none_right_eq_some, Option.some.injEq] at hs
      obtain ⟨_, rfl⟩ := hs
      exact LawfulWire.write_read (α := Bytes) hb

/-! ## Records -/

section Fields

variable {α β : Type} [Wire α] [LawfulWire α]

/--
A field `a` in front of the rest of a record is read back, and the rest by `f` from what follows.
-/
theorem bind_read_append (a : α) (f : α → Reader β) (rest : Bytes)
    (h : (write a).length < UInt64.size) :
    ((read : Reader α) >>= f) (write a ++ rest) = f a rest := by
  rw [Reader.bind_apply, LawfulWire.read_write a rest h, Except.ok_bind]

/-- What was read field by field starts with `write` of the first field. -/
theorem bind_read_eq_ok {f : α → Reader β} {input rest : Bytes} {b : β}
    (h : ((read : Reader α) >>= f) input = .ok (b, rest)) :
    ∃ a middle, input = write a ++ middle ∧ f a middle = .ok (b, rest) := by
  obtain ⟨a, middle, ha, hf⟩ := Reader.bind_eq_ok_iff.1 h
  exact ⟨a, middle, (LawfulWire.write_read ha).symm, hf⟩

/-- Two values with one short form are one value, also where `as` and `bs` follow the forms. -/
theorem write_injective {a b : α} {as bs : Bytes} (h : write a ++ as = write b ++ bs)
    (ha : (write a).length < UInt64.size) (hb : (write b).length < UInt64.size) :
    a = b ∧ as = bs := by
  -- read the one input in both ways
  have hread := LawfulWire.read_write a as ha
  rw [h, LawfulWire.read_write b bs hb] at hread
  obtain ⟨rfl, rfl⟩ := Prod.mk.inj (Except.ok.inj hread)
  exact ⟨rfl, rfl⟩

/-- `readAll` reads a value back that fills a short input. -/
theorem readAll_write (a : α) (h : (write a).length < UInt64.size) : readAll (write a) = .ok a := by
  have hread := LawfulWire.read_write a [] h
  rw [List.append_nil] at hread
  rw [readAll, Reader.run, hread]
  rfl

/-- An input that `readAll` read is `write` of the value. -/
theorem write_of_readAll {input : Bytes} {a : α} (h : readAll input = .ok a) : write a = input := by
  simp only [readAll, Reader.run, Except.bind_eq_ok_iff, Prod.exists] at h
  obtain ⟨b, rest, hread, h⟩ := h
  split at h
  · rename_i hempty
    simp only [Bool.or_false, List.isEmpty_iff] at hempty
    obtain rfl := Except.ok.inj h
    have := LawfulWire.write_read hread
    rwa [hempty, List.append_nil] at this
  · cases h

end Fields

end Wire

end LeaseChain
