import LeaseChain.Proofs.Wire.Records

/-!
# Frames and blocks are forms of one value

`Framing.decode` undoes `Framing.encode` and refuses every other byte string, so a value has at most
one frame and a frame one value. A block is `Block.IsFramed` when its bytes are the frame of its
content, as those are that come from `Block.ofContent` and `Block.ofBytes`; where the hash tells the
frames of such blocks apart, their identifiers tell the blocks apart.

## Key results

- `Framing.decode_encode`, `Framing.encode_of_decode`: the two directions
- `Block.eq_of_id_eq`: framed blocks with one identifier are one block
- `Block.length_txs_le`: how many transactions a framed block can have
- `Transaction.eq_of_id_eq`: the same of transactions
-/

namespace LeaseChain

open Wire

namespace Framing

variable {α : Type} [Wire α] [LawfulWire α] {framing : Framing}

omit [LawfulWire α] in
/-- What a frame that `encode` gives consists of. -/
theorem encode_eq_ok_iff {a : α} {frame : Bytes} :
    framing.encode a = .ok frame ↔
      ((write a).length + headerSize ≤ framing.limit ∧ (write a).length < UInt32.size) ∧
      frame = write framing.version ++ write (UInt32.ofNat (write a).length) ++ write a := by
  -- the two checks that encoding makes, in one disjunction
  simp only [encode]
  split
  · next h =>
    refine ⟨(nomatch ·), fun ⟨⟨hlimit, hsize⟩, _⟩ => ?_⟩
    rcases h with h | h <;> omega
  · next h =>
    rw [not_or, Nat.not_lt, Nat.not_le] at h
    exact ⟨fun h' => ⟨h, (Except.ok.inj h').symm⟩, fun ⟨_, h'⟩ => h' ▸ rfl⟩

/-- `decode` reads the value back that a frame was made of. -/
theorem decode_encode {a : α} {frame : Bytes} (h : framing.encode a = .ok frame) :
    framing.decode frame = .ok a := by
  obtain ⟨⟨hlimit, hsize⟩, rfl⟩ := encode_eq_ok_iff.1 h
  -- the header's two fields and the payload are where `decode` looks for them
  have hversion : (write framing.version).length = 2 := Bytes.length_ofNatLE 2 _
  have hcount : (write (UInt32.ofNat (write a).length)).length = 4 := Bytes.length_ofNatLE 4 _
  have htake : (write framing.version ++ write (UInt32.ofNat (write a).length) ++ write a).take 2 =
      write framing.version := by
    rw [List.append_assoc, ← hversion, List.take_left]
  have hmiddle : ((write framing.version ++ write (UInt32.ofNat (write a).length) ++
      write a).drop 2).take 4 = write (UInt32.ofNat (write a).length) := by
    rw [List.append_assoc, ← hversion, List.drop_left, ← hcount, List.take_left]
  have hdrop : (write framing.version ++ write (UInt32.ofNat (write a).length) ++
      write a).drop headerSize = write a := by
    refine List.drop_left' ?_
    rw [List.length_append, hversion, hcount, headerSize]
  -- the header says what it was made from
  have hread : Bytes.toNatLE (write framing.version) = framing.version.toNat :=
    Bytes.toNatLE_ofNatLE (by simpa using framing.version.toNat_lt)
  have hdeclared : Bytes.toNatLE (write (UInt32.ofNat (write a).length)) = (write a).length := by
    show Bytes.toNatLE (Bytes.ofNatLE 4 _) = _
    rw [Bytes.toNatLE_ofNatLE (by simpa using (UInt32.ofNat (write a).length).toNat_lt),
      UInt32.toNat_ofNat', Nat.mod_eq_of_lt hsize]
  have hlength : (write framing.version ++ write (UInt32.ofNat (write a).length) ++
      write a).length = (write a).length + headerSize := by
    simp only [List.length_append, hversion, hcount, headerSize]
    omega
  have hshort : (write a).length < UInt64.size := Nat.lt_trans hsize (by decide)
  simp only [decode, htake, hmiddle, hdrop, hread, hdeclared, hlength, UInt16.ofNat_toNat,
    Nat.add_sub_cancel, readAll_write a hshort, Except.mapError_ok]
  -- none of the four checks fails
  rw [if_neg (by omega), if_neg (by omega), if_neg (fun h => h rfl), if_neg (fun h => h rfl)]

/-- A frame that `decode` reads is the one that `encode` makes of the value. -/
theorem encode_of_decode {a : α} {frame : Bytes} (h : framing.decode frame = .ok a) :
    framing.encode a = .ok frame := by
  simp only [decode] at h
  split at h
  · cases h
  next hlimit =>
  split at h
  · cases h
  next hheader =>
  split at h
  · cases h
  next hversion =>
  split at h
  · cases h
  next hdeclared =>
  -- all four checks passed, and the payload is the form of the value
  have hpayload : write a = frame.drop headerSize :=
    write_of_readAll (Except.mapError_eq_ok_iff.1 h)
  simp only [headerSize] at hheader hdeclared hpayload hlimit
  have hfront : (frame.take 2).length = 2 := by rw [List.length_take]; omega
  have hmiddle : ((frame.drop 2).take 4).length = 4 := by
    rw [List.length_take, List.length_drop]; omega
  have hlength : (write a).length = frame.length - 6 := by rw [hpayload, List.length_drop]
  -- the header's fields are the little-endian forms of what they say
  have hv := Bytes.toNatLE_lt (frame.take 2)
  have hd := Bytes.toNatLE_lt ((frame.drop 2).take 4)
  rw [hfront] at hv
  rw [hmiddle] at hd
  have hv' : Bytes.toNatLE (frame.take 2) < 65536 := by simpa using hv
  have hd' : Bytes.toNatLE ((frame.drop 2).take 4) < UInt32.size := by simpa using hd
  have hform : write framing.version = frame.take 2 := by
    have := Decidable.not_not.1 hversion
    show Bytes.ofNatLE 2 framing.version.toNat = _
    rw [← this, UInt16.toNat_ofNat', Nat.mod_eq_of_lt hv',
      Bytes.ofNatLE_toNatLE_of_length hfront]
  have hcount : write (UInt32.ofNat (write a).length) = (frame.drop 2).take 4 := by
    show Bytes.ofNatLE 4 (UInt32.ofNat (write a).length).toNat = _
    rw [hlength, Decidable.not_not.1 hdeclared, UInt32.toNat_ofNat', Nat.mod_eq_of_lt hd',
      Bytes.ofNatLE_toNatLE_of_length hmiddle]
  -- so that the frame is put together from the same three parts
  refine encode_eq_ok_iff.2 ⟨⟨by rw [headerSize]; omega, by omega⟩, ?_⟩
  rw [hform, hcount, hpayload, List.append_assoc,
    show frame.drop 6 = (frame.drop 2).drop 4 by rw [List.drop_drop], List.take_append_drop,
    List.take_append_drop]

end Framing

/-- The hash tells the byte strings of a list apart. -/
def CollisionFree (inputs : List Bytes) : Prop :=
  ∀ x ∈ inputs, ∀ y ∈ inputs, Hash.of x = Hash.of y → x = y

theorem CollisionFree.mono {few many : List Bytes} (h : CollisionFree many) (hsub : few ⊆ many) :
    CollisionFree few :=
  fun x hx y hy => h x (hsub hx) y (hsub hy)

/-- Inputs whose hashes are known are `CollisionFree` where different ones have different hashes. -/
theorem CollisionFree.of_ids {α : Type} {form : α → Bytes} {id : α → Hash}
    (hid : ∀ a, id a = Hash.of (form a)) {items : List α}
    (h : ∀ a ∈ items, ∀ b ∈ items, id a = id b → form a = form b) :
    CollisionFree (items.map form) := by
  intro x hx y hy hxy
  obtain ⟨a, ha, rfl⟩ := List.mem_map.1 hx
  obtain ⟨b, hb, rfl⟩ := List.mem_map.1 hy
  exact h a ha b hb (by rw [hid, hid, hxy])

namespace Block

variable {framing : Framing}

/-- The bytes of a block are the frame of its content. -/
def IsFramed (framing : Framing) (b : Block) : Prop := ofBytes framing b.bytes = .ok b

instance (framing : Framing) (b : Block) : Decidable (IsFramed framing b) :=
  match h : ofBytes framing b.bytes with
  | .ok c => decidable_of_iff (c = b) (by rw [IsFramed, h]; exact ⟨congrArg _, Except.ok.inj⟩)
  | .error _ => isFalse (by rw [IsFramed, h]; exact fun h => nomatch h)

/-- `ofBytes` reads a block from the frame of its content, and keeps that frame as its bytes. -/
theorem ofBytes_eq_ok_iff {bytes : Bytes} {b : Block} :
    ofBytes framing bytes = .ok b ↔ framing.decode bytes = .ok b.content ∧ b.bytes = bytes := by
  simp only [ofBytes, Except.bind_eq_ok_iff]
  constructor
  · rintro ⟨content, hcontent, h⟩
    obtain rfl := Except.ok.inj h
    exact ⟨hcontent, rfl⟩
  · rintro ⟨hcontent, rfl⟩
    refine ⟨b.content, hcontent, ?_⟩
    obtain ⟨content, bytes, id, rfl⟩ := b
    rfl

/-- A block `IsFramed` exactly if its bytes are what its content encodes to. -/
theorem isFramed_iff {b : Block} : b.IsFramed framing ↔ framing.encode b.content = .ok b.bytes := by
  rw [IsFramed, ofBytes_eq_ok_iff]
  exact ⟨fun h => Framing.encode_of_decode h.1, fun h => ⟨Framing.decode_encode h, rfl⟩⟩

theorem isFramed_of_ofBytes {bytes : Bytes} {b : Block} (h : ofBytes framing bytes = .ok b) :
    b.IsFramed framing := by
  rwa [← (ofBytes_eq_ok_iff.1 h).2] at h

/-- `ofContent` makes a framed block, and there is one wherever the content has a frame. -/
theorem ofContent_eq_ok_iff {content : BlockContent} {b : Block} :
    ofContent framing content = .ok b ↔ b.content = content ∧ b.IsFramed framing := by
  rw [isFramed_iff]
  simp only [ofContent, Except.bind_eq_ok_iff]
  constructor
  · rintro ⟨bytes, hbytes, h⟩
    obtain rfl := Except.ok.inj h
    exact ⟨rfl, hbytes⟩
  · rintro ⟨rfl, hbytes⟩
    refine ⟨b.bytes, hbytes, ?_⟩
    obtain ⟨content, bytes, id, rfl⟩ := b
    rfl

/-- The forms of the transactions of a block that `IsFramed` fit into its frame. -/
theorem length_flatMap_write_le {b : Block} (hb : b.IsFramed framing) :
    (b.txs.flatMap write).length ≤ framing.limit ∧
      (b.txs.flatMap write).length < UInt32.size := by
  obtain ⟨⟨hlimit, hlt⟩, -⟩ := Framing.encode_eq_ok_iff.1 (isFramed_iff.1 hb)
  have hform : write b.content.txs = writeCount b.txs.length ++ b.txs.flatMap write := rfl
  simp only [b.content.write_eq, hform, List.length_append] at hlimit hlt
  omega

/-- `write` of a transaction of a block that `IsFramed` is short. -/
theorem length_write_lt {b : Block} (hb : b.IsFramed framing) {tx : Transaction}
    (htx : tx ∈ b.txs) : (write tx).length < UInt64.size := by
  have hlt := (length_flatMap_write_le hb).2
  have hle := length_write_le_length_flatMap htx
  have : UInt32.size < UInt64.size := by decide
  omega

/-- A block that `IsFramed` has no more transactions than its frame may have bytes. -/
theorem length_txs_le {b : Block} (hb : b.IsFramed framing) : b.txs.length ≤ framing.limit :=
  Nat.le_trans (length_le_length_flatMap b.txs) (length_flatMap_write_le hb).1

/-- Framed blocks with the same bytes are one block. -/
theorem eq_of_bytes_eq {a b : Block} (ha : a.IsFramed framing) (hb : b.IsFramed framing)
    (h : a.bytes = b.bytes) : a = b := by
  rw [IsFramed, h] at ha
  exact Except.ok.inj (ha.symm.trans hb)

/--
Framed blocks with one identifier are one block, if their bytes are among `CollisionFree` inputs.
-/
theorem eq_of_id_eq {inputs : List Bytes} {a b : Block} (hfree : CollisionFree inputs)
    (ha : a.IsFramed framing) (hb : b.IsFramed framing) (ha' : a.bytes ∈ inputs)
    (hb' : b.bytes ∈ inputs) (h : a.id = b.id) : a = b := by
  rw [a.id_eq, b.id_eq] at h
  exact eq_of_bytes_eq ha hb (hfree _ ha' _ hb' h)

end Block

namespace Transaction

/-- The identifier of a transaction is the hash of `write tx`. -/
theorem id_eq_of_write (tx : Transaction) : tx.id = Hash.of (write tx) := tx.id_eq

/-- Transactions with one identifier are one, if their forms are among `CollisionFree` inputs. -/
theorem eq_of_id_eq {inputs : List Bytes} {a b : Transaction} (hfree : CollisionFree inputs)
    (ha : (write a).length < UInt64.size) (hb : (write b).length < UInt64.size)
    (ha' : write a ∈ inputs) (hb' : write b ∈ inputs) (h : a.id = b.id) : a = b := by
  rw [id_eq_of_write, id_eq_of_write] at h
  -- one form, and nothing behind it
  have hbytes := congrArg (· ++ ([] : Bytes)) (hfree _ ha' _ hb' h)
  exact (write_injective hbytes ha hb).1

end Transaction

end LeaseChain
