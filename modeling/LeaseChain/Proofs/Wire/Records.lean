import LeaseChain.Block
import LeaseChain.Proofs.Wire.Lawful

/-!
# The wire forms of transactions and blocks

The laws of the records that frames hold, each from those of its fields. A record is read in the
order in which it is written; an operation is read by the tag in front of it.

## Key results

- `Operation.readFields_append`, `Operation.writeFields_of_readFields`: an operation under its tag
- the instances of `LawfulWire` for `Transaction` and `BlockContent`
-/

namespace LeaseChain

open Wire

/-- `write` of a base is that of its four fields, one after the other. -/
theorem TxBase.write_eq (base : TxBase) : write base =
    write base.sender ++ write base.blockId ++ write base.price ++ write base.graffiti := rfl

/-- A base is read back field by field. -/
instance : LawfulWire TxBase where
  write_pos base := by
    have := LawfulWire.write_pos base.sender
    simp only [base.write_eq, List.length_append]
    omega
  read_write base rest h := by
    simp only [base.write_eq, List.length_append] at h
    simp only [base.write_eq, List.append_assoc]
    show (Wire.read >>= fun sender => Wire.read >>= fun blockId => Wire.read >>= fun price =>
      Wire.read >>= fun graffiti => pure (⟨sender, blockId, price, graffiti⟩ : TxBase)) _ = _
    rw [bind_read_append base.sender _ _ (by omega), bind_read_append base.blockId _ _ (by omega),
      bind_read_append base.price _ _ (by omega), bind_read_append base.graffiti _ _ (by omega)]
    rfl
  write_read h := by
    obtain ⟨sender, _, rfl, h₁⟩ := bind_read_eq_ok h
    obtain ⟨blockId, _, rfl, h₂⟩ := bind_read_eq_ok h₁
    obtain ⟨price, _, rfl, h₃⟩ := bind_read_eq_ok h₂
    obtain ⟨graffiti, _, rfl, h₄⟩ := bind_read_eq_ok h₃
    obtain ⟨rfl, rfl⟩ := Prod.mk.inj (Except.ok.inj h₄)
    simp only [TxBase.write_eq, List.append_assoc]

namespace Operation

/-- `readFields` reads back under its tag what `writeFields` wrote. -/
theorem readFields_append (op : Operation) (rest : Bytes)
    (h : (op.writeFields).length < UInt64.size) :
    readFields op.tag (op.writeFields ++ rest) = .ok (op, rest) := by
  -- one case for each operation, each with its own fields in their order
  cases op <;> simp only [writeFields, List.length_append] at h <;>
    simp only [writeFields, tag, List.append_assoc]
  case claim name =>
    show (Wire.read >>= fun name => pure (claim name)) _ = _
    rw [bind_read_append name _ _ (by omega)]
    rfl
  case set name key value =>
    show (Wire.read >>= fun name => Wire.read >>= fun key => Wire.read >>= fun value =>
      pure (set name key value)) _ = _
    rw [bind_read_append name _ _ (by omega), bind_read_append key _ _ (by omega),
      bind_read_append value _ _ (by omega)]
    rfl
  case delete name key =>
    show (Wire.read >>= fun name => Wire.read >>= fun key => pure (delete name key)) _ = _
    rw [bind_read_append name _ _ (by omega), bind_read_append key _ _ (by omega)]
    rfl
  case move name newOwner =>
    show (Wire.read >>= fun name => Wire.read >>= fun newOwner => pure (move name newOwner)) _ = _
    rw [bind_read_append name _ _ (by omega), bind_read_append newOwner _ _ (by omega)]
    rfl
  case transfer recipient units =>
    show (Wire.read >>= fun recipient => Wire.read >>= fun units =>
      pure (transfer recipient units)) _ = _
    rw [bind_read_append recipient _ _ (by omega), bind_read_append units _ _ (by omega)]
    rfl
  case lifeline name units =>
    show (Wire.read >>= fun name => Wire.read >>= fun units => pure (lifeline name units)) _ = _
    rw [bind_read_append name _ _ (by omega), bind_read_append units _ _ (by omega)]
    rfl

/-- `readFields` under a tag below six reads only what `writeFields` wrote, with that tag. -/
theorem writeFields_of_readFields {tag : UInt32} {op : Operation} {input rest : Bytes}
    (htag : ¬6 ≤ tag) (h : readFields tag input = .ok (op, rest)) :
    op.tag = tag ∧ op.writeFields ++ rest = input := by
  simp only [readFields] at h
  -- the tags from zero on, and the fields that are read under each
  split at h
  · next ht =>
    obtain ⟨name, _, rfl, h₁⟩ := bind_read_eq_ok h
    obtain ⟨rfl, rfl⟩ := Prod.mk.inj (Except.ok.inj h₁)
    exact ⟨ht.symm, rfl⟩
  split at h
  · next ht =>
    obtain ⟨name, _, rfl, h₁⟩ := bind_read_eq_ok h
    obtain ⟨key, _, rfl, h₂⟩ := bind_read_eq_ok h₁
    obtain ⟨value, _, rfl, h₃⟩ := bind_read_eq_ok h₂
    obtain ⟨rfl, rfl⟩ := Prod.mk.inj (Except.ok.inj h₃)
    exact ⟨ht.symm, by simp only [writeFields, List.append_assoc]⟩
  split at h
  · next ht =>
    obtain ⟨name, _, rfl, h₁⟩ := bind_read_eq_ok h
    obtain ⟨key, _, rfl, h₂⟩ := bind_read_eq_ok h₁
    obtain ⟨rfl, rfl⟩ := Prod.mk.inj (Except.ok.inj h₂)
    exact ⟨ht.symm, by simp only [writeFields, List.append_assoc]⟩
  split at h
  · next ht =>
    obtain ⟨name, _, rfl, h₁⟩ := bind_read_eq_ok h
    obtain ⟨newOwner, _, rfl, h₂⟩ := bind_read_eq_ok h₁
    obtain ⟨rfl, rfl⟩ := Prod.mk.inj (Except.ok.inj h₂)
    exact ⟨ht.symm, by simp only [writeFields, List.append_assoc]⟩
  split at h
  · next ht =>
    obtain ⟨recipient, _, rfl, h₁⟩ := bind_read_eq_ok h
    obtain ⟨units, _, rfl, h₂⟩ := bind_read_eq_ok h₁
    obtain ⟨rfl, rfl⟩ := Prod.mk.inj (Except.ok.inj h₂)
    exact ⟨ht.symm, by simp only [writeFields, List.append_assoc]⟩
  · next h0 h1 h2 h3 h4 =>
    -- five is the only tag that is left
    have ht : (5 : UInt32) = tag := by grind
    obtain ⟨name, _, rfl, h₁⟩ := bind_read_eq_ok h
    obtain ⟨units, _, rfl, h₂⟩ := bind_read_eq_ok h₁
    obtain ⟨rfl, rfl⟩ := Prod.mk.inj (Except.ok.inj h₂)
    exact ⟨ht, by simp only [writeFields, List.append_assoc]⟩

/-- `Operation.tag` is below six. -/
theorem tag_lt (op : Operation) : ¬6 ≤ op.tag := by cases op <;> simp only [tag] <;> decide

end Operation

/-- `write` puts the tag first, then the base and the fields of the operation. -/
theorem Unsigned.write_eq (tx : Unsigned) : write tx =
    write tx.operation.tag ++ write tx.base ++ tx.operation.writeFields := rfl

/-- A transaction is read under its tag, of which there are six. -/
instance : LawfulWire Unsigned where
  write_pos tx := by
    have := LawfulWire.write_pos tx.base
    simp only [tx.write_eq, List.length_append]
    omega
  read_write tx rest h := by
    simp only [tx.write_eq, List.length_append] at h
    simp only [tx.write_eq, List.append_assoc]
    -- the tag is checked as soon as it is read
    show (Wire.read >>= fun tag : UInt32 => do
      if 6 ≤ tag then throw (WireError.unknownTag tag 6)
      return (⟨← Wire.read, ← Operation.readFields tag⟩ : Unsigned)) _ = _
    rw [bind_read_append tx.operation.tag _ _ (by omega), if_neg tx.operation.tag_lt]
    show (Wire.read >>= fun base => Operation.readFields tx.operation.tag >>= fun op =>
      pure (⟨base, op⟩ : Unsigned)) _ = _
    rw [bind_read_append tx.base _ _ (by omega), Reader.bind_apply,
      Operation.readFields_append _ _ (by omega)]
    rfl
  write_read {input rest tx} h := by
    obtain ⟨tag, _, rfl, h₁⟩ := bind_read_eq_ok h
    split at h₁
    · cases h₁
    · next htag =>
      obtain ⟨base, _, rfl, h₂⟩ := bind_read_eq_ok h₁
      obtain ⟨op, _, hop, h₃⟩ := Reader.bind_eq_ok_iff.1 h₂
      obtain ⟨rfl, rfl⟩ := Operation.writeFields_of_readFields htag hop
      obtain ⟨rfl, rfl⟩ := Prod.mk.inj (Except.ok.inj h₃)
      simp only [Unsigned.write_eq, List.append_assoc]

/-- `write` puts the signature after what is signed. -/
theorem Transaction.write_eq (tx : Transaction) :
    write tx = write tx.unsigned ++ write tx.signature := rfl

/-- A signed transaction is read back, with the hashes that go with it. -/
instance : LawfulWire Transaction where
  write_pos tx := by
    have := LawfulWire.write_pos tx.unsigned
    simp only [tx.write_eq, List.length_append]
    omega
  read_write tx rest h := by
    simp only [tx.write_eq, List.length_append] at h
    simp only [tx.write_eq, List.append_assoc]
    show (Wire.read >>= fun unsigned => Wire.read >>= fun signature =>
      pure (Transaction.of unsigned signature)) _ = _
    -- the identifier and the digest that go with a transaction are computed again, to the same
    rw [bind_read_append tx.unsigned _ _ (by omega), bind_read_append tx.signature _ _ (by omega),
      Reader.pure_apply,
      Transaction.ext (Transaction.unsigned_of _ _) (Transaction.signature_of _ _)]
  write_read h := by
    obtain ⟨unsigned, _, rfl, h₁⟩ := bind_read_eq_ok h
    obtain ⟨signature, _, rfl, h₂⟩ := bind_read_eq_ok h₁
    obtain ⟨rfl, rfl⟩ := Prod.mk.inj (Except.ok.inj h₂)
    simp only [Transaction.write_eq, Transaction.unsigned_of, Transaction.signature_of,
      List.append_assoc]

/-- `write` of a block's content is that of its six fields, one after the other. -/
theorem BlockContent.write_eq (c : BlockContent) : write c = write c.parentId ++
    write c.timestamp ++ write c.height ++ write c.difficulty ++ write c.cost ++ write c.txs := rfl

/-- The content of a block is read back field by field. -/
instance : LawfulWire BlockContent where
  write_pos c := by
    have := LawfulWire.write_pos c.parentId
    simp only [c.write_eq, List.length_append]
    omega
  read_write c rest h := by
    simp only [c.write_eq, List.length_append] at h
    simp only [c.write_eq, List.append_assoc]
    show (Wire.read >>= fun parentId => Wire.read >>= fun timestamp => Wire.read >>= fun height =>
      Wire.read >>= fun difficulty => Wire.read >>= fun cost => Wire.read >>= fun txs =>
      pure (⟨parentId, timestamp, height, difficulty, cost, txs⟩ : BlockContent)) _ = _
    rw [bind_read_append c.parentId _ _ (by omega), bind_read_append c.timestamp _ _ (by omega),
      bind_read_append c.height _ _ (by omega), bind_read_append c.difficulty _ _ (by omega),
      bind_read_append c.cost _ _ (by omega), bind_read_append c.txs _ _ (by omega)]
    rfl
  write_read h := by
    obtain ⟨parentId, _, rfl, h₁⟩ := bind_read_eq_ok h
    obtain ⟨timestamp, _, rfl, h₂⟩ := bind_read_eq_ok h₁
    obtain ⟨height, _, rfl, h₃⟩ := bind_read_eq_ok h₂
    obtain ⟨difficulty, _, rfl, h₄⟩ := bind_read_eq_ok h₃
    obtain ⟨cost, _, rfl, h₅⟩ := bind_read_eq_ok h₄
    obtain ⟨txs, _, rfl, h₆⟩ := bind_read_eq_ok h₅
    obtain ⟨rfl, rfl⟩ := Prod.mk.inj (Except.ok.inj h₆)
    simp only [BlockContent.write_eq, List.append_assoc]

end LeaseChain
