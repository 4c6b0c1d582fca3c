import LeaseChain.Proofs.Wire.Frames

/-!
# Canonical frames

A byte string is the frame of at most one value and a value has at most one frame, under every
version and limit: decoding gives a value exactly for the bytes that encoding makes of it. So
making a block and reading one undo each other, and what is computed of a transaction and does not
travel with it is computed to the same again.

## Key results

- `Framing.decode_eq_ok_iff`: decoding and encoding are one relation
- `Framing.one_encoding_per_value`: what follows for lists of transactions and for blocks
-/

namespace LeaseChain

/-- What is computed of a transaction and is not in its form. -/
def Transaction.computed (tx : Transaction) : Hash × Hash × UInt64 :=
  (tx.id, tx.digest, tx.difficulty)

namespace Framing

/-- Decoding gives a value exactly for the frame that encoding makes of it. -/
theorem decode_eq_ok_iff {α : Type} [Wire α] [LawfulWire α] {framing : Framing} {a : α}
    {bytes : Bytes} : framing.decode bytes = .ok a ↔ framing.encode a = .ok bytes :=
  ⟨encode_of_decode, decode_encode⟩

/-- A value has at most one frame. -/
theorem eq_of_decode_eq {α : Type} [Wire α] [LawfulWire α] {framing : Framing} {a : α}
    {x y : Bytes} (hx : framing.decode x = .ok a) (hy : framing.decode y = .ok a) : x = y := by
  rw [decode_eq_ok_iff] at hx hy
  exact Except.ok.inj (hx.symm.trans hy)

/--
For every `framing`, `decode` gives a block's content, or a list of transactions, exactly for the
bytes that `encode` makes of it. So `ofContent` and `ofBytes` are each other's inverse, with the
same bytes and identifier; transactions that were read have the `computed` fields of those that were
written; and two byte strings with one content are one.
-/
theorem one_encoding_per_value (framing : Framing) :
    (∀ (bytes : Bytes) (content : BlockContent),
      framing.decode bytes = .ok content ↔ framing.encode content = .ok bytes) ∧
    (∀ (bytes : Bytes) (txs : List Transaction),
      framing.decode bytes = .ok txs ↔ framing.encode txs = .ok bytes) ∧
    (∀ (content : BlockContent) (b : Block), Block.ofContent framing content = .ok b →
      Block.ofBytes framing b.bytes = .ok b ∧ b.content = content) ∧
    (∀ (bytes : Bytes) (b : Block), Block.ofBytes framing bytes = .ok b →
      Block.ofContent framing b.content = .ok b ∧ b.bytes = bytes ∧ b.id = Hash.of bytes) ∧
    (∀ (bytes : Bytes) (txs txs' : List Transaction), framing.encode txs = .ok bytes →
      framing.decode bytes = .ok txs' →
      txs'.map Transaction.computed = txs.map Transaction.computed) ∧
    (∀ (x y : Bytes) (a b : Block), Block.ofBytes framing x = .ok a →
      Block.ofBytes framing y = .ok b → a.content = b.content → x = y) := by
  refine ⟨fun bytes content => decode_eq_ok_iff, fun bytes txs => decode_eq_ok_iff,
    fun content b hmade => ?_, fun bytes b hread => ?_, fun bytes txs txs' hwritten hread => ?_,
    fun x y a b hx hy hsame => ?_⟩
  · obtain ⟨hcontent, hframed⟩ := Block.ofContent_eq_ok_iff.1 hmade
    exact ⟨hframed, hcontent⟩
  · have hbytes : b.bytes = bytes := (Block.ofBytes_eq_ok_iff.1 hread).2
    have hframed : b.IsFramed framing := Block.isFramed_of_ofBytes hread
    exact ⟨Block.ofContent_eq_ok_iff.2 ⟨rfl, hframed⟩, hbytes, hbytes ▸ b.id_eq⟩
  · -- the transactions that are read are those that were written, with all that belongs to them
    have hsame : txs' = txs := Except.ok.inj (hread.symm.trans (decode_encode hwritten))
    rw [hsame]
  · have hcontent := (Block.ofBytes_eq_ok_iff.1 hx).1
    rw [hsame] at hcontent
    exact eq_of_decode_eq hcontent (Block.ofBytes_eq_ok_iff.1 hy).1

end Framing

end LeaseChain
