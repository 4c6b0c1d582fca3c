import LeaseChain.Node.Running
import LeaseChain.Proofs.Engine.Run
import Mathlib.Data.List.Flatten

/-!
# What gossip delivers

Batches are cut by the number of transactions, and frames are limited in bytes. Where the peers take
every payload, what reaches them is the batches that fit in a frame, in their order. The
transactions of any other batch are left out, although each of them may fit in a frame of its own;
those that came in since the last tick have left the engine's list by then, and are not tried again.

## Key results

- `Framing.fits_iff`: which transactions fit in a frame together
- `Gossip.decode_parcels`: a payload is read back as its batch
- `RunningNode.foldl_sendParcel`: what the peers have after payloads were handed over
- `RunningNode.gossip_delivers`: which transactions reach the peers, and when all of them do
-/

namespace LeaseChain

open Wire

namespace Framing

variable {α : Type} [Wire α] {framing : Framing}

/-- The value has a frame. -/
def Fits (framing : Framing) (a : α) : Prop :=
  (write a).length + headerSize ≤ framing.limit ∧ (write a).length < UInt32.size

instance (framing : Framing) (a : α) : Decidable (framing.Fits a) := by
  unfold Fits
  infer_instance

/-- A value that `Fits` has a frame. -/
theorem exists_encode_eq_ok {a : α} (h : framing.Fits a) : ∃ frame, framing.encode a = .ok frame :=
  ⟨_, encode_eq_ok_iff.2 ⟨h, rfl⟩⟩

/-- A list `Fits` if the forms of its elements leave room for two counts and a version. -/
theorem fits_iff (as : List α) : standard.Fits as ↔
    (as.flatMap write).length + 14 ≤ standard.limit := by
  have hform : write as = writeCount as.length ++ as.flatMap write := rfl
  have hlimit : standard.limit = 2097152 := rfl
  rw [Fits, hform, List.length_append, length_writeCount, hlimit, headerSize, UInt32.size]
  omega

end Framing

/-- The size of `write` of a transaction that sets a value. -/
theorem Transaction.length_write_set (base : TxBase) (name : String) (key value : Bytes)
    (signature : Signature) : (write (of ⟨base, .set name key value⟩ signature)).length =
      name.utf8ByteSize + key.length + value.length + 180 := by
  have hbytes (bytes : Bytes) : (write bytes).length = 8 + bytes.length := by
    show (writeCount bytes.length ++ bytes.flatMap write).length = _
    rw [List.length_append, length_writeCount, List.length_flatMap]
    simp [write]
  have htext : (write name).length = 8 + name.utf8ByteSize := by
    show (writeCount name.utf8ByteSize ++ Bytes.ofText name).length = _
    rw [List.length_append, length_writeCount, Bytes.length_ofText]
  have hbase : (write base).length = 80 := by
    have hkey : (write base.sender).length = 32 := base.sender.length_eq
    have hid : (write base.blockId).length = 32 := base.blockId.length_eq
    have hword (n : UInt64) : (write n).length = 8 := Bytes.length_ofNatLE 8 _
    simp only [base.write_eq, List.length_append, hkey, hid, hword]
  -- the four fields and the tag are of fixed length, so only the name, key and value count
  have htag : (write (1 : UInt32)).length = 4 := Bytes.length_ofNatLE 4 _
  have hform : write (of ⟨base, .set name key value⟩ signature) =
      write (1 : UInt32) ++ write base ++ (write name ++ write key ++ write value) ++
        write signature.bytes := rfl
  rw [hform]
  simp only [List.length_append, hbytes, htext, hbase, htag, signature.length_eq]
  omega

namespace Gossip

variable {α : Type} {framing : Framing} {size : Nat}

/-- Every one of the `batches` has an element, as a batch is cut only where one is left. -/
theorem nil_notMem_batches (size : Nat) (as : List α) : [] ∉ batches size as := by
  fun_induction batches size as with
  | case1 => exact List.not_mem_nil
  | case2 a as ih => simpa using ih

/-- Elements that are no more than the size are one of the `batches`. -/
theorem batches_of_length_le {as : List α} (hne : as ≠ []) (hsize : as.length ≤ size) :
    batches size as = [as] := by
  cases as with
  | nil => exact absurd rfl hne
  | cons a as =>
    have hshort : as.length ≤ size - 1 := by
      rw [List.length_cons] at hsize
      omega
    rw [batches, List.take_of_length_le hshort, List.drop_eq_nil_of_le hshort, batches]

/-- `batches` of one are the elements. -/
theorem batches_of_le_one (hsize : size ≤ 1) (as : List α) :
    batches size as = as.map fun a => [a] := by
  fun_induction batches size as with
  | case1 => rfl
  | case2 a as ih =>
    have hone : size - 1 = 0 := by omega
    rw [hone, List.drop_zero] at ih ⊢
    rw [List.take_zero, List.map_cons, ih]

/-- `parcels` are made of the batches that fit. -/
theorem map_fst_parcels (txs : List Transaction) :
    (parcels framing size txs).map Prod.fst =
      (batches size txs).filter fun batch => framing.Fits batch := by
  -- a batch is encoded exactly if it fits
  rw [parcels]
  -- induction on the batches, of which each one is kept or left out on both sides
  induction batches size txs with
  | nil => rfl
  | cons batch rest ih =>
    by_cases hfits : framing.Fits batch
    · obtain ⟨frame, hframe⟩ := Framing.exists_encode_eq_ok hfits
      rw [List.filterMap_cons_some (by rw [hframe]), List.map_cons, ih,
        List.filter_cons_of_pos (by simpa using hfits)]
    · cases hframe : framing.encode batch with
      | ok frame => exact absurd (Framing.encode_eq_ok_iff.1 hframe).1 hfits
      | error cause =>
        rw [List.filterMap_cons_none (by rw [hframe]), ih,
          List.filter_cons_of_neg (by simpa using hfits)]

/-- `decode` reads the payload of a parcel back as its batch. -/
theorem decode_parcels {txs : List Transaction} {parcel : List Transaction × Bytes}
    (hparcel : parcel ∈ parcels framing size txs) :
    framing.decode parcel.2 = .ok parcel.1 := by
  obtain ⟨batch, -, hbatch⟩ := List.mem_filterMap.1 hparcel
  split at hbatch
  · next payload hpayload =>
    obtain rfl := Option.some.inj hbatch
    exact Framing.decode_encode hpayload
  · cases hbatch

end Gossip

/-- Leaving lists out leaves their elements out, unless they are empty. -/
theorem flatten_filter_eq_iff {α : Type} {p : List α → Bool} {lists : List (List α)}
    (hnil : [] ∉ lists) : (lists.filter p).flatten = lists.flatten ↔ ∀ l ∈ lists, p l = true := by
  refine ⟨fun heq => ?_, fun hall => by rw [List.filter_eq_self.2 hall]⟩
  -- induction on the lists, by whether the first one is left out
  induction lists with
  | nil => exact fun _ hl => nomatch hl
  | cons l rest ih =>
    have hrest : [] ∉ rest := fun h => hnil (List.mem_cons_of_mem l h)
    by_cases hl : p l = true
    · rw [List.filter_cons_of_pos hl, List.flatten_cons, List.flatten_cons,
        List.append_cancel_left_eq] at heq
      exact List.forall_mem_cons.2 ⟨hl, ih hrest heq⟩
    · -- what is left is shorter by the list that is missing
      have hpos : 0 < l.length :=
        List.length_pos_iff.2 fun h => hnil (h ▸ List.mem_cons_self)
      have hle := (List.filter_sublist (p := p) (l := rest)).flatten.length_le
      rw [List.filter_cons_of_neg hl] at heq
      have hlength := congrArg List.length heq
      rw [List.flatten_cons, List.length_append] at hlength
      omega

namespace RunningNode

variable {r : RunningNode} {queue : List Bytes}

/-- Payloads that `sendParcel` hands over wait in their order. -/
theorem foldl_sendParcel (hpeers : r.peers = .receiving queue)
    (parcels : List (List Transaction × Bytes)) :
    parcels.foldl sendParcel r =
      { r with
        peers := .receiving (queue ++ parcels.map Prod.snd)
        sendings := r.sendings ++ parcels.map fun parcel => ⟨r.now, parcel.1, .ok ()⟩ } := by
  -- induction on the payloads, each of which joins the queue at its end
  induction parcels generalizing r queue with
  | nil =>
    simp only [List.foldl_nil, List.map_nil, List.append_nil]
    rw [← hpeers]
  | cons parcel parcels ih =>
    have hsent : r.sendParcel parcel =
        { r with
          peers := .receiving (queue ++ [parcel.2])
          sendings := r.sendings ++ [⟨r.now, parcel.1, .ok ()⟩] } := by
      rw [sendParcel, hpeers]
      rfl
    rw [List.foldl_cons, hsent, ih rfl]
    simp

/-- The batches that are cut of transactions. -/
def batches (r : RunningNode) (txs : List Transaction) : List (List Transaction) :=
  Gossip.batches r.node.engine.settings.regossipMaxTxs.toNat txs

/-- The batches that reach the peers. -/
def delivered (r : RunningNode) (txs : List Transaction) : List (List Transaction) :=
  (r.batches txs).filter fun batch => Engine.framing.Fits batch

/-- What the peers have of transactions that were handed over to them. -/
structure Delivers (r : RunningNode) (queue : List Bytes) (txs : List Transaction)
    (r' : RunningNode) : Prop where
  /-- The new payloads decode, in their order, to the delivered batches. -/
  decodes : ∃ payloads, r'.peers = .receiving (queue ++ payloads) ∧
    payloads.map Engine.framing.decode = (r.delivered txs).map .ok
  /-- None of the transactions comes twice or before another that it was behind. -/
  sublist : (r.delivered txs).flatten.Sublist txs
  /-- All of them come if and only if every batch fits in a frame. -/
  all_iff : (r.delivered txs).flatten = txs ↔ ∀ batch ∈ r.batches txs, Engine.framing.Fits batch

/-- `gossip` `Delivers` transactions, as far as their batches fit. -/
theorem delivers_gossip (hpeers : r.peers = .receiving queue) (txs : List Transaction) :
    r.Delivers queue txs (r.gossip txs) where
  decodes := by
    refine ⟨_, congrArg peers (foldl_sendParcel hpeers _), ?_⟩
    rw [delivered, batches, ← Gossip.map_fst_parcels, List.map_map, List.map_map]
    exact List.map_congr_left fun parcel hparcel => Gossip.decode_parcels hparcel
  -- the batches delivered are a part of all batches, which joined give the list back
  sublist := by
    have hsub : (r.delivered txs).flatten.Sublist (r.batches txs).flatten :=
      List.filter_sublist.flatten
    rwa [batches, Gossip.flatten_batches] at hsub
  all_iff := by
    have hiff := flatten_filter_eq_iff (p := fun batch => Engine.framing.Fits batch)
      (Gossip.nil_notMem_batches r.node.engine.settings.regossipMaxTxs.toNat txs)
    rw [Gossip.flatten_batches] at hiff
    simpa only [decide_eq_true_eq, delivered, batches] using hiff

/-- The node after the engine has handed out what came in, before it is gossiped. -/
def taken (r : RunningNode) : RunningNode :=
  ({ r with wait? := none }.serve fun e _ => e.takeFresh).2

/--
What reaches peers that take every payload. Of any transactions `gossip` `Delivers` those of the
batches that fit in a frame, each in its place; all of them only if every batch fits, as it does
where `regossipMaxTxs` is one and each transaction `Fits`. So does `gossipFresh` for what came in
since the last tick, and leaves nothing of it in `fresh` for the next.
-/
theorem gossip_delivers (hpeers : r.peers = .receiving queue) :
    (∀ txs, r.Delivers queue txs (r.gossip txs)) ∧
    (∀ txs : List Transaction, r.node.engine.settings.regossipMaxTxs ≤ 1 →
      (∀ tx ∈ txs, Engine.framing.Fits [tx]) → (r.delivered txs).flatten = txs) ∧
    r.Delivers queue r.node.engine.fresh r.gossipFresh ∧
    r.gossipFresh.node.engine.fresh = [] := by
  have hserved : r.taken.peers = .receiving queue := hpeers
  -- a tick gossips the fresh transactions from a state with the same peers
  have hfresh := delivers_gossip hserved r.node.engine.fresh
  refine ⟨delivers_gossip hpeers, fun txs hone hfits => ?_,
    ⟨hfresh.decodes, hfresh.sublist, hfresh.all_iff⟩,
    congrArg (·.node.engine.fresh) (foldl_sendParcel hserved _)⟩
  refine (delivers_gossip hpeers txs).all_iff.2 ?_
  rw [batches, Gossip.batches_of_le_one (UInt64.le_iff_toNat_le.1 hone)]
  exact List.forall_mem_map.2 hfits

end RunningNode

/-! ## A full batch

By the default settings thirty-two transactions make a batch. Where each of them sets a value of the
greatest size that the default parameters allow, the batch has no frame.
-/

namespace Siblings

/-- A transaction that sets a value of 64 KiB. -/
def filler (graffiti : UInt64) : Transaction :=
  .of ⟨⟨key, first.id, 0, graffiti⟩, .set "foo" [0] (List.replicate 0x10000 0)⟩ claim.signature

/-- Thirty-two of them, which differ in their free numbers. -/
def fillers : List Transaction := (List.range 32).map fun n => filler n.toUInt64

/-- A node with peers that take every payload. -/
def talker : RunningNode := .start ⟨start, 50, .empty, []⟩ (.receiving []) false

/-- `write` of a `filler` takes 65720 bytes, and thirty-two of them more than a frame has. -/
theorem length_filler (graffiti : UInt64) : (write (filler graffiti)).length = 65720 := by
  rw [filler, Transaction.length_write_set, List.length_replicate]
  rfl

/-- Each of the `fillers` has a frame, and none reaches the peers. -/
theorem fillers_lost : (∀ tx ∈ fillers, Engine.framing.Fits [tx]) ∧
    (talker.gossip fillers).peers = .receiving [] := by
  have hlength : (fillers.flatMap write).length = 32 * 65720 := by
    simp [fillers, List.length_flatMap, length_filler, Function.comp_def]
  refine ⟨List.forall_mem_map.2 fun n _ => ?_, ?_⟩
  · rw [Engine.framing, Framing.fits_iff, List.flatMap_singleton, length_filler]
    decide
  · have hreceiving : talker.peers = .receiving [] := rfl
    obtain ⟨hdelivers, -⟩ := RunningNode.gossip_delivers hreceiving
    obtain ⟨payloads, hpeers, hdecoded⟩ := (hdelivers fillers).decodes
    -- one batch holds them all, and it is too long for a frame
    have hbatches : talker.batches fillers = [fillers] :=
      Gossip.batches_of_length_le (by simp [fillers]) (by simp [fillers]; decide)
    have hnone : talker.delivered fillers = [] := by
      rw [RunningNode.delivered, hbatches, List.filter_cons_of_neg, List.filter_nil]
      rw [decide_eq_true_eq, Engine.framing, Framing.fits_iff, hlength]
      decide
    rw [hnone, List.map_nil, List.map_eq_nil_iff] at hdecoded
    rw [hpeers, hdecoded]
    rfl

end Siblings

end LeaseChain
