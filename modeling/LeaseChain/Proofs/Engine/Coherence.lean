import LeaseChain.Proofs.Engine.Opening
import LeaseChain.Proofs.Engine.Tracked
import LeaseChain.Proofs.Engine.Transition
import LeaseChain.Proofs.Engine.Verification

/-!
# Coherent states

What every run keeps as long as the hash tells its blocks apart, in three parts: the history is
`Sound`, the durable state is that of its chain (`Settled`), and the undecided blocks are `Arranged`
around it. Acceptance only looks at whether a block's changes stand on the durable store; the parts
say together what that means: some accepted block is the parent.

## Key results

- `Reach.coherent`: reachable states are coherent
- `Coherent.find?_eq_ok`, `Coherent.openParent_eq_ok`: which block is found under an identifier
-/

namespace LeaseChain

/-- What holds of the blocks of a run, whatever the state. -/
structure History.Sound (g : Genesis) (h : History) : Prop where
  valid : g.validate = .ok ()
  first : Block.first Engine.framing g = .ok h.first
  framed : ∀ b ∈ h.blocks, b.IsFramed Engine.framing
  verified_sub : ∀ b ∈ h.verified, b ∈ h.blocks
  accepted_sub : ∀ b ∈ h.accepted, b ∈ h.verified
  /-- A verified block extends a verified one or the first. -/
  grounded : ∀ b ∈ h.verified, b = h.first ∨ ∃ p, (p = h.first ∨ p ∈ h.verified) ∧ b.Extends p
  /-- An accepted block extends one that was accepted before. -/
  rooted : ∀ b older, (b :: older) <:+ h.chain → older = [] ∨ ∃ p ∈ older, b.Extends p

/-- The durable state is that of the chain. -/
structure Engine.Settled (g : Genesis) (h : History) (e : Engine) : Prop where
  genesis : e.genesis = g
  tip : ∃ older, h.chain = e.lastAccepted :: older
  stored : ∀ id bytes, e.store.entries[StoreKey.block id]? = some bytes ↔
    ∃ b ∈ h.chain, b.id = id ∧ b.bytes = bytes
  pointer : e.store.entries[StoreKey.lastAccepted]? = some e.lastAccepted.id.bytes
  document : e.store.entries[StoreKey.genesis]? = some g.toDocument
  initialized : e.store.entries[StoreKey.initialized]? = some [1]

/-- Whether the footing of a block's changes is what its parent is. -/
def Footing.Fits (h : History) (block : Block) : Footing → Prop
  | .durable => ∃ p ∈ h.chain, p.id = block.parentId
  | .block id => id = block.parentId

/-- The undecided blocks are around the chain. -/
structure Engine.Arranged (g : Genesis) (h : History) (e : Engine) : Prop where
  tracked : ∀ {id : Hash} {entry : Tracked}, e.tracked[id]? = some entry →
    entry.block.id = id ∧ entry.block ∈ h.blocks ∧ ∀ b ∈ h.chain, b.id ≠ id
  checked : ∀ {id : Hash} {entry : Tracked} {v : Verified},
    e.tracked[id]? = some entry → entry.verified? = some v →
    entry.block ∈ h.verified ∧ v.footing.Fits h entry.block ∧
    ∃ view, entry.block.effect g view = .ok v.changes
  children : ∀ {id c : Hash} {entry : Tracked}, e.tracked[id]? = some entry → c ∈ entry.children →
    ∃ b ∈ h.blocks, b.id = c ∧ b.parentId = id
  preferred : e.isTracked e.preferred = true ∨ e.preferred = e.lastAccepted.id

/-- The three parts together. -/
structure Coherent (g : Genesis) (h : History) (e : Engine) : Prop where
  sound : h.Sound g
  settled : e.Settled g h
  arranged : e.Arranged g h

namespace History

/-- In a `CollisionFree` history a block of `h.blocks` is determined by its identifier. -/
theorem CollisionFree.eq_of_id_eq {h : History} {g : Genesis} (hfree : h.CollisionFree)
    (hsound : h.Sound g) {a b : Block} (ha : a ∈ h.blocks) (hb : b ∈ h.blocks)
    (hid : a.id = b.id) : a = b :=
  Block.eq_of_id_eq hfree (hsound.framed a ha) (hsound.framed b hb)
    (List.mem_map_of_mem ha) (List.mem_map_of_mem hb) hid

/-- A history with fewer `blocks` is `CollisionFree` too. -/
theorem CollisionFree.of_subset {h h' : History} (hfree : h'.CollisionFree)
    (hsub : h.blocks ⊆ h'.blocks) : h.CollisionFree :=
  CollisionFree.mono hfree (List.map_subset _ hsub)

theorem mem_blocks_name (h : History) (b : Block) : b ∈ (h.name b).blocks :=
  List.mem_cons_of_mem _ List.mem_cons_self

/-- `History.name` forgets no other block. -/
theorem blocks_subset_name (h : History) (b : Block) : h.blocks ⊆ (h.name b).blocks := by
  intro b' hb'
  rcases List.mem_cons.1 hb' with rfl | hb'
  · exact List.mem_cons_self
  · exact List.mem_cons_of_mem _ (List.mem_cons_of_mem _ hb')

/-- `h.chain` ends in the first block. -/
theorem eq_first_of_suffix {h : History} {b : Block} (hsuffix : [b] <:+ h.chain) :
    b = h.first := by
  obtain ⟨newer, hchain⟩ := hsuffix
  exact List.singleton_inj.1 (List.append_inj_right' hchain rfl)

namespace Sound

variable {g : Genesis} {h : History} (hs : h.Sound g)

include hs

/-- A block of `h.chain` other than the first `Extends` another. -/
theorem exists_extends_of_mem_chain {b : Block} (hb : b ∈ h.chain) (hne : b ≠ h.first) :
    ∃ p ∈ h.chain, b.Extends p := by
  obtain ⟨newer, older, hchain⟩ := List.append_of_mem hb
  rcases hs.rooted b older ⟨newer, hchain.symm⟩ with rfl | ⟨p, hp, hext⟩
  · exact absurd (eq_first_of_suffix ⟨newer, hchain.symm⟩) hne
  · exact ⟨p, hchain ▸ List.mem_append_right _ (List.mem_cons_of_mem b hp), hext⟩

theorem mem_blocks_of_mem_chain {b : Block} (hb : b ∈ h.chain) : b ∈ h.blocks := by
  -- the chain is the accepted blocks, with the first one at its end
  rcases List.mem_append.1 hb with hb | hb
  · exact hs.verified_sub b (hs.accepted_sub b hb)
  · exact List.mem_singleton.1 hb ▸ List.mem_cons_self

theorem mem_blocks_of_verified {b : Block} (hb : b = h.first ∨ b ∈ h.verified) :
    b ∈ h.blocks := by
  rcases hb with rfl | hb
  · exact List.mem_cons_self
  · exact hs.verified_sub b hb

/-- A block of `h.chain` was verified, except `h.first`. -/
theorem verified_of_mem_chain {b : Block} (hb : b ∈ h.chain) : b = h.first ∨ b ∈ h.verified := by
  rcases List.mem_append.1 hb with hb | hb
  · exact .inr (hs.accepted_sub b hb)
  · exact .inl (List.mem_singleton.1 hb)

/-- Naming a framed block keeps a history `Sound`. -/
theorem name {b : Block} (hb : b.IsFramed Engine.framing) : (h.name b).Sound g where
  valid := hs.valid
  first := hs.first
  framed b' hb' := by
    -- the first block, the one that is named, or one of before
    simp only [blocks, History.name, List.mem_cons] at hb'
    rcases hb' with rfl | rfl | hb'
    · exact hs.framed _ List.mem_cons_self
    · exact hb
    · exact hs.framed b' (List.mem_cons_of_mem _ hb')
  verified_sub b' hb' := h.blocks_subset_name b (hs.verified_sub b' hb')
  accepted_sub := hs.accepted_sub
  grounded := hs.grounded
  rooted := hs.rooted

/-- Heights grow no faster than times: a block that `Extends` another is one higher and later. -/
theorem height_le_timestamp {b : Block} (hb : b = h.first ∨ b ∈ h.verified) :
    b.height.toNat ≤ b.timestamp.toNat := by
  -- a verified block stands on an earlier one, so the induction is on the time
  induction htime : b.timestamp.toNat using Nat.strong_induction_on generalizing b with
  | h time ih =>
    subst htime
    have hground : b = h.first ∨ ∃ p, (p = h.first ∨ p ∈ h.verified) ∧ b.Extends p :=
      hb.elim .inl (hs.grounded b)
    rcases hground with rfl | ⟨p, hp, -, hheight, hlater⟩
    · rw [(Block.first_eq_ok hs.first).2.1]
      exact Nat.zero_le _
    · have hlater := UInt64.lt_iff_toNat_lt.1 hlater
      have hbelow := ih p.timestamp.toNat hlater hp rfl
      omega

/-- A block of `h.blocks` with the identifier of a block that is named is that block. -/
theorem eq_of_named {block b : Block} (hframed : block.IsFramed Engine.framing)
    (hfree : (h.name block).CollisionFree) (hb : b ∈ h.blocks) (hid : b.id = block.id) :
    b = block :=
  hfree.eq_of_id_eq (hs.name hframed) (h.blocks_subset_name block hb) (h.mem_blocks_name block) hid

/-- A verified block `Extends` whatever block of the run has its `parentId`. -/
theorem extends_of_parentId (hfree : h.CollisionFree) {b p : Block} (hb : b ∈ h.verified)
    (hne : b ≠ h.first) (hp : p ∈ h.blocks) (hid : p.id = b.parentId) : b.Extends p := by
  rcases hs.grounded b hb with hfirst | ⟨q, hq, hext⟩
  · exact absurd hfirst hne
  · have hsame : p = q := hfree.eq_of_id_eq hs hp (hs.mem_blocks_of_verified hq)
      (hid.trans hext.1)
    exact hsame ▸ hext

/-- `Sound` histories stay so when a block with ground under it is verified. -/
theorem verify {b : Block} (hb : b.IsFramed Engine.framing)
    (hground : b = h.first ∨ ∃ p, (p = h.first ∨ p ∈ h.verified) ∧ b.Extends p) :
    (h.verify b).Sound g where
  valid := hs.valid
  first := hs.first
  framed := (hs.name hb).framed
  verified_sub b' hb' := by
    rcases List.mem_cons.1 hb' with rfl | hb'
    · exact h.mem_blocks_name b'
    · exact (hs.name hb).verified_sub b' hb'
  accepted_sub b' hb' := List.mem_cons_of_mem _ (hs.accepted_sub b' hb')
  -- whatever stood on verified blocks stands on more of them now
  grounded b' hb' := by
    have hgrow (c : Block) (hc : c = h.first ∨ ∃ p, (p = h.first ∨ p ∈ h.verified) ∧ c.Extends p) :
        c = h.first ∨ ∃ p, (p = h.first ∨ p ∈ b :: h.verified) ∧ c.Extends p :=
      hc.imp_right fun ⟨p, hp, hext⟩ => ⟨p, hp.imp_right (List.mem_cons_of_mem b), hext⟩
    rcases List.mem_cons.1 hb' with rfl | hb'
    · exact hgrow _ hground
    · exact hgrow b' (hs.grounded b' hb')
  rooted := hs.rooted

/-- `Sound` histories stay so when a verified block that `Extends` an accepted one is accepted. -/
theorem accept {b : Block} (hb : b ∈ h.verified) (hparent : ∃ p ∈ h.chain, b.Extends p) :
    (h.accept b).Sound g where
  valid := hs.valid
  first := hs.first
  framed := hs.framed
  verified_sub := hs.verified_sub
  accepted_sub b' hb' := by
    rcases List.mem_cons.1 hb' with rfl | hb'
    · exact hb
    · exact hs.accepted_sub b' hb'
  grounded := hs.grounded
  rooted b' older hsuffix := by
    -- the block at the front is the new one, or the suffix is one of the old chain
    rcases List.suffix_cons_iff.1 hsuffix with heq | hsuffix
    · obtain ⟨rfl, rfl⟩ := List.cons.inj heq
      exact .inr hparent
    · exact hs.rooted b' older hsuffix

end Sound

end History

namespace Engine

variable {g : Genesis} {h h' : History} {e e' : Engine}

/-- `isTracked` asks for an entry under the identifier. -/
theorem isTracked_iff {id : Hash} :
    e.isTracked id = true ↔ ∃ entry, e.tracked[id]? = some entry := by
  rw [isTracked, Std.ExtTreeMap.contains_eq_isSome_getElem?, Option.isSome_iff_exists]

/-- `isStored` asks for bytes under the identifier's `StoreKey.block`. -/
theorem isStored_iff {id : Hash} :
    e.isStored id = true ↔ ∃ bytes, e.store.entries[StoreKey.block id]? = some bytes := by
  rw [isStored, Std.ExtTreeMap.contains_eq_isSome_getElem?, Option.isSome_iff_exists]

/-! ## The durable state -/

namespace Settled

/-- `Settled` speaks of the store, the tip and the chain only. -/
theorem congr (hs : e.Settled g h) (hgenesis : e'.genesis = e.genesis)
    (hentries : e'.store.entries = e.store.entries) (htip : e'.lastAccepted = e.lastAccepted)
    (hchain : h'.chain = h.chain) : e'.Settled g h' where
  genesis := hgenesis.trans hs.genesis
  tip := by rw [hchain, htip]; exact hs.tip
  stored := by rw [hchain, hentries]; exact hs.stored
  pointer := by rw [hentries, htip]; exact hs.pointer
  document := by rw [hentries]; exact hs.document
  initialized := by rw [hentries]; exact hs.initialized

/-- In a `Settled` state the stored blocks are those of `h.chain`. -/
theorem isStored_iff (hs : e.Settled g h) {id : Hash} :
    e.isStored id = true ↔ ∃ b ∈ h.chain, b.id = id := by
  rw [Engine.isStored_iff]
  simp only [hs.stored]
  exact ⟨fun ⟨_, b, hb, hid, _⟩ => ⟨b, hb, hid⟩, fun ⟨b, hb, hid⟩ => ⟨b.bytes, b, hb, hid, rfl⟩⟩

/-- `lastAccepted` is on `h.chain`. -/
theorem tip_mem_chain (hs : e.Settled g h) : e.lastAccepted ∈ h.chain := by
  obtain ⟨older, htip⟩ := hs.tip
  exact htip ▸ List.mem_cons_self

/--
`Settled` survives `committed`: the changes of a block that is new to `h.chain` make it the tip.
-/
theorem commit (hs : e.Settled g h) {id : Hash} {entry : Tracked} {changes : Changes} {view : View}
    (heffect : entry.block.effect g view = .ok changes)
    (hnew : ∀ b ∈ h.chain, b.id ≠ entry.block.id) :
    (e.committed id entry changes).Settled g (h.accept entry.block) where
  genesis := hs.genesis
  tip := ⟨h.chain, rfl⟩
  stored j bytes := by
    show (e.store.entries.apply changes)[StoreKey.block j]? = some bytes ↔
      ∃ b ∈ entry.block :: h.chain, b.id = j ∧ b.bytes = bytes
    rw [Table.getElem?_apply, Block.getElem?_effect_block heffect, List.exists_mem_cons_iff]
    by_cases hj : entry.block.id = j
    · -- no other block on the chain has the new block's identifier
      subst hj
      have hold : ¬∃ b ∈ h.chain, b.id = entry.block.id ∧ b.bytes = bytes :=
        fun ⟨b, hb, hid, _⟩ => hnew b hb hid
      simp [hold]
    · simp [hj, hs.stored]
  pointer := by
    show (e.store.entries.apply changes)[StoreKey.lastAccepted]? = some entry.block.id.bytes
    rw [Table.getElem?_apply, StoreKey.lastAccepted, Block.getElem?_effect_fact heffect]
    rfl
  document := by
    show (e.store.entries.apply changes)[StoreKey.genesis]? = some g.toDocument
    rw [Table.getElem?_apply, StoreKey.genesis, Block.getElem?_effect_fact heffect,
      if_neg (by decide)]
    exact hs.document
  initialized := by
    show (e.store.entries.apply changes)[StoreKey.initialized]? = some [1]
    rw [Table.getElem?_apply, StoreKey.initialized, Block.getElem?_effect_fact heffect,
      if_neg (by decide)]
    exact hs.initialized

/-- What `loadBlock` gives is on `h.chain`. -/
theorem loadBlock_eq_ok (hs : e.Settled g h) (hsound : h.Sound g) {id : Hash} {b : Block}
    (hload : loadBlock e.store.entries id = .ok (some b)) : b ∈ h.chain ∧ b.id = id := by
  simp only [loadBlock] at hload
  split at hload
  · next bytes hbytes =>
    obtain ⟨c, hc, hcid, rfl⟩ := (hs.stored id bytes).1 hbytes
    rw [Except.map_eq_ok_iff] at hload
    obtain ⟨b', hb', h⟩ := hload
    obtain rfl := Option.some.inj h
    rw [Except.mapError_eq_ok_iff] at hb'
    -- the bytes in the store are those of a framed block, and decode to it
    have hframed := hsound.framed c (hsound.mem_blocks_of_mem_chain hc)
    obtain rfl := Except.ok.inj (hframed.symm.trans hb')
    exact ⟨hc, hcid⟩
  · cases hload

/-- `loadBlock` reads a block of `h.chain` back from its bytes. -/
theorem loadBlock_of_mem_chain (hs : e.Settled g h) (hsound : h.Sound g) {b : Block}
    (hb : b ∈ h.chain) : loadBlock e.store.entries b.id = .ok (some b) := by
  have hbytes := (hs.stored b.id b.bytes).2 ⟨b, hb, rfl, rfl⟩
  exact loadBlock_of_framed (hsound.framed b (hsound.mem_blocks_of_mem_chain hb)) hbytes

/-- The store of a `Settled` state opens with `g` on `lastAccepted`. -/
theorem storedState_eq (hs : e.Settled g h) (hsound : h.Sound g) :
    storedState e.store.entries = .ok (g, e.lastAccepted) :=
  storedState_eq_ok hsound.valid hs.document hs.pointer
    (hs.loadBlock_of_mem_chain hsound hs.tip_mem_chain)

end Settled

/-! ## The undecided blocks -/

namespace Arranged

/-- `Arranged` survives everything that decides alike about blocks while the history grows. -/
theorem congr (ha : e.Arranged g h) (same : e.SameChain e') (hblocks : h.blocks ⊆ h'.blocks)
    (hverified : h.verified ⊆ h'.verified) (hchain : h'.chain = h.chain) : e'.Arranged g h' where
  tracked hentry := by
    rw [same.tracked] at hentry
    obtain ⟨hid, hmem, hnew⟩ := ha.tracked hentry
    exact ⟨hid, hblocks hmem, hchain ▸ hnew⟩
  checked hentry hv := by
    rw [same.tracked] at hentry
    obtain ⟨hmem, hfits, heffect⟩ := ha.checked hentry hv
    refine ⟨hverified hmem, ?_, heffect⟩
    -- `Fits` reads the chain alone, and that is unchanged
    simpa only [Footing.Fits, hchain] using hfits
  children hentry hc := by
    rw [same.tracked] at hentry
    obtain ⟨b, hb, hid, hp⟩ := ha.children hentry hc
    exact ⟨b, hblocks hb, hid, hp⟩
  preferred := by
    rw [same.isTracked_eq, same.preferred, same.lastAccepted]
    exact ha.preferred

/-- `Arranged` survives that a block that is not on `h.chain` is named and tracked. -/
theorem track (ha : e.Arranged g h) {block : Block} (hnew : ∀ b ∈ h.chain, b.id ≠ block.id) :
    Arranged g (h.name block)
      { e with tracked := e.tracked.insert block.id ⟨block, none, []⟩ } := by
  -- the new entry has no changes and no children, and the others are as before
  have hold : e.Arranged g (h.name block) :=
    ha.congr (.refl e) (h.blocks_subset_name block) (fun _ hb => hb) rfl
  constructor
  -- each field of `Arranged` for the new entry first and then for the old ones
  · intro id entry hentry
    simp only [getElem?_track] at hentry
    split at hentry
    · next hid =>
      obtain rfl := Option.some.inj hentry
      exact ⟨hid, List.mem_cons_of_mem _ List.mem_cons_self, hid ▸ hnew⟩
    · exact hold.tracked hentry
  · intro id entry v hentry hv
    simp only [getElem?_track] at hentry
    split at hentry
    · obtain rfl := Option.some.inj hentry
      cases hv
    · exact hold.checked hentry hv
  · intro id c entry hentry hc
    simp only [getElem?_track] at hentry
    split at hentry
    · obtain rfl := Option.some.inj hentry
      cases hc
    · exact hold.children hentry hc
  · refine hold.preferred.imp_left fun hpreferred => ?_
    obtain ⟨entry, hentry⟩ := isTracked_iff.1 hpreferred
    rw [isTracked_iff]
    simp only [getElem?_track]
    split
    · exact ⟨_, rfl⟩
    · exact ⟨entry, hentry⟩

/--
The entries after an `attach`: the block's with its changes, and its parent's with one more child.
-/
theorem getElem?_attach (e : Engine) (block parent : Block) (v : Verified) (j : Hash) :
    (e.attach block parent v).tracked[j]? = (if block.id = j then
      some { (e.tracked[block.id]?).getD ⟨block, none, []⟩ with verified? := some v }
      else e.tracked[j]?).map fun x => if parent.id = j then x.withChild block.id else x := by
  simp only [Engine.attach, getElem?_addChild, Std.ExtTreeMap.getElem?_insert,
    Std.LawfulEqCmp.compare_eq_iff_eq]

/--
An entry after `attach` is that of the block, with `v`, or another one that may have a new child.
-/
theorem of_getElem?_attach (ha : e.Arranged g h) {block parent : Block} {v : Verified}
    (hsame : ∀ b ∈ h.blocks, b.id = block.id → b = block) {id : Hash} {entry : Tracked}
    (hentry : (e.attach block parent v).tracked[id]? = some entry) :
    (block.id = id ∧ entry.block = block ∧ entry.verified? = some v ∨
      block.id ≠ id ∧ ∃ old, e.tracked[id]? = some old ∧ entry.block = old.block ∧
        entry.verified? = old.verified?) ∧
    ∀ c ∈ entry.children, (parent.id = id ∧ c = block.id) ∨
      ∃ old, e.tracked[id]? = some old ∧ c ∈ old.children := by
  rw [getElem?_attach, Option.map_eq_some_iff] at hentry
  obtain ⟨base, hbase, rfl⟩ := hentry
  -- being the parent changes the children alone
  have hblock : (if parent.id = id then base.withChild block.id else base).block = base.block := by
    split <;> simp
  have hverified : (if parent.id = id then base.withChild block.id else base).verified? =
      base.verified? := by
    split <;> simp
  have hchildren (c : Hash) (hc : c ∈ (if parent.id = id then base.withChild block.id
      else base).children) : (parent.id = id ∧ c = block.id) ∨ c ∈ base.children := by
    split at hc
    · next hid => exact ((base.mem_children_withChild block.id).1 hc).symm.imp_left (⟨hid, ·⟩)
    · exact .inr hc
  rw [hblock, hverified]
  -- the entry is that of the block itself, newly inserted or of before, or it is another's
  split at hbase
  · next hid =>
    obtain rfl := Option.some.inj hbase
    subst hid
    cases hold : e.tracked[block.id]? with simp only [hold] at hchildren
    | none =>
      refine ⟨.inl ⟨rfl, rfl, rfl⟩, fun c hc => ?_⟩
      rcases hchildren c hc with hc | hc
      · exact .inl hc
      · cases hc
    | some old =>
      obtain ⟨hold', hmem, -⟩ := ha.tracked hold
      refine ⟨.inl ⟨rfl, hsame _ hmem hold', rfl⟩, fun c hc => ?_⟩
      exact (hchildren c hc).imp_right fun hc => ⟨old, rfl, hc⟩
  · next hne =>
    refine ⟨.inr ⟨hne, base, hbase, rfl, rfl⟩, fun c hc => ?_⟩
    exact (hchildren c hc).imp_right fun hc => ⟨base, hbase, hc⟩

/-- After `attach` the block is tracked with `v`. -/
theorem exists_getElem?_attach (ha : e.Arranged g h) {block : Block} (parent : Block)
    (v : Verified) (hsame : ∀ b ∈ h.blocks, b.id = block.id → b = block) :
    ∃ entry, (e.attach block parent v).tracked[block.id]? = some entry ∧ entry.block = block ∧
      entry.verified? = some v := by
  obtain ⟨entry, hentry⟩ : ∃ entry, (e.attach block parent v).tracked[block.id]? = some entry := by
    rw [getElem?_attach, if_pos rfl]
    exact ⟨_, rfl⟩
  obtain ⟨⟨-, hblock, hv⟩ | ⟨hne, -⟩, -⟩ := ha.of_getElem?_attach hsame hentry
  · exact ⟨entry, hentry, hblock, hv⟩
  · exact absurd rfl hne

/-- A tracked block stays so after `attach`. -/
theorem isTracked_attach {id : Hash} (htracked : e.isTracked id = true) (block parent : Block)
    (v : Verified) : (e.attach block parent v).isTracked id = true := by
  obtain ⟨entry, hentry⟩ := isTracked_iff.1 htracked
  rw [isTracked_iff, getElem?_attach, hentry]
  by_cases hid : block.id = id
  · rw [if_pos hid]
    exact ⟨_, rfl⟩
  · rw [if_neg hid]
    exact ⟨_, rfl⟩

/-- `Arranged` survives `attach`, if the footing `Fits` the block. -/
theorem attach (ha : e.Arranged g h) {block parent : Block} {v : Verified}
    (hsame : ∀ b ∈ h.blocks, b.id = block.id → b = block)
    (hnew : ∀ b ∈ h.chain, b.id ≠ block.id) (hparent : block.parentId = parent.id)
    (hfits : v.footing.Fits h block) (heffect : ∃ view, block.effect g view = .ok v.changes) :
    (e.attach block parent v).Arranged g (h.verify block) where
  tracked hentry := by
    -- by `of_getElem?_attach`: the entry of the block, or one that was there
    obtain ⟨⟨hid, hblock, -⟩ | ⟨-, old, hold, hblock, -⟩, -⟩ :=
      ha.of_getElem?_attach hsame hentry
    · rw [hblock]
      exact ⟨hid, h.mem_blocks_name block, hid ▸ hnew⟩
    · obtain ⟨hid, hmem, hnew⟩ := ha.tracked hold
      rw [hblock]
      exact ⟨hid, h.blocks_subset_name block hmem, hnew⟩
  checked hentry hv := by
    obtain ⟨⟨-, hblock, hv'⟩ | ⟨-, old, hold, hblock, hv'⟩, -⟩ :=
      ha.of_getElem?_attach hsame hentry
    · obtain rfl := Option.some.inj (hv'.symm.trans hv)
      rw [hblock]
      exact ⟨List.mem_cons_self, hfits, heffect⟩
    · obtain ⟨hmem, hfits, heffect⟩ := ha.checked hold (hv'.symm.trans hv)
      rw [hblock]
      exact ⟨List.mem_cons_of_mem _ hmem, hfits, heffect⟩
  children hentry hc := by
    obtain ⟨-, hchildren⟩ := ha.of_getElem?_attach hsame hentry
    rcases hchildren _ hc with ⟨rfl, rfl⟩ | ⟨old, hold, hc⟩
    · exact ⟨block, h.mem_blocks_name block, rfl, hparent⟩
    · obtain ⟨b, hb, hid, hp⟩ := ha.children hold hc
      exact ⟨b, h.blocks_subset_name block hb, hid, hp⟩
  preferred := ha.preferred.imp_left fun htracked => isTracked_attach htracked block parent v

/-- The entries after `committed`: without the block, and with its children `rebased`. -/
theorem getElem?_committed (e : Engine) (id : Hash) (entry : Tracked) (changes : Changes)
    (j : Hash) : (e.committed id entry changes).tracked[j]? =
      (if id = j then none else e.tracked[j]?).map fun x =>
        if j ∈ entry.children then x.rebased else x := by
  simp only [committed, settle, getElem?_rebase, Std.ExtTreeMap.getElem?_erase,
    Std.LawfulEqCmp.compare_eq_iff_eq]

/-- An entry after `committed` is another block's, on the durable store if that is a child. -/
theorem of_getElem?_committed {id j : Hash} {entry x : Tracked} {changes : Changes}
    (hx : (e.committed id entry changes).tracked[j]? = some x) :
    id ≠ j ∧ ∃ old, e.tracked[j]? = some old ∧ x.block = old.block ∧
      x.children = old.children ∧ ∀ {w : Verified}, x.verified? = some w →
        ∃ v, old.verified? = some v ∧ v.changes = w.changes ∧
          w.footing = if j ∈ entry.children then .durable else v.footing := by
  rw [getElem?_committed, Option.map_eq_some_iff] at hx
  obtain ⟨old, hold, rfl⟩ := hx
  -- the block itself is no longer tracked, and its children are rebased
  split at hold
  · cases hold
  · next hne =>
    refine ⟨hne, old, hold, ?_⟩
    by_cases hchild : j ∈ entry.children
    · rw [if_pos hchild]
      refine ⟨rfl, rfl, fun hw => ?_⟩
      obtain ⟨v, hv, rfl⟩ := Option.map_eq_some_iff.1 hw
      exact ⟨v, hv, rfl, (if_pos hchild).symm⟩
    · rw [if_neg hchild]
      exact ⟨rfl, rfl, fun hw => ⟨_, hw, rfl, (if_neg hchild).symm⟩⟩

/-- A footing that `Fits` goes on to fit when blocks are accepted. -/
theorem fits_accept {footing : Footing} {block : Block} (hfits : footing.Fits h block)
    (b : Block) : footing.Fits (h.accept b) block := by
  cases footing with
  | durable =>
    obtain ⟨p, hp, hpid⟩ := hfits
    exact ⟨p, List.mem_cons_of_mem b hp, hpid⟩
  | block parentId => exact hfits

/-- `Arranged` survives `committed`, which puts the children of the block on the durable store. -/
theorem commit (ha : e.Arranged g h) (hsound : h.Sound g) (hfree : h.CollisionFree) {id : Hash}
    {entry : Tracked} {changes : Changes} (hfound : e.tracked[id]? = some entry) :
    (e.committed id entry changes).Arranged g (h.accept entry.block) where
  tracked hx := by
    obtain ⟨hne, old, hold, hblock, -⟩ := of_getElem?_committed hx
    obtain ⟨hid, hmem, hnew⟩ := ha.tracked hold
    rw [hblock]
    refine ⟨hid, hmem, List.forall_mem_cons.2 ⟨?_, hnew⟩⟩
    rw [(ha.tracked hfound).1]
    exact hne
  checked {j x w} hx hw := by
    obtain ⟨-, old, hold, hblock, -, hverified⟩ := of_getElem?_committed hx
    obtain ⟨v, hv, hchanges, hfooting⟩ := hverified hw
    obtain ⟨hmem, hfits, heffect⟩ := ha.checked hold hv
    rw [hblock, ← hchanges]
    refine ⟨hmem, ?_, heffect⟩
    rw [hfooting]
    split
    · next hchild =>
      -- a child was verified on this very block, which is on the chain from now on
      obtain ⟨b, hb, hbid, hp⟩ := ha.children hfound hchild
      obtain ⟨hoid, homem, -⟩ := ha.tracked hold
      obtain rfl := hfree.eq_of_id_eq hsound hb homem (hbid.trans hoid.symm)
      exact ⟨entry.block, List.mem_cons_self, (ha.tracked hfound).1.trans hp.symm⟩
    · -- the changes of another block stay where they stood
      exact fits_accept hfits entry.block
  children hx hc := by
    obtain ⟨-, old, hold, -, hchildren, -⟩ := of_getElem?_committed hx
    exact ha.children hold (hchildren ▸ hc)
  preferred := by
    -- the preference falls back to the new tip when its block is gone
    show ((e.committed id entry changes).isTracked (if (e.committed id entry changes).isTracked
      e.preferred then e.preferred else entry.block.id) = true) ∨ (if (e.committed id entry
      changes).isTracked e.preferred then e.preferred else entry.block.id) = entry.block.id
    split
    · next htracked => exact .inl htracked
    · exact .inr rfl

/-- The entries after `forget`: without the block, and its parent's `withoutChild`. -/
theorem getElem?_forget (e : Engine) (id : Hash) (block : Block) (j : Hash) :
    (e.forget id block).tracked[j]? = (if id = j then none else e.tracked[j]?).map fun x =>
      if block.parentId = j then x.withoutChild id else x := by
  simp only [Engine.forget, getElem?_removeChild, Std.ExtTreeMap.getElem?_erase,
    Std.LawfulEqCmp.compare_eq_iff_eq]

/-- An entry after `forget` is what it was, with fewer children. -/
theorem of_getElem?_forget {id j : Hash} {block : Block} {x : Tracked}
    (hx : (e.forget id block).tracked[j]? = some x) :
    ∃ old, e.tracked[j]? = some old ∧ x.block = old.block ∧ x.verified? = old.verified? ∧
      x.children ⊆ old.children := by
  rw [getElem?_forget, Option.map_eq_some_iff] at hx
  obtain ⟨old, hold, rfl⟩ := hx
  split at hold
  · cases hold
  · refine ⟨old, hold, ?_⟩
    split
    · exact ⟨rfl, rfl, List.filter_subset_self _⟩
    · exact ⟨rfl, rfl, fun _ hc => hc⟩

/-- `Arranged` survives `forget`. -/
theorem forget (ha : e.Arranged g h) (id : Hash) (block : Block) :
    (e.forget id block).Arranged g h := by
  -- every other block stays tracked, whether or not it was the parent
  have hkept {j : Hash} (hne : id ≠ j) (htracked : e.isTracked j = true) :
      (e.forget id block).isTracked j = true := by
    obtain ⟨x, hx⟩ := isTracked_iff.1 htracked
    rw [isTracked_iff]
    exact ⟨_, by rw [getElem?_forget, if_neg hne, hx]; rfl⟩
  constructor
  -- an entry that is left is an old one but for its children
  · intro j x hx
    obtain ⟨old, hold, hblock, -, -⟩ := of_getElem?_forget hx
    rw [hblock]
    exact ha.tracked hold
  · intro j x v hx hv
    obtain ⟨old, hold, hblock, hv', -⟩ := of_getElem?_forget hx
    rw [hblock]
    exact ha.checked hold (hv'.symm.trans hv)
  · intro j c x hx hc
    obtain ⟨old, hold, -, -, hsub⟩ := of_getElem?_forget hx
    exact ha.children hold (hsub hc)
  · -- a preference for the forgotten block goes to its parent, or else to the tip
    show ((e.forget id block).isTracked (if e.preferred = id then
      (if (e.forget id block).isTracked block.parentId then block.parentId
        else e.lastAccepted.id) else e.preferred) = true) ∨ (if e.preferred = id then
      (if (e.forget id block).isTracked block.parentId then block.parentId
        else e.lastAccepted.id) else e.preferred) = e.lastAccepted.id
    split
    · split
      · next htracked => exact .inl htracked
      · exact .inr rfl
    · next hne => exact ha.preferred.imp_left (hkept (Ne.symm hne))

/-- `Arranged` survives that a tracked block or the tip becomes `preferred`. -/
theorem prefer (ha : e.Arranged g h) {id : Hash}
    (hknown : e.isTracked id = true ∨ e.lastAccepted.id = id) :
    Arranged g h { e with preferred := id } where
  tracked := ha.tracked
  checked := ha.checked
  children := ha.children
  preferred := hknown.imp_right Eq.symm

/-- `Engine.atRest` tracks nothing, and so is `Arranged` on any history. -/
theorem atRest (g g' : Genesis) (h : History) (settings : Settings) (store : Store)
    (tip : Block) : (Engine.atRest g' settings store tip).Arranged g h := by
  have hnone {j : Hash} {x : Tracked}
      (hx : (Engine.atRest g' settings store tip).tracked[j]? = some x) : False := by
    simp [Engine.atRest] at hx
  exact ⟨fun hx => (hnone hx).elim, fun hx => (hnone hx).elim, fun hx => (hnone hx).elim, .inr rfl⟩

end Arranged

end Engine

namespace Coherent

variable {g : Genesis} {h h' : History} {e e' : Engine}

/-- What `find?` gives has the identifier, and is tracked or on `h.chain`. -/
theorem find?_eq_ok (hc : Coherent g h e) {id : Hash} {b : Block}
    (hfind : e.find? id = .ok (some b)) :
    b.id = id ∧ b ∈ h.blocks ∧ ((∃ entry, e.tracked[id]? = some entry ∧ entry.block = b) ∨
      e.tracked[id]? = none ∧ b ∈ h.chain) := by
  simp only [Engine.find?] at hfind
  split at hfind
  · next entry hentry =>
    obtain rfl := Option.some.inj (Except.ok.inj hfind)
    obtain ⟨hid, hmem, -⟩ := hc.arranged.tracked hentry
    exact ⟨hid, hmem, .inl ⟨entry, hentry, rfl⟩⟩
  · next hnone =>
    -- what is not tracked is looked up as the tip, and then in the store
    have hchain : b ∈ h.chain ∧ b.id = id := by
      split at hfind
      · next hid =>
        obtain rfl := Option.some.inj (Except.ok.inj hfind)
        exact ⟨hc.settled.tip_mem_chain, hid⟩
      · exact hc.settled.loadBlock_eq_ok hc.sound hfind
    exact ⟨hchain.2, hc.sound.mem_blocks_of_mem_chain hchain.1, .inr ⟨hnone, hchain.1⟩⟩

/-- What `openParent` gives is a tracked block or `lastAccepted`. -/
theorem openParent_eq_ok (hc : Coherent g h e) {block parent : Block}
    (hopen : e.openParent block = .ok parent) :
    parent.id = block.parentId ∧ parent ∈ h.blocks ∧
    ((∃ entry, e.tracked[block.parentId]? = some entry ∧ entry.block = parent) ∨
      e.tracked[block.parentId]? = none ∧ parent = e.lastAccepted) := by
  obtain ⟨hfind, hstill⟩ := Engine.openParent_eq_ok_iff.1 hopen
  obtain ⟨hid, hmem, htracked | ⟨hnone, hchain⟩⟩ := hc.find?_eq_ok hfind
  · exact ⟨hid, hmem, .inl htracked⟩
  · refine ⟨hid, hmem, .inr ⟨hnone, ?_⟩⟩
    -- a parent outside the tree may only be the tip, which the engine holds itself
    rw [hid, Engine.isTracked_iff, hnone] at hstill
    obtain ⟨entry, hentry⟩ | htip := hstill
    · cases hentry
    · simp only [Engine.find?, hnone, if_pos htip.symm] at hfind
      exact (Option.some.inj (Except.ok.inj hfind)).symm

/-- What `find?` gives was verified, if `viewFrom` gives a view there. -/
theorem verified_of_find? (hc : Coherent g h e) {id : Hash} {b : Block} {view : View}
    (hfind : e.find? id = .ok (some b)) (hview : e.viewFrom id = .ok view) :
    b = h.first ∨ b ∈ h.verified := by
  obtain ⟨-, -, ⟨entry, hentry, rfl⟩ | ⟨-, hchain⟩⟩ := hc.find?_eq_ok hfind
  -- the view from an untracked block is that of the chain, whose blocks were verified
  · -- a tracked block has a view only if it was verified
    simp only [Engine.viewFrom, Engine.layers, hentry] at hview
    obtain ⟨layers, hlayers, -⟩ := Except.bind_eq_ok_iff.1 hview
    obtain ⟨w, hw⟩ := Engine.verified?_of_layersFrom hlayers
    exact .inr (hc.arranged.checked hentry hw).1
  · exact hc.sound.verified_of_mem_chain hchain

/-- What `openParent` gives was verified, if `viewFrom` gives a view there. -/
theorem verified_of_viewFrom (hc : Coherent g h e) {block parent : Block} {view : View}
    (hopen : e.openParent block = .ok parent) (hview : e.viewFrom block.parentId = .ok view) :
    parent = h.first ∨ parent ∈ h.verified :=
  hc.verified_of_find? (Engine.openParent_eq_ok_iff.1 hopen).1 hview

/--
A block that passes `checkBlock` `Extends` a verified one or the first, and its footing `Fits`.
-/
theorem checkBlock_eq_ok (hc : Coherent g h e) {clock : UInt64} {block parent : Block}
    {v : Verified} (hcheck : e.checkBlock clock block = .ok (parent, v)) :
    (parent = h.first ∨ parent ∈ h.verified) ∧ block.Extends parent ∧
    v.footing.Fits h block ∧ ∃ view, block.effect g view = .ok v.changes := by
  obtain ⟨hopen, hplace, context, view, -, -, hview, hexecute, hfooting⟩ :=
    Engine.checkBlock_eq_ok_iff.1 hcheck
  obtain ⟨-, hlate, -, hheight⟩ := Engine.checkPlace_eq_ok_iff.1 hplace
  obtain ⟨hid, hmem, hparent⟩ := hc.openParent_eq_ok hopen
  have hverified := hc.verified_of_viewFrom hopen hview
  -- a verified parent is below the last height, so that the next one does not wrap around
  have hnext : block.height.toNat = parent.height.toNat + 1 := by
    have hlow := hc.sound.height_le_timestamp hverified
    have hlater := UInt64.lt_iff_toNat_lt.1 hlate
    have hend := block.timestamp.toNat_lt
    rw [hheight, UInt64.toNat_add, UInt64.toNat_one]
    omega
  rw [hc.settled.genesis] at hexecute
  refine ⟨hverified, ⟨hid.symm, hnext, hlate⟩, ?_, view,
    (Block.execute_eq_ok_iff.1 hexecute).2.2⟩
  -- a parent that is not tracked is the tip
  rw [hfooting, Engine.footingOn, hid]
  split
  · exact rfl
  · next hnot =>
    rcases hparent with ⟨entry, hentry, -⟩ | ⟨-, rfl⟩
    · exact absurd (Engine.isTracked_iff.2 ⟨entry, hentry⟩) hnot
    · exact ⟨e.lastAccepted, hc.settled.tip_mem_chain, hid⟩

/-- A `Transition` only adds blocks. -/
theorem blocks_subset_of_transition (ht : Transition h e h' e') : h.blocks ⊆ h'.blocks := by
  -- only naming and verifying bring a block in, and both put it in front
  cases ht with
  | name | rename | track | recheck | attach => exact h.blocks_subset_name _
  | quiet | commit | forget | prefer | reopen => exact fun _ hb => hb

/-- A tracked block is not `h.first`, which is on `h.chain`. -/
theorem ne_first (hc : Coherent g h e) {id : Hash} {entry : Tracked}
    (hfound : e.tracked[id]? = some entry) : entry.block ≠ h.first := by
  intro hfirst
  have hchain : h.first ∈ h.chain := List.mem_append_right _ (List.mem_singleton.2 rfl)
  obtain ⟨hid, -, hnew⟩ := hc.arranged.tracked hfound
  exact hnew _ hchain (hfirst ▸ hid)

/-- The block of an `acceptable` entry `Extends` an accepted block. -/
theorem extends_of_acceptable (hc : Coherent g h e) (hfree : h.CollisionFree) {id : Hash}
    {entry : Tracked} {changes : Changes} (hfound : e.tracked[id]? = some entry)
    (hacceptable : Engine.acceptable id entry = .ok changes) :
    ∃ p ∈ h.chain, entry.block.Extends p := by
  obtain ⟨hverified, hfits, -⟩ :=
    hc.arranged.checked hfound (Engine.acceptable_eq_ok_iff.1 hacceptable)
  obtain ⟨p, hp, hpid⟩ := hfits
  exact ⟨p, hp, hc.sound.extends_of_parentId hfree hverified (hc.ne_first hfound)
    (hc.sound.mem_blocks_of_mem_chain hp) hpid⟩

/-! ### One lemma for each transition -/

theorem congr (hc : Coherent g h e) (same : e.SameChain e') : Coherent g h e' where
  sound := hc.sound
  settled := hc.settled.congr same.genesis same.entries same.lastAccepted rfl
  arranged := hc.arranged.congr same (fun _ hb => hb) (fun _ hb => hb) rfl

/-- `Coherent` states stay so when a framed block is named. -/
theorem name (hc : Coherent g h e) {block : Block} (hframed : block.IsFramed Engine.framing) :
    Coherent g (h.name block) e where
  sound := hc.sound.name hframed
  settled := hc.settled.congr rfl rfl rfl rfl
  arranged := hc.arranged.congr (.refl e) (h.blocks_subset_name block) (fun _ hb => hb) rfl

/-- `Coherent` states stay so when a framed block that is not stored is tracked. -/
theorem track (hc : Coherent g h e) {block : Block} (hframed : block.IsFramed Engine.framing)
    (hunstored : ¬e.isStored block.id = true) :
    Coherent g (h.name block)
      { e with tracked := e.tracked.insert block.id ⟨block, none, []⟩ } where
  sound := hc.sound.name hframed
  settled := hc.settled.congr rfl rfl rfl rfl
  arranged := hc.arranged.track fun b hb hid =>
    hunstored (hc.settled.isStored_iff.2 ⟨b, hb, hid⟩)

/-- A framed block whose identifier is stored is on `h.chain`. -/
theorem mem_chain_of_isStored (hc : Coherent g h e) {block : Block}
    (hframed : block.IsFramed Engine.framing) (hstored : e.isStored block.id = true)
    (hfree : (h.name block).CollisionFree) : block ∈ h.chain := by
  obtain ⟨b, hb, hid⟩ := hc.settled.isStored_iff.1 hstored
  exact hc.sound.eq_of_named hframed hfree (hc.sound.mem_blocks_of_mem_chain hb) hid ▸ hb

/-- A framed block whose identifier is stored was verified before. -/
theorem recheck (hc : Coherent g h e) {b : Block} (hframed : b.IsFramed Engine.framing)
    (hstored : e.isStored b.id = true) (hfree : (h.name b).CollisionFree) :
    Coherent g (h.verify b) e := by
  have hb := hc.mem_chain_of_isStored hframed hstored hfree
  -- a stored block was verified before, so the history already has ground under it
  have hground : b = h.first ∨ ∃ p, (p = h.first ∨ p ∈ h.verified) ∧ b.Extends p := by
    rcases hc.sound.verified_of_mem_chain hb with hfirst | hverified
    · exact .inl hfirst
    · exact hc.sound.grounded b hverified
  exact {
    sound := hc.sound.verify hframed hground
    settled := hc.settled.congr rfl rfl rfl rfl
    arranged := hc.arranged.congr (.refl e) (h.blocks_subset_name b)
      (fun _ => List.mem_cons_of_mem b) rfl }

/-- `Coherent` states stay so when a block that passed `checkBlock` is attached. -/
theorem attach (hc : Coherent g h e) {clock : UInt64} {block parent : Block} {v : Verified}
    (hframed : block.IsFramed Engine.framing)
    (hknown : e.isTracked block.id = true ∨ ¬e.isStored block.id = true)
    (hcheck : e.checkBlock clock block = .ok (parent, v))
    (hfree : (h.name block).CollisionFree) :
    Coherent g (h.verify block) (e.attach block parent v) := by
  obtain ⟨hparent, hext, hfits, heffect⟩ := hc.checkBlock_eq_ok hcheck
  -- a block that is tracked or not in the store is not on the chain
  have hnew : ∀ b ∈ h.chain, b.id ≠ block.id := by
    intro b hb hid
    rcases hknown with htracked | hunstored
    · obtain ⟨entry, hentry⟩ := Engine.isTracked_iff.1 htracked
      exact (hc.arranged.tracked hentry).2.2 b hb hid
    · exact hunstored (hc.settled.isStored_iff.2 ⟨b, hb, hid⟩)
  exact {
    sound := hc.sound.verify hframed (.inr ⟨parent, hparent, hext⟩)
    settled := hc.settled.congr rfl rfl rfl rfl
    arranged := hc.arranged.attach (fun _ => hc.sound.eq_of_named hframed hfree) hnew hext.1 hfits
      heffect }

/-- `Coherent` states stay so when an `acceptable` block is `committed`. -/
theorem commit (hc : Coherent g h e) (hfree : h.CollisionFree) {id : Hash} {entry : Tracked}
    {changes : Changes} (hfound : e.tracked[id]? = some entry)
    (hacceptable : Engine.acceptable id entry = .ok changes) :
    Coherent g (h.accept entry.block) (e.committed id entry changes) := by
  obtain ⟨hverified, -, view, heffect⟩ :=
    hc.arranged.checked hfound (Engine.acceptable_eq_ok_iff.1 hacceptable)
  obtain ⟨hid, -, hnew⟩ := hc.arranged.tracked hfound
  exact {
    sound := hc.sound.accept hverified (hc.extends_of_acceptable hfree hfound hacceptable)
    settled := hc.settled.commit heffect (hid ▸ hnew)
    arranged := hc.arranged.commit hc.sound hfree hfound }

/-- `Coherent` states stay so when a block is forgotten. -/
theorem forget (hc : Coherent g h e) (id : Hash) (block : Block) :
    Coherent g h (e.forget id block) where
  sound := hc.sound
  settled := hc.settled.congr rfl rfl rfl rfl
  arranged := hc.arranged.forget id block

/-- `Coherent` states stay so when a tracked block or the tip becomes `preferred`. -/
theorem prefer (hc : Coherent g h e) {id : Hash}
    (hknown : e.isTracked id = true ∨ e.lastAccepted.id = id) :
    Coherent g h { e with preferred := id } where
  sound := hc.sound
  settled := hc.settled.congr rfl rfl rfl rfl
  arranged := hc.arranged.prefer hknown

/-- What `storedState` gives on a `Coherent` state's store are `g` and `lastAccepted`. -/
theorem eq_of_storedState (hc : Coherent g h e) {g' : Genesis} {tip : Block}
    (hstored : Engine.storedState e.store.entries = .ok (g', tip)) :
    g = g' ∧ e.lastAccepted = tip := by
  rw [hc.settled.storedState_eq hc.sound] at hstored
  exact Prod.mk.inj (Except.ok.inj hstored)

/-- `Engine.atRest` on the store of a `Coherent` state is `Coherent`. -/
theorem reopen (hc : Coherent g h e) (settings : Settings) :
    Coherent g h (Engine.atRest g settings e.store e.lastAccepted) where
  sound := hc.sound
  settled := hc.settled.congr hc.settled.genesis.symm rfl rfl rfl
  arranged := Engine.Arranged.atRest _ _ h settings e.store _

/-- A `Transition` keeps a state `Coherent`, as long as the hash tells the blocks apart. -/
theorem of_transition (hc : Coherent g h e) (ht : Transition h e h' e')
    (hfree : h'.CollisionFree) : Coherent g h' e' := by
  have hfree' := hfree.of_subset (blocks_subset_of_transition ht)
  -- one lemma for each transition, followed by what the transition leaves out of account
  cases ht with
  | quiet same => exact hc.congr same
  | name hframed same => exact (hc.name hframed).congr same
  | rename hfound same =>
    exact (hc.name (hc.sound.framed _ (hc.arranged.tracked hfound).2.1)).congr same
  | track hframed _ _ hunstored same => exact (hc.track hframed hunstored).congr same
  | recheck hframed hstored same => exact (hc.recheck hframed hstored hfree).congr same
  | attach hframed _ hknown hcheck same =>
    exact (hc.attach hframed hknown hcheck hfree).congr same
  | commit hfound hacceptable same => exact (hc.commit hfree' hfound hacceptable).congr same
  | forget _ same => exact (hc.forget _ _).congr same
  | prefer hknown same => exact (hc.prefer hknown).congr same
  | reopen hstored same =>
    obtain ⟨rfl, rfl⟩ := hc.eq_of_storedState hstored
    exact (hc.reopen _).congr same

/-- Every `WellFormed` request takes a `Coherent` state through a `Transition`. -/
theorem transition (hc : Coherent g h e) (clock : UInt64) {request : Request}
    (hform : request.WellFormed) :
    Transition h e (h.record e clock request) (e.after clock request) := by
  refine .of_request hform ?_
  rw [Std.ExtTreeMap.contains_eq_isSome_getElem?, hc.settled.initialized]
  rfl

/-- What `Engine.start` gives on an empty store is `Coherent`. -/
theorem start {settings : Settings} {refusals : Nat} {store : Store}
    (hstart : Engine.start g settings ⟨∅, refusals⟩ = (.ok e, store)) :
    Coherent g (.start e.lastAccepted) e := by
  obtain ⟨block, changes, hstate, rfl, hentries⟩ := Engine.start_empty hstart
  obtain ⟨hvalid, hfirst, hblocks, -, hpointer, hdocument, hinit⟩ :=
    Engine.genesisState_eq_ok hstate
  have hframed := (Block.first_eq_ok hfirst).1
  -- at the start there is the first block and nothing else
  refine ⟨?_, ?_, Engine.Arranged.atRest g g _ settings store block⟩
  · exact {
      valid := hvalid
      first := hfirst
      framed := fun b hb => List.mem_singleton.1 hb ▸ hframed
      verified_sub := fun _ hb => nomatch hb
      accepted_sub := fun _ hb => nomatch hb
      grounded := fun _ hb => nomatch hb
      rooted := fun b older hsuffix => by
        rcases List.suffix_cons_iff.1 hsuffix with heq | hsuffix
        · exact .inl (List.cons.inj heq).2
        · cases List.suffix_nil.1 hsuffix }
  · -- the store holds what was written into it, and nothing else
    have hlookup (key : Bytes) : (Engine.atRest g settings store block).store.entries[key]? =
        changes[key]?.getD none := by
      show store.entries[key]? = _
      rw [hentries, Table.getElem?_apply, Std.ExtTreeMap.getElem?_empty]
    exact {
      genesis := rfl
      tip := ⟨[], rfl⟩
      stored := fun id bytes => by
        rw [hlookup, hblocks]
        show _ ↔ ∃ b ∈ [block], b.id = id ∧ b.bytes = bytes
        by_cases hid : block.id = id <;> simp [hid]
      pointer := by rw [hlookup, hpointer]; rfl
      document := by rw [hlookup, hdocument]; rfl
      initialized := by rw [hlookup, hinit]; rfl }

end Coherent

/-- `History.record` only adds blocks. -/
theorem History.blocks_subset_record (h : History) (e : Engine) (clock : UInt64)
    (request : Request) : h.blocks ⊆ (h.record e clock request).blocks := by
  have hrefl : h.blocks ⊆ h.blocks := fun _ hb => hb
  cases request with
  -- a request that names no block leaves the list of blocks as it is
  | parse bytes => simp only [record]; split; exacts [h.blocks_subset_name _, hrefl]
  | verify block => simp only [record]; split <;> exact h.blocks_subset_name _
  | build => simp only [record]; split; exacts [h.blocks_subset_name _, hrefl]
  | accept id => simp only [record]; split <;> exact hrefl
  | _ => exact hrefl

/-- Every state that is `Reach`ed is `Coherent`, as long as the hash tells the blocks apart. -/
theorem Reach.coherent {g : Genesis} {h : History} {e : Engine} (hreach : Reach g h e)
    (hfree : h.CollisionFree) : Coherent g h e := by
  -- induction on the run; the blocks of a front of it are told apart as well
  induction hreach with
  | start hstart => exact .start hstart
  | @call h e clock request hform _ ih =>
    have hc := ih (hfree.of_subset (h.blocks_subset_record e clock request))
    exact hc.of_transition (hc.transition clock hform) hfree

/--
What holds at the start, and is kept by every `Transition` of a `Coherent` state, holds of every
state that is `Reach`ed with a hash that tells the blocks apart.
-/
theorem Reach.invariant {g : Genesis} {P : History → Engine → Prop}
    (hstart : ∀ (settings : Settings) (refusals : Nat) (e : Engine) (store : Store),
      Engine.start g settings ⟨∅, refusals⟩ = (.ok e, store) → P (.start e.lastAccepted) e)
    (hstep : ∀ (h h' : History) (e e' : Engine), Reach g h e → Coherent g h e → P h e →
      Transition h e h' e' → h'.CollisionFree → P h' e')
    {h : History} {e : Engine} (hreach : Reach g h e) (hfree : h.CollisionFree) : P h e := by
  -- induction on the run with coherence at hand, as the run before the last request is coherent too
  induction hreach with
  | start h => exact hstart _ _ _ _ h
  | @call h e clock request hform hreach ih =>
    have hfree' := hfree.of_subset (h.blocks_subset_record e clock request)
    have hc := hreach.coherent hfree'
    exact hstep _ _ _ _ hreach hc (ih hfree') (hc.transition clock hform) hfree

/-- No two blocks of `h.chain` have one identifier: none is accepted twice. -/
theorem Reach.nodup_chain {g : Genesis} {h : History} {e : Engine} (hreach : Reach g h e)
    (hfree : h.CollisionFree) : (h.chain.map (·.id)).Nodup := by
  refine hreach.invariant (P := fun h _ => (h.chain.map (·.id)).Nodup) (fun _ _ _ _ _ => ?_)
    (fun h h' e e' _ hc hnodup ht _ => ?_) hfree
  -- the chain is the first block alone
  · exact List.nodup_cons.2 ⟨List.not_mem_nil, .nil⟩
  · cases ht with
    | commit hfound =>
      -- a tracked block is not on the chain
      obtain ⟨hid, -, hnew⟩ := hc.arranged.tracked hfound
      refine List.nodup_cons.2 ⟨fun hmem => ?_, hnodup⟩
      obtain ⟨b, hb, hbid⟩ := List.mem_map.1 hmem
      exact hnew b hb (hbid.trans hid)
    | _ => exact hnodup

end LeaseChain
