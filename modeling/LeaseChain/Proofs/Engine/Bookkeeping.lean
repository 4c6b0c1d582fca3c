import LeaseChain.Proofs.Engine.Coherence
import LeaseChain.Proofs.Engine.Layers

/-!
# What the engine's records say about each other

The tracked blocks, those remembered as rejected, the durable store, the last accepted block and the
preferred one are separate records. `Engine.Tidy` is what coherence does not say of them and every
transition keeps as well; `Engine.Consistent` puts together how the records of a state agree.

## Key results

- `Reach.tidy`: reachable states are tidy
- `Coherent.falling`: heights fall along what changes stand on
- `Reach.consistent`: the records of a reachable state agree
-/

namespace LeaseChain

/-- What the tracked and the rejected blocks of a state are to each other. -/
structure Engine.Tidy (h : History) (e : Engine) : Prop where
  /-- A tracked block is not remembered as rejected. -/
  unrejected : ∀ {id : Hash} {entry : Tracked}, e.tracked[id]? = some entry → e.rejected[id]? = none
  /-- A rejected block is one of the run with the height it is remembered with, and not accepted. -/
  rejected : ∀ {id : Hash} {height : UInt64}, e.rejected[id]? = some height →
    (∃ b ∈ h.blocks, b.id = id ∧ b.height = height) ∧ ∀ b ∈ h.chain, b.id ≠ id
  /-- The children of a tracked block are tracked blocks that name it as their parent. -/
  children : ∀ {id c : Hash} {entry : Tracked}, e.tracked[id]? = some entry → c ∈ entry.children →
    ∃ child, e.tracked[c]? = some child ∧ child.block.parentId = id
  /-- No child is listed twice. -/
  distinct : ∀ {id : Hash} {entry : Tracked}, e.tracked[id]? = some entry → entry.children.Nodup

variable {g : Genesis} {h h' : History} {e e' : Engine}

/-- `isRejected` asks for a height that is remembered. -/
theorem Engine.isRejected_iff {id : Hash} :
    e.isRejected id = true ↔ ∃ height, e.rejected[id]? = some height := by
  rw [isRejected, Std.ExtTreeMap.contains_eq_isSome_getElem?, Option.isSome_iff_exists]

/-- No height is remembered of a block unless it `isRejected`. -/
theorem Engine.rejected_eq_none_iff {id : Hash} :
    e.rejected[id]? = none ↔ ¬e.isRejected id = true := by
  rw [isRejected_iff, Option.eq_none_iff_forall_ne_some, not_exists]

/-- `committed` forgets the rejected blocks that are no higher. -/
theorem Engine.getElem?_rejected_committed {id j : Hash} {entry : Tracked} {changes : Changes}
    {height : UInt64} : (e.committed id entry changes).rejected[j]? = some height ↔
      e.rejected[j]? = some height ∧ entry.block.height < height := by
  simp only [committed, settle, Std.ExtTreeMap.getElem?_filter', Option.filter_eq_some_iff,
    decide_eq_true_eq]

/-- `forget` remembers the block as rejected, with its height. -/
theorem Engine.getElem?_rejected_forget (e : Engine) (id : Hash) (block : Block) (j : Hash) :
    (e.forget id block).rejected[j]? = if id = j then some block.height else e.rejected[j]? := by
  simp only [forget, Std.ExtTreeMap.getElem?_insert, Std.LawfulEqCmp.compare_eq_iff_eq]

/-! ## One lemma for each transition -/

namespace Engine.Tidy

theorem congr (ht : e.Tidy h) (same : e.SameChain e') (hblocks : h.blocks ⊆ h'.blocks)
    (hchain : h'.chain = h.chain) : e'.Tidy h' where
  unrejected hentry := by
    rw [same.tracked] at hentry
    rw [same.rejected]
    exact ht.unrejected hentry
  rejected hrejected := by
    rw [same.rejected] at hrejected
    obtain ⟨⟨b, hb, hid⟩, hnew⟩ := ht.rejected hrejected
    -- `hnew` says the block is not on the chain, which is the same chain after the step
    exact ⟨⟨b, hblocks hb, hid⟩, hchain ▸ hnew⟩
  children hentry hc := by
    rw [same.tracked] at hentry ⊢
    exact ht.children hentry hc
  distinct hentry := by
    rw [same.tracked] at hentry
    exact ht.distinct hentry

/-- `Tidy` survives that a block is tracked anew: it has no children yet. -/
theorem track (ht : e.Tidy h) {block : Block} (hnone : e.tracked[block.id]? = none)
    (hunrejected : ¬e.isRejected block.id = true) :
    Tidy (h.name block) { e with tracked := e.tracked.insert block.id ⟨block, none, []⟩ } := by
  have hold : e.Tidy (h.name block) := ht.congr (.refl e) (h.blocks_subset_name block) rfl
  constructor
  · intro id entry hentry
    simp only [getElem?_track] at hentry
    split at hentry
    · next hid => exact hid ▸ rejected_eq_none_iff.2 hunrejected
    · exact ht.unrejected hentry
  · exact hold.rejected
  · intro id c entry hentry hc
    simp only [getElem?_track] at hentry ⊢
    split at hentry
    · obtain rfl := Option.some.inj hentry
      cases hc
    · -- another block's child was tracked before, so that it is not the new one
      obtain ⟨child, hchild, hparent⟩ := ht.children hentry hc
      have hne : block.id ≠ c := fun hid => by
        rw [← hid, hnone] at hchild
        cases hchild
      rw [if_neg hne]
      exact ⟨child, hchild, hparent⟩
  · intro id entry hentry
    simp only [getElem?_track] at hentry
    split at hentry
    · obtain rfl := Option.some.inj hentry
      exact .nil
    · exact ht.distinct hentry

/-- A tracked block stays so after `attach`, and may have one more child. -/
theorem exists_getElem?_attach {id : Hash} {entry : Tracked} (hentry : e.tracked[id]? = some entry)
    (block parent : Block) (v : Verified) :
    ∃ x, (e.attach block parent v).tracked[id]? = some x ∧ x.block = entry.block ∧
      entry.children ⊆ x.children ∧ (parent.id = id → block.id ∈ x.children) := by
  obtain ⟨base, hbase, hblock, hchildren⟩ : ∃ base, (if block.id = id then
      some { (e.tracked[block.id]?).getD ⟨block, none, []⟩ with verified? := some v }
      else e.tracked[id]?) = some base ∧ base.block = entry.block ∧
        base.children = entry.children := by
    -- the entry itself keeps its children, whether it is the one that gets the changes or not
    by_cases hid : block.id = id
    · rw [if_pos hid, hid, hentry]
      exact ⟨_, rfl, rfl, rfl⟩
    · rw [if_neg hid, hentry]
      exact ⟨entry, rfl, rfl, rfl⟩
  rw [Arranged.getElem?_attach, hbase, ← hblock, ← hchildren]
  by_cases hid : parent.id = id
  · refine ⟨base.withChild block.id, by simp [hid], base.block_withChild block.id, ?_, fun _ => ?_⟩
    · exact fun c hc => (base.mem_children_withChild block.id).2 (.inl hc)
    · exact (base.mem_children_withChild block.id).2 (.inr rfl)
  · exact ⟨base, by simp [hid], rfl, fun _ hc => hc, fun h => absurd h hid⟩

/-- `Tidy` survives `attach`: the block becomes a child of its parent, if that is tracked. -/
theorem attach (ht : e.Tidy h) (ha : e.Arranged g h) {block parent : Block} (v : Verified)
    (hsame : ∀ b ∈ h.blocks, b.id = block.id → b = block)
    (hunrejected : ¬e.isRejected block.id = true) (hparent : block.parentId = parent.id) :
    (e.attach block parent v).Tidy (h.verify block) where
  unrejected hentry := by
    obtain ⟨⟨hid, -, -⟩ | ⟨-, old, hold, -, -⟩, -⟩ := ha.of_getElem?_attach hsame hentry
    · exact hid ▸ rejected_eq_none_iff.2 hunrejected
    · exact ht.unrejected hold
  rejected hrejected := by
    obtain ⟨⟨b, hb, hid⟩, hnew⟩ := ht.rejected hrejected
    exact ⟨⟨b, h.blocks_subset_name block hb, hid⟩, hnew⟩
  children {id c entry} hentry hc := by
    obtain ⟨-, hchildren⟩ := ha.of_getElem?_attach hsame hentry
    -- a child is the new one, of the block that gets it, or it was listed before
    rcases hchildren c hc with ⟨hid, rfl⟩ | ⟨old, hold, hc⟩
    · obtain ⟨x, hx, hxblock, -⟩ := ha.exists_getElem?_attach parent v hsame
      exact ⟨x, hx, by rw [hxblock, hparent, hid]⟩
    · obtain ⟨child, hchild, hchildParent⟩ := ht.children hold hc
      obtain ⟨x, hx, hxblock, -⟩ := exists_getElem?_attach hchild block parent v
      exact ⟨x, hx, by rw [hxblock, hchildParent]⟩
  distinct hentry := by
    rw [Arranged.getElem?_attach, Option.map_eq_some_iff] at hentry
    obtain ⟨base, hbase, rfl⟩ := hentry
    -- the block itself was tracked with children, or is tracked anew without any
    have hnodup : base.children.Nodup := by
      split at hbase
      · obtain rfl := Option.some.inj hbase
        cases hold : e.tracked[block.id]? with
        | none => exact .nil
        | some old =>
          have hnodup := ht.distinct hold
          exact hnodup
      · exact ht.distinct hbase
    split
    · exact base.nodup_children_withChild block.id hnodup
    · exact hnodup

/--
`Tidy` survives `committed`: the block is no child of a tracked one, as its parent is accepted.
-/
theorem commit (ht : e.Tidy h) (ha : e.Arranged g h) {id : Hash} {entry : Tracked}
    {changes : Changes} (hfound : e.tracked[id]? = some entry)
    (hacceptable : acceptable id entry = .ok changes) :
    (e.committed id entry changes).Tidy (h.accept entry.block) where
  unrejected hx := by
    obtain ⟨-, old, hold, -⟩ := Arranged.of_getElem?_committed hx
    rw [Option.eq_none_iff_forall_ne_some]
    intro height hheight
    have hrejected := (getElem?_rejected_committed.1 hheight).1
    rw [ht.unrejected hold] at hrejected
    cases hrejected
  rejected hrejected := by
    have hrejected := (getElem?_rejected_committed.1 hrejected).1
    obtain ⟨hnamed, hnew⟩ := ht.rejected hrejected
    refine ⟨hnamed, List.forall_mem_cons.2 ⟨fun hid => ?_, hnew⟩⟩
    -- the block that is accepted was tracked, and so not rejected
    rw [← hid, (ha.tracked hfound).1, ht.unrejected hfound] at hrejected
    cases hrejected
  children {j c x} hx hc := by
    obtain ⟨hne, old, hold, -, hchildren, -⟩ := Arranged.of_getElem?_committed hx
    obtain ⟨child, hchild, hparent⟩ := ht.children hold (hchildren ▸ hc)
    have hcne : id ≠ c := fun hid => by
      rw [← hid, hfound] at hchild
      obtain rfl := Option.some.inj hchild
      obtain ⟨-, ⟨p, hp, hpid⟩, -⟩ := ha.checked hfound (acceptable_eq_ok_iff.1 hacceptable)
      exact (ha.tracked hold).2.2 p hp (hpid.trans hparent)
    rw [Arranged.getElem?_committed, if_neg hcne, hchild]
    refine ⟨_, rfl, ?_⟩
    split <;> exact hparent
  distinct hx := by
    obtain ⟨-, old, hold, -, hchildren, -⟩ := Arranged.of_getElem?_committed hx
    rw [hchildren]
    exact ht.distinct hold

/-- `Tidy` survives `forget`: the block leaves the list of its parent's children. -/
theorem forget (ht : e.Tidy h) (ha : e.Arranged g h) {id : Hash} {entry : Tracked}
    (hfound : e.tracked[id]? = some entry) : (e.forget id entry.block).Tidy h where
  unrejected {j x} hx := by
    rw [Arranged.getElem?_forget, Option.map_eq_some_iff] at hx
    obtain ⟨old, hold, -⟩ := hx
    rw [getElem?_rejected_forget]
    split at hold
    · cases hold
    · next hne =>
      rw [if_neg hne]
      exact ht.unrejected hold
  rejected {j height} hrejected := by
    rw [getElem?_rejected_forget] at hrejected
    split at hrejected
    · next hid =>
      obtain ⟨hbid, hmem, hnew⟩ := ha.tracked hfound
      obtain rfl := Option.some.inj hrejected
      subst hid
      exact ⟨⟨entry.block, hmem, hbid, rfl⟩, hnew⟩
    · exact ht.rejected hrejected
  children {j c x} hx hc := by
    rw [Arranged.getElem?_forget, Option.map_eq_some_iff] at hx
    obtain ⟨old, hold, rfl⟩ := hx
    split at hold
    · cases hold
    · next hne =>
      -- only the parent named the block that is forgotten, and does so no more
      have hmem : c ∈ old.children ∧ (entry.block.parentId = j → c ≠ id) := by
        split at hc
        · obtain ⟨hmem, hne⟩ := (old.mem_children_withoutChild id).1 hc
          exact ⟨hmem, fun _ => hne⟩
        · next hother => exact ⟨hc, fun hparent => absurd hparent hother⟩
      obtain ⟨child, hchild, hparent⟩ := ht.children hold hmem.1
      have hcne : id ≠ c := fun hid => by
        rw [← hid, hfound] at hchild
        obtain rfl := Option.some.inj hchild
        exact hmem.2 hparent hid.symm
      rw [Arranged.getElem?_forget, if_neg hcne, hchild]
      refine ⟨_, rfl, ?_⟩
      split <;> exact hparent
  distinct {j x} hx := by
    rw [Arranged.getElem?_forget, Option.map_eq_some_iff] at hx
    obtain ⟨old, hold, rfl⟩ := hx
    split at hold
    · cases hold
    · have hnodup := ht.distinct hold
      split
      · exact hnodup.filter _
      · exact hnodup

/-- `Engine.atRest` tracks and remembers nothing, and so is `Tidy`. -/
theorem atRest (g : Genesis) (h : History) (settings : Settings) (store : Store) (tip : Block) :
    (Engine.atRest g settings store tip).Tidy h := by
  have hnone {j : Hash} {x : Tracked}
      (hx : (Engine.atRest g settings store tip).tracked[j]? = some x) : False := by
    simp [Engine.atRest] at hx
  exact ⟨fun hx => (hnone hx).elim, fun hx => by simp [Engine.atRest] at hx,
    fun hx => (hnone hx).elim, fun hx => (hnone hx).elim⟩

/-- A `Transition` of a `Coherent` state keeps it `Tidy`. -/
theorem of_transition (ht : e.Tidy h) (hc : Coherent g h e) (htransition : Transition h e h' e')
    (hfree : h'.CollisionFree) : e'.Tidy h' := by
  have hrefl : h.blocks ⊆ h.blocks := fun _ hb => hb
  -- one case for each kind of transition, and then what the two states have in common
  cases htransition with
  | quiet same => exact ht.congr same hrefl rfl
  | name _ same | rename _ same | recheck _ _ same =>
    exact ht.congr same (h.blocks_subset_name _) rfl
  | track _ hnone hunrejected _ same =>
    exact (ht.track hnone hunrejected).congr same (fun _ hb => hb) rfl
  | attach hframed hunrejected _ hcheck same =>
    obtain ⟨-, hext, -⟩ := hc.checkBlock_eq_ok hcheck
    exact (ht.attach hc.arranged _ (fun _ => hc.sound.eq_of_named hframed hfree) hunrejected
      hext.1).congr same (fun _ hb => hb) rfl
  | commit hfound hacceptable same =>
    exact (ht.commit hc.arranged hfound hacceptable).congr same hrefl rfl
  | forget hfound same => exact (ht.forget hc.arranged hfound).congr same hrefl rfl
  | @prefer _ id _ same =>
    have hpreferred : Engine.Tidy h { e with preferred := id } :=
      ⟨ht.unrejected, ht.rejected, ht.children, ht.distinct⟩
    exact hpreferred.congr same hrefl rfl
  | reopen _ same => exact (Engine.Tidy.atRest _ h _ _ _).congr same hrefl rfl

end Engine.Tidy

/-- Every state of `Reach` is `Tidy`, as long as the hash tells the blocks apart. -/
theorem Reach.tidy (hreach : Reach g h e) (hfree : h.CollisionFree) : e.Tidy h := by
  refine hreach.invariant (P := fun h e => e.Tidy h) (fun _ _ e _ hstart => ?_)
    (fun _ _ _ _ _ hc ht htransition hfree => ht.of_transition hc htransition hfree) hfree
  obtain ⟨g', store, tip, rfl⟩ := Engine.eq_atRest_of_start (congrArg Prod.fst hstart)
  exact .atRest _ _ _ _ _

namespace Coherent

variable (hc : Coherent g h e) (hfree : h.CollisionFree)

include hc

/-- `find?` gives a block for the identifier of every accepted or tracked one. -/
theorem exists_find? {id : Hash} (hknown : e.isTracked id = true ∨ e.isStored id = true) :
    ∃ b ∈ h.blocks, b.id = id ∧ e.find? id = .ok (some b) := by
  -- a tracked block is found first, then the tip, then what is stored
  cases hentry : e.tracked[id]? with
  | some entry =>
    obtain ⟨hid, hmem, -⟩ := hc.arranged.tracked hentry
    exact ⟨entry.block, hmem, hid, by rw [Engine.find?, hentry]⟩
  | none =>
    have hstored : e.isStored id = true := hknown.resolve_left fun htracked => by
      obtain ⟨entry, h⟩ := Engine.isTracked_iff.1 htracked
      rw [hentry] at h
      cases h
    obtain ⟨b, hb, hid⟩ := hc.settled.isStored_iff.1 hstored
    have hmem := hc.sound.mem_blocks_of_mem_chain hb
    have hload : Engine.loadBlock e.store.entries id = .ok (some b) :=
      hid ▸ hc.settled.loadBlock_of_mem_chain hc.sound hb
    by_cases htip : e.lastAccepted.id = id
    · refine ⟨e.lastAccepted, hc.sound.mem_blocks_of_mem_chain hc.settled.tip_mem_chain, htip, ?_⟩
      simp only [Engine.find?, hentry, if_pos htip]
    · refine ⟨b, hmem, hid, ?_⟩
      simp only [Engine.find?, hentry, if_neg htip, hload]

include hfree

/-- A verified block `Extends` the block that `find?` gives for its parent. -/
theorem exists_extends {b : Block} (hb : b ∈ h.verified) (hne : b ≠ h.first)
    (hknown : e.isTracked b.parentId = true ∨ e.isStored b.parentId = true) :
    ∃ p, e.find? b.parentId = .ok (some p) ∧ b.Extends p := by
  obtain ⟨p, hp, hid, hfind⟩ := hc.exists_find? hknown
  exact ⟨p, hfind, hc.sound.extends_of_parentId hfree hb hne hp hid⟩

/-- A tracked block that is verified `Extends` the tracked block that it names. -/
theorem extends_of_tracked {id parentId : Hash} {entry parent : Tracked} {v : Verified}
    (hentry : e.tracked[id]? = some entry) (hv : entry.verified? = some v)
    (hparent : e.tracked[parentId]? = some parent) (hnames : parentId = entry.block.parentId) :
    entry.block.Extends parent.block := by
  obtain ⟨hid, hmem, -⟩ := hc.arranged.tracked hparent
  exact hc.sound.extends_of_parentId hfree (hc.arranged.checked hentry hv).1 (hc.ne_first hentry)
    hmem (hid.trans hnames)

/-- Heights are `Falling` along what changes stand on. -/
theorem falling : Engine.Falling e.tracked := by
  intro id belowId entry below v hentry hv hfooting hbelow
  obtain ⟨-, hfits, -⟩ := hc.arranged.checked hentry hv
  rw [hfooting] at hfits
  rw [(hc.extends_of_tracked hfree hentry hv hbelow hfits).2.1]
  exact Nat.lt_succ_self _

end Coherent

/-- The records of a state agree with each other. -/
structure Engine.Consistent (h : History) (e : Engine) : Prop where
  /-- No identifier is tracked and rejected, or tracked and stored, or rejected and stored. -/
  apart : ∀ id, ¬(e.isTracked id = true ∧ e.isRejected id = true) ∧
    ¬(e.isTracked id = true ∧ e.isStored id = true) ∧
    ¬(e.isRejected id = true ∧ e.isStored id = true)
  /-- The stored pointer leads to the last accepted block, which is stored. -/
  pointer : e.store.entries[StoreKey.lastAccepted]? = some e.lastAccepted.id.bytes ∧
    e.store.entries[StoreKey.block e.lastAccepted.id]? = some e.lastAccepted.bytes
  preferred : e.isTracked e.preferred = true ∨ e.preferred = e.lastAccepted.id
  /-- A block with changes was verified, and they stand on its parent or, if that is stored, on the
  durable store. -/
  footing : ∀ {id : Hash} {entry : Tracked} {v : Verified}, e.tracked[id]? = some entry →
    entry.verified? = some v → entry.block.id = id ∧ entry.block ∈ h.verified ∧
    match v.footing with
    | .durable => e.isStored entry.block.parentId = true
    | .block parentId => parentId = entry.block.parentId
  /-- A verified block other than the first is one higher and later than its parent, if that is
  tracked or stored. -/
  extending : ∀ {b : Block}, b ∈ h.verified → b ≠ h.first →
    e.isTracked b.parentId = true ∨ e.isStored b.parentId = true →
    ∃ p, e.find? b.parentId = .ok (some p) ∧ b.Extends p
  /-- Children are listed once, are tracked and name the entry's block as their parent. -/
  children : ∀ {id : Hash} {entry : Tracked}, e.tracked[id]? = some entry →
    entry.children.Nodup ∧ ∀ c ∈ entry.children, ∃ child, e.tracked[c]? = some child ∧
      child.block.id = c ∧ child.block.parentId = id
  /-- The walk over what changes stand on ends. -/
  layers : ∀ {id : Hash} {entry : Tracked}, e.tracked[id]? = some entry →
    Walk e.tracked entry (e.layers id)

/--
Every reachable state is `Consistent` with its history, as long as the hash tells the run's blocks
apart.
-/
theorem Reach.consistent (hreach : Reach g h e) (hfree : h.CollisionFree) : e.Consistent h := by
  have hc := hreach.coherent hfree
  have ht := hreach.tidy hfree
  constructor
  · -- the identifiers of tracked, rejected and stored blocks are apart, in pairs
    intro id
    refine ⟨fun ⟨htracked, hrejected⟩ => ?_, fun ⟨htracked, hstored⟩ => ?_,
      fun ⟨hrejected, hstored⟩ => ?_⟩
    · obtain ⟨entry, hentry⟩ := Engine.isTracked_iff.1 htracked
      exact Engine.rejected_eq_none_iff.1 (ht.unrejected hentry) hrejected
    · obtain ⟨entry, hentry⟩ := Engine.isTracked_iff.1 htracked
      obtain ⟨b, hb, hid⟩ := hc.settled.isStored_iff.1 hstored
      exact (hc.arranged.tracked hentry).2.2 b hb hid
    · obtain ⟨height, hheight⟩ := Engine.isRejected_iff.1 hrejected
      obtain ⟨b, hb, hid⟩ := hc.settled.isStored_iff.1 hstored
      exact (ht.rejected hheight).2 b hb hid
  · exact ⟨hc.settled.pointer, (hc.settled.stored _ _).2 ⟨_, hc.settled.tip_mem_chain, rfl, rfl⟩⟩
  · exact hc.arranged.preferred
  · intro id entry v hentry hv
    obtain ⟨hverified, hfits, -⟩ := hc.arranged.checked hentry hv
    refine ⟨(hc.arranged.tracked hentry).1, hverified, ?_⟩
    cases hfooting : v.footing with rw [hfooting] at hfits
    | durable => exact hc.settled.isStored_iff.2 hfits
    | block parentId => exact hfits
  · exact hc.exists_extends hfree
  · intro id entry hentry
    refine ⟨ht.distinct hentry, fun c hmem => ?_⟩
    obtain ⟨child, hchild, hparent⟩ := ht.children hentry hmem
    exact ⟨child, hchild, (hc.arranged.tracked hchild).1, hparent⟩
  · exact Engine.walk_layers (hc.falling hfree)

/-- `forked` is `Consistent`, with one of two siblings accepted and the other still tracked. -/
theorem Siblings.consistent_forked : forked.2.Consistent forked.1 :=
  reach_forked.consistent collisionFree_forked

end LeaseChain
