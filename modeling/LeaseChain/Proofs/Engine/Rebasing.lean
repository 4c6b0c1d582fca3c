import LeaseChain.Proofs.Engine.Acceptance
import LeaseChain.Proofs.Engine.Bookkeeping

/-!
# Acceptance and what the descendants of a block see

Acceptance carries a block's changes out on the store and lets the changes of its children stand
there. Which blocks are children it takes from a list, so that what descendants see depends on
whether the list names every block whose changes stand on it. That is not so of every tracked block:
one that is tracked again after it was rejected and forgotten may have lost children that were
verified before. `Engine.Anchored` says that this happens at heights only that are not accepted any
more, as long as only children of the last accepted block are.

## Key results

- `Reach.anchored`: a child is named by its parent, or its height is passed
- `Engine.exists_walks`: acceptance takes the farthest layer off the walks that pass the block
- `Reach.accept_keeps_views`: so that descendants see what they saw before
-/

namespace LeaseChain

/-- What the lists of children leave out. -/
structure Engine.Anchored (e : Engine) : Prop where
  /-- Where the changes of a tracked block stand on another, that one names the block as its child,
  or it was rejected, or the block is no higher than the next one to be accepted. -/
  named : ∀ {id parentId : Hash} {entry : Tracked} {v : Verified}, e.tracked[id]? = some entry →
    entry.verified? = some v → v.footing = .block parentId →
    (∃ parent, e.tracked[parentId]? = some parent ∧ id ∈ parent.children) ∨
    (∃ height, e.rejected[parentId]? = some height) ∨
    entry.block.height.toNat ≤ e.lastAccepted.height.toNat + 1

variable {g : Genesis} {h h' : History} {e e' : Engine}

namespace Engine.Anchored

theorem congr (ha : e.Anchored) (same : e.SameChain e') : e'.Anchored := by
  constructor
  intro id parentId entry v hentry hv hfooting
  rw [same.tracked] at hentry ⊢
  rw [same.rejected, same.lastAccepted]
  exact ha.named hentry hv hfooting

/-- `Anchored` survives that a block is tracked anew: it names no children. -/
theorem track (ha : e.Anchored) {block : Block} (hnone : e.tracked[block.id]? = none) :
    Anchored { e with tracked := e.tracked.insert block.id ⟨block, none, []⟩ } := by
  constructor
  intro id parentId entry v hentry hv hfooting
  simp only [getElem?_track] at hentry ⊢
  -- the new block has no changes yet, and what stood on another one still does
  split at hentry
  · obtain rfl := Option.some.inj hentry
    cases hv
  · rcases ha.named hentry hv hfooting with ⟨parent, hparent, hmem⟩ | hpassed
    · have hne : block.id ≠ parentId := by
        intro hid
        rw [← hid, hnone] at hparent
        cases hparent
      exact .inl ⟨parent, by rw [if_neg hne, hparent], hmem⟩
    · exact .inr hpassed

/-- `Anchored` survives `attach`: the block is named by the one that its changes stand on. -/
theorem attach (ha : e.Anchored) (harranged : e.Arranged g h) {block parent : Block} {v : Verified}
    (hsame : ∀ b ∈ h.blocks, b.id = block.id → b = block)
    (hfooting : v.footing = e.footingOn parent.id) : (e.attach block parent v).Anchored := by
  constructor
  intro id parentId entry w hentry hw hstands
  obtain ⟨⟨rfl, -, hv⟩ | ⟨-, old, hold, hblock, hv⟩, -⟩ :=
    harranged.of_getElem?_attach hsame hentry
  · -- the block itself stands on its parent, which is tracked then
    obtain rfl := Option.some.inj (hv.symm.trans hw)
    rw [hstands, footingOn] at hfooting
    split at hfooting
    · next htracked =>
      obtain rfl := Footing.block.inj hfooting
      obtain ⟨x, hx⟩ := isTracked_iff.1 htracked
      obtain ⟨y, hy, -, -, hmem⟩ := Tidy.exists_getElem?_attach hx block parent v
      exact .inl ⟨y, hy, hmem rfl⟩
    · cases hfooting
  · rw [hblock]
    rcases ha.named hold (hv.symm.trans hw) hstands with ⟨x, hx, hmem⟩ | hpassed
    · obtain ⟨y, hy, -, hsub, -⟩ := Tidy.exists_getElem?_attach hx block parent v
      exact .inl ⟨y, hy, hsub hmem⟩
    · exact .inr hpassed

/--
`Anchored` survives `committed`: rejected blocks that it forgets are no higher than the new tip.
-/
theorem commit (ha : e.Anchored) (hc : Coherent g h e) (ht : e.Tidy h) (hfree : h.CollisionFree)
    {id : Hash} {entry : Tracked} {changes : Changes} (hfound : e.tracked[id]? = some entry)
    (hacceptable : acceptable id entry = .ok changes)
    (hparent : entry.block.parentId = e.lastAccepted.id) :
    (e.committed id entry changes).Anchored := by
  have hheight : (e.committed id entry changes).lastAccepted.height.toNat =
      e.lastAccepted.height.toNat + 1 :=
    (hc.extends_tip hfree hfound (acceptable_eq_ok_iff.1 hacceptable) hparent).2.1
  constructor
  intro c parentId x w hx hw hstands
  obtain ⟨-, old, hold, hblock, -, hverified⟩ := Arranged.of_getElem?_committed hx
  obtain ⟨v, hv, -, hfooting⟩ := hverified hw
  rw [hstands] at hfooting
  split at hfooting
  · cases hfooting
  next hchild =>
  rw [hblock]
  rcases ha.named hold hv hfooting.symm with ⟨p, hp, hmem⟩ | ⟨height, hrejected⟩ | hlow
  · -- the block was not the parent, since the changes do not stand on the store now
    have hne : id ≠ parentId := fun hid => by
      rw [← hid, hfound] at hp
      exact hchild (Option.some.inj hp ▸ hmem)
    refine .inl ⟨if parentId ∈ entry.children then p.rebased else p, ?_, ?_⟩
    · rw [Arranged.getElem?_committed, if_neg hne, hp]
      rfl
    · split <;> exact hmem
  · by_cases hkept : entry.block.height < height
    · exact .inr (.inl ⟨height, getElem?_rejected_committed.2 ⟨hrejected, hkept⟩⟩)
    · -- the block is one higher than its parent, which was forgotten
      obtain ⟨⟨p, hp, hpid, rfl⟩, -⟩ := ht.rejected hrejected
      obtain ⟨hmem, hfits, -⟩ := hc.arranged.checked hold hv
      rw [← hfooting] at hfits
      have hext := hc.sound.extends_of_parentId hfree hmem (hc.ne_first hold) hp (hpid.trans hfits)
      have hpassed := UInt64.le_iff_toNat_le.1 (UInt64.not_lt.1 hkept)
      have hone := hext.2.1
      right; right
      show old.block.height.toNat ≤ entry.block.height.toNat + 1
      omega
  · right; right
    omega

/-- `Anchored` survives `forget`: what stood on the block stands on a rejected one. -/
theorem forget (ha : e.Anchored) (id : Hash) (block : Block) : (e.forget id block).Anchored := by
  constructor
  intro c parentId x v hx hv hstands
  -- the block forgotten is not the one looked at, since that one is still tracked
  have hne : id ≠ c := by
    rw [Arranged.getElem?_forget, Option.map_eq_some_iff] at hx
    obtain ⟨old, hold, -⟩ := hx
    intro hid
    rw [if_pos hid] at hold
    cases hold
  obtain ⟨old, hold, hblock, hverified, -⟩ := Arranged.of_getElem?_forget hx
  rw [hblock, getElem?_rejected_forget]
  -- a footing on the forgotten block itself is now a footing on a rejected one
  by_cases hid : id = parentId
  · exact .inr (.inl ⟨_, if_pos hid⟩)
  rw [if_neg hid]
  rcases ha.named hold (hverified ▸ hv) hstands with ⟨p, hp, hmem⟩ | hpassed
  · left
    rw [Arranged.getElem?_forget, if_neg hid, hp]
    -- the parent's entry may have lost a child, but not this one
    refine ⟨_, rfl, ?_⟩
    split
    · exact (p.mem_children_withoutChild id).2 ⟨hmem, Ne.symm hne⟩
    · exact hmem
  · exact .inr hpassed

/-- `Engine.atRest` tracks nothing, and so is `Anchored`. -/
theorem atRest (g : Genesis) (settings : Settings) (store : Store) (tip : Block) :
    (Engine.atRest g settings store tip).Anchored := by
  exact ⟨fun hentry => by simp [Engine.atRest] at hentry⟩

/-- `Anchored` survives every `Transition` of a run that is `Linear`. -/
theorem of_transition (ha : e.Anchored) (hc : Coherent g h e) (ht : e.Tidy h)
    (htransition : Transition h e h' e') (hfree : h'.CollisionFree) (hlinear : h'.Linear) :
    e'.Anchored := by
  -- one case for each kind of transition, and then what the two states have in common
  cases htransition with
  | quiet same | name _ same | rename _ same | recheck _ _ same => exact ha.congr same
  | track _ hnone _ _ same => exact (ha.track hnone).congr same
  | attach hframed _ _ hcheck same =>
    obtain ⟨-, -, -, -, -, -, -, -, hfooting⟩ := checkBlock_eq_ok_iff.1 hcheck
    exact (ha.attach hc.arranged (fun _ => hc.sound.eq_of_named hframed hfree) hfooting).congr same
  | commit hfound hacceptable same =>
    -- on one chain the accepted block is a child of the tip, which the bound on heights needs
    exact (ha.commit hc ht hfree hfound hacceptable (hc.parentId_of_linear hlinear)).congr same
  | forget _ same => exact (ha.forget _ _).congr same
  | @prefer _ id _ same =>
    have hpreferred : Anchored { e with preferred := id } := ⟨ha.named⟩
    exact hpreferred.congr same
  | reopen _ same => exact (Anchored.atRest _ _ _ _).congr same

end Engine.Anchored

/-- Every state of a `Linear` run is `Anchored`. -/
theorem Reach.anchored (hreach : Reach g h e) (hfree : h.CollisionFree) (hlinear : h.Linear) :
    e.Anchored := by
  refine hreach.invariant (P := fun h e => h.Linear → e.Anchored)
    (fun _ _ e _ hstart _ => ?_)
    (fun _ _ _ _ hreach hc ha htransition hfree hlinear => ?_) hfree hlinear
  · obtain ⟨g', store, tip, rfl⟩ := Engine.eq_atRest_of_start (congrArg Prod.fst hstart)
    exact .atRest _ _ _ _
  · have hfree' := hfree.of_subset (Coherent.blocks_subset_of_transition htransition)
    exact (ha (htransition.linear hlinear)).of_transition hc (hreach.tidy hfree') htransition hfree
      hlinear

namespace Engine

/-- The walk down from a tracked block passes another, or starts there. -/
inductive Passes (e : Engine) (id : Hash) : Hash → Prop where
  | here : Passes e id id
  | above {d below : Hash} {entry : Tracked} {v : Verified} (hentry : e.tracked[d]? = some entry)
      (hv : entry.verified? = some v) (hfooting : v.footing = .block below)
      (hpasses : Passes e id below) : Passes e id d

/-- After `rebased`, the `Walk` from an entry ends in its own changes. -/
theorem Walk.rebased {tracked : Std.ExtTreeMap Hash Tracked} {entry : Tracked} {v : Verified}
    (hv : entry.verified? = some v) : Walk tracked entry.rebased (.ok [v.changes]) :=
  @Walk.durable tracked entry.rebased { v with footing := .durable } (congrArg (Option.map _) hv)
    rfl

/-- An `accept` that commits leaves the `committed` state, but for the pool and reports. -/
theorem sameChain_accept {id : Hash} {entry : Tracked} {changes : Changes}
    (hfound : e.tracked[id]? = some entry) (hacceptable : acceptable id entry = .ok changes)
    (haccept : (e.accept id).1 = .ok ()) :
    (e.committed id entry changes).SameChain (e.accept id).2 := by
  simp only [accept, hfound, hacceptable] at haccept ⊢
  split at haccept
  · cases haccept
  next hunrejected =>
  rw [if_neg hunrejected]
  cases hrefusals : e.store.refusals with simp only [Store.commit, hrefusals] at haccept ⊢
  | zero => exact ⟨rfl, rfl, rfl, rfl, rfl, rfl⟩
  | succ refusals => cases haccept

section

variable (hc : Coherent g h e) (ht : e.Tidy h) (ha : e.Anchored) (hfree : h.CollisionFree)
  {id : Hash} {entry : Tracked} {changes : Changes} (hfound : e.tracked[id]? = some entry)
  (hacceptable : acceptable id entry = .ok changes)
  (hparent : entry.block.parentId = e.lastAccepted.id)

include hc ht ha hfree hfound hacceptable hparent

/--
A block that is accepted names exactly those blocks as its children whose changes stand on it.
-/
theorem mem_children_iff {d below : Hash} {x : Tracked} {v : Verified}
    (hx : e.tracked[d]? = some x) (hv : x.verified? = some v)
    (hfooting : v.footing = .block below) : d ∈ entry.children ↔ below = id := by
  obtain ⟨-, hfits, -⟩ := hc.arranged.checked hx hv
  rw [hfooting] at hfits
  constructor
  · -- a named child is tracked, and its parent is the block that names it
    intro hmem
    obtain ⟨child, hchild, hchildParent⟩ := ht.children hfound hmem
    obtain rfl := Option.some.inj (hx.symm.trans hchild)
    exact hfits.trans hchildParent
  · rintro rfl
    -- it is named, or its parent was rejected, or it is low enough to be passed over
    rcases ha.named hx hv hfooting with ⟨p, hp, hmem⟩ | ⟨height, hrejected⟩ | hlow
    · obtain rfl := Option.some.inj (hfound.symm.trans hp)
      exact hmem
    · rw [ht.unrejected hfound] at hrejected
      cases hrejected
    · -- a child of the block is two higher than the tip
      have hext := hc.extends_of_tracked hfree hx hv hfound hfits
      have htip := hc.extends_tip hfree hfound (acceptable_eq_ok_iff.1 hacceptable) hparent
      have hone := hext.2.1
      have htwo := htip.2.1
      omega

/--
`committed` takes the farthest layer off each `Walk` that `Passes` the block. The block itself is
not tracked any more, so that nothing is left of its own walk.
-/
theorem exists_walks {d : Hash} (hpasses : e.Passes id d) :
    ∃ front x, e.tracked[d]? = some x ∧ Walk e.tracked x (.ok (front ++ [changes])) ∧
      (id = d ∧ front = [] ∨ id ≠ d ∧ ∃ y, (e.committed id entry changes).tracked[d]? = some y ∧
        Walk (e.committed id entry changes).tracked y (.ok front)) := by
  have hdurable := acceptable_eq_ok_iff.1 hacceptable
  -- along the way down to the block, of which the last step alone is rebased
  induction hpasses with
  | here => exact ⟨[], entry, hfound, .durable hdurable rfl, .inl ⟨rfl, rfl⟩⟩
  | @above d below x v hx hv hfooting _ ih =>
    obtain ⟨front, xbelow, hbelow, hwalk, hafter⟩ := ih
    have hchild := mem_children_iff hc ht ha hfree hfound hacceptable hparent hx hv hfooting
    have hne : id ≠ d := by
      rintro rfl
      obtain rfl := Option.some.inj (hfound.symm.trans hx)
      obtain rfl := Option.some.inj (hdurable.symm.trans hv)
      cases hfooting
    have hy : (e.committed id entry changes).tracked[d]? =
        some (if d ∈ entry.children then x.rebased else x) := by
      rw [Arranged.getElem?_committed, if_neg hne, hx]
      rfl
    refine ⟨v.changes :: front, x, hx, .step hv hfooting hbelow hwalk, .inr ⟨hne, _, hy, ?_⟩⟩
    rcases hafter with ⟨hid, rfl⟩ | ⟨hid, y, hybelow, hywalk⟩
    · -- a child stands on the store now
      rw [if_pos (hchild.2 hid.symm)]
      exact .rebased hv
    · rw [if_neg fun hmem => hid (hchild.1 hmem).symm]
      exact .step hv hfooting hybelow hywalk

end

end Engine

/--
Where `accept` takes a child of the last accepted block, every block that `Passes` through it,
itself included, has a view before and after, and both views answer alike: `get?`, `has` and `scan`
for every key. The run has to be `Linear` so far, and the hash has to tell its blocks apart: of two
with one identifier, the lists of children cannot say which is meant.
-/
theorem Reach.accept_keeps_views (hreach : Reach g h e) (hfree : h.CollisionFree)
    (hlinear : h.Linear) {id : Hash} {entry : Tracked} (hfound : e.tracked[id]? = some entry)
    (haccept : (e.accept id).1 = .ok ()) (hparent : entry.block.parentId = e.lastAccepted.id)
    {d : Hash} (hpasses : e.Passes id d) :
    ∃ before after : View, e.viewFrom d = .ok before ∧ (e.accept id).2.viewFrom d = .ok after ∧
      (∀ key, after.get? key = before.get? key ∧ after.has key = before.has key) ∧
      ∀ start, after.scan start = before.scan start := by
  have hc := hreach.coherent hfree
  have ht := hreach.tidy hfree
  obtain ⟨changes, hacceptable⟩ := Engine.acceptable_of_accept hfound haccept
  have hsame := Engine.sameChain_accept hfound hacceptable haccept
  obtain ⟨front, x, hx, hwalk, hafter⟩ := Engine.exists_walks hc ht
    (hreach.anchored hfree hlinear) hfree hfound hacceptable hparent hpasses
  -- the layers are what the walk ends with, before and after
  have hbefore : e.layers d = .ok (front ++ [changes]) :=
    (Engine.walk_layers (hc.falling hfree) hx).unique hwalk
  have hlayers : (e.committed id entry changes).layers d = .ok front := by
    rcases hafter with ⟨rfl, rfl⟩ | ⟨-, y, hy, hywalk⟩
    · have hgone : (e.committed id entry changes).tracked[id]? = none := by
        rw [Engine.Arranged.getElem?_committed, if_pos rfl]
        rfl
      simp only [Engine.layers, hgone]
    · have hcommitted := hc.commit hfree hfound hacceptable
      exact (Engine.walk_layers (hcommitted.falling hfree) hy).unique hywalk
  have hagree := View.agreeOn_settled (fun _ => True) front changes e.store.entries
  refine ⟨⟨front ++ [changes], e.store.entries⟩, ⟨front, e.store.entries.apply changes⟩, ?_, ?_,
    fun key => ?_, fun start => hagree.scan_eq fun _ _ => trivial⟩
  · rw [Engine.viewFrom, hbefore]
    rfl
  · rw [hsame.viewFrom_eq, Engine.viewFrom, hlayers]
    rfl
  · have hkey := hagree key trivial
    exact ⟨hkey, congrArg Option.isSome hkey⟩

namespace Siblings

/-- A claim that refers to the left block. -/
def sequel : Transaction where
  unsigned := ⟨⟨key, left.id, 0, 0⟩, .claim "bar"⟩
  signature := claim.signature
  digest := hash 0x2cf8cdbd24706c658a3e9068a360112a398070a6c0dc0db892b986e86c90b80e
  id := hash 0x8ac7675d8f40a636ab96c314bd64cf2eaaf667c429ad2bfa0e411cdf6a5c1949
  digest_eq := by decide +kernel
  id_eq := by decide +kernel

/-- A child of the left block. -/
def upper : Block where
  content := ⟨left.id, 70, 2, 1, 0, [sequel]⟩
  bytes := frame ⟨left.id, 70, 2, 1, 0, [sequel]⟩
  id := hash 0xc86e809320508af4b26b51cc115b46ef69fdef460727a99a450f0e8dbdefb87f
  id_eq := by decide +kernel

theorem isFramed_upper : upper.IsFramed Engine.framing := Block.isFramed_iff.2 (by decide +kernel)

/-- The left block and its child are verified. -/
def stacked : History × Engine :=
  History.follow [(100, .verify left), (100, .verify upper)] (.start first, start)

theorem reach_stacked : Reach genesis stacked.1 stacked.2 := by
  refine reach_start.follow fun request hrequest => ?_
  simp only [List.mem_cons, List.not_mem_nil, or_false] at hrequest
  rcases hrequest with rfl | rfl
  · exact isFramed_left
  · exact isFramed_upper

/-- Nothing is accepted yet, and the changes of `upper` stand on those of `left`. -/
theorem stacked_eq : stacked.1 = ⟨first, [upper, left], [upper, left], []⟩ ∧
    left.parentId = stacked.2.lastAccepted.id ∧
    (stacked.2.tracked[left.id]?).map (·.block) = some left ∧
    ((stacked.2.tracked[upper.id]?).bind (·.verified?)).map (·.footing) = some (.block left.id) ∧
    (stacked.2.accept left.id).1 = .ok () := by
  decide +kernel

theorem collisionFree_stacked : stacked.1.CollisionFree := by
  rw [stacked_eq.1]
  exact CollisionFree.of_ids (·.id_eq) (by decide +kernel)

/-- `upper` sees the same before and after `left` is accepted. -/
theorem upper_sees_same : (stacked.2.accept left.id).1 = .ok () ∧
    ∃ before after : View, stacked.2.viewFrom upper.id = .ok before ∧
      (stacked.2.accept left.id).2.viewFrom upper.id = .ok after ∧
      (∀ key, after.get? key = before.get? key ∧ after.has key = before.has key) ∧
      ∀ start, after.scan start = before.scan start := by
  obtain ⟨hhistory, htip, hleft, hupper, haccept⟩ := stacked_eq
  obtain ⟨entry, hfound, hblock⟩ := Option.map_eq_some_iff.1 hleft
  obtain ⟨v, hv, hfooting⟩ := Option.map_eq_some_iff.1 hupper
  obtain ⟨x, hx, hv⟩ := Option.bind_eq_some_iff.1 hv
  have hlinear : stacked.1.Linear := by
    rw [hhistory, History.Linear]
    exact .singleton _
  have hparent : entry.block.parentId = stacked.2.lastAccepted.id := by
    rw [hblock]
    exact htip
  exact ⟨haccept, reach_stacked.accept_keeps_views collisionFree_stacked hlinear hfound haccept
    hparent (.above hx hv hfooting .here)⟩

end Siblings

end LeaseChain
