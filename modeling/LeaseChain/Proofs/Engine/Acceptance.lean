import LeaseChain.Proofs.Engine.Lineage

/-!
# When accepted blocks form one chain

Acceptance asks whether a block's changes stand on the durable store, and not whether its parent is
still the last accepted block. The parent is always accepted, the block is one higher than it and
later; but a second child of one parent is accepted after the first, unless consensus rejects it.
That is the only way off the chain: the accepted blocks form one chain exactly when no two of them
are siblings.

## Key results

- `History.Sound.isChain_iff`: one chain, or siblings
- `Reach.accept_extends_tip_iff`: what an accepted block extends
-/

namespace LeaseChain

namespace History

variable {g : Genesis} {h : History}

/-- `Extending` chains have a child in the chain for every block but the tip. -/
theorem Extending.eq_tip_or_exists_child {accepted older : List Block} {first tip p : Block}
    (hchain : Extending (accepted ++ [first])) (htip : accepted ++ [first] = tip :: older)
    (hp : p ∈ accepted ++ [first]) : p = tip ∨ ∃ a ∈ accepted, a.Extends p := by
  induction accepted generalizing tip older with
  | nil =>
    obtain ⟨rfl, -⟩ := List.cons.inj htip
    exact .inl (List.mem_singleton.1 hp)
  | cons b accepted ih =>
    obtain ⟨rfl, -⟩ := List.cons.inj htip
    rw [List.cons_append] at hchain hp
    rcases List.mem_cons.1 hp with rfl | hp
    · exact .inl rfl
    · obtain ⟨next, rest, hrest⟩ := List.exists_cons_of_ne_nil (List.ne_nil_of_mem hp)
      rcases ih hchain.tail hrest hp with rfl | ⟨a, ha, hext⟩
      · -- `p` heads the rest, so `b` is the block on top of it
        rw [hrest] at hchain
        exact .inr ⟨b, List.mem_cons_self, (List.isChain_cons_cons.1 hchain).1⟩
      · exact .inr ⟨a, List.mem_cons_of_mem b ha, hext⟩

namespace Sound

variable (hsound : h.Sound g) (hfree : h.CollisionFree)

include hsound

/-- `Extends` leads from every accepted block to one that was accepted before, or to the first. -/
theorem exists_parent {b : Block} {older : List Block} (hsuffix : b :: older <:+ h.accepted) :
    ∃ p ∈ older ++ [h.first], b.Extends p := by
  obtain ⟨newer, hnewer⟩ := hsuffix
  have hchain : b :: (older ++ [h.first]) <:+ h.chain := ⟨newer, by rw [chain, ← hnewer]; simp⟩
  rcases hsound.rooted b _ hchain with hnil | hparent
  · exact absurd hnil (by simp)
  · exact hparent

theorem subset_blocks {accepted : List Block} (hsuffix : accepted <:+ h.accepted) :
    accepted ++ [h.first] ⊆ h.blocks := by
  intro b hb
  refine hsound.mem_blocks_of_mem_chain ?_
  rcases List.mem_append.1 hb with hb | hb
  · exact List.mem_append_left _ (hsuffix.subset hb)
  · exact List.mem_append_right _ hb

include hfree

/-- On one chain, what extends an accepted block `Extends` the tip unless a sibling is accepted. -/
theorem extends_tip_iff {accepted older : List Block} (hsuffix : accepted <:+ h.accepted)
    {tip b : Block} (htip : accepted ++ [h.first] = tip :: older)
    (hchain : Extending (accepted ++ [h.first]))
    (hparent : ∃ p ∈ accepted ++ [h.first], b.Extends p) :
    b.Extends tip ↔ ∀ a ∈ accepted, b.parentId ≠ a.parentId := by
  have hsub := hsound.subset_blocks hsuffix
  have heights := hchain.pairwise_height
  rw [htip, List.pairwise_cons] at heights
  constructor
  · intro hext a ha hsibling
    -- a sibling on the chain would be above the tip
    obtain ⟨newer, behind, hsplit⟩ := List.append_of_mem ha
    obtain ⟨q, hq, hqext⟩ := hsound.exists_parent
      ((hsplit ▸ List.suffix_append newer (a :: behind) : a :: behind <:+ accepted).trans hsuffix)
    have hq : q ∈ accepted ++ [h.first] := by
      rw [hsplit, List.append_assoc]
      exact List.mem_append_right _ (List.mem_cons_of_mem _ hq)
    have hsame : q = tip := hfree.eq_of_id_eq hsound (hsub hq) (hsub (htip ▸ List.mem_cons_self))
      (by rw [← hqext.1, ← hsibling, hext.1])
    subst hsame
    have hmem : a ∈ q :: older := htip ▸ List.mem_append_left _ ha
    have hheight := hqext.2.1
    rcases List.mem_cons.1 hmem with rfl | hmem
    · omega
    · have := heights.1 a hmem
      omega
  · intro hnone
    obtain ⟨p, hp, hext⟩ := hparent
    rcases hchain.eq_tip_or_exists_child htip hp with rfl | ⟨a, ha, hchild⟩
    · exact hext
    · -- the block that is on the chain above the parent is a sibling
      exact absurd (hext.1.trans hchild.1.symm) (hnone a ha)

/-- `IsChain Extends` holds of the chain exactly when no two accepted blocks are siblings. -/
theorem isChain_iff :
    h.chain.IsChain Block.Extends ↔ h.accepted.Pairwise fun b a => b.parentId ≠ a.parentId := by
  -- one block after the other, from the oldest on: each keeps the chain or has a sibling on it
  have hall : ∀ accepted, accepted <:+ h.accepted → ((accepted ++ [h.first]).IsChain Block.Extends ↔
      accepted.Pairwise fun b a => b.parentId ≠ a.parentId) := by
    intro accepted
    induction accepted with
    | nil => exact fun _ => ⟨fun _ => .nil, fun _ => .singleton _⟩
    | cons b accepted ih =>
      intro hsuffix
      have hsuffix' : accepted <:+ h.accepted := (List.suffix_cons b accepted).trans hsuffix
      have hih := ih hsuffix'
      obtain ⟨tip, older, htip⟩ : ∃ tip older, accepted ++ [h.first] = tip :: older := by
        cases accepted with
        | nil => exact ⟨_, _, rfl⟩
        | cons tip accepted => exact ⟨_, _, rfl⟩
      have hparent := hsound.exists_parent hsuffix
      rw [List.pairwise_cons, List.cons_append, htip, List.isChain_cons_cons, ← htip, hih]
      constructor
      · rintro ⟨hext, hpairwise⟩
        exact ⟨(hsound.extends_tip_iff hfree hsuffix' htip (hih.2 hpairwise) hparent).1 hext,
          hpairwise⟩
      · rintro ⟨hnone, hpairwise⟩
        exact ⟨(hsound.extends_tip_iff hfree hsuffix' htip (hih.2 hpairwise) hparent).2 hnone,
          hpairwise⟩
  exact hall h.accepted (List.suffix_refl _)

end Sound

end History

/--
`accept` succeeds on a tracked block only if it is `acceptable`: its changes stand on the store.
-/
theorem Engine.acceptable_of_accept {e : Engine} {id : Hash} {entry : Tracked}
    (hfound : e.tracked[id]? = some entry) (haccept : (e.accept id).1 = .ok ()) :
    ∃ changes, acceptable id entry = .ok changes := by
  cases hchanges : acceptable id entry with
  | ok changes => exact ⟨changes, rfl⟩
  | error cause =>
    simp only [accept, hfound, hchanges] at haccept
    split at haccept <;> cases haccept

namespace Coherent

variable {g : Genesis} {h h' : History} {e e' : Engine} (hc : Coherent g h e)

include hc

/-- `Extends` holds of a verified block that names the last accepted one as its parent. -/
theorem extends_tip (hfree : h.CollisionFree) {id : Hash} {entry : Tracked} {v : Verified}
    (hfound : e.tracked[id]? = some entry) (hv : entry.verified? = some v)
    (hparent : entry.block.parentId = e.lastAccepted.id) : entry.block.Extends e.lastAccepted :=
  hc.sound.extends_of_parentId hfree (hc.arranged.checked hfound hv).1 (hc.ne_first hfound)
    (hc.sound.mem_blocks_of_mem_chain hc.settled.tip_mem_chain) hparent.symm

/-- `Linear` makes the block that is accepted a child of `lastAccepted`. -/
theorem parentId_of_linear {block : Block} (hlinear : (h.accept block).Linear) :
    block.parentId = e.lastAccepted.id := by
  obtain ⟨older, htip⟩ := hc.settled.tip
  have hchain : (h.accept block).chain = block :: e.lastAccepted :: older :=
    congrArg (block :: ·) htip
  rw [History.Linear, hchain] at hlinear
  exact (List.isChain_cons_cons.1 hlinear).1

/-- `Transition` only raises the tip while the chain stays `Linear`. -/
theorem height_le_of_transition (ht : Transition h e h' e') (hfree : h.CollisionFree)
    (hlinear : h'.Linear) : e.lastAccepted.height ≤ e'.lastAccepted.height := by
  cases ht with
  | quiet same | name _ same | rename _ same | track _ _ _ _ same | recheck _ _ same
  | attach _ _ _ _ same | forget _ same | prefer _ same =>
    rw [same.lastAccepted]
    exact UInt64.le_refl _
  | @commit _ id entry changes hfound hacceptable same =>
    -- the only step that moves the tip: the accepted block extends it, as the accepted blocks stay
    -- in a line
    have hext := hc.extends_tip hfree hfound (Engine.acceptable_eq_ok_iff.1 hacceptable)
      (hc.parentId_of_linear hlinear)
    have htip : e'.lastAccepted = entry.block := same.lastAccepted
    rw [htip, UInt64.le_iff_toNat_le, hext.2.1]
    exact Nat.le_succ _
  | reopen hstored same =>
    obtain ⟨-, rfl⟩ := hc.eq_of_storedState hstored
    have htip := same.lastAccepted
    rw [htip]
    exact UInt64.le_refl _

end Coherent

/--
A block that `accept` takes extends a block of `h.chain`. It extends `lastAccepted` exactly when
that is the parent it names. As long as `h.chain` is one chain of blocks that extend each other,
this is so exactly when no block of `h.accepted` names the same parent, and the chain goes on to be
one exactly when no two accepted blocks do.
-/
theorem Reach.accept_extends_tip_iff {g : Genesis} {h : History} {e : Engine}
    (hreach : Reach g h e) (hfree : h.CollisionFree) {id : Hash} {entry : Tracked}
    (hfound : e.tracked[id]? = some entry) (haccept : (e.accept id).1 = .ok ()) :
    (∃ p ∈ h.chain, entry.block.Extends p) ∧
    (entry.block.Extends e.lastAccepted ↔ entry.block.parentId = e.lastAccepted.id) ∧
    (h.chain.IsChain Block.Extends → (entry.block.Extends e.lastAccepted ↔
      ∀ a ∈ h.accepted, entry.block.parentId ≠ a.parentId)) ∧
    (h.chain.IsChain Block.Extends ↔
      h.accepted.Pairwise fun b a => b.parentId ≠ a.parentId) := by
  have hc := hreach.coherent hfree
  obtain ⟨changes, hchanges⟩ := Engine.acceptable_of_accept hfound haccept
  have hparent := hc.extends_of_acceptable hfree hfound hchanges
  obtain ⟨older, htip⟩ := hc.settled.tip
  refine ⟨hparent, ⟨fun hext => hext.1, fun hid => ?_⟩, fun hchain => ?_,
    hc.sound.isChain_iff hfree⟩
  · -- the accepted block that it extends is the one that it names
    obtain ⟨p, hp, hext⟩ := hparent
    have hsame : p = e.lastAccepted := hfree.eq_of_id_eq hc.sound
      (hc.sound.mem_blocks_of_mem_chain hp)
      (hc.sound.mem_blocks_of_mem_chain hc.settled.tip_mem_chain) (hext.1.symm.trans hid)
    exact hsame ▸ hext
  · exact hc.sound.extends_tip_iff hfree (List.suffix_refl _) htip hchain hparent

/-- `accept` takes the right of two siblings after the left one, and it is not on the chain. -/
theorem Siblings.accept_right :
    (forked.2.accept right.id).1 = .ok () ∧ forked.1.chain.IsChain Block.Extends ∧
    right.parentId ≠ forked.2.lastAccepted.id ∧ ¬right.Extends forked.2.lastAccepted ∧
    ∃ p ∈ forked.1.chain, right.Extends p := by
  have htracked : (forked.2.tracked[right.id]?).map (·.block) = some right := by decide +kernel
  obtain ⟨entry, hfound, hblock⟩ := Option.map_eq_some_iff.1 htracked
  have haccept : (forked.2.accept right.id).1 = .ok () := by decide +kernel
  have hchain : forked.1.chain.IsChain Block.Extends := by
    rw [history_forked]
    decide +kernel
  obtain ⟨hparent, hid, hsibling, -⟩ :=
    reach_forked.accept_extends_tip_iff collisionFree_forked hfound haccept
  rw [hblock] at hparent hid hsibling
  have hnot : ¬right.Extends forked.2.lastAccepted := by
    rw [hsibling hchain, history_forked]
    decide +kernel
  exact ⟨haccept, hchain, fun h => hnot (hid.2 h), hnot, hparent⟩

end LeaseChain
