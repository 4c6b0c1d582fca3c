import LeaseChain.Proofs.Engine.Lookback
import LeaseChain.Proofs.Engine.Pedigree
import LeaseChain.Proofs.Engine.Rebasing

/-!
# Live branches

A block is on a live branch if verified blocks lead from it, each to its parent, down to the last
accepted block. Where the run accepts one chain, the engine knows everything behind such a block and
finds what a child of it sees. Acceptance keeps that up by letting the children of the accepted
block stand on the store: no changes are left that stand on a block of the chain (`Engine.Afloat`).

## Key results

- `Engine.Reaches`, `Engine.Live`: the way down through verified blocks
- `Engine.Live.exists_lineage`: the lineage of a live block goes down to the chain, and is known
- `Reach.afloat`: what stands on a block stands on an undecided one
- `Reach.exists_viewFrom`: a child of a live block has a view
-/

namespace LeaseChain

variable {g : Genesis} {h h' : History} {e e' : Engine}

namespace Engine

/-- Verified blocks lead from a block, each to its parent, down to the target. -/
inductive Reaches (e : Engine) (target : Hash) : Hash → Prop where
  | here : Reaches e target target
  | step {id : Hash} {entry : Tracked} {v : Verified} (hentry : e.tracked[id]? = some entry)
      (hv : entry.verified? = some v) (hbelow : Reaches e target entry.block.parentId) :
      Reaches e target id

/-- Verified blocks lead from a block down to the last accepted one. -/
def Live (e : Engine) (id : Hash) : Prop := e.Reaches e.lastAccepted.id id

/-- `Reaches` survives where the blocks before the end stay tracked and verified. -/
theorem Reaches.mono {target id : Hash} (hreaches : e.Reaches target id)
    (hkept : ∀ {j : Hash} {entry : Tracked} {v : Verified}, e.tracked[j]? = some entry →
      entry.verified? = some v → j ≠ target → ∃ x w, e'.tracked[j]? = some x ∧
        x.block = entry.block ∧ x.verified? = some w) : e'.Reaches target id := by
  -- induction on the way down, which ends where the target is met
  induction hreaches with
  | here => exact .here
  | @step j entry v hentry hv _ ih =>
    by_cases hj : j = target
    · exact hj ▸ .here
    · obtain ⟨x, w, hx, hblock, hw⟩ := hkept hentry hv hj
      exact .step hx hw (by rw [hblock]; exact ih)

/-- What `Reaches` a tracked block is tracked. -/
theorem Reaches.exists_tracked {target id : Hash} (hreaches : e.Reaches target id)
    {entry : Tracked} (hentry : e.tracked[target]? = some entry) :
    ∃ x, e.tracked[id]? = some x := by
  cases hreaches with
  | here => exact ⟨entry, hentry⟩
  | step hx => exact ⟨_, hx⟩

theorem Arranged.tracked_tip (ha : e.Arranged g h) (hs : e.Settled g h) :
    e.tracked[e.lastAccepted.id]? = none := by
  rw [Option.eq_none_iff_forall_ne_some]
  intro entry hentry
  exact (ha.tracked hentry).2.2 _ hs.tip_mem_chain rfl

/-- `Live` blocks are tracked, or the last accepted one. -/
theorem Live.isTracked_or {id : Hash} (hlive : e.Live id) :
    e.isTracked id = true ∨ id = e.lastAccepted.id := by
  cases hlive with
  | here => exact .inr rfl
  | step hentry => exact .inl (isTracked_iff.2 ⟨_, hentry⟩)

/-- `Lineage` of a live block goes down to the chain, and all of it `IsKnown`. -/
theorem Live.exists_lineage (hc : Coherent g h e) (hlinear : h.Linear) {id : Hash}
    (hlive : e.Live id) :
    ∃ newer p path, newer ++ h.chain = p :: path ∧ p.id = id ∧ h.Lineage (p :: path) ∧
      (p = h.first ∨ p ∈ h.verified) ∧ ∀ a ∈ p :: path, e.IsKnown a.id := by
  -- induction on the way down: the tip has the chain, and each block the lineage of its parent
  induction hlive with
  | here =>
    obtain ⟨older, htip⟩ := hc.settled.tip
    refine ⟨[], e.lastAccepted, older, htip, rfl, htip ▸ hc.sound.lineage_chain hlinear,
      hc.sound.verified_of_mem_chain hc.settled.tip_mem_chain, fun a ha => ?_⟩
    exact hc.isKnown_of_mem_chain (htip ▸ ha)
  | @step j entry v hentry hv _ ih =>
    obtain ⟨newer, p, path, hpath, hpid, hl, -, hknown⟩ := ih
    obtain ⟨hid, hmem, -⟩ := hc.arranged.tracked hentry
    refine ⟨entry.block :: newer, entry.block, p :: path, by rw [List.cons_append, hpath], hid,
      .child hmem (hc.ne_first hentry) hpid.symm hl, .inr (hc.arranged.checked hentry hv).1,
      List.forall_mem_cons.2 ⟨.inl ?_, hknown⟩⟩
    exact isTracked_iff.2 ⟨entry, hid ▸ hentry⟩

/-- No changes stand on a block of the chain. -/
structure Afloat (h : History) (e : Engine) : Prop where
  undecided : ∀ {id below : Hash} {entry : Tracked} {v : Verified}, e.tracked[id]? = some entry →
    entry.verified? = some v → v.footing = .block below → ∀ b ∈ h.chain, b.id ≠ below

namespace Afloat

theorem congr (ha : e.Afloat h) (hchain : h'.chain = h.chain)
    (hkept : ∀ {id : Hash} {x : Tracked} {v : Verified}, e'.tracked[id]? = some x →
      x.verified? = some v → ∃ old, e.tracked[id]? = some old ∧ old.verified? = some v) :
    e'.Afloat h' := by
  refine ⟨fun hx hv hfooting => ?_⟩
  obtain ⟨old, hold, hv⟩ := hkept hx hv
  rw [hchain]
  exact ha.undecided hold hv hfooting

theorem of_same (ha : e.Afloat h) (same : e.SameChain e') (hchain : h'.chain = h.chain) :
    e'.Afloat h' :=
  ha.congr hchain fun hx hv => ⟨_, same.tracked ▸ hx, hv⟩

/-- `attach` lets a block stand on its parent where that is tracked, by `footingOn`. -/
theorem attach (ha : e.Afloat h) (harranged : e.Arranged g h) {block parent : Block}
    {v : Verified} (hsame : ∀ b ∈ h.blocks, b.id = block.id → b = block)
    (hfooting : v.footing = e.footingOn parent.id) :
    (e.attach block parent v).Afloat (h.verify block) := by
  refine ⟨fun {id below x w} hx hw hstands => ?_⟩
  obtain ⟨⟨-, -, hv⟩ | ⟨-, old, hold, -, hv⟩, -⟩ := harranged.of_getElem?_attach hsame hx
  · -- the block verified just now rests on `parent`: a footing on a block, and not on the durable
    -- state, means that `parent` is tracked
    obtain rfl := Option.some.inj (hv.symm.trans hw)
    rw [hstands, footingOn] at hfooting
    split at hfooting
    · next htracked =>
      obtain rfl := Footing.block.inj hfooting
      obtain ⟨y, hy⟩ := isTracked_iff.1 htracked
      exact (harranged.tracked hy).2.2
    · cases hfooting
  · exact ha.undecided hold (hv.symm.trans hw) hstands

/--
`committed` lets what stood on the accepted block stand on the store, as the block names its
`children`.
-/
theorem commit (ha : e.Afloat h) (hc : Coherent g h e) (ht : e.Tidy h) (hanchored : e.Anchored)
    (hfree : h.CollisionFree) {id : Hash} {entry : Tracked} {changes : Changes}
    (hfound : e.tracked[id]? = some entry) (hacceptable : acceptable id entry = .ok changes)
    (hparent : entry.block.parentId = e.lastAccepted.id) :
    (e.committed id entry changes).Afloat (h.accept entry.block) := by
  refine ⟨fun {j below x w} hx hw hstands => ?_⟩
  obtain ⟨-, old, hold, -, -, hverified⟩ := Arranged.of_getElem?_committed hx
  obtain ⟨v, hv, -, hfooting⟩ := hverified hw
  rw [hstands] at hfooting
  split at hfooting
  · cases hfooting
  · -- what is not a child of the accepted block does not stand on it
    next hchild =>
    refine List.forall_mem_cons.2 ⟨?_, ha.undecided hold hv hfooting.symm⟩
    rw [(hc.arranged.tracked hfound).1]
    intro hid
    exact hchild ((mem_children_iff hc ht hanchored hfree hfound hacceptable hparent hold hv
      hfooting.symm).2 hid.symm)

/-- `Transition` keeps a state `Afloat` while the chain stays linear. -/
theorem of_transition (ha : e.Afloat h) (hc : Coherent g h e) (ht : e.Tidy h)
    (hanchored : e.Anchored) (htransition : Transition h e h' e') (hfree : h'.CollisionFree)
    (hlinear : h'.Linear) : e'.Afloat h' := by
  -- one case for each kind of transition; only `attach` and `commit` touch what changes stand on
  cases htransition with
  | quiet same | name _ same | rename _ same | recheck _ _ same => exact ha.of_same same rfl
  | track _ _ _ _ same =>
    refine ha.congr rfl fun {id x v} hx hv => ?_
    rw [same.tracked] at hx
    simp only [getElem?_track] at hx
    split at hx
    · obtain rfl := Option.some.inj hx
      cases hv
    · exact ⟨x, hx, hv⟩
  | attach hframed _ _ hcheck same =>
    obtain ⟨-, -, -, -, -, -, -, -, hfooting⟩ := checkBlock_eq_ok_iff.1 hcheck
    exact (ha.attach hc.arranged (fun _ => hc.sound.eq_of_named hframed hfree) hfooting).of_same
      same rfl
  | commit hfound hacceptable same =>
    exact (ha.commit hc ht hanchored hfree hfound hacceptable
      (hc.parentId_of_linear hlinear)).of_same same rfl
  | forget _ same =>
    refine ha.congr rfl fun {id x v} hx hv => ?_
    rw [same.tracked] at hx
    obtain ⟨old, hold, -, hverified, -⟩ := Arranged.of_getElem?_forget hx
    exact ⟨old, hold, hverified.symm.trans hv⟩
  | prefer _ same => exact ha.congr rfl fun hx hv => ⟨_, same.tracked ▸ hx, hv⟩
  | reopen _ same =>
    refine ha.congr rfl fun {id x v} hx hv => ?_
    rw [same.tracked] at hx
    simp [atRest] at hx

end Afloat

end Engine

/-- `Afloat` holds along every run that accepts one chain. -/
theorem Reach.afloat (hreach : Reach g h e) (hfree : h.CollisionFree) (hlinear : h.Linear) :
    e.Afloat h := by
  refine hreach.invariant (P := fun h e => h.Linear → e.Afloat h) (fun _ _ e _ hstart _ => ?_)
    (fun _ _ _ _ hreach hc ha htransition hfree hlinear => ?_) hfree hlinear
  · obtain ⟨g', store, tip, rfl⟩ := Engine.eq_atRest_of_start (congrArg Prod.fst hstart)
    exact ⟨fun hx => by simp [Engine.atRest] at hx⟩
  · have hfree' := hfree.of_subset (Coherent.blocks_subset_of_transition htransition)
    have hlinear' := htransition.linear hlinear
    exact (ha hlinear').of_transition hc (hreach.tidy hfree') (hreach.anchored hfree' hlinear')
      htransition hfree hlinear

/-- `footing` of a block on a live branch is what verification lets it stand on now. -/
theorem Coherent.footing_eq (hc : Coherent g h e) (ha : e.Afloat h) {id : Hash} {entry : Tracked}
    {v : Verified} (hentry : e.tracked[id]? = some entry) (hv : entry.verified? = some v)
    (hlive : e.Live entry.block.parentId) : v.footing = e.footingOn entry.block.parentId := by
  obtain ⟨-, hfits, -⟩ := hc.arranged.checked hentry hv
  rw [Engine.footingOn]
  cases hfooting : v.footing with rw [hfooting] at hfits
  | durable =>
    -- the parent is on the chain, and not tracked
    obtain ⟨p, hp, hpid⟩ := hfits
    refine (if_neg fun htracked => ?_).symm
    obtain ⟨x, hx⟩ := Engine.isTracked_iff.1 htracked
    exact (hc.arranged.tracked hx).2.2 p hp hpid
  | block below =>
    obtain rfl : below = entry.block.parentId := hfits
    refine (if_pos (hlive.isTracked_or.resolve_right fun htip => ?_)).symm
    exact ha.undecided hentry hv hfooting _ hc.settled.tip_mem_chain htip.symm

/-- `Walk` over what changes stand on leads from a live block down to the store. -/
theorem Coherent.exists_walk (hc : Coherent g h e) (ha : e.Afloat h) {id : Hash}
    (hlive : e.Live id) {entry : Tracked} (hentry : e.tracked[id]? = some entry) :
    ∃ layers, Engine.Walk e.tracked entry (.ok layers) := by
  -- induction on the way down; what stands on the store ends the walk early
  induction hlive generalizing entry with
  | here =>
    rw [hc.arranged.tracked_tip hc.settled] at hentry
    cases hentry
  | @step j x v hx hv hbelow ih =>
    obtain rfl := Option.some.inj (hx.symm.trans hentry)
    have hfooting := hc.footing_eq ha hx hv hbelow
    rw [Engine.footingOn] at hfooting
    split at hfooting
    · next htracked =>
      obtain ⟨below, hparent⟩ := Engine.isTracked_iff.1 htracked
      obtain ⟨layers, hwalk⟩ := ih hparent
      exact ⟨_, .step hv hfooting hparent hwalk⟩
    · exact ⟨_, .durable hv hfooting⟩

/-- `viewFrom` gives a view to a child of a live block, along every run that accepts one chain. -/
theorem Reach.exists_viewFrom (hreach : Reach g h e) (hfree : h.CollisionFree) (hlinear : h.Linear)
    {id : Hash} (hlive : e.Live id) : ∃ view, e.viewFrom id = .ok view := by
  have hc := hreach.coherent hfree
  cases hentry : e.tracked[id]? with
  | none =>
    refine ⟨⟨[], e.store.entries⟩, ?_⟩
    simp only [Engine.viewFrom, Engine.layers, hentry]
    rfl
  | some entry =>
    obtain ⟨layers, hwalk⟩ := hc.exists_walk (hreach.afloat hfree hlinear) hlive hentry
    have hlayers := (Engine.walk_layers (hc.falling hfree) hentry).unique hwalk
    exact ⟨⟨layers, e.store.entries⟩, by rw [Engine.viewFrom, hlayers]; rfl⟩

end LeaseChain
