import LeaseChain.Proofs.Engine.Pedigree

/-!
# The durable store is a replay

Where consensus accepts one chain, the durable store is a function of it: the genesis state, and
then each block executed directly on the table. The engine executes a block long before it is
accepted, on layers of changes of blocks that are undecided then. The invariant is about the blocks
with a path to the chain: their changes are what they do to the replay of that path. Accepting a
block moves it from the path to the chain, which leaves the replay of both together as it is.

## Key results

- `Table.replay`: the table that a chain leaves
- `Engine.Replayed.flatten_viewFrom`: what a block sees is the replay of its path
- `Reach.store_eq_replay`: the store is the replay of the accepted blocks
-/

namespace LeaseChain

namespace Table

/-- The table that a chain leaves: the genesis state, and then each block executed on it. -/
def replay (g : Genesis) (blocks : List Block) : Except EngineError (Table Bytes) := do
  let (_, changes) ← Engine.genesisState g
  runBlocks g (Table.apply ∅ changes) blocks

/-- `replay` goes block by block, the newest one last. -/
theorem replay_concat (g : Genesis) (blocks : List Block) (block : Block) :
    replay g (blocks ++ [block]) = (replay g blocks >>= fun table => runBlock g table block) := by
  unfold replay
  cases Engine.genesisState g with
  | error cause => rfl
  | ok state =>
    simp only [Except.ok_bind, runBlocks_append, runBlocks_singleton]

end Table

open Table (replay runBlock)

/-- The store is the replay of the chain, and a block changes what the replay of its path leaves. -/
structure Engine.Replayed (g : Genesis) (h : History) (e : Engine) : Prop where
  stored : replay g h.accepted.reverse = .ok e.store.entries
  staged : ∀ {id : Hash} {entry : Tracked} {v : Verified}, e.tracked[id]? = some entry →
    entry.verified? = some v → ∀ newer, h.Lineage (entry.block :: (newer ++ h.chain)) →
    ∃ table, replay g (newer ++ h.accepted).reverse = .ok table ∧
      runBlock g table entry.block = .ok (table.apply v.changes)

/-- What verified blocks stage stands in a relation to the replays of their paths. -/
structure Engine.StagesOn (g : Genesis) (h : History) (e : Engine)
    (q : Table Bytes → Block → Changes → Prop) : Prop where
  staged : ∀ {id : Hash} {entry : Tracked} {v : Verified}, e.tracked[id]? = some entry →
    entry.verified? = some v → ∀ newer, h.Lineage (entry.block :: (newer ++ h.chain)) →
    ∃ table, replay g (newer ++ h.accepted).reverse = .ok table ∧ q table entry.block v.changes

variable {g : Genesis} {h h' : History} {e e' : Engine} {entry : Tracked}

namespace History

/-- `newer ++ h.chain` starts with a block. -/
theorem exists_front (h : History) (newer : List Block) :
    ∃ p path, newer ++ h.chain = p :: path := by
  cases newer with
  | cons q newer => exact ⟨_, _, rfl⟩
  | nil =>
    unfold chain
    cases h.accepted with
    | nil => exact ⟨_, _, rfl⟩
    | cons b accepted => exact ⟨_, _, rfl⟩

/-- A path in front of `h.chain` that starts with an accepted block is empty. -/
theorem eq_nil_of_front_mem_chain {p : Block} {newer path : List Block}
    (hids : ((newer ++ h.chain).map (·.id)).Nodup) (hpath : newer ++ h.chain = p :: path)
    {a : Block} (ha : a ∈ h.chain) (hid : a.id = p.id) : newer = [] := by
  cases newer with
  | nil => rfl
  | cons q newer =>
    obtain ⟨rfl, -⟩ := List.cons.inj hpath
    rw [List.cons_append, List.map_cons, List.nodup_cons] at hids
    refine absurd ?_ hids.1
    exact hid ▸ List.mem_map_of_mem (List.mem_append_right newer ha)

/-- A `Lineage` of a block that was verified before is one from before. -/
theorem Lineage.of_later (hreach : Reach g h e) (hfree : h'.CollisionFree) (hsound : h'.Sound g)
    (hfirst : h'.first = h.first) (hsub : h.blocks ⊆ h'.blocks) {b : Block} {path : List Block}
    (hb : b = h.first ∨ b ∈ h.verified) (hl : h'.Lineage (b :: path)) : h.Lineage (b :: path) := by
  -- it had a lineage before, which is one afterwards too, and there is only one
  obtain ⟨path', hp⟩ := hreach.pedigree (hfree.of_subset hsub) b hb
  obtain rfl := hl.unique hfree hsound (hp.lineage.mono hfirst hsub)
  exact hp.lineage

end History

/-- A tracked block is in front of `h.chain`, not on it. -/
theorem Engine.Arranged.eq_cons_of_front (ha : e.Arranged g h) {id : Hash}
    (hentry : e.tracked[id]? = some entry) {newer path : List Block}
    (hpath : newer ++ h.chain = entry.block :: path) :
    ∃ front, newer = entry.block :: front ∧ front ++ h.chain = path := by
  cases newer with
  | nil =>
    -- a tracked block is not on the chain, so it stands in `newer`
    obtain ⟨hid, -, hnew⟩ := ha.tracked hentry
    have hchain : entry.block ∈ h.chain := by
      rw [← List.nil_append h.chain, hpath]
      exact List.mem_cons_self
    exact absurd hid (hnew _ hchain)
  | cons q front =>
    obtain ⟨rfl, hrest⟩ := List.cons.inj hpath
    exact ⟨front, rfl, hrest⟩

namespace Engine.Replayed

variable (hr : e.Replayed g h) (hreach : Reach g h e) (hfree : h.CollisionFree)

include hr hreach hfree

/-- What `layersFrom` gives for a tracked block shows the `replay` of the path up to the block. -/
theorem flatten_layersFrom {limit : Nat} {id : Hash} {entry : Tracked} {newer : List Block}
    {layers : List Changes} (hentry : e.tracked[id]? = some entry)
    (hl : h.Lineage (entry.block :: (newer ++ h.chain)))
    (hlayers : layersFrom e.tracked limit entry = .ok layers) :
    replay g (entry.block :: (newer ++ h.accepted)).reverse =
      .ok (View.flatten ⟨layers, e.store.entries⟩) := by
  have hc := hreach.coherent hfree
  -- along the layers, which go through one tracked block each
  induction limit generalizing id entry newer layers with
  | zero => cases hlayers
  | succ limit ih =>
    obtain ⟨v, hv, hcases⟩ := layersFrom_eq_ok hlayers
    obtain ⟨table, htable, hrun⟩ := hr.staged hentry hv newer hl
    rw [List.reverse_cons, Table.replay_concat, htable, Except.ok_bind, hrun]
    obtain ⟨hverified, hfits, -⟩ := hc.arranged.checked hentry hv
    have hpedigree := hreach.pedigree_of_lineage hfree (.inr hverified) hl
    -- the path starts with the parent, which is what the changes stand on
    obtain ⟨p, path, hpath⟩ := h.exists_front newer
    rw [hpath] at hl hpedigree
    obtain ⟨hparent, hrest⟩ := hl.parent_eq
    rcases hcases with ⟨hfooting, rfl⟩ | ⟨parentId, below, rest, hfooting, hbelow, hdeeper, rfl⟩
    · -- the parent is on the chain, so that there is nothing in front of the chain
      rw [hfooting] at hfits
      obtain ⟨a, ha, haid⟩ := hfits
      have hids : ((newer ++ h.chain).map (·.id)).Nodup := by
        rw [hpath]
        exact History.nodup_ids hfree hc.sound hrest.mem_blocks hpedigree.extending.tail
      obtain rfl := History.eq_nil_of_front_mem_chain hids hpath ha (haid.trans hparent)
      obtain rfl := Except.ok.inj (htable.symm.trans hr.stored)
      rfl
    · -- the parent is tracked, and the rest of the layers show the replay up to it
      rw [hfooting] at hfits
      obtain ⟨hbid, hbmem, -⟩ := hc.arranged.tracked hbelow
      obtain rfl : below.block = p := hfree.eq_of_id_eq hc.sound hbmem
        (hrest.mem_blocks List.mem_cons_self) (hbid.trans (hfits.trans hparent))
      obtain ⟨front, rfl, rfl⟩ := hc.arranged.eq_cons_of_front hbelow hpath
      have hbelow' := ih hbelow hrest hdeeper
      obtain rfl := Except.ok.inj (htable.symm.trans hbelow')
      rfl

/--
What `viewFrom` gives for a child of an open block is the `replay` of the path up to that block.
-/
theorem flatten_viewFrom {block parent : Block} {newer path : List Block} {view : View}
    (hopen : e.openParent block = .ok parent) (hpath : newer ++ h.chain = parent :: path)
    (hl : h.Pedigree parent path) (hview : e.viewFrom block.parentId = .ok view) :
    replay g (newer ++ h.accepted).reverse = .ok view.flatten := by
  have hc := hreach.coherent hfree
  obtain ⟨hid, hmem, hparent⟩ := hc.openParent_eq_ok hopen
  obtain ⟨layers, hlayers, hview⟩ := Except.bind_eq_ok_iff.1 hview
  obtain rfl := Except.ok.inj hview
  rcases hparent with ⟨entry, hentry, rfl⟩ | ⟨hnone, rfl⟩
  · -- the layers of a tracked parent are those of the path that starts with it
    simp only [Engine.layers, hentry] at hlayers
    obtain ⟨front, rfl, rfl⟩ := hc.arranged.eq_cons_of_front hentry hpath
    exact hr.flatten_layersFrom hreach hfree hentry hl.lineage hlayers
  · -- there are no layers over the tip, and no blocks in front of the chain
    simp only [Engine.layers, hnone] at hlayers
    obtain rfl := Except.ok.inj hlayers
    have hids : ((newer ++ h.chain).map (·.id)).Nodup := by
      rw [hpath]
      exact History.nodup_ids hfree hc.sound hl.lineage.mem_blocks hl.extending
    obtain rfl := History.eq_nil_of_front_mem_chain hids hpath hc.settled.tip_mem_chain rfl
    exact hr.stored

end Engine.Replayed

namespace Engine.StagesOn

variable {q : Table Bytes → Block → Changes → Prop} (hs : e.StagesOn g h q)

include hs

/-- `StagesOn` survives where blocks keep their changes. -/
theorem congr (haccepted : h'.accepted = h.accepted) (hfirst : h'.first = h.first)
    (hkept : ∀ {id : Hash} {x : Tracked} {v : Verified}, e'.tracked[id]? = some x →
      x.verified? = some v → ∃ old, e.tracked[id]? = some old ∧ x.block = old.block ∧
        old.verified? = some v)
    (hlineage : ∀ {id : Hash} {old : Tracked} {v : Verified} {path : List Block},
      e.tracked[id]? = some old → old.verified? = some v → h'.Lineage (old.block :: path) →
        h.Lineage (old.block :: path)) : e'.StagesOn g h' q := by
  have hchain : h'.chain = h.chain := by rw [History.chain, haccepted, hfirst, History.chain]
  refine ⟨fun hx hv newer hl => ?_⟩
  obtain ⟨old, hold, hblock, hv⟩ := hkept hx hv
  rw [hblock, hchain] at hl
  rw [hblock, haccepted]
  exact hs.staged hold hv newer (hlineage hold hv hl)

theorem of_same (same : e.SameChain e') : e'.StagesOn g h q :=
  hs.congr rfl rfl (fun hx hv => ⟨_, same.tracked ▸ hx, rfl, hv⟩) fun _ _ hl => hl

omit hs in
/-- What `checkBlock` gives for a block is its effect on the `replay` of its path. -/
theorem of_checkBlock (hr : e.Replayed g h) (hreach : Reach g h e) (hfree : h.CollisionFree)
    (hq : ∀ {block : Block} {view : View} {changes : Changes},
      block.effect g view = .ok changes → q view.flatten block changes) {clock : UInt64}
    {block parent : Block} {v : Verified} (hcheck : e.checkBlock clock block = .ok (parent, v))
    {newer path : List Block} (hpath : newer ++ h.chain = parent :: path)
    (hl : h.Lineage (parent :: path)) :
    ∃ table, replay g (newer ++ h.accepted).reverse = .ok table ∧ q table block v.changes := by
  have hc := hreach.coherent hfree
  obtain ⟨hparent, -⟩ := hc.checkBlock_eq_ok hcheck
  -- the block's effect is over the view below it, which flattens to the replay of the path
  obtain ⟨hopen, -, context, view, -, -, hview, hexecute, -⟩ :=
    Engine.checkBlock_eq_ok_iff.1 hcheck
  rw [hc.settled.genesis] at hexecute
  have hpedigree := hreach.pedigree_of_lineage hfree hparent hl
  exact ⟨view.flatten, hr.flatten_viewFrom hreach hfree hopen hpath hpedigree hview,
    hq (Block.execute_eq_ok_iff.1 hexecute).2.2⟩

/-- `StagesOn` survives `attach`: a block that was just verified joins in. -/
theorem attach (hr : e.Replayed g h) (hreach : Reach g h e)
    (hq : ∀ {block : Block} {view : View} {changes : Changes},
      block.effect g view = .ok changes → q view.flatten block changes)
    {block parent : Block} {v : Verified} (hfree : (h.name block).CollisionFree)
    (hsound : (h.verify block).Sound g) (hframed : block.IsFramed Engine.framing) {clock : UInt64}
    (hcheck : e.checkBlock clock block = .ok (parent, v)) :
    (e.attach block parent v).StagesOn g (h.verify block) q := by
  have hsub := h.blocks_subset_name block
  have hfree' : h.CollisionFree := hfree.of_subset hsub
  have hverify : (h.verify block).CollisionFree := hfree
  have hc := hreach.coherent hfree'
  refine ⟨fun {id x w} hx hw newer hl => ?_⟩
  obtain ⟨⟨-, hxblock, hv⟩ | ⟨-, old, hold, hxblock, hv⟩, -⟩ :=
    hc.arranged.of_getElem?_attach (fun _ => hc.sound.eq_of_named hframed hfree) hx
  · -- the block itself: its path starts with its parent
    obtain rfl := Option.some.inj (hv.symm.trans hw)
    rw [hxblock] at hl ⊢
    obtain ⟨hparent, hext, -, -⟩ := hc.checkBlock_eq_ok hcheck
    obtain ⟨p, path, hpath⟩ := h.exists_front newer
    have hl : (h.verify block).Lineage (block :: p :: path) := hpath ▸ hl
    obtain ⟨hpid, hrest⟩ := hl.parent_eq
    obtain rfl : p = parent := hfree.eq_of_id_eq (hc.sound.name hframed)
      (hrest.mem_blocks List.mem_cons_self) (hsub (hc.sound.mem_blocks_of_verified hparent))
      (hpid.symm.trans hext.1)
    exact of_checkBlock hr hreach hfree' hq hcheck hpath
      (hrest.of_later hreach hverify hsound rfl hsub hparent)
  · -- another block, which was verified before
    rw [hxblock] at hl ⊢
    rw [hv] at hw
    have hverified := (hc.arranged.checked hold hw).1
    exact hs.staged hold hw newer
      (hl.of_later hreach hverify hsound rfl hsub (.inr hverified))

/-- `StagesOn` survives `committed`, which moves a child of the tip from every path to the chain. -/
theorem commit {id : Hash} {changes : Changes} :
    (e.committed id entry changes).StagesOn g (h.accept entry.block) q := by
  refine ⟨fun {j x w} hx hw newer hl => ?_⟩
  -- the changes are what they were, whether the block is a child or not
  obtain ⟨-, old, hold, hblock, -, hverified⟩ := Engine.Arranged.of_getElem?_committed hx
  obtain ⟨v, hold', hchanges, -⟩ := hverified hw
  rw [hblock] at hl ⊢
  -- the accepted block goes from the end of the path to the front of the chain
  have hsplit {α : Type} (rest : List α) (newer : List α) (a : α) :
      newer ++ a :: rest = (newer ++ [a]) ++ rest := by simp
  have hl : h.Lineage (old.block :: (newer ++ entry.block :: h.chain)) :=
    hl.mono rfl fun _ hb => hb
  show ∃ table, replay g (newer ++ entry.block :: h.accepted).reverse = .ok table ∧ _
  rw [hsplit] at hl ⊢
  exact hchanges ▸ hs.staged hold hold' _ hl

/-- `StagesOn` survives a `Transition` of a run that is `Linear`. -/
theorem of_transition (hr : e.Replayed g h) (hreach : Reach g h e)
    (hq : ∀ {block : Block} {view : View} {changes : Changes},
      block.effect g view = .ok changes → q view.flatten block changes)
    (ht : Transition h e h' e') (hfree : h'.CollisionFree) : e'.StagesOn g h' q := by
  obtain ⟨hfirst, hsub, -⟩ := ht.verified_cases
  have hfree' : h.CollisionFree := hfree.of_subset hsub
  have hc := hreach.coherent hfree'
  have hsound' := (hc.of_transition ht hfree).sound
  -- what was verified before has the lineages that it had before
  have hlineage {id : Hash} {old : Tracked} {v : Verified} {path : List Block}
      (hold : e.tracked[id]? = some old) (hv : old.verified? = some v)
      (hl : h'.Lineage (old.block :: path)) : h.Lineage (old.block :: path) :=
    hl.of_later hreach hfree hsound' hfirst hsub (.inr (hc.arranged.checked hold hv).1)
  -- one case for each kind of transition; what is tracked without changes stages nothing
  cases ht with
  | quiet same | name _ same | rename _ same | recheck _ _ same | prefer _ same =>
    exact hs.congr rfl rfl (fun hx hv => ⟨_, same.tracked ▸ hx, rfl, hv⟩) hlineage
  | @track _ block _ _ _ _ same =>
    refine hs.congr rfl rfl (fun {id x v} hx hv => ?_) hlineage
    rw [same.tracked] at hx
    simp only [Std.ExtTreeMap.getElem?_insert] at hx
    split at hx
    · obtain rfl := Option.some.inj hx
      cases hv
    · exact ⟨x, hx, rfl, hv⟩
  | @forget _ id entry hfound same =>
    refine hs.congr rfl rfl (fun {j x v} hx hv => ?_) hlineage
    rw [same.tracked] at hx
    obtain ⟨old, hold, hblock, hv', -⟩ := Engine.Arranged.of_getElem?_forget hx
    exact ⟨old, hold, hblock, hv'.symm.trans hv⟩
  | reopen _ same =>
    refine hs.congr rfl rfl (fun {j x v} hx hv => ?_) hlineage
    rw [same.tracked] at hx
    simp [Engine.atRest] at hx
  | attach hframed _ _ hcheck same =>
    exact (hs.attach hr hreach hq hfree hsound' hframed hcheck).of_same same
  | commit hfound hacceptable same => exact hs.commit.of_same same

end Engine.StagesOn

namespace Engine.Replayed

variable (hr : e.Replayed g h)

include hr

/-- `Replayed` survives `committed`, which carries out on the store what the block does to it. -/
theorem commit (hsound : (h.accept entry.block).Sound g) (hlinear : (h.accept entry.block).Linear)
    {id : Hash} {changes : Changes} (hfound : e.tracked[id]? = some entry)
    (hacceptable : acceptable id entry = .ok changes) :
    replay g (h.accept entry.block).accepted.reverse = .ok (e.store.entries.apply changes) := by
  have hv := Engine.acceptable_eq_ok_iff.1 hacceptable
  -- the path of the block is empty
  have hl : h.Lineage (entry.block :: h.chain) :=
    (hsound.lineage_chain hlinear).mono rfl fun _ hb => hb
  obtain ⟨table, htable, hrun⟩ := hr.staged hfound hv [] hl
  obtain rfl := Except.ok.inj (htable.symm.trans hr.stored)
  simp only [History.accept, List.reverse_cons, Table.replay_concat, hr.stored, Except.ok_bind]
  exact hrun

/-- `Replayed` survives a `Transition` of a run that is `Linear`. -/
theorem of_transition (hreach : Reach g h e) (ht : Transition h e h' e') (hfree : h'.CollisionFree)
    (hlinear : h'.Linear) : e'.Replayed g h' := by
  have hstaged : e.StagesOn g h fun table block changes =>
      runBlock g table block = .ok (table.apply changes) := ⟨hr.staged⟩
  refine ⟨?_, (hstaged.of_transition hr hreach Table.runBlock_flatten ht hfree).staged⟩
  have hc := hreach.coherent (hfree.of_subset (Coherent.blocks_subset_of_transition ht))
  have hsound' := (hc.of_transition ht hfree).sound
  -- only an acceptance writes blocks to the store
  cases ht with
  | quiet same | name _ same | rename _ same | track _ _ _ _ same | recheck _ _ same
  | attach _ _ _ _ same | forget _ same | prefer _ same | reopen _ same =>
    exact hr.stored.trans (congrArg Except.ok same.entries.symm)
  | commit hfound hacceptable same =>
    exact (hr.commit hsound' hlinear hfound hacceptable).trans
      (congrArg Except.ok same.entries.symm)

end Engine.Replayed

/-- Every state of a `Linear` run is `Replayed`: the store is the replay of the chain. -/
theorem Reach.replayed (hreach : Reach g h e) (hfree : h.CollisionFree) (hlinear : h.Linear) :
    e.Replayed g h := by
  refine hreach.invariant (P := fun h e => h.Linear → e.Replayed g h)
    (fun settings refusals e store hstart _ => ?_)
    (fun h h' e e' hreach hc hr ht hfree hlinear => ?_) hfree hlinear
  · obtain ⟨block, changes, hstate, rfl, hentries⟩ := Engine.start_empty hstart
    refine ⟨?_, fun hx _ => ?_⟩
    · show replay g [] = .ok store.entries
      rw [replay, hstate, hentries]
      rfl
    · simp [Engine.atRest] at hx
  · exact (hr (ht.linear hlinear)).of_transition hreach ht hfree hlinear

/--
Along every run that is `Linear`, the entries of the durable store are `Table.replay` of the
accepted blocks: what they leave when they are executed from the genesis state on, on a plain table
and one transaction after the other. So they are the same after any two runs with the same
`accepted`.
-/
theorem Reach.store_eq_replay (hreach : Reach g h e) (hfree : h.CollisionFree)
    (hlinear : h.Linear) :
    Table.replay g h.accepted.reverse = .ok e.store.entries ∧
    ∀ {h' : History} {e' : Engine}, Reach g h' e' → h'.CollisionFree → h'.accepted = h.accepted →
      e'.store.entries = e.store.entries := by
  have hstored := (hreach.replayed hfree hlinear).stored
  refine ⟨hstored, fun {h' e'} hreach' hfree' haccepted => ?_⟩
  -- both runs start on the first block of the parameters
  have hfirst : h'.first = h.first := Except.ok.inj
    ((hreach'.coherent hfree').sound.first.symm.trans (hreach.coherent hfree).sound.first)
  have hlinear' : h'.Linear := by
    rw [History.Linear, History.chain, haccepted, hfirst]
    exact hlinear
  have hstored' := (hreach'.replayed hfree' hlinear').stored
  rw [haccepted] at hstored'
  exact Except.ok.inj (hstored'.symm.trans hstored)

theorem Siblings.linear_forked : forked.1.Linear := by
  rw [history_forked, History.Linear]
  decide +kernel

/-- `right`, which was verified and not accepted, leaves nothing in the store of `forked`. -/
theorem Siblings.store_forked :
    Table.replay genesis [left] = .ok forked.2.store.entries := by
  have haccepted : forked.1.accepted = [left] := congrArg History.accepted history_forked
  have hreplay := (reach_forked.store_eq_replay collisionFree_forked linear_forked).1
  rw [haccepted] at hreplay
  exact hreplay

end LeaseChain
