import LeaseChain.Proofs.Block.Legible
import LeaseChain.Proofs.Engine.Coherence

/-!
# The store stays readable

Whatever the requests, every record in the store fits its key, the pointer leads to a block that is
stored, and the genesis document is the one of the first start. What undecided blocks hold for the
store is what framed blocks stage, so that committing it keeps the store so, and what they show to
their children is readable as well. Nothing of this needs the hash to tell blocks apart: a block is
stored under its own identifier, and only its form counts.

## Key results

- `Engine.Readable`: what is stored, and what undecided blocks would store, can be read
- `Engine.readable_start`, `Engine.Readable.after`: states are so at the start and after requests
- `Engine.Readable.legible_of_viewFrom`: what a child of any block sees can be read
-/

namespace LeaseChain

/-- Changes that a framed block makes to what some view shows. -/
def Changes.OfBlock (changes : Changes) : Prop :=
  ∃ (g : Genesis) (block : Block) (view : View), block.IsFramed Engine.framing ∧
    block.effect g view = .ok changes

/-- What a framed block stages is `Legible`. -/
theorem Changes.OfBlock.legible {changes : Changes} (hc : changes.OfBlock) : changes.Legible := by
  obtain ⟨g, block, view, hframed, heffect⟩ := hc
  exact Block.legible_of_effect hframed heffect

namespace Engine

/-- What is stored, and what undecided blocks would store, can be read. -/
structure Readable (g : Genesis) (e : Engine) : Prop where
  /-- Every lease, value, balance, index entry and block in the store is one. -/
  legible : e.durable.Legible
  /-- The pointer leads to a block in the store. -/
  pointer : ∃ tip : Block, tip.IsFramed framing ∧
    e.store.entries[StoreKey.lastAccepted]? = some tip.id.bytes ∧
    e.store.entries[StoreKey.block tip.id]? = some tip.bytes
  valid : g.validate = .ok ()
  document : e.store.entries[StoreKey.genesis]? = some g.toDocument
  initialized : e.store.entries[StoreKey.initialized]? = some [1]
  tracked : ∀ {changes : Changes}, Holds e.tracked changes → changes.OfBlock

end Engine

/-! ## Readable states stay so -/

namespace Engine.Readable

variable {g : Genesis} {h h' : History} {e e' : Engine} (hr : e.Readable g)

include hr

/-- `Readable` is about the store and the changes of the tracked blocks. -/
theorem of_holds (hentries : e'.store.entries = e.store.entries)
    (htracked : ∀ {changes : Changes}, Holds e'.tracked changes → changes.OfBlock) :
    e'.Readable g where
  legible := by rw [durable, hentries]; exact hr.legible
  pointer := by rw [hentries]; exact hr.pointer
  valid := hr.valid
  document := by rw [hentries]; exact hr.document
  initialized := by rw [hentries]; exact hr.initialized
  tracked := htracked

theorem congr (same : e.SameChain e') : e'.Readable g :=
  hr.of_holds same.entries fun hholds => hr.tracked (same.tracked ▸ hholds)

/-- `Readable` survives that a block is tracked anew: it holds nothing for the store yet. -/
theorem track (block : Block) :
    Readable g { e with tracked := e.tracked.insert block.id ⟨block, none, []⟩ } := by
  refine hr.of_holds rfl fun ⟨id, entry, v, hentry, hv, hchanges⟩ => ?_
  rw [getElem?_track] at hentry
  split at hentry
  · -- the new entry holds nothing
    obtain rfl := Option.some.inj hentry
    cases hv
  · exact hr.tracked ⟨id, entry, v, hentry, hv, hchanges⟩

/-- `Readable` survives `attach` of what `checkBlock` found about a framed block. -/
theorem attach {clock : UInt64} {block parent : Block} {verified : Verified}
    (hframed : block.IsFramed framing)
    (hcheck : e.checkBlock clock block = .ok (parent, verified)) :
    (e.attach block parent verified).Readable g := by
  obtain ⟨-, -, context, view, -, -, -, hexecute, -⟩ := checkBlock_eq_ok_iff.1 hcheck
  have hfound : verified.changes.OfBlock :=
    ⟨e.genesis, block, view, hframed, (Block.execute_eq_ok_iff.1 hexecute).2.2⟩
  -- the entry that holds changes is the block's own or an old one
  refine hr.of_holds rfl fun ⟨id, entry, v, hentry, hv, hchanges⟩ => ?_
  rw [Arranged.getElem?_attach, Option.map_eq_some_iff] at hentry
  obtain ⟨base, hbase, rfl⟩ := hentry
  have hv' : base.verified? = some v := by
    split at hv
    · rwa [Tracked.verified?_withChild] at hv
    · exact hv
  split at hbase
  · obtain rfl := Option.some.inj hbase
    obtain rfl := Option.some.inj hv'
    exact hchanges ▸ hfound
  · exact hr.tracked ⟨id, base, v, hbase, hv', hchanges⟩

/-- `Readable` survives `committed`. -/
theorem commit {id : Hash} {entry : Tracked} {changes : Changes}
    (hfound : e.tracked[id]? = some entry) (hacceptable : acceptable id entry = .ok changes) :
    (e.committed id entry changes).Readable g := by
  have hblock := hr.tracked ⟨id, entry, _, hfound, acceptable_eq_ok_iff.1 hacceptable, rfl⟩
  obtain ⟨g', block, view, hframed, heffect⟩ := hblock
  -- of the facts about the chain the block writes the pointer alone, which then leads to it
  have hfact (name : String) : (e.store.entries.apply changes)[StoreKey.fact name]? =
      if "last_accepted" = name then some block.id.bytes
      else e.store.entries[StoreKey.fact name]? := by
    rw [Table.getElem?_apply, Block.getElem?_effect_fact heffect]
    split <;> rfl
  -- field by field: what is stored now, and what the remaining blocks would store
  exact {
    legible := hr.legible.apply (Block.legible_of_effect hframed heffect)
    pointer := by
      refine ⟨block, hframed, hfact "last_accepted", ?_⟩
      show (e.store.entries.apply changes)[StoreKey.block block.id]? = some block.bytes
      rw [Table.getElem?_apply, Block.getElem?_effect_block heffect, if_pos rfl]
      rfl
    valid := hr.valid
    document := (hfact "genesis").trans hr.document
    initialized := (hfact "initialized").trans hr.initialized
    tracked := fun ⟨j, x, w, hx, hw, hchanges⟩ => by
      obtain ⟨-, old, hold, -, -, hverified⟩ := Arranged.of_getElem?_committed hx
      obtain ⟨v, hv, hsame, -⟩ := hverified hw
      exact hr.tracked ⟨j, old, v, hold, hv, hsame.trans hchanges⟩ }

/-- `Readable` survives `forget`. -/
theorem forget (id : Hash) (block : Block) : (e.forget id block).Readable g := by
  refine hr.of_holds rfl fun ⟨j, x, v, hx, hv, hchanges⟩ => ?_
  obtain ⟨old, hold, -, hv', -⟩ := Arranged.of_getElem?_forget hx
  exact hr.tracked ⟨j, old, v, hold, hv'.symm.trans hv, hchanges⟩

/-- `Readable` survives another preference. -/
theorem prefer (id : Hash) : Readable g { e with preferred := id } := hr.of_holds rfl hr.tracked

/-- `Engine.atRest` on the store of a `Readable` state is `Readable`. -/
theorem atRest (g' : Genesis) (settings : Settings) (tip : Block) :
    (Engine.atRest g' settings e.store tip).Readable g :=
  hr.of_holds rfl fun ⟨_, _, _, hentry, _⟩ => by simp [Engine.atRest] at hentry

/-- `Readable` survives every `Transition`, whatever its history. -/
theorem of_transition (ht : Transition h e h' e') : e'.Readable g := by
  -- one lemma for each transition, whose hypotheses say where the changes come from
  cases ht with
  | quiet same | name _ same | rename _ same | recheck _ _ same => exact hr.congr same
  | track _ _ _ _ same => exact (hr.track _).congr same
  | attach hframed _ _ hcheck same => exact (hr.attach hframed hcheck).congr same
  | commit hfound hacceptable same => exact (hr.commit hfound hacceptable).congr same
  | forget _ same => exact (hr.forget _ _).congr same
  | prefer _ same => exact (hr.prefer _).congr same
  | reopen _ same => exact (hr.atRest _ _ _).congr same

/-- `Readable` survives every request. -/
theorem after (clock : UInt64) {request : Request} (hform : request.WellFormed) :
    (e.after clock request).Readable g := by
  refine hr.of_transition (h := .start e.lastAccepted) (.of_request hform ?_)
  rw [Std.ExtTreeMap.contains_eq_isSome_getElem?, hr.initialized]
  rfl

/-! ### What is read -/

/-- `loadBlock` has an answer on a `Readable` store. -/
theorem exists_loadBlock (id : Hash) : ∃ found, loadBlock e.store.entries id = .ok found := by
  unfold loadBlock
  split
  · -- bytes under the key of a block are those of a framed block
    next bytes hbytes =>
    obtain ⟨block, hblock, -⟩ := hr.legible _ bytes hbytes
    exact ⟨some block, by rw [hblock]; rfl⟩
  · exact ⟨none, rfl⟩

/-- `storedState` gives the parameters of the first start. -/
theorem exists_storedState : ∃ tip, storedState e.store.entries = .ok (g, tip) := by
  obtain ⟨tip, hframed, hpointer, hbytes⟩ := hr.pointer
  exact ⟨tip, storedState_eq_ok hr.valid hr.document hpointer (loadBlock_of_framed hframed hbytes)⟩

/-- What `viewFrom` gives is `Legible`. -/
theorem legible_of_viewFrom {id : Hash} {view : View} (hview : e.viewFrom id = .ok view) :
    view.Legible := by
  obtain ⟨hbase, hlayers⟩ := of_viewFrom hview
  obtain ⟨layers, base⟩ := view
  obtain rfl : base = e.store.entries := hbase
  exact View.legible_of_layers hr.legible fun layer hlayer =>
    (hr.tracked (hlayers layer hlayer)).legible

end Engine.Readable

/-! ## The first start -/

/-- The credits of the genesis state are balances, and so `Legible`. -/
theorem Engine.legible_creditAll (credits : List (PublicKey × UInt64)) :
    (creditAll credits).Legible := by
  -- the fold keeps what holds of the empty changes
  have hempty := Changes.Legible.empty
  unfold creditAll
  generalize (∅ : Changes) = changes at hempty ⊢
  induction credits generalizing changes with
  | nil => exact hempty
  | cons credit credits ih => exact ih _ (hempty.putBalance _ _)

/-- The writes of `genesisState` are `Legible`. -/
theorem Engine.legible_of_genesisState {g : Genesis} {block : Block} {changes : Changes}
    (h : genesisState g = .ok (block, changes)) : changes.Legible := by
  obtain ⟨-, h⟩ := Except.bind_unit_eq_ok_iff.1 h
  obtain ⟨first, hfirst, h⟩ := Except.bind_eq_ok_iff.1 h
  obtain ⟨credits, -, h⟩ := Except.bind_eq_ok_iff.1 h
  obtain ⟨rfl, rfl⟩ := Prod.mk.inj (Except.ok.inj h)
  have hframed := (Block.first_eq_ok (Except.mapError_eq_ok_iff.1 hfirst)).1
  exact ((((legible_creditAll credits).putBlock hframed).putFact _ _).putFact _ _).putFact _ _

/-- What `start` gives on an empty store is `Readable`. -/
theorem Engine.readable_start {g : Genesis} {settings : Settings} {refusals : Nat} {e : Engine}
    {store : Store} (hstart : start g settings ⟨∅, refusals⟩ = (.ok e, store)) :
    e.Readable g := by
  obtain ⟨block, changes, hstate, rfl, hentries⟩ := start_empty hstart
  obtain ⟨hvalid, hfirst, hblocks, -, hpointer, hdocument, hinit⟩ := genesisState_eq_ok hstate
  have hlookup (key : Bytes) : store.entries[key]? = changes[key]?.getD none := by
    rw [hentries, Table.getElem?_apply, Std.ExtTreeMap.getElem?_empty]
  -- the store is what the genesis state writes into an empty table
  exact {
    legible := by
      intro key value hget
      refine legible_of_genesisState hstate key value ?_
      rw [durable, View.get?_durable] at hget
      have hvalue := (hlookup key).symm.trans hget
      cases hkey : changes[key]? with
      | none => rw [hkey] at hvalue; cases hvalue
      | some change => rw [hkey] at hvalue; exact congrArg some hvalue
    pointer := ⟨block, (Block.first_eq_ok hfirst).1, by rw [atRest, hlookup, hpointer]; rfl,
      by rw [atRest, hlookup, hblocks, if_pos rfl]; rfl⟩
    valid := hvalid
    document := by rw [atRest, hlookup, hdocument]; rfl
    initialized := by rw [atRest, hlookup, hinit]; rfl
    tracked := fun ⟨_, _, _, hentry, _⟩ => by simp [atRest] at hentry }

end LeaseChain
