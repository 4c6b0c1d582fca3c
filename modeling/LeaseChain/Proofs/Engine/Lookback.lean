import LeaseChain.Proofs.Engine.Bookkeeping
import LeaseChain.Proofs.Engine.Lineage

/-!
# How far the walk back reaches

The window that a child of a block is checked against is filled by walking back from the block
through a look-up that may miss blocks, with a bound on the steps. Where the engine still knows all
of the block's lineage neither matters: the walk takes the lineage up to the first block that the
lookback does not reach. The engine knows the lineage of every accepted block, as it stays on the
chain, and of every verified block that has a view, as its layers lead down to the chain.

## Key results

- `BlockContext.WalksBack`: the walk without a bound on its steps
- `BlockContext.walksBack_reached`: a walk without misses goes as far as the lookback reaches
- `BlockContext.ancestors_eq_ok`: such a walk takes the lineage so far
- `Coherent.contextAfter_eq_ok`: the context of a block whose lineage is known
- `Coherent.isKnown_of_mem_chain`, `Coherent.isKnown_of_viewFrom`: whose lineage is known
-/

namespace LeaseChain

variable {g : Genesis} {h : History} {e : Engine}

/-- Blocks that extend each other, the newest first, down to one of the height zero. -/
inductive Block.Grounded : List Block → Prop where
  | ground {b : Block} (hheight : b.height = 0) : Grounded [b]
  | child {b p : Block} {path : List Block} (hext : b.Extends p) (hpath : Grounded (p :: path)) :
      Grounded (b :: p :: path)

namespace BlockContext

variable {ε : Type} {now : UInt64} {lookup : Hash → Except ε (Option Block)} {b : Block}
  {path : List Block}

/-- The part of a lineage that the lookback reaches. -/
def reached (g : Genesis) (now : UInt64) (path : List Block) : List Block :=
  path.takeWhile fun a => !isOlder g now a

theorem length_reached_le (g : Genesis) (now : UInt64) (path : List Block) :
    (reached g now path).length ≤ path.length :=
  (List.takeWhile_prefix _).length_le

/--
A walk back without a bound on its steps, with the ancestors that it comes by. It ends at the height
zero, at a block that the look-up does not find and at one that is older than the window.
-/
inductive WalksBack (g : Genesis) (now : UInt64) (lookup : Hash → Except ε (Option Block)) :
    Block → List Block → Prop where
  | ground {b : Block} (hheight : b.height = 0) : WalksBack g now lookup b []
  | unknown {b : Block} (hheight : b.height ≠ 0) (hlookup : lookup b.parentId = .ok none) :
      WalksBack g now lookup b []
  | old {b a : Block} (hheight : b.height ≠ 0) (hlookup : lookup b.parentId = .ok (some a))
      (hold : isOlder g now a = true) : WalksBack g now lookup b []
  | back {b a : Block} {path : List Block} (hheight : b.height ≠ 0)
      (hlookup : lookup b.parentId = .ok (some a)) (hrecent : ¬isOlder g now a = true)
      (hrest : WalksBack g now lookup a path) : WalksBack g now lookup b (a :: path)

/-- With as many steps as the walk takes, or more, `ancestors` gives all of it. -/
theorem WalksBack.ancestors_eq_ok (hwalk : WalksBack g now lookup b path) {limit : Nat}
    (hlimit : path.length ≤ limit) : ancestors g now lookup limit b = .ok path := by
  induction hwalk generalizing limit with
  | ground hheight =>
    cases limit with
    | zero => rfl
    | succ limit => rw [ancestors, if_pos hheight]
  | unknown hheight hlookup =>
    cases limit with
    | zero => rfl
    | succ limit =>
      rw [ancestors, if_neg hheight, hlookup]
      rfl
  | old hheight hlookup hold =>
    cases limit with
    | zero => rfl
    | succ limit =>
      rw [ancestors, if_neg hheight, hlookup, Except.ok_bind]
      exact if_pos hold
  | @back b a path hheight hlookup hrecent _ ih =>
    -- only this step uses up the limit, and the bound on the path leaves one for it
    obtain ⟨limit, rfl⟩ : ∃ n, limit = n + 1 := Nat.exists_eq_add_one.2 (by
      rw [List.length_cons] at hlimit
      omega)
    rw [ancestors, if_neg hheight, hlookup, Except.ok_bind]
    simp only [if_neg hrecent, ih (Nat.le_of_succ_le_succ hlimit)]
    rfl

/-- A walk that misses no block takes what is `reached` behind a block. -/
theorem walksBack_reached (hpath : Block.Grounded (b :: path))
    (hlookup : ∀ a ∈ path, lookup a.id = .ok (some a)) :
    WalksBack g now lookup b (reached g now path) := by
  induction path generalizing b with
  | nil =>
    cases hpath with
    | ground hheight => exact .ground hheight
  | cons p path ih =>
    cases hpath with
    | child hext hpath =>
      obtain ⟨hparent, hheight, -⟩ := hext
      have hheight : b.height ≠ 0 := fun hzero => by
        rw [hzero, UInt64.toNat_zero] at hheight
        omega
      obtain ⟨hfound, hlookup⟩ := List.forall_mem_cons.1 hlookup
      rw [← hparent] at hfound
      rw [reached, List.takeWhile_cons]
      -- `reached` stops at the first block that is too old, and so does the walk
      by_cases hold : isOlder g now p = true
      · rw [hold]
        exact .old hheight hfound hold
      · rw [Bool.eq_false_iff.2 hold]
        exact .back hheight hfound hold (ih hpath hlookup)

/-- The `Lineage` of a block goes down to the height zero. -/
theorem grounded_of_lineage (hsound : h.Sound g) (hl : h.Lineage (b :: path))
    (hext : History.Extending (b :: path)) : Block.Grounded (b :: path) := by
  induction path generalizing b with
  | nil => exact .ground ((hl.height_eq_zero_iff hsound hext).2 rfl)
  | cons p path ih => exact .child hext.rel (ih hl.parent_eq.2 hext.tail)

/-- `ancestors` that misses no block takes what is `reached` of the lineage. -/
theorem ancestors_eq_ok (hsound : h.Sound g) {limit : Nat} (hl : h.Lineage (b :: path))
    (hext : History.Extending (b :: path)) (hlookup : ∀ a ∈ path, lookup a.id = .ok (some a))
    (hlimit : path.length ≤ limit) :
    ancestors g now lookup limit b = .ok (reached g now path) :=
  (walksBack_reached (grounded_of_lineage hsound hl hext) hlookup).ancestors_eq_ok
    (Nat.le_trans (length_reached_le g now path) hlimit)

end BlockContext

/-- Whether a block is tracked or in the durable store. -/
def Engine.IsKnown (e : Engine) (id : Hash) : Prop := e.isTracked id = true ∨ e.isStored id = true

/-- Distinct known blocks are no more than `knownBlocks`, the bound on the steps. -/
theorem Engine.length_le_knownBlocks {ids : List Hash} (hnodup : ids.Nodup)
    (hknown : ∀ id ∈ ids, e.IsKnown id) : ids.length ≤ e.knownBlocks := by
  -- a stored block is known by its key, and the keys of blocks are distinct too
  have hkeys : (ids.map StoreKey.block).Nodup := by
    refine List.Pairwise.map StoreKey.block (fun a b hne heq => hne ?_) hnodup
    exact StoreKey.block_inj.1 heq
  have hsub : ids.map StoreKey.block ⊆
      e.tracked.keys.map StoreKey.block ++ e.store.entries.keys := by
    intro key hkey
    obtain ⟨id, hid, rfl⟩ := List.mem_map.1 hkey
    rw [List.mem_append]
    rcases hknown id hid with htracked | hstored
    · exact .inl (List.mem_map_of_mem (Std.ExtTreeMap.mem_keys.2 htracked))
    · exact .inr (Std.ExtTreeMap.mem_keys.2 hstored)
  have hle := hkeys.length_le_of_subset hsub
  simp only [List.length_map, List.length_append, Std.ExtTreeMap.length_keys] at hle
  unfold knownBlocks
  omega

/-- The `Lineage` of a block on `h.chain` stays on it. -/
theorem History.Lineage.subset_chain (hsound : h.Sound g) (hfree : h.CollisionFree) {b : Block}
    {path : List Block} (hl : h.Lineage (b :: path)) (hb : b ∈ h.chain) : path ⊆ h.chain := by
  induction path generalizing b with
  | nil => exact List.nil_subset _
  | cons p path ih =>
    obtain ⟨hparent, hpath⟩ := hl.parent_eq
    have hne : b ≠ h.first := by
      cases hl with
      | child _ hne _ _ => exact hne
    -- the block that it extends on the chain is the one that it names
    have hp : p ∈ h.chain := by
      obtain ⟨q, hq, hext⟩ := hsound.exists_extends_of_mem_chain hb hne
      have hsame : p = q := hfree.eq_of_id_eq hsound (hpath.mem_blocks List.mem_cons_self)
        (hsound.mem_blocks_of_mem_chain hq) (hparent.symm.trans hext.1)
      exact hsame ▸ hq
    exact List.cons_subset.2 ⟨hp, ih hpath hp⟩

namespace Coherent

variable (hc : Coherent g h e) (hfree : h.CollisionFree)

include hc

theorem isKnown_of_mem_chain {a : Block} (ha : a ∈ h.chain) : e.IsKnown a.id :=
  .inr (hc.settled.isStored_iff.2 ⟨a, ha, rfl⟩)

include hfree

/-- `find?` gives a known block of the run under its identifier. -/
theorem find?_of_isKnown {a : Block} (ha : a ∈ h.blocks) (hknown : e.IsKnown a.id) :
    e.find? a.id = .ok (some a) := by
  obtain ⟨b, hb, hid, hfind⟩ := hc.exists_find? hknown
  obtain rfl := hfree.eq_of_id_eq hc.sound hb ha hid
  exact hfind

/-- Where `layersFrom` leads from a tracked block down to the store, all of its lineage is known. -/
theorem isKnown_of_layersFrom {limit : Nat} {id : Hash} {entry : Tracked} {layers : List Changes}
    {path : List Block} (hentry : e.tracked[id]? = some entry)
    (hlayers : Engine.layersFrom e.tracked limit entry = .ok layers)
    (hl : h.Lineage (entry.block :: path)) : ∀ a ∈ path, e.IsKnown a.id := by
  induction limit generalizing id entry layers path with
  | zero => cases hlayers
  | succ limit ih =>
    obtain ⟨v, hv, hfooting⟩ := Engine.layersFrom_eq_ok hlayers
    obtain ⟨-, hfits, -⟩ := hc.arranged.checked hentry hv
    cases path with
    | nil => exact fun _ ha => nomatch ha
    | cons p path =>
      obtain ⟨hparent, hpath⟩ := hl.parent_eq
      have hpmem := hpath.mem_blocks List.mem_cons_self
      rcases hfooting with ⟨hdurable, -⟩ | ⟨below, lower, rest, hblock, hlower, hrest, -⟩
      · -- the parent is accepted, and the lineage is on the chain from there on
        rw [hdurable] at hfits
        obtain ⟨q, hq, hqid⟩ := hfits
        obtain rfl := hfree.eq_of_id_eq hc.sound (hc.sound.mem_blocks_of_mem_chain hq) hpmem
          (hqid.trans hparent)
        have hsub := hpath.subset_chain hc.sound hfree hq
        exact List.forall_mem_cons.2
          ⟨hc.isKnown_of_mem_chain hq, fun a ha => hc.isKnown_of_mem_chain (hsub ha)⟩
      · -- the parent is the tracked block that the changes stand on
        rw [hblock] at hfits
        obtain ⟨hid, hmem, -⟩ := hc.arranged.tracked hlower
        have hsame : lower.block = p := hfree.eq_of_id_eq hc.sound hmem hpmem
          (hid.trans (Eq.trans hfits hparent))
        have htracked : e.isTracked p.id = true :=
          Engine.isTracked_iff.2 ⟨lower, by rw [← hsame, hid]; exact hlower⟩
        exact List.forall_mem_cons.2 ⟨.inl htracked, ih hlower hrest (hsame ▸ hpath)⟩

/-- The `Lineage` of a block that has a view is known. -/
theorem isKnown_of_viewFrom {id : Hash} {b : Block} {view : View} {path : List Block}
    (hfind : e.find? id = .ok (some b)) (hview : e.viewFrom id = .ok view)
    (hl : h.Lineage (b :: path)) : ∀ a ∈ path, e.IsKnown a.id := by
  obtain ⟨hid, -, ⟨entry, hentry, rfl⟩ | ⟨-, hchain⟩⟩ := hc.find?_eq_ok hfind
  · simp only [Engine.viewFrom, Engine.layers, hentry] at hview
    obtain ⟨layers, hlayers, -⟩ := Except.bind_eq_ok_iff.1 hview
    exact hc.isKnown_of_layersFrom hfree hentry hlayers hl
  · have hsub := hl.subset_chain hc.sound hfree hchain
    exact fun a ha => hc.isKnown_of_mem_chain (hsub ha)

/--
`contextAfter` a block whose lineage is known is that of the lineage, as far as it is `reached`.
-/
theorem contextAfter_eq_ok {b : Block} {path : List Block} (hl : h.Lineage (b :: path))
    (hext : History.Extending (b :: path)) (hknown : ∀ a ∈ path, e.IsKnown a.id) (now : UInt64) :
    e.contextAfter b now =
      .ok (BlockContext.ofWindow g now b (b :: BlockContext.reached g now path)) := by
  have hmem : path ⊆ h.blocks := fun a ha => hl.mem_blocks (List.mem_cons_of_mem b ha)
  have hlookup : ∀ a ∈ path, e.find? a.id = .ok (some a) := fun a ha =>
    hc.find?_of_isKnown hfree (hmem ha) (hknown a ha)
  -- known blocks with different ids are no more than the engine's count of them
  have hlimit : path.length ≤ e.knownBlocks := by
    have hnodup := History.nodup_ids hfree hc.sound hmem hext.tail
    have hle := Engine.length_le_knownBlocks hnodup (List.forall_mem_map.2 hknown)
    rwa [List.length_map] at hle
  rw [Engine.contextAfter, hc.settled.genesis, BlockContext.after, BlockContext.window,
    BlockContext.ancestors_eq_ok hc.sound hl hext hlookup hlimit]
  rfl

end Coherent

end LeaseChain
