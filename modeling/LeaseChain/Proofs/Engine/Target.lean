import LeaseChain.Engine.Query
import LeaseChain.Proofs.Engine.Building
import LeaseChain.Proofs.Engine.Failures
import LeaseChain.Proofs.Engine.Finality
import LeaseChain.Proofs.Engine.Payment
import LeaseChain.Proofs.Engine.Pool
import LeaseChain.Proofs.Engine.Rebasing
import Mathlib.Data.List.NodupEquivFin
import Mathlib.Logic.Relation

/-!
# A mining target stays sufficient

A miner asks for a target, searches, and submits what it found some time later. Time makes the
window shorter: the walk back reaches a front of what it reached before, so that there are fewer
transactions to count and more windows to subtract, and no rule asks for more. The one exception is
the end of the range, where the count of windows wraps around: see `BlockContext.Overflows`. All of
this is about one look-up. The engine's changes: a block that it did not know stops the walk, and
where such a block becomes known the walk goes on behind it. As long as none does, what the engine
asks for does not rise.

## Key results

- `BlockContext.after_later`: what is asked for later, through the same look-up
- `Coherent.mem_window_iff`: the bound on the steps leaves out no block
- `Coherent.window_subset`: a later window holds no other block unless a missing one has been found
- `Genesis.target_sufficient`: a mining target stays sufficient
- `Reach.honours_of_viewFrom`: where the preferred block has a view, whatever becomes known
-/

namespace LeaseChain

/-! ## The market while time passes -/

namespace FeeMarket

variable {g : Genesis} {seconds later : UInt64}

/-- More time never raises `nextCost`: what is subtracted from the cost grows with the seconds. -/
theorem nextCost_le_of_le (parentCost : UInt64) (hle : seconds ≤ later) :
    nextCost g parentCost later ≤ nextCost g parentCost seconds := by
  rw [UInt64.le_iff_toNat_le] at hle ⊢
  -- the bound on the cost is the same on both sides, and only the subtracted seconds differ
  simp only [nextCost, toNat_clamp]
  omega

/-- `startedWindows` does not fall with the seconds, unless the later count has wrapped to zero. -/
theorem startedWindows_le_of_le (hcount : startedWindows g later ≠ 0) (hle : seconds ≤ later) :
    startedWindows g seconds ≤ startedWindows g later := by
  have hwindows : seconds.toNat / max g.lookbackWindow.toNat 1 ≤
      later.toNat / max g.lookbackWindow.toNat 1 :=
    Nat.div_le_div_right (UInt64.le_iff_toNat_le.1 hle)
  rw [UInt64.le_iff_toNat_le, toNat_startedWindows_of_ne_zero g later hcount]
  exact Nat.le_trans (toNat_startedWindows_le g seconds) (Nat.succ_le_succ hwindows)

/-- With `fewer` transactions and more time a block has to be no more difficult. -/
theorem nextDifficulty_le_of_le {parentDifficulty : UInt64} {count fewer : Nat}
    (hfloor : g.minDifficulty ≤ parentDifficulty) (hcount : fewer ≤ count)
    (hle : seconds ≤ later)
    (hwindows : fewer ≤ g.targetTransactions.toNat → startedWindows g later ≠ 0) :
    nextDifficulty g parentDifficulty fewer later ≤
      nextDifficulty g parentDifficulty count seconds := by
  have hraised := le_satAdd_left parentDifficulty 1
  unfold nextDifficulty
  by_cases hfewer : g.targetTransactions.toNat < fewer
  · rw [if_pos hfewer, if_pos (Nat.lt_of_lt_of_le hfewer hcount)]
    exact UInt64.le_refl _
  · -- below the target the difficulty is the parent's at most
    have hmore := startedWindows_le_of_le (hwindows (Nat.le_of_not_lt hfewer)) hle
    rw [UInt64.le_iff_toNat_le] at hfloor hraised hmore ⊢
    rw [if_neg hfewer, UInt64.toNat_max, toNat_satSub]
    split
    · omega
    · rw [UInt64.toNat_max, toNat_satSub]
      omega

end FeeMarket

namespace BlockContext

variable {g : Genesis} {ε : Type} {now later : UInt64} {lookup : Hash → Except ε (Option Block)}
  {limit : Nat} {parent b a : Block}

/-- A context knows nothing that another does not know, and asks for no more. -/
structure Eases (context before : BlockContext) : Prop where
  recentBlocks : ∀ id, context.recentBlocks.contains id = true →
    before.recentBlocks.contains id = true
  recentTxs : ∀ id, context.recentTxs.contains id = true → before.recentTxs.contains id = true
  nextCost : context.nextCost ≤ before.nextCost
  nextDifficulty : context.nextDifficulty ≤ before.nextDifficulty

/--
The context has to count windows, and their count is too great for a word. It says that the window
holds no more transactions than the target and that `FeeMarket.startedWindows` has come out as zero,
which takes `2 ^ 64 - 1` seconds and windows of one second: see
`FeeMarket.startedWindows_eq_zero_iff`.
-/
def Overflows (g : Genesis) (now : UInt64) (parent : Block)
    (lookup : Hash → Except ε (Option Block)) (limit : Nat) : Prop :=
  ∃ context, after g now parent lookup limit = .ok context ∧
    context.recentTxs.size ≤ g.targetTransactions.toNat ∧
    FeeMarket.startedWindows g (satSub now parent.timestamp) = 0

/-- The truncated difference to a fixed `time` is monotone, also where it is cut off at zero. -/
theorem satSub_mono (hle : now ≤ later) (time : UInt64) : satSub now time ≤ satSub later time := by
  rw [UInt64.le_iff_toNat_le] at hle ⊢
  rw [toNat_satSub, toNat_satSub]
  omega

/-- `isOlder` stays true of a block as `now` grows. -/
theorem isOlder_later (hle : now ≤ later) (holder : isOlder g now b = true) :
    isOlder g later b = true := by
  simp only [isOlder, decide_eq_true_eq] at holder ⊢
  exact UInt64.lt_of_lt_of_le holder (satSub_mono hle b.timestamp)

/-- `ofWindow` at a later time `Eases` the earlier one, where it has no other blocks in it. -/
theorem eases_ofWindow (hfloor : g.minDifficulty ≤ parent.difficulty) (hle : now ≤ later)
    {window rest : List Block} (hsub : rest ⊆ window)
    (hcount : (ofWindow g later parent rest).recentTxs.size ≤ g.targetTransactions.toNat →
      FeeMarket.startedWindows g (satSub later parent.timestamp) ≠ 0) :
    (ofWindow g later parent rest).Eases (ofWindow g now parent window) where
  recentBlocks id hid := by
    rw [contains_recentBlocks_ofWindow] at hid ⊢
    obtain ⟨b, hb, hid⟩ := hid
    exact ⟨b, hsub hb, hid⟩
  recentTxs id hid := by
    rw [contains_recentTxs_ofWindow] at hid ⊢
    obtain ⟨b, hb, hid⟩ := hid
    exact ⟨b, hsub hb, hid⟩
  nextCost := FeeMarket.nextCost_le_of_le _ (satSub_mono hle _)
  nextDifficulty := by
    refine FeeMarket.nextDifficulty_le_of_le hfloor ?_ (satSub_mono hle _) hcount
    -- the number of transactions is that of distinct identifiers, of which `rest` has no others
    rw [HashSet.size_ofList, HashSet.size_ofList]
    refine List.Nodup.length_le_of_subset (List.nodup_dedup _) fun id hid => ?_
    rw [List.mem_dedup, List.mem_flatMap] at hid ⊢
    obtain ⟨b, hb, hid⟩ := hid
    exact ⟨b, hsub hb, hid⟩

/-- `ancestors` at a later time finds a front of what it found before. -/
theorem ancestors_later (hle : now ≤ later) {found : List Block}
    (hfound : ancestors g now lookup limit b = .ok found) :
    ∃ front, ancestors g later lookup limit b = .ok front ∧ front <+: found := by
  -- both walks take the same branches, until the later one ends at a block that is too old by then
  induction limit generalizing b found with
  | zero => exact ⟨[], rfl, List.nil_prefix⟩
  | succ limit ih =>
    rw [ancestors] at hfound
    rw [ancestors]
    split at hfound
    · next hheight => exact ⟨[], if_pos hheight, List.nil_prefix⟩
    · next hheight =>
      rw [if_neg hheight]
      obtain ⟨ancestor, hancestor, hfound⟩ := Except.bind_eq_ok_iff.1 hfound
      rw [hancestor, Except.ok_bind]
      cases ancestor with
      | none => exact ⟨[], rfl, List.nil_prefix⟩
      | some a =>
        simp only [] at hfound ⊢
        by_cases holder : isOlder g later a = true
        · exact ⟨[], if_pos holder, List.nil_prefix⟩
        · -- what is not older later was not older before, and the walk went on then
          rw [if_neg fun h => holder (isOlder_later hle h)] at hfound
          obtain ⟨rest, hrest, hfound⟩ := Except.bind_eq_ok_iff.1 hfound
          obtain rfl := Except.ok.inj hfound
          obtain ⟨front, hfront, hprefix⟩ := ih hrest
          refine ⟨a :: front, ?_, (List.prefix_cons_inj a).2 hprefix⟩
          rw [if_neg holder, hfront]
          rfl

/-- `after` is `ofWindow` of the parent and what `ancestors` finds behind it. -/
theorem after_eq_ok_iff {context : BlockContext} :
    after g now parent lookup limit = .ok context ↔
      ∃ found, ancestors g now lookup limit parent = .ok found ∧
        ofWindow g now parent (parent :: found) = context := by
  simp only [after, window, Except.bind_eq_ok_iff, Except.pure_eq_ok, Except.ok.injEq,
    exists_exists_and_eq_and]

/-- The `parent` is the first block of its own window, so `recentBlocks` always holds it. -/
theorem contains_parent (window : List Block) :
    (ofWindow g now parent (parent :: window)).recentBlocks.contains parent.id = true :=
  (contains_recentBlocks_ofWindow now parent _ _).2 ⟨parent, List.mem_cons_self, rfl⟩

/--
`after` at a later time `Eases` the earlier context, and both have the parent among `recentBlocks`.
-/
theorem after_later (hfloor : g.minDifficulty ≤ parent.difficulty) (hle : now ≤ later)
    (hcount : ¬Overflows g later parent lookup limit) {context : BlockContext}
    (hcontext : after g now parent lookup limit = .ok context) :
    ∃ eased, after g later parent lookup limit = .ok eased ∧ eased.Eases context ∧
      context.recentBlocks.contains parent.id = true ∧
      eased.recentBlocks.contains parent.id = true := by
  obtain ⟨found, hfound, rfl⟩ := after_eq_ok_iff.1 hcontext
  obtain ⟨front, hfront, hprefix⟩ := ancestors_later hle hfound
  have heased := after_eq_ok_iff.2 ⟨front, hfront, rfl⟩
  refine ⟨_, heased, ?_, contains_parent found, contains_parent front⟩
  exact eases_ofWindow hfloor hle ((List.prefix_cons_inj parent).2 hprefix).subset
    fun hfew hzero => hcount ⟨_, heased, hfew, hzero⟩

/-! ## What the walk visits -/

/-- From a block the walk goes on to another, if nothing bounds its steps. -/
def WalksTo (g : Genesis) (now : UInt64) (lookup : Hash → Except ε (Option Block))
    (b a : Block) : Prop :=
  b.height ≠ 0 ∧ lookup b.parentId = .ok (some a) ∧ ¬isOlder g now a = true

/-- The step back is a function: from `b` the look-up gives one `a` at most. -/
theorem WalksTo.unique {a' : Block} (h : WalksTo g now lookup b a)
    (h' : WalksTo g now lookup b a') : a = a' :=
  Option.some.inj (Except.ok.inj (h.2.1.symm.trans h'.2.1))

/--
The walk is a chain of `WalksTo`, and where it took fewer steps than `limit` it could not go on.
-/
theorem isChain_ancestors {found : List Block}
    (hfound : ancestors g now lookup limit b = .ok found) :
    (b :: found).IsChain (WalksTo g now lookup) ∧
      (found.length < limit → ∀ a, ¬WalksTo g now lookup ((b :: found).getLast (by simp)) a) := by
  -- induction on the steps that are left, with one case for each way in which `ancestors` ends
  induction limit generalizing b found with
  | zero =>
    obtain rfl := Except.ok.inj hfound
    exact ⟨.singleton b, fun hlt => absurd hlt (Nat.not_lt_zero _)⟩
  | succ limit ih =>
    -- it ends at the height zero, at a look-up that finds nothing or at a block that is too old
    rw [ancestors] at hfound
    split at hfound
    · next hheight =>
      obtain rfl := Except.ok.inj hfound
      exact ⟨.singleton b, fun _ a h => h.1 hheight⟩
    · next hheight =>
      obtain ⟨ancestor, hancestor, hfound⟩ := Except.bind_eq_ok_iff.1 hfound
      cases ancestor with
      | none =>
        obtain rfl := Except.ok.inj hfound
        refine ⟨.singleton b, fun _ a h => ?_⟩
        cases hancestor.symm.trans h.2.1
      | some a =>
        simp only [] at hfound
        split at hfound
        · next holder =>
          obtain rfl := Except.ok.inj hfound
          refine ⟨.singleton b, fun _ a' h => h.2.2 ?_⟩
          obtain rfl := Option.some.inj (Except.ok.inj (hancestor.symm.trans h.2.1))
          exact holder
        · next holder =>
          obtain ⟨rest, hrest, hfound⟩ := Except.bind_eq_ok_iff.1 hfound
          obtain rfl := Except.ok.inj hfound
          obtain ⟨hchain, hends⟩ := ih hrest
          refine ⟨List.isChain_cons_cons.2 ⟨⟨hheight, hancestor, holder⟩, hchain⟩, fun hlt => ?_⟩
          rw [List.getLast_cons (List.cons_ne_nil a rest)]
          exact hends (Nat.lt_of_succ_lt_succ hlt)

/--
A walk that visited a block twice, or that could not go on, visited everything that there is to
visit: every `a` that `WalksTo` reaches from `b` is on the path.
-/
theorem mem_of_reflTransGen {path : List Block}
    (hchain : (b :: path).IsChain (WalksTo g now lookup))
    (hcovers : ¬(b :: path).Nodup ∨
      ∀ a, ¬WalksTo g now lookup ((b :: path).getLast (by simp)) a)
    (hreach : Relation.ReflTransGen (WalksTo g now lookup) b a) : a ∈ b :: path := by
  have hstep := List.isChain_iff_getElem.1 hchain
  rcases hcovers with hrepeats | hends
  · -- the blocks before the repetition lead to each other only
    obtain ⟨x, hx⟩ := List.exists_duplicate_iff_not_nodup.2 hrepeats
    obtain ⟨i, j, hij, hi, hj⟩ := List.duplicate_iff_exists_distinct_get.1 hx
    have hij : i.val < j.val := hij
    suffices ∃ k, ∃ hk : k < j.val, (b :: path)[k] = a by
      obtain ⟨k, hk, rfl⟩ := this
      exact List.getElem_mem _
    -- the index stays below `j`: a step that would arrive at `j` is at `i` instead
    induction hreach with
    | refl => exact ⟨0, by omega, rfl⟩
    | @tail y z _ hyz ih =>
      obtain ⟨k, hk, rfl⟩ := ih
      have hnext := (hstep k (by omega)).unique hyz
      by_cases hlast : k + 1 < j.val
      · exact ⟨k + 1, hlast, hnext⟩
      · have hk' : k + 1 = j.val := by omega
        refine ⟨i.val, hij, ?_⟩
        rw [← hnext]
        simp only [hk']
        exact hi.symm.trans hj
  · -- every block but the last leads to the next one, and the last leads nowhere
    induction hreach with
    | refl => exact List.mem_cons_self
    | @tail y z _ hyz ih =>
      obtain ⟨k, hk, rfl⟩ := List.getElem_of_mem ih
      by_cases hlast : k + 1 < (b :: path).length
      · rw [← (hstep k hlast).unique hyz]
        exact List.getElem_mem _
      · have hk' : k = (b :: path).length - 1 := by omega
        subst hk'
        rw [← List.getLast_eq_getElem (by simp)] at hyz
        exact absurd hyz (hends z)

end BlockContext

/-! ## What the engine asks for -/

open BlockContext

variable {g : Genesis} {h h' : History} {e e' : Engine} {now later clock : UInt64}
  {parent a b : Block} {window : List Block}

namespace Coherent

variable (hc : Coherent g h e) (hfree : h.CollisionFree)

include hc

/-- What `find?` gives is known: it was tracked, or it stands on the accepted chain. -/
theorem isKnown_of_find? {id : Hash} (hfind : e.find? id = .ok (some b)) : e.IsKnown id := by
  obtain ⟨rfl, -, ⟨entry, hentry, -⟩ | ⟨-, hchain⟩⟩ := hc.find?_eq_ok hfind
  · exact .inl (Engine.isTracked_iff.2 ⟨entry, hentry⟩)
  · exact hc.isKnown_of_mem_chain hchain

/-- `contextAfter` gives a context after every block. -/
theorem exists_contextAfter (parent : Block) (now : UInt64) :
    ∃ context, e.contextAfter parent now = .ok context := by
  -- no look-up in the store fails, since every entry under a block key is a block of the chain
  have hload (id : Hash) : Except.FailsOnly (fun _ => False)
      (Engine.loadBlock e.store.entries id) := by
    cases hbytes : e.store.entries[StoreKey.block id]? with
    | none => exact .of_eq_ok (by rw [Engine.loadBlock, hbytes])
    | some bytes =>
      obtain ⟨b, hb, rfl, -⟩ := (hc.settled.stored id bytes).1 hbytes
      exact .of_eq_ok (hc.settled.loadBlock_of_mem_chain hc.sound hb)
  have hfails := Engine.failsOnly_contextAfter hload parent now
  cases hcontext : e.contextAfter parent now with
  | ok context => exact ⟨context, rfl⟩
  | error cause => exact (hfails cause hcontext).elim

/--
`WalksTo`, as often as one likes from an `IsKnown` block of the history, leads to such blocks only.
-/
theorem isKnown_of_reflTransGen (hparent : parent ∈ h.blocks) (hknown : e.IsKnown parent.id)
    (hreach : Relation.ReflTransGen (WalksTo g now e.find?) parent a) :
    a ∈ h.blocks ∧ e.IsKnown a.id := by
  rcases hreach.cases_tail with rfl | ⟨b, -, hstep⟩
  · exact ⟨hparent, hknown⟩
  · obtain ⟨hid, hmem, -⟩ := hc.find?_eq_ok hstep.2.1
    exact ⟨hmem, hid ▸ hc.isKnown_of_find? hstep.2.1⟩

include hfree

/--
`window` holds exactly the blocks that `WalksTo` leads to: the bound on the steps leaves out none,
since a walk as long as `knownBlocks` has been there before.
-/
theorem mem_window_iff (hparent : parent ∈ h.blocks) (hknown : e.IsKnown parent.id)
    (hwindow : BlockContext.window g now parent e.find? e.knownBlocks = .ok window) :
    a ∈ window ↔ Relation.ReflTransGen (WalksTo g now e.find?) parent a := by
  obtain ⟨found, hfound, hwindow⟩ := Except.bind_eq_ok_iff.1 hwindow
  obtain rfl := Except.ok.inj hwindow
  obtain ⟨hchain, hends⟩ := isChain_ancestors hfound
  have hvisited : ∀ a ∈ parent :: found,
      Relation.ReflTransGen (WalksTo g now e.find?) parent a := by
    -- every block of a chain is reached from its head
    have hpairwise := (hchain.imp fun _ _ => Relation.ReflTransGen.single).pairwise
    exact List.forall_mem_cons.2 ⟨.refl, (List.pairwise_cons.1 hpairwise).1⟩
  refine ⟨hvisited a, mem_of_reflTransGen hchain ?_⟩
  by_cases hlength : found.length < e.knownBlocks
  · exact .inr (hends hlength)
  · -- without a repetition there would be more blocks on the way than the engine knows
    refine .inl fun hnodup => hlength ?_
    have hvisit : ∀ a ∈ parent :: found, a ∈ h.blocks ∧ e.IsKnown a.id := fun a ha =>
      hc.isKnown_of_reflTransGen hparent hknown (hvisited a ha)
    have hids : ((parent :: found).map (·.id)).Nodup := hnodup.map_on fun x hx y hy hid =>
      hfree.eq_of_id_eq hc.sound (hvisit x hx).1 (hvisit y hy).1 hid
    have hle := Engine.length_le_knownBlocks hids
      (List.forall_mem_map.2 fun a ha => (hvisit a ha).2)
    rw [List.length_map, List.length_cons] at hle
    omega

end Coherent

/--
`window` at a later time holds no other block, unless an identifier that `find?` did not know in the
walk has become known.
-/
theorem Coherent.window_subset (hc : Coherent g h e) (hc' : Coherent g h' e')
    (hfree : h'.CollisionFree) (hblocks : h.blocks ⊆ h'.blocks) (hparent : parent ∈ h.blocks)
    (hknown : e.IsKnown parent.id) (hknown' : e'.IsKnown parent.id) (hle : now ≤ later)
    {rest : List Block}
    (hwindow : BlockContext.window g now parent e.find? e.knownBlocks = .ok window)
    (hrest : BlockContext.window g later parent e'.find? e'.knownBlocks = .ok rest)
    (hmissing : ∀ b ∈ window, b.height ≠ 0 → ¬e.IsKnown b.parentId → ¬e'.IsKnown b.parentId) :
    rest ⊆ window := by
  intro a ha
  rw [hc'.mem_window_iff hfree (hblocks hparent) hknown' hrest] at ha
  rw [hc.mem_window_iff (hfree.of_subset hblocks) hparent hknown hwindow]
  -- induction on the path of the later walk, of which each step is one of the earlier walk
  induction ha with
  | refl => exact .refl
  | @tail x y _ hstep ih =>
    obtain ⟨hheight, hfind', holder⟩ := hstep
    refine ih.tail ⟨hheight, ?_, fun h => holder (isOlder_later hle h)⟩
    have hx : x ∈ window :=
      (hc.mem_window_iff (hfree.of_subset hblocks) hparent hknown hwindow).2 ih
    have hstill : e.IsKnown x.parentId := by
      by_contra hunknown
      exact hmissing x hx hheight hunknown (hc'.isKnown_of_find? hfind')
    -- both found the block of that identifier
    obtain ⟨z, hz, hzid, hfind⟩ := hc.exists_find? hstill
    obtain ⟨hyid, hy, -⟩ := hc'.find?_eq_ok hfind'
    obtain rfl := hfree.eq_of_id_eq hc'.sound (hblocks hz) hy (hzid.trans hyid.symm)
    exact hfind

namespace Engine

/-- The context that the engine derives for a child of a block `BlockContext.Overflows`. -/
def Overflows (e : Engine) (clock : UInt64) (parent : Block) : Prop :=
  BlockContext.Overflows e.genesis (childTime clock parent) parent e.find? e.knownBlocks

/-- The walk back from the preferred block asks for a block that the engine does not know. -/
def Misses (e : Engine) (clock : UInt64) (id : Hash) : Prop :=
  ∃ parent window, e.preferredBlock = .ok parent ∧
    BlockContext.window e.genesis (childTime clock parent) parent e.find? e.knownBlocks =
      .ok window ∧
    ∃ b ∈ window, b.height ≠ 0 ∧ b.parentId = id ∧ ¬e.IsKnown id

/-- A mining target is still enough. -/
structure Honours (e : Engine) (clock : UInt64) (target : MiningTarget) : Prop where
  /-- The target that is given now is no higher. -/
  serves : ∃ current, e.miningTarget clock = .ok current ∧ current.blockId = target.blockId ∧
    current.difficulty ≤ target.difficulty ∧ current.cost ≤ target.cost
  /-- A transaction that meets the target is in the window and has enough work. -/
  admits : ∀ tx : Transaction, tx.blockId = target.blockId → target.difficulty ≤ tx.difficulty →
    (e.submit clock tx).1 ≠ .error (.unknownReference tx.id) ∧
    ∀ required found, (e.submit clock tx).1 ≠ .error (.difficultyTooLow tx.id required found)

/--
`submit` answers neither `unknownReference` nor `difficultyTooLow` to what its context admits.
-/
theorem submit_ne_of_context {context : BlockContext} {tx : Transaction}
    (hparent : e.preferredBlock = .ok parent)
    (hcontext : e.contextAfter parent (childTime clock parent) = .ok context)
    (hrefers : context.recentBlocks.contains tx.blockId = true)
    (hwork : context.nextDifficulty ≤ tx.difficulty) :
    (e.submit clock tx).1 ≠ .error (.unknownReference tx.id) ∧
    ∀ required found, (e.submit clock tx).1 ≠ .error (.difficultyTooLow tx.id required found) := by
  have hadmission : Except.FailsOnly (fun cause => cause ≠ .unknownReference tx.id ∧
      ∀ required found, cause ≠ .difficultyTooLow tx.id required found)
      (e.checkAdmission clock tx) := by
    unfold checkAdmission
    -- one line for each check of `checkAdmission`, in its order; the third is that of the reference
    refine .guard (by simp) ?_
    refine .bind (.mapError_of_forall (by simp)) fun _ _ => ?_
    refine .bind (.mapError_of_forall (by simp)) fun _ _ => ?_
    rw [hparent, Except.ok_bind]
    simp only []
    rw [hcontext, Except.ok_bind, if_neg (by simp [hrefers])]
    refine .guard (by simp) ?_
    -- the work is enough, so this check passes and cannot be the one that fails
    rw [if_neg (UInt64.not_lt.2 hwork)]
    refine .bind ((viewFrom_fails e parent.id).mono fun _ h => by simp [h]) fun _ _ => ?_
    exact .guard (by simp) (.discard (.mapError_of_forall (by simp)))
  simp only [submit]
  split
  · next cause hcause =>
    obtain ⟨hreference, hlow⟩ := hadmission cause hcause
    exact ⟨fun heq => hreference (Except.error.inj heq),
      fun required found heq => hlow required found (Except.error.inj heq)⟩
  · simp

end Engine

namespace Engine

/-- A later clock never gives an earlier `childTime`: the parent's half of the maximum stays. -/
theorem childTime_mono {clock' : UInt64} (hle : clock ≤ clock') (parent : Block) :
    childTime clock parent ≤ childTime clock' parent := by
  rw [UInt64.le_iff_toNat_le] at hle ⊢
  rw [childTime, childTime, UInt64.toNat_max, UInt64.toNat_max]
  omega

/-- `miningTarget` is read off the context after `preferredBlock`. -/
theorem miningTarget_eq_ok {target : MiningTarget} (hparent : e.preferredBlock = .ok parent)
    (htarget : e.miningTarget clock = .ok target) :
    ∃ context, e.contextAfter parent (childTime clock parent) = .ok context ∧
      target = ⟨parent.id, context.nextDifficulty, context.nextCost, e.genesis.minPrice⟩ := by
  rw [miningTarget, hparent, Except.ok_bind] at htarget
  obtain ⟨context, hcontext, htarget⟩ := Except.bind_eq_ok_iff.1 htarget
  exact ⟨context, hcontext, (Except.ok.inj htarget).symm⟩

end Engine

/--
`Honours` holds of a target while its block stays `preferred` and nothing it `Misses` is found.
-/
theorem Coherent.honours (hc : Coherent g h e) (hc' : Coherent g h' e')
    (hfree : h'.CollisionFree) (hblocks : h.blocks ⊆ h'.blocks)
    (hsame : e'.preferred = e.preferred) {clock' : UInt64} (hle : clock ≤ clock')
    (hparent : e.preferredBlock = .ok parent) (hfloor : g.minDifficulty ≤ parent.difficulty)
    {target : MiningTarget} (htarget : e.miningTarget clock = .ok target)
    (hmissing : ∀ id, e.Misses clock id → ¬e'.IsKnown id)
    (hcount : ¬e'.Overflows clock' parent) : e'.Honours clock' target := by
  have hfind := Engine.find_eq_ok_iff.1 hparent
  obtain ⟨hid, hmem, -⟩ := hc.find?_eq_ok hfind
  -- the block is found in both states, so both contexts are those after the same parent
  have hknown : e.IsKnown parent.id := hid ▸ hc.isKnown_of_find? hfind
  have hknown' : e'.IsKnown parent.id := by
    rw [hid, ← hsame]
    refine hc'.arranged.preferred.elim .inl fun htip => ?_
    exact htip ▸ hc'.isKnown_of_mem_chain hc'.settled.tip_mem_chain
  have hparent' : e'.preferredBlock = .ok parent := by
    refine Engine.find_eq_ok_iff.2 ?_
    rw [hsame, ← hid]
    exact hc'.find?_of_isKnown hfree (hblocks hmem) hknown'
  obtain ⟨context, hcontext, rfl⟩ := Engine.miningTarget_eq_ok hparent htarget
  obtain ⟨context', hcontext'⟩ := hc'.exists_contextAfter parent (Engine.childTime clock' parent)
  -- the later window is part of the earlier one
  have heases : context'.Eases context ∧ context'.recentBlocks.contains parent.id = true := by
    rw [Engine.contextAfter, hc.settled.genesis] at hcontext
    rw [Engine.contextAfter, hc'.settled.genesis] at hcontext'
    rw [Engine.Overflows, hc'.settled.genesis] at hcount
    have heased := hcontext'
    obtain ⟨window, hwindow, hcontext⟩ := Except.bind_eq_ok_iff.1 hcontext
    obtain ⟨rest, hrest, hcontext'⟩ := Except.bind_eq_ok_iff.1 hcontext'
    obtain rfl := Except.ok.inj hcontext
    obtain rfl := Except.ok.inj hcontext'
    have hsub := hc.window_subset hc' hfree hblocks hmem hknown hknown'
      (Engine.childTime_mono hle parent) hwindow hrest fun b hb hheight hunknown =>
        hmissing b.parentId ⟨parent, window, hparent, by rw [hc.settled.genesis]; exact hwindow,
          b, hb, hheight, rfl, hunknown⟩
    obtain ⟨found, -, hrest⟩ := Except.bind_eq_ok_iff.1 hrest
    obtain rfl := Except.ok.inj hrest
    refine ⟨eases_ofWindow hfloor (Engine.childTime_mono hle parent) hsub fun hfew hzero => ?_,
      contains_parent found⟩
    exact hcount ⟨_, heased, hfew, hzero⟩
  obtain ⟨heases, hcontains⟩ := heases
  constructor
  · refine ⟨⟨parent.id, context'.nextDifficulty, context'.nextCost, e'.genesis.minPrice⟩, ?_, rfl,
      heases.nextDifficulty, heases.nextCost⟩
    rw [Engine.miningTarget, hparent', Except.ok_bind, hcontext']
    rfl
  · intro tx hrefers hwork
    exact Engine.submit_ne_of_context hparent' hcontext' (by rw [hrefers]; exact hcontains)
      (UInt64.le_trans heases.nextDifficulty hwork)

/-- `Misses` holds of nothing behind a preferred block that has a view by `viewFrom`. -/
theorem Reach.not_misses_of_viewFrom (hreach : Reach g h e) (hfree : h.CollisionFree)
    {view : View} (hparent : e.preferredBlock = .ok parent)
    (hview : e.viewFrom parent.id = .ok view) (clock : UInt64) (id : Hash) :
    ¬e.Misses clock id := by
  rintro ⟨parent', window, hparent', hwindow, b, hb, hheight, rfl, hunknown⟩
  -- both the target and the view are of the block that is preferred
  obtain rfl := Except.ok.inj (hparent.symm.trans hparent')
  have hc := hreach.coherent hfree
  rw [hc.settled.genesis] at hwindow
  have hfind := Engine.find_eq_ok_iff.1 hparent
  have hid := (hc.find?_eq_ok hfind).1
  obtain ⟨path, hpedigree⟩ :=
    hreach.pedigree hfree parent (hc.verified_of_find? hfind (hid ▸ hview))
  have hl := hpedigree.lineage
  have hknown := hc.isKnown_of_viewFrom hfree hfind (hid ▸ hview) hl
  -- the window is the front of the lineage, which is known
  obtain ⟨found, hfound, hwindow⟩ := Except.bind_eq_ok_iff.1 hwindow
  obtain rfl := Except.ok.inj hwindow
  have hfront := (List.prefix_cons_inj parent).2
    (ancestors_front hfree hc.sound hc.faithful_find? hl hfound)
  obtain ⟨newer, older, hpath⟩ := List.append_of_mem (hfront.subset hb)
  have hlb : h.Lineage (b :: older) := (hpath ▸ hl).of_append
  cases older with
  | nil => exact hheight (hlb.eq_first ▸ (Block.first_eq_ok hc.sound.first).2.1)
  | cons p older =>
    -- the next one on the lineage is behind the preferred block
    have hp : p ∈ path := by
      have hsuffix : b :: p :: older <:+ parent :: path := ⟨newer, hpath.symm⟩
      rcases List.suffix_cons_iff.1 hsuffix with heq | hsuffix
      · exact (List.cons.inj heq).2 ▸ List.mem_cons_self
      · exact hsuffix.subset (List.mem_cons_of_mem b List.mem_cons_self)
    exact hunknown (hlb.parent_eq.1 ▸ hknown p hp)

/-- `History.follow` takes no block away from `blocks`. -/
theorem History.blocks_subset_follow (requests : List (UInt64 × Request)) :
    h.blocks ⊆ (History.follow requests (h, e)).1.blocks := by
  induction requests generalizing h e with
  | nil => exact fun _ hb => hb
  | cons request requests ih =>
    exact List.Subset.trans (h.blocks_subset_record e request.1 request.2) ih

section Later

variable {requests : List (UInt64 × Request)} {clock' : UInt64} {target : MiningTarget}
  (hreach : Reach g h e) (hform : ∀ request ∈ requests, request.2.WellFormed)
  (hrun : History.follow requests (h, e) = (h', e')) (hfree : h'.CollisionFree)
  (hsame : e'.preferred = e.preferred) (hle : clock ≤ clock')
  (htarget : e.miningTarget clock = .ok target)

include hreach hform hrun hfree hsame hle htarget

/-- `Honours` holds after requests that made nothing known of what the engine `Misses`. -/
theorem Reach.honours (hparent : e.preferredBlock = .ok parent)
    (hfloor : g.minDifficulty ≤ parent.difficulty)
    (hmissing : ∀ id, e.Misses clock id → ¬e'.IsKnown id)
    (hcount : ¬e'.Overflows clock' parent) : e'.Honours clock' target := by
  have hreach' := hreach.follow hform
  have hblocks := History.blocks_subset_follow (h := h) (e := e) requests
  rw [hrun] at hreach' hblocks
  have hc := hreach.coherent (hfree.of_subset hblocks)
  exact hc.honours (hreach'.coherent hfree) hfree hblocks hsame hle hparent hfloor htarget hmissing
    hcount

/-- `Honours` holds of a target for a block with a view, whatever becomes known. -/
theorem Reach.honours_of_viewFrom {view : View} (hview : e.viewFrom e.preferred = .ok view)
    (hcount : ∀ parent, e.preferredBlock = .ok parent → ¬e'.Overflows clock' parent) :
    e'.Honours clock' target := by
  have hblocks := History.blocks_subset_follow (h := h) (e := e) requests
  rw [hrun] at hblocks
  have hfree₀ := hfree.of_subset hblocks
  have hc := hreach.coherent hfree₀
  obtain ⟨parent, hparent, -⟩ := Except.bind_eq_ok_iff.1 htarget
  have hfind := Engine.find_eq_ok_iff.1 hparent
  have hid := (hc.find?_eq_ok hfind).1
  -- the first block has the least difficulty, and every other one that was verified pays for more
  have hfloor : g.minDifficulty ≤ parent.difficulty := by
    by_cases hfirst : parent = h.first
    · rw [hfirst, (Block.floors_of_first hc.sound.first).1]
      exact UInt64.le_refl _
    · exact (hreach.paid hfree₀ parent (hc.verified_of_find? hfind hview) hfirst).1.difficulty.1
  refine hreach.honours hform hrun hfree hsame hle htarget hparent hfloor (fun id hmisses => ?_)
    (hcount parent hparent)
  exact absurd hmisses
    (hreach.not_misses_of_viewFrom hfree₀ hparent (hid.symm ▸ hview) clock id)

end Later

/--
What a block asks of a transaction does not rise while time passes, unless the count of windows
`Overflows`. Through one `lookup`, the later context `Eases` the one before: it knows no other
blocks and transactions and asks for no more. Both know `parent`. So the state at the end of any run
on which the same block is preferred again `Honours` the target, unless an ancestor that the engine
`Misses` at the time of `miningTarget` has become known since.
-/
theorem Genesis.target_sufficient (g : Genesis) :
    (∀ {ε : Type} {lookup : Hash → Except ε (Option Block)} {limit : Nat} {parent : Block}
        {now later : UInt64} {context : BlockContext}, g.minDifficulty ≤ parent.difficulty →
      now ≤ later → ¬BlockContext.Overflows g later parent lookup limit →
      BlockContext.after g now parent lookup limit = .ok context →
      ∃ eased, BlockContext.after g later parent lookup limit = .ok eased ∧ eased.Eases context ∧
        context.recentBlocks.contains parent.id = true ∧
        eased.recentBlocks.contains parent.id = true) ∧
    ∀ {h h' : History} {e e' : Engine} {requests : List (UInt64 × Request)} {parent : Block}
        {clock clock' : UInt64} {target : MiningTarget}, Reach g h e →
      (∀ request ∈ requests, request.2.WellFormed) →
      History.follow requests (h, e) = (h', e') → h'.CollisionFree →
      e'.preferred = e.preferred → clock ≤ clock' →
      e.preferredBlock = .ok parent → g.minDifficulty ≤ parent.difficulty →
      e.miningTarget clock = .ok target → (∀ id, e.Misses clock id → ¬e'.IsKnown id) →
      ¬e'.Overflows clock' parent → e'.Honours clock' target := by
  refine ⟨fun hfloor hle hcount hcontext => after_later hfloor hle hcount hcontext, ?_⟩
  intro h h' e e' requests parent clock clock' target hreach hform hrun hfree hsame hle hparent
    hfloor htarget hmissing hcount
  exact hreach.honours hform hrun hfree hsame hle htarget hparent hfloor hmissing hcount

/-! ## A count that overflows, and an ancestor that is found late

With windows of one second, and a block at the beginning of time, the last second makes one window
more than a word can count, and nothing is subtracted from the difficulty then. And on a chain that
is aimed at one transaction in the window a block is preferred whose parent is not known: its own
transaction is the only one that counts until the parent is known as well.
-/

namespace Siblings

/-- The genesis of `Siblings` with room for one transaction in a block of its window. -/
def sparse : Genesis := { genesis with targetBlockSize := 1, targetBlockRate := 60 }

/-- The genesis of `Siblings` with windows of one second. -/
def hasty : Genesis := { genesis with lookbackWindow := 1 }

/-- A block of height zero that is more difficult than it has to be. -/
def steep : Block where
  content := ⟨Hash.zero, 0, 0, 2, 0, []⟩
  bytes := frame ⟨Hash.zero, 0, 0, 2, 0, []⟩
  id := hash 0x6872b2259f7c708ea4831af1764106249828ab4080e41d07b1e139b086c90c8a
  id_eq := by decide +kernel

/-- A claim that refers to the child of the left block. -/
def offer : Transaction where
  unsigned := ⟨⟨key, upper.id, 0, 5⟩, .claim "baz"⟩
  signature := claim.signature
  digest := hash 0x4ac02f0f3c8886aed015f391b8cb08b7c541c8a81aedc38057476cc247a9d5f5
  id := hash 0x440b6e330b8b9bc2e60ee396ac2665045e10a7f08aabaa1068676ee266b510f5
  digest_eq := by decide +kernel
  id_eq := by decide +kernel

/-- The engine that was just opened on `sparse`. -/
def sparseStart : Engine := Engine.atGenesis sparse [] first

/-- The child of the left block is preferred, and the left block is not known. -/
def orphaned : History × Engine :=
  History.follow [(70, .parse upper.bytes), (70, .prefer upper.id)] (.start first, sparseStart)

/-- The left block is known too. -/
def adopted : History × Engine :=
  History.follow [(70, .parse left.bytes)] (orphaned.1, orphaned.2)

/-- The two requests only track `upper` and prefer it. -/
theorem orphaned_eq : orphaned = ((History.start first).name upper, { sparseStart with
    tracked := sparseStart.tracked.insert upper.id ⟨upper, none, []⟩, preferred := upper.id }) := by
  have hunknown : sparseStart.status upper.id = .error (.blockNotFound upper.id) := by
    decide +kernel
  rw [orphaned, History.follow_parse isFramed_upper hunknown]
  simp [History.follow, History.record, Engine.after, Engine.prefer, Engine.isTracked]

/-- The third request only tracks `left`. -/
theorem adopted_eq : adopted = (orphaned.1.name left, { orphaned.2 with
    tracked := orphaned.2.tracked.insert left.id ⟨left, none, []⟩ }) := by
  have hunknown : orphaned.2.status left.id = .error (.blockNotFound left.id) := by
    rw [orphaned_eq]
    decide +kernel
  exact History.follow_parse isFramed_left hunknown []

/-- `orphaned`, with the missing parent, is reachable, so the counterexample is about a real run. -/
theorem reach_orphaned : Reach sparse orphaned.1 orphaned.2 := by
  have hstart : Reach sparse (.start first) sparseStart :=
    Reach.atGenesis rfl (Block.ofContent_eq_ok_iff.2 ⟨rfl, isFramed_first⟩) rfl
  refine hstart.follow fun request hrequest => ?_
  simp only [List.mem_cons, List.not_mem_nil, or_false] at hrequest
  rcases hrequest with rfl | rfl <;> trivial

/-- In the last second of all the windows since `steep` are too many to count in a word. -/
theorem nextDifficulty_steep : ∃ context later,
    BlockContext.after hasty (UInt64.ofNat (UInt64.size - 2)) steep sparseStart.find? 0 =
      .ok context ∧
    BlockContext.after hasty (UInt64.ofNat (UInt64.size - 1)) steep sparseStart.find? 0 =
      .ok later ∧
    context.nextDifficulty = 1 ∧ later.nextDifficulty = 2 :=
  ⟨_, _, rfl, rfl, by decide +kernel, by decide +kernel⟩

/--
Two ways for a target to rise. Behind `steep` it does so when the count of windows overflows.
Behind `upper`, `claim` meets the target and does not meet what is asked for when `left` is known.
-/
theorem target_outrun : (hasty.minDifficulty ≤ steep.difficulty ∧ ∃ context later,
      BlockContext.after hasty (UInt64.ofNat (UInt64.size - 2)) steep sparseStart.find? 0 =
        .ok context ∧
      BlockContext.after hasty (UInt64.ofNat (UInt64.size - 1)) steep sparseStart.find? 0 =
        .ok later ∧
      context.nextDifficulty < later.nextDifficulty) ∧
    Reach sparse orphaned.1 orphaned.2 ∧
    History.follow [(70, .parse left.bytes)] (orphaned.1, orphaned.2) = adopted ∧
    adopted.1.CollisionFree ∧
    orphaned.2.preferredBlock = .ok upper ∧ adopted.2.preferred = orphaned.2.preferred ∧
    sparse.minDifficulty ≤ upper.difficulty ∧
    (∃ target, orphaned.2.miningTarget 70 = .ok target ∧ offer.blockId = target.blockId ∧
      target.difficulty ≤ offer.difficulty) ∧
    (adopted.2.submit 70 offer).1 = .error (.difficultyTooLow offer.id 2 1) := by
  obtain ⟨context, later, hcontext, hlater, hone, htwo⟩ := nextDifficulty_steep
  refine ⟨⟨by decide, context, later, hcontext, hlater, by rw [hone, htwo]; decide⟩, reach_orphaned,
    rfl, ?_, ?_, by rw [adopted_eq], by decide, ?_, ?_⟩
  · rw [adopted_eq, orphaned_eq]
    exact CollisionFree.of_ids (·.id_eq) (by decide +kernel)
  · rw [orphaned_eq]
    decide +kernel
  · -- what the target says is computed; the target itself is then any that says so
    have htarget : (orphaned.2.miningTarget 70).toOption.map (fun t => (t.blockId, t.difficulty)) =
        some (upper.id, 1) := by
      rw [orphaned_eq]
      decide +kernel
    cases hfound : orphaned.2.miningTarget 70 with
    | error cause =>
      rw [hfound] at htarget
      cases htarget
    | ok target =>
      rw [hfound] at htarget
      obtain ⟨hid, hdifficulty⟩ := Prod.mk.inj (Option.some.inj htarget)
      refine ⟨target, rfl, hid.symm, ?_⟩
      rw [hdifficulty]
      decide +kernel
  · rw [adopted_eq, orphaned_eq]
    decide +kernel

/-- `Overflows` never holds with the windows of `genesis`, which last more than a second. -/
theorem not_overflows (now : UInt64) (parent : Block) {ε : Type}
    (lookup : Hash → Except ε (Option Block)) (limit : Nat) :
    ¬BlockContext.Overflows genesis now parent lookup limit := by
  rintro ⟨context, -, -, hzero⟩
  have hshort := ((FeeMarket.startedWindows_eq_zero_iff genesis _).1 hzero).1
  exact absurd hshort (by decide)

/-- A look-up that finds nothing. -/
def blind (_ : Hash) : Except EngineError (Option Block) := .ok none

/-- `Eases` and `Honours` on the first block, long after its target was given. -/
theorem first_target_stays :
    (∃ context eased, BlockContext.after genesis 50 left blind 9 = .ok context ∧
      BlockContext.after genesis 500 left blind 9 = .ok eased ∧ eased.Eases context) ∧
    ∃ target, start.miningTarget 50 = .ok target ∧
      (start.after 60 (.parse left.bytes)).Honours 500 target := by
  obtain ⟨hmarket, hengine⟩ := Genesis.target_sufficient genesis
  constructor
  · have hcontext : BlockContext.after genesis 50 left blind 9 =
        -- the look-up finds nothing behind `left`, so the window is `left` alone
        .ok (BlockContext.ofWindow genesis 50 left [left]) := rfl
    have hlater : (50 : UInt64) ≤ 500 := by decide
    obtain ⟨eased, heased, heases, -⟩ := hmarket (by decide) hlater
      (not_overflows 500 left blind 9) hcontext
    exact ⟨_, eased, hcontext, heased, heases⟩
  · have hunknown : start.status left.id = .error (.blockNotFound left.id) := by decide +kernel
    have hparse : start.after 60 (.parse left.bytes) =
        { start with tracked := start.tracked.insert left.id ⟨left, none, []⟩ } := by
      rw [Engine.after, Engine.parse_of_unknown isFramed_left hunknown]
    have hrun : History.follow [(60, .parse left.bytes)] (.start first, start) = _ :=
      History.follow_parse isFramed_left hunknown []
    rw [hparse]
    have hfree : ((History.start first).name left).CollisionFree :=
      CollisionFree.of_ids (·.id_eq) (by decide +kernel)
    have hparent : start.preferredBlock = .ok first := by decide +kernel
    have hc := reach_start.coherent
      (hfree.of_subset ((History.start first).blocks_subset_name left))
    obtain ⟨context, hcontext⟩ := hc.exists_contextAfter first (Engine.childTime 50 first)
    have htarget : start.miningTarget 50 =
        .ok ⟨first.id, context.nextDifficulty, context.nextCost, start.genesis.minPrice⟩ := by
      rw [Engine.miningTarget, hparent, Except.ok_bind, hcontext]
      rfl
    have hview : start.viewFrom first.id = .ok start.durable := by rfl
    refine ⟨_, htarget, hengine reach_start (by simp [Request.WellFormed]) hrun hfree rfl
      (by decide) hparent (by decide) htarget (fun id => ?_) (not_overflows _ first _ _)⟩
    have hmisses := reach_start.not_misses_of_viewFrom
      (hfree.of_subset ((History.start first).blocks_subset_name left)) hparent hview 50 id
    exact fun h => absurd h hmisses

end Siblings

end LeaseChain
