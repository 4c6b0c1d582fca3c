import LeaseChain.Engine.Query
import LeaseChain.Proofs.Engine.Branches
import LeaseChain.Proofs.Engine.Drafting
import LeaseChain.Proofs.Engine.Failures

/-!
# Where the preferred block stays live

New blocks are built on the preferred block, which is of use as long as it is on a live branch. A
decision moves the preference only if it takes the preferred block itself: acceptance to the new
tip, rejection to the parent. It does not look at the blocks behind the preferred one, so that the
preference stays where it is when one of those is rejected, or when a block beside them is accepted.
`Engine.CutsOff` says which requests these are; every other request keeps a live preferred block
live.

## Key results

- `Engine.CutsOff`: the requests that leave the preferred block without a way down
- `Engine.Grows`: what requests other than decisions do, by one lemma for each of them
- `Coherent.live_after_iff`: the preferred block stays live exactly where it is not cut off
- `Steady.preferred_live`: along every run that never cuts it off, it is live
-/

namespace LeaseChain

open Except (FailsOnly)

variable {g : Genesis} {h : History} {e e' : Engine}

/-- The request leaves the preferred block, or a new one, without a way down to the tip. -/
def Engine.CutsOff (e : Engine) : Request → Prop
  -- a block is committed that the preferred block, which stays tracked, does not stand on
  | .accept id => (e.accept id).1 = .ok () ∧ e.isTracked id = true ∧
      e.isTracked e.preferred = true ∧ ¬e.Reaches id e.preferred
  -- a block is forgotten that the preferred block stands on
  | .reject id => e.isTracked id = true ∧ id ≠ e.preferred ∧ e.Reaches id e.preferred
  -- a block is preferred that has no way down to begin with
  | .prefer id => (e.isTracked id = true ∨ e.lastAccepted.id = id) ∧ ¬e.Live id
  | _ => False

/-- The runs in which no request cuts the preferred block off. -/
inductive Steady (g : Genesis) : History → Engine → Prop where
  | start {settings : Settings} {refusals : Nat} {e : Engine} {store : Store}
      (h : Engine.start g settings ⟨∅, refusals⟩ = (.ok e, store)) :
      Steady g (.start e.lastAccepted) e
  | call {h : History} {e : Engine} (clock : UInt64) {request : Request}
      (hform : request.WellFormed) (hkeeps : ¬e.CutsOff request) (hsteady : Steady g h e) :
      Steady g (h.record e clock request) (e.after clock request)

/-- A `Steady` run is a run. -/
theorem Steady.reach (hsteady : Steady g h e) : Reach g h e := by
  induction hsteady with
  | start h => exact .start h
  | call clock hform _ _ ih => exact ih.call clock hform

/-- A run that is `Steady` stays so under requests that in no state are ones that `CutsOff`. -/
theorem Steady.follow (hsteady : Steady g h e) {requests : List (UInt64 × Request)}
    (hrequests : ∀ request ∈ requests, request.2.WellFormed ∧ ∀ e : Engine, ¬e.CutsOff request.2) :
    Steady g (History.follow requests (h, e)).1 (History.follow requests (h, e)).2 := by
  -- induction on the requests, each of which keeps the run steady
  induction requests generalizing h e with
  | nil => exact hsteady
  | cons request requests ih =>
    obtain ⟨⟨hform, hkeeps⟩, hrest⟩ := List.forall_mem_cons.1 hrequests
    exact ih (hsteady.call request.1 hform (hkeeps e)) hrest

namespace Engine

/-- `Reaches` reads the tracked blocks and nothing else. -/
theorem reaches_congr (htracked : e'.tracked = e.tracked) {target id : Hash} :
    e'.Reaches target id ↔ e.Reaches target id :=
  ⟨fun h => h.mono fun hentry hv _ => ⟨_, _, htracked ▸ hentry, rfl, hv⟩,
    fun h => h.mono fun hentry hv _ => ⟨_, _, htracked ▸ hentry, rfl, hv⟩⟩

/-- States of the `SameChain` agree on whether the preferred block is `Live`. -/
theorem SameChain.live_preferred_iff (same : e.SameChain e') :
    e'.Live e'.preferred ↔ e.Live e.preferred := by
  rw [Live, Live, same.lastAccepted, same.preferred, reaches_congr same.tracked]

/-! ## Requests that decide nothing -/

/-- The last accepted and the preferred block stay, and no verified block is lost. -/
structure Grows (e e' : Engine) : Prop where
  tip : e'.lastAccepted = e.lastAccepted
  preferred : e'.preferred = e.preferred
  kept : ∀ {id : Hash} {entry : Tracked} {v : Verified}, e.tracked[id]? = some entry →
    entry.verified? = some v → ∃ x w, e'.tracked[id]? = some x ∧ x.block = entry.block ∧
      x.verified? = some w

namespace Grows

theorem of_same (same : e.SameChain e') : e.Grows e' :=
  ⟨same.lastAccepted, same.preferred, fun hentry hv => ⟨_, _, same.tracked ▸ hentry, rfl, hv⟩⟩

theorem trans {e'' : Engine} (hgrows : e.Grows e') (hgrows' : e'.Grows e'') : e.Grows e'' := by
  refine ⟨hgrows'.tip.trans hgrows.tip, hgrows'.preferred.trans hgrows.preferred,
    fun hentry hv => ?_⟩
  obtain ⟨x, w, hx, hblock, hw⟩ := hgrows.kept hentry hv
  obtain ⟨y, u, hy, hblock', hu⟩ := hgrows'.kept hx hw
  exact ⟨y, u, hy, hblock'.trans hblock, hu⟩

/-- A preferred block that was `Live` stays so in a state that `Grows`. -/
theorem live_preferred (hgrows : e.Grows e') (hlive : e.Live e.preferred) :
    e'.Live e'.preferred := by
  rw [Live, hgrows.tip, hgrows.preferred]
  -- every step of the way down is a verified block, and those are kept
  exact hlive.mono fun hentry hv _ => hgrows.kept hentry hv

/-- Tracking a new block `Grows` the state: it loses no verified one. -/
theorem track {block : Block} (hnone : e.tracked[block.id]? = none) :
    e.Grows { e with tracked := e.tracked.insert block.id ⟨block, none, []⟩ } := by
  refine ⟨rfl, rfl, fun {id entry v} hentry hv => ⟨entry, v, ?_, rfl, hv⟩⟩
  have hne : block.id ≠ id := fun hid => by
    rw [← hid, hnone] at hentry
    cases hentry
  rw [getElem?_track, if_neg hne, hentry]

/-- `attach` loses no verified block, the block itself included. -/
theorem attach (e : Engine) (block parent : Block) (v : Verified) :
    e.Grows (e.attach block parent v) := by
  refine ⟨rfl, rfl, fun {id entry w} hentry hw => ?_⟩
  rw [Arranged.getElem?_attach]
  -- the block itself keeps its entry with other changes
  by_cases hid : block.id = id
  · rw [if_pos hid, hid, hentry, Option.map_some]
    refine ⟨_, v, rfl, ?_, ?_⟩ <;> split <;> simp
  · rw [if_neg hid, hentry, Option.map_some]
    refine ⟨_, w, rfl, ?_, ?_⟩ <;> split <;> simp [hw]

/-- `parse` loses no verified block. -/
theorem parse (e : Engine) (bytes : Bytes) : e.Grows (e.parse bytes).2 := by
  simp only [Engine.parse]
  split
  · exact .of_same (.refl e)
  split
  · exact .of_same (.refl e)
  · next hnone =>
    split
    · exact .of_same (.refl e)
    · exact .track hnone

/-- `verify` loses no verified block. -/
theorem verify (e : Engine) (clock : UInt64) (block : Block) :
    e.Grows (e.verify clock block).2 := by
  rcases Transition.verify_cases e clock block with ⟨_, hv⟩ | ⟨-, hv⟩ | ⟨parent, v, -, -, hv⟩ <;>
    rw [hv]
  · exact .of_same (.refl e)
  · exact .of_same (.refl e)
  · exact .attach e block parent v

/-- `build` loses no verified block. -/
theorem build (e : Engine) (clock : UInt64) : e.Grows (e.build clock).2 := by
  have hdraft : e.Grows (e.draft clock).2 := .of_same (e.sameChain_draft clock)
  rw [build_eq_finishBlock]
  generalize e.draft clock = drafted at hdraft ⊢
  -- the draft leaves the blocks alone, and the verification of the block may add changes
  obtain ⟨content, e'⟩ := drafted
  cases content with
  | error cause => exact hdraft
  | ok content =>
    simp only [finishBlock]
    split
    · exact hdraft
    · next block _ =>
      have hverify := Grows.verify e' clock block
      split <;> next hv =>
        rw [hv] at hverify
        exact hdraft.trans (hverify.trans (.of_same ⟨rfl, rfl, rfl, rfl, rfl, rfl⟩))

end Grows

/-! ## Acceptance -/

section

variable {id : Hash} {entry : Tracked} {changes : Changes}

/-- `accept` leaves the `SameChain`, unless it commits a tracked block. -/
theorem sameChain_accept_of_not (hnot : ¬((e.accept id).1 = .ok () ∧ e.isTracked id = true)) :
    e.SameChain (e.accept id).2 := by
  -- each early exit leaves everything as it was; a refused commit counts the refusal only
  cases hentry : e.tracked[id]? with
  | none =>
    simp only [accept, hentry]
    split <;> exact .refl e
  | some entry =>
    have hrefused : (e.accept id).1 ≠ .ok () := fun haccept =>
      hnot ⟨haccept, isTracked_iff.2 ⟨entry, hentry⟩⟩
    simp only [accept, hentry] at hrefused ⊢
    split
    · exact .refl e
    · next hunrejected =>
      rw [if_neg hunrejected] at hrefused
      cases hchanges : acceptable id entry with
      | error cause => exact .refl e
      | ok changes =>
        cases hrefusals : e.store.refusals with
          simp only [hchanges, Store.commit, hrefusals] at hrefused ⊢
        | zero => exact absurd rfl hrefused
        | succ refusals => exact ⟨rfl, rfl, rfl, rfl, rfl, rfl⟩

/-- What `Reaches` a block does so after the block is `committed`, and before. -/
theorem reaches_committed_iff {x : Hash} :
    (e.committed id entry changes).Reaches id x ↔ e.Reaches id x := by
  -- a way down to the block ends there, so that its own entry is not on it
  constructor
  · refine fun hreaches => hreaches.mono fun hx hw _ => ?_
    obtain ⟨-, old, hold, hblock, -, hverified⟩ := Arranged.of_getElem?_committed hx
    obtain ⟨v, hv, -⟩ := hverified hw
    exact ⟨old, v, hold, hblock.symm, hv⟩
  · -- on the way back the children are rebased, which keeps them verified
    refine fun hreaches => hreaches.mono fun {j x v} hx hv hne => ?_
    rw [Arranged.getElem?_committed, if_neg (Ne.symm hne), hx, Option.map_some]
    by_cases hchild : j ∈ entry.children
    · rw [if_pos hchild]
      exact ⟨_, _, rfl, rfl, congrArg (Option.map _) hv⟩
    · rw [if_neg hchild]
      exact ⟨x, v, rfl, rfl, hv⟩

/-- After `committed`, all tracked blocks are tracked but the block itself. -/
theorem isTracked_committed_iff {x : Hash} :
    (e.committed id entry changes).isTracked x = true ↔ e.isTracked x = true ∧ id ≠ x := by
  rw [isTracked_iff, isTracked_iff, Arranged.getElem?_committed]
  by_cases hid : id = x
  · simp [hid]
  · simp [hid, Option.map_eq_some_iff]

/--
After `committed`, the preferred block is `Live` if it stands on the new tip or has become it.
-/
theorem live_committed_iff (hid : entry.block.id = id) :
    (e.committed id entry changes).Live (e.committed id entry changes).preferred ↔
      ¬(e.isTracked e.preferred = true ∧ ¬e.Reaches id e.preferred) := by
  have hpreferred : (e.committed id entry changes).preferred =
      if (e.committed id entry changes).isTracked e.preferred then e.preferred else id := by
    rw [← hid]
    rfl
  have htip : (e.committed id entry changes).lastAccepted.id = id := hid
  rw [Live, hpreferred, htip, reaches_committed_iff]
  split
  · -- the preferred block is still tracked, so that it stays preferred
    next hstays =>
    have htracked := (isTracked_committed_iff.1 hstays).1
    simp only [htracked, true_and, Classical.not_not]
  · next hgone =>
    refine iff_of_true .here fun ⟨htracked, hbeside⟩ => ?_
    -- it was tracked, so that it was the block itself
    rw [isTracked_committed_iff, not_and, not_not] at hgone
    exact hbeside (hgone htracked ▸ .here)

end

/-! ## Rejection -/

section

variable {id : Hash} {entry : Tracked}

/-- `reject` does to a tracked block what `forget` does. -/
theorem sameChain_reject (hentry : e.tracked[id]? = some entry)
    (hunrejected : ¬e.isRejected id = true) (clock : UInt64) :
    (e.forget id entry.block).SameChain (e.reject clock id).2 := by
  have hnotify (e' : Engine) : e'.SameChain (e'.notify (.rejected id)) :=
    ⟨rfl, rfl, rfl, rfl, rfl, rfl⟩
  simp only [reject, if_neg hunrejected, hentry]
  split
  · exact (sameChain_readd _ clock entry.block.txs).trans (hnotify _)
  · exact hnotify _

/-- `reject` does nothing about a block that is not tracked. -/
theorem reject_of_untracked (huntracked : ¬e.isTracked id = true) (clock : UInt64) :
    (e.reject clock id).2 = e := by
  have hnone : e.tracked[id]? = none := by
    rw [Option.eq_none_iff_forall_ne_some]
    exact fun entry hentry => huntracked (isTracked_iff.2 ⟨entry, hentry⟩)
  simp only [reject, hnone]
  split <;> rfl

/-- A block that `Reaches` the target beside the forgotten one goes on to do so. -/
theorem Reaches.forget {block : Block} {target x : Hash} (hreaches : e.Reaches target x)
    (hbeside : ¬e.Reaches id x) : (e.forget id block).Reaches target x := by
  -- induction on the way down: each of its blocks is another than the forgotten one
  induction hreaches with
  | here => exact .here
  | @step j entry v hentry hv _ ih =>
    have hne : id ≠ j := fun hid => hbeside (hid ▸ .here)
    have hx : (e.forget id block).tracked[j]? =
        some (if block.parentId = j then entry.withoutChild id else entry) := by
      rw [Arranged.getElem?_forget, if_neg hne, hentry]
      rfl
    have hbelow := ih fun hpasses => hbeside (.step hentry hv hpasses)
    refine .step hx (v := v) ?_ ?_ <;> split
    exacts [hv, hv, hbelow, hbelow]

/-- A block that `Reaches` an untracked one after `forget` does not pass the block forgotten. -/
theorem Reaches.not_of_forget {block : Block} {target x : Hash}
    (hreaches : (e.forget id block).Reaches target x) (hentry : e.tracked[id]? = some entry)
    (hend : e.tracked[target]? = none) : ¬e.Reaches id x := by
  -- induction on the way down; at each block the way to the forgotten one would go on below it
  induction hreaches with
  | here =>
    intro hpasses
    obtain ⟨x, hx⟩ := hpasses.exists_tracked hentry
    rw [hend] at hx
    cases hx
  | @step j x v hx hv _ ih =>
    obtain ⟨old, hold, hblock, -⟩ := Arranged.of_getElem?_forget hx
    rw [Arranged.getElem?_forget] at hx
    intro hpasses
    cases hpasses with
    | here =>
      rw [if_pos rfl] at hx
      cases hx
    | step hold' hv' hbelow =>
      obtain rfl := Option.some.inj (hold.symm.trans hold')
      exact ih (hblock ▸ hbelow)

/-- Heights do not rise where one block `Reaches` another. -/
theorem Reaches.height_le (hc : Coherent g h e) (hfree : h.CollisionFree) {target x : Hash}
    {bottom top : Tracked} (hreaches : e.Reaches target x)
    (hbottom : e.tracked[target]? = some bottom) (htop : e.tracked[x]? = some top) :
    bottom.block.height.toNat ≤ top.block.height.toNat := by
  -- induction on the way down, by the height of each block over its parent
  induction hreaches generalizing top with
  | here =>
    obtain rfl := Option.some.inj (hbottom.symm.trans htop)
    exact Nat.le_refl _
  | @step j entry v hentry hv hbelow ih =>
    obtain rfl := Option.some.inj (hentry.symm.trans htop)
    obtain ⟨parent, hparent⟩ := hbelow.exists_tracked hbottom
    have hext := hc.extends_of_tracked hfree hentry hv hparent rfl
    have hle := ih hparent
    have hone := hext.2.1
    omega

/-- Where a `Live` block is forgotten that is preferred, the preference moves to a `Live` one. -/
theorem Live.forget (hc : Coherent g h e) (hfree : h.CollisionFree)
    (hentry : e.tracked[id]? = some entry) (hlive : e.Live id) (hpreferred : e.preferred = id) :
    (e.forget id entry.block).Live (e.forget id entry.block).preferred := by
  have hmoved : (e.forget id entry.block).preferred =
      if (e.forget id entry.block).isTracked entry.block.parentId then entry.block.parentId
      else e.lastAccepted.id := if_pos hpreferred
  rw [hmoved]
  split
  · next htracked =>
    cases hlive with
    | here =>
      rw [hc.arranged.tracked_tip hc.settled] at hentry
      cases hentry
    | step hentry' hv hbelow =>
      obtain rfl := Option.some.inj (hentry.symm.trans hentry')
      obtain ⟨x, hx⟩ := isTracked_iff.1 htracked
      obtain ⟨parent, hparent, -⟩ := Arranged.of_getElem?_forget hx
      -- the way from the parent down is below the block
      refine hbelow.forget fun hpasses => ?_
      have hle := hpasses.height_le hc hfree hentry hparent
      have hext := hc.extends_of_tracked hfree hentry hv hparent rfl
      have hone := hext.2.1
      omega
  · exact .here

/--
After `forget`, a preferred block that was `Live` is so unless it stood on the block forgotten.
-/
theorem live_forget_iff (hc : Coherent g h e) (hfree : h.CollisionFree)
    (hentry : e.tracked[id]? = some entry) (hlive : e.Live e.preferred) :
    (e.forget id entry.block).Live (e.forget id entry.block).preferred ↔
      ¬(id ≠ e.preferred ∧ e.Reaches id e.preferred) := by
  -- the preferred block is rejected itself, or another one is
  by_cases hid : e.preferred = id
  · refine iff_of_true (Live.forget hc hfree hentry (hid ▸ hlive) hid) fun ⟨hne, _⟩ => ?_
    exact hne hid.symm
  · have hstays : (e.forget id entry.block).preferred = e.preferred := if_neg hid
    rw [hstays]
    constructor
    · rintro hafter ⟨-, hpasses⟩
      exact hafter.not_of_forget hentry (hc.arranged.tracked_tip hc.settled) hpasses
    · intro hbeside
      exact Reaches.forget hlive fun hpasses => hbeside ⟨Ne.symm hid, hpasses⟩

end

end Engine

/-! ## All requests -/

/--
A preferred block that is `Live` stays so exactly where the request is not one that `CutsOff`.
-/
theorem Coherent.live_after_iff (hc : Coherent g h e) (ht : e.Tidy h) (hfree : h.CollisionFree)
    (hlive : e.Live e.preferred) (clock : UInt64) (request : Request) :
    (e.after clock request).Live (e.after clock request).preferred ↔ ¬e.CutsOff request := by
  have hgrows {e' : Engine} (hgrows : e.Grows e') : e'.Live e'.preferred ↔ ¬False :=
    iff_of_true (hgrows.live_preferred hlive) id
  have hsame {e' : Engine} (same : e.SameChain e') : e'.Live e'.preferred ↔ ¬False :=
    hgrows (.of_same same)
  -- requests that decide nothing first, then the decisions and the preference, one by one
  cases request with
  | parse bytes => exact hgrows (.parse e bytes)
  | verify block => exact hgrows (.verify e clock block)
  | build => exact hgrows (.build e clock)
  | submit tx => exact hsame (e.sameChain_submit clock tx)
  | gossip payload => exact hsame (e.sameChain_receiveGossip clock payload)
  | prune => exact hsame (e.sameChain_pruneMempool clock)
  | takeFresh | takeNotices | signal | refuse => exact hsame ⟨rfl, rfl, rfl, rfl, rfl, rfl⟩
  | accept id =>
    simp only [Engine.after, Engine.CutsOff]
    by_cases hcommits : (e.accept id).1 = .ok () ∧ e.isTracked id = true
    · obtain ⟨haccept, htracked⟩ := hcommits
      obtain ⟨entry, hentry⟩ := Engine.isTracked_iff.1 htracked
      obtain ⟨changes, hacceptable⟩ := Engine.acceptable_of_accept hentry haccept
      have same := Engine.sameChain_accept hentry hacceptable haccept
      rw [same.live_preferred_iff, Engine.live_committed_iff (hc.arranged.tracked hentry).1]
      simp only [haccept, htracked, true_and]
    · have same := Engine.sameChain_accept_of_not hcommits
      refine iff_of_true (same.live_preferred_iff.2 hlive) fun hcuts => ?_
      exact hcommits ⟨hcuts.1, hcuts.2.1⟩
  | reject id =>
    simp only [Engine.after, Engine.CutsOff]
    by_cases htracked : e.isTracked id = true
    · obtain ⟨entry, hentry⟩ := Engine.isTracked_iff.1 htracked
      have hunrejected := Engine.rejected_eq_none_iff.1 (ht.unrejected hentry)
      have same := Engine.sameChain_reject hentry hunrejected clock
      rw [same.live_preferred_iff, Engine.live_forget_iff hc hfree hentry hlive]
      simp only [htracked, true_and]
    · -- a block that is not tracked is not forgotten, and cuts nothing off
      rw [Engine.reject_of_untracked htracked]
      exact iff_of_true hlive fun hcuts => htracked hcuts.1
  | prefer id =>
    simp only [Engine.after, Engine.CutsOff, Engine.prefer]
    split
    · next hknown =>
      have htracked : ({ e with preferred := id } : Engine).tracked = e.tracked := rfl
      simp only [hknown, true_and, Classical.not_not]
      exact Engine.reaches_congr htracked
    · next hunknown => exact iff_of_true hlive fun hcuts => hunknown hcuts.1
  | reopen g' settings =>
    simp only [Engine.after, Engine.CutsOff]
    split
    · next opened hopened =>
      obtain ⟨g'', store, tip, rfl⟩ := Engine.eq_atRest_of_start hopened
      exact iff_of_true .here id
    · exact iff_of_true hlive id

/-- What depends on the preferred block finds the block, and what a child of it sees. -/
structure Engine.ServesPreference (e : Engine) (clock : UInt64) : Prop where
  target : ∃ target, e.miningTarget clock = .ok target ∧ target.blockId = e.preferred
  prune : ∃ count, (e.pruneMempool clock).1 = .ok count
  submit : ∀ tx, (e.submit clock tx).1 ≠ .error .parentNotVerified
  build : (e.build clock).1 ≠ .error .parentNotVerified

namespace Engine

variable {parent : Block} {view : View} {clock : UInt64}

/-- `submit` does not miss a preferred block that is found and has a view. -/
theorem submit_ne_parentNotVerified (hparent : e.preferredBlock = .ok parent)
    (hcontext : ∀ now, ∃ context, e.contextAfter parent now = .ok context)
    (hview : e.viewFrom parent.id = .ok view) (tx : Transaction) :
    (e.submit clock tx).1 ≠ .error .parentNotVerified := by
  have hadmission : FailsOnly (· ≠ .parentNotVerified) (e.checkAdmission clock tx) := by
    unfold checkAdmission
    -- the checks in their order: only the view could miss its parent, and it is there
    refine .guard (by simp) ?_
    refine .bind (.mapError_of_forall (by simp)) fun _ _ => ?_
    refine .bind (.mapError_of_forall (by simp)) fun _ _ => ?_
    refine (FailsOnly.of_eq_ok hparent).bind fun found hfound => ?_
    obtain rfl := Except.ok.inj (hparent.symm.trans hfound)
    obtain ⟨context, hcontext⟩ := hcontext (childTime clock parent)
    refine (FailsOnly.of_eq_ok hcontext).bind fun _ _ => ?_
    refine .guard (by simp) (.guard (by simp) (.guard (by simp) ?_))
    refine (FailsOnly.of_eq_ok hview).bind fun _ _ => .guard (by simp) (.discard ?_)
    exact .mapError_of_forall (by simp)
  simp only [submit]
  split
  · next cause hcause => exact fun heq => hadmission cause hcause (Except.error.inj heq)
  · simp

/-- `build` does not miss a preferred block that is found and has a view. -/
theorem build_ne_parentNotVerified (hparent : e.preferredBlock = .ok parent)
    (hcontext : ∀ now, ∃ context, e.contextAfter parent now = .ok context)
    (hview : e.viewFrom parent.id = .ok view) :
    (e.build clock).1 ≠ .error .parentNotVerified := by
  have hplan : FailsOnly (· ≠ .parentNotVerified) (e.buildPlan clock) := by
    unfold buildPlan
    refine (FailsOnly.of_eq_ok hparent).bind fun found hfound => .guard (by simp) ?_
    obtain rfl := Except.ok.inj (hparent.symm.trans hfound)
    obtain ⟨context, hcontext⟩ := hcontext (childTime clock parent)
    exact (FailsOnly.of_eq_ok hcontext).bind fun _ _ => .ok _
  have hdraft : FailsOnly (· ≠ .parentNotVerified) (e.draft clock).1 := by
    simp only [draft]
    -- the same for the steps of a draft
    split
    · next cause hcause => exact .error (hplan cause hcause)
    · next found now context hfound =>
      obtain rfl := Except.ok.inj (hparent.symm.trans (buildPlan_eq_ok_iff.1 hfound).1)
      -- pruning the pool leaves the view alone
      have hpruned : e.SameChain { e with mempool :=
          (e.mempool.prune context.recentBlocks.contains).2 } := ⟨rfl, rfl, rfl, rfl, rfl, rfl⟩
      rw [hpruned.viewFrom_eq, hview]
      simp only []
      have hassemble (txs : List Transaction) : FailsOnly (· ≠ .parentNotVerified)
          (assemble parent context now txs) :=
        .ite (.error (by simp)) (.ite (.error (by simp)) (.ok _))
      split
      · next cause hcause => exact .error (hassemble _ cause hcause)
      · exact .ok _
  rw [build_eq_finishBlock]
  generalize e.draft clock = drafted at hdraft ⊢
  obtain ⟨content, e'⟩ := drafted
  cases content with
  | error cause => exact fun heq => hdraft cause rfl (Except.error.inj heq)
  | ok content =>
    simp only [finishBlock]
    split
    · simp
    · split <;> simp

end Engine

/-- Where the run is `Linear` and the preferred block `Live`, the engine `ServesPreference`. -/
theorem Reach.servesPreference (hreach : Reach g h e) (hfree : h.CollisionFree)
    (hlinear : h.Linear) (hlive : e.Live e.preferred) (clock : UInt64) :
    e.ServesPreference clock := by
  have hc := hreach.coherent hfree
  obtain ⟨-, parent, path, -, hid, hl, hparent, hknown⟩ := hlive.exists_lineage hc hlinear
  obtain ⟨view, hview⟩ := hreach.exists_viewFrom hfree hlinear hlive
  have hfound : e.preferredBlock = .ok parent := by
    rw [Engine.preferredBlock, Engine.find_eq_ok_iff, ← hid]
    exact hc.find?_of_isKnown hfree (hl.mem_blocks List.mem_cons_self)
      (hknown parent List.mem_cons_self)
  -- every block below `parent` is known, so the context comes out at any time of the clock
  have hcontext (now : UInt64) : ∃ context, e.contextAfter parent now = .ok context :=
    ⟨_, hc.contextAfter_eq_ok hfree hl (hreach.pedigree_of_lineage hfree hparent hl).extending
      (fun a ha => hknown a (List.mem_cons_of_mem parent ha)) now⟩
  obtain ⟨context, hnow⟩ := hcontext (Engine.childTime clock parent)
  refine ⟨?_, ?_, Engine.submit_ne_parentNotVerified hfound hcontext (hid ▸ hview),
    Engine.build_ne_parentNotVerified hfound hcontext (hid ▸ hview)⟩
  · refine ⟨⟨parent.id, context.nextDifficulty, context.nextCost, e.genesis.minPrice⟩, ?_, hid⟩
    rw [Engine.miningTarget, hfound, Except.ok_bind, hnow, Except.ok_bind]
    rfl
  · have hnext : e.nextContext clock = .ok context := by
      rw [Engine.nextContext, hfound, Except.ok_bind, hnow]
    exact ⟨_, by simp only [Engine.pruneMempool, hnext]; rfl⟩

/-- Along every `Steady` run the preferred block is `Live`. -/
theorem Steady.live (hsteady : Steady g h e) (hfree : h.CollisionFree) : e.Live e.preferred := by
  -- induction on the run, along `live_after_iff`
  induction hsteady with
  | start hstart =>
    obtain ⟨g', store, tip, rfl⟩ := Engine.eq_atRest_of_start (congrArg Prod.fst hstart)
    exact .here
  | @call h e clock request _ hkeeps hsteady ih =>
    have hfree' := hfree.of_subset (h.blocks_subset_record e clock request)
    exact ((hsteady.reach.coherent hfree').live_after_iff (hsteady.reach.tidy hfree') hfree'
      (ih hfree') clock request).2 hkeeps

/--
Along every run that is `Steady`, whose requests never cut the preferred block off, this block is
`Live`: it is the last accepted one or reaches it through verified blocks. The next request keeps it
so exactly if it is not one that `CutsOff`. While the run is `Linear`, the engine `ServesPreference`
at every time.
-/
theorem Steady.preferred_live (hsteady : Steady g h e) (hfree : h.CollisionFree) :
    e.Live e.preferred ∧
    (∀ clock request, (e.after clock request).Live (e.after clock request).preferred ↔
      ¬e.CutsOff request) ∧
    (h.Linear → ∀ clock, e.ServesPreference clock) := by
  have hreach := hsteady.reach
  have hlive := hsteady.live hfree
  exact ⟨hlive, (hreach.coherent hfree).live_after_iff (hreach.tidy hfree) hfree hlive,
    fun hlinear => hreach.servesPreference hfree hlinear hlive⟩

namespace Siblings

/-- `upper` is preferred and `Live`, until `left` is rejected. -/
theorem upper_cut_off : let e := stacked.2.after 100 (.prefer upper.id)
    e.preferred = upper.id ∧ e.Live e.preferred ∧ e.ServesPreference 100 ∧
      ¬(e.after 100 (.reject left.id)).Live (e.after 100 (.reject left.id)).preferred := by
  -- the run up to here keeps the preference on the first block, which is the tip
  have hfollowed : Steady genesis stacked.1 stacked.2 := by
    refine (Steady.start started).follow fun request hrequest => ?_
    simp only [List.mem_cons, List.not_mem_nil, or_false] at hrequest
    rcases hrequest with rfl | rfl
    · exact ⟨isFramed_left, fun _ => id⟩
    · exact ⟨isFramed_upper, fun _ => id⟩
  obtain ⟨hhistory, htip, hleft, hupper, haccept⟩ := stacked_eq
  have hfree := collisionFree_stacked
  rw [hhistory] at hfollowed hfree
  generalize stacked.2 = e at hfollowed htip hleft hupper haccept ⊢
  obtain ⟨lower, hlower, hblock⟩ := Option.map_eq_some_iff.1 hleft
  obtain ⟨changes, hacceptable⟩ := Engine.acceptable_of_accept hlower haccept
  obtain ⟨v, hv, hfooting⟩ := Option.map_eq_some_iff.1 hupper
  obtain ⟨x, hx, hv⟩ := Option.bind_eq_some_iff.1 hv
  -- the child stands on the left block, and that on the tip
  have hparent : x.block.parentId = left.id := by
    obtain ⟨-, hfits, -⟩ := (hfollowed.reach.coherent hfree).arranged.checked hx hv
    rw [hfooting] at hfits
    exact hfits.symm
  have hpasses : e.Reaches left.id upper.id := .step hx hv (hparent ▸ .here)
  have hleftLive : e.Live left.id :=
    .step hlower (Engine.acceptable_eq_ok_iff.1 hacceptable) (by rw [hblock, htip]; exact .here)
  have hlive : e.Live upper.id := .step hx hv (hparent ▸ hleftLive)
  have hkeeps : ¬e.CutsOff (.prefer upper.id) := fun hcuts => hcuts.2 hlive
  have hform : (Request.prefer upper.id).WellFormed := trivial
  have hsteady := hfollowed.call 100 hform hkeeps
  have hpreferred : e.after 100 (.prefer upper.id) = { e with preferred := upper.id } := by
    simp only [Engine.after, Engine.prefer, Engine.isTracked_iff.2 ⟨x, hx⟩, true_or, if_pos]
  obtain ⟨hpreferredLive, hkept, hserves⟩ := hsteady.preferred_live hfree
  -- rejecting the left block takes the way down from the child away
  have hcuts : (e.after 100 (.prefer upper.id)).CutsOff (.reject left.id) := by
    rw [hpreferred]
    have hne : left.id ≠ upper.id := by decide +kernel
    have habove : ({ e with preferred := upper.id } : Engine).Reaches left.id upper.id :=
      hpasses.mono fun hentry hv _ => ⟨_, _, hentry, rfl, hv⟩
    exact ⟨Engine.isTracked_iff.2 ⟨lower, hlower⟩, hne, habove⟩
  refine ⟨by rw [hpreferred], hpreferredLive, hserves ?_ 100, fun hafter =>
    (hkept 100 (.reject left.id)).1 hafter hcuts⟩
  show History.Linear ⟨first, [upper, left], [upper, left], []⟩
  rw [History.Linear]
  exact .singleton _

end Siblings

end LeaseChain
