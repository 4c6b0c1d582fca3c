import LeaseChain.Engine.Decision
import LeaseChain.Engine.Verification

/-!
# The tracked blocks one by one

Verification, acceptance and rejection edit the neighbours of a block among the tracked ones. Each
edit maps the entries one by one, so a look-up afterwards is a look-up before, followed by what the
edit does to that entry. A block that is tracked anew changes no entry but its own.

## Key results

- `Engine.getElem?_track`
- `Engine.getElem?_addChild`, `Engine.getElem?_removeChild`, `Engine.getElem?_rebase`
-/

namespace LeaseChain

namespace Tracked

/-- The entry with one more child, unless it is there already. -/
def withChild (entry : Tracked) (id : Hash) : Tracked :=
  if id ∈ entry.children then entry else { entry with children := entry.children ++ [id] }

/-- The entry without a child. -/
def withoutChild (entry : Tracked) (id : Hash) : Tracked :=
  { entry with children := entry.children.filter (· ≠ id) }

/-- The entry with its changes, if any, on the durable store. -/
def rebased (entry : Tracked) : Tracked :=
  { entry with verified? := entry.verified?.map fun v => { v with footing := .durable } }

variable (entry : Tracked) (id : Hash)

/-- The child is added to the list alone: `withChild` keeps the block. -/
@[simp] theorem block_withChild : (entry.withChild id).block = entry.block := by
  unfold withChild; split <;> rfl

/-- `withChild` keeps what verification found. -/
@[simp] theorem verified?_withChild : (entry.withChild id).verified? = entry.verified? := by
  unfold withChild; split <;> rfl

/-- The children of `withChild` are those of the entry and the new one. -/
theorem mem_children_withChild {c : Hash} :
    c ∈ (entry.withChild id).children ↔ c ∈ entry.children ∨ c = id := by
  unfold withChild
  split
  · next h => exact ⟨.inl, fun h' => h'.elim (fun h' => h') fun h' => h' ▸ h⟩
  · simp

/-- `withChild` lists no child twice, since it looks before it appends. -/
theorem nodup_children_withChild (h : entry.children.Nodup) :
    (entry.withChild id).children.Nodup := by
  unfold withChild
  split
  · -- appending keeps the list free of repetitions exactly because the child was not in it
    exact h
  · next hnew =>
    refine List.nodup_append.2 ⟨h, List.pairwise_singleton _ id, fun c hc c' hc' heq => ?_⟩
    exact hnew (List.mem_singleton.1 hc' ▸ heq ▸ hc)

/-- The children of `withoutChild` are those of the entry but the one removed. -/
theorem mem_children_withoutChild {c : Hash} :
    c ∈ (entry.withoutChild id).children ↔ c ∈ entry.children ∧ c ≠ id := by
  simp [withoutChild]

@[simp] theorem block_withoutChild : (entry.withoutChild id).block = entry.block := rfl

@[simp] theorem verified?_withoutChild : (entry.withoutChild id).verified? = entry.verified? := rfl

@[simp] theorem block_rebased : entry.rebased.block = entry.block := rfl

/-- An entry that is `rebased` twice is as it was after the first time. -/
@[simp] theorem rebased_rebased : entry.rebased.rebased = entry.rebased := by
  simp only [rebased, Option.map_map]
  rfl

@[simp] theorem children_rebased : entry.rebased.children = entry.children := rfl

end Tracked

namespace Engine

variable (tracked : Std.ExtTreeMap Hash Tracked) (parentId id : Hash)

/-- A block that is tracked anew has an entry without changes; the other entries stay. -/
theorem getElem?_track (block : Block) (j : Hash) :
    (tracked.insert block.id ⟨block, none, []⟩)[j]? =
      if block.id = j then some ⟨block, none, []⟩ else tracked[j]? := by
  simp only [Std.ExtTreeMap.getElem?_insert, Std.LawfulEqCmp.compare_eq_iff_eq]

/--
`addChild` adds a child to the entry of its parent, if that is tracked, and edits no other entry.
-/
theorem getElem?_addChild (j : Hash) :
    (addChild tracked parentId id)[j]? =
      (tracked[j]?).map fun entry => if parentId = j then entry.withChild id else entry := by
  unfold addChild
  -- an untracked parent leaves everything as it is, and then there is no entry to map either
  split
  · next h =>
    by_cases hj : parentId = j
    · rw [← hj, h]; rfl
    · simp [hj]
  · next parent h =>
    by_cases hj : parentId = j
    · subst hj
      -- the child may be listed already: then the entry is inserted as it was
      split
      · next hmem => simp [h, Tracked.withChild, hmem]
      · next hmem => simp [h, Tracked.withChild, hmem]
    · -- another key is looked up past the insertion
      split <;> simp [Std.ExtTreeMap.getElem?_insert, hj]

/--
`removeChild` takes a child off the entry of its parent, if that is tracked, and edits no other.
-/
theorem getElem?_removeChild (j : Hash) :
    (removeChild tracked parentId id)[j]? =
      (tracked[j]?).map fun entry => if parentId = j then entry.withoutChild id else entry := by
  unfold removeChild
  -- the same cases as for `getElem?_addChild`; a filter needs no look before
  split
  · next h =>
    by_cases hj : parentId = j
    · rw [← hj, h]; rfl
    · simp [hj]
  · next parent h =>
    by_cases hj : parentId = j
    · subst hj
      simp [h, Tracked.withoutChild]
    · simp [Std.ExtTreeMap.getElem?_insert, hj]

/-- `rebase` puts the changes of all children on the durable store and edits no other entry. -/
theorem getElem?_rebase (children : List Hash) (j : Hash) :
    (rebase tracked children)[j]? =
      (tracked[j]?).map fun entry => if j ∈ children then entry.rebased else entry := by
  -- induction on the children, with the tracked blocks generalized: each step edits one entry
  induction children generalizing tracked with
  | nil => simp [rebase]
  | cons child children ih =>
    cases h : tracked[child]? with
    -- a child that is not tracked is passed over
    | none =>
      have hstep : rebase tracked (child :: children) = rebase tracked children := by
        simp only [rebase, List.foldl_cons, h]
      rw [hstep, ih]
      by_cases hj : child = j
      · subst hj
        simp [h]
      · simp [Ne.symm hj]
    | some entry =>
      -- a tracked child is rebased in this step, and the rest of the list works on what results
      have hstep : rebase tracked (child :: children) =
          rebase (tracked.insert child entry.rebased) children := by
        simp only [rebase, List.foldl_cons, h, Tracked.rebased]
      rw [hstep, ih]
      by_cases hj : child = j
      · subst hj
        -- a child that is listed twice is rebased twice, which changes nothing more
        by_cases hmem : child ∈ children <;> simp [h, hmem]
      · simp [Std.ExtTreeMap.getElem?_insert, hj, Ne.symm hj]

end Engine

end LeaseChain
