import LeaseChain.Proofs.Ledger.Footprint
import LeaseChain.Store
import Mathlib.Logic.Relation

/-!
# Layers and nested overlays read like one table

A view has any number of layers, and overlays are opened on it and on one another, written to,
folded into one another and dropped. A `Nest` holds the overlays that are open at a time, each
beside a plain table that undergoes what the overlay undergoes. Whatever was done, every open
overlay reads like the table that is left when all layers are committed from the oldest to the
nearest, and after them what is staged from the outermost overlay to the innermost; and a
transaction that is executed on either comes to the same.

## Key results

- `Store.entries_commitAll`: what a store holds after commits
- `View.ReadsAs`: looking up, scanning and executing give the same on a view and on a table
- `Nest.Faithful.step`: an operation on an overlay is one on its table
- `View.reads_committed`: layers and overlays read like what they are committed to
-/

namespace LeaseChain

/-- `apply` carries a `delete` out last that was staged last. -/
theorem Table.apply_delete (table : Table Bytes) (changes : Changes) (key : Bytes) :
    table.apply (changes.delete key) = (table.apply changes).erase key := by
  -- the two tables are compared at each key, at the deleted one and at any other
  apply Std.ExtTreeMap.ext_getElem?
  intro j
  rw [getElem?_apply, Changes.getElem?_delete, Std.ExtTreeMap.getElem?_erase, getElem?_apply]
  simp only [Std.LawfulEqCmp.compare_eq_iff_eq]
  split <;> rfl

namespace Store

/-- The store after commits, one after the other. -/
def commitAll (store : Store) (commits : List Changes) : Store :=
  commits.foldl (fun store changes => (store.commit changes).2) store

/-- On a medium that refuses nothing, `commitAll` carries all changes out. -/
theorem entries_commitAll (entries : Table Bytes) (commits : List Changes) :
    (commitAll ⟨entries, 0⟩ commits).entries = commits.foldl Table.apply entries := by
  -- a store that refuses nothing is one again after each commit
  induction commits generalizing entries with
  | nil => rfl
  | cons changes commits ih => exact ih (entries.apply changes)

end Store

namespace View

/-- A view and a plain table cannot be told apart by reading, nor by executing a transaction. -/
structure ReadsAs (view : View) (plain : Table Bytes) : Prop where
  get : ∀ key, view.get? key = plain[key]?
  has : ∀ key, view.has key = plain.contains key
  scan : ∀ start, view.scan start = plain.scan start
  execute : ∀ (tx : Unsigned) (ctx : ExecutionContext),
    tx.execute ctx view = tx.execute ctx (durable plain)

/-- A view `ReadsAs` its flat table: each reading agrees. -/
theorem readsAs_flatten (view : View) : view.ReadsAs view.flatten where
  get key := (view.getElem?_flatten key).symm
  has key := by
    rw [View.has, ← view.getElem?_flatten key, Std.ExtTreeMap.isSome_getElem?_eq_contains]
  scan start := (view.agreeOn_durable_flatten fun _ => True).scan_eq fun _ _ => trivial
  execute tx ctx := Unsigned.execute_congr (view.agreeOn_durable_flatten _) tx ctx

/-- `flatten` is what is left when the layers are committed from the oldest to the nearest. -/
theorem flatten_eq_foldl (view : View) :
    view.flatten = view.layers.reverse.foldl Table.apply view.base := by
  rw [flatten, List.foldl_reverse]

/-- Layers that `push` puts on a view are carried out after its own. -/
theorem flatten_foldl_push (view : View) (stages : List Changes) :
    (stages.foldl push view).flatten = stages.foldl Table.apply view.flatten := by
  -- induction on the layers, each of which is put on what the earlier ones gave
  induction stages generalizing view with
  | nil => rfl
  | cons changes stages ih =>
    rw [List.foldl_cons, List.foldl_cons, ih, flatten_push]

end View

namespace Overlay

variable (overlay : Overlay)

/-- To `put` on an overlay is to insert into the flat table. -/
theorem flatten_put (key value : Bytes) :
    (overlay.put key value).view.flatten = overlay.view.flatten.insert key value :=
  Table.apply_put _ _ key value

/-- To `delete` on an overlay is to erase from the flat table. -/
theorem flatten_delete (key : Bytes) :
    (overlay.delete key).view.flatten = overlay.view.flatten.erase key :=
  Table.apply_delete _ _ key

/-- To `merge` changes into an overlay is to apply them to the flat table. -/
theorem flatten_merge (changes : Changes) :
    (overlay.merge changes).view.flatten = overlay.view.flatten.apply changes :=
  Table.apply_merge _ _ changes

end Overlay

/-! ## Nested overlays -/

/--
Overlays that are open on one another: one, with the plain table that undergoes what it undergoes,
and those that are opened on it.
-/
inductive Nest where
  | node (overlay : Overlay) (plain : Table Bytes) (inner : List Nest)

namespace Nest

/-- An overlay that was just opened on a view. -/
def opened (view : View) : Nest := node (.on view) view.flatten []

/--
What can happen to one of the overlays. While others are open on it, it is read only; it is written
to again when they are dropped, or when the changes of the last of them are merged into it.
-/
inductive Step : Nest → Nest → Prop where
  | put {overlay : Overlay} {plain : Table Bytes} (key value : Bytes) :
      Step (node overlay plain []) (node (overlay.put key value) (plain.insert key value) [])
  | delete {overlay : Overlay} {plain : Table Bytes} (key : Bytes) :
      Step (node overlay plain []) (node (overlay.delete key) (plain.erase key) [])
  | merge {overlay : Overlay} {plain : Table Bytes} (changes : Changes) :
      Step (node overlay plain []) (node (overlay.merge changes) (plain.apply changes) [])
  | push {overlay : Overlay} {plain : Table Bytes} {inner : List Nest} :
      Step (node overlay plain inner)
        (node overlay plain (node overlay.nested plain [] :: inner))
  | discard {overlay : Overlay} {plain : Table Bytes} {front back : List Nest} {nest : Nest} :
      Step (node overlay plain (front ++ nest :: back)) (node overlay plain (front ++ back))
  | keep {overlay nested : Overlay} {plain result : Table Bytes} :
      Step (node overlay plain [node nested result []])
        (node (overlay.merge nested.staged) result [])
  | inside {overlay : Overlay} {plain : Table Bytes} (front : List Nest) {back : List Nest}
      {nest nest' : Nest} (h : Step nest nest') :
      Step (node overlay plain (front ++ nest :: back))
        (node overlay plain (front ++ nest' :: back))

/--
An overlay is open in a nest, beside its table. The changes are those that are staged on it and on
the overlays that it stands on, the outermost first.
-/
inductive Opens : Nest → List Changes → Overlay → Table Bytes → Prop where
  | here {overlay : Overlay} {plain : Table Bytes} {inner : List Nest} :
      Opens (node overlay plain inner) [overlay.staged] overlay plain
  | inside {overlay deeper : Overlay} {plain result : Table Bytes} {inner : List Nest} {nest : Nest}
      {stages : List Changes} (hnest : nest ∈ inner) (h : Opens nest stages deeper result) :
      Opens (node overlay plain inner) (overlay.staged :: stages) deeper result

/-- Each overlay stands on what it was opened on, and shows what its table holds. -/
inductive Faithful : View → Nest → Prop where
  | node {below : View} {overlay : Overlay} {plain : Table Bytes} {inner : List Nest}
      (hbelow : overlay.below = below) (hshows : overlay.view.flatten = plain)
      (hinner : ∀ nest ∈ inner, Faithful overlay.view nest) :
      Faithful below (node overlay plain inner)

namespace Faithful

variable {below : View} {nest nest' : Nest}

/-- An overlay that was just opened stages nothing, and is `Faithful` to the view's table. -/
theorem opened (view : View) : Faithful view (Nest.opened view) :=
  .node rfl (view.flatten.apply_empty) fun _ h => nomatch h

/-- A `Step` keeps a nest `Faithful`: an operation on an overlay is one on its table. -/
theorem step (h : Faithful below nest) (hstep : Step nest nest') : Faithful below nest' := by
  -- induction on where in the nest it happens; what stands on a changed overlay was dropped before
  induction hstep generalizing below with
  | put key value =>
    obtain ⟨hbelow, rfl, hinner⟩ := h
    exact .node hbelow (Overlay.flatten_put _ key value) fun _ h => nomatch h
  | delete key =>
    obtain ⟨hbelow, rfl, hinner⟩ := h
    exact .node hbelow (Overlay.flatten_delete _ key) fun _ h => nomatch h
  | merge changes =>
    obtain ⟨hbelow, rfl, hinner⟩ := h
    exact .node hbelow (Overlay.flatten_merge _ changes) fun _ h => nomatch h
  | push =>
    obtain ⟨hbelow, rfl, hinner⟩ := h
    exact .node hbelow rfl (List.forall_mem_cons.2 ⟨opened _, hinner⟩)
  | discard =>
    obtain ⟨hbelow, hshows, hinner⟩ := h
    obtain ⟨hfront, hback⟩ := List.forall_mem_append.1 hinner
    exact .node hbelow hshows
      (List.forall_mem_append.2 ⟨hfront, (List.forall_mem_cons.1 hback).2⟩)
  | @keep overlay nested =>
    obtain ⟨hbelow, -, hinner⟩ := h
    obtain ⟨hnested, hresult, -⟩ := hinner _ List.mem_cons_self
    refine .node hbelow ?_ fun _ h => nomatch h
    -- the nested overlay shows what it stages over what the outer one shows
    rw [Overlay.flatten_merge, ← hresult, ← hnested]
    rfl
  | inside front _ ih =>
    obtain ⟨hbelow, hshows, hinner⟩ := h
    obtain ⟨hfront, hback⟩ := List.forall_mem_append.1 hinner
    obtain ⟨hnest, hback⟩ := List.forall_mem_cons.1 hback
    exact .node hbelow hshows
      (List.forall_mem_append.2 ⟨hfront, List.forall_mem_cons.2 ⟨ih hnest, hback⟩⟩)

/-- Any number of `Step`s keep a nest `Faithful`. -/
theorem run (h : Faithful below nest) (hrun : Relation.ReflTransGen Step nest nest') :
    Faithful below nest' := by
  -- every step keeps the nest faithful
  induction hrun with
  | refl => exact h
  | tail _ hstep ih => exact ih.step hstep

/-- An overlay that a `Faithful` nest `Opens` reads through all `stages` down to the view. -/
theorem view_eq (h : Faithful below nest) {stages : List Changes} {overlay : Overlay}
    {plain : Table Bytes} (hopen : nest.Opens stages overlay plain) :
    overlay.view = stages.foldl View.push below ∧ overlay.view.flatten = plain := by
  -- induction on the way in: each overlay on it adds what it stages
  induction hopen generalizing below with
  | here =>
    obtain ⟨rfl, hshows, -⟩ := h
    exact ⟨rfl, hshows⟩
  | inside hnest _ ih =>
    obtain ⟨rfl, -, hinner⟩ := h
    exact ih (hinner _ hnest)

end Faithful

end Nest

/--
A view of `layers` over `base` `ReadsAs` the entries of the store after `Store.commitAll` of the
layers, `layers.reverse`, from the oldest to the nearest. So does the view of every `overlay` that
any `Nest.Step`s leave open on it, with the changes of `stages` committed too: those that it and the
overlays around it stage, from the outermost to the innermost. That store's entries are also
`plain`, the table on which the same operations were carried out as they came.
-/
theorem View.reads_committed (base : Table Bytes) (layers : List Changes) {nest : Nest}
    (hrun : Relation.ReflTransGen Nest.Step (.opened ⟨layers, base⟩) nest) {stages : List Changes}
    {overlay : Overlay} {plain : Table Bytes} (hopen : nest.Opens stages overlay plain) :
    View.ReadsAs ⟨layers, base⟩ (Store.commitAll ⟨base, 0⟩ layers.reverse).entries ∧
      overlay.view.ReadsAs (Store.commitAll ⟨base, 0⟩ (layers.reverse ++ stages)).entries ∧
      plain = (Store.commitAll ⟨base, 0⟩ (layers.reverse ++ stages)).entries := by
  -- the invariant of `Nest.Faithful.run`, read off at the overlay
  obtain ⟨hview, hplain⟩ := ((Nest.Faithful.opened _).run hrun).view_eq hopen
  -- each of the two stores is a flat table, and so each view reads as its own
  have hlayers : (Store.commitAll ⟨base, 0⟩ layers.reverse).entries =
      View.flatten ⟨layers, base⟩ := by
    rw [Store.entries_commitAll, flatten_eq_foldl]
  have hstages : (Store.commitAll ⟨base, 0⟩ (layers.reverse ++ stages)).entries =
      overlay.view.flatten := by
    rw [Store.entries_commitAll, List.foldl_append, hview, flatten_foldl_push, flatten_eq_foldl]
  rw [hlayers, hstages]
  exact ⟨readsAs_flatten _, readsAs_flatten _, hplain.symm⟩

/-! ## Two layers and three overlays

The nearer layer hides what the older one writes. An overlay is opened on them, a second one on it,
and the changes of a third are merged into the second.
-/

namespace Terraces

/-- What the two layers lie on. -/
def ground : Table Bytes := ((∅ : Table Bytes).insert [1] [10]).insert [1, 0] [11]

/-- The older layer writes one key again, and another one. -/
def older : Changes := .ofList [([1], some [12]), ([1, 7], some [13])]

/-- The newer layer deletes the key that both of them had. -/
def newer : Changes := .ofList [([1], none)]

/-- The view of both layers. -/
def slope : View := ⟨[newer, older], ground⟩

/-- An overlay on the layers, with a write of its own. -/
def outer : Overlay := (Overlay.on slope).put [1, 5] [50]

/-- A second overlay on the first, which deletes a key of the store. -/
def middle : Overlay := outer.nested.delete [1, 0]

/-- A third overlay on the second. -/
def inner : Overlay := middle.nested.put [2] [21]

/-- The second overlay, after the changes of the third were merged into it. -/
def top : Overlay := middle.merge inner.staged

/-- What the table beside the outer overlay holds. -/
def wet : Table Bytes := slope.flatten.insert [1, 5] [50]

/-- What the table beside the second overlay holds before the merge. -/
def dry : Table Bytes := wet.erase [1, 0]

/-- What it holds after the merge. -/
def flooded : Table Bytes := dry.insert [2] [21]

/-- `top` comes out of the steps: writes, deletions, two openings and the merge. -/
theorem run_top : Relation.ReflTransGen Nest.Step (.opened slope)
    (.node outer wet [.node top flooded []]) := by
  -- each step opens one more overlay or writes in the innermost one
  have hput : Nest.Step (.opened slope) (.node outer wet []) := .put [1, 5] [50]
  have hpush : Nest.Step (.node outer wet []) (.node outer wet [.node outer.nested wet []]) := .push
  have hdelete : Nest.Step (.node outer wet [.node outer.nested wet []])
      (.node outer wet [.node middle dry []]) :=
    .inside [] (.delete [1, 0])
  have hdeeper : Nest.Step (.node outer wet [.node middle dry []])
      (.node outer wet [.node middle dry [.node middle.nested dry []]]) :=
    .inside [] .push
  have hwrite : Nest.Step (.node outer wet [.node middle dry [.node middle.nested dry []]])
      (.node outer wet [.node middle dry [.node inner flooded []]]) :=
    .inside [] (.inside [] (.put [2] [21]))
  have hkeep : Nest.Step (.node outer wet [.node middle dry [.node inner flooded []]])
      (.node outer wet [.node top flooded []]) :=
    .inside [] .keep
  exact (((((Relation.ReflTransGen.single hput).tail hpush).tail hdelete).tail hdeeper).tail
    hwrite).tail hkeep

/-- `top` is still open inside `outer`. -/
theorem opens_top : Nest.Opens (.node outer wet [.node top flooded []])
    [outer.staged, top.staged] top flooded :=
  .inside List.mem_cons_self .here

/-- What is scanned through both overlays and both layers is `flooded`, as on a plain store. -/
theorem reads_top : Relation.ReflTransGen Nest.Step (.opened slope)
      (.node outer wet [.node top flooded []]) ∧
    Nest.Opens (.node outer wet [.node top flooded []]) [outer.staged, top.staged] top flooded ∧
    top.view.ReadsAs
      (Store.commitAll ⟨ground, 0⟩ [older, newer, outer.staged, top.staged]).entries ∧
    (top.view.scan [1]).toList = [([1, 5], [50]), ([1, 7], [13])] := by
  obtain ⟨-, hreads, -⟩ := View.reads_committed ground [newer, older] run_top opens_top
  refine ⟨run_top, opens_top, hreads, ?_⟩
  rw [hreads.scan]
  decide +kernel

end Terraces

end LeaseChain
