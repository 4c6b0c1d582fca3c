import LeaseChain.Proofs.Ledger.Isolation

/-!
# Independent transactions commute

Two transactions of different senders, neither of which pays the other's sender, on namespaces of
different names can be executed in either order. Mostly this is because they reach different keys:
the one neither reads nor overwrites what the other writes. What both can reach is the balance of a
key that both pay. There each reads what the other writes, and the orders agree because amounts that
are added up to a limit come to the same in any order.

## Key results

- `Unsigned.Independent`: two transactions that do not stand in each other's way
- `Unsigned.Independent.transfers_of_reaches`: what both of them reach
- `Overlay.execute_swap`: two in a row can be exchanged
- `Overlay.executeAll_perm`: pairwise independent transactions come to the same in any order
-/

namespace LeaseChain

open Ledger

/-- Amounts that `satAdd` adds to a balance come to the same in either order. -/
theorem satAdd_right_comm (held a b : UInt64) :
    satAdd (satAdd held a) b = satAdd (satAdd held b) a := by
  rw [← UInt64.toNat_inj, toNat_satAdd, toNat_satAdd, toNat_satAdd, toNat_satAdd]
  omega

namespace Changes

/-- Changes to different keys `merge` in either order. -/
theorem merge_comm {a b : Changes} (h : ∀ key : Bytes, a[key]? = none ∨ b[key]? = none) :
    a.merge b = b.merge a := by
  apply Std.ExtTreeMap.ext_getElem?
  intro key
  -- at each key one of the two sides has nothing
  rw [getElem?_merge, getElem?_merge]
  cases h key with
  | inl hkey => simp [hkey]
  | inr hkey => simp [hkey]

/-- `merge` is associative. -/
theorem merge_assoc (a b c : Changes) : (a.merge b).merge c = a.merge (b.merge c) := by
  apply Std.ExtTreeMap.ext_getElem?
  intro key
  simp only [getElem?_merge, Option.or_assoc]

end Changes

/-! ## Independence -/

/-- Different senders, neither of which the other pays, and no namespace that both name. -/
structure Unsigned.Independent (a b : Unsigned) : Prop where
  senders : a.base.sender ≠ b.base.sender
  payee : ∀ units, a.operation ≠ .transfer b.base.sender units
  payee' : ∀ units, b.operation ≠ .transfer a.base.sender units
  names : ∀ name, a.operation.name? = some name → b.operation.name? ≠ some name

namespace Unsigned.Independent

variable {a b : Unsigned}

theorem symm (h : a.Independent b) : b.Independent a :=
  ⟨h.senders.symm, h.payee', h.payee, fun name hb ha => h.names name ha hb⟩

/-- What two `Independent` transactions with names that hold no slash both reach, both pay. -/
theorem transfers_of_reaches (h : a.Independent b)
    (ha : ∀ name, a.operation.name? = some name → StoreKey.IsSegment name)
    (hb : ∀ name, b.operation.name? = some name → StoreKey.IsSegment name) {key : Bytes}
    (hkey : a.Reaches key) (hkey' : b.Reaches key) : ∃ recipient units units',
      a.operation = .transfer recipient units ∧ b.operation = .transfer recipient units' := by
  generalize hk : key = k at hkey'
  -- both reach the key in some way: as a sender's, as a recipient's or under a name
  cases hkey with
  | sender =>
    cases hkey' with
    | sender => exact absurd (StoreKey.balance_inj.1 hk) h.senders
    | recipient hop =>
      rw [← StoreKey.balance_inj.1 hk] at hop
      exact absurd hop (h.payee' _)
    | name _ hown => exact absurd (hk ▸ hown) (StoreKey.not_belongsTo_balance _ _)
  | @recipient recipient units hop =>
    cases hkey' with
    | sender =>
      rw [StoreKey.balance_inj.1 hk] at hop
      exact absurd hop (h.payee _)
    | @recipient _ units' hop' =>
      rw [← StoreKey.balance_inj.1 hk] at hop'
      exact ⟨recipient, units, units', hop, hop'⟩
    | name _ hown => exact absurd (hk ▸ hown) (StoreKey.not_belongsTo_balance _ _)
  | @name name _ hname hown =>
    cases hkey' with
    | sender | recipient => exact absurd (hk ▸ hown) (StoreKey.not_belongsTo_balance _ _)
    | @name name' _ hname' hown' =>
      -- neither name holds a slash, so a key tells which of them it belongs to
      obtain rfl := StoreKey.eq_of_belongsTo (ha name hname) (hb name' hname') hown (hk ▸ hown')
      exact absurd hname' (h.names name hname)

end Unsigned.Independent

/-! ## Two in a row -/

namespace Unsigned

variable {a b : Unsigned} {ctxA ctxB : ExecutionContext} {view : View} {written written' : Changes}

/--
Two transactions that are apart, in that what `a.Reaches` is not what `b.Reaches`, are exchanged.
-/
theorem execute_swap_of_apart (hapart : ∀ key, a.Reaches key → ¬b.Reaches key)
    (ha : a.execute ctxA view = .ok written)
    (hb : b.execute ctxB (view.push written) = .ok written') :
    b.execute ctxB view = .ok written' ∧ a.execute ctxA (view.push written') = .ok written ∧
      written'.merge written = written.merge written' := by
  -- neither reads what the other writes
  have hb' : b.execute ctxB view = .ok written' := by
    rw [← hb]
    refine execute_congr_of_reaches (fun key hkey => ?_) ctxB
    rw [View.get?_push, getElem?_of_execute ha fun hkey' => hapart key hkey' hkey]
    rfl
  have ha' : a.execute ctxA (view.push written') = .ok written := by
    rw [← ha]
    refine execute_congr_of_reaches (fun key hkey => ?_) ctxA
    rw [View.get?_push, getElem?_of_execute hb (hapart key hkey)]
    rfl
  refine ⟨hb', ha', Changes.merge_comm fun key => ?_⟩
  -- and neither overwrites it
  by_cases hkey : a.Reaches key
  · exact .inl (getElem?_of_execute hb (hapart key hkey))
  · exact .inr (getElem?_of_execute ha hkey)

/-- What a payment writes: what is left to the sender and what the recipient has then. -/
def payment (sender : PublicKey) (rest : UInt64) (recipient : PublicKey) (sum : UInt64) : Changes :=
  (Changes.putBalance ∅ sender rest).putBalance recipient sum

/-- A `transfer` is executed exactly when its form passes and the sender's balance covers it. -/
theorem execute_transfer_iff {tx : Unsigned} {ctx : ExecutionContext} {recipient : PublicKey}
    {units : UInt64} (hop : tx.operation = .transfer recipient units) :
    tx.execute ctx view = .ok written ↔
      (validateForm ctx.genesis tx = .ok () ∧ recipient ≠ tx.base.sender ∧ units ≠ 0) ∧
      ∃ rest held, Pays view tx.base.sender (satAdd units (tx.fee ctx.genesis)) rest ∧
        view.balance recipient = .ok held ∧
        written = payment tx.base.sender rest recipient (satAdd held units) := by
  rw [execute_eq_ok_iff, hop]
  constructor
  · rintro ⟨hform, houtcome⟩
    cases houtcome with
    | transfer hother hunits hpays hheld =>
      exact ⟨⟨hform, hother, hunits⟩, _, _, hpays, hheld, rfl⟩
  · rintro ⟨⟨hform, hother, hunits⟩, rest, held, hpays, hheld, rfl⟩
    exact ⟨hform, .transfer hother hunits hpays hheld⟩

/-- A `payment` leaves what others have as it is. -/
theorem balance_push_payment_of_ne {sender recipient holder : PublicKey} {rest sum : UInt64}
    (hsender : sender ≠ holder) (hrecipient : recipient ≠ holder) :
    (view.push (payment sender rest recipient sum)).balance holder = view.balance holder :=
  View.balance_push_of_none (by simp [payment, Changes.getElem?_putBalance, hsender, hrecipient])

/-- The recipient of a `payment` has what it writes. -/
theorem balance_push_payment_recipient (sender recipient : PublicKey) (rest sum : UInt64) :
    (view.push (payment sender rest recipient sum)).balance recipient = .ok sum :=
  View.balance_push_of_put (by simp [payment, Changes.getElem?_putBalance])

/-- `execute` of two transfers to one key is exchanged: each adds to what the other left there. -/
theorem execute_swap_of_transfers (h : a.Independent b) {recipient : PublicKey}
    {units units' : UInt64} (hopA : a.operation = .transfer recipient units)
    (hopB : b.operation = .transfer recipient units') (ha : a.execute ctxA view = .ok written)
    (hb : b.execute ctxB (view.push written) = .ok written') :
    ∃ first second, b.execute ctxB view = .ok first ∧
      a.execute ctxA (view.push first) = .ok second ∧
      first.merge second = written.merge written' := by
  obtain ⟨⟨hformA, hotherA, hunitsA⟩, restA, held, hpaysA, hheld, rfl⟩ :=
    (execute_transfer_iff hopA).1 ha
  obtain ⟨⟨hformB, hotherB, hunitsB⟩, restB, sum, ⟨available, hbalance, hrest⟩, hsum, rfl⟩ :=
    (execute_transfer_iff hopB).1 hb
  rw [balance_push_payment_recipient] at hsum
  obtain rfl := Except.ok.inj hsum
  -- the senders pay from balances that the other payment leaves alone
  rw [balance_push_payment_of_ne h.senders hotherB] at hbalance
  obtain ⟨availableA, hbalanceA, hrestA⟩ := hpaysA
  refine ⟨payment b.base.sender restB recipient (satAdd held units'),
    payment a.base.sender restA recipient (satAdd (satAdd held units') units),
    (execute_transfer_iff hopB).2 ⟨⟨hformB, hotherB, hunitsB⟩, restB, held,
      ⟨available, hbalance, hrest⟩, hheld, rfl⟩,
    (execute_transfer_iff hopA).2 ⟨⟨hformA, hotherA, hunitsA⟩, restA, satAdd held units',
      ⟨availableA, ?_, hrestA⟩, balance_push_payment_recipient _ _ _ _, rfl⟩, ?_⟩
  · rw [balance_push_payment_of_ne h.senders.symm hotherA, hbalanceA]
  · apply Std.ExtTreeMap.ext_getElem?
    intro key
    have hsenders : StoreKey.balance a.base.sender ≠ StoreKey.balance b.base.sender :=
      fun heq => h.senders (StoreKey.balance_inj.1 heq)
    simp only [Changes.getElem?_merge, payment, Changes.getElem?_putBalance,
      satAdd_right_comm held units' units]
    grind

/-- `Independent` transactions that are executed one after the other on a view are exchanged. -/
theorem execute_swap (h : a.Independent b) (ha : a.execute ctxA view = .ok written)
    (hb : b.execute ctxB (view.push written) = .ok written') :
    ∃ first second, b.execute ctxB view = .ok first ∧
      a.execute ctxA (view.push first) = .ok second ∧
      first.merge second = written.merge written' := by
  -- they reach nothing in common, or they pay one recipient
  by_cases hapart : ∀ key, a.Reaches key → ¬b.Reaches key
  · exact ⟨_, _, execute_swap_of_apart hapart ha hb⟩
  · simp only [Classical.not_forall, Classical.not_not] at hapart
    obtain ⟨key, hkey, hkey'⟩ := hapart
    obtain ⟨recipient, units, units', hopA, hopB⟩ := h.transfers_of_reaches
      (fun _ => isSegment_of_execute ha) (fun _ => isSegment_of_execute hb) hkey hkey'
    exact execute_swap_of_transfers h hopA hopB ha hb

end Unsigned

/-! ## On an overlay -/

namespace Overlay

/-- The overlay with the writes of a transaction that is executed on what it shows. -/
def execute (overlay : Overlay) (ctx : ExecutionContext) (tx : Unsigned) :
    Except ExecutionError Overlay := do
  return overlay.merge (← tx.execute ctx overlay.view)

variable {overlay after : Overlay} {a b : Unsigned} {ctxA ctxB : ExecutionContext}

/-- `Overlay.execute` merges what the transaction writes. -/
theorem execute_eq_ok_iff {tx : Unsigned} {ctx : ExecutionContext} :
    overlay.execute ctx tx = .ok after ↔ ∃ changes,
      tx.execute ctx overlay.view = .ok changes ∧ overlay.merge changes = after := by
  simp only [execute, Except.bind_eq_ok_iff, Except.pure_eq_ok, Except.ok.injEq]

/-- `execute` on merged changes is `execute` on a view with one layer more. -/
theorem execute_view_merge (overlay : Overlay) (changes : Changes) (tx : Unsigned)
    (ctx : ExecutionContext) :
    tx.execute ctx (overlay.merge changes).view = tx.execute ctx (overlay.view.push changes) :=
  Unsigned.execute_congr (fun key _ => by rw [get?_view_merge, View.get?_push]) tx ctx

/-- Two merges are one `merge` of both changes. -/
theorem merge_merge (overlay : Overlay) (a b : Changes) :
    (overlay.merge a).merge b = overlay.merge (a.merge b) := by
  simp only [merge, Changes.merge_assoc]

/-- `Independent` transactions leave the same overlay in either order. -/
theorem execute_swap (h : a.Independent b)
    (hrun : (overlay.execute ctxA a >>= (·.execute ctxB b)) = .ok after) :
    (overlay.execute ctxB b >>= (·.execute ctxA a)) = .ok after := by
  simp only [Except.bind_eq_ok_iff, execute_eq_ok_iff] at hrun ⊢
  obtain ⟨_, ⟨written, ha, rfl⟩, written', hb, rfl⟩ := hrun
  rw [execute_view_merge] at hb
  obtain ⟨first, second, hb', ha', hmerge⟩ := Unsigned.execute_swap h ha hb
  refine ⟨_, ⟨first, hb', rfl⟩, second, ?_, ?_⟩
  · rw [execute_view_merge, ha']
  · rw [merge_merge, merge_merge, hmerge]

/-- The overlay after transactions that are executed one after the other. -/
def executeAll (overlay : Overlay) (calls : List (ExecutionContext × Unsigned)) :
    Except ExecutionError Overlay :=
  calls.foldlM (fun overlay (ctx, tx) => overlay.execute ctx tx) overlay

/-- Pairwise `Independent` transactions come to the same in any order. -/
theorem executeAll_perm {calls calls' : List (ExecutionContext × Unsigned)}
    (hperm : calls.Perm calls') (hpairs : calls.Pairwise fun a b => a.2.Independent b.2)
    (hrun : overlay.executeAll calls = .ok after) : overlay.executeAll calls' = .ok after := by
  -- a permutation is made of exchanges of two neighbours
  induction hperm generalizing overlay with
  | nil => exact hrun
  | cons call _ ih =>
    simp only [executeAll, List.foldlM_cons, Except.bind_eq_ok_iff] at hrun ⊢
    obtain ⟨middle, hfirst, hrest⟩ := hrun
    exact ⟨middle, hfirst, ih (List.pairwise_cons.1 hpairs).2 hrest⟩
  | swap a b rest =>
    simp only [executeAll, List.foldlM_cons, ← bind_assoc] at hrun ⊢
    obtain ⟨middle, hboth, hrest⟩ := Except.bind_eq_ok_iff.1 hrun
    have hindependent := (List.pairwise_cons.1 hpairs).1 a List.mem_cons_self
    exact Except.bind_eq_ok_iff.2 ⟨middle, execute_swap hindependent hboth, hrest⟩
  | trans hperm _ ih ih' =>
    exact ih' ((hperm.pairwise_iff Unsigned.Independent.symm).1 hpairs) (ih hpairs hrun)

/--
Transactions that are `Independent` commute on every `overlay`. One can be executed and then the
other exactly when this is so the other way round, and both ways leave the same overlay `after`.
-/
theorem execute_comm (h : a.Independent b) (overlay after : Overlay) (g : Genesis) (time : UInt64)
    (idA idB : Hash) :
    (overlay.execute ⟨g, time, idA⟩ a >>= (·.execute ⟨g, time, idB⟩ b)) = .ok after ↔
      (overlay.execute ⟨g, time, idB⟩ b >>= (·.execute ⟨g, time, idA⟩ a)) = .ok after :=
  ⟨execute_swap h, execute_swap h.symm⟩

end Overlay

/-! ## Two gifts

Two keys pay the same heir, whose balance reaches the largest amount with the first gift.
-/

namespace Gifts

open Neighbours (owner guest)

/-- A key that has a balance already. -/
def heir : PublicKey := ⟨3 :: List.replicate 31 0, rfl, by decide +kernel⟩

/-- The two senders have enough, and the heir is four units from the largest amount. -/
def estate : Overlay := ⟨((Changes.putBalance ∅ owner 10).putBalance guest 20).putBalance heir
  (.ofNat (UInt64.size - 4)), .durable ∅⟩

/-- Five units from the first sender. -/
def ofOwner : Unsigned := ⟨⟨owner, Hash.replicate 1, 1, 0⟩, .transfer heir 5⟩

/-- Seven units from the second one. -/
def ofGuest : Unsigned := ⟨⟨guest, Hash.replicate 1, 1, 1⟩, .transfer heir 7⟩

/-- `Independent` holds as the senders differ, neither pays the other and no namespace is named. -/
theorem independent : ofOwner.Independent ofGuest where
  senders := by decide
  payee units := by simp [ofOwner, ofGuest, guest, heir]
  payee' units := by simp [ofOwner, ofGuest, owner, heir]
  names _ h := nomatch h

/-- Both gifts of `Gifts` are made in either order, and leave the same behind. -/
theorem comm_gifts : ∃ after,
    (estate.execute ⟨{}, 50, Hash.replicate 2⟩ ofOwner >>=
      (·.execute ⟨{}, 50, Hash.replicate 3⟩ ofGuest)) = .ok after ∧
    (estate.execute ⟨{}, 50, Hash.replicate 3⟩ ofGuest >>=
      (·.execute ⟨{}, 50, Hash.replicate 2⟩ ofOwner)) = .ok after ∧
    after.view.get? (StoreKey.balance heir) =
      some (Wire.write (UInt64.ofNat (UInt64.size - 1))) := by
  generalize hrun : (estate.execute ⟨{}, 50, Hash.replicate 2⟩ ofOwner >>=
    (·.execute ⟨{}, 50, Hash.replicate 3⟩ ofGuest)) = run
  have hbalance : run.toOption.bind (·.view.get? (StoreKey.balance heir)) =
      some (Wire.write (UInt64.ofNat (UInt64.size - 1))) := by
    rw [← hrun]
    decide +kernel
  cases run with
  | error => cases hbalance
  | ok after =>
    exact ⟨after, rfl, (Overlay.execute_comm independent estate after {} 50 _ _).1 hrun,
      hbalance⟩

end Gifts

end LeaseChain
