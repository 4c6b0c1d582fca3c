/-!
# Except lemmas for the standard library

When a computation that may fail gives a result, each of its steps gave one. The `_eq_ok_iff` lemmas
say so for the operations that the library's `do` blocks consist of. `FailsOnly` says which errors a
computation may end with, and passes through the same operations.
-/

namespace Except

variable {ε ε' α β : Type}

/-- A sequence `x >>= f` succeeds exactly when `x` does, and `f` does on the result. -/
theorem bind_eq_ok_iff {x : Except ε α} {f : α → Except ε β} {b : β} :
    (x >>= f) = .ok b ↔ ∃ a, x = .ok a ∧ f a = .ok b := by
  cases x with
  | error e => simp [bind, Except.bind]
  | ok a => simp [bind, Except.bind]

/-- The same where `x` gives nothing but its success. -/
theorem bind_unit_eq_ok_iff {x : Except ε Unit} {f : Unit → Except ε β} {b : β} :
    (x >>= f) = .ok b ↔ x = .ok () ∧ f () = .ok b := by
  rw [bind_eq_ok_iff]
  exact ⟨fun ⟨(), h⟩ => h, fun h => ⟨(), h⟩⟩

/-- A sequence that is broken off by a `throw` where a condition holds. -/
theorem guard_eq_ok_iff {p : Prop} [Decidable p] {e : ε} {f : Unit → Except ε β} {b : β} :
    (if p then (throw e >>= f) else f ()) = .ok b ↔ ¬p ∧ f () = .ok b := by
  -- where the condition holds the sequence throws, and otherwise it is the rest
  by_cases hp : p
  · simp [hp, throw, throwThe, MonadExceptOf.throw, bind, Except.bind]
  · simp [hp]

/-- `bind` of a computation to `Except.ok` is the computation. -/
@[simp] theorem bind_ok (x : Except ε α) : (x >>= Except.ok) = x := by
  cases x <;> rfl

@[simp] theorem ok_bind (a : α) (f : α → Except ε β) : (Except.ok a >>= f) = f a := rfl

@[simp] theorem error_bind (e : ε) (f : α → Except ε β) :
    ((Except.error e : Except ε α) >>= f) = .error e := rfl

@[simp] theorem pure_eq_ok (a : α) : (pure a : Except ε α) = .ok a := rfl

@[simp] theorem throw_eq_error (e : ε) : (throw e : Except ε α) = .error e := rfl

/-- A result of `f <$> x` is exactly what `f` makes of one of `x`. -/
@[simp] theorem map_eq_ok_iff {f : α → β} {x : Except ε α} {b : β} :
    f <$> x = .ok b ↔ ∃ a, x = .ok a ∧ f a = b := by
  cases x with
  | error e => simp [Functor.map, Except.map]
  | ok a => simp [Functor.map, Except.map]

@[simp] theorem mapError_ok (f : ε → ε') (a : α) :
    (Except.ok a : Except ε α).mapError f = .ok a := rfl

@[simp] theorem mapError_error (f : ε → ε') (e : ε) :
    (Except.error e : Except ε α).mapError f = .error (f e) := rfl

/-- `mapError` changes nothing about success. -/
@[simp] theorem mapError_eq_ok_iff {f : ε → ε'} {x : Except ε α} {a : α} :
    x.mapError f = .ok a ↔ x = .ok a := by
  cases x with
  | error e => simp
  | ok b => simp

/-- `discard` succeeds exactly where the computation does. -/
@[simp] theorem discard_eq_ok_iff {x : Except ε α} {u : Unit} :
    discard x = .ok u ↔ ∃ a, x = .ok a := by
  cases x with
  | error e => simp [discard, Functor.discard, Functor.mapConst, Except.map]
  | ok a => simp [discard, Functor.discard, Functor.mapConst, Except.map]

/-- Whatever the computation fails with has the property. -/
def FailsOnly (p : ε → Prop) (x : Except ε α) : Prop := ∀ cause, x = .error cause → p cause

namespace FailsOnly

variable {p : ε → Prop} {q : ε' → Prop}

/-- `FailsOnly` holds of a result, which is no failure. -/
theorem ok (a : α) : FailsOnly p (.ok a : Except ε α) := fun _ h => nomatch h

/-- `FailsOnly` holds of what gives a result. -/
theorem of_eq_ok {x : Except ε α} {a : α} (h : x = .ok a) : FailsOnly p x := h ▸ ok a

/-- `FailsOnly` passes from the cause to the failure. -/
theorem error {cause : ε} (h : p cause) : FailsOnly p (.error cause : Except ε α) :=
  fun _ heq => Except.error.inj heq ▸ h

/-- `x >>= f` fails as `x` does, or as `f` does on a result of `x`. -/
theorem bind {x : Except ε α} {f : α → Except ε β} (hx : FailsOnly p x)
    (hf : ∀ a, x = .ok a → FailsOnly p (f a)) : FailsOnly p (x >>= f) := by
  cases x with
  | error cause => exact error (hx cause rfl)
  | ok a => exact hf a rfl

/-- An `if` fails as one of its branches does. -/
theorem ite {c : Prop} [Decidable c] {x y : Except ε α} (hx : FailsOnly p x)
    (hy : FailsOnly p y) : FailsOnly p (if c then x else y) := by
  split
  · exact hx
  · exact hy

/-- A sequence that is broken off by a `throw` fails as that does, or as the rest. -/
theorem guard {c : Prop} [Decidable c] {cause : ε} {f : Unit → Except ε β} (hcause : p cause)
    (hf : FailsOnly p (f ())) : FailsOnly p (if c then (throw cause >>= f) else f ()) :=
  ite (error hcause) hf

theorem mono {p' : ε → Prop} {x : Except ε α} (hx : FailsOnly p x) (hsub : ∀ c, p c → p' c) :
    FailsOnly p' x :=
  fun cause h => hsub cause (hx cause h)

/-- `mapError f` fails with what `f` makes of the property. -/
theorem mapError {f : ε → ε'} {x : Except ε α} (hx : FailsOnly p x) (hf : ∀ c, p c → q (f c)) :
    FailsOnly q (x.mapError f) := by
  cases x with
  | error cause => exact error (hf cause (hx cause rfl))
  | ok a => exact ok a

/-- `mapError f` fails with what holds of all that `f` gives. -/
theorem mapError_of_forall {f : ε → ε'} {x : Except ε α} (hf : ∀ c, q (f c)) :
    FailsOnly q (x.mapError f) := by
  cases x with
  | error cause => exact error (hf cause)
  | ok a => exact ok a

/-- `f <$> x` fails as `x` does. -/
theorem map {f : α → β} {x : Except ε α} (hx : FailsOnly p x) : FailsOnly p (f <$> x) := by
  cases x with
  | error cause => exact error (hx cause rfl)
  | ok a => exact ok (f a)

/-- `discard x` fails as `x` does. -/
theorem discard {x : Except ε α} (hx : FailsOnly p x) : FailsOnly p (discard x) := by
  cases x with
  | error cause => exact error (hx cause rfl)
  | ok a => exact ok ()

end FailsOnly

/-- `mapM` of steps that all give a result gives a list of results. -/
theorem exists_mapM_eq_ok {f : α → Except ε β} {as : List α} (h : ∀ a ∈ as, ∃ b, f a = .ok b) :
    ∃ bs, as.mapM f = .ok bs := by
  -- induction on the list: the first step gives a result, and so do the steps behind it
  induction as with
  | nil => exact ⟨[], rfl⟩
  | cons a as ih =>
    obtain ⟨b, hb⟩ := h a List.mem_cons_self
    obtain ⟨bs, hbs⟩ := ih fun a' ha' => h a' (List.mem_cons_of_mem a ha')
    exact ⟨b :: bs, by rw [List.mapM_cons, hb, hbs]; rfl⟩

/-- `mapM` collects results when there is one for every item. -/
theorem mapM_eq_ok_iff {f : α → Except ε β} {as : List α} {bs : List β} :
    as.mapM f = .ok bs ↔ as.map f = bs.map .ok := by
  -- both sides are taken apart at the first item; the results must begin with its own
  induction as generalizing bs with
  | nil => cases bs <;> simp
  | cons a as ih =>
    rw [List.mapM_cons, bind_eq_ok_iff]
    simp only [bind_eq_ok_iff, ih]
    cases bs with
    | nil => simp
    | cons b bs => simp

end Except
