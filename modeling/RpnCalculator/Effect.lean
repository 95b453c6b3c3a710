/-!
# Effects

Carrying out a word is done bit by bit: an operand is looked at, a value is taken off, a
file is written, a result is put down.  Any bit can fail, and there is nothing that takes
back what was done before it.

An `Effect` is such a computation.  It has a state to work on, and it returns a state
whether it succeeds or fails; after a failure that is the state as the failure found it.
That a failure finds nothing changed is therefore not in the type.  It has to come from the
order in which an effect looks and changes.

## All or nothing

`Effect.attempt` is the effect that either makes a whole change or fails and makes none.
An effect that is written bit by bit leaves nothing half done exactly when it is equal to an
attempt.
-/

namespace RpnCalculator

/-- A computation on a state that can fail.  What it did before it failed stays done. -/
def Effect (σ ε α : Type) : Type := σ → Except ε α × σ

namespace Effect

variable {σ τ ε δ α β : Type}

instance : Monad (Effect σ ε) where
  pure a := fun s => (.ok a, s)
  bind e f := fun s =>
    match e s with
    | (.ok a, s') => f a s'
    | (.error x, s') => (.error x, s')

/-- Look at the state, and fail if there is nothing to be seen. -/
def look (r : σ → Except ε α) : Effect σ ε α := fun s => (r s, s)

/-- Change the state. -/
def change (f : σ → σ) : Effect σ ε Unit := fun s => (.ok (), f s)

/-- Fail. -/
def fail (x : ε) : Effect σ ε α := fun s => (.error x, s)

/-- Make a change as a whole, or fail and change nothing. -/
def attempt (f : σ → Except ε σ) : Effect σ ε Unit := fun s =>
  match f s with
  | .ok s' => (.ok (), s')
  | .error x => (.error x, s)

/-- Do something several times. -/
def times (e : Effect σ ε Unit) : Nat → Effect σ ε Unit
  | 0 => pure ()
  | n + 1 => do
    e
    times e n

/-- Clean up after a failure, and after nothing else. -/
def cleaning (e : Effect σ ε α) (clean : σ → σ) : Effect σ ε α := fun s =>
  match e s with
  | (.ok a, s') => (.ok a, s')
  | (.error x, s') => (.error x, clean s')

/-- Work on a part of a state, with faults of its own. -/
def within (get : σ → τ) (set : τ → σ → σ) (wrap : δ → ε) (e : Effect τ δ α) :
    Effect σ ε α := fun s =>
  match e (get s) with
  | (.ok a, t) => (.ok a, set t s)
  | (.error x, t) => (.error (wrap x), set t s)

/-! ## What each of them does -/

theorem ok_bind (a : α) (f : α → Except ε β) : (Except.ok a >>= f) = f a := rfl

theorem error_bind (x : ε) (f : α → Except ε β) : (Except.error x >>= f) = .error x := rfl

theorem bind_eq_ok_iff {r : Except ε α} {f : α → Except ε β} {b : β} :
    (r >>= f) = .ok b ↔ ∃ a, r = .ok a ∧ f a = .ok b := by
  cases r with
  | ok a => simp [ok_bind]
  | error x => simp [error_bind]

@[simp] theorem mapError_eq_ok_iff {r : Except ε α} {f : ε → δ} {a : α} :
    r.mapError f = .ok a ↔ r = .ok a := by
  cases r with
  | ok b => exact ⟨fun h => congrArg _ (Except.ok.inj h), fun h => congrArg _ (Except.ok.inj h)⟩
  | error x => exact ⟨nofun, nofun⟩

@[simp] theorem pure_apply (a : α) (s : σ) : (pure a : Effect σ ε α) s = (.ok a, s) := rfl

theorem bind_apply (e : Effect σ ε α) (f : α → Effect σ ε β) (s : σ) :
    (e >>= f) s =
      match e s with
      | (.ok a, s') => f a s'
      | (.error x, s') => (.error x, s') := rfl

@[simp] theorem fail_apply (x : ε) (s : σ) : (fail x : Effect σ ε α) s = (.error x, s) := rfl

@[simp] theorem change_apply (f : σ → σ) (s : σ) :
    (change f : Effect σ ε Unit) s = (.ok (), f s) := rfl

@[simp] theorem look_bind_apply (r : σ → Except ε α) (f : α → Effect σ ε β) (s : σ) :
    (look r >>= f) s =
      match r s with
      | .ok a => f a s
      | .error x => (.error x, s) := by
  rw [bind_apply, look]
  cases r s <;> rfl

@[simp] theorem change_bind_apply (f : σ → σ) (g : Unit → Effect σ ε β) (s : σ) :
    (change f >>= g) s = g () (f s) := rfl

@[simp] theorem times_zero (e : Effect σ ε Unit) : times e 0 = pure () := rfl

theorem times_succ (e : Effect σ ε Unit) (n : Nat) :
    times e (n + 1) = e >>= fun _ => times e n := rfl

theorem attempt_of_ok {f : σ → Except ε σ} {s s' : σ} (h : f s = .ok s') :
    attempt f s = (.ok (), s') := by
  simp [attempt, h]

/-- **A failed attempt changes nothing.** -/
theorem eq_of_attempt_eq_error {f : σ → Except ε σ} {s s' : σ} {x : ε}
    (h : attempt f s = (.error x, s')) : f s = .error x ∧ s' = s := by
  unfold attempt at h
  cases hf : f s with
  | ok t => simp [hf] at h
  | error y =>
    rw [hf] at h
    simp only [Prod.mk.injEq, Except.error.injEq] at h
    exact ⟨by rw [h.1], h.2.symm⟩

/-! ## What is an attempt

An effect is an attempt if it looks first and changes afterwards.  That what comes after a
look is an attempt has to be shown only where the look has seen something. -/

/-- A look before an attempt makes an attempt. -/
theorem look_bind_attempt_apply {r : σ → Except ε α} {e : α → Effect σ ε Unit}
    {f : α → σ → Except ε σ} {s : σ} (h : ∀ a, r s = .ok a → e a s = attempt (f a) s) :
    (look r >>= e) s = attempt (fun s => r s >>= fun a => f a s) s := by
  simp only [look_bind_apply, attempt]
  cases hr : r s with
  | error x => rfl
  | ok a => exact h a hr

theorem look_bind_eq_attempt {r : σ → Except ε α} {e : α → Effect σ ε Unit}
    {f : α → σ → Except ε σ} (h : ∀ s a, r s = .ok a → e a s = attempt (f a) s) :
    (look r >>= e) = .attempt fun s => r s >>= fun a => f a s :=
  funext fun s => look_bind_attempt_apply (h s)

/-- So does a change after an attempt. -/
theorem attempt_bind_change (f : σ → Except ε σ) (g : σ → σ) :
    (attempt f >>= fun _ => change g) = .attempt fun s => (f s).map g := by
  funext s
  rw [bind_apply, attempt, attempt]
  cases f s <;> rfl

/-- A change before an attempt makes an attempt if the attempt cannot fail. -/
theorem change_bind_attempt_apply {f : σ → Except ε σ} {g : σ → σ} {s t : σ}
    (h : f (g s) = .ok t) :
    (change g >>= fun _ => attempt f) s = attempt (fun s => f (g s)) s := by
  have ht : attempt (fun s => f (g s)) s = (.ok (), t) := attempt_of_ok h
  rw [change_bind_apply, attempt_of_ok h, ht]

/-- An attempt on a part of a state. -/
theorem within_attempt (get : σ → τ) (set : τ → σ → σ) (wrap : δ → ε) (f : τ → Except δ τ)
    (h : ∀ s, set (get s) s = s) :
    (attempt f).within get set wrap =
      .attempt fun s => ((f (get s)).mapError wrap).map (set · s) := by
  funext s
  simp only [within, attempt]
  cases f (get s) with
  | ok t => rfl
  | error x =>
    show (Except.error (wrap x), set (get s) s) = (.error (wrap x), s)
    rw [h]

end Effect

end RpnCalculator
