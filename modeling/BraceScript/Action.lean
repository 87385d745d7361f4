/-!
# Action — computing with a state that outlives failure

An action takes a state and gives a result or an error, and in both cases the state it leaves.
Reading tokens and running programs are both of this kind: what has been read stays read, what has
been bound and printed stays so, when something goes wrong later.
-/

namespace BraceScript

/-- A computation over a state: a result or an error, and the state that is left. -/
def Action (σ ε α : Type) : Type := σ → Except ε α × σ

namespace Action

variable {σ ε α β : Type}

/-- Performs an action on a state. -/
@[always_inline, inline]
def run (x : Action σ ε α) (s : σ) : Except ε α × σ := x s

/-- Actions that do the same on every state are the same. -/
@[ext] theorem ext {x y : Action σ ε α} (h : ∀ s, x.run s = y.run s) : x = y := funext h

/-- Two actions one after the other; the second is not performed if the first fails. -/
@[always_inline, inline]
def andThen (x : Action σ ε α) (f : α → Action σ ε β) : Action σ ε β := fun s =>
  match x s with
  | (.ok a, s) => f a s
  | (.error e, s) => (.error e, s)

/-- Performs another action when the first one fails, on the state that it left. -/
@[always_inline, inline]
def orElse (x : Action σ ε α) (f : ε → Action σ ε α) : Action σ ε α := fun s =>
  match x s with
  | (.ok a, s) => (.ok a, s)
  | (.error e, s) => f e s

@[always_inline]
instance : Monad (Action σ ε) where
  pure a := fun s => (.ok a, s)
  bind := andThen

@[always_inline]
instance : MonadStateOf σ (Action σ ε) where
  get := fun s => (.ok s, s)
  set s := fun _ => (.ok (), s)
  modifyGet f := fun s => let (a, s) := f s; (.ok a, s)

@[always_inline]
instance : MonadExceptOf ε (Action σ ε) where
  throw e := fun s => (.error e, s)
  tryCatch := orElse

@[simp] theorem run_pure (a : α) (s : σ) : (pure a : Action σ ε α).run s = (.ok a, s) := rfl

/-- What follows an action goes on from the state that the action leaves; an error skips it. -/
theorem run_bind (x : Action σ ε α) (f : α → Action σ ε β) (s : σ) :
    (x >>= f).run s =
      match x.run s with
      | (.ok a, s) => (f a).run s
      | (.error e, s) => (.error e, s) := rfl

/-- After a success the run goes on as what follows, with the result and from the state left. -/
theorem run_bind_of_ok {x : Action σ ε α} {s s' : σ} {a : α} (h : x.run s = (.ok a, s'))
    (f : α → Action σ ε β) : (x >>= f).run s = (f a).run s' := by
  rw [run_bind, h]

/-- An error ends the run there: neither it nor the state is touched by what would follow. -/
theorem run_bind_of_error {x : Action σ ε α} {s s' : σ} {e : ε} (h : x.run s = (.error e, s'))
    (f : α → Action σ ε β) : (x >>= f).run s = (.error e, s') := by
  rw [run_bind, h]

@[simp] theorem run_get (s : σ) : (get : Action σ ε σ).run s = (.ok s, s) := rfl

/-- A change of the state cannot fail. -/
@[simp] theorem run_modify (f : σ → σ) (s : σ) :
    (modify f : Action σ ε Unit).run s = (.ok (), f s) := rfl

@[simp] theorem run_throw (e : ε) (s : σ) : (throw e : Action σ ε α).run s = (.error e, s) := rfl

instance : LawfulMonad (Action σ ε) :=
  LawfulMonad.mk' _
    (fun x => Action.ext fun s => by
      change (x >>= pure).run s = x.run s
      rw [run_bind]
      rcases x.run s with ⟨_ | _, _⟩ <;> rfl)
    (fun _ _ => rfl)
    (fun x f g => Action.ext fun s => by
      simp only [run_bind]
      rcases x.run s with ⟨_ | _, _⟩ <;> rfl)

end Action

end BraceScript
