import BraceScript.Action

/-!
# Proofs/Action — laws of actions, one after the other

An action that is a sequence is taken apart by its outcome (`run_bind_eq_ok`, `run_bind_eq_error`),
or a property is carried through it: from one state to the next (`Preserves`), or along two runs
that start from related states (`Respects`).
-/

namespace BraceScript.Action

variable {σ ε α β : Type}

/-- **A sequence succeeds only if both parts do**, the second from the state that the first
leaves. -/
theorem run_bind_eq_ok {x : Action σ ε α} {f : α → Action σ ε β} {s s' : σ} {b : β}
    (h : (x >>= f).run s = (.ok b, s')) :
    ∃ a s₁, x.run s = (.ok a, s₁) ∧ (f a).run s₁ = (.ok b, s') := by
  rcases hx : x.run s with ⟨e | a, s₁⟩
  · rw [run_bind_of_error hx] at h
    cases h
  · rw [run_bind_of_ok hx] at h
    exact ⟨a, s₁, rfl, h⟩

/-- **A sequence fails in its first part or, after a success of it, in its second.** -/
theorem run_bind_eq_error {x : Action σ ε α} {f : α → Action σ ε β} {s s' : σ} {e : ε}
    (h : (x >>= f).run s = (.error e, s')) :
    x.run s = (.error e, s') ∨ ∃ a s₁, x.run s = (.ok a, s₁) ∧ (f a).run s₁ = (.error e, s') := by
  rcases hx : x.run s with ⟨e' | a, s₁⟩
  · rw [run_bind_of_error hx] at h
    cases h
    exact .inl rfl
  · rw [run_bind_of_ok hx] at h
    exact .inr ⟨a, s₁, rfl, h⟩

/-- **Whatever it starts from, the action leaves a state that `R` allows.** -/
def Preserves (R : σ → σ → Prop) (x : Action σ ε α) : Prop := ∀ s, R s (x.run s).2

/-- A transitive relation between the states before and after is kept by sequences. -/
theorem Preserves.bind {R : σ → σ → Prop} (htrans : ∀ {a b c}, R a b → R b c → R a c)
    {x : Action σ ε α} {f : α → Action σ ε β} (hx : Preserves R x) (hf : ∀ a, Preserves R (f a)) :
    Preserves R (x >>= f) := by
  intro s
  have hs := hx s
  rcases h : x.run s with ⟨e | a, s'⟩ <;> rw [h] at hs
  · rw [run_bind_of_error h]
    exact hs
  · rw [run_bind_of_ok h]
    exact htrans hs (hf a s')

/-- **On related states the action gives the same result, and leaves related states.** -/
def Respects (R : σ → σ → Prop) (x : Action σ ε α) : Prop :=
  ∀ s t, R s t → (x.run s).1 = (x.run t).1 ∧ R (x.run s).2 (x.run t).2

theorem respects_pure (R : σ → σ → Prop) (a : α) : Respects R (pure a : Action σ ε α) :=
  fun _ _ h => ⟨rfl, h⟩

theorem respects_throw (R : σ → σ → Prop) (e : ε) : Respects R (throw e : Action σ ε α) :=
  fun _ _ h => ⟨rfl, h⟩

/-- Related states stay related through a sequence, and the results are the same. -/
theorem Respects.bind {R : σ → σ → Prop} {x : Action σ ε α} {f : α → Action σ ε β}
    (hx : Respects R x) (hf : ∀ a, Respects R (f a)) : Respects R (x >>= f) := by
  intro s t h
  obtain ⟨hresult, hstate⟩ := hx s t h
  rcases hs : x.run s with ⟨r, s'⟩
  rcases ht : x.run t with ⟨r', t'⟩
  rw [hs, ht] at hresult hstate
  obtain rfl : r = r' := hresult
  cases r with
  | ok a =>
    rw [run_bind_of_ok hs, run_bind_of_ok ht]
    exact hf a s' t' hstate
  | error e =>
    rw [run_bind_of_error hs, run_bind_of_error ht]
    exact ⟨rfl, hstate⟩

end BraceScript.Action
