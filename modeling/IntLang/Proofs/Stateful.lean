/-!
Steps that may fail, most of them with a state that they thread: what a sequence of them that
succeeds or fails is made of.
-/
namespace IntLang

variable {ε σ α β : Type} {s s₁ s' : σ}

theorem exists_of_bind {x : Except ε α} {f : α → Except ε β} {b : β} (h : x >>= f = .ok b) :
    ∃ a, x = .ok a ∧ f a = .ok b := by
  cases x with
  | error e => cases h
  | ok a => exact ⟨a, rfl, h⟩

theorem bind_eq_ok {x : EStateM ε σ α} {f : α → EStateM ε σ β} {b : β}
    (h : (x >>= f) s = .ok b s') : ∃ a s₁, x s = .ok a s₁ ∧ f a s₁ = .ok b s' := by
  change EStateM.bind x f s = .ok b s' at h
  unfold EStateM.bind at h
  cases hx : x s with
  | ok a s₁ =>
      rw [hx] at h
      exact ⟨a, s₁, rfl, h⟩
  | error e s₁ =>
      rw [hx] at h
      cases h

theorem bind_eq_error {x : EStateM ε σ α} {f : α → EStateM ε σ β} {e : ε}
    (h : (x >>= f) s = .error e s') :
    x s = .error e s' ∨ ∃ a s₁, x s = .ok a s₁ ∧ f a s₁ = .error e s' := by
  change EStateM.bind x f s = .error e s' at h
  unfold EStateM.bind at h
  cases hx : x s with
  | ok a s₁ =>
      rw [hx] at h
      exact .inr ⟨a, s₁, rfl, h⟩
  | error e₁ s₁ =>
      rw [hx] at h
      cases h
      exact .inl rfl

theorem bind_of_ok {x : EStateM ε σ α} {a : α} (h : x s = .ok a s₁) (f : α → EStateM ε σ β) :
    (x >>= f) s = f a s₁ := by
  change EStateM.bind x f s = f a s₁
  rw [EStateM.bind, h]

theorem bind_of_error {x : EStateM ε σ α} {e : ε} (h : x s = .error e s₁)
    (f : α → EStateM ε σ β) : (x >>= f) s = .error e s₁ := by
  change EStateM.bind x f s = .error e s₁
  rw [EStateM.bind, h]

theorem pure_eq_ok {a b : α} (h : (pure a : EStateM ε σ α) s = .ok b s') : a = b ∧ s = s' := by
  cases h
  exact ⟨rfl, rfl⟩

end IntLang
