import Mathlib.Tactic.Common

/-!
# Programs that fail with their state

`EStateM ε σ` is the type of programs that change a state and may fail, and
that keep the state of the failure. The lemmas here run such a program
backwards: from the fact that it succeeded they read off the successes of its
parts, one construct at a time, so that `simp only` with them executes a
`do` block symbolically.
-/

namespace Stateful

variable {ε σ α β : Type} {s s' : σ}

variable {x y : EStateM ε σ α} {f : α → EStateM ε σ β} {b : α} {c : Prop}

theorem bind_ok {b : β} : (x >>= f) s = .ok b s' ↔ ∃ a s₁, x s = .ok a s₁ ∧ f a s₁ = .ok b s' := by
  show EStateM.bind x f s = .ok b s' ↔ _
  unfold EStateM.bind
  cases hx : x s with
  | ok a s₁ => simp
  | error e s₁ => simp

theorem pure_ok {a : α} : (pure a : EStateM ε σ α) s = .ok b s' ↔ a = b ∧ s = s' := by
  show EStateM.Result.ok a s = .ok b s' ↔ _
  rw [EStateM.Result.ok.injEq]

theorem throw_ok {e : ε} : (throw e : EStateM ε σ α) s = .ok b s' ↔ False := by
  show EStateM.Result.error e s = .ok b s' ↔ _
  simp

theorem modify_ok {f : σ → σ} {u : Unit} :
    (modify f : EStateM ε σ Unit) s = .ok u s' ↔ f s = s' := by
  show EStateM.Result.ok () (f s) = .ok u s' ↔ _
  rw [EStateM.Result.ok.injEq]
  exact and_iff_right rfl

theorem get_ok {a : σ} : (get : EStateM ε σ σ) s = .ok a s' ↔ s = a ∧ s = s' := by
  show EStateM.Result.ok s s = .ok a s' ↔ _
  rw [EStateM.Result.ok.injEq]

theorem set_ok {a : σ} {u : PUnit} :
    (set a : EStateM ε σ PUnit) s = .ok u s' ↔ a = s' := by
  show EStateM.Result.ok PUnit.unit a = .ok u s' ↔ _
  rw [EStateM.Result.ok.injEq]
  exact and_iff_right rfl

/-- A conditional succeeds as the branch it takes does. -/
theorem ite_ok [Decidable c] :
    (if c then x else y) s = .ok b s' ↔ (c ∧ x s = .ok b s') ∨ (¬ c ∧ y s = .ok b s') := by
  split <;> simp_all

/-- A program goes on from where its first part succeeded. -/
theorem bind_of_ok {a : α} {s₁ : σ} (h : x s = .ok a s₁) : (x >>= f) s = f a s₁ := by
  show EStateM.bind x f s = _
  unfold EStateM.bind
  rw [h]

/-- Two programs agree whose first parts do, and that agree from there. -/
theorem bind_agree {g : α → EStateM ε σ β} (hxy : x s = y s)
    (h : ∀ a s₁, x s = .ok a s₁ → f a s₁ = g a s₁) : (x >>= f) s = (y >>= g) s := by
  show EStateM.bind x f s = EStateM.bind y g s
  unfold EStateM.bind
  rw [← hxy]
  cases hx : x s with
  | ok a s₁ => exact h a s₁ hx
  | error e s₁ => rfl

/-- Two programs agree that begin alike and agree from there. -/
theorem bind_congr {g : α → EStateM ε σ β}
    (h : ∀ a s₁, x s = .ok a s₁ → f a s₁ = g a s₁) : (x >>= f) s = (x >>= g) s :=
  bind_agree rfl h

/-- Two conditionals agree whose branches do. -/
theorem ite_congr [Decidable c] {x' y' : EStateM ε σ α}
    (h : x s = x' s) (h' : y s = y' s) : (if c then x else y) s = (if c then x' else y') s := by
  split
  · exact h
  · exact h'

/-! ## Failures -/

/-- A program whose errors all satisfy a condition. -/
def Errors (P : ε → Prop) (x : EStateM ε σ α) : Prop :=
  ∀ s e s', x s = .error e s' → P e

variable {P : ε → Prop}

theorem Errors.pure (a : α) : Errors P (pure a : EStateM ε σ α) := by
  intro s e s' h
  cases h

theorem Errors.get : Errors P (get : EStateM ε σ σ) := by
  intro s e s' h
  cases h

theorem Errors.throw {e : ε} (h : P e) : Errors P (throw e : EStateM ε σ α) := by
  intro s e' s' he
  cases he
  exact h

theorem Errors.bind (hx : Errors P x) (hf : ∀ a, Errors P (f a)) : Errors P (x >>= f) := by
  intro s e s' h
  have h : EStateM.bind x f s = .error e s' := h
  unfold EStateM.bind at h
  cases hs : x s with
  | ok a s₁ =>
    rw [hs] at h
    exact hf a s₁ e s' h
  | error _ s₁ =>
    rw [hs] at h
    cases h
    exact hx s e s' hs

theorem Errors.ite [Decidable c] (hx : Errors P x)
    (hy : Errors P y) : Errors P (if c then x else y) := by
  split
  · exact hx
  · exact hy

end Stateful
