import Mathlib.Data.List.Basic

/-!
# Computations that publish

A computation that publishes values of a type `E` one after another and then
returns or fails. What it has published stays published when it fails, and it
may be cut off after any of its publications: what is claimed of such a
computation is claimed after every prefix of them.

A state is kept beside the computation by `step`, which says what a
publication makes of it. `Spec` is the rule for reasoning: an invariant of
the state holds after every prefix, and a postcondition at the end.
-/

/-- **A computation that publishes**, with its publications and its result. -/
structure Publishing (E ε α : Type) where
  published : List E
  result : Except ε α

namespace Publishing

open List

variable {E ε α β : Type}

/-- Publishes one value. -/
def publish (e : E) : Publishing E ε E where
  published := [e]
  result := .ok e

/-- Takes a result that publishes nothing. -/
def lift (x : Except ε α) : Publishing E ε α where
  published := []
  result := x

/-- What was published last, or what was there before. -/
def last (x : Publishing E ε α) (before : E) : E := x.published.getLast?.getD before

/-- One computation after another. -/
def andThen (x : Publishing E ε α) (f : α → Publishing E ε β) : Publishing E ε β :=
  match x.result with
  | .error e => { published := x.published, result := .error e }
  | .ok a => { published := x.published ++ (f a).published, result := (f a).result }

instance : Monad (Publishing E ε) where
  pure a := { published := [], result := .ok a }
  bind := andThen

variable {x : Publishing E ε α}

theorem bind_ok {a : α} (h : x.result = .ok a) (f : α → Publishing E ε β) :
    x >>= f = { published := x.published ++ (f a).published, result := (f a).result } := by
  show x.andThen f = _
  rw [andThen, h]

theorem bind_error {e : ε} (h : x.result = .error e) (f : α → Publishing E ε β) :
    x >>= f = { published := x.published, result := .error e } := by
  show x.andThen f = _
  rw [andThen, h]

theorem pure_bind (a : α) (f : α → Publishing E ε β) : (pure a >>= f) = f a := rfl

theorem bind_assoc {γ : Type} (x : Publishing E ε α) (f : α → Publishing E ε β)
    (g : β → Publishing E ε γ) : x >>= f >>= g = x >>= fun a => f a >>= g := by
  cases hx : x.result with
  | error e => rw [bind_error hx, bind_error hx, bind_error rfl]
  | ok a =>
    rw [bind_ok hx, bind_ok hx]
    cases hf : (f a).result with
    | error e => rw [bind_error hf, bind_error rfl]
    | ok b => rw [bind_ok hf, bind_ok rfl, append_assoc]

/-- What comes first is published first. -/
theorem leading_bind (x : Publishing E ε α) (f : α → Publishing E ε β) :
    x.published <+: (x >>= f).published := by
  cases hx : x.result with
  | error e => simp [bind_error hx]
  | ok a =>
    rw [bind_ok hx]
    exact prefix_append ..

variable {f : α → Publishing E ε β}

theorem isOk_of_bind (h : (x >>= f).result.isOk = true) :
    x.result.isOk = true := by
  cases hx : x.result with
  | error e =>
    rw [bind_error hx] at h
    cases h
  | ok a => rfl

/-- **An invariant of every prefix, a relation at every publication, and a
postcondition of the end.** -/
structure Spec {S : Type} (step : S → E → S) (I : S → Prop) (R : S → E → Prop)
    (x : Publishing E ε α) (s : S) (post : α → S → Prop) : Prop where
  prefixes : ∀ es, es <+: x.published → I (es.foldl step s)
  moves : ∀ es e, es ++ [e] <+: x.published → R (es.foldl step s) e
  result : ∀ a, x.result = .ok a → post a (x.published.foldl step s)

section

variable {S : Type} {step : S → E → S} {I : S → Prop} {R : S → E → Prop} {s : S}

theorem Spec.lift {x : Except ε α} {post : α → S → Prop} (hI : I s)
    (h : ∀ a, x = .ok a → post a s) : Spec step I R (Publishing.lift x) s post where
  prefixes := fun es hes => by
    rw [prefix_nil.mp hes]
    exact hI
  moves := fun es e hes => absurd (prefix_nil.mp hes) (append_ne_nil_of_right_ne_nil _ (by simp))
  result := h

theorem Spec.pure {a : α} {post : α → S → Prop} (hI : I s) (h : post a s) :
    Spec step I R (Pure.pure a : Publishing E ε α) s post :=
  Spec.lift hI fun _ ha => Except.ok.inj ha ▸ h

theorem Spec.publish {e : E} {post : E → S → Prop} (hI : I s) (hR : R s e) (hI' : I (step s e))
    (h : post e (step s e)) : Spec step I R (Publishing.publish e : Publishing E ε E) s post where
  prefixes := fun es hes => by
    rcases prefix_cons_iff.mp hes with rfl | ⟨t, rfl, ht⟩
    · exact hI
    · rw [prefix_nil.mp ht]
      exact hI'
  moves := fun es e' hes => by
    cases es with
    | nil =>
      have heq := (cons_prefix_cons.mp hes).1
      rw [heq]
      exact hR
    | cons a t =>
      have ht := (cons_prefix_cons.mp hes).2
      exact absurd (prefix_nil.mp ht) (append_ne_nil_of_right_ne_nil _ (by simp))
  result := fun _ ha => Except.ok.inj ha ▸ h

/-- The rule for sequences. A prefix of the whole ends within the first part,
or takes all of it and ends within the second. -/
theorem Spec.bind {M : α → S → Prop} {post : β → S → Prop} (hx : Spec step I R x s M)
    (hf : ∀ a s', M a s' → Spec step I R (f a) s' post) :
    Spec step I R (x >>= f) s post := by
  show Spec step I R (x.andThen f) s post
  unfold andThen
  cases hr : x.result with
  | error e => exact ⟨hx.prefixes, hx.moves, fun a ha => by cases ha⟩
  | ok a =>
    have hspec := hf a _ (hx.result a hr)
    have hsplit : ∀ es, es <+: x.published ++ (f a).published →
        es <+: x.published ∨ ∃ t, es = x.published ++ t ∧ t <+: (f a).published := by
      intro es hes
      rcases prefix_or_prefix_of_prefix hes (prefix_append x.published _) with h | ⟨t, rfl⟩
      · exact .inl h
      · exact .inr ⟨t, rfl, (prefix_append_right_inj _).mp hes⟩
    refine ⟨fun es hes => ?_, fun es e hes => ?_, fun b hb => ?_⟩
    · rcases hsplit es hes with h | ⟨t, rfl, ht⟩
      · exact hx.prefixes es h
      · rw [foldl_append]
        exact hspec.prefixes t ht
    · rcases hsplit _ hes with h | ⟨t, heq, ht⟩
      · exact hx.moves es e h
      · rcases eq_nil_or_concat t with rfl | ⟨u, _, rfl⟩
        · rw [append_nil] at heq
          exact hx.moves es e (heq ▸ prefix_rfl)
        · rw [concat_eq_append, ← append_assoc] at heq
          obtain ⟨rfl, he⟩ := append_inj' heq rfl
          cases he
          rw [foldl_append]
          exact hspec.moves u e (concat_eq_append ▸ ht)
    · rw [foldl_append]
      exact hspec.result b hb

/-- A weaker postcondition. -/
theorem Spec.imp {post post' : α → S → Prop} (hx : Spec step I R x s post)
    (h : ∀ a s', post a s' → post' a s') :
    Spec step I R x s post' where
  prefixes := hx.prefixes
  moves := hx.moves
  result := fun a ha => h a _ (hx.result a ha)

end

end Publishing
