import Mathlib.Data.List.Forall2

/-!
# Computations that may fail, and must not panic

A computation over untrusted input ends in one of three ways: with a value,
with an error it reports, or by a panic, which stands for an index out of
range, an arithmetic overflow and a loop that does not end alike. `wp x P`
says that `x` does not panic, and that `P` holds of its value if it has one;
the lemmas here compute it, one construct at a time.
-/

/-- How a computation ends without a value. -/
inductive Stop (ε : Type) where
  | error (e : ε)
  | panic
deriving DecidableEq

abbrev Guarded (ε α : Type) := Except (Stop ε) α

namespace Guarded

variable {ε δ α β : Type}

/-- Reports `e` unless `c` holds. -/
def ensure (c : Prop) [Decidable c] (e : ε) : Guarded ε Unit :=
  if c then .ok () else .error (.error e)

/-- Panics unless `c` holds. -/
def claim (c : Prop) [Decidable c] : Guarded ε Unit :=
  if c then .ok () else .error .panic

/-- The same computation, with its errors put another way. -/
def map_err (f : ε → δ) : Guarded ε α → Guarded δ α
  | .ok a => .ok a
  | .error (.error e) => .error (.error (f e))
  | .error .panic => .error .panic

/-- **The computation does not panic, and its value satisfies `P`.** -/
def wp (x : Guarded ε α) (P : α → Prop) : Prop :=
  match x with
  | .ok a => P a
  | .error (.error _) => True
  | .error .panic => False

variable {x : Guarded ε α} {P Q : α → Prop}

variable {a : α} {e : ε} {f : α → Guarded ε β} {c : Prop} {l : List α} {u : Unit} {b : β}
  {bs : List β}

@[simp]
theorem wp_ok : wp (.ok a : Guarded ε α) P ↔ P a := .rfl

@[simp]
theorem wp_pure : wp (pure a : Guarded ε α) P ↔ P a := .rfl

@[simp]
theorem wp_error : wp (.error (.error e) : Guarded ε α) P ↔ True := .rfl

variable {R : β → Prop}

@[simp]
theorem wp_bind : wp (x >>= f) R ↔ wp x fun a => wp (f a) R := by
  match x with
  | .ok _ | .error (.error _) | .error .panic => exact .rfl

@[simp]
theorem wp_map {f : α → β} : wp (f <$> x) R ↔ wp x fun a => R (f a) := by
  match x with
  | .ok _ | .error (.error _) | .error .panic => exact .rfl

@[simp]
theorem wp_ensure [Decidable c] {P : Unit → Prop} : wp (ensure c e) P ↔ (c → P ()) := by
  unfold ensure
  split <;> simp_all

@[simp]
theorem wp_claim [Decidable c] {P : Unit → Prop} : wp (claim c : Guarded ε Unit) P ↔ c ∧ P () := by
  unfold claim
  split <;> simp_all [wp]

@[simp]
theorem wp_map_err {f : ε → δ} : wp (map_err f x) P ↔ wp x P := by
  match x with
  | .ok _ | .error (.error _) | .error .panic => exact .rfl

theorem wp_ite [Decidable c] {y : Guarded ε α} :
    wp (if c then x else y) P ↔ (c → wp x P) ∧ (¬c → wp y P) := by
  split <;> simp_all

theorem wp_mono (h : wp x P) (hPQ : ∀ a, P a → Q a) : wp x Q := by
  match x, h with
  | .ok a, h => exact hPQ a h
  | .error (.error _), _ => trivial

/-- What is known of the value of a computation that has one. -/
theorem wp_of_ok (h : wp x P) (hx : x = .ok a) : P a := by
  subst hx
  exact h

/-- A computation on every element of a list. -/
theorem wp_mapM {R : α → β → Prop}
    (h : ∀ a ∈ l, wp (f a) (R a)) : wp (l.mapM f) (List.Forall₂ R l) := by
  induction l with
  | nil => exact .nil
  | cons a l ih =>
    rw [List.mapM_cons]
    simp only [wp_bind, wp_pure]
    refine wp_mono (h a (.head _)) fun b hb => ?_
    refine wp_mono (ih fun a' ha' => h a' (.tail _ ha')) fun bs hbs => ?_
    exact .cons hb hbs

/-! ## The errors of a computation -/

/-- The computation does not panic, `E` holds of its error if it ends in one,
and `P` of its value if it has one. -/
def ends (E : ε → Prop) (x : Guarded ε α) (P : α → Prop) : Prop :=
  match x with
  | .ok a => P a
  | .error (.error e) => E e
  | .error .panic => False

section

variable {E : ε → Prop}

@[simp]
theorem ends_ok {a : α} : ends E (.ok a : Guarded ε α) P ↔ P a := .rfl

@[simp]
theorem ends_bind {f : α → Guarded ε β} :
    ends E (x >>= f) R ↔ ends E x fun a => ends E (f a) R := by
  match x with
  | .ok _ | .error (.error _) | .error .panic => exact .rfl

@[simp]
theorem ends_ensure {c : Prop} [Decidable c] {e : ε} {P : Unit → Prop} :
    ends E (ensure c e) P ↔ (c → P ()) ∧ (¬c → E e) := by
  unfold ensure
  split <;> simp_all [ends]

@[simp]
theorem ends_claim {c : Prop} [Decidable c] {P : Unit → Prop} :
    ends E (claim c : Guarded ε Unit) P ↔ c ∧ P () := by
  unfold claim
  split <;> simp_all [ends]

/-- More errors may be met, and less be known of the value. -/
theorem ends_imp {E' : ε → Prop} (hE : ∀ e, E e → E' e) (h : ends E x P)
    (hPQ : ∀ a, P a → Q a) : ends E' x Q := by
  match x, h with
  | .ok a, h => exact hPQ a h
  | .error (.error e), h => exact hE e h

theorem ends_mono (h : ends E x P) (hPQ : ∀ a, P a → Q a) : ends E x Q :=
  ends_imp (fun _ he => he) h hPQ

end

/-! ## Computations with a value -/

@[simp]
theorem ensure_eq_ok [Decidable c] : ensure c e = .ok u ↔ c := by
  unfold ensure
  split <;> simp_all

@[simp]
theorem claim_eq_ok [Decidable c] : (claim c : Guarded ε Unit) = .ok u ↔ c := by
  unfold claim
  split <;> simp_all

/-- A sequence has a value when its parts have. -/
@[simp]
theorem bind_eq_ok : (x >>= f) = .ok b ↔ ∃ a, x = .ok a ∧ f a = .ok b := by
  match x with
  | .ok a => exact ⟨fun h => ⟨a, rfl, h⟩, fun ⟨a', h, h'⟩ => by cases h; exact h'⟩
  | .error _ => exact ⟨nofun, nofun⟩

@[simp]
theorem map_eq_ok {f : α → β} : f <$> x = .ok b ↔ ∃ a, x = .ok a ∧ f a = b := by
  match x with
  | .ok a =>
    refine ⟨fun h => ⟨a, rfl, ?_⟩, fun ⟨a', h, h'⟩ => ?_⟩
    · cases h
      rfl
    · cases h
      rw [← h']
      rfl
  | .error _ => exact ⟨nofun, nofun⟩

@[simp]
theorem pure_eq_ok {b : α} : (pure a : Guarded ε α) = .ok b ↔ a = b :=
  ⟨fun h => by cases h; rfl, fun h => by rw [h]; rfl⟩

@[simp]
theorem map_err_eq_ok {f : ε → δ} : map_err f x = .ok a ↔ x = .ok a := by
  match x with
  | .ok _ => exact ⟨fun h => by cases h; rfl, fun h => by cases h; rfl⟩
  | .error (.error _) | .error .panic => exact ⟨nofun, nofun⟩

/-- The values for the elements of a list, one by one. -/
theorem mapM_eq_ok : l.mapM f = .ok bs ↔ List.Forall₂ (fun a b => f a = .ok b) l bs := by
  induction l generalizing bs with
  | nil => cases bs <;> simp
  | cons a l ih =>
    rw [List.mapM_cons]
    simp only [bind_eq_ok, pure_eq_ok, ih]
    constructor
    · rintro ⟨b, hb, bs, hbs, rfl⟩
      exact .cons hb hbs
    · rintro (_ | ⟨hb, hbs⟩)
      exact ⟨_, hb, _, hbs, rfl⟩

theorem mapM_congr {g : α → Guarded ε β} (h : ∀ a ∈ l, f a = g a) : l.mapM f = l.mapM g := by
  induction l with
  | nil => rfl
  | cons a l ih =>
    rw [List.mapM_cons, List.mapM_cons, h a (List.mem_cons_self ..),
      ih fun a' ha' => h a' (.tail _ ha')]

theorem mapM_snoc_eq_ok
    (h : l.mapM f = .ok bs) (ha : f a = .ok b) : (l ++ [a]).mapM f = .ok (bs ++ [b]) := by
  rw [mapM_eq_ok] at h ⊢
  exact List.rel_append h (.cons ha .nil)

end Guarded
