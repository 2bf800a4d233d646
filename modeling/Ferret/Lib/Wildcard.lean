import Mathlib.Algebra.Order.Ring.Nat
import Mathlib.Data.List.Forall2
import Mathlib.Data.List.Induction

/-!
# Patterns with stars

A pattern is a list of tokens. A star spans any run of a text, any other token
one element that it accepts; `Spans` says that the tokens, one after the other,
span a whole text.

A table decides it row by row (`reaches`): the row of some tokens has, for each
position of the text, whether they span what is before it. `reaches_iff` is what
the table is for.
-/

namespace Ferret.Lib

open List

/-- The tokens of a kind of pattern: which are stars, and what the others accept. -/
structure Wildcard (τ α : Type*) where
  star : τ → Bool
  accepts : τ → α → Bool

namespace Wildcard

variable {τ α : Type*} (W : Wildcard τ α)

/-- **Tokens that span a text.** -/
inductive Spans : List τ → List α → Prop
  | nil : Spans [] []
  | one {t : τ} {ts : List τ} {a : α} {as : List α} (hstar : W.star t = false)
      (haccepts : W.accepts t a = true) (hrest : Spans ts as) : Spans (t :: ts) (a :: as)
  | star {t : τ} {ts : List τ} {as : List α} (hstar : W.star t = true) (run : List α)
      (hrest : Spans ts as) : Spans (t :: ts) (run ++ as)

variable {W} {t : τ} {ts us : List τ} {as text : List α}

/-! ## The first token and the last -/

theorem spans_nil_iff : W.Spans [] as ↔ as = [] := by
  constructor
  · rintro ⟨⟩
    rfl
  · rintro rfl
    exact .nil

theorem spans_one_iff (hstar : W.star t = false) :
    W.Spans (t :: ts) as ↔ ∃ a rest, as = a :: rest ∧ W.accepts t a = true ∧ W.Spans ts rest := by
  constructor
  · intro h
    cases h with
    | one _ haccepts hrest => exact ⟨_, _, rfl, haccepts, hrest⟩
    | star htrue => exact absurd htrue (by simp [hstar])
  · rintro ⟨a, rest, rfl, haccepts, hrest⟩
    exact .one hstar haccepts hrest

theorem spans_star_iff (hstar : W.star t = true) :
    W.Spans (t :: ts) as ↔ ∃ run rest, as = run ++ rest ∧ W.Spans ts rest := by
  constructor
  · intro h
    cases h with
    | one hfalse => exact absurd hstar (by simp [hfalse])
    | star _ run hrest => exact ⟨run, _, rfl, hrest⟩
  · rintro ⟨run, rest, rfl, hrest⟩
    exact .star hstar run hrest

/-- **Tokens one after the other span texts one after the other.** -/
theorem spans_append_iff :
    W.Spans (ts ++ us) as ↔ ∃ left right, as = left ++ right ∧ W.Spans ts left ∧ W.Spans us right := by
  constructor
  · intro h
    induction ts generalizing as with
    | nil => exact ⟨[], as, rfl, .nil, h⟩
    | cons t ts ih =>
      cases h with
      | one hstar haccepts hrest =>
        obtain ⟨left, right, rfl, hleft, hright⟩ := ih hrest
        exact ⟨_ :: left, right, rfl, .one hstar haccepts hleft, hright⟩
      | star hstar run hrest =>
        obtain ⟨left, right, rfl, hleft, hright⟩ := ih hrest
        exact ⟨run ++ left, right, (append_assoc _ _ _).symm, .star hstar run hleft, hright⟩
  · rintro ⟨left, right, rfl, hleft, hright⟩
    induction hleft with
    | nil => exact hright
    | one hstar haccepts _ ih => exact .one hstar haccepts ih
    | star hstar run _ ih =>
      rw [append_assoc]
      exact .star hstar run ih

/-- A star at the end spans what the tokens before it left. -/
theorem spans_concat_star (hstar : W.star t = true) :
    W.Spans (ts ++ [t]) as ↔ ∃ k ≤ as.length, W.Spans ts (as.take k) := by
  rw [spans_append_iff]
  constructor
  · rintro ⟨left, _, rfl, hleft, -⟩
    exact ⟨left.length, by simp, by rwa [take_left]⟩
  · rintro ⟨k, -, hleft⟩
    refine ⟨as.take k, as.drop k, (take_append_drop k as).symm, hleft, ?_⟩
    exact (spans_star_iff hstar).mpr ⟨as.drop k, [], (append_nil _).symm, .nil⟩

theorem spans_concat_one (hstar : W.star t = false) :
    W.Spans (ts ++ [t]) as ↔
      ∃ left a, as = left ++ [a] ∧ W.Spans ts left ∧ W.accepts t a = true := by
  rw [spans_append_iff]
  constructor
  · rintro ⟨left, _, rfl, hleft, hright⟩
    obtain ⟨a, _, rfl, haccepts, hrest⟩ := (spans_one_iff hstar).mp hright
    rw [spans_nil_iff] at hrest
    exact ⟨left, a, by rw [hrest], hleft, haccepts⟩
  · rintro ⟨left, a, rfl, hleft, haccepts⟩
    exact ⟨left, [a], rfl, hleft, .one hstar haccepts .nil⟩

/-- Without a star, each token has its element. -/
theorem spans_iff_forall (hstar : ∀ t ∈ ts, W.star t = false) :
    W.Spans ts as ↔ List.Forall₂ (fun t a => W.accepts t a = true) ts as := by
  induction ts generalizing as with
  | nil => rw [spans_nil_iff, forall₂_nil_left_iff]
  | cons t ts ih =>
    rw [spans_one_iff (hstar t mem_cons_self), forall₂_cons_left_iff]
    constructor
    · rintro ⟨a, rest, rfl, haccepts, hrest⟩
      exact ⟨a, rest, haccepts, (ih fun t ht => hstar t (.tail _ ht)).mp hrest, rfl⟩
    · rintro ⟨a, rest, haccepts, hrest, rfl⟩
      exact ⟨a, rest, rfl, haccepts, (ih fun t ht => hstar t (.tail _ ht)).mpr hrest⟩

/-! ## The table -/

variable (W) (text)

/-- The row after one more token: a star keeps every position from the first
one on, another token moves each one over an element it accepts. -/
def next (t : τ) (row : ℕ → Bool) : ℕ → Bool
  | 0 => W.star t && row 0
  | n + 1 =>
    if W.star t then row (n + 1) || next t row n
    else row n && text[n]?.any (W.accepts t)

/-- The row of some tokens: the positions they reach. -/
def reaches (ts : List τ) : ℕ → Bool := ts.foldl (fun row t => W.next text t row) (· == 0)

variable {W} {text}

/-- A star keeps what is reached. -/
theorem next_star {row : ℕ → Bool} (hstar : W.star t = true) (n : ℕ) :
    W.next text t row n = true ↔ ∃ k ≤ n, row k = true := by
  induction n with
  | zero => simp [next, hstar]
  | succ n ih =>
    rw [next, if_pos hstar, Bool.or_eq_true, ih]
    constructor
    · rintro (h | ⟨k, hk, h⟩)
      · exact ⟨n + 1, le_rfl, h⟩
      · exact ⟨k, Nat.le_succ_of_le hk, h⟩
    · rintro ⟨k, hk, h⟩
      rcases Nat.lt_or_eq_of_le hk with hlt | rfl
      · exact .inr ⟨k, Nat.le_of_lt_succ hlt, h⟩
      · exact .inl h

/-- **The row of some tokens** has the positions up to which they span the text. -/
theorem reaches_iff (ts : List τ) {n : ℕ} (hn : n ≤ text.length) :
    W.reaches text ts n = true ↔ W.Spans ts (text.take n) := by
  induction ts using List.reverseRecOn generalizing n with
  | nil =>
    show (n == 0) = true ↔ _
    rw [spans_nil_iff, beq_iff_eq, take_eq_nil_iff]
    constructor
    · exact .inl
    · rintro (h | rfl)
      · exact h
      · exact Nat.le_zero.mp hn
  | append_singleton ts t ih =>
    have hrow : W.reaches text (ts ++ [t]) = W.next text t (W.reaches text ts) := by
      rw [reaches, foldl_append]
      rfl
    rw [hrow]
    cases hstar : W.star t with
    | true =>
      rw [next_star hstar, spans_concat_star hstar, length_take_of_le hn]
      refine exists_congr fun k => and_congr_right fun hk => ?_
      rw [ih (hk.trans hn), take_take, min_eq_left hk]
    | false =>
      rw [spans_concat_one hstar]
      cases n with
      | zero => simp [next, hstar]
      | succ n =>
        have hlt : n < text.length := hn
        rw [next, hstar, getElem?_eq_getElem hlt]
        simp only [Bool.false_eq_true, if_false, Bool.and_eq_true, Option.any_some]
        rw [ih hlt.le, ← take_concat_get hlt, concat_eq_append]
        constructor
        · rintro ⟨hrest, haccepts⟩
          exact ⟨_, _, rfl, hrest, haccepts⟩
        · rintro ⟨_, a, heq, hleft, haccepts⟩
          obtain ⟨rfl, ha⟩ := append_inj' heq rfl
          cases ha
          exact ⟨hleft, haccepts⟩

end Wildcard

end Ferret.Lib
