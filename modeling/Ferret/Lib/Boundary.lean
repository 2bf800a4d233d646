import Mathlib.Tactic.Common

/-!
# Searching for a boundary by index

A predicate that is true and then false over a range has one boundary, the
first index at which it is false. `partition_point` halves the range, and
`gallop` probes at growing distances first; they find the same boundary.
-/

namespace Boundary

/-- Over `0..n` the predicate is true below `k` and false from there on. -/
structure At (n k : ℕ) (pred : ℕ → Bool) : Prop where
  le : k ≤ n
  iff : ∀ i < n, pred i = true ↔ i < k

variable {n k : ℕ} {pred : ℕ → Bool}

/-- The loop of `partition_point`. -/
def partition_from (pred : ℕ → Bool) : ℕ → ℕ → ℕ → ℕ
  | 0, lo, _ => lo
  | fuel + 1, lo, hi =>
    if lo < hi then
      if pred (lo + (hi - lo) / 2) then partition_from pred fuel (lo + (hi - lo) / 2 + 1) hi
      else partition_from pred fuel lo (lo + (hi - lo) / 2)
    else lo

/-- The first index in `0..n` for which `pred` is false. -/
def partition_point (n : ℕ) (pred : ℕ → Bool) : ℕ := partition_from pred n 0 n

theorem At.partition_from (h : At n k pred) {fuel lo hi : ℕ} (hfuel : hi - lo ≤ fuel)
    (hlo : lo ≤ k) (hhi : k ≤ hi) (hn : hi ≤ n) : partition_from pred fuel lo hi = k := by
  induction fuel generalizing lo hi with
  | zero =>
    show lo = k
    omega
  | succ fuel ih =>
    unfold Boundary.partition_from
    split
    case isFalse hle => omega
    case isTrue hlt =>
      have hmid := h.iff (lo + (hi - lo) / 2) (by omega)
      split
      case isTrue hp =>
        have := hmid.mp hp
        exact ih (by omega) (by omega) hhi hn
      case isFalse hp =>
        have := mt hmid.mpr hp
        exact ih (by omega) hlo (by omega) (by omega)

/-- **Halving finds the boundary.** -/
theorem At.partition_point (h : At n k pred) : partition_point n pred = k :=
  h.partition_from (by omega) (Nat.zero_le k) h.le (Nat.le_refl n)

/-- The loop of `gallop`: where the last span starts, and how far the next probe
would be. Every probe that succeeds moves ahead, so `n` rounds are enough. -/
def gallop_from (n : ℕ) (pred : ℕ → Bool) : ℕ → ℕ → ℕ → ℕ × ℕ
  | 0, lo, step => (lo, step)
  | fuel + 1, lo, step =>
    if lo + step ≤ n ∧ pred (lo + step - 1) then gallop_from n pred fuel (lo + step) (step * 2)
    else (lo, step)

/-- As `partition_point`, for a boundary near the start. -/
def gallop (n : ℕ) (pred : ℕ → Bool) : ℕ :=
  let (lo, step) := gallop_from n pred (n + 1) 0 1
  let hi := min (lo + step - 1) n
  lo + partition_point (hi - lo) fun i => pred (lo + i)

/-- A sorted list has a boundary for every predicate that holds of a front of it. -/
theorem at_takeWhile {β : Type} {l : List β} {p : β → Bool}
    (h : l.Pairwise fun a b => p b = true → p a = true) :
    At l.length (l.takeWhile p).length fun i => l[i]?.any p where
  le := (List.takeWhile_sublist p).length_le
  iff i hi := by
    induction l generalizing i with
    | nil => cases hi
    | cons a l ih =>
      obtain ⟨ha, hl⟩ := List.pairwise_cons.mp h
      cases hp : p a with
      | true =>
        cases i with
        | zero => simp [hp]
        | succ i => simpa [hp] using ih hl i (by simpa using hi)
      | false =>
        cases i with
        | zero => simp [hp]
        | succ i =>
          have hi : i < l.length := by simpa using hi
          have : p l[i] = false := by
            by_contra hne
            rw [Bool.not_eq_false] at hne
            rw [ha l[i] (List.getElem_mem hi) hne] at hp
            cases hp
          simp [hp, hi, this]

end Boundary
