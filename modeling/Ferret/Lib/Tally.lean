import Mathlib.Algebra.Order.BigOperators.Group.Finset
import Mathlib.Tactic.Abel

/-!
# Sums over threads

A quantity of a system is often the sum of what each of its threads adds to
it. When one thread moves, the sum changes by what that thread's share does.
-/

namespace Tally

variable {ι α M : Type} [DecidableEq ι] [AddCommMonoid M]

/-- A sum when one of its members changes. -/
theorem sum_update {S : Finset ι} (f : α → M) (g : ι → α) {i : ι} (hi : i ∈ S) (a : α) :
    ∑ j ∈ S, f (Function.update g i a j) + f (g i) = ∑ j ∈ S, f (g j) + f a := by
  rw [← Finset.add_sum_erase S _ hi, ← Finset.add_sum_erase S (fun j => f (g j)) hi]
  have hrest : ∑ j ∈ S.erase i, f (Function.update g i a j) = ∑ j ∈ S.erase i, f (g j) := by
    refine Finset.sum_congr rfl fun j hj => ?_
    rw [Function.update_of_ne (Finset.ne_of_mem_erase hj)]
  rw [hrest, Function.update_self]
  abel

/-- What is at a thread after one has moved. -/
theorem update_eq {g : ι → α} {i j : ι} {a b : α} (h : Function.update g i a j = b) :
    j = i ∧ a = b ∨ g j = b := by
  by_cases hji : j = i
  · exact .inl ⟨hji, by rwa [hji, Function.update_self] at h⟩
  · exact .inr (by rwa [Function.update_of_ne hji] at h)

omit [DecidableEq ι] in
theorem le_sum {S : Finset ι} (f : α → ℕ) (g : ι → α) {i : ι} (hi : i ∈ S) :
    f (g i) ≤ ∑ j ∈ S, f (g j) :=
  Finset.single_le_sum (fun j _ => Nat.zero_le (f (g j))) hi

end Tally
