import Ferret.Lib.Scatter

/-!
# Sorting by digits

One pass counts the items of each digit and scatters them to where the digit's
items stand, in the order they came in. Whatever holds between an item and the
ones after it still holds between items of one digit, so that a pass by a high
digit after a pass by a low one sorts by both.
-/

namespace Radix

open Scatter List

variable {α : Type*} {digit : α → ℕ} {n : ℕ} {items : List α}

/-- Scatters items by a digit below `n` into an array as long, at offsets
counted from `counted`. -/
def pass (digit : α → ℕ) (n : ℕ) (counted into items : List α) : List α :=
  scatter into (starts 0 (tally n (counted.map digit))) (items.map fun a => (digit a, a))

theorem tally_perm (n : ℕ) {ks js : List ℕ} (h : ks.Perm js) : tally n ks = tally n js := by
  rw [tally_eq, tally_eq]
  exact map_congr_left fun k _ => h.count_eq k

theorem having_digit (digit : α → ℕ) (k : ℕ) (items : List α) :
    having k (items.map fun a => (digit a, a)) = items.filter fun a => digit a = k := by
  induction items with
  | nil => rfl
  | cons a items ih =>
    rw [map_cons, having_cons, ih]
    by_cases h : digit a = k
    · rw [if_pos h, filter_cons_of_pos (by simpa using h)]
    · rw [if_neg h, filter_cons_of_neg (by simpa using h)]

/-- **A pass groups items by their digit**, the offsets counted from the items
in any order. -/
theorem pass_eq {counted into : List α} (hdigit : ∀ a ∈ items, digit a < n)
    (hcounted : counted.Perm items) (hinto : into.length = items.length) :
    pass digit n counted into items
      = ((List.range n).map fun k => items.filter fun a => digit a = k).flatten := by
  have hkeys : ∀ item ∈ items.map fun a => (digit a, a), item.1 < n := by
    intro item hitem
    obtain ⟨a, ha, rfl⟩ := mem_map.mp hitem
    exact hdigit a ha
  have hfirsts : (items.map fun a => (digit a, a)).map Prod.fst = items.map digit := by
    rw [map_map]
    rfl
  have h := scatter_eq into hkeys (by rw [length_map, hinto])
  rw [hfirsts] at h
  rw [pass, tally_perm n (hcounted.map digit), h]
  simp only [having_digit]

/-- Items grouped by a digit. -/
theorem grouped_perm (hdigit : ∀ a ∈ items, digit a < n) :
    ((List.range n).map fun k => items.filter fun a => digit a = k).flatten.Perm items := by
  induction n generalizing items with
  | zero =>
    cases items with
    | nil => exact List.Perm.refl _
    | cons a items => exact absurd (hdigit a (.head _)) (not_lt_zero)
  | succ n ih =>
    rw [range_succ, map_append, flatten_append, map_singleton, flatten_singleton]
    -- the greatest digit stands last
    set low := items.filter fun a => decide (digit a < n) with hlow
    have hrest : ((List.range n).map fun k => low.filter fun a => digit a = k).flatten.Perm low :=
      ih fun a ha => of_decide_eq_true (mem_filter.mp ha).2
    have hsame : (List.range n).map (fun k => low.filter fun a => digit a = k)
        = (List.range n).map fun k => items.filter fun a => digit a = k := by
      refine map_congr_left fun k hk => ?_
      have hkn := mem_range.mp hk
      rw [hlow, filter_filter]
      refine filter_congr fun a _ => ?_
      by_cases h : digit a = k
      · simp [h, hkn]
      · simp [h]
    rw [hsame] at hrest
    have htop : (items.filter fun a => decide (digit a = n))
        = items.filter fun a => !decide (digit a < n) := by
      refine filter_congr fun a ha => ?_
      have := hdigit a ha
      by_cases h : digit a = n
      · simp [h]
      · have hlt : digit a < n := by omega
        simp [h, hlt]
    rw [htop]
    exact (hrest.append_right _).trans (filter_append_perm _ items)

/-- **What a pass keeps**: between items of one digit, whatever held between
them before. -/
theorem grouped_pairwise {R : α → α → Prop} (h : items.Pairwise R) :
    ((List.range n).map fun k => items.filter fun a => digit a = k).flatten.Pairwise
      fun a b => digit a < digit b ∨ digit a = digit b ∧ R a b := by
  refine pairwise_flatten.mpr ⟨fun group hgroup => ?_, pairwise_map.mpr ?_⟩
  · obtain ⟨k, -, rfl⟩ := mem_map.mp hgroup
    refine (h.filter _).imp_of_mem fun {a b} ha hb hab => .inr ⟨?_, hab⟩
    rw [of_decide_eq_true (mem_filter.mp ha).2, of_decide_eq_true (mem_filter.mp hb).2]
  · refine pairwise_lt_range.imp fun {j k} hjk a ha b hb => .inl ?_
    rw [of_decide_eq_true (mem_filter.mp ha).2, of_decide_eq_true (mem_filter.mp hb).2]
    exact hjk

end Radix
