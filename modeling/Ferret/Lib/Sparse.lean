import Mathlib.Data.List.Basic

/-!
# Files written at offsets

A file is a list, and a write at an offset replaces what is there; past the
end it leaves a gap, filled with a fixed value. `Holds f o b` says that the
file has `b` at an offset. Writes elsewhere keep it, and parts side by side
make one: so a file that is written out of order, part by part, is known once
its parts are.
-/

namespace Sparse

open List

variable {α : Type} (z : α)

/-- The file after a write at an offset. -/
def write (f : List α) (o : ℕ) (b : List α) : List α :=
  f.take o ++ (List.replicate (o - f.length) z ++ (b ++ f.drop (o + b.length)))

variable {z} {f : List α} {o : ℕ} {b : List α}

theorem length_write : (write z f o b).length = max f.length (o + b.length) := by
  simp only [write, length_append, length_take, length_replicate, length_drop]
  omega

theorem getElem?_write_lt {i : ℕ} (hi : i < o) (hf : i < f.length) :
    (write z f o b)[i]? = f[i]? := by
  rw [write, getElem?_append_left (by rw [length_take]; omega), getElem?_take_of_lt hi]

/-- From the offset on stand the bytes written, and what was behind them. -/
theorem getElem?_write {i : ℕ} : (write z f o b)[o + i]? = (b ++ f.drop (o + b.length))[i]? := by
  have hlen : (f.take o ++ List.replicate (o - f.length) z).length = o := by
    rw [length_append, length_take, length_replicate]
    omega
  rw [write, ← append_assoc, getElem?_append_right (by omega), hlen, Nat.add_sub_cancel_left]

theorem getElem?_write_mid {i : ℕ} (hi : i < b.length) : (write z f o b)[o + i]? = b[i]? := by
  rw [getElem?_write, getElem?_append_left hi]

theorem getElem?_write_ge {i : ℕ} (hi : o + b.length ≤ i) : (write z f o b)[i]? = f[i]? := by
  obtain ⟨k, rfl⟩ := Nat.exists_eq_add_of_le (Nat.le_of_add_right_le hi)
  rw [getElem?_write, getElem?_append_right (by omega), getElem?_drop]
  congr 1
  omega

/-- The file has `b` at an offset. -/
def Holds (f : List α) (o : ℕ) (b : List α) : Prop := ∀ i < b.length, f[o + i]? = b[i]?

theorem holds_nil : Holds f o [] := fun i hi => absurd hi (Nat.not_lt_zero i)

theorem holds_write : Holds (write z f o b) o b := fun _ hi => getElem?_write_mid hi

/-- A write elsewhere keeps what a file has. -/
theorem Holds.write {c : List α} {o' : ℕ} (h : Holds f o' c)
    (hapart : o' + c.length ≤ o ∨ o + b.length ≤ o') : Holds (Sparse.write z f o b) o' c := by
  intro i hi
  rcases hapart with hle | hle
  · have hin : o' + i < f.length := by
      by_contra hge
      have hnone := h i hi
      rw [getElem?_eq_none (by omega), getElem?_eq_getElem hi] at hnone
      cases hnone
    rw [getElem?_write_lt (by omega) hin]
    exact h i hi
  · rw [getElem?_write_ge (by omega)]
    exact h i hi

/-- Parts side by side make one. -/
theorem Holds.append {c : List α} (h : Holds f o b) (h' : Holds f (o + b.length) c) :
    Holds f o (b ++ c) := by
  intro i hi
  rcases Nat.lt_or_ge i b.length with hlt | hge
  · rw [getElem?_append_left hlt]
    exact h i hlt
  · rw [getElem?_append_right hge, ← h' (i - b.length) (by rw [length_append] at hi; omega)]
    congr 1
    omega

/-- A stretch of what a file has. -/
theorem Holds.stretch (h : Holds f o b) (k n : ℕ) : Holds f (o + k) ((b.drop k).take n) := by
  intro i hi
  rw [length_take, length_drop] at hi
  rw [getElem?_take_of_lt (by omega), getElem?_drop, ← h (k + i) (by omega)]
  congr 1
  omega

theorem Holds.length_le (h : Holds f o b) (hb : b ≠ []) : o + b.length ≤ f.length := by
  have hpos := length_pos_iff.mpr hb
  by_contra hlt
  have hnone := h (b.length - 1) (by omega)
  rw [getElem?_eq_none (by omega), getElem?_eq_getElem (by omega)] at hnone
  cases hnone

theorem Holds.slice (h : Holds f o b) : (f.drop o).take b.length = b := by
  refine ext_getElem? fun i => ?_
  rcases Nat.lt_or_ge i b.length with hlt | hge
  · rw [getElem?_take_of_lt hlt, getElem?_drop]
    exact h i hlt
  · rw [getElem?_eq_none (by rw [length_take]; omega), getElem?_eq_none hge]

/-- A file no longer than what it has from its start is that. -/
theorem Holds.eq (h : Holds f 0 b) (hle : f.length ≤ b.length) : f = b := by
  have := h.slice
  rwa [drop_zero, take_of_length_le hle] at this

end Sparse
