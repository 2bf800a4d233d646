import Mathlib.Data.List.Basic
import Mathlib.Tactic.Ring

/-!
# Numbers read as fields of bits

A number is read as a row of fields of one width, the first lowest. `pack` is
the number of a list of fields, and a field of it is found again by a division
and a remainder, whatever lies above the fields that are packed.
-/

namespace Fields

open List

/-- The number whose fields of `w` bits are the values of a list. -/
def pack (w : ℕ) : List ℕ → ℕ
  | [] => 0
  | v :: vs => v + 2 ^ w * pack w vs

variable {w : ℕ}

theorem pack_append (w : ℕ) (us vs : List ℕ) :
    pack w (us ++ vs) = pack w us + 2 ^ (w * us.length) * pack w vs := by
  induction us with
  | nil => simp [pack]
  | cons u us ih =>
    rw [cons_append, pack, ih, pack, length_cons, Nat.mul_succ, pow_add]
    ring

theorem pack_singleton (w v : ℕ) : pack w [v] = v := by
  simp [pack]

theorem pack_lt {vs : List ℕ} (h : ∀ v ∈ vs, v < 2 ^ w) : pack w vs < 2 ^ (w * vs.length) := by
  induction vs with
  | nil => exact one_pos
  | cons v vs ih =>
    have hv := h v (.head _)
    have hvs := ih fun u hu => h u (.tail _ hu)
    rw [pack, length_cons, Nat.mul_succ, add_comm (w * vs.length), pow_add]
    calc v + 2 ^ w * pack w vs < 2 ^ w + 2 ^ w * pack w vs := Nat.add_lt_add_right hv _
      _ = 2 ^ w * (pack w vs + 1) := by ring
      _ ≤ 2 ^ w * 2 ^ (w * vs.length) := Nat.mul_le_mul_left _ hvs

/-- **A field is found again.** -/
theorem field_pack {vs : List ℕ} (h : ∀ v ∈ vs, v < 2 ^ w) {i v : ℕ} (hv : vs[i]? = some v) :
    pack w vs / 2 ^ (w * i) % 2 ^ w = v := by
  induction vs generalizing i with
  | nil => cases hv
  | cons u vs ih =>
    have hu := h u (.head _)
    cases i with
    | zero =>
      cases hv
      rw [mul_zero, pow_zero, Nat.div_one, pack, Nat.add_mul_mod_self_left,
        Nat.mod_eq_of_lt hu]
    | succ i =>
      rw [Nat.mul_succ, add_comm (w * i), pow_add, ← Nat.div_div_eq_div_mul, pack,
        Nat.add_mul_div_left _ _ (Nat.two_pow_pos w), Nat.div_eq_of_lt hu, zero_add]
      exact ih (fun v hv => h v (.tail _ hv)) hv

/-- What lies above a field does not matter to it. -/
theorem field_mod (x : ℕ) {i n : ℕ} (h : i < n) :
    x % 2 ^ (w * n) / 2 ^ (w * i) % 2 ^ w = x / 2 ^ (w * i) % 2 ^ w := by
  obtain ⟨m, rfl⟩ := Nat.exists_eq_add_of_lt h
  refine Nat.eq_of_testBit_eq fun j => ?_
  simp only [Nat.testBit_mod_two_pow, Nat.testBit_div_two_pow]
  by_cases hj : j < w
  · have : w * i + j < w * (i + m + 1) := by
      calc w * i + j < w * i + w := Nat.add_lt_add_left hj _
        _ = w * (i + 1) := (Nat.mul_succ w i).symm
        _ ≤ w * (i + m + 1) := Nat.mul_le_mul_left w (by omega)
    simp [hj, add_comm j, this]
  · simp [hj]

/-- A run of fields is cut out as one wider field is. -/
theorem pack_run {vs : List ℕ} (h : ∀ v ∈ vs, v < 2 ^ w) {first n : ℕ} (hn : first + n ≤ vs.length) :
    pack w vs / 2 ^ (w * first) % 2 ^ (w * n) = pack w ((vs.drop first).take n) := by
  have hsplit : vs = vs.take first ++ ((vs.drop first).take n ++ (vs.drop first).drop n) := by
    rw [take_append_drop, take_append_drop]
  have hfirst : (vs.take first).length = first := by
    rw [length_take]
    omega
  have hrun : ((vs.drop first).take n).length = n := by
    rw [length_take, length_drop]
    omega
  have hlow : pack w (vs.take first) < 2 ^ (w * (vs.take first).length) :=
    pack_lt fun v hv => h v (mem_of_mem_take hv)
  have hmid : pack w ((vs.drop first).take n) < 2 ^ (w * ((vs.drop first).take n).length) :=
    pack_lt fun v hv => h v (mem_of_mem_drop (mem_of_mem_take hv))
  rw [hfirst] at hlow
  rw [hrun] at hmid
  conv_lhs => rw [hsplit, pack_append, pack_append, hfirst, hrun]
  rw [Nat.add_mul_div_left _ _ (Nat.two_pow_pos _), Nat.div_eq_of_lt hlow, zero_add,
    Nat.add_mul_mod_self_left, Nat.mod_eq_of_lt hmid]

/-- A number below a power of two, and another shifted past it. -/
theorem or_shiftLeft {a b k : ℕ} (h : a < 2 ^ k) : a ||| (b <<< k) = a + 2 ^ k * b := by
  rw [Nat.or_comm, ← Nat.shiftLeft_add_eq_or_of_lt h, Nat.shiftLeft_eq]
  ring

end Fields
