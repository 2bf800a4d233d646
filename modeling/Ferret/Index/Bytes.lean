import Mathlib.Data.List.Lex
import Mathlib.Tactic.Ring

/-!
# Bytes

Terms are byte strings, compared byte by byte. Lengths and steps are stored
as LEB128 values, seven bits a byte, low bits first, the high bit saying that
more follow; fixed-width fields are little-endian.

A reader walks its bytes front to back. Its position is modelled by the bytes
from it on, so a value is taken off the front of a list and the rest is
handed back.
-/

namespace Ferret

/-- A byte string. -/
abbrev Bytes := List UInt8

/-- Bytes are ordered as numbers; byte strings then lexicographically. -/
instance instLinearOrderByte : LinearOrder UInt8 where
  le_refl := fun a => UInt8.le_refl a
  le_trans := fun _ _ _ => UInt8.le_trans
  lt_iff_le_not_ge := fun a b => by
    rw [UInt8.lt_iff_toNat_lt, UInt8.le_iff_toNat_le, UInt8.le_iff_toNat_le]
    omega
  le_antisymm := fun _ _ => UInt8.le_antisymm
  le_total := fun a b => UInt8.le_total a b
  toDecidableLE := inferInstance

/-- A condition on every byte of a string is checked byte by byte, not value
by value. -/
instance instDecidableForallByte (bytes : Bytes) (p : UInt8 → Prop) [DecidablePred p] :
    Decidable (∀ byte ∈ bytes, p byte) :=
  List.decidableBAll p bytes

/-- One LEB128 value. -/
def put (value : ℕ) : Bytes :=
  if value < 128 then [UInt8.ofNat value]
  else UInt8.ofNat (value % 128 + 128) :: put (value / 128)

/-- The loop of `take`, from a shift on. Ten bytes hold 64 bits, and of the
tenth only the lowest bit may be set. -/
def takeFrom : ℕ → ℕ → ℕ → Bytes → Option (ℕ × Bytes)
  | 0, _, _, _ => none
  | _ + 1, _, _, [] => none
  | fuel + 1, shift, value, byte :: rest =>
    let low := byte.toNat % 128
    if shift = 63 ∧ 1 < low then none
    else if byte.toNat < 128 then some (value + low * 2 ^ shift, rest)
    else takeFrom fuel (shift + 7) (value + low * 2 ^ shift) rest

/-- Reads one LEB128 value off the front; `none` past the end or beyond 64
bits. One- and two-byte values are read without the loop. -/
def take : Bytes → Option (ℕ × Bytes)
  | [] => none
  | low :: rest =>
    if low.toNat < 128 then some (low.toNat, rest)
    else
      match rest with
      | [] => none
      | high :: rest' =>
        if high.toNat < 128 then some (low.toNat % 128 + high.toNat * 128, rest')
        else takeFrom 10 0 0 (low :: rest)

theorem put_ne_nil (value : ℕ) : put value ≠ [] := by
  unfold put
  split <;> simp

theorem toNat_ofNat_of_lt {n : ℕ} (h : n < 256) : (UInt8.ofNat n).toNat = n := by
  rw [UInt8.toNat_ofNat']
  exact Nat.mod_eq_of_lt h

theorem put_of_lt {value : ℕ} (h : value < 128) : put value = [UInt8.ofNat value] := by
  rw [put, if_pos h]

theorem put_of_ge {value : ℕ} (h : 128 ≤ value) :
    put value = UInt8.ofNat (value % 128 + 128) :: put (value / 128) := by
  rw [put, if_neg (not_lt.mpr h)]

/-- The loop reads back what is left of a value. -/
theorem takeFrom_put (fuel i : ℕ) (hi : fuel + i = 10) (hf : 1 ≤ fuel) (value base : ℕ)
    (hv : value < 2 ^ (64 - 7 * i)) (rest : Bytes) :
    takeFrom fuel (7 * i) base (put value ++ rest) = some (base + value * 2 ^ (7 * i), rest) := by
  induction fuel generalizing i value base with
  | zero => omega
  | succ fuel ih =>
    -- of the tenth byte only the lowest bit is left
    have hlast : 7 * i = 63 → value < 2 := fun h => by
      obtain rfl : i = 9 := by omega
      simpa using hv
    rcases lt_or_ge value 128 with h | h
    · have hbyte : (UInt8.ofNat value).toNat = value := toNat_ofNat_of_lt (by omega)
      rw [put_of_lt h, List.singleton_append, takeFrom]
      simp only [hbyte, Nat.mod_eq_of_lt h, h, if_true]
      rw [if_neg (by omega)]
    · have hbyte : (UInt8.ofNat (value % 128 + 128)).toNat = value % 128 + 128 :=
        toNat_ofNat_of_lt (by omega)
      have hlow : (value % 128 + 128) % 128 = value % 128 := by omega
      have hge : ¬ value % 128 + 128 < 128 := by omega
      have hi9 : i ≤ 8 := by
        by_contra hcon
        have := hlast (by omega)
        omega
      have hpow : 2 ^ (64 - 7 * i) = 2 ^ (64 - 7 * (i + 1)) * 128 := by
        rw [show 64 - 7 * i = 64 - 7 * (i + 1) + 7 by omega, pow_add]
        rfl
      have hrest := ih (i + 1) (by omega) (by omega) (value / 128)
        (base + value % 128 * 2 ^ (7 * i)) (by omega)
      rw [put_of_ge h, List.cons_append, takeFrom]
      simp only [hbyte, hlow, hge, if_false]
      rw [if_neg (by omega), show 7 * i + 7 = 7 * (i + 1) by ring, hrest]
      have hsum : value % 128 * 2 ^ (7 * i) + value / 128 * 2 ^ (7 * (i + 1))
          = value * 2 ^ (7 * i) := by
        calc value % 128 * 2 ^ (7 * i) + value / 128 * 2 ^ (7 * (i + 1))
            = (value % 128 + 128 * (value / 128)) * 2 ^ (7 * i) := by
              rw [show 7 * (i + 1) = 7 * i + 7 by ring, pow_add]
              ring
          _ = value * 2 ^ (7 * i) := by rw [Nat.mod_add_div]
      rw [add_assoc, hsum]

/-- **`take` reads back what `put` wrote**, for 64-bit values. -/
theorem take_put {value : ℕ} (hv : value < 2 ^ 64) (rest : Bytes) :
    take (put value ++ rest) = some (value, rest) := by
  rcases lt_or_ge value 128 with h | h
  · have hbyte : (UInt8.ofNat value).toNat = value := toNat_ofNat_of_lt (by omega)
    rw [put_of_lt h, List.singleton_append]
    simp only [take, hbyte, h, if_true]
  · have hbyte : (UInt8.ofNat (value % 128 + 128)).toNat = value % 128 + 128 :=
      toNat_ofNat_of_lt (by omega)
    have hge : ¬ value % 128 + 128 < 128 := by omega
    have hloop := takeFrom_put 10 0 rfl (by omega) value 0 hv rest
    rw [mul_zero, zero_add, pow_zero, mul_one] at hloop
    rcases lt_or_ge (value / 128) 128 with h2 | h2
    · have hhigh : (UInt8.ofNat (value / 128)).toNat = value / 128 := toNat_ofNat_of_lt (by omega)
      rw [put_of_ge h, put_of_lt h2, List.cons_append, List.singleton_append]
      simp only [take, hbyte, hhigh, hge, h2, if_false, if_true]
      congr 2
      omega
    · have hhigh : (UInt8.ofNat (value / 128 % 128 + 128)).toNat = value / 128 % 128 + 128 :=
        toNat_ofNat_of_lt (by omega)
      have hge2 : ¬ value / 128 % 128 + 128 < 128 := by omega
      rw [← hloop, put_of_ge h, put_of_ge h2, List.cons_append, List.cons_append]
      simp only [take, hbyte, hhigh, hge, hge2, if_false]

/-! ## Fixed-width fields -/

/-- The `n` low bytes of a value, low byte first. -/
def toLe : ℕ → ℕ → Bytes
  | 0, _ => []
  | n + 1, value => UInt8.ofNat value :: toLe n (value / 256)

/-- The value of little-endian bytes. -/
def ofLe : Bytes → ℕ
  | [] => 0
  | byte :: rest => byte.toNat + 256 * ofLe rest

@[simp]
theorem length_toLe (n value : ℕ) : (toLe n value).length = n := by
  induction n generalizing value with
  | zero => rfl
  | succ n ih => rw [toLe, List.length_cons, ih]

theorem ofLe_toLe (n value : ℕ) (h : value < 256 ^ n) : ofLe (toLe n value) = value := by
  induction n generalizing value with
  | zero =>
    rw [pow_zero] at h
    show 0 = value
    omega
  | succ n ih =>
    rw [pow_succ] at h
    rw [toLe, ofLe, ih _ (by omega), UInt8.toNat_ofNat']
    omega

end Ferret
