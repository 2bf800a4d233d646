import Ferret.Index.Bytes

/-!
# Untrusted lengths

A segment's bytes come from a file, so `take` may be given anything. What it
accepts is a complete encoding: bytes with the high bit set, then one
without, ten at most, worth less than 2^64. An encoding that is cut short or
that says more than 64 bits is refused, never wrapped.
-/

namespace Ferret

open List

/-- The number that bytes give, seven bits each. -/
def leb (bytes : Bytes) : ℕ := bytes.foldr (fun byte value => byte.toNat % 128 + 128 * value) 0

theorem leb_cons (byte : UInt8) (bytes : Bytes) :
    leb (byte :: bytes) = byte.toNat % 128 + 128 * leb bytes := rfl

theorem leb_append (bytes : Bytes) (last : UInt8) :
    leb (bytes ++ [last]) = leb bytes + 128 ^ bytes.length * (last.toNat % 128) := by
  induction bytes with
  | nil => rw [nil_append, leb_cons, leb, foldr_nil, length_nil]; omega
  | cons _ bytes ih =>
    rw [cons_append, leb_cons, leb_cons, ih, length_cons, pow_succ]
    ring

theorem leb_lt (bytes : Bytes) : leb bytes < 128 ^ bytes.length := by
  induction bytes with
  | nil => exact one_pos
  | cons _ bytes _ =>
    rw [leb_cons, length_cons, pow_succ]
    omega

/-- Bytes that more follow, and a last one. -/
structure Encodes (more : Bytes) (last : UInt8) : Prop where
  more : ∀ byte ∈ more, 128 ≤ byte.toNat
  last : last.toNat < 128

/-- What the loop accepts from its `i`th byte on: no more than ten bytes, of the tenth the lowest
bit only. -/
theorem takeFrom_iff (fuel i : ℕ) (hi : fuel + i = 10) (base : ℕ) (bytes : Bytes) (value : ℕ)
    (rest : Bytes) :
    takeFrom fuel (7 * i) base bytes = some (value, rest) ↔
      ∃ more last, bytes = more ++ last :: rest ∧ Encodes more last ∧ more.length < fuel ∧
        (more.length + 1 = fuel → last.toNat < 2) ∧
        value = base + leb (more ++ [last]) * 2 ^ (7 * i) := by
  induction fuel generalizing i base bytes with
  | zero =>
    rw [takeFrom]
    refine ⟨(fun h => by cases h), ?_⟩
    rintro ⟨_, _, _, _, hlen, _⟩
    exact absurd hlen (not_lt_zero)
  | succ fuel ih =>
    cases bytes with
    | nil =>
      rw [takeFrom]
      refine ⟨(fun h => by cases h), ?_⟩
      rintro ⟨more, _, h, _⟩
      cases more <;> cases h
    | cons byte bytes =>
      rw [takeFrom]
      by_cases hbyte : byte.toNat < 128
      · -- the last byte
        rw [if_pos hbyte, Nat.mod_eq_of_lt hbyte]
        constructor
        · intro h
          split_ifs at h with hlast
          cases h
          refine ⟨[], byte, rfl, ⟨forall_mem_nil _, hbyte⟩, Nat.succ_pos _, fun h => ?_, ?_⟩
          · rw [length_nil] at h
            omega
          · rw [nil_append, leb_cons, leb, foldr_nil, Nat.mod_eq_of_lt hbyte]
            rfl
        · rintro ⟨more, last, h, hencodes, -, htenth, rfl⟩
          cases more with
          | cons b more =>
            cases h
            exact absurd hbyte (not_lt.mpr (hencodes.more _ mem_cons_self))
          | nil =>
            cases h
            have hlast : ¬ (7 * i = 63 ∧ 1 < byte.toNat) := fun h => by
              have := htenth (by rw [length_nil]; omega)
              omega
            rw [if_neg hlast, nil_append, leb_cons, leb, foldr_nil, Nat.mod_eq_of_lt hbyte]
            rfl
      · rw [if_neg hbyte]
        have hstep := ih (i + 1) (by omega) (base + byte.toNat % 128 * 2 ^ (7 * i)) bytes
        have hvalue : ∀ bs, base + byte.toNat % 128 * 2 ^ (7 * i) + leb bs * 2 ^ (7 * (i + 1))
            = base + leb (byte :: bs) * 2 ^ (7 * i) := fun bs => by
          rw [leb_cons, show 7 * (i + 1) = 7 * i + 7 by ring, pow_add]
          ring
        constructor
        · intro h
          split_ifs at h
          obtain ⟨more, last, rfl, hencodes, hlen, htenth, rfl⟩ := hstep.mp h
          refine ⟨byte :: more, last, rfl,
            ⟨forall_mem_cons.mpr ⟨not_lt.mp hbyte, hencodes.more⟩, hencodes.last⟩,
            Nat.succ_lt_succ hlen, fun h => htenth (Nat.succ.inj h), hvalue _⟩
        · rintro ⟨more, last, h, hencodes, hlen, htenth, rfl⟩
          cases more with
          | nil =>
            cases h
            exact absurd hencodes.last hbyte
          | cons b more =>
            cases h
            rw [length_cons] at hlen
            rw [if_neg fun h => by omega]
            refine hstep.mpr ⟨more, last, rfl,
              ⟨fun b hb => hencodes.more b (.tail _ hb), hencodes.last⟩,
              Nat.lt_of_succ_lt_succ hlen, fun h => htenth (congrArg Nat.succ h), (hvalue _).symm⟩

/-- The values of one and two bytes are those of the loop. -/
theorem take_eq_takeFrom (bytes : Bytes) : take bytes = takeFrom 10 0 0 bytes := by
  rcases bytes with _ | ⟨low, _ | ⟨high, _⟩⟩
  · rfl
  · by_cases hlow : low.toNat < 128
    · simp [take, takeFrom, hlow, Nat.mod_eq_of_lt hlow]
    · simp [take, takeFrom, hlow]
  · by_cases hlow : low.toNat < 128
    · simp [take, takeFrom, hlow, Nat.mod_eq_of_lt hlow]
    · by_cases hhigh : high.toNat < 128
      · simp [take, takeFrom, hlow, hhigh, Nat.mod_eq_of_lt hhigh]
      · simp only [take, hlow, hhigh, if_false]

/-- **The codec of values**: what was put is taken, the short cut for one and two bytes changes
nothing, and what is taken is a whole encoding of at most ten bytes and 64 bits. -/
theorem take_exact :
    (∀ value < 2 ^ 64, ∀ rest, take (put value ++ rest) = some (value, rest)) ∧
      (∀ bytes, take bytes = takeFrom 10 0 0 bytes) ∧
      ∀ bytes value rest, take bytes = some (value, rest) ↔
        ∃ more last, bytes = more ++ last :: rest ∧ Encodes more last ∧ more.length < 10 ∧
          value < 2 ^ 64 ∧ value = leb (more ++ [last]) := by
  refine ⟨fun _ hv rest => take_put hv rest, take_eq_takeFrom, fun bytes value rest => ?_⟩
  have hiff := takeFrom_iff 10 0 rfl 0 bytes value rest
  rw [take_eq_takeFrom]
  refine hiff.trans (exists₂_congr fun more last => and_congr_right fun _ =>
    and_congr_right fun hencodes => and_congr_right fun hlen => ?_)
  rw [mul_zero, pow_zero, mul_one, zero_add, and_congr_left_iff]
  rintro rfl
  -- only the tenth byte can reach past 64 bits
  rw [leb_append, Nat.mod_eq_of_lt hencodes.last]
  have hlow := leb_lt more
  rcases lt_or_ge more.length 9 with hshort | _
  · have hpow : 128 ^ (more.length + 1) ≤ 128 ^ 9 := Nat.pow_le_pow_right (by decide) hshort
    have hmul : 128 ^ more.length * last.toNat ≤ 128 ^ more.length * 127 :=
      Nat.mul_le_mul_left _ (Nat.le_of_lt_succ hencodes.last)
    rw [pow_succ] at hpow
    exact ⟨fun _ => by omega, fun _ h => by omega⟩
  · obtain hten : more.length = 9 := by omega
    rw [hten] at hlow ⊢
    exact ⟨fun h => by have := h rfl; omega, fun h _ => by omega⟩

end Ferret
