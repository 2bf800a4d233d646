import Mathlib.Data.Nat.Dist
import Mathlib.Tactic.Ring

/-!
# Rounding naturals to a significand of few bits

A binary floating-point format holds the naturals with a significand of `p`
bits: `m * 2 ^ e` with `m < 2 ^ p` (`Fits`). A conversion to it takes the
nearest of these, and of two that are equally near the one whose significand
is even, which is the one that would still fit with a bit less (`Nearest`).

`roundEven` computes it by cutting the low bits off and looking at them.
`nearest_iff` says the two agree: the number so computed is the nearest, and
there is only one.

The range of the exponent is not part of this; a format that overflows says
so on top of it.
-/

namespace Ferret.Lib

/-- `n` has a significand of `p` bits. -/
def Fits (p n : ℕ) : Prop := ∃ m e, m < 2 ^ p ∧ n = m * 2 ^ e

/-- **`d` is the number of `p` bits nearest to `n`**, ties going to the even
significand. -/
structure Nearest (p n d : ℕ) : Prop where
  fits : Fits p d
  closest : ∀ d', Fits p d' → Nat.dist n d ≤ Nat.dist n d'
  even : ∀ d', Fits p d' → d' ≠ d → Nat.dist n d' = Nat.dist n d → Fits (p - 1) d

/-- How many bits of `n` are below its `p` highest. -/
def excess (p n : ℕ) : ℕ := n.log2 + 1 - p

/-- The nearest number of `p` bits: cut the excess, and go up when more than
half was cut, or half from an odd significand. -/
def roundEven (p n : ℕ) : ℕ :=
  let unit := 2 ^ excess p n
  let m := n / unit
  let cut := n % unit
  (if 2 * cut < unit ∨ 2 * cut = unit ∧ m % 2 = 0 then m else m + 1) * unit

variable {p n d e : ℕ}

/-! ## The two neighbours -/

/-- A number of `p` bits from `2 ^ (p + e)` halved on is a multiple of `2 ^ e`. -/
theorem Fits.dvd (h : Fits p d) (hd : 2 ^ (p + e) ≤ 2 * d) : 2 ^ e ∣ d := by
  obtain ⟨m, k, hm, rfl⟩ := h
  have hk : e ≤ k := by
    by_contra hlt
    have hpow : 2 * 2 ^ k ≤ 2 ^ e := by
      rw [← pow_succ']
      exact Nat.pow_le_pow_right (by decide) (by omega)
    have hless : 2 * (m * 2 ^ k) < 2 ^ (p + e) :=
      calc 2 * (m * 2 ^ k) = m * (2 * 2 ^ k) := by ring
        _ ≤ m * 2 ^ e := Nat.mul_le_mul_left m hpow
        _ < 2 ^ p * 2 ^ e := Nat.mul_lt_mul_of_pos_right hm (Nat.two_pow_pos _)
        _ = 2 ^ (p + e) := (pow_add 2 p e).symm
    exact absurd hd (Nat.not_le.mpr hless)
  exact Dvd.dvd.mul_left (pow_dvd_pow 2 hk) m

theorem Fits.of_lt {m : ℕ} (h : m < 2 ^ p) (e : ℕ) : Fits p (m * 2 ^ e) := ⟨m, e, h, rfl⟩

/-- A power of two fits in one bit. -/
theorem Fits.pow (hp : 0 < p) (e : ℕ) : Fits p (2 ^ e) :=
  ⟨1, e, Nat.one_lt_two_pow (by omega), (one_mul _).symm⟩

/-- One more than a significand of `p` bits still fits. -/
theorem Fits.of_le {m : ℕ} (hp : 0 < p) (h : m ≤ 2 ^ p) (e : ℕ) : Fits p (m * 2 ^ e) := by
  rcases Nat.lt_or_eq_of_le h with hlt | rfl
  · exact Fits.of_lt hlt e
  · rw [← pow_add]
    exact Fits.pow hp (p + e)

/-- The significand of `n` is of `p` bits. -/
theorem div_excess_lt (p n : ℕ) : n / 2 ^ excess p n < 2 ^ p := by
  rw [Nat.div_lt_iff_lt_mul (Nat.two_pow_pos _), ← pow_add]
  refine lt_of_lt_of_le Nat.lt_log2_self (Nat.pow_le_pow_right (by decide) ?_)
  unfold excess
  omega

/-- Where something is cut, `n` has its highest bit, and so has what is left. -/
theorem two_pow_le_cut (hp : 0 < p) (h : 0 < excess p n) :
    2 ^ (p + excess p n) ≤ 2 * (n / 2 ^ excess p n * 2 ^ excess p n) := by
  obtain ⟨q, rfl⟩ : ∃ q, p = q + 1 := ⟨p - 1, by omega⟩
  have hn : n ≠ 0 := by
    rintro rfl
    unfold excess at h
    rw [Nat.log2_zero] at h
    omega
  have hlog : n.log2 = q + excess (q + 1) n := by
    unfold excess at h ⊢
    omega
  have hself : 2 ^ q * 2 ^ excess (q + 1) n ≤ n := by
    rw [← pow_add, ← hlog]
    exact Nat.log2_self_le hn
  have hq : 2 ^ q ≤ n / 2 ^ excess (q + 1) n := by
    rwa [Nat.le_div_iff_mul_le (Nat.two_pow_pos _)]
  calc 2 ^ (q + 1 + excess (q + 1) n) = 2 * (2 ^ q * 2 ^ excess (q + 1) n) := by ring
    _ ≤ 2 * (n / 2 ^ excess (q + 1) n * 2 ^ excess (q + 1) n) :=
      Nat.mul_le_mul_left 2 (Nat.mul_le_mul_right _ hq)

/-- **No number of `p` bits lies between the two neighbours of `n`.** -/
theorem Fits.le_or_ge (hp : 0 < p) (h : Fits p d) :
    d ≤ n / 2 ^ excess p n * 2 ^ excess p n ∨ (n / 2 ^ excess p n + 1) * 2 ^ excess p n ≤ d := by
  rcases Nat.eq_zero_or_pos (excess p n) with hzero | hpos
  · rw [hzero]
    omega
  · have htop := two_pow_le_cut hp hpos
    rcases lt_or_ge (2 * d) (2 ^ (p + excess p n)) with _ | hhigh
    · left
      omega
    · obtain ⟨k, rfl⟩ := h.dvd hhigh
      rw [mul_comm _ k]
      rcases lt_or_ge (n / 2 ^ excess p n) k with hk | hk
      · exact .inr (Nat.mul_le_mul_right _ hk)
      · exact .inl (Nat.mul_le_mul_right _ hk)

/-! ## The nearest -/

/-- What `roundEven` takes: the lower neighbour or the upper one. -/
theorem roundEven_cases (p n : ℕ) :
    roundEven p n = n / 2 ^ excess p n * 2 ^ excess p n ∧
        (2 * (n % 2 ^ excess p n) < 2 ^ excess p n ∨
          2 * (n % 2 ^ excess p n) = 2 ^ excess p n ∧ n / 2 ^ excess p n % 2 = 0) ∨
      roundEven p n = (n / 2 ^ excess p n + 1) * 2 ^ excess p n ∧
        (2 ^ excess p n < 2 * (n % 2 ^ excess p n) ∨
          2 * (n % 2 ^ excess p n) = 2 ^ excess p n ∧ n / 2 ^ excess p n % 2 = 1) := by
  simp only [roundEven]
  split_ifs with h
  · exact .inl ⟨rfl, h⟩
  · refine .inr ⟨rfl, ?_⟩
    omega

theorem roundEven_fits (hp : 0 < p) (n : ℕ) : Fits p (roundEven p n) := by
  have hlt := div_excess_lt p n
  rcases roundEven_cases p n with ⟨heq, -⟩ | ⟨heq, -⟩
  · rw [heq]
    exact Fits.of_lt hlt _
  · rw [heq]
    exact Fits.of_le hp hlt _

/-- An even significand fits with a bit less. -/
theorem Fits.of_even {m : ℕ} (hp : 1 < p) (hm : m ≤ 2 ^ p) (heven : m % 2 = 0) (e : ℕ) :
    Fits (p - 1) (m * 2 ^ e) := by
  obtain ⟨q, rfl⟩ : ∃ q, p = q + 1 := ⟨p - 1, by omega⟩
  have hhalf : m * 2 ^ e = m / 2 * 2 ^ (e + 1) := by
    rw [pow_succ', ← mul_assoc, Nat.div_mul_cancel (Nat.dvd_of_mod_eq_zero heven)]
  rw [hhalf]
  refine Fits.of_le (by omega) ?_ _
  rw [pow_succ] at hm
  show m / 2 ≤ 2 ^ q
  omega

/-- The neighbours as what is left and what is cut. -/
theorem neighbours (p n : ℕ) :
    n = n / 2 ^ excess p n * 2 ^ excess p n + n % 2 ^ excess p n ∧
      n % 2 ^ excess p n < 2 ^ excess p n ∧
      (n / 2 ^ excess p n + 1) * 2 ^ excess p n =
        n / 2 ^ excess p n * 2 ^ excess p n + 2 ^ excess p n :=
  ⟨(Nat.div_add_mod' n _).symm, Nat.mod_lt n (Nat.two_pow_pos _), Nat.succ_mul _ _⟩

/-- **The number computed is the nearest.** -/
theorem nearest_roundEven (hp : 1 < p) (n : ℕ) : Nearest p n (roundEven p n) := by
  have hlt := div_excess_lt p n
  obtain ⟨_, _, _⟩ := neighbours p n
  have hother : ∀ {d'}, Fits p d' → d' ≤ n / 2 ^ excess p n * 2 ^ excess p n ∨
      (n / 2 ^ excess p n + 1) * 2 ^ excess p n ≤ d' := Fits.le_or_ge (by omega)
  have hfits := roundEven_fits (p := p) (by omega) n
  refine ⟨hfits, fun d' h' => ?_, fun d' h' hne htie => ?_⟩
  · have := hother h'
    rcases roundEven_cases p n with ⟨heq, hway⟩ | ⟨heq, hway⟩ <;>
      rw [heq] <;> unfold Nat.dist <;> clear heq hfits hlt hother <;>
      generalize (n / 2 ^ excess p n + 1) * 2 ^ excess p n = up at * <;>
      generalize n / 2 ^ excess p n * 2 ^ excess p n = low at * <;> omega
  · have := hother h'
    unfold Nat.dist at htie
    rcases roundEven_cases p n with ⟨heq, hway⟩ | ⟨heq, hway⟩ <;> rw [heq] at hne htie ⊢
    · exact Fits.of_even hp hlt.le (by omega) _
    · exact Fits.of_even hp hlt (by omega) _

/-- Of two neighbours, only one has an even significand. -/
theorem neighbours_even (hp : 1 < p) (h : 0 < excess p n)
    (hlow : Fits (p - 1) (n / 2 ^ excess p n * 2 ^ excess p n))
    (hhigh : Fits (p - 1) ((n / 2 ^ excess p n + 1) * 2 ^ excess p n)) : False := by
  have htop := two_pow_le_cut (n := n) (by omega) h
  obtain ⟨-, -, hup⟩ := neighbours p n
  have hbits : p - 1 + (excess p n + 1) = p + excess p n := by omega
  have hdvd : 2 ^ (excess p n + 1) ∣ n / 2 ^ excess p n * 2 ^ excess p n :=
    hlow.dvd (by rwa [hbits])
  have hdvd' : 2 ^ (excess p n + 1) ∣ (n / 2 ^ excess p n + 1) * 2 ^ excess p n :=
    hhigh.dvd (by rw [hbits, hup]; omega)
  rw [hup] at hdvd'
  have hunit : 2 ^ (excess p n + 1) ∣ 2 ^ excess p n := (Nat.dvd_add_right hdvd).mp hdvd'
  exact absurd (Nat.le_of_dvd (Nat.two_pow_pos _) hunit)
    (Nat.not_le.mpr (Nat.pow_lt_pow_right (by decide) (Nat.lt_succ_self _)))

/-- **There is one nearest number**, the one computed. -/
theorem nearest_iff (hp : 1 < p) : Nearest p n d ↔ d = roundEven p n := by
  refine ⟨fun h => ?_, fun h => h ▸ nearest_roundEven hp n⟩
  have hr := nearest_roundEven hp n
  by_contra hne
  have htie : Nat.dist n (roundEven p n) = Nat.dist n d :=
    le_antisymm (hr.closest d h.fits) (h.closest _ hr.fits)
  have hd := h.even _ hr.fits (Ne.symm hne) htie
  have hd' := hr.even d h.fits hne htie.symm
  obtain ⟨_, _, _⟩ := neighbours p n
  have hother := Fits.le_or_ge (n := n) (by omega) h.fits
  have hpos : 2 * (n % 2 ^ excess p n) = 2 ^ excess p n → 0 < excess p n := fun htwice => by
    by_contra hzero
    rw [Nat.eq_zero_of_not_pos hzero] at htwice
    omega
  unfold Nat.dist at htie
  rcases roundEven_cases p n with ⟨heq, hway⟩ | ⟨heq, hway⟩
  · -- the other number at that distance is the upper neighbour
    rw [heq] at htie hne hd'
    have hd_eq : d = (n / 2 ^ excess p n + 1) * 2 ^ excess p n := by omega
    exact neighbours_even hp (hpos (by omega)) hd' (hd_eq ▸ hd)
  · rw [heq] at htie hne hd'
    have hd_eq : d = n / 2 ^ excess p n * 2 ^ excess p n := by omega
    exact neighbours_even hp (hpos (by omega)) (hd_eq ▸ hd) hd'

end Ferret.Lib
