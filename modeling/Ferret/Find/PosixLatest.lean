import Ferret.Find.Posix
import Mathlib.Data.List.Induction

/-!
# The transition that is in force

The starts and ends of daylight saving time follow one another over all years,
start before end in each, and what is in force at an instant is what the latest
transition not after it leads to. `Posix.at` looks at the transitions of the
year of the instant and of the adjoining years. These do not always hold the
latest: a rule whose day and clock are at the very end of a year is some days
into the next one, and a year later, on the first days of the year, its latest
transition is of the year before the last (`at_latest_iff`).
-/

namespace Ferret.Find.TimeZone

open Gregorian List

/-! ## Transitions in order -/

/-- Daylight saving time with its rules. -/
structure Seasons where
  standard : Offset
  daylight : Offset
  start : Rule
  stop : Rule

namespace Seasons

variable (s : Seasons)

/-- The transition of a number: two for each year, the start first. -/
def transition (n : ℤ) : ℤ :=
  if n % 2 = 0 then s.start.at (n / 2) - s.standard.seconds
  else s.stop.at (n / 2) - s.daylight.seconds

/-- What a transition leads to. -/
def after (n : ℤ) : Offset := if n % 2 = 0 then s.daylight else s.standard

/-- **The latest transition not after an instant**; of two at once the one with
the greater number. -/
structure Latest (stamp n : ℤ) : Prop where
  le : s.transition n ≤ stamp
  latest : ∀ m, s.transition m ≤ stamp →
    s.transition m < s.transition n ∨ s.transition m = s.transition n ∧ m ≤ n

/-- The rules are as they are parsed. -/
structure Valid : Prop where
  standard : s.standard.daylight = false ∧
    -90000 < s.standard.seconds ∧ s.standard.seconds < 90000
  daylight : s.daylight.daylight = true ∧
    -93600 < s.daylight.seconds ∧ s.daylight.seconds < 93600
  start : s.start.Valid
  stop : s.stop.Valid

end Seasons

/-! ## Where a transition is -/

theorem yearStart_eq (year : ℤ) : daysFromCivil year 1 1 = yearStart year := by
  rw [daysFromCivil_eq year ⟨by decide, by decide⟩]
  show yearStart year + 0 + 0 = _
  rw [add_zero, add_zero]

theorem monthStart_eq (year : ℤ) {month : ℤ} (h : 1 ≤ month ∧ month ≤ 12) :
    daysFromCivil year month 1 = monthStart year month := by
  rw [daysFromCivil_eq year h]
  exact add_zero _

/-- **A rule's day is one of a leap year's.** -/
theorem Day.Valid.bounds {day : Day} (h : day.Valid) (year : ℤ) :
    0 ≤ day.ordinalIn year ∧ day.ordinalIn year ≤ 365 := by
  cases day with
  | ordinal day =>
    have hday : day ≤ 365 := h
    refine ⟨Int.natCast_nonneg _, ?_⟩
    show (day : ℤ) ≤ 365
    exact_mod_cast hday
  | julian day =>
    obtain ⟨_, _⟩ := h
    unfold ordinalIn
    dsimp only
    split_ifs <;> exact ⟨by omega, by omega⟩
  | month m week weekday =>
    obtain ⟨⟨hm, hm'⟩, ⟨hw, hw'⟩, _⟩ := h
    have hmonth : 1 ≤ (m : ℤ) ∧ (m : ℤ) ≤ 12 := ⟨by exact_mod_cast hm, by exact_mod_cast hm'⟩
    obtain ⟨_, _⟩ := monthStart_bounds year hmonth
    have hlength := monthLength_bounds year m
    have hyear := yearStart_succ year
    have hdays := yearLength_bounds year
    have hnext : (if m = 12 then daysFromCivil (year + 1) 1 1 else daysFromCivil year (m + 1) 1)
        = monthStart year m + monthLength year m := by
      split_ifs with hlast
      · subst hlast
        rw [yearStart_eq]
        exact monthStart_december year
      · rw [monthStart_eq year ⟨by omega, by omega⟩, monthStart_succ year ⟨hmonth.1, by omega⟩]
    unfold ordinalIn
    dsimp only
    rw [hnext, monthStart_eq year hmonth, yearStart_eq]
    have hmod := Int.emod_nonneg ((weekday : ℤ) - (monthStart year m + 4) % 7)
      (show (7 : ℤ) ≠ 0 by decide)
    have hmod' := Int.emod_lt_of_pos ((weekday : ℤ) - (monthStart year m + 4) % 7)
      (show (0 : ℤ) < 7 by decide)
    generalize ((weekday : ℤ) - (monthStart year m + 4) % 7) % 7 = r at hmod hmod'
    have hw₁ : 1 ≤ (week : ℤ) := by exact_mod_cast hw
    have hw₂ : (week : ℤ) ≤ 5 := by exact_mod_cast hw'
    split_ifs
    · exact ⟨by omega, by omega⟩
    · exact ⟨by omega, by omega⟩

/-- An instant a rule comes to, before the offset. -/
theorem Rule.Valid.at_bounds {rule : Rule} (h : rule.Valid) (year : ℤ) :
    (yearStart year - 7) * 86400 < rule.at year ∧
      rule.at year < (yearStart year + 372) * 86400 := by
  obtain ⟨_, _⟩ := h.day.bounds year
  obtain ⟨_, _⟩ := h.seconds
  unfold Rule.at
  rw [yearStart_eq]
  constructor <;> omega

/-- A rule comes to its days in the order of the years. -/
theorem Rule.Valid.at_succ {rule : Rule} (h : rule.Valid) (year : ℤ) :
    rule.at year ≤ rule.at (year + 1) := by
  have hday := (h.day.bounds year).2
  have hnext := (h.day.bounds (year + 1)).1
  have hyear := yearStart_succ year
  have hlength := (yearLength_bounds year).1
  unfold Rule.at
  rw [yearStart_eq, yearStart_eq]
  omega

namespace Seasons

variable {s : Seasons} {stamp : ℤ}

/-- A transition is some days before its year, in it or after it. -/
theorem Valid.transition_bounds (h : s.Valid) (n : ℤ) :
    (yearStart (n / 2) - 9) * 86400 < s.transition n ∧
      s.transition n < (yearStart (n / 2) + 374) * 86400 := by
  obtain ⟨-, _⟩ := h.standard
  obtain ⟨-, _⟩ := h.daylight
  have hstart := h.start.at_bounds (n / 2)
  have hstop := h.stop.at_bounds (n / 2)
  unfold transition
  split_ifs <;> constructor <;> omega

/-- Starts follow starts, and ends ends. -/
theorem Valid.transition_le (h : s.Valid) (n : ℤ) (k : ℕ) :
    s.transition n ≤ s.transition (n + 2 * k) := by
  induction k with
  | zero => rw [Nat.cast_zero, mul_zero, add_zero]
  | succ k ih =>
    refine ih.trans ?_
    have hnext : n + 2 * ((k + 1 : ℕ) : ℤ) = n + 2 * k + 2 := by push_cast; omega
    rw [hnext]
    generalize n + 2 * (k : ℤ) = m
    have hparity : (m + 2) % 2 = m % 2 := by omega
    have hyear : (m + 2) / 2 = m / 2 + 1 := by omega
    have hstart := h.start.at_succ (m / 2)
    have hstop := h.stop.at_succ (m / 2)
    unfold transition
    rw [hparity, hyear]
    split_ifs <;> omega

variable {year n : ℤ}

/-- The transitions of a year before the last are over. -/
theorem Valid.transition_early (h : s.Valid) (hn : n / 2 ≤ year - 2)
    (hstamp : yearStart year ≤ stamp / 86400) : s.transition n ≤ stamp := by
  have hbound := (h.transition_bounds n).2
  have hyears := yearStart_mono (show n / 2 ≤ year by omega)
  omega

/-- Those of a year after the next are to come. -/
theorem Valid.transition_late (h : s.Valid) (hn : year + 2 ≤ n / 2)
    (hstamp : stamp / 86400 < yearStart (year + 1)) : stamp < s.transition n := by
  have hbound := (h.transition_bounds n).1
  have hyears := yearStart_mono (show year + 1 ≤ n / 2 by omega)
  omega

/-- Two years on a transition is later than any. -/
theorem Valid.transition_lt (h : s.Valid) {m n : ℤ} (hmn : m / 2 + 2 ≤ n / 2) :
    s.transition m < s.transition n := by
  have hm := (h.transition_bounds m).2
  have hn := (h.transition_bounds n).1
  have hyears := yearStart_mono (show m / 2 ≤ n / 2 by omega)
  omega

/-- **What a pass over transitions finds**, in the order of their numbers: what
it starts with, or the latest of them. -/
theorem foldl_later (s : Seasons) (stamp : ℤ) (init : ℤ × Offset) {ns : List ℤ}
    (hns : ns.Pairwise (· < ·)) :
    (ns.foldl (fun last n => later stamp last (s.transition n, s.after n)) init = init ∧
      ∀ n ∈ ns, s.transition n ≤ stamp → s.transition n < init.1) ∨
    ∃ n ∈ ns, ns.foldl (fun last n => later stamp last (s.transition n, s.after n)) init
        = (s.transition n, s.after n) ∧
      s.transition n ≤ stamp ∧ ∀ m ∈ ns, s.transition m ≤ stamp →
        s.transition m < s.transition n ∨ s.transition m = s.transition n ∧ m ≤ n := by
  induction ns using List.reverseRecOn with
  | nil => exact .inl ⟨rfl, fun _ h => absurd h not_mem_nil⟩
  | append_singleton ns k ih =>
    obtain ⟨hns, -, hlast⟩ := pairwise_append.mp hns
    have hlast : ∀ n ∈ ns, n < k := fun n hn => hlast n hn k (mem_singleton_self k)
    rw [foldl_append]
    generalize ns.foldl (fun last n => later stamp last (s.transition n, s.after n)) init = last
      at ih
    show (later stamp last (s.transition k, s.after k) = init ∧ _) ∨
      ∃ n ∈ ns ++ [k], later stamp last (s.transition k, s.after k) = _ ∧ _
    have hmem : ∀ {P : ℤ → Prop}, (∀ m ∈ ns, P m) → P k → ∀ m ∈ ns ++ [k], P m := by
      intro P hns hk m hm
      obtain hm | hm := mem_append.mp hm
      · exact hns m hm
      · rw [mem_singleton.mp hm]
        exact hk
    unfold later
    split_ifs with hk
    · obtain ⟨hle, hlater⟩ := hk
      refine .inr ⟨k, mem_append_right _ (mem_singleton_self k), rfl, hle, hmem ?_ ?_⟩
      · intro m hm hmle
        obtain ⟨rfl, hnone⟩ | ⟨n, hn, rfl, -, hlatest⟩ := ih hns
        · exact .inl ((hnone m hm hmle).trans_le hlater)
        · have := hlast m hm
          obtain hlt | ⟨heq, -⟩ := hlatest m hm hmle
          · exact .inl (hlt.trans_le hlater)
          · obtain hlt | heq' := hlater.lt_or_eq
            · exact .inl (heq.trans_lt hlt)
            · exact .inr ⟨heq.trans heq', this.le⟩
      · exact fun _ => .inr ⟨rfl, le_refl k⟩
    · have hbefore : s.transition k ≤ stamp → s.transition k < last.1 := fun hle =>
        not_le.mp fun hlater => hk ⟨hle, hlater⟩
      obtain ⟨rfl, hnone⟩ | ⟨n, hn, rfl, hle, hlatest⟩ := ih hns
      · exact .inl ⟨rfl, hmem hnone hbefore⟩
      · exact .inr ⟨n, mem_append_left _ hn, rfl, hle,
          hmem hlatest fun hkle => .inl (hbefore hkle)⟩

/-! ## The latest transition -/

/-- The transitions of a year and the adjoining ones. -/
def adjoining (year : ℤ) : List ℤ :=
  [2 * (year - 1), 2 * (year - 1) + 1, 2 * year, 2 * year + 1, 2 * (year + 1), 2 * (year + 1) + 1]

theorem mem_adjoining :
    n ∈ adjoining year ↔ 2 * year - 2 ≤ n ∧ n ≤ 2 * year + 3 := by
  simp only [adjoining, mem_cons, not_mem_nil, or_false]
  omega

theorem adjoining_pairwise (year : ℤ) : (adjoining year).Pairwise (· < ·) := by
  simp only [adjoining, pairwise_cons, mem_cons, not_mem_nil, or_false]
  refine ⟨?_, ?_, ?_, ?_, ?_, fun _ hn => absurd hn not_false, .nil⟩ <;>
    intro n hn <;> omega

/-- The latest transition is of the year before the last or later. -/
theorem Latest.bounds (h : s.Valid) (hlatest : s.Latest stamp n)
    (hyear : yearStart year ≤ stamp / 86400 ∧ stamp / 86400 < yearStart (year + 1)) :
    2 * year - 4 ≤ n ∧ n ≤ 2 * year + 3 := by
  constructor
  · by_contra hearly
    have hover := h.transition_early (show (n + 2) / 2 ≤ year - 2 by omega) hyear.1
    have hle := h.transition_le n 1
    rw [Nat.cast_one, mul_one] at hle
    obtain hlt | ⟨-, _⟩ := hlatest.latest (n + 2) hover
    · exact absurd hlt (not_lt.mpr hle)
    · omega
  · by_contra hlate
    have hcoming := h.transition_late (show year + 2 ≤ n / 2 by omega) hyear.2
    exact absurd hlatest.le (not_le.mpr hcoming)

/-- **There is a latest transition.** -/
theorem exists_latest (h : s.Valid) {year : ℤ}
    (hyear : yearStart year ≤ stamp / 86400 ∧ stamp / 86400 < yearStart (year + 1)) :
    ∃ n, s.Latest stamp n := by
  have hns : ((2 * year - 4) :: (2 * year - 3) :: adjoining year).Pairwise (· < ·) := by
    refine List.Pairwise.cons ?_ (List.Pairwise.cons ?_ (adjoining_pairwise year))
    · intro n hn
      rw [mem_cons, mem_adjoining] at hn
      omega
    · intro n hn
      rw [mem_adjoining] at hn
      omega
  have hmem : ∀ n, n ∈ (2 * year - 4) :: (2 * year - 3) :: adjoining year ↔
      2 * year - 4 ≤ n ∧ n ≤ 2 * year + 3 := by
    intro n
    rw [mem_cons, mem_cons, mem_adjoining]
    omega
  have hearly : ∀ m, m ≤ 2 * year - 3 → s.transition m ≤ stamp := fun m hm =>
    h.transition_early (by omega) hyear.1
  obtain ⟨-, hnone⟩ | ⟨n, hn, -, hle, hlatest⟩ := foldl_later s stamp
    (s.transition (2 * year - 4) - 1, s.standard) hns
  · have hfirst := hnone (2 * year - 4) ((hmem _).mpr ⟨le_rfl, by omega⟩) (hearly _ (by omega))
    exact absurd hfirst (by dsimp only; omega)
  refine ⟨n, hle, fun m hm => ?_⟩
  by_cases hold : m < 2 * year - 4
  · -- an old transition is followed by one of its kind
    obtain ⟨k, hk, hk'⟩ : ∃ k : ℕ, 2 * year - 4 ≤ m + 2 * k ∧ m + 2 * k ≤ 2 * year - 3 :=
      ⟨((2 * year - 3 - m) / 2).toNat, by omega, by omega⟩
    have hmono := h.transition_le m k
    obtain hlt | ⟨heq, _⟩ := hlatest (m + 2 * k) ((hmem _).mpr ⟨hk, by omega⟩) (hearly _ hk')
    · exact .inl (hmono.trans_lt hlt)
    · obtain hlt | heq' := hmono.lt_or_eq
      · exact .inl (hlt.trans_eq heq)
      · exact .inr ⟨heq'.trans heq, by omega⟩
  · refine hlatest m ((hmem m).mpr ⟨by omega, ?_⟩) hm
    by_contra hlate
    exact absurd hm (not_le.mpr (h.transition_late (show year + 2 ≤ m / 2 by omega) hyear.2))

theorem Latest.unique {m n : ℤ} (hm : s.Latest stamp m) (hn : s.Latest stamp n) : m = n := by
  obtain _ | ⟨_, hle⟩ := hn.latest m hm.le
  · obtain hlt' | ⟨_, -⟩ := hm.latest n hn.le
    · omega
    · omega
  · obtain hlt' | ⟨-, hle'⟩ := hm.latest n hn.le
    · omega
    · exact le_antisymm hle hle'

/-- What the pass over the adjoining years finds, and the latest transition. -/
theorem pass_iff (h : s.Valid) (hlatest : s.Latest stamp n) (hstamp : -9223372036854775808 ≤ stamp)
    (hyear : yearStart year ≤ stamp / 86400 ∧ stamp / 86400 < yearStart (year + 1)) :
    ((adjoining year).foldl (fun last n => later stamp last (s.transition n, s.after n))
        (i128Min, s.standard)).2 = s.after n
      ↔ 2 * year - 2 ≤ n ∨ n = 2 * year - 3 ∧ stamp < s.transition (2 * year - 2) := by
  obtain ⟨_, hhi⟩ := hlatest.bounds h hyear
  have hdiffer : s.daylight ≠ s.standard := by
    intro heq
    have hday := h.daylight.1
    rw [heq, h.standard.1] at hday
    cases hday
  have heven : ∀ m, m % 2 = 0 → s.after m = s.daylight := fun m hm => if_pos hm
  have hodd : ∀ m, m % 2 = 1 → s.after m = s.standard := fun m hm => if_neg (by omega)
  obtain ⟨hinit, hnone⟩ | ⟨k, hk, hfound, hle, hlast⟩ :=
    foldl_later s stamp (i128Min, s.standard) (adjoining_pairwise year)
  · -- all of these transitions are to come
    have hcoming : ∀ m ∈ adjoining year, stamp < s.transition m := by
      intro m hm
      by_contra hover
      have hfirst : s.transition m < i128Min := hnone m hm (not_lt.mp hover)
      unfold i128Min at hfirst
      have hbound := (h.transition_bounds m).1
      rw [mem_adjoining] at hm
      have hyears := yearStart_mono (show year - 1 ≤ m / 2 by omega)
      have hlast := yearStart_succ (year - 1)
      rw [sub_add_cancel] at hlast
      have hthis := yearStart_succ year
      have hlength := (yearLength_bounds (year - 1)).2
      have hlength' := (yearLength_bounds year).2
      omega
    have hn : n < 2 * year - 2 := by
      by_contra hn
      exact absurd hlatest.le (not_le.mpr (hcoming n (mem_adjoining.mpr ⟨by omega, hhi⟩)))
    rw [hinit]
    obtain rfl | rfl : n = 2 * year - 4 ∨ n = 2 * year - 3 := by omega
    · rw [heven _ (by omega)]
      exact ⟨fun heq => absurd heq.symm hdiffer, fun hwrong => by omega⟩
    · rw [hodd _ (by omega)]
      have hnext := hcoming _ (mem_adjoining.mpr ⟨le_refl (2 * year - 2), by omega⟩)
      exact ⟨fun _ => .inr ⟨rfl, hnext⟩, fun _ => rfl⟩
  · rw [hfound]
    rw [mem_adjoining] at hk
    by_cases hn : 2 * year - 2 ≤ n
    · have heq : k = n := by
        obtain hlt | ⟨heq, hnumber⟩ := hlast n (mem_adjoining.mpr ⟨hn, hhi⟩) hlatest.le
        · obtain hlt' | ⟨_, -⟩ := hlatest.latest k hle <;> omega
        · obtain hlt' | ⟨-, _⟩ := hlatest.latest k hle <;> omega
      rw [heq]
      exact ⟨fun _ => .inl hn, fun _ => rfl⟩
    · have hlt : s.transition k < s.transition n := by
        obtain hlt | ⟨-, hnumber⟩ := hlatest.latest k hle
        · exact hlt
        · omega
      have hnear : k / 2 < n / 2 + 2 := by
        by_contra hfar
        exact absurd (h.transition_lt (show n / 2 + 2 ≤ k / 2 by omega)) (not_lt.mpr hlt.le)
      have hother : k ≠ n + 2 := by
        rintro rfl
        have hmono := h.transition_le n 1
        rw [Nat.cast_one, mul_one] at hmono
        exact absurd hlt (not_lt.mpr hmono)
      obtain ⟨rfl, rfl⟩ | ⟨rfl, rfl⟩ : n = 2 * year - 4 ∧ k = 2 * year - 1 ∨
          n = 2 * year - 3 ∧ k = 2 * year - 2 := by omega
      · rw [hodd _ (by omega), heven _ (by omega)]
        exact ⟨fun heq => absurd heq.symm hdiffer, fun hwrong => by omega⟩
      · rw [heven _ (by omega), hodd _ (by omega)]
        exact ⟨fun heq => absurd heq hdiffer, fun hwrong => by omega⟩

end Seasons

/-- The latest transition is one the pass over the adjoining years finds, or goes
without saying. -/
def Seasons.Covered (s : Seasons) (stamp n : ℤ) : Prop :=
  let year := (civilDate (stamp / 86400)).1
  2 * year - 2 ≤ n ∨ n = 2 * year - 3 ∧ stamp < s.transition (2 * year - 2)

/-- The seasons of a rule string that names daylight saving time. -/
def Posix.seasons (posix : Posix) : Option Seasons :=
  posix.daylight.map fun d => ⟨posix.standard, d.1, d.2.1, d.2.2⟩

variable {posix : Posix}

theorem Posix.Valid.seasons (h : posix.Valid) {s : Seasons} (hs : posix.seasons = some s) :
    s.Valid := by
  obtain ⟨⟨_, _, _⟩, hdaylight, rfl⟩ := Option.map_eq_some_iff.mp hs
  obtain ⟨hflag, hoffset, hstart, hstop⟩ := h.daylight _ _ _ hdaylight
  exact ⟨h.standard, ⟨hflag, hoffset⟩, hstart, hstop⟩

theorem Posix.at_seasons {s : Seasons} (hs : posix.seasons = some s) (stamp : ℤ) :
    posix.at stamp = ((Seasons.adjoining (civilDate (stamp / 86400)).1).foldl
      (fun last n => later stamp last (s.transition n, s.after n)) (i128Min, s.standard)).2 := by
  obtain ⟨⟨_, _, _⟩, hdaylight, rfl⟩ := Option.map_eq_some_iff.mp hs
  rw [Posix.at, hdaylight]
  dsimp only
  generalize (civilDate (stamp / 86400)).1 = year
  rw [← foldl_map (f := fun n => (Seasons.transition _ n, Seasons.after _ n))]
  congr 2
  have heven : ∀ y : ℤ, 2 * y % 2 = 0 ∧ 2 * y / 2 = y := fun y => ⟨by omega, by omega⟩
  have hodd : ∀ y : ℤ, (2 * y + 1) % 2 = 1 ∧ (2 * y + 1) / 2 = y := fun y => ⟨by omega, by omega⟩
  simp only [Seasons.adjoining, Seasons.transition, Seasons.after, flatMap_cons,
    flatMap_nil, transitions, map_cons, map_nil, (heven _).1, (heven _).2,
    (hodd _).1, (hodd _).2, if_true, one_ne_zero, if_false]
  rfl

/-- **There is a latest transition, and it is in force** if it is covered. -/
theorem Posix.Valid.at_latest_iff (h : posix.Valid) {s : Seasons} (hs : posix.seasons = some s)
    {stamp : ℤ} (hstamp : -9223372036854775808 ≤ stamp) :
    ∃ n, s.Latest stamp n ∧ (∀ m, s.Latest stamp m → m = n) ∧
      (posix.at stamp = s.after n ↔ s.Covered stamp n) := by
  have hvalid := h.seasons hs
  have hyear := civilDate_year (stamp / 86400)
  obtain ⟨n, hlatest⟩ := Seasons.exists_latest hvalid hyear
  refine ⟨n, hlatest, fun m hm => hm.unique hlatest, ?_⟩
  rw [Posix.at_seasons hs]
  exact Seasons.pass_iff hvalid hlatest hstamp hyear

end Ferret.Find.TimeZone
