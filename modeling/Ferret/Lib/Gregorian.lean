import Mathlib.Tactic.IntervalCases

/-!
# The Gregorian calendar

Days are counted from the first of January 1970, years without end in both
directions. A year starts `yearStart` days from there, a month `monthStart`, and
a day of a month is `dayNumber`. The starts follow one another by the lengths of
the years and months between them.
-/

namespace Gregorian

def Leap (year : ℤ) : Prop := year % 4 = 0 ∧ (year % 100 ≠ 0 ∨ year % 400 = 0)

instance (year : ℤ) : Decidable (Leap year) := inferInstanceAs (Decidable (_ ∧ _))

def yearLength (year : ℤ) : ℤ := if Leap year then 366 else 365

def monthLength (year month : ℤ) : ℤ :=
  if month = 2 then if Leap year then 29 else 28
  else if month = 4 ∨ month = 6 ∨ month = 9 ∨ month = 11 then 30
  else 31

/-- The first day of a year. -/
def yearStart (year : ℤ) : ℤ :=
  365 * (year - 1) + (year - 1) / 4 - (year - 1) / 100 + (year - 1) / 400 - 719162

/-- The days before a month of a year. -/
def daysBefore (year month : ℤ) : ℤ :=
  if month ≤ 2 then 31 * (month - 1)
  else (153 * (month - 3) + 2) / 5 + if Leap year then 60 else 59

/-- The first day of a month. -/
def monthStart (year month : ℤ) : ℤ := yearStart year + daysBefore year month

def dayNumber (year month day : ℤ) : ℤ := monthStart year month + (day - 1)

/-- A month that there is, and a day of it. -/
structure Valid (year month day : ℤ) : Prop where
  inYear : 1 ≤ month ∧ month ≤ 12
  inMonth : 1 ≤ day ∧ day ≤ monthLength year month

variable (year : ℤ)

theorem yearLength_bounds : 365 ≤ yearLength year ∧ yearLength year ≤ 366 := by
  unfold yearLength
  split_ifs <;> exact ⟨by decide, by decide⟩

theorem monthLength_bounds (year month : ℤ) :
    28 ≤ monthLength year month ∧ monthLength year month ≤ 31 := by
  unfold monthLength
  split_ifs <;> exact ⟨by decide, by decide⟩

/-- **A year starts where the one before it ends.** -/
theorem yearStart_succ : yearStart (year + 1) = yearStart year + yearLength year := by
  have h4 : year / 4 = (year - 1) / 4 + if year % 4 = 0 then 1 else 0 := by split_ifs <;> omega
  have h100 : year / 100 = (year - 1) / 100 + if year % 100 = 0 then 1 else 0 := by
    split_ifs <;> omega
  have h400 : year / 400 = (year - 1) / 400 + if year % 400 = 0 then 1 else 0 := by
    split_ifs <;> omega
  unfold yearStart yearLength Leap
  rw [add_sub_cancel_right, h4, h100, h400]
  clear h4 h100 h400
  generalize (year - 1) / 4 = a, (year - 1) / 100 = b, (year - 1) / 400 = c
  split_ifs <;> omega

theorem yearStart_mono {a b : ℤ} (h : a ≤ b) : yearStart a + 365 * (b - a) ≤ yearStart b := by
  unfold yearStart
  omega

theorem yearStart_lt_iff {a b : ℤ} : yearStart a < yearStart b ↔ a < b := by
  constructor
  · intro h
    by_contra hle
    have := yearStart_mono (not_lt.mp hle)
    omega
  · intro h
    have := yearStart_mono (Int.add_one_le_iff.mpr h)
    have := yearStart_succ a
    have := (yearLength_bounds a).1
    omega

theorem daysBefore_one : daysBefore year 1 = 0 := rfl

/-- **A month starts where the one before it ends**, in the same year. -/
theorem monthStart_succ {month : ℤ} (h : 1 ≤ month ∧ month < 12) :
    monthStart year (month + 1) = monthStart year month + monthLength year month := by
  obtain ⟨_, _⟩ := h
  unfold monthStart daysBefore monthLength
  interval_cases month <;> by_cases hleap : Leap year <;> simp [hleap] <;> omega

/-- December ends where the next year starts. -/
theorem monthStart_december :
    yearStart (year + 1) = monthStart year 12 + monthLength year 12 := by
  rw [yearStart_succ]
  unfold monthStart daysBefore monthLength yearLength
  by_cases hleap : Leap year <;> simp [hleap] <;> omega

/-- A month lies in its year. -/
theorem monthStart_bounds {month : ℤ} (h : 1 ≤ month ∧ month ≤ 12) :
    yearStart year ≤ monthStart year month ∧
      monthStart year month + monthLength year month ≤ yearStart (year + 1) := by
  obtain ⟨_, _⟩ := h
  rw [yearStart_succ]
  unfold monthStart daysBefore monthLength yearLength
  interval_cases month <;> by_cases hleap : Leap year <;> simp [hleap] <;> omega

/-- A day lies in its year. -/
theorem Valid.bounds {year month day : ℤ} (h : Valid year month day) :
    yearStart year ≤ dayNumber year month day ∧
      dayNumber year month day < yearStart (year + 1) := by
  obtain ⟨_, _⟩ := monthStart_bounds year h.inYear
  obtain ⟨_, _⟩ := h.inMonth
  unfold dayNumber
  exact ⟨by omega, by omega⟩

/-- A day of a year is of one year only. -/
theorem year_unique {a b day : ℤ} (ha : yearStart a ≤ day ∧ day < yearStart (a + 1))
    (hb : yearStart b ≤ day ∧ day < yearStart (b + 1)) : a = b := by
  have hab := yearStart_lt_iff.mp (lt_of_le_of_lt ha.1 hb.2)
  have hba := yearStart_lt_iff.mp (lt_of_le_of_lt hb.1 ha.2)
  omega

/-- The months of a year follow one another. -/
theorem monthStart_lt {a b : ℤ} (ha : 1 ≤ a) (hab : a < b) (hb : b ≤ 12) :
    monthStart year a + monthLength year a ≤ monthStart year b := by
  induction b, hab using Int.leInduction with
  | base => exact (monthStart_succ year ⟨ha, by omega⟩).ge
  | succ b _ ih =>
    rw [monthStart_succ year ⟨by omega, by omega⟩]
    have := ih (by omega)
    have := (monthLength_bounds year b).1
    omega

/-- **A day has one date.** -/
theorem Valid.unique {y m d y' m' d' : ℤ} (h : Valid y m d) (h' : Valid y' m' d')
    (heq : dayNumber y m d = dayNumber y' m' d') : (y, m, d) = (y', m', d') := by
  obtain rfl : y = y' := year_unique (h.bounds) (heq ▸ h'.bounds)
  obtain ⟨hm, hm'⟩ := And.intro h.inYear h'.inYear
  obtain ⟨_, _⟩ := And.intro h.inMonth h'.inMonth
  unfold dayNumber at heq
  obtain rfl : m = m' := by
    rcases lt_trichotomy m m' with hlt | rfl | hlt
    · have := monthStart_lt y hm.1 hlt hm'.2
      omega
    · rfl
    · have := monthStart_lt y hm'.1 hlt hm.2
      omega
  obtain rfl : d = d' := by omega
  rfl

/-- The date after a date. -/
def tomorrow (y m d : ℤ) : ℤ × ℤ × ℤ :=
  if d < monthLength y m then (y, m, d + 1) else if m < 12 then (y, m + 1, 1) else (y + 1, 1, 1)

theorem Valid.exists_tomorrow {y m d : ℤ} (h : Valid y m d) : ∃ y' m' d',
    tomorrow y m d = (y', m', d') ∧ Valid y' m' d' ∧
      dayNumber y' m' d' = dayNumber y m d + 1 := by
  obtain ⟨hm, _⟩ := h
  have hlen : ∀ a b, 1 ≤ monthLength a b :=
    fun a b => le_trans (by decide) (monthLength_bounds a b).1
  unfold tomorrow dayNumber
  split_ifs with hday hmonth
  · exact ⟨y, m, d + 1, rfl, ⟨hm, by omega, by omega⟩, by omega⟩
  · refine ⟨y, m + 1, 1, rfl, ⟨⟨by omega, by omega⟩, le_rfl, hlen _ _⟩, ?_⟩
    rw [monthStart_succ y ⟨hm.1, hmonth⟩]
    omega
  · refine ⟨y + 1, 1, 1, rfl, ⟨by decide, le_rfl, hlen _ _⟩, ?_⟩
    obtain rfl : m = 12 := by omega
    rw [monthStart, daysBefore_one, monthStart_december]
    omega

end Gregorian
