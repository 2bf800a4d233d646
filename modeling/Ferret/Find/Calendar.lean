import Ferret.Lib.Gregorian

/-!
# Calendar arithmetic

The conversions between days since 1970 and dates, which count years from March
on so that the leap day comes last. They are those of the Gregorian calendar.
-/

namespace Ferret.Find

def daysFromCivil (year month day : ℤ) : ℤ :=
  let year := year - if month ≤ 2 then 1 else 0
  let era := year / 400
  let yoe := year - era * 400
  let doy := (153 * (month + if 2 < month then -3 else 9) + 2) / 5 + day - 1
  let doe := yoe * 365 + yoe / 4 - yoe / 100 + doy
  era * 146097 + doe - 719468

def civilDate (days : ℤ) : ℤ × ℤ × ℤ :=
  let z := days + 719468
  let era := z / 146097
  let doe := z - era * 146097
  let yoe := (doe - doe / 1460 + doe / 36524 - doe / 146096) / 365
  let doy := doe - (365 * yoe + yoe / 4 - yoe / 100)
  let mp := (5 * doy + 2) / 153
  let day := doy - (153 * mp + 2) / 5 + 1
  let month := mp + if mp < 10 then 3 else -9
  (yoe + era * 400 + if month ≤ 2 then 1 else 0, month, day)

open Gregorian

/-- The days of the eras and of the years since. -/
theorem era_days (y : ℤ) :
    y / 400 * 146097 + ((y - y / 400 * 400) * 365 + (y - y / 400 * 400) / 4 -
      (y - y / 400 * 400) / 100) = 719162 + yearStart (y + 1) := by
  unfold yearStart
  rw [add_sub_cancel_right]
  omega

/-- **The days of a date are the calendar's.** -/
theorem daysFromCivil_eq (year : ℤ) {month : ℤ} (h : 1 ≤ month ∧ month ≤ 12) (day : ℤ) :
    daysFromCivil year month day = dayNumber year month day := by
  have hdoy : (153 * (month + if 2 < month then -3 else 9) + 2) / 5 =
      daysBefore year month + if month ≤ 2 then 306 else if Leap year then -60 else -59 := by
    unfold daysBefore
    split_ifs <;> omega
  unfold daysFromCivil dayNumber monthStart
  rw [hdoy]
  generalize daysBefore year month = d
  clear hdoy
  dsimp only
  rcases le_or_gt month 2 with hm | hm
  · have hera := era_days (year - 1)
    rw [sub_add_cancel] at hera
    rw [if_pos hm, if_pos hm]
    generalize (year - 1) / 400 = e at *
    generalize year - 1 - e * 400 = y at *
    generalize y / 4 = a, y / 100 = b at *
    omega
  · have hera := era_days year
    rw [yearStart_succ, yearLength] at hera
    rw [if_neg hm.not_ge, if_neg hm.not_ge, sub_zero]
    generalize year / 400 = e at *
    generalize year - e * 400 = y at *
    generalize y / 4 = a, y / 100 = b at *
    split_ifs at hera ⊢ <;> omega

/-- A day of an era of 400 years is in a year of it that starts in March, and the last of 366 days
in one that ends with a leap day. -/
theorem doy_bounds {doe yoe c d e f g : ℤ} (h : 0 ≤ doe ∧ doe < 146097) (he : e = doe / 1460)
    (hf : f = doe / 36524) (hg : g = doe / 146096) (hyoe : yoe = (doe - e + f - g) / 365)
    (hc : c = yoe / 4) (hd : d = yoe / 100) :
    0 ≤ yoe ∧ yoe < 400 ∧ 0 ≤ doe - (365 * yoe + c - d) ∧ doe - (365 * yoe + c - d) ≤ 365 ∧
      (doe - (365 * yoe + c - d) = 365 →
        (yoe + 1) % 4 = 0 ∧ ((yoe + 1) % 100 ≠ 0 ∨ yoe + 1 = 400)) := by
  have hyears : 0 ≤ yoe ∧ yoe < 400 := by omega
  have hcenturies : d = f - g := by
    have hf' : 0 ≤ f ∧ f ≤ 4 := by omega
    have hg' : 0 ≤ g ∧ g ≤ 1 := by omega
    obtain ⟨_, _⟩ := hf'
    obtain ⟨_, _⟩ := hg'
    interval_cases f <;> interval_cases g <;> omega
  have hleaps : e - 1 ≤ c ∧ c ≤ e := by omega
  refine ⟨hyears.1, hyears.2, ?_, ?_, fun hlast => ?_⟩
  · omega
  · omega
  · have he' : e = c + 1 := by omega
    obtain ⟨r, _, _⟩ : ∃ r, yoe = 4 * c + r ∧ r < 4 := ⟨yoe - 4 * c, by omega, by omega⟩
    have hr₃ : r = 3 := by omega
    refine ⟨by omega, or_iff_not_imp_right.mpr fun hlast' hcentury => ?_⟩
    obtain ⟨k, _⟩ : ∃ k, yoe = 100 * k + 99 := ⟨d, by omega⟩
    omega

/-- The first of March of a year. -/
theorem yearStart_march (year : ℤ) :
    yearStart (year + 1) = 365 * year + year / 4 - year / 100 + year / 400 - 719162 := by
  rw [yearStart, add_sub_cancel_right]

/-- **A date found is in its year.** -/
theorem civilDate_year (days : ℤ) :
    yearStart (civilDate days).1 ≤ days ∧ days < yearStart ((civilDate days).1 + 1) := by
  have hdoe : 0 ≤ days + 719468 - (days + 719468) / 146097 * 146097 ∧
      days + 719468 - (days + 719468) / 146097 * 146097 < 146097 := by omega
  obtain ⟨_, _, _, _, -⟩ := doy_bounds hdoe rfl rfl rfl rfl rfl rfl
  unfold civilDate
  dsimp only
  generalize hera : (days + 719468) / 146097 = era at *
  generalize hdays : days + 719468 - era * 146097 = doe at *
  generalize (doe - doe / 1460 + doe / 36524 - doe / 146096) / 365 = yoe at *
  generalize hday : doe - (365 * yoe + yoe / 4 - yoe / 100) = doy at *
  have hmarch : yearStart (yoe + era * 400 + 1) = days - doy + 306 := by
    have hfour : (yoe + era * 400) / 4 = yoe / 4 + era * 100 := by omega
    have hcentury : (yoe + era * 400) / 100 = yoe / 100 + era * 4 := by omega
    have hcycle : (yoe + era * 400) / 400 = era := by omega
    rw [yearStart_march, hfour, hcentury, hcycle]
    omega
  by_cases hspring : doy ≤ 305
  · have hmp : (5 * doy + 2) / 153 < 10 := by omega
    have hmonth : ¬ ((5 * doy + 2) / 153 + 3 ≤ 2) := by omega
    have hbefore := yearStart_mono (show yoe + era * 400 ≤ yoe + era * 400 + 1 by omega)
    simp only [if_pos hmp, if_neg hmonth, add_zero]
    constructor <;> omega
  · have hmp : ¬ (5 * doy + 2) / 153 < 10 := by omega
    have hmonth : (5 * doy + 2) / 153 + -9 ≤ 2 := by omega
    have hafter := yearStart_mono (show yoe + era * 400 + 1 ≤ yoe + era * 400 + 1 + 1 by omega)
    simp only [if_neg hmp, if_pos hmonth]
    constructor <;> omega

/-- **A date found exists**, and has the days it was found for. -/
theorem civilDate_valid (days : ℤ) :
    Valid (civilDate days).1 (civilDate days).2.1 (civilDate days).2.2 ∧
      dayNumber (civilDate days).1 (civilDate days).2.1 (civilDate days).2.2 = days := by
  have hdoe : 0 ≤ days + 719468 - (days + 719468) / 146097 * 146097 ∧
      days + 719468 - (days + 719468) / 146097 * 146097 < 146097 := by omega
  obtain ⟨_, _, _, _, _⟩ := doy_bounds hdoe rfl rfl rfl rfl rfl rfl
  unfold civilDate
  dsimp only
  generalize hera : (days + 719468) / 146097 = era at *
  generalize hdays : days + 719468 - era * 146097 = doe at *
  generalize (doe - doe / 1460 + doe / 36524 - doe / 146096) / 365 = yoe at *
  generalize hday : doe - (365 * yoe + yoe / 4 - yoe / 100) = doy at *
  generalize hmp : (5 * doy + 2) / 153 = mp
  have hmonths : 0 ≤ mp ∧ mp ≤ 11 := by omega
  have hinYear : 1 ≤ mp + (if mp < 10 then 3 else -9) ∧ mp + (if mp < 10 then 3 else -9) ≤ 12 := by
    split_ifs <;> constructor <;> omega
  refine ⟨⟨hinYear, by omega, ?_⟩, ?_⟩
  · unfold monthLength Leap
    obtain ⟨_, _⟩ := hmonths
    interval_cases mp <;> norm_num <;> (try split_ifs) <;> omega
  · rw [← daysFromCivil_eq _ hinYear]
    have hcycle : (yoe + era * 400) / 400 = era := by omega
    have hback : mp + (if mp < 10 then 3 else -9) +
        (if 2 < mp + (if mp < 10 then 3 else -9) then -3 else 9) = mp := by
      split_ifs <;> omega
    unfold daysFromCivil
    dsimp only
    rw [add_sub_cancel_right, hcycle, add_sub_cancel_right, hback]
    omega

end Ferret.Find
