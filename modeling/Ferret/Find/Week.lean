import Ferret.Find.Calendar

/-!
# Printed dates

A printed time works out its date on its own, and with it the day of the year,
the day of the week and the week that ISO 8601 counts: weeks start on Monday and
belong to the year that their Thursday is in.
-/

namespace Ferret.Find

open Gregorian

/-- The year of a day as the date operands work it out, on their own too. -/
def civilYearOf (days : ℤ) : ℤ :=
  let z := days + 719468
  let era := z / 146097
  let doe := z - era * 146097
  let yoe := (doe - doe / 1460 + doe / 36524 - doe / 146096) / 365
  let doy := doe - (365 * yoe + yoe / 4 - yoe / 100)
  let mp := (5 * doy + 2) / 153
  let month := mp + if mp < 10 then 3 else -9
  yoe + era * 400 + if month ≤ 2 then 1 else 0

namespace Printf

/-- A time as it is printed. Days of the week count from Sunday. -/
structure Date where
  year : ℤ
  month : ℤ
  day : ℤ
  hour : ℤ
  minute : ℤ
  second : ℤ
  weekday : ℤ
  ordinal : ℤ

def Date.new (seconds : ℤ) : Date :=
  let days := seconds / 86400
  let remainder := seconds % 86400
  let z := days + 719468
  let era := z / 146097
  let doe := z - era * 146097
  let yoe := (doe - doe / 1460 + doe / 36524 - doe / 146096) / 365
  let doy := doe - (365 * yoe + yoe / 4 - yoe / 100)
  let mp := (5 * doy + 2) / 153
  let day := doy - (153 * mp + 2) / 5 + 1
  let month := mp + if mp < 10 then 3 else -9
  let year := yoe + era * 400 + if month ≤ 2 then 1 else 0
  { year, month, day
    hour := remainder / 3600
    minute := remainder / 60 % 60
    second := remainder % 60
    weekday := (days + 4) % 7
    ordinal := [0, 31, 59, 90, 120, 151, 181, 212, 243, 273, 304, 334].getD (month - 1).toNat 0 +
      day + if 2 < month ∧ Leap year then 1 else 0 }

/-- How many weeks a year has that starts on that day of the week. -/
def weeks (weekday year : ℤ) : ℤ := if weekday = 4 ∨ (weekday = 3 ∧ Leap year) then 53 else 52

def iso_week (d : Date) : ℤ × ℤ :=
  let weekday := (d.weekday + 6) % 7 + 1
  let week := (d.ordinal + 10 - weekday) / 7
  let jan_weekday := (d.weekday - d.ordinal + 1) % 7
  if week = 0 then
    let previous := d.year - 1
    (previous, weeks ((jan_weekday - if Leap previous then 2 else 1) % 7) previous)
  else if weeks jan_weekday d.year < week then (d.year + 1, 1)
  else (d.year, week)

/-- The table of days holds those before each month. -/
theorem table_eq (year : ℤ) {month : ℤ} (h : 1 ≤ month ∧ month ≤ 12) (day : ℤ) :
    [0, 31, 59, 90, 120, 151, 181, 212, 243, 273, 304, 334].getD (month - 1).toNat 0 + day +
      (if 2 < month ∧ Leap year then 1 else 0) = daysBefore year month + day := by
  obtain ⟨_, _⟩ := h
  unfold daysBefore
  interval_cases month <;> by_cases hleap : Leap year <;> simp [hleap] <;> omega

theorem Date.new_ordinal (seconds : ℤ) :
    (new seconds).ordinal = seconds / 86400 - yearStart (new seconds).year + 1 := by
  obtain ⟨hvalid, hdays⟩ := civilDate_valid (seconds / 86400)
  have htable := table_eq (new seconds).year hvalid.inYear (new seconds).day
  unfold dayNumber monthStart at hdays
  change (new seconds).ordinal = daysBefore (new seconds).year (new seconds).month + _ at htable
  change yearStart (new seconds).year + daysBefore (new seconds).year (new seconds).month +
    ((new seconds).day - 1) = _ at hdays
  omega

/-- The week as the place of its Thursday in the year, which may fall before the year or after. -/
theorem iso_week_eq {d : Date} (ho : 1 ≤ d.ordinal) {k : ℤ} (hk : 0 ≤ k ∧ k < 7)
    (hd : d.weekday = (k + 1) % 7) {x : ℤ} (hx : x = d.ordinal + 2 - k) :
    iso_week d = if x < 0 then
        (d.year - 1, weeks ((4 - x - if Leap (d.year - 1) then 2 else 1) % 7) (d.year - 1))
      else if weeks ((4 - x) % 7) d.year < x / 7 + 1 then (d.year + 1, 1)
      else (d.year, x / 7 + 1) := by
  have hweek : (d.ordinal + 10 - ((d.weekday + 6) % 7 + 1)) / 7 = x / 7 + 1 := by omega
  have hjan : (d.weekday - d.ordinal + 1) % 7 = (4 - x) % 7 := by omega
  have hzero : x / 7 + 1 = 0 ↔ x < 0 := by omega
  unfold iso_week
  dsimp only
  simp only [hweek, hjan, hzero, Int.emod_sub_emod]

/-- **The week of a day is that of its Thursday.** -/
theorem iso_week_thursday (seconds : ℤ) :
    let thursday := seconds / 86400 - (seconds / 86400 + 3) % 7 + 3
    let w := iso_week (Date.new seconds)
    yearStart w.1 ≤ thursday ∧ thursday < yearStart (w.1 + 1) ∧
      w.2 = (thursday - yearStart w.1) / 7 + 1 := by
  intro thursday w
  have hordinal := Date.new_ordinal seconds
  obtain ⟨hlow, hhigh⟩ : yearStart (Date.new seconds).year ≤ seconds / 86400 ∧
      seconds / 86400 < yearStart ((Date.new seconds).year + 1) := civilDate_year _
  obtain ⟨x, hx⟩ : ∃ x, x = thursday - yearStart (Date.new seconds).year := ⟨_, rfl⟩
  have hw : w = _ := iso_week_eq (d := Date.new seconds) (x := x) (by omega)
    (k := (seconds / 86400 + 3) % 7) (by omega) (show (seconds / 86400 + 4) % 7 = _ by omega)
    (by omega)
  have hthis := yearStart_succ (Date.new seconds).year
  have hprevious := yearStart_succ ((Date.new seconds).year - 1)
  rw [sub_add_cancel] at hprevious
  have hnext := yearStart_mono (show (Date.new seconds).year + 1 ≤ (Date.new seconds).year + 1 + 1
    by omega)
  have hbounds : -3 ≤ x ∧ x < yearLength (Date.new seconds).year + 3 := by omega
  have hthursday : thursday = x + yearStart (Date.new seconds).year := by omega
  rw [hw]
  clear_value thursday w
  clear hw hordinal hlow hhigh hx
  generalize (Date.new seconds).year = y at *
  unfold weeks yearLength at *
  by_cases hleap : Leap y <;>
    by_cases hleap' : Leap (y - 1) <;>
    simp only [hleap, hleap', if_true, if_false, and_true, and_false, or_false] at * <;>
    split_ifs <;> dsimp only <;> (try rw [sub_add_cancel]) <;> omega

/-- **The calendar, its copies and the weeks.** -/
theorem civilDate_exact :
    (∀ days, let t := civilDate days
      Valid t.1 t.2.1 t.2.2 ∧ daysFromCivil t.1 t.2.1 t.2.2 = days ∧
        civilDate (days + 1) = tomorrow t.1 t.2.1 t.2.2 ∧ civilYearOf days = t.1) ∧
    (∀ year month day, Valid year month day →
      civilDate (daysFromCivil year month day) = (year, month, day)) ∧
    (Date.new 0).weekday = 4 ∧
    ∀ seconds, let days := seconds / 86400
      let d := Date.new seconds
      (d.year, d.month, d.day) = civilDate days ∧ d.ordinal = days - yearStart d.year + 1 ∧
        (Date.new (seconds + 86400)).weekday = (d.weekday + 1) % 7 ∧
        let thursday := days - (days + 3) % 7 + 3
        let w := iso_week d
        yearStart w.1 ≤ thursday ∧ thursday < yearStart (w.1 + 1) ∧
          w.2 = (thursday - yearStart w.1) / 7 + 1 := by
  refine ⟨fun days => ?_, fun year month day h => ?_, rfl, fun seconds => ?_⟩
  · obtain ⟨hvalid, hdays⟩ := civilDate_valid days
    obtain ⟨y, m, d, htomorrow, hvalid', hdays'⟩ := hvalid.exists_tomorrow
    refine ⟨hvalid, (daysFromCivil_eq _ hvalid.inYear _).trans hdays, ?_, rfl⟩
    rw [htomorrow]
    obtain ⟨hnext, hnextDays⟩ := civilDate_valid (days + 1)
    exact hnext.unique hvalid' (hnextDays.trans (by rw [hdays', hdays]))
  · obtain ⟨hvalid, hdays⟩ := civilDate_valid (daysFromCivil year month day)
    exact hvalid.unique h (hdays.trans (daysFromCivil_eq year h.inYear day))
  · refine ⟨rfl, Date.new_ordinal seconds, ?_, iso_week_thursday seconds⟩
    show ((seconds + 86400) / 86400 + 4) % 7 = ((seconds / 86400 + 4) % 7 + 1) % 7
    omega

end Printf
end Ferret.Find
