import Ferret.Find.Calendar

/-!
# POSIX time zone rules

A rule string names the standard time and its offset, and daylight saving time
with the rules that start and end it in every year. What the rules come to in a
year is an instant, which may be some days before the year or after it, since
the clock of a rule is a signed number of hours up to 167.

Offsets are seconds east of Greenwich; the strings count them the other way.
-/

namespace Ferret.Find.TimeZone

open Option

abbrev Text := List UInt8

structure Offset where
  seconds : ℤ
  name : Text
  daylight : Bool
deriving DecidableEq

/-- The day of a year a rule is about. -/
inductive Day
  /-- A day from 1 to 365, the leap day not counted. -/
  | julian (day : ℕ)
  /-- A day from 0 on. -/
  | ordinal (day : ℕ)
  /-- A weekday of a week of a month; the fifth week is the last. -/
  | month (month week weekday : ℕ)
deriving DecidableEq

structure Rule where
  day : Day
  seconds : ℤ
deriving DecidableEq

structure Posix where
  standard : Offset
  /-- Daylight saving time, and the rules that start and end it. -/
  daylight : Option (Offset × Rule × Rule)
deriving DecidableEq

/-! ## Parsing -/

def isDigit (b : UInt8) : Bool := 48 ≤ b && b ≤ 57

def isAlphabetic (b : UInt8) : Bool := (65 ≤ b && b ≤ 90) || (97 ≤ b && b ≤ 122)

/-- The value of decimal digits. -/
def decimal (digits : Text) : ℕ := digits.foldl (fun n b => 10 * n + (b.toNat - 48)) 0

def byte (b : UInt8) (text : Text) : Option Text :=
  if text.head? = some b then some text.tail else none

/-- A number of at most `max`, which first of all is one of 16 bits. -/
def number (max : ℕ) (text : Text) : Option (ℕ × Text) :=
  let digits := text.takeWhile isDigit
  if digits = [] then none
  else if 65536 ≤ decimal digits then none
  else if max < decimal digits then none
  else some (decimal digits, text.drop digits.length)

/-- A name of three characters or more; in `<>` it may have digits and signs. -/
def name (text : Text) : Option (Text × Text) :=
  let quoted := text.head? = some 60
  let rest := if quoted then text.tail else text
  let chars := rest.takeWhile fun b =>
    isAlphabetic b || (decide quoted && (isDigit b || b == 43 || b == 45))
  if chars.length < 3 then none
  else if quoted then (byte 62 (rest.drop chars.length)).map fun rest => (chars, rest)
  else some (chars, rest.drop chars.length)

/-- A sign, if there is one. -/
def sign : Text → ℤ × Text
  | 45 :: rest => (-1, rest)
  | 43 :: rest => (1, rest)
  | text => (1, text)

/-- What follows a colon, if there is one. -/
def sixtieth (text : Text) : Option (ℕ × Text) :=
  if text.head? = some 58 then number 59 text.tail else some (0, text)

/-- A signed time of day, in seconds. -/
def clock (maxHour : ℕ) (text : Text) : Option (ℤ × Text) := do
  let hours ← number maxHour (sign text).2
  let minutes ← sixtieth hours.2
  -- without a colon after the hours there is none here
  let seconds ← sixtieth minutes.2
  return ((sign text).1 * (hours.1 * 3600 + minutes.1 * 60 + seconds.1), seconds.2)

/-- The day a rule names. -/
def day (text : Text) : Option (Day × Text) := do
  let first ← text.head?
  if first = 77 then
    let month ← number 12 text.tail
    let rest ← byte 46 month.2
    let week ← number 5 rest
    let rest ← byte 46 week.2
    let weekday ← number 6 rest
    if month.1 = 0 ∨ week.1 = 0 then none
    else return (.month month.1 week.1 weekday.1, weekday.2)
  else if first = 74 then
    let day ← number 365 text.tail
    if day.1 = 0 then none else return (.julian day.1, day.2)
  else
    let day ← number 365 text
    return (.ordinal day.1, day.2)

/-- The time of day of a rule, two o'clock if none is given. -/
def time (text : Text) : Option (ℤ × Text) :=
  if text.head? = some 47 then clock 167 text.tail else some (7200, text)

def rule (text : Text) : Option (Rule × Text) := do
  let day ← day text
  let seconds ← time day.2
  return (⟨day.1, seconds.1⟩, seconds.2)

/-- The offset of daylight saving time, an hour ahead if none is given. -/
def ahead (standard : ℤ) (text : Text) : Option (ℤ × Text) :=
  if text.head? ≠ some 44 ∧ text ≠ [] then (clock 24 text).map fun read => (-read.1, read.2)
  else some (standard + 3600, text)

/-- The rules of daylight saving time, those of the United States if none are
given. -/
def rules (text : Text) : Option (Rule × Rule × Text) :=
  if text = [] then some (⟨.month 3 2 0, 7200⟩, ⟨.month 11 1 0, 7200⟩, [])
  else do
    let rest ← byte 44 text
    let start ← rule rest
    let rest ← byte 44 start.2
    let stop ← rule rest
    return (start.1, stop.1, stop.2)

def Posix.parse (text : Text) : Option Posix := do
  let standardName ← name text
  let standardClock ← clock 24 standardName.2
  let standard : Offset := ⟨-standardClock.1, standardName.1, false⟩
  if standardClock.2 = [] then return ⟨standard, none⟩
  else
    let daylightName ← name standardClock.2
    let seconds ← ahead standard.seconds daylightName.2
    let found ← rules seconds.2
    if found.2.2 = [] then
      return ⟨standard, some (⟨seconds.1, daylightName.1, true⟩, found.1, found.2.1)⟩
    else none

/-! ## Instants -/

/-- The day of a year a rule comes to, from 0 on. -/
def Day.ordinalIn (year : ℤ) : Day → ℤ
  | ordinal day => day
  | julian day =>
    let leap := year % 4 = 0 ∧ (year % 100 ≠ 0 ∨ year % 400 = 0)
    day - 1 + if leap ∧ 60 ≤ day then 1 else 0
  | month m week weekday =>
    let first := daysFromCivil year m 1
    let firstWeekday := (first + 4) % 7
    let day : ℤ := 1 + (weekday - firstWeekday) % 7 + 7 * (week - 1)
    let next := if m = 12 then daysFromCivil (year + 1) 1 1 else daysFromCivil year (m + 1) 1
    let day := if next < first + day then day - 7 else day
    first + day - 1 - daysFromCivil year 1 1

/-- The clock of the rule in a year, as if there were no offset. -/
def Rule.at (rule : Rule) (year : ℤ) : ℤ :=
  (daysFromCivil year 1 1 + rule.day.ordinalIn year) * 86400 + rule.seconds

/-- No instant a rule comes to is as early. -/
def i128Min : ℤ := -170141183460469231731687303715884105728

/-- The later of what was found and a transition, if that is not after `stamp`. -/
def later (stamp : ℤ) (last transition : ℤ × Offset) : ℤ × Offset :=
  if transition.1 ≤ stamp ∧ last.1 ≤ transition.1 then transition else last

/-- The start and the end of daylight saving time in a year, with what follows. -/
def transitions (standard daylight : Offset) (start stop : Rule) (year : ℤ) : List (ℤ × Offset) :=
  [(start.at year - standard.seconds, daylight), (stop.at year - daylight.seconds, standard)]

/-- The offset after the last transition of the adjoining years. -/
def Posix.at (posix : Posix) (stamp : ℤ) : Offset :=
  match posix.daylight with
  | none => posix.standard
  | some (daylight, start, stop) =>
    let year := (civilDate (stamp / 86400)).1
    (([year - 1, year, year + 1].flatMap (transitions posix.standard daylight start stop)).foldl
      (later stamp) (i128Min, posix.standard)).2

def Posix.offsets (posix : Posix) : List Offset :=
  posix.standard :: (posix.daylight.map fun d => d.1).toList

/-! ## What is parsed -/

/-- A day as it is parsed. -/
def Day.Valid : Day → Prop
  | julian day => 1 ≤ day ∧ day ≤ 365
  | ordinal day => day ≤ 365
  | month m week weekday => (1 ≤ m ∧ m ≤ 12) ∧ (1 ≤ week ∧ week ≤ 5) ∧ weekday ≤ 6

/-- A rule as it is parsed. -/
structure Rule.Valid (rule : Rule) : Prop where
  day : rule.day.Valid
  seconds : -604800 < rule.seconds ∧ rule.seconds < 604800

/-- Rules as they are parsed: clocks within a week, offsets around a day. -/
structure Posix.Valid (posix : Posix) : Prop where
  standard : posix.standard.daylight = false ∧
    -90000 < posix.standard.seconds ∧ posix.standard.seconds < 90000
  daylight : ∀ daylight start stop, posix.daylight = some (daylight, start, stop) →
    daylight.daylight = true ∧ (-93600 < daylight.seconds ∧ daylight.seconds < 93600) ∧
      start.Valid ∧ stop.Valid

variable {text : Text}

theorem number_le {max : ℕ} {read : ℕ × Text} (h : number max text = some read) :
    read.1 ≤ max := by
  unfold number at h
  dsimp only at h
  split_ifs at h with _ _ hmax
  cases h
  exact not_lt.mp hmax

theorem sixtieth_lt {read : ℕ × Text} (h : sixtieth text = some read) :
    read.1 < 60 := by
  unfold sixtieth at h
  split_ifs at h
  · exact Nat.lt_succ_of_le (number_le h)
  · cases h
    exact Nat.succ_pos 59

theorem sign_eq (text : Text) : (sign text).1 = 1 ∨ (sign text).1 = -1 := by
  unfold sign
  split
  · exact .inr rfl
  all_goals exact .inl rfl

theorem clock_bounds {maxHour : ℕ} {read : ℤ × Text} (h : clock maxHour text = some read) :
    -(3600 * (maxHour + 1) : ℤ) < read.1 ∧ read.1 < 3600 * (maxHour + 1) := by
  obtain ⟨_, hhours, h⟩ := bind_eq_some_iff.mp h
  obtain ⟨_, hminutes, h⟩ := bind_eq_some_iff.mp h
  obtain ⟨_, hseconds, h⟩ := bind_eq_some_iff.mp h
  cases h
  have hh := number_le hhours
  have hm := sixtieth_lt hminutes
  have hs := sixtieth_lt hseconds
  obtain hsign | hsign := sign_eq text <;> rw [hsign] <;> constructor <;> omega

theorem day_valid {read : Day × Text} (h : day text = some read) : read.1.Valid := by
  obtain ⟨_, -, h⟩ := bind_eq_some_iff.mp h
  split_ifs at h
  · obtain ⟨_, hmonth, h⟩ := bind_eq_some_iff.mp h
    obtain ⟨_, -, h⟩ := bind_eq_some_iff.mp h
    obtain ⟨_, hweek, h⟩ := bind_eq_some_iff.mp h
    obtain ⟨_, -, h⟩ := bind_eq_some_iff.mp h
    obtain ⟨_, hweekday, h⟩ := bind_eq_some_iff.mp h
    split_ifs at h with hzero
    cases h
    have := number_le hmonth
    have := number_le hweek
    exact ⟨⟨by omega, by omega⟩, ⟨by omega, by omega⟩, number_le hweekday⟩
  · obtain ⟨day, hday, h⟩ := bind_eq_some_iff.mp h
    split_ifs at h with hzero
    cases h
    exact ⟨Nat.pos_of_ne_zero hzero, number_le hday⟩
  · obtain ⟨day, hday, h⟩ := bind_eq_some_iff.mp h
    cases h
    show day.1 ≤ 365
    exact number_le hday

theorem rule_valid {read : Rule × Text} (h : rule text = some read) :
    read.1.Valid := by
  obtain ⟨_, hday, h⟩ := bind_eq_some_iff.mp h
  obtain ⟨seconds, hseconds, h⟩ := bind_eq_some_iff.mp h
  cases h
  refine ⟨day_valid hday, ?_⟩
  show -604800 < seconds.1 ∧ seconds.1 < 604800
  unfold time at hseconds
  split_ifs at hseconds
  · have := clock_bounds hseconds
    omega
  · cases hseconds
    omega

theorem rules_valid {found : Rule × Rule × Text} (h : rules text = some found) :
    found.1.Valid ∧ found.2.1.Valid := by
  unfold rules at h
  split_ifs at h
  · cases h
    exact ⟨⟨⟨by decide, by decide, by decide⟩, by decide, by decide⟩,
      ⟨⟨by decide, by decide, by decide⟩, by decide, by decide⟩⟩
  · obtain ⟨_, -, h⟩ := bind_eq_some_iff.mp h
    obtain ⟨_, hstart, h⟩ := bind_eq_some_iff.mp h
    obtain ⟨_, -, h⟩ := bind_eq_some_iff.mp h
    obtain ⟨_, hstop, h⟩ := bind_eq_some_iff.mp h
    cases h
    exact ⟨rule_valid hstart, rule_valid hstop⟩

/-- **What is parsed is valid.** -/
theorem parse_valid {posix : Posix} (h : Posix.parse text = some posix) :
    posix.Valid := by
  obtain ⟨_, -, h⟩ := bind_eq_some_iff.mp h
  obtain ⟨_, hstandard, h⟩ := bind_eq_some_iff.mp h
  have hclock := clock_bounds hstandard
  split_ifs at h
  · cases h
    refine ⟨⟨rfl, by dsimp only; omega, by dsimp only; omega⟩, ?_⟩
    rintro _ _ _ ⟨⟩
  · obtain ⟨_, -, h⟩ := bind_eq_some_iff.mp h
    obtain ⟨_, hseconds, h⟩ := bind_eq_some_iff.mp h
    obtain ⟨_, hfound, h⟩ := bind_eq_some_iff.mp h
    split_ifs at h
    cases h
    refine ⟨⟨rfl, by dsimp only; omega, by dsimp only; omega⟩, ?_⟩
    rintro _ _ _ ⟨⟩
    refine ⟨rfl, ?_, rules_valid hfound⟩
    unfold ahead at hseconds
    split_ifs at hseconds
    · obtain ⟨_, hread, rfl⟩ := map_eq_some_iff.mp hseconds
      have := clock_bounds hread
      exact ⟨by dsimp only; omega, by dsimp only; omega⟩
    · cases hseconds
      exact ⟨by dsimp only; omega, by dsimp only; omega⟩

end Ferret.Find.TimeZone
