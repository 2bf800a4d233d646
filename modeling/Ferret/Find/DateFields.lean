import Ferret.Find.Date
import Ferret.Find.ZoneLookup

/-!
# The fields of a calendar form

A calendar form has the fields of a day, a time of day and an offset. What it is
parsed as is the instant of these, unless a number on the way is out of range,
and which these are can be read off the fields (`absolute_outcome`).
-/

namespace Ferret.Find.Date

open TimeZone Option

variable {now : ℤ} {zone : Zone}

/-! ## Fields -/

/-- What a calendar form says. -/
structure Fields where
  day : Day
  clock : Clock
  offset : ℤ

namespace Fields

def midnight (f : Fields) : ℤ := Gregorian.dayNumber f.day.year f.day.month f.day.day * 86400

/-- The instant, or the wall clock if there is no offset. -/
def instant (f : Fields) : ℤ :=
  f.midnight + f.clock.hour * 3600 + f.clock.minute * 60 + f.clock.second - f.offset

/-- A day that exists, and a time of day; seconds may be leap seconds. -/
structure Exist (f : Fields) : Prop where
  day : Gregorian.Valid f.day.year f.day.month f.day.day
  hour : 0 ≤ f.clock.hour ∧ f.clock.hour ≤ 23
  minute : 0 ≤ f.clock.minute ∧ f.clock.minute ≤ 59
  second : 0 ≤ f.clock.second ∧ f.clock.second ≤ 60

end Fields

/-- A time of day after `Y-M-D`, as far as it is checked. -/
def numericClock (time : Chars) : Option Clock := do
  let clock ← readClock time
  if 23 < clock.1.hour ∨ 59 < clock.1.minute ∨ 60 < clock.1.second ∨ clock.2 = true then none
  else return clock.1

def namedClock (time : Chars) : Option Clock := (readClock time).map fun clock => clock.1

/-- The fields of a day with a time of day or without. -/
def dayFields (clockOf : Chars → Option Clock) (day : Day × Option Chars) : Option Fields :=
  day.2.elim (some ⟨day.1, ⟨0, 0, 0⟩, 0⟩) fun time =>
    (clockOf time).map fun clock => ⟨day.1, clock, 0⟩

def numericFields (value : Chars) : Option Fields := (readDay value).bind (dayFields numericClock)

/-- The year after the day, or else that of the run; and the time of day. -/
def readYear (now : ℤ) (zone : Zone) (comma : Bool) (tail : Chars) : Option (ℤ × Option Chars) :=
  if comma then do
    let year ← i64Of (← (splitWhitespace tail)[0]?)
    return (year, (splitWhitespace tail)[1]?)
  else do
    let wall ← zone.wall now
    return ((civilDate (wall / 86400)).1, some (trim tail))

/-- The day after the name of a month, and the time of day. -/
def readNamed (now : ℤ) (zone : Zone) (word rest : Chars) : Option (Day × Option Chars) := do
  let month ← readMonth word rest
  let year ← readYear now zone (decide (',' ∈ trimStart rest)) month.2.2
  return (⟨year.1, month.1, month.2.1⟩, year.2)

def namedFields (now : ℤ) (zone : Zone) (word rest : Chars) : Option Fields :=
  (readNamed now zone word rest).bind (dayFields namedClock)

def plainFields (now : ℤ) (zone : Zone) (value : Chars) : Option Fields :=
  (monthWord value).elim (numericFields value) fun p => namedFields now zone p.1 p.2

/-- No offset is one of nothing. -/
def readOffsetOf (text : Option Chars) : Option (ℤ × ℤ × ℤ) := text.elim (some (1, 0, 0)) readOffset

def fields (now : ℤ) (zone : Zone) : ℕ → Chars → Option Fields
  | 0, value => plainFields now zone value
  | n + 1, value => (splitOnce 'T' value).elim (plainFields now zone value) fun split => do
    let f ← fields now zone n (spaced split.1 split.2)
    let offset ← readOffsetOf (offsetOf split.2)
    return { f with offset := f.offset + offset.1 * (offset.2.1 * 3600 + offset.2.2 * 60) }

/-! ## What fits -/

/-- The days of a date count in 64 bits, from the era of 400 years it is in, from
the first of March of year zero, and from 1970. -/
def Day.Fits (day : Day) : Prop :=
  IsStamp ((day.year - if day.month ≤ 2 then 1 else 0) / 400 * 146097) ∧
    IsStamp (daysFromCivil day.year day.month day.day + 719468) ∧
    IsStamp (daysFromCivil day.year day.month day.day)

instance (day : Day) : Decidable day.Fits := inferInstanceAs (Decidable (_ ∧ _ ∧ _))

def Day.midnight (day : Day) : ℤ := daysFromCivil day.year day.month day.day * 86400

/-- The sums of `numeric`. -/
def Clock.Fits (midnight : ℤ) (clock : Clock) : Prop :=
  IsStamp (clock.hour * 3600) ∧ IsStamp (clock.minute * 60) ∧
    IsStamp (clock.hour * 3600 + clock.minute * 60) ∧
    IsStamp (clock.hour * 3600 + clock.minute * 60 + clock.second) ∧
    IsStamp (midnight + (clock.hour * 3600 + clock.minute * 60 + clock.second))

instance (midnight : ℤ) (clock : Clock) : Decidable (clock.Fits midnight) :=
  inferInstanceAs (Decidable (_ ∧ _ ∧ _ ∧ _ ∧ _))

/-- The sums of `named`. -/
def Clock.FitsNamed (midnight : ℤ) (clock : Clock) : Prop :=
  IsStamp (clock.hour * 3600) ∧ IsStamp (midnight + clock.hour * 3600) ∧
    IsStamp (clock.minute * 60) ∧ IsStamp (midnight + clock.hour * 3600 + clock.minute * 60) ∧
    IsStamp (midnight + clock.hour * 3600 + clock.minute * 60 + clock.second)

def OffsetFits (base : ℤ) (offset : ℤ × ℤ × ℤ) : Prop :=
  IsStamp (offset.2.1 * 3600) ∧ IsStamp (offset.2.2 * 60) ∧
    IsStamp (offset.2.1 * 3600 + offset.2.2 * 60) ∧
    IsStamp (offset.1 * (offset.2.1 * 3600 + offset.2.2 * 60)) ∧
    IsStamp (base - offset.1 * (offset.2.1 * 3600 + offset.2.2 * 60))

instance (base : ℤ) (offset : ℤ × ℤ × ℤ) : Decidable (OffsetFits base offset) :=
  inferInstanceAs (Decidable (_ ∧ _ ∧ _ ∧ _ ∧ _))

def NumericTimeFits (midnight : ℤ) (time : Chars) : Prop :=
  ∀ clock, readClock time = some clock → clock.1.hour ≤ 23 → clock.1.minute ≤ 59 →
    clock.1.second ≤ 60 → clock.1.Fits midnight

def NamedTimeFits (midnight : ℤ) (time : Chars) : Prop :=
  ∀ clock, readClock time = some clock → clock.1.FitsNamed midnight

/-- A day fits, and with it a time of day, unless the day is refused as too far. -/
def DayFits (timeFits : ℤ → Chars → Prop) (day : Day × Option Chars) : Prop :=
  day.1.Fits ∧ (IsStamp day.1.midnight → ∀ time, day.2 = some time → timeFits day.1.midnight time)

def NumericFits (value : Chars) : Prop :=
  ∀ day, readDay value = some day → DayFits NumericTimeFits day

def NamedFits (now : ℤ) (zone : Zone) (word rest : Chars) : Prop :=
  ∀ day, readNamed now zone word rest = some day → DayFits NamedTimeFits day

def PlainFits (now : ℤ) (zone : Zone) (value : Chars) : Prop :=
  (monthWord value).elim (NumericFits value) fun p => NamedFits now zone p.1 p.2

def Fits (now : ℤ) (zone : Zone) : ℕ → Chars → Prop
  | 0, value => PlainFits now zone value
  | n + 1, value => (splitOnce 'T' value).elim (PlainFits now zone value) fun split =>
    Fits now zone n (spaced split.1 split.2) ∧
      ∀ f offset, fields now zone n (spaced split.1 split.2) = some f → IsStamp f.midnight →
        readOffsetOf (offsetOf split.2) = some offset → OffsetFits f.instant offset

/-! ## What is parsed -/

/-- A result is that of the fields if what is computed fits, and else an overflow. -/
structure Outcome (fits : Prop) (f : Option Fields) (result : Except Stop ℤ) : Prop where
  fit : fits → result = read (f.bind fun f => (checked f.midnight).map fun _ => f.instant)
  overflow : ¬ fits → result = .error .overflow

theorem arith_pos {n : ℤ} (h : IsStamp n) : arith n = .ok n := if_pos h

theorem arith_neg {n : ℤ} (h : ¬ IsStamp n) : arith n = .error .overflow := if_neg h

/-- A step of arithmetic: it fits, or the whole overflows. -/
theorem arith_bind {α : Type} (n : ℤ) (f : ℤ → Except Stop α) :
    (arith n >>= f) = if IsStamp n then f n else .error .overflow := by
  unfold arith
  split_ifs
  · rfl
  · rfl

/-- **The days of a date are computed** if they fit. -/
theorem civilDays_eq (day : Day) : civilDays day.year day.month day.day
    = if day.Fits then .ok (daysFromCivil day.year day.month day.day) else .error .overflow := by
  have hdays : daysFromCivil day.year day.month day.day + 719468
      = (day.year - if day.month ≤ 2 then 1 else 0) / 400 * 146097 +
        (((day.year - if day.month ≤ 2 then 1 else 0) -
            (day.year - if day.month ≤ 2 then 1 else 0) / 400 * 400) * 365 +
          ((day.year - if day.month ≤ 2 then 1 else 0) -
            (day.year - if day.month ≤ 2 then 1 else 0) / 400 * 400) / 4 -
          ((day.year - if day.month ≤ 2 then 1 else 0) -
            (day.year - if day.month ≤ 2 then 1 else 0) / 400 * 400) / 100 +
          ((153 * (day.month + if 2 < day.month then -3 else 9) + 2) / 5 + day.day - 1)) :=
    sub_add_cancel _ _
  have hcycle : IsStamp ((day.year - if day.month ≤ 2 then 1 else 0) / 400 * 146097) →
      IsStamp (day.year - if day.month ≤ 2 then 1 else 0) ∧
      IsStamp ((day.year - if day.month ≤ 2 then 1 else 0) / 400 * 400) := by
    generalize (day.year - if day.month ≤ 2 then 1 else 0) = year
    unfold IsStamp minStamp maxStamp
    omega
  unfold civilDays
  simp only [arith_bind]
  rw [← hdays, add_sub_cancel_right]
  by_cases hera : IsStamp ((day.year - if day.month ≤ 2 then 1 else 0) / 400 * 146097)
  · obtain ⟨hyear, hcycle⟩ := hcycle hera
    rw [if_pos hyear, if_pos hcycle, if_pos hera]
    by_cases hsum : IsStamp (daysFromCivil day.year day.month day.day + 719468)
    · rw [if_pos hsum]
      by_cases hlast : IsStamp (daysFromCivil day.year day.month day.day)
      · have hfits : day.Fits := ⟨hera, hsum, hlast⟩
        rw [arith_pos hlast, if_pos hfits]
      · have hfits : ¬ day.Fits := fun h => hlast h.2.2
        rw [arith_neg hlast, if_neg hfits]
    · have hfits : ¬ day.Fits := fun h => hsum h.2.1
      rw [if_neg hsum, if_neg hfits]
  · have hfits : ¬ day.Fits := fun h => hera h.1
    rw [if_neg hfits, if_neg hera, ite_self, ite_self]

theorem midnight_eq (day : Day) :
    midnight day = if day.Fits then read (checked day.midnight) else .error .overflow := by
  rw [midnight, civilDays_eq]
  split_ifs
  · rfl
  · rfl

/-- **The sums of a time of day** are computed if they fit. -/
theorem checked_pos {n : ℤ} (h : IsStamp n) : checked n = some n := if_pos h

theorem checked_neg {n : ℤ} (h : ¬ IsStamp n) : checked n = none := if_neg h

/-- The seconds of a clock after a midnight. -/
def Clock.after (midnight : ℤ) (clock : Clock) : ℤ :=
  midnight + clock.hour * 3600 + clock.minute * 60 + clock.second

/-- **A time of day is added** if the sums fit. -/
theorem numericTime_eq (midnight : ℤ) (time : Chars) :
    (NumericTimeFits midnight time →
      numericTime midnight time = read ((numericClock time).map (Clock.after midnight))) ∧
    (¬ NumericTimeFits midnight time → numericTime midnight time = .error .overflow) := by
  unfold NumericTimeFits numericTime numericClock
  cases readClock time with
  | none => exact ⟨fun _ => rfl, fun h => absurd nofun h⟩
  | some found =>
    obtain ⟨clock, more⟩ := found
    show (_ → (if 23 < clock.hour ∨ 59 < clock.minute ∨ 60 < clock.second then _ else _)
      = read (Option.map _ (if 23 < clock.hour ∨ 59 < clock.minute ∨ 60 < clock.second ∨ more = true
        then none else some clock))) ∧
      (_ → (if 23 < clock.hour ∨ 59 < clock.minute ∨ 60 < clock.second then _ else _) = _)
    by_cases hbad : 23 < clock.hour ∨ 59 < clock.minute ∨ 60 < clock.second
    · have hrefused : 23 < clock.hour ∨ 59 < clock.minute ∨ 60 < clock.second ∨ more = true := by
        tauto
      rw [if_pos hbad, if_pos hrefused]
      refine ⟨fun _ => rfl, fun h => absurd (fun _ heq => ?_) h⟩
      cases heq
      dsimp only
      omega
    · have hfits_iff : (∀ c, some (clock, more) = some c → c.1.hour ≤ 23 → c.1.minute ≤ 59 →
          c.1.second ≤ 60 → c.1.Fits midnight) ↔ clock.Fits midnight := by
        simp only [not_or, not_lt] at hbad
        refine ⟨fun h => h _ rfl hbad.1 hbad.2.1 hbad.2.2, ?_⟩
        rintro h _ ⟨⟩ - - -
        exact h
      rw [if_neg hbad, hfits_iff]
      simp only [arith_bind]
      constructor
      · rintro ⟨h₁, h₂, h₃, h₄, h₅⟩
        rw [if_pos h₁, if_pos h₂, if_pos h₃, if_pos h₄, if_pos h₅]
        cases more with
        | true =>
          rw [if_pos rfl, if_pos (Or.inr (Or.inr (Or.inr rfl)))]
          rfl
        | false =>
          have hkept : ¬ (23 < clock.hour ∨ 59 < clock.minute ∨ 60 < clock.second ∨
              false = true) := by
            simpa only [Bool.false_eq_true, or_false] using hbad
          rw [if_neg Bool.false_ne_true, if_neg hkept]
          show Except.ok _ = Except.ok (Clock.after midnight clock)
          rw [Clock.after, ← add_assoc, ← add_assoc]
      · intro hfits
        split_ifs with h₁ h₂ h₃ h₄ h₅
        all_goals first | rfl | exact absurd ⟨h₁, h₂, h₃, h₄, h₅⟩ hfits

theorem namedTime_eq (midnight : ℤ) (time : Chars) :
    (NamedTimeFits midnight time →
      namedTime midnight time = read ((namedClock time).map (Clock.after midnight))) ∧
    (¬ NamedTimeFits midnight time → namedTime midnight time = .error .overflow) := by
  unfold NamedTimeFits namedTime namedClock
  cases readClock time with
  | none => exact ⟨fun _ => rfl, fun h => absurd nofun h⟩
  | some found =>
    obtain ⟨clock, more⟩ := found
    have hfits_iff : (∀ c, some (clock, more) = some c → c.1.FitsNamed midnight)
        ↔ clock.FitsNamed midnight :=
      ⟨fun h => h _ rfl, fun h _ heq => by cases heq; exact h⟩
    rw [hfits_iff]
    show (_ → (arith (clock.hour * 3600) >>= _) = _) ∧ (_ → (arith (clock.hour * 3600) >>= _) = _)
    simp only [arith_bind]
    constructor
    · rintro ⟨h₁, h₂, h₃, h₄, h₅⟩
      rw [if_pos h₁, if_pos h₂, if_pos h₃, if_pos h₄, arith_pos h₅]
      rfl
    · intro hfits
      split_ifs with h₁ h₂ h₃ h₄
      · exact arith_neg fun h₅ => hfits ⟨h₁, h₂, h₃, h₄, h₅⟩
      all_goals rfl

theorem offset_sum (base : ℤ) (offset : ℤ × ℤ × ℤ) :
    (do
      let sum ← (do
        let hours ← arith (offset.2.1 * 3600)
        let minutes ← arith (offset.2.2 * 60)
        let sum ← arith (hours + minutes)
        arith (offset.1 * sum))
      arith (base - sum)) = if OffsetFits base offset then
        .ok (base - offset.1 * (offset.2.1 * 3600 + offset.2.2 * 60))
      else .error .overflow := by
  simp only [arith_bind]
  by_cases hfits : OffsetFits base offset
  · rw [if_pos hfits]
    obtain ⟨h₁, h₂, h₃, h₄, h₅⟩ := hfits
    rw [if_pos h₁, if_pos h₂, if_pos h₃, arith_bind, if_pos h₄, arith_pos h₅]
  · rw [if_neg hfits]
    split_ifs with h₁ h₂ h₃
    · rw [arith_bind]
      split_ifs with h₄
      · exact arith_neg fun h₅ => hfits ⟨h₁, h₂, h₃, h₄, h₅⟩
      · rfl
    all_goals rfl

/-- The midnight of a month that there is. -/
theorem Day.midnight_eq {day : Day} (h : 1 ≤ day.month ∧ day.month ≤ 12) :
    day.midnight = Gregorian.dayNumber day.year day.month day.day * 86400 := by
  rw [Day.midnight, daysFromCivil_eq day.year h]

theorem readDay_month {value : Chars} {day : Day × Option Chars} (h : readDay value = some day) :
    1 ≤ day.1.month ∧ day.1.month ≤ 12 := by
  obtain ⟨_, -, h⟩ := bind_eq_some_iff.mp h
  obtain ⟨_, -, h⟩ := bind_eq_some_iff.mp h
  obtain ⟨_, -, h⟩ := bind_eq_some_iff.mp h
  obtain ⟨month, -, h⟩ := bind_eq_some_iff.mp h
  obtain ⟨_, -, h⟩ := bind_eq_some_iff.mp h
  obtain ⟨_, -, h⟩ := bind_eq_some_iff.mp h
  split_ifs at h with hbad
  cases h
  obtain ⟨-, hbad⟩ := not_or.mp hbad
  obtain ⟨hmonth, -⟩ := not_or.mp hbad
  obtain ⟨_, _⟩ := not_not.mp hmonth
  show 1 ≤ (month : ℤ) ∧ (month : ℤ) ≤ 12
  omega

theorem readMonth_month {word rest : Chars} {found : ℤ × ℤ × Chars}
    (h : readMonth word rest = some found) : 1 ≤ found.1 ∧ found.1 ≤ 12 := by
  obtain ⟨month, hmonth, h⟩ := bind_eq_some_iff.mp h
  obtain ⟨_, -, h⟩ := bind_eq_some_iff.mp h
  obtain ⟨_, -, h⟩ := bind_eq_some_iff.mp h
  cases h
  have hlt : month < 12 := (List.findIdx?_eq_some_iff_findIdx_eq.mp hmonth).1
  show 1 ≤ (month : ℤ) + 1 ∧ (month : ℤ) + 1 ≤ 12
  omega

/-- The instant of fields without an offset. -/
theorem Fields.instant_eq {day : Day} (hmonth : 1 ≤ day.month ∧ day.month ≤ 12) (clock : Clock) :
    Fields.midnight ⟨day, clock, 0⟩ = day.midnight ∧
      Fields.instant ⟨day, clock, 0⟩ = clock.after day.midnight := by
  have hmidnight : Fields.midnight ⟨day, clock, 0⟩ = day.midnight := (Day.midnight_eq hmonth).symm
  refine ⟨hmidnight, ?_⟩
  rw [Fields.instant, hmidnight]
  exact sub_zero _

/-- What is read if the midnight is not too far. -/
theorem read_fields {f : Fields} (h : IsStamp f.midnight) :
    read ((some f).bind fun f => (checked f.midnight).map fun _ => f.instant) = .ok f.instant := by
  rw [bind_some, checked_pos h]
  rfl

/-- **A day with a time of day or without** is parsed as its fields if both fit. -/
theorem day_outcome {timeFits : ℤ → Chars → Prop} {timeOf : ℤ → Chars → Except Stop ℤ}
    {clockOf : Chars → Option Clock}
    (htime : ∀ midnight time, (timeFits midnight time →
        timeOf midnight time = read ((clockOf time).map (Clock.after midnight))) ∧
      (¬ timeFits midnight time → timeOf midnight time = .error .overflow))
    {day : Day × Option Chars} (hmonth : 1 ≤ day.1.month ∧ day.1.month ≤ 12) :
    Outcome (DayFits timeFits day) (dayFields clockOf day)
      (midnight day.1 >>= fun seconds => day.2.elim (.ok seconds) (timeOf seconds)) := by
  obtain ⟨day, time⟩ := day
  rw [midnight_eq]
  by_cases hday : day.Fits
  · rw [if_pos hday]
    by_cases hstamp : IsStamp day.midnight
    · rw [checked_pos hstamp]
      cases time with
      | none =>
        obtain ⟨hmidnight, hinstant⟩ := Fields.instant_eq hmonth ⟨0, 0, 0⟩
        refine ⟨fun _ => ?_, fun h => absurd ⟨hday, nofun⟩ h⟩
        show Except.ok day.midnight = read ((some _).bind _)
        rw [read_fields (hmidnight.symm ▸ hstamp), hinstant]
        simp only [Clock.after, zero_mul, add_zero]
      | some time =>
        show Outcome (day.Fits ∧ (_ → ∀ t, some time = some t → _)) _ (timeOf day.midnight time)
        have hfits_iff : (day.Fits ∧ (IsStamp day.midnight → ∀ t, some time = some t →
            timeFits day.midnight t)) ↔ timeFits day.midnight time :=
          ⟨fun h => h.2 hstamp time rfl, fun h => ⟨hday, fun _ _ heq => by cases heq; exact h⟩⟩
        rw [hfits_iff]
        refine ⟨fun h => ?_, (htime day.midnight time).2⟩
        rw [(htime day.midnight time).1 h]
        show _ = read (((clockOf time).map _).bind _)
        cases clockOf time with
        | none => rfl
        | some clock =>
          obtain ⟨hmidnight, hinstant⟩ := Fields.instant_eq hmonth clock
          rw [map_some, map_some, read_fields (hmidnight.symm ▸ hstamp), hinstant]
          rfl
    · -- a midnight out of range is refused before a time of day is read
      rw [checked_neg hstamp]
      refine ⟨fun _ => ?_, fun h => absurd ⟨hday, fun h => absurd h hstamp⟩ h⟩
      have hrefused : ∀ clock, checked (Fields.midnight ⟨day, clock, 0⟩) = none := fun clock => by
        rw [(Fields.instant_eq hmonth clock).1, checked_neg hstamp]
      cases time with
      | none =>
        show Except.error _ = read ((checked (Fields.midnight _)).map _)
        rw [hrefused]
        rfl
      | some time =>
        show Except.error _ = read (((clockOf time).map _).bind _)
        cases clockOf time with
        | none => rfl
        | some clock =>
          show Except.error _ = read ((checked (Fields.midnight _)).map _)
          rw [hrefused]
          rfl
  · rw [if_neg hday]
    exact ⟨fun h => absurd h.1 hday, fun _ => rfl⟩

theorem numeric_outcome (value : Chars) :
    Outcome (NumericFits value) (numericFields value) (numeric value) := by
  unfold NumericFits numericFields numeric
  cases hday : readDay value with
  | none => exact ⟨fun _ => rfl, fun h => absurd nofun h⟩
  | some day =>
    have hfits_iff : (∀ d, some day = some d → DayFits NumericTimeFits d)
        ↔ DayFits NumericTimeFits day := ⟨fun h => h day rfl, fun h _ heq => by cases heq; exact h⟩
    rw [hfits_iff]
    exact day_outcome numericTime_eq (readDay_month hday)

theorem exists_wall (hzone : zone.Valid) (stamp : ℤ) : ∃ wall, zone.wall stamp = some wall := by
  obtain ⟨offset, hoffset⟩ := isSome_iff_exists.mp (hzone.at_isSome stamp)
  refine ⟨saturating (stamp + offset.seconds), ?_⟩
  rw [Zone.wall, Zone.offset, hoffset]
  rfl

/-- The year after a month is read as the one of the fields. -/
theorem yearAfter_eq (hzone : zone.Valid) (comma : Bool) (tail : Chars) :
    yearAfter now zone comma tail = read (readYear now zone comma tail) := by
  unfold yearAfter readYear civilYear
  split_ifs
  · cases (splitWhitespace tail)[0]? with
    | none => rfl
    | some word =>
      show (read (i64Of word) >>= _) = read ((i64Of word).bind _)
      cases i64Of word with
      | none => rfl
      | some _ => rfl
  · obtain ⟨_, hwall⟩ := exists_wall hzone now
    rw [hwall]
    rfl

theorem named_outcome (hzone : zone.Valid) (word rest : Chars) :
    Outcome (NamedFits now zone word rest) (namedFields now zone word rest)
      (named now zone word rest) := by
  unfold NamedFits namedFields readNamed named
  cases hmonth : readMonth word rest with
  | none => exact ⟨fun _ => rfl, fun h => absurd nofun h⟩
  | some month =>
    show Outcome (∀ day, (readYear now zone (decide (',' ∈ trimStart rest)) month.2.2).bind _
        = some day → _)
      (((readYear now zone (decide (',' ∈ trimStart rest)) month.2.2).bind _).bind _)
      (yearAfter now zone (decide (',' ∈ trimStart rest)) month.2.2 >>= _)
    rw [yearAfter_eq hzone]
    cases readYear now zone (decide (',' ∈ trimStart rest)) month.2.2 with
    | none => exact ⟨fun _ => rfl, fun h => absurd nofun h⟩
    | some year =>
      have hfits_iff : (∀ day, some ((⟨year.1, month.1, month.2.1⟩ : Day), year.2) = some day →
          DayFits NamedTimeFits day)
            ↔ DayFits NamedTimeFits (⟨year.1, month.1, month.2.1⟩, year.2) :=
        ⟨fun h => h _ rfl, fun h _ heq => by cases heq; exact h⟩
      show Outcome (∀ day, some ((⟨year.1, month.1, month.2.1⟩ : Day), year.2) = some day → _) _ _
      rw [hfits_iff]
      exact day_outcome namedTime_eq (readMonth_month hmonth)

theorem plain_outcome (hzone : zone.Valid) (value : Chars) :
    Outcome (PlainFits now zone value) (plainFields now zone value) (plain now zone value) := by
  unfold PlainFits plainFields plain
  cases monthWord value with
  | none => exact numeric_outcome value
  | some split => exact named_outcome hzone split.1 split.2

/-- **An offset is taken off** if the sums fit. -/
theorem offset_eq (base : ℤ) (text : Option Chars) :
    (offsetSeconds text >>= fun offset => arith (base - offset))
      = (readOffsetOf text).elim (.error .refused) fun offset =>
        if OffsetFits base offset then
          .ok (base - offset.1 * (offset.2.1 * 3600 + offset.2.2 * 60))
        else .error .overflow := by
  cases text with
  | none =>
    show arith (base - 0) = if OffsetFits base (1, 0, 0) then .ok (base - 0) else .error .overflow
    by_cases hbase : IsStamp (base - 0)
    · have hfits : OffsetFits base (1, 0, 0) := ⟨by decide, by decide, by decide, by decide, hbase⟩
      rw [arith_pos hbase, if_pos hfits]
    · have hfits : ¬ OffsetFits base (1, 0, 0) := fun h => hbase h.2.2.2.2
      rw [arith_neg hbase, if_neg hfits]
  | some text =>
    show ((read (readOffset text) >>= _) >>= _) = (readOffset text).elim _ _
    cases readOffset text with
    | none => rfl
    | some offset => exact offset_sum base offset

/-- **A calendar form is parsed as its fields**, if what is computed fits. -/
theorem absolute_outcome (hzone : zone.Valid) (n : ℕ) (value : Chars) :
    Outcome (Fits now zone n value) (fields now zone n value) (absolute now zone n value) := by
  induction n generalizing value with
  | zero => exact plain_outcome hzone value
  | succ n ih =>
    rw [Fits, fields, absolute]
    cases splitOnce 'T' value with
    | none => exact plain_outcome hzone value
    | some split =>
      obtain ⟨hfit, hoverflow⟩ := ih (spaced split.1 split.2)
      show Outcome (Fits now zone n (spaced split.1 split.2) ∧ ∀ f offset,
          fields now zone n (spaced split.1 split.2) = some f → _)
        ((fields now zone n (spaced split.1 split.2)).bind _)
        (absolute now zone n (spaced split.1 split.2) >>= fun base =>
          offsetSeconds (offsetOf split.2) >>= fun offset => arith (base - offset))
      simp only [offset_eq]
      by_cases hinner : Fits now zone n (spaced split.1 split.2)
      · rw [hfit hinner]
        cases fields now zone n (spaced split.1 split.2) with
        | none => exact ⟨fun _ => rfl, fun h => absurd ⟨hinner, fun _ _ h => by cases h⟩ h⟩
        | some f =>
          by_cases hstamp : IsStamp f.midnight
          · rw [read_fields hstamp]
            show Outcome _ ((readOffsetOf (offsetOf split.2)).bind _)
              ((readOffsetOf (offsetOf split.2)).elim _ _)
            cases readOffsetOf (offsetOf split.2) with
            | none => exact ⟨fun _ => rfl, fun h => absurd ⟨hinner, fun _ _ _ _ h => by cases h⟩ h⟩
            | some offset =>
              have hfits_iff : (Fits now zone n (spaced split.1 split.2) ∧ ∀ g o, some f = some g →
                  IsStamp g.midnight → some offset = some o → OffsetFits g.instant o)
                    ↔ OffsetFits f.instant offset := by
                refine ⟨fun h => h.2 f offset rfl hstamp rfl, fun h => ⟨hinner, ?_⟩⟩
                rintro _ _ ⟨⟩ - ⟨⟩
                exact h
              rw [hfits_iff, elim_some]
              refine ⟨fun hfits => ?_, fun hfits => if_neg hfits⟩
              have hmore : IsStamp (Fields.midnight { f with
                  offset := f.offset + offset.1 * (offset.2.1 * 3600 + offset.2.2 * 60) }) := hstamp
              show _ = read ((some _).bind _)
              rw [if_pos hfits, read_fields hmore, Fields.instant, Fields.instant, sub_sub]
              rfl
          · have hrefused : ∀ g : Fields, g.midnight = f.midnight →
                read ((some g).bind fun f => (checked f.midnight).map fun _ => f.instant)
                  = .error .refused := by
              intro g hg
              rw [bind_some, hg, checked_neg hstamp]
              rfl
            rw [hrefused f rfl]
            refine ⟨fun _ => ?_, fun h => absurd ⟨hinner, ?_⟩ h⟩
            · show Except.error _ = read (((readOffsetOf (offsetOf split.2)).bind _).bind _)
              cases readOffsetOf (offsetOf split.2) with
              | none => rfl
              | some offset =>
                have hmore := hrefused { f with
                  offset := f.offset + offset.1 * (offset.2.1 * 3600 + offset.2.2 * 60) } rfl
                exact hmore.symm
            · rintro _ _ ⟨⟩ h
              exact absurd h hstamp
      · rw [hoverflow hinner]
        exact ⟨fun h => absurd h.1 hinner, fun _ => rfl⟩

end Ferret.Find.Date
