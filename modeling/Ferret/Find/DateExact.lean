import Ferret.Find.DateFields
import Mathlib.Data.List.TakeWhile

/-!
# When a date is the one written

The fields of a calendar form are checked in part only: the day is not held
against its month, the numbers of a clock may be negative, and what comes after
the name of a month is not checked at all. Years and numbers of months have 64
bits, which is more than the arithmetic of days bears. `parseDate_iff` says of
which operands it is true that there is no overflow and that the date is one that
exists; `not_exact` has two for which it is not.
-/

namespace Ferret.Find.Date

open TimeZone List Option

variable {now : ℤ} {zone : Zone} {guess : ℤ}

/-! ## What is to be -/

/-- The months before the run come to a day that fits, and to a wall clock. -/
def MonthsFit (text : Chars) (now : ℤ) (zone : Zone) : Prop :=
  ∀ count wall day, readMonths text = some count → zone.wall now = some wall →
    monthsBefore wall count = some day →
      day.Fits ∧ IsStamp day.midnight ∧ IsStamp (day.midnight + wall % 86400)

/-- What a calendar form is parsed as, without a `Z`. -/
def target (text : Chars) : Chars := (explicit text).getD text

def calendarFields (text : Chars) (now : ℤ) (zone : Zone) : Option Fields :=
  fields now zone ((target text).count 'T') (target text)

/-- What a calendar form says exists, unless it is refused: with a `Z` or an offset
always, else if the zone has the wall clock, which then is no sum that saturated. -/
structure CalendarExact (text : Chars) (now : ℤ) (zone : Zone) (guess : ℤ) : Prop where
  fits : Fits now zone ((target text).count 'T') (target text)
  instant : (explicit text).isSome = true → ∀ f, calendarFields text now zone = some f →
    IsStamp f.midnight → f.Exist
  wall : explicit text = none → ∀ f stamp, calendarFields text now zone = some f →
    IsStamp f.midnight → zone.resolve f.instant guess = some (some stamp) →
      f.Exist ∧ ∀ offset, zone.offset stamp.1 = some offset → IsStamp (stamp.1 + offset)

/-- **Operands that are parsed without overflow and as what exists.** -/
structure Exact (value : Chars) (now : SystemTime) (zone : Zone) (guess : ℤ) : Prop where
  months : 0 ≤ now.seconds → ∀ text, formOf (trim value) = .ago text →
    MonthsFit text now.seconds zone
  calendar : 0 ≤ now.seconds → formOf (trim value) = .calendar →
    CalendarExact (trim value) now.seconds zone guess

/-- **What a date is to be**: no overflow, and for a calendar form the instant of a
day that exists and a time of day, less the offset that is given, or else less
the offset of the zone at the instant. -/
structure Meets (value : Chars) (now : SystemTime) (zone : Zone) (guess : ℤ) : Prop where
  calm : parseDate value now zone guess ≠ .error .overflow
  calendar : formOf (trim value) = .calendar → ∀ date, parseDate value now zone guess = .ok date →
    ∃ f stamp, calendarFields (trim value) now.seconds zone = some f ∧ f.Exist ∧
      date.1 = stamp * 1000000000 ∧
      ((explicit (trim value)).isSome = true → stamp = f.instant) ∧
      (explicit (trim value) = none → f.offset = 0 ∧
        ∃ offset, zone.offset stamp = some offset ∧ stamp = f.instant - offset)

/-! ## Without overflow -/

variable {α : Type} {f : Fields} {text clock value : Chars}

theorem bind_ne_overflow {β : Type} {x : Except Stop α} {f : α → Except Stop β}
    (hx : x ≠ .error .overflow) (hf : ∀ a, x = .ok a → f a ≠ .error .overflow) :
    (x >>= f) ≠ .error .overflow := by
  cases x with
  | ok a => exact hf a rfl
  | error _ => exact fun h => hx (by cases h; rfl)

theorem read_ne_overflow (at? : Option α) : read at? ≠ .error .overflow := by
  cases at? with
  | none => exact nofun
  | some a => exact nofun

theorem found_ne_overflow (at? : Option α) : found at? ≠ .error .overflow := by
  cases at? with
  | none => exact nofun
  | some a => exact nofun

theorem ok_ne_overflow (a : α) : (Except.ok a : Except Stop α) ≠ .error .overflow :=
  nofun

/-- **Relative dates do not overflow.** -/
theorem relativeStamp_calm (value : Chars) (now : ℤ) (zone : Zone) (guess : ℤ) :
    relativeStamp value now zone guess ≠ .error .overflow := by
  refine bind_ne_overflow (read_ne_overflow _) fun delta _ => ?_
  refine bind_ne_overflow (read_ne_overflow _) fun unit _ => ?_
  split_ifs
  · exact ok_ne_overflow _
  · refine bind_ne_overflow (read_ne_overflow _) fun seconds _ => ?_
    refine bind_ne_overflow (found_ne_overflow _) fun offset _ => ?_
    refine bind_ne_overflow (found_ne_overflow _) fun wall _ => ?_
    refine bind_ne_overflow (read_ne_overflow _) fun wall _ => ?_
    refine bind_ne_overflow (found_ne_overflow _) fun stamp _ => ?_
    exact bind_ne_overflow (read_ne_overflow _) fun _ _ => ok_ne_overflow _

/-- A number of months is none of seconds. -/
theorem readMonths_none {delta : ℤ} (h : relativeSeconds text = some delta) :
    readMonths text = none := by
  obtain ⟨amount, hamount, h⟩ := bind_eq_some_iff.mp h
  obtain ⟨count, hcount, h⟩ := bind_eq_some_iff.mp h
  obtain ⟨unit, hunit, h⟩ := bind_eq_some_iff.mp h
  have hother : singular unit ≠ ['m', 'o', 'n', 't', 'h'] := by
    intro hmonth
    dsimp only at h
    rw [hmonth] at h
    split_ifs at h with _ h₁ h₂ h₃ h₄
    · exact absurd h₁ (by decide)
    · exact absurd h₂ (by decide)
    · exact absurd h₃ (by decide)
    · exact absurd h₄ (by decide)
  show ((splitWhitespace text)[0]?.bind fun amount => (i64Of amount).bind fun count =>
    (splitWhitespace text)[1]?.bind fun unit =>
      if singular unit ≠ ['m', 'o', 'n', 't', 'h'] ∨ 2 < (splitWhitespace text).length then none
      else some count) = none
  rw [hamount, bind_some, hcount, bind_some, hunit, bind_some, if_pos (.inl hother)]

theorem monthsAgo_calm (hzone : zone.Valid) (text : Chars) :
    monthsAgo text now zone guess ≠ .error .overflow ↔ MonthsFit text now zone := by
  unfold MonthsFit monthsAgo
  cases readMonths text with
  | none => exact ⟨fun _ _ _ _ h => (by cases h), fun _ h => (by cases h)⟩
  | some count =>
    obtain ⟨wall, hwall⟩ := exists_wall hzone now
    rw [hwall]
    show (read (monthsBefore wall count) >>= _) ≠ _ ↔ _
    cases hbefore : monthsBefore wall count with
    | none =>
      refine ⟨fun _ _ _ _ hcount hwall hday => ?_, nofun⟩
      cases hcount
      cases hwall
      rw [hbefore] at hday
      cases hday
    | some day =>
      have hfits_iff : (∀ c w d, some count = some c → some wall = some w →
          monthsBefore w c = some d → d.Fits ∧ IsStamp d.midnight ∧
            IsStamp (d.midnight + w % 86400)) ↔
          day.Fits ∧ IsStamp day.midnight ∧ IsStamp (day.midnight + wall % 86400) := by
        refine ⟨fun h => h count wall day rfl rfl hbefore, ?_⟩
        rintro h _ _ _ ⟨⟩ ⟨⟩ hday
        rw [hbefore] at hday
        cases hday
        exact h
      rw [hfits_iff]
      show (civilDays day.year day.month day.day >>= fun days => arith (days * 86400) >>= fun
        midnight => arith (midnight + wall % 86400) >>= _) ≠ _ ↔ _
      rw [civilDays_eq]
      by_cases hday : day.Fits
      · rw [if_pos hday]
        show (arith day.midnight >>= fun midnight => arith (midnight + wall % 86400) >>= _) ≠ _ ↔ _
        simp only [arith_bind]
        by_cases hmidnight : IsStamp day.midnight
        · rw [if_pos hmidnight]
          by_cases hsum : IsStamp (day.midnight + wall % 86400)
          · rw [if_pos hsum]
            refine ⟨fun _ => ⟨hday, hmidnight, hsum⟩, fun _ => ?_⟩
            refine bind_ne_overflow (found_ne_overflow _) fun stamp _ => ?_
            exact bind_ne_overflow (read_ne_overflow _) fun _ _ => ok_ne_overflow _
          · rw [if_neg hsum]
            exact ⟨fun h => absurd rfl h, fun h => absurd h.2.2 hsum⟩
        · rw [if_neg hmidnight]
          exact ⟨fun h => absurd rfl h, fun h => absurd h.2.1 hmidnight⟩
      · rw [if_neg hday]
        exact ⟨fun h => absurd rfl h, fun h => absurd h.1 hday⟩

/-! ## Calendar forms -/

/-- A clock without a sign but for its first character. -/
def Unsigned (clock : Chars) : Prop := '+' ∉ clock.tail ∧ '-' ∉ clock.tail

theorem splitOffset_of_unsigned (h : Unsigned clock) : splitOffset clock = (clock, none) := by
  have hall : ∀ c ∈ clock.tail.reverse, (decide (c ≠ '+' ∧ c ≠ '-')) = true := by
    intro c hc
    rw [mem_reverse] at hc
    exact decide_eq_true ⟨fun heq => h.1 (heq ▸ hc), fun heq => h.2 (heq ▸ hc)⟩
  have htake : clock.tail.reverse.takeWhile (fun c => decide (c ≠ '+' ∧ c ≠ '-'))
      = clock.tail.reverse := takeWhile_eq_self_iff.mpr hall
  unfold splitOffset
  dsimp only
  rw [htake, length_reverse, if_pos rfl]

theorem unsigned_of_splitOffset (h : (splitOffset clock).2 = none) : Unsigned clock := by
  unfold splitOffset at h
  dsimp only at h
  split_ifs at h with hlength
  have htake : clock.tail.reverse.takeWhile (fun c => decide (c ≠ '+' ∧ c ≠ '-'))
      = clock.tail.reverse :=
    ( takeWhile_prefix _).eq_of_length (hlength.trans length_reverse.symm)
  have hall := takeWhile_eq_self_iff.mp htake
  constructor <;> intro hmem
  · exact (of_decide_eq_true (hall _ (mem_reverse.mpr hmem))).1 rfl
  · exact (of_decide_eq_true (hall _ (mem_reverse.mpr hmem))).2 rfl

theorem Unsigned.of_sublist {part : Chars} (h : Unsigned clock)
    (hpart : part.tail.Sublist clock.tail) : Unsigned part :=
  ⟨fun hmem => h.1 (hpart.subset hmem), fun hmem => h.2 (hpart.subset hmem)⟩

theorem dayFields_offset {clockOf : Chars → Option Clock} {day : Day × Option Chars}
    (h : dayFields clockOf day = some f) : f.offset = 0 := by
  obtain ⟨day, time⟩ := day
  cases time with
  | none =>
    cases h
    rfl
  | some time =>
    obtain ⟨_, -, rfl⟩ := map_eq_some_iff.mp h
    rfl

theorem plainFields_offset (h : plainFields now zone value = some f) : f.offset = 0 := by
  unfold plainFields at h
  cases hword : monthWord value with
  | none | some split =>
    rw [hword] at h
    obtain ⟨_, -, h⟩ := bind_eq_some_iff.mp h
    exact dayFields_offset h

/-- **Without a sign there is no offset.** -/
theorem fields_offset {n : ℕ}
    (hvalue : ∀ split, splitOnce 'T' value = some split → Unsigned split.2)
    (h : fields now zone n value = some f) : f.offset = 0 := by
  induction n generalizing value f with
  | zero => exact plainFields_offset h
  | succ n ih =>
    rw [fields] at h
    cases hsplit : splitOnce 'T' value with
    | none =>
      rw [hsplit] at h
      exact plainFields_offset h
    | some split =>
      rw [hsplit] at h
      have hunsigned := hvalue split hsplit
      have hclock : Unsigned ((stripSuffix ['Z'] split.2).getD split.2) := by
        unfold stripSuffix
        split_ifs
        · exact hunsigned.of_sublist (take_sublist _ _).tail
        · exact hunsigned
      obtain ⟨g, hg, h⟩ := bind_eq_some_iff.mp h
      obtain ⟨_, hoffset, h⟩ := bind_eq_some_iff.mp h
      cases h
      have hnone : offsetOf split.2 = none := by
        rw [offsetOf, splitOffset_of_unsigned hclock]
      rw [hnone] at hoffset
      cases hoffset
      have hspaced : spaced split.1 split.2
          = split.1 ++ ' ' :: (stripSuffix ['Z'] split.2).getD split.2 := by
        rw [spaced, splitOffset_of_unsigned hclock]
      show g.offset + 1 * (0 * 3600 + 0 * 60) = 0
      rw [ih _ hg]
      · rfl
      · -- the next `T`, if any, is in the clock
        intro next hnext
        rw [hspaced] at hnext
        unfold splitOnce at hnext
        split_ifs at hnext
        cases hnext
        have hdate : ∀ c ∈ split.1, (decide (c ≠ 'T')) = true := by
          unfold splitOnce at hsplit
          split_ifs at hsplit
          cases hsplit
          exact fun c hc => mem_takeWhile_imp (p := fun c => decide (c ≠ 'T')) hc
        rw [dropWhile_append_of_pos hdate, dropWhile_cons_of_pos (by decide)]
        refine hclock.of_sublist ?_
        exact (tail_sublist _).trans (dropWhile_sublist _).tail

/-- A wall clock is a sum that saturates at the limits. -/
theorem wall_eq {stamp wall : ℤ} (h : zone.wall stamp = some wall) :
    ∃ offset, zone.offset stamp = some offset ∧ wall = saturating (stamp + offset) := by
  obtain ⟨offset, hoffset, rfl⟩ := map_eq_some_iff.mp h
  exact ⟨offset, hoffset, rfl⟩

theorem saturating_isStamp (n : ℤ) : IsStamp (saturating n) := by
  unfold saturating IsStamp minStamp maxStamp
  omega

theorem saturating_eq {n : ℤ} (h : IsStamp n) : saturating n = n := by
  unfold saturating IsStamp minStamp maxStamp at *
  omega

theorem read_eq_ok {at? : Option α} {a : α} (h : read at? = .ok a) : at? = some a := by
  cases at? with
  | none => cases h
  | some b =>
    cases h
    rfl

/-- **An operand with an offset** is parsed without overflow and as what exists
exactly if its fields are that. -/
theorem explicit_iff (hzone : zone.Valid) (hexplicit : (explicit text).isSome = true) :
    (parseAbsolute now zone (target text) ≠ .error .overflow ∧
      ∀ stamp, parseAbsolute now zone (target text) = .ok stamp →
        ∃ f, calendarFields text now zone = some f ∧ f.Exist ∧ stamp = f.instant) ↔
    CalendarExact text now zone guess := by
  obtain ⟨hfit, hoverflow⟩ : Outcome _ _ (parseAbsolute now zone (target text)) :=
    absolute_outcome hzone ((target text).count 'T') (target text)
  constructor
  · rintro ⟨hcalm, hexist⟩
    have hfits : Fits now zone ((target text).count 'T') (target text) := by
      by_contra hnot
      exact hcalm (hoverflow hnot)
    refine ⟨hfits, fun _ f hf hstamp => ?_, fun hnone => ?_⟩
    · have hok := hfit hfits
      rw [show fields now zone _ _ = some f from hf, read_fields hstamp] at hok
      obtain ⟨g, hg, hgexist, -⟩ := hexist _ hok
      cases hf.symm.trans hg
      exact hgexist
    · rw [hnone] at hexplicit
      cases hexplicit
  · rintro ⟨hfits, hexist, -⟩
    rw [hfit hfits]
    refine ⟨read_ne_overflow _, fun stamp hok => ?_⟩
    obtain ⟨f, hf, hread⟩ := bind_eq_some_iff.mp (read_eq_ok hok)
    obtain ⟨_, hmidnight, rfl⟩ := map_eq_some_iff.mp hread
    have hstamp : IsStamp f.midnight := by
      by_contra hnot
      rw [checked_neg hnot] at hmidnight
      cases hmidnight
    exact ⟨f, hf, hexist hexplicit f hf hstamp, rfl⟩

/-- A wall clock that is found is one that the instant has. -/
theorem wall_of_resolve (hzone : zone.Valid) {wall : ℤ} {stamp : ℤ × ℤ}
    (h : zone.resolve wall guess = some (some stamp)) : zone.wall stamp.1 = some wall := by
  obtain ⟨_, hfound, hhas, -⟩ := hzone.resolve_eq wall guess
  rw [h] at hfound
  cases hfound
  exact hhas stamp.1 stamp.2 rfl

/-- An operand without `Z` or a sign has no offset. -/
theorem offset_of_local (hlocal : explicit text = none)
    (hf : calendarFields text now zone = some f) : f.offset = 0 := by
  refine fields_offset (fun split hsplit => unsigned_of_splitOffset ?_) hf
  rw [target, hlocal] at hsplit
  unfold explicit at hlocal
  rw [show splitOnce 'T' text = some split from hsplit, bind_some] at hlocal
  split_ifs at hlocal with _ hsign
  exact not_isSome_iff_eq_none.mp hsign

/-- **An operand without an offset** is parsed without overflow and as what exists
exactly if its fields are that whenever the zone has the wall clock. -/
theorem local_iff (hzone : zone.Valid) (hlocal : explicit text = none) :
    (parseAbsolute now zone text ≠ .error .overflow ∧
      ∀ wall stamp, parseAbsolute now zone text = .ok wall →
        zone.resolve wall guess = some (some stamp) →
        ∃ f, calendarFields text now zone = some f ∧ f.Exist ∧ f.offset = 0 ∧
          ∃ offset, zone.offset stamp.1 = some offset ∧ stamp.1 = f.instant - offset) ↔
    CalendarExact text now zone guess := by
  have htarget : target text = text := by rw [target, hlocal]; rfl
  obtain ⟨hfit, hoverflow⟩ : Outcome _ _ (parseAbsolute now zone text) :=
    absolute_outcome hzone (text.count 'T') text
  constructor
  · rintro ⟨hcalm, hexist⟩
    have hfits : Fits now zone (text.count 'T') text := by
      by_contra hnot
      exact hcalm (hoverflow hnot)
    refine ⟨htarget.symm ▸ hfits, fun hsome => ?_, fun _ f stamp hf hstamp hresolve => ?_⟩
    · rw [hlocal] at hsome
      cases hsome
    · have hok := hfit hfits
      have hfields : fields now zone (text.count 'T') text = some f := by
        rw [calendarFields, htarget] at hf
        exact hf
      rw [hfields, read_fields hstamp] at hok
      obtain ⟨g, hg, hgexist, -, offset, hoffset, hsum⟩ := hexist _ _ hok hresolve
      cases hf.symm.trans hg
      refine ⟨hgexist, fun offset' hoffset' => ?_⟩
      cases hoffset.symm.trans hoffset'
      obtain ⟨offset', -, hwall⟩ := wall_eq (wall_of_resolve hzone hresolve)
      rw [hsum, sub_add_cancel, hwall]
      exact saturating_isStamp _
  · rintro ⟨hfits, -, hexist⟩
    rw [htarget] at hfits
    rw [hfit hfits]
    refine ⟨read_ne_overflow _, fun wall stamp hok hresolve => ?_⟩
    obtain ⟨f, hf, hread⟩ := bind_eq_some_iff.mp (read_eq_ok hok)
    obtain ⟨_, hmidnight, rfl⟩ := map_eq_some_iff.mp hread
    have hstamp : IsStamp f.midnight := by
      by_contra hnot
      rw [checked_neg hnot] at hmidnight
      cases hmidnight
    have hfields : calendarFields text now zone = some f := by
      rw [calendarFields, htarget]
      exact hf
    obtain ⟨hexist, hsum⟩ := hexist hlocal f stamp hfields hstamp hresolve
    obtain ⟨offset, hoffset, hwall⟩ := wall_eq (wall_of_resolve hzone hresolve)
    rw [saturating_eq (hsum offset hoffset)] at hwall
    exact ⟨f, hfields, hexist, offset_of_local hlocal hfields, offset, hoffset, by omega⟩

/-- What a calendar form is parsed as, in seconds. -/
theorem parseLocalAbsolute_iff (hzone : zone.Valid) (text : Chars) :
    (parseLocalAbsolute text now zone guess ≠ .error .overflow ∧
      ∀ stamp, parseLocalAbsolute text now zone guess = .ok stamp →
        ∃ f, calendarFields text now zone = some f ∧ f.Exist ∧
          ((explicit text).isSome = true → stamp.1 = f.instant) ∧
          (explicit text = none → f.offset = 0 ∧
            ∃ offset, zone.offset stamp.1 = some offset ∧ stamp.1 = f.instant - offset)) ↔
    CalendarExact text now zone guess := by
  cases hexplicit : explicit text with
  | some value =>
    have hsome : (explicit text).isSome = true := by rw [hexplicit]; rfl
    have htarget : target text = value := by rw [target, hexplicit]; rfl
    have hparse : parseLocalAbsolute text now zone guess
        = parseAbsolute now zone (target text) >>= fun stamp => .ok (stamp, guess) := by
      rw [parseLocalAbsolute, hexplicit, htarget]
      rfl
    rw [← explicit_iff hzone hsome, hparse]
    cases parseAbsolute now zone (target text) with
    | error stop =>
      exact ⟨fun h => ⟨fun heq => h.1 (by cases heq; rfl), nofun⟩,
        fun h => ⟨fun heq => h.1 (by cases heq; rfl), nofun⟩⟩
    | ok stamp =>
      constructor
      · rintro ⟨-, h⟩
        refine ⟨ok_ne_overflow _, ?_⟩
        rintro _ ⟨⟩
        obtain ⟨f, hf, hexist, hstamp, -⟩ := h _ rfl
        exact ⟨f, hf, hexist, hstamp rfl⟩
      · rintro ⟨-, h⟩
        refine ⟨ok_ne_overflow _, ?_⟩
        rintro _ ⟨⟩
        obtain ⟨f, hf, hexist, hstamp⟩ := h _ rfl
        exact ⟨f, hf, hexist, fun _ => hstamp, nofun⟩
  | none =>
    have hparse : parseLocalAbsolute text now zone guess
        = parseAbsolute now zone text >>= fun wall => found (zone.resolve wall guess) >>= read := by
      rw [parseLocalAbsolute, hexplicit]
      rfl
    rw [← local_iff hzone hexplicit, hparse]
    cases parseAbsolute now zone text with
    | error stop =>
      exact ⟨fun h => ⟨fun heq => h.1 (by cases heq; rfl), nofun⟩,
        fun h => ⟨fun heq => h.1 (by cases heq; rfl), nofun⟩⟩
    | ok wall =>
      obtain ⟨found?, hfound, -, -⟩ := hzone.resolve_eq wall guess
      show ((found (zone.resolve wall guess) >>= read) ≠ _ ∧ ∀ stamp,
        (found (zone.resolve wall guess) >>= read) = _ → _) ↔ _
      rw [hfound]
      show (read found? ≠ _ ∧ ∀ stamp, read found? = _ → _) ↔ _
      constructor
      · rintro ⟨-, h⟩
        refine ⟨ok_ne_overflow _, ?_⟩
        rintro _ stamp ⟨⟩ hresolve
        rw [hfound] at hresolve
        cases hresolve
        obtain ⟨f, hf, hexist, -, hstamp⟩ := h stamp rfl
        exact ⟨f, hf, hexist, hstamp rfl⟩
      · rintro ⟨-, h⟩
        refine ⟨read_ne_overflow _, fun stamp hread => ?_⟩
        obtain ⟨f, hf, hexist, hstamp⟩ := h wall stamp rfl (by rw [hfound, read_eq_ok hread])
        exact ⟨f, hf, hexist, fun hsome => (by cases hsome), fun _ => hstamp⟩

/-! ## Operands -/

/-- **A relative date or one of months**: the months overflow if they do not fit,
and then the date is of months. -/
theorem parseAgo_calm (hzone : zone.Valid) (text : Chars) (now : SystemTime) :
    parseAgo text now zone guess ≠ .error .overflow ↔ MonthsFit text now.seconds zone := by
  unfold parseAgo
  dsimp only
  split_ifs with hrefused
  · exact monthsAgo_calm hzone text
  · refine ⟨fun _ count wall day hcount => ?_, fun _ => relativeStamp_calm _ _ _ _⟩
    exfalso
    cases hseconds : relativeSeconds text with
    | none =>
      refine hrefused ?_
      unfold relativeStamp
      rw [hseconds]
      rfl
    | some _ =>
      rw [readMonths_none hseconds] at hcount
      cases hcount

/-- An operand that is neither of months nor a calendar form. -/
theorem meets_of_calm {now : SystemTime}
    (hago : ∀ text, formOf (trim value) ≠ .ago text) (hcalendar : formOf (trim value) ≠ .calendar)
    (hcalm : parseDate value now zone guess ≠ .error .overflow) :
    Meets value now zone guess ↔ Exact value now zone guess :=
  ⟨fun _ => ⟨fun _ text h => absurd h (hago text), fun _ h => absurd h hcalendar⟩,
    fun _ => ⟨hcalm, fun h => absurd h hcalendar⟩⟩

/-- **Of which operands a date is what it is to be**, at any time of the run, in
any zone. -/
theorem parseDate_iff {zone : Zone} (hzone : Loaded zone) (value : Chars) (now : SystemTime)
    (guess : ℤ) : Meets value now zone guess ↔ Exact value now zone guess := by
  by_cases hnow : now.seconds < 0
  · have hparse : parseDate value now zone guess = .error .refused := if_pos hnow
    refine ⟨fun _ => ⟨fun h => absurd hnow (not_lt.mpr h), fun h => absurd hnow (not_lt.mpr h)⟩,
      fun _ => ⟨?_, ?_⟩⟩
    all_goals
      rw [hparse]
      exact nofun
  have hpos := not_lt.mp hnow
  have hparse : parseDate value now zone guess = _ := if_neg hnow
  cases hform : formOf (trim value) with
  | calendar =>
    rw [hform] at hparse
    have hparse : parseDate value now zone guess
        = parseLocalAbsolute (trim value) now.seconds zone guess >>= fun stamp =>
          .ok (stamp.1 * 1000000000, stamp.2) := hparse
    have hiff : _ ↔ CalendarExact (trim value) now.seconds zone guess :=
      parseLocalAbsolute_iff hzone.valid (trim value)
    constructor
    · rintro ⟨hcalm, hdate⟩
      refine ⟨fun _ text h => absurd (hform.symm.trans h) nofun, fun _ _ => ?_⟩
      rw [← hiff]
      rw [hparse] at hcalm hdate
      refine ⟨fun h => hcalm (by rw [h]; rfl), fun stamp hstamp => ?_⟩
      rw [hstamp] at hdate
      obtain ⟨f, seconds, hf, hexist, hseconds, hrest⟩ := hdate hform _ rfl
      obtain rfl : stamp.1 = seconds := by
        have hseconds : stamp.1 * 1000000000 = seconds * 1000000000 := hseconds
        omega
      exact ⟨f, hf, hexist, hrest⟩
    · rintro ⟨-, hexact⟩
      obtain ⟨hcalm, hdate⟩ := hiff.mpr (hexact hpos hform)
      constructor
      · rw [hparse]
        exact bind_ne_overflow hcalm fun _ _ => ok_ne_overflow _
      · intro _ date hok
        rw [hparse] at hok
        cases hlocal : parseLocalAbsolute (trim value) now.seconds zone guess with
        | error _ =>
          rw [hlocal] at hok
          cases hok
        | ok stamp =>
          rw [hlocal] at hok
          cases hok
          obtain ⟨f, hf, hexist, hrest⟩ := hdate stamp hlocal
          exact ⟨f, stamp.1, hf, hexist, rfl, hrest⟩
  | ago text =>
    rw [hform] at hparse
    have hparse : parseDate value now zone guess = parseAgo text now zone guess := hparse
    have hcalendar : formOf (trim value) ≠ .calendar := hform.trans_ne nofun
    constructor
    · rintro ⟨hcalm, -⟩
      refine ⟨fun _ other hother => ?_, fun _ h => absurd h hcalendar⟩
      cases hform.symm.trans hother
      rw [hparse] at hcalm
      exact (parseAgo_calm hzone.valid text now).mp hcalm
    · rintro ⟨hmonths, -⟩
      refine ⟨?_, fun h => absurd h hcalendar⟩
      rw [hparse]
      exact (parseAgo_calm hzone.valid text now).mpr (hmonths hpos text hform)
  | now =>
    rw [hform] at hparse
    refine meets_of_calm (fun _ => hform.trans_ne nofun) (hform.trans_ne nofun) ?_
    rw [hparse]
    exact ok_ne_overflow _
  | yesterday =>
    rw [hform] at hparse
    refine meets_of_calm (fun _ => hform.trans_ne nofun) (hform.trans_ne nofun) ?_
    rw [hparse]
    exact relativeStamp_calm _ _ _ _
  | epoch text =>
    rw [hform] at hparse
    refine meets_of_calm (fun _ => hform.trans_ne nofun) (hform.trans_ne nofun) ?_
    rw [hparse]
    exact bind_ne_overflow (read_ne_overflow _) fun _ _ => ok_ne_overflow _
  | relative text =>
    rw [hform] at hparse
    refine meets_of_calm (fun _ => hform.trans_ne nofun) (hform.trans_ne nofun) ?_
    rw [hparse]
    exact relativeStamp_calm _ _ _ _

/-- A run in November 2023. -/
def aRun : SystemTime := ⟨1700000000, 0, by decide, by decide⟩

def middleOfFebruary : Chars := ['2', '0', '2', '1', '-', '0', '2', '-', '1', '5']

theorem parseDate_iff_february : Meets middleOfFebruary aRun (Zone.utc []) 0 := by
  refine (parseDate_iff (.utc []) middleOfFebruary aRun 0).mpr ⟨fun _ text h => ?_, fun _ _ => ?_⟩
  · have hform : formOf (trim middleOfFebruary) = .calendar := by decide +kernel
    cases hform.symm.trans h
  have hfields : calendarFields (trim middleOfFebruary) aRun.seconds (Zone.utc [])
      = some ⟨⟨2021, 2, 15⟩, ⟨0, 0, 0⟩, 0⟩ := rfl
  have hday : readDay (target (trim middleOfFebruary)) = some (⟨2021, 2, 15⟩, none) := rfl
  refine ⟨?_, fun h => ?_, fun _ f stamp hf _ hresolve => ?_⟩
  · show NumericFits (target (trim middleOfFebruary))
    intro day h
    cases hday.symm.trans h
    exact ⟨by decide, nofun⟩
  · have hnone : explicit (trim middleOfFebruary) = none := rfl
    rw [hnone] at h
    cases h
  · cases hf.symm.trans hfields
    have hstamp : (Zone.utc []).resolve 1613347200 0 = some (some (1613347200, 0)) := rfl
    cases hresolve.symm.trans hstamp
    refine ⟨⟨⟨by decide, by decide⟩, by decide, by decide, by decide⟩, fun offset hoffset => ?_⟩
    have hzero : (Zone.utc []).offset 1613347200 = some 0 := rfl
    cases hoffset.symm.trans hzero
    decide

/-- The last of February that there is not. -/
def lastOfFebruary : Chars := ['2', '0', '2', '1', '-', '0', '2', '-', '3', '1']

/-- A day past what the arithmetic bears. -/
def farYear : Chars :=
  ['3', '0', '0', '0', '0', '0', '0', '0', '0', '0', '0', '0', '0', '0', '0', '0', '0', '-', '0',
    '1', '-', '0', '1']

/-- A day that there is not is taken for one in March, and the days of a far year
overflow. -/
theorem not_exact :
    (parseDate lastOfFebruary aRun (Zone.utc []) 0 = .ok (1614729600000000000, 0) ∧
      ¬ Meets lastOfFebruary aRun (Zone.utc []) 0) ∧
    parseDate farYear aRun (Zone.utc []) 0 = .error .overflow := by
  have hparse : parseDate lastOfFebruary aRun (Zone.utc []) 0 = .ok (1614729600000000000, 0) := rfl
  refine ⟨⟨hparse, fun h => ?_⟩, rfl⟩
  obtain ⟨f, _, hf, hexist, -⟩ := h.calendar (by decide +kernel) _ hparse
  have hfields : calendarFields (trim lastOfFebruary) aRun.seconds (Zone.utc [])
      = some ⟨⟨2021, 2, 31⟩, ⟨0, 0, 0⟩, 0⟩ := rfl
  cases hf.symm.trans hfields
  exact absurd hexist.day.inMonth.2 (by decide)

end Ferret.Find.Date
