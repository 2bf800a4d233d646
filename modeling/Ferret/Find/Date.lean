import Ferret.Find.Zone

/-!
# Date operands

`-newerXt` takes a date: a time of the run, so many seconds before it, an epoch
second, or a calendar form, which is `Y-M-D` or the name of a month with a day,
with a time of day or without, and `T` between the two with an offset or `Z`. A
calendar form without an offset is a wall clock of the local zone.

Arithmetic is that of 64-bit numbers, where a result out of range is an
`overflow`, unless the source asks for it: then the operand is refused. Operands
that are not UTF-8 are refused before they get here.
-/

namespace Ferret.Find.Date

open TimeZone

abbrev Chars := List Char

/-- Why there is no date. -/
inductive Stop
  | refused
  | overflow
  /-- An index into the offsets of the zone. -/
  | outOfRange
deriving DecidableEq

/-- A clock of seconds since 1970 and nanoseconds. -/
structure SystemTime where
  seconds : ℤ
  nanos : ℕ
  isStamp : IsStamp seconds
  nanos_lt : nanos < 1000000000

/-! ## Numbers -/

/-- A number of 64 bits. -/
def arith (n : ℤ) : Except Stop ℤ := if IsStamp n then .ok n else .error .overflow

/-- What is read, if it is. -/
def read {α : Type} (found : Option α) : Except Stop α := found.elim (.error .refused) .ok

/-- What is found at an index. -/
def found {α : Type} (at? : Option α) : Except Stop α := at?.elim (.error .outOfRange) .ok

def digitsValue (cs : Chars) : Option ℕ :=
  if cs = [] ∨ cs.all Char.isDigit = false then none
  else some (cs.foldl (fun n c => 10 * n + (c.toNat - 48)) 0)

def i64Of : Chars → Option ℤ
  | '-' :: cs => (digitsValue cs).bind fun n => checked (-n)
  | '+' :: cs => (digitsValue cs).bind fun n => checked n
  | cs => (digitsValue cs).bind fun n => checked n

def u32Of (cs : Chars) : Option ℕ :=
  (digitsValue (if cs.head? = some '+' then cs.tail else cs)).bind fun n =>
    if n < 4294967296 then some n else none

/-! ## Strings -/

/-- The characters of Unicode that are white space. -/
def isWhitespace (c : Char) : Bool :=
  (9 ≤ c.toNat && c.toNat ≤ 13) || c.toNat ∈ [32, 0x85, 0xa0, 0x1680, 0x2028, 0x2029, 0x202f,
    0x205f, 0x3000] || (0x2000 ≤ c.toNat && c.toNat ≤ 0x200a)

def trimStart (cs : Chars) : Chars := cs.dropWhile isWhitespace

def trim (cs : Chars) : Chars := (trimStart (trimStart cs).reverse).reverse

def splitWhitespace (cs : Chars) : List Chars :=
  (cs.splitOnP isWhitespace).filter fun part => !part.isEmpty

/-- What is before the first of a character, and what is after it. -/
def splitOnce (c : Char) (cs : Chars) : Option (Chars × Chars) :=
  if c ∈ cs then some (cs.takeWhile (· ≠ c), (cs.dropWhile (· ≠ c)).tail) else none

def stripPrefix (start cs : Chars) : Option Chars :=
  if start.isPrefixOf cs then some (cs.drop start.length) else none

def stripSuffix (tail cs : Chars) : Option Chars :=
  if tail.isSuffixOf cs then some (cs.take (cs.length - tail.length)) else none

/-- A unit without the `s` of the plural. -/
def singular (cs : Chars) : Chars := (cs.reverse.dropWhile (· = 's')).reverse

/-! ## The calendar in 64 bits -/

def civilDays (year month day : ℤ) : Except Stop ℤ := do
  let year ← arith (year - if month ≤ 2 then 1 else 0)
  let era := year / 400
  let cycle ← arith (era * 400)
  let yoe := year - cycle
  -- months and days are of 32 bits
  let doy := (153 * (month + if 2 < month then -3 else 9) + 2) / 5 + day - 1
  let doe := yoe * 365 + yoe / 4 - yoe / 100 + doy
  let start ← arith (era * 146097)
  let sum ← arith (start + doe)
  arith (sum - 719468)

/-! ## Relative dates -/

def relativeSeconds (value : Chars) : Option ℤ := do
  let parts := splitWhitespace value
  let amount ← i64Of (← parts[0]?)
  let unit := singular (← parts[1]?)
  if 2 < parts.length then none
  else if unit = ['s', 'e', 'c', 'o', 'n', 'd'] ∨ unit = ['s', 'e', 'c'] then checked amount
  else if unit = ['m', 'i', 'n', 'u', 't', 'e'] ∨ unit = ['m', 'i', 'n'] then checked (amount * 60)
  else if unit = ['h', 'o', 'u', 'r'] ∨ unit = ['h', 'r'] then checked (amount * 3600)
  else if unit = ['d', 'a', 'y'] then checked (amount * 86400)
  else none

/-- So much before an instant in nanoseconds; days are those of the zone. The
second number is the next guess of an offset. -/
def relativeStamp (value : Chars) (now : ℤ) (zone : Zone) (guess : ℤ) : Except Stop (ℤ × ℤ) := do
  let delta ← read (relativeSeconds value)
  let unit ← read (splitWhitespace value)[1]?
  if singular unit ≠ ['d', 'a', 'y'] then return (now - delta * 1000000000, guess)
  else
    let seconds ← read (checked (now / 1000000000))
    let offset ← found (zone.offset seconds)
    let wall ← found (zone.wall seconds)
    let wall ← read (checked (wall - delta))
    let stamp ← read (← found (zone.resolve wall offset))
    return (stamp.1 * 1000000000 + now % 1000000000, stamp.2)

structure Day where
  year : ℤ
  month : ℤ
  day : ℤ
deriving DecidableEq

/-- A number of months. -/
def readMonths (value : Chars) : Option ℤ := do
  let parts := splitWhitespace value
  let count ← i64Of (← parts[0]?)
  let unit ← parts[1]?
  if singular unit ≠ ['m', 'o', 'n', 't', 'h'] ∨ 2 < parts.length then none else return count

/-- The day of the month so many months before a wall clock. -/
def monthsBefore (seconds count : ℤ) : Option Day := do
  let date := civilDate (seconds / 86400)
  let index ← checked (date.1 * 12)
  let index ← checked (index + (date.2.1 - 1))
  let index ← checked (index - count)
  let year := index / 12
  let month := index % 12 + 1
  let max : ℤ :=
    if month = 2 then if year % 4 = 0 ∧ (year % 100 ≠ 0 ∨ year % 400 = 0) then 29 else 28
    else if month = 4 ∨ month = 6 ∨ month = 9 ∨ month = 11 then 30
    else 31
  return ⟨year, month, min date.2.2 max⟩

/-- The instant months before the run, at its time of day. -/
def monthsAgo (value : Chars) (now : ℤ) (zone : Zone) (guess : ℤ) : Except Stop (ℤ × ℤ) := do
  let count ← read (readMonths value)
  let seconds ← found (zone.wall now)
  let day ← read (monthsBefore seconds count)
  let days ← civilDays day.year day.month day.day
  let midnight ← arith (days * 86400)
  let wall ← arith (midnight + seconds % 86400)
  let stamp ← read (← found (zone.resolve wall guess))
  return (stamp.1 * 1000000000, stamp.2)

/-! ## Calendar forms -/

structure Clock where
  hour : ℤ
  minute : ℤ
  second : ℤ
deriving DecidableEq

/-- A time of day, and if there is more. -/
def readClock (time : Chars) : Option (Clock × Bool) := do
  let parts := time.splitOn ':'
  let hour ← i64Of (← parts[0]?)
  let minute ← i64Of (← parts[1]?)
  let second ← parts[2]?.elim (some 0) i64Of
  return (⟨hour, minute, second⟩, decide (3 < parts.length))

/-- `Y-M-D`, and what comes after it. -/
def readDay (value : Chars) : Option (Day × Option Chars) := do
  let split := (splitOnce ' ' value).elim (value, none) fun p => (p.1, some p.2)
  let parts := split.1.splitOn '-'
  let year ← i64Of (← parts[0]?)
  let month ← u32Of (← parts[1]?)
  let day ← u32Of (← parts[2]?)
  if 3 < parts.length ∨ ¬ (1 ≤ month ∧ month ≤ 12) ∨ ¬ (1 ≤ day ∧ day ≤ 31) then none
  else return (⟨year, month, day⟩, split.2)

/-- The seconds of a day of the calendar. -/
def midnight (day : Day) : Except Stop ℤ := do
  let days ← civilDays day.year day.month day.day
  read (checked (days * 86400))

/-- The time of day after `Y-M-D`. -/
def numericTime (seconds : ℤ) (time : Chars) : Except Stop ℤ := do
  let clock ← read (readClock time)
  if 23 < clock.1.hour ∨ 59 < clock.1.minute ∨ 60 < clock.1.second then .error .refused
  else
    let hours ← arith (clock.1.hour * 3600)
    let minutes ← arith (clock.1.minute * 60)
    let sum ← arith (hours + minutes)
    let sum ← arith (sum + clock.1.second)
    let sum ← arith (seconds + sum)
    if clock.2 then .error .refused else .ok sum

/-- `Y-M-D` with a time of day or without. -/
def numeric (value : Chars) : Except Stop ℤ := do
  let day ← read (readDay value)
  let seconds ← midnight day.1
  day.2.elim (.ok seconds) (numericTime seconds)

def months : List Chars :=
  [['j', 'a', 'n'], ['f', 'e', 'b'], ['m', 'a', 'r'], ['a', 'p', 'r'], ['m', 'a', 'y'],
    ['j', 'u', 'n'], ['j', 'u', 'l'], ['a', 'u', 'g'], ['s', 'e', 'p'], ['o', 'c', 't'],
    ['n', 'o', 'v'], ['d', 'e', 'c']]

/-- A word of three bytes that starts with a letter, and what comes after it. -/
def monthWord (value : Chars) : Option (Chars × Chars) :=
  (splitOnce ' ' value).filter fun split =>
    split.1.foldl (fun n c => n + c.utf8Size) 0 = 3 ∧ (split.1.head?.any Char.isAlpha) = true

/-- The year of the run. -/
def civilYear (now : ℤ) (zone : Zone) : Except Stop ℤ := do
  let wall ← found (zone.wall now)
  return (civilDate (wall / 86400)).1

/-- The year after the day, or else that of the run; and the time of day. -/
def yearAfter (now : ℤ) (zone : Zone) (comma : Bool) (tail : Chars) :
    Except Stop (ℤ × Option Chars) :=
  if comma then do
    let year ← read (((splitWhitespace tail)[0]?).bind i64Of)
    return (year, (splitWhitespace tail)[1]?)
  else do
    let year ← civilYear now zone
    return (year, some (trim tail))

/-- The number of a month, the day of it and what comes after. -/
def readMonth (word rest : Chars) : Option (ℤ × ℤ × Chars) := do
  let month ← months.findIdx? (· == word.map Char.toLower)
  let rest := trimStart rest
  let split ← (splitOnce ',' rest).or (splitOnce ' ' rest)
  let day ← u32Of (trim split.1)
  return (month + 1, day, split.2)

/-- The time of day after the name of a month; what comes after it does not
matter. -/
def namedTime (seconds : ℤ) (time : Chars) : Except Stop ℤ := do
  let clock ← read (readClock time)
  let hours ← arith (clock.1.hour * 3600)
  let sum ← arith (seconds + hours)
  let minutes ← arith (clock.1.minute * 60)
  let sum ← arith (sum + minutes)
  arith (sum + clock.1.second)

/-- The name of a month with a day and a time of day, or with a day and a year
after a comma. -/
def named (now : ℤ) (zone : Zone) (word rest : Chars) : Except Stop ℤ := do
  let month ← read (readMonth word rest)
  let year ← yearAfter now zone (decide (',' ∈ trimStart rest)) month.2.2
  let seconds ← midnight ⟨year.1, month.1, month.2.1⟩
  year.2.elim (.ok seconds) (namedTime seconds)

/-- A clock before the last sign in it, and what begins with that. -/
def splitOffset (clock : Chars) : Chars × Option Chars :=
  let after := (clock.tail.reverse.takeWhile fun c => c ≠ '+' ∧ c ≠ '-').length
  if after = clock.tail.length then (clock, none)
  else (clock.take (clock.length - after - 1), some (clock.drop (clock.length - after - 1)))

/-- The sign, the hours and the minutes of an offset. -/
def readOffset (text : Chars) : Option (ℤ × ℤ × ℤ) := do
  let parts := text.tail.splitOn ':'
  let hours ← i64Of (← parts[0]?)
  let minutes ← i64Of (← parts[1]?)
  return (if text.head? = some '-' then -1 else 1, hours, minutes)

/-- The seconds of an offset. -/
def offsetSeconds (text : Option Chars) : Except Stop ℤ :=
  text.elim (.ok 0) fun text => do
    let offset ← read (readOffset text)
    let hours ← arith (offset.2.1 * 3600)
    let minutes ← arith (offset.2.2 * 60)
    let sum ← arith (hours + minutes)
    arith (offset.1 * sum)

/-- What is between a date and an offset, with a space in place of the `T`. -/
def spaced (date clock : Chars) : Chars :=
  date ++ ' ' :: (splitOffset ((stripSuffix ['Z'] clock).getD clock)).1

/-- The offset of a clock. -/
def offsetOf (clock : Chars) : Option Chars :=
  (splitOffset ((stripSuffix ['Z'] clock).getD clock)).2

/-- A calendar form without a `T`. -/
def plain (now : ℤ) (zone : Zone) (value : Chars) : Except Stop ℤ :=
  (monthWord value).elim (numeric value) fun p => named now zone p.1 p.2

/-- The source calls itself for what is before an offset, which has a `T` less; `n`
bounds the number of these. -/
def absolute (now : ℤ) (zone : Zone) : ℕ → Chars → Except Stop ℤ
  | 0, value => plain now zone value
  | n + 1, value => (splitOnce 'T' value).elim (plain now zone value) fun split => do
    let base ← absolute now zone n (spaced split.1 split.2)
    let offset ← offsetSeconds (offsetOf split.2)
    arith (base - offset)

def parseAbsolute (now : ℤ) (zone : Zone) (value : Chars) : Except Stop ℤ :=
  absolute now zone (value.count 'T') value

/-- What is parsed as an instant: `Z` and offsets bypass the zone. -/
def explicit (value : Chars) : Option Chars :=
  (splitOnce 'T' value).bind fun split =>
    if split.2.getLast? = some 'Z' then some (split.1 ++ ' ' :: split.2.dropLast)
    else if (splitOffset split.2).2.isSome then some value
    else none

def parseLocalAbsolute (value : Chars) (now : ℤ) (zone : Zone) (guess : ℤ) :
    Except Stop (ℤ × ℤ) :=
  (explicit value).elim
    (do
      let wall ← parseAbsolute now zone value
      read (← found (zone.resolve wall guess)))
    fun value => do
      let stamp ← parseAbsolute now zone value
      return (stamp, guess)

/-! ## Operands -/

/-- The forms of an operand, in the order they are tried. -/
inductive Form
  | now
  | yesterday
  | epoch (text : Chars)
  | relative (text : Chars)
  | ago (text : Chars)
  | calendar
deriving DecidableEq

def formOf (text : Chars) : Form :=
  if text = ['n', 'o', 'w'] ∨ text = ['t', 'o', 'd', 'a', 'y'] then .now
  else if text = ['y', 'e', 's', 't', 'e', 'r', 'd', 'a', 'y'] then .yesterday
  else (stripPrefix ['@'] text).elim
    ((stripPrefix ['n', 'o', 'w', '-'] text).elim
      ((stripPrefix ['-'] text).elim
        ((stripSuffix [' ', 'a', 'g', 'o'] text).elim .calendar .ago)
        .relative)
      .relative)
    .epoch

/-- A relative date, or else one of months. -/
def parseAgo (text : Chars) (now : SystemTime) (zone : Zone) (guess : ℤ) : Except Stop (ℤ × ℤ) :=
  let stamp := relativeStamp text (now.seconds * 1000000000 + now.nanos) zone guess
  if stamp = .error .refused then monthsAgo text now.seconds zone guess else stamp

/-- The nanoseconds of a date, and the next guess of an offset. -/
def parseDate (value : Chars) (now : SystemTime) (zone : Zone) (guess : ℤ) :
    Except Stop (ℤ × ℤ) :=
  let text := trim value
  let nanos := now.seconds * 1000000000 + now.nanos
  if now.seconds < 0 then .error .refused
  else
    match formOf text with
    | .now => .ok (nanos, guess)
    | .yesterday => relativeStamp ['1', ' ', 'd', 'a', 'y'] nanos zone guess
    | .epoch epoch => do
      let seconds ← read (i64Of epoch)
      return (seconds * 1000000000, guess)
    | .relative text => relativeStamp text nanos zone guess
    | .ago text => parseAgo text now zone guess
    | .calendar => do
      let stamp ← parseLocalAbsolute text now.seconds zone guess
      return (stamp.1 * 1000000000, stamp.2)

end Ferret.Find.Date
