import Ferret.Find.Posix

/-!
# Time zone files

A zone file has a header with counts, a table of transitions with the index of
an offset each, the offsets, and from version 2 on a footer with the rule string
for what comes after the table. A file of version 2 or 3 has all of this twice,
with times of 4 bytes and of 8, and only the second is read.

The table is searched for the offset at an instant, and the offsets are tried
for the instant of a wall clock. An index out of range is `none` here; a file
that is parsed has none (`Zone.Valid.at_isSome`).
-/

namespace Ferret.Find.TimeZone

/-! ## Numbers of a file -/

def bigEndian (bytes : Text) : ℕ := bytes.foldl (fun n b => 256 * n + b.toNat) 0

/-- Two's complement; `half` is the first number that is negative. -/
def signed (half n : ℕ) : ℤ := if n < half then n else n - 2 * half

def i32 (bytes : Text) : ℤ := signed 2147483648 (bigEndian bytes)

def i64 (bytes : Text) : ℤ := signed 9223372036854775808 (bigEndian bytes)

def minStamp : ℤ := -9223372036854775808

def maxStamp : ℤ := 9223372036854775807

/-- The 64-bit timestamps. -/
def IsStamp (stamp : ℤ) : Prop := minStamp ≤ stamp ∧ stamp ≤ maxStamp

instance (stamp : ℤ) : Decidable (IsStamp stamp) := inferInstanceAs (Decidable (_ ∧ _))

/-- The timestamp closest to a sum. -/
def saturating (stamp : ℤ) : ℤ := max minStamp (min maxStamp stamp)

/-- A sum that is a timestamp. -/
def checked (stamp : ℤ) : Option ℤ := if IsStamp stamp then some stamp else none

/-! ## The header -/

structure Header where
  version : UInt8
  utc : ℕ
  standard : ℕ
  leaps : ℕ
  times : ℕ
  types : ℕ
  chars : ℕ

/-- What comes after `n` bytes, if there are as many. -/
def sliceFrom (n : ℕ) (bytes : Text) : Option Text :=
  if n ≤ bytes.length then some (bytes.drop n) else none

/-- The first `n` bytes, if there are as many. -/
def sliceTo (n : ℕ) (bytes : Text) : Option Text :=
  if n ≤ bytes.length then some (bytes.take n) else none

def chunksExact (n : ℕ) (bytes : Text) : List Text :=
  (List.range (bytes.length / n)).map fun i => (bytes.drop (i * n)).take n

def Header.parse (bytes : Text) : Option Header := do
  let bytes ← sliceTo 44 bytes
  let version := bytes.getD 4 0
  if bytes.take 4 ≠ [84, 90, 105, 102] ∨ version ∉ [0, 50, 51] then none
  else
    let counts := (chunksExact 4 (bytes.drop 20)).map bigEndian
    let header : Header := {
      version := version
      utc := counts.getD 0 0
      standard := counts.getD 1 0
      leaps := counts.getD 2 0
      times := counts.getD 3 0
      types := counts.getD 4 0
      chars := counts.getD 5 0 }
    if ¬ (1 ≤ header.types ∧ header.types ≤ 256) ∨ header.chars = 0 ∨ 4096 < header.chars ∨
        100000 < header.times ∨ 100000 < header.leaps ∨ header.utc ∉ [0, header.types] ∨
        header.standard ∉ [0, header.types] then none
    else some header

/-- The bytes of the tables. The counts are limited, so that the checked
arithmetic of the sum does not fail (`Header.size_lt`). -/
def Header.size (header : Header) (width : ℕ) : ℕ :=
  header.times * (width + 1) + header.types * 6 + header.chars + header.leaps * (width + 4) +
    header.standard + header.utc

/-! ## The tables -/

structure Zone where
  /-- Instants with indices of offsets. -/
  transitions : List (ℤ × ℕ)
  offsets : List Offset
  future : Option Posix
  leapSeconds : Bool
deriving DecidableEq

/-- An offset of a record of six bytes; its name ends with a zero byte. -/
def Offset.decode (names record : Text) : Option Offset :=
  let seconds := i32 (record.take 4)
  let flag := record.getD 4 0
  if seconds = -2147483648 ∨ 1 < flag then none
  else do
    let name ← sliceFrom (record.getD 5 0).toNat names
    let stop ← name.findIdx? (· == 0)
    return ⟨seconds, name.take stop, flag == 1⟩

/-- The table of transitions, whose instants go up and whose indices are of
`count` offsets. -/
def tabulate (width count : ℕ) : List (Text × UInt8) → List (ℤ × ℕ) → Option (List (ℤ × ℕ))
  | [], table => some table
  | (time, index) :: entries, table =>
    let stamp := if width = 8 then i64 time else i32 time
    if count ≤ index.toNat ∨ (table.getLast?.any fun last => stamp ≤ last.1) = true then none
    else tabulate width count entries (table ++ [(stamp, index.toNat)])

/-- The rule string between two line feeds, if there is one. -/
def footer (tail : Text) : Option (Option Posix) := do
  let text ← byte 10 tail
  if text.getLast? ≠ some 10 then none
  else if text.dropLast = [] then some none
  else (Posix.parse text.dropLast).map some

/-- What follows the tables; with times of 4 bytes it is not read. -/
def recurring (width : ℕ) (tail : Text) : Option (Option Posix) :=
  if width = 8 then footer tail else some none

/-- The header that counts, what comes after it, and the width of its times. -/
def Header.locate (bytes : Text) (first : Header) : Option (Header × Text × ℕ) :=
  if first.version = 0 then (sliceFrom 44 bytes).map fun data => (first, data, 4)
  else do
    let skip := 44 + first.size 4
    let header ← Header.parse (← sliceFrom skip bytes)
    if header.version ≠ first.version then none
    else (sliceFrom (skip + 44) bytes).map fun data => (header, data, 8)

def Zone.parse (bytes : Text) : Option Zone := do
  let first ← Header.parse bytes
  let located ← first.locate bytes
  let header := located.1
  let data := located.2.1
  let width := located.2.2
  let block ← sliceTo (header.size width) data
  let timesEnd := header.times * width
  let indicesEnd := timesEnd + header.times
  let typesEnd := indicesEnd + header.types * 6
  let names ← sliceTo header.chars (block.drop typesEnd)
  let offsets ← (chunksExact 6 ((block.take typesEnd).drop indicesEnd)).mapM (Offset.decode names)
  let times := chunksExact width (block.take timesEnd)
  let indices := (block.take indicesEnd).drop timesEnd
  let transitions ← tabulate width offsets.length (times.zip indices) []
  let future ← recurring width (data.drop (header.size width))
  return ⟨transitions, offsets, future, first.leaps != 0 || header.leaps != 0⟩

/-- The zone when nothing is found. -/
def Zone.utc (name : Text) : Zone := ⟨[], [⟨0, name, false⟩], none, false⟩

/-- The zone of a rule string alone. -/
def Zone.ofRules (posix : Posix) : Zone := ⟨[], [], some posix, false⟩

/-! ## Lookups -/

/-- Where the offset of an instant in the table is; before the table it is the
first that is not daylight saving time. -/
def Zone.index (zone : Zone) (stamp : ℤ) : ℕ :=
  let count := (zone.transitions.takeWhile fun entry => decide (entry.1 ≤ stamp)).length
  if count = 0 then (zone.offsets.findIdx? fun offset => !offset.daylight).getD 0
  else (zone.transitions.getD (count - 1) (0, 0)).2

def Zone.at (zone : Zone) (stamp : ℤ) : Option Offset :=
  let future := if zone.transitions.getLast?.all fun last => decide (last.1 < stamp)
    then zone.future else none
  future.elim zone.offsets[zone.index stamp]? fun posix => some (posix.at stamp)

def Zone.offset (zone : Zone) (stamp : ℤ) : Option ℤ := (zone.at stamp).map fun o => o.seconds

def Zone.wall (zone : Zone) (stamp : ℤ) : Option ℤ :=
  (zone.offset stamp).map fun seconds => saturating (stamp + seconds)

/-- The first instant with the wall clock. -/
def Zone.withWall (zone : Zone) (wall : ℤ) : List ℤ → Option (Option ℤ)
  | [] => some none
  | stamp :: stamps => do
    let found ← zone.wall stamp
    if found = wall then some (some stamp) else zone.withWall wall stamps

/-- The instant of a wall clock, and its offset as the next guess. -/
def Zone.resolve (zone : Zone) (wall guess : ℤ) : Option (Option (ℤ × ℤ)) := do
  let preferred ← zone.at (saturating (wall - guess))
  let offsets := preferred :: zone.offsets ++ (zone.future.map Posix.offsets).getD []
  let found ← zone.withWall wall (offsets.filterMap fun offset => checked (wall - offset.seconds))
  found.elim (some none) fun stamp => (zone.offset stamp).map fun seconds => some (stamp, seconds)

end Ferret.Find.TimeZone
