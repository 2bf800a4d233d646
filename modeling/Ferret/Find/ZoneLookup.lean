import Ferret.Find.PosixLatest
import Ferret.Find.Zone
import Mathlib.Data.List.GetD

/-!
# Lookups in a time zone

In a zone that is parsed every index is of an offset, so that a lookup finds one
at every instant. A wall clock away from the limits of timestamps is resolved to
an instant that has it whenever there is one, since the offset of that instant is
among those that are tried.
-/

namespace Ferret.Find.TimeZone

open List Option

/-! ## What is parsed -/

/-- Zones as they are loaded. -/
structure Zone.Valid (zone : Zone) : Prop where
  /-- The table goes up, so that a search for a place in it is one for a prefix. -/
  sorted : zone.transitions.Pairwise fun a b => a.1 < b.1
  inRange : ∀ entry ∈ zone.transitions, entry.2 < zone.offsets.length
  covered : zone.offsets ≠ [] ∨ zone.transitions = [] ∧ zone.future.isSome = true

theorem mapM_length {α β : Type} {f : α → Option β} {l : List α} {found : List β}
    (h : l.mapM f = some found) : found.length = l.length := by
  induction l generalizing found with
  | nil =>
    cases h
    rfl
  | cons a l ih =>
    rw [mapM_cons] at h
    obtain ⟨b, -, h⟩ := bind_eq_some_iff.mp h
    obtain ⟨_, hrest, h⟩ := bind_eq_some_iff.mp h
    cases h
    rw [length_cons, length_cons, ih hrest]

variable {stamp : ℤ} {bytes : Text} {zone : Zone}

/-- A table that goes up and ends before an instant is before it. -/
theorem before_of_last {table : List (ℤ × ℕ)} (hsorted : table.Pairwise fun a b => a.1 < b.1)
    (hlast : ¬ (table.getLast?.any fun last => decide (stamp ≤ last.1)) = true) :
    ∀ entry ∈ table, entry.1 < stamp := by
  intro entry hentry
  induction table using List.reverseRecOn with
  | nil => cases hentry
  | append_singleton table last _ =>
    rw [getLast?_append, getLast?_singleton] at hlast
    have hlast : last.1 < stamp := by simpa using hlast
    obtain ⟨-, -, hbefore⟩ := pairwise_append.mp hsorted
    obtain hentry | hentry := mem_append.mp hentry
    · exact (hbefore entry hentry last (mem_singleton_self last)).trans hlast
    · rw [mem_singleton.mp hentry]
      exact hlast

/-- **A table that is read goes up and is in range.** -/
theorem tabulate_valid {width count : ℕ} {entries : List (Text × UInt8)}
    {table found : List (ℤ × ℕ)} (h : tabulate width count entries table = some found)
    (hsorted : table.Pairwise fun a b => a.1 < b.1) (hrange : ∀ entry ∈ table, entry.2 < count) :
    (found.Pairwise fun a b => a.1 < b.1) ∧ ∀ entry ∈ found, entry.2 < count := by
  induction entries generalizing table with
  | nil =>
    cases h
    exact ⟨hsorted, hrange⟩
  | cons entry entries ih =>
    obtain ⟨time, _⟩ := entry
    rw [tabulate] at h
    generalize (if width = 8 then i64 time else i32 time) = stamp at h
    split_ifs at h with hbad
    obtain ⟨hindex, hlast⟩ := not_or.mp hbad
    refine ih h ?_ ?_
    · refine pairwise_append.mpr ⟨hsorted, pairwise_singleton _ _, ?_⟩
      intro a ha b hb
      rw [mem_singleton.mp hb]
      exact before_of_last hsorted hlast a ha
    · intro a ha
      obtain ha | ha := mem_append.mp ha
      · exact hrange a ha
      · rw [mem_singleton.mp ha]
        exact not_le.mp hindex

/-- A header has a type. -/
theorem Header.types_pos {header : Header} (h : Header.parse bytes = some header) :
    1 ≤ header.types := by
  obtain ⟨_, -, h⟩ := bind_eq_some_iff.mp h
  dsimp only at h
  split_ifs at h with _ hbad
  cases h
  exact (not_not.mp (not_or.mp hbad).1).1

theorem Header.locate_types {first : Header}
    (hfirst : Header.parse bytes = some first) {located : Header × Text × ℕ}
    (h : first.locate bytes = some located) : 1 ≤ located.1.types := by
  unfold locate at h
  split_ifs at h
  · obtain ⟨data, -, rfl⟩ := map_eq_some_iff.mp h
    exact types_pos hfirst
  · obtain ⟨_, -, h⟩ := bind_eq_some_iff.mp h
    obtain ⟨_, hheader, h⟩ := bind_eq_some_iff.mp h
    split_ifs at h
    obtain ⟨data, -, rfl⟩ := map_eq_some_iff.mp h
    exact types_pos hheader

theorem sliceTo_length {n : ℕ} {slice : Text} (h : sliceTo n bytes = some slice) :
    slice.length = n := by
  unfold sliceTo at h
  split_ifs at h with hle
  cases h
  exact length_take_of_le hle

theorem chunksExact_length (n : ℕ) (bytes : Text) :
    (chunksExact n bytes).length = bytes.length / n := by
  rw [chunksExact, length_map, length_range]

/-- **A zone that is parsed is valid.** -/
theorem Zone.parse_valid (h : Zone.parse bytes = some zone) : zone.Valid := by
  obtain ⟨_, hfirst, h⟩ := bind_eq_some_iff.mp h
  obtain ⟨_, hlocated, h⟩ := bind_eq_some_iff.mp h
  have htypes := Header.locate_types hfirst hlocated
  obtain ⟨_, hblock, h⟩ := bind_eq_some_iff.mp h
  obtain ⟨_, -, h⟩ := bind_eq_some_iff.mp h
  obtain ⟨offsets, hoffsets, h⟩ := bind_eq_some_iff.mp h
  obtain ⟨_, htransitions, h⟩ := bind_eq_some_iff.mp h
  obtain ⟨_, -, h⟩ := bind_eq_some_iff.mp h
  cases h
  obtain ⟨hsorted, hrange⟩ := tabulate_valid htransitions .nil nofun
  refine ⟨hsorted, hrange, .inl ?_⟩
  have hlength := mapM_length hoffsets
  have hsize := sliceTo_length hblock
  unfold Header.size at hsize
  have hchunk : 1 ≤ offsets.length := by
    rw [hlength, chunksExact_length, length_drop, length_take, hsize, mul_add, mul_one]
    omega
  exact ne_nil_of_length_pos hchunk

/-- A zone that comes of a file, of a rule string or of neither. -/
inductive Loaded : Zone → Prop
  | file {bytes : Text} {zone : Zone} : Zone.parse bytes = some zone → Loaded zone
  | rules {text : Text} {posix : Posix} : Posix.parse text = some posix →
    Loaded (Zone.ofRules posix)
  | utc (name : Text) : Loaded (Zone.utc name)

theorem Loaded.valid (h : Loaded zone) : zone.Valid := by
  cases h with
  | file h => exact Zone.parse_valid h
  | rules _ => exact ⟨.nil, nofun, .inr ⟨rfl, rfl⟩⟩
  | utc _ => exact ⟨.nil, nofun, .inl nofun⟩

/-! ## Offsets that are found -/

/-- **An index found is of an offset.** -/
theorem Zone.Valid.index_lt (h : zone.Valid) (hne : zone.offsets ≠ [])
    (stamp : ℤ) : zone.index stamp < zone.offsets.length := by
  unfold index
  dsimp only
  have hle := (takeWhile_sublist (l := zone.transitions)
    fun entry => decide (entry.1 ≤ stamp)).length_le
  generalize (zone.transitions.takeWhile fun entry => decide (entry.1 ≤ stamp)).length = count
    at hle
  split_ifs with hzero
  · cases hfound : zone.offsets.findIdx? fun offset => !offset.daylight with
    | none => exact length_pos_iff.mpr hne
    | some i => exact (findIdx?_eq_some_iff_findIdx_eq.mp hfound).1
  · have hlt : count - 1 < zone.transitions.length := by omega
    rw [getD_eq_getElem _ _ hlt]
    exact h.inRange _ (getElem_mem hlt)

/-- **Every instant has an offset.** -/
theorem Zone.Valid.at_isSome (h : zone.Valid) (stamp : ℤ) : (zone.at stamp).isSome = true := by
  unfold Zone.at
  dsimp only
  obtain hne | ⟨hnone, hfuture⟩ := h.covered
  · have hindex : zone.offsets[zone.index stamp]?.isSome = true :=
      isSome_iff_exists.mpr ⟨_, getElem?_eq_getElem (h.index_lt hne stamp)⟩
    split_ifs
    · cases zone.future with
      | none => exact hindex
      | some posix => rfl
    · exact hindex
  · obtain ⟨posix, hposix⟩ := isSome_iff_exists.mp hfuture
    rw [hnone, hposix]
    rfl

theorem later_mem {standard daylight : Offset} {found : List (ℤ × Offset)}
    (h : ∀ entry ∈ found, entry.2 = standard ∨ entry.2 = daylight) {init : ℤ × Offset}
    (hinit : init.2 = standard ∨ init.2 = daylight) :
    (found.foldl (later stamp) init).2 = standard ∨
      (found.foldl (later stamp) init).2 = daylight := by
  induction found generalizing init with
  | nil => exact hinit
  | cons entry found ih =>
    refine ih (fun e he => h e (.tail _ he)) ?_
    unfold later
    split_ifs
    · exact h entry (.head _)
    · exact hinit

/-- A rule string leads to one of its two offsets. -/
theorem Posix.at_mem (posix : Posix) (stamp : ℤ) : posix.at stamp ∈ posix.offsets := by
  unfold Posix.at Posix.offsets
  cases hdaylight : posix.daylight with
  | none => exact .head _
  | some found =>
    obtain ⟨daylight, start, stop⟩ := found
    have hentries : ∀ entry ∈ [(civilDate (stamp / 86400)).1 - 1, (civilDate (stamp / 86400)).1,
        (civilDate (stamp / 86400)).1 + 1].flatMap (transitions posix.standard daylight start stop),
        entry.2 = posix.standard ∨ entry.2 = daylight := by
      intro entry hentry
      obtain ⟨_, -, hentry⟩ := mem_flatMap.mp hentry
      unfold transitions at hentry
      obtain rfl | hentry := mem_cons.mp hentry
      · exact .inr rfl
      · rw [mem_singleton.mp hentry]
        exact .inl rfl
    have hinit : (i128Min, posix.standard).2 = posix.standard ∨
        (i128Min, posix.standard).2 = daylight := .inl rfl
    obtain hstandard | hother := later_mem hentries hinit
    · exact mem_cons.mpr (.inl hstandard)
    · exact mem_cons.mpr (.inr (mem_singleton.mpr hother))

/-- The offset of an instant is among those of the zone. -/
theorem Zone.at_mem {offset : Offset} (h : zone.at stamp = some offset) :
    offset ∈ zone.offsets ++ (zone.future.map Posix.offsets).getD [] := by
  unfold Zone.at at h
  dsimp only at h
  split_ifs at h
  · cases hfuture : zone.future with
    | none =>
      rw [hfuture] at h
      exact mem_append_left _ (mem_of_getElem? h)
    | some posix =>
      rw [hfuture] at h
      cases h
      exact mem_append_right _ (posix.at_mem stamp)
  · exact mem_append_left _ (mem_of_getElem? h)

/-! ## Wall clocks -/

/-- What is found first has the wall clock; if nothing is, none of them has it. -/
theorem Zone.Valid.withWall_eq (h : zone.Valid) (wall : ℤ) (stamps : List ℤ) :
    ∃ found, zone.withWall wall stamps = some found ∧
      (∀ stamp, found = some stamp → zone.wall stamp = some wall) ∧
      (found = none → ∀ stamp ∈ stamps, zone.wall stamp ≠ some wall) := by
  induction stamps with
  | nil => exact ⟨none, rfl, fun _ h => (by cases h), nofun⟩
  | cons stamp stamps ih =>
    obtain ⟨offset, hoffset⟩ := isSome_iff_exists.mp (h.at_isSome stamp)
    have hwall : zone.wall stamp = some (saturating (stamp + offset.seconds)) := by
      rw [Zone.wall, Zone.offset, hoffset]
      rfl
    by_cases heq : saturating (stamp + offset.seconds) = wall
    · refine ⟨some stamp, ?_, ?_, nofun⟩
      · rw [withWall, hwall]
        exact if_pos heq
      · rintro _ ⟨⟩
        rw [hwall, heq]
    · obtain ⟨found, hfound, hhas, hnone⟩ := ih
      refine ⟨found, ?_, hhas, ?_⟩
      · rw [withWall, hwall]
        exact (if_neg heq).trans hfound
      · intro hfound s hs
        obtain rfl | hs := mem_cons.mp hs
        · rw [hwall]
          exact fun hsame => heq (Option.some.inj hsame)
        · exact hnone hfound s hs

/-- Away from the limits a wall clock is a sum that did not saturate. -/
theorem eq_of_saturating {wall : ℤ} (hwall : minStamp < wall ∧ wall < maxStamp)
    (h : saturating stamp = wall) : stamp = wall := by
  unfold saturating minStamp maxStamp at *
  omega

/-- **A wall clock is resolved** to an instant that has it; away from the limits
that is done unless there is none. -/
theorem Zone.Valid.resolve_eq (h : zone.Valid) (wall guess : ℤ) :
    ∃ found, zone.resolve wall guess = some found ∧
      (∀ stamp next, found = some (stamp, next) → zone.wall stamp = some wall) ∧
      (found = none → minStamp < wall ∧ wall < maxStamp →
        ∀ stamp, IsStamp stamp → zone.wall stamp ≠ some wall) := by
  obtain ⟨preferred, hpreferred⟩ :=
    isSome_iff_exists.mp (h.at_isSome (saturating (wall - guess)))
  have hresolve : zone.resolve wall guess = (zone.withWall wall
      ((preferred :: zone.offsets ++ (zone.future.map Posix.offsets).getD []).filterMap
        fun offset => checked (wall - offset.seconds))).bind fun found =>
      found.elim (some none) fun stamp =>
        (zone.offset stamp).map fun seconds => some (stamp, seconds) := by
    rw [Zone.resolve, hpreferred]
    rfl
  obtain ⟨found, hfound, hhas, hnone⟩ := h.withWall_eq wall
    ((preferred :: zone.offsets ++ (zone.future.map Posix.offsets).getD []).filterMap
      fun offset => checked (wall - offset.seconds))
  rw [hresolve, hfound]
  cases found with
  | some stamp =>
    obtain ⟨offset, hoffset⟩ := isSome_iff_exists.mp (h.at_isSome stamp)
    refine ⟨some (stamp, offset.seconds), ?_, ?_, nofun⟩
    · rw [bind_some]
      show (zone.offset stamp).map _ = _
      rw [Zone.offset, hoffset]
      rfl
    · rintro _ _ ⟨⟩
      exact hhas stamp rfl
  | none =>
    refine ⟨none, rfl, fun _ _ h => (by cases h), fun _ hwall stamp hstamp hhas => ?_⟩
    -- the offset of the instant is tried, and leads to the instant
    obtain ⟨seconds, hoffset, hsaturating⟩ := map_eq_some_iff.mp hhas
    obtain ⟨offset, hat, rfl⟩ := map_eq_some_iff.mp hoffset
    have hsum := eq_of_saturating hwall hsaturating
    refine hnone rfl stamp (mem_filterMap.mpr ⟨offset, ?_, ?_⟩) hhas
    · exact .tail _ (Zone.at_mem hat)
    · rw [← hsum, add_sub_cancel_right]
      exact if_pos hstamp

/-- **Local time.** Every instant has an offset, and wall clocks away from the
limits are resolved. What a rule string says is in force at an instant is what
its latest transition leads to, if that is covered, and only then. -/
theorem local_time_iff {zone : Zone} (hzone : Loaded zone) {text : Text} {posix : Posix}
    (hparse : Posix.parse text = some posix) :
    (∀ stamp, IsStamp stamp → (zone.at stamp).isSome = true) ∧
    (∀ wall guess, minStamp < wall ∧ wall < maxStamp →
      ∃ found, zone.resolve wall guess = some found ∧
        (∀ stamp next, found = some (stamp, next) → zone.wall stamp = some wall) ∧
        (found = none → ∀ stamp, IsStamp stamp → zone.wall stamp ≠ some wall)) ∧
    ∀ stamp, IsStamp stamp →
      (posix.seasons = none → posix.at stamp = posix.standard) ∧
      ∀ s, posix.seasons = some s → ∃ n, s.Latest stamp n ∧ (∀ m, s.Latest stamp m → m = n) ∧
        (posix.at stamp = s.after n ↔ s.Covered stamp n) := by
  refine ⟨fun stamp _ => hzone.valid.at_isSome stamp, ?_, ?_⟩
  · intro wall guess hwall
    obtain ⟨found, hfound, hhas, hnone⟩ := hzone.valid.resolve_eq wall guess
    exact ⟨found, hfound, hhas, fun h => hnone h hwall⟩
  · intro stamp hstamp
    refine ⟨fun hnone => ?_, fun s hs => (parse_valid hparse).at_latest_iff hs hstamp.1⟩
    rw [Posix.at, map_eq_none_iff.mp hnone]

/-- Daylight saving time from the second of January to seven days after the end
of the year. -/
def lateRules : Text :=
  [65, 65, 65, 48, 66, 66, 66, 44, 74, 50, 47, 48, 44, 74, 51, 54, 53, 47, 49, 54, 55]

def lateSeasons : Seasons where
  standard := ⟨0, [65, 65, 65], false⟩
  daylight := ⟨3600, [66, 66, 66], true⟩
  start := ⟨.julian 2, 0⟩
  stop := ⟨.julian 365, 601200⟩

def latePosix : Posix := ⟨lateSeasons.standard,
  some (lateSeasons.daylight, lateSeasons.start, lateSeasons.stop)⟩

theorem lateRules_eq : Posix.parse lateRules = some latePosix := by
  decide +kernel

theorem lateSeasons_eq : latePosix.seasons = some lateSeasons := rfl

/-- On the first of January 1971 the latest transition is the end of daylight
saving time in 1969, seven days after that year; the pass over the years from 1970
on finds the start on the second of January 1970 instead. -/
theorem transition_missed :
    IsStamp 31536000 ∧ Posix.parse lateRules = some latePosix ∧
      latePosix.seasons = some lateSeasons ∧
      ∃ n, lateSeasons.Latest 31536000 n ∧ latePosix.at 31536000 ≠ lateSeasons.after n := by
  refine ⟨by decide, lateRules_eq, lateSeasons_eq, ?_⟩
  have hvalid := parse_valid lateRules_eq
  obtain ⟨n, hlatest, -, hiff⟩ := hvalid.at_latest_iff lateSeasons_eq
    (show (-9223372036854775808 : ℤ) ≤ 31536000 by decide)
  obtain ⟨-, hhi⟩ :=
    hlatest.bounds (hvalid.seasons lateSeasons_eq) (civilDate_year (31536000 / 86400))
  refine ⟨n, hlatest, fun heq => ?_⟩
  obtain hlo | ⟨-, hcoming⟩ := hiff.mp heq
  · have hearlier := hlatest.latest 3939 (by decide)
    have hle := hlatest.le
    have hlo : 3940 ≤ n := hlo
    have hhi : n ≤ 3945 := hhi
    interval_cases n
    · exact absurd hearlier (by decide)
    all_goals exact absurd hle (by decide)
  · exact absurd hcoming (by decide)

/-- A file of one offset, five and a half hours ahead. -/
def fixedFile : Text :=
  [84, 90, 105, 102] ++ List.replicate 35 0 ++ [1, 0, 0, 0, 4] ++
    [0, 0, 77, 88, 0, 0, 73, 83, 84, 0]

theorem fixedFile_eq :
    Zone.parse fixedFile = some ⟨[], [⟨19800, [73, 83, 84], false⟩], none, false⟩ := by
  decide +kernel

theorem local_time_iff_fixed :
    ∃ zone, Zone.parse fixedFile = some zone ∧ (zone.at 0).isSome = true ∧
      (∃ found, zone.resolve 19800 0 = some found ∧
        (∀ stamp next, found = some (stamp, next) → zone.wall stamp = some 19800)) ∧
      ∃ n, lateSeasons.Latest 0 n ∧
        (latePosix.at 0 = lateSeasons.after n ↔ lateSeasons.Covered 0 n) := by
  obtain ⟨hat, hresolve, hforce⟩ := local_time_iff (.file fixedFile_eq) lateRules_eq
  obtain ⟨found, hfound, hhas, -⟩ := hresolve 19800 0 (by decide)
  obtain ⟨n, hlatest, -, hiff⟩ := (hforce 0 (by decide)).2 lateSeasons lateSeasons_eq
  exact ⟨_, fixedFile_eq, hat 0 (by decide), ⟨found, hfound, hhas⟩, n, hlatest, hiff⟩

end Ferret.Find.TimeZone
