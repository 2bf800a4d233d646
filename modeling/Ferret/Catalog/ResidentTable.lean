import Ferret.Catalog.ResidentPart

/-!
# The resident names, whatever the threads

A name that sorts before another is in no later part, so the parts' tables,
one after the other, are the sorted set of all the names; each name's rows are
all in its part; and a row's key, its part's first and its place in the part, is
its name's place in the whole. What a build makes is thus said without its
parts, and read back it is a table of the names.
-/

namespace Ferret.Catalog

open Scatter Chunked List

/-! ## Parts in order -/

variable {parts : ℕ}

theorem length_splitters_lt (names : List Bytes) (hparts : 0 < parts) :
    (splitters names parts).length < parts := by
  unfold splitters
  dsimp only
  split
  · exact hparts
  · rw [length_map, length_range']
    omega

theorem part_of_lt (names : List Bytes) (hparts : 0 < parts) (name : Bytes) :
    Split.part_of (splitters names parts) name < parts :=
  (( takeWhile_prefix _).length_le).trans_lt (length_splitters_lt names hparts)

theorem partition_point_mono (splitters : List ℕ) {a b : ℕ} (h : a ≤ b) :
    partition_point splitters a ≤ partition_point splitters b := by
  unfold partition_point
  induction splitters with
  | nil => exact le_rfl
  | cons s splitters ih =>
    rw [takeWhile_cons, takeWhile_cons]
    by_cases hs : s ≤ a
    · rw [decide_eq_true hs, decide_eq_true (hs.trans h)]
      exact Nat.succ_le_succ ih
    · rw [decide_eq_false hs]
      exact Nat.zero_le _

/-- **A name of an earlier part sorts first.** -/
theorem lt_of_part_of_lt (splitters : List ℕ) {a b : Bytes}
    (h : Split.part_of splitters a < Split.part_of splitters b) : a < b :=
  lt_of_prefix8_lt (lt_of_not_ge fun hle => (partition_point_mono splitters hle).not_gt h)

section

variable {names : List Bytes} {splitters : List ℕ} {p : ℕ}

/-- The rows of a part. -/
def part_rows (splitters : List ℕ) (names : List Bytes) (p : ℕ) : List ℕ :=
  rows_of (names.map (Split.part_of splitters)) p

theorem mem_part_rows {row : ℕ} : row ∈ part_rows splitters names p
    ↔ ∃ name, names[row]? = some name ∧ Split.part_of splitters name = p := by
  rw [part_rows, mem_rows_of, getElem?_map, Option.map_eq_some_iff]

theorem length_part_rows_le (splitters : List ℕ) (names : List Bytes) (p : ℕ) :
    (part_rows splitters names p).length ≤ names.length := by
  rw [part_rows, rows_of, length_having, map_fst_zipIdx]
  exact count_le_length.trans_eq (length_map _)

variable {name : Bytes}

theorem getD_of_getElem? {row : ℕ} (h : names[row]? = some name) :
    names.getD row [] = name := by
  rw [getD_eq_getElem?_getD, h]
  rfl

/-- The names of a part, in order. -/
def part_names (splitters : List ℕ) (names : List Bytes) (p : ℕ) : List Bytes :=
  dictionary ((part_rows splitters names p).map fun row => names.getD row [])

theorem mem_part_names : name ∈ part_names splitters names p
    ↔ name ∈ names ∧ Split.part_of splitters name = p := by
  rw [part_names, mem_dictionary, mem_map]
  constructor
  · rintro ⟨row, hrow, heq⟩
    obtain ⟨_, hname, hpart⟩ := mem_part_rows.mp hrow
    rw [getD_of_getElem? hname] at heq
    exact heq ▸ ⟨mem_of_getElem? hname, hpart⟩
  · rintro ⟨hmem, hpart⟩
    obtain ⟨row, hrow⟩ := mem_iff_getElem?.mp hmem
    exact ⟨row, mem_part_rows.mpr ⟨name, hrow, hpart⟩, getD_of_getElem? hrow⟩

/-- **The parts' names, one part after the other, are the sorted set.** -/
theorem flatten_part_names (h : ∀ name ∈ names, Split.part_of splitters name < parts) :
    ((List.range parts).map (part_names splitters names)).flatten = dictionary names := by
  refine eq_dictionary ?_ fun name => ?_
  · rw [pairwise_flatten]
    constructor
    · intro l hl
      obtain ⟨p, -, rfl⟩ := mem_map.mp hl
      exact pairwise_dictionary _
    · rw [pairwise_map]
      refine pairwise_lt_range.imp fun hlt a ha b hb => ?_
      refine lt_of_part_of_lt splitters ?_
      rwa [(mem_part_names.mp ha).2, (mem_part_names.mp hb).2]
  · rw [← flatMap_def, mem_flatMap]
    constructor
    · rintro ⟨p, -, hname⟩
      exact (mem_part_names.mp hname).1
    · intro hname
      exact ⟨_, mem_range.mpr (h name hname), mem_part_names.mpr ⟨hname, rfl⟩⟩

/-- **A name's rows are all in its part.** -/
theorem posted_part_rows (hname : name ∈ part_names splitters names p) :
    posted names (part_rows splitters names p) name
      = posted names (List.range names.length) name := by
  obtain ⟨-, hpart⟩ := mem_part_names.mp hname
  refine ((pairwise_rows_of _ _).filter _).eq_of_mem_iff (pairwise_lt_range.filter _)
    fun row => ?_
  rw [mem_filter, posted, mem_filter, decide_eq_true_iff, mem_range]
  constructor
  · rintro ⟨hrow, heq⟩
    obtain ⟨_, hget, -⟩ := mem_part_rows.mp hrow
    exact ⟨(List.getElem?_eq_some_iff.mp hget).1, heq⟩
  · rintro ⟨hlt, heq⟩
    have hget := getElem?_eq_getElem hlt
    rw [getD_of_getElem? hget] at heq
    exact ⟨mem_part_rows.mpr ⟨_, hget, heq ▸ hpart⟩, by rw [getD_of_getElem? hget, heq]⟩

/-- **A row's key**: its part's first, and its name's place in the part. -/
theorem first_add_idxOf (h : ∀ name ∈ names, Split.part_of splitters name < parts)
    (hname : name ∈ names) (hpart : Split.part_of splitters name = p) :
    (starts 0 (((List.range parts).map (part_names splitters names)).map List.length)).getD p 0
        + (part_names splitters names p).idxOf name = (dictionary names).idxOf name := by
  have hp : p < parts := hpart ▸ h name hname
  have hmem : name ∈ part_names splitters names p := mem_part_names.mpr ⟨hname, hpart⟩
  have hslot : ((List.range parts).map (part_names splitters names))[p]?
      = some (part_names splitters names p) := by
    rw [getElem?_map, getElem?_range hp]
    rfl
  have hstart : (starts 0 (((List.range parts).map (part_names splitters names)).map
      List.length)).getD p 0
        = ((((List.range parts).map (part_names splitters names)).map List.length).take p).sum := by
    rw [getD_eq_getElem?_getD, getElem?_starts 0 (by simpa using hp), zero_add]
    rfl
  have hget := getElem?_flatten_slot hslot (idxOf_lt_length_iff.mpr hmem)
  rw [getElem?_idxOf hmem, flatten_part_names h] at hget
  obtain ⟨hlt, heq⟩ := List.getElem?_eq_some_iff.mp hget
  rw [hstart]
  conv_rhs => rw [← heq]
  exact ((nodup_dictionary names).idxOf_getElem _ hlt).symm

end

/-! ## The build without its parts -/

section

variable (packing : NamePacking)

theorem append_encoded (before : List (List ℕ)) (lists : List (List (List ℕ))) :
    PackedNameLists.append (encoded packing before).counts (encoded packing before).offsets
        (encoded packing before).bytes (lists.map (encoded packing))
      = ((encoded packing (before ++ lists.flatten)).counts,
        (encoded packing (before ++ lists.flatten)).offsets,
        (encoded packing (before ++ lists.flatten)).bytes) := by
  induction lists generalizing before with
  | nil =>
    rw [flatten_nil, append_nil]
    rfl
  | cons list lists ih =>
    have hstep : PackedNameLists.append (encoded packing before).counts
        (encoded packing before).offsets (encoded packing before).bytes
        ((list :: lists).map (encoded packing))
          = PackedNameLists.append (encoded packing (before ++ list)).counts
            (encoded packing (before ++ list)).offsets (encoded packing (before ++ list)).bytes
            (lists.map (encoded packing)) := by
      rw [map_cons, PackedNameLists.append]
      simp only [encoded, map_append, flatMap_append, starts_append, zero_add,
        starts_add, add_zero, length_flatMap_encode]
    rw [hstep, ih, flatten_cons, append_assoc]

/-- **The lists of several builders are packed as those of one.** -/
theorem concat_encoded (lists : List (List (List ℕ))) :
    PackedNameLists.concat packing (lists.map (encoded packing))
      = PackedNameLists.concat packing [encoded packing lists.flatten] := by
  have hmany := append_encoded packing [] lists
  have hone := append_encoded packing [] [lists.flatten]
  rw [flatten_singleton] at hone
  have h : PackedNameLists.append [] [] [] (lists.map (encoded packing))
      = PackedNameLists.append [] [] [] [encoded packing lists.flatten] := hmany.trans hone.symm
  rw [PackedNameLists.concat, h, PackedNameLists.concat]

/-- The rows of each distinct name. -/
def all_posted (names : List Bytes) : List (List ℕ) :=
  (dictionary names).map (posted names (List.range names.length))

/-- The resident names, said without parts. -/
def table_of (names : List Bytes) : Option ResidentNames := do
  let distinct_names ← PackedStrings.new packing (dictionary names)
  let postings ← PackedNameLists.concat packing [encoded packing (all_posted names)]
  let keys ← Keys.from_values packing (names.map (dictionary names).idxOf)
  return ⟨distinct_names, keys, postings, (dictionary names).length, names.length⟩

/-- A part, said without its table. -/
def part_at (splitters : List ℕ) (names : List Bytes) (p : ℕ) : Part where
  names := part_names splitters names p
  lists := encoded packing ((part_names splitters names p).map
    (posted names (part_rows splitters names p)))
  keys := (part_rows splitters names p).map fun row =>
    (part_names splitters names p).idxOf (names.getD row [])

variable {packing} {into_iter : List (Bytes × ℕ) → List (Bytes × ℕ)} {names : List Bytes}
variable {splitters : List ℕ}

theorem build_parts_eq (hiter : ∀ entries, (into_iter entries).Perm entries)
    (hrows : names.length < 2 ^ 32) (parts : ℕ) :
    build_parts packing into_iter names
        (((List.range parts).map (part_rows splitters names)).flatten)
        (tally parts (names.map (Split.part_of splitters)))
      = some ((List.range parts).map (part_at packing splitters names)) := by
  have hlengths : ((List.range parts).map (part_rows splitters names)).map List.length
      = tally parts (names.map (Split.part_of splitters)) := Split.map_length_rows_of parts _
  have hpart (p : ℕ) : Part.build packing into_iter names (part_rows splitters names p)
      (List.replicate (part_rows splitters names p).length 0)
        = some (part_at packing splitters names p) :=
    build_part_eq hiter names (pairwise_rows_of _ _)
      ((length_part_rows_le splitters names p).trans_lt hrows) length_replicate
  unfold build_parts fan_out
  rw [← hlengths, spans_flatten, map_map, mapM_map]
  simp only [Function.comp_def, id, hpart]
  exact mapM_pure

/-- **A build makes the same table on any number of threads.** -/
theorem build_with_eq (hiter : ∀ entries, (into_iter entries).Perm entries)
    (hrows : names.length < 2 ^ 32) (threads : ℕ) :
    ResidentNames.build_with packing into_iter names threads = table_of packing names := by
  set parts := min (max threads 1) 255 with hparts
  have hpos : 0 < parts := by omega
  have hle : parts ≤ 255 := min_le_right ..
  set split : Split := ⟨parts, max ((names.length + (parts - 1)) / parts) 1⟩ with hsplit
  have hchunk : 0 < split.chunk := lt_of_lt_of_le one_pos (le_max_right ..)
  set cutters := Ferret.Catalog.splitters names parts with hcutters
  have hshort : cutters.length < 256 := (length_splitters_lt names hpos).trans_le (by omega)
  have hlt : ∀ name ∈ names, Split.part_of cutters name < parts := fun name _ =>
    part_of_lt names hpos name
  have hltpart : ∀ p ∈ names.map (Split.part_of cutters), p < split.parts := by
    intro p hp
    obtain ⟨name, hname, rfl⟩ := mem_map.mp hp
    exact hlt name hname
  have hfirsts : (((List.range parts).map (part_at packing cutters names)).map
      fun part => part.names.length)
        = ((List.range parts).map (part_names cutters names)).map List.length := by
    rw [map_map, map_map]
    rfl
  have hids : ((names.map (Split.part_of cutters)).zipIdx.map fun item =>
      (starts 0 (((List.range parts).map (part_names cutters names)).map List.length)).getD item.1 0
        + (part_names cutters names item.1).idxOf (names.getD item.2 []))
        = names.map (dictionary names).idxOf := by
    refine ext_getElem? fun row => ?_
    rw [getElem?_map, getElem?_zipIdx, getElem?_map, getElem?_map]
    cases hname : names[row]? with
    | none => rfl
    | some name =>
      simp only [Option.map_some, zero_add, getD_of_getElem? hname]
      rw [first_add_idxOf hlt (mem_of_getElem? hname) rfl]
  have hkeys : split.keys (names.map (Split.part_of cutters))
      ((cut split.chunk (names.map (Split.part_of cutters))).map (tally split.parts))
      (tally parts (names.map (Split.part_of cutters)))
      (((List.range parts).map (part_at packing cutters names)).flatMap Part.keys)
      (starts 0 (((List.range parts).map (part_names cutters names)).map List.length))
        = names.map (dictionary names).idxOf := by
    rw [flatMap_def, map_map, ← hids]
    exact Split.keys_eq hchunk hltpart
      (fun p row => (part_names cutters names p).idxOf (names.getD row [])) _
  have hnames : ((List.range parts).map (part_at packing cutters names)).flatMap Part.names
      = dictionary names := by
    rw [flatMap_def, map_map]
    exact flatten_part_names hlt
  have hlists : PackedNameLists.concat packing
      (((List.range parts).map (part_at packing cutters names)).map Part.lists)
        = PackedNameLists.concat packing [encoded packing (all_posted names)] := by
    have hposted : ((List.range parts).map fun p => (part_names cutters names p).map
        (posted names (part_rows cutters names p))).flatten = all_posted names := by
      rw [all_posted, ← flatten_part_names hlt, map_flatten, map_map]
      refine congrArg List.flatten (map_congr_left fun p _ => ?_)
      exact map_congr_left fun name hname => posted_part_rows hname
    rw [← hposted, ← concat_encoded, map_map, map_map]
    rfl
  have hdistinct : (((List.range parts).map (part_names cutters names)).map List.length).sum
      = (dictionary names).length := by
    rw [← flatten_part_names hlt, length_flatten]
  unfold ResidentNames.build_with
  dsimp only
  rw [← hparts, ← hsplit, ← hcutters, Split.assign_eq hchunk hshort]
  have hbuild : build_parts packing into_iter names
      ((List.range split.parts).map (rows_of (names.map (Split.part_of cutters)))).flatten
      (tally parts (names.map (Split.part_of cutters)))
        = some ((List.range parts).map (part_at packing cutters names)) :=
    build_parts_eq hiter hrows parts
  have hsizes : (List.range parts).map (fun p =>
      (((cut split.chunk (names.map (Split.part_of cutters))).map (tally split.parts)).map
        fun c => c.getD p 0).sum) = tally parts (names.map (Split.part_of cutters)) :=
    Split.sizes_eq (names.map (Split.part_of cutters)) hchunk
  rw [Split.group_eq hchunk, hsizes, hbuild, Option.bind_eq_bind, Option.bind_some, hfirsts, hkeys,
    hnames, hlists, hdistinct]
  rfl

end

end Ferret.Catalog
