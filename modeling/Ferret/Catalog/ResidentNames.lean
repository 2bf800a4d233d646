import Ferret.Catalog.Packed
import Ferret.Index.Intpack
import Ferret.Lib.Chunks
import Ferret.Lib.Scatter

/-!
# Resident names

The distinct names of a checkpoint, in order, the key of each row's name, and
the rows of each name. A build splits its rows by name range, so that the parts'
tables follow one another: every name of a part sorts before every name of the
next. The parts are cut at sampled prefixes, and the rows grouped by part chunk
by chunk; each part interns, sorts and posts its own names and leaves a local
key in each row's place, from which the rows' keys are read back.

A reader's names are a list, the name of row `i` in place `i`. There are fewer
than `2 ^ 32` rows, so that no row number is cut off. The library that packs
numbers is a parameter, and so is the order in which a hash table hands back
what it holds.
-/

namespace Ferret.Catalog

open Scatter

/-! ## Packings -/

/-- What the tables use of the packing library. -/
structure NamePacking where
  /-- Values written one after the other at one width. -/
  put : ℕ → List ℕ → Bytes
  /-- The value of a width at a bit. -/
  get : Bytes → ℕ → ℕ → ℕ
  encode_sorted : List ℕ → Bytes
  decode_sorted : ℕ → Bytes → List ℕ

/-- What the tables rely on: eight bytes past the end, values of up to 57 bits
are read back, and so are sorted lists. -/
structure NamePacking.Contract (packing : NamePacking) : Prop where
  get : ∀ {w : ℕ} {values : List ℕ} {i v : ℕ}, w ≤ 57 → (∀ v ∈ values, v < 2 ^ w) →
    values[i]? = some v →
    packing.get (packing.put w values ++ List.replicate 8 0) (i * w) w = v
  decode : ∀ {list : List ℕ}, Intpack.Packable list →
    packing.decode_sorted list.length (packing.encode_sorted list) = list

section

variable (packing : NamePacking)

/-- An owned fixed-width array. -/
structure Keys where
  width : ℕ
  len : ℕ
  bytes : Bytes

namespace Keys

/-- `none` where a width cannot be addressed. -/
def from_values (values : List ℕ) : Option Keys :=
  let width := Catalog.width (values.foldr max 0)
  if width ≤ 57 then some ⟨width, values.length, packing.put width values ++ List.replicate 8 0⟩
  else none

/-- `none` out of range. -/
def get_offset (keys : Keys) (index : ℕ) : Option ℕ :=
  if index < keys.len then some (packing.get keys.bytes (index * keys.width) keys.width) else none

def get (keys : Keys) (index : ℕ) : Option ℕ := (keys.get_offset packing index).map (· % 2 ^ 32)

end Keys

/-- Byte strings in one byte table with packed offsets. -/
structure PackedStrings where
  table : Bytes
  offsets : Keys

namespace PackedStrings

/-- Packs strings in the order given. -/
def new (strings : List Bytes) : Option PackedStrings := do
  let table := strings.flatten
  let offsets ← Keys.from_values packing (starts 0 (strings.map List.length) ++ [table.length])
  return ⟨table, offsets⟩

def get (strings : PackedStrings) (index : ℕ) : Option Bytes := do
  let start ← strings.offsets.get_offset packing index
  let stop ← strings.offsets.get_offset packing (index + 1)
  if start ≤ stop ∧ stop ≤ strings.table.length then
    return slice strings.table start (stop - start)
  else none

end PackedStrings

/-- Lists being encoded: counts, start offsets and bytes. -/
structure ListsBuilder where
  counts : List ℕ := []
  offsets : List ℕ := []
  bytes : Bytes := []

/-- `none` for a list that does not ascend, or is too long. -/
def ListsBuilder.push (builder : ListsBuilder) (list : List ℕ) : Option ListsBuilder :=
  if list.IsChain (· < ·) ∧ list.length < 2 ^ 32 then
    some ⟨builder.counts ++ [list.length], builder.offsets ++ [builder.bytes.length],
      builder.bytes ++ packing.encode_sorted list⟩
  else none

/-- Counted packed lists. -/
structure PackedNameLists where
  counts : Keys
  offsets : Keys
  bytes : Bytes

namespace PackedNameLists

/-- The loop of `concat`. -/
def append (counts offsets : List ℕ) (bytes : Bytes) :
    List ListsBuilder → List ℕ × List ℕ × Bytes
  | [] => (counts, offsets, bytes)
  | builder :: builders =>
    append (counts ++ builder.counts) (offsets ++ builder.offsets.map (bytes.length + ·))
      (bytes ++ builder.bytes) builders

/-- The lists of each builder in turn, as one. -/
def concat (builders : List ListsBuilder) : Option PackedNameLists := do
  let (counts, offsets, bytes) := append [] [] [] builders
  let counts ← Keys.from_values packing counts
  let offsets ← Keys.from_values packing (offsets ++ [bytes.length])
  return ⟨counts, offsets, bytes⟩

def count (lists : PackedNameLists) (list : ℕ) : Option ℕ := lists.counts.get packing list

def get (lists : PackedNameLists) (list : ℕ) : Option (List ℕ) := do
  let start ← lists.offsets.get_offset packing list
  let stop ← lists.offsets.get_offset packing (list + 1)
  let count ← lists.count packing list
  if start ≤ stop ∧ stop ≤ lists.bytes.length then
    return packing.decode_sorted count (slice lists.bytes start (stop - start))
  else none

end PackedNameLists

end

/-! ## Name ranges -/

/-- A name's first eight bytes as a big-endian number, zero-padded. -/
def prefix8 (name : Bytes) : ℕ :=
  (name.take 8 ++ List.replicate (8 - min name.length 8) 0).foldl
    (fun n (b : UInt8) => n * 256 + b.toNat) 0

/-- `parts - 1` ascending prefixes cutting a sample of the names into `parts`
ranges of about equal size. -/
def splitters (names : List Bytes) (parts : ℕ) : List ℕ :=
  let rows := names.length
  if parts = 1 ∨ rows = 0 then []
  else
    let samples := min rows (256 * parts)
    let sample := ((List.range samples).map fun i => prefix8 (names.getD (i * rows / samples) []))
      |>.mergeSort (· ≤ ·)
    (List.range' 1 (parts - 1)).map fun p => sample.getD (p * samples / parts) 0

/-- The number of values at the front that are not past a key. -/
def partition_point (splitters : List ℕ) (key : ℕ) : ℕ := (splitters.takeWhile (· ≤ key)).length

/-! ## A part -/

/-- One name range's share of a build: its distinct names in order, its
postings, and its rows' local keys. -/
structure Part where
  names : List Bytes
  lists : ListsBuilder
  keys : List ℕ

/-- The first loop of `build`: a name not seen before gets the next key. -/
def intern (lookup : List (Bytes × ℕ)) : List Bytes → List (Bytes × ℕ) × List ℕ
  | [] => (lookup, [])
  | name :: names =>
    match lookup.lookup name with
    | some key =>
      let (lookup, keys) := intern lookup names
      (lookup, key :: keys)
    | none =>
      let next := lookup.length
      let (lookup, keys) := intern (lookup ++ [(name, next)]) names
      (lookup, next :: keys)

/-- The names' order: by prefix, and only then by bytes. -/
def prefix_le (a b : ℕ × Bytes × ℕ) : Bool := decide (a.1 < b.1 ∨ (a.1 = b.1 ∧ a.2.1 ≤ b.2.1))

/-- The entries of a table in name order, each with its prefix. -/
def sorted (entries : List (Bytes × ℕ)) : List (ℕ × Bytes × ℕ) :=
  (entries.map fun e => (prefix8 e.1, e.1, e.2)).mergeSort prefix_le

/-- The place in name order of each key. -/
def remap (distinct : List (ℕ × Bytes × ℕ)) : List ℕ :=
  distinct.zipIdx.foldl (fun remap e => remap.set e.1.2.2 e.2) (List.replicate distinct.length 0)

section

variable (packing : NamePacking) (into_iter : List (Bytes × ℕ) → List (Bytes × ℕ))

/-- Interns the names of `rows`, groups the rows by name in name order, and
leaves each row's local key. -/
def Part.build (names : List Bytes) (rows posts : List ℕ) : Option Part := do
  let (lookup, keys) := intern [] (rows.map fun row => names.getD row [])
  let distinct := sorted (into_iter lookup)
  let keys := keys.map fun key => (remap distinct).getD key 0
  let counts := tally distinct.length keys
  let posts := scatter posts (starts 0 counts) (keys.zip rows)
  let lists ← (spans counts posts).foldlM (ListsBuilder.push packing) {}
  return ⟨distinct.map fun e => e.2.1, lists, keys⟩

/-! ## The build -/

/-- The results of some work on each of some items, in the items' order,
whichever thread takes which. -/
def fan_out {I T : Type} (items : List I) (work : I → T) : List T := items.map work

/-- How a build divides its rows: into `parts` name ranges, and into row chunks
of `chunk`. -/
structure Split where
  parts : ℕ
  chunk : ℕ

namespace Split

/-- Pass 1, by row chunk: each row's part, and each chunk's count per part. -/
def assign (split : Split) (names : List Bytes) (splitters : List ℕ) : List ℕ × List (List ℕ) :=
  let chunks := fan_out (Chunked.cut split.chunk names) fun names =>
    let slots := names.map fun name => partition_point splitters (prefix8 name)
    (slots.map (· % 2 ^ 8), tally split.parts slots)
  ((chunks.map Prod.fst).flatten, chunks.map Prod.snd)

/-- Pass 2, by row chunk: rows grouped by part, ascending within each. Each
chunk writes to its own slots, which follow those of earlier chunks. -/
def group (split : Split) (part : List ℕ) (counts : List (List ℕ)) : List ℕ :=
  let slots := counts.map fun counts => counts.map fun n => List.replicate n 0
  let filled := fan_out (slots.zipIdx.zip (Chunked.cut split.chunk part)) fun w =>
    fill w.1.1 (List.replicate split.parts 0) (w.2.zipIdx (w.1.2 * split.chunk))
  (List.range split.parts).flatMap fun p => filled.flatMap fun slots => slots.getD p []

/-- Each chunk, and where its rows of each part start. -/
def key_work (starts : List ℕ) : List (List ℕ × List ℕ) → List (List ℕ × List ℕ)
  | [] => []
  | (part, counts) :: chunks =>
    (part, starts) :: key_work (List.zipWith (· + ·) starts counts) chunks

/-- Pass 4, by row chunk: each row's global key, read back in row order from its
part's local keys. -/
def keys (split : Split) (part : List ℕ) (counts : List (List ℕ)) (sizes by_part firsts : List ℕ) :
    List ℕ :=
  let work := key_work (starts 0 sizes) ((Chunked.cut split.chunk part).zip counts)
  (fan_out work fun w =>
    List.zipWith (fun p key => firsts.getD p 0 + key) w.1 (gather by_part w.2 w.1)).flatten

end Split

/-- Pass 3, by part: intern, sort and post. -/
def build_parts (names : List Bytes) (by_part sizes : List ℕ) : Option (List Part) :=
  (fan_out (spans sizes by_part) fun rows =>
    Part.build packing into_iter names rows (List.replicate rows.length 0)).mapM id

/-- Base dictionary, packed row keys and row postings. -/
structure ResidentNames where
  distinct_names : PackedStrings
  keys : Keys
  postings : PackedNameLists
  distinct : ℕ
  rows : ℕ

namespace ResidentNames

/-- Builds on some number of threads. -/
def build_with (names : List Bytes) (threads : ℕ) : Option ResidentNames := do
  let parts := min (max threads 1) 255
  let total := names.length
  let split : Split := ⟨parts, max ((total + (parts - 1)) / parts) 1⟩
  let (part, counts) := split.assign names (splitters names parts)
  let sizes := (List.range parts).map fun p => (counts.map fun c => c.getD p 0).sum
  let by_part := split.group part counts
  let built ← build_parts packing into_iter names by_part sizes
  let firsts := starts 0 (built.map fun part => part.names.length)
  let ids := split.keys part counts sizes (built.flatMap Part.keys) firsts
  let distinct_names ← PackedStrings.new packing (built.flatMap Part.names)
  let postings ← PackedNameLists.concat packing (built.map Part.lists)
  let keys ← Keys.from_values packing ids
  return ⟨distinct_names, keys, postings, (built.map fun part => part.names.length).sum, total⟩

end ResidentNames

end

namespace ResidentNames

variable (packing : NamePacking) (names : ResidentNames)

def distinct_name (key : ℕ) : Option Bytes :=
  if key < names.distinct then names.distinct_names.get packing key else none

def key (row : ℕ) : Option ℕ := if row < names.rows then names.keys.get packing row else none

def name (row : ℕ) : Option Bytes := do names.distinct_name packing (← names.key packing row)

def count (key : ℕ) : Option ℕ :=
  if key < names.distinct then names.postings.count packing key else none

/-- Ascending base row ids. -/
def row_postings (key : ℕ) : Option (List ℕ) :=
  if key < names.distinct then names.postings.get packing key else none

end ResidentNames

end Ferret.Catalog
