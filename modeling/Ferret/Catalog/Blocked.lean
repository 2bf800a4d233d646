import Ferret.Catalog.Packed

/-!
# Blocked columns

A column in blocks of `BLOCK_ROWS` rows, each with its own frame of reference:
a value is its block's base plus a packed value at the block's own width. A
table locates the blocks. A nullable column frames each block by its real values
alone and marks a block that holds a none, whose all-ones value is then none.

A sizer finds the length and the widest block of a column before a writer writes
it. Both take the rows in order and hold one block.
-/

namespace Ferret.Catalog

/-- Rows per block. -/
def BLOCK_ROWS : ℕ := 128

/-- Bytes per block in the table: the block's base, then its values' byte offset
shifted left 8 with its width in the low byte. -/
def BLOCK_ENTRY : ℕ := 16

/-- Set beside the width where the block holds a none. -/
def NULLS : ℕ := 0x80

def blocks (count : ℕ) : ℕ := (count + (BLOCK_ROWS - 1)) / BLOCK_ROWS

/-- A blocked column's exact length in bytes. Saturates rather than overflow. -/
def blocked_len (count values : ℕ) : ℕ :=
  min (min (blocks count * BLOCK_ENTRY + values) (2 ^ 64 - 1) + PAD) (2 ^ 64 - 1)

/-- The bytes of a block's values. -/
def block_bytes (rows width : ℕ) : ℕ := (rows * width + 7) / 8

/-- A block's width for real values from `min` to `max`: one more value's worth
when the block holds a none. -/
def block_width (min max : ℕ) (nulls : Bool) : ℕ := width (max - min + nulls.toNat)

/-! ## Reading -/

structure Blocked where
  table : Bytes
  values : Bytes
  count : ℕ

namespace Blocked

/-- The column of `count` rows at the start of some bytes. -/
def new (bytes : Bytes) (count : ℕ) : Blocked where
  table := bytes.take (Catalog.blocks count * BLOCK_ENTRY)
  values := bytes.drop (Catalog.blocks count * BLOCK_ENTRY)
  count := count

/-- Block `k`'s two table words. -/
def words (b : Blocked) (k : ℕ) : Option (ℕ × ℕ) := do
  let base ← load b.table (k * BLOCK_ENTRY) 8
  let packed ← load b.table (k * BLOCK_ENTRY + 8) 8
  return (base, packed)

/-- Block `k`'s base, values offset and width. -/
def entry (b : Blocked) (k : ℕ) : Option (ℕ × ℕ × ℕ) := do
  let (base, packed) ← b.words k
  return (base, packed >>> 8, packed &&& 0x7F)

/-- The values from an offset on; `none` past the end. -/
def packed (b : Blocked) (offset width : ℕ) : Option Packed :=
  if offset ≤ b.values.length then some ⟨b.values.drop offset, width⟩ else none

/-- The loop of `check` over the blocks: where the last ends and the width of
the widest, unless some entry cannot be trusted. -/
def check_from (b : Blocked) (nullable : Bool) : ℕ → ℕ → ℕ → ℕ → Option (Option (ℕ × ℕ))
  | 0, _, stop, widest => some (some (stop, widest))
  | n + 1, k, stop, widest => do
    let (_, offset, width) ← b.entry k
    let (_, packed) ← b.words k
    if offset ≠ stop ∨ (nullable = false ∧ packed &&& NULLS ≠ 0) then return none
    else
      b.check_from nullable n (k + 1)
        (stop + block_bytes (min BLOCK_ROWS (b.count - k * BLOCK_ROWS)) width) (max widest width)

/-- Whether every entry is one a read can trust, the values' length and the
widest block being as given. -/
def check (b : Blocked) (max_width values : ℕ) (nullable : Bool) : Option Bool := do
  match ← b.check_from nullable (b.table.length / BLOCK_ENTRY) 0 0 0 with
  | none => return false
  | some (stop, widest) => return stop = values ∧ widest = max_width

/-- Value `i`. -/
def get (b : Blocked) (i : ℕ) : Option ℕ := do
  let (base, offset, width) ← b.entry (i / BLOCK_ROWS)
  let raw ← (← b.packed offset width).get (i % BLOCK_ROWS)
  return (base + raw) % 2 ^ 64

/-- Value `i` of a nullable column. -/
def nullable (b : Blocked) (i : ℕ) : Option (Option ℕ) := do
  let (base, packed) ← b.words (i / BLOCK_ROWS)
  let width := packed &&& 0x7F
  let raw ← (← b.packed (packed >>> 8) width).get (i % BLOCK_ROWS)
  return if packed &&& NULLS = 0 ∨ raw ≠ mask width then some ((base + raw) % 2 ^ 64) else none

/-- One block of `nullable_values`. -/
def nullable_block (b : Blocked) (k : ℕ) : Option (List (Option ℕ)) := do
  let (base, packed) ← b.words k
  let width := packed &&& 0x7F
  let rows := min BLOCK_ROWS (b.count - k * BLOCK_ROWS)
  let raw ← (← b.packed (packed >>> 8) width).decode 0 rows
  let null := if packed &&& NULLS ≠ 0 then some (mask width) else none
  return raw.map fun raw => if null ≠ some raw then some ((base + raw) % 2 ^ 64) else none

/-- Every value of a nullable column in order. -/
def nullable_values (b : Blocked) : Option (List (Option ℕ)) := do
  let blocks ← (List.range ((b.count + (BLOCK_ROWS - 1)) / BLOCK_ROWS)).mapM b.nullable_block
  return blocks.flatten

/-- The loop of `decode`, with `n` values to go. Each round decodes one at
least. -/
def decode_from (b : Blocked) : ℕ → ℕ → ℕ → Option (List ℕ)
  | _, _, 0 => some []
  | 0, _, _ + 1 => none
  | fuel + 1, row, n + 1 => do
    let (base, offset, width) ← b.entry (row / BLOCK_ROWS)
    let m := min (BLOCK_ROWS - row % BLOCK_ROWS) (n + 1)
    let run ← (← b.packed offset width).decode (row % BLOCK_ROWS) m
    let rest ← b.decode_from fuel (row + m) (n + 1 - m)
    return run.map (fun raw => (base + raw) % 2 ^ 64) ++ rest

/-- Values `first..first + n`; `first` is a multiple of 8. -/
def decode (b : Blocked) (first n : ℕ) : Option (List ℕ) := b.decode_from n first n

end Blocked

/-! ## Sizing -/

/-- The values' length and the widest block of the rows pushed. -/
structure BlockSizer where
  range : Option (ℕ × ℕ) := none
  nulls : Bool := false
  rows : ℕ := 0
  values : ℕ := 0
  width : ℕ := 0

namespace BlockSizer

def close (s : BlockSizer) : BlockSizer :=
  match s.range with
  | some (min, max) =>
    let w := block_width min max s.nulls
    { values := s.values + block_bytes s.rows w, width := Max.max s.width w }
  | none => { values := s.values, width := s.width }

def next (s : BlockSizer) : BlockSizer :=
  let s := { s with rows := s.rows + 1 }
  if s.rows = BLOCK_ROWS then s.close else s

/-- A value, or a nullable column's none. -/
def push (s : BlockSizer) : Option ℕ → BlockSizer
  | some value =>
    let (min, max) := s.range.getD (value, value)
    { s with range := some (Min.min min value, Max.max max value) }.next
  | none => { s with nulls := true }.next

/-- The bytes of packed values, and the widest block. -/
def finish (s : BlockSizer) : ℕ × ℕ := (s.close.values, s.close.width)

end BlockSizer

/-! ## Writing -/

/-- One block of values, and which of its rows are none. -/
structure BlockedWriter where
  block : List ℕ
  nulls : ℕ
  rows : ℕ
  offset : ℕ

namespace BlockedWriter

def new : BlockedWriter := ⟨List.replicate BLOCK_ROWS 0, 0, 0, 0⟩

def is_null (bw : BlockedWriter) (i : ℕ) : Bool := (bw.nulls >>> i) &&& 1 == 1

/-- The base and the width of the block. -/
def frame (bw : BlockedWriter) : ℕ × ℕ :=
  let block := bw.block.take bw.rows
  let real := ((List.range block.length).filter fun i => !bw.is_null i).map fun i => block.getD i 0
  match real.min?, real.max? with
  | some min, some max => (min, block_width min max (bw.nulls != 0))
  -- A block of nothing but nones.
  | _, _ => (0, 0)

/-- Writes the block, if it has rows; also the bytes of the table and of the
values. -/
def close (bw : BlockedWriter) : BlockedWriter × Bytes × Bytes :=
  if bw.rows = 0 then (bw, [], [])
  else
    let (min, w) := bw.frame
    let flag := if bw.nulls = 0 then 0 else NULLS
    let raws := (bw.block.take bw.rows).zipIdx.map fun (value, i) =>
      if bw.is_null i then mask w else value - min
    let (writer, out) := (Writer.new w).pushes raws
    ({ bw with rows := 0, nulls := 0, offset := bw.offset + block_bytes bw.rows w },
      toLe 8 min ++ toLe 8 ((bw.offset <<< 8) % 2 ^ 64 ||| flag ||| w), out ++ writer.flush)

def next (bw : BlockedWriter) : BlockedWriter × Bytes × Bytes :=
  let bw := { bw with rows := bw.rows + 1 }
  if bw.rows = BLOCK_ROWS then bw.close else (bw, [], [])

/-- A value, or a nullable column's none. -/
def push (bw : BlockedWriter) : Option ℕ → BlockedWriter × Bytes × Bytes
  | some value => { bw with block := bw.block.set bw.rows value }.next
  | none => { bw with nulls := bw.nulls ||| 1 <<< bw.rows }.next

/-- The last partial block and the padding. -/
def finish (bw : BlockedWriter) : Bytes × Bytes :=
  let (_, table, values) := bw.close
  (table, values ++ List.replicate PAD 0)

/-- Rows pushed in order, and a finish. -/
def run (bw : BlockedWriter) : List (Option ℕ) → Bytes × Bytes
  | [] => bw.finish
  | row :: rows =>
    let (bw, table, values) := bw.push row
    let (table', values') := bw.run rows
    (table ++ table', values ++ values')

end BlockedWriter

/-- The table and the values of a column. -/
def write_blocked (column : List (Option ℕ)) : Bytes × Bytes := BlockedWriter.new.run column

/-- A column as it is read again. -/
def blocked_column (column : List (Option ℕ)) : Blocked :=
  .new ((write_blocked column).1 ++ (write_blocked column).2) column.length

/-- The values' length and the widest block of a column. -/
def size_blocked (column : List (Option ℕ)) : ℕ × ℕ := (column.foldl BlockSizer.push {}).finish

end Ferret.Catalog
