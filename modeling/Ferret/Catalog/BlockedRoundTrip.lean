import Ferret.Catalog.Blocked
import Ferret.Lib.Chunks
import Mathlib.Data.List.ReduceOption

/-!
# Blocked columns are read back

A block of rows is laid out by its own rows alone: a base, a width and a packed
value a row. The writer's table and values are those of the blocks its rows are
cut into, and the sizer has added up the same blocks. Read at a block's entry,
the values hold that block's packed values, whatever blocks come after.
-/

namespace Ferret.Catalog.Frame

open Fields List

/-! ## The layout of a block -/

section

variable (rows : List (Option ℕ))

/-- The least and the greatest value of a block. -/
def extent : Option (ℕ × ℕ) :=
  match rows.reduceOption.min?, rows.reduceOption.max? with
  | some min, some max => some (min, max)
  | _, _ => none

def base : ℕ := (extent rows).elim 0 Prod.fst

def widest : ℕ := (extent rows).elim 0 fun e => block_width e.1 e.2 (decide (none ∈ rows))

/-- The packed value of a row. -/
def raw (row : Option ℕ) : ℕ := row.elim (mask (widest rows)) fun v => v - base rows

def flag : ℕ := if none ∈ rows then NULLS else 0

/-- The packed values of a block, in whole bytes. -/
def packed_rows : Bytes :=
  ((Writer.new (widest rows)).pushes (rows.map (raw rows))).2
    ++ ((Writer.new (widest rows)).pushes (rows.map (raw rows))).1.flush

/-- The bytes the values of a block take. -/
def size : ℕ := block_bytes rows.length (widest rows)

/-- The table entry of a block whose values start at an offset. -/
def table_entry (offset : ℕ) : Bytes :=
  toLe 8 (base rows) ++ toLe 8 ((offset <<< 8) % 2 ^ 64 ||| flag rows ||| widest rows)

/-- **A block can be framed**: its values are words, and leave room for a value
past them where it holds a none. -/
structure Framed : Prop where
  lt : ∀ v, some v ∈ rows → v < 2 ^ 64
  spread : none ∈ rows → ∀ u v, some u ∈ rows → some v ∈ rows → v - u < 2 ^ 64 - 1

end

variable {rows : List (Option ℕ)}

theorem mem_reduceOption {v : ℕ} : v ∈ rows.reduceOption ↔ some v ∈ rows := by
  simp [List.reduceOption]

theorem extent_some {min max : ℕ} (h : extent rows = some (min, max)) :
    some min ∈ rows ∧ some max ∈ rows ∧ ∀ v, some v ∈ rows → min ≤ v ∧ v ≤ max := by
  unfold extent at h
  split at h
  · rename_i hmin hmax
    cases h
    obtain ⟨hmem, hle⟩ := min?_eq_some_iff.mp hmin
    obtain ⟨hmem', hge⟩ := max?_eq_some_iff.mp hmax
    exact ⟨mem_reduceOption.mp hmem, mem_reduceOption.mp hmem', fun v hv =>
      ⟨hle v (mem_reduceOption.mpr hv), hge v (mem_reduceOption.mpr hv)⟩⟩
  · cases h

theorem extent_none (h : extent rows = none) (v : ℕ) : some v ∉ rows := by
  intro hv
  have hmem := mem_reduceOption.mpr hv
  obtain ⟨_, hmin⟩ := Option.isSome_iff_exists.mp (isSome_min?_of_mem hmem)
  obtain ⟨_, hmax⟩ := Option.isSome_iff_exists.mp (isSome_max?_of_mem hmem)
  unfold extent at h
  rw [hmin, hmax] at h
  cases h

theorem lt_two_pow_width (n : ℕ) : n < 2 ^ width n := Nat.lt_size_self n

/-- **A value is its block's base and its packed value**, which is not the one
for none where the block holds one. -/
theorem raw_some {v : ℕ} (hv : some v ∈ rows) :
    base rows + raw rows (some v) = v ∧ raw rows (some v) < 2 ^ widest rows
      ∧ (none ∈ rows → raw rows (some v) < 2 ^ widest rows - 1) := by
  unfold raw base widest
  cases hextent : extent rows with
  | none => exact absurd hv (extent_none hextent v)
  | some e =>
    obtain ⟨-, -, hle⟩ := extent_some hextent
    obtain ⟨hmin, _⟩ := hle v hv
    have hlt := lt_two_pow_width (e.2 - e.1 + (decide (none ∈ rows)).toNat)
    refine ⟨Nat.add_sub_cancel' hmin, ?_, fun hnone => ?_⟩
    · show v - e.1 < 2 ^ width (e.2 - e.1 + (decide (none ∈ rows)).toNat)
      omega
    · rw [decide_eq_true hnone] at hlt ⊢
      show v - e.1 < 2 ^ width (e.2 - e.1 + 1) - 1
      have hlt : e.2 - e.1 + 1 < 2 ^ width (e.2 - e.1 + 1) := hlt
      omega

namespace Framed

theorem widest_le (h : Framed rows) : widest rows ≤ 64 := by
  unfold widest
  cases hextent : extent rows with
  | none => exact Nat.zero_le _
  | some e =>
    obtain ⟨hmin, hmax, -⟩ := extent_some hextent
    refine Nat.size_le.mpr ?_
    by_cases hnone : none ∈ rows
    · have := h.spread hnone _ _ hmin hmax
      rw [decide_eq_true hnone]
      show e.2 - e.1 + 1 < 2 ^ 64
      omega
    · have := h.lt _ hmax
      rw [decide_eq_false hnone]
      show e.2 - e.1 + 0 < 2 ^ 64
      omega

theorem raw_none (h : Framed rows) : raw rows none = 2 ^ widest rows - 1 :=
  mask_eq h.widest_le

theorem raw_lt (h : Framed rows) : ∀ v ∈ rows.map (raw rows), v < 2 ^ widest rows := by
  intro v hv
  obtain ⟨row, hrow, rfl⟩ := mem_map.mp hv
  cases row with
  | none =>
    rw [h.raw_none]
    exact Nat.sub_lt (Nat.two_pow_pos _) one_pos
  | some v => exact (raw_some hrow).2.1

theorem length_packed_rows (h : Framed rows) : (packed_rows rows).length = size rows := by
  have hlen := (holds_flush h.widest_le h.raw_lt (show PAD ≤ (List.replicate PAD 0).length from
    length_replicate.ge)).2
  rwa [length_map] at hlen

/-- The block's values, whatever comes after them. -/
theorem holds (h : Framed rows) {rest : Bytes} (hrest : PAD ≤ rest.length) :
    Holds (packed_rows rows ++ rest) (widest rows) (rows.map (raw rows)) :=
  (holds_flush h.widest_le h.raw_lt hrest).1

end Framed

/-! ## The block of a writer -/

theorem is_null_eq (bw : BlockedWriter) (i : ℕ) : bw.is_null i = bw.nulls.testBit i := by
  rw [BlockedWriter.is_null, Nat.testBit, Nat.and_comm, Nat.one_and_eq_mod_two]
  rcases Nat.mod_two_eq_zero_or_one (bw.nulls >>> i) with h | h <;> rw [h] <;> rfl

/-- Row `i` of the block a writer holds. -/
def held (bw : BlockedWriter) (i : ℕ) : Option ℕ :=
  if bw.nulls.testBit i then none else some (bw.block.getD i 0)

/-- The writer holds some rows. -/
structure Rows (bw : BlockedWriter) (rows : List (Option ℕ)) : Prop where
  rows : (List.range bw.rows).map (held bw) = rows
  nulls : bw.nulls < 2 ^ bw.rows
  block : bw.block.length = BLOCK_ROWS
  le : bw.rows ≤ BLOCK_ROWS

theorem rows_new : Rows .new [] where
  rows := rfl
  nulls := one_pos
  block := length_replicate
  le := Nat.zero_le _

namespace Rows

variable {bw : BlockedWriter}

theorem length_eq (h : Rows bw rows) : rows.length = bw.rows := by
  rw [← h.rows, length_map, length_range]

theorem getElem?_eq (h : Rows bw rows) {i : ℕ} (hi : i < bw.rows) : rows[i]? = some (held bw i) := by
  rw [← h.rows, getElem?_map, getElem?_range hi]
  rfl

/-- Some row is none just when some bit is set. -/
theorem none_mem_iff (h : Rows bw rows) : none ∈ rows ↔ bw.nulls ≠ 0 := by
  rw [← h.rows, mem_map]
  constructor
  · rintro ⟨i, -, hi⟩ hzero
    rw [held, hzero, Nat.zero_testBit] at hi
    cases hi
  · intro hne
    obtain ⟨i, hi⟩ := Nat.exists_testBit_of_ne_zero hne
    refine ⟨i, mem_range.mpr ?_, if_pos hi⟩
    by_contra hge
    have hlt : bw.nulls < 2 ^ i :=
      h.nulls.trans_le (Nat.pow_le_pow_right two_pos (not_lt.mp hge))
    rw [Nat.testBit_lt_two_pow hlt] at hi
    cases hi

/-- One more row. -/
theorem push (h : Rows bw rows) (hlt : bw.rows < BLOCK_ROWS) (row : Option ℕ) :
    Rows
      (match row with
        | some value => { bw with block := bw.block.set bw.rows value, rows := bw.rows + 1 }
        | none => { bw with nulls := bw.nulls ||| 1 <<< bw.rows, rows := bw.rows + 1 })
      (rows ++ [row]) := by
  have hclear : bw.nulls.testBit bw.rows = false := Nat.testBit_lt_two_pow h.nulls
  have hpow : bw.nulls < 2 ^ (bw.rows + 1) :=
    h.nulls.trans_le (Nat.pow_le_pow_right two_pos (Nat.le_succ _))
  cases row with
  | some value =>
    refine ⟨?_, hpow, (length_set ..).trans h.block, hlt⟩
    rw [← h.rows]
    show (List.range (bw.rows + 1)).map _ = _
    rw [range_succ, map_append, map_singleton]
    congr 1
    · refine map_congr_left fun i hi => ?_
      have hne : bw.rows ≠ i := (mem_range.mp hi).ne'
      simp only [held, getD_eq_getElem?_getD, getElem?_set_ne hne]
    · have hset : (bw.block.set bw.rows value)[bw.rows]? = some value :=
        getElem?_set_self (h.block ▸ hlt)
      simp only [held, hclear, getD_eq_getElem?_getD, hset, Bool.false_eq_true, if_false,
        Option.getD_some]
  | none =>
    have hbit (i : ℕ) : (bw.nulls ||| 1 <<< bw.rows).testBit i
        = (bw.nulls.testBit i || decide (bw.rows = i)) := by
      rw [Nat.testBit_or, Nat.one_shiftLeft, Nat.testBit_two_pow]
    refine ⟨?_, ?_, h.block, hlt⟩
    · rw [← h.rows]
      show (List.range (bw.rows + 1)).map _ = _
      rw [range_succ, map_append, map_singleton]
      congr 1
      · refine map_congr_left fun i hi => ?_
        have hne : bw.rows ≠ i := (mem_range.mp hi).ne'
        simp only [held, hbit, decide_eq_false hne, Bool.or_false]
      · simp only [held, hbit, decide_true, Bool.or_true, if_true]
    · exact Nat.or_lt_two_pow hpow (by
        rw [Nat.one_shiftLeft]
        exact Nat.pow_lt_pow_right (by decide) (Nat.lt_succ_self _))

/-- The real values of a block are those of its rows that have one. -/
theorem real_eq {l : List ℕ} (hl : ∀ i ∈ l, i < bw.rows) :
    ((l.filter fun i => !bw.is_null i).map fun i => (bw.block.take bw.rows).getD i 0)
      = (l.map (held bw)).reduceOption := by
  induction l with
  | nil => rfl
  | cons i l ih =>
    have hi := hl i (.head _)
    have hrest := ih fun j hj => hl j (.tail _ hj)
    rw [map_cons, filter_cons, is_null_eq, held]
    cases bw.nulls.testBit i with
    | true => exact hrest
    | false =>
      rw [Bool.not_false, if_pos rfl, map_cons, hrest]
      simp only [getD_eq_getElem?_getD, getElem?_take_of_lt hi, Bool.false_eq_true,
        if_false, reduceOption_cons_of_some]

theorem frame_eq (h : Rows bw rows) : bw.frame = (base rows, widest rows) := by
  have hlen : (bw.block.take bw.rows).length = bw.rows := by
    rw [length_take, h.block, min_eq_left h.le]
  have hreal : (((List.range (bw.block.take bw.rows).length).filter fun i => !bw.is_null i).map
      fun i => (bw.block.take bw.rows).getD i 0) = rows.reduceOption := by
    rw [hlen, ← h.rows]
    exact real_eq fun i hi => mem_range.mp hi
  have hnulls : (bw.nulls != 0) = decide (none ∈ rows) := by
    rw [Bool.eq_iff_iff, bne_iff_ne, decide_eq_true_iff, h.none_mem_iff]
  unfold BlockedWriter.frame base widest extent
  simp only [hreal, hnulls]
  cases rows.reduceOption.min? with
  | none => rfl
  | some _ =>
    cases rows.reduceOption.max? with
    | none => rfl
    | some _ => rfl

theorem raws_eq (h : Rows bw rows) :
    (bw.block.take bw.rows).zipIdx.map
        (fun p => if bw.is_null p.2 then mask (widest rows) else p.1 - base rows)
      = rows.map (raw rows) := by
  refine ext_getElem? fun i => ?_
  rw [getElem?_map, getElem?_map, getElem?_zipIdx]
  by_cases hi : i < bw.rows
  · have hblock : i < bw.block.length := h.block.symm ▸ hi.trans_le h.le
    rw [h.getElem?_eq hi, getElem?_take_of_lt hi, getElem?_eq_getElem hblock]
    simp only [Option.map_some, zero_add, is_null_eq, held]
    cases bw.nulls.testBit i with
    | true => rfl
    | false =>
      rw [getD_eq_getElem?_getD, getElem?_eq_getElem hblock]
      rfl
  · have hlen : (bw.block.take bw.rows).length ≤ i := by
      rw [length_take]
      omega
    have hrows : rows.length ≤ i := h.length_eq.trans_le (not_lt.mp hi)
    rw [getElem?_eq_none hlen, getElem?_eq_none hrows]
    rfl

/-- **Closing a block** writes its entry and its packed rows. -/
theorem close_eq (h : Rows bw rows) (hne : rows ≠ []) :
    bw.close = ({ bw with rows := 0, nulls := 0, offset := bw.offset + size rows },
      table_entry rows bw.offset, packed_rows rows) := by
  have hrows : bw.rows ≠ 0 := h.length_eq ▸ (length_pos_iff.mpr hne).ne'
  have hflag : (if bw.nulls = 0 then 0 else NULLS) = flag rows := by
    unfold flag
    by_cases hnone : none ∈ rows
    · rw [if_neg (h.none_mem_iff.mp hnone), if_pos hnone]
    · rw [if_pos (not_not.mp fun hne => hnone (h.none_mem_iff.mpr hne)), if_neg hnone]
  have hsize : block_bytes bw.rows (widest rows) = size rows := by
    rw [size, h.length_eq]
  unfold BlockedWriter.close
  rw [if_neg hrows, h.frame_eq]
  dsimp only
  rw [hflag, hsize, h.raws_eq]
  rfl

theorem closed (h : Rows bw rows) (offset : ℕ) :
    Rows { bw with rows := 0, nulls := 0, offset := offset } [] where
  rows := rfl
  nulls := one_pos
  block := h.block
  le := Nat.zero_le _

end Rows

/-! ## The blocks of a column -/

/-- Where some blocks end. -/
def stop (bs : List (List (Option ℕ))) : ℕ := (bs.map size).sum

/-- The widest of some blocks. -/
def max_width (bs : List (List (Option ℕ))) : ℕ := (bs.map widest).foldr max 0

/-- The table of some blocks, from an offset on. -/
def table : ℕ → List (List (Option ℕ)) → Bytes
  | _, [] => []
  | offset, rows :: bs => table_entry rows offset ++ table (offset + size rows) bs

theorem table_append (offset : ℕ) (bs cs : List (List (Option ℕ))) :
    table offset (bs ++ cs) = table offset bs ++ table (offset + stop bs) cs := by
  induction bs generalizing offset with
  | nil => rfl
  | cons _ bs ih =>
    rw [cons_append, table, ih, table, append_assoc, add_assoc]
    rfl

theorem stop_append (bs cs : List (List (Option ℕ))) : stop (bs ++ cs) = stop bs + stop cs := by
  simp [stop]

theorem max_width_append (bs cs : List (List (Option ℕ))) :
    max_width (bs ++ cs) = max (max_width bs) (max_width cs) := by
  induction bs with
  | nil => exact (Nat.zero_max _).symm
  | cons rows bs ih =>
    show max (widest rows) (max_width (bs ++ cs)) = max (max (widest rows) (max_width bs)) _
    rw [ih, max_assoc]

/-- The sizer has the extent, the nones and the number of the rows it holds. -/
structure Measures (s : BlockSizer) (rows : List (Option ℕ)) (bs : List (List (Option ℕ))) :
    Prop where
  range : s.range = extent rows
  nulls : s.nulls = decide (none ∈ rows)
  rows : s.rows = rows.length
  values : s.values = stop bs
  width : s.width = max_width bs

/-- A writer that has written some blocks, and what it and a sizer hold. -/
structure Writes (bw : BlockedWriter) (out values : Bytes) (s : BlockSizer)
    (bs : List (List (Option ℕ))) (rows : List (Option ℕ)) : Prop where
  full : ∀ b ∈ bs, b.length = BLOCK_ROWS
  lt : rows.length < BLOCK_ROWS
  held : Rows bw rows
  offset : bw.offset = stop bs
  table : out = table 0 bs
  values : values = bs.flatMap packed_rows
  measures : Measures s rows bs

theorem extent_snoc_some (rows : List (Option ℕ)) (v : ℕ) :
    extent (rows ++ [some v]) = some
      (min ((extent rows).getD (v, v)).1 v, max ((extent rows).getD (v, v)).2 v) := by
  unfold extent
  rw [reduceOption_append, reduceOption_cons_of_some, reduceOption_nil]
  cases rows.reduceOption with
  | nil => simp
  | cons a l =>
    simp only [cons_append, min?_cons', max?_cons', foldl_append,
      foldl_cons, foldl_nil, Option.getD_some]

theorem extent_snoc_none (rows : List (Option ℕ)) : extent (rows ++ [none]) = extent rows := by
  unfold extent
  rw [reduceOption_append, reduceOption_cons_of_none, reduceOption_nil, append_nil]

variable {s : BlockSizer} {bs : List (List (Option ℕ))} {bw : BlockedWriter} {out values : Bytes}

theorem Measures.close (h : Measures s rows bs) : Measures s.close [] (bs ++ [rows]) := by
  have hstop : stop (bs ++ [rows]) = stop bs + size rows := stop_append bs [rows]
  have hwidth : max_width (bs ++ [rows]) = max (max_width bs) (widest rows) := by
    rw [max_width_append]
    show max _ (max (widest rows) 0) = _
    rw [Nat.max_zero]
  unfold BlockSizer.close
  cases hrange : s.range with
  | none =>
    have hextent : extent rows = none := h.range.symm.trans hrange
    have hzero : widest rows = 0 := by
      rw [widest, hextent]
      rfl
    have hsize : size rows = 0 := by
      rw [size, hzero, block_bytes, Nat.mul_zero]
    refine ⟨rfl, rfl, rfl, ?_, ?_⟩
    · rw [hstop, hsize]
      exact h.values
    · rw [hwidth, hzero, Nat.max_zero]
      exact h.width
  | some e =>
    have hextent : extent rows = some e := h.range.symm.trans hrange
    have hw : block_width e.1 e.2 s.nulls = widest rows := by
      rw [widest, hextent, h.nulls]
      rfl
    refine ⟨rfl, rfl, rfl, ?_, ?_⟩
    · rw [hstop, size, ← hw, ← h.rows, ← h.values]
    · rw [hwidth, ← hw, ← h.width]

/-- One more row, the block not being closed. -/
theorem Measures.push (h : Measures s rows bs) (row : Option ℕ) :
    ∃ s', Measures s' (rows ++ [row]) bs
      ∧ s.push row = if rows.length + 1 = BLOCK_ROWS then s'.close else s' := by
  have hlen : (rows ++ [row]).length = s.rows + 1 := by
    rw [length_append, h.rows]
    rfl
  cases row with
  | some v =>
    refine ⟨{ s with
      range := some (min (s.range.getD (v, v)).1 v, max (s.range.getD (v, v)).2 v)
      rows := s.rows + 1 }, ⟨?_, ?_, hlen.symm, h.values, h.width⟩, ?_⟩
    · rw [extent_snoc_some, ← h.range]
    · simp [h.nulls]
    · rw [← h.rows]
      rfl
  | none =>
    refine ⟨{ s with nulls := true, rows := s.rows + 1 },
      ⟨?_, ?_, hlen.symm, h.values, h.width⟩, ?_⟩
    · rw [extent_snoc_none]
      exact h.range
    · simp
    · rw [← h.rows]
      rfl

theorem Rows.push_eq (h : Rows bw rows) (hlt : bw.rows < BLOCK_ROWS) (row : Option ℕ) :
    ∃ bw', Rows bw' (rows ++ [row]) ∧ bw'.offset = bw.offset
      ∧ bw.push row = if rows.length + 1 = BLOCK_ROWS then bw'.close else (bw', [], []) := by
  refine ⟨_, h.push hlt row, ?_, ?_⟩
  · cases row <;> rfl
  · rw [h.length_eq]
    cases row <;> rfl

/-- **A row pushed** is a row held, or closes a block. -/
theorem Writes.push (h : Writes bw out values s bs rows) (row : Option ℕ) :
    ∃ bs' rows', bs'.flatten ++ rows' = bs.flatten ++ rows ++ [row]
      ∧ Writes (bw.push row).1 (out ++ (bw.push row).2.1) (values ++ (bw.push row).2.2)
        (s.push row) bs' rows' := by
  obtain ⟨bw', hrows, hoffset, hpush⟩ :=
    h.held.push_eq (h.held.length_eq ▸ h.lt) row
  obtain ⟨_, hmeasures, hsizes⟩ := h.measures.push row
  rw [hpush, hsizes]
  have hlen : (rows ++ [row]).length = rows.length + 1 := by simp
  split
  · rename_i hfull
    rw [hrows.close_eq (append_ne_nil_of_right_ne_nil _ (cons_ne_nil _ _))]
    refine ⟨bs ++ [rows ++ [row]], [], by simp, ?_, by decide, hrows.closed _, ?_, ?_, ?_,
      hmeasures.close⟩
    · intro b hb
      rcases mem_append.mp hb with hb | hb
      · exact h.full b hb
      · rw [mem_singleton.mp hb, hlen, hfull]
    · show bw'.offset + size (rows ++ [row]) = _
      rw [hoffset, h.offset, stop_append]
      rfl
    · rw [table_append, ← h.table, hoffset, h.offset, zero_add]
      show _ = out ++ (table_entry (rows ++ [row]) (stop bs) ++ [])
      rw [append_nil]
    · rw [flatMap_append, ← h.values, flatMap_singleton]
  · rename_i hroom
    have hlt := h.lt
    refine ⟨bs, rows ++ [row], by rw [append_assoc], h.full, by omega, hrows,
      hoffset.trans h.offset, ?_, ?_, hmeasures⟩
    · rw [append_nil]
      exact h.table
    · rw [append_nil]
      exact h.values

theorem writes_new : Writes .new [] [] {} [] [] where
  full := fun _ hb => by cases hb
  lt := Nat.zero_lt_succ _
  held := rows_new
  offset := rfl
  table := rfl
  values := rfl
  measures := ⟨rfl, rfl, rfl, rfl, rfl⟩

/-- **The end of a column** closes the block held, if it has rows. -/
theorem Writes.finish (h : Writes bw out values s bs rows) :
    ∃ cs, Chunked BLOCK_ROWS cs ∧ cs.flatten = bs.flatten ++ rows
      ∧ out ++ bw.finish.1 = Frame.table 0 cs
      ∧ values ++ bw.finish.2 = cs.flatMap packed_rows ++ List.replicate PAD 0
      ∧ s.finish = (stop cs, max_width cs) := by
  have hclose := h.measures.close
  by_cases hne : rows = []
  · subst hne
    have hrows : bw.rows = 0 := h.held.length_eq.symm
    have hfinish : bw.finish = ([], List.replicate PAD 0) := by
      unfold BlockedWriter.finish BlockedWriter.close
      rw [if_pos hrows]
      rfl
    have hsize : size [] = 0 := rfl
    have hwidest : widest [] = 0 := rfl
    refine ⟨bs, .of_full h.full, (append_nil _).symm, ?_, ?_, ?_⟩
    · rw [hfinish, append_nil]
      exact h.table
    · rw [hfinish, ← h.values]
    · show (s.close.values, s.close.width) = _
      rw [hclose.values, hclose.width, stop_append, max_width_append]
      show (stop bs + 0, max (max_width bs) 0) = _
      rw [Nat.max_zero, add_zero]
  · refine ⟨bs ++ [rows], .snoc h.full hne h.lt.le, by simp, ?_, ?_, ?_⟩
    · unfold BlockedWriter.finish
      rw [h.held.close_eq hne, table_append, ← h.table, h.offset, zero_add]
      show _ = out ++ (table_entry rows (stop bs) ++ [])
      rw [append_nil]
    · unfold BlockedWriter.finish
      rw [h.held.close_eq hne, flatMap_append, ← h.values, flatMap_singleton, append_assoc]
    · show (s.close.values, s.close.width) = _
      rw [hclose.values, hclose.width]

theorem Writes.run (h : Writes bw out values s bs rows) (column : List (Option ℕ)) :
    ∃ cs, Chunked BLOCK_ROWS cs ∧ cs.flatten = bs.flatten ++ rows ++ column
      ∧ out ++ (bw.run column).1 = Frame.table 0 cs
      ∧ values ++ (bw.run column).2 = cs.flatMap packed_rows ++ List.replicate PAD 0
      ∧ (column.foldl BlockSizer.push s).finish = (stop cs, max_width cs) := by
  induction column generalizing bw out values s bs rows with
  | nil =>
    rw [append_nil]
    exact h.finish
  | cons row column ih =>
    obtain ⟨_, _, hflatten, hpush⟩ := h.push row
    obtain ⟨cs, hchunked, hcs, htable, hvalues, hsize⟩ := ih hpush
    refine ⟨cs, hchunked, ?_, ?_, ?_, hsize⟩
    · rw [hcs, hflatten, append_assoc, singleton_append]
    · rw [append_assoc] at htable
      exact htable
    · rw [append_assoc] at hvalues
      exact hvalues

/-- **A column is written as the blocks its rows are cut into**, and measured
so. -/
theorem write_blocked_eq (column : List (Option ℕ)) :
    ∃ bs, Chunked BLOCK_ROWS bs ∧ bs.flatten = column
      ∧ write_blocked column
        = (table 0 bs, bs.flatMap packed_rows ++ List.replicate PAD 0)
      ∧ size_blocked column = (stop bs, max_width bs) := by
  obtain ⟨bs, hchunked, hflatten, htable, hvalues, hsize⟩ := writes_new.run column
  exact ⟨bs, hchunked, hflatten, Prod.ext htable hvalues, hsize⟩

end Ferret.Catalog.Frame
