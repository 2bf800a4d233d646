import Ferret.Catalog.BlockedRoundTrip
import Mathlib.Data.Nat.Bitwise

/-!
# Reading a blocked column

A column laid out as a list of blocks: its entries say where each block's values
start, and the values from there on hold that block's packed values. A place in
the column is a place in a block, so every read comes to a read of one block.
-/

namespace Ferret.Catalog.Frame

open Fields List Option

/-! ## The word of an entry -/

/-- The second word of a block's entry. -/
def word (rows : List (Option ℕ)) (offset : ℕ) : ℕ :=
  (offset <<< 8) % 2 ^ 64 ||| flag rows ||| widest rows

section

variable {rows : List (Option ℕ)} {offset : ℕ}

theorem flag_eq (rows : List (Option ℕ)) : flag rows = 0 ∨ flag rows = 128 := by
  unfold flag
  split
  · exact .inr rfl
  · exact .inl rfl

/-- Below the offset, the entry keeps a flag and a width. -/
theorem word_eq (hoffset : offset < 2 ^ 56) (hw : widest rows ≤ 64) :
    word rows offset = 2 ^ 8 * offset + (flag rows + widest rows) := by
  have hlt : offset <<< 8 < 2 ^ 64 := by
    rw [Nat.shiftLeft_eq]
    omega
  have hor : flag rows ||| widest rows = flag rows + widest rows := by
    unfold flag
    split
    · have := or_shiftLeft (a := widest rows) (b := 1) (k := 7) (by omega)
      rw [Nat.or_comm]
      show widest rows ||| 1 <<< 7 = _
      rw [this, add_comm]
      rfl
    · rw [Nat.zero_or, zero_add]
  have hlow : flag rows + widest rows < 2 ^ 8 := by
    have hflag := flag_eq rows
    omega
  rw [word, Nat.mod_eq_of_lt hlt, Nat.or_assoc, hor, Nat.or_comm, or_shiftLeft hlow, add_comm]

theorem word_offset (hoffset : offset < 2 ^ 56) (hw : widest rows ≤ 64) :
    word rows offset >>> 8 = offset := by
  have hflag := flag_eq rows
  rw [word_eq hoffset hw, Nat.shiftRight_eq_div_pow]
  omega

theorem word_width (hoffset : offset < 2 ^ 56) (hw : widest rows ≤ 64) :
    word rows offset &&& 0x7F = widest rows := by
  have hflag := flag_eq rows
  have hmask : word rows offset &&& 0x7F = word rows offset % 2 ^ 7 :=
    Nat.and_two_pow_sub_one_eq_mod _ 7
  rw [hmask, word_eq hoffset hw]
  omega

theorem word_nulls (hoffset : offset < 2 ^ 56) (hw : widest rows ≤ 64) :
    word rows offset &&& NULLS = 0 ↔ none ∉ rows := by
  have hbit (x : ℕ) : x &&& NULLS = 0 ↔ x / 2 ^ 7 % 2 = 0 := by
    show x &&& 2 ^ 7 = 0 ↔ _
    rw [Nat.and_two_pow, Nat.testBit_eq_decide_div_mod_eq]
    simp
  rw [hbit, word_eq hoffset hw]
  unfold flag
  split
  · rename_i hnone
    refine iff_of_false ?_ (not_not.mpr hnone)
    show ¬(2 ^ 8 * offset + (128 + widest rows)) / 2 ^ 7 % 2 = 0
    omega
  · rename_i hnone
    refine iff_of_true ?_ hnone
    omega

theorem base_lt (h : Framed rows) : base rows < 2 ^ 64 := by
  unfold base
  cases hextent : extent rows with
  | none => exact Nat.two_pow_pos 64
  | some e => exact h.lt _ (extent_some hextent).1

theorem word_lt (hoffset : offset < 2 ^ 56) (hw : widest rows ≤ 64) :
    word rows offset < 2 ^ 64 := by
  have hflag := flag_eq rows
  rw [word_eq hoffset hw]
  omega

theorem size_le (h : Framed rows) (hle : rows.length ≤ BLOCK_ROWS) : size rows ≤ 1024 := by
  have hmul : rows.length * widest rows ≤ 128 * 64 := Nat.mul_le_mul hle h.widest_le
  unfold size block_bytes
  omega

end

/-! ## Blocks laid out -/

/-- A column's bytes are those of some blocks. -/
structure Laid (b : Blocked) (bs : List (List (Option ℕ))) : Prop where
  chunked : Chunked BLOCK_ROWS bs
  framed : ∀ rows ∈ bs, Framed rows
  few : bs.length ≤ 2 ^ 25
  table : b.table = table 0 bs
  values : b.values = bs.flatMap packed_rows ++ List.replicate PAD 0
  count : b.count = bs.flatten.length

theorem length_table (offset : ℕ) (bs : List (List (Option ℕ))) :
    (table offset bs).length = bs.length * BLOCK_ENTRY := by
  induction bs generalizing offset with
  | nil => rfl
  | cons _ bs ih =>
    rw [table, length_append, ih, table_entry, length_append, length_toLe, length_toLe,
      length_cons, Nat.succ_mul, add_comm]
    rfl

variable (bs : List (List (Option ℕ)))

theorem length_packed (h : ∀ rows ∈ bs, Framed rows) :
    (bs.flatMap packed_rows).length = stop bs := by
  induction bs with
  | nil => rfl
  | cons rows bs ih =>
    rw [flatMap_cons, length_append, (h rows (mem_cons_self ..)).length_packed_rows,
      ih fun r hr => h r (.tail _ hr)]
    rfl

theorem stop_le (h : ∀ rows ∈ bs, Framed rows ∧ rows.length ≤ BLOCK_ROWS) :
    stop bs ≤ 1024 * bs.length := by
  induction bs with
  | nil => exact le_rfl
  | cons rows bs ih =>
    have hrows := h rows (.head _)
    have hsize := size_le hrows.1 hrows.2
    have hrest := ih fun r hr => h r (.tail _ hr)
    show size rows + stop bs ≤ _
    rw [length_cons]
    omega

/-- A load in the middle of some bytes. -/
theorem load_mid {xs ys zs : Bytes} {place n : ℕ} (hplace : xs.length = place) (hn : ys.length = n) :
    load (xs ++ (ys ++ zs)) place n = some (ofLe ys) := by
  have hfits : place + n ≤ (xs ++ (ys ++ zs)).length := by
    rw [length_append, length_append]
    omega
  rw [load, if_pos hfits, slice, ← hplace, drop_left, ← hn, take_left]

variable {row : Option ℕ}

namespace Laid

variable {b : Blocked} {bs : List (List (Option ℕ))} {rows : List (Option ℕ)} {k : ℕ}

/-- A block, and those before and after it. -/
theorem split (hk : bs[k]? = some rows) :
    bs = bs.take k ++ rows :: bs.drop (k + 1) ∧ (bs.take k).length = k ∧ rows ∈ bs := by
  obtain ⟨hlt, hget⟩ := List.getElem?_eq_some_iff.mp hk
  refine ⟨?_, ?_, mem_of_getElem? hk⟩
  · rw [← hget, ← drop_eq_getElem_cons hlt, take_append_drop]
  · rw [length_take, min_eq_left hlt.le]

theorem offset_lt (h : Laid b bs) (k : ℕ) : stop (bs.take k) < 2 ^ 56 := by
  have hle := stop_le (bs.take k) fun rows hrows =>
    ⟨h.framed rows (mem_of_mem_take hrows),
      h.chunked.length_le rows (mem_of_mem_take hrows)⟩
  have hfew := h.few
  rw [length_take] at hle
  omega

/-- **The two words of a block.** -/
theorem words (h : Laid b bs) (hk : bs[k]? = some rows) :
    b.words k = some (base rows, word rows (stop (bs.take k))) := by
  obtain ⟨hsplit, hlen, hmem⟩ := split hk
  have hw := (h.framed rows hmem).widest_le
  have htable : b.table = Frame.table 0 (bs.take k)
      ++ (toLe 8 (base rows) ++ (toLe 8 (word rows (stop (bs.take k)))
        ++ Frame.table (stop (bs.take k) + size rows) (bs.drop (k + 1)))) := by
    rw [h.table]
    conv_lhs => rw [hsplit]
    rw [table_append, zero_add, Frame.table, table_entry, append_assoc]
    rfl
  have hplace : (Frame.table 0 (bs.take k)).length = k * BLOCK_ENTRY := by
    rw [length_table, hlen]
  have hplace' : (Frame.table 0 (bs.take k) ++ toLe 8 (base rows)).length = k * BLOCK_ENTRY + 8 := by
    rw [length_append, hplace, length_toLe]
  unfold Blocked.words
  rw [htable, load_mid hplace (length_toLe ..), ← append_assoc,
    load_mid hplace' (length_toLe ..), ofLe_toLe_mod, ofLe_toLe_mod,
    Nat.mod_eq_of_lt (base_lt (h.framed rows hmem)),
    Nat.mod_eq_of_lt (word_lt (h.offset_lt k) hw)]
  rfl

theorem entry (h : Laid b bs) (hk : bs[k]? = some rows) :
    b.entry k = some (base rows, stop (bs.take k), widest rows) := by
  have hw := (h.framed rows (split hk).2.2).widest_le
  unfold Blocked.entry
  rw [h.words hk, bind_eq_bind, bind_some]
  dsimp only
  rw [word_offset (h.offset_lt k) hw, word_width (h.offset_lt k) hw]
  rfl

/-- **The values of a block**, whatever blocks come after. -/
theorem packed (h : Laid b bs) (hk : bs[k]? = some rows) :
    ∃ bytes, b.packed (stop (bs.take k)) (widest rows) = some ⟨bytes, widest rows⟩
      ∧ Holds bytes (widest rows) (rows.map (raw rows)) := by
  obtain ⟨hsplit, -, hmem⟩ := split hk
  have hframed := h.framed rows hmem
  have hlen : ((bs.take k).flatMap packed_rows).length = stop (bs.take k) :=
    length_packed _ fun r hr => h.framed r (mem_of_mem_take hr)
  have hvalues : b.values = (bs.take k).flatMap packed_rows
      ++ (packed_rows rows ++ ((bs.drop (k + 1)).flatMap packed_rows ++ List.replicate PAD 0)) := by
    rw [h.values]
    conv_lhs => rw [hsplit]
    rw [flatMap_append, flatMap_cons, append_assoc, append_assoc]
  have hdrop : b.values.drop (stop (bs.take k)) = packed_rows rows
      ++ ((bs.drop (k + 1)).flatMap packed_rows ++ List.replicate PAD 0) := by
    rw [hvalues, ← hlen, drop_left]
  have hle : stop (bs.take k) ≤ b.values.length := by
    rw [hvalues, length_append, hlen]
    exact le_self_add
  have hpad : PAD ≤ ((bs.drop (k + 1)).flatMap packed_rows ++ List.replicate PAD 0).length := by
    rw [length_append, length_replicate]
    exact Nat.le_add_left ..
  refine ⟨_, ?_, hframed.holds hpad⟩
  rw [Blocked.packed, if_pos hle, hdrop]

/-! ## Reads -/

section

variable (h : Laid b bs)

include h

/-- A row's place in its block. -/
theorem place {i : ℕ} (hi : bs.flatten[i]? = some row) :
    ∃ rows, bs[i / BLOCK_ROWS]? = some rows ∧ rows[i % BLOCK_ROWS]? = some row := by
  rw [h.chunked.getElem?_flatten (by decide)] at hi
  exact bind_eq_some_iff.mp hi

/-- A packed value, with its base, is the value. -/
theorem base_add (hmem : rows ∈ bs) {v : ℕ} (hv : some v ∈ rows) :
    (base rows + raw rows (some v)) % 2 ^ 64 = v := by
  rw [(raw_some hv).1, Nat.mod_eq_of_lt ((h.framed rows hmem).lt v hv)]

/-- The packed value of a row is read. -/
theorem raw_get (hk : bs[k]? = some rows) {j : ℕ} (hj : rows[j]? = some row) :
    ((b.packed (stop (bs.take k)) (widest rows)).bind fun p => p.get j) = some (raw rows row) := by
  obtain ⟨_, hpacked, hholds⟩ := h.packed hk
  rw [hpacked, bind_some]
  exact hholds.get (by rw [getElem?_map, hj]; rfl)

/-- **A value is read back.** -/
theorem get {i v : ℕ} (hi : bs.flatten[i]? = some (some v)) : b.get i = some v := by
  obtain ⟨rows, hk, hj⟩ := h.place hi
  have hraw := h.raw_get hk hj
  unfold Blocked.get
  rw [h.entry hk, bind_eq_bind, bind_some]
  dsimp only
  rw [bind_eq_bind, bind_eq_bind, ← bind_assoc, hraw, bind_some]
  show some ((base rows + raw rows (some v)) % 2 ^ 64) = _
  rw [h.base_add (split hk).2.2 (mem_of_getElem? hj)]

/-- What a packed value says where the block's flag is as written. -/
theorem nullable_row (hk : bs[k]? = some rows) (hrow : row ∈ rows) :
    (if word rows (stop (bs.take k)) &&& NULLS = 0 ∨ raw rows row ≠ mask (widest rows) then
      some ((base rows + raw rows row) % 2 ^ 64) else none) = row := by
  have hmem := (split hk).2.2
  have hframed := h.framed rows hmem
  have hflag := word_nulls (h.offset_lt k) hframed.widest_le
  cases row with
  | none =>
    refine if_neg (not_or.mpr ⟨fun hzero => hflag.mp hzero hrow, not_not.mpr rfl⟩)
  | some v =>
    obtain ⟨-, -, hlt⟩ := raw_some hrow
    rw [h.base_add hmem hrow]
    refine if_pos ?_
    by_cases hnone : none ∈ rows
    · right
      rw [mask_eq hframed.widest_le]
      exact (hlt hnone).ne
    · exact .inl (hflag.mpr hnone)

/-- **A row of a nullable column is read back.** -/
theorem nullable {i : ℕ} (hi : bs.flatten[i]? = some row) :
    b.nullable i = some row := by
  obtain ⟨rows, hk, hj⟩ := h.place hi
  have hw := (h.framed rows (split hk).2.2).widest_le
  have hraw := h.raw_get hk hj
  have hrow := h.nullable_row hk (mem_of_getElem? hj)
  unfold Blocked.nullable
  rw [h.words hk, bind_eq_bind, bind_some]
  dsimp only
  rw [word_offset (h.offset_lt _) hw, word_width (h.offset_lt _) hw, bind_eq_bind,
    bind_eq_bind, ← bind_assoc, hraw, bind_some]
  exact congrArg some hrow

/-- A block's run of packed values. -/
theorem decode_block (hk : bs[k]? = some rows) {first n : ℕ} (hfirst : 8 ∣ first)
    (hn : first + n ≤ rows.length) :
    ((b.packed (stop (bs.take k)) (widest rows)).bind fun p => p.decode first n)
      = some ((((rows.drop first).take n)).map (raw rows)) := by
  obtain ⟨_, hpacked, hholds⟩ := h.packed hk
  rw [hpacked, bind_some, hholds.decode hfirst (by rwa [length_map]), map_take, map_drop]

theorem length_rows (hk : bs[k]? = some rows) :
    min BLOCK_ROWS (b.count - k * BLOCK_ROWS) = rows.length := by
  rw [h.chunked.length_block hk, h.count]

theorem nullable_block (hk : bs[k]? = some rows) : b.nullable_block k = some rows := by
  have hw := (h.framed rows (split hk).2.2).widest_le
  have hdecode := h.decode_block hk (dvd_zero 8) (zero_add rows.length).le
  unfold Blocked.nullable_block
  rw [h.words hk, bind_eq_bind, bind_some]
  dsimp only
  rw [word_offset (h.offset_lt _) hw, word_width (h.offset_lt _) hw, h.length_rows hk,
    bind_eq_bind, bind_eq_bind, ← bind_assoc, hdecode, bind_some,
    drop_zero, take_length, List.map_map]
  refine congrArg some ?_
  conv_rhs => rw [← List.map_id rows]
  refine map_congr_left fun row hrow => ?_
  have heq := h.nullable_row hk hrow
  show (if _ ≠ some (raw rows row) then _ else none) = row
  conv_rhs => rw [← heq]
  refine if_congr ?_ rfl rfl
  split
  · rename_i hset
    rw [ne_eq, some_inj, eq_comm]
    exact ⟨.inr, fun hor => hor.resolve_left hset⟩
  · rename_i hset
    exact iff_of_true (fun hne => by cases hne) (.inl (not_not.mp hset))

/-- **Every row of a nullable column, in order.** -/
theorem nullable_values : b.nullable_values = some bs.flatten := by
  have hlen : (b.count + (BLOCK_ROWS - 1)) / BLOCK_ROWS = bs.length := by
    rw [h.count, ← h.chunked.length_blocks (by decide)]
  have hblocks : (List.range bs.length).mapM b.nullable_block = some bs :=
    mapM_range_eq_some fun _ _ hk => h.nullable_block hk
  unfold Blocked.nullable_values
  rw [hlen, hblocks]
  rfl

/-- A run of rows within a block. -/
theorem run_block {row n : ℕ} (hn : row % BLOCK_ROWS + n ≤ BLOCK_ROWS)
    (hk : bs[row / BLOCK_ROWS]? = some rows) :
    (bs.flatten.drop row).take n = (rows.drop (row % BLOCK_ROWS)).take n := by
  refine ext_getElem? fun j => ?_
  rw [getElem?_take, getElem?_take]
  split
  · rename_i hj
    have hlt : row % BLOCK_ROWS + j < BLOCK_ROWS := by omega
    have hdiv : (row + j) / BLOCK_ROWS = row / BLOCK_ROWS := by
      simp only [show BLOCK_ROWS = 128 from rfl] at hlt ⊢
      omega
    have hmod : (row + j) % BLOCK_ROWS = row % BLOCK_ROWS + j := by
      simp only [show BLOCK_ROWS = 128 from rfl] at hlt ⊢
      omega
    rw [getElem?_drop, getElem?_drop, h.chunked.getElem?_flatten (by decide), hdiv, hmod,
      hk, bind_some]
  · rfl

/-- The values of a run of packed values, where no row is none. -/
theorem map_base_add (hmem : rows ∈ bs) {run : List (Option ℕ)}
    (hrun : ∀ row ∈ run, row ∈ rows) (hplain : none ∉ run) :
    ((run.map (raw rows)).map fun r => (base rows + r) % 2 ^ 64).map some = run := by
  rw [List.map_map, List.map_map]
  conv_rhs => rw [← List.map_id run]
  refine map_congr_left fun row hrow => ?_
  cases row with
  | none => exact absurd hrow hplain
  | some v => exact congrArg some (h.base_add hmem (hrun _ hrow))

/-- **A run of values is read back**, block by block. -/
theorem decode_from (hplain : none ∉ bs.flatten) {fuel row n : ℕ} (hfuel : n ≤ fuel)
    (hrow : 8 ∣ row) (hn : row + n ≤ bs.flatten.length) :
    ∃ out, b.decode_from fuel row n = some out ∧ out.map some = (bs.flatten.drop row).take n := by
  induction fuel generalizing row n with
  | zero =>
    obtain rfl := Nat.le_zero.mp hfuel
    exact ⟨[], by rw [Blocked.decode_from], rfl⟩
  | succ fuel ih =>
    cases n with
    | zero => exact ⟨[], by rw [Blocked.decode_from], rfl⟩
    | succ n =>
      obtain ⟨rows, hk, _⟩ := h.place (getElem?_eq_getElem (show row < _ by omega))
      set m := min (BLOCK_ROWS - row % BLOCK_ROWS) (n + 1) with hm
      have hmod : row % BLOCK_ROWS < BLOCK_ROWS := Nat.mod_lt _ (by decide)
      have hpos : 0 < m := lt_min (Nat.sub_pos_of_lt hmod) (Nat.succ_pos n)
      have hle : m ≤ n + 1 := min_le_right ..
      have hin : row % BLOCK_ROWS + m ≤ BLOCK_ROWS := by omega
      have hfits : row % BLOCK_ROWS + m ≤ rows.length := by
        have hlen := h.chunked.length_block hk
        have hdiv := Nat.div_add_mod' row BLOCK_ROWS
        omega
      have hdvd : 8 ∣ row % BLOCK_ROWS := (Nat.dvd_mod_iff (show 8 ∣ BLOCK_ROWS by decide)).mpr hrow
      have hdecode := h.decode_block hk hdvd hfits
      have hsplit : (bs.flatten.drop row).take (n + 1)
          = (bs.flatten.drop row).take m ++ (bs.flatten.drop (row + m)).take (n + 1 - m) := by
        rw [← drop_drop, ← take_add, Nat.add_sub_cancel' hle]
      have hmem : ∀ r ∈ (rows.drop (row % BLOCK_ROWS)).take m, r ∈ rows := fun r hr =>
        mem_of_mem_drop (mem_of_mem_take hr)
      have hnone : none ∉ (rows.drop (row % BLOCK_ROWS)).take m := fun hmem' =>
        hplain (mem_flatten.mpr ⟨rows, (split hk).2.2, hmem _ hmem'⟩)
      obtain ⟨rest, hrest, hrest'⟩ : ∃ rest, b.decode_from fuel (row + m) (n + 1 - m) = some rest
          ∧ rest.map some = (bs.flatten.drop (row + m)).take (n + 1 - m) := by
        rcases Nat.eq_zero_or_pos (n + 1 - m) with hzero | _
        · rw [hzero]
          exact ⟨[], by cases fuel <;> rw [Blocked.decode_from], by rw [take_zero]; rfl⟩
        · -- The round has come to the end of its block.
          have hend : row + m = (row / BLOCK_ROWS + 1) * BLOCK_ROWS := by
            have hdiv := Nat.div_add_mod' row BLOCK_ROWS
            rw [Nat.succ_mul]
            omega
          exact ih (by omega) (hend ▸ Dvd.dvd.mul_left (by decide) _) (by omega)
      refine ⟨((((rows.drop (row % BLOCK_ROWS)).take m).map (raw rows)).map
        fun r => (base rows + r) % 2 ^ 64) ++ rest, ?_, ?_⟩
      · rw [Blocked.decode_from, h.entry hk, bind_eq_bind, bind_some]
        dsimp only
        rw [← hm, bind_eq_bind, bind_eq_bind, ← bind_assoc, hdecode, bind_some, hrest]
        rfl
      · rw [hsplit, hrest'.symm, h.run_block hin hk, map_append,
          h.map_base_add (split hk).2.2 hmem hnone]

theorem decode {values : List ℕ} (hvalues : bs.flatten = values.map some)
    {first n : ℕ} (hfirst : 8 ∣ first) (hn : first + n ≤ values.length) :
    b.decode first n = some ((values.drop first).take n) := by
  have hplain : none ∉ bs.flatten := by simp [hvalues]
  have hlen : bs.flatten.length = values.length := by rw [hvalues, length_map]
  obtain ⟨_, hout, hrun⟩ := h.decode_from hplain (le_refl n) hfirst (hlen.symm ▸ hn)
  rw [hvalues, ← map_drop, ← map_take] at hrun
  rw [Blocked.decode, hout, map_injective_iff.mpr (some_injective ℕ) hrun]

/-- **Every entry can be trusted**, and the descriptor is exact. -/
theorem check_from {nullable : Bool} (hplain : nullable = false → none ∉ bs.flatten)
    {n k : ℕ} (hk : k + n = bs.length) :
    b.check_from nullable n k (stop (bs.take k)) (max_width (bs.take k))
      = some (some (stop bs, max_width bs)) := by
  induction n generalizing k with
  | zero =>
    rw [add_zero] at hk
    rw [Blocked.check_from, hk, take_length]
  | succ n ih =>
    have hlt : k < bs.length := by omega
    have hget : bs[k]? = some bs[k] := getElem?_eq_getElem hlt
    have hmem := (split hget).2.2
    have hw := (h.framed _ hmem).widest_le
    have htrust : ¬(stop (bs.take k) ≠ stop (bs.take k)
        ∨ (nullable = false ∧ word bs[k] (stop (bs.take k)) &&& NULLS ≠ 0)) := by
      refine not_or.mpr ⟨not_not.mpr rfl, fun hset => hset.2 ?_⟩
      exact (word_nulls (h.offset_lt k) hw).mpr fun hnone =>
        hplain hset.1 (mem_flatten.mpr ⟨_, hmem, hnone⟩)
    have htake : bs.take (k + 1) = bs.take k ++ [bs[k]] := take_succ_eq_append_getElem hlt
    have hrest := ih (k := k + 1) (by omega)
    rw [htake, stop_append, max_width_append] at hrest
    rw [Blocked.check_from, h.entry hget, bind_eq_bind, bind_some]
    dsimp only
    rw [h.words hget, bind_eq_bind, bind_some]
    rw [if_neg htrust, h.length_rows hget]
    have hmax : max_width [bs[k]] = widest bs[k] := Nat.max_zero _
    rw [hmax] at hrest
    exact hrest

theorem check {nullable : Bool} (hplain : nullable = false → none ∉ bs.flatten) :
    b.check (max_width bs) (stop bs) nullable = some true := by
  have hlen : b.table.length / BLOCK_ENTRY = bs.length := by
    rw [h.table, length_table, Nat.mul_div_cancel _ (by decide)]
  have hall : b.check_from nullable bs.length 0 0 0 = some (some (stop bs, max_width bs)) :=
    h.check_from hplain (zero_add _)
  unfold Blocked.check
  rw [hlen, hall]
  simp

end

end Laid

/-! ## A column written and read -/

/-- **A column can be framed**: its values are words, and those of a block that
holds a none span less than the largest word. -/
structure Spread (column : List (Option ℕ)) : Prop where
  lt : ∀ v, some v ∈ column → v < 2 ^ 64
  spread : ∀ i j k u v, i / BLOCK_ROWS = k / BLOCK_ROWS → j / BLOCK_ROWS = k / BLOCK_ROWS →
    column[k]? = some none → column[i]? = some (some u) → column[j]? = some (some v) →
    v - u < 2 ^ 64 - 1

variable {bs : List (List (Option ℕ))}

/-- A place in a block is a place in the column. -/
theorem getElem?_of_block (h : Chunked BLOCK_ROWS bs) {rows : List (Option ℕ)} {k : ℕ}
    (hk : bs[k]? = some rows) (hrow : row ∈ rows) :
    ∃ i, i / BLOCK_ROWS = k ∧ bs.flatten[i]? = some row := by
  obtain ⟨j, hj⟩ := mem_iff_getElem?.mp hrow
  have hlt : j < BLOCK_ROWS :=
    (List.getElem?_eq_some_iff.mp hj).1.trans_le (h.length_le _ (mem_of_getElem? hk))
  have hdiv : (BLOCK_ROWS * k + j) / BLOCK_ROWS = k := by
    rw [Nat.mul_add_div (by decide), Nat.div_eq_of_lt hlt, add_zero]
  have hmod : (BLOCK_ROWS * k + j) % BLOCK_ROWS = j := by
    rw [Nat.mul_add_mod, Nat.mod_eq_of_lt hlt]
  refine ⟨BLOCK_ROWS * k + j, hdiv, ?_⟩
  rw [h.getElem?_flatten (by decide), hdiv, hmod, hk, bind_some, hj]

theorem Spread.framed (h : Spread bs.flatten) (hbs : Chunked BLOCK_ROWS bs) :
    ∀ rows ∈ bs, Framed rows := by
  intro rows hrows
  obtain ⟨k, hk⟩ := mem_iff_getElem?.mp hrows
  refine ⟨fun v hv => h.lt v (mem_flatten.mpr ⟨rows, hrows, hv⟩), fun hnone u v hu hv => ?_⟩
  obtain ⟨n, hn, hcolumn⟩ := getElem?_of_block hbs hk hnone
  obtain ⟨i, hi, hu⟩ := getElem?_of_block hbs hk hu
  obtain ⟨j, hj, hv⟩ := getElem?_of_block hbs hk hv
  exact h.spread i j n u v (hi.trans hn.symm) (hj.trans hn.symm) hcolumn hu hv

/-- **A column written is laid out in blocks**, as long and as wide as it was
measured. -/
theorem laid {column : List (Option ℕ)} (hcount : column.length < 2 ^ 32) (h : Spread column) :
    ∃ bs, bs.flatten = column ∧ Laid (blocked_column column) bs
      ∧ size_blocked column = (stop bs, max_width bs)
      ∧ ((write_blocked column).1 ++ (write_blocked column).2).length
        = blocked_len column.length (stop bs) := by
  obtain ⟨bs, hchunked, rfl, hwritten, hsize⟩ := write_blocked_eq column
  have hframed := h.framed hchunked
  have hblocks : blocks bs.flatten.length = bs.length :=
    (hchunked.length_blocks (by decide)).symm
  have hfew : bs.length ≤ 2 ^ 25 := by
    rw [← hblocks, blocks]
    simp only [show BLOCK_ROWS = 128 from rfl]
    omega
  have htable : (table 0 bs).length = blocks bs.flatten.length * BLOCK_ENTRY := by
    rw [length_table, hblocks]
  have hstop := stop_le bs fun rows hrows => ⟨hframed rows hrows, hchunked.length_le rows hrows⟩
  refine ⟨bs, rfl, ⟨hchunked, hframed, hfew, ?_, ?_, rfl⟩, hsize, ?_⟩
  · rw [blocked_column, hwritten]
    show (table 0 bs ++ _).take _ = _
    rw [← htable, take_left]
  · rw [blocked_column, hwritten]
    show (table 0 bs ++ _).drop _ = _
    rw [← htable, drop_left]
  · have hblocks : blocks bs.flatten.length ≤ 2 ^ 25 := hblocks ▸ hfew
    rw [hwritten]
    show (table 0 bs ++ (bs.flatMap packed_rows ++ List.replicate PAD 0)).length = _
    rw [length_append, htable, length_append, length_packed _ hframed,
      length_replicate, blocked_len]
    simp only [show BLOCK_ENTRY = 16 from rfl, show PAD = 8 from rfl]
    omega

/-- **Columns are read back.** Packed values come back one by one and in runs; a
blocked column is as long and as wide as its sizer says, is trusted, and comes
back one by one, in runs and whole, with its nones where it may hold them. -/
theorem columns_round_trip :
    (∀ w ≤ MAX_WIDTH, ∀ values : List ℕ, (∀ v ∈ values, v < 2 ^ w) →
      (∀ i v, values[i]? = some v → Packed.get ⟨pack_column w values, w⟩ i = some v)
      ∧ ∀ first n, 8 ∣ first → first + n ≤ values.length →
        Packed.decode ⟨pack_column w values, w⟩ first n = some ((values.drop first).take n))
    ∧ (∀ values : List ℕ, values.length < 2 ^ 32 → (∀ v ∈ values, v < 2 ^ 64) →
      ((write_blocked (values.map some)).1 ++ (write_blocked (values.map some)).2).length
        = blocked_len values.length (size_blocked (values.map some)).1
      ∧ (blocked_column (values.map some)).check (size_blocked (values.map some)).2
        (size_blocked (values.map some)).1 false = some true
      ∧ (∀ i v, values[i]? = some v → (blocked_column (values.map some)).get i = some v)
      ∧ ∀ first n, 8 ∣ first → first + n ≤ values.length →
        (blocked_column (values.map some)).decode first n = some ((values.drop first).take n))
    ∧ ∀ column : List (Option ℕ), column.length < 2 ^ 32 → Spread column →
      ((write_blocked column).1 ++ (write_blocked column).2).length
        = blocked_len column.length (size_blocked column).1
      ∧ (blocked_column column).check (size_blocked column).2 (size_blocked column).1 true = some true
      ∧ (∀ i v, column[i]? = some (some v) → (blocked_column column).get i = some v)
      ∧ (∀ i row, column[i]? = some row → (blocked_column column).nullable i = some row)
      ∧ (blocked_column column).nullable_values = some column := by
  refine ⟨fun w hw values h => (packed_round_trip hw h).2, fun values hcount h => ?_,
    fun column hcount h => ?_⟩
  · have hspread : Spread (values.map some) := by
      refine ⟨fun v hv => ?_, fun i j k u v _ _ hk => ?_⟩
      · obtain ⟨v, hv, ⟨⟩⟩ := List.mem_map.mp hv
        exact h v hv
      · obtain ⟨v, -, hv⟩ := List.mem_map.mp (mem_of_getElem? hk)
        cases hv
    have hlen : (values.map some).length = values.length := length_map _
    obtain ⟨bs, hflatten, hlaid, hsize, hbytes⟩ := laid (hlen.symm ▸ hcount) hspread
    rw [hlen] at hbytes
    rw [hsize]
    refine ⟨hbytes, hlaid.check fun _ hnone => ?_, fun i v hv => hlaid.get ?_,
      fun first n => hlaid.decode hflatten⟩
    · rw [hflatten] at hnone
      obtain ⟨v, -, hv⟩ := List.mem_map.mp hnone
      cases hv
    · rw [hflatten, getElem?_map, hv]
      rfl
  · obtain ⟨bs, hflatten, hlaid, hsize, hbytes⟩ := laid hcount h
    rw [hsize]
    refine ⟨hbytes, hlaid.check fun hplain => (by cases hplain), fun i v hv => hlaid.get ?_,
      fun i row hrow => hlaid.nullable ?_, ?_⟩
    · rw [hflatten, hv]
    · rw [hflatten, hrow]
    · rw [hlaid.nullable_values, hflatten]

theorem spread_sample : Spread [some 5, none, some 9] := by
  have hle : ∀ v, some v ∈ [some 5, none, some 9] → v ≤ 9 := by
    intro v hv
    simp only [mem_cons, Option.some.injEq, reduceCtorEq, not_mem_nil, false_or, or_false] at hv
    omega
  refine ⟨fun v hv => (hle v hv).trans_lt (by decide), fun i j k u v _ _ _ _ hv => ?_⟩
  have hv := hle v (mem_of_getElem? hv)
  omega

theorem columns_round_trip_sample :
    Packed.get ⟨pack_column 58 [1, 2, 2 ^ 58 - 1, 3], 58⟩ 2 = some (2 ^ 58 - 1)
    ∧ (blocked_column ([3, 2 ^ 64 - 1].map some)).decode 0 2 = some [3, 2 ^ 64 - 1]
    ∧ (blocked_column [some 5, none, some 9]).nullable_values = some [some 5, none, some 9] :=
  ⟨(columns_round_trip.1 58 (by decide) [1, 2, 2 ^ 58 - 1, 3] (by decide)).1 2 _ rfl,
    (columns_round_trip.2.1 [3, 2 ^ 64 - 1] (by decide) (by decide)).2.2.2 0 2 (dvd_zero 8)
      (le_refl 2),
    (columns_round_trip.2.2 _ (by decide) spread_sample).2.2.2.2⟩

end Ferret.Catalog.Frame
