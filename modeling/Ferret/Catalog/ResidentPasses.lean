import Ferret.Catalog.ResidentNames

/-!
# The passes over the rows

Cut into chunks, a pass over the rows comes to one pass over all of them: each
row gets the part of its name, the rows of a part are grouped ascending, and
what stands in a row's place in its part is read back at the row.
-/

namespace Ferret.Catalog

open Scatter Chunked List

theorem having_flatten {α : Type} (k : ℕ) (blocks : List (List (ℕ × α))) :
    having k blocks.flatten = blocks.flatMap (having k) := by
  induction blocks with
  | nil => rfl
  | cons _ blocks ih => rw [flatten_cons, having_append, ih, flatMap_cons]

theorem having_map {α β : Type} (k : ℕ) (f : ℕ → α → β) (items : List (ℕ × α)) :
    having k (items.map fun item => (item.1, f item.1 item.2)) = (having k items).map (f k) := by
  induction items with
  | nil => rfl
  | cons item items ih =>
    rw [map_cons, having_cons, having_cons, ih]
    by_cases h : item.1 = k
    · rw [if_pos h, if_pos h, map_cons, h]
    · rw [if_neg h, if_neg h]

theorem map_fst_zipIdx {α : Type} (l : List α) (k : ℕ) : (l.zipIdx k).map Prod.fst = l :=
  zipIdx_map_fst k l

/-- The rows of a part, ascending. -/
def rows_of (part : List ℕ) (p : ℕ) : List ℕ := having p part.zipIdx

theorem mem_rows_of {part : List ℕ} {p row : ℕ} : row ∈ rows_of part p ↔ part[row]? = some p := by
  unfold rows_of having
  rw [mem_filterMap]
  constructor
  · rintro ⟨⟨q, i⟩, hmem, heq⟩
    rw [Option.ite_none_right_eq_some] at heq
    obtain ⟨rfl, ⟨⟩⟩ := heq
    exact mem_zipIdx_iff_getElem?.mp hmem
  · intro h
    exact ⟨(p, row), mem_zipIdx_iff_getElem?.mpr h, if_pos rfl⟩

theorem pairwise_rows_of (part : List ℕ) (p : ℕ) : (rows_of part p).Pairwise (· < ·) := by
  unfold rows_of having
  have hidx : part.zipIdx.Pairwise fun a b => a.2 < b.2 := by
    have h : (part.zipIdx.map Prod.snd).Pairwise (· < ·) := by
      rw [zipIdx_map_snd]
      exact pairwise_lt_range'
    exact pairwise_map.mp h
  refine hidx.filterMap _ fun a b hab i hi j hj => ?_
  rw [Option.ite_none_right_eq_some] at hi hj
  obtain ⟨-, ⟨⟩⟩ := hi
  obtain ⟨-, ⟨⟩⟩ := hj
  exact hab

namespace Split

variable {split : Split} {names : List Bytes} {splitters : List ℕ}

/-- The part of a name. -/
def part_of (splitters : List ℕ) (name : Bytes) : ℕ := partition_point splitters (prefix8 name)

/-- **Each row's part, and the parts of each chunk.** -/
theorem assign_eq (hchunk : 0 < split.chunk) (hsplitters : splitters.length < 256) :
    split.assign names splitters = (names.map (part_of splitters),
      (cut split.chunk (names.map (part_of splitters))).map (tally split.parts)) := by
  have hslot (name : Bytes) : part_of splitters name % 2 ^ 8 = part_of splitters name :=
    Nat.mod_eq_of_lt ((( takeWhile_prefix _).length_le).trans_lt hsplitters)
  unfold assign fan_out
  dsimp only
  rw [map_map, map_map, cut_map, map_map]
  refine Prod.ext ?_ rfl
  show ((cut split.chunk names).map fun names =>
    (names.map (part_of splitters)).map (· % 2 ^ 8)).flatten = _
  simp only [map_map, Function.comp_def, hslot]
  show ((cut split.chunk names).map (List.map (part_of splitters))).flatten = _
  rw [← cut_map, flatten_cut hchunk]

theorem zip_map_zipIdx {α β γ : Type} (f : α → β) (g : (β × ℕ) × α → γ) (l : List α) (k : ℕ) :
    (((l.map f).zipIdx k).zip l).map g = (l.zipIdx k).map fun b => g ((f b.1, b.2), b.1) := by
  induction l generalizing k with
  | nil => rfl
  | cons a l ih =>
    rw [map_cons, zipIdx_cons, zip_cons_cons, map_cons, ih, zipIdx_cons, map_cons]

/-- **The rows, part by part.** -/
theorem group_eq (hchunk : 0 < split.chunk) (part : List ℕ) :
    split.group part ((cut split.chunk part).map (tally split.parts))
      = ((List.range split.parts).map (rows_of part)).flatten := by
  have hfilled (block : List ℕ) (place : ℕ) :
      fill ((tally split.parts block).map fun n => List.replicate n 0)
          (List.replicate split.parts 0) (block.zipIdx place)
        = (List.range split.parts).map fun p => having p (block.zipIdx place) := by
    refine fill_eq _ _ ?_
    rw [map_fst_zipIdx, map_map]
    conv_rhs => rw [← map_id (tally split.parts block)]
    exact map_congr_left fun n _ => length_replicate
  have hslots (p : ℕ) (hp : p < split.parts) :
      (cut split.chunk part).zipIdx.flatMap (fun b =>
        ((List.range split.parts).map fun p => having p (b.1.zipIdx (b.2 * split.chunk))).getD p [])
        = rows_of part p := by
    have hget (f : ℕ → List ℕ) : ((List.range split.parts).map f).getD p [] = f p := by
      rw [getD_eq_getElem?_getD, getElem?_map, getElem?_range hp]
      rfl
    simp only [hget]
    rw [rows_of, ← flatten_cut hchunk part.zipIdx, having_flatten, cut_zipIdx, flatMap_map]
  unfold group fan_out
  dsimp only
  rw [map_map]
  rw [zip_map_zipIdx, flatMap_def]
  refine congrArg List.flatten (map_congr_left fun p hp => ?_)
  rw [flatMap_map]
  simp only [Function.comp_apply, hfilled]
  exact hslots p (mem_range.mp hp)

theorem sizes_eq (part : List ℕ) (hchunk : 0 < split.chunk) :
    (List.range split.parts).map (fun p =>
        (((cut split.chunk part).map (tally split.parts)).map fun c => c.getD p 0).sum)
      = tally split.parts part := by
  rw [tally_eq]
  refine map_congr_left fun p hp => ?_
  have hcount (block : List ℕ) : (tally split.parts block).getD p 0 = block.count p := by
    rw [getD_eq_getElem?_getD, getElem?_tally (mem_range.mp hp)]
    rfl
  rw [map_map]
  conv_rhs => rw [← flatten_cut hchunk part, count_flatten]
  exact congrArg List.sum (map_congr_left fun block _ => hcount block)

theorem map_length_rows_of (parts : ℕ) (part : List ℕ) :
    ((List.range parts).map (rows_of part)).map List.length = tally parts part := by
  rw [tally_eq, map_map]
  refine map_congr_left fun p _ => ?_
  rw [Function.comp_apply, rows_of, length_having, map_fst_zipIdx]

/-- The chunks gather what one pass does. -/
theorem gather_key_work (parts : ℕ) (flat : List ℕ) (f : ℕ → ℕ → ℕ) {next : List ℕ}
    (hnext : next.length = parts) (blocks : List (List ℕ)) :
    ((key_work next (blocks.zip (blocks.map (tally parts)))).map fun w =>
        List.zipWith f w.1 (gather flat w.2 w.1)).flatten
      = List.zipWith f blocks.flatten (gather flat next blocks.flatten) := by
  induction blocks generalizing next with
  | nil => rfl
  | cons block blocks ih =>
    have hlen : (block.foldl bump next).length = parts := by rw [length_foldl_bump, hnext]
    rw [map_cons, zip_cons_cons, key_work, map_cons, flatten_cons,
      flatten_cons, gather_append, zipWith_append (length_gather ..).symm,
      ← foldl_bump_eq hnext, ih hlen]

/-- **Each row's key**: its part's first, and the local key that stands in its
place. -/
theorem keys_eq (hchunk : 0 < split.chunk) {part : List ℕ} (hpart : ∀ p ∈ part, p < split.parts)
    (f : ℕ → ℕ → ℕ) (firsts : List ℕ) :
    split.keys part ((cut split.chunk part).map (tally split.parts)) (tally split.parts part)
        ((List.range split.parts).map fun p => (rows_of part p).map (f p)).flatten firsts
      = part.zipIdx.map fun item => firsts.getD item.1 0 + f item.1 item.2 := by
  have hkeys : (part.zipIdx.map fun item => (item.1, f item.1 item.2)).map Prod.fst = part := by
    rw [map_map]
    exact map_fst_zipIdx part 0
  have hlocal : ((List.range split.parts).map fun p => (rows_of part p).map (f p))
      = (List.range split.parts).map fun p =>
        having p (part.zipIdx.map fun item => (item.1, f item.1 item.2)) :=
    map_congr_left fun p _ => (having_map p f part.zipIdx).symm
  have hlt : ∀ item ∈ part.zipIdx.map fun item => (item.1, f item.1 item.2), item.1 < split.parts := by
    intro item hitem
    refine hpart _ ?_
    rw [← hkeys]
    exact mem_map_of_mem hitem
  have hgather := gather_eq hlt
  rw [hkeys, ← hlocal] at hgather
  unfold keys fan_out
  rw [gather_key_work split.parts _ _ (by rw [length_starts, length_tally]), flatten_cut hchunk,
    hgather]
  have hzip : List.zipWith (fun p key => firsts.getD p 0 + key) (part.zipIdx.map Prod.fst)
      (part.zipIdx.map fun item => f item.1 item.2)
        = part.zipIdx.map fun item => firsts.getD item.1 0 + f item.1 item.2 := by
    rw [zipWith_map, zipWith_self]
  rw [map_fst_zipIdx] at hzip
  rw [map_map]
  exact hzip

end Split

end Ferret.Catalog
