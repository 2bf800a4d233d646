import Ferret.Grep.Multiline

/-!
# The lines of an input

The lines tile the input: each holds an LF as its last byte and nowhere else,
but for the last line, which may hold none.
-/

namespace Ferret.Grep

open Verify List

/-- **The lines of a text**: each ends with its first LF, or the last one with the text. -/
structure IsLines (bytes : Bytes) (lines : List Span) : Prop where
  tiles : Span.Tiles bytes.length 0 lines
  inside : ∀ line ∈ lines, ∀ i, line.start ≤ i → i + 1 < line.stop → bytes[i]? ≠ some LF
  terminated : ∀ k line, lines[k]? = some line → k + 1 < lines.length →
    bytes[line.stop - 1]? = some LF

/-- A line that ends after an LF. -/
def add_line (lines : List Span × ℕ) (p : ℕ) : List Span × ℕ := (lines.1 ++ [⟨lines.2, p + 1⟩], p + 1)

theorem split_chunk_eq (base : ℕ) (lines : List Span × ℕ) (chunk : Bytes) :
    split_chunk base lines chunk
      = ((chunk.zipIdx base).filterMap fun b => bif b.1 == LF then some b.2 else none).foldl
          add_line lines := by
  have h : chunk.findIdxs (· == LF) base = _ := findIdxs_eq_filterMap_zipIdx
  rw [← h, findIdxs_start, foldl_map]
  unfold split_chunk
  congr 1
  funext lines offset
  show (lines.1 ++ [Span.mk lines.2 (base + offset + 1)], base + offset + 1) = _
  rw [add_comm base]
  rfl

/-- **The chunks do not matter.** -/
theorem split_chunks (bytes : Bytes) (lines : List Span × ℕ) :
    (Chunked.cut BUFFER bytes).zipIdx.foldl
        (fun lines chunk => split_chunk (chunk.2 * BUFFER) lines chunk.1) lines
      = (bytes.findIdxs (· == LF)).foldl add_line lines := by
  have hbuffer : 0 < BUFFER := by decide
  have hflatten := congrArg (List.filterMap fun b : UInt8 × ℕ => bif b.1 == LF then some b.2 else none)
    (Chunked.flatten_cut hbuffer bytes.zipIdx)
  rw [Chunked.cut_zipIdx, filterMap_flatten, map_map] at hflatten
  rw [findIdxs_eq_filterMap_zipIdx, ← hflatten, foldl_flatten, foldl_map]
  congr 1
  funext lines chunk
  exact split_chunk_eq ..

/-- The lines from `start` on, of a text of length `n` with LFs at `ps`. -/
def linesFrom (n : ℕ) : ℕ → List ℕ → List Span
  | start, [] => if start < n then [⟨start, n⟩] else []
  | start, p :: ps => ⟨start, p + 1⟩ :: linesFrom n (p + 1) ps

theorem foldl_add_line (n : ℕ) (lines : List Span × ℕ) (ps : List ℕ) :
    (if (ps.foldl add_line lines).2 < n then
        (ps.foldl add_line lines).1 ++ [⟨(ps.foldl add_line lines).2, n⟩]
      else (ps.foldl add_line lines).1)
      = lines.1 ++ linesFrom n lines.2 ps := by
  induction ps generalizing lines with
  | nil =>
    rw [linesFrom, foldl_nil]
    split
    · rfl
    · exact (append_nil _).symm
  | cons p ps ih =>
    rw [foldl_cons, ih, linesFrom]
    show lines.1 ++ [Span.mk lines.2 (p + 1)] ++ linesFrom n (p + 1) ps = _
    rw [append_assoc, singleton_append]

theorem split_lines_eq (bytes : Bytes) :
    split_lines bytes = linesFrom bytes.length 0 (bytes.findIdxs (· == LF)) := by
  unfold split_lines
  rw [split_chunks]
  exact foldl_add_line bytes.length ([], 0) _

section

variable {bytes : Bytes} {start : ℕ} {ps : List ℕ}

/-- The LFs from `start` on are at `ps`. -/
structure LfsFrom (bytes : Bytes) (start : ℕ) (ps : List ℕ) : Prop where
  le : start ≤ bytes.length
  ascending : ps.Pairwise (· < ·)
  mem : ∀ i, i ∈ ps ↔ start ≤ i ∧ bytes[i]? = some LF

theorem LfsFrom.tail {p : ℕ} (h : LfsFrom bytes start (p :: ps)) : LfsFrom bytes (p + 1) ps where
  le := (List.getElem?_eq_some_iff.mp ((h.mem p).mp (.head _)).2).1
  ascending := (pairwise_cons.mp h.ascending).2
  mem := fun i => by
    have hp := (h.mem p).mp (.head _)
    refine ⟨fun hi => ⟨(pairwise_cons.mp h.ascending).1 i hi,
      ((h.mem i).mp (.tail _ hi)).2⟩, fun ⟨hle, hi⟩ => ?_⟩
    rcases mem_cons.mp ((h.mem i).mpr ⟨hp.1.trans ((Nat.le_succ p).trans hle), hi⟩) with rfl | hmem
    · exact absurd hle (Nat.not_succ_le_self _)
    · exact hmem

theorem linesFrom_tiles (h : LfsFrom bytes start ps) :
    Span.Tiles bytes.length start (linesFrom bytes.length start ps) := by
  induction ps generalizing start with
  | nil =>
    rw [linesFrom]
    split
    · next hlt => exact .cons (s := ⟨start, bytes.length⟩) hlt .nil
    · next hge =>
      rw [le_antisymm h.le (not_lt.mp hge)]
      exact .nil
  | cons p ps ih =>
    have hp := ((h.mem p).mp (.head _)).1
    exact .cons (s := ⟨start, p + 1⟩) (Nat.lt_succ_of_le hp) (ih h.tail)

theorem linesFrom_inside (h : LfsFrom bytes start ps) : ∀ line ∈ linesFrom bytes.length start ps,
    ∀ i, line.start ≤ i → i + 1 < line.stop → bytes[i]? ≠ some LF := by
  induction ps generalizing start with
  | nil =>
    intro line hline i hle _ hi
    rw [linesFrom] at hline
    split at hline
    · obtain rfl := mem_singleton.mp hline
      exact absurd ((h.mem i).mpr ⟨hle, hi⟩) not_mem_nil
    · cases hline
  | cons p ps ih =>
    intro line hline i hle hlt hi
    rcases mem_cons.mp hline with rfl | hline
    · rcases mem_cons.mp ((h.mem i).mpr ⟨hle, hi⟩) with rfl | hmem
      · exact absurd hlt (lt_irrefl _)
      · have hpi := (pairwise_cons.mp h.ascending).1 i hmem
        exact absurd (Nat.lt_of_succ_lt_succ hlt) (not_lt.mpr hpi.le)
    · exact ih h.tail line hline i hle hlt hi

theorem linesFrom_terminated (h : LfsFrom bytes start ps) : ∀ k line,
    (linesFrom bytes.length start ps)[k]? = some line →
    k + 1 < (linesFrom bytes.length start ps).length → bytes[line.stop - 1]? = some LF := by
  induction ps generalizing start with
  | nil =>
    intro k line _ hk
    rw [linesFrom] at hk
    split at hk <;> exact absurd hk (by simp)
  | cons p ps ih =>
    intro k line hline hk
    cases k with
    | zero =>
      cases hline
      exact ((h.mem p).mp (.head _)).2
    | succ k => exact ih h.tail k line hline (Nat.lt_of_succ_lt_succ hk)

end

/-- **The lines found are the lines.** -/
theorem isLines_split_lines (bytes : Bytes) : IsLines bytes (split_lines bytes) := by
  have h : LfsFrom bytes 0 (bytes.findIdxs (· == LF)) := by
    refine ⟨Nat.zero_le _, pairwise_findIdxs, fun i => ?_⟩
    rw [mem_findIdxs_iff_exists_getElem_pos, List.getElem?_eq_some_iff]
    simp only [beq_iff_eq, Nat.zero_le, true_and]
  rw [split_lines_eq]
  exact ⟨linesFrom_tiles h, linesFrom_inside h, linesFrom_terminated h⟩

end Ferret.Grep
