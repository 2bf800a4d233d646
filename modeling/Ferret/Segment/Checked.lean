import Ferret.Segment.Read

/-!
# Checked reads

A chunked section is read from whole chunks, each compared with its sum
before a byte of it is decoded. Where the sums are those of the section, the
comparison never fails and the bytes handed out are the section's own,
wherever in a chunk the read begins or ends; and a window, which keeps the
chunks of earlier reads, only ever holds a part of the section.
-/

namespace Ferret

open List

theorem slice_slice_min {bytes : Bytes} {a m b n : ℕ} :
    slice (slice bytes a m) b n = slice bytes (a + b) (min n (m - b)) := by
  rw [slice, slice, slice, drop_take, drop_drop, take_take]

theorem slice_eq_of_ge {bytes : Bytes} {a m n : ℕ} (hm : bytes.length ≤ a + m)
    (hn : bytes.length ≤ a + n) : slice bytes a m = slice bytes a n := by
  rw [slice, slice, take_of_length_le (by rw [length_drop]; omega),
    take_of_length_le (by rw [length_drop]; omega)]

theorem chunks_mul_ge (n : ℕ) : n ≤ chunks n * CHUNK := by
  unfold chunks CHUNK
  omega

theorem lt_chunks_iff {i n : ℕ} : i < chunks n ↔ i * CHUNK < n := by
  unfold chunks CHUNK
  omega

/-- Chunks `[low, ..)` of a section cut at a chunk boundary, or at its end,
are chunks of the section. -/
theorem piece_of_slice {X : Bytes} {low n i : ℕ} (hend : n % CHUNK = 0 ∨ X.length = low * CHUNK + n)
    (hi : i * CHUNK < n) :
    slice (slice X (low * CHUNK) n) (i * CHUNK) CHUNK = slice X ((low + i) * CHUNK) CHUNK := by
  rw [slice_slice_min, ← add_mul]
  rcases lt_or_ge (n - i * CHUNK) CHUNK with hlt | hge
  · rcases hend with _ | _
    · unfold CHUNK at *
      omega
    · rw [min_eq_right hlt.le]
      refine slice_eq_of_ge ?_ ?_ <;> rw [add_mul] <;> omega
  · rw [min_eq_left hge]

namespace Segment

variable {C : Checksum} {s : Segment} {part : Section} {X : Bytes}

theorem verified_of_sums {low n : ℕ} (hn : low * CHUNK + n ≤ X.length)
    (hend : n % CHUNK = 0 ∨ X.length = low * CHUNK + n) :
    verified C (chunk_sums C X) low (slice X (low * CHUNK) n) = true := by
  rw [verified, all_eq_true]
  rintro ⟨piece, i⟩ hmem
  have hget : (pieces (slice X (low * CHUNK) n))[i]? = some piece :=
    mem_zipIdx_iff_getElem?.mp hmem
  rw [pieces, getElem?_map] at hget
  obtain ⟨j, hj, rfl⟩ := Option.map_eq_some_iff.mp hget
  obtain ⟨hi, rfl⟩ : i < chunks (slice X (low * CHUNK) n).length ∧ i = j := by
    rw [List.getElem?_eq_some_iff] at hj
    obtain ⟨h, he⟩ := hj
    exact ⟨by simpa using h, by simpa using he⟩
  rw [length_slice hn, lt_chunks_iff] at hi
  refine decide_eq_true ?_
  rw [piece_of_slice hend hi, slice_chunk_sums]
  rw [lt_chunks_iff, add_mul]
  omega

/-- **A chunked section of a segment**: its bytes are in the file, and its
sums are theirs. -/
structure Has (C : Checksum) (s : Segment) (part : Section) (X : Bytes) : Prop where
  extent : ∃ offset, s.extent part = .ok ((offset, X.length), chunk_sums C X)
    ∧ offset + X.length ≤ s.source.length ∧ slice s.source offset X.length = X

/-- **A checked read hands out the section's bytes**, with a few more before
and after them. -/
theorem read_checked_ok (h : s.Has C part X) {start stop : ℕ} (hle : start ≤ stop)
    (hstop : stop ≤ X.length) :
    ∃ base n, s.read_checked C part start stop = .ok (slice X base n, start - base)
      ∧ base ≤ start ∧ stop ≤ base + n ∧ base + n ≤ X.length := by
  obtain ⟨offset, hext, _, hsrc⟩ := h.extent
  have hbase : start / CHUNK * CHUNK ≤ start := Nat.div_mul_le_self _ _
  have hupto : stop ≤ min (chunks stop * CHUNK) X.length := le_min (chunks_mul_ge stop) hstop
  set base := start / CHUNK * CHUNK with hb
  set upto := min (chunks stop * CHUNK) X.length with hu
  have huX : upto ≤ X.length := min_le_right _ _
  have hmax : max upto base - base = upto - base := by omega
  have hslice : slice s.source (offset + base) (upto - base) = slice X base (upto - base) := by
    rw [← hsrc, slice_slice (by omega)]
  have hend : (upto - base) % CHUNK = 0 ∨ X.length = start / CHUNK * CHUNK + (upto - base) := by
    rcases lt_or_ge (chunks stop * CHUNK) X.length with hlt | hge
    · left
      rw [hu, min_eq_left hlt.le, hb, ← Nat.sub_mul]
      exact Nat.mul_mod_left _ _
    · right
      rw [hu, min_eq_right hge, ← hb]
      omega
  refine ⟨base, upto - base, ?_, hbase, by omega, by omega⟩
  have hread : read_exact_at s.source (upto - base) (offset + base)
      = .ok (slice X base (upto - base)) := by
    rw [read_exact_at, if_pos (by omega), hslice]
  have hver : verified C (chunk_sums C X) (start / CHUNK) (slice X base (upto - base)) = true :=
    verified_of_sums (by omega) hend
  unfold read_checked
  rw [hext]
  simp only [bind, Except.bind]
  rw [if_neg (by omega)]
  simp only [← hb, ← hu, hmax, hread, hver, if_true]

/-- A window holds a part of its section. -/
structure Window.Of (w : Window) (X : Bytes) : Prop where
  within : w.base + w.bytes.length ≤ X.length
  eq : w.bytes = slice X w.base w.bytes.length

theorem Window.empty_of (X : Bytes) : Window.Of Window.empty X where
  within := Nat.zero_le _
  eq := rfl

/-- **A read through a window hands out the section's bytes**, and leaves a
window on the section. -/
theorem read_through_ok (h : s.Has C part X) {start stop : ℕ} (hle : start ≤ stop)
    (hstop : stop ≤ X.length) {w : Window} (hw : Window.Of w X) :
    ∃ w', s.read_through C part start stop w = .ok (slice X start (stop - start), w')
      ∧ Window.Of w' X := by
  unfold read_through
  rw [if_neg (not_lt.mpr hle)]
  by_cases hmiss : start < w.base ∨ w.base + w.bytes.length < stop
  · obtain ⟨_, hext, -, -⟩ := h.extent
    set ahead := max stop (min (min (start + AHEAD) (2 ^ 64 - 1)) X.length) with ha
    have hahead : stop ≤ ahead ∧ ahead ≤ X.length := by omega
    obtain ⟨base, n, hread, h₁, _, h₃⟩ := read_checked_ok h (hle.trans hahead.1) hahead.2
    have hlen : (slice X base n).length = n := length_slice h₃
    have hsub : start - (start - base) = base := by omega
    refine ⟨⟨base, slice X base n⟩, ?_, ⟨by rw [hlen]; exact h₃, by rw [hlen]⟩⟩
    have hout : slice (slice X base n) (start - base) (stop - start)
        = slice X start (stop - start) := by
      rw [slice_slice (by omega), Nat.add_sub_cancel' h₁]
    simp only [bind, Except.bind, hmiss, if_true, hext, ← ha, hread, hsub, hout]
  · rw [not_or, not_lt, not_lt] at hmiss
    refine ⟨w, ?_, hw⟩
    have hout : slice w.bytes (start - w.base) (stop - start) = slice X start (stop - start) := by
      rw [hw.eq, slice_slice (by omega), Nat.add_sub_cancel' hmiss.1]
    rw [if_neg (by omega)]
    simp only [bind, Except.bind, hout]

end Segment

end Ferret
