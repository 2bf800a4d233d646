import Ferret.Index.Draft

/-!
# The segment file

A segment file is a head and then its sections, one after the other. The head
has the fixed fields, a table that gives each section's offset, length and
checksum, and a digest of all that; the sections tile the rest of the file in
the codec's order.

The index and the sums are read whole and checked against the table. The
blocks, postings and fingerprints are too large for that: they are cut into
chunks of `CHUNK` bytes, and the sums section has one checksum for each, so a
read of any part of them checks the chunks it touches and no others.

The checksum is a function of the bytes and nothing more is asked of it.
-/

namespace Ferret

open List

/-! ## Parts of a byte string -/

/-- The `n` bytes at an offset, fewer past the end. -/
def slice (bytes : Bytes) (offset n : ℕ) : Bytes :=
  (bytes.drop offset).take n

variable {bytes a b : Bytes} {offset n m : ℕ}

theorem length_slice (h : offset + n ≤ bytes.length) : (slice bytes offset n).length = n := by
  rw [slice, length_take, length_drop]
  omega

theorem slice_append (h : a.length ≤ offset) :
    slice (a ++ b) offset n = slice b (offset - a.length) n := by
  rw [slice, slice, drop_append, drop_eq_nil_of_le h, nil_append]

theorem slice_append_left (h : offset + n ≤ a.length) :
    slice (a ++ b) offset n = slice a offset n := by
  rw [slice, slice, drop_append_of_le_length (by omega), take_append_of_le_length]
  rw [length_drop]
  omega

/-- The bytes between two others. -/
theorem slice_mid {c : Bytes} (ho : a.length = offset) (hn : b.length = n) :
    slice (a ++ (b ++ c)) offset n = b := by
  subst ho hn
  rw [slice_append le_rfl, Nat.sub_self, slice_append_left (by omega)]
  exact take_length

theorem slice_take (h : offset + n ≤ m) : slice (bytes.take m) offset n = slice bytes offset n := by
  rw [slice, slice, drop_take, take_take, min_eq_left (by omega)]

/-- A part of a part. -/
theorem slice_slice {a b : ℕ} (h : b + n ≤ m) :
    slice (slice bytes a m) b n = slice bytes (a + b) n := by
  rw [show slice bytes a m = (bytes.drop a).take m from rfl, slice_take h, slice, slice, drop_drop]

/-- The bytes past a field of a known width. -/
theorem slice_skip {k : ℕ} (ha : a.length = k) (rest : Bytes)
    (h : k ≤ offset) : slice (a ++ rest) offset n = slice rest (offset - k) n := by
  rw [slice_append (ha.trans_le h), ha]

/-- The field of a known width that comes first. -/
theorem slice_here (ha : a.length = n) (rest : Bytes) : slice (a ++ rest) 0 n = a := by
  rw [slice_append_left (by rw [ha, zero_add]), slice, drop_zero]
  exact take_of_length_le ha.le

theorem slice_toLe_append_zero (n value : ℕ) (rest : Bytes) :
    slice (toLe n value ++ rest) 0 n = toLe n value :=
  slice_here (length_toLe n value) rest

theorem slice_toLe_append {value : ℕ} (rest : Bytes) (h : n ≤ offset) :
    slice (toLe n value ++ rest) offset m = slice rest (offset - n) m :=
  slice_skip (length_toLe n value) rest h

/-! ## Sections -/

/-- Bytes per checksummed chunk. -/
def CHUNK : ℕ := 4096

/-- Terms per dictionary block. -/
def BLOCK : ℕ := 32

/-- Blocks per resident sample of the block index. -/
def SAMPLE : ℕ := 16

/-- The bytes `ferretsg`. -/
def MAGIC : Bytes := [102, 101, 114, 114, 101, 116, 115, 103]

def FORMAT_VERSION : ℕ := 1

def DICTIONARY_CODEC : ℕ := 1

def FINGERPRINT_CODEC : ℕ := 2

def POSTINGS_CODEC : ℕ := 1

/-- Bytes of the fixed fields. -/
def FIELDS : ℕ := 64

/-- Bytes of one entry of the section table. -/
def TABLE_ENTRY : ℕ := 32

/-- A segment's sections. -/
inductive Section
  | blocks
  | postings
  | index
  | sums
  | fingerprints
  | fingerprintIndex
deriving DecidableEq

def SECTIONS : List Section := [.blocks, .postings, .index, .sums]

def SECTIONS_H : List Section :=
  [.blocks, .postings, .fingerprints, .index, .fingerprintIndex, .sums]

/-- A codec's sections in file order, or `none` for an unknown codec. -/
def sections (codec : ℕ) : Option (List Section) :=
  if codec = DICTIONARY_CODEC then some SECTIONS
  else if codec = FINGERPRINT_CODEC then some SECTIONS_H
  else none

/-- Bytes of a head whose table has `n` entries. -/
def head_len (n : ℕ) : ℕ := FIELDS + n * TABLE_ENTRY + 16

def HEAD : ℕ := head_len SECTIONS.length

def HEAD_MAX : ℕ := head_len SECTIONS_H.length

/-- The number a codec has in the head. -/
def Codec.number : Codec → ℕ
  | .dictionary => DICTIONARY_CODEC
  | .fingerprint => FINGERPRINT_CODEC

/-! ## Checksums -/

/-- A 16-byte function of the bytes. -/
structure Checksum where
  checksum : Bytes → Bytes
  length_checksum : ∀ bytes, (checksum bytes).length = 16

/-- Chunks covering `len` bytes. -/
def chunks (len : ℕ) : ℕ := (len + (CHUNK - 1)) / CHUNK

/-- The bytes in chunks, the last one perhaps short. -/
def pieces (bytes : Bytes) : List Bytes :=
  (List.range (chunks bytes.length)).map fun i => slice bytes (i * CHUNK) CHUNK

/-- The sums of the chunks, one after the other. -/
def chunk_sums (C : Checksum) (bytes : Bytes) : Bytes :=
  (pieces bytes).flatMap C.checksum

theorem length_flatMap_const {α : Type} {f : α → Bytes} (hf : ∀ a, (f a).length = n)
    (xs : List α) : (xs.flatMap f).length = xs.length * n := by
  induction xs with
  | nil => simp
  | cons x xs ih =>
    rw [flatMap_cons, length_append, hf, ih, length_cons]
    ring

/-- The parts of a table of equal parts. -/
theorem slice_flatMap_const {α : Type} {f : α → Bytes} {xs : List α}
    (hf : ∀ a ∈ xs, (f a).length = n) {i : ℕ} {a : α} (h : xs[i]? = some a) :
    slice (xs.flatMap f) (i * n) n = f a := by
  induction xs generalizing i with
  | nil => cases h
  | cons x xs ih =>
    have hx := hf x (.head _)
    rw [flatMap_cons]
    cases i with
    | zero =>
      obtain rfl : x = a := by simpa using h
      rw [slice_append_left (by rw [hx]; omega), slice, zero_mul, drop_zero]
      exact take_of_length_le hx.le
    | succ i =>
      have hle : n ≤ (i + 1) * n := Nat.le_mul_of_pos_left n (Nat.succ_pos i)
      rw [slice_append (hx.trans_le hle), hx, Nat.succ_mul, Nat.add_sub_cancel]
      exact ih (fun a ha => hf a (.tail _ ha)) (by simpa using h)

@[simp]
theorem length_pieces (bytes : Bytes) : (pieces bytes).length = chunks bytes.length := by
  rw [pieces, length_map, length_range]

theorem length_chunk_sums (C : Checksum) (bytes : Bytes) :
    (chunk_sums C bytes).length = chunks bytes.length * 16 := by
  rw [chunk_sums, length_flatMap_const C.length_checksum, length_pieces]

/-- The sum of a chunk is where its number says. -/
theorem slice_chunk_sums (C : Checksum) {i : ℕ} (h : i < chunks bytes.length) :
    slice (chunk_sums C bytes) (i * 16) 16 = C.checksum (slice bytes (i * CHUNK) CHUNK) := by
  refine slice_flatMap_const (fun bytes _ => C.length_checksum bytes) ?_
  rw [pieces, getElem?_map, getElem?_range h]
  rfl

/-! ## Fixed-width fields -/

def u32_at (bytes : Bytes) (offset : ℕ) : ℕ := ofLe (slice bytes offset 4)

def u64_at (bytes : Bytes) (offset : ℕ) : ℕ := ofLe (slice bytes offset 8)

end Ferret
