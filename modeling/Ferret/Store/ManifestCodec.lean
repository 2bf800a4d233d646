import Ferret.Lib.Chunks
import Ferret.Segment.Format
import Ferret.Store.Manifest
import Mathlib.Data.List.Chain

/-!
# The manifest file

A manifest is written as a head of `HEAD` bytes, an entry of `ENTRY` bytes for
each pair of segments, four bytes for each unreadable document, and a digest of
all of it. The head says how many of each there are, so a reader knows the
length of the file before it reads past the head, and the digest says that the
rest is as it was written.

What is read is checked once more: a manifest that is not consistent does not
decode. A time of zero is a time that was never recorded, so `read_back` is the
manifest that decoding gives.
-/

namespace Ferret

open List

namespace Manifest

def MAGIC : Bytes := [102, 101, 114, 114, 101, 116, 105, 120]

def FORMAT_VERSION : ℕ := 3

def HEAD : ℕ := 88

def ENTRY : ℕ := 104

end Manifest

/-- One pair of segments, as the manifest stores it. -/
def SegmentEntry.encode (s : SegmentEntry) : Bytes :=
  toLe 8 s.number ++ (toLe 4 s.first ++ (toLe 4 s.last ++ (toLe 4 s.docs ++ (List.replicate 4 0
    ++ (toLe 8 s.terms ++ (toLe 8 s.pairs ++ (toLe 8 s.bytes ++ (s.digest
    ++ (toLe 8 s.trigram_bytes ++ (toLe 8 s.trigram_keys ++ (toLe 8 s.trigram_pairs
    ++ s.trigram_digest)))))))))))

namespace Manifest

/-- The head: the fixed fields and the counts. -/
def encode_head (m : Manifest) : Bytes :=
  MAGIC ++ (toLe 4 FORMAT_VERSION ++ (toLe 4 m.tokenizer_version ++ (m.incarnation
    ++ (toLe 4 m.high_water ++ (toLe 4 m.frontier ++ (toLe 8 m.sequence ++ (toLe 8 m.next_number
    ++ (toLe 4 m.segments.length ++ (toLe 4 m.unreadable.length
    ++ (toLe 8 (m.last_follow.getD 0) ++ (toLe 8 (m.last_merge.getD 0)
    ++ (toLe 4 m.trigram_version ++ List.replicate 4 0))))))))))))

/-- Everything before the digest. -/
def encode_body (m : Manifest) : Bytes :=
  m.encode_head ++ (m.segments.flatMap SegmentEntry.encode ++ m.unreadable.flatMap (toLe 4))

def encode (C : Checksum) (m : Manifest) : Bytes := m.encode_body ++ C.checksum m.encode_body

/-- Ranges ascending and disjoint and below the frontier, numbers below
`next_number`, unreadable ascending and below the frontier, and the frontier
at most the high water. -/
def is_consistent (m : Manifest) : Bool :=
  let ranges := m.segments.all (fun s =>
      s.first ≤ s.last && s.last < m.frontier && s.number < m.next_number)
    && decide (m.segments.IsChain fun a b => a.last < b.first)
  let unreadable := decide (m.unreadable.IsChain (· < ·)) && m.unreadable.getLast?.all (· < m.frontier)
  ranges && unreadable && m.frontier ≤ m.high_water

/-! ## Decoding -/

/-- The whole manifest's length that the head at the start of `bytes`
declares; `none` for a short head or a wrong magic, format version or reserved
field. -/
def declared_len (bytes : Bytes) : Option ℕ :=
  if bytes.length < HEAD ∨ bytes.take 8 ≠ MAGIC ∨ u32_at bytes 8 ≠ FORMAT_VERSION
      ∨ slice bytes 84 4 ≠ List.replicate 4 0 then none
  else
    let len := HEAD + 16 + u32_at bytes 56 * ENTRY + u32_at bytes 60 * 4
    -- `checked_mul`, `checked_add`
    if len < 2 ^ 64 then some len else none

/-- The entry at an offset. -/
def entry_at (bytes : Bytes) (at_ : ℕ) : Option SegmentEntry :=
  if slice bytes (at_ + 20) 4 ≠ List.replicate 4 0 then none
  else some {
    number := u64_at bytes at_
    first := u32_at bytes (at_ + 8)
    last := u32_at bytes (at_ + 12)
    docs := u32_at bytes (at_ + 16)
    terms := u64_at bytes (at_ + 24)
    pairs := u64_at bytes (at_ + 32)
    bytes := u64_at bytes (at_ + 40)
    digest := slice bytes (at_ + 48) 16
    trigram_bytes := u64_at bytes (at_ + 64)
    trigram_keys := u64_at bytes (at_ + 72)
    trigram_pairs := u64_at bytes (at_ + 80)
    trigram_digest := slice bytes (at_ + 88) 16 }

/-- `none` for anything that is not a well-formed manifest of this format. -/
def decode (C : Checksum) (bytes : Bytes) : Option Manifest :=
  if declared_len bytes ≠ some bytes.length then none
  else
    let body := bytes.length - 16
    if C.checksum (bytes.take body) ≠ bytes.drop body then none
    else do
      let count := u32_at bytes 56
      let segments ← (List.range count).mapM fun i => entry_at bytes (HEAD + i * ENTRY)
      let at_ := HEAD + count * ENTRY
      let manifest : Manifest := {
        tokenizer_version := u32_at bytes 12
        trigram_version := u32_at bytes 80
        incarnation := slice bytes 16 16
        high_water := u32_at bytes 32
        frontier := u32_at bytes 36
        sequence := u64_at bytes 40
        next_number := u64_at bytes 48
        last_follow := (some (u64_at bytes 64)).filter (· ≠ 0)
        last_merge := (some (u64_at bytes 72)).filter (· ≠ 0)
        segments := segments
        unreadable := (List.range (u32_at bytes 60)).map fun i => u32_at bytes (at_ + i * 4) }
      if manifest.is_consistent then some manifest else none

/-- What is left of a manifest: a time of zero is none. -/
def read_back (m : Manifest) : Manifest :=
  { m with
    last_follow := m.last_follow.filter (· ≠ 0)
    last_merge := m.last_merge.filter (· ≠ 0) }

end Manifest

/-! ## Widths -/

/-- An entry whose fields fit the widths they are stored in. -/
structure SegmentEntry.Fits (s : SegmentEntry) : Prop where
  number : s.number < 2 ^ 64
  first : s.first < 2 ^ 32
  last : s.last < 2 ^ 32
  docs : s.docs < 2 ^ 32
  terms : s.terms < 2 ^ 64
  pairs : s.pairs < 2 ^ 64
  bytes : s.bytes < 2 ^ 64
  digest : s.digest.length = 16
  trigram_bytes : s.trigram_bytes < 2 ^ 64
  trigram_keys : s.trigram_keys < 2 ^ 64
  trigram_pairs : s.trigram_pairs < 2 ^ 64
  trigram_digest : s.trigram_digest.length = 16

/-- A manifest whose fields fit the widths they are stored in. -/
structure Manifest.Fits (m : Manifest) : Prop where
  tokenizer_version : m.tokenizer_version < 2 ^ 32
  trigram_version : m.trigram_version < 2 ^ 32
  incarnation : m.incarnation.length = 16
  high_water : m.high_water < 2 ^ 32
  frontier : m.frontier < 2 ^ 32
  sequence : m.sequence < 2 ^ 64
  next_number : m.next_number < 2 ^ 64
  last_follow : ∀ t ∈ m.last_follow, t < 2 ^ 64
  last_merge : ∀ t ∈ m.last_merge, t < 2 ^ 64
  segments : ∀ s ∈ m.segments, s.Fits
  unreadable : ∀ d ∈ m.unreadable, d < 2 ^ 32

/-! ## What consistent means -/

theorem pairwise_of_chain {segments : List SegmentEntry} (hfirst : ∀ s ∈ segments, s.first ≤ s.last)
    (h : segments.IsChain fun a b => a.last < b.first) :
    segments.Pairwise fun a b => a.last < b.first := by
  induction segments with
  | nil => exact .nil
  | cons s rest ih =>
    rw [isChain_cons] at h
    have hrest := ih (fun t ht => hfirst t (.tail _ ht)) h.2
    refine pairwise_cons.mpr ⟨fun t ht => ?_, hrest⟩
    cases rest with
    | nil => cases ht
    | cons u rest =>
      have hu : s.last < u.first := h.1 u rfl
      rcases mem_cons.mp ht with rfl | ht
      · exact hu
      · have hle := hfirst u (.tail _ (.head _))
        exact hu.trans (hle.trans_lt ((pairwise_cons.mp hrest).1 t ht))

variable {m : Manifest}

namespace Manifest

/-- **What a reader checks.** -/
theorem is_consistent_iff : m.is_consistent = true ↔
    (∀ s ∈ m.segments, s.first ≤ s.last ∧ s.last < m.frontier ∧ s.number < m.next_number)
      ∧ (m.segments.Pairwise fun a b => a.last < b.first) ∧ m.unreadable.Pairwise (· < ·)
      ∧ (∀ d ∈ m.unreadable, d < m.frontier) ∧ m.frontier ≤ m.high_water := by
  have hcheck : m.is_consistent = true ↔
      ((∀ s ∈ m.segments, (s.first ≤ s.last ∧ s.last < m.frontier) ∧ s.number < m.next_number)
        ∧ m.segments.IsChain fun a b => a.last < b.first)
      ∧ (m.unreadable.IsChain (· < ·) ∧ m.unreadable.getLast?.all (· < m.frontier) = true)
      ∧ m.frontier ≤ m.high_water := by
    simp only [is_consistent, Bool.and_eq_true, all_eq_true, decide_eq_true_eq, and_assoc]
  rw [hcheck]
  constructor
  · rintro ⟨⟨hranges, hchain⟩, ⟨hasc, hlast⟩, hfrontier⟩
    have hsorted := isChain_iff_pairwise.mp hasc
    refine ⟨fun s hs => and_assoc.mp (hranges s hs),
      pairwise_of_chain (fun s hs => (hranges s hs).1.1) hchain, hsorted, ?_, hfrontier⟩
    intro d hd
    rcases eq_nil_or_concat m.unreadable with hnil | ⟨_, last, heq⟩
    · rw [hnil] at hd
      cases hd
    · rw [concat_eq_append] at heq
      rw [heq] at hd hlast hsorted
      rw [getLast?_concat] at hlast
      have hbelow : last < m.frontier := of_decide_eq_true hlast
      rcases mem_append.mp hd with hd | hd
      · exact ((pairwise_append.mp hsorted).2.2 d hd last (mem_singleton_self _)).trans
          hbelow
      · rw [mem_singleton.mp hd]
        exact hbelow
  · rintro ⟨hranges, hdisjoint, hasc, hbelow, hfrontier⟩
    refine ⟨⟨fun s hs => and_assoc.mpr (hranges s hs), hdisjoint.isChain⟩, ⟨hasc.isChain, ?_⟩,
      hfrontier⟩
    cases hlast : m.unreadable.getLast? with
    | none => rfl
    | some d => exact decide_eq_true (hbelow d (mem_of_getLast? hlast))

/-- What a reader checks is what consistent means, but for the numbers being
distinct. -/
theorem consistent_iff :
    m.Consistent ↔ m.is_consistent = true ∧ (m.segments.map SegmentEntry.number).Nodup := by
  rw [is_consistent_iff]
  exact ⟨fun h => ⟨⟨h.ranges, h.disjoint, h.unreadable, h.below, h.frontier⟩, h.numbers⟩,
    fun ⟨⟨hranges, hdisjoint, hasc, hbelow, hfrontier⟩, hnumbers⟩ =>
      ⟨hranges, hdisjoint, hnumbers, hasc, hbelow, hfrontier⟩⟩

/-- Documents below a bound, each once, are no more than it. -/
theorem length_le_of_ascending {docs : List ℕ} {bound : ℕ} (h : docs.Pairwise (· < ·))
    (hlt : ∀ d ∈ docs, d < bound) : docs.length ≤ bound := by
  have hsub : docs.toFinset ⊆ Finset.range bound := fun d hd =>
    Finset.mem_range.mpr (hlt d (mem_toFinset.mp hd))
  have hcard := Finset.card_le_card hsub
  rwa [toFinset_card_of_nodup (h.imp fun hab => ne_of_lt hab), Finset.card_range] at hcard

/-- The counts of a consistent manifest fit the head. -/
theorem Fits.counts (h : m.Fits) (hc : m.is_consistent = true) :
    m.segments.length < 2 ^ 32 ∧ m.unreadable.length < 2 ^ 32 := by
  obtain ⟨hranges, hdisjoint, hasc, hbelow, -⟩ := is_consistent_iff.mp hc
  have hlasts : (m.segments.map SegmentEntry.last).Pairwise (· < ·) := by
    rw [pairwise_map]
    exact hdisjoint.imp_of_mem fun _ hb hab => hab.trans_le (hranges _ hb).1
  have hcount : (m.segments.map SegmentEntry.last).length ≤ m.frontier := by
    refine length_le_of_ascending hlasts fun d hd => ?_
    obtain ⟨s, hs, rfl⟩ := mem_map.mp hd
    exact (hranges s hs).2.1
  rw [length_map] at hcount
  exact ⟨hcount.trans_lt h.frontier, (length_le_of_ascending hasc hbelow).trans_lt h.frontier⟩

end Manifest

/-! ## The round trip -/

variable {s : SegmentEntry}

theorem SegmentEntry.Fits.length_encode (h : s.Fits) :
    s.encode.length = Manifest.ENTRY := by
  simp only [encode, length_append, length_toLe, length_replicate, h.digest, h.trigram_digest]
  rfl

variable {bytes : Bytes}

theorem u32_of_slice {offset value : ℕ} (h : slice bytes offset 4 = toLe 4 value)
    (hlt : value < 2 ^ 32) : u32_at bytes offset = value := by
  rw [u32_at, h, ofLe_toLe 4 value hlt]

theorem u64_of_slice {offset value : ℕ} (h : slice bytes offset 8 = toLe 8 value)
    (hlt : value < 2 ^ 64) : u64_at bytes offset = value := by
  rw [u64_at, h, ofLe_toLe 8 value hlt]

/-- **The fields of an entry, where the reader looks for them.** -/
theorem SegmentEntry.Fits.slice_encode (h : s.Fits) :
    slice s.encode 0 8 = toLe 8 s.number ∧ slice s.encode 8 4 = toLe 4 s.first
      ∧ slice s.encode 12 4 = toLe 4 s.last ∧ slice s.encode 16 4 = toLe 4 s.docs
      ∧ slice s.encode 20 4 = List.replicate 4 0
      ∧ slice s.encode 24 8 = toLe 8 s.terms ∧ slice s.encode 32 8 = toLe 8 s.pairs
      ∧ slice s.encode 40 8 = toLe 8 s.bytes ∧ slice s.encode 48 16 = s.digest
      ∧ slice s.encode 64 8 = toLe 8 s.trigram_bytes ∧ slice s.encode 72 8 = toLe 8 s.trigram_keys
      ∧ slice s.encode 80 8 = toLe 8 s.trigram_pairs ∧ slice s.encode 88 16 = s.trigram_digest := by
  have hlast : slice s.trigram_digest 0 16 = s.trigram_digest :=
    take_of_length_le h.trigram_digest.le
  have hpad : (List.replicate 4 (0 : UInt8)).length = 4 := length_replicate
  unfold encode
  refine ⟨?_, ?_, ?_, ?_, ?_, ?_, ?_, ?_, ?_, ?_, ?_, ?_, ?_⟩ <;>
    simp only [slice_toLe_append, slice_toLe_append_zero, slice_skip hpad, slice_here hpad,
      slice_skip h.digest, slice_here h.digest, hlast, Nat.reduceLeDiff, Nat.reduceSub, le_refl,
      Nat.sub_self]

namespace Manifest

/-- **The fields of the head, where the reader looks for them.** -/
theorem slice_head (hinc : m.incarnation.length = 16) :
    m.encode_head.length = HEAD ∧ m.encode_head.take 8 = MAGIC
      ∧ slice m.encode_head 8 4 = toLe 4 FORMAT_VERSION
      ∧ slice m.encode_head 12 4 = toLe 4 m.tokenizer_version
      ∧ slice m.encode_head 16 16 = m.incarnation ∧ slice m.encode_head 32 4 = toLe 4 m.high_water
      ∧ slice m.encode_head 36 4 = toLe 4 m.frontier ∧ slice m.encode_head 40 8 = toLe 8 m.sequence
      ∧ slice m.encode_head 48 8 = toLe 8 m.next_number
      ∧ slice m.encode_head 56 4 = toLe 4 m.segments.length
      ∧ slice m.encode_head 60 4 = toLe 4 m.unreadable.length
      ∧ slice m.encode_head 64 8 = toLe 8 (m.last_follow.getD 0)
      ∧ slice m.encode_head 72 8 = toLe 8 (m.last_merge.getD 0)
      ∧ slice m.encode_head 80 4 = toLe 4 m.trigram_version
      ∧ slice m.encode_head 84 4 = List.replicate 4 0 := by
  have hlast : slice (List.replicate 4 (0 : UInt8)) 0 4 = List.replicate 4 0 := rfl
  have hmagic : MAGIC.length = 8 := rfl
  unfold encode_head
  refine ⟨?_, rfl, ?_, ?_, ?_, ?_, ?_, ?_, ?_, ?_, ?_, ?_, ?_, ?_, ?_⟩
  · simp only [length_append, length_toLe, length_replicate, hinc, hmagic]
    rfl
  all_goals
    simp only [slice_toLe_append, slice_toLe_append_zero, slice_skip hmagic, slice_skip hinc,
      slice_here hinc, hlast, Nat.reduceLeDiff, Nat.reduceSub, le_refl, Nat.sub_self]

section

variable {C : Checksum} {m : Manifest}

theorem Fits.length_entries (h : m.Fits) :
    (m.segments.flatMap SegmentEntry.encode).length = m.segments.length * ENTRY := by
  rw [length_flatMap, map_congr_left fun s hs => (h.segments s hs).length_encode]
  simp

theorem length_documents (docs : List ℕ) : (docs.flatMap (toLe 4)).length = docs.length * 4 := by
  rw [length_flatMap, map_congr_left fun d _ => length_toLe 4 d]
  simp

theorem Fits.length_body (h : m.Fits) : m.encode_body.length
    = HEAD + m.segments.length * ENTRY + m.unreadable.length * 4 := by
  rw [encode_body, length_append, length_append, (slice_head h.incarnation).1,
    h.length_entries, length_documents, add_assoc]

theorem Fits.length_encode (h : m.Fits) : (m.encode C).length
    = HEAD + 16 + m.segments.length * ENTRY + m.unreadable.length * 4 := by
  rw [encode, length_append, h.length_body, C.length_checksum]
  omega

theorem Fits.slice_head (h : m.Fits) {offset n : ℕ} (hle : offset + n ≤ HEAD) :
    slice (m.encode C) offset n = slice m.encode_head offset n := by
  have hlen := (Manifest.slice_head h.incarnation).1
  rw [encode, encode_body, append_assoc, slice_append_left (hle.trans hlen.ge)]

/-- An entry is where its number says. -/
theorem Fits.slice_entry (h : m.Fits) {i : ℕ} (hs : m.segments[i]? = some s) {offset n : ℕ}
    (hle : offset + n ≤ ENTRY) :
    slice (m.encode C) (HEAD + i * ENTRY + offset) n = slice s.encode offset n := by
  have hentry : slice (m.segments.flatMap SegmentEntry.encode) (i * ENTRY) ENTRY = s.encode :=
    slice_flatMap_const (fun s hs => (h.segments s hs).length_encode) hs
  have hin : i * ENTRY + offset + n ≤ (m.segments.flatMap SegmentEntry.encode).length := by
    have hi : i + 1 ≤ m.segments.length := (List.getElem?_eq_some_iff.mp hs).1
    have := Nat.mul_le_mul_right ENTRY hi
    rw [h.length_entries]
    rw [Nat.succ_mul] at this
    omega
  rw [encode, encode_body, append_assoc, add_assoc,
    slice_skip (Manifest.slice_head h.incarnation).1 _ (le_self_add),
    Nat.add_sub_cancel_left, append_assoc, slice_append_left hin, ← hentry, slice_slice hle]

/-- An unreadable document is where its number says. -/
theorem Fits.slice_document (h : m.Fits) {i : ℕ} {d : ℕ} (hd : m.unreadable[i]? = some d) :
    slice (m.encode C) (HEAD + m.segments.length * ENTRY + i * 4) 4 = toLe 4 d := by
  have hdoc : slice (m.unreadable.flatMap (toLe 4)) (i * 4) 4 = toLe 4 d :=
    slice_flatMap_const (fun d _ => length_toLe 4 d) hd
  have hin : i * 4 + 4 ≤ (m.unreadable.flatMap (toLe 4)).length := by
    have hi : i + 1 ≤ m.unreadable.length := (List.getElem?_eq_some_iff.mp hd).1
    rw [length_documents]
    omega
  rw [encode, encode_body, append_assoc, add_assoc,
    slice_skip (Manifest.slice_head h.incarnation).1 _ (le_self_add),
    Nat.add_sub_cancel_left, append_assoc, slice_skip h.length_entries _ (le_self_add),
    Nat.add_sub_cancel_left, slice_append_left hin, hdoc]

/-- **The entries are read back.** -/
theorem Fits.entry_at (h : m.Fits) {i : ℕ} (hs : m.segments[i]? = some s) :
    Manifest.entry_at (m.encode C) (HEAD + i * ENTRY) = some s := by
  have hfit := h.segments s (mem_of_getElem? hs)
  obtain ⟨h₀, h₈, h₁₂, h₁₆, h₂₀, h₂₄, h₃₂, h₄₀, h₄₈, h₆₄, h₇₂, h₈₀, h₈₈⟩ := hfit.slice_encode
  have hat : ∀ {offset n : ℕ}, offset + n ≤ ENTRY →
      slice (m.encode C) (HEAD + i * ENTRY + offset) n = slice s.encode offset n :=
    fun hle => h.slice_entry hs hle
  have hzero : slice (m.encode C) (HEAD + i * ENTRY) 8 = toLe 8 s.number :=
    (hat (by decide : 0 + 8 ≤ ENTRY)).trans h₀
  unfold Manifest.entry_at
  rw [hat (by decide), h₂₀, if_neg (not_not.mpr rfl), u64_of_slice hzero hfit.number,
    u32_of_slice ((hat (by decide)).trans h₈) hfit.first,
    u32_of_slice ((hat (by decide)).trans h₁₂) hfit.last,
    u32_of_slice ((hat (by decide)).trans h₁₆) hfit.docs,
    u64_of_slice ((hat (by decide)).trans h₂₄) hfit.terms,
    u64_of_slice ((hat (by decide)).trans h₃₂) hfit.pairs,
    u64_of_slice ((hat (by decide)).trans h₄₀) hfit.bytes,
    (hat (by decide)).trans h₄₈,
    u64_of_slice ((hat (by decide)).trans h₆₄) hfit.trigram_bytes,
    u64_of_slice ((hat (by decide)).trans h₇₂) hfit.trigram_keys,
    u64_of_slice ((hat (by decide)).trans h₈₀) hfit.trigram_pairs,
    (hat (by decide)).trans h₈₈]

theorem Fits.time {t : Option ℕ} (h : ∀ n ∈ t, n < 2 ^ 64) : t.getD 0 < 2 ^ 64 := by
  cases t with
  | none => decide
  | some n => exact h n rfl

theorem filter_getD (t : Option ℕ) : (some (t.getD 0)).filter (· ≠ 0) = t.filter (· ≠ 0) := by
  cases t <;> rfl

/-- **A consistent manifest is read back.** -/
theorem decode_encode (h : m.Fits) (hc : m.is_consistent = true) :
    decode C (m.encode C) = some m.read_back := by
  obtain ⟨-, hmagic, h₈, h₁₂, h₁₆, h₃₂, h₃₆, h₄₀, h₄₈, h₅₆, h₆₀, h₆₄, h₇₂, h₈₀, h₈₄⟩ :=
    Manifest.slice_head h.incarnation
  obtain ⟨hsegments, hunreadable⟩ := h.counts hc
  have hat : ∀ {offset n : ℕ}, offset + n ≤ HEAD →
      slice (m.encode C) offset n = slice m.encode_head offset n := fun hle => h.slice_head hle
  have hcount := u32_of_slice ((hat (by decide)).trans h₅₆) hsegments
  have hdocs := u32_of_slice ((hat (by decide)).trans h₆₀) hunreadable
  have hlen : declared_len (m.encode C) = some (m.encode C).length := by
    have htake : (m.encode C).take 8 = MAGIC := (hat (by decide : 0 + 8 ≤ HEAD)).trans hmagic
    have hlong : ¬ (m.encode C).length < HEAD := by
      rw [h.length_encode]
      omega
    have hversion := u32_of_slice ((hat (by decide)).trans h₈) (by decide : FORMAT_VERSION < 2 ^ 32)
    have hreserved := (hat (by decide)).trans h₈₄
    unfold declared_len
    rw [if_neg (by rw [htake, hversion, hreserved]; simp [hlong]), hcount, hdocs, h.length_encode]
    refine if_pos ?_
    simp only [HEAD, ENTRY]
    omega
  have hbody : (m.encode C).length - 16 = m.encode_body.length := by
    rw [encode, length_append, C.length_checksum, Nat.add_sub_cancel]
  have hdigest : C.checksum ((m.encode C).take ((m.encode C).length - 16))
      = (m.encode C).drop ((m.encode C).length - 16) := by
    rw [hbody, encode, take_left, drop_left]
  have hentries : (List.range m.segments.length).mapM
      (fun i => Manifest.entry_at (m.encode C) (HEAD + i * ENTRY)) = some m.segments :=
    mapM_range_eq_some fun i s hs => h.entry_at hs
  have hall : (List.range m.unreadable.length).map (fun i =>
      u32_at (m.encode C) (HEAD + m.segments.length * ENTRY + i * 4)) = m.unreadable := by
    refine ext_getElem (by simp) fun i _ hi => ?_
    rw [getElem_map, getElem_range]
    exact u32_of_slice (h.slice_document (getElem?_eq_getElem hi))
      (h.unreadable _ (getElem_mem hi))
  unfold decode
  rw [if_neg (not_not.mpr hlen)]
  simp only [hdigest, ne_eq, not_true_eq_false, if_false, hcount, hdocs, hentries, hall,
    Option.bind_eq_bind, Option.bind_some]
  rw [u32_of_slice ((hat (by decide)).trans h₁₂) h.tokenizer_version,
    u32_of_slice ((hat (by decide)).trans h₈₀) h.trigram_version, (hat (by decide)).trans h₁₆,
    u32_of_slice ((hat (by decide)).trans h₃₂) h.high_water,
    u32_of_slice ((hat (by decide)).trans h₃₆) h.frontier,
    u64_of_slice ((hat (by decide)).trans h₄₀) h.sequence,
    u64_of_slice ((hat (by decide)).trans h₄₈) h.next_number,
    u64_of_slice ((hat (by decide)).trans h₆₄) (Fits.time h.last_follow),
    u64_of_slice ((hat (by decide)).trans h₇₂) (Fits.time h.last_merge), filter_getD, filter_getD]
  exact if_pos hc

/-- **What decodes is consistent.** -/
theorem is_consistent_of_decode (h : decode C bytes = some m) :
    m.is_consistent = true := by
  unfold decode at h
  dsimp only at h
  split_ifs at h
  rw [Option.bind_eq_bind, Option.bind_eq_some_iff] at h
  obtain ⟨_, -, h⟩ := h
  split_ifs at h with hc
  cases h
  exact hc

end

end Manifest

end Ferret
