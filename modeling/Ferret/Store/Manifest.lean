import Ferret.Index.Draft

/-!
# The index manifest and its view

The index is a list of segments over disjoint, ascending ranges of DocIds. A
manifest names them, in pairs: a term segment and a trigram segment over the
same range. It also says how far the index has got: every document below the
`frontier` has been dealt with, by being indexed, by being dead when it was
reached, or by being entered in the list of `unreadable` documents.

`View` is a manifest with its segments open. A segment is taken here as what
its streams yield, `Contents`.
-/

namespace Ferret

/-- What a catalog shows of itself: which catalog it is, and which documents
are live. The bound of `live` is the next DocId it would hand out. -/
structure CatalogView where
  incarnation : Bytes
  live : DocSet

/-- What the heads of a pair of segment files say. -/
structure Facts where
  terms : ℕ
  pairs : ℕ
  bytes : ℕ
  digest : Bytes
  trigram_bytes : ℕ
  trigram_keys : ℕ
  trigram_pairs : ℕ
  trigram_digest : Bytes
deriving DecidableEq

/-- One pair of segments as the manifest lists it. -/
structure SegmentEntry extends Facts where
  /-- Unique within the directory. -/
  number : ℕ
  first : ℕ
  last : ℕ
  /-- Documents tokenized into it, live when they were. -/
  docs : ℕ
deriving DecidableEq

/-- Combined bytes of both files. -/
def SegmentEntry.total_bytes (entry : SegmentEntry) : ℕ := entry.bytes + entry.trigram_bytes

def TERM_VERSION : ℕ := 2

def TRIGRAM_VERSION : ℕ := 0x74720001

/-- **One published state of the index.** -/
structure Manifest where
  tokenizer_version : ℕ
  trigram_version : ℕ
  incarnation : Bytes
  high_water : ℕ
  frontier : ℕ
  /-- Increased by every publication. -/
  sequence : ℕ
  next_number : ℕ
  last_follow : Option ℕ
  last_merge : Option ℕ
  segments : List SegmentEntry
  unreadable : List ℕ
deriving DecidableEq

namespace Manifest

/-- An index that covers nothing. -/
def empty (incarnation : Bytes) : Manifest where
  tokenizer_version := TERM_VERSION
  trigram_version := TRIGRAM_VERSION
  incarnation := incarnation
  high_water := 0
  frontier := 0
  sequence := 0
  next_number := 0
  last_follow := none
  last_merge := none
  segments := []
  unreadable := []

/-- Whether the manifest belongs to the catalog's view: the same incarnation,
the versions of this build, and no DocId the view has not published. -/
def fits (m : Manifest) (catalog : CatalogView) : Bool :=
  m.incarnation = catalog.incarnation && m.tokenizer_version = TERM_VERSION
    && m.trigram_version = TRIGRAM_VERSION && m.high_water ≤ catalog.live.bound

/-- Ranges ascending and disjoint and below the frontier, numbers distinct and
below `next_number`, unreadable ascending and below the frontier, and the frontier
at most the high water. -/
structure Consistent (m : Manifest) : Prop where
  ranges : ∀ s ∈ m.segments, s.first ≤ s.last ∧ s.last < m.frontier ∧ s.number < m.next_number
  disjoint : m.segments.Pairwise fun a b => a.last < b.first
  numbers : (m.segments.map SegmentEntry.number).Nodup
  unreadable : m.unreadable.Pairwise (· < ·)
  below : ∀ d ∈ m.unreadable, d < m.frontier
  frontier : m.frontier ≤ m.high_water

end Manifest

/-- Indexed documents of a segment still live: the live documents in its range
less the unreadable ones, which sit in the range with no postings. -/
def alive (segment : SegmentEntry) (live : DocSet) (unreadable : List ℕ) : ℕ :=
  let stop := min (segment.last + 1) (docLimit - 1)
  live.count segment.first stop
    - unreadable.countP fun doc => segment.first ≤ doc && doc < stop && live.contains doc

/-! ## Views -/

namespace Contents

/-- A segment of some terms and records, if they are as a segment's have to
be. -/
def of (first last : ℕ) (terms : List (Bytes × List ℕ)) (records : List Record) :
    Option Contents :=
  if h : (first ≤ last ∧ last < docLimit) ∧ terms.Pairwise (fun p q => p.1 < q.1)
      ∧ (∀ p ∈ terms, p.2 ≠ [] ∧ p.2.Pairwise (· < ·) ∧ ∀ d ∈ p.2, first ≤ d ∧ d ≤ last)
      ∧ records.Pairwise (· < ·) ∧ ∀ r ∈ records, first ≤ (ofLex r).2 ∧ (ofLex r).2 ≤ last then
    some {
      first := first
      last := last
      terms := terms
      records := records
      first_le := h.1.1
      last_lt := h.1.2
      sorted := h.2.1
      docs_ne_nil := fun p hp => (h.2.2.1 p hp).1
      docs_sorted := fun p hp => (h.2.2.1 p hp).2.1
      docs_within := fun p hp => (h.2.2.1 p hp).2.2
      records_sorted := h.2.2.2.1
      records_within := h.2.2.2.2 }
  else none

theorem of_eq_some {first last : ℕ} {terms : List (Bytes × List ℕ)} {records : List Record}
    {c : Contents} (h : of first last terms records = some c) :
    c.first = first ∧ c.last = last ∧ c.terms = terms ∧ c.records = records := by
  unfold of at h
  split at h
  · cases h
    exact ⟨rfl, rfl, rfl, rfl⟩
  · cases h

/-- The documents whose records have the fingerprint of `term`. -/
def fingerprint_docs (fingerprint : Bytes → ℕ) (c : Contents) (term : Bytes) : List ℕ :=
  (c.records.filter fun r => (ofLex r).1 = fingerprint term).map fun r => (ofLex r).2

/-- The documents of a segment that may hold `term`. -/
def lookup (fingerprint : Bytes → ℕ) (c : Contents) (term : Bytes) : List ℕ :=
  ((c.fingerprint_docs fingerprint term ++ docsOf c.terms term).mergeSort
    fun a b => decide (a ≤ b)).dedup

theorem mem_lookup {fingerprint : Bytes → ℕ} {c : Contents} {term : Bytes} {d : ℕ} :
    d ∈ c.lookup fingerprint term
      ↔ d ∈ docsOf c.terms term ∨ toLex (fingerprint term, d) ∈ c.records := by
  have hrecord : d ∈ c.fingerprint_docs fingerprint term
      ↔ toLex (fingerprint term, d) ∈ c.records := by
    simp only [fingerprint_docs, List.mem_map, List.mem_filter, decide_eq_true_eq]
    constructor
    · rintro ⟨r, ⟨hr, hfp⟩, rfl⟩
      rw [← hfp]
      exact hr
    · exact fun hr => ⟨_, ⟨hr, rfl⟩, rfl⟩
  rw [lookup, List.mem_dedup, List.mem_mergeSort, List.mem_append, hrecord, or_comm]

end Contents

/-- A segment file, open. A dictionary has no records. -/
structure Stored extends Contents where
  codec : Codec
  plain : codec = .dictionary → records = []

/-- A segment that has been written, opened again. -/
def Stored.ofDraft (codec : Codec) (d : Draft) : Option Stored :=
  match Contents.of d.first d.last d.terms d.records with
  | none => none
  | some c =>
    if h : codec = .dictionary → c.records = [] then some { c with codec := codec, plain := h }
    else none

theorem Stored.ofDraft_eq_some {codec : Codec} {d : Draft} {s : Stored}
    (h : ofDraft codec d = some s) :
    (s.first = d.first ∧ s.last = d.last ∧ s.codec = codec)
      ∧ s.terms = d.terms ∧ s.records = d.records := by
  unfold ofDraft at h
  split at h
  · cases h
  · rename_i c hc
    split at h
    · cases h
      obtain ⟨h₁, h₂, h₃, h₄⟩ := Contents.of_eq_some hc
      exact ⟨⟨h₁, h₂, rfl⟩, h₃, h₄⟩
    · cases h

/-- One published manifest with every segment it names open. -/
structure View where
  manifest : Manifest
  segments : List Stored
  trigrams : List Stored

namespace View

/-- The view of an index that covers nothing. -/
def blank (incarnation : Bytes) : View where
  manifest := Manifest.empty incarnation
  segments := []
  trigrams := []

/-- Every document whose postings hold `term`, across the segments. -/
def lookup (fingerprint : Bytes → ℕ) (v : View) (term : Bytes) : List ℕ :=
  v.segments.flatMap fun s => s.toContents.lookup fingerprint term

/-- Every document whose postings hold a trigram. -/
def lookup_trigram (v : View) (key : Bytes) : List ℕ :=
  v.trigrams.flatMap fun s => docsOf s.terms key

/-- The live documents this view does not cover, ascending: the unreadable
ones, and every live one at or above the frontier. -/
def uncovered (v : View) (live : DocSet) : List ℕ :=
  v.manifest.unreadable.filter live.contains ++ live.range v.manifest.frontier live.bound

theorem mem_uncovered {v : View} {live : DocSet} {d : ℕ} :
    d ∈ v.uncovered live
      ↔ live.contains d = true ∧ (v.manifest.frontier ≤ d ∨ d ∈ v.manifest.unreadable) := by
  rw [uncovered, List.mem_append, List.mem_filter, DocSet.mem_range]
  constructor
  · rintro (⟨hu, hl⟩ | ⟨hf, -, hl⟩)
    · exact ⟨hl, .inr hu⟩
    · exact ⟨hl, .inl hf⟩
  · rintro ⟨hl, hf | hu⟩
    · exact .inr ⟨hf, DocSet.lt_bound_of_contains hl, hl⟩
    · exact .inl ⟨hu, hl⟩

theorem pairwise_uncovered {v : View} (h : v.manifest.Consistent) (live : DocSet) :
    (v.uncovered live).Pairwise (· < ·) := by
  refine List.pairwise_append.mpr ⟨h.unreadable.filter _, live.pairwise_range _ _, ?_⟩
  intro a ha b hb
  exact (h.below a (List.mem_filter.mp ha).1).trans_le (DocSet.mem_range.mp hb).1

end View

end Ferret
