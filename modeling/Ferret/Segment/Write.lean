import Ferret.Index.Intpack
import Ferret.Segment.Format

/-!
# Writing a segment file

`Writer` takes terms in order and lays them out in blocks of `BLOCK` entries.
The first term of a block is not in the block but in the index, in full, with
how far the block before it reached; each later term is stored as the length
it shares with the term before it and the rest. After its term an entry has
the number of its documents, and then the document itself if there is only
one, or the length of its postings list if there are more. Where that list
begins is not stored: it begins where the one before it ended.

What has been laid out after any number of pushes has a closed form, cut into
groups of terms, one to a block. `Laid` states it, and `push_laid` shows that
every push keeps it. `Refines` puts it beside the draft of the same segment,
so that the writer takes exactly what a draft takes.
-/

namespace Ferret

open List

/-- What a finished segment holds, in bytes and counts. -/
structure Sizes where
  head : ℕ
  blocks : ℕ
  postings : ℕ
  index : ℕ
  sums : ℕ
  terms : ℕ
  pairs : ℕ
  singletons : ℕ
  singleton_bytes : ℕ
  term_bytes : ℕ
  fingerprints : ℕ
  fingerprint_index : ℕ
  records : ℕ

def Sizes.none : Sizes where
  head := 0
  blocks := 0
  postings := 0
  index := 0
  sums := 0
  terms := 0
  pairs := 0
  singletons := 0
  singleton_bytes := 0
  term_bytes := 0
  fingerprints := 0
  fingerprint_index := 0
  records := 0

/-- **A segment being laid out** over `[first, last]`. -/
structure Writer where
  first : ℕ
  last : ℕ
  tokenizer : ℕ
  codec : Codec
  /-- Terms pushed, in the dictionary or not. -/
  pushed : ℕ
  blocks : Bytes
  postings : Bytes
  index : Bytes
  previous : Bytes
  last_term : Bytes
  in_block : ℕ
  /-- Where the current block began in the blocks and postings sections. -/
  block_start : ℕ
  postings_base : ℕ
  sizes : Sizes
  /-- The fingerprint codec's records. -/
  singles : Option Singles

/-- How many leading bytes two terms share. -/
def shared (term previous : Bytes) : ℕ :=
  ((term.zip previous).takeWhile fun p => p.1 == p.2).length

namespace Writer

def build (first last version : ℕ) (codec : Codec) : Except WriteError Writer :=
  if last < first then .error (.range first last)
  else .ok {
    first := first
    last := last
    tokenizer := version
    codec := codec
    pushed := 0
    blocks := []
    postings := []
    index := []
    previous := []
    last_term := []
    in_block := 0
    block_start := 0
    postings_base := 0
    sizes := Sizes.none
    singles := if codec = .fingerprint then some Singles.new else none }

/-- The codec's sections in file order. -/
def sections (w : Writer) : List Section := (Ferret.sections w.codec.number).getD []

/-- Bytes of this writer's head. -/
def head_len (w : Writer) : ℕ := Ferret.head_len w.sections.length

/-- Starts a block at `term`: its index entry holds the term in full and
where the block's entries and postings start. -/
def open_block (w : Writer) (term : Bytes) : Writer :=
  { w with
    index := w.index ++ (put term.length ++ (term ++ (put (w.blocks.length - w.block_start)
      ++ put (w.postings.length - w.postings_base))))
    block_start := w.blocks.length
    postings_base := w.postings.length
    in_block := 0
    sizes := { w.sizes with term_bytes := w.sizes.term_bytes + term.length } }

/-- `term` was pushed: the next must sort after it. -/
def remember (w : Writer) (term : Bytes) : Writer :=
  { w with last_term := term, pushed := w.pushed + 1 }

/-- Stores what `term` does not share with the term before it; the first
term of a block is in the index. -/
def put_term (w : Writer) (term : Bytes) : Writer :=
  if 0 < w.in_block then
    let n := shared term w.previous
    { w with
      blocks := w.blocks ++ (put n ++ (put (term.length - n) ++ term.drop n))
      sizes := { w.sizes with term_bytes := w.sizes.term_bytes + (term.length - n) } }
  else w

/-- Stores how many documents the term has, and the one document or the
length of their list. -/
def put_docs (P : Intpack) (w : Writer) (entry : ℕ) (docs : List ℕ) : Writer :=
  match docs with
  | [doc] =>
    let blocks := w.blocks ++ (put 1 ++ put (doc - w.first))
    { w with
      blocks := blocks
      sizes := { w.sizes with
        singletons := w.sizes.singletons + 1
        singleton_bytes := w.sizes.singleton_bytes + (blocks.length - entry) } }
  | docs =>
    let list := P.encode_sorted (docs.map (· - w.first))
    { w with
      blocks := w.blocks ++ (put docs.length ++ put list.length)
      postings := w.postings ++ list }

/-- Adds an entry to the dictionary, opening a block for it if there is none
or the current one is full. -/
def push_entry (P : Intpack) (w : Writer) (term : Bytes) (docs : List ℕ) : Writer × ℕ :=
  let w := if w.sizes.terms = 0 ∨ w.in_block = BLOCK then w.open_block term else w
  let entry := w.blocks.length
  let w := ((w.put_term term).put_docs P entry docs).remember term
  ({ w with
    previous := term
    in_block := w.in_block + 1
    sizes := { w.sizes with
      terms := w.sizes.terms + 1
      pairs := w.sizes.pairs + docs.length } }, w.blocks.length - entry)

/-- Adds `term` with its documents, and tells the size of its entry. In the
fingerprint codec a term with one document becomes a record instead, and
terms may not follow records. -/
def push (P : Intpack) (fingerprint : Bytes → ℕ) (w : Writer) (term : Bytes) (docs : List ℕ) :
    Except WriteError (Writer × ℕ) := do
  check_term w.first w.last w.pushed w.last_term term docs
  match w.singles with
  | some singles =>
    if singles.sealed then .error .recordOrder
    else
      match docs with
      | [doc] =>
        let record := toLex (fingerprint term, doc - w.first)
        .ok ({ w with
          singles := some { singles with pending := singles.pending ++ [record] }
          sizes := { w.sizes with singletons := w.sizes.singletons + 1 } }.remember term, 0)
      | docs => .ok (w.push_entry P term docs)
  | none => .ok (w.push_entry P term docs)

/-- Adds a record a merge carries from an input. -/
def push_record (w : Writer) (fp doc : ℕ) : Except WriteError Writer :=
  match w.singles with
  | none => .error .recordOrder
  | some singles =>
    if ¬ (w.first ≤ doc ∧ doc ≤ w.last) then .error (.docRange doc)
    else
      let record : Record := toLex (fp, doc - w.first)
      if singles.carried.any (record ≤ ·) then .error .recordOrder
      else
        let s := singles.seal_pending.flush_below (some record)
        let s := { s with encoder := s.encoder.push record, carried := some record }
        .ok { w with singles := some s }

/-- Closes the dictionary and encodes every pending record. -/
def seal_records (w : Writer) : Writer :=
  { w with singles := w.singles.map fun s => s.seal_pending.flush_below none }

/-- The digests of the chunked sections are those of their runs of sums. -/
def chunk_digests (C : Checksum) (lengths : Section → ℕ) (sums : Bytes)
    (digests : Section → Bytes) : Section → Bytes :=
  let blocks := chunks (lengths .blocks) * 16
  let postings := blocks + chunks (lengths .postings) * 16
  let records := chunks (lengths .fingerprints) * 16
  fun
  | .blocks => C.checksum (slice sums 0 blocks)
  | .postings => C.checksum (slice sums blocks (postings - blocks))
  | .fingerprints => C.checksum (slice sums postings records)
  | s => digests s

/-- The section table, from an offset on. -/
def table (lengths : Section → ℕ) (digests : Section → Bytes) : ℕ → List Section → Bytes
  | _, [] => []
  | offset, s :: rest =>
    toLe 8 offset ++ (toLe 8 (lengths s) ++ (digests s
      ++ table lengths digests (offset + lengths s) rest))

/-- Records written so far. -/
def records (w : Writer) : ℕ := (w.singles.map fun s => s.encoder.records.length).getD 0

/-- The fixed fields. -/
def fields (w : Writer) : Bytes :=
  MAGIC ++ (toLe 4 FORMAT_VERSION ++ (toLe 4 w.tokenizer ++ (toLe 4 w.codec.number
    ++ (toLe 4 POSTINGS_CODEC ++ (toLe 4 w.first ++ (toLe 4 w.last ++ (toLe 8 w.sizes.terms
    ++ (toLe 8 (w.sizes.pairs + w.records) ++ (toLe 4 CHUNK ++ (toLe 4 w.sections.length
    ++ List.replicate 8 0))))))))))

/-- The head, ending in its own digest. -/
def head (C : Checksum) (w : Writer) (lengths : Section → ℕ) (digests : Section → Bytes) : Bytes :=
  let head := w.fields ++ table lengths digests w.head_len w.sections
  head ++ C.checksum head

/-- The bytes of each section of a sealed writer. -/
def section_bytes (C : Checksum) (w : Writer) : Section → Bytes
  | .blocks => w.blocks
  | .postings => w.postings
  | .index => w.index
  | .sums =>
    chunk_sums C w.blocks ++ (chunk_sums C w.postings
      ++ chunk_sums C ((w.singles.map fun s => s.encoder.bytes).getD []))
  | .fingerprints => (w.singles.map fun s => s.encoder.bytes).getD []
  | .fingerprintIndex =>
    (w.singles.map fun s => put s.encoder.records.length ++ s.encoder.index).getD []

def sizes_of (w : Writer) (lengths : Section → ℕ) : Sizes :=
  { w.sizes with
    head := w.head_len
    blocks := lengths .blocks
    postings := lengths .postings
    index := lengths .index
    sums := lengths .sums
    fingerprints := lengths .fingerprints
    fingerprint_index := lengths .fingerprintIndex
    records := w.records
    pairs := w.sizes.pairs + w.records }

/-- The file of a sealed writer. -/
def file (C : Checksum) (w : Writer) : Bytes :=
  let bytes := w.section_bytes C
  let lengths := fun s => (bytes s).length
  let digests := chunk_digests C lengths (bytes .sums) fun s => C.checksum (bytes s)
  w.head C lengths digests ++ w.sections.flatMap bytes

/-- Writes the segment, and tells its sizes. The resident index uses fixed
`u32` offsets, so an oversized fingerprint section is refused. -/
def finish (C : Checksum) (w : Writer) : Except WriteError (Bytes × Sizes) :=
  let w := w.seal_records
  if w.singles.any fun s => decide (2 ^ 32 ≤ s.encoder.len) then .error .recordLength
  else .ok (w.file C, w.sizes_of fun s => (w.section_bytes C s).length)

end Writer

/-! ## What has been laid out -/

/-- Terms with their documents, in one block. -/
abbrev Group := List (Bytes × List ℕ)

section

variable (P : Intpack) (first : ℕ)

/-- What an entry stores of its term, after the term before it in its
block. -/
def term_bytes (term : Bytes) : Option Bytes → Bytes
  | none => []
  | some previous =>
    put (shared term previous) ++ (put (term.length - shared term previous)
      ++ term.drop (shared term previous))

/-- What an entry stores of its documents. -/
def docs_bytes : List ℕ → Bytes
  | [doc] => put 1 ++ put (doc - first)
  | docs => put docs.length ++ put (P.encode_sorted (docs.map (· - first))).length

/-- The postings list of an entry; a single document has none. -/
def list_bytes : List ℕ → Bytes
  | [_] => []
  | docs => P.encode_sorted (docs.map (· - first))

/-- The entries of a block from one on, given the term before it. -/
def entries_bytes : Option Bytes → Group → Bytes
  | _, [] => []
  | previous, (term, docs) :: rest =>
    term_bytes term previous ++ (docs_bytes P first docs ++ entries_bytes (some term) rest)

/-- A block. -/
def block_bytes (g : Group) : Bytes := entries_bytes P first none g

/-- The postings of a block. -/
def block_postings (g : Group) : Bytes := g.flatMap fun p => list_bytes P first p.2

/-- The first term of a block. -/
def first_of (g : Group) : Bytes := (g.headD ([], [])).1

/-- The index entry of a block. -/
def index_entry (term : Bytes) (step postings_step : ℕ) : Bytes :=
  put term.length ++ (term ++ (put step ++ put postings_step))

/-- The index entries of blocks, given how far the block before them
reached. -/
def index_bytes : ℕ × ℕ → List Group → Bytes
  | _, [] => []
  | step, g :: rest =>
    index_entry (first_of g) step.1 step.2
      ++ index_bytes ((block_bytes P first g).length, (block_postings P first g).length) rest

/-- How far the last of some blocks reaches. -/
def reach (gs : List Group) : ℕ × ℕ :=
  match gs.getLast? with
  | none => (0, 0)
  | some g => ((block_bytes P first g).length, (block_postings P first g).length)

end

section

variable {P : Intpack} {first : ℕ}

theorem entries_bytes_append (previous : Option Bytes) (g h : Group) :
    entries_bytes P first previous (g ++ h)
      = entries_bytes P first previous g
        ++ entries_bytes P first ((g.getLast?.map Prod.fst).or previous) h := by
  induction g generalizing previous with
  | nil => rfl
  | cons p g ih =>
    rw [cons_append, entries_bytes, ih, entries_bytes]
    have hlast : (((p :: g).getLast?.map Prod.fst).or previous)
        = ((g.getLast?.map Prod.fst).or (some p.1)) := by
      cases hg : g.getLast? <;> simp [getLast?_cons, hg]
    rw [hlast, append_assoc, append_assoc]

theorem index_bytes_append (step : ℕ × ℕ) (gs : List Group) (h : Group) :
    index_bytes P first step (gs ++ [h])
      = index_bytes P first step gs
        ++ index_bytes P first (if gs = [] then step else reach P first gs) [h] := by
  induction gs generalizing step with
  | nil => rfl
  | cons g gs ih =>
    have hreach : (if gs = [] then ((block_bytes P first g).length, (block_postings P first g).length)
        else reach P first gs) = reach P first (g :: gs) := by
      cases gs with
      | nil => rfl
      | cons _ gs => simp [reach, getLast?_cons]
    rw [cons_append, index_bytes, ih, hreach, if_neg (cons_ne_nil _ _), ← append_assoc]
    rfl

/-- An entry more in a block leaves its index entry as it was. -/
theorem index_bytes_extend (step : ℕ × ℕ) {g : Group} (hg : g ≠ []) (p : Bytes × List ℕ) :
    index_bytes P first step [g ++ [p]] = index_bytes P first step [g] := by
  cases g with
  | nil => exact absurd rfl hg
  | cons q g => rfl

end

namespace Writer

variable {P : Intpack}

/-- **What a writer has laid out**: the terms of some groups, each full but
perhaps the last. -/
structure Laid (P : Intpack) (w : Writer) (gs : List Group) : Prop where
  terms : w.sizes.terms = gs.flatten.length
  blocks : w.blocks = gs.flatMap (block_bytes P w.first)
  postings : w.postings = gs.flatMap (block_postings P w.first)
  index : w.index = index_bytes P w.first (0, 0) gs
  ne_nil : ∀ g ∈ gs, g ≠ []
  full : ∀ g ∈ gs.dropLast, g.length = BLOCK
  in_block : ∀ g ∈ gs.getLast?, g.length = w.in_block ∧ w.in_block ≤ BLOCK
    ∧ g.getLast?.map Prod.fst = some w.previous
  block_start : w.block_start = (gs.dropLast.flatMap (block_bytes P w.first)).length
  postings_base : w.postings_base = (gs.dropLast.flatMap (block_postings P w.first)).length

theorem put_term_eq (w : Writer) (term : Bytes) :
    ∃ sizes, sizes.terms = w.sizes.terms ∧ w.put_term term = { w with
      blocks := w.blocks ++ term_bytes term (if 0 < w.in_block then some w.previous else none)
      sizes := sizes } := by
  refine ⟨(w.put_term term).sizes, ?_⟩
  unfold put_term
  by_cases h : 0 < w.in_block
  · rw [if_pos h, if_pos h]
    exact ⟨rfl, rfl⟩
  · rw [if_neg h, if_neg h, term_bytes, append_nil]
    exact ⟨rfl, rfl⟩

theorem put_docs_eq (w : Writer) (entry : ℕ) (docs : List ℕ) :
    ∃ sizes, sizes.terms = w.sizes.terms ∧ w.put_docs P entry docs = { w with
      blocks := w.blocks ++ docs_bytes P w.first docs
      postings := w.postings ++ list_bytes P w.first docs
      sizes := sizes } := by
  refine ⟨(w.put_docs P entry docs).sizes, ?_⟩
  match docs with
  | [] => exact ⟨rfl, rfl⟩
  | [doc] =>
    rw [list_bytes, append_nil]
    exact ⟨rfl, rfl⟩
  | a :: b :: rest => exact ⟨rfl, rfl⟩

/-- A writer with a block for the next entry. -/
def ready (w : Writer) (term : Bytes) : Writer :=
  if w.sizes.terms = 0 ∨ w.in_block = BLOCK then w.open_block term else w

/-- What an entry adds, once there is a block for it. -/
theorem push_entry_eq (w : Writer) (term : Bytes) (docs : List ℕ) :
    ∃ sizes, sizes.terms = (w.ready term).sizes.terms + 1
      ∧ (w.push_entry P term docs).1 = { w.ready term with
        blocks := (w.ready term).blocks
          ++ (term_bytes term
            (if 0 < (w.ready term).in_block then some (w.ready term).previous else none)
          ++ docs_bytes P (w.ready term).first docs)
        postings := (w.ready term).postings ++ list_bytes P (w.ready term).first docs
        previous := term
        last_term := term
        pushed := (w.ready term).pushed + 1
        in_block := (w.ready term).in_block + 1
        sizes := sizes } := by
  obtain ⟨_, hs₁, h₁⟩ := put_term_eq (w.ready term) term
  obtain ⟨s₂, hs₂, h₂⟩ := put_docs_eq (P := P) ((w.ready term).put_term term)
    (w.ready term).blocks.length docs
  have hentry : (w.push_entry P term docs).1 = { (((w.ready term).put_term term).put_docs P
      (w.ready term).blocks.length docs).remember term with
        previous := term
        in_block := (((w.ready term).put_term term).put_docs P
          (w.ready term).blocks.length docs).in_block + 1
        sizes := (w.push_entry P term docs).1.sizes } := rfl
  refine ⟨(w.push_entry P term docs).1.sizes, ?_, ?_⟩
  · show (((w.ready term).put_term term).put_docs P (w.ready term).blocks.length docs).sizes.terms
      + 1 = _
    rw [h₂]
    show s₂.terms + 1 = _
    rw [hs₂, h₁]
    exact congrArg (· + 1) hs₁
  · rw [hentry]
    generalize (w.push_entry P term docs).1.sizes = sizes
    rw [h₂, h₁, remember, ← append_assoc]

variable {w : Writer} {gs : List Group} {d : Draft}

theorem Laid.terms_eq_zero (h : w.Laid P gs) : w.sizes.terms = 0 ↔ gs = [] := by
  rw [h.terms, length_eq_zero_iff, flatten_eq_nil_iff]
  refine ⟨fun hnil => ?_, fun hnil => by simp [hnil]⟩
  cases gs with
  | nil => rfl
  | cons g gs => exact absurd (hnil g (.head _)) (h.ne_nil g (.head _))

/-- An entry in a block of its own. -/
theorem Laid.push_new (h : w.Laid P gs)
    (hnew : w.sizes.terms = 0 ∨ w.in_block = BLOCK) (term : Bytes) (docs : List ℕ) :
    (w.push_entry P term docs).1.Laid P (gs ++ [[(term, docs)]]) := by
  obtain ⟨sizes, hsizes, heq⟩ := push_entry_eq (P := P) w term docs
  have hready : w.ready term = w.open_block term := if_pos hnew
  rw [heq, hready]
  rw [hready] at hsizes
  have hfirst : (w.open_block term).first = w.first := rfl
  have hreach : (w.blocks.length - w.block_start, w.postings.length - w.postings_base)
      = (if gs = [] then (0, 0) else reach P w.first gs) := by
    rcases eq_nil_or_concat gs with rfl | ⟨init, g, rfl⟩
    · rw [h.blocks, h.postings]
      simp
    · rw [concat_eq_append] at h ⊢
      rw [h.block_start, h.postings_base, h.blocks, h.postings, dropLast_concat]
      simp [reach]
  have hfull : ∀ g ∈ gs, g.length = BLOCK := by
    rcases eq_nil_or_concat gs with rfl | ⟨init, g, rfl⟩
    · intro g hg
      cases hg
    · rw [concat_eq_append] at h ⊢
      intro x hx
      rcases mem_append.mp hx with hx | hx
      · exact h.full x (by rwa [dropLast_concat])
      · have hlast := h.in_block g (by simp)
        have hzero : w.sizes.terms ≠ 0 := fun hz => by simpa using h.terms_eq_zero.mp hz
        rw [mem_singleton.mp hx, hlast.1]
        exact hnew.resolve_left hzero
  constructor
  · show sizes.terms = _
    rw [hsizes, flatten_concat, length_append]
    exact congrArg (· + 1) h.terms
  · show w.blocks ++ (term_bytes term none ++ docs_bytes P w.first docs) = _
    rw [h.blocks, flatMap_append]
    simp [block_bytes, entries_bytes, hfirst]
  · show w.postings ++ list_bytes P w.first docs = _
    rw [h.postings, flatMap_append]
    simp [block_postings, hfirst]
  · show w.index ++ (put term.length ++ (term ++ (put (w.blocks.length - w.block_start)
      ++ put (w.postings.length - w.postings_base)))) = index_bytes P w.first (0, 0) _
    rw [index_bytes_append, ← hreach, ← h.index]
    simp [index_bytes, index_entry, first_of]
  · intro g hg
    rcases mem_append.mp hg with hg | hg
    · exact h.ne_nil g hg
    · rw [mem_singleton.mp hg]
      exact nofun
  · rw [dropLast_concat]
    exact hfull
  · intro g hg
    rw [getLast?_concat, Option.mem_def, Option.some.injEq] at hg
    subst hg
    exact ⟨rfl, (by decide : 1 ≤ BLOCK), rfl⟩
  · rw [dropLast_concat]
    exact congrArg List.length h.blocks
  · rw [dropLast_concat]
    exact congrArg List.length h.postings

/-- An entry in a block that has others. -/
theorem Laid.push_more {init : List Group} {g : Group} (h : w.Laid P (init ++ [g]))
    (hmore : w.in_block ≠ BLOCK) (term : Bytes) (docs : List ℕ) :
    (w.push_entry P term docs).1.Laid P (init ++ [g ++ [(term, docs)]]) := by
  obtain ⟨sizes, hsizes, heq⟩ := push_entry_eq (P := P) w term docs
  have hzero : w.sizes.terms ≠ 0 := fun hz => by simpa using h.terms_eq_zero.mp hz
  have hready : w.ready term = w := if_neg (by tauto)
  rw [heq, hready]
  rw [hready] at hsizes
  obtain ⟨hlen, _, hprev⟩ := h.in_block g (by simp)
  have hg : g ≠ [] := h.ne_nil g (by simp)
  have hpos : 0 < w.in_block := hlen ▸ length_pos_iff.mpr hg
  have hindex := h.index
  have hstart := h.block_start
  have hbase := h.postings_base
  rw [dropLast_concat] at hstart hbase
  constructor
  · show sizes.terms = _
    rw [hsizes, h.terms]
    simp
    omega
  · show w.blocks ++ (term_bytes term (if 0 < w.in_block then some w.previous else none)
      ++ docs_bytes P w.first docs) = (init ++ [g ++ [(term, docs)]]).flatMap (block_bytes P w.first)
    rw [if_pos hpos, h.blocks]
    simp [block_bytes, entries_bytes_append, hprev, entries_bytes]
  · show w.postings ++ list_bytes P w.first docs
      = (init ++ [g ++ [(term, docs)]]).flatMap (block_postings P w.first)
    rw [h.postings]
    simp [block_postings]
  · show w.index = index_bytes P w.first (0, 0) (init ++ [g ++ [(term, docs)]])
    rw [index_bytes_append, index_bytes_extend _ hg, ← index_bytes_append, hindex]
  · intro x hx
    rcases mem_append.mp hx with hx | hx
    · exact h.ne_nil x (mem_append_left _ hx)
    · rw [mem_singleton.mp hx]
      simp
  · rw [dropLast_concat]
    have hfull := h.full
    rwa [dropLast_concat] at hfull
  · intro x hx
    rw [getLast?_concat, Option.mem_def, Option.some.injEq] at hx
    subst hx
    refine ⟨?_, ?_, by simp⟩
    · rw [length_append, hlen]
      rfl
    · show w.in_block + 1 ≤ BLOCK
      omega
  · rw [dropLast_concat]
    exact hstart
  · rw [dropLast_concat]
    exact hbase

/-- **Every entry is laid out after those before it.** -/
theorem Laid.push (h : w.Laid P gs) (term : Bytes) (docs : List ℕ) :
    ∃ gs', gs'.flatten = gs.flatten ++ [(term, docs)] ∧ (w.push_entry P term docs).1.Laid P gs' := by
  by_cases hnew : w.sizes.terms = 0 ∨ w.in_block = BLOCK
  · exact ⟨_, by simp, h.push_new hnew term docs⟩
  · rw [not_or, h.terms_eq_zero] at hnew
    rcases eq_nil_or_concat gs with rfl | ⟨_, g, rfl⟩
    · exact absurd rfl hnew.1
    · rw [concat_eq_append] at h ⊢
      exact ⟨_, by simp, h.push_more hnew.2 term docs⟩

/-- **A writer beside the draft of the same segment.** -/
structure Refines (P : Intpack) (w : Writer) (d : Draft) : Prop where
  first : w.first = d.first
  last : w.last = d.last
  pushed : w.pushed = d.pushed
  last_term : w.last_term = d.last_term
  singles : w.singles = d.singles
  laid : ∃ gs, gs.flatten = d.terms ∧ w.Laid P gs

theorem Refines.push_entry (h : w.Refines P d) (term : Bytes) (docs : List ℕ) :
    (w.push_entry P term docs).1.Refines P
      ({ d with terms := d.terms ++ [(term, docs)] }.remember term) := by
  obtain ⟨_, hgs, hlaid⟩ := h.laid
  obtain ⟨gs', hgs', hlaid'⟩ := hlaid.push term docs
  obtain ⟨_, -, heq⟩ := push_entry_eq (P := P) w term docs
  have hready : (w.ready term).first = w.first ∧ (w.ready term).last = w.last
      ∧ (w.ready term).pushed = w.pushed ∧ (w.ready term).singles = w.singles := by
    unfold ready
    split <;> exact ⟨rfl, rfl, rfl, rfl⟩
  obtain ⟨hf, hl, hp, hs⟩ := hready
  refine ⟨?_, ?_, ?_, ?_, ?_, gs', hgs'.trans (congrArg (· ++ [(term, docs)]) hgs), hlaid'⟩
  · rw [heq]
    exact hf.trans h.first
  · rw [heq]
    exact hl.trans h.last
  · rw [heq]
    exact congrArg (· + 1) (hp.trans h.pushed)
  · rw [heq]
    rfl
  · rw [heq]
    exact hs.trans h.singles

/-- **The writer takes the terms a draft takes, and turns into what the draft
turns into.** -/
theorem Refines.push {fingerprint : Bytes → ℕ} {d' : Draft} (h : w.Refines P d)
    {term : Bytes} {docs : List ℕ} (hpush : d.push fingerprint term docs = .ok d') :
    ∃ w' n, w.push P fingerprint term docs = .ok (w', n) ∧ w'.Refines P d'
      ∧ w'.codec = w.codec ∧ w'.tokenizer = w.tokenizer := by
  have hconst : (w.push_entry P term docs).1.codec = w.codec
      ∧ (w.push_entry P term docs).1.tokenizer = w.tokenizer := by
    obtain ⟨_, -, heq⟩ := push_entry_eq (P := P) w term docs
    rw [heq]
    show (w.ready term).codec = _ ∧ (w.ready term).tokenizer = _
    unfold ready
    split <;> exact ⟨rfl, rfl⟩
  have hentry := h.push_entry term docs
  unfold Draft.push at hpush
  unfold Writer.push
  rw [h.first, h.last, h.pushed, h.last_term, h.singles]
  cases hcheck : check_term d.first d.last d.pushed d.last_term term docs with
  | error e =>
    rw [hcheck] at hpush
    cases hpush
  | ok u =>
    rw [hcheck] at hpush
    simp only [bind, Except.bind] at hpush ⊢
    cases hs : d.singles with
    | none =>
      rw [hs] at hpush
      cases hpush
      exact ⟨(w.push_entry P term docs).1, _, rfl, hs ▸ hentry, hconst⟩
    | some s =>
      rw [hs] at hpush
      simp only at hpush ⊢
      split at hpush
      · cases hpush
      · rename_i hopen
        rw [if_neg hopen]
        rcases docs with - | ⟨doc, - | ⟨other, docs⟩⟩
        · cases hpush
          exact ⟨(w.push_entry P term []).1, _, rfl, hs ▸ hentry, hconst⟩
        · cases hpush
          refine ⟨_, _, rfl, ⟨rfl, rfl, rfl, rfl, rfl, ?_⟩, rfl, rfl⟩
          obtain ⟨gs, hgs, hlaid⟩ := h.laid
          rw [← h.first]
          exact ⟨gs, hgs, hlaid.terms, hlaid.blocks, hlaid.postings, hlaid.index, hlaid.ne_nil,
            hlaid.full, hlaid.in_block, hlaid.block_start, hlaid.postings_base⟩
        · cases hpush
          exact ⟨(w.push_entry P term (doc :: other :: docs)).1, _, rfl, hs ▸ hentry, hconst⟩

theorem build_refines {first last : ℕ} (version : ℕ) {codec : Codec}
    (h : Draft.build first last codec = .ok d) :
    ∃ w, build first last version codec = .ok w ∧ w.Refines P d ∧ w.codec = codec
      ∧ w.tokenizer = version := by
  unfold Draft.build at h
  unfold build
  split at h
  · cases h
  · rename_i hle
    rw [if_neg hle]
    cases h
    refine ⟨_, rfl, ⟨rfl, rfl, rfl, rfl, rfl, [], rfl, ?_⟩, rfl, rfl⟩
    constructor <;> first | rfl | simp

/-- Pushes terms one after the other. -/
def push_all (P : Intpack) (fingerprint : Bytes → ℕ) (w : Writer) (ps : List (Bytes × List ℕ)) :
    Except WriteError Writer :=
  ps.foldlM (fun w p => Prod.fst <$> w.push P fingerprint p.1 p.2) w

/-- **What a draft holds after any sequence of pushes, the writer has laid
out.** -/
theorem Refines.push_all {fingerprint : Bytes → ℕ} {d' : Draft} (h : w.Refines P d)
    {ps : List (Bytes × List ℕ)}
    (hpush : ps.foldlM (fun d p => d.push fingerprint p.1 p.2) d = .ok d') :
    ∃ w', w.push_all P fingerprint ps = .ok w' ∧ w'.Refines P d' ∧ w'.codec = w.codec
      ∧ w'.tokenizer = w.tokenizer := by
  induction ps generalizing w d with
  | nil =>
    cases hpush
    exact ⟨w, rfl, h, rfl, rfl⟩
  | cons p ps ih =>
    rw [foldlM_cons] at hpush
    cases hd : d.push fingerprint p.1 p.2 with
    | error e =>
      rw [hd] at hpush
      cases hpush
    | ok _ =>
      rw [hd] at hpush
      obtain ⟨_, n, hw₁, href, hc₁, ht₁⟩ := h.push hd
      obtain ⟨w₂, hw₂, href₂, hc₂, ht₂⟩ := ih href hpush
      refine ⟨w₂, ?_, href₂, hc₂.trans hc₁, ht₂.trans ht₁⟩
      rw [Writer.push_all, foldlM_cons, hw₁]
      exact hw₂

end Writer

end Ferret
