import Ferret.Index.Postings
import Ferret.Segment.Format

/-!
# Reading a segment file

A segment is opened by checking its head, its section table, its index and
its sums; from the index only the place of every `SAMPLE`th block is kept, and
the others are found again by walking on from one of those. A lookup finds the
last block that begins at or before its term, reads that block and decodes it
up to the term. A stream decodes one block after the other, through a window
of chunks it has checked.

Every sum the source takes with `checked_add` is taken here with
`checked_add`, so that a file whose numbers overflow 64 bits is refused in
the same place.
-/

namespace Ferret

/-- Why a segment could not be read. -/
inductive ReadError
  /-- The source ended early. -/
  | io
  | notASegment
  | head
  | version (v : ℕ)
  | codec (dictionary postings : ℕ)
  | layout
  | corrupt (s : Section)
deriving DecidableEq

/-- A sum in 64 bits. -/
def checked_add (a b : ℕ) : Option ℕ := if a + b < 2 ^ 64 then some (a + b) else none

/-- The value, or an error without one. -/
def orElse {α : Type} (e : ReadError) : Option α → Except ReadError α
  | some a => .ok a
  | none => .error e

/-- Fills a buffer of `n` bytes from an offset, or fails. -/
def read_exact_at (source : Bytes) (n offset : ℕ) : Except ReadError Bytes :=
  if offset + n ≤ source.length then .ok (slice source offset n) else .error .io

/-- The head's fields. -/
structure Info where
  tokenizer_version : ℕ
  first : ℕ
  last : ℕ
  terms : ℕ
  pairs : ℕ

/-- A segment head whose fields and digest have been checked. -/
structure Head where
  bytes : Bytes
  dictionary : ℕ
  sections : List Section
  info : Info

/-- Each section's offset, length and checksum. -/
abbrev Table := Section → ℕ × ℕ × Bytes

namespace Head

/-- Reads the head of a segment and checks its magic, version, codecs, digest
and fixed fields. -/
def read (C : Checksum) (source : Bytes) : Except ReadError Head := do
  let head ← read_exact_at source (min source.length HEAD_MAX) 0
  if head.length < 12 ∨ head.take 8 ≠ MAGIC then .error .notASegment
  else if u32_at head 8 ≠ FORMAT_VERSION then .error (.version (u32_at head 8))
  else if head.length < HEAD then .error .layout
  else
    let dictionary := u32_at head 16
    let postings := u32_at head 20
    match (Ferret.sections dictionary).filter fun _ => postings = POSTINGS_CODEC with
    | none => .error (.codec dictionary postings)
    | some sections =>
      let len := head_len sections.length
      if head.length < len then .error .layout
      else
        let head := head.take len
        if C.checksum (head.take (len - 16)) ≠ head.drop (len - 16) then .error .head
        else
          let info : Info := {
            tokenizer_version := u32_at head 12
            first := u32_at head 24
            last := u32_at head 28
            terms := u64_at head 32
            pairs := u64_at head 40 }
          if info.last < info.first ∨ u32_at head 48 ≠ CHUNK
              ∨ u32_at head 52 ≠ sections.length ∨ slice head 56 8 ≠ List.replicate 8 0 then
            .error .head
          else .ok { bytes := head, dictionary := dictionary, sections := sections, info := info }

/-- The loop over the section table, from entry `i` on. -/
def tableFrom (head : Bytes) (size : ℕ) :
    List Section → ℕ → ℕ → Table → Except ReadError (Table × ℕ)
  | [], _, expect, table => .ok (table, expect)
  | s :: rest, i, expect, table => do
    let place := FIELDS + i * TABLE_ENTRY
    let offset := u64_at head place
    let len := u64_at head (place + 8)
    let stop ← orElse .layout (checked_add offset len)
    if offset ≠ expect ∨ size < stop then .error .layout
    else
      tableFrom head size rest (i + 1) stop
        (Function.update table s (offset, len, slice head (place + 16) 16))

/-- The section table, checked to tile the file after the head. -/
def table (head : Head) (size : ℕ) : Except ReadError Table := do
  let (table, expect) ←
    tableFrom head.bytes size head.sections 0 head.bytes.length fun _ => (0, 0, [])
  if expect ≠ size then .error .layout else .ok table

/-- The head's own digest. -/
def digest (head : Head) : Bytes := head.bytes.drop (head.bytes.length - 16)

end Head

/-- A section read whole and checked against its sum in the table. -/
def read_whole (C : Checksum) (source : Bytes) (table : Table) (s : Section) :
    Except ReadError Bytes := do
  let (offset, len, sum) := table s
  let bytes ← read_exact_at source len offset
  if C.checksum bytes ≠ sum then .error (.corrupt s) else .ok bytes

/-! ## The block index -/

/-- One block's place: its index entry with all that follows it, and where it
and its postings start. -/
structure Place where
  entry : Bytes
  start : ℕ
  postings : ℕ

/-- One index entry's first term, and what follows it. -/
def index_term (bytes : Bytes) : Option (Bytes × Bytes) := do
  let (len, rest) ← take bytes
  if len ≤ rest.length then some (rest.take len, rest.drop len) else none

/-- The place of the block after this one; `none` when the entries do not
decode. -/
def next_place (place : Place) : Option Place := do
  let (_, rest) ← index_term place.entry
  let (_, rest) ← take rest
  let (_, next) ← take rest
  let (_, rest) ← index_term next
  let (step, rest) ← take rest
  let (postings_step, _) ← take rest
  let start ← checked_add place.start step
  let postings ← checked_add place.postings postings_step
  some { entry := next, start := start, postings := postings }

/-- Whether `a` sorts strictly before `b`. -/
def before : Bytes → Bytes → Bool
  | x :: a, y :: b => if x ≠ y then decide (x < y) else before a b
  | a, b => decide (a.length < b.length)

/-- The loop of `parse_index`, for the blocks from `b` on. -/
def parse_from (blocks_len postings_len : ℕ) :
    ℕ → ℕ → Bytes → ℕ → ℕ → Bytes → Option (List Place × Bytes)
  | 0, _, bytes, _, _, _ => some ([], bytes)
  | count + 1, b, bytes, start, postings, previous => do
    let (term, rest) ← index_term bytes
    let (step, rest) ← take rest
    let (postings_step, rest) ← take rest
    if b = 0 ∧ (step, postings_step) ≠ (0, 0)
        ∨ 0 < b ∧ (step = 0 ∨ before previous term = false) then none
    else do
      let start ← checked_add start step
      let postings ← checked_add postings postings_step
      if blocks_len ≤ start ∨ postings_len < postings then none
      else do
        let (samples, rest) ←
          parse_from blocks_len postings_len count (b + 1) rest start postings term
        let place : Place := { entry := bytes, start := start, postings := postings }
        some (if b % SAMPLE = 0 then place :: samples else samples, rest)

/-- How many blocks so many terms make. -/
def block_count (terms : ℕ) : ℕ := (terms + (BLOCK - 1)) / BLOCK

/-- Parses the block index, and keeps every `SAMPLE`th block's place. -/
def parse_index (bytes : Bytes) (terms blocks_len postings_len : ℕ) : Option (List Place) := do
  let count := block_count terms
  if bytes.length < count then none
  else do
    let (samples, rest) ← parse_from blocks_len postings_len count 0 bytes 0 0 []
    if rest = [] ∧ (0 < count ∨ blocks_len = 0 ∧ postings_len = 0) then some samples else none

/-- The parsed fingerprint index: each block's first fingerprint and
start. -/
structure FingerprintIndex where
  records : ℕ
  firsts : List ℕ
  starts : List ℕ

namespace FingerprintIndex

def none : FingerprintIndex where
  records := 0
  firsts := []
  starts := []

/-- The loop of `parse`, for the blocks from `b` on. -/
def parse_from (len : ℕ) : ℕ → ℕ → Bytes → ℕ → Option ℕ → Option (List (ℕ × ℕ) × Bytes)
  | 0, _, bytes, _, _ => some ([], bytes)
  | count + 1, b, bytes, start, last => do
    if bytes.length < 8 then Option.none
    else
      let fp := u32_at bytes 0
      let next_start := u32_at bytes 4
      if next_start < start then Option.none
      else
        let step := next_start - start
        if b = 0 ∧ step ≠ 0 ∨ 0 < b ∧ step < 8 then Option.none
        else if last.any (fp < ·) then Option.none
        else if len ≤ next_start then Option.none
        else do
          let (rest, bytes) ← parse_from len count (b + 1) (bytes.drop 8) next_start (some fp)
          some ((fp, next_start) :: rest, bytes)

/-- Parses the section; `none` when it is inconsistent with itself or a
records section of `len` bytes. -/
def parse (bytes : Bytes) (len : ℕ) : Option FingerprintIndex := do
  let (records, rest) ← take bytes
  let blocks := (records + (RECORD_BLOCK - 1)) / RECORD_BLOCK
  if rest.length / 8 < blocks then Option.none
  else do
    let (entries, rest) ← parse_from len blocks 0 rest 0 Option.none
    if rest = [] ∧ (0 < blocks ∨ len = 0) then
      some { records := records, firsts := entries.map Prod.fst, starts := entries.map Prod.snd }
    else Option.none

end FingerprintIndex

/-! ## Segments -/

/-- Where a term's documents are. -/
inductive Location
  | single (doc : ℕ)
  | list (offset len : ℕ)
deriving DecidableEq

/-- One dictionary entry. -/
structure TermEntry where
  df : ℕ
  location : Location
deriving DecidableEq

/-- One open segment. -/
structure Segment where
  source : Bytes
  info : Info
  digest : Bytes
  /-- Offset and length of the chunked sections in the file. -/
  blocks_at : ℕ × ℕ
  postings_at : ℕ × ℕ
  lengths : Section → ℕ
  codec : ℕ
  fingerprints_at : ℕ × ℕ
  fingerprints : FingerprintIndex
  sums : Bytes
  index_bytes : Bytes
  /-- The place of every `SAMPLE`th block, from block 0. -/
  samples : List Place
  /-- Dictionary blocks. -/
  blocks : ℕ

/-- The fingerprint index, which only the fingerprint codec has. -/
def read_fingerprints (C : Checksum) (source : Bytes) (table : Table) (dictionary : ℕ) :
    Except ReadError FingerprintIndex :=
  if dictionary = DICTIONARY_CODEC then .ok FingerprintIndex.none
  else do
    let bytes ← read_whole C source table .fingerprintIndex
    orElse (.corrupt .fingerprintIndex)
      (FingerprintIndex.parse bytes (table .fingerprints).2.1)

/-- Reads and checks the head, the block index and the chunk sums. -/
def Segment.open (C : Checksum) (source : Bytes) : Except ReadError Segment := do
  let head ← Head.read C source
  let table ← head.table source.length
  let index ← read_whole C source table .index
  let sums ← read_whole C source table .sums
  let blocks_len := (table .blocks).2.1
  let postings_len := (table .postings).2.1
  let fingerprint_len := (table .fingerprints).2.1
  if sums.length ≠ (chunks blocks_len + chunks postings_len + chunks fingerprint_len) * 16 then
    .error (.corrupt .sums)
  else do
    let fingerprints ← read_fingerprints C source table head.dictionary
    let samples ← orElse (.corrupt .index)
      (parse_index index head.info.terms blocks_len postings_len)
    .ok {
      source := source
      info := head.info
      digest := head.digest
      blocks_at := ((table .blocks).1, blocks_len)
      postings_at := ((table .postings).1, postings_len)
      lengths := fun s => (table s).2.1
      codec := head.dictionary
      fingerprints_at := ((table .fingerprints).1, fingerprint_len)
      fingerprints := fingerprints
      sums := sums
      index_bytes := index
      samples := samples
      blocks := block_count head.info.terms }

/-- Bytes a window reads ahead of the read that misses it. -/
def AHEAD : ℕ := 16 * CHUNK

/-- Checked chunks of one section, held for a stream reading it front to
back. -/
structure Window where
  base : ℕ
  bytes : Bytes

def Window.empty : Window where
  base := 0
  bytes := []

/-- Entries of one dictionary block, decoded in order. -/
structure Entries where
  /-- What is left of the block. -/
  bytes : Bytes
  /-- The current term; the block's first before the first entry. -/
  term : Bytes
  remaining : ℕ
  seen : ℕ
  /-- Offset of the next list in the postings section. -/
  postings : ℕ
  postings_end : ℕ
  first : ℕ
  span : ℕ

namespace Entries

/-- Reads the term of an entry, which sorts strictly after the one before it:
its suffix is not empty and extends that term, or begins with a byte that
sorts after the one it replaces. -/
def next_bytes (e : Entries) : Option (Bytes × Bytes) :=
  if 0 < e.seen then do
    let (shared, rest) ← take e.bytes
    let (suffix, rest) ← take rest
    if rest.length < suffix then none
    else
      let tail := rest.take suffix
      let increasing := tail.head?.any fun byte =>
        shared = e.term.length || (e.term[shared]?).any (· < byte)
      if increasing then some (e.term.take shared ++ tail, rest.drop suffix) else none
  else some (e.term, e.bytes)

/-- Reads where an entry's `df` documents are, and where the next list
begins. -/
def next_location (P : Intpack) (e : Entries) (df : ℕ) (bytes : Bytes) :
    Option (Location × ℕ × Bytes) :=
  if df = 1 then do
    let (doc, rest) ← take bytes
    if e.span < doc then none else some (.single (e.first + doc), e.postings, rest)
  else do
    let (len, rest) ← take bytes
    let stop ← checked_add e.postings len
    if len < P.aux_len df ∨ len = 0 ∨ e.postings_end < stop then none
    else some (.list e.postings len, stop, rest)

/-- Decodes one entry, leaving its term in `term`. -/
def entry (P : Intpack) (e : Entries) : Option (TermEntry × Entries) := do
  let (term, rest) ← e.next_bytes
  let (df, rest) ← take rest
  if df = 0 ∨ e.span + 1 < df then none
  else do
    let (location, postings, rest) ← e.next_location P df rest
    let remaining := e.remaining - 1
    if remaining = 0 ∧ (postings ≠ e.postings_end ∨ rest ≠ []) then none
    else some ({ df := df, location := location }, { e with
      bytes := rest
      term := term
      remaining := remaining
      seen := e.seen + 1
      postings := postings })

/-- The next entry with its term, or `none` after the last. -/
def next_entry (P : Intpack) (e : Entries) :
    Except ReadError (Option (Bytes × TermEntry) × Entries) :=
  if e.remaining = 0 then .ok (none, e)
  else
    match e.entry P with
    | none => .error (.corrupt .blocks)
    | some (found, e') => .ok (some (e'.term, found), e')

/-- The loop of `Segment.entry`: decodes up to a term. Each round uses up an
entry, so `remaining` bounds it. -/
def find (P : Intpack) (term : Bytes) : ℕ → Entries → Except ReadError (Option TermEntry)
  | 0, _ => .ok none
  | fuel + 1, e => do
    match ← e.next_entry P with
    | (none, _) => .ok none
    | (some (candidate, found), e') =>
      if candidate < term then find P term fuel e'
      else if candidate = term then .ok (some found)
      else .ok none

end Entries

namespace Segment

variable (s : Segment)

/-- A chunked section's offset and length in the file, and its sums. -/
def extent (part : Section) : Except ReadError ((ℕ × ℕ) × Bytes) :=
  let blocks_sums := chunks s.blocks_at.2 * 16
  let postings_sums := chunks s.postings_at.2 * 16
  match part with
  | .blocks => .ok (s.blocks_at, s.sums.take blocks_sums)
  | .postings => .ok (s.postings_at, slice s.sums blocks_sums postings_sums)
  | .fingerprints => .ok (s.fingerprints_at, s.sums.drop (blocks_sums + postings_sums))
  | part => .error (.corrupt part)

/-- Whether every chunk read has its sum, from chunk `low` on. -/
def verified (C : Checksum) (sums : Bytes) (low : ℕ) (bytes : Bytes) : Bool :=
  (pieces bytes).zipIdx.all fun (piece, i) =>
    decide (C.checksum piece = slice sums ((low + i) * 16) 16)

/-- Reads `[start, stop)` of a chunked section, verifying every chunk it
touches. Returns the chunks and where `start` is in them. -/
def read_checked (C : Checksum) (part : Section) (start stop : ℕ) :
    Except ReadError (Bytes × ℕ) := do
  let ((offset, len), sums) ← s.extent part
  if stop < start ∨ len < stop then .error (.corrupt part)
  else do
    let low := start / CHUNK
    let base := low * CHUNK
    let upto := min (chunks stop * CHUNK) len
    let bytes ← read_exact_at s.source (max upto base - base) (offset + base)
    if verified C sums low bytes then .ok (bytes, start - base) else .error (.corrupt part)

/-- `[start, stop)` of a chunked section, from the window when it holds them,
else checked into it with up to `AHEAD` bytes more. -/
def read_through (C : Checksum) (part : Section) (start stop : ℕ) (window : Window) :
    Except ReadError (Bytes × Window) := do
  if stop < start then .error (.corrupt part)
  else do
    let window ←
      if start < window.base ∨ window.base + window.bytes.length < stop then do
        let ((_, len), _) ← s.extent part
        let ahead := max stop (min (min (start + AHEAD) (2 ^ 64 - 1)) len)
        let (bytes, back) ← s.read_checked C part start ahead
        .ok { base := start - back, bytes := bytes : Window }
      else .ok window
    .ok (slice window.bytes (start - window.base) (stop - start), window)

/-- A block's first term, in the resident index bytes. -/
def first_term (place : Place) : Bytes := ((index_term place.entry).map Prod.fst).getD []

/-- The loop of `locate`: walks on while the next block still begins at or
before the term. -/
def walk (term : Bytes) (stop : ℕ) : ℕ → ℕ → Place → ℕ × Place
  | 0, block, place => (block, place)
  | fuel + 1, block, place =>
    if block + 1 < stop then
      match next_place place with
      | none => (block, place)
      | some next =>
        if term < first_term next then (block, place) else walk term stop fuel (block + 1) next
    else (block, place)

/-- The last block whose first term is `<= term`, with its place, or `none`
when `term` sorts before every block. -/
def locate (term : Bytes) : Option (ℕ × Place) :=
  let found := (s.samples.takeWhile fun p => decide (first_term p ≤ term)).length
  if found = 0 then none
  else
    (s.samples[found - 1]?).map fun place =>
      let block := (found - 1) * SAMPLE
      walk term (min (block + SAMPLE) s.blocks) SAMPLE block place

/-- The place of the block after block `b`, `none` after the last. -/
def next_block (b : ℕ) (here : Place) : Except ReadError (Option Place) :=
  if b + 1 < s.blocks then some <$> orElse (.corrupt .index) (next_place here) else .ok none

/-- The bytes of a block, read through the window of a stream if there is
one. -/
def read_block (C : Checksum) (start stop : ℕ) :
    Option Window → Except ReadError (Bytes × Option Window)
  | some window => do
    let (bytes, window) ← s.read_through C .blocks start stop window
    .ok (bytes, some window)
  | none => do
    let (bytes, back) ← s.read_checked C .blocks start stop
    .ok (slice bytes back (stop - start), none)

/-- Decodes block `b`, at `here`, lazily; also the next block's place, `none`
after the last. -/
def block (C : Checksum) (b : ℕ) (here : Place) (window : Option Window) :
    Except ReadError (Entries × Option Place × Option Window) := do
  let next ← s.next_block b here
  let stop := (next.map Place.start).getD s.blocks_at.2
  let postings_end := (next.map Place.postings).getD s.postings_at.2
  let (bytes, window) ← s.read_block C here.start stop window
  .ok ({
    bytes := bytes
    term := first_term here
    remaining := if next.isSome then BLOCK else s.info.terms - b * BLOCK
    seen := 0
    postings := here.postings
    postings_end := postings_end
    first := s.info.first
    span := s.info.last - s.info.first }, next, window)

/-- `term`'s dictionary entry, or `none` when the segment does not hold
it. -/
def entry (P : Intpack) (C : Checksum) (term : Bytes) : Except ReadError (Option TermEntry) :=
  match s.locate term with
  | none => .ok none
  | some (b, place) => do
    let (entries, _, _) ← s.block C b place none
    entries.find P term (entries.remaining + 1)

/-- The documents an entry points at. -/
def read (C : Checksum) (found : TermEntry) : Except ReadError Hit :=
  match found.location with
  | .single doc => .ok (.single doc)
  | .list offset len => do
    let (bytes, start) ← s.read_checked C .postings offset (offset + len)
    .ok (.postings { first := s.info.first, df := found.df, bytes := bytes, start := start })

/-- `term`'s dictionary documents, or `none` on a dictionary miss. -/
def lookup (P : Intpack) (C : Checksum) (term : Bytes) : Except ReadError (Option Hit) := do
  match ← s.entry P C term with
  | none => .ok none
  | some found => some <$> s.read C found

end Segment

/-- Every term of a segment, in order. -/
structure Terms where
  /-- The postings this stream's lists are read through. -/
  window : Window
  /-- The dictionary blocks this stream reads through. -/
  blocks : Window
  /-- The next block to read and its place; `none` after the last. -/
  next : Option (ℕ × Place)
  entries : Option Entries

namespace Terms

/-- The loop of `next_term`. Each round but the last uses up a block. -/
def advance (P : Intpack) (C : Checksum) (s : Segment) :
    ℕ → Terms → Except ReadError (Option (Bytes × TermEntry) × Terms)
  | 0, t => .ok (none, t)
  | fuel + 1, t =>
    match t.entries.filter (0 < ·.remaining) with
    | none =>
      match t.next with
      | none => .ok (none, t)
      | some (b, place) => do
        let (entries, next, blocks) ← s.block C b place (some t.blocks)
        advance P C s fuel { t with
          blocks := blocks.getD t.blocks
          entries := some entries
          next := next.map fun place => (b + 1, place) }
    | some entries => do
      let (found, entries) ← entries.next_entry P
      .ok (found, { t with entries := some entries })

/-- The next term and its entry, or `none` after the last. -/
def next_term (P : Intpack) (C : Checksum) (s : Segment) (t : Terms) :
    Except ReadError (Option (Bytes × TermEntry) × Terms) :=
  t.advance P C s (s.blocks + 2)

/-- `Segment.read` for an entry of this stream, through its window. -/
def read (C : Checksum) (s : Segment) (t : Terms) (found : TermEntry) :
    Except ReadError (Hit × Terms) :=
  match found.location with
  | .single doc => .ok (.single doc, t)
  | .list offset len => do
    let (bytes, window) ← s.read_through C .postings offset (offset + len) t.window
    .ok (.postings { first := s.info.first, df := found.df, bytes := bytes, start := 0 },
      { t with window := window })

end Terms

namespace Segment

/-- A stream from a block on. -/
def stream (next : Option (ℕ × Place)) : Terms where
  window := Window.empty
  blocks := Window.empty
  next := next
  entries := none

/-- Every term in order, with its entry. -/
def terms (s : Segment) : Terms := stream (s.samples.head?.map fun place => (0, place))

/-- The terms in order from the block that could hold `start`. -/
def terms_from (s : Segment) (start : Bytes) : Terms :=
  stream ((s.locate start).or (s.samples.head?.map fun place => (0, place)))

end Segment

end Ferret
