import Ferret.Lib.Guarded
import Ferret.Lib.Sparse
import Ferret.Segment.Write

/-!
# A writer that spills

A merge's output can be as large as the whole index, so a spilling writer does
not keep it in memory. Between pushes it writes whole chunks of the blocks to
their place in the segment file and of the postings to a scratch file, with
their sums; the fingerprint records follow once the dictionary is closed, since
only then is their place known. Finishing copies the postings after the blocks,
and writes the small sections and the head last.

The writer's own buffers are then the tails of its sections. What has left
them is known from the counts in `Spill`, so a push lays out the same bytes, and
the index the same offsets, as if nothing had.
-/

namespace Ferret

/-- Buffered bytes past which whole chunks are written out. -/
def SPILL : ℕ := 2 ^ 20

/-- Bytes of one paced transfer. -/
def TRANSFER : ℕ := 64 * 2 ^ 10

/-- Why a spilling writer fails. -/
inductive Halt (ε : Type)
  | pace (e : ε)
  | recordLength

/-- A spilling writer's files and what has left memory so far; of the records
too, which the encoder and `Singles` count in the program. -/
structure Spill where
  /-- The segment file. -/
  out : Bytes
  /-- Scratch for the postings section. -/
  postings : Bytes
  blocks_written : ℕ
  postings_written : ℕ
  blocks_sums : Bytes
  postings_sums : Bytes
  /-- Bytes drained from the front of the encoder's. -/
  drained : ℕ
  sums : Bytes

def Spill.new : Spill where
  out := []
  postings := []
  blocks_written := 0
  postings_written := 0
  blocks_sums := []
  postings_sums := []
  drained := 0
  sums := []

/-! ## Paced writes -/

section

variable {σ ε : Type} (pace : ℕ → σ → Except ε σ)

/-- The host is told of `n` bytes, and may refuse. -/
def paced (n : ℕ) (s : σ) : Guarded (Halt ε) σ :=
  match pace n s with
  | .ok s => .ok s
  | .error e => .error (.error (.pace e))

/-- Bounds each transfer. -/
def write_paced (file bytes : Bytes) (offset : ℕ) (s : σ) : Guarded (Halt ε) (Bytes × σ) :=
  if _h : bytes = [] then .ok (file, s)
  else do
    let s ← paced pace (bytes.take TRANSFER).length s
    write_paced (Sparse.write 0 file offset (bytes.take TRANSFER)) (bytes.drop TRANSFER)
      (offset + TRANSFER) s
termination_by bytes.length
decreasing_by
  have := List.length_pos_iff.mpr _h
  rw [List.length_drop, TRANSFER]
  omega

/-- Copies the scratch file's bytes from one on into a file. -/
def copy_from (scratch : Bytes) (written : ℕ) (file : Bytes) (start at_ : ℕ) (s : σ) :
    Guarded (Halt ε) (Bytes × σ) :=
  if _h : start < written then do
    let n := min (written - start) SPILL
    let s ← paced pace n s
    -- `read_exact_at`
    Guarded.claim (start + n ≤ scratch.length)
    let (file, s) ← write_paced pace file (slice scratch start n) at_ s
    copy_from scratch written file (start + n) (at_ + n) s
  else .ok (file, s)
termination_by written - start
decreasing_by
  have : 0 < SPILL := by decide
  omega

end

/-! ## The writer -/

/-- Appends a record after so many drained bytes. -/
def Encoder.push_from (drained : ℕ) (e : Encoder) (record : Record) : Encoder :=
  if e.records.getLast?.any (record ≤ ·) then e
  else if e.records.length = 0 ∨ e.in_block = RECORD_BLOCK then
    { records := e.records ++ [record]
      bytes := e.bytes ++ toLe 4 (ofLex record).1 ++ toLe 4 (ofLex record).2
      index := e.index ++ toLe 4 (ofLex record).1 ++ toLe 4 (drained + e.len)
      in_block := 1 }
  else
    let previous := (e.records.getLast?.map fun r => (ofLex r).1).getD 0
    { e with
      records := e.records ++ [record]
      bytes := e.bytes ++ put ((ofLex record).1 - previous) ++ put (ofLex record).2
      in_block := e.in_block + 1 }

namespace Singles

def flush_from (drained : ℕ) (bound : Option Record) : List Record → Encoder → List Record × Encoder
  | [], e => ([], e)
  | record :: rest, e =>
    if bound.all (record < ·) then flush_from drained bound rest (e.push_from drained record)
    else (record :: rest, e)

def flush_below_from (drained : ℕ) (s : Singles) (bound : Option Record) : Singles :=
  let q := flush_from drained bound s.pending s.encoder
  { s with pending := q.1, encoder := q.2 }

end Singles

/-- **A spilling writer**: the tails of its sections, and what has left them. -/
structure Spilling where
  writer : Writer
  spill : Spill

namespace Spilling

/-- Bytes of the blocks and postings sections so far, spilled or not. -/
def lengths (S : Spilling) : ℕ × ℕ :=
  (S.spill.blocks_written + S.writer.blocks.length,
    S.spill.postings_written + S.writer.postings.length)

def build (first last version : ℕ) (codec : Codec) : Except WriteError Spilling := do
  let w ← Writer.build first last version codec
  .ok { writer := w, spill := Spill.new }

/-- Starts a block at `term`. -/
def open_block (S : Spilling) (term : Bytes) : Spilling :=
  let w := S.writer
  let (blocks, postings) := S.lengths
  { S with
    writer := { w with
      index := w.index ++ (put term.length ++ (term ++ (put (blocks - w.block_start)
        ++ put (postings - w.postings_base))))
      block_start := blocks
      postings_base := postings
      in_block := 0
      sizes := { w.sizes with term_bytes := w.sizes.term_bytes + term.length } } }

/-- Adds an entry to the dictionary. -/
def push_entry (P : Intpack) (S : Spilling) (term : Bytes) (docs : List ℕ) : Spilling × ℕ :=
  let S := if S.writer.sizes.terms = 0 ∨ S.writer.in_block = BLOCK then S.open_block term else S
  let entry := S.writer.blocks.length
  let w := ((S.writer.put_term term).put_docs P entry docs).remember term
  let w' := { w with
    previous := term
    in_block := w.in_block + 1
    sizes := { w.sizes with
      terms := w.sizes.terms + 1
      pairs := w.sizes.pairs + docs.length } }
  ({ S with writer := w' }, w.blocks.length - entry)

/-- Adds `term` with its documents, and tells the size of its entry. -/
def push (P : Intpack) (fingerprint : Bytes → ℕ) (S : Spilling) (term : Bytes) (docs : List ℕ) :
    Except WriteError (Spilling × ℕ) := do
  let w := S.writer
  check_term w.first w.last w.pushed w.last_term term docs
  match w.singles with
  | some singles =>
    if singles.sealed then .error .recordOrder
    else
      match docs with
      | [doc] =>
        let record := toLex (fingerprint term, doc - w.first)
        let w := { w with
          singles := some { singles with pending := singles.pending ++ [record] }
          sizes := { w.sizes with singletons := w.sizes.singletons + 1 } }.remember term
        .ok ({ S with writer := w }, 0)
      | docs => .ok (S.push_entry P term docs)
  | none => .ok (S.push_entry P term docs)

/-- Adds a record a merge carries from an input. -/
def push_record (S : Spilling) (fp doc : ℕ) : Except WriteError Spilling :=
  let w := S.writer
  match w.singles with
  | none => .error .recordOrder
  | some singles =>
    if ¬ (w.first ≤ doc ∧ doc ≤ w.last) then .error (.docRange doc)
    else
      let record : Record := toLex (fp, doc - w.first)
      if singles.carried.any (record ≤ ·) then .error .recordOrder
      else
        let s := singles.seal_pending.flush_below_from S.spill.drained (some record)
        let s := { s with
          encoder := s.encoder.push_from S.spill.drained record
          carried := some record }
        .ok { S with writer := { w with singles := some s } }

/-- Closes the dictionary and encodes every pending record. -/
def seal_records (S : Spilling) : Spilling :=
  let singles := S.writer.singles.map fun s =>
    s.seal_pending.flush_below_from S.spill.drained none
  { S with writer := { S.writer with singles := singles } }

/-! ### Spilling -/

/-- Whole chunks of so many bytes. -/
def whole (len : ℕ) : ℕ := len / CHUNK * CHUNK

section

variable {σ ε : Type} (C : Checksum) (pace : ℕ → σ → Except ε σ)

/-- Whole chunks of the records to their place in the segment file. -/
def spill_records (S : Spilling) (s : σ) : Guarded (Halt ε) (Spilling × σ) :=
  match S.writer.singles with
  | none => .ok (S, s)
  | some singles =>
    if singles.sealed ∧ SPILL ≤ singles.encoder.bytes.length then do
      let n := whole singles.encoder.bytes.length
      let bytes := singles.encoder.bytes.take n
      let at_ := S.writer.head_len + S.lengths.1 + S.lengths.2 + S.spill.drained
      let (out, s) ← write_paced pace S.spill.out bytes at_ s
      let encoder := { singles.encoder with bytes := singles.encoder.bytes.drop n }
      .ok ({
        writer := { S.writer with singles := some { singles with encoder := encoder } }
        spill := { S.spill with
          out := out
          drained := S.spill.drained + n
          sums := S.spill.sums ++ chunk_sums C bytes } }, s)
    else .ok (S, s)

/-- Whole chunks of the blocks to their place in the segment file. -/
def spill_blocks (S : Spilling) (s : σ) : Guarded (Halt ε) (Spilling × σ) :=
  if SPILL ≤ S.writer.blocks.length then do
    let n := whole S.writer.blocks.length
    let bytes := S.writer.blocks.take n
    let (out, s) ← write_paced pace S.spill.out bytes
      (S.writer.head_len + S.spill.blocks_written) s
    .ok ({
      writer := { S.writer with blocks := S.writer.blocks.drop n }
      spill := { S.spill with
        out := out
        blocks_written := S.spill.blocks_written + n
        blocks_sums := S.spill.blocks_sums ++ chunk_sums C bytes } }, s)
  else .ok (S, s)

/-- Whole chunks of the postings to the scratch file. -/
def spill_postings (S : Spilling) (s : σ) : Guarded (Halt ε) (Spilling × σ) :=
  if SPILL ≤ S.writer.postings.length then do
    let n := whole S.writer.postings.length
    let bytes := S.writer.postings.take n
    let (postings, s) ← write_paced pace S.spill.postings bytes S.spill.postings_written s
    .ok ({
      writer := { S.writer with postings := S.writer.postings.drop n }
      spill := { S.spill with
        postings := postings
        postings_written := S.spill.postings_written + n
        postings_sums := S.spill.postings_sums ++ chunk_sums C bytes } }, s)
  else .ok (S, s)

/-- Writes whole chunks out once the buffers pass a threshold. -/
def spill_out (S : Spilling) (s : σ) : Guarded (Halt ε) (Spilling × σ) := do
  let (S, s) ← S.spill_records C pace s
  let (S, s) ← S.spill_blocks C pace s
  S.spill_postings C pace s

/-- Sections one after the other, those the codec has; with their lengths. -/
def write_sections (have_ : List Section) : List (Section × Bytes) → Bytes → ℕ → (Section → ℕ) →
    σ → Guarded (Halt ε) (Bytes × (Section → ℕ) × σ)
  | [], out, _, lengths, s => .ok (out, lengths, s)
  | (section_, bytes) :: rest, out, at_, lengths, s =>
    if section_ ∈ have_ then do
      let (out, s) ← write_paced pace out bytes at_ s
      write_sections have_ rest out (at_ + bytes.length)
        (Function.update lengths section_ bytes.length) s
    else write_sections have_ rest out at_ lengths s

/-- Completes the segment file, and tells its sizes. -/
def finish_spilled (S : Spilling) (s : σ) : Guarded (Halt ε) (Bytes × Sizes) := do
  let S := S.seal_records
  Guarded.ensure (¬ S.writer.singles.any fun t =>
    decide (2 ^ 32 ≤ S.spill.drained + t.encoder.len)) .recordLength
  let (S, s) ← S.spill_out C pace s
  let w := S.writer
  let blocks_sums := S.spill.blocks_sums ++ chunk_sums C w.blocks
  let postings_sums := S.spill.postings_sums ++ chunk_sums C w.postings
  let (blocks_len, postings_len) := S.lengths
  let (out, s) ← write_paced pace S.spill.out w.blocks (w.head_len + S.spill.blocks_written) s
  let at_ := w.head_len + blocks_len
  let (out, s) ← copy_from pace S.spill.postings S.spill.postings_written out 0 at_ s
  let at_ := at_ + S.spill.postings_written
  let (out, s) ← write_paced pace out w.postings at_ s
  let at_ := at_ + w.postings.length
  let lengths : Section → ℕ := fun
    | .blocks => blocks_len
    | .postings => postings_len
    | _ => 0
  let sums := blocks_sums ++ postings_sums
  let (out, sums, lengths, at_, s) ← match w.singles with
    | none => (.ok (out, sums, lengths, at_, s) : Guarded (Halt ε) _)
    | some t => do
      let (out, s) ← write_paced pace out t.encoder.bytes (at_ + S.spill.drained) s
      let len := S.spill.drained + t.encoder.len
      .ok (out, sums ++ (S.spill.sums ++ chunk_sums C t.encoder.bytes),
        Function.update lengths .fingerprints len, at_ + len, s)
  let record_index := (w.singles.map fun t => put t.encoder.records.length ++ t.encoder.index).getD []
  let (out, lengths, _) ← write_sections pace w.sections
    [(.index, w.index), (.fingerprintIndex, record_index), (.sums, sums)] out at_ lengths s
  let digests : Section → Bytes := fun
    | .index => C.checksum w.index
    | .fingerprintIndex => C.checksum record_index
    | .sums => C.checksum sums
    | _ => List.replicate 16 0
  let digests := Writer.chunk_digests C lengths sums digests
  .ok (Sparse.write 0 out 0 (w.head C lengths digests), w.sizes_of lengths)

end

end Spilling

/-! ## Sequences of calls -/

/-- A call of a writer. -/
inductive WriterCall
  | push (term : Bytes) (docs : List ℕ)
  | push_record (fp doc : ℕ)
  | spill

section

variable {σ ε : Type} (P : Intpack) (C : Checksum) (fingerprint : Bytes → ℕ)
  (pace : ℕ → σ → Except ε σ)

/-- What the calls of an in-memory writer return, and the writer after them. A
call that is refused adds nothing, and a spill does nothing. -/
def Writer.calls : List WriterCall → Writer → List (Except WriteError ℕ) × Writer
  | [], w => ([], w)
  | .push term docs :: rest, w =>
    match w.push P fingerprint term docs with
    | .ok (w', n) => let q := calls rest w'; (.ok n :: q.1, q.2)
    | .error e => let q := calls rest w; (.error e :: q.1, q.2)
  | .push_record fp doc :: rest, w =>
    match w.push_record fp doc with
    | .ok w' => let q := calls rest w'; (.ok 0 :: q.1, q.2)
    | .error e => let q := calls rest w; (.error e :: q.1, q.2)
  | .spill :: rest, w => calls rest w

/-- The same of a spilling writer, which fails when a spill does. -/
def Spilling.calls : List WriterCall → Spilling → σ →
    Guarded (Halt ε) (List (Except WriteError ℕ) × Spilling × σ)
  | [], S, s => .ok ([], S, s)
  | .push term docs :: rest, S, s =>
    match S.push P fingerprint term docs with
    | .ok (S', n) => do
      let q ← calls rest S' s
      .ok (.ok n :: q.1, q.2)
    | .error e => do
      let q ← calls rest S s
      .ok (.error e :: q.1, q.2)
  | .push_record fp doc :: rest, S, s =>
    match S.push_record fp doc with
    | .ok S' => do
      let q ← calls rest S' s
      .ok (.ok 0 :: q.1, q.2)
    | .error e => do
      let q ← calls rest S s
      .ok (.error e :: q.1, q.2)
  | .spill :: rest, S, s => do
    let (S, s) ← S.spill_out C pace s
    calls rest S s

/-- What an in-memory writer returns and writes. -/
def in_memory (w : Writer) (calls : List WriterCall) :
    List (Except WriteError ℕ) × Except WriteError (Bytes × Sizes) :=
  let q := w.calls P fingerprint calls
  (q.1, q.2.finish C)

/-- What a spilling writer returns and writes. -/
def spilled (S : Spilling) (calls : List WriterCall) (s : σ) :
    Guarded (Halt ε) (List (Except WriteError ℕ) × Bytes × Sizes) := do
  let (returned, S, s) ← S.calls P C fingerprint pace calls s
  let file ← S.finish_spilled C pace s
  .ok (returned, file)

end

end Ferret
