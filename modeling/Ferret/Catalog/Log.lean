import Ferret.Catalog.Record

/-!
# The change log

A catalog is a checkpoint and a log of the transactions since. The log has a
header, which ties it to its checkpoint, and then the transactions end to end.
A transaction has a head, a descriptor for each of its blocks, the blocks, one
for each family with records, and a footer; checksums cover the head with its
descriptors, and each block. A manifest says where the published part ends.

Opening a log reads the framing only. A family's blocks are read, checked and
decoded when they are asked for.

`Log::open` and `Log::load` also count the bytes they read, for statistics;
that counter is left out.
-/

namespace Ferret.Catalog

open Guarded

/-! ## Files and arithmetic -/

/-- A file. Its length is an `off_t`. -/
structure File where
  bytes : Bytes
  small : bytes.length < 2 ^ 63
deriving DecidableEq

inductive OpenError
  | io
  | decode (e : DecodeError)
  | log (checkpoint : UInt64) (sequence : Option UInt64) (family : Option Family)
    (cause : OpenError)
deriving DecidableEq

def corrupt (label : String) : OpenError := .decode (.corrupt label)

/-- The `n` bytes at an offset; an error past the end. -/
def File.read_exact_at (file : File) (n offset : ℕ) : Guarded OpenError Bytes := do
  ensure (offset + n ≤ file.bytes.length) .io
  return slice file.bytes offset n

section

variable {ε : Type}

def add64 (a b : ℕ) : Guarded ε ℕ := do
  claim (a + b < 2 ^ 64)
  return a + b

def sub64 (a b : ℕ) : Guarded ε ℕ := do
  claim (b ≤ a)
  return a - b

end

/-! ## The manifest -/

def VERSION : UInt32 := 6

structure Generation where
  incarnation : Hash
  checkpoint : UInt64
  sequence : UInt64
deriving DecidableEq

/-- Inodes, names, directories, documents. -/
structure Counts where
  inodes : UInt32
  names : UInt32
  dirs : UInt32
  docs : UInt32
deriving DecidableEq

structure Manifest where
  generation : Generation
  log_end : UInt64
  checkpoint_sequence : UInt64
  sniffer : UInt32
  counters : Counters
  counts : Counts
deriving DecidableEq

/-- `FERRETC6`. -/
def MANIFEST_MAGIC : Bytes := [70, 69, 82, 82, 69, 84, 67, 54]

/-- `FERRETCR`. -/
def LEGACY_MAGIC : Bytes := [70, 69, 82, 82, 69, 84, 67, 82]

def zeros (n : ℕ) : Bytes := List.replicate n 0

/-- `Manifest::encode`, up to the checksum. -/
def Manifest.fields (m : Manifest) : Bytes :=
  MANIFEST_MAGIC ++ (put32 VERSION ++ (zeros 4 ++ (m.generation.incarnation.1 ++
    (put64 m.generation.checkpoint ++ (put64 m.generation.sequence ++ (put64 m.log_end ++
    (put64 m.checkpoint_sequence ++ (put32 m.sniffer ++ (put32 m.counters.inode ++
    (put32 m.counters.name ++ (put32 m.counters.doc ++ (put32 m.counts.inodes ++
    (put32 m.counts.names ++ (put32 m.counts.dirs ++ (put32 m.counts.docs ++ zeros 16)))))))))))))))

def Manifest.encode (C : Checksum) (m : Manifest) : Bytes := m.fields ++ C.checksum m.fields

def Manifest.decode (C : Checksum) (bytes : Bytes) : Guarded DecodeError Manifest := do
  ensure (bytes.length = 128) (.corrupt "manifest")
  let magic ← range bytes 0 8
  ensure (magic = MANIFEST_MAGIC ∨ magic = LEGACY_MAGIC) (.corrupt "manifest")
  ensure (C.checksum (← range bytes 0 112) = (← range bytes 112 16)) (.corrupt "manifest")
  let version ← u32_at bytes 8
  ensure (version = VERSION ∨ version = 5) (.version version)
  ensure (magic = LEGACY_MAGIC ↔ version = 5) (.corrupt "manifest version/magic")
  let generation : Generation :=
    { incarnation := ← hash_at bytes 16
      checkpoint := ← u64_at bytes 32
      sequence := ← u64_at bytes 40 }
  let counters : Counters :=
    { inode := ← u32_at bytes 68
      name := ← u32_at bytes 72
      doc := ← u32_at bytes 76 }
  let counts : Counts :=
    { inodes := ← u32_at bytes 80
      names := ← u32_at bytes 84
      dirs := ← u32_at bytes 88
      docs := ← u32_at bytes 92 }
  ensure ((← range bytes 12 4) = zeros 4) (.corrupt "manifest")
  ensure ((← range bytes 96 16) = zeros 16) (.corrupt "manifest")
  ensure (generation.incarnation.1 ≠ zeros 16) (.corrupt "manifest")
  ensure (generation.checkpoint ≠ NONE64 ∧ generation.sequence ≠ NONE64) (.corrupt "manifest")
  ensure (counters.inode ≤ NONE - 16 ∧ counters.name ≠ NONE) (.corrupt "manifest")
  ensure (counts.inodes ≤ counters.inode ∧ counts.names ≤ counters.name
    ∧ counts.dirs ≤ counts.inodes ∧ counts.docs ≤ counters.doc) (.corrupt "manifest")
  let checkpoint_sequence ← u64_at bytes 56
  ensure (checkpoint_sequence ≤ generation.sequence) (.corrupt "manifest")
  return {
    generation := generation
    log_end := ← u64_at bytes 48
    checkpoint_sequence := checkpoint_sequence
    sniffer := ← u32_at bytes 64
    counters := counters
    counts := counts }

/-! ## Opening -/

structure Block where
  family : Family
  count : UInt32
  offset : ℕ
  length : ℕ
  digest : Bytes
  /-- Its records, once they are loaded. -/
  records : Option (List Record)
deriving DecidableEq

structure Envelope where
  sequence : UInt64
  counters : Counters
  blocks : List Block
deriving DecidableEq

/-- **A fixed committed prefix.** -/
structure Log where
  file : Option File
  transactions : List Envelope
  stop : ℕ
  checkpoint : UInt64
deriving DecidableEq

def HEADER : ℕ := 64

/-- `FERRETCL`. -/
def LOG_MAGIC : Bytes := [70, 69, 82, 82, 69, 84, 67, 76]

/-- `FERRETTX`. -/
def TX_MAGIC : Bytes := [70, 69, 82, 82, 69, 84, 84, 88]

/-- The header of a log, in some version, up to its checksum. -/
def header_fields (version : UInt32) (g : Generation) : Bytes :=
  LOG_MAGIC ++ (put32 version ++ (zeros 4 ++ (g.incarnation.1 ++
    (put64 g.checkpoint ++ put64 g.sequence))))

def header_in (C : Checksum) (version : UInt32) (g : Generation) : Bytes :=
  header_fields version g ++ C.checksum (header_fields version g)

def header (C : Checksum) (g : Generation) : Bytes := header_in C VERSION g

/-- The parts of `n` bytes, whole ones only. -/
def chunks_exact (n : ℕ) (b : Bytes) : List Bytes :=
  (List.range (b.length / n)).map fun i => slice b (i * n) n

/-- The block of one descriptor. The families seen before are those of `blocks`. -/
def read_block (start length cursor : ℕ) (blocks : List Block) (d : Bytes) :
    Guarded OpenError Block := do
  let n := (← byte_at d 0).toNat + 256 * (← byte_at d 1).toNat
  let offset := (← u64_at d 8).toNat
  let size := (← u64_at d 16).toNat
  let records ← u32_at d 4
  match FAMILIES[n]? with
  | none => .error (.error (corrupt "log block descriptor"))
  | some family =>
    ensure (family ∉ blocks.map Block.family) (corrupt "log block descriptor")
    ensure ((← range d 2 2) = zeros 2 ∧ (← range d 40 8) = zeros 8) (corrupt "log block descriptor")
    ensure (offset = cursor) (corrupt "log block descriptor")
    ensure (size ≠ 0 ∧ size % 8 = 0) (corrupt "log block descriptor")
    ensure (records ≠ 0 ∧ records.toNat ≤ size / 16) (corrupt "log block descriptor")
    ensure (size ≤ (← sub64 (← sub64 length 32) cursor)) (corrupt "log block descriptor")
    return {
      family := family
      count := records
      offset := ← add64 start offset
      length := size
      digest := ← range d 24 16
      records := none }

/-- The loop of `read_blocks`. -/
def read_blocks_from (start length : ℕ) :
    List Bytes → ℕ → List Block → Guarded OpenError (ℕ × List Block)
  | [], cursor, blocks => return (cursor, blocks)
  | d :: rest, cursor, blocks => do
    let block ← read_block start length cursor blocks d
    read_blocks_from start length rest (← add64 cursor block.length) (blocks ++ [block])

/-- The blocks a transaction's descriptors place, which must tile its body. -/
def read_blocks (framing : Bytes) (start length : ℕ) : Guarded OpenError (List Block) := do
  let descriptors ← range framing 64 (framing.length - 64)
  let (cursor, blocks) ←
    read_blocks_from start length (chunks_exact 48 descriptors) framing.length []
  ensure (cursor = (← sub64 length 32)) (corrupt "log block tiling")
  return blocks

/-- Reads and checks the transaction at `start`, with `room` bytes of log left,
following `sequence` and `counters`. -/
def read_envelope (C : Checksum) (file : File) (start room : ℕ) (sequence : UInt64)
    (counters : Counters) : Guarded OpenError (Envelope × ℕ) := do
  ensure (96 ≤ room) (corrupt "log transaction truncated")
  let head ← file.read_exact_at 64 start
  let version ← u32_at head 8
  ensure ((← range head 0 8) = TX_MAGIC ∧ (version = 5 ∨ version = VERSION)
    ∧ (← range head 52 12) = zeros 12) (corrupt "log transaction header")
  let count := (← u32_at head 12).toNat
  let length := (← u64_at head 16).toNat
  let next ← u64_at head 24
  ensure (count ≠ 0 ∧ count ≤ 4 ∧ 96 + 48 * count ≤ length ∧ length % 8 = 0 ∧ length ≤ room)
    (corrupt "log transaction framing/sequence")
  ensure (sequence.toNat + 1 = next.toNat ∧ next ≠ NONE64 ∧ (← u64_at head 32) = sequence)
    (corrupt "log transaction framing/sequence")
  let next_counters : Counters :=
    { inode := ← u32_at head 40
      name := ← u32_at head 44
      doc := ← u32_at head 48 }
  ensure (next_counters.inode ≤ NONE - 16 ∧ next_counters.name ≠ NONE
    ∧ counters.inode ≤ next_counters.inode ∧ counters.name ≤ next_counters.name
    ∧ counters.doc ≤ next_counters.doc) (corrupt "log allocation counters")
  let framing := head ++ (← file.read_exact_at (count * 48) (← add64 start 64))
  let footer ← file.read_exact_at 32 (← sub64 (← add64 start length) 32)
  ensure ((← u64_at footer 0) = next ∧ (← u64_at footer 8).toNat = length
    ∧ (← range footer 16 16) = C.checksum framing) (corrupt "log transaction footer/checksum")
  let blocks ← read_blocks framing start length
  return ({ sequence := next, counters := next_counters, blocks := blocks }, length)

/-- The loop of `Log::open`. Every transaction takes bytes, so bytes for fuel do
not run out. -/
def open_from (C : Checksum) (file : File) (log_end : ℕ) :
    ℕ → ℕ → UInt64 → Counters → List Envelope →
      Guarded OpenError (UInt64 × Counters × List Envelope)
  | 0, _, _, _, _ => .error .panic
  | fuel + 1, start, sequence, counters, transactions =>
    if start < log_end then do
      let (envelope, length) ← read_envelope C file start (log_end - start) sequence counters
      open_from C file log_end fuel (← add64 start length) envelope.sequence envelope.counters
        (transactions ++ [envelope])
    else
      return (sequence, counters, transactions)

/-- **`Log::open`.** -/
def Log.open (C : Checksum) (file : Option File) (m : Manifest) (base_counters : Counters) :
    Guarded OpenError Log :=
  match file with
  | none => do
    ensure (m.log_end = 0 ∧ m.generation.sequence = m.checkpoint_sequence) (corrupt "log prefix")
    return { file := none, transactions := [], stop := 0, checkpoint := m.generation.checkpoint }
  | some file => do
    let log_end := m.log_end.toNat
    ensure (HEADER ≤ log_end ∧ log_end ≤ file.bytes.length) (corrupt "log prefix truncated")
    let bytes ← file.read_exact_at 64 0
    let base := { m.generation with sequence := m.checkpoint_sequence }
    let expected := if (← u32_at bytes 8) = 5 then header_in C 5 base else header C base
    ensure (bytes = expected) (corrupt "log header identity/checksum")
    let (sequence, counters, transactions) ←
      open_from C file log_end (log_end + 1) HEADER m.checkpoint_sequence base_counters []
    ensure (sequence = m.generation.sequence ∧ counters = m.counters)
      (corrupt "log manifest sequence/counters")
    return {
      file := some file
      transactions := transactions
      stop := log_end
      checkpoint := m.generation.checkpoint }

/-! ## Loading -/

/-- The block with its records read, checked and decoded. -/
def Block.load (C : Checksum) (file : Option File) (checkpoint sequence : UInt64)
    (counters : Counters) (family : Family) (b : Block) : Guarded OpenError Block :=
  if b.family ≠ family ∨ b.records.isSome then return b
  else do
    claim (b.length < 2 ^ 63)
    match file with
    | none => .error (.error (corrupt "missing log descriptor"))
    | some file =>
      let records ← map_err (OpenError.log checkpoint (some sequence) (some family)) do
        let bytes ← file.read_exact_at b.length b.offset
        ensure (C.checksum bytes = b.digest) (corrupt "log payload checksum")
        map_err OpenError.decode (Catalog.decode bytes b.count family counters sequence)
      return { b with records := some records }

def Envelope.load (C : Checksum) (file : Option File) (checkpoint : UInt64) (family : Family)
    (t : Envelope) : Guarded OpenError Envelope :=
  return { t with
    blocks := ← t.blocks.mapM (Block.load C file checkpoint t.sequence t.counters family) }

/-- **`Log::load`**: checks and decodes one family. -/
def Log.load (C : Checksum) (family : Family) (log : Log) : Guarded OpenError Log :=
  return { log with
    transactions := ← log.transactions.mapM (Envelope.load C log.file log.checkpoint family) }

/-- The records of a block; asking for them before they are loaded is a panic. -/
def Block.loaded (b : Block) : Guarded OpenError (List Record) :=
  match b.records with
  | some records => .ok records
  | none => .error .panic

def Envelope.records (family : Family) (t : Envelope) :
    Guarded OpenError (List (UInt64 × Record)) :=
  return (← (t.blocks.filter (·.family = family)).mapM Block.loaded).flatten.map
    fun r => (t.sequence, r)

/-- Records in commit order, with their transaction's sequence. -/
def Log.records (log : Log) (family : Family) : Guarded OpenError (List (UInt64 × Record)) :=
  return (← log.transactions.mapM (Envelope.records family)).flatten

/-! ## Appending -/

/-- A producer's final row replacements, and the resulting counters and counts. -/
structure ChangeSet where
  records : List Record
  counters : Counters
  counts : Counts

/-- The number of records of each family so far, and the length. -/
structure Sizes where
  counts : Family → ℕ
  length : ℕ

/-- The loop of `checked_size`. -/
def checked_sizes (counters : Counters) (sequence : UInt64) :
    List Record → Sizes → Guarded DecodeError Sizes
  | [], sizes => return sizes
  | r :: rest, sizes => do
    let scratch ← r.encode
    let _ ← decode scratch 1 r.family counters sequence
    ensure (sizes.counts r.family + 1 < 2 ^ 32) (.corrupt "log record count")
    ensure (sizes.length + scratch.length < 2 ^ 64) (.corrupt "log exhausted")
    checked_sizes counters sequence rest {
      counts := fun f => if f = r.family then sizes.counts f + 1 else sizes.counts f
      length := sizes.length + scratch.length }

/-- **`checked_size`**: the framed length, with only one row encoded at a time. -/
def checked_size (changes : ChangeSet) (sequence : UInt64) : Guarded DecodeError ℕ := do
  let sizes ← checked_sizes changes.counters sequence changes.records ⟨fun _ => 0, 96⟩
  add64 sizes.length ((FAMILIES.filter fun f => sizes.counts f ≠ 0).length * 48)

/-- The loop over one family's records. -/
def encode_records : List Record → Bytes → ℕ → Guarded DecodeError (Bytes × ℕ)
  | [], bytes, count => return (bytes, count)
  | r :: rest, bytes, count => do
    let encoded ← r.encode
    ensure (count + 1 < 2 ^ 32) (.corrupt "log record count")
    encode_records rest (bytes ++ encoded) (count + 1)

/-- A block to be written. -/
structure Payload where
  family : Family
  count : UInt32
  bytes : Bytes

def encode_family (changes : ChangeSet) (sequence : UInt64) (family : Family) :
    Guarded DecodeError (Option Payload) := do
  let (bytes, count) ← encode_records (changes.records.filter (·.family = family)) [] 0
  if count ≠ 0 then
    let _ ← decode bytes (.ofNat count) family changes.counters sequence
    return some { family := family, count := .ofNat count, bytes := bytes }
  else
    return none

def Family.index : Family → ℕ
  | nameSpace => 0
  | inodes => 1
  | aux => 2
  | docs => 3

def Payload.descriptor (C : Checksum) (offset : ℕ) (p : Payload) : Bytes :=
  toLe 2 p.family.index ++ (zeros 2 ++ (put32 p.count ++ (put64 (.ofNat offset) ++
    (put64 (.ofNat p.bytes.length) ++ (C.checksum p.bytes ++ zeros 8)))))

/-- The descriptors of the payloads, the first of which goes to `offset`. -/
def descriptors (C : Checksum) : ℕ → List Payload → Bytes
  | _, [] => []
  | offset, p :: rest => p.descriptor C offset ++ descriptors C (offset + p.bytes.length) rest

/-- The head of a transaction with its descriptors. -/
def framing (C : Checksum) (changes : ChangeSet) (sequence previous : UInt64) (length : ℕ)
    (payloads : List Payload) : Bytes :=
  TX_MAGIC ++ (put32 VERSION ++ (put32 (.ofNat payloads.length) ++ (put64 (.ofNat length) ++
    (put64 sequence ++ (put64 previous ++ (put32 changes.counters.inode ++
    (put32 changes.counters.name ++ (put32 changes.counters.doc ++ (zeros 12 ++
    descriptors C (64 + payloads.length * 48) payloads)))))))))

/-- **`encode`**: a transaction. -/
def encode (C : Checksum) (changes : ChangeSet) (sequence previous : UInt64) :
    Guarded DecodeError Bytes := do
  let payloads := (← FAMILIES.mapM (encode_family changes sequence)).filterMap id
  let bodies := (payloads.map Payload.bytes).flatten
  let length := 64 + payloads.length * 48 + bodies.length + 32
  let framing := framing C changes sequence previous length payloads
  return framing ++ (bodies ++
    (put64 sequence ++ (put64 (.ofNat length) ++ C.checksum framing)))

/-- **`next_manifest`**: what appending `changes` publishes, and the length it
appends. -/
def Manifest.next (C : Checksum) (m : Manifest) (changes : ChangeSet) (sniffer : UInt32) :
    Guarded DecodeError (Manifest × ℕ) := do
  ensure (m.generation.sequence.toNat + 1 < 2 ^ 64 ∧ m.generation.sequence + 1 ≠ NONE64)
    (.corrupt "sequence exhausted")
  let next : Manifest := { m with
    generation := { m.generation with sequence := m.generation.sequence + 1 }
    sniffer := sniffer
    counters := changes.counters
    counts := changes.counts }
  let _ ← Manifest.decode C (next.encode C)
  ensure (m.counters.inode ≤ next.counters.inode ∧ m.counters.name ≤ next.counters.name
    ∧ m.counters.doc ≤ next.counters.doc) (.corrupt "allocation counters decreased")
  let length ← checked_size changes next.generation.sequence
  ensure (m.log_end.toNat + length < 2 ^ 64) (.corrupt "log exhausted")
  return ({ next with log_end := .ofNat (m.log_end.toNat + length) }, length)

end Ferret.Catalog
