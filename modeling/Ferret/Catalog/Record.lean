import Ferret.Lib.Guarded
import Ferret.Segment.Format

/-!
# Log records

A change to the catalog is a list of records, each of which replaces one row
or deletes it. On the wire a record has a header of eight bytes, which gives
its operation and its length, then its fields at fixed offsets, a text if it
has one, and zeros up to a multiple of eight.

A reader takes every length and every id from the file. Its accesses are
guarded here: a read outside the bytes it is given is a panic of the model,
like an addition past the range of its type.
-/

namespace Ferret.Catalog

open Guarded

/-- Why something could not be decoded. -/
inductive DecodeError
  | notACatalog
  | version (n : UInt32)
  | layout
  | corrupt (label : String)
deriving DecidableEq

/-- A 16-byte hash. -/
abbrev Hash := { bytes : Bytes // bytes.length = 16 }

/-- "No id" in the 32-bit ids of fixed-width rows. -/
def NONE : UInt32 := 0xffffffff

/-- The same for a 64-bit field. -/
def NONE64 : UInt64 := 0xffffffffffffffff

inductive Kind
  | dir
  | file
  | symlink
  | fifo
  | socket
  | block
  | character
deriving DecidableEq

/-- A kind as it is stored. -/
def Kind.byte : Kind → UInt8
  | dir => 0
  | file => 1
  | symlink => 2
  | fifo => 3
  | socket => 4
  | block => 5
  | character => 6

/-- The file type bits of `mode`, independent of permissions. -/
def Kind.from_mode (mode : UInt32) : Kind :=
  let type := mode &&& 0o170000
  if type = 0o040000 then .dir
  else if type = 0o120000 then .symlink
  else if type = 0o010000 then .fifo
  else if type = 0o140000 then .socket
  else if type = 0o060000 then .block
  else if type = 0o020000 then .character
  else .file

/-- The kind of an ignored name, whose target is a kind and no inode. -/
def Kind.from_ignored_child (child : UInt32) : Option Kind :=
  match (NONE - child).toNat with
  | 1 => some .dir
  | 2 => some .file
  | 3 => some .symlink
  | 4 => some .fifo
  | 5 => some .socket
  | 6 => some .block
  | 7 => some .character
  | _ => none

inductive ContentState
  | unindexed
  | binary
  | hashed
  | fault
deriving DecidableEq

def ContentState.byte : ContentState → UInt8
  | unindexed => 0
  | binary => 1
  | hashed => 2
  | fault => 3

def ContentState.from_bits (bits : UInt8) : ContentState :=
  match (bits &&& 3).toNat with
  | 0 => unindexed
  | 1 => binary
  | 2 => hashed
  | _ => fault

inductive WorkTreeKind
  | main
  | linked
  | submodule
deriving DecidableEq

def WorkTreeKind.byte : WorkTreeKind → UInt8
  | main => 0
  | linked => 1
  | submodule => 2

def WorkTreeKind.from_byte (byte : UInt8) : Option WorkTreeKind :=
  match byte.toNat with
  | 0 => some main
  | 1 => some linked
  | 2 => some submodule
  | _ => none

structure Stat where
  dev : UInt64
  ino : UInt64
  size : UInt64
  mtime_sec : Int64
  mtime_nsec : UInt32
  ctime_sec : Int64
  ctime_nsec : UInt32
  mode : UInt32
  uid : UInt32
  gid : UInt32
  nlink : UInt64
deriving DecidableEq

/-- The payload projections that are checked independently. -/
inductive Family
  | nameSpace
  | inodes
  | aux
  | docs
deriving DecidableEq

def FAMILIES : List Family := [.nameSpace, .inodes, .aux, .docs]

/-- A complete replacement of a row, or its deletion. -/
inductive Record
  | lifePut (id : UInt32) (kind : Kind) (flags : UInt8) (names : UInt32)
  | inodeDelete (id : UInt32)
  | namePut (id parent child : UInt32) (name : Bytes) (revealed : Bool)
  | nameDelete (id : UInt32)
  | dirPut (id : UInt32) (name entries : Option UInt32) (flags : UInt32)
    (retained_at : Option UInt64)
  | rootPut (id : UInt32) (path : Bytes)
  | rootDelete (id : UInt32)
  | policyPut (hash : Hash)
  | inodePut (id : UInt32) (kind : Kind) (state : ContentState) (doc : Option UInt32) (stat : Stat)
  | linkPut (id : UInt32) (target : Bytes)
  | linkDelete (id : UInt32)
  | workTreePut (id : UInt32) (kind : WorkTreeKind) (common_id : UInt64 × UInt64) (path : Bytes)
  | workTreeDelete (id : UInt32)
  | docPut (id references : UInt32) (hash : Hash)
  | docDelete (id : UInt32)
  /-- A covered last-reference death. -/
  | docDormant (id : UInt32) (hash : Hash)
  /-- Terminal revocation of a dormant permission. -/
  | docForget (id : UInt32)
deriving DecidableEq

def Record.family : Record → Family
  | inodePut .. => .inodes
  | linkPut .. | linkDelete .. | workTreePut .. | workTreeDelete .. => .aux
  | docPut .. | docDelete .. | docDormant .. | docForget .. => .docs
  | _ => .nameSpace

/-! ## Encoding -/

def bad : DecodeError := .corrupt "log record"

def put32 (n : UInt32) : Bytes := toLe 4 n.toNat

def put64 (n : UInt64) : Bytes := toLe 8 n.toNat

def delete (id : UInt32) : Bytes := put32 id ++ put32 0

/-- A text with its length, which counts the zero that ends it. -/
def string (bytes : Bytes) : Guarded DecodeError Bytes := do
  ensure (bytes.length + 1 < 2 ^ 32) bad
  return put32 (.ofNat (bytes.length + 1)) ++ (bytes ++ [0])

/-- Whether a field holds the value that stands for no value. -/
def Record.reserved : Record → Bool
  | dirPut _ name entries _ retained_at =>
    name == some NONE || entries == some NONE || retained_at == some NONE64
  | inodePut _ _ _ doc _ => doc == some NONE
  | _ => false

def Record.op : Record → UInt8
  | lifePut .. => 1
  | inodeDelete .. => 2
  | namePut .. => 3
  | nameDelete .. => 4
  | dirPut .. => 5
  | rootPut .. => 6
  | rootDelete .. => 7
  | policyPut .. => 8
  | inodePut .. => 9
  | linkPut .. => 10
  | linkDelete .. => 11
  | workTreePut .. => 12
  | workTreeDelete .. => 13
  | docPut .. => 14
  | docDelete .. => 15
  | docDormant .. => 16
  | docForget .. => 17

/-- Byte 1 of the header. -/
def Record.header_flags : Record → UInt8
  | namePut _ _ _ _ true => 1
  | _ => 0

/-- What follows the header, up to the padding. -/
def Record.fields : Record → Guarded DecodeError Bytes
  | lifePut id kind flags names =>
    return put32 id ++ ([kind.byte, flags, 0, 0] ++ (put32 names ++ put32 0))
  | inodeDelete id | nameDelete id | rootDelete id | linkDelete id | workTreeDelete id
  | docDelete id | docForget id => return delete id
  | namePut id parent child name _ =>
    return put32 id ++ (put32 parent ++ (put32 child ++ (← string name)))
  | dirPut id name entries flags retained_at =>
    return put32 id ++ (put32 (name.getD NONE) ++ (put32 (entries.getD NONE) ++
      (put32 flags ++ put64 (retained_at.getD NONE64))))
  | rootPut id path => return put32 id ++ (← string path)
  | policyPut hash => return hash.1
  | inodePut id kind state doc stat =>
    return put32 id ++ ([kind.byte, state.byte, 0, 0] ++ (put32 (doc.getD NONE) ++
      (put64 stat.dev ++ (put64 stat.ino ++ (put64 stat.size ++ (put64 stat.mtime_sec.toUInt64 ++
      (put32 stat.mtime_nsec ++ (put64 stat.ctime_sec.toUInt64 ++ (put32 stat.ctime_nsec ++
      (put32 stat.mode ++ (put32 stat.uid ++ (put32 stat.gid ++ put64 stat.nlink))))))))))))
  | linkPut id target => return put32 id ++ (← string target)
  | workTreePut id kind common_id path =>
    return put32 id ++ ([kind.byte, 0, 0, 0] ++ (put64 common_id.1 ++ (put64 common_id.2 ++
      (← string path))))
  | docPut id references hash => return put32 id ++ (put32 references ++ hash.1)
  | docDormant id hash => return put32 id ++ (put32 0 ++ hash.1)

/-- The zeros after `n` bytes, up to a multiple of eight. -/
def padding (n : ℕ) : Bytes := List.replicate ((8 - n % 8) % 8) 0

/-- `Record::encode`: the bytes it appends. -/
def Record.encode (r : Record) : Guarded DecodeError Bytes := do
  ensure (r.reserved = false) bad
  let fields ← r.fields
  let body := fields ++ padding fields.length
  ensure (8 + body.length < 2 ^ 32) bad
  return [r.op, r.header_flags, 0, 0] ++ (put32 (.ofNat (8 + body.length)) ++ body)

/-! ## Decoding -/

section

variable {ε : Type}

/-- The `n` bytes from `i` on. -/
def range (b : Bytes) (i n : ℕ) : Guarded ε Bytes := do
  claim (i + n ≤ b.length)
  return slice b i n

def byte_at (b : Bytes) (i : ℕ) : Guarded ε UInt8 := do
  claim (i < b.length)
  return b[i]?.getD 0

def u32 (b : Bytes) : UInt32 := .ofNat (ofLe b)

def u64 (b : Bytes) : UInt64 := .ofNat (ofLe b)

def u32_at (b : Bytes) (i : ℕ) : Guarded ε UInt32 := return u32 (← range b i 4)

def u64_at (b : Bytes) (i : ℕ) : Guarded ε UInt64 := return u64 (← range b i 8)

/-- The 16 bytes from `i` on. -/
def hash_at (b : Bytes) (i : ℕ) : Guarded ε Hash :=
  if h : (slice b i 16).length = 16 then .ok ⟨slice b i 16, h⟩ else .error .panic

end

/-- Allocation counters: ids below them have been given out. -/
structure Counters where
  inode : UInt32
  name : UInt32
  doc : UInt32
deriving DecidableEq

def kind (n : UInt8) : Guarded DecodeError Kind :=
  match n.toNat with
  | 0 => .ok .dir
  | 1 => .ok .file
  | 2 => .ok .symlink
  | 3 => .ok .fifo
  | 4 => .ok .socket
  | 5 => .ok .block
  | 6 => .ok .character
  | _ => .error (.error bad)

/-- The text at `start`, whose length is at `count_at`. It ends the record. -/
def text (b : Bytes) (count_at start : ℕ) : Guarded DecodeError Bytes := do
  let count ← u32_at b count_at
  let stop := start + count.toNat
  ensure (stop ≤ b.length) bad
  ensure (2 ≤ count.toNat) bad
  ensure ((← byte_at b (stop - 1)) = 0) bad
  let bytes ← range b start (stop - 1 - start)
  ensure (0 ∉ bytes) bad
  ensure (∀ x ∈ (← range b stop (b.length - stop)), x = 0) bad
  ensure (b.length = (stop + 7) / 8 * 8) bad
  return bytes

/-- A field whose reserved value stands for none. -/
def optional (n : UInt32) : Option UInt32 := if n = NONE then none else some n

def optional64 (n : UInt64) : Option UInt64 := if n = NONE64 then none else some n

/-- What every deletion checks. -/
def deleted (b : Bytes) : Guarded DecodeError Unit := do
  ensure (b.length = 16) bad
  ensure ((← range b 12 4) = [0, 0, 0, 0]) bad

/-- **One record from its framed bytes**: its fields, and their bounds against
the segment's counters. -/
def record (b : Bytes) (counters : Counters) (sequence : UInt64) : Guarded DecodeError Record := do
  let id ← u32_at b 8
  match (← byte_at b 0).toNat with
  | 1 =>
    ensure (b.length = 24) bad
    ensure ((← range b 14 2) = [0, 0]) bad
    ensure ((← range b 20 4) = [0, 0, 0, 0]) bad
    let flags ← byte_at b 13
    ensure (flags = 0) bad
    let names ← u32_at b 16
    ensure (names ≤ counters.name) bad
    let k ← kind (← byte_at b 12)
    ensure (names = 0 → k = .dir) bad
    return .lifePut id k flags names
  | 2 =>
    deleted b
    return .inodeDelete id
  | 3 =>
    ensure (32 ≤ b.length) bad
    let parent ← u32_at b 12
    let child ← u32_at b 16
    let name ← text b 20 24
    ensure (parent < counters.inode) bad
    ensure (child < counters.inode ∨ (Kind.from_ignored_child child).isSome) bad
    -- a slash, and the two names of a directory's own links
    ensure (47 ∉ name ∧ name ≠ [46] ∧ name ≠ [46, 46]) bad
    return .namePut id parent child name ((← byte_at b 1) = 1)
  | 4 =>
    deleted b
    return .nameDelete id
  | 5 =>
    ensure (b.length = 32) bad
    let name ← u32_at b 12
    let entries ← u32_at b 16
    let flags ← u32_at b 20
    let retained ← u64_at b 24
    ensure (name ≠ NONE → name < counters.name) bad
    ensure (flags &&& ~~~15 = 0) bad
    ensure (retained ≠ NONE64 → retained ≤ sequence) bad
    ensure (flags &&& 8 ≠ 0 ↔ retained ≠ NONE64) bad
    return .dirPut id (optional name) (optional entries) flags (optional64 retained)
  | 6 =>
    let path ← text b 12 16
    ensure (path.head? = some 47) bad
    return .rootPut id path
  | 7 =>
    deleted b
    return .rootDelete id
  | 8 =>
    ensure (b.length = 24) bad
    return .policyPut (← hash_at b 8)
  | 9 =>
    ensure (b.length = 88) bad
    let k ← kind (← byte_at b 12)
    let state ← byte_at b 13
    let doc ← u32_at b 16
    let stat : Stat :=
      { dev := ← u64_at b 20
        ino := ← u64_at b 28
        size := ← u64_at b 36
        mtime_sec := (← u64_at b 44).toInt64
        mtime_nsec := ← u32_at b 52
        ctime_sec := (← u64_at b 56).toInt64
        ctime_nsec := ← u32_at b 64
        mode := ← u32_at b 68
        uid := ← u32_at b 72
        gid := ← u32_at b 76
        nlink := ← u64_at b 80 }
    ensure ((← range b 14 2) = [0, 0]) bad
    ensure (state ≤ 3) bad
    ensure (state = 2 ↔ doc ≠ NONE) bad
    ensure (doc ≠ NONE → doc < counters.doc) bad
    ensure (stat.mtime_nsec < 1000000000 ∧ stat.ctime_nsec < 1000000000) bad
    ensure (Kind.from_mode stat.mode = k) bad
    ensure (k ≠ .file → state = 0) bad
    return .inodePut id k (.from_bits state) (optional doc) stat
  | 10 => return .linkPut id (← text b 12 16)
  | 11 =>
    deleted b
    return .linkDelete id
  | 12 =>
    ensure (40 ≤ b.length) bad
    ensure ((← range b 13 3) = [0, 0, 0]) bad
    match WorkTreeKind.from_byte (← byte_at b 12) with
    | none => .error (.error bad)
    | some k =>
      let path ← text b 32 36
      ensure (path.head? = some 47) bad
      return .workTreePut id k (← u64_at b 16, ← u64_at b 24) path
  | 13 =>
    deleted b
    return .workTreeDelete id
  | 14 =>
    ensure (b.length = 32) bad
    let references ← u32_at b 12
    ensure (references ≠ 0 ∧ references ≤ counters.inode) bad
    return .docPut id references (← hash_at b 16)
  | 15 =>
    deleted b
    return .docDelete id
  | 16 =>
    ensure (b.length = 32) bad
    ensure ((← range b 12 4) = [0, 0, 0, 0]) bad
    return .docDormant id (← hash_at b 16)
  | 17 =>
    deleted b
    return .docForget id
  | _ => .error (.error bad)

/-- The counter that a record's own id is below. -/
def Record.limit (counters : Counters) : Record → Option UInt32
  | policyPut .. => none
  | namePut .. | nameDelete .. => some counters.name
  | docPut .. | docDelete .. | docDormant .. | docForget .. => some counters.doc
  | _ => some counters.inode

/-- A condition on an id there may be is checked on that id only. -/
instance instDecidableForallId (id : Option UInt32) (p : UInt32 → Prop) [DecidablePred p] :
    Decidable (∀ n ∈ id, p n) :=
  Option.decidableForallMem id

/-- The record at the front of the bytes, and the bytes after it. -/
def decode_one (family : Family) (counters : Counters) (sequence : UInt64) (rest : Bytes) :
    Guarded DecodeError (Record × Bytes) := do
  ensure (8 ≤ rest.length) bad
  ensure ((← range rest 2 2) = [0, 0]) bad
  let op ← byte_at rest 0
  ensure ((← byte_at rest 1) ≤ if op = 3 then 1 else 0) bad
  let len := (← u32_at rest 4).toNat
  ensure (16 ≤ len ∧ len % 8 = 0 ∧ len ≤ rest.length) bad
  let b ← range rest 0 len
  let id ← u32_at b 8
  let record ← record b counters sequence
  ensure (record.family = family) bad
  ensure (∀ n ∈ record.limit counters, id < n) bad
  return (record, ← range rest len (rest.length - len))

/-- The loop of `decode`, with the records decoded so far. Every record takes at
least one byte, so bytes for fuel do not run out. -/
def decode_from (count : UInt32) (family : Family) (counters : Counters) (sequence : UInt64) :
    ℕ → Bytes → List Record → Guarded DecodeError (List Record)
  | 0, _, _ => .error .panic
  | fuel + 1, rest, records =>
    if rest = [] then do
      ensure (records.length = count.toNat) bad
      return records
    else do
      let (record, rest) ← decode_one family counters sequence rest
      ensure (records.length + 1 ≤ count.toNat) bad
      decode_from count family counters sequence fuel rest (records ++ [record])

/-- **`decode`**: the records of a block. -/
def decode (bytes : Bytes) (count : UInt32) (family : Family) (counters : Counters)
    (sequence : UInt64) : Guarded DecodeError (List Record) :=
  decode_from count family counters sequence (bytes.length + 1) bytes []

end Ferret.Catalog
