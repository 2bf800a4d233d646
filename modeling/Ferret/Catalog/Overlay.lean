import Ferret.Catalog.Namespace
import Ferret.Catalog.LogCodec

/-!
# Views over a checkpoint

A view is a checkpoint with the rows replaced since. It is reached in two ways.
A writer advances its view by one change set, which is checked against the
view before it. A reader replays a log over the checkpoint, with the same
checks for each transaction and one check of the rows at the end.
-/

namespace Ferret.Catalog

open Guarded

/-! ## Inodes -/

/-- The ids born in a transaction, and the counts of inodes and directories so far. -/
structure InodeTally where
  births : List ℕ := []
  inodes : ℕ
  dirs : ℕ

/-- One changed life row, against the rows before the transaction. -/
def check_inode (base : Tables) (p : Projection) (counter : ℕ) (acc : InodeTally)
    (row : ℕ × Life) : Guarded OpenError InodeTally :=
  match row.2 with
  | .put kind _ => do
    ensure (p.life[row.1]? ≠ some .delete) (corrupt "retired inode reused")
    if counter ≤ row.1 then
      return {
        births := acc.births ++ [row.1]
        inodes := acc.inodes + 1
        dirs := acc.dirs + if kind = .dir then 1 else 0 }
    else
      match p.life[row.1]? with
      | some (.put old _) => ensure (old = kind) (corrupt "inode lifetime type changed")
      | _ =>
        ensure (row.1 < base.base_dir_count ↔ kind = .dir) (corrupt "base directory type changed")
      return acc
  | .delete => do
    ensure (row.1 < counter ∧ p.life[row.1]? ≠ some .delete) (corrupt "delete absent inode")
    let dir : Bool :=
      match p.life[row.1]? with
      | some (.put kind _) => kind = .dir
      | _ => row.1 < base.base_dir_count
    ensure (acc.inodes ≠ 0) (corrupt "inode counts")
    ensure (dir = true → acc.dirs ≠ 0) (corrupt "directory counts")
    return { acc with inodes := acc.inodes - 1, dirs := acc.dirs - if dir then 1 else 0 }

/-- Checks a transaction's inode lifetimes against the projection before it, and counts
its births and deaths. -/
def check_inodes (base : Tables) (p : Projection) (records : List Record) (counter next : ℕ)
    (inodes dirs : ℕ) : Guarded OpenError (ℕ × ℕ) := do
  let tally ← (Projection.final_rows records).life.toList.foldlM (check_inode base p counter)
    { inodes := inodes, dirs := dirs }
  check_births tally.births counter next "inode allocation gaps"
  return (tally.inodes, tally.dirs)

/-! ## Documents -/

/-- The hash of a document that lives. -/
def Projection.doc_hash (base : Tables) (p : Projection) (id : ℕ) : Option Hash :=
  match p.doc[id]? with
  | some (.put doc) => some doc.hash
  | some _ => none
  | none => base.doc_hash id

/-- The retained hash for a dead document; absence never authorizes revival. -/
def Projection.dormant_hash (base : Tables) (p : Projection) (id : ℕ) : Option Hash :=
  match p.doc[id]? with
  | some (.dormant hash) => some hash
  | some _ => none
  | none => base.dormant_hash id

/-- The inodes that refer to a live document. -/
def Projection.doc_references (base : Tables) (p : Projection) (id : ℕ) : Option ℕ :=
  match p.doc[id]? with
  | some (.put doc) => some doc.references
  | some _ => none
  | none => base.doc_references id

structure DocTally where
  births : List ℕ := []
  docs : ℕ

/-- One changed document row, against the rows before the transaction. -/
def check_doc (base : Tables) (p : Projection) (counter : ℕ) (acc : DocTally)
    (row : ℕ × DocRow) : Guarded OpenError DocTally :=
  let live := p.doc_hash base row.1
  let dormant := p.dormant_hash base row.1
  match row.2 with
  | .put doc =>
    if counter ≤ row.1 then
      return { births := acc.births ++ [row.1], docs := acc.docs + 1 }
    else
      match live.or dormant with
      | some old => do
        ensure (old = doc.hash) (corrupt "document hash changed")
        return { acc with docs := acc.docs + if live.isNone then 1 else 0 }
      | none => .error (.error (corrupt "unassigned/forgotten document reused"))
  | .delete => do
    ensure (live.isSome = true) (corrupt "delete absent document")
    ensure (acc.docs ≠ 0) (corrupt "document counts")
    return { acc with docs := acc.docs - 1 }
  | .dormant hash => do
    ensure (live.isSome = true) (corrupt "delete absent document")
    ensure (live = some hash) (corrupt "dormant hash changed")
    ensure (acc.docs ≠ 0) (corrupt "document counts")
    return { acc with docs := acc.docs - 1 }
  | .forget => do
    ensure (dormant.isSome = true) (corrupt "forget absent dormant document")
    return acc

/-- Checks a transaction's documents against the projection before it, and counts its
births and deaths. -/
def check_docs (base : Tables) (p : Projection) (records : List Record) (counter next : ℕ)
    (docs : ℕ) : Guarded OpenError ℕ := do
  let tally ← (Projection.final_rows records).doc.toList.foldlM (check_doc base p counter)
    { docs := docs }
  check_births tally.births counter next "document allocation gaps"
  return tally.docs

/-! ## Retained permissions -/

def hashCmp : Hash → Hash → Ordering := compareOn Subtype.val

instance : Std.TransCmp hashCmp := inferInstanceAs (Std.TransCmp (compareOn _))

instance : Std.LawfulEqCmp hashCmp where
  eq_of_compare h := Subtype.ext (Std.LawfulEqCmp.eq_of_compare h)

abbrev HashRows := Std.ExtTreeMap Hash (Option ℕ) hashCmp

/-- Retained permissions as of one checked sequence: the checkpoint's rows, overridden by
every later transaction's hash changes. -/
structure DormantState where
  changes : HashRows := ∅
  count : ℕ

namespace DormantState

/-- The retained id holding `hash`, if any. -/
def find (base : Tables) (s : DormantState) (hash : Hash) : Option ℕ :=
  match s.changes[hash]? with
  | some id => id
  | none => (base.dormant.find? (·.2 = hash)).map Prod.fst

def remove (base : Tables) (s : DormantState) (changes : HashRows) (row : ℕ × Hash) :
    Guarded OpenError HashRows := do
  ensure (s.find base row.2 = some row.1) (corrupt "dormant documents")
  return changes.insert row.2 none

def add (base : Tables) (s : DormantState) (changes : HashRows) (row : ℕ × Hash) :
    Guarded OpenError HashRows := do
  ensure (changes[row.2]?.getD (s.find base row.2) = none) (corrupt "duplicate dormant hash")
  return changes.insert row.2 (some row.1)

/-- Applies one transaction's permission changes: `removed` rows must be retained now, and
`added` hashes must be free once they are gone. -/
def advance (base : Tables) (s : DormantState) (removed added : List (ℕ × Hash)) :
    Guarded OpenError DormantState := do
  let changes ← removed.foldlM (s.remove base) ∅
  let changes ← added.foldlM (s.add base) changes
  ensure (removed.length ≤ s.count ∧ s.count - removed.length + added.length ≤ CAP)
    (corrupt "dormant cap")
  return {
    changes := s.changes ∪ changes
    count := s.count - removed.length + added.length }

end DormantState

/-- Checks a transaction's permission changes against the retained state before it. -/
def advance_dormant (base : Tables) (p : Projection) (s : DormantState) (records : List Record) :
    Guarded OpenError DormantState :=
  let final := (Projection.final_rows records).doc.toList
  s.advance base
    (final.filterMap fun r => (p.dormant_hash base r.1).map fun hash => (r.1, hash))
    (final.filterMap fun r =>
      match r.2 with
      | .dormant hash => some (r.1, hash)
      | _ => none)

/-! ## Views -/

/-- **A view**: a checkpoint, the rows over it, and what is kept of the namespace and of
the retained permissions. -/
structure Overlay where
  base : Checkpoint
  manifest : Manifest
  rows : Projection
  keys : ChildKeys
  touched : Std.ExtTreeSet ℕ compare
  references : Rows ℤ
  dormant : DormantState
  /-- Whether the rows have been validated, so that a successor need only validate its own. -/
  checked : Bool

namespace Overlay

/-- A checkpoint without a log, before any transaction. -/
def empty (base : Checkpoint) : Overlay where
  base := base
  manifest := base.manifest
  rows := {}
  keys := ∅
  touched := ∅
  references := ∅
  dormant := { count := base.dormant.length }
  checked := false

/-- The namespace that the next transaction is replayed over. -/
def replay (o : Overlay) : NameReplay where
  rows := o.rows
  keys := o.keys
  touched := o.touched
  references := o.references
  counter := o.manifest.counters.name.toNat
  count := o.manifest.counts.names.toNat

def next_inode (o : Overlay) : ℕ := o.manifest.counters.inode.toNat

def next_name (o : Overlay) : ℕ := o.manifest.counters.name.toNat

def next_doc (o : Overlay) : ℕ := o.manifest.counters.doc.toNat

def is_live_inode (o : Overlay) (id : ℕ) : Bool :=
  id < o.next_inode && Namespace.live o.base.toTables o.rows id

def is_directory (o : Overlay) (id : ℕ) : Bool :=
  match o.rows.life[id]? with
  | some (.put kind _) => kind = .dir
  | _ => id < o.base.base_dir_count

def kind (o : Overlay) (id : ℕ) : Kind :=
  match o.rows.life[id]? with
  | some (.put kind _) => kind
  | _ => o.base.kind id

/-- One inode's row. -/
def inode (o : Overlay) (id : ℕ) : Option Inode :=
  match o.rows.inode[id]? with
  | some row => some row.toInode
  | none => o.base.inodes[id]?

/-- An inode's device and number. -/
def identity (o : Overlay) (id : ℕ) : Option (UInt64 × UInt64) :=
  (o.inode id).map fun i => (i.stat.dev, i.stat.ino)

def doc (o : Overlay) (id : ℕ) : Option ℕ := (o.inode id).bind Inode.doc

def name (o : Overlay) (id : ℕ) : Option Name := Namespace.name o.base.toTables o.rows id

def dir_name (o : Overlay) (id : ℕ) : Option ℕ := Namespace.own o.base.toTables o.rows id

def lookup (o : Overlay) (dir : ℕ) (bytes : Bytes) : Option ℕ :=
  Namespace.lookup o.base.toTables o.rows o.keys dir bytes

def roots (o : Overlay) : List (ℕ × Bytes) := Namespace.roots o.base.toTables o.rows

def doc_hash (o : Overlay) (id : ℕ) : Option Hash := o.rows.doc_hash o.base.toTables id

def dormant_hash (o : Overlay) (id : ℕ) : Option Hash := o.rows.dormant_hash o.base.toTables id

def doc_references (o : Overlay) (id : ℕ) : Option ℕ := o.rows.doc_references o.base.toTables id

/-! ## Paths -/

/-- The loop of `root_of` and of `dir_path`: from a directory up along its edges, with the
names passed. To read a name that is dead is a panic. -/
def ascend (o : Overlay) : ℕ → List Bytes → ℕ → Guarded OpenError (ℕ × List Bytes)
  | 0, _, _ => .error .panic
  | fuel + 1, up, dir =>
    match o.dir_name dir with
    | none => return (dir, up)
    | some edge =>
      match o.name edge with
      | none => .error .panic
      | some n => o.ascend fuel (n.bytes :: up) n.parent

/-- The root above a directory. -/
def root_of (o : Overlay) (dir : ℕ) : Guarded OpenError ℕ :=
  return (← o.ascend (o.next_inode + 1) [] dir).1

def push_component (out name : Bytes) : Bytes :=
  (if out.getLast? = some 47 then out else out ++ [47]) ++ name

/-- A directory's path: its root's, then each name below it. -/
def dir_path (o : Overlay) (dir : ℕ) : Guarded OpenError Bytes := do
  let (top, up) ← o.ascend (o.next_inode + 1) [] dir
  return up.foldl push_component ((o.roots.find? (·.1 = top)).elim [] Prod.snd)

end Overlay

end Ferret.Catalog
