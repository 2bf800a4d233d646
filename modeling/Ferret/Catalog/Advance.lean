import Ferret.Catalog.Validate

/-!
# Advancing a view, and replaying a log

`advance_with_sniffer` takes a checked view one change set further. The rows
before it were validated, so only those of the change set are. The first
transaction over a checkpoint has no such predecessor: the checkpoint is
replayed without a record, and then every row is validated.

`reopen` is what a reader does with a log. It replays each family on its own,
over all transactions, and validates the rows that are left.
-/

namespace Ferret.Catalog

open Guarded

/-! ## One change set -/

/-- **The view after some records**, checked against the view before. -/
def Overlay.load_delta (o : Overlay) (manifest : Manifest) (records : List Record) :
    Guarded OpenError Overlay := do
  let base := o.base.toTables
  let (inodes, dirs) ← check_inodes base o.rows records o.next_inode manifest.counters.inode.toNat
    o.manifest.counts.inodes.toNat o.manifest.counts.dirs.toNat
  ensure (inodes = manifest.counts.inodes.toNat ∧ dirs = manifest.counts.dirs.toNat)
    (corrupt "live inode/directory counts")
  let before ← if o.checked then pure o.replay else o.replay.apply base o.next_name []
  -- without a record of the namespace, the predecessor's is shared as it is
  let names ←
    if records.any (·.family = .nameSpace) then do
      let names ← before.apply base manifest.counters.name.toNat records
      ensure (names.count = manifest.counts.names.toNat) (corrupt "live name count")
      pure names
    else pure before
  let docs ← check_docs base o.rows records o.next_doc manifest.counters.doc.toNat
    o.manifest.counts.docs.toNat
  ensure (docs = manifest.counts.docs.toNat) (corrupt "live document count")
  let dormant ← advance_dormant base o.rows o.dormant records
  let view : Overlay :=
    { base := o.base
      manifest := manifest
      rows := o.rows.apply records
      keys := names.keys
      touched := names.touched
      references := names.references
      dormant := dormant
      checked := true }
  view.check_fields
  if o.checked then do
    view.check_records records
    view.validate_delta o records
  else do
    view.check_rows
    view.validate_all
  return view

inductive AdvanceError
  | stale (current : Generation)
  | invalid (e : DecodeError)
  | previous (e : OpenError)
deriving DecidableEq

instance (a b : Counters) : Decidable (a.Le b) := inferInstanceAs (Decidable (_ ∧ _))

/-- The manifest of a view after a change set. -/
def Manifest.advance (m : Manifest) (changes : ChangeSet) (sniffer : UInt32) : Manifest :=
  { m with
    generation := { m.generation with sequence := m.generation.sequence + 1 }
    sniffer := sniffer
    counters := changes.counters
    counts := changes.counts }

/-- **`Catalog::advance_with_sniffer`**: applies one checked transaction. -/
def Overlay.advance_with_sniffer (C : Checksum) (o : Overlay) (expected : Generation)
    (changes : ChangeSet) (sniffer : UInt32) : Guarded AdvanceError Overlay := do
  ensure (o.manifest.generation = expected) (.stale o.manifest.generation)
  if changes.records = [] then do
    ensure (changes.counters = o.manifest.counters ∧ changes.counts = o.manifest.counts)
      (.invalid (.corrupt "empty change set counters"))
    return o
  else do
    ensure (expected.sequence.toNat + 1 < 2 ^ 64 - 1) (.invalid (.corrupt "sequence exhausted"))
    ensure (o.manifest.counters.Le changes.counters)
      (.invalid (.corrupt "allocation counters decreased"))
    let manifest := o.manifest.advance changes sniffer
    let _ ← map_err .invalid (Manifest.decode C (manifest.encode C))
    let _ ← map_err .invalid (checked_size changes manifest.generation.sequence)
    map_err .previous (o.load_delta manifest changes.records)

/-! ## A log -/

/-- One transaction of a log. -/
structure Frame where
  counters : Counters
  records : List Record

/-- The inodes of a log so far. -/
structure InodesLoading where
  rows : Projection := {}
  counter : ℕ
  inodes : ℕ
  dirs : ℕ

def InodesLoading.frame (base : Tables) (s : InodesLoading) (f : Frame) :
    Guarded OpenError InodesLoading := do
  let (inodes, dirs) ← check_inodes base s.rows f.records s.counter f.counters.inode.toNat
    s.inodes s.dirs
  return {
    rows := s.rows.apply f.records
    counter := f.counters.inode.toNat
    inodes := inodes
    dirs := dirs }

/-- The documents of a log so far. -/
structure DocsLoading where
  rows : Projection := {}
  counter : ℕ
  docs : ℕ
  dormant : DormantState

def DocsLoading.frame (base : Tables) (s : DocsLoading) (f : Frame) :
    Guarded OpenError DocsLoading := do
  let docs ← check_docs base s.rows f.records s.counter f.counters.doc.toNat s.docs
  let dormant ← advance_dormant base s.rows s.dormant f.records
  return {
    rows := s.rows.apply f.records
    counter := f.counters.doc.toNat
    docs := docs
    dormant := dormant }

def NameReplay.frame (base : Tables) (s : NameReplay) (f : Frame) : Guarded OpenError NameReplay :=
  s.apply base f.counters.name.toNat f.records

/-- **The view of a checkpoint and a log**, every family loaded and validated. A log
without a transaction leaves the checkpoint. -/
def Overlay.reopen (base : Checkpoint) (manifest : Manifest) (frames : List Frame) :
    Guarded OpenError Overlay := do
  if frames = [] then return Overlay.empty base
  else do
    let start := Overlay.empty base
    let inodes ← frames.foldlM (InodesLoading.frame base.toTables)
      { counter := base.inodes.length, inodes := base.inodes.length, dirs := base.dirs.length }
    ensure (inodes.inodes = manifest.counts.inodes.toNat ∧
      inodes.dirs = manifest.counts.dirs.toNat) (corrupt "live inode/directory counts")
    let names ← frames.foldlM (NameReplay.frame base.toTables) start.replay
    ensure (names.count = manifest.counts.names.toNat) (corrupt "live name count")
    let docs ← frames.foldlM (DocsLoading.frame base.toTables)
      { counter := base.next_doc, docs := base.docs.length, dormant := start.dormant }
    ensure (docs.docs = manifest.counts.docs.toNat) (corrupt "live document count")
    let view : Overlay :=
      { base := base
        manifest := manifest
        rows := names.rows
        keys := names.keys
        touched := names.touched
        references := names.references
        dormant := docs.dormant
        checked := true }
    view.check_fields
    view.check_rows
    view.validate_all
    return view

end Ferret.Catalog
