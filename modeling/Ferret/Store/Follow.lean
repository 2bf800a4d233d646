import Ferret.Store.Coverage

/-!
# The follow pass

A follow pass reads the live documents at and above the frontier, in order,
into the buffers of a segment. When the buffers fill, it stops, or hands them
to a second thread that writes them while the pass reads on; what it has read
when it ends is published with the frontier it reached.

Writing and publishing can fail at any point, and what was published before
stays: the pass is a `Publishing` computation, of which any prefix of the
publications is a run that was cut short.
-/

namespace Ferret

/-- How the writer was opened: its dictionary codec, the hash behind the
fingerprints, and what the heads of a written pair come to. -/
structure Env where
  codec : Codec
  fingerprint : Bytes → ℕ
  describe : Stored → Stored → Facts

/-- Why an index operation failed. -/
inductive Error
  | write (error : WriteError)
  /-- A segment did not read back as it was written. -/
  | head
  /-- The input view selected for a merge is no longer current. -/
  | staleMerge
deriving DecidableEq

/-- How much one call may do. -/
structure Budget where
  /-- Document bytes a pass may read, or segment bytes a merge may take. -/
  bytes : ℕ
  /-- The postings buffer. -/
  buffer : ℕ
  /-- The most segments one pass may write. -/
  segments : ℕ
deriving DecidableEq

/-- The host's side of a pass: its reader, whether it asks for a pause when a
document is reached, and its clock, by the sequence of the manifest that
takes the time. -/
structure Host where
  read : ℕ → Except Fault Extracted
  cancelled : ℕ → Bool
  clock : ℕ → ℕ

/-- Why a follow pass ended. -/
inductive Stopped
  | covered
  | buffer
  | bytes
  | asked
deriving DecidableEq

/-- What a follow pass did. -/
structure Followed where
  docs : ℕ
  bytes : ℕ
  unreadable : ℕ
  pruned : ℕ
  segment : Option SegmentEntry
  written : ℕ
  stopped : Stopped
  remaining : ℕ
deriving DecidableEq

abbrev Writing (α : Type) := Publishing View Error α

/-- Takes a writer's result. -/
def checked {α : Type} (x : Except WriteError α) : Writing α :=
  Publishing.lift (x.mapError Error.write)

/-- Publishes a manifest with its segments. -/
def publish (manifest : Manifest) (segments trigrams : List Stored) : Writing View :=
  Publishing.publish {
    manifest := { manifest with sequence := manifest.sequence + 1 }
    segments := segments
    trigrams := trigrams }

/-- Publishes a manifest with no segments. -/
def manifest_only (current : View) (manifest : Manifest) : Writing View :=
  publish { manifest with sequence := current.manifest.sequence } [] []

/-- Discards the index when the catalog is not the one it was built against. -/
def reconcile (current : View) (catalog : CatalogView) : Writing View :=
  if current.manifest.fits catalog then pure current
  else manifest_only current (Manifest.empty catalog.incarnation)

/-! ## Buffers -/

namespace PairBuffer

def CAPACITY : ℕ := 3145728

def full (terms : Inverter) (trigrams : TrigramInverter) (bound : ℕ) : Bool :=
  decide (bound ≤ terms.memory + trigrams.len * 16)

def fits (buffered distinct : ℕ) : Bool := decide (buffered + distinct ≤ CAPACITY)

/-- Adds a document's keys if the buffer has room for them. -/
def admit_keys (trigrams : TrigramInverter) (doc : ℕ) (keys : List ℕ) :
    Except WriteError (Option TrigramInverter) :=
  trigrams.add_keys doc keys (some (CAPACITY - trigrams.len))

/-- Adds a document's keys whatever room there is, and says whether they were
too many. -/
def add (trigrams : TrigramInverter) (doc : ℕ) (keys : List ℕ) :
    Except WriteError (TrigramInverter × Bool) := do
  match ← admit_keys trigrams doc keys with
  | some trigrams => .ok (trigrams, false)
  | none => .ok ((← trigrams.add_keys doc keys none).getD trigrams, true)

end PairBuffer

/-- A sealed segment's writers, ready to write as its pair. -/
structure Drained where
  number : ℕ
  docs : ℕ
  range : ℕ × ℕ
  terms : Draft
  trigrams : Draft

/-- Completes the drafts, which are then opened again and described. -/
def prepare_pair (env : Env) (number docs : ℕ) (range : ℕ × ℕ) (terms trigrams : Draft) :
    Except Error WrittenPair :=
  match Stored.ofDraft env.codec terms, Stored.ofDraft .dictionary trigrams with
  | some segment, some trigram =>
    if (segment.first, segment.last) = range ∧ (trigram.first, trigram.last) = range then
      .ok {
        entry := { env.describe segment trigram with
          number := number
          first := range.1
          last := range.2
          docs := docs }
        segment := segment
        trigram := trigram }
    else .error .head
  | _, _ => .error .head

def Drained.write (env : Env) (d : Drained) : Except Error WrittenPair := do
  let terms ← d.terms.finish.mapError Error.write
  let trigrams ← d.trigrams.finish.mapError Error.write
  prepare_pair env d.number d.docs d.range terms trigrams

/-! ## The pass -/

/-- **A follow pass's progress**: the manifest it will publish, what it has
done, and the segment it is filling. -/
structure Pass where
  manifest : Manifest
  followed : Followed
  inverter : Inverter
  trigrams : TrigramInverter
  /-- The current segment's range and document count. -/
  range : Option (ℕ × ℕ)
  docs : ℕ
  frontier : ℕ
  /-- Whether the current segment holds one document too big for the trigram
  buffer. -/
  oversized : Bool
  /-- Segments this pass has published from a second thread. -/
  published : ℕ

/-- What a follow pass does before reading its next document. -/
inductive Next
  | read
  /-- Hand the full buffers to a second thread to write, then read on. -/
  | handOff
  | stop (stopped : Stopped)
deriving DecidableEq

namespace Pass

/-- A pass over `live`, whose unreadable documents the catalog has since
dropped are pruned. -/
def new (manifest : Manifest) (live : DocSet) : Pass :=
  let unreadable := manifest.unreadable.filter live.contains
  { manifest := { manifest with unreadable := unreadable }
    followed := {
      docs := 0
      bytes := 0
      unreadable := 0
      pruned := manifest.unreadable.length - unreadable.length
      segment := none
      written := 0
      stopped := .covered
      remaining := 0 }
    inverter := .new
    trigrams := .new
    range := none
    docs := 0
    frontier := live.bound
    oversized := false
    published := 0 }

/-- Whether to read a document, hand off first, or stop before it. The first
is read before the pause is consulted. -/
def next (p : Pass) (extracted : Except Fault Extracted) (budget : Budget)
    (cancelled writing : Bool) : Next :=
  if p.followed.docs + p.followed.unreadable ≠ 0 ∧ cancelled then .stop .asked
  else
    let overflows := match extracted with
      | .ok e => !PairBuffer.fits p.trigrams.len e.keys.length
      | .error _ => false
    let full := p.docs ≠ 0 && (overflows || PairBuffer.full p.inverter p.trigrams budget.buffer)
    let hand_off := full && p.followed.bytes < budget.bytes
      && p.published + writing.toNat + 1 < budget.segments
    if (p.docs ≠ 0 && budget.bytes ≤ p.followed.bytes) || (full && !hand_off) then
      .stop (if full then .buffer else .bytes)
    else if hand_off then .handOff
    else .read

/-- Stops the pass with `frontier` as the first document left unread. -/
def stop (p : Pass) (stopped : Stopped) (frontier : ℕ) : Pass :=
  { p with
    followed := { p.followed with stopped := stopped }
    frontier := frontier }

/-- The current segment reaches `doc`. A document too big for the buffer
closes it. -/
def reach (p : Pass) (doc : ℕ) : Pass × Bool :=
  let p := { p with range := some ((p.range.map Prod.fst).getD doc, doc) }
  if p.oversized then (p.stop .buffer (doc + 1), false) else (p, true)

/-- Adds `doc` to the current segment, or to the unreadable set; with whether
to read on. -/
def add (p : Pass) (doc : ℕ) : Except Fault Extracted → Except WriteError (Pass × Bool)
  | .ok x => do
    let (trigrams, oversized) ← PairBuffer.add p.trigrams doc x.keys
    let inverter ← x.terms.foldlM (fun i t => i.add doc t) p.inverter
    .ok ({ p with
      trigrams := trigrams
      inverter := inverter
      oversized := p.oversized || oversized
      docs := p.docs + 1
      followed := { p.followed with
        docs := p.followed.docs + 1
        bytes := p.followed.bytes + x.len } }.reach doc)
  | .error .unreadable =>
    .ok ({ p with
      manifest := { p.manifest with unreadable := p.manifest.unreadable ++ [doc] }
      followed := { p.followed with unreadable := p.followed.unreadable + 1 } }.reach doc)
  | .error .stop => .ok (p.stop .asked doc, false)

/-- Drains the current segment's buffers over `range` as the next segment
number's writers, leaving both empty. -/
def seal_segment (env : Env) (p : Pass) (range : ℕ × ℕ) : Except WriteError (Drained × Pass) := do
  let terms ← p.inverter.drain_into_codec env.fingerprint range.1 range.2 env.codec
  let trigrams ← p.trigrams.drain_into env.fingerprint range.1 range.2
  .ok ({ number := p.manifest.next_number
         docs := p.docs
         range := range
         terms := terms
         trigrams := trigrams },
       { p with
         manifest := { p.manifest with next_number := p.manifest.next_number + 1 }
         inverter := .new
         trigrams := .new
         docs := 0 })

end Pass

/-- The pass, the full buffer's files being written on their own thread with
the frontier to publish with them, and the writer's view. -/
structure Following where
  pass : Pass
  writing : Option (Except Error WrittenPair × ℕ)
  current : View

section

variable (env : Env) (host : Host) (budget : Budget) (live : DocSet)

namespace Following

/-- Publishes a segment that was written on a second thread, with the frontier
the pass had reached when it handed the segment over. Documents found
unreadable since are past that frontier. -/
def publish_written (f : Following) (written : Except Error WrittenPair) (frontier : ℕ) :
    Writing Following := do
  let pair ← Publishing.lift written
  let manifest := { f.pass.manifest with
    segments := f.pass.manifest.segments ++ [pair.entry]
    frontier := frontier
    high_water := max f.pass.manifest.high_water live.bound }
  let stopped := { manifest with
    last_follow := some (host.clock manifest.sequence)
    unreadable := manifest.unreadable.filter (· < frontier) }
  let view ← publish stopped (f.current.segments ++ [pair.segment])
    (f.current.trigrams ++ [pair.trigram])
  pure {
    pass := { f.pass with
      manifest := { manifest with sequence := view.manifest.sequence }
      followed := { f.pass.followed with
        segment := some pair.entry
        written := f.pass.followed.written + pair.entry.total_bytes }
      published := f.pass.published + 1 }
    writing := none
    current := view }

/-- Publishes the segment being written, if there is one. -/
def publish_writing (f : Following) : Writing Following :=
  match f.writing with
  | none => pure f
  | some (written, frontier) => f.publish_written host live written frontier

/-- Hands the full buffers over before `doc`. -/
def hand_off (f : Following) (doc : ℕ) : Writing Following :=
  match f.pass.range with
  | none => pure f
  | some range => do
    let f ← f.publish_writing host live
    let (drained, pass) ← checked (f.pass.seal_segment env range)
    pure { f with pass := { pass with range := none }, writing := some (drained.write env, doc) }

/-- Adds a document; with whether to read on. -/
def add (f : Following) (doc : ℕ) : Writing (Following × Bool) := do
  let (pass, go) ← checked (f.pass.add doc (host.read doc))
  pure ({ f with pass := pass }, go)

/-- One document of the pass. -/
def step (f : Following) (doc : ℕ) : Writing (Following × Bool) :=
  match f.pass.next (host.read doc) budget (host.cancelled doc) f.writing.isSome with
  | .stop stopped => pure ({ f with pass := f.pass.stop stopped doc }, false)
  | .handOff => do
    let f ← f.hand_off env host live doc
    f.add host doc
  | .read => f.add host doc

/-- The documents of the pass, in order, until it stops. -/
def consume (f : Following) : List ℕ → Writing Following
  | [] => pure f
  | doc :: rest => do
    let (f, go) ← f.step env host budget live doc
    match go with
    | true => consume f rest
    | false => pure f

/-- The segment of what was read since the last one. -/
def last_segment (p : Pass) : Except Error (Option WrittenPair × Pass) :=
  match p.range with
  | none => .ok (none, p)
  | some range => do
    let (drained, p) ← (p.seal_segment env range).mapError Error.write
    let pair ← drained.write env
    .ok (some pair, { p with
      followed := { p.followed with
        segment := some pair.entry
        written := p.followed.written + pair.entry.total_bytes } })

/-- Publishes what a pass read since its last published segment, unless it
read, skipped and pruned nothing. -/
def publish_pass (f : Following) : Writing Followed :=
  let followed := { f.pass.followed with remaining := live.count f.pass.frontier live.bound }
  if f.pass.range = none ∧ f.pass.frontier = f.pass.manifest.frontier
      ∧ f.pass.followed.pruned = 0 then pure followed
  else do
    let (pair, p) ← Publishing.lift (last_segment env f.pass)
    let manifest := { p.manifest with
      segments := p.manifest.segments ++ (pair.map WrittenPair.entry).toList
      last_follow := some (host.clock p.manifest.sequence)
      frontier := f.pass.frontier
      high_water := max p.manifest.high_water live.bound }
    let _ ← publish manifest (f.current.segments ++ (pair.map WrittenPair.segment).toList)
      (f.current.trigrams ++ (pair.map WrittenPair.trigram).toList)
    pure { p.followed with remaining := live.count f.pass.frontier live.bound }

end Following

/-- **Covers uncovered live documents in ascending order, up to the budget**,
from a view that fits the catalog. -/
def follow_pass (current : View) : Writing Followed := do
  let pass := Pass.new current.manifest live
  let f ← Following.consume env host budget live { pass := pass, writing := none, current := current }
    (live.range pass.manifest.frontier live.bound)
  let f ← f.publish_writing host live
  f.publish_pass env host live

/-- The whole call. -/
def follow_inner (catalog : CatalogView) (current : View) : Writing Followed := do
  let current ← reconcile current catalog
  follow_pass env host budget catalog.live current

end

end Ferret
