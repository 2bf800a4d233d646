import Ferret.Lib.Run
import Ferret.Store.FollowCoverage

/-!
# Merging segments

A merge replaces a run of adjacent segments by one that holds their live
documents, or by none where nothing survives. Runs are chosen by a policy of
sizes; a merge is the same whatever it chose. Several disjoint runs may be
merged at once: they are all written first, and then installed one by one.

A pause asked for during a merge ends it between two publications, as an
error does: it is a prefix of the publications.
-/

namespace Ferret

/-- What a merge did. -/
structure Merged where
  inputs : ℕ
  read : ℕ
  written : ℕ
  purged : ℕ
  records_added : ℕ
  records_removed : ℕ
  segment : Option SegmentEntry
deriving DecidableEq

/-- What merging a run of segments reads and keeps, decided before any input
is opened. -/
structure RunPlan where
  /-- The manifest to publish, with dead unreadable documents dropped. -/
  manifest : Manifest
  read : ℕ
  first : ℕ
  last : ℕ
  /-- Live documents that survive the merge. -/
  docs : ℕ
  purged : ℕ
  input_records : ℕ

/-- Merge inputs, selected from a view. -/
structure MergePlan (v : View) where
  run : Run
  within : run.stop ≤ v.manifest.segments.length

namespace MergePlan

variable {v : View}

def entries (plan : MergePlan v) : List SegmentEntry := plan.run.slice v.manifest.segments

/-- Whether two plans share an input. -/
def overlaps (a b : MergePlan v) : Bool := a.run.start < b.run.stop && b.run.start < a.run.stop

end MergePlan

section

variable (env : Env) (clock : ℕ → ℕ) (live : DocSet) (budget : Budget)

/-- What merging the segments at `run` reads and keeps, or `none` when their
bytes exceed the budget. -/
def plan_run (v : View) (run : Run) : Option RunPlan :=
  let unreadable := v.manifest.unreadable.filter live.contains
  let entries := run.slice v.manifest.segments
  let read := (entries.map SegmentEntry.total_bytes).sum
  let docs := (entries.map fun s => alive s live unreadable).sum
  if budget.bytes < read then none
  else
    match entries.head?, entries.getLast? with
    | some head, some tail =>
      some {
        manifest := { v.manifest with
          last_merge := some (clock v.manifest.sequence)
          unreadable := unreadable }
        read := read
        first := head.first
        last := tail.last
        docs := docs
        purged := (entries.map SegmentEntry.docs).sum - docs
        input_records := ((run.slice v.segments).map fun s => s.records.length).sum }
    | _, _ => none

/-- Streams one output of a merge. -/
def merge_fill (codec : Codec) (plan : RunPlan) (inputs : List Stored) :
    Except WriteError (Draft × Merge.Sizes) := do
  let writer ← Draft.build plan.first plan.last codec
  Merge.stream env.fingerprint (inputs.map Stored.toContents) live writer

/-- Writes the merged segment pair for `run` under the plan's next number,
with the records it added and removed. -/
def write_run (plan : RunPlan) (v : View) (run : Run) :
    Except Error (WrittenPair × Merge.Sizes) := do
  let (terms, sizes) ← (merge_fill env live env.codec plan (run.slice v.segments)).mapError Error.write
  let (trigrams, _) ← (merge_fill env live .dictionary plan (run.slice v.trigrams)).mapError Error.write
  let pair ← prepare_pair env plan.manifest.next_number plan.docs (plan.first, plan.last) terms trigrams
  .ok (pair, sizes)

/-- Publishes `manifest` with the segments at `run` replaced by `merged`, or
dropped when there is none. -/
def replace_run (current : View) (manifest : Manifest) (run : Run) (merged : Option WrittenPair) :
    Writing View :=
  publish { manifest with
      segments := run.splice manifest.segments (merged.map WrittenPair.entry) }
    (run.splice current.segments (merged.map WrittenPair.segment))
    (run.splice current.trigrams (merged.map WrittenPair.trigram))

/-- Merges the segments at `run` into one, if their bytes fit the budget.
Where nothing survives the inputs are dropped without writing: their range
stays below the frontier, so it is not covered again. -/
def merge_run (current : View) (run : Run) : Writing (Option Merged) :=
  match plan_run clock live budget current run with
  | none => pure none
  | some plan =>
    if plan.docs = 0 then do
      let _ ← replace_run current plan.manifest run none
      pure (some {
        inputs := run.len
        read := plan.read
        written := 0
        purged := plan.purged
        records_added := 0
        records_removed := plan.input_records
        segment := none })
    else do
      let (pair, changes) ← Publishing.lift (write_run env live plan current run)
      let manifest := { plan.manifest with next_number := plan.manifest.next_number + 1 }
      let _ ← replace_run current manifest run (some pair)
      pure (some {
        inputs := run.len
        read := plan.read
        written := pair.entry.total_bytes
        purged := plan.purged
        records_added := changes.records_added
        records_removed := changes.records_removed
        segment := some pair.entry })

/-- Executes exactly the selected inputs. -/
def merge_selected (catalog : CatalogView) (current : View) (plan : MergePlan current) :
    Writing (Option Merged) :=
  if current.manifest.fits catalog then merge_run env clock catalog.live budget current plan.run
  else Publishing.lift (.error .staleMerge)

/-- One output of a wave: its plan, and the pair written for it. -/
structure Job (v : View) where
  plan : MergePlan v
  run : RunPlan
  output : Option WrittenPair

/-- Writes the output of one plan, under the `i`th of the next numbers. -/
def write_job {v : View} (i : ℕ) (plan : MergePlan v) : Except Error (Job v) :=
  match plan_run clock live budget v plan.run with
  | none => .error .staleMerge
  | some run =>
    let run := { run with
      manifest := { run.manifest with next_number := run.manifest.next_number + i } }
    if run.docs = 0 then .ok { plan := plan, run := run, output := none }
    else do
      let (pair, _) ← write_run env live run v plan.run
      .ok { plan := plan, run := run, output := some pair }

def write_jobs {v : View} : ℕ → List (MergePlan v) → Except Error (List (Job v))
  | _, [] => .ok []
  | i, plan :: rest => do
    let job ← write_job env clock live budget i plan
    let jobs ← write_jobs (i + 1) rest
    .ok (job :: jobs)

/-- Installs one output where its inputs are now. -/
def install {v : View} (current : View) (job : Job v) : Writing View :=
  match job.plan.entries.head? with
  | none => Publishing.lift (.error .staleMerge)
  | some first =>
    match current.manifest.segments.findIdx? fun entry => entry.number = first.number with
    | none => Publishing.lift (.error .staleMerge)
    | some start =>
      replace_run current
        { current.manifest with
          last_merge := job.run.manifest.last_merge
          unreadable := current.manifest.unreadable.filter live.contains
          next_number := match job.output with
            | some pair => max current.manifest.next_number (pair.entry.number + 1)
            | none => current.manifest.next_number }
        { start := start, stop := start + job.plan.run.len, start_le := Nat.le_add_right .. }
        job.output

def install_all {v : View} (current : View) : List (Job v) → Writing View
  | [] => pure current
  | job :: rest => do
    let current ← install live current job
    install_all current rest

/-- **Merges a wave of disjoint runs**: all are written, then each is installed
and published in plan order. -/
def merge_selected_batch (catalog : CatalogView) (current : View)
    (plans : List (MergePlan current)) : Writing ℕ :=
  if 4 < plans.length ∨ current.manifest.fits catalog = false
      ∨ ¬ plans.Pairwise (fun a b => a.overlaps b = false) then
    Publishing.lift (.error .staleMerge)
  else do
    let jobs ← Publishing.lift (write_jobs env clock catalog.live budget 0 plans)
    let _ ← install_all catalog.live current jobs
    pure jobs.length

end

end Ferret
