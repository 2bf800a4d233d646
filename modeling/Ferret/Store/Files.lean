import Ferret.Store.Runs

/-!
# The index directory

The store's operations as the file calls they make. Every output of a pair is
written to a temporary and synced; both are renamed into place and the
directory is synced; only then is a new manifest written, renamed over the
old one, and the directory synced again. Segments that a merge replaced are
unlinked after that.

A call can fail, with or without its effect, and the process can stop between
any two calls. After a failure the writer removes the files its manifest does
not name, unless the manifest was being published: then it cannot know which
manifest is in place, and removes nothing.
-/

namespace Ferret

/-- The names in the index directory, other than the manifest's. -/
inductive Name
  | segment (first last number : ℕ) (tri : Bool)
  /-- A temporary output of a pair. -/
  | temp (number : ℕ) (tri : Bool)
  /-- A merge's postings scratch. -/
  | postings (number : ℕ) (tri : Bool)
  | manifestTemp
  /-- Another name that starts as a segment's or a temporary's does. -/
  | stray (name : String)
  | other (name : String)
deriving DecidableEq

/-- The names `remove_unnamed` may remove. -/
def Name.ours : Name → Bool
  | other _ => false
  | _ => true

/-- The names of a pair's two files. -/
def SegmentEntry.file_name (e : SegmentEntry) (tri : Bool) : Name :=
  .segment e.first e.last e.number tri

def WrittenPair.file (p : WrittenPair) (tri : Bool) : Stored :=
  if tri then p.trigram else p.segment

/-- What a file holds. -/
inductive File
  /-- Created, and not yet written and synced. -/
  | unfinished
  | segment (contents : Stored)
  | manifest (m : Manifest)

/-- **The index directory**: its files, and the manifest in place, if there is
one that reads. -/
structure Dir where
  files : Name → Option File
  manifest : Option Manifest

/-- The calls on the directory. -/
inductive Call
  | unlink (name : Name)
  | create (name : Name)
  /-- Writes a file and syncs it. -/
  | fill (name : Name) (contents : File)
  | rename (source target : Name)
  /-- Renames the manifest's temporary over the manifest. -/
  | renameManifest
  | syncDir

namespace Call

/-- The effect of a call. -/
def apply (d : Dir) : Call → Dir
  | unlink n => { d with files := Function.update d.files n none }
  | create n => { d with files := Function.update d.files n (some .unfinished) }
  | fill n f => { d with files := Function.update d.files n (some f) }
  | rename a b => { d with
      files := Function.update (Function.update d.files b (d.files a)) a none }
  | renameManifest =>
    { files := Function.update d.files .manifestTemp none
      manifest := match d.files .manifestTemp with
        | some (.manifest m) => some m
        | _ => none }
  | syncDir => d

/-- Whether a call can change what is at a name. -/
def touches : Call → Name → Bool
  | unlink n, m => n = m
  | create n, m => n = m
  | fill n _, m => n = m
  | rename a b, m => a = m || b = m
  | renameManifest, m => m = .manifestTemp
  | syncDir, _ => false

/-- Calls on temporaries and scratch files only. -/
def temporary : Call → Bool
  | unlink (.temp ..) | create (.temp ..) | fill (.temp ..) _ => true
  | unlink (.postings ..) | create (.postings ..) | fill (.postings ..) _ => true
  | _ => false

end Call

/-- What an operation does next. -/
inductive Act
  /-- A call whose failure ends the operation. -/
  | call (c : Call)
  /-- A call whose failure is ignored. -/
  | attempt (c : Call)
  /-- From here a manifest is being published. -/
  | publishing
  /-- The publication is done, and its view is the writer's. -/
  | commit (v : View)
  /-- Removes what the writer's manifest does not name. -/
  | sweep

/-- A new, empty file at a temporary's name. -/
def replace (n : Name) : List Act := [.call (.unlink n), .call (.create n)]

/-- Gives both files of a pair their names. -/
def install_pair (p : WrittenPair) : List Act :=
  [.call (.rename (.temp p.entry.number false) (p.entry.file_name false)),
   .call (.rename (.temp p.entry.number true) (p.entry.file_name true)),
   .call .syncDir]

/-- Replaces the directory's manifest. -/
def publish_manifest (v : View) : List Act :=
  [.publishing] ++ replace .manifestTemp
    ++ [.call (.fill .manifestTemp (.manifest v.manifest)), .call .renameManifest, .call .syncDir,
      .commit v]

/-- Unlinks merged-away segments. -/
def retire (entries : List SegmentEntry) : List Act :=
  entries.flatMap fun e =>
    [.attempt (.unlink (e.file_name false)), .attempt (.unlink (e.file_name true))]

/-- The pairs a publication adds. -/
def written (v w : View) : List WrittenPair :=
  w.pairs.filter fun p => p.entry ∉ v.manifest.segments

/-- The entries a publication drops. -/
def retired (v w : View) : List SegmentEntry :=
  v.manifest.segments.filter fun e => e ∉ w.manifest.segments

/-- Whether calls leave both temporaries of a pair written: the last call on
each is the one that fills it. -/
def Prepares (calls : List Call) (p : WrittenPair) : Prop :=
  ∀ tri, ∃ before after,
    calls = before ++ .fill (.temp p.entry.number tri) (.segment (p.file tri)) :: after
      ∧ ∀ c ∈ after, c.touches (.temp p.entry.number tri) = false

/-- **The acts of an operation that publishes the views of a list**, one after
another. Before a publication the outputs it names have been written, by
calls in whatever order the threads that made them took; `ready` are those
written and not yet installed. After it the replaced segments are retired or,
where the index was discarded, everything unnamed is removed. -/
inductive Script : View → List WrittenPair → List View → List Act → Prop
  | done (v : View) (ready : List WrittenPair) : Script v ready [] []
  | prepare {v : View} {ready : List WrittenPair} {views : List View} {todo : List Act}
    (calls : List Call) (new : List WrittenPair) (temporary : ∀ c ∈ calls, c.temporary = true)
    (apart : ∀ p ∈ ready, ∀ tri, ∀ c ∈ calls, c.touches (.temp p.entry.number tri) = false)
    (prepares : ∀ p ∈ new, Prepares calls p) (rest : Script v (new ++ ready) views todo) :
    Script v ready views (calls.map .call ++ todo)
  | publish {v w : View} {ready ready' : List WrittenPair} {views : List View} {todo : List Act}
    (after : List Act) (prepared : ∀ p ∈ written v w, p ∈ ready)
    (left : ∀ p ∈ ready', p ∈ ready ∧ ∀ q ∈ written v w, q.entry.number ≠ p.entry.number)
    (ending : after = retire (retired v w) ∨ after = [.sweep] ∧ ready' = [])
    (rest : Script w ready' views todo) :
    Script v ready (w :: views) ((written v w).flatMap install_pair ++ publish_manifest w ++ after ++ todo)

/-- A file `remove_unnamed` removes. -/
def Unnamed (v : View) (n : Name) : Prop :=
  n.ours = true ∧ ∀ e ∈ v.manifest.segments, ∀ tri, e.file_name tri ≠ n

/-! ## Opening -/

/-- The segments of one kind that entries name. -/
def read_segments (d : Dir) (tri : Bool) : List SegmentEntry → Option (List Stored)
  | [] => some []
  | e :: rest =>
    match d.files (e.file_name tri) with
    | some (.segment s) => (read_segments d tri rest).map (s :: ·)
    | _ => none

/-- Opens every segment pair a manifest names. -/
def open_pairs (d : Dir) (m : Manifest) : Option View :=
  match read_segments d false m.segments, read_segments d true m.segments with
  | some segments, some trigrams => some { manifest := m, segments := segments, trigrams := trigrams }
  | _, _ => none

/-- What is on disk: no manifest, or one whose every segment is there, complete. -/
def OnDisk (d : Dir) : Option View → Prop
  | none => d.manifest = none
  | some v => d.manifest = some v.manifest ∧ open_pairs d v.manifest = some v

/-! ## Runs -/

/-- The writer. -/
inductive Mem
  /-- There is none: it stopped, or was never opened. -/
  | closed
  | idle (current : View)
  | poisoned
  /-- In an operation, after the publication of `disk`. An error in an opening
  leaves no writer; `guarded` says it is not one. -/
  | busy (guarded : Bool) (disk : Option View) (publishing : Bool) (todo : List Act)
  /-- Removing what a failed operation left. -/
  | sweeping (current : View) (poison : Bool)

structure State where
  dir : Dir
  mem : Mem

/-- What a failed operation leaves of the writer. A pause does not poison it. -/
def failed (guarded : Bool) (disk : Option View) (publishing poison : Bool) : Mem :=
  match guarded, publishing, disk with
  | true, false, some v => .sweeping v poison
  | true, true, _ => .poisoned
  | _, _, _ => .closed

/-- The view being published next. -/
def pending : List Act → Option View
  | [] => none
  | .commit v :: _ => some v
  | _ :: rest => pending rest

/-- **One step of a run**: a call, its failure, or the end of the process. -/
inductive Step (fingerprint : Bytes → ℕ) : State → State → Prop
  | crash (σ : State) : Step fingerprint σ { σ with mem := .closed }
  | reopen {d : Dir} {v : View} (found : OnDisk d (some v)) :
    Step fingerprint ⟨d, .closed⟩ ⟨d, .busy false (some v) false [.sweep]⟩
  | discard {d : Dir} {disk : Option View} (found : OnDisk d disk) (catalog : CatalogView)
    {w : View}
    (view : (manifest_only (View.blank catalog.incarnation)
      (Manifest.empty catalog.incarnation)).published = [w]) :
    Step fingerprint ⟨d, .closed⟩ ⟨d, .busy false disk false (publish_manifest w ++ [.sweep])⟩
  | start {d : Dir} {v : View} {env : Env} (hash : env.fingerprint = fingerprint)
    (catalog : CatalogView) {op : Op v} (opened : ∀ readable, op ≠ .openIndex readable)
    (ready : op.Ready env) {todo : List Act} (script : Script v [] (op.published env catalog) todo) :
    Step fingerprint ⟨d, .idle v⟩ ⟨d, .busy true (some v) false todo⟩
  | call {d : Dir} {g p : Bool} {disk : Option View} {c : Call} {todo : List Act} :
    Step fingerprint ⟨d, .busy g disk p (.call c :: todo)⟩ ⟨c.apply d, .busy g disk p todo⟩
  | attempt {d d' : Dir} {g p : Bool} {disk : Option View} {c : Call} {todo : List Act}
    (left : d' = d ∨ d' = c.apply d) :
    Step fingerprint ⟨d, .busy g disk p (.attempt c :: todo)⟩ ⟨d', .busy g disk p todo⟩
  | publishing {d : Dir} {g p : Bool} {disk : Option View} {todo : List Act} :
    Step fingerprint ⟨d, .busy g disk p (.publishing :: todo)⟩ ⟨d, .busy g disk true todo⟩
  | commit {d : Dir} {g p : Bool} {disk : Option View} {v : View} {todo : List Act} :
    Step fingerprint ⟨d, .busy g disk p (.commit v :: todo)⟩ ⟨d, .busy g (some v) false todo⟩
  | sweepOne {d : Dir} {g p : Bool} {v : View} {n : Name} {todo : List Act} (unnamed : Unnamed v n) :
    Step fingerprint ⟨d, .busy g (some v) p (.sweep :: todo)⟩
      ⟨(Call.unlink n).apply d, .busy g (some v) p (.sweep :: todo)⟩
  | sweepDone {d : Dir} {g p : Bool} {disk : Option View} {todo : List Act} :
    Step fingerprint ⟨d, .busy g disk p (.sweep :: todo)⟩ ⟨d, .busy g disk p todo⟩
  | finish {d : Dir} {g p : Bool} {v : View} :
    Step fingerprint ⟨d, .busy g (some v) p []⟩ ⟨d, .idle v⟩
  | fail {d d' : Dir} {g p poison : Bool} {disk : Option View} {todo : List Act}
    (left : d' = d ∨ ∃ c rest, todo = .call c :: rest ∧ d' = c.apply d) :
    Step fingerprint ⟨d, .busy g disk p todo⟩ ⟨d', failed g disk p poison⟩
  | cleanOne {d : Dir} {v : View} {n : Name} {poison : Bool} (unnamed : Unnamed v n) :
    Step fingerprint ⟨d, .sweeping v poison⟩ ⟨(Call.unlink n).apply d, .sweeping v poison⟩
  | cleanFailed {d : Dir} {v : View} {poison : Bool} :
    Step fingerprint ⟨d, .sweeping v poison⟩ ⟨d, .poisoned⟩
  | cleanDone {d : Dir} {v : View} {poison : Bool} :
    Step fingerprint ⟨d, .sweeping v poison⟩ ⟨d, if poison then .poisoned else .idle v⟩

/-- **The states of a run** from a directory without a manifest. -/
inductive Runs (fingerprint : Bytes → ℕ) : State → Prop
  | start (files : Name → Option File) : Runs fingerprint ⟨⟨files, none⟩, .closed⟩
  | step {σ τ : State} (before : Runs fingerprint σ) (step : Step fingerprint σ τ) :
    Runs fingerprint τ

end Ferret
