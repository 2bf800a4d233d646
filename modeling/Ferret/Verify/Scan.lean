import Ferret.Catalog.Record
import Ferret.Index.Kleene

/-!
# Verifying the rows of a content query

The candidate names of a query are an array of positions. A position that the
index leaves undecided is settled by reading its document: by the thread that
handles the first of the document's names in the run, its *owner*, whose
answers the later names use if their own file is still the catalogued
version. What handling a position leaves is an `Item`; the calling thread
consumes the items in order, counts them, and emits the rows that hold.

The documents do not change while the query runs, so a read of a name is a
value: `Host.verify` and `Host.stat` are what every thread finds. Two maps are
shared by the threads, each entry behind its own lock: `owners`, a cache of
which name owns a document, and `found`, the answers the owners have found so
far.
-/

namespace Ferret.Verify

abbrev NameId := ℕ
abbrev Doc := ℕ

/-- The first match of each content atom, if it has one. -/
abbrev Answers := List (Option ℕ)

structure Row where
  path : List UInt8
  name : NameId
  inode : ℕ
  kind : Catalog.Kind
  offset : Option ℕ
deriving DecidableEq

inductive ContentAtom
  | text
  | grep
deriving DecidableEq

inductive ReadVersion
  | catalogued
  | current
deriving DecidableEq

/-- What the matchers did. -/
structure MatchStats where
  regex_documents : ℕ
  regex_bytes : ℕ
  regex_rejected : ℕ
  documents : ℕ
  rejected : ℕ
  whole : ℕ
  tokenized : ℕ
deriving DecidableEq

def MatchStats.default : MatchStats := ⟨0, 0, 0, 0, 0, 0, 0⟩

def MatchStats.add (sum more : MatchStats) : MatchStats where
  regex_documents := sum.regex_documents + more.regex_documents
  regex_bytes := sum.regex_bytes + more.regex_bytes
  regex_rejected := sum.regex_rejected + more.regex_rejected
  documents := sum.documents + more.documents
  rejected := sum.rejected + more.rejected
  whole := sum.whole + more.whole
  tokenized := sum.tokenized + more.tokenized

/-- One document read and matched. -/
inductive Outcome
  | unread
  | stopped (work : MatchStats)
  | read (version : ReadVersion) (answers : Answers) (work : MatchStats)
deriving DecidableEq

/-- A query's atoms, and its residual at a row given a truth value for each
content test. -/
structure Query where
  atoms : List ContentAtom
  eval_residual : Row → (ℕ → Kleene) → Kleene

/-- What the threads find: the tests of a name before its content, a stat of
its file, and a read of it with every atom run over it. -/
structure Host (ε : Type) where
  test : NameId → Except ε (Option Row)
  stat : NameId → Option ReadVersion
  verify : NameId → Outcome

/-- The run's names and what each position needs. `names` lists the names of
each document in ascending order, and `doc` is the live document of a name; a
row that passes the tests is of the name tested, and of its document. -/
structure Scan (ε : Type) where
  query : Query
  host : Host ε
  ids : List NameId
  docs : List Doc
  table : List (Option Certainty)
  width : ℕ
  /-- The live document a name names. -/
  doc_of : NameId → Option Doc
  /-- The document of an inode. -/
  doc : ℕ → Option Doc
  names : Doc → List NameId
  names_sorted : ∀ d, (names d).Pairwise (· < ·)
  mem_names : ∀ {id d}, id ∈ ids → (id ∈ names d ↔ doc_of id = some d)
  test_row : ∀ {id row}, host.test id = .ok (some row) → row.name = id ∧ doc row.inode = doc_of id

def OWNER_SCAN : ℕ := 16

/-- Whether a row holds given its document's answers, and if so its offset:
the first match of a `grep:` atom. -/
def holds (query : Query) (row : Row) (answers : Answers) : Option (Option ℕ) :=
  let offset := ((answers.zip query.atoms).filterMap fun (answer, atom) =>
    match atom with
    | .grep => answer
    | .text => none).min?
  let truth := query.eval_residual row fun i =>
    if ((answers[i]?).getD none).isSome then .yes else .no
  if truth = .yes then some offset else none

/-- How a row was left for the calling thread. -/
inductive How
  | holds
  | read (doc : Doc) (outcome : Outcome) (holds : Option (Option ℕ))
  | cached (doc : Doc) (holds : Option (Option ℕ))
  | gone (doc : Doc)
  | again (doc : Doc) (outcome : Outcome) (holds : Option (Option ℕ))
  | here (doc : Doc)
deriving DecidableEq

/-- What one position left for the calling thread. -/
inductive Item (ε : Type)
  | skip
  | failed (error : ε)
  | row (row : Row) (doc : Option Doc) (how : How)

/-- Which name owns a document, where it was looked up. -/
abbrev Owners := Doc → Option NameId

/-- What the owners of documents with more names found: their answers, if the
read was of the catalogued version. -/
abbrev Found := Doc → Option (Option Answers)

namespace Scan

variable {ε : Type} (scan : Scan ε)

/-! ## Owners -/

/-- The first position of a name of each document, and the documents with
more, over the names from position `pos` on. -/
def indexFrom : List NameId → ℕ → (Doc → Option ℕ) × (Doc → Bool) →
    (Doc → Option ℕ) × (Doc → Bool)
  | [], _, found => found
  | id :: ids, pos, (first, repeated) =>
    match scan.doc_of id with
    | none => indexFrom ids (pos + 1) (first, repeated)
    | some d =>
      match first d with
      | none => indexFrom ids (pos + 1) (Function.update first d (some pos), repeated)
      | some _ => indexFrom ids (pos + 1) (first, Function.update repeated d true)

/-- Built when the names are not in ascending order. -/
def index : (Doc → Option ℕ) × (Doc → Bool) :=
  scan.indexFrom scan.ids 0 (fun _ => none, fun _ => false)

def sorted : Bool := decide (scan.ids.Pairwise (· ≤ ·))

def in_run (name : NameId) : Bool := decide (name ∈ scan.ids)

/-- Whether position `pos`, whose name is `id`, holds the first name of a
document, and what to remember of it. -/
def owns (owners : Owners) (pos : ℕ) (id : NameId) (d : Doc) : Bool × Option NameId :=
  if scan.sorted then
    let names := scan.names d
    let before := (names.takeWhile (· < id)).length
    if before ≤ OWNER_SCAN then (!(names.take before).any scan.in_run, none)
    else
      match owners d with
      | some first => (first = id, none)
      | none =>
        let first := ((names.take (before + 1)).find? scan.in_run).getD id
        (first = id, some first)
  else (scan.index.1 d = some pos, none)

/-- Whether a document may be asked for again. -/
def is_repeated (d : Doc) : Bool :=
  if scan.sorted then 1 < (scan.names d).length else scan.index.2 d

/-! ## Handling a position -/

/-- The index's answer for an atom on a document. -/
def probe (d : Doc) (i : ℕ) : Option Certainty :=
  (scan.docs.idxOf? d).bind fun j => (scan.table[j * scan.width + i]?).join

/-- A row's residual, with content tests answered by the index. -/
def truth (row : Row) (d : Option Doc) : Kleene :=
  scan.query.eval_residual row fun i =>
    match d.bind (scan.probe · i) with
    | none => .no
    | some .maybe => .maybe
    | some .yes => .yes

/-- Whether a read's answers make a row hold. -/
def read_holds (row : Row) : Outcome → Option (Option ℕ)
  | .read _ answers _ => Verify.holds scan.query row answers
  | _ => none

/-- A position before its document is looked at: nothing to do, a row that the
index decides, or a row of a document to settle. -/
inductive Test (ε : Type)
  | item (item : Item ε)
  | maybe (row : Row) (doc : Doc)

/-- The tests of a position's name, and the index truth of its row. -/
def test (id : NameId) : Test ε :=
  match scan.host.test id with
  | .error e => .item (.failed e)
  | .ok none => .item .skip
  | .ok (some row) =>
    match scan.truth row (scan.doc row.inode), scan.doc row.inode with
    | .no, _ => .item .skip
    | .maybe, none => .item .skip
    | .yes, d => .item (.row row d .holds)
    | .maybe, some d => .maybe row d

/-- What an owner leaves for the later names of its document. -/
def shared : Outcome → Option Answers
  | .read .catalogued answers _ => some answers
  | _ => none

/-- The owner's read. -/
def read_owned (row : Row) (d : Doc) : How :=
  let outcome := scan.host.verify row.name
  .read d outcome (scan.read_holds row outcome)

/-- A later name on a worker: what the calling thread would do on reaching it,
if the owner's answers are there. -/
def revisit (row : Row) (d : Doc) (found : Option (Option Answers)) : How :=
  match found with
  | some (some answers) =>
    match scan.host.stat row.name with
    | some .catalogued => .cached d (Verify.holds scan.query row answers)
    | some .current =>
      let outcome := scan.host.verify row.name
      .again d outcome (scan.read_holds row outcome)
    | none => .gone d
  | _ => .here d

end Scan

/-! ## The calling thread -/

/-- What the calling thread holds: the cache of catalogued answers, the
counts, and the state of the callback its rows go to. -/
structure Ledger (σ : Type) where
  exact : Doc → Option Answers
  verified : ℕ
  changed : ℕ
  matching : MatchStats
  rows : ℕ
  maybe_docs : Finset Doc
  possible_docs : Finset Doc
  callback : σ

def Ledger.new {σ : Type} (callback : σ) : Ledger σ where
  exact := fun _ => none
  verified := 0
  changed := 0
  matching := MatchStats.default
  rows := 0
  maybe_docs := ∅
  possible_docs := ∅
  callback := callback

inductive Settled
  | unread
  | stopped
  | cached
  | fresh (answers : Answers)

/-- How a consumed position settled. -/
inductive Verdict
  | holds (holds : Option (Option ℕ))
  | cached (doc : Doc)
  | skip
  | stop

/-- What consuming a position came to: the run goes on, or stops there. -/
inductive Flow
  | go
  | stop
deriving DecidableEq

namespace Ledger

variable {ε σ : Type} (scan : Scan ε)

/-- Counts a read, wherever it ran, and caches catalogued answers if `keep`. -/
def settle (l : Ledger σ) (d : Doc) (outcome : Outcome) (keep : Bool) : Settled × Ledger σ :=
  let l := { l with verified := l.verified + 1 }
  match outcome with
  | .unread => (.unread, { l with changed := l.changed + 1 })
  | .stopped work => (.stopped, { l with matching := l.matching.add work })
  | .read version answers work =>
    let l := { l with matching := l.matching.add work }
    match version with
    | .catalogued =>
      (.cached,
        if keep ∧ l.exact d = none then
          { l with exact := Function.update l.exact d (some answers) }
        else l)
    | .current => (.fresh answers, { l with changed := l.changed + 1 })

/-- Settles a row on the calling thread: by the cached answers if a fresh stat
finds the catalogued version, else by a read. -/
def here (l : Ledger σ) (d : Doc) (name : NameId) : Settled × Ledger σ :=
  if (l.exact d).isSome then
    match scan.host.stat name with
    | some .catalogued => (.cached, l)
    | some .current => l.settle d (scan.host.verify name) true
    | none => (.unread, { l with changed := l.changed + 1 })
  else l.settle d (scan.host.verify name) true

/-- Counts a consumed row's document. -/
def consumed (l : Ledger σ) (d : Option Doc) (maybe : Bool) : Ledger σ :=
  match d with
  | none => l
  | some d =>
    { l with
      possible_docs := insert d l.possible_docs
      maybe_docs := if maybe then insert d l.maybe_docs else l.maybe_docs }

/-- Settles a row here, whatever a worker left of it. -/
def settleHere (l : Ledger σ) (d : Option Doc) (row : Row) (read : Doc) : Verdict × Ledger σ :=
  match (l.consumed d true).here scan read row.name with
  | (.unread, l) => (.skip, l)
  | (.stopped, l) => (.stop, l)
  | (.cached, l) => (.cached read, l)
  | (.fresh answers, l) => (.holds (Verify.holds scan.query row answers), l)

/-- Settles how a worker left a row. A worker took the cache's state for
granted: an owner that nothing was cached, a later name that the answers were;
where that is wrong the row is settled here. -/
def verdict (l : Ledger σ) (how : How) (d : Option Doc) (row : Row) : Verdict × Ledger σ :=
  match how with
  | .holds => (.holds (some none), l.consumed d false)
  | .read read outcome holds =>
    if (l.exact read).isNone then
      match (l.consumed d true).settle read outcome (scan.is_repeated read) with
      | (.unread, l) => (.skip, l)
      | (.stopped, l) => (.stop, l)
      | (_, l) => (.holds holds, l)
    else l.settleHere scan d row read
  | .cached read holds =>
    if (l.exact read).isSome then (.holds holds, l.consumed d true)
    else l.settleHere scan d row read
  | .gone read =>
    if (l.exact read).isSome then
      let l := l.consumed d true
      (.skip, { l with changed := l.changed + 1 })
    else l.settleHere scan d row read
  | .again read outcome holds =>
    if (l.exact read).isSome then
      match (l.consumed d true).settle read outcome true with
      | (.unread, l) => (.skip, l)
      | (.stopped, l) => (.stop, l)
      | (.cached, l) => (.cached read, l)
      | (.fresh _, l) => (.holds holds, l)
    else l.settleHere scan d row read
  | .here read => l.settleHere scan d row read

variable (emit : σ → Row → Flow × σ)

/-- Emits a row that holds. -/
def emitRow (l : Ledger σ) (row : Row) : Option (Option ℕ) → Flow × Ledger σ
  | none => (.go, l)
  | some offset =>
    let sent := emit l.callback { row with offset := offset }
    (sent.1, { l with rows := l.rows + 1, callback := sent.2 })

/-- Consumes one position. -/
def consume (l : Ledger σ) : Item ε → Except ε (Flow × Ledger σ)
  | .skip => .ok (.go, l)
  | .failed error => .error error
  | .row row d how =>
    match l.verdict scan how d row with
    | (.skip, l) => .ok (.go, l)
    | (.stop, l) => .ok (.stop, l)
    | (.holds holds, l) => .ok (l.emitRow emit row holds)
    | (.cached read, l) =>
      .ok (l.emitRow emit row (Verify.holds scan.query row ((l.exact read).getD [])))

end Ledger

/-- What a run came to: an error, with the callback as it was left, or the
candidates counted and the ledger. -/
inductive Report (ε σ : Type)
  | failed (error : ε) (callback : σ)
  | finished (candidates : ℕ) (ledger : Ledger σ)

end Ferret.Verify
