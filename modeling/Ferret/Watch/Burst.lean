import Ferret.Index.Bytes
import Ferret.Watch.Intake
import Mathlib.Data.Finset.Sort
import Mathlib.Data.UInt

/-!
# Bursts

The writer detaches what intake has accumulated as a burst, observes it, and
either acknowledges it, reports that it failed, or gives it back unobserved.
Intake goes on meanwhile. A marker stays in the accumulator while its burst
is in flight, and is cleared by the burst's success only if it is still the
same one.

The request a burst makes names catalog entries where its directories still
resolve in the writer's view, and whole roots where they do not.
-/

namespace Ferret.Watch

def TRAILING : ℕ := 200

def MAX_AGE : ℕ := 1000

/-- Detached work, with the marker it was taken under. -/
structure Burst where
  pending : Pending
  bytes : ℕ
  marker : Option (ℕ × RefreshReason)
  roots : Finset Path

/-- The earlier of two times, if any. -/
def earliest (a b : Option ℕ) : Option ℕ :=
  match a, b with
  | some a, some b => some (min a b)
  | some a, none => some a
  | none, b => b

/-- Whether hints are still gathering. -/
def State.settling (s : State) (now : ℕ) : Bool :=
  s.last.any (now - · < TRAILING) && s.first.any (now - · < MAX_AGE)

/-- Detaches at most one due burst. Markers bypass the delay, and are left
queued while bulk work is not admitted. -/
def take_admitted (s : State) (bulk : Bool) (now : ℕ) : Option (Burst × State) :=
  if s.running
      ∨ (¬ bulk ∧ s.backstop.isSome)
      ∨ (s.backstop = none ∧ s.scoped_roots = ∅
          ∧ (s.pending.entries = [] ∨ s.settling now)) then none
  else
    some
      ({ pending := s.pending, bytes := s.bytes, marker := s.backstop, roots := s.scoped_roots },
       { s with
          running := true
          bytes := 0
          inflight_first := s.first
          first := none
          last := none
          pending := ∅
          scoped_roots := ∅ })

/-- Acknowledges a burst on success, or keeps complete work after a failure. -/
def finish (s : State) (burst : Burst) (success : Bool) (now : ℕ) : State :=
  let observed_first := s.inflight_first
  let s := { s with running := false, inflight_first := none }
  if success then
    if burst.marker.isSome ∧ s.backstop = burst.marker then { s with backstop := none } else s
  else
    loss { s with first := earliest s.first observed_first }
      (match burst.marker with
        | some (_, reason) => reason
        | none => .backstop) now

/-- The marker after a burst comes back: the later of the two. -/
def laterMarker (current marker : Option (ℕ × RefreshReason)) : Option (ℕ × RefreshReason) :=
  match marker, current with
  | none, current => current
  | some marker, none => some marker
  | some marker, some current => if current.1 < marker.1 then some marker else some current

/-- Gives back a burst refused before its observation began. -/
def defer (config : Config) (s : State) (burst : Burst) (now : ℕ) : State :=
  let s := { s with
    running := false
    inflight_first := none
    first := earliest s.first s.inflight_first
    pending := s.pending ∪ burst.pending
    bytes := saturating_add s.bytes burst.bytes
    scoped_roots := s.scoped_roots ∪ burst.roots
    backstop := laterMarker s.backstop burst.marker }
  let s :=
    if s.pending.entries.length > config.scopes ∨ s.bytes > config.bytes then loss s .overflow now
    else s
  if s.pending.entries ≠ [] ∨ s.scoped_roots ≠ ∅ ∨ s.backstop.isSome then
    { s with last := some (s.last.getD now) }
  else s

/-! ## Requests -/

abbrev InoId := ℕ

/-- The directories of a view and its roots. A directory's name is in one with
a lower id, as decoding checks. -/
structure Tree where
  roots : List (InoId × Path)
  dir_name : InoId → Option (InoId × Name)
  dir_name_lt : ∀ {id parent name}, dir_name id = some (parent, name) → parent < id

namespace Tree

/-- The path of a directory, from the root it climbs to. -/
def dir_path (tree : Tree) (id : InoId) : Path :=
  match h : tree.dir_name id with
  | none => (tree.roots.lookup id).getD []
  | some (parent, name) =>
    have := tree.dir_name_lt h
    tree.dir_path parent ++ [name]

/-- The root whose tree a directory is in. -/
def containing_root (tree : Tree) (id : InoId) : Option Path :=
  match h : tree.dir_name id with
  | none => tree.roots.lookup id
  | some (parent, _) =>
    have := tree.dir_name_lt h
    tree.containing_root parent

end Tree

/-- What a burst reads of the writer's view. A directory that resolves is in
the tree of a root. -/
structure View extends Tree where
  /-- The inode a whole path names. -/
  resolve : Path → Option InoId
  is_directory : InoId → Bool
  identity : InoId → ℕ × ℕ
  rooted : ∀ {path id}, resolve path = some id → is_directory id → (toTree.containing_root id).isSome

/-- The inode of a directory, if it is still where it was. -/
def Directory.resolve (d : Directory) (view : View) : Option InoId :=
  (view.resolve d.path).filter fun id => view.is_directory id ∧ view.identity id = d.identity

inductive RefreshScope
  | entry (parent : InoId) (basename : Name)
  | root (path : Path)
deriving DecidableEq

structure RenameHint where
  old_parent : InoId
  old_name : Name
  new_parent : InoId
  new_name : Name
deriving DecidableEq

structure RefreshRequest where
  scopes : List RefreshScope
  rename_hints : List RenameHint
  reason : RefreshReason
deriving DecidableEq

/-- Names whose change may change the policy of everything below. -/
def is_ignore_file (n : Name) : Bool :=
  n = name ".ferretignore" || n = name ".gitignore" || n = name ".ignore" || n = name ".rgignore"

def wholeRoot (n : Name) : Bool := n = [] || n = name ".git" || is_ignore_file n

/-- The scopes of one hint: an entry for each directory that resolves. -/
def entriesOf (view : View) (n : Name) (hint : Hint) : List RefreshScope :=
  if wholeRoot n then []
  else hint.directories.filterMap fun d => (d.resolve view).map (.entry · n)

/-- The roots of the directories of a hint that no entry can stand for. -/
def rootsOf (view : View) (n : Name) (hint : Hint) : List Path :=
  (hint.directories.filter fun d => wholeRoot n || (d.resolve view).isNone).map Directory.root

/-- The ends of moves by cookie, in the order of the hints. -/
structure MovePair where
  old : List (InoId × Name)
  new : List (InoId × Name)
deriving DecidableEq

namespace Burst

/-- Every resolved end of a move with a cookie. -/
def ends (burst : Burst) (view : View) : List (ℕ × Hint × InoId × Name) :=
  burst.pending.entries.flatMap fun entry =>
    if wholeRoot entry.1.2 ∨ entry.2.cookie = 0 then []
    else entry.2.directories.filterMap fun d =>
      (d.resolve view).map fun id => (entry.2.cookie, entry.2, id, entry.1.2)

def moves (burst : Burst) (view : View) (cookie : ℕ) : MovePair where
  old := ((burst.ends view).filter fun e => e.1 = cookie ∧ e.2.1.moved_from).map (·.2.2)
  new := ((burst.ends view).filter fun e => e.1 = cookie ∧ e.2.1.moved_to).map (·.2.2)

/-- A hint for each move cookie seen exactly once on each side. -/
def rename_hints (burst : Burst) (view : View) : List RenameHint :=
  (((burst.ends view).map (·.1)).dedup.mergeSort).filterMap fun cookie =>
    match burst.moves view cookie with
    | ⟨[(old_parent, old_name)], [(new_parent, new_name)]⟩ =>
      some { old_parent, old_name, new_parent, new_name }
    | _ => none

/-- The entries of all hints. -/
def scopes (burst : Burst) (view : View) : List RefreshScope :=
  burst.pending.entries.flatMap fun entry => entriesOf view entry.1.2 entry.2

/-- The roots asked for, and those of the hints. -/
def requested (burst : Burst) (view : View) : Finset Path :=
  burst.roots
    ∪ (burst.pending.entries.flatMap fun entry => rootsOf view entry.1.2 entry.2).toFinset

def reason (burst : Burst) : RefreshReason :=
  match burst.marker with
  | some (_, reason) => reason
  | none => .burst

/-- Whether an entry is below one of the roots. -/
def below (view : View) (roots : Finset Path) : RefreshScope → Bool
  | .entry parent _ => decide (∃ root ∈ roots, root <+: view.dir_path parent)
  | .root _ => false

/-- The request of a burst against the current view. -/
def request (burst : Burst) (view : View) : RefreshRequest :=
  if burst.marker.isSome then { scopes := [], rename_hints := [], reason := burst.reason }
  else
    let roots := burst.requested view
    if ∃ root ∈ roots, root ∉ view.roots.map Prod.snd then
      { scopes := [], rename_hints := [], reason := .backstop }
    else
      { scopes := (burst.scopes view).filter (fun scope => !below view roots scope)
          ++ roots.sort.map .root
        rename_hints := burst.rename_hints view
        reason := burst.reason }

end Burst

end Ferret.Watch
