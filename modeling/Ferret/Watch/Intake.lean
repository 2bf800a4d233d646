import Mathlib.Algebra.Order.Ring.Nat
import Mathlib.Data.Finset.Image
import Mathlib.Data.List.AList

/-!
# Watch intake

Inotify events arrive on an intake thread and are kept as hints, one for each
watch and name, until the writer detaches them in a burst. A hint holds the
directories its watch stood for when it began, by identity, name and root;
what they are in the catalog is looked up when the burst is turned into a
request. Whenever events cannot be kept apart – the kernel's queue overflows,
a watch disappears, the bounds on pending hints are met – all of them
collapse into one marker that asks for every root to be observed.

All of this is one record behind one mutex, so each function here is one
atomic step on it. A clock reading is an argument of the functions that ask
for one.
-/

namespace Ferret.Watch

abbrev Name := List UInt8

/-- An absolute path, by its components. -/
abbrev Path := List Name

/-- The length of a path in bytes. -/
def Path.len : Path → ℕ
  | [] => 1
  | path => (path.map fun name => name.length + 1).sum

/-- The bytes of an ASCII name. -/
def name (s : String) : Name := s.toList.map fun c => c.toNat.toUInt8

inductive RefreshReason
  | burst
  | overflow
  | policyChange
  | backstop
deriving DecidableEq

/-- Intake bounds, and the sizes a hint and a directory are charged. A host
allows 16 MiB; the sums of charges below any limit short of the largest
machine word are exact. -/
structure Config where
  scopes : ℕ
  bytes : ℕ
  size_of_hint : ℕ
  size_of_directory : ℕ
  bytes_lt : bytes < 2 ^ 64 - 1

/-- A watched directory: the top of a root, or named in another one, whose
root it shares. -/
inductive Directory
  | top (identity : ℕ × ℕ) (root : Path)
  | child (identity : ℕ × ℕ) (parent : Directory) (basename : Name)
deriving DecidableEq

namespace Directory

def identity : Directory → ℕ × ℕ
  | top identity _ => identity
  | child identity _ _ => identity

def root : Directory → Path
  | top _ root => root
  | child _ parent _ => parent.root

def path : Directory → Path
  | top _ root => root
  | child _ parent basename => parent.path ++ [basename]

/-- What the names from a directory up to its root are charged. -/
def charged_names (size_of : ℕ) : Directory → ℕ
  | top _ _ => size_of + 16
  | child _ parent basename => size_of + 16 + basename.length + parent.charged_names size_of

def charged_bytes (size_of : ℕ) (d : Directory) : ℕ := d.root.len + d.charged_names size_of

end Directory

/-- The flags of an event that intake reads. -/
structure ReadFlags where
  queue_overflow : Bool := false
  ignored : Bool := false
  unmount : Bool := false
  isdir : Bool := false
  move_self : Bool := false
  delete_self : Bool := false
  moved_from : Bool := false
  moved_to : Bool := false
deriving DecidableEq

/-- Whether an event may concern everything below its name. -/
def ReadFlags.subtree (flags : ReadFlags) : Bool :=
  flags.isdir || flags.move_self || flags.delete_self

structure Hint where
  directories : List Directory
  subtree : Bool
  cookie : ℕ
  ambiguous_cookie : Bool
  moved_from : Bool
  moved_to : Bool
deriving DecidableEq

namespace Hint

/-- A hint for a first event on one name of `directories`. -/
def new (directories : List Directory) (flags : ReadFlags) (cookie : ℕ) : Hint where
  directories := directories
  subtree := flags.subtree
  cookie := cookie
  ambiguous_cookie := false
  moved_from := flags.moved_from
  moved_to := flags.moved_to

/-- Adds a later event on the same name. Several moves of one endpoint are
ambiguous, and must not make up a pair. -/
def merge (h : Hint) (flags : ReadFlags) (cookie : ℕ) : Hint :=
  let moves : Bool := cookie ≠ 0 && (flags.moved_from || flags.moved_to)
  let clash : Bool := h.cookie ≠ 0 && h.cookie ≠ cookie
  { directories := h.directories
    subtree := h.subtree || flags.subtree
    cookie :=
      if moves then
        if clash then 0 else if h.ambiguous_cookie then h.cookie else cookie
      else h.cookie
    ambiguous_cookie := h.ambiguous_cookie || (moves && clash)
    moved_from := h.moved_from || flags.moved_from
    moved_to := h.moved_to || flags.moved_to }

end Hint

/-- A policy file a root reads, at the watch of its parent. -/
structure Input where
  root : Path
  name : Name
deriving DecidableEq

/-- Hints by watch and name. -/
abbrev Pending := AList (fun _ : ℤ × Name => Hint)

/-- The accumulator. Descriptors are the watches of indexed directories,
policies those of the parents of policy files; one watch may be both. -/
structure State where
  descriptors : AList (fun _ : ℤ => List Directory)
  removed : Finset ℤ
  gaps : Finset Path
  policies : AList (fun _ : ℤ => List Input)
  pending : Pending
  bytes : ℕ
  first : Option ℕ
  inflight_first : Option ℕ
  last : Option ℕ
  backstop : Option (ℕ × RefreshReason)
  scoped_roots : Finset Path
  serial : ℕ
  running : Bool

def State.new : State where
  descriptors := ∅
  removed := ∅
  gaps := ∅
  policies := ∅
  pending := ∅
  bytes := 0
  first := none
  inflight_first := none
  last := none
  backstop := none
  scoped_roots := ∅
  serial := 0
  running := false

/-- Collapses the hints to a marker for every root. The watermark is a machine
word that wraps. -/
def loss (s : State) (reason : RefreshReason) (now : ℕ) : State :=
  let serial := (s.serial + 1) % 2 ^ 64
  let reason := if s.backstop.any (·.2 = .overflow) then .overflow else reason
  { s with
    serial := serial
    backstop := some (serial, reason)
    pending := ∅
    bytes := 0
    first := some (s.first.getD now)
    last := some now }

/-- Forgets watch `wd`, which the kernel removed. One this process removed was
expected; any other loses events, and its policy roots become gaps. -/
def ignored (s : State) (wd : ℤ) (now : ℕ) : State :=
  if wd ∈ s.removed then { s with removed := s.removed.erase wd }
  else
    let roots := ((s.policies.lookup wd).getD []).map Input.root
    loss { s with
      descriptors := s.descriptors.erase wd
      policies := s.policies.erase wd
      gaps := s.gaps ∪ roots.toFinset } .overflow now

/-- The roots whose policy inputs under watch `wd` an event on `name` (or on
the directory itself) touched. -/
def policyRoots (s : State) (wd : ℤ) (name : Name) : List Path :=
  (((s.policies.lookup wd).getD []).filter fun i => name = [] ∨ i.name = name).map Input.root

def scope_policy_roots (s : State) (wd : ℤ) (name : Name) (now : ℕ) : State :=
  let roots := policyRoots s wd name
  if roots = [] then s
  else { s with
    scoped_roots := s.scoped_roots ∪ roots.toFinset
    first := some (s.first.getD now) }

def charge (config : Config) (name : Name) (directories : List Directory) : ℕ :=
  config.size_of_hint + 64 + name.length
    + (directories.map (Directory.charged_bytes config.size_of_directory)).sum

/-- A sum of machine words that stops at the largest. -/
def saturating_add (a b : ℕ) : ℕ := min (a + b) (2 ^ 64 - 1)

/-- Keeps an event on one name of `directories` as a hint, if there is room. -/
def State.hint (config : Config) (s : State) (wd : ℤ) (flags : ReadFlags) (cookie : ℕ) (name : Name)
    (directories : List Directory) (now : ℕ) : State :=
  let s := { s with first := some (s.first.getD now), last := some now }
  match s.pending.lookup (wd, name) with
  | some hint => { s with pending := s.pending.insert (wd, name) (hint.merge flags cookie) }
  | none =>
    let charge := charge config name directories
    if s.pending.entries.length ≥ config.scopes ∨ saturating_add s.bytes charge > config.bytes then
      loss s .overflow now
    else { s with
      bytes := s.bytes + charge
      pending := s.pending.insert (wd, name) (Hint.new directories flags cookie) }

/-- Takes in one event. -/
def event (config : Config) (s : State) (wd : ℤ) (flags : ReadFlags) (cookie : ℕ) (name : Name)
    (now : ℕ) : State :=
  if flags.queue_overflow then loss { s with removed := ∅ } .overflow now
  else if flags.ignored then ignored s wd now
  else
    let s := scope_policy_roots s wd name now
    match s.descriptors.lookup wd with
    | none => if wd ∈ s.policies then s else loss s .overflow now
    | some directories =>
      if flags.unmount then
        loss { s with gaps := s.gaps ∪ (directories.map Directory.root).toFinset } .overflow now
      else s.hint config wd flags cookie name directories now

/-! ## Watches -/

/-- Records watch `wd` on a directory the crawl observed. -/
def add_directory (s : State) (wd : ℤ) (directory : Directory) (now : ℕ) : State :=
  let s := if wd ∈ s.removed then loss { s with removed := s.removed.erase wd } .overflow now else s
  let known := (s.descriptors.lookup wd).getD []
  if known.any fun d => d.identity ≠ directory.identity then
    let s := loss { s with descriptors := s.descriptors.erase wd } .overflow now
    { s with descriptors := s.descriptors.insert wd [directory] }
  else { s with descriptors := s.descriptors.insert wd (known ++ [directory]) }

/-- Records watch `wd` as watching a policy input. -/
def add_input (s : State) (wd : ℤ) (input : Input) (now : ℕ) : State :=
  let s := if wd ∈ s.removed then loss { s with removed := s.removed.erase wd } .overflow now else s
  let inputs := (s.policies.lookup wd).getD []
  { s with policies := s.policies.insert wd (if input ∈ inputs then inputs else inputs ++ [input]) }

/-- Drops the inputs of watch `wd` that are not kept. A watch that serves
nothing else is removed, and its removal is expected when the kernel confirms
it. -/
def retire_policy (s : State) (keep : Input → Bool) (wd : ℤ) (confirmed : Bool) : State :=
  let inputs := ((s.policies.lookup wd).getD []).filter keep
  if inputs ≠ [] then { s with policies := s.policies.insert wd inputs }
  else
    { s with
      policies := s.policies.erase wd
      removed := if wd ∉ s.descriptors ∧ confirmed then insert wd s.removed else s.removed }

/-- Removes a watch past the cap that was installed for a policy input. -/
def refuse_input (s : State) (wd : ℤ) : State := { s with removed := insert wd s.removed }

/-- Keeps the directories of watch `wd` that still resolve, unless they
changed since `directories` was taken, which `same` compares by object. -/
def retire_descriptor (s : State) (resolves : Directory → Bool) (wd : ℤ)
    (directories : List Directory) (same confirmed : Bool) : State :=
  if ¬ (same ∧ s.descriptors.lookup wd = some directories) then s
  else
    let kept := directories.filter resolves
    if kept ≠ [] then { s with descriptors := s.descriptors.insert wd kept }
    else
      { s with
        descriptors := s.descriptors.erase wd
        removed := if wd ∉ s.policies ∧ confirmed then insert wd s.removed else s.removed }

end Ferret.Watch
