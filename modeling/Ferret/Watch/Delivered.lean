import Ferret.Watch.Burst

/-!
# Runs of the intake

The accumulator together with the burst its host holds, and with the events
still owed an observation: those delivered since the last take, and those the
burst in flight covers. A burst's success settles the second kind; a failure
or a deferral makes them owed again.

An event on an indexed directory is owed a hint that carries it, and the roots
of the policy inputs it touches; an event on a watch that serves policy inputs
alone is owed those roots only. An event that says events were lost, or whose
watch nobody knows, is owed a marker. The removal of a watch this process
removed is owed nothing.
-/

namespace Ferret.Watch

/-- What watch an event came from. -/
inductive Place
  | lost
  | policy
  | indexed (directories : List Directory)
deriving DecidableEq

/-- An event as it was delivered. -/
structure Delivered where
  wd : ℤ
  name : Name
  flags : ReadFlags
  place : Place
  roots : List Path
deriving DecidableEq

/-- What an event owes to be observed, in the state it arrives in. -/
def deliver (s : State) (wd : ℤ) (flags : ReadFlags) (name : Name) : Option Delivered :=
  if flags.queue_overflow then some ⟨wd, name, flags, .lost, []⟩
  else if flags.ignored then if wd ∈ s.removed then none else some ⟨wd, name, flags, .lost, []⟩
  else
    match s.descriptors.lookup wd with
    | none =>
      some ⟨wd, name, flags, if wd ∈ s.policies then .policy else .lost, policyRoots s wd name⟩
    | some directories =>
      some ⟨wd, name, flags, if flags.unmount then .lost else .indexed directories,
        policyRoots s wd name⟩

/-- A hint that carries an event on `directories`. -/
structure Hint.Carries (h : Hint) (directories : List Directory) (flags : ReadFlags) : Prop where
  directories : directories ⊆ h.directories
  subtree : flags.subtree → h.subtree
  moved_from : flags.moved_from → h.moved_from
  moved_to : flags.moved_to → h.moved_to

/-- The hints that carry an event from its place. -/
def Delivered.Hinted (e : Delivered) (pending : Pending) : Prop :=
  match e.place with
  | .lost => False
  | .policy => True
  | .indexed directories =>
    ∃ hint, pending.lookup (e.wd, e.name) = some hint ∧ hint.Carries directories e.flags

/-- An event represented by a marker, or by its hint and its roots. -/
def Delivered.Represented (e : Delivered) (pending : Pending) (roots : Finset Path)
    (marker : Prop) : Prop :=
  marker ∨ (e.Hinted pending ∧ ∀ root ∈ e.roots, root ∈ roots)

/-- The accumulator, the burst in flight, the events owed before and since it
was taken, and whether a marker was raised since. -/
structure Intake where
  state : State
  burst : Option Burst
  owed : List Delivered
  taken : List Delivered
  raised : Bool

def Intake.new : Intake := ⟨State.new, none, [], [], false⟩

inductive Call
  | event (wd : ℤ) (flags : ReadFlags) (cookie : ℕ) (name : Name)
  | add_directory (wd : ℤ) (directory : Directory)
  | add_input (wd : ℤ) (input : Input)
  | refuse_input (wd : ℤ)
  | retire_policy (keep : Input → Bool) (wd : ℤ) (confirmed : Bool)
  | retire_descriptor (resolves : Directory → Bool) (wd : ℤ) (directories : List Directory)
      (same confirmed : Bool)
  | backstop (reason : RefreshReason)
  | scoped_roots (roots : List Path)
  | take (bulk : Bool)
  | finish (success : Bool)
  | defer

namespace Intake

/-- The intake after a call that leaves the burst alone. -/
def accumulate (x : Intake) (state : State) (arrived : Option Delivered) : Intake :=
  { x with
    state := state
    owed := x.owed ++ arrived.toList
    raised := x.raised || state.serial ≠ x.state.serial }

/-- The intake after a call, if the host can make it: it finishes or defers the
burst it holds, and asks for a backstop for a reason that is not a burst. -/
def call (config : Config) (now : ℕ) (x : Intake) : Call → Option Intake
  | .event wd flags cookie name =>
    some (x.accumulate (event config x.state wd flags cookie name now)
      (deliver x.state wd flags name))
  | .add_directory wd directory =>
    some (x.accumulate (add_directory x.state wd directory now) none)
  | .add_input wd input => some (x.accumulate (add_input x.state wd input now) none)
  | .refuse_input wd => some (x.accumulate (refuse_input x.state wd) none)
  | .retire_policy keep wd confirmed =>
    if wd ∈ x.state.policies then
      some (x.accumulate (retire_policy x.state keep wd confirmed) none)
    else none
  | .retire_descriptor resolves wd directories same confirmed =>
    some (x.accumulate (retire_descriptor x.state resolves wd directories same confirmed) none)
  | .backstop reason =>
    if reason = .burst then none else some (x.accumulate (loss x.state reason now) none)
  | .scoped_roots roots =>
    some (x.accumulate { x.state with scoped_roots := x.state.scoped_roots ∪ roots.toFinset } none)
  | .take bulk =>
    match take_admitted x.state bulk now with
    | none => some x
    | some (burst, state) => some ⟨state, some burst, [], x.owed, false⟩
  | .finish success =>
    x.burst.map fun burst =>
      ⟨finish x.state burst success now, none,
        if success then x.owed else x.taken ++ x.owed, [], false⟩
  | .defer =>
    x.burst.map fun burst => ⟨defer config x.state burst now, none, x.taken ++ x.owed, [], false⟩

/-- The calls the representation of events is promised for: the watermark is
not about to wrap, no watch has gained directories since its pending hint, and
no key of a deferred burst is pending again. -/
def Clean (x : Intake) : Call → Prop
  | .event wd _ _ name =>
    x.state.serial + 2 < 2 ^ 64
      ∧ ∀ hint, x.state.pending.lookup (wd, name) = some hint →
        ∀ directories, x.state.descriptors.lookup wd = some directories →
          directories ⊆ hint.directories
  | .defer =>
    x.state.serial + 2 < 2 ^ 64
      ∧ ∀ burst, x.burst = some burst → ∀ key ∈ burst.pending, key ∉ x.state.pending
  | _ => x.state.serial + 2 < 2 ^ 64

/-- Reached by clean calls. -/
inductive Reached (config : Config) : Intake → Prop
  | new : Reached config Intake.new
  | call {x x' : Intake} {now : ℕ} {c : Call} :
    Reached config x → x.Clean c → x.call config now c = some x' → Reached config x'

end Intake

end Ferret.Watch
