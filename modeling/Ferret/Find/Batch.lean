import Mathlib.Algebra.BigOperators.Group.List.Basic
import Mathlib.Algebra.Order.Ring.Nat
import Mathlib.Data.List.DropRight
import Mathlib.Data.List.FinRange

/-!
# Commands for many paths

`-exec … {} +` and `-execdir … {} +` run a command for many paths at a time. A
task stages the paths of an `-exec`, a few of them, and collects them into a
batch that all tasks of a run share; under the lock of the shared batches it
takes out each batch that the next path would overfill, and runs these after it
has let go of the lock. The paths of an `-execdir` stay with their task, in a
batch of one directory.

The steps are those between which other tasks may act: an action evaluated for
an entry, an entry or a directory gone on to, one collection, one command. What
a task has begun it does before anything else (`jobs`). A command may fail,
which is counted. A run that breaks off because output fails is not among these.
-/

namespace Ferret.Find.Batching

abbrev Text := List UInt8

def SLASH : UInt8 := 47

structure Exec where
  args : List Text
  directory : Bool

structure Budget where
  strings : ℕ
  kernel : ℕ

/-- What is the same for a whole run: its actions that end in `+`, the directory
it runs commands in, and how long a command may be. -/
structure Setting (k : ℕ) where
  exec : Fin k → Exec
  cwd : Option Text
  limit : Budget

variable {k : ℕ}

/-! ## Paths -/

/-- The directory of a path, and the path from there. -/
def execPath (path : Text) : Text × Text :=
  let trimmed := path.rdropWhile (· = SLASH)
  if trimmed = [] then ([SLASH], [SLASH])
  else
    let directory := trimmed.rdropWhile (· ≠ SLASH)
    (if directory = [] then [46] else directory,
      [46, SLASH] ++ trimmed.rtakeWhile (· ≠ SLASH) ++ if trimmed = path then [] else [SLASH])

/-- Where an action runs its command for an entry, and the path it names. -/
def Setting.site (σ : Setting k) (id : Fin k) (path : Text) : Option Text × Text :=
  if (σ.exec id).directory then (some (execPath path).1, (execPath path).2) else (σ.cwd, path)

/-! ## Batches -/

/-- Paths for one command of an action. -/
structure Batch (k : ℕ) where
  id : Fin k
  directory : Option Text
  paths : List Text
  bytes : ℕ

def commandBytes (args : List Text) : ℕ := (args.map fun arg => arg.length + 1).sum

/-- The size of a pointer. -/
def POINTER : ℕ := 8

namespace Batch

def new (σ : Setting k) (id : Fin k) (directory : Option Text) : Batch k where
  id := id
  directory := directory
  paths := []
  bytes := commandBytes (σ.exec id).args

/-- A path of so many bytes would overfill the batch. -/
def full (σ : Setting k) (batch : Batch k) (bytes : ℕ) : Bool :=
  let pointers := ((σ.exec batch.id).args.length + batch.paths.length + 2) * POINTER
  σ.limit.strings < batch.bytes + bytes || σ.limit.kernel < batch.bytes + bytes + pointers

def add (batch : Batch k) (path : Text) : Batch k :=
  { batch with paths := batch.paths ++ [path], bytes := batch.bytes + (path.length + 1) }

/-- The batch after its paths are taken. -/
def emptied (σ : Setting k) (batch : Batch k) : Batch k :=
  { batch with paths := [], bytes := commandBytes (σ.exec batch.id).args }

/-- Staged paths go into the shared batch; the batches they fill come first. -/
def collect (σ : Setting k) (staged : Batch k) : List Text → Batch k → List (Batch k) × Batch k
  | [], shared => ([], shared)
  | path :: rest, shared =>
    if shared.full σ (path.length + 1) then
      let collected := staged.collect σ rest ((new σ staged.id staged.directory).add path)
      (shared :: collected.1, collected.2)
    else staged.collect σ rest (shared.add path)

end Batch

/-! ## Tasks -/

/-- What a task has begun. -/
inductive Job (k : ℕ)
  | collect (id : Fin k)
  | run (batch : Batch k)

structure Task (k : ℕ) where
  batches : Fin k → Option (Batch k)
  staged : Fin k → Option (Batch k)
  jobs : List (Job k)
  errors : ℕ
  /-- No further entry is evaluated. -/
  ended : Bool

def Task.new : Task k where
  batches _ := none
  staged _ := none
  jobs := []
  errors := 0
  ended := false

/-- A command that was started. -/
structure Command (k : ℕ) where
  id : Fin k
  directory : Option Text
  paths : List Text

/-- The arguments of a command. -/
def Command.args (σ : Setting k) (command : Command k) : List Text :=
  (σ.exec command.id).args ++ command.paths

/-- The command of a batch, if it has paths. -/
def Batch.commands (batch : Batch k) : List (Command k) :=
  if batch.paths = [] then [] else [⟨batch.id, batch.directory, batch.paths⟩]

namespace Task

/-- A path is staged, and collected with the others if these are many. -/
def stage (σ : Setting k) (id : Fin k) (path : Text) (task : Task k) : Task k :=
  let site := σ.site id path
  let batch := ((task.staged id).getD (.new σ id site.1)).add site.2
  { task with
    staged := Function.update task.staged id (some batch)
    jobs :=
      if 32 ≤ batch.paths.length ∨ 4096 ≤ batch.bytes - commandBytes (σ.exec id).args then
        [.collect id]
      else [] }

/-- A path goes into its directory's batch, which runs first if it is of another
directory or the path would overfill it. -/
def batchInDirectory (σ : Setting k) (id : Fin k) (path : Text) (task : Task k) : Task k :=
  let site := σ.site id path
  let batch := (task.batches id).getD (.new σ id site.1)
  let runs := batch.directory ≠ site.1 ∨ batch.full σ (site.2.length + 1)
  let kept := if runs then batch.emptied σ else batch
  { task with
    batches := Function.update task.batches id (some ({ kept with directory := site.1 }.add site.2))
    jobs := if runs then [.run batch] else [] }

def execute (σ : Setting k) (id : Fin k) (path : Text) (task : Task k) : Task k :=
  if (σ.exec id).directory then task.batchInDirectory σ id path else task.stage σ id path

/-- The batches that satisfy the test are run, one action after the other. -/
def release (σ : Setting k) (p : Batch k → Bool) (task : Task k) : Task k :=
  { task with
    batches := fun id => (task.batches id).map fun batch => if p batch then batch.emptied σ else batch
    jobs := task.jobs ++
      (List.finRange k).filterMap fun id => ((task.batches id).filter p).map Job.run }

/-- Before an entry, the batches of other directories run. -/
def changeDirectory (σ : Setting k) (path : Text) (task : Task k) : Task k :=
  task.release σ fun batch =>
    (σ.exec batch.id).directory && batch.directory ≠ some (execPath path).1

/-- The pending paths are run or collected; those of directories only, where a
directory is about to be read. -/
def flush (σ : Setting k) (directoriesOnly : Bool) (task : Task k) : Task k :=
  let collecting : Task k :=
    if directoriesOnly then task
    else
      { task with
        jobs := task.jobs ++
          (List.finRange k).filterMap fun id => (task.staged id).map fun _ => Job.collect id }
  collecting.release σ fun batch => !directoriesOnly || (σ.exec batch.id).directory

end Task

/-! ## Runs -/

structure State (k : ℕ) where
  task : ℕ → Task k
  /-- How many tasks there are. -/
  count : ℕ
  shared : Fin k → Option (Batch k)
  /-- The shared batches that run last, once they are taken. -/
  closing : Option (List (Batch k))
  commands : List (Command k)
  errors : ℕ
  /-- The actions evaluated, with the entry's path. -/
  evaluated : List (Fin k × Text)

def State.new : State k where
  task _ := .new
  count := 1
  shared _ := none
  closing := none
  commands := []
  errors := 0
  evaluated := []

inductive Act (k : ℕ)
  /-- A task evaluates an action for an entry. -/
  | evaluate (t : ℕ) (id : Fin k) (path : Text)
  /-- A task goes on to an entry. -/
  | enter (t : ℕ) (path : Text)
  /-- A task is about to read a directory. -/
  | descend (t : ℕ)
  /-- A task lends a part of its walk to another one. -/
  | lend (t : ℕ)
  /-- A task is put aside. -/
  | park (t : ℕ)
  /-- A task ends: its walk is over, or it quits, or the run did. -/
  | finish (t : ℕ)
  /-- A task does what it has begun; a command succeeds or not. -/
  | work (t : ℕ) (success : Bool)
  /-- All tasks have ended. -/
  | close
  /-- A shared batch runs. -/
  | last (success : Bool)

/-- A task that may begin something. -/
def Task.free (task : Task k) : Bool := !task.ended && task.jobs.isEmpty

def State.set (s : State k) (t : ℕ) (task : Task k) : State k :=
  { s with task := Function.update s.task t task }

def State.change (s : State k) (t : ℕ) (f : Task k → Task k) : Option (State k) :=
  if t < s.count ∧ (s.task t).free then some (s.set t (f (s.task t))) else none

/-- The errors a batch's command adds. -/
def Batch.failed (batch : Batch k) (success : Bool) : ℕ :=
  if batch.paths = [] ∨ success then 0 else 1

/-- A task collects what it staged. -/
def State.collect (σ : Setting k) (s : State k) (t : ℕ) (id : Fin k) (rest : List (Job k)) :
    State k :=
  match (s.task t).staged id with
  | none => s.set t { s.task t with jobs := rest }
  | some staged =>
    if staged.paths = [] then s.set t { s.task t with jobs := rest }
    else
      let shared := (s.shared id).getD (.new σ id staged.directory)
      let collected := staged.collect σ staged.paths shared
      { s.set t
          { s.task t with
            staged := Function.update (s.task t).staged id (some (staged.emptied σ))
            jobs := collected.1.map .run ++ rest } with
        shared := Function.update s.shared id (some collected.2) }

/-- A task runs a batch. -/
def State.runBatch (s : State k) (t : ℕ) (batch : Batch k) (success : Bool) (rest : List (Job k)) :
    State k :=
  { s.set t
      { s.task t with jobs := rest, errors := (s.task t).errors + batch.failed success } with
    commands := s.commands ++ batch.commands }

/-- What one step makes of a run. -/
def State.step (σ : Setting k) (s : State k) : Act k → Option (State k)
  | .evaluate t id path =>
    (s.change t (Task.execute σ id path)).map fun s' =>
      { s' with evaluated := s.evaluated ++ [(id, path)] }
  | .enter t path => s.change t (Task.changeDirectory σ path)
  | .descend t => s.change t (Task.flush σ true)
  | .lend t =>
    if t < s.count ∧ (s.task t).free then
      some { s.set s.count .new with count := s.count + 1 }
    else none
  | .park t => s.change t (Task.flush σ false)
  | .finish t => s.change t fun task => { task.flush σ false with ended := true }
  | .work t success =>
    if t < s.count then
      match (s.task t).jobs with
      | .collect id :: rest => some (s.collect σ t id rest)
      | .run batch :: rest => some (s.runBatch t batch success rest)
      | [] => none
    else none
  | .close =>
    if s.closing = none ∧ ∀ t < s.count, (s.task t).ended ∧ (s.task t).jobs = [] then
      some { s with
        shared := fun _ => none
        closing := some ((List.finRange k).filterMap s.shared) }
    else none
  | .last success =>
    match s.closing with
    | some (batch :: rest) =>
      some { s with
        closing := some rest
        commands := s.commands ++ batch.commands
        errors := s.errors + batch.failed success }
    | _ => none

/-- The run is over. -/
def State.Over (s : State k) : Prop := s.closing = some []

end Ferret.Find.Batching
