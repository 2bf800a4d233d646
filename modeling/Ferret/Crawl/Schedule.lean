import Mathlib.Data.Fintype.Basic

/-!
# Sharing a walk's directory jobs between workers

A walk is carried out by several workers. A job is a directory whose listing
has been read, with a position in that listing; a worker considers the
children from that position on, and when it descends into one, the rest of
the listing becomes a *continuation*, kept on the worker's own stack. A worker
that finds others idle hands its oldest continuation to a shared queue.

Three counters go with this, each an atomic read and written outside the
queue's lock: the jobs `outstanding`, the workers `idle`, and the descriptors
`open_jobs` that queued jobs hold.

The model is a step relation. A worker's program counter, `Pc`, stands between
two accesses to shared state, so that the steps of the workers interleave at
every atomic access, at every acquisition of the lock and at every wait on the
condition variable. `considered` is not part of the program: it records which
worker considered which child.
-/

namespace Ferret.Walk

/-- **A directory's listing**, child by child: whether the walk descends into
the child, and if so the listing it reads there. -/
inductive Listing
  | nil
  | leaf (rest : Listing)
  | dir (sub rest : Listing)
deriving DecidableEq

/-- The path of a directory below the root, as positions in the listings on
the way. -/
abbrev Rel := List ℕ

/-- A child, as the directory it is listed in and its position there. -/
abbrev Child := Rel × ℕ

/-- Every child listed from position `i` of directory `rel` on, with those of
the directories the walk descends into. -/
def Listing.entries (rel : Rel) (i : ℕ) : Listing → List Child
  | nil => []
  | leaf rest => (rel, i) :: rest.entries rel (i + 1)
  | dir sub rest => (rel, i) :: (sub.entries (rel ++ [i]) 0 ++ rest.entries rel (i + 1))

/-- Descriptors that queued jobs may hold. -/
def MAX_OPEN_JOBS : ℕ := 128

/-- **A continuation**: a directory and what is left of its listing. -/
structure Job where
  /-- Whether its descriptor is open. -/
  dir : Bool
  rel : Rel
  /-- Position of the next child. -/
  next : ℕ
  /-- The children from `next` on. -/
  rest : Listing
deriving DecidableEq

/-- The job of a directory just opened and listed. -/
def Job.new (rel : Rel) (children : Listing) : Job where
  dir := true
  rel := rel
  next := 0
  rest := children

/-- The children a job still stands for. -/
def Job.entries (job : Job) : List Child := job.rest.entries job.rel job.next

/-- The job with its next child considered. -/
def Job.advance (job : Job) (rest : Listing) : Job :=
  { job with
    next := job.next + 1
    rest := rest }

/-- **Where a worker stands.** Each constructor names the access it makes
next. -/
inductive Pc
  /-- `worker_started`. -/
  | start
  /-- `take`: waits for the queue's lock. -/
  | takeLock
  /-- Holds the lock, and is to read `cancelled`. -/
  | takeCancelled
  | takePop
  /-- Has popped a job, and is to release its descriptor's place. -/
  | takeRelease (job : Job)
  | takeOutstanding
  | takeIdle
  /-- The `while` of `take`, condition by condition. -/
  | waitEmpty
  | waitCancelled
  | waitOutstanding
  /-- Has found all three conditions true, and is to wait. -/
  | waitSleep
  /-- Waits on `ready`, without the lock. -/
  | asleep
  /-- Has been notified, and waits for the lock. -/
  | notified
  /-- Has left the `while`, and is to lower `idle`. -/
  | wake
  /-- The loop of `run_worker`, at its test of `cancelled`. -/
  | loop (current : Job)
  /-- Inside `process`. -/
  | process (job : Job)
  /-- `process` has descended from `parent` into `child`. -/
  | descended (parent child : Job)
  /-- Has counted `parent`, and is to find its descriptor a place. -/
  | reserve (parent child : Job)
  /-- `share_oldest`, to be followed by work on `child` or by `popLocal`. -/
  | share (child : Option Job)
  | shareLock (child : Option Job)
  | shareMove (child : Option Job)
  | shareNotify (child : Option Job)
  /-- `finish_one`. -/
  | finish
  | finishLock
  | finishNotify
  /-- Takes the newest job off its own stack. -/
  | popLocal
  | release (job : Job)
  | returned
  /-- `run_guarded` has caught a panic. -/
  | panicked
  | panicLock
  | panicNotify
  /-- The panic has been resumed. -/
  | dead
deriving DecidableEq

/-- A worker, with its own stack of continuations, newest first. -/
structure Worker where
  pc : Pc
  stack : List Job
deriving DecidableEq

/-- What the workers share, and the records of the walk. -/
structure Shared (W : Type) where
  /-- The queue, last pushed first. -/
  jobs : List Job
  /-- Which worker holds the lock of the queue. -/
  held : Option W
  idle : ℕ
  outstanding : ℕ
  open_jobs : ℕ
  cancelled : Bool
  /-- Which worker has considered which child, last first. -/
  considered : List (W × Child)
  /-- The continuations whose directories could not be reopened. -/
  faults : List Job

/-- `Shared::new`. -/
def Shared.new (W : Type) (root : Job) : Shared W where
  jobs := [root]
  held := none
  idle := 0
  outstanding := 1
  open_jobs := 1
  cancelled := false
  considered := []
  faults := []

variable {W : Type}

/-- Takes the lock, where it is free. -/
def Shared.lock (s : Shared W) (w : W) : Shared W := { s with held := some w }

def Shared.unlock (s : Shared W) : Shared W := { s with held := none }

/-- Whom a step notifies on `ready`. -/
inductive Wake
  | nobody
  | one
  | all

/-- What follows `share_oldest`. -/
def after : Option Job → Pc
  | some child => .loop child
  | none => .popLocal

/-- `release_open`. -/
def Shared.release_open (s : Shared W) (job : Job) : Shared W :=
  { s with open_jobs := if job.dir then s.open_jobs - 1 else s.open_jobs }

/-- The shared state with one more child considered. -/
def Shared.consider (s : Shared W) (w : W) (job : Job) : Shared W :=
  { s with considered := (w, job.rel, job.next) :: s.considered }

/-- **What the worker `w` can do**: to the shared state, to itself, and whom it
notifies. -/
inductive Act (w : W) : Shared W → Worker → Shared W → Worker → Wake → Prop
  | started (s st) : Act w s ⟨.start, st⟩ s ⟨.takeLock, st⟩ .nobody
  -- `take`
  | take_lock (s st) (hfree : s.held = none) :
    Act w s ⟨.takeLock, st⟩ (s.lock w) ⟨.takeCancelled, st⟩ .nobody
  | take_cancelled (s st) (hc : s.cancelled = true) :
    Act w s ⟨.takeCancelled, st⟩ s.unlock ⟨.returned, []⟩ .nobody
  | take_go_on (s st) (hc : s.cancelled = false) :
    Act w s ⟨.takeCancelled, st⟩ s ⟨.takePop, st⟩ .nobody
  | take_job (s st job rest) (hjobs : s.jobs = job :: rest) :
    Act w s ⟨.takePop, st⟩ { s with jobs := rest } ⟨.takeRelease job, st⟩ .nobody
  | take_release (s st job) :
    Act w s ⟨.takeRelease job, st⟩ (s.release_open job).unlock ⟨.loop job, st⟩ .nobody
  | take_empty (s st) (hjobs : s.jobs = []) :
    Act w s ⟨.takePop, st⟩ s ⟨.takeOutstanding, st⟩ .nobody
  | take_none (s st) (hz : s.outstanding = 0) :
    Act w s ⟨.takeOutstanding, st⟩ s.unlock ⟨.returned, []⟩ .nobody
  | take_some (s st) (hz : s.outstanding ≠ 0) :
    Act w s ⟨.takeOutstanding, st⟩ s ⟨.takeIdle, st⟩ .nobody
  | take_idle (s st) :
    Act w s ⟨.takeIdle, st⟩ { s with idle := s.idle + 1 } ⟨.waitEmpty, st⟩ .nobody
  | wait_empty (s st) (hjobs : s.jobs = []) :
    Act w s ⟨.waitEmpty, st⟩ s ⟨.waitCancelled, st⟩ .nobody
  | wait_filled (s st) (hjobs : s.jobs ≠ []) : Act w s ⟨.waitEmpty, st⟩ s ⟨.wake, st⟩ .nobody
  | wait_go_on (s st) (hc : s.cancelled = false) :
    Act w s ⟨.waitCancelled, st⟩ s ⟨.waitOutstanding, st⟩ .nobody
  | wait_cancelled (s st) (hc : s.cancelled = true) :
    Act w s ⟨.waitCancelled, st⟩ s ⟨.wake, st⟩ .nobody
  | wait_some (s st) (hz : s.outstanding ≠ 0) :
    Act w s ⟨.waitOutstanding, st⟩ s ⟨.waitSleep, st⟩ .nobody
  | wait_none (s st) (hz : s.outstanding = 0) :
    Act w s ⟨.waitOutstanding, st⟩ s ⟨.wake, st⟩ .nobody
  | wait_sleep (s st) : Act w s ⟨.waitSleep, st⟩ s.unlock ⟨.asleep, st⟩ .nobody
  | wait_lock (s st) (hfree : s.held = none) :
    Act w s ⟨.notified, st⟩ (s.lock w) ⟨.waitEmpty, st⟩ .nobody
  | wake (s st) :
    Act w s ⟨.wake, st⟩ { s with idle := s.idle - 1 } ⟨.takeCancelled, st⟩ .nobody
  -- `run_worker` and `process`
  | loop_cancelled (s st job) (hc : s.cancelled = true) :
    Act w s ⟨.loop job, st⟩ s ⟨.returned, []⟩ .nobody
  | loop_process (s st job) (hc : s.cancelled = false) :
    Act w s ⟨.loop job, st⟩ s ⟨.process job, st⟩ .nobody
  | reopen (s st job) (hd : job.dir = false) :
    Act w s ⟨.process job, st⟩ s ⟨.process { job with dir := true }, st⟩ .nobody
  | reopen_fault (s st job) (hd : job.dir = false) :
    Act w s ⟨.process job, st⟩ { s with faults := job :: s.faults } ⟨.finish, st⟩ .nobody
  | consider_leaf (s st job rest) (hd : job.dir = true) (hrest : job.rest = .leaf rest) :
    Act w s ⟨.process job, st⟩ (s.consider w job) ⟨.process (job.advance rest), st⟩ .nobody
  | consider_dir (s st job sub rest) (hd : job.dir = true) (hrest : job.rest = .dir sub rest) :
    Act w s ⟨.process job, st⟩ (s.consider w job)
      ⟨.descended (job.advance rest) (.new (job.rel ++ [job.next]) sub), st⟩ .nobody
  | exhausted (s st job) (hd : job.dir = true) (hrest : job.rest = .nil) :
    Act w s ⟨.process job, st⟩ s ⟨.finish, st⟩ .nobody
  -- the visitor may panic, and unwinding drops the worker's jobs
  | panics (s st job) : Act w s ⟨.process job, st⟩ s ⟨.panicked, []⟩ .nobody
  | panics_start (s st) : Act w s ⟨.start, st⟩ s ⟨.panicked, []⟩ .nobody
  -- an exhausted parent is dropped, and its place in `outstanding` goes to the child
  | drop_parent (s st parent child) (hrest : parent.rest = .nil) :
    Act w s ⟨.descended parent child, st⟩ s ⟨.loop child, st⟩ .nobody
  | count_parent (s st parent child) (hrest : parent.rest ≠ .nil) :
    Act w s ⟨.descended parent child, st⟩ { s with outstanding := s.outstanding + 1 }
      ⟨.reserve parent child, st⟩ .nobody
  | reserve (s st parent child) (ho : s.open_jobs < MAX_OPEN_JOBS) :
    Act w s ⟨.reserve parent child, st⟩ { s with open_jobs := s.open_jobs + 1 }
      ⟨.share (some child), parent :: st⟩ .nobody
  | spill (s st parent child) (ho : ¬s.open_jobs < MAX_OPEN_JOBS) :
    Act w s ⟨.reserve parent child, st⟩ s
      ⟨.share (some child), { parent with dir := false } :: st⟩ .nobody
  -- `share_oldest`
  | share_nothing (s st child) (hn : st = [] ∨ s.idle = 0) :
    Act w s ⟨.share child, st⟩ s ⟨after child, st⟩ .nobody
  | share_go (s st child) (hn : st ≠ []) (hi : s.idle ≠ 0) :
    Act w s ⟨.share child, st⟩ s ⟨.shareLock child, st⟩ .nobody
  | share_lock (s st child) (hfree : s.held = none) :
    Act w s ⟨.shareLock child, st⟩ (s.lock w) ⟨.shareMove child, st⟩ .nobody
  | share_move (s st child oldest) :
    Act w s ⟨.shareMove child, st ++ [oldest]⟩ { s with jobs := oldest :: s.jobs }
      ⟨.shareNotify child, st⟩ .nobody
  | share_empty (s child) :
    Act w s ⟨.shareMove child, []⟩ s.unlock ⟨after child, []⟩ .nobody
  | share_quiet (s st child) (hi : s.idle = 0) :
    Act w s ⟨.shareNotify child, st⟩ s.unlock ⟨after child, st⟩ .nobody
  | share_notify (s st child) (hi : s.idle ≠ 0) :
    Act w s ⟨.shareNotify child, st⟩ s.unlock ⟨after child, st⟩ .one
  -- `finish_one`
  | finish_last (s st) (ho : s.outstanding = 1) :
    Act w s ⟨.finish, st⟩ { s with outstanding := s.outstanding - 1 } ⟨.finishLock, st⟩ .nobody
  | finish_one (s st) (ho : s.outstanding ≠ 1) :
    Act w s ⟨.finish, st⟩ { s with outstanding := s.outstanding - 1 } ⟨.share none, st⟩ .nobody
  | finish_lock (s st) (hfree : s.held = none) :
    Act w s ⟨.finishLock, st⟩ (s.lock w) ⟨.finishNotify, st⟩ .nobody
  | finish_notify (s st) : Act w s ⟨.finishNotify, st⟩ s.unlock ⟨.share none, st⟩ .all
  | pop_local (s st job) : Act w s ⟨.popLocal, job :: st⟩ s ⟨.release job, st⟩ .nobody
  | pop_take (s) : Act w s ⟨.popLocal, []⟩ s ⟨.takeLock, []⟩ .nobody
  | release (s st job) :
    Act w s ⟨.release job, st⟩ (s.release_open job) ⟨.loop job, st⟩ .nobody
  -- `run_guarded`
  | cancel (s st) :
    Act w s ⟨.panicked, st⟩ { s with cancelled := true } ⟨.panicLock, st⟩ .nobody
  | panic_lock (s st) (hfree : s.held = none) :
    Act w s ⟨.panicLock, st⟩ (s.lock w) ⟨.panicNotify, st⟩ .nobody
  | panic_notify (s st) : Act w s ⟨.panicNotify, st⟩ s.unlock ⟨.dead, st⟩ .all

/-- A worker that waits is to wake. -/
def Worker.notify (v : Worker) : Worker := if v.pc = .asleep then { v with pc := .notified } else v

variable [DecidableEq W]

/-- What a notification does to the workers: `notify_one` wakes some worker
that waits, if there is one. -/
inductive Woken : Wake → (W → Worker) → (W → Worker) → Prop
  | nobody (ws) : Woken .nobody ws ws
  | none_waits (ws) (h : ∀ v, (ws v).pc ≠ .asleep) : Woken .one ws ws
  | one (ws v) (h : (ws v).pc = .asleep) :
    Woken .one ws (Function.update ws v (ws v).notify)
  | all (ws) : Woken .all ws (fun v => (ws v).notify)

/-- **The state of a walk.** -/
structure State (W : Type) where
  shared : Shared W
  workers : W → Worker

/-- A walk with its root job queued and its workers about to start. -/
def State.new (W : Type) (root : Job) : State W where
  shared := Shared.new W root
  workers := fun _ => { pc := .start, stack := [] }

/-- **One step of a walk**, by the worker `w`. -/
def Step (w : W) (s s' : State W) : Prop :=
  ∃ v wake, Act w s.shared (s.workers w) s'.shared v wake ∧
    Woken wake (Function.update s.workers w v) s'.workers

/-- A wait may also end without a notification. -/
def Spurious (w : W) (s s' : State W) : Prop :=
  (s.workers w).pc = .asleep ∧
    s' = { s with workers := Function.update s.workers w (s.workers w).notify }

/-- **A run**, with the number of its steps and of its spurious wake-ups. -/
inductive Trace : State W → ℕ → ℕ → State W → Prop
  | refl (s) : Trace s 0 0 s
  | step {s t u m k w} (h : Trace s m k t) (hstep : Step w t u) : Trace s (m + 1) k u
  | spurious {s t u m k w} (h : Trace s m k t) (hstep : Spurious w t u) : Trace s m (k + 1) u

end Ferret.Walk
