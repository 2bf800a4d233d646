import Ferret.Crawl.Schedule
import Mathlib.Algebra.Order.BigOperators.Group.Finset
import Mathlib.Tactic.Abel

/-!
# What holds of every state of a walk

Each counter is tied to the places the workers stand at. The lock is held by
the one worker inside a critical section; `idle` counts the workers inside the
`while` of `take`; `outstanding` counts the jobs queued, stacked or in hand;
`open_jobs` bounds the open descriptors among the queued and the stacked ones.

A worker asleep is never forgotten. While one sleeps, every job in the queue
is matched by a worker that has been notified or is already on its way to the
queue, or by one that has just pushed and still holds the lock; and if nothing
is outstanding, or the walk is cancelled, then the worker that brought this
about has yet to notify everyone.
-/

namespace Ferret.Walk

open Function

/-- Whether a worker standing here holds the lock of the queue. -/
def Pc.holds : Pc → Bool
  | takeCancelled | takePop | takeRelease _ | takeOutstanding | takeIdle | waitEmpty
  | waitCancelled | waitOutstanding | waitSleep | wake | shareMove _ | shareNotify _
  | finishNotify | panicNotify => true
  | _ => false

/-- Whether a worker standing here is counted in `idle`. -/
def Pc.idles : Pc → ℕ
  | waitEmpty | waitCancelled | waitOutstanding | waitSleep | asleep | notified | wake => 1
  | _ => 0

/-- The jobs in a worker's hand. -/
def Pc.hand : Pc → List Job
  | takeRelease job | loop job | process job | release job => [job]
  | descended parent child | reserve parent child => [parent, child]
  | share child | shareLock child | shareMove child | shareNotify child => child.toList
  | _ => []

/-- How many jobs in a worker's hand are counted in `outstanding`. -/
def Pc.counted : Pc → ℕ
  | takeRelease _ | loop _ | process _ | release _ | descended _ _ | finish => 1
  | reserve _ _ => 2
  | share child | shareLock child | shareMove child | shareNotify child => child.toList.length
  | _ => 0

/-- Descriptors of jobs no longer queued whose places are not released yet. -/
def Pc.placed : Pc → ℕ
  | takeRelease job | release job => job.dir.toNat
  | _ => 0

/-- Whether a worker standing here will look into the queue before it can
sleep, or has just filled it. -/
def Pc.credit : Pc → ℕ
  | takeCancelled | takePop | waitEmpty | notified | wake | shareNotify _ => 1
  | _ => 0

/-- Whether a worker standing here has found the queue empty, and kept the lock. -/
def Pc.found_empty : Pc → Bool
  | takeOutstanding | takeIdle | waitCancelled | waitOutstanding | waitSleep => true
  | _ => false

/-- A worker that has panicked. -/
def Pc.broken : Pc → Bool
  | panicked | panicLock | panicNotify | dead => true
  | _ => false

/-- Whether a worker here has set `cancelled`. -/
def Pc.cancelling : Pc → Bool
  | panicLock | panicNotify | dead => true
  | _ => false

/-- Whether a worker here is inside `take`, or has not begun. -/
def Pc.taking : Pc → Bool
  | start | takeLock | takeCancelled | takePop | takeRelease _ | takeOutstanding | takeIdle
  | waitEmpty | waitCancelled | waitOutstanding | waitSleep | asleep | notified | wake
  | returned => true
  | _ => false

/-- Whether a worker here has decided to wait. -/
def Pc.sleeping : Pc → Bool
  | waitSleep | asleep => true
  | _ => false

/-- Whether a worker here has read `cancelled` as false on its way to wait. -/
def Pc.dozing : Pc → Bool
  | waitOutstanding | waitSleep | asleep => true
  | _ => false

/-- Whether a worker here has yet to notify everyone that nothing is left. -/
def Pc.ending : Pc → Bool
  | finishLock | finishNotify => true
  | _ => false

/-- Whether a worker here has yet to notify everyone of its panic. -/
def Pc.alarming : Pc → Bool
  | panicLock | panicNotify => true
  | _ => false

/-- A worker that will take no further step. -/
def Pc.done : Pc → Bool
  | returned | dead => true
  | _ => false

/-- Open descriptors among some jobs. -/
def open_in (jobs : List Job) : ℕ := (jobs.map fun job => job.dir.toNat).sum

/-- The children that some jobs stand for. -/
def children_of (jobs : List Job) : Multiset Child :=
  (jobs.map fun job => (job.entries : Multiset Child)).sum

def Worker.counted (v : Worker) : ℕ := v.stack.length + v.pc.counted

def Worker.placed (v : Worker) : ℕ := open_in v.stack + v.pc.placed

/-- The children a worker has yet to consider. -/
def Worker.children (v : Worker) : Multiset Child := children_of v.stack + children_of v.pc.hand

/-- The children that have been considered. -/
def Shared.seen {W : Type} (s : Shared W) : Multiset Child := (s.considered.map Prod.snd : List Child)

variable {W : Type}

section

variable [Fintype W]

/-- Whether some worker has panicked. -/
def State.Broken (s : State W) : Prop := ∃ w, (s.workers w).pc.broken = true

/-- The children considered, those given up, and those that are still to be. -/
def State.children (s : State W) : Multiset Child :=
  s.shared.seen + children_of s.shared.faults + children_of s.shared.jobs +
    ∑ w, (s.workers w).children

/-- **The invariant of a walk** from the job `root`. -/
structure Inv (root : Job) (s : State W) : Prop where
  lock : ∀ w, (s.workers w).pc.holds = true ↔ s.shared.held = some w
  idle : s.shared.idle = ∑ w, (s.workers w).pc.idles
  counted_le : s.shared.jobs.length + ∑ w, (s.workers w).counted ≤ s.shared.outstanding
  counted_ge : ¬s.Broken →
    s.shared.outstanding ≤ s.shared.jobs.length + ∑ w, (s.workers w).counted
  placed : open_in s.shared.jobs + ∑ w, (s.workers w).placed ≤ s.shared.open_jobs
  limit : s.shared.open_jobs ≤ MAX_OPEN_JOBS
  bare : ∀ w, (s.workers w).pc.taking = true → (s.workers w).stack = []
  found_empty : ∀ w, (s.workers w).pc.found_empty = true → s.shared.jobs = []
  wake : s.shared.cancelled = false → (∃ w, (s.workers w).pc = .asleep) →
    s.shared.jobs.length ≤ ∑ w, (s.workers w).pc.credit
  ends : (∃ w, (s.workers w).pc.sleeping = true) →
    s.shared.outstanding ≠ 0 ∨ ∃ w, (s.workers w).pc.ending = true
  cancels : (∃ w, (s.workers w).pc.dozing = true) →
    s.shared.cancelled = false ∨ ∃ w, (s.workers w).pc.alarming = true
  cancelled : s.shared.cancelled = true ↔ ∃ w, (s.workers w).pc.cancelling = true
  returned : (∃ w, (s.workers w).pc = .returned) →
    s.shared.cancelled = true ∨ s.shared.outstanding = 0
  children_le : s.children ≤ root.entries
  children_ge : ¬s.Broken → (root.entries : Multiset Child) ≤ s.children

end

/-! ## What one act does, apart from the other workers -/

section

variable {w : W} {s s' : Shared W} {o n : Worker} {k : Wake}

@[simp]
theorem open_in_nil : open_in [] = 0 := rfl

@[simp]
theorem open_in_cons (a : Job) (b : List Job) : open_in (a :: b) = a.dir.toNat + open_in b := by
  simp [open_in]

@[simp]
theorem open_in_append (a b : List Job) : open_in (a ++ b) = open_in a + open_in b := by
  simp [open_in]

@[simp]
theorem children_of_nil : children_of [] = 0 := rfl

@[simp]
theorem children_of_cons (a : Job) (b : List Job) :
    children_of (a :: b) = a.entries + children_of b := by
  simp [children_of]

@[simp]
theorem children_of_append (a b : List Job) :
    children_of (a ++ b) = children_of a + children_of b := by
  simp [children_of]

attribute [local simp] after Shared.lock Shared.unlock Shared.release_open Shared.consider

section

variable (h : Act w s o s' n k)

include h

/-- The lock is kept, taken when free, or given back. -/
theorem Act.lock :
    (o.pc.holds = n.pc.holds ∧ s'.held = s.held) ∨
    (o.pc.holds = false ∧ n.pc.holds = true ∧ s.held = none ∧ s'.held = some w) ∨
    (o.pc.holds = true ∧ n.pc.holds = false ∧ s'.held = none) := by
  induction h
  all_goals try cases ‹Option Job›
  all_goals simp_all [Pc.holds]

/-- The queue changes hands only under the lock. -/
theorem Act.jobs : s'.jobs = s.jobs ∨ o.pc.holds = true := by
  induction h
  all_goals simp [Pc.holds]

theorem Act.idle (hle : o.pc.idles ≤ s.idle) : s'.idle + o.pc.idles = s.idle + n.pc.idles := by
  induction h
  all_goals try cases ‹Option Job›
  all_goals simp_all [Pc.idles]

/-- No job is counted less than it should be. -/
theorem Act.counted_le (hle : o.pc.counted ≤ s.outstanding) :
    s'.jobs.length + n.counted + s.outstanding ≤ s.jobs.length + o.counted + s'.outstanding := by
  induction h
  all_goals try cases ‹Option Job›
  all_goals simp_all [Worker.counted, Pc.counted]
  all_goals omega

/-- No job is counted more than it should be, unless its worker dropped it: by a
panic, or because the walk is cancelled. -/
theorem Act.counted_ge (hn : n.pc.broken = false)
    (hc : s.cancelled = false) (hst : o.pc.taking = true → o.stack = [])
    (hle : o.pc.counted ≤ s.outstanding) :
    s.jobs.length + o.counted + s'.outstanding ≤ s'.jobs.length + n.counted + s.outstanding := by
  induction h
  all_goals try cases ‹Option Job›
  all_goals simp_all [Worker.counted, Pc.counted, Pc.broken, Pc.taking]
  all_goals omega

theorem Act.placed (hle : o.pc.placed ≤ s.open_jobs) :
    open_in s'.jobs + n.placed + s.open_jobs ≤ open_in s.jobs + o.placed + s'.open_jobs := by
  induction h
  all_goals try cases ‹Option Job›
  case take_release job | release job =>
    cases hd : job.dir
    all_goals simp_all [Worker.placed, Pc.placed]
    all_goals omega
  case reserve parent child _ =>
    cases hd : parent.dir <;> simp [Worker.placed, Pc.placed, hd]
    all_goals omega
  all_goals simp_all [Worker.placed, Pc.placed]
  all_goals omega

theorem Act.limit (hle : s.open_jobs ≤ MAX_OPEN_JOBS) : s'.open_jobs ≤ MAX_OPEN_JOBS := by
  induction h
  case take_release job | release job =>
    cases hd : job.dir <;> simp [hd] <;> omega
  case reserve ho => exact ho
  all_goals simpa using hle

theorem Act.bare (hst : o.pc.taking = true → o.stack = [])
    (hn : n.pc.taking = true) : n.stack = [] := by
  induction h
  all_goals try cases ‹Option Job›
  all_goals simp_all [Pc.taking]

theorem Act.found_empty (hn : n.pc.found_empty = true) :
    s'.jobs = s.jobs ∧ (o.pc.found_empty = true ∨ s.jobs = []) := by
  induction h
  all_goals try cases ‹Option Job›
  all_goals simp_all [Pc.found_empty]

/-- A worker that goes to sleep has found the queue empty. -/
theorem Act.sleeps (hn : n.pc = .asleep) : o.pc.found_empty = true ∧ s'.jobs = s.jobs := by
  induction h
  all_goals try cases ‹Option Job›
  all_goals simp_all [Pc.found_empty]

end

/-- Everyone is notified under the lock. -/
theorem Act.notifies_all (h : Act w s o s' n .all) :
    o.pc.holds = true ∧ n.pc.dozing = false := by
  cases h
  all_goals simp [Pc.holds, Pc.dozing]

section

variable (h : Act w s o s' n k)

include h

/-- A worker that gives up its turn at the queue has found it empty, or has just
notified another. -/
theorem Act.credit (hc : s.cancelled = false) :
    s'.jobs.length + o.pc.credit ≤ s.jobs.length + n.pc.credit ∨ s'.jobs = [] ∨
      (s'.jobs = s.jobs ∧ n.pc.credit = 0 ∧ (k = .one ∨ s.idle = 0)) := by
  induction h
  all_goals try cases ‹Option Job›
  all_goals simp_all [Pc.credit]

theorem Act.ends (hn : n.pc.sleeping = true) : o.pc.sleeping = true ∨ s'.outstanding ≠ 0 := by
  induction h
  all_goals try cases ‹Option Job›
  all_goals simp_all [Pc.sleeping]

/-- Whoever finishes the last job is about to notify everyone. -/
theorem Act.outstanding (hz : s'.outstanding = 0) : s.outstanding = 0 ∨ n.pc.ending = true := by
  induction h
  all_goals simp_all [Pc.ending]
  all_goals omega

theorem Act.ending (ho : o.pc.ending = true) : n.pc.ending = true ∨ k = .all := by
  induction h
  all_goals simp_all [Pc.ending]

theorem Act.dozing (hn : n.pc.dozing = true) : o.pc.dozing = true ∨ s'.cancelled = false := by
  induction h
  all_goals try cases ‹Option Job›
  all_goals simp_all [Pc.dozing]

/-- A worker sets `cancelled` where it panicked, and nobody clears it. -/
theorem Act.cancelled :
    (s'.cancelled = true ↔ s.cancelled = true ∨ n.pc.alarming = true ∧ o.pc = .panicked) ∧
    (n.pc.cancelling = true ↔ o.pc.cancelling = true ∨ o.pc = .panicked) := by
  induction h
  all_goals try cases ‹Option Job›
  all_goals simp [Pc.alarming, Pc.cancelling]

theorem Act.alarming (ho : o.pc.alarming = true) : n.pc.alarming = true ∨ k = .all := by
  induction h
  all_goals simp_all [Pc.alarming]

theorem Act.alarmed (ho : o.pc = .panicked) : n.pc.alarming = true := by
  induction h
  all_goals simp_all [Pc.alarming]

/-- A worker returns when the walk is cancelled, or when nothing is left. -/
theorem Act.returned (hn : n.pc = .returned) : s'.cancelled = true ∨ s'.outstanding = 0 := by
  induction h
  all_goals try cases ‹Option Job›
  all_goals simp_all

/-- Only a worker with a job in hand adds to `outstanding`. -/
theorem Act.stays_zero (hle : o.pc.counted ≤ s.outstanding)
    (hz : s.outstanding = 0) : s'.outstanding = 0 := by
  induction h
  all_goals simp_all [Pc.counted]

theorem Act.broken (ho : o.pc.broken = true) : n.pc.broken = true := by
  induction h
  all_goals simp_all [Pc.broken]

end

/-- A job's children are its next child, those below it, and those after it. -/
theorem Job.entries_leaf {job : Job} {rest : Listing} (h : job.rest = .leaf rest) :
    job.entries = (job.rel, job.next) :: (job.advance rest).entries := by
  simp [Job.entries, Job.advance, h, Listing.entries]

theorem Job.entries_dir {job : Job} {sub rest : Listing} (h : job.rest = .dir sub rest) :
    job.entries = (job.rel, job.next) ::
      ((Job.new (job.rel ++ [job.next]) sub).entries ++ (job.advance rest).entries) := by
  simp [Job.entries, Job.advance, Job.new, h, Listing.entries]

theorem Job.entries_nil {job : Job} (h : job.rest = .nil) : job.entries = [] := by
  simp [Job.entries, h, Listing.entries]

/-- What the whole of the children is counted by. -/
def tally (s : Shared W) (v : Worker) : Multiset Child :=
  s.seen + children_of s.faults + children_of s.jobs + v.children

/-- **Nothing is considered twice, and nothing is left out** but what a worker
drops: by a panic, or because the walk is cancelled. -/
theorem Act.children (h : Act w s o s' n k) (hst : o.pc.taking = true → o.stack = []) :
    ∃ lost, tally s o = tally s' n + lost ∧
      (lost = 0 ∨ n.pc.broken = true ∨ s.cancelled = true) := by
  induction h
  case share_nothing child _ | share_quiet child _ | share_notify child _ | share_empty child =>
    refine ⟨0, ?_, .inl rfl⟩
    cases child <;> simp [tally, Worker.children, Pc.hand, Shared.seen]
  case loop_cancelled st job hc =>
    refine ⟨children_of st + job.entries, ?_, .inr (.inr hc)⟩
    simp [tally, Worker.children, Pc.hand]
  case reopen_fault st job _ =>
    refine ⟨0, ?_, .inl rfl⟩
    simp only [tally, Worker.children, Pc.hand, Shared.seen, children_of_cons, children_of_nil]
    abel
  case consider_leaf st job rest _ hrest =>
    refine ⟨0, ?_, .inl rfl⟩
    have e : (job.entries : Multiset Child) =
        {(job.rel, job.next)} + ((job.advance rest).entries : Multiset Child) := by
      rw [Job.entries_leaf hrest]
      rfl
    have hseen : (s.consider w job).seen = {(job.rel, job.next)} + s.seen := by
      simp [Shared.seen]
    simp only [tally, Worker.children, Pc.hand, children_of_cons, children_of_nil, e, hseen]
    simp only [Shared.consider]
    abel
  case consider_dir st job sub rest _ hrest =>
    refine ⟨0, ?_, .inl rfl⟩
    have e : (job.entries : Multiset Child) = {(job.rel, job.next)} +
        (((Job.new (job.rel ++ [job.next]) sub).entries : Multiset Child) +
          ((job.advance rest).entries : Multiset Child)) := by
      rw [Job.entries_dir hrest]
      rfl
    have hseen : (s.consider w job).seen = {(job.rel, job.next)} + s.seen := by
      simp [Shared.seen]
    simp only [tally, Worker.children, Pc.hand, children_of_cons, children_of_nil, e, hseen]
    simp only [Shared.consider]
    abel
  case exhausted st job _ hrest =>
    refine ⟨0, ?_, .inl rfl⟩
    simp [tally, Worker.children, Pc.hand, Job.entries_nil hrest]
  case panics st job =>
    refine ⟨children_of st + job.entries, ?_, .inr (.inl rfl)⟩
    simp [tally, Worker.children, Pc.hand]
  case drop_parent st parent child hrest =>
    refine ⟨0, ?_, .inl rfl⟩
    simp [tally, Worker.children, Pc.hand, Job.entries_nil hrest]
  case take_job st job rest hjobs =>
    refine ⟨0, ?_, .inl rfl⟩
    simp only [tally, Worker.children, Pc.hand, Shared.seen, hjobs, children_of_cons,
      children_of_nil]
    abel
  case spill st parent child _ =>
    refine ⟨0, ?_, .inl rfl⟩
    simp only [tally, Worker.children, Pc.hand, children_of_cons, children_of_nil, Job.entries,
      Option.toList]
    abel
  case reserve st parent child _ =>
    refine ⟨0, ?_, .inl rfl⟩
    simp only [tally, Worker.children, Pc.hand, Shared.seen, children_of_cons, children_of_nil,
      Option.toList]
    abel
  case share_move st child oldest =>
    refine ⟨0, ?_, .inl rfl⟩
    simp only [tally, Worker.children, Pc.hand, Shared.seen, children_of_append, children_of_cons,
      children_of_nil]
    abel
  case pop_local st job =>
    refine ⟨0, ?_, .inl rfl⟩
    simp only [tally, Worker.children, Pc.hand, children_of_cons, children_of_nil]
    abel
  all_goals
    refine ⟨0, ?_, .inl rfl⟩
    simp_all [tally, Worker.children, Pc.hand, Pc.taking, Job.entries, Shared.seen]

end

/-! ## The invariant, step by step -/

section

variable [DecidableEq W] {ws ws' : W → Worker} {k : Wake} {v w : W}

theorem Woken.eq_or (h : Woken k ws ws') (v : W) :
    ws' v = ws v ∨ (ws v).pc = .asleep ∧ ws' v = { ws v with pc := .notified } := by
  have hnotify : ∀ u : Worker, u.notify = u ∨
      u.pc = .asleep ∧ u.notify = { u with pc := .notified } := by
    intro u
    unfold Worker.notify
    split
    · next ha => exact .inr ⟨ha, rfl⟩
    · exact .inl rfl
  cases h with
  | nobody | none_waits => exact .inl rfl
  | all => exact hnotify (ws v)
  | one _ u _ =>
    rcases eq_or_ne v u with rfl | hvu
    · rw [update_self]
      exact hnotify (ws v)
    · exact .inl (update_of_ne hvu _ _)

theorem Woken.stack_eq (h : Woken k ws ws') (v : W) : (ws' v).stack = (ws v).stack := by
  rcases h.eq_or v with e | ⟨_, e⟩ <;> rw [e]

/-- What does not tell a worker that waits from one that has been notified is
unchanged by a notification. -/
theorem Woken.pc_eq {α : Type} {f : Pc → α} (hf : f .notified = f .asleep) (h : Woken k ws ws')
    (v : W) : f (ws' v).pc = f (ws v).pc := by
  rcases h.eq_or v with e | ⟨ha, e⟩
  · rw [e]
  · rw [e, ha]
    exact hf

/-- The class of places each worker stands in after a step. -/
theorem Woken.class_eq {α : Type} {f : Pc → α} (hf : f .notified = f .asleep) {n : Worker}
    (h : Woken k (Function.update ws w n) ws') (v : W) :
    f (ws' v).pc = if v = w then f n.pc else f (ws v).pc := by
  rw [h.pc_eq hf v, update_apply]
  split <;> rfl

/-- A worker found asleep was asleep. -/
theorem Woken.asleep (h : Woken k ws ws') (hv : (ws' v).pc = .asleep) : (ws v).pc = .asleep := by
  rcases h.eq_or v with e | ⟨ha, _⟩
  · rwa [e] at hv
  · exact ha

theorem Woken.not_all (h : Woken k ws ws') (hv : (ws' v).pc = .asleep) : k ≠ .all := by
  rintro rfl
  cases h
  simp only [Worker.notify] at hv
  split at hv
  · cases hv
  · contradiction

variable [Fintype W]

/-- A sum over the workers when one of them changes. -/
theorem sum_update {α M : Type} [AddCommMonoid M] (f : α → M) (ws : W → α) (w : W) (x : α) :
    ∑ v, f (Function.update ws w x v) + f (ws w) = ∑ v, f (ws v) + f x := by
  rw [← Finset.add_sum_erase _ _ (Finset.mem_univ w),
    ← Finset.add_sum_erase _ (fun v => f (ws v)) (Finset.mem_univ w)]
  have hrest : ∑ v ∈ Finset.univ.erase w, f (Function.update ws w x v) =
      ∑ v ∈ Finset.univ.erase w, f (ws v) := by
    refine Finset.sum_congr rfl fun v hv => ?_
    rw [update_of_ne (Finset.ne_of_mem_erase hv)]
  rw [hrest, update_self]
  abel

/-- A notification leaves such a sum as it is. -/
theorem Woken.sum_eq {M : Type} [AddCommMonoid M] {f : Worker → M}
    (hf : ∀ st, f ⟨.notified, st⟩ = f ⟨.asleep, st⟩) (h : Woken k ws ws') :
    ∑ v, f (ws' v) = ∑ v, f (ws v) := by
  refine Finset.sum_congr rfl fun v _ => ?_
  rcases h.eq_or v with e | ⟨ha, e⟩
  · rw [e]
  · rw [e]
    generalize ws v = u at ha
    obtain ⟨_, st⟩ := u
    cases ha
    exact hf st

/-- A sum over the workers after a step. -/
theorem Woken.sum {M : Type} [AddCommMonoid M] {f : Worker → M}
    (hf : ∀ st, f ⟨.notified, st⟩ = f ⟨.asleep, st⟩) {n : Worker}
    (h : Woken k (Function.update ws w n) ws') :
    ∑ v, f (ws' v) + f (ws w) = ∑ v, f (ws v) + f n := by
  rw [← sum_update f ws w n, h.sum_eq hf]

/-- A notification only adds workers on their way to the queue. -/
theorem Woken.credit_le (h : Woken k ws ws') :
    ∑ v, (ws v).pc.credit ≤ ∑ v, (ws' v).pc.credit := by
  refine Finset.sum_le_sum fun v _ => ?_
  rcases h.eq_or v with e | ⟨ha, e⟩
  · rw [e]
  · rw [ha]
    exact Nat.zero_le _

theorem Woken.credit_lt (h : Woken .one ws ws') (hv : (ws v).pc = .asleep) :
    ∑ v, (ws v).pc.credit + 1 ≤ ∑ v, (ws' v).pc.credit := by
  cases h with
  | none_waits _ hno => exact absurd hv (hno v)
  | one _ u hu =>
    have hsum := sum_update (fun v => v.pc.credit) ws u (ws u).notify
    have hnew : (ws u).notify.pc.credit = 1 := by simp [Worker.notify, hu, Pc.credit]
    have hold : (ws u).pc.credit = 0 := by rw [hu]; rfl
    omega

omit [DecidableEq W] in
theorem le_sum (f : Worker → ℕ) (ws : W → Worker) (w : W) : f (ws w) ≤ ∑ v, f (ws v) :=
  Finset.single_le_sum (fun v _ => Nat.zero_le (f (ws v))) (Finset.mem_univ w)

end

section

variable [DecidableEq W] [Fintype W] {root : Job} {s s' : State W} {w : W}

omit [DecidableEq W] in
theorem Inv.counted_worker (hi : Inv root s) (w : W) :
    (s.workers w).pc.counted ≤ s.shared.outstanding := by
  have h1 := hi.counted_le
  have h2 := le_sum Worker.counted s.workers w
  simp only [Worker.counted] at h1 h2 ⊢
  omega

omit [DecidableEq W] in
/-- A walk is cancelled only by a worker that has panicked. -/
theorem Inv.not_cancelled (hi : Inv root s) (hb : ¬s.Broken) : s.shared.cancelled = false := by
  by_contra hc
  obtain ⟨v, hv⟩ := hi.cancelled.mp (by simpa using hc)
  refine hb ⟨v, ?_⟩
  revert hv
  cases (s.workers v).pc <;> simp [Pc.cancelling, Pc.broken]

variable {n : Worker} {k : Wake}

omit [Fintype W] in
/-- Where no worker has panicked after a step, none had before it. -/
theorem before_unbroken (ha : Act w s.shared (s.workers w) s'.shared n k)
    (hw : Woken k (Function.update s.workers w n) s'.workers) (hb : ¬s'.Broken) :
    ¬s.Broken ∧ n.pc.broken = false := by
  have hn : n.pc.broken = false := by
    by_contra hne
    exact hb ⟨w, by rw [hw.class_eq (f := Pc.broken) rfl w, if_pos rfl]; simpa using hne⟩
  refine ⟨fun ⟨v, hv⟩ => ?_, hn⟩
  rcases eq_or_ne v w with rfl | hvw
  · exact absurd (ha.broken hv) (by simp [hn])
  · exact hb ⟨v, by rw [hw.class_eq (f := Pc.broken) rfl v, if_neg hvw]; exact hv⟩

/-- Once everyone has been notified, nobody waits or is about to. -/
theorem nobody_dozes (hi : Inv root s)
    (ha : Act w s.shared (s.workers w) s'.shared n .all)
    (hw : Woken .all (Function.update s.workers w n) s'.workers) :
    ∀ v, (s'.workers v).pc.dozing ≠ true := by
  intro v hv
  have hne : (s'.workers v).pc ≠ .asleep := fun h => hw.not_all h rfl
  obtain ⟨hheld, hn⟩ := ha.notifies_all
  rcases hw.eq_or v with e | ⟨_, e⟩
  · rw [e, update_apply] at hv hne
    split at hv
    · simp [hn] at hv
    · next hvw =>
      rw [if_neg hvw] at hne
      have hholds : (s.workers v).pc.holds = true := by
        revert hv hne
        cases (s.workers v).pc <;> simp [Pc.dozing, Pc.holds]
      have e1 := (hi.lock v).mp hholds
      rw [(hi.lock w).mp hheld] at e1
      exact hvw (Option.some.inj e1).symm
  · rw [e] at hv
    cases hv

section

variable (hi : Inv root s) (ha : Act w s.shared (s.workers w) s'.shared n k)
    (hw : Woken k (Function.update s.workers w n) s'.workers)

include hi ha hw

theorem children_step : ∃ lost, s.children = s'.children + lost ∧
    (lost = 0 ∨ n.pc.broken = true ∨ s.shared.cancelled = true) := by
  obtain ⟨lost, e, h⟩ := ha.children (hi.bare w)
  refine ⟨lost, ?_, h⟩
  have hsum := hw.sum (f := Worker.children) (fun _ => rfl)
  apply add_right_cancel (b := n.children)
  calc s.children + n.children
      = s.shared.seen + children_of s.shared.faults + children_of s.shared.jobs +
          (∑ v, (s.workers v).children + n.children) := by
        simp only [State.children]
        abel
    _ = tally s.shared (s.workers w) + ∑ v, (s'.workers v).children := by
        rw [← hsum]
        simp only [tally]
        abel
    _ = s'.children + lost + n.children := by
        rw [e]
        simp only [tally, State.children]
        abel

theorem lock_step : ∀ v, (s'.workers v).pc.holds = true ↔ s'.shared.held = some v := by
  intro v
  have hv := hi.lock v
  have hw' := hi.lock w
  rw [hw.class_eq (f := Pc.holds) rfl v]
  rcases eq_or_ne v w with rfl | hvw
  · rw [if_pos rfl]
    rcases ha.lock with ⟨e1, e2⟩ | ⟨_, e2, _, e4⟩ | ⟨_, e2, e3⟩
    · rw [← e1, e2]
      exact hv
    · simp [e2, e4]
    · simp [e2, e3]
  · rw [if_neg hvw, hv]
    rcases ha.lock with ⟨_, e2⟩ | ⟨_, _, e3, e4⟩ | ⟨e1, _, e3⟩
    · rw [e2]
    · rw [e3, e4]
      simp [hvw.symm]
    · rw [e3, hw'.mp e1]
      simp [hvw.symm]

theorem idle_step : s'.shared.idle = ∑ v, (s'.workers v).pc.idles := by
  have hsum := hw.sum (f := fun v => v.pc.idles) (fun _ => rfl)
  have hle := le_sum (fun v => v.pc.idles) s.workers w
  have h := ha.idle (hi.idle ▸ hle)
  have hidle := hi.idle
  omega

theorem counted_le_step : s'.shared.jobs.length + ∑ v, (s'.workers v).counted ≤
  s'.shared.outstanding := by
  have hsum := hw.sum (f := Worker.counted) (fun _ => rfl)
  have h := ha.counted_le (hi.counted_worker w)
  have hold := hi.counted_le
  omega

theorem counted_ge_step : ¬s'.Broken → s'.shared.outstanding ≤ s'.shared.jobs.length + ∑ v,
  (s'.workers v).counted := by
  intro hb
  obtain ⟨hb, hn⟩ := before_unbroken ha hw hb
  have hsum := hw.sum (f := Worker.counted) (fun _ => rfl)
  have h := ha.counted_ge hn (hi.not_cancelled hb) (hi.bare w) (hi.counted_worker w)
  have hold := hi.counted_ge hb
  omega

theorem placed_step : open_in s'.shared.jobs + ∑ v, (s'.workers v).placed ≤ s'.shared.open_jobs :=
  by
  have hsum := hw.sum (f := Worker.placed) (fun _ => rfl)
  have hle : (s.workers w).pc.placed ≤ s.shared.open_jobs := by
    have h1 := hi.placed
    have h2 := le_sum Worker.placed s.workers w
    simp only [Worker.placed] at h1 h2 ⊢
    omega
  have h := ha.placed hle
  have hold := hi.placed
  omega

theorem bare_step : ∀ v, (s'.workers v).pc.taking = true → (s'.workers v).stack = [] := by
  intro v hv
  rw [hw.class_eq (f := Pc.taking) rfl v] at hv
  rw [hw.stack_eq v, update_apply]
  rcases eq_or_ne v w with rfl | hvw
  · rw [if_pos rfl] at hv ⊢
    exact ha.bare (hi.bare v) hv
  · rw [if_neg hvw] at hv ⊢
    exact hi.bare v hv

theorem found_empty_step : ∀ v, (s'.workers v).pc.found_empty = true → s'.shared.jobs = [] := by
  intro v hv
  rw [hw.class_eq (f := Pc.found_empty) rfl v] at hv
  rcases eq_or_ne v w with rfl | hvw
  · rw [if_pos rfl] at hv
    obtain ⟨e, h | h⟩ := ha.found_empty hv
    · rw [e]
      exact hi.found_empty v h
    · rw [e, h]
  · rw [if_neg hvw] at hv
    -- the worker that found the queue empty still holds its lock
    have hheld : (s.workers v).pc.holds = true := by
      revert hv
      cases (s.workers v).pc <;> simp [Pc.found_empty, Pc.holds]
    rcases ha.jobs with e | e
    · rw [e]
      exact hi.found_empty v hv
    · have e1 := (hi.lock v).mp hheld
      have e2 := (hi.lock w).mp e
      rw [e1] at e2
      exact absurd (Option.some.inj e2) hvw

/-- A worker asleep stays matched with the jobs in the queue. -/
theorem wake_step : s'.shared.cancelled = false → (∃ v, (s'.workers v).pc = .asleep) →
      s'.shared.jobs.length ≤ ∑ v, (s'.workers v).pc.credit := by
  rintro hc ⟨v, hv⟩
  have hcs : s.shared.cancelled = false := by
    by_contra h
    rw [(ha.cancelled.1.mpr (.inl (by simpa using h)))] at hc
    cases hc
  have hasleep := hw.asleep hv
  rw [update_apply] at hasleep
  rcases eq_or_ne v w with rfl | hvw
  · rw [if_pos rfl] at hasleep
    obtain ⟨hfound, e⟩ := ha.sleeps hasleep
    rw [e, hi.found_empty v hfound]
    exact Nat.zero_le _
  · rw [if_neg hvw] at hasleep
    have hold := hi.wake hcs ⟨v, hasleep⟩
    have hsum := sum_update (fun v => v.pc.credit) s.workers w n
    have hmore := hw.credit_le
    rcases ha.credit hcs with h | h | ⟨e, _, h | h⟩
    · omega
    · simp [h]
    · subst h
      have hwoken := hw.credit_lt (v := v) (by rw [update_of_ne hvw]; exact hasleep)
      have hcredit : (s.workers w).pc.credit ≤ 1 := by
        cases (s.workers w).pc <;> simp [Pc.credit]
      rw [e]
      omega
    · have hidle := le_sum (fun v => v.pc.idles) s.workers v
      have hone : (s.workers v).pc.idles = 1 := by rw [hasleep]; rfl
      have := hi.idle
      omega

/-- Nobody sleeps on when nothing is left. -/
theorem ends_step : (∃ v, (s'.workers v).pc.sleeping = true) →
      s'.shared.outstanding ≠ 0 ∨ ∃ v, (s'.workers v).pc.ending = true := by
  rintro ⟨v, hv⟩
  by_contra hno
  obtain ⟨hz, hending⟩ := not_or.mp hno
  have hn : n.pc.ending ≠ true := fun h =>
    hending ⟨w, by rw [hw.class_eq (f := Pc.ending) rfl w, if_pos rfl]; exact h⟩
  have hzero : s.shared.outstanding = 0 := (ha.outstanding (not_not.mp hz)).resolve_right hn
  have hasleep : (s.workers v).pc.sleeping = true := by
    rcases hw.eq_or v with e | ⟨_, e⟩
    · rw [e, update_apply] at hv
      split at hv
      · next h => exact h ▸ (ha.ends hv).resolve_right hz
      · exact hv
    · rw [e] at hv
      cases hv
  obtain hne | ⟨u, hu⟩ := hi.ends ⟨v, hasleep⟩
  · exact hne hzero
  · rcases eq_or_ne u w with rfl | huw
    · rcases ha.ending hu with h | rfl
      · exact hn h
      · exact nobody_dozes hi ha hw v (by revert hv; cases (s'.workers v).pc <;> simp [Pc.sleeping,
        Pc.dozing])
    · exact hending ⟨u, by rw [hw.class_eq (f := Pc.ending) rfl u, if_neg huw]; exact hu⟩

/-- Nobody sleeps on when the walk is cancelled. -/
theorem cancels_step : (∃ v, (s'.workers v).pc.dozing = true) →
      s'.shared.cancelled = false ∨ ∃ v, (s'.workers v).pc.alarming = true := by
  rintro ⟨v, hv⟩
  by_contra hno
  obtain ⟨hc, halarm⟩ := not_or.mp hno
  have hn : n.pc.alarming ≠ true := fun h =>
    halarm ⟨w, by rw [hw.class_eq (f := Pc.alarming) rfl w, if_pos rfl]; exact h⟩
  have hcs : s.shared.cancelled = true := by
    rcases ha.cancelled.1.mp (by simpa using hc) with h | h
    · exact h
    · exact absurd h.1 hn
  have hdozing : (s.workers v).pc.dozing = true := by
    rcases hw.eq_or v with e | ⟨_, e⟩
    · rw [e, update_apply] at hv
      split at hv
      · next h => exact h ▸ (ha.dozing hv).resolve_right hc
      · exact hv
    · rw [e] at hv
      cases hv
  obtain hne | ⟨u, hu⟩ := hi.cancels ⟨v, hdozing⟩
  · rw [hcs] at hne
    cases hne
  · rcases eq_or_ne u w with rfl | huw
    · rcases ha.alarming hu with h | rfl
      · exact hn h
      · exact nobody_dozes hi ha hw v hv
    · exact halarm ⟨u, by rw [hw.class_eq (f := Pc.alarming) rfl u, if_neg huw]; exact hu⟩

theorem cancelled_step : s'.shared.cancelled = true ↔ ∃ v, (s'.workers v).pc.cancelling = true := by
  rw [ha.cancelled.1, hi.cancelled]
  constructor
  · rintro (⟨v, hv⟩ | ⟨_, ho⟩)
    · refine ⟨v, ?_⟩
      rw [hw.class_eq (f := Pc.cancelling) rfl v]
      rcases eq_or_ne v w with rfl | hvw
      · rw [if_pos rfl]
        exact ha.cancelled.2.mpr (.inl hv)
      · rwa [if_neg hvw]
    · refine ⟨w, ?_⟩
      rw [hw.class_eq (f := Pc.cancelling) rfl w, if_pos rfl]
      exact ha.cancelled.2.mpr (.inr ho)
  · rintro ⟨v, hv⟩
    rw [hw.class_eq (f := Pc.cancelling) rfl v] at hv
    rcases eq_or_ne v w with rfl | hvw
    · rw [if_pos rfl] at hv
      rcases ha.cancelled.2.mp hv with h | h
      · exact .inl ⟨v, h⟩
      · exact .inr ⟨ha.alarmed h, h⟩
    · rw [if_neg hvw] at hv
      exact .inl ⟨v, hv⟩

theorem returned_step : (∃ v, (s'.workers v).pc = .returned) →
      s'.shared.cancelled = true ∨ s'.shared.outstanding = 0 := by
  rintro ⟨v, hv⟩
  rcases hw.eq_or v with e | ⟨_, e⟩
  · rw [e, update_apply] at hv
    split at hv
    · exact ha.returned hv
    · rcases hi.returned ⟨v, hv⟩ with h | h
      · exact .inl (ha.cancelled.1.mpr (.inl h))
      · exact .inr (ha.stays_zero (hi.counted_worker w) h)
  · rw [e] at hv
    cases hv

theorem children_le_step : s'.children ≤ root.entries := by
  obtain ⟨_, e, _⟩ := children_step hi ha hw
  have hold := hi.children_le
  rw [e] at hold
  exact (Multiset.le_add_right _ _).trans hold

theorem children_ge_step : ¬s'.Broken → (root.entries : Multiset Child) ≤ s'.children := by
  intro hb
  obtain ⟨hb, hn⟩ := before_unbroken ha hw hb
  obtain ⟨lost, e, h⟩ := children_step hi ha hw
  have hlost : lost = 0 := by
    rcases h with h | h | h
    · exact h
    · simp [hn] at h
    · simp [hi.not_cancelled hb] at h
  rw [hlost, add_zero] at e
  rw [← e]
  exact hi.children_ge hb

end

/-- **Every step keeps the invariant.** -/
theorem Step.inv (hi : Inv root s) (hstep : Step w s s') : Inv root s' := by
  obtain ⟨n, k, ha, hw⟩ := hstep
  exact {
    lock := lock_step hi ha hw
    idle := idle_step hi ha hw
    counted_le := counted_le_step hi ha hw
    counted_ge := counted_ge_step hi ha hw
    placed := placed_step hi ha hw
    limit := ha.limit hi.limit
    bare := bare_step hi ha hw
    found_empty := found_empty_step hi ha hw
    wake := wake_step hi ha hw
    ends := ends_step hi ha hw
    cancels := cancels_step hi ha hw
    cancelled := cancelled_step hi ha hw
    returned := returned_step hi ha hw
    children_le := children_le_step hi ha hw
    children_ge := children_ge_step hi ha hw
  }

end

end Ferret.Walk
