import Ferret.Crawl.ScheduleInvariant

/-!
# Whole runs of a walk

Every state a walk reaches satisfies the invariant, and three things follow.
Some worker can always go on, until all have ended: a state in which every
worker that has not ended is asleep would have lost a wake-up. A walk ends: a
measure drops with every step, and a spurious wake-up adds no more to it than
one turn around the `while` of `take`. And a walk that ends without a panic
has considered every child of the tree, each once.
-/

namespace Ferret.Walk

open List

variable {W : Type}

/-! ## Each child is listed once -/

/-- A child listed from position `i` of `rel` on is in `rel` itself, or below one
of the children from there. -/
theorem Listing.mem_entries {c : Child} {l : Listing} {rel : Rel} {i : ℕ}
    (h : c ∈ l.entries rel i) : ∃ j, i ≤ j ∧ (c = (rel, j) ∨ rel ++ [j] <+: c.1) := by
  induction l generalizing rel i with
  | nil => cases h
  | leaf rest ih =>
    rcases mem_cons.mp h with rfl | h
    · exact ⟨i, le_rfl, .inl rfl⟩
    · obtain ⟨j, hj, hc⟩ := ih h
      exact ⟨j, by omega, hc⟩
  | dir _ rest ih ihr =>
    rcases mem_cons.mp h with rfl | h
    · exact ⟨i, le_rfl, .inl rfl⟩
    rcases mem_append.mp h with h | h
    · obtain ⟨j, _, rfl | hc⟩ := ih h
      · exact ⟨i, le_rfl, .inr (prefix_refl _)⟩
      · exact ⟨i, le_rfl, .inr ((prefix_append _ _).trans hc)⟩
    · obtain ⟨j, hj, hc⟩ := ihr h
      exact ⟨j, by omega, hc⟩

/-- What is listed below a child lies below it. -/
theorem Listing.below_of_mem {c : Child} {l : Listing} {rel : Rel} {i : ℕ}
    (h : c ∈ l.entries rel i) : rel <+: c.1 := by
  obtain ⟨j, _, rfl | hc⟩ := mem_entries h
  · exact prefix_refl _
  · exact (prefix_append _ _).trans hc

/-- Later positions lie apart from what is listed below an earlier one. -/
theorem Listing.not_below {c : Child} {l : Listing} {rel : Rel} {i j : ℕ} (hij : i < j)
    (h : c ∈ l.entries rel j) : ¬rel ++ [i] <+: c.1 := by
  intro hi
  obtain ⟨j', _, rfl | hc⟩ := mem_entries h
  · have := hi.length_le
    simp at this
  · have hle := prefix_of_prefix_length_le hi hc (by simp)
    have e := hle.eq_of_length (by simp)
    have : i = j' := by simpa using e
    omega

theorem Listing.entries_nodup (l : Listing) (rel : Rel) (i : ℕ) : (l.entries rel i).Nodup := by
  induction l generalizing rel i with
  | nil => exact nodup_nil
  | leaf rest ih =>
    refine nodup_cons.mpr ⟨fun h => ?_, ih rel (i + 1)⟩
    obtain ⟨j, hj, e | hc⟩ := mem_entries h
    · have : i = j := congrArg Prod.snd e
      omega
    · have := hc.length_le
      simp at this
  | dir _ rest ih ihr =>
    refine nodup_cons.mpr ⟨fun h => ?_, nodup_append.mpr
      ⟨ih (rel ++ [i]) 0, ihr rel (i + 1), fun a ha b hb e => ?_⟩⟩
    · rcases mem_append.mp h with h | h
      · have := (below_of_mem h).length_le
        simp at this
      · obtain ⟨j, hj, e | hc⟩ := mem_entries h
        · have : i = j := congrArg Prod.snd e
          omega
        · have := hc.length_le
          simp at this
    · subst e
      exact not_below (Nat.lt_succ_self i) hb (below_of_mem ha)

/-! ## Every state of a run -/

section

variable [DecidableEq W] [Fintype W] {root : Job} {s s' : State W} {w : W} {m k : ℕ}

attribute [local simp] State.new Shared.new

omit [DecidableEq W] in
/-- A walk begins with its root queued, and nobody at work. -/
theorem State.new_inv (rel : Rel) (children : Listing) :
    Inv (Job.new rel children) (State.new W (Job.new rel children)) where
  lock := by simp [Pc.holds]
  idle := by simp [Pc.idles]
  counted_le := by simp [Worker.counted, Pc.counted]
  counted_ge := by simp [Worker.counted, Pc.counted]
  placed := by simp [Worker.placed, Pc.placed, Job.new]
  limit := Nat.le_of_ble_eq_true rfl
  bare := by simp
  found_empty := by simp [Pc.found_empty]
  wake := by simp
  ends := by simp [Pc.sleeping]
  cancels := by simp [Pc.dozing]
  cancelled := by simp [Pc.cancelling]
  returned := by simp
  children_le := by
    simp [State.children, Shared.seen, Worker.children, Pc.hand]
  children_ge := by
    simp [State.children, Shared.seen, Worker.children, Pc.hand]

omit [Fintype W] in
/-- A wake-up nobody asked for. -/
theorem Spurious.woken (h : Spurious w s s') :
    Woken .one s.workers s'.workers ∧ s'.shared = s.shared := by
  obtain ⟨hw, rfl⟩ := h
  exact ⟨.one _ w hw, rfl⟩

/-- A spurious wake-up keeps the invariant: it only adds a worker on its way to
the queue. -/
theorem Spurious.inv (hi : Inv root s) (h : Spurious w s s') : Inv root s' := by
  obtain ⟨hw, hshared⟩ := h.woken
  have hclass {α : Type} (f : Pc → α) (hf : f .notified = f .asleep) (v : W) :
      f (s'.workers v).pc = f (s.workers v).pc := hw.pc_eq hf v
  have hwoke (f : Pc → Bool) (hf : f .notified = false) (v : W)
      (hv : f (s'.workers v).pc = true) : f (s.workers v).pc = true := by
    rcases hw.eq_or v with e | ⟨_, e⟩
    · rwa [e] at hv
    · rw [e] at hv
      exact absurd hv (by simp [hf])
  have hbroken : s'.Broken ↔ s.Broken := by simp only [State.Broken, hclass Pc.broken rfl]
  have hchildren : s'.children = s.children := by
    simp only [State.children, hshared, hw.sum_eq (f := Worker.children) (fun _ => rfl)]
  exact {
    lock := fun v => by rw [hclass Pc.holds rfl, hshared]; exact hi.lock v
    idle := by rw [hw.sum_eq (f := fun v => v.pc.idles) (fun _ => rfl), hshared]; exact hi.idle
    counted_le := by
      rw [hw.sum_eq (f := Worker.counted) (fun _ => rfl), hshared]
      exact hi.counted_le
    counted_ge := fun hb => by
      rw [hw.sum_eq (f := Worker.counted) (fun _ => rfl), hshared]
      exact hi.counted_ge (mt hbroken.mpr hb)
    placed := by
      rw [hw.sum_eq (f := Worker.placed) (fun _ => rfl), hshared]
      exact hi.placed
    limit := by rw [hshared]; exact hi.limit
    bare := fun v hv => by
      rw [hw.stack_eq v]
      exact hi.bare v (by rwa [hclass Pc.taking rfl] at hv)
    found_empty := fun v hv => by
      rw [hshared]
      exact hi.found_empty v (by rwa [hclass Pc.found_empty rfl] at hv)
    wake := by
      rintro hc ⟨v, hv⟩
      rw [hshared] at hc ⊢
      exact (hi.wake hc ⟨v, hw.asleep hv⟩).trans hw.credit_le
    ends := by
      rintro ⟨v, hv⟩
      simp only [hshared, hclass Pc.ending rfl]
      exact hi.ends ⟨v, hwoke Pc.sleeping rfl v hv⟩
    cancels := by
      rintro ⟨v, hv⟩
      simp only [hshared, hclass Pc.alarming rfl]
      exact hi.cancels ⟨v, hwoke Pc.dozing rfl v hv⟩
    cancelled := by
      simp only [hshared, hclass Pc.cancelling rfl]
      exact hi.cancelled
    returned := by
      rintro ⟨v, hv⟩
      rw [hshared]
      refine hi.returned ⟨v, ?_⟩
      rcases hw.eq_or v with e | ⟨_, e⟩
      · rwa [e] at hv
      · rw [e] at hv
        cases hv
    children_le := by rw [hchildren]; exact hi.children_le
    children_ge := fun hb => by rw [hchildren]; exact hi.children_ge (mt hbroken.mpr hb)
  }

/-- **Every state of a run satisfies the invariant.** -/
theorem Trace.inv (hi : Inv root s) (h : Trace s m k s') : Inv root s' := by
  induction h with
  | refl => exact hi
  | step _ hstep ih => exact hstep.inv ih
  | spurious _ hstep ih => exact hstep.inv ih

end

/-! ## No wake-up is lost -/

/-- A worker that has the lock, or finds it free, can go on, unless it has ended
or waits. -/
theorem Act.enabled (w : W) (s : Shared W) (o : Worker) (hdone : o.pc.done = false)
    (hasleep : o.pc ≠ .asleep) (hlock : o.pc.holds = true ∨ s.held = none) :
    ∃ s' n k, Act w s o s' n k := by
  obtain ⟨pc, st⟩ := o
  have hfree (h : pc.holds = false) : s.held = none := hlock.resolve_left (by simp [h])
  cases pc with
  | start => exact ⟨_, _, _, .started s st⟩
  | takeLock => exact ⟨_, _, _, .take_lock s st (hfree rfl)⟩
  | takeCancelled =>
    cases hc : s.cancelled with
    | true => exact ⟨_, _, _, .take_cancelled s st hc⟩
    | false => exact ⟨_, _, _, .take_go_on s st hc⟩
  | takePop =>
    cases hjobs : s.jobs with
    | nil => exact ⟨_, _, _, .take_empty s st hjobs⟩
    | cons job rest => exact ⟨_, _, _, .take_job s st job rest hjobs⟩
  | takeRelease job => exact ⟨_, _, _, .take_release s st job⟩
  | takeOutstanding =>
    by_cases hz : s.outstanding = 0
    · exact ⟨_, _, _, .take_none s st hz⟩
    · exact ⟨_, _, _, .take_some s st hz⟩
  | takeIdle => exact ⟨_, _, _, .take_idle s st⟩
  | waitEmpty =>
    by_cases hjobs : s.jobs = []
    · exact ⟨_, _, _, .wait_empty s st hjobs⟩
    · exact ⟨_, _, _, .wait_filled s st hjobs⟩
  | waitCancelled =>
    cases hc : s.cancelled with
    | true => exact ⟨_, _, _, .wait_cancelled s st hc⟩
    | false => exact ⟨_, _, _, .wait_go_on s st hc⟩
  | waitOutstanding =>
    by_cases hz : s.outstanding = 0
    · exact ⟨_, _, _, .wait_none s st hz⟩
    · exact ⟨_, _, _, .wait_some s st hz⟩
  | waitSleep => exact ⟨_, _, _, .wait_sleep s st⟩
  | asleep => exact absurd rfl hasleep
  | notified => exact ⟨_, _, _, .wait_lock s st (hfree rfl)⟩
  | wake => exact ⟨_, _, _, .wake s st⟩
  | loop job =>
    cases hc : s.cancelled with
    | true => exact ⟨_, _, _, .loop_cancelled s st job hc⟩
    | false => exact ⟨_, _, _, .loop_process s st job hc⟩
  | process job =>
    cases hd : job.dir with
    | false => exact ⟨_, _, _, .reopen s st job hd⟩
    | true =>
      cases hrest : job.rest with
      | nil => exact ⟨_, _, _, .exhausted s st job hd hrest⟩
      | leaf rest => exact ⟨_, _, _, .consider_leaf s st job rest hd hrest⟩
      | dir sub rest => exact ⟨_, _, _, .consider_dir s st job sub rest hd hrest⟩
  | descended parent child =>
    by_cases hrest : parent.rest = .nil
    · exact ⟨_, _, _, .drop_parent s st parent child hrest⟩
    · exact ⟨_, _, _, .count_parent s st parent child hrest⟩
  | reserve parent child =>
    by_cases ho : s.open_jobs < MAX_OPEN_JOBS
    · exact ⟨_, _, _, .reserve s st parent child ho⟩
    · exact ⟨_, _, _, .spill s st parent child ho⟩
  | share child =>
    by_cases hn : st = [] ∨ s.idle = 0
    · exact ⟨_, _, _, .share_nothing s st child hn⟩
    · exact ⟨_, _, _, .share_go s st child (not_or.mp hn).1 (not_or.mp hn).2⟩
  | shareLock child => exact ⟨_, _, _, .share_lock s st child (hfree rfl)⟩
  | shareMove child =>
    rcases eq_nil_or_concat st with rfl | ⟨rest, oldest, rfl⟩
    · exact ⟨_, _, _, .share_empty s child⟩
    · rw [concat_eq_append]
      exact ⟨_, _, _, .share_move s rest child oldest⟩
  | shareNotify child =>
    by_cases hi : s.idle = 0
    · exact ⟨_, _, _, .share_quiet s st child hi⟩
    · exact ⟨_, _, _, .share_notify s st child hi⟩
  | finish =>
    by_cases ho : s.outstanding = 1
    · exact ⟨_, _, _, .finish_last s st ho⟩
    · exact ⟨_, _, _, .finish_one s st ho⟩
  | finishLock => exact ⟨_, _, _, .finish_lock s st (hfree rfl)⟩
  | finishNotify => exact ⟨_, _, _, .finish_notify s st⟩
  | popLocal =>
    cases st with
    | nil => exact ⟨_, _, _, .pop_take s⟩
    | cons job st => exact ⟨_, _, _, .pop_local s st job⟩
  | release job => exact ⟨_, _, _, .release s st job⟩
  | returned => cases hdone
  | panicked => exact ⟨_, _, _, .cancel s st⟩
  | panicLock => exact ⟨_, _, _, .panic_lock s st (hfree rfl)⟩
  | panicNotify => exact ⟨_, _, _, .panic_notify s st⟩
  | dead => cases hdone

/-- A worker that has ended, or waits. -/
def Pc.resting (pc : Pc) : Prop := pc.done = true ∨ pc = .asleep

/-- A worker at rest holds no lock, has no job, and has told everyone what it had to. -/
theorem Pc.resting.quiet {pc : Pc} (h : pc.resting) :
    pc.holds = false ∧ pc.counted = 0 ∧ pc.credit = 0 ∧ pc.ending = false ∧
      pc.alarming = false ∧ (pc.broken = true → pc.cancelling = true) ∧
      (pc.taking = true ∨ pc.cancelling = true) := by
  revert h
  cases pc <;> simp [resting, done, holds, counted, credit, ending, alarming, broken, cancelling,
    taking]

section

variable [DecidableEq W] [Fintype W] {root : Job} {s s' : State W} {w : W} {k : ℕ}

omit [Fintype W] in
/-- A notification always goes through. -/
theorem Woken.enabled (k : Wake) (ws : W → Worker) : ∃ ws', Woken k ws ws' := by
  cases k with
  | nobody => exact ⟨_, .nobody ws⟩
  | one =>
    by_cases h : ∃ v, (ws v).pc = .asleep
    · obtain ⟨v, hv⟩ := h
      exact ⟨_, .one ws v hv⟩
    · exact ⟨_, .none_waits ws (by simpa using h)⟩
  | all => exact ⟨_, .all ws⟩

omit [DecidableEq W] in
/-- If every worker were at rest, one of them asleep, a wake-up would be lost. -/
theorem Inv.not_all_resting (hi : Inv root s) (hasleep : (s.workers w).pc = .asleep) :
    ¬∀ v, (s.workers v).pc.resting := by
  intro hrest
  have hc : s.shared.cancelled = false := by
    refine (hi.cancels ⟨w, by rw [hasleep]; rfl⟩).resolve_right ?_
    rintro ⟨v, hv⟩
    simp [(hrest v).quiet] at hv
  have hz : s.shared.outstanding ≠ 0 := by
    refine (hi.ends ⟨w, by rw [hasleep]; rfl⟩).resolve_right ?_
    rintro ⟨v, hv⟩
    simp [(hrest v).quiet] at hv
  have hcancelling (v : W) : (s.workers v).pc.cancelling ≠ true := fun h => by
    rw [hi.cancelled.mpr ⟨v, h⟩] at hc
    cases hc
  have hbroken : ¬s.Broken := fun ⟨v, hv⟩ =>
    hcancelling v ((hrest v).quiet.2.2.2.2.2.1 hv)
  have hcounted : ∑ v, (s.workers v).counted = 0 := by
    refine Finset.sum_eq_zero fun v _ => ?_
    have hstack := hi.bare v ((hrest v).quiet.2.2.2.2.2.2.resolve_right (hcancelling v))
    simp [Worker.counted, hstack, (hrest v).quiet.2.1]
  have hcredit : ∑ v, (s.workers v).pc.credit = 0 :=
    Finset.sum_eq_zero fun v _ => (hrest v).quiet.2.2.1
  have hjobs := hi.wake hc ⟨w, hasleep⟩
  have := hi.counted_ge hbroken
  omega

/-- **No wake-up is lost**: until every worker has ended, some worker can go on. -/
theorem Inv.progress (hi : Inv root s) (hw : (s.workers w).pc.done = false) :
    ∃ v s', Step v s s' := by
  suffices h : ∃ v, (s.workers v).pc.done = false ∧ (s.workers v).pc ≠ .asleep ∧
      ((s.workers v).pc.holds = true ∨ s.shared.held = none) by
    obtain ⟨v, hdone, hasleep, hlock⟩ := h
    obtain ⟨t, n, k, ha⟩ := Act.enabled v s.shared (s.workers v) hdone hasleep hlock
    obtain ⟨ws, hws⟩ := Woken.enabled k (Function.update s.workers v n)
    exact ⟨v, ⟨t, ws⟩, n, k, ha, hws⟩
  cases hheld : s.shared.held with
  | some v =>
    have hholds := (hi.lock v).mpr hheld
    refine ⟨v, ?_, ?_, .inl hholds⟩
    all_goals
      revert hholds
      cases (s.workers v).pc <;> simp [Pc.holds, Pc.done]
  | none =>
    by_contra hno
    have hrest (v : W) : (s.workers v).pc.resting := by
      by_contra hv
      obtain ⟨h1, h2⟩ := not_or.mp hv
      exact hno ⟨v, by simpa using h1, h2, .inr rfl⟩
    rcases hrest w with h | h
    · simp [hw] at h
    · exact hi.not_all_resting h hrest

end

/-! ## A walk ends

`c` is what waking every worker costs. Each place a worker can stand at weighs
more than the places it leads to, and a job in hand, stacked or queued weighs
what is left of its listing. A worker that leaves the `while` of `take` weighs
less than one that enters it: it has seen a reason not to come back. -/

/-- What is left to do for a listing. -/
def Listing.work (c : ℕ) : Listing → ℕ
  | nil => 0
  | leaf rest => 1 + rest.work c
  | dir sub rest => 40 + (c + 40) + sub.work c + rest.work c

def Job.work (c : ℕ) (job : Job) : ℕ := c + 40 + job.rest.work c + (!job.dir).toNat

/-- What is left to do for some jobs. -/
def work_of (c : ℕ) (jobs : List Job) : ℕ := (jobs.map (Job.work c)).sum

@[simp]
theorem work_of_nil (c : ℕ) : work_of c [] = 0 := rfl

@[simp]
theorem work_of_cons (c : ℕ) (a : Job) (b : List Job) :
    work_of c (a :: b) = a.work c + work_of c b := by
  simp [work_of]

@[simp]
theorem work_of_append (c : ℕ) (a b : List Job) :
    work_of c (a ++ b) = work_of c a + work_of c b := by
  simp [work_of]

/-- How far a worker standing here is from its end, its jobs apart. -/
def Pc.rank (c : ℕ) (s : Shared W) : Pc → ℕ
  | start => c + 30
  | takeLock => 20
  | takeCancelled => if s.jobs ≠ [] ∨ s.cancelled = true ∨ s.outstanding = 0 then 10 else 19
  | takePop => if s.jobs ≠ [] ∨ s.outstanding = 0 then 9 else 18
  | takeOutstanding => if s.outstanding = 0 then 8 else 17
  | takeIdle => 16
  | waitEmpty => 15
  | waitCancelled => 14
  | waitOutstanding => 13
  | waitSleep => 12
  | asleep => 0
  | notified => 16
  | wake => if s.jobs ≠ [] ∨ s.cancelled = true ∨ s.outstanding = 0 then 11 else 20
  | takeRelease _ | release _ => 8
  | loop _ => 7
  | process _ => 6
  | descended _ _ => 44
  | reserve _ _ => 43
  | share _ => 41
  | shareLock _ => 40
  | shareMove _ => 39
  | shareNotify _ => 38
  | finish => c + 44
  | finishLock => c + 43
  | finishNotify => c + 42
  | popLocal => 21
  | panicked => c + 3
  | panicLock => c + 2
  | panicNotify => c + 1
  | returned | dead => 0

def Worker.weight (c : ℕ) (s : Shared W) (v : Worker) : ℕ :=
  v.pc.rank c s + work_of c v.pc.hand + work_of c v.stack

/-- What a notification may add. -/
def Wake.cost (c : ℕ) : Wake → ℕ
  | nobody => 0
  | one => 16
  | all => c

attribute [local simp] Worker.weight Pc.rank Pc.hand Wake.cost Job.work in
/-- A worker that acts comes closer to its end, by more than it costs to wake
those it notifies. -/
theorem Act.weight {w : W} {s s' : Shared W} {o n : Worker} {k : Wake} (c : ℕ)
    (h : Act w s o s' n k) :
    work_of c s'.jobs + n.weight c s' + k.cost c < work_of c s.jobs + o.weight c s := by
  induction h
  case share_nothing child _ | share_quiet child _ | share_notify child _ | share_empty child =>
    cases child <;> simp [after, Shared.unlock]
    all_goals omega
  case take_release job | release job =>
    simp [Shared.unlock, Shared.release_open]
  case reopen job hd => simp [hd]
  case consider_leaf job rest hd hrest =>
    simp [Job.advance, hd, hrest, Listing.work, Shared.consider]
  case consider_dir job sub rest hd hrest =>
    simp [Job.advance, Job.new, hd, hrest, Listing.work, Shared.consider]
    omega
  case spill parent child _ =>
    cases hd : parent.dir <;>
      simp [hd] <;> omega
  case reopen_fault job _ | panics job | exhausted job _ _ | drop_parent parent child _ =>
    simp
    omega
  case take_go_on hc | take_cancelled hc =>
    simp only [Worker.weight, Pc.rank, Pc.hand, Wake.cost, Shared.unlock]
    split_ifs <;> simp_all
  case take_lock | take_empty | wake =>
    simp only [Worker.weight, Pc.rank, Pc.hand, Wake.cost, Shared.lock]
    split_ifs <;> simp_all
  all_goals simp_all [Shared.lock, Shared.unlock]
  all_goals omega

/-- What another worker does brings nobody further from its end: while a worker
holds the lock, jobs do not leave the queue. -/
theorem Pc.rank_le {c : ℕ} {s s' : Shared W} {pc : Pc}
    (hjobs : pc.holds = true → s'.jobs = s.jobs) (hc : s.cancelled = true → s'.cancelled = true)
    (hz : s.outstanding = 0 → s'.outstanding = 0) : pc.rank c s' ≤ pc.rank c s := by
  cases pc
  case takeCancelled | takePop | takeOutstanding | wake =>
    simp only [rank, hjobs rfl]
    split_ifs <;> simp_all
  all_goals exact le_rfl

section

variable [DecidableEq W] [Fintype W] {root : Job} {s s' : State W} {w : W} {m k : ℕ}

/-- **How far a walk is from its end.** -/
def State.distance (s : State W) : ℕ :=
  work_of (16 * Fintype.card W) s.shared.jobs +
    ∑ w, (s.workers w).weight (16 * Fintype.card W) s.shared

omit [DecidableEq W] [Fintype W] in
theorem Worker.notify_weight (c : ℕ) (s : Shared W) (v : Worker) :
    v.notify.weight c s ≤ v.weight c s + 16 := by
  rw [Worker.notify]
  split
  · next h => simp [Worker.weight, Pc.rank, Pc.hand, h]; omega
  · omega

/-- A notification adds no more than its cost. -/
theorem Woken.weight_le {k : Wake} {ws ws' : W → Worker} (s : Shared W) (h : Woken k ws ws') :
    ∑ v, (ws' v).weight (16 * Fintype.card W) s ≤
      ∑ v, (ws v).weight (16 * Fintype.card W) s + k.cost (16 * Fintype.card W) := by
  generalize hc : 16 * Fintype.card W = c
  cases h with
  | nobody | none_waits => exact le_self_add
  | one _ v _ =>
    have hsum := sum_update (Worker.weight c s) ws v (ws v).notify
    have hle := (ws v).notify_weight c s
    simp only [Wake.cost]
    omega
  | all =>
    calc ∑ v, (ws v).notify.weight c s
        ≤ ∑ v, ((ws v).weight c s + 16) := Finset.sum_le_sum fun v _ => (ws v).notify_weight c s
      _ = ∑ v, (ws v).weight c s + c := by
        rw [Finset.sum_add_distrib, ← hc]
        simp [mul_comm]

/-- **Every step brings a walk closer to its end.** -/
theorem Step.distance_lt (hi : Inv root s) (hstep : Step w s s') : s'.distance < s.distance := by
  obtain ⟨n, k, ha, hw⟩ := hstep
  have hwoken := hw.weight_le s'.shared
  have hact := ha.weight (16 * Fintype.card W)
  simp only [State.distance]
  generalize 16 * Fintype.card W = c at hwoken hact ⊢
  have hothers : ∑ v, (Function.update s.workers w n v).weight c s'.shared ≤
      ∑ v, Function.update (fun v => (s.workers v).weight c s.shared) w (n.weight c s'.shared) v := by
    refine Finset.sum_le_sum fun v _ => ?_
    rcases eq_or_ne v w with rfl | hvw
    · rw [Function.update_self, Function.update_self]
    · rw [Function.update_of_ne hvw, Function.update_of_ne hvw]
      have hrank : (s.workers v).pc.rank c s'.shared ≤ (s.workers v).pc.rank c s.shared := by
        refine Pc.rank_le (fun hv => ha.jobs.resolve_right fun hheld => hvw ?_)
          (fun h => ha.cancelled.1.mpr (.inl h)) (ha.stays_zero (hi.counted_worker w))
        have e := (hi.lock v).mp hv
        rw [(hi.lock w).mp hheld] at e
        exact (Option.some.inj e).symm
      simp only [Worker.weight]
      omega
  have hsum := sum_update id (fun v => (s.workers v).weight c s.shared) w (n.weight c s'.shared)
  simp only [id] at hsum
  omega

/-- A wake-up nobody asked for costs one turn around the `while` of `take`. -/
theorem Spurious.distance_le (h : Spurious w s s') : s'.distance ≤ s.distance + 16 := by
  obtain ⟨hw, hshared⟩ := h.woken
  have hwoken := hw.weight_le s.shared
  simp only [State.distance, hshared]
  simp only [Wake.cost] at hwoken
  omega

/-- **Every run is bounded**, spurious wake-ups apart. -/
theorem Trace.distance_le (hi : Inv root s) (h : Trace s m k s') :
    m + s'.distance ≤ s.distance + 16 * k := by
  induction h with
  | refl => omega
  | step h hstep ih =>
    have := hstep.distance_lt (h.inv hi)
    omega
  | spurious h hstep ih =>
    have := hstep.distance_le
    omega

/-! ## What a walk does -/

omit [DecidableEq W] [Fintype W] in
/-- **No job is left**: none queued, none stacked, none in a worker's hand. -/
def State.Exhausted (s : State W) : Prop :=
  s.shared.jobs = [] ∧ ∀ w, (s.workers w).stack = [] ∧ (s.workers w).pc.hand = []

theorem Pc.hand_eq_nil {pc : Pc} (h : pc.counted = 0) : pc.hand = [] := by
  cases pc
  case share child | shareLock child | shareMove child | shareNotify child =>
    cases child with
    | none => rfl
    | some => simp [counted] at h
  all_goals simp_all [counted, hand]

omit [DecidableEq W] in
/-- Where nothing is outstanding, no job is left. -/
theorem Inv.exhausted (hi : Inv root s) (hz : s.shared.outstanding = 0) : s.Exhausted := by
  have hle := hi.counted_le
  have hjobs : s.shared.jobs.length = 0 := by omega
  refine ⟨eq_nil_of_length_eq_zero hjobs, fun w => ?_⟩
  have hw := le_sum Worker.counted s.workers w
  simp only [Worker.counted] at hw hle
  exact ⟨eq_nil_of_length_eq_zero (by omega), Pc.hand_eq_nil (by omega)⟩

omit [DecidableEq W] in
/-- Where no job is left and nobody has panicked, every child has been considered,
or was given up with its directory. -/
theorem Inv.complete (hi : Inv root s) (he : s.Exhausted) (hb : ¬s.Broken) :
    s.shared.seen + children_of s.shared.faults = root.entries := by
  have hleft : ∑ w, (s.workers w).children = 0 := by
    refine Finset.sum_eq_zero fun w _ => ?_
    simp [Worker.children, he.2 w]
  have e : s.children = s.shared.seen + children_of s.shared.faults := by
    simp [State.children, hleft, he.1]
  rw [← e]
  exact le_antisymm hi.children_le (hi.children_ge hb)

omit [DecidableEq W] in
theorem Inv.seen_le (hi : Inv root s) : s.shared.seen ≤ root.entries := by
  refine le_trans ?_ hi.children_le
  simp only [State.children, add_assoc]
  exact Multiset.le_add_right _ _

omit [DecidableEq W] in
/-- The descriptors that queued and stacked jobs hold have places. -/
theorem Inv.open_le (hi : Inv root s) :
    open_in s.shared.jobs + ∑ w, open_in (s.workers w).stack ≤ MAX_OPEN_JOBS := by
  have hle : ∑ w, open_in (s.workers w).stack ≤ ∑ w, (s.workers w).placed :=
    Finset.sum_le_sum fun w _ => le_self_add
  have hplaced := hi.placed
  have hlimit := hi.limit
  omega

omit [DecidableEq W] in
/-- A worker returns only when nothing is left to do, or another has panicked. -/
theorem Inv.returns (hi : Inv root s) (hw : (s.workers w).pc = .returned) :
    s.Broken ∨ s.Exhausted := by
  rcases hi.returned ⟨w, hw⟩ with hc | hz
  · by_contra hno
    rw [hi.not_cancelled (not_or.mp hno).1] at hc
    cases hc
  · exact .inr (hi.exhausted hz)

omit [Fintype W] in
/-- A run, with one more step that notifies nobody. -/
theorem Trace.act {t : State W} {u : Shared W} {n : Worker} (h : Trace s m k t)
    (ha : Act w t.shared (t.workers w) u n .nobody) :
    Trace s (m + 1) k ⟨u, Function.update t.workers w n⟩ :=
  h.step ⟨n, .nobody, ha, .nobody _⟩

omit [Fintype W] in
/-- A run, with one more step that notifies everyone. -/
theorem Trace.act_all {t : State W} {u : Shared W} {n : Worker} (h : Trace s m k t)
    (ha : Act w t.shared (t.workers w) u n .all) :
    Trace s (m + 1) k ⟨u, fun v => (Function.update t.workers w n v).notify⟩ :=
  h.step ⟨n, .all, ha, .all _⟩

/-- **Every run of a walk, with any number of workers**, considers no child
twice, keeps to its descriptors, and lets a worker return only when no job is
left or another has panicked; when no job is left, and nobody has panicked,
every child has been considered once, or was given up with the continuation of
a directory that could not be reopened. Where nobody can go on, every worker has
returned or has resumed a panic of its own, so no wake-up is lost; and a walk
gets there, panic or not: but for spurious wake-ups, its steps are bounded. -/
theorem Trace.scheduled {children : Listing}
    (h : Trace (State.new W (Job.new [] children)) m k s) :
    (s.shared.considered.map Prod.snd).Nodup ∧
    (∀ c ∈ s.shared.considered, c.2 ∈ children.entries [] 0) ∧
    open_in s.shared.jobs + ∑ w, open_in (s.workers w).stack ≤ MAX_OPEN_JOBS ∧
    (∀ w, (s.workers w).pc = .returned → s.Broken ∨ s.Exhausted) ∧
    (s.Exhausted → ¬s.Broken →
      (s.shared.considered.map Prod.snd ++ s.shared.faults.flatMap Job.entries).Perm
        (children.entries [] 0)) ∧
    ((∀ w s', ¬Step w s s') →
      ∀ w, (s.workers w).pc = .returned ∨ (s.workers w).pc = .dead) ∧
    m + s.distance ≤ (State.new W (Job.new [] children)).distance + 16 * k := by
  have hnew := State.new_inv (W := W) [] children
  have hi := h.inv hnew
  have hperm : (s.shared.considered.map Prod.snd).Subperm (children.entries [] 0) :=
    Multiset.coe_le.mp hi.seen_le
  refine ⟨?_, fun c hc => ?_, hi.open_le, fun w => hi.returns, fun he hb => ?_, fun hstuck w => ?_,
    h.distance_le hnew⟩
  · obtain ⟨l, hl, hsub⟩ := hperm
    exact hl.nodup_iff.mp ((children.entries_nodup [] 0).sublist hsub)
  · exact hperm.subset (mem_map_of_mem hc)
  · have hfaults : children_of s.shared.faults =
        ((s.shared.faults.flatMap Job.entries : List Child) : Multiset Child) := by
      induction s.shared.faults with
      | nil => rfl
      | cons _ _ ih => rw [children_of_cons, ih, flatMap_cons]; rfl
    have e := hi.complete he hb
    rw [hfaults] at e
    exact Multiset.coe_eq_coe.mp e
  · have hdone : (s.workers w).pc.done = true := by
      by_contra hw
      obtain ⟨v, s', hstep⟩ := hi.progress (w := w) (by simpa using hw)
      exact hstuck v s' hstep
    revert hdone
    cases (s.workers w).pc <;> simp [Pc.done]

end

/-- Two workers walk a directory with one file: one considers it and returns. -/
theorem one_file_scheduled :
    ∃ s, Trace (State.new Bool (Job.new [] (.leaf .nil))) 18 0 s ∧
      (s.workers false).pc = .returned ∧ s.shared.considered = [(false, [], 0)] ∧
      (s.shared.considered.map Prod.snd ++ s.shared.faults.flatMap Job.entries).Perm
        ((Listing.leaf .nil).entries [] 0) := by
  have h := Trace.refl (State.new Bool (Job.new [] (.leaf .nil)))
  have h := h.act (w := false) (.started _ _)
  have h := h.act (w := true) (.started _ _)
  have h := h.act (w := false) (.take_lock _ _ rfl)
  have h := h.act (w := false) (.take_go_on _ _ rfl)
  have h := h.act (w := false) (.take_job _ _ _ _ rfl)
  have h := h.act (w := false) (.take_release _ _ _)
  have h := h.act (w := false) (.loop_process _ _ _ rfl)
  have h := h.act (w := false) (.consider_leaf _ _ _ _ rfl rfl)
  have h := h.act (w := false) (.exhausted _ _ _ rfl rfl)
  have h := h.act (w := false) (.finish_last _ _ rfl)
  have h := h.act (w := false) (.finish_lock _ _ rfl)
  have h := h.act_all (w := false) (.finish_notify _ _)
  have h := h.act (w := false) (.share_nothing _ _ _ (.inl rfl))
  have h := h.act (w := false) (.pop_take _)
  have h := h.act (w := false) (.take_lock _ _ rfl)
  have h := h.act (w := false) (.take_go_on _ _ rfl)
  have h := h.act (w := false) (.take_empty _ _ rfl)
  have h := h.act (w := false) (.take_none _ _ rfl)
  refine ⟨_, h, rfl, rfl, h.scheduled.2.2.2.2.1 ⟨rfl, fun w => ?_⟩ ?_⟩
  · cases w <;> exact ⟨rfl, rfl⟩
  · rintro ⟨w, hw⟩
    cases w <;> cases hw

end Ferret.Walk
