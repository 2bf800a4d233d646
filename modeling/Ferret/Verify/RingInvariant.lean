import Ferret.Verify.Ring
import Ferret.Lib.Tally

/-!
# What holds of every state of the ring

The counters are tied to the places the workers stand at, and the slots to
what has been posted and taken. The batch being taken is read off the number
of positions taken; every batch posted and not yet taken whole lies within a
ring's length of it, so no two of them share a slot.
-/

namespace Ferret.Ring

open Function

open Ferret.Verify (Pool)

/-- What a worker is doing with its batch. -/
inductive Phase
  | free
  /-- Nothing of it is posted, and it may have no slot yet. -/
  | early
  /-- It has a slot, or the pool has stopped. -/
  | granted
  /-- At a position, which is posted already or not. -/
  | task (pos : ℕ) (written : Bool)
  | gone
deriving DecidableEq

/-- What tells a worker's place to the others: not whether it has been
signalled. -/
structure View where
  index : Option ℕ := none
  phase : Phase := .free
  holds_room : Bool := false
  holds_lock : Bool := false
  roomless : ℕ := 0
  waits : ℕ := 0
  bytes : ℕ := 0
  size : ℕ := 0
  /-- The bytes it has found used, and may add its own to. -/
  found : Option ℕ := none
  bumps : Bool := false
  returned : Bool := false
  lost : Bool := false

def Task.view (t : Task) : View where
  index := some t.index
  phase := .task t.pos false
  size := t.size

def Pc.view : Pc → View
  | .top | .claim => {}
  | .room index | .count_room index => { index := some index, phase := .early }
  | .lock_room index | .asleep_room index | .notified_room index =>
    { index := some index, phase := .early, roomless := 1 }
  | .check_room index | .check_halt index | .sleep_room index =>
    { index := some index, phase := .early, roomless := 1, holds_room := true }
  | .unlock_room index =>
    { index := some index, phase := .granted, roomless := 1, holds_room := true }
  | .uncount_room index => { index := some index, phase := .granted, roomless := 1 }
  | .roomed index => { index := some index, phase := .granted }
  | .item index pos _ | .post index pos => { index := some index, phase := .task pos false }
  | .reserve t | .load_used t | .lock_budget t => t.view
  | .exchange t used => { t.view with found := some used }
  | .count_waiting t => { t.view with holds_lock := true }
  | .check_stop t | .check_used t | .sleep_freed t => { t.view with holds_lock := true, waits := 1 }
  | .asleep_freed t | .notified_freed t => { t.view with waits := 1 }
  | .uncount_waiting t held => { t.view with holds_lock := held, waits := 1 }
  | .reading t => { t.view with bytes := t.size }
  | .load_waiting t | .tell_freed t | .notify_freed t => t.view
  | .bump index pos => { index := some index, phase := .task pos true, bumps := true }
  | .load_awaited index pos | .tell_ready index pos | .notify_ready index pos =>
    { index := some index, phase := .task pos true }
  | .returned => { returned := true }
  | .panicked index bytes => { index := index, phase := .gone, bytes := bytes }
  | .tell_lost index bytes | .notify_lost index bytes | .dead index bytes =>
    { index := index, phase := .gone, bytes := bytes, lost := true }

/-- What tells the calling thread's place to the workers. -/
structure CallerView where
  /-- The batch it is taking. -/
  taking : Option ℕ := none
  /-- What it has read of `posted`, if anything, and whether it has looked at
  the slot since. -/
  seen : Option (ℕ × Bool) := none
  holds_ready : Bool := false
  awaits : Bool := false
  /-- It has taken a batch whole, and not told so. -/
  stores : Bool := false
  /-- It has found that nothing moved, or that a worker is lost. -/
  woke : Bool := false
  halting : Bool := false
  halted : Bool := false

def Caller.view : Caller → CallerView
  | .load_posted index | .consume index false => { taking := some index, seen := some (0, false) }
  | .look index seen => { taking := some index, seen := some (seen, false) }
  | .lock_ready index seen => { taking := some index, seen := some (seen, true) }
  | .store_awaited index seen =>
    { taking := some index, seen := some (seen, true), holds_ready := true }
  | .check_moved index seen | .check_lost index seen | .sleep index seen =>
    { taking := some index, seen := some (seen, true), holds_ready := true, awaits := true }
  | .asleep index seen | .notified index seen =>
    { taking := some index, seen := some (seen, true), awaits := true }
  | .clear_awaited index seen =>
    { taking := some index, seen := some (seen, true), holds_ready := true, awaits := true,
      woke := true }
  | .recheck index seen => { taking := some index, seen := some (seen, true), woke := true }
  | .store_head index => { taking := some (index + 1), stores := true }
  | .load_roomless index | .tell_room index | .notify_room index | .consume index true =>
    { taking := some (index + 1) }
  | .store_stop => { halting := true }
  | .halt_room | .halt_notify_room | .halt_freed | .halt_notify_freed | .ended =>
    { halting := true, halted := true }

section

variable {W : Type} (pool : Pool) (positions : ℕ)

/-- The first batch not taken whole, after so many positions. -/
def current (taken : ℕ) : ℕ :=
  if taken < positions then taken / pool.batch else pool.batches positions

/-- What a worker at a batch has done of it. -/
def Shared.Works (s : Shared W) (index : ℕ) : Phase → Prop
  | .free => False
  | .early => s.done index = 0
  | .granted => s.done index = 0 ∧ (index < s.head + pool.slots ∨ s.stop = true)
  | .task pos written =>
    index * pool.batch + s.done index = pos + written.toNat ∧ pos < pool.stop positions index
      ∧ index < s.head + pool.slots
  | .gone => True

/-- What a slot holds of its batch, when so many positions are taken, and so
many of the batch posted: those posted and not taken. -/
structure Slot.Holds (taken done index : ℕ) (held : Slot) : Prop where
  batch : held.index = index + 1
  items : held.items = List.range' (max taken (index * pool.batch))
    (index * pool.batch + done - max taken (index * pool.batch))
  start : held.items ≠ [] → held.start = max taken (index * pool.batch)
  complete : held.complete = true ↔ index * pool.batch + done = pool.stop positions index

/-- The locks and the counters. -/
structure Counted [Fintype W] (s : Shared W) (vs : W → View) : Prop where
  room : ∀ w, (vs w).holds_room = true ↔ s.room = some w
  lock : ∀ w, (vs w).holds_lock = true ↔ s.lock = some w
  roomless : s.roomless = ∑ w, (vs w).roomless
  waiting : s.waiting = ∑ w, (vs w).waits
  used : s.used = ∑ w, (vs w).bytes
  used_le : s.used ≤ IN_FLIGHT_BYTES
  size : ∀ w, (vs w).size ≤ IN_FLIGHT_BYTES
  found : ∀ w used, (vs w).found = some used → fits used (vs w).size = true

/-- Who has which batch, and how far it is posted. -/
structure Claims (s : Shared W) (vs : W → View) : Prop where
  claimed : ∀ w i, (vs w).index = some i → i < s.next ∧ i < pool.batches positions
  distinct : ∀ v w i, (vs v).index = some i → (vs w).index = some i → v = w
  works : ∀ w i, (vs w).index = some i → s.Works pool positions i (vs w).phase
  kept : ∀ i < s.next, i < pool.batches positions → (∃ w, (vs w).index = some i)
    ∨ i * pool.batch + s.done i = pool.stop positions i ∨ s.stop = true
  unclaimed : ∀ i, s.next ≤ i ∨ pool.batches positions ≤ i → s.done i = 0
  done_le : ∀ i < pool.batches positions, i * pool.batch + s.done i ≤ pool.stop positions i
  returned : ∀ w, (vs w).returned = true → s.stop = true ∨ pool.batches positions ≤ s.next
  lost : ∀ w, (vs w).lost = true → s.lost = true
  window : ∀ i, 0 < s.done i → i < s.head + pool.slots

/-- What the calling thread has taken, and what the slots hold. -/
structure Taking (s : Shared W) (vs : W → View) (c : CallerView) : Prop where
  ready : s.ready = c.holds_ready
  awaited : ∀ i, c.awaits = true → c.taking = some i → s.awaited = i + 1
  taking : ∀ i, c.taking = some i → i = current pool positions s.taken.length
  looks : ∀ i x, c.taking = some i → c.seen = some x → i < pool.batches positions
  head : s.head + c.stores.toNat = current pool positions s.taken.length
  seen : ∀ i m looked, c.taking = some i → c.seen = some (m, looked) →
    m ≤ s.posted (slot pool i)
      ∧ (looked = true → (s.ring (slot pool i)).filled i = true →
        m < s.posted (slot pool i) ∨ ∃ w, (vs w).bumps = true ∧ (vs w).index = some i)
  woke : ∀ i m looked, c.woke = true → c.taking = some i → c.seen = some (m, looked) →
    m < s.posted (slot pool i) ∨ s.lost = true
  halting : c.halting = true → c.taking = none
    ∧ (s.broke = true ∨ s.lost = true ∨ s.taken.length = positions)
  halted : s.stop = c.halted
  taken : s.taken = (List.range s.taken.length).map fun p => (p, p)
  taken_le : s.taken.length ≤ positions
  reached : ∀ i, i = current pool positions s.taken.length → i < pool.batches positions →
    s.taken.length ≤ i * pool.batch + s.done i
  past : ∀ i < current pool positions s.taken.length,
    i * pool.batch + s.done i = pool.stop positions i
  holds : ∀ i, current pool positions s.taken.length ≤ i → 0 < s.done i →
    (s.ring (slot pool i)).Holds pool positions s.taken.length (s.done i) i
  owner : ∀ j i, (s.ring j).index = i + 1 →
    j = slot pool i ∧ current pool positions s.taken.length ≤ i ∧ 0 < s.done i

/-- **The invariant of a run**, the signals apart. -/
structure Inv [Fintype W] (s : Shared W) (vs : W → View) (c : CallerView) : Prop extends
  Counted s vs, Claims pool positions s vs, Taking pool positions s vs c

end

/-! ## What one act does, apart from the other threads -/

section

variable {W : Type} {pool : Pool} {positions : ℕ} {sizes : ℕ → List ℕ} {w : W} {s s' : Shared W}
  {o n : Pc} {k : Wake}

theorem after_view (index pos : ℕ) :
    (after pool positions sizes index pos).view
      = if pos + 1 < pool.stop positions index then
          { index := some index, phase := .task (pos + 1) false }
        else {} := by
  unfold after
  split <;> rfl

attribute [local grind =] Pc.view Task.view after_view Shared.post Shared.bump

section

variable (h : Act pool positions sizes w s o s' n k)

include h

/-- `room` is kept, taken when free, or given back. -/
theorem Act.room_lock :
    (n.view.holds_room = o.view.holds_room ∧ s'.room = s.room)
    ∨ (o.view.holds_room = false ∧ n.view.holds_room = true ∧ s.room = none ∧ s'.room = some w)
    ∨ (o.view.holds_room = true ∧ n.view.holds_room = false ∧ s'.room = none) := by
  induction h
  all_goals grind

theorem Act.budget_lock :
    (n.view.holds_lock = o.view.holds_lock ∧ s'.lock = s.lock)
    ∨ (o.view.holds_lock = false ∧ n.view.holds_lock = true ∧ s.lock = none ∧ s'.lock = some w)
    ∨ (o.view.holds_lock = true ∧ n.view.holds_lock = false ∧ s'.lock = none) := by
  induction h
  all_goals grind

theorem Act.roomless (hle : o.view.roomless ≤ s.roomless) :
    s'.roomless + o.view.roomless = s.roomless + n.view.roomless := by
  induction h
  all_goals grind

theorem Act.waits (hle : o.view.waits ≤ s.waiting) :
    s'.waiting + o.view.waits = s.waiting + n.view.waits := by
  induction h
  all_goals grind

theorem Act.bytes (hle : o.view.bytes ≤ s.used) :
    s'.used + o.view.bytes = s.used + n.view.bytes := by
  induction h
  all_goals grind

theorem Act.used_le (hle : s.used ≤ IN_FLIGHT_BYTES) (hsize : o.view.size ≤ IN_FLIGHT_BYTES)
    (hfound : ∀ used, o.view.found = some used → fits used o.view.size = true) :
    s'.used ≤ IN_FLIGHT_BYTES := by
  induction h
  all_goals grind [fits]

theorem Act.size (hsize : o.view.size ≤ IN_FLIGHT_BYTES) : n.view.size ≤ IN_FLIGHT_BYTES := by
  induction h
  all_goals grind

theorem Act.found (used : ℕ) (hn : n.view.found = some used) : fits used n.view.size = true := by
  induction h
  all_goals grind

/-- What a worker leaves alone. -/
theorem Act.frame :
    s'.head = s.head ∧ s'.taken = s.taken ∧ s'.ready = s.ready ∧ s'.awaited = s.awaited
      ∧ s'.stop = s.stop ∧ s'.broke = s.broke := by
  induction h
  all_goals exact ⟨rfl, rfl, rfl, rfl, rfl, rfl⟩

/-- A worker keeps its batch, claims the next, finds none left, or is done with
its batch. -/
theorem Act.batch :
    (n.view.index = o.view.index ∧ s'.next = s.next)
    ∨ (o.view.index = none ∧ n.view.index = some s.next ∧ s.next < pool.batches positions
      ∧ s'.next = s.next + 1)
    ∨ (o.view.index = none ∧ n.view.index = none ∧ pool.batches positions ≤ s.next
      ∧ s'.next = s.next + 1)
    ∨ (n.view.index = none ∧ s'.next = s.next ∧ ∃ i, o.view.index = some i
      ∧ (s.stop = true ∨ ∃ pos, o.view.phase = .task pos true ∧ pool.stop positions i ≤ pos + 1)) :=
        by
  induction h
  all_goals grind

/-- A worker writes to the ring in `post` only, and to `posted` right after. -/
theorem Act.writes :
    (s'.ring = s.ring ∧ s'.done = s.done ∧ s'.posted = s.posted ∧ o.view.bumps = false
      ∧ n.view.bumps = false)
    ∨ (∃ index pos, o = .post index pos ∧ n = .bump index pos ∧ k = .quiet
      ∧ s' = s.post pool positions index pos)
    ∨ ∃ index pos, o = .bump index pos ∧ n = .load_awaited index pos ∧ k = .quiet
      ∧ s' = s.bump pool index := by
  induction h
  case post index pos => exact .inr (.inl ⟨index, pos, rfl, rfl, rfl, rfl⟩)
  case bump index pos => exact .inr (.inr ⟨index, pos, rfl, rfl, rfl, rfl⟩)
  all_goals
    refine .inl ⟨rfl, rfl, rfl, ?_, ?_⟩
    all_goals grind

theorem Act.works (hold : ∀ i, o.view.index = some i →
      i < pool.batches positions ∧ s.Works pool positions i o.view.phase)
    (hnew : s.done s.next = 0) (i : ℕ) (hi : n.view.index = some i) :
    s'.Works pool positions i n.view.phase := by
  induction h
  case roomed index hstop =>
    obtain rfl : index = i := by simpa [Pc.view] using hi
    obtain ⟨hlt, hdone, hroom⟩ := hold index rfl
    refine ⟨by simp [hdone], Verify.Pool.lt_stop ((pool.lt_batches _ _).mp hlt), ?_⟩
    simpa [hstop] using hroom
  case post index pos =>
    obtain rfl : index = i := by simpa [Pc.view] using hi
    obtain ⟨-, hdone, hstop, hroom⟩ := hold index rfl
    refine ⟨?_, hstop, hroom⟩
    show index * pool.batch + Function.update s.done index (s.done index + 1) index = pos + 1
    rw [update_self, ← add_assoc, hdone]
    rfl
  case bump => exact (hold i hi).2
  all_goals grind [Shared.Works]

/-- Only a worker's own batch is posted more of. -/
theorem Act.done :
    s'.done = s.done ∨ ∃ index pos, o.view.index = some index ∧ o.view.phase = .task pos false
      ∧ n.view.index = some index
      ∧ s'.done = Function.update s.done index (s.done index + 1) := by
  rcases h.writes with ⟨-, hdone, -⟩ | ⟨index, pos, rfl, rfl, -, rfl⟩ | ⟨index, pos, rfl, rfl, -,
    rfl⟩
  · exact .inl hdone
  · exact .inr ⟨index, pos, rfl, rfl, rfl, rfl⟩
  · exact .inl rfl

theorem Act.next_le : s.next ≤ s'.next := by
  rcases h.batch with ⟨-, h⟩ | ⟨-, -, -, h⟩ | ⟨-, -, -, h⟩ | ⟨-, h, -⟩ <;> omega

theorem Act.returned (hn : n.view.returned = true) :
    s'.stop = true ∨ pool.batches positions ≤ s'.next := by
  induction h
  all_goals grind

theorem Act.lost (ho : o.view.lost = true → s.lost = true) :
    (n.view.lost = true → s'.lost = true) ∧ (s.lost = true → s'.lost = true) := by
  induction h
  case store_lost => exact ⟨fun _ => rfl, fun _ => rfl⟩
  case tell_lost | notify_lost => exact ⟨ho, id⟩
  case not_awaited | notify_ready =>
    refine ⟨fun hlost => ?_, id⟩
    rw [after_view] at hlost
    split at hlost <;> cases hlost
  -- no other act is a lost worker's
  all_goals exact ⟨fun hlost => (by cases hlost), id⟩

end

end

/-! ## A worker's act -/

section

variable {W : Type} [DecidableEq W] {pool : Pool} {positions : ℕ} {sizes : ℕ → List ℕ} {w : W}
  {s s' : Shared W} {o n : Pc} {k : Wake} {vs : W → View}

/-- A lock kept, taken when free, or given back. -/
theorem holder_step {holds : View → Bool} {before after : Option W} {x : View}
    (hall : ∀ v, holds (vs v) = true ↔ before = some v)
    (hstep : (holds x = holds (vs w) ∧ after = before)
      ∨ (holds (vs w) = false ∧ holds x = true ∧ before = none ∧ after = some w)
      ∨ (holds (vs w) = true ∧ holds x = false ∧ after = none)) (v : W) :
    holds (Function.update vs w x v) = true ↔ after = some v := by
  by_cases hv : v = w
  · subst hv
    rw [update_self]
    have := hall v
    rcases hstep with ⟨h, rfl⟩ | ⟨-, h, -, rfl⟩ | ⟨-, h, rfl⟩
    · rw [h]
      exact this
    · simp [h]
    · simp [h]
  · rw [update_of_ne hv]
    have hself := hall w
    have hother := hall v
    rcases hstep with ⟨-, rfl⟩ | ⟨-, -, rfl, rfl⟩ | ⟨h, -, rfl⟩
    · exact hother
    · simpa [Ne.symm hv] using hother
    · have hbefore := hself.mp h
      rw [hbefore] at hother
      simpa [Ne.symm hv] using hother

omit [DecidableEq W] in
theorem Shared.Works.congr {i : ℕ} {phase : Phase} (h : s.Works pool positions i phase)
    (hdone : s'.done i = s.done i) (hhead : s.head ≤ s'.head)
    (hstop : s.stop = true → s'.stop = true) : s'.Works pool positions i phase := by
  cases phase with
  | free => exact h
  | early => exact hdone.trans h
  | granted => exact ⟨hdone.trans h.1, h.2.imp (fun hlt => by omega) hstop⟩
  | task _ _ => exact ⟨by rw [hdone]; exact h.1, h.2.1, lt_of_lt_of_le h.2.2 (by omega)⟩
  | gone => trivial

section

variable (h : Claims pool positions s vs) (hw : vs w = o.view)
  (ha : Act pool positions sizes w s o s' n k)

include h hw ha

omit [DecidableEq W] in
/-- The batch of another worker is posted no further. -/
theorem Claims.done_other {v : W} {i : ℕ} (hv : v ≠ w) (hi : (vs v).index = some i) :
    s'.done i = s.done i := by
  rcases ha.done with hdone | ⟨_, _, ho, -, -, hdone⟩
  · rw [hdone]
  · rw [hdone, update_of_ne]
    rintro rfl
    exact hv (h.distinct v w i hi (hw ▸ ho))

omit [DecidableEq W] in
theorem Claims.act_claimed {i : ℕ} (hi : n.view.index = some i) :
    i < s'.next ∧ i < pool.batches positions := by
  rcases ha.batch with ⟨hsame, hn⟩ | ⟨-, hsome, hlt, hn⟩ | ⟨-, hnone, -⟩ | ⟨hnone, -⟩
  · have := h.claimed w i (by rw [hw, ← hsame, hi])
    exact ⟨by omega, this.2⟩
  · obtain rfl : s.next = i := Option.some.inj (hsome.symm.trans hi)
    exact ⟨by omega, hlt⟩
  all_goals
    rw [hnone] at hi
    cases hi

omit [DecidableEq W] in
theorem Claims.act_ne {v : W} {i : ℕ} (hv : v ≠ w) (hi : (vs v).index = some i) :
    n.view.index ≠ some i := by
  intro hn
  rcases ha.batch with ⟨hsame, -⟩ | ⟨-, hsome, -⟩ | ⟨-, hnone, -⟩ | ⟨hnone, -⟩
  · exact hv (h.distinct v w i hi (by rw [hw, ← hsame, hn]))
  · obtain rfl : s.next = i := Option.some.inj (hsome.symm.trans hn)
    exact lt_irrefl _ (h.claimed v _ hi).1
  all_goals
    rw [hnone] at hn
    cases hn

theorem Claims.act_distinct (u v : W) (i : ℕ)
    (hu : (Function.update vs w n.view u).index = some i)
    (hv : (Function.update vs w n.view v).index = some i) : u = v := by
  by_cases huw : u = w
  · subst huw
    rw [update_self] at hu
    by_cases hvu : v = u
    · exact hvu.symm
    · rw [update_of_ne hvu] at hv
      exact absurd hu (h.act_ne hw ha hvu hv)
  · rw [update_of_ne huw] at hu
    by_cases hvw : v = w
    · subst hvw
      rw [update_self] at hv
      exact absurd hv (h.act_ne hw ha huw hu)
    · rw [update_of_ne hvw] at hv
      exact h.distinct u v i hu hv

omit [DecidableEq W] in
/-- A batch posted further was at a position, and has its worker still. -/
theorem Claims.act_done (i : ℕ) : s'.done i = s.done i ∨ n.view.index = some i
    ∧ i * pool.batch + s'.done i ≤ pool.stop positions i ∧ i < s.head + pool.slots := by
  rcases ha.done with hdone | ⟨index, _, ho, hphase, hn, hdone⟩
  · exact .inl (by rw [hdone])
  · by_cases hi : i = index
    · subst hi
      have hold := h.works w i (hw ▸ ho)
      rw [hw, hphase] at hold
      obtain ⟨heq, _, hwin⟩ := hold
      refine .inr ⟨hn, ?_, hwin⟩
      rw [hdone, update_self]
      simp only [Bool.toNat_false] at heq
      omega
    · rw [hdone, update_of_ne hi]
      exact .inl rfl

omit [DecidableEq W] in
/-- A worker leaves its batch when all of it is posted, or the pool stops. -/
theorem Claims.act_kept {i : ℕ} (hi : (vs w).index = some i) :
    n.view.index = some i ∨ i * pool.batch + s'.done i = pool.stop positions i
      ∨ s.stop = true := by
  rcases ha.batch with ⟨hsame, -⟩ | ⟨hnone, -⟩ | ⟨hnone, -⟩ | ⟨-, -, j, hj, hleft⟩
  · exact .inl (by rw [hsame, ← hw, hi])
  · rw [hw, hnone] at hi
    cases hi
  · rw [hw, hnone] at hi
    cases hi
  · obtain rfl : j = i := Option.some.inj (by rw [← hj, ← hw, hi])
    rcases hleft with hs | ⟨_, hphase, _⟩
    · exact .inr (.inr hs)
    · have hold := h.works w j hi
      rw [hw, hphase] at hold
      obtain ⟨heq, _, -⟩ := hold
      refine .inr (.inl ?_)
      rcases ha.done with hd | ⟨_, _, -, hfalse, -⟩
      · rw [hd, heq]
        simp only [Bool.toNat_true]
        omega
      · rw [hphase] at hfalse
        cases hfalse

theorem Claims.act : Claims pool positions s' (Function.update vs w n.view) := by
  obtain ⟨hhead, -, -, -, hstop, -⟩ := ha.frame
  have hnext := ha.next_le
  have hnew : s.done s.next = 0 := h.unclaimed _ (.inl le_rfl)
  have hworks : ∀ i, n.view.index = some i → s'.Works pool positions i n.view.phase :=
    ha.works (fun i hi => ⟨(h.claimed w i (hw ▸ hi)).2, hw ▸ h.works w i (hw ▸ hi)⟩) hnew
  refine ⟨?_, h.act_distinct hw ha, ?_, ?_, ?_, ?_, ?_, ?_, ?_⟩
  · refine (forall_update_iff vs
      fun _ v => ∀ i, v.index = some i → i < s'.next ∧ i < pool.batches positions).mpr
      ⟨fun i => h.act_claimed hw ha, fun v _ i hi => ?_⟩
    have := h.claimed v i hi
    exact ⟨by omega, this.2⟩
  · refine (forall_update_iff vs
      fun _ v => ∀ i, v.index = some i → s'.Works pool positions i v.phase).mpr
      ⟨hworks, fun v hv i hi => ?_⟩
    exact (h.works v i hi).congr (h.done_other hw ha hv hi) (by omega) (by rw [hstop]; exact id)
  · intro i hi hb
    have hself : n.view.index = some i → ∃ v, (Function.update vs w n.view v).index = some i :=
      fun hn => ⟨w, by rw [update_self]; exact hn⟩
    rw [hstop]
    rcases lt_or_ge i s.next with hlt | _
    · rcases h.kept i hlt hb with ⟨v, hv⟩ | hfull | hs
      · by_cases hvw : v = w
        · subst hvw
          exact (h.act_kept hw ha hv).imp_left hself
        · exact .inl ⟨v, by rw [update_of_ne hvw]; exact hv⟩
      · rcases h.act_done hw ha i with hd | ⟨hn, -, -⟩
        · exact .inr (.inl (by rw [hd]; exact hfull))
        · exact .inl (hself hn)
      · exact .inr (.inr hs)
    · rcases ha.batch with ⟨-, hn⟩ | ⟨-, hsome, -, hn⟩ | ⟨-, -, hle, hn⟩ | ⟨-, hn, -⟩
      · omega
      · obtain rfl : i = s.next := by omega
        exact .inl (hself hsome)
      · omega
      · omega
  · intro i hi
    have hzero := h.unclaimed i (hi.imp (fun hle => by omega) id)
    rcases h.act_done hw ha i with hd | ⟨hn, -, -⟩
    · rw [hd, hzero]
    · have := h.act_claimed hw ha hn
      omega
  · intro i hb
    rcases h.act_done hw ha i with hd | ⟨-, hle, -⟩
    · rw [hd]
      exact h.done_le i hb
    · exact hle
  · refine (forall_update_iff vs
      fun _ v => v.returned = true → s'.stop = true ∨ pool.batches positions ≤ s'.next).mpr
      ⟨ha.returned, fun v _ hv => ?_⟩
    rw [hstop]
    exact (h.returned v hv).imp_right fun hle => by omega
  · have hlost := ha.lost (hw ▸ h.lost w)
    exact (forall_update_iff vs fun _ v => v.lost = true → s'.lost = true).mpr
      ⟨hlost.1, fun v _ hv => hlost.2 (h.lost v hv)⟩
  · intro i hpos
    rw [hhead]
    rcases h.act_done hw ha i with hd | ⟨-, -, hwin⟩
    · exact h.window i (hd ▸ hpos)
    · exact hwin

end

variable [Fintype W]

theorem sum_step (f : View → ℕ) {before after : ℕ} {x : View} (hall : before = ∑ v, f (vs v))
    (hstep : f (vs w) ≤ before → after + f (vs w) = before + f x) :
    after = ∑ v, f (Function.update vs w x v) := by
  have hsum := Tally.sum_update f vs (Finset.mem_univ w) x
  have hle := Tally.le_sum f vs (Finset.mem_univ w)
  have := hstep (hall ▸ hle)
  omega

theorem Counted.act (h : Counted s vs) (hw : vs w = o.view)
    (ha : Act pool positions sizes w s o s' n k) : Counted s' (Function.update vs w n.view) where
  room := holder_step h.room (by rw [hw]; exact ha.room_lock)
  lock := holder_step h.lock (by rw [hw]; exact ha.budget_lock)
  roomless := sum_step View.roomless h.roomless (by rw [hw]; exact ha.roomless)
  waiting := sum_step View.waits h.waiting (by rw [hw]; exact ha.waits)
  used := sum_step View.bytes h.used (by rw [hw]; exact ha.bytes)
  used_le := ha.used_le h.used_le (hw ▸ h.size w) (hw ▸ h.found w)
  size := (forall_update_iff vs fun _ v => v.size ≤ IN_FLIGHT_BYTES).mpr
    ⟨ha.size (hw ▸ h.size w), fun v _ => h.size v⟩
  found := (forall_update_iff vs
      fun _ v => ∀ used, v.found = some used → fits used v.size = true).mpr
    ⟨ha.found, fun v _ => h.found v⟩

end

end Ferret.Ring
