import Ferret.Verify.Pooled

/-!
# The ring and the byte budget

Workers claim batches in order, wait until a batch has a slot in the ring,
handle its positions and post each to the slot; the calling thread takes the
posted positions of batch after batch. A position may read documents, each
within a budget of bytes that the workers share.

Three condition variables go with this: `ready`, where the calling thread
sleeps until a position of its batch is posted; `room`, where workers sleep
until their batch has a slot; and `freed`, where they sleep until bytes are
released. Who might have to be notified is decided from words read outside
the locks. The model is a step relation whose steps stand between two accesses
to shared memory. A lock taken and dropped at once is one step, possible while
the lock is free; the section under a slot's lock is one step, since nothing
else reads the slot.

`taken`, `done` and `broke` are no part of the program: they record what the
calling thread has taken, how many positions of each batch have been posted,
and whether a position has stopped the run.
-/

namespace Ferret.Ring

open Ferret.Verify (Pool)

/-- Document bytes the workers may hold at once. -/
def IN_FLIGHT_BYTES : ℕ := 64 * 2 ^ 20

/-- Whether a read of so many bytes may start. -/
def fits (used size : ℕ) : Bool := used = 0 || used + size ≤ IN_FLIGHT_BYTES

/-- A slot of the ring. -/
structure Slot where
  /-- The batch, plus one (0: none). -/
  index : ℕ
  start : ℕ
  items : List ℕ
  complete : Bool
deriving DecidableEq

/-- A position posted to its batch's slot. -/
def Slot.post (held : Slot) (index pos : ℕ) (last : Bool) : Slot :=
  let held := if held.index ≠ index + 1 then { held with index := index + 1, items := [] } else held
  let held := if held.items = [] then { held with start := pos } else held
  { held with items := held.items ++ [pos], complete := last }

/-- Whether a batch has something to take in its slot. -/
def Slot.filled (held : Slot) (index : ℕ) : Bool :=
  held.index = index + 1 && (held.items ≠ [] || held.complete)

/-- A slot after its positions have been taken, with the taker's empty part in
their place. -/
def Slot.emptied (held : Slot) (start : ℕ) : Slot where
  index := if held.complete then 0 else held.index
  start := start
  items := []
  complete := false

/-- A position in a worker's hands: its batch, the read it makes, if any, and
those to come. -/
structure Task where
  index : ℕ
  pos : ℕ
  size : ℕ
  rest : List ℕ
deriving DecidableEq

/-- **Where a worker stands.** -/
inductive Pc
  -- `work`
  | top
  | claim
  -- `room_for`
  | room (index : ℕ)
  | count_room (index : ℕ)
  | lock_room (index : ℕ)
  | check_room (index : ℕ)
  | check_halt (index : ℕ)
  | sleep_room (index : ℕ)
  | asleep_room (index : ℕ)
  | notified_room (index : ℕ)
  | unlock_room (index : ℕ)
  | uncount_room (index : ℕ)
  | roomed (index : ℕ)
  -- `item`: a position, with the sizes of its reads
  | item (index pos : ℕ) (sizes : List ℕ)
  -- `reserve`
  | reserve (t : Task)
  | load_used (t : Task)
  | exchange (t : Task) (used : ℕ)
  | lock_budget (t : Task)
  | count_waiting (t : Task)
  | check_stop (t : Task)
  | check_used (t : Task)
  | sleep_freed (t : Task)
  | asleep_freed (t : Task)
  | notified_freed (t : Task)
  | uncount_waiting (t : Task) (held : Bool)
  -- a read, and `release`
  | reading (t : Task)
  | load_waiting (t : Task)
  | tell_freed (t : Task)
  | notify_freed (t : Task)
  -- `post`
  | post (index pos : ℕ)
  | bump (index pos : ℕ)
  | load_awaited (index pos : ℕ)
  | tell_ready (index pos : ℕ)
  | notify_ready (index pos : ℕ)
  | returned
  -- a panic, with its batch and the bytes it holds
  | panicked (index : Option ℕ) (bytes : ℕ)
  | tell_lost (index : Option ℕ) (bytes : ℕ)
  | notify_lost (index : Option ℕ) (bytes : ℕ)
  | dead (index : Option ℕ) (bytes : ℕ)
deriving DecidableEq

/-- **Where the calling thread stands.** -/
inductive Caller
  -- `take`
  | load_posted (index : ℕ)
  | look (index seen : ℕ)
  | lock_ready (index seen : ℕ)
  | store_awaited (index seen : ℕ)
  | check_moved (index seen : ℕ)
  | check_lost (index seen : ℕ)
  | sleep (index seen : ℕ)
  | asleep (index seen : ℕ)
  | notified (index seen : ℕ)
  | clear_awaited (index seen : ℕ)
  | recheck (index seen : ℕ)
  -- a batch taken whole
  | store_head (index : ℕ)
  | load_roomless (index : ℕ)
  | tell_room (index : ℕ)
  | notify_room (index : ℕ)
  -- positions taken and yet to consume
  | consume (index : ℕ) (complete : Bool)
  -- `halt`
  | store_stop
  | halt_room
  | halt_notify_room
  | halt_freed
  | halt_notify_freed
  | ended
deriving DecidableEq

/-- What the threads share. -/
structure Shared (W : Type) where
  next : ℕ
  head : ℕ
  ring : ℕ → Slot
  posted : ℕ → ℕ
  awaited : ℕ
  /-- Whether the calling thread holds `ready`, and who holds `room` and the
  budget's lock. -/
  ready : Bool
  roomless : ℕ
  room : Option W
  used : ℕ
  waiting : ℕ
  lock : Option W
  stop : Bool
  lost : Bool
  /-- The query has been cancelled. -/
  cancelled : Bool
  /-- The start of the taker's part. -/
  start : ℕ
  /-- A position has stopped the run. -/
  broke : Bool
  /-- The positions taken, as the taker counts them and as they were posted. -/
  taken : List (ℕ × ℕ)
  done : ℕ → ℕ

structure State (W : Type) where
  shared : Shared W
  workers : W → Pc
  caller : Caller

/-- The calling thread's next batch, or its end. -/
def Caller.next (pool : Pool) (positions index : ℕ) : Caller :=
  if index < pool.batches positions then .load_posted index else .store_stop

def State.schedule {W : Type} (pool : Pool) (positions : ℕ) : State W where
  shared := {
    next := 0
    head := 0
    ring := fun _ => ⟨0, 0, [], false⟩
    posted := fun _ => 0
    awaited := 0
    ready := false
    roomless := 0
    room := none
    used := 0
    waiting := 0
    lock := none
    stop := false
    lost := false
    cancelled := false
    start := 0
    broke := false
    taken := []
    done := fun _ => 0 }
  workers := fun _ => .top
  caller := Caller.next pool positions 0

/-- Which condition variable a step signals. -/
inductive Wake
  | quiet
  | ready
  | room
  | freed
deriving DecidableEq

section

variable {W : Type} (pool : Pool) (positions : ℕ) (sizes : ℕ → List ℕ)

/-- What a worker does after a position. -/
def after (index pos : ℕ) : Pc :=
  if pos + 1 < pool.stop positions index then .item index (pos + 1) (sizes (pos + 1)) else .top

def Shared.halt (s : Shared W) : Bool := s.stop || s.cancelled

/-- The slot of a batch. -/
def slot (index : ℕ) : ℕ := index % pool.slots

/-- A position posted to its slot. -/
def Shared.post (s : Shared W) (index pos : ℕ) : Shared W :=
  let held := (s.ring (slot pool index)).post index pos (pos + 1 = pool.stop positions index)
  { s with
    ring := Function.update s.ring (slot pool index) held
    done := Function.update s.done index (s.done index + 1) }

/-- A position counted in `posted`. -/
def Shared.bump (s : Shared W) (index : ℕ) : Shared W :=
  { s with posted := Function.update s.posted (slot pool index) (s.posted (slot pool index) + 1) }

/-- A slot's positions taken. -/
def Shared.take (s : Shared W) (index : ℕ) : Shared W :=
  let held := s.ring (slot pool index)
  { s with
    ring := Function.update s.ring (slot pool index) (held.emptied s.start)
    start := held.start
    taken := s.taken ++ (List.range' held.start held.items.length).zip held.items }

/-- **The steps of a worker**: the shared state and its place before, both
after, and whom it signals. -/
inductive Act (w : W) : Shared W → Pc → Shared W → Pc → Wake → Prop
  | halted {s} : s.stop = true → Act w s .top s .returned .quiet
  | top_panics {s} : Act w s .top s (.panicked none 0) .quiet
  | go_on {s} : s.stop = false → Act w s .top s .claim .quiet
  | claim {s} : s.next < pool.batches positions →
    Act w s .claim { s with next := s.next + 1 } (.room s.next) .quiet
  | none_left {s} : pool.batches positions ≤ s.next →
    Act w s .claim { s with next := s.next + 1 } .returned .quiet
  -- `room_for`
  | room {s index} : index < s.head + pool.slots → Act w s (.room index) s (.roomed index) .quiet
  | no_room {s index} : s.head + pool.slots ≤ index →
    Act w s (.room index) s (.count_room index) .quiet
  | count_room {s index} :
    Act w s (.count_room index) { s with roomless := s.roomless + 1 } (.lock_room index) .quiet
  | lock_room {s index} : s.room = none →
    Act w s (.lock_room index) { s with room := some w } (.check_room index) .quiet
  | check_room {s index} : index < s.head + pool.slots →
    Act w s (.check_room index) s (.unlock_room index) .quiet
  | check_no_room {s index} : s.head + pool.slots ≤ index →
    Act w s (.check_room index) s (.check_halt index) .quiet
  | check_halt {s index} : s.stop = true →
    Act w s (.check_halt index) s (.unlock_room index) .quiet
  | check_no_halt {s index} : s.stop = false →
    Act w s (.check_halt index) s (.sleep_room index) .quiet
  | sleep_room {s index} :
    Act w s (.sleep_room index) { s with room := none } (.asleep_room index) .quiet
  | relock_room {s index} : s.room = none →
    Act w s (.notified_room index) { s with room := some w } (.check_room index) .quiet
  | unlock_room {s index} :
    Act w s (.unlock_room index) { s with room := none } (.uncount_room index) .quiet
  | uncount_room {s index} :
    Act w s (.uncount_room index) { s with roomless := s.roomless - 1 } (.roomed index) .quiet
  | room_halted {s index} : s.stop = true → Act w s (.roomed index) s .returned .quiet
  | roomed {s index} : s.stop = false →
    Act w s (.roomed index) s (.item index (index * pool.batch) (sizes (index * pool.batch))) .quiet
  -- `item`
  | item_read {s index pos size rest} :
    Act w s (.item index pos (size :: rest)) s
      (.reserve ⟨index, pos, min size IN_FLIGHT_BYTES, rest⟩) .quiet
  | item_done {s index pos} : Act w s (.item index pos []) s (.post index pos) .quiet
  | item_panics {s index pos sizes} :
    Act w s (.item index pos sizes) s (.panicked (some index) 0) .quiet
  -- `reserve`
  | reserve_halted {s t} : s.halt = true →
    Act w s (.reserve t) s (.item t.index t.pos t.rest) .quiet
  | reserve {s t} : s.halt = false → Act w s (.reserve t) s (.load_used t) .quiet
  | load_used {s t} : fits s.used t.size = true →
    Act w s (.load_used t) s (.exchange t s.used) .quiet
  | load_used_full {s t} : fits s.used t.size = false →
    Act w s (.load_used t) s (.lock_budget t) .quiet
  | exchange {s t used} : s.used = used →
    Act w s (.exchange t used) { s with used := used + t.size } (.reading t) .quiet
  | exchange_failed {s t used} : s.used ≠ used → Act w s (.exchange t used) s (.reserve t) .quiet
  | lock_budget {s t} : s.lock = none →
    Act w s (.lock_budget t) { s with lock := some w } (.count_waiting t) .quiet
  | count_waiting {s t} :
    Act w s (.count_waiting t) { s with waiting := s.waiting + 1 } (.check_stop t) .quiet
  | check_stop {s t} : s.halt = true → Act w s (.check_stop t) s (.uncount_waiting t true) .quiet
  | check_no_stop {s t} : s.halt = false → Act w s (.check_stop t) s (.check_used t) .quiet
  | check_used {s t} : fits s.used t.size = true →
    Act w s (.check_used t) s (.uncount_waiting t true) .quiet
  | check_used_full {s t} : fits s.used t.size = false →
    Act w s (.check_used t) s (.sleep_freed t) .quiet
  | sleep_freed {s t} : Act w s (.sleep_freed t) { s with lock := none } (.asleep_freed t) .quiet
  -- the lock is taken again, and dropped
  | relock_freed {s t} : s.lock = none →
    Act w s (.notified_freed t) s (.uncount_waiting t false) .quiet
  | uncount_held {s t} :
    Act w s (.uncount_waiting t true) { s with waiting := s.waiting - 1, lock := none }
      (.reserve t) .quiet
  | uncount_waiting {s t} :
    Act w s (.uncount_waiting t false) { s with waiting := s.waiting - 1 } (.reserve t) .quiet
  -- a read, and `release`
  | read {s t} :
    Act w s (.reading t) { s with used := s.used - t.size } (.load_waiting t) .quiet
  | read_panics {s t} : Act w s (.reading t) s (.panicked (some t.index) t.size) .quiet
  | nobody_waits {s t} : s.waiting = 0 →
    Act w s (.load_waiting t) s (.item t.index t.pos t.rest) .quiet
  | load_waiting {s t} : 0 < s.waiting → Act w s (.load_waiting t) s (.tell_freed t) .quiet
  | tell_freed {s t} : s.lock = none → Act w s (.tell_freed t) s (.notify_freed t) .quiet
  | notify_freed {s t} : Act w s (.notify_freed t) s (.item t.index t.pos t.rest) .freed
  -- `post`
  | post {s index pos} :
    Act w s (.post index pos) (s.post pool positions index pos) (.bump index pos) .quiet
  | bump {s index pos} :
    Act w s (.bump index pos) (s.bump pool index) (.load_awaited index pos) .quiet
  | not_awaited {s index pos} : s.awaited ≠ index + 1 →
    Act w s (.load_awaited index pos) s (after pool positions sizes index pos) .quiet
  | load_awaited {s index pos} : s.awaited = index + 1 →
    Act w s (.load_awaited index pos) s (.tell_ready index pos) .quiet
  | tell_ready {s index pos} : s.ready = false →
    Act w s (.tell_ready index pos) s (.notify_ready index pos) .quiet
  | notify_ready {s index pos} :
    Act w s (.notify_ready index pos) s (after pool positions sizes index pos) .ready
  -- `LostOnPanic`
  | store_lost {s index bytes} :
    Act w s (.panicked index bytes) { s with lost := true } (.tell_lost index bytes) .quiet
  | tell_lost {s index bytes} : s.ready = false →
    Act w s (.tell_lost index bytes) s (.notify_lost index bytes) .quiet
  | notify_lost {s index bytes} :
    Act w s (.notify_lost index bytes) s (.dead index bytes) .ready

/-- **The steps of the calling thread.** -/
inductive CallerAct : Shared W → Caller → Shared W → Caller → Wake → Prop
  | load_posted {s index} :
    CallerAct s (.load_posted index) s (.look index (s.posted (slot pool index))) .quiet
  | look {s index seen} : (s.ring (slot pool index)).filled index = true →
    CallerAct s (.look index seen) (s.take pool index)
      (if (s.ring (slot pool index)).complete then .store_head index else .consume index false) .quiet
  | look_empty {s index seen} : (s.ring (slot pool index)).filled index = false →
    CallerAct s (.look index seen) s (.lock_ready index seen) .quiet
  | lock_ready {s index seen} :
    CallerAct s (.lock_ready index seen) { s with ready := true } (.store_awaited index seen) .quiet
  | store_awaited {s index seen} :
    CallerAct s (.store_awaited index seen) { s with awaited := index + 1 }
      (.check_moved index seen) .quiet
  | moved {s index seen} : s.posted (slot pool index) ≠ seen →
    CallerAct s (.check_moved index seen) s (.clear_awaited index seen) .quiet
  | not_moved {s index seen} : s.posted (slot pool index) = seen →
    CallerAct s (.check_moved index seen) s (.check_lost index seen) .quiet
  | lost {s index seen} : s.lost = true →
    CallerAct s (.check_lost index seen) s (.clear_awaited index seen) .quiet
  | not_lost {s index seen} : s.lost = false →
    CallerAct s (.check_lost index seen) s (.sleep index seen) .quiet
  | sleep {s index seen} :
    CallerAct s (.sleep index seen) { s with ready := false } (.asleep index seen) .quiet
  | relock {s index seen} :
    CallerAct s (.notified index seen) { s with ready := true } (.check_moved index seen) .quiet
  | clear_awaited {s index seen} :
    CallerAct s (.clear_awaited index seen) { s with awaited := 0, ready := false }
      (.recheck index seen) .quiet
  | take_again {s index seen} : s.posted (slot pool index) ≠ seen →
    CallerAct s (.recheck index seen) s (.load_posted index) .quiet
  -- `take` returns `None`
  | give_up {s index seen} : s.posted (slot pool index) = seen →
    CallerAct s (.recheck index seen) s .store_stop .quiet
  | store_head {s index} :
    CallerAct s (.store_head index) { s with head := index + 1 } (.load_roomless index) .quiet
  | nobody_roomless {s index} : s.roomless = 0 →
    CallerAct s (.load_roomless index) s (.consume index true) .quiet
  | load_roomless {s index} : 0 < s.roomless →
    CallerAct s (.load_roomless index) s (.tell_room index) .quiet
  | tell_room {s index} : s.room = none →
    CallerAct s (.tell_room index) s (.notify_room index) .quiet
  | notify_room {s index} : CallerAct s (.notify_room index) s (.consume index true) .room
  | consume {s index complete} :
    CallerAct s (.consume index complete) s
      (if complete then Caller.next pool positions (index + 1) else .load_posted index) .quiet
  -- a position that stops the run
  | stops {s index complete} :
    CallerAct s (.consume index complete) { s with broke := true } .store_stop .quiet
  | store_stop {s} : CallerAct s .store_stop { s with stop := true } .halt_room .quiet
  | halt_room {s} : s.room = none → CallerAct s .halt_room s .halt_notify_room .quiet
  | halt_notify_room {s} : CallerAct s .halt_notify_room s .halt_freed .room
  | halt_freed {s} : s.lock = none → CallerAct s .halt_freed s .halt_notify_freed .quiet
  | halt_notify_freed {s} : CallerAct s .halt_notify_freed s .ended .freed

/-! ## Signals -/

def Pc.roomy : Pc → Pc
  | .asleep_room index => .notified_room index
  | pc => pc

def Pc.freed : Pc → Pc
  | .asleep_freed t => .notified_freed t
  | pc => pc

def Caller.signalled : Caller → Caller
  | .asleep index seen => .notified index seen
  | pc => pc

/-- The threads after a signal. `ready` has one sleeper at most. -/
def State.wake (k : Wake) (s : State W) : State W :=
  match k with
  | .quiet => s
  | .ready => { s with caller := s.caller.signalled }
  | .room => { s with workers := fun w => (s.workers w).roomy }
  | .freed => { s with workers := fun w => (s.workers w).freed }

/-- **The steps of the pool's threads.** -/
inductive Step [DecidableEq W] : State W → State W → Prop
  | worker {s : State W} {shared : Shared W} {pc : Pc} {k : Wake} (w : W) :
    Act pool positions sizes w s.shared (s.workers w) shared pc k →
    Step s (State.wake k ⟨shared, Function.update s.workers w pc, s.caller⟩)
  | caller {s : State W} {shared : Shared W} {pc : Caller} {k : Wake} :
    CallerAct pool positions s.shared s.caller shared pc k →
    Step s (State.wake k ⟨shared, s.workers, pc⟩)

/-- The query is cancelled, or a sleeper wakes unasked. -/
inductive Outside [DecidableEq W] : State W → State W → Prop
  | cancel {s : State W} : Outside s { s with shared := { s.shared with cancelled := true } }
  | caller {s : State W} : Outside s { s with caller := s.caller.signalled }
  | room {s : State W} (w : W) :
    Outside s { s with workers := Function.update s.workers w (s.workers w).roomy }
  | freed {s : State W} (w : W) :
    Outside s { s with workers := Function.update s.workers w (s.workers w).freed }

/-- The states of a run. -/
inductive Reached [DecidableEq W] : State W → Prop
  | schedule : Reached (.schedule pool positions)
  | step {s s' : State W} : Reached s → Step pool positions sizes s s' → Reached s'
  | outside {s s' : State W} : Reached s → Outside s s' → Reached s'

end

end Ferret.Ring
