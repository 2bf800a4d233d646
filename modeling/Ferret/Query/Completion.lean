import Mathlib.Data.List.Basic

/-!
# Handing completed groups to the caller

Workers complete groups of output and one caller emits them. A worker holds
small groups in a slot of its own and sends them together, in batches, through
a bounded queue; a large group goes alone. The caller receives batches, and
where it finds the queue empty it takes what a slot holds, so that nothing
waits for its batch to fill.

A worker changes its slot under a lock, but sends outside of it what it took
out – the caller takes that lock too, and a full queue waits on the caller. The
steps here are those between which others may act: one change of a slot, one
send, one look at the queue, one take of a slot, one group emitted.
-/

namespace Ferret.Query

variable {G : Type} {n : ℕ}

/-- A group of this weight goes alone, and no batch is heavier. -/
def HANDOFF_BYTES : ℕ := 64 * 1024

/-- At most this many groups travel together. -/
def HANDOFF_GROUPS : ℕ := 16

/-- The groups of a worker that are not handed over, with their weight. -/
structure Held (G : Type) where
  groups : List G
  bytes : ℕ

def Held.new : Held G where
  groups := []
  bytes := 0

/-- The held batch, if there is one, and the slot without it. -/
def Held.take (held : Held G) : Option (List G) × Held G :=
  (if held.groups.isEmpty then none else some held.groups, .new)

/-- Holds a group. The batches to send now come first: what was held, where the
group goes alone or would make it too heavy; then the group alone, or the batch
it filled. -/
def Held.add (held : Held G) (group : G) (weight : ℕ) :
    (Option (List G) × Option (List G)) × Held G :=
  if HANDOFF_BYTES ≤ weight then ((held.take.1, some [group]), held.take.2)
  else
    let (crossed, held) :=
      if HANDOFF_BYTES < held.bytes + weight then held.take else (none, held)
    let held : Held G := ⟨held.groups ++ [group], held.bytes + weight⟩
    let (full, held) := if HANDOFF_GROUPS ≤ held.groups.length then held.take else (none, held)
    ((crossed, full), held)

/-- A worker: its slot, the batches it took out and has not sent, whether it
still runs; `handed` is what it handed over, in order. -/
structure Worker (G : Type) where
  slot : Held G
  hand : List (List G)
  alive : Bool
  handed : List G

/-- Where the caller is: about to look at the queue, or it found it empty and
will look at a slot, or sleeps after a pass over all; it publishes a batch; or
it is gone. -/
inductive Caller (n : ℕ) (G : Type)
  | polling
  | looking
  | waiting
  | publishing (w : Fin (n + 1)) (groups : List G)
  | gone

/-- A run with `n + 1` workers. -/
structure State (n : ℕ) (G : Type) where
  worker : Fin (n + 1) → Worker G
  queue : List (Fin (n + 1) × List G)
  caller : Caller n G
  /-- Slots seen empty in a row. -/
  clean : ℕ
  /-- The slot to look at next. -/
  slotAt : Fin (n + 1)
  stopped : Bool
  emitted : List (Fin (n + 1) × G)

def State.new : State n G where
  worker _ := ⟨.new, [], true, []⟩
  queue := []
  caller := .polling
  clean := 0
  slotAt := 0
  stopped := false
  emitted := []

/-- One step of a worker or of the caller. -/
inductive Act (n : ℕ) (G : Type)
  /-- `Lane::hand`, with the slot locked. -/
  | hold (w : Fin (n + 1)) (group : G) (weight : ℕ)
  /-- `Lane::handoff`, with the slot locked. -/
  | handoff (w : Fin (n + 1)) (group : G)
  /-- `Lane::flush`, with the slot locked. -/
  | flush (w : Fin (n + 1))
  /-- The next batch goes into the queue. -/
  | send (w : Fin (n + 1))
  /-- A worker of a stopped run drops what it has and ends. -/
  | leave (w : Fin (n + 1))
  | stop
  | receive
  /-- The queue is found empty. -/
  | empty
  /-- The slot to look at is emptied. -/
  | take
  | timeout
  | emit
  /-- A batch is published, and the caller looks again. -/
  | next
  /-- The caller ends: the run stopped, the output broke, or nobody sends. -/
  | done

/-- A worker that is between two groups. -/
def Worker.free (worker : Worker G) : Bool := worker.alive && worker.hand.isEmpty

/-- A group is held, and the batches it completes are taken out. -/
def Worker.hold (group : G) (weight : ℕ) (worker : Worker G) : Worker G :=
  let added := worker.slot.add group weight
  { worker with
    slot := added.2
    hand := added.1.1.toList ++ added.1.2.toList
    handed := worker.handed ++ [group] }

/-- A group of the active task goes after what is held. -/
def Worker.handoff (group : G) (worker : Worker G) : Worker G :=
  { worker with
    slot := worker.slot.take.2
    hand := worker.slot.take.1.toList ++ [[group]]
    handed := worker.handed ++ [group] }

/-- Out of work, what is held is taken out. -/
def Worker.flush (worker : Worker G) : Worker G :=
  { worker with slot := worker.slot.take.2, hand := worker.slot.take.1.toList }

def State.set (s : State n G) (w : Fin (n + 1)) (worker : Worker G) : State n G :=
  { s with worker := Function.update s.worker w worker }

def Caller.isGone : Caller n G → Bool
  | gone => true
  | _ => false

/-- Changes a worker that is between two groups. -/
def State.change (s : State n G) (w : Fin (n + 1)) (f : Worker G → Worker G) :
    Option (State n G) :=
  if (s.worker w).free then some (s.set w (f (s.worker w))) else none

/-- What one step makes of a run. -/
def State.step (s : State n G) : Act n G → Option (State n G)
  | .hold w group weight => s.change w (Worker.hold group weight)
  | .handoff w group => s.change w (Worker.handoff group)
  | .flush w => s.change w Worker.flush
  | .send w =>
    match (s.worker w).hand with
    | batch :: rest =>
      if (s.worker w).alive ∧ s.queue.length < n + 1 ∧ s.caller.isGone = false then
        some { s.set w { s.worker w with hand := rest } with queue := s.queue ++ [(w, batch)] }
      else none
    | [] => none
  | .leave w =>
    if (s.worker w).alive ∧ (s.stopped ∨ s.caller.isGone = true) then
      some (s.set w { s.worker w with slot := .new, hand := [], alive := false })
    else none
  | .stop => some { s with stopped := true }
  | .receive =>
    match s.caller, s.queue with
    | .polling, (w, batch) :: rest =>
      some { s with queue := rest, caller := .publishing w batch, clean := 0 }
    | .waiting, (w, batch) :: rest =>
      some { s with queue := rest, caller := .publishing w batch, clean := 0 }
    | _, _ => none
  | .empty =>
    match s.caller, s.queue with
    | .polling, [] => some { s with caller := if s.clean < n + 1 then .looking else .waiting }
    | _, _ => none
  | .take =>
    match s.caller with
    | .looking =>
      let taken := (s.worker s.slotAt).slot.take
      let s' : State n G := { s.set s.slotAt { s.worker s.slotAt with slot := taken.2 } with
        slotAt := s.slotAt + 1 }
      match taken.1 with
      | some groups => some { s' with caller := .publishing s.slotAt groups, clean := 0 }
      | none => some { s' with caller := .polling, clean := s.clean + 1 }
    | _ => none
  | .timeout =>
    match s.caller with
    | .waiting => some { s with caller := .polling, clean := 0 }
    | _ => none
  | .emit =>
    match s.caller with
    | .publishing w (group :: rest) =>
      some { s with caller := .publishing w rest, emitted := s.emitted ++ [(w, group)] }
    | _ => none
  | .next =>
    match s.caller with
    | .publishing _ [] => some { s with caller := .polling }
    | _ => none
  | .done => if s.caller.isGone then none else some { s with caller := .gone }

/-- Some steps, one after the other. -/
def State.run (s : State n G) : List (Act n G) → Option (State n G)
  | [] => some s
  | act :: acts => (s.step act).bind fun s' => s'.run acts

/-- The entries of one worker, in order. -/
def own {α : Type} (w : Fin (n + 1)) (l : List (Fin (n + 1) × α)) : List α :=
  (l.filter fun p => p.1 = w).map Prod.snd

end Ferret.Query
