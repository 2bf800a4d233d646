import Mathlib.Data.Finset.Basic

/-!
# Connections of the daemon

A client connection has two threads: its handler, which answers the requests
in order, and its reader, which hands it the request lines over a channel of
one place and acts on `cancel` and `drain` at once. A query takes one of
`query_limit` places before it runs. Once the host drains, no query is
admitted, and every connection is to end.

A step is what a thread does between two accesses to what it shares with
others. A critical section is one step: a thread inside one waits for nothing,
save that `engine` may be held while `lifecycle` is taken, and never the other
way round. Waiting on a condition variable gives the mutex up and sleeps; a
sleeper that is notified has yet to take the mutex again and look.

Clients read what they are sent, so a write does not block, and a query runs
to its end.
-/

namespace Ferret.Daemon

/-- What a reader acts on itself. -/
inductive Control
  | cancel
  | drain
deriving DecidableEq

/-- Whether a request has to be admitted: `search`, `find` and `grep` have. -/
inductive Request
  | query
  | other
deriving DecidableEq

/-- The two readings of a request line: the reader's, of its `op`, and the
handler's, `none` for a line too long or one that does not parse. -/
structure Protocol (Line : Type) where
  op : Line → Option Control
  parse_request : Line → Option Request

inductive ClientMessage (Line : Type)
  | line (line : Line)
  | wake
deriving DecidableEq

/-- **Where a handler stands.** -/
inductive Handler (Line : Type)
  /-- `connection`, before it registers. -/
  | setup
  | register
  | spawn
  /-- `greet`: the first `hello`, the loop under `engine`, asleep on
  `engine_ready`, and the second `hello`. -/
  | hello
  | check
  | doze
  | hello_again
  /-- `answer_requests`: the top of the loop, and the channel. -/
  | turn
  | receive
  | woken
  | woken_draining
  | answer (line : Line)
  /-- `admit`: about to look, and asleep on `lifecycle_changed`. -/
  | ask
  | queued
  | execute (permit : Bool)
  /-- A permit dropped: its place given back, and one sleeper notified. -/
  | release (ok : Bool)
  | notify (ok : Bool)
  | ran
  /-- The end of `connection`: the channel, the socket, the reader and the
  registration. -/
  | hang_up
  | shutdown
  | join
  | unregister
  /-- `ClientCount` dropped. -/
  | discount
  | tell
  | wake_listener
  | ended
deriving DecidableEq

/-- **Where a reader stands.** -/
inductive Reader (Line : Type)
  | absent
  | read
  | line (line : Line)
  | shutdown_write
  | cancel
  | unregister
  | drop_send
  | shutdown
  | ended
deriving DecidableEq

/-- One connection: its two threads, its channel and its socket. -/
structure Client (Line : Type) where
  handler : Handler Line
  reader : Reader Line
  /-- The key it is registered under. -/
  id : Option ℕ
  cancelled : Bool
  /-- The message in the channel, and whether the handler still receives. -/
  slot : Option (ClientMessage Line)
  receiving : Bool
  /-- Lines that have arrived, and whether no more can. -/
  inbox : List Line
  hung_up : Bool
  shut : Bool

/-- A connection just accepted. -/
def Client.accepted {Line : Type} : Client Line where
  handler := .setup
  reader := .absent
  id := none
  cancelled := false
  slot := none
  receiving := true
  inbox := []
  hung_up := false
  shut := false

/-- No connection. -/
def Client.none {Line : Type} : Client Line := { Client.accepted with handler := .ended }

inductive Loaded
  | loading
  | ready
  | failed
deriving DecidableEq

inductive ServerEvent
  | accepted
  | failed
  | wake
deriving DecidableEq

/-- Where the loop of `serve` stands, with what it has read. -/
inductive Server
  | top
  | looked (draining : Bool)
  | waiting (draining : Bool) (clients : ℕ)
  | returned
deriving DecidableEq

def CLIENTS : ℕ := 32

/-- What the threads share. -/
structure Shared where
  draining : Bool
  queries : ℕ
  connections : Finset ℕ
  next_connection : ℕ
  loaded : Loaded
  /-- `engine_ready` has yet to be notified of the load. -/
  announce : Bool
  clients : ℕ
  /-- The connections spawned so far. -/
  spawned : ℕ
  server : Server
  events : List ServerEvent

structure State (Line : Type) where
  shared : Shared
  client : ℕ → Client Line

def State.start (Line : Type) : State Line where
  shared := {
    draining := false
    queries := 0
    connections := ∅
    next_connection := 0
    loaded := .loading
    announce := false
    clients := 0
    spawned := 0
    server := .top
    events := [] }
  client := fun _ => Client.none

section

variable {Line : Type}

/-! ## Notifying -/

def Handler.greeting : Handler Line → Handler Line
  | .doze => .check
  | h => h

def Handler.asking : Handler Line → Handler Line
  | .queued => .ask
  | h => h

/-- The registry's and the reader's `try_send`. -/
def Client.try_send (c : Client Line) (message : ClientMessage Line) : Option (Client Line) :=
  if c.receiving && c.slot.isNone then some { c with slot := some message } else Option.none

/-- Whether the registry holds a sender of the connection's channel. -/
def Client.registered (connections : Finset ℕ) (c : Client Line) : Bool :=
  c.id.any fun id => decide (id ∈ connections)

/-- Whether the reader still holds its sender. -/
def Reader.sends : Reader Line → Bool
  | .shutdown | .ended => false
  | _ => true

/-- What a step notifies. -/
inductive Wake
  | quiet
  /-- `lifecycle_changed.notify_one` and `notify_all`. -/
  | one
  | asking
  /-- `engine_ready.notify_all`. -/
  | greeting
  /-- Both, as `cancel` does. -/
  | both
  /-- Both, after a `Wake` into every registered channel. -/
  | drain

/-- A connection after both condition variables have been notified. -/
def Client.roused (c : Client Line) : Client Line :=
  { c with handler := c.handler.greeting.asking }

/-- A connection after `drain`. -/
def Client.drained (connections : Finset ℕ) (c : Client Line) : Client Line :=
  if c.registered connections then ((c.try_send .wake).getD c).roused else c.roused

/-- The connections after a notification: which sleeper `notify_one` wakes is
up to the host. -/
inductive Woken (connections : Finset ℕ) : Wake → (ℕ → Client Line) → (ℕ → Client Line) → Prop
  | quiet {cs} : Woken connections .quiet cs cs
  | one {cs} (j : ℕ) : (cs j).handler = .queued →
    Woken connections .one cs (Function.update cs j { cs j with handler := .ask })
  | nobody {cs} : (∀ j, (cs j).handler ≠ .queued) → Woken connections .one cs cs
  | asking {cs} :
    Woken connections .asking cs fun j => { cs j with handler := (cs j).handler.asking }
  | greeting {cs} :
    Woken connections .greeting cs fun j => { cs j with handler := (cs j).handler.greeting }
  | both {cs} : Woken connections .both cs fun j => (cs j).roused
  | drain {cs} : Woken connections .drain cs fun j => (cs j).drained connections

/-! ## The threads -/

def Client.go (c : Client Line) (handler : Handler Line) : Client Line := { c with handler := handler }

def Client.reads (c : Client Line) (reader : Reader Line) : Client Line := { c with reader := reader }

/-- The connections with one registration fewer. -/
def Shared.unregister (s : Shared) (id : Option ℕ) : Shared :=
  { s with connections := s.connections.filter fun k => id ≠ some k }

/-- **The steps of a connection's threads**: what is shared before, the
connection before, both after, and whom the step notifies. Where a step does
input or output, `io` says whether that succeeded. -/
inductive Act (p : Protocol Line) (query_limit : ℕ) :
    Shared → Client Line → Shared → Client Line → Wake → Prop
  | setup {s c} (io : Bool) : c.handler = .setup →
    Act p query_limit s c s (c.go (if io then .register else .discount)) .quiet
  | refused {s c} : c.handler = .register → s.draining = true →
    Act p query_limit s c s (c.go .discount) .quiet
  | register {s c} : c.handler = .register → s.draining = false →
    Act p query_limit s c
      { s with
        connections := insert s.next_connection s.connections
        next_connection := s.next_connection + 1 }
      { c with id := some s.next_connection, handler := .spawn } .quiet
  | spawn {s c} : c.handler = .spawn →
    Act p query_limit s c s { c with reader := .read, handler := .hello } .quiet
  | spawn_failed {s c} : c.handler = .spawn →
    Act p query_limit s c s (c.go .unregister) .quiet
  | hello {s c} : c.handler = .hello →
    Act p query_limit s c s (c.go (if s.loaded = .loading then .check else .turn)) .quiet
  | hello_failed {s c} : c.handler = .hello ∨ c.handler = .hello_again →
    Act p query_limit s c s (c.go .hang_up) .quiet
  | doze {s c} : c.handler = .check → s.loaded = .loading → c.cancelled = false →
    s.draining = false → Act p query_limit s c s (c.go .doze) .quiet
  | checked {s c} : c.handler = .check →
    s.loaded ≠ .loading ∨ c.cancelled = true ∨ s.draining = true →
    Act p query_limit s c s
      (c.go (if c.cancelled || s.draining then .hang_up else .hello_again)) .quiet
  | hello_again {s c} : c.handler = .hello_again → Act p query_limit s c s (c.go .turn) .quiet
  | turn {s c} : c.handler = .turn →
    Act p query_limit s c s (c.go (if s.draining then .hang_up else .receive)) .quiet
  | receive_line {s c} (line : Line) : c.handler = .receive → c.slot = some (.line line) →
    Act p query_limit s c s { c with slot := Option.none, handler := .answer line } .quiet
  | receive_wake {s c} : c.handler = .receive → c.slot = some .wake →
    Act p query_limit s c s { c with slot := Option.none, handler := .woken } .quiet
  | disconnected {s c} : c.handler = .receive → c.slot = Option.none →
    c.registered s.connections = false → c.reader.sends = false →
    Act p query_limit s c s (c.go .hang_up) .quiet
  | woken {s c} : c.handler = .woken →
    Act p query_limit s c s (c.go (if c.cancelled then .hang_up else .woken_draining)) .quiet
  | woken_draining {s c} : c.handler = .woken_draining →
    Act p query_limit s c s (c.go (if s.draining then .hang_up else .turn)) .quiet
  | answer {s c} (io : Bool) (line : Line) : c.handler = .answer line →
    Act p query_limit s c s
      (c.go (match p.parse_request line with
        | Option.none => if io then .turn else .hang_up
        | some .query => .ask
        | some .other => .execute false)) .quiet
  | not_admitted {s c} : c.handler = .ask → s.draining = true ∨ c.cancelled = true →
    Act p query_limit s c s (c.go .hang_up) .quiet
  | admitted {s c} : c.handler = .ask → s.draining = false → c.cancelled = false →
    s.queries < query_limit →
    Act p query_limit s c { s with queries := s.queries + 1 } (c.go (.execute true)) .quiet
  | wait {s c} : c.handler = .ask → s.draining = false → c.cancelled = false →
    query_limit ≤ s.queries → Act p query_limit s c s (c.go .queued) .quiet
  | execute {s c} (io permit : Bool) : c.handler = .execute permit →
    Act p query_limit s c s
      (c.go (if permit then .release io else if io then .ran else .hang_up)) .quiet
  | release {s c} (ok : Bool) : c.handler = .release ok →
    Act p query_limit s c { s with queries := s.queries - 1 } (c.go (.notify ok)) .quiet
  | notify {s c} (ok : Bool) : c.handler = .notify ok →
    Act p query_limit s c s (c.go (if ok then .ran else .hang_up)) .one
  | ran {s c} : c.handler = .ran →
    Act p query_limit s c s (c.go (if c.cancelled then .hang_up else .turn)) .quiet
  | hang_up {s c} : c.handler = .hang_up →
    Act p query_limit s c s { c with receiving := false, handler := .shutdown } .quiet
  | shutdown {s c} : c.handler = .shutdown →
    Act p query_limit s c s { c with shut := true, handler := .join } .quiet
  | join {s c} : c.handler = .join → c.reader = .ended →
    Act p query_limit s c s (c.go .unregister) .quiet
  | unregister {s c} : c.handler = .unregister →
    Act p query_limit s c (s.unregister c.id) (c.go .discount) .quiet
  | discount {s c} : c.handler = .discount →
    Act p query_limit s c { s with clients := s.clients - 1 } (c.go .tell) .quiet
  | tell {s c} : c.handler = .tell → Act p query_limit s c s (c.go .wake_listener) .asking
  | wake_listener {s c} : c.handler = .wake_listener →
    Act p query_limit s c { s with events := s.events ++ [.wake] } (c.go .ended) .quiet
  | read {s c} (line : Line) (rest : List Line) : c.reader = .read → c.inbox = line :: rest →
    Act p query_limit s c s { c with inbox := rest, reader := .line line } .quiet
  | read_end {s c} : c.reader = .read → c.inbox = [] → c.hung_up = true ∨ c.shut = true →
    Act p query_limit s c s (c.reads .cancel) .quiet
  | line_cancel {s c} (line : Line) : c.reader = .line line → p.op line = some .cancel →
    Act p query_limit s c s { c with cancelled := true, reader := .shutdown_write } .both
  | line_drain {s c} (line : Line) : c.reader = .line line → p.op line = some .drain →
    Act p query_limit s c { s with draining := true, events := s.events ++ [.wake] }
      (c.reads .read) .drain
  | line_sent {s c c'} (line : Line) : c.reader = .line line → p.op line = Option.none →
    c.try_send (.line line) = some c' → Act p query_limit s c s (c'.reads .read) .quiet
  | line_refused {s c} (line : Line) : c.reader = .line line → p.op line = Option.none →
    c.try_send (.line line) = Option.none → Act p query_limit s c s (c.reads .cancel) .quiet
  | shutdown_write {s c} : c.reader = .shutdown_write →
    Act p query_limit s c s (c.reads .cancel) .quiet
  | cancel {s c} : c.reader = .cancel →
    Act p query_limit s c s { c with cancelled := true, reader := .unregister } .both
  | reader_unregister {s c} : c.reader = .unregister →
    Act p query_limit s c (s.unregister c.id) (c.reads .drop_send) .quiet
  | drop_send {s c} : c.reader = .drop_send → Act p query_limit s c s (c.reads .shutdown) .quiet
  | reader_shutdown {s c} : c.reader = .shutdown →
    Act p query_limit s c s { c with shut := true, reader := .ended } .quiet

/-! ## The host -/

def State.put (s : State Line) (i : ℕ) (c : Client Line) : State Line :=
  { s with client := Function.update s.client i c }

/-- **The steps of the host's own threads.** -/
inductive Step (p : Protocol Line) (query_limit : ℕ) : State Line → State Line → Prop
  | act {s s' : State Line} {n : Client Line} {k : Wake} (i : ℕ) :
    Act p query_limit s.shared (s.client i) s'.shared n k →
    Woken s'.shared.connections k (Function.update s.client i n) s'.client → Step p query_limit s s'
  | load {s : State Line} (loaded : Loaded) : s.shared.loaded = .loading → loaded ≠ .loading →
    Step p query_limit s { s with shared := { s.shared with loaded := loaded, announce := true } }
  | announce {s s' : State Line} : s.shared.announce = true →
    s'.shared = { s.shared with announce := false } →
    Woken s.shared.connections .greeting s.client s'.client → Step p query_limit s s'
  | serve_top {s : State Line} : s.shared.server = .top →
    Step p query_limit s { s with shared := { s.shared with server := .looked s.shared.draining } }
  | serve_looked {s : State Line} (draining : Bool) : s.shared.server = .looked draining →
    Step p query_limit s
      { s with shared := { s.shared with server := .waiting draining s.shared.clients } }
  | serve_accepted {s : State Line} (n : ℕ) (rest : List ServerEvent) :
    s.shared.server = .waiting false n → s.shared.events = .accepted :: rest → n < CLIENTS →
    Step p query_limit s
      { shared := { s.shared with
          events := rest
          clients := s.shared.clients + 1
          spawned := s.shared.spawned + 1
          server := .top }
        client := Function.update s.client s.shared.spawned Client.accepted }
  | serve_turned_away {s : State Line} (draining : Bool) (n : ℕ) (rest : List ServerEvent) :
    s.shared.server = .waiting draining n → s.shared.events = .accepted :: rest →
    draining = true ∨ CLIENTS ≤ n →
    Step p query_limit s { s with shared := { s.shared with events := rest, server := .top } }
  | serve_wake {s : State Line} (draining : Bool) (n : ℕ) (rest : List ServerEvent) :
    s.shared.server = .waiting draining n → s.shared.events = .wake :: rest →
    Step p query_limit s { s with shared := { s.shared with events := rest, server := .top } }
  | serve_failed {s : State Line} (draining : Bool) (n : ℕ) (rest : List ServerEvent) :
    s.shared.server = .waiting draining n → s.shared.events = .failed :: rest →
    Step p query_limit s { s with shared := { s.shared with events := rest, server := .returned } }

/-- **What comes from outside**: the clients, the accept thread, a service
thread that ends, an idle host that leaves, and wake-ups nobody asked for. -/
inductive Outside : State Line → State Line → Prop
  | accept {s : State Line} (event : ServerEvent) : event ≠ .wake →
    Outside s { s with shared := { s.shared with events := s.shared.events ++ [event] } }
  | send {s : State Line} (i : ℕ) (line : Line) : i < s.shared.spawned →
    (s.client i).hung_up = false →
    Outside s (s.put i { s.client i with inbox := (s.client i).inbox ++ [line] })
  | hang_up {s : State Line} (i : ℕ) : i < s.shared.spawned →
    Outside s (s.put i { s.client i with hung_up := true })
  | read_failed {s : State Line} (i : ℕ) : (s.client i).reader = .read →
    Outside s (s.put i ((s.client i).reads .cancel))
  | fatal {s s' : State Line} :
    s'.shared = { s.shared with draining := true, events := s.shared.events ++ [.wake] } →
    Woken s.shared.connections .drain s.client s'.client → Outside s s'
  | leave {s : State Line} (draining : Bool) : s.shared.server = .waiting draining 0 →
    Outside s { s with shared := { s.shared with server := .returned } }
  | spurious {s : State Line} (i : ℕ) :
    Outside s (s.put i (s.client i).roused)

/-- The states of a host. -/
inductive Reached (p : Protocol Line) (query_limit : ℕ) : State Line → Prop
  | start : Reached p query_limit (.start Line)
  | step {s s' : State Line} : Reached p query_limit s → Step p query_limit s s' →
    Reached p query_limit s'
  | outside {s s' : State Line} : Reached p query_limit s → Outside s s' →
    Reached p query_limit s'

end

end Ferret.Daemon
