import Ferret.Extract.Extractor

/-!
# Extraction by several readers

Readers claim documents in order under one lock, extract them outside it, and
send each with its place in that order to the writer, who hands them on in
order. A reader claims no document beyond the window past the writer's place,
nor while the extractions ahead of the writer hold too many bytes; it sleeps
until the writer moves on, or until a claim is no longer possible.

The model is a step relation: a section under the lock is one step, as is a
signal, a send or a receive. A wait lets go of the lock and sleeps in one step.
`given`, `lost` and `quit` are no part of the program: they record what
`consume` was given, whether a reader has panicked, and whether `consume` has
ended the run.
-/

namespace Ferret.Extract

/-- Documents a reader may run ahead of the writer. -/
def AHEAD : ℕ := 64

/-- Bytes of extractions past which no document is claimed. -/
def HELD : ℕ := 64 * 2 ^ 20

/-- What `consume` is given of a document. -/
abbrev Result := Except Fault Extracted

/-- One extraction, sent with its claim's sequence number, and the bytes it has
allocated. -/
structure Sent where
  seq : ℕ
  doc : ℕ
  result : Result
  bytes : ℕ

/-- The documents readers have yet to claim, how far the writer has consumed
their results, and the bytes of results it has yet to consume. -/
structure Claims where
  docs : List ℕ
  next : ℕ
  consumed : ℕ
  held : ℕ
  stop : Bool

/-- **Where a reader stands.** -/
inductive Pc
  -- `claim`
  | claim
  | asleep
  | notified
  -- `read_claims`
  | extract (seq doc : ℕ)
  | charge (sent : Sent)
  | send (sent : Sent)
  -- `Stop`, and the sender dropped
  | stop
  | notify
  | hang_up
  | ended

/-- **Where the writer stands.** -/
inductive Writer
  | look
  | recv
  | settle (sent : Sent)
  | consume (sent : Sent)
  -- `Stop`
  | stop
  | notify
  | ended

structure Shared where
  claims : Claims
  queue : List Sent
  lost : Bool

structure State (W : Type) where
  shared : Shared
  readers : W → Pc
  memory : W → Memory
  writer : Writer
  /-- The next place the writer looks for. -/
  next : ℕ
  ready : List Sent
  given : List (ℕ × Result)
  quit : Bool

/-- The channel's other end is gone. -/
def Pc.gone : Pc → Bool
  | .ended => true
  | _ => false

/-- A reader after a signal. -/
def Pc.signalled : Pc → Pc
  | .asleep => .notified
  | pc => pc

def State.wake {W : Type} (wakes : Bool) (t : State W) : State W :=
  if wakes then { t with readers := fun w => (t.readers w).signalled } else t

section

variable {W : Type} (window bound : ℕ) (a : Analysis) (read : ℕ → Except Fault Bytes)
  (docs : List ℕ) (goes_on : List (ℕ × Result) → Bool)

/-- The run before its first step. -/
def State.start : State W where
  shared := {
    claims := { docs := docs, next := 0, consumed := 0, held := 0, stop := false }
    queue := []
    lost := false }
  readers := fun _ => .claim
  memory := fun _ => ∅
  writer := .look
  next := 0
  ready := []
  given := []
  quit := false

/-- No document may be claimed now. -/
def Claims.full (c : Claims) : Bool :=
  c.consumed + window ≤ c.next || bound ≤ c.held

/-- What a claim comes to: sleep, an end, or a document. -/
def Claims.claim (c : Claims) : Claims × Pc :=
  if c.stop then (c, .stop)
  else if c.full window bound then (c, .asleep)
  else
    match c.docs with
    | [] => (c, .stop)
    | doc :: rest => ({ c with docs := rest, next := c.next + 1 }, .extract c.next doc)

/-- A reader that asks to stop reads no further. -/
def Sent.stops (sent : Sent) : Bool :=
  match sent.result with
  | .error .stop => true
  | _ => false

/-- **The steps of a reader**: what is shared, its memory and its place before
and after, and whether it signals. -/
inductive Act : Shared → Memory → Pc → Shared → Memory → Pc → Bool → Prop
  | claim {s m pc} : pc = .claim ∨ pc = .notified →
    Act s m pc { s with claims := (s.claims.claim window bound).1 } m
      (s.claims.claim window bound).2 false
  | extract {s m seq doc e} (bytes : ℕ) : (Extract.extract a read m doc).1 = .ok e →
    Act s m (.extract seq doc) s (Extract.extract a read m doc).2
      (.charge ⟨seq, doc, .ok e, bytes⟩) false
  | extract_fault {s m seq doc fault} : (Extract.extract a read m doc).1 = .error fault →
    Act s m (.extract seq doc) s (Extract.extract a read m doc).2
      (.send ⟨seq, doc, .error fault, 0⟩) false
  | panic {s m seq doc} : Act s m (.extract seq doc) { s with lost := true } m .stop false
  | charge {s m sent} :
    Act s m (.charge sent)
      { s with claims := { s.claims with held := s.claims.held + sent.bytes } } m (.send sent) false
  | send {s m sent} :
    Act s m (.send sent) { s with queue := s.queue ++ [sent] } m
      (if sent.stops then .stop else .claim) false
  | stop {s m} :
    Act s m .stop { s with claims := { s.claims with stop := true } } m .notify false
  | notify {s m} : Act s m .notify s m .hang_up true
  | hang_up {s m} : Act s m .hang_up s m .ended false

/-- A reader moved. -/
def State.put [DecidableEq W] (t : State W) (w : W) (s : Shared) (m : Memory) (pc : Pc) : State W :=
  { t with
    shared := s
    readers := Function.update t.readers w pc
    memory := Function.update t.memory w m }

/-- The writer has a place's extraction: it lets go of its bytes and of its
place in the window. -/
def State.settled (t : State W) (sent : Sent) : State W :=
  let claims := { t.shared.claims with
    consumed := t.next
    held := t.shared.claims.held - sent.bytes }
  { t with shared := { t.shared with claims := claims }, writer := .consume sent }

def State.stopped (t : State W) : State W :=
  { t with
    shared := { t.shared with claims := { t.shared.claims with stop := true } }
    writer := .notify }

/-- An extraction handed on, and whether the writer goes on. -/
def State.consumed (t : State W) (sent : Sent) : State W :=
  let given := t.given ++ [(sent.doc, sent.result)]
  if goes_on given then { t with given := given, writer := .look }
  else { t with given := given, writer := .stop, quit := true }

/-- **The steps of the run.** -/
inductive Step [DecidableEq W] : State W → State W → Prop
  | reader {t : State W} {s : Shared} {m : Memory} {pc : Pc} {wakes : Bool} (w : W) :
    Act window bound a read t.shared (t.memory w) (t.readers w) s m pc wakes →
    Step t ((t.put w s m pc).wake wakes)
  | found {t : State W} {sent : Sent} : t.writer = .look →
    t.ready.find? (·.seq = t.next) = some sent →
    Step t { t with
      ready := t.ready.eraseP (·.seq = t.next), next := t.next + 1, writer := .settle sent }
  | missing {t : State W} : t.writer = .look → t.ready.find? (·.seq = t.next) = none →
    Step t { t with writer := .recv }
  | recv {t : State W} {sent : Sent} {queue : List Sent} : t.writer = .recv →
    t.shared.queue = sent :: queue →
    Step t { t with
      shared := { t.shared with queue := queue }, ready := sent :: t.ready, writer := .look }
  | closed {t : State W} : t.writer = .recv → t.shared.queue = [] →
    (∀ w, (t.readers w).gone = true) → Step t { t with writer := .stop }
  | settle {t : State W} {sent : Sent} : t.writer = .settle sent →
    Step t ((t.settled sent).wake true)
  | consume {t : State W} {sent : Sent} : t.writer = .consume sent →
    Step t (t.consumed goes_on sent)
  | stop {t : State W} : t.writer = .stop → Step t t.stopped
  | notify {t : State W} : t.writer = .notify → Step t (({ t with writer := .ended }).wake true)

/-- A sleeper wakes unasked. -/
inductive Outside [DecidableEq W] : State W → State W → Prop
  | wake {t : State W} (w : W) :
    Outside t { t with readers := Function.update t.readers w (t.readers w).signalled }

/-- **The states of a run.** -/
inductive Reached [DecidableEq W] : State W → Prop
  | start : Reached (.start docs)
  | step {t t' : State W} : Reached t → Step window bound a read goes_on t t' → Reached t'
  | outside {t t' : State W} : Reached t → Outside t t' → Reached t'

/-! ## One reader -/

/-- One reader, on the writer's own thread: what `consume` is given, after
what it was given before. -/
def alone : List ℕ → Memory → List (ℕ × Result) → List (ℕ × Result)
  | [], _, given => given
  | doc :: rest, last, given =>
    let q := Extract.extract a read last doc
    let given := given ++ [(doc, q.1)]
    if goes_on given then alone rest q.2 given else given

/-- `holding` with one reader. -/
def single : List (ℕ × Result) := alone a read goes_on docs ∅ []

end

end Ferret.Extract
