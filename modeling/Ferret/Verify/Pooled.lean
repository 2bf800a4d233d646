import Ferret.Verify.Scan

/-!
# The sequential scan, and a pool of workers

`alone` handles and consumes one position after the other. On a pool, workers
claim batches of consecutive positions in order, handle the positions of a
batch one by one and post each; the calling thread takes the posted positions
in order and consumes them. A batch has a place in the ring only once the
batch that held it has been taken.

A worker's steps stand between its accesses to what the threads share: the
counter of batches, the two maps of the scan, and the ring.
-/

namespace Ferret.Verify

variable {ε σ : Type}

/-- The name at a position. -/
def Scan.id (scan : Scan ε) (pos : ℕ) : NameId := (scan.ids[pos]?).getD 0

/-- The cache of owners with one more, if there is one to remember. -/
def note (owners : Owners) (d : Doc) : Option NameId → Owners
  | none => owners
  | some first => Function.update owners d (some first)

/-- Handles a position on the calling thread. -/
def Scan.item (scan : Scan ε) (owners : Owners) (pos : ℕ) : Item ε × Owners :=
  match scan.test (scan.id pos) with
  | .item item => (item, owners)
  | .maybe row d =>
    let own := scan.owns owners pos (scan.id pos) d
    (.row row (some d) (if own.1 then scan.read_owned row d else .here d), note owners d own.2)

section

variable (scan : Scan ε) (emit : σ → Row → Flow × σ)

/-- The positions from `pos` on, with `n` of them left. -/
def aloneFrom : ℕ → ℕ → Owners → Ledger σ → Report ε σ
  | 0, pos, _, l => .finished pos l
  | n + 1, pos, owners, l =>
    let item := scan.item owners pos
    match l.consume scan emit item.1 with
    | .error e => .failed e l.callback
    | .ok (.stop, l) => .finished (pos + 1) l
    | .ok (.go, l) => aloneFrom n (pos + 1) item.2 l

/-- **The sequential order**: every position consumed as soon as it is
handled. -/
def alone (callback : σ) : Report ε σ :=
  aloneFrom scan emit scan.ids.length 0 (fun _ => none) (Ledger.new callback)

end

/-! ## The pool -/

/-- The sizes of a pool. -/
structure Pool where
  batch : ℕ
  slots : ℕ
  batch_pos : 0 < batch
  slots_pos : 0 < slots

def BATCHES_PER_THREAD : ℕ := 16

def MAX_BATCH : ℕ := 256

def RING_PER_THREAD : ℕ := 16

/-- The sizes the host takes for so many threads. -/
def Pool.schedule (positions threads : ℕ) (h : 0 < threads) : Pool where
  batch := max 1 (min (positions / (threads * BATCHES_PER_THREAD)) MAX_BATCH)
  slots := threads * RING_PER_THREAD
  batch_pos := Nat.lt_of_lt_of_le Nat.one_pos (Nat.le_max_left _ _)
  slots_pos := Nat.mul_pos h (by decide)

def Pool.batches (pool : Pool) (positions : ℕ) : ℕ := (positions + pool.batch - 1) / pool.batch

/-- The first position after a batch. -/
def Pool.stop (pool : Pool) (positions index : ℕ) : ℕ := min ((index + 1) * pool.batch) positions

theorem Pool.lt_batches (pool : Pool) (positions index : ℕ) :
    index < pool.batches positions ↔ index * pool.batch < positions := by
  have hb := pool.batch_pos
  unfold Pool.batches
  rw [Nat.lt_iff_add_one_le, Nat.le_div_iff_mul_le hb, add_mul, one_mul]
  omega

theorem Pool.lt_stop {pool : Pool} {positions index : ℕ} (h : index * pool.batch < positions) :
    index * pool.batch < pool.stop positions index := by
  have hb := pool.batch_pos
  unfold Pool.stop
  rw [add_mul, one_mul]
  omega

/-- **Where a worker stands.** -/
inductive Worker (ε : Type)
  /-- About to claim a batch. -/
  | idle
  /-- Has claimed a batch, and waits for its place in the ring. -/
  | waiting (index : ℕ)
  /-- About to handle a position of its batch. -/
  | fresh (index pos : ℕ)
  /-- Has looked the document's owner up, and is to remember it. -/
  | judged (index pos : ℕ) (row : Row) (d : Doc) (own : Bool) (first : Option NameId)
  /-- About to read the document, or to look for its owner's answers. -/
  | noted (index pos : ℕ) (row : Row) (d : Doc) (own : Bool)
  /-- About to post what it found. -/
  | held (index pos : ℕ) (item : Item ε)
  | done

/-- The pool's shared state, its workers, and the calling thread. -/
structure State (ε σ : Type) (n : ℕ) where
  /-- The next batch to claim. -/
  next : ℕ
  /-- Batches taken whole. -/
  head : ℕ
  workers : Fin n → Worker ε
  owners : Owners
  found : Found
  posted : ℕ → Option (Item ε)
  /-- Positions taken from the ring, and those of them consumed. -/
  taken : ℕ
  consumed : ℕ
  ledger : Ledger σ
  result : Option (Report ε σ)

def State.start {n : ℕ} (callback : σ) : State ε σ n where
  next := 0
  head := 0
  workers := fun _ => .idle
  owners := fun _ => none
  found := fun _ => none
  posted := fun _ => none
  taken := 0
  consumed := 0
  ledger := Ledger.new callback
  result := none

/-- Who acts next. -/
inductive Act (n : ℕ)
  | worker (w : Fin n)
  | take
  | consume
  | finish

section

variable {n : ℕ} (scan : Scan ε) (pool : Pool) (emit : σ → Row → Flow × σ)

/-- The state with a worker moved. -/
def State.move (s : State ε σ n) (w : Fin n) (worker : Worker ε) : State ε σ n :=
  { s with workers := Function.update s.workers w worker }

/-- What an owner's read leaves in the map of answers. -/
def Scan.share (row : Row) (d : Doc) (found : Found) : Found :=
  if scan.is_repeated d then
    Function.update found d (some (Scan.shared (scan.host.verify row.name)))
  else found

/-- A worker's next step. -/
def State.work (s : State ε σ n) (w : Fin n) : Option (State ε σ n) :=
  let positions := scan.ids.length
  match s.workers w with
  | .idle =>
    let claimed := { s with next := s.next + 1 }
    if s.next < pool.batches positions then some (claimed.move w (.waiting s.next))
    else some (claimed.move w .done)
  | .waiting index =>
    if index < s.head + pool.slots then some (s.move w (.fresh index (index * pool.batch)))
    else none
  | .fresh index pos =>
    match scan.test (scan.id pos) with
    | .item item => some (s.move w (.held index pos item))
    | .maybe row d =>
      let own := scan.owns s.owners pos (scan.id pos) d
      some (s.move w (.judged index pos row d own.1 own.2))
  | .judged index pos row d own first =>
    some ({ s with owners := note s.owners d first }.move w (.noted index pos row d own))
  | .noted index pos row d own =>
    if own then
      some ({ s with found := scan.share row d s.found }.move w
        (.held index pos (.row row (some d) (scan.read_owned row d))))
    else
      some (s.move w (.held index pos (.row row (some d) (scan.revisit row d (s.found d)))))
  | .held index pos item =>
    let posted := { s with posted := Function.update s.posted pos (some item) }
    if pos + 1 < pool.stop positions index then some (posted.move w (.fresh index (pos + 1)))
    else some (posted.move w .idle)
  | .done => none

/-- The next state, if the one who acts can: until the run has a result. -/
def State.act (s : State ε σ n) (a : Act n) : Option (State ε σ n) :=
  let positions := scan.ids.length
  match s.result with
  | some _ => none
  | none =>
    match a with
    | .worker w => s.work scan pool w
    | .take =>
      if s.taken < positions ∧ (s.posted s.taken).isSome then
        some { s with
          taken := s.taken + 1
          head := if s.taken + 1 = pool.stop positions s.head then s.head + 1 else s.head }
      else none
    | .consume =>
      if s.consumed < s.taken then
        match s.posted s.consumed with
        | none => none
        | some item =>
          match s.ledger.consume scan emit item with
          | .error e => some { s with result := some (.failed e s.ledger.callback) }
          | .ok (.stop, l) =>
            some { s with ledger := l, result := some (.finished (s.consumed + 1) l) }
          | .ok (.go, l) => some { s with ledger := l, consumed := s.consumed + 1 }
      else none
    | .finish =>
      if s.consumed = positions then
        some { s with result := some (.finished positions s.ledger) }
      else none

/-- The states of a run. -/
inductive Reached (callback : σ) : State ε σ n → Prop
  | start : Reached callback (.start callback)
  | act {s s' : State ε σ n} (a : Act n) :
    Reached callback s → s.act scan pool emit a = some s' → Reached callback s'

end

end Ferret.Verify
