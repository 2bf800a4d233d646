import Ferret.Extract.InOrder
import Ferret.Lib.Tally

/-!
# What holds of every state of the extraction

Every place claimed and not yet reached by the writer is in exactly one spot:
with a reader, in the channel or with the writer. The bytes held are those of
the extractions charged on their way, and whoever sleeps still has a reason to.
-/

namespace Ferret.Extract

/-- What a reader has yet to send. -/
def Pc.hand : Pc → List Sent
  | .charge sent | .send sent => [sent]
  | _ => []

/-- Whether a reader has a place. -/
def Pc.at (s : ℕ) : Pc → ℕ
  | .extract seq _ => if seq = s then 1 else 0
  | .charge sent | .send sent => if sent.seq = s then 1 else 0
  | _ => 0

/-- The bytes a reader has charged and not sent. -/
def Pc.charged : Pc → ℕ
  | .send sent => sent.bytes
  | _ => 0

/-- The place a reader's memory does not reach. -/
def Pc.limit (next : ℕ) : Pc → ℕ
  | .extract seq _ => seq
  | _ => next

/-- A reader that has told all to stop. -/
def Pc.leaves : Pc → Bool
  | .notify | .hang_up | .ended => true
  | _ => false

/-- The extraction the writer has in its hands. -/
def Writer.hand : Writer → List Sent
  | .settle sent | .consume sent => [sent]
  | _ => []

def Writer.charged : Writer → ℕ
  | .settle sent => sent.bytes
  | _ => 0

def Writer.settles : Writer → ℕ
  | .settle _ => 1
  | _ => 0

/-- The writer has left its loop. -/
def Writer.finished : Writer → Bool
  | .stop | .notify | .ended => true
  | _ => false

/-- The writer has told all to stop. -/
def Writer.leaves : Writer → Bool
  | .notify | .ended => true
  | _ => false

/-- How often a place occurs in a list. -/
def places (s : ℕ) (l : List Sent) : ℕ := l.countP (·.seq = s)

def charges (l : List Sent) : ℕ := (l.map Sent.bytes).sum

section

variable {W : Type} (window bound : ℕ) (a : Analysis) (read : ℕ → Except Fault Bytes)
  (docs : List ℕ) (goes_on : List (ℕ × Result) → Bool)

/-- What a document comes to, whoever reads it. -/
def outcome (doc : ℕ) : ℕ × Result := (doc, afresh a read doc)

/-- An extraction is of the document at its place. -/
structure Sent.Good (next : ℕ) (x : Sent) : Prop where
  claimed : x.seq < next
  doc : docs[x.seq]? = some x.doc
  result : x.result = afresh a read x.doc

/-- Why no more documents are claimed. -/
def State.Reason (t : State W) : Prop :=
  t.shared.claims.next = docs.length
    ∨ (∃ i < t.shared.claims.next, ∃ doc, docs[i]? = some doc
      ∧ afresh a read doc = .error .stop)
    ∨ t.shared.lost = true ∨ t.quit = true

/-- Where a place is. -/
def State.places [Fintype W] (t : State W) (s : ℕ) : ℕ :=
  ∑ w, (t.readers w).at s + Extract.places s t.shared.queue + Extract.places s t.ready

/-- What holds of a run's states, sleepers apart. -/
structure State.Inv [Fintype W] (t : State W) : Prop where
  left : t.shared.claims.docs = docs.drop t.shared.claims.next
  next_le : t.shared.claims.next ≤ docs.length
  consumed : t.shared.claims.consumed + t.writer.settles = t.next
  behind : t.next ≤ t.shared.claims.next
  claimed : ∀ w seq doc, t.readers w = .extract seq doc →
    seq < t.shared.claims.next ∧ docs[seq]? = some doc
  reader_good : ∀ w, ∀ x ∈ (t.readers w).hand, x.Good a read docs t.shared.claims.next
  queue_good : ∀ x ∈ t.shared.queue, x.Good a read docs t.shared.claims.next
  ready_good : ∀ x ∈ t.ready, x.Good a read docs t.shared.claims.next
  writer_good : ∀ x ∈ t.writer.hand, x.Good a read docs t.shared.claims.next ∧ x.seq + 1 = t.next
  places_le : ∀ s, t.places s ≤ if t.next ≤ s ∧ s < t.shared.claims.next then 1 else 0
  places_eq : t.shared.lost = false →
    ∀ s, t.places s = if t.next ≤ s ∧ s < t.shared.claims.next then 1 else 0
  held : t.shared.claims.held
    = ∑ w, (t.readers w).charged + charges t.shared.queue + charges t.ready + t.writer.charged
  leaves : ∀ w, (t.readers w).leaves = true → t.shared.claims.stop = true
  writer_leaves : t.writer.leaves = true → t.shared.claims.stop = true
  missing : t.writer = .recv → t.ready.find? (·.seq = t.next) = none
  reason : t.shared.claims.stop = true ∨ (∃ w, t.readers w = .stop) → t.Reason a read docs
  panicked : t.shared.lost = true → t.shared.claims.stop = true ∨ ∃ w, t.readers w = .stop
  given : t.given = (docs.take (t.next - t.writer.hand.length)).map (outcome a read)
  goes : ∀ k < t.given.length, goes_on (t.given.take (k + 1)) = true
    ∨ k + 1 = t.given.length ∧ t.quit = true
  quit : t.quit = true → t.given ≠ [] ∧ goes_on t.given = false ∧ t.writer.finished = true
  finished : t.writer.finished = true → t.quit = true ∨ t.shared.lost = true
    ∨ t.shared.claims.next = t.next ∧ ∀ w, (t.readers w).gone = true
  memory : ∀ w term d, (t.memory w).lookup term = some d →
    ∃ i < (t.readers w).limit t.shared.claims.next, docs[i]? = some d

/-- A sleeper has a reason to sleep, or is about to be signalled. -/
def State.Asleep (t : State W) : Prop :=
  ∀ w, t.readers w = .asleep → t.shared.claims.full window bound = true
    ∧ (t.shared.claims.stop = false ∨ (∃ v, t.readers v = .notify) ∨ t.writer = .notify)

/-- **The invariant of a run.** -/
structure State.Sound [Fintype W] (t : State W) : Prop extends t.Inv a read docs goes_on where
  asleep : t.Asleep window bound

end

/-! ## What one act does, apart from the other readers -/

section

variable {window bound : ℕ} {a : Analysis} {read : ℕ → Except Fault Bytes} {docs : List ℕ}
  {s s' : Shared} {m m' : Memory} {o n : Pc} {wakes : Bool}

/-- What a claim comes to. -/
theorem Claims.claim_cases (c : Claims) (window bound : ℕ) :
    (c.claim window bound = (c, .stop) ∧ (c.stop = true ∨ c.docs = []))
    ∨ (c.claim window bound = (c, .asleep) ∧ c.full window bound = true ∧ c.stop = false)
    ∨ ∃ doc rest, c.docs = doc :: rest
      ∧ c.claim window bound = ({ c with docs := rest, next := c.next + 1 }, .extract c.next doc) := by
  unfold Claims.claim
  split
  · exact .inl ⟨rfl, .inl ‹_›⟩
  · split
    · exact .inr (.inl ⟨rfl, ‹_›, Bool.eq_false_of_not_eq_true ‹_›⟩)
    · split
      · exact .inl ⟨rfl, .inr ‹_›⟩
      · exact .inr (.inr ⟨_, _, ‹_›, rfl⟩)

/-- A reader leaves the claims' order alone, or claims the next document. -/
theorem Act.claims (h : Act window bound a read s m o s' m' n wakes) :
    (s'.claims.docs = s.claims.docs ∧ s'.claims.next = s.claims.next
      ∧ ∀ seq doc, n ≠ .extract seq doc)
    ∨ ∃ doc rest, s.claims.docs = doc :: rest ∧ n = .extract s.claims.next doc ∧ m' = m
      ∧ s' = { s with claims := { s.claims with docs := rest, next := s.claims.next + 1 } } := by
  cases h
  case claim =>
    rcases s.claims.claim_cases window bound with
      ⟨heq, -⟩ | ⟨heq, -⟩ | ⟨doc, rest, hdocs, heq⟩
    · rw [heq]
      exact .inl ⟨rfl, rfl, nofun⟩
    · rw [heq]
      exact .inl ⟨rfl, rfl, nofun⟩
    · rw [heq]
      exact .inr ⟨doc, rest, hdocs, rfl, rfl, rfl⟩
  case send sent =>
    refine .inl ⟨rfl, rfl, ?_⟩
    split <;> nofun
  all_goals exact .inl ⟨rfl, rfl, nofun⟩

/-- What a reader leaves alone. -/
theorem Act.frame (h : Act window bound a read s m o s' m' n wakes) :
    s'.claims.consumed = s.claims.consumed ∧ (s.lost = true → s'.lost = true)
      ∧ (s.claims.stop = true → s'.claims.stop = true) := by
  cases h
  case claim =>
    rcases s.claims.claim_cases window bound with
      ⟨heq, -⟩ | ⟨heq, -⟩ | ⟨_, _, _, heq⟩ <;> rw [heq] <;> exact ⟨rfl, id, id⟩
  case panic => exact ⟨rfl, fun _ => rfl, id⟩
  case stop => exact ⟨rfl, id, fun _ => rfl⟩
  all_goals exact ⟨rfl, id, id⟩

theorem places_append (i : ℕ) (l l' : List Sent) : places i (l ++ l') = places i l + places i l' :=
  List.countP_append ..

theorem places_cons (i : ℕ) (x : Sent) (l : List Sent) :
    places i (x :: l) = places i l + if x.seq = i then 1 else 0 := by
  unfold places
  rw [List.countP_cons]
  simp

theorem charges_append (l l' : List Sent) : charges (l ++ l') = charges l + charges l' := by
  unfold charges
  rw [List.map_append, List.sum_append]

/-- A place stays where it is, unless a reader panics with it. -/
theorem Act.places (h : Act window bound a read s m o s' m' n wakes) (i : ℕ) :
    (n.at i + Extract.places i s'.queue
        = o.at i + Extract.places i s.queue
          + (if s.claims.next ≤ i ∧ i < s'.claims.next then 1 else 0) ∧ s'.lost = s.lost)
    ∨ (n.at i + Extract.places i s'.queue ≤ o.at i + Extract.places i s.queue ∧ s'.lost = true
      ∧ s'.claims.next = s.claims.next) := by
  cases h
  case claim hpc =>
    have ho : o.at i = 0 := by rcases hpc with rfl | rfl <;> rfl
    refine .inl ⟨?_, rfl⟩
    rcases s.claims.claim_cases window bound with
      ⟨heq, -⟩ | ⟨heq, -⟩ | ⟨_, _, _, heq⟩
    · rw [heq, ho]
      simp [Pc.at]
    · rw [heq, ho]
      simp [Pc.at]
    · rw [heq, ho]
      simp only [Pc.at]
      split <;> split <;> omega
  case panic => exact .inr ⟨Nat.add_le_add_right (Nat.zero_le _) _, rfl, rfl⟩
  case send sent =>
    refine .inl ⟨?_, rfl⟩
    have hn : (if sent.stops then Pc.stop else Pc.claim).at i = 0 := by split <;> rfl
    rw [hn, places_append, places_cons]
    have hno : ¬ (s.claims.next ≤ i ∧ i < s.claims.next) := by omega
    simp [Pc.at, Extract.places, hno]
    omega
  all_goals
    refine .inl ⟨?_, rfl⟩
    simp [Pc.at]
    try omega

/-- The bytes held follow the charges. -/
theorem Act.held (h : Act window bound a read s m o s' m' n wakes) :
    s'.claims.held + o.charged + charges s.queue = s.claims.held + n.charged + charges s'.queue := by
  cases h
  case claim hpc =>
    have ho : o.charged = 0 := by rcases hpc with rfl | rfl <;> rfl
    rcases s.claims.claim_cases window bound with
      ⟨heq, -⟩ | ⟨heq, -⟩ | ⟨_, _, _, heq⟩ <;> rw [heq, ho] <;> rfl
  case send sent =>
    have hn : (if sent.stops then Pc.stop else Pc.claim).charged = 0 := by split <;> rfl
    rw [hn, charges_append]
    simp [Pc.charged, charges]
    omega
  all_goals simp [Pc.charged]

theorem Act.leaves (h : Act window bound a read s m o s' m' n wakes) (hn : n.leaves = true) :
    o.leaves = true ∨ s'.claims.stop = true := by
  cases h
  case claim hpc =>
    rcases s.claims.claim_cases window bound with
      ⟨heq, -⟩ | ⟨heq, -⟩ | ⟨_, _, _, heq⟩ <;> rw [heq] at hn <;> cases hn
  case send sent =>
    revert hn
    split <;> nofun
  case stop => exact .inr rfl
  case notify => exact .inl rfl
  case hang_up => exact .inl rfl
  all_goals cases hn

theorem Sent.Good.mono {next next' : ℕ} {x : Sent} (h : x.Good a read docs next)
    (hle : next ≤ next') : x.Good a read docs next' :=
  ⟨lt_of_lt_of_le h.claimed hle, h.doc, h.result⟩

section

variable (h : Act window bound a read s m o s' m' n wakes)

include h

/-- What a reader has extracted, and what it sends, is of the document it
claimed. -/
theorem Act.good (hold : ∀ x ∈ o.hand, x.Good a read docs s.claims.next)
    (hclaimed : ∀ seq doc, o = .extract seq doc → seq < s.claims.next ∧ docs[seq]? = some doc
      ∧ (Extract.extract a read m doc).1 = afresh a read doc)
    (hqueue : ∀ x ∈ s.queue, x.Good a read docs s.claims.next) :
    (∀ x ∈ n.hand, x.Good a read docs s.claims.next)
      ∧ ∀ x ∈ s'.queue, x.Good a read docs s.claims.next := by
  cases h
  case claim =>
    rcases s.claims.claim_cases window bound with
      ⟨heq, -⟩ | ⟨heq, -⟩ | ⟨doc, _, _, heq⟩ <;> rw [heq] <;> exact ⟨nofun, hqueue⟩
  case extract seq doc e bytes he | extract_fault seq doc fault he =>
    obtain ⟨hseq, hdoc, hres⟩ := hclaimed seq doc rfl
    refine ⟨fun x hx => ?_, hqueue⟩
    obtain rfl := List.mem_singleton.mp hx
    exact ⟨hseq, hdoc, he.symm.trans hres⟩
  case charge => exact ⟨hold, hqueue⟩
  case send sent =>
    refine ⟨?_, fun x hx => ?_⟩
    · split <;> nofun
    · rcases List.mem_append.mp hx with hx | hx
      · exact hqueue x hx
      · exact hold x hx
  all_goals exact ⟨nofun, hqueue⟩

/-- A reader's memory reaches up to the documents it has claimed. -/
theorem Act.memory
    (hold : ∀ term d, m.lookup term = some d → ∃ i < o.limit s.claims.next, docs[i]? = some d)
    (hclaimed : ∀ seq doc, o = .extract seq doc → seq < s.claims.next ∧ docs[seq]? = some doc)
    (term : Bytes) (d : ℕ) (hd : m'.lookup term = some d) :
    ∃ i < n.limit s'.claims.next, docs[i]? = some d := by
  -- after an extraction the reader's limit is that of a free reader
  have hafter : ∀ seq doc, o = .extract seq doc → ((Extract.extract a read m doc).2.lookup term = some d ∨
      m.lookup term = some d) → ∃ i < s.claims.next, docs[i]? = some d := by
    rintro seq doc rfl hlook
    obtain ⟨hseq, hdoc⟩ := hclaimed seq doc rfl
    have hor : d = doc ∨ m.lookup term = some d := hlook.elim lookup_extract .inr
    rcases hor with rfl | hm
    · exact ⟨seq, hseq, hdoc⟩
    · obtain ⟨i, hi, hdi⟩ := hold term d hm
      exact ⟨i, lt_trans hi hseq, hdi⟩
  cases h
  case claim hpc =>
    have ho : o.limit s.claims.next = s.claims.next := by rcases hpc with rfl | rfl <;> rfl
    obtain ⟨i, hi, hdi⟩ := hold term d hd
    rw [ho] at hi
    rcases s.claims.claim_cases window bound with
      ⟨heq, -⟩ | ⟨heq, -⟩ | ⟨doc, _, _, heq⟩ <;> rw [heq] <;> exact ⟨i, hi, hdi⟩
  case extract seq doc e bytes he => exact hafter seq doc rfl (.inl hd)
  case extract_fault seq doc fault he => exact hafter seq doc rfl (.inl hd)
  case panic seq doc => exact hafter seq doc rfl (.inr hd)
  case send sent =>
    have hn : (if sent.stops then Pc.stop else Pc.claim).limit s.claims.next = s.claims.next := by
      split <;> rfl
    show ∃ i < Pc.limit s.claims.next _, _
    rw [hn]
    exact hold term d hd
  all_goals exact hold term d hd

/-- Why a reader ends, or tells all to. -/
theorem Act.reason (hsent : ∀ x, o = .send x → x.Good a read docs s.claims.next)
    (hleft : s.claims.docs = docs.drop s.claims.next) (hle : s.claims.next ≤ docs.length)
    (hn : s'.claims.stop = true ∨ n = .stop) :
    s.claims.stop = true ∨ o = .stop ∨ s'.lost = true ∨ s'.claims.next = docs.length
      ∨ ∃ i < s'.claims.next, ∃ doc, docs[i]? = some doc ∧ afresh a read doc = .error .stop := by
  cases h
  case claim hpc =>
    rcases s.claims.claim_cases window bound with
      ⟨heq, hstop | hnil⟩ | ⟨heq, -⟩ | ⟨doc, _, _, heq⟩
    · exact .inl hstop
    · refine .inr (.inr (.inr (.inl ?_)))
      rw [heq]
      rw [hleft] at hnil
      have := List.drop_eq_nil_iff.mp hnil
      exact le_antisymm hle this
    all_goals
      rw [heq] at hn
      exact hn.elim .inl nofun
  case panic => exact .inr (.inr (.inl rfl))
  case send sent =>
    rcases hn with hn | hn
    · exact .inl hn
    · have hstops : sent.stops = true := by
        by_contra hno
        rw [if_neg hno] at hn
        cases hn
      obtain ⟨hlt, hdoc, hres⟩ := hsent sent rfl
      refine .inr (.inr (.inr (.inr ⟨sent.seq, hlt, sent.doc, hdoc, ?_⟩)))
      rw [← hres]
      unfold Sent.stops at hstops
      split at hstops
      · assumption
      · cases hstops
  case stop => exact .inr (.inl rfl)
  case notify => exact hn.elim .inl nofun
  case hang_up => exact hn.elim .inl nofun
  all_goals exact hn.elim .inl nofun

/-- A reader makes no claim possible. -/
theorem Act.full (hf : s.claims.full window bound = true) : s'.claims.full window bound = true := by
  cases h
  case claim =>
    revert hf
    rcases s.claims.claim_cases window bound with
      ⟨heq, -⟩ | ⟨heq, -⟩ | ⟨_, _, _, heq⟩ <;> rw [heq] <;>
      simp only [Claims.full, Bool.or_eq_true, decide_eq_true_eq] <;> omega
  case charge =>
    revert hf
    simp only [Claims.full, Bool.or_eq_true, decide_eq_true_eq]
    omega
  all_goals exact hf

/-- A reader that tells all to stop is about to signal it. -/
theorem Act.stops : n = .notify ∨ s'.claims.stop = s.claims.stop := by
  cases h
  case claim =>
    rcases s.claims.claim_cases window bound with
      ⟨heq, -⟩ | ⟨heq, -⟩ | ⟨_, _, _, heq⟩ <;> rw [heq] <;> exact .inr rfl
  case stop => exact .inl rfl
  all_goals exact .inr rfl

/-- A reader falls asleep when no claim is possible. -/
theorem Act.sleeps (hn : n = .asleep) :
    s'.claims.full window bound = true ∧ s'.claims.stop = false := by
  cases h
  case claim =>
    rcases s.claims.claim_cases window bound with
      ⟨heq, -⟩ | ⟨heq, hf, hs⟩ | ⟨_, _, _, heq⟩ <;> rw [heq] at hn ⊢
    · cases hn
    · exact ⟨hf, hs⟩
    · cases hn
  case send sent =>
    revert hn
    split <;> nofun
  all_goals cases hn

/-- A reader about to signal does. -/
theorem Act.notifies (ho : o = .notify) : wakes = true := by
  cases h
  case claim hpc =>
    rw [ho] at hpc
    exact hpc.elim nofun nofun
  case notify => rfl
  all_goals cases ho

theorem Act.panicked :
    (s'.lost = true → s.lost = true ∨ n = .stop) ∧ (o = .stop → s'.claims.stop = true) := by
  cases h
  case claim hpc =>
    refine ⟨.inl, fun ho => ?_⟩
    rw [ho] at hpc
    exact hpc.elim nofun nofun
  case panic => exact ⟨fun _ => .inr rfl, nofun⟩
  case stop => exact ⟨.inl, fun _ => rfl⟩
  all_goals exact ⟨.inl, nofun⟩

end

end

end Ferret.Extract
