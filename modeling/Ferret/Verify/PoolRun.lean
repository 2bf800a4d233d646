import Ferret.Verify.Sequential
import Mathlib.Algebra.BigOperators.Fin

/-!
# Runs of the pool

Two invariants of a run. The first says what the threads leave of each
position, and so that the ledger is the sequential one. The second says that
every position claimed and not yet posted is some worker's, so that the
calling thread never waits for nobody; with it goes a weight that every step
lowers, so that every run comes to a result.
-/

namespace Ferret.Verify

open Function

variable {ε σ : Type} {scan : Scan ε} {pool : Pool} {emit : σ → Row → Flow × σ} {callback : σ}
  {n : ℕ}

/-! ## What the threads leave -/

/-- What a worker holds is what it may leave. -/
def Worker.Sound (scan : Scan ε) (pool : Pool) : Worker ε → Prop
  | .idle => True
  | .waiting index => index * pool.batch < scan.ids.length
  | .fresh _ pos => pos < scan.ids.length
  | .judged _ pos row d own first =>
    pos < scan.ids.length ∧ scan.test (scan.id pos) = .maybe row d
      ∧ own = scan.owner pos (scan.id pos) d
      ∧ ∀ name, first = some name → scan.firstName d = some name
  | .noted _ pos row d own =>
    pos < scan.ids.length ∧ scan.test (scan.id pos) = .maybe row d
      ∧ own = scan.owner pos (scan.id pos) d
  | .held _ pos item => pos < scan.ids.length ∧ scan.Left pos item
  | .done => True

/-- **The first invariant of a run.** -/
structure State.Sound (scan : Scan ε) (pool : Pool) (emit : σ → Row → Flow × σ) (callback : σ)
    (s : State ε σ n) : Prop where
  owners : scan.OwnersSound s.owners
  found : ∀ d answers, s.found d = some (some answers) → scan.Shared d answers
  workers : ∀ w, (s.workers w).Sound scan pool
  posted : ∀ pos item, s.posted pos = some item → scan.Left pos item
  taken : s.taken ≤ scan.ids.length
  consumed : s.consumed ≤ s.taken
  ledger : s.result = none → ledgerAt scan emit callback s.consumed = .ok s.ledger
  result : ∀ r, s.result = some r → r = reportOf scan emit callback

variable {s' : State ε σ n}

section

variable {s : State ε σ n} {w : Fin n}

theorem workers_update {P : Worker ε → Prop} {workers : Fin n → Worker ε} (h : ∀ w, P (workers w))
    {worker : Worker ε} (hw : P worker) (v : Fin n) : P (Function.update workers w worker v) := by
  by_cases hv : v = w
  · rw [hv, update_self]
    exact hw
  · rw [update_of_ne hv]
    exact h v

/-- A worker that moves and leaves the shared state alone. -/
theorem State.Sound.move (h : s.Sound scan pool emit callback) {worker : Worker ε}
    (hw : worker.Sound scan pool) : (s.move w worker).Sound scan pool emit callback :=
  { h with workers := workers_update h.workers hw }

/-- An owner's read is shared with the later names of its document. -/
theorem Scan.share_sound {found : Found} {row : Row} {d : Doc} {pos : ℕ}
    (h : ∀ d answers, found d = some (some answers) → scan.Shared d answers)
    (hpos : pos < scan.ids.length) (htest : scan.test (scan.id pos) = .maybe row d)
    (hown : scan.owner pos (scan.id pos) d = true) (d' : Doc) (answers : Answers)
    (hfound : scan.share row d found d' = some (some answers)) : scan.Shared d' answers := by
  unfold Scan.share at hfound
  split at hfound
  · rename_i hrep
    by_cases hd : d' = d
    · subst hd
      rw [update_self] at hfound
      unfold Scan.shared at hfound
      split at hfound
      · rename_i a work hverify
        obtain rfl : a = answers := by simpa using hfound
        exact ⟨hrep, pos, row, work, hpos, htest, hown, hverify⟩
      · cases hfound
    · rw [update_of_ne hd] at hfound
      exact h d' answers hfound
  · exact h d' answers hfound

/-- What a later name is left as, with whatever its owner has shared so far. -/
theorem Scan.revisit_left {found : Found} {row : Row} {d : Doc} {pos : ℕ}
    (h : ∀ d answers, found d = some (some answers) → scan.Shared d answers)
    (htest : scan.test (scan.id pos) = .maybe row d)
    (hown : scan.owner pos (scan.id pos) d = false) :
    scan.Left pos (.row row (some d) (scan.revisit row d (found d))) := by
  have hplain : scan.plain pos = .row row (some d) (.here d) := by
    unfold Scan.plain
    rw [htest]
    dsimp only
    rw [hown]
    rfl
  cases hf : found d with
  | none => exact hplain ▸ .plain
  | some shared =>
    cases shared with
    | none => exact hplain ▸ .plain
    | some answers => exact .revisited htest hown (h d answers hf)

theorem State.Sound.work (h : s.Sound scan pool emit callback) (hw : s.work scan pool w = some s') :
    s'.Sound scan pool emit callback := by
  have hworker := h.workers w
  unfold State.work at hw
  cases hstate : s.workers w with
  | idle =>
    rw [hstate] at hw
    dsimp only at hw
    split at hw
    · rename_i hlt
      cases hw
      exact { h with workers := workers_update h.workers ((pool.lt_batches _ _).mp hlt) }
    · cases hw
      exact { h with workers := workers_update h.workers trivial }
  | waiting index =>
    rw [hstate] at hw hworker
    dsimp only at hw
    split at hw
    · cases hw
      exact h.move hworker
    · cases hw
  | fresh index pos =>
    rw [hstate] at hw hworker
    dsimp only at hw
    split at hw
    · rename_i item htest
      cases hw
      refine h.move ⟨hworker, ?_⟩
      have hplain : scan.plain pos = item := by
        unfold Scan.plain
        rw [htest]
      exact hplain ▸ .plain
    · rename_i row d htest
      cases hw
      obtain ⟨hown, hnote⟩ := Scan.owns_eq h.owners pos (scan.id_mem hworker)
        (Scan.test_maybe htest).2
      exact h.move ⟨hworker, htest, hown, hnote⟩
  | judged index pos row d own _ =>
    rw [hstate] at hw hworker
    cases hw
    obtain ⟨hpos, htest, hown, hnote⟩ := hworker
    exact { h with
      owners := h.owners.note hnote
      workers := workers_update h.workers ⟨hpos, htest, hown⟩ }
  | noted index pos row d own =>
    rw [hstate] at hw hworker
    obtain ⟨hpos, htest, hown⟩ := hworker
    dsimp only at hw
    split at hw
    · rename_i htrue
      cases hw
      have howner : scan.owner pos (scan.id pos) d = true := hown ▸ htrue
      have hplain : scan.plain pos = .row row (some d) (scan.read_owned row d) := by
        unfold Scan.plain
        rw [htest]
        dsimp only
        rw [howner]
        rfl
      exact { h with
        found := Scan.share_sound h.found hpos htest howner
        workers := workers_update h.workers ⟨hpos, hplain ▸ .plain⟩ }
    · rename_i hfalse
      cases hw
      have howner : scan.owner pos (scan.id pos) d = false := by
        rw [← hown]
        exact Bool.not_eq_true _ ▸ hfalse
      exact h.move ⟨hpos, Scan.revisit_left h.found htest howner⟩
  | held index pos item =>
    rw [hstate] at hw hworker
    obtain ⟨hpos, hleft⟩ := hworker
    have hposted : ∀ p i, Function.update s.posted pos (some item) p = some i → scan.Left p i := by
      intro p i hp
      by_cases hpp : p = pos
      · subst hpp
        rw [update_self] at hp
        cases hp
        exact hleft
      · rw [update_of_ne hpp] at hp
        exact h.posted p i hp
    dsimp only at hw
    split at hw
    · rename_i hlt
      cases hw
      have hnext : pos + 1 < scan.ids.length := lt_of_lt_of_le hlt (min_le_right _ _)
      exact { h with posted := hposted, workers := workers_update h.workers hnext }
    · cases hw
      exact { h with posted := hposted, workers := workers_update h.workers trivial }
  | done =>
    rw [hstate] at hw
    cases hw

theorem State.Sound.act (h : s.Sound scan pool emit callback) {a : Act n}
    (ha : s.act scan pool emit a = some s') : s'.Sound scan pool emit callback := by
  unfold State.act at ha
  cases hres : s.result with
  | some r =>
    rw [hres] at ha
    cases ha
  | none =>
    rw [hres] at ha
    cases a with
    | worker w => exact h.work ha
    | take =>
      dsimp only at ha
      split at ha
      · rename_i hlt
        cases ha
        exact { h with
          taken := hlt.1
          consumed := Nat.le_succ_of_le h.consumed
          ledger := fun _ => h.ledger hres
          result := nofun }
      · cases ha
    | consume =>
      dsimp only at ha
      split at ha
      · rename_i hlt
        split at ha
        · cases ha
        · rename_i item hposted
          have hpos : s.consumed < scan.ids.length := lt_of_lt_of_le hlt h.taken
          have hledger := h.ledger hres
          have hsame := (h.posted _ _ hposted).consume_eq emit hpos (ledgerAt_cached hledger)
          have hstep := ledgerAt_succ hledger
          rw [← hsame] at hstep
          split at ha
          · rename_i e he
            rw [he] at hstep
            cases ha
            exact { h with
              ledger := nofun
              result := by
                rintro r ⟨⟩
                exact (reportOf_error hstep hpos).symm }
          · rename_i l he
            rw [he] at hstep
            cases ha
            exact { h with
              ledger := nofun
              result := by
                rintro r ⟨⟩
                exact (reportOf_error hstep hpos).symm }
          · rename_i l he
            rw [he] at hstep
            cases ha
            exact { h with
              consumed := hlt
              ledger := fun _ => hstep
              result := nofun }
      · cases ha
    | finish =>
      dsimp only at ha
      split at ha
      · rename_i hall
        cases ha
        refine { h with ledger := fun hnone => (by cases hnone), result := ?_ }
        rintro r ⟨⟩
        unfold reportOf
        have hledger := h.ledger hres
        rw [hall] at hledger
        rw [hledger]
      · cases ha

end

variable {s : State ε σ n} {w : Fin n}

theorem Reached.sound (h : Reached scan pool emit callback s) :
    s.Sound scan pool emit callback := by
  induction h with
  | start =>
    exact {
      owners := fun _ _ h => by cases h
      found := fun _ _ h => by cases h
      workers := fun _ => trivial
      posted := fun _ _ h => by cases h
      taken := Nat.zero_le _
      consumed := le_rfl
      ledger := fun _ => rfl
      result := fun _ h => by cases h }
  | act a _ ha ih => exact ih.act ha

/-! ## The run goes on -/

/-- The batch a worker is at, and the position it has reached there. -/
def Worker.place (pool : Pool) : Worker ε → Option (ℕ × ℕ)
  | .idle => none
  | .waiting index => some (index, index * pool.batch)
  | .fresh index pos => some (index, pos)
  | .judged index pos _ _ _ _ => some (index, pos)
  | .noted index pos _ _ _ => some (index, pos)
  | .held index pos _ => some (index, pos)
  | .done => none

/-- **The second invariant of a run**: every position of a claimed batch has
been posted, or a worker at that batch has still to reach it. -/
structure State.Covered (scan : Scan ε) (pool : Pool) (s : State ε σ n) : Prop where
  claimed : ∀ index < s.next, ∀ pos, index * pool.batch ≤ pos →
    pos < pool.stop scan.ids.length index →
    (s.posted pos).isSome ∨ ∃ w p, (s.workers w).place pool = some (index, p) ∧ p ≤ pos
  place : ∀ w index p, (s.workers w).place pool = some (index, p) →
    index < s.next ∧ p < pool.stop scan.ids.length index
  done : ∀ w, s.workers w = .done → pool.batches scan.ids.length ≤ s.next
  head : s.taken < scan.ids.length →
    s.head * pool.batch ≤ s.taken ∧ s.taken < pool.stop scan.ids.length s.head
  taken : ∀ pos < s.taken, (s.posted pos).isSome

section

variable {s : State ε σ n} {w : Fin n}

/-- A worker that moves within its position. -/
theorem State.Covered.move (h : s.Covered scan pool) {worker : Worker ε} {here : ℕ × ℕ}
    (hw : (s.workers w).place pool = some here) (hworker : worker.place pool = some here) :
    (s.move w worker).Covered scan pool := by
  have hworkers : ∀ v, (Function.update s.workers w worker v).place pool
      = (s.workers v).place pool := by
    intro v
    by_cases hv : v = w
    · rw [hv, update_self, hw, hworker]
    · rw [update_of_ne hv]
  exact {
    claimed := by
      intro index hindex pos hle hlt
      rcases h.claimed index hindex pos hle hlt with hposted | ⟨v, p, hv, hp⟩
      · exact .inl hposted
      · exact .inr ⟨v, p, (hworkers v).trans hv, hp⟩
    place := fun v index p hv => h.place v index p ((hworkers v).symm.trans hv)
    done := by
      intro v hv
      by_cases hvw : v = w
      · subst hvw
        have hv : Function.update s.workers v worker v = .done := hv
        rw [update_self] at hv
        rw [hv] at hworker
        cases hworker
      · have hv : Function.update s.workers w worker v = .done := hv
        rw [update_of_ne hvw] at hv
        exact h.done v hv
    head := h.head
    taken := h.taken }

/-- A worker that posts its position, and goes on or is done with its batch. -/
theorem State.Covered.post (h : s.Covered scan pool) {index pos : ℕ} {item : Item ε}
    (hw : s.workers w = .held index pos item) {worker : Worker ε}
    (hworker : (worker = .fresh index (pos + 1) ∧ pos + 1 < pool.stop scan.ids.length index)
      ∨ (worker = .idle ∧ ¬ pos + 1 < pool.stop scan.ids.length index)) :
    (State.move { s with posted := Function.update s.posted pos (some item) } w worker).Covered
      scan pool := by
  have hposted : ∀ p, (s.posted p).isSome → (Function.update s.posted pos (some item) p).isSome := by
    intro p hp
    by_cases hpp : p = pos
    · rw [hpp, update_self]
      rfl
    · rwa [update_of_ne hpp]
  have hplace : (s.workers w).place pool = some (index, pos) := by rw [hw]; rfl
  exact {
    claimed := by
      intro index' hindex pos' hle hlt
      by_cases hpos : pos' = pos
      · refine .inl ?_
        show (Function.update s.posted pos (some item) pos').isSome = true
        rw [hpos, update_self]
        rfl
      rcases h.claimed index' hindex pos' hle hlt with hp | ⟨v, p, hv, hp⟩
      · exact .inl (hposted pos' hp)
      by_cases hvw : v = w
      · -- the witness is this worker, and the position is after the one it posts
        subst hvw
        rw [hplace] at hv
        cases hv
        rcases hworker with ⟨rfl, -⟩ | ⟨-, _⟩
        · refine .inr ⟨v, pos + 1, ?_, by omega⟩
          show (Function.update s.workers v _ v).place pool = _
          rw [update_self]
          rfl
        · omega
      · refine .inr ⟨v, p, ?_, hp⟩
        show (Function.update s.workers w worker v).place pool = _
        rw [update_of_ne hvw]
        exact hv
    place := by
      intro v index' p hv
      have hv : (Function.update s.workers w worker v).place pool = some (index', p) := hv
      by_cases hvw : v = w
      · subst hvw
        rw [update_self] at hv
        rcases hworker with ⟨rfl, hlt⟩ | ⟨rfl, -⟩
        · cases hv
          exact ⟨(h.place v index pos hplace).1, hlt⟩
        · cases hv
      · rw [update_of_ne hvw] at hv
        exact h.place v index' p hv
    done := by
      intro v hv
      have hv : Function.update s.workers w worker v = .done := hv
      by_cases hvw : v = w
      · subst hvw
        rw [update_self] at hv
        rcases hworker with ⟨rfl, -⟩ | ⟨rfl, -⟩ <;> cases hv
      · rw [update_of_ne hvw] at hv
        exact h.done v hv
    head := h.head
    taken := fun p hp => hposted p (h.taken p hp) }

/-- A worker that claims the next batch, or finds none left. -/
theorem State.Covered.claim (h : s.Covered scan pool) (hw : s.workers w = .idle)
    {worker : Worker ε}
    (hworker : (worker = .waiting s.next ∧ s.next < pool.batches scan.ids.length)
      ∨ (worker = .done ∧ ¬ s.next < pool.batches scan.ids.length)) :
    (State.move { s with next := s.next + 1 } w worker).Covered scan pool := by
  have hnone : (s.workers w).place pool = none := by rw [hw]; rfl
  have hbatch := pool.batch_pos
  exact {
    claimed := by
      intro index hindex pos hle hlt
      rcases Nat.lt_succ_iff_lt_or_eq.mp hindex with hindex | rfl
      · rcases h.claimed index hindex pos hle hlt with hp | ⟨v, p, hv, hp⟩
        · exact .inl hp
        · have hvw : v ≠ w := by
            rintro rfl
            rw [hnone] at hv
            cases hv
          refine .inr ⟨v, p, ?_, hp⟩
          show (Function.update s.workers w worker v).place pool = _
          rw [update_of_ne hvw]
          exact hv
      · rcases hworker with ⟨rfl, -⟩ | ⟨-, hend⟩
        · refine .inr ⟨w, s.next * pool.batch, ?_, hle⟩
          show (Function.update s.workers w _ w).place pool = _
          rw [update_self]
          rfl
        · rw [pool.lt_batches] at hend
          have := lt_of_lt_of_le hlt (min_le_right _ _)
          omega
    place := by
      intro v index p hv
      have hv : (Function.update s.workers w worker v).place pool = some (index, p) := hv
      by_cases hvw : v = w
      · subst hvw
        rw [update_self] at hv
        rcases hworker with ⟨rfl, hlt⟩ | ⟨rfl, -⟩
        · cases hv
          exact ⟨Nat.lt_succ_self _, Pool.lt_stop ((pool.lt_batches _ _).mp hlt)⟩
        · cases hv
      · rw [update_of_ne hvw] at hv
        exact ⟨Nat.lt_succ_of_lt (h.place v index p hv).1, (h.place v index p hv).2⟩
    done := by
      intro v hv
      have hv : Function.update s.workers w worker v = .done := hv
      show pool.batches scan.ids.length ≤ s.next + 1
      by_cases hvw : v = w
      · subst hvw
        rw [update_self] at hv
        rcases hworker with ⟨rfl, -⟩ | ⟨-, hend⟩
        · cases hv
        · exact Nat.le_succ_of_le (Nat.le_of_not_lt hend)
      · rw [update_of_ne hvw] at hv
        exact Nat.le_succ_of_le (h.done v hv)
    head := h.head
    taken := h.taken }

theorem State.Covered.work (h : s.Covered scan pool) (hw : s.work scan pool w = some s') :
    s'.Covered scan pool := by
  unfold State.work at hw
  cases hstate : s.workers w with
  | idle =>
    rw [hstate] at hw
    dsimp only at hw
    split at hw
    · rename_i hlt
      cases hw
      exact h.claim hstate (.inl ⟨rfl, hlt⟩)
    · rename_i hge
      cases hw
      exact h.claim hstate (.inr ⟨rfl, hge⟩)
  | waiting index =>
    have hplace : (s.workers w).place pool = some (index, index * pool.batch) := by rw [hstate]; rfl
    rw [hstate] at hw
    dsimp only at hw
    split at hw
    · cases hw
      exact h.move hplace rfl
    · cases hw
  | fresh index pos =>
    have hplace : (s.workers w).place pool = some (index, pos) := by rw [hstate]; rfl
    rw [hstate] at hw
    dsimp only at hw
    split at hw
    all_goals
      cases hw
      exact h.move hplace rfl
  | judged index pos row d own first =>
    have hplace : (s.workers w).place pool = some (index, pos) := by rw [hstate]; rfl
    rw [hstate] at hw
    cases hw
    have h' : State.Covered scan pool { s with owners := note s.owners d first } :=
      ⟨h.claimed, h.place, h.done, h.head, h.taken⟩
    exact h'.move hplace rfl
  | noted index pos row d own =>
    have hplace : (s.workers w).place pool = some (index, pos) := by rw [hstate]; rfl
    rw [hstate] at hw
    dsimp only at hw
    split at hw
    · cases hw
      have h' : State.Covered scan pool { s with found := scan.share row d s.found } :=
        ⟨h.claimed, h.place, h.done, h.head, h.taken⟩
      exact h'.move hplace rfl
    · cases hw
      exact h.move hplace rfl
  | held index pos _ =>
    rw [hstate] at hw
    dsimp only at hw
    split at hw
    · rename_i hlt
      cases hw
      exact h.post hstate (.inl ⟨rfl, hlt⟩)
    · rename_i hge
      cases hw
      exact h.post hstate (.inr ⟨rfl, hge⟩)
  | done =>
    rw [hstate] at hw
    cases hw

/-- The batch being taken, after one more position. -/
theorem head_take {pool : Pool} {positions head taken : ℕ} (hle : head * pool.batch ≤ taken)
    (hlt : taken < pool.stop positions head) (hmore : taken + 1 < positions) :
    (if taken + 1 = pool.stop positions head then head + 1 else head) * pool.batch ≤ taken + 1
      ∧ taken + 1 < pool.stop positions
          (if taken + 1 = pool.stop positions head then head + 1 else head) := by
  have hb := pool.batch_pos
  unfold Pool.stop at hlt ⊢
  rw [add_mul, one_mul] at hlt ⊢
  split
  all_goals
    simp only [add_mul, one_mul]
    omega

theorem State.Covered.act (h : s.Covered scan pool) {a : Act n}
    (ha : s.act scan pool emit a = some s') : s'.Covered scan pool := by
  unfold State.act at ha
  cases hres : s.result with
  | some r =>
    rw [hres] at ha
    cases ha
  | none =>
    rw [hres] at ha
    cases a with
    | worker w => exact h.work ha
    | take =>
      dsimp only at ha
      split at ha
      · rename_i hready
        cases ha
        refine { h with head := fun hmore => ?_, taken := fun pos hpos => ?_ }
        · obtain ⟨hle, hlt⟩ := h.head hready.1
          exact head_take hle hlt hmore
        · rcases Nat.lt_succ_iff_lt_or_eq.mp hpos with hpos | rfl
          · exact h.taken pos hpos
          · exact hready.2
      · cases ha
    | consume =>
      dsimp only at ha
      split at ha
      · split at ha
        · cases ha
        · split at ha
          all_goals
            cases ha
            exact { h with }
      · cases ha
    | finish =>
      dsimp only at ha
      split at ha
      · cases ha
        exact { h with }
      · cases ha

end

theorem Reached.covered (h : Reached scan pool emit callback s) : s.Covered scan pool := by
  induction h with
  | start =>
    exact {
      claimed := fun _ h => absurd h (not_lt_zero)
      place := nofun
      done := nofun
      head := by
        intro hpos
        have hzero : 0 * pool.batch < scan.ids.length := by
          rw [zero_mul]
          exact hpos
        have hstop := Pool.lt_stop hzero
        rw [zero_mul] at hstop
        exact ⟨le_of_eq (zero_mul _), hstop⟩
      taken := fun _ h => absurd h (not_lt_zero) }
  | act a _ ha ih => exact ih.act ha

/-- A worker that is not waiting for room, and has not run out of batches, can
step. -/
theorem State.work_isSome (hdone : s.workers w ≠ .done)
    (hroom : ∀ index, s.workers w = .waiting index → index < s.head + pool.slots) :
    (s.work scan pool w).isSome := by
  unfold State.work
  cases hstate : s.workers w with
  | idle =>
    dsimp only
    split <;> rfl
  | waiting index =>
    dsimp only
    rw [if_pos (hroom index hstate)]
    rfl
  | fresh index pos =>
    dsimp only
    split <;> rfl
  | judged => rfl
  | noted index pos _ d _ =>
    dsimp only
    split <;> rfl
  | held index pos _ =>
    dsimp only
    split <;> rfl
  | done => exact absurd hstate hdone

/-- **No state before the result is stuck.** -/
theorem State.Covered.progress (hn : 0 < n) (h : s.Covered scan pool)
    (hs : s.Sound scan pool emit callback) (hres : s.result = none) :
    ∃ a, (s.act scan pool emit a).isSome := by
  have hslots := pool.slots_pos
  rcases lt_or_ge s.consumed s.taken with hlt | hge
  · refine ⟨.consume, ?_⟩
    obtain ⟨_, hitem⟩ := Option.isSome_iff_exists.mp (h.taken _ hlt)
    unfold State.act
    rw [hres]
    rw [if_pos hlt, hitem]
    dsimp only
    split <;> rfl
  have heq : s.consumed = s.taken := le_antisymm hs.consumed hge
  rcases Nat.eq_or_lt_of_le hs.taken with hall | hmore
  · refine ⟨.finish, ?_⟩
    unfold State.act
    rw [hres]
    dsimp only
    rw [if_pos (heq.trans hall)]
    rfl
  by_cases hposted : (s.posted s.taken).isSome = true
  · refine ⟨.take, ?_⟩
    unfold State.act
    rw [hres]
    dsimp only
    rw [if_pos ⟨hmore, hposted⟩]
    rfl
  -- the calling thread waits for a position of batch `head`
  have hworker : ∃ w, (s.work scan pool w).isSome := by
    obtain ⟨hle, hlt⟩ := h.head hmore
    rcases lt_or_ge s.head s.next with hclaimed | hunclaimed
    · rcases h.claimed s.head hclaimed s.taken hle hlt with hp | ⟨w, p, hplace, -⟩
      · exact absurd hp hposted
      · refine ⟨w, State.work_isSome ?_ ?_⟩
        · intro hdone
          rw [hdone] at hplace
          cases hplace
        · intro index hwait
          rw [hwait] at hplace
          obtain ⟨rfl, -⟩ := Prod.mk.inj (Option.some.inj hplace)
          omega
    · refine ⟨⟨0, hn⟩, State.work_isSome ?_ ?_⟩
      · intro hdone
        have hbatches := h.done _ hdone
        have hnext : s.next * pool.batch < scan.ids.length := by
          have := Nat.mul_le_mul_right pool.batch hunclaimed
          omega
        exact absurd ((pool.lt_batches _ _).mpr hnext) (Nat.not_lt.mpr hbatches)
      · intro index hwait
        have := (h.place ⟨0, hn⟩ index (index * pool.batch) (by rw [hwait]; rfl)).1
        omega
  obtain ⟨w, hw⟩ := hworker
  refine ⟨.worker w, ?_⟩
  unfold State.act
  rw [hres]
  exact hw

/-! ## The run ends -/

/-- What is left for a worker to do with its batch. -/
def Worker.rank (pool : Pool) (positions : ℕ) : Worker ε → ℕ
  | .idle => 1
  | .waiting index => 2 + 5 * (pool.stop positions index - index * pool.batch)
  | .fresh index pos => 1 + 5 * (pool.stop positions index - pos)
  | .judged index pos _ _ _ _ => 5 * (pool.stop positions index - pos)
  | .noted index pos _ _ _ => 5 * (pool.stop positions index - pos) - 1
  | .held index pos _ => 5 * (pool.stop positions index - pos) - 2
  | .done => 0

/-- What is left to claim, to take and to consume. -/
def State.open (scan : Scan ε) (pool : Pool) (s : State ε σ n) : ℕ :=
  (if s.result.isNone then 1 else 0) + (scan.ids.length - s.consumed)
    + (scan.ids.length - s.taken) + 5 * (scan.ids.length - s.next * pool.batch)
    + 2 * (pool.batches scan.ids.length - s.next)

/-- What is left of the whole run. -/
def State.weight (scan : Scan ε) (pool : Pool) (s : State ε σ n) : ℕ :=
  s.open scan pool + ∑ w, (s.workers w).rank pool scan.ids.length

/-- One worker's move, in the sum of all. -/
theorem weight_step {s₁ : State ε σ n} {worker : Worker ε} (hworkers : s₁.workers = s.workers)
    (hlt : s₁.open scan pool + worker.rank pool scan.ids.length
      < s.open scan pool + (s.workers w).rank pool scan.ids.length) :
    (s₁.move w worker).weight scan pool < s.weight scan pool := by
  have hrest : ∑ v ∈ Finset.univ.erase w,
        (Function.update s.workers w worker v).rank pool scan.ids.length
      = ∑ v ∈ Finset.univ.erase w, (s.workers v).rank pool scan.ids.length :=
    Finset.sum_congr rfl fun v hv => by rw [update_of_ne (Finset.ne_of_mem_erase hv)]
  show s₁.open scan pool + ∑ v, (Function.update s₁.workers w worker v).rank pool scan.ids.length
    < s.open scan pool + ∑ v, (s.workers v).rank pool scan.ids.length
  rw [hworkers, ← Finset.add_sum_erase _ (fun v => (Function.update s.workers w worker v).rank pool _)
      (Finset.mem_univ w), ← Finset.add_sum_erase _ (fun v => (s.workers v).rank pool _)
      (Finset.mem_univ w), hrest, update_self]
  omega

/-- Claiming a batch leaves as much less to claim as it adds to the worker's. -/
theorem open_claim (hlt : s.next < pool.batches scan.ids.length) :
    State.open scan pool { s with next := s.next + 1 }
        + (Worker.waiting s.next : Worker ε).rank pool scan.ids.length
      = s.open scan pool := by
  have hnext := (pool.lt_batches _ _).mp hlt
  unfold State.open Worker.rank Pool.stop
  simp only [add_mul, one_mul]
  omega

theorem open_claim_none :
    State.open scan pool { s with next := s.next + 1 } ≤ s.open scan pool := by
  unfold State.open
  simp only [add_mul, one_mul]
  omega

/-- A worker's step lowers what is left. -/
theorem State.Covered.work_weight (h : s.Covered scan pool) (hw : s.work scan pool w = some s') :
    s'.weight scan pool < s.weight scan pool := by
  have hreach : ∀ index pos, (s.workers w).place pool = some (index, pos) →
      0 < pool.stop scan.ids.length index - pos := fun index pos hplace =>
    Nat.sub_pos_of_lt (h.place w index pos hplace).2
  unfold State.work at hw
  cases hstate : s.workers w with
  | idle =>
    rw [hstate] at hw
    dsimp only at hw
    split at hw
    · rename_i hlt
      cases hw
      refine weight_step rfl ?_
      rw [open_claim hlt, hstate]
      exact Nat.lt_succ_self _
    · cases hw
      refine weight_step rfl ?_
      rw [hstate]
      exact Nat.lt_succ_of_le open_claim_none
  | waiting index =>
    rw [hstate] at hw
    dsimp only at hw
    split at hw
    · cases hw
      refine weight_step rfl ?_
      rw [hstate]
      exact Nat.add_lt_add_left (Nat.add_lt_add_right (by decide) _) _
    · cases hw
  | fresh index pos =>
    have hpos := hreach index pos (by rw [hstate]; rfl)
    rw [hstate] at hw
    dsimp only at hw
    split at hw
    all_goals
      cases hw
      refine weight_step rfl ?_
      rw [hstate]
      simp only [Worker.rank]
      omega
  | judged index pos row d own _ =>
    have hpos := hreach index pos (by rw [hstate]; rfl)
    rw [hstate] at hw
    cases hw
    refine weight_step rfl ?_
    rw [hstate]
    show s.open scan pool + _ < _
    simp only [Worker.rank]
    omega
  | noted index pos row d own =>
    have hpos := hreach index pos (by rw [hstate]; rfl)
    rw [hstate] at hw
    dsimp only at hw
    split at hw
    · cases hw
      refine weight_step rfl ?_
      rw [hstate]
      show s.open scan pool + _ < _
      simp only [Worker.rank]
      omega
    · cases hw
      refine weight_step rfl ?_
      rw [hstate]
      simp only [Worker.rank]
      omega
  | held index pos _ =>
    have hpos := hreach index pos (by rw [hstate]; rfl)
    rw [hstate] at hw
    dsimp only at hw
    split at hw
    · rename_i hlt
      cases hw
      refine weight_step rfl ?_
      rw [hstate]
      show s.open scan pool + _ < _
      simp only [Worker.rank]
      omega
    · cases hw
      refine weight_step rfl ?_
      rw [hstate]
      show s.open scan pool + _ < _
      simp only [Worker.rank]
      omega
  | done =>
    rw [hstate] at hw
    cases hw

/-- **Every step lowers what is left of the run.** -/
theorem State.Covered.act_weight (h : s.Covered scan pool) (hs : s.Sound scan pool emit callback)
    {a : Act n} (ha : s.act scan pool emit a = some s') :
    s'.weight scan pool < s.weight scan pool := by
  have htaken := hs.taken
  have hweight : ∀ s : State ε σ n, s.weight scan pool
      = s.open scan pool + ∑ w, (s.workers w).rank pool scan.ids.length := fun _ => rfl
  unfold State.act at ha
  cases hres : s.result with
  | some r =>
    rw [hres] at ha
    cases ha
  | none =>
    rw [hres] at ha
    cases a with
    | worker w => exact h.work_weight ha
    | take =>
      dsimp only at ha
      split at ha
      · rename_i hready
        cases ha
        have := hready.1
        rw [hweight, hweight]
        unfold State.open
        rw [hres]
        dsimp only
        omega
      · cases ha
    | consume =>
      dsimp only at ha
      split at ha
      · rename_i hlt
        split at ha
        · cases ha
        · split at ha
          · cases ha
            rw [hweight, hweight]
            unfold State.open
            rw [hres]
            simp
          · cases ha
            rw [hweight, hweight]
            unfold State.open
            rw [hres]
            simp
          · cases ha
            rw [hweight, hweight]
            unfold State.open
            rw [hres]
            dsimp only
            omega
      · cases ha
    | finish =>
      dsimp only at ha
      split at ha
      · cases ha
        rw [hweight, hweight]
        unfold State.open
        rw [hres]
        simp
      · cases ha

/-- **The threads do not show**: whatever the sizes of the pool, the number of
its workers and the order they act in, a run that has a result has the report
of the sequential order, its counts and what the callback was given included;
a run that has none can go on, and does so only finitely often. -/
theorem pooled_eq_alone (hn : 0 < n) (scan : Scan ε) (pool : Pool) (emit : σ → Row → Flow × σ)
    (callback : σ) {s : State ε σ n} (hs : Reached scan pool emit callback s) :
    (∀ r, s.result = some r → r = alone scan emit callback)
      ∧ (s.result = none → ∃ a, (s.act scan pool emit a).isSome)
      ∧ ∀ a s', s.act scan pool emit a = some s' → s'.weight scan pool < s.weight scan pool := by
  refine ⟨fun r hr => ?_, fun hnone => ?_, fun a s' ha => ?_⟩
  · rw [alone_eq]
    exact hs.sound.result r hr
  · exact hs.covered.progress hn hs.sound hnone
  · exact hs.covered.act_weight hs.sound ha

/-- The state after a list of acts. -/
def State.run (scan : Scan ε) (pool : Pool) (emit : σ → Row → Flow × σ) :
    List (Act n) → State ε σ n → Option (State ε σ n)
  | [], s => some s
  | a :: acts, s => (s.act scan pool emit a).bind (State.run scan pool emit acts)

theorem Reached.run {acts : List (Act n)} :
    ∀ {s s' : State ε σ n}, Reached scan pool emit callback s →
      s.run scan pool emit acts = some s' → Reached scan pool emit callback s' := by
  induction acts with
  | nil =>
    intro s s' hs hrun
    cases hrun
    exact hs
  | cons a acts ih =>
    intro s s' hs hrun
    obtain ⟨_, ha, hrest⟩ := Option.bind_eq_some_iff.mp hrun
    exact ih (.act a hs ha) hrest

/-- Two names of one document that holds the pattern at offset 3. -/
def hardLinks : Scan Unit where
  query := ⟨[.grep], fun _ answer => answer 0⟩
  host := {
    test := fun id =>
      .ok (if id = 1 ∨ id = 2 then some ⟨[], id, 7, .file, none⟩ else none)
    stat := fun _ => some .catalogued
    verify := fun _ => .read .catalogued [some 3] MatchStats.default }
  ids := [1, 2]
  docs := [0]
  table := [some .maybe]
  width := 1
  doc_of := fun id => if id = 1 ∨ id = 2 then some 0 else none
  doc := fun inode => if inode = 7 then some 0 else none
  names := fun d => if d = 0 then [1, 2] else []
  names_sorted := by
    intro d
    split
    · decide
    · exact .nil
  mem_names := by
    intro id d hid
    obtain rfl | rfl : id = 1 ∨ id = 2 := by simpa using hid
    all_goals by_cases hd : d = 0 <;> simp [hd, eq_comm]
  test_row := by
    intro id row h
    by_cases hid : id = 1 ∨ id = 2
    · simp only [if_pos hid] at h
      cases h
      simp [hid]
    · simp only [if_neg hid] at h
      cases h

def collect (rows : List Row) (row : Row) : Flow × List Row := (.go, rows ++ [row])

/-- The second worker posts the later name first; both names are emitted, in
order. -/
theorem later_name_posted_first : ∃ s : State Unit (List Row) 2,
    Reached hardLinks (Pool.schedule 2 2 (by decide)) collect [] s
      ∧ s.result = some (alone hardLinks collect [])
      ∧ s.ledger.callback = [⟨[], 1, 7, .file, some 3⟩, ⟨[], 2, 7, .file, some 3⟩]
      ∧ s.ledger.verified = 1 := by
  let acts : List (Act 2) :=
    [.worker 0, .worker 1, .worker 1, .worker 1, .worker 1, .worker 1, .worker 1,
      .worker 0, .worker 0, .worker 0, .worker 0, .worker 0,
      .take, .take, .consume, .consume, .finish]
  have hend : ((State.start []).run hardLinks (Pool.schedule 2 2 (by decide)) collect acts).map
      (fun s => (s.result.isSome, s.ledger.callback, s.ledger.verified))
      = some (true, [⟨[], 1, 7, .file, some 3⟩, ⟨[], 2, 7, .file, some 3⟩], 1) := by
    decide +kernel
  obtain ⟨s, hrun, hcounts⟩ := Option.map_eq_some_iff.mp hend
  simp only [Prod.mk.injEq] at hcounts
  obtain ⟨hsome, hrows, hverified⟩ := hcounts
  have hs := Reached.start.run hrun
  obtain ⟨r, hr⟩ := Option.isSome_iff_exists.mp hsome
  refine ⟨s, hs, ?_, hrows, hverified⟩
  rw [hr, (pooled_eq_alone (by decide) _ _ _ _ hs).1 r hr]

end Ferret.Verify
