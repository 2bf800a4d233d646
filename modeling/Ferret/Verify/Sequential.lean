import Ferret.Verify.Owner

/-!
# The output does not depend on the threads

What a worker leaves of a position is what the calling thread would have made
of it, or else, for a later name of a document whose owner found the
catalogued version, the answer that the calling thread's cache would give. By
the time that position is consumed the owner has been, so the cache holds the
same answers, and the ledger moves the same way. By induction over the
positions consumed, the ledger is at every point the sequential one.
-/

namespace Ferret.Verify

variable {ε σ : Type} {scan : Scan ε} {emit : σ → Row → Flow × σ} {callback : σ}

/-! ## The sequential order, position by position -/

/-- What the sequential order makes of a position. -/
def Scan.plain (scan : Scan ε) (pos : ℕ) : Item ε :=
  match scan.test (scan.id pos) with
  | .item item => item
  | .maybe row d =>
    .row row (some d) (if scan.owner pos (scan.id pos) d then scan.read_owned row d else .here d)

variable {d : Doc} {pos k : ℕ} {l : Ledger σ}

theorem Scan.test_maybe {id : NameId} {row : Row} (h : scan.test id = .maybe row d) :
    row.name = id ∧ scan.doc_of id = some d := by
  unfold test at h
  split at h
  · cases h
  · cases h
  · rename_i row' hrow
    obtain ⟨hname, hdoc⟩ := scan.test_row hrow
    split at h
    · cases h
    · cases h
    · cases h
    · rename_i d' htruth hd
      cases h
      exact ⟨hname, hdoc.symm.trans hd⟩

theorem Scan.item_eq {owners : Owners} (hs : scan.OwnersSound owners) (h : pos < scan.ids.length) :
    (scan.item owners pos).1 = scan.plain pos ∧ scan.OwnersSound (scan.item owners pos).2 := by
  unfold item plain
  cases htest : scan.test (scan.id pos) with
  | item item => exact ⟨rfl, hs⟩
  | maybe _ d =>
    obtain ⟨-, hd⟩ := Scan.test_maybe htest
    obtain ⟨hown, hnote⟩ := Scan.owns_eq hs pos (scan.id_mem h) hd
    dsimp only
    rw [hown]
    exact ⟨rfl, hs.note hnote⟩

/-- The sequential order's ledger after so many positions, or the report it
has ended with. -/
def ledgerAt (scan : Scan ε) (emit : σ → Row → Flow × σ) (callback : σ) :
    ℕ → Except (Report ε σ) (Ledger σ)
  | 0 => .ok (Ledger.new callback)
  | k + 1 =>
    match ledgerAt scan emit callback k with
    | .error r => .error r
    | .ok l =>
      match l.consume scan emit (scan.plain k) with
      | .error e => .error (.failed e l.callback)
      | .ok (.stop, l) => .error (.finished (k + 1) l)
      | .ok (.go, l) => .ok l

theorem ledgerAt_succ (h : ledgerAt scan emit callback k = .ok l) :
    ledgerAt scan emit callback (k + 1)
      = match l.consume scan emit (scan.plain k) with
        | .error e => .error (.failed e l.callback)
        | .ok (.stop, l) => .error (.finished (k + 1) l)
        | .ok (.go, l) => .ok l := by
  rw [ledgerAt, h]

/-- The report of the sequential order, by its ledgers. -/
def reportOf (scan : Scan ε) (emit : σ → Row → Flow × σ) (callback : σ) : Report ε σ :=
  match ledgerAt scan emit callback scan.ids.length with
  | .error r => r
  | .ok l => .finished scan.ids.length l

theorem ledgerAt_error {m : ℕ} {r : Report ε σ} (h : ledgerAt scan emit callback k = .error r)
    (hk : k ≤ m) : ledgerAt scan emit callback m = .error r := by
  induction hk with
  | refl => exact h
  | step _ ih =>
    unfold ledgerAt
    rw [ih]

/-- A report the sequential order ends with is its report. -/
theorem reportOf_error {r : Report ε σ} (h : ledgerAt scan emit callback k = .error r)
    (hk : k ≤ scan.ids.length) : reportOf scan emit callback = r := by
  unfold reportOf
  rw [ledgerAt_error h hk]

theorem aloneFrom_eq (n : ℕ) : ∀ {pos : ℕ} {owners : Owners} {l : Ledger σ},
    pos + n = scan.ids.length → scan.OwnersSound owners →
    ledgerAt scan emit callback pos = .ok l →
    aloneFrom scan emit n pos owners l = reportOf scan emit callback := by
  induction n with
  | zero =>
    intro pos owners l hpos _ hl
    unfold aloneFrom reportOf
    rw [add_zero] at hpos
    rw [← hpos, hl]
  | succ n ih =>
    intro pos owners l hpos hs hl
    have hlt : pos < scan.ids.length := by omega
    obtain ⟨hitem, hsound⟩ := Scan.item_eq hs hlt
    have hstep := ledgerAt_succ hl
    unfold aloneFrom
    dsimp only
    rw [hitem]
    split
    · rename_i e he
      rw [he] at hstep
      exact (reportOf_error hstep hlt).symm
    · rename_i l' he
      rw [he] at hstep
      exact (reportOf_error hstep hlt).symm
    · rename_i l' he
      rw [he] at hstep
      exact ih (by omega) hsound hstep

theorem alone_eq : alone scan emit callback = reportOf scan emit callback := by
  refine aloneFrom_eq _ (zero_add _) ?_ rfl
  intro d first h
  cases h

/-! ## The cache of catalogued answers -/

/-- A cache that has gained at most answers for `d`, and lost none. -/
structure Adds (e e' : Doc → Option Answers) (d : Doc) : Prop where
  other : ∀ d' ≠ d, e' d' = e d'
  kept : ∀ answers, e d = some answers → e' d = some answers

theorem Adds.refl (e : Doc → Option Answers) (d : Doc) : Adds e e d := ⟨fun _ _ => rfl, fun _ => id⟩

theorem Adds.some {e e' : Doc → Option Answers} (h : Adds e e' d) {d' : Doc}
    {answers : Answers} (ha : e d' = some answers) : e' d' = some answers := by
  by_cases hd : d' = d
  · exact hd ▸ h.kept answers (hd ▸ ha)
  · exact (h.other d' hd).trans ha

theorem Ledger.consumed_exact (l : Ledger σ) (d : Option Doc) (maybe : Bool) :
    (l.consumed d maybe).exact = l.exact := by
  unfold consumed
  split <;> rfl

theorem Ledger.settle_adds (l : Ledger σ) (d : Doc) (outcome : Outcome) (keep : Bool) :
    Adds l.exact (l.settle d outcome keep).2.exact d := by
  unfold settle
  split
  · exact .refl _ d
  · exact .refl _ d
  · split
    · dsimp only
      split
      · rename_i h
        refine ⟨fun d' hd => Function.update_of_ne hd _ _, fun answers ha => ?_⟩
        rw [h.2] at ha
        cases ha
      · exact .refl _ d
    · exact .refl _ d

/-- A first read of the catalogued version is cached, if it is to be kept. -/
theorem Ledger.settle_exact (h : l.exact d = none) (answers : Answers) (work : MatchStats) :
    (l.settle d (.read .catalogued answers work) true).1 = .cached
      ∧ (l.settle d (.read .catalogued answers work) true).2.exact d = some answers := by
  unfold settle
  dsimp only
  rw [if_pos ⟨rfl, h⟩]
  exact ⟨rfl, Function.update_self _ _ _⟩

theorem Ledger.here_adds (scan : Scan ε) (l : Ledger σ) (d : Doc) (name : NameId) :
    Adds l.exact (l.here scan d name).2.exact d := by
  unfold here
  split
  · split
    · exact .refl _ d
    · exact l.settle_adds d _ _
    · exact .refl _ d
  · exact l.settle_adds d _ _

theorem Ledger.settleHere_adds (l : Ledger σ) (od : Option Doc) (row : Row) (d : Doc) :
    Adds l.exact (l.settleHere scan od row d).2.exact d := by
  have hadds : Adds l.exact ((l.consumed od true).here scan d row.name).2.exact d := by
    have := Ledger.here_adds scan (l.consumed od true) d row.name
    rwa [l.consumed_exact] at this
  unfold settleHere
  generalize (l.consumed od true).here scan d row.name = r at hadds ⊢
  rcases r with ⟨_ | _ | _ | _, _⟩ <;> exact hadds

theorem Ledger.emitRow_exact (emit : σ → Row → Flow × σ) (l : Ledger σ) (row : Row) (holds : Option (Option ℕ)) :
    (l.emitRow emit row holds).2.exact = l.exact := by
  unfold emitRow
  split <;> rfl

/-- Consuming a row moves the cache as its verdict does. -/
theorem Ledger.consume_exact {l' : Ledger σ} {row : Row} {od : Option Doc} {how : How}
    {flow : Flow} (h : l.consume scan emit (.row row od how) = .ok (flow, l')) :
    l'.exact = (l.verdict scan how od row).2.exact := by
  unfold consume at h
  dsimp only at h
  rcases hv : l.verdict scan how od row with ⟨_ | _ | _ | _, l₁⟩ <;> rw [hv] at h <;> dsimp only at h
  · rename_i holds
    have := l₁.emitRow_exact emit row holds
    obtain heq := Except.ok.inj h
    rw [heq] at this
    exact this
  · rename_i d
    have := l₁.emitRow_exact emit row (Verify.holds scan.query row ((l₁.exact d).getD []))
    obtain heq := Except.ok.inj h
    rw [heq] at this
    exact this
  · cases h
    rfl
  · cases h
    rfl

/-- The cache a position of `d` leaves, whichever thread read it. -/
theorem Ledger.verdict_plain (scan : Scan ε) (l : Ledger σ) (od : Option Doc) (row : Row) (d : Doc) (own : Bool) :
    Adds l.exact
      (l.verdict scan (if own then scan.read_owned row d else .here d) od row).2.exact d := by
  cases own with
  | false => exact l.settleHere_adds od row d
  | true =>
    show Adds l.exact (l.verdict scan (scan.read_owned row d) od row).2.exact d
    unfold verdict Scan.read_owned
    dsimp only
    split
    · have hadds := (l.consumed od true).settle_adds d (scan.host.verify row.name)
        (scan.is_repeated d)
      rw [l.consumed_exact] at hadds
      generalize (l.consumed od true).settle d (scan.host.verify row.name) (scan.is_repeated d) = r
        at hadds ⊢
      rcases r with ⟨_ | _ | _ | _, _⟩ <;> exact hadds
    · exact l.settleHere_adds od row d

/-- **What the sequential cache holds after `k` positions**: answers of
documents met, and those of every owner met that found the catalogued version
of a document with more names. -/
structure Cached (scan : Scan ε) (k : ℕ) (e : Doc → Option Answers) : Prop where
  met : ∀ d answers, e d = some answers → ∃ p < k, scan.doc_of (scan.id p) = some d
  owned : ∀ d p, p < k → scan.IsFirst p d → scan.is_repeated d = true →
    ∀ row, scan.test (scan.id p) = .maybe row d →
    ∀ answers work, scan.host.verify row.name = .read .catalogued answers work →
      e d = some answers

theorem Cached.step {l' : Ledger σ} (h : Cached scan k l.exact) {flow : Flow}
    (hc : l.consume scan emit (scan.plain k) = .ok (flow, l')) : Cached scan (k + 1) l'.exact := by
  -- positions that settle no document leave the cache alone
  have hsame : l'.exact = l.exact → (∀ row d, scan.test (scan.id k) ≠ .maybe row d) →
      Cached scan (k + 1) l'.exact := by
    intro heq hno
    rw [heq]
    refine ⟨fun d answers ha => ?_, fun d p hp hf hr row htest answers work hv => ?_⟩
    · obtain ⟨p, hp, hd⟩ := h.met d answers ha
      exact ⟨p, Nat.lt_succ_of_lt hp, hd⟩
    · rcases Nat.lt_succ_iff_lt_or_eq.mp hp with hp | rfl
      · exact h.owned d p hp hf hr row htest answers work hv
      · exact absurd htest (hno row d)
  unfold Scan.plain at hc
  cases htest : scan.test (scan.id k) with
  | item item =>
    rw [htest] at hc
    dsimp only at hc
    refine hsame ?_ fun row d hd => by rw [htest] at hd; cases hd
    cases item with
    | skip =>
      cases hc
      rfl
    | failed e => cases hc
    | row row od how =>
      have hhow : how = .holds := by
        unfold Scan.test at htest
        split at htest
        · cases htest
        · cases htest
        · split at htest
          · cases htest
          · cases htest
          · cases htest
            rfl
          · cases htest
      rw [Ledger.consume_exact hc, hhow]
      exact l.consumed_exact od false
  | maybe row d =>
    rw [htest] at hc
    dsimp only at hc
    obtain ⟨_, hd⟩ := Scan.test_maybe htest
    have hexact := Ledger.consume_exact hc
    have hadds := Ledger.verdict_plain scan l (some d) row d (scan.owner k (scan.id k) d)
    rw [← hexact] at hadds
    refine ⟨fun d' answers ha => ?_, fun d' p hp hf hr row' htest' answers work hv => ?_⟩
    · by_cases hdd : d' = d
      · exact ⟨k, Nat.lt_succ_self k, hdd ▸ hd⟩
      · rw [hadds.other d' hdd] at ha
        obtain ⟨p, hp, hpd⟩ := h.met d' answers ha
        exact ⟨p, Nat.lt_succ_of_lt hp, hpd⟩
    · rcases Nat.lt_succ_iff_lt_or_eq.mp hp with hp | rfl
      · exact hadds.some (h.owned d' p hp hf hr row' htest' answers work hv)
      · rw [htest] at htest'
        cases htest'
        -- the first position of its document finds nothing cached
        have hnone : l.exact d = none := by
          cases he : l.exact d with
          | none => rfl
          | some answers =>
            obtain ⟨q, hq, hqd⟩ := h.met d answers he
            exact absurd hqd (hf.least q hq)
        have hnone' : (l.consumed (some d) true).exact d = none := by
          rw [l.consumed_exact]
          exact hnone
        rw [hexact, hf.owner, if_pos rfl]
        unfold Ledger.verdict Scan.read_owned
        dsimp only
        rw [hnone, hv, hr, if_pos Option.isNone_none]
        obtain ⟨hsettled, hcached⟩ := Ledger.settle_exact hnone' answers work
        rcases hs : (l.consumed (some d) true).settle d (.read .catalogued answers work) true with
          ⟨settled, _⟩
        rw [hs] at hsettled hcached
        obtain rfl : settled = .cached := hsettled
        exact hcached

theorem ledgerAt_cached (h : ledgerAt scan emit callback k = .ok l) : Cached scan k l.exact := by
  induction k generalizing l with
  | zero =>
    cases h
    exact ⟨fun _ _ h => (by cases h), fun _ _ h => absurd h (not_lt_zero)⟩
  | succ k ih =>
    unfold ledgerAt at h
    split at h
    · cases h
    · rename_i l₀ hl₀
      split at h
      · cases h
      · cases h
      · rename_i l₁ hc
        cases h
        exact (ih hl₀).step hc

/-! ## What a worker leaves -/

/-- Answers of the catalogued version, found by an owner of a document with
more names. -/
structure Scan.Shared (scan : Scan ε) (d : Doc) (answers : Answers) : Prop where
  repeated : scan.is_repeated d = true
  owner : ∃ p row work, p < scan.ids.length ∧ scan.test (scan.id p) = .maybe row d
    ∧ scan.owner p (scan.id p) d = true
    ∧ scan.host.verify row.name = .read .catalogued answers work

/-- **What a worker can leave of a position**: what the calling thread would
make of it, or a later name settled by its owner's answers. -/
inductive Scan.Left (scan : Scan ε) (pos : ℕ) : Item ε → Prop
  | plain : Left scan pos (scan.plain pos)
  | revisited {row : Row} {d : Doc} {answers : Answers} :
    scan.test (scan.id pos) = .maybe row d → scan.owner pos (scan.id pos) d = false →
    scan.Shared d answers →
    Left scan pos (.row row (some d) (scan.revisit row d (some (some answers))))

/-- A later name is consumed after its document's owner. -/
theorem Cached.shared {e : Doc → Option Answers} (h : Cached scan pos e)
    {answers : Answers} (hs : scan.Shared d answers) (hpos : pos < scan.ids.length)
    (hd : scan.doc_of (scan.id pos) = some d) (hown : scan.owner pos (scan.id pos) d = false) :
    e d = some answers := by
  obtain ⟨p, row, work, hp, htest, hpown, hverify⟩ := hs.owner
  obtain ⟨q, hq, hfirst⟩ := Scan.exists_first hpos hd
  have hid := Scan.owner_name hp (Scan.test_maybe htest).2 hpown hfirst
  have hlt : q < pos := by
    rcases Nat.eq_or_lt_of_le hq with rfl | hlt
    · have := hfirst.owner
      rw [hown] at this
      cases this
    · exact hlt
  exact h.owned d q hlt hfirst hs.repeated row (hid ▸ htest) answers work hverify

/-- **The ledger moves as in the sequential order**, whatever a worker left. -/
theorem Scan.Left.consume_eq {item : Item ε} (h : scan.Left pos item)
    (emit : σ → Row → Flow × σ) (hpos : pos < scan.ids.length) (hl : Cached scan pos l.exact) :
    l.consume scan emit item = l.consume scan emit (scan.plain pos) := by
  cases h with
  | plain => rfl
  | revisited htest hown hshared =>
    rename_i row d answers
    have hexact := hl.shared hshared hpos (Scan.test_maybe htest).2 hown
    have hexact' : (l.consumed (some d) true).exact d = some answers := by
      rw [l.consumed_exact]
      exact hexact
    have hplain : scan.plain pos = .row row (some d) (.here d) := by
      unfold Scan.plain
      rw [htest]
      dsimp only
      rw [hown]
      rfl
    rw [hplain]
    unfold Ledger.consume
    dsimp only
    -- the calling thread would find the cached answers, and then stat the file
    unfold Scan.revisit
    dsimp only
    cases hstat : scan.host.stat row.name with
    | none =>
      unfold Ledger.verdict Ledger.settleHere Ledger.here
      dsimp only
      rw [hexact, hexact', hstat]
      rfl
    | some version =>
      cases version with
      | catalogued =>
        unfold Ledger.verdict Ledger.settleHere Ledger.here
        dsimp only
        rw [hexact, hexact', hstat]
        show Except.ok ((l.consumed (some d) true).emitRow emit row (holds scan.query row answers))
          = Except.ok ((l.consumed (some d) true).emitRow emit row
              (holds scan.query row (((l.consumed (some d) true).exact d).getD [])))
        rw [hexact']
        rfl
      | current =>
        unfold Ledger.verdict Ledger.settleHere Ledger.here
        dsimp only
        rw [hexact, hexact', hstat]
        cases hv : scan.host.verify row.name with
        | unread => rfl
        | stopped work => rfl
        | read version _ work =>
          cases version with
          | catalogued => rfl
          | current => rfl

end Ferret.Verify
