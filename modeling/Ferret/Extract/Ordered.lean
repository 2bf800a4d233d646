import Ferret.Extract.InOrderRun

/-!
# Extraction keeps its order

However many readers there are, `consume` is given what a single reader would
give it, up to the first document at which a reader asks to stop; and some
thread can always step, as long as the window and the bound let a document
through.
-/

namespace Ferret.Extract

open List

section

variable {W : Type} [Fintype W] [DecidableEq W] {window bound : ℕ} {a : Analysis}
  {read : ℕ → Except Fault Bytes} {docs : List ℕ} {goes_on : List (ℕ × Result) → Bool}
  {t t' : State W}

/-! ## Sleepers -/

omit [Fintype W] [DecidableEq W] in
theorem Pc.signalled_ne_asleep (pc : Pc) : pc.signalled ≠ .asleep := by
  cases pc <;> nofun

omit [Fintype W] [DecidableEq W] in
/-- A signal leaves nobody asleep. -/
theorem State.asleep_wake (t : State W) : (t.wake true).Asleep window bound :=
  fun _ hw => absurd hw (Pc.signalled_ne_asleep _)

omit [Fintype W] in
theorem State.Asleep.act (h : t.Asleep window bound) {w : W} {s : Shared} {m : Memory} {pc : Pc}
    {wakes : Bool}
    (hact : Act window bound a read t.shared (t.memory w) (t.readers w) s m pc wakes) :
    ((t.put w s m pc).wake wakes).Asleep window bound := by
  cases wakes with
  | true => exact State.asleep_wake _
  | false =>
    intro v hv
    change Function.update t.readers w pc v = .asleep at hv
    show s.claims.full window bound = true ∧ (s.claims.stop = false
      ∨ (∃ v, Function.update t.readers w pc v = .notify) ∨ t.writer = .notify)
    rcases Tally.update_eq hv with ⟨rfl, hn⟩ | hv
    · obtain ⟨hf, hs⟩ := hact.sleeps hn
      exact ⟨hf, .inl hs⟩
    · obtain ⟨hf, hs⟩ := h v hv
      refine ⟨hact.full hf, ?_⟩
      rcases hact.stops with rfl | hsame
      · exact .inr (.inl ⟨w, Function.update_self ..⟩)
      · rw [hsame]
        refine hs.imp_right (Or.imp_left fun ⟨u, hu⟩ => ⟨u, ?_⟩)
        -- who is about to signal has not acted
        have huw : u ≠ w := by
          rintro rfl
          cases hact.notifies hu
        rw [Function.update_of_ne huw, hu]

theorem Step.sound [Nonempty W] (h : Step window bound a read goes_on t t') (hnd : docs.Nodup)
    (ht : t.Sound window bound a read docs goes_on) : t'.Sound window bound a read docs goes_on := by
  -- what is not the writer's signal keeps the sleepers
  have hasleep : ∀ {p : Writer}, t.writer ≠ .notify → ∀ w, t.readers w = .asleep →
      t.shared.claims.full window bound = true
        ∧ (t.shared.claims.stop = false ∨ (∃ v, t.readers v = .notify) ∨ p = .notify) :=
    fun hw w hs => (ht.asleep w hs).imp_right (Or.imp_right (Or.imp_right (absurd · hw)))
  cases h with
  | reader w hact => exact ⟨(ht.toInv.act hact hnd).wake _, ht.asleep.act hact⟩
  | found hw hf => exact ⟨ht.toInv.found hw hf, hasleep (hw.trans_ne nofun)⟩
  | missing hw hf => exact ⟨ht.toInv.missed hw hf, hasleep (hw.trans_ne nofun)⟩
  | recv hw hq => exact ⟨ht.toInv.recv hw hq, hasleep (hw.trans_ne nofun)⟩
  | closed hw hq hgone => exact ⟨ht.toInv.closed hw hq hgone, hasleep (hw.trans_ne nofun)⟩
  | settle hw => exact ⟨(ht.toInv.settle hw).wake _, State.asleep_wake _⟩
  | consume hw =>
    refine ⟨ht.toInv.consume hw, ?_⟩
    unfold State.consumed
    dsimp only
    split <;> exact hasleep (hw.trans_ne nofun)
  | stop hw => exact ⟨ht.toInv.stopped hw, fun w hsleep => ⟨(ht.asleep w hsleep).1, .inr (.inr rfl)⟩⟩
  | notify hw => exact ⟨(ht.toInv.ended hw).wake _, State.asleep_wake _⟩

theorem Outside.sound (h : Outside t t') (ht : t.Sound window bound a read docs goes_on) :
    t'.Sound window bound a read docs goes_on := by
  cases h with
  | wake w =>
    have hr : ∀ v, Function.update t.readers w (t.readers w).signalled v = t.readers v
        ∨ Function.update t.readers w (t.readers w).signalled v = (t.readers v).signalled := by
      intro v
      by_cases hvw : v = w
      · subst hvw
        exact .inr (Function.update_self ..)
      · exact .inl (Function.update_of_ne hvw ..)
    refine ⟨ht.toInv.rouse hr, fun v hv => ?_⟩
    have hasleep : t.readers v = .asleep := by
      rcases hr v with heq | heq
      · exact heq.symm.trans hv
      · exact absurd (heq.symm.trans hv) (Pc.signalled_ne_asleep _)
    obtain ⟨hfull, hs⟩ := ht.asleep v hasleep
    refine ⟨hfull, hs.imp_right (Or.imp_left fun ⟨u, hu⟩ => ⟨u, ?_⟩)⟩
    rcases hr u with heq | heq
    · exact heq.trans hu
    · rw [hu] at heq
      exact heq

omit [DecidableEq W] in
theorem State.start_sound : (State.start docs : State W).Sound window bound a read docs goes_on where
  left := rfl
  next_le := Nat.zero_le _
  consumed := rfl
  behind := Nat.le_refl 0
  claimed := nofun
  reader_good := nofun
  queue_good := nofun
  ready_good := nofun
  writer_good := nofun
  places_le := fun s => by simp [State.places, State.start, Pc.at, Extract.places]
  places_eq := fun _ s => by simp [State.places, State.start, Pc.at, Extract.places]
  held := by simp [State.start, Pc.charged, charges, Writer.charged]
  leaves := nofun
  writer_leaves := nofun
  missing := nofun
  reason := by rintro (h | ⟨w, h⟩) <;> cases h
  panicked := nofun
  given := rfl
  goes := fun k hk => absurd hk (Nat.not_lt_zero k)
  quit := nofun
  finished := nofun
  memory := nofun
  asleep := nofun

theorem Reached.sound [Nonempty W] (h : Reached window bound a read docs goes_on t)
    (hnd : docs.Nodup) : t.Sound window bound a read docs goes_on := by
  induction h with
  | start => exact State.start_sound
  | step _ hstep ih => exact hstep.sound hnd ih
  | outside _ hout ih => exact hout.sound ih

/-! ## No state is stuck -/

/-- Some thread can step, and not by a panic. -/
def State.Live (window bound : ℕ) (a : Analysis) (read : ℕ → Except Fault Bytes)
    (goes_on : List (ℕ × Result) → Bool) (t : State W) : Prop :=
  ∃ t', Step window bound a read goes_on t t' ∧ t'.shared.lost = t.shared.lost

omit [Fintype W] [DecidableEq W] in
theorem Act.exists (s : Shared) (m : Memory) {pc : Pc} (hsleep : pc ≠ .asleep) (hend : pc ≠ .ended) :
    ∃ s' m' n wakes, Act window bound a read s m pc s' m' n wakes ∧ s'.lost = s.lost := by
  cases pc with
  | claim => exact ⟨_, _, _, _, .claim (.inl rfl), rfl⟩
  | asleep => exact absurd rfl hsleep
  | notified => exact ⟨_, _, _, _, .claim (.inr rfl), rfl⟩
  | extract _ doc =>
    cases he : (Extract.extract a read m doc).1 with
    | ok e => exact ⟨_, _, _, _, .extract 0 he, rfl⟩
    | error _ => exact ⟨_, _, _, _, .extract_fault he, rfl⟩
  | charge sent => exact ⟨_, _, _, _, .charge, rfl⟩
  | send sent => exact ⟨_, _, _, _, .send, rfl⟩
  | stop => exact ⟨_, _, _, _, .stop, rfl⟩
  | notify => exact ⟨_, _, _, _, .notify, rfl⟩
  | hang_up => exact ⟨_, _, _, _, .hang_up, rfl⟩
  | ended => exact absurd rfl hend

omit [Fintype W] [DecidableEq W] in
theorem State.lost_wake (t : State W) (wakes : Bool) :
    (t.wake wakes).shared = t.shared := by
  cases wakes <;> rfl

omit [Fintype W] in
theorem State.live_reader {w : W} (hsleep : t.readers w ≠ .asleep) (hend : t.readers w ≠ .ended) :
    t.Live window bound a read goes_on := by
  obtain ⟨_, _, n, _, hact, hlost⟩ := Act.exists t.shared (t.memory w) hsleep hend
  refine ⟨_, .reader w hact, ?_⟩
  rw [State.lost_wake]
  exact hlost

omit [Fintype W] in
/-- The writer can step, unless it waits for a reader or has ended. -/
theorem State.live_writer (hend : t.writer ≠ .ended)
    (hrecv : t.writer = .recv → t.shared.queue ≠ [] ∨ ∀ w, (t.readers w).gone = true) :
    t.Live window bound a read goes_on := by
  cases hw : t.writer with
  | look =>
    cases hf : t.ready.find? (·.seq = t.next) with
    | none => exact ⟨_, .missing hw hf, rfl⟩
    | some sent => exact ⟨_, .found hw hf, rfl⟩
  | recv =>
    cases hq : t.shared.queue with
    | cons sent _ => exact ⟨_, .recv hw hq, rfl⟩
    | nil => exact ⟨_, .closed hw hq ((hrecv hw).resolve_left fun hno => hno hq), rfl⟩
  | settle sent =>
    refine ⟨_, .settle hw, ?_⟩
    rw [State.lost_wake]
    rfl
  | consume sent =>
    refine ⟨_, .consume hw, ?_⟩
    unfold State.consumed
    dsimp only
    split <;> rfl
  | stop => exact ⟨_, .stop hw, rfl⟩
  | notify =>
    refine ⟨_, .notify hw, ?_⟩
    rw [State.lost_wake]
  | ended => exact absurd hw hend

omit [DecidableEq W] in
/-- With every reader asleep, nothing sent and the writer's next place not
there, nothing is claimed ahead of the writer. -/
theorem State.Inv.idle (h : t.Inv a read docs goes_on) (hw : t.writer = .recv)
    (hq : t.shared.queue = []) (hall : ∀ w, t.readers w = .asleep)
    (hlost : t.shared.lost = false) :
    t.shared.claims.consumed = t.shared.claims.next ∧ t.shared.claims.held = 0 := by
  have hcharged : ∀ i, ∑ w, (t.readers w).at i = 0 := fun i =>
    Finset.sum_eq_zero fun w _ => by rw [hall w]; rfl
  have hplaces : ∀ i, t.places i = Extract.places i t.ready := by
    intro i
    unfold State.places
    rw [hcharged, hq]
    exact zero_add _
  have hbehind := h.behind
  have hnext : t.shared.claims.next = t.next := by
    have hat := h.places_eq hlost t.next
    rw [hplaces, show Extract.places t.next t.ready = 0 from
      countP_eq_zero.mpr fun x hx => find?_eq_none.mp (h.missing hw) x hx] at hat
    by_contra hne
    rw [if_pos ⟨le_rfl, by omega⟩] at hat
    cases hat
  have hready : t.ready = [] := by
    by_contra hne
    obtain ⟨x, hx⟩ := exists_mem_of_ne_nil _ hne
    have hle := h.places_le x.seq
    rw [hplaces, if_neg (by omega)] at hle
    have hzero := countP_eq_zero.mp (Nat.le_zero.mp hle) x hx
    simp at hzero
  have hconsumed := h.consumed
  have hheld := h.held
  rw [hw] at hconsumed hheld
  refine ⟨hconsumed.trans hnext.symm, ?_⟩
  rw [hheld, hq, hready, show ∑ w, (t.readers w).charged = 0 from
    Finset.sum_eq_zero fun w _ => by rw [hall w]; rfl]
  rfl

/-- **No state is stuck** while a thread has not ended. -/
theorem State.Sound.live (h : t.Sound window bound a read docs goes_on) (hwindow : 0 < window)
    (hbound : 0 < bound) (hleft : t.writer ≠ .ended ∨ ∃ w, t.readers w ≠ .ended) :
    t.Live window bound a read goes_on := by
  by_cases hawake : ∃ w, t.readers w ≠ .asleep ∧ t.readers w ≠ .ended
  · obtain ⟨w, hsleep, hend⟩ := hawake
    exact State.live_reader hsleep hend
  · have hrest : ∀ w, t.readers w ≠ .asleep → t.readers w = .ended := fun w hno => by
      by_contra hend
      exact hawake ⟨w, hno, hend⟩
    -- nobody but the writer is left to signal a sleeper
    have hsleeper : ∀ w, t.readers w = .asleep → t.writer ≠ .notify →
        t.shared.claims.full window bound = true ∧ t.shared.claims.stop = false := by
      intro w hw hno
      obtain ⟨hfull, hs | ⟨v, hv⟩ | hs⟩ := h.asleep w hw
      · exact ⟨hfull, hs⟩
      · have := hrest v (by rw [hv]; nofun)
        rw [hv] at this
        cases this
      · exact absurd hs hno
    by_cases hend : t.writer = .ended
    · obtain ⟨w, hw⟩ := hleft.resolve_left fun hno => hno hend
      have hasleep : t.readers w = .asleep := by
        by_contra hno
        exact hw (hrest w hno)
      have hs := (hsleeper w hasleep (by rw [hend]; nofun)).2
      rw [h.writer_leaves (by rw [hend]; rfl)] at hs
      cases hs
    · refine State.live_writer hend fun hrecv => ?_
      by_contra hno
      obtain ⟨hq, hgone⟩ := not_or.mp hno
      have hq : t.shared.queue = [] := by
        by_contra hne
        exact hq hne
      obtain ⟨w, hw⟩ := not_forall.mp hgone
      have hasleep : t.readers w = .asleep := by
        by_contra hne
        rw [hrest w hne] at hw
        exact hw rfl
      obtain ⟨hfull, hs⟩ := hsleeper w hasleep (by rw [hrecv]; nofun)
      -- a reader that has ended would have stopped all
      have hall : ∀ v, t.readers v = .asleep := by
        intro v
        by_contra hne
        have := h.leaves v (by rw [hrest v hne]; rfl)
        rw [hs] at this
        cases this
      cases hlost : t.shared.lost with
      | false =>
        obtain ⟨_, _⟩ := h.idle hrecv hq hall hlost
        simp only [Claims.full, Bool.or_eq_true, decide_eq_true_eq] at hfull
        omega
      | true =>
        rcases h.panicked hlost with hyes | ⟨v, hv⟩
        · rw [hs] at hyes
          cases hyes
        · rw [hall v] at hv
          cases hv

end

/-! ## What a single reader gives -/

section

variable {α : Type} (goes_on : List α → Bool)

/-- The outcomes given, of those to come, until `consume` ends the run. -/
def cut : List α → List α → List α
  | given, [] => given
  | given, x :: xs => if goes_on (given ++ [x]) then cut (given ++ [x]) xs else given ++ [x]

variable {goes_on}

theorem prefix_cut (given l : List α) : given <+: cut goes_on given l := by
  induction l generalizing given with
  | nil => exact prefix_rfl
  | cons x _ ih =>
    unfold cut
    split
    · exact (prefix_append given [x]).trans (ih _)
    · exact prefix_append given [x]

/-- As long as `consume` goes on, so does the run. -/
theorem cut_eq (l : List α) {k : ℕ} (hk : k ≤ l.length)
    (h : ∀ j < k, goes_on (l.take (j + 1)) = true) :
    cut goes_on [] l = cut goes_on (l.take k) (l.drop k) := by
  induction k with
  | zero => rfl
  | succ k ih =>
    rw [ih (by omega) fun j hj => h j (by omega), drop_eq_getElem_cons (by omega), cut,
      ← take_succ_eq_append_getElem (by omega), if_pos (h k (by omega))]

end

section

variable {a : Analysis} {read : ℕ → Except Fault Bytes} {docs : List ℕ}
  {goes_on : List (ℕ × Result) → Bool}

theorem alone_eq (last : Memory) (given : List (ℕ × Result)) (hnd : docs.Nodup)
    (hlast : ∀ term d, last.lookup term = some d → d ∉ docs) :
    alone a read goes_on docs last given = cut goes_on given (docs.map (outcome a read)) := by
  induction docs generalizing last given with
  | nil => rfl
  | cons doc _ ih =>
    obtain ⟨hdoc, hrest⟩ := nodup_cons.mp hnd
    have hfresh : (extract a read last doc).1 = afresh a read doc :=
      extract_eq_afresh fun term hterm => hlast term doc hterm (.head _)
    rw [alone, map_cons, cut, outcome, hfresh]
    split
    · refine ih _ _ hrest fun term d hd => ?_
      rcases lookup_extract hd with rfl | hold
      · exact hdoc
      · exact fun hmem => hlast term d hold (.tail _ hmem)
    · rfl

theorem single_eq (hnd : docs.Nodup) :
    single a read docs goes_on = cut goes_on [] (docs.map (outcome a read)) :=
  alone_eq ∅ [] hnd nofun

variable {W : Type} [Fintype W] {t : State W}

theorem State.Inv.given_prefix (h : t.Inv a read docs goes_on) :
    t.given <+: docs.map (outcome a read) := by
  rw [h.given, map_take]
  exact take_prefix ..

/-- A run that `consume` has ended gave what a single reader gives. -/
theorem State.Inv.eq_single_of_quit (h : t.Inv a read docs goes_on) (hnd : docs.Nodup)
    (hquit : t.quit = true) : t.given = single a read docs goes_on := by
  rw [single_eq hnd]
  have htake := prefix_iff_eq_take.mp h.given_prefix
  have hle := h.given_prefix.length_le
  obtain ⟨hne, hstops, -⟩ := h.quit hquit
  obtain ⟨k, hk⟩ : ∃ k, t.given.length = k + 1 :=
    Nat.exists_eq_succ_of_ne_zero fun hzero => hne (length_eq_zero_iff.mp hzero)
  have hlt : k < (docs.map (outcome a read)).length := by omega
  have hgoes : ∀ j < k, goes_on ((docs.map (outcome a read)).take (j + 1)) = true := by
    intro j hj
    have hgo := h.goes j (by omega)
    rw [htake, take_take, min_eq_left (by omega)] at hgo
    exact hgo.resolve_right fun hno => by
      have := hno.1
      rw [← htake] at this
      omega
  rw [hk] at htake
  rw [cut_eq _ (le_of_lt hlt) hgoes, drop_eq_getElem_cons hlt, cut,
    ← take_succ_eq_append_getElem hlt, ← htake, if_neg (by rw [hstops]; nofun)]

/-- What is given is the start of what a single reader gives. -/
theorem State.Inv.prefix_single (h : t.Inv a read docs goes_on) (hnd : docs.Nodup) :
    t.given <+: single a read docs goes_on := by
  rw [single_eq hnd]
  have htake := prefix_iff_eq_take.mp h.given_prefix
  have hle := h.given_prefix.length_le
  cases hquit : t.quit with
  | false =>
    rw [cut_eq _ hle fun j hj => ?_, ← htake]
    · exact prefix_cut _ _
    · have hgo := h.goes j hj
      rw [htake, take_take, min_eq_left hj, hquit] at hgo
      exact hgo.resolve_right (fun hno => nomatch hno.2)
  | true =>
    rw [← single_eq hnd, ← h.eq_single_of_quit hnd hquit]

/-- A run that has ended by itself gave everything, or met a request to stop. -/
theorem State.Inv.complete [Nonempty W] (h : t.Inv a read docs goes_on) (hnd : docs.Nodup)
    (hend : t.writer = .ended) (hlost : t.shared.lost = false) :
    t.given = single a read docs goes_on ∨ ∃ x ∈ t.given, x.2 = .error .stop := by
  cases hquit : t.quit with
  | true => exact .inl (h.eq_single_of_quit hnd hquit)
  | false =>
    have hreason := h.reason (.inl (h.writer_leaves (by rw [hend]; rfl)))
    have hgiven := h.given
    rw [hend] at hgiven
    change t.given = (docs.take t.next).map _ at hgiven
    have hnext : t.shared.claims.next = t.next := by
      rcases h.finished (by rw [hend]; rfl) with hno | hno | ⟨hnext, -⟩
      · rw [hquit] at hno
        cases hno
      · rw [hlost] at hno
        cases hno
      · exact hnext
    rcases hreason with hall | ⟨i, hi, doc, hdoc, hstop⟩ | hno | hno
    · refine .inl (List.IsPrefix.eq_of_length_le (h.prefix_single hnd) ?_)
      rw [hgiven, ← hnext, hall, take_length, single_eq hnd, cut_eq _ (le_rfl),
        take_length, drop_length]
      · exact le_rfl
      · intro j hj
        have hgo := h.goes j (by rw [hgiven, ← hnext, hall, take_length]; exact hj)
        rw [hgiven, ← hnext, hall, take_length, hquit] at hgo
        exact hgo.resolve_right fun hno => nomatch hno.2
    · refine .inr ⟨outcome a read doc, ?_, hstop⟩
      rw [hgiven]
      refine mem_map_of_mem (mem_of_getElem? (i := i) ?_)
      rw [getElem?_take_of_lt (hnext ▸ hi), hdoc]
    · rw [hlost] at hno
      cases hno
    · rw [hquit] at hno
      cases hno

end

/-! ## What the readers come to -/

section

variable {W : Type} [Fintype W] [DecidableEq W] {window bound : ℕ} {a : Analysis}
  {read : ℕ → Except Fault Bytes} {docs : List ℕ} {goes_on : List (ℕ × Result) → Bool} {t : State W}

/-- **What holds of every state of a run.** -/
structure State.Ordered (window bound : ℕ) (a : Analysis) (read : ℕ → Except Fault Bytes)
    (docs : List ℕ) (goes_on : List (ℕ × Result) → Bool) (t : State W) : Prop where
  /-- `consume` is given what a single reader gives it, in order. -/
  given : t.given <+: single a read docs goes_on
  documents : t.given.map Prod.fst <+: docs
  /-- It is given all of it, or all up to a request to stop, unless a reader
  panicked. -/
  complete : t.writer = .ended → t.shared.lost = false →
    t.given = single a read docs goes_on ∨ ∃ x ∈ t.given, x.2 = .error .stop
  /-- Some thread can step, until all have ended. -/
  live : t.writer ≠ .ended ∨ (∃ w, t.readers w ≠ .ended) → t.Live window bound a read goes_on

/-- **Extraction keeps its order**, and never gets stuck, for any readers, any
window and any bound that let a document through. -/
theorem reached_ordered [Nonempty W] (h : Reached window bound a read docs goes_on t)
    (hnd : docs.Nodup) (hwindow : 0 < window) (hbound : 0 < bound) :
    t.Ordered window bound a read docs goes_on := by
  have hs := h.sound hnd
  exact {
    given := hs.prefix_single hnd
    documents := by
      have hprefixes := hs.given_prefix.map Prod.fst
      rwa [map_map, show Prod.fst ∘ outcome a read = id from rfl, map_id] at hprefixes
    complete := fun hend hlost => hs.complete hnd hend hlost
    live := hs.live hwindow hbound }

end

/-- The second of two readers is done first: the writer keeps its document, and
waits for the other. -/
theorem later_document_waits :
    ∃ t : State (Fin 2), t.ready.map Sent.doc = [9] ∧ t.given = []
      ∧ t.Ordered 128 1 ⟨fun _ => [], fun _ => []⟩ (fun _ => .ok [])  [5, 9] fun _ => true := by
  have h0 : Reached (W := Fin 2) 128 1 ⟨fun _ => [], fun _ => []⟩ (fun _ => .ok []) [5, 9]
    (fun _ => true) _ := .start
  have h1 := h0.step (.reader 0 (.claim (.inl rfl)))
  have h2 := h1.step (.reader 1 (.claim (.inl rfl)))
  have h3 := h2.step (.reader 1 (.extract 12 rfl))
  have h4 := h3.step (.reader 1 .charge)
  have h5 := h4.step (.reader 1 .send)
  have h6 := h5.step (.missing rfl rfl)
  have h7 := h6.step (.recv rfl rfl)
  exact ⟨_, rfl, rfl, reached_ordered h7 (by decide) (by decide) (by decide)⟩

theorem not_act_asleep {window bound : ℕ} {a : Analysis} {read : ℕ → Except Fault Bytes}
    {s s' : Shared} {m m' : Memory} {n : Pc} {wakes : Bool} :
    ¬ Act window bound a read s m .asleep s' m' n wakes := by
  intro h
  cases h
  case claim hpc => exact hpc.elim nofun nofun

/-- With a bound of no bytes at all, every reader waits and so does the
writer. -/
theorem no_bytes_stuck :
    ∃ t : State (Fin 2),
      Reached 128 0 ⟨fun _ => [], fun _ => []⟩ (fun _ => .ok []) [5] (fun _ => true) t
      ∧ t.shared.claims.docs = [5]
      ∧ ∀ t', ¬ Step 128 0 ⟨fun _ => [], fun _ => []⟩ (fun _ => .ok []) (fun _ => true) t t' := by
  have h0 : Reached (W := Fin 2) 128 0 ⟨fun _ => [], fun _ => []⟩ (fun _ => .ok []) [5]
    (fun _ => true) _ := .start
  have h1 := h0.step (.reader 0 (.claim (.inl rfl)))
  have h2 := h1.step (.reader 1 (.claim (.inl rfl)))
  have h3 := h2.step (.missing rfl rfl)
  refine ⟨_, h3, rfl, fun t' hstep => ?_⟩
  cases hstep with
  | reader w hact =>
    match w with
    | 0 => exact not_act_asleep hact
    | 1 => exact not_act_asleep hact
  | closed hw hq hgone => cases hgone 0
  | found hw | missing hw | settle hw | consume hw | stop hw | notify hw => cases hw
  | recv hw hq => cases hq

end Ferret.Extract
