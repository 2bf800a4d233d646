import Ferret.Extract.InOrderInvariant

/-!
# Runs of the extraction

Each step keeps the invariant. A state where no step is possible has the writer
waiting for a place that is nowhere, so no place is claimed ahead of it and no
bytes are held: then no reader had a reason to sleep.
-/

namespace Ferret.Extract

open List Function

section

variable {W : Type} [Fintype W] [DecidableEq W] {window bound : ℕ} {a : Analysis}
  {read : ℕ → Except Fault Bytes} {docs : List ℕ} {goes_on : List (ℕ × Result) → Bool}
  {t : State W} {w : W} {s : Shared} {m : Memory} {pc : Pc} {wakes : Bool}

theorem not_act_of_gone {s₀ : Shared} {m₀ : Memory} {o : Pc} (ho : o.gone = true) :
    ¬ Act window bound a read s₀ m₀ o s m pc wakes := by
  intro h
  cases o with
  | ended =>
    cases h
    case claim hpc => exact hpc.elim nofun nofun
  | _ => cases ho

/-- Where a place is, when one reader moves. -/
theorem State.places_put (t : State W) (w : W) (s : Shared) (m : Memory) (pc : Pc) (i : ℕ) :
    (t.put w s m pc).places i + (t.readers w).at i + Extract.places i t.shared.queue
      = t.places i + pc.at i + Extract.places i s.queue := by
  have hsum := Tally.sum_update (Pc.at i) t.readers (Finset.mem_univ w) pc
  show ∑ v, (Function.update t.readers w pc v).at i + Extract.places i s.queue
    + Extract.places i t.ready + _ + _ = ∑ v, (t.readers v).at i + Extract.places i t.shared.queue
    + Extract.places i t.ready + _ + _
  omega

omit [DecidableEq W] in
/-- A document's extraction does not depend on who makes it. -/
theorem State.Inv.afresh (h : t.Inv a read docs goes_on) (hnd : docs.Nodup) {seq doc : ℕ}
    (hpc : t.readers w = .extract seq doc) :
    (Extract.extract a read (t.memory w) doc).1 = Extract.afresh a read doc := by
  refine extract_eq_afresh fun term hterm => ?_
  obtain ⟨i, hi, hdoc⟩ := h.memory w term doc hterm
  rw [hpc] at hi
  obtain ⟨-, hseq⟩ := h.claimed w seq doc hpc
  have hi' := (List.getElem?_eq_some_iff.mp hdoc).1
  have := (List.getElem?_inj hi' hnd).mp (hdoc.trans hseq.symm)
  exact lt_irrefl _ (this ▸ hi)

section

variable (h : t.Inv a read docs goes_on)
  (hact : Act window bound a read t.shared (t.memory w) (t.readers w) s m pc wakes)
include h hact

omit [DecidableEq W] in
/-- The order of claims, after a reader's act. -/
theorem State.Inv.act_claims :
    t.shared.claims.next ≤ s.claims.next ∧ s.claims.docs = docs.drop s.claims.next
      ∧ s.claims.next ≤ docs.length
      ∧ ∀ seq doc, pc = .extract seq doc → seq < s.claims.next ∧ docs[seq]? = some doc := by
  rcases hact.claims with ⟨hdocs, hnext, hno⟩ | ⟨doc, _, hdocs, rfl, -, rfl⟩
  · refine ⟨le_of_eq hnext.symm, ?_, ?_, fun seq doc heq => absurd heq (hno seq doc)⟩
    · rw [hdocs, hnext, h.left]
    · rw [hnext]
      exact h.next_le
  · have hdrop := h.left.symm.trans hdocs
    have hlt : t.shared.claims.next < docs.length := by
      by_contra hge
      rw [drop_eq_nil_of_le (Nat.le_of_not_lt hge)] at hdrop
      cases hdrop
    rw [drop_eq_getElem_cons hlt] at hdrop
    obtain ⟨hdoc, hrest⟩ := List.cons.inj hdrop
    refine ⟨Nat.le_succ _, hrest.symm, hlt, ?_⟩
    rintro seq _ ⟨⟩
    exact ⟨Nat.lt_succ_self _, by rw [getElem?_eq_getElem hlt, hdoc]⟩

omit [DecidableEq W] in
theorem State.Inv.act_good (hnd : docs.Nodup) :
    (∀ x ∈ pc.hand, x.Good a read docs t.shared.claims.next)
      ∧ ∀ x ∈ s.queue, x.Good a read docs t.shared.claims.next :=
  hact.good (h.reader_good w)
    (fun seq doc hpc => ⟨(h.claimed w seq doc hpc).1, (h.claimed w seq doc hpc).2,
      h.afresh hnd hpc⟩) h.queue_good

omit h in
theorem act_places (i : ℕ) :
    ((t.put w s m pc).places i
        = t.places i + (if t.shared.claims.next ≤ i ∧ i < s.claims.next then 1 else 0)
      ∧ s.lost = t.shared.lost)
    ∨ ((t.put w s m pc).places i ≤ t.places i ∧ s.lost = true
      ∧ s.claims.next = t.shared.claims.next) := by
  have hput := t.places_put w s m pc i
  rcases hact.places i with ⟨_, hlost⟩ | ⟨_, hlost, hnext⟩
  · exact .inl ⟨by omega, hlost⟩
  · exact .inr ⟨by omega, hlost, hnext⟩

theorem State.Inv.act_reason
    (hstop : s.claims.stop = true ∨ ∃ v, Function.update t.readers w pc v = .stop) :
    (t.put w s m pc).Reason a read docs := by
  have hle := (h.act_claims hact).1
  -- a reason there was is one still
  have hold : t.Reason a read docs → (t.put w s m pc).Reason a read docs := by
    rintro (hall | ⟨i, hi, hdoc⟩ | hlost | hquit)
    · exact .inl (le_antisymm (h.act_claims hact).2.2.1 (hall ▸ hle))
    · exact .inr (.inl ⟨i, lt_of_lt_of_le hi hle, hdoc⟩)
    · exact .inr (.inr (.inl (hact.frame.2.1 hlost)))
    · exact .inr (.inr (.inr hquit))
  have hown : (s.claims.stop = true ∨ pc = .stop) → (t.put w s m pc).Reason a read docs := by
    intro hn
    have hsent : ∀ x, t.readers w = .send x → x.Good a read docs t.shared.claims.next :=
      fun x hx => h.reader_good w x (by rw [hx]; exact mem_singleton_self x)
    rcases hact.reason hsent h.left h.next_le hn with hs | ho | hlost | hall | hfault
    · exact hold (h.reason (.inl hs))
    · exact hold (h.reason (.inr ⟨w, ho⟩))
    · exact .inr (.inr (.inl hlost))
    · exact .inl hall
    · exact .inr (.inl hfault)
  rcases hstop with hs | ⟨v, hv⟩
  · exact hown (.inl hs)
  · rcases Tally.update_eq hv with ⟨rfl, hn⟩ | hv
    · exact hown (.inr hn)
    · exact hold (h.reason (.inr ⟨v, hv⟩))

/-- **A reader's act keeps the invariant.** -/
theorem State.Inv.act (hnd : docs.Nodup) : (t.put w s m pc).Inv a read docs goes_on := by
  obtain ⟨hle, hleft, hlen, hclaimed⟩ := h.act_claims hact
  obtain ⟨hhand, hqueue⟩ := h.act_good hact hnd
  obtain ⟨hconsumed, hlost, hstop⟩ := hact.frame
  have hbehind := h.behind
  refine { h with
    left := hleft
    next_le := hlen
    consumed := hconsumed ▸ h.consumed
    behind := le_trans h.behind hle
    claimed := ?_
    reader_good := ?_
    queue_good := fun x hx => (hqueue x hx).mono hle
    ready_good := fun x hx => (h.ready_good x hx).mono hle
    writer_good := fun x hx => ⟨(h.writer_good x hx).1.mono hle, (h.writer_good x hx).2⟩
    places_le := ?_
    places_eq := ?_
    held := ?_
    leaves := ?_
    writer_leaves := fun hw => hstop (h.writer_leaves hw)
    reason := h.act_reason hact
    panicked := ?_
    finished := ?_
    memory := ?_ }
  · intro v seq doc hv
    change Function.update t.readers w pc v = _ at hv
    rcases Tally.update_eq hv with ⟨rfl, hn⟩ | hv
    · exact hclaimed seq doc hn
    · obtain ⟨hseq, hdoc⟩ := h.claimed v seq doc hv
      exact ⟨lt_of_lt_of_le hseq hle, hdoc⟩
  · intro v x hx
    change x ∈ (Function.update t.readers w pc v).hand at hx
    by_cases hvw : v = w
    · subst hvw
      rw [update_self] at hx
      exact (hhand x hx).mono hle
    · rw [update_of_ne hvw] at hx
      exact (h.reader_good v x hx).mono hle
  · intro i
    have hi := h.places_le i
    show _ ≤ if t.next ≤ i ∧ i < s.claims.next then 1 else 0
    rcases act_places hact i with ⟨heq, -⟩ | ⟨hno, -, hnext⟩
    · rw [heq]
      split at hi <;> split <;> split <;> omega
    · rw [hnext]
      exact le_trans hno hi
  · intro hno i
    change s.lost = false at hno
    show _ = if t.next ≤ i ∧ i < s.claims.next then 1 else 0
    rcases act_places hact i with ⟨heq, hsame⟩ | ⟨-, hyes, -⟩
    · have hi := h.places_eq (hsame.symm.trans hno) i
      rw [heq]
      split at hi <;> split <;> split <;> omega
    · rw [hno] at hyes
      cases hyes
  · have hsum := Tally.sum_update Pc.charged t.readers (Finset.mem_univ w) pc
    have hheld := hact.held
    have hold := h.held
    show s.claims.held = ∑ v, (Function.update t.readers w pc v).charged + charges s.queue
      + charges t.ready + t.writer.charged
    omega
  · intro v hv
    change (Function.update t.readers w pc v).leaves = true at hv
    by_cases hvw : v = w
    · subst hvw
      rw [update_self] at hv
      exact (hact.leaves hv).elim (fun ho => hstop (h.leaves v ho)) id
    · rw [update_of_ne hvw] at hv
      exact hstop (h.leaves v hv)
  · intro hyes
    show s.claims.stop = true ∨ ∃ v, Function.update t.readers w pc v = .stop
    have hold : t.shared.lost = true →
        s.claims.stop = true ∨ ∃ v, Function.update t.readers w pc v = .stop := by
      intro hl
      rcases h.panicked hl with hs | ⟨v, hv⟩
      · exact .inl (hstop hs)
      · by_cases hvw : v = w
        · subst hvw
          exact .inl (hact.panicked.2 hv)
        · exact .inr ⟨v, by rw [update_of_ne hvw, hv]⟩
    rcases hact.panicked.1 hyes with hl | rfl
    · exact hold hl
    · exact .inr ⟨w, update_self ..⟩
  · intro hover
    rcases h.finished hover with hquit | hyes | ⟨-, hgone⟩
    · exact .inl hquit
    · exact .inr (.inl (hlost hyes))
    · exact absurd hact (not_act_of_gone (hgone w))
  · intro v term d hd
    change (Function.update t.memory w m v).lookup term = some d at hd
    show ∃ i < (Function.update t.readers w pc v).limit s.claims.next, _
    by_cases hvw : v = w
    · subst hvw
      rw [update_self] at hd ⊢
      exact hact.memory (h.memory v) (h.claimed v) term d hd
    · rw [update_of_ne hvw] at hd ⊢
      obtain ⟨i, hi, hdoc⟩ := h.memory v term d hd
      refine ⟨i, lt_of_lt_of_le hi ?_, hdoc⟩
      cases t.readers v <;> first | exact hle | exact le_rfl

end

/-! ## The writer -/

omit [Fintype W] [DecidableEq W] in
theorem perm_of_find {p : Sent → Bool} {l : List Sent} {x : Sent} (h : l.find? p = some x) :
    l.Perm (x :: l.eraseP p) := by
  induction l with
  | nil => cases h
  | cons y _ ih =>
    by_cases hy : p y = true
    · rw [find?_cons_of_pos hy] at h
      cases h
      rw [eraseP_cons_of_pos hy]
    · rw [find?_cons_of_neg hy] at h
      rw [eraseP_cons_of_neg hy]
      exact ((ih h).cons y).trans (.swap x y _)

theorem charges_cons (x : Sent) (l : List Sent) : charges (x :: l) = x.bytes + charges l := by
  rfl

omit [DecidableEq W] in
theorem State.Inv.found (h : t.Inv a read docs goes_on) (hw : t.writer = .look) {sent : Sent}
    (hf : t.ready.find? (·.seq = t.next) = some sent) :
    ({ t with
      ready := t.ready.eraseP (·.seq = t.next), next := t.next + 1,
      writer := .settle sent } : State W).Inv a read docs goes_on := by
  have hperm := perm_of_find hf
  have hseq : sent.seq = t.next := by simpa using find?_some hf
  have hgood := h.ready_good sent (mem_of_find?_eq_some hf)
  have hsub : ∀ x ∈ t.ready.eraseP (·.seq = t.next), x ∈ t.ready := fun x hx =>
    (eraseP_subset hx)
  have hplaces : ∀ i, ({ t with
      ready := t.ready.eraseP (·.seq = t.next), next := t.next + 1,
      writer := .settle sent } : State W).places i + (if t.next = i then 1 else 0) = t.places i := by
    intro i
    have hready : Extract.places i t.ready = Extract.places i (t.ready.eraseP (·.seq = t.next))
        + if t.next = i then 1 else 0 := by
      rw [← hseq, ← places_cons, hseq]
      exact hperm.countP_eq _
    unfold State.places
    rw [hready]
    exact add_assoc _ _ _
  have hcharges : charges t.ready = sent.bytes + charges (t.ready.eraseP (·.seq = t.next)) := by
    rw [← charges_cons]
    exact (hperm.map _).sum_nat
  have hconsumed := h.consumed
  have hgiven := h.given
  rw [hw] at hconsumed hgiven
  have hquit : t.quit = false := by
    by_contra hno
    have := (h.quit (Bool.eq_true_of_not_eq_false hno)).2.2
    rw [hw] at this
    cases this
  exact { h with
    consumed := by
      show t.shared.claims.consumed + 1 = t.next + 1
      exact congrArg (· + 1) hconsumed
    behind := hseq ▸ hgood.claimed
    ready_good := fun x hx => h.ready_good x (hsub x hx)
    writer_good := by
      intro x hx
      obtain rfl := mem_singleton.mp hx
      exact ⟨hgood, congrArg (· + 1) hseq⟩
    places_le := by
      intro i
      have hi := h.places_le i
      have hsplit := hplaces i
      show _ ≤ if t.next + 1 ≤ i ∧ i < t.shared.claims.next then 1 else 0
      split at hi <;> split at hsplit <;> split <;> omega
    places_eq := by
      intro hlost i
      have hi := h.places_eq hlost i
      have hsplit := hplaces i
      have hlt : t.next < t.shared.claims.next := hseq ▸ hgood.claimed
      show _ = if t.next + 1 ≤ i ∧ i < t.shared.claims.next then 1 else 0
      split at hi <;> split at hsplit <;> split <;> omega
    held := by
      have hheld := h.held
      rw [hw, hcharges] at hheld
      show t.shared.claims.held = ∑ w, (t.readers w).charged + charges t.shared.queue
        + charges (t.ready.eraseP (·.seq = t.next)) + sent.bytes
      rw [hheld]
      show _ + _ + _ + 0 = _
      omega
    writer_leaves := nofun
    missing := nofun
    given := hgiven
    quit := by
      intro hyes
      rw [hquit] at hyes
      cases hyes
    finished := nofun }

omit [DecidableEq W] in
theorem State.Inv.missed (h : t.Inv a read docs goes_on) (hw : t.writer = .look)
    (hf : t.ready.find? (·.seq = t.next) = none) :
    ({ t with writer := .recv } : State W).Inv a read docs goes_on := by
  have hconsumed := h.consumed
  have hgiven := h.given
  have hheld := h.held
  have hquit := h.quit
  rw [hw] at hconsumed hgiven hheld hquit
  exact { h with
    consumed := hconsumed
    writer_good := nofun
    held := hheld
    writer_leaves := nofun
    missing := fun _ => hf
    given := hgiven
    quit := fun hyes => nomatch (hquit hyes).2.2
    finished := nofun }

omit [DecidableEq W] in
theorem State.Inv.recv (h : t.Inv a read docs goes_on) (hw : t.writer = .recv) {sent : Sent}
    {queue : List Sent} (hq : t.shared.queue = sent :: queue) :
    ({ t with
      shared := { t.shared with queue := queue }, ready := sent :: t.ready,
      writer := .look } : State W).Inv a read docs goes_on := by
  have hconsumed := h.consumed
  have hgiven := h.given
  have hheld := h.held
  have hquit := h.quit
  have hgood := h.queue_good
  rw [hw] at hconsumed hgiven hheld hquit
  rw [hq] at hheld hgood
  have hplaces : ∀ i, ({ t with
      shared := { t.shared with queue := queue }, ready := sent :: t.ready,
      writer := .look } : State W).places i = t.places i := by
    intro i
    unfold State.places
    simp only [hq, places_cons]
    omega
  exact { h with
    consumed := hconsumed
    queue_good := fun x hx => hgood x (.tail _ hx)
    ready_good := by
      intro x hx
      rcases mem_cons.mp hx with rfl | hx
      · exact hgood x (.head _)
      · exact h.ready_good x hx
    writer_good := nofun
    places_le := fun i => by
      rw [hplaces]
      exact h.places_le i
    places_eq := fun hlost i => by
      rw [hplaces]
      exact h.places_eq hlost i
    held := by
      show t.shared.claims.held = ∑ w, (t.readers w).charged + charges queue
        + charges (sent :: t.ready) + 0
      rw [hheld, charges_cons, charges_cons]
      show _ + _ + _ + 0 = _
      omega
    writer_leaves := nofun
    missing := nofun
    given := hgiven
    quit := fun hyes => nomatch (hquit hyes).2.2
    finished := nofun }

omit [DecidableEq W] in
/-- With every reader gone and nothing sent, the writer has had every place. -/
theorem State.Inv.closed (h : t.Inv a read docs goes_on) (hw : t.writer = .recv)
    (hq : t.shared.queue = []) (hgone : ∀ w, (t.readers w).gone = true) :
    ({ t with writer := .stop } : State W).Inv a read docs goes_on := by
  have hconsumed := h.consumed
  have hgiven := h.given
  have hheld := h.held
  have hquit := h.quit
  rw [hw] at hconsumed hgiven hheld hquit
  have hnowhere : t.places t.next = 0 := by
    have hreaders : ∑ w, (t.readers w).at t.next = 0 := by
      refine Finset.sum_eq_zero fun w _ => ?_
      have := hgone w
      cases hpc : t.readers w with
      | ended => rfl
      | _ =>
        rw [hpc] at this
        cases this
    have hready : Extract.places t.next t.ready = 0 := by
      refine countP_eq_zero.mpr fun x hx => ?_
      exact find?_eq_none.mp (h.missing hw) x hx
    unfold State.places
    rw [hreaders, hready, hq]
    rfl
  exact { h with
    consumed := hconsumed
    writer_good := nofun
    held := hheld
    writer_leaves := nofun
    missing := nofun
    given := hgiven
    quit := fun hyes => nomatch (hquit hyes).2.2
    finished := by
      intro _
      cases hlost : t.shared.lost with
      | true => exact .inr (.inl rfl)
      | false =>
        refine .inr (.inr ⟨?_, hgone⟩)
        have hat := h.places_eq hlost t.next
        rw [hnowhere] at hat
        have hbehind := h.behind
        by_contra hne
        change t.shared.claims.next ≠ t.next at hne
        rw [if_pos ⟨le_rfl, by omega⟩] at hat
        cases hat }

omit [DecidableEq W] in
theorem State.Inv.settle (h : t.Inv a read docs goes_on) {sent : Sent}
    (hw : t.writer = .settle sent) : (t.settled sent).Inv a read docs goes_on := by
  have hgiven := h.given
  have hheld := h.held
  have hquit := h.quit
  have hgood := h.writer_good
  rw [hw] at hgiven hheld hquit hgood
  exact { h with
    consumed := rfl
    writer_good := hgood
    held := by
      show t.shared.claims.held - sent.bytes = _ + _ + _ + 0
      rw [hheld]
      exact Nat.add_sub_cancel _ _
    writer_leaves := nofun
    missing := nofun
    given := hgiven
    quit := fun hyes => nomatch (hquit hyes).2.2
    finished := nofun }

omit [DecidableEq W] in
theorem State.Inv.consume (h : t.Inv a read docs goes_on) {sent : Sent}
    (hw : t.writer = .consume sent) : (t.consumed goes_on sent).Inv a read docs goes_on := by
  have hconsumed := h.consumed
  have hgiven := h.given
  have hheld := h.held
  have hquit := h.quit
  obtain ⟨hgood, hseq⟩ := h.writer_good sent (by rw [hw]; exact mem_singleton_self _)
  rw [hw] at hconsumed hgiven hheld hquit
  have hno : t.quit = false := by
    by_contra hyes
    exact nomatch (hquit (Bool.eq_true_of_not_eq_false hyes)).2.2
  -- one more outcome is given
  have hnew : t.given ++ [(sent.doc, sent.result)]
      = (docs.take t.next).map (outcome a read) := by
    have htake : docs.take t.next = docs.take sent.seq ++ [sent.doc] := by
      rw [← hseq]
      rw [take_add_one, hgood.doc]
      rfl
    have hsub : t.next - (Writer.consume sent).hand.length = sent.seq := by
      show t.next - 1 = sent.seq
      omega
    rw [hgiven, hsub, htake, map_append, hgood.result]
    rfl
  have hlen : t.given.length < (t.given ++ [(sent.doc, sent.result)]).length := by simp
  have hgoes : ∀ k < t.given.length,
      goes_on ((t.given ++ [(sent.doc, sent.result)]).take (k + 1)) = true := by
    intro k hk
    rw [take_append_of_le_length (by omega)]
    rcases h.goes k hk with hgo | ⟨-, hyes⟩
    · exact hgo
    · rw [hno] at hyes
      cases hyes
  cases hgo : goes_on (t.given ++ [(sent.doc, sent.result)]) with
  | true =>
    rw [show t.consumed goes_on sent = { t with given := _, writer := .look } from if_pos hgo]
    exact { h with
      consumed := hconsumed
      writer_good := nofun
      held := hheld
      writer_leaves := nofun
      missing := nofun
      given := hnew
      goes := by
        intro k hk
        change k < (t.given ++ [(sent.doc, sent.result)]).length at hk
        rw [length_append, length_singleton] at hk
        refine .inl ?_
        rcases Nat.lt_or_eq_of_le (Nat.le_of_lt_succ hk) with hk | rfl
        · exact hgoes k hk
        · show goes_on (List.take _ (t.given ++ _)) = true
          rw [take_of_length_le (by simp)]
          exact hgo
      quit := by
        intro hyes
        change t.quit = true at hyes
        rw [hno] at hyes
        cases hyes
      finished := nofun }
  | false =>
    rw [show t.consumed goes_on sent = { t with given := _, writer := .stop, quit := true } from
      if_neg (by rw [hgo]; nofun)]
    exact { h with
      consumed := hconsumed
      writer_good := nofun
      held := hheld
      writer_leaves := nofun
      missing := nofun
      reason := fun hs => (h.reason hs).imp_right (Or.imp_right (Or.imp_right fun _ => rfl))
      given := hnew
      goes := by
        intro k hk
        change k < (t.given ++ [(sent.doc, sent.result)]).length at hk
        rw [length_append, length_singleton] at hk
        rcases Nat.lt_or_eq_of_le (Nat.le_of_lt_succ hk) with hk | rfl
        · exact .inl (hgoes k hk)
        · exact .inr ⟨by show _ = (t.given ++ _).length; simp, rfl⟩
      quit := fun _ => ⟨by simp, hgo, rfl⟩
      finished := fun _ => .inl rfl }

omit [DecidableEq W] in
theorem State.Inv.stopped [Nonempty W] (h : t.Inv a read docs goes_on) (hw : t.writer = .stop) :
    t.stopped.Inv a read docs goes_on := by
  have hconsumed := h.consumed
  have hgiven := h.given
  have hheld := h.held
  have hover := h.finished (by rw [hw]; rfl)
  rw [hw] at hconsumed hgiven hheld
  exact { h with
    consumed := hconsumed
    writer_good := nofun
    held := hheld
    leaves := fun _ _ => rfl
    writer_leaves := fun _ => rfl
    panicked := fun _ => .inl rfl
    missing := nofun
    reason := by
      intro _
      rcases hover with hquit | hlost | ⟨-, hgone⟩
      · exact .inr (.inr (.inr hquit))
      · exact .inr (.inr (.inl hlost))
      · -- every reader is gone, and the first to go had a reason
        obtain ⟨w⟩ := ‹Nonempty W›
        have hleaves : (t.readers w).leaves = true := by
          have := hgone w
          cases hpc : t.readers w with
          | ended => rfl
          | _ =>
            rw [hpc] at this
            cases this
        exact h.reason (.inl (h.leaves w hleaves))
    given := hgiven
    quit := fun hyes => ⟨(h.quit hyes).1, (h.quit hyes).2.1, rfl⟩
    finished := fun _ => hover }

omit [DecidableEq W] in
theorem State.Inv.ended (h : t.Inv a read docs goes_on) (hw : t.writer = .notify) :
    ({ t with writer := .ended } : State W).Inv a read docs goes_on := by
  have hconsumed := h.consumed
  have hgiven := h.given
  have hheld := h.held
  have hover := h.finished (by rw [hw]; rfl)
  have hleaves := h.writer_leaves (by rw [hw]; rfl)
  rw [hw] at hconsumed hgiven hheld
  exact { h with
    consumed := hconsumed
    writer_good := nofun
    held := hheld
    writer_leaves := fun _ => hleaves
    missing := nofun
    given := hgiven
    quit := fun hyes => ⟨(h.quit hyes).1, (h.quit hyes).2.1, rfl⟩
    finished := fun _ => hover }

/-! ## Signals -/

theorem Pc.signalled_extract {pc : Pc} {seq doc : ℕ} (h : pc.signalled = .extract seq doc) :
    pc = .extract seq doc := by
  cases pc <;> first | exact h | cases h

theorem Pc.signalled_stop {pc : Pc} (h : pc.signalled = .stop) : pc = .stop := by
  cases pc <;> first | exact h | cases h

theorem Pc.signalled_classes (pc : Pc) (i next : ℕ) :
    pc.signalled.hand = pc.hand ∧ pc.signalled.at i = pc.at i ∧ pc.signalled.charged = pc.charged
      ∧ pc.signalled.limit next = pc.limit next ∧ pc.signalled.leaves = pc.leaves
      ∧ pc.signalled.gone = pc.gone := by
  cases pc <;> exact ⟨rfl, rfl, rfl, rfl, rfl, rfl⟩

omit [DecidableEq W] in
/-- Who has been signalled does not matter, sleepers apart. -/
theorem State.Inv.rouse (h : t.Inv a read docs goes_on) {readers : W → Pc}
    (hr : ∀ w, readers w = t.readers w ∨ readers w = (t.readers w).signalled) :
    ({ t with readers := readers } : State W).Inv a read docs goes_on := by
  have hclass : ∀ {α : Type} (f : Pc → α), (∀ pc, f pc.signalled = f pc) →
      ∀ w, f (readers w) = f (t.readers w) := by
    intro α f hf w
    rcases hr w with heq | heq
    · rw [heq]
    · rw [heq, hf]
  have hhand := hclass Pc.hand fun pc => (pc.signalled_classes 0 0).1
  have hat := fun i => hclass (Pc.at i) fun pc => (pc.signalled_classes i 0).2.1
  have hcharged := hclass Pc.charged fun pc => (pc.signalled_classes 0 0).2.2.1
  have hlimit := fun n => hclass (Pc.limit n) fun pc => (pc.signalled_classes 0 n).2.2.2.1
  have hleaves := hclass Pc.leaves fun pc => (pc.signalled_classes 0 0).2.2.2.2.1
  have hgone := hclass Pc.gone fun pc => (pc.signalled_classes 0 0).2.2.2.2.2
  have hplaces : ∀ i, ({ t with readers := readers } : State W).places i = t.places i := by
    intro i
    unfold State.places
    exact congrArg (· + _ + _) (Finset.sum_congr rfl fun w _ => hat i w)
  exact { h with
    claimed := fun w seq doc hw => h.claimed w seq doc ((hr w).elim (fun heq => heq ▸ hw) fun heq =>
      Pc.signalled_extract (heq ▸ hw))
    reader_good := fun w x hx => h.reader_good w x (hhand w ▸ hx)
    places_le := fun i => by
      rw [hplaces]
      exact h.places_le i
    places_eq := fun hlost i => by
      rw [hplaces]
      exact h.places_eq hlost i
    held := by
      rw [h.held]
      exact congrArg (· + _ + _ + _) (Finset.sum_congr rfl fun w _ => (hcharged w).symm)
    leaves := fun w hw => h.leaves w (hleaves w ▸ hw)
    reason := by
      rintro (hs | ⟨w, hw⟩)
      · exact h.reason (.inl hs)
      · exact h.reason (.inr ⟨w, (hr w).elim (fun heq => heq ▸ hw) fun heq =>
          Pc.signalled_stop (heq ▸ hw)⟩)
    panicked := fun hl => (h.panicked hl).imp_right fun ⟨w, hw⟩ => ⟨w, by
      show readers w = .stop
      rcases hr w with heq | heq <;> rw [heq, hw]
      rfl⟩
    finished := fun hover => (h.finished hover).imp_right (Or.imp_right fun ⟨hnext, hall⟩ =>
      ⟨hnext, fun w => (hgone w).trans (hall w)⟩)
    memory := fun w term d hd => by
      show ∃ i < (readers w).limit _, _
      rw [hlimit]
      exact h.memory w term d hd }

omit [DecidableEq W] in
theorem State.Inv.wake (h : t.Inv a read docs goes_on) (wakes : Bool) :
    (t.wake wakes).Inv a read docs goes_on := by
  unfold State.wake
  split
  · exact h.rouse fun _ => .inr rfl
  · exact h

end

end Ferret.Extract
