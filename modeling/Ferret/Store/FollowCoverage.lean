import Ferret.Store.Follow

/-!
# A follow pass keeps the index sound

What a pass has read is in its buffers, in the segment being written, or
published; and at every publication the frontier is the first document that
is in none of these. So every publication of a pass keeps `Sound`.
-/

namespace Ferret

open List Option

section

variable (read : ℕ → Except Fault Extracted) (live : DocSet)

/-- What has become of the live documents of a range: they were read and are
held, or they are unreadable. -/
def Taken (has : ℕ → Extracted → Prop) (unreadable : List ℕ) (start stop : ℕ) : Prop :=
  ∀ d, start ≤ d → d < stop → live.contains d = true →
    (∃ x, read d = .ok x ∧ has d x) ∨ d ∈ unreadable

/-- The buffers hold what was extracted from `d`. -/
def Pass.Has (p : Pass) (d : ℕ) (x : Extracted) : Prop :=
  (∀ t ∈ x.terms, Inverter.Holds p.inverter.terms t d) ∧ ∀ k ∈ x.keys, (k, d) ∈ p.trigrams.pairs

/-- A pass has read the live documents from `start` up to `stop` into its
buffers. -/
structure Pass.Reads (p : Pass) (start stop : ℕ) : Prop where
  taken : Taken read live p.Has p.manifest.unreadable start stop
  range : ∀ r, p.range = some r → start ≤ r.1 ∧ r.1 ≤ r.2 ∧ r.2 < stop
  idle : p.range = none → ∀ d, start ≤ d → d < stop → live.contains d = false
  le : start ≤ stop

/-- A pair of segments covers the live documents from `start` up to `stop`. -/
structure WrittenPair.Covers (env : Env) (unreadable : List ℕ) (q : WrittenPair)
    (start stop : ℕ) : Prop where
  pair : q.Matches env.codec
  range : start ≤ q.entry.first ∧ q.entry.first ≤ q.entry.last ∧ q.entry.last < stop
  taken : Taken read live (q.Answers env.fingerprint) unreadable start stop

end

section

variable {read : ℕ → Except Fault Extracted} {live : DocSet} {env : Env}

theorem Taken.imp {has has' : ℕ → Extracted → Prop} {us us' : List ℕ} {start stop : ℕ}
    (h : Taken read live has us start stop) (hhas : ∀ d x, has d x → has' d x)
    (hus : ∀ d ∈ us, d < stop → d ∈ us') : Taken read live has' us' start stop := by
  intro d h₁ h₂ hl
  rcases h d h₁ h₂ hl with ⟨x, hx, hd⟩ | hd
  · exact .inl ⟨x, hx, hhas d x hd⟩
  · exact .inr (hus d hd h₂)

/-- Dead documents need no reading. -/
theorem Pass.Reads.skip {p : Pass} {start stop stop' : ℕ} (h : p.Reads read live start stop)
    (hle : stop ≤ stop') (hdead : ∀ d, stop ≤ d → d < stop' → live.contains d = false) :
    p.Reads read live start stop' where
  taken := fun d h₁ h₂ hl => by
    rcases lt_or_ge d stop with hlt | hge
    · exact h.taken d h₁ hlt hl
    · rw [hdead d hge h₂] at hl
      cases hl
  range := fun r hr => by
    have := h.range r hr
    omega
  idle := fun hr d h₁ h₂ => by
    rcases lt_or_ge d stop with hlt | hge
    · exact h.idle hr d h₁ hlt
    · exact hdead d hge h₂
  le := h.le.trans hle

/-! ## Sealing -/

/-- What a written pair comes from. -/
theorem prepare_pair_ok {number docs : ℕ} {range : ℕ × ℕ} {terms trigrams : Draft}
    {q : WrittenPair} (h : prepare_pair env number docs range terms trigrams = .ok q) :
    q.Matches env.codec ∧ (q.entry.number = number ∧ q.entry.first = range.1 ∧ q.entry.last = range.2)
      ∧ (q.segment.terms = terms.terms ∧ q.segment.records = terms.records)
      ∧ q.trigram.terms = trigrams.terms ∧ q.trigram.records = trigrams.records := by
  unfold prepare_pair at h
  split at h
  · rename_i segment trigram hs ht
    split at h
    · rename_i hrange
      cases h
      obtain ⟨⟨-, -, hsc⟩, hst, hsr⟩ := Stored.ofDraft_eq_some hs
      obtain ⟨⟨-, -, htc⟩, htt, htr⟩ := Stored.ofDraft_eq_some ht
      have h₁ := Prod.ext_iff.mp hrange.1
      have h₂ := Prod.ext_iff.mp hrange.2
      exact ⟨⟨h₁, h₂, hsc, htc⟩, ⟨rfl, rfl, rfl⟩, ⟨hst, hsr⟩, htt, htr⟩
    · cases h
  · cases h

/-- **A sealed segment covers what the pass had read.** -/
theorem Pass.seal_covers {p p' : Pass} {r : ℕ × ℕ} {drained : Drained} {q : WrittenPair}
    {start stop : ℕ} (hreads : p.Reads read live start stop) (hr : p.range = some r)
    (hseal : p.seal_segment env r = .ok (drained, p')) (hwrite : drained.write env = .ok q) :
    q.Covers read live env p.manifest.unreadable start stop
      ∧ q.entry.number = p.manifest.next_number := by
  simp only [seal_segment, bind, Except.bind] at hseal
  split at hseal
  · cases hseal
  rename_i terms hterms
  split at hseal
  · cases hseal
  rename_i trigrams htrigrams
  cases hseal
  simp only [Drained.write, bind, Except.bind] at hwrite
  cases hf : terms.finish with
  | error e =>
    rw [hf] at hwrite
    cases hwrite
  | ok _ =>
    cases hg : trigrams.finish with
    | error e =>
      rw [hf, hg] at hwrite
      cases hwrite
    | ok _ =>
      rw [hf, hg] at hwrite
      obtain ⟨hmatch, ⟨hnumber, hfirst, hlast⟩, ⟨hst, hsr⟩, htt, -⟩ := prepare_pair_ok hwrite
      refine ⟨⟨hmatch, ?_, hreads.taken.imp (fun d x hx => ⟨fun t ht => ?_, fun k hk => ?_⟩)
        fun d hd _ => hd⟩, hnumber⟩
      · rw [hfirst, hlast]
        exact hreads.range r hr
      · refine Contents.mem_lookup.mpr ?_
        rcases Inverter.drain_holds hterms hf (hx.1 t ht) with hold | hrec
        · exact .inl (Contents.docsOf_of_holds (hst ▸ hold))
        · exact .inr (hsr ▸ hrec)
      · have hold := (TrigramInverter.drain_holds htrigrams hg).2 k d (hx.2 k hk)
        exact Contents.docsOf_of_holds (htt ▸ hold)

/-- What sealing leaves of the pass. -/
theorem Pass.seal_rest {p p' : Pass} {r : ℕ × ℕ} {drained : Drained}
    (hseal : p.seal_segment env r = .ok (drained, p')) :
    p' = { p with
      manifest := { p.manifest with next_number := p.manifest.next_number + 1 }
      inverter := .new
      trigrams := .new
      docs := 0 } := by
  simp only [seal_segment, bind, Except.bind] at hseal
  split at hseal
  · cases hseal
  split at hseal
  · cases hseal
  cases hseal
  rfl

/-! ## Adding a document -/

theorem PairBuffer.add_pairs {trigrams trigrams' : TrigramInverter} {doc : ℕ} {keys : List ℕ}
    {oversized : Bool} (h : add trigrams doc keys = .ok (trigrams', oversized)) :
    trigrams'.pairs = trigrams.pairs ++ keys.map fun number => (number, doc) := by
  simp only [add, bind, Except.bind] at h
  split at h
  · cases h
  rename_i admitted hadmit
  cases admitted with
  | some t =>
    cases h
    exact TrigramInverter.add_keys_some hadmit
  | none =>
    simp only at h
    split at h
    · cases h
    rename_i more hmore
    cases h
    have hsome : ∃ t, more = some t := by
      unfold TrigramInverter.add_keys at hmore
      split at hmore
      · cases hmore
      · simp only [any_none, Bool.false_eq_true, if_false] at hmore
        cases hmore
        exact ⟨_, rfl⟩
    obtain ⟨t, rfl⟩ := hsome
    exact TrigramInverter.add_keys_some hmore

/-- What `reach` leaves: the range up to `doc`, and a stop just past it if the
pass stops. -/
theorem Pass.reach_eq (p : Pass) (doc : ℕ) :
    ∃ stopped, p.reach doc = ({ p with
        range := some ((p.range.map Prod.fst).getD doc, doc)
        followed := { p.followed with stopped := stopped }
        frontier := if p.oversized then doc + 1 else p.frontier }, !p.oversized) := by
  unfold reach
  cases ho : p.oversized with
  | true => exact ⟨.buffer, rfl⟩
  | false => exact ⟨p.followed.stopped, rfl⟩

/-- **Adding a document.** The pass has then read it, or stops before it. -/
theorem Pass.add_reads {p p' : Pass} {start doc : ℕ} {go : Bool}
    (hreads : p.Reads read live start doc) (h : p.add doc (read doc) = .ok (p', go)) :
    ∃ pos new, p'.Reads read live start pos
      ∧ p'.manifest = { p.manifest with unreadable := p.manifest.unreadable ++ new }
      ∧ (new.Pairwise (· < ·) ∧ ∀ u ∈ new, doc ≤ u ∧ u < pos)
      ∧ (doc ≤ pos ∧ pos ≤ doc + 1)
      ∧ (go = true → pos = doc + 1 ∧ p'.frontier = p.frontier) ∧ (go = false → p'.frontier = pos) := by
  -- reading `doc` extends whatever was held, whichever buffers it went to
  have hextend : ∀ q : Pass, q.range = p.range → (∀ d x, p.Has d x → q.Has d x) →
      (∀ u ∈ p.manifest.unreadable, u ∈ q.manifest.unreadable) →
      ((∃ x, read doc = .ok x ∧ q.Has doc x) ∨ doc ∈ q.manifest.unreadable) →
      (q.reach doc).1.Reads read live start (doc + 1) := by
    intro q hrange hhas hus hdoc
    obtain ⟨stopped, hreach⟩ := q.reach_eq doc
    rw [hreach]
    refine ⟨fun d h₁ h₂ hl => ?_, fun r hr => ?_, nofun,
      hreads.le.trans (Nat.le_succ _)⟩
    · rcases Nat.lt_succ_iff_lt_or_eq.mp h₂ with hlt | rfl
      · rcases hreads.taken d h₁ hlt hl with ⟨x, hx, hd⟩ | hd
        · exact .inl ⟨x, hx, hhas d x hd⟩
        · exact .inr (hus d hd)
      · exact hdoc
    · cases hr
      show start ≤ (q.range.map Prod.fst).getD doc ∧ _
      have hle := hreads.le
      rw [hrange]
      cases hp : p.range with
      | none => exact ⟨hle, le_rfl, Nat.lt_succ_self _⟩
      | some r =>
        have := hreads.range r hp
        exact ⟨this.1, show r.1 ≤ doc by omega, Nat.lt_succ_self _⟩
  cases hread : read doc with
  | error fault =>
    rw [hread] at h
    cases fault with
    | stop =>
      cases h
      exact ⟨doc, [], ⟨hreads.taken, hreads.range, hreads.idle, hreads.le⟩,
        by rw [append_nil]; rfl, ⟨.nil, nofun⟩,
        ⟨le_rfl, Nat.le_succ _⟩, nofun, fun _ => rfl⟩
    | unreadable =>
      set q : Pass := { p with
        manifest := { p.manifest with unreadable := p.manifest.unreadable ++ [doc] }
        followed := { p.followed with unreadable := p.followed.unreadable + 1 } } with hq
      have hp : q.reach doc = (p', go) := Except.ok.inj h
      have hr := hextend q rfl (fun d x hx => hx) (fun u hu => mem_append_left _ hu)
        (.inr (mem_append_right _ (mem_singleton_self doc)))
      obtain ⟨stopped, hreach⟩ := q.reach_eq doc
      rw [hp] at hr
      rw [hreach] at hp
      cases hp
      refine ⟨doc + 1, [doc], hr, rfl, ⟨pairwise_singleton _ _, fun u hu => ?_⟩,
        ⟨Nat.le_succ _, le_rfl⟩, fun hgo => ⟨rfl, ?_⟩, fun hgo => ?_⟩
      · rw [mem_singleton.mp hu]
        exact ⟨le_rfl, Nat.lt_succ_self _⟩
      · exact if_neg (by simpa using hgo)
      · exact if_pos (by simpa using hgo)
  | ok x =>
    rw [hread] at h
    simp only [add, bind, Except.bind] at h
    split at h
    · cases h
    rename_i added hadd
    obtain ⟨trigrams, oversized⟩ := added
    simp only at h
    split at h
    · cases h
    rename_i inverter hterms
    set q : Pass := { p with
      trigrams := trigrams
      inverter := inverter
      oversized := p.oversized || oversized
      docs := p.docs + 1
      followed := { p.followed with
        docs := p.followed.docs + 1
        bytes := p.followed.bytes + x.len } } with hq
    have hp : q.reach doc = (p', go) := Except.ok.inj h
    have hpairs := PairBuffer.add_pairs hadd
    have hr := hextend q rfl
      (fun d y hy => ⟨fun t ht => Inverter.holds_addAll hterms (.inl (hy.1 t ht)),
        fun k hk => by
          show (k, d) ∈ trigrams.pairs
          rw [hpairs]
          exact mem_append_left _ (hy.2 k hk)⟩)
      (fun u hu => hu)
      (.inl ⟨x, hread, fun t ht => Inverter.holds_addAll hterms (.inr ⟨ht, rfl⟩), fun k hk => by
        show (k, doc) ∈ trigrams.pairs
        rw [hpairs]
        exact mem_append_right _ (List.mem_map.mpr ⟨k, hk, rfl⟩)⟩)
    obtain ⟨stopped, hreach⟩ := q.reach_eq doc
    rw [hp] at hr
    rw [hreach] at hp
    cases hp
    refine ⟨doc + 1, [], hr, by rw [append_nil], ⟨.nil, nofun⟩,
      ⟨Nat.le_succ _, le_rfl⟩, fun hgo => ⟨rfl, ?_⟩, fun hgo => ?_⟩
    · exact if_neg (by simpa using hgo)
    · exact if_pos (by simpa using hgo)

end

/-! ## Publishing what was read -/

section

variable {env : Env} {catalog : CatalogView} {seen : List CatalogView} {s : View × Log}

/-- **Publishing at the end of the list**: one more pair of segments, over the
documents the frontier passes, or none where they are all dead. -/
theorem Sound.append (h : Sound env.fingerprint env.codec seen s)
    (read : ℕ → Except Fault Extracted) (hseen : catalog ∈ seen)
    (hinc : s.1.manifest.incarnation = catalog.incarnation) {q : Option WrittenPair} {m : Manifest}
    (hsegments : m.segments = s.1.manifest.segments ++ (q.map WrittenPair.entry).toList)
    (hminc : m.incarnation = s.1.manifest.incarnation)
    (hle : s.1.manifest.frontier ≤ m.frontier) (hbound : m.frontier ≤ catalog.live.bound)
    (hhigh : m.frontier ≤ m.high_water) (hnumber : s.1.manifest.next_number ≤ m.next_number)
    (hsorted : m.unreadable.Pairwise (· < ·)) (hbelow : ∀ u ∈ m.unreadable, u < m.frontier)
    (hkept : ∀ u ∈ s.1.manifest.unreadable, catalog.live.contains u = true → u ∈ m.unreadable)
    (hq : ∀ p, q = some p →
      p.Covers read catalog.live env m.unreadable s.1.manifest.frontier m.frontier
        ∧ s.1.manifest.next_number ≤ p.entry.number ∧ p.entry.number < m.next_number)
    (hnone : q = none → ∀ d, s.1.manifest.frontier ≤ d → d < m.frontier →
      catalog.live.contains d = false) :
    let w : View := { manifest := { m with sequence := m.sequence + 1 }
                      segments := s.1.segments ++ (q.map WrittenPair.segment).toList
                      trigrams := s.1.trigrams ++ (q.map WrittenPair.trigram).toList }
    Publication s.1 w ∧ Sound env.fingerprint env.codec seen (accept read catalog.live s w) := by
  intro w
  obtain ⟨ps, hps⟩ := h.opens
  have hopens : w.Opens env.codec (ps ++ q.toList) := by
    refine ⟨?_, ?_, ?_, fun p hp => ?_⟩
    · show m.segments = _
      rw [hsegments, hps.entries, map_append]
      cases q <;> rfl
    · show s.1.segments ++ _ = _
      rw [hps.segments, map_append]
      cases q <;> rfl
    · show s.1.trigrams ++ _ = _
      rw [hps.trigrams, map_append]
      cases q <;> rfl
    · rcases mem_append.mp hp with hp | hp
      · exact hps.pairs p hp
      · exact (hq p (mem_toList.mp hp)).1.pair
  have hconsistent : w.manifest.Consistent := by
    refine ⟨fun e he => ?_, ?_, ?_, hsorted, hbelow, hhigh⟩
    · have he : e ∈ m.segments := he
      rw [hsegments] at he
      show e.first ≤ e.last ∧ e.last < m.frontier ∧ e.number < m.next_number
      rcases mem_append.mp he with he | he
      · have := h.consistent.ranges e he
        omega
      · obtain ⟨p, hp, rfl⟩ := map_eq_some_iff.mp (mem_toList.mp he)
        obtain ⟨hcov, -, hn⟩ := hq p hp
        exact ⟨hcov.range.2.1, hcov.range.2.2, hn⟩
    · show m.segments.Pairwise _
      rw [hsegments]
      refine pairwise_append.mpr ⟨h.consistent.disjoint, by cases q <;> simp, fun a ha b hb => ?_⟩
      obtain ⟨p, hp, rfl⟩ := map_eq_some_iff.mp (mem_toList.mp hb)
      exact (h.consistent.ranges a ha).2.1.trans_le (hq p hp).1.range.1
    · show (m.segments.map SegmentEntry.number).Nodup
      rw [hsegments, map_append, nodup_append]
      refine ⟨h.consistent.numbers, by cases q <;> simp, fun a ha b hb => ?_⟩
      obtain ⟨e, he, rfl⟩ := List.mem_map.mp ha
      obtain ⟨_, he', rfl⟩ := List.mem_map.mp hb
      obtain ⟨p, hp, rfl⟩ := map_eq_some_iff.mp (mem_toList.mp he')
      exact ne_of_lt ((h.consistent.ranges e he).2.2.trans_le (hq p hp).2.1)
  have hpub : Publication s.1 w := .of hps hopens h.consistent hconsistent fun p hp => by
    rcases mem_append.mp hp with hp | hp
    · exact .inl hp
    · exact .inr (hq p (mem_toList.mp hp)).2.1
  refine ⟨hpub, h.publish hseen hinc hminc hconsistent ⟨_, hopens⟩ hle hbound hkept
    (fun d _ _ _ => ⟨fun t ht => ?_, fun k hk => ?_⟩) fun d h₁ h₂ hl => ?_⟩
  · obtain ⟨p, hp, hd⟩ := hps.mem_lookup.mp ht
    exact hopens.mem_lookup.mpr ⟨p, mem_append_left _ hp, hd⟩
  · obtain ⟨p, hp, hd⟩ := hps.mem_lookup_trigram.mp hk
    exact hopens.mem_lookup_trigram.mpr ⟨p, mem_append_left _ hp, hd⟩
  · cases hqq : q with
    | none =>
      rw [hnone hqq d h₁ h₂] at hl
      cases hl
    | some p =>
      refine ((hq p hqq).1.taken d h₁ h₂ hl).imp (fun ⟨x, hx, ha⟩ => ⟨x, hx, ?_⟩) id
      exact hopens.answers (mem_append_right _ (by rw [hqq]; exact mem_singleton_self p)) ha

end

/-! ## The pass -/

/-- The first document the buffers may hold. -/
def Following.start (f : Following) : ℕ :=
  match f.writing with
  | none => f.current.manifest.frontier
  | some (_, frontier) => frontier

section

variable (env : Env) (host : Host) (catalog : CatalogView) (seen : List CatalogView)

/-- **The state of a pass that has read up to `pos`.** -/
structure Following.Inv (f : Following) (s : View × Log) (pos : ℕ) : Prop where
  sound : Sound env.fingerprint env.codec seen s
  current : f.current = s.1
  incarnation : s.1.manifest.incarnation = catalog.incarnation
  segments : f.pass.manifest.segments = s.1.manifest.segments
  frontier : f.pass.manifest.frontier = s.1.manifest.frontier
  same : f.pass.manifest.incarnation = s.1.manifest.incarnation
  number : s.1.manifest.next_number ≤ f.pass.manifest.next_number
  kept : ∀ u ∈ s.1.manifest.unreadable, catalog.live.contains u = true →
    u ∈ f.pass.manifest.unreadable
  sorted : f.pass.manifest.unreadable.Pairwise (· < ·)
  below : ∀ u ∈ f.pass.manifest.unreadable, u < pos
  pos_le : pos ≤ catalog.live.bound
  reads : f.pass.Reads host.read catalog.live f.start pos
  handed : ∀ written frontier, f.writing = some (written, frontier) →
    s.1.manifest.frontier ≤ frontier ∧ ∀ q, written = .ok q →
      q.Covers host.read catalog.live env f.pass.manifest.unreadable s.1.manifest.frontier frontier
        ∧ s.1.manifest.next_number ≤ q.entry.number
        ∧ q.entry.number < f.pass.manifest.next_number

end

/-- Every publication is one, and keeps the index sound, and `post` holds at the
end. -/
abbrev Keeps {α : Type} (env : Env) (read : ℕ → Except Fault Extracted) (catalog : CatalogView)
    (seen : List CatalogView) (x : Writing α) (s : View × Log) (post : α → View × Log → Prop) :
    Prop :=
  Publishing.Spec (accept read catalog.live) (Sound env.fingerprint env.codec seen)
    (fun s w => Publication s.1 w) x s post

section

variable {env : Env} {host : Host} {catalog : CatalogView} {seen : List CatalogView}
variable {budget : Budget} {f : Following} {s : View × Log} {pos doc : ℕ}
variable {read : ℕ → Except Fault Extracted}

namespace Following

/-- Dead documents are passed over. -/
theorem Inv.skip (h : f.Inv env host catalog seen s pos) (hle : pos ≤ doc)
    (hbound : doc ≤ catalog.live.bound)
    (hdead : ∀ d, pos ≤ d → d < doc → catalog.live.contains d = false) :
    f.Inv env host catalog seen s doc :=
  { h with
    below := fun u hu => (h.below u hu).trans_le hle
    pos_le := hbound
    reads := h.reads.skip hle hdead }

/-- **The segment on the second thread is published** with the frontier it was
handed over at. -/
theorem publish_writing_keeps (hseen : catalog ∈ seen) (h : f.Inv env host catalog seen s pos) :
    Keeps env host.read catalog seen (f.publish_writing host catalog.live) s fun f' s' =>
      f'.Inv env host catalog seen s' pos ∧ f'.writing = none
        ∧ f'.pass.frontier = f.pass.frontier ∧ f'.pass.range = f.pass.range := by
  unfold publish_writing
  cases hw : f.writing with
  | none => exact .pure h.sound ⟨h, hw, rfl, rfl⟩
  | some handed =>
    obtain ⟨written, frontier⟩ := handed
    obtain ⟨hle, hcovers⟩ := h.handed written frontier hw
    have hstart : f.start = frontier := by rw [start, hw]
    have hfpos : frontier ≤ pos := hstart ▸ h.reads.le
    unfold publish_written
    refine .bind (M := fun q s' => s = s' ∧ written = .ok q)
      (.lift h.sound fun q hq => ⟨rfl, hq⟩) fun q s' => ?_
    rintro ⟨rfl, hok⟩
    obtain ⟨hcov, hnum, hnum'⟩ := hcovers q hok
    refine .bind (M := fun v s₁ => v = s₁.1 ∧ f.Inv env host catalog seen s pos
      ∧ s₁ = accept host.read catalog.live s v ∧ Sound env.fingerprint env.codec seen s₁
      ∧ v.manifest.segments = s.1.manifest.segments ++ [q.entry] ∧ v.manifest.frontier = frontier
      ∧ v.manifest.incarnation = s.1.manifest.incarnation
      ∧ v.manifest.next_number = f.pass.manifest.next_number
      ∧ v.manifest.unreadable = f.pass.manifest.unreadable.filter (· < frontier)) ?_ ?_
    · obtain ⟨hpub, hsound⟩ := h.sound.append host.read hseen h.incarnation (q := some q)
        (m := { f.pass.manifest with
          segments := f.pass.manifest.segments ++ [q.entry]
          frontier := frontier
          high_water := max f.pass.manifest.high_water catalog.live.bound
          last_follow := some (host.clock f.pass.manifest.sequence)
          unreadable := f.pass.manifest.unreadable.filter (· < frontier) })
        (by rw [h.segments]; rfl) h.same hle (hfpos.trans h.pos_le)
        ((hfpos.trans h.pos_le).trans (le_max_right ..)) h.number
        (h.sorted.filter _) (fun u hu => of_decide_eq_true (mem_filter.mp hu).2)
        (fun u hu hl => mem_filter.mpr ⟨h.kept u hu hl,
          decide_eq_true ((h.sound.consistent.below u hu).trans_le hle)⟩)
        (fun p hp => by
          cases hp
          refine ⟨⟨hcov.pair, hcov.range, hcov.taken.imp (fun d x hx => hx) fun d hd hlt => ?_⟩,
            hnum, hnum'⟩
          exact mem_filter.mpr ⟨hd, decide_eq_true hlt⟩)
        nofun
      rw [h.current]
      refine .publish h.sound hpub hsound ⟨rfl, h, rfl, hsound, ?_, rfl, h.same, rfl, rfl⟩
      show f.pass.manifest.segments ++ [q.entry] = _
      rw [h.segments]
    · rintro v s₁ ⟨rfl, -, -, hsound, hsegs, hfront, hinc, hnext, hus⟩
      refine .pure hsound ⟨?_, rfl, rfl, rfl⟩
      refine ⟨hsound, rfl, hinc.trans h.incarnation, ?_, hfront.symm, h.same.trans hinc.symm,
        hnext.le, fun u hu _ => ?_, h.sorted, h.below, h.pos_le, ?_, nofun⟩
      · show f.pass.manifest.segments ++ [q.entry] = _
        rw [h.segments, hsegs]
      · rw [hus] at hu
        exact (mem_filter.mp hu).1
      · have hreads := h.reads
        rw [hstart, ← hfront] at hreads
        exact ⟨hreads.taken, hreads.range, hreads.idle, hreads.le⟩

/-- **The full buffers are handed over** before `doc`. -/
theorem hand_off_keeps (hseen : catalog ∈ seen) (h : f.Inv env host catalog seen s doc) :
    Keeps env host.read catalog seen (f.hand_off env host catalog.live doc) s fun f' s' =>
      f'.Inv env host catalog seen s' doc ∧ f'.pass.frontier = f.pass.frontier := by
  unfold hand_off
  cases hr : f.pass.range with
  | none => exact .pure h.sound ⟨h, rfl⟩
  | some r =>
    refine .bind (publish_writing_keeps hseen h) ?_
    rintro f₁ s₁ ⟨h₁, hnone, hfront, hrange⟩
    rw [hr] at hrange
    have hstart : f₁.start = s₁.1.manifest.frontier := by rw [start, hnone, h₁.current]
    refine .bind (M := fun sealed s' => s₁ = s' ∧ f₁.pass.seal_segment env r = .ok sealed)
      (.lift h₁.sound fun sealed hs => ⟨rfl, ?_⟩) ?_
    · cases hseal : f₁.pass.seal_segment env r with
      | error e =>
        rw [hseal] at hs
        cases hs
      | ok _ =>
        rw [hseal] at hs
        exact congrArg Except.ok (Except.ok.inj hs)
    · rintro ⟨_, p⟩ s' ⟨rfl, hseal⟩
      obtain rfl := Pass.seal_rest hseal
      refine .pure h₁.sound ⟨?_, hfront⟩
      refine { h₁ with
        number := h₁.number.trans (Nat.le_succ _)
        reads := ⟨fun d hge hlt => absurd hge (not_le.mpr hlt), nofun,
          fun _ d hge hlt => absurd hge (not_le.mpr hlt), le_rfl⟩
        handed := fun written frontier hw => ?_ }
      cases hw
      refine ⟨hstart ▸ h₁.reads.le, fun q hq => ?_⟩
      obtain ⟨hcov, hnum⟩ := Pass.seal_covers h₁.reads hrange hseal hq
      rw [hstart] at hcov
      exact ⟨hcov, hnum ▸ h₁.number, hnum ▸ Nat.lt_succ_self _⟩

/-- What one document leaves: the pass has read it, or stops there. -/
def After (env : Env) (host : Host) (catalog : CatalogView) (seen : List CatalogView)
    (frontier doc : ℕ) (r : Following × Bool) (s : View × Log) : Prop :=
  ∃ pos, r.1.Inv env host catalog seen s pos
    ∧ (r.2 = true → pos = doc + 1 ∧ r.1.pass.frontier = frontier)
    ∧ (r.2 = false → r.1.pass.frontier = pos)

theorem add_keeps (h : f.Inv env host catalog seen s doc)
    (hlive : catalog.live.contains doc = true) :
    Keeps env host.read catalog seen (f.add host doc) s
      (After env host catalog seen f.pass.frontier doc) := by
  unfold add
  refine .bind (M := fun r s' => s = s' ∧ f.pass.add doc (host.read doc) = .ok r)
    (.lift h.sound fun r hr => ⟨rfl, ?_⟩) ?_
  · cases hadd : f.pass.add doc (host.read doc) with
    | error e =>
      rw [hadd] at hr
      cases hr
    | ok _ =>
      rw [hadd] at hr
      exact congrArg Except.ok (Except.ok.inj hr)
  · rintro ⟨p, _⟩ s' ⟨rfl, hadd⟩
    obtain ⟨pos, _, hreads, hm, ⟨hsorted, hnew⟩, ⟨hge, _⟩, hgo, hstop⟩ :=
      Pass.add_reads h.reads hadd
    have hin : ∀ u ∈ f.pass.manifest.unreadable, u ∈ p.manifest.unreadable := fun u hu => by
      rw [hm]
      exact mem_append_left _ hu
    have hbound := DocSet.lt_bound_of_contains hlive
    refine .pure h.sound ⟨pos, ?_, hgo, hstop⟩
    refine { h with
      segments := by rw [hm]; exact h.segments
      frontier := by rw [hm]; exact h.frontier
      same := by rw [hm]; exact h.same
      number := by rw [hm]; exact h.number
      kept := fun u hu hl => hin u (h.kept u hu hl)
      sorted := ?_
      below := ?_
      pos_le := by omega
      reads := hreads
      handed := fun written frontier hw => ?_ }
    · show p.manifest.unreadable.Pairwise _
      rw [hm]
      exact pairwise_append.mpr ⟨h.sorted, hsorted,
        fun a ha b hb => (h.below a ha).trans_le (hnew b hb).1⟩
    · show ∀ u ∈ p.manifest.unreadable, u < pos
      rw [hm]
      intro u hu
      rcases mem_append.mp hu with hu | hu
      · exact (h.below u hu).trans_le hge
      · exact (hnew u hu).2
    · obtain ⟨hfr, hq⟩ := h.handed written frontier hw
      refine ⟨hfr, fun q hok => ?_⟩
      obtain ⟨hcov, h₁, h₂⟩ := hq q hok
      refine ⟨⟨hcov.pair, hcov.range, hcov.taken.imp (fun d x hx => hx) fun d hd _ => hin d hd⟩, h₁, ?_⟩
      show q.entry.number < p.manifest.next_number
      rw [hm]
      exact h₂

theorem step_keeps (hseen : catalog ∈ seen) (h : f.Inv env host catalog seen s doc)
    (hlive : catalog.live.contains doc = true) :
    Keeps env host.read catalog seen (f.step env host budget catalog.live doc) s
      (After env host catalog seen f.pass.frontier doc) := by
  unfold step
  split
  · exact .pure h.sound ⟨doc, { h with
      reads := ⟨h.reads.taken, h.reads.range, h.reads.idle, h.reads.le⟩ },
      nofun, fun _ => rfl⟩
  · refine .bind (hand_off_keeps hseen h) ?_
    rintro _ _ ⟨h₁, hfront⟩
    rw [← hfront]
    exact add_keeps h₁ hlive
  · exact add_keeps h hlive

/-- **The documents in order.** The induction is on those left: before each,
everything live below it has been read. -/
theorem consume_keeps (hseen : catalog ∈ seen) {order : List ℕ}
    (h : f.Inv env host catalog seen s pos) (hfront : f.pass.frontier = catalog.live.bound)
    (hsorted : order.Pairwise (· < ·))
    (horder : ∀ d, d ∈ order ↔ pos ≤ d ∧ catalog.live.contains d = true) :
    Keeps env host.read catalog seen (f.consume env host budget catalog.live order) s fun f' s' =>
      f'.Inv env host catalog seen s' f'.pass.frontier := by
  induction order generalizing f s pos with
  | nil =>
    refine .pure h.sound ?_
    rw [hfront]
    refine h.skip h.pos_le le_rfl fun d hge _ => ?_
    cases hl : catalog.live.contains d with
    | false => rfl
    | true => exact absurd ((horder d).mpr ⟨hge, hl⟩) not_mem_nil
  | cons doc _ ih =>
    obtain ⟨hrest, hsorted'⟩ := pairwise_cons.mp hsorted
    obtain ⟨hge, hlive⟩ := (horder doc).mp (.head _)
    have hdoc := h.skip hge (DocSet.lt_bound_of_contains hlive).le fun d h₁ h₂ => by
      cases hl : catalog.live.contains d with
      | false => rfl
      | true =>
        rcases mem_cons.mp ((horder d).mpr ⟨h₁, hl⟩) with rfl | hmem
        · omega
        · have := hrest d hmem
          omega
    refine .bind (step_keeps hseen hdoc hlive) ?_
    rintro ⟨_, go⟩ _ ⟨_, h₁, hgo, hstop⟩
    cases go with
    | false =>
      refine .pure h₁.sound ?_
      rw [hstop rfl]
      exact h₁
    | true =>
      obtain ⟨rfl, hf⟩ := hgo rfl
      refine ih h₁ (hf.trans hfront) hsorted' fun d => ⟨fun hd => ?_, fun ⟨hd, hl⟩ => ?_⟩
      · exact ⟨hrest d hd, ((horder d).mp (.tail _ hd)).2⟩
      · rcases mem_cons.mp ((horder d).mpr ⟨by omega, hl⟩) with rfl | hmem
        · omega
        · exact hmem

/-- **What the pass read last is published** with the frontier it reached. -/
theorem publish_pass_keeps (hseen : catalog ∈ seen)
    (h : f.Inv env host catalog seen s f.pass.frontier) (hnone : f.writing = none) :
    Keeps env host.read catalog seen (f.publish_pass env host catalog.live) s fun _ _ => True := by
  have hstart : f.start = s.1.manifest.frontier := by rw [start, hnone, h.current]
  have hreads := hstart ▸ h.reads
  simp only [publish_pass]
  split
  · exact .pure h.sound trivial
  refine .bind (M := fun r s' => s = s' ∧ last_segment env f.pass = .ok r)
    (.lift h.sound fun r hr => ⟨rfl, hr⟩) ?_
  rintro ⟨q, p⟩ s' ⟨rfl, hlast⟩
  -- the segment, if there is one, is of what the pass has read
  have hseg : p.manifest.unreadable = f.pass.manifest.unreadable
      ∧ p.manifest.segments = f.pass.manifest.segments
      ∧ p.manifest.incarnation = f.pass.manifest.incarnation
      ∧ f.pass.manifest.next_number ≤ p.manifest.next_number
      ∧ (∀ q', q = some q' → q'.Covers host.read catalog.live env f.pass.manifest.unreadable
            s.1.manifest.frontier f.pass.frontier
          ∧ s.1.manifest.next_number ≤ q'.entry.number ∧ q'.entry.number < p.manifest.next_number)
      ∧ (q = none → f.pass.range = none) := by
    unfold last_segment at hlast
    cases hr : f.pass.range with
    | none =>
      rw [hr] at hlast
      cases hlast
      exact ⟨rfl, rfl, rfl, le_rfl, nofun, fun _ => rfl⟩
    | some r =>
      rw [hr] at hlast
      simp only [bind, Except.bind] at hlast
      cases hseal : f.pass.seal_segment env r with
      | error e =>
        rw [hseal] at hlast
        cases hlast
      | ok sealed =>
        obtain ⟨_, _⟩ := sealed
        rw [hseal] at hlast
        simp only [Except.mapError] at hlast
        split at hlast
        · cases hlast
        rename_i q' hwrite
        cases hlast
        obtain rfl := Pass.seal_rest hseal
        obtain ⟨hcov, hnum⟩ := Pass.seal_covers hreads hr hseal hwrite
        refine ⟨rfl, rfl, rfl, Nat.le_succ _, fun q'' hq => ?_, nofun⟩
        cases hq
        exact ⟨hcov, hnum ▸ h.number, hnum ▸ Nat.lt_succ_self _⟩
  obtain ⟨hus, hsegs, hinc, hnext, hq, hidle⟩ := hseg
  refine .bind (M := fun _ s' => Sound env.fingerprint env.codec seen s') ?_
    fun v s₁ hs₁ => .pure hs₁ trivial
  obtain ⟨hpub, hsound⟩ := h.sound.append host.read hseen h.incarnation (q := q)
    (m := { p.manifest with
      segments := p.manifest.segments ++ (q.map WrittenPair.entry).toList
      last_follow := some (host.clock p.manifest.sequence)
      frontier := f.pass.frontier
      high_water := max p.manifest.high_water catalog.live.bound })
    (by rw [hsegs, h.segments]) (hinc.trans h.same) hreads.le h.pos_le
    (h.pos_le.trans (le_max_right ..)) (h.number.trans hnext)
    (by rw [hus]; exact h.sorted) (by rw [hus]; exact h.below)
    (by rw [hus]; exact h.kept) (by rw [hus]; exact hq)
    (fun hn => hreads.idle (hidle hn))
  rw [h.current]
  exact .publish h.sound hpub hsound hsound

end Following

/-- **A follow pass keeps the index sound**, at each of its publications. -/
theorem follow_pass_keeps (hseen : catalog ∈ seen) (h : Sound env.fingerprint env.codec seen s)
    (hfits : s.1.manifest.fits catalog = true) :
    Keeps env host.read catalog seen (follow_pass env host budget catalog.live s.1) s fun _ _ => True := by
  have hfit : s.1.manifest.incarnation = catalog.incarnation
      ∧ s.1.manifest.high_water ≤ catalog.live.bound := by
    simp only [Manifest.fits, Bool.and_eq_true, decide_eq_true_eq] at hfits
    exact ⟨hfits.1.1.1, hfits.2⟩
  unfold follow_pass
  refine .bind (M := fun f s' => f.Inv env host catalog seen s' f.pass.frontier) ?_ ?_
  · have hinv : Following.Inv env host catalog seen
        { pass := Pass.new s.1.manifest catalog.live, writing := none, current := s.1 } s
        s.1.manifest.frontier := {
      sound := h
      current := rfl
      incarnation := hfit.1
      segments := rfl
      frontier := rfl
      same := rfl
      number := le_rfl
      kept := fun u hu hl => mem_filter.mpr ⟨hu, hl⟩
      sorted := h.consistent.unreadable.filter _
      below := fun u hu => h.consistent.below u (mem_filter.mp hu).1
      pos_le := h.consistent.frontier.trans hfit.2
      reads := ⟨fun d hge hlt => absurd hge (not_le.mpr hlt), nofun,
        fun _ d hge hlt => absurd hge (not_le.mpr hlt), le_rfl⟩
      handed := nofun }
    refine Following.consume_keeps hseen hinv rfl (catalog.live.pairwise_range _ _) fun d => ?_
    rw [DocSet.mem_range]
    exact ⟨fun hd => ⟨hd.1, hd.2.2⟩, fun hd => ⟨hd.1, DocSet.lt_bound_of_contains hd.2, hd.2⟩⟩
  · intro f s' hf
    refine .bind (Following.publish_writing_keeps hseen hf) ?_
    rintro _ _ ⟨h₁, hnone, hfront, -⟩
    exact Following.publish_pass_keeps hseen (hfront ▸ h₁) hnone

/-- An empty manifest is consistent. -/
theorem Manifest.empty_consistent (incarnation : Bytes) (n : ℕ) :
    { Manifest.empty incarnation with sequence := n }.Consistent where
  ranges := nofun
  disjoint := .nil
  numbers := nodup_nil
  unreadable := .nil
  below := nofun
  frontier := le_rfl

theorem manifest_only_keeps (h : Sound env.fingerprint env.codec seen s) (v : View) :
    Keeps env read catalog seen (manifest_only v (Manifest.empty catalog.incarnation)) s fun w s' =>
      w = s'.1 ∧ Sound env.fingerprint env.codec seen s' ∧ w.manifest.fits catalog = true := by
  set w : View := {
    manifest := { Manifest.empty catalog.incarnation with sequence := v.manifest.sequence + 1 }
    segments := []
    trigrams := [] } with hw
  have hopens : w.Opens env.codec [] := ⟨rfl, rfl, rfl, nofun⟩
  have hc : w.manifest.Consistent := Manifest.empty_consistent _ _
  have hsound : Sound env.fingerprint env.codec seen (accept read catalog.live s w) :=
    Sound.discard rfl hc hopens
  obtain ⟨_, hps⟩ := h.opens
  have hpub : Publication s.1 w := .of hps hopens h.consistent hc nofun
  refine .publish h hpub hsound ⟨rfl, hsound, ?_⟩
  simp [Manifest.fits, Manifest.empty]

theorem reconcile_keeps (h : Sound env.fingerprint env.codec seen s) :
    Keeps env read catalog seen (reconcile s.1 catalog) s fun w s' =>
      w = s'.1 ∧ Sound env.fingerprint env.codec seen s' ∧ w.manifest.fits catalog = true := by
  unfold reconcile
  split
  · rename_i hfits
    exact .pure h ⟨rfl, h, hfits⟩
  · exact manifest_only_keeps h s.1

theorem follow_inner_keeps (hseen : catalog ∈ seen) (h : Sound env.fingerprint env.codec seen s) :
    Keeps env host.read catalog seen (follow_inner env host budget catalog s.1) s fun _ _ => True := by
  unfold follow_inner
  refine .bind (reconcile_keeps h) ?_
  rintro v _ ⟨rfl, h₁, hfits⟩
  exact follow_pass_keeps hseen h₁ hfits

end

end Ferret
