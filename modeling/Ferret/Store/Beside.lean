import Ferret.Store.Alike

/-!
# One pass beside many calls

A follow pass that may write many segments hands a full buffer over and reads
on, so that while one segment is written the next is being filled, and what it
reads then is already in its manifest. Calls that may write one segment each
stop there, and start again from what they published.

`Tracks` puts the one beside the other: were the pass to publish what it has
handed over, it would be where the calls are. It is kept by a document
(`Tracks.add`) and by the hand-over (`Tracks.hand_off`), and from it
`Tracks.matches` compares what is published from there on.
-/

namespace Ferret

open List Following Publishing

section

variable (env : Env) (host : Host) (budget : Budget) (catalog : CatalogView)

/-- Successive follow calls. -/
def follow_each : ℕ → View → Writing View
  | 0, current => pure current
  | n + 1, current => do
    let call := follow_inner env host budget catalog current
    let _ ← call
    follow_each n (call.last current)

/-- The document bytes that can be read. -/
def readable_bytes (docs : List ℕ) : ℕ := (docs.map fun doc => readable_len (host.read doc)).sum

end

variable {rest : List ℕ}

/-- A range from its first document on, and from just past it. -/
theorem DocSet.range_cons {s : DocSet} {lo hi doc : ℕ} (h : s.range lo hi = doc :: rest) :
    s.range doc hi = doc :: rest ∧ s.range (doc + 1) hi = rest := by
  have hsorted := s.pairwise_range lo hi
  rw [h] at hsorted
  obtain ⟨hfirst, hrest⟩ := pairwise_cons.mp hsorted
  have hmem : ∀ d, d ∈ doc :: rest ↔ lo ≤ d ∧ d < hi ∧ s.contains d = true := fun d => by
    rw [← h, mem_range]
  have hdoc := (hmem doc).mp (.head _)
  constructor
  · refine (s.pairwise_range doc hi).eq_of_mem_iff hsorted fun d => ?_
    rw [mem_range, hmem]
    refine ⟨fun hd => ⟨hdoc.1.trans hd.1, hd.2⟩, fun hd => ⟨?_, hd.2⟩⟩
    rcases mem_cons.mp ((hmem d).mpr hd) with rfl | hd
    · exact le_rfl
    · exact (hfirst d hd).le
  · refine (s.pairwise_range (doc + 1) hi).eq_of_mem_iff hrest fun d => ?_
    rw [mem_range]
    constructor
    · intro hd
      have hlo : lo ≤ d := hdoc.1.trans (Nat.le_of_succ_le hd.1)
      rcases mem_cons.mp ((hmem d).mpr ⟨hlo, hd.2⟩) with rfl | hd'
      · exact absurd hd.1 (Nat.not_succ_le_self _)
      · exact hd'
    · intro hd
      exact ⟨hfirst d hd, ((hmem d).mp (.tail _ hd)).2⟩

/-! ## Side by side -/

/-- A manifest, but for the time of its last follow. -/
def Manifest.untimed (m : Manifest) : Manifest := { m with last_follow := none }

/-- **A pass that reads on, beside one that publishes each segment**: were it to
publish what it handed over, it would be where the other is. -/
structure Tracks (host : Host) (live : DocSet) (f g s : Following) (pending : List View) : Prop where
  settles : f.Settles host live pending s
  idle : g.writing = none
  current : s.current = g.current
  manifest : s.pass.manifest.untimed = g.pass.manifest.untimed
  alike : f.pass.Alike g.pass

/-- What the calls for one segment keep. -/
structure Single (catalog : CatalogView) (g : Following) (docs : List ℕ) : Prop where
  fresh : g.pass.range = none → g.pass = Pass.new g.current.manifest catalog.live
  fits : g.pass.manifest.fits catalog = true
  live : ∀ u ∈ g.pass.manifest.unreadable, catalog.live.contains u = true
  below : ∀ u ∈ g.pass.manifest.unreadable, ∀ d ∈ docs, u < d
  held : g.pass.docs ≠ 0 → g.pass.range.isSome = true
  empty : g.pass.docs = 0 → g.pass.trigrams.pairs = []
  frontier : g.pass.frontier = catalog.live.bound
  oversized : g.pass.oversized = false
  order : ∃ lo, docs = catalog.live.range lo catalog.live.bound

/-- A view with nothing left to follow. -/
structure View.Covered (catalog : CatalogView) (v : View) : Prop where
  fits : v.manifest.fits catalog = true
  frontier : v.manifest.frontier = catalog.live.bound
  live : ∀ u ∈ v.manifest.unreadable, catalog.live.contains u = true

section

variable {env : Env} {host : Host} {budget : Budget} {catalog : CatalogView}
variable {f g s : Following} {pending : List View}

theorem Following.closing_view_untimed (live : DocSet) (current : View) (frontier : ℕ)
    (m : Manifest) (pair : Option WrittenPair) :
    closing_view host live current frontier m pair
      = closing_view host live current frontier m.untimed pair := rfl

theorem Following.closing_fits {current : View} {frontier : ℕ} {m : Manifest}
    {pair : Option WrittenPair} (h : m.fits catalog = true) :
    (closing_view host catalog.live current frontier m pair).manifest.fits catalog = true := by
  unfold Manifest.fits at h ⊢
  simp only [Bool.and_eq_true, decide_eq_true_eq] at h ⊢
  exact ⟨h.1, max_le h.2 le_rfl⟩

theorem Following.finish_idle {live : DocSet} (h : g.writing = none) :
    g.finish env host live = g.publish_pass env host live := by
  have hnone : g.publish_writing host live = pure g := by
    rw [publish_writing, h]
  rw [finish, hnone, pure_bind]

/-- **The two end alike.** -/
theorem Tracks.finish {live : DocSet} (h : Tracks host live f g s pending)
    (hpruned : g.pass.range = none → f.pass.followed.pruned = g.pass.followed.pruned) :
    (f.finish env host live).published = pending ++ (g.finish env host live).published
      ∧ (f.finish env host live).result.isOk = (g.finish env host live).result.isOk := by
  have hf : f.finish env host live = {
      published := pending ++ (s.publish_pass env host live).published
      result := (s.publish_pass env host live).result } :=
    bind_ok (congrArg Publishing.result h.settles.publish) _ |>.trans
      (by rw [h.settles.publish])
  have hg : g.finish env host live = g.publish_pass env host live := finish_idle h.idle
  obtain ⟨halike, hsettled, -⟩ := h.settles.alike
  have halike : s.pass.Alike g.pass := halike.trans h.alike
  have hfrontier : s.pass.manifest.frontier = g.pass.manifest.frontier := by
    have huntimed := congrArg Manifest.frontier h.manifest
    exact huntimed
  have hidles : s.Idles ↔ g.Idles := by
    unfold Following.Idles
    rw [halike.range, halike.frontier, hfrontier]
    refine and_congr_right fun hrange => and_congr_right fun _ => ?_
    rw [hsettled, hpruned hrange]
  rw [hf, hg]
  by_cases hs : s.Idles
  · obtain ⟨a, ha⟩ : ∃ a, s.publish_pass env host live = { published := [], result := .ok a } :=
      publish_pass_idles hs
    obtain ⟨b, hb⟩ : ∃ b, g.publish_pass env host live = { published := [], result := .ok b } :=
      publish_pass_idles (hidles.mp hs)
    rw [ha, hb]
    exact ⟨rfl, rfl⟩
  · have hg' : ¬ g.Idles := fun hg' => hs (hidles.mpr hg')
    have hlast := @Following.last_segment_alike env _ _ halike
    rcases hlast with ⟨e, hp, hq⟩ | ⟨_, n, p', q', hp, hq, hp', hq'⟩
    · rw [publish_pass_error hs hp, publish_pass_error hg' hq]
      exact ⟨rfl, rfl⟩
    · obtain ⟨a, ha⟩ := @Following.publish_pass_ok env host live _ _ _ hs hp
      obtain ⟨b, hb⟩ := @Following.publish_pass_ok env host live _ _ _ hg' hq
      have huntimed : p'.manifest.untimed = q'.manifest.untimed := by
        rw [hp', hq']
        exact congrArg (fun m => { m with next_number := n }) h.manifest
      rw [ha, hb, h.current, halike.frontier, closing_view_untimed, huntimed,
        ← closing_view_untimed]
      exact ⟨rfl, rfl⟩

/-- **Both read a document on.** -/
theorem Tracks.add {live : DocSet} (h : Tracks host live f g s pending) {doc : ℕ}
    {x : Except Fault Extracted} {p' q' : Pass} {go : Bool} (hf : f.pass.Added doc x p' go)
    (hg : g.pass.Added doc x q' go) (halike : p'.Alike q')
    (hpast : ∀ w frontier, f.writing = some (w, frontier) → frontier ≤ doc) :
    ∃ s', Tracks host live { f with pass := p' } { g with pass := q' } s' pending := by
  have hmanifest : { s.pass.manifest with unreadable := p'.manifest.unreadable }.untimed
      = q'.manifest.untimed := by
    rw [hg.manifest, ← halike.unreadable]
    exact congrArg (fun m => { m with unreadable := p'.manifest.unreadable }) h.manifest
  cases h.settles with
  | idle hw =>
    refine ⟨{ f with pass := p' }, .idle hw, h.idle, h.current, ?_, halike⟩
    rw [← hmanifest, ← hf.manifest]
  | @written pair frontier hw =>
    have hle := hpast _ _ hw
    -- what is read now is past what was handed over
    have hfilter : p'.manifest.unreadable.filter (· < frontier)
        = f.pass.manifest.unreadable.filter (· < frontier) := by
      rcases hf.unreadable with hu | hu
      · rw [hu]
      · rw [hu, filter_append]
        have hdoc : ¬ doc < frontier := not_lt.mpr hle
        simp [hdoc]
    have hview : settled_view host live { f with pass := p' } pair frontier
        = f.settled_view host live pair frontier := by
      have hm : { p'.manifest with unreadable := p'.manifest.unreadable.filter (· < frontier) }
          = { f.pass.manifest with
            unreadable := f.pass.manifest.unreadable.filter (· < frontier) } := by
        rw [hfilter, hf.manifest]
      exact congrArg (fun m => closing_view host live f.current frontier m (some pair)) hm
    refine ⟨Following.settled host live { f with pass := p' } pair frontier, ?_, h.idle, ?_, ?_,
      halike⟩
    · exact hview ▸ .written hw
    · rw [← h.current]
      exact hview
    · rw [← hmanifest]
      show Manifest.untimed { p'.manifest with
        segments := p'.manifest.segments ++ [pair.entry]
        frontier := frontier
        high_water := max p'.manifest.high_water live.bound
        sequence := p'.manifest.sequence + 1 } = _
      rw [hf.manifest]
      rfl

/-- **The calls for one segment read a document on.** -/
theorem Single.add {doc : ℕ} (h : Single catalog g (doc :: rest)) {x : Except Fault Extracted}
    {q' : Pass} (hadd : g.pass.Added doc x q' true) :
    Single catalog { g with pass := q' } rest := by
  obtain ⟨lo, hlo⟩ := h.order
  have hsorted := catalog.live.pairwise_range lo catalog.live.bound
  have hdoc : catalog.live.contains doc = true := by
    have hmem : doc ∈ catalog.live.range lo catalog.live.bound := hlo ▸ .head _
    exact (DocSet.mem_range.mp hmem).2.2
  rw [← hlo] at hsorted
  have hlater := (pairwise_cons.mp hsorted).1
  have hrange := hadd.range
  refine ⟨fun hnone => ?_, ?_, fun u hu => ?_, fun u hu d hd => ?_, fun _ => hrange,
    hadd.empty h.empty, (hadd.goes rfl).1.trans h.frontier, (hadd.goes rfl).2,
    doc + 1, (DocSet.range_cons hlo.symm).2.symm⟩
  · have hnone : q'.range = none := hnone
    rw [hnone] at hrange
    cases hrange
  · show q'.manifest.fits catalog = true
    rw [hadd.manifest]
    exact h.fits
  · rcases hadd.unreadable with hkept | hmore
    · exact h.live u (hkept ▸ hu)
    · have hu : u ∈ g.pass.manifest.unreadable ++ [doc] := hmore ▸ hu
      rcases mem_append.mp hu with hu | hu
      · exact h.live u hu
      · rw [mem_singleton.mp hu]
        exact hdoc
  · rcases hadd.unreadable with hkept | hmore
    · exact h.below u (hkept ▸ hu) d (.tail _ hd)
    · have hu : u ∈ g.pass.manifest.unreadable ++ [doc] := hmore ▸ hu
      rcases mem_append.mp hu with hu | hu
      · exact h.below u hu d (.tail _ hd)
      · rw [mem_singleton.mp hu]
        exact hlater d hd

/-- What a pass with something to publish ends with. -/
theorem Following.finish_ok (hidle : g.writing = none) (hsome : ¬ g.Idles) {live : DocSet}
    (hok : (g.finish env host live).result.isOk = true) :
    ∃ pair p n followed, last_segment env g.pass = .ok (pair, p)
      ∧ p.manifest = { g.pass.manifest with next_number := n }
      ∧ g.finish env host live = {
          published := [closing_view host live g.current g.pass.frontier p.manifest pair]
          result := .ok followed } := by
  have hg : g.finish env host live = g.publish_pass env host live := finish_idle hidle
  have hlast := @Following.last_segment_alike env _ _ (Pass.Alike.refl g.pass)
  rcases hlast with ⟨e, hp, -⟩ | ⟨pair, n, p, -, hp, -, hmanifest, -⟩
  · rw [hg, publish_pass_error hsome hp] at hok
    cases hok
  · obtain ⟨followed, ha⟩ := @Following.publish_pass_ok env host live _ _ _ hsome hp
    exact ⟨pair, p, n, followed, hp, hmanifest, hg.trans ha⟩

/-- A pass that has read everything leaves nothing to follow. -/
theorem Single.finish_covered (h : Single catalog g []) (hidle : g.writing = none)
    (hok : (g.finish env host catalog.live).result.isOk = true) :
    ((g.finish env host catalog.live).last g.current).Covered catalog := by
  by_cases hsome : g.Idles
  · have hg : (g.finish env host catalog.live).published = [] := by
      obtain ⟨a, ha⟩ : ∃ a, g.publish_pass env host catalog.live
          = { published := [], result := .ok a } := publish_pass_idles hsome
      rw [finish_idle hidle, ha]
    rw [Publishing.last, hg]
    show g.current.Covered catalog
    have hfresh := h.fresh hsome.1
    have hfilter : g.current.manifest.unreadable.filter catalog.live.contains
        = g.current.manifest.unreadable := by
      have hpruned : g.pass.followed.pruned = 0 := hsome.2.2
      rw [hfresh] at hpruned
      have hle : g.current.manifest.unreadable.length
          ≤ (g.current.manifest.unreadable.filter catalog.live.contains).length :=
        Nat.sub_eq_zero_iff_le.mp hpruned
      exact filter_sublist.eq_of_length_le hle
    refine ⟨?_, ?_, fun u hu => ?_⟩
    · have hfits := h.fits
      rw [hfresh] at hfits
      exact hfits
    · have hfrontier : g.pass.manifest.frontier = g.current.manifest.frontier := by
        rw [hfresh]
        rfl
      rw [← hfrontier, ← hsome.2.1, h.frontier]
    · rw [← hfilter] at hu
      exact (mem_filter.mp hu).2
  · obtain ⟨pair, p, n, _, -, hmanifest, hfinish⟩ := finish_ok hidle hsome hok
    rw [Publishing.last, hfinish]
    show (closing_view host catalog.live g.current g.pass.frontier p.manifest
      pair).Covered catalog
    rw [hmanifest]
    exact ⟨closing_fits h.fits, h.frontier, h.live⟩

/-- There is nothing to do where everything is covered. -/
theorem View.Covered.follow_each {v : View} (h : v.Covered catalog) (n : ℕ) :
    follow_each env host budget catalog n v = pure v := by
  induction n with
  | zero => rfl
  | succ n ih =>
    have hfilter : v.manifest.unreadable.filter catalog.live.contains = v.manifest.unreadable :=
      filter_eq_self.mpr h.live
    have hnone : catalog.live.range v.manifest.frontier catalog.live.bound = [] := by
      refine eq_nil_iff_forall_not_mem.mpr fun d hd => ?_
      have hd := DocSet.mem_range.mp hd
      rw [h.frontier] at hd
      exact absurd hd.2.1 (not_lt.mpr hd.1)
    set f : Following := {
      pass := Pass.new v.manifest catalog.live, writing := none, current := v } with hf
    have hidles : f.Idles := by
      refine ⟨rfl, h.frontier.symm, ?_⟩
      show v.manifest.unreadable.length
        - (v.manifest.unreadable.filter catalog.live.contains).length = 0
      rw [hfilter, Nat.sub_self]
    obtain ⟨a, ha⟩ : ∃ a, f.publish_pass env host catalog.live
        = { published := [], result := .ok a } := publish_pass_idles hidles
    have hcall : follow_inner env host budget catalog v = pure a := by
      rw [follow_inner, reconcile, if_pos h.fits, pure_bind, follow_pass]
      show (Following.consume env host budget catalog.live f
        (catalog.live.range v.manifest.frontier catalog.live.bound) >>= fun f => _) = _
      rw [hnone]
      show f.publish_pass env host catalog.live = _
      rw [ha]
      rfl
    rw [Ferret.follow_each, hcall, pure_bind]
    exact ih

end

/-! ## What is left of a call -/

section

variable (env : Env) (host : Host) (budget : Budget) (catalog : CatalogView)

namespace Following

/-- The rest of a call. -/
def onward (f : Following) (docs : List ℕ) : Writing Followed := do
  let f ← consume env host budget catalog.live f docs
  f.finish env host catalog.live

/-- The rest of a call that adds a document next. -/
def resume (f : Following) (doc : ℕ) (rest : List ℕ) : Writing Followed := do
  let (f, go) ← f.add host doc
  match go with
  | true => f.onward env host budget catalog rest
  | false => f.finish env host catalog.live

end Following

/-- A call, and the calls after it. -/
def then_each (call : Writing Followed) (n : ℕ) (current : View) : Writing View := do
  let _ ← call
  follow_each env host budget catalog n (call.last current)

/-- Whether what was published ends with a document that alone is too big for
the trigram buffer. -/
def Oversized (views : List View) : Prop :=
  ∃ doc x v, host.read doc = .ok x ∧ PairBuffer.CAPACITY < x.keys.length
    ∧ views.getLast? = some v ∧ v.manifest.frontier = doc + 1

/-- **One call against many**: after what it has handed over, it publishes what
they publish, or a first part. -/
structure Matches (piped : Writing Followed) (pending : List View) (each : Writing View) :
    Prop where
  leading : piped.published <+: pending ++ each.published
  whole : piped.result.isOk = true ∨ each.result.isOk = true →
    piped.published = pending ++ each.published ∨ Oversized host piped.published

end

section

variable {env : Env} {host : Host} {budget : Budget} {catalog : CatalogView}
variable {f g s : Following} {pending : List View}

namespace Following

variable {doc frontier : ℕ} {rest : List ℕ} {e : Error}

theorem onward_stop {stopped : Stopped}
    (h : f.pass.next (host.read doc) budget (host.cancelled doc) f.writing.isSome = .stop stopped) :
    f.onward env host budget catalog (doc :: rest)
      = { f with pass := f.pass.stop stopped doc }.finish env host catalog.live := by
  rw [onward, consume, step, h]
  rfl

theorem onward_read
    (h : f.pass.next (host.read doc) budget (host.cancelled doc) f.writing.isSome = .read) :
    f.onward env host budget catalog (doc :: rest) = f.resume env host budget catalog doc rest := by
  rw [onward, consume, step, h, bind_assoc, resume]
  refine congrArg (_ >>= ·) (funext fun r => ?_)
  obtain ⟨_, go⟩ := r
  cases go <;> rfl

theorem onward_hand_off
    (h : f.pass.next (host.read doc) budget (host.cancelled doc) f.writing.isSome = .handOff) :
    f.onward env host budget catalog (doc :: rest)
      = f.hand_off env host catalog.live doc >>= fun f =>
          f.resume env host budget catalog doc rest := by
  rw [onward, consume, step, h, bind_assoc, bind_assoc]
  refine congrArg (_ >>= ·) (funext fun f' => ?_)
  rw [resume]
  refine congrArg (_ >>= ·) (funext fun r => ?_)
  obtain ⟨_, go⟩ := r
  cases go <;> rfl

theorem finish_failed (h : f.writing = some (.error e, frontier)) :
    f.finish env host catalog.live = { published := [], result := .error e } := by
  rw [finish, publish_writing, h]
  rfl

/-- A document more changes nothing once a segment could not be written. -/
theorem resume_failed_of (hrest : ∀ f : Following, f.writing = some (.error e, frontier) →
      ∃ e', f.onward env host budget catalog rest = { published := [], result := .error e' })
    (h : f.writing = some (.error e, frontier)) :
    ∃ e', f.resume env host budget catalog doc rest = { published := [], result := .error e' } := by
  rw [resume, Following.add]
  cases hadd : f.pass.add doc (host.read doc) with
  | error w => exact ⟨.write w, rfl⟩
  | ok r =>
    obtain ⟨pass, go⟩ := r
    cases go with
    | true => exact hrest { f with pass := pass } h
    | false =>
      have hfailed : ({ f with pass := pass } : Following).writing = some (.error e, frontier) := h
      exact ⟨e, finish_failed hfailed⟩

/-- **A segment that could not be written ends the call.** -/
theorem onward_failed {docs : List ℕ} (h : f.writing = some (.error e, frontier)) :
    ∃ e', f.onward env host budget catalog docs = { published := [], result := .error e' } := by
  induction docs generalizing f with
  | nil => exact ⟨e, finish_failed h⟩
  | cons doc rest ih =>
    have hresume : ∃ e', f.resume env host budget catalog doc rest
        = { published := [], result := .error e' } := resume_failed_of (fun f hf => ih hf) h
    cases hnext : f.pass.next (host.read doc) budget (host.cancelled doc) f.writing.isSome with
    | stop stopped =>
      rw [onward_stop hnext]
      have hfailed : ({ f with pass := f.pass.stop stopped doc } : Following).writing
          = some (.error e, frontier) := h
      exact ⟨e, finish_failed hfailed⟩
    | read =>
      rw [onward_read hnext]
      exact hresume
    | handOff =>
      rw [onward_hand_off hnext, hand_off]
      cases f.pass.range with
      | none => exact hresume
      | some _ =>
        simp only [publish_writing, h]
        exact ⟨e, rfl⟩

end Following

theorem Oversized.append {views : List View} (h : Oversized host views) (before : List View) :
    Oversized host (before ++ views) := by
  obtain ⟨doc, x, v, hread, hkeys, hlast, hfrontier⟩ := h
  refine ⟨doc, x, v, hread, hkeys, ?_, hfrontier⟩
  rw [getLast?_append, hlast]
  rfl

/-- Both fail. -/
theorem Matches.failed {piped : Writing Followed} {each : Writing View} {e e' : Error}
    (hpiped : piped.result = .error e) (heach : each.result = .error e')
    (hleading : piped.published <+: pending) : Matches host piped pending each where
  leading := hleading.trans (prefix_append ..)
  whole := fun h => by
    rw [hpiped, heach] at h
    rcases h with h | h <;> cases h

variable {v : View} {n doc : ℕ} {rest : List ℕ}

/-- One view later. -/
theorem Matches.append {piped : Writing Followed} {each : Writing View}
    (h : Matches host piped [v] each) (pending : List View) :
    Matches host { published := pending ++ piped.published, result := piped.result } pending
      { published := [v] ++ each.published, result := each.result } where
  leading := (prefix_append_right_inj _).mpr h.leading
  whole := fun hok => (h.whole hok).imp (congrArg (pending ++ ·)) fun hover => hover.append pending

/-- The calls after the last one. -/
theorem then_each_covered {call : Writing Followed} {current : View} (h : call.result.isOk = true →
      follow_each env host budget catalog n (call.last current) = pure (call.last current)) :
    (then_each env host budget catalog call n current).published = call.published
      ∧ (then_each env host budget catalog call n current).result.isOk = call.result.isOk := by
  rw [then_each]
  cases hcall : call.result with
  | error e =>
    rw [bind_error hcall]
    exact ⟨rfl, rfl⟩
  | ok a =>
    have hpure := h (by rw [hcall]; rfl)
    rw [bind_ok hcall, hpure]
    exact ⟨append_nil _, rfl⟩

/-- The two end alike, and nothing follows. -/
theorem Tracks.finish_matches (h : Tracks host catalog.live f g s pending)
    (hpruned : g.pass.range = none → f.pass.followed.pruned = g.pass.followed.pruned)
    (hlast : (g.finish env host catalog.live).result.isOk = true →
      follow_each env host budget catalog n ((g.finish env host catalog.live).last g.current)
        = pure ((g.finish env host catalog.live).last g.current)) :
    Matches host (f.finish env host catalog.live) pending
      (then_each env host budget catalog (g.finish env host catalog.live) n g.current) := by
  obtain ⟨hpublished, -⟩ := @Tracks.finish env _ _ _ _ _ _ h hpruned
  obtain ⟨heach, -⟩ := then_each_covered hlast
  rw [← heach] at hpublished
  exact ⟨hpublished ▸ prefix_rfl, fun _ => .inl hpublished⟩

namespace Following

theorem resume_error {doc : ℕ} {e : WriteError} (h : f.pass.add doc (host.read doc) = .error e) :
    f.resume env host budget catalog doc rest
      = { published := [], result := .error (.write e) } := by
  rw [resume, Following.add, h]
  rfl

theorem resume_ok {doc : ℕ} {p' : Pass} {go : Bool}
    (h : f.pass.add doc (host.read doc) = .ok (p', go)) :
    f.resume env host budget catalog doc rest
      = if go = true then { f with pass := p' }.onward env host budget catalog rest
        else { f with pass := p' }.finish env host catalog.live := by
  rw [resume, Following.add, h]
  cases go <;> rfl

end Following

/-- **The next document.** Where it is not the last for being too big, the rest
decides. -/
theorem Tracks.resume {budget' : Budget}
    (ht : Tracks host catalog.live f g s pending) (hs : Single catalog g (doc :: rest))
    (hfull : g.pass.full (host.read doc) budget.buffer = false)
    (hpast : ∀ w frontier, f.writing = some (w, frontier) → frontier ≤ doc)
    (hread : host.read doc ≠ .error .stop)
    (hrest : ∀ p' q' s', f.pass.Added doc (host.read doc) p' true →
      g.pass.Added doc (host.read doc) q' true →
      Tracks host catalog.live { f with pass := p' } { g with pass := q' } s' pending →
      Matches host ({ f with pass := p' }.onward env host budget catalog rest) pending
        (then_each env host budget' catalog
          ({ g with pass := q' }.onward env host budget' catalog rest) n g.current)) :
    Matches host (f.resume env host budget catalog doc rest) pending
      (then_each env host budget' catalog (g.resume env host budget' catalog doc rest) n
        g.current) := by
  rcases ht.alike.add doc hread with ⟨e, hp, hq⟩ | ⟨p', q', go, hp, hq, halike, hf, hg⟩
  · rw [resume_error hp, resume_error hq]
    exact .failed rfl rfl nil_prefix
  · rw [resume_ok hp, resume_ok hq]
    obtain ⟨s', hs'⟩ := ht.add hf hg halike hpast
    cases go with
    | true => exact hrest p' q' s' hf hg hs'
    | false =>
      have hsome := hg.range
      have hpruned : q'.range = none → p'.followed.pruned = q'.followed.pruned := fun hnone => by
        rw [hnone] at hsome
        cases hsome
      obtain ⟨hpublished, hresult⟩ := @Tracks.finish env _ _ _ _ _ _ hs' hpruned
      refine ⟨hpublished ▸ (prefix_append_right_inj _).mpr (leading_bind _ _),
        fun hok => .inr ?_⟩
      have hdone : ({ g with pass := q' }.finish env host catalog.live).result.isOk = true := by
        rcases hok with hok | hok
        · exact hresult ▸ hok
        · exact isOk_of_bind hok
      have hbusy : ¬ ({ g with pass := q' } : Following).Idles := fun h => by
        have hnone : q'.range = none := h.1
        rw [hnone] at hsome
        cases hsome
      obtain ⟨pair, p, m, _, -, -, hfinish⟩ :=
        @Following.finish_ok env host { g with pass := q' } ht.idle hbusy catalog.live hdone
      obtain ⟨hfrontier, hover⟩ := hg.stops rfl
      obtain ⟨x, hx, hkeys⟩ := hover hs.oversized
      have hlast : ({ f with pass := p' }.finish env host catalog.live).published.getLast?
          = some (closing_view host catalog.live g.current q'.frontier p.manifest pair) := by
        rw [hpublished, hfinish]
        exact getLast?_concat
      refine ⟨doc, x, _, hx, ?_, hlast, hfrontier⟩
      -- it was alone, or it would have been too much for the buffer
      by_cases hdocs : g.pass.docs = 0
      · have hlen : g.pass.trigrams.len = 0 := by
          rw [TrigramInverter.len, hs.empty hdocs]
          rfl
        rwa [hlen, Nat.sub_zero] at hkeys
      · unfold Pass.full at hfull
        rw [hx] at hfull
        simp only [ne_eq, hdocs, not_false_eq_true, decide_true, Bool.true_and, Bool.or_eq_false_iff,
          Bool.not_eq_false', PairBuffer.fits, decide_eq_true_eq] at hfull
        omega

/-! ## Handing over -/

theorem Tracks.stop {live : DocSet} (h : Tracks host live f g s pending) (stopped : Stopped)
    (frontier : ℕ) :
    ∃ s', Tracks host live { f with pass := f.pass.stop stopped frontier }
      { g with pass := g.pass.stop stopped frontier } s' pending := by
  have halike : (f.pass.stop stopped frontier).Alike (g.pass.stop stopped frontier) :=
    { h.alike with frontier := rfl }
  cases h.settles with
  | idle hw =>
    exact ⟨{ f with pass := f.pass.stop stopped frontier }, .idle hw, h.idle, h.current, h.manifest,
      halike⟩
  | @written pair at_frontier hw =>
    exact ⟨Following.settled host live { f with pass := f.pass.stop stopped frontier } pair
      at_frontier, .written hw, h.idle, h.current, h.manifest, halike⟩

namespace Following

/-- A pass that has handed its segment over. -/
def handed (s : Following) (written : Except Error WrittenPair) (doc : ℕ) : Following where
  pass := { s.pass.sealed with range := none }
  writing := some (written, doc)
  current := s.current

theorem Settles.hand_off {live : DocSet} {range : ℕ × ℕ} {doc : ℕ}
    (h : f.Settles host live pending s) (hrange : f.pass.range = some range) :
    f.hand_off env host live doc = {
      published := pending
      result := ((s.pass.drained env range).mapError Error.write).map fun drained =>
        s.handed (drained.write env) doc } := by
  rw [Following.hand_off, hrange]
  simp only [h.publish]
  rw [Publishing.bind_ok rfl, Pass.seal_eq]
  cases s.pass.drained env range with
  | error e | ok drained => exact congrArg (Publishing.mk · _) (append_nil _)

end Following

/-- The call after one that has published a view. -/
def next_call (catalog : CatalogView) (v : View) : Following where
  pass := Pass.new v.manifest catalog.live
  writing := none
  current := v

theorem follow_inner_fits (hfits : v.manifest.fits catalog = true) :
    follow_inner env host budget catalog v
      = (next_call catalog v).onward env host budget catalog
          (catalog.live.range v.manifest.frontier catalog.live.bound) := by
  rw [follow_inner, reconcile, if_pos hfits, pure_bind]
  rfl

theorem follow_each_next (hfits : v.manifest.fits catalog = true) (n : ℕ) :
    follow_each env host budget catalog (n + 1) v
      = then_each env host budget catalog ((next_call catalog v).onward env host budget catalog
          (catalog.live.range v.manifest.frontier catalog.live.bound)) n v := by
  rw [follow_each, follow_inner_fits hfits]
  rfl

/-- **What was handed over is what the next call starts from.** -/
theorem Tracks.hand_off (h : Tracks host catalog.live f g s pending)
    (hs : Single catalog g (doc :: rest)) (pair : WrittenPair)
    (hv : v = Following.closing_view host catalog.live g.current doc
      { g.pass.manifest with next_number := g.pass.manifest.next_number + 1 } (some pair)) :
    Tracks host catalog.live (s.handed (.ok pair) doc) (next_call catalog v)
        ((s.handed (.ok pair) doc).settled host catalog.live pair doc) [v]
      ∧ Single catalog (next_call catalog v) (doc :: rest) := by
  have halike : s.pass.Alike g.pass := h.settles.alike.1.trans h.alike
  -- nothing read so far is at or past the document
  have hbelow : g.pass.manifest.unreadable.filter (· < doc) = g.pass.manifest.unreadable :=
    filter_eq_self.mpr fun u hu => decide_eq_true (hs.below u hu doc (.head _))
  have hlive : g.pass.manifest.unreadable.filter catalog.live.contains
      = g.pass.manifest.unreadable := filter_eq_self.mpr hs.live
  have hnext : { s.pass.manifest with next_number := s.pass.manifest.next_number + 1 }.untimed
      = { g.pass.manifest with next_number := g.pass.manifest.next_number + 1 }.untimed := by
    rw [halike.next_number]
    exact congrArg (fun m => { m with next_number := g.pass.manifest.next_number + 1 }) h.manifest
  have hview : (s.handed (.ok pair) doc).settled_view host catalog.live pair doc = v := by
    rw [hv, closing_view_untimed _ g.current, ← hnext, ← closing_view_untimed,
      ← h.current]
    show closing_view host catalog.live s.current doc
      { s.pass.sealed.manifest with
        unreadable := s.pass.manifest.unreadable.filter (· < doc) } (some pair) = _
    rw [halike.unreadable, hbelow, ← halike.unreadable]
    rfl
  have hpass : (next_call catalog v).pass.manifest = v.manifest := by
    show { v.manifest with unreadable := v.manifest.unreadable.filter catalog.live.contains } = _
    rw [hv]
    show { (closing_view host catalog.live g.current doc _ (some pair)).manifest with
      unreadable := g.pass.manifest.unreadable.filter catalog.live.contains } = _
    rw [hlive]
    rfl
  constructor
  · refine ⟨hview ▸ .written rfl, rfl, hview, ?_, ?_⟩
    · rw [hpass, ← hview]
      show Manifest.untimed { s.pass.sealed.manifest with
        segments := s.pass.manifest.segments ++ [pair.entry]
        frontier := doc
        high_water := max s.pass.manifest.high_water catalog.live.bound
        sequence := s.pass.manifest.sequence + 1 } = Manifest.untimed { s.pass.sealed.manifest with
          unreadable := s.pass.manifest.unreadable.filter (· < doc)
          segments := s.pass.manifest.segments ++ [pair.entry]
          frontier := doc
          high_water := max s.pass.manifest.high_water catalog.live.bound
          sequence := s.pass.manifest.sequence + 1 }
      rw [halike.unreadable, hbelow, ← halike.unreadable]
      rfl
    · refine ⟨?_, ?_, rfl, rfl, rfl, rfl, ?_, ?_⟩
      · rw [hpass, hv]
        exact halike.unreadable
      · rw [hpass, hv]
        exact congrArg (· + 1) halike.next_number
      · exact halike.frontier.trans hs.frontier
      · exact halike.oversized.trans hs.oversized
  · obtain ⟨lo, hlo⟩ := hs.order
    have hunreadable : v.manifest.unreadable = g.pass.manifest.unreadable := by
      rw [hv]
      rfl
    refine ⟨fun _ => rfl, ?_, ?_, ?_, fun hd => absurd rfl hd, fun _ => rfl, rfl, rfl, lo, hlo⟩
    · rw [hpass, hv]
      have hfits : { g.pass.manifest with
          next_number := g.pass.manifest.next_number + 1 }.fits catalog = true := hs.fits
      exact closing_fits hfits
    · rw [hpass, hunreadable]
      exact hs.live
    · rw [hpass, hunreadable]
      exact hs.below

/-- **Handing over against ending a call.** Both write the same segment. -/
theorem Tracks.hands_over {stopped : Stopped}
    (ht : Tracks host catalog.live f g s pending) (hs : Single catalog g (doc :: rest))
    (hbusy : g.pass.docs ≠ 0) {budget' : Budget}
    (hnext : ∀ pair v, v = Following.closing_view host catalog.live g.current doc
        { g.pass.manifest with next_number := g.pass.manifest.next_number + 1 } (some pair) →
      Matches host ((s.handed (.ok pair) doc).resume env host budget catalog doc rest) [v]
        (follow_each env host budget' catalog n v)) :
    Matches host (f.hand_off env host catalog.live doc >>= fun f =>
        f.resume env host budget catalog doc rest) pending
      (then_each env host budget' catalog
        ({ g with pass := g.pass.stop stopped doc }.finish env host catalog.live) n g.current) := by
  obtain ⟨range, hrange⟩ := Option.isSome_iff_exists.mp (hs.held hbusy)
  have halike : s.pass.Alike g.pass := ht.settles.alike.1.trans ht.alike
  have hhand := @Following.Settles.hand_off env _ _ _ _ _ _ doc ht.settles
    (ht.alike.range.trans hrange)
  rw [halike.drained_eq range] at hhand
  set call : Following := { g with pass := g.pass.stop stopped doc } with hcall
  have hfinish : call.finish env host catalog.live = call.publish_pass env host catalog.live :=
    finish_idle ht.idle
  have hsome : ¬ call.Idles := fun h => by
    have hnone : g.pass.range = none := h.1
    rw [hnone] at hrange
    cases hrange
  have hlast := @Following.last_segment_some env call.pass range hrange
  have hsame : call.pass.drained env range = g.pass.drained env range := rfl
  rw [hsame] at hlast
  cases hdrained : g.pass.drained env range with
  | error e =>
    rw [hdrained] at hhand hlast
    have hfailed := @Following.publish_pass_error env host catalog.live _ _ hsome hlast
    rw [hhand, hfinish, hfailed]
    exact .failed rfl rfl prefix_rfl
  | ok drained =>
    rw [hdrained] at hhand hlast
    have hhand : f.hand_off env host catalog.live doc
        = { published := pending, result := .ok (s.handed (drained.write env) doc) } := hhand
    cases hwrite : drained.write env with
    | error e =>
      have hlast : last_segment env call.pass = .error e := by
        rw [hlast]
        simp only [Except.mapError, bind, Except.bind, hwrite]
      have hfailed := @Following.publish_pass_error env host catalog.live _ _ hsome hlast
      have hwriting : (s.handed (.error e) doc).writing = some (.error e, doc) := rfl
      obtain ⟨e', hresume⟩ : ∃ e', (s.handed (.error e) doc).resume env host budget catalog doc rest
          = { published := [], result := .error e' } :=
        resume_failed_of (fun f hf => onward_failed hf) hwriting
      rw [hwrite] at hhand
      rw [hhand, hfinish, hfailed, bind_ok rfl, hresume]
      exact .failed rfl rfl (by rw [append_nil])
    | ok pair =>
      have hlast : last_segment env call.pass = .ok (some pair, call.pass.closed pair) := by
        rw [hlast]
        simp only [Except.mapError, bind, Except.bind, hwrite]
      obtain ⟨_, hpublish⟩ :=
        @Following.publish_pass_ok env host catalog.live _ _ _ hsome hlast
      have hmatches := (hnext pair _ rfl).append pending
      rw [hwrite] at hhand
      rw [hhand, hfinish, hpublish, bind_ok rfl]
      exact hmatches

/-- A pass whose buffers are empty reads on. -/
theorem Pass.full_empty {p : Pass} (h : p.docs = 0) (x : Except Fault Extracted) (buffer : ℕ) :
    p.full x buffer = false := by
  simp [full, h]

/-- **The whole rest of a call against the calls for one segment.** By induction on
the documents left: the next is read by both, or both stop before it, or the one
hands over where the other ends a call and starts the next. -/
theorem Tracks.matches {k : ℕ} {docs : List ℕ} (ht : Tracks host catalog.live f g s pending)
    (hs : Single catalog g docs)
    (hpruned : g.pass.range = none → f.pass.followed.pruned = g.pass.followed.pruned)
    (hcount : f.pass.published + f.writing.isSome.toNat + 1 + n = k)
    (hbytes : f.pass.followed.bytes + readable_bytes host docs < budget.bytes)
    (hle : g.pass.followed.bytes ≤ f.pass.followed.bytes)
    (hpast : ∀ w frontier, f.writing = some (w, frontier) → ∀ d ∈ docs, frontier ≤ d)
    (hpause : ∀ d, host.cancelled d = false ∧ host.read d ≠ .error .stop) :
    Matches host (f.onward env host { budget with segments := k } catalog docs) pending
      (then_each env host { budget with segments := 1 } catalog
        (g.onward env host { budget with segments := 1 } catalog docs) n g.current) := by
  induction docs generalizing f g s pending n with
  | nil =>
    exact ht.finish_matches hpruned fun hok => (hs.finish_covered ht.idle hok).follow_each n
  | cons doc rest ih =>
    have hspare : f.pass.followed.bytes < budget.bytes := (le_self_add).trans_lt hbytes
    have hsorted : ∀ d ∈ rest, doc ≤ d := by
      obtain ⟨lo, hlo⟩ := hs.order
      have hpairs := catalog.live.pairwise_range lo catalog.live.bound
      rw [← hlo] at hpairs
      exact fun d hd => ((pairwise_cons.mp hpairs).1 d hd).le
    have hnext : f.pass.next (host.read doc) { budget with segments := k } (host.cancelled doc)
        f.writing.isSome = if f.pass.full (host.read doc) budget.buffer = true then
          if f.pass.published + f.writing.isSome.toNat + 1 < k then .handOff else .stop .buffer
        else .read := by
      rw [(hpause doc).1]
      exact Pass.next_eq hspare
    have hnext' : ∀ g' : Following, g'.pass.followed.bytes < budget.bytes →
        g'.pass.next (host.read doc) { budget with segments := 1 } (host.cancelled doc)
          g'.writing.isSome
          = if g'.pass.full (host.read doc) budget.buffer = true then .stop .buffer else .read := by
      intro g' hg'
      rw [(hpause doc).1]
      have hone : ¬ g'.pass.published + g'.writing.isSome.toNat + 1 < 1 :=
        Nat.not_lt_of_le (Nat.le_add_left ..)
      have heq : g'.pass.next (host.read doc) { budget with segments := 1 } false g'.writing.isSome
          = if g'.pass.full (host.read doc) budget.buffer = true then
            if g'.pass.published + g'.writing.isSome.toNat + 1 < 1 then .handOff else .stop .buffer
          else .read := Pass.next_eq hg'
      rw [heq, if_neg hone]
    have hgnext := hnext' g (hle.trans_lt hspare)
    have hfull := ht.alike.full_eq (host.read doc) budget.buffer
    have hdoc : readable_bytes host (doc :: rest)
        = readable_len (host.read doc) + readable_bytes host rest := by
      simp [readable_bytes]
    -- what both read next, whatever they hold
    have hresume : ∀ {f g s : Following} {pending : List View} {n : ℕ},
        Tracks host catalog.live f g s pending → Single catalog g (doc :: rest) →
        g.pass.full (host.read doc) budget.buffer = false →
        f.pass.published + f.writing.isSome.toNat + 1 + n = k →
        f.pass.followed.bytes + readable_bytes host (doc :: rest) < budget.bytes →
        g.pass.followed.bytes ≤ f.pass.followed.bytes →
        (∀ w frontier, f.writing = some (w, frontier) → frontier ≤ doc) →
        Matches host (f.resume env host { budget with segments := k } catalog doc rest) pending
          (then_each env host { budget with segments := 1 } catalog
            (g.resume env host { budget with segments := 1 } catalog doc rest) n g.current) := by
      intro f g s pending n ht hs hroom hcount hbytes hle hpast
      refine ht.resume hs hroom hpast (hpause doc).2 fun p' q' s' hf hg ht' => ?_
      refine ih ht' (hs.add hg) (fun hnone => ?_) ?_ ?_ ?_ fun w frontier hw d hd =>
        (hpast w frontier hw).trans (hsorted d hd)
      · have hnone : q'.range = none := hnone
        have hsome := hg.range
        rw [hnone] at hsome
        cases hsome
      · show p'.published + f.writing.isSome.toNat + 1 + n = k
        rw [hf.published]
        exact hcount
      · show p'.followed.bytes + _ < _
        rw [hf.bytes, add_assoc, ← hdoc]
        exact hbytes
      · show q'.followed.bytes ≤ p'.followed.bytes
        rw [hf.bytes, hg.bytes]
        exact Nat.add_le_add_right hle _
    cases hroom : g.pass.full (host.read doc) budget.buffer with
    | false =>
      rw [hfull, hroom, if_neg Bool.false_ne_true] at hnext
      rw [hroom, if_neg Bool.false_ne_true] at hgnext
      rw [onward_read hnext, onward_read hgnext]
      exact hresume ht hs hroom hcount hbytes hle fun w frontier hw =>
        hpast w frontier hw doc (.head _)
    | true =>
      rw [hfull, hroom, if_pos rfl] at hnext
      rw [hroom, if_pos rfl] at hgnext
      rw [onward_stop hgnext]
      cases n with
      | zero =>
        have hlast : ¬ f.pass.published + f.writing.isSome.toNat + 1 < k := by
          rw [← hcount]
          exact lt_irrefl _
        rw [if_neg hlast] at hnext
        rw [onward_stop hnext]
        obtain ⟨s', ht'⟩ := ht.stop .buffer doc
        exact ht'.finish_matches hpruned fun _ => rfl
      | succ n =>
        have hmore : f.pass.published + f.writing.isSome.toNat + 1 < k := by
          rw [← hcount]
          omega
        rw [if_pos hmore] at hnext
        rw [onward_hand_off hnext]
        have hbusy : g.pass.docs ≠ 0 := fun hdocs => by
          rw [Pass.full_empty hdocs] at hroom
          cases hroom
        refine ht.hands_over hs hbusy fun pair v hv => ?_
        obtain ⟨ht', hs'⟩ := ht.hand_off hs pair hv
        obtain ⟨lo, hlo⟩ := hs.order
        have hfrontier : v.manifest.frontier = doc := by
          rw [hv]
          rfl
        have hfits : v.manifest.fits catalog = true := by
          rw [hv]
          exact closing_fits hs.fits
        have hread := hnext' (next_call catalog v) (Nat.zero_le _ |>.trans_lt hspare)
        have hempty : (next_call catalog v).pass.full (host.read doc) budget.buffer = false :=
          Pass.full_empty rfl _ _
        rw [hempty, if_neg Bool.false_ne_true] at hread
        rw [follow_each_next hfits, hfrontier, (DocSet.range_cons hlo.symm).1,
          onward_read hread]
        obtain ⟨-, -, hread_bytes, hcounted⟩ := ht.settles.alike
        refine hresume ht' hs' hempty ?_ ?_ (Nat.zero_le _) fun w frontier hw => ?_
        · show s.pass.published + 1 + 1 + n = k
          rw [hcounted, ← hcount]
          omega
        · show s.pass.followed.bytes + _ < _
          rw [hread_bytes]
          exact hbytes
        · obtain ⟨-, rfl⟩ := Prod.mk.inj (Option.some.inj hw)
          exact le_rfl

end

end Ferret
