import Ferret.Store.Runs

/-!
# Passes that go on alike

What a follow pass does with a document depends on its buffers and its segment,
and not on what it has published: two passes that hold the same read on alike,
and the last segments they write are the same. `Pass.Alike.add` says so of a
document, `Following.last_segment_alike` of the end.
-/

namespace Ferret

/-- The bytes of a document, if it can be read. -/
def readable_len : Except Fault Extracted → ℕ
  | .ok x => x.len
  | .error _ => 0

/-! ## Passes that are alike -/

/-- Whether adding a document's keys found them too many. -/
theorem PairBuffer.add_oversized {trigrams trigrams' : TrigramInverter} {doc : ℕ} {keys : List ℕ}
    (h : PairBuffer.add trigrams doc keys = .ok (trigrams', true)) :
    CAPACITY - trigrams.len < keys.length := by
  simp only [add, admit_keys, TrigramInverter.add_keys] at h
  by_cases horder : trigrams.last.any (doc ≤ ·) = true
  · rw [if_pos horder] at h
    cases h
  · rw [if_neg horder] at h
    by_cases hlimit : (some (CAPACITY - trigrams.len)).any (· < keys.length) = true
    · simpa using hlimit
    · rw [if_neg hlimit] at h
      cases h

namespace Pass

/-- Two passes that would go on alike. -/
structure Alike (p q : Pass) : Prop where
  unreadable : p.manifest.unreadable = q.manifest.unreadable
  next_number : p.manifest.next_number = q.manifest.next_number
  inverter : p.inverter = q.inverter
  trigrams : p.trigrams = q.trigrams
  range : p.range = q.range
  docs : p.docs = q.docs
  frontier : p.frontier = q.frontier
  oversized : p.oversized = q.oversized

theorem Alike.refl (p : Pass) : p.Alike p := ⟨rfl, rfl, rfl, rfl, rfl, rfl, rfl, rfl⟩

variable {p q : Pass} {x : Except Fault Extracted}

theorem Alike.trans {r : Pass} (h : p.Alike q) (h' : q.Alike r) : p.Alike r :=
  ⟨h.unreadable.trans h'.unreadable, h.next_number.trans h'.next_number,
    h.inverter.trans h'.inverter, h.trigrams.trans h'.trigrams, h.range.trans h'.range,
    h.docs.trans h'.docs, h.frontier.trans h'.frontier, h.oversized.trans h'.oversized⟩

/-- What reading a document makes of a pass. -/
structure Added (p : Pass) (doc : ℕ) (x : Except Fault Extracted) (p' : Pass) (go : Bool) :
    Prop where
  manifest : p'.manifest = { p.manifest with unreadable := p'.manifest.unreadable }
  unreadable : p'.manifest.unreadable = p.manifest.unreadable
    ∨ p'.manifest.unreadable = p.manifest.unreadable ++ [doc]
  bytes : p'.followed.bytes = p.followed.bytes + readable_len x
  pruned : p'.followed.pruned = p.followed.pruned
  published : p'.published = p.published
  range : p'.range.isSome = true
  empty : (p.docs = 0 → p.trigrams.pairs = []) → p'.docs = 0 → p'.trigrams.pairs = []
  goes : go = true → p'.frontier = p.frontier ∧ p'.oversized = false
  stops : go = false → p'.frontier = doc + 1
    ∧ (p.oversized = false → ∃ e, x = .ok e ∧ PairBuffer.CAPACITY - p.trigrams.len < e.keys.length)

theorem Added.of_reach {p₁ : Pass} {doc : ℕ}
    (hmanifest : p₁.manifest = { p.manifest with unreadable := p₁.manifest.unreadable })
    (hunreadable : p₁.manifest.unreadable = p.manifest.unreadable
      ∨ p₁.manifest.unreadable = p.manifest.unreadable ++ [doc])
    (hfollowed : p₁.followed.bytes = p.followed.bytes + readable_len x
      ∧ p₁.followed.pruned = p.followed.pruned)
    (hkept : p₁.published = p.published ∧ p₁.frontier = p.frontier)
    (hempty : (p.docs = 0 → p.trigrams.pairs = []) → p₁.docs = 0 → p₁.trigrams.pairs = [])
    (hover : p₁.oversized = true → p.oversized = false →
      ∃ e, x = .ok e ∧ PairBuffer.CAPACITY - p.trigrams.len < e.keys.length) :
    p.Added doc x (p₁.reach doc).1 (p₁.reach doc).2 := by
  obtain ⟨_, hreach⟩ := p₁.reach_eq doc
  rw [hreach]
  refine ⟨hmanifest, hunreadable, hfollowed.1, hfollowed.2, hkept.1, rfl, hempty, fun hgo => ?_,
    fun hgo => ?_⟩
  · have hno : p₁.oversized = false := by simpa using hgo
    refine ⟨?_, hno⟩
    show (if p₁.oversized = true then doc + 1 else p₁.frontier) = p.frontier
    rw [hno]
    exact hkept.2
  · have hyes : p₁.oversized = true := by simpa using hgo
    refine ⟨?_, hover hyes⟩
    show (if p₁.oversized = true then doc + 1 else p₁.frontier) = doc + 1
    rw [if_pos hyes]

theorem Alike.reach (h : p.Alike q) (doc : ℕ) :
    (p.reach doc).1.Alike (q.reach doc).1 ∧ (p.reach doc).2 = (q.reach doc).2 := by
  obtain ⟨s, hs⟩ := p.reach_eq doc
  obtain ⟨t, ht⟩ := q.reach_eq doc
  rw [hs, ht]
  refine ⟨⟨h.unreadable, h.next_number, h.inverter, h.trigrams, ?_, h.docs, ?_, h.oversized⟩, ?_⟩
  · show some ((p.range.map Prod.fst).getD doc, doc) = some ((q.range.map Prod.fst).getD doc, doc)
    rw [h.range]
  · show (if p.oversized = true then doc + 1 else p.frontier)
      = if q.oversized = true then doc + 1 else q.frontier
    rw [h.oversized, h.frontier]
  · show (!p.oversized) = !q.oversized
    rw [h.oversized]

/-- **Passes that are alike read on alike.** -/
theorem Alike.add (h : p.Alike q) (doc : ℕ) (hx : x ≠ .error .stop) :
    (∃ e, p.add doc x = .error e ∧ q.add doc x = .error e)
      ∨ ∃ p' q' go, p.add doc x = .ok (p', go) ∧ q.add doc x = .ok (q', go) ∧ p'.Alike q'
        ∧ p.Added doc x p' go ∧ q.Added doc x q' go := by
  cases x with
  | error fault =>
    cases fault with
    | stop => exact absurd rfl hx
    | unreadable =>
      set skip : Pass → Pass := fun r => { r with
        manifest := { r.manifest with unreadable := r.manifest.unreadable ++ [doc] }
        followed := { r.followed with unreadable := r.followed.unreadable + 1 } } with hskip
      have hadded : ∀ r : Pass, r.Added doc (.error .unreadable) ((skip r).reach doc).1
          ((skip r).reach doc).2 := fun r =>
        .of_reach rfl (.inr rfl) ⟨rfl, rfl⟩ ⟨rfl, rfl⟩ (fun hr => hr) fun hover hno => by
          have hover : r.oversized = true := hover
          rw [hno] at hover
          cases hover
      have halike : (skip p).Alike (skip q) :=
        { h with unreadable := congrArg (· ++ [doc]) h.unreadable }
      obtain ⟨hreach, hgo⟩ := halike.reach doc
      refine .inr ⟨((skip p).reach doc).1, ((skip q).reach doc).1, ((skip p).reach doc).2, rfl,
        ?_, hreach, hadded p, hgo ▸ hadded q⟩
      rw [hgo]
      rfl
  | ok e =>
    have hboth : ∀ r : Pass, r.add doc (.ok e) = (do
        let buffer ← PairBuffer.add r.trigrams doc e.keys
        let inverter ← e.terms.foldlM (fun i t => i.add doc t) r.inverter
        .ok ({ r with
          trigrams := buffer.1
          inverter := inverter
          oversized := r.oversized || buffer.2
          docs := r.docs + 1
          followed := { r.followed with
            docs := r.followed.docs + 1
            bytes := r.followed.bytes + e.len } }.reach doc)) := fun _ => rfl
    rw [hboth p, hboth q, ← h.trigrams, ← h.inverter]
    cases hbuffer : PairBuffer.add p.trigrams doc e.keys with
    | error err => exact .inl ⟨err, rfl, rfl⟩
    | ok r =>
      obtain ⟨trigrams, oversized⟩ := r
      cases hterms : e.terms.foldlM (fun i t => i.add doc t) p.inverter with
      | error err => exact .inl ⟨err, rfl, rfl⟩
      | ok inverter =>
        set take : Pass → Pass := fun r => { r with
          trigrams := trigrams
          inverter := inverter
          oversized := r.oversized || oversized
          docs := r.docs + 1
          followed := { r.followed with
            docs := r.followed.docs + 1
            bytes := r.followed.bytes + e.len } } with htake
        have hadded : ∀ r : Pass, r.trigrams = p.trigrams →
            r.Added doc (.ok e) ((take r).reach doc).1 ((take r).reach doc).2 := fun r hr =>
          .of_reach rfl (.inl rfl) ⟨rfl, rfl⟩ ⟨rfl, rfl⟩
            (fun _ hd => absurd hd (Nat.succ_ne_zero _)) fun hover hno => by
              have hover : (r.oversized || oversized) = true := hover
              rw [hno, Bool.false_or] at hover
              rw [hover] at hbuffer
              exact ⟨e, rfl, hr ▸ PairBuffer.add_oversized hbuffer⟩
        have halike : (take p).Alike (take q) :=
          ⟨h.unreadable, h.next_number, rfl, rfl, h.range, congrArg (· + 1) h.docs, h.frontier,
            congrArg (· || oversized) h.oversized⟩
        obtain ⟨hreach, hgo⟩ := halike.reach doc
        refine .inr ⟨((take p).reach doc).1, ((take q).reach doc).1, ((take p).reach doc).2, rfl,
          ?_, hreach, hadded p rfl, hgo ▸ hadded q h.trigrams.symm⟩
        rw [hgo]
        rfl

/-- A sealed pass. -/
def sealed (p : Pass) : Pass :=
  { p with
    manifest := { p.manifest with next_number := p.manifest.next_number + 1 }
    inverter := .new
    trigrams := .new
    docs := 0 }

/-- The writers of the segment a pass is filling. -/
def drained (env : Env) (p : Pass) (range : ℕ × ℕ) : Except WriteError Drained := do
  let terms ← p.inverter.drain_into_codec env.fingerprint range.1 range.2 env.codec
  let trigrams ← p.trigrams.drain_into env.fingerprint range.1 range.2
  .ok {
    number := p.manifest.next_number
    docs := p.docs
    range := range
    terms := terms
    trigrams := trigrams }

theorem seal_eq (env : Env) (p : Pass) (range : ℕ × ℕ) :
    p.seal_segment env range = (p.drained env range).map (·, p.sealed) := by
  unfold seal_segment drained
  cases p.inverter.drain_into_codec env.fingerprint range.1 range.2 env.codec with
  | error e => rfl
  | ok _ =>
    cases p.trigrams.drain_into env.fingerprint range.1 range.2 with
    | error e => rfl
    | ok _ => rfl

theorem Alike.drained_eq {env : Env} (h : p.Alike q) (range : ℕ × ℕ) :
    p.drained env range = q.drained env range := by
  unfold drained
  rw [h.inverter, h.trigrams, h.next_number, h.docs]

/-- A pass whose last segment has been written. -/
def closed (p : Pass) (pair : WrittenPair) : Pass :=
  { p.sealed with
    followed := { p.followed with
      segment := some pair.entry
      written := p.followed.written + pair.entry.total_bytes } }

/-- Whether a document's keys, or what is held, have filled the buffers. -/
def full (p : Pass) (extracted : Except Fault Extracted) (buffer : ℕ) : Bool :=
  p.docs ≠ 0 && ((match extracted with
    | .ok e => !PairBuffer.fits p.trigrams.len e.keys.length
    | .error _ => false) || PairBuffer.full p.inverter p.trigrams buffer)

theorem Alike.full_eq (h : p.Alike q) (x : Except Fault Extracted) (buffer : ℕ) :
    p.full x buffer = q.full x buffer := by
  unfold full
  rw [h.docs, h.trigrams, h.inverter]

/-- What a pass does next, with no pause and bytes to spare. -/
theorem next_eq {budget : Budget} {writing : Bool} (hbytes : p.followed.bytes < budget.bytes) :
    p.next x budget false writing
      = if p.full x budget.buffer = true then
          if p.published + writing.toNat + 1 < budget.segments then .handOff else .stop .buffer
        else .read := by
  have hnot : ¬ budget.bytes ≤ p.followed.bytes := not_le.mpr hbytes
  unfold next
  rw [if_neg (by simp)]
  show (if (p.docs ≠ 0 && budget.bytes ≤ p.followed.bytes)
      || (p.full x budget.buffer && !(p.full x budget.buffer
        && p.followed.bytes < budget.bytes && p.published + writing.toNat + 1 < budget.segments)) then
      Next.stop (if p.full x budget.buffer then .buffer else .bytes)
    else if p.full x budget.buffer && p.followed.bytes < budget.bytes
      && p.published + writing.toNat + 1 < budget.segments then .handOff else .read) = _
  cases hfull : p.full x budget.buffer with
  | false => simp [hnot]
  | true =>
    by_cases hmore : p.published + writing.toNat + 1 < budget.segments <;>
      simp [hnot, hbytes, hmore]

end Pass

/-! ## Publishing -/

namespace Following

variable (env : Env) (host : Host) (live : DocSet)

/-- A view published with a segment more, or none. -/
def closing_view (current : View) (frontier : ℕ) (m : Manifest) (pair : Option WrittenPair) :
    View where
  manifest := { m with
    segments := m.segments ++ (pair.map WrittenPair.entry).toList
    last_follow := some (host.clock m.sequence)
    frontier := frontier
    high_water := max m.high_water live.bound
    sequence := m.sequence + 1 }
  segments := current.segments ++ (pair.map WrittenPair.segment).toList
  trigrams := current.trigrams ++ (pair.map WrittenPair.trigram).toList

/-- The view a segment handed over is published as. -/
def settled_view (f : Following) (pair : WrittenPair) (frontier : ℕ) : View :=
  closing_view host live f.current frontier
    { f.pass.manifest with unreadable := f.pass.manifest.unreadable.filter (· < frontier) }
    (some pair)

/-- What publishing it makes of the pass. -/
def settled (f : Following) (pair : WrittenPair) (frontier : ℕ) : Following where
  pass := { f.pass with
    manifest := { f.pass.manifest with
      segments := f.pass.manifest.segments ++ [pair.entry]
      frontier := frontier
      high_water := max f.pass.manifest.high_water live.bound
      sequence := f.pass.manifest.sequence + 1 }
    followed := { f.pass.followed with
      segment := some pair.entry
      written := f.pass.followed.written + pair.entry.total_bytes }
    published := f.pass.published + 1 }
  writing := none
  current := f.settled_view host live pair frontier

/-- What a pass has handed over, and where it would be had it published that. -/
inductive Settles (f : Following) : List View → Following → Prop
  | idle (h : f.writing = none) : Settles f [] f
  | written {pair : WrittenPair} {frontier : ℕ} (h : f.writing = some (.ok pair, frontier)) :
    Settles f [f.settled_view host live pair frontier] (f.settled host live pair frontier)

/-- Whether a pass has nothing to publish. -/
def Idles (f : Following) : Prop :=
  f.pass.range = none ∧ f.pass.frontier = f.pass.manifest.frontier ∧ f.pass.followed.pruned = 0

/-- Publishes what was handed over and what was read since. -/
def finish (f : Following) : Writing Followed := do
  let f ← f.publish_writing host live
  f.publish_pass env host live

variable {env host live}

theorem Settles.publish {f s : Following} {pending : List View}
    (h : f.Settles host live pending s) :
    f.publish_writing host live = { published := pending, result := .ok s } := by
  cases h with
  | idle h =>
    rw [publish_writing, h]
    rfl
  | written h =>
    rw [publish_writing, h]
    rfl

theorem Settles.alike {f s : Following} {pending : List View} (h : f.Settles host live pending s) :
    s.pass.Alike f.pass ∧ s.pass.followed.pruned = f.pass.followed.pruned
      ∧ s.pass.followed.bytes = f.pass.followed.bytes
      ∧ s.pass.published = f.pass.published + f.writing.isSome.toNat := by
  cases h with
  | idle h =>
    rw [h]
    exact ⟨.refl _, rfl, rfl, rfl⟩
  | written h =>
    rw [h]
    exact ⟨⟨rfl, rfl, rfl, rfl, rfl, rfl, rfl, rfl⟩, rfl, rfl, rfl⟩

theorem publish_pass_idles {f : Following} (h : f.Idles) :
    ∃ followed, f.publish_pass env host live = { published := [], result := .ok followed } := by
  unfold Idles at h
  refine ⟨{ f.pass.followed with remaining := live.count f.pass.frontier live.bound }, ?_⟩
  rw [publish_pass, if_pos h]
  rfl

theorem publish_pass_error {f : Following} {e : Error} (h : ¬ f.Idles)
    (hlast : last_segment env f.pass = .error e) :
    f.publish_pass env host live = { published := [], result := .error e } := by
  unfold Idles at h
  rw [publish_pass, if_neg h, hlast]
  rfl

theorem publish_pass_ok {f : Following} {p : Pass} {pair : Option WrittenPair} (h : ¬ f.Idles)
    (hlast : last_segment env f.pass = .ok (pair, p)) :
    ∃ followed, f.publish_pass env host live
      = {
          published := [closing_view host live f.current f.pass.frontier p.manifest pair]
          result := .ok followed } := by
  unfold Idles at h
  refine ⟨{ p.followed with remaining := live.count f.pass.frontier live.bound }, ?_⟩
  rw [publish_pass, if_neg h, hlast]
  rfl

/-- The last segment of a pass that has read something. -/
theorem last_segment_some {p : Pass} {range : ℕ × ℕ} (h : p.range = some range) :
    last_segment env p = (do
      let drained ← (p.drained env range).mapError Error.write
      let pair ← drained.write env
      .ok (some pair, p.closed pair)) := by
  unfold last_segment
  rw [h]
  simp only [Pass.seal_eq]
  cases p.drained env range with
  | error e => rfl
  | ok drained => rfl

/-- The last segments of passes that are alike. -/
theorem last_segment_alike {p q : Pass} (h : p.Alike q) :
    (∃ e, last_segment env p = .error e ∧ last_segment env q = .error e)
      ∨ ∃ pair n p' q', last_segment env p = .ok (pair, p') ∧ last_segment env q = .ok (pair, q')
        ∧ p'.manifest = { p.manifest with next_number := n }
        ∧ q'.manifest = { q.manifest with next_number := n } := by
  cases hr : q.range with
  | none =>
    have hp : last_segment env p = .ok (none, p) := by
      rw [last_segment, h.range, hr]
    have hq : last_segment env q = .ok (none, q) := by
      rw [last_segment, hr]
    exact .inr ⟨none, p.manifest.next_number, p, q, hp, hq, rfl, by rw [h.next_number]⟩
  | some range =>
    rw [last_segment_some (h.range.trans hr), last_segment_some hr, h.drained_eq range]
    cases q.drained env range with
    | error e => exact .inl ⟨.write e, rfl, rfl⟩
    | ok drained =>
      simp only [Except.mapError, bind, Except.bind]
      cases drained.write env with
      | error e => exact .inl ⟨e, rfl, rfl⟩
      | ok pair =>
        refine .inr ⟨some pair, p.manifest.next_number + 1, p.closed pair, q.closed pair, rfl,
          rfl, rfl, ?_⟩
        rw [h.next_number]
        rfl

end Following

end Ferret
