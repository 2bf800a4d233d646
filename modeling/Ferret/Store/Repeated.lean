import Ferret.Index.TrigramInversion
import Ferret.Store.Beside

/-!
# One call for many segments, and many calls for one

`follow_repeated` says that a follow call with a budget of `k` segments publishes
what `k` calls publish that may write one each: the same views, one after
another. It stops early in one case, after a document that alone is too big for
the trigram buffer, and `follow_repeated_big` is one.
-/

namespace Ferret

open List

section

variable {env : Env} {host : Host} {budget : Budget} {catalog : CatalogView}

/-- A call that discards the index first is the call on what that leaves, and so
are the calls after it. -/
theorem reconcile_each {current v : View} {budget' : Budget} (n : ℕ)
    (hreconcile : reconcile current catalog = Publishing.publish v)
    (hfits : v.manifest.fits catalog = true) :
    follow_inner env host budget catalog current = {
        published := v :: (follow_inner env host budget catalog v).published
        result := (follow_inner env host budget catalog v).result }
      ∧ follow_each env host budget' catalog (n + 1) current = {
          published := v :: (follow_each env host budget' catalog (n + 1) v).published
          result := (follow_each env host budget' catalog (n + 1) v).result } := by
  have hcall : ∀ budget : Budget, follow_inner env host budget catalog current = {
      published := v :: (follow_inner env host budget catalog v).published
      result := (follow_inner env host budget catalog v).result } := by
    intro budget
    have hkept : reconcile v catalog = pure v := if_pos hfits
    rw [follow_inner, follow_inner, hreconcile, hkept, Publishing.pure_bind, Publishing.bind_ok rfl]
    rfl
  refine ⟨hcall budget, ?_⟩
  have hlast : (follow_inner env host budget' catalog current).last current
      = (follow_inner env host budget' catalog v).last v := by
    rw [hcall budget', Publishing.last, Publishing.last, ← singleton_append, getLast?_append]
    cases (follow_inner env host budget' catalog v).published.getLast? <;> rfl
  rw [follow_each, follow_each, hlast, hcall budget']
  cases hresult : (follow_inner env host budget' catalog v).result with
  | error e =>
    rw [Publishing.bind_error rfl, Publishing.bind_error hresult]
  | ok a =>
    rw [Publishing.bind_ok rfl, Publishing.bind_ok hresult]
    rfl

theorem readable_bytes_range (live : DocSet) (lo : ℕ) :
    readable_bytes host (live.range lo live.bound)
      ≤ readable_bytes host (live.range 0 live.bound) := by
  have hsub : (live.range lo live.bound).Sublist (live.range 0 live.bound) := by
    refine sublist_of_subperm_of_pairwise (subperm_of_subset
      ((live.pairwise_range _ _).imp fun h => h.ne) fun d hd => ?_) (live.pairwise_range _ _)
      (live.pairwise_range _ _)
    exact DocSet.mem_range.mpr ⟨Nat.zero_le _, (DocSet.mem_range.mp hd).2⟩
  exact (hsub.map _).sum_le_sum fun _ _ => Nat.zero_le _

/-- The calls on a view that fits its catalog. -/
theorem next_call_matches {current : View} {n : ℕ} (hfits : current.manifest.fits catalog = true)
    (hbelow : ∀ u ∈ current.manifest.unreadable, u < current.manifest.frontier)
    (hpause : ∀ d, host.cancelled d = false ∧ host.read d ≠ .error .stop)
    (hbytes : readable_bytes host (catalog.live.range 0 catalog.live.bound) < budget.bytes) :
    Matches host (follow_inner env host { budget with segments := n + 1 } catalog current) []
      (follow_each env host { budget with segments := 1 } catalog (n + 1) current) := by
  set docs := catalog.live.range current.manifest.frontier catalog.live.bound with hdocs
  have htracks : Tracks host catalog.live (next_call catalog current) (next_call catalog current)
      (next_call catalog current) [] := ⟨.idle rfl, rfl, rfl, rfl, .refl _⟩
  have hsingle : Single catalog (next_call catalog current) docs := by
    refine ⟨fun _ => rfl, hfits, fun u hu => (mem_filter.mp hu).2, fun u hu d hd => ?_,
      fun h => absurd rfl h, fun _ => rfl, rfl, rfl, _, hdocs⟩
    have hu := mem_of_mem_filter hu
    exact (hbelow u hu).trans_le (DocSet.mem_range.mp hd).1
  rw [follow_inner_fits hfits, follow_each_next hfits]
  refine htracks.matches hsingle (fun _ => rfl) ?_ ?_ le_rfl nofun
    hpause
  · show 0 + 0 + 1 + n = n + 1
    omega
  · show 0 + readable_bytes host docs < budget.bytes
    rw [zero_add]
    exact (readable_bytes_range catalog.live _).trans_lt hbytes

/-! ## A document that is too big -/

/-- The runs of one document's keys. -/
theorem TrigramInverter.runs_single {keys : List ℕ} (doc : ℕ) (h : keys.Pairwise (· < ·)) :
    runs (keys.map fun number => (number, doc)) = keys.map fun number => (number, [doc]) := by
  induction keys with
  | nil => rfl
  | cons k rest ih =>
    obtain ⟨hk, hrest⟩ := pairwise_cons.mp h
    rw [map_cons, runs, ih hrest]
    cases rest with
    | nil => rfl
    | cons next rest =>
      have hne : k ≠ next := (hk next (.head _)).ne
      simp [hne]

/-- A draft over one document takes any terms of it, and can be opened. -/
theorem Draft.single_written {fingerprint : Bytes → ℕ} {doc : ℕ} {ps : List (Bytes × List ℕ)}
    {w : Draft} (hdoc : doc < docLimit) (hsorted : ps.Pairwise fun a b => a.1 < b.1)
    (hdocs : ∀ q ∈ ps, q.2 = [doc]) (hbuild : build doc doc .dictionary = .ok w) :
    ∃ w' s, ps.foldlM (fun w q => w.push fingerprint q.1 q.2) w = .ok w' ∧ w'.finish = .ok w'
      ∧ Stored.ofDraft .dictionary w' = some s ∧ s.first = doc ∧ s.last = doc := by
  obtain ⟨⟨hfirst, hlast, hnone⟩, hempty, hsingles⟩ := build_spec hbuild
  have hplain : w.singles = none := hsingles
  have hpushable : ∀ q ∈ ps, Pushable w.first w.last q.2 := fun q hq => by
    rw [hdocs q hq, hfirst, hlast]
    exact ⟨nofun, pairwise_singleton _ _, by simp⟩
  have hall := pushAll_eq fingerprint (fun s hs => by rw [hplain] at hs; cases hs) hsorted
    (fun q _ hpos => absurd hpos (by rw [hnone]; exact lt_irrefl 0)) hpushable
  set w' := w.pushed_terms fingerprint ps with hw'
  have hsingles' : w'.singles = none := by
    rw [hw', pushed_terms, hplain]
    rfl
  have hterms' : w'.terms = ps := by
    rw [hw']
    show w.terms ++ w.kept ps = ps
    rw [hempty, kept, hplain]
    rfl
  have hfinish : w'.finish = .ok w' := by
    have hsealed : w'.seal_records = w' := by
      rw [seal_records, hsingles']
      show { w' with singles := none } = w'
      rw [← hsingles']
    rw [finish, hsealed, hsingles']
    rfl
  have hcontents : ∃ c, Contents.of w'.first w'.last w'.terms w'.records = some c
      ∧ (c.first = doc ∧ c.last = doc) ∧ c.records = [] := by
    have hrecords : w'.records = [] := by
      rw [records, hsingles']
    have hwf : (doc ≤ doc ∧ doc < docLimit) ∧ ps.Pairwise (fun p q => p.1 < q.1)
        ∧ (∀ p ∈ ps, p.2 ≠ [] ∧ p.2.Pairwise (· < ·) ∧ ∀ d ∈ p.2, doc ≤ d ∧ d ≤ doc)
        ∧ ([] : List Record).Pairwise (· < ·)
        ∧ ∀ r ∈ ([] : List Record), doc ≤ (ofLex r).2 ∧ (ofLex r).2 ≤ doc := by
      refine ⟨⟨le_rfl, hdoc⟩, hsorted, fun q hq => ?_, .nil, fun _ h => by cases h⟩
      rw [hdocs q hq]
      exact ⟨nofun, pairwise_singleton _ _, by simp⟩
    have hf : w'.first = doc := hfirst
    have hl : w'.last = doc := hlast
    rw [hf, hl, hterms', hrecords, Contents.of, dif_pos hwf]
    exact ⟨_, rfl, ⟨rfl, rfl⟩, rfl⟩
  obtain ⟨c, hc, hrange, hrecords⟩ := hcontents
  refine ⟨w', { c with codec := .dictionary, plain := fun _ => hrecords }, hall, hfinish, ?_, hrange⟩
  rw [Stored.ofDraft, hc]
  exact dif_pos fun _ => hrecords

/-- A segment of one document, of one term, is written whatever its keys. -/
theorem Following.last_segment_single {p : Pass} {doc : ℕ} {term : Bytes} {keys : List ℕ}
    (hcodec : env.codec = .dictionary) (hterms : p.inverter.terms = [(term, [doc])])
    (hpairs : p.trigrams.pairs = keys.map fun number => (number, doc))
    (hrange : p.range = some (doc, doc)) (hdoc : doc < docLimit) (hsorted : keys.Pairwise (· < ·))
    (hkeys : ∀ k ∈ keys, k < 2 ^ 24) :
    ∃ pair, last_segment env p = .ok (some pair, p.closed pair) := by
  obtain ⟨w, hbuild⟩ : ∃ w, Draft.build doc doc .dictionary = .ok w := by
    rw [Draft.build, if_neg (lt_irrefl doc)]
    exact ⟨_, rfl⟩
  obtain ⟨terms, segment, hpush, hfinish, hsegment, hsrange⟩ := @Draft.single_written
    env.fingerprint doc [(term, [doc])] w hdoc (pairwise_singleton _ _)
    (fun q hq => by rw [mem_singleton.mp hq]) hbuild
  have hbytes : (keys.map fun k => (key_bytes k, [doc])).Pairwise fun a b => a.1 < b.1 :=
    pairwise_map.mpr (hsorted.imp_of_mem fun _ hb h => Inversion.key_bytes_lt (hkeys _ hb) h)
  obtain ⟨trigrams, trigram, hpush', hfinish', htrigram, htrange⟩ := @Draft.single_written
    env.fingerprint doc (keys.map fun k => (key_bytes k, [doc])) w hdoc hbytes
    (fun q hq => by
      obtain ⟨k, -, rfl⟩ := mem_map.mp hq
      rfl) hbuild
  have hdrain : p.inverter.drain_into_codec env.fingerprint doc doc env.codec = .ok terms := by
    rw [Inverter.drain_into_codec, hcodec, hbuild, hterms, mergeSort_singleton]
    exact hpush
  have hdrain' : p.trigrams.drain_into env.fingerprint doc doc = .ok trigrams := by
    have hpairwise : (keys.map fun number => (number, doc)).Pairwise
        fun a b => decide (a.1 ≤ b.1) = true :=
      pairwise_map.mpr (hsorted.imp fun h => decide_eq_true h.le)
    rw [TrigramInverter.drain_into, hbuild, hpairs, mergeSort_of_pairwise hpairwise,
      TrigramInverter.runs_single doc hsorted]
    show List.foldlM _ w _ = _
    rw [foldlM_map] at hpush' ⊢
    exact hpush'
  have hdrained : p.drained env (doc, doc) = .ok {
      number := p.manifest.next_number
      docs := p.docs
      range := (doc, doc)
      terms := terms
      trigrams := trigrams } := by
    rw [Pass.drained, hdrain, hdrain']
    rfl
  have hprepare : ∃ pair, prepare_pair env p.manifest.next_number p.docs (doc, doc) terms trigrams
      = .ok pair := by
    rw [prepare_pair, hcodec, hsegment, htrigram]
    have hranges : (segment.first, segment.last) = (doc, doc)
        ∧ (trigram.first, trigram.last) = (doc, doc) :=
      ⟨Prod.ext hsrange.1 hsrange.2, Prod.ext htrange.1 htrange.2⟩
    simp only [if_pos hranges]
    exact ⟨_, rfl⟩
  obtain ⟨pair, hpair⟩ := hprepare
  refine ⟨pair, ?_⟩
  rw [last_segment_some hrange, hdrained]
  simp only [Except.mapError, bind, Except.bind, Drained.write, hfinish, hfinish', hpair]

/-- What the first document of a segment makes of it. -/
theorem Pass.add_first (m : Manifest) (live : DocSet) (doc len : ℕ) (keys : List ℕ) (term : Bytes) :
    ∃ p, (Pass.new m live).add doc (.ok { len := len, keys := keys, terms := [term] })
        = .ok (p, !decide (PairBuffer.CAPACITY < keys.length))
      ∧ p.range = some (doc, doc) ∧ p.inverter.terms = [(term, [doc])]
      ∧ p.trigrams.pairs = keys.map fun number => (number, doc) := by
  have hbuffer : PairBuffer.add TrigramInverter.new doc keys = .ok ({
      pairs := keys.map fun number => (number, doc)
      last := some doc }, decide (PairBuffer.CAPACITY < keys.length)) := by
    by_cases hover : PairBuffer.CAPACITY < keys.length
    all_goals
      simp [PairBuffer.add, PairBuffer.admit_keys, TrigramInverter.add_keys, TrigramInverter.new,
        TrigramInverter.len, hover, bind, Except.bind]
  set q : Pass := { Pass.new m live with
    trigrams := { pairs := keys.map fun number => (number, doc), last := some doc }
    inverter := { terms := [(term, [doc])], last := some doc }
    oversized := decide (PairBuffer.CAPACITY < keys.length)
    docs := 1
    followed := { (Pass.new m live).followed with docs := 1, bytes := 0 + len } } with hq
  have hadd : (Pass.new m live).add doc (.ok { len := len, keys := keys, terms := [term] })
      = .ok (q.reach doc) := by
    rw [Pass.add]
    show (PairBuffer.add TrigramInverter.new doc keys >>= fun r => _) = _
    rw [hbuffer]
    rfl
  obtain ⟨_, hreach⟩ := q.reach_eq doc
  refine ⟨(q.reach doc).1, ?_, ?_, ?_, ?_⟩
  · rw [hadd, hreach]
  · rw [hreach]
    rfl
  · rw [hreach]
  · rw [hreach]

/-- A call whose first segment takes one document. -/
theorem next_call_single {v : View} {doc len : ℕ} {keys : List ℕ} {term : Bytes} {rest : List ℕ}
    (hcodec : env.codec = .dictionary)
    (hread : host.read doc = .ok { len := len, keys := keys, terms := [term] })
    (hdoc : doc < docLimit) (hsorted : keys.Pairwise (· < ·)) (hkeys : ∀ k ∈ keys, k < 2 ^ 24)
    (honly : PairBuffer.CAPACITY < keys.length ∨ rest = []) :
    ∃ w followed, (next_call catalog v).resume env host budget catalog doc rest
        = { published := [w], result := .ok followed }
      ∧ (v.manifest.fits catalog = true → w.manifest.fits catalog = true)
      ∧ (PairBuffer.CAPACITY < keys.length → w.manifest.frontier = doc + 1) := by
  obtain ⟨p, hadd, hrange, hterms, hpairs⟩ :=
    Pass.add_first v.manifest catalog.live doc len keys term
  obtain ⟨pair, hlast⟩ :=
    Following.last_segment_single hcodec hterms hpairs hrange hdoc hsorted hkeys
  set f : Following := { next_call catalog v with pass := p } with hf
  have hresume : (next_call catalog v).resume env host budget catalog doc rest
      = f.finish env host catalog.live := by
    rw [Following.resume_ok (hread ▸ hadd)]
    rcases honly with hover | rfl
    · rw [decide_eq_true hover]
      rfl
    · split <;> rfl
  have hbusy : ¬ f.Idles := fun h => by
    have hnone : p.range = none := h.1
    rw [hrange] at hnone
    cases hnone
  obtain ⟨followed, hpublish⟩ := @Following.publish_pass_ok env host catalog.live f _ _ hbusy hlast
  have hadded : (Pass.new v.manifest catalog.live).Added doc
      (.ok { len := len, keys := keys, terms := [term] }) p
      (!decide (PairBuffer.CAPACITY < keys.length)) := by
    rcases (Pass.Alike.refl (Pass.new v.manifest catalog.live)).add doc (x := .ok _)
      (nofun) with ⟨e, he, -⟩ | ⟨_, -, _, hp', -, -, hadded, -⟩
    · rw [hadd] at he
      cases he
    · rw [hadd] at hp'
      cases hp'
      exact hadded
  refine ⟨Following.closing_view host catalog.live v p.frontier (p.closed pair).manifest (some pair),
    followed, ?_, fun hfits => ?_, fun hover => ?_⟩
  · rw [hresume, Following.finish_idle rfl, hpublish]
    rfl
  · refine Following.closing_fits ?_
    show p.manifest.fits catalog = true
    rw [hadded.manifest]
    exact hfits
  · rw [decide_eq_true hover] at hadded
    exact (hadded.stops rfl).1

end

/-- The keys of three bytes from 97 on. -/
def many_keys : List ℕ :=
  (List.range' 97 159).flatMap fun a => (List.range' 97 159).flatMap fun b =>
    (List.range' 97 159).map fun c => a * 65536 + b * 256 + c

theorem many_keys_length : many_keys.length = 159 * (159 * 159) := by
  simp [many_keys, length_flatMap, map_const']

theorem mem_many_keys {k : ℕ} (h : k ∈ many_keys) : k < 2 ^ 24 := by
  simp only [many_keys, mem_flatMap, mem_map, mem_range'_1] at h
  obtain ⟨a, _, b, _, c, _, rfl⟩ := h
  omega

theorem many_keys_pairwise : many_keys.Pairwise (· < ·) := by
  have hbytes : (List.range' 97 159).Pairwise (· < ·) := pairwise_lt_range'
  refine pairwise_flatMap.mpr ⟨fun a _ => pairwise_flatMap.mpr ⟨fun b _ => ?_, ?_⟩, ?_⟩
  · exact pairwise_map.mpr (hbytes.imp fun h => Nat.add_lt_add_left h _)
  · refine hbytes.imp fun {b b'} hb x hx y hy => ?_
    obtain ⟨c, hc, rfl⟩ := mem_map.mp hx
    obtain ⟨c', hc', rfl⟩ := mem_map.mp hy
    have := mem_range'_1.mp hc
    omega
  · refine hbytes.imp fun {a a'} ha x hx y hy => ?_
    simp only [mem_flatMap, mem_map, mem_range'_1] at hx hy
    obtain ⟨b, hb, c, hc, rfl⟩ := hx
    obtain ⟨b', _, c', hc', rfl⟩ := hy
    omega

/-- A first document of more keys than the trigram buffer holds, and a second. -/
def bigHost : Host where
  read := fun d => .ok { len := 3, keys := if d = 0 then many_keys else [6381921], terms := [[97]] }
  cancelled := fun _ => false
  clock := fun _ => 0

def wideBudget : Budget where
  bytes := 1000
  buffer := 1000
  segments := 2

/-- **One call for `k` segments publishes what `k` calls for one publish**: the
same views one after another, each with its segments, its frontier and its
unreadable documents. Where a call fails, or a document alone is too big for the
trigram buffer, it publishes a first part of them, which in the latter case ends
with that document. -/
theorem follow_repeated (env : Env) (host : Host) (budget : Budget) (catalog : CatalogView)
    (current : View) {k : ℕ} (hk : 0 < k) (hcurrent : current.manifest.Consistent)
    (hpause : ∀ d, host.cancelled d = false ∧ host.read d ≠ .error .stop)
    (hbytes : readable_bytes host (catalog.live.range 0 catalog.live.bound) < budget.bytes) :
    let piped := follow_inner env host { budget with segments := k } catalog current
    let each := follow_each env host { budget with segments := 1 } catalog k current
    piped.published <+: each.published
      ∧ (piped.result.isOk = true ∨ each.result.isOk = true →
        piped.published = each.published ∨ Oversized host piped.published) := by
  obtain ⟨n, rfl⟩ := Nat.exists_eq_add_one.mpr hk
  cases hfits : current.manifest.fits catalog with
  | true =>
    obtain ⟨hleading, hwhole⟩ := @next_call_matches env _ _ _ _ n hfits hcurrent.below hpause hbytes
    exact ⟨hleading, hwhole⟩
  | false =>
    set v : View := {
      manifest := { Manifest.empty catalog.incarnation with
        sequence := current.manifest.sequence + 1 }
      segments := []
      trigrams := [] } with hv
    have hstart : reconcile current catalog = Publishing.publish v :=
      if_neg (by rw [hfits]; nofun)
    have hvfits : v.manifest.fits catalog = true := by
      simp [v, Manifest.fits, Manifest.empty]
    obtain ⟨hleading, hwhole⟩ := @next_call_matches env _ _ _ _ n hvfits
      (forall_mem_nil _) hpause hbytes
    obtain ⟨hpiped, heach⟩ := @reconcile_each env host { budget with segments := n + 1 } catalog
      current v { budget with segments := 1 } n hstart hvfits
    rw [hpiped, heach]
    refine ⟨cons_prefix_cons.mpr ⟨rfl, hleading⟩, fun hok => ?_⟩
    exact (hwhole hok).imp (congrArg (v :: ·)) fun hover => hover.append [v]

/-- Two documents, each of which fills the buffer. -/
theorem follow_repeated_two :
    let piped := follow_inner plainEnv oneReadable { bytes := 1000, buffer := 1, segments := 2 }
      twoDocuments (View.blank [7])
    let each := follow_each plainEnv oneReadable { bytes := 1000, buffer := 1, segments := 1 }
      twoDocuments 2 (View.blank [7])
    piped.published.map (fun v => (v.manifest.frontier, v.manifest.unreadable)) = [(1, []), (2, [1])]
      ∧ piped.published <+: each.published
      ∧ (piped.result.isOk = true ∨ each.result.isOk = true →
        piped.published = each.published ∨ Oversized oneReadable piped.published) := by
  refine ⟨by decide +kernel, ?_⟩
  exact follow_repeated plainEnv oneReadable { bytes := 1000, buffer := 1, segments := 0 }
    twoDocuments (View.blank [7]) (by decide) ⟨by decide, by decide, by decide, by decide, by decide,
      by decide⟩ (fun d => ⟨rfl, fun h => by
        by_cases hd : d = 0 <;> simp [oneReadable, hd] at h⟩) (by decide)

/-- **After a document that is too big, one call stops** where another would go
on. -/
theorem follow_repeated_big :
    let piped := follow_inner plainEnv bigHost { wideBudget with segments := 2 } twoDocuments
      (View.blank [7])
    let each := follow_each plainEnv bigHost { wideBudget with segments := 1 } twoDocuments 2
      (View.blank [7])
    (piped.result.isOk = true ∧ each.result.isOk = true)
      ∧ piped.published.length = 1 ∧ each.published.length = 2 := by
  intro piped each
  have hblank : (View.blank [7]).manifest.fits twoDocuments = true := by decide
  have hdocs : twoDocuments.live.range 0 twoDocuments.live.bound = [0, 1]
      ∧ twoDocuments.live.range 1 twoDocuments.live.bound = [1] := by decide
  have hover : PairBuffer.CAPACITY < many_keys.length := by
    rw [many_keys_length]
    decide
  have hread : ∀ (k : ℕ) (v : View) (doc : ℕ) (rest : List ℕ),
      (next_call twoDocuments v).onward plainEnv bigHost { wideBudget with segments := k }
          twoDocuments (doc :: rest)
        = (next_call twoDocuments v).resume plainEnv bigHost { wideBudget with segments := k }
          twoDocuments doc rest := fun k v doc rest => by
    refine Following.onward_read ?_
    have hnext : (next_call twoDocuments v).pass.next (bigHost.read doc)
        { wideBudget with segments := k } false false = _ :=
      Pass.next_eq (show 0 < 1000 by decide)
    show (next_call twoDocuments v).pass.next (bigHost.read doc)
        { wideBudget with segments := k } false false = .read
    rw [hnext, Pass.full_empty rfl, if_neg Bool.false_ne_true]
  -- the first document is a segment of its own, in either call
  have hfirst : ∀ k, ∃ w followed, (next_call twoDocuments (View.blank [7])).onward plainEnv bigHost
        { wideBudget with segments := k } twoDocuments [0, 1]
        = { published := [w], result := .ok followed }
      ∧ w.manifest.fits twoDocuments = true ∧ w.manifest.frontier = 1 := fun k => by
    obtain ⟨w, followed, hw, hfits, hfrontier⟩ := @next_call_single plainEnv bigHost
      { wideBudget with segments := k } twoDocuments (View.blank [7]) 0 3 many_keys [97] [1] rfl rfl
      (by decide) many_keys_pairwise (fun _ => mem_many_keys) (.inl hover)
    exact ⟨w, followed, (hread k _ 0 [1]).trans hw, hfits hblank, hfrontier hover⟩
  obtain ⟨w, followed, hw, -⟩ := hfirst 2
  have hpiped : piped = { published := [w], result := .ok followed } := by
    show follow_inner plainEnv bigHost _ twoDocuments (View.blank [7]) = _
    rw [follow_inner_fits hblank]
    exact hdocs.1 ▸ hw
  obtain ⟨u, _, hu, hfits, hfrontier⟩ := hfirst 1
  -- and the second is in the call after it
  obtain ⟨t, _, ht, -⟩ := @next_call_single plainEnv bigHost
    { wideBudget with segments := 1 } twoDocuments u 1 3 [6381921] [97] [] rfl rfl
    (by decide) (pairwise_singleton _ _) (by decide) (.inr rfl)
  have heach : ∃ v, each = { published := [u, t], result := .ok v } := by
    show ∃ v, follow_each plainEnv bigHost _ twoDocuments 2 (View.blank [7]) = _
    rw [follow_each_next hblank]
    have hrange : twoDocuments.live.range (View.blank [7]).manifest.frontier twoDocuments.live.bound
        = [0, 1] := hdocs.1
    rw [hrange, then_each, hu, Publishing.bind_ok rfl]
    show ∃ v, Publishing.mk ([u] ++ (follow_each plainEnv bigHost _ twoDocuments 1 u).published)
      (follow_each plainEnv bigHost _ twoDocuments 1 u).result = _
    rw [follow_each_next hfits, hfrontier, hdocs.2, hread, ht, then_each, Publishing.bind_ok rfl]
    exact ⟨t, rfl⟩
  obtain ⟨v, heach⟩ := heach
  rw [hpiped, heach]
  exact ⟨⟨rfl, rfl⟩, rfl, rfl⟩

end Ferret
