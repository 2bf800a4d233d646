import Ferret.Index.Invert
import Ferret.Store.Manifest
import Ferret.Lib.Publish

/-!
# What an index covers

`Sound` is the invariant of the index: each document below the frontier is
unreadable, or dead, or was extracted once and is found by all that was
extracted from it. It is about a view together with the log of the
extractions that went into it, which nothing in the program keeps.
-/

namespace Ferret

open List

/-- One document's postings: its length, distinct trigram keys and distinct
terms. -/
structure Extracted where
  len : ℕ
  keys : List ℕ
  terms : List Bytes
deriving DecidableEq

/-- Why a document's bytes were not returned. -/
inductive Fault
  /-- It could not be read, and joins the unreadable set. -/
  | unreadable
  /-- Stop the pass here, before this document. -/
  | stop
deriving DecidableEq

/-- Both segments of a range, with their entry. -/
structure WrittenPair where
  entry : SegmentEntry
  segment : Stored
  trigram : Stored

/-- The segments are over the entry's range, in the codecs they should be. -/
structure WrittenPair.Matches (codec : Codec) (p : WrittenPair) : Prop where
  segment : p.segment.first = p.entry.first ∧ p.segment.last = p.entry.last
  trigram : p.trigram.first = p.entry.first ∧ p.trigram.last = p.entry.last
  codec : p.segment.codec = codec
  trigram_codec : p.trigram.codec = .dictionary

/-- A view has the segments its manifest lists. -/
structure View.Opens (codec : Codec) (v : View) (ps : List WrittenPair) : Prop where
  entries : v.manifest.segments = ps.map WrittenPair.entry
  segments : v.segments = ps.map WrittenPair.segment
  trigrams : v.trigrams = ps.map WrittenPair.trigram
  pairs : ∀ p ∈ ps, p.Matches codec

/-- The segments of a view, beside their entries. -/
def View.pairs (v : View) : List WrittenPair :=
  List.zipWith (fun entry (s : Stored × Stored) =>
    { entry := entry, segment := s.1, trigram := s.2 }) v.manifest.segments
    (v.segments.zip v.trigrams)

theorem View.Opens.pairs_eq {codec : Codec} {v : View} {ps : List WrittenPair}
    (h : v.Opens codec ps) : v.pairs = ps := by
  rw [View.pairs, h.entries, h.segments, h.trigrams]
  clear h
  induction ps with
  | nil => rfl
  | cons p ps ih =>
    simp only [map_cons, zip_cons_cons, zipWith_cons_cons]
    rw [ih]

/-- **What one publication does to the segments.** Those it names were there
before, or are new with a number no segment had. -/
structure Publication (v w : View) : Prop where
  consistent : w.manifest.Consistent
  opens : ∃ codec ps, w.Opens codec ps
  kept : ∀ p ∈ w.pairs, p.entry ∈ v.manifest.segments → p ∈ v.pairs
  fresh : ∀ p ∈ w.pairs, p.entry ∉ v.manifest.segments → v.manifest.next_number ≤ p.entry.number

/-- Publications by what becomes of the pairs. -/
theorem Publication.of {codec : Codec} {v w : View} {ps qs : List WrittenPair}
    (hv : v.Opens codec ps) (hw : w.Opens codec qs) (hv' : v.manifest.Consistent)
    (hw' : w.manifest.Consistent)
    (h : ∀ q ∈ qs, q ∈ ps ∨ v.manifest.next_number ≤ q.entry.number) : Publication v w where
  consistent := hw'
  opens := ⟨codec, qs, hw⟩
  kept := fun p hp he => by
    rw [hw.pairs_eq] at hp
    rw [hv.pairs_eq]
    rcases h p hp with hp | hn
    · exact hp
    · exact absurd (hv'.ranges p.entry he).2.2 (not_lt.mpr hn)
  fresh := fun p hp he => by
    rw [hw.pairs_eq] at hp
    rcases h p hp with hp | hn
    · exact absurd (hv.entries ▸ mem_map_of_mem hp) he
    · exact hn

variable {c : Contents} {t : Bytes} {d : ℕ}

/-- The documents of a lookup are in the segment's range. -/
theorem Contents.lookup_within {fingerprint : Bytes → ℕ}
    (h : d ∈ c.lookup fingerprint t) : c.first ≤ d ∧ d ≤ c.last := by
  rcases mem_lookup.mp h with h | h
  · obtain ⟨p, hp, -, hd⟩ := Merge.mem_docsOf h
    exact c.docs_within p hp d hd
  · exact c.records_within _ h

theorem Contents.docsOf_within (h : d ∈ docsOf c.terms t) : c.first ≤ d ∧ d ≤ c.last := by
  obtain ⟨p, hp, -, hd⟩ := Merge.mem_docsOf h
  exact c.docs_within p hp d hd

/-- What a dictionary holds is found there. -/
theorem Contents.docsOf_of_holds (h : Inverter.Holds c.terms t d) : d ∈ docsOf c.terms t := by
  obtain ⟨_, hmem, hd⟩ := h
  rw [Merge.docsOf_of_mem c.sorted hmem]
  exact hd

/-! ## Answers -/

/-- A pair of segments finds `d` by all that was extracted from it. -/
def WrittenPair.Answers (fingerprint : Bytes → ℕ) (p : WrittenPair) (d : ℕ) (x : Extracted) :
    Prop :=
  (∀ t ∈ x.terms, d ∈ p.segment.lookup fingerprint t)
    ∧ ∀ k ∈ x.keys, d ∈ docsOf p.trigram.terms (key_bytes k)

/-- A view finds `d` by all that was extracted from it. -/
def View.Answers (fingerprint : Bytes → ℕ) (v : View) (d : ℕ) (x : Extracted) : Prop :=
  (∀ t ∈ x.terms, d ∈ v.lookup fingerprint t)
    ∧ ∀ k ∈ x.keys, d ∈ v.lookup_trigram (key_bytes k)

namespace View

variable {fingerprint : Bytes → ℕ} {codec : Codec} {v : View} {ps : List WrittenPair}

theorem Opens.mem_lookup (h : v.Opens codec ps) {t : Bytes} {d : ℕ} :
    d ∈ v.lookup fingerprint t ↔ ∃ p ∈ ps, d ∈ p.segment.lookup fingerprint t := by
  rw [lookup, h.segments, mem_flatMap]
  simp

theorem Opens.mem_lookup_trigram (h : v.Opens codec ps) {k : Bytes} {d : ℕ} :
    d ∈ v.lookup_trigram k ↔ ∃ p ∈ ps, d ∈ docsOf p.trigram.terms k := by
  rw [lookup_trigram, h.trigrams, mem_flatMap]
  simp

theorem Opens.answers (h : v.Opens codec ps) {p : WrittenPair} (hp : p ∈ ps) {d : ℕ}
    {x : Extracted} (ha : p.Answers fingerprint d x) : v.Answers fingerprint d x :=
  ⟨fun t ht => h.mem_lookup.mpr ⟨p, hp, ha.1 t ht⟩,
    fun k hk => h.mem_lookup_trigram.mpr ⟨p, hp, ha.2 k hk⟩⟩

end View

/-! ## The invariant -/

/-- The extractions an index was made from. -/
abbrev Log := List (ℕ × Extracted)

/-- Whether a document was seen dead: below the bound of a catalog, and not
live in it. -/
def Dead (seen : List CatalogView) (incarnation : Bytes) (d : ℕ) : Prop :=
  ∃ c ∈ seen, c.incarnation = incarnation ∧ d < c.live.bound ∧ c.live.contains d = false

theorem Dead.cons {seen : List CatalogView} {incarnation : Bytes}
    (h : Dead seen incarnation d) (c : CatalogView) : Dead (c :: seen) incarnation d := by
  obtain ⟨c', hc', h⟩ := h
  exact ⟨c', .tail _ hc', h⟩

/-- **The index covers what is below its frontier.** -/
structure Sound (fingerprint : Bytes → ℕ) (codec : Codec) (seen : List CatalogView)
    (s : View × Log) : Prop where
  consistent : s.1.manifest.Consistent
  opens : ∃ ps, s.1.Opens codec ps
  once : (s.2.map Prod.fst).Nodup
  logged : ∀ e ∈ s.2, e.1 < s.1.manifest.frontier
  covered : ∀ d < s.1.manifest.frontier, d ∈ s.1.manifest.unreadable
    ∨ (∃ x, (d, x) ∈ s.2 ∧ s.1.Answers fingerprint d x) ∨ Dead seen s.1.manifest.incarnation d

/-- The extraction of a document, if it was read. -/
def extraction (read : ℕ → Except Fault Extracted) (d : ℕ) : Option (ℕ × Extracted) :=
  match read d with
  | .ok x => some (d, x)
  | .error _ => none

theorem extraction_eq_some {read : ℕ → Except Fault Extracted} {e : ℕ × Extracted} :
    extraction read d = some e ↔ e.1 = d ∧ read d = .ok e.2 := by
  unfold extraction
  obtain ⟨_, _⟩ := e
  cases read d with
  | error f => simp
  | ok x =>
    simp only [Option.some.injEq, Prod.mk.injEq, Except.ok.injEq]
    exact and_congr_left' eq_comm

/-- **What a publication makes of a view and its log.** The documents the
frontier passes, as they were read, go into the log; an index that covers
nothing is made from nothing. -/
def accept (read : ℕ → Except Fault Extracted) (live : DocSet) (s : View × Log) (w : View) :
    View × Log :=
  (w, if w.manifest.frontier = 0 then []
    else s.2 ++ (live.range s.1.manifest.frontier w.manifest.frontier).filterMap (extraction read))

section

variable {fingerprint : Bytes → ℕ} {codec : Codec} {seen : List CatalogView}
variable {read : ℕ → Except Fault Extracted}

variable {s : View × Log} {w : View}

theorem Sound.cons (h : Sound fingerprint codec seen s) (c : CatalogView) :
    Sound fingerprint codec (c :: seen) s where
  consistent := h.consistent
  opens := h.opens
  once := h.once
  logged := h.logged
  covered := fun d hd => (h.covered d hd).imp id (Or.imp id fun h => h.cons c)

/-- An index that covers nothing. -/
theorem Sound.discard {live : DocSet} (hw : w.manifest.frontier = 0)
    (hc : w.manifest.Consistent) (ho : w.Opens codec []) :
    Sound fingerprint codec seen (accept read live s w) where
  consistent := hc
  opens := ⟨[], ho⟩
  once := by
    rw [accept, if_pos hw]
    exact nodup_nil
  logged := fun e he => by
    rw [accept, if_pos hw] at he
    cases he
  covered := fun d hd => absurd (hw ▸ hd : d < 0) (Nat.not_lt_zero d)

/-- The log of a publication that moves the frontier on. -/
theorem accept_log {live : DocSet}
    (h : Sound fingerprint codec seen s) (hle : s.1.manifest.frontier ≤ w.manifest.frontier) :
    (accept read live s w).2
      = s.2 ++ (live.range s.1.manifest.frontier w.manifest.frontier).filterMap (extraction read) := by
  unfold accept
  split
  · rename_i hzero
    have hlog : s.2 = [] := eq_nil_iff_forall_not_mem.mpr fun e he => by
      have := h.logged e he
      omega
    have hrange : live.range s.1.manifest.frontier w.manifest.frontier = [] :=
      eq_nil_iff_forall_not_mem.mpr fun d hd => by
        have := (DocSet.mem_range.mp hd).2.1
        omega
    rw [hlog, hrange]
    rfl
  · rfl

/-- **A publication keeps the invariant**, given three things: it forgets no
unreadable document that is live; what it forgets of the live documents it
covered is unreadable; and the live documents the frontier passes are found
by all that was extracted from them, or unreadable. -/
theorem Sound.publish (h : Sound fingerprint codec seen s) {catalog : CatalogView}
    (hseen : catalog ∈ seen) (hinc : s.1.manifest.incarnation = catalog.incarnation)
    (hw : w.manifest.incarnation = s.1.manifest.incarnation) (hc : w.manifest.Consistent)
    (ho : ∃ ps, w.Opens codec ps) (hle : s.1.manifest.frontier ≤ w.manifest.frontier)
    (hbound : w.manifest.frontier ≤ catalog.live.bound)
    (hunreadable : ∀ d ∈ s.1.manifest.unreadable, catalog.live.contains d = true →
      d ∈ w.manifest.unreadable)
    (hold : ∀ d, d < s.1.manifest.frontier → catalog.live.contains d = true →
      d ∉ w.manifest.unreadable → (∀ t, d ∈ s.1.lookup fingerprint t → d ∈ w.lookup fingerprint t)
          ∧ ∀ k, d ∈ s.1.lookup_trigram k → d ∈ w.lookup_trigram k)
    (hnew : ∀ d, s.1.manifest.frontier ≤ d → d < w.manifest.frontier →
      catalog.live.contains d = true →
        (∃ x, read d = .ok x ∧ w.Answers fingerprint d x) ∨ d ∈ w.manifest.unreadable) :
    Sound fingerprint codec seen (accept read catalog.live s w) := by
  have hlog : (accept read catalog.live s w).2 = _ := accept_log h hle
  -- what the new part of the log says
  have hmem : ∀ e, e ∈ (catalog.live.range s.1.manifest.frontier w.manifest.frontier).filterMap
      (extraction read) ↔ (s.1.manifest.frontier ≤ e.1 ∧ e.1 < w.manifest.frontier
        ∧ catalog.live.contains e.1 = true) ∧ read e.1 = .ok e.2 := by
    intro e
    simp only [mem_filterMap, extraction_eq_some, DocSet.mem_range]
    exact ⟨fun ⟨d, hd, hed, hr⟩ => by subst hed; exact ⟨hd, hr⟩, fun ⟨hd, hr⟩ => ⟨_, hd, rfl, hr⟩⟩
  refine ⟨hc, ho, ?_, fun e he => ?_, fun d hd => ?_⟩
  · rw [hlog, map_append, nodup_append]
    refine ⟨h.once, ?_, ?_⟩
    · have hnodup := (catalog.live.pairwise_range s.1.manifest.frontier w.manifest.frontier).imp
        fun hab => ne_of_lt hab
      rw [List.Nodup, pairwise_map]
      refine List.Pairwise.filterMap _ (fun a a' haa b hb b' hb' => ?_) hnodup
      rw [(extraction_eq_some.mp hb).1, (extraction_eq_some.mp hb').1]
      exact haa
    · intro a ha b hb
      obtain ⟨e, he, rfl⟩ := mem_map.mp ha
      obtain ⟨e', he', rfl⟩ := mem_map.mp hb
      have := h.logged e he
      have := ((hmem e').mp he').1.1
      omega
  · rw [hlog] at he
    rcases mem_append.mp he with he | he
    · exact (h.logged e he).trans_le hle
    · exact ((hmem e).mp he).1.2.1
  · show d ∈ w.manifest.unreadable ∨ (∃ x, (d, x) ∈ (accept read catalog.live s w).2
      ∧ w.Answers fingerprint d x) ∨ Dead seen w.manifest.incarnation d
    have hd : d < w.manifest.frontier := hd
    rw [hlog, hw]
    cases hlive : catalog.live.contains d with
    | false => exact .inr (.inr ⟨catalog, hseen, hinc.symm, hd.trans_le hbound, hlive⟩)
    | true =>
      by_cases hu : d ∈ w.manifest.unreadable
      · exact .inl hu
      rcases lt_or_ge d s.1.manifest.frontier with hlt | hge
      · rcases h.covered d hlt with hd | ⟨x, hx, ha⟩ | hdead
        · exact absurd (hunreadable d hd hlive) hu
        · obtain ⟨hterms, htrigrams⟩ := hold d hlt hlive hu
          exact .inr (.inl ⟨x, mem_append_left _ hx,
            fun t ht => hterms t (ha.1 t ht), fun k hk => htrigrams _ (ha.2 k hk)⟩)
        · exact .inr (.inr hdead)
      · rcases hnew d hge hd hlive with ⟨x, hx, ha⟩ | hu'
        · exact .inr (.inl ⟨x, mem_append_right _ ((hmem (d, x)).mpr ⟨⟨hge, hd, hlive⟩, hx⟩),
            ha⟩)
        · exact absurd hu' hu

end

/-! ## Documents still alive -/

/-- Where no indexed document is live, each live one in range is unreadable. -/
theorem alive_eq_zero {segment : SegmentEntry} {live : DocSet} {unreadable : List ℕ}
    (hnodup : unreadable.Nodup) (h : alive segment live unreadable = 0)
    (hd : segment.first ≤ d ∧ d ≤ segment.last) (hlive : live.contains d = true) :
    d ∈ unreadable := by
  set stop := min (segment.last + 1) (docLimit - 1) with hstop
  set skipped := unreadable.filter fun doc =>
    decide (segment.first ≤ doc) && decide (doc < stop) && live.contains doc with hskipped
  have hcount : (live.range segment.first stop).length ≤ skipped.length := by
    rw [hskipped, ← countP_eq_length_filter]
    exact Nat.sub_eq_zero_iff_le.mp h
  have hsub : List.Subperm skipped (live.range segment.first stop) := by
    refine subperm_of_subset (hnodup.filter _) fun u hu => ?_
    have hu := (mem_filter.mp hu).2
    simp only [Bool.and_eq_true, decide_eq_true_eq] at hu
    exact DocSet.mem_range.mpr ⟨hu.1.1, hu.1.2, hu.2⟩
  have hmem : d ∈ live.range segment.first stop := by
    have hb := DocSet.lt_bound_of_contains hlive
    have := live.bound_lt
    exact DocSet.mem_range.mpr ⟨hd.1, by omega, hlive⟩
  exact (mem_filter.mp ((hsub.perm_of_length_le hcount).mem_iff.mpr hmem)).1

end Ferret
