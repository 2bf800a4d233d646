import Ferret.Store.MergingCoverage

/-!
# Runs of the store

Every sequence of operations, each with the catalog of its time and each cut
off after any of its publications: by an error, a pause or a crash. Along
such a run a document once dead does not come back, which is all that is
asked of the catalogs.
-/

namespace Ferret

open List

/-- A document seen dead in a catalog is dead in this one. -/
def Admissible (seen : List CatalogView) (catalog : CatalogView) : Prop :=
  ∀ c ∈ seen, c.incarnation = catalog.incarnation →
    ∀ d, d < c.live.bound → c.live.contains d = false → catalog.live.contains d = false

/-- Opens the index on disk, which is discarded when it does not fit the
catalog, is of another codec or does not read back. -/
def open_with (codec : Codec) (readable : Bool) (catalog : CatalogView) (disk : View) :
    Writing View :=
  if readable ∧ disk.manifest.fits catalog ∧ disk.segments.all (·.codec = codec) then pure disk
  else manifest_only (View.blank catalog.incarnation) (Manifest.empty catalog.incarnation)

/-- An explicit content reset. -/
def reset (catalog : CatalogView) (current : View) : Writing View :=
  manifest_only current (Manifest.empty catalog.incarnation)

/-- The operations of the store on a view, with what the host brings to
each. -/
inductive Op (v : View)
  | openIndex (readable : Bool)
  | reset
  | follow (host : Host) (budget : Budget)
  | mergeSelected (clock : ℕ → ℕ) (budget : Budget) (plan : MergePlan v)
  | mergeBatch (clock : ℕ → ℕ) (budget : Budget) (plans : List (MergePlan v))

namespace Op

variable {v : View}

/-- What an operation publishes, when nothing cuts it off. -/
def published (env : Env) (catalog : CatalogView) : Op v → List View
  | openIndex readable => (open_with env.codec readable catalog v).published
  | reset => (Ferret.reset catalog v).published
  | follow host budget => (follow_inner env host budget catalog v).published
  | mergeSelected clock budget plan => (merge_selected env clock budget catalog v plan).published
  | mergeBatch clock budget plans => (merge_selected_batch env clock budget catalog v plans).published

/-- How an operation reads documents, if it does. -/
def read : Op v → ℕ → Except Fault Extracted
  | follow host _ => host.read
  | _ => fun _ => .error .unreadable

/-- A writer works on segments of its own codec: it was opened with it. -/
def Ready (env : Env) : Op v → Prop
  | openIndex _ => True
  | _ => ∀ s ∈ v.segments, s.codec = env.codec

end Op

/-- **The states a run can reach** from an empty index, with the catalogs it
has seen and the extractions in the index. -/
inductive Reach (fingerprint : Bytes → ℕ) : List CatalogView → View × Log → Prop
  | start (incarnation : Bytes) : Reach fingerprint [] (View.blank incarnation, [])
  | step {seen : List CatalogView} {s : View × Log} (before : Reach fingerprint seen s)
    {catalog : CatalogView} (admissible : Admissible seen catalog) {env : Env}
    (hash : env.fingerprint = fingerprint) {op : Op s.1} (ready : op.Ready env) {done : List View}
    (cut : done <+: op.published env catalog) :
    Reach fingerprint (catalog :: seen) (done.foldl (accept op.read catalog.live) s)

variable {seen : List CatalogView} {s : View × Log} {fingerprint : Bytes → ℕ}

/-- An index of a codec is one of another, where its segments say so. -/
theorem Sound.recode {codec codec' : Codec} (h : Sound fingerprint codec seen s)
    (hcodec : ∀ t ∈ s.1.segments, t.codec = codec') :
    Sound fingerprint codec' seen s := by
  obtain ⟨ps, ho⟩ := h.opens
  refine { h with opens := ⟨ps, { ho with pairs := fun p hp => { ho.pairs p hp with codec := ?_ } }⟩ }
  exact hcodec p.segment (by rw [ho.segments]; exact mem_map_of_mem hp)

/-- What an operation publishes keeps the index sound, each time. -/
structure Op.Kept (fingerprint : Bytes → ℕ) (codec : Codec) (seen : List CatalogView)
    (catalog : CatalogView) (env : Env) (s : View × Log) (op : Op s.1) : Prop where
  sound : ∀ done, done <+: op.published env catalog →
    Sound fingerprint codec seen (done.foldl (accept op.read catalog.live) s)
  moves : ∀ done w, done ++ [w] <+: op.published env catalog →
    Publication (done.foldl (accept op.read catalog.live) s).1 w

/-- **One operation keeps the index sound**, wherever it is cut off. -/
theorem Op.published_kept {env : Env} {catalog : CatalogView} {codec : Codec}
    (h : Sound env.fingerprint codec seen s) (hseen : catalog ∈ seen) {op : Op s.1}
    (hready : op.Ready env) :
    ∃ codec', op.Kept env.fingerprint codec' seen catalog env s := by
  cases op with
  | openIndex readable =>
    refine ⟨codec, ?_⟩
    have hkeeps := @manifest_only_keeps ⟨codec, env.fingerprint, env.describe⟩ catalog seen s
      (fun _ => .error .unreadable) h
      (View.blank catalog.incarnation)
    by_cases husable : readable = true ∧ s.1.manifest.fits catalog = true
        ∧ s.1.segments.all (·.codec = env.codec) = true
    · have hnil : (openIndex readable : Op s.1).published env catalog = [] := by
        rw [published, open_with, if_pos husable]
        rfl
      refine ⟨fun done hcut => ?_, fun done w hcut => ?_⟩
      · rw [hnil] at hcut
        rw [prefix_nil.mp hcut]
        exact h
      · rw [hnil] at hcut
        exact absurd (prefix_nil.mp hcut) (by simp)
    · have heq : (openIndex readable : Op s.1).published env catalog
          = (manifest_only (View.blank catalog.incarnation)
            (Manifest.empty catalog.incarnation)).published := by
        rw [published, open_with, if_neg husable]
      exact ⟨fun done hcut => hkeeps.prefixes done (heq ▸ hcut),
        fun done w hcut => hkeeps.moves done w (heq ▸ hcut)⟩
  | reset =>
    have hkeeps := @manifest_only_keeps env catalog seen s (fun _ => .error .unreadable)
      (h.recode hready) s.1
    exact ⟨env.codec, hkeeps.prefixes, hkeeps.moves⟩
  | follow host budget =>
    have hkeeps := @follow_inner_keeps env host catalog seen budget s hseen (h.recode hready)
    exact ⟨env.codec, hkeeps.prefixes, hkeeps.moves⟩
  | mergeSelected clock budget plan =>
    have hkeeps := @merge_selected_keeps env catalog seen s (fun _ => .error .unreadable) clock
      budget hseen (h.recode hready) plan
    exact ⟨env.codec, hkeeps.prefixes, hkeeps.moves⟩
  | mergeBatch clock budget plans =>
    have hkeeps := @merge_selected_batch_keeps env catalog seen s (fun _ => .error .unreadable)
      clock budget hseen (h.recode hready) plans
    exact ⟨env.codec, hkeeps.prefixes, hkeeps.moves⟩

/-- **Every reachable index is sound.** -/
theorem Reach.sound (h : Reach fingerprint seen s) :
    ∃ codec, Sound fingerprint codec seen s := by
  induction h with
  | start incarnation =>
    exact ⟨.dictionary, Manifest.empty_consistent incarnation 0,
      ⟨[], rfl, rfl, rfl, nofun⟩, nodup_nil, nofun,
      fun d hd => absurd hd (Nat.not_lt_zero d)⟩
  | step _ _ hash ready cut ih =>
    subst hash
    obtain ⟨codec, hs⟩ := ih
    obtain ⟨codec', hkept⟩ := Op.published_kept (hs.cons _) (.head _) ready
    exact ⟨codec', hkept.sound _ cut⟩

/-- **The index covers what it says it covers.** After any run, for a catalog
in which the dead have stayed dead: each live document below the frontier is
unreadable, or was extracted once and is found by every term and trigram that
was extracted from it. And what is not covered is the live documents at or
past the frontier and the unreadable ones, in order. -/
theorem Reach.covers {fingerprint : Bytes → ℕ} {seen : List CatalogView} {v : View} {log : Log}
    (h : Reach fingerprint seen (v, log)) :
    (∀ catalog, Admissible seen catalog → catalog.incarnation = v.manifest.incarnation →
      ∀ d, catalog.live.contains d = true → d < v.manifest.frontier →
        d ∈ v.manifest.unreadable
          ∨ ∃ x, log.filter (fun e => e.1 = d) = [(d, x)]
            ∧ (∀ t ∈ x.terms, d ∈ v.lookup fingerprint t)
            ∧ ∀ k ∈ x.keys, d ∈ v.lookup_trigram (key_bytes k))
      ∧ ∀ live : DocSet, (v.uncovered live).Pairwise (· < ·)
        ∧ ∀ d, d ∈ v.uncovered live
          ↔ live.contains d = true ∧ (v.manifest.frontier ≤ d ∨ d ∈ v.manifest.unreadable) := by
  obtain ⟨_, hs⟩ := h.sound
  refine ⟨fun catalog hadm hinc d hlive hd => ?_,
    fun live => ⟨View.pairwise_uncovered hs.consistent live, fun d => View.mem_uncovered⟩⟩
  rcases hs.covered d hd with hu | ⟨x, hx, hterms, htrigrams⟩ | ⟨c, hc, hcinc, hb, hdead⟩
  · exact .inl hu
  · refine .inr ⟨x, ?_, hterms, htrigrams⟩
    -- an extraction in the log is the only one of its document
    have honce := hs.once
    obtain ⟨l₁, l₂, rfl⟩ := append_of_mem hx
    rw [map_append, map_cons, nodup_append, nodup_cons] at honce
    have h₁ : l₁.filter (fun e => e.1 = d) = [] := filter_eq_nil_iff.mpr fun e he heq =>
      honce.2.2 _ (mem_map_of_mem he) d (.head _) (of_decide_eq_true heq)
    have h₂ : l₂.filter (fun e => e.1 = d) = [] := filter_eq_nil_iff.mpr fun e he heq =>
      honce.2.1.1 (mem_map.mpr ⟨e, he, of_decide_eq_true heq⟩)
    simp [filter_append, h₁, h₂]
  · have := hadm c hc (hcinc.trans hinc.symm) d hb hdead
    rw [this] at hlive
    cases hlive

/-- A catalog with two live documents. -/
def twoDocuments : CatalogView where
  incarnation := [7]
  live := DocSet.new 2 two_lt_docLimit [0, 1]

/-- A host that reads the first document and fails on the second. -/
def oneReadable : Host where
  read := fun d => if d = 0 then .ok { len := 3, keys := [6382179], terms := [[97, 98, 99]] }
    else .error .unreadable
  cancelled := fun _ => false
  clock := fun _ => 0

def plainEnv : Env where
  codec := .dictionary
  fingerprint := List.length
  describe := fun _ _ => {
    terms := 1
    pairs := 1
    bytes := 1
    digest := []
    trigram_bytes := 1
    trigram_keys := 1
    trigram_pairs := 1
    trigram_digest := [] }

theorem two_documents_covered :
    ∃ v log, Reach List.length [twoDocuments] (v, log)
      ∧ (v.manifest.frontier = 2 ∧ v.manifest.unreadable = [1])
      ∧ ∃ x, log.filter (fun e => e.1 = 0) = [(0, x)]
        ∧ (∀ t ∈ x.terms, 0 ∈ v.lookup List.length t)
        ∧ ∀ k ∈ x.keys, 0 ∈ v.lookup_trigram (key_bytes k) := by
  have hreach := @Reach.step List.length [] _ (.start [7]) twoDocuments nofun
    plainEnv rfl (.follow oneReadable { bytes := 1000, buffer := 1000, segments := 1 })
    nofun _ prefix_rfl
  refine ⟨_, _, hreach, by decide +kernel, ?_⟩
  have hadm : Admissible [twoDocuments] twoDocuments := fun c hc _ d _ hd =>
    mem_singleton.mp hc ▸ hd
  exact (hreach.covers.1 twoDocuments hadm (by decide +kernel) 0 (by decide +kernel)
    (by decide +kernel)).resolve_left (by decide +kernel)

end Ferret
