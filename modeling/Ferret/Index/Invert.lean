import Ferret.Index.Merge
import Mathlib.Data.Nat.Log

/-!
# Inverting documents

A follow pass turns documents, in DocId order, into the terms of a segment.
`Inverter` does it for terms, `TrigramInverter` for trigrams; both are drained
into a segment's writer when they are full.

What a drain writes is what was added: a pair of a term and a document that
either held is in the segment's dictionary or among its records.
-/

namespace Ferret

open List

/-- Estimated bytes per distinct term beyond its own bytes and postings. -/
def PER_TERM : ℕ := 64

/-- Documents a term keeps in its table slot. -/
def FEW : ℕ := 3

/-- The allocated length of the list of a term with `n` documents. -/
def docs_capacity (n : ℕ) : ℕ :=
  if n ≤ FEW then 0 else max (2 * (FEW + 1)) (2 ^ Nat.clog 2 n)

/-- The postings of one segment, being accumulated. -/
structure Inverter where
  terms : List (Bytes × List ℕ)
  last : Option ℕ

namespace Inverter

def new : Inverter where
  terms := []
  last := none

/-- Appends `doc` unless it is already last. -/
def push_doc (docs : List ℕ) (doc : ℕ) : List ℕ :=
  if docs.getLast? = some doc then docs else docs ++ [doc]

/-- Files `doc` under `term`. -/
def enter (doc : ℕ) (term : Bytes) : List (Bytes × List ℕ) → List (Bytes × List ℕ)
  | [] => [(term, [doc])]
  | (t, docs) :: rest =>
    if t = term then (t, push_doc docs doc) :: rest else (t, docs) :: enter doc term rest

/-- Records that `doc` holds `term`. `doc` must not be below any document
added before. -/
def add (i : Inverter) (doc : ℕ) (term : Bytes) : Except WriteError Inverter :=
  if i.last.any (doc < ·) then .error .docOrder
  else .ok { terms := enter doc term i.terms, last := some doc }

/-- Estimated bytes held. -/
def memory (i : Inverter) : ℕ :=
  (i.terms.map fun p => p.1.length + PER_TERM + 4 * docs_capacity p.2.length).sum

/-- Drains everything added into a writer over `[first, last]`. -/
def drain_into_codec (fingerprint : Bytes → ℕ) (i : Inverter) (first last : ℕ) (codec : Codec) :
    Except WriteError Draft := do
  let writer ← Draft.build first last codec
  (i.terms.mergeSort fun a b => decide (a.1 ≤ b.1)).foldlM
    (fun w p => w.push fingerprint p.1 p.2) writer

/-- Whether a table has `doc` under `term`. -/
def Holds (terms : List (Bytes × List ℕ)) (term : Bytes) (doc : ℕ) : Prop :=
  ∃ docs, (term, docs) ∈ terms ∧ doc ∈ docs

variable {doc d : ℕ} {t : Bytes}

theorem mem_push_doc {docs : List ℕ} : d ∈ push_doc docs doc ↔ d ∈ docs ∨ d = doc := by
  unfold push_doc
  split
  · rename_i hlast
    exact ⟨.inl, fun h => h.elim id fun h => h ▸ mem_of_getLast? hlast⟩
  · simp

/-- Filing a document files it and forgets nothing. -/
theorem holds_enter {term : Bytes} {terms : List (Bytes × List ℕ)}
    (h : Holds terms t d ∨ (t = term ∧ d = doc)) : Holds (enter doc term terms) t d := by
  induction terms with
  | nil =>
    rcases h with ⟨docs, hmem, -⟩ | ⟨rfl, rfl⟩
    · cases hmem
    · exact ⟨[d], .head _, .head _⟩
  | cons p _ ih =>
    obtain ⟨_, _⟩ := p
    rw [enter]
    split
    · rename_i heq
      subst heq
      rcases h with ⟨docs, hmem, hd⟩ | ⟨rfl, rfl⟩
      · rcases mem_cons.mp hmem with hp | hmem
        · cases hp
          exact ⟨_, .head _, mem_push_doc.mpr (.inl hd)⟩
        · exact ⟨docs, .tail _ hmem, hd⟩
      · exact ⟨_, .head _, mem_push_doc.mpr (.inr rfl)⟩
    · rcases h with ⟨docs, hmem, hd⟩ | hnew
      · rcases mem_cons.mp hmem with hp | hmem
        · cases hp
          exact ⟨_, .head _, hd⟩
        · obtain ⟨ds, hds, hd⟩ := ih (.inl ⟨docs, hmem, hd⟩)
          exact ⟨ds, .tail _ hds, hd⟩
      · obtain ⟨ds, hds, hd⟩ := ih (.inr hnew)
        exact ⟨ds, .tail _ hds, hd⟩

theorem holds_add {i i' : Inverter} {term : Bytes} (h : i.add doc term = .ok i')
    (hold : Holds i.terms t d ∨ (t = term ∧ d = doc)) :
    Holds i'.terms t d := by
  unfold add at h
  split at h
  · cases h
  · cases h
    exact holds_enter hold

/-- The terms of one document, one after another. -/
theorem holds_addAll {terms : List Bytes} {i i' : Inverter}
    (h : terms.foldlM (fun i t => i.add doc t) i = .ok i')
    (hold : Holds i.terms t d ∨ (t ∈ terms ∧ d = doc)) : Holds i'.terms t d := by
  induction terms generalizing i with
  | nil =>
    cases h
    exact hold.resolve_right fun h => by cases h.1
  | cons term terms ih =>
    rw [foldlM_cons] at h
    cases hadd : i.add doc term with
    | error e =>
      rw [hadd] at h
      cases h
    | ok _ =>
      rw [hadd] at h
      refine ih h ?_
      rcases hold with hold | ⟨hmem, rfl⟩
      · exact .inl (holds_add hadd (.inl hold))
      · rcases mem_cons.mp hmem with rfl | hmem
        · exact .inl (holds_add hadd (.inr ⟨rfl, rfl⟩))
        · exact .inr ⟨hmem, rfl⟩

end Inverter

/-! ## Trigrams -/

/-- A trigram key as its three bytes, the highest first. -/
def key_bytes (number : ℕ) : Bytes :=
  [UInt8.ofNat (number / 2 ^ 16), UInt8.ofNat (number / 2 ^ 8), UInt8.ofNat number]

/-- Pairs of a trigram key and a document. -/
structure TrigramInverter where
  pairs : List (ℕ × ℕ)
  last : Option ℕ

namespace TrigramInverter

def new : TrigramInverter where
  pairs := []
  last := none

def len (i : TrigramInverter) : ℕ := i.pairs.length

/-- Adds a document with its distinct keys, if there are at most `limit`.
Documents come in strictly ascending order. -/
def add_keys (i : TrigramInverter) (doc : ℕ) (keys : List ℕ) (limit : Option ℕ) :
    Except WriteError (Option TrigramInverter) :=
  if i.last.any (doc ≤ ·) then .error .docOrder
  else if limit.any (· < keys.length) then .ok none
  else .ok (some { pairs := i.pairs ++ keys.map fun number => (number, doc), last := some doc })

/-- The runs of equal keys, each with its documents. -/
def runs : List (ℕ × ℕ) → List (ℕ × List ℕ)
  | [] => []
  | (number, doc) :: rest =>
    match runs rest with
    | [] => [(number, [doc])]
    | (next, docs) :: more =>
      if number = next then (number, doc :: docs) :: more else (number, [doc]) :: (next, docs) :: more

/-- Drains into a writer of keys: a stable sort by key, then a term for each
run of equal keys. -/
def drain_into (fingerprint : Bytes → ℕ) (i : TrigramInverter) (first last : ℕ) :
    Except WriteError Draft := do
  let writer ← Draft.build first last .dictionary
  (runs (i.pairs.mergeSort fun a b => decide (a.1 ≤ b.1))).foldlM
    (fun w p => w.push fingerprint (key_bytes p.1) p.2) writer

theorem mem_runs {pairs : List (ℕ × ℕ)} {number doc : ℕ} (h : (number, doc) ∈ pairs) :
    ∃ docs, (number, docs) ∈ runs pairs ∧ doc ∈ docs := by
  induction pairs with
  | nil => cases h
  | cons p _ ih =>
    obtain ⟨_, _⟩ := p
    rw [runs]
    rcases mem_cons.mp h with hp | hmem
    · cases hp
      split
      · exact ⟨_, .head _, .head _⟩
      · split <;> exact ⟨_, .head _, .head _⟩
    · obtain ⟨docs, hdocs, hd⟩ := ih hmem
      split
      · rename_i hnil
        rw [hnil] at hdocs
        cases hdocs
      · rename_i next ds more hruns
        rw [hruns] at hdocs
        split
        · rename_i heq
          subst heq
          rcases mem_cons.mp hdocs with hp | hmore
          · cases hp
            exact ⟨_, .head _, .tail _ hd⟩
          · exact ⟨docs, .tail _ hmore, hd⟩
        · exact ⟨docs, .tail _ hdocs, hd⟩

theorem add_keys_some {i i' : TrigramInverter} {doc : ℕ} {keys : List ℕ} {limit : Option ℕ}
    (h : i.add_keys doc keys limit = .ok (some i')) :
    i'.pairs = i.pairs ++ keys.map fun number => (number, doc) := by
  unfold add_keys at h
  split at h
  · cases h
  · split at h
    · cases h
    · cases h
      rfl

end TrigramInverter

/-! ## What a drain writes -/

namespace Draft

variable {fingerprint : Bytes → ℕ}

variable {w w' : Draft} {first last : ℕ} {ps : List (Bytes × List ℕ)}

/-- A push that succeeds adds its term and nothing else. -/
theorem push_of_ok {term : Bytes} {docs : List ℕ} (h : w.push fingerprint term docs = .ok w') :
    w' = w.pushed_terms fingerprint [(term, docs)]
      ∧ check_term w.first w.last w.pushed w.last_term term docs = .ok () := by
  unfold push at h
  cases hcheck : check_term w.first w.last w.pushed w.last_term term docs with
  | error e =>
    rw [hcheck] at h
    cases h
  | ok u =>
    rw [hcheck] at h
    refine ⟨?_, rfl⟩
    simp only [bind, Except.bind] at h
    cases hs : w.singles with
    | none =>
      rw [hs] at h
      cases h
      simp [pushed_terms, remember, kept, hs]
    | some s =>
      rw [hs] at h
      simp only at h
      split at h
      · cases h
      · split at h
        · cases h
          simp [pushed_terms, remember, kept, single_records, hs]
        · rename_i hne
          cases h
          have hlen : docs.length ≠ 1 := fun hlen => by
            obtain ⟨d, rfl⟩ := length_eq_one_iff.mp hlen
            exact hne d rfl
          simp [pushed_terms, remember, kept, single_records, hs, hlen]

/-- The documents of a term that was taken are in range. -/
theorem single_within {pushed : ℕ} {last_term term : Bytes} {doc : ℕ}
    (h : check_term first last pushed last_term term [doc] = .ok ()) : first ≤ doc := by
  unfold check_term at h
  split at h
  · cases h
  · simp only [head?_cons, getLast?_singleton, disordered, Bool.false_eq_true, if_false] at h
    split at h
    · cases h
    · rename_i hin
      exact (not_not.mp hin).1

/-- Terms pushed one after another. -/
theorem pushAll_of_ok (h : ps.foldlM (fun w p => w.push fingerprint p.1 p.2) w = .ok w') :
    w' = w.pushed_terms fingerprint ps ∧ ∀ t d, (t, [d]) ∈ ps → w.first ≤ d := by
  induction ps generalizing w with
  | nil =>
    cases h
    exact ⟨(pushed_terms_nil fingerprint w').symm, nofun⟩
  | cons p ps ih =>
    rw [foldlM_cons] at h
    cases hpush : w.push fingerprint p.1 p.2 with
    | error e =>
      rw [hpush] at h
      cases h
    | ok _ =>
      rw [hpush] at h
      obtain ⟨rfl, hcheck⟩ := push_of_ok hpush
      obtain ⟨hw', hin⟩ := ih h
      refine ⟨by rw [hw', pushed_terms_append, singleton_append], fun t d hd => ?_⟩
      rcases mem_cons.mp hd with rfl | hd
      · exact single_within hcheck
      · exact hin t d hd

/-- A dictionary holds all that was pushed. -/
theorem finish_dictionary {out : Draft} (hbuild : build first last .dictionary = .ok w)
    (hpush : ps.foldlM (fun w p => w.push fingerprint p.1 p.2) w = .ok w')
    (hfinish : w'.finish = .ok out) : out.terms = ps ∧ out.records = [] := by
  obtain ⟨-, hterms, hsingles⟩ := build_spec hbuild
  obtain ⟨rfl, -⟩ := pushAll_of_ok hpush
  have hnone : w.singles = none := hsingles
  have heq : (w.pushed_terms fingerprint ps).finish = .ok (w.pushed_terms fingerprint ps) := by
    simp [finish, seal_records, pushed_terms, hnone]
  rw [heq] at hfinish
  cases hfinish
  simp [pushed_terms, kept, records, hnone, hterms]

/-- **What was pushed is in the finished segment**, in its dictionary or among
its records. -/
theorem finish_holds {codec : Codec} {out : Draft} (hbuild : build first last codec = .ok w)
    (hpush : ps.foldlM (fun w p => w.push fingerprint p.1 p.2) w = .ok w')
    (hfinish : w'.finish = .ok out) {t : Bytes} {d : ℕ} (hold : Inverter.Holds ps t d) :
    Inverter.Holds out.terms t d ∨ toLex (fingerprint t, d) ∈ out.records := by
  cases codec with
  | dictionary =>
    left
    rw [(finish_dictionary hbuild hpush hfinish).1]
    exact hold
  | fingerprint =>
    obtain ⟨⟨hfirst, -, -⟩, hterms, hsingles⟩ := build_spec hbuild
    obtain ⟨rfl, hin⟩ := pushAll_of_ok hpush
    obtain ⟨docs, hmem, hd⟩ := hold
    have hsome : w.singles = some Singles.new := hsingles
    set w₁ := w.pushed_terms fingerprint ps with hw₁
    have hs₁ : w₁.singles
        = some { Singles.new with pending := single_records fingerprint first ps } := by
      rw [hw₁, pushed_terms, hsome, hfirst]
      rfl
    have hready : Ready { Singles.new with pending := single_records fingerprint first ps } :=
      ⟨⟨.nil, nofun, nofun,
        nofun⟩, fun _ => rfl, rfl⟩
    obtain ⟨s', hcases, -, hholds⟩ := finish_eq hs₁ hready
    rcases hcases with hok | ⟨herr, -⟩
    · rw [hok] at hfinish
      cases hfinish
      by_cases hlen : docs.length = 1
      · obtain ⟨_, rfl⟩ := length_eq_one_iff.mp hlen
        obtain rfl := mem_singleton.mp hd
        have hle : first ≤ d := hfirst ▸ hin t d hmem
        right
        have hrec : (toLex (fingerprint t, d - first) : Record) ∈ s'.encoder.records := by
          refine (hholds _).mpr (.inr ?_)
          exact mem_map.mpr ⟨(t, [d]), mem_filter.mpr ⟨hmem, by simp⟩, rfl⟩
        refine mem_map.mpr ⟨_, hrec, ?_⟩
        show (toLex (fingerprint t, w₁.first + (d - first)) : Record) = _
        rw [show w₁.first = first from hfirst, Nat.add_sub_cancel' hle]
      · left
        refine ⟨docs, ?_, hd⟩
        show _ ∈ w₁.terms
        rw [hw₁, pushed_terms, hterms, nil_append, kept, hsome]
        exact mem_filter.mpr ⟨hmem, by simpa using hlen⟩
    · rw [herr] at hfinish
      cases hfinish

end Draft

/-- **A drained inverter's segment holds what was added.** -/
theorem Inverter.drain_holds {fingerprint : Bytes → ℕ} {i : Inverter} {first last : ℕ}
    {codec : Codec} {w out : Draft} (h : i.drain_into_codec fingerprint first last codec = .ok w)
    (hfinish : w.finish = .ok out) {t : Bytes} {d : ℕ} (hold : Holds i.terms t d) :
    Holds out.terms t d ∨ toLex (fingerprint t, d) ∈ out.records := by
  unfold drain_into_codec at h
  cases hb : Draft.build first last codec with
  | error e =>
    rw [hb] at h
    cases h
  | ok _ =>
    rw [hb] at h
    obtain ⟨docs, hmem, hd⟩ := hold
    exact Draft.finish_holds hb h hfinish ⟨docs, mem_mergeSort.mpr hmem, hd⟩

theorem TrigramInverter.drain_holds {fingerprint : Bytes → ℕ} {i : TrigramInverter}
    {first last : ℕ} {w out : Draft} (h : i.drain_into fingerprint first last = .ok w)
    (hfinish : w.finish = .ok out) :
    out.records = []
      ∧ ∀ number d, (number, d) ∈ i.pairs → Inverter.Holds out.terms (key_bytes number) d := by
  unfold drain_into at h
  cases hb : Draft.build first last .dictionary with
  | error e =>
    rw [hb] at h
    cases h
  | ok w₀ =>
    rw [hb] at h
    set rs := runs (i.pairs.mergeSort fun a b => decide (a.1 ≤ b.1)) with hrs
    have hfold : (rs.map fun p => (key_bytes p.1, p.2)).foldlM
        (fun w p => w.push fingerprint p.1 p.2) w₀ = .ok w := by
      rw [foldlM_map]
      exact h
    obtain ⟨hterms, hrecords⟩ := Draft.finish_dictionary hb hfold hfinish
    refine ⟨hrecords, fun number d hmem => ?_⟩
    obtain ⟨docs, hruns, hd⟩ := mem_runs (mem_mergeSort.mpr hmem)
    rw [hterms]
    exact ⟨docs, mem_map.mpr ⟨(number, docs), hruns, rfl⟩, hd⟩

end Ferret
