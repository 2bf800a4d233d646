import Ferret.Index.Bytes
import Ferret.Index.DocSet
import Mathlib.Data.Prod.Lex

/-!
# What a segment holds, and writing it

A segment covers a range of DocIds. It holds a dictionary, strictly
increasing terms each with its documents, and in the fingerprint codec also
records `(fingerprint, document)` that stand for the terms that have one
document only. `Contents` is a segment as its streams yield it.

`Draft` is the writer reduced to what it holds: the checks it makes of terms
and records, the dictionary it has been given, and, in the fingerprint codec,
the records of single-document terms it keeps back until the dictionary is
closed. Records carried over by a merge arrive in order after that, and the
kept-back ones are fed in between them. What a draft turns into is
`Draft.finish`, and the main result here says that nothing is lost on the
way: `Singles.mem_finished`.
-/

namespace Ferret

open List

/-- A fingerprint and a document, in order of both. -/
abbrev Record := ℕ ×ₗ ℕ

/-- **A segment, as its streams yield it.** -/
structure Contents where
  first : ℕ
  last : ℕ
  terms : List (Bytes × List ℕ)
  records : List Record
  first_le : first ≤ last
  last_lt : last < docLimit
  sorted : terms.Pairwise fun p q => p.1 < q.1
  docs_ne_nil : ∀ p ∈ terms, p.2 ≠ []
  docs_sorted : ∀ p ∈ terms, p.2.Pairwise (· < ·)
  docs_within : ∀ p ∈ terms, ∀ d ∈ p.2, first ≤ d ∧ d ≤ last
  records_sorted : records.Pairwise (· < ·)
  records_within : ∀ r ∈ records, first ≤ (ofLex r).2 ∧ (ofLex r).2 ≤ last

/-- The documents a dictionary has for a term. -/
def docsOf (terms : List (Bytes × List ℕ)) (term : Bytes) : List ℕ :=
  (terms.lookup term).getD []

/-- The dictionary codecs. -/
inductive Codec
  | dictionary
  | fingerprint
deriving DecidableEq

/-- Why a segment could not be written. -/
inductive WriteError
  | range (first last : ℕ)
  | termOrder
  | noDocuments
  | docOrder
  | docRange (doc : ℕ)
  | recordOrder
  /-- The fingerprint section exceeds `u32` offsets. -/
  | recordLength
deriving DecidableEq

/-- Records per restart block. -/
def RECORD_BLOCK : ℕ := 128

/-- The records laid out so far, their section's bytes, the block index
without its leading record count, and how many are in the current restart
block. -/
structure Encoder where
  records : List Record
  bytes : Bytes
  index : Bytes
  in_block : ℕ

namespace Encoder

def new : Encoder where
  records := []
  bytes := []
  index := []
  in_block := 0

/-- Bytes of the section so far. -/
def len (e : Encoder) : ℕ := e.bytes.length

/-- Appends a record; one that does not sort strictly after the previous one
adds nothing. -/
def push (e : Encoder) (record : Record) : Encoder :=
  if e.records.getLast?.any (record ≤ ·) then e
  else if e.records.length = 0 ∨ e.in_block = RECORD_BLOCK then
    { records := e.records ++ [record]
      bytes := e.bytes ++ toLe 4 (ofLex record).1 ++ toLe 4 (ofLex record).2
      index := e.index ++ toLe 4 (ofLex record).1 ++ toLe 4 e.len
      in_block := 1 }
  else
    let previous := (e.records.getLast?.map fun r => (ofLex r).1).getD 0
    { e with
      records := e.records ++ [record]
      bytes := e.bytes ++ put ((ofLex record).1 - previous) ++ put (ofLex record).2
      in_block := e.in_block + 1 }

end Encoder

/-- A fingerprint writer's records: those of single-document terms, kept back
until the dictionary is closed, and those encoded. -/
structure Singles where
  pending : List Record
  sealed : Bool
  encoder : Encoder
  carried : Option Record

namespace Singles

def new : Singles where
  pending := []
  sealed := false
  encoder := Encoder.new
  carried := none

/-- Closes the dictionary: sorts the pending records, once. -/
def seal_pending (s : Singles) : Singles :=
  if s.sealed then s
  else { s with pending := (s.pending.mergeSort fun a b => decide (a ≤ b)).dedup, sealed := true }

/-- Encodes records below a bound, or all of them; the rest stay pending. -/
def flush (bound : Option Record) : List Record → Encoder → List Record × Encoder
  | [], e => ([], e)
  | record :: rest, e =>
    if bound.all (record < ·) then flush bound rest (e.push record) else (record :: rest, e)

/-- Encodes pending records below `bound`, or all of them. -/
def flush_below (s : Singles) (bound : Option Record) : Singles :=
  let q := flush bound s.pending s.encoder
  { s with pending := q.1, encoder := q.2 }

end Singles

/-- Whether some document is not below the next. -/
def disordered : List ℕ → Bool
  | a :: b :: rest => decide (b ≤ a) || disordered (b :: rest)
  | _ => false

/-- `term` sorts after the last of the terms `pushed` so far, and `docs` are
strictly increasing, not empty, and inside `[first, last]`. -/
def check_term (first last pushed : ℕ) (last_term term : Bytes) (docs : List ℕ) :
    Except WriteError Unit :=
  if 0 < pushed ∧ term ≤ last_term then .error .termOrder
  else
    match docs.head?, docs.getLast? with
    | some low, some high =>
      if disordered docs then .error .docOrder
      else if ¬ (first ≤ low ∧ low ≤ last) then .error (.docRange low)
      else if ¬ (first ≤ high ∧ high ≤ last) then .error (.docRange high)
      else .ok ()
    | _, _ => .error .noDocuments

/-- **A segment being written** over `[first, last]`. -/
structure Draft where
  first : ℕ
  last : ℕ
  /-- Terms pushed, in the dictionary or not. -/
  pushed : ℕ
  last_term : Bytes
  terms : List (Bytes × List ℕ)
  /-- The fingerprint codec's records. -/
  singles : Option Singles

variable {w : Draft}

namespace Draft

def build (first last : ℕ) (codec : Codec) : Except WriteError Draft :=
  if last < first then .error (.range first last)
  else .ok {
    first := first
    last := last
    pushed := 0
    last_term := []
    terms := []
    singles := if codec = .fingerprint then some Singles.new else none }

theorem build_spec {first last : ℕ} {codec : Codec} (h : build first last codec = .ok w) :
    (w.first = first ∧ w.last = last ∧ w.pushed = 0) ∧ w.terms = []
      ∧ w.singles = if codec = .fingerprint then some Singles.new else none := by
  unfold build at h
  split at h
  · cases h
  · cases h
    exact ⟨⟨rfl, rfl, rfl⟩, rfl, rfl⟩

/-- `term` was pushed: the next must sort after it. -/
def remember (w : Draft) (term : Bytes) : Draft :=
  { w with last_term := term, pushed := w.pushed + 1 }

/-- Adds `term` with its documents. In the fingerprint codec a term with one
document becomes a record instead, and terms may not follow records. -/
def push (fingerprint : Bytes → ℕ) (w : Draft) (term : Bytes) (docs : List ℕ) :
    Except WriteError Draft := do
  check_term w.first w.last w.pushed w.last_term term docs
  match w.singles with
  | some singles =>
    if singles.sealed then .error .recordOrder
    else
      match docs with
      | [doc] =>
        let record := toLex (fingerprint term, doc - w.first)
        .ok ({ w with singles := some { singles with pending := singles.pending ++ [record] } }
          |>.remember term)
      | _ => .ok ({ w with terms := w.terms ++ [(term, docs)] }.remember term)
  | none => .ok ({ w with terms := w.terms ++ [(term, docs)] }.remember term)

/-- Adds a record a merge carries from an input: document `doc` may hold a
term whose fingerprint is `fp`. Records come in strictly increasing order,
after the last term. -/
def push_record (w : Draft) (fp doc : ℕ) : Except WriteError Draft :=
  match w.singles with
  | none => .error .recordOrder
  | some singles =>
    if ¬ (w.first ≤ doc ∧ doc ≤ w.last) then .error (.docRange doc)
    else
      let record : Record := toLex (fp, doc - w.first)
      if singles.carried.any (record ≤ ·) then .error .recordOrder
      else
        let s := singles.seal_pending.flush_below (some record)
        let s := { s with encoder := s.encoder.push record, carried := some record }
        .ok { w with singles := some s }

/-- Closes the dictionary and encodes every pending record. -/
def seal_records (w : Draft) : Draft :=
  { w with singles := w.singles.map fun s => s.seal_pending.flush_below none }

/-- The records of a finished draft, with their documents. -/
def records (w : Draft) : List Record :=
  match w.singles with
  | none => []
  | some s => s.encoder.records.map fun r => toLex ((ofLex r).1, w.first + (ofLex r).2)

/-- Completes the segment. The resident index uses fixed `u32` offsets, so an
oversized fingerprint section is refused. -/
def finish (w : Draft) : Except WriteError Draft :=
  let w := w.seal_records
  if w.singles.any fun s => decide (2 ^ 32 ≤ s.encoder.len) then .error .recordLength
  else .ok w

end Draft

/-! ## Nothing is lost among the records -/

/-- The encoder a sequence of records leaves. -/
def Encoder.of (rs : List Record) : Encoder :=
  rs.foldl Encoder.push Encoder.new

/-- An encoder is what its own records leave. -/
def Encoder.Built (e : Encoder) : Prop :=
  Encoder.of e.records = e

variable {e : Encoder}

theorem Encoder.Built.push (h : e.Built) (r : Record) : (e.push r).Built := by
  have hadd : (e.push r).records = e.records ∧ e.push r = e
      ∨ (e.push r).records = e.records ++ [r] := by
    unfold Encoder.push
    split
    · exact .inl ⟨rfl, rfl⟩
    · split <;> exact .inr rfl
  rcases hadd with ⟨-, he⟩ | hr
  · rw [he]
    exact h
  · rw [Built, Encoder.of, hr, foldl_append]
    show (Encoder.of e.records).push r = e.push r
    rw [h]

theorem Singles.flush_built (bound : Option Record) (pending : List Record) (h : e.Built) :
    (Singles.flush bound pending e).2.Built := by
  induction pending generalizing e with
  | nil => exact h
  | cons r _ ih =>
    unfold flush
    split
    · exact ih (h.push r)
    · exact h

/-- A record not below any encoded one is encoded, if it was not already. -/
theorem Encoder.push_spec (hs : e.records.Pairwise (· < ·)) {r : Record}
    (hle : ∀ x ∈ e.records, x ≤ r) :
    (e.push r).records.Pairwise (· < ·)
      ∧ ∀ x, x ∈ (e.push r).records ↔ x ∈ e.records ∨ x = r := by
  unfold push
  rcases eq_nil_or_concat e.records with hnil | ⟨_, last, hcat⟩
  · have hlen : e.records.length = 0 := by rw [hnil]; rfl
    simp [hnil]
  · rw [concat_eq_append] at hcat
    have hlast : e.records.getLast? = some last := by rw [hcat]; simp
    have hmem : last ∈ e.records := by rw [hcat]; simp
    have htop : ∀ x ∈ e.records, x ≤ last := by
      intro x hx
      rw [hcat] at hx hs
      rcases mem_append.mp hx with hx | hx
      · exact ((pairwise_append.mp hs).2.2 x hx last (by simp)).le
      · rw [mem_singleton.mp hx]
    by_cases hr : r ≤ last
    · have heq : last = r := le_antisymm (hle last hmem) hr
      simp only [hlast, Option.any_some, hr, decide_true, if_true]
      exact ⟨hs, fun x => ⟨.inl, fun hx => hx.elim id fun hx => by rw [hx, ← heq]; exact hmem⟩⟩
    · have hadd : (e.records ++ [r]).Pairwise (· < ·)
          ∧ ∀ x, x ∈ e.records ++ [r] ↔ x ∈ e.records ∨ x = r := by
        refine ⟨pairwise_append.mpr ⟨hs, pairwise_singleton _ _, fun x hx y hy => ?_⟩,
          fun x => by simp⟩
        rw [mem_singleton.mp hy]
        exact lt_of_le_of_lt (htop x hx) (not_le.mp hr)
      simp only [hlast, Option.any_some, hr, decide_false, Bool.false_eq_true, if_false]
      split <;> exact hadd

/-- **Feeding pending records in loses none of them.** -/
theorem Singles.flush_spec (bound : Option Record) {pending : List Record}
    (hp : pending.Pairwise (· < ·)) (he : e.records.Pairwise (· < ·))
    (hcross : ∀ x ∈ e.records, ∀ p ∈ pending, x ≤ p) :
    let q := flush bound pending e
    q.1.Pairwise (· < ·) ∧ q.2.records.Pairwise (· < ·)
      ∧ (∀ x ∈ q.2.records, ∀ p ∈ q.1, x ≤ p)
      ∧ (∀ p ∈ q.1, bound.any (· ≤ p) = true)
      ∧ (∀ x ∈ q.2.records, x ∈ e.records ∨ bound.all (x < ·) = true)
      ∧ ∀ x, (x ∈ q.2.records ∨ x ∈ q.1) ↔ x ∈ e.records ∨ x ∈ pending := by
  induction pending generalizing e with
  | nil =>
    exact ⟨hp, he, hcross, (fun p hp => by cases hp), fun x hx => .inl hx, fun x => .rfl⟩
  | cons r rest ih =>
    obtain ⟨hr, hrest⟩ := pairwise_cons.mp hp
    unfold flush
    by_cases hb : bound.all (r < ·) = true
    · rw [if_pos hb]
      obtain ⟨hs, hmem⟩ := e.push_spec he fun x hx => hcross x hx r (.head _)
      have hcross' : ∀ x ∈ (e.push r).records, ∀ p ∈ rest, x ≤ p := by
        intro x hx p hpm
        rcases (hmem x).mp hx with hx | rfl
        · exact hcross x hx p (.tail _ hpm)
        · exact (hr p hpm).le
      obtain ⟨h₁, h₂, h₃, h₄, h₅, h₆⟩ := ih hrest hs hcross'
      refine ⟨h₁, h₂, h₃, h₄, fun x hx => ?_, fun x => ?_⟩
      · rcases h₅ x hx with hx | hx
        · exact ((hmem x).mp hx).imp id fun hxr => by rw [hxr]; exact hb
        · exact .inr hx
      · rw [h₆, hmem, mem_cons, or_assoc]
    · rw [if_neg hb]
      refine ⟨hp, he, hcross, fun p hpm => ?_, fun x hx => .inl hx, fun x => .rfl⟩
      have hrp : r ≤ p := by
        rcases mem_cons.mp hpm with rfl | hpm
        · exact le_rfl
        · exact (hr p hpm).le
      cases bound with
      | none => exact absurd rfl hb
      | some b =>
        simp only [Option.all_some, decide_eq_true_eq, not_lt] at hb
        simpa using hb.trans hrp

/-- A draft's records are in order, none encoded past the last one carried. -/
structure Singles.Ok (s : Singles) : Prop where
  sorted : s.encoder.records.Pairwise (· < ·)
  pending_sorted : s.sealed = true → s.pending.Pairwise (· < ·)
  cross : ∀ x ∈ s.encoder.records, ∀ p ∈ s.pending, x ≤ p
  below : ∀ x ∈ s.encoder.records, s.carried.any (x ≤ ·) = true

/-- A record is encoded or still pending. -/
def Singles.Holds (s : Singles) (r : Record) : Prop :=
  r ∈ s.encoder.records ∨ r ∈ s.pending

variable {s : Singles}

theorem pairwise_dedup {α : Type} [LinearOrder α] (xs : List α) :
    ((xs.mergeSort fun a b => decide (a ≤ b)).dedup).Pairwise (· < ·) := by
  have hle : (xs.mergeSort fun a b => decide (a ≤ b)).Pairwise (· ≤ ·) := by
    refine (pairwise_mergeSort (fun a b c hab hbc => ?_) (fun a b => ?_) _).imp fun hab => ?_
    · simp only [decide_eq_true_eq] at hab hbc ⊢
      exact hab.trans hbc
    · simpa using le_total a b
    · simpa using hab
  refine ((hle.sublist (dedup_sublist _)).and (nodup_dedup _)).imp fun hab => ?_
  exact lt_of_le_of_ne hab.1 hab.2

theorem Singles.seal_spec (h : s.Ok) (hfresh : s.sealed = false → s.encoder.records = []) :
    s.seal_pending.Ok ∧ s.seal_pending.sealed = true ∧ s.seal_pending.carried = s.carried
      ∧ s.seal_pending.encoder = s.encoder ∧ ∀ r, s.seal_pending.Holds r ↔ s.Holds r := by
  unfold seal_pending
  by_cases hs : s.sealed = true
  · rw [if_pos hs]
    exact ⟨h, hs, rfl, rfl, fun r => .rfl⟩
  · rw [if_neg hs]
    have hnil := hfresh (by simpa using hs)
    refine ⟨⟨h.sorted, fun _ => pairwise_dedup _, fun x hx => ?_, h.below⟩, rfl, rfl, rfl, fun r => ?_⟩
    · rw [hnil] at hx
      cases hx
    · unfold Holds
      simp [mem_mergeSort]

/-! ## Sequences of terms -/

variable {docs : List ℕ}

theorem disordered_eq_false (h : docs.Pairwise (· < ·)) :
    disordered docs = false := by
  induction docs with
  | nil => rfl
  | cons a rest ih =>
    obtain ⟨ha, hrest⟩ := pairwise_cons.mp h
    cases rest with
    | nil => rfl
    | cons b rest =>
      rw [disordered, ih hrest, decide_eq_false (not_le.mpr (ha b (mem_cons_self ..)))]
      rfl

/-- What a writer asks of a term and its documents. -/
structure Pushable (first last : ℕ) (docs : List ℕ) : Prop where
  ne_nil : docs ≠ []
  sorted : docs.Pairwise (· < ·)
  within : ∀ d ∈ docs, first ≤ d ∧ d ≤ last

theorem check_term_ok {first last pushed : ℕ} {last_term term : Bytes}
    (hterm : 0 < pushed → last_term < term) (h : Pushable first last docs) :
    check_term first last pushed last_term term docs = .ok () := by
  obtain ⟨low, hlow⟩ := Option.isSome_iff_exists.mp (isSome_head?.mpr h.ne_nil)
  have hhigh : docs.getLast? = some (docs.getLast h.ne_nil) := getLast?_eq_some_getLast h.ne_nil
  set high := docs.getLast h.ne_nil
  have h₁ := h.within low (mem_of_mem_head? hlow)
  have h₂ := h.within high (mem_of_getLast? hhigh)
  unfold check_term
  rw [if_neg fun hc => absurd (hterm hc.1) (not_lt.mpr hc.2), hlow, hhigh]
  simp only [disordered_eq_false h.sorted, Bool.false_eq_true, if_false, h₁, h₂, and_self,
    not_true_eq_false]

namespace Draft

/-- The dictionary's share of some terms: all of them, or in the fingerprint
codec those with more than one document. -/
def kept (w : Draft) (ps : List (Bytes × List ℕ)) : List (Bytes × List ℕ) :=
  if w.singles.isNone then ps else ps.filter fun p => decide (p.2.length ≠ 1)

/-- The records of the single-document terms. -/
def single_records (fingerprint : Bytes → ℕ) (first : ℕ) (ps : List (Bytes × List ℕ)) :
    List Record :=
  (ps.filter fun p => decide (p.2.length = 1)).map fun p =>
    toLex (fingerprint p.1, p.2.headD 0 - first)

/-- The writer after pushing some terms. -/
def pushed_terms (fingerprint : Bytes → ℕ) (w : Draft) (ps : List (Bytes × List ℕ)) : Draft :=
  { w with
    pushed := w.pushed + ps.length
    last_term := (ps.getLast?.map Prod.fst).getD w.last_term
    terms := w.terms ++ w.kept ps
    singles := w.singles.map fun s =>
      { s with pending := s.pending ++ single_records fingerprint w.first ps } }

variable (fingerprint : Bytes → ℕ)

attribute [local simp] pushed_terms kept single_records

theorem pushed_terms_nil (w : Draft) :
    w.pushed_terms fingerprint [] = w := by
  obtain ⟨_, _, _, _, _, singles⟩ := w
  cases singles with
  | none => simp
  | some s => simp

/-- One push, in closed form. -/
theorem push_eq {term : Bytes} (hopen : ∀ s, w.singles = some s → s.sealed = false)
    (hterm : 0 < w.pushed → w.last_term < term) (h : Pushable w.first w.last docs) :
    w.push fingerprint term docs = .ok (w.pushed_terms fingerprint [(term, docs)]) := by
  unfold push
  rw [check_term_ok hterm h]
  show (match w.singles with | some singles => _ | none => _) = _
  cases hs : w.singles with
  | none => simp [remember, hs]
  | some s =>
    have hseal := hopen s hs
    match docs, h.ne_nil with
    | [doc], _ =>
      simp [remember, hs, hseal]
    | a :: b :: rest, _ =>
      simp [remember, hs, hseal]
      rw [← hseal]

theorem pushed_terms_append (w : Draft) (ps qs : List (Bytes × List ℕ)) :
    (w.pushed_terms fingerprint ps).pushed_terms fingerprint qs
      = w.pushed_terms fingerprint (ps ++ qs) := by
  cases hs : w.singles with
  | none =>
    cases hq : qs.getLast? <;> simp [hs, hq, getLast?_append, add_assoc]
  | some s =>
    cases hq : qs.getLast? <;> simp [hs, hq, getLast?_append, add_assoc]

/-- **A writer takes every sequence of terms it is meant for.** -/
theorem pushAll_eq {ps : List (Bytes × List ℕ)} (hopen : ∀ s, w.singles = some s → s.sealed = false)
    (hsorted : ps.Pairwise fun p q => p.1 < q.1)
    (hfirst : ∀ p ∈ ps, 0 < w.pushed → w.last_term < p.1)
    (hdocs : ∀ p ∈ ps, Pushable w.first w.last p.2) :
    ps.foldlM (fun w p => w.push fingerprint p.1 p.2) w = .ok (w.pushed_terms fingerprint ps) := by
  induction ps generalizing w with
  | nil =>
    rw [foldlM_nil, pushed_terms_nil]
    rfl
  | cons p ps ih =>
    obtain ⟨hp, hps⟩ := pairwise_cons.mp hsorted
    obtain ⟨hdoc, hdocs⟩ := forall_mem_cons.mp hdocs
    have hpush := push_eq fingerprint hopen (hfirst p (.head _)) hdoc
    rw [foldlM_cons, hpush]
    show List.foldlM _ (w.pushed_terms fingerprint [p]) ps = _
    have hopen' : ∀ s, (w.pushed_terms fingerprint [p]).singles = some s → s.sealed = false := by
      intro s hs
      obtain ⟨s', hs', rfl⟩ := Option.map_eq_some_iff.mp hs
      exact hopen s' hs'
    rw [ih hopen' hps (fun q hq _ => hp q hq) hdocs, pushed_terms_append, singleton_append]

/-! ## Sequences of records -/

/-- A record relative to the segment's first document. -/
def relative (first : ℕ) (r : Record) : Record :=
  toLex ((ofLex r).1, (ofLex r).2 - first)

theorem relative_lt {first : ℕ} {a b : Record} (ha : first ≤ (ofLex a).2)
    (hb : first ≤ (ofLex b).2) (h : a < b) : relative first a < relative first b := by
  rw [Prod.Lex.lt_iff] at h
  refine Prod.Lex.lt_iff.mpr (h.imp id fun h => ⟨h.1, ?_⟩)
  show (ofLex a).2 - first < (ofLex b).2 - first
  omega

/-- The records a writer holds are in order, and none is encoded before the
dictionary is closed. -/
structure Ready (s : Singles) : Prop where
  ok : s.Ok
  fresh : s.sealed = false → s.encoder.records = []
  built : s.encoder.Built

/-- **A carried record is held from then on**, beside all that was. -/
theorem push_record_eq (hs : w.singles = some s) (h : Ready s) {r : Record}
    (hin : w.first ≤ (ofLex r).2 ∧ (ofLex r).2 ≤ w.last)
    (hnext : ∀ c, s.carried = some c → c < relative w.first r) :
    ∃ s', w.push_record (ofLex r).1 (ofLex r).2 = .ok { w with singles := some s' }
      ∧ Ready s' ∧ s'.carried = some (relative w.first r)
      ∧ ∀ x, s'.Holds x ↔ s.Holds x ∨ x = relative w.first r := by
  have hcar : ¬ s.carried.any (relative w.first r ≤ ·) = true := by
    cases hc : s.carried with
    | none => simp
    | some c => simpa using hnext c hc
  obtain ⟨hok, hsealed, hcarried, henc, hholds⟩ := s.seal_spec h.ok h.fresh
  obtain ⟨h₁, h₂, h₃, h₄, h₅, h₆⟩ := Singles.flush_spec (some (relative w.first r))
    (hok.pending_sorted hsealed) hok.sorted hok.cross
  set q := Singles.flush (some (relative w.first r)) s.seal_pending.pending s.seal_pending.encoder
    with hq
  -- everything encoded so far lies below the record
  have hbelow : ∀ x ∈ q.2.records, x ≤ relative w.first r := by
    intro x hx
    rcases h₅ x hx with hx | hx
    · have hle := hok.below x hx
      rw [hcarried] at hle
      cases hc : s.carried with
      | none =>
        rw [hc] at hle
        cases hle
      | some c =>
        rw [hc] at hle
        exact (of_decide_eq_true hle).trans (hnext c hc).le
    · exact (of_decide_eq_true hx : x < _).le
  obtain ⟨hpsort, hpmem⟩ := Encoder.push_spec h₂ hbelow
  refine ⟨{ s.seal_pending with
      pending := q.1, encoder := q.2.push (relative w.first r),
      carried := some (relative w.first r) }, ?_,
    ⟨⟨hpsort, fun _ => h₁, fun x hx p hp => ?_, fun x hx => ?_⟩, fun hf => ?_,
      (Singles.flush_built _ _ (henc ▸ h.built)).push _⟩, rfl, fun x => ?_⟩
  · unfold push_record
    rw [hs]
    simp only [hin, and_self, not_true_eq_false, if_false]
    exact if_neg hcar
  · rcases (hpmem x).mp hx with hx | rfl
    · exact h₃ x hx p hp
    · exact of_decide_eq_true (h₄ p hp)
  · rcases (hpmem x).mp hx with hx | rfl
    · exact decide_eq_true (hbelow x hx)
    · exact decide_eq_true le_rfl
  · exact absurd (hsealed.symm.trans hf) (by simp)
  · rw [← hholds x]
    unfold Singles.Holds
    rw [hpmem, ← h₆ x]
    tauto

/-- The writer takes every sequence of records in order. -/
theorem pushRecords_ok (hs : w.singles = some s) (h : Ready s) {rs : List Record}
    (hsorted : rs.Pairwise (· < ·)) (hin : ∀ r ∈ rs, w.first ≤ (ofLex r).2 ∧ (ofLex r).2 ≤ w.last)
    (hnext : ∀ c, s.carried = some c → ∀ r ∈ rs, c < relative w.first r) :
    ∃ s', rs.foldlM (fun w r => w.push_record (ofLex r).1 (ofLex r).2) w
        = .ok { w with singles := some s' }
      ∧ Ready s' ∧ ∀ x, s'.Holds x ↔ s.Holds x ∨ ∃ r ∈ rs, x = relative w.first r := by
  induction rs generalizing w s with
  | nil =>
    refine ⟨s, ?_, h, fun x => by simp⟩
    rw [foldlM_nil, ← hs]
    rfl
  | cons r rs ih =>
    obtain ⟨hr, hrs⟩ := pairwise_cons.mp hsorted
    obtain ⟨hin₁, hin₂⟩ := forall_mem_cons.mp hin
    obtain ⟨s₁, hpush, hready, hcar, hholds⟩ := push_record_eq hs h hin₁
      fun c hc => hnext c hc r (.head _)
    obtain ⟨s₂, hfold, hready₂, hholds₂⟩ := ih (w := { w with singles := some s₁ }) rfl hready hrs
      hin₂ fun c hc q hq => by
        obtain rfl : relative w.first r = c := Option.some.inj (hcar.symm.trans hc)
        exact relative_lt hin₁.1 (hin₂ q hq).1 (hr q hq)
    refine ⟨s₂, ?_, hready₂, fun x => ?_⟩
    · rw [foldlM_cons, hpush]
      exact hfold
    · rw [hholds₂, hholds]
      simp only [mem_cons, exists_eq_or_imp, or_assoc]

/-- **Everything held is in the finished segment**, unless its records take
too many bytes. -/
theorem finish_eq (hs : w.singles = some s) (h : Ready s) :
    ∃ s', (w.finish = .ok { w with singles := some s' }
        ∨ w.finish = .error .recordLength ∧ 2 ^ 32 ≤ (Encoder.of s'.encoder.records).len)
      ∧ s'.encoder.records.Pairwise (· < ·)
      ∧ ∀ x, x ∈ s'.encoder.records ↔ s.Holds x := by
  obtain ⟨hok, hsealed, -, henc, hholds⟩ := s.seal_spec h.ok h.fresh
  obtain ⟨-, h₂, -, h₄, -, h₆⟩ := Singles.flush_spec none
    (hok.pending_sorted hsealed) hok.sorted hok.cross
  have hfinish : w.seal_records = { w with singles := some (s.seal_pending.flush_below none) } := by
    rw [seal_records, hs]
    rfl
  refine ⟨s.seal_pending.flush_below none, ?_, h₂, fun x => ?_⟩
  · unfold finish
    rw [hfinish]
    simp only [Option.any_some, decide_eq_true_eq]
    rcases lt_or_ge (s.seal_pending.flush_below none).encoder.len (2 ^ 32) with hlt | hge
    · rw [if_neg (not_le.mpr hlt)]
      exact .inl rfl
    · rw [if_pos hge]
      have hbuilt : (s.seal_pending.flush_below none).encoder.Built :=
        Singles.flush_built _ _ (henc ▸ h.built)
      refine .inr ⟨rfl, ?_⟩
      rw [hbuilt]
      exact hge
  · rw [← hholds x]
    refine ⟨fun hx => (h₆ x).mp (.inl hx), fun hx => ?_⟩
    rcases (h₆ x).mpr hx with hx | hx
    · exact hx
    · cases h₄ x hx

end Draft

end Ferret
