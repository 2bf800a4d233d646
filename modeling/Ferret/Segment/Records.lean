import Ferret.Lib.Boundary
import Ferret.Segment.Checked
import Ferret.Segment.Fingerprint

/-!
# Looking up a fingerprint

The documents a term may be in are those recorded under its fingerprint. The
index has the first fingerprint of each restart block, and a run of one
fingerprint may begin anywhere in a block, so the blocks to read are those
that begin with the fingerprint and the one before them.

`Segment.fingerprint_table` says that nothing is lost on the way: the records
that were encoded are the ones a stream yields, and a lookup has all of those
with the fingerprint and no others, however they fall into blocks.
-/

namespace Ferret

open List

namespace Segment

open Encoder

variable (s : Segment)

/-- `[start, stop)` of the records, read through the window of a stream if
there is one. -/
def read_records (C : Checksum) (start stop : ℕ) :
    Option Window → Except ReadError (Bytes × Option Window)
  | some window => do
    let (bytes, window) ← s.read_through C .fingerprints start stop window
    .ok (bytes, some window)
  | none => do
    let (bytes, back) ← s.read_checked C .fingerprints start stop
    .ok (slice bytes back (stop - start), none)

/-- Decodes restart block `b`, read through `window` when a stream holds
one. -/
def record_block {σ : Type} (C : Checksum) (b : ℕ) (window : Option Window)
    (each : σ → ℕ → ℕ → σ × Bool) (state : σ) : Except ReadError (σ × Option Window) := do
  let start := s.fingerprints.starts.getD b 0
  let stop := s.fingerprints.starts.getD (b + 1) s.fingerprints_at.2
  let (bytes, window) ← s.read_records C start stop window
  let state ← orElse (.corrupt .fingerprints)
    (decode_block bytes (s.fingerprints.firsts.getD b 0) (s.fingerprints.count b)
      (s.info.last - s.info.first) (fun state fp doc => each state fp (s.info.first + doc)) state)
  .ok (state, window)

/-- The blocks that can hold a fingerprint: those that begin with it, and the
one before them. -/
def fingerprint_blocks (fp : ℕ) : ℕ × ℕ :=
  let firsts := s.fingerprints.firsts
  if firsts.head?.all (fp < ·) then (0, 0)
  else
    let lower := Boundary.partition_point firsts.length fun i => firsts[i]?.any (· < fp)
    let upper := Boundary.partition_point firsts.length fun i => firsts[i]?.any (· ≤ fp)
    (lower - 1, upper)

/-- Conservative record-count bound from the resident restart index. -/
def fingerprint_bound (fingerprint : Bytes → ℕ) (term : Bytes) : ℕ :=
  if s.fingerprints.records = 0 then 0
  else
    let (start, stop) := s.fingerprint_blocks (fingerprint term)
    min (stop * RECORD_BLOCK) s.fingerprints.records - start * RECORD_BLOCK

/-- Takes the documents of one fingerprint, until a later one comes. -/
def take_doc (fp : ℕ) (state : List ℕ × Bool) (key doc : ℕ) : (List ℕ × Bool) × Bool :=
  let docs := if key = fp then state.1 ++ [doc] else state.1
  let done := decide (fp < key)
  ((docs, done), !done)

/-- The loop of `fingerprint_docs`, over the blocks left. -/
def docs_from (C : Checksum) (fp : ℕ) : List ℕ → List ℕ → Except ReadError (List ℕ)
  | [], docs => .ok docs
  | b :: rest, docs => do
    let ((docs, done), _) ← s.record_block C b none (take_doc fp) (docs, false)
    if done then .ok docs else docs_from C fp rest docs

/-- All documents with the fingerprint of `term`. -/
def fingerprint_docs (fingerprint : Bytes → ℕ) (C : Checksum) (term : Bytes) :
    Except ReadError (List ℕ) :=
  if s.fingerprints.records = 0 then .ok []
  else
    let fp := fingerprint term
    let (start, stop) := s.fingerprint_blocks fp
    s.docs_from C fp (List.range' start (stop - start)) []

end Segment

/-- A segment's records in order, at most one restart block at a time. -/
structure Records where
  window : Window
  /-- The next block to read. -/
  block : ℕ
  /-- What is left of the block read last. -/
  records : List (ℕ × ℕ)

namespace Records

def new : Records where
  window := Window.empty
  block := 0
  records := []

/-- The next record, or `none` after the last. No block is empty. -/
def next_record (C : Checksum) (s : Segment) (t : Records) :
    Except ReadError (Option (ℕ × ℕ) × Records) :=
  match t.records with
  | record :: rest => .ok (some record, { t with records := rest })
  | [] =>
    if t.block = s.fingerprints.firsts.length then .ok (none, t)
    else do
      let (records, window) ← s.record_block C t.block (some t.window)
        (fun records fp doc => (records ++ [(fp, doc)], true)) []
      .ok (records.head?, {
        window := window.getD t.window
        block := t.block + 1
        records := records.tail })

/-- **A stream yields some records, and then ends.** -/
inductive Yields (C : Checksum) (s : Segment) : Records → List (ℕ × ℕ) → Prop
  | done {t t' : Records} (next : t.next_record C s = .ok (none, t')) : Yields C s t []
  | more {t t' : Records} {record : ℕ × ℕ} {rest : List (ℕ × ℕ)}
      (next : t.next_record C s = .ok (some record, t')) (yields : Yields C s t' rest) :
      Yields C s t (record :: rest)

end Records

namespace Segment

open Encoder

/-- Ordered fingerprint records for a streaming merge. -/
def records (_ : Segment) : Records := Records.new

/-! ## What a segment with records holds -/

/-- **A segment that holds blocks of records.** -/
structure HoldsRecords (C : Checksum) (s : Segment) (gs : List (List Record)) : Prop where
  written : Encoder.Written (s.info.last - s.info.first) gs
  chunked : Chunked RECORD_BLOCK gs
  has : s.Has C .fingerprints (gs.flatMap block_bytes)
  index : s.fingerprints = FingerprintIndex.of_blocks gs

variable {C : Checksum} {s : Segment} {gs : List (List Record)} {σ : Type}

/-- The record with the document itself. -/
def absolute (s : Segment) (r : Record) : ℕ × ℕ := ((ofLex r).1, s.info.first + (ofLex r).2)

/-- Calls `each` with records in order, and their documents. -/
def visit_docs (s : Segment) (each : σ → ℕ → ℕ → σ × Bool) : List Record → σ → σ :=
  visit fun state fp doc => each state fp (s.info.first + doc)

theorem HoldsRecords.fingerprints_at (h : s.HoldsRecords C gs) :
    s.fingerprints_at.2 = (gs.flatMap block_bytes).length := by
  obtain ⟨_, hext, -⟩ := h.has.extent
  exact congrArg (fun p => p.1.2) (Except.ok.inj hext)

variable {g : List Record} {k : ℕ}

/-- The bytes of block `k` lie between its place and the next. -/
theorem slice_records (hk : gs[k]? = some g) :
    slice (gs.flatMap block_bytes) ((gs.take k).flatMap block_bytes).length (block_bytes g).length
      = block_bytes g := by
  obtain ⟨_, hget⟩ := List.getElem?_eq_some_iff.mp hk
  have hcut : gs = gs.take k ++ (g :: gs.drop (k + 1)) := by
    rw [← hget, getElem_cons_drop, take_append_drop]
  conv_lhs => rw [hcut]
  rw [flatMap_append, flatMap_cons, take_left' (by simp; omega)]
  exact slice_mid rfl rfl

/-- **A block read is the block written.** Through a window, the window stays
on the records. -/
theorem HoldsRecords.record_block_eq (h : s.HoldsRecords C gs) (hk : gs[k]? = some g)
    (window : Option Window) (hw : ∀ w ∈ window, Window.Of w (gs.flatMap block_bytes))
    (each : σ → ℕ → ℕ → σ × Bool) (state : σ) :
    ∃ window', s.record_block C k window each state = .ok (s.visit_docs each g state, window')
      ∧ ∀ w ∈ window', Window.Of w (gs.flatMap block_bytes) := by
  obtain ⟨hlt, _⟩ := List.getElem?_eq_some_iff.mp hk
  have hmem : g ∈ gs := mem_of_getElem? hk
  have hne := h.written.ne_nil g hmem
  have hsub : ∀ r ∈ g, r ∈ gs.flatten := fun r hr => mem_flatten_of_mem hmem hr
  have hsorted : g.Pairwise (· < ·) :=
    h.written.sorted.sublist (sublist_flatten_of_mem hmem)
  set start := ((gs.take k).flatMap block_bytes).length with hstart
  have hstop : ((gs.take (k + 1)).flatMap block_bytes).length
      = start + (block_bytes g).length := by
    rw [take_add_one, hk, flatMap_append, length_append]
    simp [hstart]
  have hstarts : s.fingerprints.starts.getD k 0 = start := by
    rw [getD_eq_getElem?_getD, h.index, FingerprintIndex.of_blocks, getElem?_places,
      if_pos hlt, zero_add]
    rfl
  -- past the last block lies the end of the section
  have hends : s.fingerprints.starts.getD (k + 1) s.fingerprints_at.2
      = start + (block_bytes g).length := by
    rw [getD_eq_getElem?_getD, h.index, FingerprintIndex.of_blocks, getElem?_places,
      h.fingerprints_at, ← hstop]
    split
    · rw [zero_add]
      rfl
    · rw [take_of_length_le (by omega)]
      rfl
  have hfirst : s.fingerprints.firsts.getD k 0 = first_of g := by
    rw [getD_eq_getElem?_getD, h.index, FingerprintIndex.of_blocks, getElem?_map, hk]
    rfl
  have hcount : s.fingerprints.count k = g.length := by
    rw [h.index, FingerprintIndex.count_of_blocks h.chunked hk]
  have hin : start + (block_bytes g).length ≤ (gs.flatMap block_bytes).length := by
    rw [← hstop]
    conv_rhs => rw [← take_append_drop (k + 1) gs, flatMap_append, length_append]
    exact le_self_add
  have hbytes := slice_records hk
  have hread : ∃ window', s.read_records C start (start + (block_bytes g).length) window
      = .ok (block_bytes g, window') ∧ ∀ w ∈ window', Window.Of w (gs.flatMap block_bytes) := by
    cases window with
    | none =>
      obtain ⟨base, n, hread, h₁, _, _⟩ := read_checked_ok h.has (le_self_add) hin
      have hcut : slice (slice (gs.flatMap block_bytes) base n) (start - base)
          (start + (block_bytes g).length - start) = block_bytes g := by
        rw [slice_slice (by omega), Nat.add_sub_cancel' h₁, Nat.add_sub_cancel_left, hbytes]
      refine ⟨none, ?_, nofun⟩
      simp only [read_records, bind, Except.bind, hread, hcut]
    | some w =>
      obtain ⟨w', hread, hw'⟩ := read_through_ok h.has (le_self_add) hin (hw w rfl)
      rw [Nat.add_sub_cancel_left, hbytes] at hread
      refine ⟨some w', ?_, fun x hx => ?_⟩
      · simp only [read_records, bind, Except.bind, hread]
      · cases hx
        exact hw'
  obtain ⟨window', hread, hwin⟩ := hread
  refine ⟨window', ?_, hwin⟩
  unfold record_block
  simp only [bind, Except.bind, hstarts, hends, hread, hfirst, hcount]
  rw [decode_block_bytes h.written.span_lt _ hne hsorted fun r hr =>
    h.written.in_range r (hsub r hr)]
  rfl

/-! ## The stream -/

theorem visit_push (g : List Record) (records : List (ℕ × ℕ)) :
    s.visit_docs (fun records fp doc => (records ++ [(fp, doc)], true)) g records
      = records ++ g.map s.absolute := by
  induction g generalizing records with
  | nil => exact (append_nil records).symm
  | cons r g ih =>
    rw [map_cons, append_cons, ← ih]
    rfl

/-- What is left of a block comes before what follows it. -/
theorem yields_buffered {window : Window} {rest : List (ℕ × ℕ)}
    (h : Records.Yields C s ⟨window, k, []⟩ rest) (records : List (ℕ × ℕ)) :
    Records.Yields C s ⟨window, k, records⟩ (records ++ rest) := by
  induction records with
  | nil => exact h
  | cons _ records ih => exact .more rfl ih

/-- **A stream yields the records of the blocks it has not read.** -/
theorem HoldsRecords.yields (h : s.HoldsRecords C gs) (hle : k ≤ gs.length) {window : Window}
    (hw : Window.Of window (gs.flatMap block_bytes)) :
    Records.Yields C s ⟨window, k, []⟩ ((gs.drop k).flatten.map s.absolute) := by
  have hlen : s.fingerprints.firsts.length = gs.length := by
    rw [h.index]
    exact length_map _
  -- by induction on the number of blocks left
  generalize hn : gs.length - k = n
  induction n generalizing k window with
  | zero =>
    obtain rfl : k = gs.length := by omega
    rw [drop_length]
    refine .done (?_ : _ = Except.ok (none, ⟨window, gs.length, []⟩))
    exact if_pos hlen.symm
  | succ n ih =>
    have hlt : k < gs.length := by omega
    have hk : gs[k]? = some gs[k] := getElem?_eq_getElem hlt
    obtain ⟨r, g, hg⟩ := exists_cons_of_ne_nil (h.written.ne_nil _ (getElem_mem hlt))
    have hwindow : ∀ w ∈ some window, Window.Of w (gs.flatMap block_bytes) := fun w hw' => by
      cases hw'
      exact hw
    obtain ⟨window', hread, hwin⟩ := h.record_block_eq hk (some window) hwindow
      (fun records fp doc => (records ++ [(fp, doc)], true)) []
    rw [visit_push, nil_append, hg, map_cons] at hread
    have hof : Window.Of (window'.getD window) (gs.flatMap block_bytes) := by
      cases window' with
      | none => exact hw
      | some w => exact hwin w rfl
    have hmore : ¬ k = s.fingerprints.firsts.length := by omega
    have hrest := yields_buffered (ih hlt hof (by omega)) (g.map s.absolute)
    rw [drop_eq_getElem_cons hlt, flatten_cons, map_append, hg, map_cons, cons_append]
    refine .more ?_ hrest
    rw [Records.next_record]
    simp only [hmore, if_false, bind, Except.bind, hread, head?_cons, tail_cons]

/-! ## The lookup -/

/-- The documents recorded under a fingerprint. -/
def docs_of (s : Segment) (fp : ℕ) (rs : List Record) : List ℕ :=
  (rs.filter fun r => (ofLex r).1 = fp).map fun r => s.info.first + (ofLex r).2

theorem docs_of_append (fp : ℕ) (rs rs' : List Record) :
    s.docs_of fp (rs ++ rs') = s.docs_of fp rs ++ s.docs_of fp rs' := by
  rw [docs_of, filter_append, map_append]
  rfl

theorem docs_of_eq_nil {fp : ℕ} {rs : List Record} (h : ∀ r ∈ rs, (ofLex r).1 ≠ fp) :
    s.docs_of fp rs = [] := by
  rw [docs_of, filter_eq_nil_iff.mpr fun r hr => by simpa using h r hr]
  rfl

/-- **A block gives its documents of the fingerprint**, and tells whether a
later fingerprint has come. -/
theorem visit_take_doc {fp : ℕ} (hs : g.Pairwise (· < ·)) (docs : List ℕ) :
    s.visit_docs (take_doc fp) g (docs, false)
      = (docs ++ s.docs_of fp g, g.any fun r => decide (fp < (ofLex r).1)) := by
  induction g generalizing docs with
  | nil => simp [visit_docs, visit, docs_of]
  | cons r g ih =>
    obtain ⟨hr, hrest⟩ := pairwise_cons.mp hs
    set seen := (take_doc fp (docs, false) (ofLex r).1 (s.info.first + (ofLex r).2)).1 with hseen
    have hstep : s.visit_docs (take_doc fp) (r :: g) (docs, false)
        = if fp < (ofLex r).1 then seen else s.visit_docs (take_doc fp) g seen := by
      rw [visit_docs, visit, hseen]
      simp only [take_doc]
      by_cases hlt : fp < (ofLex r).1 <;> simp [hlt]
    rw [hstep, ← singleton_append, docs_of_append, any_append]
    by_cases hlt : fp < (ofLex r).1
    · have hnone : s.docs_of fp [r] = [] := docs_of_eq_nil fun x hx => by
        rw [mem_singleton.mp hx]
        exact hlt.ne'
      have hlater : s.docs_of fp g = [] :=
        docs_of_eq_nil fun x hx => (hlt.trans_le (fst_le (hr x hx))).ne'
      rw [if_pos hlt, hnone, hlater]
      simp [hseen, take_doc, hlt, hlt.ne']
    · rw [if_neg hlt]
      have hdone : seen = (docs ++ s.docs_of fp [r], false) := by
        by_cases heq : (ofLex r).1 = fp
        · simp [hseen, take_doc, docs_of, heq]
        · simp [hseen, take_doc, docs_of, heq, hlt]
      rw [hdone, ih hrest, append_assoc]
      simp [hlt]

/-- The blocks before some blocks, those, and the ones after them. -/
theorem flatten_between (gs : List (List Record)) (a n : ℕ) :
    gs.flatten = (gs.take a).flatten
      ++ (((gs.drop a).take n).flatten ++ (gs.drop (a + n)).flatten) := by
  rw [← flatten_append, ← drop_drop, take_append_drop, ← flatten_append, take_append_drop]

/-- **The loop gives the documents of the blocks it is told to read.** -/
theorem HoldsRecords.docs_from_eq (h : s.HoldsRecords C gs) (fp : ℕ) {a n : ℕ}
    (hle : a + n ≤ gs.length) (docs : List ℕ) :
    s.docs_from C fp (List.range' a n) docs
      = .ok (docs ++ s.docs_of fp ((gs.drop a).take n).flatten) := by
  induction n generalizing a docs with
  | zero =>
    rw [take_zero, flatten_nil, docs_of_eq_nil (fun r hr => by cases hr), append_nil]
    rfl
  | succ n ih =>
    have hlt : a < gs.length := by omega
    have hk : gs[a]? = some gs[a] := getElem?_eq_getElem hlt
    have hcut : ((gs.drop a).take (n + 1)).flatten
        = gs[a] ++ ((gs.drop (a + 1)).take n).flatten := by
      rw [drop_eq_getElem_cons hlt, take_succ_cons, flatten_cons]
    have hsorted : (gs[a] ++ ((gs.drop (a + 1)).take n).flatten).Pairwise (· < ·) := by
      have hall := h.written.sorted
      rw [flatten_between gs a (n + 1), hcut] at hall
      exact (pairwise_append.mp (pairwise_append.mp hall).2.1).1
    obtain ⟨hhere, -, hcross⟩ := pairwise_append.mp hsorted
    obtain ⟨_, hread, -⟩ := h.record_block_eq hk none nofun (take_doc fp)
      (docs, false)
    rw [visit_take_doc hhere] at hread
    rw [range'_succ, docs_from, hcut, docs_of_append]
    simp only [bind, Except.bind, hread]
    split
    case isTrue hdone =>
      -- a later fingerprint has come: the blocks not read have none before it
      obtain ⟨r, hr, hlater⟩ := any_eq_true.mp hdone
      have hnone : s.docs_of fp ((gs.drop (a + 1)).take n).flatten = [] :=
        docs_of_eq_nil fun x hx =>
          ((of_decide_eq_true hlater).trans_le (fst_le (hcross r hr x hx))).ne'
      rw [hnone, append_nil]
    case isFalse => rw [ih (by omega), append_assoc]

theorem first_of_le_of_mem (hs : g.Pairwise (· < ·)) {r : Record} (hr : r ∈ g) :
    first_of g ≤ (ofLex r).1 := by
  cases g with
  | nil => cases hr
  | cons x g =>
    rcases mem_cons.mp hr with rfl | hr
    · exact le_rfl
    · exact fst_le ((pairwise_cons.mp hs).1 r hr)

/-- The fingerprints of a block are below that of the block after it. -/
theorem le_first_of_succ {span i : ℕ} (h : Encoder.Written span gs) {g g' : List Record}
    (hi : gs[i]? = some g) (hi' : gs[i + 1]? = some g') {r : Record} (hr : r ∈ g) :
    (ofLex r).1 ≤ first_of g' := by
  obtain ⟨x, hx, hfirst⟩ := first_of_mem (h.ne_nil g' (mem_of_getElem? hi'))
  obtain ⟨hlt, rfl⟩ := List.getElem?_eq_some_iff.mp hi
  obtain ⟨hlt', rfl⟩ := List.getElem?_eq_some_iff.mp hi'
  have hcross := pairwise_iff_getElem.mp (pairwise_flatten.mp h.sorted).2 i (i + 1)
    hlt hlt' (Nat.lt_succ_self i)
  rw [← hfirst]
  exact fst_le (hcross r hr x hx)

theorem firsts_sorted {span : ℕ} (h : Encoder.Written span gs) :
    (gs.map first_of).Pairwise (· ≤ ·) := by
  induction gs with
  | nil => exact .nil
  | cons g gs ih =>
    refine pairwise_cons.mpr ⟨fun x hx => ?_, ih h.tail⟩
    obtain ⟨_, hg', rfl⟩ := mem_map.mp hx
    exact h.first_of_le hg'

/-- **No block outside the range has a record of the fingerprint**: those
before the one before it end below the next block's first, and those after it
begin above. -/
theorem HoldsRecords.range_covers (h : s.HoldsRecords C gs) (fp : ℕ) :
    (s.fingerprint_blocks fp).2 ≤ gs.length
      ∧ (∀ (i : ℕ) g, i < (s.fingerprint_blocks fp).1 → gs[i]? = some g → ∀ r ∈ g, (ofLex r).1 ≠ fp)
      ∧ ∀ (i : ℕ) g, (s.fingerprint_blocks fp).2 ≤ i → gs[i]? = some g →
        ∀ r ∈ g, (ofLex r).1 ≠ fp := by
  have hfirsts : s.fingerprints.firsts = gs.map first_of := by
    rw [h.index]
    rfl
  have hsorted := firsts_sorted h.written
  -- a block at or after one that begins above the fingerprint
  have habove : ∀ (i : ℕ) g, gs[i]? = some g → fp < first_of g → ∀ r ∈ g, (ofLex r).1 ≠ fp := by
    intro i g hi hlt r hr
    have hmem := mem_of_getElem? hi
    have hg := h.written.sorted.sublist (sublist_flatten_of_mem hmem)
    exact (hlt.trans_le (first_of_le_of_mem hg hr)).ne'
  by_cases hhead : (gs.map first_of).head?.all (fp < ·) = true
  · have hrange : s.fingerprint_blocks fp = (0, 0) := by
      rw [fingerprint_blocks, hfirsts]
      exact if_pos hhead
    rw [hrange]
    refine ⟨Nat.zero_le _, fun i g hi => absurd hi (Nat.not_lt_zero i), fun i g _ hi => ?_⟩
    refine habove i g hi ?_
    cases gs with
    | nil => cases hi
    | cons x gs =>
      have hx : fp < first_of x := by simpa using hhead
      cases i with
      | zero =>
        obtain rfl : x = g := by simpa using hi
        exact hx
      | succ i => exact hx.trans_le (h.written.first_of_le (mem_of_getElem? hi))
  · have hlower := Boundary.at_takeWhile (p := fun x => decide (x < fp))
      (hsorted.imp fun {a b} hab hb => by
        simp only [decide_eq_true_eq] at hb ⊢
        exact hab.trans_lt hb)
    have hupper := Boundary.at_takeWhile (p := fun x => decide (x ≤ fp))
      (hsorted.imp fun {a b} hab hb => by
        simp only [decide_eq_true_eq] at hb ⊢
        exact hab.trans hb)
    have hrange : s.fingerprint_blocks fp = (((gs.map first_of).takeWhile (· < fp)).length - 1,
        ((gs.map first_of).takeWhile (· ≤ fp)).length) := by
      rw [fingerprint_blocks, hfirsts]
      simp only [hlower.partition_point, hupper.partition_point]
      exact if_neg hhead
    rw [hrange]
    have hle := hupper.le
    rw [length_map] at hle
    refine ⟨hle, fun i g hi hget r hr => ?_, fun i g hi hget => habove i g hget ?_⟩
    · have hi' : i + 1 < (gs.map first_of).length := by
        have := hlower.le
        omega
      have hbelow := (hlower.iff (i + 1) hi').mpr (by omega)
      rw [length_map] at hi'
      have hnext : gs[i + 1]? = some gs[i + 1] := getElem?_eq_getElem hi'
      have hlt : first_of gs[i + 1] < fp := by
        rw [getElem?_map, hnext] at hbelow
        simpa using hbelow
      exact ((le_first_of_succ h.written hget hnext hr).trans_lt hlt).ne
    · obtain ⟨hlt, -⟩ := List.getElem?_eq_some_iff.mp hget
      have hnot := mt (hupper.iff i (by rwa [length_map])).mp (not_lt.mpr hi)
      rw [getElem?_map, hget] at hnot
      simpa using hnot

/-- **The documents of a fingerprint are in the range of blocks.** -/
theorem HoldsRecords.docs_of_range (h : s.HoldsRecords C gs) (fp : ℕ) :
    s.docs_of fp gs.flatten = s.docs_of fp ((gs.drop (s.fingerprint_blocks fp).1).take
      ((s.fingerprint_blocks fp).2 - (s.fingerprint_blocks fp).1)).flatten := by
  obtain ⟨-, hbefore, hafter⟩ := h.range_covers fp
  generalize s.fingerprint_blocks fp = range at hbefore hafter ⊢
  obtain ⟨a, b⟩ := range
  have hfront : s.docs_of fp (gs.take a).flatten = [] := docs_of_eq_nil fun r hr => by
    obtain ⟨g, hg, hr⟩ := mem_flatten.mp hr
    obtain ⟨i, hi⟩ := mem_iff_getElem?.mp hg
    rw [getElem?_take] at hi
    split at hi
    · rename_i hlt
      exact hbefore i g hlt hi r hr
    · cases hi
  have hback : s.docs_of fp (gs.drop (a + (b - a))).flatten = [] := docs_of_eq_nil fun r hr => by
    obtain ⟨g, hg, hr⟩ := mem_flatten.mp hr
    obtain ⟨i, hi⟩ := mem_iff_getElem?.mp hg
    rw [getElem?_drop] at hi
    exact hafter _ g (by show b ≤ _; omega) hi r hr
  conv_lhs => rw [flatten_between gs a (b - a)]
  rw [docs_of_append, docs_of_append, hfront, hback, nil_append, append_nil]

/-- **The records in the range of blocks are no more than the bound.** -/
theorem HoldsRecords.length_le_bound (h : s.HoldsRecords C gs) (fingerprint : Bytes → ℕ)
    (term : Bytes) :
    (s.docs_of (fingerprint term) gs.flatten).length ≤ s.fingerprint_bound fingerprint term := by
  have hrecords : s.fingerprints.records = gs.flatten.length := by
    rw [h.index]
    rfl
  unfold fingerprint_bound
  by_cases hzero : s.fingerprints.records = 0
  · have hnil : gs.flatten = [] := length_eq_zero_iff.mp (by rw [← hrecords, hzero])
    rw [if_pos hzero, hnil]
    exact le_rfl
  rw [if_neg hzero, h.docs_of_range, hrecords]
  generalize s.fingerprint_blocks (fingerprint term) = range
  obtain ⟨a, b⟩ := range
  have hdocs : (s.docs_of (fingerprint term) ((gs.drop a).take (b - a)).flatten).length
      ≤ ((gs.drop a).take (b - a)).flatten.length := by
    rw [docs_of, length_map]
    exact length_filter_le _ _
  refine hdocs.trans ?_
  have ha := h.chunked.length_take a
  have hb := h.chunked.length_take (a + (b - a))
  rw [take_add, flatten_append, length_append, ha] at hb
  show _ ≤ min (b * RECORD_BLOCK) gs.flatten.length - a * RECORD_BLOCK
  rcases le_total a b with hab | hab
  · rw [Nat.add_sub_cancel' hab] at hb
    have hmul : a * RECORD_BLOCK ≤ b * RECORD_BLOCK := Nat.mul_le_mul_right _ hab
    omega
  · rw [Nat.sub_eq_zero_of_le hab, take_zero]
    exact Nat.zero_le _

theorem HoldsRecords.fingerprint_docs_eq (h : s.HoldsRecords C gs) (fingerprint : Bytes → ℕ)
    (term : Bytes) :
    s.fingerprint_docs fingerprint C term = .ok (s.docs_of (fingerprint term) gs.flatten) := by
  have hrecords : s.fingerprints.records = gs.flatten.length := by
    rw [h.index]
    rfl
  unfold fingerprint_docs
  by_cases hzero : s.fingerprints.records = 0
  · have hnil : gs.flatten = [] := length_eq_zero_iff.mp (by rw [← hrecords, hzero])
    rw [if_pos hzero, hnil]
    rfl
  rw [if_neg hzero, h.docs_of_range]
  have hle := (h.range_covers (fingerprint term)).1
  dsimp only
  generalize s.fingerprint_blocks (fingerprint term) = range at hle ⊢
  obtain ⟨a, b⟩ := range
  rcases le_total a b with hab | hab
  · have hin : a + (b - a) ≤ gs.length := by
      rw [Nat.add_sub_cancel' hab]
      exact hle
    exact h.docs_from_eq (fingerprint term) hin []
  · show s.docs_from C _ (List.range' a (b - a)) [] = _
    rw [Nat.sub_eq_zero_of_le hab, take_zero]
    rfl

/-- **The fingerprint table.** For sorted records in range whose section fits
the index, the index section of the encoder parses; and in a segment with
that index and the encoder's bytes, a stream yields the records, a lookup has
the documents recorded under the term's fingerprint, in order, and the bound
is not below their number. -/
theorem fingerprint_table {span : ℕ} (hspan : span < 2 ^ 32) {rs : List Record}
    (hs : rs.Pairwise (· < ·)) (hin : InRange span rs) (hfits : (Encoder.of rs).len < 2 ^ 32) :
    ∃ index, FingerprintIndex.parse (put (Encoder.of rs).records.length
        ++ (Encoder.of rs).index) (Encoder.of rs).len = some index
      ∧ ∀ (C : Checksum) (s : Segment), s.Has C .fingerprints (Encoder.of rs).bytes →
        s.fingerprints = index → s.info.last - s.info.first = span →
          s.records.Yields C s (rs.map s.absolute)
          ∧ ∀ (fingerprint : Bytes → ℕ) (term : Bytes),
            s.fingerprint_docs fingerprint C term = .ok (s.docs_of (fingerprint term) rs)
            ∧ (s.docs_of (fingerprint term) rs).length ≤ s.fingerprint_bound fingerprint term := by
  obtain ⟨hrec, gs, hlaid⟩ := Encoder.of_laid hs
  have hrs : rs = gs.flatten := hrec.symm.trans hlaid.records
  have hwritten : Encoder.Written span gs := by
    refine ⟨hspan, hlaid.ne_nil, hrs ▸ hs, hrs ▸ hin, ?_⟩
    rw [← hlaid.bytes]
    exact hfits
  refine ⟨_, FingerprintIndex.parse_index hlaid hwritten, fun C s hhas hindex hinfo => ?_⟩
  have h : s.HoldsRecords C gs := by
    refine ⟨hinfo ▸ hwritten, hlaid.chunked, ?_, hindex⟩
    rw [← hlaid.bytes]
    exact hhas
  rw [hrs]
  refine ⟨h.yields (Nat.zero_le _) (Window.empty_of _), fun fingerprint term => ?_⟩
  exact ⟨h.fingerprint_docs_eq fingerprint term, h.length_le_bound fingerprint term⟩

/-- Three fingerprints, one of them with two documents. -/
def four_records : List Record := [toLex (3, 0), toLex (7, 2), toLex (7, 5), toLex (9, 1)]

/-- A checksum that is the same for all bytes. -/
def constant : Checksum where
  checksum := fun _ => List.replicate 16 0
  length_checksum := fun _ => rfl

/-- A segment of records alone, over `10..15`. -/
def of_records (rs : List Record) : Segment where
  source := (Encoder.of rs).bytes
  info := { tokenizer_version := 1, first := 10, last := 15, terms := 0, pairs := rs.length }
  digest := []
  blocks_at := (0, 0)
  postings_at := (0, 0)
  lengths := fun _ => 0
  codec := FINGERPRINT_CODEC
  fingerprints_at := (0, (Encoder.of rs).bytes.length)
  fingerprints := (FingerprintIndex.parse (put (Encoder.of rs).records.length
    ++ (Encoder.of rs).index) (Encoder.of rs).len).getD FingerprintIndex.none
  sums := chunk_sums constant (Encoder.of rs).bytes
  index_bytes := []
  samples := []
  blocks := 0

theorem of_records_has (rs : List Record) :
    (of_records rs).Has constant .fingerprints (Encoder.of rs).bytes := by
  have hsums : chunks 0 * 16 + chunks 0 * 16 = 0 := by decide
  refine ⟨⟨0, ?_, (zero_add _).le, take_length⟩⟩
  show Except.ok ((0, _), (chunk_sums constant _).drop (chunks 0 * 16 + chunks 0 * 16)) = _
  rw [hsums, drop_zero]

theorem fingerprint_table_four_records :
    (of_records four_records).fingerprint_docs (fun _ => 7) constant [102] = .ok [12, 15]
      ∧ 2 ≤ (of_records four_records).fingerprint_bound (fun _ => 7) [102] := by
  have hin : InRange 5 four_records := by
    unfold InRange
    decide
  obtain ⟨index, hparse, h⟩ := fingerprint_table (by decide) (by decide) hin (by decide +kernel)
  have hindex : (of_records four_records).fingerprints = index := by
    rw [of_records, hparse]
    rfl
  exact (h constant _ (of_records_has four_records) hindex rfl).2 (fun _ => 7) [102]

end Segment

end Ferret
