import Ferret.Index.Merge
import Ferret.Index.Union
import Ferret.Segment.Records
import Ferret.Segment.Stream

/-!
# Looking a term up, and walking it

A view answers for a term in two ways. `lookup` decodes every list whole, puts the
documents recorded under the term's fingerprint to it, and sorts. A query reads the
term once, `read`, and walks a cursor over what it read, which leaps through the lists.
Both give the same documents (`lookup_eq_walk`). How sure a document is, only the cursor
tells.
-/

namespace Ferret

open Postings List

/-- One term's documents in every segment that holds it, as read: the source's `Term`. -/
structure Found where
  parts : List Part
  docs : ℕ
  bytes : ℕ
  records : ℕ
deriving DecidableEq

/-- Adds what a segment whose last DocId is `last` has of the term. -/
def Found.add (found : Found) (last : ℕ) (hit : Option Hit) (maybe : List ℕ) : Found where
  parts := if hit.isNone && maybe.isEmpty then found.parts
    else found.parts ++ [{ last := last, hit := hit, maybe := maybe }]
  docs := found.docs + maybe.length + match hit with
    | some (.single _) => 1
    | some (.postings list) => list.df
    | none => 0
  bytes := found.bytes + match hit with
    | some (.postings list) => list.bytes.length
    | _ => 0
  records := found.records + maybe.length

/-- Adds what the segments answered. -/
def Found.gather (found : Found) (parts : List Part) : Found :=
  parts.foldl (fun found part => found.add part.last part.hit part.maybe) found

section

variable (P : Intpack) (C : Checksum) (fingerprint : Bytes → ℕ) (term : Bytes)

/-- The loop of `View::lookup`. -/
def lookup_from (docs : List ℕ) : List Segment → Except ReadError (List ℕ)
  | [] => .ok docs
  | segment :: rest => do
    let part ← segment.fingerprint_docs fingerprint C term
    let part := match ← segment.lookup P C term with
      | none => part
      | some (.single doc) => part ++ [doc]
      | some (.postings list) => part ++ list.decode P
    lookup_from (docs ++ (part.mergeSort fun a b => decide (a ≤ b)).dedup) rest

/-- Every document whose postings hold `term`, across the segments of a view: its
`lookup`. -/
def lookup (segments : List Segment) : Except ReadError (List ℕ) :=
  lookup_from P C fingerprint term [] segments

/-- The loop of `Term::read`. -/
def read_from (floor : ℕ) (found : Found) : List Segment → Except ReadError Found
  | [] => .ok found
  | segment :: rest =>
    if segment.info.first < floor then .error .layout
    else do
      -- the entry, and the documents it points at
      let hit ← segment.lookup P C term
      let maybe ← segment.fingerprint_docs fingerprint C term
      read_from (segment.info.last + 1) (found.add segment.info.last hit maybe) rest

/-- Looks `term` up in each of the segments, which must be in DocId order. -/
def read (segments : List Segment) : Except ReadError Found :=
  read_from P C fingerprint term 0 { parts := [], docs := 0, bytes := 0, records := 0 } segments

/-- **What the segments of a view have of a term**: they are in order, and their lists and
records are, as they were written. -/
structure Readable (segments : List Segment) : Prop where
  ordered : segments.Pairwise fun a b => a.info.last < b.info.first
  hit : ∀ s ∈ segments, ∀ hit, s.lookup P C term = .ok (some hit) →
    Part.Dictionary P s.info.first { last := s.info.last, hit := some hit, maybe := [] }
  range : ∀ s ∈ segments, s.info.first ≤ s.info.last ∧ s.info.last < docLimit
  records : ∀ s ∈ segments, ∀ docs, s.fingerprint_docs fingerprint C term = .ok docs →
    docs.Pairwise (· < ·) ∧ ∀ d ∈ docs, s.info.first ≤ d ∧ d ≤ s.info.last

/-- What a segment answers. -/
structure Reads (s : Segment) (part : Part) : Prop where
  last : part.last = s.info.last
  hit : s.lookup P C term = .ok part.hit
  maybe : s.fingerprint_docs fingerprint C term = .ok part.maybe

end

/-- The documents a term yields from the first on, asked for the one after each. -/
def Found.walk (P : Intpack) (found : Found) : List (ℕ × Certainty) :=
  Seek.drain docLimit (Postings.Cursor.next_geq (P := P))
    { parts := found.parts, index := 0, inner := none }

/-- A document is certain when a dictionary has it, and not when it is only recorded. -/
def Found.certainty (P : Intpack) (found : Found) : ℕ → Option Certainty :=
  mixed (found.parts.flatMap (Part.docs P)) (found.parts.flatMap Part.maybe)

variable {P : Intpack} {C : Checksum} {fingerprint : Bytes → ℕ} {term : Bytes}
  {segments : List Segment} {parts : List Part} {floor : ℕ} {remaining : P.SortedCursor → List ℕ}

/-- The documents of a part, in order. -/
def Part.candidates (P : Intpack) (part : Part) : List ℕ :=
  ((part.maybe ++ part.docs P).mergeSort fun a b => decide (a ≤ b)).dedup

theorem Part.mem_candidates {part : Part} {d : ℕ} :
    d ∈ part.candidates P ↔ d ∈ part.docs P ∨ d ∈ part.maybe := by
  rw [candidates, mem_dedup, mem_mergeSort, mem_append, or_comm]

/-! ## What the loops read -/

theorem lookup_from_eq (h : List.Forall₂ (Reads P C fingerprint term) segments parts)
    (docs : List ℕ) : lookup_from P C fingerprint term docs segments
      = .ok (docs ++ parts.flatMap (Part.candidates P)) := by
  induction h generalizing docs with
  | nil => exact congrArg Except.ok (append_nil _).symm
  | @cons s part _ _ hread _ ih =>
    rw [lookup_from, hread.maybe, hread.hit]
    refine (ih _).trans ?_
    rw [flatMap_cons, ← append_assoc, Part.candidates, Part.docs]
    rcases part.hit with _ | _ | _
    · rw [append_nil]
    · rfl
    · rfl

theorem read_from_eq (h : List.Forall₂ (Reads P C fingerprint term) segments parts)
    (hordered : segments.Pairwise fun a b => a.info.last < b.info.first)
    (hfloor : ∀ s ∈ segments, floor ≤ s.info.first) (found : Found) :
    read_from P C fingerprint term floor found segments
      = .ok (found.gather parts) := by
  induction h generalizing floor found with
  | nil => rfl
  | @cons s _ _ _ hread _ ih =>
    obtain ⟨hlt, hrest⟩ := pairwise_cons.mp hordered
    rw [read_from, if_neg (not_lt.mpr (hfloor s (.head _)))]
    rw [hread.hit, hread.maybe]
    refine (ih hrest hlt _).trans ?_
    rw [← hread.last]
    rfl

theorem exists_reads_of_lookup {docs docs' : List ℕ}
    (h : lookup_from P C fingerprint term docs segments = .ok docs') :
    ∃ parts, List.Forall₂ (Reads P C fingerprint term) segments parts := by
  induction segments generalizing docs with
  | nil => exact ⟨[], .nil⟩
  | cons s _ ih =>
    rw [lookup_from] at h
    cases hmaybe : s.fingerprint_docs fingerprint C term with
    | error e =>
      rw [hmaybe] at h
      cases h
    | ok maybe =>
      rw [hmaybe] at h
      cases hhit : s.lookup P C term with
      | error e =>
        rw [hhit] at h
        cases h
      | ok hit =>
        rw [hhit] at h
        obtain ⟨parts, hparts⟩ := ih h
        exact ⟨⟨s.info.last, hit, maybe⟩ :: parts, .cons ⟨rfl, hhit, hmaybe⟩ hparts⟩

theorem exists_reads_of_read {found found' : Found}
    (h : read_from P C fingerprint term floor found segments = .ok found') :
    ∃ parts, List.Forall₂ (Reads P C fingerprint term) segments parts := by
  induction segments generalizing floor found with
  | nil => exact ⟨[], .nil⟩
  | cons s _ ih =>
    rw [read_from] at h
    split_ifs at h
    cases hhit : s.lookup P C term with
    | error e =>
      rw [hhit] at h
      cases h
    | ok hit =>
      rw [hhit] at h
      cases hmaybe : s.fingerprint_docs fingerprint C term with
      | error e =>
        rw [hmaybe] at h
        cases h
      | ok maybe =>
        rw [hmaybe] at h
        obtain ⟨parts, hparts⟩ := ih h
        exact ⟨⟨s.info.last, hit, maybe⟩ :: parts, .cons ⟨rfl, hhit, hmaybe⟩ hparts⟩

/-- A segment that has nothing of the term leaves no part. -/
theorem Found.gather_parts (parts : List Part) (found : Found) :
    (found.gather parts).parts
      = found.parts ++ parts.filter fun part => !(part.hit.isNone && part.maybe.isEmpty) := by
  induction parts generalizing found with
  | nil => exact (append_nil _).symm
  | cons part _ ih =>
    rw [gather, foldl_cons, ← gather, ih, filter_cons]
    show (if _ then _ else _) ++ _ = _
    cases part.hit.isNone && part.maybe.isEmpty with
    | true => rfl
    | false => exact append_assoc ..

/-! ## Parts in order -/

theorem Part.Recorded.mono {part : Part} {floor' : ℕ} (h : part.Recorded P floor)
    (hle : floor' ≤ floor) : part.Recorded P floor' where
  exact := { h.exact with
    floor_le := hle.trans h.exact.floor_le
    single := fun doc hd => (h.exact.single doc hd).imp_left hle.trans
    packed := fun list hl => (h.exact.packed list hl).imp fun _ hx =>
      ⟨hx.1, fun x hm => (hx.2 x hm).imp_left hle.trans⟩ }
  sorted := h.sorted
  within d hd := (h.within d hd).imp_left hle.trans

theorem AllRecorded.filter (q : Part → Bool) (h : AllRecorded P floor parts) {floor' : ℕ}
    (hle : floor' ≤ floor) : AllRecorded P floor' (parts.filter q) := by
  induction parts generalizing floor floor' with
  | nil => trivial
  | cons _ _ ih =>
    rw [filter_cons]
    split
    · exact ⟨h.1.mono hle, ih h.2 le_rfl⟩
    · exact ih h.2 ((hle.trans h.1.exact.floor_le).trans (Nat.le_succ _))

theorem Readable.allRecorded (hv : Readable P C fingerprint term segments)
    (h : List.Forall₂ (Reads P C fingerprint term) segments parts)
    (hfloor : ∀ s ∈ segments, floor ≤ s.info.first) : AllRecorded P floor parts := by
  induction h generalizing floor with
  | nil => trivial
  | @cons s part _ _ hread _ ih =>
    obtain ⟨_, hit, maybe⟩ := part
    obtain ⟨rfl, hhit, hmaybe⟩ := hread
    obtain ⟨hlt, hordered⟩ := pairwise_cons.mp hv.ordered
    obtain ⟨hrange, hranges⟩ := forall_mem_cons.mp hv.range
    obtain ⟨hsorted, hwithin⟩ := hv.records s (.head _) maybe hmaybe
    have hpart : Part.Recorded P s.info.first ⟨s.info.last, hit, maybe⟩ := by
      refine ⟨?_, hsorted, hwithin⟩
      cases hit with
      | none => exact ⟨hrange.1, hrange.2, rfl, nofun, nofun⟩
      | some hit => exact hv.hit s (.head _) hit hhit
    refine ⟨hpart.mono (hfloor s (.head _)), ih ⟨hordered, ?_, hranges, ?_⟩ hlt⟩
    · exact fun s hs => hv.hit s (.tail _ hs)
    · exact fun s hs => hv.records s (.tail _ hs)

theorem AllRecorded.sorted (hP : P.Contract remaining) (h : AllRecorded P floor parts) :
    (parts.flatMap (Part.candidates P)).Pairwise (· < ·)
      ∧ ∀ d ∈ parts.flatMap (Part.candidates P), floor ≤ d := by
  induction parts generalizing floor with
  | nil => exact ⟨.nil, nofun⟩
  | cons part _ ih =>
    obtain ⟨hpart, hrest⟩ := h
    obtain ⟨hsorted, hfloor⟩ := ih hrest
    have hwithin : ∀ d ∈ part.candidates P, floor ≤ d ∧ d ≤ part.last := fun d hd =>
      (Part.mem_candidates.mp hd).elim (fun hd => (hpart.exact.partOk hP).within d (by
        rwa [aheadHit_none])) (hpart.within d)
    rw [flatMap_cons]
    refine ⟨pairwise_append.mpr ⟨pairwise_dedup _, hsorted, fun d hd e he => ?_⟩, ?_⟩
    · exact ((hwithin d hd).2.trans_lt (Nat.lt_succ_self _)).trans_le (hfloor e he)
    · intro d hd
      rcases mem_append.mp hd with hd | hd
      · exact (hwithin d hd).1
      · exact (hpart.exact.floor_le.trans (Nat.le_succ _)).trans (hfloor d hd)

/-- Leaving out the parts that have nothing changes no document. -/
theorem mem_flatMap_filter {d : ℕ} :
    d ∈ parts.flatMap (Part.candidates P)
      ↔ d ∈ (parts.filter fun part => !(part.hit.isNone && part.maybe.isEmpty)).flatMap
          (Part.docs P)
        ∨ d ∈ (parts.filter fun part => !(part.hit.isNone && part.maybe.isEmpty)).flatMap
          Part.maybe := by
  simp only [mem_flatMap, mem_filter, Part.mem_candidates, ← exists_or]
  refine exists_congr fun part => ?_
  rw [← and_or_left, and_assoc]
  refine and_congr_right fun _ => (and_iff_right_of_imp fun hd => ?_).symm
  cases hhit : part.hit with
  | some _ => rfl
  | none =>
    have hd := hd.resolve_left (by simp [Part.docs, hhit])
    simpa using ne_nil_of_mem hd

/-! ## The two agree -/

/-- What is read is walked, and looked up. -/
theorem walk_spec (hP : P.Contract remaining) (hspent : P.Spent remaining)
    (hv : Readable P C fingerprint term segments)
    (h : List.Forall₂ (Reads P C fingerprint term) segments parts) :
    ∃ found, read P C fingerprint term segments = .ok found
      ∧ lookup P C fingerprint term segments = .ok ((found.walk P).map Prod.fst)
      ∧ ∀ d certainty, (d, certainty) ∈ found.walk P ↔ found.certainty P d = some certainty := by
  have hrec := hv.allRecorded h fun _ _ => Nat.zero_le _
  refine ⟨_, read_from_eq h hv.ordered (fun _ _ => Nat.zero_le _) _, ?_⟩
  set found := Found.gather _ parts
  have hparts : found.parts = _ := Found.gather_parts parts _
  rw [nil_append] at hparts
  let candidates : Candidates P := ⟨found.parts, hparts ▸ hrec.filter _ le_rfl⟩
  have hvalid := candidates.cursor_recorded hP
  have A := Postings.Cursor.advances hP hspent
  have hwalk : found.walk P = Seek.stream docLimit Postings.Cursor.next_geq candidates.cursor 0 :=
    Seek.drain_eq_stream (by decide) _
  have hmem : ∀ d certainty, (d, certainty) ∈ found.walk P
      ↔ found.certainty P d = some certainty := by
    intro d certainty
    rw [hwalk, A.mem_stream_iff hvalid ((Cursor.forward hP hspent).walks hvalid),
      candidates.mixedView_cursor]
    refine ⟨fun h => h.2.2, fun h => ⟨Nat.zero_le d, ?_, h⟩⟩
    refine ((Candidates.allRecordedOk hP candidates.ok).within ?_).2
    rw [aheadParts_none]
    exact mixed_ne_none.mp (ne_of_eq_of_ne h (Option.some_ne_none _))
  refine ⟨(lookup_from_eq h []).trans (congrArg Except.ok ?_), hmem⟩
  refine (hrec.sorted hP).1.eq_of_mem_iff ?_ fun d => ?_
  · rw [hwalk]
    exact pairwise_map.mpr (A.stream_sorted hvalid 0).1
  · rw [mem_flatMap_filter, ← hparts, ← mixed_ne_none, Option.ne_none_iff_exists', mem_map]
    exact ⟨fun ⟨c, h⟩ => ⟨(d, c), (hmem d c).mpr h, rfl⟩,
      fun ⟨_, h, hd⟩ => ⟨_, hd ▸ (hmem _ _).mp h⟩⟩

/-- **A lookup gives the documents of the walk.** It fails when the term cannot be read
for the walk; and the walk gives each document once, in order, certain when a dictionary
has it for the term, and not when it is only recorded. -/
theorem lookup_eq_walk (hP : P.Contract remaining) (hspent : P.Spent remaining)
    (hv : Readable P C fingerprint term segments) :
    (∀ docs, lookup P C fingerprint term segments = .ok docs
        ↔ ∃ found, read P C fingerprint term segments = .ok found
          ∧ (found.walk P).map Prod.fst = docs)
      ∧ ∀ found, read P C fingerprint term segments = .ok found → ∀ d certainty,
        (d, certainty) ∈ found.walk P ↔ found.certainty P d = some certainty := by
  refine ⟨fun docs => ⟨fun h => ?_, ?_⟩, fun found h => ?_⟩
  · obtain ⟨parts, hparts⟩ := exists_reads_of_lookup h
    obtain ⟨found, hread, hlookup, -⟩ := walk_spec hP hspent hv hparts
    exact ⟨found, hread, Except.ok.inj (hlookup.symm.trans h)⟩
  · rintro ⟨found, hread, rfl⟩
    obtain ⟨parts, hparts⟩ := exists_reads_of_read hread
    obtain ⟨found', hread', hlookup, -⟩ := walk_spec hP hspent hv hparts
    cases hread'.symm.trans hread
    exact hlookup
  · obtain ⟨parts, hparts⟩ := exists_reads_of_read h
    obtain ⟨found', hread', -, hmem⟩ := walk_spec hP hspent hv hparts
    cases hread'.symm.trans h
    exact hmem

/-- A segment over `10..15` with the document `12` recorded under the fingerprint `7`. -/
def recorded_twelve : Segment := .of_records [toLex (7, 2)]

/-- Where a document is only recorded, a lookup and a walk both give it. -/
theorem lookup_recorded_twelve :
    lookup Intpack.plain Segment.constant (fun _ => 7) [97] [recorded_twelve] = .ok [12] := by
  refine ((lookup_eq_walk Intpack.plain_contract Intpack.plain_spent ?_).1 [12]).mpr
    ⟨(read Intpack.plain Segment.constant (fun _ => 7) [97] [recorded_twelve]).toOption.get
      (by decide +kernel), by decide +kernel, by decide +kernel⟩
  have hrecords : recorded_twelve.fingerprint_docs (fun _ => 7) Segment.constant [97]
      = .ok [12] := by decide +kernel
  have hlookup : recorded_twelve.lookup Intpack.plain Segment.constant [97] = .ok none := by
    decide +kernel
  constructor
  · exact pairwise_singleton _ _
  · rintro s (_ | ⟨_, ⟨⟩⟩) _ h
    cases hlookup.symm.trans h
  · rintro s (_ | ⟨_, ⟨⟩⟩)
    decide
  · rintro s (_ | ⟨_, ⟨⟩⟩) _ h
    cases hrecords.symm.trans h
    decide

/-- One whose dictionary has it for `a`. -/
def listed_twelve : Segment := { Segment.of_records [] with
  source := [1, 2]
  info := { tokenizer_version := 1, first := 10, last := 15, terms := 1, pairs := 1 }
  blocks_at := (0, 2)
  lengths := fun section_ => if section_ = .blocks then 2 else 0
  sums := chunk_sums Segment.constant [1, 2]
  samples := [{ entry := [1, 97], start := 0, postings := 0 }]
  blocks := 1 }

/-- What a lookup gives does not tell how sure a document is. -/
theorem lookup_not_sure : ¬ ∃ sure : List ℕ → List (ℕ × Certainty), ∀ segments docs found,
    lookup Intpack.plain Segment.constant (fun _ => 7) [97] segments = .ok docs →
      read Intpack.plain Segment.constant (fun _ => 7) [97] segments = .ok found →
        sure docs = found.walk Intpack.plain := by
  rintro ⟨sure, h⟩
  have hwalk (segments : List Segment) {c : Certainty}
      (hdocs : lookup Intpack.plain Segment.constant (fun _ => 7) [97] segments = .ok [12])
      (hwalk : (read Intpack.plain Segment.constant (fun _ => 7) [97] segments).map
        (Found.walk Intpack.plain) = .ok [(12, c)]) : sure [12] = [(12, c)] := by
    cases hread : read Intpack.plain Segment.constant (fun _ => 7) [97] segments with
    | error e =>
      rw [hread] at hwalk
      cases hwalk
    | ok found =>
      rw [hread] at hwalk
      exact (h segments [12] found hdocs hread).trans (Except.ok.inj hwalk)
  have hyes := hwalk [listed_twelve] (c := .yes) (by decide +kernel) (by decide +kernel)
  have hmaybe := hwalk [recorded_twelve] (c := .maybe) (by decide +kernel) (by decide +kernel)
  cases hyes.symm.trans hmaybe

/-! ## What was written -/

/-- The documents recorded under a fingerprint are in order and in range. -/
theorem docs_of_spec {s : Segment} {gs : List (List Record)} (h : s.HoldsRecords C gs)
    (hle : s.info.first ≤ s.info.last) (fp : ℕ) :
    (s.docs_of fp gs.flatten).Pairwise (· < ·)
      ∧ ∀ d ∈ s.docs_of fp gs.flatten, s.info.first ≤ d ∧ d ≤ s.info.last := by
  refine ⟨pairwise_map.mpr ((h.written.sorted.filter _).imp_of_mem fun ha hb hab => ?_), ?_⟩
  · have ha := of_decide_eq_true (mem_filter.mp ha).2
    have hb := of_decide_eq_true (mem_filter.mp hb).2
    obtain hlt | ⟨-, hlt⟩ := Prod.Lex.lt_iff.mp hab
    · exact absurd (ha.trans hb.symm) hlt.ne
    · exact Nat.add_lt_add_left hlt _
  · intro d hd
    obtain ⟨r, hr, rfl⟩ := mem_map.mp hd
    have := (h.written.in_range r (mem_of_mem_filter hr)).2
    omega

/-- A segment answers with what was written of the term. -/
theorem exists_reads_of_holds (hP : P.Contract remaining) {s : Segment} {gs : List Group}
    {rs : List (List Record)} (h : s.Holds P C gs) (hr : s.HoldsRecords C rs)
    (fingerprint : Bytes → ℕ) (term : Bytes) :
    ∃ part, Reads P C fingerprint term s part ∧ part.docs P = docsOf gs.flatten term
      ∧ part.maybe = s.docs_of (fingerprint term) rs.flatten
      ∧ ∀ hit, part.hit = some hit → Part.Dictionary P s.info.first ⟨s.info.last, hit, []⟩ := by
  obtain ⟨hfound, hmiss⟩ := h.lookup_eq hP term
  have hrecords := hr.fingerprint_docs_eq fingerprint term
  by_cases hterm : ∀ p ∈ gs.flatten, p.1 ≠ term
  · exact ⟨⟨_, none, _⟩, ⟨rfl, hmiss hterm, hrecords⟩, (Merge.docsOf_eq_nil hterm).symm, rfl, nofun⟩
  · push Not at hterm
    obtain ⟨⟨_, docs⟩, hdocs, rfl⟩ := hterm
    obtain ⟨hit, hlookup, hread, hdict⟩ := hfound docs hdocs
    refine ⟨⟨_, some hit, _⟩, ⟨rfl, hlookup, hrecords⟩, ?_, rfl, by rintro _ ⟨⟩; exact hdict⟩
    rw [Merge.docsOf_of_mem h.written.sorted hdocs, ← hread]
    cases hit <;> rfl

/-- **A lookup finds what was written**: the documents that the dictionaries have for the term or
that are recorded under its fingerprint, each once and in order. -/
theorem lookup_written (hP : P.Contract remaining)
    (hordered : segments.Pairwise fun a b => a.info.last < b.info.first)
    (dictionary : Segment → List Group) (records : Segment → List (List Record))
    (h : ∀ s ∈ segments, s.info.first ≤ s.info.last ∧ s.Holds P C (dictionary s)
      ∧ s.HoldsRecords C (records s)) :
    ∃ docs, lookup P C fingerprint term segments = .ok docs ∧ docs.Pairwise (· < ·)
      ∧ ∀ d, d ∈ docs ↔ ∃ s ∈ segments, d ∈ docsOf (dictionary s).flatten term
        ∨ d ∈ s.docs_of (fingerprint term) (records s).flatten := by
  have : Nonempty Part := ⟨⟨0, none, []⟩⟩
  have hparts := fun s hs => exists_reads_of_holds hP (h s hs).2.1 (h s hs).2.2 fingerprint term
  choose! part hreads hdocs hmaybe hdict using hparts
  have hall : List.Forall₂ (Reads P C fingerprint term) segments (segments.map part) :=
    forall₂_map_right_iff.mpr (forall₂_same.mpr hreads)
  have hv : Readable P C fingerprint term segments := by
    refine ⟨hordered, fun s hs hit hhit => ?_, fun s hs => ?_, fun s hs docs hd => ?_⟩
    · exact hdict s hs hit (Except.ok.inj ((hreads s hs).hit.symm.trans hhit))
    · exact ⟨(h s hs).1, (h s hs).2.1.written.last_lt⟩
    · cases (hreads s hs).maybe.symm.trans hd
      exact hmaybe s hs ▸ docs_of_spec (h s hs).2.2 (h s hs).1 _
  refine ⟨_, lookup_from_eq hall [],
    ((hv.allRecorded hall fun _ _ => Nat.zero_le _).sorted hP).1, fun d => ?_⟩
  rw [nil_append, flatMap_map, mem_flatMap]
  refine exists_congr fun s => and_congr_right fun hs => ?_
  rw [Part.mem_candidates, hdocs s hs, hmaybe s hs]

theorem lookup_written_twelve :
    lookup Intpack.plain Segment.constant (fun _ => 7) [97] [recorded_twelve] ≠ .ok [] := by
  have hext {a b : FingerprintIndex}
      (h : (a.records, a.firsts, a.starts) = (b.records, b.firsts, b.starts)) : a = b := by
    cases a; cases b; cases h; rfl
  obtain ⟨docs, hdocs, -, hmem⟩ := lookup_written Intpack.plain_contract
    (pairwise_singleton _ recorded_twelve) (fun _ => []) (fun _ => [[toLex (7, 2)]]) (by
      rintro s (_ | ⟨_, ⟨⟩⟩)
      refine ⟨by decide, ⟨⟨by decide, nofun, nofun, nofun, nofun, .nil, nofun, by decide,
        by decide⟩, rfl, rfl, rfl, ⟨⟨0, rfl, Nat.zero_le _, rfl⟩⟩, ⟨⟨0, rfl, Nat.zero_le _, rfl⟩⟩,
        rfl, rfl⟩, ⟨⟨by decide, by decide, pairwise_singleton _ _, ?_, by decide⟩,
        .last (by decide) (by decide), Segment.of_records_has _, hext (by decide +kernel)⟩⟩
      rintro _ (_ | ⟨_, ⟨⟩⟩)
      decide)
  rw [hdocs]
  have h12 := (hmem 12).mpr ⟨_, .head _, .inr (by decide)⟩
  exact fun hnil => by cases Except.ok.inj hnil; cases h12

end Ferret
