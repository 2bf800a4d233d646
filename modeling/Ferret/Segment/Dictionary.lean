import Ferret.Segment.Checked
import Ferret.Segment.Write
import Mathlib.Order.Interval.Finset.Nat

/-!
# The dictionary, written and read

What `Write` lays out, `Read` takes apart: a term that shares a prefix with
the one before it, an entry, a block of entries, and the index of the blocks.
Each is proved against the closed form of what has been written. The block
`k` of a list of groups has its `place`, and the samples that are kept are the
places of every `SAMPLE`th block; a lookup finds the last block that begins
at or before its term from the last sample that does.
-/

namespace Ferret

open List Option

/-! ## Terms that share a prefix -/

theorem shared_cons (x y : UInt8) (a b : Bytes) :
    shared (x :: a) (y :: b) = if x = y then shared a b + 1 else 0 := by
  unfold shared
  rw [zip_cons_cons, takeWhile_cons]
  by_cases h : x = y <;> simp [h]

theorem shared_le (term previous : Bytes) :
    shared term previous ≤ term.length ∧ shared term previous ≤ previous.length := by
  induction term generalizing previous with
  | nil => simp [shared]
  | cons x a ih =>
    cases previous with
    | nil => simp [shared]
    | cons y b =>
      rw [shared_cons]
      have := ih b
      split <;> simp only [length_cons] <;> omega

/-- A term is what it shares with the one before it and the rest. -/
theorem take_shared_append (term previous : Bytes) :
    previous.take (shared term previous) ++ term.drop (shared term previous) = term := by
  induction term generalizing previous with
  | nil => simp [shared]
  | cons x a ih =>
    cases previous with
    | nil => simp [shared]
    | cons y b =>
      rw [shared_cons]
      by_cases h : x = y
      · rw [if_pos h, take_succ_cons, drop_succ_cons, cons_append, ih, h]
      · rw [if_neg h]
        rfl

/-- **What follows a shared prefix shows that the term sorts later.** -/
theorem increasing_shared {term previous : Bytes} (h : previous < term) :
    ((term.drop (shared term previous)).head?.any fun byte =>
      shared term previous = previous.length
        || (previous[shared term previous]?).any (· < byte)) = true := by
  induction term generalizing previous with
  | nil => exact absurd h (not_lt_nil _)
  | cons x a ih =>
    cases previous with
    | nil => simp [shared]
    | cons y b =>
      rw [shared_cons]
      rcases cons_lt_cons_iff.mp h with hlt | ⟨heq, hlt⟩
      · rw [if_neg (ne_of_gt hlt)]
        simp [hlt]
      · rw [if_pos heq.symm, drop_succ_cons, getElem?_cons_succ]
        simpa using ih hlt

theorem before_eq_true {a b : Bytes} (h : a < b) : before a b = true := by
  induction a generalizing b with
  | nil =>
    cases b with
    | nil => exact absurd h (not_lt_nil _)
    | cons y b => simp [before]
  | cons x a ih =>
    cases b with
    | nil => exact absurd h (not_lt_nil _)
    | cons y b =>
      rw [before]
      rcases cons_lt_cons_iff.mp h with hlt | ⟨heq, hlt⟩
      · rw [if_pos (ne_of_lt hlt)]
        exact decide_eq_true hlt
      · rw [if_neg (by simpa using heq)]
        exact ih hlt

/-! ## Entries -/

section Entries

variable {P : Intpack} {remaining : P.SortedCursor → List ℕ} {first last : ℕ}

variable {docs : List ℕ} {e : Entries} {previous : Option Bytes} {term Y : Bytes} {g : Group}

/-- The documents of an entry, relative to the segment's first. -/
theorem packable_relative (hlast : last < docLimit) (h : Pushable first last docs) :
    Intpack.Packable (docs.map (· - first)) where
  sorted := by
    rw [pairwise_map]
    refine h.sorted.imp_of_mem fun ha hb hab => ?_
    have := h.within _ ha
    have := h.within _ hb
    omega
  lt := by
    intro x hx
    obtain ⟨d, hd, rfl⟩ := List.mem_map.mp hx
    have := h.within d hd
    unfold docLimit at hlast
    omega

theorem length_le_span (h : Pushable first last docs) : docs.length ≤ last - first + 1 := by
  have hsub : docs.toFinset ⊆ Finset.Icc first last := fun d hd =>
    Finset.mem_Icc.mpr (h.within d (List.mem_toFinset.mp hd))
  have hcard := Finset.card_le_card hsub
  rw [toFinset_card_of_nodup (h.sorted.imp fun hab => ne_of_lt hab), Nat.card_Icc] at hcard
  omega

/-- Where the documents of an entry are, when the next list begins at
`postings`. -/
def location_of (P : Intpack) (first postings : ℕ) : List ℕ → Location
  | [doc] => .single doc
  | docs => .list postings (P.encode_sorted (docs.map (· - first))).length

/-- **Reading a block**: the entries that follow are those of some terms,
after the term before them. -/
structure Entries.At (P : Intpack) (e : Entries) (first last : ℕ) (previous : Option Bytes)
    (g : Group) : Prop where
  bytes : e.bytes = entries_bytes P first previous g
  seen : 0 < e.seen ↔ previous.isSome
  term : ∀ t ∈ previous.or (g.head?.map Prod.fst), e.term = t
  remaining : e.remaining = g.length
  postings : e.postings + (block_postings P first g).length = e.postings_end
  first_eq : e.first = first
  span_eq : e.span = last - first

/-- The term of the next entry. -/
theorem Entries.At.next_bytes_eq (h : e.At P first last previous ((term, docs) :: g))
    (hprev : ∀ t ∈ previous, t < term) (hshort : term.length < 2 ^ 64) :
    e.next_bytes = some (term, docs_bytes P first docs ++ entries_bytes P first (some term) g) := by
  unfold Entries.next_bytes
  have hbytes := h.bytes
  rw [entries_bytes] at hbytes
  cases previous with
  | none =>
    have hterm : e.term = term := h.term term rfl
    rw [if_neg (by simpa using h.seen), hterm, hbytes, term_bytes, nil_append]
  | some t =>
    have hterm : e.term = t := h.term t rfl
    have hle := shared_le term t
    have htail : ((term.drop (shared term t)).length) = term.length - shared term t :=
      length_drop
    rw [if_pos (h.seen.mpr rfl), hbytes, term_bytes]
    simp only [append_assoc]
    rw [take_put (by omega)]
    simp only [bind_eq_bind, bind_some]
    rw [take_put (by omega)]
    simp only [bind_some]
    rw [if_neg (by rw [length_append, htail]; omega),
      take_append_of_le_length htail.ge, take_of_length_le htail.le,
      drop_append_of_le_length htail.ge, drop_of_length_le htail.le, nil_append,
      hterm, if_pos (increasing_shared (hprev t rfl)), take_shared_append]

/-- Where the documents of an entry are. -/
theorem next_location_eq (hP : P.Contract remaining) (hlast : last < docLimit)
    (hfirst : e.first = first) (hspan : e.span = last - first) (hdocs : Pushable first last docs)
    (hend : e.postings + (list_bytes P first docs).length ≤ e.postings_end)
    (hlimit : e.postings_end < 2 ^ 64) (rest : Bytes) :
    ∃ tail, docs_bytes P first docs ++ rest = put docs.length ++ tail
      ∧ e.next_location P docs.length tail
        = some (location_of P first e.postings docs,
            e.postings + (list_bytes P first docs).length, rest) := by
  match docs, hdocs with
  | [], hdocs => exact absurd rfl hdocs.ne_nil
  | [doc], hdocs =>
    obtain ⟨hlow, _⟩ := hdocs.within doc (mem_singleton_self _)
    refine ⟨put (doc - first) ++ rest, by rw [docs_bytes, append_assoc]; rfl, ?_⟩
    unfold docLimit at hlast
    rw [Entries.next_location, if_pos length_singleton, take_put (by omega)]
    simp only [bind_eq_bind, bind_some, hfirst, hspan]
    rw [if_neg (by omega), location_of, Nat.add_sub_cancel' hlow]
    rfl
  | a :: b :: more, hdocs =>
    set docs := a :: b :: more with hd
    have hpack := packable_relative hlast hdocs
    set list := P.encode_sorted (docs.map (· - first)) with hlist
    have hbytes : list_bytes P first docs = list := rfl
    have haux : P.aux_len docs.length ≤ list.length := by
      have := hP.aux_len_le _ hpack
      rwa [length_map] at this
    have hne : list.length ≠ 0 := by
      intro hz
      exact hP.encode_ne_nil _ hpack (by simp [hd]) (length_eq_zero_iff.mp hz)
    rw [hbytes] at hend ⊢
    refine ⟨put list.length ++ rest, ?_, ?_⟩
    · rw [show docs_bytes P first docs = put docs.length ++ put list.length from rfl, append_assoc]
    · have htwo : docs.length ≠ 1 := by simp [hd]
      rw [Entries.next_location, if_neg htwo, take_put (by omega)]
      simp only [bind_eq_bind, bind_some]
      rw [checked_add, if_pos (by omega)]
      simp only [bind_some]
      rw [if_neg (by omega)]
      rfl

/-- **One entry is read back as it was written**, and the next one follows. -/
theorem Entries.At.entry_eq (hP : P.Contract remaining)
    (h : e.At P first last previous ((term, docs) :: g)) (hlast : last < docLimit)
    (hdocs : Pushable first last docs) (hprev : ∀ t ∈ previous, t < term)
    (hshort : term.length < 2 ^ 64) (hlimit : e.postings_end < 2 ^ 64) :
    ∃ e', e.entry P
        = some ({ df := docs.length, location := location_of P first e.postings docs }, e')
      ∧ e'.At P first last (some term) g ∧ e'.term = term
      ∧ e'.postings = e.postings + (list_bytes P first docs).length
      ∧ e'.postings_end = e.postings_end := by
  have hpost : e.postings + ((list_bytes P first docs).length + (block_postings P first g).length)
      = e.postings_end := by
    rw [← h.postings, block_postings, block_postings, flatMap_cons, length_append]
  obtain ⟨_, htail, hloc⟩ := next_location_eq hP hlast h.first_eq h.span_eq hdocs
    (by omega) hlimit (entries_bytes P first (some term) g)
  have hlen := length_le_span hdocs
  have hpos : docs.length ≠ 0 := fun hz => hdocs.ne_nil (length_eq_zero_iff.mp hz)
  have hrem : e.remaining - 1 = g.length := by
    rw [h.remaining, length_cons, Nat.add_sub_cancel]
  refine ⟨{ e with
      bytes := entries_bytes P first (some term) g
      term := term
      remaining := e.remaining - 1
      seen := e.seen + 1
      postings := e.postings + (list_bytes P first docs).length }, ?_,
    ⟨rfl, by simp, ?_, hrem, ?_, h.first_eq, h.span_eq⟩, rfl, rfl, rfl⟩
  · unfold Entries.entry
    rw [h.next_bytes_eq hprev hshort]
    simp only [bind_eq_bind, bind_some]
    unfold docLimit at hlast
    rw [htail, take_put (by omega)]
    simp only [bind_some]
    rw [if_neg (by rw [h.span_eq]; omega), hloc]
    simp only [bind_some]
    rw [if_neg]
    rintro ⟨hz, hbad⟩
    -- after the last entry both the block and its postings are used up
    rw [hrem, length_eq_zero_iff] at hz
    subst hz
    rcases hbad with hbad | hbad
    · exact hbad (by simpa [block_postings] using hpost)
    · exact hbad rfl
  · intro t ht
    simpa using ht
  · show e.postings + _ + _ = e.postings_end
    rw [add_assoc]
    exact hpost

/-- **An entry and the documents it stands for**, in a segment whose postings
are `Y`. -/
structure Points (P : Intpack) (first : ℕ) (Y : Bytes) (found : TermEntry) (docs : List ℕ) :
    Prop where
  df : found.df = docs.length
  single : ∀ doc, found.location = .single doc → docs = [doc]
  list : ∀ offset len, found.location = .list offset len →
    offset + len ≤ Y.length ∧ slice Y offset len = P.encode_sorted (docs.map (· - first))

/-- **Reading a block of a segment**: its terms are in order, and its postings
are where the entries say. -/
structure Entries.In (P : Intpack) (e : Entries) (first last : ℕ) (Y : Bytes)
    (previous : Option Bytes) (g : Group) : Prop where
  reading : e.At P first last previous g
  pushable : ∀ p ∈ g, Pushable first last p.2
  short : ∀ p ∈ g, p.1.length < 2 ^ 64
  sorted : g.Pairwise fun p q => p.1 < q.1
  after : ∀ t ∈ previous, ∀ p ∈ g, t < p.1
  limit : e.postings_end ≤ Y.length
  postings : slice Y e.postings (block_postings P first g).length = block_postings P first g

theorem Points.of_slice {postings : ℕ}
    (hin : postings + (list_bytes P first docs).length ≤ Y.length)
    (hslice : slice Y postings (list_bytes P first docs).length = list_bytes P first docs) :
    Points P first Y { df := docs.length, location := location_of P first postings docs } docs := by
  match docs with
  | [] =>
    refine ⟨rfl, nofun, fun offset len h => ?_⟩
    cases h
    exact ⟨hin, hslice⟩
  | [doc] =>
    refine ⟨rfl, fun doc h => by cases h; rfl, nofun⟩
  | a :: b :: rest =>
    refine ⟨rfl, nofun, fun offset len h => ?_⟩
    cases h
    exact ⟨hin, hslice⟩

/-- **One step through a block.** -/
theorem Entries.In.next (hP : P.Contract remaining) (hlast : last < docLimit)
    (hY : Y.length < 2 ^ 64) (h : e.In P first last Y previous ((term, docs) :: g)) :
    ∃ found e', e.next_entry P = .ok (some (term, found), e') ∧ Points P first Y found docs
      ∧ e'.In P first last Y (some term) g := by
  obtain ⟨hdocs, hpush⟩ := forall_mem_cons.mp h.pushable
  obtain ⟨hshort, hshorts⟩ := forall_mem_cons.mp h.short
  obtain ⟨hlt, hsorted⟩ := pairwise_cons.mp h.sorted
  obtain ⟨e', hentry, hat, hterm, hpost, hend⟩ := h.reading.entry_eq hP hlast hdocs
    (fun t ht => h.after t ht (term, docs) (.head _)) hshort
    (lt_of_le_of_lt h.limit hY)
  have hslice := h.postings
  have hsplit : block_postings P first ((term, docs) :: g)
      = list_bytes P first docs ++ block_postings P first g := by
    rw [block_postings, block_postings, flatMap_cons]
  have hin := h.reading.postings
  have hlimit := h.limit
  rw [hsplit, length_append] at hslice hin
  -- the postings of the block are those of this entry and then the others
  have hfst : slice Y e.postings (list_bytes P first docs).length = list_bytes P first docs := by
    have := congrArg (fun z => slice z 0 (list_bytes P first docs).length) hslice
    rwa [slice_slice (by omega), add_zero, slice_append_left (by omega), slice, slice,
      drop_zero, take_length] at this
  have hsnd : slice Y e'.postings (block_postings P first g).length = block_postings P first g := by
    have := congrArg (fun z => slice z (list_bytes P first docs).length
      (block_postings P first g).length) hslice
    rw [slice_slice (by omega), slice_append le_rfl, Nat.sub_self] at this
    rw [hpost, this, slice, drop_zero, take_length]
  refine ⟨_, e', ?_, Points.of_slice (by omega) hfst,
    ⟨hat, hpush, hshorts, hsorted, fun t ht p hp => ?_, hend ▸ h.limit, hsnd⟩⟩
  · unfold Entries.next_entry
    have hne : e.remaining ≠ 0 := by
      rw [h.reading.remaining]
      exact Nat.succ_ne_zero _
    rw [if_neg hne, hentry]
    simp only [hterm]
  · cases ht
    exact hlt p hp

/-- **A search through a block finds a term that is there**, and no other. -/
theorem Entries.In.find_eq (hP : P.Contract remaining) (hlast : last < docLimit)
    (hY : Y.length < 2 ^ 64) (t : Bytes)
    (h : e.In P first last Y previous g) (fuel : ℕ) (hfuel : g.length < fuel) :
    (∀ docs, (t, docs) ∈ g → ∃ found, e.find P t fuel = .ok (some found)
        ∧ Points P first Y found docs)
      ∧ ((∀ p ∈ g, p.1 ≠ t) → e.find P t fuel = .ok none) := by
  induction g generalizing e previous fuel with
  | nil =>
    refine ⟨fun docs hmem => (by cases hmem), fun _ => ?_⟩
    cases fuel with
    | zero => rfl
    | succ fuel =>
      have hzero : e.remaining = 0 := h.reading.remaining
      rw [Entries.find, Entries.next_entry, if_pos hzero]
      rfl
  | cons p g ih =>
    obtain ⟨term, docs⟩ := p
    obtain ⟨found, e', hnext, hpoints, hin⟩ := h.next hP hlast hY
    obtain ⟨hlt, -⟩ := pairwise_cons.mp h.sorted
    cases fuel with
    | zero => cases hfuel
    | succ fuel =>
      obtain ⟨ih₁, ih₂⟩ := ih hin fuel (by simpa using hfuel)
      have hstep : e.find P t (fuel + 1)
          = if term < t then e'.find P t fuel else if term = t then .ok (some found) else .ok none := by
        rw [Entries.find, hnext]
        rfl
      rw [hstep]
      refine ⟨fun docs' hmem => ?_, fun hnone => ?_⟩
      · rcases mem_cons.mp hmem with heq | hmem
        · cases heq
          rw [if_neg (lt_irrefl _), if_pos rfl]
          exact ⟨found, rfl, hpoints⟩
        · rw [if_pos (hlt _ hmem)]
          exact ih₁ docs' hmem
      · obtain ⟨hne, hrest⟩ := forall_mem_cons.mp hnone
        by_cases hless : term < t
        · rw [if_pos hless]
          exact ih₂ hrest
        · rw [if_neg hless, if_neg hne]

end Entries

end Ferret
