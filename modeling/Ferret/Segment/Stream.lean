import Ferret.Segment.BlockIndex

/-!
# Lookups and streams

A segment holds a written dictionary when its sections are those of the
dictionary and its samples are places of it; `Segment.Holds` says so. Of such
a segment a lookup finds exactly the terms of the dictionary, and a stream
from any block on yields exactly the terms of that block and the ones after
it, each with its documents.
-/

namespace Ferret

open List

/-- The documents of a hit. -/
def Hit.docs (P : Intpack) : Hit → List ℕ
  | .single doc => [doc]
  | .postings list => list.decode P

/-- **A stream yields some terms with their documents, and then ends.** Each
list is read through the stream; reading it from the segment gives the same
documents. -/
inductive Terms.Yields (P : Intpack) (C : Checksum) (s : Segment) :
    Terms → List (Bytes × List ℕ) → Prop
  | done {t t' : Terms} (next : t.next_term P C s = .ok (none, t')) : Yields P C s t []
  | more {t t' t'' : Terms} {term : Bytes} {found : TermEntry} {hit direct : Hit}
      {rest : List (Bytes × List ℕ)}
      (next : t.next_term P C s = .ok (some (term, found), t'))
      (read : t'.read C s found = .ok (hit, t''))
      (again : s.read C found = .ok direct)
      (same : direct.docs P = hit.docs P)
      (df : found.df = (hit.docs P).length)
      (yields : Yields P C s t'' rest) :
      Yields P C s t ((term, hit.docs P) :: rest)

namespace Segment

/-- **A segment that holds a dictionary.** -/
structure Holds (P : Intpack) (C : Checksum) (s : Segment) (gs : List Group) : Prop where
  written : Written P s.info.first s.info.last gs
  terms : s.info.terms = gs.flatten.length
  blocks : s.blocks = gs.length
  samples : s.samples = (List.range ((gs.length + (SAMPLE - 1)) / SAMPLE)).map
    fun i => place P s.info.first gs (i * SAMPLE)
  has_blocks : s.Has C .blocks (gs.flatMap (block_bytes P s.info.first))
  has_postings : s.Has C .postings (gs.flatMap (block_postings P s.info.first))
  blocks_at : s.blocks_at.2 = (gs.flatMap (block_bytes P s.info.first)).length
  postings_at : s.postings_at.2 = (gs.flatMap (block_postings P s.info.first)).length

variable {P : Intpack} {remaining : P.SortedCursor → List ℕ} {C : Checksum} {s : Segment}
  {gs : List Group}

/-! ## Lists -/

variable {docs : List ℕ} {t : Terms} {k : ℕ} {g : Group} {p : Bytes × List ℕ}

theorem first_le_last {first last : ℕ} (hdocs : Pushable first last docs) : first ≤ last := by
  obtain ⟨d, hd⟩ := exists_mem_of_ne_nil _ hdocs.ne_nil
  exact (hdocs.within d hd).1.trans (hdocs.within d hd).2

/-- A list that was cut out of the postings decodes to its documents. -/
theorem docs_of_packed (hP : P.Contract remaining) {first last : ℕ} (hlast : last < docLimit)
    (hdocs : Pushable first last docs) {list : PostingList}
    (hfirst : list.first = first) (hdf : list.df = docs.length)
    (hbytes : ∃ tail, list.bytes.drop list.start = P.encode_sorted (docs.map (· - first)) ++ tail) :
    (Hit.postings list).docs P = docs
      ∧ Part.Dictionary P first { last := last, hit := some (.postings list), maybe := [] } := by
  have hwithin : ∀ x ∈ docs.map (· - first), first ≤ x + list.first ∧ x + list.first ≤ last := by
    intro x hx
    obtain ⟨d, hd, rfl⟩ := mem_map.mp hx
    have := hdocs.within d hd
    omega
  have hpacked : Postings.Packed P list (docs.map (· - first)) :=
    ⟨packable_relative hlast hdocs, hbytes, by rw [hdf, length_map],
      fun x hx => (hwithin x hx).2.trans_lt hlast⟩
  refine ⟨?_, first_le_last hdocs, hlast, rfl, nofun, fun _ h => ?_⟩
  · show list.decode P = docs
    rw [hpacked.decode_eq hP, map_map, hfirst]
    conv_rhs => rw [← map_id docs]
    refine map_congr_left fun d hd => ?_
    have := hdocs.within d hd
    show d - first + first = d
    omega
  · cases h
    exact ⟨_, hpacked, hwithin⟩

/-- **Reading an entry gives the documents it stands for.** -/
theorem Holds.read_eq (hP : P.Contract remaining) (h : s.Holds P C gs) {found : TermEntry}
    (hdocs : Pushable s.info.first s.info.last docs)
    (hpoints : Points P s.info.first (gs.flatMap (block_postings P s.info.first)) found docs) :
    ∃ hit, s.read C found = .ok hit ∧ hit.docs P = docs ∧ Part.Dictionary P s.info.first
      { last := s.info.last, hit := some hit, maybe := [] } := by
  cases hloc : found.location with
  | single doc =>
    obtain rfl := hpoints.single doc hloc
    refine ⟨.single doc, by rw [Segment.read, hloc], rfl, first_le_last hdocs, h.written.last_lt,
      rfl, fun _ h => ?_, nofun⟩
    cases h
    exact hdocs.within doc (.head _)
  | list offset len =>
    obtain ⟨hin, hslice⟩ := hpoints.list offset len hloc
    have hhas := h.has_postings
    set Y := gs.flatMap (block_postings P s.info.first)
    obtain ⟨base, n, hread, h₁, _, _⟩ := read_checked_ok hhas (Nat.le_add_right offset len) hin
    refine ⟨.postings ⟨s.info.first, found.df, slice Y base n, offset - base⟩, ?_, ?_⟩
    · rw [Segment.read, hloc]
      simp only [hread]
      rfl
    · refine docs_of_packed hP h.written.last_lt hdocs rfl hpoints.df
        ⟨((slice Y base n).drop (offset - base)).drop len, ?_⟩
      have hcut : slice (slice Y base n) (offset - base) len = slice Y offset len := by
        rw [slice_slice (by omega), Nat.add_sub_cancel' h₁]
      rw [← hslice, ← hcut]
      exact (take_append_drop len _).symm

/-- The same through a stream, whose window stays on the postings. -/
theorem Holds.stream_read_eq (hP : P.Contract remaining) (h : s.Holds P C gs) {found : TermEntry}
    (hdocs : Pushable s.info.first s.info.last docs)
    (hpoints : Points P s.info.first (gs.flatMap (block_postings P s.info.first)) found docs)
    (hw : Window.Of t.window (gs.flatMap (block_postings P s.info.first))) :
    ∃ hit w, t.read C s found = .ok (hit, { t with window := w }) ∧ hit.docs P = docs
      ∧ Window.Of w (gs.flatMap (block_postings P s.info.first)) := by
  cases hloc : found.location with
  | single doc =>
    exact ⟨.single doc, t.window, by rw [Terms.read, hloc], (hpoints.single doc hloc).symm, hw⟩
  | list offset len =>
    obtain ⟨hin, hslice⟩ := hpoints.list offset len hloc
    obtain ⟨w, hread, hw'⟩ := read_through_ok h.has_postings (Nat.le_add_right offset len) hin hw
    rw [Nat.add_sub_cancel_left, hslice] at hread
    refine ⟨.postings ⟨s.info.first, found.df, P.encode_sorted (docs.map (· - s.info.first)), 0⟩, w,
      ?_, ?_, hw'⟩
    · rw [Terms.read, hloc]
      simp only [hread]
      rfl
    · exact (docs_of_packed hP h.written.last_lt hdocs rfl hpoints.df
        ⟨[], (append_nil _).symm⟩).1

/-! ## Blocks -/

/-- All blocks but the last are full. -/
theorem Holds.length_group (h : s.Holds P C gs) (hk : gs[k]? = some g) :
    (if k + 1 < gs.length then BLOCK else s.info.terms - k * BLOCK) = g.length := by
  obtain ⟨_, _⟩ := List.getElem?_eq_some_iff.mp hk
  split
  · rename_i hmore
    refine (h.written.full g ?_).symm
    refine mem_of_getElem? (i := k) ?_
    rw [getElem?_dropLast, if_pos (by omega), hk]
  · rename_i hlast
    have hsplit : gs = gs.take k ++ [g] := by
      rw [← take_succ_of hk, take_of_length_le (by omega)]
    have hfull : ∀ x ∈ gs.take k, x.length = BLOCK := by
      intro x hx
      refine h.written.full x ?_
      rw [hsplit, dropLast_concat]
      exact hx
    have hlen : (gs.take k).flatten.length = k * BLOCK := by
      rw [length_flatten, map_congr_left (g := fun _ => BLOCK) hfull]
      simp
      left
      omega
    rw [h.terms]
    conv_lhs => rw [hsplit, flatten_concat, length_append, hlen]
    omega

/-- The bytes of a block, and its postings. -/
theorem slice_block (P : Intpack) (first : ℕ) (hk : gs[k]? = some g) :
    slice (gs.flatMap (block_bytes P first)) (place P first gs k).start
        ((place P first gs (k + 1)).start - (place P first gs k).start) = block_bytes P first g
      ∧ slice (gs.flatMap (block_postings P first)) (place P first gs k).postings
        (block_postings P first g).length = block_postings P first g := by
  have hcut : gs = gs.take k ++ g :: gs.drop (k + 1) := by
    rw [← drop_of hk, take_append_drop]
  have hsub : (place P first gs (k + 1)).start - (place P first gs k).start
      = (block_bytes P first g).length := by
    rw [place_start_succ P first hk, reach_succ hk, Nat.add_sub_cancel_left]
  rw [hsub]
  constructor
  all_goals
    conv_lhs => rw [hcut, flatMap_append, flatMap_cons]
    exact slice_mid (by rw [← hcut]; rfl) rfl

/-- A group of a written dictionary, as a block's entries have to be. -/
theorem entries_in {first last : ℕ} (h : Written P first last gs)
    (hk : gs[k]? = some g) {count span stop : ℕ} (hcount : count = g.length)
    (hspan : span = last - first) (hstop : stop = (place P first gs (k + 1)).postings) :
    Entries.In P {
      bytes := block_bytes P first g
      term := first_of g
      remaining := count
      seen := 0
      postings := (place P first gs k).postings
      postings_end := stop
      first := first
      span := span } first last (gs.flatMap (block_postings P first)) none g := by
  have hmem := mem_of_getElem? hk
  have hflat : ∀ p ∈ g, p ∈ gs.flatten := fun p hp => mem_flatten.mpr ⟨g, hmem, hp⟩
  refine ⟨⟨rfl, by simp, fun t ht => ?_, hcount, ?_, rfl, hspan⟩, fun p hp => h.pushable p (hflat p hp),
    fun p hp => h.short p (hflat p hp), (pairwise_flatten.mp h.sorted).1 g hmem,
    nofun, ?_, (slice_block P first hk).2⟩
  · match g, h.ne_nil g hmem with
    | p :: g, _ =>
      cases ht
      rfl
  · rw [hstop, place_postings_succ P first hk, reach_succ hk]
  · rw [hstop]
    exact (place_le P first gs (k + 1)).2

/-- **Block `k` read back**: its entries, and where the next one is. A stream's
window stays on the blocks. -/
theorem Holds.block_eq (h : s.Holds P C gs) (hk : gs[k]? = some g) (window : Option Window)
    (hw : ∀ w ∈ window, Window.Of w (gs.flatMap (block_bytes P s.info.first))) :
    ∃ e window', s.block C k (place P s.info.first gs k) window
        = .ok (e, (if k + 1 < gs.length then some (place P s.info.first gs (k + 1)) else none),
            window')
      ∧ e.In P s.info.first s.info.last (gs.flatMap (block_postings P s.info.first)) none g
      ∧ window'.isSome = window.isSome
      ∧ ∀ w ∈ window', Window.Of w (gs.flatMap (block_bytes P s.info.first)) := by
  have hlt : k < gs.length := (List.getElem?_eq_some_iff.mp hk).1
  have hlen := h.length_group hk
  have hnext : s.next_block k (place P s.info.first gs k)
      = .ok (if k + 1 < gs.length then some (place P s.info.first gs (k + 1)) else none) := by
    rw [next_block, h.blocks]
    split
    · rename_i hmore
      rw [h.written.next_place_place hmore]
      rfl
    · rfl
  set next := if k + 1 < gs.length then some (place P s.info.first gs (k + 1)) else none with hn
  -- past the last block lie the ends of the sections
  have hstop : (next.map Place.start).getD s.blocks_at.2 = (place P s.info.first gs (k + 1)).start
      ∧ (next.map Place.postings).getD s.postings_at.2
        = (place P s.info.first gs (k + 1)).postings
      ∧ (if next.isSome then BLOCK else s.info.terms - k * BLOCK) = g.length := by
    rw [← hlen, hn]
    split
    · exact ⟨rfl, rfl, rfl⟩
    · have hall : gs.take (k + 1) = gs := take_of_length_le (by omega)
      refine ⟨?_, ?_, rfl⟩
      · show s.blocks_at.2 = ((gs.take (k + 1)).flatMap _).length
        rw [hall, h.blocks_at]
      · show s.postings_at.2 = ((gs.take (k + 1)).flatMap _).length
        rw [hall, h.postings_at]
  obtain ⟨hstart, hpost, hcount⟩ := hstop
  have hle : (place P s.info.first gs k).start ≤ (place P s.info.first gs (k + 1)).start := by
    rw [place_start_succ P _ hk]
    exact le_self_add
  have hin := (place_le P s.info.first gs (k + 1)).1
  have hbytes := (slice_block P s.info.first hk).1
  have hfirst := h.written.first_term_place hk
  have hread : ∃ window', s.read_block C (place P s.info.first gs k).start
      (place P s.info.first gs (k + 1)).start window = .ok (block_bytes P s.info.first g, window')
      ∧ window'.isSome = window.isSome
      ∧ ∀ w ∈ window', Window.Of w (gs.flatMap (block_bytes P s.info.first)) := by
    cases window with
    | none =>
      obtain ⟨base, n, hread, h₁, _, _⟩ := read_checked_ok h.has_blocks hle hin
      have hcut : slice (slice (gs.flatMap (block_bytes P s.info.first)) base n)
          ((place P s.info.first gs k).start - base)
          ((place P s.info.first gs (k + 1)).start - (place P s.info.first gs k).start)
          = block_bytes P s.info.first g := by
        rw [slice_slice (by omega), Nat.add_sub_cancel' h₁, hbytes]
      refine ⟨none, ?_, rfl, nofun⟩
      simp only [read_block, bind, Except.bind, hread, hcut]
    | some w =>
      obtain ⟨w', hread, hw'⟩ := read_through_ok h.has_blocks hle hin (hw w rfl)
      rw [hbytes] at hread
      refine ⟨some w', ?_, rfl, fun x hx => ?_⟩
      · simp only [read_block, bind, Except.bind, hread]
      · cases hx
        exact hw'
  obtain ⟨window', hread, hsome, hwin⟩ := hread
  refine ⟨_, window', ?_, entries_in h.written hk hcount rfl hpost, hsome, hwin⟩
  unfold Segment.block
  simp only [bind, Except.bind, hnext, hstart, hread, hfirst]

/-! ## Lookups -/

/-- A term at or after the first of block `k` and before that of the next is
in block `k` or nowhere. -/
theorem Holds.mem_located (h : s.Holds P C gs) (hk : gs[k]? = some g)
    {t : Bytes} (hle : first_of g ≤ t) (hlt : ∀ g', gs[k + 1]? = some g' → t < first_of g')
    (hp : p ∈ gs.flatten) :
    (t ≤ p.1 → p ∈ (gs.drop k).flatten) ∧ (p.1 = t → p ∈ g) := by
  obtain ⟨g', hg', hpg⟩ := mem_flatten.mp hp
  obtain ⟨j, hj⟩ := mem_iff_getElem?.mp hg'
  obtain ⟨d, hd⟩ := h.written.first_mem (mem_of_getElem? hk)
  have hlow : t ≤ p.1 → k ≤ j := by
    intro hpt
    by_contra hcon
    have := h.written.first_lt hj hk (not_le.mp hcon) hpg hd
    exact absurd (lt_of_lt_of_le this (hle.trans hpt)) (lt_irrefl _)
  constructor
  · intro hpt
    have hkj := hlow hpt
    refine mem_flatten.mpr ⟨g', mem_iff_getElem?.mpr ⟨j - k, ?_⟩, hpg⟩
    rw [getElem?_drop, Nat.add_sub_cancel' hkj, hj]
  · intro hpt
    rcases lt_or_ge k j with hkj | hjk
    · -- the next block begins at or before the term's
      exfalso
      have hj' : j < gs.length := (List.getElem?_eq_some_iff.mp hj).1
      obtain ⟨g₁, hg₁, hmem₁⟩ := exists_group gs (k := k + 1) (by omega)
      obtain ⟨_, hd₁⟩ := h.written.first_mem hmem₁
      have h₁ := hlt g₁ hg₁
      rcases lt_or_ge (k + 1) j with hlt' | _
      · have := h.written.first_lt hg₁ hj hlt' hd₁ hpg
        exact absurd (h₁.trans this) (by rw [hpt]; exact lt_irrefl _)
      · obtain rfl : k + 1 = j := by omega
        obtain rfl : g₁ = g' := Option.some.inj (hg₁.symm.trans hj)
        have hfst : first_of g₁ ≤ p.1 := by
          match g₁, hpg with
          | q :: rest, hpg =>
            rcases mem_cons.mp hpg with rfl | hmem
            · exact le_rfl
            · have hsorted := (pairwise_flatten.mp h.written.sorted).1 _ hmem₁
              exact ((pairwise_cons.mp hsorted).1 p hmem).le
        exact absurd (lt_of_lt_of_le h₁ hfst) (by rw [hpt]; exact lt_irrefl _)
    · obtain rfl : j = k := le_antisymm hjk (hlow hpt.ge)
      obtain rfl : g = g' := Option.some.inj (hk.symm.trans hj)
      exact hpg

/-- **A lookup finds exactly the terms of the dictionary.** -/
theorem Holds.entry_eq (hP : P.Contract remaining) (h : s.Holds P C gs) (t : Bytes) :
    (∀ docs, (t, docs) ∈ gs.flatten → ∃ found, s.entry P C t = .ok (some found)
        ∧ Points P s.info.first (gs.flatMap (block_postings P s.info.first)) found docs)
      ∧ ((∀ p ∈ gs.flatten, p.1 ≠ t) → s.entry P C t = .ok none) := by
  unfold Segment.entry
  rcases h.written.locate_eq h.samples h.blocks t with ⟨hnone, hlow⟩ | ⟨k, hsome, hk, hle, hlt⟩
  · rw [hnone]
    refine ⟨fun docs hmem => ?_, fun _ => rfl⟩
    exfalso
    -- the term would sort before the first one
    obtain ⟨g, hg, hmem⟩ := mem_flatten.mp hmem
    have hpos : 0 < gs.length := length_pos_of_mem hg
    obtain ⟨g₀, hg₀, hmem₀⟩ := exists_group gs hpos
    obtain ⟨_, hd₀⟩ := h.written.first_mem hmem₀
    have h₀ := hlow g₀ hg₀
    have hin : ∀ q ∈ gs.flatten, first_of g₀ ≤ q.1 := by
      intro q hq
      match gs, hg₀, h.written.sorted with
      | (p₀ :: g₀') :: rest, hg₀, hsorted =>
        cases hg₀
        rw [flatten_cons, cons_append] at hq hsorted
        rcases mem_cons.mp hq with rfl | hq
        · exact le_rfl
        · exact ((pairwise_cons.mp hsorted).1 q hq).le
      | [] :: rest, hg₀, _ =>
        cases hg₀
        cases hd₀
    exact absurd (lt_of_lt_of_le h₀ (hin (t, docs) (mem_flatten.mpr ⟨g, hg, hmem⟩)))
      (lt_irrefl _)
  · rw [hsome]
    obtain ⟨g, hg, hmem⟩ := exists_group gs hk
    obtain ⟨e, _, hblock, hin, -, -⟩ := h.block_eq hg none nofun
    obtain ⟨hfind, hmiss⟩ := hin.find_eq hP h.written.last_lt h.written.postings_short t
      (e.remaining + 1) (by rw [hin.reading.remaining]; omega)
    simp only [bind, Except.bind, hblock]
    refine ⟨fun docs hdocs => ?_, fun hnone => ?_⟩
    · exact hfind docs ((h.mem_located hg (hle g hg) hlt hdocs).2 rfl)
    · exact hmiss fun p hp => hnone p (mem_flatten.mpr ⟨g, hmem, hp⟩)

/-- **A lookup returns the documents of a term of the dictionary**, and none
of another. -/
theorem Holds.lookup_eq (hP : P.Contract remaining) (h : s.Holds P C gs) (t : Bytes) :
    (∀ docs, (t, docs) ∈ gs.flatten → ∃ hit, s.lookup P C t = .ok (some hit) ∧ hit.docs P = docs
        ∧ Part.Dictionary P s.info.first { last := s.info.last, hit := some hit, maybe := [] })
      ∧ ((∀ p ∈ gs.flatten, p.1 ≠ t) → s.lookup P C t = .ok none) := by
  obtain ⟨hfound, hmiss⟩ := h.entry_eq hP t
  unfold Segment.lookup
  refine ⟨fun docs hmem => ?_, fun hnone => ?_⟩
  · obtain ⟨_, hentry, hpoints⟩ := hfound docs hmem
    obtain ⟨hit, hread, hdocs⟩ := h.read_eq hP (h.written.pushable _ hmem) hpoints
    refine ⟨hit, ?_, hdocs⟩
    simp only [bind, Except.bind, hentry, hread]
    rfl
  · simp only [bind, Except.bind, hmiss hnone]

/-! ## Streams -/

/-- **A stream in the middle of a dictionary**: the terms of `g` are left of
its block, and block `k` comes next. -/
structure Flows (P : Intpack) (s : Segment) (gs : List Group) (t : Terms) (k : ℕ) (g : Group) :
    Prop where
  window : Window.Of t.window (gs.flatMap (block_postings P s.info.first))
  blocks : Window.Of t.blocks (gs.flatMap (block_bytes P s.info.first))
  next : t.next = if k < gs.length then some (k, place P s.info.first gs k) else none
  entries : (t.entries = none ∧ g = []) ∨ ∃ e previous, t.entries = some e
    ∧ e.In P s.info.first s.info.last (gs.flatMap (block_postings P s.info.first)) previous g

/-- A term of the current block. -/
theorem Flows.advance_more (hP : P.Contract remaining) (h : s.Holds P C gs)
    (hf : Flows P s gs t k (p :: g)) (fuel : ℕ) :
    ∃ found t', t.advance P C s (fuel + 1) = .ok (some (p.1, found), t')
      ∧ Points P s.info.first (gs.flatMap (block_postings P s.info.first)) found p.2
      ∧ Flows P s gs t' k g := by
  obtain ⟨-, hg⟩ | ⟨e, _, he, hin⟩ := hf.entries
  · cases hg
  · obtain ⟨found, e', hnext, hpoints, hin'⟩ := hin.next hP h.written.last_lt
      h.written.postings_short
    have hrem : 0 < e.remaining := by
      rw [hin.reading.remaining]
      exact Nat.succ_pos _
    refine ⟨found, { t with entries := some e' }, ?_, hpoints, hf.window, hf.blocks, hf.next,
      .inr ⟨e', some p.1, rfl, hin'⟩⟩
    rw [Terms.advance, he, Option.filter_some, if_pos (decide_eq_true hrem)]
    simp only [bind, Except.bind, hnext]

/-- A block used up is not looked at again. -/
theorem Flows.filter_eq_none (hf : Flows P s gs t k []) :
    t.entries.filter (fun e => decide (0 < e.remaining)) = none := by
  obtain ⟨he, -⟩ | ⟨e, _, he, hin⟩ := hf.entries
  · rw [he]
    rfl
  · have hz : e.remaining = 0 := hin.reading.remaining
    rw [he, Option.filter_some, hz]
    rfl

/-- Between blocks, the next one is loaded. -/
theorem Flows.advance_load (h : s.Holds P C gs)
    (hf : Flows P s gs t k []) (hk : gs[k]? = some g) (fuel : ℕ) :
    ∃ t', t.advance P C s (fuel + 1) = t'.advance P C s fuel ∧ Flows P s gs t' (k + 1) g := by
  have hlt : k < gs.length := (List.getElem?_eq_some_iff.mp hk).1
  obtain ⟨e, _, hblock, hin, hsome, hwin⟩ := h.block_eq hk (some t.blocks)
    (fun w hw => by cases hw; exact hf.blocks)
  obtain ⟨w', rfl⟩ := Option.isSome_iff_exists.mp hsome
  refine ⟨{ t with
      blocks := w'
      entries := some e
      next := (if k + 1 < gs.length then some (place P s.info.first gs (k + 1)) else none).map
        fun place => (k + 1, place) }, ?_, hf.window, hwin w' rfl, ?_, .inr ⟨e, none, rfl, hin⟩⟩
  · rw [Terms.advance, hf.filter_eq_none, hf.next, if_pos hlt]
    simp only [bind, Except.bind, hblock]
    rfl
  · show Option.map _ _ = _
    split <;> rfl

/-- After the last block there is nothing. -/
theorem Flows.advance_done (hf : Flows P s gs t k []) (hk : gs.length ≤ k)
    (fuel : ℕ) : t.advance P C s (fuel + 1) = .ok (none, t) := by
  rw [Terms.advance, hf.filter_eq_none, hf.next, if_neg (not_lt.mpr hk)]

/-- **One step of a stream**: what is left of it begins with the term it
yields. -/
theorem Flows.next_term (hP : P.Contract remaining) (h : s.Holds P C gs)
    (hf : Flows P s gs t k g) {rest : List (Bytes × List ℕ)}
    (hrest : g ++ (gs.drop k).flatten = p :: rest) :
    ∃ found t' k' g', t.next_term P C s = .ok (some (p.1, found), t')
      ∧ Points P s.info.first (gs.flatMap (block_postings P s.info.first)) found p.2
      ∧ Flows P s gs t' k' g' ∧ g' ++ (gs.drop k').flatten = rest := by
  unfold Terms.next_term
  cases g with
  | cons q g =>
    rw [cons_append, List.cons.injEq] at hrest
    obtain ⟨rfl, hrest⟩ := hrest
    obtain ⟨found, t', hadv, hpoints, hf'⟩ := hf.advance_more hP h (s.blocks + 1)
    exact ⟨found, t', k, g, hadv, hpoints, hf', hrest⟩
  | nil =>
    have hk : k < gs.length := by
      by_contra hcon
      rw [drop_of_length_le (not_lt.mp hcon)] at hrest
      cases hrest
    obtain ⟨g₀, hg₀, hmem⟩ := exists_group gs hk
    obtain ⟨_, hload, hf₁⟩ := hf.advance_load h hg₀ (s.blocks + 1)
    match g₀, h.written.ne_nil g₀ hmem with
    | q :: g, _ =>
      rw [drop_of hg₀, nil_append, flatten_cons, cons_append, List.cons.injEq] at hrest
      obtain ⟨rfl, hrest⟩ := hrest
      obtain ⟨found, t', hadv, hpoints, hf'⟩ := hf₁.advance_more hP h s.blocks
      exact ⟨found, t', k + 1, g, hload.trans hadv, hpoints, hf', hrest⟩

/-- **A stream yields what is left of its block and then every later block.** -/
theorem Flows.yields (hP : P.Contract remaining) (h : s.Holds P C gs)
    {rest : List (Bytes × List ℕ)} (hf : Flows P s gs t k g)
    (hrest : g ++ (gs.drop k).flatten = rest)
    (hdocs : ∀ p ∈ rest, Pushable s.info.first s.info.last p.2) :
    t.Yields P C s rest := by
  induction rest generalizing t k g with
  | nil =>
    obtain ⟨rfl, hnil⟩ := append_eq_nil_iff.mp hrest
    have hk : gs.length ≤ k := by
      by_contra hcon
      obtain ⟨g₀, hg₀, hmem⟩ := exists_group gs (not_le.mp hcon)
      rw [drop_of hg₀, flatten_cons] at hnil
      exact h.written.ne_nil g₀ hmem (append_eq_nil_iff.mp hnil).1
    exact .done (hf.advance_done hk (s.blocks + 1))
  | cons p rest ih =>
    obtain ⟨hp, hdocs'⟩ := forall_mem_cons.mp hdocs
    obtain ⟨_, _, _, _, hnext, hpoints, hf', hrest'⟩ := hf.next_term hP h hrest
    obtain ⟨hit, w, hread, hhit, hw⟩ := h.stream_read_eq hP hp hpoints hf'.window
    obtain ⟨_, hdirect, hsame, -⟩ := h.read_eq hP hp hpoints
    have hgoal : t.Yields P C s ((p.1, hit.docs P) :: rest) :=
      .more hnext hread hdirect (hsame.trans hhit.symm) (by rw [hhit]; exact hpoints.df)
        (ih ⟨hw, hf'.blocks, hf'.next, hf'.entries⟩ hrest' hdocs')
    rw [hhit] at hgoal
    exact hgoal

/-- A stream from a block on. -/
theorem flows_stream (P : Intpack) (s : Segment) (gs : List Group) (k : ℕ) :
    Flows P s gs (stream (if k < gs.length then some (k, place P s.info.first gs k) else none)) k []
    where
  window := Window.empty_of _
  blocks := Window.empty_of _
  next := rfl
  entries := .inl ⟨rfl, rfl⟩

theorem Holds.head_samples (h : s.Holds P C gs) :
    (s.samples.head?.map fun place => (0, place))
      = if 0 < gs.length then some (0, place P s.info.first gs 0) else none := by
  rw [h.samples]
  split
  · rename_i hpos
    obtain ⟨n, hn⟩ : ∃ n, (gs.length + (SAMPLE - 1)) / SAMPLE = n + 1 := by
      refine ⟨(gs.length + (SAMPLE - 1)) / SAMPLE - 1, ?_⟩
      unfold SAMPLE
      omega
    rw [hn, range_succ_eq_map]
    simp
  · rename_i hz
    obtain rfl : gs = [] := length_eq_zero_iff.mp (by omega)
    rfl

/-- **The stream of all terms.** -/
theorem Holds.terms_yields (hP : P.Contract remaining) (h : s.Holds P C gs) :
    s.terms.Yields P C s gs.flatten := by
  unfold Segment.terms
  rw [h.head_samples]
  exact (flows_stream P s gs 0).yields hP h rfl h.written.pushable

/-- **A stream from a term on** yields every term from there, after at most
the smaller ones of one block. -/
theorem Holds.terms_from_yields (hP : P.Contract remaining) (h : s.Holds P C gs) (t : Bytes) :
    ∃ qs, qs <:+ gs.flatten ∧ (s.terms_from t).Yields P C s qs
      ∧ ∀ p ∈ gs.flatten, t ≤ p.1 → p ∈ qs := by
  unfold terms_from
  rcases h.written.locate_eq h.samples h.blocks t with ⟨hnone, -⟩ | ⟨k, hsome, hk, hle, hlt⟩
  · rw [hnone, Option.none_or, h.head_samples]
    exact ⟨gs.flatten, suffix_rfl, (flows_stream P s gs 0).yields hP h rfl h.written.pushable,
      fun p hp _ => hp⟩
  · obtain ⟨g, hg, -⟩ := exists_group gs hk
    have hsuf : (gs.drop k).flatten <:+ gs.flatten := by
      refine ⟨(gs.take k).flatten, ?_⟩
      rw [← flatten_append, take_append_drop]
    refine ⟨(gs.drop k).flatten, hsuf, ?_, fun p hp hpt => ?_⟩
    · have hstream := (flows_stream P s gs k).yields hP h rfl
        fun p hp => h.written.pushable p (hsuf.subset hp)
      rw [if_pos hk] at hstream
      rw [hsome]
      exact hstream
    · exact (h.mem_located hg (hle g hg) hlt hp).1 hpt

end Segment

end Ferret
