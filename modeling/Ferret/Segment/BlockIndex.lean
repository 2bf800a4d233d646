import Ferret.Segment.Dictionary

/-!
# The block index

The index is walked three times: when the segment is opened, to check it and
keep a sample of it; when a lookup walks on from a sample; and when a stream
steps from block to block. All three stand at the place of some block, and
step from `place k` to `place (k + 1)`.
-/

namespace Ferret

open List Option

theorem takeWhile_stop {α : Type} (p : α → Bool) (l : List α) :
    (∀ i < (l.takeWhile p).length, ∃ a, l[i]? = some a ∧ p a = true)
      ∧ ∀ a, l[(l.takeWhile p).length]? = some a → p a = false := by
  induction l with
  | nil => simp
  | cons x l ih =>
    by_cases hx : p x = true
    · rw [takeWhile_cons_of_pos hx]
      refine ⟨fun i hi => ?_, by simpa using ih.2⟩
      cases i with
      | zero => exact ⟨x, rfl, hx⟩
      | succ i => simpa using ih.1 i (by simpa using hi)
    · rw [takeWhile_cons_of_neg hx]
      refine ⟨(fun i hi => by cases hi), fun a ha => ?_⟩
      obtain rfl : x = a := by simpa using ha
      simpa using hx

/-- Every `SAMPLE`th number. -/
theorem filter_samples (n : ℕ) :
    (List.range n).filter (fun b => b % SAMPLE = 0)
      = (List.range ((n + (SAMPLE - 1)) / SAMPLE)).map (· * SAMPLE) := by
  induction n with
  | zero => rfl
  | succ n ih =>
    rw [range_succ, filter_append, ih]
    by_cases h : n % SAMPLE = 0
    · have hnext : (n + 1 + (SAMPLE - 1)) / SAMPLE = (n + (SAMPLE - 1)) / SAMPLE + 1 := by
        unfold SAMPLE at *
        omega
      have hn : (n + (SAMPLE - 1)) / SAMPLE * SAMPLE = n := by
        unfold SAMPLE at *
        omega
      rw [hnext, range_succ, map_append]
      simp [h, hn]
    · have hnext : (n + 1 + (SAMPLE - 1)) / SAMPLE = (n + (SAMPLE - 1)) / SAMPLE := by
        unfold SAMPLE at *
        omega
      rw [hnext]
      simp [h]

/-- **A dictionary that has been written**, group by group. -/
structure Written (P : Intpack) (first last : ℕ) (gs : List Group) : Prop where
  last_lt : last < docLimit
  ne_nil : ∀ g ∈ gs, g ≠ []
  full : ∀ g ∈ gs.dropLast, g.length = BLOCK
  le : ∀ g ∈ gs, g.length ≤ BLOCK
  pushable : ∀ p ∈ gs.flatten, Pushable first last p.2
  sorted : gs.flatten.Pairwise fun p q => p.1 < q.1
  short : ∀ p ∈ gs.flatten, p.1.length < 2 ^ 64
  blocks_short : (gs.flatMap (block_bytes P first)).length < 2 ^ 64
  postings_short : (gs.flatMap (block_postings P first)).length < 2 ^ 64

/-- Where block `k` is. -/
def place (P : Intpack) (first : ℕ) (gs : List Group) (k : ℕ) : Place where
  entry := index_bytes P first (reach P first (gs.take k)) (gs.drop k)
  start := ((gs.take k).flatMap (block_bytes P first)).length
  postings := ((gs.take k).flatMap (block_postings P first)).length

section

variable {P : Intpack} {first last : ℕ} {gs : List Group}

variable {k : ℕ} {g : Group}

theorem take_succ_of (hk : gs[k]? = some g) : gs.take (k + 1) = gs.take k ++ [g] := by
  rw [take_add_one, hk]
  rfl

theorem drop_of (hk : gs[k]? = some g) : gs.drop k = g :: gs.drop (k + 1) := by
  obtain ⟨hlt, rfl⟩ := List.getElem?_eq_some_iff.mp hk
  exact drop_eq_getElem_cons hlt

theorem reach_succ (hk : gs[k]? = some g) :
    reach P first (gs.take (k + 1))
      = ((block_bytes P first g).length, (block_postings P first g).length) := by
  rw [take_succ_of hk, reach, getLast?_concat]

/-- The index entry of a block, and those that follow. -/
theorem place_entry (hk : gs[k]? = some g) :
    (place P first gs k).entry
      = index_entry (first_of g) (reach P first (gs.take k)).1 (reach P first (gs.take k)).2
        ++ (place P first gs (k + 1)).entry := by
  show index_bytes P first _ (gs.drop k) = _ ++ index_bytes P first _ (gs.drop (k + 1))
  rw [drop_of hk, index_bytes, reach_succ hk]

theorem place_start_succ (P : Intpack) (first : ℕ) (hk : gs[k]? = some g) :
    (place P first gs (k + 1)).start
      = (place P first gs k).start + (reach P first (gs.take (k + 1))).1 := by
  rw [reach_succ hk]
  show ((gs.take (k + 1)).flatMap _).length = _
  rw [take_succ_of hk, flatMap_append, length_append, flatMap_singleton]
  rfl

theorem place_postings_succ (P : Intpack) (first : ℕ) (hk : gs[k]? = some g) :
    (place P first gs (k + 1)).postings
      = (place P first gs k).postings + (reach P first (gs.take (k + 1))).2 := by
  rw [reach_succ hk]
  show ((gs.take (k + 1)).flatMap _).length = _
  rw [take_succ_of hk, flatMap_append, length_append, flatMap_singleton]
  rfl

/-- A block reaches no further than the blocks up to it. -/
theorem reach_le (P : Intpack) (first : ℕ) (gs : List Group) :
    (reach P first gs).1 ≤ (gs.flatMap (block_bytes P first)).length
      ∧ (reach P first gs).2 ≤ (gs.flatMap (block_postings P first)).length := by
  rcases eq_nil_or_concat gs with rfl | ⟨_, g, rfl⟩
  · exact ⟨le_rfl, le_rfl⟩
  · simp [reach]

theorem place_le (P : Intpack) (first : ℕ) (gs : List Group) (k : ℕ) :
    (place P first gs k).start ≤ (gs.flatMap (block_bytes P first)).length
      ∧ (place P first gs k).postings ≤ (gs.flatMap (block_postings P first)).length := by
  constructor
  all_goals
    conv_rhs => rw [← take_append_drop k gs, flatMap_append, length_append]
    exact le_self_add

theorem block_bytes_ne_nil (h : g ≠ []) : block_bytes P first g ≠ [] := by
  cases g with
  | nil => exact absurd rfl h
  | cons entry g =>
    obtain ⟨_, docs⟩ := entry
    rw [block_bytes, entries_bytes, term_bytes, nil_append]
    rcases docs with - | ⟨_, - | ⟨_, docs⟩⟩ <;> simp [docs_bytes, put_ne_nil]

theorem exists_group (gs : List Group) (hk : k < gs.length) : ∃ g, gs[k]? = some g ∧ g ∈ gs :=
  ⟨gs[k], getElem?_eq_getElem hk, getElem_mem hk⟩

/-- An index entry is not empty. -/
theorem length_le_index (gs : List Group) (step : ℕ × ℕ) :
    gs.length ≤ (index_bytes P first step gs).length := by
  induction gs generalizing step with
  | nil => exact le_rfl
  | cons g gs ih =>
    have hput := length_pos_iff.mpr (put_ne_nil (first_of g).length)
    have := ih ((block_bytes P first g).length, (block_postings P first g).length)
    rw [index_bytes, index_entry, length_append, length_append, length_cons]
    omega

namespace Written

variable (h : Written P first last gs)

include h

theorem reach_lt (k : ℕ) : (reach P first (gs.take k)).1 < 2 ^ 64
    ∧ (reach P first (gs.take k)).2 < 2 ^ 64 := by
  have h₁ := reach_le P first (gs.take k)
  have h₂ := place_le P first gs k
  exact ⟨lt_of_le_of_lt (h₁.1.trans h₂.1) h.blocks_short,
    lt_of_le_of_lt (h₁.2.trans h₂.2) h.postings_short⟩

variable {g : Group}

/-- The first term of a block is a term of the block. -/
theorem first_mem (hg : g ∈ gs) : ∃ docs, (first_of g, docs) ∈ g := by
  match g, h.ne_nil g hg with
  | (term, docs) :: g, _ => exact ⟨docs, .head _⟩

theorem first_short (hg : g ∈ gs) : (first_of g).length < 2 ^ 64 := by
  obtain ⟨docs, hmem⟩ := h.first_mem hg
  exact h.short (first_of g, docs) (mem_flatten.mpr ⟨g, hg, hmem⟩)

variable {k : ℕ}

/-- One index entry. -/
theorem index_term_place (hk : gs[k]? = some g) :
    index_term (place P first gs k).entry
      = some (first_of g, put (reach P first (gs.take k)).1
          ++ (put (reach P first (gs.take k)).2 ++ (place P first gs (k + 1)).entry)) := by
  have hshort := h.first_short (mem_of_getElem? hk)
  rw [place_entry hk, index_entry, append_assoc, append_assoc, append_assoc,
    index_term, take_put hshort]
  simp only [bind_eq_bind, bind_some]
  rw [if_pos (by rw [length_append]; omega), take_left, drop_left]

theorem first_term_place (hk : gs[k]? = some g) :
    Segment.first_term (place P first gs k) = first_of g := by
  rw [Segment.first_term, h.index_term_place hk]
  rfl

/-- **From block to block.** -/
theorem next_place_place (hk : k + 1 < gs.length) :
    next_place (place P first gs k) = some (place P first gs (k + 1)) := by
  obtain ⟨g, hg⟩ : ∃ g, gs[k]? = some g := ⟨_, getElem?_eq_getElem (by omega)⟩
  obtain ⟨_, hg'⟩ : ∃ g, gs[k + 1]? = some g := ⟨_, getElem?_eq_getElem hk⟩
  have h₁ := h.reach_lt k
  have h₂ := h.reach_lt (k + 1)
  have h₃ := place_le P first gs (k + 1)
  have h₄ := h.blocks_short
  have h₅ := h.postings_short
  have hs := place_start_succ P first hg
  have hp := place_postings_succ P first hg
  unfold next_place
  rw [h.index_term_place hg]
  simp only [bind_eq_bind, bind_some]
  rw [take_put h₁.1]
  simp only [bind_some]
  rw [take_put h₁.2]
  simp only [bind_some]
  rw [h.index_term_place hg']
  simp only [bind_some]
  rw [take_put h₂.1]
  simp only [bind_some]
  rw [take_put h₂.2]
  simp only [bind_some]
  rw [checked_add, checked_add, if_pos (by omega), if_pos (by omega), ← hs, ← hp]
  rfl

/-- First terms are in order. -/
theorem first_lt {i j : ℕ} {g g' : Group} (hi : gs[i]? = some g) (hj : gs[j]? = some g')
    (hij : i < j) {p : Bytes × List ℕ} (hp : p ∈ g) {q : Bytes × List ℕ} (hq : q ∈ g') :
    p.1 < q.1 := by
  have hcross := (pairwise_flatten.mp h.sorted).2
  obtain ⟨hi', rfl⟩ := List.getElem?_eq_some_iff.mp hi
  obtain ⟨hj', rfl⟩ := List.getElem?_eq_some_iff.mp hj
  exact pairwise_iff_getElem.mp hcross i j hi' hj' hij p hp q hq

/-- A block begins before its section ends, and later than the one before. -/
theorem place_start_lt (hk : k < gs.length) :
    (place P first gs k).start < (gs.flatMap (block_bytes P first)).length
      ∧ 0 < (reach P first (gs.take (k + 1))).1 := by
  obtain ⟨g, hg, hmem⟩ := exists_group gs hk
  have hpos : 0 < (reach P first (gs.take (k + 1))).1 := by
    rw [reach_succ hg]
    exact length_pos_iff.mpr (block_bytes_ne_nil (h.ne_nil g hmem))
  have hs := place_start_succ P first hg
  have hle := place_le P first gs (k + 1)
  exact ⟨by omega, hpos⟩

/-- **Opening walks the whole index**, and keeps every `SAMPLE`th place. -/
theorem parse_from_eq (count b start postings : ℕ) (previous : Bytes)
    (hb : b + count = gs.length)
    (hstart : start + (reach P first (gs.take b)).1 = (place P first gs b).start)
    (hpostings : postings + (reach P first (gs.take b)).2 = (place P first gs b).postings)
    (hprevious : ∀ k g, b = k + 1 → gs[k]? = some g → previous = first_of g) :
    parse_from (gs.flatMap (block_bytes P first)).length
        (gs.flatMap (block_postings P first)).length count b (place P first gs b).entry start
        postings previous
      = some (((List.range' b count).filter fun b => b % SAMPLE = 0).map (place P first gs), []) := by
  induction count generalizing b start postings previous with
  | zero =>
    have hnil : (place P first gs b).entry = [] := by
      show index_bytes P first _ (gs.drop b) = []
      rw [drop_of_length_le (by omega)]
      rfl
    rw [parse_from, hnil]
    rfl
  | succ count ih =>
    obtain ⟨g, hg, hmem⟩ := exists_group gs (k := b) (by omega)
    have hreach := h.reach_lt b
    obtain ⟨hlt, -⟩ := h.place_start_lt (k := b) (by omega)
    have hle := place_le P first gs b
    have h₄ := h.blocks_short
    have h₅ := h.postings_short
    have hrest := ih (b + 1) (place P first gs b).start (place P first gs b).postings (first_of g)
      (by omega) (place_start_succ P first hg).symm (place_postings_succ P first hg).symm (fun k g' hk hg' => by
        obtain rfl : k = b := by omega
        obtain rfl : g = g' := Option.some.inj (hg.symm.trans hg')
        rfl)
    rw [parse_from, h.index_term_place hg]
    simp only [bind_eq_bind, bind_some]
    rw [take_put hreach.1]
    simp only [bind_some]
    rw [take_put hreach.2]
    simp only [bind_some]
    rw [if_neg, checked_add, checked_add, if_pos (by omega), if_pos (by omega), hstart, hpostings]
    · simp only [bind_some]
      rw [if_neg (by omega), hrest]
      simp only [bind_some, range'_succ, filter_cons, decide_eq_true_eq]
      split <;> rfl
    · rintro (⟨rfl, hne⟩ | ⟨_, hbad⟩)
      · exact hne rfl
      · obtain ⟨k, rfl⟩ : ∃ k, b = k + 1 := ⟨b - 1, by omega⟩
        obtain ⟨g', hg', hmem'⟩ := exists_group gs (k := k) (by omega)
        rcases hbad with _ | hbefore
        · have := (h.place_start_lt (k := k) (by omega)).2
          omega
        · obtain ⟨d, hd⟩ := h.first_mem hmem
          obtain ⟨_, hd'⟩ := h.first_mem hmem'
          have hlt := h.first_lt hg' hg (Nat.lt_succ_self k) hd' hd
          rw [hprevious k g' rfl hg', before_eq_true hlt] at hbefore
          cases hbefore

/-- So many terms make so many blocks. -/
theorem block_count_eq : block_count gs.flatten.length = gs.length := by
  rcases eq_nil_or_concat gs with rfl | ⟨init, g, rfl⟩
  · rfl
  · rw [concat_eq_append] at h ⊢
    have hfull := h.full
    rw [dropLast_concat] at hfull
    have hlen : init.flatten.length = init.length * BLOCK := by
      rw [length_flatten, map_congr_left (g := fun _ => BLOCK) hfull]
      simp
    have hle := h.le g (by simp)
    have hpos : 0 < g.length := length_pos_iff.mpr (h.ne_nil g (by simp))
    rw [flatten_concat, length_append, length_append, hlen, block_count]
    unfold BLOCK at *
    simp only [length_cons, length_nil]
    omega

theorem parse_index_eq :
    parse_index (index_bytes P first (0, 0) gs) gs.flatten.length
        (gs.flatMap (block_bytes P first)).length (gs.flatMap (block_postings P first)).length
      = some ((List.range ((gs.length + (SAMPLE - 1)) / SAMPLE)).map
          fun i => place P first gs (i * SAMPLE)) := by
  have hparse := h.parse_from_eq gs.length 0 0 0 [] (zero_add _) rfl rfl
    (fun k g hk _ => by cases hk)
  have hindex : index_bytes P first (0, 0) gs = (place P first gs 0).entry := rfl
  have hnil : gs.length = 0 → gs = [] := length_eq_zero_iff.mp
  unfold parse_index
  rw [h.block_count_eq]
  simp only
  rw [if_neg (not_lt.mpr (length_le_index gs _)), hindex, hparse]
  simp only [bind_eq_bind, bind_some]
  rw [if_pos, ← range_eq_range', filter_samples, List.map_map]
  · rfl
  · refine ⟨trivial, ?_⟩
    rcases Nat.eq_zero_or_pos gs.length with hz | hpos
    · right
      rw [hnil hz]
      exact ⟨rfl, rfl⟩
    · exact .inl hpos

/-- A walk from a block that begins at or before the term ends at the last one
that does. -/
theorem walk_eq (t : Bytes) (stop fuel b : ℕ) (hstop : stop ≤ gs.length) (hb : b < stop)
    (hfuel : stop ≤ b + fuel) (hfirst : ∀ g, gs[b]? = some g → first_of g ≤ t) :
    ∃ k, Segment.walk t stop fuel b (place P first gs b) = (k, place P first gs k)
      ∧ b ≤ k ∧ k < stop ∧ (∀ g, gs[k]? = some g → first_of g ≤ t)
      ∧ (k + 1 < stop → ∀ g, gs[k + 1]? = some g → t < first_of g) := by
  induction fuel generalizing b with
  | zero => omega
  | succ fuel ih =>
    rw [Segment.walk]
    by_cases hmore : b + 1 < stop
    · obtain ⟨g, hg, -⟩ := exists_group gs (k := b + 1) (by omega)
      rw [if_pos hmore, h.next_place_place (by omega)]
      simp only [h.first_term_place hg]
      by_cases hlt : t < first_of g
      · rw [if_pos hlt]
        refine ⟨b, rfl, le_rfl, hb, hfirst, fun _ g' hg' => ?_⟩
        obtain rfl : g = g' := Option.some.inj (hg.symm.trans hg')
        exact hlt
      · rw [if_neg hlt]
        obtain ⟨k, hk, _, hks, h₁, h₂⟩ := ih (b + 1) hmore (by omega) fun g' hg' => by
          obtain rfl : g = g' := Option.some.inj (hg.symm.trans hg')
          exact not_lt.mp hlt
        exact ⟨k, hk, by omega, hks, h₁, h₂⟩
    · rw [if_neg hmore]
      exact ⟨b, rfl, le_rfl, hb, hfirst, fun hcon => absurd hcon hmore⟩

/-- **A lookup finds the last block that begins at or before its term**, if
there is one. -/
theorem locate_eq {s : Segment} (hsamples : s.samples
      = (List.range ((gs.length + (SAMPLE - 1)) / SAMPLE)).map
          fun i => place P first gs (i * SAMPLE))
    (hblocks : s.blocks = gs.length) (t : Bytes) :
    (s.locate t = none ∧ ∀ g, gs[0]? = some g → t < first_of g)
      ∨ ∃ k, s.locate t = some (k, place P first gs k) ∧ k < gs.length
        ∧ (∀ g, gs[k]? = some g → first_of g ≤ t)
        ∧ ∀ g, gs[k + 1]? = some g → t < first_of g := by
  obtain ⟨hhit, hmiss⟩ := takeWhile_stop (fun p => decide (Segment.first_term p ≤ t)) s.samples
  have hget : ∀ i, i * SAMPLE < gs.length →
      s.samples[i]? = some (place P first gs (i * SAMPLE)) := by
    intro i hi
    rw [hsamples, getElem?_map, getElem?_range]
    · rfl
    · unfold SAMPLE at *
      omega
  have hlen : s.samples.length = (gs.length + (SAMPLE - 1)) / SAMPLE := by
    rw [hsamples, length_map, length_range]
  have hfound : (s.samples.takeWhile fun p => decide (Segment.first_term p ≤ t)).length
      ≤ s.samples.length := ( takeWhile_prefix _).length_le
  unfold Segment.locate
  set found := (s.samples.takeWhile fun p => decide (Segment.first_term p ≤ t)).length with hf
  -- a sample past those found begins after the term
  have hpast : ∀ g, gs[found * SAMPLE]? = some g → t < first_of g := by
    intro g hg
    have hlt : found * SAMPLE < gs.length := (List.getElem?_eq_some_iff.mp hg).1
    have := hmiss _ (hget found hlt)
    rw [h.first_term_place hg] at this
    simpa using this
  simp only
  by_cases hzero : found = 0
  · left
    rw [if_pos hzero]
    exact ⟨rfl, fun g hg => hpast g (by rw [hzero, zero_mul]; exact hg)⟩
  · right
    rw [if_neg hzero]
    have hin : (found - 1) * SAMPLE < gs.length := by
      unfold SAMPLE at *
      omega
    obtain ⟨g, hg, -⟩ := exists_group gs hin
    have hfirst : first_of g ≤ t := by
      obtain ⟨p, hp, hple⟩ := hhit (found - 1) (by omega)
      obtain rfl : place P first gs ((found - 1) * SAMPLE) = p :=
        Option.some.inj ((hget _ hin).symm.trans hp)
      rw [h.first_term_place hg] at hple
      exact of_decide_eq_true hple
    have hsamp : 0 < SAMPLE := by decide
    obtain ⟨k, hk, _, _, h₁, h₂⟩ := h.walk_eq t (min ((found - 1) * SAMPLE + SAMPLE) s.blocks)
      SAMPLE ((found - 1) * SAMPLE) (by omega) (by omega) (by omega) fun g' hg' => by
        obtain rfl : g = g' := Option.some.inj (hg.symm.trans hg')
        exact hfirst
    refine ⟨k, ?_, by omega, h₁, fun g' hg' => ?_⟩
    · rw [hget _ hin]
      exact congrArg some hk
    · have hk1 : k + 1 < gs.length := (List.getElem?_eq_some_iff.mp hg').1
      by_cases hstop : k + 1 < min ((found - 1) * SAMPLE + SAMPLE) s.blocks
      · exact h₂ hstop g' hg'
      · -- the walk reached the next sample
        have hnext : k + 1 = found * SAMPLE := by
          have hmul : found * SAMPLE = (found - 1) * SAMPLE + SAMPLE := by
            unfold SAMPLE
            omega
          omega
        exact hpast g' (hnext ▸ hg')

end Written

end

end Ferret
