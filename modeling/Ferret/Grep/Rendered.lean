import Ferret.Grep.Inverted

/-!
# Rendering a multiline search

The lines of the windows are rendered in order, a line or a whole selected
group at a time, with the matches that start on it: those of the matches ahead
that are not passed, up to the record's end.
-/

namespace Ferret.Grep

open Verify List Option

/-! ## Regions are in range -/

section Region

variable {plan : Plan} {replacement : Replacement} {buffer : ℕ} {r : Region} {only : Bool}

theorem expand_span_total {x : Expanding} {span : Span}
    (hat : r.owns span = true → x.at_ ≤ span.start) (hspan : span.start ≤ span.stop)
    (hlen : span.stop ≤ r.source.length) :
    ∃ y, expand_span plan replacement buffer r only x span = some y
      ∧ (y.at_ = x.at_ ∨ y.at_ = min span.stop r.range.stop) := by
  unfold expand_span
  by_cases howns : r.owns span = true
  · rw [if_pos howns]
    cases groups plan replacement r.source span with
    | none => exact ⟨x, rfl, .inl rfl⟩
    | some _ =>
      dsimp only
      rw [Span.slice?_eq_some (hat howns) (hspan.trans hlen), Span.slice?_eq_some hspan hlen]
      exact ⟨_, rfl, .inr rfl⟩
  · exact ⟨x, if_neg howns, .inl rfl⟩

theorem foldlM_expand_span_total {x : Expanding} {spans : List Span}
    (hspans : Span.Ascending r.source.length spans)
    (hat : ∀ span ∈ spans, r.owns span = true → x.at_ ≤ span.start) (hstop : x.at_ ≤ r.range.stop) :
    ∃ y, spans.foldlM (expand_span plan replacement buffer r only) x = some y
      ∧ y.at_ ≤ r.range.stop := by
  induction spans generalizing x with
  | nil => exact ⟨x, rfl, hstop⟩
  | cons span spans ih =>
    have hself : span ∈ span :: spans := .head _
    obtain ⟨y, hy, hyat⟩ := expand_span_total (hat span hself) (hspans.ordered span hself)
      (hspans.within span hself)
    have hle : ∀ t ∈ spans, r.owns t = true → y.at_ ≤ t.start := fun t ht howns => by
      rcases hyat with hyat | hyat
      · exact hyat ▸ hat t (.tail _ ht) howns
      · exact hyat ▸ (min_le_left _ _).trans (hspans.head_le t ht)
    have hystop : y.at_ ≤ r.range.stop := by
      rcases hyat with hyat | hyat
      · exact hyat ▸ hstop
      · exact hyat ▸ min_le_right _ _
    obtain ⟨z, hz, hzstop⟩ := ih hspans.tail hle hystop
    exact ⟨z, by rw [foldlM_cons, hy]; exact hz, hzstop⟩

/-- **No slice of a region is out of range.** -/
theorem region_total (plan : Plan) (buffer : ℕ) (line : Line) {r : Region} {spans : List Span}
    (hrange : r.range.start ≤ r.range.stop) (hstop : r.range.stop ≤ r.source.length)
    (hspans : Span.Ascending r.source.length spans) :
    ∃ records, region plan buffer r spans line = some records := by
  unfold region
  cases plan.replacement with
  | none => exact ⟨_, rfl⟩
  | some replacement =>
    let x : Expanding :=
      ⟨Records.new { line with fragment := only plan line } (whole plan), r.range.start, false⟩
    have hfold : ∃ y, spans.foldlM (expand_span plan replacement buffer r (only plan line)) x = some y
        ∧ y.at_ ≤ r.range.stop :=
      foldlM_expand_span_total hspans (fun span _ howns => Region.start_le_of_owns howns) hrange
    obtain ⟨y, hy, hystop⟩ := hfold
    have htail : (Span.mk y.at_ r.range.stop).slice? r.source
        = some ((Span.mk y.at_ r.range.stop).slice r.source) := Span.slice?_eq_some hystop hstop
    dsimp only
    change ∃ records, (spans.foldlM (expand_span plan replacement buffer r (only plan line)) x).bind _
      = some records
    rw [hy]
    dsimp only [bind_some]
    split
    · exact ⟨_, rfl⟩
    · rw [htail]
      exact ⟨_, rfl⟩

end Region

/-! ## The lines of a text -/

/-- Where a line ends, its LF left out. -/
def content (bytes : Bytes) (line : Span) : ℕ :=
  if bytes[line.stop - 1]? = some LF then line.stop - 1 else line.stop

variable {stop : ℕ}

section Content

variable {bytes : Bytes} {line : Span}

theorem content_bounds (bytes : Bytes) (hlt : line.start < line.stop) :
    line.start ≤ content bytes line ∧ content bytes line ≤ line.stop := by
  unfold content
  split
  · exact ⟨Nat.le_sub_one_of_lt hlt, Nat.sub_le _ _⟩
  · exact ⟨hlt.le, le_rfl⟩

theorem getElem?_pred (hpos : 0 < stop) (hlen : stop ≤ bytes.length) :
    ∃ byte, bytes[stop - 1]? = some byte :=
  ⟨_, getElem?_eq_getElem (lt_of_lt_of_le (Nat.sub_lt hpos one_pos) hlen)⟩

theorem content_end_eq_some (hpos : 0 < line.stop) (hlen : line.stop ≤ bytes.length) :
    content_end bytes line = some (content bytes line) := by
  obtain ⟨byte, hbyte⟩ := getElem?_pred hpos hlen
  unfold content_end content
  rw [sub?_eq_some hpos, hbyte]
  dsimp only [bind_eq_bind, bind_some]
  rw [hbyte]
  dsimp only [bind_some]
  by_cases hlf : byte = LF
  · rw [if_pos hlf, if_pos (congrArg some hlf)]
    rfl
  · rw [if_neg hlf, if_neg fun h => hlf (Option.some.inj h)]
    rfl

theorem ends_line_isSome (hpos : 0 < stop) (hlen : stop ≤ bytes.length) :
    ∃ lf, ends_line bytes stop = some lf := by
  obtain ⟨byte, hbyte⟩ := getElem?_pred hpos hlen
  refine ⟨byte = LF, ?_⟩
  unfold ends_line
  rw [sub?_eq_some hpos]
  dsimp only [bind_eq_bind, bind_some]
  rw [hbyte]
  rfl

end Content

/-! ## What is ahead -/

/-- A span starts before a position; an unterminated last line also owns the empty span at its
end. -/
def below (bytes : Bytes) (stop : ℕ) (span : Span) : Bool :=
  decide (span.start < stop)
    || stop == bytes.length && !ends_with_lf bytes && span.start == stop

section Ahead

variable {bytes : Bytes} {spans done ahead : List Span} {n p q : ℕ} {s : Span}

theorem passed_iff : passed p s = true ↔ s.stop < p ∨ s.start < s.stop ∧ s.stop = p := by
  simp [passed, Span.is_empty]

theorem below_iff : below bytes stop s = true
    ↔ s.start < stop ∨ s.start = stop ∧ stop = bytes.length ∧ ends_with_lf bytes = false := by
  simp [below]
  tauto

theorem passed_mono (hpq : p ≤ q) (h : passed p s = true) : passed q s = true := by
  rw [passed_iff] at h ⊢
  omega

/-- Skipping what is passed leaves all that is not. -/
theorem dropWhile_passed (h : Span.Ascending n spans) (hspans : spans = done ++ ahead)
    (hdone : ∀ s ∈ done, passed p s = true) :
    ahead.dropWhile (passed p) = spans.filter fun s => !passed p s := by
  have hpair : spans.Pairwise fun s t => passed p t = true → passed p s = true :=
    h.pairwise.imp_of_mem fun {s t} hs ht hle hpassed => by
      rw [passed_iff] at hpassed ⊢
      have := h.ordered s hs
      have := h.ordered t ht
      omega
  rw [← Span.dropWhile_eq_filter hpair, hspans, dropWhile_append_of_pos hdone]

theorem takeWhile_below (h : Span.Ascending n spans) (stop : ℕ) :
    spans.takeWhile (below bytes stop) = spans.filter (below bytes stop) := by
  refine Span.takeWhile_eq_filter (h.pairwise.imp_of_mem fun {s t} hs ht hle hbelow => ?_)
  rw [below_iff] at hbelow ⊢
  have := h.ordered s hs
  rcases hbelow with hlt | ⟨_, hend⟩
  · exact .inl (by omega)
  · rcases lt_or_ge s.start stop with hlt | _
    · exact .inl hlt
    · exact .inr ⟨by omega, hend⟩

end Ahead

/-! ## Looking at a line -/

/-- What is rendered: the lines of a text, the groups selected, and the matches taken, which touch
lines of the groups only. -/
structure Scene (r : Render) (groups spans : List Span) : Prop where
  lines : IsLines r.bytes r.lines
  split : r.split = (!r.plan.grep.excludes_lf && !r.plan.invert)
  apart : Span.Apart groups
  within : ∀ k, Span.Union groups k → k < r.lines.length
  ascending : Span.Ascending r.bytes.length spans
  found : ∀ span ∈ spans, span ∈ r.plan.grep.spans r.bytes
  on_lines : ∀ span ∈ spans, ∃ k, Touched r.bytes r.lines span k
  covered : ∀ span ∈ spans, ∀ k, Touched r.bytes r.lines span k → Span.Union groups k

/-- The record of line `index`, with all matches not passed. -/
structure Seen (r : Render) (groups spans : List Span) (index : ℕ) (at_ : At) : Prop where
  at_index : at_.index = index
  range : r.lines[index]? = some at_.range
  content_eq : at_.content_end = content r.bytes at_.range
  kind : at_.kind = if at_.selected then .selected else .context
  selected : at_.selected = true ↔ Span.Union groups index
  group : r.split = true → at_.selected = true → ∃ g ∈ groups, g.Has index ∧ at_.last = g.stop
  line : ¬ (r.split = true ∧ at_.selected = true) → at_.last = index + 1
  stop : ∃ final, r.lines[at_.last - 1]? = some final ∧ at_.stop = final.stop
  context : at_.inverted_context = true → r.plan.invert = true
  spans : at_.spans = spans.filter fun s => !passed at_.range.start s

section Scene

variable {r : Render} {groups spans : List Span} {index : ℕ} {at_ : At}

theorem head_has_iff {gs done : List Span} (h : Span.Apart groups) (hgs : groups = done ++ gs)
    (hdone : ∀ g ∈ done, g.stop ≤ index) (hahead : ∀ g, gs.head? = some g → index < g.stop) :
    (∃ g, gs.head? = some g ∧ g.Has index) ↔ Span.Union groups index := by
  refine ⟨fun ⟨g, hg, hhas⟩ => ⟨g, hgs ▸ mem_append_right _ (mem_of_mem_head? hg), hhas⟩,
    fun ⟨t, ht, hhas⟩ => ?_⟩
  rw [hgs] at ht h
  rcases mem_append.mp ht with ht | ht
  · exact absurd hhas.2 (not_lt.mpr (hdone t ht))
  · cases gs with
    | nil => cases ht
    | cons g gs =>
      refine ⟨g, rfl, ?_⟩
      rcases mem_cons.mp ht with rfl | ht
      · exact hhas
      · have hlt := (pairwise_cons.mp (pairwise_append.mp h.pairwise).2.1).1 t ht
        exact absurd (hahead g rfl) (not_lt.mpr (hlt.le.trans hhas.1))

theorem Scene.look (h : Scene r groups spans) (hindex : index < r.lines.length) {gs ss : List Span}
    (hgs : ∃ done, groups = done ++ gs ∧ ∀ g ∈ done, g.stop ≤ index)
    (hahead : ∀ g, gs.head? = some g → index < g.stop)
    (hss : ∃ done, spans = done ++ ss
      ∧ ∀ s ∈ done, ∀ line, r.lines[index]? = some line → passed line.start s = true) :
    ∃ at_, r.look index gs ss = some at_ ∧ Seen r groups spans index at_ := by
  obtain ⟨_, hgroups, hdoneg⟩ := hgs
  obtain ⟨_, hspans, hdones⟩ := hss
  have hline := getElem?_eq_getElem hindex
  generalize r.lines[index] = line at hline
  obtain ⟨-, hlt, hlen⟩ := h.lines.tiles.bounds hline
  have hselected := head_has_iff h.apart hgroups hdoneg hahead
  have hfilter := dropWhile_passed h.ascending hspans fun s hs => hdones s hs line hline
  have hcontent := content_end_eq_some (Nat.zero_lt_of_lt hlt) hlen
  generalize hany : (gs.head?.any fun g => decide (g.start ≤ index ∧ index < g.stop)) = selected
  have hsel : selected = true ↔ Span.Union groups index := by
    rw [← hany, ← hselected, Option.any_eq_true]
    simp only [decide_eq_true_eq, Span.Has]
  have hlast : ∃ last, r.last index selected gs = some last
      ∧ 0 < last ∧ last ≤ r.lines.length
      ∧ (r.split = true → selected = true → ∃ g ∈ groups, g.Has index ∧ last = g.stop)
      ∧ (¬ (r.split = true ∧ selected = true) → last = index + 1) := by
    unfold Render.last
    by_cases hgroup : r.split = true ∧ selected = true
    · obtain ⟨g, hg, hhas⟩ := hselected.mpr (hsel.mp hgroup.2)
      have hmem : g ∈ groups := hgroups ▸ mem_append_right _ (mem_of_mem_head? hg)
      rw [if_pos hgroup, hg]
      exact ⟨g.stop, rfl, Nat.zero_lt_of_lt hhas.2, h.apart.stop_le h.within g hmem,
        fun _ _ => ⟨g, hmem, hhas, rfl⟩, fun hno => absurd hgroup hno⟩
    · rw [if_neg hgroup]
      exact ⟨index + 1, rfl, Nat.succ_pos _, hindex, fun h₁ h₂ => absurd ⟨h₁, h₂⟩ hgroup, fun _ => rfl⟩
  obtain ⟨last, hlast, hpos, hle, hgroup, hsingle⟩ := hlast
  have hfinal := getElem?_eq_getElem (Nat.lt_of_lt_of_le (Nat.sub_lt hpos Nat.one_pos) hle)
  generalize r.lines[last - 1] = final at hfinal
  unfold Render.look
  rw [hany, hline]
  dsimp only [bind_eq_bind, bind_some]
  rw [hcontent]
  dsimp only [bind_some]
  rw [hlast]
  dsimp only [bind_some]
  rw [sub?_eq_some hpos]
  dsimp only [bind_some]
  rw [hfinal]
  refine ⟨_, rfl, ?_⟩
  exact
    { at_index := rfl
      range := hline
      content_eq := rfl
      kind := rfl
      selected := hsel
      group := hgroup
      line := hsingle
      stop := ⟨final, hfinal, rfl⟩
      context := fun hcontext => (of_decide_eq_true hcontext).1
      spans := hfilter }

/-! ## The records of a line -/

/-- The matches ahead up to a position. -/
theorem Seen.upto (h : Scene r groups spans) (hat : Seen r groups spans index at_) (stop : ℕ) :
    r.upto at_.spans stop
      = spans.filter fun s => below r.bytes stop s && !passed at_.range.start s := by
  rw [hat.spans]
  exact (takeWhile_below (h.ascending.sublist filter_sublist) stop).trans List.filter_filter

theorem Seen.bounds (h : Scene r groups spans) (hat : Seen r groups spans index at_) :
    at_.range.start < at_.range.stop ∧ at_.range.stop ≤ at_.stop ∧ at_.stop ≤ r.bytes.length := by
  obtain ⟨_, hfinal, hstop⟩ := hat.stop
  have hlast : index ≤ at_.last - 1 := by
    by_cases hgroup : r.split = true ∧ at_.selected = true
    · obtain ⟨g, -, hhas, hlast⟩ := hat.group hgroup.1 hgroup.2
      exact hlast ▸ Nat.le_sub_one_of_lt hhas.2
    · rw [hat.line hgroup]
      exact le_rfl
  exact ⟨(h.lines.tiles.bounds hat.range).2.1,
    hstop ▸ h.lines.tiles.stop_le_stop hat.range hfinal hlast,
    hstop ▸ (h.lines.tiles.bounds hfinal).2.2⟩

theorem mapM_eq_some_map {α β : Type} {f : α → Option β} {g : α → β} {l : List α}
    (h : ∀ a ∈ l, f a = some (g a)) : l.mapM f = some (l.map g) := by
  induction l with
  | nil => rfl
  | cons a l ih =>
    rw [mapM_cons, h a (mem_cons_self ..), ih fun b hb => h b (mem_cons_of_mem _ hb)]
    rfl

theorem relative_eq_some {a : ℕ} {s : Span} (hstart : a ≤ s.start) (hstop : a ≤ s.stop) :
    Render.relative a s = some ⟨s.start - a, s.stop - a⟩ := by
  unfold Render.relative
  rw [sub?_eq_some hstart, sub?_eq_some hstop]
  rfl

/-- **A JSON record** highlights the matches taken that start in it and end in it. -/
theorem Seen.json (h : Scene r groups spans) (hat : Seen r groups spans index at_) :
    ∃ record, r.json at_ = some [record] ∧ record.number = index + 1 ∧ record.kind = at_.kind
      ∧ record.offset = at_.range.start
      ∧ (at_.inverted_context = false → record.highlights = some
          ((spans.filter fun s => decide (at_.range.start ≤ s.start ∧ s.stop ≤ at_.stop)
              && (below r.bytes at_.stop s && !passed at_.range.start s)).map fun s =>
            ⟨s.start - at_.range.start, s.stop - at_.range.start⟩)) := by
  obtain ⟨hlt, hle, hlen⟩ := hat.bounds h
  have hslice : (Span.mk at_.range.start at_.stop).slice? r.bytes = some _ :=
    Span.slice?_eq_some (hlt.le.trans hle) hlen
  obtain ⟨_, hlf⟩ := ends_line_isSome (Nat.zero_lt_of_lt (hlt.trans_le hle)) hlen
  have hhighlights : ∃ highlights, r.highlights at_ ⟨at_.range.start, at_.stop⟩
        ((Span.mk at_.range.start at_.stop).slice r.bytes) = some highlights
      ∧ (at_.inverted_context = false → highlights
        = (spans.filter fun s => decide (at_.range.start ≤ s.start ∧ s.stop ≤ at_.stop)
            && (below r.bytes at_.stop s && !passed at_.range.start s)).map fun s =>
          ⟨s.start - at_.range.start, s.stop - at_.range.start⟩) := by
    unfold Render.highlights
    by_cases hcontext : at_.inverted_context = true
    · rw [if_pos hcontext]
      exact ⟨_, rfl, fun h => Bool.noConfusion (hcontext.symm.trans h)⟩
    · rw [if_neg hcontext, Seen.upto h hat, List.filter_filter]
      refine ⟨_, mapM_eq_some_map fun s hs => ?_, fun _ => rfl⟩
      obtain ⟨hmem, hin⟩ := mem_filter.mp hs
      have hstart := (of_decide_eq_true (Bool.and_eq_true_iff.mp hin).1).1
      exact relative_eq_some hstart (hstart.trans (h.ascending.ordered s hmem))
  obtain ⟨highlights, hhighlights, hmatches⟩ := hhighlights
  unfold Render.json
  dsimp only
  rw [hslice]
  dsimp only [bind_eq_bind, bind_some]
  rw [hhighlights]
  dsimp only [bind_some]
  rw [hlf]
  refine ⟨_, rfl, congrArg (· + 1) hat.at_index, rfl, rfl, fun hcontext => ?_⟩
  exact congrArg some (hmatches hcontext)

theorem Seen.replace (h : Scene r groups spans) (hat : Seen r groups spans index at_) :
    ∃ records, r.replace at_ = some records := by
  obtain ⟨hlt, hle, hlen⟩ := hat.bounds h
  obtain ⟨lf, hlf⟩ := ends_line_isSome (Nat.zero_lt_of_lt (hlt.trans_le hle)) hlen
  obtain ⟨hstart, hstop⟩ := content_bounds r.bytes hlt
  have hslice : (Span.mk at_.range.start at_.content_end).slice? r.bytes = some _ :=
    Span.slice?_eq_some (hat.content_eq ▸ hstart) (hat.content_eq ▸ hstop.trans (hle.trans hlen))
  have hrange : at_.range.slice? r.bytes = some _ :=
    Span.slice?_eq_some hlt.le (hle.trans hlen)
  unfold Render.replace
  rw [hlf]
  dsimp only [bind_eq_bind, bind_some]
  rw [hslice]
  dsimp only [bind_some]
  split
  · rw [hrange]
    dsimp only [bind_some]
    refine region_total _ _ _ (Nat.zero_le _) ?_ (r.plan.grep.ascending _)
    show ((Span.mk at_.range.start at_.content_end).slice r.bytes).length
      ≤ (at_.range.slice r.bytes).length
    rw [Span.length_slice (hat.content_eq ▸ hstop.trans (hle.trans hlen)),
      Span.length_slice (hle.trans hlen)]
    exact Nat.sub_le_sub_right (hat.content_eq ▸ hstop) _
  · rw [Seen.upto h hat]
    refine region_total _ _ _ ?_ ?_ (h.ascending.sublist filter_sublist)
    · show at_.range.start ≤ if (!r.split) = true ∧ lf = true then at_.stop - 1 else at_.stop
      split
      · exact Nat.le_sub_one_of_lt (hlt.trans_le hle)
      · exact hlt.le.trans hle
    · show (if (!r.split) = true ∧ lf = true then at_.stop - 1 else at_.stop) ≤ r.bytes.length
      split
      · exact (Nat.sub_le _ _).trans hlen
      · exact hlen

theorem piece_eq_some {range part s : Span} (h : Render.piece range stop s = some part) :
    part = ⟨max s.start range.start, min s.stop stop⟩ ∧ part.start < part.stop := by
  unfold Render.piece at h
  dsimp only at h
  split at h
  · cases h
  · next hlt =>
    cases h
    exact ⟨rfl, not_le.mp hlt⟩

theorem piece_eq_none {range s : Span} (h : s.stop ≤ range.start ∨ stop ≤ s.start) :
    Render.piece range stop s = none := by
  unfold Render.piece
  dsimp only
  rw [if_pos]
  rcases h with h | h
  · exact (min_le_left _ _).trans (h.trans (le_max_right _ _))
  · exact (min_le_right _ _).trans (h.trans (le_max_left _ _))

/-- What is passed, or ahead, has nothing on the line. -/
theorem Seen.pieces (h : Scene r groups spans) (hat : Seen r groups spans index at_) :
    (r.upto at_.spans at_.range.stop).filterMap (Render.piece at_.range at_.content_end)
      = spans.filterMap (Render.piece at_.range (content r.bytes at_.range)) := by
  have hbounds := hat.bounds h
  rw [Seen.upto h hat, hat.content_eq]
  refine Span.filterMap_filter_of_none fun s _ hout => piece_eq_none ?_
  rw [Bool.and_eq_false_iff, Bool.not_eq_false'] at hout
  rcases hout with hahead | hpassed
  · refine .inr ((content_bounds r.bytes hbounds.1).2.trans ?_)
    by_contra hlt
    have hbelow : below r.bytes at_.range.stop s = true := below_iff.mpr (.inl (not_le.mp hlt))
    exact Bool.noConfusion (hahead.symm.trans hbelow)
  · rcases passed_iff.mp hpassed with hlt | ⟨-, heq⟩
    · exact .inl hlt.le
    · exact .inl heq.le

/-- The pieces of the line lie within it. -/
theorem Seen.piece_bounds (h : Scene r groups spans) (hat : Seen r groups spans index at_)
    {part s : Span} (hpart : Render.piece at_.range (content r.bytes at_.range) s = some part) :
    at_.range.start ≤ part.start ∧ part.start < part.stop ∧ part.stop ≤ r.bytes.length := by
  obtain ⟨hlt, hle, hlen⟩ := hat.bounds h
  obtain ⟨hpart, hne⟩ := piece_eq_some hpart
  refine ⟨hpart ▸ le_max_right _ _, hne, hpart ▸ (min_le_right _ _).trans ?_⟩
  exact (content_bounds r.bytes hlt).2.trans (hle.trans hlen)

/-- **The fragments of a line** that are not empty are the pieces of the matches on it. -/
theorem Seen.fragments (h : Scene r groups spans) (hat : Seen r groups spans index at_) :
    ∃ records, r.fragments at_ = some records ∧ records ≠ []
      ∧ (∀ record ∈ records, record.number = index + 1 ∧ record.kind = at_.kind
          ∧ record.fragment = true)
      ∧ records.filter (fun record => record.bytes ≠ [])
        = (spans.filterMap (Render.piece at_.range (content r.bytes at_.range))).map fun part =>
          Render.fragment at_ (part.slice r.bytes) := by
  generalize hparts : spans.filterMap (Render.piece at_.range (content r.bytes at_.range)) = parts
  have hbounds : ∀ part ∈ parts, part.start < part.stop ∧ part.stop ≤ r.bytes.length := by
    intro part hpart
    rw [← hparts] at hpart
    obtain ⟨s, -, hs⟩ := mem_filterMap.mp hpart
    exact (hat.piece_bounds h hs).2
  have hprinted : (parts.mapM fun (part : Span) =>
        (part.slice? r.bytes).map (Render.fragment at_))
      = some (parts.map fun part => Render.fragment at_ (part.slice r.bytes)) :=
    mapM_eq_some_map fun part hpart => by
      obtain ⟨hlt, hlen⟩ := hbounds part hpart
      rw [Span.slice?_eq_some hlt.le hlen]
      rfl
  have hfilter : (parts.map fun part => Render.fragment at_ (part.slice r.bytes)).filter
        (fun record => record.bytes ≠ [])
      = parts.map fun part => Render.fragment at_ (part.slice r.bytes) :=
    filter_eq_self.mpr fun record hrecord => by
      obtain ⟨part, hpart, rfl⟩ := List.mem_map.mp hrecord
      obtain ⟨hlt, hlen⟩ := hbounds part hpart
      refine decide_eq_true fun hnil => ?_
      have := Span.length_slice hlen
      rw [show part.slice r.bytes = [] from hnil, length_nil] at this
      omega
  unfold Render.fragments
  rw [Seen.pieces h hat, hparts]
  dsimp only [bind_eq_bind]
  rw [hprinted]
  dsimp only [bind_some]
  by_cases hnil : parts = []
  · subst hnil
    refine ⟨_, rfl, nofun, fun record hrecord => ?_, rfl⟩
    rw [mem_singleton.mp hrecord]
    exact ⟨congrArg (· + 1) hat.at_index, rfl, rfl⟩
  · rw [if_neg hnil]
    refine ⟨_, rfl, fun h => hnil (map_eq_nil_iff.mp h), fun record hrecord => ?_, hfilter⟩
    obtain ⟨part, -, rfl⟩ := List.mem_map.mp hrecord
    exact ⟨congrArg (· + 1) hat.at_index, rfl, rfl⟩

/-- **A plain record** is the line without its LF. -/
theorem Seen.plain (h : Scene r groups spans) (hat : Seen r groups spans index at_) :
    ∃ record, r.plain at_ = some [record] ∧ record.number = index + 1 ∧ record.kind = at_.kind
      ∧ record.fragment = false
      ∧ record.bytes = (Span.mk at_.range.start (content r.bytes at_.range)).slice r.bytes := by
  obtain ⟨hlt, hle, hlen⟩ := hat.bounds h
  obtain ⟨hstart, hstop⟩ := content_bounds r.bytes hlt
  have hslice : (Span.mk at_.range.start (content r.bytes at_.range)).slice? r.bytes = some _ :=
    Span.slice?_eq_some hstart (hstop.trans (hle.trans hlen))
  obtain ⟨relevant, hrelevant⟩ : ∃ relevant, r.relevant at_ = some relevant := by
    unfold Render.relevant
    split
    · rw [Span.slice?_eq_some hlt.le (hle.trans hlen)]
      exact ⟨_, rfl⟩
    · exact ⟨_, rfl⟩
  have hparts : ((relevant.filterMap (Render.piece at_.range at_.content_end)).mapM
      (Render.relative at_.range.start)) = some _ :=
    mapM_eq_some_map fun part hpart => by
      obtain ⟨s, -, hs⟩ := mem_filterMap.mp hpart
      rw [hat.content_eq] at hs
      obtain ⟨hle, hlt, -⟩ := hat.piece_bounds h hs
      exact relative_eq_some hle (hle.trans hlt.le)
  unfold Render.plain
  rw [hrelevant]
  dsimp only [bind_eq_bind, bind_some]
  rw [hparts]
  dsimp only [bind_some]
  rw [hat.content_eq, hslice]
  exact ⟨_, rfl, congrArg (· + 1) hat.at_index, rfl, rfl, rfl⟩

end Scene

end Ferret.Grep
