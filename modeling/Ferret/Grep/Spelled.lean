import Ferret.Grep.Replacement

/-!
# What replaced records spell

Every byte a region renders as is marked with whether an expansion brought it.
`spelled` is the region so replaced, as one text of marked bytes: the source
between the spans and, in the place of each span, its expansion. The records
of a region are that text, cut at its LFs where LFs split, and what they
highlight are the bytes so marked (`Shows`).

The invariant of a record writer relates it to the text pushed so far: the
lines before the last are emitted, and the last is pending.
-/

namespace Ferret.Grep

open Verify List

/-- Bytes marked with whether an expansion brought them. -/
abbrev Marked := List (UInt8 × Bool)

def mark (highlighted : Bool) (bytes : Bytes) : Marked := bytes.map fun byte => (byte, highlighted)

/-- **The highlights are the marked positions**: ascending, disjoint ranges, none of them empty. -/
structure Covers (highlights : List Span) (marks : List Bool) : Prop where
  nonempty : ∀ h ∈ highlights, h.start < h.stop
  within : ∀ h ∈ highlights, h.stop ≤ marks.length
  pairwise : highlights.Pairwise fun a b => a.stop ≤ b.start
  covers : ∀ i, marks[i]? = some true ↔ ∃ h ∈ highlights, h.start ≤ i ∧ i < h.stop

/-- A record shows a marked line. -/
def Shows (line : Line) (text : Marked) : Prop :=
  line.bytes = text.map Prod.fst
    ∧ ∃ highlights, line.highlights = some highlights ∧ Covers highlights (text.map Prod.snd)

theorem Shows.map_bytes {records : List Line} {texts : List Marked}
    (h : List.Forall₂ Shows records texts) :
    records.map Line.bytes = texts.map (List.map Prod.fst) := by
  induction h with
  | nil => rfl
  | cons h _ ih => rw [map_cons, map_cons, h.1, ih]

/-- The lines of a marked text, if LFs split it. -/
def lines (split : Bool) (text : Marked) : List Marked :=
  if split then text.splitOnP (fun b => b.1 == LF) else [text]

/-- The lines that are rendered: where LFs split, nothing follows a final LF. -/
def rendered (split : Bool) (text : Marked) : List Marked :=
  if split ∧ (lines split text).getLast? = some [] then (lines split text).dropLast
  else lines split text

/-- What takes the place of a span. -/
def expansion (plan : Plan) (replacement : Replacement) (source : Bytes) (span : Span) : Bytes :=
  match groups plan replacement source span with
  | some group => (replacement.expand group).flatten
  | none => []

/-- A region from `at_` on with its spans replaced. -/
def spelled (plan : Plan) (replacement : Replacement) (region : Region) (at_ : ℕ) :
    List Span → Marked
  | [] => mark false ((Span.mk at_ region.range.stop).slice region.source)
  | span :: spans =>
    mark false ((Span.mk at_ span.start).slice region.source)
      ++ mark true (expansion plan replacement region.source span)
      ++ spelled plan replacement region (min span.stop region.range.stop) spans

/-! ## Highlights -/

namespace Covers

variable {highlights : List Span} {marks : List Bool} {n : ℕ}

theorem nil : Covers [] [] where
  nonempty := nofun
  within := nofun
  pairwise := .nil
  covers := fun i => by simp

/-- Text without a highlight. -/
theorem append_false (h : Covers highlights marks) :
    Covers highlights (marks ++ List.replicate n false) where
  nonempty := h.nonempty
  within := fun s hs => (h.within s hs).trans (by simp)
  pairwise := h.pairwise
  covers := fun i => by
    rcases lt_or_ge i marks.length with hi | hi
    · rw [getElem?_append_left hi]
      exact h.covers i
    · refine iff_of_false (fun hmark => ?_) fun ⟨s, hs, _, hlt⟩ => ?_
      · rw [getElem?_append_right hi, getElem?_replicate] at hmark
        split at hmark <;> cases hmark
      · exact absurd (hlt.trans_le (h.within s hs)) (not_lt.mpr hi)

/-- The positions of new marked text. -/
theorem getElem?_append_true (i : ℕ) :
    (marks ++ List.replicate n true)[i]? = some true
      ↔ marks[i]? = some true ∨ marks.length ≤ i ∧ i < marks.length + n := by
  rcases lt_or_ge i marks.length with hi | hi
  · rw [getElem?_append_left hi]
    exact (or_iff_left fun h => absurd h.1 (not_le.mpr hi)).symm
  · rw [getElem?_append_right hi, getElem?_replicate, getElem?_eq_none hi]
    split
    · exact iff_of_true rfl (.inr ⟨hi, by omega⟩)
    · exact iff_of_false nofun (by rintro (h | h) <;> [cases h; omega])

/-- A new highlight after the others. -/
theorem append_true (h : Covers highlights marks) (hn : 0 < n) :
    Covers (highlights ++ [⟨marks.length, marks.length + n⟩]) (marks ++ List.replicate n true) where
  nonempty := fun s hs => by
    rcases mem_append.mp hs with hs | hs
    · exact h.nonempty s hs
    · rw [mem_singleton.mp hs]
      exact Nat.lt_add_of_pos_right hn
  within := fun s hs => by
    rw [length_append, length_replicate]
    rcases mem_append.mp hs with hs | hs
    · exact (h.within s hs).trans (le_self_add)
    · rw [mem_singleton.mp hs]
  pairwise := pairwise_append.mpr ⟨h.pairwise, pairwise_singleton _ _, fun s hs t ht => by
    rw [mem_singleton.mp ht]
    exact h.within s hs⟩
  covers := fun i => by
    rw [getElem?_append_true, h.covers]
    simp only [mem_append, mem_singleton, or_and_right, exists_or, exists_eq_left]

/-- A highlight that goes on where the last one ends. -/
theorem extend_last {last : Span} (h : Covers (highlights ++ [last]) marks)
    (hlast : last.stop = marks.length) :
    Covers (highlights ++ [{ last with stop := marks.length + n }])
      (marks ++ List.replicate n true) where
  nonempty := fun s hs => by
    rcases mem_append.mp hs with hs | hs
    · exact h.nonempty s (mem_append_left _ hs)
    · rw [mem_singleton.mp hs]
      exact (h.nonempty last (by simp)).trans_le (hlast.le.trans (le_self_add))
  within := fun s hs => by
    rw [length_append, length_replicate]
    rcases mem_append.mp hs with hs | hs
    · exact (h.within s (mem_append_left _ hs)).trans (le_self_add)
    · rw [mem_singleton.mp hs]
  pairwise := by
    obtain ⟨hinit, -, hbefore⟩ := pairwise_append.mp h.pairwise
    refine pairwise_append.mpr ⟨hinit, pairwise_singleton _ _, fun s hs t ht => ?_⟩
    rw [mem_singleton.mp ht]
    exact hbefore s hs last (mem_singleton_self _)
  covers := fun i => by
    have hstart := h.nonempty last (by simp)
    rw [getElem?_append_true, h.covers]
    simp only [mem_append, mem_singleton, or_and_right, exists_or, exists_eq_left, or_assoc]
    refine or_congr_right ?_
    rw [hlast] at hstart ⊢
    omega

end Covers

/-! ## Lines -/

section Lines

variable {split : Bool} {text pending piece : Marked} {done : List Marked} {highlighted : Bool}

theorem lines_nil (split : Bool) : lines split [] = [[]] := by
  unfold lines
  split <;> rfl

/-- Text without an LF goes on with the last line. -/
theorem lines_append (h : lines split text = done ++ [pending])
    (hpiece : split = true → ∀ b ∈ piece, b.1 ≠ LF) :
    lines split (text ++ piece) = done ++ [pending ++ piece] := by
  unfold lines at h ⊢
  cases split with
  | false =>
    have hsplit : [] ++ [text] = done ++ [pending] := h
    obtain ⟨rfl, hpending⟩ := append_inj' hsplit rfl
    cases hpending
    rfl
  | true =>
    rw [if_pos rfl] at h ⊢
    have hno : ∀ b ∈ piece, (b.1 == LF) = false := fun b hb =>
      beq_eq_false_iff_ne.mpr (hpiece rfl b hb)
    induction text generalizing done pending with
    | nil =>
      rw [splitOnP_nil] at h
      have hsplit : [] ++ [[]] = done ++ [pending] := h
      obtain ⟨rfl, hpending⟩ := append_inj' hsplit rfl
      cases hpending
      rw [nil_append, splitOnP_eq_singleton hno]
      rfl
    | cons b text ih =>
      obtain ⟨done', pending', hlines⟩ : ∃ done' pending',
          text.splitOnP (fun b => b.1 == LF) = done' ++ [pending'] :=
        ⟨_, _, (dropLast_concat_getLast (splitOnP_ne_nil _ _)).symm⟩
      rw [cons_append, splitOnP_cons_eq_if_modifyHead, ih hlines]
      rw [splitOnP_cons_eq_if_modifyHead, hlines] at h
      by_cases hb : (b.1 == LF) = true
      · rw [if_pos hb] at h ⊢
        have hsplit : [] :: done' ++ [pending'] = done ++ [pending] := h
        obtain ⟨rfl, hpending⟩ := append_inj' hsplit rfl
        cases hpending
        rfl
      · rw [if_neg hb] at h ⊢
        cases done' with
        | nil =>
          have hsplit : [] ++ [b :: pending'] = done ++ [pending] := h
          obtain ⟨rfl, hpending⟩ := append_inj' hsplit rfl
          cases hpending
          rfl
        | cons first done' =>
          have hsplit : (b :: first) :: done' ++ [pending'] = done ++ [pending] := h
          obtain ⟨rfl, hpending⟩ := append_inj' hsplit rfl
          cases hpending
          rfl

/-- An LF that splits ends the last line. -/
theorem lines_append_lf (h : lines true text = done ++ [pending]) :
    lines true (text ++ [(LF, highlighted)]) = done ++ [pending] ++ [[]] := by
  unfold lines at h ⊢
  rw [if_pos rfl] at h ⊢
  rw [splitOnP_append_cons (p := fun b => b.1 == LF) text [] (beq_self_eq_true LF), h, splitOnP_nil]

end Lines

/-! ## The record writer -/

namespace Records

/-- **The writer after a text is pushed**: the lines before the last are emitted, the last is
pending. -/
structure Inv (split : Bool) (text : Marked) (r : Records) : Prop where
  splits : r.split = split
  fragment : r.line.fragment = false
  shown : ∃ done pending, lines split text = done ++ [pending]
    ∧ List.Forall₂ Shows r.emitted done ∧ r.bytes = pending.map Prod.fst
    ∧ Covers r.highlights (pending.map Prod.snd)

variable {split : Bool} {text : Marked} {r : Records} {buffer : ℕ}

theorem inv_new {line : Line} (h : line.fragment = false) : Inv split [] (new line split) where
  splits := rfl
  fragment := h
  shown := ⟨[], [], lines_nil split, .nil, rfl, .nil⟩

/-- The highlights with the new one, for `n` marked bytes. -/
theorem covers_highlight {marks : List Bool} {n : ℕ} (h : Covers r.highlights marks) (hn : 0 < n) :
    Covers (r.highlight ⟨marks.length, marks.length + n⟩) (marks ++ List.replicate n true) := by
  unfold highlight
  split
  · next last hlast =>
    obtain ⟨_, hinit⟩ := getLast?_eq_some_iff.mp hlast
    split_ifs with hmerge
    · rw [hinit, dropLast_concat]
      exact Covers.extend_last (hinit ▸ h) hmerge.2
    · exact h.append_true hn
  · exact h.append_true hn

theorem Inv.extend (h : r.Inv split text) {piece : Bytes} (hpiece : split = true → LF ∉ piece)
    (highlighted : Bool) : (r.extend piece highlighted).Inv split (text ++ mark highlighted piece) := by
  obtain ⟨done, pending, hlines, hemitted, hbytes, hcovers⟩ := h.shown
  refine ⟨h.splits, h.fragment, done, pending ++ mark highlighted piece,
    lines_append hlines fun hsplit b hb => ?_, hemitted, ?_, ?_⟩
  · obtain ⟨_, hbyte, rfl⟩ := mem_map.mp hb
    exact fun heq => hpiece hsplit (heq ▸ hbyte)
  · rw [map_append, mark, map_map]
    show r.bytes ++ piece = _
    rw [hbytes]
    congr 1
    exact (map_id _).symm
  · have hmarks : (mark highlighted piece).map Prod.snd = List.replicate piece.length highlighted := by
      rw [mark, map_map]
      exact map_const' ..
    have hstart : r.bytes.length = (pending.map Prod.snd).length := by
      rw [hbytes, length_map, length_map]
    rw [map_append, hmarks]
    show Covers (if highlighted = true ∧ piece ≠ [] ∧ r.line.fragment = false then
      r.highlight ⟨r.bytes.length, (r.bytes ++ piece).length⟩ else r.highlights) _
    rw [length_append, hstart]
    cases highlighted with
    | false => exact hcovers.append_false
    | true =>
      by_cases hnil : piece = []
      · rw [if_neg fun h => h.2.1 hnil, hnil]
        simpa using hcovers
      · rw [if_pos ⟨rfl, hnil, h.fragment⟩]
        exact covers_highlight hcovers (length_pos_of_ne_nil hnil)

/-- The pending record shows the pending line. -/
theorem shows_record {pending : Marked} (hfragment : r.line.fragment = false)
    (hbytes : r.bytes = pending.map Prod.fst) (hcovers : Covers r.highlights (pending.map Prod.snd)) :
    Shows r.record pending := by
  refine ⟨hbytes, r.highlights, ?_, hcovers⟩
  show (if r.line.fragment = true then none else some r.highlights) = some r.highlights
  rw [hfragment]
  rfl

theorem Inv.newline (h : r.Inv true text) (highlighted : Bool) :
    ((r.flush true).skip 1).Inv true (text ++ [(LF, highlighted)]) := by
  obtain ⟨done, pending, hlines, hemitted, hbytes, hcovers⟩ := h.shown
  unfold flush
  rw [if_pos (.inl rfl)]
  exact ⟨h.splits, h.fragment, done ++ [pending], [], lines_append_lf hlines,
    rel_append hemitted (.cons (shows_record h.fragment hbytes hcovers) .nil), rfl, .nil⟩

theorem mark_append (highlighted : Bool) (u v : Bytes) :
    mark highlighted (u ++ v) = mark highlighted u ++ mark highlighted v := map_append

theorem Inv.pushFrom (hbuffer : 0 < buffer) (highlighted : Bool) {fuel : ℕ} {bytes : Bytes}
    (hfuel : bytes.length ≤ fuel) (h : r.Inv split text) :
    (pushFrom buffer highlighted fuel bytes r).Inv split (text ++ mark highlighted bytes) := by
  induction fuel generalizing bytes r text with
  | zero =>
    obtain rfl := length_eq_zero_iff.mp (Nat.le_zero.mp hfuel)
    simpa [Records.pushFrom, mark] using h
  | succ fuel ih =>
    rw [Records.pushFrom]
    by_cases hnil : bytes = []
    · subst hnil
      simpa [mark] using h
    rw [if_neg hnil]
    dsimp only
    have hpos : 0 < bytes.length := length_pos_of_ne_nil hnil
    cases hnewline : (if r.split = true then (bytes.take buffer).idxOf? LF else none) with
    | some _ =>
      have hsplit : split = true := by
        rw [← h.splits]
        by_contra hno
        rw [if_neg hno] at hnewline
        cases hnewline
      subst hsplit
      rw [h.splits, if_pos rfl] at hnewline
      obtain ⟨u, v, hchunk, rfl, hu⟩ := exists_of_idxOf? hnewline
      have hbytes : bytes = u ++ LF :: (v ++ bytes.drop buffer) := by
        conv_lhs => rw [← take_append_drop buffer bytes, hchunk]
        simp
      have hdrop : bytes.drop (u.length + 1) = v ++ bytes.drop buffer := by
        conv_lhs => rw [hbytes, drop_length_add_append]
        rfl
      have htake : (bytes.take buffer).take u.length = u := by
        rw [hchunk, take_left]
      have hmark : text ++ mark highlighted bytes
          = text ++ mark highlighted u ++ [(LF, highlighted)]
            ++ mark highlighted (v ++ bytes.drop buffer) := by
        conv_lhs => rw [hbytes, mark_append]
        simp [mark]
      dsimp only
      rw [htake, hdrop, hmark]
      refine ih ?_ (((h.extend (fun _ => hu) highlighted)).newline highlighted)
      rw [hbytes, length_append, length_cons] at hfuel
      omega
    | none =>
      have hno : split = true → LF ∉ bytes.take buffer := fun hsplit => by
        rw [h.splits, if_pos hsplit] at hnewline
        exact idxOf?_eq_none_iff.mp hnewline
      have hrest : (bytes.drop (bytes.take buffer).length).length ≤ fuel := by
        rw [length_drop, length_take]
        omega
      have hmark : text ++ mark highlighted bytes = text ++ mark highlighted (bytes.take buffer)
          ++ mark highlighted (bytes.drop (bytes.take buffer).length) := by
        rw [append_assoc, ← mark_append]
        congr 2
        rw [length_take]
        rcases le_total buffer bytes.length with hle | hle
        · rw [min_eq_left hle, take_append_drop]
        · rw [min_eq_right hle, take_of_length_le hle, drop_length, append_nil]
      dsimp only
      rw [hmark]
      exact ih hrest (h.extend hno highlighted)

/-- **Pushing bytes** appends them to the text, however they are cut into chunks. -/
theorem Inv.push (h : r.Inv split text) (hbuffer : 0 < buffer) (bytes : Bytes)
    (highlighted : Bool) :
    (r.push buffer bytes highlighted).Inv split (text ++ mark highlighted bytes) :=
  h.pushFrom hbuffer highlighted le_rfl

theorem Inv.push_all (h : r.Inv split text) (hbuffer : 0 < buffer) (pieces : List Bytes) :
    (pieces.foldl (fun r piece => r.push buffer piece true) r).Inv split
      (text ++ mark true pieces.flatten) := by
  induction pieces generalizing r text with
  | nil => simpa [mark] using h
  | cons piece pieces ih =>
    rw [foldl_cons, flatten_cons, mark_append, ← append_assoc]
    exact ih (h.push hbuffer piece true)

/-- **The last flush** leaves the lines that are rendered emitted. -/
theorem Inv.finish (h : r.Inv split text) :
    List.Forall₂ Shows (r.flush (!split)).emitted (rendered split text) := by
  obtain ⟨done, pending, hlines, hemitted, hbytes, hcovers⟩ := h.shown
  have hshows : List.Forall₂ Shows (r.emitted ++ [r.record]) (done ++ [pending]) :=
    rel_append hemitted (.cons (shows_record h.fragment hbytes hcovers) .nil)
  unfold flush rendered
  rw [hlines, getLast?_concat, dropLast_concat]
  cases split with
  | false =>
    rw [if_pos (.inl rfl), if_neg fun h => Bool.false_ne_true h.1]
    exact hshows
  | true =>
    by_cases hpending : pending = []
    · rw [if_neg, if_pos ⟨rfl, congrArg some hpending⟩]
      · exact hemitted
      · rintro (h | h)
        · exact Bool.false_ne_true h
        · exact h (by rw [hbytes, hpending]; rfl)
    · rw [if_pos, if_neg fun h => hpending (Option.some.inj h.2)]
      · exact hshows
      · exact .inr fun h => hpending (map_eq_nil_iff.mp (hbytes.symm.trans h))

end Records

/-! ## The lines of a text, joined -/

theorem map_lines (text : Marked) :
    (text.splitOnP fun b => b.1 == LF).map (List.map Prod.fst)
      = (text.map Prod.fst).splitOn LF := by
  induction text with
  | nil => rfl
  | cons b text ih =>
    rw [splitOnP_cons_eq_if_modifyHead, map_cons, splitOn_cons_eq_if_modifyHead, ← ih]
    split
    · rfl
    · cases text.splitOnP fun b => b.1 == LF <;> rfl

theorem intercalate_lines (split : Bool) (text : Marked) :
    [LF].intercalate ((lines split text).map (List.map Prod.fst)) = text.map Prod.fst := by
  unfold lines
  cases split with
  | false => exact intercalate_singleton
  | true => rw [if_pos rfl, map_lines, intercalate_splitOn]

theorem intercalate_concat_nil {ls : List Bytes} (h : ls ≠ []) :
    [LF].intercalate (ls ++ [[]]) = [LF].intercalate ls ++ [LF] := by
  induction ls with
  | nil => exact absurd rfl h
  | cons l ls ih =>
    cases ls with
    | nil => simp
    | cons l' ls =>
      have hne : l' :: ls ≠ [] := nofun
      rw [cons_append, intercalate_cons_of_ne_nil (append_ne_nil_of_left_ne_nil hne _),
        ih hne, intercalate_cons_of_ne_nil hne, append_assoc _ _ [LF]]

/-- The rendered lines, joined, are the text, or lack the LF it ends with. -/
theorem intercalate_rendered (split : Bool) (text : Marked) :
    let joined := [LF].intercalate ((rendered split text).map (List.map Prod.fst))
    joined = text.map Prod.fst ∨ split = true ∧ joined ++ [LF] = text.map Prod.fst := by
  have hall := intercalate_lines split text
  unfold rendered
  split_ifs with hlast
  · obtain ⟨init, hinit⟩ := getLast?_eq_some_iff.mp hlast.2
    rw [hinit, dropLast_concat]
    rw [hinit, map_append, map_singleton, map_nil] at hall
    cases init with
    | nil => exact .inl hall
    | cons _ init =>
      exact .inr ⟨hlast.1, by rw [← hall, intercalate_concat_nil (by simp)]⟩
  · exact .inl hall

/-! ## Regions -/

section Region

variable {plan : Plan} {replacement : Replacement} {buffer : ℕ} {r : Region} {text : Marked}

theorem Records.Inv.setMerge {split : Bool} {out : Records} (h : out.Inv split text) (merge : Bool) :
    ({ out with merge := merge } : Records).Inv split text :=
  ⟨h.splits, h.fragment, h.shown⟩

/-- A span of the region is copied up to and expanded. -/
theorem expand_span_inv {x : Expanding} (hbuffer : 0 < buffer) {span : Span} (howns : r.owns span = true)
    (hgroups : (groups plan replacement r.source span).isSome = true) (hat : x.at_ ≤ span.start)
    (hspan : span.start ≤ span.stop) (hlen : span.stop ≤ r.source.length)
    (hx : x.output.Inv (whole plan) text) :
    ∃ y, expand_span plan replacement buffer r false x span = some y
      ∧ y.output.Inv (whole plan) (text ++ mark false ((Span.mk x.at_ span.start).slice r.source)
        ++ mark true (expansion plan replacement r.source span))
      ∧ y.at_ = min span.stop r.range.stop := by
  obtain ⟨_, hgroup⟩ := Option.isSome_iff_exists.mp hgroups
  unfold expand_span expansion
  rw [if_pos howns, hgroup, Span.slice?_eq_some hat (hspan.trans hlen), Span.slice?_eq_some hspan hlen]
  exact ⟨_, rfl, ((hx.push hbuffer _ false).setMerge _).push_all hbuffer _, rfl⟩

/-- The whole region. -/
theorem foldlM_expand_span {x : Expanding} (hbuffer : 0 < buffer) {spans : List Span}
    (hspans : Span.Ascending r.source.length spans)
    (hgroups : ∀ span ∈ spans, (groups plan replacement r.source span).isSome = true)
    (hat : ∀ span ∈ spans, r.owns span = true → x.at_ ≤ span.start) (hstop : x.at_ ≤ r.range.stop)
    (hx : x.output.Inv (whole plan) text) :
    ∃ y, spans.foldlM (expand_span plan replacement buffer r false) x = some y
      ∧ y.at_ ≤ r.range.stop
      ∧ (y.output.push buffer ((Span.mk y.at_ r.range.stop).slice r.source) false).Inv (whole plan)
          (text ++ spelled plan replacement r x.at_ (spans.filter r.owns)) := by
  induction spans generalizing x text with
  | nil => exact ⟨x, rfl, hstop, hx.push hbuffer _ false⟩
  | cons span spans ih =>
    have hself : span ∈ span :: spans := .head _
    have hrest := fun s hs => hgroups s (mem_cons_of_mem span hs)
    rw [foldlM_cons]
    by_cases howns : r.owns span = true
    · obtain ⟨y, hy, hinv, hyat⟩ := expand_span_inv hbuffer howns (hgroups span hself)
        (hat span hself howns) (hspans.ordered span hself) (hspans.within span hself) hx
      obtain ⟨z, hz, hzstop, hzinv⟩ := ih hspans.tail hrest
        (fun s hs _ => hyat ▸ (min_le_left _ _).trans (hspans.head_le s hs))
        (hyat ▸ min_le_right _ _) hinv
      refine ⟨z, by rw [hy]; exact hz, hzstop, ?_⟩
      rw [hyat] at hzinv
      rw [filter_cons_of_pos howns, spelled, ← append_assoc, ← append_assoc]
      exact hzinv
    · have hskip : expand_span plan replacement buffer r false x span = some x := if_neg howns
      rw [hskip, filter_cons_of_neg howns]
      exact ih hspans.tail hrest (fun s hs => hat s (.tail _ hs)) hstop hx

/-- **A region's records spell it with its spans replaced.** Without `-o`, whatever the chunks, no
slice is out of range, and the records are the lines of the replaced text if the pattern can match
an LF, and else one record is the whole text; joined by LFs they are the text, except for an LF that
ends it where LFs split. The highlights of a record ascend without overlap, lie within its bytes,
and are exactly the bytes that expansions brought. -/
theorem region_spells (hreplacement : plan.replacement = some replacement) (hbuffer : 0 < buffer)
    (hrange : r.range.start ≤ r.range.stop) (hstop : r.range.stop ≤ r.source.length)
    {spans : List Span} (hspans : Span.Ascending r.source.length spans)
    (hcaptures : ∀ span ∈ spans, replacement.uses_groups = true →
      (plan.grep.captures_at r.source span.start).isSome = true)
    {line : Line} (honly : only plan line = false) :
    let text := spelled plan replacement r r.range.start (spans.filter r.owns)
    ∃ records, region plan buffer r spans line = some records
      ∧ List.Forall₂ Shows records (rendered (whole plan) text)
      ∧ ([LF].intercalate (records.map Line.bytes) = text.map Prod.fst
        ∨ whole plan = true
          ∧ [LF].intercalate (records.map Line.bytes) ++ [LF] = text.map Prod.fst) := by
  have hgroups : ∀ span ∈ spans, (groups plan replacement r.source span).isSome = true := by
    intro span hspan
    unfold groups
    split
    · next huses => rw [Option.isSome_map, hcaptures span hspan huses]
    · rfl
  have hnew : (Records.new { line with fragment := false } (whole plan)).Inv (whole plan) [] :=
    Records.inv_new rfl
  let x : Expanding := ⟨Records.new { line with fragment := false } (whole plan), r.range.start, false⟩
  obtain ⟨y, hy, hystop, hinv⟩ := foldlM_expand_span (x := x) hbuffer hspans
    hgroups (fun span _ howns => Region.start_le_of_owns howns) hrange hnew
  have htail : (Span.mk y.at_ r.range.stop).slice? r.source
      = some ((Span.mk y.at_ r.range.stop).slice r.source) := Span.slice?_eq_some hystop hstop
  have hregion : region plan buffer r spans line
      = some ((y.output.push buffer ((Span.mk y.at_ r.range.stop).slice r.source) false).flush
        (!whole plan)).emitted := by
    unfold region
    rw [hreplacement]
    dsimp only
    rw [honly]
    show (spans.foldlM (expand_span plan replacement buffer r false) x).bind _ = _
    rw [hy]
    dsimp only [Option.bind_eq_bind, Option.bind_some]
    rw [if_neg Bool.false_ne_true, htail]
    rfl
  have hshows := hinv.finish
  refine ⟨_, hregion, hshows, ?_⟩
  rw [Shows.map_bytes hshows]
  exact intercalate_rendered _ _

/-- Swapping a letter and the LF that follows it, in chunks of one byte: the LF of the expansion
splits, and both letters beside it are highlighted. -/
theorem region_spells_swap :
    let pattern : Pattern := {
      starts := fun text i => text.drop i == [98, 10, 99]
      is_line_local := false
      local_starts := Bool.noConfusion
      excludes_lf := false
      spans := fun text => if text = [97, 98, 10, 99] then [⟨1, 3⟩] else []
      ascending := fun text => by
        split_ifs with h
        · rw [h]
          exact ⟨by decide, by decide, List.pairwise_singleton _ _⟩
        · exact ⟨by simp, by simp, .nil⟩
      excludes := Bool.noConfusion
      captures_at := fun text _ => if text = [97, 98, 10, 99] then
        some fun index => [⟨1, 3⟩, ⟨1, 2⟩, ⟨2, 3⟩][index]? else none }
    let plan : Plan := {
      grep := pattern, line_number := false, quiet := false, output := .lines
      only_matching := false, invert := false, max_count := none, before := 0, after := 0
      text := false, multiline := true, json := false
      replacement := some ⟨[.capture 1, .capture 2, .capture 1]⟩ }
    let line : Line := ⟨0, none, false, 1, [], .selected, false, none⟩
    ∃ records, region plan 1 ⟨[97, 98, 10, 99], ⟨0, 4⟩⟩ [⟨1, 3⟩] line = some records
      ∧ List.Forall₂ Shows records [[(97, false), (98, true)], [(98, true), (99, false)]] := by
  intro pattern plan line
  have hspans : Span.Ascending 4 [⟨1, 3⟩] := ⟨by decide, by decide, pairwise_singleton _ _⟩
  obtain ⟨records, hregion, hshows, -⟩ := region_spells (r := ⟨[97, 98, 10, 99], ⟨0, 4⟩⟩)
    (show plan.replacement = _ from rfl) (show 0 < 1 by decide) (by decide) (by decide) hspans
    (by simp [plan, pattern]) (show only plan line = false from rfl)
  exact ⟨records, hregion, hshows⟩

/-- Where LFs split, no record follows a final LF; and a span that starts at a region's end is the
region's even if it is not empty. -/
theorem region_ends :
    let pattern : Pattern := {
      starts := fun _ _ => false
      is_line_local := false
      local_starts := Bool.noConfusion
      excludes_lf := false
      spans := fun _ => []
      ascending := fun _ => ⟨by simp, by simp, .nil⟩
      excludes := Bool.noConfusion
      captures_at := fun _ _ => none }
    let plan : Plan := {
      grep := pattern, line_number := false, quiet := false, output := .lines
      only_matching := false, invert := false, max_count := none, before := 0, after := 0
      text := false, multiline := true, json := false
      replacement := some ⟨[.literal [120]]⟩ }
    let inverted : Plan := { plan with invert := true }
    let line : Line := ⟨0, none, false, 1, [], .selected, false, none⟩
    (region plan BUFFER ⟨[97, 10], ⟨0, 2⟩⟩ [] line).map (·.map Line.bytes) = some [[97]]
      ∧ [LF].intercalate [[97]] ≠ (spelled plan ⟨[.literal [120]]⟩ ⟨[97, 10], ⟨0, 2⟩⟩ 0 []).map Prod.fst
      ∧ (region inverted BUFFER ⟨[97, 10], ⟨0, 1⟩⟩ [⟨1, 2⟩] line).map (·.map Line.bytes)
        = some [[97, 120]] := by
  decide

end Region

end Ferret.Grep
