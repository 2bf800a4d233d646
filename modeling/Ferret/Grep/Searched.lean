import Ferret.Grep.RenderedOnce

/-!
# A multiline search, from document to records

What a search selects and what it renders, for every document: the groups, the
windows around them, every line of which is rendered once, in order, and the
matches taken, each reported once.
-/

namespace Ferret.Grep

open Verify List Option

/-- What is searched of a document: up to a NUL, after a BOM. -/
def searchedText (plan : Plan) (document : Bytes) : Bytes :=
  strip_bom (read_all plan.text document).1

/-- What a match has on line `k` without its LF, if that is not empty, with the line's number. -/
def pieceOn (bytes : Bytes) (lines : List Span) (k : ℕ) (span : Span) : Option (ℕ × Bytes) :=
  lines[k]?.bind fun line =>
    let part : Span := ⟨max span.start line.start, min span.stop (content bytes line)⟩
    if part.start < part.stop then some (k + 1, part.slice bytes) else none

/-- The fragments among records, with their line numbers: an empty one prints nothing. -/
def printed (records : List Line) : List (ℕ × Bytes) :=
  (records.filter fun record => record.fragment && record.bytes ≠ []).map fun record =>
    (record.number, record.bytes)

/-- The matches a record highlights, as ranges of the text. -/
def reported (record : Line) : List Span :=
  (record.highlights.getD []).map fun span => ⟨span.start + record.offset, span.stop + record.offset⟩

/-- **What is rendered** of a selection: every line of a window once, in order, as selected or as
context. Without a replacement a record is of its round's first line; plain records are the lines;
the fragments of `-o` are the pieces of the matches, line by line; JSON reports each match once. -/
structure Renders (plan : Plan) (bytes : Bytes) (lines : List Span) (s : Selection)
    (steps : List Render.Step) : Prop where
  once : Span.positions (steps.map Render.Step.lines)
    = (List.range lines.length).filter fun k =>
        decide (Span.Union (windows plan s.groups lines.length) k)
  onward : ∀ step ∈ steps, step.lines.start < step.lines.stop
  kinds : plan.json = true ∨ plan.replacement = none → ∀ step ∈ steps, step.records ≠ []
    ∧ ∀ record ∈ step.records, record.number = step.lines.start + 1
      ∧ (record.kind = .selected ↔ Span.Union s.groups step.lines.start)
  single : plan.json = false → plan.replacement = none →
    ∀ step ∈ steps, step.lines.stop = step.lines.start + 1
  plain : plan.json = false → plan.replacement = none → ∀ step ∈ steps,
    plan.only_matching = false ∨ plan.invert = true ∨ ¬ Span.Union s.groups step.lines.start →
    ∃ record line, step.records = [record] ∧ lines[step.lines.start]? = some line
      ∧ record.bytes = (Span.mk line.start (content bytes line)).slice bytes
  fragments : plan.json = false → plan.replacement = none → plan.only_matching = true →
    plan.invert = false → printed (steps.flatMap Render.Step.records)
      = (List.range lines.length).flatMap fun k => s.spans.filterMap (pieceOn bytes lines k)
  json : plan.json = true → plan.invert = false →
    (steps.flatMap Render.Step.records).flatMap reported = s.spans

variable {k : ℕ}

section Rounds

variable {r : Render} {groups spans : List Span} {step : Render.Step}

theorem Round.kinds (h : Scene r groups spans) (hround : Round r groups spans step)
    (hplan : r.plan.json = true ∨ r.plan.replacement = none) :
    step.records ≠ [] ∧ ∀ record ∈ step.records, record.number = step.lines.start + 1
      ∧ (record.kind = .selected ↔ Span.Union groups step.lines.start) := by
  obtain ⟨at_, hat, hrecords⟩ := hround
  have hkind : at_.kind = .selected ↔ Span.Union groups step.lines.start := by
    rw [← hat.selected, hat.kind]
    cases at_.selected <;> simp
  unfold Render.records at hrecords
  split_ifs at hrecords with hjson hreplacement honly
  · obtain ⟨record, hrecord, hnumber, hk, -⟩ := hat.json h
    rw [hrecord] at hrecords
    obtain ⟨hrecords, -⟩ := Prod.mk.inj (Option.some.inj hrecords)
    rw [← hrecords]
    exact ⟨nofun, forall_mem_singleton.mpr ⟨hnumber, hk ▸ hkind⟩⟩
  · rcases hplan with hplan | hplan
    · exact absurd hplan hjson
    · rw [hplan] at hreplacement
      cases hreplacement
  · obtain ⟨_, hfragments, hne, hall, -⟩ := hat.fragments h
    rw [hfragments] at hrecords
    obtain ⟨hrecords, -⟩ := Prod.mk.inj (Option.some.inj hrecords)
    rw [← hrecords]
    exact ⟨hne, fun t ht => ⟨(hall t ht).1, (hall t ht).2.1 ▸ hkind⟩⟩
  · obtain ⟨record, hrecord, hnumber, hk, -⟩ := hat.plain h
    rw [hrecord] at hrecords
    obtain ⟨hrecords, -⟩ := Prod.mk.inj (Option.some.inj hrecords)
    rw [← hrecords]
    exact ⟨nofun, forall_mem_singleton.mpr ⟨hnumber, hk ▸ hkind⟩⟩

/-- Without JSON and replacement a round is a line: its fragments, or the line. -/
theorem Round.line (hround : Round r groups spans step)
    (hjson : r.plan.json = false) (hreplacement : r.plan.replacement = none) :
    step.lines.stop = step.lines.start + 1
      ∧ (((r.plan.only_matching = true ∧ r.plan.invert = false
            ∧ Span.Union groups step.lines.start)
          ∧ ∃ at_, Seen r groups spans step.lines.start at_
            ∧ r.fragments at_ = some step.records)
        ∨ (¬ (r.plan.only_matching = true ∧ r.plan.invert = false
            ∧ Span.Union groups step.lines.start)
          ∧ ∃ at_, Seen r groups spans step.lines.start at_
            ∧ r.plain at_ = some step.records)) := by
  obtain ⟨at_, hat, hrecords⟩ := hround
  unfold Render.records at hrecords
  rw [if_neg (by rw [hjson]; exact Bool.false_ne_true),
    if_neg (by rw [hreplacement]; exact nofun)] at hrecords
  split_ifs at hrecords with honly
  · obtain ⟨records, hfragments, hpair⟩ := map_eq_some_iff.mp hrecords
    obtain ⟨hrec, hstop⟩ := Prod.mk.inj hpair
    refine ⟨hstop.symm.trans (congrArg (· + 1) hat.at_index),
      .inl ⟨⟨honly.1, by simpa using honly.2.2, hat.selected.mp honly.2.1⟩, at_, hat, hrec ▸ hfragments⟩⟩
  · obtain ⟨records, hplain, hpair⟩ := map_eq_some_iff.mp hrecords
    obtain ⟨hrec, hstop⟩ := Prod.mk.inj hpair
    refine ⟨hstop.symm.trans (congrArg (· + 1) hat.at_index),
      .inr ⟨fun hno => honly ⟨hno.1, hat.selected.mpr hno.2.2, by rw [hno.2.1]; rfl⟩, at_, hat,
        hrec ▸ hplain⟩⟩

theorem pieceOn_eq {bytes : Bytes} {lines : List Span} {line : Span} (hk : lines[k]? = some line)
    (s : Span) : pieceOn bytes lines k s
      = (Render.piece line (content bytes line) s).map fun part => (k + 1, part.slice bytes) := by
  unfold pieceOn Render.piece
  rw [hk]
  dsimp only [bind_some]
  by_cases hlt : max s.start line.start < min s.stop (content bytes line)
  · rw [if_pos hlt, if_neg (not_le.mpr hlt)]
    rfl
  · rw [if_neg hlt, if_pos (not_lt.mp hlt)]
    rfl

/-- A line that no match touches has no pieces. -/
theorem filterMap_pieceOn_eq_nil (h : Scene r groups spans) (hk : ¬ Span.Union groups k) :
    spans.filterMap (pieceOn r.bytes r.lines k) = [] := by
  refine filterMap_eq_nil_iff.mpr fun s hs => ?_
  cases hline : r.lines[k]? with
  | none => rw [pieceOn, hline]; rfl
  | some line =>
    rw [pieceOn_eq hline, map_eq_none_iff]
    obtain ⟨-, hlt, -⟩ := h.lines.tiles.bounds hline
    have hcontent := content_bounds r.bytes hlt
    refine eq_none_iff_forall_ne_some.mpr fun part hpart => hk (h.covered s hs k ?_)
    obtain ⟨hpart, hne⟩ := piece_eq_some hpart
    rw [hpart] at hne
    dsimp only at hne
    exact ⟨line, hline, (touches_of_lt (by omega)).mpr (by omega)⟩

/-- The fragments of a round are the pieces on its line. -/
theorem Round.printed (h : Scene r groups spans) (hround : Round r groups spans step)
    (hjson : r.plan.json = false) (hreplacement : r.plan.replacement = none)
    (honly : r.plan.only_matching = true) (hinvert : r.plan.invert = false) :
    Grep.printed step.records = spans.filterMap (pieceOn r.bytes r.lines step.lines.start) := by
  obtain ⟨-, ⟨hselected, at_, hat, hfragments⟩ | ⟨hselected, at_, hat, hplain⟩⟩ :=
    hround.line hjson hreplacement
  · obtain ⟨_, hrecords, -, hall, hfilter⟩ := hat.fragments h
    obtain rfl := Option.some.inj (hrecords.symm.trans hfragments)
    have hfilter' : step.records.filter (fun record => record.fragment && record.bytes ≠ [])
        = step.records.filter fun record => record.bytes ≠ [] :=
      filter_congr fun record hrecord => by rw [(hall record hrecord).2.2, Bool.true_and]
    unfold Grep.printed
    rw [hfilter', hfilter, List.map_map, map_filterMap]
    refine filterMap_congr fun s _ => ?_
    rw [pieceOn_eq hat.range]
    congr 1
    funext part
    exact congrArg (fun k => (k + 1, part.slice r.bytes)) hat.at_index
  · obtain ⟨record, hrecord, -, -, hfragment, -⟩ := hat.plain h
    rw [← Option.some.inj (hrecord.symm.trans hplain),
      filterMap_pieceOn_eq_nil h fun hu => hselected ⟨honly, hinvert, hu⟩]
    unfold Grep.printed
    rw [filter_cons_of_neg (by rw [hfragment]; exact Bool.false_ne_true)]
    rfl

/-- A JSON record reports the matches that start on its lines. -/
theorem Round.reported (h : Scene r groups spans) (hround : Round r groups spans step)
    (hjson : r.plan.json = true) (hinvert : r.plan.invert = false) :
    step.records.flatMap Grep.reported
      = spans.filter fun s => decide (step.lines.Has (headline r.lines s)) := by
  obtain ⟨at_, hat, hrecords⟩ := hround
  obtain ⟨_, hrecord, -, -, hoffset, hhighlights⟩ := hat.json h
  unfold Render.records at hrecords
  rw [if_pos hjson, hrecord] at hrecords
  obtain ⟨hrecords, hstop⟩ := Prod.mk.inj (Option.some.inj hrecords)
  have hcontext : at_.inverted_context = false := by
    by_contra hcontext
    exact Bool.noConfusion (hinvert.symm.trans (hat.context (eq_true_of_ne_false hcontext)))
  rw [← hrecords, flatMap_singleton, Grep.reported, hhighlights hcontext, hoffset,
    getD_some, List.map_map]
  have hshift : ∀ s ∈ spans.filter (fun s => decide (at_.range.start ≤ s.start ∧ s.stop ≤ at_.stop)
        && (below r.bytes at_.stop s && !passed at_.range.start s)),
      Span.mk (s.start - at_.range.start + at_.range.start)
        (s.stop - at_.range.start + at_.range.start) = s := fun s hs => by
    obtain ⟨hmem, hin⟩ := mem_filter.mp hs
    have hstart := (of_decide_eq_true (Bool.and_eq_true_iff.mp hin).1).1
    have hordered := h.ascending.ordered s hmem
    rw [Nat.sub_add_cancel hstart, Nat.sub_add_cancel (hstart.trans hordered)]
  refine (map_congr_left hshift).trans ((List.map_id' _).trans ?_)
  refine filter_congr fun s hs => ?_
  rw [Bool.eq_iff_iff, hat.reported_iff h hinvert hs, decide_eq_true_eq, hstop]

/-- A match touches the line it starts on. -/
theorem Scene.touched_headline (h : Scene r groups spans) {s : Span} (hs : s ∈ spans) :
    Touched r.bytes r.lines s (headline r.lines s) := by
  obtain ⟨k, htouched⟩ := h.on_lines s hs
  have hne : r.lines ≠ [] := fun hnil => by
    have := htouched.lt_length
    rw [hnil] at this
    exact Nat.not_lt_zero k this
  have hlen := h.ascending.within s hs
  have hpast : past_lines r.bytes s = false :=
    Bool.eq_false_iff.mpr fun hpast => not_touched_of_past h.lines hlen hpast k htouched
  obtain ⟨_, _, hhead, -, hle, -, hiff⟩ :=
    touched_iff h.lines hne (h.ascending.ordered s hs) hlen hpast
  rw [line_at_eq_some hne] at hhead
  cases hhead
  exact (hiff _).mpr ⟨le_rfl, hle⟩

end Rounds

/-! ## The windows of a selection -/

theorem printed_flatMap (steps : List Render.Step) : printed (steps.flatMap Render.Step.records)
    = steps.flatMap fun step => printed step.records := by
  unfold printed
  rw [filter_flatMap, map_flatMap]

theorem flatMap_positions {α : Type} (f : ℕ → List α) (steps : List Render.Step) :
    (Span.positions (steps.map Render.Step.lines)).flatMap f
      = steps.flatMap fun step =>
        (List.range' step.lines.start (step.lines.stop - step.lines.start)).flatMap f := by
  unfold Span.positions
  rw [flatMap_map, flatMap_assoc]

/-- Positions that give nothing may be left out. -/
theorem flatMap_filter_of_nil {α β : Type} {P : α → Bool} {f : α → List β} {l : List α}
    (h : ∀ a ∈ l, P a = false → f a = []) : (l.filter P).flatMap f = l.flatMap f := by
  induction l with
  | nil => rfl
  | cons a l ih =>
    have ih := ih fun b hb => h b (.tail _ hb)
    by_cases ha : P a = true
    · rw [filter_cons_of_pos ha, flatMap_cons, flatMap_cons, ih]
    · rw [filter_cons_of_neg ha, ih, flatMap_cons,
        h a (.head _) (Bool.eq_false_iff.mpr ha), nil_append]

variable {lines earlier spans accepted : List Span}

theorem Accepts.sublist {plan : Plan} {bytes : Bytes}
    (h : Accepts plan bytes lines earlier spans accepted) : accepted.Sublist spans := by
  induction h with
  | nil => exact .slnil
  | stop _ => exact nil_sublist _
  | cons _ _ ih => exact ih.cons_cons _

theorem Accepts.on_lines {plan : Plan} {bytes : Bytes}
    (h : Accepts plan bytes lines earlier spans accepted) :
    ∀ span ∈ accepted, ∃ k, Touched bytes lines span k := by
  induction h with
  | nil | stop _ => exact nofun
  | cons hgoes _ ih =>
    intro span hspan
    rcases mem_cons.mp hspan with rfl | hspan
    · by_contra hnone
      exact hgoes (.inl (not_exists.mp hnone))
    · exact ih span hspan

section Windows

variable {plan : Plan} {bytes : Bytes} {lines : List Span} {s : Selection}

theorem Selects.within (h : Selects plan bytes lines s) (hk : Span.Union s.groups k) :
    k < lines.length := by
  cases hinvert : plan.invert with
  | false =>
    obtain ⟨_, -, htouched⟩ := (h.covers hinvert k).mp hk
    exact htouched.lt_length
  | true => exact (((h.inverted hinvert).2 k).mp hk).1

theorem Selects.scene (h : Selects plan bytes lines s) (hl : IsLines bytes lines)
    (searched_end : ℕ) : Scene (Render.new plan bytes lines searched_end) s.groups s.spans := by
  have hspans : (plan.invert = false ∧ s.spans.Sublist (plan.grep.spans bytes)
      ∧ ∀ span ∈ s.spans, ∃ k, Touched bytes lines span k) ∨ s.spans = [] := by
    cases hinvert : plan.invert with
    | false => exact .inl ⟨rfl, (h.accepts hinvert).sublist, (h.accepts hinvert).on_lines⟩
    | true => exact .inr (h.inverted hinvert).1
  have hsublist : s.spans.Sublist (plan.grep.spans bytes) := by
    rcases hspans with ⟨-, hsub, -⟩ | hnil
    · exact hsub
    · exact hnil ▸ nil_sublist _
  exact
    { lines := hl
      split := rfl
      apart := h.apart
      within := fun _ => h.within
      ascending := (plan.grep.ascending bytes).sublist hsublist
      found := fun span hspan => hsublist.subset hspan
      on_lines := fun span hspan => by
        rcases hspans with ⟨-, -, hon⟩ | hnil
        · exact hon span hspan
        · exact absurd (hnil ▸ hspan) not_mem_nil
      covered := fun span hspan k hk => by
        rcases hspans with ⟨hinvert, -, -⟩ | hnil
        · exact (h.covers hinvert k).mpr ⟨span, hspan, hk⟩
        · exact absurd (hnil ▸ hspan) not_mem_nil }

theorem Widened.of_union {windows : List Span} (h : Widened plan s.groups lines.length windows)
    (hs : Selects plan bytes lines s) (hk : Span.Union s.groups k) :
    Span.Union windows k := by
  obtain ⟨g, hg, hhas⟩ := hk
  exact (h.covers k).mpr ⟨hs.within ⟨g, hg, hhas⟩, g, hg, hhas.1.trans (le_self_add),
    hhas.2.trans_le (le_self_add)⟩

/-- **The windows of a selection are rendered.** -/
theorem Selects.renders (h : Selects plan bytes lines s) (hl : IsLines bytes lines)
    (hlen : lines.length < 2 ^ 64 - 1) (searched_end : ℕ) :
    ∃ steps, (Render.new plan bytes lines searched_end).all (windows plan s.groups lines.length)
        s.groups s.spans = some steps
      ∧ Renders plan bytes lines s steps := by
  have hscene := h.scene hl searched_end
  have hwide := windows_widened plan h.apart hlen
  have hbound := hwide.apart.stop_le fun k hk => ((hwide.covers k).mp hk).1
  have hinside : ∀ w ∈ windows plan s.groups lines.length, ∀ g ∈ s.groups, ∀ k,
      g.Has k → w.Has k → g.stop ≤ w.stop := fun w hw g hg k hk hwk => by
    have hlast : w.Has (g.stop - 1) := hwide.apart.has_of_has hw hwk (Nat.le_sub_one_of_lt hk.2)
      fun i hki hi => hwide.of_union h ⟨g, hg, hk.1.trans hki, by have := hk.2; omega⟩
    have := hlast.2
    omega
  have hgroups : GroupsAhead s.groups 0 s.groups := ⟨[], rfl, nofun⟩
  have hspans : SpansAhead (Render.new plan bytes lines searched_end) s.spans 0 s.spans :=
    ⟨[], rfl, nofun⟩
  obtain ⟨steps, hall, hrounds, hpositions, honward, hpairwise⟩ := hscene.all hwide.apart hbound
    hinside (fun _ _ => Nat.zero_le _) hgroups hspans
  have honce := hpositions.trans (hwide.apart.positions_eq_filter hbound)
  refine ⟨steps, hall, ?_⟩
  exact
    { once := honce
      onward := fun step hstep => (honward step hstep).2
      kinds := fun hplan step hstep => (hrounds step hstep).kinds hscene hplan
      single := fun hjson hreplacement step hstep => ((hrounds step hstep).line hjson hreplacement).1
      plain := fun hjson hreplacement step hstep hplain => by
        obtain ⟨-, ⟨honly, -⟩ | ⟨-, at_, hat, hrecords⟩⟩ := (hrounds step hstep).line hjson hreplacement
        · rcases hplain with hno | hno | hno
          · exact Bool.noConfusion (honly.1.symm.trans hno)
          · exact Bool.noConfusion (honly.2.1.symm.trans hno)
          · exact absurd honly.2.2 hno
        · obtain ⟨record, hrecord, -, -, -, hbytes⟩ := hat.plain hscene
          exact ⟨record, at_.range, (Option.some.inj (hrecord.symm.trans hrecords)).symm, hat.range,
            hbytes⟩
      fragments := fun hjson hreplacement honly hinvert => by
        have hstep : ∀ step ∈ steps, printed step.records
            = (List.range' step.lines.start (step.lines.stop - step.lines.start)).flatMap fun k =>
              s.spans.filterMap (pieceOn bytes lines k) := fun step hstep => by
          rw [((hrounds step hstep).line hjson hreplacement).1, Nat.add_sub_cancel_left,
            range'_one, flatMap_singleton]
          exact (hrounds step hstep).printed hscene hjson hreplacement honly hinvert
        rw [printed_flatMap, flatMap_congr hstep, ← flatMap_positions, honce]
        exact flatMap_filter_of_nil fun k _ hk => filterMap_pieceOn_eq_nil hscene fun hu =>
          of_decide_eq_false hk (hwide.of_union h hu)
      json := fun hjson hinvert => by
        have hstep : ∀ step ∈ steps, step.records.flatMap reported
            = s.spans.filter fun t => decide (step.lines.Has (headline lines t)) :=
          fun step hstep => (hrounds step hstep).reported hscene hjson hinvert
        have hsorted : s.spans.Pairwise fun t u => headline lines t ≤ headline lines u :=
          hscene.ascending.pairwise.imp_of_mem fun {t u} ht _ hle =>
            min_le_min_right _ (Span.locate_mono lines ((hscene.ascending.ordered t ht).trans hle))
        have hsort := Span.flatMap_filter_has _ hsorted hpairwise
        rw [flatMap_map] at hsort
        rw [flatMap_assoc, flatMap_congr hstep, hsort]
        refine filter_eq_self.mpr fun t ht => decide_eq_true ?_
        rw [← Span.mem_positions, honce, mem_filter]
        have hu := hscene.covered t ht _ (hscene.touched_headline ht)
        exact ⟨mem_range.mpr (h.within hu), decide_eq_true (hwide.of_union h hu)⟩ }

end Windows

/-! ## The search -/

/-- Whether lines are rendered at all. -/
def Rendering (plan : Plan) : Prop :=
  plan.max_count ≠ some 0 ∧ plan.output = .lines ∧ ¬ (plan.quiet = true ∧ plan.json = false)

/-- **What a search of a text comes to.** -/
structure Searches (plan : Plan) (bytes : Bytes) (s : Selection) (steps : List Render.Step) :
    Prop where
  lines : IsLines bytes (split_lines bytes)
  selection : split_lines bytes ≠ [] → select plan bytes (split_lines bytes) = some s
  selects : Selects plan bytes (split_lines bytes) s
  widened : Widened plan s.groups (split_lines bytes).length
    (windows plan s.groups (split_lines bytes).length)
  renders : Rendering plan → Renders plan bytes (split_lines bytes) s steps
  silent : ¬ Rendering plan → steps = []

theorem length_strip_bom (bytes : Bytes) : (strip_bom bytes).length ≤ bytes.length := by
  unfold strip_bom
  split
  · rw [length_drop]
    exact Nat.sub_le _ _
  · exact le_rfl

theorem length_read_all (text : Bool) (document : Bytes) :
    (read_all text document).1.length ≤ document.length := by
  unfold read_all
  split
  · exact length_take_le' _ _
  · exact le_rfl

/-- Nothing is selected of an empty text. -/
theorem selects_empty (plan : Plan) (bytes : Bytes) : Selects plan bytes [] ⟨[], [], 0⟩ := by
  have hnone : ∀ span k, ¬ Touched bytes [] span k := fun span k ⟨line, hline, _⟩ => by cases hline
  have hempty : ∀ k, ¬ Span.Union [] k := fun k ⟨_, h, _⟩ => not_mem_nil h
  exact
    { apart := Span.apart_nil
      accepts := fun _ => by
        cases plan.grep.spans bytes with
        | nil => exact .nil
        | cons span _ => exact .stop (.inl (hnone span))
      covers := fun _ k => iff_of_false (hempty k) fun ⟨_, h, _⟩ => not_mem_nil h
      inverted := fun _ => ⟨rfl, fun k => iff_of_false (hempty k) fun h => Nat.not_lt_zero k h.1⟩ }

theorem nul_offset_isSome (buffer : Bytes) (binary : Bool) :
    ∃ at_, nul_offset buffer binary = some at_ := by
  unfold nul_offset
  split
  · split
    · next hbom =>
      have hleading := isPrefixOf_iff_prefix.mp hbom
      rw [sub?_eq_some (show 3 ≤ buffer.length from hleading.length_le)]
      exact ⟨_, rfl⟩
    · exact ⟨_, rfl⟩
  · exact ⟨_, rfl⟩

/-- **A multiline search selects and renders what it should**, of every document, and nothing is out
of range. -/
theorem scan_progress_searches (plan : Plan) (document : Bytes) (hlen : document.length < 2 ^ 63) :
    ∃ result s steps, scan_progress plan document = some (result, steps)
      ∧ Searches plan (searchedText plan document) s steps := by
  have hbytes : (searchedText plan document).length < 2 ^ 64 - 1 := by
    have := (length_strip_bom _).trans (length_read_all plan.text document)
    unfold searchedText
    omega
  have hl := isLines_split_lines (searchedText plan document)
  have hlines : (split_lines (searchedText plan document)).length < 2 ^ 64 - 1 := by
    have := hl.tiles.length_le
    omega
  obtain ⟨s, hselect, hs⟩ : ∃ s, (split_lines (searchedText plan document) ≠ [] →
        select plan (searchedText plan document) (split_lines (searchedText plan document)) = some s)
      ∧ Selects plan (searchedText plan document) (split_lines (searchedText plan document)) s := by
    by_cases hne : split_lines (searchedText plan document) = []
    · exact ⟨⟨[], [], 0⟩, fun h => absurd hne h, by rw [hne]; exact selects_empty plan _⟩
    · have hfound : ∃ s, select plan _ _ = some s ∧ _ := select_selects hl hne hbytes
      obtain ⟨s, hselect, hs, -⟩ := hfound
      exact ⟨s, fun _ => hselect, hs⟩
  obtain ⟨steps, hall, hrenders⟩ := hs.renders hl hlines s.searched_end
  have hwide := windows_widened plan hs.apart hlines
  have hsilent : ¬ Rendering plan →
      Searches plan (searchedText plan document) s [] := fun hno =>
    ⟨hl, hselect, hs, hwide, fun h => absurd h hno, fun _ => rfl⟩
  have hempty : steps = [] → Searches plan (searchedText plan document) s [] := fun hnil =>
    ⟨hl, hselect, hs, hwide, fun _ => hnil ▸ hrenders, fun _ => rfl⟩
  have hnone : s.groups = [] → steps = [] := fun hgroups => by
    rw [hgroups] at hall
    exact (Option.some.inj hall).symm
  unfold scan_progress
  dsimp only
  by_cases hcount : (InputResult.empty plan).searched = true
  · obtain ⟨_, hat⟩ := nul_offset_isSome (read_all plan.text document).1
      (read_all plan.text document).2
    rw [if_neg (by simpa using hcount), hat,
      show strip_bom (read_all plan.text document).1 = searchedText plan document from rfl]
    rw [bind_eq_bind, bind_some]
    by_cases hne : split_lines (searchedText plan document) = []
    · rw [if_pos hne]
      refine ⟨_, s, [], rfl, hempty (hnone ?_)⟩
      refine eq_nil_iff_forall_not_mem.mpr fun g hg => ?_
      have hlt := hs.within ⟨g, hg, le_rfl, hs.apart.nonempty g hg⟩
      rw [hne] at hlt
      exact not_lt_zero hlt
    rw [if_neg hne, hselect hne]
    dsimp only [bind_eq_bind, bind_some]
    by_cases hwithout : plan.output = .without_match
    · rw [if_pos hwithout]
      refine ⟨_, s, [], rfl, hsilent fun h => ?_⟩
      cases hwithout.symm.trans h.2.1
    rw [if_neg hwithout]
    by_cases hquiet : plan.quiet = true ∧ (!plan.json) = true ∨ plan.output = .names
    · rw [if_pos hquiet]
      refine ⟨_, s, [], rfl, hsilent fun h => ?_⟩
      rcases hquiet with hquiet | hnames
      · exact h.2.2 ⟨hquiet.1, by simpa using hquiet.2⟩
      · cases hnames.symm.trans h.2.1
    rw [if_neg hquiet]
    by_cases hgroups : s.groups = []
    · rw [if_pos (by simpa using hgroups)]
      exact ⟨_, s, [], rfl, hempty (hnone hgroups)⟩
    rw [if_neg (by simpa using hgroups)]
    by_cases houtput : plan.output = .lines
    · rw [if_neg (not_not.mpr houtput), hall]
      dsimp only [bind_some]
      refine ⟨_, s, steps, rfl, hl, hselect, hs, hwide, fun _ => hrenders, fun hno => ?_⟩
      refine absurd ⟨of_decide_eq_true hcount, houtput, fun h => hquiet (.inl ⟨h.1, ?_⟩)⟩ hno
      rw [h.2]
      rfl
    · rw [if_pos houtput]
      exact ⟨_, s, [], rfl, hsilent fun h => houtput h.2.1⟩
  · rw [if_pos (by simpa using hcount)]
    refine ⟨_, s, [], rfl, hsilent fun h => hcount ?_⟩
    exact decide_eq_true h.1

/-- A match across the LF between two lines. -/
theorem scan_progress_searches_across :
    let plan : Plan := {
      grep := {
        starts := fun text i => text.drop i == [97, 10, 98]
        is_line_local := false
        local_starts := Bool.noConfusion
        excludes_lf := false
        spans := fun text => if text = [97, 10, 98] then [⟨0, 3⟩] else []
        ascending := fun text => by
          split_ifs with h
          · rw [h]
            exact ⟨by decide, by decide, List.pairwise_singleton _ _⟩
          · exact ⟨by simp, by simp, .nil⟩
        excludes := Bool.noConfusion
        captures_at := fun _ _ => none }
      line_number := true, quiet := false, output := .lines, only_matching := true, invert := false
      max_count := none, before := 0, after := 0, text := false, multiline := true, json := false
      replacement := none }
    ∃ result s steps, scan_progress plan [97, 10, 98] = some (result, steps)
      ∧ Searches plan (searchedText plan [97, 10, 98]) s steps := by
  intro plan
  exact scan_progress_searches plan [97, 10, 98] (by decide)

end Ferret.Grep
