import Ferret.Grep.Rendered

/-!
# Every line of a window is rendered once

The rounds of rendering tile each window, in order: a round covers a line, or
the selected lines up to the end of their group. Put together, the JSON
records report each match taken once, and the fragments of `-o` are the pieces
of the matches, line by line.
-/

namespace Ferret.Grep

open Verify List

section Scene

variable {r : Render} {groups spans : List Span} {index : ℕ} {at_ : At}

/-- Where rendering goes on after a line: past a record's lines where a record may cover many. -/
theorem Seen.records (h : Scene r groups spans) (hat : Seen r groups spans index at_) :
    ∃ records next, r.records at_ = some (records, next) ∧ (next = at_.last ∨ next = index + 1) := by
  unfold Render.records
  split_ifs
  · obtain ⟨record, hjson, -⟩ := hat.json h
    exact ⟨_, _, by rw [hjson]; rfl, .inl rfl⟩
  · obtain ⟨records, hreplace⟩ := hat.replace h
    exact ⟨_, _, by rw [hreplace]; rfl, .inl rfl⟩
  · obtain ⟨records, hfragments, -⟩ := hat.fragments h
    exact ⟨_, _, by rw [hfragments]; rfl, .inr (congrArg (· + 1) hat.at_index)⟩
  · obtain ⟨record, hplain, -⟩ := hat.plain h
    exact ⟨_, _, by rw [hplain]; rfl, .inr (congrArg (· + 1) hat.at_index)⟩

/-- A round covers a line, or the lines up to the end of a group. -/
theorem Seen.last_cases (hat : Seen r groups spans index at_) :
    at_.last = index + 1 ∨ ∃ g ∈ groups, g.Has index ∧ at_.last = g.stop := by
  by_cases hgroup : r.split = true ∧ at_.selected = true
  · exact .inr (hat.group hgroup.1 hgroup.2)
  · exact .inl (hat.line hgroup)

/-- A round of rendering. -/
def Round (r : Render) (groups spans : List Span) (step : Render.Step) : Prop :=
  ∃ at_, Seen r groups spans step.lines.start at_
    ∧ r.records at_ = some (step.records, step.lines.stop)

/-- Only groups that end at line `index`, or before, are no longer ahead. -/
def GroupsAhead (groups : List Span) (index : ℕ) (ahead : List Span) : Prop :=
  ∃ done, groups = done ++ ahead ∧ ∀ g ∈ done, g.stop ≤ index

/-- Only matches that are passed from line `index` on are no longer ahead. -/
def SpansAhead (r : Render) (spans : List Span) (index : ℕ) (ahead : List Span) : Prop :=
  ∃ done, spans = done ++ ahead
    ∧ ∀ s ∈ done, ∀ k line, index ≤ k → r.lines[k]? = some line → passed line.start s = true

theorem GroupsAhead.mono {ahead : List Span} {next : ℕ} (h : GroupsAhead groups index ahead)
    (hle : index ≤ next) : GroupsAhead groups next ahead :=
  h.imp fun _ h => ⟨h.1, fun g hg => (h.2 g hg).trans hle⟩

theorem SpansAhead.mono {ahead : List Span} {next : ℕ} (h : SpansAhead r spans index ahead)
    (hle : index ≤ next) : SpansAhead r spans next ahead :=
  h.imp fun _ h => ⟨h.1, fun s hs k line hk => h.2 s hs k line (hle.trans hk)⟩

theorem GroupsAhead.dropWhile {ahead : List Span} (h : GroupsAhead groups index ahead) :
    GroupsAhead groups index (ahead.dropWhile fun g => decide (g.stop ≤ index))
      ∧ ∀ g, (ahead.dropWhile fun g => decide (g.stop ≤ index)).head? = some g → index < g.stop := by
  obtain ⟨done, hgroups, hdone⟩ := h
  refine ⟨⟨done ++ ahead.takeWhile fun g => decide (g.stop ≤ index), ?_, fun g hg => ?_⟩,
    fun g hg => ?_⟩
  · rw [append_assoc, takeWhile_append_dropWhile, hgroups]
  · rcases mem_append.mp hg with hg | hg
    · exact hdone g hg
    · simpa using mem_takeWhile_imp hg
  · have hnot := head?_dropWhile_not (fun g : Span => decide (g.stop ≤ index)) ahead
    rw [hg] at hnot
    simpa using hnot

theorem Seen.spansAhead (h : Scene r groups spans) (hat : Seen r groups spans index at_) :
    SpansAhead r spans index at_.spans := by
  refine ⟨spans.takeWhile (passed at_.range.start), ?_, fun s hs k line hk hline => ?_⟩
  · have hfilter := dropWhile_passed (p := at_.range.start) h.ascending (nil_append spans).symm
      nofun
    rw [hat.spans, ← hfilter, takeWhile_append_dropWhile]
  · refine passed_mono ?_ (mem_takeWhile_imp hs)
    rcases hk.eq_or_lt with rfl | hlt
    · exact (congrArg Span.start (Option.some.inj (hat.range.symm.trans hline))).le
    · exact (h.lines.tiles.start_lt_start hat.range hline hlt).le

/-- **The rounds of a window tile it.** -/
theorem Scene.window (h : Scene r groups spans) {w : Span} (hw : w.stop ≤ r.lines.length)
    (hinside : ∀ g ∈ groups, ∀ k, g.Has k → w.Has k → g.stop ≤ w.stop) {fuel : ℕ}
    {gs ss : List Span} (hstart : w.start ≤ index) (hstop : index ≤ w.stop)
    (hfuel : w.stop - index ≤ fuel) (hgs : GroupsAhead groups index gs)
    (hss : SpansAhead r spans index ss) :
    ∃ steps gs' ss', r.window w.stop fuel index gs ss = some (steps, gs', ss')
      ∧ Span.Tiles w.stop index (steps.map Render.Step.lines)
      ∧ (∀ step ∈ steps, Round r groups spans step)
      ∧ GroupsAhead groups w.stop gs' ∧ SpansAhead r spans w.stop ss' := by
  induction fuel generalizing index gs ss with
  | zero =>
    obtain rfl : index = w.stop := by omega
    exact ⟨[], gs, ss, if_neg (lt_irrefl _), .nil, nofun, hgs, hss⟩
  | succ fuel ih =>
    rw [Render.window]
    rcases hstop.eq_or_lt with rfl | hlt
    · exact ⟨[], gs, ss, if_neg (lt_irrefl _), .nil, nofun, hgs, hss⟩
    obtain ⟨hgs', hahead⟩ := hgs.dropWhile
    obtain ⟨done, hspans, hdone⟩ := hss
    obtain ⟨at_, hlook, hat⟩ := h.look (hlt.trans_le hw) hgs' hahead
      ⟨done, hspans, fun s hs line hline => hdone s hs index line le_rfl hline⟩
    obtain ⟨records, next, hrecords, hnext⟩ := hat.records h
    have hbounds : index < next ∧ next ≤ w.stop := by
      rcases hnext with rfl | rfl
      · rcases hat.last_cases with hlast | ⟨g, hg, hhas, hlast⟩
        · exact hlast ▸ ⟨Nat.lt_succ_self _, hlt⟩
        · exact hlast ▸ ⟨hhas.2, hinside g hg index hhas ⟨hstart, hlt⟩⟩
      · exact ⟨Nat.lt_succ_self _, hlt⟩
    obtain ⟨steps, gs'', ss'', hwindow, htiles, hrounds, hrest⟩ := ih
      (hstart.trans hbounds.1.le) hbounds.2 (by omega) (hgs'.mono hbounds.1.le)
      ((hat.spansAhead h).mono hbounds.1.le)
    refine ⟨⟨⟨index, next⟩, records⟩ :: steps, gs'', ss'', ?_,
      .cons (s := ⟨index, next⟩) hbounds.1 htiles, fun step hstep => ?_, hrest⟩
    · rw [if_pos hlt]
      dsimp only
      rw [hlook]
      dsimp only [Option.bind_eq_bind, Option.bind_some]
      rw [hrecords]
      dsimp only [Option.bind_some]
      rw [hwindow]
      rfl
    · rcases mem_cons.mp hstep with rfl | hstep
      · exact ⟨at_, hat, hrecords⟩
      · exact hrounds step hstep

/-- **The windows, one after the other.** -/
theorem Scene.all (h : Scene r groups spans) {windows : List Span} (hwindows : Span.Apart windows)
    (hbound : ∀ w ∈ windows, w.stop ≤ r.lines.length)
    (hinside : ∀ w ∈ windows, ∀ g ∈ groups, ∀ k, g.Has k → w.Has k → g.stop ≤ w.stop)
    {gs ss : List Span} (hindex : ∀ w ∈ windows, index ≤ w.start)
    (hgs : GroupsAhead groups index gs) (hss : SpansAhead r spans index ss) :
    ∃ steps, r.all windows gs ss = some steps ∧ (∀ step ∈ steps, Round r groups spans step)
      ∧ Span.positions (steps.map Render.Step.lines) = Span.positions windows
      ∧ (∀ step ∈ steps, index ≤ step.lines.start ∧ step.lines.start < step.lines.stop)
      ∧ (steps.map Render.Step.lines).Pairwise fun s t => s.stop ≤ t.start := by
  induction windows generalizing index gs ss with
  | nil =>
    exact ⟨[], rfl, nofun, rfl, nofun,
      .nil⟩
  | cons w windows ih =>
    have hself : w ∈ w :: windows := .head _
    have hnext := (pairwise_cons.mp hwindows.pairwise).1
    have hle := hindex w hself
    have hne := hwindows.nonempty w hself
    obtain ⟨first, _, _, hwindow, htiles, hfirst, hgs', hss'⟩ := h.window (hbound w hself)
      (hinside w hself) le_rfl hne.le le_rfl (hgs.mono hle) (hss.mono hle)
    obtain ⟨steps, hall, hrounds, hpositions, hstarts, hpairwise⟩ := ih hwindows.tail
      (fun v hv => hbound v (.tail _ hv))
      (fun v hv => hinside v (.tail _ hv)) (fun v hv => (hnext v hv).le) hgs' hss'
    have hbounds : ∀ step ∈ first, w.start ≤ step.lines.start
        ∧ step.lines.start < step.lines.stop ∧ step.lines.stop ≤ w.stop := fun step hstep => by
      obtain ⟨k, hk⟩ := getElem?_of_mem (mem_map_of_mem (f := Render.Step.lines) hstep)
      exact htiles.bounds hk
    refine ⟨first ++ steps, ?_, fun step hstep => ?_, ?_, fun step hstep => ?_, ?_⟩
    · rw [Render.all, hwindow]
      dsimp only [Option.bind_eq_bind, Option.bind_some]
      rw [hall]
      rfl
    · exact (mem_append.mp hstep).elim (hfirst step) (hrounds step)
    · unfold Span.positions at hpositions ⊢
      rw [map_append, flatMap_append, hpositions, flatMap_cons]
      exact congrArg (· ++ _) htiles.positions_eq
    · rcases mem_append.mp hstep with hstep | hstep
      · exact ⟨hle.trans (hbounds step hstep).1, (hbounds step hstep).2.1⟩
      · exact ⟨hle.trans (hne.le.trans (hstarts step hstep).1), (hstarts step hstep).2⟩
    · rw [map_append]
      refine pairwise_append.mpr ⟨htiles.pairwise, hpairwise, fun s hs t ht => ?_⟩
      obtain ⟨step, hstep, rfl⟩ := mem_map.mp hs
      obtain ⟨later, hlater, rfl⟩ := mem_map.mp ht
      exact (hbounds step hstep).2.2.trans (hstarts later hlater).1

/-! ## What the records report -/

/-- The line a match starts on. -/
def headline (lines : List Span) (span : Span) : ℕ :=
  min (Span.locate lines span.start) (lines.length - 1)

/-- A match that starts on a record's lines ends on them. -/
theorem Seen.stop_le (h : Scene r groups spans) (hat : Seen r groups spans index at_)
    (hinvert : r.plan.invert = false) {s : Span} (hs : s ∈ spans) (hstart : at_.range.start ≤ s.start)
    (hbelow : s.start < at_.stop) : s.stop ≤ at_.stop := by
  obtain ⟨final, hfinal, _⟩ := hat.stop
  by_contra hlt
  have hlen := h.ascending.within s hs
  have hnotlast : ¬ at_.last - 1 = r.lines.length - 1 := fun hlast => by
    have := (stop_eq_length_iff h.lines hfinal).mpr hlast
    omega
  have hlength := (List.getElem?_eq_some_iff.mp hfinal).1
  by_cases hgroup : r.split = true ∧ at_.selected = true
  · obtain ⟨g, hg, hhas, hlast⟩ := hat.group hgroup.1 hgroup.2
    have hpos : 0 < at_.last := hlast ▸ Nat.zero_lt_of_lt hhas.2
    obtain ⟨next, hnext⟩ : ∃ next, r.lines[at_.last - 1 + 1]? = some next :=
      ⟨_, getElem?_eq_getElem (show at_.last - 1 + 1 < r.lines.length by omega)⟩
    have hadjoin := h.lines.tiles.adjoin hfinal hnext
    have hbounds := h.lines.tiles.bounds hnext
    rw [Nat.sub_add_cancel hpos] at hnext
    have htouched : Touched r.bytes r.lines s at_.last :=
      ⟨next, hnext, (touches_of_lt (by omega)).mpr (by omega)⟩
    exact h.apart.not_union_stop hg (hlast ▸ h.covered s hs _ htouched)
  · have hlast := hat.line hgroup
    have hline : final = at_.range := Option.some.inj (hfinal.symm.trans (by
      rw [hlast]; exact hat.range))
    subst hline
    have htouched : Touched r.bytes r.lines s index :=
      ⟨_, hat.range, (touches_of_lt (by omega)).mpr (by omega)⟩
    have hselected := hat.selected.mpr (h.covered s hs _ htouched)
    have hexcludes : r.plan.grep.excludes_lf = true := by
      have hsplit : r.split ≠ true := fun hsplit => hgroup ⟨hsplit, hselected⟩
      rw [h.split, hinvert] at hsplit
      simpa using hsplit
    have hlf := h.lines.terminated index _ hat.range (by omega)
    have hbounds := h.lines.tiles.bounds hat.range
    exact r.plan.grep.excludes hexcludes _ s (h.found s hs)
      (Span.mem_slice hlf (by omega) (by omega))

/-- **The matches of a record** are those that start on its lines. -/
theorem Seen.reported_iff (h : Scene r groups spans) (hat : Seen r groups spans index at_)
    (hinvert : r.plan.invert = false) {s : Span} (hs : s ∈ spans) :
    (decide (at_.range.start ≤ s.start ∧ s.stop ≤ at_.stop)
        && (below r.bytes at_.stop s && !passed at_.range.start s)) = true
      ↔ (Span.mk index at_.last).Has (headline r.lines s) := by
  obtain ⟨final, hfinal, hstop⟩ := hat.stop
  have hindex := (List.getElem?_eq_some_iff.mp hat.range).1
  have hlength := (List.getElem?_eq_some_iff.mp hfinal).1
  have hpos : 0 < at_.last := by
    rcases hat.last_cases with hlast | ⟨g, -, hhas, hlast⟩
    · exact hlast ▸ Nat.succ_pos _
    · exact hlast ▸ Nat.zero_lt_of_lt hhas.2
  have hordered := h.ascending.ordered s hs
  have hlen := h.ascending.within s hs
  have hleft := h.lines.tiles.le_locate_iff hat.range (Nat.zero_le s.start)
  have hright := h.lines.tiles.locate_le_iff (p := s.start) hfinal
  rw [Bool.and_eq_true_iff, Bool.and_eq_true_iff, decide_eq_true_eq, Bool.not_eq_true',
    ← Bool.not_eq_true, passed_iff, below_iff]
  unfold Span.Has headline
  dsimp only
  rw [hstop]
  constructor
  · rintro ⟨⟨hstart, -⟩, hbelow, -⟩
    refine ⟨le_min (hleft.mpr hstart) (by omega), ?_⟩
    rcases hbelow with hlt | ⟨heq, hend, -⟩
    · exact (min_le_left _ _).trans_lt (by have := hright.mpr hlt; omega)
    · exact (min_le_right _ _).trans_lt (by
        have := (stop_eq_length_iff h.lines hfinal).mp hend
        omega)
  · rintro ⟨hge, hlt⟩
    have hstart := hleft.mp (hge.trans (min_le_left _ _))
    have hbelow : s.start < final.stop
        ∨ s.start = final.stop ∧ final.stop = r.bytes.length ∧ ends_with_lf r.bytes = false := by
      rcases Nat.lt_or_ge s.start r.bytes.length with hin | hout
      · have hlocate := h.lines.tiles.locate_lt_length (Nat.zero_le _) hin
        rw [min_eq_left (Nat.le_sub_one_of_lt hlocate)] at hlt
        exact .inl (hright.mp (Nat.le_sub_one_of_lt hlt))
      · have hend : s.start = r.bytes.length := by omega
        rw [h.lines.tiles.locate_eq_length hout, min_eq_right (Nat.sub_le _ _)] at hlt
        have hstop' := (stop_eq_length_iff h.lines hfinal).mpr (by omega)
        refine .inr ⟨hend.trans hstop'.symm, hstop', ?_⟩
        obtain ⟨k, htouched⟩ := h.on_lines s hs
        by_contra hlf
        refine not_touched_of_past h.lines hlen ?_ k htouched
        unfold past_lines
        rw [hend, beq_self_eq_true, eq_true_of_ne_false hlf]
        rfl
    refine ⟨⟨hstart, ?_⟩, hbelow, by omega⟩
    rcases hbelow with hlt | ⟨heq, hend, -⟩
    · exact hstop ▸ hat.stop_le h hinvert hs hstart (hstop ▸ hlt)
    · omega

end Scene

end Ferret.Grep
