import Ferret.Grep.SplitLines

/-!
# What a multiline search selects

A match touches the lines it has a byte of, or the line it is on if it is
empty. The matches that are taken are all up to the first that touches no
line, or that begins past every line touched so far when as many beginnings as
the limit have been counted (`Accepts`). The groups are then the runs of the
lines that the matches taken touch or, inverted, of the first lines that no
match touches, as many as the limit (`Selects`).
-/

namespace Ferret.Grep

open Verify List

/-! ## Lines that a match touches -/

section Touched

variable (bytes : Bytes) (lines : List Span)

/-- A span touches a line: it has a byte of it, or is empty and on it. The end
of a text is on its last line, unless that ends with an LF. -/
def Touches (line span : Span) : Prop :=
  if span.start < span.stop then span.start < line.stop ∧ line.start < span.stop
  else line.Has span.start
    ∨ span.start = bytes.length ∧ line.stop = bytes.length ∧ ends_with_lf bytes = false

/-- A span touches line `k`. -/
def Touched (span : Span) (k : ℕ) : Prop := ∃ line, lines[k]? = some line ∧ Touches bytes line span

/-- A span begins past every line that earlier ones touch. -/
def Begins (earlier : List Span) (span : Span) : Prop :=
  ∀ s ∈ earlier, ∀ j k, Touched bytes lines s j → Touched bytes lines span k → j < k

open Classical in
/-- How many of the spans begin past every line that those before them touch. -/
noncomputable def beginnings (spans : List Span) : ℕ :=
  Nat.count (fun i => ∃ span, spans[i]? = some span ∧ Begins bytes lines (spans.take i) span)
    spans.length

end Touched

/-- Where a search stops: at a span that touches no line, or that begins past the lines touched so
far when the limit is reached. -/
def Stops (plan : Plan) (bytes : Bytes) (lines earlier : List Span) (span : Span) : Prop :=
  (∀ k, ¬ Touched bytes lines span k)
    ∨ plan.invert = false ∧ ∃ limit, plan.max_count = some limit
        ∧ limit ≤ beginnings bytes lines earlier ∧ Begins bytes lines earlier span

/-- **The matches taken**, after earlier ones: all up to the first at which the search stops. -/
inductive Accepts (plan : Plan) (bytes : Bytes) (lines : List Span) :
    List Span → List Span → List Span → Prop
  | nil {earlier : List Span} : Accepts plan bytes lines earlier [] []
  | stop {earlier spans : List Span} {span : Span} :
    Stops plan bytes lines earlier span → Accepts plan bytes lines earlier (span :: spans) []
  | cons {earlier spans accepted : List Span} {span : Span} :
    ¬ Stops plan bytes lines earlier span →
    Accepts plan bytes lines (earlier ++ [span]) spans accepted →
    Accepts plan bytes lines earlier (span :: spans) (span :: accepted)

/-- No match touches line `k`. -/
def Untouched (plan : Plan) (bytes : Bytes) (lines : List Span) (k : ℕ) : Prop :=
  ∀ span ∈ plan.grep.spans bytes, ¬ Touched bytes lines span k

open Classical in
/-- **What is selected**: ascending groups, apart, of the lines that the matches taken touch or,
inverted, of the first lines that none touches. -/
structure Selects (plan : Plan) (bytes : Bytes) (lines : List Span) (s : Selection) : Prop where
  apart : Span.Apart s.groups
  accepts : plan.invert = false → Accepts plan bytes lines [] (plan.grep.spans bytes) s.spans
  covers : plan.invert = false →
    ∀ k, Span.Union s.groups k ↔ ∃ span ∈ s.spans, Touched bytes lines span k
  inverted : plan.invert = true → s.spans = [] ∧ ∀ k, Span.Union s.groups k ↔
    k < lines.length ∧ Untouched plan bytes lines k
      ∧ ∀ limit, plan.max_count = some limit → Nat.count (Untouched plan bytes lines) k < limit

/-! ## The lines of one match -/

section Lines

variable {bytes : Bytes} {lines : List Span} {span : Span}

theorem sub?_eq_some {a b : ℕ} (h : b ≤ a) : sub? a b = some (a - b) := if_pos h

theorem line_at_eq_some (hne : lines ≠ []) (p : ℕ) :
    line_at lines p = some (min (Span.locate lines p) (lines.length - 1)) := by
  unfold line_at
  rw [sub?_eq_some (length_pos_of_ne_nil hne)]
  rfl

theorem not_touched_of_past (h : IsLines bytes lines) (hlen : span.stop ≤ bytes.length)
    (hpast : past_lines bytes span = true) (k : ℕ) : ¬ Touched bytes lines span k := by
  obtain ⟨hstart, hlf⟩ : span.start = bytes.length ∧ ends_with_lf bytes = true := by
    simpa [past_lines] using hpast
  rintro ⟨_, hline, htouches⟩
  unfold Touches at htouches
  rw [if_neg (not_lt.mpr (hstart ▸ hlen))] at htouches
  rcases htouches with hhas | ⟨-, -, hno⟩
  · exact absurd ((h.tiles.bounds hline).2.2) (not_le.mpr (hstart ▸ hhas.2))
  · exact Bool.noConfusion (hlf.symm.trans hno)

theorem touches_of_lt {line : Span} (h : span.start < span.stop) :
    Touches bytes line span ↔ span.start < line.stop ∧ line.start < span.stop := by
  unfold Touches
  rw [if_pos h]

theorem touches_of_eq {line : Span} (h : span.start = span.stop) :
    Touches bytes line span ↔ line.Has span.start
      ∨ span.start = bytes.length ∧ line.stop = bytes.length ∧ ends_with_lf bytes = false := by
  unfold Touches
  rw [if_neg h.not_lt]

theorem touched_iff_of_touches {head last : ℕ} (hlast : last < lines.length)
    (h : ∀ k line, lines[k]? = some line → (Touches bytes line span ↔ head ≤ k ∧ k ≤ last)) (k : ℕ) :
    Touched bytes lines span k ↔ head ≤ k ∧ k ≤ last := by
  refine ⟨fun ⟨line, hline, htouches⟩ => (h k line hline).mp htouches, fun hk => ?_⟩
  have hline := getElem?_eq_getElem (hk.2.trans_lt hlast)
  exact ⟨_, hline, (h k _ hline).mpr hk⟩

/-- Only the last line ends where the text does. -/
theorem stop_eq_length_iff (h : IsLines bytes lines) {k : ℕ} {line : Span}
    (hk : lines[k]? = some line) : line.stop = bytes.length ↔ k = lines.length - 1 := by
  have hlength := (List.getElem?_eq_some_iff.mp hk).1
  refine ⟨fun hstop => ?_, fun hlast => h.tiles.stop_last hk (by omega)⟩
  by_contra hlast
  have hnext := getElem?_eq_getElem (show k + 1 < lines.length by omega)
  have hadjoin := h.tiles.adjoin hk hnext
  have hbounds := h.tiles.bounds hnext
  omega

/-- **A match touches the lines from its first to its last.** -/
theorem touched_iff (h : IsLines bytes lines) (hne : lines ≠ []) (hle : span.start ≤ span.stop)
    (hlen : span.stop ≤ bytes.length) (hpast : past_lines bytes span = false) :
    ∃ head last, line_at lines span.start = some head
      ∧ line_at lines (max (span.stop - 1) span.start) = some last
      ∧ head ≤ last ∧ last < lines.length
      ∧ ∀ k, Touched bytes lines span k ↔ head ≤ k ∧ k ≤ last := by
  have hn : 0 < lines.length := length_pos_of_ne_nil hne
  have hin : ∀ p < bytes.length, line_at lines p = some (Span.locate lines p)
      ∧ Span.locate lines p < lines.length := fun p hp => by
    have hlt := h.tiles.locate_lt_length (Nat.zero_le p) hp
    exact ⟨by rw [line_at_eq_some hne, min_eq_left (Nat.le_sub_one_of_lt hlt)], hlt⟩
  rcases hle.lt_or_eq with hlt | heq
  · obtain ⟨hhead, -⟩ := hin span.start (hlt.trans_le hlen)
    obtain ⟨hlast, hlength⟩ := hin (span.stop - 1) (by omega)
    rw [max_eq_left (Nat.le_sub_one_of_lt hlt)]
    refine ⟨_, _, hhead, hlast, Span.locate_mono lines (Nat.le_sub_one_of_lt hlt), hlength,
      touched_iff_of_touches hlength fun k line hk => ?_⟩
    rw [touches_of_lt hlt, h.tiles.locate_le_iff hk, h.tiles.le_locate_iff hk (Nat.zero_le _)]
    exact and_congr_right fun _ => (Nat.le_sub_one_iff_lt (Nat.zero_lt_of_lt hlt)).symm
  have hmax : max (span.stop - 1) span.start = span.start := max_eq_right (heq ▸ Nat.sub_le _ _)
  rw [hmax]
  rcases (heq.le.trans hlen).lt_or_eq with hlt | hend
  · obtain ⟨hhead, hlength⟩ := hin span.start hlt
    refine ⟨_, _, hhead, hhead, le_rfl, hlength, touched_iff_of_touches hlength fun k line hk => ?_⟩
    rw [touches_of_eq heq, h.tiles.locate_le_iff hk, h.tiles.le_locate_iff hk (Nat.zero_le _),
      or_iff_left fun hend => hlt.ne hend.1]
    exact and_comm
  · have hlf : ends_with_lf bytes = false := by
      unfold past_lines at hpast
      rwa [hend, beq_self_eq_true, Bool.true_and] at hpast
    have hhead : line_at lines span.start = some (lines.length - 1) := by
      rw [line_at_eq_some hne, h.tiles.locate_eq_length hend.ge, min_eq_right (Nat.sub_le _ _)]
    have hlength : lines.length - 1 < lines.length := Nat.sub_lt hn one_pos
    refine ⟨_, _, hhead, hhead, le_rfl, hlength, touched_iff_of_touches hlength fun k line hk => ?_⟩
    have hbounds := h.tiles.bounds hk
    rw [touches_of_eq heq, or_iff_right fun hhas => absurd hhas.2 (not_lt.mpr (hend ▸ hbounds.2.2)),
      stop_eq_length_iff h hk]
    refine ⟨fun hk => hk.2.1 ▸ ⟨le_rfl, le_rfl⟩, fun hk => ⟨hend, le_antisymm hk.2 hk.1, hlf⟩⟩

theorem line_at_mono (hne : lines ≠ []) {p q i j : ℕ} (hpq : p ≤ q) (hi : line_at lines p = some i)
    (hj : line_at lines q = some j) : i ≤ j := by
  rw [line_at_eq_some hne] at hi hj
  cases hi
  cases hj
  exact min_le_min_right _ (Span.locate_mono lines hpq)

end Lines

/-! ## The loop over the matches -/

section Taking

variable {plan : Plan} {bytes : Bytes} {lines done : List Span} {span : Span} {s : Selecting}

open Classical in
theorem beginnings_concat (done : List Span) (span : Span) :
    beginnings bytes lines (done ++ [span])
      = beginnings bytes lines done + if Begins bytes lines done span then 1 else 0 := by
  have hinit : ∀ i < done.length,
      (∃ s, (done ++ [span])[i]? = some s ∧ Begins bytes lines ((done ++ [span]).take i) s)
        ↔ ∃ s, done[i]? = some s ∧ Begins bytes lines (done.take i) s := fun i hi => by
    rw [getElem?_append_left hi, take_append_of_le_length hi.le]
  have hlast : (∃ s, (done ++ [span])[done.length]? = some s
      ∧ Begins bytes lines ((done ++ [span]).take done.length) s) ↔ Begins bytes lines done span := by
    rw [getElem?_concat_length, take_left]
    simp only [Option.some.injEq, exists_eq_left']
  unfold beginnings
  rw [length_append, length_singleton, Nat.count_succ]
  refine congrArg₂ (· + ·) ?_ (if_congr hlast rfl rfl)
  exact le_antisymm (Nat.count_mono_left fun i hi => (hinit i hi).mp)
    (Nat.count_mono_left fun i hi => (hinit i hi).mpr)

/-- The loop, after the matches `done`. -/
structure Taking (plan : Plan) (bytes : Bytes) (lines done : List Span) (s : Selecting) : Prop where
  spans : s.spans = if plan.invert then [] else done
  apart : Span.Apart s.groups
  covers : ∀ k, Span.Union s.groups k ↔ ∃ span ∈ done, Touched bytes lines span k
  starts : ∀ group ∈ s.groups, ∃ span ∈ done, line_at lines span.start = some group.start
  taken : s.taken = beginnings bytes lines done
  below : ∀ k, ∀ span ∈ done, Touched bytes lines span k → k < s.group_end
  reached : 0 < s.group_end → ∃ span ∈ done, Touched bytes lines span (s.group_end - 1)

theorem taking_nil : Taking plan bytes lines [] ⟨[], [], 0, 0⟩ where
  spans := (ite_self []).symm
  apart := Span.apart_nil
  covers := fun _ => iff_of_false (fun ⟨_, h, _⟩ => not_mem_nil h)
    fun ⟨_, h, _⟩ => not_mem_nil h
  starts := nofun
  taken := rfl
  below := nofun
  reached := fun h => absurd h (lt_irrefl 0)

/-- A match begins past the lines touched so far if its first line is past the last. -/
theorem Taking.begins_iff (h : Taking plan bytes lines done s) {head last : ℕ} (hle : head ≤ last)
    (htouched : ∀ k, Touched bytes lines span k ↔ head ≤ k ∧ k ≤ last) :
    Begins bytes lines done span ↔ s.group_end ≤ head := by
  refine ⟨fun hbegins => ?_, fun hend t ht j k hj hk => ?_⟩
  · rcases Nat.eq_zero_or_pos s.group_end with hzero | hpos
    · exact hzero.trans_le (Nat.zero_le _)
    · obtain ⟨t, ht, htouch⟩ := h.reached hpos
      exact Nat.le_of_pred_lt (hbegins t ht _ head htouch ((htouched head).mpr ⟨le_rfl, hle⟩))
  · exact (h.below j t ht hj).trans_le (hend.trans ((htouched k).mp hk).1)

theorem Taking.step (h : Taking plan bytes lines done s) (hne : lines ≠ []) {head last : ℕ}
    (hhead : line_at lines span.start = some head) (hle : head ≤ last)
    (htouched : ∀ k, Touched bytes lines span k ↔ head ≤ k ∧ k ≤ last)
    (hafter : ∀ t ∈ done, t.start ≤ span.start) :
    Taking plan bytes lines (done ++ [span])
      { spans := if plan.invert then s.spans else s.spans ++ [span]
        groups := Span.add s.groups ⟨head, last + 1⟩
        taken := if s.group_end ≤ head then s.taken + 1 else s.taken
        group_end := max s.group_end (last + 1) } := by
  have hstarts : ∀ group ∈ s.groups, group.start ≤ head := fun group hgroup => by
    obtain ⟨t, ht, hline⟩ := h.starts group hgroup
    exact line_at_mono hne (hafter t ht) hline hhead
  have hself : span ∈ done ++ [span] := mem_append_right _ (mem_singleton_self _)
  refine
    { spans := ?_
      apart := Span.apart_add h.apart hstarts
      covers := fun k => ?_
      starts := fun group hgroup => ?_
      taken := ?_
      below := fun k t ht hk => ?_
      reached := fun _ => ?_ }
  · dsimp only
    rw [h.spans]
    split <;> rfl
  · dsimp only
    rw [Span.union_add h.apart hstarts, h.covers]
    simp only [mem_append, mem_singleton, or_and_right, exists_or, exists_eq_left, htouched]
    exact or_congr_right (and_congr_right fun _ => Nat.lt_succ_iff)
  · rcases Span.add_cases s.groups ⟨head, last + 1⟩ with
      ⟨-, hadd⟩ | ⟨-, _, final, hgroups, -, hadd⟩ | ⟨-, -, hadd⟩
    · obtain ⟨t, ht, hline⟩ := h.starts group (hadd ▸ hgroup)
      exact ⟨t, mem_append_left _ ht, hline⟩
    · dsimp only at hgroup
      rw [hadd] at hgroup
      have hold : ∃ old ∈ s.groups, old.start = group.start := by
        rw [hgroups]
        rcases mem_append.mp hgroup with hgroup | hgroup
        · exact ⟨group, mem_append_left _ hgroup, rfl⟩
        · rw [mem_singleton.mp hgroup]
          exact ⟨final, by simp, rfl⟩
      obtain ⟨old, hmem, hstart⟩ := hold
      obtain ⟨t, ht, hline⟩ := h.starts old hmem
      exact ⟨t, mem_append_left _ ht, hstart ▸ hline⟩
    · dsimp only at hgroup
      rw [hadd] at hgroup
      rcases mem_append.mp hgroup with hgroup | hgroup
      · obtain ⟨t, ht, hline⟩ := h.starts group hgroup
        exact ⟨t, mem_append_left _ ht, hline⟩
      · rw [mem_singleton.mp hgroup]
        exact ⟨span, hself, hhead⟩
  · dsimp only
    rw [beginnings_concat, h.begins_iff hle htouched, h.taken]
    split <;> rfl
  · rcases mem_append.mp ht with ht | ht
    · exact (h.below k t ht hk).trans_le (le_max_left _ _)
    · rw [mem_singleton.mp ht, htouched] at hk
      exact (Nat.lt_succ_of_le hk.2).trans_le (le_max_right _ _)
  · dsimp only
    rcases le_total s.group_end (last + 1) with hlast | hlast
    · rw [max_eq_right hlast]
      exact ⟨span, hself, (htouched _).mpr ⟨hle, le_rfl⟩⟩
    · rw [max_eq_left hlast]
      obtain ⟨t, ht, hk⟩ := h.reached (lt_of_lt_of_le (Nat.succ_pos _) hlast)
      exact ⟨t, mem_append_left _ ht, hk⟩

theorem any_le_iff {limit : Option ℕ} {n : ℕ} :
    limit.any (· ≤ n) = true ↔ ∃ m, limit = some m ∧ m ≤ n := by
  cases limit with
  | none => simp
  | some m => simp

/-- **The loop takes the matches up to the one at which the search stops.** -/
theorem Taking.select_spans (h : Taking plan bytes lines done s) (hl : IsLines bytes lines)
    (hne : lines ≠ []) {spans : List Span} (hspans : Span.Ascending bytes.length spans)
    (hafter : ∀ t ∈ done, ∀ span ∈ spans, t.start ≤ span.start) :
    ∃ s' accepted, select_spans plan bytes lines spans s = some s'
      ∧ Taking plan bytes lines (done ++ accepted) s'
      ∧ Accepts plan bytes lines done spans accepted := by
  induction spans generalizing done s with
  | nil => exact ⟨s, [], rfl, (append_nil done).symm ▸ h, .nil⟩
  | cons span spans ih =>
    have hself : span ∈ span :: spans := .head _
    have hle := hspans.ordered span hself
    have hlen := hspans.within span hself
    have hnil : Taking plan bytes lines (done ++ []) s := (append_nil done).symm ▸ h
    unfold Grep.select_spans
    cases hpast : past_lines bytes span with
    | true =>
      exact ⟨s, [], if_pos rfl, hnil, .stop (.inl (not_touched_of_past hl hlen hpast))⟩
    | false =>
      obtain ⟨head, _, hhead, hlast, hheadlast, -, htouched⟩ := touched_iff hl hne hle hlen hpast
      rw [if_neg Bool.false_ne_true, hhead, hlast]
      dsimp only [Option.bind_eq_bind, Option.bind_some]
      have hbegins := h.begins_iff hheadlast htouched
      by_cases hlimit : s.group_end ≤ head ∧ (!plan.invert) = true
          ∧ plan.max_count.any (· ≤ s.taken) = true
      · rw [if_pos hlimit]
        obtain ⟨hend, hinvert, hany⟩ := hlimit
        obtain ⟨limit, hmax, hle⟩ := any_le_iff.mp hany
        refine ⟨s, [], rfl, hnil, .stop (.inr ⟨by simpa using hinvert, limit, hmax, ?_, ?_⟩)⟩
        · exact h.taken ▸ hle
        · exact hbegins.mpr hend
      · rw [if_neg hlimit]
        have hstep := h.step hne hhead hheadlast htouched fun t ht => hafter t ht span hself
        obtain ⟨s', accepted, hselect, htaking, haccepts⟩ := ih hstep hspans.tail fun t ht u hu => by
          rcases mem_append.mp ht with ht | ht
          · exact hafter t ht u (.tail _ hu)
          · rw [mem_singleton.mp ht]
            exact hle.trans (hspans.head_le u hu)
        refine ⟨s', span :: accepted, hselect, ?_, .cons ?_ haccepts⟩
        · rwa [append_assoc] at htaking
        · rintro (hnone | ⟨hinvert, limit, hmax, hle, hbegin⟩)
          · exact hnone head ((htouched head).mpr ⟨le_rfl, hheadlast⟩)
          · exact hlimit ⟨hbegins.mp hbegin, by rw [hinvert]; rfl,
              any_le_iff.mpr ⟨limit, hmax, h.taken.symm ▸ hle⟩⟩

end Taking

end Ferret.Grep
