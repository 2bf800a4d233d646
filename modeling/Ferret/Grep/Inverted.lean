import Ferret.Grep.Selected

/-!
# Inverted selection and windows

Inverted, the lines between the matched groups are selected until as many are
as the limit. Where no limit is given the limit of the counter is too large to
matter. Widened by their context, the groups are the runs of the lines in
context of a selected one.
-/

namespace Ferret.Grep

open Verify List

/-! ## The lines between the groups -/

section Inverted

variable {U : ℕ → Prop} [DecidablePred U] {limit : ℕ} {s : Inverting}

theorem count_add_of_forall {a i : ℕ} (h : ∀ k, a ≤ k → k < a + i → U k) :
    Nat.count U (a + i) = Nat.count U a + i := by
  rw [Nat.count_add]
  congr 1
  exact Nat.count_iff_forall.mpr fun k hk => h _ (le_self_add) (Nat.add_lt_add_left hk a)

theorem count_eq_of_forall_not {a b : ℕ} (hab : a ≤ b) (h : ∀ k, a ≤ k → k < b → ¬ U k) :
    Nat.count U b = Nat.count U a := by
  obtain ⟨i, rfl⟩ := Nat.exists_eq_add_of_le hab
  rw [Nat.count_add]
  exact Nat.add_eq_left.mpr (Nat.count_iff_forall_not.mpr fun k hk =>
    h _ (le_self_add) (Nat.add_lt_add_left hk a))

/-- The loop, at `next`: the first lines with `U` before it are selected, up to the limit. -/
structure Inverted (U : ℕ → Prop) [DecidablePred U] (limit : ℕ) (s : Inverting) : Prop where
  apart : Span.Apart s.selected
  starts : ∀ t ∈ s.selected, t.start ≤ s.next
  covers : ∀ k, Span.Union s.selected k ↔ k < s.next ∧ U k ∧ Nat.count U k < limit
  left : s.left = limit - Nat.count U s.next

theorem inverted_new : Inverted U limit ⟨limit, [], 0⟩ where
  apart := Span.apart_nil
  starts := nofun
  covers := fun k => iff_of_false (fun ⟨_, h, _⟩ => not_mem_nil h)
    fun h => absurd h.1 (Nat.not_lt_zero k)
  left := by rw [Nat.count_zero]; rfl

theorem Inverted.step (h : Inverted U limit s) (matched : Span) (hnext : s.next ≤ matched.start)
    (hle : matched.start ≤ matched.stop) (hgap : ∀ k, s.next ≤ k → k < matched.start → U k)
    (hin : ∀ k, matched.start ≤ k → k < matched.stop → ¬ U k) :
    ∃ s', invert_group s matched = some s' ∧ Inverted U limit s' ∧ s'.next = matched.stop := by
  obtain ⟨gap, hstart⟩ := Nat.exists_eq_add_of_le hnext
  have hcount : ∀ i ≤ gap, Nat.count U (s.next + i) = Nat.count U s.next + i := fun i hi =>
    count_add_of_forall fun k hk hlt => hgap k hk (by omega)
  have hstop : Nat.count U matched.stop = Nat.count U s.next + gap := by
    rw [count_eq_of_forall_not hle hin, hstart, hcount gap le_rfl]
  have hgroup : invert_group s matched = some
      { left := s.left - min s.left gap
        selected := Span.add s.selected ⟨s.next, s.next + min s.left gap⟩
        next := matched.stop } := by
    unfold invert_group
    rw [sub?_eq_some hnext, show matched.start - s.next = gap by omega]
    dsimp only [Option.bind_eq_bind, Option.bind_some]
    rw [sub?_eq_some (min_le_left _ _)]
    rfl
  refine ⟨_, hgroup, ?_, rfl⟩
  exact
    { apart := Span.apart_add h.apart h.starts
      starts := Span.start_add_le (fun t ht => (h.starts t ht).trans (hnext.trans hle))
        (hnext.trans hle)
      covers := fun k => by
        rw [Span.union_add h.apart h.starts, h.covers]
        unfold Span.Has
        dsimp only
        rcases lt_or_ge k s.next with hk | hk
        · have : k < matched.stop := by omega
          simp only [hk, this, true_and, not_le.mpr hk, false_and, or_false]
        · rcases lt_or_ge k matched.start with hlt | hge
          · obtain ⟨i, rfl⟩ := Nat.exists_eq_add_of_le hk
            rw [hcount i (by omega), h.left, iff_true_intro (hgap _ hk hlt), true_and]
            omega
          · have hno : k < matched.stop → ¬ U k := hin k hge
            rw [h.left]
            refine iff_of_false (by omega) fun hk => hno hk.1 hk.2.1
      left := by
        dsimp only
        rw [h.left, hstop]
        omega }

theorem Inverted.fold (h : Inverted U limit s) {groups : List Span} (hgroups : Span.Apart groups)
    (hnext : ∀ g ∈ groups, s.next ≤ g.start) (hU : ∀ k, s.next ≤ k → (U k ↔ ¬ Span.Union groups k))
    {n : ℕ} (hsn : s.next ≤ n) (hn : ∀ g ∈ groups, g.stop ≤ n) :
    ∃ s', groups.foldlM invert_group s = some s' ∧ Inverted U limit s' ∧ s'.next ≤ n
      ∧ ∀ k, s'.next ≤ k → U k := by
  induction groups generalizing s with
  | nil => exact ⟨s, rfl, h, hsn, fun k hk => (hU k hk).mpr fun ⟨_, h, _⟩ => not_mem_nil h⟩
  | cons g groups ih =>
    have hself : g ∈ g :: groups := .head _
    have hlt := hgroups.nonempty g hself
    have hafter := (pairwise_cons.mp hgroups.pairwise).1
    have hunion : ∀ k, Span.Union (g :: groups) k ↔ g.Has k ∨ Span.Union groups k := fun k => by
      simp only [Span.Union, mem_cons, or_and_right, exists_or, exists_eq_left]
    obtain ⟨s', hgroup, hs', hnext'⟩ := h.step g (hnext g hself) hlt.le
      (fun k hk hlt' => (hU k hk).mpr fun hin => by
        rcases (hunion k).mp hin with hin | ⟨t, ht, _, -⟩
        · exact absurd hin.1 (not_le.mpr hlt')
        · have := hafter t ht
          omega)
      (fun k hk hlt' hu => (hU k ((hnext g hself).trans hk)).mp hu ((hunion k).mpr (.inl ⟨hk, hlt'⟩)))
    obtain ⟨s'', hfold, hrest⟩ := ih hs' hgroups.tail (fun t ht => hnext' ▸ (hafter t ht).le)
      (fun k hk => by
        rw [hU k ((hnext g hself).trans (hlt.le.trans (hnext' ▸ hk))), hunion,
          or_iff_right fun hin : g.Has k => absurd hin.2 (not_lt.mpr (hnext' ▸ hk))])
      (hnext' ▸ hn g hself) fun t ht => hn t (.tail _ ht)
    exact ⟨s'', by rw [foldlM_cons, hgroup]; exact hfold, hrest⟩

end Inverted

/-! ## The selection -/

section Select

variable {plan : Plan} {bytes : Bytes} {lines : List Span}

/-- Under inversion nothing is lost after the match at which the search stops. -/
theorem Accepts.touched_of_invert (hinvert : plan.invert = true) (hl : IsLines bytes lines)
    (hne : lines ≠ []) {earlier spans accepted : List Span}
    (h : Accepts plan bytes lines earlier spans accepted)
    (hspans : Span.Ascending bytes.length spans) (k : ℕ) :
    (∃ span ∈ accepted, Touched bytes lines span k) ↔ ∃ span ∈ spans, Touched bytes lines span k := by
  induction h with
  | nil => rfl
  | @stop earlier spans span hstop =>
    refine iff_of_false (fun ⟨_, h, _⟩ => not_mem_nil h) fun ⟨t, ht, htouched⟩ => ?_
    have hself : span ∈ span :: spans := .head _
    have hnone : ∀ k, ¬ Touched bytes lines span k :=
      hstop.resolve_right fun h => Bool.false_ne_true (h.1.symm.trans hinvert)
    have hpast : past_lines bytes span = true := by
      by_contra hpast
      obtain ⟨head, _, -, -, hle, -, htouch⟩ := touched_iff hl hne (hspans.ordered span hself)
        (hspans.within span hself) (Bool.eq_false_iff.mpr hpast)
      exact hnone head ((htouch head).mpr ⟨le_rfl, hle⟩)
    refine not_touched_of_past hl (hspans.within t ht) ?_ k htouched
    rcases mem_cons.mp ht with rfl | ht'
    · exact hpast
    · obtain ⟨_, hlf⟩ : span.start = bytes.length ∧ ends_with_lf bytes = true := by
        simpa [past_lines] using hpast
      have hle := hspans.head_le t ht'
      have hordered := hspans.ordered t ht
      have hwithin := hspans.within t ht
      have hspan := hspans.ordered span hself
      have : t.start = bytes.length := by omega
      simp [past_lines, this, hlf]
  | cons _ _ ih =>
    simp only [mem_cons, or_and_right, exists_or, exists_eq_left]
    exact or_congr_right (ih hspans.tail)

theorem Touched.lt_length {span : Span} {k : ℕ} (h : Touched bytes lines span k) : k < lines.length :=
  (List.getElem?_eq_some_iff.mp h.choose_spec.1).1

theorem untouched_iff {k : ℕ} : Untouched plan bytes lines k
    ↔ ¬ ∃ span ∈ plan.grep.spans bytes, Touched bytes lines span k := by
  unfold Untouched
  simp only [not_exists, not_and]

/-- **Selection finds what is selected.** -/
theorem select_selects (hl : IsLines bytes lines) (hne : lines ≠ [])
    (hlen : bytes.length < 2 ^ 64 - 1) :
    ∃ s, select plan bytes lines = some s ∧ Selects plan bytes lines s
      ∧ ∀ k, Span.Union s.groups k → k < lines.length := by
  classical
  have hspans := plan.grep.ascending bytes
  have hnil : Taking plan bytes lines [] ⟨[], [], 0, 0⟩ := taking_nil
  obtain ⟨s, accepted, hselect, htaking, haccepts⟩ :=
    hnil.select_spans hl hne hspans nofun
  have hcovers : ∀ k, Span.Union s.groups k ↔ ∃ span ∈ accepted, Touched bytes lines span k :=
    htaking.covers
  have hbound : ∀ k, Span.Union s.groups k → k < lines.length := fun k hk => by
    obtain ⟨span, -, htouched⟩ := (hcovers k).mp hk
    exact htouched.lt_length
  unfold select
  rw [hselect]
  dsimp only [Option.bind_eq_bind, Option.bind_some]
  cases hinvert : plan.invert with
  | false =>
    have hspans' : s.spans = accepted := by
      rw [htaking.spans, hinvert]
      rfl
    rw [if_neg Bool.false_ne_true]
    refine ⟨_, rfl, ?_, hbound⟩
    exact
      { apart := htaking.apart
        accepts := fun _ => hspans'.symm ▸ haccepts
        covers := fun _ k => hspans'.symm ▸ hcovers k
        inverted := fun h => Bool.noConfusion (hinvert.symm.trans h) }
  | true =>
    have hU : ∀ k, Untouched plan bytes lines k ↔ ¬ Span.Union s.groups k := fun k => by
      rw [untouched_iff, hcovers, haccepts.touched_of_invert hinvert hl hne hspans]
    have hnew : Inverted (Untouched plan bytes lines) (plan.max_count.getD (2 ^ 64 - 1))
        ⟨plan.max_count.getD (2 ^ 64 - 1), [], 0⟩ := inverted_new
    obtain ⟨t, hfold, ht, hnext, hrest⟩ := hnew.fold htaking.apart (fun _ _ => Nat.zero_le _)
      (fun k _ => hU k) (Nat.zero_le lines.length) (htaking.apart.stop_le hbound)
    obtain ⟨u, hgroup, hu, hunext⟩ := ht.step ⟨lines.length, lines.length⟩ hnext le_rfl
      (fun k hk _ => hrest k hk) fun k hk hlt => absurd hk (not_le.mpr hlt)
    have hcovers' : ∀ k, Span.Union u.selected k ↔ k < lines.length ∧ Untouched plan bytes lines k
        ∧ ∀ limit, plan.max_count = some limit → Nat.count (Untouched plan bytes lines) k < limit := by
      intro k
      rw [hu.covers, hunext]
      refine and_congr_right fun hk => and_congr_right fun _ => ?_
      cases hmax : plan.max_count with
      | none =>
        have hlines := hl.tiles.length_le
        have hcount := Nat.count_le (p := Untouched plan bytes lines) (n := k)
        refine iff_of_true ?_ nofun
        show Nat.count (Untouched plan bytes lines) k < 2 ^ 64 - 1
        have hk : k < lines.length := hk
        omega
      | some limit => simp
    rw [if_pos rfl, foldlM_append, hfold]
    dsimp only [Option.bind_eq_bind, Option.bind_some]
    rw [foldlM_cons, hgroup]
    refine ⟨_, rfl, ?_, fun k hk => ((hcovers' k).mp hk).1⟩
    exact
      { apart := hu.apart
        accepts := fun h => Bool.noConfusion (hinvert.symm.trans h)
        covers := fun h => Bool.noConfusion (hinvert.symm.trans h)
        inverted := fun _ => ⟨rfl, hcovers'⟩ }

end Select

/-! ## Windows -/

/-- **Windows are the selected groups widened by their context**, clipped to the lines, and merged
where they touch. -/
structure Widened (plan : Plan) (groups : List Span) (n : ℕ) (windows : List Span) : Prop where
  apart : Span.Apart windows
  covers : ∀ k, Span.Union windows k
    ↔ k < n ∧ ∃ g ∈ groups, g.start ≤ k + plan.before ∧ k < g.stop + plan.after

theorem windows_widened (plan : Plan) {groups : List Span} (h : Span.Apart groups) {n : ℕ}
    (hn : n < 2 ^ 64 - 1) : Widened plan groups n (windows plan groups n) := by
  suffices hall : Widened plan groups n (windows plan groups n) ∧ ∀ bound,
      (∀ g ∈ groups, g.start ≤ bound) → ∀ w ∈ windows plan groups n, w.start ≤ bound - plan.before from
    hall.1
  induction groups using List.reverseRecOn with
  | nil =>
    refine ⟨⟨Span.apart_nil, fun k => ?_⟩, nofun⟩
    exact iff_of_false (fun ⟨_, h, _⟩ => not_mem_nil h) fun ⟨_, _, h, _⟩ => not_mem_nil h
  | append_singleton groups g ih =>
    obtain ⟨hinit, -, hbefore⟩ := pairwise_append.mp h.pairwise
    have hg : g ∈ groups ++ [g] := mem_append_right _ (mem_singleton_self g)
    obtain ⟨hwidened, hstarts⟩ := ih ⟨fun t ht => h.nonempty t (mem_append_left _ ht), hinit⟩
    have hadd : windows plan (groups ++ [g]) n = Span.add (windows plan groups n)
        ⟨g.start - plan.before, min (saturating_add g.stop plan.after) n⟩ := by
      unfold windows
      rw [foldl_append, foldl_cons, foldl_nil]
    have hle : ∀ w ∈ windows plan groups n, w.start ≤ g.start - plan.before :=
      hstarts g.start fun t ht => by
        have hlt := hbefore t ht g (mem_singleton_self g)
        have hne := h.nonempty t (mem_append_left _ ht)
        omega
    rw [hadd]
    refine ⟨⟨Span.apart_add hwidened.apart hle, fun k => ?_⟩, fun bound hbound => ?_⟩
    · rw [Span.union_add hwidened.apart hle, hwidened.covers]
      have hhas : (Span.mk (g.start - plan.before) (min (saturating_add g.stop plan.after) n)).Has k
          ↔ k < n ∧ g.start ≤ k + plan.before ∧ k < g.stop + plan.after := by
        unfold Span.Has saturating_add
        dsimp only
        omega
      rw [hhas, ← and_or_left]
      simp only [mem_append, mem_singleton, or_and_right, exists_or, exists_eq_left]
    · exact Span.start_add_le
        (hstarts bound fun t ht => hbound t (mem_append_left _ ht))
        (Nat.sub_le_sub_right (hbound g hg) _)

end Ferret.Grep
