import Mathlib.Data.List.Basic
import Mathlib.Algebra.Order.Ring.Nat

/-!
# Ranges of positions

A `Span` is a range of positions of a list, its end excluded. Spans that
**ascend** do not overlap, but may touch or be empty; spans that are **apart**
are not empty and do not even touch, so that each is a maximal run of what
they cover. `Span.add` adds a range to spans that are apart, merging it into
the last where they meet.
-/

/-- A range of positions, from `start` up to before `stop`. -/
structure Span where
  start : ℕ
  stop : ℕ
deriving DecidableEq

namespace Span

open List

variable {α : Type*} {n i : ℕ} {s t : Span} {spans : List Span} {l : List α}

def is_empty (s : Span) : Bool := !decide (s.start < s.stop)

/-- The elements of a range. -/
def slice (s : Span) (l : List α) : List α := (l.take s.stop).drop s.start

/-- The elements of a range that is one of the list's. -/
def slice? (s : Span) (l : List α) : Option (List α) :=
  if s.start ≤ s.stop ∧ s.stop ≤ l.length then some (s.slice l) else none

theorem slice?_eq_some (hle : s.start ≤ s.stop) (hlen : s.stop ≤ l.length) :
    s.slice? l = some (s.slice l) := if_pos ⟨hle, hlen⟩

theorem length_slice (hlen : s.stop ≤ l.length) : (s.slice l).length = s.stop - s.start := by
  unfold slice
  rw [length_drop, length_take, min_eq_left hlen]

theorem mem_slice {x : α} (hx : l[i]? = some x) (hstart : s.start ≤ i) (hstop : i < s.stop) :
    x ∈ s.slice l := by
  unfold slice
  refine mem_iff_getElem?.mpr ⟨i - s.start, ?_⟩
  rw [getElem?_drop, Nat.add_sub_cancel' hstart, getElem?_take, if_pos hstop, hx]

/-- A position lies in a range. -/
def Has (s : Span) (i : ℕ) : Prop := s.start ≤ i ∧ i < s.stop

/-- A position lies in one of the ranges. -/
def Union (spans : List Span) (i : ℕ) : Prop := ∃ s ∈ spans, s.Has i

/-- **Spans ascend without overlap**, within a list of `n` elements. -/
structure Ascending (n : ℕ) (spans : List Span) : Prop where
  ordered : ∀ s ∈ spans, s.start ≤ s.stop
  within : ∀ s ∈ spans, s.stop ≤ n
  pairwise : spans.Pairwise fun a b => a.stop ≤ b.start

namespace Ascending

theorem tail (h : Ascending n (s :: spans)) : Ascending n spans where
  ordered := fun t ht => h.ordered t (.tail _ ht)
  within := fun t ht => h.within t (.tail _ ht)
  pairwise := (pairwise_cons.mp h.pairwise).2

theorem head_le (h : Ascending n (s :: spans)) : ∀ t ∈ spans, s.stop ≤ t.start :=
  (pairwise_cons.mp h.pairwise).1

theorem sublist {spans' : List Span} (h : Ascending n spans) (hsub : spans'.Sublist spans) :
    Ascending n spans' where
  ordered := fun s hs => h.ordered s (hsub.subset hs)
  within := fun s hs => h.within s (hsub.subset hs)
  pairwise := h.pairwise.sublist hsub

end Ascending

/-- **Spans apart**: ascending, none empty, no two touching. -/
structure Apart (spans : List Span) : Prop where
  nonempty : ∀ s ∈ spans, s.start < s.stop
  pairwise : spans.Pairwise fun a b => a.stop < b.start

theorem apart_nil : Apart [] where
  nonempty := fun _ h => absurd h not_mem_nil
  pairwise := .nil

/-- Adds a range, merging it into the last span where they meet. -/
def add (spans : List Span) (range : Span) : List Span :=
  if range.is_empty then spans
  else
    match spans.getLast? with
    | some last =>
      if range.start ≤ last.stop then
        spans.dropLast ++ [{ last with stop := max last.stop range.stop }]
      else spans ++ [range]
    | none => [range]

/-- What `add` comes to. -/
theorem add_cases (spans : List Span) (range : Span) :
    (range.stop ≤ range.start ∧ add spans range = spans)
      ∨ (range.start < range.stop ∧ ∃ init last, spans = init ++ [last] ∧ range.start ≤ last.stop
          ∧ add spans range = init ++ [{ last with stop := max last.stop range.stop }])
      ∨ (range.start < range.stop ∧ (∀ last, spans.getLast? = some last → last.stop < range.start)
          ∧ add spans range = spans ++ [range]) := by
  unfold add is_empty
  by_cases hrange : range.start < range.stop
  · rw [decide_eq_true hrange, if_neg (by decide)]
    cases hlast : spans.getLast? with
    | none =>
      obtain rfl := getLast?_eq_none_iff.mp hlast
      exact .inr (.inr ⟨hrange, by simp, rfl⟩)
    | some last =>
      obtain ⟨init, rfl⟩ := getLast?_eq_some_iff.mp hlast
      dsimp only
      split_ifs with hmeet
      · exact .inr (.inl ⟨hrange, init, last, rfl, hmeet, by rw [dropLast_concat]⟩)
      · exact .inr (.inr ⟨hrange, fun last' h => Option.some.inj h ▸ not_le.mp hmeet, rfl⟩)
  · rw [decide_eq_false hrange, if_pos (by decide)]
    exact .inl ⟨not_lt.mp hrange, rfl⟩

/-- **Adding a range that starts after the others do** covers what they and it cover. -/
theorem union_add {range : Span} (h : Apart spans) (hstart : ∀ s ∈ spans, s.start ≤ range.start) :
    Union (add spans range) i ↔ Union spans i ∨ range.Has i := by
  rcases add_cases spans range with ⟨hempty, hadd⟩ | ⟨-, _, last, rfl, _, hadd⟩ | ⟨-, -, hadd⟩
  · rw [hadd]
    exact (or_iff_left fun hi => absurd (hi.1.trans_lt hi.2) (not_lt.mpr hempty)).symm
  · have hlast := hstart last (by simp)
    have hne := h.nonempty last (by simp)
    rw [hadd]
    simp only [Union, mem_append, mem_singleton, or_and_right, exists_or, exists_eq_left,
      or_assoc, Has]
    refine or_congr_right ?_
    rw [lt_max_iff]
    omega
  · rw [hadd]
    simp only [Union, mem_append, mem_singleton, or_and_right, exists_or, exists_eq_left]

/-- A range that starts after the others do keeps them apart. -/
theorem apart_add {range : Span} (h : Apart spans) (hstart : ∀ s ∈ spans, s.start ≤ range.start) :
    Apart (add spans range) := by
  rcases add_cases spans range with ⟨-, hadd⟩ | ⟨hrange, init, last, rfl, _, hadd⟩
    | ⟨hrange, hbefore, hadd⟩
  · rwa [hadd]
  · obtain ⟨hinit, -, hlast⟩ := pairwise_append.mp h.pairwise
    rw [hadd]
    refine ⟨fun s hs => ?_, pairwise_append.mpr
      ⟨hinit, pairwise_singleton _ _, fun s hs t ht => ?_⟩⟩
    · rcases mem_append.mp hs with hs | hs
      · exact h.nonempty s (mem_append_left _ hs)
      · rw [mem_singleton.mp hs]
        exact lt_max_of_lt_left (h.nonempty last (by simp))
    · rw [mem_singleton.mp ht]
      exact hlast s hs last (mem_singleton_self _)
  · rw [hadd]
    refine ⟨fun s hs => ?_, pairwise_append.mpr
      ⟨h.pairwise, pairwise_singleton _ _, fun s hs t ht => ?_⟩⟩
    · rcases mem_append.mp hs with hs | hs
      · exact h.nonempty s hs
      · rwa [mem_singleton.mp hs]
    · rw [mem_singleton.mp ht]
      cases hlast : spans.getLast? with
      | none =>
        rw [getLast?_eq_none_iff.mp hlast] at hs
        exact absurd hs not_mem_nil
      | some last =>
        have hlt := hbefore last hlast
        obtain ⟨init, rfl⟩ := getLast?_eq_some_iff.mp hlast
        rcases mem_append.mp hs with hs | hs
        · have hpair := (pairwise_append.mp h.pairwise).2.2 s hs last
            (mem_singleton_self _)
          have hne := h.nonempty last (by simp)
          omega
        · rwa [mem_singleton.mp hs]

/-- A bound on the starts stays one. -/
theorem start_add_le {range : Span} {bound : ℕ} (hspans : ∀ s ∈ spans, s.start ≤ bound)
    (hrange : range.start ≤ bound) : ∀ s ∈ add spans range, s.start ≤ bound := by
  intro s hs
  rcases add_cases spans range with ⟨-, hadd⟩ | ⟨-, _, last, rfl, -, hadd⟩ | ⟨-, -, hadd⟩
  · exact hspans s (hadd ▸ hs)
  · rw [hadd] at hs
    rcases mem_append.mp hs with hs | hs
    · exact hspans s (mem_append_left _ hs)
    · rw [mem_singleton.mp hs]
      exact hspans last (by simp)
  · rw [hadd] at hs
    rcases mem_append.mp hs with hs | hs
    · exact hspans s hs
    · rwa [mem_singleton.mp hs]

end Span
