import Ferret.Lib.Spans
import Mathlib.Data.List.Sort
import Mathlib.Data.List.TakeWhile

/-!
# Ranges that tile

Spans **tile** a range if each begins where the one before ends and none is
empty. A position of the range is then in exactly one tile, found by skipping
those that end at or before it (`locate`).

Spans that are apart, within a range, have their positions listed once each,
in order (`positions`).
-/

namespace Span

open List

/-- **Spans tile a range**, from `a` up to before `z`. -/
inductive Tiles (z : ℕ) : ℕ → List Span → Prop
  | nil : Tiles z z []
  | cons {s : Span} {spans : List Span} :
    s.start < s.stop → Tiles z s.stop spans → Tiles z s.start (s :: spans)

/-- The tile a position is in. -/
def locate (tiles : List Span) (p : ℕ) : ℕ := (tiles.takeWhile fun t => t.stop ≤ p).length

variable {a z p q i j k : ℕ} {s t : Span} {tiles spans : List Span}

theorem locate_mono (tiles : List Span) (hpq : p ≤ q) : locate tiles p ≤ locate tiles q := by
  unfold locate
  induction tiles with
  | nil => exact le_rfl
  | cons t tiles ih =>
    rw [takeWhile_cons, takeWhile_cons]
    by_cases ht : t.stop ≤ p
    · rw [if_pos (decide_eq_true ht), if_pos (decide_eq_true (ht.trans hpq))]
      exact Nat.succ_le_succ ih
    · rw [if_neg (by simpa using ht)]
      exact Nat.zero_le _

namespace Tiles

theorem le (h : Tiles z a tiles) : a ≤ z := by
  induction h with
  | nil => exact le_rfl
  | cons hlt _ ih => exact hlt.le.trans ih

theorem length_le (h : Tiles z a tiles) : tiles.length + a ≤ z := by
  induction h with
  | nil => exact (zero_add z).le
  | cons _ _ _ =>
    rw [length_cons]
    omega

/-- Where a tile lies. -/
theorem bounds (h : Tiles z a tiles) (ht : tiles[k]? = some t) :
    a ≤ t.start ∧ t.start < t.stop ∧ t.stop ≤ z := by
  induction h generalizing k with
  | nil => cases ht
  | @cons s _ hlt hrest ih =>
    cases k with
    | zero =>
      cases ht
      exact ⟨le_rfl, hlt, hrest.le⟩
    | succ k =>
      obtain ⟨hle, hlt', hz⟩ := ih ht
      exact ⟨hlt.le.trans hle, hlt', hz⟩

theorem head (h : Tiles z a tiles) (ht : tiles[0]? = some t) : t.start = a := by
  cases h with
  | nil => cases ht
  | cons => cases ht; rfl

/-- A tile begins where the one before it ends. -/
theorem adjoin (h : Tiles z a tiles) (hs : tiles[k]? = some s) (ht : tiles[k + 1]? = some t) :
    t.start = s.stop := by
  induction h generalizing k with
  | nil => cases hs
  | @cons _ _ _ hrest ih =>
    cases k with
    | zero =>
      cases hs
      exact hrest.head ht
    | succ k => exact ih hs ht

theorem eq_of_nil (h : Tiles z a []) : a = z := by
  cases h
  rfl

section

variable (h : Tiles z a tiles)

include h

/-- The last tile ends where the range does. -/
theorem stop_last (ht : tiles[k]? = some t) (hlast : k + 1 = tiles.length) : t.stop = z := by
  induction h generalizing k with
  | nil => cases ht
  | @cons s _ _ hrest ih =>
    cases k with
    | zero =>
      cases ht
      rw [length_eq_zero_iff.mp (Nat.succ.inj hlast).symm] at hrest
      exact hrest.eq_of_nil
    | succ k => exact ih ht (Nat.succ.inj hlast)

/-- An earlier tile ends where a later one begins, or before. -/
theorem stop_le_start (hs : tiles[i]? = some s) (ht : tiles[j]? = some t)
    (hij : i < j) : s.stop ≤ t.start := by
  induction h generalizing i j with
  | nil => cases hs
  | @cons _ _ _ hrest ih =>
    obtain ⟨j, rfl⟩ := Nat.exists_eq_succ_of_ne_zero (Nat.ne_zero_of_lt hij)
    cases i with
    | zero =>
      cases hs
      exact (hrest.bounds ht).1
    | succ i => exact ih hs ht (Nat.lt_of_succ_lt_succ hij)

theorem start_lt_start (hs : tiles[i]? = some s) (ht : tiles[j]? = some t)
    (hij : i < j) : s.start < t.start :=
  (h.bounds hs).2.1.trans_le (h.stop_le_start hs ht hij)

theorem stop_le_stop (hs : tiles[i]? = some s) (ht : tiles[j]? = some t)
    (hij : i ≤ j) : s.stop ≤ t.stop := by
  rcases hij.eq_or_lt with rfl | hij
  · rw [Option.some.inj (hs.symm.trans ht)]
  · exact (h.stop_le_start hs ht hij).trans (h.bounds ht).2.1.le

/-- **A tile is at or after the one a position is in** if it ends after the position. -/
theorem locate_le_iff (ht : tiles[k]? = some t) : locate tiles p ≤ k ↔ p < t.stop := by
  induction h generalizing k with
  | nil => cases ht
  | @cons s _ _ hrest ih =>
    unfold locate
    by_cases hs : s.stop ≤ p
    · rw [takeWhile_cons, if_pos (decide_eq_true hs), length_cons]
      cases k with
      | zero =>
        cases ht
        exact iff_of_false (Nat.not_succ_le_zero _) (not_lt.mpr hs)
      | succ k => exact Nat.succ_le_succ_iff.trans (ih ht)
    · rw [takeWhile_cons, if_neg (by simpa using hs)]
      refine iff_of_true (Nat.zero_le _) ((not_le.mp hs).trans_le ?_)
      cases k with
      | zero => cases ht; exact le_rfl
      | succ k => exact (hrest.bounds ht).1.trans (hrest.bounds ht).2.1.le

/-- A tile is at or before the one a position is in if it begins at or before the position. -/
theorem le_locate_iff (ht : tiles[k]? = some t) (hp : a ≤ p) :
    k ≤ locate tiles p ↔ t.start ≤ p := by
  cases k with
  | zero =>
    rw [h.head ht]
    exact iff_of_true (Nat.zero_le _) hp
  | succ k =>
    have hk : k < tiles.length := Nat.lt_of_succ_lt (List.getElem?_eq_some_iff.mp ht).1
    have hs := getElem?_eq_getElem hk
    rw [Nat.succ_le_iff, ← not_le, h.locate_le_iff hs, h.adjoin hs ht]
    exact not_lt

/-- A position past the range is in no tile. -/
theorem locate_eq_length (hp : z ≤ p) : locate tiles p = tiles.length := by
  unfold locate
  rw [takeWhile_eq_self_iff.mpr]
  intro t ht
  obtain ⟨k, hk⟩ := getElem?_of_mem ht
  exact decide_eq_true ((h.bounds hk).2.2.trans hp)

theorem locate_lt_length (ha : a ≤ p) (hp : p < z) : locate tiles p < tiles.length := by
  have hlt : a < z := ha.trans_lt hp
  cases hlast : tiles.getLast? with
  | none =>
    rw [getLast?_eq_none_iff.mp hlast] at h
    exact absurd h.eq_of_nil hlt.ne
  | some t =>
    rw [getLast?_eq_getElem?] at hlast
    have hk := (List.getElem?_eq_some_iff.mp hlast).1
    have hle := (h.locate_le_iff hlast).mpr (h.stop_last hlast (by omega) ▸ hp)
    omega

end

end Tiles

/-! ## Lists in order -/

section Ordered

variable {α β : Type*} {P Q : α → Bool} {l : List α}

/-- Where what satisfies `P` comes first, taking while it does is filtering. -/
theorem takeWhile_eq_filter (h : l.Pairwise fun x y => P y = true → P x = true) :
    l.takeWhile P = l.filter P := by
  induction l with
  | nil => rfl
  | cons x l ih =>
    obtain ⟨hx, hl⟩ := pairwise_cons.mp h
    rw [takeWhile_cons, filter_cons]
    split
    · rw [ih hl]
    · next hno => exact (filter_eq_nil_iff.mpr fun y hy hP => hno (hx y hy hP)).symm

theorem dropWhile_eq_filter (h : l.Pairwise fun x y => P y = true → P x = true) :
    l.dropWhile P = l.filter fun x => !P x := by
  induction l with
  | nil => rfl
  | cons x l ih =>
    obtain ⟨hx, hl⟩ := pairwise_cons.mp h
    rw [dropWhile_cons, filter_cons]
    by_cases hP : P x = true
    · rw [if_pos hP, if_neg (by rw [hP]; decide), ih hl]
    · rw [if_neg hP, if_pos (by simpa using hP)]
      congr 1
      exact (filter_eq_self.mpr fun y hy => by
        simpa using fun h => hP (hx y hy h)).symm

/-- Where what satisfies `P` comes before what satisfies `Q`. -/
theorem filter_append_filter (h : l.Pairwise fun x y => Q x = true → P y = false)
    (hdisjoint : ∀ x ∈ l, P x = true → Q x = false) :
    l.filter P ++ l.filter Q = l.filter fun x => P x || Q x := by
  induction l with
  | nil => rfl
  | cons x l ih =>
    obtain ⟨hx, hl⟩ := pairwise_cons.mp h
    have ih := ih hl fun y hy => hdisjoint y (.tail _ hy)
    by_cases hQ : Q x = true
    · have hP : P x = false := by
        by_contra hP
        have := hdisjoint x (.head _) (by simpa using hP)
        exact Bool.noConfusion (hQ.symm.trans this)
      have hnil : l.filter P = [] :=
        filter_eq_nil_iff.mpr fun y hy => by rw [hx y hy hQ]; exact nofun
      rw [hnil, nil_append] at ih
      rw [filter_cons_of_neg (by rw [hP]; exact Bool.false_ne_true), hnil, nil_append,
        filter_cons_of_pos hQ, filter_cons_of_pos (by rw [hQ, Bool.or_true]), ih]
    · by_cases hP : P x = true
      · rw [filter_cons_of_pos hP, filter_cons_of_neg hQ, cons_append, ih,
          filter_cons_of_pos (by rw [hP, Bool.true_or])]
      · rw [filter_cons_of_neg hP, filter_cons_of_neg hQ, ih,
          filter_cons_of_neg (by rw [Bool.not_eq_true] at hP hQ; rw [hP, hQ]; exact nofun)]

/-- Elements of which the function gives nothing may be left out. -/
theorem filterMap_filter_of_none {f : α → Option β} (h : ∀ x ∈ l, P x = false → f x = none) :
    (l.filter P).filterMap f = l.filterMap f := by
  rw [filterMap_filter]
  refine filterMap_congr fun x hx => ?_
  split
  · rfl
  · next hP => exact (h x hx (by simpa using hP)).symm

end Ordered

/-! ## Positions -/

/-- The positions of ranges, one range after the other. -/
def positions (spans : List Span) : List ℕ :=
  spans.flatMap fun s => List.range' s.start (s.stop - s.start)

theorem mem_positions : p ∈ positions spans ↔ Union spans p := by
  unfold positions Union Has
  rw [mem_flatMap]
  refine exists_congr fun s => and_congr_right fun _ => ?_
  rw [mem_range'_1]
  omega

instance (s : Span) (i : ℕ) : Decidable (s.Has i) := inferInstanceAs (Decidable (_ ∧ _))

instance (spans : List Span) (i : ℕ) : Decidable (Union spans i) :=
  decidable_of_iff _ mem_positions

namespace Apart

theorem tail (h : Apart (s :: spans)) : Apart spans where
  nonempty := fun t ht => h.nonempty t (.tail _ ht)
  pairwise := (pairwise_cons.mp h.pairwise).2

theorem pairwise_positions (h : Apart spans) : (positions spans).Pairwise (· < ·) := by
  induction spans with
  | nil => exact .nil
  | cons s spans ih =>
    refine pairwise_append.mpr ⟨pairwise_lt_range', ih h.tail, fun i hi j hj => ?_⟩
    obtain ⟨t, ht, _, -⟩ := mem_positions.mp hj
    have hlt := (pairwise_cons.mp h.pairwise).1 t ht
    have hi' := (mem_range'_1.mp hi).2
    have := h.nonempty s (.head _)
    omega

/-- **Each position once, in order.** -/
theorem positions_eq_filter (h : Apart spans) {n : ℕ} (hn : ∀ s ∈ spans, s.stop ≤ n) :
    positions spans = (List.range n).filter fun i => decide (Union spans i) := by
  refine h.pairwise_positions.eq_of_mem_iff (pairwise_lt_range.filter _) fun i => ?_
  rw [mem_positions, mem_filter, mem_range, decide_eq_true_eq]
  exact (and_iff_right_of_imp fun ⟨s, hs, hi⟩ => hi.2.trans_le (hn s hs)).symm

/-- Ranges of positions below `n` end there or before. -/
theorem stop_le (h : Apart spans) {n : ℕ} (hn : ∀ p, Union spans p → p < n) :
    ∀ s ∈ spans, s.stop ≤ n := by
  intro s hs
  have hlt := h.nonempty s hs
  have := hn (s.stop - 1) ⟨s, hs, Nat.le_sub_one_of_lt hlt, by omega⟩
  omega

/-- Two spans of which each begins where the other ends, or before, are one. -/
theorem eq_of_meet (h : Apart spans) (hs : s ∈ spans) (ht : t ∈ spans) (hst : s.start ≤ t.stop)
    (hts : t.start ≤ s.stop) : s = t := by
  induction spans with
  | nil => cases hs
  | cons u spans ih =>
    have hu := (pairwise_cons.mp h.pairwise).1
    rcases mem_cons.mp hs with rfl | hs' <;> rcases mem_cons.mp ht with rfl | ht'
    · rfl
    · exact absurd (hu t ht') (not_lt.mpr hts)
    · exact absurd (hu s hs') (not_lt.mpr hst)
    · exact ih h.tail hs' ht'

/-- A span apart from others goes no further. -/
theorem not_union_stop (h : Apart spans) (hs : s ∈ spans) : ¬ Union spans s.stop := by
  rintro ⟨t, ht, hle, hlt⟩
  have hlt' := h.nonempty s hs
  obtain rfl := h.eq_of_meet hs ht (hlt'.le.trans hlt.le) hle
  exact lt_irrefl _ hlt

/-- **A span around a position** that is covered together with the positions up to another has the
other too. -/
theorem has_of_has (h : Apart spans) (hs : s ∈ spans) (hp : s.Has p) (hpq : p ≤ q)
    (hcovered : ∀ r, p ≤ r → r ≤ q → Union spans r) : s.Has q := by
  refine ⟨hp.1.trans hpq, ?_⟩
  by_contra hq
  exact h.not_union_stop hs (hcovered s.stop hp.2.le (not_lt.mp hq))

end Apart

namespace Tiles

theorem positions_eq (h : Tiles z a tiles) : positions tiles = List.range' a (z - a) := by
  induction h with
  | nil => rw [Nat.sub_self]; rfl
  | @cons s _ _ hrest ih =>
    have hle := hrest.le
    unfold positions at ih ⊢
    rw [flatMap_cons, ih]
    have happend : List.range' s.start (s.stop - s.start)
        ++ List.range' (s.start + (s.stop - s.start)) (z - s.stop) = _ := range'_append_1
    rw [show s.start + (s.stop - s.start) = s.stop by omega,
      show s.stop - s.start + (z - s.stop) = z - s.start by omega] at happend
    exact happend

theorem pairwise (h : Tiles z a tiles) : tiles.Pairwise fun s t => s.stop ≤ t.start := by
  induction h with
  | nil => exact .nil
  | cons _ hrest ih =>
    refine pairwise_cons.mpr ⟨fun t ht => ?_, ih⟩
    obtain ⟨k, hk⟩ := getElem?_of_mem ht
    exact (hrest.bounds hk).1

end Tiles

/-- **What is sorted by a position, range by range**, is what has a position in one of the ranges. -/
theorem flatMap_filter_has {α : Type*} (f : α → ℕ) {l : List α}
    (hl : l.Pairwise fun x y => f x ≤ f y) (hspans : spans.Pairwise fun s t => s.stop ≤ t.start) :
    (spans.flatMap fun s => l.filter fun x => decide (s.Has (f x)))
      = l.filter fun x => decide (Union spans (f x)) := by
  induction spans with
  | nil =>
    refine (filter_eq_nil_iff.mpr fun x _ => ?_).symm
    simp [Union]
  | cons s spans ih =>
    obtain ⟨hs, hspans⟩ := pairwise_cons.mp hspans
    have hlater : ∀ {i}, Union spans i → s.stop ≤ i := by
      rintro i ⟨t, ht, hle, -⟩
      exact (hs t ht).trans hle
    rw [flatMap_cons, ih hspans, filter_append_filter]
    · refine filter_congr fun x _ => ?_
      rw [← Bool.decide_or]
      exact decide_eq_decide.mpr (by simp only [Union, mem_cons, or_and_right, exists_or,
        exists_eq_left])
    · refine hl.imp fun hle hQ => decide_eq_false fun hP => ?_
      exact absurd hP.2 (not_lt.mpr ((hlater (of_decide_eq_true hQ)).trans hle))
    · refine fun x _ hP => decide_eq_false fun hQ => ?_
      exact absurd (of_decide_eq_true hP).2 (not_lt.mpr (hlater hQ))

end Span
