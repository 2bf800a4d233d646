import Mathlib.Data.List.Infix
import Mathlib.Algebra.Order.Ring.Nat

/-!
# Texts cut at some of their separators

A text is handed out in pieces, cut at some of its separators and at no other
place: each piece but the last stops just before a separator, which belongs to
no piece. A piece so consists of whole lines, where a line is what lies
between two separators, and it remembers where it begins.

`through` cuts a text short in another way: after the first occurrence of an
element, kept.
-/

variable {α : Type*}

section Search

variable [DecidableEq α] {a : α} {l : List α} {i : ℕ}

/-! ## The first and the last occurrence of an element -/

/-- **The first `a` splits its list**, with no `a` before it. -/
theorem exists_of_idxOf? (h : l.idxOf? a = some i) :
    ∃ u v, l = u ++ a :: v ∧ u.length = i ∧ a ∉ u := by
  obtain ⟨hi, ha, hno⟩ := List.idxOf?_eq_some_iff.mp h
  refine ⟨l.take i, l.drop (i + 1), ?_, List.length_take_of_le hi.le, fun hmem => ?_⟩
  · rw [← ha, List.cons_getElem_drop_succ, List.take_append_drop]
  · obtain ⟨j, hj, rfl⟩ := List.mem_take_iff_getElem.mp hmem
    exact hno j (lt_of_lt_of_le hj (min_le_left _ _)) rfl

/-- The position of the last `a`. -/
def memrchr (a : α) : List α → Option ℕ
  | [] => none
  | b :: l =>
    match memrchr a l with
    | some i => some (i + 1)
    | none => if b = a then some 0 else none

theorem memrchr_cons_of_some {b : α} (h : memrchr a l = some i) :
    memrchr a (b :: l) = some (i + 1) := by
  rw [memrchr, h]

theorem memrchr_cons_of_none {b : α} (h : memrchr a l = none) :
    memrchr a (b :: l) = if b = a then some 0 else none := by
  rw [memrchr, h]

theorem memrchr_eq_none : memrchr a l = none ↔ a ∉ l := by
  induction l with
  | nil => exact ⟨fun _ => List.not_mem_nil, fun _ => rfl⟩
  | cons b l ih =>
    rw [List.mem_cons, not_or, ← ih]
    cases hl : memrchr a l with
    | some i =>
      rw [memrchr_cons_of_some hl]
      exact ⟨fun h => absurd h nofun, fun h => absurd h.2 nofun⟩
    | none =>
      rw [memrchr_cons_of_none hl, ite_eq_right_iff]
      exact ⟨fun h => ⟨fun hab => absurd (h hab.symm) nofun, rfl⟩,
        fun h hba => absurd hba.symm h.1⟩

/-- **The last `a` splits its list**, with no `a` after it. -/
theorem exists_of_memrchr (h : memrchr a l = some i) :
    ∃ u v, l = u ++ a :: v ∧ u.length = i ∧ a ∉ v := by
  induction l generalizing i with
  | nil => cases h
  | cons b l ih =>
    cases hl : memrchr a l with
    | some j =>
      obtain ⟨u, v, rfl, rfl, hv⟩ := ih hl
      rw [memrchr_cons_of_some hl] at h
      cases h
      exact ⟨b :: u, v, rfl, rfl, hv⟩
    | none =>
      rw [memrchr_cons_of_none hl] at h
      split_ifs at h with hb
      cases h
      exact ⟨[], l, by rw [hb]; rfl, rfl, memrchr_eq_none.mp hl⟩

/-! ## A text up to a sentinel -/

/-- The elements up to and with the first sentinel, if there is one. -/
def through (sentinel : Option α) (l : List α) : List α :=
  match sentinel.bind l.idxOf? with
  | some i => l.take (i + 1)
  | none => l

variable {sentinel : Option α} {u v : List α}

@[simp]
theorem through_none : through none l = l := rfl

theorem through_of_not_mem (h : ∀ a ∈ sentinel, a ∉ l) : through sentinel l = l := by
  cases sentinel with
  | none => rfl
  | some a =>
    have hno : l.idxOf? a = none := List.idxOf?_eq_none_iff.mpr (h a rfl)
    rw [through, Option.bind_some, hno]

theorem through_append_cons (h : a ∉ u) : through (some a) (u ++ a :: v) = u ++ [a] := by
  have hat : (u ++ a :: v).idxOf? a = some u.length :=
    List.idxOf?_eq_some_iff.mpr ⟨by simp, by simp, fun j hj hja => h (by
      rw [List.getElem_append_left hj] at hja
      exact hja ▸ List.getElem_mem hj)⟩
  rw [through, Option.bind_some, hat]
  show (u ++ a :: v).take (u.length + 1) = u ++ [a]
  rw [List.take_length_add_append]
  rfl

/-- What lies before every sentinel is kept. -/
theorem through_append (h : ∀ a ∈ sentinel, a ∉ u) :
    through sentinel (u ++ v) = u ++ through sentinel v := by
  cases sentinel with
  | none => rfl
  | some a =>
    have hu := h a rfl
    cases hv : v.idxOf? a with
    | none =>
      have hv' : a ∉ v := List.idxOf?_eq_none_iff.mp hv
      rw [through_of_not_mem (l := v) (fun _ hb => Option.some.inj hb ▸ hv'),
        through_of_not_mem fun _ hb hmem => ?_]
      cases hb
      exact (List.mem_append.mp hmem).elim hu hv'
    | some i =>
      obtain ⟨x, y, rfl, -, hx⟩ := exists_of_idxOf? hv
      rw [through_append_cons hx, ← List.append_assoc, through_append_cons, List.append_assoc]
      exact fun hmem => (List.mem_append.mp hmem).elim hu hx

end Search

/-! ## Pieces -/

/-- A piece of a text: its elements, where it begins, and whether a separator
follows it. -/
structure Piece (α : Type*) where
  run : List α
  base : ℕ
  terminated : Bool

/-- **The text, which begins at `base`, cut at some of its separators.** -/
inductive Cuts (sep : α) : List α → ℕ → List (Piece α) → Prop
  | last (run : List α) (base : ℕ) : Cuts sep run base [⟨run, base, false⟩]
  | cons {run rest : List α} {base : ℕ} {pieces : List (Piece α)} :
    Cuts sep rest (base + run.length + 1) pieces →
      Cuts sep (run ++ sep :: rest) base (⟨run, base, true⟩ :: pieces)

namespace Cuts

open List

variable {sep : α} {text : List α} {base : ℕ} {pieces : List (Piece α)}

theorem ne_nil (h : Cuts sep text base pieces) : pieces ≠ [] := by
  cases h with
  | last => exact nofun
  | cons => exact nofun

/-- **The pieces, with the separators between them, are the text.** -/
theorem intercalate (h : Cuts sep text base pieces) :
    [sep].intercalate (pieces.map Piece.run) = text := by
  induction h with
  | last run base => exact intercalate_singleton
  | @cons run _ base pieces h ih =>
    rw [map_cons, intercalate_cons_of_ne_nil (by simpa using h.ne_nil), ih]
    simp

/-- **Where a piece lies**: it begins at its base, at the text's start or just
after a separator, and ends at the text's end or just before one. -/
theorem exists_around (h : Cuts sep text base pieces) {p : Piece α} (hp : p ∈ pieces) :
    ∃ before after, text = before ++ (p.run ++ after) ∧ p.base = base + before.length ∧
      (before = [] ∨ ∃ u, before = u ++ [sep]) ∧
      (if p.terminated then ∃ v, after = sep :: v else after = []) := by
  induction h with
  | last run base =>
    obtain rfl := mem_singleton.mp hp
    exact ⟨[], [], (append_nil run).symm, rfl, .inl rfl, by simp⟩
  | @cons run rest base pieces h ih =>
    rcases List.mem_cons.mp hp with rfl | hp
    · exact ⟨[], sep :: rest, rfl, rfl, .inl rfl, by simp⟩
    · obtain ⟨before, after, rfl, hbase, hstart, hend⟩ := ih hp
      refine ⟨run ++ sep :: before, after, by simp, ?_, .inr ?_, hend⟩
      · rw [hbase, length_append, length_cons]
        omega
      · rcases hstart with rfl | ⟨u, rfl⟩
        · exact ⟨run, rfl⟩
        · exact ⟨run ++ sep :: u, by simp⟩

end Cuts
