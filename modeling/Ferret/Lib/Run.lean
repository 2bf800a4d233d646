import Mathlib.Data.List.Nodup
import Mathlib.Data.List.TakeDrop

/-!
# Runs of a list

A run of adjacent positions, the elements there, and the list with others in
their place.
-/

/-- A range of positions. -/
structure Run where
  start : ℕ
  stop : ℕ
  start_le : start ≤ stop

namespace Run

open List

variable {α β : Type}

def len (run : Run) : ℕ := run.stop - run.start

/-- The elements at the run. -/
def slice (run : Run) (l : List α) : List α := (l.drop run.start).take run.len

/-- Replaces the elements at the run. -/
def splice (run : Run) (l : List α) (new : Option α) : List α :=
  l.take run.start ++ new.toList ++ l.drop run.stop

theorem slice_map (run : Run) (f : α → β) (l : List α) : run.slice (l.map f) = (run.slice l).map f := by
  simp [slice, map_take, map_drop]

theorem splice_map (run : Run) (f : α → β) (l : List α) (new : Option α) :
    run.splice (l.map f) (new.map f) = (run.splice l new).map f := by
  cases new <;> simp [splice, map_take, map_drop]

/-- A list in three parts: before the run, at it, and after it. -/
theorem parts (run : Run) (l : List α) :
    l = l.take run.start ++ run.slice l ++ l.drop run.stop := by
  have hstop : run.start + run.len = run.stop := Nat.add_sub_cancel' run.start_le
  rw [slice, append_assoc]
  conv_lhs => rw [← take_append_drop run.start l]
  congr 1
  rw [← hstop, ← drop_drop, take_append_drop]

theorem length_slice (run : Run) {l : List α} (h : run.stop ≤ l.length) :
    (run.slice l).length = run.len := by
  have := run.start_le
  simp only [slice, len, length_take, length_drop]
  omega

/-- As long a run, from another position. -/
def moved (run : Run) (start : ℕ) : Run where
  start := start
  stop := start + run.len
  start_le := Nat.le_add_right ..

@[simp] theorem len_moved (run : Run) (start : ℕ) : (run.moved start).len = run.len :=
  Nat.add_sub_cancel_left ..

theorem slice_parts {run : Run} {A X B : List α} (hstart : run.start = A.length)
    (hlen : run.len = X.length) : run.slice (A ++ X ++ B) = X := by
  rw [slice, hstart, hlen, append_assoc, drop_left, take_left]

theorem splice_parts {run : Run} {A X B : List α} {new : Option α} (hstart : run.start = A.length)
    (hlen : run.len = X.length) : run.splice (A ++ X ++ B) new = A ++ new.toList ++ B := by
  have hstop : run.stop = (A ++ X).length := by
    rw [length_append, ← hstart, ← hlen]
    exact (Nat.add_sub_cancel' run.start_le).symm
  rw [splice, hstop, drop_left, hstart, append_assoc A, take_left]

/-- Runs that do not meet have no element in common. -/
theorem disjoint_slice {a b : Run} {l : List α} (hl : l.Nodup)
    (h : ¬ (a.start < b.stop ∧ b.start < a.stop)) : (a.slice l).Disjoint (b.slice l) := by
  have hsub : ∀ r : Run, ∀ x ∈ r.slice l, x ∈ l.take r.stop ∧ x ∈ l.drop r.start := by
    intro r x hx
    refine ⟨?_, mem_of_mem_take hx⟩
    rw [slice, len, ← drop_take] at hx
    exact mem_of_mem_drop hx
  intro x hxa hxb
  obtain ⟨ha₁, ha₂⟩ := hsub a x hxa
  obtain ⟨hb₁, hb₂⟩ := hsub b x hxb
  rcases Nat.lt_or_ge a.start b.stop with hlt | hge
  · have hle : a.stop ≤ b.start := by
      rcases Nat.lt_or_ge b.start a.stop with hlt' | hge'
      · exact absurd ⟨hlt, hlt'⟩ h
      · exact hge'
    exact disjoint_take_drop hl hle ha₁ hb₂
  · exact disjoint_take_drop hl hge hb₁ ha₂

/-- Replacing one part of a list leaves another that does not meet it whole. -/
theorem infix_replace {A X B A' Y B' Z : List α} (h : A ++ X ++ B = A' ++ Y ++ B')
    (hX : X ≠ []) (hY : Y ≠ []) (hdisjoint : X.Disjoint Y) :
    ∃ C D, A ++ Z ++ B = C ++ Y ++ D := by
  have hclash : ∀ {x : α} {t t' u u' : List α}, X = u ++ x :: t → Y = u' ++ x :: t' → False :=
    fun hx hy => hdisjoint (hx ▸ mem_append_right _ (.head _))
      (hy ▸ mem_append_right _ (.head _))
  rw [append_assoc, append_assoc] at h
  rcases append_eq_append_iff.mp h with ⟨C, rfl, hC⟩ | ⟨C, rfl, hC⟩
  · rcases append_eq_append_iff.mp hC with ⟨D, rfl, rfl⟩ | ⟨D, hXD, hD⟩
    · exact ⟨A ++ Z ++ D, B', by simp⟩
    · cases D with
      | nil => exact ⟨A ++ Z, B', by rw [nil_append] at hD; simp [← hD]⟩
      | cons d D =>
        cases Y with
        | nil => exact absurd rfl hY
        | cons y Y =>
          obtain ⟨rfl, -⟩ := List.cons.inj hD
          exact (hclash hXD (nil_append _).symm).elim
  · rcases append_eq_append_iff.mp hC with ⟨D, rfl, rfl⟩ | ⟨D, hYD, hD⟩
    · exact ⟨A', D ++ Z ++ B, by simp⟩
    · cases D with
      | nil => exact ⟨A', Z ++ B, by rw [append_nil] at hYD; simp [hYD]⟩
      | cons d D =>
        cases X with
        | nil => exact absurd rfl hX
        | cons x X =>
          obtain ⟨rfl, -⟩ := List.cons.inj hD
          exact (hclash (nil_append _).symm hYD).elim

end Run
