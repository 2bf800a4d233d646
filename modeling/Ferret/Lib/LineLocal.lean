import Ferret.Lib.Cuts

/-!
# Searches that see one line at a time

A pattern is given by the positions of a text at which it has a match. It is
**line-local** if a position matches in a text exactly when it matches in any
run of whole lines around it, cut short of the separator after it: nothing
beyond the line decides. Such a pattern can be searched for in one piece of a
text after another, and the first match found is the first match of the text.
-/

variable {α : Type*}

/-- The first position that matches, the text's end included. -/
def first (starts : List α → ℕ → Bool) (text : List α) : Option ℕ :=
  (List.range (text.length + 1)).find? (starts text)

/-- **A line-local pattern.** -/
def LineLocal (sep : α) (starts : List α → ℕ → Bool) : Prop :=
  ∀ before run after : List α, (before = [] ∨ ∃ u, before = u ++ [sep]) →
    (after = [] ∨ ∃ v, after = sep :: v) → ∀ i ≤ run.length,
      starts (before ++ (run ++ after)) (before.length + i) = starts run i

variable {sep : α} {starts : List α → ℕ → Bool} {text run rest : List α} {i : ℕ}

theorem first_eq_some :
    first starts text = some i ↔
      i ≤ text.length ∧ starts text i = true ∧ ∀ j < i, starts text j = false := by
  rw [first, List.find?_range_eq_some, List.mem_range, Nat.lt_succ_iff]
  simp only [Bool.not_eq_true']
  tauto

theorem first_eq_none :
    first starts text = none ↔ ∀ i ≤ text.length, starts text i = false := by
  rw [first, List.find?_range_eq_none]
  simp only [Nat.lt_succ_iff, Bool.not_eq_true']

namespace LineLocal

variable (h : LineLocal sep starts)

include h

/-- A position before a separator. -/
theorem starts_left (hi : i ≤ run.length) : starts (run ++ sep :: rest) i = starts run i := by
  have := h [] run (sep :: rest) (.inl rfl) (.inr ⟨rest, rfl⟩) i hi
  simpa using this

/-- A position after a separator. -/
theorem starts_right (hi : i ≤ rest.length) :
    starts (run ++ sep :: rest) (run.length + 1 + i) = starts rest i := by
  have := h (run ++ [sep]) rest [] (.inr ⟨run, rfl⟩) (.inl rfl) i hi
  simpa using this

/-- **The first match is the first run's, or else the rest's.** -/
theorem first_append_cons :
    first starts (run ++ sep :: rest)
      = (first starts run).or ((first starts rest).map (run.length + 1 + ·)) := by
  cases hrun : first starts run with
  | some i =>
    obtain ⟨hi, hmatch, hno⟩ := first_eq_some.mp hrun
    refine first_eq_some.mpr ⟨?_, ?_, fun j hj => ?_⟩
    · exact hi.trans (by simp)
    · rw [h.starts_left hi, hmatch]
    · rw [h.starts_left (hj.le.trans hi), hno j hj]
  | none =>
    have hno := first_eq_none.mp hrun
    rw [Option.none_or]
    cases hrest : first starts rest with
    | some i =>
      obtain ⟨hi, hmatch, hbefore⟩ := first_eq_some.mp hrest
      refine first_eq_some.mpr ⟨?_, ?_, fun j hj => ?_⟩
      · simp only [List.length_append, List.length_cons]
        omega
      · rw [h.starts_right hi, hmatch]
      · rcases lt_or_ge run.length j with hj' | hj'
        · obtain ⟨k, rfl⟩ := Nat.exists_eq_add_of_le (Nat.succ_le_of_lt hj')
          have hk : k < i := Nat.lt_of_add_lt_add_left (show run.length + 1 + k < run.length + 1 + i from hj)
          rw [show run.length.succ + k = run.length + 1 + k from rfl,
            h.starts_right (hk.le.trans hi), hbefore k hk]
        · rw [h.starts_left hj', hno j hj']
    | none =>
      have hno' := first_eq_none.mp hrest
      refine first_eq_none.mpr fun j hj => ?_
      rcases lt_or_ge run.length j with hj' | hj'
      · obtain ⟨k, rfl⟩ := Nat.exists_eq_add_of_le (Nat.succ_le_of_lt hj')
        rw [List.length_append, List.length_cons] at hj
        rw [show run.length.succ + k = run.length + 1 + k from rfl, h.starts_right (by omega),
          hno' k (by omega)]
      · rw [h.starts_left hj', hno j hj']

end LineLocal
