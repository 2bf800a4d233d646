import Mathlib.Algebra.BigOperators.Group.List.Basic
import Mathlib.Algebra.Order.Ring.Nat
import Mathlib.Data.List.AList

/-!
# Weights of finite maps

The sum of a weight over the entries of a finite map, through the insertion of
a key, the replacement of a value by one of the same weight, and the union
with a map on other keys.
-/

namespace AList

open List

variable {α : Type} {β : α → Type} [DecidableEq α] (weight : Sigma β → ℕ)

/-- The weight of all entries. -/
def total (m : AList β) : ℕ := (m.entries.map weight).sum

theorem total_insert_of_notMem {m : AList β} {a : α} (b : β a) (h : a ∉ m) :
    (m.insert a b).total weight = weight ⟨a, b⟩ + m.total weight := by
  rw [total, entries_insert_of_notMem h, map_cons, sum_cons, total]

/-- The weight of a map is that of one entry and of the rest. -/
theorem total_eq_erase {m : AList β} {a : α} {b : β a} (h : m.lookup a = some b) :
    m.total weight = weight ⟨a, b⟩ + ((m.entries.kerase a).map weight).sum := by
  have hmem : a ∈ m.entries.keys := by
    have : a ∈ m := lookup_isSome.mp (h ▸ rfl)
    exact this
  obtain ⟨b', _, _, -, hentries, herase⟩ := exists_of_kerase hmem
  have hb : b' = b := by
    have hin : (⟨a, b'⟩ : Sigma β) ∈ m.entries := by rw [hentries]; simp
    have hlookup : m.lookup a = some b' := mem_lookup_iff.mpr hin
    rw [h] at hlookup
    exact (Option.some.inj hlookup).symm
  subst hb
  rw [total, herase, hentries]
  simp only [map_append, map_cons, sum_append, sum_cons]
  omega

theorem total_insert_of_eq {m : AList β} {a : α} {b b' : β a} (h : m.lookup a = some b)
    (hw : weight ⟨a, b'⟩ = weight ⟨a, b⟩) : (m.insert a b').total weight = m.total weight := by
  rw [total_eq_erase weight h, total, entries_insert, map_cons, sum_cons, hw]

theorem total_union {m m' : AList β} (h : ∀ a ∈ m', a ∉ m) :
    (m ∪ m').total weight = m.total weight + m'.total weight := by
  have hkeys : ∀ (l l' : List (Sigma β)), (∀ a ∈ l'.keys, a ∉ l.keys) → l.kunion l' = l ++ l' := by
    intro l
    induction l with
    | nil => exact fun l' _ => nil_kunion
    | cons e l ih =>
      intro l' hd
      have he : e.1 ∉ l'.keys := fun hmem => hd e.1 hmem (by simp)
      rw [kunion_cons, kerase_of_notMem_keys he, cons_append]
      rw [ih l' fun a ha hl => hd a ha (by simp [hl])]
  rw [total, union_entries, hkeys _ _ h, map_append, sum_append, total, total]

end AList
