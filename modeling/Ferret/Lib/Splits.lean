import Mathlib.Data.List.Infix
import Mathlib.Algebra.BigOperators.Group.List.Basic
import Mathlib.Algebra.Order.Ring.Nat

/-!
# Texts that split along a pattern

A pattern is a list of items, each of which fits some pieces of text. It
matches a text that can be cut into as many pieces, in order, each fitting its
item. Items of a **fixed width** fit pieces of one length only, so a run of
them can be cut out of a text in at most one way; this is what lets a matcher
with wildcards forget all but its last wildcard.
-/

variable {ι α : Type*} {fits : ι → List α → Prop} {items more : List ι} {text : List α}

/-- **The text splits into pieces that fit the items in order.** -/
def Splits (fits : ι → List α → Prop) (items : List ι) (text : List α) : Prop :=
  ∃ pieces, List.Forall₂ fits items pieces ∧ pieces.flatten = text

namespace Splits

open List

@[simp]
theorem nil_iff : Splits fits [] text ↔ text = [] := by
  simp [Splits, eq_comm]

theorem cons_iff {i : ι} :
    Splits fits (i :: items) text ↔ ∃ u v, text = u ++ v ∧ fits i u ∧ Splits fits items v := by
  constructor
  · rintro ⟨pieces, hfits, rfl⟩
    obtain ⟨u, pieces', hu, hrest, rfl⟩ := forall₂_cons_left_iff.mp hfits
    exact ⟨u, pieces'.flatten, rfl, hu, pieces', hrest, rfl⟩
  · rintro ⟨u, v, rfl, hu, pieces, hrest, rfl⟩
    exact ⟨u :: pieces, .cons hu hrest, rfl⟩

theorem append_iff :
    Splits fits (items ++ more) text ↔
      ∃ u v, text = u ++ v ∧ Splits fits items u ∧ Splits fits more v := by
  induction items generalizing text with
  | nil => simp
  | cons i items ih =>
    rw [cons_append, cons_iff]
    constructor
    · rintro ⟨u, v, rfl, hu, hv⟩
      obtain ⟨w, x, rfl, hw, hx⟩ := ih.mp hv
      exact ⟨u ++ w, x, (append_assoc ..).symm, cons_iff.mpr ⟨u, w, rfl, hu, hw⟩, hx⟩
    · rintro ⟨u, v, rfl, hu, hv⟩
      obtain ⟨w, x, rfl, hw, hx⟩ := cons_iff.mp hu
      exact ⟨w, x ++ v, append_assoc .., hw, ih.mpr ⟨x, v, rfl, hx, hv⟩⟩

/-- A pattern of one item. -/
theorem singleton_iff {i : ι} : Splits fits [i] text ↔ fits i text := by
  simp [cons_iff]

/-! ## Items of a fixed width -/

section Width

variable {width : ι → ℕ}

theorem length_eq (hwidth : ∀ i ∈ items, ∀ u, fits i u → u.length = width i)
    (h : Splits fits items text) : text.length = (items.map width).sum := by
  induction items generalizing text with
  | nil => simp [nil_iff.mp h]
  | cons i items ih =>
    obtain ⟨u, v, rfl, hu, hv⟩ := cons_iff.mp h
    rw [length_append, hwidth i (mem_cons_self ..) u hu,
      ih (fun j hj => hwidth j (.tail _ hj)) hv, map_cons, sum_cons]

/-- **Fixed items met later end later**: once they are cut off the front of a
text, any other place they are cut from, further on in it, leaves less. -/
theorem suffix_of_fixed {u rest s : List α}
    (hwidth : ∀ i ∈ items, ∀ u, fits i u → u.length = width i)
    (hu : Splits fits items u) (hs : s <:+ u ++ rest) (h : Splits fits (items ++ more) s) :
    ∃ v, v <:+ rest ∧ u.length + v.length = s.length ∧ Splits fits more v := by
  obtain ⟨u', v, rfl, hu', hv⟩ := append_iff.mp h
  have hlen : u'.length = u.length := (length_eq hwidth hu').trans (length_eq hwidth hu).symm
  have hle := hs.length_le
  simp only [length_append] at hle
  refine ⟨v, ?_, by rw [length_append, hlen], hv⟩
  exact suffix_of_suffix_length_le ((suffix_append u' v).trans hs)
    (suffix_append u rest) (by omega)

end Width

end Splits
