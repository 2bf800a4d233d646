import Ferret.Store.Coverage
import Mathlib.Data.List.AList

/-!
# A reader's extractions

A reader keeps the last document each term was found in, so that a term is
filed once a document. The memory outlives the document; since no document is
extracted twice, what is filed does not depend on it.
-/

namespace Ferret.Extract

/-- Distinct terms a reader remembers across documents. -/
def REMEMBERED : ℕ := 2 ^ 13

/-- The last document each remembered term was found in. -/
abbrev Memory := AList fun _ : Bytes => ℕ

/-- How bytes come to postings: the distinct trigram keys, and the terms in
the order they occur, each capped. -/
structure Analysis where
  distinct : Bytes → List ℕ
  terms : Bytes → List Bytes

/-- The terms not yet found in a document, and the memory after them. -/
def file (doc : ℕ) : List Bytes → Memory → List Bytes × Memory
  | [], last => ([], last)
  | term :: rest, last =>
    if last.lookup term = some doc then file doc rest last
    else
      let q := file doc rest (last.insert term doc)
      (term :: q.1, q.2)

/-- A document read and its postings found. -/
def extract (a : Analysis) (read : ℕ → Except Fault Bytes) (last : Memory) (doc : ℕ) :
    Except Fault Extracted × Memory :=
  match read doc with
  | .error fault => (.error fault, last)
  | .ok bytes =>
    let last := if REMEMBERED < last.entries.length then ∅ else last
    let q := file doc (a.terms bytes) last
    (.ok ⟨bytes.length, a.distinct bytes, q.1⟩, q.2)

/-- What a reader without a memory makes of a document. -/
def afresh (a : Analysis) (read : ℕ → Except Fault Bytes) (doc : ℕ) : Except Fault Extracted :=
  (extract a read ∅ doc).1

section

variable {doc : ℕ} {terms : List Bytes}

theorem lookup_insert (last : Memory) (term other : Bytes) :
    (last.insert term doc).lookup other = if other = term then some doc else last.lookup other := by
  by_cases h : other = term
  · subst h
    rw [if_pos rfl, AList.lookup_insert]
  · rw [if_neg h, AList.lookup_insert_ne h]

/-- Only what has been found in the document itself matters. -/
theorem file_congr {last last' : Memory}
    (h : ∀ term, last.lookup term = some doc ↔ last'.lookup term = some doc) :
    (file doc terms last).1 = (file doc terms last').1 := by
  induction terms generalizing last last' with
  | nil => rfl
  | cons term _ ih =>
    unfold file
    by_cases hseen : last.lookup term = some doc
    · rw [if_pos hseen, if_pos ((h term).mp hseen)]
      exact ih h
    · rw [if_neg hseen, if_neg fun hno => hseen ((h term).mpr hno)]
      refine congrArg (term :: ·) (ih fun other => ?_)
      rw [lookup_insert, lookup_insert]
      split
      · exact .rfl
      · exact h other

/-- The memory grows by the document at hand only. -/
theorem lookup_file {last : Memory} {term : Bytes} {d : ℕ}
    (h : (file doc terms last).2.lookup term = some d) : d = doc ∨ last.lookup term = some d := by
  induction terms generalizing last with
  | nil => exact .inr h
  | cons _ _ ih =>
    unfold file at h
    split at h
    · exact ih h
    · rcases ih h with hd | hd
      · exact .inl hd
      · rw [lookup_insert] at hd
        split at hd
        · exact .inl (Option.some.inj hd).symm
        · exact .inr hd

end

variable {a : Analysis} {read : ℕ → Except Fault Bytes} {doc : ℕ} {last : Memory}

theorem lookup_extract {term : Bytes} {d : ℕ}
    (h : (extract a read last doc).2.lookup term = some d) : d = doc ∨ last.lookup term = some d := by
  unfold extract at h
  split at h
  · exact .inr h
  · rcases lookup_file h with hd | hd
    · exact .inl hd
    · split at hd
      · cases hd
      · exact .inr hd

/-- **A reader's memory does not show**, unless it has met the document
before. -/
theorem extract_eq_afresh (h : ∀ term, last.lookup term ≠ some doc) :
    (extract a read last doc).1 = afresh a read doc := by
  unfold afresh extract
  split
  · rfl
  · have hempty : ∀ term, (∅ : Memory).lookup term ≠ some doc := nofun
    have hsame : ∀ m m' : Memory, (∀ term, m.lookup term ≠ some doc) →
        (∀ term, m'.lookup term ≠ some doc) → ∀ terms, (file doc terms m).1 = (file doc terms m').1 :=
      fun m m' hm hm' terms => file_congr fun term => ⟨fun hno => absurd hno (hm term), fun hno =>
        absurd hno (hm' term)⟩
    simp only [Except.ok.injEq, Extracted.mk.injEq, true_and]
    refine hsame _ _ ?_ ?_ _
    · split
      · exact hempty
      · exact h
    · exact hempty

end Ferret.Extract
