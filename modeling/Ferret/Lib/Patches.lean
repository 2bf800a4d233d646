import Ferret.Lib.Run
import Mathlib.Algebra.Order.Ring.Nat

/-!
# Several runs of a list replaced

Disjoint runs of one list, each replaced by one element or by none. What is
left is told from the list and the replacements alone, by position, so the
replacements may be made in any order: each finds its run whole, though no
longer where it was, and the last leaves what any other would have left.
-/

/-- What replaces the elements at a run. -/
structure Patch (α : Type) where
  run : Run
  new : Option α

namespace Patch

open List

variable {α β : Type}

def map (f : α → β) (p : Patch α) : Patch β := { run := p.run, new := p.new.map f }

/-- Whether the run holds a position. -/
def covers (p : Patch α) (i : ℕ) : Bool := p.run.start ≤ i && i < p.run.stop

variable {p : Patch α} {i : ℕ} {patches : List (Patch α)} {l : List α}

theorem covers_iff : p.covers i = true ↔ p.run.start ≤ i ∧ i < p.run.stop := by
  simp [covers]

/-- Whether two runs share no position. -/
def Apart (p q : Patch α) : Prop := ¬ (p.run.start < q.run.stop ∧ q.run.start < p.run.stop)

theorem Apart.symm {q : Patch α} (h : p.Apart q) : q.Apart p := fun hq => h ⟨hq.2, hq.1⟩

theorem Apart.not_covers {q : Patch α} (h : p.Apart q) (hp : p.covers i = true) :
    q.covers i = false := by
  rw [Bool.eq_false_iff]
  intro hq
  obtain ⟨hp₁, hp₂⟩ := covers_iff.mp hp
  obtain ⟨hq₁, hq₂⟩ := covers_iff.mp hq
  exact h ⟨hp₁.trans_lt hq₂, hq₁.trans_lt hp₂⟩

/-- What stands for an element at a position: itself, or the replacement where
its run begins. -/
def piece (patches : List (Patch α)) (i : ℕ) (x : α) : List α :=
  match patches.find? (fun p => p.covers i) with
  | none => [x]
  | some p => if i = p.run.start then p.new.toList else []

theorem piece_of_covers (h : p.covers i = true)
    (x : α) : piece (p :: patches) i x = if i = p.run.start then p.new.toList else [] := by
  simp only [piece, find?_cons, h]

/-- The elements from position `i` on, with the runs replaced. -/
def patchedFrom (patches : List (Patch α)) : ℕ → List α → List α
  | _, [] => []
  | i, x :: rest => piece patches i x ++ patchedFrom patches (i + 1) rest

/-- **A list with runs of it replaced.** -/
def patched (patches : List (Patch α)) (l : List α) : List α := patchedFrom patches 0 l

theorem patchedFrom_append (patches : List (Patch α)) (i : ℕ) (l l' : List α) :
    patchedFrom patches i (l ++ l')
      = patchedFrom patches i l ++ patchedFrom patches (i + l.length) l' := by
  induction l generalizing i with
  | nil => rfl
  | cons x rest ih =>
    simp only [cons_append, patchedFrom, ih, append_assoc, length_cons]
    rw [show i + 1 + rest.length = i + (rest.length + 1) by omega]

theorem patchedFrom_congr {patches' : List (Patch α)}
    (h : ∀ j, i ≤ j → j < i + l.length → ∀ x, piece patches j x = piece patches' j x) :
    patchedFrom patches i l = patchedFrom patches' i l := by
  induction l generalizing i with
  | nil => rfl
  | cons x rest ih =>
    have hrest : patchedFrom patches (i + 1) rest = patchedFrom patches' (i + 1) rest :=
      ih fun j hj hlt => h j (by omega) (by rw [length_cons]; omega)
    show piece patches i x ++ _ = piece patches' i x ++ _
    rw [h i le_rfl (by simp) x, hrest]

/-- Where no run is, nothing changes. -/
theorem patchedFrom_eq_self
    (h : ∀ p ∈ patches, ∀ j, i ≤ j → j < i + l.length → p.covers j = false) :
    patchedFrom patches i l = l := by
  induction l generalizing i with
  | nil => rfl
  | cons x rest ih =>
    have hfind : patches.find? (fun p => p.covers i) = none := by
      refine find?_eq_none.mpr fun p hp => ?_
      rw [h p hp i le_rfl (by simp)]
      exact nofun
    have hrest : patchedFrom patches (i + 1) rest = rest :=
      ih fun p hp j hj hlt => h p hp j (by omega) (by rw [length_cons]; omega)
    show piece patches i x ++ _ = x :: rest
    rw [hrest, piece, hfind]
    rfl

theorem patched_nil (l : List α) : patched [] l = l :=
  patchedFrom_eq_self nofun

/-- Past the beginning of a run, its elements leave nothing. -/
theorem patchedFrom_inside (hi : p.run.start < i) (hstop : i + l.length ≤ p.run.stop) :
    patchedFrom (p :: patches) i l = [] := by
  induction l generalizing i with
  | nil => rfl
  | cons x rest ih =>
    rw [length_cons] at hstop
    have hcovers : p.covers i = true := covers_iff.mpr ⟨hi.le, by omega⟩
    show piece (p :: patches) i x ++ patchedFrom (p :: patches) (i + 1) rest = []
    rw [ih (by omega) (by omega), piece_of_covers hcovers, if_neg hi.ne', append_nil]

/-- The elements of a whole run leave its replacement. -/
theorem patchedFrom_run (hl : l ≠ []) (hstop : p.run.start + l.length ≤ p.run.stop) :
    patchedFrom (p :: patches) p.run.start l = p.new.toList := by
  obtain ⟨x, rest, rfl⟩ := exists_cons_of_ne_nil hl
  rw [length_cons] at hstop
  have hcovers : p.covers p.run.start = true := covers_iff.mpr ⟨le_rfl, by omega⟩
  show piece (p :: patches) p.run.start x ++ patchedFrom (p :: patches) (p.run.start + 1) rest = _
  rw [patchedFrom_inside (Nat.lt_succ_self _) (by omega), piece_of_covers hcovers, if_pos rfl,
    append_nil]

/-- **One more replacement**: the run is there, whole, and its replacement comes
in its place. -/
theorem patched_cons {run : Run} (hpos : run.start < run.stop) (hstop : run.stop ≤ l.length)
    (hapart : ∀ q ∈ patches, Apart { run := run, new := none } q) :
    ∃ A B, patched patches l = A ++ run.slice l ++ B
      ∧ ∀ new, patched ({ run := run, new := new } :: patches) l = A ++ new.toList ++ B := by
  have hA : (l.take run.start).length = run.start := by
    rw [length_take]
    omega
  have hX : (run.slice l).length = run.len := run.length_slice hstop
  have hlen : run.start + run.len = run.stop := Nat.add_sub_cancel' run.start_le
  have hne : run.slice l ≠ [] := by
    rw [← length_pos_iff, hX]
    exact Nat.sub_pos_of_lt hpos
  have hcut : ∀ qs : List (Patch α), patched qs l = patchedFrom qs 0 (l.take run.start)
      ++ patchedFrom qs run.start (run.slice l) ++ patchedFrom qs run.stop (l.drop run.stop) := by
    intro qs
    conv_lhs => rw [patched, run.parts l]
    rw [patchedFrom_append, patchedFrom_append, length_append, hA, hX, zero_add,
      zero_add, hlen]
  refine ⟨patchedFrom patches 0 (l.take run.start), patchedFrom patches run.stop (l.drop run.stop),
    ?_, fun new => ?_⟩
  · have hrun : patchedFrom patches run.start (run.slice l) = run.slice l := by
      refine patchedFrom_eq_self fun q hq j hj hlt =>
        (hapart q hq).not_covers (covers_iff.mpr ⟨hj, ?_⟩)
      show j < run.stop
      omega
    rw [hcut patches, hrun]
  · set p : Patch α := { run := run, new := new } with hp
    -- outside the run the two are the same
    have hsame : ∀ j x, p.covers j = false → piece (p :: patches) j x = piece patches j x := by
      intro j x hj
      simp only [piece, find?_cons, hj]
    have hbefore : patchedFrom (p :: patches) 0 (l.take run.start)
        = patchedFrom patches 0 (l.take run.start) := by
      refine patchedFrom_congr fun j _ hlt x => hsame j x (Bool.eq_false_iff.mpr fun hc => ?_)
      have hlow : run.start ≤ j := (covers_iff.mp hc).1
      omega
    have hafter : patchedFrom (p :: patches) run.stop (l.drop run.stop)
        = patchedFrom patches run.stop (l.drop run.stop) := by
      refine patchedFrom_congr fun j hj _ x => hsame j x (Bool.eq_false_iff.mpr fun hc => ?_)
      have hhigh : j < run.stop := (covers_iff.mp hc).2
      omega
    have hrun : patchedFrom (p :: patches) run.start (run.slice l) = new.toList :=
      patchedFrom_run (p := p) hne (by
        show run.start + (run.slice l).length ≤ run.stop
        omega)
    rw [hcut (p :: patches), hbefore, hrun, hafter]

/-- **The order of the replacements is nothing to what they leave.** -/
theorem patched_perm {patches' : List (Patch α)} (hperm : patches.Perm patches')
    (hapart : patches.Pairwise Apart) (l : List α) : patched patches l = patched patches' l := by
  have hfind : ∀ i, patches.find? (fun p => p.covers i) = patches'.find? (fun p => p.covers i) := by
    intro i
    induction hperm with
    | nil => rfl
    | cons p hperm ih =>
      rw [find?_cons, find?_cons, ih (pairwise_cons.mp hapart).2]
    | swap p q _ =>
      have hqp : q.Apart p := (pairwise_cons.mp hapart).1 p (.head _)
      simp only [find?_cons]
      cases hp : p.covers i with
      | false => rfl
      | true => rw [hqp.symm.not_covers hp]
    | trans h₁ _ ih₁ ih₂ =>
      have hsymm : ∀ {p q : Patch α}, p.Apart q → q.Apart p := fun h => h.symm
      exact (ih₁ hapart).trans (ih₂ ((h₁.pairwise_iff hsymm).mp hapart))
  refine patchedFrom_congr fun j _ _ x => ?_
  rw [piece, piece, hfind]

/-- What is left was there or is a replacement. -/
theorem mem_patched {x : α} (h : x ∈ patched patches l) :
    x ∈ l ∨ ∃ p ∈ patches, p.new = some x := by
  have hfrom : ∀ i, x ∈ patchedFrom patches i l → x ∈ l ∨ ∃ p ∈ patches, p.new = some x := by
    clear h
    induction l with
    | nil => exact nofun
    | cons y _ ih =>
      intro i h
      rcases mem_append.mp h with h | h
      · rw [piece] at h
        cases hfind : patches.find? fun p => p.covers i with
        | none =>
          rw [hfind] at h
          exact .inl (mem_singleton.mp h ▸ .head _)
        | some p =>
          rw [hfind] at h
          simp only at h
          split at h
          · exact .inr ⟨p, mem_of_find?_eq_some hfind, Option.mem_toList.mp h⟩
          · cases h
      · exact (ih _ h).imp_left (mem_cons_of_mem _)
  exact hfrom 0 h

theorem patched_map (f : α → β) (patches : List (Patch α)) (l : List α) :
    patched (patches.map (map f)) (l.map f) = (patched patches l).map f := by
  have hpiece : ∀ i x, piece (patches.map (map f)) i (f x) = (piece patches i x).map f := by
    intro i x
    have hcovers : (fun p : Patch β => p.covers i) ∘ map f = fun p : Patch α => p.covers i := rfl
    simp only [piece, find?_map, hcovers]
    cases patches.find? fun p => p.covers i with
    | none => rfl
    | some p =>
      show (if i = p.run.start then (p.new.map f).toList else [])
        = (if i = p.run.start then p.new.toList else []).map f
      split
      · cases p.new <;> rfl
      · rfl
  have hfrom : ∀ i, patchedFrom (patches.map (map f)) i (l.map f)
      = (patchedFrom patches i l).map f := by
    induction l with
    | nil => exact fun _ => rfl
    | cons x rest ih =>
      intro i
      show piece _ i (f x) ++ patchedFrom _ (i + 1) (rest.map f) = (piece patches i x ++ _).map f
      rw [hpiece, ih, map_append]
  exact hfrom 0

end Patch
