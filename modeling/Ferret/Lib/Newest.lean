import Mathlib.Data.Finset.Max
import Mathlib.Data.List.Sort

/-!
# The newest holder of each key

Rows have an id and a key. Of the rows with a key the one with the highest id
holds it, and of all rows the newest are those with the highest ids. Sorted by
key, the highest id first, a list loses all but the first row of each key;
sorted by id, it loses its front.
-/

namespace Newest

open List

variable {ι κ : Type} [LinearOrder ι] [DecidableEq κ]

/-- The rows that have the highest id of their key. -/
def holders (s : Finset (ι × κ)) : Finset (ι × κ) :=
  s.filter fun r => ∀ r' ∈ s, r'.2 = r.2 → r'.1 ≤ r.1

/-- The `n` rows with the highest ids. -/
def newest (n : ℕ) (s : Finset (ι × κ)) : Finset (ι × κ) :=
  s.filter fun r => (s.filter fun r' => r.1 < r'.1).card < n

variable {s : Finset (ι × κ)}

theorem mem_holders {r : ι × κ} :
    r ∈ holders s ↔ r ∈ s ∧ ∀ r' ∈ s, r'.2 = r.2 → r'.1 ≤ r.1 := Finset.mem_filter

/-- Every key has a holder. -/
theorem exists_holder {r : ι × κ} (h : r ∈ s) :
    ∃ e ∈ holders s, e.2 = r.2 ∧ r.1 ≤ e.1 := by
  have hmem : r ∈ s.filter fun r' => r'.2 = r.2 := Finset.mem_filter.mpr ⟨h, rfl⟩
  obtain ⟨e, he, hmax⟩ := Finset.exists_max_image _ Prod.fst ⟨r, hmem⟩
  obtain ⟨he, hkey⟩ := Finset.mem_filter.mp he
  refine ⟨e, mem_holders.mpr ⟨he, fun r' hr' heq => ?_⟩, hkey, hmax r hmem⟩
  exact hmax r' (Finset.mem_filter.mpr ⟨hr', heq.trans hkey⟩)

theorem holders_subset (s : Finset (ι × κ)) : holders s ⊆ s := Finset.filter_subset _ _

/-- **Where the lowest rows go, the newest are left.** -/
theorem newest_eq_sdiff {n : ℕ} {s low : Finset (ι × κ)} (hsub : low ⊆ s)
    (hcard : low.card = s.card - n) (hlow : ∀ x ∈ low, ∀ y ∈ s \ low, x.1 < y.1) :
    newest n s = s \ low := by
  have hrest : (s \ low).card = s.card - low.card := Finset.card_sdiff_of_subset hsub
  have hle := Finset.card_le_card hsub
  ext y
  rw [newest, Finset.mem_filter, Finset.mem_sdiff]
  refine and_congr_right fun hy => ?_
  constructor
  · intro hfew hmem
    -- Every row that is left is above a row that goes.
    have habove : s \ low ⊆ s.filter fun r => y.1 < r.1 := fun r hr =>
      Finset.mem_filter.mpr ⟨(Finset.mem_sdiff.mp hr).1, hlow y hmem r hr⟩
    have hmany := Finset.card_le_card habove
    have hpos := Finset.card_pos.mpr ⟨y, hmem⟩
    omega
  · intro hmem
    have habove : (s.filter fun r => y.1 < r.1) ⊆ (s \ low).erase y := by
      intro r hr
      obtain ⟨hr, hlt⟩ := Finset.mem_filter.mp hr
      refine Finset.mem_erase.mpr ⟨fun heq => hlt.ne (congrArg Prod.fst heq.symm), ?_⟩
      refine Finset.mem_sdiff.mpr ⟨hr, fun hrlow => ?_⟩
      exact hlt.not_gt (hlow r hrlow y (Finset.mem_sdiff.mpr ⟨hy, hmem⟩))
    have hmany := Finset.card_le_card habove
    have hyleft : y ∈ s \ low := Finset.mem_sdiff.mpr ⟨hy, hmem⟩
    have hpos := Finset.card_pos.mpr ⟨y, hyleft⟩
    rw [Finset.card_erase_of_mem hyleft] at hmany
    omega

theorem newest_of_card_le {n : ℕ} (h : s.card ≤ n) : newest n s = s := by
  have hnone : (∅ : Finset (ι × κ)).card = s.card - n := by rw [Finset.card_empty]; omega
  have heq := newest_eq_sdiff (Finset.empty_subset s) hnone fun x hx =>
    absurd hx (Finset.notMem_empty x)
  rw [heq, Finset.sdiff_empty]

/-! ## The lowest of two lists -/

/-- The first `i` of one list and the first `j` of another are below all the rest. -/
structure Lowest (a b : List ι) (i j : ℕ) : Prop where
  left : i ≤ a.length
  right : j ≤ b.length
  lt : ∀ x ∈ a.take i ++ b.take j, ∀ y ∈ a.drop i ++ b.drop j, x < y

namespace Lowest

variable {a b : List ι} {i j : ℕ} {x : ι}

theorem zero (a b : List ι) : Lowest a b 0 0 where
  left := Nat.zero_le _
  right := Nat.zero_le _
  lt := fun x hx => by cases hx

omit [LinearOrder ι] in
theorem rest_subset {y : ι} (hy : y ∈ a.drop i ++ b.drop j) : y ∈ a ++ b := by
  rcases mem_append.mp hy with hy | hy
  · exact mem_append_left _ (mem_of_mem_drop hy)
  · exact mem_append_right _ (mem_of_mem_drop hy)

theorem cons_left (h : Lowest a b i j) (hx : ∀ y ∈ a ++ b, x < y) :
    Lowest (x :: a) b (i + 1) j where
  left := Nat.succ_le_succ h.left
  right := h.right
  lt := fun z hz y hy => by
    rcases mem_cons.mp hz with rfl | hz
    · exact hx y (rest_subset hy)
    · exact h.lt z hz y hy

theorem cons_right (h : Lowest a b i j) (hx : ∀ y ∈ a ++ b, x < y) :
    Lowest a (x :: b) i (j + 1) where
  left := h.left
  right := Nat.succ_le_succ h.right
  lt := fun z hz y hy => by
    have hz : z = x ∨ z ∈ a.take i ++ b.take j := by
      rw [take_succ_cons, mem_append, mem_cons] at hz
      rw [mem_append]
      tauto
    rcases hz with rfl | hz
    · exact hx y (rest_subset hy)
    · exact h.lt z hz y hy

end Lowest

/-- **Without the lowest of two lists of rows, the newest are left.** -/
theorem newest_append {a b : List (ι × κ)} {i j n : ℕ} (hnodup : (a ++ b).Nodup)
    (hlow : Lowest (a.map Prod.fst) (b.map Prod.fst) i j)
    (hcount : i + j = (a ++ b).length - n) :
    newest n (a ++ b).toFinset = (a.drop i ++ b.drop j).toFinset := by
  have hbelow : ∀ x ∈ a.take i ++ b.take j, ∀ y ∈ a.drop i ++ b.drop j, x.1 < y.1 := by
    intro x hx y hy
    refine hlow.lt x.1 ?_ y.1 ?_
    · rw [← map_take, ← map_take, ← map_append]
      exact mem_map_of_mem hx
    · rw [← map_drop, ← map_drop, ← map_append]
      exact mem_map_of_mem hy
  have hmem (r : ι × κ) : r ∈ a ++ b ↔ r ∈ a.take i ++ b.take j ∨ r ∈ a.drop i ++ b.drop j := by
    have ha : r ∈ a ↔ r ∈ a.take i ∨ r ∈ a.drop i := by
      rw [← mem_append, take_append_drop]
    have hb : r ∈ b ↔ r ∈ b.take j ∨ r ∈ b.drop j := by
      rw [← mem_append, take_append_drop]
    rw [mem_append, mem_append, mem_append, ha, hb]
    tauto
  have hdrop : (a ++ b).toFinset \ (a.take i ++ b.take j).toFinset =
      (a.drop i ++ b.drop j).toFinset := by
    ext r
    rw [Finset.mem_sdiff, List.mem_toFinset, List.mem_toFinset, List.mem_toFinset, hmem]
    constructor
    · rintro ⟨hr | hr, hnot⟩
      · exact absurd hr hnot
      · exact hr
    · exact fun hr => ⟨.inr hr, fun hr' => (hbelow r hr' r hr).false⟩
  have hsub : (a.take i ++ b.take j).toFinset ⊆ (a ++ b).toFinset := fun r hr =>
    List.mem_toFinset.mpr ((hmem r).mpr (.inl (List.mem_toFinset.mp hr)))
  have hlow' : (a.take i ++ b.take j).Sublist (a ++ b) :=
    (take_sublist ..).append (take_sublist ..)
  have hcard : (a.take i ++ b.take j).toFinset.card = (a ++ b).toFinset.card - n := by
    have hi := hlow.left
    have hj := hlow.right
    rw [length_map] at hi hj
    rw [toFinset_card_of_nodup (hnodup.sublist hlow'), toFinset_card_of_nodup hnodup,
      ← hcount, length_append, length_take, length_take, min_eq_left hi,
      min_eq_left hj]
  refine (newest_eq_sdiff hsub hcard fun x hx y hy => ?_).trans hdrop
  rw [hdrop] at hy
  exact hbelow x (List.mem_toFinset.mp hx) y (List.mem_toFinset.mp hy)

/-- The end of an ascending list is its newest rows. -/
theorem toFinset_drop {l : List (ι × κ)} (h : l.Pairwise fun a b => a.1 < b.1) (n : ℕ) :
    (l.drop (l.length - n)).toFinset = newest n l.toFinset := by
  have hnodup : l.Nodup := h.imp fun hlt heq => hlt.ne (congrArg Prod.fst heq)
  have hsplit := take_append_drop (l.length - n) (l.map Prod.fst)
  have happend : ((l.map Prod.fst).take (l.length - n) ++
      (l.map Prod.fst).drop (l.length - n)).Pairwise (· < ·) := by
    rw [hsplit]
    exact pairwise_map.mpr h
  obtain ⟨-, -, hbelow⟩ := pairwise_append.mp happend
  have hlow : Lowest (l.map Prod.fst) (([] : List (ι × κ)).map Prod.fst) (l.length - n) 0 :=
    { left := by rw [length_map]; exact Nat.sub_le ..
      right := le_refl 0
      lt := fun x hx y hy => by
        rw [map_nil, take_nil, append_nil] at hx
        rw [map_nil, drop_nil, append_nil] at hy
        exact hbelow x hx y hy }
  have heq := newest_append (b := []) (n := n) (by rwa [append_nil]) hlow
    (by rw [append_nil, add_zero])
  rw [append_nil, drop_nil, append_nil] at heq
  exact heq.symm

/-! ## One row of each key -/

/-- The rows whose key is not that of the row kept last. -/
def dedup_from (last : κ) : List (ι × κ) → List (ι × κ)
  | [] => []
  | row :: rows =>
    if row.2 = last then dedup_from last rows else row :: dedup_from row.2 rows

/-- Removes all but the first of consecutive rows with one key. -/
def dedup_by_key : List (ι × κ) → List (ι × κ)
  | [] => []
  | row :: rows => row :: dedup_from row.2 rows

omit [LinearOrder ι] in
theorem dedup_from_sublist (last : κ) (rows : List (ι × κ)) : (dedup_from last rows).Sublist rows := by
  induction rows generalizing last with
  | nil => exact .slnil
  | cons row rows ih =>
    rw [dedup_from]
    split
    · exact (ih last).cons row
    · exact (ih row.2).cons_cons row

omit [LinearOrder ι] in
theorem dedup_by_key_sublist (rows : List (ι × κ)) : (dedup_by_key rows).Sublist rows := by
  cases rows with
  | nil => exact .slnil
  | cons row rows => exact (dedup_from_sublist row.2 rows).cons_cons row

end Newest

namespace Newest

variable {ι κ : Type} [LinearOrder ι] [LinearOrder κ] [DecidableEq κ]

/-- By key, and of one key the highest id first. -/
def Before (a b : ι × κ) : Prop := a.2 < b.2 ∨ (a.2 = b.2 ∧ b.1 ≤ a.1)

theorem key_le_of_before {row : ι × κ} {rows : List (ι × κ)} (h : ∀ r ∈ rows, Before row r)
    {r : ι × κ} (hr : r ∈ rows) : row.2 ≤ r.2 := by
  rcases h r hr with hlt | ⟨heq, -⟩
  · exact hlt.le
  · exact heq.le

/-- The first row holds its key. -/
theorem holds_cons {row : ι × κ} {rows : List (ι × κ)} (h : ∀ r ∈ rows, Before row r) {r : ι × κ} :
    (r = row ∨ r ∈ rows ∧ r.2 ≠ row.2 ∧ ∀ r' ∈ rows, r'.2 = r.2 → r'.1 ≤ r.1)
      ↔ r ∈ row :: rows ∧ ∀ r' ∈ row :: rows, r'.2 = r.2 → r'.1 ≤ r.1 := by
  constructor
  · rintro (rfl | ⟨hmem, hne, hmax⟩)
    · refine ⟨.head _, fun r' hr' heq => ?_⟩
      rcases List.mem_cons.mp hr' with rfl | hr'
      · exact le_rfl
      · rcases h r' hr' with hlt | ⟨-, hle⟩
        · exact absurd heq hlt.ne'
        · exact hle
    · refine ⟨.tail _ hmem, fun r' hr' heq => ?_⟩
      rcases List.mem_cons.mp hr' with rfl | hr'
      · exact absurd heq.symm hne
      · exact hmax r' hr' heq
  · rintro ⟨hmem, hmax⟩
    rcases List.mem_cons.mp hmem with rfl | hmem
    · exact .inl rfl
    · by_cases heq : r.2 = row.2
      · -- A row of the first one's key is no newer, and so the first itself.
        left
        have hle := hmax row (.head _) heq.symm
        rcases h r hmem with hlt | ⟨-, hle'⟩
        · exact absurd heq hlt.ne'
        · exact Prod.ext (le_antisymm hle' hle) heq
      · exact .inr ⟨hmem, heq, fun r' hr' => hmax r' (.tail _ hr')⟩

theorem mem_dedup_from {last : κ} {rows : List (ι × κ)} (h : rows.Pairwise Before)
    (hlast : ∀ r ∈ rows, last ≤ r.2) {r : ι × κ} :
    r ∈ dedup_from last rows
      ↔ r ∈ rows ∧ r.2 ≠ last ∧ ∀ r' ∈ rows, r'.2 = r.2 → r'.1 ≤ r.1 := by
  induction rows generalizing last with
  | nil => simp [dedup_from]
  | cons row rows ih =>
    obtain ⟨hrow, hrows⟩ := List.pairwise_cons.mp h
    rw [dedup_from]
    split
    · rename_i hkey
      rw [ih hrows fun r hr => hlast r (List.mem_cons_of_mem _ hr)]
      constructor
      · rintro ⟨hmem, hne, hmax⟩
        refine ⟨.tail _ hmem, hne, fun r' hr' heq => ?_⟩
        rcases List.mem_cons.mp hr' with rfl | hr'
        · exact absurd (heq.symm.trans hkey) hne
        · exact hmax r' hr' heq
      · rintro ⟨hmem, hne, hmax⟩
        rcases List.mem_cons.mp hmem with rfl | hmem
        · exact absurd hkey hne
        · exact ⟨hmem, hne, fun r' hr' => hmax r' (.tail _ hr')⟩
    · rename_i hkey
      have hge : ∀ r ∈ row :: rows, row.2 ≤ r.2 :=
        List.forall_mem_cons.mpr ⟨le_rfl, fun r => key_le_of_before hrow⟩
      have hlt : last < row.2 :=
        lt_of_le_of_ne (hlast row (.head _)) fun heq => hkey heq.symm
      rw [List.mem_cons, ih hrows fun r => key_le_of_before hrow, holds_cons hrow]
      exact and_congr_right fun hmem =>
        (and_iff_right (hlt.trans_le (hge r hmem)).ne').symm

/-- **Sorted rows lose all but the holder of each key.** -/
theorem mem_dedup_by_key {rows : List (ι × κ)} (h : rows.Pairwise Before) {r : ι × κ} :
    r ∈ dedup_by_key rows ↔ r ∈ holders rows.toFinset := by
  rw [mem_holders, List.mem_toFinset]
  cases rows with
  | nil => simp [dedup_by_key]
  | cons row rows =>
    obtain ⟨hrow, hrows⟩ := List.pairwise_cons.mp h
    rw [dedup_by_key, List.mem_cons, mem_dedup_from hrows fun r => key_le_of_before hrow,
      holds_cons hrow]
    simp only [List.mem_toFinset]

end Newest
