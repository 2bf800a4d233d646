import Ferret.Index.DocSet
import Mathlib.Data.Finset.Sort

/-!
# A live set kept up to date

A view's live set is adopted from an older one: documents are added, removed,
and the bound grows. Whatever is done to a set, and in whatever order, it
answers as a finite set of numbers would that the same was done to; `Op`
lists what can be done, `Reference` is that finite set with the bound.

Sets are combined member by member.
-/

namespace Ferret

open List
namespace DocSet

variable {s : DocSet} {doc : ℕ}

theorem word_lt (h : doc < s.bound) : doc / 64 < s.words.length := by
  rw [s.length_words]
  omega

/-- The words with one bit cleared. -/
def clear (words : List (BitVec 64)) (doc : ℕ) : List (BitVec 64) :=
  words.set (doc / 64) (words.getD (doc / 64) 0 &&& ~~~(1#64 <<< (doc % 64)))

theorem bit_clear {words : List (BitVec 64)} (h : doc / 64 < words.length) (d : ℕ) :
    bit (clear words doc) d = (!decide (d = doc) && bit words d) := by
  rw [clear, bit_write words h]
  split_ifs with hw
  · have hd : d = doc ↔ doc % 64 = d % 64 := by omega
    rw [BitVec.getLsbD_and, BitVec.getLsbD_not, getLsbD_one_shiftLeft, bit, hw, Bool.and_comm,
      decide_eq_true (Nat.mod_lt d (by decide)), Bool.true_and]
    simp only [hd]
  · have hd : d ≠ doc := fun he => hw (by rw [he])
    simp [hd]

/-- Clearing a set bit leaves one less to count. -/
theorem count_clear {words : List (BitVec 64)} (h : doc / 64 < words.length)
    (hbit : bit words doc = true) (n : ℕ) :
    Nat.count (fun d => bit words d = true) n
      = Nat.count (fun d => bit (clear words doc) d = true) n + if doc < n then 1 else 0 := by
  refine count_insert (by simp [bit_clear h]) (fun e => ?_) n
  rw [bit_clear h]
  by_cases he : e = doc
  · simp [he, hbit]
  · simp [he]

/-- Removes `doc`; an id outside this set's bound is ignored. -/
def remove (s : DocSet) (doc : ℕ) : DocSet :=
  if hb : doc < s.bound then
    if hbit : bit s.words doc = true then
      have hlen := word_lt hb
      { s with
        words := clear s.words doc
        len := s.len - 1
        length_words := (length_set ..).trans s.length_words
        bit_of_bound_le := fun d hd => by
          rw [bit_clear hlen, s.bit_of_bound_le d hd, Bool.and_false]
        len_eq := by
          rw [s.len_eq, count_clear hlen hbit, if_pos hb]
          rfl }
    else s
  else s

@[simp]
theorem bound_remove (s : DocSet) (doc : ℕ) : (s.remove doc).bound = s.bound := by
  unfold remove
  split
  · split <;> rfl
  · rfl

theorem contains_remove (s : DocSet) (doc d : ℕ) :
    (s.remove doc).contains d = (!decide (d = doc) && s.contains d) := by
  simp only [contains_eq_bit]
  unfold remove
  split
  · next hb =>
    split
    · exact bit_clear (word_lt hb) d
    · next hbit =>
      by_cases hd : d = doc
      · simp [hd, Bool.not_eq_true _ ▸ hbit]
      · simp [hd]
  · next hb =>
    by_cases hd : d = doc
    · simp [hd, s.bit_of_bound_le doc (not_lt.mp hb)]
    · simp [hd]

theorem bit_append_zeros (words : List (BitVec 64)) (n d : ℕ) :
    bit (words ++ List.replicate n 0) d = bit words d := by
  rcases lt_or_ge (d / 64) words.length with h | h
  · exact bit_append_left words _ d h
  · rw [bit, bit, getD_eq_getElem?_getD, getElem?_append_right h,
      getElem?_replicate, getD_eq_getElem?_getD, getElem?_eq_none h]
    split <;> rfl

/-- Extends the bound while preserving all members; a bound that would shrink panics. -/
def grow_to (s : DocSet) (bound : Fin docLimit) : Option DocSet :=
  if hb : s.bound ≤ bound then
    some {
      words := s.words ++ List.replicate ((bound + 63) / 64 - s.words.length) 0
      bound := bound
      len := s.len
      bound_lt := bound.isLt
      length_words := by
        rw [length_append, length_replicate, s.length_words]
        omega
      bit_of_bound_le := fun d hd => by
        rw [bit_append_zeros, s.bit_of_bound_le d (hb.trans hd)]
      len_eq := by
        obtain ⟨k, hk⟩ := Nat.exists_eq_add_of_le hb
        simp only [bit_append_zeros]
        rw [hk, Nat.count_add, s.len_eq, Nat.left_eq_add]
        refine Nat.count_iff_forall_not.mpr fun d _ => ?_
        rw [s.bit_of_bound_le _ (Nat.le_add_right _ _)]
        simp }
  else none

/-! ## Runs -/

/-- What can be done to a set. -/
inductive Op
  | insert (doc : ℕ)
  | remove (doc : ℕ)
  | grow_to (bound : Fin docLimit)
  | tail_until (start : ℕ) (extra : List ℕ)
  | union (docs : List ℕ)
  | intersection (docs : List ℕ)
  | difference (docs : List ℕ)

/-- Does it to a bitset; `none` is a panic. -/
def Op.run (s : DocSet) : Op → Option DocSet
  | insert doc => some (s.insert doc)
  | remove doc => some (s.remove doc)
  | grow_to bound => s.grow_to bound
  | tail_until start extra => some (s.tail_until start extra)
  | union docs => some (docs.foldl DocSet.insert s)
  | intersection docs => some (s.tail_until s.bound docs)
  | difference docs => some (docs.foldl DocSet.remove s)

/-- A finite set of numbers, and what they are to stay below. -/
structure Reference where
  bound : ℕ
  members : Finset ℕ

/-- Does it to a finite set. -/
def Op.refer (r : Reference) : Op → Option Reference
  | insert doc =>
    some { r with members := if doc < r.bound then Insert.insert doc r.members else r.members }
  | remove doc => some { r with members := r.members.erase doc }
  | grow_to bound => if r.bound ≤ bound then some { r with bound := bound } else none
  | tail_until start extra =>
    some { r with members := r.members.filter fun d => start ≤ d ∨ d ∈ extra }
  | union docs =>
    some { r with members := r.members ∪ docs.toFinset.filter (· < r.bound) }
  | intersection docs => some { r with members := r.members ∩ docs.toFinset }
  | difference docs => some { r with members := r.members \ docs.toFinset }

/-- The two hold the same members. -/
structure Agrees (s : DocSet) (r : Reference) : Prop where
  bound : s.bound = r.bound
  contains : ∀ d, s.contains d = true ↔ d ∈ r.members

theorem bound_foldl {f : DocSet → ℕ → DocSet} (hf : ∀ s doc, (f s doc).bound = s.bound)
    (docs : List ℕ) (s : DocSet) : (docs.foldl f s).bound = s.bound := by
  induction docs generalizing s with
  | nil => rfl
  | cons doc docs ih => rw [foldl_cons, ih, hf]

theorem contains_foldl_remove (docs : List ℕ) (s : DocSet) (d : ℕ) :
    (docs.foldl remove s).contains d = (s.contains d && !decide (d ∈ docs)) := by
  induction docs generalizing s with
  | nil => simp
  | cons doc docs ih =>
    rw [foldl_cons, ih, contains_remove]
    by_cases hd : d = doc <;> simp [hd]

theorem bound_tail_until (s : DocSet) (start : ℕ) (extra : List ℕ) :
    (s.tail_until start extra).bound = s.bound := by
  refine (bound_foldl (fun set doc => ?_) extra (s.tail start)).trans rfl
  split
  · exact bound_insert set doc
  · rfl

variable {r : Reference}

theorem Agrees.lt_bound (h : Agrees s r) {d : ℕ} (hd : d ∈ r.members) : d < s.bound :=
  lt_bound_of_contains ((h.contains d).mpr hd)

/-- **What is done to both leaves both with the same members**, or panics on both. -/
theorem Agrees.run (h : Agrees s r) (op : Op) : Option.Rel Agrees (op.run s) (op.refer r) := by
  cases op with
  | insert doc =>
    refine .some ⟨(bound_insert s doc).trans h.bound, fun d => ?_⟩
    dsimp only
    rw [contains_insert, Bool.or_eq_true, h.contains, ← h.bound]
    split_ifs with hlt <;> by_cases hd : d = doc <;> simp [hd, hlt]
  | remove doc =>
    refine .some ⟨(bound_remove s doc).trans h.bound, fun d => ?_⟩
    rw [contains_remove, Bool.and_eq_true, h.contains, Finset.mem_erase]
    simp
  | grow_to _ =>
    rw [Op.run, Op.refer, grow_to, ← h.bound]
    split_ifs with hle
    · refine .some ⟨rfl, fun d => ?_⟩
      rw [← h.contains, contains_eq_bit, contains_eq_bit]
      exact Bool.coe_iff_coe.mpr (bit_append_zeros ..)
    · exact .none
  | tail_until start extra =>
    refine .some ⟨(bound_tail_until s start extra).trans h.bound, fun d => ?_⟩
    rw [contains_tail_until, Bool.and_eq_true, h.contains, Finset.mem_filter]
    simp
  | union docs =>
    refine .some ⟨(bound_foldl bound_insert docs s).trans h.bound, fun d => ?_⟩
    rw [contains_foldl_insert, Bool.or_eq_true, h.contains, Finset.mem_union, Finset.mem_filter,
      mem_toFinset, ← h.bound]
    simp
  | intersection docs =>
    refine .some ⟨(bound_tail_until s s.bound docs).trans h.bound, fun d => ?_⟩
    rw [contains_tail_until, Bool.and_eq_true, h.contains, Finset.mem_inter, mem_toFinset]
    refine and_congr_right fun hd => ?_
    simp [h.lt_bound hd]
  | difference docs =>
    refine .some ⟨(bound_foldl bound_remove docs s).trans h.bound, fun d => ?_⟩
    rw [contains_foldl_remove, Bool.and_eq_true, h.contains, Finset.mem_sdiff, mem_toFinset]
    simp

/-- What a bitset is asked, answered by a finite set. -/
structure Answers (s : DocSet) (r : Reference) : Prop extends Agrees s r where
  next_geq : ∀ start d, s.next_geq start = some d ↔ IsLeast {e | e ∈ r.members ∧ start ≤ e} d
  range : ∀ start stop,
    s.range start stop = (r.members.filter fun d => start ≤ d ∧ d < stop).sort
  count : ∀ start stop, s.count start stop = (r.members.filter fun d => start ≤ d ∧ d < stop).card
  len : s.len = r.members.card
  ones : s.len = (s.words.map countOnes).sum
  below : ∀ d, bit s.words d = true → d < s.bound

theorem Agrees.next_geq (h : Agrees s r) (start d : ℕ) :
    s.next_geq start = some d ↔ IsLeast {e | e ∈ r.members ∧ start ≤ e} d := by
  have hsome : ∀ {d}, s.next_geq start = some d → IsLeast {e | e ∈ r.members ∧ start ≤ e} d := by
    intro d hd
    obtain ⟨hle, hmem, hlow⟩ := next_geq_eq_some hd
    refine ⟨⟨(h.contains d).mp hmem, hle⟩, fun e he => not_lt.mp fun hlt => ?_⟩
    exact Bool.false_ne_true ((hlow e he.2 hlt).symm.trans ((h.contains e).mpr he.1))
  refine ⟨hsome, fun hleast => ?_⟩
  cases hnext : s.next_geq start with
  | none =>
    have hmiss := next_geq_eq_none hnext d hleast.1.2
    exact absurd (hmiss.symm.trans ((h.contains d).mpr hleast.1.1)) nofun
  | some e => exact congrArg some ((hsome hnext).unique hleast)

theorem Agrees.range (h : Agrees s r) (start stop : ℕ) :
    s.range start stop = (r.members.filter fun d => start ≤ d ∧ d < stop).sort := by
  refine List.Pairwise.eq_of_mem_iff (s.pairwise_range start stop)
    (Finset.sortedLT_sort _).pairwise fun d => ?_
  rw [mem_range, Finset.mem_sort, Finset.mem_filter, h.contains]
  tauto

theorem Agrees.answers (h : Agrees s r) : Answers s r where
  toAgrees := h
  next_geq := h.next_geq
  range := h.range
  count start stop := by rw [count, h.range, Finset.length_sort]
  len := by
    rw [s.len_eq, Nat.count_eq_card_filter_range]
    congr 1
    ext d
    rw [Finset.mem_filter, Finset.mem_range, ← contains_eq_bit, h.contains]
    exact and_iff_right_of_imp h.lt_bound
  ones := by
    have hbound : 64 * s.words.length = s.bound + (64 * s.words.length - s.bound) := by
      rw [s.length_words]
      omega
    rw [sum_countOnes, hbound, Nat.count_add, s.len_eq, Nat.left_eq_add]
    refine Nat.count_iff_forall_not.mpr fun d _ => ?_
    rw [s.bit_of_bound_le _ (le_self_add)]
    simp
  below d hd := by
    by_contra hle
    rw [s.bit_of_bound_le d (not_lt.mp hle)] at hd
    cases hd

/-- What is done next is done to the two alike. -/
theorem rel_bind {a : Option DocSet} {b : Option Reference} {f : DocSet → Option DocSet}
    {g : Reference → Option Reference} (h : Option.Rel Agrees a b)
    (hf : ∀ {s r}, Agrees s r → Option.Rel Answers (f s) (g r)) :
    Option.Rel Answers (a >>= f) (b >>= g) := by
  cases h with
  | none => exact .none
  | some h => exact hf h

theorem Agrees.run_all (h : Agrees s r) (ops : List Op) :
    Option.Rel Answers (ops.foldlM Op.run s) (ops.foldlM Op.refer r) := by
  induction ops generalizing s r with
  | nil => exact .some h.answers
  | cons op ops ih =>
    rw [foldlM_cons, foldlM_cons]
    exact rel_bind (h.run op) ih

/-- **A bitset answers as the finite set does**, whatever was done to both from the start on. -/
theorem answers_reference (bound : Fin docLimit) (ops : List Op) :
    Option.Rel Answers (ops.foldlM Op.run (empty bound bound.isLt))
      (ops.foldlM Op.refer ⟨bound, ∅⟩) := by
  refine Agrees.run_all ⟨rfl, fun d => ?_⟩ ops
  rw [contains_empty]
  simp

end DocSet
end Ferret
