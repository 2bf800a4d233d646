import Mathlib.Algebra.Order.Ring.Nat
import Mathlib.Data.Nat.Count

/-!
# Sets of documents

`DocSet` is a set of DocIds below a bound, one bit each in 64-bit words. The
catalog's live set is one, and so is every materialised part of a query. A
DocId is a `u32`, and the bound is one past the largest id, so it fits one
too.

The words are kept exactly as long as the bound needs, with no bit set at or
past it; `DocSet.next_geq` relies on both, since it masks the low end of the
first word only. `len` caches the number of members.
-/

namespace Ferret

open List

/-- DocIds are below this. -/
abbrev docLimit : ℕ := 2 ^ 32

theorem one_lt_docLimit : 1 < docLimit := by decide

theorem two_lt_docLimit : 2 < docLimit := by decide

/-- The number of trailing zeros of a word, 64 for zero. -/
def trailingZeros (w : BitVec 64) : ℕ :=
  ((List.range 64).find? w.getLsbD).getD 64

/-- The number of ones of a word. -/
def countOnes (w : BitVec 64) : ℕ :=
  Nat.count (fun i => w.getLsbD i = true) 64

/-- Whether bit `d` of a run of words is set. -/
def bit (words : List (BitVec 64)) (d : ℕ) : Bool :=
  (words.getD (d / 64) 0).getLsbD (d % 64)

/-- **A set of DocIds in `[0, bound)`.** -/
structure DocSet where
  words : List (BitVec 64)
  bound : ℕ
  len : ℕ
  bound_lt : bound < docLimit
  length_words : words.length = (bound + 63) / 64
  /-- No bit at or past the bound is set. -/
  bit_of_bound_le : ∀ d, bound ≤ d → bit words d = false
  len_eq : len = Nat.count (fun d => bit words d = true) bound

namespace DocSet

/-- Whether `doc` is a member. -/
def contains (s : DocSet) (doc : ℕ) : Bool :=
  decide (doc < s.bound) && bit s.words doc

theorem contains_eq_bit (s : DocSet) (d : ℕ) : s.contains d = bit s.words d := by
  unfold contains
  by_cases h : d < s.bound
  · simp [h]
  · simp [h, s.bit_of_bound_le d (not_lt.mp h)]

variable {s : DocSet}

theorem lt_bound_of_contains {d : ℕ} (h : s.contains d = true) :
    d < s.bound := by
  simp only [contains, Bool.and_eq_true, decide_eq_true_eq] at h
  exact h.1

/-! ## Building -/

theorem bit_replicate_zero (n d : ℕ) : bit (List.replicate n 0) d = false := by
  simp [bit, getD_eq_getElem?_getD, getElem?_replicate]
  split <;> simp

/-- No members, with room for ids below `bound`. -/
def empty (bound : ℕ) (h : bound < docLimit) : DocSet where
  words := List.replicate ((bound + 63) / 64) 0
  bound := bound
  len := 0
  bound_lt := h
  length_words := List.length_replicate
  bit_of_bound_le := fun d _ => bit_replicate_zero _ d
  len_eq := (Nat.count_iff_forall_not.mpr fun d _ => by rw [bit_replicate_zero]; simp).symm

@[simp]
theorem contains_empty (bound : ℕ) (h : bound < docLimit) (d : ℕ) :
    (empty bound h).contains d = false := by
  rw [contains_eq_bit]
  exact bit_replicate_zero _ d

variable (words : List (BitVec 64))

/-- Writing one word changes its own bits only. -/
theorem bit_write {doc : ℕ} (h : doc / 64 < words.length) (w : BitVec 64) (d : ℕ) :
    bit (words.set (doc / 64) w) d
      = if d / 64 = doc / 64 then w.getLsbD (d % 64) else bit words d := by
  unfold bit
  by_cases hw : d / 64 = doc / 64
  · rw [if_pos hw, hw, getD_eq_getElem?_getD, getElem?_set_self h, Option.getD_some]
  · rw [if_neg hw, getD_eq_getElem?_getD, getElem?_set_ne (Ne.symm hw), ← getD_eq_getElem?_getD]

theorem getLsbD_one_shiftLeft (doc d : ℕ) :
    (1#64 <<< (doc % 64)).getLsbD (d % 64) = decide (doc % 64 = d % 64) := by
  rw [← BitVec.twoPow_eq, BitVec.getLsbD_twoPow]
  simp [Nat.mod_lt]

theorem bit_set {doc : ℕ} (h : doc / 64 < words.length) (d : ℕ) :
    bit (words.set (doc / 64) (words.getD (doc / 64) 0 ||| 1#64 <<< (doc % 64))) d
      = (decide (d = doc) || bit words d) := by
  rw [bit_write words h]
  split_ifs with hw
  · have hd : d = doc ↔ doc % 64 = d % 64 := by omega
    rw [BitVec.getLsbD_or, getLsbD_one_shiftLeft, bit, hw, Bool.or_comm]
    simp only [hd]
  · have hd : d ≠ doc := fun he => hw (by rw [he])
    simp [hd]

/-- A member more is one more to count. -/
theorem count_insert {p q : ℕ → Prop} [DecidablePred p] [DecidablePred q] {d : ℕ}
    (hp : ¬ p d) (hq : ∀ e, q e ↔ e = d ∨ p e) (n : ℕ) :
    Nat.count q n = Nat.count p n + if d < n then 1 else 0 := by
  induction n with
  | zero => rfl
  | succ n ih =>
    rw [Nat.count_succ, Nat.count_succ, ih]
    rcases lt_trichotomy d n with h | rfl | h
    · have hqn : q n ↔ p n := (hq n).trans (or_iff_right (by omega))
      simp only [h, hqn, if_true, Nat.lt_succ_of_lt h]
      omega
    · simp [hp, (hq d).mpr (Or.inl rfl)]
    · have hqn : q n ↔ p n := (hq n).trans (or_iff_right (by omega))
      have h₁ : ¬ d < n := by omega
      have h₂ : ¬ d < n + 1 := by omega
      simp only [hqn, h₁, h₂, if_false, add_zero]

/-- Adds `doc`; an id at or above the bound is ignored. -/
def insert (s : DocSet) (doc : ℕ) : DocSet :=
  if hb : doc < s.bound then
    if hbit : bit s.words doc = true then s
    else
      have hlen : doc / 64 < s.words.length := by
        rw [s.length_words]
        omega
      { s with
        words := s.words.set (doc / 64) (s.words.getD (doc / 64) 0 ||| 1#64 <<< (doc % 64))
        len := s.len + 1
        length_words := (List.length_set ..).trans s.length_words
        bit_of_bound_le := fun d hd => by
          rw [bit_set s.words hlen, s.bit_of_bound_le d hd]
          simp
          omega
        len_eq := by
          rw [count_insert (p := fun d => bit s.words d = true) hbit
            (fun e => by rw [bit_set s.words hlen]; simp), if_pos hb, s.len_eq] }
  else s

/-- The set of `docs`, each below `bound`; an id at or above it is ignored. -/
def new (bound : ℕ) (h : bound < docLimit) (docs : List ℕ) : DocSet :=
  docs.foldl insert (empty bound h)

@[simp]
theorem bound_insert (s : DocSet) (doc : ℕ) : (s.insert doc).bound = s.bound := by
  unfold insert
  split
  · split <;> rfl
  · rfl

theorem contains_insert (s : DocSet) (doc d : ℕ) :
    (s.insert doc).contains d = (s.contains d || (decide (d = doc) && decide (d < s.bound))) := by
  have hb : doc < s.bound → doc / 64 < s.words.length := by
    rw [s.length_words]
    omega
  simp only [contains_eq_bit]
  unfold insert
  by_cases h : doc < s.bound
  · by_cases hbit : bit s.words doc = true
    · rw [dif_pos h, dif_pos hbit]
      by_cases hd : d = doc
      · simp [hd, hbit]
      · simp [hd]
    · rw [dif_pos h, dif_neg hbit]
      show bit (List.set _ _ _) d = _
      rw [bit_set s.words (hb h)]
      by_cases hd : d = doc
      · simp [hd, h]
      · simp [hd]
  · rw [dif_neg h]
    by_cases hd : d = doc
    · simp [hd, h]
    · simp [hd]

theorem contains_foldl_insert (docs : List ℕ) (s : DocSet) (d : ℕ) :
    (docs.foldl insert s).contains d
      = (s.contains d || (decide (d ∈ docs) && decide (d < s.bound))) := by
  induction docs generalizing s with
  | nil => simp
  | cons doc docs ih =>
    rw [foldl_cons, ih, contains_insert, bound_insert]
    by_cases hd : d = doc
    · cases s.contains d <;> simp [hd]
    · simp [hd]

theorem contains_new (bound : ℕ) (h : bound < docLimit) (docs : List ℕ) (d : ℕ) :
    (new bound h docs).contains d = (decide (d ∈ docs) && decide (d < bound)) := by
  rw [new, contains_foldl_insert, contains_empty, Bool.false_or]
  rfl

/-! ## Searching -/

/-- The first set bit from a word on. -/
def scanWords : List (BitVec 64) → ℕ → Option ℕ
  | [], _ => none
  | bits :: rest, word =>
    if bits = 0 then scanWords rest (word + 1)
    else some (word * 64 + trailingZeros bits)

/-- The word `from` falls in, without the bits below it. -/
def maskFrom (w : BitVec 64) (start : ℕ) : BitVec 64 :=
  w &&& (BitVec.allOnes 64 <<< (start % 64))

/-- The smallest member `>= start`. -/
def next_geq (s : DocSet) (start : ℕ) : Option ℕ :=
  if s.bound ≤ start then none
  else
    match s.words.drop (start / 64) with
    | [] => none
    | w :: rest => scanWords (maskFrom w start :: rest) (start / 64)

/-- A word's trailing zeros count up to its lowest set bit. -/
theorem trailingZeros_spec {w : BitVec 64} (h : w ≠ 0) :
    w.getLsbD (trailingZeros w) = true ∧ trailingZeros w < 64
      ∧ ∀ i, i < trailingZeros w → w.getLsbD i = false := by
  unfold trailingZeros
  cases hf : (List.range 64).find? w.getLsbD with
  | none =>
    refine absurd (BitVec.eq_of_getLsbD_eq fun i hi => ?_) h
    have := find?_eq_none.mp hf i (mem_range.mpr hi)
    simpa using this
  | some i =>
    obtain ⟨hi, hmem, hlow⟩ := find?_range_eq_some.mp hf
    exact ⟨hi, mem_range.mp hmem, fun j hj => by simpa using hlow j hj⟩

theorem bit_append_left (pre words : List (BitVec 64)) (d : ℕ) (h : d / 64 < pre.length) :
    bit (pre ++ words) d = bit pre d := by
  simp only [bit, getD_eq_getElem?_getD, getElem?_append_left h]

variable (w : BitVec 64)

theorem bit_cons_zero (words : List (BitVec 64)) {i : ℕ} (h : i < 64) :
    bit (w :: words) i = w.getLsbD i := by
  simp only [bit, Nat.div_eq_of_lt h, Nat.mod_eq_of_lt h, getD_cons_zero]

theorem bit_cons_add (words : List (BitVec 64)) (d : ℕ) :
    bit (w :: words) (64 + d) = bit words d := by
  have h₁ : (64 + d) / 64 = d / 64 + 1 := by omega
  have h₂ : (64 + d) % 64 = d % 64 := by omega
  simp only [bit, h₁, h₂, getD_cons_succ]

theorem bit_drop (k d : ℕ) :
    bit (words.drop k) d = bit words (k * 64 + d) := by
  have h₁ : (k * 64 + d) / 64 = k + d / 64 := by omega
  have h₂ : (k * 64 + d) % 64 = d % 64 := by omega
  simp only [bit, getD_eq_getElem?_getD, getElem?_drop, h₁, h₂]

/-- A scan finds the first set bit of the words it is given. -/
theorem scanWords_spec (word : ℕ) :
    match scanWords words word with
    | none => ∀ d, bit words d = false
    | some r => ∃ d, r = word * 64 + d ∧ bit words d = true ∧ ∀ e, e < d → bit words e = false := by
  induction words generalizing word with
  | nil => exact fun d => by simp [bit]
  | cons w rest ih =>
    unfold scanWords
    by_cases hw : w = 0
    · rw [if_pos hw]
      have hzero : ∀ e, e < 64 → bit (w :: rest) e = false := fun e he => by
        rw [bit_cons_zero w rest he, hw]
        simp
      have hshift : ∀ e, 64 ≤ e → bit (w :: rest) e = bit rest (e - 64) := fun e he => by
        rw [← bit_cons_add w rest (e - 64)]
        congr 1
        omega
      have hrest := ih (word + 1)
      cases hs : scanWords rest (word + 1) with
      | none =>
        rw [hs] at hrest
        intro d
        rcases lt_or_ge d 64 with hd | hd
        · exact hzero d hd
        · exact (hshift d hd).trans (hrest _)
      | some r =>
        rw [hs] at hrest
        obtain ⟨d, rfl, hd, hlow⟩ := hrest
        refine ⟨64 + d, by omega, (bit_cons_add w rest d).trans hd, fun e he => ?_⟩
        rcases lt_or_ge e 64 with h64 | h64
        · exact hzero e h64
        · exact (hshift e h64).trans (hlow _ (by omega))
    · rw [if_neg hw]
      obtain ⟨hset, hlt, hlow⟩ := trailingZeros_spec hw
      refine ⟨trailingZeros w, rfl, (bit_cons_zero w rest hlt).trans hset, fun e he => ?_⟩
      exact (bit_cons_zero w rest (he.trans hlt)).trans (hlow e he)

theorem getLsbD_maskFrom (start i : ℕ) :
    (maskFrom w start).getLsbD i = (w.getLsbD i && decide (start % 64 ≤ i)) := by
  unfold maskFrom
  rw [BitVec.getLsbD_and, BitVec.getLsbD_shiftLeft, BitVec.getLsbD_allOnes]
  by_cases hi : i < 64
  · by_cases hle : start % 64 ≤ i
    · have h₁ : ¬ i < start % 64 := by omega
      have h₂ : i - start % 64 < 64 := by omega
      simp [hi, hle, h₁, h₂]
    · have h₁ : i < start % 64 := by omega
      simp [hle, h₁]
  · simp [BitVec.getLsbD_of_ge w i (not_lt.mp hi)]

theorem bit_mask_cons (rest : List (BitVec 64)) (start d : ℕ) :
    bit (maskFrom w start :: rest) d = (bit (w :: rest) d && decide (start % 64 ≤ d)) := by
  rcases lt_or_ge d 64 with h | h
  · rw [bit_cons_zero _ _ h, bit_cons_zero _ _ h, getLsbD_maskFrom]
  · obtain ⟨e, rfl⟩ := Nat.exists_eq_add_of_le h
    have hle : start % 64 ≤ 64 + e := by omega
    rw [bit_cons_add, bit_cons_add]
    simp [hle]

/-- **`next_geq` finds the least member from a point on.** -/
theorem next_geq_eq_some {start d : ℕ} (h : s.next_geq start = some d) :
    start ≤ d ∧ s.contains d = true ∧ ∀ e, start ≤ e → e < d → s.contains e = false := by
  unfold next_geq at h
  split at h
  · cases h
  · have hdrop := bit_drop s.words (start / 64)
    generalize s.words.drop (start / 64) = tail at h hdrop
    match tail, h with
    | w :: rest, h =>
      have hspec := scanWords_spec (maskFrom w start :: rest) (start / 64)
      simp only at h
      rw [h] at hspec
      obtain ⟨k, rfl, hk, hlow⟩ := hspec
      rw [bit_mask_cons, Bool.and_eq_true, decide_eq_true_eq, hdrop] at hk
      refine ⟨by omega, (s.contains_eq_bit _).trans hk.1, fun e he hlt => ?_⟩
      have hmiss := hlow (e - start / 64 * 64) (by omega)
      have hle : start % 64 ≤ e - start / 64 * 64 := by omega
      rw [bit_mask_cons, hdrop] at hmiss
      have heq : start / 64 * 64 + (e - start / 64 * 64) = e := by omega
      rw [heq] at hmiss
      rw [s.contains_eq_bit]
      simpa [hle] using hmiss

theorem next_geq_eq_none {start : ℕ} (h : s.next_geq start = none) (e : ℕ) (he : start ≤ e) :
    s.contains e = false := by
  unfold next_geq at h
  split at h
  next hb => exact (s.contains_eq_bit e).trans (s.bit_of_bound_le e (hb.trans he))
  next hb =>
    have hdrop := bit_drop s.words (start / 64) (e - start / 64 * 64)
    have heq : start / 64 * 64 + (e - start / 64 * 64) = e := by omega
    rw [heq] at hdrop
    rw [s.contains_eq_bit, ← hdrop]
    generalize s.words.drop (start / 64) = tail at h
    match tail, h with
    | [], _ => simp [bit]
    | w :: rest, h =>
      have hspec := scanWords_spec (maskFrom w start :: rest) (start / 64)
      simp only at h
      rw [h] at hspec
      have hmiss := hspec (e - start / 64 * 64)
      have hle : start % 64 ≤ e - start / 64 * 64 := by omega
      rw [bit_mask_cons] at hmiss
      simpa [hle] using hmiss

/-! ## Ranges -/

/-- The positions of a word's ones, ascending. -/
def setBits (w : BitVec 64) : List ℕ :=
  (List.range 64).filter w.getLsbD

/-- Members in `[start, stop)`, ascending. -/
def range (s : DocSet) (start stop : ℕ) : List ℕ :=
  let stop := min stop s.bound
  let start := min start stop
  (List.range' (start / 64) ((stop + 63) / 64 - start / 64)).flatMap fun w =>
    ((setBits (s.words.getD w 0)).map (w * 64 + ·)).filter fun d =>
      decide (start ≤ d) && decide (d < stop)

/-- Members in `[start, stop)`, counted. -/
def count (s : DocSet) (start stop : ℕ) : ℕ :=
  (s.range start stop).length

theorem mem_setBits {w : BitVec 64} {i : ℕ} : i ∈ setBits w ↔ w.getLsbD i = true := by
  rw [setBits, mem_filter, mem_range]
  refine ⟨And.right, fun h => ⟨?_, h⟩⟩
  by_contra hge
  rw [BitVec.getLsbD_of_ge w i (not_lt.mp hge)] at h
  cases h

/-- **`range` lists the members of an interval.** -/
theorem mem_range {start stop d : ℕ} :
    d ∈ s.range start stop ↔ start ≤ d ∧ d < stop ∧ s.contains d = true := by
  simp only [range, mem_flatMap, mem_range'_1, mem_filter, mem_map,
    mem_setBits, Bool.and_eq_true, decide_eq_true_eq]
  constructor
  · rintro ⟨w, -, ⟨i, hi, rfl⟩, hlo, hhi⟩
    have hlt : i < 64 := by
      by_contra hge
      rw [BitVec.getLsbD_of_ge _ i (not_lt.mp hge)] at hi
      cases hi
    refine ⟨by omega, by omega, ?_⟩
    have h₁ : (w * 64 + i) / 64 = w := by omega
    have h₂ : (w * 64 + i) % 64 = i := by omega
    rw [contains_eq_bit, bit, h₁, h₂]
    exact hi
  · rintro ⟨hlo, hhi, hd⟩
    have hb := lt_bound_of_contains hd
    rw [contains_eq_bit] at hd
    exact ⟨d / 64, ⟨by omega, by omega⟩, ⟨d % 64, hd, by omega⟩, by omega, by omega⟩

theorem pairwise_range (s : DocSet) (start stop : ℕ) :
    (s.range start stop).Pairwise (· < ·) := by
  unfold range
  refine pairwise_flatMap.mpr ⟨fun w _ => ?_, ?_⟩
  · refine List.Pairwise.filter _ (List.Pairwise.map _ (fun a b h => ?_)
      (List.Pairwise.filter _ pairwise_lt_range))
    exact Nat.add_lt_add_left h _
  · refine List.Pairwise.imp (fun {w w'} hw d hd d' hd' => ?_) pairwise_lt_range'
    obtain ⟨i, hi, rfl⟩ := mem_map.mp (mem_filter.mp hd).1
    obtain ⟨j, _, rfl⟩ := mem_map.mp (mem_filter.mp hd').1
    have := List.mem_range.mp (List.mem_filter.mp hi).1
    omega

theorem range_sublist (s : DocSet) (start len : ℕ) :
    (s.range start (start + len)).Sublist (List.range' start len) := by
  refine sublist_of_subperm_of_pairwise (subperm_of_subset
    ((s.pairwise_range _ _).imp fun h => h.ne) fun d hd => ?_) (s.pairwise_range _ _)
    pairwise_lt_range'
  obtain ⟨h₁, h₂, -⟩ := mem_range.mp hd
  exact mem_range'_1.mpr ⟨h₁, h₂⟩

theorem count_le (s : DocSet) (start len : ℕ) : s.count start (start + len) ≤ len :=
  (s.range_sublist start len).length_le.trans length_range'.le

/-- An interval holds as many members as it has room for exactly when every
id in it is one. -/
theorem count_eq_length_iff (s : DocSet) (start len : ℕ) :
    s.count start (start + len) = len ↔
      ∀ d, start ≤ d → d < start + len → s.contains d = true := by
  constructor
  · intro h d hlo hhi
    have heq := (s.range_sublist start len).eq_of_length (by rw [length_range']; exact h)
    have hmem : d ∈ s.range start (start + len) := by
      rw [heq]
      exact mem_range'_1.mpr ⟨hlo, hhi⟩
    exact (mem_range.mp hmem).2.2
  · intro h
    refine le_antisymm (s.count_le start len) ?_
    have hle : (List.range' start len).length ≤ (s.range start (start + len)).length :=
      (subperm_of_subset nodup_range' fun d hd => by
        obtain ⟨h₁, h₂⟩ := mem_range'_1.mp hd
        exact mem_range.mpr ⟨h₁, h₂, h d h₁ h₂⟩).length_le
    rw [length_range'] at hle
    exact hle

/-! ## Tails -/

/-- The words of a set from a point on. -/
def tailWords (words : List (BitVec 64)) (start : ℕ) : List (BitVec 64) :=
  List.replicate (start / 64) 0 ++
    match words.drop (start / 64) with
    | [] => []
    | w :: rest => maskFrom w start :: rest

theorem length_tailWords {words : List (BitVec 64)} {start : ℕ}
    (h : start / 64 ≤ words.length) : (tailWords words start).length = words.length := by
  have hlen : (words.drop (start / 64)).length = words.length - start / 64 :=
    length_drop
  unfold tailWords
  rw [length_append, length_replicate]
  generalize words.drop (start / 64) = tail at hlen
  cases tail with
  | nil =>
    rw [length_nil] at hlen ⊢
    omega
  | cons w _ =>
    rw [length_cons] at hlen ⊢
    omega

theorem bit_tailWords (start d : ℕ) :
    bit (tailWords words start) d = (bit words d && decide (start ≤ d)) := by
  rcases lt_or_ge (d / 64) (start / 64) with h | h
  · have hlt : ¬ start ≤ d := by omega
    rw [tailWords, bit_append_left _ _ _ (by rw [length_replicate]; exact h), bit_replicate_zero]
    simp [hlt]
  · obtain ⟨e, rfl⟩ : ∃ e, d = start / 64 * 64 + e := ⟨d - start / 64 * 64, by omega⟩
    have hdrop : (tailWords words start).drop (start / 64)
        = match words.drop (start / 64) with
          | [] => []
          | w :: rest => maskFrom w start :: rest := by
      rw [tailWords, drop_left' length_replicate]
    have hbit := bit_drop words (start / 64) e
    have hle : start ≤ start / 64 * 64 + e ↔ start % 64 ≤ e := by omega
    rw [← bit_drop, hdrop, ← hbit]
    simp only [hle]
    generalize words.drop (start / 64) = tail
    cases tail with
    | nil => simp [bit]
    | cons w rest => exact bit_mask_cons w rest start e

theorem sum_countOnes :
    (words.map countOnes).sum
      = Nat.count (fun d => bit words d = true) (64 * words.length) := by
  induction words with
  | nil => rfl
  | cons w rest ih =>
    have hlow : Nat.count (fun d => bit (w :: rest) d = true) 64 = countOnes w :=
      le_antisymm
        (Nat.count_mono_left fun d hd h => (bit_cons_zero w rest hd).symm.trans h)
        (Nat.count_mono_left fun d hd h => (bit_cons_zero w rest hd).trans h)
    have hlen : 64 * (w :: rest).length = 64 + 64 * rest.length := by
      rw [length_cons]
      omega
    rw [map_cons, sum_cons, ih, hlen, Nat.count_add, hlow]
    simp only [bit_cons_add]

/-- The members of a set at or above a point. -/
def tail (s : DocSet) (start : ℕ) : DocSet where
  words := tailWords s.words (min start s.bound)
  bound := s.bound
  len := ((tailWords s.words (min start s.bound)).map countOnes).sum
  bound_lt := s.bound_lt
  length_words := by
    rw [length_tailWords (by rw [s.length_words]; omega), s.length_words]
  bit_of_bound_le := fun d hd => by
    rw [bit_tailWords, s.bit_of_bound_le d hd]
    rfl
  len_eq := by
    have hlen : (tailWords s.words (min start s.bound)).length = (s.bound + 63) / 64 := by
      rw [length_tailWords (by rw [s.length_words]; omega), s.length_words]
    obtain ⟨k, hk⟩ : ∃ k, 64 * ((s.bound + 63) / 64) = s.bound + k :=
      ⟨64 * ((s.bound + 63) / 64) - s.bound, by omega⟩
    rw [sum_countOnes, hlen, hk, Nat.count_add, Nat.add_eq_left]
    refine Nat.count_iff_forall_not.mpr fun d _ => ?_
    rw [bit_tailWords, s.bit_of_bound_le _ (Nat.le_add_right _ _)]
    simp

/-- This set's members at or above `start`, and those of `extra` that are
members. -/
def tail_until (s : DocSet) (start : ℕ) (extra : List ℕ) : DocSet :=
  extra.foldl (fun set doc => if s.contains doc then set.insert doc else set) (s.tail start)

theorem contains_tail (s : DocSet) (start d : ℕ) :
    (s.tail start).contains d = (s.contains d && decide (start ≤ d)) := by
  rw [contains_eq_bit, contains_eq_bit]
  show bit (tailWords s.words (min start s.bound)) d = _
  rw [bit_tailWords]
  by_cases hb : d < s.bound
  · have h : min start s.bound ≤ d ↔ start ≤ d := by omega
    simp only [h]
  · rw [s.bit_of_bound_le d (not_lt.mp hb)]
    rfl

/-- **The members of a tail**: those from the point on, and the extra ones. -/
theorem contains_tail_until (s : DocSet) (start : ℕ) (extra : List ℕ) (d : ℕ) :
    (s.tail_until start extra).contains d
      = (s.contains d && (decide (start ≤ d) || decide (d ∈ extra))) := by
  suffices h : ∀ set : DocSet, set.bound = s.bound →
      (extra.foldl (fun set doc => if s.contains doc then set.insert doc else set) set).contains d
        = (set.contains d || (s.contains d && decide (d ∈ extra))) by
    rw [tail_until, h (s.tail start) rfl, contains_tail]
    cases s.contains d <;> simp
  induction extra with
  | nil => simp
  | cons doc extra ih =>
    intro set hb
    rw [foldl_cons]
    by_cases hdoc : s.contains doc = true
    · rw [if_pos hdoc, ih _ ((bound_insert set doc).trans hb), contains_insert]
      by_cases hd : d = doc
      · have hlt : doc < set.bound := hb ▸ lt_bound_of_contains hdoc
        simp [hd, hdoc, hlt]
      · simp [hd]
    · rw [if_neg hdoc, ih set hb]
      by_cases hd : d = doc
      · simp [hd, hdoc]
      · simp [hd]

end DocSet

end Ferret
