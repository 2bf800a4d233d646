import Mathlib.Algebra.BigOperators.Group.List.Basic
import Mathlib.Algebra.Order.Ring.Nat

/-!
# Counting, scattering and gathering by key

Items with keys below `n` are grouped in three loops: one counts the items of
each key, one writes each item at the next free place of its key, and one reads
them back in their first order. Grouped so, the items of a key stand in the
order they came in.
-/

namespace Scatter

open List

variable {α : Type*}

/-- The items of a key, in order. -/
def having (k : ℕ) (items : List (ℕ × α)) : List α :=
  items.filterMap fun item => if item.1 = k then some item.2 else none

section

variable (k : ℕ)

@[simp] theorem having_nil : having k ([] : List (ℕ × α)) = [] := rfl

theorem having_cons (item : ℕ × α) (items : List (ℕ × α)) :
    having k (item :: items) = if item.1 = k then item.2 :: having k items else having k items := by
  unfold having
  rw [filterMap_cons]
  by_cases h : item.1 = k
  · rw [if_pos h, if_pos h]
  · rw [if_neg h, if_neg h]

theorem having_append (items more : List (ℕ × α)) :
    having k (items ++ more) = having k items ++ having k more :=
  filterMap_append

theorem length_having (items : List (ℕ × α)) :
    (having k items).length = (items.map Prod.fst).count k := by
  induction items with
  | nil => rfl
  | cons item items ih =>
    rw [having_cons, map_cons, count_cons]
    by_cases h : item.1 = k
    · rw [if_pos h, length_cons, ih, h, beq_self_eq_true, if_pos rfl]
    · rw [if_neg h, ih, beq_eq_false_iff_ne.mpr h]
      rfl

end

/-! ## Counts -/

/-- One more at a key. -/
def bump (next : List ℕ) (k : ℕ) : List ℕ := next.modify k (· + 1)

theorem length_bump (next : List ℕ) (k : ℕ) : (bump next k).length = next.length :=
  length_modify ..

theorem getElem?_bump (next : List ℕ) (j k : ℕ) :
    (bump next j)[k]? = next[k]?.map (· + if j = k then 1 else 0) := by
  rw [bump, getElem?_modify]
  by_cases h : j = k <;> simp [h]

/-- How many of some keys there are of each below `n`. -/
def tally (n : ℕ) (keys : List ℕ) : List ℕ := keys.foldl bump (List.replicate n 0)

theorem getElem?_foldl_bump (next keys : List ℕ) (k : ℕ) :
    (keys.foldl bump next)[k]? = next[k]?.map (· + keys.count k) := by
  induction keys generalizing next with
  | nil => cases h : next[k]? <;> simp [h]
  | cons j keys ih =>
    rw [foldl_cons, ih, getElem?_bump, Option.map_map, count_cons]
    congr 1
    funext i
    simp only [Function.comp_apply, beq_iff_eq]
    omega

variable {n k i : ℕ} {next : List ℕ} {slots : List (List α)} {slot : List α}

theorem getElem?_tally (h : k < n) (keys : List ℕ) : (tally n keys)[k]? = some (keys.count k) := by
  rw [tally, getElem?_foldl_bump, getElem?_replicate_of_lt h, Option.map_some, zero_add]

theorem length_foldl_bump (next keys : List ℕ) : (keys.foldl bump next).length = next.length := by
  induction keys generalizing next with
  | nil => rfl
  | cons k keys ih => rw [foldl_cons, ih, length_bump]

theorem length_tally (n : ℕ) (keys : List ℕ) : (tally n keys).length = n := by
  rw [tally, length_foldl_bump, length_replicate]

theorem tally_eq (n : ℕ) (keys : List ℕ) : tally n keys = (List.range n).map fun k => keys.count k := by
  refine ext_getElem? fun k => ?_
  by_cases h : k < n
  · rw [getElem?_tally h, getElem?_map, getElem?_range h]
    rfl
  · rw [getElem?_eq_none (by rw [length_tally]; omega),
      getElem?_eq_none (by rw [length_map, length_range]; omega)]

/-- Counts of more keys. -/
theorem foldl_bump_eq (h : next.length = n) (keys : List ℕ) :
    keys.foldl bump next = List.zipWith (· + ·) next (tally n keys) := by
  refine ext_getElem? fun k => ?_
  rw [getElem?_foldl_bump, getElem?_zipWith]
  by_cases hk : k < n
  · rw [getElem?_tally hk, getElem?_eq_getElem (h.symm ▸ hk)]
    rfl
  · rw [getElem?_eq_none (h.le.trans (not_lt.mp hk))]
    rfl

/-- Where runs of some lengths start, one after the other. -/
def starts : ℕ → List ℕ → List ℕ
  | _, [] => []
  | place, n :: counts => place :: starts (place + n) counts

theorem length_starts (place : ℕ) (counts : List ℕ) : (starts place counts).length = counts.length := by
  induction counts generalizing place with
  | nil => rfl
  | cons n counts ih => rw [starts, length_cons, ih, length_cons]

theorem getElem?_starts (place : ℕ) {counts : List ℕ} (h : k < counts.length) :
    (starts place counts)[k]? = some (place + (counts.take k).sum) := by
  induction counts generalizing place k with
  | nil => cases h
  | cons n counts ih =>
    cases k with
    | zero => rfl
    | succ k =>
      rw [starts, getElem?_cons_succ, ih _ (Nat.lt_of_succ_lt_succ h), take_succ_cons,
        sum_cons, add_assoc]

theorem starts_append (place : ℕ) (counts more : List ℕ) :
    starts place (counts ++ more) = starts place counts ++ starts (place + counts.sum) more := by
  induction counts generalizing place with
  | nil => rfl
  | cons n counts ih => rw [cons_append, starts, ih, starts, sum_cons, add_assoc]; rfl

theorem starts_add (base place : ℕ) (counts : List ℕ) :
    (starts place counts).map (base + ·) = starts (base + place) counts := by
  induction counts generalizing place with
  | nil => rfl
  | cons n counts ih => rw [starts, map_cons, ih, starts, add_assoc]

/-- A list cut into runs of some lengths. -/
def spans : List ℕ → List α → List (List α)
  | [], _ => []
  | n :: counts, l => l.take n :: spans counts (l.drop n)

theorem spans_flatten (runs : List (List α)) : spans (runs.map List.length) runs.flatten = runs := by
  induction runs with
  | nil => rfl
  | cons _ runs ih =>
    rw [map_cons, flatten_cons, spans, take_left, drop_left, ih]

/-! ## Slots -/

/-- Each item is written at the next place of its key's slot. -/
def fill (slots : List (List α)) (next : List ℕ) : List (ℕ × α) → List (List α)
  | [] => slots
  | (k, v) :: items => fill (slots.modify k fun slot => slot.set (next.getD k 0) v) (bump next k) items

theorem length_fill (slots : List (List α)) (next : List ℕ) (items : List (ℕ × α)) :
    (fill slots next items).length = slots.length := by
  induction items generalizing slots next with
  | nil => rfl
  | cons _ items ih => rw [fill, ih, length_modify]

/-- **What stands in a slot**: what stood before its next place, its items, and
what stood past them. -/
theorem getElem?_fill {items : List (ℕ × α)}
    (hslot : slots[k]? = some slot) (hi : next[k]? = some i)
    (hroom : i + (having k items).length ≤ slot.length) :
    (fill slots next items)[k]?
      = some (slot.take i ++ having k items ++ slot.drop (i + (having k items).length)) := by
  induction items generalizing slots next slot i with
  | nil =>
    rw [fill, hslot, having_nil, append_nil, length_nil, add_zero, take_append_drop]
  | cons item items ih =>
    obtain ⟨j, v⟩ := item
    rw [having_cons] at hroom ⊢
    rw [fill]
    have hnext := getElem?_bump next j k
    rw [hi] at hnext
    by_cases hj : j = k
    · subst hj
      rw [if_pos rfl] at hroom ⊢
      rw [length_cons] at hroom ⊢
      have hlt : i < slot.length := by omega
      have hget : next.getD j 0 = i := by rw [getD_eq_getElem?_getD, hi]; rfl
      have hset : (slots.modify j fun slot => slot.set (next.getD j 0) v)[j]?
          = some (slot.set i v) := by
        rw [getElem?_modify, hslot, hget]
        simp
      have hlen : (slot.set i v).length = slot.length := length_set ..
      rw [ih hset hnext (by simp only [if_true]; omega)]
      simp only [if_true]
      have htake : (slot.set i v).take (i + 1) = slot.take i ++ [v] := by
        rw [take_succ_eq_append_getElem (by omega), getElem_set_self, take_set_of_le (le_refl i)]
      have hdrop : (slot.set i v).drop (i + 1 + (having j items).length)
          = slot.drop (i + ((having j items).length + 1)) := by
        rw [drop_set_of_lt (by omega)]
        congr 1
        omega
      rw [htake, hdrop]
      simp
    · rw [if_neg hj] at hroom ⊢
      have hset : (slots.modify j fun slot => slot.set (next.getD j 0) v)[k]? = some slot := by
        rw [getElem?_modify, hslot]
        simp [hj]
      have hnext : (bump next j)[k]? = some i := by simpa [hj] using hnext
      exact ih hset hnext hroom

/-- **Slots of the right lengths are filled.** -/
theorem fill_eq (slots : List (List α)) (items : List (ℕ × α))
    (hslots : slots.map List.length = tally n (items.map Prod.fst)) :
    fill slots (List.replicate n 0) items = (List.range n).map fun k => having k items := by
  have hlen : slots.length = n := by
    have h := congrArg List.length hslots
    rwa [length_map, length_tally] at h
  refine ext_getElem? fun k => ?_
  by_cases hk : k < n
  · have hslot := getElem?_eq_getElem (hlen.symm ▸ hk)
    have hlength : slots[k].length = (having k items).length := by
      have h := congrArg (·[k]?) hslots
      simp only [getElem?_map, hslot, getElem?_tally hk, Option.map_some, Option.some_inj] at h
      rw [h, length_having]
    rw [getElem?_fill hslot (getElem?_replicate_of_lt hk) (by rw [hlength, zero_add]),
      getElem?_map, getElem?_range hk, take_zero, nil_append, zero_add,
      ← hlength, drop_length, append_nil]
    rfl
  · rw [getElem?_eq_none (by rw [length_fill]; omega),
      getElem?_eq_none (by rw [length_map, length_range]; omega)]

/-! ## One array -/

/-- Each item is written at the next place of its key. -/
def scatter (flat : List α) (next : List ℕ) : List (ℕ × α) → List α
  | [] => flat
  | (k, v) :: items => scatter (flat.set (next.getD k 0) v) (bump next k) items

/-- A place in a slot is a place in all of them. -/
theorem flatten_modify (hslot : slots[k]? = some slot) (hi : i < slot.length) (v : α) :
    (slots.modify k fun slot => slot.set i v).flatten
      = slots.flatten.set (((slots.map List.length).take k).sum + i) v := by
  induction slots generalizing k with
  | nil => cases hslot
  | cons _ slots ih =>
    cases k with
    | zero =>
      cases hslot
      rw [modify_zero_cons, flatten_cons, flatten_cons, set_append_left]
      · simp
      · simpa using hi
    | succ k =>
      rw [modify_succ_cons, flatten_cons, flatten_cons, ih hslot, map_cons,
        take_succ_cons, sum_cons, add_assoc, set_append_right _ _ (by omega),
        Nat.add_sub_cancel_left]

theorem map_length_modify (slots : List (List α)) (k i : ℕ) (v : α) :
    (slots.modify k fun slot => slot.set i v).map List.length = slots.map List.length := by
  refine ext_getElem? fun j => ?_
  rw [getElem?_map, getElem?_modify, getElem?_map]
  cases slots[j]? with
  | none => rfl
  | some slot =>
    by_cases h : k = j <;> simp [h]

/-- **Slots in one array are filled as they are alone.** -/
theorem scatter_flatten (slots : List (List α)) (next : List ℕ) (items : List (ℕ × α))
    (hlen : next.length = slots.length) (hkeys : ∀ item ∈ items, item.1 < slots.length)
    (hroom : ∀ k slot i, slots[k]? = some slot → next[k]? = some i →
      i + (having k items).length ≤ slot.length) :
    scatter slots.flatten (List.zipWith (· + ·) (starts 0 (slots.map List.length)) next) items
      = (fill slots next items).flatten := by
  induction items generalizing slots next with
  | nil => rfl
  | cons item items ih =>
    obtain ⟨j, v⟩ := item
    have hj : j < slots.length := hkeys _ (.head _)
    have hslot := getElem?_eq_getElem hj
    have hnext := getElem?_eq_getElem (hlen.symm ▸ hj : j < next.length)
    have hlt := hroom j _ _ hslot hnext
    rw [having_cons, if_pos rfl, length_cons] at hlt
    have hplace : (starts 0 (slots.map List.length))[j]?
        = some ((slots.map List.length).take j).sum := by
      rw [getElem?_starts 0 (by rwa [length_map]), zero_add]
    have hget : (List.zipWith (· + ·) (starts 0 (slots.map List.length)) next).getD j 0
        = ((slots.map List.length).take j).sum + next[j] := by
      rw [getD_eq_getElem?_getD, getElem?_zipWith, hplace, hnext]
      rfl
    have hbump : bump (List.zipWith (· + ·) (starts 0 (slots.map List.length)) next) j
        = List.zipWith (· + ·) (starts 0 (slots.map List.length)) (bump next j) := by
      refine ext_getElem? fun k => ?_
      rw [getElem?_bump, getElem?_zipWith, getElem?_zipWith, getElem?_bump]
      cases (starts 0 (slots.map List.length))[k]? with
      | none => rfl
      | some _ =>
        cases next[k]? with
        | none => rfl
        | some i => simp [add_assoc]
    have hnextD : next.getD j 0 = next[j] := by
      rw [getD_eq_getElem?_getD, hnext]
      rfl
    rw [scatter, fill, hget, ← flatten_modify hslot (by omega) v, hbump, hnextD]
    have hih := ih (slots.modify j fun slot => slot.set next[j] v) (bump next j)
    rw [map_length_modify] at hih
    refine hih ?_ ?_ ?_
    · rw [length_bump, length_modify, hlen]
    · intro item hitem
      rw [length_modify]
      exact hkeys item (.tail _ hitem)
    · intro k slot i hslot hi
      have hlength : (slots.map List.length)[k]? = some slot.length := by
        rw [← map_length_modify slots j next[j] v, getElem?_map, hslot]
        rfl
      rw [getElem?_map] at hlength
      obtain ⟨slot', hslot', hlength⟩ := Option.map_eq_some_iff.mp hlength
      rw [getElem?_bump] at hi
      obtain ⟨i', hi', rfl⟩ := Option.map_eq_some_iff.mp hi
      have hroom := hroom k slot' i' hslot' hi'
      rw [having_cons] at hroom
      rw [← hlength]
      split at hroom
      · rename_i hjk
        rw [length_cons] at hroom
        rw [if_pos hjk]
        omega
      · rename_i hjk
        rw [if_neg hjk]
        exact hroom

theorem sum_bump (h : k < next.length) : (bump next k).sum = next.sum + 1 := by
  induction next generalizing k with
  | nil => cases h
  | cons n next ih =>
    cases k with
    | zero =>
      simp only [bump, modify_zero_cons, sum_cons]
      omega
    | succ k =>
      have hsum := ih (Nat.lt_of_succ_lt_succ h)
      simp only [bump, modify_succ_cons, sum_cons] at hsum ⊢
      rw [hsum, add_assoc]

theorem sum_tally {keys : List ℕ} (h : ∀ k ∈ keys, k < n) : (tally n keys).sum = keys.length := by
  have hsum (next : List ℕ) (hkeys : ∀ k ∈ keys, k < next.length) :
      (keys.foldl bump next).sum = next.sum + keys.length := by
    induction keys generalizing next with
    | nil => rfl
    | cons k keys ih =>
      have hk := hkeys k (.head _)
      rw [foldl_cons, ih (fun j hj => h j (mem_cons_of_mem _ hj)) _ fun j hj => by
        rw [length_bump]; exact hkeys j (.tail _ hj), sum_bump hk, length_cons]
      omega
  have hzero : (List.replicate n 0).sum = 0 :=
    sum_eq_zero fun i hi => eq_of_mem_replicate hi
  rw [tally, hsum _ fun k hk => by rw [length_replicate]; exact h k hk, hzero, zero_add]

theorem flatten_spans {counts : List ℕ} {l : List α} (h : counts.sum = l.length) :
    (spans counts l).flatten = l ∧ (spans counts l).map List.length = counts := by
  induction counts generalizing l with
  | nil => exact ⟨(length_eq_zero_iff.mp h.symm).symm, rfl⟩
  | cons n counts ih =>
    rw [sum_cons] at h
    obtain ⟨hflat, hlen⟩ := ih (l := l.drop n) (by rw [length_drop]; omega)
    refine ⟨?_, ?_⟩
    · rw [spans, flatten_cons, hflat, take_append_drop]
    · rw [spans, map_cons, hlen, length_take, min_eq_left (by omega)]

/-- **An array of the right length is filled**, key by key. -/
theorem scatter_eq (flat : List α) {items : List (ℕ × α)}
    (hkeys : ∀ item ∈ items, item.1 < n) (hflat : flat.length = items.length) :
    scatter flat (starts 0 (tally n (items.map Prod.fst))) items
      = ((List.range n).map fun k => having k items).flatten := by
  set counts := tally n (items.map Prod.fst) with hcounts
  have hsum : counts.sum = flat.length := by
    rw [hcounts, sum_tally fun k hk => ?_, length_map, hflat]
    obtain ⟨item, hitem, rfl⟩ := mem_map.mp hk
    exact hkeys item hitem
  obtain ⟨hspans, hlengths⟩ := flatten_spans hsum
  have hlen : (spans counts flat).length = n := by
    have h := congrArg List.length hlengths
    rwa [length_map, hcounts, length_tally] at h
  have hzero : List.zipWith (· + ·) (starts 0 counts) (List.replicate n 0) = starts 0 counts := by
    refine ext_getElem? fun k => ?_
    rw [getElem?_zipWith]
    by_cases hk : k < n
    · rw [getElem?_replicate_of_lt hk]
      cases (starts 0 counts)[k]? <;> rfl
    · rw [getElem?_eq_none (l := starts 0 counts)
        (by rw [length_starts, hcounts, length_tally]; omega)]
  have h := scatter_flatten (spans counts flat) (List.replicate n 0) items
    (by rw [length_replicate, hlen]) (fun item hitem => by rw [hlen]; exact hkeys item hitem) ?_
  · rw [hlengths, hzero, hspans] at h
    rw [h, fill_eq _ _ hlengths]
  · intro k slot i hslot hi
    have hk : k < n := hlen ▸ (List.getElem?_eq_some_iff.mp hslot).1
    rw [getElem?_replicate_of_lt hk] at hi
    cases hi
    have hlength := congrArg (·[k]?) hlengths
    simp only [getElem?_map, hslot] at hlength
    rw [hcounts, getElem?_tally hk, Option.map_some, Option.some_inj] at hlength
    rw [zero_add, hlength, length_having]

/-! ## Gathering -/

/-- For each key, the value at its next place. -/
def gather (flat : List ℕ) (next : List ℕ) : List ℕ → List ℕ
  | [] => []
  | k :: keys => flat.getD (next.getD k 0) 0 :: gather flat (bump next k) keys

theorem length_gather (flat next keys : List ℕ) : (gather flat next keys).length = keys.length := by
  induction keys generalizing next with
  | nil => rfl
  | cons k keys ih => rw [gather, length_cons, ih, length_cons]

theorem gather_append (flat next keys more : List ℕ) :
    gather flat next (keys ++ more) = gather flat next keys ++ gather flat (keys.foldl bump next) more := by
  induction keys generalizing next with
  | nil => rfl
  | cons k keys ih => rw [cons_append, gather, ih, gather]; rfl

theorem getElem?_flatten_slot (hslot : slots[k]? = some slot) (hi : i < slot.length) :
    slots.flatten[((slots.map List.length).take k).sum + i]? = slot[i]? := by
  induction slots generalizing k with
  | nil => cases hslot
  | cons _ slots ih =>
    cases k with
    | zero =>
      cases hslot
      rw [take_zero, sum_nil, zero_add, flatten_cons, getElem?_append_left hi]
    | succ k =>
      rw [map_cons, take_succ_cons, sum_cons, flatten_cons, add_assoc,
        getElem?_append_right (le_self_add), Nat.add_sub_cancel_left, ih hslot]

/-- **What was grouped is gathered in its first order.** -/
theorem gather_eq {items : List (ℕ × ℕ)} (hkeys : ∀ item ∈ items, item.1 < n) :
    gather ((List.range n).map fun k => having k items).flatten
        (starts 0 (tally n (items.map Prod.fst))) (items.map Prod.fst)
      = items.map Prod.snd := by
  set slots := (List.range n).map fun k => having k items with hslots
  have hlengths : slots.map List.length = tally n (items.map Prod.fst) := by
    rw [tally_eq, hslots, map_map]
    exact map_congr_left fun k _ => length_having k items
  -- The items still to come, after some that are gathered.
  have hrun (done rest : List (ℕ × ℕ)) (hitems : items = done ++ rest) :
      gather slots.flatten
          ((done.map Prod.fst).foldl bump (starts 0 (tally n (items.map Prod.fst))))
          (rest.map Prod.fst)
        = rest.map Prod.snd := by
    induction rest generalizing done with
    | nil => rfl
    | cons item rest ih =>
      obtain ⟨k, v⟩ := item
      have hk : k < n := hkeys (k, v) (hitems ▸ mem_append_right _ (.head _))
      have hnext : ((done.map Prod.fst).foldl bump
          (starts 0 (tally n (items.map Prod.fst)))).getD k 0
            = ((slots.map List.length).take k).sum + (having k done).length := by
        rw [getD_eq_getElem?_getD, getElem?_foldl_bump,
          getElem?_starts 0 (by rwa [length_tally]), hlengths, length_having, zero_add]
        rfl
      have hslot : slots[k]? = some (having k done ++ v :: having k rest) := by
        rw [hslots, getElem?_map, getElem?_range hk, Option.map_some, hitems,
          having_append, having_cons, if_pos rfl]
      have hvalue : slots.flatten[((slots.map List.length).take k).sum + (having k done).length]?
          = some v := by
        rw [getElem?_flatten_slot hslot (by simp)]
        simp
      have hrest := ih (done ++ [(k, v)]) (by rw [hitems, append_assoc]; rfl)
      rw [map_append, foldl_append] at hrest
      rw [map_cons, map_cons, gather, hnext, getD_eq_getElem?_getD, hvalue]
      exact congrArg (v :: ·) hrest
  exact hrun [] items rfl

end Scatter
