import Ferret.Lib.Scatter
import Mathlib.Data.List.Sort

/-!
# Partition in place, then sort the parts

Items with keys below `n` are brought into the order of their keys by swaps
alone. The counts of the keys say where the partition of each begins and ends;
the item at the next place of a partition is swapped to the next place of its
own, which puts it there for good, until every partition is full.

A list so partitioned is cut into parts of whole partitions, and each part is
sorted by itself. Where the order agrees with the keys, the parts one after the
other are the list sorted.
-/

namespace Flag

open Scatter List

variable {α : Type*} (key : α → ℕ)

/-- Fills the partition of `k`. Every round puts an item in its place for good,
so the rounds are bounded. -/
def settle (ends : List ℕ) (k : ℕ) : ℕ → List α → List ℕ → List α × List ℕ
  | 0, l, next => (l, next)
  | fuel + 1, l, next =>
    if next.getD k 0 < ends.getD k 0 then
      match l[next.getD k 0]? with
      | none => (l, next)
      | some a =>
        let l := if key a ≠ k then l.swap (next.getD k 0) (next.getD (key a) 0) else l
        settle ends k fuel l (bump next (key a))
    else (l, next)

/-- Brings items into the order of their keys, in place. -/
def partition (n : ℕ) (l : List α) : List α :=
  let counts := tally n (l.map key)
  let next := starts 0 counts
  let ends := List.zipWith (· + ·) next counts
  ((List.range n).foldl (fun state k => settle key ends k ends.sum state.1 state.2) (l, next)).1

/-! ## Places -/

/-- Where the run of `k` begins, among runs of some lengths. -/
def first (counts : List ℕ) (k : ℕ) : ℕ := (counts.take k).sum

section

variable {counts : List ℕ} {k : ℕ}

theorem first_succ (h : k < counts.length) : first counts (k + 1) = first counts k + counts[k] := by
  rw [first, take_add_one, getElem?_eq_getElem h, sum_append]
  rfl

theorem first_mono (counts : List ℕ) {j k : ℕ} (h : j ≤ k) : first counts j ≤ first counts k := by
  obtain ⟨i, rfl⟩ := Nat.exists_eq_add_of_le h
  rw [first, first, take_add, sum_append]
  exact le_self_add

theorem first_le_sum (counts : List ℕ) (k : ℕ) : first counts k ≤ counts.sum := by
  conv_rhs => rw [← take_append_drop k counts, sum_append]
  exact le_self_add

theorem getD_starts (h : k < counts.length) : (starts 0 counts).getD k 0 = first counts k := by
  rw [getD_eq_getElem?_getD, getElem?_starts 0 h, zero_add]
  rfl

theorem getD_ends (h : k < counts.length) :
    (List.zipWith (· + ·) (starts 0 counts) counts).getD k 0 = first counts (k + 1) := by
  rw [getD_eq_getElem?_getD, getElem?_zipWith, getElem?_starts 0 h, zero_add,
    getElem?_eq_getElem h, first_succ h]
  rfl

theorem getD_bump {next : List ℕ} {j : ℕ} (h : k < next.length) :
    (bump next j).getD k 0 = next.getD k 0 + if j = k then 1 else 0 := by
  rw [getD_eq_getElem?_getD, getD_eq_getElem?_getD, getElem?_bump, getElem?_eq_getElem h]
  rfl

theorem sum_le_of_getD {a b : List ℕ} (hlen : a.length = b.length)
    (h : ∀ k < a.length, a.getD k 0 ≤ b.getD k 0) : a.sum ≤ b.sum := by
  induction a generalizing b with
  | nil => exact Nat.zero_le _
  | cons x a ih =>
    cases b with
    | nil => cases hlen
    | cons y b =>
      have hhead : x ≤ y := h 0 (Nat.succ_pos _)
      have htail := ih (Nat.succ.inj hlen) fun k hk => h (k + 1) (Nat.succ_lt_succ hk)
      rw [sum_cons, sum_cons]
      exact add_le_add hhead htail

/-- A run of one key, and the key once more elsewhere. -/
theorem run_lt_count {ks : List ℕ} {t s m p : ℕ} (hsm : s ≤ m)
    (hrun : ∀ i, s ≤ i → i < m → ks[i]? = some t) (hp : ks[p]? = some t) (hout : p < s ∨ m ≤ p) :
    m - s < ks.count t := by
  have hmid : (ks.drop s).take (m - s) = List.replicate (m - s) t := by
    refine ext_getElem? fun i => ?_
    rw [getElem?_take, getElem?_drop]
    by_cases hi : i < m - s
    · rw [if_pos hi, hrun (s + i) (by omega) (by omega), getElem?_replicate_of_lt hi]
    · rw [if_neg hi, getElem?_eq_none (by rw [length_replicate]; omega)]
  have hcut : ks = ks.take s ++ ((ks.drop s).take (m - s) ++ ks.drop m) := by
    have hm : ks.drop m = (ks.drop s).drop (m - s) := by
      rw [drop_drop, Nat.add_sub_cancel' hsm]
    rw [hm, take_append_drop, take_append_drop]
  have hcount : ks.count t = (ks.take s).count t + (m - s + (ks.drop m).count t) := by
    conv_lhs => rw [hcut, count_append, count_append, hmid, count_replicate_self]
  rcases hout with hp' | hp'
  · have hmem : t ∈ ks.take s := mem_iff_getElem?.mpr
      ⟨p, by rw [getElem?_take, if_pos hp', hp]⟩
    have := count_pos_iff.mpr hmem
    omega
  · have hmem : t ∈ ks.drop m := mem_iff_getElem?.mpr
      ⟨p - m, by rw [getElem?_drop, Nat.add_sub_cancel' hp', hp]⟩
    have := count_pos_iff.mpr hmem
    omega

theorem getElem?_swap {l : List α} {p q : ℕ} (hp : p < l.length) (hq : q < l.length) (i : ℕ) :
    (l.swap p q)[i]? = if i = q then l[p]? else if i = p then l[q]? else l[i]? := by
  rw [swap_eq_of_lt hp hq, getElem?_set, length_set]
  by_cases hiq : q = i
  · rw [if_pos hiq, if_pos hq, if_pos hiq.symm, getElem?_eq_getElem hp]
  · rw [if_neg hiq, if_neg (Ne.symm hiq), getElem?_set]
    by_cases hip : p = i
    · rw [if_pos hip, if_pos hp, if_pos hip.symm, getElem?_eq_getElem hq]
    · rw [if_neg hip, if_neg (Ne.symm hip)]

end

/-! ## The loops -/

/-- **What the loops keep**: the items are those there were, and each partition
is filled up to its next place. -/
structure Settled (n : ℕ) (items l : List α) (next : List ℕ) : Prop where
  perm : l.Perm items
  length : next.length = n
  within : ∀ k < n, first (tally n (items.map key)) k ≤ next.getD k 0
    ∧ next.getD k 0 ≤ first (tally n (items.map key)) (k + 1)
  settled : ∀ k < n, ∀ i, first (tally n (items.map key)) k ≤ i → i < next.getD k 0 →
    (l.map key)[i]? = some k

variable {key} {n : ℕ} {items l : List α} {next : List ℕ}

theorem count_eq {k : ℕ} (hk : k < n) (items : List α) :
    first (tally n (items.map key)) (k + 1)
      = first (tally n (items.map key)) k + (items.map key).count k := by
  have hlt : k < (tally n (items.map key)).length := by rwa [length_tally]
  have hget := getElem?_tally hk (items.map key)
  rw [getElem?_eq_getElem hlt, Option.some_inj] at hget
  rw [first_succ hlt, hget]

/-- **One round.** The item at the next place of a partition that is not full
goes to the next place of its own, which is not full either. -/
theorem Settled.step (h : Settled key n items l next) (hkeys : ∀ a ∈ items, key a < n) {k : ℕ}
    (hk : k < n) (hlt : next.getD k 0 < first (tally n (items.map key)) (k + 1)) :
    ∃ a, l[next.getD k 0]? = some a ∧ key a < n ∧
      Settled key n items
        (if key a ≠ k then l.swap (next.getD k 0) (next.getD (key a) 0) else l)
        (bump next (key a)) := by
  set counts := tally n (items.map key) with hcounts
  have hsum : counts.sum = l.length := by
    rw [hcounts, sum_tally fun j hj => ?_, length_map, h.perm.length_eq]
    obtain ⟨a, ha, rfl⟩ := mem_map.mp hj
    exact hkeys a ha
  have hroom : ∀ j, first counts j ≤ l.length := fun j => hsum ▸ first_le_sum counts j
  have hwithin : ∀ j < n, first counts j ≤ next.getD j 0 ∧ next.getD j 0 ≤ first counts (j + 1) :=
    h.within
  have hsettled : ∀ j < n, ∀ i, first counts j ≤ i → i < next.getD j 0 →
    (l.map key)[i]? = some j := h.settled
  set p := next.getD k 0 with hp
  have hpl : p < l.length := hlt.trans_le (hroom (k + 1))
  have hget : l[p]? = some l[p] := getElem?_eq_getElem hpl
  have ht : key l[p] < n := hkeys _ (h.perm.mem_iff.mp (getElem_mem hpl))
  have hkey : (l.map key)[p]? = some (key l[p]) := by rw [getElem?_map, hget]; rfl
  refine ⟨l[p], hget, ht, ?_⟩
  set t := key l[p] with htdef
  -- a place in one partition is in no other
  have hapart : ∀ i j m, first counts j ≤ i → i < first counts (j + 1) → first counts m ≤ i →
      i < first counts (m + 1) → j = m := by
    intro i j m h₁ h₂ h₃ h₄
    rcases lt_trichotomy j m with hjm | hjm | hjm
    · have := first_mono counts (show j + 1 ≤ m from hjm)
      omega
    · exact hjm
    · have := first_mono counts (show m + 1 ≤ j from hjm)
      omega
  have hpin : first counts k ≤ p := (hwithin k hk).1
  have hbump : ∀ j < n, (bump next t).getD j 0 = next.getD j 0 + if t = j then 1 else 0 :=
    fun j hj => getD_bump (h.length.symm ▸ hj)
  by_cases htk : t = k
  · rw [if_neg (not_not.mpr htk)]
    refine ⟨h.perm, by rw [length_bump, h.length], fun j hj => ?_, fun j hj i hi hij => ?_⟩
    · show first counts j ≤ _ ∧ _ ≤ first counts (j + 1)
      rw [hbump j hj]
      have := hwithin j hj
      split
      · obtain rfl : j = k := by omega
        omega
      · omega
    · have hi : first counts j ≤ i := hi
      rw [hbump j hj] at hij
      rcases lt_or_ge i (next.getD j 0) with hlt' | _
      · exact hsettled j hj i hi hlt'
      · split at hij
        · obtain rfl : j = k := by omega
          obtain rfl : i = p := by omega
          rw [hkey, htk]
        · omega
  · rw [if_pos htk]
    set q := next.getD t 0 with hq
    obtain ⟨hq₁, _⟩ : first counts t ≤ q ∧ q ≤ first counts (t + 1) := hwithin t ht
    have hcount : (items.map key).count t = (l.map key).count t :=
      ((h.perm.map key).count_eq t).symm
    have hfull : first counts (t + 1) = first counts t + (items.map key).count t :=
      count_eq ht items
    have hp_out : p < first counts t ∨ q ≤ p := by
      by_contra hcon
      rw [not_or, not_lt, not_le] at hcon
      exact htk (hapart p t k hcon.1 (by omega) hpin hlt)
    have hrun := run_lt_count hq₁ (hsettled t ht) hkey hp_out
    have hqlt : q < first counts (t + 1) := by
      rw [hfull, hcount]
      omega
    have hql : q < l.length := hqlt.trans_le (hroom (t + 1))
    have hswap : ∀ i, ((l.swap p q).map key)[i]?
        = if i = q then some t else if i = p then (l.map key)[q]? else (l.map key)[i]? := by
      intro i
      rw [getElem?_map, getElem?_swap hpl hql]
      split
      · rw [hget]
        rfl
      · split <;> rw [getElem?_map]
    refine ⟨(swap_perm l p q).trans h.perm, by rw [length_bump, h.length], fun j hj => ?_,
      fun j hj i hi hij => ?_⟩
    · show first counts j ≤ _ ∧ _ ≤ first counts (j + 1)
      rw [hbump j hj]
      have := hwithin j hj
      split
      · obtain rfl : t = j := by assumption
        omega
      · omega
    · have hi : first counts j ≤ i := hi
      rw [hbump j hj] at hij
      have hjw := (hwithin j hj).2
      rw [hswap]
      by_cases hiq : i = q
      · rw [if_pos hiq]
        by_cases htj : t = j
        · rw [htj]
        · rw [if_neg htj] at hij
          exact absurd (hapart i t j (by omega) (by omega) hi (by omega)) htj
      · have hij' : i < next.getD j 0 := by
          split at hij
          · obtain rfl : t = j := by assumption
            omega
          · omega
        have hip : i ≠ p := by
          rintro rfl
          obtain rfl := hapart _ j k hi (by omega) hpin hlt
          omega
        rw [if_neg hiq, if_neg hip]
        exact hsettled j hj i hi hij'

theorem Settled.full (h : Settled key n items l next) {ends : List ℕ} {k : ℕ} (hk : k < n)
    (hends : ends.getD k 0 = first (tally n (items.map key)) (k + 1))
    (hnot : ¬ next.getD k 0 < ends.getD k 0) : next.getD k 0 = ends.getD k 0 := by
  have := (h.within k hk).2
  rw [← hends] at this
  omega

/-- **Filling one partition** keeps what is settled, takes back no place, and
leaves the partition full. -/
theorem Settled.settle (h : Settled key n items l next) (hkeys : ∀ a ∈ items, key a < n)
    {ends : List ℕ} (hlen : ends.length = n)
    (hends : ∀ j < n, ends.getD j 0 = first (tally n (items.map key)) (j + 1)) {k fuel : ℕ}
    (hk : k < n) (hfuel : ends.sum ≤ next.sum + fuel) :
    Settled key n items (settle key ends k fuel l next).1 (settle key ends k fuel l next).2
      ∧ (∀ j < n, next.getD j 0 ≤ (settle key ends k fuel l next).2.getD j 0)
      ∧ (settle key ends k fuel l next).2.getD k 0 = ends.getD k 0 := by
  induction fuel generalizing l next with
  | zero =>
    refine ⟨h, fun j _ => le_rfl, h.full hk (hends k hk) fun hlt => ?_⟩
    -- a partition with room leaves the places short of the ends
    obtain ⟨a, -, ha, hstep⟩ := h.step hkeys hk (by rwa [← hends k hk])
    have hle : (bump next (key a)).sum ≤ ends.sum := by
      refine sum_le_of_getD (by rw [hstep.length, hlen]) fun j hj => ?_
      rw [hstep.length] at hj
      rw [hends j hj]
      exact (hstep.within j hj).2
    rw [sum_bump (h.length.symm ▸ ha)] at hle
    omega
  | succ fuel ih =>
    by_cases hlt : next.getD k 0 < ends.getD k 0
    · obtain ⟨a, hget, ha, hstep⟩ := h.step hkeys hk (by rwa [← hends k hk])
      have hsum := sum_bump (h.length.symm ▸ ha : key a < next.length)
      obtain ⟨h₁, h₂, h₃⟩ := ih hstep (by omega)
      have hround : Flag.settle key ends k (fuel + 1) l next = Flag.settle key ends k fuel
          (if key a ≠ k then l.swap (next.getD k 0) (next.getD (key a) 0) else l)
          (bump next (key a)) := by
        rw [Flag.settle, if_pos hlt, hget]
      rw [hround]
      refine ⟨h₁, fun j hj => le_trans ?_ (h₂ j hj), h₃⟩
      rw [getD_bump (h.length.symm ▸ hj)]
      exact le_self_add
    · have hround : Flag.settle key ends k (fuel + 1) l next = (l, next) := by
        rw [Flag.settle, if_neg hlt]
      rw [hround]
      exact ⟨h, fun j _ => le_rfl, h.full hk (hends k hk) hlt⟩

/-- **A list partitioned in place**: the same items, a run for each key, in the
order of the keys. -/
theorem partition_spec (hkeys : ∀ a ∈ items, key a < n) :
    (partition key n items).Perm items
      ∧ ∃ slots : List (List α), slots.flatten = partition key n items
        ∧ slots.map List.length = tally n (items.map key)
        ∧ ∀ (k : ℕ) slot, slots[k]? = some slot → ∀ a ∈ slot, key a = k := by
  set counts := tally n (items.map key) with hcounts
  have hclen : counts.length = n := length_tally ..
  set ends := List.zipWith (· + ·) (starts 0 counts) counts with hendsdef
  have helen : ends.length = n := by
    rw [hendsdef, length_zipWith, length_starts, hclen, Nat.min_self]
  have hends : ∀ j < n, ends.getD j 0 = first counts (j + 1) := fun j hj =>
    getD_ends (hclen.symm ▸ hj)
  have hstart : Settled key n items items (starts 0 counts) := by
    refine ⟨List.Perm.refl _, by rw [length_starts, hclen], fun k hk => ?_, fun k hk i hi hlt => ?_⟩
    · rw [getD_starts (hclen.symm ▸ hk)]
      exact ⟨le_rfl, first_mono counts (Nat.le_succ k)⟩
    · rw [getD_starts (hclen.symm ▸ hk)] at hlt
      exact absurd hlt (Nat.not_lt.mpr hi)
  -- by induction on the keys whose partitions have been filled
  have hrun : ∀ m ≤ n,
      let state := (List.range m).foldl
        (fun state k => settle key ends k ends.sum state.1 state.2) (items, starts 0 counts)
      Settled key n items state.1 state.2 ∧ ∀ j < m, state.2.getD j 0 = ends.getD j 0 := by
    intro m
    induction m with
    | zero => exact fun _ => ⟨hstart, fun j hj => absurd hj (Nat.not_lt_zero j)⟩
    | succ m ih =>
      intro hm
      obtain ⟨hs, hfull⟩ := ih (by omega)
      rw [range_succ, foldl_append]
      simp only [foldl_cons, foldl_nil]
      obtain ⟨h₁, h₂, h₃⟩ := hs.settle hkeys helen hends (show m < n from hm)
        (Nat.le_add_left ends.sum _)
      refine ⟨h₁, fun j hj => ?_⟩
      rcases Nat.lt_succ_iff_lt_or_eq.mp hj with hlt | rfl
      · have hle := (h₁.within j (by omega)).2
        rw [← hends j (by omega)] at hle
        exact le_antisymm hle ((hfull j hlt).ge.trans (h₂ j (by omega)))
      · exact h₃
  obtain ⟨hs, hfull⟩ := hrun n le_rfl
  have hpart : partition key n items = ((List.range n).foldl
      (fun state k => settle key ends k ends.sum state.1 state.2) (items, starts 0 counts)).1 := rfl
  rw [← hpart] at hs
  have hsum : counts.sum = (partition key n items).length := by
    rw [hcounts, sum_tally fun j hj => ?_, length_map, hs.perm.length_eq]
    obtain ⟨a, ha, rfl⟩ := mem_map.mp hj
    exact hkeys a ha
  obtain ⟨hflat, hlens⟩ := flatten_spans hsum
  refine ⟨hs.perm, spans counts (partition key n items), hflat, hlens, fun k slot hslot a ha => ?_⟩
  obtain ⟨i, hi⟩ := mem_iff_getElem?.mp ha
  have hilt := (List.getElem?_eq_some_iff.mp hi).1
  have hklen : counts[k]? = some slot.length := by rw [← hlens, getElem?_map, hslot]; rfl
  obtain ⟨hk, hkget⟩ := List.getElem?_eq_some_iff.mp hklen
  have hplace := getElem?_flatten_slot hslot hilt
  rw [hlens, hflat, hi] at hplace
  rw [hclen] at hk
  have hkey := hs.settled k hk (first counts k + i) (le_self_add) (by
    rw [hfull k hk, hends k hk, first_succ (hclen.symm ▸ hk), hkget]
    omega)
  have hitem : (partition key n items)[first counts k + i]? = some a := hplace
  rw [getElem?_map, hitem] at hkey
  exact Option.some.inj hkey

/-! ## Parts of whole partitions -/

/-- Takes counts until they make up a share. -/
def take_share (share : ℕ) : ℕ → List ℕ → ℕ × List ℕ
  | part, [] => (part, [])
  | part, count :: counts =>
    if share ≤ part + count then (part + count, counts) else take_share share (part + count) counts

/-- Cuts a partitioned list into parts of whole partitions, each of a share at
least but perhaps the last. -/
def shares (share : ℕ) : ℕ → List α → List ℕ → List (List α)
  | 0, _, _ => []
  | fuel + 1, rest, counts =>
    if rest = [] then []
    else
      let (part, counts) := take_share share 0 counts
      rest.take part :: shares share fuel (rest.drop part) counts

theorem take_share_spec (share part : ℕ) (slots : List (List α)) :
    ∃ pre post, slots = pre ++ post ∧ (slots ≠ [] → pre ≠ [])
      ∧ take_share share part (slots.map List.length)
        = (part + pre.flatten.length, post.map List.length) := by
  induction slots generalizing part with
  | nil => exact ⟨[], [], rfl, fun h => h, rfl⟩
  | cons slot slots ih =>
    rw [map_cons, take_share]
    split
    · exact ⟨[slot], slots, rfl, fun _ => nofun, by simp⟩
    · obtain ⟨pre, post, hslots, -, htake⟩ := ih (part + slot.length)
      refine ⟨slot :: pre, post, by rw [hslots]; rfl, fun _ => nofun, ?_⟩
      rw [htake, flatten_cons, length_append, add_assoc]

/-- **The parts are the list**, and what holds between partitions holds between
parts. -/
theorem shares_spec {R : α → α → Prop} (share : ℕ) {fuel : ℕ} (slots : List (List α))
    (hfuel : slots.length ≤ fuel)
    (hcross : slots.Pairwise fun p q => ∀ a ∈ p, ∀ b ∈ q, R a b) :
    (shares share fuel slots.flatten (slots.map List.length)).flatten = slots.flatten
      ∧ (shares share fuel slots.flatten (slots.map List.length)).Pairwise
        fun p q => ∀ a ∈ p, ∀ b ∈ q, R a b := by
  induction fuel generalizing slots with
  | zero =>
    obtain rfl := length_eq_zero_iff.mp (Nat.le_zero.mp hfuel)
    exact ⟨rfl, .nil⟩
  | succ fuel ih =>
    rw [shares]
    by_cases hnil : slots.flatten = []
    · rw [if_pos hnil, hnil]
      exact ⟨rfl, .nil⟩
    · obtain ⟨pre, post, rfl, hpre, htake⟩ := take_share_spec share 0 slots
      have hne : pre ≠ [] := hpre fun h => hnil (by rw [h]; rfl)
      have hpos := length_pos_iff.mpr hne
      obtain ⟨-, hpost, hbetween⟩ := pairwise_append.mp hcross
      rw [length_append] at hfuel
      obtain ⟨hflat, hpairs⟩ := ih post (by omega) hpost
      rw [if_neg hnil, htake]
      simp only [zero_add, flatten_append, take_left, drop_left]
      refine ⟨by rw [flatten_cons, hflat], pairwise_cons.mpr ⟨fun q hq a ha b hb => ?_,
        hpairs⟩⟩
      have hb' : b ∈ post.flatten := by
        rw [← hflat]
        exact mem_flatten_of_mem hq hb
      obtain ⟨p, hp, ha⟩ := mem_flatten.mp ha
      obtain ⟨q', hq', hb⟩ := mem_flatten.mp hb'
      exact hbetween p hp q' hq' a ha b hb

/-- **Partitioned and sorted part by part, a list is sorted**, by an order that
agrees with the keys and tells its items apart. -/
theorem sort_parts {le : α → α → Bool} (htrans : ∀ a b c, le a b → le b c → le a c)
    (htotal : ∀ a b, le a b || le b a) (hkey : ∀ a b, key a < key b → le a b)
    (hanti : ∀ a ∈ items, ∀ b ∈ items, le a b → le b a → a = b) (hkeys : ∀ a ∈ items, key a < n)
    (share : ℕ) :
    ((shares share n (partition key n items) (tally n (items.map key))).map
        fun part => part.mergeSort le).flatten = items.mergeSort le := by
  obtain ⟨hperm, slots, hflat, hlens, hslots⟩ := partition_spec hkeys
  have hlen : slots.length = n := by
    have h := congrArg List.length hlens
    rwa [length_map, length_tally] at h
  have hcross : slots.Pairwise fun p q => ∀ a ∈ p, ∀ b ∈ q, le a b := by
    refine pairwise_iff_getElem.mpr fun i j hi hj hij a ha b hb => hkey a b ?_
    rw [hslots i slots[i] (getElem?_eq_getElem hi) a ha,
      hslots j slots[j] (getElem?_eq_getElem hj) b hb]
    exact hij
  obtain ⟨hparts, hpairs⟩ := shares_spec share slots hlen.le hcross
  rw [hlens, hflat] at hparts hpairs
  generalize shares share n (partition key n items) (tally n (items.map key)) = parts at *
  have hsame : (parts.map fun part => part.mergeSort le).flatten.Perm parts.flatten := by
    clear hparts hpairs
    induction parts with
    | nil => exact List.Perm.refl _
    | cons part parts ih =>
      rw [map_cons, flatten_cons, flatten_cons]
      exact (mergeSort_perm part le).append ih
  have hall : (parts.map fun part => part.mergeSort le).flatten.Perm items :=
    hsame.trans (hparts ▸ hperm)
  have hsorted : (parts.map fun part => part.mergeSort le).flatten.Pairwise fun a b => le a b := by
    refine pairwise_flatten.mpr ⟨fun part hpart => ?_, pairwise_map.mpr ?_⟩
    · obtain ⟨p, -, rfl⟩ := mem_map.mp hpart
      exact pairwise_mergeSort htrans htotal p
    · exact hpairs.imp fun h a ha b hb =>
        h a (mem_mergeSort.mp ha) b (mem_mergeSort.mp hb)
  refine List.Perm.eq_of_pairwise (fun a b ha hb => hanti a (hall.mem_iff.mp ha) b ?_) hsorted
    (pairwise_mergeSort htrans htotal items) (hall.trans (mergeSort_perm items le).symm)
  exact mem_mergeSort.mp hb

end Flag
