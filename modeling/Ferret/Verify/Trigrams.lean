import Ferret.Index.Bytes
import Mathlib.Algebra.Order.BigOperators.Group.List
import Mathlib.Data.Finset.Card
import Mathlib.Data.List.Destutter
import Mathlib.Data.List.Sort

/-!
# Trigram queries within a budget

What every match of a pattern contains is a tree over trigram keys. A tree with
too many keys is fitted to a budget by weakening: an AND gives its children what
is left of the budget, and an OR an equal share each. Here the subtractions and
the division are checked ones, and the main result (`fitted_weaker`) is that a
tree made by the constructors never fails them, and that what comes out is
within the budget and follows from what went in.
-/

namespace Ferret.Verify

open List

/-- **What every match of a pattern contains.** -/
inductive Trigrams
  | All
  | None
  | Key (key : Bytes)
  | And (parts : List Trigrams)
  | Or (parts : List Trigrams)

namespace Trigrams

/-! ## The order of trees -/

mutual

/-- The derived order: the variants as they are declared, then their fields. -/
def cmp : Trigrams → Trigrams → Ordering
  | All, All => .eq
  | All, _ => .lt
  | None, All => .gt
  | None, None => .eq
  | None, _ => .lt
  | Key _, All | Key _, None => .gt
  | Key a, Key b => compare a b
  | Key _, _ => .lt
  | And a, And b => cmpAll a b
  | And _, Or _ => .lt
  | And _, _ => .gt
  | Or a, Or b => cmpAll a b
  | Or _, _ => .gt

def cmpAll : List Trigrams → List Trigrams → Ordering
  | [], [] => .eq
  | [], _ :: _ => .lt
  | _ :: _, [] => .gt
  | a :: as, b :: bs => (cmp a b).then (cmpAll as bs)

end

mutual

theorem eq_of_cmp : ∀ {a b : Trigrams}, cmp a b = .eq → a = b
  | All, b, h => by cases b <;> first | rfl | exact absurd h (by simp [cmp])
  | None, b, h => by cases b <;> first | rfl | exact absurd h (by simp [cmp])
  | Key a, b, h => by
    cases b with
    | Key b =>
      rw [cmp, Std.LawfulEqOrd.compare_eq_iff_eq] at h
      rw [h]
    | _ => exact absurd h (by simp [cmp])
  | And a, b, h => by
    cases b with
    | And b => rw [eq_of_cmpAll h]
    | _ => exact absurd h (by simp [cmp])
  | Or a, b, h => by
    cases b with
    | Or b => rw [eq_of_cmpAll h]
    | _ => exact absurd h (by simp [cmp])

theorem eq_of_cmpAll : ∀ {as bs : List Trigrams}, cmpAll as bs = .eq → as = bs
  | [], bs, h => by
    cases bs with
    | nil => rfl
    | cons b bs => exact absurd h (by simp [cmpAll])
  | a :: as, bs, h => by
    cases bs with
    | nil => exact absurd h (by simp [cmpAll])
    | cons b bs =>
      obtain ⟨hhead, htail⟩ := Ordering.then_eq_eq.mp h
      rw [eq_of_cmp hhead, eq_of_cmpAll htail]

end

/-! ## The constructors -/

/-- Sorted, and of equal neighbours the first. -/
def sort_dedup (flat : List Trigrams) : List Trigrams :=
  (flat.insertionSort fun a b => cmp a b ≠ .gt).destutter fun a b => cmp a b ≠ .eq

def collect (flat : List Trigrams) (identity : Trigrams) (node : List Trigrams → Trigrams) :
    Trigrams :=
  match sort_dedup flat with
  | [] => identity
  | [one] => one
  | flat => node flat

/-- The loop of `and` and of `or`: it skips the identity, ends at what absorbs the others, and
takes a node of its own kind apart. -/
def gather (identity absorbing : Trigrams) (node : List Trigrams → Trigrams)
    (inner : Trigrams → Option (List Trigrams)) : List Trigrams → List Trigrams → Trigrams
  | [], flat => collect flat identity node
  | part :: parts, flat =>
    if cmp part identity = .eq then gather identity absorbing node inner parts flat
    else if cmp part absorbing = .eq then absorbing
    else gather identity absorbing node inner parts (flat ++ (inner part).getD [part])

def andInner : Trigrams → Option (List Trigrams)
  | And inner => some inner
  | _ => none

def orInner : Trigrams → Option (List Trigrams)
  | Or inner => some inner
  | _ => none

def and (parts : List Trigrams) : Trigrams := gather All None And andInner parts []

def or (parts : List Trigrams) : Trigrams := gather None All Or orInner parts []

/-- **The trees of the constructors.** -/
inductive Built : Trigrams → Prop
  | all : Built All
  | none : Built None
  | key (key : Bytes) : Built (Key key)
  | and (parts : List Trigrams) : (∀ part ∈ parts, Built part) → Built (and parts)
  | or (parts : List Trigrams) : (∀ part ∈ parts, Built part) → Built (or parts)

/-! ## Keys -/

mutual

/-- Every distinct key in the tree. -/
def keys : Trigrams → Finset Bytes
  | All | None => ∅
  | Key key => {key}
  | And parts | Or parts => keysAll parts

def keysAll : List Trigrams → Finset Bytes
  | [] => ∅
  | part :: parts => part.keys ∪ keysAll parts

end

mutual

/-- Keys counted with repeats. -/
def weight : Trigrams → ℕ
  | All | None => 0
  | Key _ => 1
  | And parts | Or parts => weightAll parts

def weightAll : List Trigrams → ℕ
  | [] => 0
  | part :: parts => part.weight + weightAll parts

end

/-! ## Fitting -/

/-- The order in which an AND keeps its children: the bare keys before the others, the rare
ones and then the largest first; the others by their weight. -/
def keptBefore (frequency : Bytes → UInt64) : Trigrams → Trigrams → Bool
  | Key a, Key b => frequency a < frequency b || frequency a == frequency b && b ≤ a
  | Key _, _ => true
  | _, Key _ => false
  | a, b => a.weight ≤ b.weight

/-- A child with what fits it to a budget. -/
abbrev Child := Trigrams × (ℕ → Option Trigrams)

/-- The loop over the children of an AND, each of which has its `fit_by`. -/
def fitAnd : List Child → ℕ → List Trigrams → Option Trigrams
  | [], _, kept => some (and kept)
  | (_, fit) :: parts, left, kept => do
    let part ← fit left
    if part.weight ≤ left then fitAnd parts (left - part.weight) (kept ++ [part]) else none

/-- The children of an OR, each fitted to a share. -/
def fitEach (share : ℕ) : List Child → Option (List Trigrams)
  | [] => some []
  | (_, fit) :: parts => do return (← fit share) :: (← fitEach share parts)

/-- An OR shares its budget out evenly; without children to share among that fails. -/
def fitOr (parts : List Child) (budget : ℕ) : Option Trigrams := do
  if parts.length = 0 then none
  return or (← fitEach (budget / parts.length) parts)

mutual

/-- The tree weakened to at most `budget` keys; `none` is an underflow or a division by zero. -/
def fit_by (frequency : Bytes → UInt64) : Trigrams → ℕ → Option Trigrams
  | And parts => fun budget =>
    fitAnd ((fits frequency parts).insertionSort fun a b => keptBefore frequency a.1 b.1) budget []
  | Or parts => fitOr (fits frequency parts)
  | Key key => fun budget => some (if budget = 0 then All else Key key)
  | other => fun budget => some (if other.weight ≤ budget then other else All)

/-- Each child with its `fit_by`. -/
def fits (frequency : Bytes → UInt64) : List Trigrams → List Child
  | [] => []
  | part :: parts => (part, fit_by frequency part) :: fits frequency parts

end

def fit (tree : Trigrams) (budget : ℕ) : Option Trigrams := tree.fit_by (fun _ => 0) budget

/-- `LIMITS.keys`. -/
def LIMIT : ℕ := 64

/-- The tree within the cap, using dictionary frequencies. -/
def fit_by_frequency (tree : Trigrams) (frequencies : Bytes → Option UInt64) : Option Trigrams :=
  if tree.keys.card ≤ LIMIT then some tree
  else tree.fit_by (fun key => (frequencies key).getD (.ofNat (2 ^ 64 - 1))) LIMIT

/-- Weakens a query until it holds at most `max` distinct keys, and adds the keys it lost to
the `trims`; `none` also where the keys grew. -/
def cap_keys (query : Trigrams) (max : ℕ) (trims : UInt32) : Option (Trigrams × UInt32) := do
  let before := query.keys.card
  if before ≤ max then return (query, trims)
  let query ← query.fit max
  if query.keys.card ≤ before then
    return (query, trims + .ofNat (min (before - query.keys.card) (2 ^ 32 - 1)))
  else none

/-! ## What a tree asks for -/

section

variable (s : Set Bytes)

mutual

/-- **What a tree asks of a set of keys.** -/
def Holds : Trigrams → Prop
  | All => True
  | None => False
  | Key key => key ∈ s
  | And parts => AllHold parts
  | Or parts => AnyHolds parts

def AllHold : List Trigrams → Prop
  | [] => True
  | part :: parts => part.Holds ∧ AllHold parts

def AnyHolds : List Trigrams → Prop
  | [] => False
  | part :: parts => part.Holds ∨ AnyHolds parts

end

variable {s} {parts : List Trigrams}

@[simp]
theorem allHold_iff : AllHold s parts ↔ ∀ part ∈ parts, part.Holds s := by
  induction parts with
  | nil => simp [AllHold]
  | cons part parts ih => simp [AllHold, ih]

@[simp]
theorem anyHolds_iff : AnyHolds s parts ↔ ∃ part ∈ parts, part.Holds s := by
  induction parts with
  | nil => simp [AnyHolds]
  | cons part parts ih => simp [AnyHolds, ih]

end

mutual

/-- Every OR has children to share among. -/
def Shared : Trigrams → Prop
  | And parts => AllShared parts
  | Or parts => parts ≠ [] ∧ AllShared parts
  | _ => True

def AllShared : List Trigrams → Prop
  | [] => True
  | part :: parts => part.Shared ∧ AllShared parts

end

@[simp]
theorem allShared_iff {parts : List Trigrams} :
    AllShared parts ↔ ∀ part ∈ parts, part.Shared := by
  induction parts with
  | nil => simp [AllShared]
  | cons part parts ih => simp [AllShared, ih]

theorem weightAll_eq (parts : List Trigrams) : weightAll parts = (parts.map weight).sum := by
  induction parts with
  | nil => rfl
  | cons _ parts ih => rw [weightAll, ih, map_cons, sum_cons]

theorem weightAll_append (parts more : List Trigrams) :
    weightAll (parts ++ more) = weightAll parts + weightAll more := by
  rw [weightAll_eq, weightAll_eq, weightAll_eq, map_append, sum_append]

mutual

theorem card_keys_le : ∀ tree : Trigrams, tree.keys.card ≤ tree.weight
  | All | None => Nat.zero_le 0
  | Key _ => Nat.le_refl 1
  | And parts | Or parts => card_keysAll_le parts

theorem card_keysAll_le : ∀ parts : List Trigrams, (keysAll parts).card ≤ weightAll parts
  | [] => Nat.zero_le 0
  | part :: parts => (Finset.card_union_le _ _).trans
      (Nat.add_le_add (card_keys_le part) (card_keysAll_le parts))

end

/-! ## What the constructors make -/

theorem mem_destutter' (l : List Trigrams) (a : Trigrams) {t : Trigrams} :
    t ∈ l.destutter' (fun a b => cmp a b ≠ .eq) a ↔ t ∈ a :: l := by
  induction l generalizing a with
  | nil => rfl
  | cons b l ih =>
    rw [List.destutter']
    split_ifs with h
    · rw [mem_cons, ih, ← mem_cons]
    · rw [ih, mem_cons, mem_cons, mem_cons, eq_of_cmp (not_not.mp h), or_self_left]

theorem mem_sort_dedup {flat : List Trigrams} {t : Trigrams} : t ∈ sort_dedup flat ↔ t ∈ flat := by
  rw [← (perm_insertionSort (fun a b => cmp a b ≠ .gt) flat).mem_iff, sort_dedup]
  cases flat.insertionSort fun a b => cmp a b ≠ .gt with
  | nil => rfl
  | cons a l => exact mem_destutter' l a

theorem weightAll_sort_dedup (flat : List Trigrams) :
    weightAll (sort_dedup flat) ≤ weightAll flat := by
  have hperm := perm_insertionSort (fun a b => cmp a b ≠ .gt) flat
  rw [weightAll_eq, weightAll_eq, ← (hperm.map weight).sum_eq]
  exact ((destutter_sublist _ _).map weight).sum_le_sum fun _ _ => Nat.zero_le _

/-- **What a constructor makes of its flat children**: the same children, not more of them, and
a node only over two or more. -/
theorem collect_spec (flat : List Trigrams) (identity : Trigrams)
    (node : List Trigrams → Trigrams) :
    ∃ parts, (∀ t, t ∈ parts ↔ t ∈ flat) ∧ weightAll parts ≤ weightAll flat ∧
      (parts = [] ∧ collect flat identity node = identity ∨
        parts = [collect flat identity node] ∨
        parts ≠ [] ∧ collect flat identity node = node parts) := by
  refine ⟨sort_dedup flat, fun t => mem_sort_dedup, weightAll_sort_dedup flat, ?_⟩
  unfold collect
  split
  · exact .inl ⟨by assumption, rfl⟩
  · exact .inr (.inl (by assumption))
  · exact .inr (.inr ⟨by assumption, rfl⟩)

/-- What `gather` is told of a kind of node, with what a tree of it satisfies as all its
children do. -/
structure Kind (P : Trigrams → Prop) (identity absorbing : Trigrams)
    (node : List Trigrams → Trigrams) (inner : Trigrams → Option (List Trigrams)) : Prop where
  of_identity : P identity
  of_absorbing : ¬ P absorbing
  of_node : ∀ parts, P (node parts) ↔ ∀ part ∈ parts, P part
  eq_node : ∀ part parts, inner part = some parts → part = node parts
  shared : identity.Shared ∧ absorbing.Shared
  shared_node : ∀ parts, (node parts).Shared → AllShared parts
  node_shared : ∀ parts, parts ≠ [] → AllShared parts → (node parts).Shared
  weight : identity.weight = 0 ∧ absorbing.weight = 0
  weight_node : ∀ parts, (node parts).weight = weightAll parts

section

variable {P : Trigrams → Prop} {identity absorbing : Trigrams}
  {node : List Trigrams → Trigrams} {inner : Trigrams → Option (List Trigrams)}

theorem Kind.inner_spec (h : Kind P identity absorbing node inner) (part : Trigrams) :
    (P part ↔ ∀ t ∈ (inner part).getD [part], P t) ∧
      weightAll ((inner part).getD [part]) = part.weight ∧
      (part.Shared → ∀ t ∈ (inner part).getD [part], t.Shared) := by
  cases hinner : inner part with
  | none => simp [weightAll]
  | some parts =>
    obtain rfl := h.eq_node part parts hinner
    exact ⟨h.of_node parts, (h.weight_node parts).symm,
      fun hshared => allShared_iff.mp (h.shared_node parts hshared)⟩

/-- **What `gather` makes**: it satisfies what the children do, is no heavier than they are, and
has no OR to share among none. -/
theorem Kind.gather_spec (h : Kind P identity absorbing node inner) (parts flat : List Trigrams) :
    (P (gather identity absorbing node inner parts flat) ↔
        (∀ t ∈ flat, P t) ∧ ∀ t ∈ parts, P t) ∧
      (gather identity absorbing node inner parts flat).weight
        ≤ weightAll flat + weightAll parts ∧
      ((∀ t ∈ flat, t.Shared) → (∀ t ∈ parts, t.Shared) →
        (gather identity absorbing node inner parts flat).Shared) := by
  induction parts generalizing flat with
  | nil =>
    obtain ⟨children, hmem, hweight, hcases⟩ := collect_spec flat identity node
    rw [gather]
    have hP : (∀ t ∈ flat, P t) ↔ ∀ t ∈ children, P t := by simp only [hmem]
    have hshared : (∀ t ∈ flat, t.Shared) → AllShared children := fun hflat =>
      allShared_iff.mpr fun t ht => hflat t ((hmem t).mp ht)
    refine ⟨?_, ?_, fun hflat _ => ?_⟩
    · rw [hP]
      obtain ⟨rfl, heq⟩ | heq | ⟨-, heq⟩ := hcases
      · simp [heq, h.of_identity]
      · simp [heq]
      · simp [heq, h.of_node]
    · refine le_trans ?_ (Nat.le_add_right_of_le hweight)
      obtain ⟨-, heq⟩ | heq | ⟨-, heq⟩ := hcases
      · simp [heq, h.weight.1]
      · rw [heq, weightAll, weightAll]
        exact le_rfl
      · rw [heq, h.weight_node]
    · have hshared := hshared hflat
      obtain ⟨-, heq⟩ | heq | ⟨hne, heq⟩ := hcases
      · rw [heq]
        exact h.shared.1
      · rw [heq] at hshared
        exact hshared.1
      · rw [heq]
        exact h.node_shared children hne hshared
  | cons part parts ih =>
    rw [gather, weightAll]
    simp only [forall_mem_cons]
    split_ifs with hidentity habsorbing
    · obtain ⟨hP, hweight, hshared⟩ := ih flat
      rw [eq_of_cmp hidentity]
      exact ⟨by simp [hP, h.of_identity], by omega, fun hflat hparts => hshared hflat hparts.2⟩
    · rw [eq_of_cmp habsorbing]
      exact ⟨by simp [h.of_absorbing], by simp [h.weight.2], fun _ _ => h.shared.2⟩
    · obtain ⟨hP, hweight, hshared⟩ := ih (flat ++ (inner part).getD [part])
      obtain ⟨hP', hweight', hshared'⟩ := h.inner_spec part
      rw [weightAll_append, hweight'] at hweight
      refine ⟨?_, by omega, fun hflat hparts => hshared ?_ hparts.2⟩
      · rw [hP, forall_mem_append, ← hP', and_assoc]
      · exact forall_mem_append.mpr ⟨hflat, hshared' hparts.1⟩

end

theorem and_kind (s : Set Bytes) : Kind (Holds s) All None And andInner where
  of_identity := trivial
  of_absorbing := id
  of_node _ := allHold_iff
  eq_node part parts h := by
    cases part <;> cases h
    rfl
  shared := ⟨trivial, trivial⟩
  shared_node _ h := h
  node_shared _ _ h := h
  weight := ⟨rfl, rfl⟩
  weight_node _ := rfl

theorem or_kind (s : Set Bytes) : Kind (fun t => ¬ t.Holds s) None All Or orInner where
  of_identity := id
  of_absorbing h := h trivial
  of_node parts := by
    show ¬ AnyHolds s parts ↔ _
    rw [anyHolds_iff]
    push Not
    rfl
  eq_node part parts h := by
    cases part <;> cases h
    rfl
  shared := ⟨trivial, trivial⟩
  shared_node _ h := h.2
  node_shared _ hne h := ⟨hne, h⟩
  weight := ⟨rfl, rfl⟩
  weight_node _ := rfl

theorem Built.shared {tree : Trigrams} (h : Built tree) : tree.Shared := by
  induction h with
  | all | none | key => trivial
  | and parts _ ih =>
    exact ((and_kind ∅).gather_spec parts []).2.2 (nofun) ih
  | or parts _ ih =>
    exact ((or_kind ∅).gather_spec parts []).2.2 (nofun) ih

/-! ## Fitting weakens -/

/-- What is fitted to a budget: it is there, follows from the tree, and is within the budget. -/
def Fitted (tree : Trigrams) (size : Trigrams → ℕ) (budget : ℕ) (result : Option Trigrams) : Prop :=
  ∃ fitted, result = some fitted ∧ (∀ s, tree.Holds s → fitted.Holds s) ∧ size fitted ≤ budget

/-- A child is fitted to whatever it is given. -/
def Fits (part : Child) : Prop := ∀ budget, Fitted part.1 weight budget (part.2 budget)

theorem fitAnd_spec {parts : List Child}
    (h : ∀ part ∈ parts, Fits part) (left : ℕ) (kept : List Trigrams) :
    ∃ fitted, fitAnd parts left kept = some fitted ∧
      fitted.weight ≤ weightAll kept + left ∧
      ∀ s, (∀ t ∈ kept, t.Holds s) → (∀ part ∈ parts, part.1.Holds s) → fitted.Holds s := by
  induction parts generalizing left kept with
  | nil =>
    refine ⟨and kept, rfl, ?_, fun s hkept _ => ?_⟩
    · refine ((and_kind ∅).gather_spec kept []).2.1.trans ?_
      rw [weightAll, zero_add]
      exact le_self_add
    · exact ((and_kind s).gather_spec kept []).1.mpr ⟨nofun, hkept⟩
  | cons part parts ih =>
    obtain ⟨hpart, hparts⟩ := forall_mem_cons.mp h
    obtain ⟨first, hfirst, hweaker, hweight⟩ := hpart left
    obtain ⟨fitted, hfitted, hle, himp⟩ :=
      ih hparts (left - first.weight) (kept ++ [first])
    refine ⟨fitted, ?_, ?_, fun s hkept hall => ?_⟩
    · rw [fitAnd, hfirst]
      exact (if_pos hweight).trans hfitted
    · rw [weightAll_append, weightAll, weightAll] at hle
      omega
    · obtain ⟨hhead, htail⟩ := forall_mem_cons.mp hall
      refine himp s (forall_mem_append.mpr ⟨hkept, ?_⟩) htail
      exact forall_mem_singleton.mpr (hweaker s hhead)

theorem fitEach_spec {parts : List Child} {share : ℕ}
    (h : ∀ part ∈ parts, Fits part) :
    ∃ fitted, fitEach share parts = some fitted ∧ weightAll fitted ≤ parts.length * share ∧
      ∀ s, (∃ part ∈ parts, part.1.Holds s) → ∃ t ∈ fitted, t.Holds s := by
  induction parts with
  | nil => exact ⟨[], rfl, Nat.zero_le _, fun s h => by simp at h⟩
  | cons part parts ih =>
    obtain ⟨hpart, hparts⟩ := forall_mem_cons.mp h
    obtain ⟨first, hfirst, hweaker, _⟩ := hpart share
    obtain ⟨rest, hrest, _, himp⟩ := ih hparts
    refine ⟨first :: rest, ?_, ?_, fun s hany => ?_⟩
    · rw [fitEach, hfirst, hrest]
      rfl
    · rw [weightAll, length_cons, Nat.succ_mul]
      omega
    · rw [exists_mem_cons_iff] at hany ⊢
      exact hany.imp (hweaker s) (himp s)

theorem fitOr_spec {parts : List Child} (hne : parts ≠ [])
    (h : ∀ part ∈ parts, Fits part) (budget : ℕ) :
    ∃ fitted, fitOr parts budget = some fitted ∧ fitted.weight ≤ budget ∧
      ∀ s, (∃ part ∈ parts, part.1.Holds s) → fitted.Holds s := by
  obtain ⟨each, heach, hle, himp⟩ := @fitEach_spec parts (budget / parts.length) h
  refine ⟨or each, ?_, ?_, fun s hany => ?_⟩
  · rw [fitOr, if_neg (mt length_eq_zero_iff.mp hne), heach]
    rfl
  · refine ((or_kind ∅).gather_spec each []).2.1.trans ?_
    rw [weightAll, zero_add]
    exact hle.trans (Nat.mul_div_le budget parts.length)
  · obtain ⟨t, ht, hholds⟩ := himp s hany
    by_contra hnot
    exact (((or_kind s).gather_spec each []).1.mp hnot).2 t ht hholds

variable (frequency : Bytes → UInt64)

theorem fits_fst (parts : List Trigrams) : (fits frequency parts).map Prod.fst = parts := by
  induction parts with
  | nil => rfl
  | cons _ parts ih => rw [fits, map_cons, ih]

mutual

/-- **Fitting weakens a tree to its budget**, and fails no check. -/
theorem fit_by_spec : ∀ tree : Trigrams, tree.Shared → Fits (tree, tree.fit_by frequency)
  | All, _, budget => ⟨All, rfl, fun _ h => h, Nat.zero_le _⟩
  | None, _, budget => ⟨None, rfl, fun _ h => h, Nat.zero_le _⟩
  | Key key, _, budget => by
    refine ⟨if budget = 0 then All else Key key, rfl, fun s h => ?_, ?_⟩
    · split_ifs
      · trivial
      · exact h
    · split_ifs with hzero
      · exact Nat.zero_le _
      · exact Nat.one_le_iff_ne_zero.mpr hzero
  | And parts, h, budget => by
    have hfits := fits_spec parts h
    have hperm := perm_insertionSort
      (fun a b => keptBefore frequency a.1 b.1 = true) (fits frequency parts)
    obtain ⟨fitted, heq, hle, himp⟩ :=
      fitAnd_spec (fun part hpart => hfits part (hperm.mem_iff.mp hpart)) budget []
    refine ⟨fitted, heq, fun s hs => ?_, by rwa [weightAll, zero_add] at hle⟩
    refine himp s (nofun) fun part hpart => ?_
    refine allHold_iff.mp hs part.1 ?_
    rw [← fits_fst frequency parts]
    exact mem_map_of_mem (hperm.mem_iff.mp hpart)
  | Or parts, h, budget => by
    have hne : fits frequency parts ≠ [] := fun hnil => h.1 (by
      rw [← fits_fst frequency parts, hnil]
      rfl)
    obtain ⟨fitted, heq, hle, himp⟩ := fitOr_spec hne (fits_spec parts h.2) budget
    refine ⟨fitted, heq, fun s hs => himp s ?_, hle⟩
    obtain ⟨t, ht, hholds⟩ := anyHolds_iff.mp hs
    rw [← fits_fst frequency parts] at ht
    obtain ⟨part, hpart, rfl⟩ := mem_map.mp ht
    exact ⟨part, hpart, hholds⟩

theorem fits_spec : ∀ parts : List Trigrams, AllShared parts →
    ∀ part ∈ fits frequency parts, Fits part
  | [], _ => nofun
  | part :: parts, h =>
    forall_mem_cons.mpr ⟨fit_by_spec part h.1, fits_spec parts h.2⟩

end

/-- **Fitting only weakens, within the budget.** Of every tree that the constructors make, every
budget and every table of frequencies, what is fitted follows from the tree on every set of keys
and has no more keys than the budget; no subtraction underflows, and nothing is divided by
zero. -/
theorem fitted_weaker {tree : Trigrams} (h : Built tree) :
    let Fitted := Fitted tree (fun fitted => fitted.keys.card)
    (∀ frequency budget, Fitted budget (tree.fit_by frequency budget)) ∧
    (∀ budget, Fitted budget (tree.fit budget)) ∧
    (∀ frequencies, Fitted LIMIT (tree.fit_by_frequency frequencies)) ∧
    ∀ max trims, Fitted max ((cap_keys tree max trims).map Prod.fst) := by
  have hfit : ∀ frequency budget,
      Fitted tree (fun fitted => fitted.keys.card) budget (tree.fit_by frequency budget) := by
    intro frequency budget
    obtain ⟨fitted, heq, hweaker, hle⟩ := fit_by_spec frequency tree h.shared budget
    exact ⟨fitted, heq, hweaker, (card_keys_le fitted).trans hle⟩
  refine ⟨hfit, hfit _, fun frequencies => ?_, fun max trims => ?_⟩
  · unfold fit_by_frequency
    split_ifs with hsmall
    · exact ⟨tree, rfl, fun _ h => h, hsmall⟩
    · exact hfit _ LIMIT
  · by_cases hsmall : tree.keys.card ≤ max
    · exact ⟨tree, congrArg _ (if_pos hsmall), fun _ h => h, hsmall⟩
    · obtain ⟨fitted, heq, hweaker, hle⟩ := hfit (fun _ => 0) max
      refine ⟨fitted, ?_, hweaker, hle⟩
      rw [cap_keys, fit, heq, if_neg hsmall]
      exact congrArg _ (if_pos (hle.trans (Nat.le_of_not_le hsmall)))

/-- An AND of two keys within one. -/
theorem fitted_weaker_one :
    Fitted (and [Key [97, 98, 99], Key [98, 99, 100]]) (fun fitted => fitted.keys.card) 1
      ((and [Key [97, 98, 99], Key [98, 99, 100]]).fit 1) :=
  (fitted_weaker (.and _ (by
    intro part hpart
    obtain rfl | rfl : part = _ ∨ part = _ := by simpa using hpart
    all_goals exact .key _))).2.1 1

end Trigrams

end Ferret.Verify
