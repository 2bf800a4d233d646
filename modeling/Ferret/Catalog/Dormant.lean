import Ferret.Lib.Newest
import Ferret.Catalog.Reached

/-!
# Dormant documents

A document that dies while its content is covered by a committed index stays
revivable. Before a change set is committed, the deletions of such documents
are turned into permissions. One hash has one permission, that of the highest
id, and there are at most `CAP` of them: where more would remain, the lowest
ids are given up.

`canonicalize` says this of a whole table, as a rebuild needs it. `prepare`
keeps to the ids that change.
-/

namespace Ferret.Catalog

open Guarded List

abbrev IdSet := Std.ExtTreeSet ℕ compare

/-- Host authorization for covered last-reference deaths. The exceptions are a sorted
vector without repetitions, and so a set. -/
structure Coverage where
  frontier : ℕ
  unreadable : IdSet

def Coverage.new (frontier : ℕ) (unreadable : List ℕ) : Coverage where
  frontier := frontier
  unreadable := .ofList unreadable compare

def Coverage.covers (c : Coverage) (id : ℕ) : Bool :=
  id < c.frontier && !c.unreadable.contains id

/-! ## A whole table -/

instance (a b : ℕ × Hash) : Decidable (Newest.Before a b) := inferInstanceAs (Decidable (_ ∨ _))

/-- Keeps the highest id for each hash, then evicts the lowest ids on overflow. -/
def canonicalize (rows : List (ℕ × Hash)) (cap : ℕ) : List (ℕ × Hash) :=
  let rows := rows.mergeSort fun a b => Newest.Before a b
  let rows := Newest.dedup_by_key rows
  let rows := rows.mergeSort fun a b => a.1 ≤ b.1
  rows.drop (rows.length - cap)

/-! ## A change set -/

/-- The last record of each document. -/
def ChangeSet.final_docs (changes : ChangeSet) : Rows DocRow :=
  (Projection.final_rows changes.records).doc

/-- The documents that a transaction deletes last, and that are covered. -/
def eligible_rows (o : Overlay) (final : Rows DocRow) (coverage : Option Coverage) :
    List (ℕ × Hash) :=
  final.toList.filterMap fun r =>
    if r.2 = .delete ∧ coverage.any (·.covers r.1) then
      (o.doc_hash r.1).map fun hash => (r.1, hash)
    else none

/-- The retained holder of a hash, unless the transaction replaces it. -/
def prior_holder (o : Overlay) (final : Rows DocRow) (hash : Hash) : Option ℕ :=
  (o.dormant.find o.base.toTables hash).filter fun prior => !final.contains prior

/-- The loop over what is above the cap: the lowest id goes, of those that die now or of
those retained. -/
def evict (final : Rows DocRow) : ℕ → List ℕ → List ℕ → IdSet → IdSet →
    Guarded Empty (IdSet × IdSet)
  | 0, _, _, evicted, revoked => .ok (evicted, revoked)
  | excess + 1, old, new, evicted, revoked =>
    let old := old.dropWhile fun id => final.contains id || revoked.contains id
    if new.head?.any fun id => old.head?.all (id < ·) then
      match new with
      | [] => .error .panic
      | id :: new => evict final excess old new (evicted.insert id) revoked
    else
      match old with
      | [] => .error .panic
      | id :: old => evict final excess old new evicted (revoked.insert id)

/-- A deletion that retains, where it may. -/
def retain_deleted (eligible : Rows Hash) (evicted : IdSet) : Record → Record
  | .docDelete id =>
    match eligible[id.toNat]? with
    | some hash => if evicted.contains id.toNat then .docDelete id else .docDormant id hash
    | none => .docDelete id
  | r => r

/-- **`prepare`**: the change set with the permissions it gives and takes. `retained_ids`
is the writer's ordered copy of the view's retained ids. -/
def prepare (o : Overlay) (changes : ChangeSet) (coverage : Option Coverage) (cap : ℕ)
    (retained_ids : IdSet) : Guarded Empty ChangeSet := do
  claim (retained_ids.size = o.dormant.count)
  let final := changes.final_docs
  let eligible := eligible_rows o final coverage
  if eligible = [] then return changes
  else do
    -- the newly dying identities alone, and then each against the retained holder
    let eligible := canonicalize eligible (2 ^ 64 - 1)
    let eligible := eligible.filter fun r => ¬(prior_holder o final r.2).any (r.1 < ·)
    let revoked : IdSet := .ofList (eligible.filterMap fun r => prior_holder o final r.2) compare
    let eligible : Rows Hash := .ofList eligible compare
    let removed := final.keys.countP fun id => (o.dormant_hash id).isSome
    let kept ← sub64 o.dormant.count removed
    let count := (← sub64 kept revoked.size) + eligible.size
    let (evicted, revoked) ←
      evict final (count - min cap CAP) retained_ids.toList eligible.keys ∅ revoked
    return { changes with
      records := changes.records.map (retain_deleted eligible evicted) ++
        revoked.toList.map fun id => .docForget (.ofNat id) }

/-! ## What the functions compute -/

section

variable {rows : List (ℕ × Hash)}

/-- The first two steps of `canonicalize`. -/
theorem mem_dedup_sorted {r : ℕ × Hash} :
    r ∈ Newest.dedup_by_key (rows.mergeSort fun a b => Newest.Before a b) ↔
      r ∈ Newest.holders rows.toFinset := by
  have hsorted : (rows.mergeSort fun a b => Newest.Before a b).Pairwise Newest.Before := by
    refine (pairwise_mergeSort ?_ ?_ rows).imp fun {a b} hab => of_decide_eq_true hab
    · intro a b c hab hbc
      refine decide_eq_true ?_
      rcases of_decide_eq_true hab with hlt | ⟨heq, hle⟩
      · rcases of_decide_eq_true hbc with hlt' | ⟨heq', -⟩
        · exact .inl (hlt.trans hlt')
        · exact .inl (heq' ▸ hlt)
      · rcases of_decide_eq_true hbc with hlt' | ⟨heq', hle'⟩
        · exact .inl (heq ▸ hlt')
        · exact .inr ⟨heq.trans heq', hle'.trans hle⟩
    · intro a b
      rw [Bool.or_eq_true, decide_eq_true_iff, decide_eq_true_iff]
      rcases lt_trichotomy a.2 b.2 with hlt | heq | hgt
      · exact .inl (.inl hlt)
      · rcases le_total b.1 a.1 with hle | hle
        · exact .inl (.inr ⟨heq, hle⟩)
        · exact .inr (.inr ⟨heq.symm, hle⟩)
      · exact .inr (.inl hgt)
  rw [Newest.mem_dedup_by_key hsorted]
  have hperm : (rows.mergeSort fun a b => Newest.Before a b).toFinset = rows.toFinset :=
    toFinset_eq_of_perm _ _ (mergeSort_perm rows _)
  rw [hperm]

/-- The rows before those above the cap are left out. -/
theorem resorted_ascending (h : (rows.map Prod.fst).Nodup) :
    ((Newest.dedup_by_key (rows.mergeSort fun a b => Newest.Before a b)).mergeSort
      fun a b => a.1 ≤ b.1).Pairwise fun a b => a.1 < b.1 := by
  have hsub := Newest.dedup_by_key_sublist (rows.mergeSort fun a b => Newest.Before a b)
  generalize hrows : Newest.dedup_by_key (rows.mergeSort fun a b => Newest.Before a b) = kept
    at hsub ⊢
  have hnodup : ((kept.mergeSort fun a b => a.1 ≤ b.1).map Prod.fst).Nodup := by
    refine ((mergeSort_perm kept _).map Prod.fst).nodup_iff.mpr ?_
    refine (hsub.map Prod.fst).nodup ?_
    exact ((mergeSort_perm rows _).map Prod.fst).nodup_iff.mpr h
  have hle : (kept.mergeSort fun a b => a.1 ≤ b.1).Pairwise fun a b => a.1 ≤ b.1 := by
    refine (pairwise_mergeSort ?_ ?_ kept).imp fun {a b} hab => of_decide_eq_true hab
    · intro a b c hab hbc
      exact decide_eq_true ((of_decide_eq_true hab).trans (of_decide_eq_true hbc))
    · intro a b
      rw [Bool.or_eq_true, decide_eq_true_iff, decide_eq_true_iff]
      exact le_total a.1 b.1
  exact hle.imp₂ (fun a b hab hne => lt_of_le_of_ne hab hne) (pairwise_map.mp hnodup)

theorem canonicalize_ascending (h : (rows.map Prod.fst).Nodup) (cap : ℕ) :
    (canonicalize rows cap).Pairwise fun a b => a.1 < b.1 :=
  (resorted_ascending h).sublist (drop_sublist ..)

/-- **`canonicalize` keeps the newest holders.** -/
theorem mem_canonicalize (h : (rows.map Prod.fst).Nodup) {cap : ℕ} {r : ℕ × Hash} :
    r ∈ canonicalize rows cap ↔ r ∈ Newest.newest cap (Newest.holders rows.toFinset) := by
  have hsame : ((Newest.dedup_by_key (rows.mergeSort fun a b => Newest.Before a b)).mergeSort
      fun a b => a.1 ≤ b.1).toFinset = Newest.holders rows.toFinset := by
    ext r
    rw [mem_toFinset, mem_mergeSort, mem_dedup_sorted]
  rw [← hsame, ← Newest.toFinset_drop (resorted_ascending h), mem_toFinset]
  rfl

end

/-! ## Eviction -/

/-- Whether a retained id is left to the eviction. -/
def spared (final : Rows DocRow) (revoked : IdSet) (id : ℕ) : Bool :=
  !(final.contains id || revoked.contains id)

section

variable {final : Rows DocRow} {revoked : IdSet} {old : List ℕ}

theorem filter_dropWhile :
    (old.dropWhile fun id => final.contains id || revoked.contains id).filter
      (spared final revoked) = old.filter (spared final revoked) := by
  induction old with
  | nil => rfl
  | cons id old ih =>
    by_cases hgone : (final.contains id || revoked.contains id) = true
    · have hskip : ¬spared final revoked id = true := by
        rw [spared, hgone]
        exact nofun
      rw [filter_cons_of_neg hskip, ← ih]
      exact congrArg _ (dropWhile_cons_of_pos hgone)
    · exact congrArg _ (dropWhile_cons_of_neg hgone)

/-- An id revoked before the others are looked at does not change them. -/
theorem filter_insert {id : ℕ} (h : ∀ x ∈ old, id < x) :
    old.filter (spared final (revoked.insert id)) = old.filter (spared final revoked) := by
  refine filter_congr fun x hx => ?_
  have hne : (compare id x == Ordering.eq) = false := by
    rw [beq_eq_false_iff_ne]
    exact fun heq => (h x hx).ne (Std.LawfulEqCmp.eq_of_compare heq)
  rw [spared, spared, Std.ExtTreeSet.contains_insert, hne, Bool.false_or]

/-- What the loop skips of the retained ids. -/
def unskipped (final : Rows DocRow) (revoked : IdSet) (old : List ℕ) : List ℕ :=
  old.dropWhile fun id => final.contains id || revoked.contains id

theorem head_unskipped {id : ℕ} (h : (unskipped final revoked old).head? = some id) :
    spared final revoked id = true := by
  have hnot := head?_dropWhile_not (fun id => final.contains id || revoked.contains id) old
  rw [show (old.dropWhile _).head? = some id from h] at hnot
  rw [spared, hnot]
  rfl

variable {n id first : ℕ} {new rest : List ℕ} (evicted : IdSet)

theorem evict_new (h : ∀ first ∈ (unskipped final revoked old).head?, id < first) :
    evict final (n + 1) old (id :: new) evicted revoked =
      evict final n (unskipped final revoked old) new (evicted.insert id) revoked := by
  have hall : (unskipped final revoked old).head?.all (id < ·) = true := by
    cases hhead : (unskipped final revoked old).head? with
    | none => rfl
    | some first => exact decide_eq_true (h first hhead)
  exact if_pos hall

theorem evict_old (hrest : unskipped final revoked old = first :: rest)
    (h : ∀ id ∈ new.head?, first ≤ id) :
    evict final (n + 1) old new evicted revoked =
      evict final n rest new evicted (revoked.insert first) := by
  rw [unskipped] at hrest
  have hany : ¬(new.head?.any fun id => (first :: rest).head?.all (id < ·)) = true := by
    cases new with
    | nil => nofun
    | cons id new =>
      exact fun hlt => (h id rfl).not_gt (of_decide_eq_true hlt)
  conv_lhs => unfold evict
  rw [hrest]
  exact if_neg hany

/-- What the loop of `prepare` ends with, for a number of ids taken from each list. -/
structure Evicted (old new : List ℕ) (evicted revoked : IdSet) (i j : ℕ)
    (result : IdSet × IdSet) : Prop where
  lowest : Newest.Lowest old new i j
  evicted : ∀ id, id ∈ result.1 ↔ id ∈ evicted ∨ id ∈ new.take j
  revoked : ∀ id, id ∈ result.2 ↔ id ∈ revoked ∨ id ∈ old.take i

/-- **The loop gives up the lowest ids**, and never looks for one in vain. -/
theorem evict_ok (hold : old.Pairwise (· < ·)) (hnew : new.Pairwise (· < ·))
    (hdisjoint : ∀ id ∈ old, id ∉ final → id ∉ new)
    (hn : n ≤ (old.filter (spared final revoked)).length + new.length) :
    ∃ i j result, i + j = n ∧ evict final n old new evicted revoked = .ok result ∧
      Evicted (old.filter (spared final revoked)) new evicted revoked i j result := by
  induction n generalizing old new evicted revoked with
  | zero =>
    refine ⟨0, 0, _, rfl, rfl, .zero _ _, fun id => ?_, fun id => ?_⟩ <;> simp
  | succ n ih =>
    have hfilter : (unskipped final revoked old).filter (spared final revoked) =
      old.filter (spared final revoked) := filter_dropWhile
    have hsub : (unskipped final revoked old).Sublist old := dropWhile_sublist _
    rw [← hfilter] at hn ⊢
    have hrest := hold.sublist hsub
    have hfree := fun id hid => hdisjoint id (hsub.subset hid)
    -- The id that goes is the lower one of the two first.
    by_cases hfirst : ∃ id new', new = id :: new' ∧
        ∀ first ∈ (unskipped final revoked old).head?, id < first
    · obtain ⟨id, new, rfl, hlt⟩ := hfirst
      obtain ⟨hid, hnew⟩ := pairwise_cons.mp hnew
      have hbelow : ∀ x ∈ unskipped final revoked old, id < x := by
        generalize unskipped final revoked old = rest at hrest hlt
        cases rest with
        | nil => nofun
        | cons first rest =>
          intro x hx
          rcases mem_cons.mp hx with rfl | hx
          · exact hlt x rfl
          · exact (hlt first rfl).trans ((pairwise_cons.mp hrest).1 x hx)
      rw [evict_new evicted hlt]
      obtain ⟨i, j, result, hij, hok, hres⟩ := @ih revoked _ new
        (evicted.insert id) hrest hnew
        (fun x hx hfinal hmem => hfree x hx hfinal (.tail _ hmem))
        (by rw [length_cons] at hn; omega)
      refine ⟨i, j + 1, result, by omega, hok, ?_, fun x => ?_, hres.revoked⟩
      · refine hres.lowest.cons_right fun y hy => ?_
        rcases mem_append.mp hy with hy | hy
        · exact hbelow y (mem_filter.mp hy).1
        · exact hid y hy
      · rw [hres.evicted, Std.ExtTreeSet.mem_insert, Std.LawfulEqCmp.compare_eq_iff_eq,
          take_succ_cons, mem_cons, eq_comm]
        tauto
    · cases hlist : unskipped final revoked old with
      | nil =>
        rw [hlist] at hn hfirst
        cases new with
        | nil => exact absurd hn (Nat.not_succ_le_zero n)
        | cons id new => exact absurd ⟨id, new, rfl, nofun⟩ hfirst
      | cons first rest =>
        have hspared : spared final revoked first = true := head_unskipped (by rw [hlist]; rfl)
        have hfinal : first ∉ final := by
          rw [spared, Bool.not_eq_true', Bool.or_eq_false_iff] at hspared
          rw [← Std.ExtTreeMap.contains_iff_mem, hspared.1]
          exact nofun
        rw [hlist] at hn hrest hfree hfirst
        obtain ⟨habove, hrest⟩ := pairwise_cons.mp hrest
        have hle : ∀ id ∈ new.head?, first ≤ id := by
          intro id hid
          obtain ⟨new', rfl⟩ := head?_eq_some_iff.mp hid
          refine not_lt.mp fun hlt => hfirst ⟨id, new', rfl, fun first' h => ?_⟩
          rw [← Option.some.inj h]
          exact hlt
        have hbelow : ∀ x ∈ new, first < x := by
          cases new with
          | nil => nofun
          | cons id new =>
            have hne : first ≠ id := fun heq =>
              hfree first (.head _) hfinal (heq ▸ .head _)
            have hlt := lt_of_le_of_ne (hle id rfl) hne
            intro x hx
            rcases mem_cons.mp hx with rfl | hx
            · exact hlt
            · exact hlt.trans ((pairwise_cons.mp hnew).1 x hx)
        have hsame : rest.filter (spared final (revoked.insert first)) =
          rest.filter (spared final revoked) := filter_insert habove
        rw [filter_cons_of_pos hspared] at hn ⊢
        rw [evict_old evicted hlist hle]
        obtain ⟨i, j, result, hij, hok, hres⟩ := @ih (revoked.insert first) rest new
          evicted hrest hnew (fun x hx => hfree x (.tail _ hx))
          (by rw [hsame]; rw [length_cons] at hn; omega)
        rw [hsame] at hres
        refine ⟨i + 1, j, result, by omega, hok, ?_, hres.evicted, fun x => ?_⟩
        · refine hres.lowest.cons_left fun y hy => ?_
          rcases mem_append.mp hy with hy | hy
          · exact habove y (mem_filter.mp hy).1
          · exact hbelow y hy
        · rw [hres.revoked, Std.ExtTreeSet.mem_insert, Std.LawfulEqCmp.compare_eq_iff_eq,
            take_succ_cons, mem_cons, eq_comm]
          tauto

end

end Ferret.Catalog
