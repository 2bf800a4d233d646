import Ferret.Catalog.Transition

/-!
# The retained permissions of a view

A document that dies may leave its id, for a document with the same hash to
revive. A view knows these permissions twice: by id, from its rows, and by
hash, from the state that each transaction advances. The two agree, and the
state counts the ids.
-/

namespace Ferret.Catalog

open Guarded List Option

namespace DormantState

variable {base : Tables} {s s' : DormantState} {removed added : List (ℕ × Hash)}

/-! ## Removing and adding -/

variable {changes changes' : HashRows}

theorem remove_fold_ok :
    removed.foldlM (s.remove base) changes = .ok changes' ↔
      (∀ r ∈ removed, s.find base r.2 = some r.1) ∧
        changes' = removed.foldl (fun m r => m.insert r.2 none) changes := by
  induction removed generalizing changes with
  | nil =>
    rw [foldlM_nil, pure_eq_ok]
    simp [eq_comm]
  | cons r removed ih =>
    rw [foldlM_cons]
    simp only [remove, bind_eq_ok, ensure_eq_ok, pure_eq_ok, exists_const]
    constructor
    · rintro ⟨_, ⟨hr, rfl⟩, h⟩
      obtain ⟨hall, rfl⟩ := ih.mp h
      exact ⟨forall_mem_cons.mpr ⟨hr, hall⟩, rfl⟩
    · rintro ⟨hall, rfl⟩
      obtain ⟨hr, hall⟩ := forall_mem_cons.mp hall
      exact ⟨_, ⟨hr, rfl⟩, ih.mpr ⟨hall, rfl⟩⟩

theorem getElem?_remove_fold (changes : HashRows) (hash : Hash) :
    (removed.foldl (fun m r => m.insert r.2 none) changes)[hash]? =
      if hash ∈ removed.map Prod.snd then some none else changes[hash]? := by
  induction removed generalizing changes with
  | nil => rfl
  | cons r removed ih =>
    have hcons : hash ∈ (r :: removed).map Prod.snd ↔ hash = r.2 ∨ hash ∈ removed.map Prod.snd :=
      mem_cons
    rw [foldl_cons, ih, Std.ExtTreeMap.getElem?_insert]
    by_cases hmem : hash ∈ removed.map Prod.snd
    · rw [if_pos hmem, if_pos (hcons.mpr (.inr hmem))]
    · by_cases heq : r.2 = hash
      · subst heq
        rw [if_neg hmem, if_pos (hcons.mpr (.inl rfl)), if_pos Std.ReflCmp.compare_self]
      · rw [if_neg hmem, if_neg (fun h => heq (Std.LawfulEqCmp.eq_of_compare h)), if_neg]
        intro h
        rcases hcons.mp h with h | h
        · exact heq h.symm
        · exact hmem h

theorem add_fold_ok :
    added.foldlM (s.add base) changes = .ok changes' ↔
      (added.map Prod.snd).Nodup ∧
        (∀ a ∈ added, changes[a.2]?.getD (s.find base a.2) = none) ∧
        changes' = added.foldl (fun m a => m.insert a.2 (some a.1)) changes := by
  induction added generalizing changes with
  | nil =>
    rw [foldlM_nil, pure_eq_ok]
    simp [eq_comm]
  | cons a added ih =>
    rw [foldlM_cons]
    simp only [add, bind_eq_ok, ensure_eq_ok, pure_eq_ok, exists_const]
    have hskip : ∀ a' : ℕ × Hash, a'.2 ≠ a.2 →
        (changes.insert a.2 (some a.1))[a'.2]? = changes[a'.2]? := fun a' hne => by
      rw [Std.ExtTreeMap.getElem?_insert,
        if_neg fun h => hne (Std.LawfulEqCmp.eq_of_compare h).symm]
    have hself : (changes.insert a.2 (some a.1))[a.2]? = some (some a.1) :=
      Std.ExtTreeMap.getElem?_insert_self
    rw [map_cons, nodup_cons, forall_mem_cons]
    constructor
    · rintro ⟨_, ⟨ha, rfl⟩, h⟩
      obtain ⟨hnodup, hfree, rfl⟩ := ih.mp h
      have hne : ∀ a' ∈ added, a'.2 ≠ a.2 := by
        intro a' ha' heq
        have h := hfree a' ha'
        rw [heq, hself] at h
        cases h
      have hnew : a.2 ∉ added.map Prod.snd := by
        intro hmem
        obtain ⟨a', ha', heq⟩ := List.mem_map.mp hmem
        exact hne a' ha' heq
      refine ⟨⟨hnew, hnodup⟩, ⟨ha, fun a' ha' => ?_⟩, rfl⟩
      rw [← hskip a' (hne a' ha')]
      exact hfree a' ha'
    · rintro ⟨⟨hnew, hnodup⟩, ⟨ha, hfree⟩, rfl⟩
      refine ⟨_, ⟨ha, rfl⟩, ih.mpr ⟨hnodup, fun a' ha' => ?_, rfl⟩⟩
      rw [hskip a' fun heq => hnew (List.mem_map.mpr ⟨a', ha', heq⟩)]
      exact hfree a' ha'

theorem getElem?_add_fold_of_notMem (changes : HashRows) {hash : Hash}
    (h : hash ∉ added.map Prod.snd) :
    (added.foldl (fun m a => m.insert a.2 (some a.1)) changes)[hash]? = changes[hash]? := by
  induction added generalizing changes with
  | nil => rfl
  | cons a added ih =>
    rw [map_cons, mem_cons, not_or] at h
    rw [foldl_cons, ih _ h.2, Std.ExtTreeMap.getElem?_insert,
      if_neg fun heq => h.1 (Std.LawfulEqCmp.eq_of_compare heq).symm]

theorem getElem?_add_fold_of_mem (changes : HashRows) (hnodup : (added.map Prod.snd).Nodup)
    {a : ℕ × Hash} (ha : a ∈ added) :
    (added.foldl (fun m a => m.insert a.2 (some a.1)) changes)[a.2]? = some (some a.1) := by
  induction added generalizing changes with
  | nil => cases ha
  | cons b added ih =>
    rw [map_cons, nodup_cons] at hnodup
    rw [foldl_cons]
    rcases mem_cons.mp ha with rfl | ha
    · rw [getElem?_add_fold_of_notMem _ hnodup.1]
      exact Std.ExtTreeMap.getElem?_insert_self
    · exact ih _ hnodup.2 ha

/-! ## One advance -/

/-- What `advance` asks of the rows removed and added. -/
structure Accepts (base : Tables) (s : DormantState) (removed added : List (ℕ × Hash)) : Prop where
  held : ∀ r ∈ removed, s.find base r.2 = some r.1
  nodup : (added.map Prod.snd).Nodup
  free : ∀ a ∈ added, a.2 ∈ removed.map Prod.snd ∨ s.find base a.2 = none
  le : removed.length ≤ s.count
  cap : s.count - removed.length + added.length ≤ CAP

theorem advance_eq_ok :
    s.advance base removed added = .ok s' ↔ Accepts base s removed added ∧ s' =
      { changes := s.changes ∪ added.foldl (fun m a => m.insert a.2 (some a.1))
          (removed.foldl (fun m r => m.insert r.2 none) ∅)
        count := s.count - removed.length + added.length } := by
  have hget : ∀ a : ℕ × Hash,
      (removed.foldl (fun m r => m.insert r.2 none) (∅ : HashRows))[a.2]?.getD (s.find base a.2) =
        none ↔ a.2 ∈ removed.map Prod.snd ∨ s.find base a.2 = none := fun a => by
    rw [getElem?_remove_fold]
    split
    · rename_i hmem
      exact ⟨fun _ => .inl hmem, fun _ => rfl⟩
    · rename_i hmem
      rw [Std.ExtTreeMap.getElem?_empty, getD_none]
      exact ⟨.inr, fun h => h.resolve_left hmem⟩
  simp only [advance, bind_eq_ok, ensure_eq_ok, pure_eq_ok, exists_const, remove_fold_ok,
    add_fold_ok]
  constructor
  · rintro ⟨_, ⟨hheld, rfl⟩, _, ⟨hnodup, hfree, rfl⟩, ⟨hle, hcap⟩, rfl⟩
    exact ⟨⟨hheld, hnodup, fun a ha => (hget a).mp (hfree a ha), hle, hcap⟩, rfl⟩
  · rintro ⟨⟨hheld, hnodup, hfree, hle, hcap⟩, rfl⟩
    exact ⟨_, ⟨hheld, rfl⟩, _, ⟨hnodup, fun a ha => (hget a).mpr (hfree a ha), rfl⟩,
      ⟨hle, hcap⟩, rfl⟩

/-- **The holders after an advance**: those added, and those before that were neither
removed nor replaced. -/
theorem find_advance (h : s.advance base removed added = .ok s') {hash : Hash} {id : ℕ} :
    s'.find base hash = some id ↔ (id, hash) ∈ added ∨
      (hash ∉ added.map Prod.snd ∧ hash ∉ removed.map Prod.snd ∧
        s.find base hash = some id) := by
  obtain ⟨hok, rfl⟩ := advance_eq_ok.mp h
  by_cases hadded : hash ∈ added.map Prod.snd
  · obtain ⟨a, ha, rfl⟩ := List.mem_map.mp hadded
    have hnow := getElem?_add_fold_of_mem
      (removed.foldl (fun m r => m.insert r.2 none) (∅ : HashRows)) hok.nodup ha
    simp only [find, Std.ExtTreeMap.getElem?_union, hnow, some_or]
    constructor
    · rintro hid
      cases hid
      exact .inl ha
    · rintro (hmem | ⟨hnot, -, -⟩)
      · have heq := getElem?_add_fold_of_mem
          (removed.foldl (fun m r => m.insert r.2 none) (∅ : HashRows)) hok.nodup hmem
        exact Option.some.inj (hnow.symm.trans heq)
      · exact absurd hadded hnot
  · have hleft : (id, hash) ∉ added := fun hmem =>
      hadded (List.mem_map.mpr ⟨(id, hash), hmem, rfl⟩)
    simp only [find, Std.ExtTreeMap.getElem?_union, getElem?_add_fold_of_notMem _ hadded,
      getElem?_remove_fold, Std.ExtTreeMap.getElem?_empty]
    by_cases hremoved : hash ∈ removed.map Prod.snd
    · rw [if_pos hremoved, some_or]
      constructor
      · exact nofun
      · rintro (hmem | ⟨-, hnot, -⟩)
        · exact absurd hmem hleft
        · exact absurd hremoved hnot
    · rw [if_neg hremoved, none_or]
      exact ⟨fun h => .inr ⟨hadded, hremoved, h⟩, fun h => (h.resolve_left hleft).2.2⟩

end DormantState

/-! ## The permissions of a transaction -/

/-- The permissions of the ids that a transaction replaces. -/
def touched_permissions (base : Tables) (p final : Projection) : List (ℕ × Hash) :=
  final.doc.toList.filterMap fun r => (p.dormant_hash base r.1).map fun hash => (r.1, hash)

/-- The permission that a row gives. -/
def DocRow.permission : DocRow → Option Hash
  | .dormant hash => some hash
  | _ => none

/-- The permissions that a transaction gives. -/
def new_permissions (final : Projection) : List (ℕ × Hash) :=
  final.doc.toList.filterMap fun r => r.2.permission.map fun hash => (r.1, hash)

section

variable {base : Tables} {p final : Projection} {id : ℕ} {hash : Hash}

theorem advance_dormant_eq {s : DormantState} {records : List Record} :
    advance_dormant base p s records =
      s.advance base (touched_permissions base p (Projection.final_rows records))
        (new_permissions (Projection.final_rows records)) := by
  refine congrArg (s.advance base _) (filterMap_congr fun r _ => ?_)
  obtain ⟨i, row⟩ := r
  cases row <;> rfl

theorem permission_eq_some {row : DocRow} : row.permission = some hash ↔ row = .dormant hash := by
  cases row with
  | dormant h => exact ⟨(fun heq => by rw [Option.some.inj heq]), (fun heq => by cases heq; rfl)⟩
  | put | delete | forget => exact ⟨nofun, nofun⟩

theorem mem_touched_permissions :
    (id, hash) ∈ touched_permissions base p final ↔
      (final.doc[id]?).isSome ∧ p.dormant_hash base id = some hash := by
  rw [touched_permissions, mem_filterMap]
  constructor
  · rintro ⟨⟨i, row⟩, hmem, hmap⟩
    obtain ⟨_, hhash, heq⟩ := map_eq_some_iff.mp hmap
    cases heq
    exact ⟨isSome_iff_exists.mpr ⟨row, mem_toList.mp hmem⟩, hhash⟩
  · rintro ⟨hrow, hhash⟩
    obtain ⟨row, hrow⟩ := isSome_iff_exists.mp hrow
    exact ⟨(id, row), mem_toList.mpr hrow, map_eq_some_iff.mpr ⟨hash, hhash, rfl⟩⟩

theorem mem_new_permissions :
    (id, hash) ∈ new_permissions final ↔ final.doc[id]? = some (.dormant hash) := by
  rw [new_permissions, mem_filterMap]
  constructor
  · rintro ⟨⟨i, _⟩, hmem, hmap⟩
    obtain ⟨_, hrow, heq⟩ := map_eq_some_iff.mp hmap
    cases heq
    rw [← permission_eq_some.mp hrow]
    exact mem_toList.mp hmem
  · exact fun h => ⟨(id, .dormant hash), mem_toList.mpr h, rfl⟩

/-- Rows made of other rows keep the order of their ids. -/
theorem pairwise_filterMap_fst {α β : Type} {R : ℕ → ℕ → Prop} {l : List (ℕ × α)}
    (h : (l.map Prod.fst).Pairwise R) {f : ℕ × α → Option (ℕ × β)}
    (hf : ∀ r x, f r = some x → x.1 = r.1) : ((l.filterMap f).map Prod.fst).Pairwise R := by
  rw [pairwise_map] at h ⊢
  refine pairwise_filterMap.mpr (h.imp fun {a b} hab x hx y hy => ?_)
  rw [hf a x hx, hf b y hy]
  exact hab

theorem touched_permissions_nodup : ((touched_permissions base p final).map Prod.fst).Nodup :=
  pairwise_filterMap_fst keys_nodup fun r x hx => by
    obtain ⟨_, -, rfl⟩ := map_eq_some_iff.mp hx
    rfl

theorem new_permissions_nodup : ((new_permissions final).map Prod.fst).Nodup :=
  pairwise_filterMap_fst keys_nodup fun r x hx => by
    obtain ⟨_, -, rfl⟩ := map_eq_some_iff.mp hx
    rfl

/-- The retained hash under later rows. -/
theorem dormant_hash_over :
    (p.overlaid final).dormant_hash base id = some hash ↔
      final.doc[id]? = some (.dormant hash) ∨
        final.doc[id]? = none ∧ p.dormant_hash base id = some hash := by
  unfold Projection.dormant_hash
  rw [show (p.overlaid final).doc[id]? = final.doc[id]?.or p.doc[id]? from getElem?_over]
  cases final.doc[id]? with
  | none => simp
  | some row => cases row <;> simp

/-- **How many permissions a transaction leaves.** -/
theorem card_after {ids : Finset ℕ} (hids : ∀ id, id ∈ ids ↔ (p.dormant_hash base id).isSome) :
    (touched_permissions base p final).length ≤ ids.card ∧
      ∃ ids' : Finset ℕ, (∀ id, id ∈ ids' ↔ ((p.overlaid final).dormant_hash base id).isSome) ∧
        ids'.card = ids.card - (touched_permissions base p final).length +
          (new_permissions final).length := by
  have htouched : ((touched_permissions base p final).map Prod.fst).toFinset =
      ids.filter fun id => (final.doc[id]?).isSome := by
    ext id
    rw [List.mem_toFinset, Finset.mem_filter, hids, List.mem_map]
    constructor
    · rintro ⟨⟨i, hash⟩, hmem, rfl⟩
      obtain ⟨hrow, hhash⟩ := mem_touched_permissions.mp hmem
      exact ⟨isSome_iff_exists.mpr ⟨hash, hhash⟩, hrow⟩
    · rintro ⟨hhash, hrow⟩
      obtain ⟨hash, hhash⟩ := isSome_iff_exists.mp hhash
      exact ⟨(id, hash), mem_touched_permissions.mpr ⟨hrow, hhash⟩, rfl⟩
  have hlen : (touched_permissions base p final).length =
      (ids.filter fun id => (final.doc[id]?).isSome).card := by
    rw [← htouched, toFinset_card_of_nodup touched_permissions_nodup, length_map]
  have hnew : (new_permissions final).length =
      ((new_permissions final).map Prod.fst).toFinset.card := by
    rw [toFinset_card_of_nodup new_permissions_nodup, length_map]
  have hsplit : (ids.filter fun id => (final.doc[id]?).isSome).card +
      (ids.filter fun id => ¬(final.doc[id]?).isSome).card = ids.card :=
    Finset.card_filter_add_card_filter_not _
  refine ⟨by omega, (ids.filter fun id => ¬(final.doc[id]?).isSome) ∪
    ((new_permissions final).map Prod.fst).toFinset, fun id => ?_, ?_⟩
  · rw [Finset.mem_union, Finset.mem_filter, hids, List.mem_toFinset, List.mem_map]
    constructor
    · rintro (⟨hhash, hrow⟩ | ⟨⟨i, hash⟩, hmem, rfl⟩)
      · obtain ⟨hash, hhash⟩ := isSome_iff_exists.mp hhash
        refine isSome_iff_exists.mpr ⟨hash, dormant_hash_over.mpr (.inr ⟨?_, hhash⟩)⟩
        rwa [not_isSome_iff_eq_none] at hrow
      · exact isSome_iff_exists.mpr
          ⟨hash, dormant_hash_over.mpr (.inl (mem_new_permissions.mp hmem))⟩
    · intro h
      obtain ⟨hash, hhash⟩ := isSome_iff_exists.mp h
      rcases dormant_hash_over.mp hhash with hrow | ⟨hrow, hhash⟩
      · exact .inr ⟨(id, hash), mem_new_permissions.mpr hrow, rfl⟩
      · exact .inl ⟨isSome_iff_exists.mpr ⟨hash, hhash⟩, by simp [hrow]⟩
  · rw [Finset.card_union_of_disjoint, ← hnew, hlen]
    · omega
    · refine Finset.disjoint_left.mpr fun id hleft hright => ?_
      obtain ⟨⟨i, hash⟩, hmem, rfl⟩ := List.mem_map.mp (List.mem_toFinset.mp hright)
      have hnone := (Finset.mem_filter.mp hleft).2
      rw [mem_new_permissions.mp hmem] at hnone
      exact hnone rfl

/-- The ids of the records are 32 bits wide. -/
theorem doc_id_lt {records : List Record} {row : DocRow}
    (h : (Projection.final_rows records).doc[id]? = some row) : id < 2 ^ 32 := by
  unfold Projection.final_rows Projection.apply at h
  induction records using List.reverseRecOn generalizing row with
  | nil =>
    rw [foldl_nil, Std.ExtTreeMap.getElem?_empty] at h
    cases h
  | append_singleton records r ih =>
    rw [foldl_append] at h
    have hinsert : ∀ (n : UInt32) (new : DocRow) (rows : Rows DocRow),
        (∀ row, rows[id]? = some row → id < 2 ^ 32) →
        (rows.insert n.toNat new)[id]? = some row → id < 2 ^ 32 := by
      intro n new rows hrows h
      rw [Std.ExtTreeMap.getElem?_insert] at h
      split at h
      · rename_i heq
        rw [← Std.LawfulEqCmp.eq_of_compare heq]
        exact n.toNat_lt
      · exact hrows row h
    cases r with
    | docPut n | docDelete n | docDormant n | docForget n =>
      exact hinsert n _ _ (fun row h => ih h) h
    | _ => exact ih h

end

/-! ## The state and the rows agree -/

/-- **The state knows the permissions of the rows**, and counts them. -/
structure Retains (base : Tables) (p : Projection) (s : DormantState) : Prop where
  find : ∀ hash id, s.find base hash = some id ↔ p.dormant_hash base id = some hash
  count : ∃ ids : Finset ℕ, (∀ id, id ∈ ids ↔ (p.dormant_hash base id).isSome) ∧
    ids.card = s.count
  le : s.count ≤ CAP
  lt : ∀ id hash, p.dormant_hash base id = some hash → id < 2 ^ 32

namespace Retains

variable {base : Tables} {p : Projection} {s s' : DormantState} {records : List Record}

theorem checkpoint (base : Checkpoint) :
    Retains base.toTables {} { count := base.dormant.length } where
  find hash id := by
    have hrow : Projection.dormant_hash base.toTables {} id = some hash ↔
        (id, hash) ∈ base.dormant := Tables.row_eq_some base.valid.dormant_sorted
    rw [hrow]
    show ((base.dormant.find? (·.2 = hash)).map Prod.fst) = some id ↔ _
    constructor
    · intro h
      obtain ⟨r, hfind, rfl⟩ := map_eq_some_iff.mp h
      have hhash := find?_some hfind
      rw [decide_eq_true_eq] at hhash
      rw [← hhash]
      exact mem_of_find?_eq_some hfind
    · intro hmem
      cases hfind : base.dormant.find? (·.2 = hash) with
      | none =>
        have := find?_eq_none.mp hfind _ hmem
        exact absurd (decide_eq_true rfl) this
      | some r =>
        have hhash := find?_some hfind
        rw [decide_eq_true_eq] at hhash
        have heq := inj_on_of_nodup_map base.valid.dormant_hashes
          (mem_of_find?_eq_some hfind) hmem hhash
        rw [heq]
        rfl
  count := by
    have hnodup : (base.dormant.map Prod.fst).Nodup :=
      base.valid.dormant_sorted.imp fun h => h.ne
    refine ⟨(base.dormant.map Prod.fst).toFinset, fun id => ?_, ?_⟩
    · rw [List.mem_toFinset, List.mem_map, isSome_iff_exists]
      constructor
      · rintro ⟨⟨i, hash⟩, hmem, rfl⟩
        exact ⟨hash, (Tables.row_eq_some base.valid.dormant_sorted).mpr hmem⟩
      · rintro ⟨hash, h⟩
        exact ⟨(id, hash), (Tables.row_eq_some base.valid.dormant_sorted).mp h, rfl⟩
    · rw [toFinset_card_of_nodup hnodup, length_map]
  le := base.valid.dormant_le
  lt id hash h := by
    have hmem : (id, hash) ∈ base.dormant := (Tables.row_eq_some base.valid.dormant_sorted).mp h
    have hlt := (base.valid.dormant_lt _ hmem).1
    have hnext := base.valid.next_doc_lt
    show id < 2 ^ 32
    exact hlt.trans hnext

/-- **A transaction that is accepted keeps the two alike.** -/
theorem advance (h : Retains base p s) (hok : advance_dormant base p s records = .ok s') :
    Retains base (p.apply records) s' := by
  rw [advance_dormant_eq] at hok
  obtain ⟨haccepts, hs'⟩ := DormantState.advance_eq_ok.mp hok
  obtain ⟨_, hids, hcard⟩ := h.count
  obtain ⟨_, ids', hids', hcard'⟩ :
    (touched_permissions base p (Projection.final_rows records)).length ≤ _ ∧ _ := card_after hids
  rw [Projection.apply_eq_over]
  exact {
    find := fun hash id => by
      rw [DormantState.find_advance hok, dormant_hash_over, mem_new_permissions]
      refine or_congr_right ?_
      constructor
      · rintro ⟨-, hremoved, hfind⟩
        refine ⟨?_, (h.find hash id).mp hfind⟩
        rw [← not_isSome_iff_eq_none]
        intro hrow
        exact hremoved (List.mem_map.mpr ⟨(id, hash),
          mem_touched_permissions.mpr ⟨hrow, (h.find hash id).mp hfind⟩, rfl⟩)
      · rintro ⟨hrow, hhash⟩
        have hfind := (h.find hash id).mpr hhash
        -- Whoever else holds the hash, in either list, is the id itself.
        have hremoved : hash ∉ (touched_permissions base p (Projection.final_rows records)).map
            Prod.snd := by
          intro hmem
          obtain ⟨⟨i, _⟩, htouched, rfl⟩ := List.mem_map.mp hmem
          obtain ⟨hsome, hhash'⟩ := mem_touched_permissions.mp htouched
          have heq : id = i := Option.some.inj (hfind.symm.trans ((h.find _ i).mpr hhash'))
          rw [← heq, hrow] at hsome
          cases hsome
        refine ⟨fun hmem => ?_, hremoved, hfind⟩
        obtain ⟨a, ha, rfl⟩ := List.mem_map.mp hmem
        rcases haccepts.free a ha with hgone | hfree
        · exact hremoved hgone
        · rw [hfree] at hfind
          cases hfind
    count := ⟨ids', hids', by rw [hs', hcard', hcard]⟩
    le := by
      rw [hs']
      exact haccepts.cap
    lt := fun id hash hhash => by
      rcases dormant_hash_over.mp hhash with hrow | ⟨-, hhash⟩
      · exact doc_id_lt hrow
      · exact h.lt id hash hhash }

/-- **When a transaction is accepted.** -/
theorem accepts (h : Retains base p s)
    (hnodup : ((new_permissions (Projection.final_rows records)).map Prod.snd).Nodup)
    (hfree : ∀ (id : ℕ) (hash : Hash),
      (Projection.final_rows records).doc[id]? = some (.dormant hash) → ∀ prior, p.dormant_hash base prior = some hash →
        ((Projection.final_rows records).doc[prior]?).isSome)
    (hcap : ∀ ids : Finset ℕ,
      (∀ id, id ∈ ids ↔ ((p.apply records).dormant_hash base id).isSome) → ids.card ≤ CAP) :
    ∃ s', advance_dormant base p s records = .ok s' := by
  obtain ⟨ids, hids, hcard⟩ := h.count
  obtain ⟨hle, ids', hids', hcard'⟩ :
    (touched_permissions base p (Projection.final_rows records)).length ≤ _ ∧ _ := card_after hids
  rw [← Projection.apply_eq_over] at hids'
  have hsmall := hcap ids' hids'
  rw [hcard] at hle hcard'
  rw [hcard'] at hsmall
  rw [advance_dormant_eq]
  refine ⟨_, DormantState.advance_eq_ok.mpr ⟨?_, rfl⟩⟩
  exact {
    held := fun r hr => (h.find r.2 r.1).mpr (mem_touched_permissions.mp hr).2
    nodup := hnodup
    free := fun a ha => by
      cases hfind : s.find base a.2 with
      | none => exact .inr rfl
      | some prior =>
        have hhash := (h.find a.2 prior).mp hfind
        have hrow := hfree a.1 a.2 (mem_new_permissions.mp ha) prior hhash
        exact .inl (List.mem_map.mpr
          ⟨(prior, a.2), mem_touched_permissions.mpr ⟨hrow, hhash⟩, rfl⟩)
    le := hle
    cap := hsmall }

end Retains

/-! ## A log -/

/-- The rows after the transactions of a log. -/
def replayed (p : Projection) (frames : List Frame) : Projection :=
  frames.foldl (fun p f => p.apply f.records) p

theorem NameReplay.rows_of_frames {base : Tables} {r r' : NameReplay} {frames : List Frame}
    (h : frames.foldlM (NameReplay.frame base) r = .ok r') : r'.rows = replayed r.rows frames := by
  induction frames generalizing r with
  | nil =>
    rw [foldlM_nil, pure_eq_ok] at h
    rw [← h]
    rfl
  | cons f frames ih =>
    rw [foldlM_cons, bind_eq_ok] at h
    obtain ⟨_, hf, h⟩ := h
    rw [ih h, NameReplay.rows_of_apply hf, ← Projection.apply_eq_over]
    rfl

theorem DocsLoading.frames_retain {base : Tables} {s s' : DocsLoading} {frames : List Frame}
    (hs : Retains base s.rows s.dormant)
    (h : frames.foldlM (DocsLoading.frame base) s = .ok s') :
    Retains base s'.rows s'.dormant ∧ s'.rows = replayed s.rows frames := by
  induction frames generalizing s with
  | nil =>
    rw [foldlM_nil, pure_eq_ok] at h
    rw [← h]
    exact ⟨hs, rfl⟩
  | cons f frames ih =>
    rw [foldlM_cons, bind_eq_ok] at h
    obtain ⟨_, hf, h⟩ := h
    simp only [DocsLoading.frame, bind_eq_ok, pure_eq_ok] at hf
    obtain ⟨_, -, _, hdormant, rfl⟩ := hf
    exact ih (hs.advance hdormant) h

end Ferret.Catalog
