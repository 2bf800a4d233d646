import Ferret.Catalog.Dormant

/-!
# What a prepared change set retains

The rows of `prepare` are those of the change set, with some deletions turned
into permissions and with the permissions that are given up forgotten. What
remains over a view is then what `canonicalize` makes of the whole table, of
the permissions left alone and the documents that die: so an incremental
commit and a full rebuild agree.
-/

namespace Ferret.Catalog

open Guarded List Option

/-! ## The rows of the records -/

/-- The permission that a deletion is turned into. -/
def granted (eligible : Rows Hash) (evicted : IdSet) (id : ℕ) : Option Hash :=
  if evicted.contains id then none else eligible[id]?

/-- A row with its deletion turned into a permission. -/
def DocRow.granting (row : DocRow) (hash : Option Hash) : DocRow :=
  if row = .delete then hash.elim .delete .dormant else row

section

variable {eligible : Rows Hash} {evicted : IdSet} {records : List Record} {id : ℕ}

theorem retain_deleted_docDelete (n : UInt32) :
    retain_deleted eligible evicted (.docDelete n) =
      (granted eligible evicted n.toNat).elim (.docDelete n) (.docDormant n) := by
  rw [retain_deleted, granted]
  cases eligible[n.toNat]? with
  | none | some hash => cases evicted.contains n.toNat <;> rfl

theorem final_rows_concat (records : List Record) (r : Record) :
    Projection.final_rows (records ++ [r]) = (Projection.final_rows records).put r :=
  foldl_concat ..

/-- A row replaced in two tables alike. -/
theorem getElem?_insert_granting {rows rows' : Rows DocRow} {n : ℕ} {row row' : DocRow}
    (h : rows'[id]? = rows[id]?.map (DocRow.granting · (granted eligible evicted id)))
    (hrow : row' = row.granting (granted eligible evicted n)) :
    (rows'.insert n row')[id]? =
      (rows.insert n row)[id]?.map (DocRow.granting · (granted eligible evicted id)) := by
  rw [Std.ExtTreeMap.getElem?_insert, Std.ExtTreeMap.getElem?_insert]
  split
  · rename_i heq
    obtain rfl := Std.LawfulEqCmp.eq_of_compare heq
    rw [hrow]
    rfl
  · exact h

/-- **The final rows of the records changed**: those before, with their deletions turned
into permissions. -/
theorem final_rows_retain_deleted :
    (Projection.final_rows (records.map (retain_deleted eligible evicted))).doc[id]? =
      (Projection.final_rows records).doc[id]?.map
        (DocRow.granting · (granted eligible evicted id)) := by
  induction records using List.reverseRecOn with
  | nil => rfl
  | append_singleton records r ih =>
    rw [map_append, map_singleton, final_rows_concat, final_rows_concat]
    cases r with
    | docPut n _ hash | docDormant n hash | docForget n =>
      exact getElem?_insert_granting ih rfl
    | docDelete n =>
      rw [retain_deleted_docDelete]
      have hrow : (granted eligible evicted n.toNat).elim DocRow.delete DocRow.dormant =
          DocRow.delete.granting (granted eligible evicted n.toNat) := rfl
      cases hgranted : granted eligible evicted n.toNat with
      | none | some hash =>
        rw [hgranted] at hrow
        exact getElem?_insert_granting ih (by rw [hgranted]; exact hrow)
    | _ => exact ih

/-- The final rows after some ids are forgotten. -/
theorem final_rows_forget {ids : List ℕ} (hids : ∀ id ∈ ids, id < 2 ^ 32) :
    (Projection.final_rows (records ++ ids.map fun id => .docForget (.ofNat id))).doc[id]? =
      if id ∈ ids then some .forget else (Projection.final_rows records).doc[id]? := by
  induction ids using List.reverseRecOn with
  | nil => rw [map_nil, append_nil, if_neg (not_mem_nil)]
  | append_singleton ids n ih =>
    have hn : (UInt32.ofNat n).toNat = n := UInt32.toNat_ofNat_of_lt' (hids n (by simp))
    rw [map_append, map_singleton, ← append_assoc, final_rows_concat]
    show ((Projection.final_rows _).doc.insert (UInt32.ofNat n).toNat .forget)[id]? = _
    rw [hn, Std.ExtTreeMap.getElem?_insert, ih fun id hid => hids id (mem_append_left _ hid)]
    by_cases heq : n = id
    · subst heq
      rw [if_pos Std.ReflCmp.compare_self, if_pos (by simp)]
    · have hmem : id ∈ ids ++ [n] ↔ id ∈ ids := by
        rw [mem_append, mem_singleton]
        exact or_iff_left (Ne.symm heq)
      rw [if_neg fun h => heq (Std.LawfulEqCmp.eq_of_compare h)]
      simp only [hmem]

/-- Records without permissions leave rows without permissions. -/
theorem final_rows_not_dormant (h : ∀ id hash, Record.docDormant id hash ∉ records) {hash : Hash} :
    (Projection.final_rows records).doc[id]? ≠ some (.dormant hash) := by
  induction records using List.reverseRecOn with
  | nil =>
    intro hrow
    rw [show (Projection.final_rows []).doc[id]? = none from Std.ExtTreeMap.getElem?_empty] at hrow
    cases hrow
  | append_singleton records r ih =>
    have ih := ih fun id hash hmem => h id hash (mem_append_left _ hmem)
    rw [final_rows_concat]
    have hinsert : ∀ (n : ℕ) (row : DocRow), row ≠ .dormant hash →
        ((Projection.final_rows records).doc.insert n row)[id]? ≠ some (.dormant hash) := by
      intro n row hrow
      rw [Std.ExtTreeMap.getElem?_insert]
      split
      · exact fun heq => hrow (Option.some.inj heq)
      · exact ih
    cases r with
    | docPut n _ hash | docDelete n | docForget n => exact hinsert _ _ (by simp)
    | docDormant n hash => exact absurd (mem_append_right _ (mem_singleton_self _)) (h n hash)
    | _ => exact ih

end

/-- A table made of ascending rows. -/
theorem keys_ofList {β : Type} {l : List (ℕ × β)} (h : (l.map Prod.fst).Pairwise (· < ·)) :
    (Std.ExtTreeMap.ofList l compare).keys = l.map Prod.fst := by
  refine List.Pairwise.eq_of_mem_iff
    (Std.ExtTreeMap.ordered_keys.imp fun h => Nat.compare_eq_lt.mp h) h fun id => ?_
  rw [Std.ExtTreeMap.mem_keys, Std.ExtTreeMap.mem_ofList, contains_iff_mem]

variable {id : ℕ}

theorem getElem?_ofList {β : Type} {l : List (ℕ × β)} (h : (l.map Prod.fst).Pairwise (· < ·))
    {b : β} : (Std.ExtTreeMap.ofList l compare)[id]? = some b ↔ (id, b) ∈ l := by
  have hdistinct : l.Pairwise fun a b => ¬compare a.1 b.1 = .eq :=
    (pairwise_map.mp h).imp fun hlt heq => hlt.ne (Std.LawfulEqCmp.eq_of_compare heq)
  constructor
  · intro hget
    have hmem : id ∈ (Std.ExtTreeMap.ofList l compare).keys :=
      mem_keys.mpr ⟨b, hget⟩
    rw [keys_ofList h] at hmem
    obtain ⟨⟨i, _⟩, hrow, rfl⟩ := List.mem_map.mp hmem
    rw [Std.ExtTreeMap.getElem?_ofList_of_mem Std.ReflCmp.compare_self hdistinct hrow] at hget
    rw [← Option.some.inj hget]
    exact hrow
  · intro hmem
    exact Std.ExtTreeMap.getElem?_ofList_of_mem Std.ReflCmp.compare_self hdistinct hmem

/-- The rows after the first, by their ids. -/
theorem mem_drop_iff {β : Type} {l : List (ℕ × β)} (h : (l.map Prod.fst).Pairwise (· < ·))
    {j : ℕ} {r : ℕ × β} : r ∈ l.drop j ↔ r ∈ l ∧ r.1 ∉ (l.map Prod.fst).take j := by
  have hsplit : l.take j ++ l.drop j = l := take_append_drop j l
  rw [← hsplit, map_append] at h
  obtain ⟨-, -, hbelow⟩ := pairwise_append.mp h
  rw [← map_take]
  constructor
  · exact fun hr => ⟨mem_of_mem_drop hr, fun hid =>
      (hbelow r.1 hid r.1 (List.mem_map_of_mem hr)).false⟩
  · rintro ⟨hr, hid⟩
    rw [← hsplit, mem_append] at hr
    exact hr.resolve_left fun hr => hid (List.mem_map_of_mem hr)

/-! ## The rows that compete -/

theorem countP_not_add {α : Type} (p : α → Bool) (l : List α) :
    l.countP (fun a => !p a) + l.countP p = l.length := by
  rw [length_eq_countP_add_countP p, add_comm]
  simp only [Bool.not_eq_true, Bool.decide_eq_false]

/-- The permissions that a transaction leaves alone. -/
def untouched_rows (o : Overlay) (final : Rows DocRow) (retained_ids : IdSet) :
    List (ℕ × Hash) :=
  retained_ids.toList.filterMap fun id =>
    if final.contains id then none else (o.dormant_hash id).map fun hash => (id, hash)

/-- The dying documents that keep their hash. -/
def dying_rows (o : Overlay) (final : Rows DocRow) (coverage : Option Coverage) :
    List (ℕ × Hash) :=
  (canonicalize (eligible_rows o final coverage) (2 ^ 64 - 1)).filter fun r =>
    ¬(prior_holder o final r.2).any (r.1 < ·)

/-- The retained ids whose hash a dying document takes. -/
def superseded (o : Overlay) (final : Rows DocRow) (coverage : Option Coverage) : IdSet :=
  .ofList ((dying_rows o final coverage).filterMap fun r => prior_holder o final r.2) compare

/-- The permissions left alone whose hash nobody takes. -/
def standing_rows (o : Overlay) (final : Rows DocRow) (coverage : Option Coverage)
    (retained_ids : IdSet) : List (ℕ × Hash) :=
  (untouched_rows o final retained_ids).filter fun r =>
    !(superseded o final coverage).contains r.1

section

variable {o : Overlay} {final : Rows DocRow} {coverage : Option Coverage} {retained_ids : IdSet}
  {id : ℕ} {hash : Hash}

theorem mem_eligible_rows :
    (id, hash) ∈ eligible_rows o final coverage ↔
      final[id]? = some .delete ∧ coverage.any (·.covers id) ∧ o.doc_hash id = some hash := by
  rw [eligible_rows, mem_filterMap]
  constructor
  · rintro ⟨⟨i, row⟩, hmem, hmap⟩
    split at hmap
    · rename_i hrow
      obtain ⟨_, hhash, heq⟩ := map_eq_some_iff.mp hmap
      cases heq
      have hfinal := mem_toList.mp hmem
      rw [show row = .delete from hrow.1] at hfinal
      exact ⟨hfinal, hrow.2, hhash⟩
    · cases hmap
  · rintro ⟨hrow, hcovers, hhash⟩
    refine ⟨(id, .delete), mem_toList.mpr hrow, ?_⟩
    rw [if_pos ⟨rfl, hcovers⟩, hhash]
    rfl

theorem eligible_rows_ascending :
    ((eligible_rows o final coverage).map Prod.fst).Pairwise (· < ·) := by
  refine pairwise_filterMap_fst ?_ fun r x hx => ?_
  · rw [Std.ExtTreeMap.map_fst_toList_eq_keys]
    exact Std.ExtTreeMap.ordered_keys.imp fun h => Nat.compare_eq_lt.mp h
  · split at hx
    · obtain ⟨_, -, rfl⟩ := map_eq_some_iff.mp hx
      rfl
    · cases hx

theorem eligible_rows_nodup : ((eligible_rows o final coverage).map Prod.fst).Nodup :=
  eligible_rows_ascending.imp fun h => h.ne

theorem dying_rows_ascending :
    ((dying_rows o final coverage).map Prod.fst).Pairwise (· < ·) :=
  pairwise_map.mpr ((canonicalize_ascending eligible_rows_nodup _).filter _)

theorem toList_ascending (ids : IdSet) : ids.toList.Pairwise (· < ·) :=
  Std.ExtTreeSet.ordered_toList.imp fun h => Nat.compare_eq_lt.mp h

theorem untouched_rows_ascending :
    (untouched_rows o final retained_ids).Pairwise fun a b => a.1 < b.1 := by
  refine pairwise_filterMap.mpr ((toList_ascending retained_ids).imp
    fun {a b} hab x hx y hy => ?_)
  have hkey : ∀ i z, (if final.contains i then none
      else (o.dormant_hash i).map fun hash => (i, hash)) = some z → z.1 = i := by
    intro i z hz
    split at hz
    · cases hz
    · obtain ⟨_, -, rfl⟩ := map_eq_some_iff.mp hz
      rfl
  rw [hkey a x hx, hkey b y hy]
  exact hab

theorem mem_untouched_rows (hids : ∀ id, id ∈ retained_ids ↔ (o.dormant_hash id).isSome) :
    (id, hash) ∈ untouched_rows o final retained_ids ↔
      id ∉ final ∧ o.dormant_hash id = some hash := by
  rw [untouched_rows, mem_filterMap]
  constructor
  · rintro ⟨i, -, hmap⟩
    split at hmap
    · cases hmap
    · rename_i hnot
      obtain ⟨_, hhash, heq⟩ := map_eq_some_iff.mp hmap
      cases heq
      exact ⟨fun hmem => hnot (Std.ExtTreeMap.contains_iff_mem.mpr hmem), hhash⟩
  · rintro ⟨hnot, hhash⟩
    refine ⟨id, Std.ExtTreeSet.mem_toList.mpr ((hids id).mpr ?_), ?_⟩
    · rw [hhash]
      rfl
    · rw [if_neg fun h => hnot (Std.ExtTreeMap.contains_iff_mem.mp h), hhash]
      rfl

end

variable {coverage : Option Coverage} {r : ℕ × Hash}

section

variable {o : Overlay} {final : Rows DocRow} {retained_ids : IdSet}
variable (hr : Retains o.base.toTables o.rows o.dormant)
variable (hids : ∀ id, id ∈ retained_ids ↔ (o.dormant_hash id).isSome)
variable (hfinal : ∀ id ∈ final, id < 2 ^ 32)
include hr hids

theorem prior_holder_eq_some {prior : ℕ} {hash : Hash} :
    prior_holder o final hash = some prior ↔ (prior, hash) ∈ untouched_rows o final retained_ids := by
  rw [prior_holder, filter_eq_some_iff, hr.find, mem_untouched_rows hids, Bool.not_eq_true',
    ← Bool.not_eq_true, Std.ExtTreeMap.contains_iff_mem, and_comm]
  rfl

/-- One hash has one permission. -/
theorem untouched_rows_inj {a b : ℕ × Hash} (ha : a ∈ untouched_rows o final retained_ids)
    (hb : b ∈ untouched_rows o final retained_ids) (h : a.2 = b.2) : a.1 = b.1 := by
  have ha := (prior_holder_eq_some hr hids).mpr ha
  have hb := (prior_holder_eq_some hr hids).mpr hb
  rw [h] at ha
  exact Option.some.inj (ha.symm.trans hb)

theorem mem_superseded :
    id ∈ superseded o final coverage ↔
      ∃ r ∈ dying_rows o final coverage, (id, r.2) ∈ untouched_rows o final retained_ids := by
  rw [superseded, Std.ExtTreeSet.mem_ofList, contains_iff_mem, mem_filterMap]
  simp only [prior_holder_eq_some hr hids]

include hfinal

theorem mem_dying_rows :
    r ∈ dying_rows o final coverage ↔
      r ∈ Newest.holders (eligible_rows o final coverage).toFinset ∧
        ∀ prior, (prior, r.2) ∈ untouched_rows o final retained_ids → prior ≤ r.1 := by
  have hfew : (Newest.holders (eligible_rows o final coverage).toFinset).card ≤ 2 ^ 64 - 1 := by
    have hsub : ((eligible_rows o final coverage).map Prod.fst).toFinset ⊆
        Finset.range (2 ^ 32) := by
      intro id hid
      obtain ⟨⟨i, _⟩, hmem, rfl⟩ := List.mem_map.mp (List.mem_toFinset.mp hid)
      refine Finset.mem_range.mpr (hfinal i ?_)
      rw [← Std.ExtTreeMap.isSome_getElem?_iff_mem, (mem_eligible_rows.mp hmem).1]
      rfl
    have hle := Finset.card_le_card hsub
    rw [toFinset_card_of_nodup eligible_rows_nodup, length_map, Finset.card_range] at hle
    refine ((Finset.card_le_card (Newest.holders_subset _)).trans ?_)
    exact (toFinset_card_le _).trans (hle.trans (by decide))
  rw [dying_rows, mem_filter, mem_canonicalize eligible_rows_nodup,
    Newest.newest_of_card_le hfew, decide_eq_true_iff]
  refine and_congr_right fun _ => ?_
  rw [Option.any_eq_true]
  constructor
  · intro hnot prior hprior
    have hholder := (prior_holder_eq_some hr hids).mpr hprior
    exact not_lt.mp fun hlt => hnot ⟨prior, hholder, decide_eq_true hlt⟩
  · rintro hall ⟨prior, hholder, hlt⟩
    have hle := hall prior ((prior_holder_eq_some hr hids).mp hholder)
    exact hle.not_gt (of_decide_eq_true hlt)

theorem dying_rows_eligible (h : r ∈ dying_rows o final coverage) :
    r ∈ eligible_rows o final coverage :=
  List.mem_toFinset.mp (Newest.holders_subset _ ((mem_dying_rows hr hids hfinal).mp h).1)

variable (coverage : Option Coverage)

/-- **What holds each hash** of the rows that compete: the rows left standing, and the
dying rows that keep theirs. -/
theorem holders_eq :
    Newest.holders (untouched_rows o final retained_ids ++
        eligible_rows o final coverage).toFinset =
      (standing_rows o final coverage retained_ids ++ dying_rows o final coverage).toFinset := by
  have hapart : ∀ a ∈ untouched_rows o final retained_ids,
      ∀ b ∈ eligible_rows o final coverage, a.1 ≠ b.1 := by
    rintro ⟨i, h⟩ ha ⟨_, _⟩ hb rfl
    refine ((mem_untouched_rows hids).mp ha).1 ?_
    rw [← Std.ExtTreeMap.isSome_getElem?_iff_mem, (mem_eligible_rows.mp hb).1]
    rfl
  ext r
  rw [Newest.mem_holders, List.mem_toFinset, List.mem_toFinset, mem_append, mem_append]
  simp only [List.mem_toFinset, mem_append, standing_rows, mem_filter,
    Bool.not_eq_true', ← Bool.not_eq_true, Std.ExtTreeSet.contains_iff_mem]
  constructor
  · rintro ⟨huntouched | heligible, hmax⟩
    · refine .inl ⟨huntouched, fun hgone => ?_⟩
      obtain ⟨d, hd, hprior⟩ := (mem_superseded hr hids).mp hgone
      have hhash : d.2 = r.2 := by
        have h := ((mem_untouched_rows hids).mp hprior).2
        have hown : o.dormant_hash r.1 = some r.2 := ((mem_untouched_rows hids).mp huntouched).2
        exact (Option.some.inj (hown.symm.trans h)).symm
      have heligible := dying_rows_eligible hr hids hfinal hd
      have hle := hmax d (.inr heligible) hhash
      have hge := ((mem_dying_rows hr hids hfinal).mp hd).2 r.1 hprior
      exact hapart r huntouched d heligible (le_antisymm hge hle)
    · refine .inr ((mem_dying_rows hr hids hfinal).mpr ⟨Newest.mem_holders.mpr ⟨?_, ?_⟩, ?_⟩)
      · exact List.mem_toFinset.mpr heligible
      · exact fun r' hr' heq => hmax r' (.inr (List.mem_toFinset.mp hr')) heq
      · exact fun prior hprior => hmax (prior, r.2) (.inl hprior) rfl
  · rintro (⟨huntouched, hstands⟩ | hdying)
    · refine ⟨.inl huntouched, fun r' hr' heq => ?_⟩
      rcases hr' with hr' | hr'
      · exact (untouched_rows_inj hr hids hr' huntouched heq).le
      · refine not_lt.mp fun hlt => hstands ?_
        -- The dying document that holds the hash would take it.
        obtain ⟨e, he, hkey, hle⟩ := Newest.exists_holder (List.mem_toFinset.mpr hr')
        have hhash : e.2 = r.2 := hkey.trans heq
        have hprior : (r.1, e.2) ∈ untouched_rows o final retained_ids := by
          rw [hhash]
          exact huntouched
        refine (mem_superseded hr hids).mpr
          ⟨e, (mem_dying_rows hr hids hfinal).mpr ⟨he, fun prior h => ?_⟩, hprior⟩
        exact (untouched_rows_inj hr hids h hprior rfl).le.trans (hlt.le.trans hle)
    · obtain ⟨hholder, hprior⟩ := (mem_dying_rows hr hids hfinal).mp hdying
      obtain ⟨heligible, hmax⟩ := Newest.mem_holders.mp hholder
      refine ⟨.inr (List.mem_toFinset.mp heligible), fun r' hr' heq => ?_⟩
      rcases hr' with hr' | hr'
      · refine hprior r'.1 ?_
        rw [← heq]
        exact hr'
      · exact hmax r' (List.mem_toFinset.mpr hr') heq

omit hfinal

/-! ## Counting -/

omit hr in
theorem untouched_ids :
    (untouched_rows o final retained_ids).map Prod.fst =
      retained_ids.toList.filter fun id => !final.contains id := by
  refine (pairwise_map.mpr untouched_rows_ascending).eq_of_mem_iff
    ((toList_ascending retained_ids).filter _) fun id => ?_
  rw [List.mem_map, mem_filter, Std.ExtTreeSet.mem_toList, hids, Bool.not_eq_true',
    ← Bool.not_eq_true, Std.ExtTreeMap.contains_iff_mem]
  constructor
  · rintro ⟨⟨i, hash⟩, hmem, rfl⟩
    obtain ⟨hnot, hhash⟩ := (mem_untouched_rows hids).mp hmem
    exact ⟨isSome_iff_exists.mpr ⟨hash, hhash⟩, hnot⟩
  · rintro ⟨hhash, hnot⟩
    obtain ⟨hash, hhash⟩ := isSome_iff_exists.mp hhash
    exact ⟨(id, hash), (mem_untouched_rows hids).mpr ⟨hnot, hhash⟩, rfl⟩

omit hr in
/-- What a transaction touches and what it leaves alone are all the permissions. -/
theorem length_untouched :
    (untouched_rows o final retained_ids).length +
      final.keys.countP (fun id => (o.dormant_hash id).isSome) = retained_ids.size := by
  have htouched : final.keys.countP (fun id => (o.dormant_hash id).isSome) =
      retained_ids.toList.countP fun id => final.contains id := by
    rw [countP_eq_length_filter, countP_eq_length_filter]
    refine List.Perm.length_eq ((perm_ext_iff_of_nodup ?_ ?_).mpr fun id => ?_)
    · exact Std.ExtTreeMap.nodup_keys.filter _
    · exact ((toList_ascending retained_ids).imp fun h => h.ne).filter _
    · rw [mem_filter, mem_filter, Std.ExtTreeMap.mem_keys, Std.ExtTreeSet.mem_toList,
        hids, Std.ExtTreeMap.contains_iff_mem, and_comm]
  have hlen : ((untouched_rows o final retained_ids).map Prod.fst).length = _ :=
    congrArg List.length (untouched_ids hids)
  rw [length_map, ← countP_eq_length_filter] at hlen
  rw [htouched, hlen, ← Std.ExtTreeSet.length_toList]
  exact countP_not_add _ _

omit hr in
theorem standing_ids :
    (standing_rows o final coverage retained_ids).map Prod.fst =
      retained_ids.toList.filter (spared final (superseded o final coverage)) := by
  have hmap : (standing_rows o final coverage retained_ids).map Prod.fst =
      ((untouched_rows o final retained_ids).map Prod.fst).filter fun id =>
        !(superseded o final coverage).contains id := by
    unfold standing_rows
    generalize superseded o final coverage = revoked
    rw [List.filter_map]
    rfl
  rw [hmap, untouched_ids hids, List.filter_filter]
  refine filter_congr fun id _ => ?_
  rw [spared, Bool.not_or, Bool.and_comm]

/-- Of the permissions left alone, the rest are those taken. -/
theorem length_standing :
    (standing_rows o final coverage retained_ids).length +
      (superseded o final coverage).size = (untouched_rows o final retained_ids).length := by
  have htaken : (superseded o final coverage).size =
      ((untouched_rows o final retained_ids).map Prod.fst).countP fun id =>
        (superseded o final coverage).contains id := by
    rw [← Std.ExtTreeSet.length_toList, countP_eq_length_filter]
    refine List.Perm.length_eq ((perm_ext_iff_of_nodup ?_ ?_).mpr fun id => ?_)
    · exact (toList_ascending _).imp fun h => h.ne
    · refine List.Nodup.filter _ ?_
      exact (pairwise_map.mpr untouched_rows_ascending).imp fun h => h.ne
    · rw [mem_filter, Std.ExtTreeSet.mem_toList, Std.ExtTreeSet.contains_iff_mem]
      refine (and_iff_right_of_imp fun hmem => ?_).symm
      obtain ⟨r, -, hprior⟩ := (mem_superseded hr hids).mp hmem
      exact List.mem_map.mpr ⟨_, hprior, rfl⟩
  rw [htaken, countP_map, standing_rows, ← countP_eq_length_filter]
  generalize superseded o final coverage = revoked
  exact countP_not_add _ _

end

/-! ## The change set -/

theorem final_docs_lt {changes : ChangeSet} : ∀ id ∈ changes.final_docs, id < 2 ^ 32 := fun id hid => by
  rw [← Std.ExtTreeMap.isSome_getElem?_iff_mem] at hid
  obtain ⟨_, hrow⟩ := isSome_iff_exists.mp hid
  exact doc_id_lt hrow

section

variable {o : Overlay} {changes : ChangeSet} {retained_ids : IdSet}
variable (hr : Retains o.base.toTables o.rows o.dormant)
variable (hids : ∀ id, id ∈ retained_ids ↔ (o.dormant_hash id).isSome)
include hr hids

theorem size_retained_ids : retained_ids.size = o.dormant.count := by
  obtain ⟨ids, hmem, hcard⟩ := hr.count
  have hsame : retained_ids.toList.toFinset = ids := by
    ext id
    rw [List.mem_toFinset, Std.ExtTreeSet.mem_toList, hids, hmem]
    rfl
  rw [← Std.ExtTreeSet.length_toList, ← hcard, ← hsame, toFinset_card_of_nodup]
  exact (toList_ascending _).imp fun h => h.ne

/-- What `prepare` makes of a change set with documents to retain. -/
structure Prepared (o : Overlay) (changes : ChangeSet) (coverage : Option Coverage) (cap : ℕ)
    (retained_ids : IdSet) (i j : ℕ) (result : IdSet × IdSet) (prepared : ChangeSet) : Prop where
  count : i + j = (standing_rows o changes.final_docs coverage retained_ids ++
    dying_rows o changes.final_docs coverage).length - min cap CAP
  evicted : Evicted ((standing_rows o changes.final_docs coverage retained_ids).map Prod.fst)
    ((dying_rows o changes.final_docs coverage).map Prod.fst) ∅
    (superseded o changes.final_docs coverage) i j result
  records : prepared.records =
    changes.records.map (retain_deleted
      (.ofList (dying_rows o changes.final_docs coverage) compare) result.1) ++
    result.2.toList.map fun id => .docForget (.ofNat id)

/-- **`prepare` ends**: its count is that of the rows that compete, and its loop finds an id
whenever it looks for one. -/
theorem prepare_ok (cap : ℕ) (hne : eligible_rows o changes.final_docs coverage ≠ []) :
    ∃ i j result prepared, prepare o changes coverage cap retained_ids = .ok prepared ∧
      Prepared o changes coverage cap retained_ids i j result prepared := by
  have hsize := size_retained_ids hr hids
  have huntouched : (untouched_rows o changes.final_docs retained_ids).length + _ = _ :=
    length_untouched hids
  have hstanding : (standing_rows o changes.final_docs coverage retained_ids).length +
    (superseded o changes.final_docs coverage).size = _ := length_standing hr hids coverage
  have hold : (standing_rows o changes.final_docs coverage retained_ids).map Prod.fst = _ :=
    standing_ids hids coverage
  have hdying : ((dying_rows o changes.final_docs coverage).map Prod.fst).Pairwise (· < ·) :=
    dying_rows_ascending
  have hdisjoint : ∀ id ∈ retained_ids.toList, id ∉ changes.final_docs →
      id ∉ (dying_rows o changes.final_docs coverage).map Prod.fst := by
    intro id _ hnot hmem
    obtain ⟨⟨i, _⟩, hrow, rfl⟩ := List.mem_map.mp hmem
    have heligible := dying_rows_eligible hr hids final_docs_lt hrow
    refine hnot ?_
    rw [← Std.ExtTreeMap.isSome_getElem?_iff_mem, (mem_eligible_rows.mp heligible).1]
    rfl
  have henough : (standing_rows o changes.final_docs coverage retained_ids ++
      dying_rows o changes.final_docs coverage).length - min cap CAP ≤
      (retained_ids.toList.filter
        (spared changes.final_docs (superseded o changes.final_docs coverage))).length +
      ((dying_rows o changes.final_docs coverage).map Prod.fst).length := by
    rw [← hold, length_map, length_map, length_append]
    omega
  obtain ⟨i, j, result, hij, hok, hres⟩ :=
    evict_ok ∅ (toList_ascending retained_ids) hdying hdisjoint henough
  rw [← hold] at hres
  have hkeys := keys_ofList hdying
  have hlen : ((dying_rows o changes.final_docs coverage).map Prod.fst).length =
      (Std.ExtTreeMap.ofList (dying_rows o changes.final_docs coverage) compare).size := by
    rw [← hkeys]
    exact Std.ExtTreeMap.length_keys
  rw [length_map] at hlen
  refine ⟨i, j, result, { changes with records := _ }, ?_, hij, hres, rfl⟩
  unfold prepare
  simp only [bind_eq_ok, claim_eq_ok, exists_const]
  refine ⟨hsize, ?_⟩
  rw [if_neg hne]
  simp only [bind_eq_ok, sub64, claim_eq_ok, pure_eq_ok, exists_const]
  refine ⟨_, ⟨by omega, rfl⟩, _, ⟨?_, rfl⟩, result, ?_, rfl⟩
  · show (superseded o changes.final_docs coverage).size ≤ _
    omega
  · rw [← hkeys] at hok
    refine Eq.trans ?_ hok
    refine congrArg (fun n => evict changes.final_docs n _ _ _ _) ?_
    show o.dormant.count - _ - (superseded o changes.final_docs coverage).size +
      (Std.ExtTreeMap.ofList (dying_rows o changes.final_docs coverage) compare).size - _ = _
    rw [length_append, ← hlen]
    omega

omit hr in
/-- A document does not die when it is dead. -/
theorem table_nodup (final : Rows DocRow) (coverage : Option Coverage) :
    ((untouched_rows o final retained_ids ++ eligible_rows o final coverage).map
      Prod.fst).Nodup := by
  rw [map_append]
  refine nodup_append.mpr ⟨?_, eligible_rows_nodup, ?_⟩
  · exact (pairwise_map.mpr untouched_rows_ascending).imp fun h => h.ne
  · intro id hid id' hid' heq
    obtain ⟨⟨_, _⟩, hrow, rfl⟩ := List.mem_map.mp hid
    obtain ⟨⟨_, _⟩, hrow', rfl⟩ := List.mem_map.mp hid'
    refine ((mem_untouched_rows hids).mp hrow).1 ?_
    have heligible := mem_eligible_rows.mp hrow'
    simp only at heq
    rw [← Std.ExtTreeMap.isSome_getElem?_iff_mem, heq, heligible.1]
    rfl

/-- The ids of the two lists are distinct. -/
theorem competing_nodup (final : Rows DocRow) (hfinal : ∀ id ∈ final, id < 2 ^ 32)
    (coverage : Option Coverage) :
    ((standing_rows o final coverage retained_ids ++ dying_rows o final coverage).map
      Prod.fst).Nodup := by
  rw [map_append]
  refine nodup_append.mpr ⟨?_, dying_rows_ascending.imp fun h => h.ne, ?_⟩
  · exact (pairwise_map.mpr (untouched_rows_ascending.filter _)).imp fun h => h.ne
  · intro id hid id' hid' heq
    obtain ⟨⟨_, _⟩, hrow, rfl⟩ := List.mem_map.mp hid
    obtain ⟨⟨_, _⟩, hrow', rfl⟩ := List.mem_map.mp hid'
    refine ((mem_untouched_rows hids).mp (mem_filter.mp hrow).1).1 ?_
    have heligible := mem_eligible_rows.mp (dying_rows_eligible hr hids hfinal hrow')
    rw [← Std.ExtTreeMap.isSome_getElem?_iff_mem]
    simp only at heq
    rw [heq, heligible.1]
    rfl

namespace Prepared

variable {coverage : Option Coverage} {cap i j : ℕ} {result : IdSet × IdSet}
  {prepared : ChangeSet}

section

variable (h : Prepared o changes coverage cap retained_ids i j result prepared)

include h

/-- An id given up was left alone by the transaction. -/
theorem revoked_untouched (hid : id ∈ result.2) :
    ∃ hash, (id, hash) ∈ untouched_rows o changes.final_docs retained_ids := by
  rcases (h.evicted.revoked id).mp hid with hid | hid
  · obtain ⟨r, -, hprior⟩ := (mem_superseded hr hids).mp hid
    exact ⟨r.2, hprior⟩
  · obtain ⟨⟨_, hash⟩, hrow, rfl⟩ := List.mem_map.mp (mem_of_mem_take hid)
    exact ⟨hash, (mem_filter.mp hrow).1⟩

/-- The final rows of the change set that `prepare` makes. -/
theorem final_rows (id : ℕ) :
    prepared.final_docs[id]? = if id ∈ result.2 then some .forget else
      changes.final_docs[id]?.map (DocRow.granting · (granted
        (.ofList (dying_rows o changes.final_docs coverage) compare) result.1 id)) := by
  have hlt : ∀ id ∈ result.2.toList, id < 2 ^ 32 := by
    intro id hid
    obtain ⟨hash, hrow⟩ := h.revoked_untouched hr hids (Std.ExtTreeSet.mem_toList.mp hid)
    exact hr.lt id hash ((mem_untouched_rows hids).mp hrow).2
  rw [ChangeSet.final_docs, h.records, final_rows_forget hlt, final_rows_retain_deleted]
  simp only [Std.ExtTreeSet.mem_toList]
  rfl

/-- The permissions that the change set gives: of the dying rows, those not evicted. -/
theorem gives (hown : ∀ id hash, Record.docDormant id hash ∉ changes.records) {hash : Hash} :
    prepared.final_docs[id]? = some (.dormant hash) ↔
      (id, hash) ∈ (dying_rows o changes.final_docs coverage).drop j := by
  have hdying : ((dying_rows o changes.final_docs coverage).map Prod.fst).Pairwise (· < ·) :=
    dying_rows_ascending
  have hgranted : granted (.ofList (dying_rows o changes.final_docs coverage) compare) result.1
      id = some hash ↔ (id, hash) ∈ (dying_rows o changes.final_docs coverage).drop j := by
    have hevicted : result.1.contains id = true ↔
        id ∈ ((dying_rows o changes.final_docs coverage).map Prod.fst).take j := by
      rw [Std.ExtTreeSet.contains_iff_mem, h.evicted.evicted id]
      exact or_iff_right Std.ExtTreeSet.not_mem_empty
    rw [granted, mem_drop_iff hdying, ← hevicted]
    split
    · rename_i hgone
      exact ⟨nofun, fun hrow => absurd hgone hrow.2⟩
    · rename_i hgone
      rw [getElem?_ofList hdying]
      exact (and_iff_left hgone).symm
  rw [h.final_rows hr hids id, ← hgranted]
  constructor
  · intro hrow
    split at hrow
    · cases hrow
    · obtain ⟨_, hfinal, hrow⟩ := map_eq_some_iff.mp hrow
      unfold DocRow.granting at hrow
      split at hrow
      · generalize granted _ result.1 id = hash' at hrow ⊢
        cases hash' with
        | none => cases hrow
        | some hash' => rw [DocRow.dormant.inj hrow]
      · rw [hrow] at hfinal
        exact absurd hfinal (final_rows_not_dormant hown)
  · intro hgives
    have hrow := hgranted.mp hgives
    have hfinal := (mem_eligible_rows.mp (dying_rows_eligible hr hids final_docs_lt
      (mem_of_mem_drop hrow))).1
    have hkept : id ∉ result.2 := by
      intro hid
      obtain ⟨hash', huntouched⟩ := h.revoked_untouched hr hids hid
      refine ((mem_untouched_rows hids).mp huntouched).1 ?_
      rw [← Std.ExtTreeMap.isSome_getElem?_iff_mem, hfinal]
      rfl
    rw [if_neg hkept, hfinal, hgives]
    rfl

/-- **The permissions that are left**: the rows of either list that were not given up. -/
theorem retained (hown : ∀ id hash, Record.docDormant id hash ∉ changes.records) {hash : Hash} :
    (o.rows.apply prepared.records).dormant_hash o.base.toTables id = some hash ↔
      (id, hash) ∈ (standing_rows o changes.final_docs coverage retained_ids).drop i ++
        (dying_rows o changes.final_docs coverage).drop j := by
  have hascending : ((standing_rows o changes.final_docs coverage retained_ids).map
      Prod.fst).Pairwise (· < ·) := pairwise_map.mpr (untouched_rows_ascending.filter _)
  rw [Projection.apply_eq_over, dormant_hash_over, mem_append, or_comm]
  refine or_congr ?_ (h.gives hr hids hown)
  have hnone : (Projection.final_rows prepared.records).doc[id]? = none ↔
      id ∉ result.2 ∧ id ∉ changes.final_docs := by
    have hfinal := h.final_rows hr hids id
    unfold ChangeSet.final_docs at hfinal
    rw [hfinal]
    split
    · rename_i hid
      exact ⟨nofun, fun hnot => absurd hid hnot.1⟩
    · rename_i hid
      rw [map_eq_none_iff, ← not_isSome_iff_eq_none, Std.ExtTreeMap.isSome_getElem?_iff_mem]
      exact (and_iff_right hid).symm
  have hrow : (id, hash) ∈ standing_rows o changes.final_docs coverage retained_ids ↔
      (id ∉ changes.final_docs ∧ o.rows.dormant_hash o.base.toTables id = some hash) ∧
        id ∉ superseded o changes.final_docs coverage := by
    rw [standing_rows, mem_filter, mem_untouched_rows hids, Bool.not_eq_true',
      ← Bool.not_eq_true, Std.ExtTreeSet.contains_iff_mem]
    rfl
  rw [mem_drop_iff hascending, hrow, hnone, h.evicted.revoked id, not_or]
  constructor
  · rintro ⟨⟨⟨hstands, htake⟩, hnot⟩, hhash⟩
    exact ⟨⟨⟨hnot, hhash⟩, hstands⟩, htake⟩
  · rintro ⟨⟨⟨hnot, hhash⟩, hstands⟩, htake⟩
    exact ⟨⟨⟨hstands, htake⟩, hnot⟩, hhash⟩

/-- **The change set is accepted.** -/
theorem accepted (hown : ∀ id hash, Record.docDormant id hash ∉ changes.records) :
    ∃ s, advance_dormant o.base.toTables o.rows o.dormant prepared.records = .ok s := by
  have hgives : ∀ {id : ℕ} {hash : Hash},
      (Projection.final_rows prepared.records).doc[id]? = some (.dormant hash) →
      (id, hash) ∈ dying_rows o changes.final_docs coverage := fun hrow =>
    mem_of_mem_drop ((h.gives hr hids hown).mp hrow)
  refine hr.accepts ?_ ?_ ?_
  · refine List.Nodup.map_on ?_ (List.Nodup.of_map _ new_permissions_nodup)
    rintro ⟨id, hash⟩ hmem ⟨_, hash'⟩ hmem' hsame
    have hsame : hash = hash' := hsame
    subst hsame
    have hholds := ((mem_dying_rows hr hids final_docs_lt).mp
      (hgives (mem_new_permissions.mp hmem))).1
    have hholds' := ((mem_dying_rows hr hids final_docs_lt).mp
      (hgives (mem_new_permissions.mp hmem'))).1
    have hle := (Newest.mem_holders.mp hholds').2 _ (Newest.mem_holders.mp hholds).1 rfl
    have hge := (Newest.mem_holders.mp hholds).2 _ (Newest.mem_holders.mp hholds').1 rfl
    exact Prod.ext (le_antisymm hle hge) rfl
  · intro id hash hrow prior hprior
    have hfinal : (Projection.final_rows prepared.records).doc[prior]? = _ :=
      h.final_rows hr hids prior
    rw [hfinal]
    split
    · rfl
    · rename_i hkept
      rw [isSome_map, Std.ExtTreeMap.isSome_getElem?_iff_mem]
      by_contra hnot
      refine hkept ((h.evicted.revoked prior).mpr (.inl ((mem_superseded hr hids).mpr
        ⟨(id, hash), hgives hrow, ?_⟩)))
      exact (mem_untouched_rows hids).mpr ⟨hnot, hprior⟩
  · intro ids hmem
    have hsub : ids ⊆ (((standing_rows o changes.final_docs coverage retained_ids).drop i ++
        (dying_rows o changes.final_docs coverage).drop j).map Prod.fst).toFinset := by
      intro id hid
      obtain ⟨hash, hhash⟩ := isSome_iff_exists.mp ((hmem id).mp hid)
      exact List.mem_toFinset.mpr (List.mem_map.mpr
        ⟨(id, hash), (h.retained hr hids hown).mp hhash, rfl⟩)
    have hle := (Finset.card_le_card hsub).trans (toFinset_card_le _)
    rw [length_map, length_append, length_drop, length_drop] at hle
    have hcount := h.count
    rw [length_append] at hcount
    have hleft := h.evicted.lowest.left
    have hright := h.evicted.lowest.right
    rw [length_map] at hleft hright
    have hcap := min_le_right cap CAP
    omega

/-- **The newest holders are left.** -/
theorem mem_left :
    r ∈ (standing_rows o changes.final_docs coverage retained_ids).drop i ++
        (dying_rows o changes.final_docs coverage).drop j ↔
      r ∈ canonicalize (untouched_rows o changes.final_docs retained_ids ++
        eligible_rows o changes.final_docs coverage) (min cap CAP) := by
  have hnodup := competing_nodup hr hids changes.final_docs final_docs_lt coverage
  rw [mem_canonicalize (table_nodup hids changes.final_docs coverage),
    holders_eq hr hids final_docs_lt, Newest.newest_append (List.Nodup.of_map _ hnodup)
      h.evicted.lowest h.count, List.mem_toFinset]

end

end Prepared

end

/-- The permissions that should be left: the highest id of each hash, of those left alone and
of the covered documents that die, and of these the newest. -/
def retained_rows (o : Overlay) (changes : ChangeSet) (coverage : Option Coverage) (cap : ℕ)
    (retained_ids : IdSet) : List (ℕ × Hash) :=
  canonicalize (untouched_rows o changes.final_docs retained_ids ++
    eligible_rows o changes.final_docs coverage) (min cap CAP)

/-- What a change set leaves over a view are these permissions. -/
def Leaves (o : Overlay) (prepared : ChangeSet) (rows : List (ℕ × Hash)) : Prop :=
  ∀ id hash, (o.rows.apply prepared.records).dormant_hash o.base.toTables id = some hash ↔
    (id, hash) ∈ rows

/-- **A prepared change set is accepted, and leaves the newest permissions**; without a
covered document that dies it is the change set itself, and leaves those it does not touch. -/
theorem prepare_retains {o : Overlay} (ho : Opened o) {changes : ChangeSet}
    (hown : ∀ id hash, Record.docDormant id hash ∉ changes.records)
    (coverage : Option Coverage) (cap : ℕ) {retained_ids : IdSet}
    (hids : ∀ id, id ∈ retained_ids ↔ (o.dormant_hash id).isSome) :
    ∃ prepared, prepare o changes coverage cap retained_ids = .ok prepared ∧
      (∃ s, advance_dormant o.base.toTables o.rows o.dormant prepared.records = .ok s) ∧
      (eligible_rows o changes.final_docs coverage ≠ [] →
        Leaves o prepared (retained_rows o changes coverage cap retained_ids)) ∧
      (eligible_rows o changes.final_docs coverage = [] → prepared = changes ∧
        Leaves o prepared (untouched_rows o changes.final_docs retained_ids)) := by
  have hr := ho.retains
  by_cases hne : eligible_rows o changes.final_docs coverage = []
  · refine ⟨changes, ?_, ?_, fun h => absurd hne h, fun _ => ⟨rfl, fun id hash => ?_⟩⟩
    · unfold prepare
      simp only [bind_eq_ok, claim_eq_ok, exists_const]
      refine ⟨size_retained_ids hr hids, ?_⟩
      rw [if_pos hne]
      rfl
    · refine hr.accepts ?_ (fun id hash hrow => absurd hrow (final_rows_not_dormant hown)) ?_
      · have hnone : new_permissions (Projection.final_rows changes.records) = [] :=
          eq_nil_iff_forall_not_mem.mpr fun r hmem =>
            final_rows_not_dormant hown (mem_new_permissions.mp hmem)
        rw [hnone]
        exact nodup_nil
      · intro ids hmem
        obtain ⟨all, hall, hcard⟩ := hr.count
        have hsub : ids ⊆ all := by
          intro id hid
          obtain ⟨hash, hhash⟩ := isSome_iff_exists.mp ((hmem id).mp hid)
          rw [Projection.apply_eq_over, dormant_hash_over] at hhash
          rcases hhash with hrow | ⟨-, hhash⟩
          · exact absurd hrow (final_rows_not_dormant hown)
          · exact (hall id).mpr (isSome_iff_exists.mpr ⟨hash, hhash⟩)
        exact (Finset.card_le_card hsub).trans (hcard.le.trans hr.le)
    · rw [Projection.apply_eq_over, dormant_hash_over, mem_untouched_rows hids,
        or_iff_right (final_rows_not_dormant hown), ← Std.ExtTreeMap.isSome_getElem?_iff_mem,
        not_isSome_iff_eq_none]
      rfl
  · obtain ⟨i, j, _, prepared, hok, h⟩ := prepare_ok hr hids cap hne
    refine ⟨prepared, hok, h.accepted hr hids hown, fun _ id hash => ?_, fun h => absurd h hne⟩
    rw [h.retained hr hids hown, h.mem_left hr hids]
    rfl

/-! ## One view -/

namespace OneFile

theorem retained_ids (id : ℕ) :
    id ∈ (Std.ExtTreeSet.ofList [0] compare : IdSet) ↔
      ((Overlay.empty checkpoint).dormant_hash id).isSome := by
  rw [Std.ExtTreeSet.mem_ofList, contains_iff_mem, mem_singleton]
  cases id with
  | zero => exact ⟨fun _ => rfl, fun _ => rfl⟩
  | succ id => exact ⟨nofun, nofun⟩

/-- The file goes, and its document with it. -/
def removal : ChangeSet where
  records := [.docDelete 1]
  counters := { inode := 2, name := 1, doc := 2 }
  counts := { inodes := 1, names := 0, dirs := 1, docs := 0 }

theorem removal_own (id : UInt32) (hash : Hash) : Record.docDormant id hash ∉ removal.records :=
  fun h => by cases mem_singleton.mp h

theorem prepare_removal :
    ∃ prepared, prepare (Overlay.empty checkpoint) removal (some (.new 2 [])) 1
      (.ofList [0] compare) = .ok prepared ∧
      ∃ s, advance_dormant tables {} { count := 1 } prepared.records = .ok s := by
  obtain ⟨prepared, hok, haccepted, -⟩ := prepare_retains (OpenedBy.checkpoint checkpoint) removal_own
    (some (.new 2 [])) 1 retained_ids
  exact ⟨prepared, hok, haccepted⟩

/-- The same, with the permission given by the producer. -/
def own_removal : ChangeSet where
  records := [.docDormant 1 (hash 1)]
  counters := { inode := 2, name := 1, doc := 2 }
  counts := { inodes := 1, names := 0, dirs := 1, docs := 0 }

theorem eligible_rows_uncovered (final : Rows DocRow) :
    eligible_rows (Overlay.empty checkpoint) final none = [] := by
  refine filterMap_eq_nil_iff.mpr fun r _ => if_neg fun h => ?_
  cases h.2

/-- Where nothing dies, a cap below the permissions takes none of them; and a permission that
the producer gives is outside the count. -/
theorem leaves_other :
    (∃ prepared, prepare (Overlay.empty checkpoint) removal none 0 (.ofList [0] compare) =
      .ok prepared ∧ ¬Leaves (Overlay.empty checkpoint) prepared
        (retained_rows (Overlay.empty checkpoint) removal none 0 (.ofList [0] compare))) ∧
    ∃ prepared, prepare (Overlay.empty checkpoint) own_removal none CAP (.ofList [0] compare) =
      .ok prepared ∧ ¬Leaves (Overlay.empty checkpoint) prepared
        (retained_rows (Overlay.empty checkpoint) own_removal none CAP (.ofList [0] compare)) := by
  have hr : Retains tables {} { count := 1 } := Retains.checkpoint checkpoint
  have hprepare : ∀ (changes : ChangeSet) (cap : ℕ),
      prepare (Overlay.empty checkpoint) changes none cap (.ofList [0] compare) = .ok changes := by
    intro changes cap
    unfold prepare
    simp only [bind_eq_ok, claim_eq_ok, exists_const]
    refine ⟨size_retained_ids (o := Overlay.empty checkpoint) hr retained_ids, ?_⟩
    rw [if_pos (eligible_rows_uncovered _)]
    rfl
  refine ⟨⟨removal, hprepare _ _, fun h => ?_⟩, ⟨own_removal, hprepare _ _, fun h => ?_⟩⟩
  · have hleft : (0, hash 0) ∈ retained_rows (Overlay.empty checkpoint) removal none 0
        (.ofList [0] compare) := by
      refine (h 0 (hash 0)).mp ?_
      rw [Projection.apply_eq_over, dormant_hash_over]
      refine .inr ⟨?_, rfl⟩
      show ((∅ : Rows DocRow).insert 1 .delete)[0]? = none
      rw [Std.ExtTreeMap.getElem?_insert, if_neg (by decide), Std.ExtTreeMap.getElem?_empty]
    rw [retained_rows, Nat.zero_min, canonicalize] at hleft
    simp only [Nat.sub_zero, drop_length] at hleft
    cases hleft
  · have hleft : (1, hash 1) ∈ retained_rows (Overlay.empty checkpoint) own_removal none CAP
        (.ofList [0] compare) := by
      refine (h 1 (hash 1)).mp ?_
      rw [Projection.apply_eq_over, dormant_hash_over]
      exact .inl (Std.ExtTreeMap.getElem?_insert_self)
    rw [retained_rows, mem_canonicalize (table_nodup retained_ids _ _)] at hleft
    have hrow := List.mem_toFinset.mp (Newest.holders_subset _ (Finset.mem_filter.mp hleft).1)
    rw [eligible_rows_uncovered, append_nil, mem_untouched_rows retained_ids] at hrow
    cases hrow.2

end OneFile

end Ferret.Catalog
