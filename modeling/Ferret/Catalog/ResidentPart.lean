import Ferret.Lib.Newest
import Ferret.Catalog.ResidentPasses
import Mathlib.Data.Finset.Sort

/-!
# A part of the resident names

The names of a part are interned in the order they are met, and handed back in
whatever order the table keeps them in. Sorted by prefix and then by bytes they
are the sorted set of the part's names, so that neither order is seen in what
is built.
-/

namespace Ferret.Catalog

open Scatter List

/-! ## Prefixes -/

/-- The first bytes of a name as a number, `n` of them. -/
def lead : ℕ → Bytes → ℕ
  | 0, _ => 0
  | _ + 1, [] => 0
  | n + 1, b :: name => b.toNat * 256 ^ n + lead n name

theorem lead_nil (n : ℕ) : lead n [] = 0 := by cases n <;> rfl

theorem foldl_lead (n : ℕ) (name : Bytes) (acc : ℕ) :
    (name.take n ++ List.replicate (n - min name.length n) 0).foldl
        (fun n (b : UInt8) => n * 256 + b.toNat) acc = acc * 256 ^ n + lead n name := by
  induction n generalizing name acc with
  | zero => simp [lead]
  | succ n ih =>
    cases name with
    | nil =>
      have h := ih [] (acc * 256)
      rw [take_nil, length_nil, Nat.zero_min, Nat.sub_zero, nil_append] at h ⊢
      rw [replicate_succ, foldl_cons]
      show (List.replicate n 0).foldl _ (acc * 256 + 0) = _
      rw [add_zero, h, lead_nil, lead_nil, pow_succ]
      ring
    | cons b name =>
      rw [take_succ_cons, cons_append, foldl_cons, length_cons,
        Nat.add_min_add_right, Nat.add_sub_add_right, ih, lead, pow_succ]
      ring

theorem prefix8_eq (name : Bytes) : prefix8 name = lead 8 name := by
  rw [prefix8, foldl_lead, zero_mul, zero_add]

theorem lead_lt (n : ℕ) (name : Bytes) : lead n name < 256 ^ n := by
  induction n generalizing name with
  | zero => exact one_pos
  | succ n ih =>
    cases name with
    | nil => exact Nat.pow_pos (by decide)
    | cons b name =>
      have hb : b.toNat + 1 ≤ 256 := b.toNat_lt
      calc b.toNat * 256 ^ n + lead n name < b.toNat * 256 ^ n + 256 ^ n :=
            Nat.add_lt_add_left (ih name) _
        _ = (b.toNat + 1) * 256 ^ n := (Nat.succ_mul ..).symm
        _ ≤ 256 * 256 ^ n := Nat.mul_le_mul_right _ hb
        _ = 256 ^ (n + 1) := (pow_succ' ..).symm

theorem lt_of_lead_lt {n : ℕ} {a b : Bytes} (h : lead n a < lead n b) : a < b := by
  induction n generalizing a b with
  | zero => cases h
  | succ n ih =>
    cases b with
    | nil => cases h
    | cons c b =>
      cases a with
      | nil => exact nil_lt_cons c b
      | cons d a =>
        refine cons_lt_cons_iff.mpr ?_
        rcases lt_trichotomy d c with hlt | rfl | hgt
        · exact .inl hlt
        · exact .inr ⟨rfl, ih (Nat.lt_of_add_lt_add_left h)⟩
        · -- A greater first byte outweighs the rest.
          have hle : c.toNat + 1 ≤ d.toNat := UInt8.lt_iff_toNat_lt.mp hgt
          have hmul := Nat.mul_le_mul_right (256 ^ n) hle
          have hlead := lead_lt n b
          rw [Nat.succ_mul] at hmul
          rw [lead, lead] at h
          omega

/-- **Names order as their prefixes do**, wherever these differ. -/
theorem lt_of_prefix8_lt {a b : Bytes} (h : prefix8 a < prefix8 b) : a < b := by
  rw [prefix8_eq, prefix8_eq] at h
  exact lt_of_lead_lt h

/-! ## The sorted set -/

/-- The sorted set of some names. -/
def dictionary (names : List Bytes) : List Bytes := names.toFinset.sort (· ≤ ·)

variable {names : List Bytes} {name : Bytes}

theorem mem_dictionary : name ∈ dictionary names ↔ name ∈ names := by
  rw [dictionary, Finset.mem_sort, mem_toFinset]

theorem pairwise_dictionary (names : List Bytes) : (dictionary names).Pairwise (· < ·) :=
  (Finset.sortedLT_sort _).pairwise

theorem nodup_dictionary (names : List Bytes) : (dictionary names).Nodup :=
  (pairwise_dictionary names).imp ne_of_lt

/-- **The sorted set is the one ascending list of the names.** -/
theorem eq_dictionary {l : List Bytes} (h : l.Pairwise (· < ·))
    (hmem : ∀ name, name ∈ l ↔ name ∈ names) : l = dictionary names :=
  h.eq_of_mem_iff (pairwise_dictionary names) fun name => by rw [hmem, mem_dictionary]

/-! ## Interning -/

/-- A table whose names are distinct and numbered in the order they were put
in. -/
structure Numbered (lookup : List (Bytes × ℕ)) : Prop where
  nodup : (lookup.map Prod.fst).Nodup
  keys : lookup.map Prod.snd = List.range lookup.length

variable {lookup : List (Bytes × ℕ)}

theorem Numbered.push (h : Numbered lookup) (hname : lookup.lookup name = none) :
    Numbered (lookup ++ [(name, lookup.length)]) where
  nodup := by
    rw [map_append, nodup_append]
    refine ⟨h.nodup, nodup_singleton _, fun a ha b hb hab => ?_⟩
    obtain ⟨entry, hentry, rfl⟩ := mem_map.mp ha
    rw [map_singleton, mem_singleton] at hb
    have hne := lookup_eq_none_iff.mp hname entry hentry
    rw [hab, hb, bne_self_eq_false] at hne
    cases hne
  keys := by
    rw [map_append, h.keys, length_append, length_singleton, range_succ]
    rfl

/-- **What interning leaves**: the table with every name in it, numbered, and
the key of each name. -/
theorem intern_spec (h : Numbered lookup) (names : List Bytes) :
    Numbered (intern lookup names).1 ∧ lookup ⊆ (intern lookup names).1
      ∧ (∀ name, name ∈ (intern lookup names).1.map Prod.fst
        ↔ name ∈ lookup.map Prod.fst ∨ name ∈ names)
      ∧ List.Forall₂ (fun name key => (name, key) ∈ (intern lookup names).1) names
        (intern lookup names).2 := by
  induction names generalizing lookup with
  | nil => exact ⟨h, fun _ hmem => hmem, fun name => by simp [intern], .nil⟩
  | cons name names ih =>
    cases hname : lookup.lookup name with
    | some key =>
      obtain ⟨hnumbered, hsub, hmem, hkeys⟩ := ih h
      obtain ⟨_, _, hsplit, -⟩ := lookup_eq_some_iff.mp hname
      have hentry : (name, key) ∈ lookup := by
        rw [hsplit]
        exact mem_append_right _ (.head _)
      rw [intern, hname]
      refine ⟨hnumbered, hsub, fun other => ?_, .cons (hsub hentry) hkeys⟩
      rw [hmem, mem_cons]
      constructor
      · rintro (hin | hin)
        · exact .inl hin
        · exact .inr (.inr hin)
      · rintro (hin | rfl | hin)
        · exact .inl hin
        · exact .inl (mem_map_of_mem hentry)
        · exact .inr hin
    | none =>
      obtain ⟨hnumbered, hsub, hmem, hkeys⟩ := ih (h.push hname)
      rw [intern, hname]
      refine ⟨hnumbered, fun _ hin => hsub (mem_append_left _ hin), fun other => ?_,
        .cons (hsub (mem_append_right _ (mem_singleton_self _))) hkeys⟩
      rw [hmem, map_append, mem_append, map_singleton, mem_singleton, mem_cons, or_assoc]

theorem numbered_nil : Numbered [] := ⟨nodup_nil, rfl⟩

theorem numbered_intern (names : List Bytes) : Numbered (intern [] names).1 :=
  (intern_spec numbered_nil names).1

theorem mem_intern : name ∈ (intern [] names).1.map Prod.fst ↔ name ∈ names := by
  rw [(intern_spec numbered_nil names).2.2.1, map_nil]
  simp

theorem intern_keys (names : List Bytes) :
    List.Forall₂ (fun name key => (name, key) ∈ (intern [] names).1) names (intern [] names).2 :=
  (intern_spec numbered_nil names).2.2.2

/-! ## Sorting what was interned -/

theorem pairwise_prefix_le (l : List (ℕ × Bytes × ℕ)) :
    (l.mergeSort prefix_le).Pairwise fun a b => a.1 < b.1 ∨ (a.1 = b.1 ∧ a.2.1 ≤ b.2.1) := by
  have htrans (a b c : ℕ × Bytes × ℕ) (hab : prefix_le a b = true) (hbc : prefix_le b c = true) :
      prefix_le a c = true := by
    unfold prefix_le at hab hbc ⊢
    rw [decide_eq_true_iff] at hab hbc ⊢
    rcases hab with hab | ⟨hab, hle⟩
    · rcases hbc with hbc | ⟨hbc, -⟩
      · exact .inl (hab.trans hbc)
      · exact .inl (hbc ▸ hab)
    · rcases hbc with hbc | ⟨hbc, hle'⟩
      · exact .inl (hab ▸ hbc)
      · exact .inr ⟨hab.trans hbc, hle.trans hle'⟩
  have htotal (a b : ℕ × Bytes × ℕ) : (prefix_le a b || prefix_le b a) = true := by
    unfold prefix_le
    rw [Bool.or_eq_true, decide_eq_true_iff, decide_eq_true_iff]
    rcases lt_trichotomy a.1 b.1 with h | h | h
    · exact .inl (.inl h)
    · rcases le_total a.2.1 b.2.1 with hle | hle
      · exact .inl (.inr ⟨h, hle⟩)
      · exact .inr (.inr ⟨h.symm, hle⟩)
    · exact .inr (.inl h)
  exact (pairwise_mergeSort htrans htotal l).imp fun h => of_decide_eq_true h

theorem perm_sorted (entries : List (Bytes × ℕ)) :
    ((sorted entries).map fun entry => (entry.2.1, entry.2.2)).Perm entries := by
  have h := (mergeSort_perm (entries.map fun e => (prefix8 e.1, e.1, e.2)) prefix_le).map
    fun entry => (entry.2.1, entry.2.2)
  rw [map_map] at h
  have hid : entries.map ((fun entry => (entry.2.1, entry.2.2)) ∘
      fun e : Bytes × ℕ => (prefix8 e.1, e.1, e.2)) = entries := map_id entries
  rwa [hid] at h

variable {entries : List (Bytes × ℕ)}

/-- **Sorted, the names of a table are the sorted set**, whatever order they
were handed back in. -/
theorem sorted_names (h : entries.Perm (intern [] names).1) :
    (sorted entries).map (fun entry => entry.2.1) = dictionary names := by
  have hperm : ((sorted entries).map fun entry => entry.2.1).Perm
      ((intern [] names).1.map Prod.fst) := by
    have hsorted := ((perm_sorted entries).trans h).map Prod.fst
    rwa [map_map] at hsorted
  have hnodup := hperm.nodup_iff.mpr (numbered_intern names).nodup
  refine eq_dictionary ?_ fun name => by rw [hperm.mem_iff, mem_intern]
  have hprefixes : ∀ entry ∈ sorted entries, entry.1 = prefix8 entry.2.1 := by
    intro entry hentry
    obtain ⟨e, -, rfl⟩ := mem_map.mp ((mergeSort_perm _ _).mem_iff.mp hentry)
    rfl
  have hle : (sorted entries).Pairwise fun a b => a.2.1 ≤ b.2.1 := by
    refine (pairwise_prefix_le _).imp_of_mem fun ha hb hab => ?_
    rcases hab with hlt | ⟨-, hle⟩
    · rw [hprefixes _ ha, hprefixes _ hb] at hlt
      exact (lt_of_prefix8_lt hlt).le
    · exact hle
  exact (pairwise_map.mpr hle).imp₂ (fun _ _ hab hne => lt_of_le_of_ne hab hne) hnodup

/-! ## Local keys -/

/-- The last loop over the sorted entries: each old key's new one. -/
theorem getElem?_foldl_set {l : List (ℕ × ℕ)} (h : (l.map Prod.fst).Nodup) (remap : List ℕ)
    {old key : ℕ} (hmem : (old, key) ∈ l) (hold : old < remap.length) :
    (l.foldl (fun remap e => remap.set e.1 e.2) remap)[old]? = some key := by
  have hkeep (l : List (ℕ × ℕ)) (remap : List ℕ) (hnot : old ∉ l.map Prod.fst) :
      (l.foldl (fun remap e => remap.set e.1 e.2) remap)[old]? = remap[old]? := by
    induction l generalizing remap with
    | nil => rfl
    | cons e l ih =>
      rw [map_cons, mem_cons, not_or] at hnot
      rw [foldl_cons, ih _ hnot.2, getElem?_set_ne fun heq => hnot.1 heq.symm]
  induction l generalizing remap with
  | nil => cases hmem
  | cons e l ih =>
    rw [map_cons, nodup_cons] at h
    rw [foldl_cons]
    rcases mem_cons.mp hmem with rfl | hmem
    · rw [hkeep l _ h.1, getElem?_set_self hold]
    · exact ih h.2 _ hmem (by rwa [length_set])

theorem getD_remap (h : entries.Perm (intern [] names).1) {old : ℕ}
    (hentry : (name, old) ∈ (intern [] names).1) :
    (remap (sorted entries)).getD old 0 = (dictionary names).idxOf name := by
  have hnumbered := numbered_intern names
  have hmem : (name, old) ∈ (sorted entries).map fun entry => (entry.2.1, entry.2.2) :=
    ((perm_sorted entries).trans h).mem_iff.mpr hentry
  obtain ⟨⟨p, name, old⟩, hsorted, heq⟩ := mem_map.mp hmem
  cases heq
  obtain ⟨key, hkey⟩ := mem_iff_getElem?.mp hsorted
  have holds : ((sorted entries).map fun entry => entry.2.2).Perm (List.range (sorted entries).length) := by
    have hperm := ((perm_sorted entries).trans h)
    have hlen := hperm.length_eq
    rw [length_map] at hlen
    have hmap := hperm.map Prod.snd
    rw [map_map, hnumbered.keys, ← hlen] at hmap
    exact hmap
  have hold : old < (sorted entries).length :=
    mem_range.mp (holds.mem_iff.mp (mem_map_of_mem hsorted))
  have hfold : remap (sorted entries)
      = ((sorted entries).zipIdx.map fun e => (e.1.2.2, e.2)).foldl
        (fun remap e => remap.set e.1 e.2) (List.replicate (sorted entries).length 0) := by
    rw [remap, foldl_map]
  have hget : (remap (sorted entries))[old]? = some key := by
    rw [hfold]
    refine getElem?_foldl_set ?_ _ ?_ (by rwa [length_replicate])
    · rw [map_map]
      have hfst : (sorted entries).zipIdx.map (Prod.fst ∘ fun e => (e.1.2.2, e.2))
          = ((sorted entries).zipIdx.map Prod.fst).map fun entry => entry.2.2 := by
        rw [map_map]
        rfl
      rw [hfst, map_fst_zipIdx]
      exact holds.nodup_iff.mpr nodup_range
    · exact mem_map.mpr ⟨((p, name, old), key), mem_zipIdx_iff_getElem?.mpr hkey, rfl⟩
  have hname : (dictionary names)[key]? = some name := by
    rw [← sorted_names h, getElem?_map, hkey]
    rfl
  obtain ⟨_, hname⟩ := List.getElem?_eq_some_iff.mp hname
  rw [getD_eq_getElem?_getD, hget, ← hname, (nodup_dictionary names).idxOf_getElem]
  rfl

/-! ## Lists being encoded -/

section

variable (packing : NamePacking)

/-- The builder of some lists. -/
def encoded (lists : List (List ℕ)) : ListsBuilder where
  counts := lists.map List.length
  offsets := starts 0 (lists.map fun list => (packing.encode_sorted list).length)
  bytes := lists.flatMap packing.encode_sorted

/-- A list the builder takes. -/
def Postable (list : List ℕ) : Prop := list.Pairwise (· < ·) ∧ list.length < 2 ^ 32

theorem length_flatMap_encode (lists : List (List ℕ)) :
    (lists.flatMap packing.encode_sorted).length
      = (lists.map fun list => (packing.encode_sorted list).length).sum := by
  rw [length_flatMap]

theorem encoded_snoc (lists : List (List ℕ)) {list : List ℕ} (h : Postable list) :
    (encoded packing lists).push packing list = some (encoded packing (lists ++ [list])) := by
  have hcheck : list.IsChain (· < ·) ∧ list.length < 2 ^ 32 :=
    ⟨isChain_iff_pairwise.mpr h.1, h.2⟩
  rw [ListsBuilder.push, if_pos hcheck]
  simp only [encoded, map_append, map_singleton, flatMap_append,
    flatMap_singleton, starts_append, zero_add, length_flatMap_encode]
  rfl

theorem foldlM_push {lists : List (List ℕ)} (h : ∀ list ∈ lists, Postable list) :
    lists.foldlM (ListsBuilder.push packing) {} = some (encoded packing lists) := by
  have hrun (done rest : List (List ℕ)) (hrest : ∀ list ∈ rest, Postable list) :
      rest.foldlM (ListsBuilder.push packing) (encoded packing done)
        = some (encoded packing (done ++ rest)) := by
    induction rest generalizing done with
    | nil =>
      rw [append_nil]
      rfl
    | cons list rest ih =>
      rw [foldlM_cons, encoded_snoc packing done (hrest list (mem_cons_self ..))]
      show rest.foldlM (ListsBuilder.push packing) (encoded packing (done ++ [list])) = _
      rw [ih (done ++ [list]) fun l hl => hrest l (mem_cons_of_mem _ hl), append_assoc,
        singleton_append]
  exact hrun [] lists h

end

/-! ## The part -/

/-- The rows of a name among some rows. -/
def posted (names : List Bytes) (rows : List ℕ) (name : Bytes) : List ℕ :=
  rows.filter fun row => names.getD row [] = name

theorem having_keys (g : ℕ → ℕ) (rows : List ℕ) (k : ℕ) :
    having k ((rows.map g).zip rows) = rows.filter fun row => g row = k := by
  induction rows with
  | nil => rfl
  | cons row rows ih =>
    rw [map_cons, zip_cons_cons, having_cons, ih, filter_cons]
    by_cases h : g row = k
    · rw [if_pos h, if_pos (decide_eq_true h)]
    · rw [if_neg h, if_neg fun hd => h (of_decide_eq_true hd)]

/-- **A part is built** as the sorted set of its rows' names, the rows of each,
and each row's place in it. -/
theorem build_part_eq {packing : NamePacking} {into_iter : List (Bytes × ℕ) → List (Bytes × ℕ)}
    (hiter : ∀ entries, (into_iter entries).Perm entries) (names : List Bytes) {rows posts : List ℕ}
    (hrows : rows.Pairwise (· < ·)) (hlen : rows.length < 2 ^ 32) (hposts : posts.length = rows.length) :
    Part.build packing into_iter names rows posts
      = some ⟨dictionary (rows.map fun row => names.getD row []),
        encoded packing ((dictionary (rows.map fun row => names.getD row [])).map (posted names rows)),
        rows.map fun row => (dictionary (rows.map fun row => names.getD row [])).idxOf
          (names.getD row [])⟩ := by
  set held := rows.map fun row => names.getD row [] with hheld
  have hperm := hiter (intern [] held).1
  have hnames := sorted_names hperm
  have hcount : (sorted (into_iter (intern [] held).1)).length = (dictionary held).length := by
    rw [← hnames, length_map]
  have hkeys : (intern [] held).2.map
      (fun key => (remap (sorted (into_iter (intern [] held).1))).getD key 0)
        = rows.map fun row => (dictionary held).idxOf (names.getD row []) := by
    have hmap : ∀ {ns : List Bytes} {ks : List ℕ},
        List.Forall₂ (fun name key => (name, key) ∈ (intern [] held).1) ns ks →
        ks.map (fun key => (remap (sorted (into_iter (intern [] held).1))).getD key 0)
          = ns.map (dictionary held).idxOf := by
      intro ns ks h
      induction h with
      | nil => rfl
      | cons hentry _ ih => rw [map_cons, map_cons, ih, getD_remap hperm hentry]
    rw [hmap (intern_keys held), hheld, map_map]
    rfl
  have hfst : (((rows.map fun row => (dictionary held).idxOf (names.getD row [])).zip rows).map
      Prod.fst) = rows.map fun row => (dictionary held).idxOf (names.getD row []) := by
    rw [map_fst_zip (by rw [length_map])]
  have hlt : ∀ item ∈ (rows.map fun row => (dictionary held).idxOf (names.getD row [])).zip rows,
      item.1 < (dictionary held).length := by
    intro item hitem
    obtain ⟨row, hrow, hkey⟩ := mem_map.mp (of_mem_zip hitem).1
    rw [← hkey, idxOf_lt_length_iff, mem_dictionary]
    exact mem_map_of_mem hrow
  have hlists : ((List.range (dictionary held).length).map fun k =>
      having k ((rows.map fun row => (dictionary held).idxOf (names.getD row [])).zip rows))
        = (dictionary held).map (posted names rows) := by
    refine ext_getElem? fun k => ?_
    rw [getElem?_map, getElem?_map]
    by_cases hk : k < (dictionary held).length
    · rw [getElem?_range hk, getElem?_eq_getElem hk, Option.map_some, Option.map_some,
        having_keys, posted]
      refine congrArg some (filter_congr fun row hrow => ?_)
      rw [decide_eq_decide]
      constructor
      · intro hidx
        have hget := getElem?_idxOf (mem_dictionary.mpr
          (mem_map_of_mem (f := fun row => names.getD row []) hrow))
        rw [← hheld, hidx, getElem?_eq_getElem hk, Option.some_inj] at hget
        exact hget.symm
      · intro hname
        rw [hname, (nodup_dictionary held).idxOf_getElem]
    · rw [getElem?_eq_none (by rw [length_range]; omega), getElem?_eq_none (not_lt.mp hk)]
      rfl
  have hlengths : ((dictionary held).map (posted names rows)).map List.length
      = tally (dictionary held).length
        (rows.map fun row => (dictionary held).idxOf (names.getD row [])) := by
    rw [← hlists, tally_eq, map_map]
    refine map_congr_left fun k _ => ?_
    rw [Function.comp_apply, length_having, hfst]
  have hpostable : ∀ list ∈ (dictionary held).map (posted names rows), Postable list := by
    intro list hlist
    obtain ⟨name, -, rfl⟩ := mem_map.mp hlist
    exact ⟨hrows.filter _, (length_filter_le _ _).trans_lt hlen⟩
  have hscatter := scatter_eq posts hlt (by
    rw [hposts, length_zip, length_map, min_self])
  rw [hfst, hlists] at hscatter
  unfold Part.build
  dsimp only
  rw [← hheld, hkeys, hcount, hscatter, ← hlengths, spans_flatten, foldlM_push packing hpostable,
    Option.bind_eq_bind, Option.bind_some, hnames]
  rfl

end Ferret.Catalog
