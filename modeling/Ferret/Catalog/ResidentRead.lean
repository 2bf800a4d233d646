import Ferret.Catalog.FanOut
import Ferret.Catalog.ResidentTable

/-!
# Reading the resident names

Offsets of strings laid end to end cut each out again, so that the packed
strings and lists are read back, and with them the table of the names. A build
comes to an end unless its bytes are too many to address.
-/

namespace Ferret.Catalog

open Scatter List Option

/-! ## Keys -/

theorem foldr_max_lt {values : List ℕ} {n : ℕ} (hn : 0 < n) :
    values.foldr max 0 < n ↔ ∀ v ∈ values, v < n := by
  induction values with
  | nil => simpa using hn
  | cons v values ih => rw [foldr_cons, max_lt_iff, ih, forall_mem_cons]

section

variable {packing : NamePacking}

namespace Keys

theorem isSome_from_values {values : List ℕ} :
    (from_values packing values).isSome = true ↔ ∀ v ∈ values, v < 2 ^ 57 := by
  have hwidth : Catalog.width (values.foldr max 0) ≤ 57 ↔ ∀ v ∈ values, v < 2 ^ 57 :=
    Nat.size_le.trans (foldr_max_lt (Nat.two_pow_pos 57))
  unfold from_values
  dsimp only
  split
  · rename_i h
    exact iff_of_true rfl (hwidth.mp h)
  · rename_i h
    exact iff_of_false (fun h => by cases h) fun hall => h (hwidth.mpr hall)

variable {values : List ℕ} {keys : Keys}

/-- **A packed value is read back**, and nothing past the end. -/
theorem get_offset_eq (hpacking : packing.Contract) (h : from_values packing values = some keys)
    (i : ℕ) : keys.get_offset packing i = values[i]? := by
  unfold from_values at h
  dsimp only at h
  split at h
  · rename_i hwidth
    cases h
    have hfits : ∀ v ∈ values, v < 2 ^ Catalog.width (values.foldr max 0) :=
      (foldr_max_lt (Nat.two_pow_pos _)).mp (Nat.lt_size_self _)
    unfold get_offset
    split
    · rename_i hi
      have hv := getElem?_eq_getElem hi
      rw [hpacking.get hwidth hfits hv, hv]
    · rename_i hi
      rw [getElem?_eq_none (not_lt.mp hi)]
  · cases h

theorem get_eq (hpacking : packing.Contract) (h : from_values packing values = some keys)
    (hlt : ∀ v ∈ values, v < 2 ^ 32) (i : ℕ) : keys.get packing i = values[i]? := by
  rw [get, get_offset_eq hpacking h]
  cases hv : values[i]? with
  | none => rfl
  | some v => exact congrArg some (Nat.mod_eq_of_lt (hlt v (mem_of_getElem? hv)))

end Keys

/-! ## Strings end to end -/

/-- The offsets of some strings, and the end of the last. -/
def ends (strings : List Bytes) : List ℕ :=
  starts 0 (strings.map List.length) ++ [strings.flatten.length]

variable {i : ℕ}

theorem getElem?_ends (strings : List Bytes) (h : i ≤ strings.length) :
    (ends strings)[i]? = some ((strings.map List.length).take i).sum := by
  unfold ends
  rcases lt_or_ge i strings.length with hlt | hge
  · have hlt : i < (strings.map List.length).length := by rwa [length_map]
    rw [getElem?_append_left (by rwa [length_starts]), getElem?_starts 0 hlt, zero_add]
  · obtain rfl := le_antisymm h hge
    rw [getElem?_append_right (by rw [length_starts, length_map]), length_starts,
      length_map, Nat.sub_self, length_flatten, take_of_length_le (by simp)]
    rfl

variable {strings : List Bytes}

/-- **The offsets cut a string out of the table.** -/
theorem slice_ends {string : Bytes} (h : strings[i]? = some string) :
    ((strings.map List.length).take (i + 1)).sum
        = ((strings.map List.length).take i).sum + string.length
      ∧ ((strings.map List.length).take (i + 1)).sum ≤ strings.flatten.length
      ∧ slice strings.flatten ((strings.map List.length).take i).sum string.length = string := by
  obtain ⟨hlt, hget⟩ := List.getElem?_eq_some_iff.mp h
  have hsplit : strings = strings.take i ++ string :: strings.drop (i + 1) := by
    rw [← hget, ← drop_eq_getElem_cons hlt, take_append_drop]
  have hsum : ((strings.map List.length).take i).sum = (strings.take i).flatten.length := by
    rw [← map_take, length_flatten]
  have hnext : ((strings.map List.length).take (i + 1)).sum
      = ((strings.map List.length).take i).sum + string.length := by
    rw [take_add_one, getElem?_map, h]
    simp
  have hflatten : strings.flatten
      = (strings.take i).flatten ++ (string ++ (strings.drop (i + 1)).flatten) := by
    conv_lhs => rw [hsplit]
    rw [flatten_append, flatten_cons]
  refine ⟨hnext, ?_, ?_⟩
  · rw [hnext, hsum, hflatten, length_append, length_append]
    omega
  · rw [hsum, hflatten, slice, drop_left, take_left]

theorem ends_lt {n : ℕ} :
    (∀ v ∈ ends strings, v < n) ↔ strings.flatten.length < n := by
  constructor
  · intro h
    exact h _ (mem_append_right _ (mem_singleton_self _))
  · intro h v hv
    obtain ⟨i, hi⟩ := mem_iff_getElem?.mp hv
    have hle : i ≤ strings.length := by
      have hlt := (List.getElem?_eq_some_iff.mp hi).1
      simp only [ends, length_append, length_starts, length_map, length_cons, length_nil] at hlt
      omega
    rw [getElem?_ends strings hle, some_inj] at hi
    have hsum : ((strings.map List.length).take i).sum ≤ strings.flatten.length := by
      rw [length_flatten, ← map_take, ← length_flatten, ← length_flatten]
      conv_rhs => rw [← take_append_drop i strings, flatten_append, length_append]
      exact le_self_add
    omega

namespace PackedStrings

theorem isSome_new :
    (new packing strings).isSome = true ↔ strings.flatten.length < 2 ^ 57 := by
  have hkeys : (Keys.from_values packing (ends strings)).isSome = true
      ↔ strings.flatten.length < 2 ^ 57 := Keys.isSome_from_values.trans ends_lt
  refine Iff.trans ?_ hkeys
  unfold new
  show ((Keys.from_values packing (ends strings)).bind _).isSome = true
    ↔ (Keys.from_values packing (ends strings)).isSome = true
  cases Keys.from_values packing (ends strings) with
  | none => rfl
  | some _ => rfl

/-- **A string is read back.** -/
theorem get_eq (hpacking : packing.Contract) {packed : PackedStrings}
    (h : new packing strings = some packed) {string : Bytes} (hi : strings[i]? = some string) :
    packed.get packing i = some string := by
  obtain ⟨_, hoffsets, heq⟩ := bind_eq_some_iff.mp h
  cases heq
  have hlt := (List.getElem?_eq_some_iff.mp hi).1
  obtain ⟨hnext, hle, hslice⟩ := slice_ends hi
  have hread := Keys.get_offset_eq hpacking hoffsets
  unfold get
  have hends : starts 0 (strings.map List.length) ++ [strings.flatten.length] = ends strings := rfl
  rw [hread, hread, hends, getElem?_ends strings hlt.le,
    getElem?_ends strings (show i + 1 ≤ _ from hlt)]
  dsimp only [bind_eq_bind, bind_some]
  rw [if_pos ⟨(le_self_add).trans_eq hnext.symm, hle⟩, hnext, Nat.add_sub_cancel_left, hslice]
  rfl

end PackedStrings

namespace PackedNameLists

variable {lists : List (List ℕ)}

theorem append_one (lists : List (List ℕ)) :
    append [] [] [] [encoded packing lists]
      = ((encoded packing lists).counts, (encoded packing lists).offsets,
        (encoded packing lists).bytes) := by
  have h := append_encoded packing [] [lists]
  rwa [flatten_singleton, nil_append] at h

/-- The bytes of some lists are strings end to end. -/
theorem ends_encoded (lists : List (List ℕ)) :
    (encoded packing lists).offsets ++ [(encoded packing lists).bytes.length]
      = ends (lists.map packing.encode_sorted) := by
  simp only [encoded, ends, List.map_map, flatMap_def]
  rfl

/-- The packings of some lists: their lengths, and their bytes end to end. -/
theorem concat_eq_some {packed : PackedNameLists}
    (h : concat packing [encoded packing lists] = some packed) :
    Keys.from_values packing (lists.map List.length) = some packed.counts
      ∧ Keys.from_values packing (ends (lists.map packing.encode_sorted)) = some packed.offsets
      ∧ packed.bytes = (lists.map packing.encode_sorted).flatten := by
  unfold concat at h
  rw [append_one] at h
  dsimp only at h
  rw [ends_encoded] at h
  obtain ⟨_, hcounts, h⟩ := bind_eq_some_iff.mp h
  obtain ⟨_, hoffsets, h⟩ := bind_eq_some_iff.mp h
  cases h
  exact ⟨hcounts, hoffsets, flatMap_def⟩

theorem isSome_concat (hlists : ∀ list ∈ lists, Postable list) :
    (concat packing [encoded packing lists]).isSome = true
      ↔ (lists.map packing.encode_sorted).flatten.length < 2 ^ 57 := by
  have hcounts : (Keys.from_values packing (lists.map List.length)).isSome = true := by
    refine Keys.isSome_from_values.mpr fun v hv => ?_
    obtain ⟨list, hlist, rfl⟩ := List.mem_map.mp hv
    exact (hlists list hlist).2.trans (Nat.pow_lt_pow_right (by decide) (by decide))
  obtain ⟨_, hcounts⟩ := isSome_iff_exists.mp hcounts
  have hkeys : (Keys.from_values packing (ends (lists.map packing.encode_sorted))).isSome = true
      ↔ (lists.map packing.encode_sorted).flatten.length < 2 ^ 57 :=
    Keys.isSome_from_values.trans ends_lt
  refine Iff.trans ?_ hkeys
  unfold concat
  rw [append_one]
  dsimp only
  rw [ends_encoded]
  show ((Keys.from_values packing (lists.map List.length)).bind _).isSome = true ↔ _
  rw [hcounts, bind_some]
  show ((Keys.from_values packing (ends (lists.map packing.encode_sorted))).bind _).isSome = true
    ↔ _
  cases Keys.from_values packing (ends (lists.map packing.encode_sorted)) with
  | none => rfl
  | some _ => rfl

/-- **A list is read back, and counted.** -/
theorem get_eq (hpacking : packing.Contract) {packed : PackedNameLists}
    (h : concat packing [encoded packing lists] = some packed)
    (hlists : ∀ list ∈ lists, Postable list ∧ ∀ row ∈ list, row < 2 ^ 32) {list : List ℕ}
    (hi : lists[i]? = some list) :
    packed.count packing i = some list.length ∧ packed.get packing i = some list := by
  obtain ⟨hcounts, hoffsets, hbytes⟩ := concat_eq_some h
  have hpost := hlists list (mem_of_getElem? hi)
  have hcount : packed.count packing i = some list.length := by
    rw [count, Keys.get_eq hpacking hcounts (fun v hv => ?_), getElem?_map, hi]
    · rfl
    · obtain ⟨list, hlist, rfl⟩ := List.mem_map.mp hv
      exact (hlists list hlist).1.2
  have hstring : (lists.map packing.encode_sorted)[i]? = some (packing.encode_sorted list) := by
    rw [getElem?_map, hi]
    rfl
  obtain ⟨hnext, hle, hslice⟩ := slice_ends hstring
  have hlt := (List.getElem?_eq_some_iff.mp hstring).1
  have hdecode := hpacking.decode ⟨hpost.1.1, hpost.2⟩
  refine ⟨hcount, ?_⟩
  unfold get
  rw [Keys.get_offset_eq hpacking hoffsets, Keys.get_offset_eq hpacking hoffsets,
    getElem?_ends _ hlt.le, getElem?_ends _ (show i + 1 ≤ _ from hlt), hcount, hbytes]
  dsimp only [bind_eq_bind, bind_some]
  rw [if_pos ⟨(le_self_add).trans_eq hnext.symm, hle⟩, hnext, Nat.add_sub_cancel_left, hslice, hdecode]
  rfl

end PackedNameLists

/-! ## The table -/

/-- **Resident names are a table of some names**: the distinct names in order,
each row's key the place of its name, and for each key the ascending rows that
hold its name. -/
structure Table (packing : NamePacking) (r : ResidentNames) (names : List Bytes) : Prop where
  distinct : r.distinct = (dictionary names).length
  rows : r.rows = names.length
  distinct_name : ∀ key, r.distinct_name packing key = (dictionary names)[key]?
  key : ∀ row name, names[row]? = some name →
    r.key packing row = some ((dictionary names).idxOf name)
  name : ∀ row, r.name packing row = names[row]?
  postings : ∀ key name, (dictionary names)[key]? = some name →
    r.row_postings packing key
        = some ((List.range names.length).filter fun row => names[row]? = some name)
      ∧ r.count packing key
        = some ((List.range names.length).filter fun row => names[row]? = some name).length

variable {names : List Bytes}

theorem posted_range (name : Bytes) :
    posted names (List.range names.length) name
      = (List.range names.length).filter fun row => names[row]? = some name := by
  refine filter_congr fun row hrow => ?_
  have hget := getElem?_eq_getElem (mem_range.mp hrow)
  rw [decide_eq_decide, getD_of_getElem? hget, hget, some_inj]

theorem postable_all_posted (hrows : names.length < 2 ^ 32) :
    ∀ list ∈ all_posted names, Postable list ∧ ∀ row ∈ list, row < 2 ^ 32 := by
  intro list hlist
  obtain ⟨_, -, rfl⟩ := List.mem_map.mp hlist
  refine ⟨⟨pairwise_lt_range.filter _, (length_filter_le _ _).trans_lt ?_⟩, ?_⟩
  · rwa [length_range]
  · exact fun row hrow => (mem_range.mp (mem_filter.mp hrow).1).trans hrows

theorem length_dictionary_le (names : List Bytes) : (dictionary names).length ≤ names.length := by
  rw [dictionary, Finset.length_sort]
  exact toFinset_card_le names

theorem idxOf_dictionary_lt (hrows : names.length < 2 ^ 32) :
    ∀ v ∈ names.map (dictionary names).idxOf, v < 2 ^ 32 := by
  intro v hv
  obtain ⟨_, hname, rfl⟩ := List.mem_map.mp hv
  exact (idxOf_lt_length_iff.mpr (mem_dictionary.mpr hname)).trans
    ((length_dictionary_le names).trans_lt hrows)

/-- A build ends unless the names, or the postings, are too long to address. -/
theorem isSome_table_of (hrows : names.length < 2 ^ 32) :
    (table_of packing names).isSome = true
      ↔ (dictionary names).flatten.length < 2 ^ 57
        ∧ ((all_posted names).map packing.encode_sorted).flatten.length < 2 ^ 57 := by
  have hkeys : (Keys.from_values packing (names.map (dictionary names).idxOf)).isSome = true :=
    Keys.isSome_from_values.mpr fun v hv => (idxOf_dictionary_lt hrows v hv).trans
      (Nat.pow_lt_pow_right (by decide) (by decide))
  obtain ⟨_, hkeys⟩ := isSome_iff_exists.mp hkeys
  have hstrings : (PackedStrings.new packing (dictionary names)).isSome = true
      ↔ (dictionary names).flatten.length < 2 ^ 57 := PackedStrings.isSome_new
  rw [← hstrings,
    ← PackedNameLists.isSome_concat fun list hlist => (postable_all_posted hrows list hlist).1]
  unfold table_of
  rw [hkeys]
  cases PackedStrings.new packing (dictionary names) with
  | none => simp
  | some _ =>
    cases PackedNameLists.concat packing [encoded packing (all_posted names)] with
    | none => simp
    | some _ => simp

/-- **What a build makes is a table of the names.** -/
theorem table_table_of (hpacking : packing.Contract) (hrows : names.length < 2 ^ 32)
    {r : ResidentNames} (h : table_of packing names = some r) :
    Table packing r names := by
  obtain ⟨strings, hstrings, h⟩ := bind_eq_some_iff.mp h
  obtain ⟨lists, hlists, h⟩ := bind_eq_some_iff.mp h
  obtain ⟨keys, hkeys, h⟩ := bind_eq_some_iff.mp h
  cases h
  have hname (key : ℕ) : ResidentNames.distinct_name packing
      ⟨strings, keys, lists, (dictionary names).length, names.length⟩ key
        = (dictionary names)[key]? := by
    unfold ResidentNames.distinct_name
    split
    · rename_i hlt
      have hget := getElem?_eq_getElem hlt
      rw [PackedStrings.get_eq hpacking hstrings hget, hget]
    · rename_i hge
      rw [getElem?_eq_none (not_lt.mp hge)]
  have hkey (row : ℕ) : ResidentNames.key packing
      ⟨strings, keys, lists, (dictionary names).length, names.length⟩ row
        = names[row]?.map (dictionary names).idxOf := by
    unfold ResidentNames.key
    split
    · rw [Keys.get_eq hpacking hkeys (idxOf_dictionary_lt hrows), getElem?_map]
    · rename_i hge
      rw [getElem?_eq_none (not_lt.mp hge)]
      rfl
  refine ⟨rfl, rfl, hname, fun row name hrow => ?_, fun row => ?_, fun key name hdict => ?_⟩
  · rw [hkey, hrow]
    rfl
  · unfold ResidentNames.name
    rw [hkey]
    cases hrow : names[row]? with
    | none => rfl
    | some name =>
      dsimp only [map_some, bind_eq_bind, bind_some]
      rw [hname, getElem?_idxOf (mem_dictionary.mpr (mem_of_getElem? hrow))]
  · have hlt := (List.getElem?_eq_some_iff.mp hdict).1
    have hlist : (all_posted names)[key]?
        = some ((List.range names.length).filter fun row => names[row]? = some name) := by
      rw [all_posted, getElem?_map, hdict, map_some, posted_range]
    obtain ⟨hcount, hget⟩ := PackedNameLists.get_eq hpacking hlists (postable_all_posted hrows) hlist
    exact ⟨(if_pos hlt).trans hget, (if_pos hlt).trans hcount⟩

/-- **The resident names do not depend on the threads**: the work a build fans
out has the results of a serial run however the threads take it; the build makes
what a serial one makes, on any number of threads and whatever order a hash
table hands its names back in, and ends unless its bytes are too many to
address; and what it makes is the table of the names. -/
theorem build_with_any_threads (hpacking : packing.Contract)
    {into_iter serial_iter : List (Bytes × ℕ) → List (Bytes × ℕ)}
    (hiter : ∀ entries, (into_iter entries).Perm entries)
    (hserial : ∀ entries, (serial_iter entries).Perm entries) {names : List Bytes}
    (hrows : names.length < 2 ^ 32) (threads : ℕ) :
    (∀ (I T : Type) (items : List I) (work : I → T) (pool : FanOut.Pool I T),
      FanOut.Reached work threads items pool → pool.ended → pool.results = some (fan_out items work))
    ∧ ResidentNames.build_with packing into_iter names threads
      = ResidentNames.build_with packing serial_iter names 1
    ∧ ((ResidentNames.build_with packing into_iter names threads).isSome = true
      ↔ (dictionary names).flatten.length < 2 ^ 57
        ∧ ((all_posted names).map packing.encode_sorted).flatten.length < 2 ^ 57)
    ∧ ∀ r, ResidentNames.build_with packing into_iter names threads = some r →
      Table packing r names := by
  have hbuild : ResidentNames.build_with packing into_iter names threads = _ :=
    build_with_eq hiter hrows threads
  refine ⟨fun I T items work pool => FanOut.results_eq, ?_, ?_, fun r hr => ?_⟩
  · rw [hbuild, build_with_eq hserial hrows 1]
  · rw [hbuild, isSome_table_of hrows]
  · exact table_table_of hpacking hrows (hbuild.symm.trans hr)

end

/-- A packing to run the build with: bits low first, and four bytes a number. -/
def plain_packing : NamePacking where
  put := fun w values => ((Writer.new w).pushes values).2 ++ ((Writer.new w).pushes values).1.flush
  get := fun bytes bit w =>
    ((load bytes (bit / 8) 8).map fun word => (word >>> (bit % 8)) &&& mask w).getD 0
  encode_sorted := Intpack.plain.encode_sorted
  decode_sorted := Intpack.plain.decode_sorted

theorem plain_packing_contract : plain_packing.Contract where
  get := by
    intro w values i v hw hfits hv
    have hholds := (holds_flush (hw.trans (by decide)) hfits
      (show PAD ≤ (List.replicate 8 0).length from length_replicate.ge)).1
    obtain ⟨_, hword, -, hsame⟩ := hholds.decode_value ⟨[], w⟩ rfl hv
    obtain ⟨loaded, hloaded, hmask⟩ := bind_eq_some_iff.mp hword
    have hloaded : load (plain_packing.put w values ++ List.replicate 8 0) (i * w / 8) 8
        = some loaded := hloaded
    show ((load _ (i * w / 8) 8).map _).getD 0 = v
    rw [hloaded, ← hsame hw]
    exact some_inj.mp hmask
  decode := by
    intro list h
    have hdecode := Intpack.plain_contract.decode_encode list [] h
    rwa [append_nil] at hdecode

theorem dictionary_sample : dictionary [[98], [97], [98]] = [[97], [98]] :=
  (eq_dictionary (by decide) fun name => by
    simp only [mem_cons, not_mem_nil, or_false]
    tauto).symm

theorem build_with_any_threads_sample :
    ResidentNames.build_with plain_packing List.reverse [[98], [97], [98]] 3
      = ResidentNames.build_with plain_packing id [[98], [97], [98]] 1
    ∧ (ResidentNames.build_with plain_packing List.reverse [[98], [97], [98]] 3).isSome = true
    ∧ ∀ r, ResidentNames.build_with plain_packing List.reverse [[98], [97], [98]] 3 = some r →
      r.row_postings plain_packing 1 = some [0, 2] := by
  obtain ⟨-, hsame, hsome, htable⟩ := build_with_any_threads plain_packing_contract
    (fun entries => reverse_perm entries) (fun entries => .refl entries)
    (show ([[98], [97], [98]] : List Bytes).length < 2 ^ 32 by decide) 3
  refine ⟨hsame, hsome.mpr ⟨?_, ?_⟩, fun r hr => ((htable r hr).postings 1 [98] ?_).1⟩
  · rw [dictionary_sample]
    decide
  · rw [all_posted, dictionary_sample]
    decide
  · rw [dictionary_sample]
    rfl

end Ferret.Catalog
