import Ferret.Catalog.ResidentPart
import Ferret.Index.Invert
import Ferret.Lib.Flag

/-!
# The tables of an inverter

`Inverts` says what an inverter is for: each distinct key once, in order, with
its distinct documents ascending, and no pair that was not added. One list has
that of given pairs, `Inverts.unique`.

The table of `Inverter` keeps the first few documents of a term in its slot and
only then a list; it hands its entries back in any order, and a large drain
sorts them in parts on several threads, partitioned in place by first byte.
None of that shows: `sort_terms_eq` says that the parts give the plain sort, and
`Inverter.entries_inverts` that what is drained is the inverted map of what was
added.
-/

namespace Ferret

open List

/-- **The inverted map** of some pairs of a key and a document, as a list. -/
structure Inverts {κ : Type} [LT κ] (held : κ → ℕ → Prop) (entries : List (κ × List ℕ)) :
    Prop where
  keys : entries.Pairwise fun p q => p.1 < q.1
  ne_nil : ∀ p ∈ entries, p.2 ≠ []
  docs : ∀ p ∈ entries, p.2.Pairwise (· < ·)
  held : ∀ k d, held k d ↔ ∃ docs, (k, docs) ∈ entries ∧ d ∈ docs

namespace Inverts

variable {κ : Type} [LinearOrder κ] {held : κ → ℕ → Prop} {xs : List (κ × List ℕ)}

omit [LinearOrder κ] in
theorem nil [LT κ] (h : ∀ k d, ¬ held k d) : Inverts held [] where
  keys := .nil
  ne_nil := nofun
  docs := nofun
  held := fun k d => ⟨fun hd => absurd hd (h k d), fun ⟨_, hp, _⟩ => by cases hp⟩

/-- A key below the others, with its documents. -/
theorem cons (h : Inverts held xs) {k : κ} {ds : List ℕ} (hk : ∀ p ∈ xs, k < p.1) (hne : ds ≠ [])
    (hs : ds.Pairwise (· < ·)) :
    Inverts (fun k' d => k' = k ∧ d ∈ ds ∨ held k' d) ((k, ds) :: xs) where
  keys := pairwise_cons.mpr ⟨hk, h.keys⟩
  ne_nil := forall_mem_cons.mpr ⟨hne, h.ne_nil⟩
  docs := forall_mem_cons.mpr ⟨hs, h.docs⟩
  held := by
    intro k' d
    rw [h.held]
    constructor
    · rintro (⟨rfl, hd⟩ | ⟨es, he, hd⟩)
      · exact ⟨ds, .head _, hd⟩
      · exact ⟨es, .tail _ he, hd⟩
    · rintro ⟨es, he, hd⟩
      rcases mem_cons.mp he with heq | he
      · cases heq
        exact .inl ⟨rfl, hd⟩
      · exact .inr ⟨es, he, hd⟩

theorem congr (h : Inverts held xs) {held' : κ → ℕ → Prop} (hsame : ∀ k d, held k d ↔ held' k d) :
    Inverts held' xs where
  keys := h.keys
  ne_nil := h.ne_nil
  docs := h.docs
  held := fun k d => (hsame k d).symm.trans (h.held k d)

/-- Keys under other names in the same order. -/
theorem map {κ' : Type} [LinearOrder κ'] (h : Inverts held xs) (f : κ → κ')
    (hf : ∀ p ∈ xs, ∀ q ∈ xs, p.1 < q.1 → f p.1 < f q.1) :
    Inverts (fun t d => ∃ k, f k = t ∧ held k d) (xs.map fun p => (f p.1, p.2)) where
  keys := pairwise_map.mpr (h.keys.imp_of_mem fun {p q} hp hq hlt => hf p hp q hq hlt)
  ne_nil := by
    intro p hp
    obtain ⟨q, hq, rfl⟩ := mem_map.mp hp
    exact h.ne_nil q hq
  docs := by
    intro p hp
    obtain ⟨q, hq, rfl⟩ := mem_map.mp hp
    exact h.docs q hq
  held := by
    intro t d
    constructor
    · rintro ⟨k, rfl, hd⟩
      obtain ⟨ds, hds, hd⟩ := (h.held k d).mp hd
      exact ⟨ds, mem_map.mpr ⟨(k, ds), hds, rfl⟩, hd⟩
    · rintro ⟨ds, hds, hd⟩
      obtain ⟨⟨k, es⟩, hes, heq⟩ := mem_map.mp hds
      cases heq
      exact ⟨k, rfl, (h.held k d).mpr ⟨es, hes, hd⟩⟩

end Inverts

namespace Inversion

/-! ## A term's documents -/

/-- A term's documents. Up to `FEW` live in the table slot, in an array of
which `len` are used, and only a further document allocates. -/
inductive Docs
  | one (doc : ℕ)
  | few (len : ℕ) (docs : List ℕ)
  | many (docs : List ℕ)
deriving DecidableEq

namespace Docs

/-- Appends `doc` unless it is already last. -/
def push (doc : ℕ) : Docs → Docs
  | .one first => if first = doc then .one first else .few 2 [first, doc, 0]
  | .few len docs =>
    if docs.getD (len - 1) 0 = doc then .few len docs
    else if len < FEW then .few (len + 1) (docs.set len doc)
    else .many (docs ++ [doc])
  | .many docs => if docs.getLast? = some doc then .many docs else .many (docs ++ [doc])

def as_slice : Docs → List ℕ
  | .one doc => [doc]
  | .few len docs => docs.take len
  | .many docs => docs

/-- The array in the slot has room for `FEW`, and one of its documents at least
is used. -/
def Ok : Docs → Prop
  | .few len docs => docs.length = FEW ∧ 0 < len ∧ len ≤ FEW
  | _ => True

variable {docs : Docs}

theorem Ok.push (h : docs.Ok) (doc : ℕ) : (docs.push doc).Ok := by
  cases docs with
  | one _ =>
    rw [Docs.push]
    split
    · trivial
    · exact ⟨rfl, by decide, by decide⟩
  | few _ docs =>
    obtain ⟨hlen, hpos, hle⟩ := h
    rw [Docs.push]
    split
    · exact ⟨hlen, hpos, hle⟩
    · split
      · exact ⟨by rw [length_set, hlen], Nat.succ_pos _, by omega⟩
      · trivial
  | many docs =>
    rw [Docs.push]
    split <;> trivial

/-- **In whichever form, a document is appended unless it is already last.** -/
theorem Ok.push_slice (h : docs.Ok) (doc : ℕ) :
    (docs.push doc).as_slice = Ferret.Inverter.push_doc docs.as_slice doc := by
  unfold Ferret.Inverter.push_doc
  cases docs with
  | one first =>
    by_cases hlast : first = doc <;> simp [Docs.push, as_slice, hlast]
  | few len docs =>
    obtain ⟨hlen, _, hle⟩ := h
    have hlast : (docs.take len).getLast? = some (docs.getD (len - 1) 0) := by
      rw [getLast?_eq_getElem?, length_take, hlen, min_eq_left hle,
        getElem?_take, if_pos (by omega), getD_eq_getElem?_getD,
        getElem?_eq_getElem (by omega)]
      rfl
    show _ = if (docs.take len).getLast? = some doc then _ else docs.take len ++ [doc]
    simp only [hlast, Option.some_inj]
    by_cases hsame : docs.getD (len - 1) 0 = doc
    · rw [Docs.push, if_pos hsame, if_pos hsame]
    · rw [if_neg hsame]
      by_cases hlt : len < FEW
      · rw [Docs.push, if_neg hsame, if_pos hlt]
        show (docs.set len doc).take (len + 1) = _
        rw [take_succ_eq_append_getElem (by rw [length_set]; omega),
          getElem_set_self, take_set_of_le (le_refl len)]
      · have hfull : len = docs.length := by omega
        rw [Docs.push, if_neg hsame, if_neg hlt]
        show docs ++ [doc] = docs.take len ++ [doc]
        rw [hfull, take_length]
  | many docs =>
    by_cases hlast : docs.getLast? = some doc <;> simp [Docs.push, as_slice, hlast]

end Docs

/-! ## The table -/

/-- A table's terms with their documents, in the order they were filed. -/
abbrev TermTable := List (Bytes × Docs)

/-- Appends `doc` to the documents of `term`, which is filed if it is new. -/
def file (doc : ℕ) (term : Bytes) : TermTable → TermTable
  | [] => [(term, .one doc)]
  | (t, docs) :: rest =>
    if t = term then (t, docs.push doc) :: rest else (t, docs) :: file doc term rest

/-- Accumulates one segment's postings in memory. -/
structure Inverter where
  terms : TermTable
  last : Option ℕ

/-- A table's order: its entries, each once. -/
structure IntoIter where
  order : TermTable → TermTable
  perm : ∀ terms, (order terms).Perm terms

/-- Drains of at least this many terms sort in parts on several threads. -/
def PARTS_FROM : ℕ := 2 ^ 14

/-- Most threads one drain sorts on. -/
def PARTS : ℕ := 8

/-- The order of entries: by the first eight bytes of their terms as one
integer, and only on a tie by the bytes. -/
def compare (a b : Bytes × Docs) : Bool :=
  decide (Catalog.prefix8 a.1 < Catalog.prefix8 b.1
    ∨ Catalog.prefix8 a.1 = Catalog.prefix8 b.1 ∧ a.1 ≤ b.1)

/-- The first byte of an entry's term. -/
def first (entry : Bytes × Docs) : ℕ := Catalog.prefix8 entry.1 / 2 ^ 56

/-- Sorts entries into byte order of their terms. A large drain is first
partitioned in place by its terms' first bytes, then sorted as runs of whole
partitions on threads of their own. -/
def sort_terms (available : ℕ) (terms : TermTable) : TermTable :=
  let threads := min available PARTS
  if threads = 1 ∨ terms.length < PARTS_FROM then terms.mergeSort compare
  else
    let counts := Scatter.tally 256 (terms.map first)
    let share := (terms.length + (threads - 1)) / threads
    ((Flag.shares share 256 (Flag.partition first 256 terms) counts).map
      fun part => part.mergeSort compare).flatten

namespace Inverter

def new : Inverter where
  terms := []
  last := none

/-- Records that `doc` holds `term`. `doc` must not be below any document
added before. -/
def add (i : Inverter) (doc : ℕ) (term : Bytes) : Except WriteError Inverter :=
  if i.last.any (doc < ·) then .error .docOrder
  else .ok { terms := file doc term i.terms, last := some doc }

/-- What a drain pushes, in order. -/
def entries (available : ℕ) (iter : IntoIter) (i : Inverter) : List (Bytes × List ℕ) :=
  (sort_terms available (iter.order i.terms)).map fun p => (p.1, p.2.as_slice)

/-- Drains everything added into a writer. -/
def drain (fingerprint : Bytes → ℕ) (available : ℕ) (iter : IntoIter) (i : Inverter)
    (writer : Draft) : Except WriteError Draft :=
  (i.entries available iter).foldlM (fun w p => w.push fingerprint p.1 p.2) writer

end Inverter

/-! ## The sort -/

theorem compare_eq (a b : Bytes × Docs) : compare a b = decide (a.1 ≤ b.1) := by
  refine decide_eq_decide.mpr ⟨fun h => ?_, fun h => ?_⟩
  · rcases h with hlt | ⟨-, hle⟩
    · exact (Catalog.lt_of_prefix8_lt hlt).le
    · exact hle
  · rcases lt_trichotomy (Catalog.prefix8 a.1) (Catalog.prefix8 b.1) with hlt | heq | hgt
    · exact .inl hlt
    · exact .inr ⟨heq, h⟩
    · exact absurd h (not_le.mpr (Catalog.lt_of_prefix8_lt hgt))

/-- The order of entries agrees with their first bytes. -/
theorem compare_of_first_lt {a b : Bytes × Docs} (h : first a < first b) : compare a b := by
  refine decide_eq_true (.inl ?_)
  by_contra hle
  exact absurd (Nat.div_le_div_right (not_lt.mp hle)) (not_le.mpr h)

theorem first_lt (entry : Bytes × Docs) : first entry < 256 := by
  have h := Catalog.lead_lt 8 entry.1
  rw [← Catalog.prefix8_eq] at h
  refine Nat.div_lt_of_lt_mul (h.trans_eq ?_)
  norm_num

/-- **The parts give the plain sort**, however many threads there are. -/
theorem sort_terms_eq (available : ℕ) {terms : TermTable} (h : (terms.map Prod.fst).Nodup) :
    sort_terms available terms = terms.mergeSort fun a b => decide (a.1 ≤ b.1) := by
  have hplain : terms.mergeSort compare = terms.mergeSort fun a b => decide (a.1 ≤ b.1) := by
    congr 1
    funext a b
    exact compare_eq a b
  have htrans : ∀ a b c, compare a b → compare b c → compare a c := by
    intro a b c hab hbc
    rw [compare_eq, decide_eq_true_eq] at hab hbc ⊢
    exact hab.trans hbc
  have htotal : ∀ a b, compare a b || compare b a := by
    intro a b
    rw [compare_eq, compare_eq, Bool.or_eq_true, decide_eq_true_eq, decide_eq_true_eq]
    exact le_total a.1 b.1
  have hanti : ∀ a ∈ terms, ∀ b ∈ terms, compare a b → compare b a → a = b := by
    intro a ha b hb hab hba
    rw [compare_eq, decide_eq_true_eq] at hab hba
    exact inj_on_of_nodup_map h ha hb (le_antisymm hab hba)
  unfold sort_terms
  dsimp only
  split
  · exact hplain
  · rw [Flag.sort_parts htrans htotal (fun a b => compare_of_first_lt) hanti
      (fun a _ => first_lt a), hplain]

/-! ## What was added -/

/-- A table as terms with their documents. -/
def view (terms : TermTable) : List (Bytes × List ℕ) := terms.map fun p => (p.1, p.2.as_slice)

/-- **Filing a document is entering it**, whatever form the documents have. -/
theorem file_view (doc : ℕ) (term : Bytes) {terms : TermTable} (h : ∀ p ∈ terms, p.2.Ok) :
    view (file doc term terms) = Ferret.Inverter.enter doc term (view terms)
      ∧ ∀ p ∈ file doc term terms, p.2.Ok := by
  induction terms with
  | nil =>
    refine ⟨rfl, fun p hp => ?_⟩
    rw [mem_singleton.mp hp]
    trivial
  | cons p rest ih =>
    obtain ⟨t, docs⟩ := p
    obtain ⟨hdocs, hrest⟩ := forall_mem_cons.mp h
    obtain ⟨hview, hok⟩ := ih hrest
    rw [file]
    by_cases heq : t = term
    · rw [if_pos heq]
      refine ⟨?_, forall_mem_cons.mpr ⟨hdocs.push doc, hrest⟩⟩
      show (t, (docs.push doc).as_slice) :: view rest
        = Ferret.Inverter.enter doc term ((t, docs.as_slice) :: view rest)
      rw [Ferret.Inverter.enter, if_pos heq, hdocs.push_slice]
    · rw [if_neg heq]
      refine ⟨?_, forall_mem_cons.mpr ⟨hdocs, hok⟩⟩
      show (t, docs.as_slice) :: view (file doc term rest)
        = Ferret.Inverter.enter doc term ((t, docs.as_slice) :: view rest)
      rw [Ferret.Inverter.enter, if_neg heq, hview]

variable {terms : List (Bytes × List ℕ)} {doc : ℕ}

/-- Entering a document gives its term one list, and leaves the others. -/
theorem mem_enter {term : Bytes} (h : (terms.map Prod.fst).Nodup) (p : Bytes × List ℕ) :
    p ∈ Ferret.Inverter.enter doc term terms ↔ p ∈ terms ∧ p.1 ≠ term
      ∨ p = (term, Ferret.Inverter.push_doc (docsOf terms term) doc) := by
  induction terms with
  | nil =>
    show p ∈ [(term, [doc])] ↔ p ∈ [] ∧ _ ∨ p = (term, [doc])
    simp
  | cons q rest ih =>
    obtain ⟨t, _⟩ := q
    rw [map_cons, nodup_cons] at h
    rw [Ferret.Inverter.enter]
    by_cases heq : t = term
    · subst heq
      have hrest : ∀ q ∈ rest, q.1 ≠ t := fun q hq hqt =>
        h.1 (mem_map.mpr ⟨q, hq, hqt⟩)
      rw [if_pos rfl, Merge.docsOf_cons_self, mem_cons, mem_cons]
      constructor
      · rintro (rfl | hp)
        · exact .inr rfl
        · exact .inl ⟨.inr hp, hrest p hp⟩
      · rintro (⟨rfl | hp, hne⟩ | rfl)
        · exact absurd rfl hne
        · exact .inr hp
        · exact .inl rfl
    · rw [if_neg heq, Merge.docsOf_cons_of_ne (Ne.symm heq), mem_cons, ih h.2, mem_cons]
      constructor
      · rintro (rfl | ⟨hp, hne⟩ | rfl)
        · exact .inl ⟨.inl rfl, heq⟩
        · exact .inl ⟨.inr hp, hne⟩
        · exact .inr rfl
      · rintro (⟨rfl | hp, hne⟩ | rfl)
        · exact .inl rfl
        · exact .inr (.inl ⟨hp, hne⟩)
        · exact .inr (.inr rfl)

theorem nodup_enter {term : Bytes} (h : (terms.map Prod.fst).Nodup) :
    ((Ferret.Inverter.enter doc term terms).map Prod.fst).Nodup := by
  induction terms with
  | nil => exact nodup_singleton _
  | cons q _ ih =>
    obtain ⟨t, _⟩ := q
    rw [map_cons, nodup_cons] at h
    rw [Ferret.Inverter.enter]
    by_cases heq : t = term
    · rw [if_pos heq]
      exact nodup_cons.mpr h
    · rw [if_neg heq, map_cons]
      refine nodup_cons.mpr ⟨fun hmem => ?_, ih h.2⟩
      obtain ⟨p, hp, hpt⟩ := mem_map.mp hmem
      rcases (mem_enter h.2 p).mp hp with ⟨hp, -⟩ | rfl
      · exact h.1 (mem_map.mpr ⟨p, hp, hpt⟩)
      · exact heq hpt.symm

/-- **What a table has filed** of the pairs added: each term once, with its
documents. -/
structure Filed (adds : List (ℕ × Bytes)) (terms : List (Bytes × List ℕ)) : Prop where
  nodup : (terms.map Prod.fst).Nodup
  ne_nil : ∀ p ∈ terms, p.2 ≠ []
  docs : ∀ p ∈ terms, p.2.Pairwise (· < ·)
  held : ∀ t d, (d, t) ∈ adds ↔ ∃ docs, (t, docs) ∈ terms ∧ d ∈ docs

theorem mem_docsOf_iff (h : (terms.map Prod.fst).Nodup) {t : Bytes}
    {d : ℕ} : d ∈ docsOf terms t ↔ ∃ docs, (t, docs) ∈ terms ∧ d ∈ docs := by
  constructor
  · intro hd
    obtain ⟨⟨_, docs⟩, hp, rfl, hmem⟩ := Merge.mem_docsOf hd
    exact ⟨docs, hp, hmem⟩
  · rintro ⟨docs, hp, hmem⟩
    induction terms with
    | nil => cases hp
    | cons q _ ih =>
      rw [map_cons, nodup_cons] at h
      rcases mem_cons.mp hp with rfl | hp
      · rwa [Merge.docsOf_cons_self]
      · have hne : t ≠ q.1 := fun heq => h.1 (heq ▸ mem_map.mpr ⟨_, hp, rfl⟩)
        rw [show q = (q.1, q.2) from rfl, Merge.docsOf_cons_of_ne hne]
        exact ih h.2 hp

/-- The documents of a term stay ascending. -/
theorem pairwise_push_doc {docs : List ℕ} (hs : docs.Pairwise (· < ·))
    (hle : ∀ d ∈ docs, d ≤ doc) : (Ferret.Inverter.push_doc docs doc).Pairwise (· < ·) := by
  unfold Ferret.Inverter.push_doc
  split
  · exact hs
  · rename_i hlast
    refine pairwise_append.mpr ⟨hs, pairwise_singleton _ _, fun d hd e he => ?_⟩
    rw [mem_singleton.mp he]
    refine lt_of_le_of_ne (hle d hd) fun heq => hlast ?_
    -- the greatest document of an ascending list is its last
    rw [getLast?_eq_some_getLast (ne_nil_of_mem hd), Option.some_inj]
    refine le_antisymm (hle _ (getLast_mem _)) ?_
    rw [← heq]
    rcases eq_nil_or_concat docs with rfl | ⟨_, last, rfl⟩
    · cases hd
    · rw [concat_eq_append] at hd hs
      simp only [concat_eq_append, getLast_append_singleton]
      rcases mem_append.mp hd with hd | hd
      · exact ((pairwise_append.mp hs).2.2 d hd last (mem_singleton_self _)).le
      · exact (mem_singleton.mp hd).le

variable {adds : List (ℕ × Bytes)}

/-- **A document not below any before it is filed.** -/
theorem Filed.enter (h : Filed adds terms) (hle : ∀ p ∈ adds, p.1 ≤ doc) (term : Bytes) :
    Filed (adds ++ [(doc, term)]) (Ferret.Inverter.enter doc term terms) where
  nodup := nodup_enter h.nodup
  ne_nil := by
    intro p hp
    rcases (mem_enter h.nodup p).mp hp with ⟨hp, -⟩ | rfl
    · exact h.ne_nil p hp
    · exact ne_nil_of_mem (Ferret.Inverter.mem_push_doc.mpr (.inr rfl))
  docs := by
    intro p hp
    rcases (mem_enter h.nodup p).mp hp with ⟨hp, -⟩ | rfl
    · exact h.docs p hp
    · refine pairwise_push_doc ?_ fun d hd =>
        hle (d, term) ((h.held term d).mpr ((mem_docsOf_iff h.nodup).mp hd))
      unfold docsOf
      cases hlook : terms.lookup term with
      | none => exact .nil
      | some docs =>
        obtain ⟨_, _, hsplit, -⟩ := lookup_eq_some_iff.mp hlook
        exact h.docs (term, docs) (hsplit ▸ mem_append_right _ (.head _))
  held := by
    intro t d
    rw [mem_append, mem_singleton, h.held, Prod.mk.injEq]
    constructor
    · rintro (⟨docs, hp, hd⟩ | ⟨rfl, rfl⟩)
      · by_cases ht : t = term
        · subst ht
          exact ⟨_, (mem_enter h.nodup _).mpr (.inr rfl), Ferret.Inverter.mem_push_doc.mpr
            (.inl ((mem_docsOf_iff h.nodup).mpr ⟨docs, hp, hd⟩))⟩
        · exact ⟨docs, (mem_enter h.nodup _).mpr (.inl ⟨hp, ht⟩), hd⟩
      · exact ⟨_, (mem_enter h.nodup _).mpr (.inr rfl), Ferret.Inverter.mem_push_doc.mpr (.inr rfl)⟩
    · rintro ⟨docs, hp, hd⟩
      rcases (mem_enter h.nodup _).mp hp with ⟨hp, -⟩ | hp
      · exact .inl ⟨docs, hp, hd⟩
      · cases hp
        rcases Ferret.Inverter.mem_push_doc.mp hd with hd | rfl
        · exact .inl ((mem_docsOf_iff h.nodup).mp hd)
        · exact .inr ⟨rfl, rfl⟩

namespace Inverter

/-- Adds pairs of a document and a term, one after another. -/
def addAll (i : Inverter) (adds : List (ℕ × Bytes)) : Except WriteError Inverter :=
  adds.foldlM (fun i p => i.add p.1 p.2) i

/-- What an inverter has after some additions. -/
structure Added (adds : List (ℕ × Bytes)) (i : Inverter) : Prop where
  ok : ∀ p ∈ i.terms, p.2.Ok
  filed : Filed adds (view i.terms)
  last : i.last = adds.getLast?.map Prod.fst

theorem new_added : new.Added [] where
  ok := nofun
  filed := ⟨nodup_nil, nofun, nofun, fun t d =>
    ⟨nofun, fun ⟨docs, hp, _⟩ => by cases hp⟩⟩
  last := rfl

/-- **Pairs in document order are all taken.** -/
theorem addAll_added (h : adds.Pairwise fun p q => p.1 ≤ q.1) :
    ∃ i, new.addAll adds = .ok i ∧ i.Added adds := by
  induction adds using List.reverseRecOn with
  | nil => exact ⟨new, rfl, new_added⟩
  | append_singleton adds p ih =>
    obtain ⟨hadds, -, hle⟩ := pairwise_append.mp h
    obtain ⟨i, hi, hadded⟩ := ih hadds
    have hbelow : ∀ q ∈ adds, q.1 ≤ p.1 := fun q hq => hle q hq p (mem_singleton_self p)
    have hlast : i.last.any (p.1 < ·) = false := by
      rw [hadded.last]
      cases hl : adds.getLast? with
      | none => rfl
      | some q => exact decide_eq_false (not_lt.mpr (hbelow q (mem_of_getLast? hl)))
    have hadd : i.add p.1 p.2 = .ok { terms := file p.1 p.2 i.terms, last := some p.1 } := by
      rw [add, if_neg (by rw [hlast]; exact Bool.false_ne_true)]
    obtain ⟨hview, hok⟩ := file_view p.1 p.2 hadded.ok
    refine ⟨{ terms := file p.1 p.2 i.terms, last := some p.1 }, ?_, hok, ?_, ?_⟩
    · unfold addAll at hi ⊢
      rw [foldlM_append, hi]
      simp only [bind, Except.bind, foldlM_cons, foldlM_nil, hadd, pure, Except.pure]
    · show Filed (adds ++ [p]) (view (file p.1 p.2 i.terms))
      rw [hview]
      exact hadded.filed.enter hbelow p.2
    · rw [getLast?_concat]
      rfl

theorem Added.order_nodup {i : Inverter} (h : i.Added adds) (iter : IntoIter) :
    ((iter.order i.terms).map Prod.fst).Nodup := by
  have hview := h.filed.nodup
  rw [view, map_map] at hview
  exact ((iter.perm i.terms).map Prod.fst).nodup_iff.mpr hview

/-- **What is drained is the inverted map of what was added**, on however many
threads and from whatever order of the table. -/
theorem Added.entries_inverts {i : Inverter} (h : i.Added adds) (available : ℕ) (iter : IntoIter) :
    Inverts (fun t d => (d, t) ∈ adds) (i.entries available iter) := by
  have horder := h.order_nodup iter
  have hperm : (i.entries available iter).Perm (view i.terms) := by
    rw [entries, sort_terms_eq available horder]
    exact ((mergeSort_perm _ _).trans (iter.perm i.terms)).map _
  have hmem : ∀ p, p ∈ i.entries available iter ↔ p ∈ view i.terms := fun p => hperm.mem_iff
  refine ⟨?_, fun p hp => h.filed.ne_nil p ((hmem p).mp hp),
    fun p hp => h.filed.docs p ((hmem p).mp hp), fun t d => ?_⟩
  · have hle : (i.entries available iter).Pairwise fun p q => p.1 ≤ q.1 := by
      rw [entries, sort_terms_eq available horder]
      refine pairwise_map.mpr ((pairwise_mergeSort (fun a b c hab hbc => ?_)
        (fun a b => ?_) _).imp fun hab => ?_)
      · rw [decide_eq_true_eq] at hab hbc ⊢
        exact hab.trans hbc
      · rw [Bool.or_eq_true, decide_eq_true_eq, decide_eq_true_eq]
        exact le_total a.1 b.1
      · exact of_decide_eq_true hab
    have hne : (i.entries available iter).Pairwise fun p q => p.1 ≠ q.1 :=
      pairwise_map.mp ((hperm.map Prod.fst).nodup_iff.mpr h.filed.nodup)
    exact (hle.and hne).imp fun hab => lt_of_le_of_ne hab.1 hab.2
  · rw [h.filed.held]
    simp only [hmem]

end Inverter

/-- **A writer takes an inverted map** whose documents are in its range. -/
theorem push_inverted {held : Bytes → ℕ → Prop} {entries : List (Bytes × List ℕ)}
    (h : Inverts held entries) (fingerprint : Bytes → ℕ) {first last : ℕ} {codec : Codec}
    {w : Draft}
    (hbuild : Draft.build first last codec = .ok w)
    (hwithin : ∀ t d, held t d → first ≤ d ∧ d ≤ last) :
    entries.foldlM (fun w p => w.push fingerprint p.1 p.2) w
      = .ok (w.pushed_terms fingerprint entries) := by
  obtain ⟨⟨hfirst, hlast, _⟩, -, hsingles⟩ := Draft.build_spec hbuild
  refine Draft.pushAll_eq fingerprint (fun s hs => ?_) h.keys (fun p _ hpos => ?_) fun p hp => ?_
  · rw [hsingles] at hs
    split at hs
    · cases hs
      rfl
    · cases hs
  · omega
  · refine ⟨h.ne_nil p hp, h.docs p hp, fun d hd => ?_⟩
    rw [hfirst, hlast]
    exact hwithin p.1 d ((h.held p.1 d).mpr ⟨p.2, hp, hd⟩)

end Inversion

end Ferret
