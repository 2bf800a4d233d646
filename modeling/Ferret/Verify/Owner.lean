import Ferret.Verify.Pooled

/-!
# Which position owns a document

In ascending order a document's owner is decided by its names: the least of
them that the run holds. Threads remember it once it took long to find; what
they remember is always that name, so the answer does not depend on who asked
first. In any other order a table of first positions decides.

Either way an owner has the name of the document's first position.
-/

namespace Ferret.Verify

open List

variable {ε : Type} (scan : Scan ε)

/-- The least name of a document that the run holds. -/
def Scan.firstName (d : Doc) : Option NameId := (scan.names d).find? scan.in_run

/-- What the threads remember of owners is right. -/
def Scan.OwnersSound (owners : Owners) : Prop :=
  ∀ d first, owners d = some first → scan.firstName d = some first

/-- Whether a position owns a document. -/
def Scan.owner (pos : ℕ) (id : NameId) (d : Doc) : Bool :=
  if scan.sorted then decide (scan.firstName d = some id) else decide (scan.index.1 d = some pos)

variable {scan} {id : NameId}

theorem Scan.in_run_iff : scan.in_run id = true ↔ id ∈ scan.ids := by
  unfold in_run
  exact decide_eq_true_iff

theorem takeWhile_lt {a b : List NameId} (h : (a ++ id :: b).Pairwise (· < ·)) :
    (a ++ id :: b).takeWhile (· < id) = a := by
  have hlt : ∀ n ∈ a, n < id := fun n hn =>
    (pairwise_append.mp h).2.2 n hn id mem_cons_self
  rw [takeWhile_append_of_pos (by simpa using hlt)]
  simp

/-- The first of a list's members that a run holds, when one is known to be. -/
theorem find_append_mem {a b : List NameId} {p : NameId → Bool} (h : p id = true) :
    (a ++ id :: b).find? p = (a ++ [id]).find? p := by
  rw [find?_append, find?_append, find?_cons_of_pos h, find?_cons_of_pos h]

section

variable {d : Doc} {owners : Owners}

/-- **Whether a position owns a document does not depend on what is
remembered**, and what is newly remembered is right. -/
theorem Scan.owns_eq (hs : scan.OwnersSound owners) (pos : ℕ) (hid : id ∈ scan.ids)
    (hd : scan.doc_of id = some d) :
    (scan.owns owners pos id d).1 = scan.owner pos id d
      ∧ ∀ first, (scan.owns owners pos id d).2 = some first → scan.firstName d = some first := by
  unfold owns owner
  by_cases hsorted : scan.sorted = true
  swap
  · rw [if_neg hsorted, if_neg hsorted]
    exact ⟨rfl, nofun⟩
  rw [if_pos hsorted, if_pos hsorted]
  obtain ⟨a, b, hnames⟩ := append_of_mem ((scan.mem_names hid).mpr hd)
  have hpair := scan.names_sorted d
  have hrun : scan.in_run id = true := in_run_iff.mpr hid
  have hfirst : scan.firstName d = (a ++ [id]).find? scan.in_run := by
    unfold firstName
    rw [hnames, find_append_mem hrun]
  rw [hnames] at hpair ⊢
  dsimp only
  rw [takeWhile_lt hpair, take_left' rfl]
  have hown : (!a.any scan.in_run) = decide (scan.firstName d = some id) := by
    rw [hfirst, find?_append, find?_cons_of_pos hrun]
    cases hfind : a.find? scan.in_run with
    | none =>
      have : a.any scan.in_run = false := by
        rw [any_eq_false]
        exact fun n hn => by simpa using find?_eq_none.mp hfind n hn
      simp [this]
    | some n =>
      have hmem := mem_of_find?_eq_some hfind
      have hany : a.any scan.in_run = true :=
        any_eq_true.mpr ⟨n, hmem, find?_some hfind⟩
      have hne : n ≠ id := by
        have := (pairwise_append.mp hpair).2.2 n hmem id mem_cons_self
        exact this.ne
      simp [hany, hne]
  split
  · exact ⟨hown, nofun⟩
  · have htake : (a ++ id :: b).take (a.length + 1) = a ++ [id] := by
      rw [take_append, take_of_length_le (Nat.le_succ _), Nat.add_sub_cancel_left]
      rfl
    split
    · rename_i first hremembered
      rw [hs d first hremembered]
      exact ⟨by simp, nofun⟩
    · rw [htake, ← hfirst]
      obtain ⟨n, hn⟩ : ∃ n, scan.firstName d = some n := by
        rw [hfirst, find?_append, find?_cons_of_pos hrun]
        cases a.find? scan.in_run with
        | none => exact ⟨id, rfl⟩
        | some n => exact ⟨n, rfl⟩
      rw [hn]
      refine ⟨by simp, fun first h => ?_⟩
      simpa using h

theorem Scan.OwnersSound.note (hs : scan.OwnersSound owners) {found : Option NameId}
    (h : ∀ first, found = some first → scan.firstName d = some first) :
    scan.OwnersSound (note owners d found) := by
  cases found with
  | none => exact hs
  | some first =>
    intro d' first' h'
    by_cases hd : d' = d
    · subst hd
      rw [Verify.note, Function.update_self] at h'
      cases h'
      exact h first rfl
    · rw [Verify.note, Function.update_of_ne hd] at h'
      exact hs d' first' h'

end

/-! ## First positions -/

/-- The first position of a document. -/
structure Scan.IsFirst (scan : Scan ε) (pos : ℕ) (d : Doc) : Prop where
  lt : pos < scan.ids.length
  doc : scan.doc_of (scan.id pos) = some d
  least : ∀ p < pos, scan.doc_of (scan.id p) ≠ some d

variable {pos : ℕ}

theorem Scan.id_mem (h : pos < scan.ids.length) : scan.id pos ∈ scan.ids := by
  unfold Scan.id
  rw [getElem?_eq_getElem h]
  exact getElem_mem h

theorem Scan.exists_first {d : Doc} (h : pos < scan.ids.length)
    (hd : scan.doc_of (scan.id pos) = some d) : ∃ p, p ≤ pos ∧ scan.IsFirst p d := by
  have hex : ∃ p, scan.doc_of (scan.id p) = some d := ⟨pos, hd⟩
  have hle : Nat.find hex ≤ pos := Nat.find_min' hex hd
  exact ⟨Nat.find hex, hle, lt_of_le_of_lt hle h, Nat.find_spec hex, fun p hp =>
    Nat.find_min hex hp⟩

/-- The table of first positions holds them. -/
theorem Scan.indexFrom_first {ids : List NameId} {found : (Doc → Option ℕ) × (Doc → Bool)}
    (hids : ids = scan.ids.drop pos)
    (hfound : ∀ d p, found.1 d = some p ↔ p < pos ∧ scan.IsFirst p d) (d : Doc) (p : ℕ) :
    (scan.indexFrom ids pos found).1 d = some p ↔ scan.IsFirst p d := by
  induction ids generalizing pos found with
  | nil =>
    have hlen : scan.ids.length ≤ pos := drop_eq_nil_iff.mp hids.symm
    show found.1 d = some p ↔ _
    rw [hfound]
    exact ⟨And.right, fun h => ⟨lt_of_lt_of_le h.lt hlen, h⟩⟩
  | cons id ids ih =>
    have hlt : pos < scan.ids.length := by
      by_contra hge
      rw [drop_of_length_le (Nat.le_of_not_lt hge)] at hids
      cases hids
    have hcons := drop_eq_getElem_cons hlt
    rw [← hids] at hcons
    obtain ⟨hid, hrest⟩ := List.cons.inj hcons
    have hidpos : scan.id pos = id := by
      unfold Scan.id
      rw [getElem?_eq_getElem hlt, hid]
      rfl
    -- a position before the next is before this one, or is this one
    have hstep : ∀ {d p}, p < pos + 1 ∧ scan.IsFirst p d ↔
        (p < pos ∧ scan.IsFirst p d) ∨ (p = pos ∧ scan.IsFirst pos d) := by
      intro d p
      constructor
      · rintro ⟨hp, hf⟩
        rcases Nat.lt_succ_iff_lt_or_eq.mp hp with hp | rfl
        · exact .inl ⟨hp, hf⟩
        · exact .inr ⟨rfl, hf⟩
      · rintro (⟨hp, hf⟩ | ⟨rfl, hf⟩)
        · exact ⟨Nat.lt_succ_of_lt hp, hf⟩
        · exact ⟨Nat.lt_succ_self _, hf⟩
    unfold indexFrom
    split
    · rename_i hnone
      refine ih hrest fun d p => ?_
      rw [hstep, hfound]
      refine ⟨.inl, fun h => h.resolve_right ?_⟩
      rintro ⟨rfl, hf⟩
      have := hf.doc
      rw [hidpos, hnone] at this
      cases this
    · rename_i d₀ hd₀
      split
      · rename_i hfirst
        refine ih hrest fun d p => ?_
        rw [hstep]
        dsimp only at hfound hfirst ⊢
        by_cases hd : d = d₀
        · subst hd
          rw [Function.update_self]
          have hnot : ∀ q, ¬ (q < pos ∧ scan.IsFirst q d) := by
            intro q hq
            rw [(hfound d q).mpr hq] at hfirst
            cases hfirst
          have hpos : scan.IsFirst pos d := by
            refine ⟨hlt, hidpos.symm ▸ hd₀, fun q hq hdoc => ?_⟩
            obtain ⟨q', hle, hf⟩ := Scan.exists_first (lt_trans hq hlt) hdoc
            exact hnot q' ⟨lt_of_le_of_lt hle hq, hf⟩
          constructor
          · intro h
            cases h
            exact .inr ⟨rfl, hpos⟩
          · rintro (h | ⟨rfl, -⟩)
            · exact absurd h (hnot p)
            · rfl
        · rw [Function.update_of_ne hd, hfound]
          refine ⟨.inl, fun h => h.resolve_right ?_⟩
          rintro ⟨rfl, hf⟩
          have := hf.doc
          rw [hidpos, hd₀] at this
          exact hd (Option.some.inj this).symm
      · rename_i q hfirst
        refine ih hrest fun d p => ?_
        rw [hstep]
        dsimp only at hfound hfirst ⊢
        rw [hfound]
        refine ⟨.inl, fun h => h.resolve_right ?_⟩
        rintro ⟨rfl, hf⟩
        have hdoc := hf.doc
        rw [hidpos, hd₀] at hdoc
        cases hdoc
        obtain ⟨hq, hqf⟩ := (hfound d₀ q).mp hfirst
        exact hf.least q hq hqf.doc

theorem Scan.index_first (d : Doc) (p : ℕ) : scan.index.1 d = some p ↔ scan.IsFirst p d := by
  unfold index
  refine Scan.indexFrom_first (drop_zero (l := scan.ids)).symm ?_ d p
  intro d p
  exact ⟨fun h => (by cases h), fun h => absurd h.1 (not_lt_zero)⟩

/-- **An owner has the name of its document's first position.** -/
theorem Scan.owner_name {d : Doc} (h : pos < scan.ids.length)
    (hd : scan.doc_of (scan.id pos) = some d) (hown : scan.owner pos (scan.id pos) d = true) {p : ℕ}
    (hp : scan.IsFirst p d) : scan.id p = scan.id pos := by
  unfold owner at hown
  split at hown
  · rename_i hsorted
    have hfirst : scan.firstName d = some (scan.id pos) := of_decide_eq_true hown
    have hle : p ≤ pos := by
      by_contra hgt
      exact hp.least pos (Nat.lt_of_not_le hgt) hd
    -- in ascending order, the first position's name is no greater
    have hnameLe : scan.id p ≤ scan.id pos := by
      rcases Nat.eq_or_lt_of_le hle with rfl | hlt
      · exact le_rfl
      · have hpair : scan.ids.Pairwise (· ≤ ·) := of_decide_eq_true hsorted
        have := pairwise_iff_getElem.mp hpair p pos hp.lt h hlt
        unfold Scan.id
        rw [getElem?_eq_getElem hp.lt, getElem?_eq_getElem h]
        exact this
    -- and no less, since the least name in the run is this one
    refine le_antisymm hnameLe (Nat.le_of_not_lt fun hlt => ?_)
    have hmem : scan.id p ∈ scan.names d := (scan.mem_names (scan.id_mem hp.lt)).mpr hp.doc
    obtain ⟨a, b, hnames⟩ := append_of_mem
      ((scan.mem_names (scan.id_mem h)).mpr hd)
    have hpair := scan.names_sorted d
    rw [hnames] at hpair hmem
    have hin : scan.id p ∈ a := by
      rcases mem_append.mp hmem with hin | hin
      · exact hin
      · rcases mem_cons.mp hin with heq | hin
        · exact absurd hlt (heq ▸ lt_irrefl _)
        · have := (pairwise_cons.mp (pairwise_append.mp hpair).2.1).1 _ hin
          exact absurd hlt (lt_asymm this)
    have hrun : scan.in_run (scan.id p) = true := in_run_iff.mpr (scan.id_mem hp.lt)
    unfold firstName at hfirst
    rw [hnames, find?_append] at hfirst
    cases hfind : a.find? scan.in_run with
    | none => exact absurd hrun (find?_eq_none.mp hfind _ hin)
    | some n =>
      rw [hfind] at hfirst
      cases hfirst
      have := (pairwise_append.mp hpair).2.2 _ (mem_of_find?_eq_some hfind) _
        mem_cons_self
      exact absurd this (lt_irrefl _)
  · have hindex : scan.index.1 d = some pos := of_decide_eq_true hown
    have hpos : scan.IsFirst pos d := (Scan.index_first d pos).mp hindex
    rcases lt_trichotomy p pos with hlt | rfl | hlt
    · exact absurd hp.doc (hpos.least p hlt)
    · rfl
    · exact absurd hd (hp.least pos hlt)

/-- The first position of a document owns it. -/
theorem Scan.IsFirst.owner {p : ℕ} {d : Doc} (hp : scan.IsFirst p d) :
    scan.owner p (scan.id p) d = true := by
  unfold Scan.owner
  split
  · rename_i hsorted
    rw [decide_eq_true_iff]
    obtain ⟨a, b, hnames⟩ := append_of_mem
      ((scan.mem_names (scan.id_mem hp.lt)).mpr hp.doc)
    have hpair := scan.names_sorted d
    have hrun : scan.in_run (scan.id p) = true := Scan.in_run_iff.mpr (scan.id_mem hp.lt)
    unfold Scan.firstName
    rw [hnames] at hpair ⊢
    rw [find_append_mem hrun, find?_append, find?_cons_of_pos hrun]
    -- an earlier name in the run would stand before the first position
    have hnone : a.find? scan.in_run = none := by
      rw [find?_eq_none]
      intro n hn hin
      have hnlt : n < scan.id p := (pairwise_append.mp hpair).2.2 n hn _ mem_cons_self
      have hmem := Scan.in_run_iff.mp hin
      have hdoc : scan.doc_of n = some d := by
        refine (scan.mem_names hmem).mp ?_
        rw [hnames]
        exact mem_append_left _ hn
      obtain ⟨q, hq, hqn⟩ := getElem_of_mem hmem
      have hid : scan.id q = n := by
        unfold Scan.id
        rw [getElem?_eq_getElem hq, hqn]
        rfl
      have hge : p ≤ q := by
        by_contra hlt
        exact hp.least q (Nat.lt_of_not_le hlt) (hid.symm ▸ hdoc)
      rcases Nat.eq_or_lt_of_le hge with rfl | hlt
      · exact absurd hnlt (hid ▸ lt_irrefl _)
      · have hsort : scan.ids.Pairwise (· ≤ ·) := of_decide_eq_true hsorted
        have hle := pairwise_iff_getElem.mp hsort p q hp.lt hq hlt
        have : scan.id p ≤ n := by
          unfold Scan.id
          rw [getElem?_eq_getElem hp.lt, ← hqn]
          exact hle
        exact absurd hnlt (Nat.not_lt.mpr this)
    rw [hnone]
    rfl
  · rw [decide_eq_true_iff]
    exact (Scan.index_first d p).mpr hp

end Ferret.Verify
