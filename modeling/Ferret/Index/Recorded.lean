import Ferret.Index.Postings
import Ferret.Lib.Drain
import Ferret.Lib.Tiles

/-!
# Postings with fingerprint records

A segment written with fingerprints answers for a term with a dictionary hit
and with the documents recorded under the term's fingerprint, which are
candidates only. The cursor asks the dictionary's list, which keeps a position,
and looks the recorded documents up afresh at every target; so does it an
inlined document.

Walked forwards it answers with the least document of both,
`Postings.Cursor.forward`. Asked again for a target below the document it
stands on, it stays there exactly when no document it looks up afresh lies
between the two.
-/

namespace Ferret

open List

/-- A list's cursor that has answered that it is spent has nothing left. -/
def Intpack.Spent (P : Intpack) (remaining : P.SortedCursor → List ℕ) : Prop :=
  ∀ c t, (remaining c).Pairwise (· < ·) → (P.next_geq c t).1 = none →
    remaining (P.next_geq c t).2 = []

theorem Intpack.plain_spent : plain.Spent id := fun _ _ _ hnone =>
  head?_eq_none_iff.mp hnone

/-- A part's dictionary hit alone. -/
def Part.exact (part : Part) : Part := { part with maybe := [] }

@[simp] theorem Part.exact_hit (part : Part) : part.exact.hit = part.hit := rfl

/-- The documents a part looks up afresh at every target. -/
def Part.afresh (part : Part) : List ℕ :=
  match part.hit with
  | some (.single doc) => doc :: part.maybe
  | _ => part.maybe

namespace Postings

variable {P : Intpack} {remaining : P.SortedCursor → List ℕ}

/-- A part over the range `[floor, last]`, and the list cursor in it. -/
structure RecordedOk (remaining : P.SortedCursor → List ℕ) (floor : ℕ) (part : Part)
    (inner : Option (PostingCursor P)) : Prop where
  exact : PartOk remaining floor part.exact inner
  sorted : part.maybe.Pairwise (· < ·)
  within : ∀ d ∈ part.maybe, floor ≤ d ∧ d ≤ part.last

/-- The parts from one on, in ascending ranges. -/
def AllRecordedOk (remaining : P.SortedCursor → List ℕ) :
    ℕ → List Part → Option (PostingCursor P) → Prop
  | _, [], _ => True
  | floor, part :: rest, inner =>
    RecordedOk remaining floor part inner ∧ AllRecordedOk remaining (part.last + 1) rest none

/-- What is listed is certain, what is only recorded is not. -/
def mixed (listed recorded : List ℕ) (d : ℕ) : Option Certainty :=
  if d ∈ listed then some .yes else if d ∈ recorded then some .maybe else none

/-- What the parts from one on have left. -/
def partsView (remaining : P.SortedCursor → List ℕ) (parts : List Part)
    (inner : Option (PostingCursor P)) : ℕ → Option Certainty :=
  mixed (aheadParts remaining parts inner) (parts.flatMap Part.maybe)

variable {listed recorded xs : List ℕ} {d e floor : ℕ} {c : Cursor P} {part : Part}
  {inner : Option (PostingCursor P)}

theorem mixed_eq_none : mixed listed recorded d = none ↔ d ∉ listed ∧ d ∉ recorded := by
  unfold mixed
  split_ifs with h₁ h₂ <;> simp [*]

theorem mixed_ne_none : mixed listed recorded d ≠ none ↔ d ∈ listed ∨ d ∈ recorded := by
  rw [Ne, mixed_eq_none, ← not_or, not_not]

/-- The answer of one part: the smaller of a listed and a recorded document, and
the listed one of two equal ones. -/
def better : Option ℕ → Option ℕ → Option (ℕ × Certainty)
  | some yes, some maybe => if maybe < yes then some (maybe, .maybe) else some (yes, .yes)
  | some yes, none => some (yes, .yes)
  | none, some maybe => some (maybe, .maybe)
  | none, none => none

theorem better_le {yes : ℕ} {maybe : Option ℕ} {c : Certainty}
    (h : better (some yes) maybe = some (d, c)) : d ≤ yes := by
  cases maybe with
  | none =>
    cases h
    exact le_rfl
  | some m =>
    simp only [better] at h
    split at h
    case isTrue hlt =>
      cases h
      exact hlt.le
    case isFalse =>
      cases h
      exact le_rfl

/-- The least of a sorted list from a target on. -/
def leastFrom (xs : List ℕ) (t : ℕ) : Option ℕ → Prop
  | none => ∀ x ∈ xs, x < t
  | some d => d ∈ xs ∧ t ≤ d ∧ ∀ x ∈ xs, t ≤ x → d ≤ x

theorem leastFrom_dropWhile (hxs : xs.Pairwise (· < ·)) (t : ℕ) :
    leastFrom xs t (xs.dropWhile (· < t)).head? := by
  induction xs with
  | nil => exact nofun
  | cons x xs ih =>
    obtain ⟨hx, hxs⟩ := pairwise_cons.mp hxs
    by_cases hlt : x < t
    · rw [dropWhile_cons_of_pos (by simpa using hlt)]
      have h := ih hxs
      cases hhead : (xs.dropWhile (· < t)).head? with
      | none =>
        rw [hhead] at h
        exact forall_mem_cons.mpr ⟨hlt, h⟩
      | some d =>
        rw [hhead] at h
        obtain ⟨hmem, hle, hleast⟩ := h
        exact ⟨.tail _ hmem, hle,
          forall_mem_cons.mpr ⟨fun hge => absurd hge (not_le.mpr hlt), hleast⟩⟩
    · rw [dropWhile_cons_of_neg (by simpa using hlt)]
      exact ⟨mem_cons_self, not_lt.mp hlt,
        forall_mem_cons.mpr ⟨fun _ => le_rfl, fun y hy _ => (hx y hy).le⟩⟩

/-- The first of a sorted list from a target on is the least one. -/
theorem leastFrom_find? (hxs : xs.Pairwise (· < ·)) (t : ℕ) :
    leastFrom xs t (xs.find? (t ≤ ·)) := by
  have h := leastFrom_dropWhile hxs t
  rwa [show (xs.dropWhile (· < t)).head? = xs.find? (t ≤ ·) from ?_] at h
  rw [← find?_not_eq_head?_dropWhile]
  congr 1
  funext x
  rw [← decide_not, decide_eq_decide, not_lt]

/-- The better of two least documents is the least of both lists. -/
theorem least_better {t : ℕ} {yes maybe : Option ℕ}
    (hyes : leastFrom listed t yes) (hmaybe : leastFrom recorded t maybe) :
    Seek.Least (mixed listed recorded) t (better yes maybe) := by
  have hbelow : ∀ {xs : List ℕ} {d e : ℕ}, leastFrom xs t (some d) → t ≤ e → e < d → e ∉ xs :=
    fun h he hlt hmem => absurd (h.2.2 _ hmem he) (not_le.mpr hlt)
  have hnone : ∀ {xs : List ℕ} {e : ℕ}, leastFrom xs t none → t ≤ e → e ∉ xs :=
    fun h he hmem => absurd (h _ hmem) (not_lt.mpr he)
  match yes, maybe with
  | none, none => exact fun e he => mixed_eq_none.mpr ⟨hnone hyes he, hnone hmaybe he⟩
  | some y, none =>
    exact ⟨hyes.2.1, if_pos hyes.1,
      fun e he hlt => mixed_eq_none.mpr ⟨hbelow hyes he hlt, hnone hmaybe he⟩⟩
  | none, some m =>
    refine ⟨hmaybe.2.1, ?_,
      fun e he hlt => mixed_eq_none.mpr ⟨hnone hyes he, hbelow hmaybe he hlt⟩⟩
    rw [mixed, if_neg (hnone hyes hmaybe.2.1), if_pos hmaybe.1]
  | some y, some m =>
    by_cases hlt : m < y
    · rw [better, if_pos hlt]
      refine ⟨hmaybe.2.1, ?_, fun e he hem => mixed_eq_none.mpr
        ⟨hbelow hyes he (hem.trans hlt), hbelow hmaybe he hem⟩⟩
      rw [mixed, if_neg (hbelow hyes hmaybe.2.1 hlt), if_pos hmaybe.1]
    · rw [better, if_neg hlt]
      exact ⟨hyes.2.1, if_pos hyes.1, fun e he hey => mixed_eq_none.mpr
        ⟨hbelow hyes he hey, hbelow hmaybe he (lt_of_lt_of_le hey (not_lt.mp hlt))⟩⟩

/-! ## One part -/

theorem mem_dropWhile_lt (hxs : xs.Pairwise (· < ·)) {t : ℕ} :
    e ∈ xs.dropWhile (· < t) ↔ e ∈ xs ∧ t ≤ e := by
  rw [Span.dropWhile_eq_filter (hxs.imp fun hlt h => ?_), mem_filter, Bool.not_eq_true',
    decide_eq_false_iff_not, not_lt]
  exact decide_eq_true (hlt.trans (of_decide_eq_true h))

/-- A list that has nothing from the target on is left spent. -/
theorem findHit_spent (hP : P.Contract remaining) (hspent : P.Spent remaining) {list : PostingList}
    (h : PartOk remaining floor part inner) (hhit : part.hit = some (.postings list)) {target : ℕ}
    (hnone : (findHit part.hit inner target).1 = none) :
    ∃ c, (findHit part.hit inner target).2 = some c ∧ remaining c.inner = [] := by
  have hsorted := h.sorted
  rw [ahead_getD hP h hhit] at hsorted
  rw [hhit] at hnone ⊢
  simp only [findHit, PostingCursor.next_geq, Option.map_eq_none_iff] at hnone ⊢
  refine ⟨_, rfl, hspent _ _ ?_ hnone⟩
  exact (pairwise_map.mp hsorted).imp fun hab => Nat.lt_of_add_lt_add_right hab

/-- What a part answers with leaves its list at the documents from the target
on. -/
theorem findHit_recorded (hP : P.Contract remaining) (hspent : P.Spent remaining)
    (h : RecordedOk remaining floor part inner) (target : ℕ) :
    let q := findHit part.hit inner target
    leastFrom (aheadHit remaining part.hit inner) target q.1
      ∧ RecordedOk remaining floor part q.2
      ∧ (∀ e, target ≤ e → (e ∈ aheadHit remaining part.hit q.2
          ↔ e ∈ aheadHit remaining part.hit inner))
      ∧ ∀ e ∈ aheadHit remaining part.hit q.2, (∃ d, q.1 = some d ∧ d ≤ e) ∨ e ∈ part.afresh := by
  have hsorted : (aheadHit remaining part.hit inner).Pairwise (· < ·) := h.exact.sorted
  obtain ⟨hfst, hsnd⟩ := findHit_ok hP h.exact target
  simp only [Part.exact_hit] at hfst hsnd
  have hleast : leastFrom (aheadHit remaining part.hit inner) target
      (findHit part.hit inner target).1 := by
    have hdrop := leastFrom_dropWhile hsorted target
    rwa [← hfst] at hdrop
  refine ⟨hleast, ?_⟩
  cases hfound : (findHit part.hit inner target).1 with
  | some d =>
    obtain ⟨hok, hleft⟩ := hsnd (by rw [hfound]; exact Option.some_ne_none d)
    rw [hfound] at hleast
    refine ⟨⟨hok, h.sorted, h.within⟩, fun e he => ?_, fun e he => .inl ⟨d, rfl, ?_⟩⟩
    · rw [hleft, mem_dropWhile_lt hsorted, and_iff_left he]
    · rw [hleft, mem_dropWhile_lt hsorted] at he
      exact hleast.2.2 e he.1 he.2
  | none =>
    rw [hfound] at hleast
    -- an inlined document is looked up afresh, a list is left spent
    match hhit : part.hit with
    | none =>
      have hinner : (findHit (none : Option Hit) inner target).2 = inner := rfl
      rw [hinner]
      exact ⟨h, fun e _ => .rfl, nofun⟩
    | some (.single doc) =>
      have hinner : (findHit (some (.single doc)) inner target).2 = inner := rfl
      rw [hinner]
      refine ⟨h, fun e _ => .rfl, fun e he => .inr ?_⟩
      rw [Part.afresh, hhit, mem_singleton.mp he]
      exact mem_cons_self
    | some (.postings list) =>
      obtain ⟨c, hc, hempty⟩ := findHit_spent hP hspent h.exact hhit hfound
      rw [Part.exact_hit] at hc
      have hnil : aheadHit remaining part.hit (some c) = [] := by
        rw [hhit]
        show (remaining c.inner).map _ = []
        rw [hempty]
        rfl
      rw [← hhit, hc, hnil]
      refine ⟨⟨⟨h.exact.floor_le, h.exact.last_lt, rfl, ?_, ?_, nofun⟩,
        h.sorted, h.within⟩, fun e he => ?_, nofun⟩
      · rw [Part.exact_hit, hnil]
        exact .nil
      · rw [Part.exact_hit, hnil]
        exact nofun
      · exact iff_of_false not_mem_nil fun hmem => absurd (hleast e hmem) (not_lt.mpr he)

/-- The loop, with one part's answers joined. -/
theorem nextPart_cons (target : ℕ) (part : Part) (rest : List Part) (index : ℕ)
    (inner : Option (PostingCursor P)) :
    nextPart target (part :: rest) index inner
      = if target ≤ part.last then
          (better (findHit part.hit inner target).1 (part.maybe.find? (target ≤ ·))).elim
            (nextPart target rest (index + 1) none)
            fun a => (some a, index, (findHit part.hit inner target).2)
        else nextPart target rest (index + 1) none := by
  rw [nextPart]
  split
  case isFalse => rfl
  case isTrue =>
    generalize findHit part.hit inner target = q
    obtain ⟨found, _⟩ := q
    cases found with
    | none => cases part.maybe.find? (target ≤ ·) <;> rfl
    | some _ =>
      cases part.maybe.find? (target ≤ ·) with
      | none => rfl
      | some _ =>
        simp only [better]
        split <;> rfl

theorem mem_afresh : e ∈ part.afresh ↔ part.hit = some (.single e) ∨ e ∈ part.maybe := by
  unfold Part.afresh
  match part.hit with
  | none => simp
  | some (.postings _) => simp
  | some (.single doc) => simp [eq_comm]

/-! ## The loop over the parts -/

theorem AllRecordedOk.within {parts : List Part} (h : AllRecordedOk remaining floor parts inner)
    (he : e ∈ aheadParts remaining parts inner ∨ e ∈ parts.flatMap Part.maybe) :
    floor ≤ e ∧ e < docLimit := by
  induction parts generalizing floor inner with
  | nil => rcases he with he | he <;> cases he
  | cons _ _ ih =>
    obtain ⟨hpart, hrest⟩ := h
    have hfloor := hpart.exact.floor_le
    have hlast := hpart.exact.last_lt
    simp only [Part.exact] at hfloor hlast
    rw [aheadParts, mem_append, flatMap_cons, mem_append, or_or_or_comm] at he
    rcases he with (he | he) | he
    · have := hpart.exact.within e he
      simp only [Part.exact] at this
      omega
    · have := hpart.within e he
      omega
    · have := ih hrest he
      omega

/-- The view of a first part and those after it, up to the part's last document
and past it. -/
theorem partsView_cons {rest : List Part} (hpart : RecordedOk remaining floor part inner)
    (hrest : AllRecordedOk remaining (part.last + 1) rest none) (e : ℕ) :
    partsView remaining (part :: rest) inner e
      = if e ≤ part.last then mixed (aheadHit remaining part.hit inner) part.maybe e
        else partsView remaining rest none e := by
  have hlisted : e ∈ aheadHit remaining part.hit inner → e ≤ part.last := fun he =>
    (hpart.exact.within e he).2
  have hrecorded : e ∈ part.maybe → e ≤ part.last := fun he => (hpart.within e he).2
  have hafter : e ∈ aheadParts remaining rest none ∨ e ∈ rest.flatMap Part.maybe →
      ¬ e ≤ part.last := fun he hle => by
    have := (hrest.within he).1
    omega
  simp only [partsView, mixed, aheadParts, flatMap_cons, mem_append]
  by_cases hle : e ≤ part.last
  · have h₁ : e ∉ aheadParts remaining rest none := fun he => hafter (.inl he) hle
    have h₂ : e ∉ rest.flatMap Part.maybe := fun he => hafter (.inr he) hle
    simp only [h₁, h₂, or_false, hle, if_true]
  · have h₁ : e ∉ aheadHit remaining part.hit inner := fun he => hle (hlisted he)
    have h₂ : e ∉ part.maybe := fun he => hle (hrecorded he)
    simp only [h₁, h₂, false_or, hle, if_false]

/-- What the loop over the parts leaves: an answer from what they hold, parts
passed over for good, and in the part it stops at nothing below the answer but
what is looked up afresh. -/
structure Stops (remaining : P.SortedCursor → List ℕ) (target : ℕ) (parts : List Part)
    (inner : Option (PostingCursor P)) (answer : Option (ℕ × Certainty)) (k floor : ℕ)
    (inner' : Option (PostingCursor P)) : Prop where
  ok : AllRecordedOk remaining floor (parts.drop k) inner'
  passed : ∀ part ∈ parts.take k, part.last < floor
  least : Seek.Least (partsView remaining parts inner) target answer
  agree : Seek.AgreeFrom target (partsView remaining parts inner)
    (partsView remaining (parts.drop k) inner')
  afresh : ∀ d c, answer = some (d, c) → ∃ part rest, parts.drop k = part :: rest
    ∧ floor ≤ d ∧ d ≤ part.last
    ∧ ∀ e < d, partsView remaining (parts.drop k) inner' e ≠ none ↔ e ∈ part.afresh

theorem nextPart_recorded (hP : P.Contract remaining) (hspent : P.Spent remaining) (target : ℕ)
    {parts : List Part} (h : AllRecordedOk remaining floor parts inner) (index : ℕ) :
    let q := nextPart target parts index inner
    ∃ k floor', floor ≤ floor' ∧ q.2.1 = index + k
      ∧ Stops remaining target parts inner q.1 k floor' q.2.2 := by
  induction parts generalizing floor inner index with
  | nil =>
    exact ⟨0, floor, le_rfl, rfl, trivial, fun _ hmem => (by cases hmem), fun _ _ => rfl,
      Seek.AgreeFrom.refl _ _, fun _ _ hcon => (by cases hcon)⟩
  | cons part rest ih =>
    obtain ⟨hpart, hrest⟩ := h
    have hview := partsView_cons hpart hrest
    rw [nextPart_cons]
    -- the loop goes on once this part has nothing from the target on
    have hpass : (∀ e, target ≤ e → e ≤ part.last →
          mixed (aheadHit remaining part.hit inner) part.maybe e = none) →
        let q := nextPart target rest (index + 1) (none : Option (PostingCursor P))
        ∃ k floor', floor ≤ floor' ∧ q.2.1 = index + k
          ∧ Stops remaining target (part :: rest) inner q.1 k floor' q.2.2 := by
      intro hnothing
      have hsame : Seek.AgreeFrom target (partsView remaining (part :: rest) inner)
          (partsView remaining rest none) := by
        intro e he
        rw [hview]
        split
        case isFalse => rfl
        case isTrue hle =>
          rw [hnothing e he hle]
          refine mixed_eq_none.mpr ⟨fun hmem => ?_, fun hmem => ?_⟩
          · have := (hrest.within (.inl hmem)).1
            omega
          · have := (hrest.within (.inr hmem)).1
            omega
      obtain ⟨k, floor', _, hk, hstops⟩ := ih hrest (index + 1)
      have hle := hpart.exact.floor_le
      simp only [Part.exact] at hle
      refine ⟨k + 1, floor', by omega, by rw [hk]; omega, hstops.ok, ?_, ?_, ?_, hstops.afresh⟩
      · rw [take_succ_cons]
        exact forall_mem_cons.mpr ⟨by omega, hstops.passed⟩
      · exact hstops.least.congr fun e he => (hsame e he).symm
      · exact hsame.trans hstops.agree le_rfl
    obtain ⟨hleast, hok, hkept, hleft⟩ := findHit_recorded hP hspent hpart target
    have hmaybe := leastFrom_find? hpart.sorted target
    have hbest := least_better hleast hmaybe
    split
    case isFalse hlast => exact hpass fun e he hle => absurd (he.trans hle) hlast
    case isTrue hlast =>
      generalize findHit part.hit inner target = q at hleast hok hkept hleft hbest
      cases hbetter : better q.1 (part.maybe.find? (target ≤ ·)) with
      | none =>
        rw [hbetter] at hbest
        exact hpass fun e he _ => hbest e he
      | some a =>
        obtain ⟨d, c⟩ := a
        rw [hbetter] at hbest
        have hview' := partsView_cons hok hrest
        have hd : floor ≤ d ∧ d ≤ part.last := by
          have hmem := mixed_ne_none.mp (hbest.2.1 ▸ Option.some_ne_none c)
          exact hmem.elim (hpart.exact.within d) (hpart.within d)
        show ∃ k floor', floor ≤ floor' ∧ index = index + k
          ∧ Stops remaining target (part :: rest) inner (some (d, c)) k floor' q.2
        refine ⟨0, floor, le_rfl, rfl, ⟨hok, hrest⟩, fun _ hmem => (by cases hmem), ?_, ?_, ?_⟩
        · refine ⟨hbest.1, ?_, fun e he hlt => ?_⟩
          · rw [hview, if_pos hd.2]
            exact hbest.2.1
          · rw [hview, if_pos (hlt.le.trans hd.2)]
            exact hbest.2.2 e he hlt
        · intro e he
          rw [drop_zero, hview, hview']
          simp only [mixed, hkept e he]
        · rintro _ _ heq
          cases heq
          refine ⟨part, rest, rfl, hd.1, hd.2, fun e he => ?_⟩
          rw [drop_zero, hview', if_pos (he.le.trans hd.2), mixed_ne_none, mem_afresh]
          refine or_congr_left' fun hmem => ⟨fun hahead => ?_, fun hsingle => ?_⟩
          · rcases hleft e hahead with ⟨_, hyes, hle⟩ | hin
            · rw [hyes] at hbetter
              exact absurd (better_le hbetter) (not_le.mpr (lt_of_le_of_lt hle he))
            · exact (mem_afresh.mp hin).resolve_right hmem
          · rw [hsingle]
            exact mem_singleton_self e

/-! ## The cursor -/

/-- A cursor somewhere in its parts, none of which it has passed over in vain. -/
def Cursor.Recorded (remaining : P.SortedCursor → List ℕ) (c : Cursor P) : Prop :=
  ∃ floor, AllRecordedOk remaining floor (c.parts.drop c.index) c.inner
    ∧ ∀ part ∈ c.parts.take c.index, part.last < floor

/-- What a cursor has left. -/
def Cursor.mixedView (remaining : P.SortedCursor → List ℕ) (c : Cursor P) :
    ℕ → Option Certainty :=
  partsView remaining (c.parts.drop c.index) c.inner

/-- What is looked up afresh in the part a document falls in. -/
def afreshAt (parts : List Part) (d : ℕ) : List ℕ :=
  (parts.find? (d ≤ ·.last)).elim [] Part.afresh

/-- A cursor stands on a document: below it there is only what is looked up
afresh. -/
structure Cursor.Stands (remaining : P.SortedCursor → List ℕ) (c : Cursor P) (d : ℕ)
    (certainty : Certainty) : Prop where
  ok : c.Recorded remaining
  here : c.mixedView remaining d = some certainty
  below : ∀ e < d, c.mixedView remaining e ≠ none ↔ e ∈ afreshAt c.parts d

theorem afreshAt_eq {pre rest : List Part}
    (hpre : ∀ p ∈ pre, p.last < floor) (hfloor : floor ≤ d) (hlast : d ≤ part.last) :
    afreshAt (pre ++ part :: rest) d = part.afresh := by
  have hnone : pre.find? (d ≤ ·.last) = none := by
    refine find?_eq_none.mpr fun p hp hle => ?_
    have h₁ := hpre p hp
    have h₂ : d ≤ p.last := of_decide_eq_true hle
    omega
  rw [afreshAt, find?_append, hnone, Option.none_or, find?_cons_of_pos]
  · rfl
  · exact decide_eq_true hlast

theorem Cursor.next_geq_recorded (hP : P.Contract remaining) (hspent : P.Spent remaining)
    (hc : c.Recorded remaining) (target : ℕ) :
    (c.next_geq target).2.parts = c.parts
      ∧ (c.next_geq target).2.Recorded remaining
      ∧ Seek.Least (c.mixedView remaining) target (c.next_geq target).1
      ∧ Seek.AgreeFrom target (c.mixedView remaining) ((c.next_geq target).2.mixedView remaining)
      ∧ ∀ d certainty, (c.next_geq target).1 = some (d, certainty) →
        (c.next_geq target).2.Stands remaining d certainty := by
  obtain ⟨_, hparts, hpre⟩ := hc
  obtain ⟨k, floor', hfloor, hk, hstops⟩ := nextPart_recorded hP hspent target hparts c.index
  have hindex : (c.next_geq target).2.index = c.index + k := hk
  have hdrop : c.parts.drop (c.next_geq target).2.index = (c.parts.drop c.index).drop k := by
    rw [hindex, drop_drop]
  have hpassed : ∀ part ∈ c.parts.take (c.next_geq target).2.index, part.last < floor' := by
    rw [hindex, take_add]
    intro part hmem
    rcases mem_append.mp hmem with hmem | hmem
    · exact lt_of_lt_of_le (hpre part hmem) hfloor
    · exact hstops.passed part hmem
  have hview : (c.next_geq target).2.mixedView remaining
      = partsView remaining ((c.parts.drop c.index).drop k) (c.next_geq target).2.inner :=
    congrArg (partsView remaining · _) hdrop
  have hok : (c.next_geq target).2.Recorded remaining := ⟨floor', hdrop ▸ hstops.ok, hpassed⟩
  have hagree : Seek.AgreeFrom target (c.mixedView remaining)
      ((c.next_geq target).2.mixedView remaining) := by
    rw [hview]
    exact hstops.agree
  refine ⟨rfl, hok, hstops.least, hagree, fun d certainty hanswer => ⟨hok, ?_, ?_⟩⟩
  · have hleast : Seek.Least (c.mixedView remaining) target (some (d, certainty)) :=
      hanswer ▸ hstops.least
    rw [hagree d hleast.1]
    exact hleast.2.1
  · obtain ⟨part, rest, heq, hfloor, hlast, hbelow⟩ := hstops.afresh d certainty hanswer
    have hsplit : c.parts = c.parts.take (c.next_geq target).2.index ++ part :: rest := by
      rw [← heq, ← hdrop, take_append_drop]
    have hafresh : afreshAt c.parts d = part.afresh := by
      rw [hsplit]
      exact afreshAt_eq hpassed hfloor hlast
    rw [hview]
    intro e he
    exact (hbelow e he).trans (by rw [← hafresh]; rfl)

/-- **Walked forwards, a postings cursor answers from its lists and records.** -/
theorem Cursor.forward (hP : P.Contract remaining) (hspent : P.Spent remaining) :
    Seek.Forward (Cursor.next_geq (P := P)) (Cursor.Recorded remaining)
      (Cursor.mixedView remaining) where
  keeps := fun _ t hc => (Cursor.next_geq_recorded hP hspent hc t).2.1
  least := fun _ t hc => (Cursor.next_geq_recorded hP hspent hc t).2.2.1
  agree := fun _ t hc => (Cursor.next_geq_recorded hP hspent hc t).2.2.2.1

/-- A postings cursor answers at or past its target. -/
theorem Cursor.advances (hP : P.Contract remaining) (hspent : P.Spent remaining) :
    Seek.Advances docLimit (Cursor.next_geq (P := P)) (Cursor.Recorded remaining) where
  keeps := fun _ t hc => (Cursor.next_geq_recorded hP hspent hc t).2.1
  answer := fun c t d certainty hc hanswer => by
    obtain ⟨-, -, hleast, -⟩ := Cursor.next_geq_recorded hP hspent hc t
    rw [hanswer] at hleast
    obtain ⟨_, hparts, -⟩ := hc
    have hmem := mixed_ne_none.mp (hleast.2.1 ▸ Option.some_ne_none certainty)
    exact ⟨hleast.1, (hparts.within hmem).2⟩

/-- Asked for a target not past it, a cursor stays where it stands exactly when
nothing looked up afresh lies between. -/
theorem Cursor.Stands.next_geq_eq_iff (hP : P.Contract remaining) (hspent : P.Spent remaining)
    {certainty : Certainty} (h : c.Stands remaining d certainty)
    {target : ℕ} (htarget : target ≤ d) :
    (c.next_geq target).1 = some (d, certainty)
      ↔ ∀ e ∈ afreshAt c.parts d, target ≤ e → d ≤ e := by
  obtain ⟨-, -, hleast, -, -⟩ := Cursor.next_geq_recorded hP hspent h.ok target
  constructor
  · intro hanswer e he htarget
    rw [hanswer] at hleast
    by_contra hlt
    exact (h.below e (not_le.mp hlt)).mpr he (hleast.2.2 e htarget (not_le.mp hlt))
  · intro hclear
    refine hleast.unique ⟨htarget, h.here, fun e he hlt => ?_⟩
    by_contra hne
    exact absurd (hclear e ((h.below e hlt).mp hne) he) (not_le.mpr hlt)

theorem Cursor.Stands.run_eq_iff (hP : P.Contract remaining) (hspent : P.Spent remaining)
    {certainty : Certainty} (h : c.Stands remaining d certainty)
    {lower : List ℕ} (hlower : ∀ t ∈ lower, t ≤ d) :
    Seek.run Cursor.next_geq c lower = lower.map (fun _ => some (d, certainty))
      ↔ ∀ t ∈ lower, ∀ e ∈ afreshAt c.parts d, t ≤ e → d ≤ e := by
  induction lower generalizing c with
  | nil => exact iff_of_true rfl nofun
  | cons t _ ih =>
    obtain ⟨ht, hts⟩ := forall_mem_cons.mp hlower
    rw [Seek.run, map_cons, List.cons.injEq, h.next_geq_eq_iff hP hspent ht, forall_mem_cons]
    refine and_congr_right fun hclear => ?_
    obtain ⟨hparts, -, -, -, hstands⟩ := Cursor.next_geq_recorded hP hspent h.ok t
    rw [ih (hstands d certainty ((h.next_geq_eq_iff hP hspent ht).mpr hclear)) hts, hparts]

end Postings

/-! ## Terms -/

/-- A part over the range `[floor, last]`, as read from one segment. -/
structure Part.Recorded (P : Intpack) (floor : ℕ) (part : Part) : Prop where
  exact : part.exact.Dictionary P floor
  sorted : part.maybe.Pairwise (· < ·)
  within : ∀ d ∈ part.maybe, floor ≤ d ∧ d ≤ part.last

/-- Parts in disjoint, ascending ranges from `floor` on. -/
def AllRecorded (P : Intpack) : ℕ → List Part → Prop
  | _, [] => True
  | floor, part :: rest => part.Recorded P floor ∧ AllRecorded P (part.last + 1) rest

/-- **One term's documents** in every segment that has it or records of it. -/
structure Candidates (P : Intpack) where
  parts : List Part
  ok : AllRecorded P 0 parts

namespace Candidates

variable {P : Intpack} {remaining : P.SortedCursor → List ℕ}

/-- A cursor before the first document. -/
def cursor (term : Candidates P) : Postings.Cursor P where
  parts := term.parts
  index := 0
  inner := none

/-- The documents of the lists, and those of the fingerprint records. -/
def listed (term : Candidates P) : List ℕ := term.parts.flatMap (Part.docs P)

def recorded (term : Candidates P) : List ℕ := term.parts.flatMap Part.maybe

/-- **The certainty of a document**: it is in a list, or recorded only. -/
def certainty (term : Candidates P) : ℕ → Option Certainty :=
  Postings.mixed term.listed term.recorded

theorem allRecordedOk (hP : P.Contract remaining) {floor : ℕ} {parts : List Part}
    (h : AllRecorded P floor parts) : Postings.AllRecordedOk remaining floor parts none := by
  induction parts generalizing floor with
  | nil => trivial
  | cons _ _ ih =>
    obtain ⟨⟨hexact, hsorted, hwithin⟩, hrest⟩ := h
    exact ⟨⟨hexact.partOk hP, hsorted, hwithin⟩, ih hrest⟩

theorem mixedView_cursor (term : Candidates P) :
    term.cursor.mixedView remaining = term.certainty := by
  unfold Postings.Cursor.mixedView Postings.partsView
  rw [show term.cursor.parts.drop term.cursor.index = term.parts from rfl,
    show term.cursor.inner = none from rfl, aheadParts_none]
  rfl

theorem cursor_recorded (hP : P.Contract remaining) (term : Candidates P) :
    term.cursor.Recorded remaining :=
  ⟨0, allRecordedOk hP term.ok, nofun⟩

/-- Wherever a walk has left a cursor, it stands on its last answer. -/
theorem stands_after (hP : P.Contract remaining) (hspent : P.Spent remaining)
    (term : Candidates P) {targets : List ℕ} {d : ℕ} {c : Certainty}
    (hlast : (Seek.run Postings.Cursor.next_geq term.cursor targets).getLast?
      = some (some (d, c))) :
    (Seek.after Postings.Cursor.next_geq term.cursor targets).Stands remaining d c
      ∧ (Seek.after Postings.Cursor.next_geq term.cursor targets).parts = term.parts := by
  have hafter : ∀ ts : List ℕ,
      (Seek.after Postings.Cursor.next_geq term.cursor ts).Recorded remaining
        ∧ (Seek.after Postings.Cursor.next_geq term.cursor ts).parts = term.parts := by
    intro ts
    induction ts using List.reverseRecOn with
    | nil => exact ⟨cursor_recorded hP term, rfl⟩
    | append_singleton ts t ih =>
      rw [Seek.after_append]
      obtain ⟨hparts, hok, -⟩ := Postings.Cursor.next_geq_recorded hP hspent ih.1 t
      exact ⟨hok, hparts.trans ih.2⟩
  refine ⟨?_, (hafter targets).2⟩
  rcases eq_nil_or_concat targets with rfl | ⟨ts, t, rfl⟩
  · cases hlast
  · rw [concat_eq_append, Seek.run_append, getLast?_append] at hlast
    rw [concat_eq_append, Seek.after_append]
    obtain ⟨-, -, -, -, hstands⟩ := Postings.Cursor.next_geq_recorded hP hspent (hafter ts).1 t
    exact hstands d c (Option.some.inj hlast)

/-- **A cursor over lists and fingerprint records.** Walked with any
non-decreasing targets it answers each with the least document from it on that
is listed or recorded, certain when it is listed. Asked again for targets not
past its last answer it stays there exactly when no recorded and no inlined
document of that part lies between. -/
theorem next_geq_stays_iff (hP : P.Contract remaining) (hspent : P.Spent remaining)
    (term : Candidates P) {targets : List ℕ} (hsorted : targets.Pairwise (· ≤ ·)) :
    List.Forall₂ (Seek.Least term.certainty) targets
        (Seek.run Postings.Cursor.next_geq term.cursor targets)
      ∧ ∀ d c, (Seek.run Postings.Cursor.next_geq term.cursor targets).getLast?
          = some (some (d, c)) →
        ∀ lower : List ℕ, (∀ t ∈ lower, t ≤ d) →
          (Seek.run Postings.Cursor.next_geq
              (Seek.after Postings.Cursor.next_geq term.cursor targets) lower
            = lower.map (fun _ => some (d, c))
          ↔ ∀ t ∈ lower, ∀ e ∈ Postings.afreshAt term.parts d, t ≤ e → d ≤ e) := by
  refine ⟨?_, fun d c hlast lower hlower => ?_⟩
  · rw [← mixedView_cursor term]
    exact (Postings.Cursor.forward hP hspent).run_least (cursor_recorded hP term) hsorted
  · obtain ⟨hstands, hparts⟩ := stands_after hP hspent term hlast
    rw [← hparts]
    exact hstands.run_eq_iff hP hspent hlower

/-- A packed list of the documents `3` and `7`, with records of `5` and `7`. -/
def sampleRecorded : Candidates Intpack.plain where
  parts := [{
    last := 9
    hit := some (.postings
      { first := 1, df := 2, bytes := Intpack.plain.encode_sorted [2, 6], start := 0 })
    maybe := [5, 7] }]
  ok := by
    refine ⟨⟨⟨by decide, by decide, rfl, fun _ h => (by cases h), fun list h => ?_⟩,
      by decide, by decide⟩, trivial⟩
    cases h
    exact ⟨[2, 6], ⟨⟨by decide, by decide⟩, ⟨[], rfl⟩, rfl, by decide⟩, by decide⟩

theorem sampleRecorded_stays :
    Seek.run Postings.Cursor.next_geq sampleRecorded.cursor [0, 4]
        = [some (3, .yes), some (5, .maybe)]
      ∧ Seek.run Postings.Cursor.next_geq
          (Seek.after Postings.Cursor.next_geq sampleRecorded.cursor [0, 4]) [2, 5]
        = [some (5, .maybe), some (5, .maybe)] := by
  have hsorted : [0, 4].Pairwise (· ≤ ·) := by decide
  obtain ⟨-, hstays⟩ :=
    next_geq_stays_iff Intpack.plain_contract Intpack.plain_spent sampleRecorded hsorted
  exact ⟨rfl, (hstays 5 .maybe rfl [2, 5] (by decide)).mpr (by decide)⟩

/-- Records of `3` and `7`, and no list. -/
def sampleMaybe : Candidates Intpack.plain where
  parts := [{ last := 9, hit := none, maybe := [3, 7] }]
  ok := ⟨⟨⟨by decide, by decide, rfl, fun _ h => (by cases h), fun _ h => (by cases h)⟩,
    by decide, by decide⟩, trivial⟩

/-- The cursor goes back from `7`: asked for `2` it answers with `3`. -/
theorem next_geq_goes_back :
    Seek.run Postings.Cursor.next_geq sampleMaybe.cursor [5, 2]
      = [some (7, .maybe), some (3, .maybe)] := rfl

end Candidates

end Ferret
