import Ferret.Index.DocSet
import Ferret.Index.Intpack
import Ferret.Lib.Seek
import Mathlib.Data.List.TakeWhile

/-!
# One term's postings

A view's segments cover disjoint, ascending ranges of DocIds, so a term's
documents across them are a concatenation in segment order. `Postings.Cursor`
walks it: it skips a segment whose range ends below its target, and enters
the packed list of one that does not.

What a cursor still has ahead of it, `Cursor.ahead`, is a sorted list, and a
step of the cursor drops from it the documents below the target, no more and
no less; that is `Cursor.ahead_next_geq`, from which the cursor's contract
follows. This holds of terms that are in dictionaries alone: the documents
of fingerprint records are looked up afresh at every target, so a cursor over
those does not stay where it stands.
-/

namespace Ferret

open List

/-- How sure a source is that a document it yields holds the atom. -/
inductive Certainty
  | maybe
  | yes
deriving DecidableEq

namespace Certainty

/-- `maybe` is below `yes`. -/
def toNat : Certainty → ℕ
  | maybe => 0
  | yes => 1

instance : LinearOrder Certainty :=
  LinearOrder.lift' toNat fun a b => by cases a <;> cases b <;> simp [toNat]

end Certainty

/-- One postings list, read and verified: the list is `bytes[start..]`. -/
structure PostingList where
  first : ℕ
  df : ℕ
  bytes : List UInt8
  start : ℕ
deriving DecidableEq

/-- A term's documents in one segment. -/
inductive Hit
  | single (doc : ℕ)
  | postings (list : PostingList)
deriving DecidableEq

/-- The term's documents in one segment, whose last DocId is `last`. -/
structure Part where
  last : ℕ
  hit : Option Hit
  maybe : List ℕ
deriving DecidableEq

/-- A position in one list. -/
structure PostingCursor (P : Intpack) where
  inner : P.SortedCursor
  first : ℕ

section

variable (P : Intpack)

/-- A cursor before the first document. -/
def PostingList.cursor (list : PostingList) : PostingCursor P where
  inner := P.new list.df (list.bytes.drop list.start)
  first := list.first

/-- Every document of a list. -/
def PostingList.decode (list : PostingList) : List ℕ :=
  (P.decode_sorted list.df (list.bytes.drop list.start)).map fun doc =>
    (doc + list.first) % docLimit

/-- The smallest document `>= target` at or after the current one. -/
def PostingCursor.next_geq {P : Intpack} (c : PostingCursor P) (target : ℕ) :
    Option ℕ × PostingCursor P :=
  match P.next_geq c.inner (target - c.first) with
  | (found, inner) => (found.map fun doc => (doc + c.first) % docLimit, { c with inner := inner })

namespace Postings

/-- Ascending DocIds of one term. -/
structure Cursor where
  parts : List Part
  /-- The part the cursor is in. -/
  index : ℕ
  /-- The list cursor of that part, once entered. -/
  inner : Option (PostingCursor P)

variable {P}

/-- The dictionary's answer in one part, and the list cursor it leaves. -/
def findHit (hit : Option Hit) (inner : Option (PostingCursor P)) (target : ℕ) :
    Option ℕ × Option (PostingCursor P) :=
  match hit with
  | some (.single doc) => (if target ≤ doc then some doc else none, inner)
  | some (.postings list) =>
    match (inner.getD (list.cursor P)).next_geq target with
    | (found, cursor) => (found, some cursor)
  | none => (none, inner)

/-- The loop over the parts from the one the cursor is in. -/
def nextPart (target : ℕ) : List Part → ℕ → Option (PostingCursor P) →
    Option (ℕ × Certainty) × ℕ × Option (PostingCursor P)
  | [], index, inner => (none, index, inner)
  | part :: rest, index, inner =>
    if target ≤ part.last then
      match findHit part.hit inner target, part.maybe.find? (target ≤ ·) with
      | (some yes, inner'), some maybe =>
        if maybe < yes then (some (maybe, .maybe), index, inner')
        else (some (yes, .yes), index, inner')
      | (some yes, inner'), none => (some (yes, .yes), index, inner')
      | (none, inner'), some maybe => (some (maybe, .maybe), index, inner')
      | (none, _), none => nextPart target rest (index + 1) none
    else nextPart target rest (index + 1) none

/-- The smallest document `>= target` at or after the current one. -/
def Cursor.next_geq (c : Cursor P) (target : ℕ) : Option (ℕ × Certainty) × Cursor P :=
  match nextPart target (c.parts.drop c.index) c.index c.inner with
  | (found, index, inner) => (found, { c with index := index, inner := inner })

/-! ## What a cursor has ahead of it -/

variable {remaining : P.SortedCursor → List ℕ}

/-- The documents of one part that the dictionary has left. -/
def aheadHit (remaining : P.SortedCursor → List ℕ) :
    Option Hit → Option (PostingCursor P) → List ℕ
  | none, _ => []
  | some (.single doc), _ => [doc]
  | some (.postings list), none => list.decode P
  | some (.postings _), some c => (remaining c.inner).map (· + c.first)

/-- The documents of the parts from one on. -/
def aheadParts (remaining : P.SortedCursor → List ℕ) :
    List Part → Option (PostingCursor P) → List ℕ
  | [], _ => []
  | part :: rest, inner => aheadHit remaining part.hit inner ++ aheadParts remaining rest none

/-- A list holds the packed values `xs`, relative to its segment's first
DocId. -/
structure Packed (P : Intpack) (list : PostingList) (xs : List ℕ) : Prop where
  packable : Intpack.Packable xs
  bytes_eq : ∃ tail, list.bytes.drop list.start = P.encode_sorted xs ++ tail
  df_eq : list.df = xs.length
  fits : ∀ x ∈ xs, x + list.first < docLimit

/-- A part over the range `[floor, last]` whose dictionary documents are its
only ones, and the list cursor in it. -/
structure PartOk (remaining : P.SortedCursor → List ℕ) (floor : ℕ) (part : Part)
    (inner : Option (PostingCursor P)) : Prop where
  floor_le : floor ≤ part.last
  last_lt : part.last < docLimit
  maybe_eq : part.maybe = []
  sorted : (aheadHit remaining part.hit inner).Pairwise (· < ·)
  within : ∀ d ∈ aheadHit remaining part.hit inner, floor ≤ d ∧ d ≤ part.last
  packed : ∀ list, part.hit = some (.postings list) → inner = none → ∃ xs, Packed P list xs

/-- The parts from one on, in ascending ranges. -/
def PartsOk (remaining : P.SortedCursor → List ℕ) :
    ℕ → List Part → Option (PostingCursor P) → Prop
  | _, [], _ => True
  | floor, part :: rest, inner =>
    PartOk remaining floor part inner ∧ PartsOk remaining (part.last + 1) rest none

theorem dropWhile_map_add (xs : List ℕ) (a t : ℕ) :
    (xs.map (· + a)).dropWhile (· < t) = (xs.dropWhile (· < t - a)).map (· + a) := by
  rw [dropWhile_map]
  congr 2
  funext x
  simp only [Function.comp_apply, decide_eq_decide]
  omega

variable {xs : List ℕ} {floor : ℕ} {part : Part} {inner : Option (PostingCursor P)}

/-- A packed list decodes to what was packed, moved up to its segment. -/
theorem Packed.decode_eq (hP : P.Contract remaining) {list : PostingList}
    (h : Packed P list xs) : list.decode P = xs.map (· + list.first) := by
  obtain ⟨tail, htail⟩ := h.bytes_eq
  rw [PostingList.decode, htail, h.df_eq, hP.decode_encode xs tail h.packable]
  exact map_congr_left fun x hm => Nat.mod_eq_of_lt (h.fits x hm)

/-- The list cursor a part is read with has the part's documents. -/
theorem ahead_getD (hP : P.Contract remaining) {list : PostingList}
    (h : PartOk remaining floor part inner) (hhit : part.hit = some (.postings list)) :
    aheadHit remaining part.hit inner
      = (remaining (inner.getD (list.cursor P)).inner).map
          (· + (inner.getD (list.cursor P)).first) := by
  rw [hhit]
  cases inner with
  | some c => rfl
  | none =>
    obtain ⟨xs, hx⟩ := h.packed list hhit rfl
    obtain ⟨tail, htail⟩ := hx.bytes_eq
    show list.decode P = (remaining (P.new list.df (list.bytes.drop list.start))).map _
    rw [hx.decode_eq hP, htail, hx.df_eq, hP.remaining_new xs tail hx.packable]
    rfl

/-- What is left of a part's documents is still in order and in range. -/
theorem PartOk.leave {inner' : Option (PostingCursor P)}
    (h : PartOk remaining floor part inner) {target : ℕ} (hleft : aheadHit remaining part.hit inner'
      = (aheadHit remaining part.hit inner).dropWhile (· < target))
    (hinner : inner' = none → inner = none) : PartOk remaining floor part inner' where
  floor_le := h.floor_le
  last_lt := h.last_lt
  maybe_eq := h.maybe_eq
  sorted := hleft ▸ h.sorted.sublist (dropWhile_sublist _)
  within := fun d hd => h.within d ((dropWhile_sublist _).subset (hleft ▸ hd))
  packed := fun list hhit hnone => h.packed list hhit (hinner hnone)

/-- **One part answers with its least document from the target on**, and then
has dropped the documents below it. -/
theorem findHit_ok (hP : P.Contract remaining)
    (h : PartOk remaining floor part inner) (target : ℕ) :
    (findHit part.hit inner target).1
        = ((aheadHit remaining part.hit inner).dropWhile (· < target)).head?
      ∧ ((findHit part.hit inner target).1 ≠ none →
          PartOk remaining floor part (findHit part.hit inner target).2
          ∧ aheadHit remaining part.hit (findHit part.hit inner target).2
            = (aheadHit remaining part.hit inner).dropWhile (· < target)) := by
  match hhit : part.hit with
  | none => exact ⟨rfl, fun hne => absurd rfl hne⟩
  | some (.single doc) =>
    by_cases hle : target ≤ doc
    · have hlt : ¬ doc < target := not_lt.mpr hle
      have hkeep : [doc].dropWhile (· < target) = [doc] :=
        dropWhile_cons_of_neg (by simpa using hle)
      refine ⟨?_, fun _ => ⟨h, ?_⟩⟩
      · simp only [findHit, aheadHit, hkeep, hle, if_true, head?_cons]
      · simp only [aheadHit, hkeep]
    · have hdrop : [doc].dropWhile (· < target) = [] :=
        dropWhile_cons_of_pos (by simpa using hle)
      refine ⟨?_, fun hne => absurd ?_ hne⟩
      · simp only [findHit, aheadHit, hdrop, hle, if_false, head?_nil]
      · simp only [findHit, hle, if_false]
  | some (.postings list) =>
    have hahead := ahead_getD hP h hhit
    have hsorted := h.sorted
    have hwithin := h.within
    have hleave : ∀ inner', aheadHit remaining part.hit inner'
          = (aheadHit remaining part.hit inner).dropWhile (· < target) →
        (inner' = none → inner = none) → PartOk remaining floor part inner' :=
      fun inner' => h.leave
    rw [hhit] at hahead hsorted hwithin hleave
    rw [hahead] at hsorted hwithin hleave ⊢
    simp only [findHit, PostingCursor.next_geq]
    set c := inner.getD (list.cursor P)
    -- the list cursor is asked for the target relative to its segment
    have hrem : (remaining c.inner).Pairwise (· < ·) :=
      (pairwise_map.mp hsorted).imp fun hab => by omega
    have hfst := hP.next_geq_fst c.inner (target - c.first) hrem
    have hfits : ∀ x ∈ remaining c.inner, x + c.first < docLimit := fun x hx =>
      lt_of_le_of_lt (hwithin _ (mem_map_of_mem hx)).2 h.last_lt
    have hhead : (P.next_geq c.inner (target - c.first)).1.map (fun doc => (doc + c.first) % docLimit)
        = (((remaining c.inner).map (· + c.first)).dropWhile (· < target)).head? := by
      rw [hfst, dropWhile_map_add, head?_map]
      refine Option.map_congr fun x hx => Nat.mod_eq_of_lt (hfits x ?_)
      exact (dropWhile_sublist _).subset (mem_of_mem_head? hx)
    refine ⟨hhead, fun hne => ?_⟩
    obtain ⟨x, hx⟩ : ∃ x, (P.next_geq c.inner (target - c.first)).1 = some x := by
      cases hq : (P.next_geq c.inner (target - c.first)).1 with
      | none => exact absurd (by rw [hq]; rfl) hne
      | some x => exact ⟨x, rfl⟩
    have hleft : aheadHit remaining (some (.postings list))
          (some { c with inner := (P.next_geq c.inner (target - c.first)).2 })
        = ((remaining c.inner).map (· + c.first)).dropWhile (· < target) := by
      rw [dropWhile_map_add, ← hP.next_geq_snd c.inner _ x hrem hx]
      rfl
    exact ⟨hleave _ hleft nofun, hleft⟩

/-- A part that has nothing from the target on is passed over. -/
theorem dropWhile_append_of_spent (ys : List ℕ) {t : ℕ} (h : xs.dropWhile (· < t) = []) :
    (xs ++ ys).dropWhile (· < t) = ys.dropWhile (· < t) := by
  rw [dropWhile_append, h]
  rfl

theorem dropWhile_append_of_found (ys : List ℕ) {t : ℕ} (h : xs.dropWhile (· < t) ≠ []) :
    (xs ++ ys).dropWhile (· < t) = xs.dropWhile (· < t) ++ ys := by
  rw [dropWhile_append, if_neg (by simpa using h)]

/-- **The loop over the parts answers with the least document from the target
on**, and stops at a part with exactly the documents below it dropped. -/
theorem nextPart_ok (hP : P.Contract remaining) (target : ℕ) {parts : List Part}
    (h : PartsOk remaining floor parts inner) (index : ℕ) :
    let left := (aheadParts remaining parts inner).dropWhile (· < target)
    let q := nextPart target parts index inner
    q.1 = left.head?.map (·, .yes)
      ∧ ∃ k floor', q.2.1 = index + k ∧ PartsOk remaining floor' (parts.drop k) q.2.2
        ∧ aheadParts remaining (parts.drop k) q.2.2 = left := by
  induction parts generalizing floor inner index with
  | nil => exact ⟨rfl, 0, floor, rfl, trivial, rfl⟩
  | cons part rest ih =>
    obtain ⟨hpart, hrest⟩ := h
    obtain ⟨hfst, hsnd⟩ := findHit_ok hP hpart target
    -- what the loop does once this part has nothing from the target on
    have hpass : (aheadHit remaining part.hit inner).dropWhile (· < target) = [] →
        let left := (aheadParts remaining (part :: rest) inner).dropWhile (· < target)
        let q := nextPart target rest (index + 1) (none : Option (PostingCursor P))
        q.1 = left.head?.map (·, .yes)
          ∧ ∃ k floor', q.2.1 = index + k
            ∧ PartsOk remaining floor' ((part :: rest).drop k) q.2.2
            ∧ aheadParts remaining ((part :: rest).drop k) q.2.2 = left := by
      intro hspent
      rw [aheadParts, dropWhile_append_of_spent _ hspent]
      obtain ⟨hans, k, floor', _, hok, hleft⟩ := ih hrest (index + 1)
      exact ⟨hans, k + 1, floor', by omega, hok, hleft⟩
    unfold nextPart
    by_cases hlast : target ≤ part.last
    · simp only [hlast, if_true, hpart.maybe_eq, find?_nil]
      generalize findHit part.hit inner target = q at hfst hsnd
      obtain ⟨found, _⟩ := q
      cases found with
      | none => exact hpass (head?_eq_none_iff.mp hfst.symm)
      | some d =>
        obtain ⟨hok, hleft⟩ := hsnd (Option.some_ne_none d)
        have hne : (aheadHit remaining part.hit inner).dropWhile (· < target) ≠ [] := by
          intro hnil
          rw [hnil] at hfst
          cases hfst
        rw [aheadParts, dropWhile_append_of_found _ hne, head?_append, ← hfst]
        refine ⟨rfl, 0, floor, rfl, ⟨hok, hrest⟩, ?_⟩
        rw [drop_zero, aheadParts, hleft]
    · simp only [hlast, if_false]
      refine hpass (dropWhile_eq_nil_iff.2 fun d hd => ?_)
      have := (hpart.within d hd).2
      simpa using lt_of_le_of_lt this (not_le.mp hlast)

/-! ## The contract of a postings cursor -/

/-- A cursor over dictionary documents alone, somewhere in them. -/
def Cursor.Ok (remaining : P.SortedCursor → List ℕ) (c : Cursor P) : Prop :=
  ∃ floor, PartsOk remaining floor (c.parts.drop c.index) c.inner

/-- What a cursor has ahead of it. -/
def Cursor.ahead (remaining : P.SortedCursor → List ℕ) (c : Cursor P) : List ℕ :=
  aheadParts remaining (c.parts.drop c.index) c.inner

/-- What a cursor has ahead of it, as a view. -/
def Cursor.view (remaining : P.SortedCursor → List ℕ) (c : Cursor P) : ℕ → Option Certainty :=
  Seek.listView .yes (c.ahead remaining)

theorem aheadParts_ok {parts : List Part} (h : PartsOk remaining floor parts inner) :
    (aheadParts remaining parts inner).Pairwise (· < ·)
      ∧ ∀ d ∈ aheadParts remaining parts inner, floor ≤ d ∧ d < docLimit := by
  induction parts generalizing floor inner with
  | nil => exact ⟨.nil, nofun⟩
  | cons _ _ ih =>
    obtain ⟨hpart, hrest⟩ := h
    obtain ⟨hsorted, hwithin⟩ := ih hrest
    have hfloor := hpart.floor_le
    have hlast := hpart.last_lt
    refine ⟨pairwise_append.mpr ⟨hpart.sorted, hsorted, fun d hd e he => ?_⟩, fun d hd => ?_⟩
    · have h₁ := (hpart.within d hd).2
      have h₂ := (hwithin e he).1
      omega
    · rcases mem_append.mp hd with hd | hd
      · have := hpart.within d hd
        omega
      · have := hwithin d hd
        omega

/-- A step drops the documents below the target and answers with the first
one left. -/
theorem Cursor.ahead_next_geq (hP : P.Contract remaining) {c : Cursor P}
    (hc : c.Ok remaining) (target : ℕ) :
    (c.next_geq target).1 = ((c.ahead remaining).dropWhile (· < target)).head?.map (·, .yes)
      ∧ (c.next_geq target).2.Ok remaining
      ∧ (c.next_geq target).2.ahead remaining
        = (c.ahead remaining).dropWhile (· < target) := by
  obtain ⟨_, hfloor⟩ := hc
  obtain ⟨hans, k, floor', hk, hok, hleft⟩ := nextPart_ok hP target hfloor c.index
  rw [drop_drop, ← hk] at hok hleft
  exact ⟨hans, ⟨floor', hok⟩, hleft⟩

/-- **A postings cursor keeps the contract of a seekable cursor.** -/
theorem Cursor.lawful (hP : P.Contract remaining) :
    Seek.Lawful docLimit (Cursor.next_geq (P := P)) (Cursor.Ok remaining)
      (Cursor.view remaining) where
  bounded := fun c hc e he => by
    obtain ⟨floor, hfloor⟩ := hc
    exact if_neg fun hmem => absurd ((aheadParts_ok hfloor).2 e hmem).2 (not_lt.mpr he)
  keeps := fun c t hc => (Cursor.ahead_next_geq hP hc t).2.1
  ok := fun c t hc => by
    obtain ⟨hans, -, hleft⟩ := Cursor.ahead_next_geq hP hc t
    obtain ⟨floor, hfloor⟩ := hc
    rw [hans, Cursor.view, Cursor.view, hleft]
    exact Seek.stepOk_dropWhile Certainty.yes (aheadParts_ok hfloor).1 t

end Postings

/-! ## Terms -/

/-- The documents the dictionary of one segment has. -/
def Part.docs (P : Intpack) (part : Part) : List ℕ :=
  match part.hit with
  | none => []
  | some (.single doc) => [doc]
  | some (.postings list) => list.decode P

/-- A part over the range `[floor, last]` read from a dictionary without
fingerprints: an inlined document, or a packed list. -/
structure Part.Dictionary (P : Intpack) (floor : ℕ) (part : Part) : Prop where
  floor_le : floor ≤ part.last
  last_lt : part.last < docLimit
  maybe_eq : part.maybe = []
  single : ∀ doc, part.hit = some (.single doc) → floor ≤ doc ∧ doc ≤ part.last
  packed : ∀ list, part.hit = some (.postings list) → ∃ xs, Postings.Packed P list xs
    ∧ ∀ x ∈ xs, floor ≤ x + list.first ∧ x + list.first ≤ part.last

/-- Parts in disjoint, ascending ranges from `floor` on. -/
def Dictionary (P : Intpack) : ℕ → List Part → Prop
  | _, [] => True
  | floor, part :: rest => part.Dictionary P floor ∧ Dictionary P (part.last + 1) rest

/-- **One term's documents** in every segment that holds it, in range order. -/
structure Term (P : Intpack) where
  parts : List Part
  ok : Dictionary P 0 parts

variable {P : Intpack}

/-- A cursor before the first document. -/
def Term.cursor (term : Term P) : Postings.Cursor P where
  parts := term.parts
  index := 0
  inner := none

/-- The documents of a term. -/
def Term.docs (term : Term P) : List ℕ :=
  term.parts.flatMap (Part.docs P)

section

variable {remaining : P.SortedCursor → List ℕ}

theorem aheadHit_none (part : Part) :
    Postings.aheadHit remaining part.hit none = part.docs P := by
  unfold Part.docs
  match part.hit with
  | none => rfl
  | some (.single _) => rfl
  | some (.postings _) => rfl

theorem aheadParts_none (parts : List Part) :
    Postings.aheadParts remaining parts none = parts.flatMap (Part.docs P) := by
  induction parts with
  | nil => rfl
  | cons _ _ ih => rw [Postings.aheadParts, ih, aheadHit_none, flatMap_cons]

/-- A part read from a dictionary is one a cursor can walk. -/
theorem Part.Dictionary.partOk (hP : P.Contract remaining) {floor : ℕ} {part : Part}
    (h : part.Dictionary P floor) : Postings.PartOk remaining floor part none := by
  have hdocs : (part.docs P).Pairwise (· < ·)
      ∧ ∀ d ∈ part.docs P, floor ≤ d ∧ d ≤ part.last := by
    unfold Part.docs
    match hhit : part.hit with
    | none => exact ⟨.nil, nofun⟩
    | some (.single doc) =>
      refine ⟨pairwise_singleton _ _, fun d hd => ?_⟩
      rw [mem_singleton.mp hd]
      exact h.single doc hhit
    | some (.postings list) =>
      obtain ⟨xs, hx, hrange⟩ := h.packed list hhit
      simp only
      rw [hx.decode_eq hP]
      refine ⟨pairwise_map.mpr (hx.packable.sorted.imp fun hab => by omega), fun d hd => ?_⟩
      obtain ⟨x, hm, rfl⟩ := mem_map.mp hd
      exact hrange x hm
  rw [← (aheadHit_none part : Postings.aheadHit remaining part.hit none = _)] at hdocs
  exact ⟨h.floor_le, h.last_lt, h.maybe_eq, hdocs.1, hdocs.2,
    fun list hhit _ => (h.packed list hhit).imp fun xs hx => hx.1⟩

theorem Dictionary.partsOk (hP : P.Contract remaining) {floor : ℕ} {parts : List Part}
    (h : Dictionary P floor parts) : Postings.PartsOk remaining floor parts none := by
  induction parts generalizing floor with
  | nil => trivial
  | cons _ _ ih => exact ⟨h.1.partOk hP, ih h.2⟩

theorem Term.cursor_ok (hP : P.Contract remaining) (term : Term P) :
    term.cursor.Ok remaining :=
  ⟨0, term.ok.partsOk hP⟩

/-- A fresh cursor has all of its term's documents ahead of it. -/
theorem Term.view_cursor (term : Term P) (d : ℕ) :
    term.cursor.view remaining d = if d ∈ term.docs then some .yes else none := by
  have hahead : term.cursor.ahead remaining = term.docs := aheadParts_none term.parts
  rw [Postings.Cursor.view, hahead]
  rfl

end

end

end Ferret
