import Ferret.Index.Cursor

/-!
# What a cursor tree means

A query is built once, over the postings of its terms and over bitmaps, and
then walked. `Tree` is the query before it is walked: it has no positions, and
its value at a document is read off in Kleene's three-valued logic, AND being
the minimum, OR the maximum and NOT the exchange of `no` and `yes`. `Tree.cursor`
is the cursor tree the query starts with.

The main result is `Tree.next_geq_least`: whatever non-decreasing targets a
cursor tree is walked with, each answer is the least document from the target
on whose value is not `no`, with that value.
-/

namespace Ferret

/-- Kleene's truth values, in order. -/
inductive Kleene
  | no
  | maybe
  | yes
deriving DecidableEq

namespace Kleene

/-- The rank of a value. -/
def toNat : Kleene → ℕ
  | no => 0
  | maybe => 1
  | yes => 2

instance : LinearOrder Kleene :=
  LinearOrder.lift' toNat fun a b => by cases a <;> cases b <;> simp [toNat]

/-- Kleene's negation. -/
def not : Kleene → Kleene
  | no => yes
  | maybe => maybe
  | yes => no

/-- A certainty as a truth value. -/
def ofCertainty : Certainty → Kleene
  | .maybe => maybe
  | .yes => yes

/-- Absence from a cursor is `no`. -/
def certainty : Kleene → Option Certainty
  | no => none
  | maybe => some .maybe
  | yes => some .yes

theorem certainty_eq_none {k : Kleene} : k.certainty = none ↔ k = no := by
  cases k <;> simp [certainty]

theorem certainty_eq_some {k : Kleene} {c : Certainty} :
    k.certainty = some c ↔ k = ofCertainty c := by
  cases k <;> cases c <;> simp [certainty, ofCertainty]

/-- OR, as a scan over two children sees it. -/
theorem certainty_max (a b : Kleene) :
    (max a b).certainty = a.certainty.merge max b.certainty := by
  cases a <;> cases b <;> rfl

/-- AND NOT, as its search sees it. -/
theorem certainty_min_not (a b : Kleene) :
    (min a b.not).certainty = a.certainty.bind fun c => notVerdict c b.certainty := by
  cases a <;> cases b <;> rfl

/-- A filter is an AND. -/
theorem certainty_min_filter (a b : Kleene) :
    (min a b).certainty = a.certainty.bind fun c => filterVerdict c b.certainty := by
  cases a <;> cases b <;> rfl

/-- Downgrading is an AND with `maybe`. -/
theorem certainty_min_maybe (a : Kleene) :
    (min a maybe).certainty = a.certainty.map fun _ => .maybe := by
  cases a <;> rfl

end Kleene

/-- **A query before it is walked.** -/
inductive Tree (P : Intpack)
  | postings (term : Term P)
  | bits (docs : DocSet) (certainty : Certainty)
  | and (children : List (Tree P))
  | or (children : List (Tree P))
  | andNot (positive negated : Tree P)
  | filter (driver probe : Tree P)
  | maybe (child : Tree P)
  | empty

namespace Tree

variable {P : Intpack}

mutual

/-- The cursor tree a query starts with. -/
def cursor : Tree P → Cursor P
  | postings term => .postings term.cursor
  | bits docs certainty => .bits { docs := docs, certainty := certainty, floor := 0 }
  | and children => .and (cursors children)
  | or children => .or (cursors children) (children.map fun _ => .fresh)
  | andNot positive negated => .andNot (cursor positive) (cursor negated)
  | filter driver probe => .filter (cursor driver) (cursor probe)
  | maybe child => .maybe (cursor child)
  | empty => .empty

def cursors : List (Tree P) → List (Cursor P)
  | [] => []
  | t :: ts => cursor t :: cursors ts

end

mutual

/-- **The value of a query at a document.** An AND of nothing is empty, as its
constructor says: it has no driver. -/
def value : Tree P → ℕ → Kleene
  | postings term, d => if d ∈ term.docs then .yes else .no
  | bits docs certainty, d => if docs.contains d then .ofCertainty certainty else .no
  | and children, d => if children.isEmpty then .no else all children d
  | or children, d => any children d
  | andNot positive negated, d => min (value positive d) (value negated d).not
  | filter driver probe, d => min (value driver d) (value probe d)
  | maybe child, d => min (value child d) .maybe
  | empty, _ => .no

/-- The conjunction of a list of values. -/
def all : List (Tree P) → ℕ → Kleene
  | [], _ => .yes
  | t :: ts, d => min (value t d) (all ts d)

/-- The disjunction of a list of values. -/
def any : List (Tree P) → ℕ → Kleene
  | [], _ => .no
  | t :: ts, d => max (value t d) (any ts d)

end

/-! ## A fresh cursor tree has the whole query ahead of it -/

section

variable {remaining : P.SortedCursor → List ℕ}

theorem length_views_cursors (ts : List (Tree P)) :
    (Cursor.views remaining (cursors ts)).length = ts.length := by
  induction ts with
  | nil => rfl
  | cons t ts ih => rw [cursors, Cursor.views, List.length_cons, ih, List.length_cons]

/-- No head of a fresh OR stands anywhere. -/
theorem stands_fresh (fs : List (ℕ → Option Certainty)) (ts : List (Tree P))
    (h : fs.length = ts.length) :
    List.Forall₂ (fun f (head : Seek.Head Certainty) => head.Stands f) fs
      (ts.map fun _ => .fresh) := by
  rw [List.forall₂_map_right_iff]
  exact List.forall₂_iff_zip.mpr ⟨h, fun _ d c hdc => by cases hdc⟩

mutual

theorem cursor_ok (hP : P.Contract remaining) : ∀ t : Tree P, t.cursor.Ok remaining
  | postings term => term.cursor_ok hP
  | bits _ _ => trivial
  | and children => cursors_ok hP children
  | or children =>
    ⟨cursors_ok hP children, stands_fresh _ children (length_views_cursors children)⟩
  | andNot positive negated => ⟨cursor_ok hP positive, cursor_ok hP negated⟩
  | filter driver probe => ⟨cursor_ok hP driver, cursor_ok hP probe⟩
  | maybe child => cursor_ok hP child
  | empty => trivial

theorem cursors_ok (hP : P.Contract remaining) :
    ∀ ts : List (Tree P), Cursor.OkAll remaining (cursors ts)
  | [] => trivial
  | t :: ts => ⟨cursor_ok hP t, cursors_ok hP ts⟩

end

/-- The other children of an AND meet a driver's certainty step by step. -/
theorem meet_step (c : Certainty) (a b : Kleene) :
    (a.certainty.bind fun c' => (min (.ofCertainty (min c c')) b : Kleene).certainty)
      = (min (.ofCertainty c) (min a b) : Kleene).certainty := by
  cases c <;> cases a <;> cases b <;> rfl

theorem min_certainty (a b : Kleene) :
    (a.certainty.bind fun c => (min (.ofCertainty c) b : Kleene).certainty)
      = (min a b).certainty := by
  cases a <;> cases b <;> rfl

mutual

theorem view_cursor : ∀ (t : Tree P) (d : ℕ),
    t.cursor.view remaining d = (t.value d).certainty
  | postings term, d => by
    show term.cursor.view remaining d = _
    rw [term.view_cursor, value]
    split <;> rfl
  | bits docs certainty, d => by
    by_cases h : docs.contains d = true
    · cases certainty <;> simp [cursor, Cursor.view, Bits.view, value, h, Kleene.certainty,
        Kleene.ofCertainty]
    · simp [cursor, Cursor.view, Bits.view, value, h, Kleene.certainty]
  | and [], d => rfl
  | and (t :: ts), d => by
    show Seek.along (Cursor.view remaining t.cursor)
      (Seek.meetAll min (Cursor.views remaining (cursors ts))) d = _
    have hmeet : ∀ c, Seek.meetAll min (Cursor.views remaining (cursors ts)) d c
        = (min (.ofCertainty c) (all ts d) : Kleene).certainty := meetAll_cursors ts d
    rw [Seek.along, view_cursor t d]
    simp only [hmeet]
    exact min_certainty (t.value d) (all ts d)
  | or children, d => by
    have h := joinView_cursors children d (fun _ => none) .no rfl
    show Cursor.orView _ _ d = _
    rw [Cursor.orView, h, value]
    cases any children d <;> rfl
  | andNot positive negated, d => by
    show (Cursor.view remaining positive.cursor d).bind
      (fun c => notVerdict c (Cursor.view remaining negated.cursor d)) = _
    rw [view_cursor positive d, view_cursor negated d]
    exact (Kleene.certainty_min_not _ _).symm
  | filter driver probe, d => by
    show (Cursor.view remaining driver.cursor d).bind
      (fun c => filterVerdict c (Cursor.view remaining probe.cursor d)) = _
    rw [view_cursor driver d, view_cursor probe d]
    exact (Kleene.certainty_min_filter _ _).symm
  | maybe child, d => by
    show (Cursor.view remaining child.cursor d).map (fun _ => Certainty.maybe) = _
    rw [view_cursor child d]
    exact (Kleene.certainty_min_maybe _).symm
  | empty, d => rfl

theorem meetAll_cursors : ∀ (ts : List (Tree P)) (d : ℕ) (c : Certainty),
    Seek.meetAll min (Cursor.views remaining (cursors ts)) d c
      = (min (.ofCertainty c) (all ts d) : Kleene).certainty
  | [], d, c => by cases c <;> rfl
  | t :: ts, d, c => by
    show ((Cursor.view remaining t.cursor d).bind fun c' =>
      Seek.meetAll min (Cursor.views remaining (cursors ts)) d (min c c')) = _
    have hmeet : ∀ c, Seek.meetAll min (Cursor.views remaining (cursors ts)) d c
        = (min (.ofCertainty c) (all ts d) : Kleene).certainty := meetAll_cursors ts d
    rw [view_cursor t d]
    simp only [hmeet]
    exact meet_step c (t.value d) (all ts d)

theorem joinView_cursors : ∀ (ts : List (Tree P)) (d : ℕ) (f : ℕ → Option Certainty) (k : Kleene),
    f d = k.certainty →
    Seek.joinView max f (List.zipWith Seek.headView (Cursor.views remaining (cursors ts))
      (ts.map fun _ => .fresh)) d = (max k (any ts d)).certainty
  | [], d, f, k, hf => by
    rw [any, max_eq_left (by cases k <;> decide)]
    exact hf
  | t :: ts, d, f, k, hf => by
    have hstep : (f d).merge max (Cursor.view remaining t.cursor d)
        = (max k (t.value d)).certainty := by
      rw [hf, view_cursor t d, Kleene.certainty_max]
    rw [any, ← max_assoc]
    exact joinView_cursors ts d _ _ hstep

end

end

/-- **An answer of a query from a target on**: the least document whose value
is not `no`, with that value, or that there is none. -/
def Answers (t : Tree P) (target : ℕ) : Option (ℕ × Certainty) → Prop
  | none => ∀ d, target ≤ d → t.value d = .no
  | some (d, c) => target ≤ d ∧ t.value d = .ofCertainty c
      ∧ ∀ e, target ≤ e → e < d → t.value e = .no

theorem answers_of_least {remaining : P.SortedCursor → List ℕ} {t : Tree P} {target : ℕ}
    {r : Option (ℕ × Certainty)} (h : Seek.Least (t.cursor.view remaining) target r) :
    t.Answers target r := by
  match r, h with
  | none, h =>
    exact fun d hd => Kleene.certainty_eq_none.mp ((view_cursor t d).symm.trans (h d hd))
  | some (d, c), ⟨hd, hval, hlow⟩ =>
    exact ⟨hd, Kleene.certainty_eq_some.mp ((view_cursor t d).symm.trans hval),
      fun e he hlt => Kleene.certainty_eq_none.mp ((view_cursor t e).symm.trans (hlow e he hlt))⟩

/-- **Cursor trees compute Kleene's logic.** Walked with any non-decreasing
targets, a cursor tree answers each with the least document from it on whose
value is not `no`; and wherever a walk has left it, a target not past the
document it stands on returns that document again. -/
theorem next_geq_least {remaining : P.SortedCursor → List ℕ} (hP : P.Contract remaining)
    (t : Tree P) (targets : List ℕ) (hsorted : targets.Pairwise (· ≤ ·)) :
    List.Forall₂ t.Answers targets (Seek.run Cursor.next_geq t.cursor targets)
      ∧ ∀ (walked : List ℕ) (target target' d : ℕ) (c : Certainty),
          let s := Seek.after Cursor.next_geq t.cursor walked
          (s.next_geq target).1 = some (d, c) → target' ≤ d →
          ((s.next_geq target).2.next_geq target').1 = some (d, c) := by
  have L := Cursor.lawful hP
  have hok := cursor_ok hP t
  refine ⟨(L.run_least hok hsorted).imp fun _ _ => answers_of_least, ?_⟩
  intro walked target target' d c s hans hle
  exact L.repeats (L.valid_after hok walked) hans hle

/-- A packed list of the documents `3` and `7`. -/
def sampleTerm : Term Intpack.plain where
  parts := [{
    last := 9
    hit := some (.postings
      { first := 1, df := 2, bytes := Intpack.plain.encode_sorted [2, 6], start := 0 })
    maybe := [] }]
  ok := by
    refine ⟨⟨by decide, by decide, rfl, fun _ h => (by cases h), fun list h => ?_⟩, trivial⟩
    cases h
    exact ⟨[2, 6], ⟨⟨by decide, by decide⟩, ⟨[], rfl⟩, rfl, by decide⟩, by decide⟩

/-- The documents of that list without those of a bitmap that holds `7`. -/
def sample : Tree Intpack.plain :=
  .andNot (.postings sampleTerm) (.bits (DocSet.new 8 (by decide) [7]) .yes)

theorem sample_next_geq_least :
    List.Forall₂ sample.Answers [0, 2, 2, 9]
      (Seek.run Cursor.next_geq sample.cursor [0, 2, 2, 9]) :=
  (next_geq_least Intpack.plain_contract sample [0, 2, 2, 9] (by decide)).1

/-- **What a query means decides its answers**: trees of one value at every document, however
their nodes are ordered and nested, are walked alike. -/
theorem run_congr (hP : P.Contract remaining) {t t' : Tree P} (h : ∀ d, t.value d = t'.value d)
    {targets : List ℕ} (hsorted : targets.Pairwise (· ≤ ·)) :
    Seek.run Cursor.next_geq t.cursor targets = Seek.run Cursor.next_geq t'.cursor targets := by
  have L := Cursor.lawful hP
  have hview : t'.cursor.view remaining = t.cursor.view remaining := by
    funext d
    rw [view_cursor, view_cursor, h]
  have hrun' := L.run_least (cursor_ok hP t') hsorted
  rw [hview] at hrun'
  have hunique : Relator.RightUnique (Seek.Least (t.cursor.view remaining)) := fun _ _ _ =>
    Seek.Least.unique
  exact List.right_unique_forall₂' hunique (L.run_least (cursor_ok hP t) hsorted) hrun'

theorem sample_run_congr :
    Seek.run Cursor.next_geq (and [sample, .maybe sample]).cursor [0, 5]
      = Seek.run Cursor.next_geq (and [.maybe sample, sample]).cursor [0, 5] :=
  run_congr Intpack.plain_contract (fun d => min_left_comm (sample.value d) _ _) (by decide)

end Tree

end Ferret
