import Ferret.Index.Postings

/-!
# Cursor trees

A query is a tree of cursors, ascending DocIds each with a certainty, under
AND, OR and AND NOT. Every node keeps the position of each of its children
between calls, and every node relies on its children keeping the contract of
`Seek.Lawful`: the leapfrog and union of the library are instantiated here at
the tree itself.

The source recurses on the tree while it rewrites it in place. Here a node's
step returns the rewritten node, and recursion is on the height of the tree,
which no step raises. The two search loops – the driver of an AND, and the
driver of an AND NOT or a filter – carry fuel, which `Seek` proves is enough.
-/

namespace Ferret

open List

/-- A bitmap's members, all with one certainty. -/
structure Bits where
  docs : DocSet
  certainty : Certainty
  /-- The document last returned: a lower target returns it again. -/
  floor : ℕ

namespace Bits

def next_geq (b : Bits) (target : ℕ) : Option (ℕ × Certainty) × Bits :=
  match b.docs.next_geq (max target b.floor) with
  | none => (none, b)
  | some doc => (some (doc, b.certainty), { b with floor := doc })

/-- The members not below the document last returned. -/
def view (b : Bits) (d : ℕ) : Option Certainty :=
  if b.floor ≤ d ∧ b.docs.contains d = true then some b.certainty else none

theorem lawful : Seek.Lawful docLimit next_geq (fun _ => True) view where
  bounded := fun b _ e he => if_neg fun h => by
    have h₁ := DocSet.lt_bound_of_contains h.2
    have h₂ := b.docs.bound_lt
    omega
  keeps := fun _ _ _ => trivial
  ok := fun b t _ => by
    unfold next_geq
    cases hf : b.docs.next_geq (max t b.floor) with
    | none =>
      refine ⟨fun e he => if_neg fun h => ?_, Seek.Shrinks.refl _, Seek.AgreeFrom.refl t _,
        nofun⟩
      have hmiss := DocSet.next_geq_eq_none hf e (max_le he h.1)
      rw [hmiss] at h
      cases h.2
    | some d =>
      obtain ⟨hd, hmem, hlow⟩ := DocSet.next_geq_eq_some hf
      have hfloor : b.floor ≤ d := (le_max_right ..).trans hd
      have hnone : ∀ e, t ≤ e → e < d → b.view e = none := fun e he hlt =>
        if_neg fun h => by
          have hmiss := hlow e (max_le he h.1) hlt
          rw [hmiss] at h
          cases h.2
      have hview : ∀ e, ({ b with floor := d } : Bits).view e
          = if d ≤ e then b.view e else none := by
        intro e
        by_cases hde : d ≤ e
        · simp only [view, hde, hfloor.trans hde, if_true]
        · simp only [view, hde, if_false, false_and]
      refine ⟨⟨(le_max_left ..).trans hd, if_pos ⟨hfloor, hmem⟩, hnone⟩, fun e => ?_,
        fun e he => ?_, fun d' c hdc e hlt => ?_⟩
      · rw [hview]
        by_cases hde : d ≤ e
        · exact .inr (if_pos hde)
        · exact .inl (if_neg hde)
      · rw [hview]
        by_cases hde : d ≤ e
        · exact if_pos hde
        · rw [if_neg hde, hnone e he (not_le.mp hde)]
      · cases hdc
        rw [hview, if_neg (not_le.mpr hlt)]

end Bits

/-- **Ascending DocIds, each with a certainty.** The negated side of an AND
NOT and the probe of a filter are cursors that are only ever tested at one
document at a time. -/
inductive Cursor (P : Intpack)
  | postings (cursor : Postings.Cursor P)
  | bits (bits : Bits)
  | and (children : List (Cursor P))
  | or (children : List (Cursor P)) (heads : List (Seek.Head Certainty))
  | andNot (positive negated : Cursor P)
  | filter (driver probe : Cursor P)
  | maybe (child : Cursor P)
  | empty

/-- What an AND NOT makes of a document the negated side is asked about. -/
def notVerdict (certainty : Certainty) : Option Certainty → Option Certainty
  | none => some certainty
  | some .maybe => some .maybe
  | some .yes => none

/-- What a filter makes of a document the probe is asked about. -/
def filterVerdict (certainty : Certainty) : Option Certainty → Option Certainty
  | some other => some (min certainty other)
  | none => none

namespace Cursor

variable {P : Intpack}

mutual

/-- The height of a tree. -/
def height : Cursor P → ℕ
  | postings _ => 0
  | bits _ => 0
  | and children => heights children + 1
  | or children _ => heights children + 1
  | andNot positive negated => max (height positive) (height negated) + 1
  | filter driver probe => max (height driver) (height probe) + 1
  | maybe child => height child + 1
  | empty => 0

/-- The greatest height of a list of trees. -/
def heights : List (Cursor P) → ℕ
  | [] => 0
  | c :: cs => max (height c) (heights cs)

end

/-- One step of a node, given the step of its children. -/
def advanceWith (advance : Cursor P → ℕ → Option (ℕ × Certainty) × Cursor P) (target : ℕ) :
    Cursor P → Option (ℕ × Certainty) × Cursor P
  | postings cursor => ((cursor.next_geq target).1, postings (cursor.next_geq target).2)
  | bits b => ((b.next_geq target).1, bits (b.next_geq target).2)
  -- an AND of nothing has no driver
  | and [] => (none, and [])
  | and (driver :: rest) =>
    let q := Seek.leapfrog advance min (Seek.fuel docLimit) driver rest target
    (q.1, and (q.2.1 :: q.2.2))
  | or children heads =>
    let q := Seek.scan advance max target (children.zip heads) none
    (q.1, or (q.2.map Prod.fst) (q.2.map Prod.snd))
  | andNot positive negated =>
    let q := Seek.restrict docLimit advance notVerdict (Seek.fuel docLimit) positive negated target
    (q.1, andNot q.2.1 q.2.2)
  | filter driver probe =>
    let q := Seek.restrict docLimit advance filterVerdict (Seek.fuel docLimit) driver probe target
    (q.1, filter q.2.1 q.2.2)
  | maybe child =>
    let q := advance child target
    (q.1.map fun p => (p.1, .maybe), maybe q.2)
  | empty => (none, empty)

/-- One step of a tree no higher than `h`. -/
def advanceAt : ℕ → Cursor P → ℕ → Option (ℕ × Certainty) × Cursor P
  | 0, c, target => advanceWith (fun c _ => (none, c)) target c
  | h + 1, c, target => advanceWith (advanceAt h) target c

/-- The smallest document `>= target` at or after the current one, and its
certainty. -/
def next_geq (c : Cursor P) (target : ℕ) : Option (ℕ × Certainty) × Cursor P :=
  advanceAt c.height c target

/-! ## The contract of a tree -/

section

variable (remaining : P.SortedCursor → List ℕ)

/-- What an AND still has ahead of it: nothing without a driver. -/
def andView : List (ℕ → Option Certainty) → ℕ → Option Certainty
  | [] => fun _ => none
  | f :: gs => Seek.meetView min f gs

/-- What an OR still has ahead of it. -/
def orView (fs : List (ℕ → Option Certainty)) (heads : List (Seek.Head Certainty)) :
    ℕ → Option Certainty :=
  Seek.joinView max (fun _ => none) (List.zipWith Seek.headView fs heads)

mutual

/-- What a tree still has ahead of it. -/
def view : Cursor P → ℕ → Option Certainty
  | postings cursor => cursor.view remaining
  | bits b => b.view
  | and children => andView (views children)
  | or children heads => orView (views children) heads
  | andNot positive negated => Seek.restrictView notVerdict (view positive) (view negated)
  | filter driver probe => Seek.restrictView filterVerdict (view driver) (view probe)
  | maybe child => fun e => (view child e).map fun _ => .maybe
  | empty => fun _ => none

/-- What each of a list of trees still has ahead of it. -/
def views : List (Cursor P) → List (ℕ → Option Certainty)
  | [] => []
  | c :: cs => view c :: views cs

end

mutual

/-- Every position a tree keeps is one its children are really at. -/
def Ok : Cursor P → Prop
  | postings cursor => cursor.Ok remaining
  | bits _ => True
  | and children => OkAll children
  | or children heads =>
    OkAll children ∧ List.Forall₂ (fun f head => head.Stands f) (views remaining children) heads
  | andNot positive negated => Ok positive ∧ Ok negated
  | filter driver probe => Ok driver ∧ Ok probe
  | maybe child => Ok child
  | empty => True

def OkAll : List (Cursor P) → Prop
  | [] => True
  | c :: cs => Ok c ∧ OkAll cs

end

/-- A tree that is well positioned and no higher than `h`. -/
def OkAt (h : ℕ) (c : Cursor P) : Prop :=
  c.Ok remaining ∧ c.height ≤ h

theorem views_eq_map (cs : List (Cursor P)) : views remaining cs = cs.map (view remaining) := by
  induction cs with
  | nil => rfl
  | cons c cs ih => rw [views, ih, map_cons]

theorem okAll_and_heights_iff (h : ℕ) (cs : List (Cursor P)) :
    OkAll remaining cs ∧ heights cs ≤ h ↔ ∀ c ∈ cs, OkAt remaining h c := by
  induction cs with
  | nil => simp [OkAll, heights]
  | cons c cs ih =>
    rw [forall_mem_cons, ← ih, OkAll, heights, OkAt, max_le_iff]
    tauto

/-- What a step of a tree no higher than `h` owes. -/
structure Steps (h : ℕ) (c : Cursor P) (t : ℕ) : Prop where
  bounded : ∀ e, docLimit ≤ e → c.view remaining e = none
  keeps : OkAt remaining h (advanceAt h c t).2
  ok : Seek.StepOk (c.view remaining) t (advanceAt h c t).1 ((advanceAt h c t).2.view remaining)

end

variable {remaining : P.SortedCursor → List ℕ}

theorem steps_postings (hP : P.Contract remaining) (h : ℕ) {cursor : Postings.Cursor P}
    (hc : OkAt remaining h (postings cursor)) (t : ℕ) :
    Steps remaining h (postings cursor) t := by
  have L := Postings.Cursor.lawful hP
  have hstep : advanceAt h (postings cursor) t
      = ((cursor.next_geq t).1, postings (cursor.next_geq t).2) := by
    cases h <;> rfl
  refine ⟨L.bounded cursor hc.1, ?_, ?_⟩
  · rw [hstep]
    exact ⟨L.keeps cursor t hc.1, Nat.zero_le h⟩
  · rw [hstep]
    exact L.ok cursor t hc.1

theorem steps_bits (h : ℕ) (b : Bits) (t : ℕ) : Steps remaining h (bits b : Cursor P) t := by
  have hstep : advanceAt h (bits b : Cursor P) t = ((b.next_geq t).1, bits (b.next_geq t).2) := by
    cases h <;> rfl
  refine ⟨Bits.lawful.bounded b trivial, ?_, ?_⟩
  · rw [hstep]
    exact ⟨trivial, Nat.zero_le h⟩
  · rw [hstep]
    exact Bits.lawful.ok b t trivial

theorem steps_empty (h t : ℕ) : Steps remaining h (empty : Cursor P) t := by
  have hstep : advanceAt h (empty : Cursor P) t = (none, empty) := by
    cases h <;> rfl
  refine ⟨fun _ _ => rfl, ?_, ?_⟩
  · rw [hstep]
    exact ⟨trivial, Nat.zero_le h⟩
  · rw [hstep]
    exact ⟨fun _ _ => rfl, Seek.Shrinks.refl _, Seek.AgreeFrom.refl t _, nofun⟩

section

variable {h : ℕ}
  (L : Seek.Lawful docLimit (advanceAt (P := P) h) (OkAt remaining h) (view remaining))

include L

theorem steps_and {children : List (Cursor P)} (hc : OkAt remaining (h + 1) (and children))
    (t : ℕ) : Steps remaining (h + 1) (and children) t := by
  have hall : ∀ c ∈ children, OkAt remaining h c :=
    (okAll_and_heights_iff remaining h children).mp ⟨hc.1, Nat.le_of_succ_le_succ hc.2⟩
  cases children with
  | nil =>
    exact ⟨fun _ _ => rfl, hc, fun _ _ => rfl, Seek.Shrinks.refl _, Seek.AgreeFrom.refl t _,
      nofun⟩
  | cons driver _ =>
    obtain ⟨hd, hr⟩ := forall_mem_cons.mp hall
    obtain ⟨hok, hd', hr'⟩ := L.leapfrog_ok min t hd hr
    rw [← views_eq_map, ← views_eq_map] at hok
    have hkeep := (okAll_and_heights_iff remaining h _).mpr (forall_mem_cons.mpr ⟨hd', hr'⟩)
    refine ⟨fun e he => Seek.along_none (L.bounded driver hd e he), ?_, ?_⟩
    · rw [advanceAt, advanceWith]
      exact ⟨hkeep.1, Nat.succ_le_succ hkeep.2⟩
    · rw [advanceAt, advanceWith]
      exact hok

theorem steps_or {children : List (Cursor P)} {heads : List (Seek.Head Certainty)}
    (hc : OkAt remaining (h + 1) (or children heads)) (t : ℕ) :
    Steps remaining (h + 1) (or children heads) t := by
  obtain ⟨⟨hall, hstand⟩, hheight⟩ := hc
  have hall : ∀ c ∈ children, OkAt remaining h c :=
    (okAll_and_heights_iff remaining h children).mp ⟨hall, Nat.le_of_succ_le_succ hheight⟩
  rw [views_eq_map, forall₂_map_left_iff, forall₂_iff_zip] at hstand
  have hps : ∀ p ∈ children.zip heads,
      OkAt remaining h p.1 ∧ p.2.Stands (view remaining p.1) := fun p hp =>
    ⟨hall p.1 (of_mem_zip hp).1, hstand.2 hp⟩
  obtain ⟨hok, hps'⟩ := L.scan_ok max t hps
  have hview : ∀ (cs : List (Cursor P)) (hs : List (Seek.Head Certainty)),
      orView (views remaining cs) hs = Seek.joinView max (fun _ => none)
        ((cs.zip hs).map fun p => Seek.headView (view remaining p.1) p.2) := by
    intro cs hs
    rw [orView, views_eq_map, zipWith_map_left, ← map_uncurry_zip_eq_zipWith]
    rfl
  have hzip : ∀ ps : List (Cursor P × Seek.Head Certainty),
      (ps.map Prod.fst).zip (ps.map Prod.snd) = ps := fun ps => by
    rw [← unzip_fst, ← unzip_snd, zip_unzip]
  refine ⟨fun e he => ?_, ?_, ?_⟩
  · show orView (views remaining children) heads e = none
    rw [hview]
    refine (Seek.joinView_eq_none_iff max).mpr ⟨rfl, fun g hg => ?_⟩
    obtain ⟨p, hp, rfl⟩ := mem_map.mp hg
    have hnone := L.bounded p.1 (hps p hp).1 e he
    cases p.2 with
    | exhausted => rfl
    | fresh => exact hnone
    | on d c => exact hnone
  · rw [advanceAt, advanceWith]
    have hkeep := (okAll_and_heights_iff remaining h _).mpr fun c hc => by
      obtain ⟨p, hp, rfl⟩ := mem_map.mp hc
      exact (hps' p hp).1
    refine ⟨⟨hkeep.1, ?_⟩, Nat.succ_le_succ hkeep.2⟩
    rw [views_eq_map, forall₂_map_left_iff, forall₂_map_left_iff, forall₂_map_right_iff]
    exact forall₂_same.mpr fun p hp => (hps' p hp).2
  · rw [advanceAt, advanceWith]
    show Seek.StepOk (orView (views remaining children) heads) t _
      (orView (views remaining (List.map Prod.fst _)) (List.map Prod.snd _))
    rw [hview, hview, hzip]
    exact hok

theorem steps_restrict {driver probe : Cursor P} (hd : OkAt remaining h driver)
    (hp : OkAt remaining h probe) (verdict : Certainty → Option Certainty → Option Certainty)
    (t : ℕ) :
    let q := Seek.restrict docLimit (advanceAt h) verdict (Seek.fuel docLimit) driver probe t
    (∀ e, docLimit ≤ e → Seek.restrictView verdict (view remaining driver)
        (view remaining probe) e = none)
      ∧ OkAt remaining h q.2.1 ∧ OkAt remaining h q.2.2
      ∧ Seek.StepOk (Seek.restrictView verdict (view remaining driver) (view remaining probe)) t
          q.1 (Seek.restrictView verdict (view remaining q.2.1) (view remaining q.2.2)) := by
  obtain ⟨hok, hd', hp'⟩ := L.restrict_ok verdict t hd hp
  exact ⟨fun e he => Seek.along_none (L.bounded driver hd e he), hd', hp', hok⟩

theorem steps_andNot {positive negated : Cursor P}
    (hc : OkAt remaining (h + 1) (andNot positive negated)) (t : ℕ) :
    Steps remaining (h + 1) (andNot positive negated) t := by
  have hh := max_le_iff.mp (Nat.le_of_succ_le_succ hc.2)
  obtain ⟨hb, hd, hp, hok⟩ := steps_restrict L ⟨hc.1.1, hh.1⟩ ⟨hc.1.2, hh.2⟩ notVerdict t
  refine ⟨hb, ?_, ?_⟩
  · rw [advanceAt, advanceWith]
    exact ⟨⟨hd.1, hp.1⟩, Nat.succ_le_succ (max_le hd.2 hp.2)⟩
  · rw [advanceAt, advanceWith]
    exact hok

theorem steps_filter {driver probe : Cursor P}
    (hc : OkAt remaining (h + 1) (filter driver probe)) (t : ℕ) :
    Steps remaining (h + 1) (filter driver probe) t := by
  have hh := max_le_iff.mp (Nat.le_of_succ_le_succ hc.2)
  obtain ⟨hb, hd, hp, hok⟩ := steps_restrict L ⟨hc.1.1, hh.1⟩ ⟨hc.1.2, hh.2⟩ filterVerdict t
  refine ⟨hb, ?_, ?_⟩
  · rw [advanceAt, advanceWith]
    exact ⟨⟨hd.1, hp.1⟩, Nat.succ_le_succ (max_le hd.2 hp.2)⟩
  · rw [advanceAt, advanceWith]
    exact hok

theorem steps_maybe {child : Cursor P} (hc : OkAt remaining (h + 1) (maybe child)) (t : ℕ) :
    Steps remaining (h + 1) (maybe child) t := by
  have hchild : OkAt remaining h child := ⟨hc.1, Nat.le_of_succ_le_succ hc.2⟩
  have hkeep := L.keeps child t hchild
  exact ⟨fun e he => congrArg (Option.map fun _ => Certainty.maybe) (L.bounded child hchild e he),
    ⟨hkeep.1, Nat.succ_le_succ hkeep.2⟩, (L.ok child t hchild).map fun _ => .maybe⟩

end

/-- **Every tree keeps the contract of a seekable cursor.** The induction is
on the height; each node passes the contract of its children on. -/
theorem lawfulAt (hP : P.Contract remaining) (h : ℕ) :
    Seek.Lawful docLimit (advanceAt (P := P) h) (OkAt remaining h) (view remaining) := by
  suffices hsteps : ∀ c : Cursor P, OkAt remaining h c → ∀ t, Steps remaining h c t from
    ⟨fun c hc => (hsteps c hc 0).bounded, fun c t hc => (hsteps c hc t).keeps,
      fun c t hc => (hsteps c hc t).ok⟩
  induction h with
  | zero =>
    intro c hc t
    cases c with
    | postings cursor => exact steps_postings hP 0 hc t
    | bits b => exact steps_bits 0 b t
    | empty => exact steps_empty 0 t
    | and _ | or _ _ | andNot _ _ | filter _ _ | maybe _ =>
      exact absurd hc.2 (Nat.not_succ_le_zero _)
  | succ h ih =>
    have L : Seek.Lawful docLimit (advanceAt (P := P) h) (OkAt remaining h) (view remaining) :=
      ⟨fun c hc => (ih c hc 0).bounded, fun c t hc => (ih c hc t).keeps,
        fun c t hc => (ih c hc t).ok⟩
    intro c hc t
    cases c with
    | postings cursor => exact steps_postings hP (h + 1) hc t
    | bits b => exact steps_bits (h + 1) b t
    | empty => exact steps_empty (h + 1) t
    | and children => exact steps_and L hc t
    | or children _ => exact steps_or L hc t
    | andNot _ _ => exact steps_andNot L hc t
    | filter _ _ => exact steps_filter L hc t
    | maybe _ => exact steps_maybe L hc t

/-- `next_geq` keeps the contract, at whatever height the tree has. -/
theorem lawful (hP : P.Contract remaining) :
    Seek.Lawful docLimit (next_geq (P := P)) (Ok remaining) (view remaining) where
  bounded := fun c hc => (lawfulAt hP c.height).bounded c ⟨hc, le_rfl⟩
  keeps := fun c t hc => ((lawfulAt hP c.height).keeps c t ⟨hc, le_rfl⟩).1
  ok := fun c t hc => (lawfulAt hP c.height).ok c t ⟨hc, le_rfl⟩

end Cursor

end Ferret
