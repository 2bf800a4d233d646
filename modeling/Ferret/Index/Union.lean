import Ferret.Index.Cursor
import Ferret.Index.Recorded

/-!
# Unions, streamed or materialised

A union of a few sparse cursors is a node that merges them. A wide or a dense
one is drained, when it is built, into two bitmaps: the documents some cursor is
certain of, and those some cursor is not. Either way the union has the same
documents below its bound with the same certainties.

The cursors are drained here for what they are, composite ones with fingerprint
records among them: nothing is needed of them but answers at or past the target.
-/

namespace Ferret

open List

/-- A wider union is materialised. -/
def OR_WIDTH : ℕ := 64

/-- A union whose cost exceeds the bound divided by this is materialised. -/
def OR_DENSITY : ℕ := 32

/-- `u64::saturating_add` -/
def saturating_add (a b : ℕ) : ℕ := min (a + b) 18446744073709551615

/-- The documents of one part, listed or recorded. -/
def Part.cost (part : Part) : ℕ :=
  part.maybe.length + match part.hit with
    | some (.single _) => 1
    | some (.postings list) => list.df
    | none => 0

namespace Cursor

variable {P : Intpack}

mutual

/-- An upper bound on the documents a cursor yields. -/
def cost : Cursor P → ℕ
  | postings cursor => (cursor.parts.map Part.cost).sum
  | bits b => b.docs.len
  | and children => (costs children).min?.getD 0
  | or children _ => (costs children).foldl saturating_add 0
  | andNot positive _ => cost positive
  | filter driver _ => cost driver
  | maybe child => cost child
  | empty => 0

def costs : List (Cursor P) → List ℕ
  | [] => []
  | c :: cs => cost c :: costs cs

end

def isEmpty : Cursor P → Bool
  | empty => true
  | _ => false

/-- The documents a cursor yields, from the first on. -/
def drain (c : Cursor P) : List (ℕ × Certainty) := Seek.drain docLimit next_geq c

/-- `Or::new` -/
def streamed (children : List (Cursor P)) : Cursor P :=
  .or children (children.map fun _ => .fresh)

/-- The documents drained with one certainty. -/
def withCertainty (certainty : Certainty) (docs : List (ℕ × Certainty)) : List ℕ :=
  (docs.filter (·.2 = certainty)).map Prod.fst

/-- A bitmap of documents, each with `certainty`. -/
def owned (bound : ℕ) (h : bound < docLimit) (docs : List ℕ) (certainty : Certainty) : Cursor P :=
  .bits { docs := DocSet.new bound h docs, certainty := certainty, floor := 0 }

/-- Drains the children into two bitmaps under one OR. -/
def materialise (children : List (Cursor P)) (bound : ℕ) (h : bound < docLimit) : Cursor P :=
  let drained := children.flatMap drain
  streamed [owned bound h (withCertainty .yes drained) .yes,
    owned bound h (withCertainty .maybe drained) .maybe]

/-- Documents some child yields. A union of two or more is materialised when it
is wide, or when its cost says that it is dense. -/
def union (children : List (Cursor P)) (bound : ℕ) (h : bound < docLimit) : Cursor P :=
  match children.filter (! ·.isEmpty) with
  | [] => empty
  | [child] => child
  | children =>
    if OR_WIDTH < children.length
        ∨ bound / OR_DENSITY < (costs children).foldl saturating_add 0 then
      materialise children bound h
    else streamed children

/-! ## Every tree answers at or past its target -/

section

variable (remaining : P.SortedCursor → List ℕ)

mutual

/-- A tree over terms read from segments, in any position. -/
def Sound : Cursor P → Prop
  | postings cursor => cursor.Recorded remaining
  | bits _ => True
  | and children => SoundAll children
  | or children heads => SoundAll children ∧ ∀ head ∈ heads, ∀ d c, head = .on d c → d < docLimit
  | andNot positive negated => Sound positive ∧ Sound negated
  | filter driver probe => Sound driver ∧ Sound probe
  | maybe child => Sound child
  | empty => True

def SoundAll : List (Cursor P) → Prop
  | [] => True
  | c :: cs => Sound c ∧ SoundAll cs

end

/-- A sound tree no higher than `h`. -/
def SoundAt (h : ℕ) (c : Cursor P) : Prop := c.Sound remaining ∧ c.height ≤ h

theorem soundAll_and_heights_iff (h : ℕ) (cs : List (Cursor P)) :
    SoundAll remaining cs ∧ heights cs ≤ h ↔ ∀ c ∈ cs, SoundAt remaining h c := by
  induction cs with
  | nil => simp [SoundAll, heights]
  | cons c cs ih =>
    rw [forall_mem_cons, ← ih, SoundAll, heights, SoundAt, max_le_iff]
    tauto

theorem soundAll_iff (cs : List (Cursor P)) :
    SoundAll remaining cs ↔ ∀ c ∈ cs, c.Sound remaining := by
  induction cs with
  | nil => simp [SoundAll]
  | cons c cs ih => rw [forall_mem_cons, ← ih, SoundAll]

/-- What a step of a tree no higher than `h` owes. -/
structure Goes (h : ℕ) (c : Cursor P) (t : ℕ) : Prop where
  answer : ∀ d certainty, (advanceAt h c t).1 = some (d, certainty) → t ≤ d ∧ d < docLimit
  keeps : SoundAt remaining h (advanceAt h c t).2

end

variable {remaining : P.SortedCursor → List ℕ}

theorem goes_postings (hP : P.Contract remaining) (hspent : P.Spent remaining) (h : ℕ)
    {cursor : Postings.Cursor P} (hc : cursor.Recorded remaining) (t : ℕ) :
    Goes remaining h (postings cursor) t := by
  have hstep : advanceAt h (postings cursor) t
      = ((cursor.next_geq t).1, postings (cursor.next_geq t).2) := by
    cases h <;> rfl
  have A := Postings.Cursor.advances hP hspent
  refine ⟨fun d certainty hanswer => ?_, ?_⟩
  · rw [hstep] at hanswer
    exact A.answer cursor t d certainty hc hanswer
  · rw [hstep]
    exact ⟨A.keeps cursor t hc, Nat.zero_le h⟩

theorem goes_bits (h : ℕ) (b : Bits) (t : ℕ) : Goes remaining h (bits b : Cursor P) t := by
  have hstep : advanceAt h (bits b : Cursor P) t = ((b.next_geq t).1, bits (b.next_geq t).2) := by
    cases h <;> rfl
  refine ⟨fun d certainty hanswer => ?_, ?_⟩
  · rw [hstep] at hanswer
    exact Bits.lawful.advances.answer b t d certainty trivial hanswer
  · rw [hstep]
    exact ⟨trivial, Nat.zero_le h⟩

theorem goes_empty (h t : ℕ) : Goes remaining h (empty : Cursor P) t := by
  have hstep : advanceAt h (empty : Cursor P) t = (none, empty) := by
    cases h <;> rfl
  refine ⟨fun d certainty hanswer => ?_, ?_⟩
  · rw [hstep] at hanswer
    cases hanswer
  · rw [hstep]
    exact ⟨trivial, Nat.zero_le h⟩

variable {children : List (Cursor P)}

section

variable {h : ℕ} (A : Seek.Advances docLimit (advanceAt (P := P) h) (SoundAt remaining h))

include A

theorem goes_and (hc : SoundAt remaining (h + 1) (and children)) (t : ℕ) :
    Goes remaining (h + 1) (and children) t := by
  have hall : ∀ c ∈ children, SoundAt remaining h c :=
    (soundAll_and_heights_iff remaining h children).mp ⟨hc.1, Nat.le_of_succ_le_succ hc.2⟩
  cases children with
  | nil => exact ⟨fun d certainty hanswer => (by cases hanswer), hc⟩
  | cons _ _ =>
    obtain ⟨hd, hr⟩ := forall_mem_cons.mp hall
    obtain ⟨hanswer, hd', hr'⟩ := A.leapfrog min (Seek.fuel docLimit) hd hr t
    have hkeep :=
      (soundAll_and_heights_iff remaining h _).mpr (forall_mem_cons.mpr ⟨hd', hr'⟩)
    refine ⟨?_, ?_⟩
    · rw [advanceAt, advanceWith]
      exact hanswer
    · rw [advanceAt, advanceWith]
      exact ⟨hkeep.1, Nat.succ_le_succ hkeep.2⟩

theorem goes_or {heads : List (Seek.Head Certainty)}
    (hc : SoundAt remaining (h + 1) (or children heads)) (t : ℕ) :
    Goes remaining (h + 1) (or children heads) t := by
  obtain ⟨⟨hall, hheads⟩, hheight⟩ := hc
  have hall : ∀ c ∈ children, SoundAt remaining h c :=
    (soundAll_and_heights_iff remaining h children).mp ⟨hall, Nat.le_of_succ_le_succ hheight⟩
  have hps : Seek.ValidUnion docLimit (SoundAt remaining h) (children.zip heads) := fun p hp =>
    ⟨hall p.1 (of_mem_zip hp).1, hheads p.2 (of_mem_zip hp).2⟩
  have AU := A.union max
  refine ⟨?_, ?_⟩
  · rw [advanceAt, advanceWith]
    exact fun d certainty => AU.answer (children.zip heads) t d certainty hps
  · rw [advanceAt, advanceWith]
    have hps' := AU.keeps (children.zip heads) t hps
    have hkeep := (soundAll_and_heights_iff remaining h _).mpr fun c hc => by
      obtain ⟨p, hp, rfl⟩ := mem_map.mp hc
      exact (hps' p hp).1
    refine ⟨⟨hkeep.1, fun head hhead => ?_⟩, Nat.succ_le_succ hkeep.2⟩
    obtain ⟨p, hp, rfl⟩ := mem_map.mp hhead
    exact (hps' p hp).2

theorem goes_restrict {driver probe : Cursor P} (hd : Sound remaining driver)
    (hp : Sound remaining probe) (hh : max driver.height probe.height ≤ h)
    (verdict : Certainty → Option Certainty → Option Certainty) (t : ℕ) :
    let q := Seek.restrict docLimit (advanceAt h) verdict (Seek.fuel docLimit) driver probe t
    (∀ d c, q.1 = some (d, c) → t ≤ d ∧ d < docLimit)
      ∧ (Sound remaining q.2.1 ∧ Sound remaining q.2.2)
      ∧ max q.2.1.height q.2.2.height ≤ h := by
  have hd : SoundAt remaining h driver := ⟨hd, (max_le_iff.mp hh).1⟩
  have hp : SoundAt remaining h probe := ⟨hp, (max_le_iff.mp hh).2⟩
  obtain ⟨hanswer, hd', hp'⟩ := A.restrict verdict (Seek.fuel docLimit) hd hp t
  exact ⟨hanswer, ⟨hd'.1, hp'.1⟩, max_le hd'.2 hp'.2⟩

theorem goes_andNot {positive negated : Cursor P}
    (hc : SoundAt remaining (h + 1) (andNot positive negated)) (t : ℕ) :
    Goes remaining (h + 1) (andNot positive negated) t := by
  obtain ⟨hanswer, hsound, hheight⟩ :=
    goes_restrict A hc.1.1 hc.1.2 (Nat.le_of_succ_le_succ hc.2) notVerdict t
  refine ⟨?_, ?_⟩
  · rw [advanceAt, advanceWith]
    exact hanswer
  · rw [advanceAt, advanceWith]
    exact ⟨hsound, Nat.succ_le_succ hheight⟩

theorem goes_filter {driver probe : Cursor P}
    (hc : SoundAt remaining (h + 1) (filter driver probe)) (t : ℕ) :
    Goes remaining (h + 1) (filter driver probe) t := by
  obtain ⟨hanswer, hsound, hheight⟩ :=
    goes_restrict A hc.1.1 hc.1.2 (Nat.le_of_succ_le_succ hc.2) filterVerdict t
  refine ⟨?_, ?_⟩
  · rw [advanceAt, advanceWith]
    exact hanswer
  · rw [advanceAt, advanceWith]
    exact ⟨hsound, Nat.succ_le_succ hheight⟩

theorem goes_maybe {child : Cursor P} (hc : SoundAt remaining (h + 1) (maybe child)) (t : ℕ) :
    Goes remaining (h + 1) (maybe child) t := by
  have hchild : SoundAt remaining h child := ⟨hc.1, Nat.le_of_succ_le_succ hc.2⟩
  have hkeep := A.keeps child t hchild
  refine ⟨fun d certainty hanswer => ?_, ?_⟩
  · rw [advanceAt, advanceWith] at hanswer
    obtain ⟨p, hp, heq⟩ := Option.map_eq_some_iff.mp hanswer
    cases heq
    exact A.answer child t p.1 p.2 hchild hp
  · rw [advanceAt, advanceWith]
    exact ⟨hkeep.1, Nat.succ_le_succ hkeep.2⟩

end

theorem advancesAt (hP : P.Contract remaining) (hspent : P.Spent remaining) (h : ℕ) :
    Seek.Advances docLimit (advanceAt (P := P) h) (SoundAt remaining h) := by
  suffices hgoes : ∀ c : Cursor P, SoundAt remaining h c → ∀ t, Goes remaining h c t from
    ⟨fun c t hc => (hgoes c hc t).keeps, fun c t d e hc => (hgoes c hc t).answer d e⟩
  induction h with
  | zero =>
    intro c hc t
    cases c with
    | postings cursor => exact goes_postings hP hspent 0 hc.1 t
    | bits b => exact goes_bits 0 b t
    | empty => exact goes_empty 0 t
    | and _ | or _ _ | andNot _ _ | filter _ _ | maybe _ =>
      exact absurd hc.2 (Nat.not_succ_le_zero _)
  | succ h ih =>
    have A : Seek.Advances docLimit (advanceAt (P := P) h) (SoundAt remaining h) :=
      ⟨fun c t hc => (ih c hc t).keeps, fun c t d e hc => (ih c hc t).answer d e⟩
    intro c hc t
    cases c with
    | postings cursor => exact goes_postings hP hspent (h + 1) hc.1 t
    | bits b => exact goes_bits (h + 1) b t
    | empty => exact goes_empty (h + 1) t
    | and children => exact goes_and A hc t
    | or children _ => exact goes_or A hc t
    | andNot _ _ => exact goes_andNot A hc t
    | filter _ _ => exact goes_filter A hc t
    | maybe _ => exact goes_maybe A hc t

/-- **A tree answers at or past its target**, whatever it is made of. -/
theorem advances (hP : P.Contract remaining) (hspent : P.Spent remaining) :
    Seek.Advances docLimit (next_geq (P := P)) (Sound remaining) where
  keeps := fun c t hc => ((advancesAt hP hspent c.height).keeps c t ⟨hc, le_rfl⟩).1
  answer := fun c t d e hc => (advancesAt hP hspent c.height).answer c t d e ⟨hc, le_rfl⟩

/-! ## The height of a tree is only a bound -/

section

variable (hP : P.Contract remaining) (hspent : P.Spent remaining)

include hP hspent

theorem advanceAt_succ {h : ℕ} {c : Cursor P} (hc : SoundAt remaining h c) (t : ℕ) :
    advanceAt (h + 1) c t = advanceAt h c t := by
  induction h generalizing c t with
  | zero =>
    cases c with
    | postings _ | bits _ | empty => rfl
    | and _ | or _ _ | andNot _ _ | filter _ _ | maybe _ =>
      exact absurd hc.2 (Nat.not_succ_le_zero _)
  | succ h ih =>
    have hkeeps := (advancesAt hP hspent h).keeps
    rw [advanceAt, advanceAt]
    cases c with
    | postings _ | bits _ | empty => rfl
    | and children =>
      have hall := (soundAll_and_heights_iff remaining h children).mp
        ⟨hc.1, Nat.le_of_succ_le_succ hc.2⟩
      cases children with
      | nil => rfl
      | cons driver _ =>
        obtain ⟨hd, hr⟩ := forall_mem_cons.mp hall
        simp only [advanceWith, Seek.leapfrog_congr hkeeps (fun s t hs => ih hs t) min _ hd hr t]
    | or children heads =>
      have hall := (soundAll_and_heights_iff remaining h children).mp
        ⟨hc.1.1, Nat.le_of_succ_le_succ hc.2⟩
      have hps : ∀ p ∈ children.zip heads, SoundAt remaining h p.1 := fun p hp =>
        hall p.1 (of_mem_zip hp).1
      have hsame : ∀ s t, SoundAt remaining h s → advanceAt (h + 1) s t = advanceAt h s t :=
        fun _ t hs => ih hs t
      simp only [advanceWith, Seek.scan_congr hsame max t hps none]
    | andNot positive negated =>
      have hle := Nat.le_of_succ_le_succ hc.2
      have hd : SoundAt remaining h positive := ⟨hc.1.1, (max_le_iff.mp hle).1⟩
      have hp : SoundAt remaining h negated := ⟨hc.1.2, (max_le_iff.mp hle).2⟩
      simp only [advanceWith,
        Seek.restrict_congr hkeeps (fun s t hs => ih hs t) notVerdict _ hd hp t]
    | filter driver probe =>
      have hle := Nat.le_of_succ_le_succ hc.2
      have hd : SoundAt remaining h driver := ⟨hc.1.1, (max_le_iff.mp hle).1⟩
      have hp : SoundAt remaining h probe := ⟨hc.1.2, (max_le_iff.mp hle).2⟩
      simp only [advanceWith,
        Seek.restrict_congr hkeeps (fun s t hs => ih hs t) filterVerdict _ hd hp t]
    | maybe child =>
      have hchild : SoundAt remaining h child := ⟨hc.1, Nat.le_of_succ_le_succ hc.2⟩
      simp only [advanceWith, ih hchild t]

theorem advanceAt_eq_next_geq {h : ℕ} {c : Cursor P} (hc : SoundAt remaining h c) (t : ℕ) :
    advanceAt h c t = next_geq c t := by
  obtain ⟨k, rfl⟩ := Nat.exists_eq_add_of_le hc.2
  have hsound : SoundAt remaining c.height c := ⟨hc.1, le_rfl⟩
  induction k with
  | zero => rfl
  | succ k ih =>
    have hk : SoundAt remaining (c.height + k) c := ⟨hc.1, le_self_add⟩
    rw [← add_assoc, advanceAt_succ hP hspent hk t]
    exact ih hk

/-- An OR with the position of each of its children. -/
def node (ps : List (Cursor P × Seek.Head Certainty)) : Cursor P :=
  .or (ps.map Prod.fst) (ps.map Prod.snd)

omit hP hspent in
theorem streamed_eq_node (children : List (Cursor P)) :
    streamed children = node (children.map fun c => (c, .fresh)) := by
  simp [streamed, node, Function.comp_def]

/-- An OR is the union of its children. -/
theorem next_geq_node {ps : List (Cursor P × Seek.Head Certainty)}
    (hps : Seek.ValidUnion docLimit (Sound remaining) ps) (t : ℕ) :
    next_geq (node ps) t
      = ((Seek.union next_geq max ps t).1, node (Seek.union next_geq max ps t).2) := by
  have hheights : ∀ c ∈ ps.map Prod.fst, SoundAt remaining (heights (ps.map Prod.fst)) c := by
    refine (soundAll_and_heights_iff remaining _ _).mp ⟨?_, le_rfl⟩
    rw [soundAll_iff]
    intro c hc
    obtain ⟨p, hp, rfl⟩ := mem_map.mp hc
    exact (hps p hp).1
  have hzip : (ps.map Prod.fst).zip (ps.map Prod.snd) = ps := by
    rw [← unzip_fst, ← unzip_snd, zip_unzip]
  have hsame : ∀ c t, SoundAt remaining (heights (ps.map Prod.fst)) c →
      next_geq c t = advanceAt (heights (ps.map Prod.fst)) c t :=
    fun _ t hc => (advanceAt_eq_next_geq hP hspent hc t).symm
  have hscan := Seek.scan_congr hsame max t
    (fun p hp => hheights p.1 (mem_map_of_mem hp)) none
  show advanceAt (heights (ps.map Prod.fst) + 1) (.or (ps.map Prod.fst) (ps.map Prod.snd)) t = _
  rw [advanceAt, advanceWith, hzip, ← hscan]
  rfl

omit hP hspent in
theorem fresh_valid (hchildren : ∀ c ∈ children, c.Sound remaining) :
    Seek.ValidUnion docLimit (Sound remaining)
      (children.map fun c => ((c, .fresh) : Cursor P × Seek.Head Certainty)) := by
  intro p hp
  obtain ⟨c, hc, rfl⟩ := mem_map.mp hp
  exact ⟨hchildren c hc, nofun⟩

/-- **The documents of an OR** are those its children drain to, joined. -/
theorem mem_drain_streamed (hchildren : ∀ c ∈ children, c.Sound remaining) (d : ℕ)
    (certainty : Certainty) :
    (d, certainty) ∈ (streamed children).drain
      ↔ Seek.joinView max (fun _ => none) (children.map fun c => Seek.ofList c.drain) d
          = some certainty := by
  have A := advances (P := P) hP hspent
  have hps := fresh_valid hchildren
  have hvalid : ∀ ps : List (Cursor P × Seek.Head Certainty),
      Seek.ValidUnion docLimit (Sound remaining) ps → (node ps).Sound remaining := by
    intro ps hps
    refine ⟨(soundAll_iff remaining _).mpr fun c hc => ?_, fun head hhead => ?_⟩
    · obtain ⟨p, hp, rfl⟩ := mem_map.mp hc
      exact (hps p hp).1
    · obtain ⟨p, hp, rfl⟩ := mem_map.mp hhead
      exact (hps p hp).2
  have hstream := (A.union max).stream_map
    (fun ps t hps => next_geq_node hP hspent hps t) A hvalid hps 0
  have hpos : 0 < docLimit := by decide
  rw [drain, Seek.drain_eq_stream hpos, streamed_eq_node, hstream,
    A.mem_stream_union max hps (fun p hp => by
      obtain ⟨c, -, rfl⟩ := mem_map.mp hp
      rfl) (Nat.zero_le d)]
  rw [map_map]
  refine Eq.congr_left (congrFun (congrArg (Seek.joinView max fun _ => none) ?_) d)
  refine map_congr_left fun c _ => ?_
  show Seek.ofList (Seek.stream docLimit next_geq c 0) = Seek.ofList c.drain
  rw [drain, Seek.drain_eq_stream hpos]

/-- A bitmap gives its documents. -/
theorem mem_drain_owned (bound : ℕ) (h : bound < docLimit) (docs : List ℕ) (certainty : Certainty)
    (d : ℕ) (c : Certainty) : (d, c) ∈ (owned bound h docs certainty : Cursor P).drain
      ↔ (d ∈ docs ∧ d < bound) ∧ certainty = c := by
  have hwalks := (lawful hP).forward.walks
    (show (owned bound h docs certainty : Cursor P).Ok remaining from trivial)
  rw [drain, Seek.drain_eq_stream (by decide), (advances hP hspent).mem_stream_iff
    (show (owned bound h docs certainty : Cursor P).Sound remaining from trivial) hwalks]
  have hview : view remaining (owned bound h docs certainty : Cursor P) d
      = if d ∈ docs ∧ d < bound then some certainty else none := by
    show Bits.view _ d = _
    simp only [Bits.view, DocSet.contains_new, Bool.and_eq_true, decide_eq_true_eq, zero_le,
      true_and]
  rw [hview]
  constructor
  · rintro ⟨-, -, hd⟩
    split at hd
    case isTrue hmem => exact ⟨hmem, Option.some.inj hd⟩
    case isFalse => cases hd
  · rintro ⟨hmem, rfl⟩
    exact ⟨Nat.zero_le d, hmem.2.trans h, if_pos hmem⟩

end

/-! ## What a join is certain of -/

theorem merge_eq_yes {a b : Option Certainty} :
    a.merge max b = some .yes ↔ a = some .yes ∨ b = some .yes := by
  rcases a with - | ⟨⟨⟩⟩ <;> rcases b with - | ⟨⟨⟩⟩ <;> decide

variable {f : ℕ → Option Certainty}

theorem joinView_eq_yes {gs : List (ℕ → Option Certainty)} {e : ℕ} :
    Seek.joinView max f gs e = some .yes ↔ f e = some .yes ∨ ∃ g ∈ gs, g e = some .yes := by
  induction gs generalizing f with
  | nil => simp [Seek.joinView]
  | cons g gs ih =>
    rw [Seek.joinView, ih, merge_eq_yes, or_assoc, exists_mem_cons_iff]

theorem certainty_ext {a b : Option Certainty} (hyes : a = some .yes ↔ b = some .yes)
    (hnone : a ≠ none ↔ b ≠ none) : a = b := by
  rcases a with - | ⟨⟨⟩⟩ <;> rcases b with - | ⟨⟨⟩⟩ <;> simp_all

/-! ## Either way the same documents -/

section

variable (hP : P.Contract remaining) (hspent : P.Spent remaining)

include hP hspent

variable {c : Cursor P} {d : ℕ} {children : List (Cursor P)}

theorem drain_sorted (hc : c.Sound remaining) : c.drain.Pairwise fun p q => p.1 < q.1 := by
  rw [drain, Seek.drain_eq_stream (by decide)]
  exact ((advances hP hspent).stream_sorted hc 0).1

omit hP hspent in
theorem mem_withCertainty {certainty : Certainty} {docs : List (ℕ × Certainty)} :
    d ∈ withCertainty certainty docs ↔ (d, certainty) ∈ docs := by
  simp [withCertainty]

omit hP hspent in
theorem streamed_sound (h : ∀ c ∈ children, c.Sound remaining) :
    (streamed children).Sound remaining := by
  refine ⟨(soundAll_iff remaining children).mpr h, fun head hhead d c heq => ?_⟩
  obtain ⟨_, -, rfl⟩ := mem_map.mp hhead
  cases heq

omit hP hspent in
theorem owned_sound {a b : Cursor P} (ha : a.Sound remaining) (hb : b.Sound remaining) :
    ∀ c ∈ [a, b], c.Sound remaining :=
  forall_mem_cons.mpr ⟨ha, forall_mem_singleton.mpr hb⟩

/-- Some child has a document with a certainty. -/
def Has (children : List (Cursor P)) (d : ℕ) (certainty : Certainty) : Prop :=
  ∃ c ∈ children, (d, certainty) ∈ c.drain

theorem mem_ofList_drain (hchildren : ∀ c ∈ children, c.Sound remaining) {certainty : Certainty} :
    (∃ g ∈ children.map fun c => Seek.ofList c.drain, g d = some certainty)
      ↔ Has children d certainty := by
  simp only [mem_map, exists_exists_and_eq_and]
  exact exists_congr fun c => and_congr_right fun hc =>
    Seek.ofList_eq_some_iff (drain_sorted hP hspent (hchildren c hc))

/-- An OR is certain of what some child is certain of. -/
theorem yes_mem_streamed (hchildren : ∀ c ∈ children, c.Sound remaining) :
    (d, .yes) ∈ (streamed children).drain ↔ Has children d .yes := by
  rw [mem_drain_streamed hP hspent hchildren, joinView_eq_yes,
    mem_ofList_drain hP hspent hchildren, or_iff_right (by simp)]

/-- An OR has what some child has. -/
theorem exists_mem_streamed (hchildren : ∀ c ∈ children, c.Sound remaining) :
    (∃ certainty, (d, certainty) ∈ (streamed children).drain)
      ↔ ∃ certainty, Has children d certainty := by
  have hjoin : (∃ certainty, (d, certainty) ∈ (streamed children).drain)
      ↔ Seek.joinView max (fun _ => none) (children.map fun c => Seek.ofList c.drain) d ≠ none := by
    rw [Option.ne_none_iff_exists']
    exact exists_congr fun certainty => mem_drain_streamed hP hspent hchildren d certainty
  rw [hjoin, Seek.joinView_ne_none_iff, or_iff_right (by simp)]
  simp only [Option.ne_none_iff_exists', ← mem_ofList_drain hP hspent hchildren]
  exact ⟨fun ⟨g, hg, e, he⟩ => ⟨e, g, hg, he⟩, fun ⟨e, g, hg, he⟩ => ⟨g, hg, e, he⟩⟩

omit hP hspent in
/-- Documents in order are known by those in them and those they are certain of. -/
theorem eq_of_yes_iff {xs ys : List (ℕ × Certainty)} (hxs : xs.Pairwise fun p q => p.1 < q.1)
    (hys : ys.Pairwise fun p q => p.1 < q.1) (hyes : ∀ d, (d, .yes) ∈ xs ↔ (d, .yes) ∈ ys)
    (hany : ∀ d, (∃ e, (d, e) ∈ xs) ↔ ∃ e, (d, e) ∈ ys) : xs = ys := by
  have hof : ∀ d, Seek.ofList xs d = Seek.ofList ys d := fun d => by
    refine certainty_ext ?_ ?_
    · rw [Seek.ofList_eq_some_iff hxs, Seek.ofList_eq_some_iff hys, hyes]
    · simp only [Option.ne_none_iff_exists', Seek.ofList_eq_some_iff hxs,
        Seek.ofList_eq_some_iff hys, hany]
  have : Std.Irrefl fun p q : ℕ × Certainty => p.1 < q.1 := ⟨fun p => lt_irrefl p.1⟩
  have : Std.Antisymm fun p q : ℕ × Certainty => p.1 < q.1 := ⟨fun _ _ h h' => absurd h h'.asymm⟩
  refine hxs.eq_of_mem_iff hys fun p => ?_
  rw [← Seek.ofList_eq_some_iff hxs, ← Seek.ofList_eq_some_iff hys, hof]

/-- An OR is known by what its children have. -/
theorem drain_streamed_congr {children' : List (Cursor P)}
    (hchildren : ∀ c ∈ children, c.Sound remaining)
    (hchildren' : ∀ c ∈ children', c.Sound remaining)
    (h : ∀ d certainty, Has children d certainty ↔ Has children' d certainty) :
    (streamed children).drain = (streamed children').drain := by
  refine eq_of_yes_iff (drain_sorted hP hspent (streamed_sound hchildren))
    (drain_sorted hP hspent (streamed_sound hchildren')) (fun d => ?_) fun d => ?_
  · rw [yes_mem_streamed hP hspent hchildren, yes_mem_streamed hP hspent hchildren', h]
  · rw [exists_mem_streamed hP hspent hchildren, exists_mem_streamed hP hspent hchildren']
    exact exists_congr (h d)

/-- **A materialised union has the documents of the streamed one**, below its
bound. -/
theorem drain_materialise
    (hchildren : ∀ c ∈ children, c.Sound remaining) (bound : ℕ) (h : bound < docLimit) :
    (materialise children bound h).drain
      = (streamed children).drain.filter fun p => p.1 < bound := by
  have hdrained : ∀ (certainty : Certainty) (d : ℕ),
      d ∈ withCertainty certainty (children.flatMap drain) ↔ Has children d certainty :=
    fun certainty d => mem_withCertainty.trans mem_flatMap
  have howned : ∀ certainty, (owned bound h (withCertainty certainty (children.flatMap drain))
      certainty : Cursor P).Sound remaining := fun _ => trivial
  have hbits := owned_sound (howned .yes) (howned .maybe)
  -- what the two bitmaps have
  have hhas : ∀ d certainty,
      Has [owned bound h (withCertainty .yes (children.flatMap drain)) .yes,
        (owned bound h (withCertainty .maybe (children.flatMap drain)) .maybe : Cursor P)]
        d certainty
      ↔ Has children d certainty ∧ d < bound := by
    intro d certainty
    simp only [Has, exists_mem_cons_iff, not_mem_nil, false_and, exists_false, or_false,
      mem_drain_owned hP hspent]
    simp only [hdrained, Has]
    cases certainty <;> simp
  refine eq_of_yes_iff (drain_sorted hP hspent (streamed_sound hbits))
    ((drain_sorted hP hspent (streamed_sound hchildren)).sublist filter_sublist)
    (fun d => ?_) fun d => ?_
  · rw [mem_filter, decide_eq_true_eq, yes_mem_streamed hP hspent hchildren]
    exact (yes_mem_streamed hP hspent hbits).trans (hhas d .yes)
  · simp only [mem_filter, decide_eq_true_eq]
    rw [exists_and_right, exists_mem_streamed hP hspent hchildren, ← exists_and_right]
    exact (exists_mem_streamed hP hspent hbits).trans (exists_congr (hhas d))

omit hP hspent in
theorem drain_empty : (empty : Cursor P).drain = [] := by
  rw [drain, Seek.drain, Seek.fuel_eq]
  exact Seek.drainFrom_none rfl

/-- An OR of one child has that child's documents. -/
theorem drain_streamed_singleton (hc : c.Sound remaining) : (streamed [c]).drain = c.drain := by
  have hall : ∀ c' ∈ [c], c'.Sound remaining := forall_mem_singleton.mpr hc
  have hhas : ∀ d certainty, Has [c] d certainty ↔ (d, certainty) ∈ c.drain := fun d certainty => by
    simp [Has]
  refine eq_of_yes_iff (drain_sorted hP hspent (streamed_sound hall)) (drain_sorted hP hspent hc)
    (fun d => ?_) fun d => ?_
  · rw [yes_mem_streamed hP hspent hall, hhas]
  · rw [exists_mem_streamed hP hspent hall]
    exact exists_congr (hhas d)

theorem drain_streamed_nil : (streamed ([] : List (Cursor P))).drain = [] := by
  have hall : ∀ c ∈ ([] : List (Cursor P)), c.Sound remaining := nofun
  refine eq_nil_iff_forall_not_mem.mpr fun p hp => ?_
  obtain ⟨_, c, hc, -⟩ := (exists_mem_streamed hP hspent hall).mp ⟨p.2, hp⟩
  cases hc

/-- A union has the documents of an OR of all its children, below the bound. -/
theorem drain_union (children : List (Cursor P)) (hchildren : ∀ c ∈ children, c.Sound remaining)
    (bound : ℕ) (h : bound < docLimit) :
    (union children bound h).drain.filter (fun p => p.1 < bound)
      = (streamed children).drain.filter fun p => p.1 < bound := by
  have hfilter : ∀ c ∈ children.filter (! ·.isEmpty), c.Sound remaining := fun c hc =>
    hchildren c (mem_of_mem_filter hc)
  -- an empty child has nothing
  have hsame : (streamed children).drain = (streamed (children.filter (! ·.isEmpty))).drain := by
    refine drain_streamed_congr hP hspent hchildren hfilter fun d certainty => ?_
    constructor
    · rintro ⟨c, hc, hmem⟩
      refine ⟨c, mem_filter.mpr ⟨hc, ?_⟩, hmem⟩
      cases c with
      | empty => rw [drain_empty] at hmem; cases hmem
      | _ => rfl
    · exact fun ⟨c, hc, hmem⟩ => ⟨c, mem_of_mem_filter hc, hmem⟩
  rw [hsame]
  unfold union
  generalize children.filter (! ·.isEmpty) = cs at hfilter
  split
  case h_1 => rw [drain_empty, drain_streamed_nil hP hspent]
  case h_2 child =>
    rw [drain_streamed_singleton hP hspent (hfilter child (mem_singleton_self child))]
  case h_3 =>
    split
    case isTrue =>
      rw [drain_materialise hP hspent hfilter bound h, filter_filter]
      simp only [Bool.and_self]
    case isFalse => rfl

/-- An answer, unless it is at or past the bound. -/
def clipped (bound : ℕ) (answer : Option (ℕ × Certainty)) : Option (ℕ × Certainty) :=
  answer.filter fun p => p.1 < bound

omit hP hspent in
theorem least_clipped {f g : ℕ → Option Certainty} {bound t : ℕ} {answer : Option (ℕ × Certainty)}
    (h : Seek.Least f t answer) (hg : ∀ e, g e = if e < bound then f e else none) :
    Seek.Least g t (clipped bound answer) := by
  match answer, h with
  | none, h =>
    intro e he
    rw [hg, h e he, ite_self]
  | some (d, c), ⟨hle, hd, hlow⟩ =>
    by_cases hlt : d < bound
    · have hkeep : clipped bound (some (d, c)) = some (d, c) := by simp [clipped, hlt]
      rw [hkeep]
      refine ⟨hle, by rw [hg, if_pos hlt, hd], fun e he hed => ?_⟩
      rw [hg, hlow e he hed, ite_self]
    · have hdrop : clipped bound (some (d, c)) = none := by simp [clipped, not_lt.mp hlt]
      rw [hdrop]
      intro e he
      rw [hg]
      split
      case isTrue heb => exact hlow e he (by omega)
      case isFalse => rfl

/-- A child that answers non-decreasing targets from one view. -/
def Walks (c : Cursor P) (f : ℕ → Option Certainty) : Prop :=
  Seek.WalksFrom next_geq f 0 c

omit hspent in
/-- So does every tree over terms without records, -/
theorem walks_of_ok (hc : c.Ok remaining) : c.Walks (c.view remaining) :=
  (lawful hP).forward.walks hc

/-- and a term with records. -/
theorem walks_postings {cursor : Postings.Cursor P} (hc : cursor.Recorded remaining) :
    (postings cursor).Walks (cursor.mixedView remaining) := by
  have F := Postings.Cursor.forward hP hspent
  intro targets hsorted hle
  have hstep : ∀ (c : Postings.Cursor P) t, c.Recorded remaining →
      next_geq (postings c) t = ((c.next_geq t).1, postings (c.next_geq t).2) :=
    fun _ _ _ => rfl
  rw [Seek.run_map hstep F.keeps hc targets]
  exact F.walks hc targets hsorted hle

variable {fs : List (ℕ → Option Certainty)}

/-- An OR of children that answer from views answers from their join. -/
theorem walks_streamed (hchildren : ∀ c ∈ children, c.Sound remaining)
    (hwalks : List.Forall₂ Walks children fs) :
    (streamed children).Walks (Seek.joinView max (fun _ => none) fs) := by
  have A := advances (P := P) hP hspent
  have hps := fresh_valid hchildren
  have hunion : Seek.WalksFrom (Seek.union next_geq max) (Seek.joinView max (fun _ => none) fs) 0
      (children.map fun c => ((c, .fresh) : Cursor P × Seek.Head Certainty)) := by
    refine Seek.walks_union max ?_
    rw [forall₂_map_left_iff]
    exact hwalks
  intro targets hsorted hle
  have hrun := Seek.run_map (fun ps t hps => next_geq_node hP hspent hps t)
    (A.union max).keeps hps targets
  rw [streamed_eq_node, hrun]
  exact hunion targets hsorted hle

/-- A child that answers from a view drains to it. -/
theorem Walks.mem_drain (hc : c.Sound remaining) (h : c.Walks f) (d : ℕ) (certainty : Certainty) :
    (d, certainty) ∈ c.drain ↔ d < docLimit ∧ f d = some certainty := by
  rw [drain, Seek.drain_eq_stream (by decide), (advances hP hspent).mem_stream_iff hc h,
    and_iff_right (Nat.zero_le d)]

/-- A materialised union of children that answer from views answers from their
join, below its bound. -/
theorem walks_materialise (hchildren : ∀ c ∈ children, c.Sound remaining)
    (hwalks : List.Forall₂ Walks children fs) (bound : ℕ) (h : bound < docLimit) :
    (materialise children bound h).Walks
      fun e => if e < bound then Seek.joinView max (fun _ => none) fs e else none := by
  have hstreamed := walks_streamed hP hspent hchildren hwalks
  have hok : (materialise children bound h).Ok remaining :=
    ⟨⟨trivial, trivial, trivial⟩, .cons nofun
      (.cons nofun .nil)⟩
  have hmat := (lawful hP).forward.walks hok
  have hsound : (materialise children bound h).Sound remaining :=
    streamed_sound (owned_sound trivial trivial)
  -- both views are read off the documents drained
  have hview : (materialise children bound h).view remaining
      = fun e => if e < bound then Seek.joinView max (fun _ => none) fs e else none := by
    funext e
    have hbounded := (lawful hP).bounded _ hok e
    have hmem : ∀ certainty, (materialise children bound h).view remaining e = some certainty
        ↔ e < bound ∧ Seek.joinView max (fun _ => none) fs e = some certainty := by
      intro certainty
      have hdrained := Walks.mem_drain hP hspent hsound hmat e certainty
      rw [drain_materialise hP hspent hchildren bound h, mem_filter, decide_eq_true_eq,
        hstreamed.mem_drain hP hspent (streamed_sound hchildren)] at hdrained
      constructor
      · intro hsome
        have hlt : e < docLimit := by
          by_contra hge
          rw [hbounded (not_lt.mp hge)] at hsome
          cases hsome
        obtain ⟨⟨-, hjoin⟩, hb⟩ := hdrained.mpr ⟨hlt, hsome⟩
        exact ⟨hb, hjoin⟩
      · rintro ⟨hb, hjoin⟩
        exact (hdrained.mp ⟨⟨hb.trans h, hjoin⟩, hb⟩).2
    refine Option.ext fun certainty => ?_
    rw [hmem]
    split
    case isTrue hb => exact and_iff_right hb
    case isFalse hb => exact iff_of_false (fun hcon => hb hcon.1) (Option.some_ne_none _).symm
  rw [← hview]
  exact hmat

/-- **Streamed or materialised, a union is the same below its bound.** Drained, it
has the same documents with the same certainties, whatever its children are;
where each child answers non-decreasing targets from one view, the two answer
all non-decreasing targets alike. -/
theorem materialise_agrees (children : List (Cursor P))
    (hchildren : ∀ c ∈ children, c.Sound remaining) (bound : ℕ) (h : bound < docLimit) :
    (materialise children bound h).drain
        = (streamed children).drain.filter (fun p => p.1 < bound)
      ∧ (union children bound h).drain.filter (fun p => p.1 < bound)
        = (streamed children).drain.filter (fun p => p.1 < bound)
      ∧ ((∀ c ∈ children, ∃ f, c.Walks f) →
        ∀ targets : List ℕ, targets.Pairwise (· ≤ ·) →
          Seek.run next_geq (materialise children bound h) targets
            = (Seek.run next_geq (streamed children) targets).map (clipped bound)) := by
  refine ⟨drain_materialise hP hspent hchildren bound h,
    drain_union hP hspent children hchildren bound h, fun hviews targets hsorted => ?_⟩
  obtain ⟨fs, hfs⟩ : ∃ fs : List (ℕ → Option Certainty), List.Forall₂ Walks children fs := by
    clear hchildren
    induction children with
    | nil => exact ⟨[], .nil⟩
    | cons c _ ih =>
      obtain ⟨⟨f, hf⟩, hcs⟩ := forall_mem_cons.mp hviews
      obtain ⟨fs, hfs⟩ := ih hcs
      exact ⟨f :: fs, .cons hf hfs⟩
  have hle : ∀ t ∈ targets, 0 ≤ t := fun t _ => Nat.zero_le t
  have hmat := walks_materialise hP hspent hchildren hfs bound h targets hsorted hle
  have hstreamed := walks_streamed hP hspent hchildren hfs targets hsorted hle
  have hunique : Relator.RightUnique
      (Seek.Least fun e => if e < bound then Seek.joinView max (fun _ => none) fs e else none) :=
    fun _ _ _ => Seek.Least.unique
  refine right_unique_forall₂' hunique hmat ?_
  rw [forall₂_map_right_iff]
  exact hstreamed.imp fun _ _ hl => least_clipped hl fun _ => rfl

end

theorem eight_lt_docLimit : 8 < docLimit := by decide

/-- A term with records beside a bitmap. -/
def sampleChildren : List (Cursor Intpack.plain) :=
  [.postings Candidates.sampleRecorded.cursor, owned 8 eight_lt_docLimit [5, 6] .yes]

/-- The documents `3`, `5` and `6`, drained and walked. -/
theorem sampleChildren_agree :
    (materialise sampleChildren 7 (by decide)).drain
        = (streamed sampleChildren).drain.filter (fun p => p.1 < 7)
      ∧ Seek.run next_geq (materialise sampleChildren 7 (by decide)) [0, 4, 7]
        = (Seek.run next_geq (streamed sampleChildren) [0, 4, 7]).map (clipped 7) := by
  have hrecorded := Candidates.cursor_recorded Intpack.plain_contract Candidates.sampleRecorded
  have hsound : ∀ c ∈ sampleChildren, c.Sound (P := Intpack.plain) id :=
    owned_sound hrecorded trivial
  have hwalks : ∀ c ∈ sampleChildren, ∃ f, c.Walks f := by
    refine forall_mem_cons.mpr ⟨?_, forall_mem_singleton.mpr ?_⟩
    · exact ⟨_, walks_postings Intpack.plain_contract Intpack.plain_spent hrecorded⟩
    · exact ⟨_, walks_of_ok Intpack.plain_contract trivial⟩
  have hagrees := materialise_agrees Intpack.plain_contract Intpack.plain_spent sampleChildren
    hsound 7 (by decide)
  exact ⟨hagrees.1, hagrees.2.2 hwalks [0, 4, 7] (by decide)⟩

end Cursor

end Ferret
