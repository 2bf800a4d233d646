import Mathlib.Data.List.Forall2
import Mathlib.Order.Lattice

/-!
# Seekable cursors

A seekable cursor enumerates, in increasing order, the keys at which a
partial function is defined. Its one operation asks for the least key at or
past a target, and leaves the cursor standing on the key it returned. The
partial function a cursor still has ahead of it is its *view*; a step may
only shrink the view, and never at or past the target it was asked for.

That last clause, rather than "targets never decrease", is what makes
cursors compose: a combinator asks its children for keys of its own
choosing, and after an exhausted search a child may stand behind a key it
was already asked for. `Lawful` states the contract in terms of views, and
the three combinators below – leapfrog intersection, head-by-head union and
restriction by a probe – keep it for arbitrary children.

The intersection and the restriction loop. Keys are bounded by `N`, every
iteration raises the target, and the loops carry `fuel N`; that this is
enough is part of what is proved.
-/

namespace Seek

open List Option

variable {α C : Type}

/-- `Least f t r`: `r` is the least key at or past `t` at which `f` is
defined, with its value, and `none` when there is no such key. -/
def Least (f : ℕ → Option C) (t : ℕ) : Option (ℕ × C) → Prop
  | none => ∀ e, t ≤ e → f e = none
  | some (d, c) => t ≤ d ∧ f d = some c ∧ ∀ e, t ≤ e → e < d → f e = none

variable {f g : ℕ → Option C} {t t' e : ℕ} {r : Option (ℕ × C)} {gs : List (ℕ → Option C)}

/-- The least answer is unique. -/
theorem Least.unique {r' : Option (ℕ × C)} (h : Least f t r) (h' : Least f t r') : r = r' := by
  match r, r' with
  | none, none => rfl
  | none, some (d, c) =>
    have hd := h d h'.1
    rw [h'.2.1] at hd
    cases hd
  | some (d, c), none =>
    have hd := h' d h.1
    rw [h.2.1] at hd
    cases hd
  | some (d, c), some (d', c') =>
    have hle : d = d' := by
      rcases lt_trichotomy d d' with hlt | heq | hlt
      · have := h'.2.2 d h.1 hlt
        rw [h.2.1] at this
        cases this
      · exact heq
      · have := h.2.2 d' h'.1 hlt
        rw [h'.2.1] at this
        cases this
    subst hle
    have hc : some c = some c' := h.2.1.symm.trans h'.2.1
    cases hc
    rfl

/-- The least answer from `t` is the least answer from any target between
`t` and it. -/
theorem Least.mono {d : ℕ} {c : C} (h : Least f t (some (d, c))) (ht : t ≤ t') (hd : t' ≤ d) :
    Least f t' (some (d, c)) :=
  ⟨hd, h.2.1, fun e he hlt => h.2.2 e (ht.trans he) hlt⟩

/-- Functions that agree from a target on have the same least answers
there. -/
theorem Least.congr (h : Least f t r) (hfg : ∀ e, t ≤ e → g e = f e) : Least g t r := by
  match r with
  | none => exact fun e he => (hfg e he).trans (h e he)
  | some (d, c) =>
    exact ⟨h.1, (hfg d h.1).trans h.2.1,
      fun e he hlt => (hfg e he).trans (h.2.2 e he hlt)⟩

/-- A view may only lose keys. -/
def Shrinks (f g : ℕ → Option C) : Prop :=
  ∀ e, g e = none ∨ g e = f e

/-- Two views agree at and past a key. -/
def AgreeFrom (t : ℕ) (f g : ℕ → Option C) : Prop :=
  ∀ e, t ≤ e → g e = f e

theorem Shrinks.refl (f : ℕ → Option C) : Shrinks f f := fun _ => .inr rfl

theorem Shrinks.trans {h : ℕ → Option C} (hfg : Shrinks f g)
    (hgh : Shrinks g h) : Shrinks f h := fun e =>
  (hgh e).elim .inl (fun heq => (hfg e).imp heq.trans heq.trans)

theorem Shrinks.none_of_none (h : Shrinks f g) (he : f e = none) : g e = none :=
  (h e).elim id (fun heq => heq.trans he)

theorem AgreeFrom.refl (t : ℕ) (f : ℕ → Option C) : AgreeFrom t f f :=
  fun _ _ => rfl

theorem AgreeFrom.trans {h : ℕ → Option C}
    (hfg : AgreeFrom t f g) (hgh : AgreeFrom t' g h) (ht : t ≤ t') :
    AgreeFrom t' f h := fun e he =>
  (hgh e he).trans (hfg e (ht.trans he))

theorem AgreeFrom.mono (h : AgreeFrom t f g) (ht : t ≤ t') : AgreeFrom t' f g :=
  fun e he => h e (ht.trans he)

/-- What one step from the view `f` at target `t` owes: the least answer, and
a view `g` that shrank without touching what lies at or past the target. On
an answer nothing is left below it, so a target not past it finds it again. -/
structure StepOk (f : ℕ → Option C) (t : ℕ) (r : Option (ℕ × C))
    (g : ℕ → Option C) : Prop where
  least : Least f t r
  shrinks : Shrinks f g
  agree : AgreeFrom t f g
  stays : ∀ d c, r = some (d, c) → ∀ e, e < d → g e = none

/-- Renaming the values changes nothing about the keys. -/
theorem StepOk.map (h : StepOk f t r g) (φ : C → C) :
    StepOk (fun e => (f e).map φ) t (r.map fun p => (p.1, φ p.2)) fun e => (g e).map φ where
  least := by
    match r, h.least with
    | none, hl => exact fun e he => congrArg (Option.map φ) (hl e he)
    | some (d, c), hl =>
      exact ⟨hl.1, congrArg (Option.map φ) hl.2.1,
        fun e he hlt => congrArg (Option.map φ) (hl.2.2 e he hlt)⟩
  shrinks := fun e => (h.shrinks e).imp (congrArg (Option.map φ)) (congrArg (Option.map φ))
  agree := fun e he => congrArg (Option.map φ) (h.agree e he)
  stays := fun d c hdc e hlt => by
    match r, h.stays with
    | some (d', c'), hs =>
      cases hdc
      exact congrArg (Option.map φ) (hs d' c' rfl e hlt)

/-- **The contract of a seekable cursor** with keys below `N`. -/
structure Lawful (N : ℕ) (step : α → ℕ → Option (ℕ × C) × α)
    (valid : α → Prop) (view : α → ℕ → Option C) : Prop where
  bounded : ∀ s, valid s → ∀ e, N ≤ e → view s e = none
  keeps : ∀ s t, valid s → valid (step s t).2
  ok : ∀ s t, valid s → StepOk (view s) t (step s t).1 (view (step s t).2)

variable {s : α} {step : α → ℕ → Option (ℕ × C) × α} {view : α → ℕ → Option C} {N : ℕ}

/-- After an answer, every target not past it returns it again, whatever was
asked before. -/
theorem Lawful.repeats {valid : α → Prop} (L : Lawful N step valid view) (hs : valid s) {d : ℕ}
    {c : C} (hr : (step s t).1 = some (d, c)) (ht' : t' ≤ d) :
    (step (step s t).2 t').1 = some (d, c) := by
  have h := L.ok s t hs
  have h' := (L.ok (step s t).2 t' (L.keeps s t hs)).least
  have hl : Least (view s) t (some (d, c)) := hr ▸ h.least
  refine h'.unique ⟨ht', ?_, fun e _ hlt => h.stays d c hr e hlt⟩
  rw [h.agree d hl.1]
  exact hl.2.1

/-! ## Runs -/

/-- The answers of a cursor to a sequence of targets. -/
def run (step : α → ℕ → Option (ℕ × C) × α) : α → List ℕ → List (Option (ℕ × C))
  | _, [] => []
  | s, t :: ts => (step s t).1 :: run step (step s t).2 ts

/-- Where a sequence of targets leaves a cursor. -/
def after (step : α → ℕ → Option (ℕ × C) × α) : α → List ℕ → α
  | s, [] => s
  | s, t :: ts => after step (step s t).2 ts

theorem Lawful.valid_after {valid : α → Prop} (L : Lawful N step valid view) (hs : valid s)
    (ts : List ℕ) :
    valid (after step s ts) := by
  induction ts generalizing s with
  | nil => exact hs
  | cons t ts ih => exact ih (L.keeps s t hs)

/-- What walking forwards needs of a cursor: it answers from its view, and what
lies at or past the target stays in it. Nothing is said of targets that
decrease. -/
structure Forward (step : α → ℕ → Option (ℕ × C) × α) (valid : α → Prop)
    (view : α → ℕ → Option C) : Prop where
  keeps : ∀ s t, valid s → valid (step s t).2
  least : ∀ s t, valid s → Least (view s) t (step s t).1
  agree : ∀ s t, valid s → AgreeFrom t (view s) (view (step s t).2)

section

variable {step : α → ℕ → Option (ℕ × C) × α} {valid : α → Prop} {view : α → ℕ → Option C}

theorem Lawful.forward (L : Lawful N step valid view) : Forward step valid view where
  keeps := L.keeps
  least := fun s t hs => (L.ok s t hs).least
  agree := fun s t hs => (L.ok s t hs).agree

/-- **A run answers from the view it started with.** As long as the targets
do not decrease, every answer is the least one of the original view. -/
theorem Forward.run_least (F : Forward step valid view) (hs : valid s) {ts : List ℕ}
    (hts : ts.Pairwise (· ≤ ·)) : List.Forall₂ (Least (view s)) ts (run step s ts) := by
  suffices h : ∀ (f : ℕ → Option C) (t₀ : ℕ) (s : α) (ts : List ℕ), valid s →
      AgreeFrom t₀ f (view s) → (∀ t ∈ ts, t₀ ≤ t) → ts.Pairwise (· ≤ ·) →
      List.Forall₂ (Least f) ts (run step s ts) from
    h (view s) 0 s ts hs (AgreeFrom.refl 0 _) (fun t _ => t.zero_le) hts
  intro f t₀ s ts
  -- the view agrees with the original one from the last target on
  induction ts generalizing t₀ s with
  | nil => exact fun _ _ _ _ => .nil
  | cons t ts ih =>
    intro hs ha hle hp
    have ht : t₀ ≤ t := hle t (.head _)
    refine .cons
      ((F.least s t hs).congr fun e he => (ha e (ht.trans he)).symm) ?_
    exact ih t (step s t).2 (F.keeps s t hs) (ha.trans (F.agree s t hs) ht)
      (pairwise_cons.mp hp).1 (pairwise_cons.mp hp).2

theorem Lawful.run_least (L : Lawful N step valid view) (hs : valid s) {ts : List ℕ}
    (hts : ts.Pairwise (· ≤ ·)) :
    List.Forall₂ (Least (view s)) ts (run step s ts) :=
  L.forward.run_least hs hts

theorem run_append (s : α) (ts us : List ℕ) :
    run step s (ts ++ us) = run step s ts ++ run step (after step s ts) us := by
  induction ts generalizing s with
  | nil => rfl
  | cons t ts ih => exact congrArg _ (ih _)

theorem after_append (s : α) (ts us : List ℕ) :
    after step s (ts ++ us) = after step (after step s ts) us := by
  induction ts generalizing s with
  | nil => rfl
  | cons t ts ih => exact ih _

end

/-! ## Sorted lists -/

/-- The view of a list of keys that all have one value. -/
def listView (c : C) (xs : List ℕ) (e : ℕ) : Option C :=
  if e ∈ xs then some c else none

/-- Dropping the keys below the target is a step of a sorted list. -/
theorem stepOk_dropWhile (c : C) {xs : List ℕ} (hxs : xs.Pairwise (· < ·)) (t : ℕ) :
    StepOk (listView c xs) t ((xs.dropWhile (· < t)).head?.map (·, c))
      (listView c (xs.dropWhile (· < t))) := by
  induction xs with
  | nil =>
    exact ⟨fun _ _ => rfl, Shrinks.refl _, AgreeFrom.refl t _, nofun⟩
  | cons x xs ih =>
    obtain ⟨hx, hxs'⟩ := pairwise_cons.mp hxs
    by_cases hlt : x < t
    · rw [dropWhile_cons_of_pos (by simpa using hlt)]
      have hne : ∀ e, e ≠ x → listView c (x :: xs) e = listView c xs e := fun e he => by
        simp [listView, he]
      have hx' : listView c xs x = none :=
        if_neg fun hmem => lt_irrefl x (hx x hmem)
      have h := ih hxs'
      refine ⟨h.least.congr fun e he => hne e (by omega), fun e => ?_,
        fun e he => (h.agree e he).trans (hne e (by omega)).symm, h.stays⟩
      by_cases he : e = x
      · rw [he]
        exact .inl (h.shrinks.none_of_none hx')
      · rw [hne e he]
        exact h.shrinks e
    · rw [dropWhile_cons_of_neg (by simpa using hlt)]
      have hlow : ∀ e, e < x → listView c (x :: xs) e = none := by
        intro e he
        refine if_neg fun hmem => ?_
        rcases mem_cons.mp hmem with rfl | hmem
        · exact lt_irrefl e he
        · exact lt_asymm he (hx e hmem)
      refine ⟨⟨not_lt.mp hlt, if_pos (.head _), fun e _ he => hlow e he⟩,
        Shrinks.refl _, AgreeFrom.refl t _, fun d c' hdc e he => ?_⟩
      cases hdc
      exact hlow e he

/-- Enough iterations for a loop that raises a key below `N` every time.
Irreducible, since `N` may be large. -/
@[irreducible]
def fuel (N : ℕ) : ℕ := N + 1

theorem fuel_eq (N : ℕ) : fuel N = N + 1 := by
  unfold fuel
  rfl

/-! ## Following a driver

Both the intersection and the restriction follow one driver: the composite is
defined at a key where the driver is and where the others, told the driver's
value, agree. `Chase` is the invariant of their search loops. What the others
still know of a key matters only where the driver may come back to. -/

/-- The keys of a driver that the others, told its value, let through. -/
def along (f : ℕ → Option C) (K : ℕ → C → Option C) (e : ℕ) : Option C :=
  (f e).bind (K e)

theorem along_none {K : ℕ → C → Option C} (h : f e = none) : along f K e = none := by
  rw [along, h]
  rfl

/-- A search from `t₀` over the driver `f` and the others `K` has reached the
target `t`, with `f'` and `K'` left of them. -/
structure Chase (f : ℕ → Option C) (K : ℕ → C → Option C) (t₀ t : ℕ)
    (f' : ℕ → Option C) (K' : ℕ → C → Option C) : Prop where
  le : t₀ ≤ t
  shrinks : Shrinks f f'
  agree : AgreeFrom t f f'
  known : ∀ e, f' e ≠ none ∨ t ≤ e → K' e = K e
  skipped : ∀ e, t₀ ≤ e → e < t → along f K e = none

section

variable {f f' f'' : ℕ → Option C} {K K' K'' : ℕ → C → Option C} {t₀ t t' d : ℕ}
  {c c' : C}

theorem Chase.start (f : ℕ → Option C) (K : ℕ → C → Option C) (t : ℕ) :
    Chase f K t t f K where
  le := le_rfl
  shrinks := Shrinks.refl f
  agree := AgreeFrom.refl t f
  known := fun _ _ => rfl
  skipped := fun _ he hlt => absurd hlt (not_lt.mpr he)

/-- What is left of the composite, once the driver has stepped. -/
theorem Chase.left (h : Chase f K t₀ t f' K') (hs : Shrinks f' f'') :
    Shrinks (along f K) (along f'' K') := by
  intro e
  by_cases he : f' e = none
  · exact .inl (along_none (hs.none_of_none he))
  · rcases (h.shrinks.trans hs) e with hn | heq
    · exact .inl (along_none hn)
    · exact .inr (by rw [along, along, heq, h.known e (Or.inl he)])

/-- The search ends without an answer when nothing lies at or past the
target any more. -/
theorem Chase.exhausted (h : Chase f K t₀ t f' K') (hs : Shrinks f' f'')
    (hnone : ∀ e, t ≤ e → along f K e = none) :
    StepOk (along f K) t₀ none (along f'' K') := by
  have hall : ∀ e, t₀ ≤ e → along f K e = none := fun e he =>
    (lt_or_ge e t).elim (h.skipped e he) (hnone e)
  refine ⟨hall, h.left hs, fun e he => ?_, nofun⟩
  rw [hall e he]
  exact (h.left hs).none_of_none (hall e he)

/-- A spent driver ends the search. -/
theorem Chase.spent (h : Chase f K t₀ t f' K') (hd : StepOk f' t none f'') :
    StepOk (along f K) t₀ none (along f'' K') :=
  h.exhausted hd.shrinks fun e he =>
    along_none ((h.agree e he).symm.trans (hd.least e he))

/-- The driver proposes a key, and the others move up to it. -/
theorem Chase.land (h : Chase f K t₀ t f' K') (hd : StepOk f' t (some (d, c)) f'')
    (hK : ∀ e, d ≤ e → K'' e = K' e) :
    Chase f K t₀ d f'' K'' ∧ f d = some c ∧ ∀ e, e < d → f'' e = none := by
  obtain ⟨htd, hfd, hless⟩ := hd.least
  have hlow := hd.stays d c rfl
  refine ⟨⟨h.le.trans htd, h.shrinks.trans hd.shrinks,
    h.agree.trans (hd.agree.mono htd) htd, ?_, ?_⟩, (h.agree d htd).symm.trans hfd, hlow⟩
  · intro e he
    have hde : d ≤ e := he.elim (fun hne => not_lt.mp fun hlt => hne (hlow e hlt)) id
    exact (hK e hde).trans (h.known e (.inr (htd.trans hde)))
  · intro e he hlt
    rcases lt_or_ge e t with het | het
    · exact h.skipped e he het
    · exact along_none ((h.agree e het).symm.trans (hless e het hlt))

/-- The others let the proposed key through. -/
theorem Chase.accept (h : Chase f K t₀ d f' K') (hfd : f d = some c)
    (hlow : ∀ e, e < d → f' e = none) (hc : K d c = some c') :
    StepOk (along f K) t₀ (some (d, c')) (along f' K') := by
  refine ⟨⟨h.le, ?_, h.skipped⟩, h.left (Shrinks.refl f'), ?_, ?_⟩
  · rw [along, hfd]
    exact hc
  · intro e he
    rcases lt_or_ge e d with hlt | hge
    · rw [along_none (hlow e hlt), h.skipped e he hlt]
    · rw [along, along, h.agree e hge, h.known e (Or.inr hge)]
  · intro d' c'' hdc e hlt
    cases hdc
    exact along_none (hlow e hlt)

/-- The others rule out everything up to a later target. -/
theorem Chase.advance (h : Chase f K t₀ t f' K') (ht : t ≤ t')
    (hskip : ∀ e, t ≤ e → e < t' → along f K e = none) :
    Chase f K t₀ t' f' K' where
  le := h.le.trans ht
  shrinks := h.shrinks
  agree := h.agree.mono ht
  known := fun e he => h.known e (he.imp id ht.trans)
  skipped := fun e he hlt => (lt_or_ge e t).elim (h.skipped e he) (hskip e · hlt)

end

/-! ## Restriction by a probe

The driver proposes keys, the probe says what it knows of each, and a verdict
keeps or rejects the proposal. Intersection with a filter and set difference
are both of this shape, with different verdicts. -/

variable (step) in
/-- What a cursor says of one key. -/
def test (s : α) (d : ℕ) : Option C × α :=
  match step s d with
  | (some (e, c), s') => (if e = d then some c else none, s')
  | (none, s') => (none, s')

/-- One search of a restricted driver. The successor of the last key does not
exist, so a rejection there ends the search. -/
def restrict (N : ℕ) (step : α → ℕ → Option (ℕ × C) × α)
    (verdict : C → Option C → Option C) :
    ℕ → α → α → ℕ → Option (ℕ × C) × α × α
  | 0, driver, probe, _ => (none, driver, probe)
  | fuel + 1, driver, probe, t =>
    match step driver t with
    | (none, driver') => (none, driver', probe)
    | (some (d, c), driver') =>
      match test step probe d with
      | (known, probe') =>
        match verdict c known with
        | some c' => (some (d, c'), driver', probe')
        | none =>
          if d + 1 < N then restrict N step verdict fuel driver' probe' (d + 1)
          else (none, driver', probe')

/-- The view of a restricted driver. -/
def restrictView (verdict : C → Option C → Option C) (f g : ℕ → Option C) :
    ℕ → Option C :=
  along f fun e c => verdict c (g e)

section

variable {N : ℕ} {step : α → ℕ → Option (ℕ × C) × α} {valid : α → Prop}
  {view : α → ℕ → Option C}

/-- Answers lie below the bound. -/
theorem Lawful.lt_bound (L : Lawful N step valid view) (hs : valid s) {d : ℕ} {c : C}
    (hd : view s d = some c) : d < N := by
  by_contra hge
  rw [L.bounded s hs d (not_lt.mp hge)] at hd
  cases hd

/-- A test reads the view at its key and loses nothing from there on. -/
theorem Lawful.test_ok (L : Lawful N step valid view) (hs : valid s) (d : ℕ) :
    (test step s d).1 = view s d ∧ valid (test step s d).2
      ∧ AgreeFrom d (view s) (view (test step s d).2) := by
  have h := L.ok s d hs
  have hk := L.keeps s d hs
  unfold test
  generalize step s d = q at h hk
  obtain ⟨r, _⟩ := q
  match r with
  | none => exact ⟨(h.least d le_rfl).symm, hk, h.agree⟩
  | some (e, c) =>
    refine ⟨?_, hk, h.agree⟩
    by_cases hed : e = d
    · subst hed
      simpa using h.least.2.1.symm
    · have hlt : d < e := lt_of_le_of_ne h.least.1 (Ne.symm hed)
      simpa [hed] using (h.least.2.2 d le_rfl hlt).symm

theorem Lawful.restrict_chase (L : Lawful N step valid view)
    (verdict : C → Option C → Option C) (fuel : ℕ) {f g : ℕ → Option C}
    {t₀ t : ℕ} {driver probe : α} (hd : valid driver) (hp : valid probe)
    (hfuel : N + 1 ≤ fuel + t ∧ 1 ≤ fuel)
    (hc : Chase f (fun e c => verdict c (g e)) t₀ t (view driver)
      (fun e c => verdict c (view probe e)))
    (hg : ∀ e, t ≤ e → view probe e = g e) :
    let q := restrict N step verdict fuel driver probe t
    StepOk (restrictView verdict f g) t₀ q.1
        (restrictView verdict (view q.2.1) (view q.2.2))
      ∧ valid q.2.1 ∧ valid q.2.2 := by
  induction fuel generalizing driver probe t with
  | zero => exact absurd hfuel.2 (by omega)
  | succ fuel ih =>
    have h := L.ok driver t hd
    have hk := L.keeps driver t hd
    simp only [restrict]
    generalize step driver t = q at h hk
    obtain ⟨r, _⟩ := q
    match r with
    | none => exact ⟨hc.spent h, hk, hp⟩
    | some (d, c) =>
      have htd : t ≤ d := h.least.1
      have hdN : d < N := L.lt_bound hd h.least.2.1
      obtain ⟨htest, hp', hpa⟩ := L.test_ok hp d
      rw [hg d htd] at htest
      dsimp only
      rw [htest]
      set probe' := (test step probe d).2
      have hga : ∀ e, d ≤ e → view probe' e = g e := fun e he =>
        (hpa e he).trans (hg e (htd.trans he))
      obtain ⟨hland, hfd, hlow⟩ := hc.land h
        (show ∀ e, d ≤ e → (fun c => verdict c (view probe' e))
          = fun c => verdict c (view probe e) from fun e he => by rw [hpa e he])
      cases hv : verdict c (g d) with
      | some _ => exact ⟨hland.accept hfd hlow hv, hk, hp'⟩
      | none =>
        have hskip : ∀ e, d ≤ e → e < d + 1 →
            along f (fun e c => verdict c (g e)) e = none := by
          intro e he hlt
          obtain rfl : e = d := by omega
          rw [along, hfd]
          exact hv
        by_cases hlast : d + 1 < N
        · simp only [hlast, if_true]
          exact ih hk hp' ⟨by omega, by omega⟩
            (hland.advance (Nat.le_succ d) hskip) fun e he => hga e (by omega)
        · simp only [hlast, if_false]
          refine ⟨hland.exhausted (Shrinks.refl _) fun e he => ?_, hk, hp'⟩
          rcases lt_or_ge e (d + 1) with hlt | _
          · exact hskip e he hlt
          · refine along_none ((hc.agree e (by omega)).symm.trans ?_)
            exact L.bounded driver hd e (by omega)

/-- **Restriction keeps the contract.** -/
theorem Lawful.restrict_ok (L : Lawful N step valid view)
    (verdict : C → Option C → Option C) {driver probe : α} (t : ℕ)
    (hd : valid driver) (hp : valid probe) :
    let q := restrict N step verdict (fuel N) driver probe t
    StepOk (restrictView verdict (view driver) (view probe)) t q.1
        (restrictView verdict (view q.2.1) (view q.2.2))
      ∧ valid q.2.1 ∧ valid q.2.2 :=
  L.restrict_chase verdict (fuel N) hd hp (by rw [fuel_eq]; omega) (Chase.start _ _ t)
    fun _ _ => rfl

end

/-! ## Leapfrog intersection

The first cursor drives; every other must land on its key, and one that
overshoots sets the next target. -/

/-- What the others made of a proposed key. -/
inductive Round (C : Type)
  | exhausted
  | ahead (e : ℕ)
  | agreed (c : C)

/-- Ask the others for a proposed key, in order, until one misses it. -/
def ask (step : α → ℕ → Option (ℕ × C) × α) (meet : C → C → C) :
    List α → ℕ → C → Round C × List α
  | [], _, c => (.agreed c, [])
  | child :: rest, d, c =>
    match step child d with
    | (none, child') => (.exhausted, child' :: rest)
    | (some (e, c'), child') =>
      if d < e then (.ahead e, child' :: rest)
      else
        match ask step meet rest d (meet c c') with
        | (r, rest') => (r, child' :: rest')

/-- One search of an intersection. -/
def leapfrog (step : α → ℕ → Option (ℕ × C) × α) (meet : C → C → C) :
    ℕ → α → List α → ℕ → Option (ℕ × C) × α × List α
  | 0, driver, rest, _ => (none, driver, rest)
  | fuel + 1, driver, rest, t =>
    match step driver t with
    | (none, driver') => (none, driver', rest)
    | (some (d, c), driver') =>
      match ask step meet rest d c with
      | (.exhausted, rest') => (none, driver', rest')
      | (.ahead e, rest') => leapfrog step meet fuel driver' rest' e
      | (.agreed c', rest') => (some (d, c'), driver', rest')

/-- What the others make of a key at which the driver has the value `c`. -/
def meetAll (meet : C → C → C) : List (ℕ → Option C) → ℕ → C → Option C
  | [], _, c => some c
  | g :: gs, e, c => (g e).bind fun c' => meetAll meet gs e (meet c c')

/-- The view of an intersection. -/
def meetView (meet : C → C → C) (f : ℕ → Option C) (gs : List (ℕ → Option C)) :
    ℕ → Option C :=
  along f (meetAll meet gs)

variable {hs : List (ℕ → Option C)}

theorem meetAll_congr (meet : C → C → C) (h : List.Forall₂ (fun g g' => g' e = g e) gs hs) (c : C) :
    meetAll meet hs e c = meetAll meet gs e c := by
  induction h generalizing c with
  | nil => rfl
  | cons hg _ ih => simp only [meetAll, hg, ih]

/-- What a round says about the keys from the proposed one on. -/
def Round.Means (meet : C → C → C) (gs : List (ℕ → Option C)) (d : ℕ) (c : C) :
    Round C → Prop
  | .exhausted => ∀ e, d ≤ e → ∀ c, meetAll meet gs e c = none
  | .ahead e => d < e ∧ ∀ e', d ≤ e' → e' < e → ∀ c, meetAll meet gs e' c = none
  | .agreed c' => meetAll meet gs d c = some c'

variable {f : ℕ → Option C} {gs : List (ℕ → Option C)}

section

variable {N : ℕ} {step : α → ℕ → Option (ℕ × C) × α} {valid : α → Prop}
  {view : α → ℕ → Option C} {rest : List α}

theorem Lawful.ask_ok (L : Lawful N step valid view) (meet : C → C → C) (hr : ∀ s ∈ rest, valid s)
    (d : ℕ) (c : C) :
    let q := ask step meet rest d c
    q.1.Means meet (rest.map view) d c
      ∧ (∀ s ∈ q.2, valid s)
      ∧ List.Forall₂ (fun s s' => AgreeFrom d (view s) (view s')) rest q.2
      ∧ ∀ e, q.1 = .ahead e → e < N := by
  induction rest generalizing c with
  | nil => exact ⟨rfl, hr, .nil, nofun⟩
  | cons child rest ih =>
    obtain ⟨hchild, hrest⟩ := forall_mem_cons.mp hr
    have h := L.ok child d hchild
    have hk := L.keeps child d hchild
    have hsame : List.Forall₂ (fun s s' => AgreeFrom d (view s) (view s')) rest rest :=
      forall₂_same.mpr fun s _ => AgreeFrom.refl d (view s)
    simp only [ask, map_cons]
    generalize step child d = q at h hk
    obtain ⟨r, _⟩ := q
    match r with
    | none =>
      refine ⟨fun e he c => ?_, forall_mem_cons.mpr ⟨hk, hrest⟩,
        .cons h.agree hsame, nofun⟩
      rw [meetAll, h.least e he]
      rfl
    | some (e, c') =>
      by_cases hlt : d < e
      · simp only [hlt, if_true]
        refine ⟨⟨hlt, fun e' he hlt' c => ?_⟩, forall_mem_cons.mpr ⟨hk, hrest⟩,
          .cons h.agree hsame, fun e' he => ?_⟩
        · rw [meetAll, h.least.2.2 e' he hlt']
          rfl
        · cases he
          exact L.lt_bound hchild h.least.2.1
      · obtain rfl : e = d := le_antisymm (not_lt.mp hlt) h.least.1
        simp only [lt_irrefl, if_false]
        obtain ⟨hm, hv, ha, hb⟩ := ih hrest (meet c c')
        refine ⟨?_, forall_mem_cons.mpr ⟨hk, hv⟩, .cons h.agree ha, hb⟩
        match hq : (ask step meet rest e (meet c c')).1, hm with
        | .exhausted, hm =>
          intro e' he c
          rw [meetAll]
          cases view child e' with
          | none => rfl
          | some c'' => exact hm e' he _
        | .ahead e', hm =>
          refine ⟨hm.1, fun e'' he hlt' c => ?_⟩
          rw [meetAll]
          cases view child e'' with
          | none => rfl
          | some c'' => exact hm.2 e'' he hlt' _
        | .agreed c'', hm =>
          show meetAll meet (view child :: rest.map view) e c = some c''
          rw [meetAll, h.least.2.1]
          exact hm

theorem Lawful.leapfrog_chase (L : Lawful N step valid view) (meet : C → C → C) (fuel : ℕ)
    {t₀ t : ℕ} {driver : α} (hd : valid driver) (hr : ∀ s ∈ rest, valid s)
    (hfuel : N + 1 ≤ fuel + t ∧ 1 ≤ fuel)
    (hc : Chase f (meetAll meet gs) t₀ t (view driver) (meetAll meet (rest.map view)))
    (hg : ∀ e, t ≤ e → ∀ c, meetAll meet (rest.map view) e c = meetAll meet gs e c) :
    let q := leapfrog step meet fuel driver rest t
    StepOk (meetView meet f gs) t₀ q.1 (meetView meet (view q.2.1) (q.2.2.map view))
      ∧ valid q.2.1 ∧ ∀ s ∈ q.2.2, valid s := by
  induction fuel generalizing driver rest t with
  | zero => exact absurd hfuel.2 (by omega)
  | succ fuel ih =>
    have h := L.ok driver t hd
    have hk := L.keeps driver t hd
    simp only [leapfrog]
    generalize step driver t = q at h hk
    obtain ⟨r, _⟩ := q
    match r with
    | none => exact ⟨hc.spent h, hk, hr⟩
    | some (d, c) =>
      have htd : t ≤ d := h.least.1
      have hdN : d < N := L.lt_bound hd h.least.2.1
      obtain ⟨hm, hr', ha, hb⟩ := L.ask_ok meet hr d c
      dsimp only at hm hr' ha hb ⊢
      generalize ask step meet rest d c = q at hm hr' ha hb
      obtain ⟨round, rest'⟩ := q
      have hK : ∀ e, d ≤ e → meetAll meet (rest'.map view) e
          = meetAll meet (rest.map view) e := by
        intro e he
        funext c
        refine meetAll_congr meet ?_ c
        rw [forall₂_map_left_iff, forall₂_map_right_iff]
        exact ha.imp fun s s' hs => hs e he
      obtain ⟨hland, hfd, hlow⟩ := hc.land h hK
      match round, hm, hb with
      | .exhausted, hm, _ =>
        refine ⟨hland.exhausted (Shrinks.refl _) fun e he => ?_, hk, hr'⟩
        cases hfe : f e with
        | none => exact along_none hfe
        | some c =>
          rw [along, hfe]
          exact (hg e (htd.trans he) c).symm.trans (hm e he c)
      | .ahead e, hm, hb =>
        have heN : e < N := hb e rfl
        obtain ⟨hde, hm⟩ := hm
        refine ih hk hr' ⟨by omega, by omega⟩ (hland.advance hde.le ?_) ?_
        · intro e' he hlt
          cases hfe : f e' with
          | none => exact along_none hfe
          | some c =>
            rw [along, hfe]
            exact (hg e' (htd.trans he) c).symm.trans (hm e' he hlt c)
        · intro e' he c
          rw [hK e' (by omega)]
          exact hg e' (by omega) c
      | .agreed c', hm, _ =>
        exact ⟨hland.accept hfd hlow ((hg d htd c).symm.trans hm), hk, hr'⟩

/-- **Intersection keeps the contract.** -/
theorem Lawful.leapfrog_ok (L : Lawful N step valid view) (meet : C → C → C) {driver : α} (t : ℕ)
    (hd : valid driver) (hr : ∀ s ∈ rest, valid s) :
    let q := leapfrog step meet (fuel N) driver rest t
    StepOk (meetView meet (view driver) (rest.map view)) t q.1
        (meetView meet (view q.2.1) (q.2.2.map view))
      ∧ valid q.2.1 ∧ ∀ s ∈ q.2.2, valid s :=
  L.leapfrog_chase meet (fuel N) hd hr (by rw [fuel_eq]; omega) (Chase.start _ _ t)
    fun _ _ _ => rfl

end

/-! ## Head-by-head union

Each cursor is asked only once the target passes the key it last stood on, so
a cursor that is spent is never asked again. -/

/-- Where one cursor of a union stands. -/
inductive Head (C : Type)
  | fresh
  | on (d : ℕ) (c : C)
  | exhausted
deriving DecidableEq

/-- Whether a cursor of a union must be asked for a target. -/
def Head.behind (t : ℕ) : Head C → Bool
  | .fresh => true
  | .on d _ => d < t
  | .exhausted => false

/-- The head a cursor's answer leaves. -/
def Head.ofAnswer : Option (ℕ × C) → Head C
  | none => .exhausted
  | some (d, c) => .on d c

/-- The answer a head stands for. -/
def Head.answer : Head C → Option (ℕ × C)
  | .on d c => some (d, c)
  | _ => none

/-- The better of the best answer so far and one more head. -/
def Head.best (join : C → C → C) (best : Option (ℕ × C)) : Head C → Option (ℕ × C)
  | .on d c =>
    match best with
    | some (low, other) =>
      if low < d then some (low, other)
      else if d = low then some (low, join other c)
      else some (d, c)
    | none => some (d, c)
  | _ => best

variable (step) in
/-- Bring one cursor of a union up to a target. -/
def refresh (t : ℕ) (p : α × Head C) :
    α × Head C :=
  if p.2.behind t then ((step p.1 t).2, Head.ofAnswer (step p.1 t).1) else p

/-- One scan of a union. -/
def scan (step : α → ℕ → Option (ℕ × C) × α) (join : C → C → C) (t : ℕ) :
    List (α × Head C) → Option (ℕ × C) → Option (ℕ × C) × List (α × Head C)
  | [], best => (best, [])
  | p :: ps, best =>
    match scan step join t ps ((refresh step t p).2.best join best) with
    | (best', ps') => (best', refresh step t p :: ps')

/-- What one cursor of a union still has ahead of it. -/
def headView (f : ℕ → Option C) : Head C → ℕ → Option C
  | .exhausted => fun _ => none
  | _ => f

/-- The view of a union, scanned from what came before it. -/
def joinView (join : C → C → C) (f : ℕ → Option C) : List (ℕ → Option C) → ℕ → Option C
  | [], e => f e
  | g :: gs, e => joinView join (fun e => (f e).merge join (g e)) gs e

/-- A cursor of a union stands where its head says. -/
def Head.Stands (f : ℕ → Option C) (h : Head C) : Prop :=
  ∀ d c, h = .on d c → f d = some c ∧ ∀ e, e < d → f e = none

variable (join : C → C → C)

theorem joinView_eq_none_iff :
    joinView join f gs e = none ↔ f e = none ∧ ∀ g ∈ gs, g e = none := by
  induction gs generalizing f with
  | nil => simp [joinView]
  | cons g gs ih =>
    have hmerge : (f e).merge join (g e) = none ↔ f e = none ∧ g e = none := by
      cases f e <;> cases g e <;> simp
    rw [joinView, ih, hmerge, forall_mem_cons, and_assoc]

theorem joinView_ne_none_iff :
    joinView join f gs e ≠ none ↔ f e ≠ none ∨ ∃ g ∈ gs, g e ≠ none := by
  simp only [ne_eq, joinView_eq_none_iff, not_and_or, not_forall, exists_prop]

theorem joinView_congr {f' : ℕ → Option C} (hf : f' e = f e)
    (h : List.Forall₂ (fun g g' => g' e = g e) gs hs) :
    joinView join f' hs e = joinView join f gs e := by
  induction h generalizing f f' with
  | nil => exact hf
  | cons hg _ ih => exact ih (by rw [hf, hg])

/-- The better of two least answers is the least answer of both. -/
theorem Least.best {best : Option (ℕ × C)} {h : Head C} (hf : Least f t best)
    (hg : Least g t h.answer) :
    Least (fun e => (f e).merge join (g e)) t (h.best join best) := by
  have hmiss : h.answer = none → ∀ e, t ≤ e → g e = none := fun ha => by
    rw [ha] at hg
    exact hg
  -- a head that stands nowhere changes nothing
  have hkeep : h.answer = none → Least (fun e => (f e).merge join (g e)) t best :=
    fun ha => hf.congr fun e he => by
      simp only [hmiss ha e he, merge_none_right]
  match h with
  | .fresh => exact hkeep rfl
  | .exhausted => exact hkeep rfl
  | .on d c =>
    obtain ⟨htd, hgd, hgless⟩ := hg
    match best with
    | none =>
      refine hgless |> fun hl => ⟨htd, ?_, fun e he hlt => ?_⟩
      · simp only [hf d htd, hgd, merge_none_left]
      · simp only [hf e he, hl e he hlt, merge_none_left]
    | some (low, other) =>
      obtain ⟨htl, hfl, hfless⟩ := hf
      rcases lt_trichotomy low d with hlt | rfl | hlt
      · rw [Head.best, if_pos hlt]
        refine ⟨htl, ?_, fun e he hel => ?_⟩
        · simp only [hfl, hgless low htl hlt, merge_none_right]
        · simp only [hfless e he hel, hgless e he (hel.trans hlt), merge_none_right]
      · rw [Head.best, if_neg (lt_irrefl _), if_pos rfl]
        refine ⟨htl, ?_, fun e he hel => ?_⟩
        · simp only [hfl, hgd, merge_some_some]
        · simp only [hfless e he hel, hgless e he hel, merge_none_right]
      · rw [Head.best, if_neg hlt.asymm, if_neg hlt.ne]
        refine ⟨htd, ?_, fun e he hel => ?_⟩
        · simp only [hfless d htd hlt, hgd, merge_none_left]
        · simp only [hfless e he (hel.trans hlt), hgless e he hel, merge_none_left]

section

variable {N : ℕ} {step : α → ℕ → Option (ℕ × C) × α} {valid : α → Prop}
  {view : α → ℕ → Option C}

/-- A cursor that is asked stands on its least answer, with nothing left
below the target. -/
theorem Lawful.asked_ok (L : Lawful N step valid view) (hs : valid s) (t : ℕ) :
    let s' := (step s t).2
    let head := Head.ofAnswer (step s t).1
    valid s' ∧ head.Stands (view s') ∧ Least (view s) t head.answer
      ∧ (∀ e, e < t → headView (view s') head e = none)
      ∧ AgreeFrom t (view s) (headView (view s') head) := by
  have h := L.ok s t hs
  have hk := L.keeps s t hs
  generalize step s t = q at h hk
  obtain ⟨r, s'⟩ := q
  match r with
  | none =>
    exact ⟨hk, nofun, h.least, fun _ _ => rfl,
      fun e he => (h.least e he).symm⟩
  | some (d, c) =>
    have hlow := h.stays d c rfl
    refine ⟨hk, fun d' c' hdc => ?_, h.least,
      fun e he => hlow e (lt_of_lt_of_le he h.least.1), h.agree⟩
    cases hdc
    exact ⟨(h.agree d h.least.1).trans h.least.2.1, hlow⟩

/-- A cursor brought up to a target stands on its least answer there, with
nothing left below the target. -/
theorem Lawful.refresh_ok (L : Lawful N step valid view) {p : α × Head C}
    (hv : valid p.1) (hp : p.2.Stands (view p.1)) (t : ℕ) :
    let p' := refresh step t p
    valid p'.1 ∧ p'.2.Stands (view p'.1) ∧ Least (headView (view p.1) p.2) t p'.2.answer
      ∧ (∀ e, e < t → headView (view p'.1) p'.2 e = none)
      ∧ AgreeFrom t (headView (view p.1) p.2) (headView (view p'.1) p'.2) := by
  obtain ⟨s, head⟩ := p
  cases head with
  | exhausted => exact ⟨hv, hp, fun _ _ => rfl, fun _ _ => rfl, AgreeFrom.refl t _⟩
  | fresh => exact L.asked_ok hv t
  | on d c =>
    by_cases hdt : d < t
    · have hr : refresh step t (s, .on d c)
          = ((step s t).2, Head.ofAnswer (step s t).1) :=
        if_pos (decide_eq_true hdt)
      rw [hr]
      exact L.asked_ok hv t
    · have hr : refresh step t (s, .on d c) = (s, .on d c) :=
        if_neg (by simpa [Head.behind] using hdt)
      obtain ⟨hd, hlow⟩ := hp d c rfl
      rw [hr]
      exact ⟨hv, hp, ⟨not_lt.mp hdt, hd, fun e _ hlt => hlow e hlt⟩,
        fun e he => hlow e (lt_of_lt_of_le he (not_lt.mp hdt)), AgreeFrom.refl t _⟩

variable {ps : List (α × Head C)}

/-- A scan finds the least answer of everything it has seen, when each cursor,
brought up to the target, stands on its own least answer. -/
theorem scan_least_of (t : ℕ)
    (hps : List.Forall₂ (fun p g => Least g t (refresh step t p).2.answer) ps gs)
    {best : Option (ℕ × C)} (hf : Least f t best) :
    let q := scan step join t ps best
    Least (joinView join f gs) t q.1 ∧ q.2 = ps.map (refresh step t) := by
  induction hps generalizing f best with
  | nil => exact ⟨hf, rfl⟩
  | cons hl _ ih =>
    obtain ⟨hleast, hq⟩ := ih (hf.best join hl)
    exact ⟨hleast, congrArg (refresh step t _ :: ·) hq⟩

theorem Lawful.scan_least (L : Lawful N step valid view) (join : C → C → C) (t : ℕ)
    (hps : ∀ p ∈ ps, valid p.1 ∧ p.2.Stands (view p.1)) {best : Option (ℕ × C)}
    (hf : Least f t best) :
    let q := scan step join t ps best
    Least (joinView join f (ps.map fun p => headView (view p.1) p.2)) t q.1
      ∧ q.2 = ps.map (refresh step t) := by
  refine scan_least_of join t ?_ hf
  rw [forall₂_map_right_iff]
  exact forall₂_same.mpr fun p hp => (L.refresh_ok (hps p hp).1 (hps p hp).2 t).2.2.1

/-- **Union keeps the contract.** -/
theorem Lawful.scan_ok (L : Lawful N step valid view) (join : C → C → C) (t : ℕ)
    (hps : ∀ p ∈ ps, valid p.1 ∧ p.2.Stands (view p.1)) :
    let q := scan step join t ps none
    StepOk (joinView join (fun _ => none) (ps.map fun p => headView (view p.1) p.2)) t q.1
        (joinView join (fun _ => none) (q.2.map fun p => headView (view p.1) p.2))
      ∧ ∀ p ∈ q.2, valid p.1 ∧ p.2.Stands (view p.1) := by
  obtain ⟨hleast, hq⟩ :=
    L.scan_least join t hps (show Least (fun _ => none) t none from fun _ _ => rfl)
  generalize scan step join t ps none = q at hleast hq
  obtain ⟨r, ps'⟩ := q
  obtain rfl : ps' = ps.map (refresh step t) := hq
  have hrefresh : ∀ p ∈ ps, _ := fun p hp => L.refresh_ok (hps p hp).1 (hps p hp).2 t
  have hbelow : ∀ e, e < t → joinView join (fun _ => none)
      ((ps.map (refresh step t)).map fun p => headView (view p.1) p.2) e = none := by
    intro e he
    refine (joinView_eq_none_iff join).mpr ⟨rfl, fun g hg => ?_⟩
    obtain ⟨p', hp', rfl⟩ := List.mem_map.mp hg
    obtain ⟨p, hp, rfl⟩ := List.mem_map.mp hp'
    exact (hrefresh p hp).2.2.2.1 e he
  have hagree : AgreeFrom t
      (joinView join (fun _ => none) (ps.map fun p => headView (view p.1) p.2))
      (joinView join (fun _ => none)
        ((ps.map (refresh step t)).map fun p => headView (view p.1) p.2)) := by
    intro e he
    refine joinView_congr join rfl ?_
    rw [List.map_map, forall₂_map_left_iff, forall₂_map_right_iff]
    exact forall₂_same.mpr fun p hp => (hrefresh p hp).2.2.2.2 e he
  refine ⟨⟨hleast, fun e => ?_, hagree, ?_⟩, ?_⟩
  · rcases lt_or_ge e t with he | he
    · exact .inl (hbelow e he)
    · exact .inr (hagree e he)
  · rintro d c rfl e hlt
    rcases lt_or_ge e t with he | he
    · exact hbelow e he
    · exact (hagree e he).trans (hleast.2.2 e he hlt)
  · intro p' hp'
    obtain ⟨p, hp, rfl⟩ := List.mem_map.mp hp'
    exact ⟨(hrefresh p hp).1, (hrefresh p hp).2.1⟩

end

end Seek
