import Mathlib.Data.List.Sort
import Ferret.Lib.Seek

/-!
# Draining seekable cursors

Asked for the key after each of its answers, a cursor gives its keys one after
the other. A union drained so asks each of its cursors for the key after that
cursor's own answers, whatever the other cursors hold: its keys are those of
its cursors drained one by one. This needs nothing of the cursors but answers
at or past the target – not that they stay where they stand, nor that they have
a view.
-/

namespace Seek

open List

variable {α β C : Type}

/-- A cursor's keys are at or past the target, and below `N`. -/
structure Advances (N : ℕ) (step : α → ℕ → Option (ℕ × C) × α) (valid : α → Prop) : Prop where
  keeps : ∀ s t, valid s → valid (step s t).2
  answer : ∀ s t d c, valid s → (step s t).1 = some (d, c) → t ≤ d ∧ d < N

/-- The keys of a cursor from a target on. -/
def drainFrom (N : ℕ) (step : α → ℕ → Option (ℕ × C) × α) : ℕ → α → ℕ → List (ℕ × C)
  | 0, _, _ => []
  | fuel + 1, s, t =>
    match step s t with
    | (none, _) => []
    | (some (d, c), s') => (d, c) :: if d + 1 < N then drainFrom N step fuel s' (d + 1) else []

/-- The keys of a cursor. -/
def drain (N : ℕ) (step : α → ℕ → Option (ℕ × C) × α) (s : α) : List (ℕ × C) :=
  drainFrom N step (fuel N) s 0

variable {ps : List (α × Head C)}

section

variable {N : ℕ} {step : α → ℕ → Option (ℕ × C) × α} {valid : α → Prop} {view : α → ℕ → Option C}

theorem Lawful.advances (L : Lawful N step valid view) :
    Advances N step valid where
  keeps := L.keeps
  answer := fun s t d c hs h => by
    have hleast : Least (view s) t (some (d, c)) := h ▸ (L.ok s t hs).least
    exact ⟨hleast.1, L.lt_bound hs hleast.2.1⟩

variable {n t t' e : ℕ} {s : α} {c : C} {f : ℕ → Option C} {p : α × Head C}

theorem drainFrom_none (h : (step s t).1 = none) : drainFrom N step (n + 1) s t = [] := by
  rw [drainFrom]
  generalize step s t = q at h
  obtain ⟨r, _⟩ := q
  cases h
  rfl

theorem drainFrom_some {d : ℕ} (h : (step s t).1 = some (d, c)) :
    drainFrom N step (n + 1) s t
      = (d, c) :: if d + 1 < N then drainFrom N step n (step s t).2 (d + 1) else [] := by
  rw [drainFrom]
  generalize step s t = q at h
  obtain ⟨r, _⟩ := q
  cases h
  rfl

/-- More fuel than there are keys changes nothing. -/
theorem Advances.drainFrom_succ (A : Advances N step valid) (hs : valid s)
    (hn : N ≤ n + t) : drainFrom N step (n + 1) s t = drainFrom N step n s t := by
  induction n generalizing s t with
  | zero =>
    cases h : (step s t).1 with
    | none => exact drainFrom_none h
    | some p =>
      have := A.answer s t p.1 p.2 hs h
      omega
  | succ n ih =>
    cases h : (step s t).1 with
    | none => rw [drainFrom_none h, drainFrom_none h]
    | some p =>
      have hle := (A.answer s t p.1 p.2 hs h).1
      rw [drainFrom_some h, drainFrom_some h, ih (A.keeps s t hs) (by omega)]

/-- The keys from a target on, with fuel enough. -/
def stream (N : ℕ) (step : α → ℕ → Option (ℕ × C) × α) (s : α) (t : ℕ) : List (ℕ × C) :=
  if t < N then drainFrom N step (fuel N) s t else []

theorem stream_none (h : (step s t).1 = none) : stream N step s t = [] := by
  rw [stream, fuel_eq, drainFrom_none h, ite_self]

theorem Advances.stream_some (A : Advances N step valid) (hs : valid s) {d : ℕ}
    (h : (step s t).1 = some (d, c)) :
    stream N step s t = (d, c) :: stream N step (step s t).2 (d + 1) := by
  obtain ⟨_, _⟩ := A.answer s t d c hs h
  rw [stream, if_pos (by omega), fuel_eq, drainFrom_some h, stream, fuel_eq,
    A.drainFrom_succ (A.keeps s t hs) (by omega)]

/-- Keys come in order, from the target on. -/
theorem Advances.stream_sorted (A : Advances N step valid) (hs : valid s) (t : ℕ) :
    (stream N step s t).Pairwise (fun p q => p.1 < q.1)
      ∧ ∀ p ∈ stream N step s t, t ≤ p.1 ∧ p.1 < N := by
  induction hn : N - t using Nat.strong_induction_on generalizing s t with
  | _ n ih =>
    cases h : (step s t).1 with
    | none =>
      rw [stream_none h]
      exact ⟨.nil, fun p hp => by cases hp⟩
    | some p =>
      obtain ⟨d, c⟩ := p
      obtain ⟨hle, hlt⟩ := A.answer s t d c hs h
      obtain ⟨hsorted, hrange⟩ :=
        ih (N - (d + 1)) (by omega) (A.keeps s t hs) (d + 1) rfl
      rw [A.stream_some hs h]
      refine ⟨pairwise_cons.mpr ⟨fun p hp => (hrange p hp).1, hsorted⟩, ?_⟩
      refine forall_mem_cons.mpr ⟨⟨hle, hlt⟩, fun p hp => ?_⟩
      have := hrange p hp
      omega

theorem drain_eq_stream (hN : 0 < N) (s : α) : drain N step s = stream N step s 0 :=
  (if_pos hN).symm

/-! ## Cursors with a view -/

variable (step) in
/-- A cursor answers from the view `f`, as long as the targets do not decrease
and are not below `t`. -/
def WalksFrom (f : ℕ → Option C) (t : ℕ) (s : α) : Prop :=
  ∀ targets : List ℕ, targets.Pairwise (· ≤ ·) → (∀ t' ∈ targets, t ≤ t') →
    List.Forall₂ (Least f) targets (run step s targets)

theorem Forward.walks (F : Forward step valid view) (hs : valid s) : WalksFrom step (view s) 0 s :=
  fun _ hsorted _ => F.run_least hs hsorted

theorem WalksFrom.mono (h : WalksFrom step f t s) (ht : t ≤ t') : WalksFrom step f t' s :=
  fun targets hsorted hle => h targets hsorted fun u hu => ht.trans (hle u hu)

theorem WalksFrom.least (h : WalksFrom step f t s) (ht : t ≤ t') : Least f t' (step s t').1 := by
  have hone := h [t'] (pairwise_singleton _ _) fun u hu => by
    rwa [mem_singleton.mp hu]
  cases hone with
  | cons hleast _ => exact hleast

theorem WalksFrom.next (h : WalksFrom step f t s)
    (ht : t ≤ t') : WalksFrom step f t' (step s t').2 := by
  intro targets hsorted hle
  have hall := h (t' :: targets) (pairwise_cons.mpr ⟨hle, hsorted⟩)
    (forall_mem_cons.mpr ⟨ht, fun u hu => ht.trans (hle u hu)⟩)
  cases hall with
  | cons _ hrest => exact hrest

/-- A cursor with a view gives the keys of the view. -/
theorem Advances.mem_stream_iff (A : Advances N step valid)
    (hs : valid s) (hf : WalksFrom step f t s) (d : ℕ) (c : C) :
    (d, c) ∈ stream N step s t ↔ t ≤ d ∧ d < N ∧ f d = some c := by
  induction hn : N - t using Nat.strong_induction_on generalizing s t with
  | _ n ih =>
    have hleast := hf.least (le_refl t)
    cases h : (step s t).1 with
    | none =>
      rw [h] at hleast
      rw [stream_none h]
      refine iff_of_false not_mem_nil fun ⟨hle, _, hd⟩ => ?_
      rw [hleast d hle] at hd
      cases hd
    | some p =>
      obtain ⟨e, ce⟩ := p
      obtain ⟨hle, hlt⟩ := A.answer s t e ce hs h
      rw [h] at hleast
      have hnext : WalksFrom step f (e + 1) (step s t).2 :=
        (hf.next (le_refl t)).mono (Nat.le_succ_of_le hle)
      rw [A.stream_some hs h, mem_cons, ih (N - (e + 1)) (by omega) (A.keeps s t hs) hnext rfl]
      constructor
      · rintro (heq | ⟨hd, hdN, hfd⟩)
        · cases heq
          exact ⟨hle, hlt, hleast.2.1⟩
        · exact ⟨by omega, hdN, hfd⟩
      · rintro ⟨hd, hdN, hfd⟩
        rcases lt_trichotomy d e with hlt | rfl | hgt
        · rw [hleast.2.2 d hd hlt] at hfd
          cases hfd
        · refine .inl (Prod.ext rfl ?_)
          exact Option.some.inj (hfd.symm.trans hleast.2.1)
        · exact .inr ⟨hgt, hdN, hfd⟩

/-! ## Unions -/

variable (step) in
/-- A union, scanned from one target to the next. -/
def union (join : C → C → C)
    (ps : List (α × Head C)) (t : ℕ) : Option (ℕ × C) × List (α × Head C) :=
  scan step join t ps none

/-- What a union of cursors in these states holds. -/
def ValidUnion (N : ℕ) (valid : α → Prop) (ps : List (α × Head C)) : Prop :=
  ∀ p ∈ ps, valid p.1 ∧ ∀ d c, p.2 = .on d c → d < N

/-- A head, as a function of the one key it stands on. -/
def Head.at (h : Head C) (e : ℕ) : Option C :=
  match h with
  | .on d c => if e = d then some c else none
  | _ => none

theorem Head.least_at {h : Head C} (ht : ∀ d c, h = .on d c → t ≤ d) : Least h.at t h.answer := by
  cases h with
  | fresh => exact fun _ _ => rfl
  | exhausted => exact fun _ _ => rfl
  | on d c => exact ⟨ht d c rfl, if_pos rfl, fun e _ hlt => if_neg hlt.ne⟩

/-- A cursor brought up to a target stands at or past it. -/
theorem Advances.refresh_head (A : Advances N step valid) (hv : valid p.1)
    (hp : ∀ d c, p.2 = .on d c → d < N) (t : ℕ) :
    valid (refresh step t p).1
      ∧ ∀ d c, (refresh step t p).2 = .on d c → t ≤ d ∧ d < N := by
  unfold refresh
  by_cases hb : p.2.behind t = true
  · rw [if_pos hb]
    refine ⟨A.keeps p.1 t hv, fun d c heq => ?_⟩
    cases h : (step p.1 t).1 with
    | none =>
      rw [h] at heq
      cases heq
    | some q =>
      rw [h] at heq
      cases heq
      exact A.answer p.1 t _ _ hv h
  · rw [if_neg hb]
    refine ⟨hv, fun d c heq => ⟨?_, hp d c heq⟩⟩
    rw [heq] at hb
    simpa [Head.behind] using hb

/-- **A union answers at or past the target.** -/
theorem Advances.union (A : Advances N step valid) (join : C → C → C) :
    Advances N (union step join) (ValidUnion N valid) := by
  have hscan : ∀ (ps : List (α × Head C)) (t : ℕ), ValidUnion N valid ps →
      Least (joinView join (fun _ => none) (ps.map fun p => (refresh step t p).2.at)) t
          (Seek.union step join ps t).1
        ∧ (Seek.union step join ps t).2 = ps.map (refresh step t) := by
    intro ps t hps
    have hnone : Least (fun _ => none : ℕ → Option C) t none := fun _ _ => rfl
    refine scan_least_of join t ?_ hnone
    rw [forall₂_map_right_iff]
    exact forall₂_same.mpr fun p hp =>
      Head.least_at fun d c heq => ((A.refresh_head (hps p hp).1 (hps p hp).2 t).2 d c heq).1
  refine ⟨fun ps t hps => ?_, fun ps t d c hps h => ?_⟩
  · rw [(hscan ps t hps).2]
    intro p' hp'
    obtain ⟨p, hp, rfl⟩ := mem_map.mp hp'
    obtain ⟨hv, hhead⟩ := A.refresh_head (hps p hp).1 (hps p hp).2 t
    exact ⟨hv, fun d c heq => (hhead d c heq).2⟩
  · have hleast := (hscan ps t hps).1
    rw [h] at hleast
    refine ⟨hleast.1, ?_⟩
    have hne : joinView join (fun _ => none) (ps.map fun p => (refresh step t p).2.at) d ≠ none :=
      hleast.2.1 ▸ Option.some_ne_none c
    rcases (joinView_ne_none_iff join).mp hne with hcon | ⟨g, hg, hgd⟩
    · exact absurd rfl hcon
    · obtain ⟨p, hp, rfl⟩ := mem_map.mp hg
      cases hhead : (refresh step t p).2 with
      | fresh | exhausted => rw [hhead] at hgd; exact absurd rfl hgd
      | on d' c' =>
        have hlt := ((A.refresh_head (hps p hp).1 (hps p hp).2 t).2 d' c' hhead).2
        rw [hhead] at hgd
        by_cases hd : d = d'
        · rw [hd]
          exact hlt
        · exact absurd (if_neg hd) hgd

/-! ## A union drained -/

/-- A sorted list of keys and values, as a partial function. -/
def ofList (xs : List (ℕ × C)) (e : ℕ) : Option C :=
  (xs.find? (·.1 = e)).map Prod.snd

theorem ofList_eq_some_iff {xs : List (ℕ × C)} (hxs : xs.Pairwise (fun p q => p.1 < q.1)) :
    ofList xs e = some c ↔ (e, c) ∈ xs := by
  induction xs with
  | nil => simp [ofList]
  | cons x xs ih =>
    obtain ⟨hx, hxs⟩ := pairwise_cons.mp hxs
    by_cases he : x.1 = e
    · have hhead : ofList (x :: xs) e = some x.2 := by simp [ofList, he]
      rw [hhead, mem_cons]
      constructor
      · rintro ⟨⟩
        exact .inl (Prod.ext he.symm rfl)
      · rintro (heq | hmem)
        · rw [← heq]
        · exact absurd (hx _ hmem) (by rw [he]; exact lt_irrefl e)
    · have htail : ofList (x :: xs) e = ofList xs e := by simp [ofList, he]
      rw [htail, ih hxs, mem_cons]
      exact ⟨.inr, fun h => h.resolve_left fun heq => he (by rw [← heq])⟩

theorem ofList_cons (x : ℕ × C) (xs : List (ℕ × C)) (e : ℕ) :
    ofList (x :: xs) e = if x.1 = e then some x.2 else ofList xs e := by
  unfold ofList
  by_cases he : x.1 = e <;> simp [he]

/-- The keys of a cursor, as a partial function. -/
theorem Advances.ofList_stream_lt (A : Advances N step valid) (hs : valid s)
    (he : e < t) : ofList (stream N step s t) e = none := by
  by_contra hne
  obtain ⟨c, hc⟩ := Option.ne_none_iff_exists'.mp hne
  obtain ⟨hsorted, hrange⟩ := A.stream_sorted hs t
  exact absurd (hrange _ ((ofList_eq_some_iff hsorted).mp hc)).1 (not_le.mpr he)

/-- What one cursor of a drained union has to give: its head, and the keys
after it. -/
def given (N : ℕ) (step : α → ℕ → Option (ℕ × C) × α) (p : α × Head C) : ℕ → Option C :=
  match p.2 with
  | .fresh => ofList (stream N step p.1 0)
  | .on d c => ofList ((d, c) :: stream N step p.1 (d + 1))
  | .exhausted => fun _ => none

/-- A cursor of a union that has been drained up to the target `t`. -/
def Head.Drained (t : ℕ) : Head C → Prop
  | .fresh => t = 0
  | .on d _ => t ≤ d + 1
  | .exhausted => True

/-- Asked for the key after its head, a cursor gives what it had to give. -/
theorem Advances.asked_given (A : Advances N step valid) (hs : valid s) (t : ℕ) :
    let p' := ((step s t).2, Head.ofAnswer (step s t).1)
    Least (ofList (stream N step s t)) t p'.2.answer
      ∧ given N step p' = ofList (stream N step s t) := by
  cases h : (step s t).1 with
  | none =>
    rw [stream_none h]
    exact ⟨fun _ _ => rfl, rfl⟩
  | some q =>
    obtain ⟨d, c⟩ := q
    obtain ⟨hle, -⟩ := A.answer s t d c hs h
    rw [A.stream_some hs h]
    refine ⟨⟨hle, by simp [ofList_cons], fun e _ hlt => ?_⟩, rfl⟩
    rw [ofList_cons, if_neg (by simpa using hlt.ne')]
    exact A.ofList_stream_lt (A.keeps s t hs) (Nat.lt_succ_of_lt hlt)

theorem Advances.refresh_given (A : Advances N step valid) (hv : valid p.1) (hp : p.2.Drained t) :
    Least (given N step p) t (refresh step t p).2.answer
      ∧ ∀ e, t ≤ e → given N step (refresh step t p) e = given N step p e := by
  obtain ⟨s, head⟩ := p
  cases head with
  | exhausted => exact ⟨fun _ _ => rfl, fun _ _ => rfl⟩
  | fresh =>
    obtain rfl : t = 0 := hp
    obtain ⟨hleast, hgiven⟩ := A.asked_given hv 0
    exact ⟨hleast, fun e _ => congrFun hgiven e⟩
  | on d c =>
    by_cases hlt : d < t
    · -- the target is the key after the head
      obtain rfl : t = d + 1 := le_antisymm hp hlt
      have hr : refresh step (d + 1) (s, .on d c)
          = ((step s (d + 1)).2, Head.ofAnswer (step s (d + 1)).1) :=
        if_pos (decide_eq_true hlt)
      obtain ⟨hleast, hgiven⟩ := A.asked_given hv (d + 1)
      have hsame : ∀ e, d + 1 ≤ e → given N step (s, .on d c) e
          = ofList (stream N step s (d + 1)) e := fun e he => by
        show ofList ((d, c) :: _) e = _
        rw [ofList_cons, if_neg (by simpa using (Nat.lt_of_succ_le he).ne)]
      rw [hr]
      exact ⟨hleast.congr hsame, fun e he => (congrFun hgiven e).trans (hsame e he).symm⟩
    · have hr : refresh step t (s, .on d c) = (s, .on d c) :=
        if_neg (by simpa [Head.behind] using hlt)
      rw [hr]
      refine ⟨⟨not_lt.mp hlt, ?_, fun e _ hed => ?_⟩, fun _ _ => rfl⟩
      · show ofList ((d, c) :: _) d = some c
        rw [ofList_cons, if_pos rfl]
      · show ofList ((d, c) :: _) e = none
        rw [ofList_cons, if_neg (by simpa using hed.ne')]
        exact A.ofList_stream_lt hv (Nat.lt_succ_of_lt hed)

theorem refresh_ne_fresh (p : α × Head C) (t : ℕ) : (refresh step t p).2 ≠ .fresh := by
  obtain ⟨s, _⟩ := p
  unfold refresh
  split
  case isTrue =>
    show Head.ofAnswer (step s t).1 ≠ .fresh
    cases (step s t).1 <;> simp [Head.ofAnswer]
  case isFalse hb =>
    rintro rfl
    exact hb rfl

/-- **The keys of a drained union** are those its cursors have to give, joined. -/
theorem Advances.mem_stream_union (A : Advances N step valid) (join : C → C → C)
    (hps : ValidUnion N valid ps) (hdrained : ∀ p ∈ ps, p.2.Drained t) (he : t ≤ e) (c : C) :
    (e, c) ∈ stream N (Seek.union step join) ps t
      ↔ joinView join (fun _ => none) (ps.map (given N step)) e = some c := by
  induction hn : N - t using Nat.strong_induction_on generalizing ps t with
  | _ n ih =>
    have AU := A.union join
    have hrefresh : ∀ p ∈ ps, _ := fun p hp => A.refresh_given (hps p hp).1 (hdrained p hp)
    have hnone : Least (fun _ => none : ℕ → Option C) t none := fun _ _ => rfl
    have hscan : Least (joinView join (fun _ => none) (ps.map (given N step))) t
          (Seek.union step join ps t).1
        ∧ (Seek.union step join ps t).2 = ps.map (refresh step t) := by
      refine scan_least_of join t ?_ hnone
      rw [forall₂_map_right_iff]
      exact forall₂_same.mpr fun p hp => (hrefresh p hp).1
    obtain ⟨hleast, hps'⟩ := hscan
    cases h : (Seek.union step join ps t).1 with
    | none =>
      rw [h] at hleast
      rw [stream_none h, hleast e he]
      exact iff_of_false not_mem_nil (Option.some_ne_none c).symm
    | some q =>
      obtain ⟨d, c'⟩ := q
      rw [h] at hleast
      have hlt := (AU.answer ps t d c' hps h).2
      have htd := hleast.1
      -- every cursor now stands at or past the answer
      have hdrained' : ∀ p ∈ ps.map (refresh step t), p.2.Drained (d + 1) := by
        intro p' hp'
        obtain ⟨p, hp, rfl⟩ := mem_map.mp hp'
        have hown := (hrefresh p hp).1
        cases hhead : (refresh step t p).2 with
        | fresh => exact absurd hhead (refresh_ne_fresh p t)
        | exhausted => exact trivial
        | on d' c'' =>
          rw [hhead] at hown
          refine Nat.succ_le_succ (not_lt.mp fun hlt' => ?_)
          refine (joinView_ne_none_iff join).mpr (.inr ⟨given N step p, mem_map_of_mem hp, ?_⟩)
            (hleast.2.2 d' hown.1 hlt')
          rw [hown.2.1]
          exact Option.some_ne_none c''
      have hsame : joinView join (fun _ => none) ((ps.map (refresh step t)).map (given N step)) e
          = joinView join (fun _ => none) (ps.map (given N step)) e := by
        refine joinView_congr join rfl ?_
        rw [map_map, forall₂_map_left_iff, forall₂_map_right_iff]
        exact forall₂_same.mpr fun p hp => (hrefresh p hp).2 e he
      rw [AU.stream_some hps h, mem_cons]
      rcases lt_trichotomy e d with hed | rfl | hde
      · rw [hleast.2.2 e he hed]
        refine iff_of_false ?_ (Option.some_ne_none c).symm
        rintro (heq | hmem)
        · cases heq
          exact lt_irrefl _ hed
        · have := ((AU.stream_sorted (AU.keeps ps t hps) (d + 1)).2 _ hmem).1
          simp only at this
          omega
      · rw [hleast.2.1]
        constructor
        · rintro (heq | hmem)
          · cases heq
            rfl
          · have := ((AU.stream_sorted (AU.keeps ps t hps) (e + 1)).2 _ hmem).1
            simp only at this
            omega
        · rintro ⟨⟩
          exact .inl rfl
      · have hvalid := AU.keeps ps t hps
        rw [hps'] at hvalid ⊢
        rw [or_iff_right (by rintro ⟨⟩; exact lt_irrefl _ hde),
          ih (N - (d + 1)) (by omega) hvalid hdrained' hde rfl, hsame]

/-! ## A union walked -/

variable (step) in
/-- A cursor of a union that has been walked as far as the target `t`, and
answers from the view `f`. -/
def Walked (f : ℕ → Option C) (t : ℕ) (p : α × Head C) :
    Prop :=
  match p.2 with
  | .fresh => WalksFrom step f t p.1
  | .on d c => Least f t (some (d, c)) ∧ WalksFrom step f t p.1
  | .exhausted => Least f t none

theorem walked_asked (h : WalksFrom step f t s) (ht : t ≤ t') :
    let p' := ((step s t').2, Head.ofAnswer (step s t').1)
    Least f t' p'.2.answer ∧ Walked step f t' p' := by
  have hleast := h.least ht
  have hnext := h.next ht
  cases hanswer : (step s t').1 with
  | none =>
    rw [hanswer] at hleast
    exact ⟨hleast, hleast⟩
  | some q =>
    rw [hanswer] at hleast
    exact ⟨hleast, hleast, hnext⟩

theorem Walked.refresh (h : Walked step f t p) (ht : t ≤ t') :
    Least f t' (refresh step t' p).2.answer ∧ Walked step f t' (refresh step t' p) := by
  obtain ⟨s, head⟩ := p
  cases head with
  | fresh => exact walked_asked h ht
  | exhausted =>
    have hnone : Least f t' none := fun e he => h e (ht.trans he)
    exact ⟨hnone, hnone⟩
  | on d c =>
    by_cases hlt : d < t'
    · have hr : Seek.refresh step t' (s, .on d c)
          = ((step s t').2, Head.ofAnswer (step s t').1) :=
        if_pos (decide_eq_true hlt)
      rw [hr]
      exact walked_asked h.2 ht
    · have hr : Seek.refresh step t' (s, .on d c) = (s, .on d c) :=
        if_neg (by simpa [Head.behind] using hlt)
      have hleast := h.1.mono ht (not_lt.mp hlt)
      rw [hr]
      exact ⟨hleast, hleast, h.2.mono ht⟩

/-- **A union of cursors that answer from views answers from their join.** -/
theorem walks_union (join : C → C → C) {fs : List (ℕ → Option C)}
    (h : List.Forall₂ (fun p f => Walked step f t p) ps fs) :
    WalksFrom (Seek.union step join) (joinView join (fun _ => none) fs) t ps := by
  intro targets hsorted hle
  induction targets generalizing ps t with
  | nil => exact .nil
  | cons t' _ ih =>
    obtain ⟨ht, -⟩ := forall_mem_cons.mp hle
    obtain ⟨hlower, hsorted⟩ := pairwise_cons.mp hsorted
    have hnone : Least (fun _ => none : ℕ → Option C) t' none := fun _ _ => rfl
    obtain ⟨hleast, hps⟩ :=
      scan_least_of join t' (h.imp fun _ _ hp => (hp.refresh ht).1) hnone
    refine .cons hleast (ih ?_ hsorted hlower)
    show List.Forall₂ _ (scan step join t' ps none).2 fs
    rw [hps, forall₂_map_left_iff]
    exact h.imp fun _ _ hp => (hp.refresh ht).2

end

/-! ## Searches advance -/

variable {rest : List α}

section

variable {N : ℕ} {step : α → ℕ → Option (ℕ × C) × α} {valid : α → Prop}

theorem Advances.restrict (A : Advances N step valid) (verdict : C → Option C → Option C)
    (n : ℕ) {driver probe : α} (hd : valid driver) (hp : valid probe) (t : ℕ) :
    let q := restrict N step verdict n driver probe t
    (∀ d c, q.1 = some (d, c) → t ≤ d ∧ d < N) ∧ valid q.2.1 ∧ valid q.2.2 := by
  induction n generalizing driver probe t with
  | zero => exact ⟨fun d c h => (by cases h), hd, hp⟩
  | succ n ih =>
    have hanswer := A.answer driver t
    have hd' := A.keeps driver t hd
    simp only [Seek.restrict]
    generalize step driver t = q at hanswer hd'
    obtain ⟨r, _⟩ := q
    cases r with
    | none => exact ⟨fun d c h => (by cases h), hd', hp⟩
    | some a =>
      obtain ⟨d, c⟩ := a
      obtain ⟨hle, hlt⟩ := hanswer d c hd rfl
      have hp' : valid (test step probe d).2 := by
        have hkeeps := A.keeps probe d hp
        unfold test
        generalize step probe d = q at hkeeps
        obtain ⟨r, probe'⟩ := q
        cases r <;> exact hkeeps
      dsimp only
      generalize test step probe d = known at hp'
      obtain ⟨known, probe'⟩ := known
      dsimp only
      cases verdict c known with
      | some _ =>
        refine ⟨fun d' c'' h => ?_, hd', hp'⟩
        cases h
        exact ⟨hle, hlt⟩
      | none =>
        dsimp only
        split
        · obtain ⟨ha, hv⟩ := ih hd' hp' (d + 1)
          exact ⟨fun d' c'' h => ⟨by have := (ha d' c'' h).1; omega, (ha d' c'' h).2⟩, hv⟩
        · exact ⟨fun d' c'' h => (by cases h), hd', hp'⟩

theorem Advances.ask (A : Advances N step valid) (meet : C → C → C) (hr : ∀ s ∈ rest, valid s)
    (d : ℕ) (c : C) :
    (∀ e, (Seek.ask step meet rest d c).1 = .ahead e → d ≤ e)
      ∧ ∀ s ∈ (Seek.ask step meet rest d c).2, valid s := by
  induction rest generalizing c with
  | nil => exact ⟨fun e h => (by cases h), hr⟩
  | cons child rest ih =>
    obtain ⟨hchild, hrest⟩ := forall_mem_cons.mp hr
    have hanswer := A.answer child d
    have hkeeps := A.keeps child d hchild
    simp only [Seek.ask]
    generalize step child d = q at hanswer hkeeps
    obtain ⟨r, _⟩ := q
    cases r with
    | none => exact ⟨fun e h => (by cases h), forall_mem_cons.mpr ⟨hkeeps, hrest⟩⟩
    | some a =>
      obtain ⟨e, c'⟩ := a
      have hle := (hanswer e c' hchild rfl).1
      dsimp only
      split
      · refine ⟨fun e' h => ?_, forall_mem_cons.mpr ⟨hkeeps, hrest⟩⟩
        cases h
        exact hle
      · obtain ⟨hround, hvalid⟩ := ih hrest (meet c c')
        exact ⟨hround, forall_mem_cons.mpr ⟨hkeeps, hvalid⟩⟩

theorem Advances.leapfrog (A : Advances N step valid) (meet : C → C → C) (n : ℕ) {driver : α}
    (hd : valid driver) (hr : ∀ s ∈ rest, valid s) (t : ℕ) :
    let q := leapfrog step meet n driver rest t
    (∀ d c, q.1 = some (d, c) → t ≤ d ∧ d < N) ∧ valid q.2.1 ∧ ∀ s ∈ q.2.2, valid s := by
  induction n generalizing driver rest t with
  | zero => exact ⟨fun d c h => (by cases h), hd, hr⟩
  | succ n ih =>
    have hanswer := A.answer driver t
    have hd' := A.keeps driver t hd
    simp only [Seek.leapfrog]
    generalize step driver t = q at hanswer hd'
    obtain ⟨r, _⟩ := q
    cases r with
    | none => exact ⟨fun d c h => (by cases h), hd', hr⟩
    | some a =>
      obtain ⟨d, c⟩ := a
      obtain ⟨hle, hlt⟩ := hanswer d c hd rfl
      obtain ⟨hround, hr'⟩ := A.ask meet hr d c
      dsimp only
      generalize Seek.ask step meet rest d c = q at hround hr'
      obtain ⟨round, _⟩ := q
      cases round with
      | exhausted => exact ⟨fun d' c' h => (by cases h), hd', hr'⟩
      | ahead e =>
        have hde := hround e rfl
        obtain ⟨ha, hv⟩ := ih hd' hr' e
        exact ⟨fun d' c' h => ⟨by have := (ha d' c' h).1; omega, (ha d' c' h).2⟩, hv⟩
      | agreed c' =>
        refine ⟨fun d' c'' h => ?_, hd', hr'⟩
        cases h
        exact ⟨hle, hlt⟩

end

/-! ## Searches by steps that agree

Two steps that agree on the states a search goes through make the same search. -/

section

variable {N : ℕ} {step step' : α → ℕ → Option (ℕ × C) × α} {valid : α → Prop}
  (hkeeps : ∀ s t, valid s → valid (step s t).2) (heq : ∀ s t, valid s → step' s t = step s t)

include hkeeps heq

theorem restrict_congr (verdict : C → Option C → Option C) (n : ℕ) {driver probe : α}
    (hd : valid driver) (hp : valid probe) (t : ℕ) :
    Seek.restrict N step' verdict n driver probe t
      = Seek.restrict N step verdict n driver probe t := by
  induction n generalizing driver probe t with
  | zero => rfl
  | succ n ih =>
    have hd' := hkeeps driver t hd
    simp only [Seek.restrict, heq driver t hd]
    generalize step driver t = q at hd'
    obtain ⟨r, _⟩ := q
    cases r with
    | none => rfl
    | some a =>
      obtain ⟨d, c⟩ := a
      have htest : test step' probe d = test step probe d := by
        unfold test
        rw [heq probe d hp]
      have hp' : valid (test step probe d).2 := by
        have hkeep := hkeeps probe d hp
        unfold test
        generalize step probe d = q at hkeep
        obtain ⟨r, probe'⟩ := q
        cases r <;> exact hkeep
      dsimp only
      rw [htest]
      generalize test step probe d = known at hp'
      obtain ⟨known, probe'⟩ := known
      dsimp only
      cases verdict c known with
      | some _ => rfl
      | none =>
        dsimp only
        rw [ih hd' hp']

theorem ask_congr (meet : C → C → C) (hr : ∀ s ∈ rest, valid s) (d : ℕ) (c : C) :
    Seek.ask step' meet rest d c = Seek.ask step meet rest d c
      ∧ ∀ s ∈ (Seek.ask step meet rest d c).2, valid s := by
  induction rest generalizing c with
  | nil => exact ⟨rfl, hr⟩
  | cons child rest ih =>
    obtain ⟨hchild, hrest⟩ := forall_mem_cons.mp hr
    have hkeep := hkeeps child d hchild
    simp only [Seek.ask, heq child d hchild]
    generalize step child d = q at hkeep
    obtain ⟨r, _⟩ := q
    cases r with
    | none => exact ⟨rfl, forall_mem_cons.mpr ⟨hkeep, hrest⟩⟩
    | some a =>
      obtain ⟨e, c'⟩ := a
      obtain ⟨hsame, hvalid⟩ := ih hrest (meet c c')
      dsimp only
      split
      · exact ⟨rfl, forall_mem_cons.mpr ⟨hkeep, hrest⟩⟩
      · rw [hsame]
        exact ⟨rfl, forall_mem_cons.mpr ⟨hkeep, hvalid⟩⟩

theorem leapfrog_congr (meet : C → C → C) (n : ℕ) {driver : α} (hd : valid driver)
    (hr : ∀ s ∈ rest, valid s) (t : ℕ) :
    Seek.leapfrog step' meet n driver rest t = Seek.leapfrog step meet n driver rest t := by
  induction n generalizing driver rest t with
  | zero => rfl
  | succ n ih =>
    have hd' := hkeeps driver t hd
    simp only [Seek.leapfrog, heq driver t hd]
    generalize step driver t = q at hd'
    obtain ⟨r, _⟩ := q
    cases r with
    | none => rfl
    | some a =>
      obtain ⟨d, c⟩ := a
      obtain ⟨hsame, hr'⟩ := ask_congr hkeeps heq meet hr d c
      dsimp only
      rw [hsame]
      generalize Seek.ask step meet rest d c = q at hr'
      obtain ⟨round, _⟩ := q
      cases round with
      | exhausted => rfl
      | agreed _ => rfl
      | ahead e => exact ih hd' hr' e

omit hkeeps

theorem scan_congr (join : C → C → C) (t : ℕ) (hps : ∀ p ∈ ps, valid p.1) (best : Option (ℕ × C)) :
    scan step' join t ps best = scan step join t ps best := by
  induction ps generalizing best with
  | nil => rfl
  | cons p ps ih =>
    obtain ⟨hp, hps⟩ := forall_mem_cons.mp hps
    have hrefresh : refresh step' t p = refresh step t p := by
      unfold refresh
      rw [heq p.1 t hp]
    simp only [scan, hrefresh, ih hps]

end

section

variable {N : ℕ} {step : α → ℕ → Option (ℕ × C) × α} {valid : α → Prop}
  {step' : β → ℕ → Option (ℕ × C) × β} {φ : α → β}
  (hφ : ∀ s t, valid s → step' (φ s) t = ((step s t).1, φ (step s t).2))

include hφ

/-- A cursor that is another one in a different shape gives the same keys. -/
theorem Advances.stream_map (A : Advances N step valid) {valid' : β → Prop}
    (A' : Advances N step' valid') (hvalid : ∀ s, valid s → valid' (φ s)) {s : α} (hs : valid s)
    (t : ℕ) : stream N step' (φ s) t = stream N step s t := by
  induction hn : N - t using Nat.strong_induction_on generalizing s t with
  | _ n ih =>
    have hstep := hφ s t hs
    have hfst : (step' (φ s) t).1 = (step s t).1 := by rw [hstep]
    have hsnd : (step' (φ s) t).2 = φ (step s t).2 := by rw [hstep]
    cases h : (step s t).1 with
    | none => rw [stream_none h, stream_none (hfst.trans h)]
    | some p =>
      obtain ⟨d, c⟩ := p
      have hle := A.answer s t d c hs h
      rw [A.stream_some hs h, A'.stream_some (hvalid s hs) (hfst.trans h), hsnd,
        ih (N - (d + 1)) (by omega) (A.keeps s t hs) (d + 1) rfl]

/-- And the same answers to any targets. -/
theorem run_map (hkeeps : ∀ s t, valid s → valid (step s t).2) {s : α} (hs : valid s)
    (targets : List ℕ) : run step' (φ s) targets = run step s targets := by
  induction targets generalizing s with
  | nil => rfl
  | cons t _ ih =>
    rw [run, run, hφ s t hs]
    exact congrArg _ (ih (hkeeps s t hs))

end

end Seek
