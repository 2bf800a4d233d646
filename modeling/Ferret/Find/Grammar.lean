import Ferret.Find.Leaves

/-!
# The grammar of find expressions

`Derives` is the grammar: a comma expression is made of ORs, an OR of ANDs, an
AND – its operator may be left out – of negations, groups and primaries, and
every operator is left associative. A production reads from one state to
another, since what a primary means depends on the primaries before it; the
words a production takes are those between the two states. The number it is
indexed by bounds the negations and groups nested in it.

`sound` says that a parser of a level derives what it returns, and `complete`
that it returns what is derived, so long as no operator of that level follows.
Between the two, every loop of the parser is a left-recursive production.
-/

namespace Ferret.Find

open Stateful List

variable {τ φ : Type} {host : Host τ φ}

/-- The next word is one of `values`, and is read. -/
def Takes (values : List Arg) (s s' : Seen) : Prop :=
  ∃ next ∈ values, ∃ rest, s.rest = next :: rest ∧ { s with rest := rest } = s'

inductive Level
  | comma
  | or
  | and
  | unary

/-- **The grammar**, with at most so many negations and groups nested. -/
inductive Derives (host : Host τ φ) : Level → ℕ → Seen → Expression τ φ → Seen → Prop
  | primary {k : ℕ} {s : Seen} {p : Arg} {rest : List Arg} {e : Expression τ φ} {s' : Seen} :
    s.rest = p :: rest → primary host p { s with rest := rest } = .ok e s' →
    Derives host .unary k s e s'
  | not {k : ℕ} {s s₁ s' : Seen} {e : Expression τ φ} :
    Takes [word "!", word "-not"] s s₁ → Derives host .unary k s₁ e s' →
    Derives host .unary (k + 1) s (.not e) s'
  | group {k : ℕ} {s s₁ s₂ s' : Seen} {e : Expression τ φ} :
    Takes [word "("] s s₁ → Derives host .comma k s₁ e s₂ → Takes [word ")"] s₂ s' →
    Derives host .unary (k + 1) s e s'
  | oneAnd {k : ℕ} {s s' : Seen} {e : Expression τ φ} :
    Derives host .unary k s e s' → Derives host .and k s e s'
  | and {k : ℕ} {s s₁ s₂ s' : Seen} {e e' : Expression τ φ} :
    Derives host .and k s e s₁ → Takes [word "-a", word "-and"] s₁ s₂ →
    Derives host .unary k s₂ e' s' → Derives host .and k s (.and e e') s'
  | juxtapose {k : ℕ} {s s₁ s' : Seen} {e e' : Expression τ φ} :
    Derives host .and k s e s₁ → Derives host .unary k s₁ e' s' →
    Derives host .and k s (.and e e') s'
  | oneOr {k : ℕ} {s s' : Seen} {e : Expression τ φ} :
    Derives host .and k s e s' → Derives host .or k s e s'
  | or {k : ℕ} {s s₁ s₂ s' : Seen} {e e' : Expression τ φ} :
    Derives host .or k s e s₁ → Takes [word "-o", word "-or"] s₁ s₂ →
    Derives host .and k s₂ e' s' → Derives host .or k s (.or e e') s'
  | oneComma {k : ℕ} {s s' : Seen} {e : Expression τ φ} :
    Derives host .or k s e s' → Derives host .comma k s e s'
  | comma {k : ℕ} {s s₁ s₂ s' : Seen} {e e' : Expression τ φ} :
    Derives host .comma k s e s₁ → Takes [word ","] s₁ s₂ →
    Derives host .or k s₂ e' s' → Derives host .comma k s (.comma e e') s'

/-! ## What a derivation leaves -/

variable {values : List Arg} {s' s₁ s₂ : Seen} {p' : Parser}

theorem Takes.length {s : Seen} (h : Takes values s s') : s.rest.length = s'.rest.length + 1 := by
  obtain ⟨next, -, rest, hrest, rfl⟩ := h
  rw [hrest]
  rfl

theorem Takes.action {s : Seen} (h : Takes values s s') : s'.action = s.action := by
  obtain ⟨next, -, rest, -, rfl⟩ := h
  rfl

/-- Every derivation reads a word. -/
theorem Derives.length_lt {level : Level} {k : ℕ} {s : Seen} {e : Expression τ φ}
    (h : Derives host level k s e s') : s'.rest.length < s.rest.length := by
  induction h with
  | primary hrest hp =>
    have hle := (primary_yields _ _ _ _ hp).rest
    rw [hrest]
    exact Nat.lt_succ_of_le hle
  | not ht _ ih =>
    have := ht.length
    omega
  | group ht _ ht' ih =>
    have := ht.length
    have := ht'.length
    omega
  | oneAnd _ ih => exact ih
  | and _ ht _ ih ih' =>
    have := ht.length
    omega
  | juxtapose _ _ ih ih' => omega
  | oneOr _ ih => exact ih
  | or _ ht _ ih ih' =>
    have := ht.length
    omega
  | oneComma _ ih => exact ih
  | comma _ ht _ ih ih' =>
    have := ht.length
    omega

/-- **The flag that suppresses the implicit action is raised by the explicit
actions of the tree, and by nothing else.** -/
theorem Derives.action {level : Level} {k : ℕ} {s : Seen} {e : Expression τ φ}
    (h : Derives host level k s e s') : s'.action = (s.action || e.explicit) := by
  induction h with
  | primary hrest hp => exact (primary_yields _ _ _ _ hp).action
  | not ht _ ih => rw [ih, ht.action]; rfl
  | group ht _ ht' ih => rw [ht'.action, ih, ht.action]
  | oneAnd _ ih => exact ih
  | and _ ht _ ih ih' => rw [ih', ht.action, ih, Bool.or_assoc]; rfl
  | juxtapose _ _ ih ih' => rw [ih', ih, Bool.or_assoc]; rfl
  | oneOr _ ih => exact ih
  | or _ ht _ ih ih' => rw [ih', ht.action, ih, Bool.or_assoc]; rfl
  | oneComma _ ih => exact ih
  | comma _ ht _ ih ih' => rw [ih', ht.action, ih, Bool.or_assoc]; rfl

/-- A unary starts with a word that neither ends an AND nor continues one. -/
theorem Derives.starts {k : ℕ} {s : Seen} {e : Expression τ φ} (h : Derives host .unary k s e s') :
    ∃ next rest, s.rest = next :: rest ∧ next ∉ [word "-a", word "-and"]
      ∧ endsAnd (some next) = false := by
  cases h with
  | primary hrest hp =>
    rename_i p rest
    have hno : ∀ p' ∈ operatorWords, p ≠ p' := fun p' hp' heq =>
      primary_operator hp' _ _ _ (heq ▸ hp)
    refine ⟨p, rest, hrest, fun hmem => ?_, ?_⟩
    · simp only [mem_cons, not_mem_nil, or_false] at hmem
      rcases hmem with rfl | rfl <;> exact hno _ (by decide) rfl
    · simp only [endsAnd, decide_eq_false_iff_not, mem_cons, not_mem_nil, or_false]
      rintro (rfl | rfl | rfl | rfl) <;> exact hno _ (by decide) rfl
  | not ht _ =>
    obtain ⟨next, hmem, rest, hrest, -⟩ := ht
    simp only [mem_cons, not_mem_nil, or_false] at hmem
    refine ⟨next, rest, hrest, ?_⟩
    rcases hmem with rfl | rfl <;> decide
  | group ht _ _ =>
    obtain ⟨next, hmem, rest, hrest, -⟩ := ht
    rw [mem_singleton] at hmem
    subst hmem
    exact ⟨_, rest, hrest, by decide⟩

/-! ## The steps of the parser -/

variable {p : Parser}

theorem consume_ok {found : Bool} :
    consume values p = .ok found p' ↔
      (found = true ∧ ∃ s, Takes values p.seen s ∧ { p with seen := s } = p')
      ∨ (found = false ∧ (∀ next ∈ p.seen.rest.head?, next ∉ values) ∧ p = p') := by
  unfold consume
  cases hr : p.seen.rest with
  | nil => simp [Takes, hr, eq_comm]
  | cons next rest =>
    by_cases hmem : next ∈ values
    · simp [Takes, hr, hmem, eq_comm]
    · have hno : ∀ v ∈ values, v ≠ next := fun v hv heq => hmem (heq ▸ hv)
      simp only [hmem, if_false, EStateM.Result.ok.injEq, head?_cons, Option.mem_def,
        Option.some.injEq, forall_eq', not_false_eq_true, true_and, Takes, hr]
      constructor
      · rintro ⟨rfl, rfl⟩
        exact .inr ⟨rfl, rfl⟩
      · rintro (⟨-, s, ⟨v, hv, rest', heq, -⟩, -⟩ | ⟨rfl, rfl⟩)
        · cases heq
          exact absurd rfl (hno _ hv)
        · exact ⟨rfl, rfl⟩

theorem consume_takes {s : Seen} (h : Takes values p.seen s) :
    consume values p = .ok true { p with seen := s } :=
  consume_ok.mpr (.inl ⟨rfl, s, h, rfl⟩)

theorem consume_leaves (h : ∀ next ∈ p.seen.rest.head?, next ∉ values) :
    consume values p = .ok false p :=
  consume_ok.mpr (.inr ⟨rfl, h, rfl⟩)

theorem combine_ok {u : Unit} :
    combine p = .ok u p' ↔
      p.combinators + 1 ≤ MAX_COMBINATORS
        ∧ { p with combinators := p.combinators + 1 } = p' := by
  have hrun : combine p = if p.combinators + 1 > MAX_COMBINATORS then
      .error (.feature "expression has more than 2000 -a/-o/-not/, operators; split it up")
        { p with combinators := p.combinators + 1 }
      else .ok () { p with combinators := p.combinators + 1 } := by
    show (if p.combinators + 1 > MAX_COMBINATORS then _ else _ : Parse Unit) _ = _
    split <;> rfl
  rw [hrun]
  by_cases h : p.combinators + 1 > MAX_COMBINATORS
  · simp [h, not_le.mpr h]
  · simp [h, not_lt.mp h]

theorem combine_run {p : Parser} (h : p.combinators + 1 ≤ MAX_COMBINATORS) :
    combine p = .ok () { p with combinators := p.combinators + 1 } :=
  combine_ok.mpr ⟨h, rfl⟩

theorem nest_ok {p : Parser} {u : Unit} :
    nest p = .ok u p' ↔
      p.nesting + 1 ≤ MAX_NESTING ∧ { p with nesting := p.nesting + 1 } = p' := by
  have hrun : nest p = if p.nesting + 1 > MAX_NESTING then
      .error (.feature "expression nesting exceeds 128 parentheses/negations; split it up")
        { p with nesting := p.nesting + 1 }
      else .ok () { p with nesting := p.nesting + 1 } := by
    show (if p.nesting + 1 > MAX_NESTING then _ else _ : Parse Unit) _ = _
    split <;> rfl
  rw [hrun]
  by_cases h : p.nesting + 1 > MAX_NESTING
  · simp [h, not_le.mpr h]
  · simp [h, not_lt.mp h]

theorem nest_run {p : Parser} (h : p.nesting + 1 ≤ MAX_NESTING) :
    nest p = .ok () { p with nesting := p.nesting + 1 } :=
  nest_ok.mpr ⟨h, rfl⟩

theorem unnest_ok {α : Type} {inner : Parse α} {p : Parser} {a : α} :
    unnest inner p = .ok a p' ↔
      ∃ q, inner p = .ok a q ∧ { q with nesting := q.nesting - 1 } = p' := by
  unfold unnest
  cases inner p with
  | ok b q => simp only [EStateM.Result.ok.injEq]; exact ⟨fun ⟨h, h'⟩ => ⟨q, ⟨h, rfl⟩, h'⟩,
      fun ⟨_, ⟨h, h''⟩, h'⟩ => ⟨h, h'' ▸ h'⟩⟩
  | error e q => simp

theorem peek_ok {p : Parser} {next : Option Arg} :
    peek p = .ok next p' ↔ p.seen.rest.head? = next ∧ p = p' := by
  show EStateM.Result.ok p.seen.rest.head? p = .ok next p' ↔ _
  rw [EStateM.Result.ok.injEq]

/-! ## Soundness -/

/-- What a successful parse does to the counters. -/
structure Counted (p : Parser) (operators : ℕ) (p' : Parser) : Prop where
  nesting : p'.nesting = p.nesting
  combinators : p'.combinators = p.combinators + operators
  limit : p.combinators ≤ MAX_COMBINATORS → p'.combinators ≤ MAX_COMBINATORS

/-- A parser derives what it returns, within the nesting that is left. -/
def SoundAt (host : Host τ φ) (level : Level) (parse : Parse (Expression τ φ)) : Prop :=
  ∀ p e p', parse p = .ok e p' →
    Derives host level (MAX_NESTING - p.nesting) p.seen e p'.seen ∧ Counted p e.operators p'

/-- One operator and its right side, after a left side that is derived. -/
theorem Counted.step {p₀ p₁ p₃ : Parser} {s : Seen} {a b : ℕ} (h : Counted p₀ a p₁)
    (hlimit : p₁.combinators + 1 ≤ MAX_COMBINATORS)
    (h' : Counted { p₁ with seen := s, combinators := p₁.combinators + 1 } b p₃) :
    Counted p₀ (a + b + 1) p₃ := by
  refine ⟨h'.nesting.trans h.nesting, ?_, fun _ => h'.limit hlimit⟩
  rw [h'.combinators]
  show p₁.combinators + 1 + b = _
  rw [h.combinators]
  omega

section

variable {level low : Level} {values : List Arg}
  {node : Expression τ φ → Expression τ φ → Expression τ φ} {next : Parse (Expression τ φ)}
  (hstep : ∀ {k s s₁ s₂ s' e e'}, Derives host level k s e s₁ → Takes values s₁ s₂ →
    Derives host low k s₂ e' s' → Derives host level k s (node e e') s')
  (hops : ∀ a b, (node a b).operators = a.operators + b.operators + 1)
  (hnext : SoundAt host low next)

include hstep hops hnext

/-- The loop of a level extends a derivation by the operators it reads. -/
theorem chainLoop_sound (n : ℕ) {left e : Expression τ φ} {p₀ p p' : Parser}
    (hleft : Derives host level (MAX_NESTING - p₀.nesting) p₀.seen left p.seen)
    (hcount : Counted p₀ left.operators p)
    (h : chainLoop values node next n left p = .ok e p') :
    Derives host level (MAX_NESTING - p₀.nesting) p₀.seen e p'.seen
      ∧ Counted p₀ e.operators p' := by
  induction n generalizing left p with
  | zero =>
    obtain ⟨rfl, rfl⟩ := pure_ok.mp h
    exact ⟨hleft, hcount⟩
  | succ n ih =>
    obtain ⟨found, p₁, hc, h⟩ := bind_ok.mp h
    rcases consume_ok.mp hc with ⟨rfl, s₁, htakes, rfl⟩ | ⟨rfl, -, rfl⟩
    · obtain ⟨_, p₂, hcombine, h⟩ := bind_ok.mp h
      obtain ⟨right, p₃, hright, hloop⟩ := bind_ok.mp h
      obtain ⟨hlimit, rfl⟩ := combine_ok.mp hcombine
      obtain ⟨hderives, hcount'⟩ := hnext _ _ _ hright
      refine ih (hstep hleft htakes (hcount.nesting ▸ hderives)) ?_ hloop
      rw [hops]
      exact hcount.step hlimit hcount'
    · obtain ⟨rfl, rfl⟩ := pure_ok.mp h
      exact ⟨hleft, hcount⟩

theorem chain_sound (hone : ∀ {k s s' e}, Derives host low k s e s' → Derives host level k s e s') :
    SoundAt host level (chain values node next) := by
  intro p e p' h
  obtain ⟨left, p₁, hleft, h⟩ := bind_ok.mp h
  obtain ⟨q, p₂, hget, h⟩ := bind_ok.mp h
  obtain ⟨rfl, rfl⟩ := get_ok.mp hget
  obtain ⟨hderives, hcount⟩ := hnext _ _ _ hleft
  exact chainLoop_sound hstep hops hnext _ (hone hderives) hcount h

end

section

variable {unary : Parse (Expression τ φ)} (hunary : SoundAt host .unary unary)

include hunary

theorem andLoop_sound (n : ℕ) {left e : Expression τ φ} {p₀ p p' : Parser}
    (hleft : Derives host .and (MAX_NESTING - p₀.nesting) p₀.seen left p.seen)
    (hcount : Counted p₀ left.operators p)
    (h : andLoop unary n left p = .ok e p') :
    Derives host .and (MAX_NESTING - p₀.nesting) p₀.seen e p'.seen
      ∧ Counted p₀ e.operators p' := by
  induction n generalizing left p with
  | zero =>
    obtain ⟨rfl, rfl⟩ := pure_ok.mp h
    exact ⟨hleft, hcount⟩
  | succ n ih =>
    obtain ⟨found, p₁, hc, h⟩ := bind_ok.mp h
    rcases consume_ok.mp hc with ⟨rfl, s₁, htakes, rfl⟩ | ⟨rfl, -, rfl⟩
    · obtain ⟨_, p₂, hcombine, h⟩ := bind_ok.mp h
      obtain ⟨right, p₃, hright, hloop⟩ := bind_ok.mp h
      obtain ⟨hlimit, rfl⟩ := combine_ok.mp hcombine
      obtain ⟨hderives, hcount'⟩ := hunary _ _ _ hright
      exact ih (.and hleft htakes (hcount.nesting ▸ hderives)) (hcount.step hlimit hcount') hloop
    · obtain ⟨following, p₁, hp, h⟩ := bind_ok.mp h
      obtain ⟨rfl, rfl⟩ := peek_ok.mp hp
      rcases ite_ok.mp h with ⟨-, h⟩ | ⟨-, h⟩
      · obtain ⟨rfl, rfl⟩ := pure_ok.mp h
        exact ⟨hleft, hcount⟩
      · obtain ⟨_, p₂, hcombine, h⟩ := bind_ok.mp h
        obtain ⟨right, p₃, hright, hloop⟩ := bind_ok.mp h
        obtain ⟨hlimit, rfl⟩ := combine_ok.mp hcombine
        obtain ⟨hderives, hcount'⟩ := hunary _ _ _ hright
        exact ih (.juxtapose hleft (hcount.nesting ▸ hderives)) (hcount.step hlimit hcount') hloop

theorem and_sound : SoundAt host .and (and unary) := by
  intro p e p' h
  obtain ⟨left, p₁, hleft, h⟩ := bind_ok.mp h
  obtain ⟨q, p₂, hget, h⟩ := bind_ok.mp h
  obtain ⟨rfl, rfl⟩ := get_ok.mp hget
  obtain ⟨hderives, hcount⟩ := hunary _ _ _ hleft
  exact andLoop_sound hunary _ (.oneAnd hderives) hcount h

theorem or_sound : SoundAt host .or (or unary) :=
  chain_sound .or (fun _ _ => rfl) (and_sound hunary) .oneOr

theorem comma_sound : SoundAt host .comma (comma unary) :=
  chain_sound .comma (fun _ _ => rfl) (or_sound hunary) .oneComma

end

theorem operand_sound : SoundAt host .unary (operand host) := by
  intro p e p' h
  unfold operand at h
  cases hr : p.seen.rest with
  | nil =>
    rw [hr] at h
    cases h
  | cons next rest =>
    rw [hr] at h
    simp only [lift] at h
    cases hp : primary host next { p.seen with rest := rest } with
    | error _ _ =>
      rw [hp] at h
      cases h
    | ok _ _ =>
      rw [hp] at h
      cases h
      refine ⟨.primary hr hp, rfl, ?_, id⟩
      rw [(primary_yields _ _ _ _ hp).operators]
      rfl

/-- **Every parser of a negation, a group or a primary derives what it
returns.** The induction is on the recursion. -/
theorem unary_sound (depth : ℕ) : SoundAt host .unary (unary host depth) := by
  induction depth with
  | zero => exact fun p e p' h => (throw_ok.mp h).elim
  | succ depth ih =>
    intro p e p' h
    obtain ⟨found, p₁, hc, h⟩ := bind_ok.mp h
    rcases consume_ok.mp hc with ⟨rfl, s₁, htakes, rfl⟩ | ⟨rfl, -, rfl⟩
    · obtain ⟨_, p₂, hcombine, h⟩ := bind_ok.mp h
      obtain ⟨_, p₃, hnest, h⟩ := bind_ok.mp h
      obtain ⟨inner, p₄, hinner, h⟩ := bind_ok.mp h
      obtain ⟨rfl, rfl⟩ := pure_ok.mp h
      obtain ⟨hlimit, rfl⟩ := combine_ok.mp hcombine
      obtain ⟨hroom, rfl⟩ := nest_ok.mp hnest
      obtain ⟨q, hq, rfl⟩ := unnest_ok.mp hinner
      obtain ⟨hderives, hcount⟩ := ih _ _ _ hq
      have hk : MAX_NESTING - p.nesting = MAX_NESTING - (p.nesting + 1) + 1 := by
        have : p.nesting + 1 ≤ MAX_NESTING := hroom
        omega
      refine ⟨hk ▸ .not htakes hderives, ?_, ?_, fun _ => hcount.limit hlimit⟩
      · show q.nesting - 1 = p.nesting
        rw [hcount.nesting]
        rfl
      · show q.combinators = p.combinators + (inner.operators + 1)
        rw [hcount.combinators]
        show p.combinators + 1 + inner.operators = _
        omega
    · obtain ⟨found, p₁, hc, h⟩ := bind_ok.mp h
      rcases consume_ok.mp hc with ⟨rfl, s₁, htakes, rfl⟩ | ⟨rfl, -, rfl⟩
      · obtain ⟨_, p₃, hnest, h⟩ := bind_ok.mp h
        obtain ⟨inner, p₄, hinner, h⟩ := bind_ok.mp h
        obtain ⟨hroom, rfl⟩ := nest_ok.mp hnest
        obtain ⟨q, hq, rfl⟩ := unnest_ok.mp hinner
        obtain ⟨hderives, hcount⟩ := comma_sound ih _ _ _ hq
        obtain ⟨found, p₅, hc, h⟩ := bind_ok.mp h
        rcases consume_ok.mp hc with ⟨rfl, s₂, htakes', rfl⟩ | ⟨rfl, -, rfl⟩
        · obtain ⟨rfl, rfl⟩ := pure_ok.mp h
          have hk : MAX_NESTING - p.nesting = MAX_NESTING - (p.nesting + 1) + 1 := by
            have : p.nesting + 1 ≤ MAX_NESTING := hroom
            omega
          refine ⟨hk ▸ .group htakes hderives htakes', ?_, hcount.combinators, hcount.limit⟩
          show q.nesting - 1 = p.nesting
          rw [hcount.nesting]
          rfl
        · obtain ⟨_, _, _, h⟩ := bind_ok.mp h
          exact (throw_ok.mp h).elim
      · exact operand_sound _ _ _ h

/-! ## Completeness -/

/-- A parser puts no argument back. -/
def Shrinks (parse : Parse (Expression τ φ)) : Prop :=
  ∀ p e p', parse p = .ok e p' → p'.seen.rest.length ≤ p.seen.rest.length

theorem SoundAt.shrinks {level : Level} {parse : Parse (Expression τ φ)}
    (h : SoundAt host level parse) : Shrinks parse :=
  fun p e p' hp => (h p e p' hp).1.length_lt.le

/-- The loop of a level needs no more rounds than there are arguments. -/
theorem chainLoop_rounds {node : Expression τ φ → Expression τ φ → Expression τ φ}
    {next : Parse (Expression τ φ)} (hnext : Shrinks next) {n m : ℕ} {left : Expression τ φ}
    (hn : p.seen.rest.length < n) (hm : p.seen.rest.length < m) :
    chainLoop values node next n left p = chainLoop values node next m left p := by
  induction n generalizing m left p with
  | zero => exact absurd hn (not_lt_zero)
  | succ n ih =>
    obtain ⟨m, rfl⟩ := Nat.exists_eq_add_of_lt (Nat.zero_lt_of_lt hm)
    refine bind_congr fun found p₁ hc => ?_
    rcases consume_ok.mp hc with ⟨rfl, s₁, htakes, rfl⟩ | ⟨rfl, -, rfl⟩
    · refine bind_congr fun _ p₂ hcombine => bind_congr fun right p₃ hright => ?_
      obtain ⟨-, rfl⟩ := combine_ok.mp hcombine
      have hlen := htakes.length
      have hle : p₃.seen.rest.length ≤ s₁.rest.length := hnext _ _ _ hright
      exact ih (by omega) (by omega)
    · rfl

theorem andLoop_rounds {unary : Parse (Expression τ φ)} (hunary : SoundAt host .unary unary)
    {n m : ℕ} {left : Expression τ φ} (hn : p.seen.rest.length < n) (hm : p.seen.rest.length < m) :
    andLoop unary n left p = andLoop unary m left p := by
  induction n generalizing m left p with
  | zero => exact absurd hn (not_lt_zero)
  | succ n ih =>
    obtain ⟨m, rfl⟩ := Nat.exists_eq_add_of_lt (Nat.zero_lt_of_lt hm)
    refine bind_congr fun found p₁ hc => ?_
    rcases consume_ok.mp hc with ⟨rfl, s₁, htakes, rfl⟩ | ⟨rfl, -, rfl⟩
    · refine bind_congr fun _ p₂ hcombine => bind_congr fun right p₃ hright => ?_
      obtain ⟨-, rfl⟩ := combine_ok.mp hcombine
      have hlen := htakes.length
      have hlt : p₃.seen.rest.length < s₁.rest.length := (hunary _ _ _ hright).1.length_lt
      exact ih (by omega) (by omega)
    · refine bind_congr fun following p₁ hp => ?_
      obtain ⟨rfl, rfl⟩ := peek_ok.mp hp
      refine Stateful.ite_congr rfl ?_
      refine bind_congr fun _ p₂ hcombine => bind_congr fun right p₃ hright => ?_
      obtain ⟨-, rfl⟩ := combine_ok.mp hcombine
      have hlt : p₃.seen.rest.length < p.seen.rest.length := (hunary _ _ _ hright).1.length_lt
      exact ih (by omega) (by omega)

/-- The loop of a level ends before a word that is none of its operators. -/
theorem chainLoop_ends {node : Expression τ φ → Expression τ φ → Expression τ φ}
    {next : Parse (Expression τ φ)} (n : ℕ) {left : Expression τ φ}
    (h : ∀ next ∈ p.seen.rest.head?, next ∉ values) :
    chainLoop values node next (n + 1) left p = .ok left p :=
  bind_of_ok (consume_leaves h)

variable {next : Option Arg}

theorem not_mem_of_endsAnd (h : endsAnd next = true) :
    ∀ arg ∈ next, arg ∉ [word "-a", word "-and"] := by
  rintro arg rfl
  simp only [endsAnd, decide_eq_true_eq, mem_cons, not_mem_nil, or_false] at h
  rcases h with rfl | rfl | rfl | rfl <;> decide

theorem andLoop_ends {unary : Parse (Expression τ φ)} (n : ℕ) {left : Expression τ φ}
    (h : endsAnd p.seen.rest.head? = true) : andLoop unary (n + 1) left p = .ok left p := by
  refine (bind_of_ok (consume_leaves (not_mem_of_endsAnd h))).trans ?_
  refine (bind_of_ok (peek_ok.mpr ⟨rfl, rfl⟩)).trans ?_
  rw [h]
  rfl

/-- Where an OR ends, and with it every AND. -/
def endsOr (next : Option Arg) : Bool :=
  match next with
  | none => true
  | some arg => arg ∈ [word ")", word ","]

theorem endsAnd_of_endsOr (h : endsOr next = true) : endsAnd next = true := by
  cases next with
  | none => rfl
  | some arg =>
    simp only [endsOr, decide_eq_true_eq, mem_cons, not_mem_nil, or_false] at h
    rcases h with rfl | rfl <;> decide

theorem not_or_of_endsOr (h : endsOr next = true) :
    ∀ arg ∈ next, arg ∉ [word "-o", word "-or"] := by
  rintro arg rfl
  simp only [endsOr, decide_eq_true_eq, mem_cons, not_mem_nil, or_false] at h
  rcases h with rfl | rfl <;> decide

/-- The parser of a level, run on a derivation of it, stands at the loop of
that level with the tree that is derived. -/
def CompleteAt (host : Host τ φ) (level : Level) (k : ℕ) (s : Seen) (e : Expression τ φ)
    (s' : Seen) : Prop :=
  ∀ depth c n, k < depth → n + k ≤ MAX_NESTING → c + e.operators ≤ MAX_COMBINATORS →
    let p : Parser := { seen := s, combinators := c, nesting := n }
    let p' : Parser := { seen := s', combinators := c + e.operators, nesting := n }
    match level with
    | .unary => unary host depth p = .ok e p'
    | .and => and (unary host depth) p = andLoop (unary host depth) (s'.rest.length + 1) e p'
    | .or => endsAnd s'.rest.head? = true → or (unary host depth) p
        = chainLoop [word "-o", word "-or"] .or (and (unary host depth)) (s'.rest.length + 1) e p'
    | .comma => endsOr s'.rest.head? = true → comma (unary host depth) p
        = chainLoop [word ","] .comma (or (unary host depth)) (s'.rest.length + 1) e p'

theorem Takes.head? {s : Seen} (h : Takes values s s') :
    ∃ next ∈ values, s.rest.head? = some next := by
  obtain ⟨next, hmem, rest, hrest, -⟩ := h
  exact ⟨next, hmem, by rw [hrest]; rfl⟩

theorem and_ends {k : ℕ} {s : Seen} {e : Expression τ φ} {depth c n : ℕ}
    (h : CompleteAt host .and k s e s') (hk : k < depth) (hn : n + k ≤ MAX_NESTING)
    (hc : c + e.operators ≤ MAX_COMBINATORS) (hend : endsAnd s'.rest.head? = true) :
    and (unary host depth) { seen := s, combinators := c, nesting := n }
      = .ok e { seen := s', combinators := c + e.operators, nesting := n } :=
  (h depth c n hk hn hc).trans (andLoop_ends _ hend)

theorem or_ends {k : ℕ} {s : Seen} {e : Expression τ φ} {depth c n : ℕ}
    (h : CompleteAt host .or k s e s') (hk : k < depth) (hn : n + k ≤ MAX_NESTING)
    (hc : c + e.operators ≤ MAX_COMBINATORS) (hend : endsOr s'.rest.head? = true) :
    or (unary host depth) { seen := s, combinators := c, nesting := n }
      = .ok e { seen := s', combinators := c + e.operators, nesting := n } :=
  (h depth c n hk hn hc (endsAnd_of_endsOr hend)).trans (chainLoop_ends _ (not_or_of_endsOr hend))

/-- One round of the loop of a level, over an operator and its right side. -/
theorem chainLoop_round
    {node : Expression τ φ → Expression τ φ → Expression τ φ} {next : Parse (Expression τ φ)}
    (hnext : Shrinks next) {e e' : Expression τ φ} {c n : ℕ}
    (htakes : Takes values s₁ s₂) (hlimit : c + 1 ≤ MAX_COMBINATORS)
    (hright : next { seen := s₂, combinators := c + 1, nesting := n }
      = .ok e' { seen := s', combinators := c + 1 + e'.operators, nesting := n }) :
    chainLoop values node next (s₁.rest.length + 1) e { seen := s₁, combinators := c, nesting := n }
      = chainLoop values node next (s'.rest.length + 1) (node e e')
          { seen := s', combinators := c + 1 + e'.operators, nesting := n } := by
  have hlen := htakes.length
  have hle : s'.rest.length ≤ s₂.rest.length := hnext _ _ _ hright
  refine (bind_of_ok (consume_takes htakes)).trans ?_
  refine (bind_of_ok (combine_run hlimit)).trans ?_
  refine (bind_of_ok hright).trans ?_
  exact chainLoop_rounds hnext (show s'.rest.length < s₁.rest.length by omega) (Nat.lt_succ_self _)

/-- A round of an AND, with or without its operator. -/
theorem andLoop_round {unary : Parse (Expression τ φ)} (hunary : SoundAt host .unary unary)
    {e e' : Expression τ φ} {c n : ℕ} (htakes : Takes [word "-a", word "-and"] s₁ s₂
      ∨ (s₁ = s₂ ∧ (∀ next ∈ s₁.rest.head?, next ∉ [word "-a", word "-and"])
          ∧ endsAnd s₁.rest.head? = false)) (hlimit : c + 1 ≤ MAX_COMBINATORS)
    (hright : unary { seen := s₂, combinators := c + 1, nesting := n }
      = .ok e' { seen := s', combinators := c + 1 + e'.operators, nesting := n }) :
    andLoop unary (s₁.rest.length + 1) e { seen := s₁, combinators := c, nesting := n }
      = andLoop unary (s'.rest.length + 1) (.and e e')
          { seen := s', combinators := c + 1 + e'.operators, nesting := n } := by
  have hlt : s'.rest.length < s₂.rest.length := (hunary _ _ _ hright).1.length_lt
  rcases htakes with htakes | ⟨rfl, hleaves, hgoes⟩
  · have hlen := htakes.length
    refine (bind_of_ok (consume_takes htakes)).trans ?_
    refine (bind_of_ok (combine_run hlimit)).trans ?_
    refine (bind_of_ok hright).trans ?_
    exact andLoop_rounds hunary (show s'.rest.length < s₁.rest.length by omega) (Nat.lt_succ_self _)
  · refine (bind_of_ok (consume_leaves hleaves)).trans ?_
    refine (bind_of_ok (peek_ok.mpr ⟨rfl, rfl⟩)).trans ?_
    rw [hgoes]
    refine (bind_of_ok (combine_run hlimit)).trans ?_
    refine (bind_of_ok hright).trans ?_
    exact andLoop_rounds hunary hlt (Nat.lt_succ_self _)

/-- A group holds a comma expression, which a closing parenthesis ends. -/
theorem group_run {k : ℕ} {s : Seen} {e : Expression τ φ}
    (htakes : Takes [word "("] s s₁) (h : CompleteAt host .comma k s₁ e s₂)
    (hclose : Takes [word ")"] s₂ s') : CompleteAt host .unary (k + 1) s e s' := by
  intro depth c n hk hn hc
  obtain ⟨depth, rfl⟩ := Nat.exists_eq_add_of_lt hk
  have hnot : ∀ next ∈ s.rest.head?, next ∉ [word "!", word "-not"] := by
    obtain ⟨next, hmem, hhead⟩ := htakes.head?
    rw [mem_singleton] at hmem
    rw [hhead, hmem]
    rintro _ ⟨⟩
    decide
  obtain ⟨next, hmem, hhead⟩ := hclose.head?
  rw [mem_singleton] at hmem
  subst hmem
  have hinner := h (k + 1 + depth) c (n + 1) (by omega) (by omega) hc (by rw [hhead]; decide)
  have hloop := hinner.trans (chainLoop_ends _ (by
    show ∀ next ∈ s₂.rest.head?, next ∉ [word ","]
    rw [hhead]
    rintro _ ⟨⟩
    decide))
  refine (bind_of_ok (consume_leaves hnot)).trans ?_
  refine (bind_of_ok (consume_takes htakes)).trans ?_
  refine (bind_of_ok (nest_run (show n + 1 ≤ MAX_NESTING by omega))).trans ?_
  refine (bind_of_ok (unnest_ok.mpr ⟨_, hloop, rfl⟩)).trans ?_
  exact bind_of_ok (consume_takes hclose)

theorem not_run {k : ℕ} {s : Seen} {e : Expression τ φ}
    (htakes : Takes [word "!", word "-not"] s s₁) (h : CompleteAt host .unary k s₁ e s') :
    CompleteAt host .unary (k + 1) s (.not e) s' := by
  intro depth c n hk hn hc
  obtain ⟨depth, rfl⟩ := Nat.exists_eq_add_of_lt hk
  have hops : c + (e.operators + 1) ≤ MAX_COMBINATORS := hc
  have hinner := h (k + 1 + depth) (c + 1) (n + 1) (by omega) (by omega) (by omega)
  refine (bind_of_ok (consume_takes htakes)).trans ?_
  refine (bind_of_ok (combine_run (show c + 1 ≤ MAX_COMBINATORS by omega))).trans ?_
  refine (bind_of_ok (nest_run (show n + 1 ≤ MAX_NESTING by omega))).trans ?_
  refine (bind_of_ok (unnest_ok.mpr ⟨_, hinner, rfl⟩)).trans ?_
  show EStateM.Result.ok (Expression.not e) _ = .ok _ _
  congr 2
  show c + 1 + e.operators = c + (e.operators + 1)
  omega

theorem primary_run {k : ℕ} {s : Seen} {p : Arg} {rest : List Arg} {e : Expression τ φ}
    (hrest : s.rest = p :: rest) (hp : primary host p { s with rest := rest } = .ok e s') :
    CompleteAt host .unary k s e s' := by
  intro depth c n hk hn hc
  obtain ⟨depth, rfl⟩ := Nat.exists_eq_add_of_lt hk
  have hno : ∀ p' ∈ operatorWords, p ≠ p' := fun p' hp' heq =>
    primary_operator hp' _ _ _ (heq ▸ hp)
  have hnot : ∀ next ∈ s.rest.head?, next ∉ [word "!", word "-not"] := by
    rw [hrest]
    rintro _ ⟨⟩ hmem
    simp only [mem_cons, not_mem_nil, or_false] at hmem
    rcases hmem with rfl | rfl <;> exact hno _ (by decide) rfl
  have hopen : ∀ next ∈ s.rest.head?, next ∉ [word "("] := by
    rw [hrest]
    rintro _ ⟨⟩ hmem
    exact hno _ (by decide) (mem_singleton.mp hmem)
  refine (bind_of_ok (consume_leaves hnot)).trans ?_
  refine (bind_of_ok (consume_leaves hopen)).trans ?_
  have hops := (primary_yields _ _ _ _ hp).operators
  show operand host _ = _
  simp only [operand, hrest, lift, hp, hops, add_zero]

/-- **Every derivation is found.** The induction is on the derivation: a
left-recursive production is one more round of the loop of its level. -/
theorem complete {level : Level} {k : ℕ} {s : Seen} {e : Expression τ φ}
    (h : Derives host level k s e s') : CompleteAt host level k s e s' := by
  induction h with
  | primary hrest hp => exact primary_run hrest hp
  | not ht _ ih => exact not_run ht ih
  | group ht _ ht' ih => exact group_run ht ih ht'
  | oneAnd _ ih =>
    intro depth c n hk hn hc
    refine (bind_of_ok (ih depth c n hk hn hc)).trans ?_
    exact bind_of_ok (get_ok.mpr ⟨rfl, rfl⟩)
  | @and k s s₁ s₂ s' e e' _ ht _ ih ih' =>
    intro depth c n hk hn hc
    have hops : c + (e.operators + e'.operators + 1) ≤ MAX_COMBINATORS := hc
    have hright := ih' depth (c + e.operators + 1) n hk hn (by omega)
    refine (ih depth c n hk hn (by omega)).trans ?_
    refine (andLoop_round (unary_sound depth) (.inl ht) (by omega) hright).trans ?_
    congr 2
    show c + e.operators + 1 + e'.operators = c + (e.operators + e'.operators + 1)
    omega
  | @juxtapose k s s₁ s' e e' _ h' ih ih' =>
    intro depth c n hk hn hc
    have hops : c + (e.operators + e'.operators + 1) ≤ MAX_COMBINATORS := hc
    have hright := ih' depth (c + e.operators + 1) n hk hn (by omega)
    obtain ⟨next, rest, hrest, hno, hgoes⟩ := h'.starts
    refine (ih depth c n hk hn (by omega)).trans ?_
    refine (andLoop_round (unary_sound depth) (.inr ⟨rfl, ?_, ?_⟩) (by omega) hright).trans ?_
    · rw [hrest]
      rintro _ ⟨⟩
      exact hno
    · rw [hrest]
      exact hgoes
    · congr 2
      show c + e.operators + 1 + e'.operators = c + (e.operators + e'.operators + 1)
      omega
  | oneOr _ ih =>
    intro depth c n hk hn hc _ _ hend
    refine (bind_of_ok (and_ends ih hk hn hc hend)).trans ?_
    exact bind_of_ok (get_ok.mpr ⟨rfl, rfl⟩)
  | @or k s s₁ s₂ s' e e' _ ht _ ih ih' =>
    intro depth c n hk hn hc _ _ hend
    have hops : c + (e.operators + e'.operators + 1) ≤ MAX_COMBINATORS := hc
    have hright := and_ends (c := c + e.operators + 1) ih' hk hn (by omega) hend
    obtain ⟨next, hmem, hhead⟩ := ht.head?
    have hleft : endsAnd s₁.rest.head? = true := by
      simp only [mem_cons, not_mem_nil, or_false] at hmem
      rw [hhead]
      rcases hmem with rfl | rfl <;> decide
    refine (ih depth c n hk hn (by omega) hleft).trans ?_
    refine (chainLoop_round (and_sound (unary_sound depth)).shrinks ht (by omega) hright).trans ?_
    congr 2
    show c + e.operators + 1 + e'.operators = c + (e.operators + e'.operators + 1)
    omega
  | oneComma _ ih =>
    intro depth c n hk hn hc _ _ hend
    refine (bind_of_ok (or_ends ih hk hn hc hend)).trans ?_
    exact bind_of_ok (get_ok.mpr ⟨rfl, rfl⟩)
  | @comma k s s₁ s₂ s' e e' _ ht _ ih ih' =>
    intro depth c n hk hn hc _ _ hend
    have hops : c + (e.operators + e'.operators + 1) ≤ MAX_COMBINATORS := hc
    have hright := or_ends (c := c + e.operators + 1) ih' hk hn (by omega) hend
    obtain ⟨next, hmem, hhead⟩ := ht.head?
    have hleft : endsOr s₁.rest.head? = true := by
      rw [mem_singleton] at hmem
      rw [hhead, hmem]
      decide
    refine (ih depth c n hk hn (by omega) hleft).trans ?_
    refine (chainLoop_round (or_sound (unary_sound depth)).shrinks ht (by omega) hright).trans ?_
    congr 2
    show c + e.operators + 1 + e'.operators = c + (e.operators + e'.operators + 1)
    omega

end Ferret.Find
