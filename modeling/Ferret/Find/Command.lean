import Ferret.Find.Grammar

/-!
# Whole find commands

A command is accepted exactly when the grammar derives its expression within
the two limits, and its tree is the one the grammar assigns, wrapped in an
implicit print unless an explicit action occurs in it. Two things a plan asks
for are no matter of syntax: a deletion that prunes wants its `-depth`
spelled out, and a plan that reads the local zone wants one that is known.

A request for help or for the version is answered where it stands. Nothing
after it is read and nothing before it need be complete, so a command that
holds one is accepted whatever the grammar says.
-/

namespace Ferret.Find

open Stateful

variable {τ φ : Type} {host : Host τ φ}

/-- The tree of the arguments after the start paths: true when there are none,
and else what the grammar derives from all of them. -/
def Tree (host : Host τ φ) (s : Seen) (e : Expression τ φ) (s' : Seen) : Prop :=
  (s.rest = [] ∧ e = .constant true ∧ s' = s)
    ∨ (s.rest ≠ [] ∧ Derives host .comma MAX_NESTING s e s' ∧ s'.rest = []
        ∧ e.operators ≤ MAX_COMBINATORS)

/-- The plan of a tree. -/
def planOf (no_ignore : Bool) (starts : List Arg) (e : Expression τ φ) (s : Seen) : Plan τ φ where
  local_time := s.local_time
  expression := if e.explicit then e else .and e (.print false)
  paths := starts
  options := { s.options with retain_parent := s.delete, delete := s.delete }
  no_ignore := no_ignore
  unsupported := s.unsupported
  warnings := s.warnings
  message := s.message
  permission_warning := s.permission_warning

/-- **What a command without a message means.** -/
def Means (host : Host τ φ) (args : List Arg) (plan : Plan τ φ) : Prop :=
  ∃ no_ignore s starts s₁ e s₂,
    leading_options args false (Seen.new args) = .ok no_ignore s
      ∧ paths s = .ok starts s₁
      ∧ Tree host s₁ e s₂
      ∧ s₂.message = none
      ∧ ¬ (s₂.delete = true ∧ s₂.prune = true ∧ s₂.explicit_depth = false)
      ∧ plan = planOf no_ignore starts e s₂
      ∧ (plan.needs_local_time host = true → host.zone = none)

/-! ## What the arguments before the expression leave -/

variable {s s' : Seen} {starts args : List Arg} {e : Expression τ φ} {depth n : ℕ} {plan : Plan τ φ}

theorem debug_action {value : Arg} {u : Unit} (h : debug value s = .ok u s') :
    s'.action = s.action := by
  unfold debug at h
  rcases ite_ok.mp h with ⟨-, h⟩ | ⟨-, h⟩
  · obtain ⟨_, s₁, h₁, h₂⟩ := bind_ok.mp h
    obtain rfl := modify_ok.mp h₁
    obtain rfl := modify_ok.mp h₂
    rfl
  · obtain rfl := modify_ok.mp h
    rfl

/-- No leading option is an action. The induction is on the number of
arguments, since `-D` takes two. -/
theorem leading_options_action (n : ℕ) : ∀ {args : List Arg} {no_ignore found : Bool} {s s' : Seen},
    args.length ≤ n → leading_options args no_ignore s = .ok found s' →
    s'.action = s.action := by
  induction n with
  | zero =>
    intro args no_ignore found s s' hlen h
    obtain rfl := List.length_eq_zero_iff.mp (Nat.le_zero.mp hlen)
    obtain ⟨_, s₁, h₁, h₂⟩ := bind_ok.mp h
    obtain rfl := modify_ok.mp h₁
    obtain ⟨-, rfl⟩ := pure_ok.mp h₂
    rfl
  | succ n ih =>
    intro args no_ignore found s s' hlen h
    cases args with
    | nil =>
      obtain ⟨_, s₁, h₁, h₂⟩ := bind_ok.mp h
      obtain rfl := modify_ok.mp h₁
      obtain ⟨-, rfl⟩ := pure_ok.mp h₂
      rfl
    | cons arg rest =>
      have hrest : rest.length ≤ n := Nat.le_of_succ_le_succ hlen
      unfold leading_options at h
      obtain ⟨_, s₁, h₁, h⟩ := bind_ok.mp h
      obtain rfl := modify_ok.mp h₁
      -- a changed option, then the arguments after it
      have hset : ∀ {f : Seen → Seen} {b : Bool} {s₁ : Seen},
          ((modify f : Read PUnit) >>= fun _ => leading_options rest b) s₁ = .ok found s' →
          (∀ s, (f s).action = s.action) → s₁.action = s.action → s'.action = s.action := by
        intro f b s₁ h hf hs
        obtain ⟨_, s₂, h₁, h₂⟩ := bind_ok.mp h
        obtain rfl := modify_ok.mp h₁
        exact (ih hrest h₂).trans ((hf _).trans hs)
      rcases ite_ok.mp h with ⟨-, h⟩ | ⟨-, h⟩
      · exact (ih hrest h).trans rfl
      rcases ite_ok.mp h with ⟨-, h⟩ | ⟨-, h⟩
      · exact hset h (fun _ => rfl) rfl
      rcases ite_ok.mp h with ⟨-, h⟩ | ⟨-, h⟩
      · exact hset h (fun _ => rfl) rfl
      rcases ite_ok.mp h with ⟨-, h⟩ | ⟨-, h⟩
      · exact hset h (fun _ => rfl) rfl
      rcases ite_ok.mp h with ⟨-, h⟩ | ⟨-, h⟩
      · exact (ih hrest h).trans rfl
      rcases ite_ok.mp h with ⟨-, h⟩ | ⟨-, h⟩
      · cases rest with
        | nil =>
          obtain ⟨_, _, _, h⟩ := bind_ok.mp h
          exact (throw_ok.mp h).elim
        | cons value rest' =>
          have hrest' : rest'.length ≤ n := (Nat.le_succ _).trans hrest
          rcases ite_ok.mp h with ⟨-, h⟩ | ⟨-, h⟩
          · obtain ⟨_, _, h, -⟩ := bind_ok.mp h
            exact (throw_ok.mp h).elim
          · obtain ⟨_, s₂, h₁, h₂⟩ := bind_ok.mp h
            exact (ih hrest' h₂).trans ((debug_action h₁).trans rfl)
      rcases ite_ok.mp h with ⟨-, h⟩ | ⟨-, h⟩
      · rcases ite_ok.mp h with ⟨-, h⟩ | ⟨-, h⟩
        · obtain ⟨_, _, h, -⟩ := bind_ok.mp h
          exact (throw_ok.mp h).elim
        · exact (ih hrest h).trans rfl
      · obtain ⟨-, rfl⟩ := pure_ok.mp h
        rfl

theorem paths_ok (h : paths s = .ok starts s') : s'.action = s.action ∧ s'.message = s.message := by
  obtain ⟨s₀, s₁, h₁, h⟩ := bind_ok.mp h
  obtain ⟨rfl, rfl⟩ := get_ok.mp h₁
  obtain ⟨_, s₂, h₁, h⟩ := bind_ok.mp h
  obtain rfl := set_ok.mp h₁
  obtain ⟨-, rfl⟩ := pure_ok.mp h
  exact ⟨rfl, rfl⟩

/-! ## The expression -/

theorem Takes.message {values : List Arg} (h : Takes values s s') : s'.message = s.message := by
  obtain ⟨next, -, rest, -, rfl⟩ := h
  rfl

/-- A message stays. -/
theorem Derives.message {level : Level} {k : ℕ}
    (h : Derives host level k s e s') (hs : s.message.isSome) : s'.message.isSome := by
  induction h with
  | primary hrest hp => exact (primary_yields _ _ _ _ hp).message hs
  | not ht _ ih => exact ih (ht.message ▸ hs)
  | group ht _ ht' ih =>
    rw [ht'.message]
    exact ih (ht.message ▸ hs)
  | oneAnd _ ih => exact ih hs
  | and _ ht _ ih ih' => exact ih' (ht.message ▸ ih hs)
  | juxtapose _ _ ih ih' => exact ih' (ih hs)
  | oneOr _ ih => exact ih hs
  | or _ ht _ ih ih' => exact ih' (ht.message ▸ ih hs)
  | oneComma _ ih => exact ih hs
  | comma _ ht _ ih ih' => exact ih' (ht.message ▸ ih hs)

/-- The parser finds every derivation that reads all the arguments. -/
theorem comma_complete (hdepth : MAX_NESTING < depth)
    (h : Derives host .comma MAX_NESTING s e s') (hrest : s'.rest = [])
    (hops : e.operators ≤ MAX_COMBINATORS) :
    comma (unary host depth) { seen := s, combinators := 0, nesting := 0 }
      = .ok e { seen := s', combinators := 0 + e.operators, nesting := 0 } := by
  have hrun := (complete h) depth 0 0 hdepth (le_of_eq (zero_add _))
    ((Nat.zero_add _).symm ▸ hops) (by rw [hrest]; rfl)
  refine hrun.trans (chainLoop_ends _ ?_)
  show ∀ next ∈ s'.rest.head?, next ∉ [word ","]
  rw [hrest]
  rintro _ ⟨⟩

/-- **The parser returns the grammar's tree**, unless it returns a message. -/
theorem expressionAt_iff (hdepth : MAX_NESTING < depth) :
    (expressionAt host depth s = .ok (e, s') ∧ s'.message = none ∧ s'.rest = [])
      ↔ Tree host s e s' ∧ s'.message = none := by
  unfold expressionAt
  have hfirst : ∀ {e : Expression τ φ} {s₁ : Seen}, s₁.message.isSome →
      (Except.ok (.constant true, { s₁ with rest := [] })
        : Except ParseError (Expression τ φ × Seen)) = .ok (e, s') → s'.message = none → False := by
    intro e s₁ hsome h hnone
    cases h
    rw [show s₁.message = none from hnone] at hsome
    cases hsome
  constructor
  · rintro ⟨h, hmessage, hrest⟩
    by_cases hempty : s.rest = []
    · rw [if_pos (Or.inl hempty)] at h
      cases h
      exact ⟨.inl ⟨hempty, rfl, by rw [← hempty]⟩, hmessage⟩
    by_cases hsome : s.message.isSome
    · rw [if_pos (Or.inr hsome)] at h
      exact (hfirst hsome h hmessage).elim
    rw [if_neg (by simp only [hempty, hsome]; decide)] at h
    refine ⟨.inr ⟨hempty, ?_⟩, hmessage⟩
    cases hp : comma (unary host depth) { seen := s, combinators := 0, nesting := 0 } with
    | error err p =>
      rw [hp] at h
      dsimp only at h
      split at h
      · rename_i hs
        exact (hfirst hs h hmessage).elim
      · cases h
    | ok e₁ p =>
      rw [hp] at h
      dsimp only at h
      split at h
      · rename_i hs
        exact (hfirst hs h hmessage).elim
      · cases h
        obtain ⟨hderives, hcount⟩ := comma_sound (unary_sound depth) _ _ _ hp
        have hops := hcount.combinators
        have hlimit := hcount.limit (Nat.zero_le _)
        rw [hops] at hlimit
        exact ⟨hderives, hrest, (zero_add e.operators) ▸ hlimit⟩
  · rintro ⟨⟨hempty, rfl, rfl⟩ | ⟨hne, hderives, hrest, hops⟩, hmessage⟩
    · refine ⟨?_, hmessage, hempty⟩
      rw [if_pos (Or.inl hempty), ← hempty]
    · have hnone : ¬ s.message.isSome := fun hs => by
        have := hderives.message hs
        rw [hmessage] at this
        cases this
      rw [if_neg (by simp only [hne, hnone]; decide), comma_complete hdepth hderives hrest hops]
      refine ⟨?_, hmessage, hrest⟩
      dsimp only
      rw [hmessage]
      rfl

/-- What the parser makes of a tree that has read everything. -/
theorem finish_iff {no_ignore : Bool} (haction : s.action = e.explicit) :
    finish host no_ignore starts s e = .ok plan
      ↔ s.rest = [] ∧ ¬ (s.delete = true ∧ s.prune = true ∧ s.explicit_depth = false)
        ∧ plan = planOf no_ignore starts e s
        ∧ (plan.needs_local_time host = true → host.zone = none) := by
  unfold finish
  by_cases hrest : s.rest = []
  swap
  · simp [hrest]
  rw [if_neg (not_not.mpr hrest)]
  by_cases hdelete : s.delete = true ∧ s.prune = true ∧ s.explicit_depth = false
  · have : s.delete = true ∧ s.prune = true ∧ ¬ s.explicit_depth = true := by
      simpa using hdelete
    simp [hdelete]
  have hok : ¬ (s.delete = true ∧ s.prune = true ∧ ¬ s.explicit_depth = true) := by
    simpa using hdelete
  simp only [hok, if_false, haction]
  split
  · rename_i message hl hz
    simp only [reduceCtorEq, false_iff]
    rintro ⟨-, -, rfl, h⟩
    rw [hz] at h
    cases h hl
  · rename_i hzone
    constructor
    · intro h
      cases h
      refine ⟨hrest, hdelete, rfl, fun hl => ?_⟩
      cases hz : host.zone with
      | none => rfl
      | some message => exact (hzone message hl hz).elim
    · rintro ⟨-, -, rfl, -⟩
      rfl

/-! ## The recursion the nesting allows -/

/-- Two parsers that agree wherever the nesting is `n`. -/
def AgreeAt (n : ℕ) (parse parse' : Parse (Expression τ φ)) : Prop :=
  ∀ p, p.nesting = n → parse p = parse' p

/-- A parser that leaves the nesting as it was. -/
def Level.Keeps (parse : Parse (Expression τ φ)) : Prop :=
  ∀ p e p', parse p = .ok e p' → p'.nesting = p.nesting

theorem SoundAt.keeps {level : Level} {parse : Parse (Expression τ φ)}
    (h : SoundAt host level parse) : Level.Keeps parse :=
  fun p e p' hp => (h p e p' hp).2.nesting

section

variable {n : ℕ} {values : List Arg}
  {node : Expression τ φ → Expression τ φ → Expression τ φ}
  {next next' : Parse (Expression τ φ)} (hagree : AgreeAt n next next') (hkeeps : Level.Keeps next)

include hagree hkeeps

theorem chainLoop_agree (rounds : ℕ) (left : Expression τ φ) :
    AgreeAt n (chainLoop values node next rounds left) (chainLoop values node next' rounds left) := by
  induction rounds generalizing left with
  | zero => exact fun _ _ => rfl
  | succ rounds ih =>
    intro p hp
    refine bind_congr fun found p₁ hc => ?_
    rcases consume_ok.mp hc with ⟨rfl, s₁, -, rfl⟩ | ⟨rfl, -, rfl⟩
    · refine bind_congr fun _ p₂ hcombine => ?_
      obtain ⟨-, rfl⟩ := combine_ok.mp hcombine
      refine bind_agree (hagree _ hp) fun right p₃ hright => ih _ p₃ ?_
      exact (hkeeps _ _ _ hright).trans hp
    · rfl

theorem chain_agree : AgreeAt n (chain values node next) (chain values node next') := by
  intro p hp
  refine bind_agree (hagree p hp) fun left q hleft => bind_congr fun _ q' hget => ?_
  obtain ⟨rfl, rfl⟩ := get_ok.mp hget
  exact chainLoop_agree hagree hkeeps _ left q ((hkeeps _ _ _ hleft).trans hp)

end

section

variable {n : ℕ} {unary unary' : Parse (Expression τ φ)} (hagree : AgreeAt n unary unary')
  (hunary : SoundAt host .unary unary)

include hagree hunary

theorem andLoop_agree (rounds : ℕ) (left : Expression τ φ) :
    AgreeAt n (andLoop unary rounds left) (andLoop unary' rounds left) := by
  induction rounds generalizing left with
  | zero => exact fun _ _ => rfl
  | succ rounds ih =>
    -- one more operand, at whatever the operator left
    have hmore : ∀ q : Parser, q.nesting = n →
        (unary >>= fun right => andLoop unary rounds (.and left right)) q
          = (unary' >>= fun right => andLoop unary' rounds (.and left right)) q := by
      intro q hq
      exact bind_agree (hagree q hq) fun right q' hright =>
        ih _ q' ((hunary.keeps _ _ _ hright).trans hq)
    intro p hp
    refine bind_congr fun found p₁ hc => ?_
    rcases consume_ok.mp hc with ⟨rfl, s₁, -, rfl⟩ | ⟨rfl, -, rfl⟩
    · refine bind_congr fun _ p₂ hcombine => ?_
      obtain ⟨-, rfl⟩ := combine_ok.mp hcombine
      exact hmore _ hp
    · refine bind_congr fun following p₁ hpeek => ?_
      obtain ⟨rfl, rfl⟩ := peek_ok.mp hpeek
      refine Stateful.ite_congr rfl (bind_congr fun _ p₂ hcombine => ?_)
      obtain ⟨-, rfl⟩ := combine_ok.mp hcombine
      exact hmore _ hp

theorem and_agree : AgreeAt n (and unary) (and unary') := by
  intro p hp
  refine bind_agree (hagree p hp) fun left q hleft => bind_congr fun _ q' hget => ?_
  obtain ⟨rfl, rfl⟩ := get_ok.mp hget
  exact andLoop_agree hagree hunary _ left q ((hunary.keeps _ _ _ hleft).trans hp)

theorem comma_agree : AgreeAt n (comma unary) (comma unary') :=
  chain_agree (chain_agree (and_agree hagree hunary) (and_sound hunary).keeps)
    (or_sound hunary).keeps

end

theorem unnest_agree {x y : Parse (Expression τ φ)} (h : AgreeAt n x y) :
    AgreeAt n (unnest x) (unnest y) := by
  intro p hp
  unfold unnest
  rw [h p hp]

/-- Two parsers that agree one level down, where there is such a level, agree
after the step to it. -/
theorem nest_agree {x y : Parse (Expression τ φ)} {more : Expression τ φ → Parse (Expression τ φ)}
    (h : n + 1 ≤ MAX_NESTING → AgreeAt (n + 1) x y) :
    AgreeAt n (nest >>= fun _ => unnest x >>= more) (nest >>= fun _ => unnest y >>= more) := by
  intro p hp
  refine bind_congr fun _ p₃ hnest => ?_
  obtain ⟨hlt, rfl⟩ := nest_ok.mp hnest
  rw [hp] at hlt
  exact bind_agree (unnest_agree (h hlt) _ (by rw [← hp])) fun _ _ _ => rfl

/-- **The nesting bounds the recursion**: from a nesting of `n`, levels of
recursion past those the limit leaves change nothing, errors included. -/
theorem unary_agree {depth' : ℕ} (hroom : n ≤ MAX_NESTING) (h : MAX_NESTING < depth + n)
    (h' : MAX_NESTING < depth' + n) : AgreeAt n (unary host depth) (unary host depth') := by
  induction depth generalizing n depth' with
  | zero =>
    rw [zero_add] at h
    exact absurd hroom (Nat.not_le.mpr h)
  | succ depth ih =>
    cases depth' with
    | zero =>
      rw [zero_add] at h'
      exact absurd hroom (Nat.not_le.mpr h')
    | succ depth' =>
      rw [add_right_comm] at h h'
      -- the parsers one level down, where there is room for one
      have hdown : n + 1 ≤ MAX_NESTING →
          AgreeAt (n + 1) (unary host depth) (unary host depth') := fun hlt => ih hlt h h'
      intro p hp
      rw [unary, unary]
      refine bind_congr fun found p₁ hc => ?_
      rcases consume_ok.mp hc with ⟨rfl, s₁, -, rfl⟩ | ⟨rfl, -, rfl⟩
      · rw [if_pos rfl, if_pos rfl]
        refine bind_congr fun _ p₂ hcombine => ?_
        obtain ⟨-, rfl⟩ := combine_ok.mp hcombine
        exact nest_agree hdown _ hp
      · rw [if_neg Bool.false_ne_true, if_neg Bool.false_ne_true]
        refine bind_congr fun found p₁ hc => ?_
        rcases consume_ok.mp hc with ⟨rfl, s₁, -, rfl⟩ | ⟨rfl, -, rfl⟩
        · rw [if_pos rfl, if_pos rfl]
          exact nest_agree (fun hlt => comma_agree (hdown hlt) (unary_sound depth)) _ hp
        · rw [if_neg Bool.false_ne_true, if_neg Bool.false_ne_true]

theorem parseAt_eq_parse (hdepth : MAX_NESTING < depth) (args : List Arg) :
    parseAt host depth args = parse host args := by
  have hcomma : ∀ s : Seen, expressionAt host depth s = expressionAt host (MAX_NESTING + 1) s := by
    intro s
    unfold expressionAt
    rw [comma_agree (unary_agree (Nat.zero_le _) hdepth (Nat.lt_succ_self _))
      (unary_sound depth) _ rfl]
  unfold parse parseAt
  simp only [hcomma]

/-! ## Acceptance -/

/-- The flag of the actions is the tree's. -/
theorem Tree.action (h : Tree host s e s') (hs : s.action = false) : s'.action = e.explicit := by
  rcases h with ⟨-, rfl, rfl⟩ | ⟨-, h, -, -⟩
  · exact hs
  · rw [h.action, hs, Bool.false_or]

theorem Tree.rest (h : Tree host s e s') : s'.rest = [] := by
  rcases h with ⟨hrest, -, rfl⟩ | ⟨-, -, hrest, -⟩ <;> exact hrest

theorem Tree.height (h : Tree host s e s') : e.height ≤ MAX_COMBINATORS + 1 := by
  refine e.height_le.trans (Nat.succ_le_succ ?_)
  rcases h with ⟨-, rfl, -⟩ | ⟨-, -, -, hops⟩
  · exact Nat.zero_le _
  · exact hops

/-- What a finished plan keeps of what was seen. -/
theorem finish_message {no_ignore : Bool} (h : finish host no_ignore starts s e = .ok plan) :
    s.rest = [] ∧ plan.message = s.message
      ∧ plan.expression = if s.action then e else .and e (.print false) := by
  unfold finish at h
  dsimp only at h
  split at h
  · cases h
  rename_i hrest
  split at h
  · cases h
  split at h
  · cases h
  · cases h
    exact ⟨not_not.mp hrest, rfl, rfl⟩

/-- A message leaves no expression to evaluate. -/
theorem expressionAt_message
    (h : expressionAt host depth s = .ok (e, s')) (hs : s'.message.isSome) :
    e = .constant true := by
  unfold expressionAt at h
  split at h
  · cases h
    rfl
  cases hp : comma (unary host depth) { seen := s, combinators := 0, nesting := 0 } with
  | error err p =>
    rw [hp] at h
    dsimp only at h
    split at h
    · cases h
      rfl
    · cases h
  | ok e₁ p =>
    rw [hp] at h
    dsimp only at h
    split at h
    · cases h
      rfl
    · rename_i hnone
      cases h
      exact absurd hs hnone

/-- **A command without a message is parsed exactly when it means something,
and then to what it means.** -/
theorem parse_means : parse host args = .ok plan ∧ plan.message = none ↔ Means host args plan := by
  unfold parse parseAt Means
  cases hl : leading_options args false (Seen.new args) with
  | error err s =>
    constructor
    · rintro ⟨h, -⟩
      cases h
    · rintro ⟨_, _, _, _, _, _, h, -⟩
      cases h
  | ok no_ignore s =>
    have haction : s.action = false := leading_options_action _ le_rfl hl
    cases hp : paths s with
    | error err s₁ =>
      constructor
      · rintro ⟨h, -⟩
        dsimp only at h
        rw [hp] at h
        cases h
      · rintro ⟨_, _, _, _, _, _, h, h', -⟩
        cases h
        rw [hp] at h'
        cases h'
    | ok starts s₁ =>
      have haction : s₁.action = false := (paths_ok hp).1.trans haction
      dsimp only
      rw [hp]
      dsimp only
      constructor
      · rintro ⟨h, hmessage⟩
        cases he : expressionAt host (MAX_NESTING + 1) s₁ with
        | error err =>
          rw [he] at h
          cases h
        | ok found =>
          obtain ⟨e, s₂⟩ := found
          rw [he] at h
          obtain ⟨hrest, hkept, -⟩ := finish_message h
          rw [hmessage] at hkept
          obtain ⟨htree, -⟩ := (expressionAt_iff (Nat.lt_succ_self _)).mp ⟨he, hkept.symm, hrest⟩
          obtain ⟨-, hdelete, hplan, hzone⟩ := (finish_iff (htree.action haction)).mp h
          exact ⟨no_ignore, s, starts, s₁, e, s₂, rfl, hp, htree, hkept.symm, hdelete, hplan,
            hzone⟩
      · rintro ⟨_, _, starts', s₁', e, s₂, h, hp', htree, hmessage, hdelete, hplan, hzone⟩
        cases h
        rw [hp] at hp'
        cases hp'
        obtain ⟨he, -, -⟩ := (expressionAt_iff (Nat.lt_succ_self MAX_NESTING)).mpr
          ⟨htree, hmessage⟩
        rw [he]
        refine ⟨(finish_iff (htree.action haction)).mpr ⟨htree.rest, hdelete, hplan, hzone⟩, ?_⟩
        rw [hplan]
        exact hmessage

/-- A plan with a message has nothing to evaluate but its implicit print. -/
theorem parse_message (h : parse host args = .ok plan) (hsome : plan.message.isSome) :
    plan.expression = .constant true ∨ plan.expression = .and (.constant true) (.print false) := by
  unfold parse parseAt at h
  split at h
  · cases h
  split at h
  · cases h
  split at h
  · cases h
  · rename_i e s he
    obtain ⟨-, hmessage, hexpression⟩ := finish_message h
    obtain rfl := expressionAt_message he (hmessage ▸ hsome)
    rw [hexpression]
    split
    · exact .inl rfl
    · exact .inr rfl

theorem Means.height (h : Means host args plan) : plan.expression.height ≤ MAX_COMBINATORS + 2 := by
  obtain ⟨_, _, _, _, e, _, -, -, htree, -, -, rfl, -⟩ := h
  show (if e.explicit then e else Expression.and e (.print false)).height ≤ _
  have hheight := htree.height
  split
  · exact hheight.trans (Nat.le_succ _)
  · exact Nat.succ_le_succ (max_le hheight (Nat.le_add_left _ _))

/-- A host on which every operand is well formed. -/
def plainHost : Host Unit Unit where
  regex _ _ _ := .ok ()
  perm _ := some ()
  size _ := some ()
  time _ _ _ := some ()
  number _ _ := some ()
  identity _ _ := some 0
  newer _ _ _ _ zone := (some (), zone)
  daystart _ := false
  format _ := ([], .ok ())
  path_format _ := ()
  format_local_time _ := false
  zone := none
  path := none

end Ferret.Find
