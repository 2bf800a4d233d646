import Ferret.Query.Expr

/-!
# The grammar of boolean queries

`Derives` is the grammar: an OR is made of ANDs, an AND of unaries – its
operator may be left out – and a unary is an atom, a negation or a group. Both
lists are read from the left, so that a round of a loop of the parser is one
production.

`sound` says that a parser derives what it returns from the tokens it reads,
and `complete` that it returns what is derived, so long as what follows does not
go on with it.
-/

namespace Ferret.Query

open Stateful List

variable {ε A : Type}

inductive Symbol
  | unary
  | and
  | or

/-- **The grammar**, with at most so many negations and groups nested. An AND
gives its operands and an OR its alternatives; a unary gives its one node. -/
inductive Derives : Symbol → ℕ → List (Token A) → List (Node A) → Prop
  | atom {k : ℕ} {a : A} : Derives .unary k [.atom a] [.leaf a]
  | not {k : ℕ} {ts : List (Token A)} {node : Node A} :
    Derives .unary k ts [node] → Derives .unary (k + 1) (.not :: ts) [.not node]
  | group {k : ℕ} {ts : List (Token A)} {any : List (Node A)} :
    Derives .or k ts any → Derives .unary (k + 1) (.open_ :: (ts ++ [.close])) [one_or any .or]
  | operand {k : ℕ} {ts : List (Token A)} {node : Node A} :
    Derives .unary k ts [node] → Derives .and k ts [node]
  | juxtapose {k : ℕ} {ts ts' : List (Token A)} {all : List (Node A)} {node : Node A} :
    Derives .and k ts all → Derives .unary k ts' [node] →
    Derives .and k (ts ++ ts') (all ++ [node])
  | and {k : ℕ} {ts ts' : List (Token A)} {all : List (Node A)} {node : Node A} :
    Derives .and k ts all → Derives .unary k ts' [node] →
    Derives .and k (ts ++ .and :: ts') (all ++ [node])
  | alternative {k : ℕ} {ts : List (Token A)} {all : List (Node A)} :
    Derives .and k ts all → Derives .or k ts [one_or all .and]
  | or {k : ℕ} {ts ts' : List (Token A)} {any all : List (Node A)} :
    Derives .or k ts any → Derives .and k ts' all →
    Derives .or k (ts ++ .or :: ts') (any ++ [one_or all .and])

/-- **The trees of a query**: the empty conjunction, or an expression. -/
inductive Derived (k : ℕ) : List (Token A) → Node A → Prop
  | empty : Derived k [] (.and [])
  | expr {ts : List (Token A)} {any : List (Node A)} :
    Derives .or k ts any → Derived k ts (one_or any .or)

/-! ## What a derivation reads -/

variable {symbol : Symbol} {ts : List (Token A)} {inner : Parse ε A (Node A)}
  {nodes : List (Node A)} {k : ℕ}

/-- Every derivation starts like an operand. -/
theorem Derives.starts (h : Derives symbol k ts nodes) :
    ∃ t ts', ts = t :: ts' ∧ dangles (some t) = false := by
  induction h with
  | atom | not | group => exact ⟨_, _, rfl, rfl⟩
  | operand _ ih | alternative _ ih => exact ih
  | juxtapose _ _ ih _ | and _ _ ih _ | or _ _ ih _ =>
    obtain ⟨t, ts', rfl, ht⟩ := ih
    exact ⟨t, _, rfl, ht⟩

theorem Derives.nodes_ne_nil (h : Derives symbol k ts nodes) : nodes ≠ [] := by
  induction h with
  | atom | not | group | alternative => exact nofun
  | operand _ ih => exact ih
  | juxtapose | and | or => exact append_ne_nil_of_right_ne_nil _ nofun

theorem Derives.dangles_append (h : Derives symbol k ts nodes) (rest : List (Token A)) :
    dangles (ts ++ rest).head? = false := by
  obtain ⟨t, _, rfl, ht⟩ := h.starts
  exact ht

/-! ## The rounds of the loops -/

variable {rest : List (Token A)}

theorem fail_ok {α : Type} {e : ParseError ε} {a : α} :
    (fail e : Parse ε A α) ts = .ok a rest ↔ False := throw_ok

variable {t : Option (Token A)}

theorem peek_ok :
    (peek : Parse ε A _) ts = .ok t rest ↔ ts.head? = t ∧ ts = rest := by
  show EStateM.Result.ok ts.head? ts = .ok t rest ↔ _
  rw [EStateM.Result.ok.injEq]

theorem next_ok :
    (next : Parse ε A _) ts = .ok t rest ↔ ts.head? = t ∧ ts.tail = rest := by
  show EStateM.Result.ok ts.head? ts.tail = .ok t rest ↔ _
  rw [EStateM.Result.ok.injEq]

variable {n : ℕ}

/-- A round of an AND stops, reads an operand, or reads the operator and an
operand. -/
theorem andLoop_ok {unary : Parse ε A (Node A)} {all all' : List (Node A)} :
    andLoop unary (n + 1) all ts = .ok all' rest ↔
      (ends ts.head? = true ∧ all = all' ∧ ts = rest)
      ∨ (dangles ts.head? = false ∧ ∃ node ts', unary ts = .ok node ts'
        ∧ andLoop unary n (all ++ [node]) ts' = .ok all' rest)
      ∨ (∃ ts₁, ts = .and :: ts₁ ∧ all ≠ [] ∧ dangles ts₁.head? = false ∧
        ∃ node ts', unary ts₁ = .ok node ts'
          ∧ andLoop unary n (all ++ [node]) ts' = .ok all' rest) := by
  rw [andLoop]
  simp only [bind_ok, peek_ok, next_ok, ite_ok, pure_ok, fail_ok]
  cases ts with
  | nil => simp [ends, dangles]
  | cons t ts =>
    cases t <;> simp [ends, is_and, dangles, and_assoc]

/-- A round of an OR reads the operator and an alternative, or stops. -/
theorem orLoop_ok {and : Parse ε A (Node A)} {any any' : List (Node A)} :
    orLoop and (n + 1) any ts = .ok any' rest ↔
      (is_or ts.head? = false ∧ any = any' ∧ ts = rest)
      ∨ (∃ ts₁, ts = .or :: ts₁ ∧ ∃ node ts', and ts₁ = .ok node ts'
        ∧ orLoop and n (any ++ [node]) ts' = .ok any' rest) := by
  rw [orLoop]
  simp only [bind_ok, peek_ok, next_ok, ite_ok, pure_ok]
  cases ts with
  | nil => simp [is_or]
  | cons t ts => cases t <;> simp [is_or]

variable {node : Node A} {after : After}

theorem and_ok {unary : Parse ε A (Node A)} :
    and unary after ts = .ok node rest ↔
      ∃ all, all ≠ [] ∧ one_or all .and = node ∧ andLoop unary ts.length [] ts = .ok all rest := by
  rw [and]
  simp only [bind_ok, get_ok, peek_ok, ite_ok, pure_ok, fail_ok, false_and, exists_false,
    and_false, false_or, List.isEmpty_iff]
  constructor
  · rintro ⟨_, _, ⟨rfl, rfl⟩, all, s, hloop, hne, hnode, rfl⟩
    exact ⟨all, hne, hnode, hloop⟩
  · rintro ⟨all, hne, hnode, hloop⟩
    exact ⟨ts, ts, ⟨rfl, rfl⟩, all, rest, hloop, hne, hnode, rfl⟩

variable {any : List (Node A)}

theorem alternatives_ok {unary : Parse ε A (Node A)} :
    alternatives unary after ts = .ok any rest ↔
      ∃ first ts', and unary after ts = .ok first ts'
        ∧ orLoop (and unary .or) ts'.length [first] ts' = .ok any rest := by
  rw [alternatives]
  simp only [bind_ok, get_ok]
  constructor
  · rintro ⟨first, ts', hfirst, _, _, ⟨rfl, rfl⟩, h⟩
    exact ⟨first, ts', hfirst, h⟩
  · rintro ⟨first, ts', hfirst, h⟩
    exact ⟨first, ts', hfirst, ts', ts', ⟨rfl, rfl⟩, h⟩

theorem expr_ok {unary : Parse ε A (Node A)} :
    expr unary after ts = .ok node rest ↔
      ∃ any, one_or any .or = node ∧ alternatives unary after ts = .ok any rest := by
  rw [expr]
  simp only [bind_ok, pure_ok]
  constructor
  · rintro ⟨any, s, h, heq, rfl⟩
    exact ⟨any, heq, h⟩
  · rintro ⟨any, heq, h⟩
    exact ⟨any, rest, h, heq, rfl⟩

variable {depth : ℕ}

theorem negation_ok :
    negation inner depth ts = .ok node rest ↔
      depth < NESTING_LIMIT ∧ dangles ts.head? = false
        ∧ ∃ node', inner ts = .ok node' rest ∧ .not node' = node := by
  rw [negation]
  simp only [bind_ok, peek_ok, ite_ok, pure_ok, fail_ok, false_and, exists_false, and_false,
    false_or, not_le, Bool.not_eq_true]
  constructor
  · rintro ⟨hdepth, _, _, ⟨rfl, rfl⟩, hstarts, node', s, hinner, hnode, rfl⟩
    exact ⟨hdepth, hstarts, node', hinner, hnode⟩
  · rintro ⟨hdepth, hstarts, node', hinner, hnode⟩
    exact ⟨hdepth, _, _, ⟨rfl, rfl⟩, hstarts, node', rest, hinner, hnode, rfl⟩

theorem close_ok {node node' : Node A} :
    (close node t : Parse ε A _) ts = .ok node' rest ↔ t = some .close ∧ node = node' ∧ ts = rest := by
  unfold close
  split
  · simp only [pure_ok, true_and]
  · rename_i h
    simp only [fail_ok, false_iff]
    exact fun hclose => h hclose.1

theorem group_ok :
    group inner depth ts = .ok node rest ↔
      depth < NESTING_LIMIT ∧ expr inner .open_ ts = .ok node (.close :: rest) := by
  rw [group]
  simp only [bind_ok, next_ok, ite_ok, fail_ok, close_ok, false_and, exists_false, and_false,
    false_or, not_le]
  constructor
  · rintro ⟨hdepth, _, ts', hexpr, _, _, ⟨rfl, rfl⟩, hclose, rfl, rfl⟩
    cases ts' with
    | nil => cases hclose
    | cons t ts' =>
      cases hclose
      exact ⟨hdepth, hexpr⟩
  · rintro ⟨hdepth, hexpr⟩
    exact ⟨hdepth, node, _, hexpr, _, _, ⟨rfl, rfl⟩, rfl, rfl, rfl⟩

variable {stack depth : ℕ}

/-- A unary is an atom, or a negation or a group one level down. -/
theorem unary_ok :
    (unary (stack + 1) depth : Parse ε A _) ts = .ok node rest ↔
      (∃ a, ts = .atom a :: rest ∧ .leaf a = node)
      ∨ (∃ ts₁, ts = .not :: ts₁
        ∧ negation (unary stack (depth + 1) : Parse ε A _) depth ts₁ = .ok node rest)
      ∨ (∃ ts₁, ts = .open_ :: ts₁
        ∧ group (unary stack (depth + 1) : Parse ε A _) depth ts₁ = .ok node rest) := by
  rw [unary, bind_ok]
  simp only [next_ok]
  cases ts with
  | nil => simp [fail_ok]
  | cons t ts =>
    cases t with
    | and | or | close | not | open_ => simp [fail_ok]
    | atom a => simp [pure_ok, and_comm]

/-! ## Soundness -/

section

variable {unary : Parse ε A (Node A)} {k : ℕ}
  (hunary : ∀ ts node rest, unary ts = .ok node rest →
    ∃ read, ts = read ++ rest ∧ Derives .unary k read [node])

include hunary

variable {ts rest : List (Token A)}

/-- The loop of an AND adds the operands it reads. -/
theorem andLoop_sound (n : ℕ) {before : List (Token A)} {all all' : List (Node A)}
    (hall : Derives .and k before all) (h : andLoop unary n all ts = .ok all' rest) :
    ∃ read, ts = read ++ rest ∧ Derives .and k (before ++ read) all' := by
  induction n generalizing before all ts with
  | zero =>
    obtain ⟨rfl, rfl⟩ := pure_ok.mp h
    exact ⟨[], rfl, by rwa [append_nil]⟩
  | succ n ih =>
    rcases (andLoop_ok).mp h with ⟨-, rfl, rfl⟩ | ⟨-, node, ts', hnode, hloop⟩
      | ⟨_, rfl, -, -, node, ts', hnode, hloop⟩
    · exact ⟨[], rfl, by rwa [append_nil]⟩
    · obtain ⟨read, rfl, hread⟩ := hunary _ _ _ hnode
      obtain ⟨more, rfl, hmore⟩ := ih (hall.juxtapose hread) hloop
      exact ⟨read ++ more, by rw [append_assoc], by rwa [← append_assoc]⟩
    · obtain ⟨read, rfl, hread⟩ := hunary _ _ _ hnode
      obtain ⟨more, rfl, hmore⟩ := ih (hall.and hread) hloop
      refine ⟨.and :: (read ++ more), by rw [cons_append, append_assoc], ?_⟩
      rwa [append_assoc, cons_append] at hmore

theorem and_sound (h : and unary after ts = .ok node rest) :
    ∃ read all, ts = read ++ rest ∧ one_or all .and = node ∧ Derives .and k read all := by
  obtain ⟨all, hne, hnode, hloop⟩ := (and_ok).mp h
  cases hlen : ts.length with
  | zero =>
    rw [hlen] at hloop
    exact absurd (pure_ok.mp hloop).1.symm hne
  | succ n =>
    rw [hlen] at hloop
    rcases (andLoop_ok).mp hloop with ⟨-, rfl, -⟩ | ⟨-, _, _, hfirst, hrest⟩
      | ⟨_, -, hall, -⟩
    · exact absurd rfl hne
    · clear h
      obtain ⟨read, rfl, hread⟩ := hunary _ _ _ hfirst
      obtain ⟨more, rfl, hmore⟩ := andLoop_sound hunary n hread.operand hrest
      exact ⟨read ++ more, all, by rw [append_assoc], hnode, hmore⟩
    · exact absurd rfl hall

/-- The loop of an OR adds the alternatives it reads. -/
theorem orLoop_sound (n : ℕ) {before : List (Token A)} {any any' : List (Node A)}
    (hany : Derives .or k before any) (h : orLoop (and unary .or) n any ts = .ok any' rest) :
    ∃ read, ts = read ++ rest ∧ Derives .or k (before ++ read) any' := by
  induction n generalizing before any ts with
  | zero =>
    obtain ⟨rfl, rfl⟩ := pure_ok.mp h
    exact ⟨[], rfl, by rwa [append_nil]⟩
  | succ n ih =>
    rcases (orLoop_ok).mp h with ⟨-, rfl, rfl⟩ | ⟨_, rfl, _, _, hnode, hloop⟩
    · exact ⟨[], rfl, by rwa [append_nil]⟩
    · obtain ⟨read, _, rfl, rfl, hread⟩ := and_sound hunary hnode
      obtain ⟨more, rfl, hmore⟩ := ih (hany.or hread) hloop
      refine ⟨.or :: (read ++ more), by rw [cons_append, append_assoc], ?_⟩
      rwa [append_assoc, cons_append] at hmore

theorem expr_sound (h : expr unary after ts = .ok node rest) :
    ∃ read any, ts = read ++ rest ∧ one_or any .or = node ∧ Derives .or k read any := by
  obtain ⟨any, hnode, halternatives⟩ := (expr_ok).mp h
  obtain ⟨_, _, hfirst, hloop⟩ := (alternatives_ok).mp halternatives
  obtain ⟨read, _, rfl, rfl, hread⟩ := and_sound hunary hfirst
  obtain ⟨more, rfl, hmore⟩ := orLoop_sound hunary _ hread.alternative hloop
  exact ⟨read ++ more, any, by rw [append_assoc], hnode, hmore⟩

end

/-- **A unary derives what it returns**, within the nesting that is left. -/
theorem unary_sound (stack : ℕ) (h : (unary stack depth : Parse ε A _) ts = .ok node rest) :
    ∃ read, ts = read ++ rest ∧ Derives .unary (NESTING_LIMIT - depth) read [node] := by
  induction stack generalizing depth ts node rest with
  | zero => exact (throw_ok.mp h).elim
  | succ stack ih =>
    rcases (unary_ok).mp h with ⟨a, rfl, rfl⟩ | ⟨ts₁, rfl, h⟩ | ⟨ts₁, rfl, h⟩
    · exact ⟨[.atom a], rfl, .atom⟩
    · obtain ⟨hdepth, -, _, hinner, rfl⟩ := (negation_ok).mp h
      obtain ⟨read, rfl, hread⟩ := ih hinner
      refine ⟨.not :: read, rfl, ?_⟩
      rw [show NESTING_LIMIT - depth = NESTING_LIMIT - (depth + 1) + 1 by omega]
      exact hread.not
    · obtain ⟨hdepth, hexpr⟩ := (group_ok).mp h
      obtain ⟨read, _, rfl, rfl, hread⟩ := expr_sound (fun _ _ _ h => ih h) hexpr
      refine ⟨.open_ :: (read ++ [.close]), by simp, ?_⟩
      rw [show NESTING_LIMIT - depth = NESTING_LIMIT - (depth + 1) + 1 by omega]
      exact hread.group

/-! ## Completeness -/

variable {all : List (Node A)}

theorem andLoop_ends {unary : Parse ε A (Node A)} (n : ℕ) (h : ends ts.head? = true) :
    andLoop unary n all ts = .ok all ts := by
  cases n with
  | zero => rfl
  | succ n => exact (andLoop_ok).mpr (.inl ⟨h, rfl, rfl⟩)

theorem orLoop_stops {and : Parse ε A (Node A)} (n : ℕ) (h : is_or ts.head? = false) :
    orLoop and n any ts = .ok any ts := by
  cases n with
  | zero => rfl
  | succ n => exact (orLoop_ok).mpr (.inl ⟨h, rfl, rfl⟩)

/-- What it is to accept the tokens of a symbol: a unary reads them, and a loop
goes on from behind them with their nodes added. -/
def Accepts (unary : Parse ε A (Node A)) : Symbol → List (Token A) → List (Node A) → Prop
  | .unary, ts, nodes => ∀ node rest, nodes = [node] → unary (ts ++ rest) = .ok node rest
  | .and, ts, nodes => ∀ n all rest, (ts ++ rest).length ≤ n → ∃ n', rest.length ≤ n' ∧
      ∀ all' rest', andLoop unary n' (all ++ nodes) rest = .ok all' rest' →
        andLoop unary n all (ts ++ rest) = .ok all' rest'
  | .or, ts, nodes => ∀ after rest, ends rest.head? = true → ∃ n', rest.length ≤ n' ∧
      ∀ any' rest', orLoop (and unary .or) n' nodes rest = .ok any' rest' →
        alternatives unary after (ts ++ rest) = .ok any' rest'

section

variable {unary : Parse ε A (Node A)} {k : ℕ} {ts : List (Token A)}

theorem Accepts.and (h : Accepts unary .and ts all) (hne : all ≠ [])
    (hends : ends rest.head? = true) (after : After) :
    Query.and unary after (ts ++ rest) = .ok (one_or all .and) rest := by
  obtain ⟨n', -, hloop⟩ := h _ [] rest le_rfl
  exact (and_ok).mpr ⟨all, hne, rfl, hloop _ _ (andLoop_ends n' hends)⟩

theorem Accepts.expr (h : Accepts unary .or ts any) (hends : ends rest.head? = true)
    (hstops : is_or rest.head? = false) (after : After) :
    Query.expr unary after (ts ++ rest) = .ok (one_or any .or) rest := by
  obtain ⟨n', -, hloop⟩ := h after rest hends
  exact (expr_ok).mpr ⟨any, rfl, hloop _ _ (orLoop_stops n' hstops)⟩

/-- A round that reads an operand without an operator. -/
theorem Accepts.operand (h : Accepts unary .unary ts [node]) (hderives : Derives .unary k ts [node])
    (all : List (Node A)) (rest : List (Token A)) (hlen : (ts ++ rest).length ≤ n) :
    ∃ n', rest.length ≤ n' ∧ ∀ all' rest', andLoop unary n' (all ++ [node]) rest = .ok all' rest' →
      andLoop unary n all (ts ++ rest) = .ok all' rest' := by
  obtain ⟨t, _, rfl, ht⟩ := hderives.starts
  obtain ⟨n, rfl⟩ := Nat.exists_eq_succ_of_ne_zero (Nat.ne_zero_of_lt hlen)
  rw [cons_append, length_cons, length_append] at hlen
  refine ⟨n, by omega, fun all' rest' hloop => ?_⟩
  exact (andLoop_ok).mpr (.inr (.inl ⟨ht, node, rest, h node rest rfl, hloop⟩))

/-- A round that reads the operator and an operand. -/
theorem Accepts.operator (h : Accepts unary .unary ts [node])
    (hderives : Derives .unary k ts [node]) (hall : all ≠ []) (rest : List (Token A))
    (hlen : (.and :: (ts ++ rest)).length ≤ n) :
    ∃ n', rest.length ≤ n' ∧ ∀ all' rest', andLoop unary n' (all ++ [node]) rest = .ok all' rest' →
      andLoop unary n all (.and :: (ts ++ rest)) = .ok all' rest' := by
  obtain ⟨n, rfl⟩ := Nat.exists_eq_succ_of_ne_zero (Nat.ne_zero_of_lt hlen)
  rw [length_cons, length_append] at hlen
  refine ⟨n, by omega, fun all' rest' hloop => (andLoop_ok).mpr (.inr (.inr ?_))⟩
  exact ⟨_, rfl, hall, hderives.dangles_append rest, node, rest, h node rest rfl, hloop⟩

end

/-- **A parser returns what is derived**, where the nesting and the stack
allow it. -/
theorem Derives.accepts (h : Derives symbol k ts nodes) (hstack : k < stack)
    (hdepth : k + depth ≤ NESTING_LIMIT) :
    Accepts (unary stack depth : Parse ε A _) symbol ts nodes := by
  induction h generalizing stack depth with
  | atom =>
    obtain ⟨stack, rfl⟩ := Nat.exists_eq_succ_of_ne_zero (Nat.ne_zero_of_lt hstack)
    rintro node rest ⟨⟩
    exact (unary_ok).mpr (.inl ⟨_, rfl, rfl⟩)
  | not hinner ih =>
    obtain ⟨stack, rfl⟩ := Nat.exists_eq_succ_of_ne_zero (Nat.ne_zero_of_lt hstack)
    rintro node rest ⟨⟩
    refine (unary_ok).mpr (.inr (.inl ⟨_, rfl, (negation_ok).mpr ⟨by omega, ?_, _, ?_, rfl⟩⟩))
    · exact hinner.dangles_append rest
    · exact ih (by omega) (by omega) _ rest rfl
  | group hinner ih =>
    rename_i k read any
    obtain ⟨stack, rfl⟩ := Nat.exists_eq_succ_of_ne_zero (Nat.ne_zero_of_lt hstack)
    rintro node rest ⟨⟩
    refine (unary_ok).mpr (.inr (.inr ⟨read ++ .close :: rest, by simp, ?_⟩))
    exact (group_ok).mpr ⟨by omega, (ih (by omega) (by omega)).expr rfl rfl .open_⟩
  | operand hunary ih =>
    intro n all rest hlen
    exact (ih hstack hdepth).operand hunary all rest hlen
  | juxtapose hall hunary ih ih' =>
    intro n before rest hlen
    rw [append_assoc] at hlen ⊢
    obtain ⟨n₁, hlen₁, hloop₁⟩ := ih hstack hdepth n before _ hlen
    obtain ⟨n₂, hlen₂, hloop₂⟩ := (ih' hstack hdepth).operand hunary (before ++ _) rest hlen₁
    refine ⟨n₂, hlen₂, fun all' rest' hloop => hloop₁ _ _ (hloop₂ _ _ ?_)⟩
    rwa [append_assoc]
  | and hall hunary ih ih' =>
    intro n before rest hlen
    rw [append_assoc, cons_append] at hlen ⊢
    obtain ⟨n₁, hlen₁, hloop₁⟩ := ih hstack hdepth n before _ hlen
    obtain ⟨n₂, hlen₂, hloop₂⟩ := (ih' hstack hdepth).operator hunary
      (append_ne_nil_of_right_ne_nil before hall.nodes_ne_nil) rest hlen₁
    refine ⟨n₂, hlen₂, fun all' rest' hloop => hloop₁ _ _ (hloop₂ _ _ ?_)⟩
    rwa [append_assoc]
  | alternative hall ih =>
    intro after rest hends
    refine ⟨rest.length, le_rfl, fun any' rest' hloop => (alternatives_ok).mpr ⟨_, rest, ?_, hloop⟩⟩
    exact (ih hstack hdepth).and hall.nodes_ne_nil hends after
  | or _ hall ih ih' =>
    intro after rest hends
    obtain ⟨n₁, hlen₁, hloop₁⟩ := ih hstack hdepth after (.or :: (_ ++ rest)) rfl
    obtain ⟨n, rfl⟩ := Nat.exists_eq_succ_of_ne_zero (Nat.ne_zero_of_lt hlen₁)
    rw [length_cons, length_append] at hlen₁
    rw [append_assoc, cons_append]
    refine ⟨n, by omega, fun any' rest' hloop => hloop₁ _ _ ((orLoop_ok).mpr (.inr ?_))⟩
    exact ⟨_, rfl, _, rest, (ih' hstack hdepth).and hall.nodes_ne_nil hends .or, hloop⟩

/-! ## The stack -/

/-- A parser that does not run out of frames. -/
abbrev Fits {α : Type} (p : Parse ε A α) : Prop := Errors (fun e => e ≠ .overflow) p

theorem fits_fail {α : Type} (e : ParseError ε) : Fits (fail e : Parse ε A α) :=
  .throw nofun

theorem fits_peek : Fits (peek : Parse ε A _) := by
  intro ts e ts' h
  cases h

theorem fits_next : Fits (next : Parse ε A _) := by
  intro ts e ts' h
  cases h

section

variable {inner : Parse ε A (Node A)} (hinner : Fits inner)

include hinner

theorem fits_andLoop (n : ℕ) (all : List (Node A)) : Fits (andLoop inner n all) := by
  induction n generalizing all with
  | zero => exact .pure all
  | succ n ih =>
    rw [andLoop]
    have hgo : Fits (do let node ← inner; andLoop inner n (all ++ [node])) :=
      hinner.bind fun node => ih _
    refine fits_peek.bind fun t => .ite (.pure all) (fits_peek.bind fun t => .ite ?_ hgo)
    exact fits_next.bind fun _ => fits_peek.bind fun t => .ite ((fits_fail _).bind fun _ => hgo) hgo

theorem fits_and (after : After) : Fits (and inner after) := by
  have hdone (all : List (Node A)) : Fits (pure (one_or all .and) : Parse ε A _) := .pure _
  refine Errors.get.bind fun ts => (fits_andLoop hinner _ _).bind fun all =>
    .ite (fits_peek.bind fun t => (fits_fail _).bind fun _ => hdone all) (hdone all)

theorem fits_orLoop (n : ℕ) (any : List (Node A)) : Fits (orLoop (and inner .or) n any) := by
  induction n generalizing any with
  | zero => exact .pure any
  | succ n ih =>
    rw [orLoop]
    refine fits_peek.bind fun t => .ite (fits_next.bind fun _ => ?_) (.pure any)
    exact (fits_and hinner .or).bind fun node => ih _

theorem fits_expr (after : After) : Fits (expr inner after) := by
  refine Errors.bind ?_ fun any => .pure _
  exact (fits_and hinner after).bind fun first => Errors.get.bind fun ts => fits_orLoop hinner _ _

theorem fits_negation (depth : ℕ) : Fits (negation inner depth) := by
  have hdone : Fits (do let node ← inner; pure (.not node) : Parse ε A (Node A)) :=
    hinner.bind fun node => .pure _
  have hgo : Fits (do
      if dangles (← peek) then fail (.dangling "NOT")
      let node ← inner
      pure (.not node) : Parse ε A (Node A)) :=
    fits_peek.bind fun t => .ite ((fits_fail _).bind fun _ => hdone) hdone
  exact .ite ((fits_fail _).bind fun _ => hgo) hgo

theorem fits_group (depth : ℕ) : Fits (group inner depth) := by
  have hclose (node : Node A) (t : Option (Token A)) : Fits (close node t : Parse ε A _) := by
    unfold close
    split
    · exact .pure node
    · exact fits_fail _
  have hgo : Fits (do let node ← expr inner .open_; close node (← next) : Parse ε A (Node A)) :=
    (fits_expr hinner .open_).bind fun node => fits_next.bind fun t => hclose node t
  exact .ite ((fits_fail _).bind fun _ => hgo) hgo

end

/-- At the limit there is no level left to go down to. -/
theorem negation_limit (h : NESTING_LIMIT ≤ depth) :
    negation inner depth = fail (.nesting NESTING_LIMIT) := by
  rw [negation, if_pos h]
  rfl

theorem group_limit (h : NESTING_LIMIT ≤ depth) :
    group inner depth = fail (.nesting NESTING_LIMIT) := by
  rw [group, if_pos h]
  rfl

/-- **No parse needs more frames than the limit allows levels**, and one. -/
theorem fits_unary (hdepth : depth ≤ NESTING_LIMIT) (hstack : NESTING_LIMIT < stack + depth) :
    Fits (unary stack depth : Parse ε A _) := by
  induction stack generalizing depth with
  | zero => omega
  | succ stack ih =>
    have hnegation : Fits (negation (unary stack (depth + 1)) depth : Parse ε A _) := by
      rcases hdepth.lt_or_eq with h | rfl
      · exact fits_negation (ih h (by omega)) depth
      · rw [negation_limit le_rfl]
        exact fits_fail _
    have hgroup : Fits (group (unary stack (depth + 1)) depth : Parse ε A _) := by
      rcases hdepth.lt_or_eq with h | rfl
      · exact fits_group (ih h (by omega)) depth
      · rw [group_limit le_rfl]
        exact fits_fail _
    rw [unary]
    refine fits_next.bind fun t => ?_
    split
    · exact hnegation
    · exact hgroup
    · exact .pure _
    all_goals exact fits_fail _

/-- Frames past those that are needed change nothing. -/
theorem unary_stack {stack stack' depth : ℕ} (hdepth : depth ≤ NESTING_LIMIT)
    (hstack : NESTING_LIMIT < stack + depth) (hstack' : NESTING_LIMIT < stack' + depth) :
    (unary stack depth : Parse ε A _) = unary stack' depth := by
  induction stack generalizing stack' depth with
  | zero => omega
  | succ stack ih =>
    obtain ⟨stack', rfl⟩ : ∃ n, stack' = n + 1 := ⟨stack' - 1, by omega⟩
    rw [unary, unary]
    rcases hdepth.lt_or_eq with h | rfl
    · have hunary : (unary stack (depth + 1) : Parse ε A _) = unary stack' (depth + 1) :=
        ih h (by omega) (by omega)
      rw [hunary]
    · simp only [negation_limit le_rfl, group_limit le_rfl]

/-! ## A whole query -/

theorem parse_ok {stack : ℕ} {tree : Node A} :
    (parse stack ts : Except (Failure ε) _) = .ok tree ↔
      (ts = [] ∧ .and [] = tree)
      ∨ (ts ≠ [] ∧ (expr (unary stack 0) .start : Parse ε A _) ts = .ok tree []) := by
  unfold parse
  by_cases hts : ts = []
  · simp [hts]
  · simp only [List.isEmpty_iff, hts, if_false, false_and, false_or, ne_eq, not_false_eq_true,
      true_and]
    split
    · rename_i h
      simp [h]
    · rename_i tree' rest h
      rw [h]
      by_cases hrest : rest = [] <;> simp [hrest]

/-- **A list of tokens is parsed into the tree the grammar gives it.** -/
theorem parse_iff {tree : Node A} :
    (parse (NESTING_LIMIT + 1) ts : Except (Failure ε) _) = .ok tree ↔
      Derived NESTING_LIMIT ts tree := by
  rw [parse_ok]
  constructor
  · rintro (⟨rfl, rfl⟩ | ⟨-, h⟩)
    · exact .empty
    · obtain ⟨_, _, rfl, rfl, hread⟩ := expr_sound (fun _ _ _ h => unary_sound _ h) h
      rw [append_nil]
      exact .expr hread
  · rintro (- | ⟨h⟩)
    · exact .inl ⟨rfl, rfl⟩
    · refine .inr ⟨?_, ?_⟩
      · obtain ⟨t, _, rfl, -⟩ := h.starts
        exact nofun
      · have hends : ends ([] : List (Token A)).head? = true := rfl
        have hdepth : NESTING_LIMIT + 0 ≤ NESTING_LIMIT := le_rfl
        have hexpr := (h.accepts (ε := ε) (Nat.lt_succ_self NESTING_LIMIT) hdepth).expr hends rfl
          .start
        rwa [append_nil] at hexpr

theorem parse_stack {stack : ℕ} (hstack : NESTING_LIMIT < stack) (ts : List (Token A)) :
    (parse stack ts : Except (Failure ε) _) = parse (NESTING_LIMIT + 1) ts := by
  unfold parse
  rw [unary_stack (Nat.zero_le _) hstack (Nat.lt_succ_self NESTING_LIMIT)]

theorem parse_fits (ts : List (Token A)) :
    (parse (NESTING_LIMIT + 1) ts : Except (Failure ε) _) ≠ .error .overflow := by
  unfold parse
  split
  · exact nofun
  · split
    · rename_i e rest h
      have hfits := fits_expr (fits_unary (ε := ε) (A := A) (Nat.zero_le _)
        (Nat.lt_succ_self NESTING_LIMIT)) .start _ _ _ h
      exact fun heq => hfits (by simpa using heq)
    · split <;> exact nofun

/-- **Boolean queries are parsed by their grammar.** A list of arguments is
accepted just when its tokens are derived, with at most so many NOTs and groups
nested, and its tree is the derived one; the recursion never needs more frames
than the limit and one. -/
theorem from_args_derives (host : Host ε A) (args : List Bytes) :
    (∀ tree, from_args host (NESTING_LIMIT + 1) args = .ok tree ↔
      ∃ tokens, lex host args = .ok tokens ∧ Derived NESTING_LIMIT tokens tree)
    ∧ from_args host (NESTING_LIMIT + 1) args ≠ .error .overflow
    ∧ ∀ stack, NESTING_LIMIT < stack →
      from_args host stack args = from_args host (NESTING_LIMIT + 1) args := by
  unfold from_args
  cases lex host args with
  | error e =>
    refine ⟨fun tree => ⟨fun h => (by cases h), ?_⟩, fun h => (by cases h), fun stack _ => rfl⟩
    rintro ⟨_, h, -⟩
    cases h
  | ok tokens =>
    refine ⟨fun tree => parse_iff.trans ⟨fun h => ⟨tokens, rfl, h⟩, ?_⟩, parse_fits tokens,
      fun stack hstack => parse_stack hstack tokens⟩
    rintro ⟨_, h, hderived⟩
    cases h
    exact hderived

end Ferret.Query
