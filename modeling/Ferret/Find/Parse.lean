import Ferret.Find.Primary

/-!
# Parsing a find command

Recursive descent in the order of precedence: comma, OR, AND, negation. The
source recurses through parentheses and negations, which it counts, and loops
over the operators of one level. Here the recursion is on the number of
levels still allowed, `depth`, so that the nesting the source allows can be
compared with the recursion it needs; the loops carry the arguments left as
their bound, since each round reads at least one.
-/

namespace Ferret.Find

def MAX_COMBINATORS : ℕ := 2000

/-- Parentheses and negations share this limit. -/
def MAX_NESTING : ℕ := 128

structure Parser where
  seen : Seen
  combinators : ℕ
  nesting : ℕ

abbrev Parse (α : Type) := EStateM ParseError Parser α

/-- Runs a reader on what the parser has seen. -/
def lift {α : Type} (read : Read α) : Parse α := fun p =>
  match read p.seen with
  | .ok a seen => .ok a { p with seen := seen }
  | .error e seen => .error e { p with seen := seen }

def combine : Parse Unit := do
  modify fun p => { p with combinators := p.combinators + 1 }
  if (← get).combinators > MAX_COMBINATORS then
    throw (.feature "expression has more than 2000 -a/-o/-not/, operators; split it up")

def nest : Parse Unit := do
  modify fun p => { p with nesting := p.nesting + 1 }
  if (← get).nesting > MAX_NESTING then
    throw (.feature "expression nesting exceeds 128 parentheses/negations; split it up")

/-- Runs a parser and leaves the nesting it was entered at, also when it
fails. -/
def unnest {α : Type} (inner : Parse α) : Parse α := fun p =>
  match inner p with
  | .ok a q => .ok a { q with nesting := q.nesting - 1 }
  | .error e q => .error e { q with nesting := q.nesting - 1 }

/-- The next argument, not read. -/
def peek : Parse (Option Arg) := do
  return (← get).seen.rest.head?

/-- Reads the next argument if it is one of `values`. -/
def consume (values : List Arg) : Parse Bool := fun p =>
  match p.seen.rest with
  | [] => .ok false p
  | next :: rest =>
    if next ∈ values then .ok true { p with seen := { p.seen with rest := rest } }
    else .ok false p

section

variable {τ φ : Type}

/-- The operators of one level, left associative. -/
def chainLoop (values : List Arg)
    (node : Expression τ φ → Expression τ φ → Expression τ φ)
    (next : Parse (Expression τ φ)) : ℕ → Expression τ φ → Parse (Expression τ φ)
  | 0, left => pure left
  | n + 1, left => do
    if ← consume values then
      combine
      let right ← next
      chainLoop values node next n (node left right)
    else return left

def chain (values : List Arg)
    (node : Expression τ φ → Expression τ φ → Expression τ φ)
    (next : Parse (Expression τ φ)) : Parse (Expression τ φ) := do
  let left ← next
  chainLoop values node next ((← get).seen.rest.length + 1) left

/-- Where an AND ends: it takes any other argument as one more operand. -/
def endsAnd (next : Option Arg) : Bool :=
  match next with
  | none => true
  | some arg => arg ∈ [word ")", word ",", word "-o", word "-or"]

def andLoop (unary : Parse (Expression τ φ)) :
    ℕ → Expression τ φ → Parse (Expression τ φ)
  | 0, left => pure left
  | n + 1, left => do
    if ← consume [word "-a", word "-and"] then
      combine
      let right ← unary
      andLoop unary n (.and left right)
    else if endsAnd (← peek) then return left
    else
      combine
      let right ← unary
      andLoop unary n (.and left right)

def and (unary : Parse (Expression τ φ)) : Parse (Expression τ φ) := do
  let left ← unary
  andLoop unary ((← get).seen.rest.length + 1) left

def or (unary : Parse (Expression τ φ)) : Parse (Expression τ φ) :=
  chain [word "-o", word "-or"] .or (and unary)

def comma (unary : Parse (Expression τ φ)) : Parse (Expression τ φ) :=
  chain [word ","] .comma (or unary)

/-- A primary, read off the next argument. -/
def operand (host : Host τ φ) : Parse (Expression τ φ) := fun p =>
  match p.seen.rest with
  | [] => .error (.expression none) p
  | word :: rest =>
    lift (primary host word) { p with seen := { p.seen with rest := rest } }

/-- A negation, a group or a primary, with `depth` levels of recursion. -/
def unary (host : Host τ φ) : ℕ → Parse (Expression τ φ)
  | 0 => throw (.feature "")
  | depth + 1 => do
    if ← consume [word "!", word "-not"] then
      combine
      nest
      let inner ← unnest (unary host depth)
      return .not inner
    if ← consume [word "("] then
      nest
      let inner ← unnest (comma (unary host depth))
      if ← consume [word ")"] then return inner
      throw (.expression (← peek))
    operand host

/-! ## A whole command -/

/-- A find command. -/
structure Plan (τ φ : Type) where
  expression : Expression τ φ
  paths : List Arg
  options : Options
  no_ignore : Bool
  unsupported : Option Arg
  warnings : List Warning
  message : Option String
  permission_warning : Bool
  local_time : Bool

/-- Whether some leaf of an expression satisfies `f`. -/
def Expression.visit (f : Expression τ φ → Bool) : Expression τ φ → Bool
  | .and left right => left.visit f || right.visit f
  | .or left right => left.visit f || right.visit f
  | .comma left right => left.visit f || right.visit f
  | .not inner => inner.visit f
  | leaf => f leaf

/-- Whether a leaf reads the local zone. -/
def readsZone (host : Host τ φ) : Expression τ φ → Bool
  | .test (.operand test) => host.daystart test
  | .action (.list _) => true
  | .action (.output _ format) => host.format_local_time format
  | _ => false

def Plan.needs_local_time (host : Host τ φ) (plan : Plan τ φ) : Bool :=
  plan.local_time || plan.expression.visit (readsZone host)

/-- What a finished parser makes of its expression. The implicit action wraps
the whole of it. -/
def finish (host : Host τ φ) (no_ignore : Bool) (paths : List Arg) (seen : Seen)
    (expression : Expression τ φ) : Except ParseError (Plan τ φ) :=
  if seen.rest ≠ [] then .error (.expression seen.rest.head?)
  else
    let expression := if seen.action then expression else .and expression (.print false)
    if seen.delete ∧ seen.prune ∧ ¬ seen.explicit_depth then
      .error (.feature "-delete implies -depth; -prune requires an explicit -depth option")
    else
      let plan : Plan τ φ :=
        { local_time := seen.local_time
          expression := expression
          paths := paths
          options := { seen.options with retain_parent := seen.delete, delete := seen.delete }
          no_ignore := no_ignore
          unsupported := seen.unsupported
          warnings := seen.warnings
          message := seen.message
          permission_warning := seen.permission_warning }
      match plan.needs_local_time host, host.zone with
      | true, some message => .error (.feature message)
      | _, _ => .ok plan

/-- The expression of the arguments left, and what has been seen after it. A
request for help stops the parse where it stands, and hides whatever was
wrong. -/
def expressionAt (host : Host τ φ) (depth : ℕ) (seen : Seen) :
    Except ParseError (Expression τ φ × Seen) :=
  if seen.rest = [] ∨ seen.message.isSome then .ok (.constant true, { seen with rest := [] })
  else
    match comma (unary host depth) { seen := seen, combinators := 0, nesting := 0 } with
    | .ok e p =>
      if p.seen.message.isSome then .ok (.constant true, { p.seen with rest := [] })
      else .ok (e, p.seen)
    | .error e p =>
      if p.seen.message.isSome then .ok (.constant true, { p.seen with rest := [] })
      else .error e

/-- The parse of a command, with `depth` levels of recursion. -/
def parseAt (host : Host τ φ) (depth : ℕ) (args : List Arg) : Except ParseError (Plan τ φ) :=
  match leading_options args false (Seen.new args) with
  | .error e _ => .error e
  | .ok no_ignore seen =>
    match paths seen with
    | .error e _ => .error e
    | .ok starts seen =>
      match expressionAt host depth seen with
      | .error e => .error e
      | .ok (expression, seen) => finish host no_ignore starts seen expression

def parse (host : Host τ φ) (args : List Arg) : Except ParseError (Plan τ φ) :=
  parseAt host (MAX_NESTING + 1) args

end

end Ferret.Find
