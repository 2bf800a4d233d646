import Ferret.Lib.Stateful
import Ferret.Index.Bytes

/-!
# Boolean queries

A query is a list of arguments, each an operator or an atom. `from_args` lexes
them and parses the tokens by recursive descent: OR over AND over unary. The
source recurses through NOT and parentheses with a depth it carries along and
checks against a limit; here that recursion is on a stack of frames, which
overflows when none is left, so that the limit can be compared with the stack
it needs. The loops carry the tokens left as their bound, since each round
reads at least one.
-/

namespace Ferret.Query

/-- Bounds NOT and parentheses together. -/
def NESTING_LIMIT : ℕ := 32

inductive Node (L : Type)
  | leaf (l : L)
  | and (all : List (Node L))
  | or (any : List (Node L))
  | not (inner : Node L)

/-- One argument, lexed. -/
inductive Token (A : Type)
  | and
  | or
  | not
  | open_
  | close
  | atom (a : A)
deriving DecidableEq

/-- Why arguments are not a query, apart from what is wrong with one atom. -/
inductive ParseError (ε : Type)
  | nul (arg : Bytes)
  | embeddedOperator (arg : String)
  | atom (e : ε)
  | dangling (operator : String)
  | unclosed
  | unopened
  | emptyGroup
  | nesting (limit : ℕ)
deriving DecidableEq

/-- How a parse fails: by its own error, or for want of a frame. -/
inductive Failure (ε : Type)
  | parse (e : ParseError ε)
  | overflow
deriving DecidableEq

/-! ## Lexing -/

def is_ascii_whitespace (b : UInt8) : Bool :=
  b ∈ [(9 : UInt8), 10, 12, 13, 32]

def to_ascii_lowercase (b : UInt8) : UInt8 :=
  if 65 ≤ b.toNat ∧ b.toNat ≤ 90 then b + 32 else b

def eq_ignore_ascii_case (a b : Bytes) : Bool :=
  a.map to_ascii_lowercase == b.map to_ascii_lowercase

/-- The bytes of an ASCII word. -/
def ascii (s : String) : Bytes := s.toList.map fun c => c.toNat.toUInt8

/-- The words of an argument. -/
def words (arg : Bytes) : List Bytes :=
  (arg.splitOnP is_ascii_whitespace).filter fun w => !w.isEmpty

def PREFIXES : List Bytes :=
  [ascii "case:", ascii "name:", ascii "name-term:", ascii "re:", ascii "ext:", ascii "path:",
    ascii "size:", ascii "mtime:", ascii "type:", ascii "text:", ascii "content:", ascii "grep:"]

/-- An operator word alone is valid phrase content; a later atom prefix tells
an embedded query. -/
def embedded_operator (arg : Bytes) : Bool :=
  (words arg).any (fun w =>
    [ascii "AND", ascii "OR", ascii "NOT"].any fun op => eq_ignore_ascii_case w op)
  && ((words arg).drop 1).any fun w => PREFIXES.any fun p => p.isPrefixOf w

/-- What the atoms are made of: their parser, which is given an atom, whether
it folds case and the whole argument, and the lossy decoding of an argument. -/
structure Host (ε A : Type) where
  parse_atom : Bytes → Bool → Bytes → Except ε A
  from_utf8_lossy : Bytes → String

section

variable {ε A : Type}

/-- The token of an argument. -/
def lex_arg (host : Host ε A) (arg : Bytes) : Except (ParseError ε) (Token (Bool × A)) :=
  if 0 ∈ arg then .error (.nul arg)
  else if embedded_operator arg then .error (.embeddedOperator (host.from_utf8_lossy arg))
  else if eq_ignore_ascii_case arg (ascii "AND") then .ok .and
  else if eq_ignore_ascii_case arg (ascii "OR") then .ok .or
  else if eq_ignore_ascii_case arg (ascii "NOT") then .ok .not
  else if arg = ascii "(" then .ok .open_
  else if arg = ascii ")" then .ok .close
  else
    let (fold, atom) := if (ascii "case:").isPrefixOf arg then (false, arg.drop 5) else (true, arg)
    match host.parse_atom atom fold arg with
    | .ok a => .ok (.atom (fold, a))
    | .error e => .error (.atom e)

def lex (host : Host ε A) (args : List Bytes) :
    Except (ParseError ε) (List (Token (Bool × A))) :=
  args.mapM (lex_arg host)

/-! ## Parsing -/

abbrev Parse (ε A α : Type) := EStateM (Failure ε) (List (Token A)) α

def fail {α : Type} (e : ParseError ε) : Parse ε A α := throw (.parse e)

/-- The next token, not read. -/
def peek : Parse ε A (Option (Token A)) := fun ts => .ok ts.head? ts

/-- Reads the next token. -/
def next : Parse ε A (Option (Token A)) := fun ts => .ok ts.head? ts.tail

/-- What came just before an AND: where an empty one is an error, and which. -/
inductive After
  | start
  | or
  | open_
deriving DecidableEq

/-- Where an AND ends. -/
def ends : Option (Token A) → Bool
  | none | some .or | some .close => true
  | _ => false

/-- Where an operator has nothing on its right. -/
def dangles : Option (Token A) → Bool
  | none | some .and | some .or | some .close => true
  | _ => false

def is_and : Option (Token A) → Bool
  | some .and => true
  | _ => false

def is_or : Option (Token A) → Bool
  | some .or => true
  | _ => false

def one_or (nodes : List (Node A)) (many : List (Node A) → Node A) : Node A :=
  match nodes with
  | [node] => node
  | nodes => many nodes

/-- The operands of an AND. -/
def andLoop (unary : Parse ε A (Node A)) : ℕ → List (Node A) → Parse ε A (List (Node A))
  | 0, all => return all
  | n + 1, all => do
    if ends (← peek) then return all
    if is_and (← peek) then
      let _ ← next
      if all.isEmpty || dangles (← peek) then fail (.dangling "AND")
    let node ← unary
    andLoop unary n (all ++ [node])

/-- What an AND without operands is an error for. -/
def missing (after : After) : Option (Token A) → ParseError ε
  | some .or => .dangling "OR"
  | _ =>
    match after with
    | .or => .dangling "OR"
    | .open_ => .emptyGroup
    | .start => .unopened

def and (unary : Parse ε A (Node A)) (after : After) : Parse ε A (Node A) := do
  let all ← andLoop unary (← get).length []
  if all.isEmpty then fail (missing after (← peek))
  return one_or all .and

/-- The alternatives of an OR after its first. -/
def orLoop (and : Parse ε A (Node A)) : ℕ → List (Node A) → Parse ε A (List (Node A))
  | 0, any => return any
  | n + 1, any => do
    if is_or (← peek) then
      let _ ← next
      let node ← and
      orLoop and n (any ++ [node])
    else return any

def alternatives (unary : Parse ε A (Node A)) (after : After) : Parse ε A (List (Node A)) := do
  let first ← and unary after
  orLoop (and unary .or) (← get).length [first]

def expr (unary : Parse ε A (Node A)) (after : After) : Parse ε A (Node A) := do
  let any ← alternatives unary after
  return one_or any .or

/-- What follows a NOT, `inner` being a unary one level down. -/
def negation (inner : Parse ε A (Node A)) (depth : ℕ) : Parse ε A (Node A) := do
  if NESTING_LIMIT ≤ depth then fail (.nesting NESTING_LIMIT)
  if dangles (← peek) then fail (.dangling "NOT")
  let node ← inner
  return .not node

/-- The end of a group. -/
def close (node : Node A) : Option (Token A) → Parse ε A (Node A)
  | some .close => return node
  | _ => fail .unclosed

/-- What follows a `(`, `inner` being a unary one level down. -/
def group (inner : Parse ε A (Node A)) (depth : ℕ) : Parse ε A (Node A) := do
  if NESTING_LIMIT ≤ depth then fail (.nesting NESTING_LIMIT)
  let node ← expr inner .open_
  close node (← next)

/-- A negation, a group or an atom, with `stack` frames left for it. -/
def unary : ℕ → ℕ → Parse ε A (Node A)
  | 0, _ => throw .overflow
  | stack + 1, depth => do
    match ← next with
    | some .not => negation (unary stack (depth + 1)) depth
    | some .open_ => group (unary stack (depth + 1)) depth
    | some (.atom a) => return .leaf a
    | some .and => fail (.dangling "AND")
    | some .or | some .close | none => fail .unopened

/-- Parses lexed arguments. No arguments are the empty conjunction. -/
def parse (stack : ℕ) (tokens : List (Token A)) : Except (Failure ε) (Node A) :=
  if tokens.isEmpty then .ok (.and [])
  else
    match expr (unary stack 0) .start tokens with
    | .error e _ => .error e
    | .ok tree rest => if rest.isEmpty then .ok tree else .error (.parse .unopened)

/-- The tree of a list of arguments. -/
def from_args (host : Host ε A) (stack : ℕ) (args : List Bytes) :
    Except (Failure ε) (Node (Bool × A)) :=
  match lex host args with
  | .error e => .error (.parse e)
  | .ok tokens => parse stack tokens

end

end Ferret.Query
