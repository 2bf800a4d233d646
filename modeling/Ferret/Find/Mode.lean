import Ferret.Find.Number

/-!
# The modes of `-perm`

`-perm` takes a mode as `chmod` does: octal digits, or clauses between commas,
each some classes – the user, the group, the others – and operations on their
permissions. GNU find applies them to a file without permissions, once as to a
plain file and once as to a directory, since `X` makes a difference there.

`parse_mode` reads a mode in one pass over its bytes and keeps two results:
the bits, and the ones a directory has besides. `Chmod` is what the clauses
mean, change by change on the mode built so far.

The two are one except in three places. A copied class adds nothing in
`parse_mode`, whatever the mode has; an `X` never counts for a plain file,
although it does once something of the mode is executable; and a `t` counts in
every class, where `chmod` has it in that of the others.
-/

namespace Ferret.Find

/-- Permission bits. -/
abbrev Bits := BitVec 32

/-! ## Reading a mode -/

/-- The operators of a clause. -/
def isOperator (b : UInt8) : Bool := (word "+-=").contains b

/-- The bits of the classes `who`, one permission of each. -/
def classBits (who : Arg) (u g o : Bits) : Bits :=
  who.foldl (fun acc w => acc ||| if w = 117 then u else if w = 103 then g else o) 0

/-- The bits that letters after an operator stand for, those of `X` apart. -/
def permBits (who : Arg) : Arg → Bits × Bits → Option (Bits × Bits)
  | [], acc => some acc
  | c :: perms, (bits, xbits) =>
    if c = 114 then permBits who perms (bits ||| classBits who 0o400 0o040 0o004, xbits)
    else if c = 119 then permBits who perms (bits ||| classBits who 0o200 0o020 0o002, xbits)
    else if c = 120 then permBits who perms (bits ||| classBits who 0o100 0o010 0o001, xbits)
    else if c = 88 then permBits who perms (bits, xbits ||| classBits who 0o100 0o010 0o001)
    else if c = 115 then permBits who perms (bits ||| classBits who 0o4000 0o2000 0, xbits)
    else if c = 116 then permBits who perms (bits ||| 0o1000, xbits)
    -- copying a class adds nothing
    else if (word "ugo").contains c then permBits who perms (bits, xbits)
    else none

/-- One operator, on the mode and what a directory has besides. -/
def applyOperator (selected : Bits) (op : UInt8) (bits xbits : Bits) (modes : Bits × Bits) :
    Bits × Bits :=
  if op = 43 then (modes.1 ||| bits, modes.2 ||| xbits)
  else if op = 45 then (modes.1 &&& ~~~(bits ||| xbits), modes.2 &&& ~~~(bits ||| xbits))
  else ((modes.1 &&& ~~~selected) ||| bits, (modes.2 &&& ~~~selected) ||| xbits)

/-- The operators of one clause, each with the letters up to the next. -/
def parseOperators (who : Arg) : ℕ → Arg → Bits × Bits → Option (Bits × Bits)
  | _, [], modes => some modes
  | 0, _ :: _, _ => none
  | fuel + 1, op :: tail, modes =>
    match permBits who (tail.takeWhile fun b => !isOperator b) (0, 0) with
    | none => none
    | some (bits, xbits) =>
      parseOperators who fuel (tail.dropWhile fun b => !isOperator b)
        (applyOperator (classBits who 0o4700 0o2070 0o1007) op bits xbits modes)

def parseClause (modes : Bits × Bits) (clause : Arg) : Option (Bits × Bits) :=
  let who := clause.takeWhile fun b => !isOperator b
  let rest := clause.dropWhile fun b => !isOperator b
  if rest = [] then none
  else if ¬ who.all (word "ugoa").contains then none
  else
    let who := if who = [] ∨ who.contains 97 then word "ugo" else who
    parseOperators who rest.length rest modes

/-- The number that octal digits denote. -/
def octalValue (bytes : Arg) : ℕ := bytes.foldl (fun n b => 8 * n + (b.toNat - 48)) 0

/-- The mode, and what a directory has besides. -/
def parse_mode (bytes : Arg) : Option (Bits × Bits) :=
  if bytes = [] then none
  else if bytes.all (fun b => 48 ≤ b && b ≤ 55) then
    if octalValue bytes ≤ 0o7777 then some (BitVec.ofNat 32 (octalValue bytes), 0) else none
  else (splitOn 44 bytes).foldlM parseClause (0, 0)

/-- The mode after a `-` or `/`, which say how to compare. -/
def modeOperand : Arg → Arg
  | [] => []
  | b :: rest => if (word "-/").contains b then rest else b :: rest

/-! ## What a mode means -/

namespace Chmod

inductive Class
  | user
  | group
  | other
deriving DecidableEq

/-- The letters before an operator. -/
inductive Who
  | only (c : Class)
  | all
deriving DecidableEq

inductive Sign
  | plus
  | minus
  | equal
deriving DecidableEq

inductive Letter
  | r
  | w
  | x
  | X
  | s
  | t
deriving DecidableEq

/-- What follows an operator. -/
inductive What
  | letters (letters : List Letter)
  | copy (source : Class)
deriving DecidableEq

/-- One clause. -/
structure Clause where
  who : List Who
  changes : List (Sign × What)
deriving DecidableEq

/-- One operator with the classes it is for. -/
structure Change where
  classes : List Class
  sign : Sign
  what : What
deriving DecidableEq

def Class.letter : Class → UInt8
  | user => 117
  | group => 103
  | other => 111

def Who.letter : Who → UInt8
  | only c => c.letter
  | all => 97

/-- The class of a letter that has one. -/
def Who.class? : Who → Option Class
  | only c => some c
  | all => none

def Sign.letter : Sign → UInt8
  | plus => 43
  | minus => 45
  | equal => 61

def Letter.letter : Letter → UInt8
  | r => 114
  | w => 119
  | x => 120
  | X => 88
  | s => 115
  | t => 116

def What.text : What → Arg
  | letters ls => ls.map Letter.letter
  | copy source => [source.letter]

def Clause.text (clause : Clause) : Arg :=
  clause.who.map Who.letter ++
    clause.changes.flatMap fun change => change.1.letter :: change.2.text

/-- The classes of a clause: all of them without a letter or with `a`. -/
def Clause.classes (clause : Clause) : List Class :=
  if clause.who = [] ∨ .all ∈ clause.who then [.user, .group, .other]
  else clause.who.filterMap Who.class?

def Clause.program (clause : Clause) : List Change :=
  clause.changes.map fun change => ⟨clause.classes, change.1, change.2⟩

/-- The bits of a class, its permissions and the bit that goes with them. -/
def Class.mask : Class → Bits
  | user => 0o4700
  | group => 0o2070
  | other => 0o1007

/-- The permissions a class has in a mode, as those of the others. -/
def Class.permissions (mode : Bits) : Class → Bits
  | user => mode >>> 6 &&& 0o7
  | group => mode >>> 3 &&& 0o7
  | other => mode &&& 0o7

/-- The bits that one of some sets has. -/
def union {α : Type} (f : α → Bits) (l : List α) : Bits := l.foldr (fun a acc => f a ||| acc) 0

/-- The bits of the classes selected. -/
def selected (classes : List Class) : Bits := union Class.mask classes

/-- The bits of a letter in every class. `X` asks for a directory, or for
something executable in the mode so far. -/
def Letter.bits (directory : Bool) (mode : Bits) : Letter → Bits
  | r => 0o444
  | w => 0o222
  | x => 0o111
  | X => if directory = true ∨ mode &&& 0o111 ≠ 0 then 0o111 else 0
  | s => 0o6000
  | t => 0o1000

/-- The bits of what follows an operator in every class. -/
def What.bits (directory : Bool) (mode : Bits) : What → Bits
  | letters ls => union (Letter.bits directory mode) ls
  | copy source =>
    let p := source.permissions mode
    p <<< 6 ||| p <<< 3 ||| p

/-- **One change of a mode**, in the bits of its classes. -/
def Change.apply (directory : Bool) (mode : Bits) (change : Change) : Bits :=
  let value := change.what.bits directory mode &&& selected change.classes
  match change.sign with
  | .plus => mode ||| value
  | .minus => mode &&& ~~~value
  | .equal => (mode &&& ~~~selected change.classes) ||| value

/-- The mode after some changes. -/
def run (directory : Bool) (program : List Change) (mode : Bits) : Bits :=
  program.foldl (Change.apply directory) mode

/-- A mode as it is written. -/
inductive Written
  | octal (digits : Arg)
  | symbolic (clauses : List Clause)
deriving DecidableEq

/-- What is written says the mode. -/
def Written.Spells (bytes : Arg) : Written → Prop
  | octal digits => bytes = digits ∧ digits ≠ [] ∧
      digits.all (fun b => 48 ≤ b && b ≤ 55) = true ∧ octalValue digits ≤ 0o7777
  | symbolic clauses => splitOn 44 bytes = clauses.map Clause.text ∧
      ∀ clause ∈ clauses, clause.changes ≠ []

/-- **The mode written**, at a directory or another file without permissions. -/
def Written.mode (directory : Bool) : Written → Bits
  | octal digits => BitVec.ofNat 32 (octalValue digits)
  | symbolic clauses => run directory (clauses.flatMap Clause.program) 0

end Chmod

end Ferret.Find
