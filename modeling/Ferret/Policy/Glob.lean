import Ferret.Index.Bytes
import Mathlib.Data.List.Infix

/-!
# Component globs

The glob of one path component: compiled from a pattern's bytes, and matched
with the last-star retry loop. Slashes are split off before, so a component
has none, and a byte that a backslash escaped is only ever itself.

Positions in the source's arrays are the suffixes from them on. The loops are
given fuel by the length of what they read.
-/

namespace Ferret.Policy

/-- The byte of an ASCII character. -/
abbrev byte (c : Char) : UInt8 := c.toUInt8

/-- The bytes of an ASCII text. -/
abbrev ascii (s : String) : Bytes := s.toList.map byte

/-- One byte of a pattern, and whether a backslash came before it. -/
structure PatternByte where
  value : UInt8
  escaped : Bool
deriving DecidableEq

/-- Whether this is `value` with no backslash before it. -/
def PatternByte.is (b : PatternByte) (value : UInt8) : Bool :=
  !b.escaped && b.value == value

/-- Whether a part starts with an unescaped `value`. -/
def bare (part : List PatternByte) (value : UInt8) : Bool :=
  part.head?.any fun b => b.is value

inductive PosixClass where
  | alnum | alpha | blank | cntrl | digit | graph | lower | print | punct | space | upper | xdigit
deriving DecidableEq

namespace PosixClass

def all : List (String × PosixClass) :=
  [("alnum", .alnum), ("alpha", .alpha), ("blank", .blank), ("cntrl", .cntrl),
    ("digit", .digit), ("graph", .graph), ("lower", .lower), ("print", .print),
    ("punct", .punct), ("space", .space), ("upper", .upper), ("xdigit", .xdigit)]

def parse (name : Bytes) : Option PosixClass :=
  (all.find? fun entry => ascii entry.1 == name).map Prod.snd

/-- Whether a byte lies between two characters, both included. -/
def within (first last : Char) (b : UInt8) : Bool := byte first ≤ b && b ≤ byte last

end PosixClass

open PosixClass in
/-- ASCII classes as git has them: `space` leaves out the form feed. -/
def PosixClass.matches (c : PosixClass) (b : UInt8) : Bool :=
  match c with
  | alnum => within 'a' 'z' b || within 'A' 'Z' b || within '0' '9' b
  | alpha => within 'a' 'z' b || within 'A' 'Z' b
  | blank => b == 32 || b == 9
  | cntrl => b < 32 || b == 127
  | digit => within '0' '9' b
  | graph => within '!' '~' b
  | lower => within 'a' 'z' b
  | print => within '!' '~' b || b == 32
  | punct => within '!' '/' b || within ':' '@' b || within '[' '\x60' b || within '\x7b' '~' b
  | space => b == 32 || b == 9 || b == 10 || b == 13
  | upper => within 'A' 'Z' b
  | xdigit => within '0' '9' b || within 'a' 'f' b || within 'A' 'F' b

inductive ClassTerm where
  | byte (want : UInt8)
  | range (first last : UInt8)
  | posix (c : PosixClass)
deriving DecidableEq

def ClassTerm.matches (term : ClassTerm) (b : UInt8) : Bool :=
  match term with
  | .byte want => b == want
  | .range first last => first ≤ b && b ≤ last
  | .posix c => c.matches b

structure CharacterClass where
  negated : Bool
  terms : List ClassTerm
deriving DecidableEq

def CharacterClass.matches (c : CharacterClass) (b : UInt8) : Bool :=
  (c.terms.any fun term => term.matches b) != c.negated

/-- **One item of a glob.** A literal run is never empty. -/
inductive Atom where
  | literal (run : { bytes : Bytes // bytes ≠ [] })
  | any
  | star
  | oneOf (c : CharacterClass)
deriving DecidableEq

structure ComponentGlob where
  atoms : List Atom
deriving DecidableEq

/-- **One component of a pattern**: `**`, a glob, or one that nothing
matches. -/
inductive Component where
  | globstar (allow_zero : Bool)
  | glob (g : ComponentGlob)
  | never
deriving DecidableEq

/-- `?*`: every non-empty name. -/
def any_glob : ComponentGlob := ⟨[.any, .star]⟩

def normalize_star (g : ComponentGlob) : ComponentGlob :=
  if g.atoms = [.star] then any_glob else g

/-! ## Matching -/

/-- How many bytes an atom takes off the front of a text; `none` if the text
does not start with it, and for a star. -/
def Atom.consumes : Atom → Bytes → Option ℕ
  | .literal run, text => if run.val.isPrefixOf text then some run.val.length else none
  | .any, text => if text.isEmpty then none else some 1
  | .star, _ => none
  | .oneOf c, text => if text.head?.any c.matches then some 1 else none

namespace ComponentGlob

/-- The loop of `ComponentGlob.matches`: the atoms and the text still to be
matched, and after a star, what to go back to. `none` is fuel running out. -/
def matchLoop : ℕ → List Atom → Bytes → Option (List Atom × Bytes) → Option Bool
  | _, atoms, [], _ => some (atoms.dropWhile (· == .star)).isEmpty
  | 0, _, _ :: _, _ => none
  | fuel + 1, .star :: atoms, text@(_ :: _), _ => matchLoop fuel atoms text (some (atoms, text))
  | fuel + 1, atoms, text@(_ :: _), star =>
    match atoms.head?.bind (·.consumes text) with
    | some consumed => matchLoop fuel atoms.tail (text.drop consumed) star
    | none =>
      match star with
      | none => some false
      | some (_, []) => some false
      | some (after_star, _ :: retry) => matchLoop fuel after_star retry (some (after_star, retry))

/-- Rounds the loop never needs more than. -/
def fuel (g : ComponentGlob) (text : Bytes) : ℕ :=
  text.length * (g.atoms.length + 1) + g.atoms.length + 1

end ComponentGlob

/-- Whether the whole text matches. -/
def ComponentGlob.matches (g : ComponentGlob) (text : Bytes) : Bool :=
  (matchLoop (g.fuel text) g.atoms text none).getD false

def Component.matches : Component → Bytes → Bool
  | .globstar _, _ => true
  | .glob g, text => g.matches text
  | .never, _ => false

/-! ## The shapes that the index tells apart -/

def Atom.has_witness : Atom → Bool
  | .oneOf c => (List.range 256).any fun b => c.matches (UInt8.ofNat b)
  | _ => true

def Component.has_witness : Component → Bool
  | .globstar _ => true
  | .glob g => g.atoms.all Atom.has_witness
  | .never => false

def Atom.fixed_width : Atom → Option ℕ
  | .literal run => some run.val.length
  | .any => some 1
  | .oneOf _ => some 1
  | .star => none

/-- The literal runs of atoms that are all literal, joined. -/
def literal_runs : List Atom → Option Bytes
  | [] => some []
  | .literal run :: atoms => (literal_runs atoms).map (run.val ++ ·)
  | _ :: _ => none

def ComponentGlob.literal_bytes (g : ComponentGlob) : Option Bytes := literal_runs g.atoms

/-! ## Compiling -/

/-- Whose globs: an ignore file's, or the command line's. -/
inductive Syntax where
  | ignore
  | override
deriving DecidableEq

inductive ClassMember where
  | byte (b : PatternByte)
  | posix (c : PosixClass)
deriving DecidableEq

/-- The name of a `[:name:]` and what follows it. -/
def posix_name : List PatternByte → Option (List PatternByte × List PatternByte)
  | b :: c :: rest =>
    if b.is (byte ':') && c.is (byte ']') then some ([], rest)
    else (posix_name (c :: rest)).map fun (name, after) => (b :: name, after)
  | _ => none

/-- A class's members as terms, joining `a-z` into a range. `none` when an
override reverses a range; an ignore file keeps its first endpoint, as git
does. -/
def class_terms (s : Syntax) : List ClassMember → Option (List ClassTerm)
  | .byte first :: .byte hyphen :: .byte last :: rest =>
    if hyphen.is (byte '-') then
      if first.value ≤ last.value then
        (class_terms s rest).map (.range first.value last.value :: ·)
      else if s = .override then none
      else (class_terms s rest).map (.byte first.value :: ·)
    else (class_terms s (.byte hyphen :: .byte last :: rest)).map (.byte first.value :: ·)
  | .byte b :: rest => (class_terms s rest).map (.byte b.value :: ·)
  | .posix c :: rest => (class_terms s rest).map (.posix c :: ·)
  | [] => some []

/-- The members of a class up to its `]`, after those already read. -/
def class_members (s : Syntax) (negated : Bool) :
    ℕ → List ClassMember → List PatternByte → Option (CharacterClass × List PatternByte)
  | 0, _, _ => none
  | _ + 1, _, [] => none
  | fuel + 1, members, b :: rest =>
    if b.is (byte ']') then
      if members = [] then none
      else (class_terms s members).map fun terms => (⟨negated, terms⟩, rest)
    else if s = .ignore && b.is (byte '[') && bare rest (byte ':') then do
      let (name, after) ← posix_name rest.tail
      if name.any (·.escaped) then none
      else if members.getLast?.any (fun | .byte b => b.is (byte '-') | .posix _ => false) then
        -- After a range's hyphen git reads the token as raw bracket syntax:
        -- its first close bracket ends the class.
        if members.dropLast = [] then none
        else
          let terms := members.dropLast.filterMap fun
            | .byte b => some (ClassTerm.byte b.value)
            | .posix _ => none
          some (⟨negated, terms⟩, after)
      else
        let c ← PosixClass.parse (name.map (·.value))
        class_members s negated fuel (members ++ [.posix c]) after
    else class_members s negated fuel (members ++ [.byte b]) rest

/-- The class that starts a part, after its `[`, and what follows it. -/
def compile_class (s : Syntax) (part : List PatternByte) :
    Option (CharacterClass × List PatternByte) :=
  let negated := bare part (byte '!') || bare part (byte '^')
  let part := if negated then part.tail else part
  match part with
  | b :: rest =>
    if b.is (byte ']') then class_members s negated part.length [.byte b] rest
    else class_members s negated part.length [] part
  | [] => none

def flush_literal (atoms : List Atom) (literal : Bytes) : List Atom :=
  if h : literal ≠ [] then atoms ++ [.literal ⟨literal, h⟩] else atoms

/-- The loop of `compile_component`; `none` for a malformed class. -/
def compile_atoms (s : Syntax) : ℕ → List Atom → Bytes → List PatternByte → Option (List Atom)
  | _, atoms, literal, [] => some (flush_literal atoms literal)
  | 0, _, _, _ :: _ => none
  | fuel + 1, atoms, literal, b :: rest =>
    if b.escaped then compile_atoms s fuel atoms (literal ++ [b.value]) rest
    else if b.value = byte '*' then
      let atoms := flush_literal atoms literal
      compile_atoms s fuel (if atoms.getLast? = some .star then atoms else atoms ++ [.star]) [] rest
    else if b.value = byte '?' then
      compile_atoms s fuel (flush_literal atoms literal ++ [.any]) [] rest
    else if b.value = byte '[' then do
      let (c, rest) ← compile_class s rest
      compile_atoms s fuel (flush_literal atoms literal ++ [.oneOf c]) [] rest
    else compile_atoms s fuel atoms (literal ++ [b.value]) rest

/-- **One component.** Only an anchored pattern has globstars. Git silently
makes a malformed class unable to match. -/
def compile_component (part : List PatternByte) (anchored : Bool) (s : Syntax) : Component :=
  if anchored && 2 ≤ part.length && part.all (·.is (byte '*')) then .globstar true
  else if part = [] then .never
  else
    match compile_atoms s part.length [] [] part with
    | none => .never
    | some atoms => .glob ⟨atoms⟩

end Ferret.Policy
