import Ferret.Find.Primary
import Ferret.Lib.Wildcard

/-!
# The patterns of `-name`

`-name`, `-path`, `-lname` and their forms that ignore case take a pattern as
`fnmatch` does in the C locale: `*` spans anything, `?` one byte, a bracket
expression one of some bytes, a backslash quotes what follows it.

A pattern is compiled to tokens once (`compile`), and a text is scanned for
them without allocating (`Pattern.scan`): the tokens after a star are tried
where it stands, and where they fail the last star takes one byte more. A
pattern that begins with its only star is compared with the end of the text
instead.

Positions of the source are suffixes here. A set of bytes is a function.
-/

namespace Ferret.Find

open Ferret.Lib

/-- A set of bytes. -/
abbrev ByteSet := UInt8 → Bool

inductive Token
  | literal (b : UInt8)
  | any
  | star
  | class (set : ByteSet)
  | never

/-! ## Bytes -/

def to_ascii_lowercase (b : UInt8) : UInt8 := if 65 ≤ b ∧ b ≤ 90 then b + 32 else b

def to_ascii_uppercase (b : UInt8) : UInt8 := if 97 ≤ b ∧ b ≤ 122 then b - 32 else b

def is_ascii_uppercase (b : UInt8) : Bool := 65 ≤ b && b ≤ 90

def is_ascii_lowercase (b : UInt8) : Bool := 97 ≤ b && b ≤ 122

def is_ascii_alphabetic (b : UInt8) : Bool := is_ascii_uppercase b || is_ascii_lowercase b

def is_ascii_alphanumeric (b : UInt8) : Bool := is_ascii_alphabetic b || digit b

def is_ascii_control (b : UInt8) : Bool := b ≤ 31 || b == 127

def is_ascii_graphic (b : UInt8) : Bool := 33 ≤ b && b ≤ 126

def is_ascii_punctuation (b : UInt8) : Bool :=
  33 ≤ b && b ≤ 47 || 58 ≤ b && b ≤ 64 || 91 ≤ b && b ≤ 96 || 123 ≤ b && b ≤ 126

def is_ascii_hexdigit (b : UInt8) : Bool :=
  digit b || 65 ≤ b && b ≤ 70 || 97 ≤ b && b ≤ 102

/-- A named class of the C locale. -/
def classOf (name : Arg) : Option ByteSet :=
  if name = word "alnum" then some is_ascii_alphanumeric
  else if name = word "alpha" then some is_ascii_alphabetic
  else if name = word "blank" then some fun b => b == 32 || b == 9
  else if name = word "cntrl" then some is_ascii_control
  else if name = word "digit" then some digit
  else if name = word "graph" then some is_ascii_graphic
  else if name = word "lower" then some is_ascii_lowercase
  else if name = word "print" then some fun b => is_ascii_graphic b || b == 32
  else if name = word "punct" then some is_ascii_punctuation
  else if name = word "space" then some fun b => b == 32 || 9 ≤ b && b ≤ 13
  else if name = word "upper" then some is_ascii_uppercase
  else if name = word "xdigit" then some is_ascii_hexdigit
  else none

/-! ## Bracket expressions -/

inductive BracketAtom
  | single (b : UInt8) (case_sensitive : Bool)
  | class (members : ByteSet)
  | invalid

/-- The bytes before the first pair of a delimiter and `]`, and those after it. -/
def upTo (delimiter : UInt8) : Arg → Option (Arg × Arg)
  | [] => none
  | [_] => none
  | b :: c :: rest =>
    if b = delimiter ∧ c = 93 then some ([], rest)
    else (upTo delimiter (c :: rest)).map fun (name, after) => (b :: name, after)

/-- What stands between a pair of delimiters. -/
def delimitedAtom (delimiter : UInt8) (name : Arg) : BracketAtom :=
  if delimiter = 58 then
    match classOf name with
    | some members => .class members
    | none => .invalid
  else
    match name with
    | [literal] => .single literal true
    | _ => .invalid

/-- One atom of a bracket expression, and the bytes after it. -/
def bracket_atom : Arg → Option (BracketAtom × Arg)
  | [] => none
  | [byte] => if byte = 92 then none else some (.single byte false, [])
  | byte :: next :: rest =>
    if byte = 91 ∧ (word ":=.").contains next = true then
      (upTo next rest).map fun (name, after) => (delimitedAtom next name, after)
    else if byte = 92 then some (.single next false, rest)
    else some (.single byte false, next :: rest)

/-- The bytes of a range. -/
def rangeSet (fold : Bool) (first last : UInt8) : ByteSet := fun value =>
  let lower (b : UInt8) : UInt8 := if fold then to_ascii_lowercase b else b
  lower first ≤ lower value && lower value ≤ lower last

/-- The bytes of one atom that is no class. -/
def singleSet (fold : Bool) (first : UInt8) (case_sensitive : Bool) : ByteSet := fun value =>
  value == first || (fold && !case_sensitive) &&
    (value == to_ascii_lowercase first || value == to_ascii_uppercase first)

/-- Whether a `-` with an endpoint follows: not one before the closing `]`. -/
def rangeFollows : Arg → Bool
  | dash :: next :: _ => dash == 45 && next != 93
  | _ => false

/-- The members of a bracket expression up to its `]`: the set, whether all of
them were valid, and the bytes after it. -/
def bracketMembers (fold : Bool) : ℕ → Bool → ByteSet → Bool → Arg → Option (ByteSet × Bool × Arg)
  | 0, _, _, _, _ => none
  | _ + 1, _, _, _, [] => none
  | fuel + 1, first, set, valid, byte :: rest =>
    if byte = 93 ∧ first = false then some (set, valid, rest)
    else
      match bracket_atom (byte :: rest) with
      | none => none
      | some (.single b case_sensitive, after) =>
        if rangeFollows after then
          match bracket_atom after.tail with
          | none => none
          | some (.single last _, after') =>
            bracketMembers fold fuel false (fun v => set v || rangeSet fold b last v) valid after'
          | some (_, after') => bracketMembers fold fuel false set false after'
        else
          bracketMembers fold fuel false (fun v => set v || singleSet fold b case_sensitive v)
            valid after
      | some (.class members, after) =>
        bracketMembers fold fuel false (fun v => set v || members v) valid after
      | some (.invalid, after) => bracketMembers fold fuel false set false after

/-- Whether a bracket expression is negated, and its members. -/
def negation : Arg → Bool × Arg
  | [] => (false, [])
  | b :: rest => if (word "!^").contains b then (true, rest) else (false, b :: rest)

/-- A bracket expression after its `[`: its set and the bytes after it. -/
def bracket (bytes : Arg) (fold : Bool) : Option (ByteSet × Arg) :=
  let (negate, body) := negation bytes
  (bracketMembers fold (body.length + 1) true (fun _ => false) true body).map
    fun (set, valid, after) =>
      (fun v => if valid then if negate then !set v else set v else false, after)

/-! ## Patterns -/

def compileFrom (fold : Bool) : ℕ → Arg → List Token
  | _, [] => []
  | 0, _ :: _ => []
  | fuel + 1, byte :: rest =>
    if byte = 42 then .star :: compileFrom fold fuel rest
    else if byte = 63 then .any :: compileFrom fold fuel rest
    else if byte = 92 then
      match rest with
      | literal :: rest => .literal literal :: compileFrom fold fuel rest
      | [] => [.never]
    else if byte = 91 then
      match bracket rest fold with
      | some (set, after) => .class set :: compileFrom fold fuel after
      | none => .literal 91 :: compileFrom fold fuel rest
    else .literal byte :: compileFrom fold fuel rest

def compile (pattern : Arg) (fold : Bool) : List Token := compileFrom fold pattern.length pattern

def Token.isStar : Token → Bool
  | star => true
  | _ => false

def token_matches (fold : Bool) : Token → UInt8 → Bool
  | .literal want, byte =>
    if fold then to_ascii_lowercase want == to_ascii_lowercase byte else want == byte
  | .any, _ => true
  | .class set, byte => set byte
  | .never, _ => false
  | .star, _ => false

structure Pattern where
  tokens : List Token
  fold : Bool
  suffix : Bool

def Pattern.new (pattern : Arg) (fold : Bool) : Pattern :=
  let tokens := compile pattern fold
  { tokens := tokens
    fold := fold
    suffix :=
      match tokens with
      | .star :: rest => rest.all fun t => !t.isStar
      | _ => false }

/-! ## Matching -/

/-- Where a scan is: the next token and byte, and where the last star resumes
with what it has consumed. -/
structure Cursor where
  token : ℕ
  byte : ℕ
  star : Option (ℕ × ℕ)

/-- One turn of a scan ends it or goes on. -/
inductive Turn
  | more (c : Cursor)
  | done (found : Bool)

/-- The last star takes one byte more. -/
def Cursor.retry (text : Arg) (c : Cursor) : Turn :=
  match c.star with
  | some (resume, consumed) =>
    if consumed < text.length then .more ⟨resume, consumed + 1, some (resume, consumed + 1)⟩
    else .done false
  | none => .done false

def Pattern.turn (p : Pattern) (text : Arg) (c : Cursor) : Turn :=
  match p.tokens[c.token]? with
  | some .star => .more ⟨c.token + 1, c.byte, some (c.token + 1, c.byte)⟩
  | some atom =>
    if text[c.byte]?.any (token_matches p.fold atom) then .more ⟨c.token + 1, c.byte + 1, c.star⟩
    else c.retry text
  | none => if c.byte = text.length then .done true else c.retry text

/-- Some turns of a scan, and what it found if it ended. -/
def Pattern.scan (p : Pattern) (text : Arg) : ℕ → Cursor → Option Bool
  | 0, _ => none
  | turns + 1, c =>
    match p.turn text c with
    | .more c' => p.scan text turns c'
    | .done found => some found

/-- Whether a text matches, if the scan ends in some turns. -/
def Pattern.matches (p : Pattern) (turns : ℕ) (text : Arg) : Option Bool :=
  if p.suffix then
    let suffix := p.tokens.tail
    if text.length < suffix.length then some false
    else some ((suffix.zip (text.drop (text.length - suffix.length))).all
      fun (token, byte) => token_matches p.fold token byte)
  else p.scan text turns ⟨0, 0, none⟩

/-- The tokens as they span a text. -/
def wildcard (fold : Bool) : Wildcard Token UInt8 where
  star := Token.isStar
  accepts := token_matches fold

/-- **The language specification** of the source's tests: a table with one row
a token. -/
def reference (p : Pattern) (text : Arg) : Bool :=
  (wildcard p.fold).reaches text p.tokens text.length

end Ferret.Find
