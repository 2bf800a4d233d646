import Mathlib.Data.List.Basic
import Mathlib.Algebra.Order.Ring.Nat

/-!
# The primaries of a find command

A find command is a list of arguments. After some leading options and the
start paths comes an expression, whose words are operators and primaries; a
primary takes the operands that follow it, whatever they look like. Reading
one changes what later primaries mean: `-regextype` selects the dialect of
the patterns after it, `-daystart` the day a time counts from, `-follow` the
links `-samefile` looks through. `Seen` is that state, with the arguments not
yet read.

What an operand of a test means is decided elsewhere, some of it by files of
the host – the users, the zone, the reference of `-newer`. `Host` has one
function for each of these readers, and nothing here depends on what they
answer.
-/

namespace Ferret.Find

/-- One argument, as the bytes it holds. -/
abbrev Arg := List UInt8

/-- Arguments are looked up by their bytes. -/
scoped instance instLawfulBEqArg : LawfulBEq Arg := inferInstance

/-- The bytes of an ASCII word. -/
def word (s : String) : Arg := s.toList.map fun c => c.toNat.toUInt8

/-- Whether an argument starts with a word. -/
def Arg.starts (arg : Arg) (s : String) : Bool := (word s).isPrefixOf arg

/-- Whether an argument ends with a word. -/
def Arg.ends (arg : Arg) (s : String) : Bool := (word s).isSuffixOf arg

inductive Follow
  | physical
  | roots
  | all
deriving DecidableEq

inductive FileKind
  | file
  | directory
  | symlink
  | fifo
  | socket
  | block
  | character
deriving DecidableEq

/-- The syntax a `-regex` is read in. -/
inductive Dialect
  | emacs
  | basic
  | grep
  | egrep
  | minimalBasic
  | extended
  | awk
  | posixAwk
  | gnuAwk
deriving DecidableEq

def Dialect.from_name (name : Arg) : Option Dialect :=
  if name = word "emacs" ∨ name = word "findutils-default" then some emacs
  else if name = word "posix-basic" ∨ name = word "sed" ∨ name = word "ed" then some basic
  else if name = word "grep" then some grep
  else if name = word "egrep" ∨ name = word "posix-egrep" then some egrep
  else if name = word "posix-minimal-basic" then some minimalBasic
  else if name = word "posix-extended" then some extended
  else if name = word "awk" then some awk
  else if name = word "posix-awk" then some posixAwk
  else if name = word "gnu-awk" then some gnuAwk
  else none

inductive Access
  | read
  | write
  | exec
deriving DecidableEq

/-- Where an output primary writes. Targets of one path share a cell. -/
inductive Target
  | stdout
  | file (path : Arg) (cell : ℕ)
deriving DecidableEq

structure Exec where
  id : ℕ
  args : List Arg
  batch : Bool
  directory : Bool
  prompt : Bool
deriving DecidableEq

inductive Action (φ : Type)
  | exec (exec : Exec)
  | delete
  | output (target : Target) (format : φ)
  | list (target : Target)
deriving DecidableEq

/-- A test of one entry. The operands the host reads are opaque. -/
inductive Test (τ : Type)
  | operand (value : τ)
  | link (pattern : Arg) (fold : Bool)
  | xtype (kinds : List FileKind)
  | user (id : ℕ)
  | group (id : ℕ)
  | empty
  | access (mode : Access)
  | nouser
  | nogroup
  | fstype (name : Arg)
  | samefile (path : Arg) (follow : Bool)
deriving DecidableEq

inductive Expression (τ φ : Type)
  | and (left right : Expression τ φ)
  | or (left right : Expression τ φ)
  | comma (left right : Expression τ φ)
  | not (inner : Expression τ φ)
  | name (pattern : Arg) (fold : Bool)
  | path (pattern : Arg) (fold : Bool)
  | type (kinds : List FileKind)
  | constant (value : Bool)
  | print (nul : Bool)
  | prune
  | quit
  | action (action : Action φ)
  | test (test : Test τ)
deriving DecidableEq

/-- Invalid find syntax. -/
inductive ParseError
  | unknown (primary : Arg)
  | feature (message : String)
  | missing (primary : Arg)
  | invalid (primary value : Arg)
  | expression (near : Option Arg)
deriving DecidableEq

inductive Warning
  | debug (flag : Arg)
  | slash (primary pattern : Arg)
  | format (text : String)
deriving DecidableEq

structure Options where
  max_depth : Option ℕ
  min_depth : ℕ
  depth_first : Bool
  xdev : Bool
  follow : Follow
  retain_parent : Bool
  delete : Bool
deriving DecidableEq

def Options.default : Options where
  max_depth := none
  min_depth := 0
  depth_first := false
  xdev := false
  follow := .physical
  retain_parent := false
  delete := false

/-- The readers of operands, and what they ask the system. -/
structure Host (τ φ : Type) where
  regex : Arg → Dialect → Bool → Except String τ
  perm : Arg → Option τ
  size : Arg → Option τ
  time : Arg → Arg → Bool → Option τ
  number : Arg → Arg → Option τ
  identity : Arg → Arg → Option ℕ
  /-- `-newerXY`: whether a reference date so far needed the local zone goes
  in and out. -/
  newer : UInt8 → UInt8 → Arg → Bool → Bool → Option τ × Bool
  /-- Whether a test captured the start of the local day. -/
  daystart : τ → Bool
  format : Arg → List String × Except String φ
  path_format : Bool → φ
  format_local_time : φ → Bool
  /-- Why the local zone is not supported, if it is not. -/
  zone : Option String
  /-- The value of `PATH`. -/
  path : Option Arg

/-- What the parser has seen, and the arguments it has not. -/
structure Seen where
  rest : List Arg
  options : Options
  action : Bool
  unsupported : Option Arg
  warnings : List Warning
  message : Option String
  dialect : Dialect
  streams : List Arg
  exec_id : ℕ
  delete : Bool
  prune : Bool
  explicit_depth : Bool
  daystart : Bool
  local_time : Bool
  permission_warning : Bool
deriving DecidableEq

def Seen.new (args : List Arg) : Seen where
  rest := args
  options := Options.default
  action := false
  unsupported := none
  warnings := []
  message := none
  dialect := .emacs
  streams := []
  exec_id := 0
  delete := false
  prune := false
  explicit_depth := false
  daystart := false
  local_time := false
  permission_warning := false

/-- A reader of arguments. A failure keeps what was seen before it. -/
abbrev Read (α : Type) := EStateM ParseError Seen α

/-! ## Operands -/

/-- The argument a primary takes next. -/
def argument (primary : Arg) : Read Arg := do
  let s ← get
  match s.rest with
  | [] => throw (.missing primary)
  | value :: rest =>
    set { s with rest := rest }
    return value

def digit (b : UInt8) : Bool := 48 ≤ b && b ≤ 57

/-- A decimal number that fits the machine's word. -/
def decimal (bytes : Arg) : Option ℕ :=
  if bytes = [] ∨ ¬ bytes.all digit then none
  else
    let n := bytes.foldl (fun n b => 10 * n + (b.toNat - 48)) 0
    if n < 2 ^ 64 then some n else none

/-- The pieces of an argument between the bytes `sep`. -/
def splitOn (sep : UInt8) : Arg → List Arg
  | [] => [[]]
  | b :: bs =>
    if b = sep then [] :: splitOn sep bs
    else
      match splitOn sep bs with
      | [] => [[b]]
      | piece :: pieces => (b :: piece) :: pieces

def FileKind.of (part : Arg) : Option FileKind :=
  if part = word "f" then some .file
  else if part = word "d" then some .directory
  else if part = word "l" then some .symlink
  else if part = word "p" then some .fifo
  else if part = word "s" then some .socket
  else if part = word "b" then some .block
  else if part = word "c" then some .character
  else none

/-- Adds the kinds of comma-separated letters, each once. -/
def addKinds : List Arg → List FileKind → Option (List FileKind)
  | [], kinds => some kinds
  | part :: parts, kinds =>
    match FileKind.of part with
    | none => none
    | some kind => if kind ∈ kinds then none else addKinds parts (kinds ++ [kind])

def kinds (primary value : Arg) : Read (List FileKind) :=
  match addKinds (splitOn 44 value) [] with
  | some found => pure found
  | none => throw (.invalid primary value)

/-- One clause of a symbolic mode after its classes: the operations counted,
and whether the clause ends with them. -/
def clauseOps : ℕ → Arg → ℕ → ℕ × Arg
  | 0, clause, n => (n, clause)
  | fuel + 1, clause, n =>
    match clause with
    | b :: rest =>
      if (word "+-=").contains b then
        match rest with
        | c :: rest' =>
          if (word "ugo").contains c then clauseOps fuel rest' (n + 1)
          else clauseOps fuel (rest.dropWhile (word "rwxXst").contains) (n + 1)
        | [] => (n + 1, [])
      else (n, clause)
    | [] => (n, [])

/-- A file mode: octal digits, or comma-separated symbolic clauses. -/
def valid_mode (value : Arg) : Bool :=
  let bytes :=
    match value with
    | b :: rest => if (word "-/").contains b then rest else value
    | [] => []
  if bytes ≠ [] ∧ bytes.all (fun b => 48 ≤ b && b ≤ 55) then
    bytes.foldl (fun n b => 8 * n + (b.toNat - 48)) 0 ≤ 4095
  else
    (splitOn 44 bytes).all fun clause =>
      let clause := clause.dropWhile (word "ugoa").contains
      let ops := clauseOps (clause.length + 1) clause 0
      0 < ops.1 && ops.2.isEmpty

/-- Whether `{}` occurs in an argument. -/
def holdsPlace : Arg → Bool
  | a :: b :: rest => (a = 123 && b = 125) || holdsPlace (b :: rest)
  | _ => false

section

variable {τ φ : Type} (host : Host τ φ)

/-! ## Primaries -/

def unsupported (primary : Arg) : Read (Expression τ φ) := do
  modify fun s => { s with unsupported := some (s.unsupported.getD primary) }
  return .constant true

/-- The target of an output primary. A file opens later, through the cell all
mentions of its path share. -/
def target (primary : Arg) : Read Target := do
  let path ← argument primary
  if path = word "/dev/stdout" then return .stdout
  let s ← get
  if path ∈ s.streams then return .file path (s.streams.idxOf path)
  set { s with streams := s.streams ++ [path] }
  return .file path s.streams.length

def format (primary : Arg) : Read φ := do
  let value ← argument primary
  let compiled := host.format value
  modify fun s => { s with warnings := s.warnings ++ compiled.1.map .format }
  match compiled.2 with
  | .ok compiled => return compiled
  | .error message => throw (.feature message)

def exec_spec (primary : Arg) (args : List Arg) (batch : Bool) : Read Exec := do
  let directory := primary.ends "dir"
  if directory ∧ host.path.any fun path => (splitOn 58 path).any fun part => !part.starts "/" then
    throw (.feature "relative or empty PATH entries are insecure with -execdir/-okdir")
  let s ← get
  set { s with exec_id := s.exec_id + 1 }
  return { id := s.exec_id, args, batch, directory, prompt := primary.starts "-ok" }

/-- A command, up to `;` or `{} +`. `taken` holds the arguments of the command
so far. -/
def execFrom (primary : Arg) (taken : List Arg) : List Arg → Read Exec
  | [] => do
    modify fun s => { s with rest := [] }
    throw (.missing primary)
  | arg :: rest => do
    if arg = word ";" then
      if taken = [] then
        modify fun s => { s with rest := arg :: rest }
        throw (.missing primary)
      modify fun s => { s with rest := rest }
      exec_spec host primary taken false
    else if arg = word "+" ∧ taken.getLast? = some (word "\x7b\x7d")
        ∧ primary ≠ word "-ok" ∧ primary ≠ word "-okdir" then
      if (taken.filter holdsPlace).length ≠ 1 then
        modify fun s => { s with rest := arg :: rest }
        throw (.invalid primary arg)
      modify fun s => { s with rest := rest }
      if taken.dropLast = [] then throw (.missing primary)
      exec_spec host primary taken.dropLast true
    else execFrom primary (taken ++ [arg]) rest

def exec (primary : Arg) : Read Exec := do
  let s ← get
  execFrom host primary [] s.rest

/-- An operand the host reads, or an error that names it. -/
def valid (primary value : Arg) : Option τ → Read (Expression τ φ)
  | some test => pure (.test (.operand test))
  | none => throw (.invalid primary value)

/-- The two stamps a `-newerXY` compares. -/
def newerStamps (primary : Arg) : Option (UInt8 × UInt8) :=
  if primary = word "-newer" then some (109, 109)
  else if primary = word "-anewer" then some (97, 109)
  else if primary = word "-cnewer" then some (99, 109)
  else
    match primary.drop 6 with
    | [x, y] => if (word "aBcm").contains x ∧ (word "aBcmt").contains y then some (x, y) else none
    | _ => none

def supported_zone : Read Unit :=
  match host.zone with
  | none => pure ()
  | some message => throw (.feature message)

def helpText : String :=
  "Usage: ferret find [-I] [-H|-L|-P] [paths] [expression]\nDefault mode answers from the index, including stored metadata and freshness.\nIt respects ignore rules; read-only starts and siblings may interleave; starts with actions or -quit run in sequence. -I walks live.\nParents precede children; -depth/-delete reverse this; -prune stops descent.\nPasted find ... -delete skips ignored files and still exits 0.\nFailed deletions and traversal errors exit 1.\n"

def versionText : String := "ferret find (GNU find compatible syntax)\n"

/-- A change of what was seen that is always true as a test. -/
def setting (change : Seen → Seen) : Read (Expression τ φ) := do
  modify change
  return .constant true

/-- The expression of a primary, read with its operands. -/
def primary (p : Arg) : Read (Expression τ φ) := do
  if p = word "-name" ∨ p = word "-iname" then
    let pattern ← argument p
    return .name pattern (p = word "-iname")
  else if p = word "-path" ∨ p = word "-ipath" ∨ p = word "-wholename"
      ∨ p = word "-iwholename" then
    let pattern ← argument p
    if pattern.ends "/" then
      modify fun s => { s with warnings := s.warnings ++ [.slash p pattern] }
    return .path pattern (p = word "-ipath" ∨ p = word "-iwholename")
  else if p = word "-type" then
    let value ← argument p
    return .type (← kinds p value)
  else if p = word "-maxdepth" ∨ p = word "-mindepth" then
    let value ← argument p
    match (decimal value).filter (· ≤ 2147483647) with
    | none => throw (.invalid p value)
    | some number =>
      if p = word "-maxdepth" then
        setting fun s => { s with options := { s.options with max_depth := some number } }
      else setting fun s => { s with options := { s.options with min_depth := number } }
  else if p = word "-depth" ∨ p = word "-d" then
    setting fun s =>
      { s with explicit_depth := true, options := { s.options with depth_first := true } }
  else if p = word "-xdev" ∨ p = word "-mount" then
    setting fun s => { s with options := { s.options with xdev := true } }
  else if p = word "-true" then return .constant true
  else if p = word "-false" then return .constant false
  else if p = word "-prune" then
    modify fun s => { s with prune := true }
    return .prune
  else if p = word "-quit" then return .quit
  else if p = word "-print" ∨ p = word "-print0" then
    modify fun s => { s with action := true }
    return .print (p = word "-print0")
  else if p = word "-exec" ∨ p = word "-execdir" ∨ p = word "-ok" ∨ p = word "-okdir" then
    let command ← exec host p
    modify fun s => { s with action := true }
    return .action (.exec command)
  else if p = word "-fls" then
    let file ← target p
    modify fun s => { s with action := true }
    return .action (.list file)
  else if p = word "-fprintf" ∨ p = word "-fprint" ∨ p = word "-fprint0" then
    let file ← target p
    modify fun s => { s with action := true }
    if p = word "-fprintf" then return .action (.output file (← format host p))
    return .action (.output file (host.path_format (p = word "-fprint0")))
  else if p = word "-printf" then
    let compiled ← format host p
    modify fun s => { s with action := true }
    return .action (.output .stdout compiled)
  else if p = word "-ls" then
    modify fun s => { s with action := true }
    return .action (.list .stdout)
  else if p = word "-delete" then
    modify fun s => { s with
      action := true
      delete := true
      options := { s.options with depth_first := true } }
    return .action .delete
  else if p = word "-follow" then
    setting fun s => { s with options := { s.options with follow := .all } }
  else if p = word "-help" ∨ p = word "--help" then
    setting fun s => { s with rest := [], message := some helpText }
  else if p = word "-version" ∨ p = word "--version" then
    setting fun s => { s with rest := [], message := some versionText }
  else if p = word "-regex" ∨ p = word "-iregex" then
    let value ← argument p
    let s ← get
    match host.regex value s.dialect (p = word "-iregex") with
    | .ok test => return .test (.operand test)
    | .error message => throw (.feature message)
  else if p = word "-lname" ∨ p = word "-ilname" then
    let value ← argument p
    return .test (.link value (p = word "-ilname"))
  else if p = word "-daystart" then setting fun s => { s with daystart := true }
  else if p = word "-noleaf" ∨ p = word "-ignore_readdir_race" ∨ p = word "-noignore_readdir_race"
      ∨ p = word "-warn" ∨ p = word "-nowarn" then return .constant true
  else if p = word "-context" ∨ p = word "-files0-from" then
    let _ ← argument p
    unsupported p
  else if p = word "-regextype" then
    let value ← argument p
    match Dialect.from_name value with
    | some dialect => setting fun s => { s with dialect := dialect }
    | none => throw (.invalid p value)
  else if p = word "-xtype" then
    let value ← argument p
    return .test (.xtype (← kinds p value))
  else if p = word "-perm" then
    let value ← argument p
    if value.starts "+" ∨ ¬ valid_mode value then throw (.invalid p value)
    match host.perm value with
    | none => throw (.invalid p value)
    | some test =>
      if value.starts "/" ∧ (value.drop 1).all (· = 48) then
        modify fun s => { s with permission_warning := true }
      return .test (.operand test)
  else if p = word "-size" then
    let value ← argument p
    valid p value (host.size value)
  else if p = word "-mtime" ∨ p = word "-atime" ∨ p = word "-ctime" ∨ p = word "-mmin"
      ∨ p = word "-amin" ∨ p = word "-cmin" ∨ p = word "-used" then
    let s ← get
    let value ← argument p
    valid p value (host.time p value s.daystart)
  else if p = word "-links" ∨ p = word "-inum" ∨ p = word "-uid" ∨ p = word "-gid" then
    let value ← argument p
    valid p value (host.number p value)
  else if p = word "-user" ∨ p = word "-group" then
    let value ← argument p
    match host.identity p value with
    | none => throw (.invalid p value)
    | some id => return .test (if p = word "-user" then .user id else .group id)
  else if p = word "-empty" then return .test .empty
  else if p = word "-readable" then return .test (.access .read)
  else if p = word "-writable" then return .test (.access .write)
  else if p = word "-executable" then return .test (.access .exec)
  else if p = word "-nouser" then return .test .nouser
  else if p = word "-nogroup" then return .test .nogroup
  else if p = word "-fstype" then
    let value ← argument p
    return .test (.fstype value)
  else if p = word "-samefile" then
    let s ← get
    let value ← argument p
    return .test (.samefile value (s.options.follow ≠ .physical))
  else if p.starts "-newer" ∨ p = word "-anewer" ∨ p = word "-cnewer" then
    match newerStamps p with
    | none => throw (.unknown p)
    | some (x, y) =>
      let s ← get
      let value ← argument p
      let read := host.newer x y value (s.options.follow ≠ .physical) s.local_time
      modify fun s => { s with local_time := read.2 }
      if read.2 then supported_zone host
      valid p value read.1
  else if p = word ")" ∨ p = word "," ∨ p = word "-o" ∨ p = word "-or" ∨ p = word "-a"
      ∨ p = word "-and" then throw (.expression (some p))
  else if !p.starts "-" then throw (.expression (some p))
  else throw (.unknown p)

end

/-! ## Leading options and start paths -/

/-- `-D`'s comma-separated flags. -/
def debug (value : Arg) : Read Unit := do
  let flags := (splitOn 44 value).filter fun flag => !flag.isEmpty
  let help := flags.any (· = word "help")
  if help then
    modify fun s => { s with
      message := some "Debug options: exec opt rates search stat time tree all help\n" }
  let listed := [word "opt", word "rates", word "search", word "time", word "tree", word "all"]
  let warned := flags.filter fun flag => flag ≠ word "help" ∧ flag ≠ word "exec"
    ∧ flag ≠ word "stat" ∧ ¬ (help ∧ flag ∈ listed)
  modify fun s => { s with warnings := s.warnings ++ warned.map .debug }

/-- The options before the paths; true when one asks for no ignore rules. -/
def leading_options : List Arg → Bool → Read Bool
  | [], no_ignore => do
    modify fun s => { s with rest := [] }
    return no_ignore
  | arg :: rest, no_ignore => do
    modify fun s => { s with rest := arg :: rest }
    let next (no_ignore : Bool) := leading_options rest no_ignore
    if arg = word "-I" ∨ arg = word "--no-ignore" then next true
    else if arg = word "-P" then
      modify fun s => { s with options := { s.options with follow := .physical } }
      next no_ignore
    else if arg = word "-H" then
      modify fun s => { s with options := { s.options with follow := .roots } }
      next no_ignore
    else if arg = word "-L" then
      modify fun s => { s with options := { s.options with follow := .all } }
      next no_ignore
    else if arg = word "--" then next no_ignore
    else if arg = word "-D" then
      match rest with
      | [] =>
        modify fun s => { s with rest := [] }
        throw (.missing (word "-D"))
      | value :: rest' =>
        if (splitOn 44 value).all List.isEmpty then throw (.invalid (word "-D") value)
        debug value
        leading_options rest' no_ignore
    else if arg.starts "-O" then
      if (decimal (arg.drop 2)).isNone then throw (.invalid (word "-O") arg)
      next no_ignore
    else return no_ignore

/-- The start paths are the arguments before the first that begins an
expression, `.` when there are none. -/
def beginsExpression (arg : Arg) : Bool :=
  arg.starts "-" || arg = word "(" || arg = word "!"

def paths : Read (List Arg) := do
  let s ← get
  let given := s.rest.takeWhile fun arg => !beginsExpression arg
  set { s with rest := s.rest.dropWhile fun arg => !beginsExpression arg }
  return if given = [] then [word "."] else given

end Ferret.Find
