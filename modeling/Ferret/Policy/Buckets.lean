import Ferret.Policy.Pattern

/-!
# The index of a directory's patterns

One directory's basename patterns, indexed for last-match-wins. Common shapes
of glob go to buckets of their own, found by the name itself, by its
extension, or by comparing bytes; the rest are matched one by one. Each bucket
is in position order, scanned backwards, and cut off below the best position
another bucket already found.

The hash maps are functions, empty where nothing was put. A limit of `none` is
`usize::MAX`, above any position in a list.
-/

namespace Ferret.Policy

/-! ## Shapes -/

namespace Pattern

def basename_glob (p : Pattern) : Option ComponentGlob :=
  match p.components with
  | [.glob g] => if p.basename_only then some g else none
  | _ => none

def literal_basename (p : Pattern) : Option Bytes := p.basename_glob.bind (·.literal_bytes)

/-- `*.ext`, whose extension has no further dot. -/
def simple_extension (p : Pattern) : Option Bytes :=
  match p.basename_glob with
  | some ⟨[.star, .literal suffix]⟩ =>
    if suffix.val.length < 2 || suffix.val.head? ≠ some (byte '.') ||
        suffix.val.tail.contains (byte '.') then none
    else some suffix.val
  | _ => none

def basename_prefix (p : Pattern) : Option Bytes :=
  match p.basename_glob with
  | some ⟨[.literal run, .star]⟩ => some run.val
  | _ => none

def basename_suffix (p : Pattern) : Option Bytes :=
  match p.basename_glob with
  | some ⟨[.star, .literal suffix]⟩ => some suffix.val
  | _ => none

def basename_contains (p : Pattern) : Option Bytes :=
  match p.basename_glob with
  | some ⟨[.star, .literal needle, .star]⟩ => some needle.val
  | _ => none

/-- The width of what follows a leading star, where that is fixed. -/
def fixed_basename_suffix_width (p : Pattern) : Option ℕ :=
  match p.basename_glob with
  | some ⟨.star :: atoms⟩ => (atoms.mapM Atom.fixed_width).map List.sum
  | _ => none

/-- Takes each atom off the front of a text. -/
def consume_all : List Atom → Bytes → Option Bytes
  | [], text => some text
  | a :: atoms, text => (a.consumes text).bind fun n => consume_all atoms (text.drop n)

def matches_fixed_basename_suffix (p : Pattern) (basename : Bytes) (is_dir : Bool) (width : ℕ) :
    Bool :=
  if p.directory_only && !is_dir then false
  else
    match p.basename_glob with
    | none => false
    | some g =>
      decide (width ≤ basename.length) &&
        consume_all g.atoms.tail (basename.drop (basename.length - width)) == some []

end Pattern

/-! ## The index -/

structure FastMatch where
  index : ℕ
  result : Match
  directory_only : Bool
deriving DecidableEq

/-- Whether the directory-only flag lets the entry through. -/
def FastMatch.allows (action : FastMatch) (is_dir : Bool) : Bool := !action.directory_only || is_dir

structure ByteFastMatch where
  bytes : Bytes
  action : FastMatch

structure FixedSuffixMatch where
  pattern : Pattern
  width : ℕ

/-- **Basename patterns by shape.** -/
structure Gitignore where
  literals : Bytes → List FastMatch
  extensions : Bytes → List FastMatch
  prefixes : List ByteFastMatch
  suffixes : List ByteFastMatch
  contains : List ByteFastMatch
  fixed_suffixes : List FixedSuffixMatch
  general : List Pattern

def Pattern.fast (p : Pattern) : FastMatch := ⟨p.index, p.result, p.directory_only⟩

namespace Gitignore

def empty : Gitignore := ⟨fun _ => [], fun _ => [], [], [], [], [], []⟩

/-- A map with one more entry under a key. -/
def entry_push (map : Bytes → List FastMatch) (key : Bytes) (fast : FastMatch) :
    Bytes → List FastMatch :=
  fun k => if k = key then map k ++ [fast] else map k

def push (m : Gitignore) (p : Pattern) : Gitignore :=
  match p.literal_basename with
  | some literal => { m with literals := entry_push m.literals literal p.fast }
  | none =>
  match p.simple_extension with
  | some extension => { m with extensions := entry_push m.extensions extension p.fast }
  | none =>
  match p.basename_prefix with
  | some bytes => { m with prefixes := m.prefixes ++ [⟨bytes, p.fast⟩] }
  | none =>
  match p.basename_suffix with
  | some bytes => { m with suffixes := m.suffixes ++ [⟨bytes, p.fast⟩] }
  | none =>
  match p.basename_contains with
  | some bytes => { m with contains := m.contains ++ [⟨bytes, p.fast⟩] }
  | none =>
  match p.fixed_basename_suffix_width with
  | some width => { m with fixed_suffixes := m.fixed_suffixes ++ [⟨p, width⟩] }
  | none => { m with general := m.general ++ [p] }

/-- Last-match order is by each pattern's index, so they may come in any
order. -/
def from_patterns (patterns : List Pattern) : Gitignore :=
  (patterns.insertionSort fun p q => p.index ≤ q.index).foldl push empty

/-! ## Asking it -/

/-- Whether an index is below the limit. -/
def below (limit : Option ℕ) (index : ℕ) : Bool := limit.all (index < ·)

def latest_fast (entries : List FastMatch) (is_dir : Bool) (limit : Option ℕ) : Option FastMatch :=
  entries.reverse.find? fun entry => below limit entry.index && entry.allows is_dir

/-- The scan of one bucket, from its end: entries at or above the limit are
passed over, and it stops below the best so far. -/
def scan {α : Type} (action : α → FastMatch) (hit : α → Bool) (limit : Option ℕ) :
    List α → Option FastMatch → Option FastMatch
  | [], best => best
  | entry :: rest, best =>
    if !below limit (action entry).index then scan action hit limit rest best
    else if best.any fun candidate => (action entry).index < candidate.index then best
    else if hit entry then some (action entry)
    else scan action hit limit rest best

def scan_byte_fast (patterns : List ByteFastMatch) (basename : Bytes) (is_dir : Bool)
    (limit : Option ℕ) (test : Bytes → Bytes → Bool) (best : Option FastMatch) : Option FastMatch :=
  scan ByteFastMatch.action
    (fun p => p.action.allows is_dir && test basename p.bytes) limit patterns.reverse best

def scan_fixed_suffixes (patterns : List FixedSuffixMatch) (basename : Bytes) (is_dir : Bool)
    (limit : Option ℕ) (best : Option FastMatch) : Option FastMatch :=
  scan (fun fixed => fixed.pattern.fast)
    (fun fixed => fixed.pattern.matches_fixed_basename_suffix basename is_dir fixed.width) limit
    patterns.reverse best

def scan_patterns (patterns : List Pattern) (name : Bytes) (is_dir : Bool)
    (limit : Option ℕ) (best : Option FastMatch) : Option FastMatch :=
  scan Pattern.fast (fun p => p.matches_name name is_dir) limit patterns.reverse best

/-- The name from its last dot on. -/
def last_dot (name : Bytes) : Option Bytes :=
  (name.reverse.findIdx? (· == byte '.')).map fun i => name.drop (name.length - 1 - i)

/-- The stretches of a name of one length. -/
def windows (name : Bytes) (size : ℕ) : List Bytes :=
  (List.range (name.length + 1 - size)).map fun i => (name.drop i).take size

/-- The later of two buckets' answers. -/
def later (best candidate : Option FastMatch) : Option FastMatch :=
  match candidate with
  | some c => if best.all fun current => current.index < c.index then some c else best
  | none => best

/-- The last pattern below the limit that matches, of every bucket. -/
def best_match (m : Gitignore) (name : Bytes) (is_dir : Bool) (limit : Option ℕ) :
    Option FastMatch :=
  let best := latest_fast (m.literals name) is_dir limit
  let best := later best ((last_dot name).bind fun ext => latest_fast (m.extensions ext) is_dir limit)
  let best := scan_byte_fast m.prefixes name is_dir limit (fun name bytes => bytes.isPrefixOf name) best
  let best := scan_byte_fast m.suffixes name is_dir limit (fun name bytes => bytes.isSuffixOf name) best
  let best := scan_byte_fast m.contains name is_dir limit
    (fun name bytes => (windows name bytes.length).any (· == bytes)) best
  let best := scan_fixed_suffixes m.fixed_suffixes name is_dir limit best
  scan_patterns m.general name is_dir limit best

/-- The index and action of the last pattern below the limit that matches. -/
def best_below (m : Gitignore) (name : Bytes) (is_dir : Bool) (limit : Option ℕ) :
    Option (ℕ × Match) :=
  (m.best_match name is_dir limit).map fun candidate => (candidate.index, candidate.result)

def best (m : Gitignore) (name : Bytes) (is_dir : Bool) : Option (ℕ × Match) :=
  m.best_below name is_dir none

end Gitignore

end Ferret.Policy
