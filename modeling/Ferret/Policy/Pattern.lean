import Ferret.Index.DocSet
import Ferret.Policy.Glob
import Mathlib.Data.List.Destutter

/-!
# Patterns

One parsed line of an ignore file, and the cursors that apply an anchored
pattern one directory at a time. An anchored pattern is never matched against
a whole path: a cursor is a position in it, stepped one component per directory
entered (`Pattern.step`), and in each directory it stands for a pattern of the
entries' names alone (`Pattern.projections`).
-/

namespace Ferret.Policy

/-- The name of an entry; never empty. -/
abbrev Name := { bytes : Bytes // bytes ≠ [] }

/-- What the last matching rule says about an entry. -/
inductive Match where
  | ignore
  | whitelist
deriving DecidableEq

/-- **One parsed line.** A basename pattern is one component. -/
structure Pattern where
  index : ℕ
  result : Match
  directory_only : Bool
  basename_only : Bool
  components : List Component
  components_ne : components ≠ []
  basename_single : basename_only = true → components.length = 1

/-! ## Parsing -/

structure SplitPattern where
  leading_separator : Bool
  trailing_separator : Bool
  parts : List (List PatternByte)
  separators : List Bool
  escaped_edge : Bool

/-- The parts between slashes, and for each slash whether it is bare. A byte
goes to the part it is read in, the first of those still to come. -/
def split_parts : Bytes → Except String (List (List PatternByte) × List Bool)
  | [] => .ok ([[]], [])
  | b :: rest =>
    if b = byte '\\' then
      match rest with
      | [] => .error "trailing backslash"
      | escaped :: rest => do
        let (parts, separators) ← split_parts rest
        if escaped = byte '/' then .ok ([] :: parts, false :: separators)
        else .ok (parts.modifyHead (⟨escaped, true⟩ :: ·), separators)
    else do
      let (parts, separators) ← split_parts rest
      if b = byte '/' then .ok ([] :: parts, true :: separators)
      else .ok (parts.modifyHead (⟨b, false⟩ :: ·), separators)

def split_components (pattern : Bytes) : Except String SplitPattern := do
  let (parts, separators) ← split_parts pattern
  let leading_separator :=
    parts.head? = some [] && 1 < parts.length && separators.head?.getD false
  let escaped_edge := (ascii "\\/").isPrefixOf pattern || (ascii "\\/").isSuffixOf pattern
  let parts := if leading_separator then parts.tail else parts
  let separators := if leading_separator then separators.tail else separators
  let trailing_separator :=
    parts.getLast? = some [] && 1 < parts.length && separators.getLast?.getD false
  let parts := if trailing_separator then parts.dropLast else parts
  let separators := if trailing_separator then separators.dropLast else separators
  .ok ⟨leading_separator, trailing_separator, parts, separators, escaped_edge⟩

/-- Drops trailing spaces, up to one that a backslash escapes; the line is
read from its end. -/
def trim_reversed : Bytes → Bytes
  | [] => []
  | b :: before =>
    if b = byte ' ' ∧ (before.takeWhile (· = byte '\\')).length % 2 = 0 then trim_reversed before
    else b :: before

def trim_trailing_spaces (line : Bytes) : Bytes := (trim_reversed line.reverse).reverse

/-- A run of zero-allowing globstars matches what one does. -/
def Collapses (kept next : Component) : Prop := kept = .globstar true ∧ next = .globstar true

instance (kept next : Component) : Decidable (Collapses kept next) := instDecidableAnd

/-- The components of a parsed line. A globstar before an escaped slash has to
match a directory; one at the end is before none. -/
def compile_components (parsed : SplitPattern) (anchored : Bool) (s : Syntax) : List Component :=
  let components := parsed.parts.map fun part => compile_component part anchored s
  let components := if parsed.escaped_edge then components.modifyHead fun _ => .never else components
  let components := components.mapIdx fun i component =>
    match component with
    | .globstar _ => .globstar (parsed.separators[i]?.getD true)
    | component => component
  components.destutter fun kept next => ¬ Collapses kept next

theorem destutter_ne_nil {α : Type} (R : α → α → Prop) [DecidableRel R] {l : List α} (h : l ≠ []) :
    l.destutter R ≠ [] := by
  cases l with
  | nil => exact absurd rfl h
  | cons a l => exact List.destutter'_ne_nil l R

/-- Fixed before they are collapsed, there are as many components as parts. -/
theorem compile_components_eq (parsed : SplitPattern) (anchored : Bool) (s : Syntax) :
    ∃ components : List Component, components.length = parsed.parts.length ∧
      compile_components parsed anchored s =
        components.destutter fun kept next => ¬ Collapses kept next := by
  refine ⟨_, ?_, rfl⟩
  rw [List.length_mapIdx]
  split <;> simp

theorem compile_components_ne_nil {parsed : SplitPattern} (h : parsed.parts ≠ [])
    (anchored : Bool) (s : Syntax) : compile_components parsed anchored s ≠ [] := by
  obtain ⟨_, hlen, heq⟩ := compile_components_eq parsed anchored s
  rw [heq]
  refine destutter_ne_nil _ fun hnil => h ?_
  rw [hnil] at hlen
  exact List.length_eq_zero_iff.mp hlen.symm

theorem length_compile_components {parsed : SplitPattern} (h : parsed.parts.length = 1)
    (anchored : Bool) (s : Syntax) : (compile_components parsed anchored s).length = 1 := by
  obtain ⟨_, hlen, heq⟩ := compile_components_eq parsed anchored s
  obtain ⟨c, rfl⟩ := List.length_eq_one_iff.mp (hlen.trans h)
  rw [heq, List.destutter_singleton, List.length_singleton]

namespace Pattern

/-- **One line, if it is not empty or a comment.** -/
def compile_syntax (index : ℕ) (original : Bytes) (s : Syntax) : Except String (Option Pattern) :=
  let line := trim_trailing_spaces original
  if line = [] || line.head? = some (byte '#') then .ok none
  else if line = [byte '!'] then .ok none
  else do
    let whitelist := line.head? = some (byte '!')
    let parsed ← split_components (if whitelist then line.tail else line)
    if hparts : parsed.parts = [] then .ok none
    else
      let basename_only := !parsed.leading_separator && parsed.parts.length == 1
      -- The command line refuses a glob that could never match.
      if s = .override ∧
          (parsed.parts.any fun part => compile_component part (!basename_only) s = .never) then
        .error "invalid glob character class or range"
      else
        .ok (some
          { index
            result := if whitelist then .whitelist else .ignore
            directory_only := parsed.trailing_separator
            basename_only
            components := compile_components parsed (!basename_only) s
            components_ne := compile_components_ne_nil hparts _ s
            basename_single := fun h => length_compile_components
              (by simp only [basename_only, Bool.and_eq_true, beq_iff_eq] at h; exact h.2) _ s })

def compile (index : ℕ) (original : Bytes) : Except String (Option Pattern) :=
  compile_syntax index original .ignore

def line (p : Pattern) : ℕ := p.index

def is_whitelist (p : Pattern) : Bool := p.result == .whitelist

/-- Whether this basename pattern matches an entry's name. -/
def matches_name (p : Pattern) (name : Bytes) (is_dir : Bool) : Bool :=
  (!p.directory_only || is_dir) && p.components.head?.any (·.matches name)

/-- A basename rule is not stepped on enter. A leading `**/` plus one
component matches in every directory, so it is one too; with an escaped slash
it is not, because it cannot match at its own file's directory. -/
def is_shared_basename (p : Pattern) : Bool :=
  p.basename_only ||
    match p.components with
    | [.globstar true, _] => true
    | _ => false

def is_anchored_reinclude (p : Pattern) : Bool :=
  p.result == .whitelist && !p.basename_only && 2 ≤ p.components.length &&
    (match p.components.head? with
      | some (.globstar _) => false
      | _ => true) &&
    p.components.all Component.has_witness

/-- Whether a later exclusion covers every path this re-include can match. -/
def is_superseded_by (p later : Pattern) : Bool :=
  p.result == .whitelist && later.result == .ignore && p.basename_only == later.basename_only &&
    p.components = later.components && (!later.directory_only || p.directory_only)

end Pattern

/-! ## Stepping -/

/-- Positions reached in one step, and which of them are fed, one bit each;
plus the globstars whose zero-width continuation has been followed. -/
structure Marks where
  reached : List (BitVec 64)
  fed : List (BitVec 64)
  expanded : List (BitVec 64)

/-- A position's bit, set. -/
def set_bit (words : List (BitVec 64)) (pos : ℕ) : List (BitVec 64) :=
  words.set (pos / 64) (words.getD (pos / 64) 0 ||| 1#64 <<< (pos % 64))

namespace Marks

def new (count : ℕ) : Marks :=
  let words := List.replicate ((count + 63) / 64) 0
  ⟨words, words, words⟩

def mark (m : Marks) (pos : ℕ) (fed : Bool) : Marks :=
  { m with
    reached := set_bit m.reached pos
    fed := if fed then set_bit m.fed pos else m.fed }

/-- Records that a position's continuation is being followed; false if it
already was this step. -/
def expand (m : Marks) (pos : ℕ) : Bool × Marks :=
  (!bit m.expanded pos, { m with expanded := set_bit m.expanded pos })

/-- The marked positions in order. -/
def drain (m : Marks) : List (ℕ × Bool) :=
  m.reached.zipIdx.flatMap fun (bits, word) =>
    (DocSet.setBits bits).map fun b => (word * 64 + b, bit m.fed (word * 64 + b))

end Marks

/-- One cursor's walk in a step, at a component with those after it: along
globstars that may match nothing more, up to the first other component. -/
def follow (name : Bytes) : List Component → ℕ → Bool → Marks → Marks
  | [], _, _, marks => marks
  | .globstar allow_zero :: rest, pos, fed, marks =>
    -- Consuming `name` leaves the globstar fed whether or not it was allowed
    -- to match zero components before.
    let marks := marks.mark pos true
    if !(allow_zero || fed) then marks
    else
      let (first, marks) := marks.expand pos
      if !first then marks else follow name rest (pos + 1) false marks
  | component :: rest, pos, _, marks =>
    if rest ≠ [] ∧ component.matches name then marks.mark (pos + 1) false else marks

namespace Pattern

/-- **The cursors `(pos, fed)` of this anchored pattern in child `name`**, in
position order, each position once. `fed` means that the globstar there has
consumed the directory that an escaped slash requires, so that it may now match
zero further components. -/
def step (p : Pattern) (cursors : List (ℕ × Bool)) (name : Bytes) : List (ℕ × Bool) :=
  let marks := cursors.foldl
    (fun marks (pos, fed) => follow name (p.components.drop pos) pos fed marks)
    (Marks.new p.components.length)
  marks.drain

end Pattern

/-! ## Projecting -/

/-- What a cursor that is not fed projects to, at a component with those after
it. -/
def tail : List Component → Option ComponentGlob
  | [.globstar _] => some any_glob
  | [.glob g] => some (normalize_star g)
  | .globstar true :: rest => tail rest
  | _ => none

/-- What a cursor that is fed projects to. -/
def fed_tail : List Component → Option ComponentGlob
  | [.globstar _] => some any_glob
  | .globstar _ :: rest => tail rest
  | _ => none

namespace Pattern

def as_basename (p : Pattern) (g : ComponentGlob) : Pattern where
  index := p.index
  result := p.result
  directory_only := p.directory_only
  basename_only := true
  components := [.glob g]
  components_ne := nofun
  basename_single := fun _ => rfl

/-- **The basename rule each cursor projects to**, at `2 * pos + fed`: one that
matches the same entry names as the cursor does in its directory, or `none`
when nothing there can match. A lone `*` becomes `?*`. -/
def projections (p : Pattern) : List (Option Pattern) :=
  (List.range p.components.length).flatMap fun pos =>
    [(tail (p.components.drop pos)).map p.as_basename,
      (fed_tail (p.components.drop pos)).map p.as_basename]

/-- This pattern at another position. -/
def renumbered (p : Pattern) (index : ℕ) : Pattern := { p with index := index }

end Pattern

/-- What decides a basename pattern's matches: its glob and flags, not its
line. -/
structure RuleText where
  glob : Option ComponentGlob
  whitelist : Bool
  directory_only : Bool
deriving DecidableEq

def Pattern.text (p : Pattern) : RuleText where
  glob :=
    match p.components.head? with
    | some (.glob g) => some g
    | _ => none
  whitelist := p.is_whitelist
  directory_only := p.directory_only

/-! ## Files -/

/-- One invalid line, omitted from the rules. -/
structure LineError where
  line : ℕ
  pattern : Bytes
  detail : String
deriving DecidableEq

/-- The lines of a text, as far as a NUL, without a carriage return at the
end. -/
def lines (text : Bytes) : List Bytes :=
  let bom := [0xef, 0xbb, 0xbf]
  let text := if bom.isPrefixOf text then text.drop 3 else text
  (text.splitOn 10).map fun line =>
    let line := if line.getLast? = some 13 then line.dropLast else line
    line.takeWhile (· ≠ 0)

/-- The pattern of a line, unless it is invalid or has none. -/
def line_pattern (original : Bytes) (index : ℕ) : Option Pattern :=
  match Pattern.compile index original with
  | .ok pattern => pattern
  | .error _ => none

/-- What is wrong with a line. -/
def line_error (original : Bytes) (index : ℕ) : Option LineError :=
  match Pattern.compile index original with
  | .ok _ => none
  | .error detail => some ⟨index + 1, original, detail⟩

/-- **Every line of one ignore file**, in order, the invalid ones apart. -/
def parse (text : Bytes) : List Pattern × List LineError :=
  ((lines text).zipIdx.filterMap fun (original, index) => line_pattern original index,
    (lines text).zipIdx.filterMap fun (original, index) => line_error original index)

end Ferret.Policy
