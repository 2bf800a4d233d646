import Ferret.Policy.Buckets
import Mathlib.Data.List.SplitBy

/-!
# The rules of a directory

Which ignore rules are in force for one directory, as one list, and the
decision for each of its entries. The files concatenated lowest precedence
first (global, exclude, `.gitignore`, `.ignore`, `.rgignore`, `.ferretignore`,
each from the root to here) and searched for the last matching line decide. A
directory holds that concatenation as one list of *basename* rules: a rule
without a slash matches the same names everywhere and goes into every list
below its file, and an anchored rule is followed by cursors, each of which puts
the component it stands on into the list.

Rules and lists are interned in tables shared by every directory of one root:
a rule by its text and band, a list by the ids of its rules. The tables are
association lists, and each function that may add to them hands them back.
-/

namespace Ferret.Policy

/-- Which kind of ignore file a rule came from, lowest precedence first. -/
inductive Band where
  | global
  | repo
  | ferret
deriving DecidableEq

/-- One distinct basename rule. Its line is meaningless: a list renumbers
it. -/
structure Rule where
  id : ℕ
  pattern : Pattern
  band : Band

/-- **One directory's rules compiled for matching**, lowest precedence
first. -/
structure RuleList where
  key : List ℕ
  index : Gitignore
  /-- Positions from here on came from a repository's ignore files. -/
  repo_from : ℕ
  /-- Positions from here on came from a `.ferretignore`. -/
  ferret_from : ℕ

namespace RuleList

def compile (rules : List Rule) : RuleList where
  key := rules.map (·.id)
  index := Gitignore.from_patterns (rules.zipIdx.map fun (rule, i) => rule.pattern.renumbered i)
  repo_from := (rules.takeWhile (·.band = .global)).length
  ferret_from := (rules.takeWhile (·.band ≠ .ferret)).length

/-- The last rule matching an entry: whether it whitelists, and whether it came
from a `.ferretignore`. -/
def last_match (l : RuleList) (name : Bytes) (is_dir : Bool) : Option (Bool × Bool) :=
  (l.index.best name is_dir).map fun (i, result) =>
    (result == .whitelist, decide (l.ferret_from ≤ i))

end RuleList

/-- The rule and list tables of one root. -/
structure Lists where
  rules : List ((RuleText × Band) × Rule)
  lists : List (List ℕ × RuleList)

namespace Lists

def default : Lists := ⟨[], []⟩

/-- The one rule with a pattern's text and band. -/
def rule (lists : Lists) (pattern : Pattern) (band : Band) : Rule × Lists :=
  match lists.rules.lookup (pattern.text, band) with
  | some rule => (rule, lists)
  | none =>
    let rule : Rule := ⟨lists.rules.length, pattern, band⟩
    (rule, { lists with rules := ((pattern.text, band), rule) :: lists.rules })

/-- The one compiled list of some rules, compiling it on first use. -/
def list (lists : Lists) (key : List ℕ) (rules : List Rule) : RuleList × Lists :=
  match lists.lists.lookup key with
  | some list => (list, lists)
  | none =>
    let list := RuleList.compile rules
    (list, { lists with lists := (list.key, list) :: lists.lists })

end Lists

/-! ## Layers -/

/-- One anchored pattern of a file, and the rule each cursor position projects
to, at `2 * pos + fed`. -/
structure Anchored where
  pattern : Pattern
  projections : List (Option Rule)
  /-- A `.ferretignore` re-include that no later line supersedes. -/
  reaches : Bool

/-- One compiled ignore file: the rules that match the same names in every
directory, with their lines, and the anchored patterns, in source order. -/
structure Source where
  shared : List (ℕ × Rule)
  anchored : List Anchored

/-- A position in one anchored pattern. -/
structure Cursor where
  slot : ℕ
  pos : ℕ
  fed : Bool
deriving DecidableEq

/-- **One ignore file and its live cursors in one directory**, in slot
order. -/
structure Layer where
  source : Source
  cursors : List Cursor

/-- Interns a pattern's projections. -/
def intern_projections (band : Band) :
    List (Option Pattern) → Lists → List (Option Rule) × Lists
  | [], lists => ([], lists)
  | none :: rest, lists =>
    let (rules, lists) := intern_projections band rest lists
    (none :: rules, lists)
  | some projected :: rest, lists =>
    let (rule, lists) := lists.rule projected band
    let (rules, lists) := intern_projections band rest lists
    (some rule :: rules, lists)

/-- The patterns of a file, shared and anchored. A shared one that cannot match
anything projects to nothing. -/
def compile_patterns (band : Band) : List Pattern → Lists → Source × Lists
  | [], lists => (⟨[], []⟩, lists)
  | pattern :: later, lists =>
    if pattern.is_shared_basename then
      match pattern.projections.head? with
      | some (some projected) =>
        let (rule, lists) := lists.rule projected band
        let (source, lists) := compile_patterns band later lists
        ({ source with shared := (pattern.line, rule) :: source.shared }, lists)
      | _ => compile_patterns band later lists
    else
      let reaches := band = .ferret && pattern.is_anchored_reinclude &&
        !later.any fun other => pattern.is_superseded_by other
      let (projections, lists) := intern_projections band pattern.projections lists
      let (source, lists) := compile_patterns band later lists
      ({ source with anchored := ⟨pattern, projections, reaches⟩ :: source.anchored }, lists)

namespace Layer

def compile_text (text : Bytes) (band : Band) (lists : Lists) : (Layer × List LineError) × Lists :=
  let (patterns, errors) := parse text
  let (source, lists) := compile_patterns band patterns lists
  let cursors := (List.range source.anchored.length).map fun slot => ⟨slot, 0, false⟩
  ((⟨source, cursors⟩, errors), lists)

/-- This layer, unless it can no longer contribute anything. -/
def live (l : Layer) : Option Layer :=
  if l.source.shared ≠ [] ∨ l.cursors ≠ [] then some l else none

/-- The cursors of one pattern step together. -/
def step_group (source : Source) (name : Bytes) (group : List Cursor) : List Cursor :=
  match group.head? with
  | none => []
  | some first =>
    match source.anchored[first.slot]? with
    | none => []
    | some anchored =>
      (anchored.pattern.step (group.map fun cursor => (cursor.pos, cursor.fed)) name).map
        fun (pos, fed) => ⟨first.slot, pos, fed⟩

/-- This layer in child `name`, or `none` when its cursors do not change. -/
def stepped (l : Layer) (name : Bytes) : Option Layer :=
  if l.cursors = [] then none
  else
    let out := (l.cursors.splitBy fun a b => a.slot == b.slot).flatMap (step_group l.source name)
    if out = l.cursors then none else some { l with cursors := out }

/-- The rules of a file from a cursor on: the shared rules still to come,
merged by line with the cursors' projections. -/
def merge_rules (source : Source) : List (ℕ × Rule) → List Cursor → List Rule
  | shared, [] => shared.map Prod.snd
  | shared, cursor :: cursors =>
    match source.anchored[cursor.slot]? with
    | none => merge_rules source shared cursors
    | some anchored =>
      let line := anchored.pattern.line
      (shared.takeWhile fun entry => entry.1 < line).map Prod.snd ++
        (anchored.projections[2 * cursor.pos + cursor.fed.toNat]?).join.toList ++
        merge_rules source (shared.dropWhile fun entry => entry.1 < line) cursors

/-- **This file's rules for this directory**, in source order. -/
def rules (l : Layer) : List Rule := merge_rules l.source l.source.shared l.cursors

end Layer

/-! ## States -/

structure WorkTree where
  exclude : Option Layer
  /-- Work tree top first. -/
  ignores : List Layer

/-- **The ignore files in force and their cursors.** -/
structure State where
  global : Option Layer
  /-- `none` outside a git work tree. -/
  git : Option WorkTree
  /-- Root first. -/
  ferret : List Layer
  ignore : List Layer
  rgignore : List Layer

/-- The ignore-related contents of one directory. A file that is absent is
`none`. -/
structure IgnoreFiles where
  ferretignore : Option Bytes
  /-- Has no effect outside a git work tree. -/
  gitignore : Option Bytes
  /-- The directory starts a work tree. -/
  git_root : Bool
  /-- Read only where a work tree starts. -/
  git_exclude : Option Bytes
  ignore : Option Bytes
  rgignore : Option Bytes

/-- No ignore files. -/
def IgnoreFiles.absent : IgnoreFiles := ⟨none, none, false, none, none, none⟩

/-- Which ignore source an error came from, by absolute path. -/
inductive IgnoreFile where
  | ferret (path : List Bytes)
  | git (path : List Bytes)
  | gitExclude (path : List Bytes)
  | global
  | dot (path : List Bytes)
deriving DecidableEq

/-- One line that is not a valid glob; it was dropped. -/
structure PatternError where
  file : IgnoreFile
  line : ℕ
  pattern : Bytes
  detail : String
deriving DecidableEq

/-- What compiling a file adds to. -/
structure Compiling where
  lists : Lists
  errors : List PatternError

/-- Compiles one ignore file, if it is there and has rules, reporting the lines
that are not valid globs and applying the rest. -/
def Layer.compile (file : IgnoreFile) (text : Option Bytes) (band : Band) (c : Compiling) :
    Option Layer × Compiling :=
  match text with
  | none => (none, c)
  | some text =>
    let ((layer, errors), lists) := Layer.compile_text text band c.lists
    (layer.live,
      ⟨lists, c.errors ++ errors.map fun error => ⟨file, error.line, error.pattern, error.detail⟩⟩)

namespace State

/-- Lowest precedence first. -/
def layers (s : State) : List Layer :=
  s.global.toList ++
    (s.git.toList.flatMap fun tree => tree.exclude.toList ++ tree.ignores) ++
    s.ignore ++ s.rgignore ++ s.ferret

/-- Every layer's rules for this directory, lowest precedence first. -/
def rules (s : State) : List Rule := s.layers.flatMap Layer.rules

/-- A layer moved into child `name`, if it can still contribute. -/
def move (name : Bytes) (layer : Layer) : Option Layer := ((layer.stepped name).getD layer).live

/-- Every layer moved into child `name`. A layer that is dropped leaves the work
tree it belonged to in force. -/
def moved (s : State) (name : Bytes) : State where
  global := s.global.bind (move name)
  git := s.git.map fun tree =>
    { exclude := tree.exclude.bind (move name)
      ignores := tree.ignores.filterMap (move name) }
  ignore := s.ignore.filterMap (move name)
  rgignore := s.rgignore.filterMap (move name)
  ferret := s.ferret.filterMap (move name)

/-- This state moved into child `name`, or `none` when that changes nothing. A
child that starts a work tree drops the enclosing one's files. -/
def stepped (s : State) (name : Bytes) (git_root : Bool) : Option State :=
  let changed := s.layers.any fun layer => (layer.stepped name).isSome
  if git_root && s.git.isSome then
    some { (if changed then s.moved name else s) with git := none }
  else if changed then some (s.moved name)
  else none

/-- The work tree of directory `dir`, which may start one. -/
def start_tree (git : Option WorkTree) (dir : List Bytes) (files : IgnoreFiles) (c : Compiling) :
    Option WorkTree × Compiling :=
  if files.git_root then
    let (exclude, c) := Layer.compile
      (.gitExclude (dir ++ [ascii ".git", ascii "info", ascii "exclude"])) files.git_exclude .repo c
    (some { exclude, ignores := [] }, c)
  else (git, c)

/-- A work tree's `.gitignore` in directory `dir`. -/
def add_gitignore (git : Option WorkTree) (dir : List Bytes) (files : IgnoreFiles) (c : Compiling) :
    Option WorkTree × Compiling :=
  match git with
  | none => (none, c)
  | some tree =>
    let (gitignore, c) :=
      Layer.compile (.git (dir ++ [ascii ".gitignore"])) files.gitignore .repo c
    (some { tree with ignores := tree.ignores ++ gitignore.toList }, c)

/-- Adds the ignore files of directory `dir`. -/
def add_files (s : State) (dir : List Bytes) (files : IgnoreFiles) (c : Compiling) :
    State × Compiling :=
  let (ferret, c) :=
    Layer.compile (.ferret (dir ++ [ascii ".ferretignore"])) files.ferretignore .ferret c
  let (git, c) := start_tree s.git dir files c
  let (git, c) := add_gitignore git dir files c
  let (ignore, c) := Layer.compile (.dot (dir ++ [ascii ".ignore"])) files.ignore .repo c
  let (rgignore, c) := Layer.compile (.dot (dir ++ [ascii ".rgignore"])) files.rgignore .repo c
  ({ s with
      git
      ferret := s.ferret ++ ferret.toList
      ignore := s.ignore ++ ignore.toList
      rgignore := s.rgignore ++ rgignore.toList }, c)

/-- Whether a `.ferretignore` re-include can match something below the excluded
directory `name`. -/
def reaches_below (s : State) (name : Bytes) : Bool :=
  s.ferret.any fun layer => layer.cursors.any fun cursor =>
    (layer.source.anchored[cursor.slot]?).any fun anchored =>
      anchored.reaches && !(anchored.pattern.step [(cursor.pos, cursor.fed)] name).isEmpty

end State

/-! ## Directories -/

/-- **The rules in force for one directory.** -/
structure DirRules where
  /-- This directory, relative to the root. -/
  path : List Bytes
  state : State
  list : RuleList
  /-- Walking an excluded directory only for anchored re-includes. -/
  traversing : Bool

/-- The interned list for a state. A child whose list has its parent's key
reuses the parent's. -/
def Lists.list_of (lists : Lists) (state : State) (parent : Option RuleList) : RuleList × Lists :=
  let key := state.rules.map (·.id)
  match parent with
  | some parent => if parent.key = key then (parent, lists) else lists.list key state.rules
  | none => lists.list key state.rules

/-- What a directory entry is. -/
inductive Entry where
  | dir
  | file (size : ℕ)
  | symlink
  | other
deriving DecidableEq

inductive Reason where
  | tooLarge
  | symlink
  | special
deriving DecidableEq

/-- What the crawler does with one entry. -/
inductive Decision where
  | skip
  | descend
  | traverse
  | catalog (reason : Reason)
  | index
deriving DecidableEq

namespace DirRules

/-- Rules at a configured root, and the lines that could not be used. -/
def root (root : List Bytes) (global : Option Bytes) (files : IgnoreFiles) :
    (DirRules × List PatternError) × Lists :=
  let (global, c) := Layer.compile .global global .global ⟨Lists.default, []⟩
  let (state, c) := State.add_files ⟨global, none, [], [], []⟩ root files c
  let (list, lists) := c.lists.list_of state none
  ((⟨[], state, list, false⟩, c.errors), lists)

/-- **Rules for child directory `name`**, whose ignore files are `files`. -/
def enter (root : List Bytes) (d : DirRules) (name : Name) (files : IgnoreFiles) (lists : Lists) :
    (DirRules × List PatternError) × Lists :=
  let path := d.path ++ [name.val]
  let stepped := d.state.stepped name files.git_root
  let adds_files := files.ferretignore.isSome || files.ignore.isSome || files.rgignore.isSome ||
    files.git_root || (files.gitignore.isSome && d.state.git.isSome)
  if stepped.isNone && !adds_files then ((⟨path, d.state, d.list, false⟩, []), lists)
  else
    let (state, c) := (stepped.getD d.state).add_files (root ++ path) files ⟨lists, []⟩
    let (list, lists) := c.lists.list_of state (some d.list)
    ((⟨path, state, list, false⟩, c.errors), lists)

/-- Rules for an excluded child directory, whose ignore files are never
read. -/
def traverse (d : DirRules) (name : Name) (lists : Lists) : DirRules × Lists :=
  let path := d.path ++ [name.val]
  match d.state.stepped name false with
  | none => (⟨path, d.state, d.list, true⟩, lists)
  | some state =>
    let (list, lists) := lists.list_of state (some d.list)
    (⟨path, state, list, true⟩, lists)

/-- Whether `.gitignore` rules are in force here. -/
def in_work_tree (d : DirRules) : Bool := d.state.git.isSome

/-- **What to do with the child `name`.** -/
def decide_child (d : DirRules) (size_cap : ℕ) (name : Bytes) (entry : Entry) : Decision :=
  let is_dir := entry = .dir
  let included :=
    match d.list.last_match name is_dir with
    | some (true, ferret) => !d.traversing || ferret
    | some (false, _) => false
    | none => !d.traversing
  if !included then
    if is_dir && d.state.reaches_below name then .traverse else .skip
  else
    match entry with
    | .dir => .descend
    | .file size => if size_cap < size then .catalog .tooLarge else .index
    | .symlink => .catalog .symlink
    | .other => .catalog .special

end DirRules

end Ferret.Policy
