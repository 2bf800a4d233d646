import Mathlib.Data.List.DropRight

/-!
# Resolving a path in a namespace

A path is a text of bytes, read as the segments between its slashes. A
namespace says what a path of names below the root is: a node, or the opaque
node it lies below. `resolveIn` walks the components of an absolute path in a
namespace. Where it follows a symlink it starts again from the root, with the
text rewritten, and `..` is collapsed only after an exact directory.

The texts are those of the paths the walk starts from. The prefix that a walk
has come to is kept as its names, since it is only ever the root, a name pushed
or a name popped.
-/

namespace Ferret.Find.Walk

open List

abbrev Text := List UInt8

def SLASH : UInt8 := 47

def DOT : Text := [46]

def DOT_DOT : Text := [46, 46]

inductive Errno
  | NOENT
  | LOOP
  /-- A path is empty. -/
  | INVAL
deriving DecidableEq

/-! ## Paths -/

inductive Component
  | rootDir
  | curDir
  | parentDir
  | normal (name : Text)
deriving DecidableEq

def Component.text : Component → Text
  | rootDir => [SLASH]
  | curDir => DOT
  | parentDir => DOT_DOT
  | normal name => name

/-- The text between the slashes of a path. -/
def segments (path : Text) : List Text := path.splitOn SLASH

/-- What a segment says, if anything. -/
def component (segment : Text) : Option Component :=
  if segment = [] ∨ segment = DOT then none
  else if segment = DOT_DOT then some .parentDir
  else some (.normal segment)

/-- The components of some segments. -/
def parts (segments : List Text) : List Component := segments.filterMap component

def isAbsolute (path : Text) : Bool := path.head? = some SLASH

/-- The components of a path. `.` is one only where it starts the path. -/
def components (path : Text) : List Component :=
  if isAbsolute path then .rootDir :: parts (segments path)
  else if (segments path).head? = some DOT then .curDir :: parts (segments path)
  else parts (segments path)

/-- A path with another one joined to it. -/
def push (base path : Text) : Text :=
  if isAbsolute path then path
  else if base = [] ∨ base.getLast? = some SLASH then base ++ path
  else base ++ SLASH :: path

def extend (base : Text) (parts : List Component) : Text :=
  parts.foldl (fun path part => push path part.text) base

/-- A path from the root, without `.` and repeated slashes; exactly two leading
slashes are kept, and a trailing one. -/
def absolute (cwd path : Text) : Except Errno Text :=
  if path = [] then .error .INVAL
  else
    let normalized :=
      if isAbsolute path then
        if [SLASH, SLASH].isPrefixOf path ∧ ¬ [SLASH, SLASH, SLASH].isPrefixOf path then
          extend [SLASH, SLASH] (parts (segments path))
        else extend [] (components path)
      else extend cwd (parts (segments path))
    .ok (if path.getLast? = some SLASH then push normalized [] else normalized)

/-! ## Walking a namespace -/

/-- A namespace that paths are resolved in. -/
structure Namespace (Node : Type) where
  /-- The node at the names below the root, and whether it is an opaque one
  above them. -/
  resolve : List Text → Option (Node × Bool)
  linkTarget : Node → Option Text
  isDirectory : Node → Bool

variable {Node : Type}

/-- How far a walk has come. -/
structure Walked (Node : Type) where
  names : List Text
  /-- A later `..` may be collapsed. -/
  exact : Bool
  /-- The last node. -/
  node : Option Node
  /-- The walk is inside the namespace. -/
  inside : Bool

def Walked.start : Walked Node where
  names := []
  exact := true
  node := none
  inside := false

/-- The names with a component after them. -/
def enter (names : List Text) : Component → List Text
  | .rootDir => []
  | .curDir => names
  | .parentDir => names.dropLast
  | .normal name => names ++ [name]

/-- The text of the root and some names. -/
def render (names : List Text) : Text := names.foldl push [SLASH]

/-- How a walk ends. -/
inductive Turn (Node : Type)
  | answer (result : Except Errno (Option (Node × Bool)))
  | redirected (next : Text)
  | walked (names : List Text)

/-- One walk over the components that are left. -/
def walk (ns : Namespace Node) (follow : Bool) (s : Walked Node) : List Component → Turn Node
  | [] => .walked s.names
  | part :: rest =>
    if part = .parentDir ∧ s.exact = false then
      .answer (.ok (s.node.map fun target => (target, true)))
    else
      let names := enter s.names part
      match ns.resolve names with
      | none =>
        if s.inside ∧ part ≠ .parentDir then .answer (.error .NOENT)
        else walk ns follow { s with names, inside := false } rest
      | some (target, true) =>
        walk ns follow { names, exact := false, node := some target, inside := true } rest
      | some (target, false) =>
        match if follow ∨ rest ≠ [] then ns.linkTarget target else none with
        | some link => .redirected (extend (push (render names.dropLast) link) rest)
        | none =>
          walk ns follow
            { names, exact := ns.isDirectory target, node := some target, inside := true } rest

/-- Walks of this many texts, each from the one before. -/
def walks (ns : Namespace Node) (cwd : Text) (follow : Bool) :
    ℕ → Text → Except Errno (Option (Node × Bool))
  | 0, _ => .error .LOOP
  | n + 1, pending =>
    match walk ns follow .start (components pending) with
    | .answer result => result
    | .redirected next => (absolute cwd next).bind (walks ns cwd follow n)
    | .walked names => .ok (ns.resolve names)

def resolveIn (ns : Namespace Node) (cwd path : Text) (follow : Bool) :
    Except Errno (Option (Node × Bool)) :=
  (absolute cwd path).bind (walks ns cwd follow 40)

/-! ## Texts and their components -/

theorem parts_append (segments more : List Text) :
    parts (segments ++ more) = parts segments ++ parts more := filterMap_append

@[simp]
theorem parts_nil : parts [] = [] := rfl

theorem parts_cons_none {segment : Text} (h : component segment = none) (rest : List Text) :
    parts (segment :: rest) = parts rest := filterMap_cons_none h

theorem parts_cons_some {segment : Text} {part : Component} (h : component segment = some part)
    (rest : List Text) : parts (segment :: rest) = part :: parts rest :=
  filterMap_cons_some h

theorem component_nil : component [] = none := rfl

theorem segments_join (path more : Text) :
    segments (path ++ SLASH :: more) = segments path ++ segments more :=
  splitOn_append_cons_self _ _

theorem segments_of_notMem {text : Text} (h : SLASH ∉ text) : segments text = [text] :=
  splitOn_eq_singleton h

theorem notMem_segments {path segment : Text} (h : segment ∈ segments path) :
    SLASH ∉ segment := by
  induction path generalizing segment with
  | nil =>
    rw [mem_singleton.mp h]
    exact not_mem_nil
  | cons b path ih =>
    rw [segments, splitOn_cons_eq_if_modifyHead] at h
    split_ifs at h with hb
    · obtain rfl | h := mem_cons.mp h
      · exact not_mem_nil
      · exact ih h
    · obtain ⟨first, _, hsplit⟩ := exists_cons_of_ne_nil (splitOn_ne_nil SLASH path)
      rw [hsplit, modifyHead_cons] at h
      have hfirst : SLASH ∉ first := ih (by rw [segments, hsplit]; exact .head _)
      obtain rfl | h := mem_cons.mp h
      · rintro (_ | ⟨_, hmem⟩)
        · exact hb (beq_self_eq_true _)
        · exact hfirst hmem
      · exact ih (by rw [segments, hsplit]; exact .tail _ h)

/-- A component of a path reads back from its text. -/
theorem parts_text {segs : List Text} (hsegs : ∀ segment ∈ segs, SLASH ∉ segment)
    {part : Component} (h : part ∈ parts segs) :
    parts (segments part.text) = [part] ∧ isAbsolute part.text = false := by
  obtain ⟨segment, hmem, hpart⟩ := mem_filterMap.mp h
  have hslash := hsegs segment hmem
  have htext : part.text = segment := by
    unfold component at hpart
    split_ifs at hpart with hnone hdots <;> cases hpart
    · exact hdots.symm
    · rfl
  rw [htext, segments_of_notMem hslash, parts_cons_some hpart]
  refine ⟨rfl, ?_⟩
  rw [isAbsolute, decide_eq_false_iff_not]
  intro hhead
  exact hslash (mem_of_mem_head? hhead)

/-- What joining a relative path adds. -/
theorem parts_push (base : Text) {path : Text} (h : isAbsolute path = false) :
    parts (segments (push base path)) = parts (segments base) ++ parts (segments path) := by
  rw [push, if_neg (by rw [h]; exact Bool.false_ne_true)]
  by_cases hempty : base = []
  · subst hempty
    rfl
  by_cases hlast : base.getLast? = some SLASH
  · rw [if_pos (Or.inr hlast)]
    obtain ⟨start, rfl⟩ := getLast?_eq_some_iff.mp hlast
    rw [append_assoc]
    show parts (segments (start ++ SLASH :: path)) = parts (segments (start ++ SLASH :: [])) ++ _
    rw [segments_join, segments_join, parts_append, parts_append]
    show _ = parts (segments start) ++ [] ++ _
    rw [append_nil]
  · rw [if_neg (by simp [hempty, hlast]), segments_join, parts_append]

theorem isAbsolute_push {base : Text} (h : isAbsolute base = true) (path : Text) :
    isAbsolute (push base path) = true := by
  unfold push
  split_ifs with hpath
  · exact hpath
  all_goals
    cases base with
    | nil => cases h
    | cons b base => exact h

theorem isAbsolute_extend {base : Text} (h : isAbsolute base = true) (ps : List Component) :
    isAbsolute (extend base ps) = true := by
  induction ps generalizing base with
  | nil => exact h
  | cons _ ps ih => exact ih (isAbsolute_push h _)

/-- What extending by components of a path adds. -/
theorem parts_extend (base : Text) {ps : List Component}
    (h : ∀ part ∈ ps, parts (segments part.text) = [part] ∧ isAbsolute part.text = false) :
    parts (segments (extend base ps)) = parts (segments base) ++ ps := by
  induction ps generalizing base with
  | nil => exact (append_nil _).symm
  | cons part ps ih =>
    obtain ⟨hpart, habsolute⟩ := h part (.head _)
    show parts (segments (extend (push base part.text) ps)) = _
    rw [ih _ fun p hp => h p (mem_cons_of_mem _ hp), parts_push _ habsolute, hpart, append_assoc]
    rfl

/-- **A path made absolute has the same components**, if it already was absolute. -/
theorem absolute_components (cwd : Text) {path : Text} (h : isAbsolute path = true) :
    ∃ pending, absolute cwd path = .ok pending ∧
      components pending = .rootDir :: parts (segments path) := by
  have hempty : path ≠ [] := by
    rintro rfl
    cases h
  have hadded : ∀ base, isAbsolute base = true → parts (segments base) = [] →
      isAbsolute (extend base (parts (segments path))) = true ∧
        parts (segments (extend base (parts (segments path)))) = parts (segments path) := by
    intro base hbase hnone
    refine ⟨isAbsolute_extend hbase _, ?_⟩
    rw [parts_extend _ fun part hpart => parts_text (fun _ => notMem_segments) hpart, hnone, nil_append]
  have hstart : extend [] (components path) = extend [SLASH] (parts (segments path)) := by
    rw [components, if_pos h]
    rfl
  rw [absolute, if_neg hempty, if_pos h, hstart]
  refine ⟨_, rfl, ?_⟩
  have htrailing : ∀ base, isAbsolute base = true ∧ parts (segments base) = parts (segments path) →
      components (if path.getLast? = some SLASH then push base [] else base)
        = .rootDir :: parts (segments path) := by
    rintro base ⟨hbase, hparts⟩
    split_ifs
    · rw [components, if_pos (isAbsolute_push hbase _), parts_push _ rfl, hparts]
      exact congrArg _ (append_nil _)
    · rw [components, if_pos hbase, hparts]
  apply htrailing
  split_ifs <;> exact hadded _ rfl rfl

end Ferret.Find.Walk
