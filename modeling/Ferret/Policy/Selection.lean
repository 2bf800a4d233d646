import Ferret.Policy.Braces
import Ferret.Policy.Override
import Mathlib.Data.List.Permutation
import Mathlib.Data.List.ReduceOption

/-!
# Overrides of the command line

An ordered list of globs, each of which admits or excludes, decides for a path;
below it is a list of file types, for a file that no glob matches. Where some of
them admit, what none of them matches is left out; otherwise only a hidden name
is. A glob's alternatives are patterns of their own, and it matches what one of
them does.

Two shortcuts stand beside this. Without rules only the last component is read.
And where every glob reads the last component only, a name that is rejected
alone is rejected in every directory.
-/

namespace Ferret.Policy

open Guarded List

/-! ## Paths -/

/-- A path's components, without empty and `.` ones. -/
def components (path : Bytes) : List Bytes :=
  (path.splitOn (byte '/')).filter fun p => p ≠ [] ∧ p ≠ [byte '.']

/-- The same from the end. -/
def components_from_end (path : Bytes) : List Bytes := (components path).reverse

/-- Whether a name is held hidden. -/
def is_hidden (name : Bytes) : Bool := name.head? = some (byte '.')

namespace Pattern

/-- Whether this override matches; the projections that are kept between paths do not
change the answer. -/
def overrides (p : Pattern) (components : List Bytes) (directory : Bool) : Bool :=
  (p.matches_override none components directory).1

/-- Whether this override matches the empty path, as globs see the working directory
relative to itself. -/
def matches_empty_path (p : Pattern) : Bool :=
  match p.components.dropWhile (· = .globstar true) with
  | [] => true
  | [.glob g] => g.atoms.all (· = .star)
  | _ => false

def compile_override (original : Bytes) : Except String (Option Pattern) :=
  compile_syntax 0 original .override

end Pattern

/-! ## The selection -/

/-- **Ordered overrides.** -/
structure GrepSelection where
  rules : List (Bool × List Pattern) := []
  positive : Bool := false
  types : List (Bool × List Pattern) := []
  typed : Bool := false
  hidden : Bool := false

/-- The patterns of some globs, those that are empty or a comment left out. -/
def compile_globs (globs : List Bytes) : Guarded GrepGlobError (List Pattern) :=
  match globs.mapM Pattern.compile_override with
  | .ok patterns => .ok patterns.reduceOption
  | .error detail => .error (.error (.pattern detail))

/-- The outer override has taken its one negation marker. -/
def escape_marker (body : Bytes) : Bytes :=
  if body.head? = some (byte '!') then byte '\\' :: body else body

/-- The last of some rules whose patterns match. -/
def last_rule (hit : Pattern → Bool) (rules : List (Bool × List Pattern)) : Option Bool :=
  rules.reverse.findSome? fun rule => if rule.2.any hit then some rule.1 else none

namespace GrepSelection

/-- Reveals held hidden names without overriding exclusions or globs. -/
def with_hidden (s : GrepSelection) (hidden : Bool) : GrepSelection := { s with hidden := hidden }

/-- **Adds one `-g` operand.** A leading `!` excludes. -/
def push (s : GrepSelection) (glob : Bytes) : Guarded GrepGlobError GrepSelection :=
  let admits : Bool := glob.head? ≠ some (byte '!')
  let body := if admits then glob else glob.tail
  if body = [] ∨ body.head? = some (byte '#') then .ok s
  else do
    validate body.length body
    let expanded ← expand body
    let patterns ← compile_globs (expanded.map escape_marker)
    return { s with
      positive := s.positive || admits && !patterns.isEmpty
      rules := s.rules ++ [(admits, patterns)] }

/-- **Adds one `-t` or `-T` selection** of a table of types; `all` names every type. -/
def push_type (table : List (Bytes × List Bytes)) (s : GrepSelection) (name : Bytes)
    (admits : Bool) : Guarded GrepGlobError GrepSelection :=
  let globs := (table.filter fun entry => name = ascii "all" ∨ entry.1 = name).flatMap Prod.snd
  if globs = [] then .error (.error (.type name))
  else do
    let patterns ← compile_globs globs
    return { s with
      typed := s.typed || admits
      types := s.types ++ [(admits, patterns)] }

def decision (s : GrepSelection) (components : List Bytes) (directory : Bool) : Option Bool :=
  last_rule (·.overrides components directory) s.rules

/-- The last rule that matches the working directory's own path relative to itself. -/
def cwd_decision (s : GrepSelection) : Option Bool := last_rule Pattern.matches_empty_path s.rules

/-- The last type selection whose globs match a file name. -/
def type_decision (s : GrepSelection) (name : Bytes) : Option Bool :=
  last_rule (·.overrides [name] false) s.types

def allows_components (s : GrepSelection) (components : List Bytes) (hidden : Bool) : Bool :=
  let name := components.getLast?.getD []
  (s.decision components false).getD
    (!s.positive && (s.type_decision name).getD (!s.typed && (hidden || !is_hidden name)))

/-- **Whether a file is selected.** Without overrides only its name is read. -/
def allows (s : GrepSelection) (path : Bytes) : Bool :=
  if s.rules.isEmpty && s.types.isEmpty then
    s.hidden || (components_from_end path).head?.all fun name => !is_hidden name
  else s.allows_components (components path) s.hidden

def descend_components (s : GrepSelection) (components : List Bytes) (hidden : Bool) : Bool :=
  -- without components the directory is the working directory itself
  let matched := if components.isEmpty then s.cwd_decision else s.decision components true
  matched ≠ some false &&
    (matched = some true || hidden || !components.getLast?.any is_hidden)

/-- **Whether a directory is descended**; where a walk starts, it is. -/
def descend (s : GrepSelection) (path : Bytes) (depth : ℕ) : Bool :=
  if depth = 0 then true
  else if s.rules.isEmpty then s.hidden || !(components_from_end path).head?.any is_hidden
  else s.descend_components (components path) s.hidden

/-- Whether the globs and types admit only the files they match, judging each by its name
alone. -/
def whitelists_names (s : GrepSelection) : Bool :=
  (s.positive || s.typed) && s.rules.all fun rule => rule.2.all Pattern.is_shared_basename

/-- Whether a file of this name is left out wherever it lies. -/
def rejects_name (s : GrepSelection) (name : Bytes) : Bool :=
  s.whitelists_names && !s.allows_components [name] true

/-- Whether a walked name is held hidden although its path relative to the working directory
no longer shows it. -/
def hides_stripped (s : GrepSelection) (walked relative : Bytes) (depth : ℕ) : Bool :=
  if s.hidden || walked.length = relative.length then false
  else
    let kept := ((components_from_end relative).take depth).length
    kept < depth && ((components_from_end walked)[kept]?).any is_hidden &&
      s.cwd_decision ≠ some true

/-- **Selection for a walk**: a whitelist of an ignore file also reveals a hidden entry. -/
def selects (s : GrepSelection) (walked relative : Bytes) (depth : ℕ)
    (directory whitelisted : Bool) : Bool :=
  if whitelisted then
    if directory then depth = 0 || s.descend_components (components relative) true
    else s.allows_components (components relative) true
  else
    (if directory then s.descend relative depth else s.allows relative) &&
      !s.hides_stripped walked relative (min depth 1)

end GrepSelection

/-! ## Rejecting by name -/

theorem components_append_cons (dir name : Bytes) :
    components (dir ++ byte '/' :: name) = components dir ++ components name := by
  unfold components
  rw [splitOn_append_cons_self, filter_append]

/-- A file's name is one component of its path, the last one. -/
theorem components_file {name : Bytes} (hname : name ≠ []) (hdot : name ≠ [byte '.'])
    (hslash : byte '/' ∉ name) (dir : Bytes) :
    components name = [name] ∧ components (dir ++ byte '/' :: name) = components dir ++ [name] := by
  have hone : components name = [name] := by
    unfold components
    rw [splitOn_eq_singleton hslash]
    simp [hname, hdot]
  exact ⟨hone, by rw [components_append_cons, hone]⟩

theorem last_rule_congr {hit hit' : Pattern → Bool} {rules : List (Bool × List Pattern)}
    (h : ∀ rule ∈ rules, ∀ p ∈ rule.2, hit p = hit' p) :
    last_rule hit rules = last_rule hit' rules := by
  unfold last_rule
  rw [← head?_filterMap, ← head?_filterMap]
  refine congrArg List.head? (filterMap_congr fun rule hrule => ?_)
  have hany : rule.2.any hit = rule.2.any hit' := by
    rw [Bool.eq_iff_iff, any_eq_true, any_eq_true]
    exact exists_congr fun p => and_congr_right fun hp => by
      rw [h rule (mem_reverse.mp hrule) p hp]
  rw [hany]

/-- A pattern that reads the last component only does not ask for the others. -/
theorem Pattern.overrides_shared {p : Pattern} (h : p.is_shared_basename = true)
    (parents : List Bytes) (last : Bytes) (directory : Bool) :
    p.overrides (parents ++ [last]) directory = p.overrides [last] directory := by
  unfold Pattern.overrides Pattern.matches_override
  rw [getLast?_concat, getLast?_singleton]
  simp only [h, if_true]

namespace GrepSelection

/-- **A selection as commands build it**: from none, one operand after another. -/
inductive Built (table : List (Bytes × List Bytes)) : GrepSelection → Prop
  | default : Built table {}
  | with_hidden {s : GrepSelection} (h : Built table s) (hidden : Bool) :
      Built table (s.with_hidden hidden)
  | push {s s' : GrepSelection} (h : Built table s) {glob : Bytes}
      (hpush : s.push glob = .ok s') : Built table s'
  | push_type {s s' : GrepSelection} (h : Built table s) {name : Bytes} {admits : Bool}
      (hpush : push_type table s name admits = .ok s') : Built table s'

/-- What a pushed glob does: nothing, or it adds one rule. -/
theorem push_cases {s s' : GrepSelection} {glob : Bytes} (h : s.push glob = .ok s') :
    s' = s ∨ ∃ admits patterns positive,
      s' = { s with positive := positive, rules := s.rules ++ [(admits, patterns)] } := by
  unfold push at h
  dsimp only at h
  generalize (if decide (glob.head? ≠ some (byte '!')) = true then glob else glob.tail) = body at h
  by_cases hbody : body = [] ∨ body.head? = some (byte '#')
  · rw [if_pos hbody] at h
    cases h
    exact .inl rfl
  · rw [if_neg hbody] at h
    simp only [bind_eq_ok, pure_eq_ok] at h
    obtain ⟨-, -, _, -, patterns, -, rfl⟩ := h
    exact .inr ⟨_, _, _, rfl⟩

/-- What a pushed type does: it adds one selection. -/
theorem push_type_cases {table : List (Bytes × List Bytes)} {s s' : GrepSelection} {name : Bytes}
    {admits : Bool} (h : push_type table s name admits = .ok s') :
    ∃ patterns typed, s' = { s with typed := typed, types := s.types ++ [(admits, patterns)] } := by
  unfold push_type at h
  dsimp only at h
  split at h
  · cases h
  · simp only [bind_eq_ok, pure_eq_ok] at h
    obtain ⟨patterns, -, rfl⟩ := h
    exact ⟨_, _, rfl⟩

/-- Only what is there can admit. -/
structure Admits (s : GrepSelection) : Prop where
  positive : s.rules = [] → s.positive = false
  typed : s.types = [] → s.typed = false

theorem Built.admits {table : List (Bytes × List Bytes)} {s : GrepSelection}
    (h : Built table s) : s.Admits := by
  induction h with
  | default => exact ⟨fun _ => rfl, fun _ => rfl⟩
  | with_hidden _ _ ih => exact ⟨ih.positive, ih.typed⟩
  | push _ hpush ih =>
    obtain rfl | ⟨_, _, _, rfl⟩ := push_cases hpush
    · exact ih
    · exact ⟨fun h => absurd h (by simp), ih.typed⟩
  | push_type _ hpush ih =>
    obtain ⟨_, _, rfl⟩ := push_type_cases hpush
    exact ⟨ih.positive, fun h => absurd h (by simp)⟩

section

variable {s : GrepSelection} {name : Bytes}

/-- Where every glob reads the last component only, a file's directory makes no
difference. -/
theorem allows_components_shared (h : s.whitelists_names = true) (parents : List Bytes)
    (hidden : Bool) :
    s.allows_components (parents ++ [name]) hidden = s.allows_components [name] hidden := by
  have hshared : ∀ rule ∈ s.rules, ∀ p ∈ rule.2, p.is_shared_basename = true := by
    simpa [whitelists_names, all_eq_true] using (Bool.and_eq_true_iff.mp h).2
  have hdecision : s.decision (parents ++ [name]) false = s.decision [name] false :=
    last_rule_congr fun rule hrule p hp => Pattern.overrides_shared (hshared rule hrule p hp) _ _ _
  unfold allows_components
  rw [hdecision, getLast?_concat, getLast?_singleton]

/-- What is hidden is not selected for being shown. -/
theorem allows_components_hidden {components : List Bytes}
    (h : s.allows_components components true = false) (hidden : Bool) :
    s.allows_components components hidden = false := by
  cases hidden with
  | true => exact h
  | false =>
    unfold allows_components at h ⊢
    dsimp only at h ⊢
    cases hd : s.decision components false with
    | some admits => rwa [hd] at h
    | none =>
      rw [hd] at h
      cases ht : s.type_decision (components.getLast?.getD []) with
      | some admits => rwa [ht] at h
      | none =>
        rw [ht] at h
        simp only [Option.getD_none, Bool.true_or, Bool.and_true] at h ⊢
        rw [← Bool.and_assoc, h, Bool.false_and]

/-- Without rules, only the name's hidden filtering is left. -/
theorem allows_eq (h : s.Admits) (path : Bytes) :
    s.allows path = s.allows_components (components path) s.hidden := by
  unfold allows
  split
  · rename_i hnone
    obtain ⟨hrules, htypes⟩ := Bool.and_eq_true_iff.mp hnone
    rw [List.isEmpty_iff] at hrules htypes
    have hdecision : s.decision (components path) false = none := by
      unfold decision
      rw [hrules]
      rfl
    have htype : ∀ name, s.type_decision name = none := by
      intro name
      unfold type_decision
      rw [htypes]
      rfl
    unfold allows_components components_from_end
    dsimp only
    rw [hdecision, htype, h.positive hrules, h.typed htypes, head?_reverse]
    cases (components path).getLast? with
    | none => simp [is_hidden]
    | some name => simp
  · rfl

theorem descend_eq (path : Bytes) (depth : ℕ) :
    s.descend path depth =
      (decide (depth = 0) || s.descend_components (components path) s.hidden) := by
  unfold descend
  split
  · rename_i hdepth
    rw [decide_eq_true hdepth, Bool.true_or]
  rename_i hdepth
  rw [decide_eq_false hdepth, Bool.false_or]
  split
  · rename_i hrules
    rw [List.isEmpty_iff] at hrules
    unfold descend_components decision cwd_decision components_from_end
    dsimp only
    rw [hrules, head?_reverse]
    simp [last_rule]
  · rfl

/-- **A name that is rejected alone is rejected everywhere**: no selection takes a file of
that name, whatever directory it lies in and however the walk came there. And the
shortcuts for a selection without rules answer as the components do. -/
theorem rejects_name_everywhere {table : List (Bytes × List Bytes)} (h : Built table s) :
    (∀ name path, s.rejects_name name = true → (components path).getLast? = some name →
        ∀ hidden, (s.with_hidden hidden).allows path = false
          ∧ ∀ walked depth whitelisted,
            (s.with_hidden hidden).selects walked path depth false whitelisted = false)
    ∧ (∀ dir name : Bytes, name ≠ [] → name ≠ [byte '.'] → byte '/' ∉ name →
        (components name).getLast? = some name
          ∧ (components (dir ++ byte '/' :: name)).getLast? = some name)
    ∧ (∀ path, s.allows path = s.allows_components (components path) s.hidden)
    ∧ ∀ path depth, s.descend path depth =
        (decide (depth = 0) || s.descend_components (components path) s.hidden) := by
  refine ⟨fun name path hrejects hlast hidden => ?_, fun dir name hname hdot hslash => ?_,
    allows_eq h.admits, descend_eq⟩
  · obtain ⟨hnames, hrejected⟩ := Bool.and_eq_true_iff.mp hrejects
    obtain ⟨_, hpath⟩ := getLast?_eq_some_iff.mp hlast
    have hfile : ∀ hidden, s.allows_components (components path) hidden = false := by
      intro hidden
      rw [hpath]
      refine allows_components_hidden ?_ hidden
      rw [allows_components_shared hnames]
      simpa using hrejected
    have hallows : (s.with_hidden hidden).allows path = false :=
      (allows_eq (h.with_hidden hidden).admits path).trans (hfile hidden)
    refine ⟨hallows, fun walked depth whitelisted => ?_⟩
    unfold selects
    cases whitelisted with
    | true => exact hfile true
    | false => simp [hallows]
  · obtain ⟨hone, hdir⟩ := components_file hname hdot hslash dir
    rw [hone, hdir]
    exact ⟨rfl, getLast?_concat⟩

end

/-- Only manifests. -/
def only_toml : GrepSelection where
  rules := [(true, [{
    index := 0
    result := .ignore
    directory_only := false
    basename_only := true
    components := [.glob ⟨[.star, .literal ⟨ascii ".toml", by decide⟩]⟩]
    components_ne := nofun
    basename_single := fun _ => rfl }])]
  positive := true

theorem built_only_toml : Built [] only_toml :=
  .push (s := {}) .default (show push {} (ascii "*.toml") = .ok only_toml by cbv)

/-- Beside it, no other file is taken. -/
theorem rejects_name_everywhere_toml :
    only_toml.rejects_name (ascii "a.rs") = true
      ∧ (only_toml.with_hidden true).allows (ascii "src/a.rs") = false
      ∧ (only_toml.with_hidden true).selects (ascii "src/a.rs") (ascii "src/a.rs") 2 false true
        = false := by
  have hrejects : only_toml.rejects_name (ascii "a.rs") = true := by decide +kernel
  have hfile := (rejects_name_everywhere built_only_toml).2.1 (ascii "src") (ascii "a.rs")
    (by decide) (by decide) (by decide)
  obtain ⟨hallows, hselects⟩ := (rejects_name_everywhere built_only_toml).1 (ascii "a.rs")
    (ascii "src/a.rs") hrejects hfile.2 true
  exact ⟨hrejects, hallows, hselects _ 2 true⟩

end GrepSelection

end Ferret.Policy
