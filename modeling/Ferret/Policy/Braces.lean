import Ferret.Lib.Guarded
import Ferret.Policy.Glob

/-!
# Brace alternatives

The globs of the command line may hold alternatives, `{a,b}`. They are expanded
when a glob is compiled, one text for each choice, and each text is compiled on
its own. A scanner here finds the first group of a text; an escape, a character
class and a group are passed over as a whole. Positions are the suffixes from
them on, as in a component glob.
-/

namespace Ferret.Policy

open Guarded

/-- An override glob that cannot be compiled. -/
inductive GrepGlobError where
  | alternatives
  | nesting
  | unopenedAlternation
  | unclosedAlternation
  | unclosedClass
  | danglingEscape
  | pattern (detail : String)
  /-- A `-t`/`-T` name that is not one of the built-in types. -/
  | type (name : Bytes)
deriving DecidableEq

/-- The loop of `class_end`. -/
def class_rest : Bytes → Option Bytes
  | [] => none
  | [b] => if b = byte ']' then some [] else none
  | b :: c :: rest =>
    if b = byte '\\' then class_rest rest
    else if b = byte ']' then some (c :: rest)
    else class_rest (c :: rest)

/-- What follows a character class, from what follows its `[`. -/
def class_end (text : Bytes) : Guarded GrepGlobError Bytes :=
  let text := if text.head?.any fun b => b = byte '!' ∨ b = byte '^' then text.tail else text
  let text := if text.head? = some (byte ']') then text.tail else text
  match class_rest text with
  | some rest => .ok rest
  | none => .error (.error .unclosedClass)

/-- Fails on a class that is not closed, and on an escape at the end. -/
def validate : ℕ → Bytes → Guarded GrepGlobError Unit
  | _, [] => .ok ()
  | 0, _ :: _ => .error .panic
  | fuel + 1, b :: rest =>
    if b = byte '\\' then
      match rest with
      | [] => .error (.error .danglingEscape)
      | _ :: rest => validate fuel rest
    else if b = byte '[' then do validate fuel (← class_end rest)
    else validate fuel rest

/-- A text's first group: what comes before it, its alternatives and what comes after. -/
structure Group where
  before : Bytes
  alternatives : List Bytes
  after : Bytes
deriving DecidableEq

/-- **The loop of `braces`**, for the first group of a text. Read so far are what comes
before the group, the alternatives that a comma has ended, and what comes after the last
one; at depth zero the group is still to come. -/
def first_group : ℕ → ℕ → Bytes → List Bytes → Bytes → Bytes →
    Guarded GrepGlobError (Option Group)
  | _, depth, _, _, _, [] =>
    if depth = 0 then .ok none else .error (.error .unclosedAlternation)
  | 0, _, _, _, _, _ :: _ => .error .panic
  | fuel + 1, depth, before, alternatives, current, b :: rest =>
    -- what is passed over belongs to the text before, or to an alternative
    let pass (bytes rest : Bytes) :=
      if depth = 0 then first_group fuel depth (before ++ bytes) alternatives current rest
      else first_group fuel depth before alternatives (current ++ bytes) rest
    if b = byte '[' then do
      let after ← class_end rest
      pass (b :: rest.take (rest.length - after.length)) after
    else if b = byte '\\' then pass (b :: rest.take 1) (rest.drop 1)
    else if b = byte '\x7b' then
      if 64 ≤ depth then .error (.error .nesting)
      else if depth = 0 then first_group fuel 1 before alternatives current rest
      else first_group fuel (depth + 1) before alternatives (current ++ [b]) rest
    else if b = byte ',' ∧ depth = 1 then
      first_group fuel depth before (alternatives ++ [current]) [] rest
    else if b = byte '\x7d' then
      if depth = 0 then .error (.error .unopenedAlternation)
      else if depth = 1 then .ok (some ⟨before, alternatives ++ [current], rest⟩)
      else first_group fuel (depth - 1) before alternatives (current ++ [b]) rest
    else pass [b] rest

/-- **The texts that a pattern stands for**, after those of `out`: one group is chosen from
at a time. -/
def braces : ℕ → Bytes → List Bytes → Guarded GrepGlobError (List Bytes)
  | 0, _, _ => .error .panic
  | fuel + 1, pattern, out => do
    ensure (out.length < 1024) .alternatives
    match ← first_group pattern.length 0 [] [] [] pattern with
    | none => return out ++ [pattern]
    | some group =>
      group.alternatives.foldlM
        (fun out alternative => braces fuel (group.before ++ alternative ++ group.after) out) out

/-- The texts of a whole pattern. -/
def expand (pattern : Bytes) : Guarded GrepGlobError (List Bytes) :=
  braces (pattern.length + 1) pattern []

end Ferret.Policy
