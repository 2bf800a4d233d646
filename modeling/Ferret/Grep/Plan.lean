import Ferret.Lib.Spans
import Ferret.Verify.Streamed

/-!
# What a line search is asked for, and what it emits

A `Plan` is the resolved profile of a line search: which pattern, whether
lines are selected that match or that do not, how many, with how much context,
and how they are rendered. A rendered `Line` is selected data, possibly one
fragment of it, or context.

The engine behind a pattern is not part of this development. A `Pattern` says
what it answers: where it first matches in a text, the spans of its matches,
and the groups of the match found from a position on.
-/

namespace Ferret.Grep

open Verify

/-- The groups of a match; group zero is the whole match. -/
abbrev Captures := ℕ → Option Span

/-- A compiled pattern. -/
structure Pattern extends Verify.Grep where
  /-- Whether no match can hold an LF. -/
  excludes_lf : Bool
  /-- The matches of a text, in order, each after the one before. -/
  spans : Bytes → List Span
  ascending : ∀ text, Span.Ascending text.length (spans text)
  excludes : excludes_lf = true → ∀ text, ∀ span ∈ spans text, LF ∉ span.slice text
  /-- The groups of the first match at or after a position. -/
  captures_at : Bytes → ℕ → Option Captures

inductive ReplacementPart
  | literal (bytes : Bytes)
  | capture (index : ℕ)
deriving DecidableEq

/-- A parsed replacement template. -/
structure Replacement where
  parts : List ReplacementPart
deriving DecidableEq

namespace Replacement

/-- Whether expansion reads a group other than the whole match. -/
def uses_groups (r : Replacement) : Bool :=
  r.parts.any fun
    | .literal _ => false
    | .capture index => index ≠ 0

/-- The pieces of an expansion; `group` gives a participating group's bytes. -/
def expand (r : Replacement) (group : ℕ → Option Bytes) : List Bytes :=
  r.parts.filterMap fun
    | .literal bytes => some bytes
    | .capture index => group index

end Replacement

inductive Output
  | lines
  | names
  | count
  | count_matches
  | without_match
deriving DecidableEq

structure Plan where
  grep : Pattern
  line_number : Bool
  quiet : Bool
  output : Output
  only_matching : Bool
  invert : Bool
  max_count : Option ℕ
  before : ℕ
  after : ℕ
  text : Bool
  multiline : Bool
  json : Bool
  replacement : Option Replacement

/-- What scanning one input comes to. -/
structure InputResult where
  matched : Bool
  binary : Bool
  count : ℕ
  searched : Bool
  /-- The first NUL found, relative to the bytes after a BOM. -/
  binary_offset : Option ℕ
  bytes_searched : ℕ
deriving DecidableEq

/-- The result of an empty input. -/
def InputResult.empty (plan : Plan) : InputResult :=
  let searched : Bool := plan.max_count ≠ some 0
  { matched := searched && plan.output = .without_match
    binary := false
    count := 0
    searched := searched
    binary_offset := none
    bytes_searched := 0 }

inductive LineKind
  | selected
  | context
deriving DecidableEq

structure Line where
  /-- Where the source line or group starts. -/
  offset : ℕ
  /-- The source lines of a replaced record, when they differ from what is
  displayed. -/
  source_lines : Option (ℕ × ℕ)
  terminated : Bool
  number : ℕ
  bytes : Bytes
  kind : LineKind
  fragment : Bool
  /-- Resolved ranges of `bytes`; `none` leaves them to be matched again. -/
  highlights : Option (List Span)
deriving DecidableEq

end Ferret.Grep
