import Ferret.Grep.CountLf
import Ferret.Grep.Plan

/-!
# Replaced records

A region of the source is rendered with its matches replaced: what lies
between the spans is copied, each span that starts in the region is expanded
from the template and the groups of its match. Text and expansions are pushed
into one record after another. Where the pattern can match an LF the record is
split at each LF, wherever it came from; else the record is the whole region.
A record remembers which of its bytes an expansion brought, as highlights.

Whatever is pushed is taken in chunks of at most `buffer` bytes. A search that
is stopped, or whose output fails, ends there; what is modelled is one that
goes through, and `emitted` is what it has emitted.
-/

namespace Ferret.Grep

open Verify

structure Records where
  line : Line
  split : Bool
  merge : Bool
  printed : Bool
  bytes : Bytes
  highlights : List Span
  emitted : List Line

namespace Records

def new (line : Line) (split : Bool) : Records where
  line := line
  split := split
  merge := false
  printed := false
  bytes := []
  highlights := []
  emitted := []

/-- The highlights with one more, merged into the last if that ends where the
new one starts and it may be. -/
def highlight (r : Records) (span : Span) : List Span :=
  match r.highlights.getLast? with
  | some last =>
    if r.merge ∧ last.stop = span.start then
      r.highlights.dropLast ++ [{ last with stop := span.stop }]
    else r.highlights ++ [span]
  | none => r.highlights ++ [span]

/-- A piece of a chunk, without an LF that splits. -/
def extend (r : Records) (piece : Bytes) (highlighted : Bool) : Records :=
  let start := r.bytes.length
  let bytes := r.bytes ++ piece
  { r with
    bytes := bytes
    highlights :=
      if highlighted ∧ piece ≠ [] ∧ r.line.fragment = false then r.highlight ⟨start, bytes.length⟩
      else r.highlights
    merge := highlighted }

/-- The pending record. -/
def record (r : Records) : Line :=
  { r.line with
    bytes := r.bytes
    highlights := if r.line.fragment then none else some r.highlights }

def flush (r : Records) (force : Bool) : Records :=
  if force ∨ r.bytes ≠ [] then
    { r with
      emitted := r.emitted ++ [r.record]
      printed := true
      bytes := []
      highlights := [] }
  else r

/-- Skips source lines. -/
def skip (r : Records) (lines : ℕ) : Records :=
  { r with line := { r.line with number := r.line.number + lines } }

/-- The loop of `push`, a chunk a round. -/
def pushFrom (buffer : ℕ) (highlighted : Bool) : ℕ → Bytes → Records → Records
  | 0, _, r => r
  | fuel + 1, bytes, r =>
    if bytes = [] then r
    else
      let chunk := bytes.take buffer
      match (if r.split then chunk.idxOf? LF else none) with
      | some newline =>
        pushFrom buffer highlighted fuel (bytes.drop (newline + 1))
          (((r.extend (chunk.take newline) highlighted).flush true).skip 1)
      | none =>
        pushFrom buffer highlighted fuel (bytes.drop chunk.length) (r.extend chunk highlighted)

/-- Takes in text, or a piece of an expansion. Every round takes a byte. -/
def push (buffer : ℕ) (r : Records) (bytes : Bytes) (highlighted : Bool) : Records :=
  pushFrom buffer highlighted bytes.length bytes r

end Records

/-- The LFs of a text, counted a chunk at a time. -/
def line_feeds (buffer : ℕ) (bytes : Bytes) : ℕ := ((Chunked.cut buffer bytes).map count_lf).sum

/-- A range of a source whose matches keep their bounds. -/
structure Region where
  source : Bytes
  range : Span

namespace Region

/-- Whether the region ends after an LF. -/
def after_lf (region : Region) : Bool :=
  decide (region.range.start < region.range.stop)
    && region.source[region.range.stop - 1]? == some LF

/-- Whether a span is the region's to expand: it starts in it, or at its end,
unless that follows an LF. -/
def owns (region : Region) (span : Span) : Bool :=
  !(decide (span.start < region.range.start) || decide (region.range.stop < span.start)
    || (span.start == region.range.stop && region.after_lf))

theorem start_le_of_owns {r : Region} {span : Span} (h : r.owns span = true) :
    r.range.start ≤ span.start := by
  by_contra hlt
  rw [owns, decide_eq_true (not_le.mp hlt)] at h
  exact Bool.false_ne_true h

end Region

/-- What the groups of a span's match are, in the bytes of the source; `none`
if the match is not found again. -/
def groups (plan : Plan) (replacement : Replacement) (source : Bytes) (span : Span) :
    Option (ℕ → Option Bytes) :=
  if replacement.uses_groups then
    (plan.grep.captures_at source span.start).map fun captures index =>
      (captures index).map fun group => group.slice source
  else some fun index => if index = 0 then some (span.slice source) else none

/-- The loop over the spans: the records, how far the source is copied, and
whether a span was expanded. -/
structure Expanding where
  output : Records
  at_ : ℕ
  expanded : Bool

/-- How a line is replaced: whether LFs split it, and whether only its
expansions are printed. -/
def whole (plan : Plan) : Bool := plan.multiline && !plan.invert && !plan.grep.excludes_lf

def only (plan : Plan) (line : Line) : Bool :=
  plan.only_matching && if plan.invert then line.kind = .context else line.kind = .selected

/-- One round of the loop over the spans. -/
def expand_span (plan : Plan) (replacement : Replacement) (buffer : ℕ) (region : Region)
    (only : Bool) (x : Expanding) (span : Span) : Option Expanding :=
  if region.owns span then
    match groups plan replacement region.source span with
    | none => some x
    | some group => do
      let between ← (Span.mk x.at_ span.start).slice? region.source
      let output :=
        if !only then x.output.push buffer between false
        else if whole plan then x.output.skip (line_feeds buffer between)
        else x.output
      let output := { output with merge := whole plan }
      let _ ← span.slice? region.source
      let output := (replacement.expand group).foldl (fun r piece => r.push buffer piece true) output
      return {
        output := if only then output.flush false else output
        at_ := min span.stop region.range.stop
        expanded := true }
  else some x

/-- Renders a region of the source, as the lines it emits. -/
def region (plan : Plan) (buffer : ℕ) (region : Region) (spans : List Span) (line : Line) :
    Option (List Line) :=
  match plan.replacement with
  | none => some [line]
  | some replacement => do
    let only := only plan line
    let x ← spans.foldlM (expand_span plan replacement buffer region only)
      { output := .new { line with fragment := only } (whole plan)
        at_ := region.range.start
        expanded := false }
    if only then
      return if x.output.printed then x.output.emitted
        else if plan.multiline ∧ plan.invert ∧ x.expanded = false then x.output.emitted ++ [line]
        else x.output.emitted ++ [{ line with bytes := [], fragment := true, highlights := none }]
    else
      let tail ← (Span.mk x.at_ region.range.stop).slice? region.source
      return ((x.output.push buffer tail false).flush (!whole plan)).emitted

end Ferret.Grep
