import Ferret.Grep.Replacement
import Ferret.Lib.Tiles

/-!
# Searching an input whole

A multiline search reads the whole input and takes one pass of whole matches
over it. A line group holds every match that starts on its lines, so a group
can extend downward; a limit stops at the first match that would start one
group too many. Inverted, the lines that no match touches are selected, up to
the limit. Groups are widened by their context into windows, and the lines of
the windows are rendered in order, from the same matches.

An index or a subtraction that is out of range fails (`none`), as do slices.
The pointers that move along the groups and the matches while lines are
rendered are modelled as what lies ahead of them.
-/

namespace Ferret.Grep

open Verify

/-- `a - b`, if that is not negative. -/
def sub? (a b : ℕ) : Option ℕ := if b ≤ a then some (a - b) else none

def saturating_add (a b : ℕ) : ℕ := min (a + b) (2 ^ 64 - 1)

def ends_with_lf (bytes : Bytes) : Bool := bytes.getLast? == some LF

/-! ## Lines -/

/-- The lines that end in a chunk, added to those before, and where the next
line starts. -/
def split_chunk (base : ℕ) (lines : List Span × ℕ) (chunk : Bytes) : List Span × ℕ :=
  (chunk.findIdxs (· == LF)).foldl
    (fun lines offset =>
      let stop := base + offset + 1
      (lines.1 ++ [⟨lines.2, stop⟩], stop))
    lines

/-- Each line's range, its LF included. -/
def split_lines (bytes : Bytes) : List Span :=
  let lines := (Chunked.cut BUFFER bytes).zipIdx.foldl
    (fun lines chunk => split_chunk (chunk.2 * BUFFER) lines chunk.1) ([], 0)
  if lines.2 < bytes.length then lines.1 ++ [⟨lines.2, bytes.length⟩] else lines.1

def line_at (lines : List Span) (at_ : ℕ) : Option ℕ :=
  (sub? lines.length 1).map (min (Span.locate lines at_))

/-! ## Selection -/

/-- The matches a search takes, and the line groups it selects. -/
structure Selection where
  /-- Every match, whole; empty under inversion. -/
  spans : List Span
  groups : List Span
  /-- Lines from here on are past the limit. -/
  searched_end : ℕ

/-- The loop over the matches. -/
structure Selecting where
  spans : List Span
  groups : List Span
  taken : ℕ
  group_end : ℕ

/-- The position after a final LF is on no line and never matches. -/
def past_lines (bytes : Bytes) (span : Span) : Bool :=
  span.start == bytes.length && ends_with_lf bytes

/-- Takes matches until one is past the lines, or starts a group past the
limit. -/
def select_spans (plan : Plan) (bytes : Bytes) (lines : List Span) :
    List Span → Selecting → Option Selecting
  | [], s => some s
  | span :: spans, s =>
    if past_lines bytes span then some s
    else do
      let first ← line_at lines span.start
      let last ← line_at lines (max (span.stop - 1) span.start)
      if s.group_end ≤ first ∧ !plan.invert ∧ plan.max_count.any (· ≤ s.taken) then return s
      select_spans plan bytes lines spans
        { spans := if plan.invert then s.spans else s.spans ++ [span]
          groups := Span.add s.groups ⟨first, last + 1⟩
          taken := if s.group_end ≤ first then s.taken + 1 else s.taken
          group_end := max s.group_end (last + 1) }

/-- The loop over the lines between matched groups. -/
structure Inverting where
  left : ℕ
  selected : List Span
  next : ℕ

/-- Selects the lines before a matched group, as far as the limit goes. -/
def invert_group (s : Inverting) (matched : Span) : Option Inverting := do
  let gap ← sub? matched.start s.next
  let keep := min s.left gap
  let left ← sub? s.left keep
  return {
    left := left
    selected := Span.add s.selected ⟨s.next, s.next + keep⟩
    next := matched.stop }

/-- One pass over the matches of the input. -/
def select (plan : Plan) (bytes : Bytes) (lines : List Span) : Option Selection := do
  let s ← select_spans plan bytes lines (plan.grep.spans bytes) ⟨[], [], 0, 0⟩
  if plan.invert then
    let s ← (s.groups ++ [Span.mk lines.length lines.length]).foldlM invert_group
      { left := plan.max_count.getD (2 ^ 64 - 1), selected := [], next := 0 }
    return {
      spans := []
      groups := s.selected
      searched_end :=
        if plan.max_count.isSome ∧ s.left = 0 then (s.selected.getLast?.map Span.stop).getD 0
        else lines.length }
  else
    return { spans := s.spans, groups := s.groups, searched_end := lines.length }

/-- The selected groups widened by their context, merged where they meet. -/
def windows (plan : Plan) (groups : List Span) (lines : ℕ) : List Span :=
  groups.foldl
    (fun windows group => Span.add windows
      ⟨group.start - plan.before, min (saturating_add group.stop plan.after) lines⟩) []

/-! ## Rendering -/

structure Render where
  plan : Plan
  bytes : Bytes
  lines : List Span
  searched_end : ℕ
  /-- JSON events and replacement cover a whole selected group; plain and `-o`
  output render one source line at a time. -/
  split : Bool

def Render.new (plan : Plan) (bytes : Bytes) (lines : List Span) (searched_end : ℕ) : Render where
  plan := plan
  bytes := bytes
  lines := lines
  searched_end := searched_end
  split := !plan.grep.excludes_lf && !plan.invert

/-- The source line being rendered. -/
structure At where
  index : ℕ
  range : Span
  content_end : ℕ
  /-- One past the last line the record covers. -/
  last : ℕ
  /-- The end of the record's bytes. -/
  stop : ℕ
  kind : LineKind
  selected : Bool
  /-- A context line before the limit that matches, under inversion. -/
  inverted_context : Bool
  /-- The matches ahead, from the first that may touch the line. -/
  spans : List Span

/-- A span is all before a position. -/
def passed (at_ : ℕ) (span : Span) : Bool :=
  decide (span.stop < at_) || !span.is_empty && span.stop == at_

/-- The bytes a line has besides its LF end here. -/
def content_end (bytes : Bytes) (range : Span) : Option ℕ := do
  let final ← sub? range.stop 1
  return if (← bytes[final]?) = LF then final else range.stop

/-- Whether the byte before a position is an LF. -/
def ends_line (bytes : Bytes) (stop : ℕ) : Option Bool := do
  let final ← sub? stop 1
  return (← bytes[final]?) = LF

namespace Render

variable (r : Render)

/-- One past the last line of the record of line `index`. -/
def last (index : ℕ) (selected : Bool) (groups : List Span) : Option ℕ :=
  if r.split ∧ selected then groups.head?.map Span.stop else some (index + 1)

/-- Looks at line `index`; `groups` is what is ahead. -/
def look (index : ℕ) (groups spans : List Span) : Option At := do
  let selected := groups.head?.any fun group => group.start ≤ index ∧ index < group.stop
  let range ← r.lines[index]?
  let content_end ← content_end r.bytes range
  let last ← r.last index selected groups
  let final ← r.lines[← sub? last 1]?
  return {
    index := index
    range := range
    content_end := content_end
    last := last
    stop := final.stop
    kind := if selected then .selected else .context
    selected := selected
    inverted_context := r.plan.invert ∧ !selected ∧ index < r.searched_end
    spans := spans.dropWhile (passed range.start) }

/-- The spans ahead that start before `stop`; an unterminated last line also
owns the empty span at its end. -/
def upto (spans : List Span) (stop : ℕ) : List Span :=
  spans.takeWhile fun span =>
    decide (span.start < stop)
      || stop == r.bytes.length && !ends_with_lf r.bytes && span.start == stop

/-- A span relative to a position. -/
def relative (at_ : ℕ) (span : Span) : Option Span := do
  return ⟨← sub? span.start at_, ← sub? span.stop at_⟩

/-- What a JSON record highlights: the matches of its own bytes in an inverted
context line, else those taken that lie within it. -/
def highlights (at_ : At) (region : Span) (source : Bytes) : Option (List Span) :=
  if at_.inverted_context then
    some ((r.plan.grep.spans source).filter fun span => span.start < source.length)
  else
    ((r.upto at_.spans at_.stop).filter fun span =>
      region.start ≤ span.start ∧ span.stop ≤ region.stop).mapM (relative region.start)

def json (at_ : At) : Option (List Line) := do
  let region : Span := ⟨at_.range.start, at_.stop⟩
  let source ← region.slice? r.bytes
  let highlights ← r.highlights at_ region source
  return [{
    offset := region.start
    source_lines := some (at_.index + 1, at_.last)
    terminated := ← ends_line r.bytes region.stop
    number := at_.index + 1
    bytes := source
    kind := at_.kind
    fragment := false
    highlights := some highlights }]

def replace (at_ : At) : Option (List Line) := do
  let line : Line := {
    offset := at_.range.start
    number := at_.index + 1
    source_lines := some (at_.index + 1, at_.last)
    terminated := ← ends_line r.bytes at_.stop
    bytes := ← (Span.mk at_.range.start at_.content_end).slice? r.bytes
    kind := at_.kind
    fragment := false
    highlights := some [] }
  if at_.inverted_context then
    let source ← at_.range.slice? r.bytes
    region r.plan BUFFER ⟨source, ⟨0, line.bytes.length⟩⟩ (r.plan.grep.spans source) line
  else
    let range_end := if !r.split ∧ line.terminated then at_.stop - 1 else at_.stop
    region r.plan BUFFER ⟨r.bytes, ⟨at_.range.start, range_end⟩⟩ (r.upto at_.spans at_.stop) line

/-- What a span has on the line, its LF left out, if that is not empty. -/
def piece (range : Span) (content_end : ℕ) (span : Span) : Option Span :=
  let part : Span := ⟨max span.start range.start, min span.stop content_end⟩
  if part.stop ≤ part.start then none else some part

/-- A record of part of a selected line. -/
def fragment (at_ : At) (bytes : Bytes) : Line where
  offset := at_.range.start
  source_lines := none
  terminated := true
  number := at_.index + 1
  bytes := bytes
  kind := at_.kind
  fragment := true
  highlights := none

/-- `-o`: each match's part of a selected line. An empty fragment prints
nothing; it keeps the line in the context window. -/
def fragments (at_ : At) : Option (List Line) := do
  let parts := (r.upto at_.spans at_.range.stop).filterMap (piece at_.range at_.content_end)
  let printed ← parts.mapM fun (part : Span) => (part.slice? r.bytes).map (fragment at_)
  return if parts = [] then [fragment at_ []] else printed

/-- The highlights with one more, joined to the last if that ends where the
new one starts. -/
def highlight (highlights : List Span) (span : Span) : List Span :=
  match highlights.getLast? with
  | some last =>
    if last.stop = span.start then highlights.dropLast ++ [{ last with stop := span.stop }]
    else highlights ++ [span]
  | none => [span]

/-- The matches that may be on a line. -/
def relevant (at_ : At) : Option (List Span) :=
  if at_.inverted_context then
    (at_.range.slice? r.bytes).map fun source =>
      (r.plan.grep.spans source).map fun span =>
        ⟨span.start + at_.range.start, span.stop + at_.range.start⟩
  else some (r.upto at_.spans at_.range.stop)

def plain (at_ : At) : Option (List Line) := do
  let relevant ← r.relevant at_
  let parts ← (relevant.filterMap (piece at_.range at_.content_end)).mapM (relative at_.range.start)
  return [{
    offset := at_.range.start
    source_lines := none
    terminated := at_.content_end < at_.range.stop
    number := at_.index + 1
    bytes := ← (Span.mk at_.range.start at_.content_end).slice? r.bytes
    kind := at_.kind
    fragment := false
    highlights := some (parts.foldl highlight []) }]

/-- Renders a line, or a group from it on: the records, and the next line to
render. -/
def records (at_ : At) : Option (List Line × ℕ) :=
  if r.plan.json then (r.json at_).map (·, at_.last)
  else if r.plan.replacement.isSome then (r.replace at_).map (·, at_.last)
  else if r.plan.only_matching ∧ at_.selected ∧ !r.plan.invert then
    (r.fragments at_).map (·, at_.index + 1)
  else (r.plain at_).map (·, at_.index + 1)

/-- One round of the loop over the lines of a window: the lines it covers, and
the records it emits. -/
structure Step where
  lines : Span
  records : List Line

/-- The lines of a window from `index` on, and the groups and the matches then
ahead. Every round goes on by a line at least. -/
def window (stop : ℕ) : ℕ → ℕ → List Span → List Span →
    Option (List Step × List Span × List Span)
  | 0, index, groups, spans => if index < stop then none else some ([], groups, spans)
  | fuel + 1, index, groups, spans =>
    if index < stop then do
      let groups := groups.dropWhile fun group => group.stop ≤ index
      let at_ ← r.look index groups spans
      let (records, next) ← r.records at_
      let (steps, rest) ← window stop fuel next groups at_.spans
      return (⟨⟨index, next⟩, records⟩ :: steps, rest)
    else some ([], groups, spans)

/-- The windows, one after the other. -/
def all : List Span → List Span → List Span → Option (List Step)
  | [], _, _ => some []
  | w :: windows, groups, spans => do
    let (steps, groups, spans) ← r.window w.stop (w.stop - w.start) w.start groups spans
    return steps ++ (← all windows groups spans)

end Render

/-! ## The search -/

def BOM : Bytes := [0xEF, 0xBB, 0xBF]

def strip_bom (bytes : Bytes) : Bytes := if BOM.isPrefixOf bytes then bytes.drop BOM.length else bytes

/-- What is read of a document: all of it, or up to a NUL; and whether there
was one. -/
def read_all (text : Bool) (document : Bytes) : Bytes × Bool :=
  match (if text then none else document.idxOf? 0) with
  | some at_ => (document.take at_, true)
  | none => (document, false)

/-- Where the NUL was, after a BOM. -/
def nul_offset (buffer : Bytes) (binary : Bool) : Option (Option ℕ) :=
  if binary then (sub? buffer.length (if BOM.isPrefixOf buffer then 3 else 0)).map some
  else some none

def total (groups : List Span) : ℕ := (groups.map fun group => group.stop - group.start).sum

/-- The whole search: the result, and the rounds of rendering. -/
def scan_progress (plan : Plan) (document : Bytes) : Option (InputResult × List Render.Step) := do
  let result := InputResult.empty plan
  if !result.searched then return (result, [])
  let (buffer, binary) := read_all plan.text document
  let binary_offset ← nul_offset buffer binary
  let bytes := strip_bom buffer
  let result := { result with
    binary := binary
    binary_offset := binary_offset
    bytes_searched := bytes.length }
  let lines := split_lines bytes
  if lines = [] then return (result, [])
  let selection ← select plan bytes lines
  let selected : Bool := selection.groups ≠ []
  if plan.output = .without_match then return ({ result with matched := !selected }, [])
  let result := { result with matched := selected }
  if (plan.quiet ∧ !plan.json) ∨ plan.output = .names then return (result, [])
  if !selected then return (result, [])
  let whole := !plan.grep.excludes_lf
  let result := { result with
    count :=
      if !plan.invert ∧ (whole ∨ plan.only_matching ∨ plan.output = .count_matches) then
        selection.spans.length
      else total selection.groups }
  if plan.output ≠ .lines then return (result, [])
  let steps ← (Render.new plan bytes lines selection.searched_end).all
    (windows plan selection.groups lines.length) selection.groups selection.spans
  return (result, steps)

end Ferret.Grep
