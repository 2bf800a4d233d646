import Ferret.Lib.Cuts
import Ferret.Verify.Scan

/-!
# Streaming a document as runs of whole lines

A document is read into a buffer. After each read, what the buffer holds up to
its last LF is visited, and the partial line after it stays in the buffer, at
its front, for the next read to go on from. A line longer than the buffer
doubles it, up to the rest of the document's declared length. A sentinel byte
ends the run in the read that brings it.

A source decides how much each read hands over, and whether a read is
interrupted or fails; between reads the run may be stopped, and growing the
buffer may be refused. These are the `Turn`s of a source. Once they are used
up each read hands over all that fits.

`deliver` says what a visitor should come to: it is shown the pieces of the
document in order, until it breaks off.
-/

namespace Ferret.Verify

open List

def LF : UInt8 := 10

def BUFFER : ℕ := 64 * 1024

inductive IoError
  | interrupted
  | refused
  | failed
  | stopped
deriving DecidableEq

/-- What a read does, if there is room and the source is not at its end:
`upTo n` hands over at most `n + 1` bytes. -/
inductive Read
  | interrupted
  | failed
  | upTo (most : ℕ)
deriving DecidableEq

/-- One turn of the loop: whether it finds itself stopped, whether the buffer
cannot grow, and what its read does. -/
structure Turn where
  stopped : Bool
  refused : Bool
  read : Read
deriving DecidableEq

/-- A turn in which nothing goes wrong. An interrupted read is read again. -/
def Turn.Quiet (t : Turn) : Prop :=
  t.stopped = false ∧ t.refused = false ∧ t.read ≠ .failed

structure Source where
  /-- The bytes not yet read. -/
  rest : Bytes
  turns : List Turn

namespace Source

/-- The next turn. -/
def turn (s : Source) : Turn × Source :=
  match s.turns with
  | [] => (⟨false, false, .upTo s.rest.length⟩, s)
  | t :: turns => (t, { s with turns := turns })

/-- Takes at most `n` bytes. -/
def take (s : Source) (n : ℕ) : Bytes × Source :=
  (s.rest.take n, { s with rest := s.rest.drop n })

def Quiet (s : Source) : Prop := ∀ t ∈ s.turns, t.Quiet

/-- How much longer a source can go on. -/
def weight (s : Source) : ℕ := s.turns.length + s.rest.length

variable {s : Source}

@[simp]
theorem turn_rest : s.turn.2.rest = s.rest := by
  unfold turn
  split <;> rfl

theorem turn_weight_le : s.turn.2.weight ≤ s.weight := by
  unfold turn weight
  split
  · exact le_rfl
  · next h => rw [h]; exact Nat.add_le_add_right (Nat.le_succ _) _

/-- Only a turn that is used up is interrupted. -/
theorem turn_weight_lt (h : s.turn.1.read = .interrupted) : s.turn.2.weight < s.weight := by
  unfold turn weight at *
  split at h
  · cases h
  · next hturns => rw [hturns]; exact Nat.add_lt_add_right (Nat.lt_succ_self _) _

theorem Quiet.turn (h : s.Quiet) : s.turn.1.Quiet ∧ s.turn.2.Quiet := by
  unfold Source.turn
  split
  · exact ⟨⟨rfl, rfl, Read.noConfusion⟩, h⟩
  · next t turns hturns =>
    exact ⟨h t (hturns ▸ .head _),
      fun t' ht' => h t' (hturns ▸ .tail _ ht')⟩

theorem take_weight_lt {n : ℕ} (h : (s.take n).1 ≠ []) : (s.take n).2.weight < s.weight := by
  have hlt : (s.rest.drop n).length < s.rest.length := by
    rw [length_drop]
    exact Nat.sub_lt (length_pos_of_ne_nil fun hnil => h (by rw [take, hnil, take_nil]))
      (Nat.pos_of_ne_zero fun hzero => h (by rw [take, hzero, take_zero]))
  exact Nat.add_lt_add_left hlt _

end Source

/-- What a reader is handed: a source, the length declared for it, the length
of the buffer to read into, and whether its first reservation is refused. -/
structure Input where
  source : Source
  len : ℕ
  buffer : ℕ
  refused : Bool

def Input.Quiet (input : Input) : Prop := input.refused = false ∧ input.source.Quiet

/-- The loop's variables: what the buffer holds, how long it is, where it
begins in the document, and the source. -/
structure Filling where
  buffered : Bytes
  capacity : ℕ
  base : ℕ
  source : Source

/-- What one turn of the loop comes to: it goes on to the next, fails, or
visits a run, the last one if it `ends`. -/
inductive Pass
  | again (next : Filling)
  | failed (error : IoError)
  | visit (run : Bytes) (terminated ends : Bool) (next : Filling)

namespace Filling

/-- Takes in fresh bytes and cuts off what can be visited: all up to a
sentinel, all at the end, else all up to the last LF of the fresh bytes. -/
def cut (f : Filling) (sentinel : Option UInt8) (got : Bytes) : Pass :=
  let fresh := f.buffered.length
  let filled := f.buffered ++ got
  match sentinel.bind got.idxOf? with
  | some found => .visit (filled.take (fresh + found + 1)) false true { f with buffered := filled }
  | none =>
    if got = [] then .visit filled false true { f with buffered := filled }
    else
      match memrchr LF got with
      | some found =>
        .visit (filled.take (fresh + found)) true false
          { f with
            buffered := filled.drop (fresh + found + 1)
            base := f.base + (fresh + found + 1) }
      | none => .again { f with buffered := filled }

/-- One turn of the loop. -/
def pass (len : ℕ) (sentinel : Option UInt8) (f : Filling) : Pass :=
  let (turn, source) := f.source.turn
  if turn.stopped then .failed .interrupted
  else
    let filled := f.buffered.length
    let left := len - (f.base + filled)
    if left = 0 then { f with source := source }.cut sentinel []
    else if filled = f.capacity ∧ turn.refused then .failed .refused
    else
      let capacity :=
        if filled = f.capacity then min (f.capacity * 2) (filled + left) else f.capacity
      match turn.read with
      | .interrupted => .again { f with capacity := capacity, source := source }
      | .failed => .failed .failed
      | .upTo most =>
        let (got, source) := source.take (min (most + 1) (capacity - filled))
        { f with capacity := capacity, source := source }.cut sentinel got

variable {f next : Filling} {len : ℕ} {sentinel : Option UInt8} {got run : Bytes}
  {terminated : Bool}

/-! ### Every turn brings the end nearer -/

/-- The loop goes on after this turn, with a visit or without one. -/
def GoesOn (p : Pass) (next : Filling) : Prop :=
  p = .again next ∨ ∃ run terminated, p = .visit run terminated false next

theorem cut_goes_on (h : GoesOn (f.cut sentinel got) next) : got ≠ [] ∧ next.source = f.source := by
  unfold cut at h
  split at h
  · rcases h with h | ⟨_, _, h⟩ <;> cases h
  · by_cases hgot : got = []
    · rw [if_pos hgot] at h
      rcases h with h | ⟨_, _, h⟩ <;> cases h
    · rw [if_neg hgot] at h
      refine ⟨hgot, ?_⟩
      split at h
      all_goals
        rcases h with h | ⟨_, _, h⟩ <;> cases h
        rfl

theorem pass_goes_on (h : GoesOn (f.pass len sentinel) next) :
    next.source.weight < f.source.weight := by
  unfold pass at h
  split at h
  next turn source hturn =>
    have hle : source.weight ≤ f.source.weight := by
      have := f.source.turn_weight_le
      rwa [hturn] at this
    dsimp only at h
    by_cases hstop : turn.stopped = true
    · rw [if_pos hstop] at h
      rcases h with h | ⟨_, _, h⟩ <;> cases h
    rw [if_neg hstop] at h
    by_cases hleft : len - (f.base + f.buffered.length) = 0
    · rw [if_pos hleft] at h
      exact absurd rfl (cut_goes_on h).1
    rw [if_neg hleft] at h
    by_cases hfull : f.buffered.length = f.capacity ∧ turn.refused = true
    · rw [if_pos hfull] at h
      rcases h with h | ⟨_, _, h⟩ <;> cases h
    · rw [if_neg hfull] at h
      split at h
      · next hread =>
        have hlt : source.weight < f.source.weight := by
          have := f.source.turn_weight_lt (by rw [hturn]; exact hread)
          rwa [hturn] at this
        rcases h with h | ⟨_, _, h⟩ <;> cases h
        exact hlt
      · rcases h with h | ⟨_, _, h⟩ <;> cases h
      · obtain ⟨hgot, hsource⟩ := cut_goes_on h
        rw [hsource]
        exact lt_of_lt_of_le (Source.take_weight_lt hgot) hle

/-! ### What a turn comes to -/

/-- What holds of the loop's variables while nothing goes wrong: there is
room, or can be, for what is left, and no sentinel waits in the buffer. -/
structure Good (len : ℕ) (sentinel : Option UInt8) (f : Filling) : Prop where
  fits : f.buffered.length ≤ f.capacity
  room : 0 < f.capacity
  bounded : f.base + (f.buffered.length + f.source.rest.length) ≤ len
  clear : ∀ b ∈ sentinel, b ∉ f.buffered
  quiet : f.source.Quiet

/-- The bytes not yet visited. -/
def ahead (f : Filling) : Bytes := f.buffered ++ f.source.rest

/-- **What a turn that begins with `ahead` at `base` comes to**: it visits
nothing and the same is ahead, or it visits the last run, or it visits a run
up to an LF and what follows the LF is ahead. -/
def Turned (len : ℕ) (sentinel : Option UInt8) (base : ℕ) (ahead : Bytes) (p : Pass) : Prop :=
  (∃ next, p = .again next ∧ next.Good len sentinel ∧ next.base = base ∧ next.ahead = ahead)
    ∨ (∃ next, p = .visit (through sentinel ahead) false true next)
    ∨ ∃ run next, p = .visit run true false next ∧ next.Good len sentinel
        ∧ next.base = base + run.length + 1 ∧ ahead = run ++ LF :: next.ahead
        ∧ ∀ b ∈ sentinel, b ∉ run ++ [LF]

theorem cut_turned (len : ℕ) (sentinel : Option UInt8) (f : Filling) (got : Bytes)
    (hfits : f.buffered.length + got.length ≤ f.capacity) (hroom : 0 < f.capacity)
    (hbounded : f.base + (f.buffered.length + (got ++ f.source.rest).length) ≤ len)
    (hclear : ∀ b ∈ sentinel, b ∉ f.buffered) (hquiet : f.source.Quiet)
    (hend : got = [] → f.source.rest = []) :
    Turned len sentinel f.base (f.buffered ++ (got ++ f.source.rest)) (f.cut sentinel got) := by
  unfold cut
  rw [length_append] at hbounded
  cases hfound : sentinel.bind got.idxOf? with
  | some found =>
    obtain ⟨a, rfl, hidx⟩ := Option.bind_eq_some_iff.mp hfound
    obtain ⟨u, v, rfl, rfl, hu⟩ := exists_of_idxOf? hidx
    refine .inr (.inl ⟨{ f with buffered := f.buffered ++ (u ++ a :: v) }, ?_⟩)
    have hclear' : a ∉ f.buffered ++ u := fun h =>
      (mem_append.mp h).elim (hclear a rfl) hu
    have hthrough : through (some a) (f.buffered ++ ((u ++ a :: v) ++ f.source.rest))
        = f.buffered ++ u ++ [a] := by
      rw [show f.buffered ++ ((u ++ a :: v) ++ f.source.rest)
        = (f.buffered ++ u) ++ a :: (v ++ f.source.rest) by simp, through_append_cons hclear']
    have htake : (f.buffered ++ (u ++ a :: v)).take (f.buffered.length + u.length + 1)
        = f.buffered ++ u ++ [a] := by
      rw [show f.buffered ++ (u ++ a :: v) = (f.buffered ++ u ++ [a]) ++ v by simp]
      exact take_left' (by simp; omega)
    rw [hthrough]
    exact congrArg (fun run => Pass.visit run false true _) htake
  | none =>
    have hgot : ∀ b ∈ sentinel, b ∉ got := by
      rintro b rfl
      exact idxOf?_eq_none_iff.mp hfound
    by_cases hnil : got = []
    · refine .inr (.inl ⟨{ f with buffered := f.buffered ++ got }, ?_⟩)
      dsimp only
      rw [hend hnil, if_pos hnil, hnil, append_nil, append_nil, append_nil,
        through_of_not_mem hclear]
    · cases hlast : memrchr LF got with
      | some found =>
        obtain ⟨u, v, rfl, rfl, _⟩ := exists_of_memrchr hlast
        have htake : (f.buffered ++ (u ++ LF :: v)).take (f.buffered.length + u.length)
            = f.buffered ++ u := by
          rw [← append_assoc]
          exact take_left' length_append
        have hdrop : (f.buffered ++ (u ++ LF :: v)).drop (f.buffered.length + u.length + 1) = v := by
          rw [show f.buffered ++ (u ++ LF :: v) = (f.buffered ++ u ++ [LF]) ++ v by simp]
          exact drop_left' (by simp; omega)
        rw [length_append, length_cons] at hbounded hfits
        refine .inr (.inr ⟨f.buffered ++ u, { f with
          buffered := v, base := f.base + (f.buffered.length + u.length + 1) }, ?_, ?_, ?_, ?_, ?_⟩)
        · simp only [hnil, if_false, htake, hdrop]
        · exact
            { fits := show v.length ≤ f.capacity by omega
              room := hroom
              bounded := show f.base + (f.buffered.length + u.length + 1)
                + (v.length + f.source.rest.length) ≤ len by omega
              clear := fun b hb hmem => hgot b hb (by simp [show b ∈ v from hmem])
              quiet := hquiet }
        · simp only [length_append]
          omega
        · simp [ahead]
        · intro b hb hmem
          rcases mem_append.mp hmem with h | h
          · rcases mem_append.mp h with h | h
            · exact hclear b hb h
            · exact hgot b hb (mem_append_left _ h)
          · exact hgot b hb (by rw [mem_singleton.mp h]; simp)
      | none =>
        refine .inl ⟨{ f with buffered := f.buffered ++ got }, by simp only [hnil, if_false], ?_, rfl,
          append_assoc ..⟩
        exact
          { fits := by simpa using hfits
            room := hroom
            bounded := by simp only [length_append]; omega
            clear := fun b hb hmem => (mem_append.mp hmem).elim (hclear b hb) (hgot b hb)
            quiet := hquiet }

theorem Good.turned (h : f.Good len sentinel) :
    Turned len sentinel f.base f.ahead (f.pass len sentinel) := by
  obtain ⟨hstop, hrefused, hread⟩ := h.quiet.turn.1
  have hquiet := h.quiet.turn.2
  have hbounded := h.bounded
  have hfits := h.fits
  have hroom := h.room
  unfold pass ahead
  cases hturn : f.source.turn with
  | mk turn source =>
    have hrest : source.rest = f.source.rest := by
      have := f.source.turn_rest
      rwa [hturn] at this
    rw [hturn] at hstop hrefused hread hquiet
    rw [← hrest] at hbounded ⊢
    dsimp only
    rw [if_neg (by rw [hstop]; exact Bool.false_ne_true)]
    by_cases hleft : len - (f.base + f.buffered.length) = 0
    · have hnil : source.rest = [] := length_eq_zero_iff.mp (by
        rw [← add_assoc] at hbounded
        omega)
      rw [if_pos hleft]
      exact cut_turned len sentinel { f with source := source } [] hfits hroom hbounded
        h.clear hquiet fun _ => hnil
    · rw [if_neg hleft, if_neg fun hfull => Bool.noConfusion (hrefused.symm.trans hfull.2)]
      generalize hcap : (if f.buffered.length = f.capacity then
        min (f.capacity * 2) (f.buffered.length + (len - (f.base + f.buffered.length)))
        else f.capacity) = capacity
      have hgrown : f.buffered.length < capacity := by
        rw [← hcap]
        split_ifs with hfull
        · exact lt_min (by omega) (Nat.lt_add_of_pos_right (Nat.pos_of_ne_zero hleft))
        · exact lt_of_le_of_ne hfits hfull
      cases hread' : turn.read with
      | failed => exact absurd hread' hread
      | interrupted =>
        exact .inl ⟨{ f with capacity := capacity, source := source }, rfl,
          { fits := hgrown.le
            room := Nat.zero_lt_of_lt hgrown
            bounded := hbounded
            clear := h.clear
            quiet := hquiet }, rfl, rfl⟩
      | upTo most =>
        have hsplit : (source.take (min (most + 1) (capacity - f.buffered.length))).1
            ++ (source.take (min (most + 1) (capacity - f.buffered.length))).2.rest
            = source.rest := take_append_drop _ _
        have hend : (source.take (min (most + 1) (capacity - f.buffered.length))).1 = [] →
            (source.take (min (most + 1) (capacity - f.buffered.length))).2.rest = [] := by
          intro hnil
          rcases take_eq_nil_iff.mp hnil with _ | hrest'
          · omega
          · exact (congrArg (List.drop _) hrest').trans drop_nil
        have hturned := cut_turned len sentinel
          { f with
            capacity := capacity
            source := (source.take (min (most + 1) (capacity - f.buffered.length))).2 }
          (source.take (min (most + 1) (capacity - f.buffered.length))).1
          (by simp only [Source.take, length_take]; omega) (Nat.zero_lt_of_lt hgrown)
          (by rw [hsplit]; exact hbounded) h.clear hquiet hend
        rw [hsplit] at hturned
        exact hturned

end Filling

section Loop

variable {ε σ : Type} (from_io : IoError → ε) (each : σ → Bytes → ℕ → Bool → Except ε Flow × σ)

/-- The loop. -/
def drive (len : ℕ) (sentinel : Option UInt8) (f : Filling) (state : σ) : Except ε Unit × σ :=
  match h : f.pass len sentinel with
  | .again next =>
    have : next.source.weight < f.source.weight := Filling.pass_goes_on (.inl h)
    drive len sentinel next state
  | .failed error => (.error (from_io error), state)
  | .visit run terminated ends next =>
    match each state run f.base terminated with
    | (.error error, state) => (.error error, state)
    | (.ok .stop, state) => (.ok (), state)
    | (.ok .go, state) =>
      match ends, h with
      | true, _ => (.ok (), state)
      | false, h =>
        have : next.source.weight < f.source.weight := Filling.pass_goes_on (.inr ⟨_, _, h⟩)
        drive len sentinel next state
termination_by f.source.weight

/-- Visits the runs of an input. -/
def runs (input : Input) (sentinel : Option UInt8) (state : σ) : Except ε Unit × σ :=
  if input.buffer < BUFFER ∧ input.refused then (.error (from_io .refused), state)
  else
    drive from_io each input.len sentinel
      { buffered := [], capacity := max input.buffer BUFFER, base := 0, source := input.source } state

/-- Shows the pieces in order, until the visitor breaks off. -/
def deliver : List (Piece UInt8) → σ → Except ε Unit × σ
  | [], state => (.ok (), state)
  | p :: pieces, state =>
    match each state p.run p.base p.terminated with
    | (.error error, state) => (.error error, state)
    | (.ok .stop, state) => (.ok (), state)
    | (.ok .go, state) => deliver pieces state

/-! ## The runs are the pieces of the document -/

variable {from_io each} {len : ℕ} {sentinel : Option UInt8} {f next : Filling} {state : σ}

theorem drive_again (h : f.pass len sentinel = .again next) :
    drive from_io each len sentinel f state = drive from_io each len sentinel next state := by
  rw [drive]
  split
  · next h' => cases h'.symm.trans h; rfl
  all_goals next h' => cases h'.symm.trans h

theorem drive_last {run : Bytes} (h : f.pass len sentinel = .visit run false true next) :
    drive from_io each len sentinel f state = deliver each [⟨run, f.base, false⟩] state := by
  rw [drive]
  split
  · next h' => cases h'.symm.trans h
  · next h' => cases h'.symm.trans h
  · next h' =>
    cases h'.symm.trans h
    rfl

theorem drive_visit {run : Bytes} {pieces : List (Piece UInt8)}
    (h : f.pass len sentinel = .visit run true false next)
    (hnext : ∀ state, drive from_io each len sentinel next state = deliver each pieces state) :
    drive from_io each len sentinel f state
      = deliver each (⟨run, f.base, true⟩ :: pieces) state := by
  rw [drive]
  split
  · next h' => cases h'.symm.trans h
  · next h' => cases h'.symm.trans h
  · next h' =>
    cases h'.symm.trans h
    rw [deliver]
    dsimp only
    rcases each state run f.base true with ⟨_ | _ | _, state'⟩
    · rfl
    · exact hnext state'
    · rfl

/-- What every visit keeps, the loop keeps, whatever goes wrong. -/
theorem drive_keeps (holds : σ → Prop)
    (hstep : ∀ state run base terminated, holds state → holds (each state run base terminated).2)
    (h : holds state) : holds (drive from_io each len sentinel f state).2 := by
  induction hw : f.source.weight using Nat.strong_induction_on generalizing f state with
  | _ _ ih =>
    rw [drive]
    split
    · next next hpass =>
      exact ih _ (hw ▸ Filling.pass_goes_on (.inl hpass)) h rfl
    · exact h
    · next run terminated ends next hpass =>
      have hvisit := hstep state run f.base terminated h
      rcases heach : each state run f.base terminated with ⟨_ | _ | _, _⟩
      · rw [heach] at hvisit
        exact hvisit
      · rw [heach] at hvisit
        cases ends with
        | true => exact hvisit
        | false => exact ih _ (hw ▸ Filling.pass_goes_on (.inr ⟨_, _, hpass⟩)) hvisit rfl
      · rw [heach] at hvisit
        exact hvisit

theorem runs_keeps (holds : σ → Prop) {input : Input}
    (hstep : ∀ state run base terminated, holds state → holds (each state run base terminated).2)
    (h : holds state) : holds (runs from_io each input sentinel state).2 := by
  unfold runs
  split
  · exact h
  · exact drive_keeps holds hstep h

end Loop

/-- **The loop delivers pieces of what is ahead.** By induction on how much longer the source
can go on. -/
theorem Filling.Good.pieces {len : ℕ} {sentinel : Option UInt8} {f : Filling}
    (h : f.Good len sentinel) :
    ∃ pieces, Cuts LF (through sentinel f.ahead) f.base pieces
      ∧ ∀ {ε σ : Type} (from_io : IoError → ε) (each : σ → Bytes → ℕ → Bool → Except ε Flow × σ)
          (state : σ), drive from_io each len sentinel f state = deliver each pieces state := by
  induction hw : f.source.weight using Nat.strong_induction_on generalizing f with
  | _ _ ih =>
    rcases h.turned with ⟨next, hpass, hgood, hbase, hahead⟩ | ⟨next, hpass⟩
      | ⟨run, next, hpass, hgood, hbase, hahead, hclear⟩
    · obtain ⟨pieces, hcuts, hall⟩ :=
        ih _ (hw ▸ Filling.pass_goes_on (.inl hpass)) hgood rfl
      rw [hbase, hahead] at hcuts
      exact ⟨pieces, hcuts, fun from_io each state => (drive_again hpass).trans (hall ..)⟩
    · exact ⟨_, .last _ _, fun from_io each state => drive_last hpass⟩
    · obtain ⟨pieces, hcuts, hall⟩ :=
        ih _ (hw ▸ Filling.pass_goes_on (.inr ⟨_, _, hpass⟩)) hgood rfl
      refine ⟨⟨run, f.base, true⟩ :: pieces, ?_, fun from_io each state =>
        drive_visit hpass fun state => hall from_io each state⟩
      have hsplit : f.ahead = (run ++ [LF]) ++ next.ahead := by rw [hahead]; simp
      rw [hsplit, through_append hclear, append_assoc]
      rw [hbase] at hcuts
      exact Cuts.cons hcuts

/-- **The runs of an input are pieces of its document**, up to its first sentinel: whatever the
reads hand over, while none fails and nothing is stopped or refused, the visitor is shown the
document in runs of whole lines, each with where it begins. -/
theorem runs_eq_deliver {input : Input} (hquiet : input.Quiet)
    (hlen : input.source.rest.length ≤ input.len) (sentinel : Option UInt8) :
    ∃ pieces, Cuts LF (through sentinel input.source.rest) 0 pieces
      ∧ ∀ {ε σ : Type} (from_io : IoError → ε) (each : σ → Bytes → ℕ → Bool → Except ε Flow × σ)
          (state : σ), runs from_io each input sentinel state = deliver each pieces state := by
  have hgood : Filling.Good input.len sentinel
      { buffered := [], capacity := max input.buffer BUFFER, base := 0, source := input.source } :=
    { fits := Nat.zero_le _
      room := lt_max_of_lt_right (by decide)
      bounded := by simpa using hlen
      clear := fun _ _ => not_mem_nil
      quiet := hquiet.2 }
  obtain ⟨pieces, hcuts, hall⟩ := hgood.pieces
  refine ⟨pieces, hcuts, fun from_io each state => ?_⟩
  have hrefused : ¬(input.buffer < BUFFER ∧ input.refused = true) := fun h =>
    Bool.noConfusion (hquiet.1.symm.trans h.2)
  rw [runs, if_neg hrefused]
  exact hall from_io each state

end Ferret.Verify
