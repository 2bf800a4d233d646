import Ferret.Lib.LineLocal
import Ferret.Verify.LineRuns

/-!
# Verifying a document as it streams

The content atoms of a query are run over a document read whole (`verify`),
or, if every atom is a line-local pattern, over the runs of lines it streams
as (`stream`): each atom searches one run after another until it has matched,
and the read ends once every atom has. A host may begin the read over; every
attempt starts from nothing.

Both ask now and then whether to stop. What each of these questions is
answered is a list; once it is used up nothing stops any more.
-/

namespace Ferret.Verify

open List Option

/-- A content pattern: where it matches, and whether it is known to be
line-local. -/
structure Grep where
  starts : Bytes → ℕ → Bool
  is_line_local : Bool
  local_starts : is_line_local = true → LineLocal LF starts

/-- A content test: a text, with what its matcher did on the bytes, or a
pattern. -/
inductive Atom
  | text (find : Bytes → Option ℕ × MatchStats)
  | grep (grep : Grep)

/-- The atom's own search for its first match, if it is a pattern. -/
def Atom.search : Atom → Option (Bytes → Option ℕ)
  | .text _ => none
  | .grep g => some (first g.starts)

/-- Asks whether to stop. -/
def ask : List Bool → Bool × List Bool
  | [] => (false, [])
  | stop :: asks => (stop, asks)

/-! ## A document read whole -/

/-- The work of one pattern on a document of `size` bytes. -/
def searched (work : MatchStats) (size : ℕ) (answer : Option ℕ) : MatchStats :=
  { work with
    regex_documents := work.regex_documents + 1
    regex_bytes := work.regex_bytes + size
    regex_rejected := work.regex_rejected + if answer.isNone then 1 else 0 }

/-- One atom over the whole document, with the work added. -/
def Atom.find (bytes : Bytes) (work : MatchStats) : Atom → Option ℕ × MatchStats
  | .text find => ((find bytes).1, work.add (find bytes).2)
  | .grep g =>
    let answer := first g.starts bytes
    (answer, searched work bytes.length answer)

/-- The loop over the atoms: `none` for the answers if it was stopped. -/
def verify_atoms (bytes : Bytes) :
    List Atom → Answers → MatchStats → List Bool → Option Answers × MatchStats
  | [], answers, work, _ => (some answers, work)
  | atom :: atoms, answers, work, asks =>
    match ask asks with
    | (true, _) => (none, work)
    | (false, asks) =>
      let (answer, work) := atom.find bytes work
      match ask asks with
      | (true, _) => (none, work)
      | (false, asks) => verify_atoms bytes atoms (answers ++ [answer]) work asks

/-- Reads a document whole and runs every atom over it. `read` is what the
host hands over: the version it read, with its bytes. -/
def verify (atoms : List Atom) (read : Option (ReadVersion × Bytes)) (asks : List Bool) : Outcome :=
  match ask asks with
  | (true, _) => .stopped .default
  | (false, asks) =>
    match read with
    | none => if (ask asks).1 then .stopped .default else .unread
    | some (version, bytes) =>
      match verify_atoms bytes atoms [] .default asks with
      | (none, work) => .stopped work
      | (some answers, work) => .read version answers work

/-! ## A document streamed -/

/-- Whether every atom can be searched for a run of lines at a time. -/
def streams (atoms : List Atom) : Bool :=
  !atoms.isEmpty && atoms.all fun
    | .text _ => false
    | .grep g => g.is_line_local

/-- An atom's first match so far, and whether that is final: it matched, or
was searched for to the end. -/
structure Slot where
  answer : Option ℕ
  done : Bool
deriving DecidableEq

/-- One read's search, run by run; the answers to what is asked, and whether
a stop ended the read. -/
structure Progress where
  slots : List Slot
  /-- Atoms not yet matched. -/
  unmatched : ℕ
  size : ℕ
  asks : List Bool
  halted : Bool
deriving DecidableEq

/-- The slot of an atom searched for in a run. -/
def Slot.search (find : Bytes → Option ℕ) (run : Bytes) (base : ℕ) (terminated : Bool)
    (slot : Slot) : Slot :=
  let answer := match find run with
    | some found => some (base + found)
    | none => slot.answer
  { answer, done := answer.isSome || !terminated }

namespace Progress

def new (atoms : ℕ) (asks : List Bool) : Progress where
  slots := List.replicate atoms ⟨none, false⟩
  unmatched := atoms
  size := 0
  asks := asks
  halted := false

/-- Starts over for a read of `len` bytes. -/
def restart (p : Progress) (len : ℕ) : Progress :=
  { p with
    slots := List.replicate p.slots.length ⟨none, false⟩
    unmatched := p.slots.length
    size := len }

/-- Searches a run for every atom not done; true if it is stopped before one
of them. -/
def search_atoms (run : Bytes) (base : ℕ) (terminated : Bool) :
    List (Option (Bytes → Option ℕ)) → Progress → Bool × Progress
  | [], p => (false, p)
  | regex :: regexes, p =>
    match p.slots with
    | [] => (false, p)
    | slot :: slots =>
      let rest := { p with slots := slots }
      match slot.done, regex with
      | false, some find =>
        match ask p.asks with
        | (true, asks) => (true, { p with asks := asks })
        | (false, asks) =>
          let rest := { rest with
            asks := asks
            unmatched := if (find run).isSome then p.unmatched - 1 else p.unmatched }
          let (halted, after) := search_atoms run base terminated regexes rest
          (halted, { after with slots := slot.search find run base terminated :: after.slots })
      | _, _ =>
        let (halted, after) := search_atoms run base terminated regexes rest
        (halted, { after with slots := slot :: after.slots })

/-- Searches a run: breaks off once every atom has matched. -/
def search (regexes : List (Option (Bytes → Option ℕ))) (p : Progress) (run : Bytes) (base : ℕ)
    (terminated : Bool) : Option Flow × Progress :=
  match p.search_atoms run base terminated regexes with
  | (true, p) => (none, p)
  | (false, p) =>
    if p.unmatched = 0 ∨ !terminated then
      match ask p.asks with
      | (true, asks) => (none, { p with asks := asks })
      | (false, asks) =>
        (some (if p.unmatched = 0 then .stop else .go), { p with asks := asks })
    else (some .go, p)

/-- What is done with each run of the read. -/
def visit (regexes : List (Option (Bytes → Option ℕ))) (p : Progress) (run : Bytes) (base : ℕ)
    (terminated : Bool) : Except IoError Flow × Progress :=
  match p.search regexes run base terminated with
  | (some flow, p) => (.ok flow, p)
  | (none, p) => (.error .stopped, { p with halted := true })

/-- The work of the atoms that are done, matched or not. -/
def finished (p : Progress) : MatchStats :=
  let settled := p.slots.filter Slot.done
  { MatchStats.default with
    regex_documents := settled.length
    regex_bytes := settled.length * p.size
    regex_rejected := (settled.filter fun slot => slot.answer.isNone).length }

def answers (p : Progress) : Answers := p.slots.map Slot.answer

end Progress

/-- What a host does when asked to stream a document: the attempts it makes,
and the version it accepts from how they went. -/
structure StreamRead where
  inputs : List Input
  version : List (Except IoError Unit) → Option ReadVersion

/-- The attempts, one after another. -/
def attempts (regexes : List (Option (Bytes → Option ℕ))) :
    List Input → Progress → List (Except IoError Unit) × Progress
  | [], p => ([], p)
  | input :: inputs, p =>
    let (result, p) := runs id (Progress.visit regexes) input none (p.restart input.len)
    let (results, p) := attempts regexes inputs p
    (result :: results, p)

/-- Reads a document as a stream, and runs every atom over its runs. -/
def stream (regexes : List (Option (Bytes → Option ℕ))) (read : StreamRead) (asks : List Bool) :
    Outcome :=
  match ask asks with
  | (true, _) => .stopped .default
  | (false, asks) =>
    let (results, p) := attempts regexes read.inputs (.new regexes.length asks)
    let version := read.version results
    if p.halted || (ask p.asks).1 then .stopped p.finished
    else
      match version with
      | none => .unread
      | some version => .read version p.answers p.finished

/-! ## Nothing stops -/

/-- No question is answered by a stop. -/
def Quiet (asks : List Bool) : Prop := ∀ stop ∈ asks, stop = false

theorem Quiet.ask {asks : List Bool} (h : Quiet asks) :
    ∃ rest, Verify.ask asks = (false, rest) ∧ Quiet rest := by
  cases asks with
  | nil => exact ⟨[], rfl, h⟩
  | cons stop asks =>
    obtain rfl := h stop (.head _)
    exact ⟨asks, rfl, fun stop hstop => h stop (.tail _ hstop)⟩

/-- A document read whole: every pattern's answer is its first match. -/
theorem verify_atoms_greps (bytes : Bytes) (gs : List Grep) {answers : Answers} {work : MatchStats}
    {asks : List Bool} (h : Quiet asks) :
    verify_atoms bytes (gs.map .grep) answers work asks
      = (some (answers ++ gs.map fun g => first g.starts bytes),
        { work with
          regex_documents := work.regex_documents + gs.length
          regex_bytes := work.regex_bytes + gs.length * bytes.length
          regex_rejected := work.regex_rejected
            + (gs.map fun g => first g.starts bytes).countP Option.isNone }) := by
  induction gs generalizing answers work asks with
  | nil => simp [verify_atoms]
  | cons g gs ih =>
    obtain ⟨_, hask₁, hquiet₁⟩ := h.ask
    obtain ⟨_, hask₂, hquiet₂⟩ := hquiet₁.ask
    rw [map_cons, verify_atoms, hask₁]
    simp only [Atom.find, hask₂, ih hquiet₂, searched, map_cons, length_cons,
      countP_cons, append_assoc, singleton_append, Prod.mk.injEq, true_and,
      MatchStats.mk.injEq, and_true]
    refine ⟨by omega, ?_, by omega⟩
    rw [Nat.succ_mul]
    omega

/-- The atoms of a streamed document are line-local patterns. -/
theorem exists_greps {atoms : List Atom} (h : streams atoms = true) :
    ∃ gs : List Grep, atoms = gs.map .grep ∧ ∀ g ∈ gs, g.is_line_local = true := by
  have hall := (Bool.and_eq_true_iff.mp h).2
  clear h
  induction atoms with
  | nil => exact ⟨[], rfl, nofun⟩
  | cons atom atoms ih =>
    rw [all_cons, Bool.and_eq_true] at hall
    obtain ⟨gs, rfl, hgs⟩ := ih hall.2
    cases atom with
    | text _ => exact absurd hall.1 nofun
    | grep g =>
      exact ⟨g :: gs, rfl, fun g' hg' => (mem_cons.mp hg').elim (fun h => h ▸ hall.1) (hgs g')⟩

/-! ## The search of a run -/

/-- The slot of an atom after a run. -/
def Slot.next (run : Bytes) (base : ℕ) (terminated : Bool) (regex : Option (Bytes → Option ℕ))
    (slot : Slot) : Slot :=
  match slot.done, regex with
  | false, some find => slot.search find run base terminated
  | _, _ => slot

namespace Progress

variable {regexes : List (Option (Bytes → Option ℕ))} {run : Bytes} {base : ℕ}
  {terminated : Bool} {p : Progress}

/-- The slots without a match. -/
def misses (slots : List Slot) : ℕ := slots.countP fun slot => slot.answer.isNone

/-- What holds before and after every run of every read. -/
structure Ready (atoms : ℕ) (p : Progress) : Prop where
  length : p.slots.length = atoms
  quiet : Quiet p.asks
  halted : p.halted = false

/-- What holds before a run that is searched: the atoms done are those that matched. -/
structure Open (p : Progress) : Prop where
  done : ∀ slot ∈ p.slots, slot.done = slot.answer.isSome
  unmatched : p.unmatched = misses p.slots

/-- **Searching a run** takes every slot to its next, and counts those without a match. -/
theorem search_atoms_eq (run : Bytes) (base : ℕ) (terminated : Bool)
    (hlength : p.slots.length = regexes.length) (hquiet : Quiet p.asks) :
    ∃ unmatched asks, p.search_atoms run base terminated regexes
        = (false, { p with
            slots := regexes.zipWith (Slot.next run base terminated) p.slots
            unmatched := unmatched
            asks := asks }) ∧ Quiet asks
      ∧ ((∀ slot ∈ p.slots, slot.done = slot.answer.isSome) → ∀ others,
          p.unmatched = others + misses p.slots →
          unmatched = others + misses (regexes.zipWith (Slot.next run base terminated) p.slots)) := by
  induction regexes generalizing p with
  | nil =>
    obtain ⟨slots, unmatched, size, asks, halted⟩ := p
    obtain rfl : slots = [] := length_eq_zero_iff.mp hlength
    exact ⟨unmatched, asks, rfl, hquiet, fun _ _ h => h⟩
  | cons regex regexes ih =>
    obtain ⟨slots, unmatched, size, asks, halted⟩ := p
    cases slots with
    | nil => cases hlength
    | cons slot slots =>
      have hlength' : slots.length = regexes.length := Nat.succ.inj hlength
      by_cases hopen : slot.done = false ∧ regex.isSome = true
      · obtain ⟨find, rfl⟩ := isSome_iff_exists.mp hopen.2
        obtain ⟨asks₁, hask, hquiet₁⟩ := Quiet.ask hquiet
        obtain ⟨u, asks₂, heq, hquiet₂, hcount⟩ := ih (p :=
          ⟨slots, if (find run).isSome then unmatched - 1 else unmatched, size, asks₁, halted⟩)
          hlength' hquiet₁
        have hnext : slot.next run base terminated (some find)
            = slot.search find run base terminated := by
          unfold Slot.next
          rw [hopen.1]
        refine ⟨u, asks₂, ?_, hquiet₂, fun hdone others hothers => ?_⟩
        · rw [search_atoms]
          simp only [hopen.1, hask, heq, zipWith_cons_cons, hnext]
        · have hnone : slot.answer = none := by
            have := hdone slot (.head _)
            rw [hopen.1] at this
            exact isNone_iff_eq_none.mp (by rw [← not_isSome, ← this]; rfl)
          have hrest := fun others => hcount
            (fun slot hslot => hdone slot (.tail _ hslot)) others
          rw [zipWith_cons_cons, hnext]
          simp only [misses, countP_cons, hnone, isNone_none, if_true] at hothers hrest ⊢
          cases hfind : find run with
          | some _ =>
            simp only [hfind, isSome_some, if_true] at hrest
            simp only [Slot.search, hfind, isNone_some, Bool.false_eq_true, if_false]
            exact hrest others (by omega)
          | none =>
            simp only [hfind, isSome_none, Bool.false_eq_true, if_false] at hrest
            simp only [Slot.search, hfind, hnone, isNone_none, if_true]
            rw [hrest (others + 1) (by omega)]
            omega
      · obtain ⟨u, asks₂, heq, hquiet₂, hcount⟩ := ih (p := ⟨slots, unmatched, size, asks, halted⟩)
          hlength' hquiet
        have hnext : slot.next run base terminated regex = slot := by
          unfold Slot.next
          split
          · next hdone => exact absurd ⟨hdone, rfl⟩ hopen
          · rfl
        refine ⟨u, asks₂, ?_, hquiet₂, fun hdone others hothers => ?_⟩
        · rw [search_atoms]
          dsimp only
          split
          · next hdone => exact absurd ⟨hdone, rfl⟩ hopen
          · rw [heq, zipWith_cons_cons, hnext]
        · rw [zipWith_cons_cons, hnext]
          have hrest := hcount (fun slot hslot => hdone slot (.tail _ hslot))
            (others + if slot.answer.isNone then 1 else 0)
          simp only [misses, countP_cons] at hothers hrest ⊢
          rw [hrest (by omega)]
          omega

/-- **A run visited.** -/
theorem visit_eq (run : Bytes) (base : ℕ) (terminated : Bool) (hready : p.Ready regexes.length) :
    ∃ flow next, visit regexes p run base terminated = (.ok flow, next)
      ∧ next.Ready regexes.length ∧ next.size = p.size
      ∧ next.slots = regexes.zipWith (Slot.next run base terminated) p.slots
      ∧ (p.Open → next.unmatched = misses next.slots ∧ (flow = .stop ↔ next.unmatched = 0)) := by
  obtain ⟨unmatched, _, heq, hquiet, hcount⟩ := search_atoms_eq run base terminated
    hready.length hready.quiet
  obtain ⟨_, hask, hquiet'⟩ := hquiet.ask
  have hlength : (regexes.zipWith (Slot.next run base terminated) p.slots).length
      = regexes.length := by
    rw [length_zipWith, hready.length, min_self]
  have hcounted : p.Open → unmatched
      = misses (regexes.zipWith (Slot.next run base terminated) p.slots) := fun hopen =>
    (hcount hopen.done 0 (by rw [hopen.unmatched, zero_add])).trans (zero_add _)
  unfold visit search
  rw [heq]
  dsimp only
  by_cases hend : unmatched = 0 ∨ (!terminated) = true
  · rw [if_pos hend, hask]
    refine ⟨_, _, rfl, ⟨hlength, hquiet', hready.halted⟩, rfl, rfl, fun hopen =>
      ⟨hcounted hopen, ?_⟩⟩
    by_cases hzero : unmatched = 0
    · rw [if_pos hzero]
      exact iff_of_true rfl hzero
    · rw [if_neg hzero]
      exact iff_of_false Flow.noConfusion hzero
  · rw [if_neg hend]
    exact ⟨_, _, rfl, ⟨hlength, hquiet, hready.halted⟩, rfl, rfl, fun hopen =>
      ⟨hcounted hopen, iff_of_false Flow.noConfusion fun h => hend (.inl h)⟩⟩

/-! ## The runs of a document -/

variable {gs : List Grep}

/-- The searches of patterns. -/
abbrev searches (gs : List Grep) : List (Option (Bytes → Option ℕ)) :=
  gs.map fun g => some (first g.starts)

/-- What a slot comes to, with `text` still to be searched from `base` on. -/
def settle (text : Bytes) (base : ℕ) (g : Grep) (slot : Slot) : Slot :=
  ⟨slot.answer.or ((first g.starts text).map (base + ·)), true⟩

variable {slot : Slot} {slots : List Slot}

/-- Searching the last run settles a slot. -/
theorem next_last (g : Grep) (h : slot.done = slot.answer.isSome) :
    Slot.next run base false (some (first g.starts)) slot = settle run base g slot := by
  obtain ⟨answer, done⟩ := slot
  obtain rfl : done = answer.isSome := h
  cases answer with
  | some _ => rfl
  | none => cases hfind : first g.starts run <;> simp [Slot.next, Slot.search, settle, hfind]

/-- Searching a run leaves a slot as it should be, to be settled by the rest. -/
theorem next_settle {g : Grep} (hg : g.is_line_local = true) (rest : Bytes)
    (h : slot.done = slot.answer.isSome) :
    let next := Slot.next run base true (some (first g.starts)) slot
    next.done = next.answer.isSome
      ∧ settle rest (base + run.length + 1) g next = settle (run ++ LF :: rest) base g slot := by
  obtain ⟨answer, done⟩ := slot
  obtain rfl : done = answer.isSome := h
  have hshift : ((first g.starts rest).map (run.length + 1 + ·)).map (base + ·)
      = (first g.starts rest).map (base + run.length + 1 + ·) := by
    rw [Option.map_map]
    congr 1
    funext i
    show base + (run.length + 1 + i) = base + run.length + 1 + i
    omega
  cases answer with
  | some _ => exact ⟨rfl, rfl⟩
  | none =>
    simp only [settle, (g.local_starts hg).first_append_cons, map_or, hshift]
    cases hfind : first g.starts run <;> simp [Slot.next, Slot.search, hfind]

theorem zipWith_congr_mem {f f' : Grep → Slot → Slot}
    (h : ∀ g ∈ gs, ∀ slot ∈ slots, f g slot = f' g slot) :
    gs.zipWith f slots = gs.zipWith f' slots := by
  induction gs generalizing slots with
  | nil => rfl
  | cons g gs ih =>
    cases slots with
    | nil => rfl
    | cons slot slots =>
      rw [zipWith_cons_cons, zipWith_cons_cons, h g (.head _) slot (.head _),
        ih fun g hg slot hslot => h g (.tail _ hg) slot (.tail _ hslot)]

theorem zipWith_zipWith_self (f f' : Grep → Slot → Slot) (slots : List Slot) :
    gs.zipWith f (gs.zipWith f' slots) = gs.zipWith (fun g slot => f g (f' g slot)) slots := by
  induction gs generalizing slots with
  | nil => rfl
  | cons g gs ih =>
    cases slots with
    | nil => rfl
    | cons slot slots => simp only [zipWith_cons_cons, ih]

theorem zipWith_right_self (h : slots.length = gs.length) :
    gs.zipWith (fun _ slot => slot) slots = slots := by
  induction gs generalizing slots with
  | nil => exact (length_eq_zero_iff.mp h).symm
  | cons g gs ih =>
    cases slots with
    | nil => cases h
    | cons slot slots => rw [zipWith_cons_cons, ih (Nat.succ.inj h)]

theorem exists_of_mem_zipWith {f : Grep → Slot → Slot}
    (h : slot ∈ gs.zipWith f slots) : ∃ g ∈ gs, ∃ old ∈ slots, f g old = slot := by
  rw [← map_uncurry_zip_eq_zipWith] at h
  obtain ⟨pair, hpair, rfl⟩ := List.mem_map.mp h
  exact ⟨pair.1, (of_mem_zip hpair).1, pair.2, (of_mem_zip hpair).2, rfl⟩

/-- **The runs of a document settle every slot** as the whole document does. -/
theorem deliver_visit {text : Bytes} {pieces : List (Piece UInt8)} (hcuts : Cuts LF text base pieces)
    (hgs : ∀ g ∈ gs, g.is_line_local = true) (hready : p.Ready gs.length) (hopen : p.Open) :
    ∃ last, deliver (visit (searches gs)) pieces p = (.ok (), last) ∧ last.Ready gs.length
      ∧ last.size = p.size ∧ last.slots = gs.zipWith (settle text base) p.slots := by
  induction hcuts generalizing p with
  | last run base =>
    obtain ⟨flow, next, hvisit, hready', hsize, hslots, -⟩ := visit_eq run base false
      (show p.Ready (searches gs).length by rwa [length_map])
    rw [length_map] at hready'
    refine ⟨next, ?_, hready', hsize, ?_⟩
    · rw [deliver, hvisit]
      cases flow <;> rfl
    · rw [hslots, zipWith_map_left]
      exact zipWith_congr_mem fun g hg slot hslot => next_last g (hopen.done slot hslot)
  | @cons run rest base pieces hcuts ih =>
    obtain ⟨flow, next, hvisit, hready', hsize, hslots, hflow⟩ := visit_eq run base true
      (show p.Ready (searches gs).length by rwa [length_map])
    rw [length_map] at hready'
    rw [zipWith_map_left] at hslots
    obtain ⟨hcount, hstop⟩ := hflow hopen
    have hdone : ∀ slot ∈ next.slots, slot.done = slot.answer.isSome := by
      intro slot hslot
      rw [hslots] at hslot
      obtain ⟨g, hg, old, hold, rfl⟩ := exists_of_mem_zipWith hslot
      exact (next_settle (hgs g hg) rest (hopen.done old hold)).1
    have hsettle : gs.zipWith (settle rest (base + run.length + 1)) next.slots
        = gs.zipWith (settle (run ++ LF :: rest) base) p.slots := by
      rw [hslots, zipWith_zipWith_self]
      exact zipWith_congr_mem fun g hg slot hslot => (next_settle (hgs g hg) rest (hopen.done slot hslot)).2
    rw [deliver, hvisit]
    cases flow with
    | stop =>
      -- Every atom has matched, so what follows settles nothing anew.
      refine ⟨next, rfl, hready', hsize, ?_⟩
      have hmisses : misses next.slots = 0 := hcount ▸ hstop.mp rfl
      have hall : ∀ g ∈ gs, ∀ slot ∈ next.slots,
          settle rest (base + run.length + 1) g slot = slot := by
        intro g hg slot hslot
        have hsome : slot.answer.isSome = true := by
          have := countP_eq_zero.mp hmisses slot hslot
          rwa [Bool.not_eq_true, isNone_eq_false_iff] at this
        obtain ⟨found, hfound⟩ := isSome_iff_exists.mp hsome
        have hd := (hdone slot hslot).trans hsome
        obtain ⟨answer, done⟩ := slot
        obtain rfl : answer = some found := hfound
        obtain rfl : done = true := hd
        rfl
      rw [← hsettle, zipWith_congr_mem hall]
      exact (zipWith_right_self hready'.length).symm
    | go =>
      obtain ⟨last, hdeliver, hready'', hsize', hlast⟩ := ih hready' ⟨hdone, hcount⟩
      exact ⟨last, hdeliver, hready'', hsize'.trans hsize, hlast.trans hsettle⟩

/-! ## A host's attempts -/

theorem Ready.restart {atoms : ℕ} (h : p.Ready atoms) (len : ℕ) : (p.restart len).Ready atoms where
  length := length_replicate.trans h.length
  quiet := h.quiet
  halted := h.halted

theorem open_restart (len : ℕ) : (p.restart len).Open where
  done := fun slot hslot => by rw [eq_of_mem_replicate hslot]; rfl
  unmatched := by rw [restart, misses, countP_replicate]; rfl

/-- No attempt, however it goes, brings a stop. -/
theorem Ready.attempts (inputs : List Input) (h : p.Ready regexes.length) :
    (Verify.attempts regexes inputs p).2.Ready regexes.length := by
  induction inputs generalizing p with
  | nil => exact h
  | cons _ inputs ih =>
    refine ih (runs_keeps (Ready regexes.length) (fun p run base terminated hp => ?_)
      (h.restart _))
    obtain ⟨_, _, hvisit, hready, -⟩ := visit_eq run base terminated hp
    rw [hvisit]
    exact hready

theorem attempts_append (earlier later : List Input) (p : Progress) :
    (Verify.attempts regexes (earlier ++ later) p).2
      = (Verify.attempts regexes later (Verify.attempts regexes earlier p).2).2 := by
  induction earlier generalizing p with
  | nil => rfl
  | cons _ earlier ih => exact ih _

/-- What the slots come to once settled by a whole document. -/
theorem settled_slots (text : Bytes) (n : ℕ) (h : n = gs.length) :
    gs.zipWith (settle text 0) (List.replicate n ⟨none, false⟩)
      = gs.map fun g => ⟨first g.starts text, true⟩ := by
  subst h
  induction gs with
  | nil => rfl
  | cons g gs ih =>
    rw [length_cons, replicate_succ, zipWith_cons_cons, ih, map_cons]
    congr 1
    rw [settle, none_or]
    cases first g.starts text <;> simp

/-- The work of a document whose slots are settled. -/
theorem finished_settled {text : Bytes}
    (h : p.slots = gs.map fun g => ⟨first g.starts text, true⟩) :
    p.finished = { MatchStats.default with
      regex_documents := gs.length
      regex_bytes := gs.length * p.size
      regex_rejected := (gs.map fun g => first g.starts text).countP Option.isNone } := by
  have hall : p.slots.filter Slot.done = p.slots := filter_eq_self.mpr fun slot hslot => by
    rw [h] at hslot
    obtain ⟨g, -, rfl⟩ := List.mem_map.mp hslot
    rfl
  have hlength : p.slots.length = gs.length := by rw [h, length_map]
  have hmisses : (p.slots.filter fun slot => slot.answer.isNone).length
      = (gs.map fun g => first g.starts text).countP Option.isNone := by
    rw [← countP_eq_length_filter, h, countP_map, countP_map]
    rfl
  simp only [finished, hall, hlength, hmisses]

/-- **The last attempt decides.** -/
theorem attempts_last {input : Input} (hgs : ∀ g ∈ gs, g.is_line_local = true)
    (hinput : input.Quiet) (hlen : input.len = input.source.rest.length) (earlier : List Input)
    (hready : p.Ready gs.length) :
    let last := (Verify.attempts (searches gs) (earlier ++ [input]) p).2
    last.Ready gs.length ∧ last.size = input.source.rest.length
      ∧ last.slots = gs.map fun g => ⟨first g.starts input.source.rest, true⟩ := by
  rw [attempts_append]
  have hready' := Ready.attempts earlier (show p.Ready (searches gs).length by
    rwa [length_map])
  rw [length_map] at hready'
  generalize (Verify.attempts (searches gs) earlier p).2 = before at hready' ⊢
  obtain ⟨_, hcuts, hruns⟩ := runs_eq_deliver hinput hlen.ge none
  obtain ⟨last, hdeliver, hlast, hsize, hslots⟩ :=
    deliver_visit hcuts hgs (hready'.restart input.len) (open_restart input.len)
  have hrun : (Verify.attempts (searches gs) [input] before).2 = last := by
    rw [Verify.attempts, hruns, hdeliver]
    rfl
  rw [hrun]
  exact ⟨hlast, hsize.trans hlen, hslots.trans (settled_slots _ _ hready'.length)⟩

end Progress

open Progress in
/-- **A document streamed is a document verified.** Let every atom be a line-local pattern. A
document arrives in any number of reads, of any sizes, some of them interrupted, after any other
attempts to read it. The runs shown are pieces of it, cut at line ends, each with where it begins;
and every answer, every offset and every count is the one of the document read whole. -/
theorem stream_eq_verify {atoms : List Atom} (hstreams : streams atoms = true) {input : Input}
    (hinput : input.Quiet) (hlen : input.len = input.source.rest.length) {read : StreamRead}
    {earlier : List Input} (hread : read.inputs = earlier ++ [input]) {asks asks' : List Bool}
    (hasks : Quiet asks) (hasks' : Quiet asks') {version : Option ReadVersion}
    (hversion : read.version (attempts (atoms.map Atom.search) read.inputs
      (.new atoms.length (ask asks).2)).1 = version) :
    (∃ pieces, Cuts LF input.source.rest 0 pieces
      ∧ [LF].intercalate (pieces.map Piece.run) = input.source.rest
      ∧ (∀ p ∈ pieces, ∃ before after, input.source.rest = before ++ (p.run ++ after)
        ∧ p.base = before.length ∧ (before = [] ∨ ∃ u, before = u ++ [LF])
        ∧ if p.terminated then ∃ v, after = LF :: v else after = [])
      ∧ ∀ {ε σ : Type} (from_io : IoError → ε) (each : σ → Bytes → ℕ → Bool → Except ε Flow × σ)
          (state : σ), runs from_io each input none state = deliver each pieces state)
    ∧ stream (atoms.map Atom.search) read asks
      = verify atoms (version.map fun v => (v, input.source.rest)) asks' := by
  constructor
  · obtain ⟨pieces, hcuts, hruns⟩ := runs_eq_deliver hinput hlen.ge none
    refine ⟨pieces, hcuts, hcuts.intercalate, fun p hp => ?_, hruns⟩
    obtain ⟨before, after, htext, hbase, hstart, hend⟩ := hcuts.exists_around hp
    exact ⟨before, after, htext, hbase.trans (zero_add _), hstart, hend⟩
  · obtain ⟨gs, rfl, hgs⟩ := exists_greps hstreams
    obtain ⟨asks₁, hask₁, hquiet₁⟩ := hasks.ask
    obtain ⟨_, hask₂, hquiet₂⟩ := hasks'.ask
    obtain ⟨_, hask₃, -⟩ := hquiet₂.ask
    have hsearches : (gs.map Atom.grep).map Atom.search = searches gs := List.map_map
    rw [hask₁, hread, hsearches, length_map] at hversion
    obtain ⟨hready, hsize, hslots⟩ := attempts_last hgs hinput hlen earlier
      (p := .new gs.length asks₁) ⟨length_replicate, hquiet₁, rfl⟩
    unfold stream
    rw [hask₁, hsearches, hread]
    dsimp only
    rw [length_map]
    cases hlast : attempts (searches gs) (earlier ++ [input]) (.new gs.length asks₁) with
    | mk _ _ =>
      rw [hlast] at hready hsize hslots hversion
      obtain ⟨_, hask₄, -⟩ := hready.quiet.ask
      dsimp only
      rw [hready.halted, hask₄, hversion, finished_settled hslots, hsize, Progress.answers, hslots,
        verify, hask₂]
      dsimp only
      rw [Bool.or_self, if_neg Bool.false_ne_true]
      cases version with
      | none =>
        rw [map_none]
        dsimp only
        rw [hask₃, if_neg Bool.false_ne_true]
      | some v =>
        rw [map_some]
        dsimp only
        rw [verify_atoms_greps _ _ hquiet₂, List.map_map]
        simp [MatchStats.default, Function.comp_def]

/-- A single byte is a line-local pattern, unless it is an LF. -/
theorem lineLocal_byte {b : UInt8} (hb : b ≠ LF) :
    LineLocal LF fun text i => text[i]? == some b := by
  intro before run after hbefore hafter i hi
  show ((before ++ (run ++ after))[before.length + i]? == some b) = (run[i]? == some b)
  rw [getElem?_append_right (le_self_add), Nat.add_sub_cancel_left]
  rcases lt_or_ge i run.length with hlt | hge
  · rw [getElem?_append_left hlt]
  · obtain rfl : i = run.length := le_antisymm hi hge
    rw [getElem?_append_right le_rfl, Nat.sub_self, getElem?_eq_none le_rfl]
    rcases hafter with rfl | ⟨v, rfl⟩
    · rfl
    · show (some LF == some b) = (none == some b)
      rw [beq_eq_false_iff_ne.mpr fun h => hb (Option.some.inj h).symm]
      rfl

/-- A document that arrives a byte at a time, with an interrupted read, after an attempt that
failed. -/
theorem stream_eq_verify_dribbled :
    let b : Grep := ⟨fun text i => text[i]? == some 98, true, fun _ => lineLocal_byte (by decide)⟩
    let failing : Input := ⟨⟨[98], [⟨false, false, .failed⟩]⟩, 1, 0, false⟩
    let input : Input := ⟨⟨[97, 10, 97, 98], [⟨false, false, .upTo 0⟩, ⟨false, false, .interrupted⟩,
      ⟨false, false, .upTo 0⟩, ⟨false, false, .upTo 0⟩]⟩, 4, 0, false⟩
    stream [some (first b.starts)] ⟨[failing, input], fun _ => some .catalogued⟩ []
      = .read .catalogued [some 3] ⟨1, 4, 0, 0, 0, 0, 0⟩ := by
  intro b failing input
  have hquiet : input.Quiet := ⟨rfl, fun t ht => by
    simp only [input, mem_cons, not_mem_nil, or_false] at ht
    rcases ht with rfl | rfl | rfl | rfl <;> exact ⟨rfl, rfl, Read.noConfusion⟩⟩
  have hasks : Quiet [] := nofun
  have hread : (⟨[failing, input], fun _ => some .catalogued⟩ : StreamRead).inputs
      = [failing] ++ [input] := rfl
  exact (stream_eq_verify (show streams [.grep b] = true from rfl) hquiet rfl hread hasks hasks
    (show _ = some ReadVersion.catalogued from rfl)).2.trans (by decide)

end Ferret.Verify
