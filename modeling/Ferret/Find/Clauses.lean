import Ferret.Find.Permission

/-!
# The clauses of a mode

Two scanners read a mode. `valid_mode` decides whether the command has it, and
`parse_mode` turns it into bits later, with a grammar of its own that accepts
more. Here both are related to the clauses a mode is written in: what
`valid_mode` accepts is spelled by octal digits or by clauses
(`exists_spells`), and of these `parse_mode` is the letter-by-letter reading
(`parse_mode_symbolic`), for a plain file and for a directory at once.
-/

namespace Ferret.Find

open Chmod List BitVec

variable {classes : List Chmod.Class} {who : List Who} {what : What} {modes modes' : Bits × Bits}

/-! ## The bits of letters -/

variable (classes : List Chmod.Class)

/-- One permission of each class selected, as a fold over their letters. -/
theorem classBits_map {k u g o : Bits} (hu : u = k &&& Class.user.mask)
    (hg : g = k &&& Class.group.mask) (ho : o = k &&& Class.other.mask) :
    classBits (classes.map Class.letter) u g o = k &&& selected classes := by
  have hfold (acc : Bits) : (classes.map Class.letter).foldl
      (fun acc w => acc ||| if w = 117 then u else if w = 103 then g else o) acc
      = acc ||| (k &&& selected classes) := by
    induction classes generalizing acc with
    | nil =>
      show acc = acc ||| (k &&& 0#32)
      rw [and_zero, or_zero]
    | cons c classes ih =>
      have hc : (if c.letter = 117 then u else if c.letter = 103 then g else o) = k &&& c.mask := by
        cases c with
        | user => exact hu
        | group => exact hg
        | other => exact ho
      rw [map_cons, foldl_cons, hc, ih]
      show _ = acc ||| (k &&& (c.mask ||| selected classes))
      rw [and_or_distrib_left, BitVec.or_assoc]
  rw [classBits, hfold]
  exact zero_or

/-- The letters after an operator, read one by one. -/
theorem permBits_letters (ls : List Letter) (bits xbits : Bits) :
    permBits (classes.map Class.letter) (ls.map Letter.letter) (bits, xbits)
      = some (bits ||| union (Letter.literal (selected classes)) ls,
          xbits ||| union (Letter.conditional (selected classes)) ls) := by
  induction ls generalizing bits xbits with
  | nil =>
    show some (bits, xbits) = some (bits ||| 0#32, xbits ||| 0#32)
    rw [or_zero, or_zero]
  | cons l ls ih =>
    have hstep : permBits (classes.map Class.letter) (l.letter :: ls.map Letter.letter) (bits, xbits)
        = permBits (classes.map Class.letter) (ls.map Letter.letter)
          (bits ||| l.literal (selected classes), xbits ||| l.conditional (selected classes)) := by
      have hfile {u g o k : Bits} (hc : classBits (classes.map Class.letter) u g o
            = k &&& selected classes) :
          permBits (classes.map Class.letter) (ls.map Letter.letter)
              (bits ||| classBits (classes.map Class.letter) u g o, xbits)
            = permBits (classes.map Class.letter) (ls.map Letter.letter)
              (bits ||| k &&& selected classes, xbits ||| 0#32) := by
        rw [hc, or_zero]
      cases l with
      | r => exact hfile (classBits_map classes rfl rfl rfl)
      | w => exact hfile (classBits_map classes rfl rfl rfl)
      | x => exact hfile (classBits_map classes rfl rfl rfl)
      | X =>
        show permBits _ _ (bits, xbits ||| classBits _ 0o100 0o010 0o001) = permBits _ _ (bits ||| 0#32, _)
        have hx : classBits (classes.map Class.letter) 0o100 0o010 0o001
            = 0o111 &&& selected classes := classBits_map classes rfl rfl rfl
        rw [hx, or_zero]
        rfl
      | s => exact hfile (classBits_map classes rfl rfl rfl)
      | t =>
        show permBits _ _ (bits ||| 0o1000, xbits) = permBits _ _ (_, xbits ||| 0#32)
        rw [or_zero]
        rfl
    rw [map_cons, hstep, ih, BitVec.or_assoc, BitVec.or_assoc]
    rfl

theorem permBits_text (what : What) :
    permBits (classes.map Class.letter) what.text (0, 0)
      = some (what.literal (selected classes), what.conditional (selected classes)) := by
  cases what with
  | letters ls =>
    refine (permBits_letters classes ls 0 0).trans ?_
    show some (0#32 ||| _, 0#32 ||| _) = _
    rw [zero_or, zero_or]
    rfl
  | copy source => cases source <;> rfl

/-! ## Operators -/

/-- What is kept of a mode says what was read, of a plain file and of a directory. -/
def Tracks (modes : Bits × Bits) (file directory : Bits) : Prop :=
  modes.1 = file ∧ modes.1 ||| modes.2 = directory

variable {file directory : Bits} {b : UInt8} {bytes : Arg}

/-- One operator is the letter-by-letter change, in both. -/
theorem Tracks.apply (h : Tracks modes file directory) (change : Change) :
    Tracks (applyOperator (selected change.classes) change.sign.letter
        (change.what.literal (selected change.classes))
        (change.what.conditional (selected change.classes)) modes)
      (change.literal false file) (change.literal true directory) := by
  obtain ⟨rfl, rfl⟩ := h
  obtain ⟨mode, conditional⟩ := modes
  obtain ⟨classes, sign, what⟩ := change
  simp only [Change.literal, Change.named, Tracks, applyOperator]
  generalize what.literal (selected classes) = bits
  generalize what.conditional (selected classes) = xbits
  generalize ~~~selected classes = other
  cases sign with
  | plus =>
    refine ⟨?_, ?_⟩
    · show mode ||| bits = mode ||| (bits ||| 0#32)
      rw [or_zero]
    · show (mode ||| bits) ||| (conditional ||| xbits)
        = (mode ||| conditional) ||| (bits ||| xbits)
      ext i hi
      simp only [getElem_or]
      ac_rfl
  | minus =>
    refine ⟨rfl, ?_⟩
    show (mode &&& ~~~(bits ||| xbits)) ||| (conditional &&& ~~~(bits ||| xbits))
      = (mode ||| conditional) &&& ~~~(bits ||| xbits)
    exact and_or_distrib_right.symm
  | equal =>
    refine ⟨?_, ?_⟩
    · show (mode &&& other) ||| bits = (mode &&& other) ||| (bits ||| 0#32)
      rw [or_zero]
    · show ((mode &&& other) ||| bits) ||| ((conditional &&& other) ||| xbits)
        = ((mode ||| conditional) &&& other) ||| (bits ||| xbits)
      rw [and_or_distrib_right]
      ext i hi
      simp only [getElem_or]
      ac_rfl

/-! ## The text of a clause -/

theorem isOperator_sign (sign : Sign) : isOperator sign.letter = true := by
  cases sign <;> rfl

/-- No byte after an operator is one, up to the next. -/
theorem not_isOperator_text (what : What) : ∀ b ∈ what.text, (!isOperator b) = true := by
  cases what with
  | letters _ =>
    intro b hb
    obtain ⟨l, -, rfl⟩ := mem_map.mp hb
    cases l <;> rfl
  | copy source =>
    intro b hb
    rw [mem_singleton.mp hb]
    cases source <;> rfl

/-- The operators of a clause as they are written. -/
def changesText (changes : List (Sign × What)) : Arg :=
  changes.flatMap fun change => change.1.letter :: change.2.text

variable (changes : List (Sign × What))

/-- The operators of a clause begin with one. -/
theorem changesText_while :
    (changesText changes).takeWhile (fun b => !isOperator b) = [] ∧
      (changesText changes).dropWhile (fun b => !isOperator b) = changesText changes := by
  cases changes with
  | nil => exact ⟨rfl, rfl⟩
  | cons change changes =>
    have hop : ¬ (!isOperator change.1.letter) = true := by simp [isOperator_sign]
    exact ⟨takeWhile_cons_of_neg hop, dropWhile_cons_of_neg hop⟩

/-- The text of a clause after an operator ends before the next. -/
theorem takeWhile_text (what : What) (changes : List (Sign × What)) :
    (what.text ++ changesText changes).takeWhile (fun b => !isOperator b) = what.text ∧
      (what.text ++ changesText changes).dropWhile (fun b => !isOperator b)
        = changesText changes := by
  rw [takeWhile_append_of_pos (not_isOperator_text what),
    dropWhile_append_of_pos (not_isOperator_text what), (changesText_while changes).1,
    (changesText_while changes).2, append_nil]
  exact ⟨rfl, rfl⟩

/-- **The operators of a clause are read one after the other.** -/
theorem parseOperators_text (fuel : ℕ) (hfuel : (changesText changes).length ≤ fuel)
    (h : Tracks modes file directory) :
    ∃ modes', parseOperators (classes.map Class.letter) fuel (changesText changes) modes
        = some modes' ∧
      Tracks modes' (literalRun false (changes.map fun c => ⟨classes, c.1, c.2⟩) file)
        (literalRun true (changes.map fun c => ⟨classes, c.1, c.2⟩) directory) := by
  induction changes generalizing fuel modes file directory with
  | nil => exact ⟨modes, by cases fuel <;> rfl, h⟩
  | cons change changes ih =>
    obtain ⟨fuel, rfl⟩ : ∃ n, fuel = n + 1 :=
      ⟨fuel - 1, by simp [changesText] at hfuel; omega⟩
    have hselected : classBits (classes.map Class.letter) 0o4700 0o2070 0o1007
        = selected classes :=
      (classBits_map (k := BitVec.allOnes 32) classes rfl rfl rfl).trans allOnes_and
    obtain ⟨htake, hdrop⟩ := takeWhile_text change.2 changes
    have hshort : (changesText changes).length ≤ fuel := by
      simp only [changesText, flatMap_cons, length_append, length_cons] at hfuel ⊢
      omega
    obtain ⟨modes', hread, htracks⟩ := ih fuel hshort (h.apply ⟨classes, change.1, change.2⟩)
    refine ⟨modes', ?_, htracks⟩
    show parseOperators _ (fuel + 1)
      (change.1.letter :: (change.2.text ++ changesText changes)) modes = _
    rw [parseOperators, htake, hdrop, permBits_text, hselected]
    exact hread

/-- The classes of a clause, as the reader finds them in its letters. -/
theorem classes_letters (clause : Clause) :
    clause.classes.map Class.letter =
      if clause.who.map Who.letter = [] ∨ (clause.who.map Who.letter).contains 97 = true
        then word "ugo" else clause.who.map Who.letter := by
  have hall : (clause.who.map Who.letter).contains 97 = true ↔ .all ∈ clause.who := by
    rw [contains_iff_mem, mem_map]
    constructor
    · rintro ⟨w, hw, hletter⟩
      cases w with
      | all => exact hw
      | only c => cases c <;> exact absurd hletter (by decide)
    · exact fun h => ⟨.all, h, rfl⟩
  simp only [Clause.classes, hall, map_eq_nil_iff]
  split_ifs with h
  · rfl
  · have hnone : .all ∉ clause.who := fun hmem => h (.inr hmem)
    clear h hall
    generalize clause.who = who at hnone
    induction who with
    | nil => rfl
    | cons w who ih =>
      cases w with
      | all => exact absurd mem_cons_self hnone
      | only c =>
        show c.letter :: _ = c.letter :: _
        rw [ih fun hmem => hnone (mem_cons_of_mem _ hmem)]

/-- **One clause is read as its changes.** -/
theorem parseClause_text (clause : Clause) (hne : clause.changes ≠ [])
    (h : Tracks modes file directory) :
    ∃ modes', parseClause modes clause.text = some modes' ∧
      Tracks modes' (literalRun false clause.program file)
        (literalRun true clause.program directory) := by
  have hwho : ∀ b ∈ clause.who.map Who.letter, (!isOperator b) = true := by
    intro b hb
    obtain ⟨w, -, rfl⟩ := mem_map.mp hb
    cases w with
    | all => rfl
    | only c => cases c <;> rfl
  have hletters : (clause.who.map Who.letter).all (word "ugoa").contains = true := by
    rw [all_eq_true]
    intro b hb
    obtain ⟨w, -, rfl⟩ := mem_map.mp hb
    cases w with
    | all => rfl
    | only c => cases c <;> rfl
  have htake : clause.text.takeWhile (fun b => !isOperator b) = clause.who.map Who.letter := by
    show (clause.who.map Who.letter ++ changesText clause.changes).takeWhile _ = _
    rw [takeWhile_append_of_pos hwho, (changesText_while _).1, append_nil]
  have hdrop : clause.text.dropWhile (fun b => !isOperator b) = changesText clause.changes := by
    show (clause.who.map Who.letter ++ changesText clause.changes).dropWhile _ = _
    rw [dropWhile_append_of_pos hwho, (changesText_while _).2]
  have hrest : changesText clause.changes ≠ [] := by
    obtain ⟨_, _, hchanges⟩ := exists_cons_of_ne_nil hne
    rw [hchanges]
    exact nofun
  obtain ⟨modes', hread, htracks⟩ :=
    parseOperators_text clause.classes clause.changes _ le_rfl h
  refine ⟨modes', ?_, htracks⟩
  rw [parseClause, htake, hdrop]
  simp only [hrest, if_false, hletters, not_true_eq_false]
  rw [← classes_letters]
  exact hread

/-- The clauses of a mode are read one after the other. -/
theorem foldlM_parseClause (clauses : List Clause) (hne : ∀ clause ∈ clauses, clause.changes ≠ [])
    (h : Tracks modes file directory) :
    ∃ modes', (clauses.map Clause.text).foldlM parseClause modes = some modes' ∧
      Tracks modes' (literalRun false (clauses.flatMap Clause.program) file)
        (literalRun true (clauses.flatMap Clause.program) directory) := by
  induction clauses generalizing modes file directory with
  | nil => exact ⟨modes, rfl, h⟩
  | cons clause clauses ih =>
    obtain ⟨_, hread, htracks⟩ := parseClause_text clause (hne _ mem_cons_self) h
    obtain ⟨modes', hrest, _⟩ :=
      ih (fun c hc => hne c (.tail _ hc)) htracks
    refine ⟨modes', ?_, ?_⟩
    · rw [map_cons, foldlM_cons, hread]
      exact hrest
    · rwa [flatMap_cons, literalRun, literalRun, foldl_append, foldl_append]

/-! ## A mode -/

/-- A byte of a piece is a byte of the whole. -/
theorem mem_of_mem_splitOn {sep : UInt8} {piece : Arg} (bytes : Arg)
    (hpiece : piece ∈ splitOn sep bytes) (hb : b ∈ piece) : b ∈ bytes := by
  induction bytes generalizing piece with
  | nil =>
    rw [mem_singleton.mp hpiece] at hb
    exact hb
  | cons c bytes ih =>
    rw [splitOn] at hpiece
    split_ifs at hpiece with hsep
    · rcases mem_cons.mp hpiece with rfl | hlater
      · exact absurd hb not_mem_nil
      · exact .tail _ (ih hlater hb)
    · cases hsplit : splitOn sep bytes with
      | nil =>
        simp only [hsplit, mem_singleton] at hpiece
        rw [hpiece, mem_singleton] at hb
        exact hb ▸ mem_cons_self
      | cons _ _ =>
        simp only [hsplit, mem_cons] at hpiece
        rcases hpiece with rfl | hlater
        · rcases mem_cons.mp hb with rfl | hb
          · exact mem_cons_self
          · exact .tail _ (ih (hsplit ▸ mem_cons_self) hb)
        · exact .tail _ (ih (hsplit ▸ .tail _ hlater) hb)

theorem splitOn_ne_nil (sep : UInt8) (bytes : Arg) : splitOn sep bytes ≠ [] := by
  cases bytes with
  | nil => exact nofun
  | cons b bytes =>
    rw [splitOn]
    split_ifs
    · exact nofun
    · cases splitOn sep bytes with
      | nil => exact nofun
      | cons _ _ => exact nofun

/-- **Clauses are read letter by letter**, for a plain file and a directory. -/
theorem parse_mode_symbolic {clauses : List Clause} (h : Written.Spells bytes (.symbolic clauses)) :
    ∃ modes, parse_mode bytes = some modes ∧
      Tracks modes (literalRun false (clauses.flatMap Clause.program) 0)
        (literalRun true (clauses.flatMap Clause.program) 0) := by
  obtain ⟨hsplit, hne⟩ := h
  -- some operator is in the mode, so it is not octal
  obtain ⟨clause, clauses', rfl⟩ : ∃ clause clauses', clauses = clause :: clauses' := by
    refine exists_cons_of_ne_nil fun hnil => ?_
    rw [hnil, map_nil] at hsplit
    exact splitOn_ne_nil _ _ hsplit
  obtain ⟨change, _, hchanges⟩ := exists_cons_of_ne_nil (hne _ mem_cons_self)
  have hop : change.1.letter ∈ bytes := by
    have hpiece : clause.text ∈ splitOn 44 bytes := by
      rw [hsplit]
      exact mem_cons_self
    refine mem_of_mem_splitOn bytes hpiece ?_
    rw [Clause.text, hchanges]
    exact mem_append_right _ mem_cons_self
  have hbytes : bytes ≠ [] := ne_nil_of_mem hop
  have hoctal : ¬ bytes.all (fun b => 48 ≤ b && b ≤ 55) = true := by
    intro hall
    have hdigit := all_eq_true.mp hall _ hop
    revert hdigit
    cases change.1 <;> decide
  have hstart : Tracks (0, 0) 0 0 := ⟨rfl, rfl⟩
  obtain ⟨modes, hread, htracks⟩ := foldlM_parseClause _ hne hstart
  refine ⟨modes, ?_, htracks⟩
  rw [parse_mode, if_neg hbytes, if_neg hoctal, hsplit]
  exact hread

/-! ## What the command accepts -/

theorem exists_sign (h : (word "+-=").contains b = true) : ∃ sign : Sign, b = sign.letter := by
  have h : b ∈ [43, 45, 61] := contains_iff_mem.mp h
  simp only [mem_cons, not_mem_nil, or_false] at h
  rcases h with rfl | rfl | rfl
  exacts [⟨.plus, rfl⟩, ⟨.minus, rfl⟩, ⟨.equal, rfl⟩]

theorem exists_class (h : (word "ugo").contains b = true) : ∃ c : Chmod.Class, b = c.letter := by
  have h : b ∈ [117, 103, 111] := contains_iff_mem.mp h
  simp only [mem_cons, not_mem_nil, or_false] at h
  rcases h with rfl | rfl | rfl
  exacts [⟨.user, rfl⟩, ⟨.group, rfl⟩, ⟨.other, rfl⟩]

theorem exists_letter (h : (word "rwxXst").contains b = true) : ∃ l : Letter, b = l.letter := by
  have h : b ∈ [114, 119, 120, 88, 115, 116] := contains_iff_mem.mp h
  simp only [mem_cons, not_mem_nil, or_false] at h
  rcases h with rfl | rfl | rfl | rfl | rfl | rfl
  exacts [⟨.r, rfl⟩, ⟨.w, rfl⟩, ⟨.x, rfl⟩, ⟨.X, rfl⟩, ⟨.s, rfl⟩, ⟨.t, rfl⟩]

theorem exists_who (h : (word "ugoa").contains b = true) : ∃ w : Who, b = w.letter := by
  have h : b ∈ [117, 103, 111, 97] := contains_iff_mem.mp h
  simp only [mem_cons, not_mem_nil, or_false] at h
  rcases h with rfl | rfl | rfl | rfl
  exacts [⟨.only .user, rfl⟩, ⟨.only .group, rfl⟩, ⟨.only .other, rfl⟩, ⟨.all, rfl⟩]

/-- The bytes taken while they are letters are some letters. -/
theorem exists_takeWhile {α : Type} {letter : α → UInt8} {allowed : UInt8 → Bool}
    (h : ∀ b, allowed b = true → ∃ a, b = letter a) (bytes : Arg) :
    ∃ as : List α, bytes.takeWhile allowed = as.map letter := by
  have hrange : bytes.takeWhile allowed ∈ Set.range (List.map letter) := by
    rw [Set.range_list_map]
    intro b hb
    obtain ⟨a, ha⟩ := h b (all_eq_true.mp all_takeWhile b hb)
    exact ⟨a, ha.symm⟩
  obtain ⟨as, has⟩ := hrange
  exact ⟨as, has.symm⟩

/-- What the scanner of operators passes is some changes. -/
theorem clauseOps_text (fuel n m : ℕ) (clause : Arg) (h : clauseOps fuel clause n = (m, [])) :
    ∃ changes, clause = changesText changes ∧ m = n + changes.length := by
  induction fuel generalizing clause n with
  | zero =>
    cases h
    exact ⟨[], rfl, rfl⟩
  | succ fuel ih =>
    cases clause with
    | nil =>
      cases h
      exact ⟨[], rfl, rfl⟩
    | cons b rest =>
      simp only [clauseOps] at h
      split_ifs at h with hb
      · obtain ⟨sign, rfl⟩ := exists_sign hb
        cases rest with
        | nil =>
          simp only [Prod.mk.injEq, and_true] at h
          exact ⟨[(sign, .letters [])], rfl, h.symm⟩
        | cons c rest =>
          simp only at h
          split_ifs at h with hc
          · obtain ⟨source, rfl⟩ := exists_class hc
            obtain ⟨changes, rfl, hm⟩ := ih _ _ h
            exact ⟨(sign, .copy source) :: changes, rfl, by rw [hm, length_cons]; omega⟩
          · obtain ⟨changes, hrest, hm⟩ := ih _ _ h
            obtain ⟨ls, hls⟩ := exists_takeWhile (fun _ => exists_letter) (c :: rest)
            refine ⟨(sign, .letters ls) :: changes, ?_, by rw [hm, length_cons]; omega⟩
            show sign.letter :: (c :: rest)
              = sign.letter :: (ls.map Letter.letter ++ changesText changes)
            rw [← hrest, ← hls, takeWhile_append_dropWhile]
      · exact absurd (congrArg Prod.snd h) nofun

/-- A clause that the command has is written. -/
theorem exists_clause (h : 0 < (clauseOps ((bytes.dropWhile
      (word "ugoa").contains).length + 1) (bytes.dropWhile (word "ugoa").contains) 0).1 ∧
    (clauseOps ((bytes.dropWhile (word "ugoa").contains).length + 1)
      (bytes.dropWhile (word "ugoa").contains) 0).2 = []) :
    ∃ clause : Clause, bytes = clause.text ∧ clause.changes ≠ [] := by
  obtain ⟨who, hwho⟩ := exists_takeWhile (fun _ => exists_who) bytes
  obtain ⟨changes, hrest, hcount⟩ := clauseOps_text _ _ _ _ (Prod.ext rfl h.2)
  refine ⟨⟨who, changes⟩, ?_, ?_⟩
  · show bytes = who.map Who.letter ++ changesText changes
    rw [← hrest, ← hwho, takeWhile_append_dropWhile]
  · rintro rfl
    exact absurd hcount (ne_of_gt h.1)

/-- **What the command accepts is written** in octal digits or in clauses. -/
theorem exists_spells {value : Arg} (h : valid_mode value = true) :
    ∃ w : Written, w.Spells (modeOperand value) := by
  have hbody : valid_mode value = if modeOperand value ≠ [] ∧
        (modeOperand value).all (fun b => 48 ≤ b && b ≤ 55)
      then decide (octalValue (modeOperand value) ≤ 4095)
      else (splitOn 44 (modeOperand value)).all fun clause =>
        let clause := clause.dropWhile (word "ugoa").contains
        let ops := clauseOps (clause.length + 1) clause 0
        0 < ops.1 && ops.2.isEmpty := by
    cases value <;> rfl
  rw [hbody] at h
  split_ifs at h with hoctal
  · exact ⟨.octal (modeOperand value), rfl, hoctal.1, hoctal.2, of_decide_eq_true h⟩
  · have hpieces : splitOn 44 (modeOperand value) ∈ Set.range
        (List.map fun c : {c : Clause // c.changes ≠ []} => c.1.text) := by
      rw [Set.range_list_map]
      intro piece hpiece
      have hvalid := all_eq_true.mp h piece hpiece
      simp only [Bool.and_eq_true, decide_eq_true_eq, List.isEmpty_iff] at hvalid
      obtain ⟨clause, htext, hne⟩ := exists_clause hvalid
      exact ⟨⟨clause, hne⟩, htext.symm⟩
    obtain ⟨clauses, hclauses⟩ := hpieces
    refine ⟨.symbolic (clauses.map Subtype.val), ?_, ?_⟩
    · rw [← hclauses, map_map]
      rfl
    · intro clause hmem
      obtain ⟨c, -, rfl⟩ := mem_map.mp hmem
      exact c.2

/-! ## The claim -/

/-- **A mode means what `chmod` makes of it**, of a plain file and, with what
is kept besides, of a directory. -/
def Follows (bytes : Arg) (w : Written) : Prop :=
  ∃ mode conditional, parse_mode bytes = some (mode, conditional) ∧
    mode = w.mode false ∧ mode ||| conditional = w.mode true

/-- The changes of a mode. -/
def Chmod.Written.program : Written → List Change
  | .octal _ => []
  | .symbolic clauses => clauses.flatMap Clause.program

/-- A mode as it is written follows exactly where nothing is left. -/
theorem follows_iff {w : Written} (hw : w.Spells bytes) :
    Follows bytes w ↔ residue false w.program 0 = 0 ∧ residue true w.program 0 = 0 := by
  cases w with
  | octal digits =>
    obtain ⟨heq, hne, hall, hle⟩ := hw
    refine iff_of_true ⟨BitVec.ofNat 32 (octalValue digits), 0, ?_, rfl, ?_⟩ ⟨rfl, rfl⟩
    · rw [heq, parse_mode, if_neg hne, if_pos hall, if_pos hle]
    · exact or_zero
  | symbolic clauses =>
    obtain ⟨⟨mode, conditional⟩, hread, hfile, hdirectory⟩ := parse_mode_symbolic hw
    have hmodes : Follows bytes (.symbolic clauses) ↔
        literalRun false (clauses.flatMap Clause.program) 0
            = run false (clauses.flatMap Clause.program) 0 ∧
          literalRun true (clauses.flatMap Clause.program) 0
            = run true (clauses.flatMap Clause.program) 0 := by
      rw [← hfile, ← hdirectory]
      constructor
      · rintro ⟨_, _, hread', hfollows⟩
        rw [hread] at hread'
        cases hread'
        exact hfollows
      · exact fun hfollows => ⟨mode, conditional, hread, hfollows⟩
    rw [hmodes, literalRun_eq_run_iff, literalRun_eq_run_iff]
    rfl

/-- **Where a mode follows `chmod`**: exactly where nothing that its changes
get wrong is left in the end, neither at a plain file nor at a directory. -/
theorem perm_iff (value : Arg) (h : valid_mode value = true) :
    (∃ w : Written, w.Spells (modeOperand value)) ∧
      ∀ w : Written, w.Spells (modeOperand value) →
        (Follows (modeOperand value) w ↔
          residue false w.program 0 = 0 ∧ residue true w.program 0 = 0) :=
  ⟨exists_spells h, fun _ hw => follows_iff hw⟩

/-- A copy that a later clause settles. -/
theorem perm_iff_settled :
    valid_mode (word "-u=rw,g=u,g=r") = true ∧
      (∃ w : Written, w.Spells (modeOperand (word "-u=rw,g=u,g=r"))) ∧
        ∀ w : Written, w.Spells (modeOperand (word "-u=rw,g=u,g=r")) →
          (Follows (modeOperand (word "-u=rw,g=u,g=r")) w ↔
            residue false w.program 0 = 0 ∧ residue true w.program 0 = 0) :=
  ⟨by decide, perm_iff (word "-u=rw,g=u,g=r") (by decide)⟩

/-- The group is given the permissions of the user, and the test asks for none. -/
theorem perm_copies_nothing :
    ¬ ∀ value : Arg, valid_mode value = true → ∀ w : Written,
      w.Spells (modeOperand value) → Follows (modeOperand value) w := by
  intro h
  obtain ⟨_, _, hread, hfile, -⟩ := h (word "u=rw,g=u") (by decide)
    (.symbolic [⟨[.only .user], [(.equal, .letters [.r, .w])]⟩,
      ⟨[.only .group], [(.equal, .copy .user)]⟩]) ⟨by decide, by decide⟩
  have hbits : parse_mode (modeOperand (word "u=rw,g=u")) = some (0o600, 0) := by decide
  rw [hbits] at hread
  cases hread
  exact absurd hfile (by decide)

end Ferret.Find
