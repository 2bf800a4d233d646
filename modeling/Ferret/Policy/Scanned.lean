import Ferret.Policy.Braces

/-!
# What the brace scanners pass over

A glob of the command line, as a tree: bytes that stand for themselves, escapes
and character classes, which the scanners pass over as a whole, and groups of
alternatives. A tree stands for one text for each way to choose among its
alternatives, and these are what expansion yields, in order; within its limits
it refuses none.
-/

namespace Ferret.Policy

open Guarded List Function

/-! ## Fuel -/

theorem length_class_rest {text after : Bytes} (h : class_rest text = some after) :
    after.length < text.length := by
  induction text using class_rest.induct with
  | case1 => cases h
  | case2 => cases h; simp
  | case3 b hb => rw [class_rest, if_neg hb] at h; cases h
  | case4 c rest ih =>
    rw [class_rest, if_pos rfl] at h
    have := ih h
    simp only [length_cons]
    omega
  | case5 c rest hb =>
    rw [class_rest, if_neg hb, if_pos rfl] at h
    cases h
    simp
  | case6 b c rest hb hb' ih =>
    rw [class_rest, if_neg hb, if_neg hb'] at h
    exact (ih h).trans (Nat.lt_succ_self _)

theorem length_class_end {text after : Bytes} (h : class_end text = .ok after) :
    after.length < text.length := by
  unfold class_end at h
  dsimp only at h
  have htail : ∀ {c : Prop} [Decidable c] (bytes : Bytes),
      (if c then bytes.tail else bytes).length ≤ bytes.length := by
    intro c _ bytes
    split <;> simp
  split at h
  · rename_i rest hrest
    cases h
    exact (length_class_rest hrest).trans_le ((htail _).trans (htail _))
  · cases h

/-- With enough fuel, `validate` does not ask how much. -/
theorem validate_fuel {fuel fuel' : ℕ} {text : Bytes} (h : text.length ≤ fuel)
    (h' : text.length ≤ fuel') : validate fuel text = validate fuel' text := by
  induction fuel generalizing fuel' text with
  | zero =>
    rw [length_eq_zero_iff.mp (Nat.le_zero.mp h)]
    cases fuel' <;> rfl
  | succ fuel ih =>
    cases text with
    | nil => cases fuel' <;> rfl
    | cons b rest =>
      obtain ⟨fuel', rfl⟩ := Nat.exists_eq_add_one_of_ne_zero
        (fun h0 => by simp [h0] at h' : fuel' ≠ 0)
      simp only [length_cons, Nat.add_le_add_iff_right] at h h'
      cases rest with
      | nil =>
        rw [validate, validate]
        cases fuel <;> cases fuel' <;> rfl
      | cons c rest =>
        rw [validate, validate]
        split
        · exact ih ((Nat.le_succ _).trans h) ((Nat.le_succ _).trans h')
        · split
          · cases hend : class_end (c :: rest) with
            | error e => rfl
            | ok _ =>
              have hlt := length_class_end hend
              exact ih (hlt.le.trans h) (hlt.le.trans h')
          · exact ih h h'

/-- With enough fuel, `first_group` does not either. -/
theorem first_group_fuel {fuel fuel' depth : ℕ} {before current text : Bytes}
    {alternatives : List Bytes} (h : text.length ≤ fuel) (h' : text.length ≤ fuel') :
    first_group fuel depth before alternatives current text
      = first_group fuel' depth before alternatives current text := by
  induction fuel generalizing fuel' depth before current text alternatives with
  | zero =>
    rw [length_eq_zero_iff.mp (Nat.le_zero.mp h)]
    cases fuel' <;> rfl
  | succ fuel ih =>
    cases text with
    | nil => cases fuel' <;> rfl
    | cons b rest =>
      obtain ⟨fuel', rfl⟩ := Nat.exists_eq_add_one_of_ne_zero
        (fun h0 => by simp [h0] at h' : fuel' ≠ 0)
      simp only [length_cons, Nat.add_le_add_iff_right] at h h'
      have hdrop : (rest.drop 1).length ≤ rest.length := by simp
      rw [first_group, first_group]
      simp only [ih h h', ih (hdrop.trans h) (hdrop.trans h')]
      congr 1
      cases hend : class_end rest with
      | error e => rfl
      | ok _ =>
        have hlt := length_class_end hend
        have hle := hlt.le.trans h
        have hle' := hlt.le.trans h'
        show (if _ then _ else _) = if _ then _ else _
        rw [ih hle hle', ih hle hle']

/-! ## Globs as trees -/

/-- The members of a character class, up to the bracket that closes it. -/
inductive Members : Bytes → Prop
  | close : Members [byte ']']
  | plain {b : UInt8} {rest : Bytes} (hclose : b ≠ byte ']') (hescape : b ≠ byte '\\')
      (hrest : Members rest) : Members (b :: rest)
  | escape {b : UInt8} {rest : Bytes} (hrest : Members rest) : Members (byte '\\' :: b :: rest)

/-- **What a scanner passes over as a whole**: a byte that stands for itself, an escape, and
a character class, in which a bracket that comes first does not close it. -/
inductive IsToken : Bytes → Prop
  | plain {b : UInt8} (h : b ∉ ascii "\\[\x7b\x7d,") : IsToken [b]
  | escape (b : UInt8) : IsToken [byte '\\', b]
  | negated {b : UInt8} (hb : b = byte '!' ∨ b = byte '^') {bracket members : Bytes}
      (hbracket : bracket = [byte ']'] ∨ bracket = [] ∧ members.head? ≠ some (byte ']'))
      (hmembers : Members members) : IsToken (byte '[' :: b :: (bracket ++ members))
  | members {bracket members : Bytes}
      (hbracket : bracket = [byte ']'] ∨ bracket = [] ∧ members.head? ≠ some (byte ']')
        ∧ members.head? ≠ some (byte '!') ∧ members.head? ≠ some (byte '^'))
      (hmembers : Members members) : IsToken (byte '[' :: (bracket ++ members))

/-- **A glob with balanced braces.** A group has one alternative at least; in an alternative
a comma ends it, and outside every group it stands for itself. -/
inductive Braced : Bool → Type
  | done {outside : Bool} : Braced outside
  | token {outside : Bool} (t : { bytes : Bytes // IsToken bytes }) (rest : Braced outside) :
      Braced outside
  | comma (rest : Braced true) : Braced true
  | group {outside : Bool} (first : Braced false) (others : List (Braced false))
      (rest : Braced outside) : Braced outside

variable (others : List (Braced false))

namespace Braced

/-- Induction on a glob, with its alternatives. -/
theorem tree_induction {P : ∀ outside, Braced outside → Prop} (done : ∀ outside, P outside done)
    (token : ∀ outside t rest, P outside rest → P outside (token t rest))
    (comma : ∀ rest, P true rest → P true (comma rest))
    (group : ∀ outside first others rest, P false first → (∀ a ∈ others, P false a) →
      P outside rest → P outside (group first others rest))
    {outside : Bool} (g : Braced outside) : P outside g :=
  @Braced.rec P (fun others => ∀ a ∈ others, P false a) (done _) (token _) comma (group _)
    (nofun)
    (fun _ _ ha hothers => forall_mem_cons.mpr ⟨ha, hothers⟩) outside g

mutual

/-- The glob as it is written. -/
def render {outside : Bool} : Braced outside → Bytes
  | done => []
  | token t rest => t.val ++ render rest
  | comma rest => byte ',' :: render rest
  | group first others rest =>
    byte '\x7b' :: (render first ++ (render_others others ++ byte '\x7d' :: render rest))

def render_others : List (Braced false) → Bytes
  | [] => []
  | a :: others => byte ',' :: (render a ++ render_others others)

end

mutual

/-- **The texts it stands for**, one for each way to choose an alternative of every group. -/
def choices {outside : Bool} : Braced outside → List Bytes
  | done => [[]]
  | token t rest => (choices rest).map (t.val ++ ·)
  | comma rest => (choices rest).map (byte ',' :: ·)
  | group first others rest =>
    (choices first ++ choices_others others).flatMap fun chosen =>
      (choices rest).map (chosen ++ ·)

def choices_others : List (Braced false) → List Bytes
  | [] => []
  | a :: others => choices a ++ choices_others others

end

mutual

/-- How many groups lie in one another. -/
def nesting {outside : Bool} : Braced outside → ℕ
  | done => 0
  | token _ rest => nesting rest
  | comma rest => nesting rest
  | group first others rest => max (max (nesting first) (nesting_others others) + 1) (nesting rest)

def nesting_others : List (Braced false) → ℕ
  | [] => 0
  | a :: others => max (nesting a) (nesting_others others)

end

theorem choices_others_eq :
    choices_others others = others.flatMap choices := by
  induction others with
  | nil => rfl
  | cons a others ih => rw [choices_others, ih, flatMap_cons]

theorem nesting_le_others {others : List (Braced false)} {a : Braced false} (h : a ∈ others) :
    a.nesting ≤ nesting_others others := by
  induction others with
  | nil => cases h
  | cons _ others ih =>
    rw [nesting_others]
    rcases mem_cons.mp h with rfl | h
    · exact le_max_left _ _
    · exact (ih h).trans (le_max_right _ _)

theorem length_le_others {others : List (Braced false)} {a : Braced false} (h : a ∈ others) :
    a.render.length ≤ (render_others others).length := by
  induction others with
  | nil => cases h
  | cons _ others ih =>
    rw [render_others, length_cons, length_append]
    rcases mem_cons.mp h with rfl | h
    · exact (le_self_add).trans (Nat.le_succ _)
    · exact ((ih h).trans (Nat.le_add_left _ _)).trans (Nat.le_succ _)

end Braced

/-! ## Classes -/

theorem class_rest_members {members : Bytes} (h : Members members) (rest : Bytes) :
    class_rest (members ++ rest) = some rest := by
  induction h with
  | close =>
    cases rest with
    | nil => rfl
    | cons c rest => rfl
  | @plain b members hclose hescape hmembers ih =>
    cases hmembers' : members ++ rest with
    | nil =>
      rw [hmembers'] at ih
      cases ih
    | cons c _ =>
      rw [cons_append, hmembers', class_rest, if_neg hescape, if_neg hclose, ← hmembers', ih]
  | @escape b members hmembers ih => rw [cons_append, cons_append, class_rest, if_pos rfl, ih]

/-- A class is passed over by its end, whatever follows. -/
theorem class_end_members {bracket members : Bytes} (h : Members members)
    (hbracket : bracket = [byte ']'] ∨ bracket = [] ∧ members.head? ≠ some (byte ']'))
    (rest : Bytes) :
    class_rest (if (bracket ++ members ++ rest).head? = some (byte ']')
      then (bracket ++ members ++ rest).tail else bracket ++ members ++ rest) = some rest := by
  rcases hbracket with rfl | ⟨rfl, hhead⟩
  · show class_rest (if some (byte ']') = some (byte ']') then members ++ rest else _) = some rest
    rw [if_pos rfl]
    exact class_rest_members h rest
  · have hne : members ≠ [] := fun hnil => by
      rw [hnil] at h
      cases h
    rw [nil_append, head?_append_of_ne_nil _ hne, if_neg hhead]
    exact class_rest_members h rest

theorem class_end_negated {b : UInt8} (hb : b = byte '!' ∨ b = byte '^') {bracket members : Bytes}
    (hbracket : bracket = [byte ']'] ∨ bracket = [] ∧ members.head? ≠ some (byte ']'))
    (h : Members members) (rest : Bytes) :
    class_end (b :: (bracket ++ members) ++ rest) = .ok rest := by
  unfold class_end
  dsimp only
  rw [cons_append, head?_cons, Option.any_some, if_pos (decide_eq_true hb), tail_cons,
    class_end_members h hbracket]

theorem class_end_plain {bracket members : Bytes}
    (hbracket : bracket = [byte ']'] ∨ bracket = [] ∧ members.head? ≠ some (byte ']')
      ∧ members.head? ≠ some (byte '!') ∧ members.head? ≠ some (byte '^'))
    (h : Members members) (rest : Bytes) : class_end (bracket ++ members ++ rest) = .ok rest := by
  have hmark : ¬ ((bracket ++ members ++ rest).head?.any
      fun b => b = byte '!' ∨ b = byte '^') = true := by
    rcases hbracket with rfl | ⟨rfl, -, hbang, hcaret⟩
    · show ¬ (some (byte ']')).any (fun b => b = byte '!' ∨ b = byte '^') = true
      decide
    · cases members with
      | nil => cases h
      | cons b members =>
        simp only [head?_cons, ne_eq, Option.some.injEq] at hbang hcaret
        simp [hbang, hcaret]
  unfold class_end
  dsimp only
  rw [if_neg hmark, class_end_members h (hbracket.imp_right fun h => ⟨h.1, h.2.1⟩)]

/-! ## What the scanners do -/

namespace Braced

/-- `first_group` with the fuel of its text. -/
def scan (depth : ℕ) (before : Bytes) (alternatives : List Bytes) (current text : Bytes) :
    Guarded GrepGlobError (Option Group) :=
  first_group text.length depth before alternatives current text

/-- What is passed over belongs to the text before, or to an alternative. -/
def passed (depth : ℕ) (before : Bytes) (alternatives : List Bytes) (current bytes text : Bytes) :
    Guarded GrepGlobError (Option Group) :=
  if depth = 0 then scan depth (before ++ bytes) alternatives current text
  else scan depth before alternatives (current ++ bytes) text

variable {depth : ℕ} {before current rest : Bytes} {alternatives : List Bytes}

theorem scan_eq {fuel : ℕ} {text : Bytes} (h : text.length ≤ fuel) :
    first_group fuel depth before alternatives current text
      = scan depth before alternatives current text :=
  first_group_fuel h le_rfl

/-- The loop of `braces`, without its fuel. -/
theorem scan_cons (b : UInt8) :
    scan depth before alternatives current (b :: rest) =
      if b = byte '[' then do
        let after ← class_end rest
        passed depth before alternatives current (b :: rest.take (rest.length - after.length)) after
      else if b = byte '\\' then
        passed depth before alternatives current (b :: rest.take 1) (rest.drop 1)
      else if b = byte '\x7b' then
        if 64 ≤ depth then .error (.error .nesting)
        else if depth = 0 then scan 1 before alternatives current rest
        else scan (depth + 1) before alternatives (current ++ [b]) rest
      else if b = byte ',' ∧ depth = 1 then
        scan depth before (alternatives ++ [current]) [] rest
      else if b = byte '\x7d' then
        if depth = 0 then .error (.error .unopenedAlternation)
        else if depth = 1 then .ok (some ⟨before, alternatives ++ [current], rest⟩)
        else scan (depth - 1) before alternatives (current ++ [b]) rest
      else passed depth before alternatives current [b] rest := by
  have hdrop : (rest.drop 1).length ≤ rest.length := by simp
  unfold scan passed
  rw [length_cons, first_group]
  simp only [scan_eq le_rfl, scan_eq hdrop]
  congr 1
  cases hend : class_end rest with
  | error e => rfl
  | ok after =>
    show (if _ then _ else _) = if _ then _ else _
    rw [scan_eq (length_class_end hend).le, scan_eq (length_class_end hend).le]

/-- A token is passed over. -/
theorem scan_token {t : Bytes} (h : IsToken t) :
    scan depth before alternatives current (t ++ rest)
      = passed depth before alternatives current t rest := by
  have hclass : ∀ {members : Bytes}, class_end (members ++ rest) = .ok rest →
      scan depth before alternatives current (byte '[' :: members ++ rest)
        = passed depth before alternatives current (byte '[' :: members) rest := by
    intro members hend
    rw [cons_append, scan_cons, if_pos rfl, hend]
    show passed _ _ _ _ _ _ = _
    rw [length_append, Nat.add_sub_cancel, take_left]
  cases h with
  | @plain b h =>
    have hne : ∀ c ∈ ascii "\\[\x7b\x7d,", b ≠ c := fun c hc hbc => h (hbc ▸ hc)
    rw [singleton_append, scan_cons, if_neg (hne _ (by decide)), if_neg (hne _ (by decide)),
      if_neg (hne _ (by decide)), if_neg fun hcomma => hne _ (by decide) hcomma.1,
      if_neg (hne _ (by decide))]
  | escape b =>
    rw [cons_append, scan_cons, if_neg (by decide), if_pos rfl]
    rfl
  | negated hb hbracket hmembers => exact hclass (class_end_negated hb hbracket hmembers rest)
  | members hbracket hmembers => exact hclass (class_end_plain hbracket hmembers rest)

theorem scan_open (h : 0 < depth) (hlimit : depth < 64) :
    scan depth before alternatives current (byte '\x7b' :: rest)
      = scan (depth + 1) before alternatives (current ++ [byte '\x7b']) rest := by
  rw [scan_cons, if_neg (by decide), if_neg (by decide), if_pos rfl, if_neg hlimit.not_ge,
    if_neg h.ne']

theorem scan_close (h : 1 < depth) :
    scan depth before alternatives current (byte '\x7d' :: rest)
      = scan (depth - 1) before alternatives (current ++ [byte '\x7d']) rest := by
  rw [scan_cons, if_neg (by decide), if_neg (by decide), if_neg (by decide),
    if_neg fun hcomma => absurd hcomma.1 (by decide), if_pos rfl, if_neg (by omega),
    if_neg h.ne']

/-- A comma that ends no alternative of the first group is passed over. -/
theorem scan_comma (h : depth ≠ 1) :
    scan depth before alternatives current (byte ',' :: rest)
      = passed depth before alternatives current [byte ','] rest := by
  rw [scan_cons, if_neg (by decide), if_neg (by decide), if_neg (by decide),
    if_neg fun hcomma => h hcomma.2, if_neg (by decide)]

/-- Alternatives that are passed over, with the commas before them. -/
theorem scan_passed_others {others : List (Braced false)} (hdepth : 1 < depth)
    (h : ∀ a ∈ others, ∀ (current rest : Bytes),
      scan depth before alternatives current (a.render ++ rest)
        = scan depth before alternatives (current ++ a.render) rest) (current rest : Bytes) :
    scan depth before alternatives current (render_others others ++ rest)
      = scan depth before alternatives (current ++ render_others others) rest := by
  induction others generalizing current with
  | nil => rw [render_others, nil_append, append_nil]
  | cons a others ih =>
    rw [render_others, cons_append, scan_comma hdepth.ne', passed,
      if_neg (Nat.zero_lt_of_lt hdepth).ne', append_assoc, h a (.head _),
      ih fun a' ha' => h a' (.tail _ ha')]
    simp only [append_assoc, cons_append, nil_append]

/-- **In a group, a glob is passed over**; one with commas only inside a further group. -/
theorem scan_render {outside : Bool} (g : Braced outside) {depth : ℕ} {current rest : Bytes}
    (hlimit : depth + g.nesting ≤ 64) (hdepth : 0 < depth) (hcomma : outside = true → 1 < depth) :
    scan depth before alternatives current (g.render ++ rest)
      = scan depth before alternatives (current ++ g.render) rest := by
  induction g using tree_induction generalizing depth current rest with
  | done outside => rw [render, nil_append, append_nil]
  | token outside t after ih =>
    rw [render, append_assoc, scan_token t.property, passed, if_neg hdepth.ne',
      ih hlimit hdepth hcomma, append_assoc]
  | comma after ih =>
    rw [render, cons_append, scan_comma (hcomma rfl).ne', passed, if_neg hdepth.ne',
      ih hlimit hdepth hcomma, append_assoc]
    rfl
  | group outside _ others after hfirst hothers hafter =>
    rw [nesting] at hlimit
    have hdeep : 1 < depth + 1 := Nat.succ_lt_succ hdepth
    have hin : ∀ a ∈ others, ∀ (current rest : Bytes),
        scan (depth + 1) before alternatives current (a.render ++ rest)
          = scan (depth + 1) before alternatives (current ++ a.render) rest := by
      intro a ha current rest
      have := nesting_le_others ha
      exact hothers a ha (by omega) (Nat.zero_lt_of_lt hdeep) nofun
    rw [render, cons_append, scan_open hdepth (by omega), append_assoc,
      hfirst (by omega) (Nat.zero_lt_of_lt hdeep) nofun,
      append_assoc (render_others others), scan_passed_others hdeep hin, cons_append, scan_close hdeep, Nat.add_sub_cancel,
      hafter (by omega) hdepth hcomma]
    simp only [append_assoc, cons_append, nil_append]

/-- The alternatives of the first group, and what comes after it. -/
theorem scan_others (hlimit : nesting_others others < 64) (alternatives : List Bytes)
    (current : Bytes) :
    scan 1 before alternatives current (render_others others ++ byte '\x7d' :: rest)
      = .ok (some ⟨before, alternatives ++ current :: others.map render, rest⟩) := by
  induction others generalizing alternatives current with
  | nil =>
    rw [render_others, nil_append, scan_cons, if_neg (by decide), if_neg (by decide),
      if_neg (by decide), if_neg fun hcomma => absurd hcomma.1 (by decide), if_pos rfl,
      if_neg one_ne_zero, if_pos rfl]
    rfl
  | cons a others ih =>
    rw [nesting_others] at hlimit
    rw [render_others, cons_append, scan_cons, if_neg (by decide), if_neg (by decide),
      if_neg (by decide), if_pos ⟨rfl, rfl⟩, append_assoc,
      scan_render a (by omega) one_pos nofun, nil_append,
      ih (by omega), append_assoc]
    rfl

/-! ## Choosing from the first group -/

/-- The same glob, outside every group. -/
def lifted {outside : Bool} : Braced outside → Braced true
  | done => done
  | token t rest => token t rest.lifted
  | comma rest => comma rest.lifted
  | group first others rest => group first others rest.lifted

/-- One glob after another. -/
def append {outside : Bool} : Braced outside → Braced true → Braced true
  | done, after => after
  | token t rest, after => token t (rest.append after)
  | comma rest, after => comma (rest.append after)
  | group first others rest, after => group first others (rest.append after)

/-- The globs with one alternative of the first group in its place. -/
def branches {outside : Bool} : Braced outside → Option (List (Braced true))
  | done => none
  | token t rest => rest.branches.map fun gs => gs.map (token t)
  | comma rest => rest.branches.map fun gs => gs.map comma
  | group first others rest => some ((first :: others).map fun a => a.append rest.lifted)

section

variable {outside : Bool} (g : Braced outside) (after : Braced true)

@[simp]
theorem render_lifted : g.lifted.render = g.render := by
  induction g using tree_induction with
  | done outside => rfl
  | token outside t rest ih | comma rest ih | group outside first others rest _ _ ih =>
    rw [lifted, render, render, ih]

@[simp]
theorem choices_lifted : g.lifted.choices = g.choices := by
  induction g using tree_induction with
  | done outside => rfl
  | token outside t rest ih | comma rest ih | group outside first others rest _ _ ih =>
    rw [lifted, choices, choices, ih]

@[simp]
theorem nesting_lifted : g.lifted.nesting = g.nesting := by
  induction g using tree_induction with
  | done outside => rfl
  | token outside t rest ih => exact ih
  | comma rest ih => exact ih
  | group outside _ _ rest _ _ ih => rw [lifted, nesting, nesting, ih]

@[simp]
theorem render_append : (g.append after).render = g.render ++ after.render := by
  induction g using tree_induction with
  | done outside => rfl
  | token outside t rest ih => rw [append, render, render, ih, append_assoc]
  | comma rest ih => rw [append, render, render, ih, cons_append]
  | group outside _ _ rest _ _ ih =>
    rw [append, render, render, ih]
    simp only [append_assoc, cons_append]

@[simp]
theorem choices_append :
    (g.append after).choices
      = g.choices.flatMap fun chosen => after.choices.map (chosen ++ ·) := by
  induction g using tree_induction with
  | done outside => simp [append, choices]
  | token outside t rest ih =>
    rw [append, choices, choices, ih, map_flatMap, flatMap_map]
    simp only [map_map, comp_def, append_assoc]
  | comma rest ih =>
    rw [append, choices, choices, ih, map_flatMap, flatMap_map]
    simp only [map_map, comp_def, cons_append]
  | group outside _ _ rest _ _ ih =>
    rw [append, choices, choices, ih, flatMap_assoc]
    simp only [map_flatMap, flatMap_map, map_map, comp_def, append_assoc]

@[simp]
theorem nesting_append : (g.append after).nesting = max g.nesting after.nesting := by
  induction g using tree_induction with
  | done outside => rw [append, nesting, Nat.zero_max]
  | token outside t rest ih => exact ih
  | comma rest ih => exact ih
  | group outside _ _ rest _ _ ih => rw [append, nesting, nesting, ih, max_assoc]

end

section

variable {outside : Bool} {g : Braced outside}

/-- Without a group there is nothing to choose. -/
theorem choices_of_branches_none (h : g.branches = none) : g.choices = [g.render] := by
  induction g using tree_induction with
  | done outside => rfl
  | token outside t rest ih | comma rest ih =>
    rw [choices, ih (by simpa [branches] using h)]
    rfl
  | group outside _ _ rest => cases h

/-- One group is chosen from after the other. -/
theorem choices_of_branches {gs : List (Braced true)} (h : g.branches = some gs) :
    g.choices = gs.flatMap choices := by
  induction g using tree_induction generalizing gs with
  | done outside => cases h
  | token outside t rest ih | comma rest ih =>
    obtain ⟨gs, hgs, rfl⟩ := Option.map_eq_some_iff.mp h
    rw [choices, ih hgs, map_flatMap, flatMap_map]
    rfl
  | group outside _ _ rest =>
    cases h
    rw [choices, flatMap_map, choices_others_eq, ← flatMap_cons, flatMap_assoc]
    simp only [choices_append, choices_lifted]

/-- A choice nests no deeper, and is shorter. -/
theorem branches_smaller {gs : List (Braced true)} (h : g.branches = some gs) {g' : Braced true}
    (hg' : g' ∈ gs) : g'.nesting ≤ g.nesting ∧ g'.render.length < g.render.length := by
  induction g using tree_induction generalizing gs g' with
  | done outside => cases h
  | token outside t rest ih =>
    obtain ⟨gs, hgs, rfl⟩ := Option.map_eq_some_iff.mp h
    obtain ⟨g', hmem, rfl⟩ := mem_map.mp hg'
    obtain ⟨hnesting, hlength⟩ := ih hgs hmem
    rw [render, render, length_append, length_append]
    exact ⟨hnesting, Nat.add_lt_add_left hlength _⟩
  | comma rest ih =>
    obtain ⟨gs, hgs, rfl⟩ := Option.map_eq_some_iff.mp h
    obtain ⟨g', hmem, rfl⟩ := mem_map.mp hg'
    obtain ⟨hnesting, hlength⟩ := ih hgs hmem
    exact ⟨hnesting, Nat.succ_lt_succ hlength⟩
  | group outside _ _ rest =>
    cases h
    obtain ⟨a, ha, rfl⟩ := mem_map.mp hg'
    rw [nesting_append, nesting_lifted, render_append, render_lifted, nesting, render]
    simp only [length_append, length_cons]
    rcases mem_cons.mp ha with rfl | ha
    · omega
    · have := nesting_le_others ha
      have := length_le_others ha
      omega

end

/-! ## Expansion -/

section

variable {outside : Bool} {g : Braced outside}

theorem scan_of_branches_none (h : g.branches = none) (before : Bytes) :
    scan 0 before [] [] g.render = .ok none := by
  induction g using tree_induction generalizing before with
  | done outside => rfl
  | token outside t rest ih =>
    rw [render, scan_token t.property, passed, if_pos rfl, ih (by simpa [branches] using h)]
  | comma rest ih =>
    rw [render, scan_comma zero_ne_one, passed, if_pos rfl, ih (by simpa [branches] using h)]
  | group outside _ _ rest => cases h

/-- **The scanner finds the first group**: its alternatives, each in the group's place, are
the choices there. -/
theorem scan_of_branches {gs : List (Braced true)} (h : g.branches = some gs)
    (hlimit : g.nesting ≤ 64) (before : Bytes) :
    ∃ group, scan 0 before [] [] g.render = .ok (some group) ∧
      group.alternatives.map (fun a => group.before ++ a ++ group.after)
        = gs.map fun g' => before ++ g'.render := by
  induction g using tree_induction generalizing before gs with
  | done outside => cases h
  | token outside t rest ih =>
    obtain ⟨gs, hgs, rfl⟩ := Option.map_eq_some_iff.mp h
    obtain ⟨group, hscan, hgroup⟩ := ih hgs hlimit (before ++ t.val)
    refine ⟨group, ?_, ?_⟩
    · rw [render, scan_token t.property, passed, if_pos rfl, hscan]
    · rw [hgroup, map_map]
      simp only [comp_def, render, append_assoc]
  | comma rest ih =>
    obtain ⟨gs, hgs, rfl⟩ := Option.map_eq_some_iff.mp h
    obtain ⟨group, hscan, hgroup⟩ := ih hgs hlimit (before ++ [byte ','])
    refine ⟨group, ?_, ?_⟩
    · rw [render, scan_comma zero_ne_one, passed, if_pos rfl, hscan]
    · rw [hgroup, map_map]
      simp only [comp_def, render, append_assoc, singleton_append]
  | group outside first others rest =>
    cases h
    rw [nesting] at hlimit
    refine ⟨⟨before, first.render :: others.map render, rest.render⟩, ?_, ?_⟩
    · rw [render, scan_cons, if_neg (by decide), if_neg (by decide), if_pos rfl, if_neg (by decide),
        if_pos rfl, scan_render first (by omega) one_pos nofun, nil_append,
        scan_others others (by omega), nil_append]
    · simp only [map_cons, map_map, comp_def, render_append, render_lifted, append_assoc]

theorem choices_ne_nil (g : Braced outside) : g.choices ≠ [] := by
  induction g using tree_induction with
  | done outside => exact nofun
  | token outside t rest ih | comma rest ih => rwa [choices, ne_eq, map_eq_nil_iff]
  | group outside _ _ rest hfirst _ hrest =>
    obtain ⟨chosen, hchosen⟩ := exists_mem_of_ne_nil _ hfirst
    obtain ⟨text, htext⟩ := exists_mem_of_ne_nil _ hrest
    refine ne_nil_of_mem (a := chosen ++ text) ?_
    rw [choices]
    exact mem_flatMap.mpr
      ⟨chosen, mem_append_left _ hchosen, mem_map_of_mem htext⟩

end

/-- Several globs, one after the other, when each yields its choices. -/
theorem foldlM_choices {yields : List Bytes → Bytes → Guarded GrepGlobError (List Bytes)}
    {gs : List (Braced true)} {out : List Bytes}
    (h : ∀ g ∈ gs, ∀ out : List Bytes, out.length + g.choices.length ≤ 1024 →
      yields out g.render = .ok (out ++ g.choices))
    (hcount : out.length + (gs.flatMap choices).length ≤ 1024) :
    (gs.map render).foldlM yields out = .ok (out ++ gs.flatMap choices) := by
  induction gs generalizing out with
  | nil => simp
  | cons g gs ih =>
    rw [flatMap_cons, length_append] at hcount
    rw [map_cons, foldlM_cons, h g (mem_cons_self ..) out (by omega), flatMap_cons, ← append_assoc]
    exact ih (fun g' hg' => h g' (.tail _ hg')) (by rw [length_append]; omega)

/-- **Expansion yields the choices, in order**, and within its limits refuses none. -/
theorem braces_render {fuel : ℕ} (g : Braced true) {out : List Bytes}
    (hfuel : g.render.length < fuel) (hlimit : g.nesting ≤ 64)
    (hcount : out.length + g.choices.length ≤ 1024) :
    braces fuel g.render out = .ok (out ++ g.choices) := by
  induction fuel generalizing g out with
  | zero => exact absurd hfuel (not_lt_zero)
  | succ fuel ih =>
    have hroom : out.length < 1024 := by
      have := length_pos_iff.mpr g.choices_ne_nil
      omega
    rw [braces, ensure, if_pos hroom]
    show (scan 0 [] [] [] g.render >>= _) = _
    cases hbranches : g.branches with
    | none =>
      rw [scan_of_branches_none hbranches, choices_of_branches_none hbranches]
      rfl
    | some gs =>
      obtain ⟨_, hscan, hgroup⟩ := scan_of_branches hbranches hlimit []
      rw [choices_of_branches hbranches] at hcount ⊢
      have hfold : (gs.map render).foldlM (fun out text => braces fuel text out) out
          = .ok (out ++ gs.flatMap choices) := by
        refine foldlM_choices (fun g' hg' out hout => ?_) hcount
        obtain ⟨hnesting, hlength⟩ := branches_smaller hbranches hg'
        exact ih g' (hlength.trans_le (Nat.lt_succ_iff.mp hfuel)) (hnesting.trans hlimit) hout
      simp only [nil_append] at hgroup
      rw [← hgroup, foldlM_map] at hfold
      rw [hscan]
      exact hfold

theorem expand_render {g : Braced true} (hlimit : g.nesting ≤ 64)
    (hcount : g.choices.length ≤ 1024) : expand g.render = .ok g.choices :=
  (braces_render g (Nat.lt_succ_self _) hlimit (by simpa using hcount)).trans (by simp)

/-! ## Validation -/

theorem validate_plain {b : UInt8} (hescape : b ≠ byte '\\') (hclass : b ≠ byte '[')
    (rest : Bytes) : validate (b :: rest).length (b :: rest) = validate rest.length rest := by
  cases rest with
  | nil =>
    show validate 1 [b] = validate 0 []
    rw [validate.eq_3, if_neg hescape, if_neg hclass]
  | cons c rest => rw [length_cons, validate, if_neg hescape, if_neg hclass]

theorem validate_token {t : Bytes} (h : IsToken t) (rest : Bytes) :
    validate (t ++ rest).length (t ++ rest) = validate rest.length rest := by
  have hclass : ∀ {members : Bytes}, class_end (members ++ rest) = .ok rest →
      validate (byte '[' :: members ++ rest).length (byte '[' :: members ++ rest)
        = validate rest.length rest := by
    intro members hend
    have hlength := (length_class_end hend).le
    rw [cons_append, length_cons]
    cases htext : members ++ rest with
    | nil =>
      rw [htext] at hend
      cases hend
    | cons c _ =>
      rw [validate, if_neg (by decide), if_pos rfl, ← htext, hend]
      exact validate_fuel hlength le_rfl
  cases h with
  | @plain b h =>
    have hne : ∀ c ∈ ascii "\\[\x7b\x7d,", b ≠ c := fun c hc hbc => h (hbc ▸ hc)
    exact validate_plain (hne _ (by decide)) (hne _ (by decide)) rest
  | escape b =>
    show validate (rest.length + 1 + 1) (byte '\\' :: b :: rest) = _
    rw [validate, if_pos rfl]
    exact validate_fuel (Nat.le_succ _) le_rfl
  | negated hb hbracket hmembers => exact hclass (class_end_negated hb hbracket hmembers rest)
  | members hbracket hmembers => exact hclass (class_end_plain hbracket hmembers rest)

/-- A glob with balanced braces is valid. -/
theorem validate_render {outside : Bool} (g : Braced outside) (rest : Bytes) :
    validate (g.render ++ rest).length (g.render ++ rest) = validate rest.length rest := by
  induction g using tree_induction generalizing rest with
  | done outside => rfl
  | token outside t after ih => rw [render, append_assoc, validate_token t.property, ih]
  | comma after ih =>
    rw [render, cons_append, validate_plain (by decide) (by decide), ih]
  | group outside _ others after hfirst hothers hafter =>
    have hall : ∀ (others : List (Braced false)) (rest : Bytes),
        (∀ a ∈ others, ∀ rest : Bytes, validate (a.render ++ rest).length (a.render ++ rest)
          = validate rest.length rest) →
        validate (render_others others ++ rest).length (render_others others ++ rest)
          = validate rest.length rest := by
      intro others
      induction others with
      | nil => exact fun _ _ => rfl
      | cons a others ih =>
        intro rest ha
        rw [render_others, cons_append, validate_plain (by decide) (by decide),
          append_assoc, ha a (.head _),
          ih rest fun a' ha' => ha a' (.tail _ ha')]
    rw [render, cons_append, validate_plain (by decide) (by decide), append_assoc, hfirst,
      append_assoc, hall others _ hothers, cons_append,
      validate_plain (by decide) (by decide), hafter]

end Braced

end Ferret.Policy
