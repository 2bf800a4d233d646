import Ferret.Find.Glob

/-!
# Bracket expressions

What a bracket expression is, without a way to read it: atoms up to a `]`,
where the first atom may be a `]` itself (`Closed`); of these, ranges and
members (`Groups`); and the bytes each of them denotes (`Element.Denotes`), in
the C locale. The reader of `Glob` finds exactly that: `bracket_iff` has its
result on one side and this description on the other, so an expression is read
as a class if and only if it is closed.

A member that is no class and no symbol – `[:foo:]`, `[=ab=]`, the end of a
range in `a-[:digit:]` – is not valid, and then the expression holds nothing,
as `fnmatch` does not match there.
-/

namespace Ferret.Find

open List

/-! ## Atoms -/

/-- What stands for itself, or for bytes, between brackets. -/
inductive Atom
  | plain (b : UInt8)
  | quoted (b : UInt8)
  | delimited (delimiter : UInt8) (name : Arg)
deriving DecidableEq

def Atom.text : Atom → Arg
  | plain b => [b]
  | quoted b => [92, b]
  | delimited d name => 91 :: d :: (name ++ [d, 93])

/-- How an atom may stand before other bytes: a plain one is no backslash and
does not begin a delimited one, and a name ends with the first pair that could
end it. -/
def Atom.Stands (rest : Arg) : Atom → Prop
  | plain b => b ≠ 92 ∧ ∀ next after, b = 91 → rest = next :: after → (word ":=.").contains next = false
  | quoted _ => True
  | delimited d name => (word ":=.").contains d = true ∧ ¬ [d, 93] <:+: name ++ [d]

/-- **Atoms up to the `]` that closes them.** Only the first atom may be a `]`. -/
inductive Closed : Bool → Arg → List Atom → Arg → Prop
  | close {after : Arg} : Closed false (93 :: after) [] after
  | atom {first : Bool} {rest after : Arg} {atoms : List Atom} (a : Atom) (hstands : a.Stands rest)
      (hclose : first = false → a ≠ .plain 93) (hrest : Closed false rest atoms after) :
      Closed first (a.text ++ rest) (a :: atoms) after

/-! ## Elements -/

/-- A member or a range of a bracket expression. -/
inductive Element
  | member (a : Atom)
  | range (first last : Atom)
deriving DecidableEq

/-- The byte of an atom that stands for one. -/
def Atom.byte? : Atom → Option UInt8
  | plain b => some b
  | quoted b => some b
  | delimited d [b] => if d = 58 then none else some b
  | delimited _ _ => none

/-- **Atoms as elements**: a `-` between two makes a range of them where the
first stands for one byte. -/
inductive Groups : List Atom → List Element → Prop
  | nil : Groups [] []
  | range {a z : Atom} {atoms : List Atom} {elements : List Element} (hbyte : a.byte?.isSome = true)
      (hrest : Groups atoms elements) :
      Groups (a :: .plain 45 :: z :: atoms) (.range a z :: elements)
  | member {a : Atom} {atoms : List Atom} {elements : List Element}
      (hsingle : a.byte?.isSome = true → ∀ z rest, atoms ≠ .plain 45 :: z :: rest)
      (hrest : Groups atoms elements) : Groups (a :: atoms) (.member a :: elements)

/-- The classes of the C locale. -/
inductive Ctype
  | alnum
  | alpha
  | blank
  | cntrl
  | digit
  | graph
  | lower
  | print
  | punct
  | space
  | upper
  | xdigit
deriving DecidableEq

def Ctype.name : Ctype → Arg
  | alnum => word "alnum"
  | alpha => word "alpha"
  | blank => word "blank"
  | cntrl => word "cntrl"
  | digit => word "digit"
  | graph => word "graph"
  | lower => word "lower"
  | print => word "print"
  | punct => word "punct"
  | space => word "space"
  | upper => word "upper"
  | xdigit => word "xdigit"

/-- The bytes of a class, in ASCII. -/
def Ctype.has (b : UInt8) : Ctype → Bool
  | upper => 65 ≤ b && b ≤ 90
  | lower => 97 ≤ b && b ≤ 122
  | alpha => 65 ≤ b && b ≤ 90 || 97 ≤ b && b ≤ 122
  | digit => 48 ≤ b && b ≤ 57
  | alnum => (65 ≤ b && b ≤ 90 || 97 ≤ b && b ≤ 122) || 48 ≤ b && b ≤ 57
  | xdigit => 48 ≤ b && b ≤ 57 || 65 ≤ b && b ≤ 70 || 97 ≤ b && b ≤ 102
  | blank => b == 32 || b == 9
  | space => b == 32 || 9 ≤ b && b ≤ 13
  | cntrl => b ≤ 31 || b == 127
  | graph => 33 ≤ b && b ≤ 126
  | print => 32 ≤ b && b ≤ 126
  | punct => (33 ≤ b && b ≤ 126) &&
      !((65 ≤ b && b ≤ 90 || 97 ≤ b && b ≤ 122) || 48 ≤ b && b ≤ 57)

/-- Whether an element names bytes at all: a class that there is, a symbol of
one byte, a range between two bytes. -/
def Element.Valid : Element → Prop
  | member (.delimited d name) => if d = 58 then ∃ c : Ctype, name = c.name else ∃ b, name = [b]
  | member _ => True
  | range first last => first.byte?.isSome = true ∧ last.byte?.isSome = true

/-- A byte as it is compared where case may be ignored. -/
def folded (fold : Bool) (b : UInt8) : UInt8 := if fold then to_ascii_lowercase b else b

/-- **The bytes an element denotes.** Classes and symbols keep their case. -/
def Element.Denotes (fold : Bool) (x : UInt8) : Element → Prop
  | member (.plain b) => folded fold x = folded fold b
  | member (.quoted b) => folded fold x = folded fold b
  | member (.delimited d name) =>
    if d = 58 then ∃ c : Ctype, name = c.name ∧ c.has x = true else name = [x]
  | range first last => ∃ b z, first.byte? = some b ∧ last.byte? = some z ∧
      folded fold b ≤ folded fold x ∧ folded fold x ≤ folded fold z

/-- A `!` or `^` after the bracket complements the members after it. -/
inductive Negated : Bool → Arg → Arg → Prop
  | yes {c : UInt8} {members : Arg} (hc : (word "!^").contains c = true) :
      Negated true (c :: members) members
  | no {members : Arg} (hfirst : ∀ c rest, members = c :: rest → (word "!^").contains c = false) :
      Negated false members members

/-- What the members of a class hold, or what they do not. -/
def Holds (fold negate : Bool) (elements : List Element) (x : UInt8) : Prop :=
  if negate = true then ¬ ∃ e ∈ elements, e.Denotes fold x else ∃ e ∈ elements, e.Denotes fold x

/-! ## One atom -/

variable {fold first : Bool} {bytes rest after : Arg} {d : UInt8} {name : Arg}

/-- The reader ends a name at the first pair. -/
theorem upTo_iff : upTo d bytes = some (name, after) ↔
    bytes = name ++ d :: 93 :: after ∧ ¬ [d, 93] <:+: name ++ [d] := by
  induction bytes generalizing name with
  | nil => simp [upTo]
  | cons b bytes ih =>
    cases bytes with
    | nil =>
      refine iff_of_false (by simp [upTo]) fun h => ?_
      have hlen := congrArg List.length h.1
      simp only [length_append, length_cons, length_nil] at hlen
      omega
    | cons c bytes =>
      rw [upTo]
      split_ifs with hpair
      · obtain ⟨rfl, rfl⟩ := hpair
        constructor
        · intro h
          cases h
          refine ⟨rfl, fun h => ?_⟩
          have hlen := h.length_le
          simp at hlen
        · -- a longer name has the pair in it already
          rintro ⟨hbytes, hpair⟩
          cases name with
          | nil =>
            cases hbytes
            rfl
          | cons n name =>
            have hleading : [b, 93] <+: n :: (name ++ [b]) := by
              cases name with
              | nil => cases hbytes; exact prefix_rfl
              | cons m name => cases hbytes; exact ⟨name ++ [b], rfl⟩
            exact absurd hleading.isInfix hpair
      · cases name with
        | nil =>
          refine iff_of_false (fun h => ?_) fun h => hpair ?_
          · obtain ⟨_, -, hpair⟩ := Option.map_eq_some_iff.mp h
            cases hpair
          · cases h.1
            exact ⟨rfl, rfl⟩
        | cons n name =>
          constructor
          · intro h
            obtain ⟨⟨_, _⟩, hrest, heq⟩ := Option.map_eq_some_iff.mp h
            cases heq
            obtain ⟨hbytes, hno⟩ := ih.mp hrest
            refine ⟨congrArg (b :: ·) hbytes, fun hinfix => ?_⟩
            rcases infix_cons_iff.mp hinfix with hleading | hinfix
            · -- the pair would stand at the beginning
              obtain ⟨hb, htail⟩ := cons_prefix_cons.mp hleading
              have hc : [93] <+: c :: bytes := by
                have hsplit : c :: bytes = (name ++ [d]) ++ 93 :: after := by simp [hbytes]
                rw [hsplit]
                exact htail.trans (prefix_append _ _)
              exact hpair ⟨hb.symm, (cons_prefix_cons.mp hc).1.symm⟩
            · exact hno hinfix
          · rintro ⟨hbytes, hno⟩
            obtain ⟨rfl, hrest⟩ := List.cons.inj hbytes
            rw [ih.mpr ⟨hrest, fun hinfix => hno (infix_cons hinfix)⟩]
            rfl

/-- What the reader makes of an atom. -/
def Atom.reading : Atom → BracketAtom
  | plain b => .single b false
  | quoted b => .single b false
  | delimited d name => delimitedAtom d name

/-- **The reader takes one atom**, the one that stands there. -/
theorem bracket_atom_iff {r : BracketAtom} : bracket_atom bytes = some (r, rest) ↔
    ∃ a : Atom, bytes = a.text ++ rest ∧ a.Stands rest ∧ r = a.reading := by
  constructor
  · intro h
    cases bytes with
    | nil => cases h
    | cons byte bytes =>
      cases bytes with
      | nil =>
        simp only [bracket_atom] at h
        split_ifs at h with hquote
        cases h
        exact ⟨.plain byte, rfl, ⟨hquote, nofun⟩, rfl⟩
      | cons next bytes =>
        simp only [bracket_atom] at h
        split_ifs at h with hopen hquote
        · obtain ⟨rfl, hnext⟩ := hopen
          obtain ⟨⟨name, after⟩, hname, hpair⟩ := Option.map_eq_some_iff.mp h
          cases hpair
          obtain ⟨rfl, hfirst⟩ := upTo_iff.mp hname
          exact ⟨.delimited next name, by simp [Atom.text], ⟨hnext, hfirst⟩, rfl⟩
        · cases h
          exact ⟨.quoted next, by rw [hquote]; rfl, trivial, rfl⟩
        · cases h
          refine ⟨.plain byte, rfl, ⟨hquote, fun c after hbyte hrest => ?_⟩, rfl⟩
          cases hrest
          exact Bool.eq_false_iff.mpr fun hnext => hopen ⟨hbyte, hnext⟩
  · rintro ⟨a, rfl, hstands, rfl⟩
    cases a with
    | plain b =>
      obtain ⟨hquote, hopen⟩ := hstands
      cases rest with
      | nil => exact if_neg hquote
      | cons next after =>
        show bracket_atom (b :: next :: after) = _
        rw [bracket_atom, if_neg, if_neg hquote]
        · rfl
        · rintro ⟨hb, hnext⟩
          rw [hopen next after hb rfl] at hnext
          cases hnext
    | quoted b => rfl
    | delimited d name =>
      obtain ⟨hd, hfirst⟩ := hstands
      have hname : upTo d (name ++ d :: 93 :: rest) = some (name, rest) :=
        upTo_iff.mpr ⟨rfl, hfirst⟩
      have htext : (Atom.delimited d name).text ++ rest = 91 :: d :: (name ++ d :: 93 :: rest) := by
        simp [Atom.text]
      rw [htext, bracket_atom, if_pos ⟨rfl, hd⟩, hname]
      rfl

/-- Only a plain `]` begins with one. -/
theorem Atom.text_append (a : Atom) (rest : Arg) :
    ∃ byte tail, a.text ++ rest = byte :: tail ∧ (byte = 93 → a = .plain 93) := by
  cases a with
  | plain b => exact ⟨b, rest, rfl, fun h => by rw [h]⟩
  | quoted b => exact ⟨92, b :: rest, rfl, fun h => absurd h (by decide)⟩
  | delimited d name =>
    exact ⟨91, d :: (name ++ [d, 93]) ++ rest, rfl, fun h => absurd h (by decide)⟩

attribute [local simp] Atom.reading delimitedAtom in
/-- The atoms read as one byte are those that stand for one. -/
theorem Atom.reading_cases (a : Atom) :
    (∃ b sensitive, a.reading = .single b sensitive ∧ a.byte? = some b) ∨
      (∃ members, a.reading = .class members ∧ a.byte? = none) ∨
      a.reading = .invalid ∧ a.byte? = none := by
  cases a with
  | plain b => exact .inl ⟨b, false, rfl, rfl⟩
  | quoted b => exact .inl ⟨b, false, rfl, rfl⟩
  | delimited d name =>
    by_cases hd : d = 58
    · have hbyte : (Atom.delimited d name).byte? = none := by
        rcases name with _ | ⟨b, _ | ⟨c, name⟩⟩
        · rfl
        · exact if_pos hd
        · rfl
      right
      cases hclass : classOf name with
      | some members => exact .inl ⟨members, by simp [hd, hclass], hbyte⟩
      | none => exact .inr ⟨by simp [hd, hclass], hbyte⟩
    · rcases name with _ | ⟨b, _ | ⟨c, name⟩⟩
      · exact .inr (.inr ⟨by simp [hd], rfl⟩)
      · exact .inl ⟨b, true, by simp [hd], if_neg hd⟩
      · exact .inr (.inr ⟨by simp [hd], rfl⟩)

/-! ## The members one after the other -/

/-- An element added to a set, and whether all so far are valid. -/
def Element.add (fold : Bool) (acc : ByteSet × Bool) : Element → ByteSet × Bool
  | member a =>
    match a.reading with
    | .single b sensitive => (fun v => acc.1 v || singleSet fold b sensitive v, acc.2)
    | .class members => (fun v => acc.1 v || members v, acc.2)
    | .invalid => (acc.1, false)
  | range a z =>
    match a.byte?, z.byte? with
    | some b, some last => (fun v => acc.1 v || rangeSet fold b last v, acc.2)
    | _, _ => (acc.1, false)

variable {fuel : ℕ} {set : ByteSet} {valid : Bool} {a z : Atom}

/-- The reader adds a member that does not begin a range. -/
theorem bracketMembers_member (hstands : a.Stands rest) (hclose : first = false → a ≠ .plain 93)
    (hsingle : a.byte?.isSome = true → rangeFollows rest = false) :
    bracketMembers fold (fuel + 1) first set valid (a.text ++ rest) =
      bracketMembers fold fuel false ((Element.member a).add fold (set, valid)).1
        ((Element.member a).add fold (set, valid)).2 rest := by
  obtain ⟨byte, tail, htext, hbyte⟩ := a.text_append rest
  have hopen : ¬ (byte = 93 ∧ first = false) := fun h => hclose h.2 (hbyte h.1)
  have hatom : bracket_atom (byte :: tail) = some (a.reading, rest) :=
    bracket_atom_iff.mpr ⟨a, htext.symm, hstands, rfl⟩
  rw [htext, bracketMembers, if_neg hopen, hatom]
  rcases a.reading_cases with ⟨b, _, hread, hb⟩ | ⟨_, hread, -⟩ | ⟨hread, -⟩
  · have hno := hsingle (by rw [hb]; rfl)
    simp only [hread, Element.add, hno]
    rfl
  all_goals simp only [hread, Element.add]

/-- The reader adds a range. -/
theorem bracketMembers_range (hstands : a.Stands (45 :: (z.text ++ rest)))
    (hclose : first = false → a ≠ .plain 93) (hbyte : a.byte?.isSome = true)
    (hstandsz : z.Stands rest) (hz : z ≠ .plain 93) :
    bracketMembers fold (fuel + 1) first set valid (a.text ++ 45 :: (z.text ++ rest)) =
      bracketMembers fold fuel false ((Element.range a z).add fold (set, valid)).1
        ((Element.range a z).add fold (set, valid)).2 rest := by
  obtain ⟨byte, tail, htext, hfirst⟩ := a.text_append (45 :: (z.text ++ rest))
  have hopen : ¬ (byte = 93 ∧ first = false) := fun h => hclose h.2 (hfirst h.1)
  have hatom : bracket_atom (byte :: tail) = some (a.reading, 45 :: (z.text ++ rest)) :=
    bracket_atom_iff.mpr ⟨a, htext.symm, hstands, rfl⟩
  have hlast : bracket_atom (z.text ++ rest) = some (z.reading, rest) :=
    bracket_atom_iff.mpr ⟨z, rfl, hstandsz, rfl⟩
  have hfollows : rangeFollows (45 :: (z.text ++ rest)) = true := by
    obtain ⟨next, _, hnext, hplain⟩ := z.text_append rest
    rw [hnext]
    have hne : next ≠ 93 := fun h => hz (hplain h)
    simp [rangeFollows, hne]
  rw [htext, bracketMembers, if_neg hopen, hatom]
  rcases a.reading_cases with ⟨b, _, hread, hb⟩ | ⟨members, hread, hnone⟩ | ⟨hread, hnone⟩
  · rcases z.reading_cases with ⟨c, _, hread', hc⟩ | ⟨members, hread', hc⟩ | ⟨hread', hc⟩
    all_goals simp only [hread, hfollows, if_true, tail_cons, hlast, hread', Element.add, hb, hc]
  all_goals cases hnone ▸ hbyte

/-- What elements make of a set. -/
def addAll (fold : Bool) (elements : List Element) (acc : ByteSet × Bool) : ByteSet × Bool :=
  elements.foldl (Element.add fold) acc

theorem rangeFollows_cons (h : rangeFollows rest = true) :
    ∃ next tail, rest = 45 :: next :: tail ∧ next ≠ 93 := by
  rcases rest with _ | ⟨_, _ | ⟨next, tail⟩⟩
  · cases h
  · cases h
  · simp only [rangeFollows, Bool.and_eq_true, beq_iff_eq, bne_iff_ne] at h
    exact ⟨next, tail, by rw [h.1], h.2⟩

variable {atoms : List Atom}

/-- A range follows an atom exactly where the atoms after it say so. -/
theorem rangeFollows_iff (h : Closed false rest atoms after) :
    rangeFollows rest = true ↔ ∃ z atoms', atoms = .plain 45 :: z :: atoms' := by
  cases h with
  | close =>
    refine iff_of_false (by cases after <;> simp [rangeFollows]) ?_
    rintro ⟨z, atoms', h⟩
    cases h
  | atom a _ _ hrest =>
    by_cases hdash : a = .plain 45
    · subst hdash
      cases hrest with
      | close =>
        refine iff_of_false (by simp [Atom.text, rangeFollows]) ?_
        rintro ⟨z, atoms', h⟩
        cases h
      | atom z _ hz _ =>
        refine iff_of_true ?_ ⟨z, _, rfl⟩
        obtain ⟨next, _, hnext, hplain⟩ := z.text_append _
        rw [hnext]
        have hne : next ≠ 93 := fun h => hz rfl (hplain h)
        simp [Atom.text, rangeFollows, hne]
    · have hother {b : UInt8} (hb : b ≠ 45) {l : Arg} : rangeFollows (b :: l) = false := by
        cases l with
        | nil => rfl
        | cons c l => simp [rangeFollows, hb]
      refine iff_of_false ?_ ?_
      · cases a with
        | plain b =>
          exact Bool.eq_false_iff.mp (hother fun h => hdash (by rw [h]))
        | quoted b | delimited d name => exact Bool.eq_false_iff.mp (hother (by decide))
      · rintro ⟨z, atoms', h⟩
        cases h
        exact hdash rfl

/-- **What is closed is read**, element by element. -/
theorem bracketMembers_of_closed {elements : List Element} (hgroups : Groups atoms elements)
    (hclosed : Closed first bytes atoms after) (hfuel : bytes.length < fuel) :
    bracketMembers fold fuel first set valid bytes =
      some ((addAll fold elements (set, valid)).1, (addAll fold elements (set, valid)).2, after) := by
  induction hgroups generalizing bytes first set valid fuel with
  | nil =>
    cases hclosed
    obtain ⟨fuel, rfl⟩ : ∃ n, fuel = n + 1 := ⟨fuel - 1, by omega⟩
    rfl
  | range hbyte hrest ih =>
    cases hclosed with
    | atom a hstands hclose hclosed =>
      cases hclosed with
      | atom _ _ _ hclosed =>
        cases hclosed with
        | atom z hstandsz hz hclosed =>
          obtain ⟨fuel, rfl⟩ : ∃ n, fuel = n + 1 := ⟨fuel - 1, by omega⟩
          have hshort := hfuel
          rw [length_append, length_append, length_append] at hshort
          refine (bracketMembers_range hstands hclose hbyte hstandsz (hz rfl)).trans (ih hclosed ?_)
          have hone : (Atom.plain 45).text.length = 1 := rfl
          omega
  | @member a atoms elements hsingle hrest ih =>
    cases hclosed with
    | atom _ hstands hclose hclosed =>
      obtain ⟨fuel, rfl⟩ : ∃ n, fuel = n + 1 := ⟨fuel - 1, by omega⟩
      have hno (hbyte : a.byte?.isSome = true) : rangeFollows _ = false :=
        Bool.eq_false_iff.mpr fun h => by
          obtain ⟨z, atoms', heq⟩ := (rangeFollows_iff hclosed).mp h
          exact hsingle hbyte z atoms' heq
      rw [bracketMembers_member hstands hclose hno]
      refine ih hclosed ?_
      obtain ⟨_, _, htext, -⟩ := a.text_append []
      have hlen := congrArg List.length htext
      rw [append_nil, length_cons] at hlen
      rw [length_append] at hfuel
      omega

/-- **What is read is closed.** -/
theorem closed_of_bracketMembers {set' : ByteSet} {valid' : Bool}
    (h : bracketMembers fold fuel first set valid bytes = some (set', valid', after)) :
    ∃ atoms elements, Closed first bytes atoms after ∧ Groups atoms elements ∧
      (set', valid') = addAll fold elements (set, valid) := by
  induction fuel generalizing first set valid bytes with
  | zero => cases h
  | succ fuel ih =>
    cases bytes with
    | nil => cases h
    | cons byte bytes =>
      by_cases hend : byte = 93 ∧ first = false
      · obtain ⟨rfl, rfl⟩ := hend
        cases h
        exact ⟨[], [], .close, .nil, rfl⟩
      · cases hatom : bracket_atom (byte :: bytes) with
        | none =>
          rw [bracketMembers, if_neg hend, hatom] at h
          cases h
        | some read =>
          obtain ⟨r, rest⟩ := read
          obtain ⟨a, htext, hstands, rfl⟩ := bracket_atom_iff.mp hatom
          have hclose : first = false → a ≠ .plain 93 := by
            rintro hfirst rfl
            exact hend ⟨(List.cons.inj htext).1, hfirst⟩
          rw [htext] at h ⊢
          by_cases hrange : a.byte?.isSome = true ∧ rangeFollows rest = true
          · obtain ⟨hbyte, hfollows⟩ := hrange
            obtain ⟨next, tail, rfl, hnext⟩ := rangeFollows_cons hfollows
            cases hlast : bracket_atom (next :: tail) with
            | none =>
              -- the end of the range does not close, and nothing is read
              rw [← htext, bracketMembers, if_neg hend, hatom] at h
              rcases a.reading_cases with ⟨b, _, hread, -⟩ | ⟨_, _, hnone⟩ | ⟨_, hnone⟩
              · simp only [hread, hfollows, if_true, tail_cons, hlast] at h
                cases h
              all_goals
                rw [hnone] at hbyte
                cases hbyte
            | some last =>
              obtain ⟨r, rest⟩ := last
              obtain ⟨z, hz, hstandsz, rfl⟩ := bracket_atom_iff.mp hlast
              have hplain : z ≠ .plain 93 := by
                rintro rfl
                exact hnext (List.cons.inj hz).1
              rw [hz] at h hstands ⊢
              rw [bracketMembers_range hstands hclose hbyte hstandsz hplain] at h
              obtain ⟨atoms, elements, hclosed, hgroups, hset⟩ := ih h
              refine ⟨a :: .plain 45 :: z :: atoms, .range a z :: elements, ?_,
                .range hbyte hgroups, hset⟩
              have hdash : Closed false ([45] ++ (z.text ++ rest)) (.plain 45 :: z :: atoms) after :=
                .atom (.plain 45) ⟨by decide, fun _ _ h => absurd h (by decide)⟩
                  (fun _ => by decide) (.atom z hstandsz (fun _ => hplain) hclosed)
              exact .atom a hstands hclose hdash
          · have hsingle : a.byte?.isSome = true → rangeFollows rest = false := fun hbyte =>
              Bool.eq_false_iff.mpr fun h => hrange ⟨hbyte, h⟩
            rw [bracketMembers_member hstands hclose hsingle] at h
            obtain ⟨atoms, elements, hclosed, hgroups, hset⟩ := ih h
            refine ⟨a :: atoms, .member a :: elements, .atom a hstands hclose hclosed, ?_, hset⟩
            refine .member (fun hbyte z atoms' heq => ?_) hgroups
            have hfollows := (rangeFollows_iff hclosed).mpr ⟨z, atoms', heq⟩
            rw [hsingle hbyte] at hfollows
            cases hfollows

/-! ## What the members hold -/

theorem toNat_to_ascii_lowercase (b : UInt8) : (to_ascii_lowercase b).toNat =
    if 65 ≤ b.toNat ∧ b.toNat ≤ 90 then b.toNat + 32 else b.toNat := by
  have hb := b.toNat_lt
  simp only [to_ascii_lowercase, UInt8.le_iff_toNat_le]
  show (if 65 ≤ b.toNat ∧ b.toNat ≤ 90 then b + 32 else b).toNat = _
  split_ifs with h
  · rw [UInt8.toNat_add]
    exact Nat.mod_eq_of_lt (by show b.toNat + 32 < 256; omega)
  · rfl

theorem toNat_to_ascii_uppercase (b : UInt8) : (to_ascii_uppercase b).toNat =
    if 97 ≤ b.toNat ∧ b.toNat ≤ 122 then b.toNat - 32 else b.toNat := by
  have hb := b.toNat_lt
  simp only [to_ascii_uppercase, UInt8.le_iff_toNat_le]
  show (if 97 ≤ b.toNat ∧ b.toNat ≤ 122 then b - 32 else b).toNat = _
  split_ifs with h
  · rw [UInt8.toNat_sub_of_le _ _ (UInt8.le_iff_toNat_le.mpr (by show 32 ≤ b.toNat; omega))]
    rfl
  · rfl

/-- One byte is added with its other case where case is ignored. -/
theorem singleSet_iff (b x : UInt8) :
    singleSet fold b false x = true ↔ folded fold x = folded fold b := by
  cases fold with
  | false => simp [singleSet, folded]
  | true =>
    simp only [singleSet, folded, Bool.or_eq_true, Bool.and_eq_true, beq_iff_eq, if_true,
      Bool.not_false, and_true, true_and, ← UInt8.toNat_inj, toNat_to_ascii_lowercase,
      toNat_to_ascii_uppercase]
    generalize x.toNat = x
    generalize b.toNat = b
    split_ifs <;> omega

/-- The classes of the source have the bytes of those of the C locale. -/
theorem classOf_name (c : Ctype) : classOf c.name = some fun b => c.has b := by
  have hprint : (fun b => is_ascii_graphic b || b == 32) = fun b => Ctype.print.has b := by
    funext b
    rw [Bool.eq_iff_iff]
    simp only [is_ascii_graphic, Ctype.has, Bool.or_eq_true, Bool.and_eq_true, decide_eq_true_eq,
      beq_iff_eq, UInt8.le_iff_toNat_le, ← UInt8.toNat_inj]
    show (33 ≤ b.toNat ∧ b.toNat ≤ 126) ∨ b.toNat = 32 ↔ 32 ≤ b.toNat ∧ b.toNat ≤ 126
    omega
  have hpunct : is_ascii_punctuation = fun b => Ctype.punct.has b := by
    funext b
    rw [Bool.eq_iff_iff]
    simp only [is_ascii_punctuation, Ctype.has, Bool.or_eq_true, Bool.and_eq_true,
      Bool.not_eq_true', Bool.or_eq_false_iff, Bool.and_eq_false_iff, decide_eq_true_eq,
      decide_eq_false_iff_not, UInt8.le_iff_toNat_le]
    generalize hb : b.toNat = n
    simp only [UInt8.toNat_ofNat]
    omega
  cases c with
  | print => rw [← hprint]; rfl
  | punct => rw [← hpunct]; rfl
  | _ => rfl

/-- There are no others. -/
theorem classOf_eq_none (h : ∀ c : Ctype, name ≠ c.name) : classOf name = none := by
  unfold classOf
  iterate 12 rw [if_neg]
  · exact h .xdigit
  · exact h .upper
  · exact h .space
  · exact h .punct
  · exact h .print
  · exact h .lower
  · exact h .graph
  · exact h .digit
  · exact h .cntrl
  · exact h .blank
  · exact h .alpha
  · exact h .alnum

/-- A member between delimiters adds what it denotes, if it is valid. -/
theorem delimited_add (d : UInt8) (name : Arg) (acc : ByteSet × Bool) :
    (∀ x, ((Element.member (.delimited d name)).add fold acc).1 x = true ↔
        acc.1 x = true ∨ (Element.member (.delimited d name)).Denotes fold x) ∧
      (((Element.member (.delimited d name)).add fold acc).2 = true ↔
        acc.2 = true ∧ (Element.member (.delimited d name)).Valid) := by
  by_cases hd : d = 58
  · by_cases hname : ∃ c : Ctype, name = c.name
    · obtain ⟨c, rfl⟩ := hname
      have hread : (Atom.delimited d c.name).reading = .class fun b => c.has b := by
        simp only [Atom.reading, delimitedAtom, if_pos hd, classOf_name]
      have hinj {c' : Ctype} (h : c.name = c'.name) : c = c' := by
        revert h
        cases c <;> cases c' <;> decide
      simp only [Element.add, hread, Element.Denotes, Element.Valid, if_pos hd, Bool.or_eq_true]
      refine ⟨fun x => or_congr_right ⟨fun h => ⟨c, rfl, h⟩, ?_⟩, by simp⟩
      rintro ⟨c', hname, h⟩
      rwa [hinj hname]
    · have hread : (Atom.delimited d name).reading = .invalid := by
        simp only [Atom.reading, delimitedAtom, if_pos hd,
          classOf_eq_none fun c hc => hname ⟨c, hc⟩]
      simp only [Element.add, hread, Element.Denotes, Element.Valid, if_pos hd]
      refine ⟨fun x => (or_iff_left ?_).symm, iff_of_false (by simp) fun h => hname h.2⟩
      rintro ⟨c, hc, -⟩
      exact hname ⟨c, hc⟩
  · rcases name with _ | ⟨b, _ | ⟨c, name⟩⟩
    · simp [Element.add, Atom.reading, delimitedAtom, hd, Element.Denotes, Element.Valid]
    · simp only [Element.add, Atom.reading, delimitedAtom, if_neg hd, Element.Denotes,
        Element.Valid, Bool.or_eq_true, singleSet, Bool.not_true, Bool.and_false, Bool.false_and,
        Bool.or_false, beq_iff_eq]
      refine ⟨fun x => or_congr_right ?_, by simp⟩
      simp [eq_comm]
    · simp [Element.add, Atom.reading, delimitedAtom, hd, Element.Denotes, Element.Valid]

attribute [local simp] Element.add Element.Denotes Element.Valid in
theorem range_add (a z : Atom) (acc : ByteSet × Bool) :
    (∀ x, ((Element.range a z).add fold acc).1 x = true ↔
        acc.1 x = true ∨ (Element.range a z).Denotes fold x) ∧
      (((Element.range a z).add fold acc).2 = true ↔
        acc.2 = true ∧ (Element.range a z).Valid) := by
  cases ha : a.byte? with
  | none => simp [ha]
  | some b =>
    cases hz : z.byte? with
    | none => simp [ha, hz]
    | some _ =>
      simp [ha, hz, rangeSet, folded]

/-- **An element adds what it denotes**, and spoils the set if it is not valid. -/
theorem Element.add_spec (e : Element) (acc : ByteSet × Bool) :
    (∀ x, (e.add fold acc).1 x = true ↔ acc.1 x = true ∨ e.Denotes fold x) ∧
      ((e.add fold acc).2 = true ↔ acc.2 = true ∧ e.Valid) := by
  cases e with
  | member a =>
    cases a with
    | plain b | quoted b =>
      refine ⟨fun x => ?_, (and_iff_left trivial).symm⟩
      show (acc.1 x || singleSet fold b false x) = true ↔ _
      rw [Bool.or_eq_true, singleSet_iff]
      rfl
    | delimited d name => exact delimited_add d name acc
  | range a z => exact range_add a z acc

/-- **A set holds what its elements denote.** -/
theorem addAll_has (elements : List Element) (acc : ByteSet × Bool) (x : UInt8) :
    (addAll fold elements acc).1 x = true ↔
      acc.1 x = true ∨ ∃ e ∈ elements, e.Denotes fold x := by
  induction elements generalizing acc with
  | nil => simp [addAll]
  | cons e elements ih =>
    show (addAll fold elements (e.add fold acc)).1 x = true ↔ _
    rw [ih, (e.add_spec acc).1, or_assoc]
    simp

theorem addAll_valid (elements : List Element) (acc : ByteSet × Bool) :
    (addAll fold elements acc).2 = true ↔ acc.2 = true ∧ ∀ e ∈ elements, e.Valid := by
  induction elements generalizing acc with
  | nil => simp [addAll]
  | cons e elements ih =>
    show (addAll fold elements (e.add fold acc)).2 = true ↔ _
    rw [ih, (e.add_spec acc).2, and_assoc, forall_mem_cons]

/-! ## A bracket expression -/

/-- **A bracket expression in the C locale**, with the bytes after it. -/
def IsClass (fold : Bool) (body : Arg) (set : ByteSet) (after : Arg) : Prop :=
  ∃ negate members atoms elements, Negated negate body members ∧
    Closed true members atoms after ∧ Groups atoms elements ∧
    ∀ x, set x = true ↔ (∀ e ∈ elements, e.Valid) ∧ Holds fold negate elements x

theorem negation_iff {negate : Bool} {members : Arg} :
    negation bytes = (negate, members) ↔ Negated negate bytes members := by
  cases bytes with
  | nil =>
    constructor
    · intro h
      cases h
      exact .no nofun
    · rintro ⟨⟩
      rfl
  | cons b rest =>
    cases hb : (word "!^").contains b with
    | true =>
      have hread : negation (b :: rest) = (true, rest) := if_pos hb
      rw [hread]
      constructor
      · intro h
        cases h
        exact .yes hb
      · intro h
        cases h with
        | yes => rfl
        | no hfirst =>
          rw [hfirst b rest rfl] at hb
          cases hb
    | false =>
      have hread : negation (b :: rest) = (false, b :: rest) :=
        if_neg (Bool.eq_false_iff.mp hb)
      rw [hread]
      constructor
      · intro h
        cases h
        refine .no fun c rest' h => ?_
        cases h
        exact hb
      · intro h
        cases h with
        | yes hc =>
          rw [hb] at hc
          cases hc
        | no => rfl

/-- **What is read as a class is a closed bracket expression**, with its set. -/
theorem bracket_iff : bracket bytes fold = some (set, after) ↔ IsClass fold bytes set after := by
  obtain ⟨negate, members, hnegation⟩ : ∃ negate members, negation bytes = (negate, members) :=
    ⟨_, _, rfl⟩
  have hset (elements : List Element) (x : UInt8) :
      (if (addAll fold elements (fun _ => false, true)).2 then
        if negate then !(addAll fold elements (fun _ => false, true)).1 x
        else (addAll fold elements (fun _ => false, true)).1 x
      else false) = true ↔ (∀ e ∈ elements, e.Valid) ∧ Holds fold negate elements x := by
    have hhas : (addAll fold elements (fun _ => false, true)).1 x = true ↔
        ∃ e ∈ elements, e.Denotes fold x := (addAll_has elements _ x).trans (or_iff_right (by simp))
    have hvalid : (addAll fold elements (fun _ => false, true)).2 = true ↔
        ∀ e ∈ elements, e.Valid := (addAll_valid elements _).trans (and_iff_right rfl)
    rw [← hvalid, Holds, ← hhas]
    cases (addAll fold elements (fun _ => false, true)).2 <;> cases negate <;> simp
  rw [bracket, hnegation]
  constructor
  · intro h
    obtain ⟨⟨_, _, _⟩, hread, heq⟩ := Option.map_eq_some_iff.mp h
    cases heq
    obtain ⟨atoms, elements, hclosed, hgroups, hadd⟩ := closed_of_bracketMembers hread
    refine ⟨negate, members, atoms, elements, negation_iff.mp hnegation, hclosed, hgroups, ?_⟩
    intro x
    rw [← hset, ← hadd]
  · rintro ⟨_, _, atoms, elements, hneg, hclosed, hgroups, hholds⟩
    rw [negation_iff.mpr hneg] at hnegation
    cases hnegation
    have hread : bracketMembers fold (members.length + 1) true (fun _ => false) true members
        = some ((addAll fold elements (fun _ => false, true)).1,
          (addAll fold elements (fun _ => false, true)).2, after) :=
      bracketMembers_of_closed hgroups hclosed (Nat.lt_succ_self _)
    show (bracketMembers fold (members.length + 1) true (fun _ => false) true members).map _ = _
    rw [hread]
    refine congrArg some (Prod.ext (funext fun x => ?_) rfl)
    exact Bool.eq_iff_iff.mpr ((hset elements x).trans (hholds x).symm)

/-- Any atoms are some elements. -/
theorem exists_groups (atoms : List Atom) : ∃ elements, Groups atoms elements := by
  induction hn : atoms.length using Nat.strong_induction_on generalizing atoms with
  | _ n ih =>
    cases atoms with
    | nil => exact ⟨[], .nil⟩
    | cons a atoms =>
      by_cases hrange : a.byte?.isSome = true ∧ ∃ z rest, atoms = .plain 45 :: z :: rest
      · obtain ⟨hbyte, z, rest, rfl⟩ := hrange
        obtain ⟨elements, hgroups⟩ := ih rest.length (by rw [← hn]; simp; omega) rest rfl
        exact ⟨_, .range hbyte hgroups⟩
      · obtain ⟨elements, hgroups⟩ := ih atoms.length (by rw [← hn]; simp) atoms rfl
        exact ⟨_, .member (fun hbyte z rest h => hrange ⟨hbyte, z, rest, h⟩) hgroups⟩

/-- **Where nothing is read as a class, no bracket closes.** -/
theorem bracket_eq_none_iff : bracket bytes fold = none ↔
    ¬ ∃ negate members atoms after, Negated negate bytes members ∧
      Closed true members atoms after := by
  constructor
  · rintro h ⟨negate, members, atoms, after, hneg, hclosed⟩
    obtain ⟨elements, hgroups⟩ := exists_groups atoms
    classical
    have hclass : IsClass fold bytes
        (fun x => decide ((∀ e ∈ elements, e.Valid) ∧ Holds fold negate elements x)) after :=
      ⟨negate, members, atoms, elements, hneg, hclosed, hgroups, fun x => decide_eq_true_iff⟩
    rw [bracket_iff.mpr hclass] at h
    cases h
  · intro h
    cases hread : bracket bytes fold with
    | none => rfl
    | some _ =>
      obtain ⟨negate, members, atoms, elements, hneg, hclosed, -⟩ := bracket_iff.mp hread
      exact absurd ⟨negate, members, atoms, _, hneg, hclosed⟩ h

theorem closed_length (h : Closed first bytes atoms after) :
    after.length < bytes.length := by
  induction h with
  | close => exact Nat.lt_succ_self _
  | atom a _ _ _ ih =>
    rw [length_append]
    exact lt_of_lt_of_le ih (Nat.le_add_left _ _)

/-- What follows a class is shorter. -/
theorem bracket_length (h : bracket bytes fold = some (set, after)) :
    after.length < bytes.length := by
  obtain ⟨_, members, _, _, hneg, hclosed, -⟩ := bracket_iff.mp h
  have hmembers : members.length ≤ bytes.length := by
    cases hneg with
    | yes => exact Nat.le_succ _
    | no => exact le_rfl
  exact lt_of_lt_of_le (closed_length hclosed) hmembers

/-! ## A pattern -/

/-- **The tokens of a pattern in the C locale.** A bracket is a class where it
is closed, and otherwise a byte like others. -/
inductive Reads (fold : Bool) : Arg → List Token → Prop
  | nil : Reads fold [] []
  | star {rest : Arg} {tokens : List Token} (hrest : Reads fold rest tokens) :
      Reads fold (42 :: rest) (.star :: tokens)
  | any {rest : Arg} {tokens : List Token} (hrest : Reads fold rest tokens) :
      Reads fold (63 :: rest) (.any :: tokens)
  | quoted {b : UInt8} {rest : Arg} {tokens : List Token} (hrest : Reads fold rest tokens) :
      Reads fold (92 :: b :: rest) (.literal b :: tokens)
  | trailing : Reads fold [92] [.never]
  | closed {body after : Arg} {set : ByteSet} {tokens : List Token}
      (hclass : IsClass fold body set after) (hrest : Reads fold after tokens) :
      Reads fold (91 :: body) (.class set :: tokens)
  | unclosed {body : Arg} {tokens : List Token}
      (hopen : ¬ ∃ negate members atoms after, Negated negate body members ∧
        Closed true members atoms after) (hrest : Reads fold body tokens) :
      Reads fold (91 :: body) (.literal 91 :: tokens)
  | literal {b : UInt8} {rest : Arg} {tokens : List Token} (hb : b ≠ 42 ∧ b ≠ 63 ∧ b ≠ 92 ∧ b ≠ 91)
      (hrest : Reads fold rest tokens) : Reads fold (b :: rest) (.literal b :: tokens)

variable {pattern : Arg}

theorem reads_compileFrom (hfuel : pattern.length ≤ fuel) :
    Reads fold pattern (compileFrom fold fuel pattern) := by
  induction fuel generalizing pattern with
  | zero =>
    rw [length_eq_zero_iff.mp (Nat.le_zero.mp hfuel)]
    exact .nil
  | succ fuel ih =>
    cases pattern with
    | nil => exact .nil
    | cons b rest =>
      have hrest : rest.length ≤ fuel := Nat.le_of_succ_le_succ hfuel
      unfold compileFrom
      split_ifs with hstar hany hquote hopen
      · exact hstar ▸ .star (ih hrest)
      · exact hany ▸ .any (ih hrest)
      · subst hquote
        cases rest with
        | nil => exact .trailing
        | cons _ rest => exact .quoted (ih (Nat.le_of_succ_le hrest))
      · subst hopen
        cases hbracket : bracket rest fold with
        | none => exact .unclosed (bracket_eq_none_iff.mp hbracket) (ih hrest)
        | some _ =>
          exact .closed (bracket_iff.mp hbracket)
            (ih ((bracket_length hbracket).le.trans hrest))
      · exact .literal ⟨hstar, hany, hquote, hopen⟩ (ih hrest)

theorem fuel_cons {b : UInt8} (h : (b :: rest).length ≤ fuel) :
    ∃ n, fuel = n + 1 ∧ rest.length ≤ n := by
  obtain ⟨n, rfl⟩ := Nat.exists_eq_add_of_le' h
  exact ⟨n + rest.length, by rw [length_cons, add_assoc], Nat.le_add_left _ _⟩

theorem compileFrom_of_reads {tokens : List Token} (h : Reads fold pattern tokens)
    (hfuel : pattern.length ≤ fuel) : compileFrom fold fuel pattern = tokens := by
  induction h generalizing fuel with
  | nil => cases fuel <;> rfl
  | trailing =>
    obtain ⟨fuel, rfl⟩ : ∃ n, fuel = n + 1 := ⟨fuel - 1, by simp at hfuel; omega⟩
    rfl
  | star _ ih =>
    obtain ⟨fuel, rfl, hrest⟩ := fuel_cons hfuel
    exact congrArg (Token.star :: ·) (ih hrest)
  | any _ ih =>
    obtain ⟨fuel, rfl, hrest⟩ := fuel_cons hfuel
    exact congrArg (Token.any :: ·) (ih hrest)
  | quoted _ ih =>
    obtain ⟨fuel, rfl, hrest⟩ := fuel_cons hfuel
    exact congrArg (Token.literal _ :: ·) (ih (Nat.le_of_succ_le hrest))
  | closed hclass _ ih =>
    obtain ⟨fuel, rfl, hrest⟩ := fuel_cons hfuel
    have hbracket := bracket_iff.mpr hclass
    rw [← ih ((bracket_length hbracket).le.trans hrest)]
    simp [compileFrom, hbracket]
  | unclosed hopen _ ih =>
    obtain ⟨fuel, rfl, hrest⟩ := fuel_cons hfuel
    have hbracket : bracket _ fold = none := bracket_eq_none_iff.mpr hopen
    rw [← ih hrest]
    simp [compileFrom, hbracket]
  | literal hb _ ih =>
    obtain ⟨fuel, rfl, hrest⟩ := fuel_cons hfuel
    rw [← ih hrest]
    simp [compileFrom, hb]

/-- **A pattern is compiled to its tokens**, and has no others. -/
theorem compile_iff {tokens : List Token} :
    compile pattern fold = tokens ↔ Reads fold pattern tokens := by
  constructor
  · rintro rfl
    exact reads_compileFrom le_rfl
  · exact fun h => compileFrom_of_reads h le_rfl

end Ferret.Find
