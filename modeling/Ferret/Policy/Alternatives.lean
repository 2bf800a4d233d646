import Ferret.Policy.Scanned
import Ferret.Policy.Selection
import Mathlib.Data.List.ReduceOption

/-!
# Alternatives and the lines of an ignore file

The texts that a glob's alternatives make are compiled as lines of an ignore
file are, where a leading `#` is a comment, a leading `!` a marker and trailing
spaces are not read. Only the marker is escaped before. So a text means what it
means as a glob unless it begins with a `#` or ends in a space that no backslash
escapes.
-/

namespace Ferret.Policy

open Guarded List

/-! ## A text as a glob -/

/-- The pattern of a glob's components, on the command line. -/
def glob_pattern (parsed : SplitPattern) : Except String (Option Pattern) :=
  if hparts : parsed.parts = [] then .ok none
  else
    let basename_only := !parsed.leading_separator && parsed.parts.length == 1
    if parsed.parts.any fun part => compile_component part (!basename_only) .override = .never then
      .error "invalid glob character class or range"
    else
      .ok (some
        { index := 0
          result := .ignore
          directory_only := parsed.trailing_separator
          basename_only
          components := compile_components parsed (!basename_only) .override
          components_ne := compile_components_ne_nil hparts _ .override
          basename_single := fun h => length_compile_components
            (by simp only [basename_only, Bool.and_eq_true, beq_iff_eq] at h; exact h.2) _ .override })

/-- **A text read as a glob**, and as nothing else: `Pattern.compile_syntax` without what is
special about a line. -/
def read_glob (text : Bytes) : Except String (Option Pattern) := do
  glob_pattern (← split_components text)

/-- A text that a line's special characters do not change. -/
def Kept (text : Bytes) : Prop :=
  text.head? ≠ some (byte '#') ∧ trim_trailing_spaces text = text

instance (text : Bytes) : Decidable (Kept text) := instDecidableAnd

variable {text : Bytes}

theorem compile_of_kept (h : Kept text) (hne : text ≠ []) (hbang : text.head? ≠ some (byte '!')) :
    Pattern.compile_override text = read_glob text := by
  have hlone : text ≠ [byte '!'] := fun htext => hbang (by rw [htext]; rfl)
  unfold Pattern.compile_override Pattern.compile_syntax read_glob glob_pattern
  dsimp only
  rw [h.2]
  simp only [hne, h.1, hbang, hlone, decide_false, Bool.or_false, Bool.false_eq_true, if_false, true_and]

/-! ## The escaped marker -/

variable (rest : Bytes)

/-- A marker's part begins with it, escaped or not. -/
theorem split_parts_bang :
    split_parts (byte '!' :: rest) = (split_parts rest).map
        (fun split => (split.1.modifyHead (⟨byte '!', false⟩ :: ·), split.2))
      ∧ split_parts (byte '\\' :: byte '!' :: rest) = (split_parts rest).map
        (fun split => (split.1.modifyHead (⟨byte '!', true⟩ :: ·), split.2)) := by
  constructor
  · rw [split_parts.eq_def]
    dsimp only
    rw [if_neg (by decide)]
    cases split_parts rest with
    | error e => rfl
    | ok split => rfl
  · rw [split_parts, if_pos rfl]
    cases split_parts rest with
    | error e => rfl
    | ok split => rfl

theorem compile_component_bang (part : List PatternByte) (anchored : Bool) (s : Syntax) :
    compile_component (⟨byte '!', true⟩ :: part) anchored s
      = compile_component (⟨byte '!', false⟩ :: part) anchored s := by
  have hatoms : ∀ fuel, compile_atoms s (fuel + 1) [] [] (⟨byte '!', true⟩ :: part)
      = compile_atoms s (fuel + 1) [] [] (⟨byte '!', false⟩ :: part) := by
    intro fuel
    rw [compile_atoms, compile_atoms, if_pos rfl, if_neg Bool.false_ne_true,
      if_neg (by decide), if_neg (by decide), if_neg (by decide)]
  have hstar : ∀ escaped, (⟨byte '!', escaped⟩ : PatternByte).is (byte '*') = false := by decide
  unfold compile_component
  simp only [all_cons, length_cons, hstar, hatoms, Bool.false_and, Bool.and_false,
    Bool.false_eq_true, if_false, cons_ne_nil]

theorem escaped_edge_bang :
    ((ascii "\\/").isPrefixOf (byte '\\' :: byte '!' :: rest)
        || (ascii "\\/").isSuffixOf (byte '\\' :: byte '!' :: rest))
      = ((ascii "\\/").isPrefixOf (byte '!' :: rest)
        || (ascii "\\/").isSuffixOf (byte '!' :: rest)) := by
  have hclear : (ascii "\\/").isPrefixOf (byte '\\' :: byte '!' :: rest) = false
      ∧ (ascii "\\/").isPrefixOf (byte '!' :: rest) = false := ⟨rfl, rfl⟩
  rw [hclear.1, hclear.2, Bool.false_or, Bool.false_or, Bool.eq_iff_iff,
    isSuffixOf_iff_suffix, isSuffixOf_iff_suffix, suffix_cons_iff, or_iff_right]
  intro h
  exact absurd (List.cons.inj (List.cons.inj h).2).1 (by decide)

/-- Splitting leaves a marker where it is, in the first part. -/
theorem split_components_bang :
    split_components (byte '\\' :: byte '!' :: rest) = split_components (byte '!' :: rest)
      ∨ ∃ trailing part parts separators edge,
        split_components (byte '\\' :: byte '!' :: rest)
            = .ok ⟨false, trailing, (⟨byte '!', true⟩ :: part) :: parts, separators, edge⟩
          ∧ split_components (byte '!' :: rest)
            = .ok ⟨false, trailing, (⟨byte '!', false⟩ :: part) :: parts, separators, edge⟩ := by
  obtain ⟨hbang, hescaped⟩ := split_parts_bang rest
  unfold split_components
  rw [hbang, hescaped, escaped_edge_bang]
  cases split_parts rest with
  | error e => exact .inl rfl
  | ok split =>
    obtain ⟨parts, separators⟩ := split
    cases parts with
    | nil => exact .inl rfl
    | cons part parts =>
      refine .inr ?_
      simp only [Except.map, modifyHead_cons, bind, Except.bind, head?_cons,
        cons_ne_nil, Option.some.injEq, decide_false, Bool.false_and, Bool.false_eq_true,
        if_false]
      cases parts with
      | nil =>
        refine ⟨false, part, [], separators, _, ?_, rfl⟩
        simp
      | cons _ parts =>
        simp only [getLast?_cons_cons, dropLast_cons_cons, length_cons]
        split <;> exact ⟨_, part, _, _, _, rfl, rfl⟩

theorem glob_pattern_bang (trailing : Bool) (part : List PatternByte)
    (parts : List (List PatternByte)) (separators : List Bool) (edge : Bool) :
    glob_pattern ⟨false, trailing, (⟨byte '!', true⟩ :: part) :: parts, separators, edge⟩
      = glob_pattern ⟨false, trailing, (⟨byte '!', false⟩ :: part) :: parts, separators, edge⟩ := by
  unfold glob_pattern compile_components
  simp only [any_cons, map_cons, compile_component_bang, length_cons, cons_ne_nil]

/-- **An escaped marker stands for itself.** -/
theorem read_glob_bang :
    read_glob (byte '\\' :: byte '!' :: rest) = read_glob (byte '!' :: rest) := by
  unfold read_glob
  rcases split_components_bang rest with h | ⟨trailing, part, parts, separators, edge, h, h'⟩
  · rw [h]
  · rw [h, h']
    exact glob_pattern_bang trailing part parts separators edge

/-! ## Trailing spaces -/

theorem takeWhile_bang (before after : Bytes) :
    (before ++ byte '!' :: after).takeWhile (· = byte '\\') = before.takeWhile (· = byte '\\') := by
  induction before with
  | nil => rfl
  | cons b before ih => rw [cons_append, takeWhile_cons, takeWhile_cons, ih]

/-- What comes before a marker makes no difference to the spaces after it. -/
theorem trim_reversed_bang (line after : Bytes) :
    ∃ kept, trim_reversed (line ++ byte '!' :: after) = kept ++ byte '!' :: after
      ∧ kept <:+ line ∧ trim_reversed (line ++ [byte '!']) = kept ++ [byte '!'] := by
  induction line with
  | nil => exact ⟨[], rfl, suffix_refl _, rfl⟩
  | cons b line ih =>
    rw [cons_append, cons_append, trim_reversed, trim_reversed, takeWhile_bang, takeWhile_bang]
    split
    · obtain ⟨kept, hafter, hsuffix, hkept⟩ := ih
      exact ⟨kept, hafter, hsuffix.trans (suffix_cons _ _), hkept⟩
    · exact ⟨b :: line, rfl, suffix_refl _, rfl⟩

theorem trim_trailing_spaces_bang :
    ∃ kept, trim_trailing_spaces (byte '!' :: rest) = byte '!' :: kept
      ∧ trim_trailing_spaces (byte '\\' :: byte '!' :: rest) = byte '\\' :: byte '!' :: kept := by
  obtain ⟨kept, hafter, -, hkept⟩ := trim_reversed_bang rest.reverse [byte '\\']
  refine ⟨kept.reverse, ?_, ?_⟩
  · unfold trim_trailing_spaces
    rw [reverse_cons, hkept, reverse_append]
    rfl
  · unfold trim_trailing_spaces
    rw [reverse_cons, reverse_cons, append_assoc]
    exact (congrArg List.reverse hafter).trans (by simp)

variable (line : Bytes)

theorem trim_reversed_idem :
    trim_reversed (trim_reversed line) = trim_reversed line := by
  induction line with
  | nil => rfl
  | cons b line ih =>
    rw [trim_reversed]
    split
    · exact ih
    · rename_i h
      rw [trim_reversed, if_neg h]

theorem trim_reversed_suffix : trim_reversed line <:+ line := by
  induction line with
  | nil => exact suffix_refl _
  | cons b line ih =>
    rw [trim_reversed]
    split
    · exact ih.trans (suffix_cons _ _)
    · exact suffix_refl _

theorem trim_trailing_spaces_idem :
    trim_trailing_spaces (trim_trailing_spaces line) = trim_trailing_spaces line := by
  unfold trim_trailing_spaces
  rw [reverse_reverse, trim_reversed_idem]

theorem trim_trailing_spaces_initial : trim_trailing_spaces line <+: line := by
  have := (trim_reversed_suffix line.reverse)
  unfold trim_trailing_spaces
  rw [← reverse_suffix, reverse_reverse]
  exact this

/-! ## Compiling an alternative -/

/-- **What an alternative compiles to**: the glob that is left of it without its trailing
spaces, unless that is nothing or a comment. -/
theorem compile_alternative (text : Bytes) :
    Pattern.compile_override (escape_marker text)
      = if trim_trailing_spaces text = [] ∨ (trim_trailing_spaces text).head? = some (byte '#')
        then .ok none else read_glob (trim_trailing_spaces text) := by
  have hline : ∀ {line : Bytes}, line ≠ [] → line.head? ≠ some (byte '#') →
      line.head? ≠ some (byte '!') → trim_trailing_spaces line = line →
      Pattern.compile_override line = read_glob line :=
    fun hne hcomment hbang htrim => compile_of_kept ⟨hcomment, htrim⟩ hne hbang
  have htrimmed : ∀ line : Bytes, Pattern.compile_override line
      = Pattern.compile_override (trim_trailing_spaces line) := by
    intro line
    unfold Pattern.compile_override Pattern.compile_syntax
    rw [trim_trailing_spaces_idem]
  have hhead : ∀ {b c : UInt8} {rest : Bytes}, b ≠ c → (b :: rest).head? ≠ some c :=
    fun hne h => hne (Option.some.inj h)
  by_cases hbang : text.head? = some (byte '!')
  · obtain ⟨rest, rfl⟩ := head?_eq_some_iff.mp hbang
    obtain ⟨_, hkept, hescaped⟩ := trim_trailing_spaces_bang rest
    rw [escape_marker, if_pos hbang, htrimmed, hescaped, hkept,
      if_neg (not_or.mpr ⟨cons_ne_nil _ _, hhead (by decide)⟩), ← read_glob_bang]
    refine hline (cons_ne_nil _ _) (hhead (by decide)) (hhead (by decide)) ?_
    rw [← hescaped, trim_trailing_spaces_idem]
  · rw [escape_marker, if_neg hbang, htrimmed]
    split
    · rename_i h
      unfold Pattern.compile_override Pattern.compile_syntax
      rw [trim_trailing_spaces_idem]
      simp [h]
    · rename_i h
      obtain ⟨hne, hcomment⟩ := not_or.mp h
      refine hline hne hcomment (fun h' => hbang ?_) (trim_trailing_spaces_idem text)
      obtain ⟨_, hafter⟩ := trim_trailing_spaces_initial text
      rw [← hafter, head?_append_of_ne_nil _ hne, h']

theorem compile_kept (h : Kept text) (hne : text ≠ []) :
    Pattern.compile_override (escape_marker text) = read_glob text := by
  rw [compile_alternative, h.2, if_neg (not_or.mpr ⟨hne, h.1⟩)]

/-! ## Pushing a glob with alternatives -/

/-- Whether a text, read as a glob, matches a path. -/
def Reads (text : Bytes) (components : List Bytes) (directory : Bool) : Prop :=
  ∃ p, read_glob text = .ok (some p) ∧ p.overrides components directory = true

theorem not_reads_nil (components : List Bytes) (directory : Bool) :
    ¬ Reads [] components directory := by
  rintro ⟨p, hp, -⟩
  have hnil : read_glob [] = .error "invalid glob character class or range" := rfl
  rw [hnil] at hp
  cases hp

theorem mapM_except_ok {α β : Type} {f : α → Except String β} {l : List α} {bs : List β}
    (h : l.mapM f = .ok bs) (b : β) : b ∈ bs ↔ ∃ a ∈ l, f a = .ok b := by
  induction l generalizing bs with
  | nil =>
    cases h
    simp
  | cons a l ih =>
    rw [mapM_cons] at h
    cases ha : f a with
    | error e =>
      rw [ha] at h
      cases h
    | ok _ =>
      cases hl : l.mapM f with
      | error e =>
        rw [ha, hl] at h
        cases h
      | ok _ =>
        rw [ha, hl] at h
        cases h
        rw [mem_cons, ih hl, exists_mem_cons_iff, ha, Except.ok.injEq, eq_comm]

theorem mapM_except_error {α β : Type} {f : α → Except String β} {l : List α} {e : String}
    (h : l.mapM f = .error e) : ∃ a ∈ l, f a = .error e := by
  induction l with
  | nil => cases h
  | cons a l ih =>
    rw [mapM_cons] at h
    cases ha : f a with
    | error e' =>
      rw [ha] at h
      cases h
      exact ⟨a, .head _, ha⟩
    | ok b =>
      cases hl : l.mapM f with
      | error e' =>
        rw [ha, hl] at h
        cases h
        obtain ⟨a', ha', hf⟩ := ih hl
        exact ⟨a', .tail _ ha', hf⟩
      | ok _ =>
        rw [ha, hl] at h
        cases h

/-- Some globs compile, or one of them does not. -/
theorem compile_globs_cases (globs : List Bytes) :
    (∃ patterns, compile_globs globs = .ok patterns ∧
        ∀ p, p ∈ patterns ↔ ∃ glob ∈ globs, Pattern.compile_override glob = .ok (some p))
      ∨ ∃ detail, compile_globs globs = .error (.error (.pattern detail)) ∧
        ∃ glob ∈ globs, Pattern.compile_override glob = .error detail := by
  unfold compile_globs
  cases h : globs.mapM Pattern.compile_override with
  | error detail => exact .inr ⟨detail, rfl, mapM_except_error h⟩
  | ok patterns =>
    refine .inl ⟨patterns.reduceOption, rfl, fun p => ?_⟩
    rw [reduceOption_mem_iff, mapM_except_ok h]

theorem IsToken.ne_nil {t : Bytes} (h : IsToken t) : t ≠ [] := by
  cases h <;> exact nofun

namespace Braced

/-- A glob that begins with a comment's mark, before every group, has texts that do. -/
theorem exists_choice_head {outside : Bool} (g : Braced outside) {b : UInt8}
    (hb : b ≠ byte '\x7b') (h : g.render.head? = some b) :
    ∃ text ∈ g.choices, text.head? = some b := by
  cases g with
  | done => cases h
  | token t rest =>
    obtain ⟨text, htext⟩ := exists_mem_of_ne_nil _ rest.choices_ne_nil
    rw [render, head?_append_of_ne_nil _ t.property.ne_nil] at h
    refine ⟨t.val ++ text, mem_map_of_mem htext, ?_⟩
    rw [head?_append_of_ne_nil _ t.property.ne_nil, h]
  | comma rest =>
    obtain ⟨text, htext⟩ := exists_mem_of_ne_nil _ rest.choices_ne_nil
    exact ⟨byte ',' :: text, mem_map_of_mem htext, h⟩
  | group _ _ rest => exact absurd (Option.some.inj h).symm hb

end Braced

/-- The operand that admits, or excludes, what a glob matches. -/
def operand (admits : Bool) (glob : Bytes) : Bytes := if admits then glob else byte '!' :: glob

namespace GrepSelection

variable {s : GrepSelection}

/-- An operand's glob is expanded, and the texts are compiled. -/
theorem push_render (s : GrepSelection) {g : Braced true} {admits : Bool}
    (hnesting : g.nesting ≤ 64) (hcount : g.choices.length ≤ 1024) (hne : g.render ≠ [])
    (hcomment : g.render.head? ≠ some (byte '#'))
    (hmark : admits = true → g.render.head? ≠ some (byte '!')) :
    s.push (operand admits g.render) = do
      let patterns ← compile_globs (g.choices.map escape_marker)
      return { s with
        positive := s.positive || admits && !patterns.isEmpty
        rules := s.rules ++ [(admits, patterns)] } := by
  have hadmits : decide ((operand admits g.render).head? ≠ some (byte '!')) = admits := by
    cases admits with
    | true => exact decide_eq_true (hmark rfl)
    | false => rfl
  have hbody : (if admits = true then operand admits g.render else (operand admits g.render).tail)
      = g.render := by
    cases admits <;> rfl
  have hvalid : validate g.render.length g.render = .ok () := by
    simpa [validate] using g.validate_render []
  unfold push
  dsimp only
  rw [hadmits, hbody, if_neg (not_or.mpr ⟨hne, hcomment⟩), hvalid,
    Braced.expand_render hnesting hcount]
  rfl

/-- **A glob that is pushed**: one of its texts is no glob, or there is one rule more, which
has a pattern for each text. -/
theorem push_cases_render (s : GrepSelection) {g : Braced true} {admits : Bool}
    (hnesting : g.nesting ≤ 64) (hcount : g.choices.length ≤ 1024) (hne : g.render ≠ [])
    (hcomment : g.render.head? ≠ some (byte '#'))
    (hmark : admits = true → g.render.head? ≠ some (byte '!')) :
    (∃ detail, s.push (operand admits g.render) = .error (.error (.pattern detail))
        ∧ ∃ text ∈ g.choices, Pattern.compile_override (escape_marker text) = .error detail)
    ∨ ∃ patterns s', s.push (operand admits g.render) = .ok s'
        ∧ s'.rules = s.rules ++ [(admits, patterns)]
        ∧ ∀ p, p ∈ patterns ↔
          ∃ text ∈ g.choices, Pattern.compile_override (escape_marker text) = .ok (some p) := by
  rw [s.push_render hnesting hcount hne hcomment hmark]
  rcases compile_globs_cases (g.choices.map escape_marker) with ⟨patterns, h, hp⟩ | ⟨detail, h, hd⟩
  · rw [h]
    refine .inr ⟨patterns, _, rfl, rfl, fun p => ?_⟩
    simp only [hp, mem_map, exists_exists_and_eq_and]
  · rw [h]
    simp only [mem_map, exists_exists_and_eq_and] at hd
    exact .inl ⟨detail, rfl, hd⟩

end GrepSelection

/-! ## Words -/

/-- A word of a glob: no byte of it is special anywhere. -/
def IsWord (word : Bytes) : Prop := ∀ b ∈ word, b ∉ ascii "\\[]\x7b\x7d,*?/"

instance (word : Bytes) : Decidable (IsWord word) :=
  inferInstanceAs (Decidable (∀ b ∈ word, b ∉ ascii "\\[]\x7b\x7d,*?/"))

variable {word : Bytes}

theorem IsWord.ne (h : IsWord word) {b c : UInt8} (hb : b ∈ word)
    (hc : c ∈ ascii "\\[]\x7b\x7d,*?/") : b ≠ c := fun hbc => h b hb (hbc ▸ hc)

theorem split_parts_word (h : IsWord word) :
    split_parts word = .ok ([word.map fun b => ⟨b, false⟩], []) := by
  induction word with
  | nil => rfl
  | cons b word ih =>
    rw [split_parts.eq_def]
    dsimp only
    rw [if_neg (h.ne (mem_cons_self ..) (by decide)), ih fun c hc => h c (.tail _ hc)]
    show (if b = byte '/' then _ else _) = _
    rw [if_neg (h.ne (mem_cons_self ..) (by decide))]
    rfl

theorem compile_atoms_word (h : IsWord word) (s : Syntax) {fuel : ℕ} (hfuel : word.length ≤ fuel)
    (literal : Bytes) :
    compile_atoms s fuel [] literal (word.map fun b => ⟨b, false⟩)
      = some (flush_literal [] (literal ++ word)) := by
  induction word generalizing fuel literal with
  | nil =>
    rw [map_nil, append_nil]
    cases fuel <;> rfl
  | cons b word ih =>
    obtain ⟨fuel, rfl⟩ := Nat.exists_eq_add_one_of_ne_zero
      (Nat.pos_iff_ne_zero.mp (lt_of_lt_of_le (Nat.succ_pos _) hfuel))
    have hb : ∀ c ∈ ascii "\\[]\x7b\x7d,*?/", b ≠ c := fun c hc => h.ne (.head _) hc
    rw [map_cons, compile_atoms, if_neg Bool.false_ne_true, if_neg (hb _ (by decide)),
      if_neg (hb _ (by decide)), if_neg (hb _ (by decide)),
      ih (fun c hc => h c (.tail _ hc)) (Nat.succ_le_succ_iff.mp hfuel),
      append_assoc]
    rfl

theorem split_components_word (h : IsWord word) :
    split_components word = .ok ⟨false, false, [word.map fun b => ⟨b, false⟩], [], false⟩ := by
  have hedge : ((ascii "\\/").isPrefixOf word || (ascii "\\/").isSuffixOf word) = false := by
    rw [Bool.or_eq_false_iff, ← Bool.not_eq_true, ← Bool.not_eq_true, isPrefixOf_iff_prefix,
      isSuffixOf_iff_suffix]
    have habsent : ¬ byte '\\' ∈ word := fun hmem => h _ hmem (by decide)
    exact ⟨fun hin => habsent (hin.subset (.head _)),
      fun hin => habsent (hin.subset (.head _))⟩
  unfold split_components
  rw [split_parts_word h, hedge]
  simp [bind, Except.bind]

/-- **A word is a glob of its own bytes.** -/
theorem read_glob_word (h : IsWord word) (hne : word ≠ []) :
    ∃ p, read_glob word = .ok (some p) ∧ p.basename_only = true ∧ p.directory_only = false
      ∧ p.components = [.glob ⟨[.literal ⟨word, hne⟩]⟩] := by
  have hcomponent : compile_component (word.map fun b => ⟨b, false⟩) false .override
      = .glob ⟨[.literal ⟨word, hne⟩]⟩ := by
    unfold compile_component
    rw [compile_atoms_word h .override (by rw [length_map]), Bool.false_and, Bool.false_and,
      if_neg nofun, if_neg (by simpa using hne), nil_append]
    unfold flush_literal
    rw [dif_pos hne]
    rfl
  have hread : read_glob word
      = glob_pattern ⟨false, false, [word.map fun b => ⟨b, false⟩], [], false⟩ := by
    unfold read_glob
    rw [split_components_word h]
    rfl
  have hcomponents : compile_components
      ⟨false, false, [word.map fun b => ⟨b, false⟩], [], false⟩ false .override
        = [.glob ⟨[.literal ⟨word, hne⟩]⟩] := by
    unfold compile_components
    rw [map_singleton, hcomponent]
    rfl
  rw [hread]
  unfold glob_pattern
  rw [dif_neg (cons_ne_nil _ _)]
  dsimp only
  rw [if_neg (by simp [hcomponent])]
  exact ⟨_, rfl, rfl, rfl, hcomponents⟩

/-- A word selects what has its name. -/
theorem overrides_word (h : IsWord word) (hne : word ≠ []) {p : Pattern}
    (hp : read_glob word = .ok (some p)) (components : List Bytes) :
    p.overrides components false = true ↔ components.getLast? = some word := by
  obtain ⟨_, hp', hbasename, hdirectory, hcomponents⟩ := read_glob_word h hne
  cases hp.symm.trans hp'
  unfold Pattern.overrides Pattern.matches_override
  cases components.getLast? with
  | none => simp
  | some last =>
    have hliteral : (⟨[.literal ⟨word, hne⟩]⟩ : ComponentGlob).matches last = true ↔ last = word :=
      (ComponentGlob.matches_iff _ _).trans Splits.singleton_iff
    simp only [hbasename, if_true, Pattern.matches_name, hdirectory, hcomponents, head?_cons,
      Option.any_some, Bool.not_false, Bool.true_or, Bool.true_and, Option.some.injEq]
    exact hliteral

theorem reads_word_iff (h : IsWord word) (components : List Bytes) (hcomponents : [] ∉ components) :
    Reads word components false ↔ components.getLast? = some word := by
  by_cases hne : word = []
  · subst hne
    exact iff_of_false (not_reads_nil _ _) fun hlast => hcomponents (mem_of_getLast? hlast)
  · obtain ⟨p, hp, -⟩ := read_glob_word h hne
    constructor
    · rintro ⟨p, hp, hoverrides⟩
      exact (overrides_word h hne hp components).mp hoverrides
    · exact fun hlast => ⟨p, hp, (overrides_word h hne hp components).mpr hlast⟩

namespace Braced

theorem exists_word (outside : Bool) (h : IsWord word) :
    ∃ g : Braced outside, g.render = word ∧ g.choices = [word] ∧ g.nesting = 0 := by
  induction word with
  | nil => exact ⟨done, rfl, rfl, rfl⟩
  | cons b word ih =>
    obtain ⟨g, hrender, hchoices, hnesting⟩ := ih fun c hc => h c (.tail _ hc)
    have hsub : ascii "\\[\x7b\x7d," ⊆ ascii "\\[]\x7b\x7d,*?/" := by decide
    have hplain : IsToken [b] := .plain fun hb => h b (.head _) (hsub hb)
    refine ⟨token ⟨[b], hplain⟩ g, ?_, ?_, hnesting⟩
    · rw [render, hrender]
      rfl
    · rw [choices, hchoices]
      rfl

theorem exists_words {words : List Bytes} (h : ∀ word ∈ words, IsWord word) :
    ∃ others : List (Braced false), render_others others = words.flatMap (byte ',' :: ·)
      ∧ choices_others others = words ∧ nesting_others others = 0 := by
  induction words with
  | nil => exact ⟨[], rfl, rfl, rfl⟩
  | cons word words ih =>
    obtain ⟨others, hrender, hchoices, hnesting⟩ := ih fun w hw => h w (.tail _ hw)
    obtain ⟨g, hg, hgs, hdepth⟩ := exists_word false (h word (.head _))
    refine ⟨g :: others, ?_, ?_, ?_⟩
    · rw [render_others, hg, hrender, flatMap_cons, cons_append]
    · rw [choices_others, hgs, hchoices, singleton_append]
    · rw [nesting_others, hdepth, hnesting, max_self]

theorem intercalate_cons (sep : UInt8) (word : Bytes) (words : List Bytes) :
    [sep].intercalate (word :: words) = word ++ words.flatMap (sep :: ·) := by
  induction words generalizing word with
  | nil => simp
  | cons _ words ih =>
    rw [intercalate_cons_cons, ih, flatMap_cons]
    simp

/-- A text chooses one alternative of a group, and the rest beside it. -/
theorem mem_choices_group {before : Braced true} {first : Braced false}
    {others : List (Braced false)} {after : Braced true} :
    text ∈ (before.append (group first others after)).choices
      ↔ ∃ a ∈ first :: others, text ∈ (before.append (a.append after)).choices := by
  simp only [choices_append, choices, choices_others_eq, ← flatMap_cons, mem_flatMap, mem_map]
  constructor
  · rintro ⟨b, hb, _, ⟨c, ⟨a, ha, hc⟩, d, hd, rfl⟩, rfl⟩
    exact ⟨a, ha, b, hb, c ++ d, ⟨c, hc, d, hd, rfl⟩, rfl⟩
  · rintro ⟨a, ha, b, hb, _, ⟨c, hc, d, hd, rfl⟩, rfl⟩
    exact ⟨b, hb, c ++ d, ⟨c, ⟨a, ha, hc⟩, d, hd, rfl⟩, rfl⟩

/-- A group of words. -/
theorem exists_word_group {words : List Bytes} (hne : words ≠ [])
    (h : ∀ word ∈ words, IsWord word) :
    ∃ g : Braced true,
      g.render = byte '\x7b' :: ([byte ','].intercalate words ++ [byte '\x7d'])
        ∧ g.choices = words ∧ g.nesting ≤ 64 := by
  cases words with
  | nil => exact absurd rfl hne
  | cons word words =>
    obtain ⟨first, hfirst, hchoice, hdepth⟩ := exists_word false (h word (.head _))
    obtain ⟨others, hothers, hchoices, hnesting⟩ :=
      exists_words fun w hw => h w (.tail _ hw)
    refine ⟨group first others done, ?_, ?_, ?_⟩
    · rw [render, hfirst, hothers, intercalate_cons, append_assoc]
      rfl
    · rw [choices, hchoice, hchoices]
      simp [choices]
    · rw [nesting, hdepth, hnesting]
      decide

end Braced

namespace GrepSelection

theorem any_overrides_iff {g : Braced true} {patterns : List Pattern}
    (hpatterns : ∀ p, p ∈ patterns ↔
      ∃ text ∈ g.choices, Pattern.compile_override (escape_marker text) = .ok (some p))
    (hkept : ∀ text ∈ g.choices, Kept text) (components : List Bytes) (directory : Bool) :
    patterns.any (·.overrides components directory) = true
      ↔ ∃ text ∈ g.choices, Reads text components directory := by
  rw [any_eq_true]
  constructor
  · rintro ⟨p, hp, hoverrides⟩
    obtain ⟨text, htext, hcompile⟩ := (hpatterns p).mp hp
    by_cases hne : text = []
    · subst hne
      cases hcompile
    · exact ⟨text, htext, p, compile_kept (hkept text htext) hne ▸ hcompile, hoverrides⟩
  · rintro ⟨text, htext, p, hread, hoverrides⟩
    have hne : text ≠ [] := fun hnil => by
      subst hnil
      cases hread
    exact ⟨p, (hpatterns p).mpr ⟨text, htext, (compile_kept (hkept text htext) hne).trans hread⟩,
      hoverrides⟩

/-- A word that is not kept is not selected: what is left of an alternative is kept. -/
theorem kept_of_overrides {words : List Bytes} (hwords : ∀ word ∈ words, IsWord word)
    {patterns : List Pattern}
    (hpatterns : ∀ p, p ∈ patterns ↔
      ∃ text ∈ words, Pattern.compile_override (escape_marker text) = .ok (some p))
    {components : List Bytes} {name : Bytes} (hname : components.getLast? = some name)
    (h : patterns.any (·.overrides components false) = true) : Kept name := by
  obtain ⟨p, hp, hoverrides⟩ := any_eq_true.mp h
  obtain ⟨text, htext, hcompile⟩ := (hpatterns p).mp hp
  rw [compile_alternative] at hcompile
  split at hcompile
  · cases hcompile
  · rename_i hleft
    obtain ⟨hne, hcomment⟩ := not_or.mp hleft
    have hword : IsWord (trim_trailing_spaces text) := fun b hb =>
      hwords text htext b ((trim_trailing_spaces_initial text).subset hb)
    have hlast := (overrides_word hword hne hcompile components).mp hoverrides
    rw [Option.some.inj (hname.symm.trans hlast)]
    exact ⟨hcomment, trim_trailing_spaces_idem text⟩

/-- A word is a glob, whatever is left of it. -/
theorem compile_word (h : IsWord word) :
    ∃ pattern, Pattern.compile_override (escape_marker word) = .ok pattern := by
  rw [compile_alternative]
  split
  · exact ⟨none, rfl⟩
  · rename_i hleft
    have hword : IsWord (trim_trailing_spaces word) := fun b hb =>
      h b ((trim_trailing_spaces_initial word).subset hb)
    obtain ⟨p, hp, -⟩ := read_glob_word hword (not_or.mp hleft).1
    exact ⟨some p, hp⟩

theorem nil_not_mem_components (path : Bytes) : [] ∉ components path := by
  unfold components
  simp

/-- **Alternatives of the command line.** A glob with balanced braces, within the limits, that
is pushed matches what some alternative of a group does in the group's place, if none of its
texts begins with a `#` or ends in a space that is not escaped; it is refused only if one of
them is no glob. For words in a group the condition is exact: a file is matched if and only if
its name is one of them. -/
theorem push_alternatives (s : GrepSelection) (admits : Bool) (before : Braced true)
    (first : Braced false) (others : List (Braced false)) (after : Braced true)
    (words : List Bytes) :
    (let g := before.append (.group first others after);
      g.nesting ≤ 64 → g.choices.length ≤ 1024 →
      (admits = true → g.render.head? ≠ some (byte '!')) →
      (∀ text ∈ g.choices, Kept text) →
      (∃ detail, s.push (operand admits g.render) = .error (.error (.pattern detail))
          ∧ ∃ text ∈ g.choices, read_glob text = .error detail)
      ∨ ∃ patterns s', s.push (operand admits g.render) = .ok s'
          ∧ s'.rules = s.rules ++ [(admits, patterns)]
          ∧ ∀ components directory, patterns.any (·.overrides components directory) = true ↔
            ∃ a ∈ first :: others, ∃ text ∈ (before.append (a.append after)).choices,
              Reads text components directory)
    ∧ (words ≠ [] → words.length ≤ 1024 → (∀ word ∈ words, IsWord word) →
      ∃ patterns s',
        push {} (byte '\x7b' :: ([byte ','].intercalate words ++ [byte '\x7d'])) = .ok s'
          ∧ s'.rules = [(true, patterns)]
          ∧ ((∀ path, patterns.any (·.overrides (components path) false) = true ↔
                ∃ word ∈ words, (components path).getLast? = some word)
              ↔ ∀ word ∈ words, Kept word)) := by
  constructor
  · intro g hnesting hcount hmark hkept
    have hne : g.render ≠ [] := by
      rw [Braced.render_append, Braced.render]
      simp
    have hcomment : g.render.head? ≠ some (byte '#') := by
      intro h
      obtain ⟨text, htext, hhead⟩ := g.exists_choice_head (by decide) h
      exact (hkept text htext).1 hhead
    rcases s.push_cases_render hnesting hcount hne hcomment hmark with
      ⟨detail, hpush, text, htext, hcompile⟩ | ⟨patterns, s', hpush, hrules, hpatterns⟩
    · refine .inl ⟨detail, hpush, text, htext, ?_⟩
      have hnonempty : text ≠ [] := fun hnil => by
        subst hnil
        cases hcompile
      rw [← compile_kept (hkept text htext) hnonempty, hcompile]
    · refine .inr ⟨patterns, s', hpush, hrules, fun components directory => ?_⟩
      rw [any_overrides_iff hpatterns hkept]
      simp only [g, Braced.mem_choices_group]
      constructor
      · rintro ⟨text, ⟨a, ha, htext⟩, hreads⟩
        exact ⟨a, ha, text, htext, hreads⟩
      · rintro ⟨a, ha, text, htext, hreads⟩
        exact ⟨text, ⟨a, ha, htext⟩, hreads⟩
  · intro hne hcount hwords
    obtain ⟨g, hrender, hchoices, hnesting⟩ := Braced.exists_word_group hne hwords
    have hhead : g.render.head? = some (byte '\x7b') := by rw [hrender]; rfl
    rcases push_cases_render {} hnesting (hchoices ▸ hcount)
      (by rw [hrender]; exact cons_ne_nil _ _) (by rw [hhead]; decide)
      (fun (_ : true = true) => by rw [hhead]; decide) with
      ⟨detail, -, text, htext, hcompile⟩ | ⟨patterns, s', hpush, hrules, hpatterns⟩
    · obtain ⟨p, hp⟩ := compile_word (hwords text (hchoices ▸ htext))
      cases hp.symm.trans hcompile
    · rw [hrender] at hpush
      rw [hchoices] at hpatterns
      refine ⟨patterns, s', hpush, hrules, fun h word hword => ?_, fun hkept path => ?_⟩
      · by_contra hnot
        have hnonempty : word ≠ [] := fun hnil => hnot (by rw [hnil]; decide)
        have hslash : byte '/' ∉ word := fun hmem => hwords word hword _ hmem (by decide)
        have hdot : word ≠ [byte '.'] := fun hdot => hnot (by rw [hdot]; decide)
        have hone := (components_file hnonempty hdot hslash []).1
        have hlast : (components word).getLast? = some word := by rw [hone]; rfl
        exact hnot (kept_of_overrides hwords hpatterns hlast ((h word).mpr ⟨word, hword, hlast⟩))
      · rw [any_overrides_iff (g := g) (by rwa [hchoices]) (by rwa [hchoices]), hchoices]
        exact exists_congr fun word => and_congr_right fun hword =>
          reads_word_iff (hwords word hword) _ (nil_not_mem_components path)

/-- An alternative that begins with a `#`, or ends in a space, is a glob of its own, and a
file of that name is not selected. -/
theorem alternatives_dropped :
    ((push {} (ascii "\x7b#a,b\x7d")).map fun s => s.allows (ascii "#a")) = .ok false
      ∧ ((push {} (ascii "\x7ba ,b\x7d")).map fun s => s.allows (ascii "a ")) = .ok false
      ∧ Reads (ascii "#a") (components (ascii "#a")) false
      ∧ Reads (ascii "a ") (components (ascii "a ")) false := by
  refine ⟨by decide +kernel, by decide +kernel, ?_, ?_⟩
  all_goals exact (reads_word_iff (by decide) _ (nil_not_mem_components _)).mpr (by decide)

/-- Alternatives that are kept. -/
theorem push_alternatives_words :
    (∃ patterns s', push {} (ascii "x\x7ba,b\x7d") = .ok s' ∧ s'.rules = [(true, patterns)]
      ∧ (patterns.any (·.overrides [ascii "d", ascii "xb"] false) = true ↔
        ∃ text ∈ [ascii "xa", ascii "xb"], Reads text [ascii "d", ascii "xb"] false))
    ∧ ∃ patterns s', push {} (ascii "\x7b!a,b c\x7d") = .ok s' ∧ s'.rules = [(true, patterns)]
      ∧ ∀ path, patterns.any (·.overrides (components path) false) = true ↔
        ∃ word ∈ [ascii "!a", ascii "b c"], (components path).getLast? = some word := by
  constructor
  · have hok : (push {} (ascii "x\x7ba,b\x7d")).isOk = true := by decide +kernel
    rcases (push_alternatives {} true (.token ⟨[byte 'x'], .plain (by decide)⟩ .done)
      (.token ⟨[byte 'a'], .plain (by decide)⟩ .done)
      [.token ⟨[byte 'b'], .plain (by decide)⟩ .done] .done []).1 (by decide) (by decide)
      (fun _ => by decide) (by decide) with ⟨_, hpush, -⟩ | ⟨patterns, s', hpush, hrules, hiff⟩
    · rw [show push {} (ascii "x\x7ba,b\x7d") = _ from hpush] at hok
      cases hok
    · refine ⟨patterns, s', hpush, hrules, (hiff _ _).trans ?_⟩
      simp only [exists_mem_cons_iff, not_mem_nil, false_and, exists_false, or_false,
        Braced.append, Braced.choices, map_cons, map_nil]
      exact .rfl
  · obtain ⟨patterns, s', hpush, hrules, hiff⟩ := (push_alternatives {} true .done .done [] .done
      [ascii "!a", ascii "b c"]).2 (by decide) (by decide) (by decide)
    exact ⟨patterns, s', hpush, hrules, hiff.mpr (by decide)⟩

end GrepSelection

end Ferret.Policy
