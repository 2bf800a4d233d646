import Ferret.Policy.Layers

/-!
# Ignore decisions are made of whole paths

What a directory's list says of an entry is what gitignore's rules say of the
entry's whole path: of the ignore files in force, in the order of their
precedence and the closest directory's first, the last line that matches the
path from the file's own directory on.

A walk of one root goes into directories in any order, each from one it has
been in, and every one of them adds to the tables that all of them share. The
invariant of a walk is that the tables hold one rule for an id and one list for
a key, and that each directory's state is that of the ignore files on the way
to it: a layer for each, with the cursors of the path from there, or none for
a file that can no longer match anything.
-/

namespace Ferret.Policy

open List Option

/-! ## The tables -/

namespace Lists

/-- The rule is in the table. -/
def Has (lists : Lists) (rule : Rule) : Prop := ∃ key, (key, rule) ∈ lists.rules

/-- **One rule for an id, one list for a key.** -/
structure Valid (lists : Lists) : Prop where
  keys : ∀ key rule, (key, rule) ∈ lists.rules → rule.pattern.text = key.1 ∧ rule.band = key.2
  below : ∀ rule, lists.Has rule → rule.id < lists.rules.length
  ids : (lists.rules.map fun entry => entry.2.id).Nodup
  lists : ∀ key list, (key, list) ∈ lists.lists →
    ∃ rules, (∀ r ∈ rules, lists.Has r) ∧ key = rules.map (·.id) ∧ list = RuleList.compile rules

theorem valid_default : Valid default := by
  constructor <;> simp [default, Has]

variable {lists : Lists}

theorem Valid.rule_inj (h : lists.Valid) {r r' : Rule} (hr : lists.Has r) (hr' : lists.Has r')
    (hid : r.id = r'.id) : r = r' := by
  obtain ⟨_, hmem⟩ := hr
  obtain ⟨_, hmem'⟩ := hr'
  have := inj_on_of_nodup_map h.ids hmem hmem' hid
  exact congrArg Prod.snd this

theorem Valid.rules_inj (h : lists.Valid) {rules rules' : List Rule}
    (hrules : ∀ r ∈ rules, lists.Has r) (hrules' : ∀ r ∈ rules', lists.Has r)
    (hids : rules.map (·.id) = rules'.map (·.id)) : rules = rules' := by
  induction rules generalizing rules' with
  | nil => exact (map_eq_nil_iff.mp hids.symm).symm
  | cons r rules ih =>
    cases rules' with
    | nil => simp at hids
    | cons r' rules' =>
      obtain ⟨hid, hids⟩ := List.cons.inj hids
      rw [h.rule_inj (hrules r (mem_cons_self ..)) (hrules' r' (mem_cons_self ..)) hid,
        ih (fun s hs => hrules s (.tail _ hs))
          (fun s hs => hrules' s (.tail _ hs)) hids]

theorem mem_of_lookup {α β : Type} [BEq α] [LawfulBEq α] {l : List (α × β)} {a : α} {b : β}
    (h : l.lookup a = some b) : (a, b) ∈ l := by
  obtain ⟨_, _, rfl, -⟩ := lookup_eq_some_iff.mp h
  simp

/-- `lists'` is a valid table with all the rules of `lists`. -/
structure Extends (lists lists' : Lists) : Prop where
  valid : lists'.Valid
  has : ∀ r, lists.Has r → lists'.Has r

theorem Valid.extends_self (h : lists.Valid) : lists.Extends lists := ⟨h, fun _ => id⟩

theorem Extends.trans {lists' lists'' : Lists} (h : lists.Extends lists')
    (h' : lists'.Extends lists'') : lists.Extends lists'' :=
  ⟨h'.valid, fun r hr => h'.has r (h.has r hr)⟩

/-- **The rule asked for is in the table, and stands for the pattern.** -/
theorem Valid.rule (h : lists.Valid) (q : Pattern) (band : Band) :
    (lists.rule q band).1.Stands (lists.rule q band).2.Has band q ∧
      lists.Extends (lists.rule q band).2 := by
  unfold Lists.rule
  cases hlookup : lists.rules.lookup (q.text, band) with
  | some rule =>
    have hmem := mem_of_lookup hlookup
    obtain ⟨htext, hband⟩ := h.keys _ _ hmem
    exact ⟨⟨⟨_, hmem⟩, htext, hband⟩, h.extends_self⟩
  | none =>
    have hgrow : ∀ r, lists.Has r →
        (⟨((q.text, band), ⟨lists.rules.length, q, band⟩) :: lists.rules, lists.lists⟩ : Lists).Has r :=
      fun r ⟨key, hmem⟩ => ⟨key, .tail _ hmem⟩
    refine ⟨⟨⟨_, .head _⟩, rfl, rfl⟩, ⟨?_, ?_, ?_, ?_⟩, hgrow⟩
    · intro key rule hmem
      rcases mem_cons.mp hmem with heq | hmem
      · cases heq
        exact ⟨rfl, rfl⟩
      · exact h.keys key rule hmem
    · rintro rule ⟨key, hmem⟩
      rw [length_cons]
      rcases mem_cons.mp hmem with heq | hmem
      · cases heq
        exact Nat.lt_succ_self _
      · exact Nat.lt_succ_of_lt (h.below rule ⟨key, hmem⟩)
    · rw [map_cons, nodup_cons]
      refine ⟨fun hmem => ?_, h.ids⟩
      obtain ⟨⟨key, rule⟩, hmem, hid⟩ := List.mem_map.mp hmem
      exact absurd hid (h.below rule ⟨key, hmem⟩).ne
    · intro key list hmem
      obtain ⟨rules, hrules, hkey, hlist⟩ := h.lists key list hmem
      exact ⟨rules, fun r hr => hgrow r (hrules r hr), hkey, hlist⟩

/-- **The list asked for is that of its rules.** -/
theorem Valid.list (h : lists.Valid) {rules : List Rule} (hrules : ∀ r ∈ rules, lists.Has r) :
    (lists.list (rules.map (·.id)) rules).1 = RuleList.compile rules ∧
      lists.Extends (lists.list (rules.map (·.id)) rules).2 := by
  unfold Lists.list
  cases hlookup : lists.lists.lookup (rules.map (·.id)) with
  | some list =>
    obtain ⟨_, hrules', hkey, rfl⟩ := h.lists _ _ (mem_of_lookup hlookup)
    exact ⟨by rw [h.rules_inj hrules hrules' hkey], h.extends_self⟩
  | none =>
    refine ⟨rfl, ⟨h.keys, h.below, h.ids, ?_⟩, fun _ => id⟩
    intro key list hmem
    rcases mem_cons.mp hmem with heq | hmem
    · cases heq
      exact ⟨rules, hrules, rfl, rfl⟩
    · exact h.lists key list hmem

theorem Valid.list_of (h : lists.Valid) {state : State} (hrules : ∀ r ∈ state.rules, lists.Has r)
    (parent : Option RuleList)
    (hparent : ∀ list, parent = some list →
      ∃ rules, (∀ r ∈ rules, lists.Has r) ∧ list = RuleList.compile rules) :
    (lists.list_of state parent).1 = RuleList.compile state.rules ∧
      lists.Extends (lists.list_of state parent).2 := by
  unfold Lists.list_of
  cases parent with
  | none => exact h.list hrules
  | some list =>
    obtain ⟨rules, hhas, rfl⟩ := hparent list rfl
    simp only
    split
    · rename_i hkey
      have heq : rules = state.rules := h.rules_inj hhas hrules hkey
      exact ⟨by rw [heq], h.extends_self⟩
    · exact h.list hrules

end Lists

/-! ## Compiling a file -/

variable {table' : Rule → Prop} {band : Band} {work_tree : Bool} {table : Rule → Prop}

theorem Rule.Stands.mono {rule : Rule} {q : Pattern} (h : rule.Stands table band q)
    (hle : ∀ r, table r → table' r) : rule.Stands table' band q :=
  ⟨hle _ h.mem, h.text, h.band_eq⟩

theorem stands_mono {rules : List (Option Rule)} {projections : List (Option Pattern)}
    (h : List.Forall₂ (Option.Rel (Rule.Stands table band)) rules projections)
    (hle : ∀ r, table r → table' r) :
    List.Forall₂ (Option.Rel (Rule.Stands table' band)) rules projections := by
  refine h.imp fun _ _ hrel => ?_
  cases hrel with
  | none => exact .none
  | some hrule => exact .some (hrule.mono hle)

variable {shared : List (ℕ × Rule)}

theorem Compiled.mono {ps : List Pattern} {anchored : List Anchored}
    (h : Compiled table band ps shared anchored) (hle : ∀ r, table r → table' r) :
    Compiled table' band ps shared anchored := by
  induction h with
  | nil => exact .nil
  | shared hp hq hrule _ ih => exact .shared hp hq (hrule.mono hle) ih
  | vain hp hq _ ih => exact .vain hp hq ih
  | anchored hp hprojections _ ih =>
    exact .anchored hp (stands_mono hprojections hle) ih

variable {lists : Lists}

theorem intern_projections_spec (h : lists.Valid) (band : Band)
    (projections : List (Option Pattern)) :
    let (rules, lists') := intern_projections band projections lists
    List.Forall₂ (Option.Rel (Rule.Stands lists'.Has band)) rules projections ∧
      lists.Extends lists' := by
  induction projections generalizing lists with
  | nil => exact ⟨.nil, h.extends_self⟩
  | cons projected projections ih =>
    cases projected with
    | none =>
      obtain ⟨hrules, hextends⟩ := ih h
      exact ⟨.cons .none hrules, hextends⟩
    | some q =>
      obtain ⟨hrule, hfirst⟩ := h.rule q band
      obtain ⟨hrules, hrest⟩ := ih hfirst.valid
      exact ⟨.cons (.some (hrule.mono hrest.has)) hrules, hfirst.trans hrest⟩

theorem compile_patterns_spec (h : lists.Valid) (band : Band) (ps : List Pattern) :
    let (source, lists') := compile_patterns band ps lists
    Compiled lists'.Has band ps source.shared source.anchored ∧ lists.Extends lists' := by
  induction ps generalizing lists with
  | nil => exact ⟨.nil, h.extends_self⟩
  | cons p ps ih =>
    simp only [compile_patterns]
    split
    · rename_i hshared
      split
      · rename_i q hq
        obtain ⟨hrule, hfirst⟩ := h.rule q band
        obtain ⟨hrest, hextends⟩ := ih hfirst.valid
        exact ⟨.shared hshared hq (hrule.mono hextends.has) hrest, hfirst.trans hextends⟩
      · rename_i hvain
        obtain ⟨hrest, hextends⟩ := ih h
        exact ⟨.vain hshared (fun q hq => hvain q hq) hrest, hextends⟩
    · rename_i hanchored
      have hprojections := intern_projections_spec h band p.projections
      obtain ⟨hrules, hfirst⟩ := hprojections
      obtain ⟨hrest, hextends⟩ := ih hfirst.valid
      exact ⟨.anchored (by simpa using hanchored) (stands_mono hrules hextends.has) hrest,
        hfirst.trans hextends⟩

theorem index_of_compile {index : ℕ} {original : Bytes} {p : Pattern}
    (h : Pattern.compile index original = .ok (some p)) : p.index = index := by
  unfold Pattern.compile Pattern.compile_syntax at h
  simp only at h
  split at h
  · cases h
  · split at h
    · cases h
    · cases hparsed : split_components (if (trim_trailing_spaces original).head? = some (byte '!')
        then (trim_trailing_spaces original).tail else trim_trailing_spaces original) with
      | error e => simp [hparsed, bind, Except.bind] at h
      | ok _ =>
        simp only [hparsed, bind, Except.bind] at h
        split at h
        · cases h
        · split at h
          · cases h
          · cases h
            rfl

theorem line_of_line_pattern {original : Bytes} {index : ℕ} {p : Pattern}
    (h : line_pattern original index = some p) : p.line = index := by
  unfold line_pattern at h
  split at h
  · rename_i heq
    exact index_of_compile (h ▸ heq)
  · simp at h

/-- The lines of a file are in order. -/
theorem pairwise_parse (text : Bytes) : (parse text).1.Pairwise fun p q => p.line < q.line := by
  have hindex : (lines text).zipIdx.Pairwise fun a b => a.2 < b.2 :=
    pairwise_iff_getElem.mpr fun i j hi hj hij => by simpa using hij
  refine hindex.filterMap _ fun a b hab p hp q hq => ?_
  rw [line_of_line_pattern hp, line_of_line_pattern hq]
  exact hab

/-! ## The files in force -/

/-- **Some files of one band are in force**, closest first, each with the path
from its directory: a layer for each, in order, except for those that can no
longer match. -/
inductive InForce (table : Rule → Prop) (band : Band) :
    List (List Name × Bytes) → List Layer → Prop
  | nil : InForce table band [] []
  | keep {path text files layer layers} : Layer.Holds table band (parse text).1 path layer →
    InForce table band files layers → InForce table band ((path, text) :: files) (layer :: layers)
  | drop {path text files layers} : Dead (parse text).1 path → InForce table band files layers →
    InForce table band ((path, text) :: files) layers

namespace InForce

variable {table table' : Rule → Prop} {band : Band} {files more : List (List Name × Bytes)}
  {layers layers' : List Layer}

theorem mono (h : InForce table band files layers) (hle : ∀ r, table r → table' r) :
    InForce table' band files layers := by
  induction h with
  | nil => exact .nil
  | keep hl _ ih => exact .keep ⟨hl.compiled.mono hle, hl.lines, hl.cursors⟩ ih
  | drop hdead _ ih => exact .drop hdead ih

theorem append (h : InForce table band files layers) (h' : InForce table band more layers') :
    InForce table band (files ++ more) (layers ++ layers') := by
  induction h with
  | nil => exact h'
  | keep hl _ ih => exact .keep hl ih
  | drop hdead _ ih => exact .drop hdead ih

/-- The files in the child directory. -/
def moved (name : Name) (files : List (List Name × Bytes)) : List (List Name × Bytes) :=
  files.map fun file => (file.1 ++ [name], file.2)

theorem stepped (h : InForce table band files layers) (name : Name) :
    InForce table band (moved name files) (layers.filterMap (State.move name)) := by
  induction h with
  | nil => exact .nil
  | @keep _ _ files layer layers hl _ ih =>
    have hnext := hl.stepped name
    cases hlive : State.move name layer with
    | none =>
      rw [filterMap_cons_none hlive]
      exact .drop (hnext.dead hlive) ih
    | some _ =>
      rw [filterMap_cons_some hlive, Layer.live_eq_some hlive]
      exact .keep hnext ih
  | drop hdead _ ih => exact .drop (hdead.stepped name) ih

theorem unchanged (h : InForce table band files layers) {name : Name}
    (hsame : ∀ layer ∈ layers, layer.stepped name = none) :
    InForce table band (moved name files) layers := by
  induction h with
  | nil => exact .nil
  | @keep _ _ files layer layers hl _ ih =>
    have hnext := hl.stepped name
    rw [hsame layer (mem_cons_self ..)] at hnext
    exact .keep hnext (ih fun l hl => hsame l (.tail _ hl))
  | drop hdead _ ih => exact .drop (hdead.stepped name) (ih hsame)

/-- **The layers say what the files do.** -/
theorem findSome?_answer (h : InForce table band files layers) (name : Name) (is_dir : Bool) :
    layers.findSome? (fun layer => answer layer.rules name is_dir) =
      files.findSome? fun file => last_line band (parse file.2).1 (file.1 ++ [name]) is_dir := by
  induction h with
  | nil => rfl
  | keep hl _ ih => rw [findSome?_cons, findSome?_cons, hl.answer_rules, ih]
  | drop hdead _ ih => rw [findSome?_cons, hdead.last_line, ih]

end InForce

/-! ## What gitignore's rules say -/

/-- **The way to a directory**: a root's ignore files, and the name and ignore
files of each directory entered from there. -/
inductive Trail where
  | root (files : IgnoreFiles)
  | enter (parent : Trail) (name : Name) (files : IgnoreFiles)

variable (global : Option Bytes) (t : Trail)

namespace Trail

/-- A file of this directory, which is so far above the entry's. -/
def own (text : Option Bytes) (below : List Name) : List (List Name × Bytes) :=
  text.toList.map fun text => (below, text)

/-- The files of one name on the way, closest directory first, each with the
path from its directory. -/
def files (select : IgnoreFiles → Option Bytes) : Trail → List Name → List (List Name × Bytes)
  | root files, below => own (select files) below
  | enter parent name files, below =>
    own (select files) below ++ parent.files select (name :: below)

def in_work_tree : Trail → Bool
  | root files => files.git_root
  | enter parent _ files => files.git_root || parent.in_work_tree

/-- The `.gitignore` files of the innermost work tree, closest first. -/
def gitignores : Trail → List Name → List (List Name × Bytes)
  | root files, below => if files.git_root then own files.gitignore below else []
  | enter parent name files, below =>
    if files.git_root then own files.gitignore below
    else if parent.in_work_tree then
      own files.gitignore below ++ parent.gitignores (name :: below)
    else []

/-- The exclude file of the innermost work tree. -/
def exclude : Trail → List Name → List (List Name × Bytes)
  | root files, below => if files.git_root then own files.git_exclude below else []
  | enter parent name files, below =>
    if files.git_root then own files.git_exclude below else parent.exclude (name :: below)

/-- The user's global file, which is as far up as the root. -/
def globals (global : Option Bytes) : Trail → List Name → List (List Name × Bytes)
  | root _, below => own global below
  | enter parent name _, below => parent.globals global (name :: below)

/-- **The files in force, highest precedence first.** -/
def ranked (global : Option Bytes) (t : Trail) : List (Band × List Name × Bytes) :=
  (t.files (·.ferretignore) []).map (Band.ferret, ·) ++
    (t.files (·.rgignore) []).map (Band.repo, ·) ++
    (t.files (·.ignore) []).map (Band.repo, ·) ++
    (t.gitignores []).map (Band.repo, ·) ++
    (t.exclude []).map (Band.repo, ·) ++
    (t.globals global []).map (Band.global, ·)

/-- **What the rules say of an entry of the directory**: of the files in force,
in the order of their precedence, the last line that matches the entry's path
from the file's directory on; whether it whitelists, and whether it is a
`.ferretignore`'s. -/
noncomputable def reference (global : Option Bytes) (t : Trail) (name : Name) (is_dir : Bool) :
    Option (Bool × Bool) :=
  (t.ranked global).findSome? fun file =>
    last_line file.1 (parse file.2.2).1 (file.2.1 ++ [name]) is_dir

theorem own_append (text : Option Bytes) (below more : List Name) :
    own text (below ++ more) = (own text below).map fun file => (file.1 ++ more, file.2) := by
  simp [own]

theorem files_append (select : IgnoreFiles → Option Bytes) (t : Trail) (below more : List Name) :
    t.files select (below ++ more) =
      (t.files select below).map fun file => (file.1 ++ more, file.2) := by
  induction t generalizing below with
  | root files => exact own_append ..
  | enter _ _ files ih =>
    rw [Trail.files, Trail.files, own_append, ← cons_append, ih, map_append]

theorem gitignores_append (below more : List Name) :
    t.gitignores (below ++ more) =
      (t.gitignores below).map fun file => (file.1 ++ more, file.2) := by
  induction t generalizing below with
  | root files =>
    simp only [gitignores, own_append]
    split <;> simp
  | enter _ _ files ih =>
    simp only [gitignores, own_append, ← cons_append, ih]
    split
    · rfl
    · split <;> simp

theorem exclude_append (below more : List Name) :
    t.exclude (below ++ more) = (t.exclude below).map fun file => (file.1 ++ more, file.2) := by
  induction t generalizing below with
  | root files =>
    simp only [exclude, own_append]
    split <;> simp
  | enter _ _ files ih =>
    simp only [exclude, own_append, ← cons_append, ih]
    split <;> rfl

theorem globals_append (below more : List Name) :
    t.globals global (below ++ more) =
      (t.globals global below).map fun file => (file.1 ++ more, file.2) := by
  induction t generalizing below with
  | root files => exact own_append ..
  | enter _ _ files ih => rw [globals, globals, ← cons_append, ih]

end Trail

/-! ## States -/

theorem mem_merge_rules {source : Source} {cursors : List Cursor} {r : Rule}
    (h : r ∈ Layer.merge_rules source shared cursors) :
    (∃ e ∈ shared, e.2 = r) ∨ ∃ a ∈ source.anchored, some r ∈ a.projections := by
  induction cursors generalizing shared with
  | nil =>
    obtain ⟨e, he, rfl⟩ := List.mem_map.mp h
    exact .inl ⟨e, he, rfl⟩
  | cons c cursors ih =>
    rw [Layer.merge_rules] at h
    cases hslot : source.anchored[c.slot]? with
    | none =>
      rw [hslot] at h
      exact ih h
    | some a =>
      simp only [hslot, mem_append, List.mem_map] at h
      rcases h with (⟨e, he, rfl⟩ | h) | h
      · exact .inl ⟨e, (takeWhile_sublist _).mem he, rfl⟩
      · refine .inr ⟨a, mem_of_getElem? hslot, ?_⟩
        have hsome := mem_toList.mp h
        exact mem_of_getElem? (join_eq_some_iff.mp hsome)
      · rcases ih h with ⟨e, he, rfl⟩ | h
        · exact .inl ⟨e, (dropWhile_sublist _).mem he, rfl⟩
        · exact .inr h

theorem Compiled.rules {ps : List Pattern} {anchored : List Anchored}
    (h : Compiled table band ps shared anchored) :
    (∀ e ∈ shared, table e.2 ∧ e.2.band = band) ∧
      ∀ a ∈ anchored, ∀ r, some r ∈ a.projections → table r ∧ r.band = band := by
  induction h with
  | nil => simp
  | shared _ _ hrule _ ih =>
    refine ⟨fun e he => ?_, ih.2⟩
    rcases mem_cons.mp he with rfl | he
    · exact ⟨hrule.mem, hrule.band_eq⟩
    · exact ih.1 e he
  | vain _ _ _ ih => exact ih
  | @anchored p _ _ _ _ _ _ hprojections _ ih =>
    refine ⟨ih.1, fun a ha r hr => ?_⟩
    rcases mem_cons.mp ha with rfl | ha
    · obtain ⟨i, hi⟩ := mem_iff_getElem?.mp hr
      have hrel := forall₂_getElem? hprojections i
      rw [hi, join_some] at hrel
      generalize (p.projections[i]?).join = q at hrel
      cases hrel with
      | some hrule => exact ⟨hrule.mem, hrule.band_eq⟩
    · exact ih.2 a ha r hr

theorem InForce.rules {files : List (List Name × Bytes)} {layers : List Layer}
    (h : InForce table band files layers) :
    ∀ layer ∈ layers, ∀ r ∈ layer.rules, table r ∧ r.band = band := by
  induction h with
  | nil => simp
  | keep hl _ ih =>
    intro layer hlayer r hr
    rcases mem_cons.mp hlayer with rfl | hlayer
    · rcases mem_merge_rules hr with ⟨e, he, rfl⟩ | ⟨a, ha, hr⟩
      · exact hl.compiled.rules.1 e he
      · exact hl.compiled.rules.2 a ha r hr
    · exact ih layer hlayer r hr
  | drop _ _ ih => exact ih

/-- The ignore files in force in a directory, closest first. -/
structure Forces where
  global : List (List Name × Bytes)
  gitignores : List (List Name × Bytes)
  exclude : List (List Name × Bytes)
  ignore : List (List Name × Bytes)
  rgignore : List (List Name × Bytes)
  ferret : List (List Name × Bytes)
  work_tree : Bool

/-- **A state is that of some ignore files.** -/
structure State.Holds (table : Rule → Prop) (f : Forces) (s : State) : Prop where
  global : InForce table .global f.global s.global.toList
  work_tree : s.git.isSome = f.work_tree
  gitignores : ∀ tree, s.git = some tree → InForce table .repo f.gitignores tree.ignores.reverse
  exclude : ∀ tree, s.git = some tree → InForce table .repo f.exclude tree.exclude.toList
  ignore : InForce table .repo f.ignore s.ignore.reverse
  rgignore : InForce table .repo f.rgignore s.rgignore.reverse
  ferret : InForce table .ferret f.ferret s.ferret.reverse

namespace Forces

/-- The files in force in a child that has none of its own. -/
def moved (f : Forces) (name : Name) (git_root : Bool) : Forces where
  global := InForce.moved name f.global
  gitignores := InForce.moved name f.gitignores
  exclude := InForce.moved name f.exclude
  ignore := InForce.moved name f.ignore
  rgignore := InForce.moved name f.rgignore
  ferret := InForce.moved name f.ferret
  work_tree := f.work_tree && !git_root

/-- The files in force with those of the directory itself. -/
def add (f : Forces) (files : IgnoreFiles) : Forces where
  global := f.global
  gitignores :=
    if files.git_root then Trail.own files.gitignore []
    else if f.work_tree then Trail.own files.gitignore [] ++ f.gitignores
    else []
  exclude := if files.git_root then Trail.own files.git_exclude [] else f.exclude
  ignore := Trail.own files.ignore [] ++ f.ignore
  rgignore := Trail.own files.rgignore [] ++ f.rgignore
  ferret := Trail.own files.ferretignore [] ++ f.ferret
  work_tree := files.git_root || f.work_tree

end Forces

/-- The files in force on a trail. -/
def Trail.forces (global : Option Bytes) (t : Trail) : Forces where
  global := t.globals global []
  gitignores := t.gitignores []
  exclude := t.exclude []
  ignore := t.files (·.ignore) []
  rgignore := t.files (·.rgignore) []
  ferret := t.files (·.ferretignore) []
  work_tree := t.in_work_tree

theorem Trail.forces_enter (name : Name) (files : IgnoreFiles) :
    (Trail.enter t name files).forces global =
      ((t.forces global).moved name files.git_root).add files := by
  have hglobals := t.globals_append global [] [name]
  have hgitignores := t.gitignores_append [] [name]
  have hexclude := t.exclude_append [] [name]
  have hfiles := fun select => t.files_append select [] [name]
  simp only [nil_append] at hglobals hgitignores hexclude hfiles
  simp only [forces, Trail.files, gitignores, exclude, globals, in_work_tree, Forces.add,
    Forces.moved, InForce.moved, hglobals, hgitignores, hexclude, hfiles]
  cases files.git_root <;> simp

theorem Trail.forces_outside (h : t.in_work_tree = false) :
    (t.forces global).gitignores = [] ∧ (t.forces global).exclude = [] := by
  suffices hsuff : ∀ below, t.gitignores below = [] ∧ t.exclude below = [] from hsuff []
  intro below
  induction t generalizing below with
  | root files =>
    have hroot : files.git_root = false := h
    simp [gitignores, exclude, hroot]
  | enter _ name files ih =>
    obtain ⟨hroot, hparent⟩ := Bool.or_eq_false_iff.mp h
    simp [gitignores, exclude, hroot, hparent, (ih hparent (name :: below)).2]

namespace State.Holds

variable {table table' : Rule → Prop} {f : Forces} {s : State}

theorem mono (h : s.Holds table f) (hle : ∀ r, table r → table' r) : s.Holds table' f :=
  ⟨h.global.mono hle, h.work_tree, fun tree ht => (h.gitignores tree ht).mono hle,
    fun tree ht => (h.exclude tree ht).mono hle, h.ignore.mono hle, h.rgignore.mono hle,
    h.ferret.mono hle⟩

/-- The layers below ferret's own, lowest precedence first. -/
def lower (s : State) : List Layer :=
  s.global.toList ++ (s.git.toList.flatMap fun tree => tree.exclude.toList ++ tree.ignores) ++
    s.ignore ++ s.rgignore

theorem rules_lower (h : s.Holds table f) {layer : Layer} (hlayer : layer ∈ lower s) :
    ∀ r ∈ layer.rules, table r ∧ r.band ≠ .ferret := by
  have hband : ∀ {band files layers}, band ≠ Band.ferret → InForce table band files layers →
      layer ∈ layers → ∀ r ∈ layer.rules, table r ∧ r.band ≠ .ferret := by
    intro band files layers hne hin hmem r hr
    obtain ⟨htable, hband⟩ := hin.rules layer hmem r hr
    exact ⟨htable, hband ▸ hne⟩
  simp only [lower, mem_append, mem_flatMap] at hlayer
  rcases hlayer with ((hlayer | ⟨tree, htree, hlayer | hlayer⟩) | hlayer) | hlayer
  · exact hband (by simp) h.global hlayer
  · exact hband (by simp) (h.exclude tree (mem_toList.mp htree)) hlayer
  · exact hband (by simp) (h.gitignores tree (mem_toList.mp htree)) (mem_reverse.mpr hlayer)
  · exact hband (by simp) h.ignore (mem_reverse.mpr hlayer)
  · exact hband (by simp) h.rgignore (mem_reverse.mpr hlayer)

theorem rules_ferret (h : s.Holds table f) {layer : Layer} (hlayer : layer ∈ s.ferret) :
    ∀ r ∈ layer.rules, table r ∧ r.band = .ferret :=
  h.ferret.rules layer (mem_reverse.mpr hlayer)

theorem rules_eq (s : State) :
    s.rules = (lower s).flatMap Layer.rules ++ s.ferret.flatMap Layer.rules := by
  rw [State.rules, State.layers, flatMap_append]
  rfl

theorem rules_mem (h : s.Holds table f) : ∀ r ∈ s.rules, table r := by
  intro r hr
  rw [rules_eq, mem_append, mem_flatMap, mem_flatMap] at hr
  rcases hr with ⟨layer, hlayer, hr⟩ | ⟨layer, hlayer, hr⟩
  · exact (h.rules_lower hlayer r hr).1
  · exact (h.rules_ferret hlayer r hr).1

/-- **The compiled list of a state says what its rules do.** -/
theorem last_match (h : s.Holds table f) (name : Bytes) (is_dir : Bool) :
    (RuleList.compile s.rules).last_match name is_dir = answer s.rules name is_dir := by
  rw [rules_eq]
  refine last_match_compile (fun r hr => ?_) (fun r hr => ?_) name is_dir
  · obtain ⟨layer, hlayer, hr⟩ := mem_flatMap.mp hr
    exact (h.rules_lower hlayer r hr).2
  · obtain ⟨layer, hlayer, hr⟩ := mem_flatMap.mp hr
    exact (h.rules_ferret hlayer r hr).2

/-- **A state's rules say what the files in force say.** -/
theorem answer_rules {global : Option Bytes} {t : Trail} (h : s.Holds table (t.forces global))
    (name : Name) (is_dir : Bool) : answer s.rules name is_dir = t.reference global name is_dir := by
  have htree : (s.git.toList.flatMap fun tree => tree.exclude.toList ++ tree.ignores).reverse.findSome?
      (fun layer => answer layer.rules name is_dir) =
      ((t.gitignores []).findSome? fun file =>
          last_line .repo (parse file.2).1 (file.1 ++ [name]) is_dir).or
        ((t.exclude []).findSome? fun file =>
          last_line .repo (parse file.2).1 (file.1 ++ [name]) is_dir) := by
    cases hgit : s.git with
    | none =>
      have houtside := t.forces_outside global (by
        rw [← show s.git.isSome = t.in_work_tree from h.work_tree, hgit]
        rfl)
      rw [show t.gitignores [] = [] from houtside.1, show t.exclude [] = [] from houtside.2]
      rfl
    | some tree =>
      have hignores := (h.gitignores tree hgit).findSome?_answer name is_dir
      have hexclude := (h.exclude tree hgit).findSome?_answer name is_dir
      have hreverse : tree.exclude.toList.reverse = tree.exclude.toList := by
        cases tree.exclude <;> rfl
      rw [toList_some, flatMap_singleton, reverse_append, findSome?_append,
        hreverse, hignores, hexclude]
      rfl
  have hglobal : s.global.toList.reverse = s.global.toList := by
    cases s.global <;> rfl
  rw [State.rules, answer_flatMap, State.layers, Trail.reference, Trail.ranked]
  simp only [reverse_append, findSome?_append, findSome?_map, Function.comp_def,
    hglobal, h.global.findSome?_answer name is_dir, h.ignore.findSome?_answer name is_dir,
    h.rgignore.findSome?_answer name is_dir, h.ferret.findSome?_answer name is_dir, htree]
  simp only [Trail.forces, Option.or_assoc]

theorem moved (h : s.Holds table f) (name : Name) :
    (s.moved name).Holds table (f.moved name false) := by
  have hreverse : ∀ {layers : List Layer}, (layers.filterMap (State.move name)).reverse =
      layers.reverse.filterMap (State.move name) := (filterMap_reverse).symm
  have hbind : ∀ {layer : Option Layer}, (layer.bind (State.move name)).toList =
      layer.toList.filterMap (State.move name) := by
    intro layer
    cases layer with
    | none => rfl
    | some layer => cases hmove : State.move name layer <;> simp [hmove]
  refine ⟨?_, by simp [State.moved, Forces.moved, h.work_tree], ?_, ?_, ?_, ?_, ?_⟩
  · simp only [State.moved, hbind]
    exact h.global.stepped name
  · intro tree htree
    obtain ⟨tree', htree', rfl⟩ := map_eq_some_iff.mp htree
    simp only [hreverse]
    exact (h.gitignores tree' htree').stepped name
  · intro tree htree
    obtain ⟨tree', htree', rfl⟩ := map_eq_some_iff.mp htree
    simp only [hbind]
    exact (h.exclude tree' htree').stepped name
  · simp only [State.moved, hreverse]
    exact h.ignore.stepped name
  · simp only [State.moved, hreverse]
    exact h.rgignore.stepped name
  · simp only [State.moved, hreverse]
    exact h.ferret.stepped name

theorem unchanged (h : s.Holds table f) {name : Name}
    (hsame : ∀ layer ∈ s.layers, layer.stepped name = none) :
    s.Holds table (f.moved name false) := by
  simp only [State.layers, mem_append, mem_flatMap, mem_toList] at hsame
  refine ⟨h.global.unchanged fun l hl => hsame l ?_, by simp [Forces.moved, h.work_tree],
    fun tree htree => (h.gitignores tree htree).unchanged fun l hl => hsame l ?_,
    fun tree htree => (h.exclude tree htree).unchanged fun l hl => hsame l ?_,
    h.ignore.unchanged fun l hl => hsame l ?_, h.rgignore.unchanged fun l hl => hsame l ?_,
    h.ferret.unchanged fun l hl => hsame l ?_⟩
  all_goals simp_all

/-- **A state moved into a child is that of the files in force there**, its own
apart. -/
theorem stepped (h : s.Holds table f) (name : Name) (git_root : Bool) :
    ((s.stepped name git_root).getD s).Holds table (f.moved name git_root) := by
  have hgoes : (if (s.layers.any fun layer => (layer.stepped name).isSome) then s.moved name
      else s).Holds table (f.moved name false) := by
    split
    · exact h.moved name
    · rename_i hsame
      exact h.unchanged (by simpa using hsame)
  unfold State.stepped
  simp only
  split
  · rename_i hroot
    obtain ⟨hroot, -⟩ := Bool.and_eq_true_iff.mp hroot
    exact ⟨hgoes.global, by simp [Forces.moved, hroot], by simp, by simp, hgoes.ignore,
      hgoes.rgignore, hgoes.ferret⟩
  · rename_i hroot
    have hwork : (f.work_tree && !git_root) = (f.work_tree && !false) := by
      rw [← h.work_tree]
      cases git_root <;> cases hgit : s.git.isSome <;> simp_all
    have hsame : f.moved name git_root = f.moved name false := by
      rw [Forces.moved, hwork]
      rfl
    rw [hsame]
    split <;> simp_all

end State.Holds

/-! ## Directories -/

/-- At the file's own directory each anchored pattern has one cursor, at its
start. -/
theorem cursorsFrom_nil (slot : ℕ) (anchored : List Anchored) :
    cursorsFrom slot anchored [] =
      (List.range' slot anchored.length).map fun slot => ⟨slot, 0, false⟩ := by
  induction anchored generalizing slot with
  | nil => rfl
  | cons a anchored ih =>
    rw [cursorsFrom_cons, ih, length_cons, range'_succ, map_cons]
    rfl

variable {c : Compiling}

/-- Compiling a file puts it in force. -/
theorem Layer.compile_spec (h : c.lists.Valid) (file : IgnoreFile) (text : Option Bytes)
    (band : Band) :
    c.lists.Extends (Layer.compile file text band c).2.lists ∧
      InForce (Layer.compile file text band c).2.lists.Has band (Trail.own text [])
        (Layer.compile file text band c).1.toList := by
  cases text with
  | none => exact ⟨h.extends_self, .nil⟩
  | some text =>
    obtain ⟨hcompiled, hextends⟩ := compile_patterns_spec h band (parse text).1
    have hholds : (Layer.compile_text text band c.lists).1.1.Holds
        (compile_patterns band (parse text).1 c.lists).2.Has band (parse text).1 [] := by
      refine ⟨hcompiled, pairwise_parse text, ?_⟩
      rw [cursorsFrom_nil, ← range_eq_range']
      rfl
    refine ⟨hextends, ?_⟩
    show InForce _ band [([], text)] (Layer.compile_text text band c.lists).1.1.live.toList
    cases hlive : (Layer.compile_text text band c.lists).1.1.live with
    | none => exact .drop (hholds.dead hlive) .nil
    | some _ =>
      rw [Layer.live_eq_some hlive]
      exact .keep hholds .nil

/-- A directory's own file comes before those above it. -/
theorem InForce.extend {files own : List (List Name × Bytes)} {layers : List Layer}
    {layer : Option Layer} (h : InForce table band files layers.reverse)
    (hle : ∀ r, table r → table' r) (hown : InForce table' band own layer.toList) :
    InForce table' band (own ++ files) (layers ++ layer.toList).reverse := by
  have hreverse : layer.toList.reverse = layer.toList := by
    cases layer <;> rfl
  rw [reverse_append, hreverse]
  exact hown.append (h.mono hle)

/-- A work tree is that of some files, if there is one. -/
structure TreeHolds (table : Rule → Prop) (gitignores exclude : List (List Name × Bytes))
    (work_tree : Bool) (git : Option WorkTree) : Prop where
  isSome : git.isSome = work_tree
  gitignores : ∀ tree, git = some tree → InForce table .repo gitignores tree.ignores.reverse
  exclude : ∀ tree, git = some tree → InForce table .repo exclude tree.exclude.toList

variable {gitignores exclude : List (List Name × Bytes)} {git : Option WorkTree}

theorem TreeHolds.mono (h : TreeHolds table gitignores exclude work_tree git)
    (hle : ∀ r, table r → table' r) :
    TreeHolds table' gitignores exclude work_tree git :=
  ⟨h.isSome, fun tree ht => (h.gitignores tree ht).mono hle,
    fun tree ht => (h.exclude tree ht).mono hle⟩

theorem start_tree_spec (h : c.lists.Valid)
    (hgit : TreeHolds c.lists.Has gitignores exclude work_tree git) (dir : List Bytes)
    (files : IgnoreFiles) :
    c.lists.Extends (State.start_tree git dir files c).2.lists ∧
      TreeHolds (State.start_tree git dir files c).2.lists.Has
        (if files.git_root then [] else gitignores)
        (if files.git_root then Trail.own files.git_exclude [] else exclude)
        (files.git_root || work_tree) (State.start_tree git dir files c).1 := by
  unfold State.start_tree
  cases hroot : files.git_root with
  | false => exact ⟨h.extends_self, by simpa using hgit⟩
  | true =>
    obtain ⟨hextends, hexclude⟩ := Layer.compile_spec h
      (.gitExclude (dir ++ [ascii ".git", ascii "info", ascii "exclude"])) files.git_exclude .repo
    refine ⟨hextends, rfl, ?_, ?_⟩
    · rintro tree htree
      cases htree
      exact .nil
    · rintro tree htree
      cases htree
      exact hexclude

theorem add_gitignore_spec (h : c.lists.Valid)
    (hgit : TreeHolds c.lists.Has gitignores exclude work_tree git) (dir : List Bytes)
    (files : IgnoreFiles) :
    c.lists.Extends (State.add_gitignore git dir files c).2.lists ∧
      TreeHolds (State.add_gitignore git dir files c).2.lists.Has
        (if work_tree then Trail.own files.gitignore [] ++ gitignores else []) exclude work_tree
        (State.add_gitignore git dir files c).1 := by
  cases git with
  | none => exact ⟨h.extends_self, hgit.isSome, by simp [State.add_gitignore], by simp [State.add_gitignore]⟩
  | some tree =>
    obtain rfl : true = work_tree := hgit.isSome
    obtain ⟨hextends, hown⟩ := Layer.compile_spec h (.git (dir ++ [ascii ".gitignore"]))
      files.gitignore .repo
    refine ⟨hextends, rfl, ?_, ?_⟩
    · rintro tree' htree
      cases htree
      exact (hgit.gitignores tree rfl).extend hextends.has hown
    · rintro tree' htree
      cases htree
      exact (hgit.exclude tree rfl).mono hextends.has

/-- **A directory's own files, added, are in force.** -/
theorem State.add_files_spec (h : c.lists.Valid) {f : Forces} {s : State}
    (hs : s.Holds c.lists.Has f) (dir : List Bytes) (files : IgnoreFiles) :
    c.lists.Extends (s.add_files dir files c).2.lists ∧
      (s.add_files dir files c).1.Holds (s.add_files dir files c).2.lists.Has (f.add files) := by
  obtain ⟨h₁, hferret⟩ := Layer.compile_spec h (.ferret (dir ++ [ascii ".ferretignore"]))
    files.ferretignore .ferret
  have htree : TreeHolds c.lists.Has f.gitignores f.exclude f.work_tree s.git :=
    ⟨hs.work_tree, hs.gitignores, hs.exclude⟩
  obtain ⟨h₂, htree⟩ := start_tree_spec h₁.valid (htree.mono h₁.has) dir files
  obtain ⟨h₃, htree⟩ := add_gitignore_spec h₂.valid htree dir files
  obtain ⟨h₄, hignore⟩ := Layer.compile_spec h₃.valid (.dot (dir ++ [ascii ".ignore"]))
    files.ignore .repo
  obtain ⟨h₅, hrgignore⟩ := Layer.compile_spec h₄.valid (.dot (dir ++ [ascii ".rgignore"]))
    files.rgignore .repo
  have h₃₅ := h₄.trans h₅
  have hall := ((h₁.trans h₂).trans h₃).trans h₃₅
  have htree := htree.mono h₃₅.has
  have hgitignores : (f.add files).gitignores =
      if files.git_root || f.work_tree then
        Trail.own files.gitignore [] ++ (if files.git_root then [] else f.gitignores)
      else [] := by
    cases hroot : files.git_root <;> simp [Forces.add, hroot]
  refine ⟨hall, hs.global.mono hall.has, htree.isSome, ?_, htree.exclude,
    hs.ignore.extend hall.has (hignore.mono h₅.has), hs.rgignore.extend hall.has hrgignore,
    hs.ferret.extend hall.has (hferret.mono ((h₂.trans h₃).trans h₃₅).has)⟩
  rw [hgitignores]
  exact htree.gitignores

/-- Files that are all absent, or are outside a work tree, add nothing. -/
theorem State.add_files_absent (s : State) (dir : List Bytes) (files : IgnoreFiles) (c : Compiling)
    (h : (files.ferretignore.isSome || files.ignore.isSome || files.rgignore.isSome ||
      files.git_root || (files.gitignore.isSome && s.git.isSome)) = false) :
    s.add_files dir files c = (s, c) := by
  simp only [Bool.or_eq_false_iff, isSome_eq_false_iff, isNone_iff_eq_none] at h
  obtain ⟨⟨⟨⟨hferret, hignore⟩, hrgignore⟩, hroot⟩, hgit⟩ := h
  have hnone : ∀ file band c, Layer.compile file none band c = (none, c) := fun _ _ _ => rfl
  have htree : State.add_gitignore s.git dir files c = (s.git, c) := by
    cases htree : s.git with
    | none => rfl
    | some _ =>
      have hgitignore : files.gitignore = none := by simpa [htree] using hgit
      simp [State.add_gitignore, hgitignore, hnone]
  simp [State.add_files, State.start_tree, hferret, hignore, hrgignore, hroot, hnone, htree]

/-- **A directory of a walk**: its state is that of the files on the way to it,
and its list that of its state. -/
structure DirRules.Holds (lists : Lists) (global : Option Bytes) (t : Trail) (d : DirRules) :
    Prop where
  state : d.state.Holds lists.Has (t.forces global)
  list : d.list = RuleList.compile d.state.rules

namespace DirRules

variable {lists : Lists} {global : Option Bytes} {t : Trail} {d : DirRules}

theorem Holds.mono {lists' : Lists} (h : d.Holds lists global t) (hext : lists.Extends lists') :
    d.Holds lists' global t := ⟨h.state.mono hext.has, h.list⟩

/-- **The answer of a directory's list is that of the rules on whole paths.** -/
theorem Holds.last_match (h : d.Holds lists global t) (name : Name) (is_dir : Bool) :
    d.list.last_match name is_dir = t.reference global name is_dir := by
  rw [h.list, h.state.last_match, h.state.answer_rules]

theorem root_spec (path : List Bytes) (global : Option Bytes) (files : IgnoreFiles) :
    (DirRules.root path global files).2.Valid ∧
      (DirRules.root path global files).1.1.Holds (DirRules.root path global files).2 global
        (.root files) := by
  obtain ⟨h₁, hglobal⟩ := Layer.compile_spec (c := ⟨Lists.default, []⟩) Lists.valid_default .global
    global .global
  have hstart : State.Holds (Layer.compile .global global .global ⟨Lists.default, []⟩).2.lists.Has
      ⟨Trail.own global [], [], [], [], [], [], false⟩
      ⟨(Layer.compile .global global .global ⟨Lists.default, []⟩).1, none, [], [], []⟩ :=
    ⟨hglobal, rfl, by simp, by simp, .nil, .nil, .nil⟩
  obtain ⟨h₂, hstate⟩ := State.add_files_spec h₁.valid hstart path files
  obtain ⟨hlist, h₃⟩ := h₂.valid.list_of hstate.rules_mem none (by simp)
  have hforces : (Trail.root files).forces global =
      Forces.add ⟨Trail.own global [], [], [], [], [], [], false⟩ files := by
    simp [Trail.forces, Forces.add, Trail.files, Trail.gitignores, Trail.exclude, Trail.globals,
      Trail.in_work_tree]
  exact ⟨h₃.valid, hforces ▸ hstate.mono h₃.has, hlist⟩

theorem Holds.enter (h : d.Holds lists global t) (hvalid : lists.Valid) (path : List Bytes)
    (name : Name) (files : IgnoreFiles) :
    lists.Extends (d.enter path name files lists).2 ∧
      (d.enter path name files lists).1.1.Holds (d.enter path name files lists).2 global
        (.enter t name files) := by
  have hstepped := h.state.stepped name files.git_root
  have hparent : ∃ rules, (∀ r ∈ rules, lists.Has r) ∧ d.list = RuleList.compile rules :=
    ⟨d.state.rules, h.state.rules_mem, h.list⟩
  have hforces := t.forces_enter global name files
  unfold DirRules.enter
  simp only
  split
  · -- Nothing changed and nothing is added: the parent's state and list are shared.
    rename_i hsame
    simp only [Bool.and_eq_true, isNone_iff_eq_none, Bool.not_eq_true'] at hsame
    obtain ⟨hnone, habsent⟩ := hsame
    rw [hnone, getD_none] at hstepped
    obtain ⟨-, hstate⟩ := State.add_files_spec (c := ⟨lists, []⟩) hvalid hstepped path files
    rw [State.add_files_absent _ _ _ _ habsent] at hstate
    exact ⟨hvalid.extends_self, hforces ▸ hstate, h.list⟩
  · obtain ⟨h₁, hstate⟩ := State.add_files_spec (c := ⟨lists, []⟩) hvalid hstepped
      (path ++ (d.path ++ [name.val])) files
    obtain ⟨hlist, h₂⟩ := h₁.valid.list_of hstate.rules_mem (some d.list) (by
      rintro _ heq
      cases heq
      obtain ⟨rules, hrules, hlist⟩ := hparent
      exact ⟨rules, fun r hr => h₁.has r (hrules r hr), hlist⟩)
    exact ⟨h₁.trans h₂, hforces ▸ hstate.mono h₂.has, hlist⟩

/-- A directory that is traversed has no files that are read. -/
theorem Holds.traverse (h : d.Holds lists global t) (hvalid : lists.Valid) (name : Name) :
    lists.Extends (d.traverse name lists).2 ∧
      (d.traverse name lists).1.Holds (d.traverse name lists).2 global
        (.enter t name .absent) := by
  have hstepped := h.state.stepped name false
  have hforces := t.forces_enter global name .absent
  obtain ⟨-, hstate⟩ := State.add_files_spec (c := ⟨lists, []⟩) hvalid hstepped [] .absent
  rw [State.add_files_absent _ _ _ _ rfl, ← show IgnoreFiles.absent.git_root = false from rfl,
    ← hforces] at hstate
  unfold DirRules.traverse
  simp only
  split
  · rename_i hnone
    rw [show IgnoreFiles.absent.git_root = false from rfl, hnone] at hstate
    exact ⟨hvalid.extends_self, hstate, h.list⟩
  · rename_i state hsome
    rw [show IgnoreFiles.absent.git_root = false from rfl, hsome] at hstate
    obtain ⟨hlist, h₂⟩ := hvalid.list_of hstate.rules_mem (some d.list) (by
      rintro _ heq
      cases heq
      exact ⟨d.state.rules, h.state.rules_mem, h.list⟩)
    exact ⟨h₂, hstate.mono h₂.has, hlist⟩

end DirRules

/-! ## Walks -/

/-- One move of a walk, into a child of a directory it has been in: one that is
entered, with its ignore files, or an excluded one that is traversed. -/
inductive Move where
  | enter (dir : ℕ) (name : Name) (files : IgnoreFiles)
  | traverse (dir : ℕ) (name : Name)

/-- **A walk of one root**: the tables, and every directory it has been in. -/
structure Walk where
  lists : Lists
  dirs : List (Trail × DirRules)

namespace Walk

def start (path : List Bytes) (global : Option Bytes) (files : IgnoreFiles) : Walk :=
  let ((d, _), lists) := DirRules.root path global files
  ⟨lists, [(.root files, d)]⟩

def step (path : List Bytes) (w : Walk) : Move → Walk
  | .enter dir name files =>
    match w.dirs[dir]? with
    | none => w
    | some (t, d) =>
      let ((d', _), lists) := d.enter path name files w.lists
      ⟨lists, w.dirs ++ [(.enter t name files, d')]⟩
  | .traverse dir name =>
    match w.dirs[dir]? with
    | none => w
    | some (t, d) =>
      let (d', lists) := d.traverse name w.lists
      ⟨lists, w.dirs ++ [(.enter t name .absent, d')]⟩

def run (path : List Bytes) (global : Option Bytes) (files : IgnoreFiles) (moves : List Move) :
    Walk :=
  moves.foldl (step path) (start path global files)

/-- The invariant of a walk. -/
structure Holds (global : Option Bytes) (w : Walk) : Prop where
  valid : w.lists.Valid
  dirs : ∀ t d, (t, d) ∈ w.dirs → d.Holds w.lists global t

theorem holds_start (path : List Bytes) (global : Option Bytes) (files : IgnoreFiles) :
    (start path global files).Holds global := by
  obtain ⟨hvalid, hroot⟩ := DirRules.root_spec path global files
  refine ⟨hvalid, fun t d hmem => ?_⟩
  obtain ⟨rfl, rfl⟩ := Prod.mk.inj (mem_singleton.mp hmem)
  exact hroot

/-- A directory more. -/
theorem Holds.add {global : Option Bytes} {w : Walk} (h : w.Holds global) {t : Trail} {d : DirRules}
    (hext : w.lists.Extends lists) (hd : d.Holds lists global t) :
    Holds global ⟨lists, w.dirs ++ [(t, d)]⟩ := by
  refine ⟨hext.valid, fun t' d' hmem => ?_⟩
  rcases mem_append.mp hmem with hmem | hmem
  · exact (h.dirs t' d' hmem).mono hext
  · obtain ⟨rfl, rfl⟩ := Prod.mk.inj (mem_singleton.mp hmem)
    exact hd

theorem Holds.step {global : Option Bytes} {w : Walk} (h : w.Holds global) (path : List Bytes)
    (move : Move) : (w.step path move).Holds global := by
  cases move with
  | enter dir name files =>
    cases hdir : w.dirs[dir]? with
    | none =>
      simp only [Walk.step, hdir]
      exact h
    | some td =>
      simp only [Walk.step, hdir]
      obtain ⟨hext, hd⟩ := (h.dirs td.1 td.2 (mem_of_getElem? hdir)).enter h.valid path name files
      exact h.add hext hd
  | traverse dir name =>
    cases hdir : w.dirs[dir]? with
    | none =>
      simp only [Walk.step, hdir]
      exact h
    | some td =>
      simp only [Walk.step, hdir]
      obtain ⟨hext, hd⟩ := (h.dirs td.1 td.2 (mem_of_getElem? hdir)).traverse h.valid name
      exact h.add hext hd

theorem Holds.foldl {global : Option Bytes} {w : Walk} (h : w.Holds global) (path : List Bytes)
    (moves : List Move) : (moves.foldl (Walk.step path) w).Holds global := by
  induction moves generalizing w with
  | nil => exact h
  | cons move moves ih => exact ih (h.step path move)

/-- **The last match of a directory's interned list is gitignore's answer for
the entry's whole path**, in every directory that a walk has been in. -/
theorem last_match_eq_reference (path : List Bytes) (global : Option Bytes) (files : IgnoreFiles)
    (moves : List Move) {t : Trail} {d : DirRules}
    (h : (t, d) ∈ (run path global files moves).dirs) (name : Name) (is_dir : Bool) :
    d.list.last_match name is_dir = t.reference global name is_dir :=
  (((holds_start path global files).foldl path moves).dirs t d h).last_match name is_dir

/-- A work tree that ignores `b` anywhere below `a`. -/
def sampleFiles : IgnoreFiles :=
  { IgnoreFiles.absent with git_root := true, gitignore := some (ascii "/a/**/b") }

/-- Into `a`, which takes its `c/b` back, and into its `c`. -/
def sampleMoves : List Move :=
  [.enter 0 ⟨ascii "a", by decide⟩ { IgnoreFiles.absent with ferretignore := some (ascii "!/c/b") },
    .enter 1 ⟨ascii "c", by decide⟩ .absent]

theorem sample_reference : ∃ t d, (run [] none sampleFiles sampleMoves).dirs[2]? = some (t, d) ∧
    t.reference none ⟨ascii "b", by decide⟩ false = some (true, true) := by
  have hlast : ((run [] none sampleFiles sampleMoves).dirs[2]?.map fun td =>
      td.2.list.last_match (ascii "b") false) = some (some (true, true)) := by decide +kernel
  obtain ⟨⟨t, d⟩, hdir, hlast⟩ := map_eq_some_iff.mp hlast
  refine ⟨t, d, hdir, ?_⟩
  rw [← last_match_eq_reference [] none sampleFiles sampleMoves (mem_of_getElem? hdir)]
  exact hlast

end Walk

end Ferret.Policy
