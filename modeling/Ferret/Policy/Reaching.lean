import Ferret.Policy.Override
import Ferret.Policy.WholePath

/-!
# What a re-include reaches

An excluded directory is walked all the same if an anchored `!` line of a
`.ferretignore` can match something below it. That is asked of the line's
cursors, one step on, and only of lines that a later exclusion of the same
components does not cancel and all of whose components can match something.

Neither restriction loses an entry: a line that matches one has no component
that cannot, and a line that is the last to match one is not cancelled, since
what cancels it would match too. And the cursors are there: the layer of a file
with a line that still can match has not been dropped.
-/

namespace Ferret.Policy

open List

/-! ## Components that can match -/

variable {text : Bytes} {path : List Name} {ps later earlier : List Pattern} {p : Pattern}
  {table : Rule → Prop} {band : Band} {name : Name} {is_dir : Bool}

theorem has_witness_of_fits {atoms : List Atom} (h : Splits Atom.Fits atoms text) :
    atoms.all Atom.has_witness = true := by
  induction atoms generalizing text with
  | nil => rfl
  | cons a atoms ih =>
    obtain ⟨u, v, -, hu, hv⟩ := Splits.cons_iff.mp h
    rw [all_cons, ih hv, Bool.and_true]
    cases a with
    | literal _ => rfl
    | any => rfl
    | star => rfl
    | oneOf c =>
      obtain ⟨b, -, _⟩ := hu
      refine any_eq_true.mpr ⟨b.toNat, mem_range.mpr b.toNat_lt, ?_⟩
      rwa [UInt8.ofNat_toNat]

/-- **A component that matches something can.** -/
theorem has_witness_of_spans {components : List Component}
    (h : Spans components path) : components.all Component.has_witness = true := by
  have hfits : ∀ {c : Component} {last : Bool} {piece : List Name},
      Component.Fits (c, last) piece → c.has_witness = true := by
    intro c last piece hc
    cases c with
    | globstar _ => rfl
    | glob g =>
      obtain ⟨_, -, hname⟩ := hc
      exact has_witness_of_fits hname
    | never => exact absurd hc id
  induction components generalizing path with
  | nil => rfl
  | cons c components ih =>
    rw [all_cons, Bool.and_eq_true]
    by_cases hrest : components = []
    · subst hrest
      exact ⟨hfits (spans_last_iff.mp h), rfl⟩
    · obtain ⟨u, v, -, hu, hv⟩ := (spans_cons_iff hrest).mp h
      exact ⟨hfits hu, ih hv⟩

/-! ## Re-includes -/

/-- **An anchored re-include**: a `!` line of two components or more, the first of which is
not `**`. -/
structure Pattern.Reincludes (p : Pattern) : Prop where
  whitelist : p.result = .whitelist
  anchored : p.basename_only = false
  two : 2 ≤ p.components.length
  head : ∀ z, p.components.head? ≠ some (.globstar z)

namespace Pattern

variable {p : Pattern}

theorem Reincludes.shared (h : p.Reincludes) : p.is_shared_basename = false := by
  unfold is_shared_basename
  rw [h.anchored, Bool.false_or]
  split
  · rename_i d hd
    exact absurd (by rw [hd]; rfl) (h.head true)
  · rfl

variable {path : List Name} {is_dir : Bool}

theorem Reincludes.spans (h : p.Reincludes)
    (hp : p.Matches path is_dir) : Spans p.components path := by
  have := hp.2
  rwa [h.anchored, if_neg Bool.false_ne_true] at this

/-- A re-include that matches something is one that is followed. -/
theorem Reincludes.is_anchored_reinclude (h : p.Reincludes)
    (hp : p.Matches path is_dir) : p.is_anchored_reinclude = true := by
  unfold Pattern.is_anchored_reinclude
  rw [h.whitelist, h.anchored, decide_eq_true h.two, has_witness_of_spans (h.spans hp)]
  split
  · rename_i z hz
    exact absurd hz (h.head z)
  · rfl

/-- What cancels a re-include matches whatever it does. -/
theorem matches_of_superseded {later : Pattern} (h : p.is_superseded_by later = true)
    (hp : p.Matches path is_dir) :
    later.Matches path is_dir := by
  unfold is_superseded_by at h
  simp only [Bool.and_eq_true, beq_iff_eq, decide_eq_true_eq, Bool.or_eq_true,
    Bool.not_eq_true'] at h
  obtain ⟨⟨⟨-, hbasename⟩, hcomponents⟩, hdirectory⟩ := h
  refine ⟨fun hlater => ?_, ?_⟩
  · rcases hdirectory with hnone | hself
    · rw [hnone] at hlater
      cases hlater
    · exact hp.1 hself
  · rw [← hbasename, ← hcomponents]
    exact hp.2

end Pattern

/-! ## The lines that are followed -/

/-- Each anchored line of a `.ferretignore` is followed if it re-includes, unless a later one
cancels it. -/
def Flagged : List Anchored → Prop
  | [] => True
  | a :: later =>
    (a.pattern.is_anchored_reinclude = true →
      (∀ b ∈ later, a.pattern.is_superseded_by b.pattern = false) → a.reaches = true)
    ∧ Flagged later

/-- Every anchored line of a text is compiled. -/
theorem exists_anchored (band : Band) (lists : Lists)
    (hp : p ∈ ps) (hanchored : p.is_shared_basename = false) :
    ∃ a ∈ (compile_patterns band ps lists).1.anchored, a.pattern = p := by
  induction ps generalizing lists with
  | nil => cases hp
  | cons q ps ih =>
    simp only [compile_patterns]
    split
    · rename_i hshared
      have hp : p ∈ ps := by
        rcases mem_cons.mp hp with rfl | hp
        · rw [hanchored] at hshared
          cases hshared
        · exact hp
      split <;> exact ih _ hp
    · rcases mem_cons.mp hp with rfl | hp
      · exact ⟨_, .head _, rfl⟩
      · obtain ⟨a, ha, hap⟩ := ih _ hp
        exact ⟨a, .tail _ ha, hap⟩

/-- Only an anchored line cancels a re-include. -/
theorem Pattern.not_shared_of_superseded {later : Pattern}
    (hp : p.is_anchored_reinclude = true) (h : p.is_superseded_by later = true) :
    later.is_shared_basename = false := by
  unfold Pattern.is_anchored_reinclude at hp
  unfold Pattern.is_superseded_by at h
  simp only [Bool.and_eq_true, beq_iff_eq, decide_eq_true_eq, Bool.not_eq_true'] at hp h
  obtain ⟨⟨⟨⟨-, hbasename⟩, -⟩, hhead⟩, -⟩ := hp
  obtain ⟨⟨⟨-, hsame⟩, hcomponents⟩, -⟩ := h
  unfold Pattern.is_shared_basename
  rw [← hsame, hbasename, Bool.false_or, ← hcomponents]
  split
  · rename_i d hd
    rw [hd] at hhead
    cases hhead
  · rfl

theorem flagged_compile_patterns (ps : List Pattern) (lists : Lists) :
    Flagged (compile_patterns .ferret ps lists).1.anchored := by
  induction ps generalizing lists with
  | nil => trivial
  | cons p ps ih =>
    simp only [compile_patterns]
    split
    · split
      all_goals exact ih _
    · refine ⟨fun hreinclude hlater => ?_, ih _⟩
      have hnone : (ps.any fun other => p.is_superseded_by other) = false := by
        rw [any_eq_false]
        intro q hq hsuperseded
        obtain ⟨a, ha, hap⟩ := exists_anchored .ferret
          (intern_projections .ferret p.projections lists).2 hq
          (Pattern.not_shared_of_superseded hreinclude hsuperseded)
        have := hlater a ha
        rw [hap] at this
        rw [this] at hsuperseded
        cases hsuperseded
      show (decide (Band.ferret = .ferret) && p.is_anchored_reinclude && _) = true
      rw [hreinclude, hnone]
      rfl

/-- **A re-include that no later line cancels is followed.** -/
theorem Compiled.exists_reaching {shared : List (ℕ × Rule)} {anchored : List Anchored}
    (h : Compiled table band ps shared anchored) (hflagged : Flagged anchored)
    (hps : ps = earlier ++ p :: later)
    (hp : p.is_anchored_reinclude = true) (hshared : p.is_shared_basename = false)
    (hlater : ∀ q ∈ later, p.is_superseded_by q = false) :
    ∃ (i : ℕ) (a : Anchored), anchored[i]? = some a ∧ a.pattern = p ∧ a.reaches = true := by
  induction h generalizing earlier with
  | nil => simp at hps
  | @shared q _ _ _ _ _ hq _ _ _ ih =>
    cases earlier with
    | nil =>
      cases hps
      rw [hshared] at hq
      cases hq
    | cons e earlier =>
      cases hps
      exact ih hflagged rfl
  | @vain q _ _ _ hq _ _ ih =>
    cases earlier with
    | nil =>
      cases hps
      rw [hshared] at hq
      cases hq
    | cons e earlier =>
      cases hps
      exact ih hflagged rfl
  | @anchored q ps _ anchored _ _ hq _ hrest ih =>
    cases earlier with
    | nil =>
      cases hps
      refine ⟨0, _, rfl, rfl, hflagged.1 hp fun b hb => ?_⟩
      exact hlater _ (hrest.lines.2 b hb)
    | cons e earlier =>
      cases hps
      obtain ⟨i, a, hi, hap, hreaches⟩ := ih hflagged.2 rfl
      exact ⟨i + 1, a, hi, hap, hreaches⟩

/-! ## A directory's state -/

/-- The lines that are followed are flagged, in every layer of ferret's own. -/
def State.Flagged (s : State) : Prop := ∀ layer ∈ s.ferret, Policy.Flagged layer.source.anchored

theorem mem_cursorsFrom_of {slot i : ℕ} {anchored : List Anchored} {a : Anchored}
    {c : ℕ × Bool} (ha : anchored[i]? = some a) (hc : c ∈ a.pattern.reach path) :
    (⟨slot + i, c.1, c.2⟩ : Cursor) ∈ cursorsFrom slot anchored path := by
  refine mem_flatMap.mpr ⟨(a, slot + i), ?_, mem_map.mpr ⟨c, hc, rfl⟩⟩
  rw [mk_mem_zipIdx_iff_le_and_getElem?_sub]
  exact ⟨le_self_add, by rwa [Nat.add_sub_cancel_left]⟩

/-- A file in force has a layer, or no line of it can match any more. -/
theorem InForce.layer_or_dead
    {files : List (List Name × Bytes)} {layers : List Layer} (h : InForce table band files layers)
    (hfile : (path, text) ∈ files) :
    (∃ layer ∈ layers, layer.Holds table band (parse text).1 path) ∨ Dead (parse text).1 path := by
  induction h with
  | nil => cases hfile
  | keep hl _ ih =>
    rcases mem_cons.mp hfile with heq | hfile
    · cases heq
      exact .inl ⟨_, .head _, hl⟩
    · exact (ih hfile).imp_left (Exists.imp fun _ => And.imp_left (mem_cons_of_mem _))
  | drop hdead _ ih =>
    rcases mem_cons.mp hfile with heq | hfile
    · cases heq
      exact .inr hdead
    · exact ih hfile

variable {below : List Name}

/-- **A re-include that matches below a directory is seen to reach below it.** -/
theorem State.Holds.reaches_below {f : Forces} {s : State} (h : s.Holds table f)
    (hflagged : s.Flagged) (hfile : (path, text) ∈ f.ferret)
    (hps : (parse text).1 = earlier ++ p :: later) (hp : p.Reincludes)
    (hlater : ∀ q ∈ later, p.is_superseded_by q = false) (hbelow : below ≠ [])
    (hmatch : p.Matches (path ++ name :: below) is_dir) :
    s.reaches_below name = true := by
  have hmem : p ∈ (parse text).1 := hps ▸ mem_append_right _ (.head _)
  rcases h.ferret.layer_or_dead hfile with ⟨layer, hlayer, hl⟩ | hdead
  · rw [mem_reverse] at hlayer
    obtain ⟨i, a, hi, rfl, hreaches⟩ := hl.compiled.exists_reaching (hflagged layer hlayer) hps
      (hp.is_anchored_reinclude hmatch) hp.shared hlater
    obtain ⟨c, hc, hahead⟩ := (Pattern.exists_ahead_reach (p := a.pattern)
      (cons_ne_nil name below)).mpr (hp.spans hmatch)
    obtain ⟨c', hstep, -⟩ := (Pattern.exists_ahead_step hbelow).mpr
      (show ∃ c' ∈ [c], a.pattern.Ahead c' (name :: below) from
        ⟨c, mem_singleton_self c, hahead⟩)
    refine any_eq_true.mpr ⟨layer, hlayer, any_eq_true.mpr ⟨⟨0 + i, c.1, c.2⟩, ?_, ?_⟩⟩
    · rw [hl.cursors]
      exact mem_cursorsFrom_of hi hc
    · rw [zero_add, hi, Option.any_some, hreaches, Bool.true_and, Bool.not_eq_true',
        isEmpty_eq_false_iff]
      exact ne_nil_of_mem hstep
  · exact absurd hmatch (hdead _ (cons_ne_nil _ _) is_dir p hmem)

/-! ## The flags of a walk -/

theorem Layer.source_move {l l' : Layer} {name : Bytes} (h : State.move name l = some l') :
    l'.source = l.source := by
  have hstepped : ((l.stepped name).getD l).source = l.source := by
    unfold Layer.stepped
    dsimp only
    split
    · rfl
    · split
      · rfl
      · rfl
  rw [Layer.live_eq_some h, hstepped]

theorem flagged_compile (file : IgnoreFile) (text : Option Bytes) (c : Compiling) :
    ∀ layer ∈ (Layer.compile file text .ferret c).1.toList, Flagged layer.source.anchored := by
  intro layer hlayer
  cases text with
  | none => cases hlayer
  | some text =>
    rw [Layer.live_eq_some (Option.mem_toList.mp hlayer)]
    exact flagged_compile_patterns (parse text).1 c.lists

namespace State.Flagged

variable {s : State}

theorem stepped (h : s.Flagged) (name : Bytes) (git_root : Bool) :
    ((s.stepped name git_root).getD s).Flagged := by
  have hmoved : (s.moved name).Flagged := by
    intro layer hlayer
    obtain ⟨layer', hlayer', hmove⟩ := mem_filterMap.mp hlayer
    rw [Layer.source_move hmove]
    exact h layer' hlayer'
  have hgoes : (if (s.layers.any fun layer => (layer.stepped name).isSome) then s.moved name
      else s).Flagged := by
    split
    · exact hmoved
    · exact h
  unfold State.stepped
  dsimp only
  split
  · exact hgoes
  · split
    · exact hmoved
    · exact h

theorem add_files (h : s.Flagged) (dir : List Bytes) (files : IgnoreFiles) (c : Compiling) :
    (s.add_files dir files c).1.Flagged := by
  intro layer hlayer
  rcases mem_append.mp hlayer with hlayer | hlayer
  · exact h layer hlayer
  · exact flagged_compile _ _ _ layer hlayer

end State.Flagged

/-! ## A directory's decisions -/

variable {t : Trail} {steps : List (Name × IgnoreFiles)}

namespace Trail

/-- The ignore files of the directory itself. -/
def own_files : Trail → IgnoreFiles
  | root files => files
  | enter _ _ files => files

/-- The way on from a directory. -/
def extend (t : Trail) (steps : List (Name × IgnoreFiles)) : Trail :=
  steps.foldl (fun t step => .enter t step.1 step.2) t

/-- A directory's file is in force in every directory below, at its distance. -/
theorem mem_files_extend (select : IgnoreFiles → Option Bytes) {file : List Name × Bytes}
    (h : file ∈ t.files select (steps.map Prod.fst ++ below)) :
    file ∈ (t.extend steps).files select below := by
  induction steps generalizing t with
  | nil => exact h
  | cons _ steps ih => exact ih (mem_append_right _ h)

theorem own_mem_files {select : IgnoreFiles → Option Bytes} {text : Bytes}
    (h : select t.own_files = some text) (below : List Name) :
    (below, text) ∈ t.files select below := by
  have hown : (below, text) ∈ own (select t.own_files) below := by
    rw [h]
    exact mem_singleton_self _
  cases t with
  | root files => exact hown
  | enter _ _ files => exact mem_append_left _ hown

end Trail

/-- **The last matching rule of the whole list**: no line of a file that goes before matches,
and no later line of its own. -/
structure LastRule (global : Option Bytes) (t : Trail) (band : Band) (path : List Name)
    (text : Bytes) (p : Pattern) (name : Name) (is_dir : Bool) : Prop where
  before : ∃ before after, t.ranked global = before ++ (band, path, text) :: after ∧
    ∀ file ∈ before, ∀ q ∈ (parse file.2.2).1, ¬ q.Matches (file.2.1 ++ [name]) is_dir
  line : ∃ earlier later, (parse text).1 = earlier ++ p :: later ∧
    ∀ q ∈ later, ¬ q.Matches (path ++ [name]) is_dir
  hit : p.Matches (path ++ [name]) is_dir

theorem last_line_eq_none_iff :
    last_line band ps path is_dir = none ↔ ∀ q ∈ ps, ¬ q.Matches path is_dir := by
  classical
  rw [last_line, Option.map_eq_none_iff, find?_eq_none]
  simp

theorem last_line_eq_some_iff {word : Bool × Bool} :
    last_line band ps path is_dir = some word ↔
      ∃ earlier p later, ps = earlier ++ p :: later ∧ p.Matches path is_dir
        ∧ (∀ q ∈ later, ¬ q.Matches path is_dir) ∧ word = (p.is_whitelist, band == .ferret) := by
  classical
  rw [last_line, Option.map_eq_some_iff]
  constructor
  · rintro ⟨p, hp, rfl⟩
    obtain ⟨hmatch, as, bs, hsplit, hno⟩ := find?_eq_some_iff_append.mp hp
    refine ⟨bs.reverse, p, as.reverse, ?_, by simpa using hmatch, fun q hq => ?_, rfl⟩
    · rw [← reverse_reverse ps, hsplit]
      simp
    · simpa using hno q (mem_reverse.mp hq)
  · rintro ⟨earlier, p, later, rfl, hmatch, hno, rfl⟩
    refine ⟨p, find?_eq_some_iff_append.mpr
      ⟨by simpa using hmatch, later.reverse, earlier.reverse, by simp, fun q hq => ?_⟩, rfl⟩
    simpa using hno q (mem_reverse.mp hq)

variable {global : Option Bytes}

/-- **The answer on whole paths is the last rule's.** -/
theorem reference_eq_some_iff {word : Bool × Bool} :
    t.reference global name is_dir = some word ↔
      ∃ band path text p, LastRule global t band path text p name is_dir
        ∧ word = (p.is_whitelist, band == .ferret) := by
  rw [Trail.reference, findSome?_eq_some_iff]
  constructor
  · rintro ⟨before, ⟨band, path, text⟩, after, hranked, hline, hno⟩
    obtain ⟨earlier, p, later, hps, hmatch, hlater, hword⟩ := last_line_eq_some_iff.mp hline
    exact ⟨band, path, text, p, ⟨⟨before, after, hranked, fun file hfile =>
      last_line_eq_none_iff.mp (hno file hfile)⟩, ⟨earlier, later, hps, hlater⟩, hmatch⟩, hword⟩
  · rintro ⟨band, path, text, p, ⟨⟨before, after, hranked, hno⟩, ⟨earlier, later, hps, hlater⟩,
      hmatch⟩, hword⟩
    exact ⟨before, (band, path, text), after, hranked,
      last_line_eq_some_iff.mpr ⟨earlier, p, later, hps, hmatch, hlater, hword⟩,
      fun file hfile => last_line_eq_none_iff.mpr (hno file hfile)⟩

/-- Whether an entry is included: entered, indexed or catalogued. -/
def Decision.includes : Decision → Bool
  | .skip => false
  | .traverse => false
  | _ => true

namespace DirRules

variable {d : DirRules}

/-- A `!` line of a `.ferretignore` includes an entry wherever it is. -/
theorem includes_of_last_match {size_cap : ℕ} {name : Bytes} {entry : Entry}
    (h : d.list.last_match name (entry = .dir) = some (true, true)) :
    (d.decide_child size_cap name entry).includes = true := by
  unfold decide_child
  dsimp only
  rw [h]
  simp only [Bool.or_true, Bool.not_true, Bool.false_eq_true, if_false]
  cases entry with
  | file size =>
    show (if size_cap < size then Decision.catalog .tooLarge else .index).includes = true
    split <;> rfl
  | dir => rfl
  | symlink => rfl
  | other => rfl

/-- Nothing else includes an entry of a directory that is traversed. -/
theorem last_match_of_includes (htraversing : d.traversing = true) {size_cap : ℕ} {name : Bytes}
    {entry : Entry} (h : (d.decide_child size_cap name entry).includes = true) :
    d.list.last_match name (entry = .dir) = some (true, true) := by
  have hout : ∀ (c : Prop) [Decidable c],
      (if c then Decision.traverse else Decision.skip).includes = false := by
    intro c _
    split
    · rfl
    · rfl
  unfold decide_child at h
  dsimp only at h
  rw [htraversing] at h
  cases hlast : d.list.last_match name (entry = .dir) with
  | none =>
    rw [hlast] at h
    simp [hout] at h
  | some word =>
    obtain ⟨whitelist, ferret⟩ := word
    rw [hlast] at h
    cases whitelist with
    | false => simp [hout] at h
    | true =>
      cases ferret with
      | false => simp [hout] at h
      | true => rfl

/-- A directory that is reached below is not passed by. -/
theorem decide_child_dir {name : Bytes} (h : d.state.reaches_below name = true) (size_cap : ℕ) :
    d.decide_child size_cap name .dir = .descend ∨ d.decide_child size_cap name .dir = .traverse := by
  unfold decide_child
  dsimp only
  rw [h]
  cases d.list.last_match name (decide (Entry.dir = .dir)) with
  | none => cases d.traversing <;> simp
  | some word =>
    obtain ⟨whitelist, ferret⟩ := word
    cases whitelist <;> cases ferret <;> cases d.traversing <;> simp

theorem flagged_root (path : List Bytes) (global : Option Bytes) (files : IgnoreFiles) :
    (DirRules.root path global files).1.1.state.Flagged := by
  have hnone : State.Flagged
      ⟨(Layer.compile .global global .global ⟨Lists.default, []⟩).1, none, [], [], []⟩ :=
    nofun
  exact hnone.add_files path files _

theorem flagged_enter (h : d.state.Flagged) (root : List Bytes) (name : Name) (files : IgnoreFiles)
    (lists : Lists) : (d.enter root name files lists).1.1.state.Flagged := by
  unfold DirRules.enter
  dsimp only
  split
  · exact h
  · exact (h.stepped name.val files.git_root).add_files _ files _

theorem flagged_traverse (h : d.state.Flagged) (name : Name) (lists : Lists) :
    (d.traverse name lists).1.state.Flagged := by
  have hstepped := h.stepped name.val false
  unfold DirRules.traverse
  dsimp only
  split
  · exact h
  · rename_i state hstate
    rwa [hstate] at hstepped

/-- **A directory on the way to a re-included entry is answered to be walked.** -/
theorem Holds.reaches {lists : Lists} (h : d.Holds lists global t) (hflagged : d.state.Flagged)
    {path : List Name} {text : Bytes} (hfile : (path, text) ∈ t.files (·.ferretignore) [])
    {earlier later : List Pattern} {p : Pattern} (hps : (parse text).1 = earlier ++ p :: later)
    (hp : p.Reincludes) (hlater : ∀ q ∈ later, p.is_superseded_by q = false) {name : Name}
    (hbelow : below ≠ []) {is_dir : Bool} (hmatch : p.Matches (path ++ name :: below) is_dir)
    (size_cap : ℕ) :
    d.decide_child size_cap name.val .dir = .descend
      ∨ d.decide_child size_cap name.val .dir = .traverse :=
  decide_child_dir (h.state.reaches_below hflagged hfile hps hp hlater hbelow hmatch) size_cap

end DirRules

/-! ## Walks -/

/-- **The way along a path**, as far as the decisions lead: into each directory, with its
ignore files if it is entered. -/
def walk_along (root : List Bytes) (size_cap : ℕ) :
    Trail → DirRules → Lists → List (Name × IgnoreFiles) → Option (Trail × DirRules × Lists)
  | t, d, lists, [] => some (t, d, lists)
  | t, d, lists, (name, files) :: steps =>
    match d.decide_child size_cap name.val .dir with
    | .descend =>
      let ((d', _), lists') := d.enter root name files lists
      walk_along root size_cap (.enter t name files) d' lists' steps
    | .traverse =>
      let (d', lists') := d.traverse name lists
      walk_along root size_cap (.enter t name .absent) d' lists' steps
    | _ => none

/-- **The way does not end before a re-included entry.** -/
theorem walk_along_reaches (root : List Bytes) (size_cap : ℕ) {lists : Lists} {d : DirRules}
    (h : d.Holds lists global t) (hvalid : lists.Valid) (hflagged : d.state.Flagged)
    (hfile : (path, text) ∈ t.files (·.ferretignore) [])
    (hps : (parse text).1 = earlier ++ p :: later) (hp : p.Reincludes)
    (hlater : ∀ q ∈ later, p.is_superseded_by q = false)
    (hmatch : p.Matches (path ++ (steps.map Prod.fst ++ [name])) is_dir) :
    ∃ t' d' lists', walk_along root size_cap t d lists steps = some (t', d', lists')
      ∧ lists'.Valid ∧ d'.Holds lists' global t' := by
  induction steps generalizing path t d lists with
  | nil => exact ⟨t, d, lists, rfl, hvalid, h⟩
  | cons step steps ih =>
    obtain ⟨next, files⟩ := step
    have hbelow : steps.map Prod.fst ++ [name] ≠ [] := by simp
    have hon : p.Matches ((path ++ [next]) ++ (steps.map Prod.fst ++ [name])) is_dir := by
      rwa [append_assoc, singleton_append]
    have hfiles : ∀ files, (path ++ [next], text) ∈
        (Trail.enter t next files).files (·.ferretignore) [] := by
      intro files
      refine mem_append_right _ ?_
      rw [← nil_append [next], t.files_append]
      exact mem_map_of_mem (f := fun file => (file.1 ++ [next], file.2)) hfile
    rw [walk_along]
    rcases h.reaches hflagged hfile hps hp hlater hbelow hmatch size_cap with hdecide | hdecide
    · rw [hdecide]
      obtain ⟨hext, hd⟩ := h.enter hvalid root next files
      exact ih hd hext.valid (DirRules.flagged_enter hflagged root next files lists) (hfiles files) hon
    · rw [hdecide]
      obtain ⟨hext, hd⟩ := h.traverse hvalid next
      exact ih hd hext.valid (DirRules.flagged_traverse hflagged next lists) (hfiles .absent) hon

namespace Walk

/-- The lines that are followed are flagged, in every directory of a walk. -/
theorem flagged_run (path : List Bytes) (global : Option Bytes) (files : IgnoreFiles)
    (moves : List Move) :
    ∀ t d, (t, d) ∈ (run path global files moves).dirs → d.state.Flagged := by
  have hstep : ∀ (w : Walk) (move : Move), (∀ t d, (t, d) ∈ w.dirs → d.state.Flagged) →
      ∀ t d, (t, d) ∈ (w.step path move).dirs → d.state.Flagged := by
    intro w move hw t d hmem
    cases move with
    | enter dir name files =>
      cases hdir : w.dirs[dir]? with
      | none =>
        simp only [Walk.step, hdir] at hmem
        exact hw t d hmem
      | some td =>
        simp only [Walk.step, hdir, mem_append, mem_singleton] at hmem
        rcases hmem with hmem | heq
        · exact hw t d hmem
        · obtain ⟨-, rfl⟩ := Prod.mk.inj heq
          exact DirRules.flagged_enter (hw td.1 td.2 (mem_of_getElem? hdir)) path name files _
    | traverse dir name =>
      cases hdir : w.dirs[dir]? with
      | none =>
        simp only [Walk.step, hdir] at hmem
        exact hw t d hmem
      | some td =>
        simp only [Walk.step, hdir, mem_append, mem_singleton] at hmem
        rcases hmem with hmem | heq
        · exact hw t d hmem
        · obtain ⟨-, rfl⟩ := Prod.mk.inj heq
          exact DirRules.flagged_traverse (hw td.1 td.2 (mem_of_getElem? hdir)) name _
  have hrun : ∀ (moves : List Move) (w : Walk), (∀ t d, (t, d) ∈ w.dirs → d.state.Flagged) →
      ∀ t d, (t, d) ∈ (moves.foldl (Walk.step path) w).dirs → d.state.Flagged := by
    intro moves
    induction moves with
    | nil => exact fun w hw => hw
    | cons move moves ih => exact fun w hw => ih _ (hstep w move hw)
  refine hrun moves _ fun t d hmem => ?_
  obtain ⟨-, rfl⟩ := Prod.mk.inj (mem_singleton.mp hmem)
  exact DirRules.flagged_root path global files

/-- **Re-included entries are reached.** In every directory that a walk has been in, below one
whose `.ferretignore` has an anchored `!` line that matches an entry further down and that no
later line cancels, the next directory on the way is descended into or traversed; so the way
does not end before the entry, and if the line is the last of the whole list to match it, the
entry is included. A line that is the last of its file to match is not cancelled. And in a
directory that is traversed nothing is included but by a `!` line of a `.ferretignore`. -/
theorem reincluded_reached (root : List Bytes) (size_cap : ℕ) (global : Option Bytes)
    (files : IgnoreFiles) (moves : List Move) :
    (∀ (t₀ : Trail) (text : Bytes) (earlier : List Pattern) (p : Pattern) (later : List Pattern)
        (steps : List (Name × IgnoreFiles)) (is_dir : Bool),
      t₀.own_files.ferretignore = some text → (parse text).1 = earlier ++ p :: later →
      p.Reincludes →
      (∀ path, (∀ q ∈ later, ¬ q.Matches path is_dir) → p.Matches path is_dir →
        ∀ q ∈ later, p.is_superseded_by q = false)
      ∧ ((∀ q ∈ later, p.is_superseded_by q = false) →
        (∀ d next below, (t₀.extend steps, d) ∈ (run root global files moves).dirs → below ≠ [] →
          p.Matches (steps.map Prod.fst ++ next :: below) is_dir →
          d.decide_child size_cap next.val .dir = .descend
            ∨ d.decide_child size_cap next.val .dir = .traverse)
        ∧ ∀ d₀ name, (t₀, d₀) ∈ (run root global files moves).dirs →
          p.Matches (steps.map Prod.fst ++ [name]) is_dir →
          ∃ t d lists, walk_along root size_cap t₀ d₀ (run root global files moves).lists steps
              = some (t, d, lists)
            ∧ ∀ entry, is_dir = decide (entry = .dir) →
              LastRule global t .ferret (steps.map Prod.fst) text p name is_dir →
              (d.decide_child size_cap name.val entry).includes = true))
    ∧ ∀ t d name entry, (t, d) ∈ (run root global files moves).dirs → d.traversing = true →
      (d.decide_child size_cap name.val entry).includes = true →
      ∃ path text p, LastRule global t .ferret path text p name (entry = .dir)
        ∧ p.is_whitelist = true := by
  have hwalk : Holds global (run root global files moves) :=
    (holds_start root global files).foldl root moves
  have hflags := flagged_run root global files moves
  refine ⟨fun t₀ text earlier p later steps is_dir hown hps hp => ⟨fun path hlast hmatch q hq => ?_,
    fun hlater => ⟨fun d next below hd hbelow hmatch => ?_, fun d₀ name hd hmatch => ?_⟩⟩,
    fun t d name entry hd htraversing hincludes => ?_⟩
  · rw [← Bool.not_eq_true]
    exact fun hsuperseded => hlast q hq (Pattern.matches_of_superseded hsuperseded hmatch)
  · have hfile : (steps.map Prod.fst, text) ∈ (t₀.extend steps).files (·.ferretignore) [] := by
      refine Trail.mem_files_extend _ ?_
      rw [append_nil]
      exact Trail.own_mem_files hown _
    exact (hwalk.dirs _ d hd).reaches (hflags _ d hd) hfile hps hp hlater hbelow hmatch size_cap
  · obtain ⟨t, d, lists, hway, -, hholds⟩ := walk_along_reaches root size_cap
      (hwalk.dirs _ d₀ hd) hwalk.valid (hflags _ d₀ hd) (Trail.own_mem_files hown []) hps hp hlater
      hmatch
    refine ⟨t, d, lists, hway, fun entry hentry hrule => ?_⟩
    subst hentry
    refine DirRules.includes_of_last_match ?_
    rw [hholds.last_match]
    refine reference_eq_some_iff.mpr ⟨.ferret, _, text, p, hrule, ?_⟩
    unfold Pattern.is_whitelist
    rw [hp.whitelist]
    rfl
  · have hlast := DirRules.last_match_of_includes htraversing hincludes
    rw [(hwalk.dirs t d hd).last_match] at hlast
    obtain ⟨band, path, text, p, hrule, hword⟩ := reference_eq_some_iff.mp hlast
    obtain ⟨hwhitelist, hband⟩ := Prod.mk.inj hword
    obtain rfl : band = .ferret := by simpa using hband.symm
    exact ⟨path, text, p, hrule, hwhitelist.symm⟩

/-- A file that takes back one entry of a directory it excludes. -/
def keep_text : Bytes := ascii "build\n!/build/keep"

/-- Its second line. -/
def keep : Pattern where
  index := 1
  result := .whitelist
  directory_only := false
  basename_only := false
  components :=
    [.glob ⟨[.literal ⟨ascii "build", by decide⟩]⟩, .glob ⟨[.literal ⟨ascii "keep", by decide⟩]⟩]
  components_ne := nofun
  basename_single := fun h => by cases h

def keep_files : IgnoreFiles := { IgnoreFiles.absent with ferretignore := some keep_text }

theorem parse_keep_text : ∃ first, (parse keep_text).1 = [first] ++ keep :: [] := by
  have hfields : (parse keep_text).1.map (fun p : Pattern =>
      (p.index, p.result, p.directory_only, p.basename_only, p.components)) =
      [(0, .ignore, false, true, [.glob ⟨[.literal ⟨ascii "build", by decide⟩]⟩]),
        (1, .whitelist, false, false, keep.components)] := by
    decide +kernel
  obtain ⟨first, _, hparse, -, hrest⟩ := map_eq_cons_iff.mp hfields
  obtain ⟨p, hp, hfield⟩ := map_eq_singleton_iff.mp hrest
  refine ⟨first, ?_⟩
  rw [hparse, hp]
  obtain ⟨_, _, _, _, _, _, _⟩ := p
  cases hfield
  rfl

theorem mem_start (path : List Bytes) (global : Option Bytes) (files : IgnoreFiles) :
    ∃ d, (Trail.root files, d) ∈ (run path global files []).dirs := ⟨_, mem_singleton_self _⟩

theorem keep_matches : keep.Matches [⟨ascii "build", by decide⟩, ⟨ascii "keep", by decide⟩] false :=
  (Pattern.matches_override_iff (p := keep) rfl (Pattern.kept_none _) [⟨ascii "build", by decide⟩]
    ⟨ascii "keep", by decide⟩ false).mp (by decide +kernel)

theorem reincluded_reached_keep :
    ∃ d, (Trail.root keep_files, d) ∈ (run [] none keep_files []).dirs
      ∧ (d.decide_child 0 (ascii "build") .dir = .descend
        ∨ d.decide_child 0 (ascii "build") .dir = .traverse)
      ∧ ∃ t d' lists, walk_along [] 0 (.root keep_files) d (run [] none keep_files []).lists
          [(⟨ascii "build", by decide⟩, .absent)] = some (t, d', lists) := by
  obtain ⟨first, hps⟩ := parse_keep_text
  have hkeep : keep.Reincludes := ⟨rfl, rfl, le_rfl, nofun⟩
  have hlater : ∀ q ∈ ([] : List Pattern), keep.is_superseded_by q = false :=
    nofun
  obtain ⟨d, hd⟩ := mem_start [] none keep_files
  have hreach := (reincluded_reached [] 0 none keep_files []).1 (.root keep_files) keep_text [first]
    keep []
  obtain ⟨t, d', lists, hway, -⟩ := ((hreach [(⟨ascii "build", by decide⟩, .absent)] false rfl hps
    hkeep).2 hlater).2 d ⟨ascii "keep", by decide⟩ hd keep_matches
  exact ⟨d, hd, ((hreach [] false rfl hps hkeep).2 hlater).1 d ⟨ascii "build", by decide⟩
    [⟨ascii "keep", by decide⟩] hd nofun keep_matches, t, d', lists, hway⟩

end Walk

end Ferret.Policy
