import Ferret.Policy.GlobMatch
import Ferret.Policy.Pattern

/-!
# Cursors follow a pattern along a path

What an anchored pattern means is said of whole paths: its components match
the path's in order, a glob one of them, `**` any number, and at least one
where a slash after it is escaped or nothing comes after it. A cursor stands
for what is left of a pattern, and a step keeps that: the cursors of a
directory can match what is below it exactly as far as those of its parent
can match what is below the directory's name.

A step follows each globstar's continuation once, whichever cursor comes to it
first. It may, because the continuation of a globstar is that of a cursor on
the next component, whoever follows it; what has been followed is marked
already.
-/

namespace Ferret.Policy

open List

/-! ## What a pattern means -/

/-- The stretches of a path that fit one component, which is the last or is
not. -/
def Component.Fits : Component × Bool → List Name → Prop
  | (.globstar allow_zero, last), piece => (allow_zero = true ∧ last = false) ∨ piece ≠ []
  | (.glob g, _), piece => ∃ name : Name, piece = [name] ∧ g.Matches name
  | (.never, _), _ => False

/-- Components, each with whether it is the last. -/
def spans : List Component → List (Component × Bool)
  | [] => []
  | [c] => [(c, true)]
  | c :: d :: rest => (c, false) :: spans (d :: rest)

/-- The components match the path. -/
def Spans (components : List Component) (path : List Name) : Prop :=
  Splits Component.Fits (spans components) path

/-- **A pattern matches a path**: a basename pattern its last component, an
anchored one all of it; a directory-only pattern, that of a directory. -/
def Pattern.Matches (p : Pattern) (path : List Name) (is_dir : Bool) : Prop :=
  (p.directory_only = true → is_dir = true) ∧
    Spans p.components (if p.basename_only then path.getLast?.toList else path)

variable {c : Component} {rest components all : List Component} {path : List Name} {name : Name}
  {fed : Bool} {m : Marks}

theorem spans_cons (h : rest ≠ []) : spans (c :: rest) = (c, false) :: spans rest := by
  cases rest with
  | nil => exact absurd rfl h
  | cons d rest => rfl

@[simp]
theorem spans_nil_iff : Spans [] path ↔ path = [] := Splits.nil_iff

theorem spans_last_iff : Spans [c] path ↔ Component.Fits (c, true) path := Splits.singleton_iff

theorem spans_cons_iff (h : rest ≠ []) :
    Spans (c :: rest) path ↔
      ∃ u v, path = u ++ v ∧ Component.Fits (c, false) u ∧ Spans rest v := by
  rw [Spans, spans_cons h, Splits.cons_iff]
  rfl

/-- The last component takes something. -/
theorem not_spans_nil (h : components ≠ []) : ¬ Spans components [] := by
  induction components with
  | nil => exact absurd rfl h
  | cons c rest ih =>
    by_cases hrest : rest = []
    · subst hrest
      rw [spans_last_iff]
      cases c <;> simp [Component.Fits]
    · rw [spans_cons_iff hrest]
      rintro ⟨u, v, huv, -, hv⟩
      obtain ⟨rfl, rfl⟩ := append_eq_nil_iff.mp huv.symm
      exact ih hrest hv

/-- Below a leading globstar, the last component is matched wherever the path leads to it. -/
theorem spans_shared_iff (path : List Name) (name : Name) :
    Spans [.globstar true, c] (path ++ [name]) ↔ Component.Fits (c, true) [name] := by
  rw [spans_cons_iff (by simp)]
  simp only [spans_last_iff]
  cases c with
  | globstar z =>
    refine iff_of_true ⟨[], path ++ [name], rfl, .inl ⟨rfl, rfl⟩, .inr (by simp)⟩ (.inr (by simp))
  | glob g =>
    constructor
    · rintro ⟨u, v, huv, -, name', rfl, hg⟩
      obtain ⟨rfl, h⟩ := append_inj' huv rfl
      exact ⟨name', h, hg⟩
    · rintro ⟨name', h, hg⟩
      exact ⟨path, [name], rfl, .inl ⟨rfl, rfl⟩, name', h, hg⟩
  | never =>
    refine iff_of_false ?_ id
    rintro ⟨u, v, -, -, h⟩
    exact h

theorem spans_glob_cons_iff {g : ComponentGlob} (h : rest ≠ []) :
    Spans (.glob g :: rest) (name :: path) ↔ g.Matches name ∧ Spans rest path := by
  rw [spans_cons_iff h]
  constructor
  · rintro ⟨u, v, huv, ⟨_, rfl, hg⟩, hv⟩
    cases huv
    exact ⟨hg, hv⟩
  · rintro ⟨hg, hv⟩
    exact ⟨[name], path, rfl, ⟨name, rfl, hg⟩, hv⟩

/-- A globstar takes nothing, if it may, or the next name and is then free to
stop. -/
theorem spans_globstar_cons_iff {allow_zero : Bool} (h : rest ≠ []) :
    Spans (.globstar allow_zero :: rest) (name :: path) ↔
      (allow_zero = true ∧ Spans rest (name :: path)) ∨ Spans (.globstar true :: rest) path := by
  rw [spans_cons_iff h, spans_cons_iff h]
  constructor
  · rintro ⟨u, v, huv, hu, hv⟩
    cases u with
    | nil =>
      subst huv
      exact .inl ⟨by simpa [Component.Fits] using hu, hv⟩
    | cons _ u =>
      cases huv
      exact .inr ⟨u, v, rfl, .inl ⟨rfl, rfl⟩, hv⟩
  · rintro (⟨hz, hv⟩ | ⟨u, v, rfl, -, hv⟩)
    · exact ⟨[], name :: path, rfl, .inl ⟨hz, rfl⟩, hv⟩
    · exact ⟨name :: u, v, rfl, .inr (by simp), hv⟩

/-! ## What a cursor stands for -/

/-- A globstar that has been fed may match nothing more. -/
def feed : List Component → List Component
  | .globstar _ :: rest => .globstar true :: rest
  | components => components

/-- What is left of the components matches the path. -/
def Ahead (components : List Component) (fed : Bool) (path : List Name) : Prop :=
  Spans (if fed then feed components else components) path

theorem Ahead.feed
    (h : Ahead components fed path) (hpath : path ≠ []) : Ahead components true path := by
  cases fed with
  | true => exact h
  | false =>
    match components with
    | .globstar z :: rest =>
      show Spans (.globstar true :: rest) path
      by_cases hrest : rest = []
      · subst hrest
        rw [spans_last_iff]
        exact .inr hpath
      · obtain ⟨u, v, rfl, -, hv⟩ := (spans_cons_iff hrest).mp h
        exact (spans_cons_iff hrest).mpr ⟨u, v, rfl, .inl ⟨rfl, rfl⟩, hv⟩
    | .glob g :: rest => exact h
    | .never :: rest => exact h
    | [] => exact h

/-- Where one cursor leads in a step: `follow`, with nothing remembered. -/
def leads (name : Bytes) : List Component → ℕ → Bool → List (ℕ × Bool)
  | [], _, _ => []
  | .globstar allow_zero :: rest, pos, fed =>
    (pos, true) :: if allow_zero || fed then leads name rest (pos + 1) false else []
  | component :: rest, pos, _ =>
    if rest ≠ [] ∧ component.matches name then [(pos + 1, false)] else []

attribute [local simp] Ahead Component.Fits Component.matches leads tail

/-- **A cursor leads to what is left of its pattern.** -/
theorem ahead_cons_iff (hpath : path ≠ []) (pos : ℕ) (fed : Bool) :
    Ahead (all.drop pos) fed (name :: path) ↔
      ∃ c ∈ leads name (all.drop pos) pos fed, Ahead (all.drop c.1) c.2 path := by
  generalize hcomps : all.drop pos = comps
  induction comps generalizing pos fed with
  | nil => cases fed <;> simp [feed]
  | cons c rest ih =>
    have hrest : all.drop (pos + 1) = rest := by
      rw [← tail_drop, hcomps, tail_cons]
    cases c with
    | never =>
      have hno : ∀ q, ¬ Spans (.never :: rest) q := by
        intro q h
        by_cases hr : rest = []
        · subst hr
          exact spans_last_iff.mp h
        · obtain ⟨u, v, -, hu, -⟩ := (spans_cons_iff hr).mp h
          exact hu
      cases fed <;> simp [feed, hno]
    | glob g =>
      have hahead : Ahead (.glob g :: rest) fed (name :: path) ↔
          Spans (.glob g :: rest) (name :: path) := by
        cases fed <;> rfl
      rw [hahead]
      by_cases hr : rest = []
      · subst hr
        simp [spans_last_iff, hpath]
      · rw [spans_glob_cons_iff hr, ← g.matches_iff]
        by_cases hg : g.matches name = true
        · simp [hr, hg, hrest]
        · simp [hg]
    | globstar z =>
      have hahead : Ahead (.globstar z :: rest) fed (name :: path) ↔
          Spans (.globstar (z || fed) :: rest) (name :: path) := by
        cases fed <;> simp [feed]
      have hstay : Ahead (.globstar z :: rest) true path ↔ Spans (.globstar true :: rest) path :=
        .rfl
      rw [hahead, leads]
      simp only [mem_cons, exists_eq_or_imp, hcomps, hstay]
      by_cases hr : rest = []
      · subst hr
        simp [spans_last_iff, hpath]
      · rw [spans_globstar_cons_iff hr, or_comm]
        refine or_congr .rfl ?_
        cases hz : z || fed with
        | false => simp
        | true =>
          simp only [true_and, if_true]
          exact ih (pos + 1) false hrest

/-! ## What a cursor projects to -/

theorem any_glob_matches (name : Name) : any_glob.Matches name := by
  match name with
  | ⟨b :: rest, _⟩ =>
    exact ⟨[[b], rest], .cons rfl (.cons trivial .nil), by simp⟩

theorem normalize_star_matches (g : ComponentGlob) (name : Name) :
    (normalize_star g).Matches name ↔ g.Matches name := by
  unfold normalize_star
  split
  · rename_i h
    refine iff_of_true (any_glob_matches name) ?_
    rw [ComponentGlob.Matches, h, Splits.singleton_iff]
    trivial
  · rfl

/-- **The projection of a cursor that is not fed.** -/
theorem tail_iff : Spans components [name] ↔ ∃ g, tail components = some g ∧ g.Matches name := by
  induction components with
  | nil => simp
  | cons c rest ih =>
    by_cases hr : rest = []
    · subst hr
      rw [spans_last_iff]
      cases c with
      | globstar z => simp [any_glob_matches]
      | glob g => simp [normalize_star_matches]
      | never => simp
    · obtain ⟨d, rest, rfl⟩ := exists_cons_of_ne_nil hr
      cases c with
      | globstar z =>
        have hno : ¬ Spans (.globstar true :: d :: rest) [] := not_spans_nil (by simp)
        rw [spans_globstar_cons_iff hr, or_iff_left hno, ih]
        cases z <;> simp
      | glob g =>
        simp [spans_glob_cons_iff hr, not_spans_nil hr]
      | never =>
        simp only [tail, reduceCtorEq, false_and, exists_false, iff_false, spans_cons_iff hr]
        rintro ⟨u, v, -, hu, -⟩
        exact hu

/-- Only a globstar is fed. -/
def Feedable (components : List Component) (fed : Bool) : Prop :=
  fed = true → ∃ z rest, components = .globstar z :: rest

/-- **The projection of a cursor.** -/
theorem ahead_singleton_iff (h : Feedable components fed) :
    Ahead components fed [name] ↔
      ∃ g, (if fed then fed_tail components else tail components) = some g ∧ g.Matches name := by
  cases fed with
  | false => exact tail_iff
  | true =>
    obtain ⟨z, rest, rfl⟩ := h rfl
    show Spans (.globstar true :: rest) [name] ↔ _
    rw [tail_iff]
    cases rest with
    | nil => simp [fed_tail]
    | cons d rest => simp [fed_tail]

variable {name : Bytes} {c : ℕ × Bool}

theorem feedable_of_leads {pos : ℕ} (hc : c ∈ leads name (all.drop pos) pos fed) :
    Feedable (all.drop c.1) c.2 := by
  generalize hcomps : all.drop pos = comps at hc
  induction comps generalizing pos fed with
  | nil => simp at hc
  | cons d rest ih =>
    have hrest : all.drop (pos + 1) = rest := by
      rw [← tail_drop, hcomps, tail_cons]
    cases d with
    | globstar z =>
      rcases mem_cons.mp hc with rfl | hc
      · exact fun _ => ⟨z, rest, hcomps⟩
      · split at hc
        · exact ih hrest hc
        · simp at hc
    | glob g | never =>
      simp only [leads] at hc
      split at hc
      · rw [mem_singleton.mp hc]
        exact fun h => absurd h (by simp)
      · simp at hc

/-! ## Marks -/

namespace Marks

/-- Bits enough for the positions of a pattern. -/
structure Sized (m : Marks) (count : ℕ) : Prop where
  reached : m.reached.length = (count + 63) / 64
  fed : m.fed.length = (count + 63) / 64
  expanded : m.expanded.length = (count + 63) / 64

/-- The cursor is marked. -/
def Has (m : Marks) (c : ℕ × Bool) : Prop :=
  bit m.reached c.1 = true ∧ (c.2 = true → bit m.fed c.1 = true)

theorem sized_new (count : ℕ) : (new count).Sized count := by
  constructor <;> exact length_replicate

theorem length_set_bit (words : List (BitVec 64)) (pos : ℕ) :
    (set_bit words pos).length = words.length := length_set ..

theorem bit_set_bit {words : List (BitVec 64)} {pos count : ℕ}
    (h : words.length = (count + 63) / 64) (hpos : pos < count) (d : ℕ) :
    bit (set_bit words pos) d = true ↔ d = pos ∨ bit words d = true := by
  rw [set_bit, DocSet.bit_set words (by omega)]
  simp

variable {m : Marks} {count pos : ℕ}

theorem Sized.mark (h : m.Sized count) (pos : ℕ) (fed : Bool) : (m.mark pos fed).Sized count := by
  refine ⟨(length_set_bit ..).trans h.reached, ?_, h.expanded⟩
  cases fed
  · exact h.fed
  · exact (length_set_bit ..).trans h.fed

theorem Sized.expand (h : m.Sized count) (pos : ℕ) : (m.expand pos).2.Sized count :=
  ⟨h.reached, h.fed, (length_set_bit ..).trans h.expanded⟩

theorem bit_expanded_expand (h : m.Sized count) (hpos : pos < count) (d : ℕ) :
    bit (m.expand pos).2.expanded d = true ↔ d = pos ∨ bit m.expanded d = true :=
  bit_set_bit h.expanded hpos d

/-- `m'` is `m` with the cursors of a list marked. -/
structure Adds (m m' : Marks) (cursors : List (ℕ × Bool)) : Prop where
  reached : ∀ d, bit m'.reached d = true ↔ bit m.reached d = true ∨ ∃ fed, (d, fed) ∈ cursors
  fed : ∀ d, bit m'.fed d = true ↔ bit m.fed d = true ∨ (d, true) ∈ cursors

variable {m' m'' : Marks} {cursors more : List (ℕ × Bool)}

theorem Adds.refl (m : Marks) : m.Adds m [] := ⟨by simp, by simp⟩

theorem Adds.trans (h : m.Adds m' cursors) (h' : m'.Adds m'' more) :
    m.Adds m'' (cursors ++ more) where
  reached := fun d => by
    rw [h'.reached, h.reached]
    simp only [mem_append, exists_or, or_assoc]
  fed := fun d => by
    rw [h'.fed, h.fed, mem_append, or_assoc]

/-- Marking again what is marked adds nothing. -/
theorem Adds.absorb (h : m.Adds m' cursors) (hmore : ∀ c ∈ more, m.Has c) :
    m.Adds m' (cursors ++ more) where
  reached := fun d => by
    rw [h.reached]
    simp only [mem_append, exists_or, ← or_assoc]
    refine (or_iff_left_of_imp ?_).symm
    rintro ⟨fed, hd⟩
    exact .inl (hmore _ hd).1
  fed := fun d => by
    rw [h.fed, mem_append, ← or_assoc]
    exact (or_iff_left_of_imp fun hd => .inl ((hmore (d, true) hd).2 rfl)).symm

theorem Adds.has (h : m.Adds m' cursors) : m.Has c ∨ c ∈ cursors → m'.Has c := by
  rintro (⟨hreached, hfed⟩ | hc)
  · exact ⟨(h.reached _).mpr (.inl hreached), fun hf => (h.fed _).mpr (.inl (hfed hf))⟩
  · exact ⟨(h.reached _).mpr (.inr ⟨c.2, hc⟩),
      fun hf => (h.fed _).mpr (.inr (by rwa [← hf]))⟩

theorem adds_mark (h : m.Sized count) (hpos : pos < count) (fed : Bool) :
    m.Adds (m.mark pos fed) [(pos, fed)] where
  reached := fun d => by
    rw [mark, bit_set_bit h.reached hpos]
    simp [or_comm]
  fed := fun d => by
    cases fed
    · simp [mark]
    · rw [mark, if_pos rfl, bit_set_bit h.fed hpos]
      simp [or_comm]

theorem adds_expand (m : Marks) (pos : ℕ) : m.Adds (m.expand pos).2 [] := ⟨by simp [expand], by simp
  [expand]⟩

/-- Every globstar from a position on whose continuation has been followed has
where that leads marked. -/
def Followed (m : Marks) (name : Bytes) (all : List Component) (pos : ℕ) : Prop :=
  ∀ e, pos ≤ e → bit m.expanded e = true →
    ∀ c ∈ leads name (all.drop (e + 1)) (e + 1) false, m.Has c

theorem Followed.of_adds {all : List Component} (h : m.Followed name all pos)
    (hadds : m.Adds m' cursors) {pos' : ℕ} (hpos : pos ≤ pos')
    (hexpanded : ∀ e, pos' ≤ e → bit m'.expanded e = true → bit m.expanded e = true) :
    m'.Followed name all pos' :=
  fun e he hexp c hc => hadds.has (.inl (h e (hpos.trans he) (hexpanded e he hexp) c hc))

end Marks

open Marks in
/-- **One cursor's walk marks where it leads.** -/
theorem follow_spec {pos : ℕ} (fed : Bool) (hsized : m.Sized all.length)
    (hfollowed : m.Followed name all pos) :
    let m' := follow name (all.drop pos) pos fed m
    m.Adds m' (leads name (all.drop pos) pos fed) ∧ m'.Sized all.length ∧
      m'.Followed name all pos ∧
      ∀ e, e < pos → (bit m'.expanded e = true ↔ bit m.expanded e = true) := by
  generalize hcomps : all.drop pos = comps
  induction comps generalizing pos fed m with
  | nil => exact ⟨Adds.refl m, hsized, hfollowed, fun e _ => .rfl⟩
  | cons d rest ih =>
    have hlen : all.length = pos + (rest.length + 1) := by
      have := congrArg List.length hcomps
      simp only [length_drop, length_cons] at this
      omega
    have hrest : all.drop (pos + 1) = rest := by
      rw [← tail_drop, hcomps, tail_cons]
    cases d with
    | glob g | never =>
      simp only [follow, leads]
      split
      · rename_i h
        have hadds := adds_mark hsized
          (by have := length_pos_iff.mpr h.1; omega : pos + 1 < all.length) false
        exact ⟨hadds, hsized.mark .., hfollowed.of_adds hadds le_rfl fun e _ h => h, fun e _ =>
          .rfl⟩
      · exact ⟨Adds.refl m, hsized, hfollowed, fun e _ => .rfl⟩
    | globstar z =>
      have hpos : pos < all.length := by omega
      have hmark := adds_mark hsized hpos true
      have hfollowed₁ : (m.mark pos true).Followed name all pos :=
        hfollowed.of_adds hmark le_rfl fun e _ h => h
      simp only [follow, leads]
      by_cases hz : (z || fed) = true
      · -- The continuation is that of a cursor on the next component.
        have hexpand := adds_expand (m.mark pos true) pos
        have hbit := bit_expanded_expand (hsized.mark pos true) hpos
        simp only [hz, Bool.not_true, Bool.false_eq_true, if_false, if_true, Marks.expand]
        rw [← singleton_append]
        by_cases hfirst : bit (m.mark pos true).expanded pos = true
        · have hold : ∀ e, bit ((m.mark pos true).expand pos).2.expanded e = true ↔
              bit (m.mark pos true).expanded e = true := by
            intro e
            rw [hbit]
            exact or_iff_right_of_imp fun he => he ▸ hfirst
          simp only [hfirst, Bool.not_true, Bool.not_false, if_true]
          refine ⟨?_, (hsized.mark ..).expand pos,
            hfollowed₁.of_adds hexpand le_rfl fun e _ => (hold e).mp, fun e _ => hold e⟩
          have := hmark.trans hexpand
          rw [append_nil] at this
          exact this.absorb fun c hc => hfollowed pos le_rfl hfirst c (hrest ▸ hc)
        · simp only [hfirst, Bool.not_false, Bool.not_true, Bool.false_eq_true, if_false]
          obtain ⟨hadds, hsized', hfollowed', hbelow⟩ := ih false
            ((hsized.mark pos true).expand pos)
            (hfollowed₁.of_adds hexpand (Nat.le_succ pos) fun e he h =>
              ((hbit e).mp h).resolve_left (by omega)) hrest
          refine ⟨?_, hsized', fun e he hexp c hc => ?_, fun e he => ?_⟩
          · have := (hmark.trans hexpand).trans hadds
            rwa [append_nil] at this
          · rcases Nat.eq_or_lt_of_le he with rfl | hlt
            · exact hadds.has (.inr (hrest ▸ hc))
            · exact hfollowed' e hlt hexp c hc
          · refine (hbelow e (Nat.lt_succ_of_lt he)).trans ((hbit e).trans ?_)
            exact or_iff_right (by omega)
      · simp only [Bool.not_eq_true] at hz
        simp only [hz, Bool.not_false, if_true, Bool.false_eq_true, if_false]
        exact ⟨hmark, hsized.mark .., hfollowed₁, fun e _ => .rfl⟩

theorem foldl_follow_spec (name : Bytes) (cursors : List (ℕ × Bool))
    (hsized : m.Sized all.length) (hfollowed : m.Followed name all 0) :
    let m' := cursors.foldl (fun m c => follow name (all.drop c.1) c.1 c.2 m) m
    m.Adds m' (cursors.flatMap fun c => leads name (all.drop c.1) c.1 c.2) ∧
      m'.Sized all.length := by
  induction cursors generalizing m with
  | nil => exact ⟨Marks.Adds.refl m, hsized⟩
  | cons c cursors ih =>
    -- What was followed before a cursor's own position stays marked.
    obtain ⟨hadds, hsized', hfollowed', hbelow⟩ := follow_spec c.2 hsized
      (hfollowed.of_adds (Marks.Adds.refl m) (Nat.zero_le c.1) fun e _ h => h)
    obtain ⟨hadds', hsized''⟩ := ih (m := follow name (all.drop c.1) c.1 c.2 m) hsized'
      fun e _ hexp d hd => by
        rcases lt_or_ge e c.1 with hlt | hge
        · exact hadds.has (.inl (hfollowed e (Nat.zero_le _) ((hbelow e hlt).mp hexp) d hd))
        · exact hfollowed' e hge hexp d hd
    exact ⟨hadds.trans hadds', hsized''⟩

theorem Marks.mem_drain :
    c ∈ m.drain ↔ bit m.reached c.1 = true ∧ c.2 = bit m.fed c.1 := by
  simp only [drain, mem_flatMap, mem_map, DocSet.mem_setBits, Prod.exists,
    mk_mem_zipIdx_iff_getElem?]
  constructor
  · rintro ⟨bits, word, hword, b, hb, rfl⟩
    have hlt : b < 64 := BitVec.lt_of_getLsbD hb
    refine ⟨?_, rfl⟩
    have h₁ : (word * 64 + b) / 64 = word := by omega
    have h₂ : (word * 64 + b) % 64 = b := by omega
    simp only [bit, h₁, h₂, getD_eq_getElem?_getD, hword, Option.getD_some, hb]
  · rintro ⟨hreached, hfed⟩
    have hc : c.1 / 64 * 64 + c.1 % 64 = c.1 := Nat.div_add_mod' c.1 64
    rw [bit, getD_eq_getElem?_getD] at hreached
    cases hword : m.reached[c.1 / 64]? with
    | none => simp [hword] at hreached
    | some bits =>
      rw [hword, Option.getD_some] at hreached
      exact ⟨bits, c.1 / 64, hword, c.1 % 64, hreached, by rw [hc, ← hfed]⟩

namespace Pattern

/-- What is left of this pattern at a cursor matches the path. -/
def Ahead (p : Pattern) (c : ℕ × Bool) (path : List Name) : Prop :=
  Policy.Ahead (p.components.drop c.1) c.2 path

/-- Only globstars of this pattern are fed. -/
def Feedable (p : Pattern) (c : ℕ × Bool) : Prop :=
  Policy.Feedable (p.components.drop c.1) c.2

variable {p : Pattern} {cursors : List (ℕ × Bool)} {c : ℕ × Bool} {path : List Name}

/-- A step's cursors are where its cursors lead, each position once and fed if
any led there fed. -/
theorem mem_step :
    let led := cursors.flatMap fun c => leads name (p.components.drop c.1) c.1 c.2
    c ∈ p.step cursors name ↔ (∃ fed, (c.1, fed) ∈ led) ∧ (c.2 = true ↔ (c.1, true) ∈ led) := by
  have hzero : ∀ d, bit (Marks.new p.components.length).reached d = false :=
    fun d => DocSet.bit_replicate_zero _ d
  have hzero' : ∀ d, bit (Marks.new p.components.length).fed d = false :=
    fun d => DocSet.bit_replicate_zero _ d
  obtain ⟨hadds, -⟩ := foldl_follow_spec name cursors
    (Marks.sized_new p.components.length)
    (fun e _ hexp => absurd hexp (by
      rw [show bit (Marks.new p.components.length).expanded e = false from
        DocSet.bit_replicate_zero _ e]
      simp))
  show c ∈ Marks.drain _ ↔ _
  rw [Marks.mem_drain]
  refine and_congr ?_ ?_
  · refine (hadds.reached c.1).trans ?_
    simp [hzero]
  · rw [Bool.eq_iff_iff, hadds.fed c.1]
    simp [hzero']

/-- **A step keeps what the cursors can still match.** -/
theorem exists_ahead_step {name : Name} (hpath : path ≠ []) :
    (∃ c ∈ p.step cursors name, p.Ahead c path) ↔ ∃ c ∈ cursors, p.Ahead c (name :: path) := by
  constructor
  · rintro ⟨c, hc, hahead⟩
    obtain ⟨⟨fed, hfed⟩, htrue⟩ := mem_step.mp hc
    have hled : c ∈ cursors.flatMap fun c => leads name (p.components.drop c.1) c.1 c.2 := by
      rcases hc2 : c.2 with _ | _
      · cases fed with
        | true => exact absurd (htrue.mpr hfed) (by simp [hc2])
        | false => rwa [← hc2] at hfed
      · have := htrue.mp hc2
        rwa [← hc2] at this
    obtain ⟨c', hc', hmem⟩ := mem_flatMap.mp hled
    exact ⟨c', hc', (ahead_cons_iff hpath ..).mpr ⟨c, hmem, hahead⟩⟩
  · rintro ⟨c', hc', hahead⟩
    obtain ⟨c, hmem, hc⟩ := (ahead_cons_iff hpath ..).mp hahead
    have hled : c ∈ cursors.flatMap fun c => leads name (p.components.drop c.1) c.1 c.2 :=
      mem_flatMap.mpr ⟨c', hc', hmem⟩
    by_cases htrue : (c.1, true) ∈ cursors.flatMap fun c =>
        leads name (p.components.drop c.1) c.1 c.2
    · exact ⟨(c.1, true), mem_step.mpr ⟨⟨true, htrue⟩, by simpa using htrue⟩, hc.feed hpath⟩
    · have hfalse : c.2 = false := by
        rw [← Bool.not_eq_true]
        exact fun h => htrue (h ▸ hled)
      exact ⟨c, mem_step.mpr ⟨⟨c.2, hled⟩, by simp [hfalse, htrue]⟩, hc⟩

theorem feedable_step (hc : c ∈ p.step cursors name) : p.Feedable c := by
  intro htrue
  obtain ⟨_, -, hmem⟩ := mem_flatMap.mp ((mem_step.mp hc).2.mp htrue)
  have : Policy.Feedable (p.components.drop c.1) true := feedable_of_leads hmem
  exact this rfl

/-- **The cursors of a directory**, from its path below the file's own. -/
def reach (p : Pattern) (path : List Name) : List (ℕ × Bool) :=
  path.foldl (fun cursors (name : Name) => p.step cursors name) [(0, false)]

theorem reach_append (p : Pattern) (path : List Name) (name : Name) :
    p.reach (path ++ [name]) = p.step (p.reach path) name := by
  simp [reach]

theorem feedable_reach (hc : c ∈ p.reach path) : p.Feedable c := by
  rcases eq_nil_or_concat path with rfl | ⟨path, _, rfl⟩
  · rw [mem_singleton.mp hc]
    exact fun h => absurd h (by simp)
  · rw [concat_eq_append, reach_append] at hc
    exact feedable_step hc

/-- **The cursors match below a directory what the pattern matches below its
file's.** -/
theorem exists_ahead_reach {below : List Name} (hbelow : below ≠ []) :
    (∃ c ∈ p.reach path, p.Ahead c below) ↔ Spans p.components (path ++ below) := by
  induction path using List.reverseRecOn generalizing below with
  | nil => simp [reach, Ahead]
  | append_singleton path _ ih =>
    rw [reach_append, exists_ahead_step hbelow, ih (by simp), append_assoc, singleton_append]

/-! ## Projections -/

theorem getElem?_flatMap_pair {α β : Type} (f g : α → β) (l : List α) (i : ℕ) :
    (l.flatMap fun a => [f a, g a])[2 * i]? = l[i]?.map f ∧
      (l.flatMap fun a => [f a, g a])[2 * i + 1]? = l[i]?.map g := by
  induction l generalizing i with
  | nil => simp
  | cons a l ih =>
    cases i with
    | zero => simp
    | succ i => simpa [mul_add] using ih i

theorem getElem?_projections (p : Pattern) (c : ℕ × Bool) :
    p.projections[2 * c.1 + c.2.toNat]? =
      if c.1 < p.components.length then
        some ((if c.2 then fed_tail (p.components.drop c.1) else tail (p.components.drop c.1)).map
          p.as_basename)
      else none := by
  obtain ⟨pos, fed⟩ := c
  obtain ⟨heven, hodd⟩ := getElem?_flatMap_pair
    (fun pos => (tail (p.components.drop pos)).map p.as_basename)
    (fun pos => (fed_tail (p.components.drop pos)).map p.as_basename)
    (List.range p.components.length) pos
  cases fed with
  | false =>
    refine Eq.trans heven ?_
    split <;> simp_all
  | true =>
    refine Eq.trans hodd ?_
    split <;> simp_all

/-- A basename pattern of one glob. -/
theorem matches_name_as_basename (p : Pattern) (g : ComponentGlob) (name : Bytes) (is_dir : Bool) :
    (p.as_basename g).matches_name name is_dir = true ↔
      (p.directory_only = true → is_dir = true) ∧ g.Matches name := by
  rw [← g.matches_iff]
  cases h : p.directory_only <;> simp [matches_name, as_basename, h]

/-- **A cursor's projection matches what the cursor does.** -/
theorem projection_iff (hc : p.Feedable c) (name : Name) (is_dir : Bool) :
    (∃ q, p.projections[2 * c.1 + c.2.toNat]? = some (some q) ∧
        q.matches_name name is_dir = true) ↔
      (p.directory_only = true → is_dir = true) ∧ p.Ahead c [name] := by
  rw [Ahead, ahead_singleton_iff hc, getElem?_projections]
  split
  · simp only [Option.some.injEq, Option.map_eq_some_iff]
    constructor
    · rintro ⟨q, ⟨g, hg, rfl⟩, hq⟩
      obtain ⟨hdir, hname⟩ := (matches_name_as_basename ..).mp hq
      exact ⟨hdir, g, hg, hname⟩
    · rintro ⟨hdir, g, hg, hname⟩
      exact ⟨_, ⟨g, hg, rfl⟩, (matches_name_as_basename ..).mpr ⟨hdir, hname⟩⟩
  · rename_i h
    rw [drop_eq_nil_of_le (not_lt.mp h)]
    simp [fed_tail]

end Pattern

end Ferret.Policy
