import Ferret.Policy.LastMatch
import Ferret.Policy.Rules
import Ferret.Policy.Stepping

/-!
# What a layer says of an entry

A layer's rules for a directory say of an entry what the last line of its file
says whose pattern matches the entry's path below the file's directory. Its
shared rules are in force everywhere below, and the cursors of its anchored
patterns are those of the directory's path, so each line puts into the list
rules that match the entry's name exactly if the line matches its path; and the
merge puts them in the order of the lines.
-/

namespace Ferret.Policy

open List Option

/-! ## Last matches -/

/-- What the last rule that matches an entry says. -/
def answer (rules : List Rule) (name : Bytes) (is_dir : Bool) : Option (Bool × Bool) :=
  (rules.reverse.find? fun rule => rule.pattern.matches_name name is_dir).map fun rule =>
    (rule.pattern.is_whitelist, rule.band == .ferret)

@[simp]
theorem answer_nil (name : Bytes) (is_dir : Bool) : answer [] name is_dir = none := rfl

theorem answer_append (rules more : List Rule) (name : Bytes) (is_dir : Bool) :
    answer (rules ++ more) name is_dir =
      (answer more name is_dir).or (answer rules name is_dir) := by
  rw [answer, reverse_append, find?_append, map_or]
  rfl

theorem answer_flatMap {α : Type} (f : α → List Rule) (l : List α) (name : Bytes) (is_dir : Bool) :
    answer (l.flatMap f) name is_dir =
      l.reverse.findSome? fun a => answer (f a) name is_dir := by
  induction l with
  | nil => rfl
  | cons a l ih =>
    rw [flatMap_cons, answer_append, ih, reverse_cons, findSome?_append]
    cases h : answer (f a) name is_dir <;> simp [h]

/-- The last of a list's elements with a property, by its position. -/
theorem find?_reverse_of_last {α : Type} {q : α → Bool} {l : List α} {i : ℕ} {a : α}
    (ha : l[i]? = some a) (hq : q a = true) (hlast : ∀ j b, l[j]? = some b → q b = true → j ≤ i) :
    l.reverse.find? q = some a := by
  have hi : i < l.length := (List.getElem?_eq_some_iff.mp ha).1
  have hsplit : l = l.take i ++ a :: l.drop (i + 1) := by
    rw [← (List.getElem?_eq_some_iff.mp ha).2, getElem_cons_drop, take_append_drop]
  have hnone : (l.drop (i + 1)).reverse.find? q = none := by
    rw [find?_eq_none]
    intro b hb hqb
    obtain ⟨j, hj⟩ := mem_iff_getElem?.mp (mem_reverse.mp hb)
    rw [getElem?_drop] at hj
    have := hlast _ b hj hqb
    omega
  rw [hsplit]
  simp [find?_append, hnone, hq]

variable (rules : List Rule)

theorem pairwise_renumbered :
    (rules.zipIdx.map fun (rule, i) => rule.pattern.renumbered i).Pairwise
      fun p q => p.index ≤ q.index := by
  rw [pairwise_map]
  refine pairwise_iff_getElem.mpr fun i j hi hj hij => ?_
  simpa [Pattern.renumbered] using hij.le

theorem index_compile :
    (RuleList.compile rules).index =
      (rules.zipIdx.map fun (rule, i) => rule.pattern.renumbered i).foldl Gitignore.push
        Gitignore.empty := by
  rw [RuleList.compile, Gitignore.from_patterns, (pairwise_renumbered rules).insertionSort_eq]

/-- The index of a compiled list answers for the last of its rules. -/
theorem latest_compile (name : Bytes) (is_dir : Bool) :
    Latest (fun a => ∃ (i : ℕ) (r : Rule), rules[i]? = some r ∧ a = (r.pattern.renumbered i).fast ∧
        r.pattern.matches_name name is_dir = true)
      ((RuleList.compile rules).index.best_match name is_dir none) := by
  rw [index_compile]
  refine (Gitignore.latest_best_match name is_dir none (Gitignore.files_foldl _)
    (pairwise_renumbered rules)).congr fun a => ?_
  simp only [List.mem_map, Prod.exists, mk_mem_zipIdx_iff_getElem?]
  constructor
  · rintro ⟨i, r, hr, rfl, hmatch⟩
    exact ⟨_, ⟨r, i, hr, rfl⟩, rfl, rfl, hmatch⟩
  · rintro ⟨_, ⟨r, i, hr, rfl⟩, rfl, -, hmatch⟩
    exact ⟨i, r, hr, rfl, hmatch⟩

/-- **A compiled list's last match is that of its rules.** Ferret's rules come
last. -/
theorem last_match_compile {rules ferret : List Rule} (hrules : ∀ r ∈ rules, r.band ≠ .ferret)
    (hferret : ∀ r ∈ ferret, r.band = .ferret) (name : Bytes) (is_dir : Bool) :
    (RuleList.compile (rules ++ ferret)).last_match name is_dir
      = answer (rules ++ ferret) name is_dir := by
  have hfrom : (RuleList.compile (rules ++ ferret)).ferret_from = rules.length := by
    have htake : (rules ++ ferret).takeWhile (fun r => decide (r.band ≠ .ferret)) = rules := by
      rw [takeWhile_append_of_pos (by simpa using hrules)]
      cases ferret with
      | nil => simp
      | cons r ferret => simp [hferret r (mem_cons_self ..)]
    simp only [RuleList.compile]
    exact congrArg List.length htake
  have hband : ∀ i r, (rules ++ ferret)[i]? = some r →
      (decide (rules.length ≤ i) = (r.band == .ferret)) := by
    intro i r hr
    rcases lt_or_ge i rules.length with hlt | hge
    · rw [getElem?_append_left hlt] at hr
      have hne := hrules r (mem_of_getElem? hr)
      rw [beq_eq_false_iff_ne.mpr hne, decide_eq_false (Nat.not_le.mpr hlt)]
    · rw [getElem?_append_right hge] at hr
      rw [hferret r (mem_of_getElem? hr), decide_eq_true hge]
      rfl
  have hlatest := latest_compile (rules ++ ferret) name is_dir
  rw [RuleList.last_match, Gitignore.best, Gitignore.best_below, hfrom, answer]
  cases hbest : (RuleList.compile (rules ++ ferret)).index.best_match name is_dir none with
  | none =>
    rw [hbest] at hlatest
    have hnone : (rules ++ ferret).reverse.find?
        (fun rule => rule.pattern.matches_name name is_dir) = none := by
      rw [find?_eq_none]
      intro r hr hmatch
      obtain ⟨i, hi⟩ := mem_iff_getElem?.mp (mem_reverse.mp hr)
      exact hlatest _ ⟨i, r, hi, rfl, hmatch⟩
    rw [hnone]
    rfl
  | some a =>
    rw [hbest] at hlatest
    obtain ⟨⟨i, r, hr, rfl, hmatch⟩, hmax⟩ := hlatest
    rw [find?_reverse_of_last hr hmatch fun j b hb hm => hmax _ ⟨j, b, hb, rfl, hm⟩]
    show some (r.pattern.result == .whitelist, decide (rules.length ≤ i)) = _
    rw [hband i r hr]
    rfl

/-! ## Lines -/

/-- **A rule stands for a basename pattern** in a band: it is in the table and
has the pattern's text. -/
structure Rule.Stands (table : Rule → Prop) (band : Band) (rule : Rule) (q : Pattern) : Prop where
  mem : table rule
  text : rule.pattern.text = q.text
  band_eq : rule.band = band

variable {g : ComponentGlob}

/-- Patterns with one text match the same names. -/
theorem matches_name_of_text {p q : Pattern} (h : p.text = q.text) (hg : q.text.glob = some g)
    (name : Bytes) (is_dir : Bool) :
    p.matches_name name is_dir = q.matches_name name is_dir := by
  have hhead : ∀ {p : Pattern}, p.text.glob = some g → p.components.head? = some (.glob g) := by
    intro p hp
    simp only [Pattern.text] at hp
    split at hp
    · rename_i hc
      rw [hc, Option.some.inj hp]
    · simp at hp
  have hdir : p.directory_only = q.directory_only := congrArg RuleText.directory_only h
  rw [Pattern.matches_name, Pattern.matches_name, hdir, hhead hg, hhead (h ▸ hg)]

theorem Rule.Stands.matches_name {table : Rule → Prop} {band : Band} {rule : Rule} {p : Pattern}
    (h : rule.Stands table band (p.as_basename g)) (name : Bytes) (is_dir : Bool) :
    rule.pattern.matches_name name is_dir = (p.as_basename g).matches_name name is_dir :=
  matches_name_of_text h.text rfl name is_dir

theorem Rule.Stands.is_whitelist {table : Rule → Prop} {band : Band} {rule : Rule} {p : Pattern}
    (h : rule.Stands table band (p.as_basename g)) :
    rule.pattern.is_whitelist = p.is_whitelist := congrArg RuleText.whitelist h.text

theorem exists_as_basename {p q : Pattern} (h : some q ∈ p.projections) :
    ∃ g, q = p.as_basename g := by
  simp only [Pattern.projections, mem_flatMap, mem_cons, not_mem_nil, or_false] at h
  obtain ⟨_, -, h | h⟩ := h
  all_goals
    obtain ⟨g, -, rfl⟩ := map_eq_some_iff.mp h.symm
    exact ⟨g, rfl⟩

/-- **The lines of a file, compiled**, one constructor for each kind. -/
inductive Compiled (table : Rule → Prop) (band : Band) :
    List Pattern → List (ℕ × Rule) → List Anchored → Prop
  | nil : Compiled table band [] [] []
  | shared {p q ps shared anchored rule} : p.is_shared_basename = true →
    p.projections.head? = some (some q) → rule.Stands table band q →
    Compiled table band ps shared anchored →
    Compiled table band (p :: ps) ((p.line, rule) :: shared) anchored
  | vain {p ps shared anchored} : p.is_shared_basename = true →
    (∀ q, p.projections.head? ≠ some (some q)) → Compiled table band ps shared anchored →
    Compiled table band (p :: ps) shared anchored
  | anchored {p ps shared anchored projections reaches} : p.is_shared_basename = false →
    List.Forall₂ (Option.Rel (Rule.Stands table band)) projections p.projections →
    Compiled table band ps shared anchored →
    Compiled table band (p :: ps) shared (⟨p, projections, reaches⟩ :: anchored)

/-! ## A shared line -/

/-- A shared line matches an entry wherever it is below the file. -/
theorem matches_shared_iff {p : Pattern} (h : p.is_shared_basename = true) (path : List Name)
    (name : Name) (is_dir : Bool) :
    p.Matches (path ++ [name]) is_dir ↔
      ∃ q, p.projections.head? = some (some q) ∧ q.matches_name name is_dir = true := by
  have hfirst := Pattern.projection_iff (p := p) (c := (0, false)) (fun h => absurd h (by simp))
    name is_dir
  simp only [Bool.toNat_false, mul_zero, add_zero, ← head?_eq_getElem?] at hfirst
  rw [hfirst]
  refine and_congr .rfl ?_
  show _ ↔ Spans p.components [name]
  by_cases hbase : p.basename_only = true
  · simp [hbase]
  · rw [if_neg hbase]
    simp only [Pattern.is_shared_basename, Bool.or_eq_true, hbase] at h
    split at h
    · rename_i c hc
      rw [hc, spans_shared_iff]
      exact (spans_shared_iff [] name).symm
    · simp at h

/-! ## An anchored line -/

/-- An anchored line matches an entry of a directory if one of the directory's
cursors projects to a rule that does. -/
theorem matches_anchored_iff {p : Pattern} (h : p.is_shared_basename = false) (path : List Name)
    (name : Name) (is_dir : Bool) :
    p.Matches (path ++ [name]) is_dir ↔
      ∃ c ∈ p.reach path, ∃ q, p.projections[2 * c.1 + c.2.toNat]? = some (some q) ∧
        q.matches_name name is_dir = true := by
  have hbase : p.basename_only = false := by
    simp only [Pattern.is_shared_basename, Bool.or_eq_false_iff] at h
    exact h.1
  rw [Pattern.Matches, hbase, if_neg (by simp), ← Pattern.exists_ahead_reach (by simp)]
  constructor
  · rintro ⟨hdir, c, hc, hahead⟩
    exact ⟨c, hc, (Pattern.projection_iff (Pattern.feedable_reach hc) name is_dir).mpr ⟨hdir, hahead⟩⟩
  · rintro ⟨c, hc, hq⟩
    obtain ⟨hdir, hahead⟩ :=
      (Pattern.projection_iff (Pattern.feedable_reach hc) name is_dir).mp hq
    exact ⟨hdir, c, hc, hahead⟩

/-! ## A layer's rules -/

/-- The cursors of a directory, for anchored patterns from a slot on. -/
def cursorsFrom (slot : ℕ) (anchored : List Anchored) (path : List Name) : List Cursor :=
  (anchored.zipIdx slot).flatMap fun (a, slot) =>
    (a.pattern.reach path).map fun (pos, fed) => ⟨slot, pos, fed⟩

theorem cursorsFrom_cons (slot : ℕ) (a : Anchored) (anchored : List Anchored) (path : List Name) :
    cursorsFrom slot (a :: anchored) path =
      (a.pattern.reach path).map (fun (pos, fed) => (⟨slot, pos, fed⟩ : Cursor)) ++
        cursorsFrom (slot + 1) anchored path := by
  simp [cursorsFrom]

variable {table : Rule → Prop} {band : Band} {ps : List Pattern} {shared : List (ℕ × Rule)}
  {anchored : List Anchored} {source : Source}

theorem Compiled.lines (h : Compiled table band ps shared anchored) :
    (∀ e ∈ shared, ∃ p ∈ ps, e.1 = p.line) ∧ ∀ a ∈ anchored, a.pattern ∈ ps := by
  induction h with
  | nil => simp
  | shared _ _ _ _ ih =>
    refine ⟨?_, fun a ha => .tail _ (ih.2 a ha)⟩
    rintro e he
    rcases mem_cons.mp he with rfl | he
    · exact ⟨_, .head _, rfl⟩
    · obtain ⟨p, hp, hline⟩ := ih.1 e he
      exact ⟨p, .tail _ hp, hline⟩
  | vain _ _ _ ih =>
    refine ⟨fun e he => ?_, fun a ha => .tail _ (ih.2 a ha)⟩
    obtain ⟨p, hp, hline⟩ := ih.1 e he
    exact ⟨p, .tail _ hp, hline⟩
  | anchored _ _ _ ih =>
    refine ⟨fun e he => ?_, fun a ha => ?_⟩
    · obtain ⟨p, hp, hline⟩ := ih.1 e he
      exact ⟨p, .tail _ hp, hline⟩
    · rcases mem_cons.mp ha with rfl | ha
      · exact .head _
      · exact .tail _ (ih.2 a ha)

/-- The first shared rule goes before cursors of later lines. -/
theorem merge_rules_shared {line : ℕ} {rule : Rule} {cursors : List Cursor}
    (h : ∀ c ∈ cursors, ∀ a, source.anchored[c.slot]? = some a → line < a.pattern.line) :
    Layer.merge_rules source ((line, rule) :: shared) cursors =
      rule :: Layer.merge_rules source shared cursors := by
  induction cursors with
  | nil => simp [Layer.merge_rules]
  | cons c cursors ih =>
    rw [Layer.merge_rules, Layer.merge_rules]
    cases hslot : source.anchored[c.slot]? with
    | none => exact ih fun d hd => h d (.tail _ hd)
    | some a =>
      have hlt := h c (.head _) a hslot
      simp [hlt]

variable {slot : ℕ}

/-- The cursors of one pattern go before shared rules of later lines. -/
theorem merge_rules_anchored {a : Anchored} (hslot : source.anchored[slot]? = some a)
    (hshared : ∀ e ∈ shared, a.pattern.line < e.1) (own : List (ℕ × Bool)) (cursors : List Cursor) :
    Layer.merge_rules source shared
        (own.map (fun (pos, fed) => (⟨slot, pos, fed⟩ : Cursor)) ++ cursors) =
      own.filterMap (fun c => (a.projections[2 * c.1 + c.2.toNat]?).join) ++
        Layer.merge_rules source shared cursors := by
  induction own with
  | nil => rfl
  | cons c own ih =>
    have htake : shared.takeWhile (fun entry => entry.1 < a.pattern.line) = [] := by
      cases shared with
      | nil => rfl
      | cons e shared =>
        have := hshared e (.head _)
        rw [takeWhile_cons_of_neg (by simp; omega)]
    have hdrop : shared.dropWhile (fun entry => entry.1 < a.pattern.line) = shared := by
      cases shared with
      | nil => rfl
      | cons e shared =>
        have := hshared e (.head _)
        rw [dropWhile_cons_of_neg (by simp; omega)]
    rw [map_cons, cons_append, Layer.merge_rules]
    simp only [hslot, htake, hdrop, map_nil, nil_append, ih, filterMap_cons]
    cases (a.projections[2 * c.1 + c.2.toNat]?).join <;> simp

open Classical in
/-- What the last line that matches a path says. -/
noncomputable def last_line (band : Band) (ps : List Pattern) (path : List Name) (is_dir : Bool) :
    Option (Bool × Bool) :=
  (ps.reverse.find? fun p => p.Matches path is_dir).map fun p => (p.is_whitelist, band == .ferret)

open Classical in
theorem last_line_cons (p : Pattern) (path : List Name) (is_dir : Bool) :
    last_line band (p :: ps) path is_dir =
      (last_line band ps path is_dir).or
        (if p.Matches path is_dir then some (p.is_whitelist, band == .ferret) else none) := by
  rw [last_line, reverse_cons, find?_append, map_or]
  congr 1
  by_cases h : p.Matches path is_dir <;> simp [h]

/-- Rules that all say one thing say it if one of them matches. -/
theorem answer_eq {rules : List Rule} {word : Bool × Bool} {name : Bytes} {is_dir : Bool}
    (h : ∀ r ∈ rules, (r.pattern.is_whitelist, r.band == .ferret) = word) (P : Prop) [Decidable P]
    (hP : P ↔ ∃ r ∈ rules, r.pattern.matches_name name is_dir = true) :
    answer rules name is_dir = if P then some word else none := by
  rw [answer]
  cases hfind : rules.reverse.find? fun rule => rule.pattern.matches_name name is_dir with
  | none =>
    rw [if_neg]
    · rfl
    · rw [hP]
      rintro ⟨r, hr, hmatch⟩
      exact find?_eq_none.mp hfind r (mem_reverse.mpr hr) hmatch
  | some r =>
    have hr := mem_reverse.mp (mem_of_find?_eq_some hfind)
    have hmatch : r.pattern.matches_name name is_dir = true := by
      simpa using find?_some hfind
    rw [if_pos (hP.mpr ⟨r, hr, hmatch⟩), map_some, h r hr]

variable {path : List Name}

theorem mem_cursorsFrom {c : Cursor} (h : c ∈ cursorsFrom slot anchored path) :
    ∃ i a, c.slot = slot + i ∧ anchored[i]? = some a ∧ (c.pos, c.fed) ∈ a.pattern.reach path := by
  simp only [cursorsFrom, mem_flatMap, List.mem_map, Prod.exists] at h
  obtain ⟨a, j, ha, _, _, hreach, rfl⟩ := h
  obtain ⟨_, ha⟩ := mk_mem_zipIdx_iff_le_and_getElem?_sub.mp ha
  exact ⟨j - slot, a, by simp; omega, ha, hreach⟩

/-- Interned projections are at the places of the patterns'. -/
theorem forall₂_getElem? {α β : Type} {R : α → β → Prop} {l : List (Option α)}
    {l' : List (Option β)} (h : List.Forall₂ (Option.Rel R) l l') (i : ℕ) :
    Option.Rel R (l[i]?.join) (l'[i]?.join) := by
  induction h generalizing i with
  | nil => simp
  | cons hab _ ih =>
    cases i with
    | zero => simpa using hab
    | succ i => simpa using ih i

/-- The rules of an anchored line's cursors say what the line says. -/
theorem answer_projections {p : Pattern} {projections : List (Option Rule)}
    (hanchored : p.is_shared_basename = false)
    (h : List.Forall₂ (Option.Rel (Rule.Stands table band)) projections p.projections)
    (path : List Name) (name : Name) (is_dir : Bool) [Decidable (p.Matches (path ++ [name]) is_dir)] :
    answer ((p.reach path).filterMap fun c => (projections[2 * c.1 + c.2.toNat]?).join) name is_dir =
      if p.Matches (path ++ [name]) is_dir then some (p.is_whitelist, band == .ferret) else none := by
  -- A projection's rule and its pattern, at one place.
  have hplace : ∀ c : ℕ × Bool,
      (∀ r, (projections[2 * c.1 + c.2.toNat]?).join = some r → ∃ g,
        p.projections[2 * c.1 + c.2.toNat]? = some (some (p.as_basename g)) ∧
          r.Stands table band (p.as_basename g)) ∧
      ∀ q, p.projections[2 * c.1 + c.2.toNat]? = some (some q) → ∃ r,
        (projections[2 * c.1 + c.2.toNat]?).join = some r := by
    intro c
    have hrel := forall₂_getElem? h (2 * c.1 + c.2.toNat)
    refine ⟨fun r hr => ?_, fun q hq => ?_⟩
    · rw [hr] at hrel
      cases hq : p.projections[2 * c.1 + c.2.toNat]? with
      | none => rw [hq] at hrel; cases hrel
      | some q =>
        rw [hq] at hrel
        cases q with
        | none => cases hrel
        | some q =>
          obtain ⟨g, rfl⟩ := exists_as_basename (mem_of_getElem? hq)
          cases hrel with
          | some hstands => exact ⟨g, rfl, hstands⟩
    · rw [hq] at hrel
      cases hr : (projections[2 * c.1 + c.2.toNat]?).join with
      | none => rw [hr] at hrel; cases hrel
      | some r => exact ⟨r, rfl⟩
  refine answer_eq ?_ _ ?_
  · intro r hr
    obtain ⟨c, -, hr⟩ := mem_filterMap.mp hr
    obtain ⟨g, -, hstands⟩ := (hplace c).1 r hr
    rw [hstands.is_whitelist, hstands.band_eq]
  · rw [matches_anchored_iff hanchored]
    constructor
    · rintro ⟨c, hc, q, hq, hmatch⟩
      obtain ⟨r, hr⟩ := (hplace c).2 q hq
      obtain ⟨g, hg, hstands⟩ := (hplace c).1 r hr
      obtain rfl : q = p.as_basename g := Option.some.inj (Option.some.inj (hq.symm.trans hg))
      exact ⟨r, mem_filterMap.mpr ⟨c, hc, hr⟩, by rwa [hstands.matches_name]⟩
    · rintro ⟨r, hr, hmatch⟩
      obtain ⟨c, hc, hr⟩ := mem_filterMap.mp hr
      obtain ⟨g, hg, hstands⟩ := (hplace c).1 r hr
      exact ⟨c, hc, _, hg, by rwa [hstands.matches_name] at hmatch⟩

/-- **The merged rules say of an entry what the last line that matches its path
says.** -/
theorem Compiled.answer_merge_rules (h : Compiled table band ps shared anchored)
    (hlines : ps.Pairwise fun p q => p.line < q.line) (hslot : source.anchored.drop slot = anchored)
    (path : List Name) (name : Name) (is_dir : Bool) :
    answer (Layer.merge_rules source shared (cursorsFrom slot anchored path)) name is_dir =
      last_line band ps (path ++ [name]) is_dir := by
  classical
  induction h generalizing slot with
  | nil => simp [cursorsFrom, Layer.merge_rules, last_line]
  | @shared p q ps shared anchored _ hshared hq hrule hrest ih =>
    obtain ⟨hline, hlines⟩ := pairwise_cons.mp hlines
    have hlater : ∀ c ∈ cursorsFrom slot anchored path, ∀ a,
        source.anchored[c.slot]? = some a → p.line < a.pattern.line := by
      intro c hc a ha
      obtain ⟨i, _, hi, ha', -⟩ := mem_cursorsFrom hc
      rw [hi, ← getElem?_drop, hslot, ha'] at ha
      cases ha
      exact hline _ (hrest.lines.2 _ (mem_of_getElem? ha'))
    obtain ⟨g, rfl⟩ := exists_as_basename (mem_of_mem_head? hq)
    rw [merge_rules_shared hlater, ← singleton_append, answer_append, ih hlines hslot,
      last_line_cons]
    congr 1
    refine answer_eq ?_ _ ?_
    · simp [hrule.is_whitelist, hrule.band_eq]
    · rw [matches_shared_iff hshared]
      simp [hq, hrule.matches_name]
  | @vain p ps shared anchored hshared hvain hrest ih =>
    have hno : ¬ p.Matches (path ++ [name]) is_dir := by
      rw [matches_shared_iff hshared]
      rintro ⟨q, hq, -⟩
      exact hvain q hq
    rw [ih (pairwise_cons.mp hlines).2 hslot, last_line_cons, if_neg hno, or_none]
  | @anchored p ps shared anchored projections reaches hanchored hprojections hrest ih =>
    obtain ⟨hline, hlines⟩ := pairwise_cons.mp hlines
    have hown : source.anchored[slot]? = some ⟨p, projections, reaches⟩ := by
      rw [← add_zero slot, ← getElem?_drop, hslot]
      rfl
    have hshared : ∀ e ∈ shared, p.line < e.1 := by
      intro e he
      obtain ⟨q, hq, heq⟩ := hrest.lines.1 e he
      rw [heq]
      exact hline q hq
    have hslot' : source.anchored.drop (slot + 1) = anchored := by
      rw [← tail_drop, hslot, tail_cons]
    rw [cursorsFrom_cons, merge_rules_anchored hown hshared, answer_append, ih hlines hslot',
      last_line_cons, answer_projections hanchored hprojections]

/-! ## A layer's cursors -/

theorem step_nil (p : Pattern) (name : Bytes) : p.step [] name = [] := by
  refine eq_nil_iff_forall_not_mem.mpr fun c hc => ?_
  obtain ⟨⟨_, hfed⟩, -⟩ := Pattern.mem_step.mp hc
  simp at hfed

/-- One pattern's cursors are one group, and step together. -/
theorem step_own {a : Anchored} (hslot : source.anchored[slot]? = some a)
    (cursors : List (ℕ × Bool)) (name : Bytes) :
    ((cursors.map fun (pos, fed) => (⟨slot, pos, fed⟩ : Cursor)).splitBy
        fun a b => a.slot == b.slot).flatMap (Layer.step_group source name) =
      (a.pattern.step cursors name).map fun (pos, fed) => (⟨slot, pos, fed⟩ : Cursor) := by
  cases cursors with
  | nil => simp [step_nil]
  | cons c cursors =>
    rw [splitBy_of_isChain (by simp)]
    · have hpairs : ((c :: cursors).map fun (pos, fed) => (⟨slot, pos, fed⟩ : Cursor)).map
          (fun cursor => (cursor.pos, cursor.fed)) = c :: cursors := by
        rw [List.map_map]
        exact List.map_id _
      rw [flatMap_singleton, Layer.step_group, map_cons, head?_cons]
      simp only [hslot]
      exact congrArg _ (congrArg (fun cursors => a.pattern.step cursors name) hpairs)
    · rw [isChain_map]
      simp [isChain_iff_getElem]

/-- **A directory's cursors step to its child's.** -/
theorem step_cursorsFrom (hslot : source.anchored.drop slot = anchored) (path : List Name)
    (name : Name) :
    ((cursorsFrom slot anchored path).splitBy fun a b => a.slot == b.slot).flatMap
        (Layer.step_group source name) = cursorsFrom slot anchored (path ++ [name]) := by
  induction anchored generalizing slot with
  | nil => rfl
  | cons a anchored ih =>
    have hown : source.anchored[slot]? = some a := by
      rw [← add_zero slot, ← getElem?_drop, hslot]
      rfl
    have hslot' : source.anchored.drop (slot + 1) = anchored := by
      rw [← tail_drop, hslot, tail_cons]
    rw [cursorsFrom_cons, cursorsFrom_cons, splitBy_append, flatMap_append, ih hslot',
      step_own hown, Pattern.reach_append]
    intro x hx y hy
    obtain ⟨c, -, rfl⟩ := List.mem_map.mp (mem_of_mem_getLast? hx)
    obtain ⟨i, -, hi, -⟩ := mem_cursorsFrom (mem_of_mem_head? hy)
    simp [hi]
    omega

/-- **A file's layer in a directory**, from its lines and the path below its
own directory. -/
structure Layer.Holds (table : Rule → Prop) (band : Band) (ps : List Pattern) (path : List Name)
    (l : Layer) : Prop where
  compiled : Compiled table band ps l.source.shared l.source.anchored
  lines : ps.Pairwise fun p q => p.line < q.line
  cursors : l.cursors = cursorsFrom 0 l.source.anchored path

theorem Layer.Holds.answer_rules {l : Layer} (h : l.Holds table band ps path) (name : Name)
    (is_dir : Bool) :
    answer l.rules name is_dir = last_line band ps (path ++ [name]) is_dir := by
  rw [Layer.rules, h.cursors]
  exact h.compiled.answer_merge_rules h.lines rfl path name is_dir

theorem Layer.Holds.stepped {l : Layer} (h : l.Holds table band ps path) (name : Name) :
    ((l.stepped name).getD l).Holds table band ps (path ++ [name]) := by
  have hout : ((l.cursors.splitBy fun a b => a.slot == b.slot).flatMap
      (Layer.step_group l.source name)) = cursorsFrom 0 l.source.anchored (path ++ [name]) := by
    rw [h.cursors]
    exact step_cursorsFrom rfl path name
  unfold Layer.stepped
  split
  · rename_i hempty
    refine ⟨h.compiled, h.lines, ?_⟩
    rw [getD_none, ← hout, hempty]
    rfl
  · simp only [hout]
    split
    · rename_i hsame
      exact ⟨h.compiled, h.lines, hsame.symm⟩
    · exact ⟨h.compiled, h.lines, rfl⟩

/-- No line of the file can match below the directory. -/
def Dead (ps : List Pattern) (path : List Name) : Prop :=
  ∀ below, below ≠ [] → ∀ is_dir, ∀ p ∈ ps, ¬ p.Matches (path ++ below) is_dir

theorem Dead.last_line (h : Dead ps path) (name : Name) (is_dir : Bool) :
    last_line band ps (path ++ [name]) is_dir = none := by
  classical
  rw [Policy.last_line, find?_eq_none.mpr]
  · rfl
  · intro p hp
    simpa using h [name] (by simp) is_dir p (mem_reverse.mp hp)

theorem Dead.stepped (h : Dead ps path) (name : Name) :
    Dead ps (path ++ [name]) := by
  intro below _ is_dir p hp
  rw [append_assoc, singleton_append]
  exact h _ (by simp) is_dir p hp

/-- A file with no shared rule and no cursor left cannot match. -/
theorem Compiled.dead (h : Compiled table band ps shared anchored) (hshared : shared = [])
    (hcursors : cursorsFrom slot anchored path = []) : Dead ps path := by
  induction h generalizing slot with
  | nil => exact fun _ _ _ _ hp => absurd hp (by simp)
  | shared => simp at hshared
  | @vain p ps shared anchored hp hvain hrest ih =>
    intro below hbelow is_dir q hq
    rcases mem_cons.mp hq with rfl | hq
    · obtain ⟨_, _, rfl⟩ := eq_nil_or_concat below |>.resolve_left hbelow
      rw [concat_eq_append, ← append_assoc, matches_shared_iff hp]
      rintro ⟨q, hq, -⟩
      exact hvain q hq
    · exact ih hshared hcursors below hbelow is_dir q hq
  | @anchored p ps shared anchored _ _ hp _ hrest ih =>
    rw [cursorsFrom_cons, append_eq_nil_iff, map_eq_nil_iff] at hcursors
    intro below hbelow is_dir q hq
    rcases mem_cons.mp hq with rfl | hq
    · have hbase : q.basename_only = false := by
        simp only [Pattern.is_shared_basename, Bool.or_eq_false_iff] at hp
        exact hp.1
      rw [Pattern.Matches, hbase, if_neg (by simp), ← Pattern.exists_ahead_reach hbelow, hcursors.1]
      simp
    · exact ih hshared hcursors.2 below hbelow is_dir q hq

theorem Layer.Holds.dead {l : Layer} (h : l.Holds table band ps path) (hlive : l.live = none) :
    Dead ps path := by
  unfold Layer.live at hlive
  split at hlive
  · simp at hlive
  · rename_i hnone
    obtain ⟨hshared, hcursors⟩ := not_or.mp hnone
    exact h.compiled.dead (not_not.mp hshared) (h.cursors ▸ not_not.mp hcursors)

theorem Layer.live_eq_some {l l' : Layer} (h : l.live = some l') : l' = l := by
  unfold Layer.live at h
  split at h
  · exact (Option.some.inj h).symm
  · simp at h

end Ferret.Policy
