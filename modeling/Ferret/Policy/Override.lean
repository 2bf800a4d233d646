import Ferret.Policy.Stepping

/-!
# Overrides

A pattern of the command line is matched against one whole path: its cursors
are stepped through the parents, and what they project to is asked about the
last component. The projections are kept for the next path, and a `**/X` asks
its only one without stepping.

Two facts tie this to the line as it was written. A run of zero-allowing
globstars was collapsed to one, which matches the same paths; and a step gives
each position once, in order, so that a position is looked up in projections
that have it.
-/

namespace Ferret.Policy

open List

/-! ## Collapsed globstars -/

variable {path : List Name}

/-- **A zero-allowing globstar after another adds nothing.** -/
theorem spans_collapse_iff {rest : List Component} :
    Spans (.globstar true :: .globstar true :: rest) path ↔ Spans (.globstar true :: rest) path := by
  rw [spans_cons_iff (cons_ne_nil _ _)]
  constructor
  · rintro ⟨u, v, rfl, -, hv⟩
    by_cases hrest : rest = []
    · subst hrest
      have hne : v ≠ [] := fun h => not_spans_nil (cons_ne_nil _ _) (h ▸ hv)
      exact spans_last_iff.mpr (.inr (append_ne_nil_of_right_ne_nil u hne))
    · obtain ⟨v, w, rfl, -, hw⟩ := (spans_cons_iff hrest).mp hv
      exact (spans_cons_iff hrest).mpr
        ⟨u ++ v, w, (append_assoc u v w).symm, .inl ⟨rfl, rfl⟩, hw⟩
  · exact fun h => ⟨[], path, rfl, .inl ⟨rfl, rfl⟩, h⟩

variable (components : List Component)

theorem spans_destutter'_iff (c : Component) :
    Spans (components.destutter' (fun kept next => ¬ Collapses kept next) c) path
      ↔ Spans (c :: components) path := by
  induction components generalizing c path with
  | nil => rfl
  | cons d components ih =>
    rw [destutter'_cons]
    split
    · rw [spans_cons_iff (destutter'_ne_nil _ _), spans_cons_iff (cons_ne_nil _ _)]
      simp only [ih]
    · rename_i h
      obtain ⟨rfl, rfl⟩ := not_not.mp h
      rw [ih, spans_collapse_iff]

/-- **Collapsed components match what the written ones do.** -/
theorem spans_destutter_iff :
    Spans (components.destutter fun kept next => ¬ Collapses kept next) path
      ↔ Spans components path := by
  cases components with
  | nil => rfl
  | cons c components => exact spans_destutter'_iff components c

/-! ## The positions of a step -/

theorem pairwise_setBits (w : BitVec 64) : (DocSet.setBits w).Pairwise (· < ·) :=
  List.Pairwise.filter _ pairwise_lt_range

/-- The marked positions ascend. -/
theorem Marks.pairwise_drain (m : Marks) : (m.drain.map Prod.fst).Pairwise (· < ·) := by
  rw [drain, pairwise_map]
  refine pairwise_flatMap.mpr ⟨fun p _ => ?_, ?_⟩
  · rw [pairwise_map]
    exact (pairwise_setBits p.1).imp fun h => Nat.add_lt_add_left h _
  · have hword : (m.reached.zipIdx).Pairwise fun p q => p.2 < q.2 := by
      rw [← pairwise_map (f := Prod.snd), zipIdx_map_snd]
      exact pairwise_lt_range'
    refine hword.imp fun {p q} hpq c hc d hd => ?_
    obtain ⟨i, hi, rfl⟩ := mem_map.mp hc
    obtain ⟨j, _, rfl⟩ := mem_map.mp hd
    have := mem_range.mp (mem_filter.mp hi).1
    show p.2 * 64 + i < q.2 * 64 + j
    omega

variable {c : ℕ × Bool}

/-- A cursor leads to positions of its pattern. -/
theorem lt_of_leads {all : List Component} {name : Bytes} {pos : ℕ} {fed : Bool}
    (hc : c ∈ leads name (all.drop pos) pos fed) : c.1 < all.length := by
  generalize hcomps : all.drop pos = comps at hc
  induction comps generalizing pos fed with
  | nil => cases hc
  | cons d rest ih =>
    have hlen : all.length = pos + (rest.length + 1) := by
      have := congrArg List.length hcomps
      simp only [length_drop, length_cons] at this
      omega
    have hrest : all.drop (pos + 1) = rest := by
      rw [← tail_drop, hcomps, tail_cons]
    cases d with
    | globstar z =>
      rcases mem_cons.mp hc with rfl | hc
      · show pos < all.length
        omega
      · split at hc
        · exact ih hrest hc
        · cases hc
    | glob g | never =>
      simp only [leads] at hc
      split at hc
      · rename_i h
        have := length_pos_iff.mpr h.1
        rw [mem_singleton.mp hc]
        show pos + 1 < all.length
        omega
      · cases hc

variable {projected : Option (List (Option Pattern))}

namespace Pattern

theorem lt_of_mem_reach {p : Pattern} (hc : c ∈ p.reach path) :
    c.1 < p.components.length := by
  rcases eq_nil_or_concat path with rfl | ⟨path, _, rfl⟩
  · rw [mem_singleton.mp hc]
    exact length_pos_iff.mpr p.components_ne
  · rw [concat_eq_append, reach_append] at hc
    obtain ⟨⟨fed, hfed⟩, -⟩ := mem_step.mp hc
    obtain ⟨_, -, hmem⟩ := mem_flatMap.mp hfed
    exact lt_of_leads (c := (c.1, fed)) hmem

/-- A pattern and the projections kept for it: those of the same pattern,
possibly numbered differently. -/
def Kept (p : Pattern) (projected : Option (List (Option Pattern))) : Prop :=
  ∀ projections ∈ projected, ∃ index, projections = (p.renumbered index).projections

/-- Whether this pattern matches a path, and the projections kept from then
on. -/
def matches_override (p : Pattern) (projected : Option (List (Option Pattern)))
    (components : List Bytes) (directory : Bool) : Bool × Option (List (Option Pattern)) :=
  match components.getLast? with
  | none => (false, projected)
  | some last =>
    if p.basename_only then (p.matches_name last directory, projected)
    else
      let projections := projected.getD p.projections
      -- Every cursor projects to `X`, so the parents need no stepping.
      if p.is_shared_basename then
        ((projections.getD 0 none).any (·.matches_name last directory), some projections)
      else
        let cursors := components.dropLast.foldl p.step [(0, false)]
        (cursors.any fun c =>
            (projections.getD (2 * c.1 + c.2.toNat) none).any (·.matches_name last directory),
          some projections)

theorem kept_none (p : Pattern) : p.Kept none := nofun

theorem Kept.some {p : Pattern} (h : p.Kept projected) :
    p.Kept (some (projected.getD p.projections)) := by
  rintro projections ⟨⟩
  cases projected with
  | none => exact ⟨p.index, rfl⟩
  | some projections => exact h projections rfl

/-- **A cursor is asked through the projections that were kept.** -/
theorem Kept.projection_iff {p : Pattern} (h : p.Kept projected) (hc : p.Feedable c) (name : Name)
    (is_dir : Bool) :
    ((projected.getD p.projections).getD (2 * c.1 + c.2.toNat) none).any
        (·.matches_name name is_dir) = true
      ↔ (p.directory_only = true → is_dir = true) ∧ p.Ahead c [name] := by
  obtain ⟨index, hindex⟩ := h.some _ rfl
  rw [hindex]
  refine Iff.trans ?_ (Pattern.projection_iff (p := p.renumbered index) hc name is_dir)
  rw [getD_eq_getElem?_getD, Option.any_eq_true]
  cases (p.renumbered index).projections[2 * c.1 + c.2.toNat]? with
  | none => simp
  | some q => simp

/-- **Asking the cursors of a directory is matching the whole path**, if each
cursor answers for what is left of the pattern. -/
theorem exists_reach_iff {p : Pattern} (hanchored : p.basename_only = false)
    {asked : ℕ × Bool → Prop} {parents : List Name} {last : Name} {is_dir : Bool}
    (h : ∀ c, p.Feedable c →
      (asked c ↔ (p.directory_only = true → is_dir = true) ∧ p.Ahead c [last])) :
    (∃ c ∈ p.reach parents, asked c) ↔ p.Matches (parents ++ [last]) is_dir := by
  rw [Matches, hanchored, if_neg Bool.false_ne_true, ← exists_ahead_reach (cons_ne_nil last [])]
  constructor
  · rintro ⟨c, hc, hasked⟩
    obtain ⟨hdir, hahead⟩ := (h c (feedable_reach hc)).mp hasked
    exact ⟨hdir, c, hc, hahead⟩
  · rintro ⟨hdir, c, hc, hahead⟩
    exact ⟨c, hc, (h c (feedable_reach hc)).mpr ⟨hdir, hahead⟩⟩

theorem length_projections (p : Pattern) : p.projections.length = 2 * p.components.length := by
  simp [projections, length_flatMap, mul_comm]

end Pattern

namespace Pattern

theorem components_of_shared {p : Pattern} (hanchored : p.basename_only = false)
    (hshared : p.is_shared_basename = true) : ∃ d, p.components = [.globstar true, d] := by
  unfold is_shared_basename at hshared
  rw [hanchored, Bool.false_or] at hshared
  split at hshared
  · rename_i d h
    exact ⟨d, h⟩
  · cases hshared

/-- **An override matches a path as its pattern does.** -/
theorem matches_override_iff {p : Pattern} (hanchored : p.basename_only = false)
    (h : p.Kept projected) (parents : List Name) (last : Name) (is_dir : Bool) :
    (p.matches_override projected ((parents ++ [last]).map Subtype.val) is_dir).1 = true
      ↔ p.Matches (parents ++ [last]) is_dir := by
  unfold matches_override
  rw [map_append, map_singleton, getLast?_concat]
  simp only [hanchored, Bool.false_eq_true, if_false]
  split
  · rename_i hshared
    obtain ⟨d, hd⟩ := components_of_shared hanchored hshared
    have hfeedable : p.Feedable (0, false) := nofun
    refine (h.projection_iff hfeedable last is_dir).trans ?_
    have hlast : Spans [.globstar true, d] (parents ++ [last]) ↔ Spans [.globstar true, d] [last] :=
      (spans_shared_iff parents last).trans (spans_shared_iff [] last).symm
    rw [Matches, hanchored, if_neg Bool.false_ne_true, hd, hlast, Pattern.Ahead, hd]
    exact .rfl
  · rw [← exists_reach_iff hanchored fun c hc => h.projection_iff hc last is_dir,
      dropLast_concat, foldl_map, any_eq_true]
    exact .rfl

theorem kept_matches_override {p : Pattern} (h : p.Kept projected) (components : List Bytes)
    (directory : Bool) :
    p.Kept (p.matches_override projected components directory).2 := by
  unfold matches_override
  split
  · exact h
  · split
    · exact h
    · dsimp only
      split <;> exact h.some

/-- **Cursor stepping is path matching.** The projections of an anchored
pattern's cursors answer for a path as the pattern does, the globstars of the
line as it was written being collapsed or not; so does `matches_override`,
whatever projections it has kept; every cursor has its projections; and a step
gives each position once, in order, from any cursors. -/
theorem cursors_match_path {p : Pattern} (hanchored : p.basename_only = false)
    {projected : Option (List (Option Pattern))} (h : p.Kept projected) (parents : List Name)
    (last : Name) (is_dir : Bool) :
    ((∃ c ∈ p.reach parents, ∃ q, p.projections[2 * c.1 + c.2.toNat]? = some (some q)
        ∧ q.matches_name last is_dir = true) ↔ p.Matches (parents ++ [last]) is_dir)
    ∧ (∀ written : List Component,
        written.destutter (fun kept next => ¬ Collapses kept next) = p.components →
          (p.Matches (parents ++ [last]) is_dir ↔
            (p.directory_only = true → is_dir = true) ∧ Spans written (parents ++ [last])))
    ∧ ((p.matches_override projected ((parents ++ [last]).map Subtype.val) is_dir).1 = true
        ↔ p.Matches (parents ++ [last]) is_dir)
    ∧ p.Kept (p.matches_override projected ((parents ++ [last]).map Subtype.val) is_dir).2
    ∧ (∀ c ∈ p.reach parents, 2 * c.1 + c.2.toNat < p.projections.length)
    ∧ ∀ cursors name, ((p.step cursors name).map Prod.fst).Pairwise (· < ·) := by
  refine ⟨exists_reach_iff hanchored fun c hc => projection_iff hc last is_dir,
    fun written hwritten => ?_, matches_override_iff hanchored h parents last is_dir,
    kept_matches_override h _ _, fun c hc => ?_, fun cursors name => Marks.pairwise_drain _⟩
  · rw [Matches, hanchored, if_neg Bool.false_ne_true, ← hwritten, spans_destutter_iff]
  · have hlt := lt_of_mem_reach hc
    have hfed : c.2.toNat < 2 := c.2.toNat_lt
    rw [length_projections]
    omega

/-- The pattern of a line `src/**\/rs`. -/
def below_src : Pattern where
  index := 0
  result := .ignore
  directory_only := false
  basename_only := false
  components :=
    [.glob ⟨[.literal ⟨ascii "src", by decide⟩]⟩, .globstar false,
      .glob ⟨[.literal ⟨ascii "rs", by decide⟩]⟩]
  components_ne := nofun
  basename_single := fun h => by cases h

theorem below_src_matches :
    let src : Name := ⟨ascii "src", by decide⟩
    let a : Name := ⟨ascii "a", by decide⟩
    let rs : Name := ⟨ascii "rs", by decide⟩
    (below_src.matches_override none [ascii "src", ascii "a", ascii "rs"] false).1 = true
      ∧ below_src.Matches [src, a, rs] false :=
  have h := cursors_match_path (p := below_src) rfl (kept_none _)
    [⟨ascii "src", by decide⟩, ⟨ascii "a", by decide⟩] ⟨ascii "rs", by decide⟩ false
  ⟨by decide +kernel, h.2.2.1.mp (by decide +kernel)⟩

end Pattern

end Ferret.Policy
