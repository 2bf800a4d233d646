import Ferret.Store.Merging

/-!
# Which segments to merge

The policy groups adjacent segments by the logarithm of their sizes, and
merges the first ten of a group of ten or more; failing that, the segment with
the largest part of its documents dead. It is computed in floating point, of
which nothing is assumed here: whatever the numbers, what is chosen is some
segments next to each other.

`prepare_merges` plans several merges at once by asking again for what is left
without the runs already planned. A run of what is left is taken only if it is
one of the manifest's: `prepare_merges_apart` says that the plans share no
segment.
-/

namespace Ferret

open List Option

/-- **The floating-point operations of the policy.** -/
structure Floats where
  F : Type
  ofNat : ℕ → F
  div : F → F → F
  sub : F → F → F
  log10 : F → F
  max : F → F → F
  le : F → F → Bool
  lt : F → F → Bool
  total_cmp : F → F → Ordering
  /-- Levels within this much of a group's top level merge together. -/
  LEVEL_SPAN : F

namespace Merge

/-- Segments merged at once, and per tier before the next tier up. -/
def MERGE_FACTOR : ℕ := 10

/-- Bytes at or below which every segment is tier 0. -/
def TIER_FLOOR : ℕ := 1048576

/-- A segment whose dead documents exceed this fraction of the documents it
was written with is rewritten alone. -/
def DEAD_FRACTION : ℕ × ℕ := (1, 4)

section

variable (fl : Floats)

def level (bytes : ℕ) : fl.F :=
  fl.log10 (fl.div (fl.ofNat (max bytes TIER_FLOOR)) (fl.ofNat TIER_FLOOR))

/-- Just past the last segment from `start` on whose level is `lower` or more. -/
def group_end (levels : List fl.F) (start : ℕ) (lower : fl.F) : ℕ :=
  1 + ((List.range' start (levels.length - start)).reverse.find? fun i =>
    (levels[i]?).any fun level => fl.le lower level).getD start

theorem lt_group_end (levels : List fl.F) (start : ℕ) (lower : fl.F) :
    start < group_end fl levels start lower := by
  unfold group_end
  cases h : (List.range' start (levels.length - start)).reverse.find? fun i =>
      (levels[i]?).any fun level => fl.le lower level with
  | none =>
    show start < 1 + start
    omega
  | some i =>
    have hi := mem_range'_1.mp (mem_reverse.mp (mem_of_find?_eq_some h))
    show start < 1 + i
    omega

theorem group_end_le {levels : List fl.F} {start : ℕ} (hstart : start < levels.length)
    (lower : fl.F) : group_end fl levels start lower ≤ levels.length := by
  unfold group_end
  cases h : (List.range' start (levels.length - start)).reverse.find? fun i =>
      (levels[i]?).any fun level => fl.le lower level with
  | none =>
    show 1 + start ≤ _
    omega
  | some i =>
    have hi := mem_range'_1.mp (mem_reverse.mp (mem_of_find?_eq_some h))
    show 1 + i ≤ _
    omega

/-- Walks the groups from `start`: of those large enough, the first with the
lowest top level, by its top level and where it starts. -/
def best_group (levels : List fl.F) (start : ℕ) (best : Option (fl.F × ℕ)) : Option (fl.F × ℕ) :=
  if start < levels.length then
    let top := (levels.drop start).foldl fl.max (fl.ofNat 0)
    let stop := group_end fl levels start (fl.sub top fl.LEVEL_SPAN)
    best_group levels stop
      (if MERGE_FACTOR ≤ stop - start ∧ best.all (fun b => fl.lt top b.1) then some (top, start)
        else best)
  else best
termination_by levels.length - start
decreasing_by
  have := lt_group_end fl levels start
    (fl.sub ((levels.drop start).foldl fl.max (fl.ofNat 0)) fl.LEVEL_SPAN)
  omega

/-- The last of the greatest elements. -/
def max_by {α : Type} (compare : α → α → Ordering) : List α → Option α
  | [] => none
  | a :: rest => some (rest.foldl (fun x y => if compare x y = .gt then x else y) a)

variable (alive : SegmentEntry → ℕ)

/-- Whether enough of a segment's documents are dead. -/
def mostly_dead (s : SegmentEntry) : Bool :=
  s.docs * DEAD_FRACTION.1 < (s.docs - alive s) * DEAD_FRACTION.2

def dead_fraction (s : SegmentEntry) : fl.F :=
  fl.div (fl.ofNat (s.docs - alive s)) (fl.ofNat (max s.docs 1))

/-- **The segments to merge next**, or `none`. -/
def choose (segments : List SegmentEntry) : Option Run :=
  match best_group fl (segments.map fun s => level fl s.total_bytes) 0 none with
  | some (_, start) =>
    some { start := start, stop := start + MERGE_FACTOR, start_le := Nat.le_add_right .. }
  | none =>
    (max_by (fun a b => fl.total_cmp (dead_fraction fl alive a.1) (dead_fraction fl alive b.1))
      (segments.zipIdx.filter fun s => mostly_dead alive s.1)).map fun s =>
        { start := s.2, stop := s.2 + 1, start_le := Nat.le_succ _ }

end

section

variable {fl : Floats} {alive : SegmentEntry → ℕ}

/-- A group that is large enough lies within the segments. -/
theorem best_group_within {levels : List fl.F} {start : ℕ} {best : Option (fl.F × ℕ)}
    (hbest : ∀ b, best = some b → b.2 + MERGE_FACTOR ≤ levels.length) {b : fl.F × ℕ}
    (h : best_group fl levels start best = some b) : b.2 + MERGE_FACTOR ≤ levels.length := by
  induction start, best using best_group.induct fl levels with
  | case1 start best hlt _ stop ih =>
    rw [best_group, if_pos hlt] at h
    refine ih (fun b' hb' => ?_) h
    split at hb'
    · rename_i hlarge
      cases hb'
      have hle : stop ≤ levels.length := group_end_le fl hlt _
      have := hlarge.1
      show start + MERGE_FACTOR ≤ _
      omega
    · exact hbest b' hb'
  | case2 start best hge =>
    rw [best_group, if_neg hge] at h
    exact hbest b h

theorem max_by_mem {α : Type} {compare : α → α → Ordering} {l : List α} {a : α}
    (h : max_by compare l = some a) : a ∈ l := by
  cases l with
  | nil => cases h
  | cons x rest =>
    cases h
    induction rest generalizing x with
    | nil => exact .head _
    | cons y rest ih =>
      rw [foldl_cons]
      have hmem := ih (if compare x y = .gt then x else y)
      rcases mem_cons.mp hmem with heq | hmem
      · rw [heq]
        split <;> simp
      · exact .tail _ (.tail _ hmem)

/-- **What is chosen is some of the segments**, next to each other. -/
theorem choose_within {segments : List SegmentEntry} {run : Run}
    (h : choose fl alive segments = some run) :
    run.start < run.stop ∧ run.stop ≤ segments.length := by
  unfold choose at h
  split at h
  · rename_i top start hbest
    cases h
    have hle := best_group_within (fun b hb => by cases hb) hbest
    rw [length_map] at hle
    exact ⟨Nat.lt_add_of_pos_right (by decide), hle⟩
  · obtain ⟨s, hs, rfl⟩ := map_eq_some_iff.mp h
    have hmem := (mem_filter.mp (max_by_mem hs)).1
    have hlt : s.2 < segments.length := by
      have := snd_lt_of_mem_zipIdx hmem
      omega
    exact ⟨Nat.lt_succ_self _, hlt⟩

end

end Merge

/-! ## Planning -/

/-- The writer, as far as planning goes: its view, and the numbers of the
segments that a merge which did not finish had chosen. -/
structure IndexWriter where
  poisoned : Bool
  current : View
  pending_merge : Option (List ℕ)

/-- Why no merge was planned. -/
inductive PlanError
  | poisoned
  | staleMerge
  | cancelled
deriving DecidableEq

section

variable (fl : Floats)

/-- The documents of a segment that are alive in a view. -/
def View.alive (v : View) (live : DocSet) (s : SegmentEntry) : ℕ :=
  Ferret.alive s live v.manifest.unreadable

/-- The run an earlier merge had chosen, while it is still there and still
wants merging. -/
def View.pending_run (v : View) (live : DocSet) (selection : List ℕ) : Option Run := do
  let first ← selection.head?
  let start ← v.manifest.segments.findIdx? fun s => s.number = first
  let run : Run :=
    { start := start, stop := start + selection.length, start_le := Nat.le_add_right .. }
  let entries := run.slice v.manifest.segments
  if run.stop ≤ v.manifest.segments.length ∧ entries.map SegmentEntry.number = selection
      ∧ (1 < entries.length ∨ (Merge.choose fl (v.alive live) entries).isSome) then some run
  else none

/-- The run to merge next. -/
def View.merge_run (v : View) (pending_merge : Option (List ℕ)) (live : DocSet) : Option Run :=
  ((pending_merge.bind (v.pending_run fl live)).or
    (Merge.choose fl (v.alive live) v.manifest.segments))

variable (budget : Budget)

/-- Plans one merge, of everything if `all` says so. -/
def prepare_merge (w : IndexWriter) (catalog : CatalogView) (cancelled all : Bool) :
    Except PlanError (Option (MergePlan w.current)) :=
  if w.poisoned then .error .poisoned
  else if !w.current.manifest.fits catalog then .error .staleMerge
  else if cancelled then .error .cancelled
  else
    let segments := w.current.manifest.segments
    let selected : Option Run :=
      if all then
        if segments = [] then none
        else some { start := 0, stop := segments.length, start_le := Nat.zero_le _ }
      else w.current.merge_run fl w.pending_merge catalog.live
    match selected with
    | none => .ok none
    | some run =>
      if budget.bytes < ((run.slice segments).map SegmentEntry.total_bytes).sum then .ok none
      else if h : run.stop ≤ segments.length then .ok (some { run := run, within := h })
      else .ok none

/-- Plans up to `more` merges: `run` of what remains, if it is a run of the
manifest's and the budget allows it, and then others of what remains without
it. Selection stops at the first gap. -/
def plan_wave (v : View) (live : DocSet) : ℕ →
    List (Fin v.manifest.segments.length × SegmentEntry) → Run → List (MergePlan v)
  | 0, _, _ => []
  | more + 1, remaining, run =>
    match remaining[run.start]?, remaining[run.stop - 1]? with
    | some (a, _), some (b, _) =>
      if h : a.val ≤ b.val + 1 ∧ b.val + 1 - a.val = run.len then
        if budget.bytes < ((run.slice remaining).map fun s => s.2.total_bytes).sum then []
        else
          let remaining := run.splice remaining none
          { run := { start := a, stop := b + 1, start_le := h.1 }, within := b.isLt } ::
            (match Merge.choose fl (v.alive live) (remaining.map Prod.snd) with
            | none => []
            | some next => plan_wave v live more remaining next)
      else []
    | _, _ => []

/-- Each merge has a term and a trigram thread. -/
def wave_limit (available_threads : ℕ) : ℕ := max 1 (min (available_threads / 2) 4)

/-- **Plans a bounded wave of disjoint original runs.** -/
def prepare_merges (available_threads : ℕ) (w : IndexWriter) (catalog : CatalogView)
    (cancelled : Bool) : Except PlanError (List (MergePlan w.current)) :=
  match prepare_merge fl budget w catalog cancelled false with
  | .error e => .error e
  | .ok none => .ok []
  | .ok (some first) =>
    .ok (plan_wave fl budget w.current catalog.live (wave_limit available_threads)
      ((List.finRange w.current.manifest.segments.length).map fun i =>
        (i, w.current.manifest.segments.get i)) first.run)

end

/-! ## The plans share no segment -/

section

variable {fl : Floats} {budget : Budget} {v : View} {live : DocSet}

/-- The positions of what remains. -/
def positions (remaining : List (Fin v.manifest.segments.length × SegmentEntry)) : List ℕ :=
  remaining.map fun s => s.1.val

/-- A plan takes segments that remain, as far as the budget goes. -/
structure MergePlan.From (budget : Budget) (positions : List ℕ) (plan : MergePlan v) : Prop where
  pos : plan.run.start < plan.run.stop
  remain : ∀ i, plan.run.start ≤ i → i < plan.run.stop → i ∈ positions
  bytes : (plan.entries.map SegmentEntry.total_bytes).sum ≤ budget.bytes

/-- Ascending positions without a gap are all there are between the first and
the last. -/
theorem slice_of_no_gap {l : List ℕ} (hl : l.Pairwise (· < ·)) {run : Run}
    (hpos : run.start < run.stop) {a b : ℕ} (ha : l[run.start]? = some a)
    (hb : l[run.stop - 1]? = some b) (hlen : b + 1 - a = run.len) :
    run.slice l = List.range' a run.len := by
  obtain ⟨hlast, rfl⟩ := List.getElem?_eq_some_iff.mp hb
  obtain ⟨hfirst, rfl⟩ := List.getElem?_eq_some_iff.mp ha
  have hstop : run.stop ≤ l.length := by omega
  have hsorted : (run.slice l).Pairwise (· < ·) :=
    hl.sublist ((take_sublist ..).trans (drop_sublist ..))
  have hmono : ∀ {j k : ℕ} (hj : j < l.length) (hk : k < l.length), j ≤ k → l[j] ≤ l[k] := by
    intro j k hj hk hjk
    rcases hjk.eq_or_lt with rfl | hjk
    · exact le_rfl
    · exact (pairwise_iff_getElem.mp hl j k hj hk hjk).le
  have hsub : run.slice l ⊆ List.range' l[run.start] run.len := by
    intro x hx
    obtain ⟨k, hk, rfl⟩ := getElem_of_mem hx
    have hklen : run.start + k < run.stop := by
      rw [run.length_slice hstop, Run.len] at hk
      omega
    have hbound : run.start + k < l.length := by omega
    have hget : (run.slice l)[k] = l[run.start + k] := by simp [Run.slice]
    rw [hget, mem_range'_1]
    have hlow := hmono hfirst (by omega) (Nat.le_add_right run.start k)
    have hhigh := hmono (by omega) hlast (by omega : run.start + k ≤ run.stop - 1)
    omega
  have hperm : (run.slice l).Perm (List.range' l[run.start] run.len) :=
    (subperm_of_subset (hsorted.imp fun hab => ne_of_lt hab) hsub).perm_of_length_le
      (by rw [length_range', run.length_slice hstop])
  exact hperm.eq_of_pairwise (fun x y _ _ hxy hyx => absurd hxy (lt_asymm hyx)) hsorted
    pairwise_lt_range'

/-- The segments at the positions of a run are the run's. -/
theorem slice_of_positions {α : Type} {l : List α} {remaining : List (Fin l.length × α)}
    (hget : ∀ s ∈ remaining, s.2 = l.get s.1) {run original : Run}
    (hstop : original.stop ≤ l.length)
    (hrun : run.slice (remaining.map fun s => s.1.val) = List.range' original.start original.len) :
    (run.slice remaining).map Prod.snd = original.slice l := by
  have hslice : (run.slice remaining).map (fun s => s.1.val)
      = List.range' original.start original.len := by
    rw [← Run.slice_map]
    exact hrun
  refine ext_getElem ?_ fun i hi hi' => ?_
  · rw [length_map, original.length_slice hstop, ← length_map (f := fun s => s.1.val),
      hslice, length_range']
  · have hi'' : i < (run.slice remaining).length := by simpa using hi
    have hpos : ((run.slice remaining)[i]).1.val = original.start + i := by
      have := getElem_of_eq hslice (i := i) (by simpa using hi'')
      simpa using this
    rw [getElem_map, hget _ (mem_of_mem_drop (mem_of_mem_take
      (getElem_mem hi''))), get_eq_getElem]
    have hbound : original.start + i < l.length := by
      rw [original.length_slice hstop, Run.len] at hi'
      omega
    have hslot : (original.slice l)[i] = l[original.start + i] := by simp [Run.slice]
    rw [hslot]
    exact getElem_congr_idx hpos

/-- What a run leaves is apart from it. -/
theorem notMem_splice {l : List ℕ} (hl : l.Nodup) {run : Run} {i : ℕ} (hi : i ∈ run.slice l) :
    i ∉ run.splice l none := by
  intro hmem
  rw [run.parts l, nodup_append, nodup_append] at hl
  obtain ⟨⟨-, -, hbefore⟩, -, hafter⟩ := hl
  rw [Run.splice, toList_none, append_nil] at hmem
  rcases mem_append.mp hmem with hmem | hmem
  · exact hbefore i hmem i hi rfl
  · exact hafter i (mem_append_right _ hi) i hmem rfl

theorem splice_sublist {α : Type} (run : Run) (l : List α) : (run.splice l none).Sublist l := by
  conv_rhs => rw [run.parts l]
  rw [Run.splice, toList_none, append_nil]
  exact (sublist_append_left ..).append_right _

/-- **The plans of a wave** take segments that remain, and no two the same. -/
theorem plan_wave_apart (more : ℕ)
    {remaining : List (Fin v.manifest.segments.length × SegmentEntry)} {run : Run}
    (hget : ∀ s ∈ remaining, s.2 = v.manifest.segments.get s.1)
    (hsorted : (positions remaining).Pairwise (· < ·)) (hpos : run.start < run.stop) :
    (∀ plan ∈ plan_wave fl budget v live more remaining run,
        plan.From budget (positions remaining))
      ∧ (plan_wave fl budget v live more remaining run).Pairwise
        fun a b => a.overlaps b = false := by
  induction more generalizing remaining run with
  | zero => exact ⟨nofun, .nil⟩
  | succ more ih =>
    have hnone : (∀ plan ∈ ([] : List (MergePlan v)), plan.From budget (positions remaining))
        ∧ ([] : List (MergePlan v)).Pairwise fun a b => a.overlaps b = false :=
      ⟨nofun, .nil⟩
    rw [plan_wave]
    cases ha : remaining[run.start]? with
    | none => exact hnone
    | some a =>
      cases hb : remaining[run.stop - 1]? with
      | none => exact hnone
      | some b =>
        obtain ⟨a, _⟩ := a
        obtain ⟨b, _⟩ := b
        simp only
        split
        · rename_i hgap
          split
          · exact hnone
          · rename_i hbytes
            -- the run is a run of the manifest's, and what is left is apart from it
            have hnodup : (positions remaining).Nodup := hsorted.imp fun hab => ne_of_lt hab
            have hslice : run.slice (positions remaining) = List.range' a.val run.len :=
              slice_of_no_gap hsorted hpos (by rw [positions, getElem?_map, ha]; rfl)
                (by rw [positions, getElem?_map, hb]; rfl) hgap.2
            have hmem : ∀ i, a.val ≤ i → i ≤ b.val → i ∈ run.slice (positions remaining) := by
              intro i hai hib
              rw [hslice, mem_range'_1]
              omega
            have hleft : positions (run.splice remaining none)
                = run.splice (positions remaining) none :=
              (Run.splice_map run
                (fun s : Fin v.manifest.segments.length × SegmentEntry => s.1.val) remaining
                none).symm
            have hlen : 0 < run.len := Nat.sub_pos_of_lt hpos
            have hlt : a.val < b.val + 1 := by omega
            set original : Run := { start := a, stop := b + 1, start_le := hgap.1 } with horiginal
            have hentries : (run.slice remaining).map Prod.snd
                = original.slice v.manifest.segments :=
              slice_of_positions hget b.isLt (hslice.trans (by rw [← hgap.2]; rfl))
            have hfirst : MergePlan.From budget (positions remaining)
                { run := original, within := b.isLt } := by
              refine ⟨hlt, fun i hai hib => mem_of_mem_drop
                (mem_of_mem_take (hmem i hai (Nat.le_of_lt_succ hib))), ?_⟩
              rw [MergePlan.entries, ← hentries, List.map_map]
              exact not_lt.mp hbytes
            cases hnext : Merge.choose fl (v.alive live)
                ((run.splice remaining none).map Prod.snd) with
            | none =>
              exact ⟨forall_mem_singleton.mpr hfirst, pairwise_singleton ..⟩
            | some next =>
              obtain ⟨hfrom, hpair⟩ := @ih (run.splice remaining none) next
                (fun s hs => hget s ((splice_sublist ..).subset hs))
                (hleft ▸ hsorted.sublist (splice_sublist ..)) (Merge.choose_within hnext).1
              rw [hleft] at hfrom
              refine ⟨forall_mem_cons.mpr ⟨hfirst, fun plan hp => ?_⟩,
                pairwise_cons.mpr ⟨fun plan hp => ?_, hpair⟩⟩
              · have hp := hfrom plan hp
                exact ⟨hp.pos, fun i hi hi' => (splice_sublist ..).subset (hp.remain i hi hi'), hp.bytes⟩
              · obtain ⟨hlt, hin, -⟩ := hfrom plan hp
                rw [MergePlan.overlaps, Bool.eq_false_iff]
                intro hover
                simp only [Bool.and_eq_true, decide_eq_true_eq] at hover
                -- a position of both
                exact notMem_splice hnodup
                  (hmem (max a plan.run.start) (le_max_left ..) (by omega))
                  (hin (max a plan.run.start) (le_max_right ..) (by omega))
        · exact hnone

theorem View.merge_run_within {pending_merge : Option (List ℕ)} {run : Run}
    (h : v.merge_run fl pending_merge live = some run) :
    run.start < run.stop ∧ run.stop ≤ v.manifest.segments.length := by
  rw [View.merge_run, or_eq_some_iff] at h
  rcases h with h | ⟨-, h⟩
  · obtain ⟨_, -, h⟩ := bind_eq_some_iff.mp h
    unfold View.pending_run at h
    obtain ⟨_, hfirst, h⟩ := bind_eq_some_iff.mp h
    obtain ⟨_, -, h⟩ := bind_eq_some_iff.mp h
    simp only at h
    split at h
    · rename_i hok
      cases h
      obtain ⟨_, rfl⟩ := head?_eq_some_iff.mp hfirst
      exact ⟨Nat.lt_add_of_pos_right (Nat.succ_pos _), hok.1⟩
    · cases h
  · exact Merge.choose_within h

variable {catalog : CatalogView} {w : IndexWriter}

/-- A planned merge is of segments of the view, and of one at least. -/
theorem prepare_merge_pos {cancelled all : Bool} {plan : MergePlan w.current}
    (h : prepare_merge fl budget w catalog cancelled all = .ok (some plan)) :
    plan.run.start < plan.run.stop := by
  unfold prepare_merge at h
  split at h
  · cases h
  split at h
  · cases h
  split at h
  · cases h
  simp only at h
  split at h
  · cases h
  rename_i run hrun
  split at h
  · cases h
  split at h
  · cases h
    split at hrun
    · split at hrun
      · cases hrun
      · rename_i hne
        cases hrun
        exact length_pos_iff.mpr hne
    · exact (View.merge_run_within hrun).1
  · cases h

/-- **The plans of a wave are apart**: each is of segments next to each other in
the manifest, one at least, and no two share one. -/
theorem prepare_merges_apart {available_threads : ℕ} {cancelled : Bool}
    {plans : List (MergePlan w.current)}
    (h : prepare_merges fl budget available_threads w catalog cancelled = .ok plans) :
    (∀ plan ∈ plans, plan.run.start < plan.run.stop
        ∧ (plan.entries.map SegmentEntry.total_bytes).sum ≤ budget.bytes)
      ∧ plans.Pairwise fun a b => a.overlaps b = false := by
  unfold prepare_merges at h
  split at h
  · cases h
  · cases h
    exact ⟨nofun, .nil⟩
  · rename_i first hfirst
    cases h
    have hsorted : (positions ((List.finRange w.current.manifest.segments.length).map fun i =>
        (i, w.current.manifest.segments.get i))).Pairwise (· < ·) := by
      rw [positions, List.map_map, pairwise_map]
      exact pairwise_lt_finRange _
    have hget : ∀ s ∈ (List.finRange w.current.manifest.segments.length).map (fun i =>
        (i, w.current.manifest.segments.get i)), s.2 = w.current.manifest.segments.get s.1 := by
      intro s hs
      obtain ⟨i, -, rfl⟩ := List.mem_map.mp hs
      rfl
    obtain ⟨hfrom, hpair⟩ := @plan_wave_apart fl budget w.current catalog.live
      (wave_limit available_threads) _ _ hget hsorted (prepare_merge_pos hfirst)
    exact ⟨fun plan hp => ⟨(hfrom plan hp).pos, (hfrom plan hp).bytes⟩, hpair⟩

theorem plan_wave_length (more : ℕ)
    (remaining : List (Fin v.manifest.segments.length × SegmentEntry)) (run : Run) :
    (plan_wave fl budget v live more remaining run).length ≤ more := by
  induction more generalizing remaining run with
  | zero => exact le_rfl
  | succ more ih =>
    rw [plan_wave]
    split
    · split
      · split
        · exact Nat.zero_le _
        · rw [length_cons]
          split
          · exact Nat.succ_le_succ (Nat.zero_le _)
          · exact Nat.succ_le_succ (ih _ _)
      · exact Nat.zero_le _
    · exact Nat.zero_le _

theorem prepare_merges_length {available_threads : ℕ} {cancelled : Bool}
    {plans : List (MergePlan w.current)}
    (h : prepare_merges fl budget available_threads w catalog cancelled = .ok plans) :
    plans.length ≤ 4 := by
  unfold prepare_merges at h
  split at h
  · cases h
  · cases h
    exact Nat.zero_le _
  · cases h
    refine (plan_wave_length ..).trans ?_
    rw [wave_limit]
    omega

end

end Ferret
