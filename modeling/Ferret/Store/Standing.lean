import Ferret.Lib.Patches
import Ferret.Store.MergingCoverage

/-!
# A list of segments in the midst of merges

What a merge writes depends on the segments it takes and on the live documents,
and not on the rest of the list nor, but for the number of the output, on the
number it is written under (`merge_output_eq`). Where it goes is told by
`Patch.patched`: `Stands` says that a view is the one merges began from, with
some runs replaced, and `Stands.replace` that one more merge keeps it so.
-/

namespace Ferret

open List

section

variable (env : Env) (clock : ℕ → ℕ) (live : DocSet) (budget : Budget)

/-- The plan, to publish another manifest. -/
def RunPlan.under (plan : RunPlan) (manifest : Manifest) : RunPlan :=
  { plan with manifest := manifest }

/-- What merging a run writes, under a number. -/
def merge_output (v : View) (run : Run) (number : ℕ) : Except Error (Option WrittenPair) :=
  match plan_run clock live budget v run with
  | none => .error .staleMerge
  | some plan =>
    if plan.docs = 0 then .ok none
    else
      let plan := plan.under { plan.manifest with next_number := number }
      (write_run env live plan v run).map fun r => some r.1

end

/-! ## Numbers aside -/

def SegmentEntry.unnumbered (e : SegmentEntry) : SegmentEntry := { e with number := 0 }

def WrittenPair.renumber (n : ℕ) (p : WrittenPair) : WrittenPair :=
  { p with entry := { p.entry with number := n } }

/-- A view, but for the numbers of its files and the time of its last merge. -/
def View.unnumbered (v : View) : View :=
  { v with manifest := { v.manifest with
      next_number := 0
      last_merge := none
      segments := v.manifest.segments.map SegmentEntry.unnumbered } }

/-- Each segment was there before or has a number no segment had, and no two
have the same. -/
structure View.Fresh (v w : View) : Prop where
  distinct : (w.manifest.segments.map SegmentEntry.number).Nodup
  fresh : ∀ e ∈ w.manifest.segments, e ∈ v.manifest.segments ∨ v.manifest.next_number ≤ e.number

section

variable {env : Env} {clock clock' : ℕ → ℕ} {live : DocSet} {budget : Budget}

/-- A pair's number is nothing to what it stands for. -/
theorem Replaces.renumber {us : List ℕ} {inputs : List WrittenPair} {q : Option WrittenPair}
    (h : Replaces env live us inputs q) (n : ℕ) :
    Replaces env live us inputs (q.map (WrittenPair.renumber n)) := by
  cases q with
  | none => exact h
  | some p =>
    refine ⟨fun p' hp' => ?_, fun p' hp' => ?_, fun p' hp' => ?_, fun d t hl hd a ha hlook => ?_,
      fun d k hl hd a ha hlook => ?_⟩
    · cases hp'
      have hm := h.pair p rfl
      exact ⟨hm.segment, hm.trigram, hm.codec, hm.trigram_codec⟩
    · cases hp'
      exact h.first p rfl
    · cases hp'
      exact h.last p rfl
    · obtain ⟨p', hp', hin⟩ := h.terms d t hl hd a ha hlook
      cases hp'
      exact ⟨_, rfl, hin⟩
    · obtain ⟨p', hp', hin⟩ := h.trigrams d k hl hd a ha hlook
      cases hp'
      exact ⟨_, rfl, hin⟩

/-! ## What a merge writes -/

theorem prepare_pair_renumber (env : Env) (m n docs : ℕ) (range : ℕ × ℕ) (terms trigrams : Draft) :
    prepare_pair env n docs range terms trigrams
      = (prepare_pair env m docs range terms trigrams).map (WrittenPair.renumber n) := by
  unfold prepare_pair
  split
  · split <;> rfl
  · rfl

variable {plan : RunPlan} {v v' current : View} {run run' : Run}

/-- **What a merge writes depends on the segments it takes**, and on their
number only for the number of the output. -/
theorem write_run_eq (hsegments : run'.slice v'.segments = run.slice v.segments)
    (htrigrams : run'.slice v'.trigrams = run.slice v.trigrams) (m m' : Manifest) :
    write_run env live (plan.under m') v' run'
      = (write_run env live (plan.under m) v run).map fun r => (r.1.renumber m'.next_number, r.2) := by
  have hfill : ∀ codec inputs, merge_fill env live codec (plan.under m') inputs
      = merge_fill env live codec (plan.under m) inputs := fun _ _ => rfl
  unfold write_run
  rw [hsegments, htrigrams, hfill, hfill]
  cases merge_fill env live env.codec (plan.under m) (run.slice v.segments) with
  | error e => rfl
  | ok terms =>
    cases merge_fill env live .dictionary (plan.under m) (run.slice v.trigrams) with
    | error e => rfl
    | ok trigrams =>
      have hpair := prepare_pair_renumber env m.next_number m'.next_number plan.docs
        (plan.first, plan.last) terms.1 trigrams.1
      simp only [Except.mapError, bind, Except.bind, RunPlan.under]
      cases h : prepare_pair env m.next_number plan.docs (plan.first, plan.last) terms.1
        trigrams.1 with
      | error e | ok q =>
        rw [h] at hpair
        simp only [hpair]
        rfl

/-- What makes a run of one view and a run of another the same to a merge. -/
structure SameRun (live : DocSet) (v : View) (run : Run) (v' : View) (run' : Run) : Prop where
  entries : run'.slice v'.manifest.segments = run.slice v.manifest.segments
  segments : run'.slice v'.segments = run.slice v.segments
  trigrams : run'.slice v'.trigrams = run.slice v.trigrams
  unreadable : v'.manifest.unreadable.filter live.contains
    = v.manifest.unreadable.filter live.contains

theorem plan_run_eq (clock : ℕ → ℕ) (h : SameRun live v run v' run') :
    plan_run clock' live budget v' run' = (plan_run clock live budget v run).map fun plan =>
      plan.under { v'.manifest with
        last_merge := some (clock' v'.manifest.sequence)
        unreadable := v'.manifest.unreadable.filter live.contains } := by
  simp only [plan_run, h.entries, h.segments, h.unreadable]
  split
  · rfl
  · cases (run.slice v.manifest.segments).head? with
    | none => rfl
    | some _ => cases (run.slice v.manifest.segments).getLast? <;> rfl

theorem merge_output_eq (h : SameRun live v run v' run') (n n' : ℕ) :
    merge_output env clock' live budget v' run' n'
      = (merge_output env clock live budget v run n).map
        (Option.map (WrittenPair.renumber n')) := by
  have hplan : plan_run clock' live budget v' run' = _ := plan_run_eq clock h
  unfold merge_output
  rw [hplan]
  cases plan_run clock live budget v run with
  | none => rfl
  | some plan =>
    have hwrite := @write_run_eq env live plan v v' run run' h.segments h.trigrams
      { plan.manifest with next_number := n }
    show (if plan.docs = 0 then Except.ok none
      else (write_run env live (plan.under _) v' run').map fun r => some r.1) = _
    split
    · rename_i hdocs
      simp only [if_pos hdocs]
      rfl
    · rename_i hdocs
      simp only [if_neg hdocs]
      rw [hwrite]
      cases write_run env live (plan.under { plan.manifest with next_number := n }) v run <;> rfl

/-- The manifest that a merge publishes, but for its segments. -/
def merged_manifest (live : DocSet) (m : Manifest) (last_merge : Option ℕ) (next_number : ℕ) :
    Manifest :=
  { m with
    last_merge := last_merge
    unreadable := m.unreadable.filter live.contains
    next_number := next_number }

theorem plan_run_manifest (h : plan_run clock live budget v run = some plan) :
    plan.manifest = merged_manifest live v.manifest (some (clock v.manifest.sequence))
      v.manifest.next_number := by
  simp only [plan_run] at h
  split at h
  · cases h
  · split at h
    · cases h
      rfl
    · cases h

/-- What is written in a wave. -/
theorem write_job_output (i : ℕ) (plan : MergePlan v) :
    (write_job env clock live budget i plan).map (fun job => (job.plan, job.output))
      = (merge_output env clock live budget v plan.run (v.manifest.next_number + i)).map
          fun out => (plan, out) := by
  unfold write_job merge_output
  cases hplan : plan_run clock live budget v plan.run with
  | none => rfl
  | some run =>
    have hnext : run.manifest.next_number = v.manifest.next_number := by
      rw [plan_run_manifest hplan]
      rfl
    simp only [hnext]
    split
    · rfl
    · simp only [RunPlan.under]
      cases write_run env live _ v plan.run <;> rfl

/-! ## Publishing in place of a run -/

/-- The view with a run replaced. -/
def replaced_view (current : View) (manifest : Manifest) (run : Run) (merged : Option WrittenPair) :
    View where
  manifest := { manifest with
    segments := run.splice manifest.segments (merged.map WrittenPair.entry)
    sequence := manifest.sequence + 1 }
  segments := run.splice current.segments (merged.map WrittenPair.segment)
  trigrams := run.splice current.trigrams (merged.map WrittenPair.trigram)

/-- The output under the number that is next. -/
theorem merge_output_next (hplan : plan_run clock live budget current run = some plan) :
    merge_output env clock live budget current run current.manifest.next_number
      = if plan.docs = 0 then .ok none
        else (write_run env live plan current run).map fun r => some r.1 := by
  have hnext : current.manifest.next_number = plan.manifest.next_number := by
    rw [plan_run_manifest hplan]
    rfl
  have hself : plan.under { plan.manifest with next_number := current.manifest.next_number }
      = plan := by
    rw [hnext]
    rfl
  rw [merge_output, hplan]
  simp only [hself]

/-- **A merge by itself** publishes one view, with its output in place. -/
theorem merge_run_output {out : Option WrittenPair}
    (hplan : plan_run clock live budget current run = some plan)
    (hout : merge_output env clock live budget current run current.manifest.next_number = .ok out) :
    ∃ merged, merge_run env clock live budget current run = {
      published := [replaced_view current (merged_manifest live current.manifest
        (some (clock current.manifest.sequence))
        (current.manifest.next_number + out.toList.length)) run out]
      result := .ok (some merged) } := by
  rw [merge_output_next hplan] at hout
  rw [merge_run, hplan]
  simp only
  split at hout
  · rename_i hdocs
    cases hout
    rw [if_pos hdocs, plan_run_manifest hplan]
    exact ⟨_, rfl⟩
  · rename_i hdocs
    rw [if_neg hdocs]
    cases hwrite : write_run env live plan current run with
    | error e =>
      rw [hwrite] at hout
      cases hout
    | ok r =>
      rw [hwrite] at hout
      cases hout
      rw [plan_run_manifest hplan]
      exact ⟨_, rfl⟩

/-- A merge by itself fails where its output does. -/
theorem merge_run_error {e : Error} (hplan : plan_run clock live budget current run = some plan)
    (hout : merge_output env clock live budget current run current.manifest.next_number = .error e) :
    (merge_run env clock live budget current run).result = .error e := by
  rw [merge_output_next hplan] at hout
  rw [merge_run, hplan]
  simp only
  split at hout
  · cases hout
  · rename_i hdocs
    rw [if_neg hdocs]
    cases hwrite : write_run env live plan current run with
    | error _ =>
      rw [hwrite] at hout
      cases hout
      rfl
    | ok r =>
      rw [hwrite] at hout
      cases hout

end

/-! ## Where the list stands -/

section

variable {env : Env} {catalog : CatalogView} {v : View}
variable {origin : List WrittenPair}

/-- What a view shows when `count` replacements have left `ps`. -/
def standing (live : DocSet) (v : View) (count : ℕ) (ps : List WrittenPair) : View where
  manifest := { v.manifest with
    sequence := v.manifest.sequence + count
    next_number := 0
    last_merge := none
    unreadable := if count = 0 then v.manifest.unreadable
      else v.manifest.unreadable.filter live.contains
    segments := ps.map fun p => p.entry.unnumbered }
  segments := ps.map WrittenPair.segment
  trigrams := ps.map WrittenPair.trigram

theorem standing_renumber (live : DocSet) (v : View) (count : ℕ) (ps : List WrittenPair) :
    standing live v count (ps.map (WrittenPair.renumber 0)) = standing live v count ps := by
  simp only [standing, map_map]
  rfl

/-- A replacement, its number aside. -/
abbrev unnumber : Patch WrittenPair → Patch WrittenPair := Patch.map (WrittenPair.renumber 0)

/-- **A view in the midst of merges**: some runs of an original have been
replaced, and nothing else is changed. -/
structure Stands (env : Env) (live : DocSet) (v : View) (origin : List WrittenPair)
    (done : List (Patch WrittenPair)) (w : View) : Prop where
  opens : w.Opens env.codec (Patch.patched done origin)
  consistent : w.manifest.Consistent
  shows : w.unnumbered = standing live v done.length (Patch.patched done origin)
  next : v.manifest.next_number ≤ w.manifest.next_number
  fresh : ∀ p ∈ done, ∀ q, p.new = some q → v.manifest.next_number ≤ q.entry.number

/-- A replacement that may be made in an original. -/
structure Fitting (env : Env) (live : DocSet) (v : View) (origin : List WrittenPair)
    (p : Patch WrittenPair) : Prop where
  pos : p.run.start < p.run.stop
  within : p.run.stop ≤ origin.length
  replaces : Replaces env live (v.manifest.unreadable.filter live.contains) (p.run.slice origin)
    p.new

theorem Stands.start (ho : v.Opens env.codec origin) (hc : v.manifest.Consistent) (live : DocSet) :
    Stands env live v origin [] v := by
  refine ⟨(Patch.patched_nil origin).symm ▸ ho, hc, ?_, le_rfl, fun p hp => by cases hp⟩
  rw [Patch.patched_nil, standing, ← ho.segments, ← ho.trigrams, View.unnumbered, ho.entries,
    map_map]
  rfl

variable {live : DocSet} {done done' : List (Patch WrittenPair)} {w w' : View}

section

variable (h : Stands env live v origin done w)

include h

theorem Stands.shows_unnumbered :
    w.unnumbered = standing live v done.length
      (Patch.patched (done.map unnumber) (origin.map (WrittenPair.renumber 0))) := by
  rw [h.shows, Patch.patched_map, standing_renumber]

/-- **The order of the replacements is nothing to where the list stands.** -/
theorem Stands.same (h' : Stands env live v origin done' w')
    (hperm : (done.map unnumber).Perm (done'.map unnumber))
    (hapart : done.Pairwise Patch.Apart) : w.unnumbered = w'.unnumbered := by
  have hlen : done.length = done'.length := by simpa using hperm.length_eq
  rw [h.shows_unnumbered, h'.shows_unnumbered, hlen,
    Patch.patched_perm hperm (pairwise_map.mpr hapart)]

theorem Stands.unreadable :
    w.manifest.unreadable.filter live.contains = v.manifest.unreadable.filter live.contains := by
  have hu : w.manifest.unreadable = if done.length = 0 then v.manifest.unreadable
      else v.manifest.unreadable.filter live.contains :=
    congrArg (fun x => x.manifest.unreadable) h.shows
  rw [hu]
  split
  · rfl
  · rw [filter_filter]
    simp

theorem Stands.fits (catalog : CatalogView) :
    w.manifest.fits catalog = v.manifest.fits catalog := by
  show w.unnumbered.manifest.fits catalog = _
  rw [h.shows]
  rfl

/-- The numbers are fresh and distinct. -/
theorem Stands.view_fresh (ho : v.Opens env.codec origin) : v.Fresh w where
  distinct := h.consistent.numbers
  fresh := fun e he => by
    rw [h.opens.entries] at he
    obtain ⟨p, hp, rfl⟩ := mem_map.mp he
    rcases Patch.mem_patched hp with hp | ⟨q, hq, hnew⟩
    · exact .inl (ho.entries ▸ mem_map_of_mem hp)
    · exact .inr (h.fresh q hq p hnew)

/-- **A run that waits is found**: whole, by the number of its first segment,
whatever was replaced before it. -/
theorem Stands.found (ho : v.Opens env.codec origin)
    {run : Run} (hpos : run.start < run.stop) (hwithin : run.stop ≤ origin.length)
    (hapart : ∀ q ∈ done, Patch.Apart { run := run, new := none } q) :
    ∃ A B, Patch.patched done origin = A ++ run.slice origin ++ B
      ∧ (∀ new, Patch.patched ({ run := run, new := new } :: done) origin = A ++ new.toList ++ B)
      ∧ ∃ first, (run.slice v.manifest.segments).head? = some first
        ∧ (w.manifest.segments.findIdx? fun entry => entry.number = first.number)
          = some A.length := by
  obtain ⟨A, B, hold, hnew⟩ := Patch.patched_cons hpos hwithin hapart
  refine ⟨A, B, hold, hnew, ?_⟩
  have hne : run.slice origin ≠ [] := by
    rw [← length_pos_iff, run.length_slice hwithin]
    exact Nat.sub_pos_of_lt hpos
  obtain ⟨first, O, hO⟩ := exists_cons_of_ne_nil hne
  have hopens := h.opens
  rw [hold, hO] at hopens
  refine ⟨first.entry, ?_, hopens.findIdx_first h.consistent⟩
  rw [ho.entries, Run.slice_map, hO]
  rfl

/-- The run there is the same to a merge. -/
theorem Stands.same_run (ho : v.Opens env.codec origin)
    {run : Run} (hwithin : run.stop ≤ origin.length) {A B : List WrittenPair}
    (hold : Patch.patched done origin = A ++ run.slice origin ++ B) :
    SameRun live v run w (run.moved A.length) := by
  have hslice : (run.moved A.length).slice (Patch.patched done origin) = run.slice origin := by
    rw [hold]
    exact Run.slice_parts rfl (by rw [Run.len_moved, run.length_slice hwithin])
  refine ⟨?_, ?_, ?_, h.unreadable⟩
  · rw [h.opens.entries, ho.entries, Run.slice_map, Run.slice_map, hslice]
  · rw [h.opens.segments, ho.segments, Run.slice_map, Run.slice_map, hslice]
  · rw [h.opens.trigrams, ho.trigrams, Run.slice_map, Run.slice_map, hslice]

/-- **One more replacement.** -/
theorem Stands.replace {p : Patch WrittenPair}
    (hp : Fitting env live v origin p) {A B : List WrittenPair}
    (hold : Patch.patched done origin = A ++ p.run.slice origin ++ B)
    (hnew : Patch.patched (p :: done) origin = A ++ p.new.toList ++ B) {last_merge : Option ℕ}
    {n : ℕ} (hn : w.manifest.next_number ≤ n)
    (hfresh : ∀ q, p.new = some q → w.manifest.next_number ≤ q.entry.number ∧ q.entry.number < n) :
    Stands env live v origin (p :: done)
      (replaced_view w (merged_manifest live w.manifest last_merge n) (p.run.moved A.length)
        p.new) := by
  have hsplice : ∀ new : Option WrittenPair, (p.run.moved A.length).splice
      (Patch.patched done origin) new = A ++ new.toList ++ B := by
    intro new
    rw [hold]
    exact Run.splice_parts rfl (by rw [Run.len_moved, p.run.length_slice hp.within])
  have hne : p.run.slice origin ≠ [] := by
    rw [← length_pos_iff, p.run.length_slice hp.within]
    exact Nat.sub_pos_of_lt hp.pos
  have hview : replaced_view w (merged_manifest live w.manifest last_merge n)
      (p.run.moved A.length) p.new = {
        manifest := { merged_manifest live w.manifest last_merge n with
          segments := (Patch.patched (p :: done) origin).map WrittenPair.entry
          sequence := w.manifest.sequence + 1 }
        segments := (Patch.patched (p :: done) origin).map WrittenPair.segment
        trigrams := (Patch.patched (p :: done) origin).map WrittenPair.trigram } := by
    rw [hnew, ← hsplice p.new, ← Run.splice_map, ← Run.splice_map, ← Run.splice_map,
      ← h.opens.entries, ← h.opens.segments, ← h.opens.trigrams]
    rfl
  obtain ⟨hopens, hconsistent⟩ := View.Opens.replace (hold ▸ h.opens) h.consistent hne
    (h.unreadable ▸ hp.replaces)
    (m := { merged_manifest live w.manifest last_merge n with
      segments := (A ++ p.new.toList ++ B).map WrittenPair.entry })
    rfl rfl ⟨rfl, rfl⟩ hn hfresh
  rw [hview]
  refine ⟨hnew ▸ hopens, hnew ▸ hconsistent, ?_, h.next.trans hn, ?_⟩
  · have hm : { w.unnumbered.manifest with
        sequence := w.unnumbered.manifest.sequence + 1
        unreadable := w.manifest.unreadable.filter live.contains
        segments := (Patch.patched (p :: done) origin).map fun q => q.entry.unnumbered }
        = (standing live v (p :: done).length (Patch.patched (p :: done) origin)).manifest := by
      rw [h.unreadable, h.shows]
      rfl
    rw [View.unnumbered]
    simp only [map_map]
    exact congrArg (fun m => ({
      manifest := m
      segments := (Patch.patched (p :: done) origin).map WrittenPair.segment
      trigrams := (Patch.patched (p :: done) origin).map WrittenPair.trigram } : View)) hm
  · intro q hq r hr
    rcases mem_cons.mp hq with rfl | hq
    · exact h.next.trans (hfresh r hr).1
    · exact h.fresh q hq r hr

end

/-- The views that replacements publish, one after another. -/
def Stages (env : Env) (live : DocSet) (v : View) (origin : List WrittenPair) :
    List (Patch WrittenPair) → List (Patch WrittenPair) → List View → Prop
  | _, [], [] => True
  | done, p :: rest, w :: views =>
    Stands env live v origin (p :: done) w ∧ Stages env live v origin (p :: done) rest views
  | _, _, _ => False

/-- Where the list stands in the end. -/
theorem Stages.last {patches : List (Patch WrittenPair)} {views : List View}
    (h : Stages env live v origin done patches views) (hw : Stands env live v origin done w) :
    Stands env live v origin (patches.reverse ++ done) (views.getLast?.getD w) := by
  induction patches generalizing done views w with
  | nil =>
    cases views with
    | nil => exact hw
    | cons w views => exact h.elim
  | cons p _ ih =>
    cases views with
    | nil => exact h.elim
    | cons _ views =>
      rw [reverse_cons, append_assoc, getLast?_cons]
      exact ih h.2 h.1

/-- The same replacements publish the same views. -/
theorem Stages.same {patches patches' : List (Patch WrittenPair)} {views views' : List View}
    (h : Stages env live v origin done patches views)
    (h' : Stages env live v origin done' patches' views')
    (hdone : done.map unnumber = done'.map unnumber)
    (hpatches : patches.map unnumber = patches'.map unnumber) :
    views.map View.unnumbered = views'.map View.unnumbered := by
  induction patches generalizing done done' views patches' views' with
  | nil =>
    cases views with
    | cons w views => exact h.elim
    | nil =>
      cases patches' with
      | cons p' rest' => cases hpatches
      | nil =>
        cases views' with
        | nil => rfl
        | cons w' views' => exact h'.elim
  | cons p _ ih =>
    cases views with
    | nil => exact h.elim
    | cons w views =>
      cases patches' with
      | nil => cases hpatches
      | cons p' rest' =>
        cases views' with
        | nil => exact h'.elim
        | cons w' views' =>
          obtain ⟨hp, hrest⟩ := List.cons.inj hpatches
          have hdone' : (p :: done).map unnumber = (p' :: done').map unnumber := by
            rw [map_cons, map_cons, hp, hdone]
          have hlen : (p :: done).length = (p' :: done').length := by
            simpa using congrArg List.length hdone'
          rw [map_cons, map_cons, ih h.2 h'.2 hdone' hrest, h.1.shows_unnumbered,
            h'.1.shows_unnumbered, hdone', hlen]

end

end Ferret
