import Ferret.Store.Choose
import Ferret.Store.Runs
import Ferret.Store.Standing

/-!
# A wave is its merges one by one

The outputs of a wave are written from one view, under numbers set aside for
them, and then installed one after another in lists that the ones before have
shortened. `prepare_merges_wave` says that this is the same as to merge and
publish each plan by itself, in any order: the same segments over the same
ranges with the same contents, the same frontier and the same unreadable
documents. The numbers of the new files are the only difference, and they are
fresh and distinct either way.
-/

namespace Ferret

open List

/-- The plan for the same segments, where they are in another view. -/
def MergePlan.renew {v : View} (plan : MergePlan v) (current : View) :
    Option (MergePlan current) := do
  let first ← plan.entries.head?
  let start ← current.manifest.segments.findIdx? fun entry => entry.number = first.number
  let run : Run :=
    { start := start, stop := start + plan.run.len, start_le := Nat.le_add_right .. }
  if h : run.stop ≤ current.manifest.segments.length then
    if run.slice current.manifest.segments = plan.entries then some { run := run, within := h }
    else none
  else none

section

variable (env : Env) (clock : ℕ → ℕ) (budget : Budget)

/-- Merges and publishes plans one by one, each where its segments are by
then. -/
def merge_each (catalog : CatalogView) {v : View} (current : View) :
    List (MergePlan v) → Writing View
  | [] => pure current
  | plan :: rest =>
    match plan.renew current with
    | none => Publishing.lift (.error .staleMerge)
    | some plan => do
      let merge := merge_selected env clock budget catalog current plan
      let _ ← merge
      merge_each catalog (merge.last current) rest

end

/-! ## Outcomes -/

section

variable {env : Env} {clock : ℕ → ℕ} {budget : Budget} {catalog : CatalogView} {v : View}
variable {origin : List WrittenPair}

theorem plan_run_some {live : DocSet} (run : Run) (hpos : run.start < run.stop)
    (hwithin : run.stop ≤ v.manifest.segments.length)
    (hbytes : ((run.slice v.manifest.segments).map SegmentEntry.total_bytes).sum ≤ budget.bytes) :
    ∃ plan, plan_run clock live budget v run = some plan := by
  have hlen := run.length_slice hwithin
  obtain ⟨first, rest, hslice⟩ : ∃ first rest, run.slice v.manifest.segments = first :: rest := by
    refine exists_cons_of_ne_nil ?_
    rw [← length_pos_iff, hlen]
    exact Nat.sub_pos_of_lt hpos
  simp only [plan_run]
  rw [if_neg (not_lt.mpr hbytes), hslice, head?_cons, getLast?_cons]
  exact ⟨_, rfl⟩

variable {out : Option WrittenPair} {plan : MergePlan v}

/-- **An output can stand for its inputs**, under the number it was given. -/
theorem merge_output_replaces (ho : v.Opens env.codec origin) (hc : v.manifest.Consistent)
    {run : Run} {n : ℕ} (h : merge_output env clock catalog.live budget v run n = .ok out) :
    Replaces env catalog.live (v.manifest.unreadable.filter catalog.live.contains)
        (run.slice origin) out
      ∧ ∀ p, out = some p → p.entry.number = n := by
  unfold merge_output at h
  cases hplan : plan_run clock catalog.live budget v run with
  | none =>
    rw [hplan] at h
    cases h
  | some plan =>
    rw [hplan] at h
    simp only at h
    obtain ⟨-, hfirst, hlast, -⟩ := plan_run_spec ho hplan
    split at h
    · rename_i hdocs
      cases h
      exact ⟨plan_run_drops ho hc hplan hdocs, nofun⟩
    · cases hwrite : write_run env catalog.live
          (plan.under { plan.manifest with next_number := n }) v run with
      | error e =>
        rw [hwrite] at h
        cases h
      | ok r =>
        rw [hwrite] at h
        cases h
        obtain ⟨q, _⟩ := r
        obtain ⟨hrep, hnumber⟩ := write_run_replaces ho hc hwrite hfirst hlast
          (v.manifest.unreadable.filter catalog.live.contains)
        exact ⟨hrep, fun p hp => Option.some.inj hp ▸ hnumber⟩

variable (env clock budget catalog)

/-- What merging a plan's run writes, numbers aside. -/
def MergePlan.outcome (plan : MergePlan v) : Except Error (Option WrittenPair) :=
  merge_output env clock catalog.live budget v plan.run 0

/-- What a plan replaces its run by, numbers aside. -/
def MergePlan.patch (plan : MergePlan v) : Patch WrittenPair where
  run := plan.run
  new := (plan.outcome env clock budget catalog).toOption.join

variable {env clock budget catalog}

/-- The outcome is the same wherever the run is by then. -/
theorem merge_output_of_outcome {run : Run}
    (hsame : SameRun catalog.live v plan.run w run) (n : ℕ) :
    merge_output env clock catalog.live budget w run n
      = (plan.outcome env clock budget catalog).map (Option.map (WrittenPair.renumber n)) :=
  merge_output_eq hsame 0 n

theorem SameRun.refl (live : DocSet) (v : View) (run : Run) : SameRun live v run v run :=
  ⟨rfl, rfl, rfl, rfl⟩

/-- A replacement made under any number is the plan's, numbers aside. -/
theorem MergePlan.patch_of_output (h : plan.outcome env clock budget catalog = .ok out) (n : ℕ) :
    unnumber { run := plan.run, new := out.map (WrittenPair.renumber n) }
      = unnumber (plan.patch env clock budget catalog) := by
  rw [MergePlan.patch, h]
  cases out <;> rfl

/-- A plan that may be carried out: it takes a segment at least, and no more
than the budget allows. -/
structure MergePlan.Allowed (budget : Budget) (plan : MergePlan v) : Prop where
  pos : plan.run.start < plan.run.stop
  bytes : (plan.entries.map SegmentEntry.total_bytes).sum ≤ budget.bytes

theorem MergePlan.fits (ho : v.Opens env.codec origin) (hc : v.manifest.Consistent)
    (hplan : plan.Allowed budget) (h : plan.outcome env clock budget catalog = .ok out) (n : ℕ) :
    Fitting env catalog.live v origin
      { run := plan.run, new := out.map (WrittenPair.renumber n) } where
  pos := hplan.pos
  within := by
    have hle := plan.within
    rwa [ho.entries, length_map] at hle
  replaces := (merge_output_replaces ho hc h).1.renumber n

/-! ## One by one -/

variable {done : List (Patch WrittenPair)} {w : View}

/-- **A merge by itself, in the midst of others.** -/
theorem merge_selected_stands (clock : ℕ → ℕ) (ho : v.Opens env.codec origin)
    (hc : v.manifest.Consistent)
    (hw : Stands env catalog.live v origin done w) (hcatalog : v.manifest.fits catalog = true)
    (hplan : plan.Allowed budget)
    (hapart : ∀ q ∈ done, Patch.Apart { run := plan.run, new := none } q) :
    ∃ plan', plan.renew w = some plan'
      ∧ (∀ out, plan.outcome env clock budget catalog = .ok out →
        ∃ w' merged p, merge_selected env clock budget catalog w plan'
            = { published := [w'], result := .ok merged }
          ∧ Stands env catalog.live v origin (p :: done) w' ∧ p.run = plan.run
          ∧ unnumber p = unnumber (plan.patch env clock budget catalog))
      ∧ ∀ e, plan.outcome env clock budget catalog = .error e →
        (merge_selected env clock budget catalog w plan').result = .error e := by
  have hwithin : plan.run.stop ≤ origin.length := by
    have hle := plan.within
    rwa [ho.entries, length_map] at hle
  obtain ⟨A, B, hold, hnew, _, hhead, hfind⟩ := hw.found ho hplan.pos hwithin hapart
  have hsame := hw.same_run ho hwithin hold
  -- the plan made anew
  have hstop : (plan.run.moved A.length).stop ≤ w.manifest.segments.length := by
    rw [hw.opens.entries, length_map, hold, length_append, length_append,
      plan.run.length_slice hwithin]
    show A.length + plan.run.len ≤ _
    omega
  have hrenew : plan.renew w = some { run := plan.run.moved A.length, within := hstop } := by
    rw [MergePlan.renew, MergePlan.entries, hhead]
    simp only [Option.bind_eq_bind, Option.bind_some, hfind]
    exact (dif_pos hstop).trans (if_pos hsame.entries)
  have hplanned : ∃ rp, plan_run clock catalog.live budget w (plan.run.moved A.length) = some rp :=
    plan_run_some _ (Nat.lt_add_of_pos_right (Nat.sub_pos_of_lt hplan.pos)) hstop
      (hsame.entries ▸ hplan.bytes)
  obtain ⟨rp, hrp⟩ := hplanned
  have hwrite : merge_output env clock catalog.live budget w (plan.run.moved A.length)
      w.manifest.next_number = (plan.outcome env clock budget catalog).map
        (Option.map (WrittenPair.renumber w.manifest.next_number)) :=
    merge_output_of_outcome hsame _
  refine ⟨_, hrenew, fun out hout => ?_, fun e hout => ?_⟩
  · rw [hout] at hwrite
    obtain ⟨merged, hmerge⟩ := merge_run_output hrp hwrite
    set p : Patch WrittenPair :=
      { run := plan.run, new := out.map (WrittenPair.renumber w.manifest.next_number) } with hp
    have hnumber : ∀ q, p.new = some q → w.manifest.next_number ≤ q.entry.number
        ∧ q.entry.number < w.manifest.next_number + p.new.toList.length := by
      intro q hq
      obtain ⟨r, -, rfl⟩ := Option.map_eq_some_iff.mp hq
      rw [hq]
      exact ⟨le_rfl, Nat.lt_succ_self _⟩
    have hstands : Stands env catalog.live v origin (p :: done) (replaced_view w
        (merged_manifest catalog.live w.manifest (some (clock w.manifest.sequence))
          (w.manifest.next_number + p.new.toList.length)) (p.run.moved A.length) p.new) :=
      hw.replace (plan.fits ho hc hplan hout _) hold (hnew _) (le_self_add) hnumber
    refine ⟨_, some merged, p, ?_, hstands, rfl, MergePlan.patch_of_output hout _⟩
    rw [merge_selected, if_pos ((hw.fits catalog).trans hcatalog)]
    exact hmerge
  · rw [hout] at hwrite
    rw [merge_selected, if_pos ((hw.fits catalog).trans hcatalog)]
    exact merge_run_error hrp hwrite

/-- **Plans merged one by one**: where every outcome is written, the views are
the stages of the plans' replacements. -/
theorem merge_each_stages (clock : ℕ → ℕ) (ho : v.Opens env.codec origin)
    (hc : v.manifest.Consistent)
    (hcatalog : v.manifest.fits catalog = true) (plans : List (MergePlan v))
    (hw : Stands env catalog.live v origin done w) (hplans : ∀ plan ∈ plans, plan.Allowed budget)
    (hpair : plans.Pairwise fun a b => a.overlaps b = false)
    (hapart : ∀ plan ∈ plans, ∀ q ∈ done, Patch.Apart { run := plan.run, new := none } q) :
    ((∀ plan ∈ plans, ∃ out, plan.outcome env clock budget catalog = .ok out) →
        ∃ views patches, merge_each env clock budget catalog w plans
            = { published := views, result := .ok (views.getLast?.getD w) }
          ∧ Stages env catalog.live v origin done patches views
          ∧ patches.map unnumber
            = plans.map fun plan => unnumber (plan.patch env clock budget catalog))
      ∧ ((merge_each env clock budget catalog w plans).result.isOk = true →
        ∀ plan ∈ plans, ∃ out, plan.outcome env clock budget catalog = .ok out) := by
  induction plans generalizing done w with
  | nil => exact ⟨fun _ => ⟨[], [], rfl, trivial, rfl⟩, nofun⟩
  | cons plan rest ih =>
    obtain ⟨hallowed, hrest⟩ := forall_mem_cons.mp hplans
    obtain ⟨hhead, hpair⟩ := pairwise_cons.mp hpair
    obtain ⟨_, hrenew, hok, herror⟩ :=
      merge_selected_stands clock ho hc hw hcatalog hallowed
        (hapart plan (.head _))
    cases hout : plan.outcome env clock budget catalog with
    | error e =>
      refine ⟨fun hall => ?_, fun hres => ?_⟩
      · obtain ⟨out, h⟩ := hall plan (.head _)
        rw [hout] at h
        cases h
      · rw [merge_each, hrenew] at hres
        simp only [bind, Publishing.andThen, herror e hout] at hres
        cases hres
    | ok out =>
      obtain ⟨w', _, p, hmerge, hstands, hrun, hpatch⟩ := hok out hout
      have hstep : merge_each env clock budget catalog w (plan :: rest) = {
          published := w' :: (merge_each env clock budget catalog w' rest).published
          result := (merge_each env clock budget catalog w' rest).result } := by
        rw [merge_each, hrenew]
        simp only [bind, Publishing.andThen, hmerge]
        rfl
      have hapart' : ∀ other ∈ rest, ∀ q ∈ p :: done,
          Patch.Apart { run := other.run, new := none } q := by
        intro other hother q hq
        rcases mem_cons.mp hq with rfl | hq
        · have hover := hhead other hother
          simp only [MergePlan.overlaps, Bool.and_eq_false_iff, decide_eq_false_iff_not] at hover
          intro hboth
          rw [hrun] at hboth
          exact hover.elim (fun h => h hboth.2) fun h => h hboth.1
        · exact hapart other (.tail _ hother) q hq
      obtain ⟨ih₁, ih₂⟩ := ih hstands hrest hpair hapart'
      refine ⟨fun hall => ?_, fun hres => ?_⟩
      · obtain ⟨views, patches, heach, hstages, hmap⟩ :=
          ih₁ fun other hother => hall other (.tail _ hother)
        refine ⟨w' :: views, p :: patches, ?_, ⟨hstands, hstages⟩, ?_⟩
        · rw [hstep, heach, getLast?_cons]
          rfl
        · rw [map_cons, map_cons, hpatch, hmap]
      · rw [hstep] at hres
        exact forall_mem_cons.mpr ⟨⟨out, hout⟩, ih₂ hres⟩

/-! ## As a wave -/

/-- What a job replaces its run by. -/
def Job.patch (job : Job v) : Patch WrittenPair where
  run := job.plan.run
  new := job.output

/-- **The outputs of a wave**: all are written or none, as the outcomes are. -/
theorem write_jobs_outcomes (clock : ℕ → ℕ) (catalog : CatalogView)
    (ho : v.Opens env.codec origin) (hc : v.manifest.Consistent) (i : ℕ)
    (plans : List (MergePlan v)) (hplans : ∀ plan ∈ plans, plan.Allowed budget) :
    ((∀ plan ∈ plans, ∃ out, plan.outcome env clock budget catalog = .ok out) →
        ∃ jobs, write_jobs env clock catalog.live budget i plans = .ok jobs
          ∧ Numbered (v.manifest.next_number + i) jobs
          ∧ (∀ job ∈ jobs, Fitting env catalog.live v origin job.patch)
          ∧ jobs.map (fun job => job.patch.run) = plans.map MergePlan.run
          ∧ jobs.map (fun job => unnumber job.patch)
            = plans.map fun plan => unnumber (plan.patch env clock budget catalog))
      ∧ ((write_jobs env clock catalog.live budget i plans).isOk = true →
        ∀ plan ∈ plans, ∃ out, plan.outcome env clock budget catalog = .ok out) := by
  induction plans generalizing i with
  | nil =>
    exact ⟨fun _ => ⟨[], rfl, trivial, nofun, rfl, rfl⟩,
      nofun⟩
  | cons plan rest ih =>
    obtain ⟨hallowed, hrest⟩ := forall_mem_cons.mp hplans
    obtain ⟨ih₁, ih₂⟩ := ih (i + 1) hrest
    have hwrite : (write_job env clock catalog.live budget i plan).map
        (fun job => (job.plan, job.output)) = (merge_output env clock catalog.live budget v plan.run
          (v.manifest.next_number + i)).map fun out => (plan, out) := write_job_output i plan
    rw [merge_output_of_outcome (SameRun.refl ..)] at hwrite
    cases hout : plan.outcome env clock budget catalog with
    | error e =>
      refine ⟨fun hall => ?_, fun hres => ?_⟩
      · obtain ⟨out, h⟩ := hall plan (.head _)
        rw [hout] at h
        cases h
      · rw [hout] at hwrite
        cases hjob : write_job env clock catalog.live budget i plan with
        | error e' =>
          rw [write_jobs, hjob] at hres
          cases hres
        | ok job =>
          rw [hjob] at hwrite
          cases hwrite
    | ok out =>
      rw [hout] at hwrite
      cases hjob : write_job env clock catalog.live budget i plan with
      | error e' =>
        rw [hjob] at hwrite
        cases hwrite
      | ok job =>
        rw [hjob] at hwrite
        obtain ⟨hplan, houtput⟩ := Prod.ext_iff.mp (Except.ok.inj hwrite)
        have hplan : job.plan = plan := hplan
        have houtput : job.output
            = out.map (WrittenPair.renumber (v.manifest.next_number + i)) := houtput
        have hpatch : job.patch = {
            run := plan.run
            new := out.map (WrittenPair.renumber (v.manifest.next_number + i)) } := by
          rw [Job.patch, hplan, houtput]
        refine ⟨fun hall => ?_, fun hres => ?_⟩
        · obtain ⟨jobs, hjobs, hnum, hfits, hruns, hmap⟩ :=
            ih₁ fun other hother => hall other (.tail _ hother)
          refine ⟨job :: jobs, ?_, ⟨fun p hp => ?_, hnum⟩, forall_mem_cons.mpr ⟨?_, hfits⟩,
            ?_, ?_⟩
          · rw [write_jobs, hjob]
            simp only [bind, Except.bind, hjobs]
          · rw [houtput] at hp
            obtain ⟨q, -, rfl⟩ := Option.map_eq_some_iff.mp hp
            rfl
          · rw [hpatch]
            exact plan.fits ho hc hallowed hout _
          · rw [map_cons, map_cons, hruns, hpatch]
          · rw [map_cons, map_cons, hmap, hpatch, MergePlan.patch_of_output hout]
        · rw [write_jobs, hjob] at hres
          refine forall_mem_cons.mpr ⟨⟨out, hout⟩, ih₂ ?_⟩
          simp only [bind, Except.bind] at hres
          cases hjobs : write_jobs env clock catalog.live budget (i + 1) rest with
          | error e =>
            rw [hjobs] at hres
            cases hres
          | ok jobs => rfl

/-- **A wave is installed one job at a time**, each where its inputs are by
then. -/
theorem install_all_stages {live : DocSet} (ho : v.Opens env.codec origin) (jobs : List (Job v))
    {n : ℕ} (hw : Stands env live v origin done w)
    (hfits : ∀ job ∈ jobs, Fitting env live v origin job.patch)
    (hpair : (jobs.map Job.patch).Pairwise Patch.Apart)
    (hapart : ∀ job ∈ jobs, ∀ q ∈ done, job.patch.Apart q) (hnumbered : Numbered n jobs)
    (hn : w.manifest.next_number ≤ n) :
    ∃ views, install_all live w jobs = { published := views, result := .ok (views.getLast?.getD w) }
      ∧ Stages env live v origin done (jobs.map Job.patch) views := by
  induction jobs generalizing done w n with
  | nil => exact ⟨[], rfl, trivial⟩
  | cons job rest ih =>
    obtain ⟨hfit, hrest⟩ := forall_mem_cons.mp hfits
    obtain ⟨hhead, hpair⟩ := pairwise_cons.mp hpair
    obtain ⟨hnumber, hnumbered⟩ := hnumbered
    obtain ⟨A, B, hold, hnew, first, hfirst, hfind⟩ := hw.found ho hfit.pos hfit.within
      (hapart job (.head _))
    have hfirst : (job.plan.run.slice v.manifest.segments).head? = some first := hfirst
    -- the next number is past every number given so far
    obtain ⟨next, hinstall, hlow, hhigh, hfresh⟩ : ∃ next,
        install live w job = Publishing.publish (replaced_view w
          (merged_manifest live w.manifest job.run.manifest.last_merge next)
          (job.plan.run.moved A.length) job.output)
        ∧ w.manifest.next_number ≤ next ∧ next ≤ n + 1
        ∧ ∀ q, job.output = some q →
          w.manifest.next_number ≤ q.entry.number ∧ q.entry.number < next := by
      unfold install
      rw [MergePlan.entries, hfirst]
      simp only [hfind]
      cases hout : job.output with
      | none =>
        exact ⟨_, rfl, le_rfl, hn.trans (Nat.le_succ _), fun _ h => by cases h⟩
      | some pair =>
        have hpair := hnumber pair hout
        refine ⟨max w.manifest.next_number (pair.entry.number + 1), rfl, le_max_left .., ?_, ?_⟩
        · rw [hpair]
          exact max_le (hn.trans (Nat.le_succ _)) le_rfl
        · rintro q ⟨⟩
          exact ⟨hpair ▸ hn, (Nat.lt_succ_self _).trans_le (le_max_right ..)⟩
    have hstands : Stands env live v origin (job.patch :: done) (replaced_view w
        (merged_manifest live w.manifest job.run.manifest.last_merge next)
        (job.plan.run.moved A.length) job.output) := hw.replace hfit hold (hnew _) hlow hfresh
    have hapart' : ∀ other ∈ rest, ∀ q ∈ job.patch :: done, other.patch.Apart q := by
      intro other hother q hq
      rcases mem_cons.mp hq with rfl | hq
      · exact (hhead _ (mem_map_of_mem hother)).symm
      · exact hapart other (.tail _ hother) q hq
    obtain ⟨views, hviews, hstages⟩ := ih hstands hrest hpair hapart' hnumbered hhigh
    refine ⟨_ :: views, ?_, ⟨hstands, hstages⟩⟩
    rw [install_all, hinstall, getLast?_cons]
    show Publishing.andThen (Publishing.publish _) _ = _
    simp only [Publishing.andThen, Publishing.publish]
    show ({ published := [_] ++ (install_all live _ rest).published
            result := (install_all live _ rest).result } : Publishing View Error View) = _
    rw [hviews]
    rfl

end

/-! ## The two agree -/

section

variable {env : Env} {clock : ℕ → ℕ} {budget : Budget} {fl : Floats}

theorem MergePlan.overlaps_symm {v : View} {a b : MergePlan v} (h : a.overlaps b = false) :
    b.overlaps a = false := by
  rw [← h, MergePlan.overlaps, MergePlan.overlaps, Bool.and_comm]

/-- **A wave of planned merges is its merges one by one.** For any view of
consistent segments, the plans are of runs of the manifest's segments that share
none. For any of them carried out as one wave, and as merges of their own in
any order:

* the wave succeeds where all the others do;
* wherever the wave is cut off, it has published what the first of its plans
  would have, one by one;
* in the end both show the same segments, ranges, contents, frontier and
  unreadable documents, and the numbers they gave are fresh and distinct. -/
theorem prepare_merges_wave {available_threads : ℕ} {w : IndexWriter} {planned : CatalogView}
    {cancelled : Bool} {plans : List (MergePlan w.current)} (hc : w.current.manifest.Consistent)
    (ho : ∃ ps, w.current.Opens env.codec ps)
    (hplans : prepare_merges fl budget available_threads w planned cancelled = .ok plans) :
    ((∀ plan ∈ plans, plan.run.start < plan.run.stop)
        ∧ plans.Pairwise fun a b => a.overlaps b = false)
      ∧ ∀ (catalog : CatalogView) (batch order : List (MergePlan w.current)),
        batch.Subperm plans → order.Perm batch →
          let wave := merge_selected_batch env clock budget catalog w.current batch
          let apart := merge_each env clock budget catalog w.current order
          (wave.result.isOk = true
              ↔ w.current.manifest.fits catalog = true ∧ apart.result.isOk = true)
            ∧ wave.published.map View.unnumbered
              <+: (merge_each env clock budget catalog w.current batch).published.map
                View.unnumbered
            ∧ (wave.result.isOk = true →
              (wave.last w.current).unnumbered = (apart.last w.current).unnumbered
                ∧ w.current.Fresh (wave.last w.current)
                ∧ w.current.Fresh (apart.last w.current)) := by
  obtain ⟨origin, ho⟩ := ho
  obtain ⟨hallowed, hpair⟩ := prepare_merges_apart hplans
  refine ⟨⟨fun plan hp => (hallowed plan hp).1, hpair⟩, fun catalog batch order hbatch horder => ?_⟩
  intro wave apart
  -- any of the plans are apart too, and may be carried out
  obtain ⟨_, hchosen, hsub⟩ := hbatch
  have hsymm : ∀ {a b : MergePlan w.current}, a.overlaps b = false → b.overlaps a = false :=
    MergePlan.overlaps_symm
  have hbatchpair : batch.Pairwise fun a b => a.overlaps b = false :=
    (hchosen.pairwise_iff hsymm).mp (hpair.sublist hsub)
  have horderpair : order.Pairwise fun a b => a.overlaps b = false :=
    (horder.pairwise_iff hsymm).mpr hbatchpair
  have hbatchallowed : ∀ plan ∈ batch, plan.Allowed budget := fun plan hp =>
    ⟨(hallowed plan (hsub.subset (hchosen.mem_iff.mpr hp))).1,
      (hallowed plan (hsub.subset (hchosen.mem_iff.mpr hp))).2⟩
  have horderallowed : ∀ plan ∈ order, plan.Allowed budget := fun plan hp =>
    hbatchallowed plan (horder.mem_iff.mp hp)
  have hfour : ¬ 4 < batch.length := by
    rw [← hchosen.length_eq]
    exact not_lt.mpr (hsub.length_le.trans (prepare_merges_length hplans))
  by_cases hcatalog : w.current.manifest.fits catalog = true
  swap
  · have hwave : wave = Publishing.lift (.error .staleMerge) := by
      refine if_pos (.inr (.inl ?_))
      rwa [Bool.not_eq_true] at hcatalog
    rw [hwave]
    refine ⟨⟨(fun h => by cases h), fun h => absurd h.1 hcatalog⟩, nil_prefix,
      (fun h => by cases h)⟩
  have hstart : Stands env catalog.live w.current origin [] w.current := .start ho hc _
  obtain ⟨hapartok, hapartall⟩ := merge_each_stages clock ho hc hcatalog order hstart
    horderallowed horderpair fun _ _ _ h => by cases h
  obtain ⟨hbatchok, -⟩ := merge_each_stages clock ho hc hcatalog batch hstart
    hbatchallowed hbatchpair fun _ _ _ h => by cases h
  obtain ⟨hjobsok, hjobsall⟩ := write_jobs_outcomes clock catalog ho hc 0 batch
    hbatchallowed
  have hwave : wave = (do
      let jobs ← Publishing.lift (write_jobs env clock catalog.live budget 0 batch)
      let _ ← install_all catalog.live w.current jobs
      pure jobs.length) := by
    refine if_neg ?_
    rw [not_or, not_or, not_not]
    exact ⟨hfour, by rw [hcatalog]; exact Bool.noConfusion, hbatchpair⟩
  by_cases hall : ∀ plan ∈ batch, ∃ out, plan.outcome env clock budget catalog = .ok out
  · obtain ⟨jobs, hjobs, hnumbered, hfits, hruns, hmap⟩ := hjobsok hall
    have hjobspair : (jobs.map Job.patch).Pairwise Patch.Apart := by
      have hrunpair : (batch.map MergePlan.run).Pairwise fun a b =>
          ¬ (a.start < b.stop ∧ b.start < a.stop) := by
        rw [pairwise_map]
        refine hbatchpair.imp fun {a b} hab => ?_
        simp only [MergePlan.overlaps, Bool.and_eq_false_iff, decide_eq_false_iff_not] at hab
        exact fun hboth => hab.elim (fun h => h hboth.1) fun h => h hboth.2
      rw [← hruns, pairwise_map] at hrunpair
      exact pairwise_map.mpr hrunpair
    obtain ⟨views, hviews, hstages⟩ := install_all_stages ho jobs hstart hfits hjobspair
      (fun _ _ _ h => by cases h) hnumbered le_rfl
    have hwave' : wave = { published := views, result := .ok jobs.length } := by
      rw [hwave]
      show Publishing.andThen (Publishing.lift _) _ = _
      simp only [Publishing.andThen, Publishing.lift, hjobs]
      show ({
          published := [] ++ (Publishing.andThen (install_all catalog.live w.current jobs) _).published
          result := (Publishing.andThen (install_all catalog.live w.current jobs) _).result } :
        Publishing View Error ℕ) = _
      simp only [Publishing.andThen, hviews]
      show ({ published := [] ++ (views ++ []), result := .ok jobs.length } :
        Publishing View Error ℕ) = _
      rw [append_nil, nil_append]
    obtain ⟨oviews, opatches, hoeach, hostages, homap⟩ := hapartok fun plan hp =>
      hall plan (horder.mem_iff.mp hp)
    obtain ⟨_, bpatches, hbeach, hbstages, hbmap⟩ := hbatchok hall
    have hpatches : (jobs.map Job.patch).map unnumber = bpatches.map unnumber := by
      rw [hbmap, ← hmap, map_map]
      rfl
    have hlast := hstages.last hstart
    have holast := hostages.last hstart
    have hperm : (((jobs.map Job.patch).reverse ++ []).map unnumber).Perm
        ((opatches.reverse ++ []).map unnumber) := by
      rw [append_nil, append_nil, map_reverse, map_reverse, hpatches, hbmap, homap]
      exact (reverse_perm _).trans ((horder.symm.map _).trans (reverse_perm _).symm)
    have happly : apart
        = { published := oviews, result := .ok (oviews.getLast?.getD w.current) } := hoeach
    rw [hwave', happly, hbeach]
    refine ⟨⟨fun _ => ⟨hcatalog, rfl⟩, fun _ => rfl⟩, ?_, fun _ => ⟨?_, ?_, ?_⟩⟩
    · rw [hstages.same hbstages rfl hpatches]
    · refine hlast.same holast hperm ?_
      rw [append_nil]
      exact pairwise_reverse.mpr (hjobspair.imp Patch.Apart.symm)
    · exact hlast.view_fresh ho
    · exact holast.view_fresh ho
  · have hfail : (write_jobs env clock catalog.live budget 0 batch).isOk ≠ true := fun h =>
      hall (hjobsall h)
    cases hjobs : write_jobs env clock catalog.live budget 0 batch with
    | ok jobs =>
      rw [hjobs] at hfail
      exact absurd rfl hfail
    | error e =>
      have hwave' : wave = { published := [], result := .error e } := by
        rw [hwave, hjobs]
        rfl
      rw [hwave']
      refine ⟨⟨(fun h => by cases h), fun h => ?_⟩, nil_prefix,
      (fun h => by cases h)⟩
      exact absurd (fun plan hp => hapartall h.2 plan (horder.mem_iff.mpr hp)) hall

end

/-- The policy in exact numbers, for segments no larger than the floor: their
level is `0`. -/
def exactFloats : Floats where
  F := Rat
  ofNat n := mkRat n 1
  div := Rat.div
  sub := Rat.sub
  log10 a := Rat.sub a (mkRat 1 1)
  max a b := if Rat.blt a b then b else a
  le a b := !Rat.blt b a
  lt := Rat.blt
  total_cmp a b := if Rat.blt a b then .lt else if Rat.blt b a then .gt else .eq
  LEVEL_SPAN := mkRat 3 4

theorem no_records : ([] : List Record).Pairwise (· < ·) := .nil

/-- A segment of one term. -/
def oneTerm (first last : ℕ) (h : first ≤ last ∧ last < docLimit) : Stored where
  first := first
  last := last
  terms := [([97], [first])]
  records := []
  first_le := h.1
  last_lt := h.2
  sorted := List.pairwise_singleton ..
  docs_ne_nil := List.forall_mem_singleton.mpr nofun
  docs_sorted := List.forall_mem_singleton.mpr (List.pairwise_singleton ..)
  docs_within := List.forall_mem_singleton.mpr (List.forall_mem_singleton.mpr ⟨le_rfl, h.1⟩)
  records_sorted := no_records
  records_within := nofun
  codec := .dictionary
  plain := fun _ => rfl

def oneTermPair (number first last : ℕ) (h : first ≤ last ∧ last < docLimit) : WrittenPair where
  entry := { plainEnv.describe (oneTerm first last h) (oneTerm first last h) with
    number := number
    first := first
    last := last
    docs := last + 1 - first }
  segment := oneTerm first last h
  trigram := oneTerm first last h

theorem sample_ranges : (0 ≤ 3 ∧ 3 < docLimit) ∧ (4 ≤ 4 ∧ 4 < docLimit) ∧ 5 ≤ 5 ∧ 5 < docLimit := by
  decide

/-- Three segments: most of the first is dead, and all of the last. -/
def samplePairs : List WrittenPair :=
  [oneTermPair 0 0 3 sample_ranges.1, oneTermPair 1 4 4 sample_ranges.2.1,
    oneTermPair 2 5 5 sample_ranges.2.2]

def sampleWriter : IndexWriter where
  poisoned := false
  current := {
    manifest := { Manifest.empty [7] with
      high_water := 6
      frontier := 6
      next_number := 3
      segments := samplePairs.map WrittenPair.entry }
    segments := samplePairs.map WrittenPair.segment
    trigrams := samplePairs.map WrittenPair.trigram }
  pending_merge := none

theorem six_lt_docLimit : 6 < docLimit := by decide

def sampleCatalog : CatalogView where
  incarnation := [7]
  live := DocSet.new 6 six_lt_docLimit [0, 4]

def sampleBudget : Budget where
  bytes := 100
  buffer := 0
  segments := 0

/-- Two merges, of which one writes nothing, as a wave and one by one in the
other order. -/
theorem prepare_merges_wave_two :
    ∃ plans, prepare_merges exactFloats sampleBudget 8 sampleWriter sampleCatalog false = .ok plans
      ∧ plans.map (fun plan => (plan.run.start, plan.run.stop)) = [(2, 3), (0, 1)]
      ∧ ((merge_selected_batch plainEnv id sampleBudget sampleCatalog sampleWriter.current
          plans).last sampleWriter.current).unnumbered
        = ((merge_each plainEnv id sampleBudget sampleCatalog sampleWriter.current
          plans.reverse).last sampleWriter.current).unnumbered := by
  have hruns : (prepare_merges exactFloats sampleBudget 8 sampleWriter sampleCatalog
      false).toOption.map (fun plans => (plans.map (fun plan => (plan.run.start, plan.run.stop)),
        (merge_selected_batch plainEnv id sampleBudget sampleCatalog sampleWriter.current
          plans).result.isOk)) = some ([(2, 3), (0, 1)], true) := by
    decide +kernel
  cases hplans : prepare_merges exactFloats sampleBudget 8 sampleWriter sampleCatalog false with
  | error e =>
    rw [hplans] at hruns
    cases hruns
  | ok plans =>
    rw [hplans] at hruns
    obtain ⟨hrun, hok⟩ := Prod.ext_iff.mp (Option.some.inj hruns)
    have hc : sampleWriter.current.manifest.Consistent :=
      ⟨by decide, by decide, by decide, by decide, by decide, by decide⟩
    have ho : ∃ ps, sampleWriter.current.Opens plainEnv.codec ps := by
      refine ⟨samplePairs, rfl, rfl, rfl, fun p hp => ?_⟩
      simp only [samplePairs, mem_cons, not_mem_nil, or_false] at hp
      rcases hp with rfl | rfl | rfl <;> exact ⟨⟨rfl, rfl⟩, ⟨rfl, rfl⟩, rfl, rfl⟩
    have hwave := (@prepare_merges_wave plainEnv id sampleBudget exactFloats 8 sampleWriter
      sampleCatalog false plans hc ho hplans).2 sampleCatalog plans plans.reverse
      (List.Subperm.refl plans) (reverse_perm plans)
    exact ⟨plans, rfl, hrun, (hwave.2.2 hok).1⟩

end Ferret
