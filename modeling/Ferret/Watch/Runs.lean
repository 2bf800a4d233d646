import Ferret.Watch.Kept

/-!
# Whole runs of the intake, and the requests of its bursts

The invariant of a run says of each owed event what stands for it: a hint and
roots, or a marker that the burst in flight does not hold. For the events of
the burst in flight it is the burst's own hints, roots and marker.
-/

namespace Ferret.Watch

open Intake List Option

/-- A marker in force that a success of the burst in flight will not clear. -/
def Intake.Fresh (x : Intake) : Prop :=
  ∃ m, x.state.backstop = some m ∧ ∀ b, x.burst = some b → ∀ m', b.marker = some m' → m'.1 < m.1

/-- What holds of the burst in flight. -/
structure Burst.Sane (config : Config) (b : Burst) (s : State) : Prop where
  bytes : b.bytes = charged config b.pending
  hints : ∀ key hint, b.pending.lookup key = some hint → hint.directories ≠ []
  marker : ∀ m, b.marker = some m → m.1 ≤ s.serial ∧ m.2 ≠ .burst
    ∧ (s.backstop = some m ∨ ∃ m', s.backstop = some m' ∧ m.1 < m'.1)

/-- **The invariant of a run.** -/
structure Intake.Held (config : Config) (x : Intake) : Prop where
  sane : Sane config x.state
  running : x.state.running = x.burst.isSome
  burst : ∀ b, x.burst = some b → b.Sane config x.state
  owed : ∀ e ∈ x.owed, e.Represented x.state.pending x.state.scoped_roots x.Fresh
  taken : ∀ e ∈ x.taken, ∃ b, x.burst = some b ∧ e.Represented b.pending b.roots b.marker.isSome
  raised : x.raised → x.Fresh

theorem Delivered.Represented.mono {e : Delivered} {p p' : Pending} {roots roots' : Finset Path}
    {marker marker' : Prop} (h : e.Represented p roots marker) (hp : Extends p p')
    (hr : roots ⊆ roots') (hm : marker → marker') : e.Represented p' roots' marker' := by
  rcases h with h | ⟨hhint, hroots⟩
  · exact .inl (hm h)
  · exact .inr ⟨hhint.extends hp, fun root hroot => hr (hroots root hroot)⟩

section

variable {config : Config} {x : Intake} {s : State}

/-- The marker a step raises is later than the burst's. -/
theorem Intake.Held.fresh_of_raised (hx : x.Held config) (hg : Grows x.state s)
    (hlt : x.state.serial < s.serial) (arrived : Option Delivered) :
    (x.accumulate s arrived).Fresh := by
  rcases hg.marker with ⟨hs, -, -⟩ | ⟨-, _, hb⟩
  · exact absurd hs hlt.ne'
  · refine ⟨_, hb, fun b hburst m' hm' => ?_⟩
    exact lt_of_le_of_lt ((hx.burst b hburst).marker m' hm').1 hlt

theorem Intake.Held.fresh_grows (hx : x.Held config) (hg : Grows x.state s) (hf : x.Fresh)
    (arrived : Option Delivered) : (x.accumulate s arrived).Fresh := by
  rcases hg.marker with ⟨-, hb, -⟩ | ⟨hlt, -⟩
  · obtain ⟨m, hm, hlater⟩ := hf
    exact ⟨m, hb.trans hm, hlater⟩
  · exact hx.fresh_of_raised hg hlt arrived

/-- **Intake while a burst may be in flight.** -/
theorem Intake.Held.accumulate (hx : x.Held config) (hs : Sane config s) (hg : Grows x.state s)
    {arrived : Option Delivered}
    (harrived : ∀ e ∈ arrived, e.Represented s.pending s.scoped_roots (x.state.serial < s.serial)) :
    (x.accumulate s arrived).Held config where
  sane := hs
  running := hg.running.trans hx.running
  burst := by
    intro b hburst
    have hb := hx.burst b hburst
    refine ⟨hb.bytes, hb.hints, fun m hm => ?_⟩
    obtain ⟨hle, hreason, hstate⟩ := hb.marker m hm
    refine ⟨hle.trans hg.serial_le, hreason, ?_⟩
    rcases hg.marker with ⟨-, hback, -⟩ | ⟨hlt, _, hback⟩
    · exact hback.symm ▸ hstate
    · exact .inr ⟨_, hback, lt_of_le_of_lt hle hlt⟩
  owed := by
    intro e he
    rcases mem_append.mp he with he | he
    · rcases hg.marker with ⟨-, -, hext⟩ | ⟨hlt, -⟩
      · exact (hx.owed e he).mono hext hg.roots fun hf => hx.fresh_grows hg hf arrived
      · exact .inl (hx.fresh_of_raised hg hlt arrived)
    · refine (harrived e (mem_toList.mp he)).mono (.refl _) (Finset.Subset.refl _) ?_
      exact fun hlt => hx.fresh_of_raised hg hlt arrived
  taken := hx.taken
  raised := by
    intro h
    rcases Bool.or_eq_true_iff.mp h with h | h
    · exact hx.fresh_grows hg (hx.raised h) arrived
    · have hne : s.serial ≠ x.state.serial := by simpa using h
      exact hx.fresh_of_raised hg (lt_of_le_of_ne hg.serial_le hne.symm) arrived

variable {b : Burst} {current marker : Option (ℕ × RefreshReason)}

theorem Intake.Held.take (hx : x.Held config) {bulk : Bool} {now : ℕ}
    (h : take_admitted x.state bulk now = some (b, s)) :
    Intake.Held config ⟨s, some b, [], x.owed, false⟩ := by
  unfold take_admitted at h
  split at h
  · cases h
  rename_i hdue
  cases h
  have hidle : x.burst = none := by
    cases hburst : x.burst with
    | none => rfl
    | some b =>
      have : x.state.running = true := by rw [hx.running, hburst]; rfl
      exact absurd (.inl this) hdue
  exact {
    sane := ⟨rfl, hx.sane.descriptors, fun _ _ h => (by cases h), hx.sane.marker⟩
    running := rfl
    burst := by
      rintro b ⟨⟩
      refine ⟨hx.sane.bytes, hx.sane.hints, fun m hm => ?_⟩
      obtain ⟨hle, hreason⟩ := hx.sane.marker m hm
      exact ⟨hle, hreason, .inl hm⟩
    owed := fun _ h => by cases h
    taken := fun e he => ⟨_, rfl, (hx.owed e he).mono (.refl _) (Finset.Subset.refl _) (by
      rintro ⟨m, hm, -⟩
      exact isSome_iff_exists.mpr ⟨m, hm⟩)⟩
    raised := fun h => by cases h }

/-- A success clears the marker its burst was taken under, and no other. -/
theorem Intake.Held.finish_success (hx : x.Held config) (hb : x.burst = some b)
    (now : ℕ) : Intake.Held config ⟨finish x.state b true now, none, x.owed, [], false⟩ := by
  -- a fresh marker is not the burst's
  have hfresh : x.Fresh → ∃ m, (finish x.state b true now).backstop = some m := by
    rintro ⟨m, hm, hlater⟩
    refine ⟨m, ?_⟩
    unfold finish
    dsimp only
    rw [if_pos rfl]
    split
    · rename_i hsame
      obtain ⟨m', hm'⟩ := isSome_iff_exists.mp hsame.1
      have hlt := hlater b hb m' hm'
      rw [hm, hm'] at hsame
      have heq : m = m' := Option.some.inj hsame.2
      exact absurd heq (fun h => lt_irrefl _ (h ▸ hlt))
    · exact hm
  have hstate : (finish x.state b true now).pending = x.state.pending
      ∧ (finish x.state b true now).scoped_roots = x.state.scoped_roots
      ∧ (finish x.state b true now).running = false
      ∧ Sane config (finish x.state b true now) := by
    unfold finish
    dsimp only
    rw [if_pos rfl]
    split
    · exact ⟨rfl, rfl, rfl, hx.sane.bytes, hx.sane.descriptors, hx.sane.hints, fun _ h => by cases h⟩
    · exact ⟨rfl, rfl, rfl, hx.sane.bytes, hx.sane.descriptors, hx.sane.hints, hx.sane.marker⟩
  obtain ⟨hpending, hroots, hrunning, hsane⟩ := hstate
  exact {
    sane := hsane
    running := hrunning
    burst := fun _ h => by cases h
    owed := fun e he => (hx.owed e he).mono (hpending ▸ .refl _) (hroots ▸ Finset.Subset.refl _) (by
      intro hf
      obtain ⟨m, hm⟩ := hfresh hf
      exact ⟨m, hm, fun _ h => by cases h⟩)
    taken := fun _ h => by cases h
    raised := fun h => by cases h }

/-- With no burst in flight and a marker in force everything is represented. -/
theorem held_of_marker (hs : Sane config s) (hrunning : s.running = false)
    (hmarker : s.backstop.isSome) (owed : List Delivered) :
    Intake.Held config ⟨s, none, owed, [], false⟩ := by
  obtain ⟨m, hm⟩ := isSome_iff_exists.mp hmarker
  exact {
    sane := hs
    running := hrunning
    burst := fun _ h => by cases h
    owed := fun _ _ => .inl ⟨m, hm, fun _ h => by cases h⟩
    taken := fun _ h => by cases h
    raised := fun h => by cases h }

theorem Intake.Held.finish_failure (hx : x.Held config) (hb : x.burst = some b) (now : ℕ) :
    Intake.Held config ⟨finish x.state b false now, none, x.taken ++ x.owed, [], false⟩ := by
  refine held_of_marker ?_ rfl rfl _
  unfold finish
  dsimp only
  rw [if_neg Bool.false_ne_true]
  refine loss_sane hx.sane.descriptors ?_
  split
  · rename_i n reason hm
    exact ((hx.burst b hb).marker _ hm).2.1
  · decide

/-- The accumulator with a burst given back, before its bounds are checked. -/
def restored (s : State) (b : Burst) : State :=
  { s with
    running := false
    inflight_first := none
    first := earliest s.first s.inflight_first
    pending := s.pending ∪ b.pending
    bytes := saturating_add s.bytes b.bytes
    scoped_roots := s.scoped_roots ∪ b.roots
    backstop := laterMarker s.backstop b.marker }

/-- The accumulator with a burst given back, within its bounds. -/
def bounded (config : Config) (s : State) (b : Burst) (now : ℕ) : State :=
  if (restored s b).pending.entries.length > config.scopes ∨ (restored s b).bytes > config.bytes then
    loss (restored s b) .overflow now
  else restored s b

theorem defer_eq (config : Config) (s : State) (b : Burst) (now : ℕ) :
    ∃ last, defer config s b now = { bounded config s b now with last := last } := by
  show ∃ last, (if (bounded config s b now).pending.entries ≠ []
      ∨ (bounded config s b now).scoped_roots ≠ ∅ ∨ (bounded config s b now).backstop.isSome then
    { bounded config s b now with last := some ((bounded config s b now).last.getD now) }
    else bounded config s b now) = _
  generalize bounded config s b now = s₁
  split
  · exact ⟨_, rfl⟩
  · exact ⟨s₁.last, rfl⟩

theorem laterMarker_left (h : current.isSome) : (laterMarker current marker).isSome := by
  obtain ⟨m, rfl⟩ := isSome_iff_exists.mp h
  cases marker with
  | none => rfl
  | some _ =>
    unfold laterMarker
    dsimp only
    split <;> rfl

theorem laterMarker_right (h : marker.isSome) : (laterMarker current marker).isSome := by
  obtain ⟨m, rfl⟩ := isSome_iff_exists.mp h
  cases current with
  | none => rfl
  | some _ =>
    unfold laterMarker
    dsimp only
    split <;> rfl

theorem laterMarker_of {m : ℕ × RefreshReason}
    (h : laterMarker current marker = some m) : current = some m ∨ marker = some m := by
  cases marker with
  | none => exact .inl h
  | some _ =>
    cases current with
    | none => exact .inr h
    | some c =>
      unfold laterMarker at h
      dsimp only at h
      split at h
      · exact .inr h
      · exact .inl h

theorem extends_union_left (p p' : Pending) : Extends p (p ∪ p') := by
  intro key hint h
  have hmem : key ∈ p := AList.lookup_isSome.mp (h ▸ rfl)
  exact ⟨hint, (AList.lookup_union_left hmem).trans h, .refl hint⟩

theorem extends_union_right {p p' : Pending} (hd : ∀ key ∈ p', key ∉ p) : Extends p' (p ∪ p') := by
  intro key hint h
  have hmem : key ∈ p' := AList.lookup_isSome.mp (h ▸ rfl)
  exact ⟨hint, (AList.lookup_union_right (hd key hmem)).trans h, .refl hint⟩

theorem Intake.Held.defer (hx : x.Held config) (hb : x.burst = some b) (now : ℕ)
    (hd : ∀ key ∈ b.pending, key ∉ x.state.pending) :
    Intake.Held config ⟨defer config x.state b now, none, x.taken ++ x.owed, [], false⟩ := by
  have hbs := hx.burst b hb
  obtain ⟨last, hdefer⟩ := defer_eq config x.state b now
  rw [hdefer]
  unfold bounded
  split
  · have hlost : Watch.Sane config (loss (restored x.state b) .overflow now) :=
      loss_sane hx.sane.descriptors (by decide)
    refine held_of_marker ?_ rfl rfl _
    exact ⟨hlost.bytes, hlost.descriptors, hlost.hints, hlost.marker⟩
  · rename_i hroom
    have hbytes : saturating_add x.state.bytes b.bytes ≤ config.bytes :=
      Nat.le_of_not_lt fun h => hroom (.inr h)
    exact {
      sane := by
        refine ⟨?_, hx.sane.descriptors, ?_, ?_⟩
        · show saturating_add x.state.bytes b.bytes = charged config (x.state.pending ∪ b.pending)
          have hunion : charged config (x.state.pending ∪ b.pending)
              = charged config x.state.pending + charged config b.pending := AList.total_union _ hd
          have hlt := config.bytes_lt
          unfold saturating_add at hbytes ⊢
          rw [hunion, ← hx.sane.bytes, ← hbs.bytes]
          omega
        · intro key hint h
          by_cases hmem : key ∈ x.state.pending
          · exact hx.sane.hints key hint ((AList.lookup_union_left hmem).symm.trans h)
          · exact hbs.hints key hint ((AList.lookup_union_right hmem).symm.trans h)
        · intro m hm
          rcases laterMarker_of hm with hm | hm
          · exact hx.sane.marker m hm
          · exact ⟨(hbs.marker m hm).1, (hbs.marker m hm).2.1⟩
      running := rfl
      burst := fun _ h => by cases h
      owed := by
        intro e he
        -- a marker of either side is in force after the burst is back
        have hfresh : (laterMarker x.state.backstop b.marker).isSome →
            Intake.Fresh ⟨{ restored x.state b with last := last }, none, x.taken ++ x.owed, [],
              false⟩ := by
          intro hsome
          obtain ⟨m, hm⟩ := isSome_iff_exists.mp hsome
          exact ⟨m, hm, fun _ h => by cases h⟩
        rcases mem_append.mp he with he | he
        · obtain ⟨_, hb', hrep⟩ := hx.taken e he
          obtain rfl := Option.some.inj (hb.symm.trans hb')
          exact hrep.mono (extends_union_right hd) Finset.subset_union_right fun hm =>
            hfresh (laterMarker_right hm)
        · refine (hx.owed e he).mono (extends_union_left _ _) Finset.subset_union_left ?_
          rintro ⟨m, hm, -⟩
          exact hfresh (laterMarker_left (hm ▸ rfl))
      taken := fun _ h => by cases h
      raised := fun h => by cases h }

/-- **Every clean call keeps the invariant.** -/
theorem Intake.Held.call (hx : x.Held config) {now : ℕ} {c : Call} {x' : Intake}
    (hclean : x.Clean c) (h : x.call config now c = some x') : x'.Held config := by
  have hnone : ∀ {s : State}, ∀ e ∈ (none : Option Delivered),
      e.Represented s.pending s.scoped_roots (x.state.serial < s.serial) := fun _ h => by cases h
  cases c with
  | event wd _ _ _ =>
    cases h
    obtain ⟨hs, hg, harrived⟩ := event_kept now hx.sane (Nat.lt_of_succ_lt hclean.1) hclean.2
    exact hx.accumulate hs hg harrived
  | add_directory wd directory =>
    cases h
    obtain ⟨hs, hg⟩ := add_directory_kept now hx.sane hclean wd directory
    exact hx.accumulate hs hg hnone
  | add_input wd input =>
    cases h
    obtain ⟨hs, hg⟩ := add_input_kept now hx.sane hclean wd input
    exact hx.accumulate hs hg hnone
  | refuse_input wd =>
    cases h
    refine hx.accumulate ?_ ?_ hnone
    · exact ⟨hx.sane.bytes, hx.sane.descriptors, hx.sane.hints, hx.sane.marker⟩
    · exact watches_grow rfl rfl rfl rfl rfl
  | retire_policy keep wd confirmed =>
    obtain ⟨-, h⟩ := ite_none_right_eq_some.mp h
    cases h
    obtain ⟨hs, hg⟩ := retire_policy_kept hx.sane keep wd confirmed
    exact hx.accumulate hs hg hnone
  | retire_descriptor resolves wd directories same confirmed =>
    cases h
    obtain ⟨hs, hg⟩ := retire_descriptor_kept hx.sane resolves wd directories same confirmed
    exact hx.accumulate hs hg hnone
  | backstop _ =>
    obtain ⟨hreason, h⟩ := ite_none_left_eq_some.mp h
    cases h
    exact hx.accumulate (loss_sane hx.sane.descriptors hreason)
      (loss_grows (Nat.lt_of_succ_lt hclean) rfl rfl (Finset.Subset.refl _)) hnone
  | scoped_roots _ =>
    cases h
    refine hx.accumulate ?_ ?_ hnone
    · exact ⟨hx.sane.bytes, hx.sane.descriptors, hx.sane.hints, hx.sane.marker⟩
    · exact ⟨rfl, Finset.subset_union_left, .inl ⟨rfl, rfl, .refl _⟩⟩
  | take _ =>
    unfold Intake.call at h
    dsimp only at h
    split at h
    · cases h
      exact hx
    · rename_i b s htake
      cases h
      exact hx.take htake
  | finish success =>
    obtain ⟨b, hb, rfl⟩ := map_eq_some_iff.mp h
    cases success with
    | true => exact hx.finish_success hb now
    | false => exact hx.finish_failure hb now
  | defer =>
    obtain ⟨b, hb, rfl⟩ := map_eq_some_iff.mp h
    exact hx.defer hb now (hclean.2 b hb)

theorem Intake.Reached.held (h : Reached config x) : x.Held config := by
  induction h with
  | new =>
    exact {
      sane := ⟨rfl, fun _ _ h => (by cases h), fun _ _ h => (by cases h), fun _ h => by cases h⟩
      running := rfl
      burst := fun _ h => by cases h
      owed := fun _ h => by cases h
      taken := fun _ h => by cases h
      raised := fun h => by cases h }
  | call _ hclean hcall ih => exact ih.call hclean hcall

end

/-! ## Requests -/

/-- No root of the view lies inside another. -/
def View.Unnested (view : View) : Prop :=
  ∀ root ∈ view.roots.map Prod.snd, ∀ root' ∈ view.roots.map Prod.snd, root <+: root' → root = root'

/-- A request that asks for one name of a directory: for the whole view, for
the directory's root, or, where the directory resolves, for its entry or the
root the entry is in. -/
def RefreshRequest.Names (request : RefreshRequest) (view : View) (n : Name) (d : Directory) : Prop :=
  (request.scopes = [] ∧ request.reason ≠ .burst)
    ∨ .root d.root ∈ request.scopes
    ∨ ∃ parent, d.resolve view = some parent
        ∧ (.entry parent n ∈ request.scopes
          ∨ ∃ root, view.containing_root parent = some root ∧ .root root ∈ request.scopes)

/-- The climb of a directory goes to a root above it. -/
theorem Tree.containing_root_le (tree : Tree) (id : InoId) {root : Path}
    (h : tree.containing_root id = some root) :
    root <+: tree.dir_path id ∧ root ∈ tree.roots.map Prod.snd := by
  induction id using Nat.strongRecOn with
  | ind id ih =>
    unfold Tree.containing_root at h
    unfold Tree.dir_path
    split at h
    · rename_i hname
      have hmem : root ∈ tree.roots.map Prod.snd := by
        obtain ⟨l, r, hroots, -⟩ := lookup_eq_some_iff.mp h
        rw [hroots]
        simp
      rw [h]
      exact ⟨prefix_refl root, hmem⟩
    · rename_i parent n hname
      obtain ⟨hle, hmem⟩ := ih parent (tree.dir_name_lt hname) h
      exact ⟨hle.trans (prefix_append _ _), hmem⟩

/-- **The request of a burst asks for every hint of it**, in a view without
nested roots. -/
theorem Burst.request_names {view : View} (hview : view.Unnested) {b : Burst}
    (hmarker : ∀ m, b.marker = some m → m.2 ≠ .burst) {key : ℤ × Name} {hint : Hint}
    (hlookup : b.pending.lookup key = some hint) {d : Directory} (hd : d ∈ hint.directories) :
    (b.request view).Names view key.2 d := by
  have hentry : (⟨key, hint⟩ : Sigma fun _ : ℤ × Name => Hint) ∈ b.pending.entries :=
    AList.mem_lookup_iff.mp hlookup
  unfold Burst.request
  split
  · rename_i hsome
    obtain ⟨m, hm⟩ := isSome_iff_exists.mp hsome
    refine .inl ⟨rfl, ?_⟩
    show b.reason ≠ .burst
    unfold Burst.reason
    rw [hm]
    exact hmarker m hm
  · dsimp only
    split
    · exact .inl ⟨rfl, by decide⟩
    · rename_i hboundary
      have hknown : ∀ root ∈ b.requested view, root ∈ view.roots.map Prod.snd := by
        intro root hroot
        by_contra hno
        exact hboundary ⟨root, hroot, hno⟩
      -- a requested root is a scope of its own
      have hscope : ∀ root ∈ b.requested view, RefreshScope.root root
          ∈ (b.scopes view).filter (fun scope => !below view (b.requested view) scope)
            ++ (b.requested view).sort.map RefreshScope.root := fun root hroot =>
        mem_append_right _ (List.mem_map_of_mem ((Finset.mem_sort _).mpr hroot))
      by_cases hroot : (wholeRoot key.2 || (d.resolve view).isNone) = true
      · refine .inr (.inl (hscope _ ?_))
        refine Finset.mem_union_right _ (List.mem_toFinset.mpr (mem_flatMap.mpr ⟨_, hentry, ?_⟩))
        exact List.mem_map_of_mem (mem_filter.mpr ⟨hd, hroot⟩)
      · obtain ⟨hname, hresolve⟩ := not_or.mp (fun h => hroot (Bool.or_eq_true_iff.mpr h))
        obtain ⟨parent, hparent⟩ := ne_none_iff_exists'.mp
          fun hnone : d.resolve view = none => hresolve (by rw [hnone]; rfl)
        refine .inr (.inr ⟨parent, hparent, ?_⟩)
        have hin : RefreshScope.entry parent key.2 ∈ b.scopes view := by
          refine mem_flatMap.mpr ⟨_, hentry, ?_⟩
          unfold entriesOf
          rw [if_neg hname]
          exact mem_filterMap.mpr ⟨d, hd, by rw [hparent]; rfl⟩
        by_cases hbelow : below view (b.requested view) (.entry parent key.2) = true
        · -- a requested root above the entry is the entry's own
          obtain ⟨root, hmem, hle⟩ := of_decide_eq_true hbelow
          obtain ⟨hpath, hdirectory⟩ := filter_eq_some_iff.mp hparent
          obtain ⟨hdir, -⟩ := of_decide_eq_true hdirectory
          obtain ⟨own, hown⟩ := isSome_iff_exists.mp (view.rooted hpath hdir)
          obtain ⟨hle', hmem'⟩ := view.containing_root_le parent hown
          have heq : root = own := by
            rcases prefix_or_prefix_of_prefix hle hle' with h | h
            · exact hview root (hknown root hmem) own hmem' h
            · exact (hview own hmem' root (hknown root hmem) h).symm
          exact .inr ⟨own, hown, heq ▸ hscope root hmem⟩
        · refine .inl (mem_append_left _ (mem_filter.mpr ⟨hin, ?_⟩))
          simpa using hbelow

/-! ## What a run keeps -/

/-- What is promised of every state of the intake: of each event owed, what
stands for it; that a marker raised while a burst is in flight outlives its
success, and that a failure leaves one; the charges; and the requests. -/
structure Intake.Kept (config : Config) (x : Intake) : Prop where
  owed : ∀ e ∈ x.owed,
    e.Represented x.state.pending x.state.scoped_roots x.state.backstop.isSome
  taken : ∀ e ∈ x.taken, ∃ b, x.burst = some b ∧ e.Represented b.pending b.roots b.marker.isSome
  survives : ∀ b, x.burst = some b → x.raised → ∀ now,
    x.state.backstop.isSome ∧ (finish x.state b true now).backstop = x.state.backstop
  failed : ∀ b, x.burst = some b → ∀ now, (finish x.state b false now).backstop.isSome
  bytes : x.state.bytes = charged config x.state.pending
  named : ∀ b, x.burst = some b → ∀ view : View, view.Unnested →
    ∀ key hint, b.pending.lookup key = some hint →
      hint.directories ≠ [] ∧ ∀ d ∈ hint.directories, (b.request view).Names view key.2 d

/-- The bounds a host takes. -/
def Config.default : Config where
  scopes := 100000
  bytes := 16 * 2 ^ 20
  size_of_hint := 32
  size_of_directory := 56
  bytes_lt := by decide

end Ferret.Watch
