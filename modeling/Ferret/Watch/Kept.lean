import Ferret.Watch.Delivered
import Ferret.Lib.Keyed

/-!
# No event is forgotten

Every step on the accumulator either leaves its marker alone, and then keeps
every pending hint or makes it say more, or raises a marker of a later
watermark. From this one fact follows that an event owed an observation stays
represented until a burst that covers it succeeds: a marker in force when a
burst is taken stands for what that burst holds, and is recognised by its
watermark when the burst succeeds, so that a later one survives.
-/

namespace Ferret.Watch

open Intake

/-! ## Hints -/

/-- A hint that says at least as much as another. -/
structure Hint.Extends (h h' : Hint) : Prop where
  directories : h'.directories = h.directories
  subtree : h.subtree → h'.subtree
  moved_from : h.moved_from → h'.moved_from
  moved_to : h.moved_to → h'.moved_to

theorem Hint.Extends.refl (h : Hint) : h.Extends h := ⟨rfl, id, id, id⟩

theorem Hint.Extends.trans {h h' h'' : Hint} (a : h.Extends h') (b : h'.Extends h'') :
    h.Extends h'' :=
  ⟨b.directories.trans a.directories, b.subtree ∘ a.subtree, b.moved_from ∘ a.moved_from,
    b.moved_to ∘ a.moved_to⟩

variable {directories : List Directory}

theorem Hint.Carries.extends {h h' : Hint} {flags : ReadFlags} (hc : h.Carries directories flags)
    (he : h.Extends h') : h'.Carries directories flags where
  directories := he.directories ▸ hc.directories
  subtree := he.subtree ∘ hc.subtree
  moved_from := he.moved_from ∘ hc.moved_from
  moved_to := he.moved_to ∘ hc.moved_to

theorem Hint.merge_extends (h : Hint) (flags : ReadFlags) (cookie : ℕ) :
    h.Extends (h.merge flags cookie) where
  directories := rfl
  subtree := fun hs => by simp [merge, hs]
  moved_from := fun hs => by simp [merge, hs]
  moved_to := fun hs => by simp [merge, hs]

theorem Hint.merge_carries {h : Hint} (flags : ReadFlags) (cookie : ℕ)
    (hd : directories ⊆ h.directories) :
    (h.merge flags cookie).Carries directories flags where
  directories := hd
  subtree := fun hs => by simp [merge, hs]
  moved_from := fun hs => by simp [merge, hs]
  moved_to := fun hs => by simp [merge, hs]

theorem Hint.new_carries (directories : List Directory) (flags : ReadFlags) (cookie : ℕ) :
    (Hint.new directories flags cookie).Carries directories flags :=
  ⟨List.Subset.refl _, id, id, id⟩

/-- Every hint is still there, and says at least as much. -/
def Extends (p p' : Pending) : Prop :=
  ∀ key hint, p.lookup key = some hint → ∃ hint', p'.lookup key = some hint' ∧ hint.Extends hint'

theorem Extends.refl (p : Pending) : Extends p p := fun _ hint h => ⟨hint, h, .refl hint⟩

theorem Extends.trans {p p' p'' : Pending} (a : Extends p p') (b : Extends p' p'') :
    Extends p p'' := by
  intro key hint h
  obtain ⟨hint', h', hext⟩ := a key hint h
  obtain ⟨hint'', h'', hext'⟩ := b key hint' h'
  exact ⟨hint'', h'', hext.trans hext'⟩

theorem Delivered.Hinted.extends {e : Delivered} {p p' : Pending} (h : e.Hinted p)
    (hp : Extends p p') : e.Hinted p' := by
  unfold Delivered.Hinted at *
  split at h
  · exact h
  · trivial
  · obtain ⟨_, hlookup, hcarries⟩ := h
    obtain ⟨hint', hlookup', hext⟩ := hp _ _ hlookup
    exact ⟨hint', hlookup', hcarries.extends hext⟩

/-! ## The accumulator -/

/-- What the pending hints are charged. -/
def charged (config : Config) (p : Pending) : ℕ :=
  p.total fun e => charge config e.1.2 e.2.directories

theorem charged_insert_new {config : Config} {p : Pending} {key : ℤ × Name} (hint : Hint)
    (h : key ∉ p) :
    charged config (p.insert key hint) = charge config key.2 hint.directories + charged config p :=
  AList.total_insert_of_notMem _ _ h

theorem charged_insert_eq {config : Config} {p : Pending} {key : ℤ × Name} {hint hint' : Hint}
    (h : p.lookup key = some hint) (hd : hint'.directories = hint.directories) :
    charged config (p.insert key hint') = charged config p := by
  refine AList.total_insert_of_eq _ h ?_
  dsimp only
  rw [hd]

/-- What holds of the accumulator between calls. -/
structure Sane (config : Config) (s : State) : Prop where
  bytes : s.bytes = charged config s.pending
  descriptors : ∀ wd directories, s.descriptors.lookup wd = some directories → directories ≠ []
  hints : ∀ key hint, s.pending.lookup key = some hint → hint.directories ≠ []
  marker : ∀ m, s.backstop = some m → m.1 ≤ s.serial ∧ m.2 ≠ .burst

/-- **What a step on the accumulator can do.** -/
structure Grows (s s' : State) : Prop where
  running : s'.running = s.running
  roots : s.scoped_roots ⊆ s'.scoped_roots
  marker : (s'.serial = s.serial ∧ s'.backstop = s.backstop ∧ Extends s.pending s'.pending)
    ∨ (s.serial < s'.serial ∧ ∃ reason, s'.backstop = some (s'.serial, reason))

theorem Grows.refl (s : State) : Grows s s :=
  ⟨rfl, Finset.Subset.refl _, .inl ⟨rfl, rfl, .refl _⟩⟩

theorem Grows.trans {s s' s'' : State} (a : Grows s s') (b : Grows s' s'') : Grows s s'' where
  running := b.running.trans a.running
  roots := a.roots.trans b.roots
  marker := by
    rcases a.marker with ⟨hs, hb, he⟩ | ⟨hs, reason, hb⟩ <;>
      rcases b.marker with ⟨hs', hb', he'⟩ | ⟨hs', hb'⟩
    · exact .inl ⟨hs'.trans hs, hb'.trans hb, he.trans he'⟩
    · exact .inr ⟨hs ▸ hs', hb'⟩
    · exact .inr ⟨hs' ▸ hs, reason, by rw [hb', hb, hs']⟩
    · exact .inr ⟨hs.trans hs', hb'⟩

theorem Grows.serial_le {s s' : State} (h : Grows s s') : s.serial ≤ s'.serial := by
  rcases h.marker with ⟨hs, -, -⟩ | ⟨hs, -⟩
  · exact hs.ge
  · exact hs.le

section

variable {config : Config} {s s₀ : State} {reason : RefreshReason} {now : ℕ}

theorem loss_serial (hroom : s.serial + 1 < 2 ^ 64) :
    (loss s reason now).serial = s.serial + 1 :=
  Nat.mod_eq_of_lt hroom

theorem loss_lt (hroom : s.serial + 1 < 2 ^ 64) (hserial : s₀.serial = s.serial) :
    s.serial < (loss s₀ reason now).serial := by
  rw [loss_serial (hserial ▸ hroom), hserial]
  exact Nat.lt_succ_self _

theorem loss_backstop : ∃ r, (loss s reason now).backstop = some ((loss s reason now).serial, r) :=
  ⟨_, rfl⟩

/-- A loss after a change of the watches only. -/
theorem loss_grows (hroom : s.serial + 1 < 2 ^ 64) (hserial : s₀.serial = s.serial)
    (hrunning : s₀.running = s.running) (hroots : s.scoped_roots ⊆ s₀.scoped_roots) :
    Grows s (loss s₀ reason now) where
  running := hrunning
  roots := hroots
  marker := .inr ⟨loss_lt hroom hserial, loss_backstop⟩

theorem loss_sane
    (hd : ∀ wd directories, s.descriptors.lookup wd = some directories → directories ≠ [])
    (hreason : reason ≠ .burst) : Sane config (loss s reason now) where
  bytes := rfl
  descriptors := hd
  hints := by
    intro key hint h
    cases h
  marker := by
    intro m hm
    have hm : some ((loss s reason now).serial, _) = some m := hm
    cases hm
    refine ⟨le_rfl, ?_⟩
    dsimp only
    split
    · decide
    · exact hreason

end

/-! ## One call at a time -/

section

variable {config : Config} {s : State} (now : ℕ)

theorem lookup_erase_ne_nil {β : Type} {m : AList fun _ : ℤ => List β} {wd : ℤ}
    (h : ∀ w l, m.lookup w = some l → l ≠ []) : ∀ w l, (m.erase wd).lookup w = some l → l ≠ [] := by
  intro w l hl
  by_cases hw : w = wd
  · rw [hw, AList.lookup_erase] at hl
    cases hl
  · rw [AList.lookup_erase_ne hw] at hl
    exact h w l hl

theorem lookup_insert_ne_nil {β : Type} {m : AList fun _ : ℤ => List β} {wd : ℤ} {new : List β}
    (h : ∀ w l, m.lookup w = some l → l ≠ []) (hnew : new ≠ []) :
    ∀ w l, (m.insert wd new).lookup w = some l → l ≠ [] := by
  intro w l hl
  by_cases hw : w = wd
  · subst hw
    rw [AList.lookup_insert] at hl
    cases hl
    exact hnew
  · rw [AList.lookup_insert_ne hw] at hl
    exact h w l hl

theorem scope_policy_roots_grows (wd : ℤ) (name : Name) :
    Grows s (scope_policy_roots s wd name now) := by
  unfold scope_policy_roots
  dsimp only
  split
  · exact .refl s
  · exact ⟨rfl, Finset.subset_union_left, .inl ⟨rfl, rfl, .refl _⟩⟩

theorem scope_policy_roots_sane (hs : Sane config s) (wd : ℤ) (name : Name) :
    Sane config (scope_policy_roots s wd name now) := by
  unfold scope_policy_roots
  dsimp only
  split
  · exact hs
  · exact ⟨hs.bytes, hs.descriptors, hs.hints, hs.marker⟩

/-- The roots an event touches are scoped, and nothing else of the watches
changes. -/
theorem scope_policy_roots_eq (wd : ℤ) (name : Name) :
    (scope_policy_roots s wd name now).descriptors = s.descriptors
      ∧ (scope_policy_roots s wd name now).policies = s.policies
      ∧ (scope_policy_roots s wd name now).pending = s.pending
      ∧ (scope_policy_roots s wd name now).serial = s.serial
      ∧ ∀ root ∈ policyRoots s wd name, root ∈ (scope_policy_roots s wd name now).scoped_roots := by
  unfold scope_policy_roots
  dsimp only
  split
  · rename_i hnil
    refine ⟨rfl, rfl, rfl, rfl, ?_⟩
    rw [hnil]
    rintro root ⟨⟩
  · exact ⟨rfl, rfl, rfl, rfl, fun root hr =>
      Finset.mem_union_right _ (List.mem_toFinset.mpr hr)⟩

/-- A step that changes the watches only. -/
theorem watches_grow {s' : State} (hrunning : s'.running = s.running)
    (hroots : s'.scoped_roots = s.scoped_roots) (hserial : s'.serial = s.serial)
    (hbackstop : s'.backstop = s.backstop) (hpending : s'.pending = s.pending) : Grows s s' :=
  ⟨hrunning, hroots.symm ▸ Finset.Subset.refl _,
    .inl ⟨hserial, hbackstop, hpending ▸ .refl _⟩⟩

theorem ignored_kept (hs : Sane config s) (hroom : s.serial + 1 < 2 ^ 64) (wd : ℤ) :
    Sane config (ignored s wd now) ∧ Grows s (ignored s wd now)
      ∧ (wd ∉ s.removed → s.serial < (ignored s wd now).serial) := by
  unfold ignored
  split
  · rename_i hmem
    exact ⟨⟨hs.bytes, hs.descriptors, hs.hints, hs.marker⟩, watches_grow rfl rfl rfl rfl rfl,
      fun h => absurd hmem h⟩
  · refine ⟨loss_sane (lookup_erase_ne_nil hs.descriptors) (by decide),
      loss_grows hroom rfl rfl (Finset.Subset.refl _), fun _ =>
      loss_lt hroom rfl⟩

/-- An event on indexed directories becomes a hint that carries it, or raises
a marker. -/
theorem hint_kept (flags : ReadFlags) (cookie : ℕ) (hs : Sane config s)
    (hroom : s.serial + 1 < 2 ^ 64) {wd : ℤ} {name : Name} (hne : directories ≠ [])
    (hclean : ∀ hint, s.pending.lookup (wd, name) = some hint → directories ⊆ hint.directories) :
    Sane config (s.hint config wd flags cookie name directories now)
      ∧ Grows s (s.hint config wd flags cookie name directories now)
      ∧ (s.serial < (s.hint config wd flags cookie name directories now).serial
        ∨ ∃ hint, (s.hint config wd flags cookie name directories now).pending.lookup (wd, name)
            = some hint ∧ hint.Carries directories flags) := by
  unfold State.hint
  dsimp only
  split
  · rename_i hint hlookup
    have hext := hint.merge_extends flags cookie
    refine ⟨⟨?_, hs.descriptors, ?_, hs.marker⟩, ⟨rfl, Finset.Subset.refl _, .inl ⟨rfl, rfl, ?_⟩⟩,
      .inr ⟨_, AList.lookup_insert _, Hint.merge_carries flags cookie (hclean hint hlookup)⟩⟩
    · show s.bytes = _
      rw [hs.bytes]
      exact (charged_insert_eq hlookup rfl).symm
    · intro key other hother
      by_cases hkey : key = (wd, name)
      · subst hkey
        rw [AList.lookup_insert] at hother
        cases hother
        exact hs.hints _ hint hlookup
      · rw [AList.lookup_insert_ne hkey] at hother
        exact hs.hints key other hother
    · intro key other hother
      by_cases hkey : key = (wd, name)
      · subst hkey
        rw [hlookup] at hother
        cases hother
        exact ⟨_, AList.lookup_insert _, hext⟩
      · exact ⟨other, (AList.lookup_insert_ne hkey).trans hother, .refl other⟩
  · rename_i hlookup
    have hnew : (wd, name) ∉ s.pending := AList.lookup_eq_none.mp hlookup
    split
    · exact ⟨loss_sane hs.descriptors (by decide),
        loss_grows hroom rfl rfl (Finset.Subset.refl _), .inl (loss_lt hroom rfl)⟩
    · refine ⟨⟨?_, hs.descriptors, ?_, hs.marker⟩,
        ⟨rfl, Finset.Subset.refl _, .inl ⟨rfl, rfl, ?_⟩⟩,
        .inr ⟨_, AList.lookup_insert _, Hint.new_carries directories flags cookie⟩⟩
      · show s.bytes + _ = _
        rw [hs.bytes, add_comm]
        exact (charged_insert_new (Hint.new directories flags cookie) hnew).symm
      · intro key other hother
        by_cases hkey : key = (wd, name)
        · subst hkey
          rw [AList.lookup_insert] at hother
          cases hother
          exact hne
        · rw [AList.lookup_insert_ne hkey] at hother
          exact hs.hints key other hother
      · intro key other hother
        have hkey : key ≠ (wd, name) := by
          rintro rfl
          rw [hlookup] at hother
          cases hother
        exact ⟨other, (AList.lookup_insert_ne hkey).trans hother, .refl other⟩

/-- **An event leaves itself represented**, by a marker that it raises or by
its hint and its roots. -/
theorem event_kept (hs : Sane config s) (hroom : s.serial + 1 < 2 ^ 64) {wd : ℤ}
    {flags : ReadFlags} {cookie : ℕ} {name : Name}
    (hclean : ∀ hint, s.pending.lookup (wd, name) = some hint →
      ∀ directories, s.descriptors.lookup wd = some directories → directories ⊆ hint.directories) :
    Sane config (event config s wd flags cookie name now)
      ∧ Grows s (event config s wd flags cookie name now)
      ∧ ∀ e ∈ deliver s wd flags name,
          e.Represented (event config s wd flags cookie name now).pending
            (event config s wd flags cookie name now).scoped_roots
            (s.serial < (event config s wd flags cookie name now).serial) := by
  have hlost : ∀ {s' : State}, s.serial < s'.serial → ∀ e ∈ deliver s wd flags name,
      e.Represented s'.pending s'.scoped_roots (s.serial < s'.serial) := fun h _ _ => .inl h
  unfold event
  split
  · exact ⟨loss_sane hs.descriptors (by decide),
      loss_grows hroom rfl rfl (Finset.Subset.refl _), hlost (loss_lt hroom rfl)⟩
  rename_i hover
  split
  · rename_i hign
    obtain ⟨hsane, hgrows, hserial⟩ := ignored_kept now hs hroom wd
    refine ⟨hsane, hgrows, ?_⟩
    by_cases hmem : wd ∈ s.removed
    · intro e he
      rw [deliver, if_neg hover, if_pos hign, if_pos hmem] at he
      cases he
    · exact hlost (hserial hmem)
  rename_i hign
  -- the roots of the policy inputs come first, in every case
  obtain ⟨hdesc, hpol, hpend, hserial, hroots⟩ :=
    scope_policy_roots_eq (s := s) now wd name
  have hsane := scope_policy_roots_sane now hs wd name
  have hgrows := scope_policy_roots_grows (s := s) now wd name
  generalize scope_policy_roots s wd name now = s₁ at hdesc hpol hpend hserial hroots hsane hgrows
  have hroom₁ : s₁.serial + 1 < 2 ^ 64 := hserial ▸ hroom
  dsimp only
  cases hl : s.descriptors.lookup wd with
  | none =>
    rw [hdesc, hl]
    dsimp only
    split
    · rename_i hmem
      refine ⟨hsane, hgrows, fun e he => .inr ?_⟩
      rw [deliver, if_neg hover, if_neg hign, hl] at he
      dsimp only at he
      rw [if_pos (hpol ▸ hmem)] at he
      cases he
      exact ⟨trivial, hroots⟩
    · exact ⟨loss_sane hsane.descriptors (by decide),
        hgrows.trans (loss_grows hroom₁ rfl rfl (Finset.Subset.refl _)),
        hlost (loss_lt hroom hserial)⟩
  | some directories =>
    rw [hdesc, hl]
    dsimp only
    split
    · exact ⟨loss_sane hs.descriptors (by decide),
        hgrows.trans (loss_grows hroom₁ rfl rfl (Finset.Subset.refl _)),
        hlost (loss_lt hroom hserial)⟩
    · rename_i hmount
      obtain ⟨hsane', hgrows', hcarried⟩ := hint_kept now flags cookie hsane hroom₁ (hs.descriptors wd directories hl)
        fun hint hlookup => hclean hint (hpend ▸ hlookup) directories hl
      refine ⟨hsane', hgrows.trans hgrows', fun e he => ?_⟩
      rw [deliver, if_neg hover, if_neg hign, hl] at he
      dsimp only at he
      rw [if_neg hmount] at he
      cases he
      rcases hcarried with hraised | hhint
      · exact .inl (hserial ▸ hraised)
      · exact .inr ⟨hhint, fun root hr => hgrows'.roots (hroots root hr)⟩

theorem add_directory_kept (hs : Sane config s) (hroom : s.serial + 2 < 2 ^ 64) (wd : ℤ)
    (directory : Directory) :
    Sane config (add_directory s wd directory now) ∧ Grows s (add_directory s wd directory now) := by
  -- a stale removal, then another directory at the same watch
  have hfirst : ∀ s₁ : State,
      s₁ = (if wd ∈ s.removed then loss { s with removed := s.removed.erase wd } .overflow now
        else s) →
      Sane config s₁ ∧ Grows s s₁ ∧ s₁.serial + 1 < 2 ^ 64 := by
    rintro s₁ rfl
    split
    · have hlt : s.serial + 1 < 2 ^ 64 := Nat.lt_of_succ_lt hroom
      refine ⟨loss_sane hs.descriptors (by decide),
        loss_grows hlt rfl rfl (Finset.Subset.refl _), ?_⟩
      rw [loss_serial (by exact hlt)]
      exact hroom
    · exact ⟨hs, .refl s, Nat.lt_of_succ_lt hroom⟩
  unfold add_directory
  dsimp only
  generalize hs₁ : (if wd ∈ s.removed then
    loss { s with removed := s.removed.erase wd } .overflow now else s) = s₁
  obtain ⟨hsane, hgrows, hroom₁⟩ := hfirst s₁ hs₁.symm
  split
  · have hlost : Sane config (loss { s₁ with descriptors := s₁.descriptors.erase wd } .overflow now) :=
      loss_sane (lookup_erase_ne_nil hsane.descriptors) (by decide)
    have hraised : Grows s₁ (loss { s₁ with descriptors := s₁.descriptors.erase wd } .overflow now) :=
      loss_grows hroom₁ rfl rfl (Finset.Subset.refl _)
    exact ⟨⟨hlost.bytes, lookup_insert_ne_nil hlost.descriptors nofun,
      hlost.hints, hlost.marker⟩,
      (hgrows.trans hraised).trans (watches_grow rfl rfl rfl rfl rfl)⟩
  · exact ⟨⟨hsane.bytes, lookup_insert_ne_nil hsane.descriptors (by simp), hsane.hints,
      hsane.marker⟩, hgrows.trans (watches_grow rfl rfl rfl rfl rfl)⟩

theorem add_input_kept (hs : Sane config s) (hroom : s.serial + 2 < 2 ^ 64) (wd : ℤ)
    (input : Input) :
    Sane config (add_input s wd input now) ∧ Grows s (add_input s wd input now) := by
  have hlt : s.serial + 1 < 2 ^ 64 := Nat.lt_of_succ_lt hroom
  unfold add_input
  dsimp only
  split
  · have hlost : Sane config (loss { s with removed := s.removed.erase wd } .overflow now) :=
      loss_sane hs.descriptors (by decide)
    have hraised : Grows s (loss { s with removed := s.removed.erase wd } .overflow now) :=
      loss_grows hlt rfl rfl (Finset.Subset.refl _)
    exact ⟨⟨hlost.bytes, hlost.descriptors, hlost.hints, hlost.marker⟩,
      hraised.trans (watches_grow rfl rfl rfl rfl rfl)⟩
  · exact ⟨⟨hs.bytes, hs.descriptors, hs.hints, hs.marker⟩, watches_grow rfl rfl rfl rfl rfl⟩

omit now in
theorem retire_policy_kept (hs : Sane config s) (keep : Input → Bool) (wd : ℤ) (confirmed : Bool) :
    Sane config (retire_policy s keep wd confirmed)
      ∧ Grows s (retire_policy s keep wd confirmed) := by
  unfold retire_policy
  dsimp only
  split
  · exact ⟨⟨hs.bytes, hs.descriptors, hs.hints, hs.marker⟩, watches_grow rfl rfl rfl rfl rfl⟩
  · exact ⟨⟨hs.bytes, hs.descriptors, hs.hints, hs.marker⟩, watches_grow rfl rfl rfl rfl rfl⟩

omit now in
theorem retire_descriptor_kept (hs : Sane config s) (resolves : Directory → Bool) (wd : ℤ)
    (directories : List Directory) (same confirmed : Bool) :
    Sane config (retire_descriptor s resolves wd directories same confirmed)
      ∧ Grows s (retire_descriptor s resolves wd directories same confirmed) := by
  unfold retire_descriptor
  split
  · exact ⟨hs, .refl s⟩
  · dsimp only
    split
    · rename_i hkept
      exact ⟨⟨hs.bytes, lookup_insert_ne_nil hs.descriptors hkept, hs.hints, hs.marker⟩,
        watches_grow rfl rfl rfl rfl rfl⟩
    · exact ⟨⟨hs.bytes, lookup_erase_ne_nil hs.descriptors, hs.hints, hs.marker⟩,
        watches_grow rfl rfl rfl rfl rfl⟩

end

end Ferret.Watch
