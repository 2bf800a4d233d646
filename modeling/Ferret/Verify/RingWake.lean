import Ferret.Verify.RingTaken

/-!
# Nobody sleeps through what they wait for

A thread that sleeps, or that holds its lock on the way to sleep, has found
that it must wait; if that has changed since, then somebody has yet to signal
it. Who has not taken the sleeper's lock yet will find it asleep: the lock is
held until then.
-/

namespace Ferret.Ring

open Function

open Ferret.Verify (Pool)

/-! ## Who has yet to signal -/

/-- A worker that has released bytes, and not taken the budget's lock. -/
def Pc.frees : Pc → Bool
  | .load_waiting _ | .tell_freed _ => true
  | _ => false

/-- The same, or it has and not signalled. -/
def Pc.freeing : Pc → Bool
  | .notify_freed _ => true
  | pc => pc.frees

/-- A worker that has posted to a batch, and not taken `ready`. -/
def Pc.posts (i : ℕ) : Pc → Bool
  | .bump index _ | .load_awaited index _ | .tell_ready index _ => index = i
  | _ => false

def Pc.posting (i : ℕ) : Pc → Bool
  | .notify_ready index _ => index = i
  | pc => pc.posts i

/-- A worker that is lost, and has not taken `ready`. -/
def Pc.alarms : Pc → Bool
  | .tell_lost _ _ => true
  | _ => false

def Pc.alarming : Pc → Bool
  | .notify_lost _ _ => true
  | pc => pc.alarms

/-- The calling thread has freed a slot, and not taken `room`. -/
def Caller.rooms : Caller → Bool
  | .load_roomless _ | .tell_room _ => true
  | _ => false

def Caller.rooming : Caller → Bool
  | .notify_room _ => true
  | pc => pc.rooms

/-- The calling thread has stopped the pool, and not taken `room`. -/
def Caller.stops_room : Caller → Bool
  | .halt_room => true
  | _ => false

def Caller.stopping_room : Caller → Bool
  | .halt_notify_room => true
  | pc => pc.stops_room

/-- The calling thread has stopped the pool, and not taken the budget's lock. -/
def Caller.stops_freed : Caller → Bool
  | .halt_room | .halt_notify_room | .halt_freed => true
  | _ => false

def Caller.stopping_freed : Caller → Bool
  | .halt_notify_freed => true
  | pc => pc.stops_freed

section

variable {W : Type} (pool : Pool)

/-- **No signal is lost**, when `k` is yet to be signalled. -/
structure Awake (k : Wake) (s : State W) : Prop where
  -- bytes
  check_used : ∀ w t, s.workers w = .check_used t ∨ s.workers w = .sleep_freed t →
    s.shared.stop = false ∨ s.caller.stops_freed = true
  asleep_stop : k ≠ .freed → ∀ w t, s.workers w = .asleep_freed t →
    s.shared.stop = false ∨ s.caller.stopping_freed = true
  sleep_freed : ∀ w t, s.workers w = .sleep_freed t →
    fits s.shared.used t.size = false ∨ ∃ v, (s.workers v).frees = true
  asleep_freed : k ≠ .freed → ∀ w t, s.workers w = .asleep_freed t →
    fits s.shared.used t.size = false ∨ ∃ v, (s.workers v).freeing = true
  -- slots
  check_halt : ∀ w i, s.workers w = .check_halt i ∨ s.workers w = .sleep_room i →
    s.shared.head + pool.slots ≤ i ∨ s.caller.rooms = true
  asleep_room : k ≠ .room → ∀ w i, s.workers w = .asleep_room i →
    s.shared.head + pool.slots ≤ i ∨ s.caller.rooming = true
  sleep_halt : ∀ w i, s.workers w = .sleep_room i →
    s.shared.stop = false ∨ s.caller.stops_room = true
  asleep_halt : k ≠ .room → ∀ w i, s.workers w = .asleep_room i →
    s.shared.stop = false ∨ s.caller.stopping_room = true
  -- posts
  check_lost : ∀ i m, s.caller = .check_lost i m ∨ s.caller = .sleep i m →
    (s.shared.ring (slot pool i)).filled i = false ∨ ∃ v, (s.workers v).posts i = true
  asleep : k ≠ .ready → ∀ i m, s.caller = .asleep i m →
    (s.shared.ring (slot pool i)).filled i = false ∨ ∃ v, (s.workers v).posting i = true
  sleep_lost : ∀ i m, s.caller = .sleep i m →
    s.shared.lost = false ∨ ∃ v, (s.workers v).alarms = true
  asleep_lost : k ≠ .ready → ∀ i m, s.caller = .asleep i m →
    s.shared.lost = false ∨ ∃ v, (s.workers v).alarming = true

/-- What holds of every state. -/
structure State.Sound [Fintype W] (positions : ℕ) (s : State W) : Prop where
  inv : Inv pool positions s.shared (fun w => (s.workers w).view) s.caller.view
  awake : Awake pool .quiet s

end

/-! ## Signals -/

section

variable {W : Type} {pool : Pool}

theorem Pc.roomy_view (pc : Pc) : pc.roomy.view = pc.view := by
  cases pc <;> rfl

theorem Pc.freed_view (pc : Pc) : pc.freed.view = pc.view := by
  cases pc <;> rfl

theorem Caller.signalled_view (c : Caller) : c.signalled.view = c.view := by
  cases c <;> rfl

theorem State.wake_views (k : Wake) (s : State W) :
    (s.wake k).shared = s.shared
      ∧ (fun w => ((s.wake k).workers w).view) = (fun w => (s.workers w).view)
      ∧ (s.wake k).caller.view = s.caller.view := by
  cases k with
  | quiet => exact ⟨rfl, rfl, rfl⟩
  | ready => exact ⟨rfl, rfl, s.caller.signalled_view⟩
  | room => exact ⟨rfl, funext fun w => (s.workers w).roomy_view, rfl⟩
  | freed => exact ⟨rfl, funext fun w => (s.workers w).freed_view, rfl⟩

/-- A worker that may have been signalled. -/
def Pc.Roused (pc pc' : Pc) : Prop := pc' = pc ∨ pc' = pc.roomy ∨ pc' = pc.freed

/-- What does not tell a sleeper from one that has been signalled. -/
theorem Pc.Roused.class_eq {pc pc' : Pc} (h : pc.Roused pc') {α : Type} {f : Pc → α}
    (hroom : ∀ i, f (.notified_room i) = f (.asleep_room i))
    (hfreed : ∀ t, f (.notified_freed t) = f (.asleep_freed t)) : f pc' = f pc := by
  rcases h with rfl | rfl | rfl
  · rfl
  · cases pc <;> first | rfl | exact hroom _
  · cases pc <;> first | rfl | exact hfreed _

/-- A worker that is not where a signal leads has not been signalled. -/
theorem Pc.Roused.stays {pc pc' : Pc} (h : pc.Roused pc') (hroom : ∀ i, pc' ≠ .notified_room i)
    (hfreed : ∀ t, pc' ≠ .notified_freed t) : pc = pc' := by
  rcases h with rfl | rfl | rfl
  · rfl
  · cases pc <;> first | rfl | exact absurd rfl (hroom _)
  · cases pc <;> first | rfl | exact absurd rfl (hfreed _)

/-- The calling thread, when it may have been signalled. -/
def Caller.Roused (c c' : Caller) : Prop := c' = c ∨ c' = c.signalled

theorem Caller.Roused.class_eq {c c' : Caller} (h : c.Roused c') {f : Caller → Bool}
    (hf : ∀ i m, f (.notified i m) = f (.asleep i m)) : f c' = f c := by
  rcases h with rfl | rfl
  · rfl
  · cases c <;> first | rfl | exact hf _ _

theorem Caller.Roused.stays {c c' : Caller} (h : c.Roused c') (hn : ∀ i m, c' ≠ .notified i m) :
    c = c' := by
  rcases h with rfl | rfl
  · rfl
  · cases c <;> first | rfl | exact absurd rfl (hn _ _)

/-- After the signal, or one that nobody gave. -/
theorem Awake.rouse {k : Wake} {s t : State W} (h : Awake pool k s) (hshared : t.shared = s.shared)
    (hws : ∀ v, (s.workers v).Roused (t.workers v)) (hc : s.caller.Roused t.caller)
    (hroom : ∀ v i, t.workers v = .asleep_room i → k ≠ .room)
    (hfreed : ∀ v u, t.workers v = .asleep_freed u → k ≠ .freed)
    (hready : ∀ i m, t.caller = .asleep i m → k ≠ .ready) : Awake pool .quiet t := by
  have hworker : ∀ {f : Pc → Bool}, (∀ i, f (.notified_room i) = f (.asleep_room i)) →
      (∀ t, f (.notified_freed t) = f (.asleep_freed t)) → (∃ v, f (s.workers v) = true) →
      ∃ v, f (t.workers v) = true := by
    rintro f hr hf ⟨v, hv⟩
    exact ⟨v, ((hws v).class_eq hr hf).trans hv⟩
  have hcaller : ∀ {f : Caller → Bool}, (∀ i m, f (.notified i m) = f (.asleep i m)) →
      f s.caller = true → f t.caller = true := fun hf hs => (hc.class_eq hf).trans hs
  have hstays : ∀ {v pc}, t.workers v = pc → (∀ i, pc ≠ .notified_room i) →
      (∀ u, pc ≠ .notified_freed u) → s.workers v = pc := by
    rintro v pc rfl hr hf
    exact (hws v).stays hr hf
  have hcstays : ∀ {c}, t.caller = c → (∀ i m, c ≠ .notified i m) → s.caller = c := by
    rintro c rfl hn
    exact hc.stays hn
  rcases h with ⟨h₁, h₂, h₃, h₄, h₅, h₆, h₇, h₈, h₉, h₁₀, h₁₁, h₁₂⟩
  rw [← hshared] at h₁ h₂ h₃ h₄ h₅ h₆ h₇ h₈ h₉ h₁₀ h₁₁ h₁₂
  constructor
  · intro w u hw
    exact (h₁ w u (hw.imp (hstays · nofun nofun) (hstays · nofun nofun))).imp_right
      (hcaller fun _ _ => rfl)
  · exact fun _ w u hw => (h₂ (hfreed w u hw) w u (hstays hw nofun nofun)).imp_right
      (hcaller fun _ _ => rfl)
  · exact fun w u hw => (h₃ w u (hstays hw nofun nofun)).imp_right
      (hworker (fun _ => rfl) fun _ => rfl)
  · exact fun _ w u hw => (h₄ (hfreed w u hw) w u (hstays hw nofun nofun)).imp_right
      (hworker (fun _ => rfl) fun _ => rfl)
  · intro w i hw
    exact (h₅ w i (hw.imp (hstays · nofun nofun) (hstays · nofun nofun))).imp_right
      (hcaller fun _ _ => rfl)
  · exact fun _ w i hw => (h₆ (hroom w i hw) w i (hstays hw nofun nofun)).imp_right
      (hcaller fun _ _ => rfl)
  · exact fun w i hw => (h₇ w i (hstays hw nofun nofun)).imp_right (hcaller fun _ _ => rfl)
  · exact fun _ w i hw => (h₈ (hroom w i hw) w i (hstays hw nofun nofun)).imp_right
      (hcaller fun _ _ => rfl)
  · intro i m hc
    exact (h₉ i m (hc.imp (hcstays · nofun) (hcstays · nofun))).imp_right
      (hworker (fun _ => rfl) fun _ => rfl)
  · exact fun _ i m hc => (h₁₀ (hready i m hc) i m (hcstays hc nofun)).imp_right
      (hworker (fun _ => rfl) fun _ => rfl)
  · exact fun i m hc => (h₁₁ i m (hcstays hc nofun)).imp_right
      (hworker (fun _ => rfl) fun _ => rfl)
  · exact fun _ i m hc => (h₁₂ (hready i m hc) i m (hcstays hc nofun)).imp_right
      (hworker (fun _ => rfl) fun _ => rfl)

/-- After the signal. -/
theorem Awake.wake {k : Wake} {s : State W} (h : Awake pool k s) :
    Awake pool .quiet (s.wake k) := by
  refine h.rouse (s.wake_views k).1 ?_ ?_ ?_ ?_ ?_
  · intro v
    cases k with
    | quiet | ready => exact .inl rfl
    | room => exact .inr (.inl rfl)
    | freed => exact .inr (.inr rfl)
  · cases k with
    | quiet | room | freed => exact .inl rfl
    | ready => exact .inr rfl
  · rintro v i hv rfl
    have hv : (s.workers v).roomy = .asleep_room i := hv
    cases hs : s.workers v <;> rw [hs] at hv <;> cases hv
  · rintro v u hv rfl
    have hv : (s.workers v).freed = .asleep_freed u := hv
    cases hs : s.workers v <;> rw [hs] at hv <;> cases hv
  · rintro i m hc rfl
    have hc : s.caller.signalled = .asleep i m := hc
    cases hs : s.caller <;> rw [hs] at hc <;> cases hc

end

/-! ## A worker's act -/

variable {i : ℕ}

section

variable {W : Type} {pool : Pool} {positions : ℕ} {sizes : ℕ → List ℕ} {w : W} {s s' : Shared W}
  {o n : Pc} {k : Wake}

attribute [local grind] after

section

variable (h : Act pool positions sizes w s o s' n k)

include h

theorem Act.checks_used (t : Task)
    (hn : n = .check_used t ∨ n = .sleep_freed t) : s'.stop = false ∨ o = .check_used t := by
  induction h
  all_goals grind [Shared.halt]

theorem Act.falls_asleep (t : Task)
    (hn : n = .asleep_freed t) : o = .sleep_freed t ∧ s'.used = s.used := by
  induction h
  all_goals grind

theorem Act.finds_full (t : Task) (hn : n = .sleep_freed t) : fits s'.used t.size = false := by
  induction h
  all_goals grind

theorem Act.used_frees : s.used ≤ s'.used ∨ n.frees = true := by
  induction h
  all_goals grind [Pc.frees, Shared.post, Shared.bump]

theorem Act.frees (ho : o.frees = true) :
    n.frees = true ∨ s.waiting = 0 ∨ s.lock = none ∧ n.freeing = true := by
  induction h
  all_goals grind [Pc.frees, Pc.freeing]

theorem Act.freeing (ho : o.freeing = true) : n.freeing = true ∨ s.waiting = 0 ∨ k = .freed := by
  induction h
  all_goals grind [Pc.frees, Pc.freeing]

theorem Act.checks_halt (i : ℕ) (hn : n = .check_halt i ∨ n = .sleep_room i) :
    s'.head + pool.slots ≤ i ∨ o = .check_halt i := by
  induction h
  all_goals grind

theorem Act.sleeps_room (i : ℕ) (hn : n = .sleep_room i) : s'.stop = false := by
  induction h
  all_goals grind

theorem Act.falls_asleep_room (i : ℕ) (hn : n = .asleep_room i) : o = .sleep_room i := by
  induction h
  all_goals grind

theorem Act.posts (ho : o.posts i = true) :
    n.posts i = true ∨ s.awaited ≠ i + 1 ∨ s.ready = false ∧ n.posting i = true := by
  induction h
  all_goals grind [Pc.posts, Pc.posting]

theorem Act.posting (ho : o.posting i = true) :
    n.posting i = true ∨ s.awaited ≠ i + 1 ∨ k = .ready := by
  induction h
  all_goals grind [Pc.posts, Pc.posting]

theorem Act.alarms (ho : o.alarms = true) :
    n.alarms = true ∨ s.ready = false ∧ n.alarming = true := by
  induction h
  all_goals grind [Pc.alarms, Pc.alarming]

theorem Act.alarming (ho : o.alarming = true) : n.alarming = true ∨ k = .ready := by
  induction h
  all_goals grind [Pc.alarms, Pc.alarming]

theorem Act.lost_alarms : s'.lost = s.lost ∨ n.alarms = true := by
  induction h
  all_goals grind [Pc.alarms, Shared.post, Shared.bump]

end

/-- A full budget stays full when more is used. -/
theorem fits_mono {used used' size : ℕ} (h : fits used size = false) (hle : used ≤ used') :
    fits used' size = false := by
  simp only [fits, Bool.or_eq_false_iff, decide_eq_false_iff_not] at h ⊢
  omega

variable [DecidableEq W]

theorem exists_update {ws : W → Pc} {f g : Pc → Bool} (hfg : ∀ pc, f pc = true → g pc = true)
    (hself : f (ws w) = true → ∃ v, g (Function.update ws w n v) = true)
    (h : ∃ v, f (ws v) = true) : ∃ v, g (Function.update ws w n v) = true := by
  obtain ⟨v, hv⟩ := h
  by_cases hvw : v = w
  · subst hvw
    exact hself hv
  · exact ⟨v, by rw [update_of_ne hvw]; exact hfg _ hv⟩

theorem exists_self {ws : W → Pc} {g : Pc → Bool} (h : g n = true) :
    ∃ v, g (Function.update ws w n v) = true :=
  ⟨w, by rw [update_self]; exact h⟩

variable [Fintype W] {c : Caller} {ws : W → Pc}

omit [DecidableEq W] in
/-- A worker that has yet to sleep or sleeps for bytes is counted. -/
theorem Counted.waiting_pos {vs : W → View} (h : Counted s vs) {v : W} (hv : (vs v).waits = 1) :
    s.waiting ≠ 0 := by
  have := Tally.le_sum View.waits vs (Finset.mem_univ v)
  have := h.waiting
  omega

omit [DecidableEq W] in
theorem Counted.roomless_pos {vs : W → View} (h : Counted s vs) {v : W}
    (hv : (vs v).roomless = 1) : s.roomless ≠ 0 := by
  have := Tally.le_sum View.roomless vs (Finset.mem_univ v)
  have := h.roomless
  omega

section

variable (hi : Inv pool positions s (fun v => (ws v).view) c.view)
  (h : Awake pool .quiet ⟨s, ws, c⟩) (ha : Act pool positions sizes w s (ws w) s' n k)

include hi h ha

/-- Bytes: a sleeper is full, or is about to be told. -/
theorem Awake.act_freed :
    (∀ v t, Function.update ws w n v = .sleep_freed t →
      fits s'.used t.size = false ∨ ∃ v, (Function.update ws w n v).frees = true)
    ∧ (k ≠ .freed → ∀ v t, Function.update ws w n v = .asleep_freed t →
      fits s'.used t.size = false ∨ ∃ v, (Function.update ws w n v).freeing = true) := by
  have hfreeing : ∀ pc : Pc, pc.frees = true → pc.freeing = true := by
    intro pc hpc
    cases pc <;> first | exact hpc | cases hpc
  refine ⟨fun v t hv => ?_, fun hk v t hv => ?_⟩
  · rcases Tally.update_eq hv with ⟨rfl, hn⟩ | hv
    · exact .inl (ha.finds_full t hn)
    · have hwaits := hi.toCounted.waiting_pos (v := v) (by simp only [hv]; rfl)
      have hlock : s.lock = some v := (hi.lock v).mp (by simp only [hv]; rfl)
      rcases h.sleep_freed v t hv with hfull | hpending
      · rcases ha.used_frees with hle | hn
        · exact .inl (fits_mono hfull hle)
        · exact .inr (exists_self hn)
      · refine .inr (exists_update (fun _ hpc => hpc) (fun hw => ?_) hpending)
        rcases ha.frees hw with hn | hz | ⟨hfree, -⟩
        · exact exists_self hn
        · exact absurd hz hwaits
        · rw [hlock] at hfree
          cases hfree
  · rcases Tally.update_eq hv with ⟨rfl, hn⟩ | hv
    · obtain ⟨ho, hused⟩ := ha.falls_asleep t hn
      rw [hused]
      refine (h.sleep_freed v t ho).imp_right (exists_update hfreeing fun hw => ?_)
      simp only [ho] at hw
      cases hw
    · have hwaits := hi.toCounted.waiting_pos (v := v) (by simp only [hv]; rfl)
      rcases h.asleep_freed nofun v t hv with hfull | hpending
      · rcases ha.used_frees with hle | hn
        · exact .inl (fits_mono hfull hle)
        · exact .inr (exists_self (hfreeing n hn))
      · refine .inr (exists_update (fun _ hpc => hpc) (fun hw => ?_) hpending)
        rcases ha.freeing hw with hn | hz | hk'
        · exact exists_self hn
        · exact absurd hz hwaits
        · exact absurd hk' hk

omit h in
/-- Posts: what the calling thread sleeps for is not there, or it is about to
be told. -/
theorem Inv.act_posts (htaking : c.view.taking = some i) (hawaits : c.view.awaits = true) :
    (c.view.holds_ready = true →
      (s.ring (slot pool i)).filled i = false ∨ (∃ v, (ws v).posts i = true) →
      (s'.ring (slot pool i)).filled i = false
        ∨ ∃ v, (Function.update ws w n v).posts i = true)
    ∧ (k ≠ .ready →
      (s.ring (slot pool i)).filled i = false ∨ (∃ v, (ws v).posting i = true) →
      (s'.ring (slot pool i)).filled i = false
        ∨ ∃ v, (Function.update ws w n v).posting i = true) := by
  have hposting : ∀ pc : Pc, pc.posts i = true → pc.posting i = true := by
    intro pc hpc
    cases pc <;> first | exact hpc | cases hpc
  have hawaited := hi.awaited i hawaits htaking
  -- only a post to this batch fills its slot
  have hfills : (s.ring (slot pool i)).filled i = false →
      (s'.ring (slot pool i)).filled i = false ∨ n.posts i = true := by
    intro hf
    rcases ha.writes with ⟨hring, -⟩ | ⟨index, pos, ho, rfl, -, rfl⟩ | ⟨index, pos, -, -, -, rfl⟩
    · exact .inl (by rw [hring]; exact hf)
    · by_cases hii : index = i
      · exact .inr (by simp [Pc.posts, hii])
      · refine .inl ?_
        have hindex : ((ws w).view).index = some index := by rw [ho]; rfl
        have hworks : s.Works pool positions index (.task pos false) := by
          have := hi.works w index hindex
          simp only [ho] at this
          exact this
        have hcur := hi.taking i htaking
        have hle := hi.toTaking.current_le hworks
        have hhead := hi.toTaking.head_le
        have hslot : slot pool i ≠ slot pool index := fun hslot =>
          hii (slot_inj pool s.head (by omega) (by have := hworks.2.2; omega) (by omega) hworks.2.2
            hslot).symm
        show (Function.update s.ring (slot pool index) _ (slot pool i)).filled i = false
        rw [update_of_ne hslot]
        exact hf
    · exact .inl hf
  refine ⟨fun hready hold => ?_, fun hk hold => ?_⟩
  · rcases hold with hf | hpending
    · exact (hfills hf).imp_right exists_self
    · refine .inr (exists_update (fun _ hpc => hpc) (fun hw => ?_) hpending)
      rcases ha.posts hw with hn | hne | ⟨hfree, -⟩
      · exact exists_self hn
      · exact absurd hawaited hne
      · rw [hi.ready, hready] at hfree
        cases hfree
  · rcases hold with hf | hpending
    · exact (hfills hf).imp_right fun hn => exists_self (hposting n hn)
    · refine .inr (exists_update (fun _ hpc => hpc) (fun hw => ?_) hpending)
      rcases ha.posting hw with hn | hne | hk'
      · exact exists_self hn
      · exact absurd hawaited hne
      · exact absurd hk' hk

omit h in
/-- A lost worker: the calling thread has not slept through it, or is about to
be told. -/
theorem Inv.act_lost :
    (c.view.holds_ready = true → s.lost = false ∨ (∃ v, (ws v).alarms = true) →
      s'.lost = false ∨ ∃ v, (Function.update ws w n v).alarms = true)
    ∧ (k ≠ .ready → s.lost = false ∨ (∃ v, (ws v).alarming = true) →
      s'.lost = false ∨ ∃ v, (Function.update ws w n v).alarming = true) := by
  have halarming : ∀ pc : Pc, pc.alarms = true → pc.alarming = true := by
    intro pc hpc
    cases pc <;> first | exact hpc | cases hpc
  refine ⟨fun hready hold => ?_, fun hk hold => ?_⟩
  · rcases hold with hl | hpending
    · rcases ha.lost_alarms with hsame | hn
      · exact .inl (hsame.trans hl)
      · exact .inr (exists_self hn)
    · refine .inr (exists_update (fun _ hpc => hpc) (fun hw => ?_) hpending)
      rcases ha.alarms hw with hn | ⟨hfree, -⟩
      · exact exists_self hn
      · rw [hi.ready, hready] at hfree
        cases hfree
  · rcases hold with hl | hpending
    · rcases ha.lost_alarms with hsame | hn
      · exact .inl (hsame.trans hl)
      · exact .inr (exists_self (halarming n hn))
    · refine .inr (exists_update (fun _ hpc => hpc) (fun hw => ?_) hpending)
      rcases ha.alarming hw with hn | hk'
      · exact exists_self hn
      · exact absurd hk' hk

theorem Awake.act : Awake pool k ⟨s', Function.update ws w n, c⟩ := by
  obtain ⟨hhead, -, -, -, hstop, -⟩ := ha.frame
  obtain ⟨hsleep, hasleep⟩ := h.act_freed hi ha
  obtain ⟨hlost, hlost'⟩ := hi.act_lost ha
  constructor
  · intro v t hv
    dsimp only at hv ⊢
    rw [hstop]
    by_cases hvw : v = w
    · subst hvw
      rw [update_self] at hv
      rcases ha.checks_used t hv with hs | ho
      · exact .inl (hstop ▸ hs)
      · exact h.check_used v t (.inl ho)
    · rw [update_of_ne hvw] at hv
      exact h.check_used v t hv
  · intro hk v t hv
    rw [hstop]
    rcases Tally.update_eq hv with ⟨rfl, hn⟩ | hv
    · refine (h.check_used v t (.inr (ha.falls_asleep t hn).1)).imp_right fun hc => ?_
      revert hc
      cases c <;> first | exact id | nofun
    · exact h.asleep_stop nofun v t hv
  · exact hsleep
  · exact hasleep
  · intro v i hv
    dsimp only at hv ⊢
    rw [hhead]
    by_cases hvw : v = w
    · subst hvw
      rw [update_self] at hv
      rcases ha.checks_halt i hv with hs | ho
      · exact .inl (hhead ▸ hs)
      · exact h.check_halt v i (.inl ho)
    · rw [update_of_ne hvw] at hv
      exact h.check_halt v i hv
  · intro hk v i hv
    rw [hhead]
    rcases Tally.update_eq hv with ⟨rfl, hn⟩ | hv
    · refine (h.check_halt v i (.inr (ha.falls_asleep_room i hn))).imp_right fun hc => ?_
      revert hc
      cases c <;> first | exact id | nofun
    · exact h.asleep_room nofun v i hv
  · intro v i hv
    dsimp only at hv ⊢
    rcases Tally.update_eq hv with ⟨rfl, hn⟩ | hv
    · exact .inl (ha.sleeps_room i hn)
    · rw [hstop]
      exact h.sleep_halt v i hv
  · intro hk v i hv
    dsimp only at hv ⊢
    rw [hstop]
    rcases Tally.update_eq hv with ⟨rfl, hn⟩ | hv
    · refine (h.sleep_halt v i (ha.falls_asleep_room i hn)).imp_right fun hc => ?_
      revert hc
      cases c <;> first | exact id | nofun
    · exact h.asleep_halt nofun v i hv
  · intro i m hc
    have hold := h.check_lost i m hc
    dsimp only at hc
    rcases hc with rfl | rfl <;> exact (hi.act_posts ha rfl rfl).1 rfl hold
  · intro hk i m hc
    have hold := h.asleep nofun i m hc
    dsimp only at hc
    subst hc
    exact (hi.act_posts ha rfl rfl).2 hk hold
  · intro i m hc
    have hold := h.sleep_lost i m hc
    dsimp only at hc
    subst hc
    exact hlost rfl hold
  · intro hk i m hc
    exact hlost' hk (h.asleep_lost nofun i m hc)

end

end

/-! ## The calling thread's act -/

section

variable {W : Type} [Fintype W] {pool : Pool} {positions : ℕ} {s s' : Shared W} {o n : Caller}
  {k : Wake} {ws : W → Pc}

theorem Pc.posts_of_bumps {pc : Pc} (hb : pc.view.bumps = true) (hi : pc.view.index = some i) :
    pc.posts i = true := by
  cases pc
  case bump index pos =>
    obtain rfl : index = i := Option.some.inj hi
    simp [Pc.posts]
  all_goals cases hb

attribute [local grind] Shared.take Caller.next

omit [Fintype W] in
/-- Where the calling thread comes from on its way to sleep. -/
theorem CallerAct.sleeps (h : CallerAct pool positions s o s' n k) {i m : ℕ} :
    (n = .check_lost i m →
      o = .check_moved i m ∧ s.posted (slot pool i) = m ∧ s'.ring = s.ring)
    ∧ (n = .sleep i m → o = .check_lost i m ∧ s'.lost = false ∧ s'.ring = s.ring)
    ∧ (n = .asleep i m → o = .sleep i m ∧ s'.lost = s.lost ∧ s'.ring = s.ring) := by
  induction h
  all_goals grind

theorem Awake.caller (hi : Inv pool positions s (fun v => (ws v).view) o.view)
    (h : Awake pool .quiet ⟨s, ws, o⟩) (ha : CallerAct pool positions s o s' n k) :
    Awake pool k ⟨s', ws, n⟩ := by
  obtain ⟨-, -, -, -, -, -, -, -, hused, -⟩ := ha.frame
  have hlock : ∀ v t, ws v = .check_used t ∨ ws v = .sleep_freed t → s.lock ≠ none := by
    intro v t hv
    have : s.lock = some v := (hi.lock v).mp (by rcases hv with hv | hv <;> simp only [hv] <;> rfl)
    rw [this]
    nofun
  have hroom : ∀ v i, ws v = .check_halt i ∨ ws v = .sleep_room i → s.room ≠ none := by
    intro v i hv
    have : s.room = some v := (hi.room v).mp (by rcases hv with hv | hv <;> simp only [hv] <;> rfl)
    rw [this]
    nofun
  have hroomless : ∀ v i, ws v = .check_halt i ∨ ws v = .sleep_room i ∨ ws v = .asleep_room i →
      s.roomless ≠ 0 := fun v i hv => hi.toCounted.roomless_pos (v := v) (by
    rcases hv with hv | hv | hv <;> simp only [hv] <;> rfl)
  constructor
  · intro v t hv
    have hold := h.check_used v t hv
    have := hlock v t hv
    induction ha
    all_goals grind [Caller.stops_freed]
  · intro hk v t hv
    have hold := h.asleep_stop nofun v t hv
    induction ha
    all_goals grind [Caller.stops_freed, Caller.stopping_freed]
  · dsimp only
    rw [hused]
    exact h.sleep_freed
  · dsimp only
    rw [hused]
    exact fun _ => h.asleep_freed nofun
  · intro v i hv
    have hold := h.check_halt v i hv
    have := hroom v i hv
    have := hroomless v i (by tauto)
    induction ha
    all_goals grind [Caller.rooms]
  · intro hk v i hv
    have hold := h.asleep_room nofun v i hv
    have := hroomless v i (.inr (.inr hv))
    induction ha
    all_goals grind [Caller.rooms, Caller.rooming]
  · intro v i hv
    have hold := h.sleep_halt v i hv
    have := hroom v i (.inr hv)
    induction ha
    all_goals grind [Caller.stops_room]
  · intro hk v i hv
    have hold := h.asleep_halt nofun v i hv
    induction ha
    all_goals grind [Caller.stops_room, Caller.stopping_room]
  · intro i m hc
    rcases hc with hc | hc
    · obtain ⟨rfl, _, hring⟩ := ha.sleeps.1 hc
      dsimp only
      rw [hring]
      by_cases hf : (s.ring (slot pool i)).filled i = true
      · rcases (hi.seen i m true rfl rfl).2 rfl hf with _ | ⟨v, hb, hv⟩
        · omega
        · exact .inr ⟨v, Pc.posts_of_bumps hb hv⟩
      · exact .inl (Bool.not_eq_true _ ▸ hf)
    · obtain ⟨rfl, -, hring⟩ := ha.sleeps.2.1 hc
      dsimp only
      rw [hring]
      exact h.check_lost i m (.inl rfl)
  · intro _ i m hc
    obtain ⟨rfl, -, hring⟩ := ha.sleeps.2.2 hc
    dsimp only
    rw [hring]
    refine (h.check_lost i m (.inr rfl)).imp_right fun ⟨v, hv⟩ => ⟨v, ?_⟩
    revert hv
    show (ws v).posts i = true → (ws v).posting i = true
    cases ws v <;> first | exact id | nofun
  · intro i m hc
    exact .inl (ha.sleeps.2.1 hc).2.1
  · intro _ i m hc
    obtain ⟨rfl, hlost, -⟩ := ha.sleeps.2.2 hc
    dsimp only
    rw [hlost]
    refine (h.sleep_lost i m rfl).imp_right fun ⟨v, hv⟩ => ⟨v, ?_⟩
    revert hv
    show (ws v).alarms = true → (ws v).alarming = true
    cases ws v <;> first | exact id | nofun

/-! ## Runs -/

theorem Counted.caller {vs : W → View} (h : Counted s vs)
    (ha : CallerAct pool positions s o s' n k) : Counted s' vs := by
  obtain ⟨-, -, -, -, hroom, hlock, hroomless, hwaiting, hused, -⟩ := ha.frame
  exact ⟨by rw [hroom]; exact h.room, by rw [hlock]; exact h.lock,
    by rw [hroomless]; exact h.roomless, by rw [hwaiting]; exact h.waiting,
    by rw [hused]; exact h.used, by rw [hused]; exact h.used_le, h.size, h.found⟩

theorem State.Sound.wake {k : Wake} {t : State W}
    (hi : Inv pool positions t.shared (fun w => (t.workers w).view) t.caller.view)
    (ha : Awake pool k t) : (t.wake k).Sound pool positions := by
  obtain ⟨hshared, hviews, hcaller⟩ := t.wake_views k
  exact ⟨by rw [hshared, hviews, hcaller]; exact hi, ha.wake⟩

variable [DecidableEq W] {sizes : ℕ → List ℕ} {t t' : State W}

theorem Step.sound (h : Step pool positions sizes t t') (ht : t.Sound pool positions) :
    t'.Sound pool positions := by
  obtain ⟨hi, hawake⟩ := ht
  induction h with
  | worker w ha =>
    rename_i shared pc k
    refine State.Sound.wake ?_ (hawake.act hi ha)
    have hviews : (fun v => (Function.update t.workers w pc v).view)
        = Function.update (fun v => (t.workers v).view) w pc.view := by
      funext v
      exact (apply_update (fun _ => Pc.view) t.workers w pc v)
    dsimp only
    rw [hviews]
    exact ⟨hi.toCounted.act rfl ha, hi.toClaims.act rfl ha, hi.toTaking.act hi.toClaims rfl ha⟩
  | caller ha =>
    refine State.Sound.wake ?_ (hawake.caller hi ha)
    exact ⟨hi.toCounted.caller ha, hi.toClaims.caller hi.toTaking ha,
      hi.toTaking.caller hi.toClaims ha⟩

/-- One worker signalled by nobody. -/
theorem State.Sound.rouse (h : t.Sound pool positions) (w : W) {pc : Pc}
    (hpc : (t.workers w).Roused pc) :
    State.Sound pool positions { t with workers := Function.update t.workers w pc } := by
  have hroused : ∀ v, (t.workers v).Roused (Function.update t.workers w pc v) := by
    intro v
    by_cases hv : v = w
    · subst hv
      rw [update_self]
      exact hpc
    · rw [update_of_ne hv]
      exact .inl rfl
  refine ⟨?_, h.awake.rouse rfl hroused (.inl rfl) (fun _ _ _ => nofun) (fun _ _ _ => nofun)
    fun _ _ _ => nofun⟩
  have hviews : (fun v => (Function.update t.workers w pc v).view) = fun v => (t.workers v).view :=
    funext fun v => (hroused v).class_eq (fun _ => rfl) fun _ => rfl
  dsimp only
  rw [hviews]
  exact h.inv

theorem Outside.sound (h : Outside t t') (ht : t.Sound pool positions) :
    t'.Sound pool positions := by
  induction h with
  | cancel =>
    obtain ⟨⟨hcounted, hclaims, htaking⟩, hawake⟩ := ht
    exact ⟨⟨{ hcounted with }, { hclaims with }, { htaking with }⟩, { hawake with }⟩
  | caller =>
    refine ⟨?_, ht.awake.rouse rfl (fun _ => .inl rfl) (.inr rfl) (fun _ _ _ => nofun)
      (fun _ _ _ => nofun) fun _ _ _ => nofun⟩
    dsimp only
    rw [Caller.signalled_view]
    exact ht.inv
  | room w => exact ht.rouse w (.inr (.inl rfl))
  | freed w => exact ht.rouse w (.inr (.inr rfl))

theorem current_zero : current pool positions 0 = 0 := by
  unfold current
  split
  · exact Nat.zero_div _
  · have hb : ¬ 0 < pool.batches positions := fun hb => by
      have := (pool.lt_batches _ _).mp hb
      omega
    omega

omit [Fintype W] [DecidableEq W] in
/-- Where the calling thread begins. -/
theorem Taking.schedule :
    Taking pool positions (State.schedule pool positions : State W).shared (fun _ => {})
      (State.schedule pool positions : State W).caller.view := by
  have hcaller : (State.schedule pool positions : State W).caller = Caller.next pool positions 0 :=
    rfl
  have hzero : (State.schedule pool positions : State W).shared.taken.length = 0 := rfl
  rw [hcaller]
  unfold Caller.next
  split
  · rename_i hlt
    exact {
      ready := rfl
      awaited := nofun
      taking := by
        rintro i ⟨⟩
        exact current_zero.symm
      looks := by
        rintro i x ⟨⟩ -
        exact hlt
      head := current_zero.symm
      seen := by
        rintro i m _ ⟨⟩ ⟨⟩
        exact ⟨le_rfl, nofun⟩
      woke := nofun
      halting := nofun
      halted := rfl
      taken := rfl
      taken_le := Nat.zero_le _
      reached := fun _ _ _ => Nat.zero_le _
      past := by
        rw [hzero, current_zero]
        exact fun i hi => absurd hi (not_lt_zero)
      holds := fun _ _ hpos => absurd hpos (lt_irrefl 0)
      owner := nofun }
  · rename_i hge
    exact {
      ready := rfl
      awaited := nofun
      taking := nofun
      looks := nofun
      head := current_zero.symm
      seen := nofun
      woke := nofun
      halting := by
        refine fun _ => ⟨rfl, .inr (.inr ?_)⟩
        have : ¬ 0 * pool.batch < positions := fun hlt => hge ((pool.lt_batches _ _).mpr hlt)
        show 0 = positions
        omega
      halted := rfl
      taken := rfl
      taken_le := Nat.zero_le _
      reached := fun _ _ _ => Nat.zero_le _
      past := by
        rw [hzero, current_zero]
        exact fun i hi => absurd hi (not_lt_zero)
      holds := fun _ _ hpos => absurd hpos (lt_irrefl 0)
      owner := nofun }

omit [DecidableEq W] in
theorem State.schedule_sound : (State.schedule pool positions : State W).Sound pool positions where
  inv := {
    room := fun _ => ⟨nofun, nofun⟩
    lock := fun _ => ⟨nofun, nofun⟩
    roomless := Finset.sum_const_zero.symm
    waiting := Finset.sum_const_zero.symm
    used := Finset.sum_const_zero.symm
    used_le := Nat.zero_le _
    size := fun _ => Nat.zero_le _
    found := nofun
    claimed := nofun
    distinct := nofun
    works := nofun
    kept := fun i hi => absurd hi (not_lt_zero)
    unclaimed := fun _ _ => rfl
    done_le := fun i hi => le_of_lt (Verify.Pool.lt_stop ((pool.lt_batches _ _).mp hi))
    returned := nofun
    lost := nofun
    window := fun _ hpos => absurd hpos (lt_irrefl 0)
    toTaking := Taking.schedule }
  awake := by
    have hcaller : ∀ c, (State.schedule pool positions : State W).caller = c →
        (∃ i, c = .load_posted i) ∨ c = .store_stop := by
      rintro c rfl
      show (∃ i, Caller.next pool positions 0 = _) ∨ Caller.next pool positions 0 = _
      unfold Caller.next
      split
      · exact .inl ⟨0, rfl⟩
      · exact .inr rfl
    constructor
    case check_lost =>
      rintro i m (hc | hc) <;> rcases hcaller _ hc with ⟨_, h⟩ | h <;> cases h
    case asleep =>
      intro _ i m hc
      rcases hcaller _ hc with ⟨_, h⟩ | h <;> cases h
    case sleep_lost =>
      intro i m hc
      rcases hcaller _ hc with ⟨_, h⟩ | h <;> cases h
    case asleep_lost =>
      intro _ i m hc
      rcases hcaller _ hc with ⟨_, h⟩ | h <;> cases h
    all_goals nofun

theorem Reached.sound (h : Reached pool positions sizes t) : t.Sound pool positions := by
  induction h with
  | schedule => exact State.schedule_sound
  | step _ hstep ih => exact hstep.sound ih
  | outside _ hout ih => exact hout.sound ih

end

end Ferret.Ring
