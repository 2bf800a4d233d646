import Ferret.Verify.RingWake

/-!
# Runs of the ring

A thread that holds a lock can step, so a state where none can has no lock
held, and everybody ended or asleep; and then nobody is left to have a
sleeper's reason to sleep.
-/

namespace Ferret.Ring

open Ferret.Verify (Pool)

/-- A worker that takes no step of its own. -/
def Pc.resting : Pc → Bool
  | .returned | .dead _ _ | .asleep_room _ | .asleep_freed _ => true
  | _ => false

def Pc.finished : Pc → Bool
  | .returned | .dead _ _ => true
  | _ => false

def Pc.panics : Pc → Bool
  | .panicked _ _ => true
  | _ => false

def Caller.resting : Caller → Bool
  | .asleep _ _ | .ended => true
  | _ => false

section

variable {W : Type} {pool : Pool} {positions : ℕ} {sizes : ℕ → List ℕ} {w : W} {s : Shared W}

/-- A worker that holds a lock can act, and any other while no lock is held. -/
theorem Act.exists (pc : Pc) (hrest : pc.resting = false)
    (hfree : (pc.view.holds_room || pc.view.holds_lock) = false →
      s.room = none ∧ s.lock = none ∧ s.ready = false) :
    ∃ s' n k, Act pool positions sizes w s pc s' n k ∧ (n.panics = true → pc.panics = true) := by
  cases pc with
  | top =>
    cases hs : s.stop with
    | true => exact ⟨_, _, _, .halted hs, nofun⟩
    | false => exact ⟨_, _, _, .go_on hs, nofun⟩
  | claim =>
    rcases lt_or_ge s.next (pool.batches positions) with hlt | hge
    · exact ⟨_, _, _, .claim hlt, nofun⟩
    · exact ⟨_, _, _, .none_left hge, nofun⟩
  | room index =>
    rcases lt_or_ge index (s.head + pool.slots) with hlt | hge
    · exact ⟨_, _, _, .room hlt, nofun⟩
    · exact ⟨_, _, _, .no_room hge, nofun⟩
  | count_room index => exact ⟨_, _, _, .count_room, nofun⟩
  | lock_room index => exact ⟨_, _, _, .lock_room (hfree rfl).1, nofun⟩
  | check_room index =>
    rcases lt_or_ge index (s.head + pool.slots) with hlt | hge
    · exact ⟨_, _, _, .check_room hlt, nofun⟩
    · exact ⟨_, _, _, .check_no_room hge, nofun⟩
  | check_halt index =>
    cases hs : s.stop with
    | true => exact ⟨_, _, _, .check_halt hs, nofun⟩
    | false => exact ⟨_, _, _, .check_no_halt hs, nofun⟩
  | sleep_room index => exact ⟨_, _, _, .sleep_room, nofun⟩
  | asleep_room index => cases hrest
  | notified_room index => exact ⟨_, _, _, .relock_room (hfree rfl).1, nofun⟩
  | unlock_room index => exact ⟨_, _, _, .unlock_room, nofun⟩
  | uncount_room index => exact ⟨_, _, _, .uncount_room, nofun⟩
  | roomed index =>
    cases hs : s.stop with
    | true => exact ⟨_, _, _, .room_halted hs, nofun⟩
    | false => exact ⟨_, _, _, .roomed hs, nofun⟩
  | item index pos sizes =>
    cases sizes with
    | nil => exact ⟨_, _, _, .item_done, nofun⟩
    | cons _ _ => exact ⟨_, _, _, .item_read, nofun⟩
  | reserve t =>
    cases hs : s.halt with
    | true => exact ⟨_, _, _, .reserve_halted hs, nofun⟩
    | false => exact ⟨_, _, _, .reserve hs, nofun⟩
  | load_used t =>
    cases hf : fits s.used t.size with
    | true => exact ⟨_, _, _, .load_used hf, nofun⟩
    | false => exact ⟨_, _, _, .load_used_full hf, nofun⟩
  | exchange t used =>
    by_cases heq : s.used = used
    · exact ⟨_, _, _, .exchange heq, nofun⟩
    · exact ⟨_, _, _, .exchange_failed heq, nofun⟩
  | lock_budget t => exact ⟨_, _, _, .lock_budget (hfree rfl).2.1, nofun⟩
  | count_waiting t => exact ⟨_, _, _, .count_waiting, nofun⟩
  | check_stop t =>
    cases hs : s.halt with
    | true => exact ⟨_, _, _, .check_stop hs, nofun⟩
    | false => exact ⟨_, _, _, .check_no_stop hs, nofun⟩
  | check_used t =>
    cases hf : fits s.used t.size with
    | true => exact ⟨_, _, _, .check_used hf, nofun⟩
    | false => exact ⟨_, _, _, .check_used_full hf, nofun⟩
  | sleep_freed t => exact ⟨_, _, _, .sleep_freed, nofun⟩
  | asleep_freed t => cases hrest
  | notified_freed t => exact ⟨_, _, _, .relock_freed (hfree rfl).2.1, nofun⟩
  | uncount_waiting t held =>
    cases held with
    | true => exact ⟨_, _, _, .uncount_held, nofun⟩
    | false => exact ⟨_, _, _, .uncount_waiting, nofun⟩
  | reading t => exact ⟨_, _, _, .read, nofun⟩
  | load_waiting t =>
    rcases Nat.eq_zero_or_pos s.waiting with hz | hpos
    · exact ⟨_, _, _, .nobody_waits hz, nofun⟩
    · exact ⟨_, _, _, .load_waiting hpos, nofun⟩
  | tell_freed t => exact ⟨_, _, _, .tell_freed (hfree rfl).2.1, nofun⟩
  | notify_freed t => exact ⟨_, _, _, .notify_freed, nofun⟩
  | post index pos => exact ⟨_, _, _, .post, nofun⟩
  | bump index pos => exact ⟨_, _, _, .bump, nofun⟩
  | load_awaited index pos =>
    by_cases heq : s.awaited = index + 1
    · exact ⟨_, _, _, .load_awaited heq, nofun⟩
    · refine ⟨_, _, _, .not_awaited heq, ?_⟩
      unfold after
      split <;> nofun
  | tell_ready index pos =>
    exact ⟨_, _, _, .tell_ready (hfree rfl).2.2, nofun⟩
  | notify_ready index pos =>
    refine ⟨_, _, _, .notify_ready, ?_⟩
    unfold after
    split <;> nofun
  | returned => cases hrest
  | panicked index bytes => exact ⟨_, _, _, .store_lost, nofun⟩
  | tell_lost index bytes =>
    exact ⟨_, _, _, .tell_lost (hfree rfl).2.2, nofun⟩
  | notify_lost index bytes => exact ⟨_, _, _, .notify_lost, nofun⟩
  | dead index bytes => cases hrest

/-- The calling thread likewise. -/
theorem CallerAct.exists (c : Caller) (hrest : c.resting = false)
    (hfree : c.view.holds_ready = false → s.room = none ∧ s.lock = none) :
    ∃ s' n k, CallerAct pool positions s c s' n k := by
  cases c with
  | load_posted index => exact ⟨_, _, _, .load_posted⟩
  | look index seen =>
    cases hf : (s.ring (slot pool index)).filled index with
    | true => exact ⟨_, _, _, .look hf⟩
    | false => exact ⟨_, _, _, .look_empty hf⟩
  | lock_ready index seen => exact ⟨_, _, _, .lock_ready⟩
  | store_awaited index seen => exact ⟨_, _, _, .store_awaited⟩
  | check_moved index seen =>
    by_cases heq : s.posted (slot pool index) = seen
    · exact ⟨_, _, _, .not_moved heq⟩
    · exact ⟨_, _, _, .moved heq⟩
  | check_lost index seen =>
    cases hl : s.lost with
    | true => exact ⟨_, _, _, .lost hl⟩
    | false => exact ⟨_, _, _, .not_lost hl⟩
  | sleep index seen => exact ⟨_, _, _, .sleep⟩
  | asleep index seen => cases hrest
  | notified index seen => exact ⟨_, _, _, .relock⟩
  | clear_awaited index seen => exact ⟨_, _, _, .clear_awaited⟩
  | recheck index seen =>
    by_cases heq : s.posted (slot pool index) = seen
    · exact ⟨_, _, _, .give_up heq⟩
    · exact ⟨_, _, _, .take_again heq⟩
  | store_head index => exact ⟨_, _, _, .store_head⟩
  | load_roomless index =>
    rcases Nat.eq_zero_or_pos s.roomless with hz | hpos
    · exact ⟨_, _, _, .nobody_roomless hz⟩
    · exact ⟨_, _, _, .load_roomless hpos⟩
  | tell_room index => exact ⟨_, _, _, .tell_room (hfree rfl).1⟩
  | notify_room index => exact ⟨_, _, _, .notify_room⟩
  | consume index _ => exact ⟨_, _, _, .consume⟩
  | store_stop => exact ⟨_, _, _, .store_stop⟩
  | halt_room => exact ⟨_, _, _, .halt_room (hfree rfl).1⟩
  | halt_notify_room => exact ⟨_, _, _, .halt_notify_room⟩
  | halt_freed => exact ⟨_, _, _, .halt_freed (hfree rfl).2⟩
  | halt_notify_freed => exact ⟨_, _, _, .halt_notify_freed⟩
  | ended => cases hrest

end

/-! ## Nobody is left asleep -/

section

variable {W : Type} [Fintype W] {pool : Pool} {positions : ℕ} {t : State W}

theorem Pc.resting_calm {pc : Pc} (h : pc.resting = true) :
    pc.freeing = false ∧ pc.alarming = false ∧ ∀ i, pc.posting i = false := by
  cases pc with
  | returned | dead | asleep_room | asleep_freed => exact ⟨rfl, rfl, fun _ => rfl⟩
  | _ => cases h

/-- Once the calling thread has ended, who rests is through. -/
theorem State.Sound.over_of_ended (h : t.Sound pool positions) (hc : t.caller = .ended) {w : W}
    (hrest : (t.workers w).resting = true) : (t.workers w).finished = true := by
  have hstop : t.shared.stop = true := by
    have := h.inv.halted
    rwa [hc] at this
  cases hw : t.workers w with
  | returned | dead => rfl
  | asleep_room i =>
    rcases h.awake.asleep_halt nofun w i hw with hs | hs
    · rw [hstop] at hs
      cases hs
    · rw [hc] at hs
      cases hs
  | asleep_freed u =>
    rcases h.awake.asleep_stop nofun w u hw with hs | hs
    · rw [hstop] at hs
      cases hs
    · rw [hc] at hs
      cases hs
  | _ =>
    rw [hw] at hrest
    cases hrest

variable (h : t.Sound pool positions) (hall : ∀ w, (t.workers w).resting = true)
include h hall

theorem State.Sound.not_lost {i m : ℕ} (hc : t.caller = .asleep i m) : t.shared.lost = false := by
  rcases h.awake.asleep_lost nofun i m hc with hlost | ⟨v, hv⟩
  · exact hlost
  · rw [(Pc.resting_calm (hall v)).2.1] at hv
    cases hv

/-- With everybody at rest and nobody lost, a worker has returned or waits for
a slot. -/
theorem State.Sound.waits_for_room {i m : ℕ} (hc : t.caller = .asleep i m) (w : W) :
    t.workers w = .returned ∨ ∃ j, t.workers w = .asleep_room j ∧ t.shared.head + pool.slots ≤ j := by
  have hlost := h.not_lost hall hc
  have hdead : ∀ v index bytes, t.workers v ≠ .dead index bytes := by
    intro v index bytes hv
    have := h.inv.lost v (by rw [hv]; rfl)
    rw [hlost] at this
    cases this
  -- a worker at rest holds bytes only when it is dead
  have hused : t.shared.used = 0 := by
    rw [h.inv.used]
    refine Finset.sum_eq_zero fun v _ => ?_
    have hv := hall v
    cases hpc : t.workers v with
    | returned | asleep_room | asleep_freed => rfl
    | dead index bytes => exact absurd hpc (hdead v index bytes)
    | _ =>
      rw [hpc] at hv
      cases hv
  have hw := hall w
  cases hpc : t.workers w with
  | returned => exact .inl rfl
  | dead index bytes => exact absurd hpc (hdead w index bytes)
  | asleep_room j =>
    rcases h.awake.asleep_room nofun w j hpc with hj | hj
    · exact .inr ⟨j, rfl, hj⟩
    · rw [hc] at hj
      cases hj
  | asleep_freed u =>
    rcases h.awake.asleep_freed nofun w u hpc with hu | ⟨v, hv⟩
    · rw [hused] at hu
      cases hu
    · rw [(Pc.resting_calm (hall v)).1] at hv
      cases hv
  | _ =>
    rw [hpc] at hw
    cases hw

/-- The calling thread does not sleep while everybody rests: the batch it waits
for is neither unclaimed, nor with a worker, nor posted whole. -/
theorem State.Sound.caller_awake [Nonempty W] {i m : ℕ} : t.caller ≠ .asleep i m := by
  intro hc
  have hstop : t.shared.stop = false := by
    have := h.inv.halted
    rwa [hc] at this
  have hview : t.caller.view.taking = some i ∧ t.caller.view.seen = some (m, true)
      ∧ t.caller.view.stores = false := by
    rw [hc]
    exact ⟨rfl, rfl, rfl⟩
  have hcur : i = current pool positions t.shared.taken.length := h.inv.taking i hview.1
  have hlt : i < pool.batches positions := h.inv.looks i _ hview.1 hview.2.1
  have hhead : t.shared.head = i := by
    have := h.inv.head
    rw [hview.2.2] at this
    exact this.trans hcur.symm
  have hempty : (t.shared.ring (slot pool i)).filled i = false := by
    rcases h.awake.asleep nofun i m hc with hf | ⟨v, hv⟩
    · exact hf
    · rw [(Pc.resting_calm (hall v)).2.2 i] at hv
      cases hv
  have hslots := pool.slots_pos
  rcases lt_or_ge i t.shared.next with hnext | hnext
  · rcases h.inv.kept i hnext hlt with ⟨w, hw⟩ | hwhole | hs
    · rcases h.waits_for_room hall hc w with hpc | ⟨j, hpc, hj⟩
      · rw [hpc] at hw
        cases hw
      · rw [hpc] at hw
        cases hw
        omega
    · have hpos : i * pool.batch < pool.stop positions i :=
        Verify.Pool.lt_stop ((pool.lt_batches _ _).mp hlt)
      have hholds := h.inv.holds i (le_of_eq hcur.symm) (by omega)
      rw [Slot.filled, hholds.batch, hholds.complete.mpr hwhole] at hempty
      simp at hempty
    · rw [hstop] at hs
      cases hs
  · obtain ⟨w⟩ := ‹Nonempty W›
    rcases h.waits_for_room hall hc w with hpc | ⟨j, hpc, hj⟩
    · rcases h.inv.returned w (by rw [hpc]; rfl) with hs | hs
      · rw [hstop] at hs
        cases hs
      · omega
    · have := (h.inv.claimed w j (by rw [hpc]; rfl)).1
      omega

end

/-! ## No state is stuck -/

section

variable {W : Type} [DecidableEq W] {pool : Pool} {positions : ℕ} {sizes : ℕ → List ℕ} {t : State W}

/-- Some thread can step, and not by a panic. -/
def State.Live (pool : Pool) (positions : ℕ) (sizes : ℕ → List ℕ) (t : State W) : Prop :=
  ∃ t', Step pool positions sizes t t'
    ∧ ∀ w, (t'.workers w).panics = true → (t.workers w).panics = true

omit [DecidableEq W] in
theorem State.wake_panics (k : Wake) (t : State W) (w : W) :
    ((t.wake k).workers w).panics = (t.workers w).panics := by
  cases k with
  | quiet | ready => rfl
  | room =>
    show (t.workers w).roomy.panics = _
    cases t.workers w <;> rfl
  | freed =>
    show (t.workers w).freed.panics = _
    cases t.workers w <;> rfl

theorem State.live_worker {w : W} (hrest : (t.workers w).resting = false)
    (hfree : ((t.workers w).view.holds_room || (t.workers w).view.holds_lock) = false →
      t.shared.room = none ∧ t.shared.lock = none ∧ t.shared.ready = false) :
    t.Live pool positions sizes := by
  obtain ⟨_, n, k, hact, hpanics⟩ := Act.exists (t.workers w) hrest hfree
  refine ⟨_, .worker w hact, fun v hv => ?_⟩
  rw [State.wake_panics] at hv
  change (Function.update t.workers w n v).panics = true at hv
  by_cases hvw : v = w
  · subst hvw
    rw [Function.update_self] at hv
    exact hpanics hv
  · rwa [Function.update_of_ne hvw] at hv

theorem State.live_caller (hrest : t.caller.resting = false)
    (hfree : t.caller.view.holds_ready = false → t.shared.room = none ∧ t.shared.lock = none) :
    t.Live pool positions sizes := by
  obtain ⟨_, n, k, hact⟩ := CallerAct.exists t.caller hrest hfree
  refine ⟨_, .caller hact, fun v hv => ?_⟩
  rwa [State.wake_panics] at hv

theorem Pc.awake_of_holds {pc : Pc} (h : (pc.view.holds_room || pc.view.holds_lock) = true) :
    pc.resting = false := by
  cases pc <;> first | rfl | cases h

theorem Caller.awake_of_holds {c : Caller} (h : c.view.holds_ready = true) : c.resting = false := by
  cases c <;> first | rfl | cases h

/-- **No state is stuck** while a thread has not ended. -/
theorem State.Sound.live [Fintype W] [Nonempty W] (h : t.Sound pool positions)
    (hleft : t.caller ≠ .ended ∨ ∃ w, (t.workers w).finished = false) : t.Live pool positions sizes := by
  -- who holds a lock can step
  have hholder : ∀ w, ((t.workers w).view.holds_room || (t.workers w).view.holds_lock) = true →
      t.Live pool positions sizes := by
    intro w hw
    refine State.live_worker (w := w) (Pc.awake_of_holds hw) fun hno => ?_
    rw [hw] at hno
    cases hno
  by_cases hready : t.shared.ready = true
  · have hholds : t.caller.view.holds_ready = true := by rw [← h.inv.ready, hready]
    refine State.live_caller (Caller.awake_of_holds hholds) fun hno => ?_
    rw [hholds] at hno
    cases hno
  cases hroom : t.shared.room with
  | some w => exact hholder w (by rw [(h.inv.room w).mpr hroom, Bool.true_or])
  | none =>
    cases hlock : t.shared.lock with
    | some w => exact hholder w (by rw [(h.inv.lock w).mpr hlock, Bool.or_true])
    | none =>
      -- no lock is held: any thread not at rest can step
      by_cases hall : ∀ w, (t.workers w).resting = true
      · cases hc : t.caller.resting with
        | false => exact State.live_caller hc fun _ => ⟨hroom, hlock⟩
        | true =>
          exfalso
          cases hpc : t.caller with
          | asleep i m => exact h.caller_awake hall hpc
          | ended =>
            rcases hleft with hne | ⟨w, hw⟩
            · exact hne hpc
            · rw [h.over_of_ended hpc (hall w)] at hw
              cases hw
          | _ =>
            rw [hpc] at hc
            cases hc
      · obtain ⟨w, hw⟩ := not_forall.mp hall
        exact State.live_worker (w := w) (Bool.eq_false_of_not_eq_true hw) fun _ =>
          ⟨hroom, hlock, Bool.eq_false_of_not_eq_true hready⟩

end

/-! ## After a panic -/

/-- The calling thread is in `take`, for a batch. -/
def Caller.takes (i : ℕ) : Caller → Bool
  | .load_posted j | .look j _ | .lock_ready j _ | .store_awaited j _ | .check_moved j _
  | .check_lost j _ | .sleep j _ | .asleep j _ | .notified j _ | .clear_awaited j _
  | .recheck j _ => j = i
  | _ => false

section

variable {W : Type} (pool : Pool) (positions : ℕ)

/-- The steps of the calling thread alone. -/
inductive Alone : State W → State W → Prop
  | caller {t : State W} {s : Shared W} {c : Caller} {k : Wake} :
    CallerAct pool positions t.shared t.caller s c k → Alone t (State.wake k ⟨s, t.workers, c⟩)

/-- `take` returns, with no other thread's help: what the slot holds, or else
`None`. -/
def State.Returns (i : ℕ) (t : State W) : Prop :=
  ∃ t', Relation.ReflTransGen (Alone pool positions) t t'
    ∧ (t'.caller = .store_stop ∨ (t.shared.ring (slot pool i)).filled i = true
      ∧ (t'.caller = .store_head i ∨ t'.caller = .consume i false))

end

section

variable {W : Type} {pool : Pool} {positions : ℕ} {i m : ℕ} {ws : W → Pc} {s s' : Shared W}
  {c c' : Caller}

theorem State.Returns.head (hact : CallerAct pool positions s c s' c' .quiet)
    (hring : s'.ring = s.ring) (h : State.Returns pool positions i ⟨s', ws, c'⟩) :
    State.Returns pool positions i ⟨s, ws, c⟩ := by
  obtain ⟨t', hrun, _⟩ := h
  refine ⟨t', .head (.caller hact) hrun, ?_⟩
  rwa [← hring]

theorem State.returns_filled (hf : (s.ring (slot pool i)).filled i = true) :
    State.Returns pool positions i ⟨s, ws, .look i m⟩ := by
  refine ⟨_, .single (.caller (.look hf)), .inr ⟨hf, ?_⟩⟩
  show ite _ _ _ = _ ∨ ite _ _ _ = _
  split
  · exact .inl rfl
  · exact .inr rfl

variable (hlost : s.lost = true)
include hlost

theorem State.returns_load_posted : State.Returns pool positions i ⟨s, ws, .load_posted i⟩ := by
  refine State.Returns.head .load_posted rfl ?_
  cases hf : (s.ring (slot pool i)).filled i with
  | true => exact State.returns_filled hf
  | false =>
    -- nothing there, and nothing posted since
    refine State.Returns.head (.look_empty hf) rfl ?_
    refine State.Returns.head .lock_ready rfl ?_
    refine State.Returns.head .store_awaited rfl ?_
    refine State.Returns.head (.not_moved rfl) rfl ?_
    refine State.Returns.head (.lost hlost) rfl ?_
    refine State.Returns.head .clear_awaited rfl ?_
    exact ⟨_, .single (.caller (.give_up rfl)), .inl rfl⟩

theorem State.returns_recheck :
    State.Returns pool positions i ⟨s, ws, .recheck i m⟩ := by
  by_cases hseen : s.posted (slot pool i) = m
  · exact ⟨_, .single (.caller (.give_up hseen)), .inl rfl⟩
  · exact State.Returns.head (.take_again hseen) rfl (State.returns_load_posted hlost)

theorem State.returns_check_moved :
    State.Returns pool positions i ⟨s, ws, .check_moved i m⟩ := by
  by_cases hseen : s.posted (slot pool i) = m
  · refine State.Returns.head (.not_moved hseen) rfl ?_
    refine State.Returns.head (.lost hlost) rfl ?_
    exact State.Returns.head .clear_awaited rfl (State.returns_recheck hlost)
  · refine State.Returns.head (.moved hseen) rfl ?_
    exact State.Returns.head .clear_awaited rfl (State.returns_recheck hlost)

theorem State.returns_lock_ready : State.Returns pool positions i ⟨s, ws, .lock_ready i m⟩ := by
  refine State.Returns.head .lock_ready rfl ?_
  exact State.Returns.head .store_awaited rfl (State.returns_check_moved hlost)

/-- Once a worker is lost, the calling thread does not wait, unless it has
fallen asleep already. -/
theorem State.returns_of_lost (htakes : c.takes i = true) (hsleep : ∀ m, c ≠ .sleep i m)
    (hasleep : ∀ m, c ≠ .asleep i m) : State.Returns pool positions i ⟨s, ws, c⟩ := by
  cases c with
  | load_posted =>
    obtain rfl := of_decide_eq_true htakes
    exact State.returns_load_posted hlost
  | look j m =>
    obtain rfl := of_decide_eq_true htakes
    cases hf : (s.ring (slot pool j)).filled j with
    | true => exact State.returns_filled hf
    | false => exact State.Returns.head (.look_empty hf) rfl (State.returns_lock_ready hlost)
  | lock_ready =>
    obtain rfl := of_decide_eq_true htakes
    exact State.returns_lock_ready hlost
  | store_awaited =>
    obtain rfl := of_decide_eq_true htakes
    exact State.Returns.head .store_awaited rfl (State.returns_check_moved hlost)
  | check_moved =>
    obtain rfl := of_decide_eq_true htakes
    exact State.returns_check_moved hlost
  | check_lost =>
    obtain rfl := of_decide_eq_true htakes
    refine State.Returns.head (.lost hlost) rfl ?_
    exact State.Returns.head .clear_awaited rfl (State.returns_recheck hlost)
  | sleep j m =>
    obtain rfl := of_decide_eq_true htakes
    exact absurd rfl (hsleep m)
  | asleep j m =>
    obtain rfl := of_decide_eq_true htakes
    exact absurd rfl (hasleep m)
  | notified =>
    obtain rfl := of_decide_eq_true htakes
    exact State.Returns.head .relock rfl (State.returns_check_moved hlost)
  | clear_awaited =>
    obtain rfl := of_decide_eq_true htakes
    exact State.Returns.head .clear_awaited rfl (State.returns_recheck hlost)
  | recheck =>
    obtain rfl := of_decide_eq_true htakes
    exact State.returns_recheck hlost
  | _ => cases htakes

end

/-! ## What the ring is for -/

section

variable {W : Type} [Fintype W] [DecidableEq W]

/-- **What holds of every state of a run.** -/
structure State.Served (pool : Pool) (positions : ℕ) (sizes : ℕ → List ℕ) (t : State W) : Prop where
  /-- The positions taken are the first ones, each once and in order. -/
  taken : t.shared.taken = (List.range t.shared.taken.length).map fun p => (p, p)
  taken_le : t.shared.taken.length ≤ positions
  /-- They are all taken when the run ends, unless a position or a panic
  stopped it. -/
  all : t.caller = .ended → t.shared.broke = false → t.shared.lost = false →
    t.shared.taken.length = positions
  /-- A position is posted to a slot whose batch was taken, or is its own. -/
  slots : ∀ w index pos, t.workers w = .post index pos →
    (t.shared.ring (slot pool index)).index = 0 ∨ (t.shared.ring (slot pool index)).index = index + 1
  /-- The bytes the readers hold are those reserved, and within the budget. -/
  used : t.shared.used = ∑ w, (t.workers w).view.bytes
  used_le : t.shared.used ≤ IN_FLIGHT_BYTES
  /-- Some thread can step, until all have ended. -/
  live : t.caller ≠ .ended ∨ (∃ w, (t.workers w).finished = false) → t.Live pool positions sizes
  /-- After a panic `take` returns, once those that panicked have told so; and
  `None` only then. -/
  returns : (∃ w index bytes, t.workers w = .dead index bytes) →
    (∀ w, (t.workers w).alarming = false) → ∀ i, t.caller.takes i = true →
    t.Returns pool positions i
  none : ∀ i m, t.caller = .recheck i m → t.shared.posted (slot pool i) = m → t.shared.lost = true

variable {pool : Pool} {positions : ℕ} {sizes : ℕ → List ℕ} {t : State W}

omit [DecidableEq W] in
theorem State.Sound.returns (h : t.Sound pool positions)
    (hdead : ∃ w index bytes, t.workers w = .dead index bytes)
    (hcalm : ∀ w, (t.workers w).alarming = false) {i : ℕ} (htakes : t.caller.takes i = true) :
    t.Returns pool positions i := by
  obtain ⟨w, index, bytes, hw⟩ := hdead
  have hlost : t.shared.lost = true := h.inv.lost w (by rw [hw]; rfl)
  refine State.returns_of_lost hlost htakes ?_ ?_
  · intro m hc
    rcases h.awake.sleep_lost i m hc with hno | ⟨v, hv⟩
    · rw [hlost] at hno
      cases hno
    · have halarms : (t.workers v).alarming = true := by
        cases hpc : t.workers v <;> rw [hpc] at hv <;> first | rfl | cases hv
      rw [hcalm v] at halarms
      cases halarms
  · intro m hc
    rcases h.awake.asleep_lost nofun i m hc with hno | ⟨v, hv⟩
    · rw [hlost] at hno
      cases hno
    · rw [hcalm v] at hv
      cases hv

/-- **Every run is served**: the positions are taken once each and in order, no
slot is overwritten and no budget exceeded, and nobody waits for ever. -/
theorem reached_served [Nonempty W] (h : Reached pool positions sizes t) :
    t.Served pool positions sizes := by
  have hs := h.sound
  exact {
    taken := hs.inv.taken
    taken_le := hs.inv.taken_le
    all := by
      intro hc hbroke hlost
      rcases (hs.inv.halting (by rw [hc]; rfl)).2 with hno | hno | hall
      · rw [hbroke] at hno
        cases hno
      · rw [hlost] at hno
        cases hno
      · exact hall
    slots := by
      intro w index pos hw
      have hworks := hs.inv.works w index (by rw [hw]; rfl)
      rw [hw] at hworks
      exact hs.inv.slot_free hs.inv.toClaims hworks
    used := hs.inv.used
    used_le := hs.inv.used_le
    live := hs.live
    returns := fun hdead hcalm _ htakes => hs.returns hdead hcalm htakes
    none := by
      intro i m hc hsame
      rcases hs.inv.woke i m true (by rw [hc]; rfl) (by rw [hc]; rfl) (by rw [hc]; rfl) with
        hlt | hlost
      · omega
      · exact hlost }

end

/-- Two workers, each with a position to read: the second has read nothing when
the first one panics at its read. -/
theorem served_after_a_panic :
    ∃ t : State (Fin 2), t.workers 0 = .dead (some 0) 7 ∧ t.shared.used = 7
      ∧ t.Served ⟨1, 1, by decide, by decide⟩ 2 fun _ => [7] := by
  have h0 : Reached (W := Fin 2) ⟨1, 1, by decide, by decide⟩ 2 (fun _ => [7]) _ := .schedule
  have h1 := h0.step (.worker 0 (.go_on rfl))
  have h2 := h1.step (.worker 0 (.claim (by decide)))
  have h3 := h2.step (.worker 0 (.room (by decide)))
  have h4 := h3.step (.worker 0 (.roomed rfl))
  have h5 := h4.step (.worker 0 .item_read)
  have h6 := h5.step (.worker 0 (.reserve rfl))
  have h7 := h6.step (.worker 0 (.load_used rfl))
  have h8 := h7.step (.worker 0 (.exchange rfl))
  have h9 := h8.step (.worker 0 .read_panics)
  have h10 := h9.step (.worker 0 .store_lost)
  have h11 := h10.step (.worker 0 (.tell_lost rfl))
  exact ⟨_, rfl, rfl, reached_served (h11.step (.worker 0 .notify_lost))⟩

end Ferret.Ring
