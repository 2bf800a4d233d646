import Ferret.Daemon.Queue

/-!
# No wake-up is lost

A wake whose swap set the flag leaves the flag set until a receive call
returns an `Intake`. In between the writer waits on an empty channel only while
that wake has still to make its `try_send`, which ends the wait.

At most one `Intake` is queued as long as every wake-up is cleared by taking its
message. A receive call that finds the channel empty and the flag set takes the
wake-up by the flag alone: when the wake stands between its two steps, or has
just queued its message, that message comes beside the next one.
-/

namespace Ferret.Writer

open List

variable {Thread Command : Type}

def Message.command? : Message Command → Option Command
  | .command c => some c
  | .intake => none

def Message.is_intake : Message Command → Bool
  | .command _ => false
  | .intake => true

/-- The commands among messages. -/
def commands (messages : List (Message Command)) : List Command :=
  messages.filterMap Message.command?

/-- How many messages are an `Intake`. -/
def intakes (messages : List (Message Command)) : ℕ := messages.countP Message.is_intake

@[simp] theorem commands_nil : commands ([] : List (Message Command)) = [] := rfl

@[simp] theorem commands_command (command : Command) (rest : List (Message Command)) :
    commands (.command command :: rest) = command :: commands rest := rfl

variable (rest : List (Message Command))

@[simp] theorem commands_intake :
    commands (.intake :: rest) = commands rest := rfl

variable (a b : List (Message Command))

@[simp] theorem commands_append :
    commands (a ++ b) = commands a ++ commands b := filterMap_append

@[simp] theorem intakes_nil : intakes ([] : List (Message Command)) = 0 := rfl

@[simp] theorem intakes_command (command : Command) (rest : List (Message Command)) :
    intakes (.command command :: rest) = intakes rest :=
  countP_cons_of_neg nofun

@[simp] theorem intakes_intake :
    intakes (.intake :: rest) = intakes rest + 1 := countP_cons_of_pos rfl

@[simp] theorem intakes_append :
    intakes (a ++ b) = intakes a + intakes b := countP_append

theorem length_messages (messages : List (Message Command)) :
    messages.length = (commands messages).length + intakes messages := by
  induction messages with
  | nil => rfl
  | cons message _ ih =>
    cases message with
    | command command =>
      rw [commands_command, intakes_command, length_cons, length_cons, ih]
      exact Nat.add_right_comm ..
    | intake =>
      rw [commands_intake, intakes_intake, length_cons, ih]
      exact Nat.add_assoc ..

/-- The writer is about to block on an empty channel. -/
def State.Blocks (s : State Thread Command) : Prop :=
  (∃ timeout, s.pc = .recv timeout) ∧ s.messages = []

/-- The writer is about to block on an empty channel, or is blocked there. -/
def State.Waits (s : State Thread Command) : Prop :=
  (∃ timeout, s.pc = .recv timeout ∨ s.pc = .blocked timeout) ∧ s.messages = []

/-- Since `s`, a receive call has returned an `Intake`. -/
def State.Delivered (s t : State Thread Command) : Prop :=
  .intake ∈ t.returned.drop s.returned.length

/-- No wake sets the flag between a receive's swap that found it clear and its
blocking receive, and no receive's swap clears a wake-up whose `Intake` is
queued or on its way. -/
def Undisturbed (s : State Thread Command) : Action Thread Command → Prop
  | .wake _ => s.woken = false → ∀ timeout, s.pc ≠ .recv timeout
  | .swap => s.woken = true → s.waking = [] ∧ .intake ∉ s.messages
  | _ => True

section

variable [DecidableEq Thread] {capacity : ℕ}

/-! ## Commands, in the order accepted -/

/-- The commands accepted are those returned and those queued, in this order. -/
structure Ledger (s : State Thread Command) : Prop where
  queued : s.pc ≠ .stopped → s.accepted = commands s.returned ++ commands s.messages
  returned : commands s.returned <+: s.accepted

variable {s t : State Thread Command} {act : Action Thread Command}

omit [DecidableEq Thread] in
theorem Ledger.of_queued (h : s.accepted = commands s.returned ++ commands s.messages) : Ledger s :=
  ⟨fun _ => h, h ▸ prefix_append ..⟩

omit [DecidableEq Thread] in
theorem ledger_start : Ledger (State.start : State Thread Command) := .of_queued rfl

theorem step_ledger (h : Ledger s) (hstep : step capacity s act = some t) : Ledger t := by
  obtain ⟨hqueued, hreturned⟩ := h
  cases step_effect hstep with
  | wakes | pending | fails | refused => exact ⟨hqueued, hreturned⟩
  | sends => exact ⟨fun h => by simpa using hqueued h, hreturned⟩
  | accepted haccepts =>
    have hpc : s.pc ≠ .stopped := by
      simp only [State.accepts, Bool.and_eq_true, decide_eq_true_eq] at haccepts
      exact haccepts.1
    refine .of_queued ?_
    simp [hqueued hpc]
  | receive hpc | empty hpc | unwoken hpc | blocks hpc | timeout hpc =>
    exact .of_queued (hqueued (by simp [hpc]))
  | takes_command _ hmessages hpc | takes_intake _ hmessages _ hpc =>
    refine .of_queued ?_
    simp [hqueued hpc, hmessages]
  | swaps hpc | clear hpc =>
    refine .of_queued ?_
    simp [State.cleared, hqueued (by simp [hpc])]
  | stop => exact ⟨fun h => absurd rfl h, hreturned⟩

/-! ## A wake-up set and not yet delivered -/

/-- The flag is set, and the writer waits on an empty channel only while
`thread` has still to send. -/
def State.Pending (thread : Thread) (s : State Thread Command) : Prop :=
  s.woken = true ∧ (s.Waits → thread ∈ s.waking)

omit [DecidableEq Thread] in
theorem not_waits (h : ∀ timeout, s.pc ≠ .recv timeout ∧ s.pc ≠ .blocked timeout) : ¬ s.Waits := by
  rintro ⟨⟨timeout, hpc | hpc⟩, -⟩
  · exact (h timeout).1 hpc
  · exact (h timeout).2 hpc

theorem step_returned
    (hstep : step capacity s act = some t) : ∃ more, t.returned = s.returned ++ more := by
  cases step_effect hstep with
  | takes_command | swaps | clear => exact ⟨_, rfl⟩
  | _ => exact ⟨[], (append_nil _).symm⟩

/-- A wake-up stays pending until an `Intake` is returned. -/
theorem step_pending {thread : Thread} (hcapacity : 0 < capacity) (h : s.Pending thread)
    (hstep : step capacity s act = some t) :
    t.Pending thread ∨ t.returned = s.returned ++ [.intake] := by
  obtain ⟨hwoken, hwaits⟩ := h
  -- a step that ends outside the blocking receive leaves the flag alone
  have hleft : ∀ u : State Thread Command, u.woken = true →
      (∀ timeout, u.pc ≠ .recv timeout ∧ u.pc ≠ .blocked timeout) → u.Pending thread :=
    fun u hu hpc => ⟨hu, fun hw => absurd hw (not_waits hpc)⟩
  cases step_effect hstep with
  | wakes _ hclear => rw [hwoken] at hclear; cases hclear
  | pending => exact .inl ⟨hwoken, hwaits⟩
  | sends => exact .inl ⟨hwoken, fun hw => by simpa using hw.2⟩
  | fails _ haccepts =>
    -- a `try_send` that fails found the channel full
    refine .inl ⟨hwoken, fun hw => ?_⟩
    obtain ⟨⟨timeout, hpc⟩, hempty⟩ := hw
    have hpc : s.pc ≠ .stopped := by
      rcases hpc with hpc | hpc <;> simp_all
    simp [State.accepts, hpc, show s.messages = [] from hempty, hcapacity] at haccepts
  | accepted => exact .inl ⟨hwoken, fun hw => by simpa using hw.2⟩
  | refused => exact .inl ⟨hwoken, hwaits⟩
  | receive | takes_command | takes_intake | empty => exact .inl (hleft _ hwoken (by simp))
  | swaps => exact .inr rfl
  | unwoken _ hclear => rw [hwoken] at hclear; cases hclear
  | blocks hpc hempty => exact .inl ⟨hwoken, fun _ => hwaits ⟨⟨_, .inl hpc⟩, hempty⟩⟩
  | timeout => exact .inl (hleft _ hwoken (by simp))
  | clear => exact .inr rfl
  | stop => exact .inl (hleft _ hwoken (by simp))

/-- A set flag also keeps the writer from blocking, once it is not about to. -/
def State.Stirred (s : State Thread Command) : Prop :=
  s.woken = true ∧ ∀ timeout, s.pc ≠ .recv timeout

theorem step_stirred (h : s.Stirred) (hstep : step capacity s act = some t) :
    t.Stirred ∨ t.returned = s.returned ++ [.intake] := by
  obtain ⟨hwoken, hpc⟩ := h
  cases step_effect hstep with
  | wakes _ hclear => rw [hwoken] at hclear; cases hclear
  | pending | sends | fails | accepted | refused => exact .inl ⟨hwoken, hpc⟩
  | swaps => exact .inr rfl
  | unwoken _ hclear => rw [hwoken] at hclear; cases hclear
  | clear => exact .inr rfl
  | _ => exact .inl ⟨hwoken, by simp⟩

/-- What holds until an `Intake` is returned holds, or one has been returned. -/
def Held (P : State Thread Command → Prop) (s t : State Thread Command) : Prop :=
  s.returned <+: t.returned ∧ (s.Delivered t ∨ P t)

omit [DecidableEq Thread] in
theorem delivered_append {u : State Thread Command} (h : s.returned <+: t.returned)
    {more : List (Message Command)} (hu : u.returned = t.returned ++ more)
    (hin : s.Delivered t ∨ .intake ∈ more) : s.Delivered u := by
  unfold State.Delivered
  rw [hu, drop_append_of_le_length h.length_le, mem_append]
  exact hin

theorem run_held {P : State Thread Command → Prop} {acts : List (Action Thread Command)}
    (hstep : ∀ u act v, P u → step capacity u act = some v →
      P v ∨ v.returned = u.returned ++ [.intake])
    (hs : P s) (hrun : run capacity s acts = some t) : Held P s t := by
  refine Stepwise.run_induction ⟨prefix_rfl, .inr hs⟩ ?_ Stepwise.along_true hrun
  intro u act v _ hu huv
  obtain ⟨hleading, hu⟩ := hu
  obtain ⟨_, hmore⟩ := step_returned huv
  refine ⟨hleading.trans (hmore ▸ prefix_append ..), ?_⟩
  rcases hu with hu | hu
  · exact .inl (delivered_append hleading hmore (.inl hu))
  · rcases hstep u act v hu huv with hv | hv
    · exact .inr hv
    · exact .inl (delivered_append hleading hv (.inr (mem_singleton_self _)))

/-- The run from a wake that sets the flag. -/
theorem run_of_wake {before after : List (Action Thread Command)} {thread : Thread}
    (hs : run capacity .start before = some s) (hclear : s.woken = false)
    (hrun : run capacity .start (before ++ .wake thread :: after) = some t) :
    run capacity { s with woken := true, waking := thread :: s.waking } after = some t := by
  obtain ⟨_, hs', ht⟩ := Stepwise.exists_of_run_append hrun
  cases hs.symm.trans hs'
  obtain ⟨u, hu, ht⟩ := Stepwise.exists_of_run_cons ht
  cases step_effect hu with
  | wakes => exact ht
  | pending hwoken => rw [hclear] at hwoken; cases hwoken
  | takes_command hact | takes_intake hact => rcases hact with hact | hact <;> cases hact

/-! ## One `Intake` at a time -/

/-- How many wake-ups are on their way, queued, or taken and not yet cleared. -/
def State.unsettled (s : State Thread Command) : ℕ :=
  s.waking.length + intakes s.messages + if s.pc = .clear then 1 else 0

/-- At most one wake-up is unsettled, and none while the flag is clear. -/
structure Single (s : State Thread Command) : Prop where
  one : s.unsettled ≤ 1
  unset : s.woken = false → s.unsettled = 0

omit [DecidableEq Thread] in
theorem single_start : Single (State.start : State Thread Command) :=
  ⟨Nat.zero_le _, fun _ => rfl⟩

omit [DecidableEq Thread] in
/-- A step that leaves the flag alone and unsettles nothing. -/
theorem Single.mono (h : Single s) (hwoken : t.woken = s.woken)
    (hle : t.unsettled ≤ s.unsettled) : Single t :=
  ⟨Nat.le_trans hle h.one, fun ht => Nat.eq_zero_of_le_zero (h.unset (hwoken ▸ ht) ▸ hle)⟩

omit [DecidableEq Thread] in
/-- Clearing the flag settles a wake-up that has been taken. -/
theorem Single.of_cleared (hwaking : s.waking = [])
    (hmessages : intakes s.messages = 0) : Single s.cleared := by
  have hzero : s.cleared.unsettled = 0 := by
    simp [State.unsettled, State.cleared, hwaking, hmessages]
  exact ⟨hzero ▸ Nat.zero_le 1, fun _ => hzero⟩

theorem intakes_eq_zero {messages : List (Message Command)} (h : .intake ∉ messages) :
    intakes messages = 0 := by
  refine countP_eq_zero.mpr fun message hin htrue => ?_
  cases message with
  | command c => cases htrue
  | intake => exact h hin

theorem step_single (h : Single s)
    (hact : Undisturbed s act) (hstep : step capacity s act = some t) : Single t := by
  cases step_effect hstep with
  | wakes _ hclear =>
    have hzero := h.unset hclear
    refine ⟨?_, nofun⟩
    simp only [State.unsettled, length_cons] at hzero ⊢
    omega
  | pending => exact h
  | sends hmem =>
    have hlen : s.waking.length = (s.waking.erase _).length + 1 :=
      (length_erase_add_one hmem).symm
    refine h.mono rfl ?_
    simp only [State.unsettled, intakes_append, intakes_intake, intakes_nil]
    omega
  | fails hmem =>
    have hlen : s.waking.length = (s.waking.erase _).length + 1 :=
      (length_erase_add_one hmem).symm
    refine h.mono rfl ?_
    simp only [State.unsettled]
    omega
  | refused => exact h
  | accepted | receive | empty | unwoken | blocks | timeout =>
    exact h.mono rfl (by simp [State.unsettled])
  | takes_command _ hmessages => exact h.mono rfl (by simp [State.unsettled, hmessages])
  | takes_intake _ hmessages hpc =>
    exact h.mono rfl (by simp [State.unsettled, hmessages, hpc, Nat.add_assoc])
  | swaps _ hwoken =>
    obtain ⟨hwaking, hmessages⟩ := hact hwoken
    exact .of_cleared hwaking (intakes_eq_zero hmessages)
  | clear hpc =>
    have hone := h.one
    simp only [State.unsettled, hpc, if_true] at hone
    exact .of_cleared (length_eq_zero_iff.mp (by omega)) (by omega)
  | stop => exact h.mono rfl (by simp [State.unsettled]; omega)

theorem intakes_le {acts : List (Action Thread Command)}
    (hcond : Stepwise.Along (step capacity) Undisturbed .start acts)
    (hrun : run capacity .start acts = some t) : intakes t.messages ≤ 1 := by
  have hsingle : Single t := Stepwise.run_induction single_start
    (fun _ _ _ hact hu hstep => step_single hu hact hstep) hcond hrun
  have hone := hsingle.one
  unfold State.unsettled at hone
  omega

/-! ## The queue over whole runs -/

/-- In every run each command is returned once, in the order accepted, and a
wake that set the flag has been delivered before the writer waits on an empty
channel, or has still to send.

When no step disturbs a wake-up, it has been delivered before the writer blocks
on an empty channel, at most one `Intake` is queued, and a command is refused
only beside `capacity - 1` others or once the writer has stopped. -/
theorem wakeups_coalesce (hcapacity : 0 < capacity) {acts : List (Action Thread Command)}
    {t : State Thread Command} (hrun : run capacity .start acts = some t) :
    ((t.pc ≠ .stopped → t.accepted = commands t.returned ++ commands t.messages)
      ∧ commands t.returned <+: t.accepted
      ∧ ∀ before thread after s, acts = before ++ .wake thread :: after →
        run capacity .start before = some s → s.woken = false → t.Waits →
        s.Delivered t ∨ thread ∈ t.waking)
    ∧ (Stepwise.Along (step capacity) Undisturbed .start acts →
      (∀ before thread after s, acts = before ++ .wake thread :: after →
        run capacity .start before = some s → s.woken = false → t.Blocks → s.Delivered t)
      ∧ intakes t.messages ≤ 1
      ∧ (t.accepts capacity = false →
        t.pc = .stopped ∨ capacity ≤ (commands t.messages).length + 1)) := by
  have hledger : Ledger t :=
    Stepwise.run_induction ledger_start (fun _ _ _ _ => step_ledger) Stepwise.along_true hrun
  refine ⟨⟨hledger.queued, hledger.returned, ?_⟩, fun hcond => ⟨?_, ?_, ?_⟩⟩
  · rintro before thread after s rfl hs hclear hwaits
    have ht := run_of_wake hs hclear hrun
    have hpending : State.Pending thread
        { s with woken := true, waking := thread :: s.waking } :=
      ⟨rfl, fun _ => mem_cons_self⟩
    have hheld := run_held (fun _ _ _ => step_pending hcapacity) hpending ht
    exact hheld.2.imp_right fun h => h.2 hwaits
  · rintro before thread after s rfl hs hclear hblocks
    have ht := run_of_wake hs hclear hrun
    have hstirred : State.Stirred { s with woken := true, waking := thread :: s.waking } :=
      ⟨rfl, hcond before (.wake thread) after s rfl hs hclear⟩
    have hheld := run_held (fun _ _ _ => step_stirred) hstirred ht
    refine hheld.2.resolve_right fun h => ?_
    obtain ⟨⟨timeout, hrecv⟩, -⟩ := hblocks
    exact h.2 timeout hrecv
  · exact intakes_le hcond hrun
  · intro hrefused
    have hone := intakes_le hcond hrun
    have hlen := length_messages t.messages
    by_cases hpc : t.pc = .stopped
    · exact .inl hpc
    · have hfull : capacity ≤ t.messages.length := by simpa [State.accepts, hpc] using hrefused
      exact .inr (by omega)

/-- A wake, its message taken, a command and one more wake fill a channel of two. -/
theorem wakeups_coalesce_full : ∃ t : State ℕ ℕ, run 2 .start
      [.wake 0, .try_send 0, .receive false, .try_recv, .clear, .command 7, .wake 1, .try_send 1]
        = some t
    ∧ t.accepts 2 = false ∧ intakes t.messages ≤ 1
    ∧ (t.pc = .stopped ∨ 2 ≤ (commands t.messages).length + 1) := by
  have hcond : Stepwise.Along (step 2) Undisturbed (.start : State ℕ ℕ)
      [.wake 0, .try_send 0, .receive false, .try_recv, .clear, .command 7, .wake 1,
        .try_send 1] := by
    refine .cons nofun rfl (.cons trivial rfl (.cons trivial rfl
      (.cons trivial rfl (.cons trivial rfl (.cons trivial rfl (.cons ?_ rfl
      (.cons trivial rfl Stepwise.along_nil)))))))
    exact nofun
  obtain ⟨-, hone, hrefused⟩ := (wakeups_coalesce (by decide) rfl).2 hcond
  exact ⟨_, rfl, rfl, hone, hrefused rfl⟩

/-- Two wakes and three receive calls: the flag is cleared while the first wake
stands between its two steps, and both messages come to be queued. A command is
then refused beside no other. -/
theorem not_coalesced : ∃ acts : List (Action ℕ ℕ), ∃ t : State ℕ ℕ,
    run 2 .start acts = some t ∧ intakes t.messages = 2
      ∧ t.accepts 2 = false ∧ t.pc ≠ .stopped ∧ commands t.messages = [] := by
  refine ⟨[.wake 0, .receive false, .try_recv, .swap, .wake 1, .try_send 0, .try_send 1], ?_⟩
  exact ⟨_, rfl, rfl, rfl, by decide, rfl⟩

end

end Ferret.Writer
