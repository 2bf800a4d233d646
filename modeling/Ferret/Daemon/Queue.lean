import Ferret.Lib.Stepwise

/-!
# The writer's inbox

Any number of threads wake the writer or send it commands, over one bounded
channel and one flag; the writer takes its messages with `receive`. The model
is a step function whose steps stand between two accesses to the channel or
the flag: a wake is a swap of the flag and then, if it was clear, a `try_send`;
a `receive` is a `try_recv`, a swap if the channel was empty, a blocking
receive if the flag was clear, and one more swap after an `Intake` was taken.
The queue itself holds a sender, so no receive finds the channel disconnected.

`accepted` and `returned` are no part of the program: they record the commands
the channel has accepted and what the receive calls have returned.
-/

namespace Ferret.Writer

inductive Message (Command : Type)
  | command (command : Command)
  | intake
deriving DecidableEq

/-- **Where the writer stands.** -/
inductive Pc
  | serving
  -- `receive`, with whether it waits for a limited time only
  | try_recv (timeout : Bool)
  | swap (timeout : Bool)
  | recv (timeout : Bool)
  | blocked (timeout : Bool)
  | clear
  | stopped
deriving DecidableEq

structure State (Thread Command : Type) where
  messages : List (Message Command)
  woken : Bool
  /-- The threads between the swap of `wake` and its `try_send`. -/
  waking : List Thread
  pc : Pc
  accepted : List Command
  returned : List (Message Command)
deriving DecidableEq

inductive Action (Thread Command : Type)
  -- `wake`
  | wake (thread : Thread)
  | try_send (thread : Thread)
  -- `command`
  | command (command : Command)
  -- `receive`
  | receive (timeout : Bool)
  | try_recv
  | swap
  | recv
  | timeout
  | clear
  -- the end of `serve`
  | stop
deriving DecidableEq

variable {Thread Command : Type}

/-- `Queue::new` -/
def State.start : State Thread Command where
  messages := []
  woken := false
  waking := []
  pc := .serving
  accepted := []
  returned := []

/-- Whether a `try_send` succeeds. -/
def State.accepts (capacity : ℕ) (s : State Thread Command) : Bool :=
  s.pc ≠ .stopped && s.messages.length < capacity

def State.try_send (capacity : ℕ) (s : State Thread Command) (message : Message Command) :
    State Thread Command :=
  if s.accepts capacity then { s with messages := s.messages ++ [message] } else s

/-- The first message taken: a command is returned, after an `Intake` the flag
is to be cleared. -/
def State.take (s : State Thread Command) : Option (State Thread Command) :=
  match s.messages with
  | [] => none
  | .command c :: rest =>
    some { s with messages := rest, pc := .serving, returned := s.returned ++ [.command c] }
  | .intake :: rest => some { s with messages := rest, pc := .clear }

/-- The flag cleared, and an `Intake` returned. -/
def State.cleared (s : State Thread Command) : State Thread Command :=
  { s with woken := false, pc := .serving, returned := s.returned ++ [.intake] }

variable [DecidableEq Thread] (capacity : ℕ)

/-- **One step.** -/
def step (s : State Thread Command) : Action Thread Command → Option (State Thread Command)
  | .wake thread =>
    if thread ∈ s.waking then none
    else if s.woken then some s
    else some { s with woken := true, waking := thread :: s.waking }
  | .try_send thread =>
    if thread ∈ s.waking then
      some { s.try_send capacity .intake with waking := s.waking.erase thread }
    else none
  | .command command =>
    if s.accepts capacity then
      some { s.try_send capacity (.command command) with accepted := s.accepted ++ [command] }
    else some s
  | .receive timeout => if s.pc = .serving then some { s with pc := .try_recv timeout } else none
  | .try_recv =>
    match s.pc with
    | .try_recv timeout => some (s.take.getD { s with pc := .swap timeout })
    | _ => none
  | .swap =>
    match s.pc with
    | .swap timeout => some (if s.woken then s.cleared else { s with pc := .recv timeout })
    | _ => none
  | .recv =>
    match s.pc with
    | .recv timeout => some (s.take.getD { s with pc := .blocked timeout })
    | .blocked _ => s.take
    | _ => none
  | .timeout => if s.pc = .blocked true then some { s with pc := .serving } else none
  | .clear => if s.pc = .clear then some s.cleared else none
  -- the receiver is dropped, and what it had not taken with it
  | .stop => if s.pc = .serving then some { s with messages := [], pc := .stopped } else none

/-- A run. -/
def run (s : State Thread Command) (acts : List (Action Thread Command)) :
    Option (State Thread Command) :=
  Stepwise.run (step capacity) s acts

/-! ## What a step does -/

/-- **A step, by its effect.** -/
inductive Effect (s : State Thread Command) : Action Thread Command → State Thread Command → Prop
  | wakes {thread} : thread ∉ s.waking → s.woken = false →
    Effect s (.wake thread) { s with woken := true, waking := thread :: s.waking }
  | pending {thread} : s.woken = true → Effect s (.wake thread) s
  | sends {thread} : thread ∈ s.waking → s.accepts capacity = true →
    Effect s (.try_send thread)
      { s with messages := s.messages ++ [.intake], waking := s.waking.erase thread }
  | fails {thread} : thread ∈ s.waking → s.accepts capacity = false →
    Effect s (.try_send thread) { s with waking := s.waking.erase thread }
  | accepted {command} : s.accepts capacity = true →
    Effect s (.command command)
      { s with messages := s.messages ++ [.command command],
               accepted := s.accepted ++ [command] }
  | refused {command} : s.accepts capacity = false → Effect s (.command command) s
  | receive {timeout} : s.pc = .serving →
    Effect s (.receive timeout) { s with pc := .try_recv timeout }
  | takes_command {act command rest} : act = .try_recv ∨ act = .recv →
    s.messages = .command command :: rest → s.pc ≠ .stopped →
    Effect s act
      { s with messages := rest, pc := .serving, returned := s.returned ++ [.command command] }
  | takes_intake {act rest} : act = .try_recv ∨ act = .recv → s.messages = .intake :: rest →
    s.pc ≠ .clear → s.pc ≠ .stopped → Effect s act { s with messages := rest, pc := .clear }
  | empty {timeout} : s.pc = .try_recv timeout → s.messages = [] →
    Effect s .try_recv { s with pc := .swap timeout }
  | swaps {timeout} : s.pc = .swap timeout → s.woken = true → Effect s .swap s.cleared
  | unwoken {timeout} : s.pc = .swap timeout → s.woken = false →
    Effect s .swap { s with pc := .recv timeout }
  | blocks {timeout} : s.pc = .recv timeout → s.messages = [] →
    Effect s .recv { s with pc := .blocked timeout }
  | timeout : s.pc = .blocked true → Effect s .timeout { s with pc := .serving }
  | clear : s.pc = .clear → Effect s .clear s.cleared
  | stop : s.pc = .serving → Effect s .stop { s with messages := [], pc := .stopped }

variable {capacity}

variable {s t : State Thread Command} {act : Action Thread Command}

theorem take_effect
    (hact : act = .try_recv ∨ act = .recv) (hclear : s.pc ≠ .clear) (hstopped : s.pc ≠ .stopped)
    (h : s.take = some t) : Effect capacity s act t := by
  unfold State.take at h
  split at h
  case h_1 => cases h
  case h_2 hmessages =>
    cases h
    exact .takes_command hact hmessages hstopped
  case h_3 hmessages =>
    cases h
    exact .takes_intake hact hmessages hclear hstopped

omit [DecidableEq Thread] in
theorem take_eq_none (h : s.take = none) : s.messages = [] := by
  unfold State.take at h
  split at h
  case h_1 hmessages => exact hmessages
  case h_2 => cases h
  case h_3 => cases h

/-- A receive that finds the channel empty goes on to `pc`. -/
theorem getD_take_effect {pc : Pc}
    (hact : act = .try_recv ∨ act = .recv) (hclear : s.pc ≠ .clear) (hstopped : s.pc ≠ .stopped)
    (hempty : s.messages = [] → Effect capacity s act { s with pc := pc })
    (h : s.take.getD { s with pc := pc } = t) : Effect capacity s act t := by
  cases htake : s.take with
  | none =>
    rw [htake] at h
    subst h
    exact hempty (take_eq_none htake)
  | some u =>
    rw [htake] at h
    subst h
    exact take_effect hact hclear hstopped htake

theorem step_effect (h : step capacity s act = some t) : Effect capacity s act t := by
  cases act with
  | wake thread =>
    simp only [step] at h
    split_ifs at h with hmem hwoken
    · cases h
      exact .pending hwoken
    · cases h
      exact .wakes hmem (by simpa using hwoken)
  | try_send thread =>
    simp only [step, State.try_send] at h
    split_ifs at h with hmem haccepts
    · cases h
      exact .sends hmem haccepts
    · cases h
      exact .fails hmem (by simpa using haccepts)
  | command command =>
    simp only [step, State.try_send] at h
    split_ifs at h with haccepts
    · cases h
      exact .accepted haccepts
    · cases h
      exact .refused (by simpa using haccepts)
  | receive timeout =>
    simp only [step] at h
    split_ifs at h with hpc
    cases h
    exact .receive hpc
  | try_recv =>
    simp only [step] at h
    split at h
    case h_1 timeout hpc =>
      exact getD_take_effect (.inl rfl) (by simp [hpc]) (by simp [hpc]) (.empty hpc)
        (Option.some.inj h)
    case h_2 => cases h
  | swap =>
    simp only [step] at h
    split at h
    case h_1 timeout hpc =>
      split_ifs at h with hwoken
      · cases h
        exact .swaps hpc hwoken
      · cases h
        exact .unwoken hpc (by simpa using hwoken)
    case h_2 => cases h
  | recv =>
    simp only [step] at h
    split at h
    case h_1 timeout hpc =>
      exact getD_take_effect (.inr rfl) (by simp [hpc]) (by simp [hpc]) (.blocks hpc)
        (Option.some.inj h)
    case h_2 timeout hpc => exact take_effect (.inr rfl) (by simp [hpc]) (by simp [hpc]) h
    case h_3 => cases h
  | timeout =>
    simp only [step] at h
    split_ifs at h with hpc
    cases h
    exact .timeout hpc
  | clear =>
    simp only [step] at h
    split_ifs at h with hpc
    cases h
    exact .clear hpc
  | stop =>
    simp only [step] at h
    split_ifs at h with hpc
    cases h
    exact .stop hpc

end Ferret.Writer
