import Ferret.Find.Parse
import Ferret.Lib.Stateful

/-!
# What reading a primary leaves

Whatever a primary does to the state, it returns a leaf; the flag that
suppresses the implicit action is set exactly by the leaves that are actions;
a message, once there, stays; and no argument is put back. `Yields` says so of
a reader, and is proved of `primary` arm by arm, from what the readers of
operands keep.
-/

namespace Ferret.Find

open Stateful

variable {τ φ : Type} {host : Host τ φ}

namespace Expression

/-- The number of operators. -/
def operators : Expression τ φ → ℕ
  | .and left right => left.operators + right.operators + 1
  | .or left right => left.operators + right.operators + 1
  | .comma left right => left.operators + right.operators + 1
  | .not inner => inner.operators + 1
  | _ => 0

/-- The height of the tree. -/
def height : Expression τ φ → ℕ
  | .and left right => max left.height right.height + 1
  | .or left right => max left.height right.height + 1
  | .comma left right => max left.height right.height + 1
  | .not inner => inner.height + 1
  | _ => 1

/-- Whether a leaf is an explicit action; prune and quit are not. -/
def isAction : Expression τ φ → Bool
  | .print _ => true
  | .action _ => true
  | _ => false

/-- Whether an explicit action occurs anywhere. -/
def explicit (e : Expression τ φ) : Bool := e.visit isAction

/-- A tree is no higher than it has operators. -/
theorem height_le (e : Expression τ φ) : e.height ≤ e.operators + 1 := by
  induction e with
  | and left right hl hr | or left right hl hr | comma left right hl hr | not inner h =>
    simp only [height, operators]; omega
  | _ => exact le_rfl

end Expression

/-- A reader of an operand touches neither the flag of the actions nor the
message. -/
structure Frame (s s' : Seen) : Prop where
  action : s'.action = s.action
  message : s'.message = s.message
  rest : s'.rest.length ≤ s.rest.length

theorem Frame.trans {s s' s'' : Seen} (h : Frame s s') (h' : Frame s' s'') : Frame s s'' :=
  ⟨h'.action.trans h.action, h'.message.trans h.message, h'.rest.trans h.rest⟩

/-- What reading a primary leaves. -/
structure Leaf (s : Seen) (e : Expression τ φ) (s' : Seen) : Prop where
  operators : e.operators = 0
  action : s'.action = (s.action || e.explicit)
  message : s.message.isSome → s'.message.isSome
  rest : s'.rest.length ≤ s.rest.length

def Keeps {α : Type} (read : Read α) : Prop :=
  ∀ s a s', read s = .ok a s' → Frame s s'

def Yields (read : Read (Expression τ φ)) : Prop :=
  ∀ s e s', read s = .ok e s' → Leaf s e s'

/-! ## The constructs -/

variable {α : Type}

theorem Keeps.pure (a : α) : Keeps (pure a) := by
  intro s b s' h
  obtain ⟨-, rfl⟩ := pure_ok.mp h
  exact ⟨rfl, rfl, le_rfl⟩

variable (e : ParseError)

theorem Keeps.throw : Keeps (throw e : Read α) :=
  fun _ _ _ h => (throw_ok.mp h).elim

theorem Keeps.get : Keeps (get : Read Seen) := by
  intro s a s' h
  obtain ⟨-, rfl⟩ := get_ok.mp h
  exact ⟨rfl, rfl, le_rfl⟩

theorem Keeps.modify {f : Seen → Seen} (hf : ∀ s, Frame s (f s)) : Keeps (modify f) := by
  intro s a s' h
  rw [← modify_ok.mp h]
  exact hf s

theorem Keeps.bind {α β : Type} {x : Read α} {f : α → Read β} (hx : Keeps x)
    (hf : ∀ a, Keeps (f a)) : Keeps (x >>= f) := by
  intro s b s' h
  obtain ⟨a, s₁, h₁, h₂⟩ := bind_ok.mp h
  exact (hx s a s₁ h₁).trans (hf a s₁ b s' h₂)

theorem Keeps.ite {c : Prop} [Decidable c] {x y : Read α} (hx : Keeps x) (hy : Keeps y) :
    Keeps (if c then x else y) := by
  split
  · exact hx
  · exact hy

theorem Yields.leaf {e : Expression τ φ} (ho : e.operators = 0) (he : e.explicit = false) :
    Yields (pure e) := by
  intro s b s' h
  obtain ⟨rfl, rfl⟩ := pure_ok.mp h
  exact ⟨ho, by rw [he, Bool.or_false], id, le_rfl⟩

theorem Yields.throw : Yields (throw e : Read (Expression τ φ)) :=
  fun _ _ _ h => (throw_ok.mp h).elim

theorem Yields.bind {x : Read α} {f : α → Read (Expression τ φ)} (hx : Keeps x)
    (hf : ∀ a, Yields (f a)) : Yields (x >>= f) := by
  intro s e s' h
  obtain ⟨a, s₁, h₁, h₂⟩ := bind_ok.mp h
  have hframe := hx s a s₁ h₁
  have hleaf := hf a s₁ e s' h₂
  exact ⟨hleaf.operators, hframe.action ▸ hleaf.action, fun hm => hleaf.message (by
    rwa [hframe.message]), hleaf.rest.trans hframe.rest⟩

/-- Nothing follows a failure. -/
theorem Yields.throw_bind (f : α → Read (Expression τ φ)) :
    Yields ((MonadExcept.throw e : Read α) >>= f) := by
  intro s e' s' h
  obtain ⟨_, _, h, -⟩ := bind_ok.mp h
  exact (throw_ok.mp h).elim

theorem Yields.ite {c : Prop} [Decidable c] {x y : Read (Expression τ φ)} (hx : Yields x)
    (hy : Yields y) : Yields (if c then x else y) := by
  split
  · exact hx
  · exact hy

/-- A step that raises the flag, before a reader that returns an action. -/
theorem Yields.act {f : Seen → Seen} {x : Read (Expression τ φ)}
    (hf : ∀ s, (f s).action = true ∧ (f s).message = s.message ∧ (f s).rest = s.rest)
    (hx : Keeps x) (hact : ∀ s e s', x s = .ok e s' → e.operators = 0 ∧ e.explicit = true) :
    Yields (modify f >>= fun _ => x) := by
  intro s e s' h
  obtain ⟨_, s₁, h₁, h₂⟩ := bind_ok.mp h
  obtain rfl := modify_ok.mp h₁
  obtain ⟨haction, hmessage, hrest⟩ := hf s
  have hframe := hx _ e s' h₂
  obtain ⟨ho, he⟩ := hact _ e s' h₂
  exact ⟨ho, by rw [hframe.action, haction, he, Bool.or_true],
    fun hm => by rwa [hframe.message, hmessage], hrest ▸ hframe.rest⟩

theorem pure_acts {e : Expression τ φ} (ho : e.operators = 0) (he : e.explicit = true) :
    ∀ s e' s', (pure e : Read (Expression τ φ)) s = .ok e' s' →
      e'.operators = 0 ∧ e'.explicit = true := by
  intro s e' s' h
  obtain ⟨rfl, -⟩ := pure_ok.mp h
  exact ⟨ho, he⟩

/-- A setting is true and no action. It may ask for a message. -/
theorem Yields.setting {f : Seen → Seen}
    (hf : ∀ s, (f s).action = s.action ∧ (s.message.isSome → (f s).message.isSome)
      ∧ (f s).rest.length ≤ s.rest.length) :
    Yields (setting f : Read (Expression τ φ)) := by
  intro s e s' h
  obtain ⟨_, s₁, h₁, h₂⟩ := bind_ok.mp h
  obtain rfl := modify_ok.mp h₁
  obtain ⟨rfl, rfl⟩ := pure_ok.mp h₂
  obtain ⟨haction, hmessage, hrest⟩ := hf s
  exact ⟨rfl, by rw [haction]; exact (Bool.or_false _).symm, hmessage, hrest⟩

/-! ## The readers of operands -/

variable (p : Arg)

theorem argument_run (s : Seen) :
    argument p s = match s.rest with
      | [] => .error (.missing p) s
      | value :: rest => .ok value { s with rest := rest } := by
  obtain ⟨rest, _⟩ := s
  cases rest <;> rfl

theorem argument_keeps : Keeps (argument p) := by
  intro s a s' h
  rw [argument_run] at h
  cases hr : s.rest with
  | nil =>
    rw [hr] at h
    cases h
  | cons value rest =>
    rw [hr] at h
    cases h
    exact ⟨rfl, rfl, by rw [hr]; exact Nat.le_succ _⟩

theorem kinds_keeps (p value : Arg) : Keeps (kinds p value) := by
  unfold kinds
  split
  · exact .pure _
  · exact .throw _

theorem valid_yields (p value : Arg) (test : Option τ) :
    Yields (valid p value test : Read (Expression τ φ)) := by
  cases test with
  | some test => exact .leaf rfl rfl
  | none => exact .throw _

theorem unsupported_yields : Yields (unsupported p : Read (Expression τ φ)) :=
  .bind (.modify fun _ => ⟨rfl, rfl, le_rfl⟩) fun _ => .leaf rfl rfl

theorem supported_zone_keeps : Keeps (supported_zone host) := by
  unfold supported_zone
  split
  · exact .pure _
  · exact .throw _

theorem target_keeps : Keeps (target p) := by
  refine .bind (argument_keeps p) fun path => .ite (.pure _) ?_
  intro s t s' h
  obtain ⟨s₀, s₁, h₁, h₂⟩ := bind_ok.mp h
  obtain ⟨rfl, rfl⟩ := get_ok.mp h₁
  rcases ite_ok.mp h₂ with ⟨-, h⟩ | ⟨-, h⟩
  · exact Keeps.pure _ s t s' h
  · obtain ⟨_, s₁, h₁, h₂⟩ := bind_ok.mp h
    obtain rfl := set_ok.mp h₁
    obtain ⟨-, rfl⟩ := pure_ok.mp h₂
    exact ⟨rfl, rfl, le_rfl⟩

theorem format_keeps : Keeps (format host p) := by
  refine .bind (argument_keeps p) fun value => .bind (.modify fun _ => ⟨rfl, rfl, le_rfl⟩) fun _ => ?_
  split
  · exact .pure _
  · exact .throw _

theorem exec_spec_keeps (args : List Arg) (batch : Bool) :
    Keeps (exec_spec host p args batch) := by
  intro s c s' h
  unfold exec_spec at h
  rcases ite_ok.mp h with ⟨-, h⟩ | ⟨-, h⟩
  · exact (throw_ok.mp h).elim
  · obtain ⟨s₀, s₁, h₁, h₂⟩ := bind_ok.mp h
    obtain ⟨rfl, rfl⟩ := get_ok.mp h₁
    obtain ⟨_, s₁, h₁, h₂⟩ := bind_ok.mp h₂
    obtain rfl := set_ok.mp h₁
    obtain ⟨-, rfl⟩ := pure_ok.mp h₂
    exact ⟨rfl, rfl, le_rfl⟩

/-- A command ends within the arguments it is looked for in. -/
theorem execFrom_keeps (rest taken : List Arg) {s : Seen} (hrest : rest.length ≤ s.rest.length)
    {c : Exec} {s' : Seen} (h : execFrom host p taken rest s = .ok c s') : Frame s s' := by
  have hmove : ∀ {left : List Arg}, left.length ≤ s.rest.length → ∀ {args : List Arg} {batch : Bool},
      ((modify fun s => { s with rest := left }) >>= fun _ => exec_spec host p args batch) s
        = .ok c s' → Frame s s' := by
    intro left hleft args batch h
    obtain ⟨_, s₁, h₁, h₂⟩ := bind_ok.mp h
    obtain rfl := modify_ok.mp h₁
    have hframe := exec_spec_keeps p args batch _ c s' h₂
    exact ⟨hframe.action, hframe.message, hframe.rest.trans hleft⟩
  induction rest generalizing taken with
  | nil =>
    obtain ⟨_, _, _, h⟩ := bind_ok.mp h
    exact (throw_ok.mp h).elim
  | cons arg rest ih =>
    have hle : rest.length ≤ s.rest.length := (Nat.le_succ _).trans hrest
    rcases ite_ok.mp h with ⟨-, h⟩ | ⟨-, h⟩
    · rcases ite_ok.mp h with ⟨-, h⟩ | ⟨-, h⟩
      · obtain ⟨_, _, _, h⟩ := bind_ok.mp h
        exact ((throw_ok.mp (bind_ok.mp h).choose_spec.choose_spec.1)).elim
      · exact hmove hle h
    · rcases ite_ok.mp h with ⟨-, h⟩ | ⟨-, h⟩
      · rcases ite_ok.mp h with ⟨-, h⟩ | ⟨-, h⟩
        · obtain ⟨_, _, _, h⟩ := bind_ok.mp h
          exact ((throw_ok.mp (bind_ok.mp h).choose_spec.choose_spec.1)).elim
        · obtain ⟨_, s₁, h₁, h₂⟩ := bind_ok.mp h
          rcases ite_ok.mp h₂ with ⟨-, h⟩ | ⟨-, h⟩
          · exact (throw_ok.mp (bind_ok.mp h).choose_spec.choose_spec.1).elim
          · exact hmove hle (bind_ok.mpr ⟨(), s₁, h₁, h⟩)
      · exact ih (taken ++ [arg]) hle h

theorem exec_keeps : Keeps (exec host p) := by
  intro s c s' h
  obtain ⟨s₀, s₁, h₁, h₂⟩ := bind_ok.mp h
  obtain ⟨rfl, rfl⟩ := get_ok.mp h₁
  exact execFrom_keeps p s.rest [] le_rfl h₂

/-! ## Every primary -/

/-- The tail of an output primary, which raises the flag before it reads its
format. -/
theorem output_yields (file : Target) :
    Yields (do
      modify fun s => { s with action := true }
      if p = word "-fprintf" then return .action (.output file (← format host p))
      return .action (.output file (host.path_format (p = word "-fprint0")))
      : Read (Expression τ φ)) := by
  refine .act (fun _ => ⟨rfl, rfl, rfl⟩) (.ite (.bind (format_keeps p) fun _ => .pure _) (.pure _)) ?_
  intro s e s' h
  rcases ite_ok.mp h with ⟨-, h⟩ | ⟨-, h⟩
  · obtain ⟨_, _, _, h⟩ := bind_ok.mp h
    exact pure_acts rfl rfl _ e s' h
  · exact pure_acts rfl rfl _ e s' h

/-- `-newerXY`, once its stamps are known. -/
theorem newer_yields (x y : UInt8) :
    Yields (do
      let s ← get
      let value ← argument p
      let read := host.newer x y value (s.options.follow ≠ .physical) s.local_time
      modify fun s => { s with local_time := read.2 }
      if read.2 then supported_zone host
      valid p value read.1 : Read (Expression τ φ)) :=
  .bind .get fun _ => .bind (argument_keeps p) fun value =>
    .bind (.modify fun _ => ⟨rfl, rfl, le_rfl⟩) fun _ =>
      .ite (.bind supported_zone_keeps fun _ => valid_yields p value _) (valid_yields p value _)

theorem primary_yields : Yields (primary host p) := by
  unfold primary
  -- one arm of the source after the other
  refine .ite ?name <| .ite ?path <| .ite ?type <| .ite ?depthLimit <| .ite ?depth <| .ite ?xdev <|
    .ite (.leaf rfl rfl) <| .ite (.leaf rfl rfl) <| .ite ?prune <| .ite (.leaf rfl rfl) <|
    .ite ?print <| .ite ?exec <| .ite ?fls <| .ite ?fprintf <| .ite ?printf <| .ite ?ls <|
    .ite ?delete <| .ite ?follow <| .ite ?help <| .ite ?version <| .ite ?regex <| .ite ?lname <|
    .ite ?daystart <| .ite (.leaf rfl rfl) <| .ite ?context <| .ite ?regextype <| .ite ?xtype <|
    .ite ?perm <| .ite ?size <| .ite ?time <| .ite ?number <| .ite ?identity <|
    .ite (.leaf rfl rfl) <| .ite (.leaf rfl rfl) <| .ite (.leaf rfl rfl) <| .ite (.leaf rfl rfl) <|
    .ite (.leaf rfl rfl) <| .ite (.leaf rfl rfl) <| .ite ?fstype <| .ite ?samefile <|
    .ite ?newer <| .ite (.throw _) <| .ite (.throw _) (.throw _)
  case name => exact .bind (argument_keeps p) fun _ => .leaf rfl rfl
  case path =>
    refine .bind (argument_keeps p) fun _ => .ite ?_ (.leaf rfl rfl)
    exact .bind (.modify fun _ => ⟨rfl, rfl, le_rfl⟩) fun _ => .leaf rfl rfl
  case type =>
    exact .bind (argument_keeps p) fun _ => .bind (kinds_keeps p _) fun _ => .leaf rfl rfl
  case depthLimit =>
    refine .bind (argument_keeps p) fun value => ?_
    split
    · exact .throw _
    · exact .ite (.setting fun _ => ⟨rfl, id, le_rfl⟩) (.setting fun _ => ⟨rfl, id, le_rfl⟩)
  case depth | xdev => exact .setting fun _ => ⟨rfl, id, le_rfl⟩
  case prune => exact .bind (.modify fun _ => ⟨rfl, rfl, le_rfl⟩) fun _ => .leaf rfl rfl
  case print => exact .act (fun _ => ⟨rfl, rfl, rfl⟩) (.pure _) (pure_acts rfl rfl)
  case exec =>
    refine .bind (exec_keeps p) fun _ => ?_
    exact .act (fun _ => ⟨rfl, rfl, rfl⟩) (.pure _) (pure_acts rfl rfl)
  case fls =>
    refine .bind (target_keeps p) fun _ => ?_
    exact .act (fun _ => ⟨rfl, rfl, rfl⟩) (.pure _) (pure_acts rfl rfl)
  case fprintf => exact .bind (target_keeps p) fun file => output_yields p file
  case printf =>
    refine .bind (format_keeps p) fun _ => ?_
    exact .act (fun _ => ⟨rfl, rfl, rfl⟩) (.pure _) (pure_acts rfl rfl)
  case ls | delete => exact .act (fun _ => ⟨rfl, rfl, rfl⟩) (.pure _) (pure_acts rfl rfl)
  case follow => exact .setting fun _ => ⟨rfl, id, le_rfl⟩
  case help | version => exact .setting fun _ => ⟨rfl, fun _ => rfl, Nat.zero_le _⟩
  case regex =>
    refine .bind (argument_keeps p) fun value => .bind .get fun s => ?_
    split
    · exact .leaf rfl rfl
    · exact .throw _
  case lname => exact .bind (argument_keeps p) fun _ => .leaf rfl rfl
  case daystart => exact .setting fun _ => ⟨rfl, id, le_rfl⟩
  case context => exact .bind (argument_keeps p) fun _ => unsupported_yields p
  case regextype =>
    refine .bind (argument_keeps p) fun value => ?_
    split
    · exact .setting fun _ => ⟨rfl, id, le_rfl⟩
    · exact .throw _
  case xtype =>
    exact .bind (argument_keeps p) fun _ => .bind (kinds_keeps p _) fun _ => .leaf rfl rfl
  case perm =>
    refine .bind (argument_keeps p) fun value => .ite ?_ ?_
    · exact .throw_bind _ _
    · split
      · exact .throw _
      · exact .ite (.bind (.modify fun _ => ⟨rfl, rfl, le_rfl⟩) fun _ => .leaf rfl rfl) (.leaf rfl rfl)
  case size => exact .bind (argument_keeps p) fun _ => valid_yields p _ _
  case time => exact .bind .get fun _ => .bind (argument_keeps p) fun _ => valid_yields p _ _
  case number => exact .bind (argument_keeps p) fun _ => valid_yields p _ _
  case identity =>
    refine .bind (argument_keeps p) fun value => ?_
    split
    · exact .throw _
    · exact .leaf rfl rfl
  case fstype => exact .bind (argument_keeps p) fun _ => .leaf rfl rfl
  case samefile => exact .bind .get fun _ => .bind (argument_keeps p) fun _ => .leaf rfl rfl
  case newer =>
    split
    · exact .throw _
    · exact newer_yields p _ _

/-- The words of the grammar that are no primaries. -/
def operatorWords : List Arg :=
  [word "!", word "-not", word "(", word ")", word ",", word "-o", word "-or", word "-a",
    word "-and"]

/-- No operator is read as a primary. -/
theorem primary_operator {p : Arg} (hp : p ∈ operatorWords) (s : Seen) (e : Expression τ φ)
    (s' : Seen) : primary host p s ≠ .ok e s' := by
  simp only [operatorWords, List.mem_cons, List.not_mem_nil, or_false] at hp
  rcases hp with rfl | rfl | rfl | rfl | rfl | rfl | rfl | rfl | rfl <;> exact fun h => by cases h

end Ferret.Find
