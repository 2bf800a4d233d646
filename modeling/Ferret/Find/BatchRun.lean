import Ferret.Find.Batch
import Ferret.Lib.Tally

/-!
# Every path is in one command

A path that an action was evaluated for is at one place: an argument of a
command, or of a batch its task is to run, or in the shared batch, or in what
its task has staged or holds for a directory. For one task and one action these
are, in this order, the paths in the order of their evaluation (`Moves.line`).
From this every path is an argument once in the end (`batches_once`).
-/

namespace Ferret.Find.Batching

open List Function Option

variable {k : ℕ} {σ : Setting k} {s s' : State k}

/-- A path an action was evaluated for, as its command names it. -/
abbrev Item (k : ℕ) := Fin k × Option Text × Text

def Setting.item (σ : Setting k) (evaluated : Fin k × Text) : Item k :=
  (evaluated.1, σ.site evaluated.1 evaluated.2)

/-- The items of one action, in order. -/
def own (id : Fin k) (items : List (Item k)) : List (Item k) := items.filter fun item => item.1 = id

def Batch.items (batch : Batch k) : List (Item k) :=
  batch.paths.map fun path => (batch.id, batch.directory, path)

def Command.items (command : Command k) : List (Item k) :=
  command.paths.map fun path => (command.id, command.directory, path)

def Job.items : Job k → List (Item k)
  | collect _ => []
  | run batch => batch.items

def held (batch : Option (Batch k)) : List (Item k) := batch.elim [] Batch.items

/-- The items in commands. -/
def State.done (s : State k) : List (Item k) := s.commands.flatMap Command.items

/-- The items of an action that are with a task. -/
def Task.keeps (task : Task k) (id : Fin k) : List (Item k) :=
  own id (task.jobs.flatMap Job.items) ++ held (task.staged id) ++ held (task.batches id)

/-- The items of an action that are with a task or shared, in order. -/
def line (id : Fin k) (shared : Option (Batch k)) (task : Task k) : List (Item k) :=
  own id (task.jobs.flatMap Job.items) ++ held shared ++ held (task.staged id)
    ++ held (task.batches id)

/-! ## Items -/

@[simp]
theorem own_nil (id : Fin k) : own id [] = [] := rfl

@[simp]
theorem own_append (id : Fin k) (l l' : List (Item k)) : own id (l ++ l') = own id l ++ own id l' :=
  filter_append ..

variable {id : Fin k} {batch staged : Batch k} {task : Task k} {rest : List (Job k)} {t : ℕ}
  {more : List (Fin k × Text)}

theorem own_eq_self {l : List (Item k)} (h : ∀ item ∈ l, item.1 = id) : own id l = l :=
  filter_eq_self.mpr fun item hitem => decide_eq_true (h item hitem)

theorem own_eq_nil {l : List (Item k)} (h : ∀ item ∈ l, item.1 ≠ id) : own id l = [] :=
  filter_eq_nil_iff.mpr fun item hitem => by simpa using h item hitem

theorem mem_items {item : Item k} (h : item ∈ batch.items) : item.1 = batch.id := by
  obtain ⟨_, -, rfl⟩ := List.mem_map.mp h
  rfl

theorem own_items (h : batch.id = id) : own id batch.items = batch.items :=
  own_eq_self fun _ hitem => (mem_items hitem).trans h

theorem own_items_of_ne (h : batch.id ≠ id) : own id batch.items = [] :=
  own_eq_nil fun _ hitem heq => h ((mem_items hitem).symm.trans heq)

theorem add_items (batch : Batch k) (path : Text) :
    (batch.add path).items = batch.items ++ [(batch.id, batch.directory, path)] := by
  simp [Batch.add, Batch.items]

@[simp]
theorem new_items (id : Fin k) (directory : Option Text) : (Batch.new σ id directory).items = [] :=
  rfl

@[simp]
theorem emptied_items (batch : Batch k) : (batch.emptied σ).items = [] := rfl

theorem getD_items (batch : Option (Batch k)) (id : Fin k) (directory : Option Text) :
    (batch.getD (.new σ id directory)).items = held batch := by
  cases batch <;> rfl

theorem commands_items (batch : Batch k) : batch.commands.flatMap Command.items = batch.items := by
  unfold Batch.commands
  split_ifs with h
  · rw [Batch.items, h]
    rfl
  · exact append_nil _

/-! ## What is kept -/

/-- **A batch's bytes are those of its command**, which is in bounds if it has
more than one path. -/
structure Batch.Sound (σ : Setting k) (batch : Batch k) : Prop where
  bytes : batch.bytes = commandBytes (σ.exec batch.id).args + commandBytes batch.paths
  bounds : 1 < batch.paths.length → batch.bytes ≤ σ.limit.strings ∧
    batch.bytes + ((σ.exec batch.id).args.length + batch.paths.length + 1) * POINTER ≤ σ.limit.kernel

/-- A command of more than one path is as long as it may be. -/
def Command.Bounded (σ : Setting k) (command : Command k) : Prop :=
  1 < command.paths.length → commandBytes (command.args σ) ≤ σ.limit.strings ∧
    commandBytes (command.args σ) + ((command.args σ).length + 1) * POINTER ≤ σ.limit.kernel

/-- A staged or shared batch is of an action that runs in no directory of its own. -/
structure Batch.Common (σ : Setting k) (id : Fin k) (batch : Batch k) : Prop where
  same : batch.id = id
  plain : (σ.exec id).directory = false
  directory : batch.directory = σ.cwd

/-- What holds of a task. -/
structure Task.Kept (σ : Setting k) (task : Task k) : Prop where
  staged : ∀ id batch, task.staged id = some batch → batch.Common σ id
  batches : ∀ id batch, task.batches id = some batch →
    batch.id = id ∧ (σ.exec id).directory = true ∧ batch.Sound σ
  runs : ∀ batch, Job.run batch ∈ task.jobs → batch.Sound σ
  order : task.jobs.Pairwise fun first later =>
    ∀ id batch, first = .collect id → later = .run batch → batch.id ≠ id
  ended : task.ended = true → ∀ id,
    held (task.batches id) = [] ∧ (held (task.staged id) ≠ [] → .collect id ∈ task.jobs)

/-- **The invariant of a run.** -/
structure Invariant (σ : Setting k) (s : State k) : Prop where
  tasks : ∀ t, (s.task t).Kept σ
  shared : ∀ id batch, s.shared id = some batch → batch.Common σ id ∧ batch.Sound σ
  closing : ∀ batches, s.closing = some batches → (∀ batch ∈ batches, batch.Sound σ) ∧
    (∀ id, s.shared id = none) ∧ ∀ t < s.count, (s.task t).ended = true ∧ (s.task t).jobs = []
  commands : ∀ command ∈ s.commands, command.Bounded σ

/-! ## Batches that grow -/

theorem commandBytes_append (args more : List Text) :
    commandBytes (args ++ more) = commandBytes args + commandBytes more := by
  rw [commandBytes, map_append, sum_append]
  rfl

theorem new_sound (id : Fin k) (directory : Option Text) : (Batch.new σ id directory).Sound σ :=
  ⟨rfl, fun h => absurd h (by simp [Batch.new])⟩

theorem emptied_sound (batch : Batch k) : (batch.emptied σ).Sound σ :=
  ⟨rfl, fun h => absurd h (by simp [Batch.emptied])⟩

theorem not_full_iff {bytes : ℕ} :
    batch.full σ bytes = false ↔ batch.bytes + bytes ≤ σ.limit.strings ∧
      batch.bytes + bytes + ((σ.exec batch.id).args.length + batch.paths.length + 2) * POINTER
        ≤ σ.limit.kernel := by
  simp [Batch.full]

/-- A batch stays in bounds where the path fits, or is its first one. -/
theorem add_sound {path : Text} (h : batch.Sound σ)
    (hfits : batch.full σ (path.length + 1) = false ∨ batch.paths = []) :
    (batch.add path).Sound σ := by
  refine ⟨?_, fun hlength => ?_⟩
  · show batch.bytes + (path.length + 1) = _ + commandBytes (batch.paths ++ [path])
    rw [h.bytes, commandBytes_append, add_assoc]
    rfl
  · obtain hfits | hfirst := hfits
    · obtain ⟨hstrings, hkernel⟩ := not_full_iff.mp hfits
      refine ⟨hstrings, ?_⟩
      show batch.bytes + (path.length + 1)
        + ((σ.exec batch.id).args.length + (batch.paths ++ [path]).length + 1) * POINTER ≤ _
      rw [length_append]
      exact hkernel
    · exact absurd hlength (by simp [Batch.add, hfirst])

/-- A batch moved to another directory is none other. -/
theorem Batch.Sound.moved (h : batch.Sound σ) (directory : Option Text) :
    ({ batch with directory := directory } : Batch k).Sound σ := ⟨h.bytes, h.bounds⟩

/-- What is collected: the paths in order, each in a batch in bounds. -/
theorem collect_spec (hstaged : staged.Common σ id)
    (paths : List Text) {shared : Batch k} (hshared : shared.Common σ id) (hsound : shared.Sound σ) :
    (staged.collect σ paths shared).1.flatMap Batch.items ++ (staged.collect σ paths shared).2.items
        = shared.items ++ paths.map (fun path => (id, σ.cwd, path)) ∧
      (∀ batch ∈ (staged.collect σ paths shared).1, batch.id = id ∧ batch.Sound σ) ∧
      (staged.collect σ paths shared).2.Common σ id ∧
      (staged.collect σ paths shared).2.Sound σ := by
  induction paths generalizing shared with
  | nil =>
    exact ⟨(append_nil _).symm, nofun, hshared, hsound⟩
  | cons path _ ih =>
    rw [Batch.collect]
    by_cases hfull : shared.full σ (path.length + 1) = true
    · rw [if_pos hfull]
      have hfresh : ((Batch.new σ staged.id staged.directory).add path).Common σ id :=
        ⟨hstaged.same, hstaged.plain, hstaged.directory⟩
      obtain ⟨hitems, hready, hrest⟩ := ih hfresh (add_sound (new_sound _ _) (.inr rfl))
      refine ⟨?_, ?_, hrest⟩
      · rw [flatMap_cons, append_assoc, hitems, add_items, new_items, nil_append, map_cons]
        show _ ++ ([(staged.id, staged.directory, path)] ++ _) = _
        rw [hstaged.same, hstaged.directory]
        rfl
      · rintro batch (_ | ⟨_, hbatch⟩)
        · exact ⟨hshared.same, hsound⟩
        · exact hready batch hbatch
    · rw [if_neg hfull]
      have hadded : (shared.add path).Common σ id :=
        ⟨hshared.same, hshared.plain, hshared.directory⟩
      obtain ⟨hitems, hready, hrest⟩ := ih hadded
        (add_sound hsound (.inl (Bool.eq_false_iff.mpr hfull)))
      refine ⟨?_, hready, hrest⟩
      rw [hitems, add_items, append_assoc, map_cons, hshared.same, hshared.directory]
      rfl

/-! ## What a task begins -/

section Begins

variable {task : Task k} {id : Fin k} {path : Text} {shared : Option (Batch k)}

/-- An action without a directory of its own has no batch of one. -/
theorem Task.Kept.batches_eq_none (h : task.Kept σ) (hplain : (σ.exec id).directory = false) :
    task.batches id = none := by
  cases hbatch : task.batches id with
  | none => rfl
  | some batch =>
    rw [(h.batches id batch hbatch).2.1] at hplain
    cases hplain

/-- An action with a directory shares no batch and stages none. -/
theorem eq_none_of_common {batch : Option (Batch k)} (h : ∀ b, batch = some b → b.Common σ id)
    (hdir : (σ.exec id).directory = true) : batch = none := by
  cases batch with
  | none => rfl
  | some b =>
    rw [(h b rfl).plain] at hdir
    cases hdir

theorem own_item (id : Fin k) (path : Text) :
    own id [σ.item (id, path)] = [σ.item (id, path)] :=
  own_eq_self fun _ hitem => by rw [mem_singleton.mp hitem]; rfl

theorem own_item_of_ne {id' : Fin k} (hid : id ≠ id') (path : Text) :
    own id' [σ.item (id, path)] = [] :=
  own_eq_nil fun _ hitem => by rw [mem_singleton.mp hitem]; exact hid

theorem stage_line (h : task.Kept σ) (hjobs : task.jobs = [])
    (hplain : (σ.exec id).directory = false) (id' : Fin k) :
    line id' shared (task.stage σ id path)
      = line id' shared task ++ own id' [σ.item (id, path)] := by
  have hnone : (task.stage σ id path).jobs.flatMap Job.items = [] := by
    unfold Task.stage
    dsimp only
    split_ifs <;> rfl
  have hsite : σ.site id path = (σ.cwd, path) := by
    rw [Setting.site, if_neg (by rw [hplain]; exact Bool.false_ne_true)]
  rw [line, line, hnone, hjobs]
  show _ ++ held (Function.update task.staged id _ id') ++ held (task.batches id') = _
  by_cases hid : id = id'
  · subst hid
    rw [update_self, h.batches_eq_none hplain, own_item]
    have hbatch : ((task.staged id).getD (.new σ id (σ.site id path).1)).id = id
        ∧ ((task.staged id).getD (.new σ id (σ.site id path).1)).directory = σ.cwd := by
      cases hstaged : task.staged id with
      | none => exact ⟨rfl, by rw [hsite]; rfl⟩
      | some staged => exact ⟨(h.staged id staged hstaged).same, (h.staged id staged hstaged).directory⟩
    show _ ++ (Batch.add _ _).items ++ [] = _
    rw [add_items, getD_items, hbatch.1, hbatch.2, Setting.item, hsite]
    simp [held]
  · rw [update_of_ne (Ne.symm hid), own_item_of_ne hid, append_nil]
    rfl

theorem batchInDirectory_line (h : task.Kept σ) (hjobs : task.jobs = [])
    (hdir : (σ.exec id).directory = true) (id' : Fin k)
    (hshared : ∀ batch, shared = some batch → batch.Common σ id') :
    line id' shared (task.batchInDirectory σ id path)
      = line id' shared task ++ own id' [σ.item (id, path)] := by
  have hbatch : ((task.batches id).getD (.new σ id (σ.site id path).1)).id = id := by
    cases hbatches : task.batches id with
    | none => rfl
    | some batch => exact (h.batches id batch hbatches).1
  have hitems := getD_items (σ := σ) (task.batches id) id (σ.site id path).1
  rw [line, line, hjobs]
  unfold Task.batchInDirectory
  dsimp only
  generalize (task.batches id).getD (.new σ id (σ.site id path).1) = batch at hbatch hitems
  by_cases hid : id = id'
  · subst hid
    rw [eq_none_of_common hshared hdir, eq_none_of_common (h.staged id) hdir, own_item,
      update_self, ← hitems, Setting.item]
    split_ifs with hruns
    · show own id (batch.items ++ []) ++ [] ++ [] ++ (Batch.add _ _).items
        = [] ++ [] ++ [] ++ batch.items ++ _
      rw [append_nil batch.items, own_items hbatch, add_items]
      show _ ++ ([] ++ [(batch.id, _, _)]) = _
      rw [hbatch]
      simp
    · show [] ++ [] ++ [] ++ (Batch.add _ _).items = [] ++ [] ++ [] ++ batch.items ++ _
      rw [add_items]
      have hsame : batch.directory = (σ.site id path).1 := by
        by_contra hne
        exact hruns (.inl hne)
      show [] ++ [] ++ [] ++ (batch.paths.map (fun path' => (batch.id, (σ.site id path).1, path'))
        ++ [(batch.id, _, _)]) = _
      rw [← hsame, hbatch, Batch.items, hbatch, hsame]
      simp
  · rw [update_of_ne (Ne.symm hid), own_item_of_ne hid, append_nil]
    have hother : own id' batch.items = [] :=
      own_items_of_ne fun heq => hid (hbatch.symm.trans heq)
    split_ifs
    · simp [Job.items, hother]
    · rfl

/-- One member of a family of items by action. -/
theorem own_flatMap (g : Fin k → List (Item k)) (hg : ∀ id, ∀ item ∈ g id, item.1 = id)
    (id : Fin k) {ids : List (Fin k)} (hids : ids.Nodup) :
    own id (ids.flatMap g) = if id ∈ ids then g id else [] := by
  induction ids with
  | nil => rfl
  | cons first ids ih =>
    obtain ⟨hfirst, hids⟩ := nodup_cons.mp hids
    rw [flatMap_cons, own_append, ih hids]
    by_cases hid : id = first
    · subst hid
      rw [own_eq_self (hg id), if_neg hfirst, append_nil, if_pos (mem_cons_self ..)]
    · rw [own_eq_nil fun item hitem heq => hid (heq.symm.trans (hg first item hitem))]
      simp [hid]

theorem flatMap_held (ids : List (Fin k)) (f : Fin k → Option (Batch k)) :
    (ids.filterMap f).flatMap Batch.items = ids.flatMap fun id => held (f id) := by
  induction ids with
  | nil => rfl
  | cons id ids ih =>
    cases hid : f id with
    | none =>
      rw [filterMap_cons_none hid, ih, flatMap_cons, hid]
      rfl
    | some _ =>
      rw [filterMap_cons_some hid, flatMap_cons, ih, flatMap_cons, hid]
      rfl

theorem flatMap_runs (ids : List (Fin k)) (f : Fin k → Option (Batch k)) :
    (ids.filterMap fun id => (f id).map Job.run).flatMap Job.items
      = ids.flatMap fun id => held (f id) := by
  rw [← flatMap_held, ← map_filterMap, flatMap_map]
  rfl

variable {f : Fin k → Option (Batch k)}

/-- The items of one action among batches by action. -/
theorem own_held (hf : ∀ id batch, f id = some batch → batch.id = id) (id : Fin k) :
    own id ((List.finRange k).flatMap fun id => held (f id)) = held (f id) := by
  rw [own_flatMap _ _ _ (nodup_finRange k), if_pos (mem_finRange id)]
  intro id' item hitem
  cases hbatch : f id' with
  | none => rw [hbatch] at hitem; cases hitem
  | some batch =>
    rw [hbatch] at hitem
    exact (mem_items hitem).trans (hf id' batch hbatch)

theorem release_line (p : Batch k → Bool) (h : ∀ id batch, task.batches id = some batch →
      batch.id = id ∧ (σ.exec id).directory = true) (hstaged : ∀ id batch,
      task.staged id = some batch → batch.Common σ id)
    (hshared : ∀ batch, shared = some batch → batch.Common σ id) :
    line id shared (task.release σ p) = line id shared task := by
  have hmine : own id ((task.release σ p).jobs.flatMap Job.items)
      = own id (task.jobs.flatMap Job.items) ++ held ((task.batches id).filter p) := by
    show own id ((task.jobs ++ (List.finRange k).filterMap _).flatMap Job.items) = _
    rw [flatMap_append, own_append, flatMap_runs, own_held]
    intro id' batch hbatch
    exact (h id' batch (filter_eq_some_iff.mp hbatch).1).1
  rw [line, hmine, line]
  show _ ++ _ ++ held (task.staged id) ++ held ((task.batches id).map _) = _
  cases hbatch : task.batches id with
  | none => exact congrArg (· ++ _ ++ _ ++ _) (append_nil _)
  | some batch =>
    obtain ⟨-, hdir⟩ := h id batch hbatch
    rw [eq_none_of_common hshared hdir, eq_none_of_common (hstaged id) hdir]
    rw [filter_some]
    split_ifs with hp <;> simp [held, hp]

theorem update_some {batch : Batch k} {P : Fin k → Batch k → Prop}
    (hf : ∀ id b, f id = some b → P id b) (hbatch : P id batch) (id' : Fin k) (b : Batch k)
    (hb : Function.update f id (some batch) id' = some b) : P id' b := by
  by_cases hid : id' = id
  · subst hid
    rw [update_self] at hb
    cases hb
    exact hbatch
  · rw [update_of_ne hid] at hb
    exact hf id' b hb

theorem stage_kept (h : task.Kept σ) (hended : task.ended = false)
    (hplain : (σ.exec id).directory = false) : (task.stage σ id path).Kept σ := by
  have hsite : (σ.site id path).1 = σ.cwd := by
    rw [Setting.site, if_neg (by rw [hplain]; exact Bool.false_ne_true)]
  refine ⟨?_, h.batches, fun batch hrun => ?_, ?_, fun hquit => ?_⟩
  · refine update_some h.staged ?_
    cases hstaged : task.staged id with
    | none => exact ⟨rfl, hplain, hsite⟩
    | some staged =>
      exact ⟨(h.staged id staged hstaged).same, hplain, (h.staged id staged hstaged).directory⟩
  · unfold Task.stage at hrun
    dsimp only at hrun
    split_ifs at hrun
    · cases mem_singleton.mp hrun
    · cases hrun
  · unfold Task.stage
    dsimp only
    split_ifs
    · exact pairwise_singleton _ _
    · exact .nil
  · rw [show (task.stage σ id path).ended = task.ended from rfl, hended] at hquit
    cases hquit

theorem batchInDirectory_kept (h : task.Kept σ) (hended : task.ended = false)
    (hdir : (σ.exec id).directory = true) : (task.batchInDirectory σ id path).Kept σ := by
  have hbatch : ((task.batches id).getD (.new σ id (σ.site id path).1)).id = id ∧
      ((task.batches id).getD (.new σ id (σ.site id path).1)).Sound σ := by
    cases hbatches : task.batches id with
    | none => exact ⟨rfl, new_sound _ _⟩
    | some batch => exact ⟨(h.batches id batch hbatches).1, (h.batches id batch hbatches).2.2⟩
  unfold Task.batchInDirectory
  dsimp only
  generalize (task.batches id).getD (.new σ id (σ.site id path).1) = batch at hbatch
  obtain ⟨hid, hsound⟩ := hbatch
  refine ⟨h.staged, ?_, fun b hrun => ?_, ?_, fun hquit => ?_⟩
  · refine update_some h.batches ?_
    split_ifs with hruns
    · exact ⟨hid, hdir, add_sound ((emptied_sound batch).moved _) (.inr rfl)⟩
    · refine ⟨hid, hdir, add_sound (hsound.moved _) (.inl ?_)⟩
      exact Bool.eq_false_iff.mpr fun hfull => hruns (.inr hfull)
  · dsimp only at hrun
    split_ifs at hrun
    · cases mem_singleton.mp hrun
      exact hsound
    · cases hrun
  · split_ifs
    · exact pairwise_singleton _ _
    · exact .nil
  · dsimp only at hquit
    rw [hended] at hquit
    cases hquit

/-- Released batches are sound, and run after what was to be collected. -/
theorem release_kept (p : Batch k → Bool) (h : task.Kept σ)
    (hjobs : ∀ job ∈ task.jobs, ∃ id, job = .collect id ∧ (σ.exec id).directory = false)
    (hended : task.ended = false) : (task.release σ p).Kept σ := by
  have hreleased : ∀ job ∈ (List.finRange k).filterMap
      (fun id => ((task.batches id).filter p).map Job.run),
      ∃ batch, job = .run batch ∧ (σ.exec batch.id).directory = true ∧ batch.Sound σ := by
    intro job hjob
    obtain ⟨id, -, hjob⟩ := mem_filterMap.mp hjob
    obtain ⟨batch, hbatch, rfl⟩ := map_eq_some_iff.mp hjob
    obtain ⟨hid, hdir, hsound⟩ := h.batches id batch (filter_eq_some_iff.mp hbatch).1
    exact ⟨batch, rfl, by rw [hid]; exact hdir, hsound⟩
  refine ⟨h.staged, fun id batch hbatch => ?_, fun batch hrun => ?_, ?_, fun hquit => ?_⟩
  · obtain ⟨old, hold, rfl⟩ := map_eq_some_iff.mp hbatch
    obtain ⟨hid, hdir, hsound⟩ := h.batches id old hold
    split_ifs
    · exact ⟨hid, hdir, emptied_sound old⟩
    · exact ⟨hid, hdir, hsound⟩
  · obtain hrun | hrun := mem_append.mp hrun
    · obtain ⟨id, hcollect, -⟩ := hjobs _ hrun
      cases hcollect
    · obtain ⟨batch', heq, -, hsound⟩ := hreleased _ hrun
      cases heq
      exact hsound
  · refine pairwise_append.mpr ⟨h.order, ?_, fun first hfirst later hlater => ?_⟩
    · refine pairwise_of_forall_mem_list fun first hfirst later _ id batch hcollect _ => ?_
      obtain ⟨batch', heq, -⟩ := hreleased _ hfirst
      rw [heq] at hcollect
      cases hcollect
    · rintro id batch rfl rfl hsame
      obtain ⟨_, hcollect, hplain⟩ := hjobs _ hfirst
      obtain ⟨batch', heq, hdir, -⟩ := hreleased _ hlater
      cases hcollect
      cases heq
      rw [hsame, hplain] at hdir
      cases hdir
  · rw [show (task.release σ p).ended = task.ended from rfl, hended] at hquit
    cases hquit

/-- A task that is to collect everything first. -/
def Task.collecting (task : Task k) : Task k :=
  { task with
    jobs := task.jobs ++
      (List.finRange k).filterMap fun id => (task.staged id).map fun _ => Job.collect id }

theorem collecting_jobs (h : task.Kept σ) (hjobs : task.jobs = []) :
    ∀ job ∈ task.collecting.jobs, ∃ id, job = .collect id ∧ (σ.exec id).directory = false := by
  intro job hjob
  rw [Task.collecting, hjobs, nil_append] at hjob
  obtain ⟨id, -, hjob⟩ := mem_filterMap.mp hjob
  obtain ⟨staged, hstaged, rfl⟩ := map_eq_some_iff.mp hjob
  exact ⟨id, rfl, (h.staged id staged hstaged).plain⟩

theorem mem_collecting {staged : Batch k} (hstaged : task.staged id = some staged) :
    Job.collect id ∈ task.collecting.jobs :=
  mem_append_right _ (mem_filterMap.mpr ⟨id, mem_finRange id, by rw [hstaged]; rfl⟩)

theorem collecting_kept (h : task.Kept σ) (hjobs : task.jobs = []) (hended : task.ended = false) :
    task.collecting.Kept σ := by
  have hcollects := collecting_jobs h hjobs
  refine ⟨h.staged, h.batches, fun batch hrun => ?_, ?_, fun hquit => ?_⟩
  · obtain ⟨id, heq, -⟩ := hcollects _ hrun
    cases heq
  · refine pairwise_of_forall_mem_list fun first _ later hlater id batch _ hrun => ?_
    obtain ⟨id, heq, -⟩ := hcollects _ hlater
    rw [heq] at hrun
    cases hrun
  · rw [show task.collecting.ended = task.ended from rfl, hended] at hquit
    cases hquit

theorem collecting_line (h : task.Kept σ) (hjobs : task.jobs = []) :
    line id shared task.collecting = line id shared task := by
  have hnone : task.collecting.jobs.flatMap Job.items = [] := by
    refine flatMap_eq_nil_iff.mpr fun job hjob => ?_
    obtain ⟨id, rfl, -⟩ := collecting_jobs h hjobs job hjob
    rfl
  rw [line, line, hnone, hjobs]
  rfl

theorem flush_kept (directoriesOnly : Bool) (h : task.Kept σ) (hjobs : task.jobs = [])
    (hended : task.ended = false) : (task.flush σ directoriesOnly).Kept σ := by
  cases directoriesOnly with
  | true =>
    have hnone : ∀ job ∈ task.jobs, ∃ id, job = .collect id ∧ (σ.exec id).directory = false := by
      rw [hjobs]
      exact nofun
    exact release_kept _ h hnone hended
  | false => exact release_kept _ (collecting_kept h hjobs hended) (collecting_jobs h hjobs) hended

theorem flush_line (directoriesOnly : Bool) (h : task.Kept σ) (hjobs : task.jobs = [])
    (hshared : ∀ batch, shared = some batch → batch.Common σ id) :
    line id shared (task.flush σ directoriesOnly) = line id shared task := by
  have hbatches : ∀ id batch, task.batches id = some batch →
      batch.id = id ∧ (σ.exec id).directory = true := fun id batch hbatch =>
    ⟨(h.batches id batch hbatch).1, (h.batches id batch hbatch).2.1⟩
  cases directoriesOnly with
  | true => exact release_line _ hbatches h.staged hshared
  | false =>
    rw [← collecting_line h hjobs]
    have hline : ∀ p, line id shared (task.collecting.release σ p)
        = line id shared task.collecting := fun p => release_line p hbatches h.staged hshared
    exact hline _

/-- A task that ends has nothing left but what it is to collect or run. -/
theorem finish_kept (h : task.Kept σ) (hjobs : task.jobs = []) (hended : task.ended = false) :
    ({ task.flush σ false with ended := true } : Task k).Kept σ := by
  obtain ⟨hstaged, hbatches, hruns, horder, -⟩ := flush_kept false h hjobs hended
  refine ⟨hstaged, hbatches, hruns, horder, fun _ id => ⟨?_, fun hheld => ?_⟩⟩
  · show held ((task.batches id).map _) = []
    cases task.batches id <;> rfl
  · refine mem_append_left _ ?_
    cases hbatch : task.staged id with
    | none => exact absurd (by rw [show (task.flush σ false).staged id = none from hbatch]; rfl) hheld
    | some _ => exact mem_collecting hbatch

end Begins

/-! ## What a task has begun -/

theorem line_jobs (id : Fin k) (shared : Option (Batch k)) (task : Task k) (batch : Batch k)
    (rest : List (Job k)) (hjobs : task.jobs = .run batch :: rest) (errors : ℕ) :
    own id batch.items ++ line id shared { task with jobs := rest, errors := errors }
      = line id shared task := by
  rw [line, line, hjobs, flatMap_cons, own_append]
  simp only [append_assoc]
  rfl

theorem rest_kept {job : Job k} (h : task.Kept σ) (hjobs : task.jobs = job :: rest) (errors : ℕ)
    (hdone : ∀ id, job = .collect id → held (task.staged id) = []) :
    ({ task with jobs := rest, errors := errors } : Task k).Kept σ := by
  have horder := h.order
  rw [hjobs] at horder
  refine ⟨h.staged, h.batches, fun batch hrun => h.runs batch ?_, (pairwise_cons.mp horder).2,
    fun hquit id => ⟨(h.ended hquit id).1, fun hheld => ?_⟩⟩
  · rw [hjobs]
    exact .tail _ hrun
  · have hmem := (h.ended hquit id).2 hheld
    rw [hjobs] at hmem
    obtain heq | hmem := mem_cons.mp hmem
    · exact absurd (hdone id heq.symm) hheld
    · exact hmem

/-! ## One step -/

/-- **What one task's step does**: it evaluates this, and the action's items stay
in line. -/
structure Moves (σ : Setting k) (t : ℕ) (more : List (Fin k × Text)) (s s' : State k) :
    Prop where
  lt : t < s.count
  task : s'.task = Function.update s.task t (s'.task t)
  count : s'.count = s.count
  evaluated : s'.evaluated = s.evaluated ++ more
  line : ∀ id, own id s'.done ++ line id (s'.shared id) (s'.task t)
    = own id s.done ++ line id (s.shared id) (s.task t) ++ own id (more.map σ.item)
  opened : s.closing = none
  still : s'.closing = none

theorem Batch.Sound.commands (h : batch.Sound σ) :
    ∀ command ∈ batch.commands, command.Bounded σ := by
  intro command hcommand hlength
  unfold Batch.commands at hcommand
  split_ifs at hcommand
  · cases hcommand
  · cases mem_singleton.mp hcommand
    obtain ⟨hstrings, hkernel⟩ := h.bounds hlength
    rw [h.bytes] at hstrings hkernel
    have hargs : commandBytes (Command.args σ ⟨batch.id, batch.directory, batch.paths⟩)
        = commandBytes (σ.exec batch.id).args + commandBytes batch.paths :=
      commandBytes_append _ _
    rw [hargs]
    refine ⟨hstrings, ?_⟩
    rw [Command.args, length_append]
    exact hkernel

theorem Invariant.closing_eq_none (h : Invariant σ s) (ht : t < s.count)
    (hbusy : (s.task t).ended = true → (s.task t).jobs ≠ []) : s.closing = none := by
  cases hclosing : s.closing with
  | none => rfl
  | some batches =>
    obtain ⟨-, -, hended⟩ := h.closing batches hclosing
    exact absurd (hended t ht).2 (hbusy (hended t ht).1)

/-- A task that begins something. -/
theorem change_moves (h : Invariant σ s) {f : Task k → Task k} {s₁ : State k}
    (hchange : s.change t f = some s₁) (evaluated : List (Fin k × Text))
    (hf : (s.task t).Kept σ → (s.task t).jobs = [] → (s.task t).ended = false →
      (f (s.task t)).Kept σ ∧ ∀ id, line id (s.shared id) (f (s.task t))
        = line id (s.shared id) (s.task t) ++ own id (evaluated.map σ.item)) :
    Moves σ t evaluated s { s₁ with evaluated := s.evaluated ++ evaluated } ∧
      Invariant σ { s₁ with evaluated := s.evaluated ++ evaluated } := by
  unfold State.change at hchange
  split_ifs at hchange with hmay
  cases hchange
  obtain ⟨ht, hfree⟩ := hmay
  rw [Task.free, Bool.and_eq_true, Bool.not_eq_true', List.isEmpty_iff] at hfree
  obtain ⟨hended, hjobs⟩ := hfree
  obtain ⟨hkept, hline⟩ := hf (h.tasks t) hjobs hended
  have hopen : s.closing = none :=
    h.closing_eq_none ht fun hquit => by rw [hended] at hquit; cases hquit
  have hself : Function.update s.task t (f (s.task t)) t = f (s.task t) := Function.update_self ..
  refine ⟨⟨ht, ?_, rfl, rfl, fun id => ?_, hopen, hopen⟩, ⟨fun u => ?_, h.shared, ?_, h.commands⟩⟩
  · show Function.update s.task t _ = Function.update s.task t (Function.update s.task t _ t)
    rw [hself]
  · show own id s.done ++ line id (s.shared id) (Function.update s.task t _ t) = _
    rw [hself, hline, append_assoc]
  · show (Function.update s.task t _ u).Kept σ
    by_cases hu : u = t
    · subst hu
      rw [hself]
      exact hkept
    · rw [Function.update_of_ne hu]
      exact h.tasks u
  · intro batches hclosing
    rw [show s.closing = some batches from hclosing] at hopen
    cases hopen

/-- A task that collects or runs a batch. -/
theorem work_invariant (h : Invariant σ s) (hopen : s.closing = none)
    (htask : s'.task = Function.update s.task t (s'.task t)) (hkept : (s'.task t).Kept σ)
    (hshared : ∀ id batch, s'.shared id = some batch → batch.Common σ id ∧ batch.Sound σ)
    (hclosing : s'.closing = s.closing)
    (hcommands : ∀ command ∈ s'.commands, command ∈ s.commands ∨ command.Bounded σ) :
    Invariant σ s' := by
  refine ⟨fun u => ?_, hshared, fun batches hbatches => ?_, fun command hcommand => ?_⟩
  · by_cases hu : u = t
    · subst hu
      exact hkept
    · rw [htask, update_of_ne hu]
      exact h.tasks u
  · rw [hclosing, hopen] at hbatches
    cases hbatches
  · exact (hcommands command hcommand).elim (h.commands command) id

theorem run_moves (h : Invariant σ s) (ht : t < s.count)
    (hjobs : (s.task t).jobs = .run batch :: rest) (success : Bool) :
    Moves σ t [] s (s.runBatch t batch success rest) ∧
      Invariant σ (s.runBatch t batch success rest) := by
  have hopen : s.closing = none :=
    h.closing_eq_none ht fun _ => by rw [hjobs]; exact nofun
  have hself : (s.runBatch t batch success rest).task t
      = { s.task t with jobs := rest, errors := (s.task t).errors + batch.failed success } :=
    update_self ..
  have htask : (s.runBatch t batch success rest).task
      = Function.update s.task t ((s.runBatch t batch success rest).task t) := by
    rw [hself]
    rfl
  have hsound : batch.Sound σ := (h.tasks t).runs batch (by rw [hjobs]; exact .head _)
  refine ⟨⟨ht, htask, rfl, (append_nil _).symm, fun id => ?_, hopen, hopen⟩,
    work_invariant h hopen htask ?_ h.shared rfl fun command hcommand => ?_⟩
  · have hdone : (s.runBatch t batch success rest).done = s.done ++ batch.items := by
      show (s.commands ++ batch.commands).flatMap Command.items = _
      rw [flatMap_append, commands_items]
      rfl
    rw [hdone, own_append, hself, append_assoc]
    rw [← line_jobs id (s.shared id) (s.task t) batch rest hjobs]
    exact (append_nil _).symm
  · rw [hself]
    exact rest_kept (h.tasks t) hjobs _ nofun
  · obtain hold | hnew := mem_append.mp hcommand
    · exact .inl hold
    · exact .inr (hsound.commands command hnew)

/-- A task that has nothing staged to collect. -/
theorem skip_moves (h : Invariant σ s) (ht : t < s.count)
    (hjobs : (s.task t).jobs = .collect id :: rest) (hnone : held ((s.task t).staged id) = []) :
    Moves σ t [] s (s.set t { s.task t with jobs := rest }) ∧
      Invariant σ (s.set t { s.task t with jobs := rest }) := by
  have hopen : s.closing = none :=
    h.closing_eq_none ht fun _ => by rw [hjobs]; exact nofun
  have hself : (s.set t { s.task t with jobs := rest }).task t = { s.task t with jobs := rest } :=
    update_self ..
  have htask : (s.set t { s.task t with jobs := rest }).task
      = Function.update s.task t ((s.set t { s.task t with jobs := rest }).task t) := by
    rw [hself]
    rfl
  refine ⟨⟨ht, htask, rfl, (append_nil _).symm, fun id' => ?_, hopen, hopen⟩,
    work_invariant h hopen htask ?_ h.shared rfl fun command hcommand => .inl hcommand⟩
  · rw [hself, map_nil, own_nil, append_nil, line, line, hjobs]
    rfl
  · rw [hself]
    refine rest_kept (h.tasks t) hjobs (s.task t).errors fun id' hcollect => ?_
    cases hcollect
    exact hnone

/-- Collected paths stay in line: they are of one action, and no other batch of
it is to run. -/
theorem collected_line (hkept : task.Kept σ)
    (hjobs : task.jobs = .collect id :: rest) {shared shared' : Batch k}
    (hstaged : task.staged id = some staged) {sharing : Fin k → Option (Batch k)}
    (hshared : shared.items = held (sharing id)) {ready : List (Batch k)}
    (hready : ∀ batch ∈ ready, batch.id = id)
    (hitems : ready.flatMap Batch.items ++ shared'.items = shared.items ++ staged.items) (id' : Fin k) :
    line id' (Function.update sharing id (some shared') id')
        { task with
          staged := Function.update task.staged id (some (staged.emptied σ))
          jobs := ready.map .run ++ rest }
      = line id' (sharing id') task := by
  have hmine : ∀ item ∈ ready.flatMap Batch.items, item.1 = id := by
    intro item hitem
    obtain ⟨batch, hbatch, hitem⟩ := mem_flatMap.mp hitem
    exact (mem_items hitem).trans (hready batch hbatch)
  have hruns : (ready.map Job.run).flatMap Job.items = ready.flatMap Batch.items := by
    rw [flatMap_map]
    rfl
  rw [line, line, hjobs]
  dsimp only
  rw [flatMap_append, own_append, hruns]
  by_cases hid : id = id'
  · subst hid
    have hrest : own id (rest.flatMap Job.items) = [] := by
      have horder := hkept.order
      rw [hjobs] at horder
      refine own_eq_nil fun item hitem => ?_
      obtain ⟨job, hjob, hitem⟩ := mem_flatMap.mp hitem
      cases job with
      | collect id' => cases hitem
      | run batch =>
        rw [mem_items hitem]
        exact (pairwise_cons.mp horder).1 _ hjob id batch rfl rfl
    have hempty : own id ((Job.collect id :: rest).flatMap Job.items) = [] := hrest
    rw [update_self, update_self, hempty, hrest, own_eq_self hmine, hstaged, ← hshared]
    show ready.flatMap Batch.items ++ [] ++ shared'.items ++ [] ++ held (task.batches id)
      = [] ++ shared.items ++ staged.items ++ held (task.batches id)
    rw [append_nil, append_nil, hitems, nil_append]
  · rw [update_of_ne (Ne.symm hid), update_of_ne (Ne.symm hid),
      own_eq_nil fun item hitem heq => hid ((hmine item hitem).symm.trans heq)]
    rfl

theorem collected_kept (hkept : task.Kept σ)
    (hjobs : task.jobs = .collect id :: rest) (hstaged : staged.Common σ id)
    {ready : List (Batch k)} (hready : ∀ batch ∈ ready, batch.Sound σ) :
    ({ task with
        staged := Function.update task.staged id (some (staged.emptied σ))
        jobs := ready.map .run ++ rest } : Task k).Kept σ := by
  have horder := hkept.order
  rw [hjobs] at horder
  have hruns : ∀ job ∈ ready.map Job.run, ∀ id, job ≠ .collect id := by
    rintro job hjob id rfl
    obtain ⟨batch, -, heq⟩ := List.mem_map.mp hjob
    cases heq
  refine ⟨update_some hkept.staged ⟨hstaged.same, hstaged.plain, hstaged.directory⟩,
    hkept.batches, fun batch hrun => ?_, ?_, fun hquit id' => ⟨(hkept.ended hquit id').1, ?_⟩⟩
  · obtain hrun | hrun := mem_append.mp hrun
    · obtain ⟨_, hbatch, heq⟩ := List.mem_map.mp hrun
      cases heq
      exact hready _ hbatch
    · exact hkept.runs batch (by rw [hjobs]; exact .tail _ hrun)
  · refine pairwise_append.mpr ⟨?_, (pairwise_cons.mp horder).2,
      fun first hfirst _ _ id' _ hcollect _ => absurd hcollect (hruns first hfirst id')⟩
    exact pairwise_of_forall_mem_list fun first hfirst _ _ id' _ hcollect _ =>
      absurd hcollect (hruns first hfirst id')
  · dsimp only
    intro hheld
    by_cases hid : id' = id
    · subst hid
      rw [update_self] at hheld
      exact absurd rfl hheld
    · rw [update_of_ne hid] at hheld
      have hmem := (hkept.ended hquit id').2 hheld
      rw [hjobs] at hmem
      obtain heq | hmem := mem_cons.mp hmem
      · cases heq
        exact absurd rfl hid
      · exact mem_append_right _ hmem

/-- A task that collects what it staged. -/
theorem collect_moves (h : Invariant σ s) (ht : t < s.count)
    (hjobs : (s.task t).jobs = .collect id :: rest) :
    Moves σ t [] s (s.collect σ t id rest) ∧ Invariant σ (s.collect σ t id rest) := by
  unfold State.collect
  cases hstaged : (s.task t).staged id with
  | none => exact skip_moves h ht hjobs (by rw [hstaged]; rfl)
  | some staged =>
    dsimp only
    by_cases hpaths : staged.paths = []
    · rw [if_pos hpaths]
      refine skip_moves h ht hjobs ?_
      rw [hstaged]
      show staged.paths.map _ = []
      rw [hpaths]
      rfl
    rw [if_neg hpaths]
    have hkept := h.tasks t
    have hcommon := hkept.staged id staged hstaged
    have hshared : ((s.shared id).getD (.new σ id staged.directory)).Common σ id ∧
        ((s.shared id).getD (.new σ id staged.directory)).Sound σ := by
      cases hold : s.shared id with
      | none => exact ⟨⟨rfl, hcommon.plain, hcommon.directory⟩, new_sound _ _⟩
      | some shared => exact h.shared id shared hold
    have hitems := getD_items (σ := σ) (s.shared id) id staged.directory
    generalize (s.shared id).getD (.new σ id staged.directory) = shared at hshared hitems
    obtain ⟨hline, hready, hnew, hsound⟩ :=
      collect_spec hcommon staged.paths hshared.1 hshared.2
    generalize staged.collect σ staged.paths shared = collected at hline hready hnew hsound
    have hold : staged.items = staged.paths.map fun path => (id, σ.cwd, path) := by
      rw [Batch.items, hcommon.same, hcommon.directory]
    rw [← hold] at hline
    have hopen : s.closing = none :=
      h.closing_eq_none ht fun _ => by rw [hjobs]; exact nofun
    have hself : ∀ task : Task k, Function.update s.task t task t = task := fun _ =>
      update_self ..
    refine ⟨⟨ht, ?_, rfl, (append_nil _).symm, fun id' => ?_, hopen, hopen⟩,
      work_invariant (t := t) h hopen ?_ ?_ (update_some h.shared ⟨hnew, hsound⟩) rfl
        fun command hcommand => .inl hcommand⟩
    · show Function.update s.task t _ = Function.update s.task t (Function.update s.task t _ t)
      rw [hself]
    · show own id' s.done ++ line id' (Function.update s.shared id (some collected.2) id')
        (Function.update s.task t _ t) = _
      rw [hself, map_nil, own_nil, append_nil,
        collected_line hkept hjobs hstaged hitems (fun b hb => (hready b hb).1) hline]
    · show Function.update s.task t _ = Function.update s.task t (Function.update s.task t _ t)
      rw [hself]
    · show (Function.update s.task t _ t).Kept σ
      rw [hself]
      exact collected_kept hkept hjobs hcommon fun b hb => (hready b hb).2

/-- What a step does that is no task's own. -/
inductive Apart (s s' : State k) : Prop
  | lend (h : s' = { s.set s.count .new with count := s.count + 1 }) (hopen : s.closing = none)
  | close (hopen : s.closing = none)
      (hended : ∀ t < s.count, (s.task t).ended = true ∧ (s.task t).jobs = [])
      (h : s' = { s with
        shared := fun _ => none
        closing := some ((List.finRange k).filterMap s.shared) })
  | last (batch : Batch k) (rest : List (Batch k)) (success : Bool)
      (hclosing : s.closing = some (batch :: rest))
      (h : s' = { s with
        closing := some rest
        commands := s.commands ++ batch.commands
        errors := s.errors + batch.failed success })

/-- **A step is a task's own**, or one of three that are not. -/
theorem step_cases (h : Invariant σ s) {act : Act k} (hstep : s.step σ act = some s') :
    (∃ t more, Moves σ t more s s' ∧ Invariant σ s') ∨ Apart s s' := by
  have hquiet : ∀ t f, s.change t f = some s' →
      ((s.task t).Kept σ → (s.task t).jobs = [] → (s.task t).ended = false →
        (f (s.task t)).Kept σ ∧
          ∀ id, line id (s.shared id) (f (s.task t)) = line id (s.shared id) (s.task t)) →
      (∃ t more, Moves σ t more s s' ∧ Invariant σ s') ∨ Apart s s' := by
    intro t f hchange hf
    have hsame : ({ s' with evaluated := s.evaluated ++ [] } : State k) = s' := by
      unfold State.change at hchange
      split_ifs at hchange
      cases hchange
      rw [append_nil]
      rfl
    obtain ⟨hmoves, hinvariant⟩ := change_moves h hchange [] fun hkept hjobs hended => by
      obtain ⟨hkept', hline⟩ := hf hkept hjobs hended
      refine ⟨hkept', fun id => ?_⟩
      rw [hline, map_nil, own_nil, append_nil]
    rw [hsame] at hmoves hinvariant
    exact .inl ⟨t, [], hmoves, hinvariant⟩
  have hcommon : ∀ id batch, s.shared id = some batch → batch.Common σ id :=
    fun id batch hbatch => (h.shared id batch hbatch).1
  cases act with
  | evaluate t id path =>
    obtain ⟨_, hchange, rfl⟩ := map_eq_some_iff.mp hstep
    obtain ⟨hmoves, hinvariant⟩ := change_moves h hchange [(id, path)] fun hkept hjobs hended => by
      unfold Task.execute
      split_ifs with hdir
      · exact ⟨batchInDirectory_kept hkept hended hdir,
          fun id' => batchInDirectory_line hkept hjobs hdir id' (hcommon id')⟩
      · have hplain := Bool.eq_false_iff.mpr hdir
        exact ⟨stage_kept hkept hended hplain, fun id' => stage_line hkept hjobs hplain id'⟩
    exact .inl ⟨t, _, hmoves, hinvariant⟩
  | enter t path =>
    refine hquiet t _ hstep fun hkept hjobs hended => ⟨?_, fun id => ?_⟩
    · refine release_kept _ hkept ?_ hended
      rw [hjobs]
      exact nofun
    · exact release_line _ (fun id b hb => ⟨(hkept.batches id b hb).1, (hkept.batches id b hb).2.1⟩)
        hkept.staged (hcommon id)
  | descend t | park t =>
    exact hquiet t _ hstep fun hkept hjobs hended =>
      ⟨flush_kept _ hkept hjobs hended, fun id => flush_line _ hkept hjobs (hcommon id)⟩
  | finish t =>
    exact hquiet t (fun task => { task.flush σ false with ended := true }) hstep fun hkept hjobs hended =>
      ⟨finish_kept hkept hjobs hended, fun id => flush_line _ hkept hjobs (hcommon id)⟩
  | lend t =>
    simp only [State.step] at hstep
    split_ifs at hstep with hmay
    cases hstep
    refine .inr (.lend rfl (h.closing_eq_none hmay.1 fun hquit => ?_))
    rw [Task.free, hquit] at hmay
    exact absurd hmay.2 nofun
  | work t success =>
    simp only [State.step] at hstep
    split_ifs at hstep with ht
    cases hjobs : (s.task t).jobs with
    | nil =>
      rw [hjobs] at hstep
      cases hstep
    | cons job rest =>
      rw [hjobs] at hstep
      cases job with
      | collect id =>
        cases hstep
        exact .inl ⟨t, [], collect_moves h ht hjobs⟩
      | run batch =>
        cases hstep
        exact .inl ⟨t, [], run_moves h ht hjobs success⟩
  | close =>
    simp only [State.step] at hstep
    split_ifs at hstep with hmay
    cases hstep
    exact .inr (.close hmay.1 hmay.2 rfl)
  | last success =>
    cases hclosing : s.closing with
    | none => simp only [State.step, hclosing] at hstep; cases hstep
    | some batches =>
      cases batches with
      | nil => simp only [State.step, hclosing] at hstep; cases hstep
      | cons batch rest =>
        simp only [State.step, hclosing] at hstep
        cases hstep
        exact .inr (.last batch rest success hclosing rfl)

theorem new_kept : (Task.new : Task k).Kept σ where
  staged _ _ h := by cases h
  batches _ _ h := by cases h
  runs _ h := absurd h not_mem_nil
  order := .nil
  ended h := by cases h

/-- **A step keeps the invariant.** -/
theorem Invariant.step (h : Invariant σ s) {act : Act k} (hstep : s.step σ act = some s') :
    Invariant σ s' := by
  obtain ⟨-, -, -, hinvariant⟩ | hapart := step_cases h hstep
  · exact hinvariant
  cases hapart with
  | lend heq hopen =>
    subst heq
    refine ⟨fun u => ?_, h.shared, fun batches hbatches => ?_, h.commands⟩
    · show (Function.update s.task s.count .new u).Kept σ
      by_cases hu : u = s.count
      · rw [hu, update_self]
        exact new_kept
      · rw [update_of_ne hu]
        exact h.tasks u
    · rw [show s.closing = some batches from hbatches] at hopen
      cases hopen
  | close hopen hended heq =>
    subst heq
    refine ⟨h.tasks, nofun, fun batches hbatches => ?_, h.commands⟩
    cases hbatches
    refine ⟨fun batch hbatch => ?_, fun _ => rfl, hended⟩
    obtain ⟨id, -, hbatch⟩ := mem_filterMap.mp hbatch
    exact (h.shared id batch hbatch).2
  | last batch _ _ hclosing heq =>
    subst heq
    obtain ⟨hsound, hshared, hended⟩ := h.closing _ hclosing
    refine ⟨h.tasks, h.shared, fun batches hbatches => ?_, fun command hcommand => ?_⟩
    · cases hbatches
      exact ⟨fun b hb => hsound b (.tail _ hb), hshared, hended⟩
    · obtain hold | hnew := mem_append.mp hcommand
      · exact h.commands command hold
      · exact (hsound batch (.head _)).commands command hnew

/-! ## Runs -/

/-- What a run comes to. -/
inductive Reached (σ : Setting k) : State k → Prop
  | new : Reached σ .new
  | step {s s' : State k} (act : Act k) (h : Reached σ s) (hstep : s.step σ act = some s') :
      Reached σ s'

theorem Reached.invariant (h : Reached σ s) : Invariant σ s := by
  induction h with
  | new =>
    exact ⟨fun _ => new_kept, nofun, nofun,
      nofun⟩
  | step _ _ hstep ih => exact ih.step hstep

/-- The items in the shared batches that run last. -/
def State.left (s : State k) : List (Item k) := (s.closing.getD []).flatMap Batch.items

/-- The items an action was evaluated for, in order. -/
def State.asked (σ : Setting k) (s : State k) : List (Item k) := s.evaluated.map σ.item

/-- **Every item of an action is at one place.** -/
def Accounted (σ : Setting k) (s : State k) (id : Fin k) : Prop :=
  (own id (s.asked σ) : Multiset (Item k))
    = own id s.done + own id s.left + held (s.shared id)
      + ∑ t ∈ Finset.range s.count, ((s.task t).keeps id : Multiset (Item k))

/-- **A run of one task has the items in line.** -/
def InLine (σ : Setting k) (s : State k) (id : Fin k) : Prop :=
  own id (s.asked σ) = own id s.done ++ own id s.left ++ line id (s.shared id) (s.task 0)

theorem coe_line (id : Fin k) (shared : Option (Batch k)) (task : Task k) :
    (line id shared task : Multiset (Item k)) = (held shared : Multiset (Item k)) + task.keeps id := by
  rw [line, Task.keeps]
  simp only [← Multiset.coe_add]
  abel

/-- A task that has ended, with nothing to do, keeps nothing. -/
theorem keeps_ended (h : task.Kept σ) (hended : task.ended = true)
    (hjobs : task.jobs = []) (id : Fin k) :
    held (task.staged id) = [] ∧ held (task.batches id) = [] ∧ task.keeps id = [] := by
  obtain ⟨hbatches, hstaged⟩ := h.ended hended id
  have hstaged : held (task.staged id) = [] := by
    by_contra hheld
    have hmem := hstaged hheld
    rw [hjobs] at hmem
    cases hmem
  refine ⟨hstaged, hbatches, ?_⟩
  rw [Task.keeps, hstaged, hbatches, hjobs]
  rfl

theorem Moves.left_eq (h : Moves σ t more s s') : s.left = [] ∧ s'.left = [] := by
  rw [State.left, State.left, h.opened, h.still]
  exact ⟨rfl, rfl⟩

theorem Moves.asked_eq (h : Moves σ t more s s') : s'.asked σ = s.asked σ ++ more.map σ.item := by
  rw [State.asked, h.evaluated, map_append]
  rfl

theorem Moves.accounted (h : Moves σ t more s s') (hid : Accounted σ s id) : Accounted σ s' id := by
  unfold Accounted at hid ⊢
  have hsum := Tally.sum_update (fun task : Task k => (task.keeps id : Multiset (Item k))) s.task
    (Finset.mem_range.mpr h.lt) (s'.task t)
  have hline := congrArg (fun l : List (Item k) => (l : Multiset (Item k))) (h.line id)
  simp only [← Multiset.coe_add, coe_line] at hline
  rw [h.asked_eq, own_append, ← Multiset.coe_add, hid, h.left_eq.1, h.left_eq.2, h.count, h.task]
  refine add_right_cancel (b := ((s.task t).keeps id : Multiset (Item k))) ?_
  calc _ = own id s.done + (held (s.shared id) + (s.task t).keeps id) + own id (more.map σ.item)
        + ∑ u ∈ Finset.range s.count, ((s.task u).keeps id : Multiset (Item k)) := by
        simp only [own_nil, Multiset.coe_nil]
        abel
    _ = _ := by
        rw [← hline]
        simp only [own_nil, Multiset.coe_nil]
        rw [add_zero, add_assoc _ _ ((s.task t).keeps id : Multiset (Item k)), hsum]
        abel

/-- The shared batches, taken, have the items of each action that were shared. -/
theorem Invariant.own_shared (h : Invariant σ s) (id : Fin k) :
    own id (((List.finRange k).filterMap s.shared).flatMap Batch.items) = held (s.shared id) := by
  rw [flatMap_held]
  exact own_held (fun id batch hbatch => (h.shared id batch hbatch).1.same) id

theorem Apart.accounted (hinvariant : Invariant σ s) (h : Apart s s')
    (hid : Accounted σ s id) : Accounted σ s' id := by
  cases h with
  | lend heq hopen =>
    subst heq
    unfold Accounted
    show _ = _ + ∑ t ∈ Finset.range (s.count + 1),
      ((Function.update s.task s.count .new t).keeps id : Multiset (Item k))
    rw [Finset.sum_range_succ, update_self]
    have hsame : ∑ t ∈ Finset.range s.count,
        ((Function.update s.task s.count .new t).keeps id : Multiset (Item k))
        = ∑ t ∈ Finset.range s.count, ((s.task t).keeps id : Multiset (Item k)) := by
      refine Finset.sum_congr rfl fun t ht => ?_
      rw [update_of_ne (ne_of_lt (Finset.mem_range.mp ht))]
    rw [hsame]
    show _ = _ + (_ + 0)
    rw [add_zero]
    exact hid
  | close hopen _ heq =>
    subst heq
    have hleft : own id s.left = [] := by rw [State.left, hopen]; rfl
    have hclosing := hinvariant.own_shared id
    unfold Accounted at hid ⊢
    rw [hleft] at hid
    show _ = _ + ((own id (((List.finRange k).filterMap s.shared).flatMap Batch.items) :
      List (Item k)) : Multiset (Item k)) + 0 + _
    rw [hclosing, add_zero]
    rw [Multiset.coe_nil, add_zero] at hid
    exact hid
  | last batch rest _ hclosing heq =>
    subst heq
    unfold Accounted at hid ⊢
    have hleft : s.left = batch.items ++ rest.flatMap Batch.items := by
      rw [State.left, hclosing]
      rfl
    rw [hleft, own_append, ← Multiset.coe_add] at hid
    show _ = ((own id ((s.commands ++ batch.commands).flatMap Command.items) : List (Item k)) :
      Multiset (Item k)) + (own id (rest.flatMap Batch.items) : List (Item k)) + _ + _
    rw [flatMap_append, commands_items, own_append, ← Multiset.coe_add]
    refine hid.trans ?_
    rw [State.done]
    abel

theorem Reached.accounted (h : Reached σ s) (id : Fin k) : Accounted σ s id := by
  induction h with
  | new => rfl
  | step _ h hstep ih =>
    obtain ⟨t, _, hmoves, -⟩ | hapart := step_cases h.invariant hstep
    · exact hmoves.accounted ih
    · exact hapart.accounted h.invariant ih

theorem Reached.count_pos (h : Reached σ s) : 0 < s.count := by
  induction h with
  | new => exact one_pos
  | step _ h hstep ih =>
    obtain ⟨t, _, hmoves, -⟩ | hapart := step_cases h.invariant hstep
    · rw [hmoves.count]
      exact ih
    · cases hapart with
      | lend heq _ => rw [heq]; exact Nat.succ_pos _
      | close _ _ heq => rw [heq]; exact ih
      | last _ _ _ _ heq => rw [heq]; exact ih

theorem Reached.inLine (h : Reached σ s) (hone : s.count = 1) (id : Fin k) : InLine σ s id := by
  induction h with
  | new => rfl
  | step act h hstep ih =>
    rename_i s s'
    obtain ⟨t, more, hmoves, -⟩ | hapart := step_cases h.invariant hstep
    · have hcount : s.count = 1 := by rw [← hmoves.count, hone]
      obtain rfl : t = 0 := by
        have := hmoves.lt
        omega
      have hline := hmoves.line id
      have hprevious := ih hcount
      unfold InLine at hprevious ⊢
      rw [hmoves.left_eq.1, own_nil, append_nil] at hprevious
      rw [hmoves.asked_eq, own_append, hprevious, hmoves.left_eq.2, own_nil, append_nil, hline]
    · cases hapart with
      | lend heq _ =>
        rw [heq] at hone
        have hzero : s.count = 0 := Nat.succ_injective hone
        have hpos := h.count_pos
        omega
      | close hopen hended heq =>
        have hprevious := ih (by rw [heq] at hone; exact hone)
        obtain ⟨hquit, hjobs⟩ := hended 0 h.count_pos
        obtain ⟨hstaged, hbatches, -⟩ := keeps_ended (h.invariant.tasks 0) hquit hjobs id
        unfold InLine at hprevious ⊢
        rw [State.left, hopen, line, hstaged, hbatches, hjobs] at hprevious
        subst heq
        rw [line, hstaged, hbatches, hjobs]
        show own id (s.asked σ) = own id s.done
          ++ own id (((List.finRange k).filterMap s.shared).flatMap Batch.items) ++ ([] ++ [] ++ [] ++ [])
        rw [h.invariant.own_shared]
        simpa [held] using hprevious
      | last batch rest success hclosing heq =>
        have hprevious := ih (by rw [heq] at hone; exact hone)
        subst heq
        unfold InLine at hprevious ⊢
        have hleft : s.left = batch.items ++ rest.flatMap Batch.items := by
          rw [State.left, hclosing]
          rfl
        rw [hleft, own_append] at hprevious
        show _ = own id ((s.commands ++ batch.commands).flatMap Command.items)
          ++ own id (rest.flatMap Batch.items) ++ _
        rw [flatMap_append, commands_items, own_append]
        refine hprevious.trans ?_
        simp only [append_assoc]
        rfl

/-! ## The claim -/

/-- A run that is over has all its items in commands. -/
theorem Reached.over (h : Reached σ s) (hover : s.Over) (id : Fin k) :
    s.left = [] ∧ s.shared id = none ∧ ∀ t < s.count, (s.task t).keeps id = [] := by
  obtain ⟨-, hshared, hended⟩ := h.invariant.closing [] hover
  refine ⟨?_, hshared id, fun t ht => ?_⟩
  · rw [State.left, hover]
    rfl
  · exact (keeps_ended (h.invariant.tasks t) (hended t ht).1 (hended t ht).2 id).2.2

theorem Reached.own_asked (h : Reached σ s) (hover : s.Over) (id : Fin k) :
    (own id (s.asked σ) : Multiset (Item k)) = own id s.done := by
  obtain ⟨hleft, hshared, hkeeps⟩ := h.over hover id
  have haccounted := h.accounted id
  unfold Accounted at haccounted
  rw [haccounted, hleft, hshared, Finset.sum_eq_zero fun t ht => by
    rw [hkeeps t (Finset.mem_range.mp ht)]; rfl]
  simp [held]

theorem count_own (item : Item k) (items : List (Item k)) :
    Multiset.count item (own item.1 items : Multiset (Item k))
      = Multiset.count item (items : Multiset (Item k)) := by
  show Multiset.count item (Multiset.filter (fun i : Item k => i.1 = item.1) items) = _
  exact Multiset.count_filter_of_pos rfl

theorem mem_done {command : Command k} (hcommand : command ∈ s.commands) {path : Text}
    (hpath : path ∈ command.paths) : (command.id, command.directory, path) ∈ s.done :=
  mem_flatMap.mpr ⟨command, hcommand, List.mem_map.mpr ⟨path, hpath, rfl⟩⟩

/-- An item in a command was asked for. -/
theorem Reached.done_asked (h : Reached σ s) {item : Item k} (hitem : item ∈ s.done) :
    item ∈ s.asked σ := by
  have hmine : item ∈ own item.1 s.done := mem_filter.mpr ⟨hitem, by simp⟩
  have haccounted := h.accounted item.1
  have hle : (own item.1 s.done : Multiset (Item k)) ≤ own item.1 (s.asked σ) := by
    rw [haccounted]
    simp only [add_assoc]
    exact Multiset.le_add_right _ _
  exact (mem_filter.mp (Multiset.mem_coe.mp (Multiset.mem_of_le hle hmine))).1

/-- One action that runs `echo`, in a small budget. -/
def echo : Setting 1 where
  exec _ := ⟨[[101, 99, 104, 111]], false⟩
  cwd := none
  limit := ⟨8, 64⟩

end Ferret.Find.Batching
