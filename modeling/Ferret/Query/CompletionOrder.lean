import Ferret.Query.Completion

/-!
# The order groups are emitted in

Each group of a worker is at one place: emitted, in the batch the caller
publishes, in the queue, in a batch taken out and not sent, or in the slot – and
in this order they are what the worker handed over (`Ordered`). Every step keeps
that but one. Where the caller takes a slot while an earlier batch of the same
worker is still on its way, what it takes is emitted first.

That can happen: a worker whose group crosses the limit puts the group in its
slot and then sends the batch from before (`emitted_out_of_order`). The runs
without such a take emit every worker's groups in order (`emitted_in_order`).
-/

namespace Ferret.Query

open List Function

variable {G : Type} {n : ℕ} {s s' : State n G} {w : Fin (n + 1)}

/-- The groups of a worker that the caller publishes. -/
def Caller.groups (w : Fin (n + 1)) : Caller n G → List G
  | publishing v groups => if v = w then groups else []
  | _ => []

/-- The groups of a worker that are sent or taken, and not emitted. -/
def State.flight (s : State n G) (w : Fin (n + 1)) : List G :=
  s.caller.groups w ++ (own w s.queue).flatten

/-- The groups a worker still has. -/
def Worker.unsent (worker : Worker G) : List G := worker.hand.flatten ++ worker.slot.groups

/-- **The groups of a worker are in order**, wherever they are. -/
structure Ordered (s : State n G) (w : Fin (n + 1)) : Prop where
  emitted : own w s.emitted <+: (s.worker w).handed
  flight : s.caller.isGone = false → own w s.emitted ++ s.flight w <+: (s.worker w).handed
  whole : s.caller.isGone = false → (s.worker w).alive = true →
    (s.worker w).handed = own w s.emitted ++ s.flight w ++ (s.worker w).unsent
  dead : (s.worker w).alive = false → (s.worker w).slot.groups = []

/-- **No take overtakes a batch**: the caller does not take groups from the slot
of a worker that has an earlier batch unsent or in the queue. -/
def State.Waits (s : State n G) (act : Act n G) : Prop :=
  act = .take → (s.worker s.slotAt).slot.groups ≠ [] →
    (s.worker s.slotAt).hand = [] ∧ own s.slotAt s.queue = []

/-- What steps lead to, each of which meets the condition. -/
inductive Reached : State n G → Prop
  | new : Reached .new
  | step {s s' : State n G} (act : Act n G) (h : Reached s) (hwaits : s.Waits act)
      (hstep : s.step act = some s') : Reached s'

/-! ## Slots -/

theorem own_append {α : Type} (w : Fin (n + 1)) (l l' : List (Fin (n + 1) × α)) :
    own w (l ++ l') = own w l ++ own w l' := by
  rw [own, filter_append, map_append]
  rfl

theorem own_cons {α : Type} (w v : Fin (n + 1)) (a : α) (l : List (Fin (n + 1) × α)) :
    own w ((v, a) :: l) = if v = w then a :: own w l else own w l := by
  by_cases h : v = w <;> simp [own, h]

/-- A slot gives what it holds. -/
theorem take_groups (held : Held G) :
    held.take.1.toList.flatten = held.groups ∧ held.take.2.groups = [] := by
  unfold Held.take
  cases held.groups with
  | nil => exact ⟨rfl, rfl⟩
  | cons g _ => exact ⟨append_nil _, rfl⟩

/-- A slot emptied or not has its groups in the batch and behind it. -/
theorem take_if_groups (p : Prop) [Decidable p] (held : Held G) :
    (if p then held.take else (none, held)).1.toList.flatten
        ++ (if p then held.take else (none, held)).2.groups = held.groups := by
  split_ifs
  · rw [(take_groups held).1, (take_groups held).2, append_nil]
  · rfl

/-- **A group is added behind what is held**, wherever that goes. -/
theorem add_groups (held : Held G) (group : G) (weight : ℕ) :
    ((held.add group weight).1.1.toList ++ (held.add group weight).1.2.toList).flatten
        ++ (held.add group weight).2.groups
      = held.groups ++ [group] := by
  rw [flatten_append]
  by_cases hlarge : HANDOFF_BYTES ≤ weight
  · rw [Held.add, if_pos hlarge]
    show held.take.1.toList.flatten ++ [group] ++ held.take.2.groups = _
    rw [(take_groups held).1, (take_groups held).2, append_nil]
  · rw [Held.add, if_neg hlarge]
    have hcrossed := take_if_groups (HANDOFF_BYTES < held.bytes + weight) held
    generalize (if HANDOFF_BYTES < held.bytes + weight then held.take else (none, held)) = first
      at hcrossed ⊢
    obtain ⟨_, slot⟩ := first
    have hfull := take_if_groups (HANDOFF_GROUPS ≤ (slot.groups ++ [group]).length)
      ⟨slot.groups ++ [group], slot.bytes + weight⟩
    dsimp only at hcrossed hfull ⊢
    rw [append_assoc, hfull, ← append_assoc, hcrossed]

/-! ## One step -/

/-- A worker between two groups keeps its order, if it adds what it hands over
behind what it has. -/
theorem change_ordered {f : Worker G → Worker G} {added : List G} {v : Fin (n + 1)}
    (hunsent : ∀ worker : Worker G, worker.hand = [] →
      (f worker).unsent = worker.slot.groups ++ added)
    (hhanded : ∀ worker : Worker G, (f worker).handed = worker.handed ++ added)
    (halive : ∀ worker : Worker G, (f worker).alive = worker.alive)
    (hstep : s.change v f = some s') (h : ∀ w, Ordered s w) (w : Fin (n + 1)) : Ordered s' w := by
  unfold State.change at hstep
  split_ifs at hstep with hfree
  cases hstep
  rw [Worker.free, Bool.and_eq_true, List.isEmpty_iff] at hfree
  obtain ⟨hrunning, hhand⟩ := hfree
  obtain ⟨hemitted, hflight, hwhole, hdead⟩ := h w
  by_cases hw : w = v
  · subst hw
    have hworker : (s.set w (f (s.worker w))).worker w = f (s.worker w) :=
      Function.update_self _ _ _
    refine ⟨?_, fun hgone => ?_, fun hgone _ => ?_, fun hquit => ?_⟩
    · rw [hworker, hhanded]
      exact hemitted.trans (List.prefix_append _ _)
    · rw [hworker, hhanded]
      exact (hflight hgone).trans (List.prefix_append _ _)
    · rw [hworker, hhanded, hunsent _ hhand, hwhole hgone hrunning, Worker.unsent, hhand]
      show _ = own w s.emitted ++ s.flight w ++ _
      simp only [flatten_nil, nil_append, append_assoc]
    · rw [hworker, halive, hrunning] at hquit
      cases hquit
  · have hworker : (s.set v (f (s.worker v))).worker w = s.worker w :=
      Function.update_of_ne hw _ _
    refine ⟨?_, ?_, ?_, ?_⟩
    · rw [hworker]; exact hemitted
    · rw [hworker]; exact hflight
    · rw [hworker]; exact hwhole
    · rw [hworker]; exact hdead

/-- A step that moves nothing of a worker, or only along its way, keeps its order. -/
theorem Ordered.of_eq (h : Ordered s w) (hworker : s'.worker w = s.worker w)
    (hemitted : s'.emitted = s.emitted) (hflight : s'.flight w = s.flight w)
    (hgone : s'.caller.isGone = s.caller.isGone) : Ordered s' w := by
  obtain ⟨_, _, _, hd⟩ := h
  constructor <;> rw [hworker]
  · rwa [hemitted]
  · rwa [hemitted, hflight, hgone]
  · rwa [hemitted, hflight, hgone]
  · exact hd

theorem Ordered.of_worker {worker : Worker G} (hworker : s.worker w = worker)
    (hemitted : own w s.emitted <+: worker.handed)
    (hflight : s.caller.isGone = false → own w s.emitted ++ s.flight w <+: worker.handed)
    (hwhole : s.caller.isGone = false → worker.alive = true →
      worker.handed = own w s.emitted ++ s.flight w ++ worker.unsent)
    (hdead : worker.alive = false → worker.slot.groups = []) : Ordered s w := by
  subst hworker
  exact ⟨hemitted, hflight, hwhole, hdead⟩

/-- What a caller has that publishes nothing. -/
theorem flight_of_groups (h : s.caller.groups w = []) : s.flight w = (own w s.queue).flatten := by
  rw [State.flight, h, nil_append]

/-- Batches sent are on their way, those left are not. -/
theorem send_ordered {v : Fin (n + 1)} (hstep : s.step (.send v) = some s')
    (h : Ordered s w) : Ordered s' w := by
  cases hhand : (s.worker v).hand with
  | nil => simp [State.step, hhand] at hstep
  | cons batch rest =>
    simp only [State.step, hhand] at hstep
    split_ifs at hstep
    rename_i hroom
    cases hstep
    obtain ⟨halive, -, hgone⟩ := hroom
    obtain ⟨he, hf, hw, hd⟩ := h
    by_cases hv : w = v
    · subst hv
      have hsent : (s.caller.groups w ++ (own w (s.queue ++ [(w, batch)])).flatten)
          = s.flight w ++ batch := by
        rw [own_append, own_cons, if_pos rfl, flatten_append, ← append_assoc]
        show _ ++ (batch ++ []) = _
        rw [append_nil]
        rfl
      have hwhole : (s.worker w).handed
          = own w s.emitted ++ (s.flight w ++ batch) ++ (rest.flatten ++ (s.worker w).slot.groups) := by
        rw [hw hgone halive, Worker.unsent, hhand, flatten_cons]
        simp only [append_assoc]
      refine Ordered.of_worker (update_self _ _ _) he (fun _ => ?_) (fun _ _ => ?_) hd
      · show own w s.emitted ++ (s.caller.groups w ++ _) <+: (s.worker w).handed
        rw [hsent, hwhole]
        exact prefix_append _ _
      · show (s.worker w).handed
          = own w s.emitted ++ (s.caller.groups w ++ _) ++ (rest.flatten ++ (s.worker w).slot.groups)
        rw [hsent]
        exact hwhole
    · have hworker : (s.set v { s.worker v with hand := rest }).worker w = s.worker w :=
        update_of_ne hv _ _
      refine Ordered.of_eq (s := s) ⟨he, hf, hw, hd⟩ hworker rfl ?_ rfl
      show s.caller.groups w ++ (own w (s.queue ++ [(v, batch)])).flatten = _
      rw [own_append, own_cons, if_neg (Ne.symm hv)]
      show _ ++ (own w s.queue ++ []).flatten = _
      rw [append_nil]
      rfl

/-- A worker that leaves takes with it what it has not sent. -/
theorem leave_ordered {v : Fin (n + 1)} (hstep : s.step (.leave v) = some s')
    (h : Ordered s w) : Ordered s' w := by
  simp only [State.step] at hstep
  split_ifs at hstep
  cases hstep
  by_cases hv : w = v
  · subst hv
    obtain ⟨he, hf, -, -⟩ := h
    exact Ordered.of_worker (update_self _ _ _) he hf nofun
      fun _ => rfl
  · exact h.of_eq (update_of_ne hv _ _) rfl rfl rfl

/-- **The caller takes a slot in order** if no earlier batch is on its way. -/
theorem take_ordered (hwaits : s.Waits .take) (hstep : s.step .take = some s')
    (h : Ordered s w) : Ordered s' w := by
  cases hcaller : s.caller with
  | looking =>
    obtain ⟨he, hf, hw, hd⟩ := h
    have hflight : s.flight w = (own w s.queue).flatten :=
      flight_of_groups (by rw [hcaller]; rfl)
    have hgone : s.caller.isGone = false := by rw [hcaller]; rfl
    cases hgroups : (s.worker s.slotAt).slot.groups with
    | nil =>
      simp only [State.step, hcaller, Held.take, hgroups, isEmpty_nil, if_true] at hstep
      cases hstep
      by_cases hv : w = s.slotAt
      · subst hv
        refine Ordered.of_worker (update_self _ _ _) he (fun _ => ?_) (fun _ halive => ?_)
          fun _ => rfl
        · show own s.slotAt s.emitted ++ ([] ++ (own s.slotAt s.queue).flatten) <+: _
          rw [nil_append, ← hflight]
          exact hf hgone
        · show (s.worker s.slotAt).handed
            = own s.slotAt s.emitted ++ ([] ++ (own s.slotAt s.queue).flatten)
              ++ ((s.worker s.slotAt).hand.flatten ++ [])
          rw [nil_append, ← hflight, hw hgone halive, Worker.unsent, hgroups]
      · exact Ordered.of_eq (s := s) ⟨he, hf, hw, hd⟩ (update_of_ne hv _ _) rfl
          (by rw [hflight]; rfl) (by rw [hcaller]; rfl)
    | cons group groups =>
      simp only [State.step, hcaller, Held.take, hgroups, isEmpty_cons, Bool.false_eq_true,
        if_false] at hstep
      cases hstep
      by_cases hv : w = s.slotAt
      · subst hv
        -- nothing of the worker is between what was emitted and the slot
        obtain ⟨hhand, hqueue⟩ := hwaits rfl (by rw [hgroups]; exact cons_ne_nil _ _)
        have halive : (s.worker s.slotAt).alive = true := by
          by_contra hquit
          rw [hd (Bool.eq_false_iff.mpr hquit)] at hgroups
          cases hgroups
        have htaken : (if s.slotAt = s.slotAt then group :: groups else [])
            ++ (own s.slotAt s.queue).flatten = group :: groups := by
          rw [if_pos rfl, hqueue, flatten_nil, append_nil]
        have hwhole : (s.worker s.slotAt).handed = own s.slotAt s.emitted ++ (group :: groups) := by
          rw [hw hgone halive, hflight, hqueue, Worker.unsent, hhand, hgroups]
          simp
        refine Ordered.of_worker (update_self _ _ _) he (fun _ => ?_) (fun _ _ => ?_)
          fun _ => rfl
        · have hall : own s.slotAt s.emitted ++ ((if s.slotAt = s.slotAt then group :: groups else [])
              ++ (own s.slotAt s.queue).flatten) = (s.worker s.slotAt).handed := by
            rw [htaken, hwhole]
          exact hall ▸ prefix_refl (own s.slotAt s.emitted ++ _)
        · show (s.worker s.slotAt).handed
            = own s.slotAt s.emitted ++ ((if s.slotAt = s.slotAt then group :: groups else [])
                ++ (own s.slotAt s.queue).flatten)
              ++ ((s.worker s.slotAt).hand.flatten ++ [])
          rw [htaken, hwhole, hhand]
          simp
      · refine Ordered.of_eq (s := s) ⟨he, hf, hw, hd⟩ (update_of_ne hv _ _) rfl ?_
          (by rw [hcaller]; rfl)
        rw [hflight]
        show (if s.slotAt = w then group :: groups else []) ++ _ = _
        rw [if_neg (Ne.symm hv)]
        rfl
  | _ => simp [State.step, hcaller] at hstep

/-- A group emitted is the next of its worker. -/
theorem emit_ordered (hstep : s.step .emit = some s') (h : Ordered s w) : Ordered s' w := by
  cases hcaller : s.caller with
  | publishing v groups =>
    cases groups with
    | nil => simp [State.step, hcaller] at hstep
    | cons group rest =>
      simp only [State.step, hcaller] at hstep
      cases hstep
      obtain ⟨_, hf, hw, hd⟩ := h
      have hgone : s.caller.isGone = false := by rw [hcaller]; rfl
      have hmoved : own w (s.emitted ++ [(v, group)])
            ++ ((if v = w then rest else []) ++ (own w s.queue).flatten)
          = own w s.emitted ++ s.flight w := by
        rw [own_append, own_cons, State.flight, hcaller]
        show _ = own w s.emitted ++ ((if v = w then group :: rest else []) ++ _)
        split_ifs <;> simp [own]
      refine ⟨?_, fun _ => ?_, fun _ halive => ?_, hd⟩
      · refine (prefix_append _ _).trans (hmoved ▸ hf hgone)
      · show own w (s.emitted ++ [(v, group)])
            ++ ((if v = w then rest else []) ++ (own w s.queue).flatten) <+: _
        rw [hmoved]
        exact hf hgone
      · show (s.worker w).handed = own w (s.emitted ++ [(v, group)])
            ++ ((if v = w then rest else []) ++ (own w s.queue).flatten) ++ (s.worker w).unsent
        rw [hmoved]
        exact hw hgone halive
  | _ => simp [State.step, hcaller] at hstep

/-- **A step keeps the order.** -/
theorem step_ordered {act : Act n G} (hwaits : s.Waits act) (hstep : s.step act = some s')
    (h : ∀ w, Ordered s w) (w : Fin (n + 1)) : Ordered s' w := by
  cases act with
  | hold v group weight =>
    refine change_ordered (f := Worker.hold group weight) (fun worker _ => ?_) (fun _ => rfl)
      (fun _ => rfl) hstep h w
    exact add_groups worker.slot group weight
  | handoff v group =>
    refine change_ordered (f := Worker.handoff group) (fun worker _ => ?_) (fun _ => rfl)
      (fun _ => rfl) hstep h w
    show (worker.slot.take.1.toList ++ [[group]]).flatten ++ worker.slot.take.2.groups = _
    rw [flatten_append, (take_groups _).1, (take_groups _).2, append_nil]
    rfl
  | flush v =>
    refine change_ordered (f := Worker.flush) (fun worker _ => ?_)
      (fun _ => (append_nil _).symm) (fun _ => rfl) hstep h w
    show worker.slot.take.1.toList.flatten ++ worker.slot.take.2.groups = _
    rw [(take_groups _).1, (take_groups _).2]
  | send v => exact send_ordered hstep (h w)
  | leave v => exact leave_ordered hstep (h w)
  | stop =>
    cases hstep
    exact (h w).of_eq rfl rfl rfl rfl
  | receive =>
    cases hqueue : s.queue with
    | nil => cases hcaller : s.caller <;> simp [State.step, hcaller, hqueue] at hstep
    | cons entry rest =>
      obtain ⟨v, batch⟩ := entry
      have hqueued : (own w s.queue).flatten
          = (if v = w then batch else []) ++ (own w rest).flatten := by
        rw [hqueue, own_cons]
        split_ifs <;> rfl
      cases hcaller : s.caller <;> simp only [State.step, hcaller, hqueue] at hstep <;>
        cases hstep
      all_goals
        have hflight : s.flight w = (own w s.queue).flatten :=
          flight_of_groups (by rw [hcaller]; rfl)
        exact (h w).of_eq rfl rfl (by rw [hflight, hqueued]; rfl) (by rw [hcaller]; rfl)
  | empty =>
    cases hqueue : s.queue with
    | nil =>
      cases hcaller : s.caller <;> simp only [State.step, hcaller, hqueue] at hstep <;>
        cases hstep
      have hflight : s.flight w = (own w s.queue).flatten :=
        flight_of_groups (by rw [hcaller]; rfl)
      refine (h w).of_eq rfl rfl ?_ ?_
      · rw [hflight, State.flight]
        show Caller.groups w (if s.clean < n + 1 then .looking else .waiting) ++ [] = _
        rw [hqueue]
        split_ifs <;> rfl
      · rw [hcaller]
        show Caller.isGone (if s.clean < n + 1 then .looking else .waiting) = _
        split_ifs <;> rfl
    | cons entry rest => cases hcaller : s.caller <;> simp [State.step, hcaller, hqueue] at hstep
  | take => exact take_ordered hwaits hstep (h w)
  | timeout =>
    cases hcaller : s.caller <;> simp only [State.step, hcaller] at hstep <;> cases hstep
    have hflight : s.flight w = (own w s.queue).flatten :=
      flight_of_groups (by rw [hcaller]; rfl)
    exact (h w).of_eq rfl rfl (by rw [hflight]; rfl) (by rw [hcaller]; rfl)
  | emit => exact emit_ordered hstep (h w)
  | next =>
    cases hcaller : s.caller with
    | publishing v groups =>
      cases groups with
      | nil =>
        simp only [State.step, hcaller] at hstep
        cases hstep
        refine (h w).of_eq rfl rfl ?_ (by rw [hcaller]; rfl)
        rw [State.flight, State.flight, hcaller]
        show [] ++ _ = (if v = w then [] else []) ++ _
        rw [ite_self]
      | cons group rest => simp [State.step, hcaller] at hstep
    | _ => simp [State.step, hcaller] at hstep
  | done =>
    simp only [State.step] at hstep
    split_ifs at hstep
    cases hstep
    exact ⟨(h w).emitted, nofun, nofun, (h w).dead⟩

theorem Reached.ordered (h : Reached s) (w : Fin (n + 1)) : Ordered s w := by
  induction h generalizing w with
  | new => exact ⟨ nil_prefix, fun _ => nil_prefix, fun _ _ => rfl, fun _ => rfl⟩
  | step _ _ hwaits hstep ih => exact step_ordered hwaits hstep ih w

/-! ## The claim -/

/-- **Groups are emitted in the order they were handed over**, worker by worker,
in every run whose takes wait. -/
theorem emitted_in_order (h : Reached s) (w : Fin (n + 1)) :
    own w s.emitted <+: (s.worker w).handed :=
  (h.ordered w).emitted

/-- A worker with one group, held; the caller takes it. -/
theorem emitted_in_order_taken :
    ∃ s : State 1 ℕ, own 0 s.emitted = [7] ∧ own 0 s.emitted <+: (s.worker 0).handed := by
  have hheld : Reached (n := 1) (G := ℕ) _ :=
    Reached.step (.hold 0 7 100) .new nofun rfl
  have hempty := Reached.step .empty hheld nofun rfl
  have htaken := Reached.step .take hempty (fun _ _ => ⟨rfl, rfl⟩) rfl
  have hemitted := Reached.step .emit htaken nofun rfl
  exact ⟨_, rfl, emitted_in_order hemitted 0⟩

/-- **Not every run emits in order**: a group of 40000 bytes is held, and another
one makes the batch too heavy. The first is taken out and the second is in the
slot, from which the caller takes it. -/
theorem emitted_out_of_order :
    ¬ ∀ (acts : List (Act 1 ℕ)) (s : State 1 ℕ), State.new.run acts = some s →
      own 0 s.emitted <+: (s.worker 0).handed := by
  intro hall
  have h := hall [.hold 0 0 40000, .hold 0 1 40000, .empty, .take, .emit] _ rfl
  revert h
  decide

end Ferret.Query
