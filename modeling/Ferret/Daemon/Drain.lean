import Ferret.Daemon.Admission

/-!
# A host that drains

Once `draining` is set it stays set, nobody sleeps any more, and every step of
the host's own threads lowers what is left to do: the top of a handler's loop
leads out of it, and a reader's lines run out. A handler that cannot step
waits for its reader, which can. So the threads come to their end by
themselves, and leave nothing behind.
-/

namespace Ferret.Daemon

open Function

section

variable {Line : Type}

/-! ## What is left to do -/

/-- What is left to a handler, in a host that drains. The reader it will spawn
is counted with it. -/
def Handler.rank : Handler Line → ℕ
  | .setup => 24
  | .register => 23
  | .spawn => 22
  | .receive => 18
  | .answer _ => 17
  | .ask => 16
  | .queued => 16
  | .execute _ => 15
  | .hello => 14
  | .release _ => 14
  | .check => 13
  | .doze => 13
  | .notify _ => 13
  | .woken => 13
  | .hello_again => 12
  | .woken_draining => 12
  | .ran => 12
  | .turn => 11
  | .hang_up => 10
  | .shutdown => 9
  | .join => 8
  | .unregister => 7
  | .discount => 6
  | .tell => 5
  | .wake_listener => 4
  | .ended => 0

/-- What is left to a reader. -/
def Reader.rank : Reader Line → ℕ
  | .absent => 0
  | .line _ => 11
  | .read => 6
  | .shutdown_write => 5
  | .cancel => 4
  | .unregister => 3
  | .drop_send => 2
  | .shutdown => 1
  | .ended => 0

def Client.rank (c : Client Line) : ℕ := c.handler.rank + c.reader.rank + 6 * c.inbox.length

/-- What is left to the loop of `serve`: one that has not seen the host drain
may still accept a connection. -/
def Server.rank : Server → ℕ
  | .top => 2
  | .looked draining => if draining then 1 else 26
  | .waiting draining _ => if draining then 0 else 25
  | .returned => 0

def Loaded.rank : Loaded → ℕ
  | .loading => 2
  | _ => 0

/-- What is left to the threads of the host apart from the connections'. -/
def Shared.rank (s : Shared) : ℕ :=
  s.server.rank + 3 * s.events.length + s.loaded.rank + (if s.announce then 1 else 0)

/-- What is left to do. -/
def State.rank (s : State Line) : ℕ :=
  s.shared.rank + ∑ i ∈ Finset.range s.shared.spawned, (s.client i).rank

section

variable {p : Protocol Line} {query_limit : ℕ}

/-- An act of a connection, in a host that drains. -/
theorem Act.rank_lt {s s' : Shared} {c n : Client Line} {k : Wake}
    (h : Act p query_limit s c s' n k) (hdraining : s.draining = true) :
    s'.rank + n.rank < s.rank + c.rank := by
  induction h
  all_goals grind [Client.rank, Handler.rank, Reader.rank, Shared.rank, Client.go, Client.reads,
    Shared.unregister, Client.try_send]

/-- Every step of the host's own threads lowers what is left to do. -/
theorem Step.rank_lt {s s' : State Line} (hstep : Step p query_limit s s')
    (h : s.Sound query_limit) (hdraining : s.shared.draining = true) : s'.rank < s.rank := by
  have hrouse : ∀ {c c' : Client Line}, c.Rouse c' → c'.rank = c.rank := by
    intro c c' hr
    have hhandler : c'.handler.rank = c.handler.rank := hr.handler.class_eq rfl rfl
    unfold Client.rank
    rw [hhandler, hr.reader, hr.inbox]
  unfold State.rank
  cases hstep with
  | act i ha hw =>
    rename_i n k
    have hsum := Tally.sum_update Client.rank s.client (h.spawned ha.live) n
    have hwoken : ∑ j ∈ Finset.range s.shared.spawned, (s'.client j).rank
        = ∑ j ∈ Finset.range s.shared.spawned, (Function.update s.client i n j).rank :=
      Finset.sum_congr rfl fun j _ => hrouse (hw.rouse j)
    have hlt := ha.rank_lt hdraining
    rw [ha.fixed.1]
    omega
  | load loaded hloading hne =>
    refine Nat.add_lt_add_right ?_ _
    unfold Shared.rank
    dsimp only
    rw [hloading]
    cases loaded with
    | loading => exact absurd rfl hne
    | ready | failed => simp only [Loaded.rank]; split <;> omega
  | announce hannounce hshared hw =>
    rw [hshared]
    have hwoken : ∑ j ∈ Finset.range s.shared.spawned, (s'.client j).rank
        = ∑ j ∈ Finset.range s.shared.spawned, (s.client j).rank :=
      Finset.sum_congr rfl fun j _ => hrouse (hw.rouse j)
    unfold Shared.rank
    dsimp only
    rw [hwoken, hannounce]
    simp
  | serve_top hserver =>
    refine Nat.add_lt_add_right ?_ _
    unfold Shared.rank
    dsimp only
    rw [hserver, hdraining]
    simp [Server.rank]
  | serve_looked draining hserver =>
    refine Nat.add_lt_add_right ?_ _
    unfold Shared.rank
    dsimp only
    rw [hserver]
    cases draining <;> simp [Server.rank]
  | serve_accepted n rest hserver hevents hlt =>
    have hsum : ∑ j ∈ Finset.range s.shared.spawned,
          (Function.update s.client s.shared.spawned Client.accepted j).rank
        = ∑ j ∈ Finset.range s.shared.spawned, (s.client j).rank :=
      Finset.sum_congr rfl fun j hj => by
        rw [update_of_ne (ne_of_lt (Finset.mem_range.mp hj))]
    have hnew : (Client.accepted : Client Line).rank = 24 := rfl
    dsimp only
    rw [Finset.sum_range_succ, update_self, hsum, hnew]
    unfold Shared.rank
    dsimp only
    rw [hserver, hevents]
    simp only [Server.rank, List.length_cons, Bool.false_eq_true, if_false]
    omega
  | serve_turned_away draining n rest hserver hevents
  | serve_wake draining n rest hserver hevents | serve_failed draining n rest hserver hevents =>
    refine Nat.add_lt_add_right ?_ _
    unfold Shared.rank
    dsimp only
    rw [hserver, hevents]
    simp only [Server.rank, List.length_cons]
    split <;> omega

/-! ## Somebody can step -/

theorem Woken.exists (connections : Finset ℕ) (k : Wake) (cs : ℕ → Client Line) :
    ∃ cs', Woken connections k cs cs' := by
  cases k with
  | quiet => exact ⟨_, .quiet⟩
  | asking => exact ⟨_, .asking⟩
  | greeting => exact ⟨_, .greeting⟩
  | both => exact ⟨_, .both⟩
  | drain => exact ⟨_, .drain⟩
  | one =>
    by_cases hno : ∃ j, (cs j).handler = .queued
    · obtain ⟨j, hj⟩ := hno
      exact ⟨_, .one j hj⟩
    · exact ⟨cs, .nobody fun j hj => hno ⟨j, hj⟩⟩

variable {s : Shared} {c : Client Line}

/-- A handler that is not at its channel, asleep or joining can act. -/
theorem Act.exists_handler (hreceive : c.handler ≠ .receive) (hasleep : c.handler.asleep = false)
    (hjoin : c.handler ≠ .join) (hended : c.handler ≠ .ended) :
    ∃ s' n k, Act p query_limit s c s' n k := by
  cases hh : c.handler with
  | setup => exact ⟨_, _, _, .setup true hh⟩
  | register =>
    cases hd : s.draining with
    | true => exact ⟨_, _, _, .refused hh hd⟩
    | false => exact ⟨_, _, _, .register hh hd⟩
  | spawn => exact ⟨_, _, _, .spawn hh⟩
  | hello => exact ⟨_, _, _, .hello hh⟩
  | check =>
    by_cases hsleep : s.loaded = .loading ∧ c.cancelled = false ∧ s.draining = false
    · exact ⟨_, _, _, .doze hh hsleep.1 hsleep.2.1 hsleep.2.2⟩
    · refine ⟨_, _, _, .checked hh ?_⟩
      grind
  | doze | queued =>
    rw [hh] at hasleep
    cases hasleep
  | hello_again => exact ⟨_, _, _, .hello_again hh⟩
  | turn => exact ⟨_, _, _, .turn hh⟩
  | receive => exact absurd hh hreceive
  | woken => exact ⟨_, _, _, .woken hh⟩
  | woken_draining => exact ⟨_, _, _, .woken_draining hh⟩
  | answer line => exact ⟨_, _, _, .answer true line hh⟩
  | ask =>
    by_cases hstop : s.draining = true ∨ c.cancelled = true
    · exact ⟨_, _, _, .not_admitted hh hstop⟩
    · have hd : s.draining = false := by grind
      have hc : c.cancelled = false := by grind
      rcases lt_or_ge s.queries query_limit with hlt | hge
      · exact ⟨_, _, _, .admitted hh hd hc hlt⟩
      · exact ⟨_, _, _, .wait hh hd hc hge⟩
  | execute permit => exact ⟨_, _, _, .execute true permit hh⟩
  | release ok => exact ⟨_, _, _, .release ok hh⟩
  | notify ok => exact ⟨_, _, _, .notify ok hh⟩
  | ran => exact ⟨_, _, _, .ran hh⟩
  | hang_up => exact ⟨_, _, _, .hang_up hh⟩
  | shutdown => exact ⟨_, _, _, .shutdown hh⟩
  | join => exact absurd hh hjoin
  | unregister => exact ⟨_, _, _, .unregister hh⟩
  | discount => exact ⟨_, _, _, .discount hh⟩
  | tell => exact ⟨_, _, _, .tell hh⟩
  | wake_listener => exact ⟨_, _, _, .wake_listener hh⟩
  | ended => exact absurd hh hended

/-- A reader can act, unless it waits for input that may come. -/
theorem Act.exists_reader (habsent : c.reader ≠ .absent) (hended : c.reader ≠ .ended)
    (hread : c.reader = .read → c.inbox = [] → c.shut = true) :
    ∃ s' n k, Act p query_limit s c s' n k := by
  cases hr : c.reader with
  | absent => exact absurd hr habsent
  | read =>
    cases hin : c.inbox with
    | nil => exact ⟨_, _, _, .read_end hr hin (.inr (hread hr hin))⟩
    | cons line rest => exact ⟨_, _, _, .read line rest hr hin⟩
  | line line =>
    cases hop : p.op line with
    | none =>
      cases hsend : c.try_send (.line line) with
      | none => exact ⟨_, _, _, .line_refused line hr hop hsend⟩
      | some _ => exact ⟨_, _, _, .line_sent line hr hop hsend⟩
    | some control =>
      cases control with
      | cancel => exact ⟨_, _, _, .line_cancel line hr hop⟩
      | drain => exact ⟨_, _, _, .line_drain line hr hop⟩
  | shutdown_write => exact ⟨_, _, _, .shutdown_write hr⟩
  | cancel => exact ⟨_, _, _, .cancel hr⟩
  | unregister => exact ⟨_, _, _, .reader_unregister hr⟩
  | drop_send => exact ⟨_, _, _, .drop_send hr⟩
  | shutdown => exact ⟨_, _, _, .reader_shutdown hr⟩
  | ended => exact absurd hr hended

/-- Whether both threads of a connection have come to their end. -/
def Client.finished (c : Client Line) : Prop :=
  c.handler = .ended ∧ (c.reader = .absent ∨ c.reader = .ended)

/-- A connection that is not over can act, if the host drains. -/
theorem Client.Sound.exists_act (hc : c.Sound s) (hasleep : c.handler.asleep = false)
    (hwoken : c.handler = .receive → c.slot ≠ Option.none ∨ c.reader.past = true)
    (hover : ¬ c.finished) : ∃ s' n k, Act p query_limit s c s' n k := by
  by_cases hjoin : c.handler = .join
  · -- it waits for its reader, whose socket is shut
    by_cases hended : c.reader = .ended
    · exact ⟨_, _, _, .join hjoin hended⟩
    · exact Act.exists_reader (hc.served (by rw [hjoin]; rfl)) hended fun _ _ => hc.shut hjoin
  by_cases hreceive : c.handler = .receive
  · cases hslot : c.slot with
    | some message =>
      cases message with
      | line line => exact ⟨_, _, _, .receive_line line hreceive hslot⟩
      | wake => exact ⟨_, _, _, .receive_wake hreceive hslot⟩
    | none =>
      -- its reader has unregistered it, and is about to drop its sender
      have hpast : c.reader.past = true := (hwoken hreceive).resolve_left fun h => h hslot
      cases hsends : c.reader.sends with
      | false => exact ⟨_, _, _, .disconnected hreceive hslot (hc.past hpast) hsends⟩
      | true =>
        refine Act.exists_reader ?_ ?_ ?_
        · intro hr
          rw [hr] at hpast
          cases hpast
        · intro hr
          rw [hr] at hsends
          cases hsends
        · intro hr
          rw [hr] at hpast
          cases hpast
  by_cases hended : c.handler = .ended
  · exact absurd ⟨hended, hc.late (by rw [hended]; rfl)⟩ hover
  · exact Act.exists_handler hreceive hasleep hjoin hended

end

section

variable {p : Protocol Line} {query_limit : ℕ} {s s' : State Line}

theorem State.Sound.progress (h : s.Sound query_limit) (hdraining : s.shared.draining = true)
    {i : ℕ} (hover : ¬ (s.client i).finished) : ∃ s', Step p query_limit s s' := by
  have hasleep : (s.client i).handler.asleep = false := by
    by_contra hsleep
    have hfalse := (h.asleep i (by simpa using hsleep)).1
    rw [hdraining] at hfalse
    cases hfalse
  have hact : ∃ shared n k, Act p query_limit s.shared (s.client i) shared n k :=
    (h.client i).exists_act hasleep (h.woken i hdraining) hover
  obtain ⟨shared, n, k, ha⟩ := hact
  obtain ⟨cs, hw⟩ := Woken.exists shared.connections k (Function.update s.client i n)
  exact ⟨⟨shared, cs⟩, .act i ha hw⟩

/-- A host whose connections are all over has let go of them. -/
theorem State.Sound.finished (h : s.Sound query_limit) (hover : ∀ i, (s.client i).finished) :
    s.shared.clients = 0 ∧ s.shared.queries = 0 ∧ s.shared.connections = ∅ := by
  refine ⟨?_, ?_, ?_⟩
  · rw [h.clients]
    exact Finset.sum_eq_zero fun i _ => by rw [(hover i).1]; rfl
  · rw [h.queries]
    exact Finset.sum_eq_zero fun i _ => by rw [(hover i).1]; rfl
  · refine Finset.eq_empty_of_forall_notMem fun id hid => ?_
    obtain ⟨i, -, hkeeps⟩ := h.connections id hid
    rw [(hover i).1] at hkeeps
    cases hkeeps

/-! ## Nobody is admitted -/

theorem Act.permits_le {sh sh' : Shared} {c n : Client Line} {k : Wake}
    (ha : Act p query_limit sh c sh' n k) (hdraining : sh.draining = true) :
    sh'.draining = true ∧ n.handler.permits ≤ c.handler.permits := by
  cases ha
  all_goals grind [Handler.permits, Client.go, Client.reads, Shared.unregister, Client.try_send]

/-- **A host that drains goes on draining, and hands out no permit.** -/
theorem Step.drains (hstep : Step p query_limit s s') (hdraining : s.shared.draining = true) :
    s'.shared.draining = true
      ∧ ∀ i, (s'.client i).handler.permits ≤ (s.client i).handler.permits := by
  cases hstep with
  | act i ha hw =>
    obtain ⟨hd, hle⟩ := ha.permits_le hdraining
    refine ⟨hd, fun j => ?_⟩
    rw [(hw.rouse j).handler.class_eq (f := Handler.permits) rfl rfl]
    by_cases hj : j = i
    · subst hj
      rw [update_self]
      exact hle
    · rw [update_of_ne hj]
  | announce _ hshared hw =>
    rw [hshared]
    refine ⟨hdraining, fun j => ?_⟩
    rw [(hw.rouse j).handler.class_eq (f := Handler.permits) rfl rfl]
  | serve_accepted n _ _ _ _ =>
    refine ⟨hdraining, fun j => ?_⟩
    show (Function.update s.client _ _ j).handler.permits ≤ _
    by_cases hj : j = s.shared.spawned
    · subst hj
      rw [update_self]
      exact Nat.zero_le _
    · rw [update_of_ne hj]
  | load | serve_top | serve_looked | serve_turned_away | serve_wake | serve_failed =>
    exact ⟨hdraining, fun _ => le_rfl⟩

theorem Outside.drains (hout : Outside s s') (hdraining : s.shared.draining = true) :
    s'.shared.draining = true
      ∧ ∀ i, (s'.client i).handler.permits ≤ (s.client i).handler.permits := by
  have hput : ∀ (i : ℕ) (c : Client Line), (s.client i).handler.Rouse c.handler → ∀ j,
      ((s.put i c).client j).handler.permits ≤ (s.client j).handler.permits := by
    intro i c hr j
    show (Function.update s.client i c j).handler.permits ≤ _
    by_cases hj : j = i
    · subst hj
      rw [update_self, hr.class_eq (f := Handler.permits) rfl rfl]
    · rw [update_of_ne hj]
  cases hout with
  | accept | leave => exact ⟨hdraining, fun _ => le_rfl⟩
  | send i | hang_up i | read_failed i => exact ⟨hdraining, hput i _ .same⟩
  | fatal hshared hw =>
    rw [hshared]
    refine ⟨rfl, fun j => ?_⟩
    rw [(hw.rouse j).handler.class_eq (f := Handler.permits) rfl rfl]
  | spurious i => exact ⟨hdraining, hput i _ (s.client i).handler.rouse_both⟩

/-! ## Runs -/

/-- So many steps of the host's own threads, and no others. -/
inductive Steps (p : Protocol Line) (query_limit : ℕ) : ℕ → State Line → State Line → Prop
  | refl {a : State Line} : Steps p query_limit 0 a a
  | tail {m : ℕ} {a b c : State Line} : Steps p query_limit m a b → Step p query_limit b c →
    Steps p query_limit (m + 1) a c

theorem Steps.drains {m : ℕ} (hsteps : Steps p query_limit m s s') (h : s.Sound query_limit)
    (hdraining : s.shared.draining = true) :
    s'.Sound query_limit ∧ s'.shared.draining = true ∧ m + s'.rank ≤ s.rank := by
  induction hsteps with
  | refl => exact ⟨h, hdraining, le_of_eq (zero_add _)⟩
  | tail _ hstep ih =>
    obtain ⟨hsound, hd, _⟩ := ih h hdraining
    have hlt := hstep.rank_lt hsound hd
    exact ⟨hstep.sound hsound, (hstep.drains hd).1, by omega⟩

/-- **Admission and drain.** In every state a host can come to, at most
`query_limit` queries are admitted; a handler asleep in `admit` has not been
cancelled, the host is not draining, and every free place has a handler about
to ask for it or to notify a sleeper of it; and one asleep in `greet` waits
for a load that is still to be announced. Once the host drains, no step admits
a query, and its threads, left to themselves, come to a state where every
handler and reader has ended, no client is counted and none is registered. -/
theorem admits_and_drains {s : State Line} (hs : Reached p query_limit s) :
    (s.shared.queries = ∑ i ∈ Finset.range s.shared.spawned, (s.client i).handler.permits
      ∧ s.shared.queries ≤ query_limit)
    ∧ (∀ i, (s.client i).handler = .queued →
      s.shared.draining = false ∧ (s.client i).cancelled = false
        ∧ query_limit
          ≤ s.shared.queries + ∑ j ∈ Finset.range s.shared.spawned, (s.client j).stirs)
    ∧ (∀ i, (s.client i).handler = .doze →
      s.shared.draining = false ∧ (s.client i).cancelled = false
        ∧ (s.shared.loaded = .loading ∨ s.shared.announce = true))
    ∧ (s.shared.draining = true →
      (∀ s', Step p query_limit s s' ∨ Outside s s' → s'.shared.draining = true
        ∧ ∀ i, (s'.client i).handler.permits ≤ (s.client i).handler.permits)
      ∧ ∀ m s', Steps p query_limit m s s' → m ≤ s.rank
        ∧ ((∃ s'', Step p query_limit s' s'')
          ∨ ((∀ i, (s'.client i).finished) ∧ s'.shared.clients = 0 ∧ s'.shared.queries = 0
            ∧ s'.shared.connections = ∅))) := by
  have h := hs.sound
  refine ⟨⟨h.queries, h.limit⟩, fun i hi => ?_, fun i hi => ?_, fun hdraining => ⟨?_, ?_⟩⟩
  · obtain ⟨hd, hc⟩ := h.asleep i (by rw [hi]; rfl)
    exact ⟨hd, hc, h.awake ⟨i, hi⟩⟩
  · obtain ⟨hd, hc⟩ := h.asleep i (by rw [hi]; rfl)
    exact ⟨hd, hc, (h.client i).doze hi⟩
  · rintro s' (hstep | hout)
    · exact hstep.drains hdraining
    · exact hout.drains hdraining
  · intro m s' hsteps
    obtain ⟨hsound, hd, _⟩ := hsteps.drains h hdraining
    refine ⟨by omega, ?_⟩
    by_cases hover : ∀ i, (s'.client i).finished
    · exact .inr ⟨hover, hsound.finished hover⟩
    · obtain ⟨i, hi⟩ := not_forall.mp hover
      exact .inl (hsound.progress hd hi)

/-- A step of one connection, in a run. -/
theorem Reached.act {shared shared' : Shared} {cs cs' : ℕ → Client Line} {n : Client Line}
    {k : Wake} (hs : Reached p query_limit ⟨shared, cs⟩) (i : ℕ)
    (ha : Act p query_limit shared (cs i) shared' n k)
    (hw : Woken shared'.connections k (Function.update cs i n) cs') :
    Reached p query_limit ⟨shared', cs'⟩ :=
  hs.step (.act i ha hw)

/-- A handler blocked on its channel when the host drains. -/
theorem drains_at_the_channel : ∃ s : State Unit,
    Reached ⟨fun _ => Option.none, fun _ => some .query⟩ 1 s ∧ s.shared.draining = true
      ∧ (s.client 0).handler = .receive ∧ (s.client 0).slot = some .wake
      ∧ ∀ m s', Steps ⟨fun _ => Option.none, fun _ => some .query⟩ 1 m s s' → m ≤ s.rank := by
  let p : Protocol Unit := ⟨fun _ => Option.none, fun _ => some .query⟩
  have hready : Reached p 1 _ := Reached.start.step (.load .ready rfl nofun)
  have hcome := hready.outside (.accept .accepted nofun)
  have hserved := ((hcome.step (.serve_top rfl)).step (.serve_looked false rfl)).step
    (.serve_accepted 0 [] rfl rfl (by decide))
  have hregistered := (hserved.act 0 (.setup true rfl) .quiet).act 0 (.register rfl rfl) .quiet
  have hgreeted := (hregistered.act 0 (.spawn rfl) .quiet).act 0 (.hello rfl) .quiet
  have hwaiting := hgreeted.act 0 (.turn rfl) .quiet
  have hdrained : Reached p 1 ⟨_, _⟩ := hwaiting.outside (.fatal rfl .drain)
  refine ⟨_, hdrained, rfl, rfl, rfl, fun m s' hsteps => ?_⟩
  exact (((admits_and_drains hdrained).2.2.2 rfl).2 m s' hsteps).1

end

end

end Ferret.Daemon
