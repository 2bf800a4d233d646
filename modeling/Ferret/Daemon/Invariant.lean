import Ferret.Daemon.Host
import Ferret.Lib.Tally

/-!
# What holds of every state of a host

`queries` counts the handlers that hold a permit, `clients` those that have
not given up their count, and the registry the handlers between registering
and unregistering whose reader has not unregistered for them.

Nobody sleeps through what they wait for. A handler asleep has not been
cancelled and the host is not draining; and while one is asleep in `admit`,
every free place is matched by a handler that is about to ask for it or about
to notify a sleeper of it. A handler blocked on its channel in a host that
drains has a message there, or a reader that is about to disconnect it.
-/

namespace Ferret.Daemon

section

variable {Line : Type}

/-- Whether a handler here holds a permit. -/
def Handler.permits : Handler Line → ℕ
  | .execute true | .release _ => 1
  | _ => 0

/-- Whether a handler here is counted in `clients`. -/
def Handler.counts : Handler Line → ℕ
  | .tell | .wake_listener | .ended => 0
  | _ => 1

/-- Whether a handler here has yet to unregister. -/
def Handler.keeps : Handler Line → Bool
  | .setup | .register | .discount | .tell | .wake_listener | .ended => false
  | _ => true

/-- Whether a handler here has a reader. -/
def Handler.served : Handler Line → Bool
  | .setup | .register | .spawn | .unregister | .discount | .tell | .wake_listener | .ended => false
  | _ => true

/-- Whether a handler here has no reader yet. -/
def Handler.early : Handler Line → Bool
  | .setup | .register | .spawn => true
  | _ => false

/-- Whether a handler here has joined its reader, or never had one. -/
def Handler.late : Handler Line → Bool
  | .unregister | .discount | .tell | .wake_listener | .ended => true
  | _ => false

/-- Whether a handler here has not dropped its end of the channel. -/
def Handler.listens : Handler Line → Bool
  | .shutdown | .join | .unregister | .discount | .tell | .wake_listener | .ended => false
  | _ => true

def Handler.asleep : Handler Line → Bool
  | .doze | .queued => true
  | _ => false

/-- Whether a reader here has unregistered the connection. -/
def Reader.past : Reader Line → Bool
  | .drop_send | .shutdown | .ended => true
  | _ => false

/-- Whether a handler will ask for a free place, or notify one that sleeps. -/
def Client.stirs (c : Client Line) : ℕ :=
  match c.handler with
  | .ask => if c.cancelled then 0 else 1
  | .notify _ => 1
  | _ => 0

/-- What holds of one connection. -/
structure Client.Sound (s : Shared) (c : Client Line) : Prop where
  doze : c.handler = .doze → s.loaded = .loading ∨ s.announce = true
  keeps : c.handler.keeps = true → c.reader.past = false → c.registered s.connections = true
  past : c.reader.past = true → c.registered s.connections = false
  id : ∀ id, c.id = some id → id < s.next_connection
  shut : c.handler = .join → c.shut = true
  served : c.handler.served = true → c.reader ≠ .absent
  early : c.handler.early = true → c.reader = .absent
  late : c.handler.late = true → c.reader = .absent ∨ c.reader = .ended
  receiving : c.handler.listens = true → c.receiving = true

/-- **The invariant of a host.** -/
structure State.Sound (query_limit : ℕ) (s : State Line) : Prop where
  queries : s.shared.queries = ∑ i ∈ Finset.range s.shared.spawned, (s.client i).handler.permits
  limit : s.shared.queries ≤ query_limit
  clients : s.shared.clients = ∑ i ∈ Finset.range s.shared.spawned, (s.client i).handler.counts
  unspawned : ∀ i, s.shared.spawned ≤ i → s.client i = Client.none
  client : ∀ i, (s.client i).Sound s.shared
  distinct : ∀ i j id, (s.client i).id = some id → (s.client j).id = some id → i = j
  connections : ∀ id ∈ s.shared.connections,
    ∃ i, (s.client i).id = some id ∧ (s.client i).handler.keeps = true
  asleep : ∀ i, (s.client i).handler.asleep = true →
    s.shared.draining = false ∧ (s.client i).cancelled = false
  woken : ∀ i, s.shared.draining = true → (s.client i).handler = .receive →
    (s.client i).slot ≠ Option.none ∨ (s.client i).reader.past = true
  awake : (∃ i, (s.client i).handler = .queued) →
    query_limit ≤ s.shared.queries + ∑ i ∈ Finset.range s.shared.spawned, (s.client i).stirs

/-! ## Notifications -/

/-- How a notification may move a handler. -/
inductive Handler.Rouse : Handler Line → Handler Line → Prop
  | same {h} : Rouse h h
  | checks : Rouse .doze .check
  | asks : Rouse .queued .ask

/-- How a notification may change a connection. -/
structure Client.Rouse (c c' : Client Line) : Prop where
  handler : c.handler.Rouse c'.handler
  reader : c'.reader = c.reader
  id : c'.id = c.id
  cancelled : c'.cancelled = c.cancelled
  slot : c.slot ≠ Option.none → c'.slot = c.slot
  receiving : c'.receiving = c.receiving
  inbox : c'.inbox = c.inbox
  hung_up : c'.hung_up = c.hung_up
  shut : c'.shut = c.shut

theorem Client.Rouse.refl (c : Client Line) : c.Rouse c :=
  ⟨.same, rfl, rfl, rfl, fun _ => rfl, rfl, rfl, rfl, rfl⟩

section

variable {h h' : Handler Line} {connections : Finset ℕ} {cs cs' : ℕ → Client Line}

theorem Client.Rouse.go {c : Client Line} (hh : c.handler.Rouse h) :
    c.Rouse { c with handler := h } :=
  ⟨hh, rfl, rfl, rfl, fun _ => rfl, rfl, rfl, rfl, rfl⟩

theorem Handler.rouse_asking (h : Handler Line) : h.Rouse h.asking := by
  induction h
  case queued => exact .asks
  all_goals exact .same

theorem Handler.rouse_greeting (h : Handler Line) : h.Rouse h.greeting := by
  induction h
  case doze => exact .checks
  all_goals exact .same

theorem Handler.rouse_both (h : Handler Line) : h.Rouse h.greeting.asking := by
  induction h
  case doze => exact .checks
  case queued => exact .asks
  all_goals exact .same

theorem Client.drained_rouse (connections : Finset ℕ) (c : Client Line) :
    c.Rouse (c.drained connections) := by
  unfold Client.drained
  split
  · unfold Client.try_send
    split
    · rename_i hfree
      have hslot : c.slot = Option.none := by simp at hfree; exact hfree.2
      exact ⟨c.handler.rouse_both, rfl, rfl, rfl, fun h => absurd hslot h, rfl, rfl, rfl, rfl⟩
    · exact .go c.handler.rouse_both
  · exact .go c.handler.rouse_both

theorem Woken.rouse {k : Wake} (h : Woken connections k cs cs') (j : ℕ) : (cs j).Rouse (cs' j) := by
  cases h with
  | quiet | nobody => exact .refl _
  | one i hi =>
    by_cases hj : j = i
    · subst hj
      rw [Function.update_self]
      refine .go ?_
      rw [hi]
      exact .asks
    · rw [Function.update_of_ne hj]
      exact .refl _
  | asking => exact .go (cs j).handler.rouse_asking
  | greeting => exact .go (cs j).handler.rouse_greeting
  | both => exact .go (cs j).handler.rouse_both
  | drain => exact (cs j).drained_rouse connections

theorem Woken.eq_drained
    (h : Woken connections .drain cs cs') (j : ℕ) : cs' j = (cs j).drained connections := by
  cases h
  rfl

/-- What does not tell a sleeper from a handler just notified is unchanged. -/
theorem Handler.Rouse.class_eq {α : Type} {f : Handler Line → α} (hdoze : f .check = f .doze)
    (hqueued : f .ask = f .queued) (hr : h.Rouse h') : f h' = f h := by
  cases hr with
  | same => rfl
  | checks => exact hdoze
  | asks => exact hqueued

/-- A handler that is not where a notification leads has not moved. -/
theorem Handler.Rouse.stays (hr : h.Rouse h') (hcheck : h' ≠ .check)
    (hask : h' ≠ .ask) : h = h' := by
  cases hr with
  | same => rfl
  | checks => exact absurd rfl hcheck
  | asks => exact absurd rfl hask

theorem Handler.Rouse.asleep (hr : h.Rouse h') (hs : h'.asleep = true) : h = h' := by
  refine hr.stays ?_ ?_ <;>
  · rintro rfl
    cases hs

/-- Whom each notification leaves asleep. -/
theorem Woken.asleep {k : Wake} {j : ℕ}
    (h : Woken connections k cs cs') (hj : (cs' j).handler.asleep = true) :
    k ≠ .both ∧ k ≠ .drain ∧ (k = .asking → (cs' j).handler = .doze)
      ∧ (k = .greeting → (cs' j).handler = .queued) := by
  have hboth : ∀ h : Handler Line, h.greeting.asking.asleep = false := by
    intro h
    cases h <;> rfl
  have hdrained : ∀ c : Client Line, (c.drained connections).handler.asleep = false := by
    intro c
    unfold Client.drained Client.try_send
    split
    · split <;> exact hboth _
    · exact hboth _
  cases h with
  | quiet | nobody | one => refine ⟨?_, ?_, ?_, ?_⟩ <;> nofun
  | asking =>
    refine ⟨nofun, nofun, fun _ => ?_, nofun⟩
    revert hj
    show (Handler.asking _).asleep = true → Handler.asking _ = _
    cases (cs j).handler <;> first | exact fun _ => rfl | nofun
  | greeting =>
    refine ⟨nofun, nofun, nofun, fun _ => ?_⟩
    revert hj
    show (Handler.greeting _).asleep = true → Handler.greeting _ = _
    cases (cs j).handler <;> first | exact fun _ => rfl | nofun
  | both =>
    have hj : (cs j).handler.greeting.asking.asleep = true := hj
    rw [hboth] at hj
    cases hj
  | drain =>
    rw [hdrained] at hj
    cases hj

/-- A drain leaves a message in every registered channel that is received
from. -/
theorem Client.drained_slot {c : Client Line}
    (hreg : c.registered connections = true) (hreceiving : c.receiving = true) :
    (c.drained connections).slot ≠ Option.none := by
  unfold Client.drained Client.try_send
  rw [if_pos hreg, hreceiving]
  cases hslot : c.slot with
  | none => nofun
  | some _ =>
    show c.slot ≠ _
    rw [hslot]
    nofun

end

/-! ## What one act does, apart from the other connections -/

section

variable {p : Protocol Line} {query_limit : ℕ} {s s' : Shared} {c n : Client Line} {k : Wake}
  (h : Act p query_limit s c s' n k)

include h

attribute [local grind] Client.go Client.reads Client.try_send Shared.unregister

theorem Act.permits (hle : c.handler.permits ≤ s.queries) :
    s'.queries + c.handler.permits = s.queries + n.handler.permits := by
  induction h
  all_goals grind [Handler.permits]

theorem Act.limit (hle : s.queries ≤ query_limit) :
    s'.queries ≤ query_limit := by
  induction h
  all_goals grind

theorem Act.counts (hle : c.handler.counts ≤ s.clients) :
    s'.clients + c.handler.counts = s.clients + n.handler.counts := by
  induction h
  all_goals grind [Handler.counts]

theorem Act.fixed :
    s'.spawned = s.spawned ∧ s'.loaded = s.loaded ∧ s'.announce = s.announce
      ∧ s'.server = s.server := by
  induction h
  all_goals exact ⟨rfl, rfl, rfl, rfl⟩

theorem Act.draining :
    s'.draining = s.draining ∨ s'.draining = true ∧ k = .drain := by
  induction h
  all_goals grind

/-- The registry is left alone, or takes the connection in under a new key, or
lets it go. -/
theorem Act.registry :
    (s'.connections = s.connections ∧ s'.next_connection = s.next_connection ∧ n.id = c.id
      ∧ (c.handler.keeps = true → n.handler.keeps = true))
    ∨ (s'.connections = insert s.next_connection s.connections
      ∧ s'.next_connection = s.next_connection + 1 ∧ n.id = some s.next_connection
      ∧ c.handler.early = true ∧ c.handler.keeps = false ∧ n.handler.keeps = true ∧ k = .quiet)
    ∨ (s'.connections = s.connections.filter (fun k => c.id ≠ some k)
      ∧ s'.next_connection = s.next_connection ∧ n.id = c.id) := by
  induction h
  all_goals grind [Handler.keeps, Handler.early]

omit h in
theorem Client.registered_iff {connections : Finset ℕ} {c : Client Line} :
    c.registered connections = true ↔ ∃ id, c.id = some id ∧ id ∈ connections := by
  unfold Client.registered
  cases c.id with
  | none => simp
  | some id => simp

/-- A connection that is kept is left registered, or is taken in now. -/
theorem Act.keeping
    (hkeeps : n.handler.keeps = true) (hpast : n.reader.past = false) :
    (s'.connections = s.connections ∧ n.id = c.id ∧ c.handler ≠ .register)
      ∨ (s'.connections = insert s.next_connection s.connections ∧ n.id = some s.next_connection) :=
        by
  induction h
  case line_sent => grind [Handler.keeps]
  all_goals grind [Handler.keeps, Reader.past]

theorem Act.kept (hkeeps : n.handler.keeps = true) :
    c.handler.keeps = true ∨ c.handler = .register := by
  induction h
  all_goals grind [Handler.keeps]

theorem Act.unpassed (hpast : n.reader.past = false) :
    c.reader.past = false ∨ c.handler = .spawn := by
  induction h
  all_goals grind [Reader.past]

/-- A connection whose reader is past was so before, or is let go now. -/
theorem Act.passing
    (hearly : c.handler.early = true → c.reader = .absent) (hpast : n.reader.past = true) :
    (s'.connections = s.connections ∧ n.id = c.id ∧ c.reader.past = true)
      ∨ (s'.connections = s.connections.filter (fun k => c.id ≠ some k) ∧ n.id = c.id) := by
  induction h
  all_goals grind [Handler.early, Reader.past]

theorem Act.dozes
    (hdoze : c.handler = .doze → s.loaded = .loading ∨ s.announce = true) :
    n.handler = .doze → s'.loaded = .loading ∨ s'.announce = true := by
  induction h
  all_goals grind

theorem Act.numbered
    (hid : ∀ id, c.id = some id → id < s.next_connection) :
    ∀ id, n.id = some id → id < s'.next_connection := by
  induction h
  all_goals grind

theorem Act.shuts (hshut : c.handler = .join → c.shut = true) :
    n.handler = .join → n.shut = true := by
  induction h
  all_goals grind

theorem Act.served
    (hserved : c.handler.served = true → c.reader ≠ .absent) :
    n.handler.served = true → n.reader ≠ .absent := by
  induction h
  all_goals grind [Handler.served]

theorem Act.early
    (hearly : c.handler.early = true → c.reader = .absent) :
    n.handler.early = true → n.reader = .absent := by
  induction h
  all_goals grind [Handler.early]

theorem Act.late
    (hlate : c.handler.late = true → c.reader = .absent ∨ c.reader = .ended)
    (hearly : c.handler.early = true → c.reader = .absent) :
    n.handler.late = true → n.reader = .absent ∨ n.reader = .ended := by
  induction h
  all_goals grind [Handler.late, Handler.early]

theorem Act.listens
    (hlistens : c.handler.listens = true → c.receiving = true) :
    n.handler.listens = true → n.receiving = true := by
  induction h
  all_goals grind [Handler.listens]

/-- The connection itself, after an act. -/
theorem Act.sound (hc : c.Sound s) : n.Sound s' where
  doze := h.dozes hc.doze
  keeps hkeeps hpast := by
    rcases h.keeping hkeeps hpast with ⟨hsame, hid, hnot⟩ | ⟨hnew, hid⟩
    · rw [Client.registered, hid, hsame]
      refine hc.keeps ((h.kept hkeeps).resolve_right hnot) ?_
      rcases h.unpassed hpast with hread | hspawn
      · exact hread
      · rw [hc.early (by rw [hspawn]; rfl)]
        rfl
    · rw [Client.registered_iff]
      exact ⟨_, hid, hnew ▸ Finset.mem_insert_self ..⟩
  past hpast := by
    rcases h.passing hc.early hpast with ⟨hsame, hid, hbefore⟩ | ⟨hgone, hid⟩
    · rw [Client.registered, hid, hsame]
      exact hc.past hbefore
    · rw [← Bool.not_eq_true, Client.registered_iff]
      rintro ⟨i, hi, hmem⟩
      rw [hgone, Finset.mem_filter] at hmem
      exact hmem.2 (hid ▸ hi)
  id := h.numbered hc.id
  shut := h.shuts hc.shut
  served := h.served hc.served
  early := h.early hc.early
  late := h.late hc.late hc.early
  receiving := h.listens hc.receiving

/-- Another connection is registered after an act if it was before. -/
theorem Act.registered_other {o : Client Line}
    (hid : ∀ id, o.id = some id → id < s.next_connection ∧ c.id ≠ some id) :
    o.registered s'.connections = o.registered s.connections := by
  rw [Bool.eq_iff_iff, Client.registered_iff, Client.registered_iff]
  refine exists_congr fun id => and_congr_right fun ho => ?_
  obtain ⟨hlt, hne⟩ := hid id ho
  rcases h.registry with ⟨hconn, -⟩ | ⟨hconn, -⟩ | ⟨hconn, -⟩
  · rw [hconn]
  · rw [hconn, Finset.mem_insert, or_iff_right (ne_of_lt hlt)]
  · rw [hconn, Finset.mem_filter, and_iff_left hne]

theorem Act.next_le :
    s.next_connection ≤ s'.next_connection := by
  rcases h.registry with ⟨-, hnext, -⟩ | ⟨-, hnext, -⟩ | ⟨-, hnext, -⟩ <;> omega

/-- Another connection, after an act. -/
theorem Act.sound_other {o : Client Line} (ho : o.Sound s)
    (hid : ∀ id, o.id = some id → c.id ≠ some id) : o.Sound s' := by
  have hreg := h.registered_other fun id hid' => ⟨ho.id id hid', hid id hid'⟩
  obtain ⟨-, hloaded, hannounce, -⟩ := h.fixed
  exact { ho with
    doze := by
      rw [hloaded, hannounce]
      exact ho.doze
    keeps := by
      rw [hreg]
      exact ho.keeps
    past := by
      rw [hreg]
      exact ho.past
    id := fun id hid' => lt_of_lt_of_le (ho.id id hid') h.next_le }

/-- How a connection may change apart from what its own threads do: a
notification, or more input. -/
structure Client.Like (c c' : Client Line) : Prop where
  handler : c.handler.Rouse c'.handler
  past : c'.reader.past = c.reader.past
  absent : c'.reader = .absent ↔ c.reader = .absent
  ended : c'.reader = .ended ↔ c.reader = .ended
  id : c'.id = c.id
  cancelled : c'.cancelled = c.cancelled
  slot : c.slot ≠ Option.none → c'.slot = c.slot
  receiving : c'.receiving = c.receiving
  shut : c'.shut = c.shut

omit h in
theorem Client.Rouse.like (hr : c.Rouse n) : c.Like n where
  handler := hr.handler
  past := by rw [hr.reader]
  absent := by rw [hr.reader]
  ended := by rw [hr.reader]
  id := hr.id
  cancelled := hr.cancelled
  slot := hr.slot
  receiving := hr.receiving
  shut := hr.shut

omit h in
theorem Client.Sound.like (hc : c.Sound s) (hl : c.Like n) : n.Sound s := by
  have hkeeps : n.handler.keeps = c.handler.keeps := hl.handler.class_eq rfl rfl
  have hserved : n.handler.served = c.handler.served := hl.handler.class_eq rfl rfl
  have hearly : n.handler.early = c.handler.early := hl.handler.class_eq rfl rfl
  have hlate : n.handler.late = c.handler.late := hl.handler.class_eq rfl rfl
  have hlistens : n.handler.listens = c.handler.listens := hl.handler.class_eq rfl rfl
  have hreg : n.registered s.connections = c.registered s.connections := by
    unfold Client.registered
    rw [hl.id]
  constructor
  · intro hdoze
    have heq := hl.handler.asleep (by rw [hdoze]; rfl)
    exact hc.doze (heq.trans hdoze)
  · rw [hkeeps, hl.past, hreg]
    exact hc.keeps
  · rw [hl.past, hreg]
    exact hc.past
  · rw [hl.id]
    exact hc.id
  · intro hjoin
    have heq := hl.handler.stays (by rw [hjoin]; nofun) (by rw [hjoin]; nofun)
    rw [hl.shut]
    exact hc.shut (heq.trans hjoin)
  · rw [hserved]
    exact fun h => (not_congr hl.absent).mpr (hc.served h)
  · rw [hearly]
    exact fun h => hl.absent.mpr (hc.early h)
  · rw [hlate]
    exact fun h => (hc.late h).imp hl.absent.mpr hl.ended.mpr
  · rw [hlistens, hl.receiving]
    exact hc.receiving

/-- A handler that goes to sleep may. -/
theorem Act.asleep (hn : n.handler.asleep = true)
    (hboth : k ≠ .both) (hdrain : k ≠ .drain) :
    (s'.draining = false ∧ n.cancelled = false)
      ∨ (c.handler = n.handler ∧ n.cancelled = c.cancelled ∧ s'.draining = s.draining) := by
  induction h
  all_goals grind [Handler.asleep]

/-- A handler that goes to its channel has looked whether the host drains. -/
theorem Act.receives (hn : n.handler = .receive)
    (hdrain : k ≠ .drain) :
    s'.draining = false ∨ (c.handler = .receive ∧ s'.draining = s.draining
      ∧ (c.slot ≠ Option.none → n.slot ≠ Option.none)
      ∧ (c.reader.past = true → n.reader.past = true)) := by
  induction h
  all_goals grind [Reader.past]

/-- A handler that waits for a place has found none. -/
theorem Act.queues (hn : n.handler = .queued) :
    c.handler = .queued ∨ query_limit ≤ s'.queries := by
  induction h
  all_goals grind

/-- A place given back is one more handler to notify of it; a place taken, one
fewer to ask. -/
theorem Act.stirs (hle : c.handler.permits ≤ s.queries)
    (hboth : k ≠ .both) (hdraining : s.draining = false) :
    query_limit ≤ s'.queries ∨ s.queries + c.stirs ≤ s'.queries + n.stirs
      ∨ k = .one ∧ n.handler ≠ .queued ∧ s.queries + c.stirs ≤ s'.queries + n.stirs + 1 := by
  induction h
  all_goals grind [Client.stirs, Handler.permits]

omit h in
theorem Client.Like.stirs_le (hr : c.Like n) : c.stirs ≤ n.stirs := by
  have hh := hr.handler
  unfold Client.stirs
  rw [hr.cancelled]
  generalize c.handler = before at hh
  generalize n.handler = after at hh
  cases hh with
  | same => exact le_rfl
  | checks => exact le_rfl
  | asks => exact Nat.zero_le _

end

end

end Ferret.Daemon
