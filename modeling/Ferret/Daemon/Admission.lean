import Ferret.Daemon.Invariant

/-!
# Every state of a host

The invariant, step by step.
-/

namespace Ferret.Daemon

open Function

section

variable {Line : Type} {p : Protocol Line} {query_limit : ℕ} {s s' : State Line}

theorem State.Sound.spawned (h : s.Sound query_limit) {i : ℕ}
    (hi : (s.client i).handler ≠ .ended ∨ (s.client i).reader ≠ .absent) :
    i ∈ Finset.range s.shared.spawned := by
  rw [Finset.mem_range]
  by_contra hge
  have hnone := h.unspawned i (Nat.le_of_not_lt hge)
  rw [hnone] at hi
  rcases hi with hi | hi <;> exact hi rfl

variable {k : Wake}

theorem Act.live {sh sh' : Shared} {c n : Client Line} (h : Act p query_limit sh c sh' n k) :
    c.handler ≠ .ended ∨ c.reader ≠ .absent := by
  induction h
  all_goals grind

variable {cs cs' : ℕ → Client Line}

/-- A sum over the connections after a step, of what a notification does not
change. -/
theorem sum_step {S : Finset ℕ} {connections : Finset ℕ} {i : ℕ} {n : Client Line} (hi : i ∈ S)
    {f : Handler Line → ℕ} (hdoze : f .check = f .doze) (hqueued : f .ask = f .queued)
    (hw : Woken connections k (Function.update cs i n) cs') :
    ∑ j ∈ S, f (cs' j).handler + f (cs i).handler
      = ∑ j ∈ S, f (cs j).handler + f n.handler := by
  rw [← Tally.sum_update (fun c : Client Line => f c.handler) cs hi n]
  congr 1
  exact Finset.sum_congr rfl fun j _ => (hw.rouse j).handler.class_eq hdoze hqueued

section

variable {i : ℕ} {n : Client Line} {k : Wake}

theorem Woken.none {connections : Finset ℕ} {j : ℕ} (hw : Woken connections k cs cs')
    (hj : cs j = Client.none) : cs' j = Client.none := by
  cases hw with
  | quiet | nobody => exact hj
  | one a ha =>
    rw [update_of_ne]
    · exact hj
    · rintro rfl
      rw [hj] at ha
      cases ha
  | asking | greeting | both | drain =>
    dsimp only
    rw [hj]
    rfl

/-- A `notify_one` while a handler sleeps is one more to ask. -/
theorem Woken.stirs_lt {S connections : Finset ℕ} (hw : Woken connections .one cs cs') {j : ℕ}
    (hj : (cs' j).handler = .queued)
    (hS : ∀ j, (cs j).handler = .queued → j ∈ S ∧ (cs j).cancelled = false) :
    ∑ i ∈ S, (cs i).stirs + 1 ≤ ∑ i ∈ S, (cs' i).stirs := by
  cases hw with
  | nobody hno => exact absurd hj (hno j)
  | one a ha =>
    obtain ⟨hmem, hcancelled⟩ := hS a ha
    have hsum := Tally.sum_update Client.stirs cs hmem { cs a with handler := .ask }
    have hold : (cs a).stirs = 0 := by
      unfold Client.stirs
      rw [ha]
    have hnew : Client.stirs { cs a with handler := .ask } = 1 := by
      unfold Client.stirs
      rw [hcancelled]
      rfl
    omega

theorem State.Sound.permits_le (h : s.Sound query_limit) (i : ℕ) :
    (s.client i).handler.permits ≤ s.shared.queries := by
  by_cases hi : (s.client i).handler ≠ .ended ∨ (s.client i).reader ≠ .absent
  · rw [h.queries]
    exact Tally.le_sum (fun c : Client Line => c.handler.permits) s.client (h.spawned hi)
  · have hended : (s.client i).handler = .ended := by
      by_contra hne
      exact hi (.inl hne)
    rw [hended]
    exact Nat.zero_le _

variable (h : s.Sound query_limit)
  (ha : Act p query_limit s.shared (s.client i) s'.shared n k)
  (hw : Woken s'.shared.connections k (Function.update s.client i n) s'.client)

include h ha hw

theorem State.Sound.act_client (j : ℕ) : (s'.client j).Sound s'.shared := by
  refine Client.Sound.like ?_ (hw.rouse j).like
  by_cases hj : j = i
  · subst hj
    rw [update_self]
    exact ha.sound (h.client j)
  · rw [update_of_ne hj]
    exact ha.sound_other (h.client j) fun id hid hid' => hj (h.distinct j i id hid hid')

theorem State.Sound.act_distinct (a b id : ℕ) (hida : (s'.client a).id = some id)
    (hidb : (s'.client b).id = some id) : a = b := by
  -- the key of a connection is its old one, or new to the registry
  have hnew : ∀ j, (s'.client j).id = (s.client j).id
      ∨ j = i ∧ (s'.client j).id = some s.shared.next_connection := by
    intro j
    rw [(hw.rouse j).id]
    by_cases hj : j = i
    · subst hj
      rw [update_self]
      rcases ha.registry with ⟨-, -, hid, -⟩ | ⟨-, -, hid, -⟩ | ⟨-, -, hid⟩
      · exact .inl hid
      · exact .inr ⟨rfl, hid⟩
      · exact .inl hid
    · rw [update_of_ne hj]
      exact .inl rfl
  have hold : ∀ j, (s.client j).id ≠ some s.shared.next_connection := fun j hj =>
    lt_irrefl _ ((h.client j).id _ hj)
  rcases hnew a with ha' | ⟨rfl, ha'⟩
  · rcases hnew b with hb' | ⟨rfl, hb'⟩
    · exact h.distinct a b id (ha'.symm.trans hida) (hb'.symm.trans hidb)
    · exact absurd (ha'.symm.trans (hida.trans (hidb.symm.trans hb'))) (hold a)
  · rcases hnew b with hb' | ⟨rfl, -⟩
    · exact absurd (hb'.symm.trans (hidb.trans (hida.symm.trans ha'))) (hold b)
    · rfl

theorem State.Sound.act_connections (id : ℕ) (hid : id ∈ s'.shared.connections) :
    ∃ j, (s'.client j).id = some id ∧ (s'.client j).handler.keeps = true := by
  have hafter : ∀ j, (s'.client j).id = (Function.update s.client i n j).id
      ∧ (s'.client j).handler.keeps = (Function.update s.client i n j).handler.keeps := fun j =>
    ⟨(hw.rouse j).id, (hw.rouse j).handler.class_eq rfl rfl⟩
  -- a connection that has the key before the notification has it after
  have hkeep : ∀ j, (Function.update s.client i n j).id = some id →
      (Function.update s.client i n j).handler.keeps = true →
      ∃ j, (s'.client j).id = some id ∧ (s'.client j).handler.keeps = true := fun j h₁ h₂ =>
    ⟨j, (hafter j).1.trans h₁, (hafter j).2.trans h₂⟩
  have hself : Function.update s.client i n i = n := update_self ..
  rcases ha.registry with ⟨hconn, -, hsame, hkeeps⟩ | ⟨hconn, -, hnew, -, hold, hkeeps, -⟩
      | ⟨hconn, -, -⟩
  · rw [hconn] at hid
    obtain ⟨j, hj, hjk⟩ := h.connections id hid
    by_cases hji : j = i
    · subst hji
      exact hkeep j (by rw [hself, hsame, hj]) (by rw [hself]; exact hkeeps hjk)
    · exact hkeep j (by rw [update_of_ne hji, hj])
        (by rw [update_of_ne hji, hjk])
  · rw [hconn, Finset.mem_insert] at hid
    rcases hid with rfl | hid
    · exact hkeep i (by rw [hself, hnew]) (by rw [hself, hkeeps])
    · obtain ⟨j, hj, hjk⟩ := h.connections id hid
      have hji : j ≠ i := by
        rintro rfl
        rw [hold] at hjk
        cases hjk
      exact hkeep j (by rw [update_of_ne hji, hj])
        (by rw [update_of_ne hji, hjk])
  · rw [hconn, Finset.mem_filter] at hid
    obtain ⟨j, hj, hjk⟩ := h.connections id hid.1
    have hji : j ≠ i := by
      rintro rfl
      exact hid.2 hj
    exact hkeep j (by rw [update_of_ne hji, hj])
      (by rw [update_of_ne hji, hjk])

/-- Before a notification that leaves a handler asleep, it was asleep too. -/
theorem State.Sound.act_asleep (j : ℕ) (hj : (s'.client j).handler.asleep = true) :
    s'.shared.draining = false ∧ (s'.client j).cancelled = false := by
  obtain ⟨hboth, hdrain, -, -⟩ := hw.asleep hj
  have hsame := (hw.rouse j).handler.asleep hj
  have hdraining : s'.shared.draining = s.shared.draining := by
    rcases ha.draining with heq | ⟨-, rfl⟩
    · exact heq
    · exact absurd rfl hdrain
  rw [(hw.rouse j).cancelled]
  by_cases hji : j = i
  · subst hji
    rw [update_self] at hsame ⊢
    rcases ha.asleep (hsame ▸ hj) hboth hdrain with hfresh | ⟨hold, hcancelled, -⟩
    · exact hfresh
    · rw [hdraining, hcancelled]
      exact h.asleep j (by rw [hold, hsame]; exact hj)
  · rw [update_of_ne hji] at hsame ⊢
    rw [hdraining]
    exact h.asleep j (by rw [hsame]; exact hj)

theorem State.Sound.act_woken (j : ℕ) (hdraining : s'.shared.draining = true)
    (hj : (s'.client j).handler = .receive) :
    (s'.client j).slot ≠ Option.none ∨ (s'.client j).reader.past = true := by
  have hsound := h.act_client ha hw j
  have hsame := (hw.rouse j).handler.stays (by rw [hj]; nofun) (by rw [hj]; nofun)
  by_cases hk : k = .drain
  · -- the registry's message, unless the reader has unregistered
    by_cases hpast : (s'.client j).reader.past = true
    · exact .inr hpast
    · refine .inl ?_
      have hreg := hsound.keeps (by rw [hj]; rfl) (Bool.not_eq_true _ ▸ hpast)
      have hreceiving := hsound.receiving (by rw [hj]; rfl)
      rw [(hw.rouse j).receiving] at hreceiving
      have hreg' : (Function.update s.client i n j).registered s'.shared.connections = true := by
        rw [← hreg]
        unfold Client.registered
        rw [(hw.rouse j).id]
      subst hk
      rw [hw.eq_drained j]
      exact Client.drained_slot hreg' hreceiving
  · have hkeep : ∀ {c : Client Line}, Function.update s.client i n j = c →
        c.slot ≠ Option.none ∨ c.reader.past = true →
        (s'.client j).slot ≠ Option.none ∨ (s'.client j).reader.past = true := by
      rintro c rfl hc
      rcases hc with hslot | hpast
      · refine .inl ?_
        rw [(hw.rouse j).slot hslot]
        exact hslot
      · refine .inr ?_
        rw [(hw.rouse j).reader]
        exact hpast
    have hdrain : s'.shared.draining = s.shared.draining := by
      rcases ha.draining with heq | ⟨-, hdrain⟩
      · exact heq
      · exact absurd hdrain hk
    by_cases hji : j = i
    · subst hji
      refine hkeep (update_self ..) ?_
      rw [update_self] at hsame
      rcases ha.receives (hsame.trans hj) hk with hfalse | ⟨hold, -, hslot, hpast⟩
      · rw [hfalse] at hdraining
        cases hdraining
      · exact (h.woken j (hdrain.symm.trans hdraining) hold).imp hslot hpast
    · refine hkeep (update_of_ne hji ..) ?_
      rw [update_of_ne hji] at hsame
      exact h.woken j (hdrain.symm.trans hdraining) (hsame.trans hj)

theorem State.Sound.act_awake (hq : ∃ j, (s'.client j).handler = .queued) :
    query_limit
      ≤ s'.shared.queries + ∑ j ∈ Finset.range s'.shared.spawned, (s'.client j).stirs := by
  obtain ⟨j, hj⟩ := hq
  have hasleep : (s'.client j).handler.asleep = true := by rw [hj]; rfl
  obtain ⟨hboth, hdrain, -, -⟩ := hw.asleep hasleep
  have hdraining : s.shared.draining = false := by
    rcases ha.draining with heq | ⟨-, hk⟩
    · exact heq ▸ (h.act_asleep ha hw j hasleep).1
    · exact absurd hk hdrain
  have hsame := (hw.rouse j).handler.asleep hasleep
  have hi := h.spawned ha.live
  have hsum := Tally.sum_update Client.stirs s.client hi n
  have hmono : ∑ j ∈ Finset.range s.shared.spawned, (Function.update s.client i n j).stirs
      ≤ ∑ j ∈ Finset.range s.shared.spawned, (s'.client j).stirs :=
    Finset.sum_le_sum fun j _ => (hw.rouse j).like.stirs_le
  rw [ha.fixed.1]
  rcases ha.stirs (h.permits_le i) hboth hdraining with hfull | hle | ⟨rfl, hn, hle⟩
  · omega
  · -- somebody was asleep before, or the handler that acts has found no place
    by_cases hji : j = i
    · subst hji
      rw [update_self] at hsame
      rcases ha.queues (hsame.trans hj) with hold | hfull
      · have := h.awake ⟨j, hold⟩
        omega
      · omega
    · rw [update_of_ne hji] at hsame
      have := h.awake ⟨j, hsame.trans hj⟩
      omega
  · have hji : j ≠ i := by
      rintro rfl
      rw [update_self] at hsame
      exact hn (hsame.trans hj)
    rw [update_of_ne hji] at hsame
    have hawake := h.awake ⟨j, hsame.trans hj⟩
    have hlt := hw.stirs_lt (S := Finset.range s.shared.spawned) hj (by
      intro a haq
      by_cases hai : a = i
      · subst hai
        rw [update_self] at haq
        exact absurd haq hn
      · rw [update_of_ne hai] at haq ⊢
        refine ⟨h.spawned (.inl (by rw [haq]; nofun)), ?_⟩
        exact (h.asleep a (by rw [haq]; rfl)).2)
    omega

theorem State.Sound.act : s'.Sound query_limit := by
  have hi := h.spawned ha.live
  have hspawned := ha.fixed.1
  exact {
    queries := by
      have hpermits := ha.permits (h.permits_le i)
      have hsum := sum_step (f := Handler.permits) hi rfl rfl hw
      have := h.queries
      rw [hspawned]
      omega
    limit := ha.limit h.limit
    clients := by
      have hle := Tally.le_sum (fun c : Client Line => c.handler.counts) s.client hi
      have hcounts := ha.counts (by rw [h.clients]; exact hle)
      have hsum := sum_step (f := Handler.counts) hi rfl rfl hw
      have := h.clients
      rw [hspawned]
      omega
    unspawned := by
      intro j hj
      rw [hspawned] at hj
      refine hw.none ?_
      rw [update_of_ne (fun hji => by subst hji; simp at hi; omega)]
      exact h.unspawned j hj
    client := h.act_client ha hw
    distinct := h.act_distinct ha hw
    connections := h.act_connections ha hw
    asleep := h.act_asleep ha hw
    woken := h.act_woken ha hw
    awake := h.act_awake ha hw }

end

/-! ## The other steps -/

/-- What a step leaves alone that is no act of a connection. -/
structure Shared.Same (a b : Shared) : Prop where
  queries : b.queries = a.queries
  connections : b.connections = a.connections
  next_connection : b.next_connection = a.next_connection
  clients : b.clients = a.clients
  spawned : b.spawned = a.spawned

/-- A step that is no act of a connection. -/
theorem State.Sound.like (h : s.Sound query_limit) (hs : s.shared.Same s'.shared)
    (hl : ∀ j, (s.client j).Like (s'.client j))
    (hnone : ∀ j, s.shared.spawned ≤ j → s.client j = Client.none → s'.client j = Client.none)
    (hdoze : ∀ j, (s'.client j).handler = .doze →
      s'.shared.loaded = .loading ∨ s'.shared.announce = true)
    (hdraining : s'.shared.draining = s.shared.draining
      ∨ (∀ j, (s'.client j).handler.asleep = false) ∧ ∀ j, (s'.client j).handler = .receive →
        (s'.client j).slot ≠ Option.none ∨ (s'.client j).reader.past = true) :
    s'.Sound query_limit where
  queries := by
    rw [hs.queries, hs.spawned, h.queries]
    exact Finset.sum_congr rfl fun j _ => ((hl j).handler.class_eq rfl rfl).symm
  limit := by
    rw [hs.queries]
    exact h.limit
  clients := by
    rw [hs.clients, hs.spawned, h.clients]
    exact Finset.sum_congr rfl fun j _ => ((hl j).handler.class_eq rfl rfl).symm
  unspawned := by
    intro j hj
    rw [hs.spawned] at hj
    exact hnone j hj (h.unspawned j hj)
  client := by
    intro j
    have hsound := (h.client j).like (hl j)
    exact {
      hsound with
      doze := hdoze j
      keeps := by
        rw [hs.connections]
        exact hsound.keeps
      past := by
        rw [hs.connections]
        exact hsound.past
      id := by
        rw [hs.next_connection]
        exact hsound.id }
  distinct := by
    intro a b id
    rw [(hl a).id, (hl b).id]
    exact h.distinct a b id
  connections := by
    intro id hid
    rw [hs.connections] at hid
    obtain ⟨j, hj, hkeeps⟩ := h.connections id hid
    exact ⟨j, (hl j).id.trans hj, ((hl j).handler.class_eq rfl rfl).trans hkeeps⟩
  asleep := by
    intro j hj
    rcases hdraining with heq | ⟨hno, -⟩
    · rw [heq, (hl j).cancelled]
      exact h.asleep j (by rw [(hl j).handler.asleep hj]; exact hj)
    · rw [hno j] at hj
      cases hj
  woken := by
    intro j hd hj
    rcases hdraining with heq | ⟨-, hmessage⟩
    · have hsame := (hl j).handler.stays (by rw [hj]; nofun) (by rw [hj]; nofun)
      rw [heq] at hd
      rcases h.woken j hd (hsame.trans hj) with hslot | hpast
      · refine .inl ?_
        rw [(hl j).slot hslot]
        exact hslot
      · exact .inr ((hl j).past.trans hpast)
    · exact hmessage j hj
  awake := by
    rintro ⟨j, hj⟩
    have hsame := (hl j).handler.asleep (by rw [hj]; rfl)
    have hawake := h.awake ⟨j, hsame.trans hj⟩
    have hmono : ∑ i ∈ Finset.range s.shared.spawned, (s.client i).stirs
        ≤ ∑ i ∈ Finset.range s.shared.spawned, (s'.client i).stirs :=
      Finset.sum_le_sum fun i _ => (hl i).stirs_le
    rw [hs.queries, hs.spawned]
    omega

/-- A step that leaves the connections alone, and those that wait for the
engine to be told. -/
theorem State.Sound.shared (h : s.Sound query_limit) {shared : Shared}
    (hs : s.shared.Same shared) (hdraining : shared.draining = s.shared.draining)
    (hdoze : s.shared.loaded = .loading ∨ s.shared.announce = true →
      shared.loaded = .loading ∨ shared.announce = true) :
    State.Sound query_limit { s with shared := shared } :=
  h.like hs (fun _ => (Client.Rouse.refl _).like) (fun _ _ hj => hj)
    (fun j hj => hdoze ((h.client j).doze hj)) (.inl hdraining)

/-- A change of one connection that is no act of its threads. -/
theorem State.Sound.put (h : s.Sound query_limit) {i : ℕ} {c : Client Line}
    (hl : (s.client i).Like c)
    (hnone : s.shared.spawned ≤ i → s.client i = Client.none → c = Client.none) :
    (s.put i c).Sound query_limit := by
  have hself : Function.update s.client i c i = c := update_self ..
  have hlike : ∀ j, (s.client j).Like (Function.update s.client i c j) := by
    intro j
    by_cases hj : j = i
    · subst hj
      rw [hself]
      exact hl
    · rw [update_of_ne hj]
      exact (Client.Rouse.refl _).like
  refine h.like ⟨rfl, rfl, rfl, rfl, rfl⟩ hlike ?_ ?_ (.inl rfl)
  · intro j hle hj
    show Function.update s.client i c j = _
    by_cases hji : j = i
    · subst hji
      rw [hself]
      exact hnone hle hj
    · rw [update_of_ne hji]
      exact hj
  · intro j hj
    exact ((h.client j).like (hlike j)).doze hj

/-- A notification of those that wait for the engine, or a drain, by no act of
a connection. -/
theorem State.Sound.notified (h : s.Sound query_limit) (hs : s.shared.Same s'.shared)
    (hw : Woken s.shared.connections k s.client s'.client)
    (hk : k = .greeting ∧ s'.shared.draining = s.shared.draining ∨ k = .drain) :
    s'.Sound query_limit := by
  refine h.like hs (fun j => (hw.rouse j).like) (fun j _ hj => hw.none hj) ?_ ?_
  · intro j hj
    obtain ⟨-, hdrain, -, hgreeting⟩ := hw.asleep (j := j) (by rw [hj]; rfl)
    rcases hk with ⟨hk, -⟩ | hk
    · rw [hgreeting hk] at hj
      cases hj
    · exact absurd hk hdrain
  · rcases hk with ⟨-, hsame⟩ | rfl
    · exact .inl hsame
    refine .inr ⟨fun j => ?_, fun j hj => ?_⟩
    · by_contra hj
      exact (hw.asleep (j := j) (by simpa using hj)).2.1 rfl
    · have hstays := (hw.rouse j).handler.stays (by rw [hj]; nofun) (by rw [hj]; nofun)
      have hold := hstays.trans hj
      rw [(hw.rouse j).reader]
      by_cases hpast : (s.client j).reader.past = true
      · exact .inr hpast
      · refine .inl ?_
        rw [hw.eq_drained j]
        exact Client.drained_slot
          ((h.client j).keeps (by rw [hold]; rfl) (Bool.not_eq_true _ ▸ hpast))
          ((h.client j).receiving (by rw [hold]; rfl))

/-- A connection accepted. -/
theorem State.Sound.accepted (h : s.Sound query_limit) {shared : Shared}
    (hqueries : shared.queries = s.shared.queries)
    (hconnections : shared.connections = s.shared.connections)
    (hnext : shared.next_connection = s.shared.next_connection)
    (hclients : shared.clients = s.shared.clients + 1)
    (hspawned : shared.spawned = s.shared.spawned + 1)
    (hdraining : shared.draining = s.shared.draining) (hloaded : shared.loaded = s.shared.loaded)
    (hannounce : shared.announce = s.shared.announce) :
    State.Sound query_limit
      ⟨shared, Function.update s.client s.shared.spawned Client.accepted⟩ := by
  have hold : ∀ j, j ∈ Finset.range s.shared.spawned →
      Function.update s.client s.shared.spawned Client.accepted j = s.client j := fun j hj =>
    update_of_ne (ne_of_lt (Finset.mem_range.mp hj)) ..
  have hself : Function.update s.client s.shared.spawned Client.accepted s.shared.spawned
      = Client.accepted := update_self ..
  have hsum : ∀ f : Client Line → ℕ,
      ∑ j ∈ Finset.range shared.spawned,
        f (Function.update s.client s.shared.spawned Client.accepted j)
      = ∑ j ∈ Finset.range s.shared.spawned, f (s.client j) + f Client.accepted := by
    intro f
    rw [hspawned, Finset.sum_range_succ, hself]
    congr 1
    exact Finset.sum_congr rfl fun j hj => by rw [hold j hj]
  -- what holds of the new connection, and of every other
  have hall : ∀ P : ℕ → Client Line → Prop, P s.shared.spawned Client.accepted →
      (∀ j, P j (s.client j)) →
      ∀ j, P j (Function.update s.client s.shared.spawned Client.accepted j) := by
    intro P hnew hP j
    by_cases hj : j = s.shared.spawned
    · rw [hj, hself]
      exact hnew
    · rw [update_of_ne hj]
      exact hP j
  exact {
    queries := by
      rw [hqueries, h.queries]
      exact (hsum fun c => c.handler.permits).symm
    limit := by
      rw [hqueries]
      exact h.limit
    clients := by
      rw [hclients, h.clients]
      exact (hsum fun c => c.handler.counts).symm
    unspawned := by
      intro j hj
      have hj : s.shared.spawned + 1 ≤ j := hspawned ▸ hj
      show Function.update s.client _ _ j = _
      rw [update_of_ne (by omega)]
      exact h.unspawned j (by omega)
    client := by
      refine hall (fun _ c => c.Sound shared) ?_ ?_
      · exact {
          doze := nofun
          keeps := nofun
          past := nofun
          id := nofun
          shut := nofun
          served := nofun
          early := fun _ => rfl
          late := nofun
          receiving := fun _ => rfl }
      · intro j
        have hj := h.client j
        exact { hj with
          doze := by
            rw [hloaded, hannounce]
            exact hj.doze
          keeps := by
            rw [hconnections]
            exact hj.keeps
          past := by
            rw [hconnections]
            exact hj.past
          id := by
            rw [hnext]
            exact hj.id }
    distinct := by
      refine hall (fun a c => ∀ b id, c.id = some id →
        (Function.update s.client s.shared.spawned Client.accepted b).id = some id → a = b) ?_ ?_
      · nofun
      · intro a b id ha
        exact hall (fun b c => c.id = some id → a = b) nofun (fun b hb => h.distinct a b id ha hb) b
    connections := by
      intro id hid
      have hid : id ∈ shared.connections := hid
      rw [hconnections] at hid
      obtain ⟨j, hj, hkeeps⟩ := h.connections id hid
      have hlive := h.spawned (i := j) (.inl (by intro he; rw [he] at hkeeps; cases hkeeps))
      refine ⟨j, ?_⟩
      show (Function.update s.client _ _ j).id = some id
        ∧ (Function.update s.client _ _ j).handler.keeps = true
      rw [hold j hlive]
      exact ⟨hj, hkeeps⟩
    asleep := by
      refine hall (fun _ c => c.handler.asleep = true → shared.draining = false ∧ c.cancelled = false)
        nofun ?_
      rw [hdraining]
      exact h.asleep
    woken := by
      refine hall (fun _ c => shared.draining = true → c.handler = .receive →
        c.slot ≠ Option.none ∨ c.reader.past = true) nofun ?_
      rw [hdraining]
      exact h.woken
    awake := by
      rintro ⟨j, hj⟩
      have hawake := hall (fun _ c => c.handler = .queued → query_limit
        ≤ s.shared.queries + ∑ i ∈ Finset.range s.shared.spawned, (s.client i).stirs) nofun
        (fun j hj => h.awake ⟨j, hj⟩) j hj
      have hstirs := hsum Client.stirs
      show query_limit ≤ shared.queries + ∑ j ∈ Finset.range shared.spawned,
        (Function.update s.client s.shared.spawned Client.accepted j).stirs
      omega }

theorem Step.sound (hstep : Step p query_limit s s') (h : s.Sound query_limit) :
    s'.Sound query_limit := by
  cases hstep with
  | act i ha hw => exact h.act ha hw
  | load _ _ _ => exact h.shared ⟨rfl, rfl, rfl, rfl, rfl⟩ rfl fun _ => .inr rfl
  | announce _ hshared hw =>
    exact h.notified (by rw [hshared]; exact ⟨rfl, rfl, rfl, rfl, rfl⟩) hw
      (.inl ⟨rfl, by rw [hshared]⟩)
  | serve_accepted n _ _ _ _ =>
    exact h.accepted rfl rfl rfl rfl rfl rfl rfl rfl
  | serve_top | serve_looked | serve_turned_away | serve_wake | serve_failed =>
    exact h.shared ⟨rfl, rfl, rfl, rfl, rfl⟩ rfl fun hloaded => hloaded

theorem Outside.sound (hout : Outside s s') (h : s.Sound query_limit) : s'.Sound query_limit := by
  cases hout with
  | accept | leave => exact h.shared ⟨rfl, rfl, rfl, rfl, rfl⟩ rfl fun hloaded => hloaded
  | send i _ hi _ | hang_up i hi =>
    refine h.put ⟨.same, rfl, .rfl, .rfl, rfl, rfl, fun _ => rfl, rfl, rfl⟩ fun hle => ?_
    exact absurd hi (Nat.not_lt.mpr hle)
  | read_failed i hread =>
    refine h.put ⟨.same, by rw [hread]; rfl, by rw [hread]; exact ⟨nofun, nofun⟩,
      by rw [hread]; exact ⟨nofun, nofun⟩, rfl, rfl,
      fun _ => rfl, rfl, rfl⟩ fun _ hnone => ?_
    rw [hnone] at hread
    cases hread
  | fatal hshared hw =>
    exact h.notified (by rw [hshared]; exact ⟨rfl, rfl, rfl, rfl, rfl⟩) hw (.inr rfl)
  | spurious i =>
    refine h.put (Client.Rouse.go (s.client i).handler.rouse_both).like fun _ hnone => ?_
    rw [hnone]
    rfl

theorem State.start_sound : (State.start Line).Sound query_limit where
  queries := rfl
  limit := Nat.zero_le _
  clients := rfl
  unspawned := fun _ _ => rfl
  client := fun _ => {
    doze := nofun
    keeps := nofun
    past := nofun
    id := nofun
    shut := nofun
    served := nofun
    early := nofun
    late := fun _ => .inl rfl
    receiving := nofun }
  distinct := nofun
  connections := nofun
  asleep := nofun
  woken := nofun
  awake := nofun

theorem Reached.sound (h : Reached p query_limit s) : s.Sound query_limit := by
  induction h with
  | start => exact State.start_sound
  | step _ hstep ih => exact hstep.sound ih
  | outside _ hout ih => exact hout.sound ih

end

end Ferret.Daemon
