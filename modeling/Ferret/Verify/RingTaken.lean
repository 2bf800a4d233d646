import Ferret.Verify.RingInvariant

/-!
# What is posted is taken

The slots hold what has been posted and not taken: through a worker's post,
through the calling thread's take, and through everything else.
-/

namespace Ferret.Ring

open List Function

open Ferret.Verify (Pool)

/-! ## The batch being taken -/

section

variable {pool : Pool} {positions : ℕ}

theorem current_lt {taken : ℕ} (h : taken < positions) :
    current pool positions taken < pool.batches positions
      ∧ current pool positions taken * pool.batch ≤ taken
      ∧ taken < pool.stop positions (current pool positions taken) := by
  have hb := pool.batch_pos
  have hmod := Nat.div_add_mod taken pool.batch
  have hlt := Nat.mod_lt taken hb
  unfold current
  rw [if_pos h]
  have hle : taken / pool.batch * pool.batch ≤ taken := Nat.div_mul_le_self taken pool.batch
  refine ⟨(pool.lt_batches _ _).mpr (by omega), hle, ?_⟩
  unfold Verify.Pool.stop
  rw [add_mul, one_mul, mul_comm (taken / pool.batch)]
  omega

theorem current_eq {taken index : ℕ} (hle : index * pool.batch ≤ taken)
    (hlt : taken < pool.stop positions index) : current pool positions taken = index := by
  have hb := pool.batch_pos
  unfold Verify.Pool.stop at hlt
  have hpos : taken < positions := by omega
  unfold current
  rw [if_pos hpos]
  exact Nat.div_eq_of_lt_le hle (by omega)

theorem current_stop {index : ℕ} (h : index < pool.batches positions) :
    current pool positions (pool.stop positions index) = index + 1 := by
  have hb := pool.batch_pos
  have hlt := (pool.lt_batches _ _).mp h
  rcases lt_or_ge ((index + 1) * pool.batch) positions with hmore | _
  · have hstop : pool.stop positions index = (index + 1) * pool.batch := by
      unfold Verify.Pool.stop
      omega
    rw [hstop]
    exact current_eq le_rfl (Verify.Pool.lt_stop hmore)
  · have hstop : pool.stop positions index = positions := by
      unfold Verify.Pool.stop
      omega
    have hlast : ¬ index + 1 < pool.batches positions := fun hlt' => by
      have := (pool.lt_batches _ _).mp hlt'
      omega
    unfold current
    rw [hstop, if_neg (lt_irrefl _)]
    omega

/-- A batch after the one being taken has nothing taken. -/
theorem taken_le_of_current_lt {taken index : ℕ} (h : current pool positions taken < index)
    (hb : index < pool.batches positions) : taken ≤ index * pool.batch := by
  by_cases hpos : taken < positions
  · have hlt : taken < pool.stop positions (current pool positions taken) := (current_lt hpos).2.2
    unfold Verify.Pool.stop at hlt
    have hmul : (current pool positions taken + 1) * pool.batch ≤ index * pool.batch :=
      Nat.mul_le_mul_right _ h
    omega
  · unfold current at h
    rw [if_neg hpos] at h
    omega

/-- Two batches within a ring's length do not share a slot. -/
theorem slot_inj (pool : Pool) (first : ℕ) {i j : ℕ} (hi : first ≤ i) (hi' : i < first + pool.slots) (hj : first ≤ j)
    (hj' : j < first + pool.slots) (h : slot pool i = slot pool j) : i = j := by
  unfold slot at h
  rcases le_total i j with hle | hle
  · have hzero := Nat.sub_mod_eq_zero_of_mod_eq h.symm
    rw [Nat.mod_eq_of_lt (by omega)] at hzero
    omega
  · have hzero := Nat.sub_mod_eq_zero_of_mod_eq h
    rw [Nat.mod_eq_of_lt (by omega)] at hzero
    omega

end

/-! ## Slots -/

variable {index pos : ℕ}

section

variable {W : Type} {pool : Pool} {positions : ℕ} {s : Shared W} {vs : W → View} {c : CallerView}

/-- What a slot holds depends on what is taken of its batch only. -/
theorem Slot.Holds.congr {held : Slot} {taken taken' done i : ℕ}
    (h : held.Holds pool positions taken done i)
    (htaken : max taken' (i * pool.batch) = max taken (i * pool.batch)) :
    held.Holds pool positions taken' done i := by
  obtain ⟨hbatch, hitems, hstart, hcomplete⟩ := h
  exact ⟨hbatch, by rw [htaken]; exact hitems, by rw [htaken]; exact hstart, hcomplete⟩

section

variable (h : Taking pool positions s vs c)

include h

/-- Positions posted so far, and those taken, of a batch that has a slot. -/
theorem Taking.bounds {i : ℕ}
    (hi : current pool positions s.taken.length ≤ i) (hb : i < pool.batches positions) :
    max s.taken.length (i * pool.batch) ≤ i * pool.batch + s.done i := by
  rcases lt_or_ge (current pool positions s.taken.length) i with hlt | _
  · have := taken_le_of_current_lt hlt hb
    omega
  · have := h.reached i (by omega) hb
    omega

theorem Taking.head_le : s.head ≤ current pool positions s.taken.length := by
  have := h.head
  omega

/-- A batch with a position to post has not been taken whole. -/
theorem Taking.current_le (hworks : s.Works pool positions index (.task pos false)) :
    current pool positions s.taken.length ≤ index := by
  obtain ⟨hdone, _, -⟩ := hworks
  by_contra hlt
  have := h.past index (by omega)
  simp only [Bool.toNat_false] at hdone
  omega

/-- **A slot is not overwritten**: a position is posted to a slot that holds
its own batch, or nothing. -/
theorem Taking.slot_free (hc : Claims pool positions s vs)
    (hworks : s.Works pool positions index (.task pos false)) :
    (s.ring (slot pool index)).index = 0 ∨ (s.ring (slot pool index)).index = index + 1 := by
  obtain ⟨hdone, hstop, hwin⟩ := hworks
  cases hi : (s.ring (slot pool index)).index with
  | zero => exact .inl rfl
  | succ i =>
    obtain ⟨hslot, _, hpos⟩ := h.owner _ i hi
    have hhead := h.head_le
    have hcurrent := h.current_le ⟨hdone, hstop, hwin⟩
    have := slot_inj pool s.head (by omega) hwin (by omega) (hc.window i hpos) hslot
    exact .inr (by rw [this])

/-- What a slot holds after a post. -/
theorem Taking.holds_post (hb : index < pool.batches positions)
    (hworks : s.Works pool positions index (.task pos false)) :
    ((s.ring (slot pool index)).post index pos (pos + 1 = pool.stop positions index)).Holds
      pool positions s.taken.length (s.done index + 1) index := by
  have hcurrent := h.current_le hworks
  have hbounds := h.bounds hcurrent hb
  obtain ⟨hdone, _, -⟩ := hworks
  simp only [Bool.toNat_false, add_zero] at hdone
  have hlast : decide (pos + 1 = pool.stop positions index) = true
      ↔ index * pool.batch + (s.done index + 1) = pool.stop positions index := by
    rw [decide_eq_true_iff]
    omega
  rcases Nat.eq_zero_or_pos (s.done index) with _ | hpos
  · -- the first of its batch: whatever the slot held is gone
    have hne : (s.ring (slot pool index)).index ≠ index + 1 := fun heq => by
      have := (h.owner _ _ heq).2.2
      omega
    have hmax : max s.taken.length (index * pool.batch) = pos := by omega
    have hpost : (s.ring (slot pool index)).post index pos (pos + 1 = pool.stop positions index)
        = ⟨index + 1, pos, [pos], pos + 1 = pool.stop positions index⟩ := by
      unfold Slot.post
      simp [hne]
    rw [hpost]
    refine ⟨rfl, ?_, fun _ => hmax.symm, hlast⟩
    show [pos] = List.range' _ _
    rw [hmax, show index * pool.batch + (s.done index + 1) - pos = 1 by omega]
    rfl
  · obtain ⟨hbatch, hitems, hstart, -⟩ := h.holds index hcurrent hpos
    have hlen : index * pool.batch + s.done index - max s.taken.length (index * pool.batch)
        = pos - max s.taken.length (index * pool.batch) := by omega
    rw [hlen] at hitems
    have hpost : (s.ring (slot pool index)).post index pos (pos + 1 = pool.stop positions index)
        = ⟨index + 1, max s.taken.length (index * pool.batch),
          (s.ring (slot pool index)).items ++ [pos], pos + 1 = pool.stop positions index⟩ := by
      unfold Slot.post
      by_cases hempty : (s.ring (slot pool index)).items = []
      · have hmax : max s.taken.length (index * pool.batch) = pos := by
          rw [hempty] at hitems
          have := congrArg List.length hitems
          simp only [length_nil, length_range'] at this
          omega
        simp [hbatch, hempty, hmax]
      · simp [hbatch, hempty, hstart hempty]
    rw [hpost]
    refine ⟨rfl, ?_, fun _ => rfl, hlast⟩
    show (s.ring (slot pool index)).items ++ [pos] = List.range' _ _
    rw [hitems, show index * pool.batch + (s.done index + 1)
        - max s.taken.length (index * pool.batch)
        = pos - max s.taken.length (index * pool.batch) + 1 by omega, range'_concat]
    congr 2
    omega

end

end

/-! ## A worker's act -/

section

variable {W : Type} [DecidableEq W] {pool : Pool} {positions : ℕ} {sizes : ℕ → List ℕ} {w : W}
  {s s' : Shared W} {o n : Pc} {k : Wake} {vs : W → View} {c : CallerView}

/-- A worker's step that writes neither to the ring nor to `posted`. -/
theorem Taking.calm (h : Taking pool positions s vs c) (hw : vs w = o.view)
    (ha : Act pool positions sizes w s o s' n k) (hlost : s.lost = true → s'.lost = true)
    (hring : s'.ring = s.ring) (hdone : s'.done = s.done) (hposted : s'.posted = s.posted)
    (hbumps : o.view.bumps = false) : Taking pool positions s' (Function.update vs w n.view) c := by
  obtain ⟨hhead, htaken, hready, hawaited, hstop, hbroke⟩ := ha.frame
  have hwitness : ∀ i, (∃ v, (vs v).bumps = true ∧ (vs v).index = some i) →
      ∃ v, (Function.update vs w n.view v).bumps = true
        ∧ (Function.update vs w n.view v).index = some i := by
    rintro i ⟨v, hv, hi⟩
    refine ⟨v, ?_⟩
    rw [update_of_ne]
    · exact ⟨hv, hi⟩
    · rintro rfl
      rw [hw, hbumps] at hv
      cases hv
  constructor
  · rw [hready]
    exact h.ready
  · rw [hawaited]
    exact h.awaited
  · rw [htaken]
    exact h.taking
  · exact h.looks
  · rw [hhead, htaken]
    exact h.head
  · intro i m looked hi hseen
    rw [hposted, hring]
    obtain ⟨hle, hlook⟩ := h.seen i m looked hi hseen
    exact ⟨hle, fun hl hf => (hlook hl hf).imp_right (hwitness i)⟩
  · intro i m looked hwoke hi hseen
    rw [hposted]
    exact (h.woke i m looked hwoke hi hseen).imp_right hlost
  · rw [hbroke, htaken]
    exact fun hh => ⟨(h.halting hh).1, (h.halting hh).2.imp_right (Or.imp_left hlost)⟩
  · rw [hstop]
    exact h.halted
  · rw [htaken]
    exact h.taken
  · rw [htaken]
    exact h.taken_le
  · rw [htaken, hdone]
    exact h.reached
  · rw [htaken, hdone]
    exact h.past
  · rw [htaken, hdone, hring]
    exact h.holds
  · rw [hring, htaken, hdone]
    exact h.owner

/-- A worker that counts its post. -/
theorem Taking.bump (h : Taking pool positions s vs c) (hw : vs w = (Pc.bump index pos).view) :
    Taking pool positions (s.bump pool index)
      (Function.update vs w (Pc.load_awaited index pos).view) c := by
  have hposted : ∀ j, s.posted j ≤ (s.bump pool index).posted j := by
    intro j
    show _ ≤ Function.update s.posted (slot pool index) _ j
    by_cases hj : j = slot pool index
    · rw [hj, update_self]
      exact Nat.le_succ _
    · rw [update_of_ne hj]
  refine { h with
    seen := fun i m looked hi hseen => ?_
    woke := fun i m looked hwoke hi hseen => ?_ }
  · obtain ⟨hle, hlook⟩ := h.seen i m looked hi hseen
    refine ⟨le_trans hle (hposted _), fun hl hf => ?_⟩
    rcases hlook hl hf with hlt | ⟨v, hv, hvi⟩
    · exact .inl (lt_of_lt_of_le hlt (hposted _))
    · by_cases hvw : v = w
      · subst hvw
        rw [hw] at hvi
        obtain rfl : index = i := Option.some.inj hvi
        refine .inl (lt_of_le_of_lt hle ?_)
        show s.posted (slot pool index) < Function.update s.posted (slot pool index) _ _
        rw [update_self]
        exact Nat.lt_succ_self _
      · refine .inr ⟨v, ?_⟩
        rw [update_of_ne hvw]
        exact ⟨hv, hvi⟩
  · exact (h.woke i m looked hwoke hi hseen).imp_left fun hlt =>
      lt_of_lt_of_le hlt (hposted _)

/-- A worker that posts. -/
theorem Taking.post (h : Taking pool positions s vs c) (hc : Claims pool positions s vs)
    (hw : vs w = (Pc.post index pos).view) :
    Taking pool positions (s.post pool positions index pos)
      (Function.update vs w (Pc.bump index pos).view) c := by
  have hindex : (vs w).index = some index := by rw [hw]; rfl
  have hworks : s.Works pool positions index (.task pos false) := by
    have := hc.works w index hindex
    rwa [hw] at this
  have hb := (hc.claimed w index hindex).2
  have hcurrent := h.current_le hworks
  have hhead := h.head_le
  obtain ⟨hdone, hstop, hwin⟩ := hworks
  have hdone_ne : ∀ i, i ≠ index → (s.post pool positions index pos).done i = s.done i := fun i hi =>
    update_of_ne hi ..
  have hdone_self : (s.post pool positions index pos).done index = s.done index + 1 :=
    update_self ..
  have hring_ne : ∀ j, j ≠ slot pool index → (s.post pool positions index pos).ring j = s.ring j :=
    fun j hj => update_of_ne hj ..
  have hring_self : (s.post pool positions index pos).ring (slot pool index)
      = (s.ring (slot pool index)).post index pos (pos + 1 = pool.stop positions index) :=
    update_self ..
  have hholds := h.holds_post hb ⟨hdone, hstop, hwin⟩
  -- no other batch that may be looked at has this slot
  have hother : ∀ i, i ≠ index → current pool positions s.taken.length ≤ i →
      i < s.head + pool.slots → slot pool i ≠ slot pool index := by
    intro i hi hle hlt hslot
    exact hi (slot_inj pool s.head (by omega) hlt (by omega) hwin hslot)
  refine { h with
    seen := fun i m looked hi hseen => ?_
    reached := fun i hi hlt => ?_
    past := fun i hi => ?_
    holds := fun i hle hpos => ?_
    owner := fun j i hj => ?_ }
  · obtain ⟨hle, hlook⟩ := h.seen i m looked hi hseen
    refine ⟨hle, fun hl hf => ?_⟩
    by_cases hii : i = index
    · subst hii
      exact .inr ⟨w, by rw [update_self]; exact ⟨rfl, rfl⟩⟩
    · have hcur := h.taking i hi
      have hslots := pool.slots_pos
      have hslot := hother i hii (by omega) (by
        have := h.head
        cases hst : c.stores with
        | false => rw [hst] at this; simp only [Bool.toNat_false] at this; omega
        | true => rw [hst] at this; simp only [Bool.toNat_true] at this; omega)
      rw [hring_ne _ hslot] at hf
      rcases hlook hl hf with hlt | ⟨v, hv, hvi⟩
      · exact .inl hlt
      · refine .inr ⟨v, ?_⟩
        rw [update_of_ne]
        · exact ⟨hv, hvi⟩
        · rintro rfl
          rw [hw] at hv
          cases hv
  · have := h.reached i hi hlt
    by_cases hii : i = index
    · subst hii
      rw [hdone_self]
      show s.taken.length ≤ _
      omega
    · rw [hdone_ne i hii]
      exact this
  · have hlt : i < current pool positions s.taken.length := hi
    rw [hdone_ne i (by omega)]
    exact h.past i hlt
  · by_cases hii : i = index
    · subst hii
      rw [hring_self, hdone_self]
      exact hholds
    · rw [hdone_ne i hii] at hpos ⊢
      rw [hring_ne _ (hother i hii hle (hc.window i hpos))]
      exact h.holds i hle hpos
  · by_cases hjs : j = slot pool index
    · subst hjs
      rw [hring_self, hholds.batch] at hj
      obtain rfl : index = i := Nat.succ_injective hj
      exact ⟨rfl, hcurrent, by rw [hdone_self]; exact Nat.succ_pos _⟩
    · rw [hring_ne j hjs] at hj
      obtain ⟨hslot, hle, hpos⟩ := h.owner j i hj
      refine ⟨hslot, hle, ?_⟩
      rw [hdone_ne i (by rintro rfl; exact hjs hslot)]
      exact hpos

theorem Taking.act (h : Taking pool positions s vs c) (hc : Claims pool positions s vs)
    (hw : vs w = o.view) (ha : Act pool positions sizes w s o s' n k) :
    Taking pool positions s' (Function.update vs w n.view) c := by
  rcases ha.writes with ⟨hring, hdone, hposted, hbumps, -⟩ | ⟨index, pos, rfl, rfl, -, rfl⟩
      | ⟨index, pos, rfl, rfl, -, rfl⟩
  · exact h.calm hw ha (ha.lost (hw ▸ hc.lost w)).2 hring hdone hposted hbumps
  · exact h.post hc hw
  · exact h.bump hw

end

/-! ## The calling thread's act -/

section

variable {W : Type} {pool : Pool} {positions : ℕ} {s s' : Shared W} {o n : Caller} {k : Wake}
  {vs : W → View}

/-- The positions of the batch being taken. -/
theorem Taking.items (h : Taking pool positions s vs o.view) {index : ℕ}
    (htaking : o.view.taking = some index) (hb : index < pool.batches positions)
    (hc : Claims pool positions s vs) (hf : (s.ring (slot pool index)).filled index = true) :
    (s.ring (slot pool index)).items
        = List.range' s.taken.length (index * pool.batch + s.done index - s.taken.length)
      ∧ s.taken.length < index * pool.batch + s.done index
      ∧ (s.ring (slot pool index)).start = s.taken.length
      ∧ ((s.ring (slot pool index)).complete = true
        ↔ index * pool.batch + s.done index = pool.stop positions index)
      ∧ index * pool.batch + s.done index ≤ pool.stop positions index
      ∧ index * pool.batch ≤ s.taken.length := by
  have hcur := h.taking index htaking
  have hdone := hc.done_le index hb
  simp only [Slot.filled, Bool.and_eq_true, decide_eq_true_eq, Bool.or_eq_true] at hf
  obtain ⟨hindex, hsome⟩ := hf
  obtain ⟨-, hle, hpos⟩ := h.owner _ index hindex
  obtain ⟨-, hitems, hstart, hcomplete⟩ := h.holds index hle hpos
  have htaken : s.taken.length < positions := by
    by_contra hge
    have : current pool positions s.taken.length = pool.batches positions := by
      unfold current
      rw [if_neg hge]
    omega
  have hcurrent : current pool positions s.taken.length < pool.batches positions
      ∧ current pool positions s.taken.length * pool.batch ≤ s.taken.length
      ∧ s.taken.length < pool.stop positions (current pool positions s.taken.length) :=
    current_lt htaken
  rw [← hcur] at hcurrent
  obtain ⟨-, hcle, hclt⟩ := hcurrent
  have hmax : max s.taken.length (index * pool.batch) = s.taken.length := by omega
  rw [hmax] at hitems hstart
  have hnonempty : s.taken.length < index * pool.batch + s.done index := by
    rcases hsome with hne | hcomp
    · by_contra hge
      refine hne ?_
      rw [hitems, Nat.sub_eq_zero_of_le (by omega)]
      rfl
    · rw [hcomplete.mp hcomp]
      exact hclt
  refine ⟨hitems, hnonempty, hstart ?_, hcomplete, hdone, hcle⟩
  rw [hitems, Ne, range'_eq_nil_iff]
  omega

/-- The positions of a slot, taken. -/
theorem Taking.look (h : Taking pool positions s vs o.view) (hc : Claims pool positions s vs)
    {index seen : ℕ} (ho : o = .look index seen)
    (hf : (s.ring (slot pool index)).filled index = true) :
    Taking pool positions (s.take pool index) vs
      (if (s.ring (slot pool index)).complete then Caller.store_head index
        else Caller.consume index false).view := by
  subst ho
  have hb := h.looks index _ rfl rfl
  obtain ⟨hitems, hlt, hstart, hcomplete, hdone, _⟩ := h.items rfl hb hc hf
  have hcur := h.taking index rfl
  have hhead : s.head = index := by
    have := h.head
    simp only [Caller.view, Bool.toNat_false] at this
    omega
  -- what has been taken now
  have htaken : (s.take pool index).taken
      = (List.range (index * pool.batch + s.done index)).map fun p => (p, p) := by
    show s.taken ++ (List.range' _ _).zip _ = _
    rw [hstart, hitems, length_range', zip_eq_zipWith, zipWith_self, h.taken,
      length_map, length_range, ← map_append, range_eq_range',
      range_eq_range']
    congr 1
    have happend : List.range' 0 s.taken.length ++ List.range' (0 + s.taken.length)
          (index * pool.batch + s.done index - s.taken.length)
        = List.range' 0 (s.taken.length + (index * pool.batch + s.done index - s.taken.length)) :=
      range'_append_1
    rw [zero_add] at happend
    rw [happend, Nat.add_sub_cancel' (le_of_lt hlt)]
  have hlen : (s.take pool index).taken.length = index * pool.batch + s.done index := by
    rw [htaken, length_map, length_range]
  have hring_self : (s.take pool index).ring (slot pool index)
      = (s.ring (slot pool index)).emptied s.start := update_self ..
  have hring_ne : ∀ j, j ≠ slot pool index → (s.take pool index).ring j = s.ring j :=
    fun j hj => update_of_ne hj ..
  have hstop : pool.stop positions index ≤ positions := min_le_right _ _
  have hother : ∀ i, index < i → 0 < s.done i → slot pool i ≠ slot pool index := by
    intro i hi hpos hslot
    have := slot_inj pool s.head (by omega) (hc.window i hpos) (by omega)
      (by have := pool.slots_pos; omega) hslot
    omega
  -- a later batch has nothing taken, before or after
  have hlater : ∀ i, index < i → 0 < s.done i →
      ((s.take pool index).ring (slot pool i)).Holds pool positions
        (s.take pool index).taken.length (s.done i) i := by
    intro i hi hpos
    rw [hring_ne _ (hother i hi hpos)]
    refine (h.holds i (by omega) hpos).congr ?_
    have hstart_le : pool.stop positions index ≤ i * pool.batch := by
      have : (index + 1) * pool.batch ≤ i * pool.batch := Nat.mul_le_mul_right _ hi
      unfold Verify.Pool.stop
      omega
    omega
  have hcases : (s.ring (slot pool index)).complete = true
        ∧ current pool positions (s.take pool index).taken.length = index + 1
      ∨ (s.ring (slot pool index)).complete = false
        ∧ current pool positions (s.take pool index).taken.length = index := by
    rw [hlen]
    cases hcomp : (s.ring (slot pool index)).complete with
    | true =>
      rw [hcomplete.mp hcomp]
      exact .inl ⟨rfl, current_stop hb⟩
    | false =>
      refine .inr ⟨rfl, current_eq (le_self_add) ?_⟩
      refine lt_of_le_of_ne hdone fun heq => ?_
      rw [hcomplete.mpr heq] at hcomp
      cases hcomp
  have hpast : ∀ i < index, i * pool.batch + s.done i = pool.stop positions i := fun i hi =>
    h.past i (by omega)
  have hposted : (s.take pool index).posted = s.posted := rfl
  rcases hcases with ⟨hcomp, hnew⟩ | ⟨hcomp, hnew⟩
  · rw [if_pos hcomp]
    have hzero : ((s.take pool index).ring (slot pool index)).index = 0 := by
      rw [hring_self]
      show (if _ then 0 else _) = 0
      rw [if_pos hcomp]
    exact {
      ready := h.ready
      awaited := nofun
      taking := by
        rintro i ⟨⟩
        exact hnew.symm
      looks := nofun
      head := by
        rw [hnew]
        exact congrArg (· + 1) hhead
      seen := nofun
      woke := nofun
      halting := nofun
      halted := h.halted
      taken := by rw [hlen]; exact htaken
      taken_le := by omega
      reached := by
        intro i hi hlt'
        rw [hnew] at hi
        subst hi
        rw [hlen]
        have : pool.stop positions index ≤ (index + 1) * pool.batch := min_le_left _ _
        omega
      past := by
        intro i hi
        rw [hnew] at hi
        rcases Nat.lt_succ_iff_lt_or_eq.mp hi with hi | rfl
        · exact hpast i hi
        · exact hcomplete.mp hcomp
      holds := by
        intro i hi hpos
        exact hlater i (by omega) hpos
      owner := by
        intro j i hj
        by_cases hjs : j = slot pool index
        · subst hjs
          rw [hzero] at hj
          cases hj
        · rw [hring_ne j hjs] at hj
          obtain ⟨hslot, hle', hpos⟩ := h.owner j i hj
          refine ⟨hslot, ?_, hpos⟩
          have : i ≠ index := by
            rintro rfl
            exact hjs hslot
          omega }
  · rw [if_neg (by rw [hcomp]; nofun)]
    have hempty : (s.ring (slot pool index)).emptied s.start
        = ⟨index + 1, s.start, [], false⟩ := by
      have hindex : (s.ring (slot pool index)).index = index + 1 := by
        simp only [Slot.filled, Bool.and_eq_true, decide_eq_true_eq] at hf
        exact hf.1
      unfold Slot.emptied
      rw [hcomp, hindex]
      rfl
    exact {
      ready := h.ready
      awaited := nofun
      taking := by
        rintro i ⟨⟩
        exact hnew.symm
      looks := by
        rintro i x ⟨⟩ -
        exact hb
      head := by
        rw [hnew]
        exact hhead
      seen := by
        rintro i m _ ⟨⟩ ⟨⟩
        exact ⟨Nat.zero_le _, nofun⟩
      woke := nofun
      halting := nofun
      halted := h.halted
      taken := by rw [hlen]; exact htaken
      taken_le := by omega
      reached := by
        intro i hi hlt'
        rw [hnew] at hi
        subst hi
        exact le_of_eq hlen
      past := by
        intro i hi
        rw [hnew] at hi
        exact hpast i hi
      holds := by
        intro i hi hpos
        rw [hnew] at hi
        rcases Nat.lt_or_eq_of_le hi with hi | rfl
        · exact hlater i hi hpos
        · rw [hring_self, hempty]
          refine ⟨rfl, ?_, nofun, ?_⟩
          · show [] = List.range' _ (index * pool.batch + s.done index - _)
            rw [hlen, max_eq_left (le_self_add), Nat.sub_self]
            rfl
          · rw [← hcomp]
            exact hcomplete
      owner := by
        intro j i hj
        rw [hnew]
        by_cases hjs : j = slot pool index
        · subst hjs
          rw [hring_self, hempty] at hj
          obtain rfl : index = i := Nat.succ_injective hj
          exact ⟨rfl, le_rfl, (h.owner _ index (by
            simp only [Slot.filled, Bool.and_eq_true, decide_eq_true_eq] at hf
            exact hf.1)).2.2⟩
        · rw [hring_ne j hjs] at hj
          obtain ⟨hslot, hle', hpos⟩ := h.owner j i hj
          exact ⟨hslot, by omega, hpos⟩ }

/-- What the calling thread leaves alone. -/
theorem CallerAct.frame (h : CallerAct pool positions s o s' n k) :
    s'.next = s.next ∧ s'.done = s.done ∧ s'.posted = s.posted ∧ s'.lost = s.lost
      ∧ s'.room = s.room ∧ s'.lock = s.lock ∧ s'.roomless = s.roomless ∧ s'.waiting = s.waiting
      ∧ s'.used = s.used ∧ (s.stop = true → s'.stop = true) := by
  cases h
  case store_stop => exact ⟨rfl, rfl, rfl, rfl, rfl, rfl, rfl, rfl, rfl, fun _ => rfl⟩
  all_goals exact ⟨rfl, rfl, rfl, rfl, rfl, rfl, rfl, rfl, rfl, id⟩

theorem CallerAct.head_le (h : CallerAct pool positions s o s' n k)
    (ht : Taking pool positions s vs o.view) : s.head ≤ s'.head := by
  cases h
  case store_head index =>
    have hhead := ht.head
    have htaking := ht.taking (index + 1) rfl
    simp only [Caller.view, Bool.toNat_true] at hhead
    show s.head ≤ index + 1
    omega
  all_goals exact le_rfl

theorem Claims.caller (h : Claims pool positions s vs) (ht : Taking pool positions s vs o.view)
    (ha : CallerAct pool positions s o s' n k) : Claims pool positions s' vs := by
  have hhead := ha.head_le ht
  obtain ⟨hnext, hdone, -, hlost, -, -, -, -, -, hstop⟩ := ha.frame
  refine ⟨?_, h.distinct, ?_, ?_, ?_, ?_, ?_, ?_, ?_⟩
  · rw [hnext]
    exact h.claimed
  · exact fun w i hi => (h.works w i hi).congr (by rw [hdone]) hhead hstop
  · rw [hnext, hdone]
    exact fun i hi hb => (h.kept i hi hb).imp_right (Or.imp_right hstop)
  · rw [hnext, hdone]
    exact h.unclaimed
  · rw [hdone]
    exact h.done_le
  · rw [hnext]
    exact fun w hw => (h.returned w hw).imp_left hstop
  · rw [hlost]
    exact h.lost
  · rw [hdone]
    exact fun i hpos => lt_of_lt_of_le (h.window i hpos) (by omega)

/-- Where the calling thread goes after a batch. -/
theorem Taking.next (h : Taking pool positions s vs o.view) {index : ℕ}
    (htaking : o.view.taking = some index) (hstores : o.view.stores = false)
    (hready : o.view.holds_ready = false) (hhalted : o.view.halted = false) :
    Taking pool positions s vs (Caller.next pool positions index).view := by
  have hcur := h.taking index htaking
  have hhead := h.head
  rw [hstores] at hhead
  unfold Caller.next
  split
  · rename_i hlt
    exact { h with
      ready := h.ready.trans hready
      awaited := nofun
      taking := by
        rintro i ⟨⟩
        exact hcur
      looks := by
        rintro i x ⟨⟩ -
        exact hlt
      head := hhead
      seen := by
        rintro i m _ ⟨⟩ ⟨⟩
        exact ⟨Nat.zero_le _, nofun⟩
      woke := nofun
      halting := nofun
      halted := h.halted.trans hhalted }
  · rename_i hge
    have hall : s.taken.length = positions := by
      have := h.taken_le
      by_contra hne
      have hlt : current pool positions s.taken.length < pool.batches positions :=
        (current_lt (by omega)).1
      omega
    exact { h with
      ready := h.ready.trans hready
      awaited := nofun
      taking := nofun
      looks := nofun
      head := hhead
      seen := nofun
      woke := nofun
      halting := fun _ => ⟨rfl, .inr (.inr hall)⟩
      halted := h.halted.trans hhalted }

theorem Taking.caller (h : Taking pool positions s vs o.view) (hc : Claims pool positions s vs)
    (ha : CallerAct pool positions s o s' n k) : Taking pool positions s' vs n.view := by
  cases ha with
  | not_moved | not_lost | load_roomless | tell_room | notify_room | nobody_roomless | halt_room
  | halt_notify_room | halt_freed | halt_notify_freed => exact h
  | load_posted =>
    exact { h with
      looks := by
        rintro i x ⟨⟩ -
        exact h.looks _ _ rfl rfl
      seen := by
        rintro i m looked ⟨⟩ ⟨⟩
        exact ⟨le_rfl, nofun⟩
      woke := nofun }
  | look hf => exact h.look hc rfl hf
  | look_empty hf =>
    exact { h with
      looks := by
        rintro i x ⟨⟩ -
        exact h.looks _ _ rfl rfl
      seen := by
        rintro i m looked ⟨⟩ ⟨⟩
        refine ⟨(h.seen _ _ _ rfl rfl).1, fun _ hf' => ?_⟩
        rw [hf] at hf'
        cases hf'
      woke := nofun }
  | lock_ready => exact { h with ready := rfl }
  | store_awaited =>
    exact { h with
      awaited := by
        rintro i - ⟨⟩
        rfl }
  | moved _ =>
    refine { h with woke := ?_ }
    rintro i m looked - ⟨⟩ ⟨⟩
    have := (h.seen _ _ _ rfl rfl).1
    exact .inl (by omega)
  | lost hlost => exact { h with woke := fun _ _ _ _ _ _ => .inr hlost }
  | sleep => exact { h with ready := rfl }
  | relock => exact { h with ready := rfl }
  | clear_awaited => exact { h with ready := rfl, awaited := nofun }
  | take_again =>
    exact { h with
      looks := by
        rintro i x ⟨⟩ -
        exact h.looks _ _ rfl rfl
      seen := by
        rintro i m looked ⟨⟩ ⟨⟩
        exact ⟨Nat.zero_le _, nofun⟩
      woke := nofun }
  | give_up _ =>
    refine { h with
      awaited := nofun
      taking := nofun
      looks := nofun
      seen := nofun
      woke := nofun
      halting := fun _ => ⟨rfl, .inr (.inl ?_)⟩ }
    rcases h.woke _ _ _ rfl rfl rfl with _ | hlost
    · omega
    · exact hlost
  | store_head =>
    rename_i index
    have htaking := h.taking (index + 1) rfl
    exact { h with head := htaking }
  | consume =>
    rename_i index complete
    cases complete with
    | true => exact h.next rfl rfl rfl rfl
    | false => exact h
  | stops =>
    rename_i index complete
    cases complete <;>
      exact { h with
        awaited := nofun
        taking := nofun
        looks := nofun
        seen := nofun
        woke := nofun
        halting := fun _ => ⟨rfl, .inl rfl⟩ }
  | store_stop =>
    exact { h with halted := rfl }

end

end Ferret.Ring
