import Mathlib.Algebra.BigOperators.Group.List.Basic
import Mathlib.Algebra.Order.Ring.Nat

/-!
# Fanning work out

A few threads take items off a list: a thread claims the next index, takes the
item there, works on it and leaves the result in the item's slot. The steps of
the threads come in any order, and a helper may start late or not at all. An
item is with the list, with a thread or done, so once every thread that started
has found nothing more, each slot holds the result of its own item.
-/

namespace Ferret.Catalog.FanOut

open List

variable {I T : Type}

/-- Where a thread is in its loop. -/
inductive Thread (I : Type)
  | idle
  | claimed (n : ℕ)
  | working (n : ℕ) (item : I)
  | done

structure Pool (I T : Type) where
  slots : List (Option I × Option T)
  next : ℕ
  threads : List (Thread I)

/-- The calling thread alone, with every item in its slot. -/
def Pool.new (items : List I) : Pool I T := ⟨items.map fun item => (some item, none), 0, [.idle]⟩

/-- One step: a helper starts, or a thread of the pool goes on. -/
inductive Step (work : I → T) (threads : ℕ) : Pool I T → Pool I T → Prop
  | spawn {pool : Pool I T} : pool.threads.length < threads →
    Step work threads pool { pool with threads := pool.threads ++ [.idle] }
  | claim {pool : Pool I T} {t : ℕ} : pool.threads[t]? = some .idle → pool.next < pool.slots.length →
    Step work threads pool
      { pool with next := pool.next + 1, threads := pool.threads.set t (.claimed pool.next) }
  | spent {pool : Pool I T} {t : ℕ} : pool.threads[t]? = some .idle → pool.slots.length ≤ pool.next →
    Step work threads pool { pool with next := pool.next + 1, threads := pool.threads.set t .done }
  | take {pool : Pool I T} {t n : ℕ} {item : I} {r : Option T} :
    pool.threads[t]? = some (.claimed n) → pool.slots[n]? = some (some item, r) →
    Step work threads pool
      { pool with
        slots := pool.slots.set n (none, r)
        threads := pool.threads.set t (.working n item) }
  | taken {pool : Pool I T} {t n : ℕ} {r : Option T} :
    pool.threads[t]? = some (.claimed n) → pool.slots[n]? = some (none, r) →
    Step work threads pool { pool with threads := pool.threads.set t .idle }
  | finish {pool : Pool I T} {t n : ℕ} {item : I} {i : Option I} {r : Option T} :
    pool.threads[t]? = some (.working n item) → pool.slots[n]? = some (i, r) →
    Step work threads pool
      { pool with
        slots := pool.slots.set n (i, some (work item))
        threads := pool.threads.set t .idle }

/-- The pools reached from the start. -/
inductive Reached (work : I → T) (threads : ℕ) (items : List I) : Pool I T → Prop
  | new : Reached work threads items (.new items)
  | step {pool pool' : Pool I T} : Reached work threads items pool → Step work threads pool pool' →
    Reached work threads items pool'

/-- Every thread that started has found nothing more. -/
def Pool.ended (pool : Pool I T) : Prop := ∀ thread ∈ pool.threads, thread = .done

/-- The results, in the items' order. -/
def Pool.results (pool : Pool I T) : Option (List T) := pool.slots.mapM Prod.snd

section

variable {work : I → T} {threads : ℕ} {items : List I} {pool pool' : Pool I T}

/-- Where an item is. -/
inductive Stage (work : I → T) (pool : Pool I T) (i : ℕ) (item : I) : Prop
  | listed : pool.slots[i]? = some (some item, none) →
    (pool.next ≤ i ∨ ∃ t : ℕ, pool.threads[t]? = some (Thread.claimed i)) → Stage work pool i item
  | held : pool.slots[i]? = some (none, none) →
    (∃ t : ℕ, pool.threads[t]? = some (Thread.working i item)) → Stage work pool i item
  | done : pool.slots[i]? = some (none, some (work item)) → Stage work pool i item

/-- **Every item is with the list, with a thread, or done**, and a thread that
has ended has seen the end of the list. -/
structure Invariant (work : I → T) (items : List I) (pool : Pool I T) : Prop where
  length : pool.slots.length = items.length
  stage : ∀ i item, items[i]? = some item → Stage work pool i item
  claimed : ∀ (t n : ℕ), pool.threads[t]? = some (Thread.claimed n) → n < items.length
  working : ∀ (t : ℕ) i item, pool.threads[t]? = some (Thread.working i item) →
    items[i]? = some item ∧ ∃ r, pool.slots[i]? = some (none, r)
  spent : ∀ t : ℕ, pool.threads[t]? = some Thread.done → items.length ≤ pool.next
  started : pool.threads ≠ []

theorem invariant_new (work : I → T) (items : List I) : Invariant work items (Pool.new items) where
  length := length_map _
  stage := fun i item hi => .listed (by simp [Pool.new, hi]) (.inl (Nat.zero_le _))
  claimed := fun t n h => by
    cases t with
    | zero => cases h
    | succ t => cases h
  working := fun t i item h => by
    cases t with
    | zero => cases h
    | succ t => cases h
  spent := fun t h => by
    cases t with
    | zero => cases h
    | succ t => cases h
  started := nofun

/-- Another thread's place is kept by a step of thread `t`. -/
theorem getElem?_set_of_ne {l : List (Thread I)} {t u : ℕ} {a b c : Thread I} (ht : l[t]? = some a)
    (hu : l[u]? = some b) (hne : a ≠ b) : (l.set t c)[u]? = some b := by
  rw [getElem?_set_ne, hu]
  rintro rfl
  exact hne (Option.some_inj.mp (ht.symm.trans hu))

/-- A place after a step of thread `t` is the new one, or one it had. -/
theorem getElem?_set_cases {l : List (Thread I)} {t u : ℕ} {b c : Thread I}
    (h : (l.set t c)[u]? = some b) : b = c ∨ l[u]? = some b := by
  rcases eq_or_ne t u with rfl | hne
  · rw [getElem?_set] at h
    split at h
    · split at h
      · exact .inl (Option.some_inj.mp h).symm
      · cases h
    · exact .inr h
  · rw [getElem?_set_ne hne] at h
    exact .inr h

theorem getElem?_set_old {l : List (Thread I)} {t u : ℕ} {b c : Thread I}
    (h : (l.set t c)[u]? = some b) (hne : b ≠ c) : l[u]? = some b :=
  (getElem?_set_cases h).resolve_left hne

/-- A thread that is not at an item's place leaves the item where it is. -/
theorem Stage.keep {i : ℕ} {item : I} {t : ℕ} {a c : Thread I} (h : Stage work pool i item)
    (ht : pool.threads[t]? = some a) (hclaimed : a ≠ .claimed i) (hworking : a ≠ .working i item)
    {slots : List (Option I × Option T)} {next : ℕ} (hslots : slots[i]? = pool.slots[i]?)
    (hnext : pool.next ≤ i → next ≤ i ∨ (pool.threads.set t c)[t]? = some (.claimed i)) :
    Stage work ⟨slots, next, pool.threads.set t c⟩ i item := by
  cases h with
  | listed hslot hwhere =>
    refine .listed (hslots.trans hslot) ?_
    rcases hwhere with hle | ⟨u, hu⟩
    · exact (hnext hle).imp_right fun h => ⟨t, h⟩
    · exact .inr ⟨u, getElem?_set_of_ne ht hu hclaimed⟩
  | held hslot hwhere =>
    obtain ⟨u, hu⟩ := hwhere
    exact .held (hslots.trans hslot) ⟨u, getElem?_set_of_ne ht hu hworking⟩
  | done hslot => exact .done (hslots.trans hslot)

/-- **A step keeps every item in its place, or takes it one on.** -/
theorem Invariant.step (h : Invariant work items pool) (hstep : Step work threads pool pool') :
    Invariant work items pool' := by
  have hne {t : ℕ} {c : Thread I} : pool.threads.set t c ≠ [] := by
    rw [ne_eq, ← length_eq_zero_iff, length_set, length_eq_zero_iff]
    exact h.started
  cases hstep with
  | spawn hlt =>
    have hold {t : ℕ} {a : Thread I} (ht : pool.threads[t]? = some a) :
        (pool.threads ++ [Thread.idle])[t]? = some a := by
      rw [getElem?_append_left (List.getElem?_eq_some_iff.mp ht).1, ht]
    have hnew {t : ℕ} {a : Thread I} (ht : (pool.threads ++ [Thread.idle])[t]? = some a)
        (ha : a ≠ .idle) : pool.threads[t]? = some a := by
      rcases lt_or_ge t pool.threads.length with hlt | hge
      · rwa [getElem?_append_left hlt] at ht
      · rw [getElem?_append_right hge, getElem?_singleton] at ht
        split at ht
        · exact absurd (Option.some_inj.mp ht).symm ha
        · cases ht
    refine ⟨h.length, fun i item hi => ?_, fun t n ht => h.claimed t n (hnew ht nofun),
      fun t i item ht => h.working t i item (hnew ht nofun),
      fun t ht => h.spent t (hnew ht nofun), append_ne_nil_of_left_ne_nil h.started _⟩
    cases h.stage i item hi with
    | listed hslot hwhere => exact .listed hslot (hwhere.imp_right fun ⟨u, hu⟩ => ⟨u, hold hu⟩)
    | held hslot hwhere => exact .held hslot (hwhere.imp fun u hu => hold hu)
    | done hslot => exact .done hslot
  | @claim t ht hlt =>
    refine ⟨h.length, fun i item hi => ?_, fun u n hu => ?_, fun u i item hu => ?_, fun u hu => ?_,
      hne⟩
    · refine (h.stage i item hi).keep ht nofun nofun rfl fun hle => ?_
      rcases Nat.eq_or_lt_of_le hle with rfl | hlt
      · exact .inr (getElem?_set_self (List.getElem?_eq_some_iff.mp ht).1)
      · exact .inl hlt
    · rcases getElem?_set_cases hu with heq | hu
      · cases heq
        exact h.length ▸ hlt
      · exact h.claimed u n hu
    · exact h.working u i item (getElem?_set_old hu nofun)
    · exact (h.spent u (getElem?_set_old hu nofun)).trans (Nat.le_succ _)
  | @spent t ht hge =>
    refine ⟨h.length, fun i item hi => ?_, fun u n hu => ?_, fun u i item hu => ?_, fun u hu => ?_,
      hne⟩
    · have hlt : i < pool.next := by
        have := (List.getElem?_eq_some_iff.mp hi).1
        have := h.length
        omega
      exact (h.stage i item hi).keep ht nofun nofun rfl fun hle => absurd hle (not_le.mpr hlt)
    · exact h.claimed u n (getElem?_set_old hu nofun)
    · exact h.working u i item (getElem?_set_old hu nofun)
    · exact (h.length ▸ hge).trans (Nat.le_succ _)
  | @take t n item r ht hslot =>
    have hlt := (List.getElem?_eq_some_iff.mp hslot).1
    have hitem : items[n]? = some item ∧ r = none := by
      have hget := getElem?_eq_getElem (h.length ▸ hlt : n < items.length)
      rcases h.stage n _ hget with ⟨hs, -⟩ | ⟨hs, -⟩ | hs
      · rw [hslot] at hs
        cases hs
        exact ⟨hget, rfl⟩
      all_goals
        rw [hslot] at hs
        cases hs
    refine ⟨(length_set ..).trans h.length, fun i item' hi => ?_,
      fun u m hu => h.claimed u m (getElem?_set_old hu nofun),
      fun u i item' hu => ?_,
      fun u hu => h.spent u (getElem?_set_old hu nofun), hne⟩
    · rcases eq_or_ne n i with rfl | hne
      · obtain rfl := Option.some_inj.mp (hitem.1.symm.trans hi)
        refine .held ?_ ⟨t, getElem?_set_self (List.getElem?_eq_some_iff.mp ht).1⟩
        rw [getElem?_set_self hlt, hitem.2]
      · refine (h.stage i item' hi).keep ht (fun heq => hne (Thread.claimed.inj heq)) nofun
          (getElem?_set_ne hne) .inl
    · rcases getElem?_set_cases hu with heq | hu
      · cases heq
        exact ⟨hitem.1, r, getElem?_set_self hlt⟩
      · obtain ⟨hi, r', hr'⟩ := h.working u i item' hu
        refine ⟨hi, ?_⟩
        rcases eq_or_ne n i with rfl | hne
        · exact ⟨r, getElem?_set_self hlt⟩
        · exact ⟨r', (getElem?_set_ne hne).trans hr'⟩
  | @taken t n r ht hslot =>
    refine ⟨h.length, fun i item hi => ?_,
      fun u m hu => h.claimed u m (getElem?_set_old hu nofun),
      fun u i item hu => h.working u i item (getElem?_set_old hu nofun),
      fun u hu => h.spent u (getElem?_set_old hu nofun), hne⟩
    rcases eq_or_ne n i with rfl | hne
    · rcases h.stage n item hi with ⟨hs, -⟩ | ⟨hs, u, hu⟩ | hs
      · rw [hslot] at hs
        cases hs
      · exact .held hs ⟨u, getElem?_set_of_ne ht hu nofun⟩
      · exact .done hs
    · exact (h.stage i item hi).keep ht (fun heq => hne (Thread.claimed.inj heq)) nofun rfl .inl
  | @finish t n item o r ht hslot =>
    have hlt := (List.getElem?_eq_some_iff.mp hslot).1
    obtain ⟨hitem, r', hr'⟩ := h.working t n item ht
    have ho : o = none := by
      rw [hslot] at hr'
      cases hr'
      rfl
    refine ⟨(length_set ..).trans h.length, fun i item' hi => ?_,
      fun u m hu => h.claimed u m (getElem?_set_old hu nofun),
      fun u i item' hu => ?_,
      fun u hu => h.spent u (getElem?_set_old hu nofun), hne⟩
    · rcases eq_or_ne n i with rfl | hne
      · obtain rfl := Option.some_inj.mp (hitem.symm.trans hi)
        refine .done ?_
        rw [getElem?_set_self hlt, ho]
      · exact (h.stage i item' hi).keep ht nofun (fun heq => hne (Thread.working.inj heq).1)
          (getElem?_set_ne hne) .inl
    · obtain ⟨hi, r', hr'⟩ := h.working u i item' (getElem?_set_old hu nofun)
      refine ⟨hi, ?_⟩
      rcases eq_or_ne n i with rfl | hne
      · rw [ho]
        exact ⟨_, getElem?_set_self hlt⟩
      · exact ⟨r', (getElem?_set_ne hne).trans hr'⟩

theorem Reached.invariant (h : Reached work threads items pool) : Invariant work items pool := by
  induction h with
  | new => exact invariant_new work items
  | step _ hstep ih => exact ih.step hstep

/-- **The results are those of the work on each item**, in the items' order,
however the threads ran. -/
theorem results_eq (h : Reached work threads items pool) (hended : pool.ended) :
    pool.results = some (items.map work) := by
  have hinv := h.invariant
  obtain ⟨thread, _, hthreads⟩ := exists_cons_of_ne_nil hinv.started
  have hdone : pool.threads[0]? = some .done := by
    have := hended thread (hthreads ▸ .head _)
    rw [hthreads, this]
    rfl
  have hspent := hinv.spent 0 hdone
  have hslots : pool.slots = items.map fun item => (none, some (work item)) := by
    refine ext_getElem? fun i => ?_
    rw [getElem?_map]
    cases hi : items[i]? with
    | none =>
      have hlen := List.getElem?_eq_none_iff.mp hi
      exact getElem?_eq_none (hinv.length ▸ hlen)
    | some item =>
      have hlt := (List.getElem?_eq_some_iff.mp hi).1
      rcases hinv.stage i item hi with ⟨-, _ | ⟨t, ht⟩⟩ | ⟨-, t, ht⟩ | hslot
      · omega
      · cases hended _ (mem_of_getElem? ht)
      · cases hended _ (mem_of_getElem? ht)
      · exact hslot
  rw [Pool.results, hslots, mapM_map]
  exact mapM_pure

end

end Ferret.Catalog.FanOut
