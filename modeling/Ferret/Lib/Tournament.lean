import Mathlib.Algebra.Order.Ring.Nat

/-!
# Loser trees

A loser tree over `k` inputs is a binary tree laid out in an array: nodes
`1, …, k - 1` are matches, input `i` is the leaf `k + i`, and the children of
`n` are `2n` and `2n + 1`. Each match remembers its loser, and the winner of
the whole tree is kept beside them. When the winner's key changes, only the
matches on its way to the root are replayed, each against the loser it
remembers.

The keys of the inputs are given by a function `key`, injective so that no
match is drawn. `best` is the input that should win at a node, and `Sound`
says that a tree remembers the losers the keys call for. That replaying
restores `Sound` rests on the one fact that makes loser trees work: the
overall winner had won every match on its way up, so each loser remembered
there is the winner of the other side.
-/

namespace Tournament

variable {K : Type} [LinearOrder K]

/-- Node `m` lies under node `n`. -/
def Under (n m : ℕ) : Prop := ∃ i, m / 2 ^ i = n

theorem Under.refl (n : ℕ) : Under n n := ⟨0, by simp⟩

variable {n m c j : ℕ} {before : ℕ → ℕ → Bool}

theorem Under.half (h : Under n m) : Under (n / 2) m := by
  obtain ⟨i, rfl⟩ := h
  exact ⟨i + 1, by rw [pow_succ, Nat.div_div_eq_div_mul]⟩

/-- What lies under a node, not being it, lies under one of its children. -/
theorem Under.child (h : Under n m) (hne : m ≠ n) : Under (2 * n) m ∨ Under (2 * n + 1) m := by
  obtain ⟨i, hi⟩ := h
  cases i with
  | zero => exact absurd (by simpa using hi) hne
  | succ i =>
    rw [pow_succ, ← Nat.div_div_eq_div_mul] at hi
    rcases Nat.mod_two_eq_zero_or_one (m / 2 ^ i) with _ | _
    · exact .inl ⟨i, by omega⟩
    · exact .inr ⟨i, by omega⟩

theorem Under.of_child (hc : c / 2 = n) (h : Under c m) : Under n m :=
  hc ▸ h.half

/-- The two sides of a match have nothing in common. -/
theorem not_under_both (hn : 0 < n) (h₀ : Under (2 * n) m) (h₁ : Under (2 * n + 1) m) : False := by
  obtain ⟨p, hp⟩ := h₀
  obtain ⟨q, hq⟩ := h₁
  rcases lt_or_ge q p with _ | hle
  · obtain ⟨r, rfl⟩ : ∃ r, p = q + (r + 1) := ⟨p - q - 1, by omega⟩
    rw [pow_add, ← Nat.div_div_eq_div_mul, hq, pow_succ', ← Nat.div_div_eq_div_mul] at hp
    have : (2 * n + 1) / 2 / 2 ^ r ≤ (2 * n + 1) / 2 := Nat.div_le_self _ _
    omega
  · obtain ⟨r, rfl⟩ := Nat.exists_eq_add_of_le hle
    rw [pow_add, ← Nat.div_div_eq_div_mul, hp] at hq
    have : 2 * n / 2 ^ r ≤ 2 * n := Nat.div_le_self _ _
    omega

/-- Everything lies under the root. -/
theorem under_one (hm : 0 < m) : Under 1 m := by
  induction m using Nat.strongRecOn with
  | ind m ih =>
    rcases lt_or_ge m 2 with h | h
    · obtain rfl : m = 1 := by omega
      exact Under.refl 1
    · obtain ⟨i, hi⟩ := ih (m / 2) (by omega) (by omega)
      refine ⟨i + 1, ?_⟩
      rw [pow_succ', ← Nat.div_div_eq_div_mul]
      exact hi

/-! ## Who should win -/

section

variable (key : ℕ → K) (k : ℕ)

/-- The better of two inputs; the first when neither is. -/
def pick (a b : ℕ) : ℕ := if key b < key a then b else a

/-- The input that should win at a node. -/
def best (n : ℕ) : ℕ :=
  if n = 0 ∨ k ≤ n then n - k else pick key (best (2 * n)) (best (2 * n + 1))
termination_by k - n

/-- The worse of two inputs; the second when neither is. -/
def other (a b : ℕ) : ℕ := if key b < key a then a else b

/-- The input that should lose the match at a node. -/
def loserAt (n : ℕ) : ℕ := other key (best key k (2 * n)) (best key k (2 * n + 1))

end

variable {key key' : ℕ → K} {k : ℕ}

theorem best_leaf (h : k ≤ n) : best key k n = n - k := by
  rw [best, if_pos (Or.inr h)]

theorem best_match (h₀ : 0 < n) (h : n < k) :
    best key k n = pick key (best key k (2 * n)) (best key k (2 * n + 1)) := by
  rw [best, if_neg (by omega)]

theorem pick_le_left (a b : ℕ) : key (pick key a b) ≤ key a := by
  unfold pick
  split
  next h => exact h.le
  next => exact le_rfl

theorem pick_le_right (a b : ℕ) : key (pick key a b) ≤ key b := by
  unfold pick
  split
  next => exact le_rfl
  next h => exact not_lt.mp h

theorem pick_eq_or (key : ℕ → K) (a b : ℕ) : pick key a b = a ∨ pick key a b = b := by
  unfold pick
  split
  · exact .inr rfl
  · exact .inl rfl

/-- The winner at a node is an input under it. -/
theorem under_best (hn : 0 < n) : Under n (k + best key k n) := by
  induction n using best.induct k with
  | case1 n h =>
    have hkn : k ≤ n := h.resolve_left hn.ne'
    rw [best_leaf hkn, Nat.add_sub_cancel' hkn]
    exact Under.refl n
  | case2 n h ih₀ ih₁ =>
    rw [not_or, not_le] at h
    rw [best_match hn h.2]
    rcases pick_eq_or key (best key k (2 * n)) (best key k (2 * n + 1)) with hp | hp
    · rw [hp]
      exact (ih₀ (by omega)).of_child (by omega)
    · rw [hp]
      exact (ih₁ (by omega)).of_child (by omega)

theorem best_lt (hn : 0 < n) (h2 : n < 2 * k) : best key k n < k := by
  induction n using best.induct k with
  | case1 n h =>
    have hkn : k ≤ n := h.resolve_left hn.ne'
    rw [best_leaf hkn]
    omega
  | case2 n h ih₀ ih₁ =>
    rw [not_or, not_le] at h
    rw [best_match hn h.2]
    rcases pick_eq_or key (best key k (2 * n)) (best key k (2 * n + 1)) with hp | hp
    · rw [hp]
      exact ih₀ (by omega) (by omega)
    · rw [hp]
      exact ih₁ (by omega) (by omega)

/-- The winner at a node has the least key of the inputs under it. -/
theorem best_le {i : ℕ} (hn : 0 < n) (hi : i < k) (hu : Under n (k + i)) :
    key (best key k n) ≤ key i := by
  induction n using best.induct k with
  | case1 n h =>
    have hkn : k ≤ n := h.resolve_left hn.ne'
    have heq : k + i = n := by
      by_contra hne
      obtain ⟨j, hj⟩ := hu
      cases j with
      | zero => exact hne (by simpa using hj)
      | succ j =>
        rw [pow_succ', ← Nat.div_div_eq_div_mul] at hj
        have := Nat.div_le_self ((k + i) / 2) (2 ^ j)
        omega
    rw [best_leaf hkn, ← heq, Nat.add_sub_cancel_left]
  | case2 n h ih₀ ih₁ =>
    rw [not_or, not_le] at h
    rw [best_match hn h.2]
    rcases hu.child (by omega) with hc | hc
    · exact (pick_le_left _ _).trans (ih₀ (by omega) hc)
    · exact (pick_le_right _ _).trans (ih₁ (by omega) hc)

/-- An input that is not under a node does not matter there. -/
theorem best_ne (hn : 0 < n) (hu : ¬ Under n (k + j)) : best key k n ≠ j :=
  fun he => hu (he ▸ under_best hn)

theorem best_congr (hn : 0 < n) (hkey : ∀ i, i ≠ j → key' i = key i)
    (hu : ¬ Under n (k + j)) : best key' k n = best key k n := by
  induction n using best.induct k with
  | case1 n h =>
    have hkn : k ≤ n := h.resolve_left hn.ne'
    rw [best_leaf hkn, best_leaf hkn]
  | case2 n h ih₀ ih₁ =>
    rw [not_or, not_le] at h
    have hu₀ : ¬ Under (2 * n) (k + j) := fun hc => hu (hc.of_child (by omega))
    have hu₁ : ¬ Under (2 * n + 1) (k + j) := fun hc => hu (hc.of_child (by omega))
    rw [best_match hn h.2, best_match hn h.2, ih₀ (by omega) hu₀, ih₁ (by omega) hu₁, pick, pick,
      hkey _ (best_ne (by omega) hu₀), hkey _ (best_ne (by omega) hu₁)]

theorem loserAt_congr (hn : 0 < n) (hkey : ∀ i, i ≠ j → key' i = key i)
    (hu : ¬ Under n (k + j)) : loserAt key' k n = loserAt key k n := by
  have hu₀ : ¬ Under (2 * n) (k + j) := fun hc => hu (hc.of_child (by omega))
  have hu₁ : ¬ Under (2 * n + 1) (k + j) := fun hc => hu (hc.of_child (by omega))
  rw [loserAt, loserAt, best_congr (by omega) hkey hu₀, best_congr (by omega) hkey hu₁, other,
    other, hkey _ (best_ne (by omega) hu₀), hkey _ (best_ne (by omega) hu₁)]

/-- The overall winner wins at every node it is under. -/
theorem best_of_under (hinj : Function.Injective key) (hk : 1 ≤ k)
    (hj : best key k 1 = j) (hn : 0 < n) (h2 : n < 2 * k) (hu : Under n (k + j)) :
    best key k n = j := by
  have hjk : j < k := hj ▸ best_lt one_pos (by omega)
  have hlt : best key k n < k := best_lt hn h2
  refine hinj (le_antisymm (best_le hn hjk hu) ?_)
  rw [← hj]
  exact best_le one_pos hlt (under_one (by omega))

/-! ## Trees -/

/-- A tree: the loser of each match, and the overall winner. -/
structure Tree where
  losers : List ℕ
  winner : ℕ

/-- Play the matches under a node. -/
def play (before : ℕ → ℕ → Bool) (k : ℕ) : ℕ → ℕ → List ℕ → ℕ × List ℕ
  | 0, node, losers => (node - k, losers)
  | fuel + 1, node, losers =>
    if k ≤ node then (node - k, losers)
    else
      let a := play before k fuel (2 * node) losers
      let b := play before k fuel (2 * node + 1) a.2
      if before b.1 a.1 then (b.1, b.2.set node a.1) else (a.1, b.2.set node b.1)

/-- A tree over `k` inputs. No node is `k` levels deep. -/
def new (k : ℕ) (before : ℕ → ℕ → Bool) : Tree :=
  if 1 < k then
    { losers := (play before k k 1 (List.replicate k 0)).2
      winner := (play before k k 1 (List.replicate k 0)).1 }
  else { losers := List.replicate k 0, winner := 0 }

/-- Replay the matches from a node up to the root. -/
def replayFrom (before : ℕ → ℕ → Bool) : ℕ → ℕ → ℕ → List ℕ → Tree
  | 0, _, winner, losers => { losers := losers, winner := winner }
  | fuel + 1, node, winner, losers =>
    if node = 0 then { losers := losers, winner := winner }
    else
      let loser := losers.getD node 0
      if before loser winner then
        replayFrom before fuel (node / 2) loser (losers.set node winner)
      else replayFrom before fuel (node / 2) winner losers

/-- Replay an input's matches after its key changed. Halving a node brings it
to the root in fewer steps than its number. -/
def Tree.replay (t : Tree) (input : ℕ) (before : ℕ → ℕ → Bool) : Tree :=
  let node := (t.losers.length + input) / 2
  replayFrom before node node input t.losers

/-- **The tree is the one its keys call for.** -/
structure Sound (key : ℕ → K) (k : ℕ) (t : Tree) : Prop where
  length_losers : t.losers.length = k
  loser : ∀ n, 0 < n → n < k → t.losers.getD n 0 = loserAt key k n
  winner : 1 ≤ k → t.winner = best key k 1

variable {t : Tree}

/-- The winner of a sound tree has the least key. -/
theorem Sound.winner_le (h : Sound key k t) {i : ℕ} (hi : i < k) : key t.winner ≤ key i := by
  rw [h.winner (by omega)]
  exact best_le one_pos hi (under_one (by omega))

theorem Sound.winner_lt (h : Sound key k t) (hk : 1 ≤ k) : t.winner < k := by
  rw [h.winner hk]
  exact best_lt one_pos (by omega)

theorem getD_set (xs : List ℕ) (i j a : ℕ) (hi : i < xs.length) :
    (xs.set i a).getD j 0 = if i = j then a else xs.getD j 0 := by
  by_cases h : i = j
  · subst h
    simp [hi]
  · simp [h, List.getD_eq_getElem?_getD]

/-- The order of the keys, as the tree asks for it. -/
def Decides (before : ℕ → ℕ → Bool) (key : ℕ → K) : Prop :=
  ∀ a b, before a b = decide (key a < key b)

/-- Playing the matches under a node finds its winner and remembers its
losers, and touches nothing else. -/
theorem play_ok (hb : Decides before key) (fuel : ℕ)
    {losers : List ℕ} (hn : 0 < n) (hfuel : k ≤ n + fuel) (hlen : losers.length = k) :
    let q := play before k fuel n losers
    q.1 = best key k n ∧ q.2.length = k ∧ ∀ m, 0 < m → m < k →
      (Under n m → q.2.getD m 0 = loserAt key k m)
        ∧ (¬ Under n m → q.2.getD m 0 = losers.getD m 0) := by
  induction fuel generalizing n losers with
  | zero =>
    have hkn : k ≤ n := by omega
    refine ⟨(best_leaf hkn).symm, hlen, fun m hm hmk => ⟨fun hu => ?_, fun _ => rfl⟩⟩
    obtain ⟨i, hi⟩ := hu
    have := Nat.div_le_self m (2 ^ i)
    omega
  | succ fuel ih =>
    unfold play
    by_cases hkn : k ≤ n
    · rw [if_pos hkn]
      refine ⟨(best_leaf hkn).symm, hlen, fun m hm hmk => ⟨fun hu => ?_, fun _ => rfl⟩⟩
      obtain ⟨i, hi⟩ := hu
      have := Nat.div_le_self m (2 ^ i)
      omega
    · rw [if_neg hkn]
      dsimp only
      obtain ⟨ha, hla, hma⟩ := ih (n := 2 * n) (by omega) (by omega) hlen
      generalize play before k fuel (2 * n) losers = a at ha hla hma ⊢
      obtain ⟨hb', hlb, hmb⟩ := ih (n := 2 * n + 1) (by omega) (by omega) hla
      generalize play before k fuel (2 * n + 1) a.2 = b at hb' hlb hmb ⊢
      have hsplit : (if before b.1 a.1 = true then (b.1, b.2.set n a.1) else (a.1, b.2.set n b.1))
          = (best key k n, b.2.set n (loserAt key k n)) := by
        rw [best_match hn (not_le.mp hkn), loserAt, pick, other, ← ha, ← hb', hb]
        by_cases hlt : key b.1 < key a.1 <;> simp [hlt]
      rw [hsplit]
      refine ⟨rfl, (List.length_set ..).trans hlb, fun m hm hmk => ?_⟩
      rw [getD_set _ _ _ _ (by omega)]
      by_cases hnm : n = m
      · subst hnm
        exact ⟨fun _ => if_pos rfl, fun hu => absurd (Under.refl n) hu⟩
      · rw [if_neg hnm]
        refine ⟨fun hu => ?_, fun hu => ?_⟩
        · by_cases hu₁ : Under (2 * n + 1) m
          · exact (hmb m hm hmk).1 hu₁
          · rw [(hmb m hm hmk).2 hu₁]
            exact (hma m hm hmk).1 ((hu.child (Ne.symm hnm)).resolve_right hu₁)
        · rw [(hmb m hm hmk).2 fun hc => hu (hc.of_child (by omega)),
            (hma m hm hmk).2 fun hc => hu (hc.of_child (by omega))]

/-- **A new tree is sound.** -/
theorem new_sound (hb : Decides before key) (k : ℕ) : Sound key k (new k before) := by
  unfold new
  by_cases hk : 1 < k
  · rw [if_pos hk]
    obtain ⟨hw, hlen, hm⟩ :=
      play_ok hb k one_pos (by omega : k ≤ 1 + k) (List.length_replicate (n := k) (a := 0))
    exact ⟨hlen, fun n hn hnk => (hm n hn hnk).1 (under_one hn), fun _ => hw⟩
  · rw [if_neg hk]
    refine ⟨List.length_replicate, fun n hn hnk => absurd hnk (by omega), fun h1 => ?_⟩
    obtain rfl : k = 1 := by omega
    rw [best_leaf le_rfl]

/-! ## Replaying -/

/-- The loser remembered on the winner's way up is the winner of the other
side. -/
theorem loserAt_of_under (hinj : Function.Injective key) (hj : best key k 1 = j)
    (hn : 0 < n) (hnk : n < k) (hc : c = 2 * n ∨ c = 2 * n + 1) (hu : Under c (k + j)) :
    loserAt key k n = best key k (if c = 2 * n then 2 * n + 1 else 2 * n) := by
  have hbest : best key k c = j :=
    best_of_under hinj (by omega) hj (by omega) (by omega) hu
  have hroot : best key k n = j :=
    best_of_under hinj (by omega) hj hn (by omega) (hu.of_child (by omega))
  rw [best_match hn hnk, pick] at hroot
  rw [loserAt, other]
  rcases hc with rfl | rfl
  · rw [if_pos rfl]
    rw [hbest] at hroot ⊢
    split at hroot
    next hlt =>
      rw [hroot] at hlt
      exact absurd hlt (lt_irrefl _)
    next hlt => exact if_neg hlt
  · rw [if_neg (by omega : ¬ 2 * n + 1 = 2 * n)]
    rw [hbest] at hroot ⊢
    split at hroot
    next hlt => exact if_pos hlt
    next hlt => rw [hroot, if_neg (lt_irrefl _)]

/-- What one replayed match does: the winner so far meets the winner of the
other side. -/
theorem replay_match {w : ℕ} (hinj : Function.Injective key') (hn : 0 < n) (hnk : n < k)
    (hc : c = 2 * n ∨ c = 2 * n + 1) (hw : w = best key' k c) {l : ℕ}
    (hl : l = best key' k (if c = 2 * n then 2 * n + 1 else 2 * n)) :
    (if key' l < key' w then l else w) = best key' k n
      ∧ (if key' l < key' w then w else l) = loserAt key' k n := by
  rw [best_match hn hnk, loserAt, pick, other]
  rcases hc with rfl | rfl
  · rw [if_pos rfl] at hl
    rw [← hw, ← hl]
    exact ⟨rfl, rfl⟩
  · rw [if_neg (by omega : ¬ 2 * n + 1 = 2 * n)] at hl
    rw [← hw, ← hl]
    rcases lt_trichotomy (key' l) (key' w) with h | h | h
    · rw [if_pos h, if_pos h, if_neg h.asymm, if_neg h.asymm]
      exact ⟨rfl, rfl⟩
    · rw [hinj h]
      simp
    · rw [if_neg h.asymm, if_neg h.asymm, if_pos h, if_pos h]
      exact ⟨rfl, rfl⟩

/-- The replay loop, with the matches below `c` replayed and those above it
as the old keys left them. -/
theorem replayFrom_ok (hb : Decides before key')
    (hinj : Function.Injective key) (hinj' : Function.Injective key')
    (hkey : ∀ i, i ≠ j → key' i = key i) (hj : best key k 1 = j) (fuel : ℕ)
    {losers : List ℕ} (hc : 0 < c) (hck : c < 2 * k) (hfuel : c / 2 ≤ fuel)
    (hu : Under c (k + j)) (hlen : losers.length = k)
    (habove : ∀ m, 0 < m → m < k → Under m (c / 2) → losers.getD m 0 = loserAt key k m)
    (hrest : ∀ m, 0 < m → m < k → ¬ Under m (c / 2) → losers.getD m 0 = loserAt key' k m) :
    Sound key' k (replayFrom before fuel (c / 2) (best key' k c) losers) := by
  induction fuel generalizing c losers with
  | zero =>
    obtain rfl : c = 1 := by omega
    exact ⟨hlen, fun m hm hmk => hrest m hm hmk fun ⟨i, hi⟩ => by simp at hi; omega,
      fun _ => rfl⟩
  | succ fuel ih =>
    unfold replayFrom
    by_cases h0 : c / 2 = 0
    · rw [if_pos h0]
      obtain rfl : c = 1 := by omega
      exact ⟨hlen, fun m hm hmk => hrest m hm hmk fun ⟨i, hi⟩ => by simp at hi; omega,
        fun _ => rfl⟩
    · rw [if_neg h0]
      have hn : 0 < c / 2 := by omega
      have hnk : c / 2 < k := by omega
      have hside : c = 2 * (c / 2) ∨ c = 2 * (c / 2) + 1 := by omega
      have hl : losers.getD (c / 2) 0
          = best key' k (if c = 2 * (c / 2) then 2 * (c / 2) + 1 else 2 * (c / 2)) := by
        rw [habove _ hn hnk (Under.refl _), loserAt_of_under hinj hj hn hnk hside hu]
        refine (best_congr ?_ hkey ?_).symm
        · split <;> omega
        · rcases hside with hs | hs
          · rw [if_pos hs]
            rw [hs] at hu
            exact fun hu' => not_under_both hn hu hu'
          · rw [if_neg (by omega : ¬ c = 2 * (c / 2))]
            rw [hs] at hu
            exact fun hu' => not_under_both hn hu' hu
      obtain ⟨hwin, hlose⟩ := replay_match hinj' hn hnk hside rfl hl
      have hstep : ∀ losers' : List ℕ, losers'.length = k →
          losers'.getD (c / 2) 0 = loserAt key' k (c / 2) →
          (∀ m, m ≠ c / 2 → losers'.getD m 0 = losers.getD m 0) →
          Sound key' k (replayFrom before fuel (c / 2 / 2) (best key' k (c / 2)) losers') := by
        intro losers' hlen' hhere hthere
        refine ih hn (by omega) (by omega) hu.half hlen' (fun m hm hmk hum => ?_)
          fun m hm hmk hum => ?_
        · have hne : m ≠ c / 2 := by
            rintro rfl
            obtain ⟨i, hi⟩ := hum
            have := Nat.div_le_self (c / 2 / 2) (2 ^ i)
            omega
          rw [hthere m hne]
          obtain ⟨i, hi⟩ := hum
          refine habove m hm hmk ⟨i + 1, ?_⟩
          rw [pow_succ', ← Nat.div_div_eq_div_mul]
          exact hi
        · by_cases hne : m = c / 2
          · rw [hne]
            exact hhere
          · rw [hthere m hne]
            refine hrest m hm hmk fun hum' => hum ?_
            obtain ⟨i, hi⟩ := hum'
            cases i with
            | zero => exact absurd (by simpa using hi.symm) hne
            | succ i =>
              rw [pow_succ', ← Nat.div_div_eq_div_mul] at hi
              exact ⟨i, hi⟩
      dsimp only
      rw [hb]
      by_cases hlt : key' (losers.getD (c / 2) 0) < key' (best key' k c)
      · rw [if_pos (decide_eq_true hlt)]
        rw [if_pos hlt] at hwin hlose
        rw [hwin]
        refine hstep _ ((List.length_set ..).trans hlen) ?_ fun m hm => ?_
        · rw [getD_set _ _ _ _ (by omega), if_pos rfl]
          exact hlose
        · rw [getD_set _ _ _ _ (by omega), if_neg (Ne.symm hm)]
      · rw [if_neg (by simpa using hlt)]
        rw [if_neg hlt] at hwin hlose
        rw [hwin]
        exact hstep losers hlen hlose fun _ _ => rfl

/-- **Replaying after the winner's key changed restores a sound tree.** -/
theorem Sound.replay (h : Sound key k t)
    (hb : Decides before key') (hk : 1 ≤ k) (hinj : Function.Injective key)
    (hinj' : Function.Injective key') (hkey : ∀ i, i ≠ t.winner → key' i = key i) :
    Sound key' k (t.replay t.winner before) := by
  have hw := h.winner_lt hk
  have hleaf : best key' k (k + t.winner) = t.winner := by
    rw [best_leaf (by omega), Nat.add_sub_cancel_left]
  unfold Tree.replay
  rw [h.length_losers]
  have := replayFrom_ok hb hinj hinj' hkey (h.winner hk).symm ((k + t.winner) / 2)
    (c := k + t.winner) (by omega) (by omega) le_rfl (Under.refl _) h.length_losers
    (fun m hm hmk _ => h.loser m hm hmk) fun m hm hmk hum => ?_
  · rw [hleaf] at this
    exact this
  · rw [h.loser m hm hmk]
    refine (loserAt_congr hm hkey fun hu => hum ?_).symm
    obtain ⟨i, hi⟩ := hu
    cases i with
    | zero => exact absurd hi (by simp; omega)
    | succ i =>
      rw [pow_succ', ← Nat.div_div_eq_div_mul] at hi
      exact ⟨i, hi⟩

end Tournament
