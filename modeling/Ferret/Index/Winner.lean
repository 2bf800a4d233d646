import Ferret.Index.Merge

/-!
# The order of a merge

Every step of the dictionaries' merge takes the term of the tree's winner,
steps that input and replays it. However often the inputs stepped, the winner
is the first of them all, so a term comes out of the inputs that hold it in
input order, and the merge ends when none has a term left.
-/

namespace Ferret

open List
namespace Merge

variable {c : Input} {docs : List ℕ} {inputs starts : List Input} {tree : Tournament.Tree} {i : ℕ}
  {out : List (Bytes ×ₗ ℕ)}

/-- The input that the tree stands on. -/
def current (inputs : List Input) (tree : Tournament.Tree) : Input :=
  inputs.getD tree.winner Input.spent

/-- The inputs once that one has stepped. -/
def advance (inputs : List Input) (tree : Tournament.Tree) : List Input :=
  inputs.set tree.winner (current inputs tree).next

/-- The dictionaries' merge after some steps, with what came out: each step takes the term of the
winner's input, steps that input and replays it. -/
inductive Taken (starts : List Input) : List (Bytes ×ₗ ℕ) → List Input → Tournament.Tree → Prop
  | new : Taken starts [] starts (Tournament.new starts.length (before starts))
  | step {out : List (Bytes ×ₗ ℕ)} {inputs : List Input} {tree : Tournament.Tree}
    {docs : List ℕ} : Taken starts out inputs tree → (current inputs tree).entry = some docs →
    Taken starts (out ++ [toLex ((current inputs tree).term, tree.winner)]) (advance inputs tree)
      (tree.replay tree.winner (before (advance inputs tree)))

/-- There are no inputs past the last. -/
theorem lt_of_entry (he : (inputs.getD i Input.spent).entry = some docs) : i < inputs.length := by
  by_contra hge
  rw [getD_eq_default _ _ (not_lt.mp hge)] at he
  cases he

theorem getD_mem (hi : i < inputs.length) : inputs.getD i Input.spent ∈ inputs := by
  rw [getD_eq_getElem _ _ hi]
  exact getElem_mem hi

theorem Taken.standing (h : Taken starts out inputs tree) :
    inputs.length = starts.length ∧ Standing inputs tree := by
  induction h with
  | new => exact ⟨rfl, Tournament.new_sound (decides_before starts) starts.length⟩
  | step _ he ih =>
    exact ⟨(length_set ..).trans ih.1, ih.2.step (Nat.one_le_of_lt (lt_of_entry he)) _⟩

/-- An input's terms ascend. -/
def Input.Ascends (c : Input) : Prop := c.left.Pairwise fun p q => p.1 < q.1

/-- What an input has left after its term comes after it. -/
theorem Input.Ascends.next (h : c.Ascends) (he : c.entry = some docs) :
    (∀ p ∈ c.next.left, p ∈ c.left ∧ c.term < p.1) ∧ c.next.Ascends := by
  rw [Ascends, left_of_some he] at h
  obtain ⟨hterm, hrest⟩ := pairwise_cons.mp h
  rw [Ascends, left_next]
  exact ⟨fun p hp => ⟨left_of_some he ▸ .tail _ hp, hterm p hp⟩, hrest⟩

/-- **The winner comes before all that the inputs have left but itself.** -/
theorem Standing.before_left (h : Standing inputs tree) (hsorted : ∀ c ∈ inputs, c.Ascends)
    (he : (current inputs tree).entry = some docs) {p : Bytes × List ℕ}
    (hp : p ∈ ((advance inputs tree).getD i Input.spent).left) :
    p ∈ (inputs.getD i Input.spent).left ∧
      toLex ((current inputs tree).term, tree.winner) < toLex (p.1, i) := by
  have hwin := lt_of_entry he
  rw [Prod.Lex.lt_iff]
  rw [advance] at hp
  by_cases hi : i = tree.winner
  · subst hi
    rw [getD_eq_getElem _ _ (by rwa [length_set]), getElem_set_self] at hp
    exact (((hsorted _ (getD_mem hwin)).next he).1 p hp).imp_right .inl
  · rw [getD_eq_getElem?_getD, getElem?_set_ne (Ne.symm hi), ← getD_eq_getElem?_getD] at hp
    refine ⟨hp, ?_⟩
    cases hi' : (inputs.getD i Input.spent).entry with
    | none =>
      rw [Input.left, hi'] at hp
      cases hp
    | some _ =>
      have hlt := lt_of_entry hi'
      obtain ⟨-, hle, hfirst⟩ := h.winner_first hlt hi'
      have hlater := ((hsorted _ (getD_mem hlt)).next hi').1 p
      rw [Input.left_of_some hi'] at hp
      rw [Input.left_next] at hlater
      obtain rfl | hp := mem_cons.mp hp
      · exact hle.lt_or_eq.imp_right fun heq =>
          ⟨heq, lt_of_le_of_ne (hfirst heq) fun h => hi h.symm⟩
      · exact .inl (hle.trans_lt (hlater hp).2)

/-- What came out is in order, and before all that is left. -/
theorem Taken.ordered (h : Taken starts out inputs tree) (hsorted : ∀ c ∈ starts, c.Ascends) :
    (∀ c ∈ inputs, c.Ascends) ∧ out.Pairwise (· < ·) ∧
      ∀ x ∈ out, ∀ i, ∀ p ∈ (inputs.getD i Input.spent).left, x < toLex (p.1, i) := by
  induction h with
  | new => exact ⟨hsorted, .nil, forall_mem_nil _⟩
  | @step out inputs tree docs hbefore he ih =>
    obtain ⟨hinputs, hout, hleft⟩ := ih
    refine ⟨fun c hc => ?_, pairwise_append.mpr ⟨hout, pairwise_singleton _ _, ?_⟩, ?_⟩
    · obtain hc | rfl := mem_or_eq_of_mem_set hc
      · exact hinputs c hc
      · exact ((hinputs _ (getD_mem (lt_of_entry he))).next he).2
    · intro x hx y hy
      rw [mem_singleton.mp hy]
      exact hleft x hx _ (_, docs) (Input.left_of_some he ▸ mem_cons_self)
    · intro x hx i p hp
      obtain ⟨hold, hfirst⟩ := hbefore.standing.2.before_left hinputs he hp
      obtain hx | hx := mem_append.mp hx
      · exact hleft x hx i p hold
      · exact mem_singleton.mp hx ▸ hfirst

/-- **The tree's winner is the first of the inputs**, after any number of steps, so that terms come
out in order, equal ones by input, until every input is exhausted. -/
theorem Taken.winner_least (h : Taken starts out inputs tree) (hne : starts ≠ []) :
    tree.winner < inputs.length ∧
      (∀ i < inputs.length, key inputs tree.winner ≤ key inputs i) ∧
      ((current inputs tree).entry = none ↔ ∀ c ∈ inputs, c.entry = none) ∧
      ((∀ c ∈ starts, c.Ascends) → out.Pairwise (· < ·)) := by
  obtain ⟨hlen, hstand⟩ := h.standing
  have hwin : tree.winner < inputs.length :=
    Tournament.Sound.winner_lt hstand (hlen ▸ length_pos_of_ne_nil hne)
  refine ⟨hwin, fun i hi => Tournament.Sound.winner_le hstand hi, ⟨fun hnone c hc => ?_, fun hall =>
    ?_⟩, fun hsorted => (h.ordered hsorted).2.1⟩
  · obtain ⟨i, hi, rfl⟩ := mem_iff_getElem.mp hc
    rw [← getD_eq_getElem _ Input.spent hi]
    cases he : (inputs.getD i Input.spent).entry with
    | none => rfl
    | some _ =>
      obtain ⟨_, hsome⟩ := (hstand.winner_first hi he).1
      cases hnone.symm.trans hsome
  · exact hall _ (getD_mem hwin)

/-- Two inputs of one term each, of which the first's has come out. -/
theorem winner_least_two :
    let starts : List Input := [⟨[97], some [1], [], false⟩, ⟨[97], some [2], [], false⟩]
    let tree := Tournament.new 2 (before starts)
    let inputs := advance starts tree
    (tree.replay tree.winner (before inputs)).winner < inputs.length :=
  (Taken.winner_least (@Taken.step _ _ _ _ [1] .new rfl) (cons_ne_nil _ _)).1

end Merge
end Ferret
