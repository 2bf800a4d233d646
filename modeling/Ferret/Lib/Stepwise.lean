import Mathlib.Data.List.Basic
import Mathlib.Data.List.Induction

/-!
# Runs of a step function

A step function says what an action does in a state, or that it is not enabled
there; a run is a list of actions, each enabled where the one before it leads.
-/

namespace Stepwise

variable {σ α : Type} (step : σ → α → Option σ)

/-- The state a list of actions leads to. -/
def run (s : σ) (acts : List α) : Option σ := acts.foldlM step s

/-- A condition on every step of a run and the state it is taken in. -/
def Along (cond : σ → α → Prop) (s : σ) (acts : List α) : Prop :=
  ∀ before act after u, acts = before ++ act :: after → run step s before = some u → cond u act

variable {step} {cond : σ → α → Prop} {s t : σ} {acts more : List α} {act : α}

@[simp] theorem run_nil : run step s [] = some s := rfl

theorem run_append : run step s (acts ++ more) = (run step s acts).bind (run step · more) := by
  unfold run
  rw [List.foldlM_append]
  rfl

theorem run_snoc : run step s (acts ++ [act]) = (run step s acts).bind (step · act) := by
  rw [run_append]
  congr 1
  funext u
  show (step u act).bind some = step u act
  exact Option.bind_fun_some _

theorem exists_of_run_cons (h : run step s (act :: acts) = some t) :
    ∃ u, step s act = some u ∧ run step u acts = some t :=
  Option.bind_eq_some_iff.mp h

theorem exists_of_run_append (h : run step s (acts ++ more) = some t) :
    ∃ u, run step s acts = some u ∧ run step u more = some t := by
  rw [run_append] at h
  exact Option.bind_eq_some_iff.mp h

theorem Along.left (h : Along step cond s (acts ++ more)) : Along step cond s acts := by
  intro before act after u heq hu
  exact h before act (after ++ more) u (by rw [heq, List.append_assoc, List.cons_append]) hu

theorem Along.last (h : Along step cond s (acts ++ [act])) (hrun : run step s acts = some t) :
    cond t act :=
  h acts act [] t rfl hrun

theorem along_nil : Along step cond s [] := by
  intro before act after u heq
  cases before <;> cases heq

theorem Along.cons (hact : cond s act) (hstep : step s act = some t)
    (h : Along step cond t acts) : Along step cond s (act :: acts) := by
  intro before b after u heq hu
  cases before with
  | nil =>
    cases heq
    cases hu
    exact hact
  | cons c before =>
    cases heq
    obtain ⟨v, hv, hu⟩ := exists_of_run_cons hu
    cases hstep.symm.trans hv
    exact h before b after u rfl hu

/-- **What every step keeps, a run keeps**, each step being taken where its
condition holds. -/
theorem run_induction {P : σ → Prop} (hstart : P s)
    (hstep : ∀ u act v, cond u act → P u → step u act = some v → P v)
    (hcond : Along step cond s acts) (hrun : run step s acts = some t) : P t := by
  induction acts using List.reverseRecOn generalizing t with
  | nil =>
    cases hrun
    exact hstart
  | append_singleton acts act ih =>
    rw [run_snoc] at hrun
    obtain ⟨u, hu, hv⟩ := Option.bind_eq_some_iff.mp hrun
    exact hstep u act t (hcond.last hu) (ih hcond.left hu) hv

theorem along_true : Along step (fun _ _ => True) s acts := fun _ _ _ _ _ _ => trivial

end Stepwise
