import Ferret.Query.Expr
import Ferret.Index.Kleene
import Mathlib.Data.Fintype.Order

/-!
# Three-valued evaluation

A leaf of a query may be left undecided, because to decide it means to read a
file. `eval` asks the leaves from the left, and leaves an AND at its first `no`
and an OR at its first `yes`, but never at a `maybe`. It is compared with the
value of the whole tree (`Node.value`), which asks every leaf, in Kleene's
logic and in the two-valued one alike: both are lattices with a negation, and
what these respect, the value of every tree respects (`value_rel`).
-/

namespace Ferret

instance : BoundedOrder Kleene where
  top := .yes
  bot := .no
  le_top k := by cases k <;> decide
  bot_le k := by cases k <;> decide

/-- **A way to decide an undecided value**: what is decided stays. -/
def Kleene.Resolves (k : Kleene) (b : Bool) : Prop :=
  (k = .yes → b = true) ∧ (k = .no → b = false)

instance (k : Kleene) (b : Bool) : Decidable (k.Resolves b) :=
  inferInstanceAs (Decidable (_ ∧ _))

end Ferret

namespace Ferret.Query

abbrev Truth := Kleene

variable {L σ : Type}

/-! ## Evaluation -/

section

variable (leaf : L → StateM σ Truth)

mutual

/-- Kleene evaluation, short-circuiting. What asks the leaves may count, or keep what it
read. -/
def Node.eval : Node L → StateM σ Truth
  | .leaf test => leaf test
  | .and all => evalAll all .yes
  | .or any => evalAny any .no
  | .not inner => do return (← inner.eval).not

def evalAll : List (Node L) → Truth → StateM σ Truth
  | [], result => return result
  | node :: rest, result => do
    match ← node.eval with
    | .no => return .no
    | .maybe => evalAll rest .maybe
    | .yes => evalAll rest result

def evalAny : List (Node L) → Truth → StateM σ Truth
  | [], result => return result
  | node :: rest, result => do
    match ← node.eval with
    | .yes => return .yes
    | .maybe => evalAny rest .maybe
    | .no => evalAny rest result

end

/-- Every residual conjunct, ANDed. -/
def eval_residual (residual : List (Node L)) : StateM σ Truth := evalAll leaf residual .yes

end

/-! ## The value of a tree -/

section

variable {T : Type} [Lattice T] [BoundedOrder T] (neg : T → T) (v : L → T)

mutual

/-- **The value of a tree**, each leaf having one. -/
def Node.value : Node L → T
  | .leaf test => v test
  | .and all => meet all
  | .or any => join any
  | .not inner => neg inner.value

def meet : List (Node L) → T
  | [] => ⊤
  | node :: rest => node.value ⊓ meet rest

def join : List (Node L) → T
  | [] => ⊥
  | node :: rest => node.value ⊔ join rest

end

end

section

variable {T U : Type} [Lattice T] [BoundedOrder T] [Lattice U] [BoundedOrder U]

/-- A relation that the operations respect. -/
structure Respected (neg : T → T) (neg' : U → U) (R : T → U → Prop) : Prop where
  top : R ⊤ ⊤
  bot : R ⊥ ⊥
  inf {a b : T} {x y : U} : R a x → R b y → R (a ⊓ b) (x ⊓ y)
  sup {a b : T} {x y : U} : R a x → R b y → R (a ⊔ b) (x ⊔ y)
  neg {a : T} {x : U} : R a x → R (neg a) (neg' x)

variable {neg : T → T} {neg' : U → U} {v : L → T} {w : L → U} {R : T → U → Prop}

mutual

/-- What the operations respect and the leaves satisfy, the values satisfy. -/
theorem value_rel (hR : Respected neg neg' R) (hleaf : ∀ l, R (v l) (w l)) :
    ∀ node : Node L, R (node.value neg v) (node.value neg' w)
  | .leaf test => hleaf test
  | .and all => meet_rel hR hleaf all
  | .or any => join_rel hR hleaf any
  | .not inner => hR.neg (value_rel hR hleaf inner)

theorem meet_rel (hR : Respected neg neg' R) (hleaf : ∀ l, R (v l) (w l)) :
    ∀ all : List (Node L), R (meet neg v all) (meet neg' w all)
  | [] => hR.top
  | node :: rest => hR.inf (value_rel hR hleaf node) (meet_rel hR hleaf rest)

theorem join_rel (hR : Respected neg neg' R) (hleaf : ∀ l, R (v l) (w l)) :
    ∀ any : List (Node L), R (join neg v any) (join neg' w any)
  | [] => hR.bot
  | node :: rest => hR.sup (value_rel hR hleaf node) (join_rel hR hleaf rest)

end

end

/-! ## Evaluation gives the value -/

section

variable {leaf : L → StateM σ Truth} {v : L → Truth}

theorem bind_fst (x : StateM σ Truth) (f : Truth → StateM σ Truth) (s : σ) :
    ((x >>= f) s).1 = (f (x s).1 (x s).2).1 := rfl

mutual

theorem eval_eq (hleaf : ∀ l s, (leaf l s).1 = v l) :
    ∀ (node : Node L) (s : σ), (node.eval leaf s).1 = node.value Kleene.not v
  | .leaf test, s => hleaf test s
  | .and all, s => by
    show (evalAll leaf all .yes s).1 = _
    rw [evalAll_eq hleaf all .yes s (by decide)]
    exact top_inf_eq _
  | .or any, s => by
    show (evalAny leaf any .no s).1 = _
    rw [evalAny_eq hleaf any .no s (by decide)]
    exact bot_sup_eq _
  | .not inner, s => by
    show ((inner.eval leaf s).1).not = _
    rw [eval_eq hleaf inner s]
    rfl

/-- The loop of an AND: a `no` decides it, so what it has seen is none. -/
theorem evalAll_eq (hleaf : ∀ l s, (leaf l s).1 = v l) :
    ∀ (all : List (Node L)) (result : Truth) (s : σ), result ≠ .no →
    (evalAll leaf all result s).1 = result ⊓ meet Kleene.not v all
  | [], result, s, _ => (inf_top_eq result).symm
  | node :: rest, result, s, hresult => by
    have hnode := eval_eq hleaf node s
    rw [evalAll, bind_fst, meet, ← hnode]
    cases (node.eval leaf s).1 with
    | no =>
      show (⊥ : Truth) = result ⊓ (⊥ ⊓ _)
      rw [bot_inf_eq, inf_bot_eq]
    | maybe =>
      show (evalAll leaf rest .maybe _).1 = _
      rw [evalAll_eq hleaf rest .maybe _ (by decide), ← inf_assoc]
      cases result <;> first | rfl | exact absurd rfl hresult
    | yes =>
      show (evalAll leaf rest result _).1 = _
      rw [evalAll_eq hleaf rest result _ hresult]
      exact congrArg _ (top_inf_eq _).symm

/-- The loop of an OR: a `yes` decides it, so what it has seen is none. -/
theorem evalAny_eq (hleaf : ∀ l s, (leaf l s).1 = v l) :
    ∀ (any : List (Node L)) (result : Truth) (s : σ), result ≠ .yes →
    (evalAny leaf any result s).1 = result ⊔ join Kleene.not v any
  | [], result, s, _ => (sup_bot_eq result).symm
  | node :: rest, result, s, hresult => by
    have hnode := eval_eq hleaf node s
    rw [evalAny, bind_fst, join, ← hnode]
    cases (node.eval leaf s).1 with
    | yes =>
      show (⊤ : Truth) = result ⊔ (⊤ ⊔ _)
      rw [top_sup_eq, sup_top_eq]
    | maybe =>
      show (evalAny leaf rest .maybe _).1 = _
      rw [evalAny_eq hleaf rest .maybe _ (by decide), ← sup_assoc]
      cases result <;> first | rfl | exact absurd rfl hresult
    | no =>
      show (evalAny leaf rest result _).1 = _
      rw [evalAny_eq hleaf rest result _ hresult]
      exact congrArg _ (bot_sup_eq _).symm

end

end

theorem resolves_respected : Respected Kleene.not Bool.not Kleene.Resolves where
  top := by decide
  bot := by decide
  inf {a b x y} := by cases a <;> cases b <;> cases x <;> cases y <;> decide
  sup {a b x y} := by cases a <;> cases b <;> cases x <;> cases y <;> decide
  neg {a x} := by cases a <;> cases x <;> decide

/-- **Three-valued evaluation is sound.** Whatever the leaves are worth, and whatever asking
them does, a tree evaluates to its Kleene value, and the residual conjuncts to the value of
their AND; a value that is decided is the two-valued one however the undecided leaves are
resolved. -/
theorem eval_sound {leaf : L → StateM σ Truth} {v : L → Truth}
    (hleaf : ∀ l s, (leaf l s).1 = v l) (s : σ) :
    (∀ node : Node L, (node.eval leaf s).1 = node.value Kleene.not v) ∧
      (∀ residual : List (Node L),
        (eval_residual leaf residual s).1 = (Node.and residual).value Kleene.not v) ∧
      ∀ b : L → Bool, (∀ l, (v l).Resolves (b l)) → ∀ node : Node L,
        ((node.eval leaf s).1 = .yes → node.value Bool.not b = true) ∧
        ((node.eval leaf s).1 = .no → node.value Bool.not b = false) := by
  refine ⟨fun node => eval_eq hleaf node s, fun residual => ?_, fun b hb node => ?_⟩
  · exact eval_eq hleaf (.and residual) s
  · rw [eval_eq hleaf node s]
    exact value_rel resolves_respected hb node

/-- The leaves counted as they are asked: the one after a `no` is not. -/
theorem eval_sound_counted :
    (((Node.and [.leaf 1, .leaf 0, .leaf 2] : Node ℕ).eval
        (fun l => (fun n : ℕ => (if l = 0 then .no else .maybe, n + 1))) 0).1 = .no ∧
      ((Node.and [.leaf 1, .leaf 0, .leaf 2] : Node ℕ).eval
        (fun l => (fun n : ℕ => (if l = 0 then .no else .maybe, n + 1))) 0).2 = 2) ∧
      (Node.and [.leaf 1, .leaf 0, .leaf 2] : Node ℕ).value Bool.not (fun l => l == 1) = false :=
  ⟨by decide, ((@eval_sound ℕ ℕ (fun l n => (if l = 0 then .no else .maybe, n + 1))
    (fun l => if l = 0 then .no else .maybe) (fun _ _ => rfl) 0).2.2 (fun l => l == 1)
      (by intro l; split <;> simp [Kleene.Resolves, *]) _).2 (by decide)⟩

end Ferret.Query
