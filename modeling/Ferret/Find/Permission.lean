import Ferret.Find.Mode

/-!
# Where a mode is read as `chmod` means it

A mode is read letter by letter, and its letters name the same bits whatever
was built before (`Change.named`). `chmod` has three letters more to say, and
`Change.misread` is what is lost or gained of them in one change: the bits of a
copied class, the ones of an `X` for a plain file that can be executed by now,
and the sticky bit outside the class of the others.

A wrong bit stays until a later change names it or clears its class, and two
changes that get the same bit wrong – one sets it where the other clears it –
undo each other. `residue` is what is left at the end, and it is exactly how
far what was read is from what is meant (`literalRun_xor_run`). So `perm_iff`
has both directions: a mode is read right exactly when nothing is left.
-/

namespace Ferret.Find.Chmod

open BitVec

variable {directory : Bool} {mode mode' : Bits}

/-! ## One letter after the other -/

/-- The bits of a letter read for itself, those of `X` apart. -/
def Letter.literal (sel : Bits) : Letter → Bits
  | r => 0o444 &&& sel
  | w => 0o222 &&& sel
  | x => 0o111 &&& sel
  | X => 0
  | s => 0o6000 &&& sel
  | t => 0o1000

/-- The bits an `X` stands for. -/
def Letter.conditional (sel : Bits) : Letter → Bits
  | X => 0o111 &&& sel
  | _ => 0

def What.literal (sel : Bits) : What → Bits
  | letters ls => union (Letter.literal sel) ls
  | copy _ => 0

def What.conditional (sel : Bits) : What → Bits
  | letters ls => union (Letter.conditional sel) ls
  | copy _ => 0

/-- The bits a change names, whatever the mode so far. An `X` that takes
permissions away takes them from every file. -/
def Change.named (directory : Bool) (change : Change) : Bits :=
  let sel := selected change.classes
  change.what.literal sel |||
    if directory = true ∨ change.sign = .minus then change.what.conditional sel else 0

/-- A change with the bits it names. -/
def Change.literal (directory : Bool) (mode : Bits) (change : Change) : Bits :=
  match change.sign with
  | .plus => mode ||| change.named directory
  | .minus => mode &&& ~~~change.named directory
  | .equal => (mode &&& ~~~selected change.classes) ||| change.named directory

def literalRun (directory : Bool) (program : List Change) (mode : Bits) : Bits :=
  program.foldl (Change.literal directory) mode

/-! ## What is misread -/

/-- The bits an operator may alter: a `+` those not set, a `-` those set, and
a `=` all but the ones it keeps. -/
def Change.room (mode : Bits) (change : Change) : Bits :=
  match change.sign with
  | .plus => ~~~mode
  | .minus => mode
  | .equal => ~~~(mode &&& ~~~selected change.classes)

/-- The bits of letters that are wrong in a mode: an `X` of a plain file that
has become executable, the sticky bit of another class than the others. -/
def Change.lettersMisread (directory : Bool) (mode : Bits) (ls : List Letter)
    (change : Change) : Bits :=
  (if .X ∈ ls ∧ .x ∉ ls ∧ directory = false ∧ change.sign ≠ .minus ∧ mode &&& 0o111 ≠ 0
    then 0o111 &&& selected change.classes else 0) |||
  (if .t ∈ ls ∧ .other ∉ change.classes then 0o1000 else 0)

/-- **The bits one change gets wrong**, on the mode that `chmod` has built so
far. Of a copied class it is all that the class has there. -/
def Change.misread (directory : Bool) (mode : Bits) (change : Change) : Bits :=
  (match change.what with
    | .copy source => (What.copy source).bits directory mode &&& selected change.classes
    | .letters ls => change.lettersMisread directory mode ls) &&& change.room mode

/-- The bits a change leaves as they are: it does not name them, and does not
clear their class. -/
def Change.keeps (directory : Bool) (change : Change) : Bits :=
  match change.sign with
  | .equal => ~~~(selected change.classes ||| change.named directory)
  | _ => ~~~change.named directory

/-- The bits that no change of a program settles. -/
def keeps (directory : Bool) (program : List Change) : Bits :=
  program.foldr (fun change acc => change.keeps directory &&& acc) (BitVec.allOnes 32)

/-- **The bits that are wrong in the end**: an odd number of changes got them
wrong with none after that settled them. -/
def residue (directory : Bool) : List Change → Bits → Bits
  | [], _ => 0
  | change :: rest, mode =>
    (change.misread directory mode &&& keeps directory rest) ^^^
      residue directory rest (change.apply directory mode)

/-! ## Bits of unions -/

theorem getLsbD_union {α : Type} (f : α → Bits) (l : List α) (i : ℕ) :
    (union f l).getLsbD i = l.any fun a => (f a).getLsbD i := by
  induction l with
  | nil => exact getLsbD_zero
  | cons a l ih =>
    show (f a ||| union f l).getLsbD i = _
    rw [getLsbD_or, ih, List.any_cons]

/-- A union over letters, by the letters that occur. -/
theorem getLsbD_union_letters (f : Letter → Bits) (ls : List Letter) (i : ℕ) :
    (union f ls).getLsbD i =
      (decide (.r ∈ ls) && (f .r).getLsbD i || decide (.w ∈ ls) && (f .w).getLsbD i ||
        decide (.x ∈ ls) && (f .x).getLsbD i || decide (.X ∈ ls) && (f .X).getLsbD i ||
        decide (.s ∈ ls) && (f .s).getLsbD i || decide (.t ∈ ls) && (f .t).getLsbD i) := by
  rw [getLsbD_union, Bool.eq_iff_iff, List.any_eq_true]
  simp only [Bool.or_eq_true, Bool.and_eq_true, decide_eq_true_eq]
  constructor
  · rintro ⟨l, hmem, hbit⟩
    cases l <;> simp [hmem, hbit]
  · rintro (((((⟨hmem, hbit⟩ | ⟨hmem, hbit⟩) | ⟨hmem, hbit⟩) | ⟨hmem, hbit⟩) | ⟨hmem, hbit⟩) |
      ⟨hmem, hbit⟩) <;> exact ⟨_, hmem, hbit⟩

/-! ## One change -/

/-- The sticky bit goes with the class of the others. -/
theorem sticky_and_selected (classes : List Class) :
    (0o1000 &&& selected classes : Bits) = if .other ∈ classes then 0o1000 else 0 := by
  induction classes with
  | nil => rfl
  | cons c classes ih =>
    show 0o1000 &&& (c.mask ||| selected classes) = _
    rw [and_or_distrib_left, ih]
    cases c <;> simp [Class.mask]
    split_ifs <;> rfl

/-- No two of these sets of permissions meet. -/
theorem bits_apart {i : ℕ} (hi : i < 32) :
    ((0o111 : Bits).getLsbD i = true → (0o444 : Bits).getLsbD i = false ∧
      (0o222 : Bits).getLsbD i = false ∧ (0o6000 : Bits).getLsbD i = false ∧
      (0o1000 : Bits).getLsbD i = false) ∧
    ((0o1000 : Bits).getLsbD i = true → (0o444 : Bits).getLsbD i = false ∧
      (0o222 : Bits).getLsbD i = false ∧ (0o6000 : Bits).getLsbD i = false) := by
  revert i
  decide

/-- **The bits that letters name, against those they mean**, where the operator
may alter them. -/
theorem named_xor_bits (ls : List Letter) (classes : List Class) (sign : Sign) (mode : Bits) :
    let change : Change := ⟨classes, sign, .letters ls⟩
    (change.named directory ^^^ ((What.letters ls).bits directory mode &&& selected classes))
        &&& change.room mode
      = change.lettersMisread directory mode ls &&& change.room mode := by
  intro change
  apply eq_of_getLsbD_eq
  intro i hi
  have hapart := bits_apart hi
  have hsticky := congrArg (BitVec.getLsbD · i) (sticky_and_selected classes)
  have hnone : mode &&& 0o111 = 0 → (mode.getLsbD i && (0o111 : Bits).getLsbD i) = false := by
    intro hnone
    rw [← getLsbD_and, hnone]
    exact getLsbD_zero
  -- an `X` that takes away what nobody has alters nothing
  have hminus : sign = .minus → (change.room mode).getLsbD i = mode.getLsbD i := by
    rintro rfl
    rfl
  have hzero : (0 : Bits).getLsbD i = false := getLsbD_zero
  simp only [getLsbD_and, apply_ite (BitVec.getLsbD · i)] at hsticky
  simp only [change, Change.named, Change.lettersMisread, What.literal, What.conditional,
    What.bits, getLsbD_xor, getLsbD_or, getLsbD_and,
    apply_ite (BitVec.getLsbD · i), getLsbD_union_letters, Letter.literal, Letter.conditional,
    Letter.bits, hzero] at hsticky hminus ⊢
  cases hx : (0o111 : Bits).getLsbD i <;> cases ht : (0o1000 : Bits).getLsbD i <;> grind

/-- Two values an operator is given make the difference they have where it may alter. -/
theorem literal_xor_apply_eq (change : Change) (mode : Bits) :
    change.literal directory mode ^^^ change.apply directory mode
      = (change.named directory ^^^
          (change.what.bits directory mode &&& selected change.classes)) &&& change.room mode := by
  unfold Change.literal Change.apply Change.room
  generalize change.named directory = named
  generalize change.what.bits directory mode &&& selected change.classes = value
  generalize ~~~selected change.classes = other
  cases change.sign with
  | plus =>
    ext i hi
    simp only [getElem_xor, getElem_or, getElem_and, getElem_not]
    cases mode[i] <;> simp
  | minus =>
    ext i hi
    simp only [getElem_xor, getElem_and, getElem_not]
    cases mode[i] <;> simp
  | equal =>
    ext i hi
    simp only [getElem_xor, getElem_or, getElem_and, getElem_not]
    cases mode[i] && other[i] <;> simp

/-- **A change read letter by letter is off by what is misread.** -/
theorem literal_xor_apply (change : Change) (mode : Bits) :
    change.literal directory mode ^^^ change.apply directory mode
      = change.misread directory mode := by
  rw [literal_xor_apply_eq]
  obtain ⟨classes, sign, what⟩ := change
  cases what with
  | letters ls => exact named_xor_bits ls classes sign mode
  | copy source =>
    have hnamed : (Change.mk classes sign (.copy source)).named directory = 0#32 := by
      show 0#32 ||| (if _ then 0#32 else 0#32) = _
      rw [ite_self, or_zero]
    rw [hnamed, BitVec.zero_xor]
    rfl

/-- What is wrong before a change stays wrong where the change settles nothing. -/
theorem literal_xor_literal (change : Change) (mode mode' : Bits) :
    change.literal directory mode' ^^^ change.literal directory mode
      = (mode' ^^^ mode) &&& change.keeps directory := by
  unfold Change.literal Change.keeps
  cases change.sign with
  | plus =>
    ext i hi
    simp only [getElem_xor, getElem_or, getElem_and, getElem_not]
    cases (change.named directory)[i] <;> simp
  | minus =>
    ext i hi
    simp only [getElem_xor, getElem_and, getElem_not]
    cases (change.named directory)[i] <;> simp
  | equal =>
    ext i hi
    simp only [getElem_xor, getElem_or, getElem_and, getElem_not]
    cases (change.named directory)[i] <;> cases (selected change.classes)[i] <;> simp

/-- **What a whole mode is off by**: the wrong bits it began with that nothing
settles, and the residue. -/
theorem literalRun_xor_run (program : List Change) (mode mode' : Bits) :
    literalRun directory program mode' ^^^ run directory program mode
      = ((mode' ^^^ mode) &&& keeps directory program) ^^^ residue directory program mode := by
  induction program generalizing mode mode' with
  | nil =>
    show mode' ^^^ mode = ((mode' ^^^ mode) &&& BitVec.allOnes 32) ^^^ 0#32
    rw [and_allOnes, xor_zero]
  | cons change program ih =>
    have hstep : change.literal directory mode' ^^^ change.apply directory mode
        = ((mode' ^^^ mode) &&& change.keeps directory) ^^^ change.misread directory mode := by
      rw [← literal_xor_literal, ← literal_xor_apply, xor_assoc,
        ← BitVec.xor_assoc (change.literal directory mode) (change.literal directory mode),
        BitVec.xor_self, BitVec.zero_xor]
    show literalRun directory program (change.literal directory mode') ^^^
        run directory program (change.apply directory mode)
      = ((mode' ^^^ mode) &&& (change.keeps directory &&& keeps directory program)) ^^^
        ((change.misread directory mode &&& keeps directory program) ^^^
          residue directory program (change.apply directory mode))
    rw [ih, hstep]
    ext i hi
    simp only [getElem_xor, getElem_and]
    cases (keeps directory program)[i] <;> simp

/-- **A program is read right exactly when nothing is left.** -/
theorem literalRun_eq_run_iff (program : List Change) (mode : Bits) :
    literalRun directory program mode = run directory program mode ↔
      residue directory program mode = 0 := by
  have hxor : literalRun directory program mode ^^^ run directory program mode
      = ((mode ^^^ mode) &&& keeps directory program) ^^^ residue directory program mode :=
    literalRun_xor_run program mode mode
  rw [BitVec.xor_self, BitVec.zero_and, BitVec.zero_xor] at hxor
  rw [← hxor]
  exact BitVec.xor_eq_zero_iff.symm

end Ferret.Find.Chmod
