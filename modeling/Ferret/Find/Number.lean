import Ferret.Find.Primary
import Ferret.Lib.Rounding
import Mathlib.Algebra.Order.Floor.Div

/-!
# The integer tests of a find expression

`-links`, `-inum`, `-uid`, `-gid` and `-size` compare a number of a file's
metadata with a decimal operand: equal to it, above it after a `+`, below it
after a `-`. One reader serves these and the ages of `-mtime` and `-mmin`,
which may have a fraction, so what it keeps is a double. The integer tests
convert it back and compare integers.

Between the two conversions the operand is rounded to 53 significant bits, and
one rounded up to `2 ^ 64` comes back as the largest 64-bit number. So a test
asks about the rounded operand, and `exact_iff` says for which values of the
metadata that makes no difference: those that do not lie between the operand
and what became of it. An operand of at most 53 significant bits is compared
exactly, whatever the metadata (`exact_of_fits`).
-/

namespace Ferret.Find

open Ferret.Lib List

inductive Order
  | equal
  | greater
  | less
deriving DecidableEq

/-- An operand as it is kept. The double is a natural number: the operands of
these tests are digits. -/
structure Number where
  order : Order
  value : ℕ
deriving DecidableEq

/-- The numbers of a file's metadata that are tested. -/
structure Stat where
  nlink : UInt64
  ino : UInt64
  uid : UInt32
  gid : UInt32
  size : UInt64
deriving DecidableEq

/-- The tests of a number. -/
inductive NumberTest
  | size (units : Number) (bytes : UInt64)
  | links (n : Number)
  | inum (n : Number)
  | uid (n : Number)
  | gid (n : Number)
deriving DecidableEq

/-! ## Reading an operand -/

/-- The number that digits denote. -/
def digitsValue (digits : Arg) : ℕ := digits.foldl (fun n b => 10 * n + (b.toNat - 48)) 0

/-- The largest finite double. -/
def F64_MAX : ℕ := (2 ^ 53 - 1) * 2 ^ 971

/-- The double of a natural number. Digits that fit a 64-bit word are read as
one and converted, others are read as a double at once; both take the nearest,
ties to even. What overflows becomes the largest finite double. -/
def double (n : ℕ) : ℕ := if 2 ^ 1024 ≤ roundEven 53 n then F64_MAX else roundEven 53 n

/-- The order an operand asks for, and its digits. -/
def orderOf (bytes : Arg) : Order × Arg :=
  match bytes with
  | b :: rest =>
    if b = 43 then (.greater, rest)
    else if b = 45 then (.less, rest)
    else (.equal, bytes)
  | [] => (.equal, bytes)

/-- `parse_number` of the source, for operands without a fraction. -/
def parse_number (bytes : Arg) : Option Number :=
  let (order, digits) := orderOf bytes
  if digits = [] ∨ ¬ digits.all digit then none
  else some { order := order, value := double (digitsValue digits) }

/-- `value as u64`: a double out of range becomes the largest. -/
def Number.u64 (n : Number) : UInt64 := UInt64.ofNat (min n.value (2 ^ 64 - 1))

/-- The bytes of a unit of `-size`. -/
def multiplier (suffix : UInt8) : UInt64 :=
  if suffix = 99 then 1
  else if suffix = 119 then 2
  else if suffix = 107 then 1024
  else if suffix = 77 then 1024 * 1024
  else if suffix = 71 then 1024 * 1024 * 1024
  else 512

/-- `Test::size`. -/
def NumberTest.size? (bytes : Arg) : Option NumberTest :=
  let (number, suffix) : Arg × UInt8 :=
    match bytes.getLast? with
    | some b => if (word "bcwkMG").contains b then (bytes.dropLast, b) else (bytes, 98)
    | none => (bytes, 98)
  (parse_number number).map fun units => .size units (multiplier suffix)

/-- `Test::number`. -/
def NumberTest.number? (primary value : Arg) : Option NumberTest :=
  if primary = word "-links" then (parse_number value).map .links
  else if primary = word "-inum" then (parse_number value).map .inum
  else if primary = word "-uid" then (parse_number value).map .uid
  else if primary = word "-gid" then (parse_number value).map .gid
  else none

/-! ## Evaluating a test -/

def compare (actual expected : UInt64) : Order → Bool
  | .equal => actual == expected
  | .greater => expected < actual
  | .less => actual < expected

/-- `u64::div_ceil`. -/
def div_ceil (a b : UInt64) : UInt64 := if 0 < a % b then a / b + 1 else a / b

def NumberTest.evaluate (stat : Stat) : NumberTest → Bool
  | .size units bytes => compare (div_ceil stat.size bytes) units.u64 units.order
  | .links n => compare stat.nlink n.u64 n.order
  | .inum n => compare stat.ino n.u64 n.order
  | .uid n => compare stat.uid.toUInt64 n.u64 n.order
  | .gid n => compare stat.gid.toUInt64 n.u64 n.order

/-! ## What the tests are for -/

/-- The units of `-size`, and none written. -/
inductive SizeUnit
  | none
  | block
  | byte
  | twoByte
  | kibi
  | mebi
  | gibi
deriving DecidableEq

def SizeUnit.letter : SizeUnit → Arg
  | none => []
  | block => word "b"
  | byte => word "c"
  | twoByte => word "w"
  | kibi => word "k"
  | mebi => word "M"
  | gibi => word "G"

def SizeUnit.bytes : SizeUnit → ℕ
  | none => 512
  | block => 512
  | byte => 1
  | twoByte => 2
  | kibi => 2 ^ 10
  | mebi => 2 ^ 20
  | gibi => 2 ^ 30

/-- What an integer test is about. -/
inductive Subject
  | links
  | inum
  | uid
  | gid
  | size (unit : SizeUnit)
deriving DecidableEq

/-- The test with an operand, as the command has it. -/
def Subject.test (operand : Arg) : Subject → Option NumberTest
  | links => NumberTest.number? (word "-links") operand
  | inum => NumberTest.number? (word "-inum") operand
  | uid => NumberTest.number? (word "-uid") operand
  | gid => NumberTest.number? (word "-gid") operand
  | size unit => NumberTest.size? (operand ++ unit.letter)

/-- The number asked about; of a size, how many units it begins. -/
def Subject.field (stat : Stat) : Subject → ℕ
  | links => stat.nlink.toNat
  | inum => stat.ino.toNat
  | uid => stat.uid.toNat
  | gid => stat.gid.toNat
  | size unit => stat.size.toNat ⌈/⌉ unit.bytes

/-- How an order is written before the digits. -/
def Order.sign : Order → Arg
  | equal => []
  | greater => word "+"
  | less => word "-"

/-- What an order says of a value. -/
def Order.Holds (v n : ℕ) : Order → Prop
  | equal => v = n
  | greater => n < v
  | less => v < n

/-- **The value does not lie between two operands**, so that an order says the
same of it with either. -/
def Order.Apart (v n d : ℕ) : Order → Prop
  | equal => n = d ∨ v ≠ n ∧ v ≠ d
  | greater => v ≤ min n d ∨ max n d < v
  | less => v < min n d ∨ max n d ≤ v

/-- **A test is exact at a file**: the command has it, and it holds exactly
when the number it asks about stands to the digits as the order says. -/
def Exact (subject : Subject) (order : Order) (digits : Arg) (n : ℕ) (stat : Stat) : Prop :=
  ∃ test, subject.test (order.sign ++ digits) = some test ∧
    (test.evaluate stat = true ↔ order.Holds (subject.field stat) n)

instance Order.decidableHolds (v n : ℕ) : (order : Order) → Decidable (order.Holds v n)
  | equal => inferInstanceAs (Decidable (v = n))
  | greater => inferInstanceAs (Decidable (n < v))
  | less => inferInstanceAs (Decidable (v < n))

/-! ## The pieces -/

section

variable {v n d : ℕ} {digits : Arg} {order : Order} {subject : Subject} {stat : Stat}

/-- Where an order says the same of two operands. -/
theorem Order.holds_iff_apart (order : Order) :
    (order.Holds v d ↔ order.Holds v n) ↔ order.Apart v n d := by
  cases order with
  | equal =>
    show (v = d ↔ v = n) ↔ n = d ∨ v ≠ n ∧ v ≠ d
    omega
  | greater =>
    show (d < v ↔ n < v) ↔ v ≤ min n d ∨ max n d < v
    omega
  | less =>
    show (v < d ↔ v < n) ↔ v < min n d ∨ max n d ≤ v
    omega

theorem compare_iff (actual expected : UInt64) (order : Order) :
    compare actual expected order = true ↔ order.Holds actual.toNat expected.toNat := by
  cases order with
  | equal => exact beq_iff_eq.trans UInt64.toNat_inj.symm
  | greater | less => exact decide_eq_true_iff.trans UInt64.lt_iff_toNat_lt

/-- What was kept of an operand, as a 64-bit number. -/
theorem u64_double (order : Order) (n : ℕ) :
    (Number.u64 ⟨order, double n⟩).toNat = min (roundEven 53 n) (2 ^ 64 - 1) := by
  have hmin : min (double n) (2 ^ 64 - 1) = min (roundEven 53 n) (2 ^ 64 - 1) := by
    unfold double
    split_ifs with hover
    · have hwide {k : ℕ} (hk : 64 ≤ k) : 2 ^ 64 - 1 ≤ 2 ^ k :=
        (Nat.sub_le _ _).trans (Nat.pow_le_pow_right (by decide) hk)
      have hbig : 2 ^ 64 - 1 ≤ F64_MAX :=
        (hwide (by decide)).trans (Nat.le_mul_of_pos_left _ (by decide))
      rw [min_eq_right hbig, min_eq_right ((hwide (by decide)).trans hover)]
    · rfl
  have hlt : min (roundEven 53 n) (2 ^ 64 - 1) < 2 ^ 64 :=
    lt_of_le_of_lt (min_le_right _ _) (by decide)
  rw [Number.u64, hmin, UInt64.toNat_ofNat_of_lt' hlt]

/-- The quotient rounded up, as the unit of a size needs it. -/
theorem div_ceil_toNat (a : UInt64) {b : UInt64} (hb : 0 < b.toNat) :
    (div_ceil a b).toNat = a.toNat ⌈/⌉ b.toNat := by
  have ha := Nat.div_add_mod a.toNat b.toNat
  have hr := Nat.mod_lt a.toNat hb
  have hle : a.toNat ≤ b.toNat * (a.toNat ⌈/⌉ b.toNat) := le_smul_ceilDiv hb
  unfold div_ceil
  split_ifs with hrest
  · have hrest : 0 < a.toNat % b.toNat := UInt64.lt_iff_toNat_lt.mp hrest
    -- a remainder leaves the quotient below the largest word
    have hsum : (a / b + 1).toNat = a.toNat / b.toNat + 1 := by
      have hfit : a.toNat / b.toNat < a.toNat :=
        Nat.div_lt_self (by omega) (by omega)
      have := a.toNat_lt
      rw [UInt64.toNat_add, UInt64.toNat_div]
      exact Nat.mod_eq_of_lt (by show a.toNat / b.toNat + 1 < 2 ^ 64; omega)
    rw [hsum]
    refine le_antisymm (Nat.lt_of_mul_lt_mul_left (a := b.toNat) ?_)
      ((ceilDiv_le_iff_le_mul hb).mpr ?_)
    · omega
    · rw [Nat.mul_succ]
      omega
  · have hrest : a.toNat % b.toNat = 0 :=
      Nat.eq_zero_of_not_pos fun h => hrest (UInt64.lt_iff_toNat_lt.mpr h)
    rw [UInt64.toNat_div]
    refine le_antisymm (Nat.le_of_mul_le_mul_left ?_ hb) ((ceilDiv_le_iff_le_mul hb).mpr ?_)
    · omega
    · omega

theorem decimal_eq_some (h : decimal digits = some n) :
    digits ≠ [] ∧ digits.all digit = true ∧ digitsValue digits = n ∧ n < 2 ^ 64 := by
  unfold decimal at h
  split_ifs at h with hbad
  push Not at hbad
  change (if digitsValue digits < 2 ^ 64 then some (digitsValue digits) else none) = some n at h
  split_ifs at h with hfit
  have hn := Option.some.inj h
  exact ⟨hbad.1, hbad.2, hn, hn ▸ hfit⟩

/-- Digits after a sign are read with the order it stands for. -/
theorem parse_number_sign (order : Order) (h : decimal digits = some n) :
    parse_number (order.sign ++ digits) = some ⟨order, double n⟩ := by
  obtain ⟨hne, hall, rfl, -⟩ := decimal_eq_some h
  have horder : orderOf (order.sign ++ digits) = (order, digits) := by
    cases order with
    | greater => rfl
    | less => rfl
    | equal =>
      obtain ⟨b, rest, rfl⟩ := exists_cons_of_ne_nil hne
      have hb : digit b = true := (all_eq_true.mp hall) b mem_cons_self
      have hplus : b ≠ 43 := by rintro rfl; exact absurd hb (by decide)
      have hminus : b ≠ 45 := by rintro rfl; exact absurd hb (by decide)
      show orderOf (b :: rest) = _
      simp only [orderOf, if_neg hplus, if_neg hminus]
  unfold parse_number
  rw [horder]
  simp [hne, hall]

/-- A letter of a unit is taken off the operand. -/
theorem size?_letter {unit : UInt8} (text : Arg) (hunit : (word "bcwkMG").contains unit = true) :
    NumberTest.size? (text ++ [unit])
      = (parse_number text).map fun units => .size units (multiplier unit) := by
  simp only [NumberTest.size?, getLast?_concat, dropLast_concat, hunit, if_true]

/-- Without one the operand counts blocks. -/
theorem size?_bare {last : UInt8} (text : Arg) (hlast : (word "bcwkMG").contains last = false) :
    NumberTest.size? (text ++ [last])
      = (parse_number (text ++ [last])).map fun units => .size units 512 := by
  simp only [NumberTest.size?, getLast?_concat, hlast]
  rfl

/-- No digit is the letter of a unit. -/
theorem not_letter_of_digit {b : UInt8} (hb : digit b = true) :
    (word "bcwkMG").contains b = false := by
  refine Bool.eq_false_iff.mpr fun hmem => ?_
  have hmem : b ∈ [98, 99, 119, 107, 77, 71] := contains_iff_mem.mp hmem
  simp only [mem_cons, not_mem_nil, or_false] at hmem
  rcases hmem with rfl | rfl | rfl | rfl | rfl | rfl <;> exact absurd hb (by decide)

/-- The letter after the digits gives the unit. -/
theorem size_sign (order : Order) (unit : SizeUnit) (h : decimal digits = some n) :
    ∃ bytes : UInt64, bytes.toNat = unit.bytes ∧
      NumberTest.size? (order.sign ++ digits ++ unit.letter)
        = some (.size ⟨order, double n⟩ bytes) := by
  obtain ⟨hne, hall, -⟩ := decimal_eq_some h
  have hread := parse_number_sign order h
  have hletter (u : UInt8) (hu : (word "bcwkMG").contains u = true) :
      NumberTest.size? (order.sign ++ digits ++ [u])
        = some (.size ⟨order, double n⟩ (multiplier u)) := by
    rw [size?_letter _ hu, hread]
    rfl
  cases unit with
  | none =>
    obtain ⟨body, b, rfl⟩ : ∃ body b, digits = body ++ [b] :=
      ⟨_, _, (dropLast_concat_getLast hne).symm⟩
    have hb : digit b = true :=
      all_eq_true.mp hall b (mem_append_right _ (mem_singleton_self b))
    refine ⟨512, rfl, ?_⟩
    show NumberTest.size? (order.sign ++ (body ++ [b]) ++ []) = _
    rw [append_nil, ← append_assoc, size?_bare _ (not_letter_of_digit hb), append_assoc, hread]
    rfl
  | block => exact ⟨_, rfl, hletter 98 rfl⟩
  | byte => exact ⟨_, rfl, hletter 99 rfl⟩
  | twoByte => exact ⟨_, rfl, hletter 119 rfl⟩
  | kibi => exact ⟨_, rfl, hletter 107 rfl⟩
  | mebi => exact ⟨_, rfl, hletter 77 rfl⟩
  | gibi => exact ⟨_, rfl, hletter 71 rfl⟩

theorem SizeUnit.bytes_pos (unit : SizeUnit) : 0 < unit.bytes := by
  cases unit <;> decide

/-- **Every test has an operand's order and its double**, against the number it is about. -/
theorem subject_test (subject : Subject) (order : Order) (h : decimal digits = some n) :
    ∃ test, subject.test (order.sign ++ digits) = some test ∧ ∀ stat,
      (test.evaluate stat = true ↔
        order.Holds (subject.field stat) (min (roundEven 53 n) (2 ^ 64 - 1))) := by
  have hparse {α : Type} (test : Number → α) :
      (parse_number (order.sign ++ digits)).map test = some (test ⟨order, double n⟩) := by
    rw [parse_number_sign order h]
    rfl
  have hcompare (actual : UInt64) : compare actual (Number.u64 ⟨order, double n⟩) order = true ↔
      order.Holds actual.toNat (min (roundEven 53 n) (2 ^ 64 - 1)) := by
    rw [compare_iff, u64_double]
  cases subject with
  | links => exact ⟨_, hparse NumberTest.links, fun stat => hcompare _⟩
  | inum => exact ⟨_, hparse NumberTest.inum, fun stat => hcompare _⟩
  | uid =>
    refine ⟨_, hparse NumberTest.uid, fun stat => ?_⟩
    show _ ↔ order.Holds stat.uid.toNat _
    rw [← UInt32.toNat_toUInt64]
    exact hcompare _
  | gid =>
    refine ⟨_, hparse NumberTest.gid, fun stat => ?_⟩
    show _ ↔ order.Holds stat.gid.toNat _
    rw [← UInt32.toNat_toUInt64]
    exact hcompare _
  | size unit =>
    obtain ⟨bytes, hbytes, hsize⟩ := size_sign order unit h
    refine ⟨_, hsize, fun stat => ?_⟩
    have hpos : 0 < bytes.toNat := hbytes ▸ unit.bytes_pos
    show _ ↔ order.Holds (stat.size.toNat ⌈/⌉ unit.bytes) _
    rw [← hbytes, ← div_ceil_toNat stat.size hpos]
    exact hcompare _

end

/-! ## The claim -/

/-- **Where an integer test is exact**: at the files whose number does not lie
between the digits and what is kept of them, the nearest number of 53
significant bits or the largest 64-bit number if that is less. -/
theorem exact_iff (subject : Subject) (order : Order) (digits : Arg) (n d : ℕ) (stat : Stat)
    (hdigits : decimal digits = some n) (hnear : Nearest 53 n d) :
    Exact subject order digits n stat ↔
      order.Apart (subject.field stat) n (min d (2 ^ 64 - 1)) := by
  obtain ⟨test, htest, heval⟩ := subject_test subject order hdigits
  rw [(nearest_iff (by decide)).mp hnear, ← Order.holds_iff_apart]
  constructor
  · rintro ⟨_, htest', heval'⟩
    rw [htest] at htest'
    cases htest'
    rw [← heval stat, heval']
  · exact fun h => ⟨test, htest, (heval stat).trans h⟩

/-- An inode number of 54 bits is found as the even number below it. -/
theorem exact_iff_inum :
    (decimal (word "9007199254740993") = some 9007199254740993 ∧
      Nearest 53 9007199254740993 9007199254740992) ∧
    (Exact .inum .equal (word "9007199254740993") 9007199254740993
        ⟨1, 9007199254740992, 0, 0, 0⟩ ↔
      Order.equal.Apart 9007199254740992 9007199254740993 9007199254740992) := by
  have hdigits : decimal (word "9007199254740993") = some 9007199254740993 := by decide
  have hnear : Nearest 53 9007199254740993 9007199254740992 :=
    (nearest_iff (by decide)).mpr (by decide)
  exact ⟨⟨hdigits, hnear⟩, exact_iff .inum .equal _ _ _ ⟨1, 9007199254740992, 0, 0, 0⟩ hdigits hnear⟩

/-- The test for one inode number holds of the file with another. -/
theorem inum_not_exact :
    ¬ ∀ (subject : Subject) (order : Order) (digits : Arg) (n : ℕ) (stat : Stat),
      decimal digits = some n → Exact subject order digits n stat := by
  intro h
  obtain ⟨test, htest, heval⟩ := h .inum .equal (word "9007199254740993") 9007199254740993
    ⟨1, 9007199254740992, 0, 0, 0⟩ (by decide)
  have hfound : (NumberTest.number? (word "-inum") (word "9007199254740993")).map
      (NumberTest.evaluate ⟨1, 9007199254740992, 0, 0, 0⟩) = some true := by decide +kernel
  have htest : NumberTest.number? (word "-inum") (word "9007199254740993") = some test := htest
  rw [htest] at hfound
  exact absurd (heval.mp (Option.some.inj hfound)) (by decide)

end Ferret.Find
