import Mathlib.Algebra.Order.Ring.Nat
import Mathlib.Data.List.Sort

/-!
# The integer packing library

Postings lists are packed by an external library, of which the index uses one
codec, `pfor128skip`: sorted lists of `u32`, with a skip table in front that a
cursor seeks through. The library is a parameter here. `Intpack` names the
operations the index calls, and `Intpack.Contract` what it relies on them to
do.

A list is read from the chunks that hold it, so bytes of other lists may
follow the ones that belong to it; the codec is told the number of values and
stops there. A cursor stands on the value it returned, and a target not past
it returns it again. Nothing is assumed of a cursor once it has answered that
it is spent.
-/

namespace Ferret

/-- The operations the index calls. -/
structure Intpack where
  /-- A position in a packed list. -/
  SortedCursor : Type
  encode_sorted : List ℕ → List UInt8
  decode_sorted : ℕ → List UInt8 → List ℕ
  /-- The length of the skip table of a list. -/
  aux_len : ℕ → ℕ
  new : ℕ → List UInt8 → SortedCursor
  next_geq : SortedCursor → ℕ → Option ℕ × SortedCursor

namespace Intpack

/-- The lists the codec packs: strictly increasing `u32`s. -/
structure Packable (xs : List ℕ) : Prop where
  sorted : xs.Pairwise (· < ·)
  lt : ∀ x ∈ xs, x < 2 ^ 32

/-- **What the index relies on.** `remaining` is what a cursor has at or
after the value it stands on. -/
structure Contract (P : Intpack) (remaining : P.SortedCursor → List ℕ) : Prop where
  decode_encode : ∀ xs tail, Packable xs →
    P.decode_sorted xs.length (P.encode_sorted xs ++ tail) = xs
  aux_len_le : ∀ xs, Packable xs → P.aux_len xs.length ≤ (P.encode_sorted xs).length
  encode_ne_nil : ∀ xs, Packable xs → xs ≠ [] → P.encode_sorted xs ≠ []
  remaining_new : ∀ xs tail, Packable xs →
    remaining (P.new xs.length (P.encode_sorted xs ++ tail)) = xs
  next_geq_fst : ∀ c t, (remaining c).Pairwise (· < ·) →
    (P.next_geq c t).1 = ((remaining c).dropWhile (· < t)).head?
  next_geq_snd : ∀ c t x, (remaining c).Pairwise (· < ·) → (P.next_geq c t).1 = some x →
    remaining (P.next_geq c t).2 = (remaining c).dropWhile (· < t)

/-! ## A codec that meets the contract

Four bytes a value, low byte first, and no skip table. -/

/-- The four bytes of a `u32`, low byte first. -/
def bytes4 (x : ℕ) : List UInt8 :=
  [UInt8.ofNat x, UInt8.ofNat (x / 256), UInt8.ofNat (x / 65536), UInt8.ofNat (x / 16777216)]

/-- The values of the first `n` quadruples. -/
def decode4 : ℕ → List UInt8 → List ℕ
  | n + 1, a :: b :: c :: d :: rest =>
    (a.toNat + 256 * b.toNat + 65536 * c.toNat + 16777216 * d.toNat) :: decode4 n rest
  | _, _ => []

/-- The plain codec, whose cursor is the list it has left. -/
def plain : Intpack where
  SortedCursor := List ℕ
  encode_sorted := fun xs => xs.flatMap bytes4
  decode_sorted := decode4
  aux_len := fun _ => 0
  new := decode4
  next_geq := fun c t => ((c.dropWhile (· < t)).head?, c.dropWhile (· < t))

theorem decode4_encode (xs : List ℕ) (tail : List UInt8) (h : ∀ x ∈ xs, x < 2 ^ 32) :
    decode4 xs.length (xs.flatMap bytes4 ++ tail) = xs := by
  induction xs with
  | nil => rfl
  | cons x xs ih =>
    obtain ⟨_, hxs⟩ := List.forall_mem_cons.mp h
    have hval : (UInt8.ofNat x).toNat + 256 * (UInt8.ofNat (x / 256)).toNat
        + 65536 * (UInt8.ofNat (x / 65536)).toNat
        + 16777216 * (UInt8.ofNat (x / 16777216)).toNat = x := by
      simp only [UInt8.toNat_ofNat']
      omega
    simp only [List.length_cons, List.flatMap_cons, bytes4, List.cons_append, List.nil_append,
      decode4, hval]
    rw [ih hxs]

theorem plain_contract : plain.Contract id where
  decode_encode := fun xs tail h => decode4_encode xs tail h.lt
  aux_len_le := fun _ _ => Nat.zero_le _
  encode_ne_nil := fun xs _ hne h => by
    cases xs with
    | nil => exact hne rfl
    | cons x xs => cases h
  remaining_new := fun xs tail h => decode4_encode xs tail h.lt
  next_geq_fst := fun _ _ _ => rfl
  next_geq_snd := fun _ _ _ _ _ => rfl

end Intpack

end Ferret
