import Mathlib.Algebra.Order.Ring.Nat
import Mathlib.Data.List.Basic
import Mathlib.Data.List.Induction

/-!
# Lists cut into blocks

A list is cut into blocks of `n`, of which the last may be shorter but not
empty. A place in the list is then a block and a place in it, and both the
number of blocks and the length of each are read off the length of the list.
-/

variable {α : Type*} {n : ℕ}

/-- **Blocks of `n`**, the last of at most so many. -/
inductive Chunked (n : ℕ) : List (List α) → Prop
  | nil : Chunked n []
  | last {block : List α} : block ≠ [] → block.length ≤ n → Chunked n [block]
  | cons {block : List α} {blocks : List (List α)} :
    block.length = n → Chunked n blocks → Chunked n (block :: blocks)

/-- A list cut into blocks of `n`. -/
def Chunked.cut (n : ℕ) (l : List α) : List (List α) :=
  (List.range ((l.length + (n - 1)) / n)).map fun c => (l.drop (c * n)).take n

/-- The values of a function on an initial segment, from a list. -/
theorem mapM_range_eq_some {f : ℕ → Option α} {l : List α}
    (h : ∀ i a, l[i]? = some a → f i = some a) : (List.range l.length).mapM f = some l := by
  induction l using List.reverseRecOn with
  | nil => rfl
  | append_singleton l a ih =>
    have hinit := ih fun i b hb => h i b (by
      rw [List.getElem?_append_left (List.getElem?_eq_some_iff.mp hb).1]
      exact hb)
    have hlast : f l.length = some a := h l.length a (by simp)
    rw [List.length_append, List.length_singleton, List.range_succ, List.mapM_append, hinit]
    simp [hlast]

namespace Chunked

open List

variable {blocks : List (List α)}

/-- Full blocks, and one more. -/
theorem snoc {block : List α} (hfull : ∀ b ∈ blocks, b.length = n) (hne : block ≠ [])
    (hle : block.length ≤ n) : Chunked n (blocks ++ [block]) := by
  induction blocks with
  | nil => exact .last hne hle
  | cons b blocks ih =>
    exact .cons (hfull b (.head _)) (ih fun c hc => hfull c (.tail _ hc))

theorem of_full (hfull : ∀ b ∈ blocks, b.length = n) : Chunked n blocks := by
  induction blocks with
  | nil => exact .nil
  | cons b blocks ih =>
    exact .cons (hfull b (.head _)) (ih fun c hc => hfull c (.tail _ hc))

theorem length_le (h : Chunked n blocks) : ∀ b ∈ blocks, b.length ≤ n := by
  induction h with
  | nil => exact fun _ hb => by cases hb
  | last _ hle => exact fun b hb => mem_singleton.mp hb ▸ hle
  | cons hlen _ ih =>
    intro b hb
    rcases mem_cons.mp hb with rfl | hb
    · exact hlen.le
    · exact ih b hb

/-- **A place in the list is a place in a block.** -/
theorem getElem?_flatten (hn : 0 < n) (h : Chunked n blocks) (i : ℕ) :
    blocks.flatten[i]? = blocks[i / n]?.bind fun block => block[i % n]? := by
  induction h generalizing i with
  | nil => simp
  | @last block _ hle =>
    rw [flatten_cons, flatten_nil, append_nil]
    rcases lt_or_ge i n with hi | hi
    · rw [Nat.div_eq_of_lt hi, Nat.mod_eq_of_lt hi]
      rfl
    · have hpos : 0 < i / n := Nat.div_pos hi hn
      rw [getElem?_eq_none (hle.trans hi), getElem?_eq_none (l := [block]) hpos]
      rfl
  | @cons block blocks hlen _ ih =>
    rw [flatten_cons]
    rcases lt_or_ge i n with hi | hi
    · rw [getElem?_append_left (hlen ▸ hi), Nat.div_eq_of_lt hi, Nat.mod_eq_of_lt hi]
      rfl
    · obtain ⟨j, rfl⟩ := Nat.exists_eq_add_of_le hi
      rw [getElem?_append_right (hlen.symm ▸ hi), hlen, Nat.add_sub_cancel_left, ih,
        Nat.add_div_left j hn, Nat.add_mod_left, getElem?_cons_succ]

/-- **The length of a block.** -/
theorem length_block (h : Chunked n blocks) {k : ℕ} {block : List α} (hk : blocks[k]? = some block) :
    block.length = min n (blocks.flatten.length - k * n) := by
  induction h generalizing k with
  | nil => cases hk
  | last _ hle =>
    cases k with
    | zero =>
      cases hk
      simp [hle]
    | succ k => cases hk
  | @cons _ blocks hlen _ ih =>
    rw [flatten_cons, List.length_append, hlen]
    cases k with
    | zero =>
      cases hk
      rw [hlen]
      omega
    | succ k =>
      rw [ih hk, Nat.succ_mul]
      omega

/-- **The number of blocks.** -/
theorem length_blocks (hn : 0 < n) (h : Chunked n blocks) :
    blocks.length = (blocks.flatten.length + (n - 1)) / n := by
  induction h with
  | nil => exact (Nat.div_eq_of_lt (show 0 + (n - 1) < n by omega)).symm
  | @last block hne _ =>
    have hpos := length_pos_iff.mpr hne
    rw [flatten_cons, flatten_nil, append_nil, length_singleton]
    exact (Nat.div_eq_of_lt_le (by omega) (by omega)).symm
  | @cons block blocks hlen _ ih =>
    rw [length_cons, ih, flatten_cons, List.length_append, hlen,
      add_assoc n, Nat.add_div_left _ hn]

/-- **The length of some blocks.** -/
theorem length_take (h : Chunked n blocks) (k : ℕ) :
    (blocks.take k).flatten.length = min (k * n) blocks.flatten.length := by
  induction h generalizing k with
  | nil => simp
  | last _ _ =>
    cases k with
    | zero => simp
    | succ k =>
      have : n ≤ (k + 1) * n := Nat.le_mul_of_pos_left n (Nat.succ_pos k)
      rw [take_of_length_le (by simp)]
      simp only [flatten_cons, flatten_nil, append_nil]
      omega
  | @cons _ blocks hlen _ ih =>
    cases k with
    | zero => simp
    | succ k =>
      rw [take_succ_cons, flatten_cons, flatten_cons, List.length_append,
        List.length_append, ih, hlen, Nat.succ_mul]
      omega

/-! ## Cutting -/

theorem cut_map {β : Type*} (f : α → β) (n : ℕ) (l : List α) :
    cut n (l.map f) = (cut n l).map (List.map f) := by
  simp only [cut, length_map, map_map]
  refine map_congr_left fun c _ => ?_
  rw [Function.comp_apply, map_take, map_drop]

/-- **The blocks of a list are the list.** -/
theorem flatten_cut (hn : 0 < n) (l : List α) : (cut n l).flatten = l := by
  have hcover (m : ℕ) (hm : l.length ≤ m * n) :
      ((List.range m).map fun c => (l.drop (c * n)).take n).flatten = l := by
    induction m generalizing l with
    | zero => exact (length_eq_zero_iff.mp (by omega)).symm
    | succ m ih =>
      have hrest := ih (l.drop n) (by rw [length_drop, Nat.succ_mul] at *; omega)
      rw [range_succ_eq_map, map_cons, flatten_cons, map_map, zero_mul, drop_zero]
      conv_rhs => rw [← take_append_drop n l, ← hrest]
      congr 2
      refine map_congr_left fun c _ => ?_
      rw [Function.comp_apply, Nat.succ_mul, add_comm, drop_drop]
  refine hcover _ ?_
  have hdiv := Nat.div_add_mod' (l.length + (n - 1)) n
  have hmod := Nat.mod_lt (l.length + (n - 1)) hn
  omega

theorem zipIdx_slice (l : List α) (k n : ℕ) :
    (l.zipIdx.drop k).take n = ((l.drop k).take n).zipIdx k := by
  refine ext_getElem? fun j => ?_
  rw [getElem?_take, getElem?_drop, getElem?_zipIdx, getElem?_zipIdx, getElem?_take, getElem?_drop]
  split
  · rw [zero_add]
  · rfl

/-- Numbered blocks are blocks of the numbered list. -/
theorem cut_zipIdx (n : ℕ) (l : List α) :
    cut n l.zipIdx = (cut n l).zipIdx.map fun b => b.1.zipIdx (b.2 * n) := by
  refine ext_getElem? fun c => ?_
  rw [getElem?_map, getElem?_zipIdx]
  simp only [cut, length_zipIdx, getElem?_map, zero_add, Option.map_map]
  by_cases hc : c < (l.length + (n - 1)) / n
  · rw [getElem?_range hc]
    exact congrArg some (zipIdx_slice l (c * n) n)
  · rw [getElem?_eq_none (by rw [length_range]; omega)]
    rfl

end Chunked
