import Ferret.Lib.Fields
import Ferret.Segment.Format
import Mathlib.Data.Nat.Size

/-!
# Packed columns

A column of values of one width, 0 to 64 bits, least significant bit first,
value `i` starting at bit `i * width` of a little-endian byte string. A read is
one unaligned load of eight bytes, a shift and a mask, and one more byte where
the value goes past the load. Every column ends in `PAD` bytes, so that the load
does not run off its end.

The bytes are read as one number, whose fields are the values. Positions are
unbounded here: a column has less than `2 ^ 32` values, so that no position
comes near the size of a word.
-/

namespace Ferret.Catalog

open Fields List Nat

/-- Bytes of padding after every column's last value. -/
def PAD : ℕ := 8

/-- The widest a column can be. -/
def MAX_WIDTH : ℕ := 64

/-- The bits needed to hold every value up to `max`: 0 for 0. -/
def width (max : ℕ) : ℕ := Nat.size max

/-- The largest value `width` bits hold: all ones. -/
def mask (width : ℕ) : ℕ :=
  if 64 - width < 64 then (2 ^ 64 - 1) >>> (64 - width) else 0

/-- A column's exact length in bytes, padding included. -/
def len (count width : ℕ) : ℕ := (count * width + 7) / 8 + PAD

/-- The value of the `n` bytes at a place; `none` past the end, where indexing
panics. -/
def load (bytes : Bytes) (place n : ℕ) : Option ℕ :=
  if place + n ≤ bytes.length then some (ofLe (slice bytes place n)) else none

/-- A column's bytes, read in place. -/
structure Packed where
  bytes : Bytes
  width : ℕ

namespace Packed

/-- Value `i`. -/
def get (p : Packed) (i : ℕ) : Option ℕ := do
  let bit := i * p.width
  let shift := bit % 8
  let word ← load p.bytes (bit / 8) 8
  let value := word >>> shift
  if 64 < shift + p.width then
    let byte ← load p.bytes (bit / 8 + 8) 1
    return (value ||| (byte <<< (64 - shift)) % 2 ^ 64) &&& mask p.width
  else return value &&& mask p.width

/-- The first loop of `decode`. -/
def decode_word (p : Packed) (bytes : Bytes) (j : ℕ) : Option ℕ := do
  let bit := j * p.width
  let word ← load bytes (bit / 8) 8
  return (word >>> (bit % 8)) &&& mask p.width

/-- The second loop of `decode`. -/
def decode_straddling (p : Packed) (bytes : Bytes) (value j : ℕ) : Option ℕ := do
  let bit := j * p.width
  let shift := bit % 8
  if 64 < shift + p.width then
    let byte ← load bytes (bit / 8 + 8) 1
    return value ||| ((byte <<< (64 - shift)) % 2 ^ 64 &&& mask p.width)
  else return value

/-- Values `first..first + n`; `first` is a multiple of 8. -/
def decode (p : Packed) (first n : ℕ) : Option (List ℕ) := do
  let start := first / 8 * p.width
  let stop := start + ((n * p.width + 7) / 8 + PAD)
  if p.bytes.length < stop then none
  else
    let bytes := slice p.bytes start (stop - start)
    let out ← (List.range n).mapM (p.decode_word bytes)
    if 57 < p.width then (out.zip (List.range n)).mapM fun q => p.decode_straddling bytes q.1 q.2
    else return out

end Packed

/-- Packs values as they are pushed. -/
structure Writer where
  width : ℕ
  /-- Bits not yet written, low first; fewer than 64 between pushes. -/
  pending : ℕ
  filled : ℕ

namespace Writer

def new (width : ℕ) : Writer := ⟨width, 0, 0⟩

/-- Appends a value, which must fit the width; also the bytes written. -/
def push (w : Writer) (value : ℕ) : Writer × Bytes :=
  let value := value &&& mask w.width
  let pending := w.pending ||| (value <<< w.filled) % 2 ^ 64
  let filled := w.filled + w.width
  if 64 ≤ filled then
    let shift := w.width - (filled - 64)
    -- The bits that did not fit: none when the word was empty.
    ({ w with filled := filled - 64, pending := if shift < 64 then value >>> shift else 0 },
      toLe 8 pending)
  else ({ w with filled := filled, pending := pending }, [])

/-- The last partial word, without padding: the end of one block. -/
def flush (w : Writer) : Bytes := (toLe 8 w.pending).take ((w.filled + 7) / 8)

/-- The last partial word and the padding. -/
def finish (w : Writer) : Bytes := w.flush ++ List.replicate PAD 0

/-- Values pushed in order, and the bytes written. -/
def pushes (w : Writer) : List ℕ → Writer × Bytes
  | [] => (w, [])
  | v :: vs =>
    let (w, out) := w.push v
    let (w, rest) := w.pushes vs
    (w, out ++ rest)

end Writer

/-- The column of some values. -/
def pack_column (width : ℕ) (values : List ℕ) : Bytes :=
  let (w, out) := (Writer.new width).pushes values
  out ++ w.finish

/-! ## Bytes as numbers -/

theorem ofLe_append (a b : Bytes) : ofLe (a ++ b) = ofLe a + 2 ^ (8 * a.length) * ofLe b := by
  induction a with
  | nil => simp [ofLe]
  | cons x a ih =>
    rw [cons_append, ofLe, ih, ofLe, length_cons, mul_succ, pow_add]
    ring

theorem ofLe_lt (b : Bytes) : ofLe b < 2 ^ (8 * b.length) := by
  induction b with
  | nil => exact one_pos
  | cons x b _ =>
    have hx := x.toNat_lt
    rw [ofLe, length_cons, mul_succ, pow_add]
    omega

theorem ofLe_take (b : Bytes) (n : ℕ) : ofLe (b.take n) = ofLe b % 2 ^ (8 * n) := by
  rcases le_total n b.length with h | h
  · conv_rhs => rw [← take_append_drop n b, ofLe_append, length_take, min_eq_left h,
      add_mul_mod_self_left]
    have := ofLe_lt (b.take n)
    rw [length_take, min_eq_left h] at this
    exact (mod_eq_of_lt this).symm
  · rw [take_of_length_le h]
    refine (mod_eq_of_lt ((ofLe_lt b).trans_le ?_)).symm
    exact Nat.pow_le_pow_right two_pos (mul_le_mul_left 8 h)

theorem ofLe_drop (b : Bytes) (n : ℕ) : ofLe (b.drop n) = ofLe b / 2 ^ (8 * n) := by
  rcases le_total n b.length with h | h
  · have hlt := ofLe_lt (b.take n)
    rw [length_take, min_eq_left h] at hlt
    conv_rhs => rw [← take_append_drop n b, ofLe_append, length_take, min_eq_left h,
      add_mul_div_left _ _ (Nat.two_pow_pos _), div_eq_of_lt hlt, zero_add]
  · rw [drop_eq_nil_of_le h]
    refine (div_eq_of_lt ((ofLe_lt b).trans_le ?_)).symm
    exact Nat.pow_le_pow_right two_pos (Nat.mul_le_mul_left 8 h)

theorem ofLe_slice (b : Bytes) (place n : ℕ) :
    ofLe (slice b place n) = ofLe b / 2 ^ (8 * place) % 2 ^ (8 * n) := by
  rw [slice, ofLe_take, ofLe_drop]

theorem ofLe_toLe_mod (n value : ℕ) : ofLe (toLe n value) = value % 2 ^ (8 * n) := by
  induction n generalizing value with
  | zero => exact (mod_one value).symm
  | succ n ih =>
    rw [toLe, ofLe, ih, UInt8.toNat_ofNat', mul_succ, add_comm (8 * n), pow_add]
    exact (mod_mul).symm

/-! ## Masks and widths -/

variable {w place n i v : ℕ} {bytes : Bytes} {values : List ℕ}

theorem mask_eq (h : w ≤ 64) : mask w = 2 ^ w - 1 := by
  unfold mask
  split
  · have hpow : 2 ^ w * 2 ^ (64 - w) = 2 ^ 64 := by
      rw [← pow_add, Nat.add_sub_cancel' h]
    have hpos := Nat.two_pow_pos w
    rw [Nat.shiftRight_eq_div_pow]
    refine Nat.div_eq_of_lt_le ?_ ?_
    · rw [Nat.sub_mul, hpow, one_mul]
      exact Nat.sub_le_sub_left (Nat.two_pow_pos _) _
    · rw [Nat.sub_add_cancel hpos, hpow]
      exact Nat.sub_lt (Nat.two_pow_pos 64) one_pos
  · obtain rfl : w = 0 := by omega
    rfl

theorem and_mask (x : ℕ) (h : w ≤ 64) : x &&& mask w = x % 2 ^ w := by
  rw [mask_eq h, and_two_pow_sub_one_eq_mod]

/-! ## Reading -/

theorem load_eq (h : place + n ≤ bytes.length) :
    load bytes place n = some (ofLe bytes / 2 ^ (8 * place) % 2 ^ (8 * n)) := by
  rw [load, if_pos h, ofLe_slice]

/-- A field that lies within the eight bytes loaded. -/
theorem window_within (x : ℕ) {shift : ℕ} (h : shift + w ≤ 64) :
    (x / 2 ^ (8 * place) % 2 ^ (8 * 8)) >>> shift % 2 ^ w
      = x / 2 ^ (8 * place + shift) % 2 ^ w := by
  refine eq_of_testBit_eq fun j => ?_
  simp only [testBit_mod_two_pow, testBit_shiftRight, testBit_div_two_pow]
  by_cases hj : j < w
  · have hlow : shift + j < 8 * 8 := by omega
    have hplace : shift + j + 8 * place = j + (8 * place + shift) := by omega
    rw [decide_eq_true hlow, Bool.true_and, hplace]
  · simp [hj]

/-- A field that goes on in the byte after them. -/
theorem window_straddling (x : ℕ) {shift : ℕ} (hshift : shift < 8) (hw : w ≤ 64) :
    ((x / 2 ^ (8 * place) % 2 ^ (8 * 8)) >>> shift
        ||| ((x / 2 ^ (8 * (place + 8)) % 2 ^ (8 * 1)) <<< (64 - shift)) % 2 ^ 64) % 2 ^ w
      = x / 2 ^ (8 * place + shift) % 2 ^ w := by
  refine eq_of_testBit_eq fun j => ?_
  simp only [testBit_mod_two_pow, testBit_shiftRight, testBit_div_two_pow,
    testBit_or, testBit_shiftLeft]
  by_cases hj : j < w
  · by_cases hlow : shift + j < 64
    · have hge : ¬ 64 - shift ≤ j := by omega
      have hplace : shift + j + 8 * place = j + (8 * place + shift) := by omega
      simp [hj, hlow, hge, hplace]
    · have hge : 64 - shift ≤ j := by omega
      have hnear : j - (64 - shift) < 8 := by omega
      have hplace : j - (64 - shift) + 8 * (place + 8) = 8 * place + shift + j := by omega
      have hj64 : j < 64 := by omega
      simp [hj, hlow, hge, hnear, hplace, hj64, add_comm j]
  · simp [hj]

/-- The bytes start with a column of some values, with room for a load at each
of them. -/
structure Holds (bytes : Bytes) (w : ℕ) (values : List ℕ) : Prop where
  width_le : w ≤ 64
  fits : ∀ v ∈ values, v < 2 ^ w
  room : (values.length * w + 7) / 8 + PAD ≤ bytes.length
  low : ofLe bytes % 2 ^ (w * values.length) = pack w values

/-- The field of a value. -/
theorem Holds.field (h : Holds bytes w values)
    (hv : values[i]? = some v) : ofLe bytes / 2 ^ (i * w) % 2 ^ w = v := by
  have hi := (List.getElem?_eq_some_iff.mp hv).1
  rw [mul_comm, ← field_mod _ hi, h.low]
  exact field_pack h.fits hv

/-- Where the loads of a value lie. -/
theorem Holds.loads (h : Holds bytes w values) (hi : i < values.length) :
    i * w / 8 + 8 ≤ bytes.length ∧ (64 < i * w % 8 + w → i * w / 8 + 8 + 1 ≤ bytes.length) := by
  have hroom := h.room
  have hle : (i + 1) * w ≤ values.length * w := mul_le_mul_right w hi
  rw [succ_mul] at hle
  have hpad : PAD = 8 := rfl
  constructor <;> omega

/-- **A value is read back.** -/
theorem Holds.get (h : Holds bytes w values)
    (hv : values[i]? = some v) : Packed.get ⟨bytes, w⟩ i = some v := by
  have hi := (List.getElem?_eq_some_iff.mp hv).1
  obtain ⟨hload, hnext⟩ := h.loads hi
  have hbit : 8 * (i * w / 8) + i * w % 8 = i * w := div_add_mod _ 8
  have hfield := h.field hv
  simp only [Packed.get, load_eq hload, Option.bind_eq_bind, Option.bind_some]
  split
  · rename_i hstraddles
    rw [load_eq (hnext hstraddles), Option.bind_some, and_mask _ h.width_le,
      window_straddling _ (mod_lt _ (by decide)) h.width_le, hbit, hfield]
    rfl
  · rename_i hwithin
    rw [and_mask _ h.width_le, window_within _ (not_lt.mp hwithin), hbit, hfield]
    rfl

/-- A run of the values, on a byte. -/
theorem Holds.run (h : Holds bytes w values)
    {first : ℕ} (hfirst : 8 ∣ first) (hn : first + n ≤ values.length) :
    first / 8 * w + ((n * w + 7) / 8 + PAD) ≤ bytes.length
      ∧ Holds (slice bytes (first / 8 * w) ((n * w + 7) / 8 + PAD)) w
        ((values.drop first).take n) := by
  obtain ⟨q, rfl⟩ := hfirst
  have hq : 8 * q / 8 = q := Nat.mul_div_cancel_left q (by decide)
  have hlen : ((values.drop (8 * q)).take n).length = n := by
    rw [length_take, length_drop]
    omega
  have hfits : q * w + ((n * w + 7) / 8 + PAD) ≤ bytes.length := by
    have hroom := h.room
    have hle : (8 * q + n) * w ≤ values.length * w := Nat.mul_le_mul_right w hn
    rw [add_mul, mul_assoc] at hle
    have hpad : PAD = 8 := rfl
    omega
  rw [hq]
  refine ⟨hfits, h.width_le, fun v hv => h.fits v ?_, ?_, ?_⟩
  · exact mem_of_mem_drop (mem_of_mem_take hv)
  · rw [hlen, length_slice hfits]
  · rw [hlen, ofLe_slice, ← pack_run h.fits hn, ← h.low]
    have hstart : w * (8 * q) = 8 * (q * w) := by ring
    have hstop : w * (8 * q) + w * n ≤ w * values.length := by
      rw [← mul_add]
      exact Nat.mul_le_mul_left w hn
    have hroom : w * n ≤ 8 * ((n * w + 7) / 8 + PAD) := by
      rw [mul_comm w n]
      omega
    refine Nat.eq_of_testBit_eq fun j => ?_
    simp only [Nat.testBit_mod_two_pow, Nat.testBit_div_two_pow]
    by_cases hj : j < w * n
    · have hlow : j < 8 * ((n * w + 7) / 8 + PAD) := hj.trans_le hroom
      have hhigh : j + w * (8 * q) < w * values.length := by omega
      rw [decide_eq_true hlow, decide_eq_true hhigh, hstart]
    · simp [hj]

/-- Two passes over a list, the second over the results of the first. -/
theorem mapM_two_passes {α β γ : Type} {f : α → Option β} {g : β → α → Option γ} {l : List α}
    {r : List γ} {P : β → γ → Prop}
    (h : List.Forall₂ (fun a c => ∃ b, f a = some b ∧ g b a = some c ∧ P b c) l r) :
    ∃ m, l.mapM f = some m ∧ ((m.zip l).mapM fun q => g q.1 q.2) = some r
      ∧ List.Forall₂ P m r := by
  induction h with
  | nil => exact ⟨[], rfl, rfl, .nil⟩
  | cons hac _ ih =>
    obtain ⟨b, hb, hc, hp⟩ := hac
    obtain ⟨m, hm, hr, hall⟩ := ih
    refine ⟨b :: m, ?_, ?_, .cons hp hall⟩
    · simp [mapM_cons, hb, hm]
    · simp [mapM_cons, hc, hr]

theorem or_and_mask (a b : ℕ) (h : w ≤ 64) :
    (a &&& mask w) ||| (b &&& mask w) = (a ||| b) % 2 ^ w := by
  rw [and_mask _ h, and_mask _ h, or_mod_two_pow]

/-- The two loops of `decode` come to a value each. -/
theorem Holds.decode_value (h : Holds bytes w values)
    (p : Packed) (hp : p.width = w) {j : ℕ} (hv : values[j]? = some v) :
    ∃ word, p.decode_word bytes j = some word
      ∧ p.decode_straddling bytes word j = some v ∧ (w ≤ 57 → word = v) := by
  subst hp
  obtain ⟨hload, hnext⟩ := h.loads (List.getElem?_eq_some_iff.mp hv).1
  have hbit : 8 * (j * p.width / 8) + j * p.width % 8 = j * p.width := div_add_mod _ 8
  have hfield := h.field hv
  have hshift : j * p.width % 8 < 8 := mod_lt _ (by decide)
  refine ⟨_, by simp only [Packed.decode_word, load_eq hload, Option.bind_eq_bind, Option.bind_some]; rfl, ?_, fun hw => ?_⟩
  · unfold Packed.decode_straddling
    dsimp only
    split
    · rename_i hstraddles
      rw [load_eq (hnext hstraddles), Option.bind_eq_bind, Option.bind_some,
        or_and_mask _ _ h.width_le, window_straddling _ hshift h.width_le, hbit, hfield]
      rfl
    · rename_i hwithin
      rw [and_mask _ h.width_le, window_within _ (not_lt.mp hwithin), hbit, hfield]
      rfl
  · rw [and_mask _ h.width_le, window_within _ (by omega), hbit, hfield]

/-- **A run of values is read back.** -/
theorem Holds.decode (h : Holds bytes w values)
    {first : ℕ} (hfirst : 8 ∣ first) (hn : first + n ≤ values.length) :
    Packed.decode ⟨bytes, w⟩ first n = some ((values.drop first).take n) := by
  obtain ⟨hfits, hrun⟩ := h.run hfirst hn
  have hlen : ((values.drop first).take n).length = n := by
    rw [length_take, length_drop]
    omega
  have hpasses : List.Forall₂ (fun j v => ∃ word,
      Packed.decode_word ⟨bytes, w⟩ (slice bytes (first / 8 * w) ((n * w + 7) / 8 + PAD)) j = some word
      ∧ Packed.decode_straddling ⟨bytes, w⟩
        (slice bytes (first / 8 * w) ((n * w + 7) / 8 + PAD)) word j = some v
      ∧ (w ≤ 57 → word = v)) (List.range n) ((values.drop first).take n) := by
    refine forall₂_iff_get.mpr ⟨by rw [length_range, hlen], fun j hj hj' => ?_⟩
    rw [get_eq_getElem, getElem_range]
    exact hrun.decode_value ⟨bytes, w⟩ rfl (getElem?_eq_getElem hj')
  obtain ⟨words, hwords, hvalues, hsame⟩ := mapM_two_passes hpasses
  unfold Packed.decode
  dsimp only
  rw [if_neg (not_lt.mpr hfits), Nat.add_sub_cancel_left, hwords, Option.bind_eq_bind,
    Option.bind_some]
  split
  · exact hvalues
  · rename_i hw
    have heq : words = (values.drop first).take n :=
      forall₂_eq_eq_eq ▸ hsame.imp fun _ _ h => h (not_lt.mp hw)
    rw [heq]
    rfl

/-! ## Writing -/

namespace Writer

/-- What a writer has written, with its pending bits above it, is the values
pushed. -/
structure Written (wr : Writer) (out : Bytes) (values : List ℕ) : Prop where
  width_le : wr.width ≤ 64
  fits : ∀ v ∈ values, v < 2 ^ wr.width
  filled_lt : wr.filled < 64
  pending_lt : wr.pending < 2 ^ wr.filled
  bits : 8 * out.length + wr.filled = wr.width * values.length
  low : ofLe out + 2 ^ (8 * out.length) * wr.pending = pack wr.width values

theorem written_new {w : ℕ} (h : w ≤ 64) : (new w).Written [] [] where
  width_le := h
  fits := fun _ hv => by cases hv
  filled_lt := zero_lt_succ 63
  pending_lt := one_pos
  bits := rfl
  low := rfl

variable {wr : Writer} {out : Bytes} {values : List ℕ}

/-- The word a push fills, and the bits that do not fit, are the low and the
high part of the pending bits with the value above them. -/
theorem push_parts {value : ℕ} (hwidth : wr.width ≤ 64) (hvalue : value < 2 ^ wr.width)
    (hfilled : wr.filled < 64) (hpending : wr.pending < 2 ^ wr.filled) :
    wr.push value =
      if 64 ≤ wr.filled + wr.width then
        ({ wr with
            filled := wr.filled + wr.width - 64
            pending := (wr.pending + 2 ^ wr.filled * value) / 2 ^ 64 },
          toLe 8 ((wr.pending + 2 ^ wr.filled * value) % 2 ^ 64))
      else
        ({ wr with
            filled := wr.filled + wr.width
            pending := wr.pending + 2 ^ wr.filled * value }, []) := by
  have hmask : value &&& mask wr.width = value := by
    rw [and_mask _ hwidth, Nat.mod_eq_of_lt hvalue]
  have hlow : wr.pending ||| (value <<< wr.filled) % 2 ^ 64
      = (wr.pending + 2 ^ wr.filled * value) % 2 ^ 64 := by
    have hlt : wr.pending < 2 ^ 64 :=
      hpending.trans_le (Nat.pow_le_pow_right two_pos hfilled.le)
    rw [← or_shiftLeft hpending, Nat.or_mod_two_pow, Nat.mod_eq_of_lt hlt]
  unfold push
  simp only [hmask, hlow]
  split
  · rename_i hfull
    have hshift : wr.width - (wr.filled + wr.width - 64) = 64 - wr.filled := by omega
    have hhigh : (wr.pending + 2 ^ wr.filled * value) / 2 ^ 64 = value / 2 ^ (64 - wr.filled) := by
      rw [show (2 : ℕ) ^ 64 = 2 ^ wr.filled * 2 ^ (64 - wr.filled) by
          rw [← pow_add, Nat.add_sub_cancel' hfilled.le],
        ← Nat.div_div_eq_div_mul, Nat.add_mul_div_left _ _ (Nat.two_pow_pos _),
        Nat.div_eq_of_lt hpending, zero_add]
    rw [hshift, hhigh, Nat.shiftRight_eq_div_pow]
    split
    · rfl
    · rename_i h
      have hzero : wr.filled = 0 := by omega
      have hsmall : value < 2 ^ (64 - wr.filled) := by
        rw [hzero]
        exact hvalue.trans_le (Nat.pow_le_pow_right two_pos hwidth)
      rw [Nat.div_eq_of_lt hsmall]
  · rename_i hroom
    have hlt : wr.pending + 2 ^ wr.filled * value < 2 ^ 64 := by
      calc wr.pending + 2 ^ wr.filled * value < 2 ^ wr.filled + 2 ^ wr.filled * value :=
            Nat.add_lt_add_right hpending _
        _ = 2 ^ wr.filled * (value + 1) := by ring
        _ ≤ 2 ^ wr.filled * 2 ^ wr.width := Nat.mul_le_mul_left _ hvalue
        _ = 2 ^ (wr.filled + wr.width) := (pow_add ..).symm
        _ ≤ 2 ^ 64 := Nat.pow_le_pow_right two_pos (by omega)
    rw [Nat.mod_eq_of_lt hlt]

/-- **A push adds one value to what is written.** -/
theorem Written.push (h : wr.Written out values) {value : ℕ} (hvalue : value < 2 ^ wr.width) :
    (wr.push value).1.Written (out ++ (wr.push value).2) (values ++ [value]) := by
  have hfits : ∀ v ∈ values ++ [value], v < 2 ^ wr.width := by
    intro v hv
    rcases mem_append.mp hv with hv | hv
    · exact h.fits v hv
    · exact mem_singleton.mp hv ▸ hvalue
  have hlt : wr.pending + 2 ^ wr.filled * value < 2 ^ (wr.filled + wr.width) := by
    calc wr.pending + 2 ^ wr.filled * value < 2 ^ wr.filled + 2 ^ wr.filled * value :=
          Nat.add_lt_add_right h.pending_lt _
      _ = 2 ^ wr.filled * (value + 1) := by ring
      _ ≤ 2 ^ wr.filled * 2 ^ wr.width := Nat.mul_le_mul_left _ hvalue
      _ = 2 ^ (wr.filled + wr.width) := (pow_add ..).symm
  have hpack : ofLe out + 2 ^ (8 * out.length) * (wr.pending + 2 ^ wr.filled * value)
      = pack wr.width (values ++ [value]) := by
    rw [pack_append, pack_singleton, ← h.bits, pow_add, ← h.low]
    ring
  have hlength : (values ++ [value]).length = values.length + 1 := by simp
  rw [push_parts h.width_le hvalue h.filled_lt h.pending_lt]
  have hbits := h.bits
  split
  · rename_i hfull
    refine ⟨h.width_le, hfits, ?_, ?_, ?_, ?_⟩
    · have := h.width_le
      have := h.filled_lt
      show wr.filled + wr.width - 64 < 64
      omega
    · show (wr.pending + 2 ^ wr.filled * value) / 2 ^ 64 < 2 ^ (wr.filled + wr.width - 64)
      refine Nat.div_lt_of_lt_mul ?_
      rwa [← pow_add, Nat.add_sub_cancel' hfull]
    · rw [hlength, length_append, length_toLe]
      show 8 * (out.length + 8) + (wr.filled + wr.width - 64) = wr.width * (values.length + 1)
      rw [Nat.mul_succ wr.width]
      omega
    · rw [ofLe_append, ofLe_toLe_mod, length_append, length_toLe, ← hpack]
      show ofLe out + 2 ^ (8 * out.length)
          * ((wr.pending + 2 ^ wr.filled * value) % 2 ^ 64 % 2 ^ (8 * 8))
        + 2 ^ (8 * (out.length + 8)) * ((wr.pending + 2 ^ wr.filled * value) / 2 ^ 64) = _
      rw [Nat.mod_mod, mul_add 8, pow_add, add_assoc, mul_assoc, ← mul_add,
        Nat.mod_add_div]
  · rename_i hroom
    rw [append_nil]
    refine ⟨h.width_le, hfits, ?_, hlt, ?_, hpack⟩
    · show wr.filled + wr.width < 64
      omega
    · rw [hlength]
      show 8 * out.length + (wr.filled + wr.width) = wr.width * (values.length + 1)
      rw [Nat.mul_succ wr.width]
      omega

theorem push_width (wr : Writer) (value : ℕ) : (wr.push value).1.width = wr.width := by
  unfold push
  dsimp only
  split <;> rfl

theorem Written.pushes (h : wr.Written out values)
    {more : List ℕ} (hmore : ∀ v ∈ more, v < 2 ^ wr.width) :
    (wr.pushes more).1.Written (out ++ (wr.pushes more).2) (values ++ more)
      ∧ (wr.pushes more).1.width = wr.width := by
  induction more generalizing wr out values with
  | nil =>
    refine ⟨?_, rfl⟩
    simp only [Writer.pushes, append_nil]
    exact h
  | cons v more ih =>
    have hwidth := wr.push_width v
    obtain ⟨hwritten, hsame⟩ := ih (h.push (hmore v (.head _)))
      fun u hu => hwidth.symm ▸ hmore u (.tail _ hu)
    rw [append_assoc, append_assoc] at hwritten
    exact ⟨hwritten, hsame.trans hwidth⟩

/-- **The bytes of a column**: the packed number, in as many bytes as it
needs. -/
theorem Written.flush (h : wr.Written out values) :
    (out ++ wr.flush).length = (values.length * wr.width + 7) / 8
      ∧ ofLe (out ++ wr.flush) = pack wr.width values := by
  have hfilled := h.filled_lt
  have hlen : wr.flush.length = (wr.filled + 7) / 8 := by
    rw [Writer.flush, length_take, length_toLe]
    omega
  have hpending : ofLe wr.flush = wr.pending := by
    have hlt : wr.pending < 2 ^ (8 * ((wr.filled + 7) / 8)) :=
      h.pending_lt.trans_le (Nat.pow_le_pow_right two_pos (by omega))
    have hlt' : wr.pending < 2 ^ (8 * 8) :=
      h.pending_lt.trans_le (Nat.pow_le_pow_right two_pos (by omega))
    rw [Writer.flush, ofLe_take, ofLe_toLe_mod, Nat.mod_eq_of_lt hlt', Nat.mod_eq_of_lt hlt]
  constructor
  · have hbits := h.bits
    rw [length_append, hlen, mul_comm values.length, ← hbits]
    omega
  · rw [ofLe_append, hpending, h.low]

end Writer

/-- The column of some values, read from its start. -/
theorem holds_flush (hw : w ≤ 64) (h : ∀ v ∈ values, v < 2 ^ w)
    {rest : Bytes} (hrest : PAD ≤ rest.length) :
    Holds (((Writer.new w).pushes values).2 ++ ((Writer.new w).pushes values).1.flush ++ rest)
        w values
      ∧ (((Writer.new w).pushes values).2 ++ ((Writer.new w).pushes values).1.flush).length
        = (values.length * w + 7) / 8 := by
  obtain ⟨hwritten, hwidth⟩ := (Writer.written_new hw).pushes h
  rw [nil_append, nil_append] at hwritten
  obtain ⟨hlen, hlow⟩ := hwritten.flush
  have hwidth : ((Writer.new w).pushes values).1.width = w := hwidth
  rw [hwidth] at hlen hlow
  refine ⟨⟨hw, h, ?_, ?_⟩, hlen⟩
  · rw [length_append, hlen]
    exact Nat.add_le_add_left hrest _
  · rw [ofLe_append, hlow, hlen]
    have hdvd : 2 ^ (w * values.length) ∣ 2 ^ (8 * ((values.length * w + 7) / 8)) :=
      pow_dvd_pow 2 (by rw [mul_comm w]; omega)
    rw [add_mod, mod_eq_zero_of_dvd (hdvd.mul_right _), add_zero, mod_mod,
      mod_eq_of_lt (pack_lt h)]

/-- **A packed column is read back**, in whatever order. -/
theorem packed_round_trip (hw : w ≤ 64) (h : ∀ v ∈ values, v < 2 ^ w) :
    (pack_column w values).length = len values.length w
      ∧ (∀ i v, values[i]? = some v → Packed.get ⟨pack_column w values, w⟩ i = some v)
      ∧ ∀ first n, 8 ∣ first → first + n ≤ values.length →
        Packed.decode ⟨pack_column w values, w⟩ first n = some ((values.drop first).take n) := by
  obtain ⟨hholds, hlen⟩ := holds_flush hw h (show PAD ≤ (List.replicate PAD 0).length from
    length_replicate.ge)
  rw [append_assoc] at hholds
  refine ⟨?_, fun i v hv => hholds.get hv, fun first n hfirst hn => hholds.decode hfirst hn⟩
  show (_ ++ (_ ++ List.replicate PAD 0)).length = _
  rw [← append_assoc, length_append, hlen, length_replicate]
  rfl

end Ferret.Catalog
