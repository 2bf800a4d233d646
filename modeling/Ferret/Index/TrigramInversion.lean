import Ferret.Index.Inversion
import Ferret.Lib.Radix
import Ferret.Lib.Tiles

/-!
# The pairs of a trigram inverter

A document's keys are its windows of three bytes, ASCII letters folded. They
are found by a number that rolls along the document and one bit a key, set when
the key is first seen and cleared again afterwards, so that every document
starts from an empty set.

The pairs of a key and a document are single numbers, the key in the high bits.
Documents come in ascending order, so two stable passes over the key's digits
sort the pairs, and each run of one key is then a term with its documents:
`TrigramInverter.entries_inverts`.
-/

namespace Ferret.Inversion

open List

/-! ## Keys -/

/-- A byte with its ASCII letter in lower case. -/
def fold (byte : UInt8) : UInt8 := if 65 ≤ byte ∧ byte ≤ 90 then byte + 32 else byte

/-- The key of three bytes. -/
def trigram_key (a b c : UInt8) : Bytes := [fold a, fold b, fold c]

/-- The distinct folded keys of one document at a time: a bit per key. -/
structure KeySet where
  seen : ℕ → BitVec 64

namespace KeySet

def new : KeySet where
  seen := fun _ => 0

/-- The bit of a key in its word. -/
def bit (number : ℕ) : BitVec 64 := BitVec.twoPow 64 (number % 64)

/-- Sets the bit of a key. -/
def set (s : KeySet) (number : ℕ) : KeySet where
  seen := Function.update s.seen (number / 64) (s.seen (number / 64) ||| bit number)

/-- Clears the bit of a key. -/
def clear (s : KeySet) (number : ℕ) : KeySet where
  seen := Function.update s.seen (number / 64) (s.seen (number / 64) &&& ~~~ bit number)

/-- The loop of `distinct`: the number of a key rolls along the windows. -/
def scan : Bytes → ℕ → KeySet → List ℕ → KeySet × List ℕ
  | [], _, s, out => (s, out)
  | byte :: rest, number, s, out =>
    let number := (number <<< 8 ||| (fold byte).toNat) &&& 0xffffff
    if s.seen (number / 64) &&& bit number = 0 then
      scan rest number (s.set number) (out ++ [number])
    else scan rest number s out

/-- The distinct folded keys of some bytes, each as its big-endian number, in
order of first occurrence. -/
def distinct (s : KeySet) : Bytes → KeySet × List ℕ
  | first :: second :: rest =>
    let (s, out) := scan rest ((fold first).toNat <<< 8 ||| (fold second).toNat) s []
    (out.foldl clear s, out)
  | _ => (s, [])

/-- Whether a key's bit is set. -/
def has (s : KeySet) (number : ℕ) : Bool := (s.seen (number / 64)).getLsbD (number % 64)

theorem bit_test (s : KeySet) (number : ℕ) :
    s.seen (number / 64) &&& bit number = 0 ↔ s.has number = false := by
  have hlt : number % 64 < 64 := Nat.mod_lt _ (by decide)
  rw [bit, BitVec.and_twoPow, has]
  cases (s.seen (number / 64)).getLsbD (number % 64) with
  | false => simp
  | true =>
    simp only [if_true, Bool.true_eq_false, iff_false]
    intro hzero
    have hbit := congrArg (fun x => x.getLsbD (number % 64)) hzero
    simp [hlt] at hbit

/-- The bits of a word are the keys it holds. -/
theorem getLsbD_bit {number other : ℕ} (hword : other / 64 = number / 64) :
    (bit number).getLsbD (other % 64) = decide (other = number) := by
  rw [bit, BitVec.getLsbD_twoPow]
  have hlt : number % 64 < 64 := Nat.mod_lt _ (by decide)
  rw [decide_eq_true hlt, Bool.true_and, decide_eq_decide]
  omega

@[simp]
theorem has_set (s : KeySet) (number other : ℕ) :
    (s.set number).has other = (s.has other || decide (other = number)) := by
  unfold has set
  by_cases hword : other / 64 = number / 64
  · simp only [hword, Function.update_self, BitVec.getLsbD_or, getLsbD_bit hword]
  · have hne : other ≠ number := fun h => hword (by rw [h])
    simp only [Function.update_of_ne hword, decide_eq_false hne, Bool.or_false]

@[simp]
theorem has_clear (s : KeySet) (number other : ℕ) :
    (s.clear number).has other = (s.has other && !decide (other = number)) := by
  have hlt : other % 64 < 64 := Nat.mod_lt _ (by decide)
  unfold has clear
  by_cases hword : other / 64 = number / 64
  · simp only [hword, Function.update_self, BitVec.getLsbD_and, BitVec.getLsbD_not, hlt,
      decide_true, Bool.true_and, getLsbD_bit hword]
  · have hne : other ≠ number := fun h => hword (by rw [h])
    simp only [Function.update_of_ne hword, decide_eq_false hne, Bool.not_false, Bool.and_true]

theorem has_foldl_clear (out : List ℕ) (s : KeySet) (number : ℕ) :
    (out.foldl clear s).has number = (s.has number && !decide (number ∈ out)) := by
  induction out generalizing s with
  | nil => simp
  | cons k out ih =>
    rw [foldl_cons, ih, has_clear]
    by_cases h : number = k <;> simp [h]

/-! ## Windows -/

/-- The number of a window. -/
def number_of (a b c : UInt8) : ℕ := (fold a).toNat * 65536 + (fold b).toNat * 256 + (fold c).toNat

/-- The numbers of the windows of some bytes, in order. -/
def numbers : Bytes → List ℕ
  | a :: b :: c :: rest => number_of a b c :: numbers (b :: c :: rest)
  | _ => []

theorem mem_numbers {bytes : Bytes} {number : ℕ} :
    number ∈ numbers bytes ↔ ∃ a b c, [a, b, c] <:+: bytes ∧ number = number_of a b c := by
  induction bytes with
  | nil =>
    constructor
    · intro h
      cases h
    · rintro ⟨a, b, c, h, -⟩
      have := h.length_le
      simp at this
  | cons x rest ih =>
    have hshort : ∀ {bytes : Bytes}, bytes.length < 3 →
        ¬ ∃ a b c, [a, b, c] <:+: bytes ∧ number = number_of a b c := by
      rintro bytes _ ⟨a, b, c, h, -⟩
      have := h.length_le
      simp only [length_cons, length_nil] at this
      omega
    rcases rest with _ | ⟨y, _ | ⟨z, rest⟩⟩
    · exact ⟨nofun, fun h => absurd h (hshort (by simp))⟩
    · exact ⟨nofun, fun h => absurd h (hshort (by simp))⟩
    · rw [numbers, mem_cons, ih]
      constructor
      · rintro (rfl | ⟨a, b, c, h, rfl⟩)
        · exact ⟨x, y, z, ⟨[], rest, rfl⟩, rfl⟩
        · exact ⟨a, b, c, infix_cons h, rfl⟩
      · rintro ⟨a, b, c, h, rfl⟩
        rcases infix_cons_iff.mp h with hleading | hinfix
        · obtain ⟨_, heq⟩ := hleading
          simp only [cons_append, nil_append, List.cons.injEq] at heq
          obtain ⟨rfl, rfl, rfl, -⟩ := heq
          exact .inl rfl
        · exact .inr ⟨a, b, c, hinfix, rfl⟩

/-- The number rolls on: its last two bytes are kept, and one comes. -/
theorem roll {number : ℕ} {a b : UInt8} (h : number % 65536 = (fold a).toNat * 256 + (fold b).toNat)
    (c : UInt8) : (number <<< 8 ||| (fold c).toNat) &&& 0xffffff = number_of a b c := by
  have hc : (fold c).toNat < 2 ^ 8 := (fold c).toNat_lt
  rw [← Nat.shiftLeft_add_eq_or_of_lt hc, show (0xffffff : ℕ) = 2 ^ 24 - 1 by norm_num,
    Nat.and_two_pow_sub_one_eq_mod, Nat.shiftLeft_eq, number_of]
  norm_num
  omega

/-- **The loop finds the distinct numbers of the windows**, and marks those it
has found. -/
theorem scan_spec (rest : Bytes) {a b : UInt8} {number : ℕ} {s : KeySet} {out : List ℕ}
    (hroll : number % 65536 = (fold a).toNat * 256 + (fold b).toNat)
    (hseen : ∀ k, s.has k = true ↔ k ∈ out) (hout : out.Nodup) :
    let r := scan rest number s out
    (∀ k, r.1.has k = true ↔ k ∈ r.2) ∧ r.2.Nodup
      ∧ ∀ k, k ∈ r.2 ↔ k ∈ out ∨ k ∈ numbers (a :: b :: rest) := by
  induction rest generalizing a b number s out with
  | nil => exact ⟨hseen, hout, fun k => by simp [scan, numbers]⟩
  | cons c rest ih =>
    have hnext := roll hroll c
    have hbytes : number_of a b c % 65536 = (fold b).toNat * 256 + (fold c).toNat := by
      have hb := (fold b).toNat_lt
      have hc := (fold c).toNat_lt
      rw [number_of]
      omega
    rw [scan]
    simp only [hnext, bit_test]
    by_cases hnew : s.has (number_of a b c) = false
    · rw [if_pos hnew]
      have hmem : number_of a b c ∉ out := fun h => by
        rw [(hseen _).mpr h] at hnew
        cases hnew
      have hmarked : ∀ k, (s.set (number_of a b c)).has k = true ↔ k ∈ out ++ [number_of a b c] :=
        fun k => by simp [hseen k]
      have hdistinct : (out ++ [number_of a b c]).Nodup := by
        refine nodup_append.mpr ⟨hout, nodup_singleton _, fun x hx y hy => ?_⟩
        rw [mem_singleton.mp hy]
        exact fun h => hmem (h ▸ hx)
      obtain ⟨h₁, h₂, h₃⟩ := ih hbytes hmarked hdistinct
      refine ⟨h₁, h₂, fun k => ?_⟩
      rw [h₃, mem_append, mem_singleton, numbers, mem_cons, or_assoc]
    · rw [if_neg hnew]
      rw [Bool.not_eq_false, hseen] at hnew
      obtain ⟨h₁, h₂, h₃⟩ := ih hbytes hseen hout
      refine ⟨h₁, h₂, fun k => ?_⟩
      rw [h₃, numbers, mem_cons]
      constructor
      · rintro (h | h)
        · exact .inl h
        · exact .inr (.inr h)
      · rintro (h | rfl | h)
        · exact .inl h
        · exact .inl hnew
        · exact .inr h

/-- **The distinct keys of a document**, from an empty set, which it leaves
empty. -/
theorem distinct_spec {s : KeySet} (h : ∀ k, s.has k = false) (bytes : Bytes) :
    (∀ k, (s.distinct bytes).1.has k = false) ∧ (s.distinct bytes).2.Nodup
      ∧ ∀ k, k ∈ (s.distinct bytes).2 ↔ k ∈ numbers bytes := by
  rcases bytes with _ | ⟨a, _ | ⟨b, rest⟩⟩
  · exact ⟨h, nodup_nil, fun k => .rfl⟩
  · exact ⟨h, nodup_nil, fun k => .rfl⟩
  · have hb : (fold b).toNat < 2 ^ 8 := (fold b).toNat_lt
    have ha := (fold a).toNat_lt
    have hstart : ((fold a).toNat <<< 8 ||| (fold b).toNat) % 65536
        = (fold a).toNat * 256 + (fold b).toNat := by
      rw [← Nat.shiftLeft_add_eq_or_of_lt hb, Nat.shiftLeft_eq]
      omega
    have hempty : ∀ k, s.has k = true ↔ k ∈ ([] : List ℕ) := fun k => by simp [h k]
    obtain ⟨h₁, h₂, h₃⟩ := scan_spec rest hstart hempty nodup_nil
    rw [distinct]
    refine ⟨fun k => ?_, h₂, fun k => by rw [h₃]; simp⟩
    show (List.foldl clear _ _).has k = false
    rw [has_foldl_clear]
    cases hk : (scan rest ((fold a).toNat <<< 8 ||| (fold b).toNat) s []).1.has k with
    | false => rfl
    | true => simp [(h₁ k).mp hk]

end KeySet

/-! ## Pairs -/

/-- A key and a document in one number. -/
def pack (number doc : ℕ) : ℕ := number <<< 32 ||| doc

/-- Pair-buffer inverter for ASCII-folded three-byte keys. -/
structure TrigramInverter where
  pairs : List ℕ
  keys : KeySet
  last : Option ℕ

/-- Digits of a pass. -/
def DIGITS : ℕ := 1 <<< 12

/-- The low digit of a pair's key. -/
def low (pair : ℕ) : ℕ := (pair >>> 32) &&& 0xfff

/-- The high digit of a pair's key. -/
def high (pair : ℕ) : ℕ := (pair >>> 44) &&& 0xfff

namespace TrigramInverter

def new : TrigramInverter where
  pairs := []
  keys := KeySet.new
  last := none

/-- Adds a document with its distinct keys, if there are at most `limit`.
Documents come in strictly ascending order. -/
def add_keys (i : TrigramInverter) (doc : ℕ) (keys : List ℕ) (limit : Option ℕ) :
    Except WriteError (Option TrigramInverter) :=
  if i.last.any (doc ≤ ·) then .error .docOrder
  else if limit.any (· < keys.length) then .ok none
  else .ok (some { i with pairs := i.pairs ++ keys.map (pack · doc), last := some doc })

/-- Adds raw document bytes. -/
def add (i : TrigramInverter) (doc : ℕ) (bytes : Bytes) : Except WriteError TrigramInverter := do
  let (keys, found) := i.keys.distinct bytes
  match ← add_keys { i with keys := keys } doc found none with
  | none => .error .docOrder
  | some i => .ok i

/-- Two stable passes of twelve bits sort the 24-bit keys, documents already
rising within each. Each pass scatters into the other buffer; both count their
offsets beforehand. -/
def sorted (i : TrigramInverter) : List ℕ :=
  let scratch := List.replicate i.pairs.length 0
  let once := Radix.pass low DIGITS i.pairs scratch i.pairs
  Radix.pass high DIGITS i.pairs i.pairs once

/-- The loop of a drain: a run of one key gives the key its documents. Each
round uses up a pair at least. -/
def runs : ℕ → List ℕ → List (ℕ × List ℕ)
  | 0, _ => []
  | _ + 1, [] => []
  | fuel + 1, pair :: rest =>
    let number := pair >>> 32
    let same := rest.takeWhile fun p => p >>> 32 = number
    let others := rest.dropWhile fun p => p >>> 32 = number
    (number, (pair :: same).map (· % 2 ^ 32)) :: runs fuel others

/-- What a drain pushes, in order. -/
def entries (i : TrigramInverter) : List (Bytes × List ℕ) :=
  (runs i.pairs.length i.sorted).map fun p => (key_bytes p.1, p.2)

/-- Drains into a writer. -/
def drain (fingerprint : Bytes → ℕ) (i : TrigramInverter) (writer : Draft) :
    Except WriteError Draft :=
  i.entries.foldlM (fun w p => w.push fingerprint p.1 p.2) writer

end TrigramInverter

/-! ## The parts of a pair -/

section

variable {number doc : ℕ}

theorem pack_eq (h : doc < 2 ^ 32) : pack number doc = number * 2 ^ 32 + doc := by
  rw [pack, ← Nat.shiftLeft_add_eq_or_of_lt h, Nat.shiftLeft_eq]

theorem pack_key (h : doc < 2 ^ 32) : pack number doc >>> 32 = number := by
  rw [pack_eq h, Nat.shiftRight_eq_div_pow]
  omega

theorem pack_doc (h : doc < 2 ^ 32) : pack number doc % 2 ^ 32 = doc := by
  rw [pack_eq h]
  omega

theorem low_eq (pair : ℕ) : low pair = (pair >>> 32) % 4096 := by
  rw [low, show (0xfff : ℕ) = 2 ^ 12 - 1 by norm_num, Nat.and_two_pow_sub_one_eq_mod]

theorem high_eq (pair : ℕ) : high pair = (pair >>> 32) / 4096 % 4096 := by
  rw [high, show (0xfff : ℕ) = 2 ^ 12 - 1 by norm_num, Nat.and_two_pow_sub_one_eq_mod,
    Nat.shiftRight_eq_div_pow, Nat.shiftRight_eq_div_pow, Nat.div_div_eq_div_mul]

end

/-! ## The passes -/

/-- **The passes sort the pairs**, if those of one key come in the order of their
documents and no key has more than 24 bits. -/
theorem TrigramInverter.sorted_spec {i : TrigramInverter}
    (hkeys : ∀ p ∈ i.pairs, p >>> 32 < 2 ^ 24)
    (hdocs : i.pairs.Pairwise fun p q => p >>> 32 = q >>> 32 → p < q) :
    i.sorted.Perm i.pairs ∧ i.sorted.Pairwise (· < ·) := by
  have hlow : ∀ p ∈ i.pairs, low p < DIGITS := fun p _ => by
    rw [low_eq]
    exact Nat.mod_lt _ (by decide)
  set once := Radix.pass low DIGITS i.pairs (List.replicate i.pairs.length 0) i.pairs with hdef
  have honce : once = ((List.range DIGITS).map fun k =>
      i.pairs.filter fun p => low p = k).flatten :=
    Radix.pass_eq hlow (List.Perm.refl _) (length_replicate ..)
  have hperm : once.Perm i.pairs := honce ▸ Radix.grouped_perm hlow
  have hhigh : ∀ p ∈ once, high p < DIGITS := fun p _ => by
    rw [high_eq]
    exact Nat.mod_lt _ (by decide)
  have htwice : i.sorted = ((List.range DIGITS).map fun k =>
      once.filter fun p => high p = k).flatten :=
    Radix.pass_eq hhigh hperm.symm hperm.symm.length_eq
  have hall : i.sorted.Perm i.pairs := (htwice ▸ Radix.grouped_perm hhigh).trans hperm
  refine ⟨hall, ?_⟩
  have h₁ : once.Pairwise fun p q => low p < low q
      ∨ low p = low q ∧ (p >>> 32 = q >>> 32 → p < q) :=
    honce ▸ Radix.grouped_pairwise hdocs
  have h₂ : i.sorted.Pairwise fun p q => high p < high q ∨ high p = high q
      ∧ (low p < low q ∨ low p = low q ∧ (p >>> 32 = q >>> 32 → p < q)) :=
    htwice ▸ Radix.grouped_pairwise h₁
  refine h₂.imp_of_mem fun {p q} hp hq hpq => ?_
  have hpk := hkeys p (hall.mem_iff.mp hp)
  have hqk := hkeys q (hall.mem_iff.mp hq)
  simp only [high_eq, low_eq, Nat.shiftRight_eq_div_pow] at hpq hpk hqk
  rcases hpq with hlt | ⟨_, hlt | ⟨_, hlt⟩⟩
  · omega
  · omega
  · exact hlt (by omega)

/-! ## The runs -/

/-- Past a run of the least key, keys are greater. -/
theorem lt_of_mem_dropWhile {pair : ℕ} {rest : List ℕ} (h : (pair :: rest).Pairwise (· < ·))
    {p : ℕ} (hp : p ∈ rest.dropWhile fun p => decide (p >>> 32 = pair >>> 32)) :
    pair >>> 32 < p >>> 32 := by
  obtain ⟨hpair, hrest⟩ := pairwise_cons.mp h
  have hmono : ∀ {a b : ℕ}, a ≤ b → a >>> 32 ≤ b >>> 32 := fun hab => by
    rw [Nat.shiftRight_eq_div_pow, Nat.shiftRight_eq_div_pow]
    exact Nat.div_le_div_right hab
  rw [Span.dropWhile_eq_filter, mem_filter, Bool.not_eq_true', decide_eq_false_iff_not] at hp
  · exact lt_of_le_of_ne (hmono (hpair p hp.1).le) (Ne.symm hp.2)
  · -- a pair between two of one key has that key
    refine hrest.imp_of_mem fun hx _ hlt heq => decide_eq_true (le_antisymm ?_ ?_)
    · exact (hmono hlt.le).trans (of_decide_eq_true heq).le
    · exact hmono (hpair _ hx).le

/-- **The runs of sorted pairs** are the inverted map of the pairs. -/
theorem TrigramInverter.runs_inverts {fuel : ℕ} {pairs : List ℕ} (hfuel : pairs.length ≤ fuel)
    (h : pairs.Pairwise (· < ·)) :
    Inverts (fun k d => ∃ p ∈ pairs, p >>> 32 = k ∧ p % 2 ^ 32 = d) (runs fuel pairs) := by
  induction fuel generalizing pairs with
  | zero =>
    obtain rfl := length_eq_zero_iff.mp (Nat.le_zero.mp hfuel)
    exact Inverts.nil fun k d ⟨p, hp, _⟩ => by cases hp
  | succ fuel ih =>
    cases pairs with
    | nil => exact Inverts.nil fun k d ⟨p, hp, _⟩ => by cases hp
    | cons pair rest =>
      set same := rest.takeWhile fun p => decide (p >>> 32 = pair >>> 32) with hsame
      set others := rest.dropWhile fun p => decide (p >>> 32 = pair >>> 32) with hothers
      have hsplit : rest = same ++ others := takeWhile_append_dropWhile.symm
      have hkeys : ∀ p ∈ pair :: same, p >>> 32 = pair >>> 32 := by
        refine forall_mem_cons.mpr ⟨rfl, fun p hp => ?_⟩
        have himp : decide (p >>> 32 = pair >>> 32) = true :=
          mem_takeWhile_imp (p := fun p => decide (p >>> 32 = pair >>> 32)) hp
        exact of_decide_eq_true himp
      have hlater : ∀ p ∈ others, pair >>> 32 < p >>> 32 := fun p hp => lt_of_mem_dropWhile h hp
      have hlen : others.length ≤ fuel := by
        have := congrArg List.length hsplit
        rw [length_append] at this
        rw [length_cons] at hfuel
        omega
      have hrun : (pair :: same).Pairwise (· < ·) ∧ others.Pairwise (· < ·) := by
        rw [hsplit, ← cons_append] at h
        obtain ⟨h₁, h₂, -⟩ := pairwise_append.mp h
        exact ⟨h₁, h₂⟩
      -- pairs of one key are ordered by their documents
      have hdocs : ((pair :: same).map (· % 2 ^ 32)).Pairwise (· < ·) := by
        refine pairwise_map.mpr (hrun.1.imp_of_mem fun {p q} hp hq hpq => ?_)
        have hpk := hkeys p hp
        have hqk := hkeys q hq
        rw [Nat.shiftRight_eq_div_pow, Nat.shiftRight_eq_div_pow] at hpk hqk
        omega
      have hruns := ih hlen hrun.2
      have hcons := hruns.cons (k := pair >>> 32) (fun p hp => by
        obtain ⟨d, hd⟩ := exists_mem_of_ne_nil _ (hruns.ne_nil p hp)
        obtain ⟨x, hx, hxk, -⟩ := (hruns.held p.1 d).mpr ⟨p.2, hp, hd⟩
        rw [← hxk]
        exact hlater x hx) (by simp) hdocs
      refine hcons.congr fun k d => ?_
      rw [mem_map]
      constructor
      · rintro (⟨rfl, p, hp, hd⟩ | ⟨p, hp, hk, hd⟩)
        · refine ⟨p, ?_, hkeys p hp, hd⟩
          rw [hsplit, ← cons_append]
          exact mem_append_left _ hp
        · refine ⟨p, ?_, hk, hd⟩
          rw [hsplit, ← cons_append]
          exact mem_append_right _ hp
      · rintro ⟨p, hp, hk, hd⟩
        rw [hsplit, ← cons_append] at hp
        rcases mem_append.mp hp with hp | hp
        · exact .inl ⟨hk.symm.trans (hkeys p hp), p, hp, hd⟩
        · exact .inr ⟨p, hp, hk, hd⟩

/-! ## What was added -/

/-- A window of a document, folded. -/
def Folded (bytes t : Bytes) : Prop := ∃ a b c, [a, b, c] <:+: bytes ∧ t = trigram_key a b c

theorem number_of_lt (a b c : UInt8) : KeySet.number_of a b c < 2 ^ 24 := by
  have ha := (fold a).toNat_lt
  have hb := (fold b).toNat_lt
  have hc := (fold c).toNat_lt
  rw [KeySet.number_of]
  omega

/-- The bytes of a window's number are its key. -/
theorem key_bytes_number_of (a b c : UInt8) :
    key_bytes (KeySet.number_of a b c) = trigram_key a b c := by
  have ha := (fold a).toNat_lt
  have hb := (fold b).toNat_lt
  have hc := (fold c).toNat_lt
  have hbyte : ∀ {n : ℕ} {x : UInt8}, n % 256 = x.toNat → UInt8.ofNat n = x := by
    intro n x h
    rw [← UInt8.toNat_inj, UInt8.toNat_ofNat']
    exact h
  rw [key_bytes, trigram_key, KeySet.number_of]
  rw [hbyte (x := fold a) (by norm_num; omega), hbyte (x := fold b) (by norm_num; omega),
    hbyte (x := fold c) (by omega)]

/-- Keys are ordered as their numbers. -/
theorem key_bytes_lt {j k : ℕ} (hk : k < 2 ^ 24) (h : j < k) : key_bytes j < key_bytes k := by
  have hlt : ∀ {m n : ℕ}, UInt8.ofNat m < UInt8.ofNat n ↔ m % 256 < n % 256 := by
    intro m n
    rw [UInt8.lt_iff_toNat_lt, UInt8.toNat_ofNat', UInt8.toNat_ofNat']
  have heq : ∀ {m n : ℕ}, m % 256 = n % 256 → UInt8.ofNat m = UInt8.ofNat n := by
    intro m n h
    rw [← UInt8.toNat_inj, UInt8.toNat_ofNat', UInt8.toNat_ofNat']
    exact h
  rw [key_bytes, key_bytes, cons_lt_cons_iff, cons_lt_cons_iff, cons_lt_cons_iff, hlt, hlt, hlt]
  norm_num at hk ⊢
  rcases lt_trichotomy (j / 65536 % 256) (k / 65536 % 256) with h₁ | h₁ | h₁
  · exact .inl h₁
  · refine .inr ⟨heq h₁, ?_⟩
    rcases lt_trichotomy (j / 256 % 256) (k / 256 % 256) with h₂ | h₂ | h₂
    · exact .inl h₂
    · exact .inr ⟨heq h₂, by omega⟩
    · omega
  · omega

namespace TrigramInverter

/-- Adds documents, one after another. -/
def addAll (i : TrigramInverter) (documents : List (ℕ × Bytes)) :
    Except WriteError TrigramInverter :=
  documents.foldlM (fun i p => i.add p.1 p.2) i

/-- What an inverter has after some documents. -/
structure Added (documents : List (ℕ × Bytes)) (i : TrigramInverter) : Prop where
  cleared : ∀ k, i.keys.has k = false
  last : i.last = documents.getLast?.map Prod.fst
  pairs : ∀ p, p ∈ i.pairs ↔
    ∃ doc bytes, (doc, bytes) ∈ documents ∧ ∃ k ∈ KeySet.numbers bytes, p = pack k doc
  sorted : i.pairs.Pairwise fun p q => p >>> 32 = q >>> 32 → p < q

theorem new_added : new.Added [] where
  cleared := fun k => by simp [new, KeySet.new, KeySet.has]
  last := rfl
  pairs := fun p => ⟨nofun, fun ⟨_, _, h, _⟩ => by cases h⟩
  sorted := .nil

variable {documents : List (ℕ × Bytes)}

/-- **Documents in order are all taken.** -/
theorem addAll_added (h : documents.Pairwise fun p q => p.1 < q.1)
    (hdocs : ∀ p ∈ documents, p.1 < 2 ^ 32) :
    ∃ i, new.addAll documents = .ok i ∧ i.Added documents := by
  induction documents using List.reverseRecOn with
  | nil => exact ⟨new, rfl, new_added⟩
  | append_singleton documents p ih =>
    obtain ⟨doc, bytes⟩ := p
    obtain ⟨hinit, -, hlt⟩ := pairwise_append.mp h
    obtain ⟨i, hi, hadded⟩ := ih hinit fun q hq => hdocs q (mem_append_left _ hq)
    have hdoc : doc < 2 ^ 32 := hdocs (doc, bytes) (by simp)
    have hbelow : ∀ q ∈ documents, q.1 < doc := fun q hq =>
      hlt q hq (doc, bytes) (mem_singleton_self _)
    obtain ⟨hclear, hnodup, hmem⟩ := KeySet.distinct_spec hadded.cleared bytes
    set found := (i.keys.distinct bytes).2 with hfound
    set keys := (i.keys.distinct bytes).1 with hkeys
    have hlast : i.last.any (doc ≤ ·) = false := by
      rw [hadded.last]
      cases hl : documents.getLast? with
      | none => rfl
      | some q => exact decide_eq_false (not_le.mpr (hbelow q (mem_of_getLast? hl)))
    have hadd : i.add doc bytes = .ok {
        pairs := i.pairs ++ found.map (pack · doc), keys := keys, last := some doc } := by
      have hstep : add_keys { i with keys := keys } doc found none = .ok (some {
          pairs := i.pairs ++ found.map (pack · doc), keys := keys, last := some doc }) := by
        rw [add_keys, if_neg (by rw [hlast]; exact Bool.false_ne_true), if_neg (by simp)]
      unfold add
      simp only [bind, Except.bind, ← hfound, ← hkeys, hstep]
    refine ⟨{ pairs := i.pairs ++ found.map (pack · doc), keys := keys, last := some doc },
      ?_, hclear, ?_, fun p => ?_, ?_⟩
    · unfold addAll at hi ⊢
      rw [foldlM_append, hi]
      simp only [bind, Except.bind, foldlM_cons, foldlM_nil, hadd, pure, Except.pure]
    · rw [getLast?_concat]
      rfl
    · show p ∈ i.pairs ++ found.map (pack · doc) ↔ _
      rw [mem_append, mem_map, hadded.pairs]
      constructor
      · rintro (⟨d, b, hd, hk⟩ | ⟨k, hk, rfl⟩)
        · exact ⟨d, b, mem_append_left _ hd, hk⟩
        · exact ⟨doc, bytes, by simp, k, (hmem k).mp hk, rfl⟩
      · rintro ⟨d, b, hd, k, hk, rfl⟩
        rcases mem_append.mp hd with hd | hd
        · exact .inl ⟨d, b, hd, k, hk, rfl⟩
        · obtain ⟨rfl, rfl⟩ := Prod.mk.inj (mem_singleton.mp hd)
          exact .inr ⟨k, (hmem k).mpr hk, rfl⟩
    · refine pairwise_append.mpr ⟨hadded.sorted, pairwise_map.mpr ?_, ?_⟩
      · refine hnodup.imp fun {j k} hne heq => absurd ?_ hne
        rwa [pack_key hdoc, pack_key hdoc] at heq
      · -- an earlier pair of the same key has an earlier document
        intro p hp q hq hkey
        obtain ⟨d, b, hd, k, -, rfl⟩ := (hadded.pairs p).mp hp
        obtain ⟨_, -, rfl⟩ := mem_map.mp hq
        have hlt := hbelow (d, b) hd
        have hd32 : d < 2 ^ 32 := hlt.trans hdoc
        rw [pack_key hd32, pack_key hdoc] at hkey
        rw [pack_eq hd32, pack_eq hdoc, hkey]
        exact Nat.add_lt_add_left hlt _

/-- **What is drained is the inverted map of the documents' folded windows.** -/
theorem Added.entries_inverts {i : TrigramInverter} (h : i.Added documents)
    (hdocs : ∀ p ∈ documents, p.1 < 2 ^ 32) :
    Inverts (fun t d => ∃ bytes, (d, bytes) ∈ documents ∧ Folded bytes t) i.entries := by
  have hnumber : ∀ {bytes : Bytes} {k : ℕ}, k ∈ KeySet.numbers bytes → k < 2 ^ 24 := by
    intro bytes k hk
    obtain ⟨a, b, c, -, rfl⟩ := KeySet.mem_numbers.mp hk
    exact number_of_lt a b c
  have hkeys : ∀ p ∈ i.pairs, p >>> 32 < 2 ^ 24 := by
    intro p hp
    obtain ⟨d, b, hd, k, hk, rfl⟩ := (h.pairs p).mp hp
    rw [pack_key (hdocs _ hd)]
    exact hnumber hk
  obtain ⟨hperm, hsorted⟩ := sorted_spec hkeys h.sorted
  have hruns := runs_inverts hperm.length_eq.le hsorted
  have hbelow : ∀ p ∈ runs i.pairs.length i.sorted, p.1 < 2 ^ 24 := by
    intro p hp
    obtain ⟨d, hd⟩ := exists_mem_of_ne_nil _ (hruns.ne_nil p hp)
    obtain ⟨x, hx, hxk, -⟩ := (hruns.held p.1 d).mpr ⟨p.2, hp, hd⟩
    rw [← hxk]
    exact hkeys x (hperm.mem_iff.mp hx)
  have hbytes := hruns.map key_bytes fun p _ q hq hlt => key_bytes_lt (hbelow q hq) hlt
  refine hbytes.congr fun t d => ?_
  constructor
  · rintro ⟨k, rfl, p, hp, rfl, rfl⟩
    obtain ⟨d, bytes, hd, k, hk, rfl⟩ := (h.pairs p).mp (hperm.mem_iff.mp hp)
    obtain ⟨a, b, c, hinfix, rfl⟩ := KeySet.mem_numbers.mp hk
    rw [pack_key (hdocs _ hd), pack_doc (hdocs _ hd), key_bytes_number_of]
    exact ⟨bytes, hd, a, b, c, hinfix, rfl⟩
  · rintro ⟨bytes, hd, a, b, c, hinfix, rfl⟩
    refine ⟨KeySet.number_of a b c, key_bytes_number_of a b c, pack (KeySet.number_of a b c) d,
      hperm.mem_iff.mpr ((h.pairs _).mpr ⟨d, bytes, hd, _, KeySet.mem_numbers.mpr
        ⟨a, b, c, hinfix, rfl⟩, rfl⟩), pack_key (hdocs _ hd), pack_doc (hdocs _ hd)⟩

end TrigramInverter

/-- **Inverters build the inverted map.** Pairs of a document and a term, the
documents never descending, are all taken; on any number of threads and from any
order of the table the drain's sort is the plain sort, and what it pushes is the
inverted map of the pairs, which a writer over their documents takes. Documents
in ascending order are all taken as trigrams too, and the drain pushes the
inverted map of their folded windows. -/
theorem inverters_invert :
    (∀ adds : List (ℕ × Bytes), (adds.Pairwise fun p q => p.1 ≤ q.1) →
      ∃ i, Inverter.new.addAll adds = .ok i ∧ ∀ (available : ℕ) (iter : IntoIter),
        sort_terms available (iter.order i.terms)
            = (iter.order i.terms).mergeSort (fun a b => decide (a.1 ≤ b.1))
          ∧ Inverts (fun t d => (d, t) ∈ adds) (i.entries available iter)
          ∧ ∀ (fingerprint : Bytes → ℕ) (first last : ℕ) (codec : Codec) (w : Draft),
            Draft.build first last codec = .ok w → (∀ p ∈ adds, first ≤ p.1 ∧ p.1 ≤ last) →
            i.drain fingerprint available iter w
              = .ok (w.pushed_terms fingerprint (i.entries available iter)))
    ∧ ∀ documents : List (ℕ × Bytes), (documents.Pairwise fun p q => p.1 < q.1) →
      (∀ p ∈ documents, p.1 < docLimit) →
      ∃ i, TrigramInverter.new.addAll documents = .ok i
        ∧ Inverts (fun t d => ∃ bytes, (d, bytes) ∈ documents ∧ Folded bytes t) i.entries
        ∧ ∀ (fingerprint : Bytes → ℕ) (first last : ℕ) (w : Draft),
          Draft.build first last .dictionary = .ok w →
          (∀ p ∈ documents, first ≤ p.1 ∧ p.1 ≤ last) →
          i.drain fingerprint w = .ok (w.pushed_terms fingerprint i.entries) := by
  constructor
  · intro adds hadds
    obtain ⟨i, hi, hadded⟩ := Inverter.addAll_added hadds
    refine ⟨i, hi, fun available iter => ?_⟩
    have hentries := hadded.entries_inverts available iter
    refine ⟨sort_terms_eq available (hadded.order_nodup iter), hentries, ?_⟩
    exact fun fingerprint first last codec w hbuild hin =>
      push_inverted hentries fingerprint hbuild fun t d hd => hin (d, t) hd
  · intro documents hdocuments hdocs
    obtain ⟨i, hi, hadded⟩ := TrigramInverter.addAll_added hdocuments hdocs
    have hentries := hadded.entries_inverts hdocs
    exact ⟨i, hi, hentries, fun fingerprint first last w hbuild hin =>
      push_inverted hentries fingerprint hbuild fun t d ⟨bytes, hd, _⟩ => hin (d, bytes) hd⟩

/-- Two documents, of which the second repeats a term; and three for their
windows, one of them too short for any. -/
theorem inverters_invert_sample :
    (∃ i, Inverter.new.addAll [(3, [98]), (3, [97]), (5, [97]), (5, [97])] = .ok i
      ∧ Inverts (fun t d => (d, t) ∈ [(3, [98]), (3, [97]), (5, [97]), (5, [97])])
        (i.entries 8 ⟨id, fun _ => List.Perm.refl _⟩))
    ∧ ∃ i, TrigramInverter.new.addAll [(1, [65, 98, 99, 97, 66, 67]), (2, [97]), (4, [97, 98, 99])]
        = .ok i
      ∧ Inverts (fun t d => ∃ bytes, (d, bytes) ∈
          [(1, [65, 98, 99, 97, 66, 67]), (2, [97]), (4, [97, 98, 99])] ∧ Folded bytes t)
        i.entries := by
  obtain ⟨i, hi, h⟩ := inverters_invert.1 [(3, [98]), (3, [97]), (5, [97]), (5, [97])] (by decide)
  obtain ⟨j, hj, h', -⟩ := inverters_invert.2
    [(1, [65, 98, 99, 97, 66, 67]), (2, [97]), (4, [97, 98, 99])] (by decide) (by decide)
  exact ⟨⟨i, hi, (h 8 ⟨id, fun _ => List.Perm.refl _⟩).2.1⟩, j, hj, h'⟩

end Ferret.Inversion
