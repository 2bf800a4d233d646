import Ferret.Index.Bytes

/-!
# Capped terms

An index stores at most `MAX_TOKEN_BYTES` of a token, cut where a character
ends. A stored term shorter by one character's bytes was not cut, so it stands
for one token only.
-/

namespace Ferret.Text

open List

def MAX_TOKEN_BYTES : ℕ := 64

/-- Whether a byte goes on with a character. -/
def continues (b : UInt8) : Bool := b &&& 0xc0 == 0x80

/-- Where a cut at most there is between two characters. -/
def boundary (token : Bytes) : ℕ → ℕ
  | 0 => 0
  | cut + 1 => if token[cut + 1]?.any continues then boundary token cut else cut + 1

/-- The longest prefix of a token of at most `MAX_TOKEN_BYTES` that ends on a character boundary. -/
def cap (token : Bytes) : Bytes := token.take (boundary token (min token.length MAX_TOKEN_BYTES))

/-- Whether a stored term equal to the token's can only have come from it. -/
def exact_under_cap (token : Bytes) : Bool := decide (token.length < MAX_TOKEN_BYTES - 3)

/-- The bytes of a text. -/
def utf8 (text : List Char) : Bytes := text.flatMap String.utf8EncodeChar

variable {text : List Char}

theorem continues_ofNat : ∀ n < 256,
    continues (UInt8.ofNat n) = (decide (128 ≤ n) && decide (n < 192)) := by
  decide +kernel

/-- A character is one byte that starts it and at most three that go on with it. -/
theorem encoded (c : Char) : ∃ first more, String.utf8EncodeChar c = first :: more ∧
    continues first = false ∧ (∀ b ∈ more, continues b = true) ∧ more.length ≤ 3 := by
  have hfirst : ∀ n < 256, n < 128 ∨ 192 ≤ n → continues (UInt8.ofNat n) = false := fun n hn h => by
    rw [continues_ofNat n hn, Bool.and_eq_false_iff, decide_eq_false_iff_not,
      decide_eq_false_iff_not]
    omega
  have hmore : ∀ n, continues (UInt8.ofNat (n % 64 + 0x80)) = true := fun n => by
    rw [continues_ofNat _ (by omega), Bool.and_eq_true, decide_eq_true_eq, decide_eq_true_eq]
    omega
  have hcons : ∀ n {bs}, (∀ b ∈ bs, continues b = true) →
      ∀ b ∈ UInt8.ofNat (n % 64 + 0x80) :: bs, continues b = true :=
    fun n _ h => forall_mem_cons.mpr ⟨hmore n, h⟩
  have hnil := forall_mem_nil fun b => continues b = true
  unfold String.utf8EncodeChar
  generalize c.val.toNat = v
  dsimp only
  split_ifs
  · exact ⟨_, _, rfl, hfirst _ (by omega) (by omega), hnil, by simp⟩
  · exact ⟨_, _, rfl, hfirst _ (by omega) (by omega), hcons _ hnil, by simp⟩
  · exact ⟨_, _, rfl, hfirst _ (by omega) (by omega), hcons _ (hcons _ hnil), by simp⟩
  · exact ⟨_, _, rfl, hfirst _ (by omega) (by omega), hcons _ (hcons _ (hcons _ hnil)), by simp⟩

/-- A cut within a character goes back to where it starts. -/
theorem boundary_within {before after more : Bytes} {first : UInt8}
    (hfirst : continues first = false) (hmore : ∀ b ∈ more, continues b = true) {k : ℕ}
    (hk : k ≤ more.length) :
    boundary (before ++ (first :: more ++ after)) (before.length + k) = before.length := by
  induction k with
  | zero =>
    cases hbefore : before.length with
    | zero => rfl
    | succ _ =>
      rw [add_zero, boundary, ← hbefore, getElem?_append_right (le_refl _), Nat.sub_self,
        cons_append, getElem?_cons_zero, Option.any_some, hfirst,
        if_neg nofun]
  | succ k ih =>
    have hget : (before ++ (first :: more ++ after))[before.length + k + 1]? = some more[k] := by
      rw [add_assoc, getElem?_append_right (le_self_add), Nat.add_sub_cancel_left,
        cons_append, getElem?_cons_succ, getElem?_append_left hk,
        getElem?_eq_getElem hk]
    rw [← add_assoc, boundary, hget, Option.any_some, if_pos (hmore _ (getElem_mem hk))]
    exact ih (Nat.le_of_succ_le hk)

/-- A token's length is a boundary. -/
theorem boundary_length (token : Bytes) : boundary token token.length = token.length := by
  cases h : token.length with
  | zero => rfl
  | succ n =>
    rw [boundary, getElem?_eq_none (by omega), Option.any_none, if_neg Bool.false_ne_true]

/-- A place in a text's bytes is in one of its characters. -/
theorem exists_character {cut : ℕ} (h : cut < (utf8 text).length) : ∃ p c s, text = p ++ c :: s ∧
    (utf8 p).length ≤ cut ∧ cut < (utf8 p).length + (String.utf8EncodeChar c).length := by
  induction text generalizing cut with
  | nil => exact absurd h (not_lt_zero)
  | cons c text ih =>
    rcases lt_or_ge cut (String.utf8EncodeChar c).length with hlt | _
    · exact ⟨[], c, text, rfl, Nat.zero_le _, by rwa [utf8, flatMap_nil, length_nil, Nat.zero_add]⟩
    · rw [utf8, flatMap_cons, length_append] at h
      obtain ⟨p, d, s, rfl, _, hlt⟩ := @ih (cut - (String.utf8EncodeChar c).length) (by
        rw [utf8]
        omega)
      refine ⟨c :: p, d, s, rfl, ?_, ?_⟩ <;>
      · rw [utf8, flatMap_cons, length_append, ← utf8]
        omega

/-- **A capped token is a text's whole characters**, and a cut leaves more than 60 bytes. -/
theorem cap_utf8 (text : List Char) : ∃ p s, text = p ++ s ∧ cap (utf8 text) = utf8 p ∧
    (s ≠ [] → MAX_TOKEN_BYTES - 3 ≤ (utf8 p).length) := by
  rcases lt_or_ge MAX_TOKEN_BYTES (utf8 text).length with hlong | hshort
  · obtain ⟨p, c, s, rfl, hle, hlt⟩ := exists_character hlong
    obtain ⟨first, more, henc, hfirst, hmore, _⟩ := encoded c
    obtain ⟨k, hk⟩ := Nat.exists_eq_add_of_le hle
    have htoken : utf8 (p ++ c :: s) = utf8 p ++ (first :: more ++ utf8 s) := by
      rw [utf8, flatMap_append, flatMap_cons, henc]
      rfl
    rw [henc, length_cons] at hlt
    refine ⟨p, c :: s, rfl, ?_, fun _ => by omega⟩
    rw [cap, min_eq_right hlong.le, hk, htoken, boundary_within hfirst hmore (by omega),
      take_left' rfl]
  · refine ⟨text, [], (append_nil _).symm, ?_, fun h => absurd rfl h⟩
    rw [cap, min_eq_left hshort, boundary_length, take_length]

/-- A token that is short enough is stored as it is. -/
theorem cap_short {p s : List Char} (hlen : (utf8 p).length < MAX_TOKEN_BYTES - 3)
    (hcut : s ≠ [] → MAX_TOKEN_BYTES - 3 ≤ (utf8 p).length) : s = [] := by
  by_contra hs
  exact absurd hlen (not_lt.mpr (hcut hs))

/-- **A term that is exact under the cap is proof of its token**, and no cap splits a character. -/
theorem cap_exact :
    (∀ text, ∃ p, p <+: text ∧ cap (utf8 text) = utf8 p) ∧
      ∀ q t : List Char, exact_under_cap (utf8 q) = true → cap (utf8 t) = cap (utf8 q) →
        utf8 t = utf8 q := by
  refine ⟨fun text => ?_, fun q t hexact hcap => ?_⟩
  · obtain ⟨p, s, rfl, hcap, -⟩ := cap_utf8 text
    exact ⟨p, prefix_append _ _, hcap⟩
  · obtain ⟨p, s, rfl, hq, hcut⟩ := cap_utf8 q
    obtain ⟨_, _, rfl, ht, hcut'⟩ := cap_utf8 t
    rw [exact_under_cap, decide_eq_true_eq] at hexact
    have hp : (utf8 p).length < MAX_TOKEN_BYTES - 3 := by
      rw [utf8, flatMap_append, length_append] at hexact
      exact lt_of_le_of_lt (le_self_add) hexact
    rw [ht, hq] at hcap
    obtain rfl := cap_short hp hcut
    obtain rfl := cap_short (hcap ▸ hp) hcut'
    rw [append_nil, append_nil, hcap]

end Ferret.Text
