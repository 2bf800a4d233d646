import Ferret.Find.Glob

/-!
# What a scan finds

A scan keeps one alternative, that of its last star. The others are lost, and
none is missed: where an earlier star would take more and its tokens still
match, they reach the last star again, only later in the text, and that star
can take the bytes between. So at each turn the text matches exactly when what
is left of the tokens spans what is left of the text, or the last star gets
there with more bytes (`Answer`); a turn keeps that (`turn_more`, `turn_done`).

A scan ends. Each turn passes a star for good, takes a byte more for the last
one, or goes on to the next token (`weight`).
-/

namespace Ferret.Find

open Ferret.Lib List

variable {p : Pattern} {text : Arg} {c c' : Cursor}

/-- What a cursor says of itself: it is in bounds, and from the last star on
each token but stars has passed one byte. -/
structure Cursor.Good (p : Pattern) (text : Arg) (c : Cursor) : Prop where
  token_le : c.token ≤ p.tokens.length
  byte_le : c.byte ≤ text.length
  star : ∀ resume consumed, c.star = some (resume, consumed) →
    0 < resume ∧ ∃ passed : List Token, (∀ t ∈ passed, t.isStar = false) ∧
      p.tokens.drop resume = passed ++ p.tokens.drop c.token ∧
      resume + passed.length = c.token ∧ consumed + passed.length = c.byte

/-- **What a scan will find**: the rest of the tokens spans the rest of the
text, or the last star finds it with more bytes. -/
def Cursor.Answer (p : Pattern) (text : Arg) (c : Cursor) : Prop :=
  (wildcard p.fold).Spans (p.tokens.drop c.token) (text.drop c.byte) ∨
    ∃ resume consumed, c.star = some (resume, consumed) ∧
      ∃ n, consumed < n ∧ n ≤ text.length ∧
        (wildcard p.fold).Spans (p.tokens.drop resume) (text.drop n)

/-- The turns that may still come. -/
def Cursor.weight (p : Pattern) (text : Arg) (c : Cursor) : ℕ :=
  let (resume, consumed) := c.star.getD (0, 0)
  ((p.tokens.length - resume) * (text.length + 1) + (text.length - consumed))
    * (p.tokens.length + 1) + (p.tokens.length - c.token)

/-! ## Stars and positions -/

/-- A star finds the rest of its tokens at some later position. -/
theorem spans_star_drop {fold : Bool} {t : Token} {ts : List Token} (ht : t.isStar = true)
    {n : ℕ} (hn : n ≤ text.length) :
    (wildcard fold).Spans (t :: ts) (text.drop n) ↔
      ∃ k, n ≤ k ∧ k ≤ text.length ∧ (wildcard fold).Spans ts (text.drop k) := by
  rw [Wildcard.spans_star_iff ht]
  constructor
  · rintro ⟨run, _, hsplit, hrest⟩
    have hlen := congrArg List.length hsplit
    rw [length_drop, length_append] at hlen
    refine ⟨n + run.length, le_self_add, by omega, ?_⟩
    rwa [← drop_drop, hsplit, drop_left]
  · rintro ⟨k, hnk, -, hrest⟩
    refine ⟨(text.drop n).take (k - n), text.drop k, ?_, hrest⟩
    have hk : text.drop k = (text.drop n).drop (k - n) := by
      rw [drop_drop, Nat.add_sub_cancel' hnk]
    rw [hk, take_append_drop]

/-- Tokens without a star pass as many bytes. -/
theorem spans_passed {fold : Bool} {passed ts : List Token}
    (hpassed : ∀ t ∈ passed, t.isStar = false) {n : ℕ} (hn : n ≤ text.length)
    (h : (wildcard fold).Spans (passed ++ ts) (text.drop n)) :
    n + passed.length ≤ text.length ∧
      (wildcard fold).Spans ts (text.drop (n + passed.length)) := by
  obtain ⟨left, _, hsplit, hleft, _⟩ := Wildcard.spans_append_iff.mp h
  have hlength : passed.length = left.length :=
    ((Wildcard.spans_iff_forall hpassed).mp hleft).length_eq
  have hlen := congrArg List.length hsplit
  rw [length_drop, length_append] at hlen
  refine ⟨by omega, ?_⟩
  rwa [← drop_drop, hsplit, hlength, drop_left]

/-! ## One turn -/

/-- Where the tokens and bytes at a cursor fail, only the last star is left. -/
theorem retry_answer (hgood : c.Good p text)
    (hfail : ¬ (wildcard p.fold).Spans (p.tokens.drop c.token) (text.drop c.byte)) :
    (∀ c', c.retry text = .more c' →
      c'.Good p text ∧ (c'.Answer p text ↔ c.Answer p text) ∧ c'.weight p text < c.weight p text) ∧
    ∀ found, c.retry text = .done found → (found = true ↔ c.Answer p text) := by
  obtain ⟨token, byte, star⟩ := c
  cases star with
  | none =>
    have hnone : ¬ Cursor.Answer p text ⟨token, byte, none⟩ := by
      rintro (h | ⟨_, _, h, -⟩)
      · exact hfail h
      · exact absurd h (by simp)
    refine ⟨fun c' h => (by cases h), fun found h => ?_⟩
    cases h
    exact iff_of_false (by simp) hnone
  | some star =>
    obtain ⟨resume, consumed⟩ := star
    obtain ⟨hpos, _, _, _, htoken, _⟩ := hgood.star resume consumed rfl
    have hresume : resume ≤ p.tokens.length := by
      have := hgood.token_le
      show resume ≤ _
      simp only at htoken this
      omega
    by_cases hroom : consumed < text.length
    · have hretry : Cursor.retry text ⟨token, byte, some (resume, consumed)⟩
          = .more ⟨resume, consumed + 1, some (resume, consumed + 1)⟩ := if_pos hroom
      rw [hretry]
      refine ⟨fun c' h => ?_, fun found h => (by cases h)⟩
      cases h
      refine ⟨⟨hresume, hroom, ?_⟩, ?_, ?_⟩
      · rintro _ _ ⟨⟩
        exact ⟨hpos, [], by simp, rfl, rfl, rfl⟩
      · constructor
        · rintro (h | ⟨_, _, ⟨⟩, n, hlt, hle, h⟩)
          · exact .inr ⟨resume, consumed, rfl, consumed + 1, Nat.lt_succ_self _, hroom, h⟩
          · exact .inr ⟨resume, consumed, rfl, n, Nat.lt_of_succ_lt hlt, hle, h⟩
        · rintro (h | ⟨_, _, ⟨⟩, n, hlt, hle, h⟩)
          · exact absurd h hfail
          · -- one byte more is the new place, more than one are left to the star
            rcases Nat.eq_or_lt_of_le (Nat.succ_le_of_lt hlt) with rfl | hmore
            · exact .inl h
            · exact .inr ⟨resume, consumed + 1, rfl, n, hmore, hle, h⟩
      · show ((p.tokens.length - resume) * (text.length + 1) + (text.length - (consumed + 1)))
            * (p.tokens.length + 1) + (p.tokens.length - resume)
          < ((p.tokens.length - resume) * (text.length + 1) + (text.length - consumed))
            * (p.tokens.length + 1) + (p.tokens.length - token)
        have hless : text.length - consumed = text.length - (consumed + 1) + 1 := by omega
        rw [hless, ← add_assoc, Nat.succ_mul]
        omega
    · have hretry : Cursor.retry text ⟨token, byte, some (resume, consumed)⟩ = .done false :=
        if_neg hroom
      rw [hretry]
      refine ⟨fun c' h => (by cases h), fun found h => ?_⟩
      cases h
      refine iff_of_false (by simp) ?_
      rintro (h | ⟨_, _, ⟨⟩, n, hlt, hle, -⟩)
      · exact hfail h
      · omega

/-- A star stands for what it can take, and the one before it is not missed:
what it would take leads past this one. -/
theorem star_answer {t : Token} (hgood : c.Good p text)
    (hdrop : p.tokens.drop c.token = t :: p.tokens.drop (c.token + 1)) (hstar : t.isStar = true) :
    Cursor.Answer p text ⟨c.token + 1, c.byte, some (c.token + 1, c.byte)⟩ ↔ c.Answer p text := by
  have htaken : Cursor.Answer p text ⟨c.token + 1, c.byte, some (c.token + 1, c.byte)⟩ ↔
      (wildcard p.fold).Spans (p.tokens.drop c.token) (text.drop c.byte) := by
    rw [hdrop, spans_star_drop hstar hgood.byte_le]
    constructor
    · rintro (h | ⟨_, _, ⟨⟩, n, hlt, hle, h⟩)
      · exact ⟨c.byte, le_rfl, hgood.byte_le, h⟩
      · exact ⟨n, hlt.le, hle, h⟩
    · rintro ⟨n, hge, hle, h⟩
      rcases Nat.eq_or_lt_of_le hge with rfl | hlt
      · exact .inl h
      · exact .inr ⟨_, _, rfl, n, hlt, hle, h⟩
  rw [htaken]
  constructor
  · exact .inl
  · rintro (h | ⟨resume, consumed, hlast, n, hlt, hle, h⟩)
    · exact h
    · obtain ⟨-, _, hpassed, htokens, -, _⟩ := hgood.star resume consumed hlast
      rw [htokens] at h
      obtain ⟨hend, h⟩ := spans_passed hpassed hle h
      rw [hdrop, spans_star_drop hstar hend] at h
      obtain ⟨k, hge, hk, h⟩ := h
      rw [hdrop, spans_star_drop hstar hgood.byte_le]
      exact ⟨k, by omega, hk, h⟩

theorem star_weight (hgood : c.Good p text) (hlt : c.token < p.tokens.length) :
    Cursor.weight p text ⟨c.token + 1, c.byte, some (c.token + 1, c.byte)⟩ < c.weight p text := by
  obtain ⟨resume, consumed, hlast, hresume⟩ : ∃ resume consumed,
      c.star.getD (0, 0) = (resume, consumed) ∧ resume ≤ c.token := by
    cases hstar : c.star with
    | none => exact ⟨0, 0, rfl, Nat.zero_le _⟩
    | some star =>
      obtain ⟨-, _, -, -, hresume, -⟩ := hgood.star star.1 star.2 hstar
      exact ⟨star.1, star.2, rfl, by omega⟩
  have hweight : c.weight p text =
      ((p.tokens.length - resume) * (text.length + 1) + (text.length - consumed))
        * (p.tokens.length + 1) + (p.tokens.length - c.token) := by
    rw [Cursor.weight, hlast]
  rw [hweight]
  show ((p.tokens.length - (c.token + 1)) * (text.length + 1) + (text.length - c.byte))
      * (p.tokens.length + 1) + (p.tokens.length - (c.token + 1)) < _
  have hfewer : (p.tokens.length - (c.token + 1) + 1) * (text.length + 1)
      ≤ (p.tokens.length - resume) * (text.length + 1) :=
    Nat.mul_le_mul_right _ (by omega)
  have hrow : (p.tokens.length - (c.token + 1)) * (text.length + 1) + (text.length - c.byte) + 1
      ≤ (p.tokens.length - resume) * (text.length + 1) + (text.length - consumed) := by
    rw [Nat.succ_mul] at hfewer
    omega
  have hrows := Nat.mul_le_mul_right (p.tokens.length + 1) hrow
  rw [Nat.succ_mul] at hrows
  omega

/-- **A turn keeps the answer** and comes nearer to the end; the last one gives it. -/
theorem turn_answer (hgood : c.Good p text) :
    (∀ c', p.turn text c = .more c' →
      c'.Good p text ∧ (c'.Answer p text ↔ c.Answer p text) ∧ c'.weight p text < c.weight p text) ∧
    ∀ found, p.turn text c = .done found → (found = true ↔ c.Answer p text) := by
  cases htoken : p.tokens[c.token]? with
  | none =>
    have hend : p.tokens.drop c.token = [] :=
      drop_eq_nil_of_le (List.getElem?_eq_none_iff.mp htoken)
    by_cases hbyte : c.byte = text.length
    · have hturn : p.turn text c = .done true := by
        simp only [Pattern.turn, htoken, hbyte, if_true]
      rw [hturn]
      refine ⟨fun c' h => (by cases h), fun found h => ?_⟩
      cases h
      refine iff_of_true rfl (.inl ?_)
      rw [hend, hbyte, drop_length]
      exact .nil
    · have hturn : p.turn text c = c.retry text := by
        simp only [Pattern.turn, htoken, hbyte, if_false]
      rw [hturn]
      refine retry_answer hgood fun h => hbyte ?_
      rw [hend, Wildcard.spans_nil_iff, drop_eq_nil_iff] at h
      exact le_antisymm hgood.byte_le h
  | some t =>
    obtain ⟨hlt, ht⟩ := List.getElem?_eq_some_iff.mp htoken
    have hdrop : p.tokens.drop c.token = t :: p.tokens.drop (c.token + 1) := by
      rw [← ht, drop_eq_getElem_cons hlt]
    cases hstar : t.isStar with
    | true =>
      have hturn : p.turn text c = .more ⟨c.token + 1, c.byte, some (c.token + 1, c.byte)⟩ := by
        cases t with
        | star => simp only [Pattern.turn, htoken]
        | _ => cases hstar
      rw [hturn]
      refine ⟨fun c' h => ?_, fun found h => (by cases h)⟩
      cases h
      refine ⟨⟨hlt, hgood.byte_le, ?_⟩, ?_, ?_⟩
      · rintro _ _ ⟨⟩
        exact ⟨Nat.succ_pos _, [], by simp, rfl, rfl, rfl⟩
      · exact star_answer hgood hdrop hstar
      · exact star_weight hgood hlt
    | false =>
      have hatom : p.turn text c = if text[c.byte]?.any (token_matches p.fold t) then
          .more ⟨c.token + 1, c.byte + 1, c.star⟩ else c.retry text := by
        cases t with
        | star => cases hstar
        | _ => simp only [Pattern.turn, htoken]
      rw [hatom]
      by_cases hbyte : text[c.byte]?.any (token_matches p.fold t) = true
      · rw [if_pos hbyte]
        refine ⟨fun c' h => ?_, fun found h => (by cases h)⟩
        cases h
        obtain ⟨b, hb, haccepts⟩ : ∃ b, text[c.byte]? = some b ∧
            token_matches p.fold t b = true := by
          cases hb : text[c.byte]? with
          | none => rw [hb] at hbyte; cases hbyte
          | some b => rw [hb] at hbyte; exact ⟨b, rfl, hbyte⟩
        obtain ⟨hinside, hb⟩ := List.getElem?_eq_some_iff.mp hb
        have hrest : text.drop c.byte = b :: text.drop (c.byte + 1) := by
          rw [← hb, drop_eq_getElem_cons hinside]
        refine ⟨⟨hlt, hinside, fun resume consumed h => ?_⟩, ?_, ?_⟩
        · obtain ⟨hpos, passed, hpassed, htokens, hresume, hconsumed⟩ := hgood.star _ _ h
          refine ⟨hpos, passed ++ [t], ?_, ?_, ?_, ?_⟩
          · intro t' ht'
            rcases mem_append.mp ht' with ht' | ht'
            · exact hpassed t' ht'
            · rwa [mem_singleton.mp ht']
          · rw [htokens, hdrop, append_assoc]
            rfl
          · show resume + (passed ++ [t]).length = c.token + 1
            rw [length_append, ← hresume]
            rfl
          · show consumed + (passed ++ [t]).length = c.byte + 1
            rw [length_append, ← hconsumed]
            rfl
        · refine or_congr ?_ .rfl
          rw [hdrop, hrest, Wildcard.spans_one_iff hstar]
          constructor
          · exact fun h => ⟨b, _, rfl, haccepts, h⟩
          · rintro ⟨_, _, ⟨⟩, -, h⟩
            exact h
        · exact Nat.add_lt_add_left (Nat.sub_succ_lt_self _ _ hlt) _
      · rw [if_neg hbyte]
        refine retry_answer hgood fun h => hbyte ?_
        rw [hdrop, Wildcard.spans_one_iff hstar] at h
        obtain ⟨b, _, hrest, haccepts, -⟩ := h
        have hb : text[c.byte]? = some b := by
          rw [← head?_drop, hrest]
          rfl
        rw [hb]
        exact haccepts

/-! ## A scan -/

/-- **A scan ends** within its weight, with the answer. -/
theorem scan_answer (hgood : c.Good p text) {turns : ℕ} (hturns : c.weight p text < turns) :
    ∃ found, p.scan text turns c = some found ∧ (found = true ↔ c.Answer p text) := by
  induction turns generalizing c with
  | zero => exact absurd hturns (not_lt_zero)
  | succ turns ih =>
    obtain ⟨hmore, hdone⟩ := turn_answer hgood
    cases hturn : p.turn text c with
    | more c' =>
      obtain ⟨hgood', hanswer, _⟩ := hmore c' hturn
      obtain ⟨found, hscan, hfound⟩ := ih hgood' (by omega)
      refine ⟨found, ?_, hfound.trans hanswer⟩
      rw [Pattern.scan, hturn]
      exact hscan
    | done found =>
      refine ⟨found, ?_, hdone found hturn⟩
      rw [Pattern.scan, hturn]

/-- What follows a star that is the only one is compared with the end. -/
theorem suffix_answer {tokens : List Token} {fold : Bool}
    (hstar : ∀ t ∈ tokens, t.isStar = false) (text : Arg) :
    (wildcard fold).Spans (.star :: tokens) text ↔
      tokens.length ≤ text.length ∧ (tokens.zip (text.drop (text.length - tokens.length))).all
        (fun (token, byte) => token_matches fold token byte) = true := by
  have hzip (as : Arg) : (wildcard fold).Spans tokens as ↔ tokens.length = as.length ∧
      (tokens.zip as).all (fun (token, byte) => token_matches fold token byte) = true := by
    rw [Wildcard.spans_iff_forall hstar, forall₂_iff_zip, all_eq_true]
    exact and_congr_right fun _ =>
      ⟨fun h pair hpair => h hpair, fun h a b hpair => h (a, b) hpair⟩
  have hdrop : (wildcard fold).Spans (.star :: tokens) (text.drop 0) ↔
      ∃ k, 0 ≤ k ∧ k ≤ text.length ∧ (wildcard fold).Spans tokens (text.drop k) :=
    spans_star_drop rfl (Nat.zero_le text.length)
  rw [drop_zero] at hdrop
  rw [hdrop]
  constructor
  · rintro ⟨k, -, _, h⟩
    rw [hzip, length_drop] at h
    have hplace : text.length - tokens.length = k := by omega
    exact ⟨by omega, by rw [hplace]; exact h.2⟩
  · rintro ⟨_, h⟩
    refine ⟨text.length - tokens.length, Nat.zero_le _, Nat.sub_le _ _, ?_⟩
    rw [hzip, length_drop]
    exact ⟨by omega, h⟩

/-- The shortcut is for a star at the beginning and no other. -/
theorem suffix_tokens {pattern : Arg} {fold : Bool}
    (h : (Pattern.new pattern fold).suffix = true) :
    ∃ tokens, (Pattern.new pattern fold).tokens = .star :: tokens ∧
      ∀ t ∈ tokens, t.isStar = false := by
  simp only [Pattern.new] at h ⊢
  cases htokens : compile pattern fold with
  | nil => rw [htokens] at h; cases h
  | cons t tokens =>
    rw [htokens] at h
    cases t with
    | star =>
      refine ⟨tokens, rfl, fun t ht => ?_⟩
      simpa using all_eq_true.mp h t ht
    | _ => cases h

/-- The turns that are enough for a text. -/
def Pattern.turns (p : Pattern) (text : Arg) : ℕ :=
  (p.tokens.length * (text.length + 1) + text.length) * (p.tokens.length + 1)
    + p.tokens.length + 1

/-- **Matching ends, and finds what the specification says.** -/
theorem matches_eq_reference (pattern : Arg) (fold : Bool) (text : Arg) {turns : ℕ}
    (hturns : (Pattern.new pattern fold).turns text ≤ turns) :
    (Pattern.new pattern fold).matches turns text
      = some (reference (Pattern.new pattern fold) text) := by
  generalize hp : Pattern.new pattern fold = p at hturns ⊢
  have hreference : reference p text = true ↔ (wildcard p.fold).Spans p.tokens text := by
    rw [reference, Wildcard.reaches_iff p.tokens le_rfl, take_length]
  cases hsuffix : p.suffix with
  | true =>
    obtain ⟨_, htokens, hstar⟩ := suffix_tokens (hp ▸ hsuffix)
    rw [hp] at htokens
    rw [htokens, suffix_answer hstar] at hreference
    rw [Pattern.matches, hsuffix, if_pos rfl, htokens, tail_cons]
    dsimp only
    split_ifs with hshort
    · refine congrArg some (Bool.eq_false_iff.mpr fun h => ?_).symm
      exact absurd (hreference.mp h).1 (Nat.not_le.mpr hshort)
    · refine congrArg some (Bool.eq_iff_iff.mpr ?_)
      rw [hreference]
      exact (and_iff_right (Nat.le_of_not_lt hshort)).symm
  | false =>
    have hgood : Cursor.Good p text ⟨0, 0, none⟩ :=
      ⟨Nat.zero_le _, Nat.zero_le _, fun _ _ h => by cases h⟩
    have hweight : Cursor.weight p text ⟨0, 0, none⟩ < turns := hturns
    obtain ⟨_, hscan, hfound⟩ := scan_answer hgood hweight
    have hanswer : Cursor.Answer p text ⟨0, 0, none⟩ ↔
        (wildcard p.fold).Spans p.tokens text := by
      constructor
      · rintro (h | ⟨_, _, h, -⟩)
        · exact h
        · cases h
      · exact .inl
    rw [Pattern.matches, hsuffix, if_neg (by simp), hscan]
    exact congrArg some (Bool.eq_iff_iff.mpr (hfound.trans (hanswer.trans hreference.symm)))

end Ferret.Find
