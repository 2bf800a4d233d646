import Ferret.Verify.LineRuns

/-!
# Patterns that see one line at a time

A pattern is searched for in runs of whole lines where nothing in it can tell a
line's edge from the text's. A match is the bytes it spans between those before
and those after it, so that "the same span in a larger text" is the same bytes
with more around them: `Tame` says that whole lines more make no difference.
The semantics of a pattern is that of its syntax tree, as documented there; a
character is the bytes of its UTF-8 encoding, and next to bytes that encode none
a word boundary is decided as the matcher decides it.
-/

namespace Ferret.Verify

open List

def CR : UInt8 := 13

/-- **What an assertion asks.** -/
inductive Look
  | Start
  | End
  | StartLF
  | EndLF
  | StartCRLF
  | EndCRLF
  | WordAscii
  | WordAsciiNegate
  | WordUnicode
  | WordUnicodeNegate
  | WordStartAscii
  | WordEndAscii
  | WordStartUnicode
  | WordEndUnicode
  | WordStartHalfAscii
  | WordEndHalfAscii
  | WordStartHalfUnicode
  | WordEndHalfUnicode
deriving DecidableEq

/-- **A parsed pattern.** -/
inductive Hir
  | Empty
  | Literal (bytes : Bytes)
  | ClassUnicode (ranges : List (Char × Char))
  | ClassBytes (ranges : List (UInt8 × UInt8))
  | Look (look : Look)
  | Repetition (min : ℕ) (max : Option ℕ) (sub : Hir)
  | Capture (sub : Hir)
  | Concat (hirs : List Hir)
  | Alternation (hirs : List Hir)

mutual

/-- Whether the pattern can be searched a run of whole lines at a time. -/
def line_local : Hir → Bool
  | .Empty => true
  | .Literal bytes => !bytes.contains LF
  | .ClassUnicode ranges => !ranges.any fun range => range.1 ≤ '\n' && '\n' ≤ range.2
  | .ClassBytes ranges => !ranges.any fun range => range.1 ≤ LF && LF ≤ range.2
  | .Look look => look ∉ [Look.Start, Look.End, Look.StartCRLF, Look.EndCRLF]
  | .Repetition _ _ sub => line_local sub
  | .Capture sub => line_local sub
  | .Concat hirs => all_line_local hirs
  | .Alternation hirs => all_line_local hirs

def all_line_local : List Hir → Bool
  | [] => true
  | hir :: hirs => line_local hir && all_line_local hirs

end

/-! ## What a pattern matches -/

/-- The bytes of a match, between those before and those after it. -/
abbrev Spans := Bytes → Bytes → Bytes → Prop

/-- One after the other. -/
def Spans.seq (p q : Spans) : Spans := fun before m after =>
  ∃ first second, m = first ++ second ∧ p before first (second ++ after) ∧
    q (before ++ first) second after

/-- So many in a row. -/
def Spans.times (p : Spans) : ℕ → Spans
  | 0 => fun _ m _ => m = []
  | n + 1 => p.seq (p.times n)

/-- **What a word boundary reads**: the byte strings of one character, and those of them that
are of words. A line feed is a character by itself, and no word's. -/
structure Alphabet where
  code : Bytes → Prop
  word : Bytes → Prop
  code_lf : code [LF]
  eq_lf : ∀ x, code x → LF ∈ x → x = [LF]
  code_of_word : ∀ x, word x → code x
  not_word_lf : ¬ word [LF]

namespace Alphabet

variable (al : Alphabet) (pre : Bytes → Bytes → Prop) (text : Bytes)

/-- A character of a word is at an edge of the text. -/
def Word : Prop := ∃ x, al.word x ∧ pre x text

/-- What is at the edge is no character. -/
def Stuck : Prop := text ≠ [] ∧ ∀ x, al.code x → ¬ pre x text

end Alphabet

/-- The bytes `0-9A-Za-z_`. -/
def word_byte (b : UInt8) : Bool :=
  48 ≤ b && b ≤ 57 || 65 ≤ b && b ≤ 90 || 97 ≤ b && b ≤ 122 || b == 95

/-- A byte is a character to the ASCII assertions. -/
def ascii : Alphabet where
  code x := ∃ b, x = [b]
  word x := ∃ b, x = [b] ∧ word_byte b = true
  code_lf := ⟨LF, rfl⟩
  eq_lf := by
    rintro _ ⟨b, rfl⟩ h
    rw [List.mem_singleton.mp h]
  code_of_word := by
    rintro _ ⟨b, rfl, -⟩
    exact ⟨b, rfl⟩
  not_word_lf := by
    rintro ⟨b, h, hb⟩
    cases h
    revert hb
    decide

/-- A line feed is in the encoding of no other character. -/
theorem eq_newline {c : Char} (h : LF ∈ String.utf8EncodeChar c) : c = '\n' := by
  have hbyte : ∀ n, n < 256 → LF = UInt8.ofNat n → n = 10 := fun n hn h => by
    have := congrArg UInt8.toNat h
    rw [UInt8.toNat_ofNat_of_lt' hn] at this
    exact this.symm
  refine Char.ext (UInt32.toNat.inj (show c.val.toNat = 10 from ?_))
  unfold String.utf8EncodeChar at h
  dsimp only at h
  split_ifs at h
  all_goals simp only [mem_cons, not_mem_nil, or_false] at h
  · exact hbyte _ (by omega) h
  · rcases h with h | h <;> have := hbyte _ (by omega) h <;> omega
  · rcases h with h | h | h <;> have := hbyte _ (by omega) h <;> omega
  · rcases h with h | h | h | h <;> have := hbyte _ (by omega) h <;> omega

/-- The word characters of Unicode, none of which is a line feed. -/
abbrev Words := { is_word : Char → Prop // ¬ is_word '\n' }

def unicode (w : Words) : Alphabet where
  code x := ∃ c, x = String.utf8EncodeChar c
  word x := ∃ c, x = String.utf8EncodeChar c ∧ w.1 c
  code_lf := ⟨'\n', rfl⟩
  eq_lf := by
    rintro _ ⟨c, rfl⟩ h
    rw [eq_newline h]
    rfl
  code_of_word := by
    rintro _ ⟨c, rfl, -⟩
    exact ⟨c, rfl⟩
  not_word_lf := by
    rintro ⟨c, h, hc⟩
    have hlf : c = '\n' := eq_newline (h ▸ List.mem_singleton_self LF)
    exact w.2 (hlf ▸ hc)

/-- **When an assertion holds**, between the bytes before and after. -/
def Look.Holds (w : Words) : Look → Bytes → Bytes → Prop
  | .Start, before, _ => before = []
  | .End, _, after => after = []
  | .StartLF, before, _ => before = [] ∨ [LF] <:+ before
  | .EndLF, _, after => after = [] ∨ [LF] <+: after
  | .StartCRLF, before, after =>
    before = [] ∨ [LF] <:+ before ∨ [CR] <:+ before ∧ ¬ [LF] <+: after
  | .EndCRLF, before, after =>
    after = [] ∨ [CR] <+: after ∨ [LF] <+: after ∧ ¬ [CR] <:+ before
  | .WordAscii, before, after => ¬ (ascii.Word (· <:+ ·) before ↔ ascii.Word (· <+: ·) after)
  | .WordAsciiNegate, before, after =>
    ascii.Word (· <:+ ·) before ↔ ascii.Word (· <+: ·) after
  | .WordUnicode, before, after =>
    ¬ ((unicode w).Word (· <:+ ·) before ↔ (unicode w).Word (· <+: ·) after)
  | .WordUnicodeNegate, before, after => ¬ (unicode w).Stuck (· <:+ ·) before ∧
    ¬ (unicode w).Stuck (· <+: ·) after ∧
    ((unicode w).Word (· <:+ ·) before ↔ (unicode w).Word (· <+: ·) after)
  | .WordStartAscii, before, after =>
    ¬ ascii.Word (· <:+ ·) before ∧ ascii.Word (· <+: ·) after
  | .WordEndAscii, before, after =>
    ascii.Word (· <:+ ·) before ∧ ¬ ascii.Word (· <+: ·) after
  | .WordStartUnicode, before, after =>
    ¬ (unicode w).Word (· <:+ ·) before ∧ (unicode w).Word (· <+: ·) after
  | .WordEndUnicode, before, after =>
    (unicode w).Word (· <:+ ·) before ∧ ¬ (unicode w).Word (· <+: ·) after
  | .WordStartHalfAscii, before, _ => ¬ ascii.Word (· <:+ ·) before
  | .WordEndHalfAscii, _, after => ¬ ascii.Word (· <+: ·) after
  | .WordStartHalfUnicode, before, _ =>
    ¬ (unicode w).Stuck (· <:+ ·) before ∧ ¬ (unicode w).Word (· <:+ ·) before
  | .WordEndHalfUnicode, _, after =>
    ¬ (unicode w).Stuck (· <+: ·) after ∧ ¬ (unicode w).Word (· <+: ·) after

mutual

/-- **What a pattern matches.** -/
def Hir.Matches (w : Words) : Hir → Spans
  | .Empty => fun _ m _ => m = []
  | .Literal bytes => fun _ m _ => m = bytes
  | .ClassUnicode ranges => fun _ m _ =>
    ∃ c, (∃ range ∈ ranges, range.1 ≤ c ∧ c ≤ range.2) ∧ m = String.utf8EncodeChar c
  | .ClassBytes ranges => fun _ m _ =>
    ∃ b, (∃ range ∈ ranges, range.1 ≤ b ∧ b ≤ range.2) ∧ m = [b]
  | .Look look => fun before m after => m = [] ∧ look.Holds w before after
  | .Repetition min max sub => fun before m after =>
    ∃ n, min ≤ n ∧ (∀ most ∈ max, n ≤ most) ∧ (sub.Matches w).times n before m after
  | .Capture sub => sub.Matches w
  | .Concat hirs => allMatch w hirs
  | .Alternation hirs => anyMatches w hirs

def allMatch (w : Words) : List Hir → Spans
  | [] => fun _ m _ => m = []
  | hir :: hirs => (hir.Matches w).seq (allMatch w hirs)

def anyMatches (w : Words) : List Hir → Spans
  | [] => fun _ _ _ => False
  | hir :: hirs => fun before m after =>
    hir.Matches w before m after ∨ anyMatches w hirs before m after

end

/-! ## Whole lines more -/

/-- Whole lines, each with its end. -/
def LinesBefore (lines : Bytes) : Prop := lines = [] ∨ ∃ l, lines = l ++ [LF]

/-- Whole lines, each with the end of the line before it. -/
def LinesAfter (lines : Bytes) : Prop := lines = [] ∨ ∃ l, lines = LF :: l

/-- What ends before a line feed sees nothing of it. -/
theorem prefix_append_lines {x a A : Bytes} (hA : LinesAfter A) (hx : LF ∉ x) :
    x <+: a ++ A ↔ x <+: a := by
  refine ⟨fun h => ?_, fun h => h.trans (prefix_append a A)⟩
  obtain rfl | ⟨l, rfl⟩ := hA
  · rwa [append_nil] at h
  · obtain hxa | ⟨rest, rfl⟩ := prefix_or_prefix_of_prefix h (prefix_append a _)
    · exact hxa
    · cases rest with
      | nil => simp
      | cons b rest =>
        rw [prefix_append_right_inj, cons_prefix_cons] at h
        exact absurd (by simp [h.1]) hx

/-- **A text with more beyond an edge of it**, where only a line feed shows. -/
structure Edge (pre : Bytes → Bytes → Prop) (text more : Bytes) : Prop where
  free : ∀ x, LF ∉ x → (pre x more ↔ pre x text)
  lf : text ≠ [] → (pre [LF] more ↔ pre [LF] text)
  nil : text = [] → more = [] ∨ pre [LF] more
  ne : text ≠ [] → more ≠ []

theorem Edge.after {a A : Bytes} (hA : LinesAfter A) : Edge (· <+: ·) a (a ++ A) where
  free x hx := prefix_append_lines hA hx
  lf ha := by
    obtain ⟨b, _, rfl⟩ := exists_cons_of_ne_nil ha
    simp
  nil ha := by
    subst ha
    obtain rfl | ⟨l, rfl⟩ := hA
    · exact .inl rfl
    · exact .inr (prefix_append [LF] l)
  ne ha h := ha (append_eq_nil_iff.mp h).1

/-- Before a text it is as after it, read backwards. -/
theorem Edge.before {b B : Bytes} (hB : LinesBefore B) : Edge (· <:+ ·) b (B ++ b) := by
  have hA : LinesAfter B.reverse := by
    obtain rfl | ⟨l, rfl⟩ := hB
    · exact .inl rfl
    · exact .inr ⟨l.reverse, by simp⟩
  have h := Edge.after (a := b.reverse) hA
  have hpre : ∀ x : Bytes, x.reverse <+: b.reverse ++ B.reverse ↔ x <:+ B ++ b := fun x => by
    rw [← reverse_append, reverse_prefix]
  refine ⟨fun x hx => ?_, fun hb => ?_, fun hb => ?_, fun hb h => hb (append_eq_nil_iff.mp h).2⟩
  · rw [← hpre, h.free _ (by simpa using hx), reverse_prefix]
  · rw [← hpre, ← reverse_prefix]
    exact h.lf (by simpa using hb)
  · refine (h.nil (by simp [hb])).imp (fun hnil => ?_) (hpre [LF]).mp
    simpa [and_comm] using hnil

namespace Edge

variable {pre : Bytes → Bytes → Prop} {text more : Bytes} (h : Edge pre text more)

include h

/-- A line begins at an edge of the text, be it at the text's or at a line feed. -/
theorem line : (more = [] ∨ pre [LF] more) ↔ (text = [] ∨ pre [LF] text) := by
  by_cases htext : text = []
  · exact iff_of_true (h.nil htext) (.inl htext)
  · rw [h.lf htext, or_iff_right (h.ne htext), or_iff_right htext]

theorem word (al : Alphabet) : al.Word pre more ↔ al.Word pre text := by
  refine exists_congr fun x => and_congr_right fun hx => h.free x fun hlf => ?_
  rw [al.eq_lf x (al.code_of_word x hx) hlf] at hx
  exact al.not_word_lf hx

theorem stuck (al : Alphabet) : al.Stuck pre more ↔ al.Stuck pre text := by
  by_cases htext : text = []
  · refine iff_of_false (fun hmore => ?_) fun hstuck => hstuck.1 htext
    exact (h.nil htext).elim hmore.1 (hmore.2 _ al.code_lf)
  · refine and_congr (iff_of_true (h.ne htext) htext) (forall_congr' fun x => ?_)
    refine forall_congr' fun hx => not_congr ?_
    by_cases hlf : LF ∈ x
    · rw [al.eq_lf x hx hlf]
      exact h.lf htext
    · exact h.free x hlf

end Edge

/-- **Spans that see one line**: whole lines more around them make no difference, and there is
no line feed in them. -/
structure Tame (p : Spans) : Prop where
  edges {B A : Bytes} : LinesBefore B → LinesAfter A →
    ∀ b m a, p (B ++ b) m (a ++ A) ↔ p b m a
  line : ∀ b m a, p b m a → LF ∉ m

namespace Tame

variable {p q : Spans}

/-- What is told from the bytes of the match alone. -/
theorem own {P : Bytes → Prop} (h : ∀ m, P m → LF ∉ m) : Tame fun _ m _ => P m where
  edges _ _ _ _ _ := .rfl
  line _ m _ := h m

theorem nothing : Tame fun _ m _ => m = [] :=
  own fun m hm => by simp [hm]

theorem seq (hp : Tame p) (hq : Tame q) : Tame (p.seq q) where
  edges {B A} hB hA b m a := by
    refine exists_congr fun first => exists_congr fun second => and_congr_right fun _ => ?_
    rw [← append_assoc, append_assoc B, hp.edges hB hA, hq.edges hB hA]
  line b m a := by
    rintro ⟨first, second, rfl, hfirst, hsecond⟩
    rw [mem_append, not_or]
    exact ⟨hp.line _ _ _ hfirst, hq.line _ _ _ hsecond⟩

theorem times (hp : Tame p) (n : ℕ) : Tame (p.times n) := by
  induction n with
  | zero => exact nothing
  | succ n ih => exact hp.seq ih

theorem or (hp : Tame p) (hq : Tame q) : Tame fun b m a => p b m a ∨ q b m a where
  edges hB hA b m a := or_congr (hp.edges hB hA b m a) (hq.edges hB hA b m a)
  line b m a h := h.elim (hp.line b m a) (hq.line b m a)

theorem look {w : Words} {look : Look}
    (h : look ∉ [Look.Start, Look.End, Look.StartCRLF, Look.EndCRLF]) :
    Tame fun before m after => m = [] ∧ look.Holds w before after where
  edges {B A} hB hA b m a := by
    refine and_congr_right fun _ => ?_
    have hb := Edge.before (b := b) hB
    have ha := Edge.after (a := a) hA
    cases look with
    | Start | End | StartCRLF | EndCRLF => exact absurd (by decide) h
    | StartLF => exact hb.line
    | EndLF => exact ha.line
    | _ => simp only [Look.Holds, hb.word, ha.word, hb.stuck, ha.stuck]
  line b m a hm := by simp [hm.1]

end Tame

mutual

/-- A pattern that is line-local sees one line. -/
theorem tame_of_line_local (w : Words) :
    ∀ hir : Hir, line_local hir = true → Tame (hir.Matches w)
  | .Empty, _ => .nothing
  | .Literal bytes, h => .own fun m hm => by
    rw [hm]
    simpa [line_local] using h
  | .ClassUnicode ranges, h => .own fun m => by
    rintro ⟨c, ⟨range, hmem, hle, hge⟩, rfl⟩ hlf
    rw [eq_newline hlf] at hle hge
    simp only [line_local, Bool.not_eq_true', any_eq_false] at h
    exact h range hmem (by simp [hle, hge])
  | .ClassBytes ranges, h => .own fun m => by
    rintro ⟨b, ⟨range, hmem, hle, hge⟩, rfl⟩ hlf
    rw [← mem_singleton.mp hlf] at hle hge
    simp only [line_local, Bool.not_eq_true', any_eq_false] at h
    exact h range hmem (by simp [hle, hge])
  | .Look look, h => .look (of_decide_eq_true h)
  | .Repetition min max sub, h => by
    have hsub := tame_of_line_local w sub h
    refine ⟨fun hB hA b m a => ?_, fun b m a => ?_⟩
    · refine exists_congr fun n => and_congr_right fun _ => and_congr_right fun _ => ?_
      exact (hsub.times n).edges hB hA b m a
    · rintro ⟨n, -, -, hn⟩
      exact (hsub.times n).line b m a hn
  | .Capture sub, h => tame_of_line_local w sub h
  | .Concat hirs, h => (tame_of_all_line_local w hirs h).1
  | .Alternation hirs, h => (tame_of_all_line_local w hirs h).2

theorem tame_of_all_line_local (w : Words) :
    ∀ hirs : List Hir, all_line_local hirs = true →
      Tame (allMatch w hirs) ∧ Tame (anyMatches w hirs)
  | [], _ => ⟨.nothing, .own fun _ h => h.elim⟩
  | hir :: hirs, h => by
    obtain ⟨hhead, htail⟩ := Bool.and_eq_true_iff.mp h
    obtain ⟨hall, hany⟩ := tame_of_all_line_local w hirs htail
    have hhir := tame_of_line_local w hir hhead
    exact ⟨hhir.seq hall, hhir.or hany⟩

end

/-- A match at a span of a text. -/
def Hir.MatchesAt (w : Words) (hir : Hir) (text : Bytes) (i j : ℕ) : Prop :=
  hir.Matches w (text.take i) ((text.take j).drop i) (text.drop j)

/-- **A line-local pattern is searched for exactly in runs of whole lines.** A span in a run of
whole lines, which stops short of the line feed after it, is a match in the text if and only if
it is one in the run; and no match has a line feed in it, so each is in such a run. -/
theorem line_local_exact (w : Words) {hir : Hir} (h : line_local hir = true) :
    (∀ before run after, LinesBefore before → LinesAfter after → ∀ i j, i ≤ j → j ≤ run.length →
      (hir.MatchesAt w (before ++ (run ++ after)) (before.length + i) (before.length + j) ↔
        hir.MatchesAt w run i j)) ∧
      ∀ text i j, hir.MatchesAt w text i j → LF ∉ (text.take j).drop i := by
  have htame := tame_of_line_local w hir h
  refine ⟨fun before run after hbefore hafter i j hij hj => ?_, fun text i j => htame.line _ _ _⟩
  unfold Hir.MatchesAt
  rw [take_length_add_append, take_length_add_append, drop_length_add_append,
    drop_length_add_append, take_append_of_le_length (hij.trans hj),
    take_append_of_le_length hj, drop_append_of_le_length hj]
  exact htame.edges hbefore hafter _ _ _

/-- A word at a line's end, in a text of two lines. -/
theorem line_local_exact_word :
    (Hir.Concat [.Literal [97], .Look .WordAscii]).MatchesAt ⟨fun _ => False, id⟩
        ([98, LF] ++ ([97] ++ [LF, 99])) (2 + 0) (2 + 1) ↔
      (Hir.Concat [.Literal [97], .Look .WordAscii]).MatchesAt ⟨fun _ => False, id⟩ [97] 0 1 :=
  (line_local_exact ⟨fun _ => False, id⟩ (by decide)).1 [98, LF] [97] [LF, 99] (.inr ⟨[98], rfl⟩)
    (.inr ⟨[99], rfl⟩) 0 1 (by decide) (by decide)

end Ferret.Verify
