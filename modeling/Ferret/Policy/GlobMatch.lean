import Ferret.Lib.Splits
import Ferret.Policy.Glob

/-!
# What a component glob matches

A glob matches the texts that can be cut into pieces fitting its atoms in
order: a literal run fits itself, `?` any one byte, a class one byte in it, and
`*` anything. The retry loop finds such a cut if there is one, though it keeps
only its last star: the atoms between two stars have fixed widths, so when they
are found further on, less text is left for the later star, and it can take up
the difference.
-/

namespace Ferret.Policy

open List

/-- The pieces that fit one atom. -/
def Atom.Fits : Atom → Bytes → Prop
  | .literal run, piece => piece = run.val
  | .any, piece => piece.length = 1
  | .star, _ => True
  | .oneOf c, piece => ∃ b, piece = [b] ∧ c.matches b = true

/-- **What a glob means.** -/
def ComponentGlob.Matches (g : ComponentGlob) (text : Bytes) : Prop :=
  Splits Atom.Fits g.atoms text

/-- The one length of the pieces that fit an atom other than a star. -/
def Atom.width (a : Atom) : ℕ := a.fixed_width.getD 0

theorem Atom.length_of_fits {a : Atom} (ha : a ≠ .star) {u : Bytes} (h : a.Fits u) :
    u.length = a.width := by
  cases a with
  | star => exact absurd rfl ha
  | literal run => rw [show u = run.val from h]; rfl
  | any => exact h
  | oneOf c =>
    obtain ⟨b, rfl, -⟩ := h
    rfl

theorem Atom.width_pos {a : Atom} (ha : a ≠ .star) : 0 < a.width := by
  cases a with
  | star => exact absurd rfl ha
  | literal run => exact length_pos_iff.mpr run.property
  | any | oneOf c => exact one_pos

/-- Consuming cuts off a piece that fits. -/
theorem Atom.consumes_iff {a : Atom} (ha : a ≠ .star) {text : Bytes} {n : ℕ} :
    a.consumes text = some n ↔ ∃ u v, text = u ++ v ∧ a.Fits u ∧ n = u.length := by
  cases a with
  | star => exact absurd rfl ha
  | literal run =>
    simp only [Atom.consumes, Atom.Fits, Option.ite_none_right_eq_some, isPrefixOf_iff_prefix,
      Option.some.injEq]
    constructor
    · rintro ⟨⟨v, rfl⟩, rfl⟩
      exact ⟨run.val, v, rfl, rfl, rfl⟩
    · rintro ⟨u, v, rfl, rfl, rfl⟩
      exact ⟨prefix_append .., rfl⟩
  | any =>
    cases text with
    | nil => simp [Atom.consumes, Atom.Fits]
    | cons b text =>
      simp only [Atom.consumes, Atom.Fits]
      constructor
      · intro h
        exact ⟨[b], text, rfl, rfl, by simpa using h.symm⟩
      · rintro ⟨u, v, -, hu, rfl⟩
        simp [hu]
  | oneOf c =>
    cases text with
    | nil => simp [Atom.consumes, Atom.Fits]
    | cons b text =>
      rw [Atom.consumes, Option.ite_none_right_eq_some, head?_cons, Option.any_some]
      constructor
      · rintro ⟨hb, h⟩
        exact ⟨[b], text, rfl, ⟨b, rfl, hb⟩, (Option.some.inj h).symm⟩
      · rintro ⟨u, v, huv, ⟨_, rfl, hb'⟩, rfl⟩
        obtain ⟨rfl, -⟩ := List.cons.inj huv
        exact ⟨hb', rfl⟩

variable {a : Atom} {atoms : List Atom} {text : Bytes}

theorem splits_cons_iff (ha : a ≠ .star) :
    Splits Atom.Fits (a :: atoms) text ↔
      ∃ n, a.consumes text = some n ∧ Splits Atom.Fits atoms (text.drop n) := by
  rw [Splits.cons_iff]
  constructor
  · rintro ⟨u, v, rfl, hu, hv⟩
    exact ⟨u.length, (Atom.consumes_iff ha).mpr ⟨u, v, rfl, hu, rfl⟩, by simpa using hv⟩
  · rintro ⟨n, hn, h⟩
    obtain ⟨u, v, rfl, hu, rfl⟩ := (Atom.consumes_iff ha).mp hn
    exact ⟨u, v, rfl, hu, by simpa using h⟩

theorem splits_star_iff :
    Splits Atom.Fits (.star :: atoms) text ↔ ∃ v, v <:+ text ∧ Splits Atom.Fits atoms v := by
  rw [Splits.cons_iff]
  constructor
  · rintro ⟨u, v, rfl, -, hv⟩
    exact ⟨v, suffix_append u v, hv⟩
  · rintro ⟨v, ⟨u, rfl⟩, hv⟩
    exact ⟨u, v, rfl, trivial, hv⟩

/-- Only stars match nothing. -/
theorem splits_empty_iff :
    Splits Atom.Fits atoms [] ↔ (atoms.dropWhile (· == .star)).isEmpty = true := by
  induction atoms with
  | nil => simp
  | cons a atoms ih =>
    by_cases ha : a = .star
    · subst ha
      rw [splits_star_iff, dropWhile_cons_of_pos (by simp), ← ih]
      constructor
      · rintro ⟨v, hv, h⟩
        rwa [suffix_nil.mp hv] at h
      · exact fun h => ⟨[], suffix_refl _, h⟩
    · rw [dropWhile_cons_of_neg (by simpa using ha), Splits.cons_iff]
      constructor
      · rintro ⟨u, v, huv, hu, -⟩
        obtain ⟨rfl, rfl⟩ := append_eq_nil_iff.mp huv.symm
        have := Atom.length_of_fits ha hu
        have := Atom.width_pos ha
        simp at *
        omega
      · simp

/-! ## The retry loop -/

/-- What the loop goes back to is the atoms since the last star and the text
since there: fixed atoms, already found, and what is still to be matched. -/
def Resumes (atoms : List Atom) (text : Bytes) : Option (List Atom × Bytes) → Prop
  | none => True
  | some (after_star, retry) =>
    ∃ fixed u, after_star = fixed ++ atoms ∧ retry = u ++ text ∧ Splits Atom.Fits fixed u ∧
      ∀ a ∈ fixed, a ≠ .star

/-- The last star can take more than it has, and the rest still match. -/
def Retries : Option (List Atom × Bytes) → Prop
  | none => False
  | some (after_star, retry) =>
    ∃ v, v <:+ retry ∧ v.length < retry.length ∧ Splits Atom.Fits after_star v

/-- Bounds on what the loop still has to read. -/
def Within (N R : ℕ) (atoms : List Atom) (text : Bytes) (star : Option (List Atom × Bytes)) :
    Prop :=
  atoms.length ≤ N ∧ text.length ≤ R ∧
    ∀ after_star retry, star = some (after_star, retry) → after_star.length ≤ N ∧ retry.length ≤ R

variable {star : Option (List Atom × Bytes)}

/-- A retry that meets the fixed atoms again leaves a suffix of the text. -/
theorem Retries.suffix (h : Retries star) (hres : Resumes atoms text star) :
    ∃ v, v <:+ text ∧ v.length < text.length ∧ Splits Atom.Fits atoms v := by
  match star with
  | none => exact h.elim
  | some (after_star, retry) =>
    obtain ⟨_, u, rfl, rfl, hu, hfixed⟩ := hres
    obtain ⟨s, hs, hlt, hsplit⟩ := h
    obtain ⟨v, hv, _, hmore⟩ :=
      Splits.suffix_of_fixed (fun a ha u => Atom.length_of_fits (hfixed a ha)) hu hs hsplit
    refine ⟨v, hv, ?_, hmore⟩
    rw [length_append] at hlt
    omega

variable {b : UInt8}

/-- Going back one byte further is the only other way to retry. -/
theorem retries_cons_iff {after_star : List Atom} {retry : Bytes} :
    Retries (some (after_star, b :: retry)) ↔
      Splits Atom.Fits after_star retry ∨ Retries (some (after_star, retry)) := by
  constructor
  · rintro ⟨v, hv, hlt, h⟩
    rcases suffix_cons_iff.mp hv with rfl | hv
    · exact absurd hlt (lt_irrefl _)
    · rcases lt_or_ge v.length retry.length with hlt' | hge
      · exact .inr ⟨v, hv, hlt', h⟩
      · rw [hv.eq_of_length_le hge] at h
        exact .inl h
  · rintro (h | ⟨v, hv, hlt, h⟩)
    · exact ⟨retry, suffix_cons b retry, Nat.lt_succ_self _, h⟩
    · exact ⟨v, hv.trans (suffix_cons b retry), Nat.lt_succ_of_lt hlt, h⟩

/-- A new star takes over from the last one. -/
theorem splits_or_retries_star (hres : Resumes (.star :: atoms) text star) :
    Splits Atom.Fits atoms text ∨ Retries (some (atoms, text)) ↔
      Splits Atom.Fits (.star :: atoms) text ∨ Retries star := by
  have hleft : Splits Atom.Fits atoms text ∨ Retries (some (atoms, text)) ↔
      ∃ v, v <:+ text ∧ Splits Atom.Fits atoms v := by
    constructor
    · rintro (h | ⟨v, hv, -, h⟩)
      · exact ⟨text, suffix_refl _, h⟩
      · exact ⟨v, hv, h⟩
    · rintro ⟨v, hv, h⟩
      rcases lt_or_ge v.length text.length with hlt | hge
      · exact .inr ⟨v, hv, hlt, h⟩
      · exact .inl (hv.eq_of_length_le hge ▸ h)
  rw [hleft, splits_star_iff]
  refine (or_iff_left_of_imp fun h => ?_).symm
  obtain ⟨v, hv, -, h⟩ := h.suffix hres
  obtain ⟨w, hw, h⟩ := splits_star_iff.mp h
  exact ⟨w, hw.trans hv, h⟩

/-- A piece found is one more fixed atom since the star. -/
theorem Resumes.consumed {u : Bytes} (ha : a ≠ .star) (hres : Resumes (a :: atoms) (u ++ text) star)
    (hu : a.Fits u) : Resumes atoms text star := by
  match star with
  | none => trivial
  | some (after_star, retry) =>
    obtain ⟨fixed, w, rfl, rfl, hw, hfixed⟩ := hres
    refine ⟨fixed ++ [a], w ++ u, by simp, by simp,
      Splits.append_iff.mpr ⟨w, u, rfl, hw, Splits.singleton_iff.mpr hu⟩, ?_⟩
    simpa [or_imp, forall_and] using ⟨hfixed, ha⟩

open ComponentGlob (matchLoop)

theorem matchLoop_consumes {fuel n : ℕ} (hn : a.consumes (b :: text) = some n) :
    matchLoop (fuel + 1) (a :: atoms) (b :: text) star
      = matchLoop fuel atoms ((b :: text).drop n) star := by
  cases a with
  | star => simp [Atom.consumes] at hn
  | literal _ | any | oneOf c =>
    rw [ComponentGlob.matchLoop.eq_def]
    simp [hn]

/-- No atom at hand takes anything: they do not match, and the loop goes back
if it can. -/
def Stuck (atoms : List Atom) (text : Bytes) : Prop :=
  atoms.head? ≠ some .star ∧ atoms.head?.bind (·.consumes text) = none

theorem Stuck.matchLoop_eq {fuel : ℕ} (h : Stuck atoms (b :: text))
    (star : Option (List Atom × Bytes)) :
    matchLoop (fuel + 1) atoms (b :: text) star =
      match star with
      | none => some false
      | some (_, []) => some false
      | some (after_star, _ :: retry) =>
        matchLoop fuel after_star retry (some (after_star, retry)) := by
  obtain ⟨hhead, hnone⟩ := h
  cases atoms with
  | nil =>
    rw [ComponentGlob.matchLoop.eq_def]
    rfl
  | cons a atoms =>
    replace hnone : a.consumes (b :: text) = none := hnone
    cases a with
    | star => exact absurd rfl hhead
    | literal _ | any | oneOf c =>
      rw [ComponentGlob.matchLoop.eq_def]
      rcases star with _ | ⟨after_star, _ | ⟨_, retry⟩⟩ <;>
        simp only [head?_cons, Option.bind_some, hnone]

theorem Stuck.not_splits (h : Stuck atoms (b :: text)) :
    ¬ Splits Atom.Fits atoms (b :: text) := by
  cases atoms with
  | nil => simp
  | cons a atoms =>
    rw [splits_cons_iff fun he => h.1 (by rw [he]; rfl)]
    rintro ⟨n, hn, -⟩
    simpa [hn] using h.2

/-- What the loop does with a text that is not yet at its end. -/
theorem round_cases (atoms : List Atom) (b : UInt8) (text : Bytes) :
    (∃ rest, atoms = .star :: rest) ∨
      (∃ a rest n, atoms = a :: rest ∧ a ≠ .star ∧ a.consumes (b :: text) = some n) ∨
      Stuck atoms (b :: text) := by
  by_cases hhead : atoms.head? = some .star
  · exact .inl (head?_eq_some_iff.mp hhead)
  · refine .inr ?_
    cases hc : atoms.head?.bind (·.consumes (b :: text)) with
    | none => exact .inr ⟨hhead, hc⟩
    | some n =>
      obtain ⟨a, ha, hn⟩ := Option.bind_eq_some_iff.mp hc
      obtain ⟨rest, rfl⟩ := head?_eq_some_iff.mp ha
      exact .inl ⟨a, rest, n, rfl, fun he => hhead (by rw [he]; rfl), hn⟩

/-- **With enough fuel the loop answers, and rightly.** -/
theorem matchLoop_spec {N R fuel : ℕ} (hres : Resumes atoms text star)
    (hin : Within N R atoms text star) (hfuel : R * (N + 1) + atoms.length < fuel) :
    ∃ r, matchLoop fuel atoms text star = some r ∧
      (r = true ↔ Splits Atom.Fits atoms text ∨ Retries star) := by
  induction fuel generalizing atoms text star R with
  | zero => omega
  | succ fuel ih =>
    cases text with
    | nil =>
      refine ⟨_, by rw [matchLoop], ?_⟩
      rw [← splits_empty_iff]
      refine (or_iff_left fun h => ?_).symm
      obtain ⟨v, _, hlt, -⟩ := h.suffix hres
      simp at hlt
    | cons b text =>
      obtain ⟨hN, hR, hstar⟩ := hin
      -- Starting over after a star, with nothing found since.
      have hover : ∀ {after_star : List Atom} {retry : Bytes} {R' : ℕ}, after_star.length ≤ N →
          retry.length ≤ R' → R' * (N + 1) + after_star.length < fuel →
          ∃ r, matchLoop fuel after_star retry (some (after_star, retry)) = some r ∧
            (r = true ↔
              Splits Atom.Fits after_star retry ∨ Retries (some (after_star, retry))) := by
        intro after_star retry R' hN' hR' hlt
        refine ih ⟨[], [], rfl, rfl, by simp, by simp⟩ ⟨hN', hR', fun _ _ he => ?_⟩ hlt
        cases he
        exact ⟨hN', hR'⟩
      rcases round_cases atoms b text with ⟨rest, rfl⟩ | ⟨a, rest, n, rfl, ha, hn⟩ | hstuck
      · simp only [length_cons] at hN hfuel
        obtain ⟨r, hr, hiff⟩ := hover (by omega) hR (by omega : R * (N + 1) + rest.length < fuel)
        exact ⟨r, by rw [matchLoop, hr], hiff.trans (splits_or_retries_star hres)⟩
      · obtain ⟨u, v, huv, hu, rfl⟩ := (Atom.consumes_iff ha).mp hn
        rw [matchLoop_consumes hn, splits_cons_iff ha, hn]
        simp only [huv, drop_left, length_cons, length_append] at hres hN hfuel hR ⊢
        obtain ⟨r, hr, hiff⟩ := ih (hres.consumed ha hu) ⟨by omega, by omega, hstar⟩
          (by omega : R * (N + 1) + rest.length < fuel)
        exact ⟨r, hr, hiff.trans (by simp)⟩
      · rw [hstuck.matchLoop_eq]
        match star with
        | none => exact ⟨false, rfl, by simp [hstuck.not_splits, Retries]⟩
        | some (after_star, []) =>
          obtain ⟨_, _, _, h, _⟩ := hres
          simp at h
        | some (after_star, c :: retry) =>
          obtain ⟨hN', hR'⟩ := hstar _ _ rfl
          have hmul : (retry.length + 1) * (N + 1) ≤ R * (N + 1) := Nat.mul_le_mul_right _ hR'
          rw [Nat.succ_mul] at hmul
          obtain ⟨r, hr, hiff⟩ := hover hN' (le_refl retry.length) (by omega)
          exact ⟨r, hr, by rw [hiff, retries_cons_iff, or_iff_right hstuck.not_splits]⟩

/-- The loop answers within the rounds it is given, as the glob means. -/
theorem ComponentGlob.exists_answer (g : ComponentGlob) (text : Bytes) {fuel : ℕ}
    (hfuel : g.fuel text ≤ fuel) :
    ∃ answer, matchLoop fuel g.atoms text none = some answer ∧
      (answer = true ↔ g.Matches text) := by
  have hin : Within g.atoms.length text.length g.atoms text none := ⟨le_rfl, le_rfl, by simp⟩
  have hres : Resumes g.atoms text none := trivial
  obtain ⟨answer, hanswer, hiff⟩ := matchLoop_spec hres hin (Nat.lt_of_succ_le hfuel)
  exact ⟨answer, hanswer, by rw [hiff, or_iff_left (show ¬Retries none from id), Matches]⟩

/-- **A glob matches what it means.** -/
theorem ComponentGlob.matches_iff (g : ComponentGlob) (text : Bytes) :
    g.matches text = true ↔ g.Matches text := by
  obtain ⟨_, hanswer, hiff⟩ := g.exists_answer text le_rfl
  rw [ComponentGlob.matches, hanswer, Option.getD_some, hiff]

/-- What a component means of one name. -/
def Component.Means : Component → Bytes → Prop
  | .globstar _, _ => True
  | .glob g, name => g.Matches name
  | .never, _ => False

theorem Component.matches_iff (c : Component) (name : Bytes) :
    c.matches name = true ↔ c.Means name := by
  cases c with
  | globstar _ => exact iff_of_true rfl trivial
  | glob g => exact g.matches_iff name
  | never => exact iff_of_false nofun id

/-- **The retry loop ends on every input**, after no more rounds than `fuel` counts, and
answers whether the text splits into pieces that fit the atoms in order. -/
theorem ComponentGlob.matchLoop_answers (g : ComponentGlob) (text : Bytes) :
    (∀ fuel, g.fuel text ≤ fuel →
      matchLoop fuel g.atoms text none = some (g.matches text)) ∧
    (g.matches text = true ↔
      ∃ pieces, List.Forall₂ Atom.Fits g.atoms pieces ∧ pieces.flatten = text) := by
  refine ⟨fun fuel hfuel => ?_, g.matches_iff text⟩
  obtain ⟨_, hanswer, hiff⟩ := g.exists_answer text hfuel
  rw [hanswer, Bool.eq_iff_iff.mpr (hiff.trans (g.matches_iff text).symm)]

end Ferret.Policy
