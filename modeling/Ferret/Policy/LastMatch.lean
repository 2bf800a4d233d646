import Ferret.Policy.Buckets
import Ferret.Policy.GlobMatch

/-!
# The index answers for the last pattern that matches

Whatever bucket a pattern goes to, the bucket's test on a name is whether its
glob matches the name; and the buckets together, each scanned from its end and
only as far as another bucket's best, find the highest position among the
patterns that match.
-/

namespace Ferret.Policy

open List Option

/-! ## The latest of some matches -/

/-- The answer is the one of the matches with the highest index, if there is
one. -/
def Latest (P : FastMatch → Prop) : Option FastMatch → Prop
  | none => ∀ m, ¬ P m
  | some m => P m ∧ ∀ m', P m' → m'.index ≤ m.index

variable {best : Option FastMatch}

theorem Latest.congr {P Q : FastMatch → Prop} (h : Latest P best) (hiff : ∀ m, Q m ↔ P m) :
    Latest Q best := by
  have : Q = P := funext fun m => propext (hiff m)
  rwa [this]

/-- The later of two answers answers for both. -/
theorem Latest.or {P Q : FastMatch → Prop} {best candidate : Option FastMatch} (h : Latest P best)
    (h' : Latest Q candidate) :
    Latest (fun m => P m ∨ Q m) (Gitignore.later best candidate) := by
  cases candidate with
  | none => exact h.congr fun m => or_iff_left (h' m)
  | some c =>
    obtain ⟨hc, hmax⟩ := h'
    cases best with
    | none => exact ⟨.inr hc, fun m hm => hmax m (hm.resolve_left (h m))⟩
    | some b =>
      obtain ⟨hb, hbmax⟩ := h
      simp only [Gitignore.later, all_some, decide_eq_true_eq]
      split
      · rename_i hlt
        refine ⟨.inr hc, ?_⟩
        rintro m (hm | hm)
        · exact (hbmax m hm).trans hlt.le
        · exact hmax m hm
      · rename_i hge
        refine ⟨.inl hb, ?_⟩
        rintro m (hm | hm)
        · exact hbmax m hm
        · exact (hmax m hm).trans (not_lt.mp hge)

namespace Gitignore

section Scan

variable {α : Type} {action : α → FastMatch} {hit : α → Bool} {limit : Option ℕ} {entries : List α}

/-- The matches that a bucket holds below the limit. -/
def Hits (action : α → FastMatch) (hit : α → Bool) (limit : Option ℕ) (entries : List α)
    (m : FastMatch) : Prop :=
  ∃ e ∈ entries, m = action e ∧ below limit (action e).index = true ∧ hit e = true

/-- **A scan answers for its bucket and what was found before.** -/
theorem latest_scan {P : FastMatch → Prop} (h : Latest P best)
    (hsorted : entries.Pairwise fun a b => (action b).index ≤ (action a).index) :
    Latest (fun m => P m ∨ Hits action hit limit entries m)
      (scan action hit limit entries best) := by
  induction entries with
  | nil => exact h.congr fun m => or_iff_left (by rintro ⟨_, he, _⟩; simp at he)
  | cons e rest ih =>
    obtain ⟨hhead, htail⟩ := pairwise_cons.mp hsorted
    have hskip : below limit (action e).index = false ∨ hit e = false →
        Latest (fun m => P m ∨ Hits action hit limit (e :: rest) m)
          (scan action hit limit rest best) := by
      intro hmiss
      refine (ih htail).congr fun m => or_congr .rfl ?_
      simp only [Hits, mem_cons, exists_eq_or_imp]
      refine or_iff_right ?_
      rintro ⟨-, hbelow, hhit⟩
      rcases hmiss with hmiss | hmiss <;> simp_all
    rw [scan]
    split
    · rename_i hbelow
      exact hskip (.inl (by simpa using hbelow))
    · split
      · rename_i hbest
        obtain ⟨b, rfl, hlt⟩ : ∃ b, best = some b ∧ (action e).index < b.index := by
          simpa [Option.any_eq_true] using hbest
        refine ⟨.inl h.1, ?_⟩
        rintro m (hm | ⟨e', he', rfl, -⟩)
        · exact h.2 m hm
        · rcases mem_cons.mp he' with rfl | he'
          · exact hlt.le
          · exact (hhead e' he').trans hlt.le
      · split
        · rename_i hbelow hbest hhit
          refine ⟨.inr ⟨e, .head _, rfl, by simpa using hbelow, hhit⟩, ?_⟩
          rintro m (hm | ⟨e', he', rfl, -⟩)
          · cases best with
            | none => exact absurd hm (h m)
            | some b => exact (h.2 m hm).trans (by simpa using hbest)
          · rcases mem_cons.mp he' with rfl | he'
            · exact le_rfl
            · exact hhead e' he'
        · rename_i hhit
          exact hskip (.inr (by simpa using hhit))

theorem latest_fast_eq_scan (entries : List FastMatch) (is_dir : Bool) (limit : Option ℕ) :
    latest_fast entries is_dir limit = scan id (·.allows is_dir) limit entries.reverse none := by
  rw [latest_fast]
  generalize entries.reverse = l
  induction l with
  | nil => rfl
  | cons e _ ih =>
    rw [find?_cons, scan, ← ih]
    cases hbelow : below limit e.index <;> cases hallows : e.allows is_dir <;> simp_all

end Scan

/-! ## Where a pattern goes -/

/-- The buckets, each with what a pattern is filed under. -/
inductive Bucket where
  | literal (bytes : Bytes)
  | extension (bytes : Bytes)
  | starts (bytes : Bytes)
  | ends (bytes : Bytes)
  | contains (bytes : Bytes)
  | fixedSuffix (width : ℕ)
  | general
deriving DecidableEq

/-- The bucket that `push` puts a pattern in. -/
def bucket (p : Pattern) : Bucket :=
  match p.literal_basename with
  | some bytes => .literal bytes
  | none =>
  match p.simple_extension with
  | some bytes => .extension bytes
  | none =>
  match p.basename_prefix with
  | some bytes => .starts bytes
  | none =>
  match p.basename_suffix with
  | some bytes => .ends bytes
  | none =>
  match p.basename_contains with
  | some bytes => .contains bytes
  | none =>
  match p.fixed_basename_suffix_width with
  | some width => .fixedSuffix width
  | none => .general

theorem push_eq (m : Gitignore) (p : Pattern) :
    m.push p =
      match bucket p with
      | .literal bytes => { m with literals := entry_push m.literals bytes p.fast }
      | .extension bytes => { m with extensions := entry_push m.extensions bytes p.fast }
      | .starts bytes => { m with prefixes := m.prefixes ++ [⟨bytes, p.fast⟩] }
      | .ends bytes => { m with suffixes := m.suffixes ++ [⟨bytes, p.fast⟩] }
      | .contains bytes => { m with contains := m.contains ++ [⟨bytes, p.fast⟩] }
      | .fixedSuffix width => { m with fixed_suffixes := m.fixed_suffixes ++ [⟨p, width⟩] }
      | .general => { m with general := m.general ++ [p] } := by
  unfold push bucket
  cases p.literal_basename with
  | some bytes => rfl
  | none =>
  cases p.simple_extension with
  | some bytes => rfl
  | none =>
  cases p.basename_prefix with
  | some bytes => rfl
  | none =>
  cases p.basename_suffix with
  | some bytes => rfl
  | none =>
  cases p.basename_contains with
  | some bytes => rfl
  | none => cases p.fixed_basename_suffix_width <;> rfl

/-- What each bucket holds of some patterns. -/
structure Files (m : Gitignore) (ps : List Pattern) : Prop where
  literals : ∀ key, m.literals key =
    ps.filterMap fun p => if bucket p = .literal key then some p.fast else none
  extensions : ∀ key, m.extensions key =
    ps.filterMap fun p => if bucket p = .extension key then some p.fast else none
  prefixes : m.prefixes = ps.filterMap fun p =>
    match bucket p with | .starts bytes => some ⟨bytes, p.fast⟩ | _ => none
  suffixes : m.suffixes = ps.filterMap fun p =>
    match bucket p with | .ends bytes => some ⟨bytes, p.fast⟩ | _ => none
  contains : m.contains = ps.filterMap fun p =>
    match bucket p with | .contains bytes => some ⟨bytes, p.fast⟩ | _ => none
  fixed_suffixes : m.fixed_suffixes = ps.filterMap fun p =>
    match bucket p with | .fixedSuffix width => some ⟨p, width⟩ | _ => none
  general : m.general = ps.filterMap fun p =>
    match bucket p with | .general => some p | _ => none

theorem Files.push {m : Gitignore} {ps : List Pattern} (h : m.Files ps) (p : Pattern) :
    (m.push p).Files (ps ++ [p]) := by
  obtain ⟨h₁, h₂, h₃, h₄, h₅, h₆, h₇⟩ := h
  rw [push_eq]
  cases hb : bucket p
  all_goals
    constructor
    all_goals simp [filterMap_append, hb, h₁, h₂, h₃, h₄, h₅, h₆, h₇, entry_push]
    all_goals
      intro key
      split <;> simp_all [eq_comm]

theorem files_foldl (ps : List Pattern) : (ps.foldl push empty).Files ps := by
  induction ps using List.reverseRecOn with
  | nil => constructor <;> simp [empty]
  | append_singleton ps p ih =>
    rw [foldl_append]
    exact ih.push p

end Gitignore

/-! ## What the shapes match -/

variable {atoms : List Atom} {text : Bytes} {run : { bytes : Bytes // bytes ≠ [] }}

theorem literal_runs_iff {bytes : Bytes}
    (h : literal_runs atoms = some bytes) : Splits Atom.Fits atoms text ↔ text = bytes := by
  induction atoms generalizing bytes text with
  | nil =>
    cases h
    exact Splits.nil_iff
  | cons a atoms ih =>
    cases a with
    | literal run =>
      obtain ⟨rest, hrest, rfl⟩ := map_eq_some_iff.mp h
      rw [Splits.cons_iff]
      constructor
      · rintro ⟨u, v, rfl, rfl, hv⟩
        rw [(ih hrest).mp hv]
      · rintro rfl
        exact ⟨run.val, rest, rfl, rfl, (ih hrest).mpr rfl⟩
    | any | star | oneOf c => simp [literal_runs] at h

theorem splits_ends_iff : Splits Atom.Fits [.star, .literal run] text ↔ run.val <:+ text := by
  rw [splits_star_iff]
  constructor
  · rintro ⟨v, hv, h⟩
    have hfits : Atom.Fits (.literal run) v := Splits.singleton_iff.mp h
    rwa [show v = run.val from hfits] at hv
  · exact fun h => ⟨run.val, h, Splits.singleton_iff.mpr rfl⟩

theorem splits_starts_iff : Splits Atom.Fits [.literal run, .star] text ↔ run.val <+: text := by
  rw [Splits.cons_iff]
  constructor
  · rintro ⟨u, v, rfl, rfl, -⟩
    exact prefix_append ..
  · rintro ⟨v, rfl⟩
    exact ⟨run.val, v, rfl, rfl, Splits.singleton_iff.mpr trivial⟩

theorem splits_contains_iff :
    Splits Atom.Fits [.star, .literal run, .star] text ↔ run.val <:+: text := by
  rw [splits_star_iff]
  constructor
  · rintro ⟨v, hv, h⟩
    exact (splits_starts_iff.mp h).isInfix.trans hv.isInfix
  · rintro ⟨u, w, rfl⟩
    refine ⟨run.val ++ w, ⟨u, by simp⟩, splits_starts_iff.mpr (prefix_append ..)⟩

/-- A name ends in an extension without another dot exactly if that is what
its last dot starts. -/
theorem last_dot_iff {ext name : Bytes} (h : byte '.' ∉ ext) :
    Gitignore.last_dot name = some (byte '.' :: ext) ↔ byte '.' :: ext <:+ name := by
  rw [Gitignore.last_dot]
  constructor
  · intro he
    obtain ⟨i, -, he⟩ := map_eq_some_iff.mp he
    rw [← he]
    exact drop_suffix ..
  · rintro ⟨u, rfl⟩
    have hidx : ((u ++ byte '.' :: ext).reverse.findIdx? (· == byte '.')) = some ext.length := by
      have hnone : ext.reverse.findIdx? (· == byte '.') = none := by
        rw [findIdx?_eq_none_iff]
        intro b hb
        rw [beq_eq_false_iff_ne]
        rintro rfl
        exact h (mem_reverse.mp hb)
      rw [reverse_append, reverse_cons, append_assoc, findIdx?_append, hnone]
      simp [findIdx?_cons]
    rw [hidx, map_some]
    congr 1
    rw [show (u ++ byte '.' :: ext).length - 1 - ext.length = u.length by simp]
    exact drop_left

theorem windows_iff {name bytes : Bytes} :
    ((Gitignore.windows name bytes.length).any (· == bytes)) = true ↔ bytes <:+: name := by
  simp only [Gitignore.windows, List.any_map, List.any_eq_true, mem_range, Function.comp,
    beq_iff_eq]
  constructor
  · rintro ⟨i, -, h⟩
    rw [← h]
    exact (List.take_prefix ..).isInfix.trans (drop_suffix ..).isInfix
  · rintro ⟨u, w, rfl⟩
    exact ⟨u.length, by simp; omega, by simp⟩

/-- Fixed atoms take a text whole exactly if it splits along them. -/
theorem consume_all_iff (h : ∀ a ∈ atoms, a ≠ .star) :
    Pattern.consume_all atoms text = some [] ↔ Splits Atom.Fits atoms text := by
  induction atoms generalizing text with
  | nil => simp [Pattern.consume_all]
  | cons a atoms ih =>
    rw [Pattern.consume_all, bind_eq_some_iff, splits_cons_iff (h a (mem_cons_self ..))]
    simp only [ih fun b hb => h b (mem_cons_of_mem _ hb)]

theorem fixed_widths {widths : List ℕ} (h : atoms.mapM Atom.fixed_width = some widths) :
    (∀ a ∈ atoms, a ≠ .star) ∧ (atoms.map Atom.width).sum = widths.sum := by
  induction atoms generalizing widths with
  | nil =>
    obtain rfl : widths = [] := by simpa using h.symm
    exact ⟨by simp, rfl⟩
  | cons a atoms ih =>
    simp only [mapM_cons, bind_eq_bind, bind_eq_some_iff] at h
    obtain ⟨w, hw, ws, hws, h⟩ := h
    obtain rfl : w :: ws = widths := by simpa using h
    obtain ⟨hne, hsum⟩ := ih hws
    refine ⟨?_, ?_⟩
    · intro b hb
      rcases mem_cons.mp hb with rfl | hb
      · rintro rfl
        simp [Atom.fixed_width] at hw
      · exact hne b hb
    · simp [hsum, Atom.width, hw]

/-- A star and then fixed atoms match a name if its last bytes, as many as
they are wide, split along them. -/
theorem splits_fixed_iff (h : ∀ a ∈ atoms, a ≠ .star) :
    Splits Atom.Fits (.star :: atoms) text ↔
      (atoms.map Atom.width).sum ≤ text.length ∧
        Splits Atom.Fits atoms (text.drop (text.length - (atoms.map Atom.width).sum)) := by
  rw [splits_star_iff]
  constructor
  · rintro ⟨v, hv, hsplit⟩
    have hlen := Splits.length_eq (fun a ha u => Atom.length_of_fits (h a ha)) hsplit
    refine ⟨hlen ▸ hv.length_le, ?_⟩
    rwa [← hlen, ← suffix_iff_eq_drop.mp hv]
  · rintro ⟨-, hsplit⟩
    exact ⟨_, drop_suffix .., hsplit⟩

/-! ## The index -/

theorem Pattern.matches_name_iff {p : Pattern} {g : ComponentGlob} (h : p.basename_glob = some g)
    (name : Bytes) (is_dir : Bool) :
    p.matches_name name is_dir = true ↔ p.fast.allows is_dir = true ∧ g.Matches name := by
  have hcomponents : p.components = [.glob g] := by
    unfold Pattern.basename_glob at h
    split at h
    · rename_i g' hc
      split at h
      · rw [hc, Option.some.inj h]
      · simp at h
    · simp at h
  rw [← g.matches_iff, Pattern.matches_name, hcomponents]
  simp [Component.matches, FastMatch.allows, Pattern.fast]

section Shapes

variable {p : Pattern} {bytes : Bytes} (name : Bytes) (is_dir : Bool)

theorem matches_of_literal_basename (h : p.literal_basename = some bytes) :
    p.matches_name name is_dir = (p.fast.allows is_dir && name == bytes) := by
  obtain ⟨g, hg, hbytes⟩ := bind_eq_some_iff.mp h
  rw [Bool.eq_iff_iff, Pattern.matches_name_iff hg, ComponentGlob.Matches, literal_runs_iff hbytes]
  simp

theorem matches_of_simple_extension (h : p.simple_extension = some bytes) :
    p.matches_name name is_dir =
      (p.fast.allows is_dir && Gitignore.last_dot name == some bytes) := by
  unfold Pattern.simple_extension at h
  split at h
  · rename_i suffix hg
    rw [Bool.eq_iff_iff, Pattern.matches_name_iff hg, ComponentGlob.Matches, splits_ends_iff]
    split at h
    · simp at h
    · rename_i hshape
      cases h
      simp only [Bool.or_eq_true, decide_eq_true_eq, ne_eq, not_or, not_not, Bool.not_eq_true] at hshape
      obtain ⟨⟨-, hhead⟩, hdot⟩ := hshape
      obtain ⟨_, hext⟩ := head?_eq_some_iff.mp hhead
      rw [hext, tail_cons, contains_eq_mem, decide_eq_false_iff_not] at hdot
      rw [hext, Bool.and_eq_true, beq_iff_eq, last_dot_iff hdot]
  · simp at h

theorem matches_of_basename_start (h : p.basename_prefix = some bytes) :
    p.matches_name name is_dir = (p.fast.allows is_dir && bytes.isPrefixOf name) := by
  unfold Pattern.basename_prefix at h
  split at h
  · rename_i run hg
    cases h
    rw [Bool.eq_iff_iff, Pattern.matches_name_iff hg, ComponentGlob.Matches, splits_starts_iff]
    simp
  · simp at h

theorem matches_of_basename_suffix (h : p.basename_suffix = some bytes) :
    p.matches_name name is_dir = (p.fast.allows is_dir && bytes.isSuffixOf name) := by
  unfold Pattern.basename_suffix at h
  split at h
  · rename_i run hg
    cases h
    rw [Bool.eq_iff_iff, Pattern.matches_name_iff hg, ComponentGlob.Matches, splits_ends_iff]
    simp
  · simp at h

theorem matches_of_basename_contains (h : p.basename_contains = some bytes) :
    p.matches_name name is_dir =
      (p.fast.allows is_dir && (Gitignore.windows name bytes.length).any (· == bytes)) := by
  unfold Pattern.basename_contains at h
  split at h
  · rename_i run hg
    cases h
    rw [Bool.eq_iff_iff, Pattern.matches_name_iff hg, ComponentGlob.Matches, splits_contains_iff,
      Bool.and_eq_true, windows_iff]
  · simp at h

theorem matches_of_fixed_width {width : ℕ} (h : p.fixed_basename_suffix_width = some width) :
    p.matches_name name is_dir = p.matches_fixed_basename_suffix name is_dir width := by
  unfold Pattern.fixed_basename_suffix_width at h
  split at h
  · rename_i atoms hg
    obtain ⟨_, hwidths, rfl⟩ := map_eq_some_iff.mp h
    obtain ⟨hne, hsum⟩ := fixed_widths hwidths
    rw [Bool.eq_iff_iff, Pattern.matches_name_iff hg, ComponentGlob.Matches, splits_fixed_iff hne,
      hsum, ← consume_all_iff hne, Pattern.matches_fixed_basename_suffix, hg]
    cases hdir : p.directory_only <;> cases is_dir <;> simp [FastMatch.allows, Pattern.fast, hdir]
  · simp at h

end Shapes

namespace Gitignore

/-- The test that a bucket makes of a pattern. -/
def test (name : Bytes) (is_dir : Bool) (p : Pattern) : Bool :=
  match bucket p with
  | .literal bytes => p.fast.allows is_dir && name == bytes
  | .extension bytes => p.fast.allows is_dir && last_dot name == some bytes
  | .starts bytes => p.fast.allows is_dir && bytes.isPrefixOf name
  | .ends bytes => p.fast.allows is_dir && bytes.isSuffixOf name
  | .contains bytes => p.fast.allows is_dir && (windows name bytes.length).any (· == bytes)
  | .fixedSuffix width => p.matches_fixed_basename_suffix name is_dir width
  | .general => p.matches_name name is_dir

/-- **A pattern's bucket tests for what it matches.** -/
theorem test_eq (name : Bytes) (is_dir : Bool) (p : Pattern) :
    test name is_dir p = p.matches_name name is_dir := by
  unfold test bucket
  cases hliteral : p.literal_basename with
  | some bytes => exact (matches_of_literal_basename name is_dir hliteral).symm
  | none =>
  cases hextension : p.simple_extension with
  | some bytes => exact (matches_of_simple_extension name is_dir hextension).symm
  | none =>
  cases hstarts : p.basename_prefix with
  | some bytes => exact (matches_of_basename_start name is_dir hstarts).symm
  | none =>
  cases hends : p.basename_suffix with
  | some bytes => exact (matches_of_basename_suffix name is_dir hends).symm
  | none =>
  cases hcontains : p.basename_contains with
  | some bytes => exact (matches_of_basename_contains name is_dir hcontains).symm
  | none =>
  cases hfixed : p.fixed_basename_suffix_width with
  | some _ => exact (matches_of_fixed_width name is_dir hfixed).symm
  | none => rfl

section Best

variable {ps : List Pattern} (name : Bytes) (is_dir : Bool) (limit : Option ℕ)

/-- The matches among some patterns, in some buckets and below a limit. -/
def Found (ps : List Pattern) (name : Bytes) (is_dir : Bool) (limit : Option ℕ) (B : Bucket → Prop)
    (m : FastMatch) : Prop :=
  ∃ p ∈ ps, B (bucket p) ∧ m = p.fast ∧ below limit p.index = true ∧ test name is_dir p = true

theorem found_or {B C : Bucket → Prop} {m : FastMatch} :
    Found ps name is_dir limit B m ∨ Found ps name is_dir limit C m ↔
      Found ps name is_dir limit (fun b => B b ∨ C b) m := by
  simp only [Found, or_and_right, and_or_left, exists_or]

/-- One bucket's scan, in the patterns filed there. -/
theorem latest_bucket {α : Type} {action : α → FastMatch} {hit : α → Bool} {f : Pattern → Option α}
    {B : Bucket → Prop} {P : FastMatch → Prop} (hB : ∀ p, B (bucket p) → (f p).isSome)
    (hf : ∀ p a, f p = some a → B (bucket p) ∧ action a = p.fast ∧ hit a = test name is_dir p)
    (hsorted : ps.Pairwise fun p q => p.index ≤ q.index) (h : Latest P best) :
    Latest (fun m => P m ∨ Found ps name is_dir limit B m)
      (scan action hit limit (ps.filterMap f).reverse best) := by
  have hpairwise : (ps.filterMap f).reverse.Pairwise fun a b =>
      (action b).index ≤ (action a).index := by
    rw [pairwise_reverse]
    refine List.Pairwise.filterMap f (fun p q hpq a ha b hb => ?_) hsorted
    rw [(hf p a ha).2.1, (hf q b hb).2.1]
    exact hpq
  refine (latest_scan h hpairwise).congr fun m => or_congr .rfl ?_
  simp only [Found, Hits, mem_reverse, mem_filterMap]
  constructor
  · rintro ⟨p, hp, hb, rfl, hbelow, _⟩
    obtain ⟨a, ha⟩ := isSome_iff_exists.mp (hB p hb)
    obtain ⟨-, hact, hhit⟩ := hf p a ha
    exact ⟨a, ⟨p, hp, ha⟩, hact.symm, by rwa [hact], by rwa [hhit]⟩
  · rintro ⟨a, ⟨p, hp, ha⟩, rfl, hbelow, hhit⟩
    obtain ⟨hb, hact, hhit'⟩ := hf p a ha
    exact ⟨p, hp, hb, hact, by rwa [hact] at hbelow, by rwa [← hhit']⟩

/-- The entries of a hash map under one key. -/
theorem latest_key {map : List FastMatch} {key : Bucket}
    (hmap : map = ps.filterMap fun p => if bucket p = key then some p.fast else none)
    (htest : ∀ p, bucket p = key → test name is_dir p = p.fast.allows is_dir)
    (hsorted : ps.Pairwise fun p q => p.index ≤ q.index) :
    Latest (Found ps name is_dir limit (· = key)) (latest_fast map is_dir limit) := by
  rw [latest_fast_eq_scan, hmap]
  have hnone : Latest (fun _ => False) none := fun _ => id
  refine (latest_bucket name is_dir limit (B := (· = key)) ?_ ?_ hsorted hnone).congr
    fun m => (iff_of_eq (false_or _)).symm
  · intro p hp
    simp [hp]
  · intro p a ha
    obtain ⟨hp, rfl⟩ := (ite_none_right_eq_some.mp ha).imp_right Option.some.inj
    exact ⟨hp, rfl, (htest p hp).symm⟩

/-- **The index answers for the last match below the limit.** -/
theorem latest_best_match {m : Gitignore} (hfiles : m.Files ps)
    (hsorted : ps.Pairwise fun p q => p.index ≤ q.index) :
    Latest (fun a => ∃ p ∈ ps, a = p.fast ∧ below limit p.index = true ∧
      p.matches_name name is_dir = true) (m.best_match name is_dir limit) := by
  have hliteral : Latest (Found ps name is_dir limit (· = .literal name))
      (latest_fast (m.literals name) is_dir limit) :=
    latest_key name is_dir limit (hfiles.literals name) (fun p hp => by simp [test, hp]) hsorted
  have hextension : Latest
      (Found ps name is_dir limit (fun b => ∃ e, last_dot name = some e ∧ b = .extension e))
      ((last_dot name).bind fun ext => latest_fast (m.extensions ext) is_dir limit) := by
    cases he : last_dot name with
    | none => exact fun a ⟨_, _, ⟨e, h, _⟩, _⟩ => by simp at h
    | some e =>
      refine (latest_key name is_dir limit (hfiles.extensions e)
        (fun p hp => by simp [test, hp, he]) hsorted).congr fun a => ?_
      simp [Found]
  rw [best_match]
  simp only [scan_byte_fast, scan_fixed_suffixes, scan_patterns, hfiles.prefixes, hfiles.suffixes,
    hfiles.contains, hfiles.fixed_suffixes, hfiles.general]
  refine (latest_bucket name is_dir limit (B := (· = .general)) ?_ ?_ hsorted
    (latest_bucket name is_dir limit (B := fun b => ∃ width, b = .fixedSuffix width) ?_ ?_ hsorted
    (latest_bucket name is_dir limit (B := fun b => ∃ bytes, b = .contains bytes) ?_ ?_ hsorted
    (latest_bucket name is_dir limit (B := fun b => ∃ bytes, b = .ends bytes) ?_ ?_ hsorted
    (latest_bucket name is_dir limit (B := fun b => ∃ bytes, b = .starts bytes) ?_ ?_ hsorted
      (hliteral.or hextension)))))).congr fun a => ?_
  case refine_11 =>
    simp only [found_or]
    refine exists_congr fun p => and_congr_right fun _ => ?_
    rw [← test_eq]
    refine (and_iff_right_of_imp fun ⟨_, _, htest⟩ => ?_).symm
    -- A name found by a key is found under its own.
    cases hb : bucket p <;> simp_all [test]
  case refine_1 => exact fun p hp => by simp [hp]
  case refine_3 | refine_5 | refine_7 | refine_9 => exact fun p ⟨_, hp⟩ => by simp [hp]
  all_goals
    intro p a ha
    split at ha
    · rename_i hb
      cases ha
      exact ⟨by simp [hb], rfl, by simp [test, hb]⟩
    · simp at ha

end Best

/-! ## A linear scan -/

/-- Whether a pattern below the limit lets an entry through, and its component means the
name. -/
def Stops (name : Bytes) (is_dir : Bool) (limit : Option ℕ) (p : Pattern) : Prop :=
  (∀ l ∈ limit, p.index < l) ∧ (p.directory_only = true → is_dir = true) ∧
    ∃ c, p.components = [c] ∧ c.Means name

/-- The index and action of the last pattern that a scan of all of them stops at. -/
def LastStop (ps : List Pattern) (name : Bytes) (is_dir : Bool) (limit : Option ℕ) :
    Option (ℕ × Match) → Prop
  | none => ∀ p ∈ ps, ¬Stops name is_dir limit p
  | some (index, result) => ∃ p ∈ ps, Stops name is_dir limit p ∧ p.index = index ∧
      p.result = result ∧ ∀ q ∈ ps, Stops name is_dir limit q → q.index ≤ index

theorem stops_iff {name : Bytes} {is_dir : Bool} {limit : Option ℕ} {p : Pattern}
    (h : p.basename_only = true) :
    Stops name is_dir limit p ↔
      below limit p.index = true ∧ p.matches_name name is_dir = true := by
  obtain ⟨c, hc⟩ := length_eq_one_iff.mp (p.basename_single h)
  have hbelow : below limit p.index = true ↔ ∀ l ∈ limit, p.index < l := by
    cases limit with
    | none => simp [below]
    | some l => simp [below]
  rw [Stops, hbelow, Pattern.matches_name, hc, head?_cons, any_some, Bool.and_eq_true,
    Component.matches_iff]
  refine and_congr_right fun _ => and_congr ?_ ?_
  · cases p.directory_only <;> simp
  · exact ⟨fun ⟨c', hc', hmeans⟩ => (singleton_inj.mp hc') ▸ hmeans, fun h => ⟨c, rfl, h⟩⟩

/-- With distinct indexes there is one last pattern. -/
theorem LastStop.unique {ps : List Pattern} (hindex : (ps.map Pattern.index).Nodup)
    {name : Bytes} {is_dir : Bool} {limit : Option ℕ} {answer answer' : Option (ℕ × Match)}
    (h : LastStop ps name is_dir limit answer) (h' : LastStop ps name is_dir limit answer') :
    answer = answer' := by
  cases answer with
  | none =>
    cases answer' with
    | none => rfl
    | some last' =>
      obtain ⟨p, hp, hstop, -⟩ := h'
      exact absurd hstop (h p hp)
  | some _ =>
    obtain ⟨p, hp, hstop, hi, hr, hmax⟩ := h
    cases answer' with
    | none => exact absurd hstop (h' p hp)
    | some last' =>
      obtain ⟨q, hq, hstop', hi', hr', hmax'⟩ := h'
      have hle := hmax' p hp hstop
      have hle' := hmax q hq hstop'
      have heq : p = q := inj_on_of_nodup_map hindex hp hq (by omega)
      subst heq
      exact congrArg some (Prod.ext (hi.symm.trans hi') (hr.symm.trans hr'))

/-- **The buckets answer as a linear scan does**, whatever shapes the patterns have and in
whatever order they come. -/
theorem best_below_iff {ps : List Pattern} (hbasename : ∀ p ∈ ps, p.basename_only = true)
    (hindex : (ps.map Pattern.index).Nodup) (name : Bytes) (is_dir : Bool) (limit : Option ℕ)
    (answer : Option (ℕ × Match)) :
    (from_patterns ps).best_below name is_dir limit = answer ↔
      LastStop ps name is_dir limit answer := by
  have hlatest := latest_best_match name is_dir limit
    (files_foldl (ps.insertionSort fun p q => p.index ≤ q.index))
    (pairwise_insertionSort (fun p q : Pattern => p.index ≤ q.index) ps)
  simp only [mem_insertionSort] at hlatest
  have hstop : LastStop ps name is_dir limit ((from_patterns ps).best_below name is_dir limit) := by
    rw [best_below, from_patterns]
    cases hbest : ((ps.insertionSort fun p q => p.index ≤ q.index).foldl push empty).best_match
        name is_dir limit with
    | none =>
      rw [hbest] at hlatest
      intro p hp hstops
      obtain ⟨hbelow, hmatch⟩ := (stops_iff (hbasename p hp)).mp hstops
      exact hlatest p.fast ⟨p, hp, rfl, hbelow, hmatch⟩
    | some _ =>
      rw [hbest] at hlatest
      obtain ⟨⟨p, hp, rfl, hbelow, hmatch⟩, hmax⟩ := hlatest
      refine ⟨p, hp, (stops_iff (hbasename p hp)).mpr ⟨hbelow, hmatch⟩, rfl, rfl, fun q hq hq' => ?_⟩
      obtain ⟨hbelow', hmatch'⟩ := (stops_iff (hbasename q hq)).mp hq'
      exact hmax q.fast ⟨q, hq, rfl, hbelow', hmatch'⟩
  exact ⟨fun h => h ▸ hstop, fun h => hstop.unique hindex h⟩

/-- A line of one literal name. -/
def named (index : ℕ) (name : { bytes : Bytes // bytes ≠ [] }) (result : Match) : Pattern where
  index := index
  result := result
  directory_only := false
  basename_only := true
  components := [.glob ⟨[.literal name]⟩]
  components_ne := nofun
  basename_single := fun _ => rfl

theorem best_below_named :
    let a : { bytes : Bytes // bytes ≠ [] } := ⟨ascii "a", by decide⟩
    (from_patterns [named 5 a .ignore, named 2 a .whitelist]).best_below (ascii "a") false (some 5)
      = some (2, .whitelist) :=
  (best_below_iff (by decide) (by decide) (ascii "a") false (some 5) _).mpr
    ⟨named 2 ⟨ascii "a", by decide⟩ .whitelist, by simp,
      ⟨by decide, by decide, _, rfl, [ascii "a"], .cons rfl .nil, by simp⟩, rfl, rfl,
      fun q hq hstops => by
        have hlt := hstops.1 5 rfl
        rcases mem_cons.mp hq with rfl | hq
        · exact absurd hlt (by decide)
        · rw [mem_singleton.mp hq]
          exact le_rfl⟩

end Gitignore

end Ferret.Policy
