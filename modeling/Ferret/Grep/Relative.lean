import Ferret.Find.Resolve
import Mathlib.Data.List.Infix

/-!
# A path under the working directory

A grep walk matches globs against the path below the directory it was started in. Taking
that directory off the front is done with components, which drop `.` and repeated slashes:
`strip_prefix` is that. Every walked entry asks, so `relative_to` first compares the bytes.
It may, as `relative_to_eq` says: where a spelling has no empty and no `.` component, the
bytes between its slashes are its components.
-/

namespace Ferret.Grep

open Find.Walk List

/-! ## Stripping components -/

/-- Takes the components off the front of some segments. -/
def strip_components : List Text → List Component → Option (List Text)
  | segments, [] => some segments
  | [], _ :: _ => none
  | segment :: rest, c :: base =>
    match component segment with
    | none => strip_components rest (c :: base)
    | some found => if found = c then strip_components rest base else none

/-- Whether a segment is empty or `.`. -/
def idle (segment : Text) : Bool := component segment = none

/-- Some segments without the separators and `.` at either end. -/
def trim (segments : List Text) : List Text := (segments.dropWhile idle).rdropWhile idle

/-- What is left of an absolute path below an absolute one: `Path::strip_prefix`. -/
def strip_prefix (path base : Text) : Option Text :=
  (strip_components (segments path) (parts (segments base))).map fun rest =>
    [SLASH].intercalate (trim rest)

/-! ## Comparing bytes -/

/-- No empty or `.` component, and no trailing separator. -/
def plain (bytes : Text) : Bool :=
  bytes = [SLASH] ∨ ¬ ([SLASH] <:+ bytes ∨ SLASH :: DOT <:+ bytes ∨ [SLASH, SLASH] <:+: bytes
    ∨ SLASH :: (DOT ++ [SLASH]) <:+: bytes)

def plain_relative (bytes : Text) : Bool :=
  bytes = [] ∨ ¬ (bytes = DOT ∨ DOT ++ [SLASH] <+: bytes) ∧ plain bytes = true

/-- `path` under the absolute `cwd`, as `strip_prefix` gives it, else `path` itself. -/
def relative_to (path cwd : Text) : Text :=
  if isAbsolute path = false then path
  else if plain cwd then
    let rest := path.drop cwd.length
    if cwd <+: path ∧ (cwd = [SLASH] ∨ rest = [] ∨ rest.head? = some SLASH) then
      let rest := rest.dropWhile (· = SLASH)
      if plain_relative rest then rest else ( strip_prefix path cwd).getD path
    -- the components that would have to equal those of `cwd` differ from it as bytes
    else if plain (path.take (min cwd.length path.length)) then path
    else ( strip_prefix path cwd).getD path
  else ( strip_prefix path cwd).getD path

/-! ## The segments of a text -/

variable {x y s p : Text} {ps : List Text}

theorem idle_iff : idle s = true ↔ s = [] ∨ s = DOT := by
  unfold idle component
  split_ifs with h h' <;> simp [h]

theorem segments_cons (h : segments x = p :: ps) :
    (ps = [] ∧ x = p) ∨ ∃ x', x = p ++ SLASH :: x' ∧ segments x' = ps := by
  by_cases hx : SLASH ∈ x
  · obtain ⟨u, v, rfl, hu⟩ := eq_append_cons_of_mem hx
    rw [segments_join, segments_of_notMem hu] at h
    cases h
    exact .inr ⟨v, rfl, rfl⟩
  · rw [segments_of_notMem hx] at h
    cases h
    exact .inl ⟨rfl, rfl⟩

theorem segments_ne_nil (x : Text) : segments x ≠ [] := splitOn_ne_nil _ _

/-- A segment stands between two slashes, where one is put at either end. -/
theorem mem_segments_iff (hs : SLASH ∉ s) :
    s ∈ segments y ↔ SLASH :: (s ++ [SLASH]) <:+: SLASH :: (y ++ [SLASH]) := by
  constructor
  · intro h
    obtain ⟨l, hl⟩ : ∃ l, segments y = l := ⟨_, rfl⟩
    induction l generalizing y with
    | nil => exact absurd hl (segments_ne_nil y)
    | cons p ps ih =>
      obtain ⟨rfl, rfl⟩ | ⟨x, rfl, rfl⟩ := segments_cons hl
      · obtain rfl := mem_singleton.mp (hl ▸ h)
        exact infix_rfl
      · rcases mem_cons.mp (hl ▸ h) with rfl | h
        · exact ⟨[], x ++ [SLASH], by simp⟩
        · exact (ih h rfl).trans ⟨SLASH :: p, [], by simp⟩
  · rintro ⟨a, b, h⟩
    have hboth := congrArg segments h
    rw [append_assoc, cons_append, append_assoc, singleton_append, segments_join, segments_join,
      segments_of_notMem hs, ← nil_append (SLASH :: _), segments_join, segments_join] at hboth
    obtain ⟨p, ps, hps⟩ := exists_cons_of_ne_nil (segments_ne_nil a)
    obtain hnil | ⟨t, l, hl⟩ := eq_nil_or_concat (segments b)
    · exact absurd hnil (segments_ne_nil b)
    have hmid : ps ++ s :: t ++ [l] = segments y ++ segments [] := by
      rw [hps, hl] at hboth
      simpa using (cons.inj hboth).2
    rw [← (append_inj' hmid rfl).1]
    exact mem_append_right _ (.head _)

/-! ## Plain spellings -/

/-- **A plain spelling** of an absolute path has no idle segment, but for the root's. -/
theorem plain_iff : plain (SLASH :: y) = true ↔ y = [] ∨ ∀ s ∈ segments y, idle s = false := by
  have hstands {s : Text} (hs : SLASH ∉ s) : s ∈ segments y
      ↔ SLASH :: s <:+ SLASH :: y ∨ SLASH :: (s ++ [SLASH]) <:+: SLASH :: y := by
    rw [mem_segments_iff hs, ← cons_append, ← cons_append, infix_concat_iff,
      suffix_append_self_iff]
  have hidle : (∀ s ∈ segments y, idle s = false) ↔ ¬ ([] ∈ segments y ∨ DOT ∈ segments y) := by
    simp only [← Bool.not_eq_true, idle_iff]
    constructor
    · rintro h (hmem | hmem)
      exacts [h _ hmem (.inl rfl), h _ hmem (.inr rfl)]
    · rintro h s hs (rfl | rfl)
      exacts [h (.inl hs), h (.inr hs)]
  rw [plain, decide_eq_true_iff, hidle, hstands not_mem_nil, hstands (by decide)]
  refine or_congr (by simp) (not_congr ?_)
  rw [nil_append, or_or_or_comm, or_assoc]

theorem plain_relative_iff (hy : y.head? ≠ some SLASH) :
    plain_relative y = true ↔ y = [] ∨ ∀ s ∈ segments y, idle s = false := by
  cases y with
  | nil => exact iff_of_true rfl (.inl rfl)
  | cons b y =>
    have hb : b ≠ SLASH := fun h => hy (congrArg some h)
    rw [← plain_iff, plain_relative, plain, plain, decide_eq_true_iff]
    simp only [suffix_cons_iff, infix_cons_iff, cons_prefix_cons, cons.injEq, hb, hb.symm, DOT]
    grind

/-! ## What is left -/

theorem trim_self {l : List Text} (h : ∀ s ∈ l, idle s = false) : trim l = l := by
  rw [trim, dropWhile_eq_self_iff.mpr, rdropWhile_eq_self_iff.mpr]
  · exact fun hl => by simp [h _ (getLast_mem hl)]
  · exact fun hl => by simp [h _ (getElem_mem hl)]

/-- Without separators at its front, a plain rest is what stripping leaves. -/
theorem intercalate_trim (h : plain_relative (x.dropWhile (· = SLASH)) = true) :
    [SLASH].intercalate (trim (segments x)) = x.dropWhile (· = SLASH) := by
  induction x with
  | nil => rfl
  | cons b x ih =>
    by_cases hb : b = SLASH
    · subst hb
      rw [dropWhile_cons_of_pos (by simp)] at h ⊢
      rw [← ih h, ← nil_append (SLASH :: x), segments_join]
      rfl
    · rw [dropWhile_cons_of_neg (by simpa using hb)] at h ⊢
      have hkept := ((plain_relative_iff (by simpa using hb)).mp h).resolve_left (cons_ne_nil _ _)
      rw [trim_self hkept]
      exact intercalate_splitOn SLASH

/-! ## What is stripped -/

theorem component_of_kept (h : idle s = false) : ∃ c, component s = some c ∧ c.text = s := by
  unfold idle component at *
  split_ifs at h ⊢ with hidle hdots
  · cases h
  · exact ⟨_, rfl, hdots.symm⟩
  · exact ⟨_, rfl, rfl⟩

theorem strip_append {l : List Text} (h : ∀ s ∈ l, idle s = false) (rest : List Text) :
    strip_components (l ++ rest) (parts l) = some rest := by
  induction l with
  | nil => rw [nil_append, parts, filterMap_nil, strip_components]
  | cons s l ih =>
    obtain ⟨c, hc, -⟩ := component_of_kept (h s (.head _))
    rw [parts_cons_some hc, cons_append, strip_components, hc]
    exact (if_pos rfl).trans (ih fun s hs => h s (.tail _ hs))

theorem segments_root (x : Text) : segments (SLASH :: x) = [] :: segments x := segments_join [] x

/-- The root's segment is passed over. -/
theorem strip_root (hy : ∀ s ∈ segments y, idle s = false) (x : Text) :
    strip_components (segments (SLASH :: x)) (parts (segments (SLASH :: y)))
      = strip_components (segments x) (parts (segments y)) := by
  obtain ⟨b, _, hbs⟩ := exists_cons_of_ne_nil (segments_ne_nil y)
  obtain ⟨c, hc, -⟩ := component_of_kept (hy b (hbs ▸ .head _))
  rw [segments_root, segments_root, hbs, parts_cons_none component_nil, parts_cons_some hc]
  rfl

theorem mem_segments_take {n : ℕ} (hp : SLASH ∉ p) (hn : p.length ≤ n) :
    p ∈ segments ((p ++ SLASH :: x).take n) := by
  rw [take_append, take_of_length_le hn]
  cases n - p.length with
  | zero => simp [segments_of_notMem hp]
  | succ k =>
    rw [take_succ_cons, segments_join, segments_of_notMem hp]
    exact .head _

/-- **Where the components are a prefix, so are the bytes**, if they are spelled plainly. -/
theorem below_of_strip {l rest : List Text} (hl : segments y = l) (hy : ∀ s ∈ l, idle s = false)
    (hx : ∀ s ∈ segments (x.take y.length), idle s = false)
    (h : strip_components (segments x) (parts l) = some rest) :
    x = y ∨ ∃ r, x = y ++ SLASH :: r := by
  induction l generalizing x y with
  | nil => exact absurd hl (segments_ne_nil y)
  | cons b bs ih =>
    obtain ⟨hb, hbs⟩ := forall_mem_cons.mp hy
    obtain ⟨c, hc, hctext⟩ := component_of_kept hb
    obtain ⟨p, ps, hps⟩ := exists_cons_of_ne_nil (segments_ne_nil x)
    rw [hps, parts_cons_some hc, strip_components] at h
    have hslash : SLASH ∉ p := notMem_segments (show p ∈ segments x from hps ▸ .head _)
    have hfirst : idle p = false := by
      by_contra hidle
      rw [Bool.not_eq_false] at hidle
      rw [show component p = none from of_decide_eq_true hidle] at h
      obtain ⟨rfl, rfl⟩ | ⟨x', rfl, -⟩ := segments_cons hps
      · cases h
      · have hlen : p.length ≤ y.length := by
          cases y with
          | nil =>
            cases hl
            cases hb
          | cons a y =>
            rcases idle_iff.mp hidle with rfl | rfl
            · exact Nat.zero_le _
            · exact Nat.le_add_left ..
        cases hidle.symm.trans (hx p (mem_segments_take hslash hlen))
    obtain ⟨d, hd, hdtext⟩ := component_of_kept hfirst
    rw [hd] at h
    obtain ⟨rfl, hmore⟩ : d = c ∧ strip_components ps (parts bs) = some rest :=
      Option.ite_none_right_eq_some.mp h
    obtain rfl : p = b := hdtext.symm.trans hctext
    obtain ⟨rfl, rfl⟩ | ⟨y', rfl, hy'⟩ := segments_cons hl
    · exact (segments_cons hps).imp And.right fun ⟨r, hr, _⟩ => ⟨r, hr⟩
    · obtain ⟨rfl, rfl⟩ | ⟨x', rfl, rfl⟩ := segments_cons hps
      · obtain ⟨q, _, hqs⟩ := exists_cons_of_ne_nil (segments_ne_nil y')
        obtain ⟨e, he, -⟩ := component_of_kept (hbs q (hy' ▸ hqs ▸ .head _))
        rw [← hy', hqs, parts_cons_some he] at hmore
        cases hmore
      · have hxs : ∀ s ∈ segments (x'.take y'.length), idle s = false := by
          rw [length_append, take_length_add_append, length_cons, take_succ_cons, segments_join]
            at hx
          exact fun s hs => hx s (mem_append_right _ hs)
        obtain rfl | ⟨r, rfl⟩ := ih hy' hbs hxs hmore
        · exact .inl rfl
        · exact .inr ⟨r, by simp⟩

/-! ## The bytes and the components agree -/

/-- Below a plain directory, the bytes after it are what stripping leaves. -/
theorem strip_prefix_below (hy : y = [] ∨ ∀ s ∈ segments y, idle s = false)
    (hx : y = [] ∨ x = [] ∨ x.head? = some SLASH)
    (hrest : plain_relative (x.dropWhile (· = SLASH)) = true) :
    strip_prefix (SLASH :: (y ++ x)) (SLASH :: y) = some (x.dropWhile (· = SLASH)) := by
  obtain ⟨l, hl, hjoin⟩ : ∃ l, strip_components (segments (SLASH :: (y ++ x)))
      (parts (segments (SLASH :: y))) = some l
      ∧ [SLASH].intercalate (trim l) = x.dropWhile (· = SLASH) := by
    rcases hy with rfl | hy
    · refine ⟨segments (SLASH :: x), by rw [nil_append]; rfl, ?_⟩
      exact intercalate_trim (x := SLASH :: x) hrest
    · rcases hx with rfl | rfl | hx
      · cases hy [] (.head _)
      · refine ⟨[], ?_, rfl⟩
        rw [append_nil, strip_root hy]
        simpa using strip_append hy []
      · obtain ⟨x, rfl⟩ := head?_eq_some_iff.mp hx
        refine ⟨segments x, ?_, intercalate_trim hrest⟩
        rw [strip_root hy, segments_join, strip_append hy]
  rw [ strip_prefix, hl, Option.map_some, hjoin]

/-- Nothing is stripped where the bytes that are compared are plain and differ. -/
theorem strip_prefix_eq_none (hne : y ≠ []) (hy : ∀ s ∈ segments y, idle s = false)
    (hx : plain (SLASH :: x.take y.length) = true)
    (hnot : ¬ (x = y ∨ ∃ r, x = y ++ SLASH :: r)) :
    strip_prefix (SLASH :: x) (SLASH :: y) = none := by
  rw [ strip_prefix, Option.map_eq_none_iff, strip_root hy,
    Option.eq_none_iff_forall_ne_some]
  intro rest h
  refine hnot (below_of_strip rfl hy ?_ h)
  refine (plain_iff.mp hx).resolve_left fun hnil => ?_
  obtain rfl := (take_eq_nil_iff.mp hnil).resolve_left (by simpa using hne)
  obtain ⟨b, _, hbs⟩ := exists_cons_of_ne_nil (segments_ne_nil y)
  obtain ⟨c, hc, -⟩ := component_of_kept (hy b (hbs ▸ .head _))
  rw [hbs, parts_cons_some hc] at h
  cases h

/-- **A path relative to the working directory** is what stripping its components gives, byte
for byte, and the path itself where it is not below it or not absolute. -/
theorem relative_to_eq (path : Text) {cwd : Text} (hcwd : isAbsolute cwd = true) :
    relative_to path cwd
      = if isAbsolute path then ( strip_prefix path cwd).getD path else path := by
  unfold relative_to
  cases hpath : isAbsolute path with
  | false => rfl
  | true =>
    obtain ⟨y, rfl⟩ : ∃ y, cwd = SLASH :: y := head?_eq_some_iff.mp (of_decide_eq_true hcwd)
    obtain ⟨x, rfl⟩ : ∃ x, path = SLASH :: x := head?_eq_some_iff.mp (of_decide_eq_true hpath)
    rw [if_neg nofun, if_pos rfl]
    dsimp only
    split_ifs with hplain hbelow hrest hslice
    · obtain ⟨⟨r, hr⟩, hbelow⟩ := hbelow
      obtain rfl : y ++ r = x := (cons.inj hr).2
      rw [length_cons, drop_succ_cons, drop_left] at hbelow hrest ⊢
      rw [ strip_prefix_below (plain_iff.mp hplain) (by simpa using hbelow) hrest]
      rfl
    · rfl
    · rw [← take_eq_take_min, length_cons, take_succ_cons] at hslice
      have hne : y ≠ [] := by
        rintro rfl
        exact hbelow ⟨⟨x, rfl⟩, .inl rfl⟩
      rw [ strip_prefix_eq_none hne ((plain_iff.mp hplain).resolve_left hne) hslice]
      · rfl
      · rintro (rfl | ⟨r, rfl⟩)
        · exact hbelow ⟨prefix_rfl, .inr (.inl (by simp))⟩
        · exact hbelow ⟨⟨SLASH :: r, rfl⟩, .inr (.inr (by simp))⟩
    · rfl
    · rfl

/-- `/a/b/c` is `c` under `/a/b`. -/
theorem relative_to_below : relative_to [47, 97, 47, 98, 47, 99] [47, 97, 47, 98] = [99] :=
  (relative_to_eq _ rfl).trans (by decide +kernel)

end Ferret.Grep
