import Ferret.Catalog.Overlay

/-!
# The paths of a run

A run gives every row its path. Rows come grouped by their parent, so the path
of the last parent is kept at the front of a buffer, and so is the path of the
directory above it, for the next parent is most often a sibling. Both prefixes
stay as they are while names are put behind them (`Run.Holds`), and so the
paths are those of a walk up from every parent (`resolved_iff`).
-/

namespace Ferret.Query

open Catalog Catalog.Overlay Guarded List

/-- What a run keeps of paths: the directory whose path `path` starts with, and the one above
it, each with the length of its path. -/
structure Run where
  dir : Option (ℕ × ℕ)
  up : Option (ℕ × ℕ)
  path : Bytes

def Run.new : Run where
  dir := none
  up := none
  path := []

def push_slash (path : Bytes) : Bytes :=
  if path.getLast? = some 47 then path else path ++ [47]

/-- The run at the end of `dir`'s path. -/
def Run.entered (r : Run) (dir : ℕ) (path : Bytes) : Run :=
  { r with dir := some (dir, path.length), path := path }

section

variable (o : Overlay) (fuel : ℕ)

/-- A directory's path, by a walk of fewer than `fuel` steps up to its root. -/
def dir_path (dir : ℕ) : Guarded OpenError Bytes := do
  let (top, up) ← o.ascend fuel [] dir
  return up.foldl push_component ((o.roots.find? (·.1 = top)).elim [] Prod.snd)

/-- Sets `path` to `parent`'s path and a `/`, and keeps it as the one above. -/
def climb (r : Run) (parent : ℕ) : Guarded OpenError Run := do
  let path := push_slash (← dir_path o fuel parent)
  return { r with up := some (parent, path.length), path := path }

/-- Sets `path` to `parent`'s path and a `/`, which the run may keep. -/
def above (r : Run) (parent : ℕ) : Guarded OpenError Run :=
  match r.up with
  | some (up, len) =>
    if up = parent then return { r with path := r.path.take len } else climb o fuel r parent
  | none => climb o fuel r parent

/-- Sets `path` to `dir`'s path and a `/`. -/
def enter (r : Run) (dir : ℕ) : Guarded OpenError Run :=
  match o.dir_name dir with
  | some edge =>
    match o.name edge with
    | some edge => do
      let r ← above o fuel r edge.parent
      return r.entered dir (push_slash (r.path ++ edge.bytes))
    | none => .error .panic
  | none => do
    return { r with up := none }.entered dir (push_slash (← dir_path o fuel dir))

/-- Sets `path` to `parent`'s path and a `/`, if it is not that of the directory the run is in. -/
def arrive (r : Run) (parent : ℕ) : Guarded OpenError Run :=
  match r.dir with
  | some (dir, len) =>
    if dir = parent then return { r with path := r.path.take len } else enter o fuel r parent
  | none => enter o fuel r parent

/-- Sets `path` to `parent`'s path plus `name`. -/
def resolve (r : Run) (parent : ℕ) (name : Bytes) : Guarded OpenError Run := do
  let r ← arrive o fuel r parent
  return { r with path := r.path ++ name }

/-- The paths of rows in the order they come. -/
def resolved (r : Run) : List (ℕ × Bytes) → Guarded OpenError (List Bytes)
  | [] => return []
  | (parent, name) :: rows => do
    let r ← resolve o fuel r parent name
    return r.path :: (← resolved r rows)

end

/-- The walk of the catalog takes as many steps as there are inodes. -/
theorem dir_path_eq (o : Overlay) (dir : ℕ) : o.dir_path dir = dir_path o (o.next_inode + 1) dir :=
  rfl

variable {o : Overlay} {fuel fuel' : ℕ} {dir parent : ℕ} {p name : Bytes} {r r' : Run}

/-! ## Walks -/

/-- What is collected on the way up goes behind. -/
theorem ascend_eq (up : List Bytes) :
    o.ascend fuel up dir = (fun found => (found.1, found.2 ++ up)) <$> o.ascend fuel [] dir := by
  induction fuel generalizing dir up with
  | zero => rfl
  | succ fuel ih =>
    unfold ascend
    cases o.dir_name dir with
    | none => rfl
    | some edge =>
      cases hname : o.name edge with
      | none => simp only [hname]; rfl
      | some n =>
        simp only [hname]
        rw [ih (n.bytes :: up), ih [n.bytes]]
        cases o.ascend fuel [] n.parent with
        | error e => rfl
        | ok found => exact congrArg (fun l => Except.ok (found.1, l)) (append_cons ..)

/-- A walk that ends needs no more steps. -/
theorem ascend_mono (hle : fuel ≤ fuel') {up : List Bytes} {found : ℕ × List Bytes}
    (h : o.ascend fuel up dir = .ok found) : o.ascend fuel' up dir = .ok found := by
  induction fuel generalizing dir up fuel' with
  | zero => cases h
  | succ fuel ih =>
    obtain ⟨_, rfl⟩ := Nat.exists_eq_add_of_le' hle
    unfold ascend at h ⊢
    cases hedge : o.dir_name dir with
    | none => simpa only [hedge] using h
    | some edge =>
      cases hname : o.name edge with
      | none => simp only [hedge, hname] at h; cases h
      | some n =>
        simp only [hedge, hname] at h ⊢
        exact ih (Nat.le_add_left ..) h

theorem dir_path_mono (hle : fuel ≤ fuel') (h : dir_path o fuel dir = .ok p) :
    dir_path o fuel' dir = .ok p := by
  unfold dir_path at h ⊢
  obtain ⟨found, hfound, h⟩ := bind_eq_ok.mp h
  exact bind_eq_ok.mpr ⟨found, ascend_mono hle hfound, h⟩

/-- **A directory's path is its parent's, and its name.** -/
theorem dir_path_succ {edge : ℕ} {n : Name} (hedge : o.dir_name dir = some edge)
    (hname : o.name edge = some n) :
    dir_path o (fuel + 1) dir = (fun p => push_component p n.bytes) <$> dir_path o fuel n.parent := by
  unfold dir_path
  rw [ascend, hedge]
  simp only [hname]
  rw [ascend_eq]
  cases o.ascend fuel [] n.parent with
  | error e => rfl
  | ok _ =>
    show Except.ok _ = Except.ok _
    rw [foldl_append]
    rfl

/-- **An uncached walk gives a directory's path.** -/
def Walks (o : Overlay) (dir : ℕ) (p : Bytes) : Prop := ∃ fuel, dir_path o fuel dir = .ok p

/-! ## What a run keeps -/

/-- A prefix that is kept: the path of a directory and a `/`. -/
def Prefix (o : Overlay) (path : Bytes) (kept : ℕ × ℕ) : Prop :=
  ∃ p, Walks o kept.1 p ∧ path.take kept.2 = push_slash p ∧ kept.2 = (push_slash p).length

/-- **What a run holds**: the prefixes it keeps, the one above within the other. -/
structure Run.Holds (o : Overlay) (r : Run) : Prop where
  dir : ∀ kept ∈ r.dir, Prefix o r.path kept
  up : ∀ kept ∈ r.up, Prefix o r.path kept
  within : ∀ above ∈ r.up, ∀ kept ∈ r.dir, above.2 ≤ kept.2

theorem prefix_push_slash (path : Bytes) : path <+: push_slash path := by
  unfold push_slash
  split_ifs
  · exact prefix_rfl
  · exact prefix_append path [47]

theorem Prefix.of_path {path : Bytes} (h : Walks o dir p) (hpath : push_slash p <+: path) :
    Prefix o path (dir, (push_slash p).length) :=
  ⟨p, h, (prefix_iff_eq_take.mp hpath).symm, rfl⟩

theorem Prefix.same {path path' : Bytes} {kept : ℕ × ℕ} (h : Prefix o path kept)
    (hpath : path.take kept.2 = path'.take kept.2) : Prefix o path' kept := by
  obtain ⟨p, hp, htake, hlen⟩ := h
  exact ⟨p, hp, hpath ▸ htake, hlen⟩

theorem above_spec (hr : r.Holds o) (h : above o fuel r parent = .ok r') :
    ∃ q, Walks o parent q ∧ r'.path = push_slash q ∧
      r'.up = some (parent, (push_slash q).length) := by
  have hclimb (h : climb o fuel r parent = .ok r') : ∃ q, Walks o parent q ∧
      r'.path = push_slash q ∧ r'.up = some (parent, (push_slash q).length) := by
    obtain ⟨q, hq, h⟩ := bind_eq_ok.mp h
    rw [← pure_eq_ok.mp h]
    exact ⟨q, ⟨fuel, hq⟩, rfl, rfl⟩
  unfold above at h
  split at h
  next up len hup =>
    split_ifs at h with hsame
    · subst hsame
      obtain ⟨q, hq, htake, hlen⟩ := hr.up _ hup
      rw [← pure_eq_ok.mp h]
      exact ⟨q, hq, htake, hlen ▸ hup⟩
    · exact hclimb h
  next => exact hclimb h

/-- **A directory that is entered**: its path, and a run that keeps it. -/
theorem enter_spec (hr : r.Holds o) (h : enter o fuel r dir = .ok r') :
    r'.Holds o ∧ ∃ p, Walks o dir p ∧ r'.path = push_slash p ∧
      r'.dir = some (dir, (push_slash p).length) := by
  unfold enter at h
  split at h
  next edge hedge =>
    split at h
    next n hname =>
      obtain ⟨_, habove, h⟩ := bind_eq_ok.mp h
      obtain ⟨q, ⟨more, hq⟩, hpath, hup⟩ := above_spec hr habove
      rw [← pure_eq_ok.mp h, hpath]
      have hdir : Walks o dir (push_component q n.bytes) := by
        refine ⟨more + 1, ?_⟩
        rw [dir_path_succ hedge hname, hq]
        rfl
      have hover : push_slash q <+: push_slash (push_component q n.bytes) :=
        (prefix_append _ n.bytes).trans (prefix_push_slash _)
      refine ⟨⟨?_, ?_, ?_⟩, _, hdir, rfl, rfl⟩
      · rintro _ ⟨⟩
        exact .of_path hdir prefix_rfl
      · intro kept hkept
        obtain rfl := Option.some.inj (hup.symm.trans hkept)
        exact .of_path ⟨more, hq⟩ hover
      · rintro kept hkept _ ⟨⟩
        obtain rfl := Option.some.inj (hup.symm.trans hkept)
        exact hover.length_le
    next => cases h
  next =>
    obtain ⟨p, hp, h⟩ := bind_eq_ok.mp h
    rw [← pure_eq_ok.mp h]
    refine ⟨⟨?_, ?_, ?_⟩, p, ⟨fuel, hp⟩, rfl, rfl⟩
    · rintro _ ⟨⟩
      exact .of_path ⟨fuel, hp⟩ prefix_rfl
    all_goals rintro _ ⟨⟩

/-- **A row that is resolved**: its path, and a run that keeps what it did. -/
theorem resolve_spec (hr : r.Holds o) (h : resolve o fuel r parent name = .ok r') :
    r'.Holds o ∧ ∃ p, Walks o parent p ∧ r'.path = push_component p name := by
  obtain ⟨r₁, h₁, h⟩ := bind_eq_ok.mp h
  rw [← pure_eq_ok.mp h]
  have hend : r₁.Holds o ∧ ∃ p, Walks o parent p ∧ r₁.path = push_slash p ∧
      r₁.dir = some (parent, (push_slash p).length) := by
    unfold arrive at h₁
    split at h₁
    next kept len hdir =>
      split_ifs at h₁ with hsame
      · subst hsame
        obtain ⟨p, hp, htake, hlen⟩ := hr.dir _ hdir
        rw [← pure_eq_ok.mp h₁]
        refine ⟨⟨fun kept hkept => (hr.dir kept hkept).same ?_, fun kept hkept =>
          (hr.up kept hkept).same ?_, hr.within⟩, p, hp, htake, hlen ▸ hdir⟩
        · obtain rfl := Option.some.inj (hdir.symm.trans hkept)
          rw [take_take, Nat.min_self]
        · rw [take_take, min_eq_left (hr.within kept hkept _ hdir)]
      · exact enter_spec hr h₁
    next => exact enter_spec hr h₁
  obtain ⟨hholds, p, hp, hpath, hdir⟩ := hend
  have hkeep : ∀ kept, Prefix o r₁.path kept → Prefix o (r₁.path ++ name) kept := by
    rintro kept ⟨q, hq, htake, hlen⟩
    have hover : push_slash q <+: r₁.path := htake ▸ take_prefix ..
    exact ⟨q, hq, hlen ▸ (prefix_iff_eq_take.mp (hover.trans (prefix_append _ name))).symm,
      hlen⟩
  exact ⟨⟨fun kept hkept => hkeep kept (hholds.dir kept hkept),
    fun kept hkept => hkeep kept (hholds.up kept hkept), hholds.within⟩, p, hp, by rw [hpath]; rfl⟩

/-- Where a walk ends in so many steps, so does a row of it. -/
theorem exists_resolve (h : dir_path o fuel parent = .ok p) (r : Run) (name : Bytes) :
    ∃ r', resolve o fuel r parent name = .ok r' := by
  have henter : ∃ r', enter o fuel r parent = .ok r' := by
    unfold enter
    split
    next edge hedge =>
      cases fuel with
      | zero => cases h
      | succ fuel =>
        split
        next n hname =>
          rw [dir_path_succ hedge hname, map_eq_ok] at h
          obtain ⟨q, hq, -⟩ := h
          have hq := dir_path_mono (Nat.le_succ fuel) hq
          have hclimb : ∃ r', climb o (fuel + 1) r n.parent = .ok r' :=
            ⟨_, bind_eq_ok.mpr ⟨q, hq, rfl⟩⟩
          have habove : ∃ r', above o (fuel + 1) r n.parent = .ok r' := by
            unfold above
            split
            · split_ifs
              · exact ⟨_, rfl⟩
              · exact hclimb
            · exact hclimb
          obtain ⟨r', hr'⟩ := habove
          exact ⟨_, bind_eq_ok.mpr ⟨r', hr', rfl⟩⟩
        next hname =>
          rw [dir_path, ascend, hedge] at h
          simp only [hname] at h
          cases h
    next => exact ⟨_, bind_eq_ok.mpr ⟨p, h, rfl⟩⟩
  have hfirst : ∃ r₁, arrive o fuel r parent = .ok r₁ := by
    unfold arrive
    split
    · split_ifs
      · exact ⟨_, rfl⟩
      · exact henter
    · exact henter
  obtain ⟨r₁, hr₁⟩ := hfirst
  exact ⟨_, bind_eq_ok.mpr ⟨r₁, hr₁, rfl⟩⟩

/-! ## The rows of a run -/

variable {rows : List (ℕ × Bytes)}

theorem resolved_walks (hr : r.Holds o) {paths : List Bytes}
    (h : resolved o fuel r rows = .ok paths) :
    List.Forall₂ (fun row path => ∃ p, Walks o row.1 p ∧ path = push_component p row.2) rows paths := by
  induction rows generalizing r paths with
  | nil =>
    rw [← pure_eq_ok.mp h]
    exact .nil
  | cons row rows ih =>
    obtain ⟨_, hr', h⟩ := bind_eq_ok.mp h
    obtain ⟨_, hrest, h⟩ := bind_eq_ok.mp h
    rw [← pure_eq_ok.mp h]
    obtain ⟨hholds, hpath⟩ := resolve_spec hr hr'
    exact .cons hpath (ih hholds hrest)

theorem exists_resolved (h : ∀ row ∈ rows, ∃ p, dir_path o fuel row.1 = .ok p) (r : Run) :
    ∃ paths, resolved o fuel r rows = .ok paths := by
  induction rows generalizing r with
  | nil => exact ⟨[], rfl⟩
  | cons row rows ih =>
    obtain ⟨⟨p, hp⟩, hrows⟩ := forall_mem_cons.mp h
    obtain ⟨r', hr'⟩ := exists_resolve hp r row.2
    obtain ⟨paths, hpaths⟩ := ih hrows r'
    exact ⟨_, bind_eq_ok.mpr ⟨r', hr', bind_eq_ok.mpr ⟨paths, hpaths, rfl⟩⟩⟩

/-- Walks that end, end in so many steps all of them. -/
theorem exists_fuel (h : ∀ row ∈ rows, ∃ p, Walks o row.1 p) :
    ∃ fuel, ∀ row ∈ rows, ∃ p, dir_path o fuel row.1 = .ok p := by
  induction rows with
  | nil => exact ⟨0, fun row hrow => absurd hrow not_mem_nil⟩
  | cons row rows ih =>
    obtain ⟨⟨p, fuel, hp⟩, hrows⟩ := forall_mem_cons.mp h
    obtain ⟨fuel', hfuel'⟩ := ih hrows
    refine ⟨max fuel fuel', forall_mem_cons.mpr ⟨⟨p, ?_⟩, fun row hrow => ?_⟩⟩
    · exact dir_path_mono (le_max_left ..) hp
    · exact (hfuel' row hrow).imp fun _ => dir_path_mono (le_max_right ..)

theorem Walks.unique {q : Bytes} (h : Walks o dir p) (h' : Walks o dir q) : p = q := by
  obtain ⟨fuel, h⟩ := h
  obtain ⟨fuel', h'⟩ := h'
  have hp := dir_path_mono (le_max_left fuel fuel') h
  exact Except.ok.inj (hp.symm.trans (dir_path_mono (le_max_right fuel fuel') h'))

/-- **The paths of a run are those of uncached walks**: whatever the view, and in whatever order
rows come, the run gives paths if and only if every parent's walk ends, and then each is the
parent's path, a `/` and the name. -/
theorem resolved_iff (o : Overlay) (rows : List (ℕ × Bytes)) (paths : List Bytes) :
    (∃ fuel, resolved o fuel .new rows = .ok paths) ↔
      List.Forall₂ (fun row path => ∃ fuel p, dir_path o fuel row.1 = .ok p ∧
        path = push_component p row.2) rows paths := by
  have hwalks : ∀ {paths : List Bytes}, (∃ fuel, resolved o fuel .new rows = .ok paths) →
      List.Forall₂ (fun row path => ∃ p, Walks o row.1 p ∧ path = push_component p row.2)
        rows paths := by
    rintro paths ⟨fuel, h⟩
    refine resolved_walks ⟨?_, ?_, ?_⟩ h
    all_goals exact fun kept hkept => absurd hkept (Option.not_mem_none kept)
  refine ⟨fun h => (hwalks h).imp ?_, fun h => ?_⟩
  · rintro row path ⟨p, ⟨fuel, hp⟩, hpath⟩
    exact ⟨fuel, p, hp, hpath⟩
  · have hrows : ∀ row ∈ rows, ∃ p, Walks o row.1 p := fun row hrow => by
      obtain ⟨i, hi, rfl⟩ := mem_iff_getElem.mp hrow
      obtain ⟨fuel, p, hp, -⟩ := h.get hi (h.length_eq ▸ hi)
      exact ⟨p, fuel, hp⟩
    obtain ⟨fuel, hfuel⟩ := exists_fuel hrows
    obtain ⟨paths', hpaths'⟩ := exists_resolved hfuel .new
    have heq : paths' = paths := by
      refine right_unique_forall₂' ?_ (hwalks ⟨fuel, hpaths'⟩) (h.imp ?_)
      · rintro row _ _ ⟨p, hp, rfl⟩ ⟨q, hq, rfl⟩
        rw [hp.unique hq]
      · rintro row path ⟨fuel, p, hp, hpath⟩
        exact ⟨p, ⟨fuel, hp⟩, hpath⟩
    exact ⟨fuel, heq ▸ hpaths'⟩

end Ferret.Query
