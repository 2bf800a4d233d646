import Ferret.Find.Resolve

/-!
# Path resolution is POSIX's, but for what ends a path

POSIX resolves a path segment by segment, from a directory each. A symlink is
followed if anything comes after it, a slash or a `.` included, and a slash or a
`.` is only for a directory to have. In a tree of directories, files and
symlinks `resolveIn` finds the node POSIX does, or fails as it does, but for two
kinds of paths: one with slashes or a `.` behind a last symlink, which it does
not follow (`not_followed`), and one that needs a file to be a directory where no
name is asked of it. These are all (`resolveIn_posix_iff`).
-/

namespace Ferret.Find.Walk

open List

variable {Node : Type} {ns : Namespace Node} {follow : Bool}

/-! ## What POSIX says -/

namespace Namespace

/-- **A namespace that is a tree** of directories, files and symlinks, without
opaque nodes and with every prefix. -/
structure IsTree (ns : Namespace Node) : Prop where
  clear : ∀ names node below, ns.resolve names = some (node, below) → below = false
  root : ∃ node, ns.resolve [] = some (node, false) ∧ ns.isDirectory node = true
  above : ∀ names name, (ns.resolve (names ++ [name])).isSome →
    ∃ node, ns.resolve names = some (node, false) ∧ ns.isDirectory node = true
  kinds : ∀ node, ns.isDirectory node = true → ns.linkTarget node = none

/-- The names are those of a directory. -/
def isDir (ns : Namespace Node) (names : List Text) : Bool :=
  (ns.resolve names).any fun found => ns.isDirectory found.1

/-- What the names link to, if they are those of a symlink. -/
def target (ns : Namespace Node) (names : List Text) : Option Text :=
  (ns.resolve names).bind fun found => ns.linkTarget found.1

end Namespace

/-- Why a path is not resolved. -/
inductive Stop
  | missing
  /-- The node is no directory, and this is left. -/
  | notDirectory (rest : List Text)
  | loop
deriving DecidableEq

def Stop.errno : Stop → Errno
  | missing => .NOENT
  | notDirectory _ => .NOENT
  | loop => .LOOP

/-- Where resolution comes to before it follows a symlink. -/
inductive Leg
  | reached (names : List Text)
  | stopped (stop : Stop)
  /-- The symlink in this directory, with what is left after it. -/
  | link (names : List Text) (name target : Text) (rest : List Text)

/-- Segment after segment, up to a symlink to follow. -/
def leg (ns : Namespace Node) (follow : Bool) : List Text → List Text → Leg
  | names, [] => .reached names
  | names, segment :: rest =>
    if ns.isDir names then
      match component segment with
      | none => leg ns follow names rest
      | some .parentDir => leg ns follow names.dropLast rest
      | some _ =>
        if ns.resolve (names ++ [segment]) = none then .stopped .missing
        else
          match if follow ∨ rest ≠ [] then ns.target (names ++ [segment]) else none with
          | some target => .link names segment target rest
          | none => leg ns follow (names ++ [segment]) rest
    else .stopped (.notDirectory (segment :: rest))

/-- Where a symlink in a directory leads from. -/
def linkFrom (names : List Text) (target : Text) : List Text :=
  if isAbsolute target then [] else names

/-- Resolution from a directory, with this many symlinks to follow. -/
def resolution (ns : Namespace Node) (follow : Bool) :
    ℕ → List Text → List Text → Except Stop (List Text)
  | budget, names, segs =>
    match leg ns follow names segs with
    | .reached names => .ok names
    | .stopped stop => .error stop
    | .link names _ target rest =>
      match budget with
      | 0 => .error .loop
      | budget + 1 =>
        resolution ns follow budget (linkFrom names target) (segments target ++ rest)

/-- **What POSIX resolves an absolute path to**: the names of the node. -/
def posix (ns : Namespace Node) (follow : Bool) (segs : List Text) : Except Stop (List Text) :=
  resolution ns follow 39 [] segs

/-- The segments of a path, without slashes and `.` at its end. -/
def bare (path : Text) : List Text :=
  (segments path).rdropWhile fun segment => component segment = none

/-! ## Trees -/

variable {names : List Text} {names more : List Text}

namespace Namespace.IsTree

variable (htree : ns.IsTree)
include htree

theorem isDir_iff :
    ns.isDir names = true ↔ ∃ node, ns.resolve names = some (node, false) ∧
      ns.isDirectory node = true := by
  rw [isDir, Option.any_eq_true]
  constructor
  · rintro ⟨⟨node, _⟩, hresolve, hnode⟩
    have hbelow := htree.clear _ _ _ hresolve
    subst hbelow
    exact ⟨node, hresolve, hnode⟩
  · rintro ⟨node, hresolve, hnode⟩
    exact ⟨(node, false), hresolve, hnode⟩

theorem isDir_nil : ns.isDir [] = true := htree.isDir_iff.mpr htree.root

theorem isDir_above {name : Text} (h : (ns.resolve (names ++ [name])).isSome) :
    ns.isDir names = true :=
  htree.isDir_iff.mpr (htree.above _ _ h)

theorem isDir_dropLast (h : ns.isDir names = true) :
    ns.isDir names.dropLast = true := by
  obtain rfl | hnames := eq_or_ne names []
  · exact h
  rw [← dropLast_append_getLast hnames] at h
  obtain ⟨_, hresolve, -⟩ := htree.isDir_iff.mp h
  exact htree.isDir_above (by rw [hresolve]; rfl)

theorem isDir_of_append (h : ns.isDir (names ++ more) = true) :
    ns.isDir names = true := by
  induction more using List.reverseRecOn with
  | nil => rwa [append_nil] at h
  | append_singleton more _ ih =>
    refine ih ?_
    rw [← append_assoc] at h
    obtain ⟨_, hresolve, -⟩ := htree.isDir_iff.mp h
    exact htree.isDir_above (by rw [hresolve]; rfl)

theorem target_of_isDir (h : ns.isDir names = true) :
    ns.target names = none := by
  obtain ⟨node, hresolve, hnode⟩ := htree.isDir_iff.mp h
  rw [target, hresolve]
  exact htree.kinds node hnode

end Namespace.IsTree

/-! ## A walk and a leg -/

/-- A walk that has come to an exact directory. -/
def Walked.inDir (ns : Namespace Node) (names : List Text) : Walked Node where
  names := names
  exact := true
  node := (ns.resolve names).map Prod.fst
  inside := true

/-- A walk goes from an exact directory to the next one. -/
theorem walk_isDir (htree : ns.IsTree) (s : Walked Node) (hexact : s.exact = true)
    (part : Component) (hdir : ns.isDir (enter s.names part) = true) (rest : List Component) :
    walk ns follow s (part :: rest)
      = walk ns follow (.inDir ns (enter s.names part)) rest := by
  obtain ⟨node, hresolve, hnode⟩ := htree.isDir_iff.mp hdir
  rw [walk, if_neg (by simp [hexact])]
  simp only [hresolve, htree.kinds node hnode, ite_self, hnode]
  rw [Walked.inDir, hresolve]
  rfl

/-- A walk comes through the directories above one. -/
theorem walk_names (htree : ns.IsTree) (hdir : ns.isDir (names ++ more) = true)
    (rest : List Component) :
    walk ns follow (.inDir ns names) (more.map .normal ++ rest)
      = walk ns follow (.inDir ns (names ++ more)) rest := by
  induction more generalizing names with
  | nil => rw [append_nil]; rfl
  | cons name more ih =>
    have hassoc : names ++ name :: more = names ++ [name] ++ more := by simp
    rw [hassoc] at hdir ⊢
    rw [← ih hdir]
    exact walk_isDir htree (.inDir ns names) rfl _ (htree.isDir_of_append hdir) _

/-- The components of an absolute path lead a walk to a directory. -/
theorem walk_start (htree : ns.IsTree) (hdir : ns.isDir names = true) (rest : List Component) :
    walk ns follow .start (.rootDir :: (names.map .normal ++ rest))
      = walk ns follow (.inDir ns names) rest := by
  rw [walk_isDir htree .start rfl .rootDir htree.isDir_nil]
  exact walk_names htree (show ns.isDir ([] ++ names) = true from hdir) rest

/-- What is left asks for a name first. -/
def Asks (segs : List Text) : Prop := ∃ name more, parts segs = .normal name :: more

/-- A result is that of POSIX, but where POSIX wants a directory and no name
is asked of it. -/
def Follows (ns : Namespace Node) (result : Except Errno (Option (Node × Bool))) :
    Except Stop (List Text) → Prop
  | .ok names => result = .ok (ns.resolve names)
  | .error (.notDirectory rest) =>
    (Asks rest → result = .error .NOENT) ∧ (¬ Asks rest → ∃ found, result = .ok found)
  | .error stop => result = .error stop.errno

/-- What a walk that follows no symlink answers. -/
def Turn.result (ns : Namespace Node) : Turn Node → Option (Except Errno (Option (Node × Bool)))
  | answer result => some result
  | redirected _ => none
  | walked names => some (.ok (ns.resolve names))

/-- A walk ends as a leg does. -/
def Turn.Ends (ns : Namespace Node) (turn : Turn Node) : Leg → Prop
  | .reached names => turn.result ns = some (.ok (ns.resolve names))
  | .stopped stop => ∃ result, turn.result ns = some result ∧ Follows ns result (.error stop)
  | .link names _ target rest =>
    turn = .redirected (extend (push (render names) target) (parts rest))

/-- Some segments end with a name or `..`. -/
def Tight (segs : List Text) : Prop := ∀ segment ∈ segs.getLast?, component segment ≠ none

variable {rest : List Text} {segment : Text}

theorem Tight.tail (h : Tight (segment :: rest)) :
    Tight rest := by
  intro last hlast
  refine h last ?_
  rw [getLast?_cons]
  rw [Option.mem_def] at hlast
  rw [hlast]
  rfl

variable {segs : List Text}

theorem Tight.parts_ne_nil (h : Tight segs) (hsegs : segs ≠ []) : parts segs ≠ [] := by
  intro hparts
  have hlast := getLast?_eq_some_getLast hsegs
  exact h _ hlast (filterMap_eq_nil_iff.mp hparts _ (getLast_mem hsegs))

/-- Something comes after a symlink: to the code a component, to POSIX any segment. -/
theorem follow_iff (htight : follow = true ∨ Tight (segment :: rest)) :
    (follow = true ∨ parts rest ≠ []) ↔ (follow = true ∨ rest ≠ []) := by
  obtain hfollow | htight := htight
  · simp [hfollow]
  refine or_congr_right ⟨fun hparts hrest => hparts (by rw [hrest]; rfl), fun hrest => ?_⟩
  exact htight.tail.parts_ne_nil hrest

theorem component_eq_normal {part : Component} (h : component segment = some part) :
    part = .parentDir ∨ part = .normal segment := by
  unfold component at h
  split_ifs at h <;> cases h
  · exact .inl rfl
  · exact .inr rfl

/-- **A walk that has come to a file** can only end. -/
theorem walk_file (htree : ns.IsTree) {s : Walked Node} (hdir : ns.isDir s.names = false)
    (hexact : s.exact = false) (hinside : s.inside = true) (rest : List Text) :
    (walk ns follow s (parts rest)).Ends ns (leg ns follow s.names rest) := by
  cases rest with
  | nil => rfl
  | cons segment rest =>
    rw [leg, if_neg (by rw [hdir]; exact Bool.false_ne_true)]
    cases hparts : parts (segment :: rest) with
    | nil =>
      refine ⟨_, rfl, ?_, fun _ => ⟨_, rfl⟩⟩
      rintro ⟨name, more, hasks⟩
      rw [hparts] at hasks
      cases hasks
    | cons part more =>
      have hmem : part ∈ parts (segment :: rest) := by rw [hparts]; exact .head _
      obtain ⟨segment', -, hpart⟩ := mem_filterMap.mp hmem
      obtain rfl | rfl := component_eq_normal hpart
      · rw [walk, if_pos ⟨rfl, hexact⟩]
        refine ⟨_, rfl, ?_, fun _ => ⟨_, rfl⟩⟩
        rintro ⟨name, _, hasks⟩
        rw [hparts] at hasks
        cases hasks
      · have hnone : ns.resolve (enter s.names (.normal segment')) = none := by
          by_contra hsome
          rw [htree.isDir_above (Option.isSome_iff_ne_none.mpr hsome)] at hdir
          cases hdir
        rw [walk, if_neg (by simp)]
        simp only [hnone, hinside, ne_eq, reduceCtorEq, not_false_eq_true, and_self, if_true]
        exact ⟨_, rfl, fun _ => rfl, fun hasks => absurd ⟨_, _, hparts⟩ hasks⟩

/-- **A walk from a directory is a leg.** -/
theorem walk_leg (htree : ns.IsTree) (hdir : ns.isDir names = true)
    (htight : follow = true ∨ Tight segs) :
    (walk ns follow (.inDir ns names) (parts segs)).Ends ns (leg ns follow names segs) := by
  induction segs generalizing names with
  | nil => rfl
  | cons segment rest ih =>
    have htail := htight.imp_right Tight.tail
    rw [leg, if_pos hdir]
    cases hsegment : component segment with
    | none =>
      rw [parts_cons_none hsegment]
      exact ih hdir htail
    | some _ =>
      rw [parts_cons_some hsegment]
      obtain rfl | rfl := component_eq_normal hsegment
      · have hup := htree.isDir_dropLast hdir
        rw [walk_isDir htree (.inDir ns names) rfl .parentDir hup]
        exact ih hup htail
      dsimp only
      cases hresolve : ns.resolve (names ++ [segment]) with
      | none =>
        rw [if_pos rfl, walk, if_neg (by simp)]
        simp only [enter, Walked.inDir, hresolve]
        exact ⟨_, rfl, rfl⟩
      | some found =>
        obtain ⟨node, _⟩ := found
        have hbelow := htree.clear _ _ _ hresolve
        subst hbelow
        have htarget : ns.target (names ++ [segment]) = ns.linkTarget node := by
          rw [Namespace.target, hresolve]
          rfl
        rw [if_neg (by simp), htarget]
        by_cases hchild : ns.isDir (names ++ [segment]) = true
        · rw [← htarget, htree.target_of_isDir hchild, ite_self,
            walk_isDir htree (.inDir ns names) rfl (.normal segment) hchild]
          exact ih hchild htail
        · rw [walk, if_neg (by simp)]
          simp only [enter, Walked.inDir, hresolve, follow_iff htight]
          cases hlink : if follow = true ∨ rest ≠ [] then ns.linkTarget node else none with
          | some _ =>
            show _ = _
            rw [dropLast_concat]
          | none =>
            have hnode : ns.isDirectory node = false := by
              by_contra hnode
              exact hchild (htree.isDir_iff.mpr ⟨node, hresolve, by simpa using hnode⟩)
            exact walk_file htree (Bool.eq_false_iff.mpr hchild) hnode rfl rest

/-! ## Walk after walk -/

/-- Each is the one name of its text. -/
def Proper (names : List Text) : Prop :=
  ∀ name ∈ names, parts (segments name) = [.normal name] ∧ isAbsolute name = false

/-- Some segments as a path has them. -/
def Segments (segs : List Text) : Prop := ∀ segment ∈ segs, SLASH ∉ segment

/-- What resolution may come to: a directory, and segments. -/
structure Placed (ns : Namespace Node) (names segs : List Text) : Prop where
  dir : ns.isDir names = true
  names : Proper names
  segs : Segments segs

theorem Placed.linkFrom (htree : ns.IsTree) {names rest : List Text} (h : Placed ns names rest)
    (target : Text) : Placed ns (linkFrom names target) (segments target ++ rest) := by
  refine ⟨?_, ?_, fun s hs => ?_⟩
  · unfold Walk.linkFrom
    split_ifs
    · exact htree.isDir_nil
    · exact h.dir
  · unfold Walk.linkFrom
    split_ifs
    · exact nofun
    · exact h.names
  · obtain hs | hs := mem_append.mp hs
    · exact notMem_segments hs
    · exact h.segs s hs

/-- What a symlink to follow leaves. -/
theorem leg_link (htree : ns.IsTree) (hplaced : Placed ns names segs) {dir : List Text}
    {name target : Text} (h : leg ns follow names segs = .link dir name target rest) :
    Placed ns dir rest ∧ ∃ front, segs = front ++ name :: rest ∧
      (follow = true ∨ rest ≠ []) := by
  induction segs generalizing names with
  | nil => cases h
  | cons segment segs ih =>
    obtain ⟨hdir, hnames, hsegs⟩ := hplaced
    have htail : Segments segs := fun s hs => hsegs s (.tail _ hs)
    have hmore : ∀ names', ns.isDir names' = true → Proper names' →
        leg ns follow names' segs = .link dir name target rest →
        Placed ns dir rest ∧ ∃ front, segment :: segs = front ++ name :: rest ∧
          (follow = true ∨ rest ≠ []) := by
      intro names' hdir' hnames' hleg
      obtain ⟨hplaced, front, rfl, hrest⟩ := ih ⟨hdir', hnames', htail⟩ hleg
      exact ⟨hplaced, segment :: front, rfl, hrest⟩
    rw [leg, if_pos hdir] at h
    cases hsegment : component segment with
    | none =>
      rw [hsegment] at h
      exact hmore _ hdir hnames h
    | some _ =>
      rw [hsegment] at h
      obtain rfl | rfl := component_eq_normal hsegment
      · exact hmore _ (htree.isDir_dropLast hdir)
          (fun n hn => hnames n (dropLast_subset _ hn)) h
      dsimp only at h
      have hchild : leg ns follow (names ++ [segment]) segs = .link dir name target rest →
          Placed ns dir rest ∧ ∃ front, segment :: segs = front ++ name :: rest ∧
            (follow = true ∨ rest ≠ []) := by
        intro hleg
        have hdir' : ns.isDir (names ++ [segment]) = true := by
          by_contra hfile
          cases segs with
          | nil => cases hleg
          | cons s segs =>
            rw [leg, if_neg hfile] at hleg
            cases hleg
        refine hmore _ hdir' (fun n hn => ?_) hleg
        obtain hn | hn := mem_append.mp hn
        · exact hnames n hn
        · rw [mem_singleton.mp hn]
          exact parts_text hsegs (by rw [parts_cons_some hsegment]; exact .head _)
      split_ifs at h with hmissing hfollow
      · cases htarget : ns.target (names ++ [segment]) with
        | some _ =>
          rw [htarget] at h
          cases h
          exact ⟨⟨hdir, hnames, htail⟩, [], rfl, hfollow⟩
        | none =>
          rw [htarget] at h
          exact hchild h
      · exact hchild h

/-- The text a walk starts again with. -/
theorem next_parts {dir : List Text} (hdir : Proper dir) (target : Text) (hrest : Segments rest) :
    isAbsolute (extend (push (render dir) target) (parts rest)) = true ∧
      parts (segments (extend (push (render dir) target) (parts rest)))
        = (linkFrom dir target).map .normal ++ parts (segments target ++ rest) := by
  have hrender : render dir = extend [SLASH] (dir.map .normal) := by
    rw [render, extend, foldl_map]
    rfl
  have habsolute : isAbsolute (render dir) = true := by
    rw [hrender]
    exact isAbsolute_extend rfl _
  have hnames : parts (segments (render dir)) = dir.map .normal := by
    rw [hrender, parts_extend]
    · rfl
    · rintro part hpart
      obtain ⟨name, hname, rfl⟩ := mem_map.mp hpart
      exact hdir name hname
  refine ⟨isAbsolute_extend (isAbsolute_push habsolute _) _, ?_⟩
  rw [parts_extend _ fun part hpart => parts_text hrest hpart, parts_append, ← append_assoc]
  congr 1
  by_cases htarget : isAbsolute target = true
  · rw [push, if_pos htarget, linkFrom, if_pos htarget]
    rfl
  · rw [parts_push _ (Bool.eq_false_iff.mpr htarget), hnames, linkFrom, if_neg htarget]

variable {result : Except Errno (Option (Node × Bool))}

theorem walks_result (cwd : Text) (budget : ℕ) {pending : Text}
    (h : (walk ns follow .start (components pending)).result ns = some result) :
    walks ns cwd follow (budget + 1) pending = result := by
  rw [walks]
  cases hturn : walk ns follow .start (components pending) with
  | answer r =>
    rw [hturn] at h
    exact Option.some.inj h
  | redirected _ =>
    rw [hturn] at h
    cases h
  | walked _ =>
    rw [hturn] at h
    exact Option.some.inj h

variable {budget : ℕ}

/-- **The walks are POSIX's resolution**, if no `.` or slash ends the path or
symlinks are followed. -/
theorem walks_follow (htree : ns.IsTree) (cwd : Text) {pending : Text}
    (hpending : components pending = .rootDir :: (names.map .normal ++ parts segs))
    (hplaced : Placed ns names segs) (htight : follow = true ∨ Tight segs) :
    Follows ns (walks ns cwd follow (budget + 1) pending)
      (resolution ns follow budget names segs) := by
  induction budget using Nat.strong_induction_on generalizing names segs pending with
  | _ budget ih =>
    have hends := walk_leg htree hplaced.dir htight
    rw [← walk_start htree hplaced.dir, ← hpending] at hends
    cases hleg : leg ns follow names segs with
    | reached _ =>
      rw [hleg] at hends
      unfold resolution
      rw [hleg]
      exact walks_result cwd budget hends
    | stopped _ =>
      rw [hleg] at hends
      obtain ⟨_, hresult, hfollows⟩ := hends
      unfold resolution
      rw [hleg, walks_result cwd budget hresult]
      exact hfollows
    | link _ _ target _ =>
      rw [hleg] at hends
      obtain ⟨hplaced', _, hfront, hrest⟩ := leg_link htree hplaced hleg
      subst hfront
      obtain ⟨habsolute, hnext⟩ := next_parts hplaced'.names target hplaced'.segs
      obtain ⟨_, hok, hcomponents⟩ := absolute_components cwd habsolute
      rw [hnext] at hcomponents
      rw [walks, hends]
      show Follows ns ((absolute cwd _).bind _) _
      rw [hok]
      unfold resolution
      rw [hleg]
      cases budget with
      | zero => rfl
      | succ budget =>
        refine ih budget (Nat.lt_succ_self _) hcomponents (hplaced'.linkFrom htree target) ?_
        obtain hfollow | htight := htight
        · exact .inl hfollow
        obtain hfollow | hrest := hrest
        · exact .inl hfollow
        · refine .inr fun s hs => htight s ?_
          rw [getLast?_append_of_ne_nil _ (cons_ne_nil _ _), getLast?_cons]
          rw [getLast?_append_of_ne_nil _ hrest] at hs
          rw [Option.mem_def.mp hs]
          rfl

/-! ## What ends a path -/

/-- Some segments say nothing. -/
def Idle (segs : List Text) : Prop := ∀ segment ∈ segs, component segment = none

theorem Idle.parts (h : Idle segs) : parts segs = [] :=
  filterMap_eq_nil_iff.mpr h

/-- A leg over slashes stays where it is. -/
theorem leg_idle (hidle : Idle segs) (hdir : ns.isDir names = true) :
    leg ns follow names segs = .reached names := by
  induction segs with
  | nil => rfl
  | cons segment segs ih =>
    rw [leg, if_pos hdir, hidle segment (mem_cons_self ..)]
    exact ih fun s hs => hidle s (.tail _ hs)

/-- What slashes at the end make of a leg that does not follow a last symlink. -/
def Leg.Then (ns : Namespace Node) (more : List Text) : Leg → Leg → Prop
  | .reached names, next =>
    (ns.isDir names = true → next = .reached names) ∧
      (ns.isDir names = false → ns.target names = none → next = .stopped (.notDirectory more))
  | .stopped (.notDirectory rest), next => next = .stopped (.notDirectory (rest ++ more))
  | .stopped stop, next => next = .stopped stop
  | .link names name target rest, next => next = .link names name target (rest ++ more)

theorem leg_append (htree : ns.IsTree) (hidle : Idle more) (hmore : more ≠ []) :
    (leg ns false names segs).Then ns more (leg ns false names (segs ++ more)) := by
  induction segs generalizing names with
  | nil =>
    refine ⟨leg_idle hidle, fun hdir _ => ?_⟩
    obtain ⟨segment, more, rfl⟩ := exists_cons_of_ne_nil hmore
    rw [nil_append, leg, if_neg (by rw [hdir]; exact Bool.false_ne_true)]
  | cons segment rest ih =>
    rw [cons_append, leg, leg]
    by_cases hdir : ns.isDir names = true
    · rw [if_pos hdir, if_pos hdir]
      cases hsegment : component segment with
      | none => exact ih
      | some _ =>
        obtain rfl | rfl := component_eq_normal hsegment
        · exact ih
        dsimp only
        by_cases hmissing : ns.resolve (names ++ [segment]) = none
        · rw [if_pos hmissing, if_pos hmissing]
          rfl
        rw [if_neg hmissing, if_neg hmissing]
        by_cases hrest : rest = []
        · subst hrest
          -- a last symlink is not followed without the slashes, so nothing is said of it
          rw [if_neg (by simp), nil_append, if_pos (Or.inr hmore)]
          refine ⟨fun hchild => ?_, fun hchild htarget => ?_⟩
          · rw [htree.target_of_isDir hchild]
            exact leg_idle hidle hchild
          · rw [htarget]
            have hends : (leg ns false (names ++ [segment]) []).Then ns more
                (leg ns false (names ++ [segment]) ([] ++ more)) := ih
            exact hends.2 hchild htarget
        · rw [if_pos (Or.inr hrest), if_pos (Or.inr (by simp [hrest]))]
          cases ns.target (names ++ [segment]) with
          | some _ => rfl
          | none => exact ih
    · rw [if_neg hdir, if_neg hdir]
      rfl

/-- What slashes at the end make of a resolution. -/
def After (ns : Namespace Node) (more : List Text) :
    Except Stop (List Text) → Except Stop (List Text) → Prop
  | .ok names, next =>
    (ns.isDir names = true → next = .ok names) ∧
      (ns.isDir names = false → ns.target names = none → next = .error (.notDirectory more))
  | .error (.notDirectory rest), next => next = .error (.notDirectory (rest ++ more))
  | .error stop, next => next = .error stop

theorem resolution_append (htree : ns.IsTree) (hidle : Idle more) (hmore : more ≠ []) :
    After ns more (resolution ns false budget names segs)
      (resolution ns false budget names (segs ++ more)) := by
  induction budget using Nat.strong_induction_on generalizing names segs with
  | _ budget ih =>
    have hthen : (leg ns false names segs).Then ns more (leg ns false names (segs ++ more)) :=
      leg_append htree hidle hmore
    unfold resolution
    cases hleg : leg ns false names segs with
    | reached _ =>
      rw [hleg] at hthen
      refine ⟨fun hdir => ?_, fun hdir htarget => ?_⟩
      · rw [hthen.1 hdir]
      · rw [hthen.2 hdir htarget]
    | stopped stop =>
      rw [hleg] at hthen
      cases stop <;> rw [hthen] <;> rfl
    | link dir _ target rest =>
      rw [hleg] at hthen
      rw [hthen]
      cases budget with
      | zero => rfl
      | succ budget =>
        have hnext : After ns more
            (resolution ns false budget (linkFrom dir target) (segments target ++ rest))
            (resolution ns false budget (linkFrom dir target) (segments target ++ rest ++ more)) :=
          ih budget (Nat.lt_succ_self _)
        rw [append_assoc] at hnext
        exact hnext

/-- Some segments end with slashes. -/
def Loose (segs : List Text) : Prop := ∃ segment ∈ segs.getLast?, component segment = none

theorem Loose.tail (h : Loose (segment :: rest)) (hrest : rest ≠ []) :
    Loose rest := by
  obtain ⟨last, hlast, hnone⟩ := h
  exact ⟨last, by rwa [getLast?_cons_of_ne_nil hrest] at hlast, hnone⟩

/-- Slashes are for a directory to have. -/
theorem leg_loose {names names' : List Text} (hloose : Loose segs)
    (h : leg ns false names segs = .reached names') : ns.isDir names' = true := by
  induction segs generalizing names with
  | nil =>
    obtain ⟨last, hlast, -⟩ := hloose
    cases hlast
  | cons segment rest ih =>
    rw [leg] at h
    by_cases hdir : ns.isDir names = true
    swap
    · rw [if_neg hdir] at h
      cases h
    rw [if_pos hdir] at h
    by_cases hrest : rest = []
    · subst hrest
      obtain ⟨last, hlast, hnone⟩ := hloose
      obtain rfl : segment = last := Option.some.inj hlast
      rw [hnone] at h
      cases h
      exact hdir
    have htail := hloose.tail hrest
    cases hsegment : component segment with
    | none =>
      rw [hsegment] at h
      exact ih htail h
    | some _ =>
      rw [hsegment] at h
      obtain rfl | rfl := component_eq_normal hsegment
      · exact ih htail h
      dsimp only at h
      rw [if_pos (Or.inr hrest)] at h
      split_ifs at h with hmissing
      cases htarget : ns.target (names ++ [segment]) with
      | some _ =>
        rw [htarget] at h
        cases h
      | none =>
        rw [htarget] at h
        exact ih htail h

theorem resolution_loose (htree : ns.IsTree) {names names' : List Text}
    (hplaced : Placed ns names segs) (hloose : Loose segs)
    (h : resolution ns false budget names segs = .ok names') : ns.isDir names' = true := by
  induction budget using Nat.strong_induction_on generalizing names segs with
  | _ budget ih =>
    unfold resolution at h
    cases hleg : leg ns false names segs with
    | reached _ =>
      rw [hleg] at h
      cases h
      exact leg_loose hloose hleg
    | stopped _ =>
      rw [hleg] at h
      cases h
    | link _ _ target rest =>
      rw [hleg] at h
      obtain ⟨hplaced', _, rfl, hrest⟩ := leg_link htree hplaced hleg
      have hrest : rest ≠ [] := hrest.resolve_left nofun
      cases budget with
      | zero => cases h
      | succ budget =>
        refine ih budget (Nat.lt_succ_self _) (hplaced'.linkFrom htree target) ?_ h
        obtain ⟨last, hlast, hnone⟩ := hloose
        refine ⟨last, ?_, hnone⟩
        rw [getLast?_append_of_ne_nil _ (cons_ne_nil _ _), getLast?_cons_of_ne_nil hrest] at hlast
        rwa [getLast?_append_of_ne_nil _ hrest]

/-! ## The claim -/

/-- POSIX's answer as the code gives answers. -/
def answer (ns : Namespace Node) : Except Stop (List Text) → Except Errno (Option (Node × Bool))
  | .ok names => .ok (ns.resolve names)
  | .error stop => .error stop.errno

/-- **Where the code resolves a path as POSIX does**: where POSIX finds that a
node is no directory, a name is asked of it, and without `follow` no slash or
`.` is after a last symlink. -/
structure Settles (ns : Namespace Node) (follow : Bool) (path : Text) : Prop where
  through : ∀ rest, posix ns follow (segments path) = .error (.notDirectory rest) → Asks rest
  last : follow = false → bare path ≠ segments path → ∀ names,
    posix ns false (bare path) = .ok names → ns.target names = none

theorem follows_iff {resolved : Except Stop (List Text)} (h : Follows ns result resolved) :
    result = answer ns resolved ↔ ∀ rest, resolved = .error (.notDirectory rest) → Asks rest := by
  cases resolved with
  | ok _ => exact ⟨nofun, fun _ => h⟩
  | error stop =>
    cases stop with
    | missing | loop => exact ⟨nofun, fun _ => h⟩
    | notDirectory rest =>
      constructor
      · rintro hresult _ ⟨⟩
        by_contra hasks
        obtain ⟨_, hfound⟩ := h.2 hasks
        rw [hfound] at hresult
        cases hresult
      · exact fun hasks => h.1 (hasks rest rfl)

theorem bare_append (path : Text) :
    ∃ more, bare path ++ more = segments path ∧ Idle more := by
  refine ⟨_, rdropWhile_append_rtakeWhile .., fun segment hmem => ?_⟩
  have hnone := mem_rtakeWhile_imp hmem
  exact of_decide_eq_true hnone

theorem bare_tight (path : Text) : Tight (bare path) := by
  intro last hlast hnone
  have hne : bare path ≠ [] := by
    intro hnil
    rw [hnil] at hlast
    cases hlast
  rw [getLast?_eq_some_getLast hne] at hlast
  cases hlast
  exact rdropWhile_last_not _ _ hne (decide_eq_true hnone)

/-- **The code resolves the components of a path**, whatever ends it. -/
theorem resolveIn_follows (htree : ns.IsTree) (cwd : Text) {path : Text}
    (hpath : isAbsolute path = true) (hparts : parts segs = parts (segments path))
    (hsegs : Segments segs) (htight : follow = true ∨ Tight segs) :
    Follows ns (resolveIn ns cwd path follow) (posix ns follow segs) := by
  obtain ⟨_, hok, hcomponents⟩ := absolute_components cwd hpath
  rw [← hparts] at hcomponents
  rw [resolveIn, hok]
  exact walks_follow htree cwd hcomponents
    ⟨htree.isDir_nil, nofun, hsegs⟩ htight

theorem placed_root (htree : ns.IsTree) (hsegs : Segments segs) : Placed ns [] segs :=
  ⟨htree.isDir_nil, nofun, hsegs⟩

/-- A path with slashes at its end, that names a node without them. -/
theorem settles_ok (htree : ns.IsTree) {path : Text} {more names : List Text}
    (hmore : bare path ++ more = segments path) (hidle : Idle more) (hne : more ≠ [])
    (hposix : posix ns false (bare path) = .ok names)
    (hafter : After ns more (.ok names) (posix ns false (segments path))) :
    .ok (ns.resolve names) = answer ns (posix ns false (segments path))
      ↔ Settles ns false path := by
  by_cases hdir : ns.isDir names = true
  · have hsame := hafter.1 hdir
    rw [hsame]
    refine ⟨fun _ => ⟨fun rest hrest => ?_, fun _ _ names' hnames' => ?_⟩, fun _ => rfl⟩
    · rw [hsame] at hrest
      cases hrest
    · rw [hposix] at hnames'
      cases hnames'
      exact htree.target_of_isDir hdir
  cases htarget : ns.target names with
  | none =>
    have hstops := hafter.2 (Bool.eq_false_iff.mpr hdir) htarget
    rw [hstops]
    refine ⟨nofun, fun hsettles => ?_⟩
    obtain ⟨_, rest, hasks⟩ := hsettles.through _ hstops
    rw [hidle.parts] at hasks
    cases hasks
  | some _ =>
    refine ⟨fun hwrong => ?_, fun hsettles => ?_⟩
    · cases hwhole : posix ns false (segments path) with
      | error _ =>
        rw [hwhole] at hwrong
        cases hwrong
      | ok names' =>
        -- behind the slashes is a directory, and the code gives the symlink
        rw [hwhole] at hwrong
        have hloose : Loose (segments path) := by
          refine ⟨more.getLast hne, ?_, hidle _ (getLast_mem hne)⟩
          rw [← hmore, getLast?_append_of_ne_nil _ hne]
          exact getLast?_eq_some_getLast hne
        have hdir' := resolution_loose htree (placed_root htree fun _ => notMem_segments) hloose
          hwhole
        have hnodes : ns.resolve names = ns.resolve names' := Except.ok.inj hwrong
        rw [Namespace.isDir, ← hnodes] at hdir'
        exact absurd hdir' hdir
    · have hbare : bare path ≠ segments path := by
        intro hbare
        rw [hbare] at hmore
        exact hne (append_right_eq_self.mp hmore)
      rw [hsettles.last rfl hbare names hposix] at htarget
      cases htarget

/-- A path with slashes at its end, that is not resolved without them either. -/
theorem settles_error {path : Text} {more : List Text} (hidle : Idle more) {stop : Stop}
    (hposix : posix ns false (bare path) = .error stop) (hfollows : Follows ns result (.error stop))
    (hafter : After ns more (.error stop) (posix ns false (segments path))) :
    result = answer ns (posix ns false (segments path)) ↔ Settles ns false path := by
  have hlast : ∀ names, posix ns false (bare path) = .ok names → ns.target names = none := by
    intro names hnames
    rw [hposix] at hnames
    cases hnames
  have hends : ∀ resolved, posix ns false (segments path) = resolved →
      ((∀ rest, resolved = .error (.notDirectory rest) → Asks rest) ↔ Settles ns false path) := by
    rintro _ rfl
    exact ⟨fun h => ⟨h, fun _ _ => hlast⟩, fun h => h.through⟩
  cases stop with
  | missing =>
    have hsame : posix ns false (segments path) = .error .missing := hafter
    rw [← hends _ hsame, hsame]
    exact follows_iff hfollows
  | loop =>
    have hsame : posix ns false (segments path) = .error .loop := hafter
    rw [← hends _ hsame, hsame]
    exact follows_iff hfollows
  | notDirectory rest =>
    have hsame : posix ns false (segments path) = .error (.notDirectory (rest ++ more)) := hafter
    have hasks : Asks (rest ++ more) ↔ Asks rest := by
      rw [Asks, Asks, parts_append, hidle.parts, append_nil]
    rw [← hends _ hsame, hsame]
    refine follows_iff ⟨fun h => hfollows.1 (hasks.mp h), fun h => hfollows.2 (mt hasks.mpr h)⟩

/-- **The code resolves a path as POSIX does exactly where the path settles.** -/
theorem resolveIn_posix_iff (htree : ns.IsTree) (cwd : Text) {path : Text}
    (hpath : isAbsolute path = true) (follow : Bool) :
    resolveIn ns cwd path follow = answer ns (posix ns follow (segments path))
      ↔ Settles ns follow path := by
  have hsegs : Segments (segments path) := fun _ => notMem_segments
  by_cases hbare : follow = false ∧ bare path ≠ segments path
  · obtain ⟨rfl, hbare⟩ := hbare
    obtain ⟨more, hmore, hidle⟩ := bare_append path
    have hne : more ≠ [] := by
      rintro rfl
      exact hbare (by rw [← hmore, append_nil])
    have hfollows : Follows ns (resolveIn ns cwd path false) (posix ns false (bare path)) := by
      refine resolveIn_follows htree cwd hpath ?_ ?_ (.inr (bare_tight path))
      · rw [← hmore, parts_append, hidle.parts, append_nil]
      · exact fun s hs => hsegs s (by rw [← hmore]; exact mem_append_left _ hs)
    have hafter : After ns more (posix ns false (bare path)) (posix ns false (segments path)) := by
      rw [← hmore]
      exact resolution_append htree hidle hne
    cases hposix : posix ns false (bare path) with
    | ok names =>
      rw [hposix] at hfollows hafter
      have hresult : resolveIn ns cwd path false = .ok (ns.resolve names) := hfollows
      rw [hresult]
      exact settles_ok htree hmore hidle hne hposix hafter
    | error _ =>
      rw [hposix] at hfollows hafter
      exact settles_error hidle hposix hfollows hafter
  · -- a last symlink is the same to both
    have htight : follow = true ∨ Tight (segments path) := by
      cases follow with
      | true => exact .inl rfl
      | false =>
        refine .inr ?_
        rw [← not_not.mp fun hne => hbare ⟨rfl, hne⟩]
        exact bare_tight path
    rw [follows_iff (resolveIn_follows htree cwd hpath rfl hsegs htight)]
    exact ⟨fun h => ⟨h, fun hfollow hne => absurd ⟨hfollow, hne⟩ hbare⟩, fun h => h.through⟩

/-- A directory and a symlink to it. -/
def linked : Namespace ℕ where
  resolve names :=
    if names = [] then some (0, false)
    else if names = [[100]] then some (1, false)
    else if names = [[108]] then some (2, false)
    else none
  linkTarget node := if node = 2 then some [100] else none
  isDirectory node := node < 2

theorem linked_isTree : linked.IsTree where
  clear names node below h := by
    simp only [linked] at h
    split_ifs at h <;> cases h <;> rfl
  root := ⟨0, rfl, rfl⟩
  above names name h := by
    cases names with
    | nil => exact ⟨0, rfl, rfl⟩
    | cons _ names => simp [linked] at h
  kinds node h := by
    simp only [linked, decide_eq_true_eq] at h ⊢
    rw [if_neg (by omega)]

/-- The symlink itself is a path as any other. -/
theorem resolveIn_posix_iff_linked :
    resolveIn linked [47] [47, 108] true = answer linked (posix linked true (segments [47, 108]))
      ↔ Settles linked true [47, 108] :=
  resolveIn_posix_iff linked_isTree [47] rfl true

/-- **A symlink with `/.` after it is not followed.** -/
theorem not_followed :
    ¬ ∀ (ns : Namespace ℕ) (cwd path : Text) (follow : Bool), ns.IsTree → isAbsolute path = true →
      resolveIn ns cwd path follow = answer ns (posix ns follow (segments path)) := by
  intro h
  have hsame := h linked [47] [47, 108, 47, 46] false linked_isTree rfl
  have hcode : resolveIn linked [47] [47, 108, 47, 46] false = .ok (some (2, false)) := rfl
  have hposix : answer linked (posix linked false (segments [47, 108, 47, 46]))
      = .ok (some (1, false)) := rfl
  rw [hcode, hposix] at hsame
  cases hsame

end Ferret.Find.Walk
