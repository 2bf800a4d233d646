import Ferret.Catalog.Projection
import Std.Data.ExtTreeSet

/-!
# The namespace of a view

Names, and the keys under which directories find them, replayed transaction by
transaction over a checkpoint. A transaction is checked around the rows that
it changes: the names it puts, the directories whose way to a root it may have
altered, and the inodes whose names it adds or removes.
-/

namespace Ferret.Catalog

open Guarded

/-- The order of child keys: by parent, then by bytes. -/
def keyCmp : ℕ × Bytes → ℕ × Bytes → Ordering :=
  compareLex (compareOn Prod.fst) (compareOn Prod.snd)

instance : Std.TransCmp keyCmp := inferInstanceAs (Std.TransCmp (compareLex _ _))

/-- Child keys, mapped to a name id; none for a removal. -/
abbrev ChildKeys := Std.ExtTreeMap (ℕ × Bytes) (Option ℕ) keyCmp

/-- The inode a name leads to, unless it is ignored. -/
def Target.inode? : Target → Option ℕ
  | inode id => some id
  | ignored _ => none

/-- Fails unless a transaction's births are exactly the ids it allocated. -/
def check_births (births : List ℕ) (start stop : ℕ) (label : String) : Guarded OpenError Unit := do
  claim (start ≤ stop)
  ensure (births = List.range' start (stop - start)) (corrupt label)

namespace Namespace

section

variable (base : Tables) (rows : Projection)

def name (id : ℕ) : Option Name := rows.name[id]?.getD (base.name id)

def lookup (keys : ChildKeys) (parent : ℕ) (bytes : Bytes) : Option ℕ :=
  match keys[(parent, bytes)]? with
  | some value => value
  | none => (base.lookup parent bytes).filter fun id => rows.name[id]?.isNone

def live (id : ℕ) : Bool :=
  match rows.life[id]? with
  | some (.put ..) => true
  | some .delete => false
  | none => id < base.base_inode_count

/-- The kind of an inode, as far as the names need it. -/
def kind (id : ℕ) : Option Kind :=
  match rows.life[id]? with
  | some (.put kind _) => some kind
  | some .delete => none
  | none => if id < base.base_dir_count then some .dir else none

/-- The edge that a directory records as its own. -/
def own (id : ℕ) : Option ℕ :=
  match rows.dir[id]? with
  | some dir => dir.name
  | none => base.dir_name id

def root (id : ℕ) : Bool :=
  match rows.root[id]? with
  | some path => path.isSome
  | none => base.is_root id

/-- The configured roots, with their paths. -/
def roots : List (ℕ × Bytes) :=
  base.roots.filter (fun r => rows.root[r.1]?.isNone) ++
    rows.root.toList.filterMap fun r => r.2.map fun path => (r.1, path)

/-! ## The graph -/

/-- Every root is a live directory with no incoming edge, at a distinct path. -/
def check_roots : Guarded OpenError Unit := do
  ensure (∀ r ∈ roots base rows, live base rows r.1 = true ∧ kind base rows r.1 = some .dir ∧
    own base rows r.1 = none) (corrupt "root liveness/incoming edge/duplicate path")
  ensure ((roots base rows).map Prod.snd).Nodup
    (corrupt "root liveness/incoming edge/duplicate path")

/-- The loop of `reaches_root`. No directory is seen twice, so it ends after as many
rounds as there are directories. -/
def reaches_root_from : ℕ → List ℕ → ℕ → Guarded OpenError Unit
  | 0, _, _ => .error .panic
  | fuel + 1, seen, dir => do
    ensure (live base rows dir = true ∧ kind base rows dir = some .dir ∧ dir ∉ seen)
      (corrupt "directory cycle/dead parent")
    match own base rows dir with
    | none => ensure (root base rows dir = true) (corrupt "directory has no root")
    | some edge =>
      match name base rows edge with
      | none => .error (.error (corrupt "missing directory incoming edge"))
      | some n =>
        ensure (n.target = .inode dir ∧ root base rows dir = false)
          (corrupt "directory incoming edge/root")
        reaches_root_from fuel (dir :: seen) n.parent

/-- A directory's incoming edges lead, through live directories and without a cycle,
to a root. -/
def reaches_root (dir : ℕ) : Guarded OpenError Unit :=
  reaches_root_from base rows (base.base_dir_count + rows.life.size + 1) [] dir

/-- The names that a transaction puts. -/
def puts (final : Projection) : List (ℕ × Name) :=
  final.name.toList.filterMap fun r => r.2.map fun n => (r.1, n)

/-- The live directories whose path to a root a transaction may have altered. -/
def touched_dirs (final : Projection) (old_dirs : List ℕ) : Std.ExtTreeSet ℕ compare :=
  .ofList (old_dirs.filter (live base rows) ++
    ((puts final).map (·.2.parent) ++
    (((puts final).filterMap (·.2.target.inode?)).filter (kind base rows · = some .dir) ++
    ((final.life.toList.filterMap fun r =>
        match r.2 with
        | .put .dir _ => some r.1
        | _ => none) ++
      final.dir.keys ++ final.root.keys).filter (live base rows)))) compare

def validate_graph (final : Projection) (old_dirs : List ℕ) : Guarded OpenError Unit := do
  check_roots base rows
  (touched_dirs base rows final old_dirs).toList.forM (reaches_root base rows)

/-! ## Keys and references -/

/-- What is checked of one changed name, against the namespace as it stands after the
transaction, with `removed` holding its retired keys. -/
def added_key (removed : ChildKeys) (id : ℕ) (n : Name) :
    Guarded OpenError ((ℕ × Bytes) × Option ℕ) := do
  ensure (live base rows n.parent = true ∧ kind base rows n.parent = some .dir ∧
    ∀ child ∈ n.target.inode?, live base rows child = true)
    (corrupt "name references dead/non-directory inode")
  ensure (∀ other ∈ lookup base rows removed n.parent n.bytes, other = id)
    (corrupt "duplicate child key")
  ensure (∀ child ∈ n.target.inode?, kind base rows child = some .dir →
    own base rows child = some id ∧ root base rows child = false)
    (corrupt "directory has multiple incoming edges")
  return ((n.parent, n.bytes), some id)

/-- One transaction's new child keys. -/
def added_keys (removed : ChildKeys) (final : Projection) :
    Guarded OpenError (List ((ℕ × Bytes) × Option ℕ)) := do
  let additions ← (puts final).mapM fun r => added_key base rows removed r.1 r.2
  ensure (additions.map Prod.fst).Nodup (corrupt "duplicate changed child key")
  return additions

/-- How many names a directory still holds. -/
def retained_children (keys : ChildKeys) (id : ℕ) : ℕ :=
  (if id < base.base_inode_count then
    ((base.children id).filter fun n => rows.name[n]?.isNone).length
  else 0) + (keys.toList.filter fun k => k.1.1 = id ∧ k.2.isSome).length

/-- Checks an affected inode's name count against its life row, and that a deleted
directory keeps no children. -/
def check_reference (keys : ChildKeys) (references : Rows ℤ) (id : ℕ) :
    Guarded OpenError Unit := do
  let actual : ℤ := base.name_references id + references.getD id 0
  let declared : Option ℤ :=
    match rows.life[id]? with
    | some (.put _ names) => some names
    | some .delete => some 0
    | none => none
  ensure (0 ≤ actual ∧ (∀ n ∈ declared, n = actual) ∧
    (live base rows id = false → actual = 0) ∧
    (live base rows id = true → kind base rows id ≠ some .dir → actual ≠ 0))
    (corrupt "namespace inode reference count")
  ensure (live base rows id = false → retained_children base rows keys id = 0)
    (corrupt "deleted directory retains children")

def check_references (keys : ChildKeys) (references : Rows ℤ)
    (affected : Std.ExtTreeSet ℕ compare) : Guarded OpenError Unit :=
  affected.toList.forM (check_reference base rows keys references)

end

/-! ## Replaying a transaction -/

/-- Counts one name more, or less, for a target. -/
def bump (δ : ℤ) (references : Rows ℤ) (target : Target) : Rows ℤ :=
  match target with
  | .inode id => references.insert id (references.getD id 0 + δ)
  | .ignored _ => references

/-- What the changed names were: the ids born, the names replaced or deleted, and the
count of names so far. -/
structure Retired where
  births : List ℕ := []
  olds : List Name := []
  count : ℕ

/-- One changed name, against the rows before the transaction. -/
def retire (base : Tables) (rows : Projection) (counter : ℕ) (acc : Retired)
    (row : ℕ × Option Name) : Guarded OpenError Retired :=
  if counter ≤ row.1 then do
    ensure (row.2.isSome = true) (corrupt "delete unassigned name")
    return { acc with births := acc.births ++ [row.1], count := acc.count + 1 }
  else
    match name base rows row.1 with
    | none => .error (.error (corrupt "retired name reused"))
    | some old => do
      ensure (row.2.isNone = true → acc.count ≠ 0) (corrupt "name counts")
      return { acc with
        olds := acc.olds ++ [old]
        count := if row.2.isNone = true then acc.count - 1 else acc.count }

end Namespace

/-- **A namespace as the log's transactions replay over it.** -/
structure NameReplay where
  rows : Projection
  keys : ChildKeys
  /-- Directories with any child key row. -/
  touched : Std.ExtTreeSet ℕ compare
  references : Rows ℤ
  /-- The next name id to allocate. -/
  counter : ℕ
  /-- Live names. -/
  count : ℕ

open Namespace in
/-- **`NameReplay::apply`**: a transaction, which allocates names up to `next`. -/
def NameReplay.apply (base : Tables) (r : NameReplay) (next : ℕ) (records : List Record) :
    Guarded OpenError NameReplay := do
  let final := Projection.final_rows records
  let retired ← final.name.toList.foldlM (retire base r.rows r.counter) { count := r.count }
  check_births retired.births r.counter next "name allocation gaps"
  let gone := retired.olds.map Name.target
  let come := (puts final).map (·.2.target)
  let old_dirs :=
    (gone.filterMap Target.inode?).filter (Namespace.kind base r.rows · = some .dir)
  let references := come.foldl (bump 1) (gone.foldl (bump (-1)) r.references)
  let ref_changes := come.foldl (bump 1) (gone.foldl (bump (-1)) ∅)
  let rows := r.rows.overlaid final
  let key_rows := retired.olds.map fun n => ((n.parent, n.bytes), none)
  let additions ← added_keys base rows (r.keys.insertMany key_rows) final
  -- one run for the transaction, with the additions after the removals
  let keys := r.keys.insertMany (key_rows ++ additions)
  validate_graph base rows final old_dirs
  let affected := .ofList
    (((ref_changes.toList.filter (·.2 ≠ 0)).map Prod.fst) ++ final.life.keys) compare
  check_references base rows keys references affected
  return {
    rows := rows
    keys := keys
    touched := r.touched.insertMany ((key_rows ++ additions).map (·.1.1))
    references := references.filter fun _ δ => δ ≠ 0
    counter := next
    count := retired.count }

end Ferret.Catalog
