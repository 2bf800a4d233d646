import Ferret.Catalog.Checkpoint
import Std.Data.ExtTreeMap

/-!
# Rows replaced since a checkpoint

A record replaces one row or deletes it, and the row replaced last is the one
that counts. A projection holds these rows, a table for each category of
record, by id.

The source keeps them in runs of sorted rows, each with the sequence of its
transaction, and a bit set of the ids that have a row, to answer faster where
there is none.
-/

namespace Ferret.Catalog

/-- The rows of one category, by id. -/
abbrev Rows (β : Type) := Std.ExtTreeMap ℕ β compare

/-- Whether an inode lives, and then what it is and how many names lead to it. -/
inductive Life
  | put (kind : Kind) (names : ℕ)
  | delete
deriving DecidableEq

structure InodeRow extends Inode where
  kind : Kind
deriving DecidableEq

inductive DocRow
  | put (doc : Doc)
  | delete
  | dormant (hash : Hash)
  | forget
deriving DecidableEq

/-- **The rows of a view** that differ from its checkpoint. A row that holds no
value is a deletion. -/
structure Projection where
  life : Rows Life := ∅
  name : Rows (Option Name) := ∅
  dir : Rows Dir := ∅
  root : Rows (Option Bytes) := ∅
  policy : Option Hash := none
  inode : Rows InodeRow := ∅
  link : Rows (Option Bytes) := ∅
  work_tree : Rows (Option WorkTree) := ∅
  doc : Rows DocRow := ∅

namespace Projection

/-- The row that a record replaces. -/
def put (p : Projection) : Record → Projection
  | .lifePut id kind _ names =>
    { p with life := p.life.insert id.toNat (.put kind names.toNat) }
  | .inodeDelete id => { p with life := p.life.insert id.toNat .delete }
  | .namePut id parent child bytes revealed =>
    { p with name := p.name.insert id.toNat (some {
        parent := parent.toNat
        target := .from_child child
        bytes := bytes
        revealed := revealed }) }
  | .nameDelete id => { p with name := p.name.insert id.toNat none }
  | .dirPut id name entries flags retained_at =>
    { p with dir := p.dir.insert id.toNat {
        name := name.map UInt32.toNat
        entries := entries
        flags := flags
        retained_at := retained_at } }
  | .rootPut id path => { p with root := p.root.insert id.toNat (some path) }
  | .rootDelete id => { p with root := p.root.insert id.toNat none }
  | .policyPut hash => { p with policy := some hash }
  | .inodePut id kind state doc stat =>
    { p with inode := p.inode.insert id.toNat {
        kind := kind
        stat := stat
        state := state
        doc := doc.map UInt32.toNat } }
  | .linkPut id target => { p with link := p.link.insert id.toNat (some target) }
  | .linkDelete id => { p with link := p.link.insert id.toNat none }
  | .workTreePut id kind common_id path =>
    { p with work_tree := p.work_tree.insert id.toNat (some {
        kind := kind
        common_id := common_id
        common_dir := path }) }
  | .workTreeDelete id => { p with work_tree := p.work_tree.insert id.toNat none }
  | .docPut id references hash =>
    { p with doc := p.doc.insert id.toNat (.put {
        hash := hash
        references := references.toNat }) }
  | .docDelete id => { p with doc := p.doc.insert id.toNat .delete }
  | .docDormant id hash => { p with doc := p.doc.insert id.toNat (.dormant hash) }
  | .docForget id => { p with doc := p.doc.insert id.toNat .forget }

/-- The rows after a transaction. -/
def apply (p : Projection) (records : List Record) : Projection := records.foldl put p

/-- The rows of one transaction, the last record of each. -/
def final_rows (records : List Record) : Projection := apply {} records

/-- Rows with later ones over them. -/
def overlaid (p q : Projection) : Projection where
  life := p.life ∪ q.life
  name := p.name ∪ q.name
  dir := p.dir ∪ q.dir
  root := p.root ∪ q.root
  policy := q.policy.or p.policy
  inode := p.inode ∪ q.inode
  link := p.link ∪ q.link
  work_tree := p.work_tree ∪ q.work_tree
  doc := p.doc ∪ q.doc

theorem over_put (p q : Projection) (r : Record) : (p.overlaid q).put r = p.overlaid (q.put r) := by
  cases r <;> simp [overlaid, put]
  all_goals first
    | rfl
    | exact (Std.ExtTreeMap.union_insert_right_eq_insert_union (p := ⟨_, _⟩)).symm

theorem union_empty {β : Type} (rows : Rows β) : rows ∪ ∅ = rows := by
  refine Std.ExtTreeMap.ext_getElem? fun k => ?_
  rw [Std.ExtTreeMap.getElem?_union, Std.ExtTreeMap.getElem?_empty, Option.none_or]

theorem over_empty (p : Projection) : p.overlaid {} = p := by
  simp [overlaid, union_empty]

/-- **A transaction lays its final rows over those before.** -/
theorem apply_eq_over (p : Projection) (records : List Record) :
    p.apply records = p.overlaid (final_rows records) := by
  induction records using List.reverseRecOn with
  | nil => exact (over_empty p).symm
  | append_singleton records r ih =>
    unfold final_rows apply at ih ⊢
    rw [List.foldl_append, List.foldl_append, ih]
    exact over_put p _ r

end Projection

end Ferret.Catalog
