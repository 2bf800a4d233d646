import Ferret.Lib.Boundary
import Ferret.Catalog.Log

/-!
# The tables of a checkpoint

A checkpoint numbers its inodes, the directories first, and its names, by
parent and then by bytes. A name leads from a directory to an inode, or to a
kind alone when it is ignored; a directory has one name, which it records, or
it is a root. Documents are what files hold; a file refers to its document and
a document counts the files that do.

The tables here are those of an opened checkpoint, decoded. Lists of rows keep
the order of the file, and the searches are those of the reader.
-/

namespace Ferret.Catalog

open Boundary List

/-- What a name leads to. An ignored target has no stat row. -/
inductive Target
  | inode (id : ℕ)
  | ignored (kind : Kind)
deriving DecidableEq

/-- What a name's child column value names. -/
def Target.from_child (child : UInt32) : Target :=
  match Kind.from_ignored_child child with
  | some kind => ignored kind
  | none => inode child.toNat

/-- One name edge, and whether an ignore file reveals it. -/
structure Name where
  parent : ℕ
  target : Target
  bytes : Bytes
  revealed : Bool
deriving DecidableEq

/-- One inode row. -/
structure Inode where
  stat : Stat
  state : ContentState
  doc : Option ℕ
deriving DecidableEq

/-- One directory row: its own name edge, and what its listing gave. -/
structure Dir where
  name : Option ℕ
  entries : Option UInt32
  flags : UInt32
  retained_at : Option UInt64
deriving DecidableEq

structure WorkTree where
  kind : WorkTreeKind
  common_id : UInt64 × UInt64
  common_dir : Bytes
deriving DecidableEq

/-- One document: its content hash, and how many inodes refer to it. -/
structure Doc where
  hash : Hash
  references : ℕ
deriving DecidableEq

structure Tables where
  generation : Generation
  sniffer : UInt32
  policy : Hash
  next_doc : ℕ
  inodes : List Inode
  dirs : List Dir
  names : List Name
  roots : List (ℕ × Bytes)
  links : List (ℕ × Bytes)
  specials : List (ℕ × Kind)
  work_trees : List (ℕ × WorkTree)
  docs : List (ℕ × Doc)
  dormant : List (ℕ × Hash)
deriving DecidableEq

namespace Tables

/-! ## Reading -/

def base_inode_count (t : Tables) : ℕ := t.inodes.length

def base_dir_count (t : Tables) : ℕ := t.dirs.length

def base_name_count (t : Tables) : ℕ := t.names.length

def name (t : Tables) (id : ℕ) : Option Name := t.names[id]?

/-- The rows of the names in a directory. -/
def child_range (t : Tables) (dir : ℕ) : ℕ × ℕ :=
  let start := partition_point t.names.length fun i => t.names[i]?.any (·.parent < dir)
  (start, start + gallop (t.names.length - start) fun i =>
    t.names[start + i]?.any (·.parent ≤ dir))

/-- The names in a directory, in name order. -/
def children (t : Tables) (dir : ℕ) : List ℕ :=
  let (start, stop) := t.child_range dir
  List.range' start (stop - start)

/-- The entry called `bytes` in a directory. -/
def lookup (t : Tables) (dir : ℕ) (bytes : Bytes) : Option ℕ :=
  let (start, stop) := t.child_range dir
  let found := partition_point (stop - start) fun i => t.names[start + i]?.any (·.bytes < bytes)
  if found < stop - start ∧ t.names[start + found]?.any (·.bytes = bytes) then some (start + found)
  else none

/-- A directory's own name edge; none for a root. -/
def dir_name (t : Tables) (id : ℕ) : Option ℕ := t.dirs[id]?.bind Dir.name

def is_root (t : Tables) (id : ℕ) : Bool := t.roots.any (·.1 = id)

/-- The row with an id, in a table by id. -/
def row {β : Type} (rows : List (ℕ × β)) (id : ℕ) : Option β := (rows.find? (·.1 = id)).map (·.2)

def kind (t : Tables) (id : ℕ) : Kind :=
  if id < t.base_dir_count then .dir
  else if (row t.links id).isSome then .symlink
  else (row t.specials id).getD .file

/-- An inode's document, when it has one. -/
def doc (t : Tables) (id : ℕ) : Option ℕ := t.inodes[id]?.bind Inode.doc

def doc_hash (t : Tables) (id : ℕ) : Option Hash := (row t.docs id).map Doc.hash

def doc_references (t : Tables) (id : ℕ) : Option ℕ := (row t.docs id).map Doc.references

def dormant_hash (t : Tables) (id : ℕ) : Option Hash := row t.dormant id

/-- How many names lead to an inode. -/
def name_references (t : Tables) (id : ℕ) : ℕ := t.names.countP (·.target = .inode id)

/-- The manifest of a checkpoint without a log. -/
def manifest (t : Tables) : Manifest where
  generation := t.generation
  log_end := 0
  checkpoint_sequence := t.generation.sequence
  sniffer := t.sniffer
  counters :=
    { inode := .ofNat t.inodes.length
      name := .ofNat t.names.length
      doc := .ofNat t.next_doc }
  counts :=
    { inodes := .ofNat t.inodes.length
      names := .ofNat t.names.length
      dirs := .ofNat t.dirs.length
      docs := .ofNat t.docs.length }

end Tables

/-! ## Well-formed tables -/

/-- The most dormant documents a checkpoint keeps. -/
def CAP : ℕ := 1000000

/-- By parent, then by bytes. -/
def Name.Before (a b : Name) : Prop :=
  a.parent < b.parent ∨ a.parent = b.parent ∧ a.bytes < b.bytes

/-- **What holds of the tables of a checkpoint.** All but `named` is checked when its
sections are loaded. A file is numbered by its first name, so every file has one. -/
structure Tables.Valid (t : Tables) : Prop where
  inodes_lt : t.inodes.length ≤ 2 ^ 32 - 17
  names_lt : t.names.length < 2 ^ 32 - 1
  next_doc_lt : t.next_doc < 2 ^ 32
  dirs_le : t.dirs.length ≤ t.inodes.length
  sorted : t.names.Pairwise Name.Before
  parent_lt : ∀ n ∈ t.names, n.parent < t.dirs.length
  target_lt : ∀ n ∈ t.names, ∀ id, n.target = .inode id → id < t.inodes.length
  bytes_ne : ∀ n ∈ t.names, n.bytes ≠ []
  /-- A directory's edge leads to it, from a directory before it. -/
  edge : ∀ d id, t.dir_name d = some id →
    ∃ n, t.name id = some n ∧ n.target = .inode d ∧ n.parent < d
  /-- A name of a directory is the edge it records. -/
  edge_of : ∀ id n d, t.name id = some n → n.target = .inode d → d < t.dirs.length →
    t.dir_name d = some id
  roots_sorted : (t.roots.map Prod.fst).Pairwise (· < ·)
  root : ∀ d, t.is_root d = true ↔ d < t.dirs.length ∧ t.dir_name d = none
  links : ∀ id, (Tables.row t.links id).isSome → t.dirs.length ≤ id ∧ id < t.inodes.length
  specials : ∀ id k, Tables.row t.specials id = some k → k ≠ .dir ∧ k ≠ .symlink
  work_trees : ∀ id, (Tables.row t.work_trees id).isSome → id < t.dirs.length
  docs_sorted : (t.docs.map Prod.fst).Pairwise (· < ·)
  docs_lt : ∀ d ∈ t.docs, d.1 < t.next_doc
  /-- The references of a document are the inodes that name it, and there are some. -/
  doc_references : ∀ d ∈ t.docs,
    0 < d.2.references ∧ d.2.references = t.inodes.countP (·.doc = some d.1)
  doc_known : ∀ i ∈ t.inodes, ∀ d, i.doc = some d → (t.doc_hash d).isSome
  dormant_sorted : (t.dormant.map Prod.fst).Pairwise (· < ·)
  dormant_lt : ∀ d ∈ t.dormant, d.1 < t.next_doc ∧ t.doc_hash d.1 = none
  dormant_hashes : (t.dormant.map Prod.snd).Nodup
  dormant_le : t.dormant.length ≤ CAP
  named : ∀ id < t.inodes.length, t.dirs.length ≤ id → 0 < t.name_references id

/-- **A checkpoint**: tables that are well formed. -/
structure Checkpoint extends Tables where
  valid : toTables.Valid

/-! ## What the searches find -/

namespace Tables

theorem row_eq_some {β : Type} {rows : List (ℕ × β)} (h : (rows.map Prod.fst).Pairwise (· < ·))
    {id : ℕ} {b : β} : row rows id = some b ↔ (id, b) ∈ rows := by
  unfold row
  constructor
  · intro hrow
    obtain ⟨⟨i, _⟩, hfind, hb⟩ := Option.map_eq_some_iff.mp hrow
    have hi := find?_some hfind
    simp only [decide_eq_true_eq] at hi hb
    rw [← hi, ← hb]
    exact mem_of_find?_eq_some hfind
  · intro hmem
    induction rows with
    | nil => cases hmem
    | cons r rows ih =>
      obtain ⟨hlt, hrest⟩ := pairwise_cons.mp h
      rcases mem_cons.mp hmem with rfl | hmem
      · simp
      · have hne : r.1 ≠ id := (hlt id (mem_map_of_mem hmem)).ne
        rw [find?_cons_of_neg (by simpa using hne)]
        exact ih hrest hmem

end Tables

/-! ## One checkpoint -/

namespace OneFile

def hash (byte : UInt8) : Hash := ⟨List.replicate 16 byte, List.length_replicate⟩

def stat (ino : UInt64) : Stat where
  dev := 1
  ino := ino
  size := 0
  mtime_sec := 0
  mtime_nsec := 0
  ctime_sec := 0
  ctime_nsec := 0
  mode := 0
  uid := 0
  gid := 0
  nlink := 1

/-- A file `/a` with a document, and a dead document that is retained. -/
def tables : Tables where
  generation := { incarnation := hash 9, checkpoint := 0, sequence := 0 }
  sniffer := 0
  policy := hash 0
  next_doc := 2
  inodes :=
    [{ stat := stat 1, state := .unindexed, doc := none },
      { stat := stat 2, state := .hashed, doc := some 1 }]
  dirs := [{ name := none, entries := some 1, flags := 0, retained_at := none }]
  names := [{ parent := 0, target := .inode 1, bytes := [97], revealed := false }]
  roots := [(0, [47])]
  links := []
  specials := []
  work_trees := []
  docs := [(1, { hash := hash 1, references := 1 })]
  dormant := [(0, hash 0)]

theorem dir_name_eq_none (d : ℕ) : tables.dir_name d = none := by
  cases d with
  | zero => rfl
  | succ d => rfl

theorem name_eq_some {id : ℕ} {n : Name} (h : tables.name id = some n) :
    id = 0 ∧ n = { parent := 0, target := .inode 1, bytes := [97], revealed := false } := by
  cases id with
  | zero => exact ⟨rfl, (Option.some.inj h).symm⟩
  | succ id => cases h

theorem valid : tables.Valid where
  inodes_lt := by decide
  names_lt := by decide
  next_doc_lt := by decide
  dirs_le := by decide
  sorted := pairwise_singleton _ _
  parent_lt := by decide
  target_lt := fun n hn id hid => by
    obtain rfl := mem_singleton.mp hn
    cases hid
    decide
  bytes_ne := by decide
  edge := fun d id h => by
    rw [dir_name_eq_none] at h
    cases h
  edge_of := fun id n d hn htarget hd => by
    obtain ⟨-, rfl⟩ := name_eq_some hn
    cases htarget
    exact absurd hd (by decide)
  roots_sorted := pairwise_singleton _ _
  root := fun d => by
    rw [dir_name_eq_none, and_iff_left rfl]
    show (decide (0 = d) || false) = true ↔ d < 1
    rw [Bool.or_false, decide_eq_true_iff]
    omega
  links := nofun
  specials := nofun
  work_trees := nofun
  docs_sorted := pairwise_singleton _ _
  docs_lt := by decide
  doc_references := by decide
  doc_known := fun i hi d hd => by
    rcases mem_cons.mp hi with rfl | hi
    · cases hd
    · obtain rfl := mem_singleton.mp hi
      cases hd
      rfl
  dormant_sorted := pairwise_singleton _ _
  dormant_lt := by decide
  dormant_hashes := by decide
  dormant_le := by decide
  named := fun id hid hle => by
    have hone : id = 1 := by
      have hlt : id < 2 := hid
      have hge : 1 ≤ id := hle
      omega
    rw [hone]
    decide

def checkpoint : Checkpoint where
  toTables := tables
  valid := valid

end OneFile

end Ferret.Catalog
