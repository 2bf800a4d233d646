import Ferret.Catalog.Overlay

/-!
# Validation

What is checked of a view once its rows are laid: that new inodes have fields,
that links and work trees are on inodes of their kind, and that documents are
referred to as often as they say. A view that was advanced checks the records
of its change set; a view that was replayed checks every row over its
checkpoint.
-/

namespace Ferret.Catalog

open Guarded

/-- Counts one inode more, or less, for a document. -/
def bump_doc (δ : ℤ) (docs : Rows ℤ) : Option ℕ → Rows ℤ
  | some doc => docs.insert doc (docs.getD doc 0 + δ)
  | none => docs

namespace Overlay

variable (o : Overlay)

/-- Every inode born since the checkpoint has a row. -/
def check_fields : Guarded OpenError Unit :=
  ensure (∀ r ∈ o.rows.life.toList, r.2 ≠ .delete → o.base.base_inode_count ≤ r.1 →
    o.rows.inode[r.1]?.isSome = true) (corrupt "new inode has no fields")

/-! ## Kinds -/

def check_life (id : ℕ) (kind : Kind) : Guarded OpenError Unit :=
  ensure (id < o.base.base_inode_count → o.base.kind id = kind)
    (corrupt "base inode lifetime type changed")

def check_link (id : ℕ) : Guarded OpenError Unit :=
  ensure (o.is_live_inode id = true → o.kind id = .symlink) (corrupt "link target on non-symlink")

def check_work_tree (id : ℕ) (label : String) : Guarded OpenError Unit :=
  ensure (o.is_live_inode id = true → o.is_directory id = true) (corrupt label)

def check_inode_kind (id : ℕ) (kind : Kind) : Guarded OpenError Unit :=
  ensure (o.is_live_inode id = true → kind = o.kind id) (corrupt "inode/life kind mismatch")

def check_aux_record : Record → Guarded OpenError Unit
  | .lifePut id kind _ _ => o.check_life id.toNat kind
  | .linkPut id _ => o.check_link id.toNat
  | .workTreePut id _ _ _ => o.check_work_tree id.toNat "work tree on non-directory inode"
  | _ => return ()

def check_kind_record : Record → Guarded OpenError Unit
  | .inodePut id kind _ _ _ => o.check_inode_kind id.toNat kind
  | _ => return ()

/-- What is checked of the records of a change set, those that a later one replaces
included. -/
def check_records (records : List Record) : Guarded OpenError Unit := do
  records.forM o.check_aux_record
  records.forM o.check_kind_record

/-- The same for every row. -/
def check_rows : Guarded OpenError Unit := do
  o.rows.life.toList.forM fun r =>
    match r.2 with
    | .put kind _ => o.check_life r.1 kind
    | .delete => return ()
  o.rows.link.toList.forM fun r => if r.2.isSome then o.check_link r.1 else return ()
  o.rows.work_tree.toList.forM fun r =>
    if r.2.isSome then o.check_work_tree r.1 "work tree on non-directory inode" else return ()
  o.rows.inode.toList.forM fun r => o.check_inode_kind r.1 r.2.kind

/-! ## References, against the checkpoint -/

/-- The inodes whose document may differ from the checkpoint's. -/
def changed_inodes : Std.ExtTreeSet ℕ compare :=
  .ofList (o.rows.inode.keys ++ o.rows.life.toList.filterMap fun r =>
    if r.2 = .delete then some r.1 else none) compare

/-- The reference that one changed inode moved from its base document to its document in
the view. -/
def base_reference_delta (docs : Rows ℤ) (id : ℕ) : Guarded OpenError (Rows ℤ) := do
  let docs := bump_doc (-1) docs (o.base.doc id)
  if o.is_live_inode id then
    ensure (∀ doc ∈ o.doc id, (o.doc_hash doc).isSome = true) (corrupt "inode names absent document")
    return bump_doc 1 docs (o.doc id)
  else
    return docs

/-- How the document rows change the count of live documents, a row at a time. -/
def check_doc_record (docs : ℤ) (row : ℕ × DocRow) : Guarded OpenError ℤ :=
  match row.2, o.base.doc_hash row.1 with
  | .put doc, some old => do
    ensure (old = doc.hash) (corrupt "document hash changed")
    return docs
  | .put _, none => return docs + 1
  | _, some _ => return docs - 1
  | _, none => return docs

/-- **`check_documents`** without a checked predecessor. -/
def check_documents : Guarded OpenError Unit := do
  let delta ← o.changed_inodes.toList.foldlM o.base_reference_delta ∅
  let docs ← o.rows.doc.toList.foldlM o.check_doc_record (o.base.docs.length : ℤ)
  ensure (docs = o.manifest.counts.docs.toNat) (corrupt "live document count")
  ((Std.ExtTreeSet.ofList (delta.keys ++ o.rows.doc.keys) compare).toList).forM fun id =>
    ensure (((o.base.doc_references id).getD 0 : ℕ) + delta.getD id 0 =
      ((o.doc_references id).getD 0 : ℕ)) (corrupt "document reference count")

/-- **`validate_all`** without a checked predecessor. -/
def validate_all : Guarded OpenError Unit := do
  o.check_fields
  o.rows.life.toList.forM fun r =>
    ensure ((o.base.name_references r.1 : ℤ) + o.references.getD r.1 0 =
      match r.2 with
      | .put _ names => (names : ℤ)
      | .delete => 0) (corrupt "inode name reference count")
  o.references.toList.forM fun r => do
    let actual : ℤ := o.base.name_references r.1 + r.2
    ensure (0 ≤ actual ∧ (o.is_live_inode r.1 = false → actual = 0) ∧
      (o.is_live_inode r.1 = true → o.is_directory r.1 = false → actual ≠ 0))
      (corrupt "dangling name/inode reference")
  o.check_documents
  o.rows.link.toList.forM fun r => if r.2.isSome then o.check_link r.1 else return ()
  o.rows.work_tree.toList.forM fun r =>
    if r.2.isSome then o.check_work_tree r.1 "work tree on absent/non-directory inode"
    else return ()

/-! ## References, against the predecessor -/

variable (parent : Overlay) (records : List Record)

/-- The documents that a change set's records name. -/
def touched_docs : Rows ℤ :=
  records.foldl (fun docs r =>
    match r with
    | .docPut id _ _ | .docDelete id | .docDormant id _ | .docForget id =>
      docs.insertIfNew id.toNat 0
    | _ => docs) ∅

/-- The inodes that it changes. -/
def touched_inodes : Std.ExtTreeSet ℕ compare :=
  .ofList (records.filterMap fun r =>
    match r with
    | .inodePut id _ _ _ _ | .inodeDelete id => some id.toNat
    | _ => none) compare

/-- Rejects a link or work tree on an inode of the wrong kind. -/
def check_touch : Record → Guarded OpenError Unit
  | .linkPut id _ => o.check_link id.toNat
  | .workTreePut id _ _ _ => o.check_work_tree id.toNat "work tree on absent/non-directory inode"
  | _ => return ()

/-- The reference that one changed inode moved from its parent document to its document in
the view. -/
def count_reference (docs : Rows ℤ) (id : ℕ) : Guarded OpenError (Rows ℤ) := do
  let docs := if parent.is_live_inode id then bump_doc (-1) docs (parent.doc id) else docs
  if o.is_live_inode id then
    ensure (∀ row ∈ o.rows.inode[id]?, row.kind = o.kind id) (corrupt "inode/life kind mismatch")
    return bump_doc 1 docs (o.doc id)
  else
    return docs

/-- One document's references in the view, against its parent's and how they moved. -/
def check_document_moved (count : ℤ) (row : ℕ × ℤ) : Guarded OpenError ℤ := do
  let prior := parent.doc_references row.1
  let now := o.doc_references row.1
  ensure ((prior.getD 0 : ℕ) + row.2 = (now.getD 0 : ℕ)) (corrupt "document reference count")
  ensure (∀ a ∈ parent.doc_hash row.1, ∀ b ∈ o.doc_hash row.1, a = b)
    (corrupt "document hash changed")
  return count + (if prior.isNone ∧ now.isSome then 1 else 0) -
    (if prior.isSome ∧ now.isNone then 1 else 0)

/-- **`validate_delta`.** -/
def validate_delta : Guarded OpenError Unit := do
  records.forM o.check_touch
  let docs ← (touched_inodes records).toList.foldlM (o.count_reference parent)
    (touched_docs records)
  let count ← docs.toList.foldlM (o.check_document_moved parent)
    (parent.manifest.counts.docs.toNat : ℤ)
  ensure (count = o.manifest.counts.docs.toNat) (corrupt "live document count")

end Overlay

end Ferret.Catalog
