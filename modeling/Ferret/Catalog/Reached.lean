import Ferret.Catalog.Retained

/-!
# Views that are reached

A view is reached from a checkpoint by change sets that a writer accepts, or by
replaying a log. The state of a view that is reached knows the permissions of its
documents.
-/

namespace Ferret.Catalog

open Guarded Namespace

/-! ## One change set -/

/-- What `load_delta` does: the records are laid over the rows of the same base, and the
dormant permissions advance by them. -/
structure Loaded (o : Overlay) (records : List Record) (o' : Overlay) : Prop where
  same_base : o'.base = o.base
  rows : o'.rows = o.rows.apply records
  dormant : advance_dormant o.base.toTables o.rows o.dormant records = .ok o'.dormant

theorem load_delta_ok {o o' : Overlay} {manifest : Manifest} {records : List Record}
    (h : o.load_delta manifest records = .ok o') : Loaded o records o' := by
  simp only [Overlay.load_delta, bind_eq_ok] at h
  obtain ⟨_, -, _, -, h⟩ := h
  split at h
  all_goals
    simp only [bind_eq_ok] at h
    obtain ⟨_, -, h⟩ := h
    split at h
  case isTrue.isTrue | isFalse.isTrue =>
    simp only [bind_eq_ok, pure_eq_ok] at h
    obtain ⟨_, -, _, -, _, rfl, _, -, _, -, dormant, hdormant, _, -, _, -, _, -, rfl⟩ := h
    exact ⟨rfl, rfl, hdormant⟩
  case isTrue.isFalse | isFalse.isFalse =>
    simp only [bind_eq_ok, pure_eq_ok] at h
    obtain ⟨_, rfl, _, -, _, -, dormant, hdormant, _, -, _, -, _, -, rfl⟩ := h
    exact ⟨rfl, rfl, hdormant⟩

theorem advance_with_sniffer_ok {C : Checksum} {o o' : Overlay} {expected : Generation}
    {changes : ChangeSet} {sniffer : UInt32}
    (h : o.advance_with_sniffer C expected changes sniffer = .ok o') :
    o' = o ∨ o.manifest.counters.Le changes.counters ∧
      ∃ manifest : Manifest, manifest.counters = changes.counters ∧
        o.load_delta manifest changes.records = .ok o' := by
  simp only [Overlay.advance_with_sniffer, bind_eq_ok] at h
  obtain ⟨_, -, h⟩ := h
  split at h
  · simp only [bind_eq_ok, pure_eq_ok] at h
    obtain ⟨_, -, rfl⟩ := h
    exact .inl rfl
  · simp only [bind_eq_ok, ensure_eq_ok, map_err_eq_ok, exists_const] at h
    obtain ⟨-, hle, _, -, _, -, h⟩ := h
    exact .inr ⟨hle, _, rfl, h⟩

/-! ## A log -/

/-- Each transaction of a log is asked for `P`, with the rows before it. -/
def Asked (P : Tables → Projection → List Record → Prop) (base : Tables) :
    Projection → List Frame → Prop
  | _, [] => True
  | p, f :: frames => P base p f.records ∧ Asked P base (p.apply f.records) frames

/-! ## Views -/

/-- **The views of a catalog**: of a checkpoint, of a checkpoint and a log, and of a change
set that is accepted over another view; each transaction is asked for `P`. The framing of a
log makes sure that its last transaction has the counters of the manifest. -/
inductive OpenedBy (P : Tables → Projection → List Record → Prop) : Overlay → Prop
  | checkpoint (base : Checkpoint) : OpenedBy P (Overlay.empty base)
  | reopen {base : Checkpoint} {manifest : Manifest} {frames : List Frame} {o : Overlay} :
    (∀ f ∈ frames.getLast?, f.counters = manifest.counters) → Asked P base.toTables {} frames →
    Overlay.reopen base manifest frames = .ok o → OpenedBy P o
  | advance {C : Checksum} {o o' : Overlay} {expected : Generation} {changes : ChangeSet}
    {sniffer : UInt32} : OpenedBy P o → P o.base.toTables o.rows changes.records →
    o.advance_with_sniffer C expected changes sniffer = .ok o' → OpenedBy P o'

/-- Every view, whatever its transactions. -/
abbrev Opened (o : Overlay) : Prop := OpenedBy (fun _ _ _ => True) o

namespace OpenedBy

variable {P : Tables → Projection → List Record → Prop} {o : Overlay}

/-- **A view's state knows its permissions.** -/
theorem retains (h : OpenedBy P o) : Retains o.base.toTables o.rows o.dormant := by
  induction h with
  | checkpoint base => exact Retains.checkpoint base
  | @reopen base manifest _ o _ _ h =>
    unfold Overlay.reopen at h
    split at h
    · rw [pure_eq_ok] at h
      rw [← h]
      exact Retains.checkpoint base
    · simp only [bind_eq_ok, pure_eq_ok] at h
      obtain ⟨_, -, _, -, names, hnames, _, -, docs, hdocs, _, -, _, -, _, -, _, -, rfl⟩ := h
      obtain ⟨hretains, hrows⟩ := DocsLoading.frames_retain (Retains.checkpoint base) hdocs
      have heq : names.rows = docs.rows := (NameReplay.rows_of_frames hnames).trans hrows.symm
      rw [← heq] at hretains
      exact hretains
  | advance _ _ h ih =>
    rcases advance_with_sniffer_ok h with rfl | ⟨-, manifest, -, h⟩
    · exact ih
    · have hloaded := load_delta_ok h
      rw [hloaded.same_base, hloaded.rows]
      exact ih.advance hloaded.dormant

end OpenedBy

end Ferret.Catalog
