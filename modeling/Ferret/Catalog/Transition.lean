import Ferret.Catalog.Advance

/-!
# What a transaction does to the rows

The checks of a transaction decide whether it is accepted; where it is, its
final rows are laid over the rows before.
-/

namespace Ferret.Catalog

open Guarded

/-! ## Tables of rows -/

section

variable {β : Type} {rows : Rows β}

theorem mem_toList {id : ℕ} {b : β} : (id, b) ∈ rows.toList ↔ rows[id]? = some b :=
  Std.ExtTreeMap.mem_toList_iff_getElem?_eq_some

theorem keys_nodup : (rows.toList.map Prod.fst).Nodup := by
  rw [Std.ExtTreeMap.map_fst_toList_eq_keys]
  exact Std.ExtTreeMap.nodup_keys

theorem getElem?_over {a b : Rows β} {id : ℕ} : (a ∪ b)[id]? = b[id]?.or a[id]? :=
  Std.ExtTreeMap.getElem?_union

theorem mem_keys {id : ℕ} : id ∈ rows.keys ↔ ∃ b, rows[id]? = some b := by
  rw [Std.ExtTreeMap.mem_keys, ← Std.ExtTreeMap.isSome_getElem?_iff_mem, Option.isSome_iff_exists]

end

/-- A namespace that is replayed has the transaction's rows over its own. -/
theorem NameReplay.rows_of_apply {base : Tables} {r r' : NameReplay} {next : ℕ}
    {records : List Record} (h : r.apply base next records = .ok r') :
    r'.rows = r.rows.overlaid (Projection.final_rows records) := by
  simp only [apply, bind_eq_ok, pure_eq_ok] at h
  obtain ⟨_, -, _, -, _, -, _, -, _, -, rfl⟩ := h
  rfl

end Ferret.Catalog
