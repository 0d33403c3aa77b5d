import BasuyuDb.Executor.Dml

/-
  A state of the store read as relations, on main: which rows a table has, and under which keys.
-/

namespace BasuyuDb.Executor
open KvLib Storage

theorem underPrefix_iff {p k : Bytes} : underPrefix p k = true ↔ p <+: k := List.isPrefixOf_iff_prefix

/-- The row, as a scan with the given width reads it, is stored in the table. -/
def HasRow (ns : Bytes) (W : State) (table : Bytes) (width : Nat) (r : ScanRow) : Prop :=
  rowPrefix ns mainBranch table <+: r.key ∧
    ∃ cells, W.lookup r.key = some (.row cells) ∧ r.cells = cells.takeD width none

section rows
variable {ns : Bytes} {W W' : State} {table : Bytes} {n : Nat} {rows : List ScanRow} {r : ScanRow}

theorem mem_rowsIn (h : rowsIn ns W table n = .ok rows) : r ∈ rows ↔ HasRow ns W table n r := by
  unfold rowsIn at h
  rw [mem_liveRows h]
  constructor
  · intro hr
    obtain ⟨cells, hmem, hcells⟩ := hr
    obtain ⟨hlook, hunder⟩ := (OrdMap.mem_scan W _ _ _).mp hmem
    exact ⟨underPrefix_iff.mp hunder, cells, hlook, hcells⟩
  · intro hr
    obtain ⟨hunder, cells, hlook, hcells⟩ := hr
    exact ⟨cells, (OrdMap.mem_scan W _ _ _).mpr ⟨hlook, underPrefix_iff.mpr hunder⟩, hcells⟩

theorem rowsIn_nodup (h : rowsIn ns W table n = .ok rows) : (rows.map ScanRow.key).Nodup := by
  refine List.Nodup.sublist (liveRows_sublist h) ?_
  have hasc := OrdMap.scan_asc W (underPrefix (rowPrefix ns mainBranch table))
  exact (List.pairwise_map.mpr hasc).imp fun hlt => ne_of_lt hlt

theorem rowsIn_entry (h : rowsIn ns W table n = .ok rows) {k : Bytes} {v : Val}
    (hk : rowPrefix ns mainBranch table <+: k) (hv : W.lookup k = some v) :
    v = .tombstone ∨ ∃ cells, v = .row cells :=
  liveRows_entry h ((OrdMap.mem_scan W _ _ _).mpr ⟨hv, underPrefix_iff.mpr hk⟩)

theorem HasRow.congr (h : HasRow ns W table n r) (hk : W'.lookup r.key = W.lookup r.key) :
    HasRow ns W' table n r := by
  obtain ⟨hunder, cells, hlook, hcells⟩ := h
  exact ⟨hunder, cells, hk.trans hlook, hcells⟩

theorem mem_keys_rowsIn (hrows : rowsIn ns W table n = .ok rows) {k : Bytes} :
    k ∈ rows.map ScanRow.key ↔ rowPrefix ns mainBranch table <+: k ∧ ∃ cells, W.lookup k = some (.row cells) := by
  constructor
  · intro hk
    obtain ⟨r, hr, rfl⟩ := List.mem_map.mp hk
    obtain ⟨hunder, cells, hcells, -⟩ := (mem_rowsIn hrows).mp hr
    exact ⟨hunder, cells, hcells⟩
  · rintro ⟨hunder, cells, hcells⟩
    exact List.mem_map.mpr ⟨⟨k, cells.takeD n none⟩, (mem_rowsIn hrows).mpr ⟨hunder, cells, hcells, rfl⟩, rfl⟩

/-- The rows can still be read when each entry is as it was, is gone, or is a row. -/
theorem rowsIn_ok (hrows : rowsIn ns W table n = .ok rows) (h : ∀ k, rowPrefix ns mainBranch table <+: k →
      W'.lookup k = W.lookup k ∨ W'.lookup k = none ∨ ∃ cells, W'.lookup k = some (.row cells)) :
    ∃ rows', rowsIn ns W' table n = .ok rows' := by
  refine ⟨_, liveRows_eq_ok.mpr ⟨fun kv hkv => isEntry_iff.mpr ?_, rfl⟩⟩
  obtain ⟨hlook, hunder⟩ := (OrdMap.mem_scan W' _ kv.1 kv.2).mp hkv
  rw [underPrefix_iff] at hunder
  rcases h _ hunder with hsame | hnone | ⟨cells, hcells⟩
  · exact rowsIn_entry hrows hunder (hsame.symm.trans hlook)
  · cases hnone.symm.trans hlook
  · exact .inr ⟨cells, Option.some.inj (hlook.symm.trans hcells)⟩

end rows

end BasuyuDb.Executor
