import BasuyuDb.Branch.Probes

/-
  engine/internal/executor/scan.go: what a session sees of a table, tail by tail of the row keys. The row at a tail
  is the branch's own entry, or its parent's where the branch has none (`seenAt_eq_some`), so it depends on two keys
  (`seenAt_congr`), and a scan lists the rows that are seen (`scanned_lists`).
-/

namespace BasuyuDb.Branch
open KvLib Storage Executor List

/-! ## What a session sees of a table -/

variable (sess : Session) (W : State) (t : TableSchema) (tail : Bytes)

/-- The row that the session sees at a tail of the keys. -/
def seenAt : Option ScanRow :=
  chainRow sess.ns W t.name t.cols.length (visibleChain sess.ns W sess.branch t.name) tail

/-- The rows of the parent are not below the path of the branch. -/
def Separate : Prop :=
  sess.branch = mainBranch ∨ Apart sess.branch (parentIn sess.ns W sess.branch)

section views
variable {sess W t tail} {W' : State} {tail' : Bytes} {r : ScanRow}

/-- The key of the row on the session's branch, and on its parent. -/
def ownKey (sess : Session) (t : TableSchema) (tail : Bytes) : Bytes := rowPrefix sess.ns sess.branch t.name ++ tail

def parentKey (sess : Session) (W : State) (t : TableSchema) (tail : Bytes) : Bytes :=
  rowPrefix sess.ns (parentIn sess.ns W sess.branch) t.name ++ tail

/-- Scans of the table fall through to the parent. -/
def Falls (sess : Session) (t : TableSchema) : Prop := ¬(sess.branch = mainBranch ∨ t.name = otelSpansTable)

theorem ownKey_inj (h : ownKey sess t tail = ownKey sess t tail') : tail = tail' := append_cancel_left h

theorem subtree_ownKey : branchSubtreePrefix sess.ns sess.branch <+: ownKey sess t tail :=
  ((subtree_branchData _ _).trans (branchData_rowPrefix _ _ _)).trans (prefix_append _ _)

theorem Separate.parent_not_below (h : Separate sess W) (hf : Falls sess t) :
    ¬branchSubtreePrefix sess.ns sess.branch <+: parentKey sess W t tail := by
  rcases h with hmain | hapart
  · exact absurd (.inl hmain) hf
  · exact hapart.rows (prefix_append _ _)

theorem Separate.own_ne_parent (h : Separate sess W) (hf : Falls sess t) :
    ownKey sess t tail ≠ parentKey sess W t tail' :=
  fun heq => h.parent_not_below hf (heq ▸ subtree_ownKey)

theorem seenAt_eq_some : seenAt sess W t tail = some r ↔ (r.key = ownKey sess t tail ∨
      Falls sess t ∧ W.lookup (ownKey sess t tail) = none ∧ r.key = parentKey sess W t tail) ∧
    ∃ cells, W.lookup r.key = some (.row cells) ∧ r.cells = cells.takeD t.cols.length none := by
  unfold seenAt visibleChain Falls
  have hlayer : layer sess.ns W t.name sess.branch tail = none ↔ W.lookup (ownKey sess t tail) = none := layer_eq_none
  by_cases hlocal : sess.branch = mainBranch ∨ t.name = otelSpansTable
  · rw [if_pos hlocal]
    by_cases hown : layer sess.ns W t.name sess.branch tail = none
    · rw [chainRow_inherited hown, chainRow_nil]
      refine iff_of_false (by simp) ?_
      rintro ⟨hkey | ⟨hf, -⟩, cells, hlook, -⟩
      · rw [hkey, hlayer.mp hown] at hlook
        cases hlook
      · exact hf hlocal
    · rw [chainRow_own hown, layer_rowOf]
      refine and_congr_left fun _ => ⟨.inl, ?_⟩
      rintro (hkey | ⟨hf, -⟩)
      · exact hkey
      · exact absurd hlocal hf
  · rw [if_neg hlocal]
    by_cases hown : layer sess.ns W t.name sess.branch tail = none
    · rw [chainRow_inherited hown]
      have hparent : chainRow sess.ns W t.name t.cols.length [parentIn sess.ns W sess.branch] tail =
          (layer sess.ns W t.name (parentIn sess.ns W sess.branch) tail).bind (rowOf t.cols.length) := by
        by_cases hpar : layer sess.ns W t.name (parentIn sess.ns W sess.branch) tail = none
        · rw [chainRow_inherited hpar, chainRow_nil, hpar]
          rfl
        · rw [chainRow_own hpar]
      rw [hparent, layer_rowOf]
      refine and_congr_left fun hrow => ⟨fun hkey => .inr ⟨hlocal, hlayer.mp hown, hkey⟩, ?_⟩
      rintro (hkey | ⟨-, -, hkey⟩)
      · obtain ⟨cells, hlook, -⟩ := hrow
        rw [hkey, hlayer.mp hown] at hlook
        cases hlook
      · exact hkey
    · rw [chainRow_own hown, layer_rowOf]
      refine and_congr_left fun _ => ⟨.inl, ?_⟩
      rintro (hkey | ⟨-, hnone, -⟩)
      · exact hkey
      · exact absurd (hlayer.mpr hnone) hown

theorem seenAt_congr (hmeta : parentIn sess.ns W' sess.branch = parentIn sess.ns W sess.branch)
    (hown : W'.lookup (ownKey sess t tail) = W.lookup (ownKey sess t tail))
    (hpar : Falls sess t → W'.lookup (parentKey sess W t tail) = W.lookup (parentKey sess W t tail)) :
    seenAt sess W' t tail = seenAt sess W t tail := by
  have hkey : parentKey sess W' t tail = parentKey sess W t tail := by
    unfold parentKey
    rw [hmeta]
  refine Option.ext fun r => ?_
  rw [seenAt_eq_some, seenAt_eq_some, hown, hkey]
  refine and_congr_right fun hplace => ?_
  rcases hplace with hk | ⟨hf, -, hk⟩
  · rw [hk, hown]
  · rw [hk, hpar hf]

theorem scanned_lists (hsch : resolvedIn sess.ns W t.name = some t) (hown : RowsOnly sess.ns W t.name sess.branch)
    (hpar : Falls sess t → RowsOnly sess.ns W t.name (parentIn sess.ns W sess.branch)) :
    ∃ rows, scanned sess W t.name = .ok (t, rows) ∧ Lists (seenAt sess W t) rows := by
  rw [scanned_eq hsch]
  unfold seenAt visibleChain
  by_cases hlocal : sess.branch = mainBranch ∨ t.name = otelSpansTable
  · obtain ⟨rows, hrows, hlists⟩ := scanIn_local (n := t.cols.length) hown hlocal
    rw [hrows, if_pos hlocal]
    exact ⟨rows, rfl, hlists⟩
  · obtain ⟨hbranch, htable⟩ := not_or.mp hlocal
    obtain ⟨rows, hrows, hlists⟩ := scanIn_feature (n := t.cols.length) hbranch htable hown (hpar hlocal)
    rw [hrows, if_neg hlocal]
    exact ⟨rows, rfl, hlists⟩

/-! Keys of indexes and of branches are not row keys. -/

/-- The key is not of an index of the branch. -/
def OffIndex (sess : Session) (k : Bytes) : Prop := ∀ x c, ¬indexColumnPrefix sess.ns sess.branch x c <+: k

theorem offIndex_ownKey : OffIndex sess (ownKey sess t tail) := by
  intro x c h
  have hdata : (nsRoot sess.ns ++ branchSegment sess.branch) ++ (str "/data/" ++ []) <+: ownKey sess t tail := by
    rw [append_nil, append_assoc, ← branchData_eq]
    exact (branchData_rowPrefix _ _ _).trans (prefix_append _ _)
  refine not_under_both (by decide) (by decide) hdata (q := str "/idx/") (b := []) ?_
  refine List.IsPrefix.trans ?_ h
  refine ⟨x ++ slash :: (c ++ [slash]), ?_⟩
  simp [indexColumnPrefix, appendStr, str, slash]

theorem offIndex_parentKey (hsep : Separate sess W) (hf : Falls sess t) : OffIndex sess (parentKey sess W t tail) :=
  fun _ _ h => hsep.parent_not_below hf ((subtree_indexColumnPrefix _ _ _ _).trans h)

theorem offIndex_branchMeta (b : Bytes) : OffIndex sess (branchMetaKey sess.ns b) := by
  intro x c h
  have hsub := (subtree_indexColumnPrefix _ _ _ _).trans h
  rw [branchSubtreePrefix_eq] at hsub
  exact branchMetaKey_not_under (branchSegment_path _ _) hsub

theorem row_ne_branchMeta {ns b x tail y : Bytes} : rowPrefix ns b x ++ tail ≠ branchMetaKey ns y := by
  intro heq
  have hsub : branchSubtreePrefix ns b <+: branchMetaKey ns y :=
    heq ▸ ((subtree_branchData _ _).trans (branchData_rowPrefix _ _ _)).trans (prefix_append _ _)
  rw [branchSubtreePrefix_eq] at hsub
  exact branchMetaKey_not_under (branchSegment_path _ _) hsub

theorem branchMeta_ne_schema {ns b x : Bytes} : branchMetaKey ns b ≠ schemaKey ns x := by
  intro heq
  have hpre : branchMetaKey ns b <+: schemaKey ns x := heq ▸ prefix_refl _
  rw [branchMetaKey_eq, schemaKey_eq] at hpre
  exact not_prefix_of_paths (by decide) (by decide) b x hpre

end views

end BasuyuDb.Branch
