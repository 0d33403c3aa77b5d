import BasuyuDb.Executor.AdvancedDml
import BasuyuDb.Branch.Drop
import BasuyuDb.Branch.Visibility

/-
  The rows a statement reads and the children its referential actions meet, on any branch. A
  statement writes rows, index entries and counters (`DataWrite`), so that while it runs no schema
  appears and the parent of its branch stays the same; a scan in the middle of it returns rows
  under the keys of the branch and rows the branch inherits from the parent.
-/

namespace BasuyuDb.Branch
open KvLib Storage Executor List
open Prog hiding pure bind

/-! ## Keys -/

section keys
variable {ns b : Bytes}

theorem branchData_rowPrefix (ns b table : Bytes) : branchData ns b <+: rowPrefix ns b table := by
  rw [rowPrefix_branchData]
  exact prefix_append _ _

theorem branchData_rowKey (ns b table pk : Bytes) : branchData ns b <+: rowKey ns b table pk :=
  (branchData_rowPrefix ns b table).trans (rowPrefix_rowKey ns b table pk)

theorem rowPrefix_otelSpanKey (ns b traceID spanID : Bytes) :
    rowPrefix ns b otelSpansTable <+: otelSpanKey ns b traceID spanID := by
  simp [rowPrefix, otelSpanKey, appendBin, otelSpansTable]

theorem indexKey_path (ns b table col val pk : Bytes) :
    nsRoot ns ++ branchSegment b ++ (str "/idx/" ++ []) <+: indexKey ns b table col val pk := by
  refine ⟨table ++ slash :: (col ++ slash :: (val ++ slash :: (putUint32 pk.length ++ pk))), ?_⟩
  simp [indexKey, indexColumnPrefix, appendStr, appendBin, str, slash]

theorem branchData_not_index (ns b table col val pk : Bytes) :
    ¬branchData ns b <+: indexKey ns b table col val pk := by
  have hdata : branchData ns b = nsRoot ns ++ branchSegment b ++ (str "/data/" ++ []) := by
    rw [branchData_eq, append_nil, append_assoc]
  rw [hdata]
  exact not_under_both (by decide) (by decide) (indexKey_path ns b table col val pk)

theorem branchData_not_schema (ns b x : Bytes) : ¬branchData ns b <+: schemaKey ns x := by
  rw [branchData_eq]
  exact schemaKey_not_under (branchSegment_path b _)

theorem subtree_branchData (ns b : Bytes) : branchSubtreePrefix ns b <+: branchData ns b := by
  rw [branchSubtreePrefix_eq, branchData_eq]
  refine ⟨str "data/", ?_⟩
  simp [str, slash]

theorem subtree_indexColumnPrefix (ns b table col : Bytes) :
    branchSubtreePrefix ns b <+: indexColumnPrefix ns b table col := by
  rw [branchSubtreePrefix_eq]
  refine ⟨str "idx/" ++ table ++ slash :: (col ++ [slash]), ?_⟩
  simp [indexColumnPrefix, appendStr, str, slash]

theorem subtree_indexKey (ns b table col val pk : Bytes) :
    branchSubtreePrefix ns b <+: indexKey ns b table col val pk :=
  (subtree_indexColumnPrefix ns b table col).trans (indexColumnPrefix_indexKey ns b table col val pk)

end keys

/-! ## What a statement writes -/

/-- A row or a tombstone of a table on some branch, an entry of an index or a counter of the namespace. -/
inductive DataWrite (sess : Session) : Mutation Bytes Val → Prop
  | row {m : Mutation Bytes Val} {b : Bytes} (h : branchData sess.ns b <+: m.key) : DataWrite sess m
  | entry (d : IndexDef) (pk tuple : Bytes) (add : Bool) : DataWrite sess (entryMutation sess d pk tuple add)
  | counter (name text : Bytes) : DataWrite sess (assignment (seqKey sess name) (.text text))

section seen
variable {sess : Session} {s : Snap Bytes Val} {buf : Buffer}

theorem entryMutation_effect (sess : Session) (d : IndexDef) (pk tuple : Bytes) (add : Bool) :
    (entryMutation sess d pk tuple add).effect = none ∨
      (entryMutation sess d pk tuple add).effect = some (.text pk) := by
  unfold entryMutation
  cases add with
  | true => exact .inr rfl
  | false => exact .inl rfl

/-- Every schema in the catalog was there when the statement began. -/
def NoNewSchemas (sess : Session) (s : Snap Bytes Val) (buf : Buffer) : Prop :=
  ∀ x sch, (s.seen buf).lookup (schemaKey sess.ns x) = some (.schema sch) →
    s.map.lookup (schemaKey sess.ns x) = some (.schema sch)

theorem noNewSchemas (h : ∀ m ∈ buf, DataWrite sess m) : NoNewSchemas sess s buf := by
  intro x sch hlook
  rcases s.lookup_seen_cases buf (schemaKey sess.ns x) with hsame | ⟨m, hm, hkey, heff⟩
  · exact hsame.symm.trans hlook
  · rw [hlook] at heff
    cases h m hm with
    | row hrow => exact absurd (hkey ▸ hrow) (branchData_not_schema _ _ _)
    | entry d pk tuple add =>
      rcases entryMutation_effect sess d pk tuple add with h1 | h1
      · cases heff.trans h1
      · cases heff.trans h1
    | counter name text => cases heff

theorem NoNewSchemas.resolvedIn (h : NoNewSchemas sess s buf) {table : Bytes} {sch : TableSchema}
    (hsch : resolvedIn sess.ns (s.seen buf) table = some sch) : resolvedIn sess.ns s.map table = some sch := by
  unfold Executor.resolvedIn at hsch ⊢
  split
  · rename_i hotel
    rwa [if_pos hotel] at hsch
  · rename_i hotel
    rw [if_neg hotel] at hsch
    unfold schemaIn at hsch ⊢
    split at hsch
    · rename_i sch' hlook
      rw [h table sch' hlook]
      exact hsch
    · cases hsch

theorem NoNewSchemas.mem_tablesIn (h : NoNewSchemas sess s buf) {t : TableSchema}
    (ht : t ∈ tablesIn sess.ns (s.seen buf)) : t ∈ tablesIn sess.ns s.map := by
  unfold tablesIn schemasOf at ht ⊢
  obtain ⟨kv, hkv, hval⟩ := mem_filterMap.mp ht
  obtain ⟨k, v⟩ := kv
  obtain ⟨hlook, hunder⟩ := (OrdMap.mem_scan _ _ k v).mp hkv
  obtain ⟨x, rfl⟩ := schemaKey_root.mp (List.isPrefixOf_iff_prefix.mp hunder)
  refine mem_filterMap.mpr ⟨(schemaKey sess.ns x, v), (OrdMap.mem_scan _ _ _ v).mpr ⟨?_, hunder⟩, hval⟩
  cases v with
  | schema sch => exact h x sch hlook
  | row cells | tombstone | text b | indexes defs | branchMeta p => cases hval

theorem NoNewSchemas.mem_referencing (h : NoNewSchemas sess s buf) {env : Env} {parentTable : Bytes}
    {tfk : TableSchema × FkConstraint} (hm : tfk ∈ referencing env parentTable (tablesIn sess.ns (s.seen buf))) :
    tfk ∈ referencing env parentTable (tablesIn sess.ns s.map) := by
  obtain ⟨t, fk⟩ := tfk
  obtain ⟨ht, hfk⟩ := (Executor.mem_referencing env).mp hm
  exact (Executor.mem_referencing env).mpr ⟨h.mem_tablesIn ht, hfk⟩

theorem parentIn_seen (h : ∀ m ∈ buf, DataWrite sess m) (b : Bytes) :
    parentIn sess.ns (s.seen buf) b = parentIn sess.ns s.map b := by
  have hlook : (s.seen buf).lookup (branchMetaKey sess.ns b) = s.map.lookup (branchMetaKey sess.ns b) := by
    rcases s.lookup_seen_cases buf (branchMetaKey sess.ns b) with hsame | ⟨m, hm, hkey, -⟩
    · exact hsame
    · have hsub : ∀ b', ¬branchSubtreePrefix sess.ns b' <+: branchMetaKey sess.ns b := by
        intro b'
        rw [branchSubtreePrefix_eq]
        exact branchMetaKey_not_under (branchSegment_path _ _)
      cases h m hm with
      | row hrow => exact absurd ((subtree_branchData _ _).trans (hkey ▸ hrow)) (hsub _)
      | entry d pk tuple add =>
        rw [entryMutation_key] at hkey
        exact absurd (hkey ▸ subtree_indexKey _ _ _ _ _ _) (hsub _)
      | counter name text =>
        have hpath : branchMetaKey sess.ns b = nsRoot sess.ns ++ (str "/meta/branches/" ++ b) := branchMetaKey_eq ..
        have heq : seqKey sess name = branchMetaKey sess.ns b := hkey
        rw [hpath, seqKey, schemaKey_eq] at heq
        exact absurd ⟨[], (append_nil _).trans heq.symm⟩ (not_prefix_of_paths (p := str "/meta/branches/")
          (q := schemaPath) (by decide) (by decide) b _)
  unfold parentIn
  rw [hlook]

end seen

/-! ## The rows a statement reads on a branch -/

/-- The live rows of the parent that the branch neither overrides nor deletes. -/
def inheritedRows (ns : Bytes) (W : State) (branch table : Bytes) (n : Nat) : List ScanRow :=
  if table = otelSpansTable then []
  else (inheritedTails ns W table branch (parentIn ns W branch)).filterMap
    (fun t => (layer ns W table (parentIn ns W branch) t).bind (rowOf n))

variable {ns branch table : Bytes} {W : State} {n : Nat} {r : ScanRow} {sch : TableSchema} {cells : Data}
  {env : Env}

theorem mem_inheritedRows : r ∈ inheritedRows ns W branch table n ↔ table ≠ otelSpansTable ∧ ∃ tail cells,
      W.lookup (rowPrefix ns branch table ++ tail) = none ∧
      W.lookup (rowPrefix ns (parentIn ns W branch) table ++ tail) = some (.row cells) ∧
      r = ⟨rowPrefix ns (parentIn ns W branch) table ++ tail, cells.takeD n none⟩ := by
  unfold inheritedRows
  by_cases hotel : table = otelSpansTable
  · simp [hotel]
  · rw [if_neg hotel, mem_filterMap]
    constructor
    · rintro ⟨tail, htail, hrow⟩
      obtain ⟨-, hown⟩ := mem_inheritedTails.mp htail
      refine ⟨hotel, tail, ?_⟩
      unfold layer at hrow
      cases hlook : W.lookup (rowPrefix ns (parentIn ns W branch) table ++ tail) with
      | none => cases hlook ▸ hrow
      | some v =>
        rw [hlook] at hrow
        cases v with
        | row cells => exact ⟨cells, layer_eq_none.mp hown, rfl, (Option.some.inj hrow).symm⟩
        | tombstone | text b | schema sch | indexes defs | branchMeta p => cases hrow
    · rintro ⟨-, tail, cells, hown, hparent, rfl⟩
      refine ⟨tail, mem_inheritedTails.mpr ⟨?_, layer_eq_none.mpr hown⟩, ?_⟩
      · exact fun hnone => absurd (layer_eq_none.mp hnone) (by rw [hparent]; simp)
      · simp [layer, hparent, rowOf]

theorem mem_scanIn {rows : List ScanRow} (h : scanIn ns W branch table n = .ok rows) (hr : r ∈ rows) :
    rowPrefix ns branch table <+: r.key ∨ branch ≠ mainBranch ∧ r ∈ inheritedRows ns W branch table n := by
  obtain ⟨own, hown, h⟩ := ok_of_bind h
  have hmine : ∀ r ∈ own, rowPrefix ns branch table <+: r.key := by
    intro r hr
    obtain ⟨cells, hmem, -⟩ := (mem_liveRows hown).mp hr
    exact isPrefixOf_iff_prefix.mp ((OrdMap.mem_scan W _ _ _).mp hmem).2
  split at h
  · cases h
    exact .inl (hmine r hr)
  · rename_i hfall
    obtain ⟨hbranch, hotel⟩ := not_or.mp hfall
    obtain ⟨parents, hparents, h⟩ := ok_of_bind h
    cases h
    rcases mem_append.mp hr with hr | hr
    · exact .inl (hmine r hr)
    · obtain ⟨cells, hmem, hcells⟩ := (mem_liveRows hparents).mp hr
      obtain ⟨hscan, hfree⟩ := mem_filter.mp hmem
      obtain ⟨hkey, hlook⟩ := mem_scan_under hscan
      refine .inr ⟨hbranch, mem_inheritedRows.mpr ⟨hotel, keyTail r.key (rowPrefix ns (parentIn ns W branch) table),
        cells, ?_, ?_, ?_⟩⟩
      · by_contra hne
        rw [contains_iff_mem.mpr (mem_tailsIn.mpr hne)] at hfree
        cases hfree
      · rw [hkey]
        exact hlook
      · rw [hkey, ← hcells]

theorem scanIn_live {rows : List ScanRow} (h : scanIn ns W branch table n = .ok rows)
    (hr : r ∈ rows) : ∃ cells, W.lookup r.key = some (.row cells) ∧ r.cells = cells.takeD n none := by
  obtain ⟨own, hown, hrest⟩ := ok_of_bind h
  have hlive : ∀ {kvs rows'}, liveRows n kvs = .ok rows' → r ∈ rows' → (∀ kv ∈ kvs, W.lookup kv.1 = some kv.2) →
      ∃ cells, W.lookup r.key = some (.row cells) ∧ r.cells = cells.takeD n none := by
    intro kvs rows' hkvs hr' hlook
    obtain ⟨cells, hmem, hcells⟩ := (mem_liveRows hkvs).mp hr'
    exact ⟨cells, hlook _ hmem, hcells⟩
  have hscan : ∀ pre, ∀ kv ∈ W.scan (underPrefix pre), W.lookup kv.1 = some kv.2 :=
    fun pre kv hkv => (mem_scan_under hkv).2
  split at hrest
  · cases hrest
    exact hlive hown hr (hscan _)
  · obtain ⟨parents, hparents, hrest⟩ := ok_of_bind hrest
    cases hrest
    rcases mem_append.mp hr with hr | hr
    · exact hlive hown hr (hscan _)
    · exact hlive hparents hr fun kv hkv => hscan _ kv (mem_of_mem_filter hkv)

section layers
variable (sess : Session) (W : State)

/-- The branches whose rows a session reads: its own and, on a feature branch, the parent. -/
def Layer (b : Bytes) : Prop := b = sess.branch ∨ sess.branch ≠ mainBranch ∧ b = parentIn sess.ns W sess.branch

/-- The key of a row of the table that the session may read. -/
def RowAt (table k : Bytes) : Prop := ∃ b, Layer sess W b ∧ rowPrefix sess.ns b table <+: k

end layers

section rows
variable {sess : Session} {k : Bytes}

theorem rowAt_own (h : rowPrefix sess.ns sess.branch table <+: k) : RowAt sess W table k := ⟨_, .inl rfl, h⟩

theorem rowAt_scanIn {rows : List ScanRow}
    (h : scanIn sess.ns W sess.branch table n = .ok rows) (hr : r ∈ rows) : RowAt sess W table r.key := by
  rcases mem_scanIn h hr with hown | ⟨hbranch, hinherited⟩
  · exact rowAt_own hown
  · obtain ⟨-, tail, cells, -, -, rfl⟩ := mem_inheritedRows.mp hinherited
    exact ⟨_, .inr ⟨hbranch, rfl⟩, prefix_append _ _⟩

theorem RowAt.branchRowKey (h : RowAt sess W table k) :
    RowAt sess W table (branchRowKey sess table sch cells k) := by
  unfold Executor.branchRowKey
  split
  · exact rowAt_own (rowPrefix_rowKey _ _ _ _)
  · exact h

theorem RowAt.data {m : Mutation Bytes Val} (h : RowAt sess W table m.key) : DataWrite sess m := by
  obtain ⟨b, -, hk⟩ := h
  exact .row ((branchData_rowPrefix _ b _).trans hk)

end rows

section reads
variable {sess : Session} {s : Snap Bytes Val} {buf : Buffer}

theorem wp_parentBranch {Q : Bytes → Buffer → Prop} :
    (parentBranch sess).wp underPrefix s Q buf ↔ Q (parentIn sess.ns (s.seen buf) sess.branch) buf := by
  unfold parentBranch parentIn
  rw [wp_bind, wp_read]
  generalize (s.seen buf).lookup (branchMetaKey sess.ns sess.branch) = o
  cases o with
  | none => exact Iff.rfl
  | some v => cases v <;> exact Iff.rfl

theorem wp_scanRows_branch {table : Bytes} {n : Nat} {Q : List ScanRow → Buffer → Prop}
    (h : ∀ rows, scanIn sess.ns (s.seen buf) sess.branch table n = .ok rows → Q rows buf) :
    (scanRows sess table n).wp underPrefix s Q buf := by
  unfold scanIn at h
  dsimp only at h
  unfold scanRows
  simp only [wp_bind, wp_range, wp_ofExcept]
  intro own hown
  rw [hown] at h
  split
  · rename_i hlocal
    exact h own (if_pos hlocal)
  · rename_i hlocal
    simp only [scanParent, wp_bind, wp_parentBranch, wp_range, wp_ofExcept]
    intro parents hparents
    refine h (own ++ parents) ((if_neg hlocal).trans ?_)
    unfold tailsIn
    rw [hparents]
    rfl

theorem wp_scanTable_branch {table : Bytes} {Q : TableSchema × List ScanRow → Buffer → Prop}
    (h : ∀ sch rows, resolvedIn sess.ns (s.seen buf) table = some sch →
      scanIn sess.ns (s.seen buf) sess.branch table sch.cols.length = .ok rows → Q (sch, rows) buf) :
    (scanTable sess table).wp underPrefix s Q buf := by
  simp only [scanTable, wp_bind, wp_resolveSchema]
  intro sch hsch
  exact wp_scanRows_branch fun rows hrows => h sch rows hsch hrows

/-- A new row is stored among the rows of the session's branch. -/
theorem wp_insertKey : (insertKey sess table sch cells).wp underPrefix s
      (fun key buf' => rowPrefix sess.ns sess.branch table <+: key ∧ buf' = buf) buf := by
  unfold insertKey
  split
  · rename_i hotel
    subst hotel
    exact ⟨rowPrefix_otelSpanKey _ _ _ _, rfl⟩
  · split
    · split
      · trivial
      · exact ⟨rowPrefix_rowKey _ _ _ _, rfl⟩
    · exact ⟨rowPrefix_rowKey _ _ _ _, rfl⟩

/-- What INSERT writes before its row: counters of sequences. -/
def IsCounter (sess : Session) (m : Mutation Bytes Val) : Prop := ∃ name text, m = assignment (seqKey sess name) (.text text)

/-- What an INSERT finds, and what it has written by then. -/
theorem wp_insertTarget {st : InsertStmt} {params : Data} : (insertTarget env sess st params).wp underPrefix s
    (fun t buf' => ∃ ms, buf' = buf ++ ms ∧ (∀ m ∈ ms, IsCounter sess m) ∧
      resolvedIn sess.ns (s.seen buf) st.table = some t.1 ∧ rowPrefix sess.ns sess.branch st.table <+: t.2.2.1 ∧
      ∀ raw, t.2.2.2 = some raw → (s.seen buf').lookup t.2.2.1 = some raw) buf := by
  simp only [insertTarget, wp_bind, wp_resolveSchema]
  intro sch hsch
  refine wp_mono ((newRow_writes (P := IsCounter sess) fun name text => ⟨name, text, rfl⟩).wp buf) fun cells buf1 hbuf => ?_
  obtain ⟨ms, rfl, hms⟩ := hbuf
  refine enforceFKChild_writes.wp_none fun _ => checkPolicies_writes.wp_none fun _ => ?_
  refine wp_mono wp_insertKey fun key buf2 h => ?_
  obtain ⟨hkey, rfl⟩ := h
  unfold storedAt
  split
  · exact ⟨ms, rfl, hms, hsch, hkey, fun raw h => absurd h.symm (Option.some_ne_none raw)⟩
  · exact ⟨ms, rfl, hms, hsch, hkey, fun _ h => h⟩

/-! ## The children of a row -/

/-- A child row as the loop of a referential action meets it: the foreign key references the parent's
table, the row matches the values of the parent, and it was read at some moment of the statement. -/
structure Meets (env : Env) (sess : Session) (s : Snap Bytes Val) (I : Buffer → Prop)
    (parentTable : Bytes) (vals : FkConstraint → Option (List Bytes)) (t : TableSchema) (fk : FkConstraint)
    (r : ScanRow) : Prop where
  references : (t, fk) ∈ referencing env parentTable (tablesIn sess.ns s.map)
  matched : ∃ refVals, vals fk = some refVals ∧ childTupleMatches env t r.cells fk refVals = true
  read : ∃ buf₀ sch rows, I buf₀ ∧ resolvedIn sess.ns s.map t.name = some sch ∧
    scanIn sess.ns (s.seen buf₀) sess.branch t.name sch.cols.length = .ok rows ∧ r ∈ rows

theorem wp_forReferencing {I : Buffer → Prop} (hcat : ∀ buf', I buf' → NoNewSchemas sess s buf')
    {parentTable : Bytes} {vals : FkConstraint → Option (List Bytes)}
    {f : TableSchema → FkConstraint → List IndexDef → ScanRow → Stm Unit}
    (hrow : ∀ t fk defs r buf', Meets env sess s I parentTable vals t fk r → I buf' →
      (f t fk defs r).wp underPrefix s (fun _ buf'' => I buf'') buf') (hI : I buf) :
    (forEach (referencing env parentTable (tablesIn sess.ns (s.seen buf))) fun tfk =>
      match vals tfk.2 with
      | none => pure ()
      | some refVals => do
        let sc ← scanTable sess tfk.1.name
        let defs ← loadIndexes sess tfk.1.name
        forEach sc.2 fun r =>
          if childTupleMatches env tfk.1 r.cells tfk.2 refVals then f tfk.1 tfk.2 defs r
          else pure ()).wp underPrefix s (fun _ buf' => I buf') buf := by
  refine wp_mono (wp_forEach (fun rest buf' => I buf' ∧
    ∀ x ∈ rest, x ∈ referencing env parentTable (tablesIn sess.ns s.map)) ?_
    ⟨hI, fun _ hx => (hcat _ hI).mem_referencing hx⟩) fun _ _ h => h.1
  intro tfk rest buf1 h
  obtain ⟨t, fk⟩ := tfk
  obtain ⟨hI1, hrest⟩ := h
  have hmem := hrest _ mem_cons_self
  have hrest' : ∀ x ∈ rest, x ∈ referencing env parentTable (tablesIn sess.ns s.map) :=
    fun x hx => hrest x (mem_cons_of_mem _ hx)
  dsimp only
  split
  · exact ⟨hI1, hrest'⟩
  · rename_i refVals hvals
    rw [wp_bind]
    refine wp_scanTable_branch fun sch rows hsch hrows => ?_
    rw [wp_bind, wp_loadIndexes]
    intro defs _
    refine wp_mono (wp_forEach (fun rows' buf2 => I buf2 ∧ ∀ r ∈ rows', r ∈ rows) ?_ ⟨hI1, fun _ h => h⟩)
      (fun _ _ h => ⟨h.1, hrest'⟩)
    intro r rows' buf2 h
    obtain ⟨hI2, hrows'⟩ := h
    have hrest'' : ∀ x ∈ rows', x ∈ rows := fun x hx => hrows' x (mem_cons_of_mem _ hx)
    split
    · rename_i hmatch
      refine wp_mono (hrow t fk defs r buf2 ⟨hmem, ⟨refVals, hvals, hmatch⟩, buf1, sch, rows, hI1,
        (hcat _ hI1).resolvedIn hsch, hrows, hrows' r mem_cons_self⟩ hI2) fun _ _ h => ⟨h, hrest''⟩
    · exact ⟨hI2, hrest''⟩

section actions
variable {I : Buffer → Prop} (hcat : ∀ buf', I buf' → NoNewSchemas sess s buf')
include hcat

/-- ON DELETE, with an invariant of the buffer and what is known of the rows removed. -/
theorem wp_deleteActions {P : Bytes → TableSchema → Data → Prop}
    (hcascade : ∀ p psch pcells t fk r, P p psch pcells →
      Meets env sess s I p (refTupleFromParent env psch pcells) t fk r → fk.onDelete = .cascade →
      P t.name t r.cells ∧ ∀ defs buf', I buf' →
        (removeRow env sess t.name t defs r).wp underPrefix s (fun _ buf'' => I buf'') buf')
    (hnull : ∀ p psch pcells t fk r, P p psch pcells →
      Meets env sess s I p (refTupleFromParent env psch pcells) t fk r → fk.onDelete = .setNull →
      ∀ defs buf', I buf' → (replaceRow env sess t.name t defs r (nullLocals env t r.cells fk)).wp underPrefix s
        (fun _ buf'' => I buf'') buf')
    (fuel : Nat) {p : Bytes} {psch : TableSchema} {pcells : Data} (hP : P p psch pcells) (hI : I buf) :
    (applyFKDeleteActions env sess fuel p psch pcells).wp underPrefix s (fun _ buf' => I buf') buf := by
  induction fuel generalizing p psch pcells buf with
  | zero => trivial
  | succ fuel ih =>
    unfold applyFKDeleteActions
    rw [wp_bind, wp_listTables]
    refine wp_forReferencing (f := deleteAction env sess p (applyFKDeleteActions env sess fuel)) hcat ?_ hI
    intro t fk defs r buf' hmeets hI'
    unfold deleteAction
    split
    · rename_i hact
      obtain ⟨hP', hremove⟩ := hcascade p psch pcells t fk r hP hmeets hact
      rw [wp_bind]
      exact wp_mono (ih hP' hI') fun _ buf2 hI2 => hremove defs buf2 hI2
    · rename_i hact
      exact hnull p psch pcells t fk r hP hmeets hact defs buf' hI'
    · trivial

/-- ON UPDATE, with an invariant of the buffer. -/
theorem wp_updateActions {p : Bytes} {psch : TableSchema} {oldCells newCells : Data}
    (hact : ∀ t fk r cells, Meets env sess s I p (refTupleFromParent env psch oldCells) t fk r →
      updatedChild env t r.cells fk (refTupleFromParent env psch newCells fk) p = .ok cells →
      ∀ defs buf', I buf' → (replaceRow env sess t.name t defs r cells).wp underPrefix s (fun _ buf'' => I buf'') buf')
    (hI : I buf) :
    (applyFKUpdateActions env sess p psch oldCells newCells).wp underPrefix s (fun _ buf' => I buf') buf := by
  unfold applyFKUpdateActions
  rw [wp_bind, wp_listTables]
  refine wp_forReferencing (f := fun t fk defs r => do
    let cells ← ofExcept (updatedChild env t r.cells fk (refTupleFromParent env psch newCells fk) p)
    replaceRow env sess t.name t defs r cells) hcat ?_ hI
  intro t fk defs r buf' hmeets hI'
  rw [wp_bind, wp_ofExcept]
  exact fun cells hcells => hact t fk r cells hmeets hcells defs buf' hI'

end actions

end reads

end BasuyuDb.Branch
