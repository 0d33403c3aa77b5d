import BasuyuDb.Executor.WhereBounds

/-
  planIndexScan against the full scan, for a WHERE of comparisons on a table of main with plain
  indexes. An equality path answers every row that satisfies WHERE. A range over the leading column
  of an index answers those that have an entry in it, up to the byte 0xFF that ends the range; a
  lookup by primary key answers the row stored under the text of the constant.
-/

namespace BasuyuDb.Executor
open KvLib Storage List Option

variable (env : Env)

/-! ## The table -/

/-- A table of main with plain indexes whose entries are those of its rows. -/
structure IndexedTable (sess : Session) (W : State) (table : Bytes) (sch : TableSchema)
    (defs : List IndexDef) (rows : List ScanRow) : Prop where
  main : sess.branch = mainBranch
  schema : resolvedIn sess.ns W table = some sch
  indexes : indexesIn sess.ns W table = some defs
  scanned : rowsIn sess.ns W table sch.cols.length = .ok rows
  keyed : KeyedRows sess.ns table sch rows
  plain : ∀ d ∈ defs, d.isExpr = false ∧ d.whereText = []
  lower : ∀ d ∈ defs, ∀ c ∈ d.columns, LowerFolds env c
  exact : ∀ d ∈ defs, IndexExact env sess.ns W table sch d

/-- The entry of a row lies between the bounds. -/
def entryWithin (ns : Bytes) (sch : TableSchema) (d : IndexDef) (lo hi : Option Bytes) (r : ScanRow) : Bool :=
  (entryOf env ns sch d r).any fun e => notBelow lo e.1 && notAbove hi e.1

section scans
variable {env} {sess : Session} {W S : State} {table : Bytes} {sch : TableSchema} {defs : List IndexDef}
  {rows : List ScanRow} {d : IndexDef}

theorem IndexedTable.ne_otel (h : IndexedTable env sess W table sch defs rows) : table ≠ otelSpansTable :=
  h.keyed.ne_otel h.schema

theorem KeyedRows.scanRange (h : KeyedRows sess.ns table sch rows) (hmain : sess.branch = mainBranch)
    (hrows : rowsIn sess.ns W table sch.cols.length = .ok rows) {tuple : Data → Option Bytes}
    (hx : EntriesOf sess.ns W table sch d tuple) (lo hi : Option Bytes) (desc : Bool)
    (hsees : ScanSees W (indexPrefix sess d) S desc) :
    ∃ out, scanIndexRange sess W S table sch (indexPrefix sess d) lo hi desc (-1) = .ok out ∧
      out.Perm ((rows.filter fun r => (entryAt sess.ns sch d (tuple r.cells) r).any
        (fun e => notBelow lo e.1 && notAbove hi e.1)).map ScanRow.cells) := by
  refine ⟨_, scanIndexRange_eq hmain hrows _ lo hi desc hsees, ?_⟩
  have hentries : (if desc then (entriesIn W (indexPrefix sess d) lo hi).reverse
      else entriesIn W (indexPrefix sess d) lo hi).Perm (entriesIn W (indexPrefix sess d) lo hi) := by
    cases desc with
    | true => exact reverse_perm _
    | false => exact List.Perm.refl _
  have hperm := ((hx.perm hrows (h.primaryKey_inj hrows)).filter
    (fun e => notBelow lo e.1 && notAbove hi e.1)).filterMap (Executor.fetched W sess.ns table sch.cols.length)
  have hcells : ((rows.filterMap fun r => entryAt sess.ns sch d (tuple r.cells) r).filter
        (fun e => notBelow lo e.1 && notAbove hi e.1)).filterMap (Executor.fetched W sess.ns table sch.cols.length) =
      (rows.filter fun r => (entryAt sess.ns sch d (tuple r.cells) r).any
        (fun e => notBelow lo e.1 && notAbove hi e.1)).map ScanRow.cells := by
    rw [filterMap_filter, filterMap_filterMap, ← filterMap_eq_map, filterMap_filter]
    refine filterMap_congr fun r hr => ?_
    cases he : entryAt sess.ns sch d (tuple r.cells) r with
    | none => rfl
    | some e => simp [h.fetchedAt hrows hr he]
  rw [hcells] at hperm
  refine (hentries.filterMap _).trans ?_
  unfold entriesIn indexPrefix
  rw [hmain]
  exact hperm

theorem IndexedTable.scan (h : IndexedTable env sess W table sch defs rows) (hd : d ∈ defs)
    (lo hi : Option Bytes) (desc : Bool) (hsees : ScanSees W (indexPrefix sess d) S desc) :
    ∃ out, scanIndexRange sess W S table sch (indexPrefix sess d) lo hi desc (-1) = .ok out ∧
      out.Perm ((rows.filter (entryWithin env sess.ns sch d lo hi)).map ScanRow.cells) := by
  obtain ⟨out, hout, hperm⟩ := h.keyed.scanRange h.main h.scanned (h.exact d hd).entriesOf lo hi desc hsees
  simp only [← entryOf_eq_entryAt] at hperm
  exact ⟨out, hout, hperm⟩

theorem KeyedRows.pointGet (h : KeyedRows sess.ns table sch rows) (hmain : sess.branch = mainBranch)
    (hrows : rowsIn sess.ns W table sch.cols.length = .ok rows) {pk : Nat} (hpk : sch.pkIndex = some pk) (text : Bytes) :
    ∃ out, pkPointGet sess W table sch text = .ok out ∧
      out.Perm ((rows.filter fun r => cellAt r.cells pk = some text).map ScanRow.cells) := by
  have hkey : ∀ r ∈ rows, cellAt r.cells pk = some text → r.key = rowKey sess.ns mainBranch table text := by
    intro r hr ht
    have hk := h.key hr
    simpa only [primaryKeyBytes, hpk, ht, getD_some] using hk
  -- nothing under the key: no row has it
  have hnone : (∀ cells, W.lookup (rowKey sess.ns mainBranch table text) ≠ some (.row cells)) →
      ([] : List Data).Perm ((rows.filter fun r => cellAt r.cells pk = some text).map ScanRow.cells) := by
    intro hno
    rw [filter_eq_nil_iff.mpr, map_nil]
    intro r hr ht
    obtain ⟨-, cells, hlook, -⟩ := (mem_rowsIn hrows).mp hr
    rw [hkey r hr (of_decide_eq_true ht)] at hlook
    exact hno cells hlook
  unfold pkPointGet
  rw [hmain]
  cases hlook : W.lookup (rowKey sess.ns mainBranch table text) with
  | none => exact ⟨[], rfl, hnone (by simp [hlook])⟩
  | some v =>
    rcases rowsIn_entry hrows (rowPrefix_rowKey ..) hlook with rfl | ⟨cells, rfl⟩
    · exact ⟨[], rfl, hnone (by simp [hlook])⟩
    · refine ⟨[cells.takeD sch.cols.length none], rfl, ?_⟩
      let r : ScanRow := ⟨rowKey sess.ns mainBranch table text, cells.takeD sch.cols.length none⟩
      have hr : r ∈ rows := (mem_rowsIn hrows).mpr ⟨rowPrefix_rowKey .., cells, hlook, rfl⟩
      have ht : cellAt r.cells pk = some text := by
        obtain ⟨pk', hpk', hkeyed⟩ := h
        cases hpk'.symm.trans hpk
        obtain ⟨t, ht, hk⟩ := hkeyed r hr
        rw [ht, rowKey_inj hk]
      have hfilter : rows.filter (fun r => cellAt r.cells pk = some text) = [r] := by
        refine perm_singleton.mp ((perm_ext_iff_of_nodup ?_ (nodup_singleton _)).mpr fun r' => ?_)
        · exact (rowsIn_nodup hrows).of_map.filter _
        · rw [mem_filter, mem_singleton, decide_eq_true_eq]
          constructor
          · intro hr'
            exact inj_on_of_nodup_map (rowsIn_nodup hrows) hr'.1 hr (hkey r' hr'.1 hr'.2)
          · intro hr'
            rw [hr']
            exact ⟨hr, ht⟩
      rw [hfilter]
      exact List.Perm.refl _

end scans

/-- A selection from a part of the rows is that from all of them when the part has every row that
is selected. -/
theorem filter_perm_iff {rows : List ScanRow} {reached : ScanRow → Bool} {keep : Data → Bool}
    {out : List Data} (hout : out.Perm ((rows.filter reached).map ScanRow.cells)) :
    (out.filter keep).Perm ((rows.map ScanRow.cells).filter keep) ↔
      ∀ r ∈ rows, keep r.cells = true → reached r = true := by
  have hleft : (out.filter keep).Perm
      (((rows.filter fun r => keep r.cells).filter reached).map ScanRow.cells) := by
    have h := hout.filter keep
    rw [List.filter_map, List.filter_filter] at h
    rw [List.filter_filter]
    simpa only [Function.comp_def, Bool.and_comm] using h
  have hright : (rows.map ScanRow.cells).filter keep = (rows.filter fun r => keep r.cells).map ScanRow.cells := by
    rw [List.filter_map]
    rfl
  rw [hright]
  constructor
  · intro h r hr hkeep
    have hlen := (hleft.symm.trans h).length_eq
    rw [length_map, length_map] at hlen
    exact length_filter_eq_length_iff.mp hlen r (mem_filter.mpr ⟨hr, hkeep⟩)
  · intro h
    have hall : (rows.filter fun r => keep r.cells).filter reached = rows.filter (fun r => keep r.cells) :=
      filter_eq_self.mpr (fun r hr => h r (mem_filter.mp hr).1 (mem_filter.mp hr).2)
    rwa [hall] at hleft

/-! ## Equality paths -/

section equality
variable {env} {sess : Session} {W : State} {s : SelectStmt} {params : Data} {sch : TableSchema}
  {defs : List IndexDef} {rows : List ScanRow} {d : IndexDef} {Q : Data → Bool}

theorem SoundBounds.word {col text : Bytes} {ci : Nat}
    (h : SoundBounds env sch rows Q ⟨col, some text, some text⟩ ci) :
    ∃ w, orderEncode env (sch.oidAt ci) text = .ok w ∧ ∀ r ∈ rows, Q r.cells = true →
      encodeColumn env sch r.cells col = .ok (some w) := by
  obtain ⟨w, hw, hlo⟩ := h.lo text rfl
  obtain ⟨w', hw', hhi⟩ := h.hi text rfl
  cases hw.symm.trans hw'
  refine ⟨w, hw, fun r hr hq => ?_⟩
  obtain ⟨t, u, ht, hu, hle⟩ := hlo r hr hq
  obtain ⟨t', u', ht', hu', hge⟩ := hhi r hr hq
  cases ht.symm.trans ht'
  cases hu.symm.trans hu'
  have heq : w = u := by
    rcases hle with h1 | h1
    · exact h1
    · rcases hge with h2 | h2
      · exact h2.symm
      · exact absurd h1.lt (not_lt.mpr h2.lt.le)
  exact encodeColumn_eq_some.mpr ⟨ci, t, h.index, ht, heq ▸ hu⟩

theorem encodeColumn_congr {cells : Data} {a b : Bytes} (h : env.fold a = env.fold b) :
    encodeColumn env sch cells a = encodeColumn env sch cells b := by
  unfold encodeColumn
  rw [colIndex_congr h]

theorem equalityTuple_sound {eq : List (Bytes × Bytes)} (heq : ∀ kt ∈ eq, SoundEquality env sch rows Q kt)
    {cols : List Bytes} (hlower : ∀ c ∈ cols, LowerFolds env c)
    (hcols : ∀ c ∈ cols, env.toLower c ∈ eq.map Prod.fst) :
    ∃ tuple, equalityTuple env sch eq cols = .ok tuple ∧ ∀ r ∈ rows, Q r.cells = true →
      encodeIndexTuple env sch cols r.cells = .ok (some tuple) := by
  induction cols with
  | nil => exact ⟨[], rfl, fun _ _ _ => rfl⟩
  | cons c cols ih =>
    obtain ⟨rest, hrest, hrows⟩ := ih (fun c' hc' => hlower c' (mem_cons_of_mem _ hc'))
      (fun c' hc' => hcols c' (mem_cons_of_mem _ hc'))
    -- the entry of the column in the map
    have hlook : ∃ text, eq.lookup (env.toLower c) = some text ∧ (env.toLower c, text) ∈ eq := by
      obtain ⟨kt, hkt, hfst⟩ := List.mem_map.mp (hcols c mem_cons_self)
      have hsome : (eq.lookup (env.toLower c)).isSome := by
        rw [lookup_isSome_iff]
        exact ⟨kt, hkt, by simp [hfst]⟩
      obtain ⟨text, htext⟩ := isSome_iff_exists.mp hsome
      obtain ⟨l1, l2, hl, -⟩ := lookup_eq_some_iff.mp htext
      exact ⟨text, htext, by simp [hl]⟩
    obtain ⟨text, htext, hmem⟩ := hlook
    obtain ⟨col, ci, hcol, hsound⟩ := heq _ hmem
    obtain ⟨w, hw, hword⟩ := hsound.word
    have hfold : env.fold c = env.fold col := by
      rw [← hlower c mem_cons_self, ← hsound.lower, ← hcol]
    refine ⟨w ++ rest, ?_, fun r hr hq => ?_⟩
    · unfold equalityTuple
      rw [colIndex_congr hfold, hsound.index, htext]
      simp only [getD_some, hw, hrest, bind, Except.bind]
    · rw [encodeIndexTuple_cons]
      exact ⟨w, rest, (encodeColumn_congr hfold).trans (hword r hr hq), hrows r hr hq, rfl⟩

end equality

/-! ### Keys and bounds -/

section keys
variable {p w x y : Bytes}

theorem notBelow_of_prefix (h : w <+: y) : notBelow (some w) y = true := by
  simpa [notBelow] using not_lt_of_prefix h

theorem notBelow_of_before (h : Before w y) : notBelow (some (p ++ w)) (p ++ y) = true := by
  have hlt := (append_lt_append_iff p).mpr h.lt
  simpa [notBelow] using hlt.le

theorem notAbove_of_before (h : Before y w) : notAbove (some (p ++ w)) (p ++ y) = true := by
  have hlt := (append_lt_append_iff p).mpr h.lt
  simpa [notAbove] using hlt.le

theorem sentinel_lt_iff (rest : Bytes) : ([255] : Bytes) < rest ++ slash :: x ↔ [255] <+: rest := by
  cases rest with
  | nil =>
    have hlt : ¬(255 : Byte) < slash ∧ (255 : Byte) ≠ slash := by decide
    simp [cons_lt_cons_iff, hlt]
  | cons b rest =>
    have hle : ¬(255 : Byte) < b := by
      have hb := b.isLt
      rw [Fin.lt_def]
      omega
    rw [cons_append, cons_lt_cons_iff, cons_prefix_cons]
    simp only [hle, false_or, nil_prefix, and_true, and_iff_left_iff_imp]
    intro _
    cases rest with
    | nil | cons c rest => exact nil_lt_cons ..

/-- A key at or below the word of an upper bound is inside the range unless 0xFF follows the word. -/
theorem notAbove_sentinel {u rest : Bytes} (h : u = w ∨ Before u w) :
    notAbove (some (p ++ w ++ [255])) (p ++ (u ++ rest ++ slash :: x)) = true ↔ ¬w ++ [255] <+: u ++ rest := by
  rcases h with rfl | h
  · have hlt : p ++ u ++ [255] < p ++ (u ++ rest ++ slash :: x) ↔ [255] <+: rest := by
      rw [← sentinel_lt_iff (x := x), append_assoc p, append_lt_append_iff, append_assoc u, append_lt_append_iff]
    rw [prefix_append_right_inj, ← hlt]
    simp [notAbove]
  · have hin : notAbove (some (p ++ (w ++ [255]))) (p ++ (u ++ (rest ++ slash :: x))) = true :=
      notAbove_of_before (h.append _ _)
    rw [append_assoc p, append_assoc u, hin]
    have hno : ¬w ++ [255] <+: u ++ rest := fun hp => h.not_prefix_append rest ((prefix_append w [255]).trans hp)
    simp [hno]

end keys

variable (rows : List ScanRow) (Q : Data → Bool) (s : SelectStmt) (params : Data) (sch : TableSchema)
  (defs : List IndexDef)

/-- A composite index has all its columns among the equalities. -/
def compositeServed : Bool :=
  2 ≤ (collectEqualities env s params).length &&
    (findIndexForEquality env defs ((collectEqualities env s params).map Prod.fst)
      (s.whereClause.map fun w => predicateImplies env (some w))).any fun d => 2 ≤ d.columns.length

/-- A single-column index is over the column of an equality. -/
def columnServed (kt : Bytes × Bytes) : Bool :=
  (sch.colIndex env kt.1).isSome && (singleColIndex env defs kt.1 (predicateImplies env s.whereClause)).isSome

/-- An index serves equalities of WHERE. -/
def equalityServed : Bool :=
  compositeServed env s params defs || (collectEqualities env s params).any (columnServed env s sch defs)

/-- Rows of the table, with all those for which `Q` holds. -/
def Answers (out : List Data) : Prop :=
  ∃ reached, out.Perm ((rows.filter reached).map ScanRow.cells) ∧ ∀ r ∈ rows, Q r.cells = true → reached r = true

section paths
variable {env s params sch defs rows Q} {sess : Session} {W : State} {d : IndexDef}

theorem entryWithin_tuple (hmain : sess.branch = mainBranch) {tuple : Bytes} {r : ScanRow}
    (hr : encodeIndexTuple env sch d.columns r.cells = .ok (some tuple)) :
    entryWithin env sess.ns sch d (some (indexPrefix sess d ++ tuple))
      (some (indexPrefix sess d ++ tuple ++ [255])) r = true := by
  unfold entryWithin
  rw [entryOf_eq_some.mpr ⟨tuple, hr, rfl⟩, any_some, Bool.and_eq_true]
  unfold indexPrefix
  rw [hmain]
  dsimp only
  rw [indexKey_eq]
  constructor
  · refine notBelow_of_prefix ?_
    rw [prefix_append_right_inj]
    exact prefix_append _ _
  · rw [append_assoc]
    exact notAbove_of_before (Before.prepend tuple (.inl (by decide)))

theorem findIndexForEquality_some {eqCols : List Bytes} {usePartial : Option (Bytes → Bool)}
    (h : findIndexForEquality env defs eqCols usePartial = some d) :
    d ∈ defs ∧ ∀ c ∈ d.columns, env.toLower c ∈ eqCols := by
  unfold findIndexForEquality at h
  revert h
  refine foldlRecOn (motive := fun best => best = some d → d ∈ defs ∧ ∀ c ∈ d.columns, env.toLower c ∈ eqCols)
    defs _ (fun h => absurd h (by simp)) fun best ih d' hd' h => ?_
  split at h
  · rename_i hc
    cases h
    rw [Bool.and_eq_true, Bool.and_eq_true, List.all_eq_true] at hc
    exact ⟨hd', fun c hcm => of_decide_eq_true (hc.1.2 c hcm)⟩
  · exact ih h

theorem singleColIndex_some {col : Bytes} {implied : Bytes → Bool} (h : singleColIndex env defs col implied = some d) :
    d ∈ defs ∧ ∃ c, d.columns = [c] ∧ env.fold c = env.fold col := by
  have hmem : d ∈ defs.filter (fun d => !d.isExpr && d.columns.length = 1 && d.leads env col) := by
    unfold singleColIndex at h
    rcases or_eq_some_iff.mp h with h1 | ⟨-, h1⟩
    · exact mem_of_find?_eq_some h1
    · exact mem_of_find?_eq_some h1
  obtain ⟨hd, hc⟩ := mem_filter.mp hmem
  rw [Bool.and_eq_true, Bool.and_eq_true, decide_eq_true_eq] at hc
  obtain ⟨c, hcols⟩ := length_eq_one_iff.mp hc.1.2
  refine ⟨hd, c, hcols, ?_⟩
  have hlead := hc.2
  unfold IndexDef.leads at hlead
  simpa [hcols, Env.equalFold] using hlead

variable (h : IndexedTable env sess W s.relName sch defs rows)
include h

theorem IndexedTable.scanTuple (hd : d ∈ defs)
    {tuple : Bytes} (ht : ∀ r ∈ rows, Q r.cells = true →
      encodeIndexTuple env sch d.columns r.cells = .ok (some tuple)) :
    ∃ out, Executor.scanTuple sess W s.relName sch d tuple = .ok out ∧ Answers rows Q out := by
  obtain ⟨out, hscan, hperm⟩ := h.scan hd (some (indexPrefix sess d ++ tuple))
    (some (indexPrefix sess d ++ tuple ++ [255])) false fun _ => rfl
  exact ⟨out, hscan, _, hperm, fun r hr hq => entryWithin_tuple h.main (ht r hr hq)⟩

theorem IndexedTable.tryExprEquality :
    Executor.tryExprEquality env sess W s params sch defs = .ok none := by
  unfold Executor.tryExprEquality exprLookup
  rw [findSome?_eq_none_iff.mpr]
  intro cd hcd
  obtain ⟨cand, -, hmem⟩ := mem_flatMap.mp hcd
  obtain ⟨d, hd, rfl⟩ := List.mem_map.mp hmem
  have hexprs : d.exprs.filter (· ≠ []) = [] := by
    refine filter_eq_nil_iff.mpr fun e he hne => ?_
    have hplain := (h.plain d hd).1
    unfold IndexDef.isExpr at hplain
    exact absurd hne (List.any_eq_false.mp hplain e he)
  simp only [exprMatchesIndex, hexprs, Bool.and_false, Bool.false_eq_true, if_false]

theorem IndexedTable.tryCompositeEquality
    (heq : ∀ kt ∈ collectEqualities env s params, SoundEquality env sch rows Q kt) :
    ∃ o, Executor.tryCompositeEquality env sess W s params sch defs = .ok o ∧
      o.isSome = compositeServed env s params defs ∧ ∀ out, o = some out → Answers rows Q out := by
  unfold Executor.tryCompositeEquality compositeServed
  dsimp only
  split
  · rename_i hlen
    exact ⟨none, rfl, by simp [hlen], fun out ho => absurd ho (by simp)⟩
  · rename_i hlen
    cases hfind : findIndexForEquality env defs ((collectEqualities env s params).map Prod.fst)
        (s.whereClause.map fun w => predicateImplies env (some w)) with
    | none => exact ⟨none, rfl, by simp, fun out ho => absurd ho (by simp)⟩
    | some d =>
      dsimp only
      split
      · rename_i hcols
        exact ⟨none, rfl, by simp [hcols], fun out ho => absurd ho (by simp)⟩
      · rename_i hcols
        obtain ⟨hd, hall⟩ := findIndexForEquality_some hfind
        obtain ⟨tuple, htuple, hrows⟩ := equalityTuple_sound heq (h.lower d hd) hall
        obtain ⟨out, hout, hans⟩ := h.scanTuple hd hrows
        refine ⟨some out, ?_, ?_, fun out' ho => some.inj ho ▸ hans⟩
        · simp only [htuple, hout, bind, Except.bind]
        · simp [Nat.le_of_not_lt hlen, Nat.le_of_not_lt hcols]

theorem IndexedTable.trySingleColEquality
    (eqs : List (Bytes × Bytes)) (heq : ∀ kt ∈ eqs, SoundEquality env sch rows Q kt) :
    ∃ o, Executor.trySingleColEquality env sess W s sch defs eqs = .ok o ∧
      o.isSome = eqs.any (columnServed env s sch defs) ∧ ∀ out, o = some out → Answers rows Q out := by
  induction eqs with
  | nil => exact ⟨none, rfl, rfl, fun out ho => absurd ho (by simp)⟩
  | cons kt eqs ih =>
    obtain ⟨col, text⟩ := kt
    obtain ⟨o, ho, hserved, hans⟩ := ih fun kt hkt => heq kt (mem_cons_of_mem _ hkt)
    unfold Executor.trySingleColEquality
    rw [any_cons]
    obtain ⟨c, ci, hc, hsound⟩ := heq (col, text) mem_cons_self
    have hfold : env.fold col = env.fold c := by
      rw [← hsound.lower, ← hc]
    have hci : sch.colIndex env col = some ci := (colIndex_congr hfold).trans hsound.index
    cases hfind : singleColIndex env defs col (predicateImplies env s.whereClause) with
    | none =>
      refine ⟨o, ?_, ?_, hans⟩
      · simp only [hci]
        exact ho
      · simp [columnServed, hfind, hserved]
    | some d =>
      obtain ⟨hd, c', hcols, hfold'⟩ := singleColIndex_some hfind
      obtain ⟨w, hw, hword⟩ := hsound.word
      have htuple : ∀ r ∈ rows, Q r.cells = true → encodeIndexTuple env sch d.columns r.cells = .ok (some w) := by
        intro r hr hq
        rw [hcols, encodeIndexTuple_cons]
        exact ⟨w, [], (encodeColumn_congr (hfold'.trans hfold)).trans (hword r hr hq), rfl, (append_nil w).symm⟩
      obtain ⟨out, hout, hans'⟩ := h.scanTuple hd htuple
      refine ⟨some out, ?_, ?_, fun out' ho' => some.inj ho' ▸ hans'⟩
      · simp only [hci, hw, hout, bind, Except.bind]
      · simp [columnServed, hci, hfind]

theorem IndexedTable.tryEqualities
    {order : List (Bytes × Bytes) → List (Bytes × Bytes)} (horder : ∀ l, (order l).Perm l) (hw : s.whereClause.isSome)
    (heq : ∀ kt ∈ collectEqualities env s params, SoundEquality env sch rows Q kt) :
    ∃ o, Executor.tryEqualities env order sess W s params sch defs = .ok o ∧
      o.isSome = equalityServed env s params sch defs ∧ ∀ out, o = some out → Answers rows Q out := by
  obtain ⟨o, ho, hserved, hans⟩ := h.tryCompositeEquality heq
  obtain ⟨o', ho', hserved', hans'⟩ := h.trySingleColEquality (Q := Q) (s := s)
    (order (collectEqualities env s params)) fun kt hkt => heq kt ((horder _).mem_iff.mp hkt)
  unfold Executor.tryEqualities equalityServed
  simp only [h.tryExprEquality, ho, bind, Except.bind]
  cases o with
  | some out => exact ⟨some out, rfl, by simp [← hserved], hans⟩
  | none =>
    have hnone : s.whereClause.isNone = false := by simpa using hw
    refine ⟨o', ?_, ?_, hans'⟩
    · simp only [hnone, Bool.false_eq_true, if_false]
      exact ho'
    · rw [hserved', ← hserved, (horder _).any_eq]
      rfl

end paths

/-! ## The range path -/

/-- What the range path needs of a row that satisfies WHERE: a lookup finds the row under the text
of the constant, and an index has an entry for it that 0xFF after the upper bound does not cut off. -/
def Reaches (col : Bytes) (bounds : Option ColBounds) (ordered : Bool) (cells : Data) : Prop :=
  match sch.colIndex env col with
  | none => True
  | some ci =>
    match bounds.filter (fun b => !ordered && sch.pkIndex = some ci && b.isEquality) with
    | some b => cellAt cells ci = b.lo
    | none => ∀ d, findIndexOn env defs col (s.whereClause.map fun w => predicateImplies env (some w)) = some d →
        inIndex env sch d cells = true ∧
          ∀ hi w tuple, bounds.bind ColBounds.hi = some hi → orderEncode env (sch.oidAt ci) hi = .ok w →
            encodeIndexTuple env sch d.columns cells = .ok (some tuple) → ¬w ++ [255] <+: tuple

/-- The column that drives the range path, its bounds, and whether the order of the scan is that of
ORDER BY. -/
def driving : Option (Bytes × Option ColBounds × Bool) :=
  match s.whereClause.bind (extractColBounds env s params), orderByCol env s with
  | some b, o => some (b.col, some b, o.any fun cd => env.equalFold b.col cd.1)
  | none, some cd => some (cd.1, none, true)
  | none, none => none

def RangeReaches (cells : Data) : Prop :=
  ∀ col bounds ordered, driving env s params = some (col, bounds, ordered) →
    Reaches env s sch defs col bounds ordered cells

/-- The rows of a plan, with `R` true of those among the rows for which `Q` holds that it reaches. -/
def Plans (R : Data → Prop) (o : Option IndexScan) : Prop :=
  match o with
  | none => ∀ cells, R cells
  | some scan => ∃ reached, scan.rows.Perm ((rows.filter reached).map ScanRow.cells) ∧
      ∀ r ∈ rows, Q r.cells = true → (reached r = true ↔ R r.cells)

section range
variable {env s params sch defs rows Q} {sess : Session} {W S : State} {d : IndexDef}

theorem boundKey_some {p w sentinel : Bytes} {oid : Nat} {text : Bytes} (hw : orderEncode env oid text = .ok w) :
    boundKey env p oid sentinel (some text) = .ok (some (p ++ w ++ sentinel)) := by
  simp only [boundKey, hw, bind, Except.bind]

theorem boundKey_ok (p sentinel : Bytes) {oid : Nat} {o : Option Bytes}
    (h : ∀ text, o = some text → ∃ w, orderEncode env oid text = .ok w) : ∃ k, boundKey env p oid sentinel o = .ok k := by
  cases o with
  | none => exact ⟨none, rfl⟩
  | some text =>
    obtain ⟨w, hw⟩ := h text rfl
    exact ⟨_, boundKey_some hw⟩

variable {col : Bytes} {bounds : Option ColBounds} {e : Expr}

variable (h : IndexedTable env sess W s.relName sch defs rows)
include h

theorem entryWithin_range (hd : d ∈ defs)
    {ci : Nat} (hlead : d.leads env col = true) (hci : sch.colIndex env col = some ci)
    (hb : ∀ b, bounds = some b → SoundBounds env sch rows Q b ci) {lo hi : Option Bytes}
    (hlo : boundKey env (indexPrefix sess d) (sch.oidAt ci) [] (bounds.bind ColBounds.lo) = .ok lo)
    (hhi : boundKey env (indexPrefix sess d) (sch.oidAt ci) [255] (bounds.bind ColBounds.hi) = .ok hi)
    {r : ScanRow} (hr : r ∈ rows) (hq : Q r.cells = true) :
    entryWithin env sess.ns sch d lo hi r = true ↔ inIndex env sch d r.cells = true ∧
      ∀ text w tuple, bounds.bind ColBounds.hi = some text → orderEncode env (sch.oidAt ci) text = .ok w →
        encodeIndexTuple env sch d.columns r.cells = .ok (some tuple) → ¬w ++ [255] <+: tuple := by
  rw [← (h.exact d hd).entryOf_isSome ((mem_rowsIn h.scanned).mp hr)]
  unfold entryWithin
  cases he : entryOf env sess.ns sch d r with
  | none => simp
  | some e =>
    obtain ⟨tuple, htuple, rfl⟩ := entryOf_eq_some.mp he
    obtain ⟨t, u, rest, ht, hu, rfl⟩ := tuple_leads hlead hci htuple
    have hpre : indexPrefix sess d = indexColumnPrefix sess.ns mainBranch d.table d.name := by
      rw [indexPrefix, h.main]
    rw [any_some, Bool.and_eq_true, indexKey_eq]
    simp only [isSome_some, true_and]
    have hbelow : notBelow lo (indexColumnPrefix sess.ns mainBranch d.table d.name ++ (u ++ rest ++
        slash :: (putUint32 (primaryKeyBytes sch r.cells r.key).length ++ primaryKeyBytes sch r.cells r.key))) =
          true := by
      cases hbl : bounds.bind ColBounds.lo with
      | none =>
        rw [hbl] at hlo
        cases hlo
        rfl
      | some text =>
        obtain ⟨b, hbs, hblo⟩ := bind_eq_some_iff.mp hbl
        obtain ⟨w, hw, hall⟩ := (hb b hbs).lo text hblo
        obtain ⟨t', u', ht', hu', hle⟩ := hall r hr hq
        cases ht.symm.trans ht'
        cases hu.symm.trans hu'
        rw [hbl, boundKey_some hw, append_nil, hpre] at hlo
        cases hlo
        rw [append_assoc u]
        rcases hle with rfl | hlt
        · refine notBelow_of_prefix ?_
          rw [prefix_append_right_inj]
          exact prefix_append _ _
        · have hlt' := hlt.append [] (rest ++ slash :: (putUint32 (primaryKeyBytes sch r.cells r.key).length ++
            primaryKeyBytes sch r.cells r.key))
          rw [append_nil] at hlt'
          exact notBelow_of_before hlt'
    rw [and_iff_right hbelow]
    cases hbh : bounds.bind ColBounds.hi with
    | none =>
      rw [hbh] at hhi
      cases hhi
      simp [notAbove]
    | some text =>
      obtain ⟨b, hbs, hbhi⟩ := bind_eq_some_iff.mp hbh
      obtain ⟨w, hw, hall⟩ := (hb b hbs).hi text hbhi
      obtain ⟨t', u', ht', hu', hle⟩ := hall r hr hq
      cases ht.symm.trans ht'
      cases hu.symm.trans hu'
      rw [hbh, boundKey_some hw, hpre] at hhi
      cases hhi
      rw [notAbove_sentinel hle]
      constructor
      · intro hno text' w' tuple' htext' hw' htuple'
        cases htext'
        cases hw.symm.trans hw'
        cases Except.ok.inj (htuple.symm.trans htuple')
        exact hno
      · intro hall'
        exact hall' text w (u ++ rest) rfl hw htuple

theorem IndexedTable.driveScan
    (hwhere : s.whereClause = some e) {ordered : Bool} (desc : Bool)
    (hb : ∀ b, bounds = some b → b.col = col ∧ ∃ ci, SoundBounds env sch rows Q b ci)
    (hsees : ∀ d ∈ defs, ScanSees W (indexPrefix sess d) S desc) :
    ∃ o, Executor.driveScan env sess W S s sch defs col bounds ordered desc = .ok o ∧
      Plans rows Q (Reaches env s sch defs col bounds ordered) o := by
  unfold Executor.driveScan Reaches
  cases hci : sch.colIndex env col with
  | none => exact ⟨none, rfl, fun _ => trivial⟩
  | some ci =>
    have hsound : ∀ b, bounds = some b → SoundBounds env sch rows Q b ci := by
      intro b hbs
      obtain ⟨hcol, cj, hsb⟩ := hb b hbs
      obtain rfl : cj = ci := some.inj (hsb.index.symm.trans (hcol ▸ hci))
      exact hsb
    dsimp only
    cases hpoint : bounds.filter (fun b => !ordered && sch.pkIndex = some ci && b.isEquality) with
    | some b =>
      obtain ⟨-, hp⟩ := filter_eq_some_iff.mp hpoint
      rw [Bool.and_eq_true, Bool.and_eq_true, decide_eq_true_eq] at hp
      obtain ⟨text, htext⟩ : ∃ text, b.lo = some text := by
        have heq := hp.2
        unfold ColBounds.isEquality at heq
        rw [Bool.and_eq_true] at heq
        exact isSome_iff_exists.mp heq.1
      obtain ⟨out, hout, hperm⟩ := h.keyed.pointGet h.main h.scanned hp.1.2 text
      refine ⟨some ⟨out, true⟩, ?_, _, hperm, fun r _ _ => ?_⟩
      · simp only [htext, getD_some, hout, bind, Except.bind]
      · dsimp only
        rw [htext, decide_eq_true_eq]
    | none =>
      dsimp only
      cases hfind : findIndexOn env defs col (s.whereClause.map fun w => predicateImplies env (some w)) with
      | none => exact ⟨none, rfl, fun cells d hd => absurd hd (by simp)⟩
      | some d =>
        obtain ⟨hd, hlead⟩ := findIndexOn_some hfind
        obtain ⟨lo, hlo⟩ := boundKey_ok (indexPrefix sess d) [] fun text htext => by
          obtain ⟨b, hbs, hbt⟩ := bind_eq_some_iff.mp htext
          exact ((hsound b hbs).lo text hbt).imp fun _ hw => hw.1
        obtain ⟨hi, hhi⟩ := boundKey_ok (indexPrefix sess d) [255] fun text htext => by
          obtain ⟨b, hbs, hbt⟩ := bind_eq_some_iff.mp htext
          exact ((hsound b hbs).hi text hbt).imp fun _ hw => hw.1
        obtain ⟨out, hout, hperm⟩ := h.scan hd lo hi desc (hsees d hd)
        refine ⟨some ⟨out, ordered⟩, ?_, _, hperm, fun r hr hq => ?_⟩
        · have hlimit : ¬(ordered = true ∧ s.whereClause.isNone = true ∧ ¬s.distinct = true) := by
            simp [hwhere]
          simp only [hlo, hhi, bind, Except.bind, if_neg hlimit, hout]
        · rw [entryWithin_range h hd hlead hci hsound hlo hhi hr hq]
          constructor
          · intro hin d' hd'
            cases hd'
            exact hin
          · intro hall
            exact hall d rfl

theorem IndexedTable.planRange (hwhere : s.whereClause = some e)
    (hb : ∀ b, extractColBounds env s params e = some b → ∃ ci, SoundBounds env sch rows Q b ci)
    (hsees : ∀ d ∈ defs, ScanSees W (indexPrefix sess d) S ((orderByCol env s).any Prod.snd)) :
    ∃ o, Executor.planRange env sess W S s params sch defs = .ok o ∧
      Plans rows Q (RangeReaches env s params sch defs) o := by
  have hdrive : ∀ col bounds ordered desc, driving env s params = some (col, bounds, ordered) →
      Executor.planRange env sess W S s params sch defs =
        Executor.driveScan env sess W S s sch defs col bounds ordered desc →
      (∀ b, bounds = some b → b.col = col ∧ ∃ ci, SoundBounds env sch rows Q b ci) →
      (desc = true → (orderByCol env s).any Prod.snd = true) →
      ∃ o, Executor.planRange env sess W S s params sch defs = .ok o ∧
        Plans rows Q (RangeReaches env s params sch defs) o := by
    intro col bounds ordered desc hdriving heq hbounds hdesc
    obtain ⟨o, ho, hplans⟩ := h.driveScan hwhere desc hbounds fun d hd h => hsees d hd (hdesc h)
    refine ⟨o, heq.trans ho, ?_⟩
    have hiff : ∀ cells, RangeReaches env s params sch defs cells ↔
        Reaches env s sch defs col bounds ordered cells := by
      intro cells
      constructor
      · intro hr
        exact hr col bounds ordered hdriving
      · intro hr col' bounds' ordered' hd'
        obtain ⟨rfl, rfl, rfl⟩ : col = col' ∧ bounds = bounds' ∧ ordered = ordered' := by
          simpa using some.inj (hdriving.symm.trans hd')
        exact hr
    simpa only [Plans, hiff] using hplans
  have hbind : s.whereClause.bind (extractColBounds env s params) = extractColBounds env s params e := by
    rw [hwhere]
    rfl
  cases hext : extractColBounds env s params e with
  | some b =>
    have hbounds : ∀ b', some b = some b' → b'.col = b.col ∧ ∃ ci, SoundBounds env sch rows Q b' ci := by
      intro b' hb'
      cases hb'
      exact ⟨rfl, hb b hext⟩
    cases hord : orderByCol env s with
    | none =>
      refine hdrive b.col (some b) false false ?_ ?_ hbounds fun h => absurd h Bool.false_ne_true
      · simp only [driving, hbind, hext, hord, any_none]
      · simp only [Executor.planRange, hbind, hext, hord]
    | some cd =>
      refine hdrive b.col (some b) (env.equalFold b.col cd.1) cd.2 ?_ ?_ hbounds fun h => by rw [hord, any_some, h]
      · simp only [driving, hbind, hext, hord, any_some]
      · simp only [Executor.planRange, hbind, hext, hord]
  | none =>
    cases hord : orderByCol env s with
    | none =>
      refine ⟨none, ?_, fun cells col bounds ordered hd => ?_⟩
      · simp only [Executor.planRange, hbind, hext, hord]
      · simp [driving, hbind, hext, hord] at hd
    | some cd =>
      refine hdrive cd.1 none true cd.2 ?_ ?_ (fun b hb' => absurd hb' (by simp)) fun h => by rw [hord, any_some, h]
      · simp only [driving, hbind, hext, hord]
      · simp only [Executor.planRange, hbind, hext, hord]

end range

/-! ## The access path -/

/-- The rows the planner answers, filtered by WHERE, are those of the full scan filtered by WHERE. -/
def Transparent (order : List (Bytes × Bytes) → List (Bytes × Bytes)) (sess : Session) (W S : State)
    (s : SelectStmt) (params : Data) (sch : TableSchema) (rows : List ScanRow) (site site' : Site) : Prop :=
  ∃ scan out all, fromRows env order sess W S s params (rows.map ScanRow.cells) = .ok scan ∧
    filterRows (whereKeeps env sess sch s.relAlias params s.whereClause) scan.rows site = .ok out ∧
    filterRows (whereKeeps env sess sch s.relAlias params s.whereClause) (rows.map ScanRow.cells) site' = .ok all ∧
    out.Perm all

/-- The answer of the first path that has one, else all rows. -/
def firstPath (equal : Option (List Data)) (range : Option IndexScan) (all : List Data) : IndexScan :=
  match equal, range with
  | some out, _ => ⟨out, false⟩
  | none, some scan => scan
  | none, none => ⟨all, false⟩

section access
variable {env s params sch defs rows} {order : List (Bytes × Bytes) → List (Bytes × Bytes)} {sess : Session}
  {W S : State} {w : Expr} {site site' : Site}

theorem transparent_iff_filter (hwhere : s.whereClause = some w) (hw : Conjunction env s sch params rows w)
    {scan : IndexScan} (hscan : fromRows env order sess W S s params (rows.map ScanRow.cells) = .ok scan) :
    Transparent env order sess W S s params sch rows site site' ↔
      (scan.rows.filter (rowSatisfies env sess s sch params w)).Perm
        ((rows.map ScanRow.cells).filter (rowSatisfies env sess s sch params w)) := by
  unfold Transparent
  simp only [hwhere, filterRows_of_eval (hw.eval sess)]
  constructor
  · rintro ⟨scan', out, all, hscan', hout, hall, hperm⟩
    cases hscan.symm.trans hscan'
    cases hout
    cases hall
    exact hperm
  · intro hperm
    exact ⟨scan, _, _, hscan, rfl, rfl, hperm⟩

theorem IndexedTable.fromRows (h : IndexedTable env sess W s.relName sch defs rows)
    {o : Option (List Data)} {p : Option IndexScan} (all : List Data)
    (ho : Executor.tryEqualities env order sess W s params sch defs = .ok o)
    (hp : Executor.planRange env sess W S s params sch defs = .ok p) :
    Executor.fromRows env order sess W S s params all =
      .ok (firstPath (if s.sortClause.isEmpty then o else none) p all) := by
  unfold Executor.fromRows planIndexScan
  rw [if_neg (by simp [h.main, h.ne_otel]), h.schema, h.indexes]
  dsimp only
  rw [ho, hp]
  cases s.sortClause.isEmpty with
  | true =>
    cases o with
    | none => cases p <;> rfl
    | some out => rfl
  | false => cases p <;> rfl

end access

/-- A table u(id PRIMARY KEY, a, b). -/
def createPair : Call := createKeyed "u" "text" [.plain "a" "text", .plain "b" "text"]

def insertPair (id a : String) (b : Const) : Call := insertValues "main" "u" [.string (str id), .string (str a), b]

/-- CREATE INDEX u_ab ON u (a, b). -/
def indexPair : Call :=
  ⟨demoSession "main", .createIndex ⟨str "u_ab", str "u", [.col (str "a"), .col (str "b")], none, false⟩, []⟩

def pairSchema : TableSchema := keyedSchema "u" OIDText [.plain "a" OIDText, .plain "b" OIDText]

def pairIndex : IndexDef := ⟨str "u_ab", str "u", [str "a", str "b"], false, [], []⟩

def pairWhere : Expr := .binary (str ">=") (.column [str "a"]) (.const (.string (str "x")))

def selectPair : SelectStmt := ⟨str "u", [], some pairWhere, [], none, false⟩

def pairRows (db : Db) : List ScanRow := ((rowsIn (str "n") db.map (str "u") 3).toOption).getD []

theorem demoEnv_laws : EnvLaws demoEnv where
  compareFloat_int := by
    intro a b i j ha hb _ _
    simp only [demoEnv, asciiEnv, ha, hb, getD_some]
  trimSpace_int := fun _ => rfl
  truthy := by decide
  falsy := by decide

theorem conjunction_pair : Conjunction demoEnv selectPair pairSchema [] rows pairWhere := by
  have hoperands : Operands demoEnv selectPair pairSchema [] rows [str "a"] (str "a") 1
      (.const (.string (str "x"))) := by
    refine ⟨⟨by decide, fun _ => rfl, .inl rfl⟩, ?_, by decide, .text (str "x"), ?_⟩
    · exact (by decide : List.map lowerByte (List.map lowerByte (str "a")) = List.map lowerByte (str "a"))
    · intro r _ t _
      exact ⟨fun h => absurd h (by decide), fun h => absurd h (by decide)⟩
  exact .colConst (by decide) hoperands

end BasuyuDb.Executor
