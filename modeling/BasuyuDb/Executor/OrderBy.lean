import BasuyuDb.Executor.IndexRows
import BasuyuDb.Executor.Select

/-
  ORDER BY over one column, on a table of main whose rows are stored under their primary keys. The
  rows come from an index that the column leads, in the order of its entries, or from a full scan
  that is sorted. The index has no entry for a row with a NULL in any of its columns, so such rows
  are missing from the first.
-/

namespace BasuyuDb.Executor
open KvLib Storage List

variable (env : Env)

/-! ## Sort keys -/

/-- A sort key in its order: NULL is above every value. -/
def topKey : Option Bytes → WithTop Bytes
  | none => ⊤
  | some b => b

variable {a b : Bytes} {x y : Option Bytes}

theorem compareBytes_lt : compareBytes a b = .lt ↔ a < b := by
  unfold compareBytes
  split
  · simp [*]
  · split
    · simp [*]
    · simp [*]

theorem compareBytes_gt : compareBytes a b = .gt ↔ b < a := by
  unfold compareBytes
  rcases lt_trichotomy a b with h | rfl | h
  · simp [h, h.le]
  · simp
  · simp [h, h.ne', h.le]

theorem compareBytes_eq : compareBytes a b = .eq ↔ a = b := by
  unfold compareBytes
  rcases lt_trichotomy a b with h | rfl | h
  · simp [h, h.ne]
  · simp
  · simp [h.asymm, h.ne']

theorem compareSortKey_iff : (compareSortKey x y = .lt ↔ topKey x < topKey y) ∧ (compareSortKey x y = .gt ↔ topKey y < topKey x) := by
  cases x with
  | none =>
    cases y with
    | none | some b => simp [compareSortKey, topKey]
  | some a =>
    cases y with
    | none => simp [compareSortKey, topKey]
    | some b => simp [compareSortKey, topKey, compareBytes_lt, compareBytes_gt]

/-- In the order of one sort key, or against it. -/
def Follows (desc : Bool) (x y : WithTop Bytes) : Prop := if desc then y ≤ x else x ≤ y

theorem Follows.trans {desc : Bool} {x y z : WithTop Bytes} (hxy : Follows desc x y) (hyz : Follows desc y z) :
    Follows desc x z := by
  cases desc with
  | true => exact le_trans (b := y) hyz hxy
  | false => exact le_trans (b := y) hxy hyz

theorem Follows.total (desc : Bool) (x y : WithTop Bytes) : Follows desc x y ∨ Follows desc y x := by
  cases desc with
  | true => exact le_total y x
  | false => exact le_total x y

theorem sortLess_single {sb : SortBy} {as bs : List (Option Bytes)} :
    sortLess [sb] bs as = false ↔ Follows sb.desc (topKey (as.headD none)) (topKey (bs.headD none)) := by
  unfold sortLess Follows
  generalize as.headD none = x
  generalize bs.headD none = y
  rcases lt_trichotomy (topKey y) (topKey x) with h | h | h
  · rw [compareSortKey_iff.1.mpr h]
    cases sb.desc with
    | true => simp [h.le]
    | false => simp [h]
  · have heq : compareSortKey y x = .eq := by
      cases hc : compareSortKey y x with
      | lt => exact absurd (compareSortKey_iff.1.mp hc) (by simp [h])
      | eq => rfl
      | gt => exact absurd (compareSortKey_iff.2.mp hc) (by simp [h])
    rw [heq, h]
    simp [sortLess]
  · rw [compareSortKey_iff.2.mpr h]
    cases sb.desc with
    | true => simp [h]
    | false => simp [h.le]

/-! ## The sort -/

/-- The sort key of a column of a row. -/
def columnKey (sch : TableSchema) (ci : Nat) (cells : Data) : Option Bytes :=
  (cellAt cells ci).bind fun t => (orderEncode env (sch.oidAt ci) t).toOption

/-- ORDER BY one column: the expression evaluates to that column of the row. -/
def OrdersBy (sch : TableSchema) (aliasName : Bytes) (params : Data) (sb : SortBy) (ci : Nat) : Prop :=
  ∀ cells site, sb.node.eval env ⟨params, combinedResolver env [⟨aliasName, sch, cells⟩], none⟩ site =
    .ok ⟨cellAt cells ci, sch.oidAt ci⟩

section sort
variable {env} {sch : TableSchema} {aliasName : Bytes} {params : Data} {sb : SortBy} {ci : Nat}

theorem sortKeys_single (hsb : OrdersBy env sch aliasName params sb ci) {cells : Data}
    (hok : ∀ t, cellAt cells ci = some t → (orderEncode env (sch.oidAt ci) t).isOk = true) (site : Site) :
    sortKeys env sch aliasName params cells [sb] site = .ok [columnKey env sch ci cells] := by
  unfold sortKeys sortKey columnKey
  rw [hsb]
  cases hcell : cellAt cells ci with
  | none => simp [sortKeys, bind, Except.bind]
  | some t =>
    cases henc : orderEncode env (sch.oidAt ci) t with
    | error e => simpa [henc, Except.isOk, Except.toBool] using hok t hcell
    | ok u => simp [henc, sortKeys, bind, Except.bind, Except.toOption]

theorem withKeys_single (hsb : OrdersBy env sch aliasName params sb ci) (rows : List Data)
    (hok : ∀ cells ∈ rows, ∀ t, cellAt cells ci = some t → (orderEncode env (sch.oidAt ci) t).isOk = true)
    (site : Site) : withKeys env sch aliasName params [sb] rows site =
      .ok (rows.map fun cells => ([columnKey env sch ci cells], cells)) := by
  induction rows generalizing site with
  | nil => rfl
  | cons cells rows ih =>
    unfold withKeys
    rw [sortKeys_single hsb (hok cells mem_cons_self), ih fun cells' h => hok cells' (mem_cons_of_mem _ h)]
    rfl

theorem sortRows_single (params : Data) (hsb : OrdersBy env sch aliasName params sb ci) (rows : List Data)
    (hok : ∀ cells ∈ rows, ∀ t, cellAt cells ci = some t → (orderEncode env (sch.oidAt ci) t).isOk = true)
    (site : Site) : ∃ out, sortRows env sch aliasName params [sb] rows site = .ok out ∧ out.Perm rows ∧
      out.Pairwise (fun a b => Follows sb.desc (topKey (columnKey env sch ci a)) (topKey (columnKey env sch ci b))) := by
  let items := rows.map fun cells => ([columnKey env sch ci cells], cells)
  let le : List (Option Bytes) × Data → List (Option Bytes) × Data → Bool :=
    fun a b => !sortLess [sb] b.1 a.1
  have hle : ∀ a b, le a b = true ↔ Follows sb.desc (topKey (a.1.headD none)) (topKey (b.1.headD none)) := by
    intro a b
    simp only [le, Bool.not_eq_true']
    exact sortLess_single
  refine ⟨(items.mergeSort le).map Prod.snd, ?_, ?_, ?_⟩
  · unfold sortRows
    rw [withKeys_single hsb rows hok]
    rfl
  · have hperm : (items.mergeSort le).Perm items := mergeSort_perm items le
    have hsnd : items.map Prod.snd = rows := by
      simp [items, Function.comp_def]
    exact hsnd ▸ hperm.map Prod.snd
  · have hsorted : (items.mergeSort le).Pairwise (fun a b => le a b = true) := by
      refine pairwise_mergeSort ?_ ?_ items
      · intro a b c hab hbc
        exact (hle a c).mpr (((hle a b).mp hab).trans ((hle b c).mp hbc))
      · intro a b
        rw [Bool.or_eq_true, hle, hle]
        exact Follows.total ..
    refine pairwise_map.mpr (hsorted.imp_of_mem ?_)
    intro a b ha hb hab
    have hkey : ∀ x ∈ items.mergeSort le, x.1 = [columnKey env sch ci x.2] := by
      intro x hx
      obtain ⟨cells, -, rfl⟩ := mem_map.mp ((mergeSort_perm items le).mem_iff.mp hx)
      rfl
    have h := (hle a b).mp hab
    rw [hkey a ha, hkey b hb] at h
    exact h

end sort

/-! ## The index

Rows stored under their primary keys: an entry leads back to the row it is of. -/

/-- Every row is stored under the key of its primary key. -/
def KeyedRows (ns : Bytes) (table : Bytes) (sch : TableSchema) (rows : List ScanRow) : Prop :=
  ∃ pk, sch.pkIndex = some pk ∧ ∀ r ∈ rows, ∃ t, cellAt r.cells pk = some t ∧ r.key = rowKey ns mainBranch table t

theorem colIndex_congr {env : Env} {sch : TableSchema} (h : env.fold a = env.fold b) :
    sch.colIndex env a = sch.colIndex env b := by
  unfold TableSchema.colIndex Env.equalFold
  rw [h]

section index
variable {env} {ns : Bytes} {W : State} {table : Bytes} {sch : TableSchema} {d : IndexDef}
  {rows : List ScanRow} {r : ScanRow} {e : Bytes × Val} {col : Bytes} {ci : Nat}

theorem KeyedRows.key (h : KeyedRows ns table sch rows) (hr : r ∈ rows) :
    r.key = rowKey ns mainBranch table (primaryKeyBytes sch r.cells r.key) := by
  obtain ⟨pk, hpk, hkeyed⟩ := h
  obtain ⟨t, ht, hkey⟩ := hkeyed r hr
  simp only [primaryKeyBytes, hpk, ht, Option.getD_some]
  exact hkey

theorem tuple_leads (hlead : d.leads env col = true)
    (hci : sch.colIndex env col = some ci) {cells : Data} {tuple : Bytes}
    (htuple : encodeIndexTuple env sch d.columns cells = .ok (some tuple)) :
    ∃ t u rest, cellAt cells ci = some t ∧ orderEncode env (sch.oidAt ci) t = .ok u ∧ tuple = u ++ rest := by
  unfold IndexDef.leads at hlead
  cases hcols : d.columns with
  | nil => simp [hcols] at hlead
  | cons c cols =>
    rw [hcols] at hlead htuple
    obtain ⟨u, rest, hcol, -, rfl⟩ := encodeIndexTuple_cons.mp htuple
    obtain ⟨ci', t, hci', ht, hu⟩ := encodeColumn_eq_some.mp hcol
    have hfold : env.fold c = env.fold col := by simpa [Env.equalFold] using hlead
    obtain rfl : ci' = ci := Option.some.inj (hci'.symm.trans ((colIndex_congr hfold).trans hci))
    exact ⟨t, u, rest, ht, hu, rfl⟩

theorem entryOf_leads (hlead : d.leads env col = true) (hci : sch.colIndex env col = some ci)
    (he : entryOf env ns sch d r = some e) :
    ∃ t u rest, cellAt r.cells ci = some t ∧ orderEncode env (sch.oidAt ci) t = .ok u ∧
      e.1 = indexColumnPrefix ns mainBranch d.table d.name ++ (u ++ rest) := by
  obtain ⟨tuple, htuple, rfl⟩ := entryOf_eq_some.mp he
  obtain ⟨t, u, rest, ht, hu, rfl⟩ := tuple_leads hlead hci htuple
  refine ⟨t, u, rest ++ slash :: (putUint32 (primaryKeyBytes sch r.cells r.key).length ++
    primaryKeyBytes sch r.cells r.key), ht, hu, ?_⟩
  rw [indexKey_eq, append_assoc]

theorem columnKey_le_of_entries (hlead : d.leads env col = true)
    (hci : sch.colIndex env col = some ci) {r' : ScanRow} {e' : Bytes × Val}
    (he : entryOf env ns sch d r = some e) (he' : entryOf env ns sch d r' = some e') (hlt : e.1 < e'.1) :
    topKey (columnKey env sch ci r.cells) ≤ topKey (columnKey env sch ci r'.cells) := by
  obtain ⟨t, u, rest, ht, hu, hk⟩ := entryOf_leads hlead hci he
  obtain ⟨t', u', rest', ht', hu', hk'⟩ := entryOf_leads hlead hci he'
  have hle : u ≤ u' := by
    rcases orderEncode_comparable hu hu' with h | rfl | h
    · exact h.lt.le
    · exact le_refl _
    · have hgt := (h.append rest' rest).prepend (indexColumnPrefix ns mainBranch d.table d.name)
      rw [← hk, ← hk'] at hgt
      exact absurd hlt (not_lt.mpr hgt.lt.le)
  simp only [columnKey, ht, ht', Option.bind_some, hu, hu', Except.toOption, topKey]
  exact WithTop.coe_le_coe.mpr hle

theorem KeyedRows.ne_otel (h : KeyedRows ns table sch rows) (hsch : resolvedIn ns W table = some sch) :
    table ≠ otelSpansTable := by
  intro heq
  obtain ⟨pk, hpk, -⟩ := h
  rw [resolvedIn, if_pos heq] at hsch
  cases hsch
  cases hpk

variable (h : KeyedRows ns table sch rows) (hrows : rowsIn ns W table sch.cols.length = .ok rows)
include h hrows

theorem KeyedRows.primaryKey_inj : OwnKeys sch rows := by
  intro r hr r' hr' heq
  have hkey : r.key = r'.key := by
    rw [h.key hr, h.key hr', heq]
  exact inj_on_of_nodup_map (rowsIn_nodup hrows) hr hr' hkey

theorem KeyedRows.entries_perm (hx : IndexExact env ns W table sch d) :
    (W.scan (underPrefix (indexColumnPrefix ns mainBranch d.table d.name))).Perm
      (rows.filterMap (entryOf env ns sch d)) :=
  hx.entries_perm hrows (h.primaryKey_inj hrows)

theorem KeyedRows.fetchedAt (hr : r ∈ rows) {tuple : Option Bytes} (he : entryAt ns sch d tuple r = some e) :
    Executor.fetched W ns table sch.cols.length e = some r.cells := by
  obtain ⟨-, cells, hlook, hcells⟩ := (mem_rowsIn hrows).mp hr
  unfold Executor.fetched
  rw [entryPk_entryAt he, ← h.key hr, hlook]
  exact congrArg some hcells.symm

theorem KeyedRows.fetched (hr : r ∈ rows) (he : entryOf env ns sch d r = some e) :
    fetched W ns table sch.cols.length e = some r.cells :=
  h.fetchedAt hrows hr ((entryOf_eq_entryAt env r).symm.trans he)

theorem KeyedRows.scan_perm (hx : IndexExact env ns W table sch d) :
    ((W.scan (underPrefix (indexColumnPrefix ns mainBranch d.table d.name))).filterMap
      (Executor.fetched W ns table sch.cols.length)).Perm
        ((rows.filter fun r => inIndex env sch d r.cells).map ScanRow.cells) := by
  have hperm := (h.entries_perm hrows hx).filterMap (Executor.fetched W ns table sch.cols.length)
  rw [filterMap_filterMap] at hperm
  have hcells : rows.filterMap (fun r => (entryOf env ns sch d r).bind
        (Executor.fetched W ns table sch.cols.length)) =
      (rows.filter fun r => inIndex env sch d r.cells).map ScanRow.cells := by
    rw [← filterMap_eq_map, filterMap_filter]
    refine filterMap_congr fun r hr => ?_
    rw [← hx.entryOf_isSome ((mem_rowsIn hrows).mp hr)]
    cases he : entryOf env ns sch d r with
    | none => rfl
    | some e => simpa using h.fetched hrows hr he
  rwa [hcells] at hperm

theorem KeyedRows.scan_sorted (hx : IndexExact env ns W table sch d) (hlead : d.leads env col = true) (hci : sch.colIndex env col = some ci) :
    ((W.scan (underPrefix (indexColumnPrefix ns mainBranch d.table d.name))).filterMap
      (Executor.fetched W ns table sch.cols.length)).Pairwise
        (fun a b => topKey (columnKey env sch ci a) ≤ topKey (columnKey env sch ci b)) := by
  refine pairwise_filterMap.mpr ((OrdMap.scan_asc W _).imp_of_mem ?_)
  intro e e' hmem hmem' hlt a ha a' ha'
  obtain ⟨r, hr, he⟩ := mem_filterMap.mp ((h.entries_perm hrows hx).mem_iff.mp hmem)
  obtain ⟨r', hr', he'⟩ := mem_filterMap.mp ((h.entries_perm hrows hx).mem_iff.mp hmem')
  obtain rfl : r.cells = a := Option.some.inj ((h.fetched hrows hr he).symm.trans ha)
  obtain rfl : r'.cells = a' := Option.some.inj ((h.fetched hrows hr' he').symm.trans ha')
  exact columnKey_le_of_entries hlead hci he he' hlt

end index

/-! ## The statement -/

/-- A reference to the column `c` of the table, bare or under the table's alias; a bare name must
not be a keyword. -/
def RefersTo (s : SelectStmt) (fields : List Bytes) (c : Bytes) : Prop :=
  c ≠ str "*" ∧ (∀ site, niladicKeyword env site c = none) ∧
    (fields = [c] ∨ ∃ q, fields = [q, c] ∧ env.equalFold s.relAlias q = true)

section statement
variable {env} {sess : Session} {W S : State} {s : SelectStmt} {params : Data} {sch : TableSchema}
  {fields : List Bytes} {c : Bytes} {ci : Nat}

theorem RefersTo.asColRef (h : RefersTo env s fields c) :
    ∃ q, asColRef (.column fields) = some (q, c) ∧ s.matchesRel env q = true := by
  obtain ⟨hstar, -, rfl | ⟨q, rfl, hq⟩⟩ := h
  · exact ⟨[], by simp [Executor.asColRef, hstar], rfl⟩
  · have hfold : env.fold s.relAlias = env.fold q := by simpa [Env.equalFold] using hq
    refine ⟨q, by simp [Executor.asColRef, hstar], ?_⟩
    simp [SelectStmt.matchesRel, Env.equalFold, hfold]

theorem RefersTo.resolve (h : RefersTo env s fields c) (hci : sch.colIndex env c = some ci) (cells : Data) :
    combinedResolver env [⟨s.relAlias, sch, cells⟩] fields = .ok ⟨cellAt cells ci, sch.oidAt ci⟩ := by
  obtain ⟨-, -, rfl | ⟨q, rfl, hq⟩⟩ := h
  · simp [combinedResolver, hci, Binding.cellValue]
  · simp [combinedResolver, hci, hq, Binding.cellValue]

theorem RefersTo.ordersBy (h : RefersTo env s fields c) (hci : sch.colIndex env c = some ci) (desc : Bool) :
    OrdersBy env sch s.relAlias params ⟨.column fields, desc⟩ ci := by
  intro cells site
  have hkey : keyword env none site fields = none := by
    obtain ⟨-, hnil, rfl | ⟨q, rfl, -⟩⟩ := h
    · exact hnil site
    · rfl
  simp only [Expr.eval, evalColumn, hkey, h.resolve hci]

theorem filterRows_whereKeeps_none (rows : List Data) (site : Site) :
    filterRows (whereKeeps env sess sch s.relAlias params none) rows site = .ok rows := by
  induction rows generalizing site with
  | nil => rfl
  | cons cells rows ih =>
    unfold filterRows
    rw [ih]
    rfl

theorem findIndexOn_some {defs : List IndexDef} {usePartial : Option (Bytes → Bool)} {d : IndexDef}
    (h : findIndexOn env defs c usePartial = some d) : d ∈ defs ∧ d.leads env c = true := by
  unfold findIndexOn at h
  rcases Option.or_eq_some_iff.mp h with h1 | ⟨-, h1⟩
  · have hboth := find?_some h1
    exact ⟨mem_of_mem_filter (mem_of_find?_eq_some h1), ((Bool.and_eq_true _ _).mp hboth).2⟩
  · have hlead := find?_some h1
    exact ⟨mem_of_mem_filter (mem_of_find?_eq_some h1), hlead⟩

theorem planIndexScan_orderBy (order : List (Bytes × Bytes) → List (Bytes × Bytes)) (params : Data)
    {defs : List IndexDef} {desc : Bool} (hmain : sess.branch = mainBranch) (hotel : s.relName ≠ otelSpansTable)
    (hsch : resolvedIn sess.ns W s.relName = some sch) (hdefs : indexesIn sess.ns W s.relName = some defs)
    (hwhere : s.whereClause = none) (hlimit : s.limitCount = none)
    (hsort : s.sortClause = [⟨.column fields, desc⟩]) (href : RefersTo env s fields c)
    (hci : sch.colIndex env c = some ci) : planIndexScan env order sess W S s params =
      match findIndexOn env defs c none with
      | none => .ok none
      | some d => (scanIndexRange sess W S s.relName sch (indexPrefix sess d) none none desc (-1)).map
          (fun rows => some ⟨rows, true⟩) := by
  obtain ⟨q, hcol, hq⟩ := href.asColRef
  have hby : orderByCol env s = some (c, desc) := by
    simp only [orderByCol, hsort, hcol, hq, if_true]
  unfold planIndexScan
  rw [if_neg (by simp [hmain, hotel]), hsch, hdefs, hsort]
  simp only [isEmpty_cons, Bool.false_eq_true, if_false, bind, Except.bind, planRange, hwhere, hby,
    Option.bind_none, driveScan, hci, Option.filter_none, Option.map_none, boundKey, hlimit,
    Option.getD_none, ite_self]
  cases findIndexOn env defs c none with
  | none => rfl
  | some d =>
    dsimp only
    cases scanIndexRange sess W S s.relName sch (indexPrefix sess d) none none desc (-1) with
    | error e | ok rows => rfl

end statement

/-- ORDER BY one column without WHERE and LIMIT answers all rows of the table in the order of the
column, with NULLs last (first when descending), exactly when the index it reads, if any, has an
entry for every row; a descending scan in a transaction that has buffered no entry of that index. -/
theorem order_by_complete_iff (env : Env) (order : List (Bytes × Bytes) → List (Bytes × Bytes))
    (sess : Session) (W S : State) (s : SelectStmt) (params : Data) (sch : TableSchema)
    (defs : List IndexDef) (rows : List ScanRow) (fields : List Bytes) (c : Bytes) (ci : Nat) (desc : Bool)
    (site : Site) (hmain : sess.branch = mainBranch)
    (hsch : resolvedIn sess.ns W s.relName = some sch) (hdefs : indexesIn sess.ns W s.relName = some defs)
    (hrows : rowsIn sess.ns W s.relName sch.cols.length = .ok rows)
    (hkeyed : KeyedRows sess.ns s.relName sch rows) (hrls : rlsApplies sch sess = false)
    (hwhere : s.whereClause = none) (hlimit : s.limitCount = none)
    (hsort : s.sortClause = [⟨.column fields, desc⟩]) (href : RefersTo env s fields c)
    (hci : sch.colIndex env c = some ci)
    (htyped : ∀ r ∈ rows, ∀ t, cellAt r.cells ci = some t → (orderEncode env (sch.oidAt ci) t).isOk = true)
    (hexact : ∀ d, findIndexOn env defs c none = some d → IndexExact env sess.ns W s.relName sch d)
    (hsees : ∀ d, findIndexOn env defs c none = some d → ScanSees W (indexPrefix sess d) S desc) :
    (∃ out, selectRows env order sess W S s params sch (rows.map ScanRow.cells) site = .ok out ∧
        out.Perm (rows.map ScanRow.cells) ∧ out.Pairwise fun a b =>
          Follows desc (topKey (columnKey env sch ci a)) (topKey (columnKey env sch ci b))) ↔
      ∀ d, findIndexOn env defs c none = some d → ∀ r ∈ rows, inIndex env sch d r.cells = true := by
  have hplan := planIndexScan_orderBy (S := S) order params hmain (hkeyed.ne_otel hsch) hsch hdefs hwhere hlimit hsort href hci
  cases hfind : findIndexOn env defs c none with
  | none =>
    -- no index: the full scan is sorted
    rw [hfind] at hplan
    obtain ⟨out, hout, hperm, hsorted⟩ := sortRows_single params (href.ordersBy hci desc)
      (rows.map ScanRow.cells)
      (fun cells hcells t ht => by
        obtain ⟨r, hr, rfl⟩ := mem_map.mp hcells
        exact htyped r hr t ht) site.r.r
    refine ⟨fun _ d hd => absurd hd (by simp), fun _ => ⟨out, ?_, hperm, hsorted⟩⟩
    unfold selectRows fromRows
    simp only [hplan, bind, Except.bind, applyRLSSelect, hrls, Bool.false_eq_true, if_false, hwhere,
      filterRows_whereKeeps_none, hsort, isEmpty_cons, or_self]
    exact hout
  | some d =>
    rw [hfind] at hplan
    have hx := hexact d hfind
    have hlead : d.leads env c = true := (findIndexOn_some hfind).2
    have hperm := hkeyed.scan_perm hrows hx
    have hsorted := hkeyed.scan_sorted hrows hx hlead hci
    have hall : entriesIn W (indexColumnPrefix sess.ns mainBranch d.table d.name) none none =
        W.scan (underPrefix (indexColumnPrefix sess.ns mainBranch d.table d.name)) :=
      filter_eq_self.mpr fun _ _ => rfl
    have hselect : selectRows env order sess W S s params sch (rows.map ScanRow.cells) site =
        .ok ((if desc then (W.scan (underPrefix (indexColumnPrefix sess.ns mainBranch d.table d.name))).reverse
          else W.scan (underPrefix (indexColumnPrefix sess.ns mainBranch d.table d.name))).filterMap
            (fetched W sess.ns s.relName sch.cols.length)) := by
      have hrange := scanIndexRange_eq hmain hrows _ none none desc (hsees d hfind)
      unfold indexPrefix at hrange
      rw [hmain] at hrange
      unfold selectRows fromRows
      simp only [hplan, indexPrefix, hmain, hrange, hall, Except.map, bind, Except.bind,
        applyRLSSelect, hrls, Bool.false_eq_true, if_false, hwhere, filterRows_whereKeeps_none, or_true, if_true]
    constructor
    · intro h d' hd' r hr
      cases hd'
      obtain ⟨out, hout, hperm', -⟩ := h
      cases hselect.symm.trans hout
      have hlen : (rows.filter fun r => inIndex env sch d r.cells).length = rows.length := by
        have h1 := hperm.length_eq
        have h2 := hperm'.length_eq
        cases desc with
        | true =>
          rw [if_pos rfl, filterMap_reverse, length_reverse, h1, length_map, length_map] at h2
          exact h2
        | false =>
          rw [if_neg (by simp), h1, length_map, length_map] at h2
          exact h2
      exact length_filter_eq_length_iff.mp hlen r hr
    · intro h
      have hfull : rows.filter (fun r => inIndex env sch d r.cells) = rows := filter_eq_self.mpr (h d rfl)
      rw [hfull] at hperm
      refine ⟨_, hselect, ?_, ?_⟩
      · cases desc with
        | true =>
          rw [if_pos rfl, filterMap_reverse]
          exact (reverse_perm _).trans hperm
        | false => exact hperm
      · cases desc with
        | true =>
          rw [if_pos rfl, filterMap_reverse]
          exact pairwise_reverse.mpr hsorted
        | false => exact hsorted

/-! ### On a small table -/

def insertCells (id : String) (v : Const) : Call := insertValues "main" "t" [.string (str id), v]

def indexDemo : Call := ⟨demoSession "main", .createIndex ⟨str "t_v", str "t", [.col (str "v")], none, false⟩, []⟩

def demoIndex : IndexDef := ⟨str "t_v", str "t", [str "v"], false, [], []⟩

def orderByDemo : SelectStmt := ⟨str "t", [], none, [⟨.column [str "v"], false⟩], none, false⟩

/-- The rows of the table in a state. -/
def demoRows (db : Db) : List ScanRow := ((rowsIn (str "n") db.map (str "t") 2).toOption).getD []

/-- What `IndexExact` asks of the index of the table, decided. -/
def demoExact (db : Db) : Bool :=
  (demoRows db).all (fun r => (encodeIndexTuple demoEnv demoSchema demoIndex.columns r.cells).isOk) &&
  (db.map.scan (underPrefix (indexColumnPrefix (str "n") mainBranch (str "t") (str "t_v")))).all
    (fun e => e ∈ (demoRows db).filterMap (entryOf demoEnv (str "n") demoSchema demoIndex)) &&
  ((demoRows db).filterMap (entryOf demoEnv (str "n") demoSchema demoIndex)).all
    (fun e => db.map.lookup e.1 = some e.2)

theorem indexExact_demo {db : Db} (hrows : rowsIn (str "n") db.map (str "t") 2 = .ok (demoRows db))
    (h : demoExact db = true) : IndexExact demoEnv (str "n") db.map (str "t") demoSchema demoIndex := by
  unfold demoExact at h
  simp only [Bool.and_eq_true, all_eq_true, decide_eq_true_eq] at h
  obtain ⟨⟨hencodes, hscan⟩, hentries⟩ := h
  exact indexExact_of_rows hrows hencodes hscan hentries

theorem refersTo_demo : RefersTo demoEnv orderByDemo [str "v"] (str "v") := ⟨by decide, fun _ => rfl, .inl rfl⟩

/-- Two rows, in the order of `v`. -/
theorem order_by_complete_demo : ∃ db, Reach (Db.step demoEnv) (fun _ _ => True) Db.empty db ∧
    (demoRows db).length = 2 ∧
    ∃ out, selectRows demoEnv id (demoSession "main") db.map db.map orderByDemo [] demoSchema
        ((demoRows db).map ScanRow.cells) (Site.root 0) = .ok out ∧ out.Perm ((demoRows db).map ScanRow.cells) ∧
      out.Pairwise (fun a b => Follows false (topKey (columnKey demoEnv demoSchema 1 a))
        (topKey (columnKey demoEnv demoSchema 1 b))) := by
  obtain ⟨db, hreach, hsch, hdefs, hrows, hlen, hkeys, hexact, hin⟩ := exists_demo
    [createDemo, insertCells "1" (.string (str "b")), indexDemo, insertCells "2" (.string (str "a"))]
    (fun db => resolvedIn (str "n") db.map (str "t") = some demoSchema ∧
      indexesIn (str "n") db.map (str "t") = some [demoIndex] ∧
      (rowsIn (str "n") db.map (str "t") 2).toOption = some (demoRows db) ∧ (demoRows db).length = 2 ∧
      (∀ r ∈ demoRows db, (cellAt r.cells 0).map (rowKey (str "n") mainBranch (str "t")) = some r.key) ∧
      demoExact db = true ∧ ∀ r ∈ demoRows db, inIndex demoEnv demoSchema demoIndex r.cells = true)
    (by decide +kernel)
  have hrows' := ok_of_toOption hrows
  have hfind : findIndexOn demoEnv [demoIndex] (str "v") none = some demoIndex := by decide +kernel
  refine ⟨db, hreach, hlen, (order_by_complete_iff demoEnv id (demoSession "main") db.map db.map orderByDemo []
    demoSchema [demoIndex] (demoRows db) [str "v"] (str "v") 1 false (Site.root 0) rfl hsch hdefs hrows'
    ⟨0, rfl, ?_⟩ rfl rfl rfl rfl refersTo_demo (by decide) ?_ ?_ fun _ _ _ => rfl).mpr ?_⟩
  · intro r hr
    obtain ⟨t, ht, hkey⟩ := Option.map_eq_some_iff.mp (hkeys r hr)
    exact ⟨t, ht, hkey.symm⟩
  · intro r hr t ht
    rfl
  · intro d hd
    cases hfind.symm.trans hd
    exact indexExact_demo hrows' hexact
  · intro d hd
    cases hfind.symm.trans hd
    exact hin

/-- The row with NULL is missing from ORDER BY v. -/
theorem order_by_loses_null : ∃ db, Reach (Db.step demoEnv) (fun _ _ => True) Db.empty db ∧
    resolvedIn (str "n") db.map (str "t") = some demoSchema ∧
    indexesIn (str "n") db.map (str "t") = some [demoIndex] ∧
    rowsIn (str "n") db.map (str "t") 2 = .ok (demoRows db) ∧ (demoRows db).length = 2 ∧
    selectRows demoEnv id (demoSession "main") db.map db.map orderByDemo [] demoSchema
      ((demoRows db).map ScanRow.cells) (Site.root 0) = .ok [[some (str "1"), some (str "b")]] := by
  obtain ⟨db, hreach, hsch, hdefs, hrows, hlen, hout⟩ := exists_demo
    [createDemo, insertCells "1" (.string (str "b")), indexDemo, insertCells "2" .null]
    (fun db => resolvedIn (str "n") db.map (str "t") = some demoSchema ∧
      indexesIn (str "n") db.map (str "t") = some [demoIndex] ∧
      (rowsIn (str "n") db.map (str "t") 2).toOption = some (demoRows db) ∧ (demoRows db).length = 2 ∧
      (selectRows demoEnv id (demoSession "main") db.map db.map orderByDemo [] demoSchema
        ((demoRows db).map ScanRow.cells) (Site.root 0)).toOption = some [[some (str "1"), some (str "b")]])
    (by decide +kernel)
  exact ⟨db, hreach, hsch, hdefs, ok_of_toOption hrows, hlen, ok_of_toOption hout⟩

end BasuyuDb.Executor
