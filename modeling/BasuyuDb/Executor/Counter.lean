import BasuyuDb.Branch.Actions

/-
  The statement UPDATE t SET n = n + 1 WHERE id = k, on the row of a table with primary key
  id that k picks. `wp_increment`: on a state in which the row has the value v, the statement
  fails or writes the row with v + 1, whatever referential actions and index entries it
  writes beside it.
-/

namespace BasuyuDb.Executor
open KvLib Storage Branch List
open Prog hiding pure bind

/-! ## The setting -/

/-- One session's statement: `k` is a constant or a parameter, with a fixed value. -/
structure Request (env : Env) where
  sess : Session
  k : Expr
  params : Data
  returning : Returning
  text : Bytes
  oid : Nat
  constant : ∀ sc site, sc.params = params → k.eval env sc site = .ok ⟨some text, oid⟩

/-- The comparison `id = k` on a stored id. -/
def Request.hits {env : Env} (q : Request env) (idOID : Nat) (x : Bytes) : Bool :=
  compareOp (str "=") (compareCells env x idOID q.text q.oid)

/-- The row of the sessions' statements: its table, with a single-column primary key and an
integer column, both plain stored columns; its id, which every statement's `k` picks; and row
security that hides it from no session. The key column is not rewritten by an ON UPDATE
action of the table on itself. -/
structure Counter (env : Env) where
  ns : Bytes
  table : Bytes
  sch : TableSchema
  idCol : Bytes
  nCol : Bytes
  idIdx : Nat
  nIdx : Nat
  id : Bytes
  reqs : List (Request env)
  not_otel : table ≠ otelSpansTable
  id_col : sch.colIndex env idCol = some idIdx
  n_col : sch.colIndex env nCol = some nIdx
  pk : sch.pkIndex = some idIdx
  n_ne_id : nIdx ≠ idIdx
  n_int : sch.oidAt nIdx ∈ [OIDInt2, OIDInt4, OIDInt8]
  id_stored : ∀ c, (c, idIdx) ∈ sch.cols.zipIdx → c.generated = false
  n_stored : ∀ c, (c, nIdx) ∈ sch.cols.zipIdx → c.generated = false
  id_name : ∀ sess site, keyword env sess site [idCol] = none
  n_name : ∀ sess site, keyword env sess site [nCol] = none
  id_kept : ∀ fk ∈ childForeignKeys sch, env.equalFold fk.table table = true →
    fk.rewritesOnUpdate = true → ∀ p ∈ fk.pairs, sch.colIndex env p.localCol ≠ some idIdx
  on_main : ∀ q ∈ reqs, q.sess.ns = ns ∧ q.sess.branch = mainBranch
  picks : ∀ q ∈ reqs, q.hits (sch.oidAt idIdx) id = true
  visible : ∀ q ∈ reqs, rlsApplies sch q.sess = true → ∀ cells site, cellAt cells idIdx = some id →
    rlsRowAllowed env sch table q.sess .update q.params cells site ≠ .ok false

namespace Counter
variable {env : Env} (C : Counter env)

def increment (q : Request env) : UpdateStmt where
  table := C.table
  sets := [(C.nCol, .binary (str "+") (.column [C.nCol]) (.const (.int (str "1"))))]
  whereClause := some (.binary (str "=") (.column [C.idCol]) q.k)
  returning := q.returning

def stmt (q : Request env) : Stm Result := execUpdate env q.sess (C.increment q) q.params

def key : Bytes := rowKey C.ns mainBranch C.table C.id

def rows : Bytes := rowPrefix C.ns mainBranch C.table

def catalog : Bytes := schemaKey C.ns []

/-- The counted value in a stored row. -/
def value (o : Option Val) : Option Int :=
  match o with
  | some (.row cells) => (cellAt cells C.nIdx).bind parseInt
  | _ => none

/-- A row of the table: the counter under its key, and elsewhere a row that no `k` picks. -/
def RowOk (k : Bytes) (cells : Data) : Prop :=
  (k = C.key ∧ cellAt cells C.idIdx = some C.id) ∨
  (k ≠ C.key ∧ ∀ x, cellAt cells C.idIdx = some x → ∀ q ∈ C.reqs, q.hits (C.sch.oidAt C.idIdx) x = false)

/-- The state around the counter: the table is in the catalog, the rows of other tables are
not among its rows, and no other row of the table is picked. -/
structure Setting (W : State) : Prop where
  schema : schemaIn C.ns W C.table = some C.sch
  named : ∀ t ∈ tablesIn C.ns W, t.name = C.table → t = C.sch
  apart : ∀ t ∈ tablesIn C.ns W, t.name ≠ C.table →
    ¬rowPrefix C.ns mainBranch t.name <+: C.rows ∧ ¬C.rows <+: rowPrefix C.ns mainBranch t.name
  rows : ∀ k cells, C.rows <+: k → W.lookup k = some (.row cells) → C.RowOk k cells

/-- What a statement may leave at a key: the catalog stays, and rows of the table are rows
that `RowOk` allows. -/
def Safe (k : Bytes) (x : Option Val) : Prop :=
  ¬C.catalog <+: k ∧ (C.rows <+: k → ∃ cells, x = some (.row cells) ∧ C.RowOk k cells)

variable {C}

/-! ## Evaluation -/

variable {table k : Bytes} {cells : Data} {site : Site} {q : Request env} {W : State}
  {sess : Session} {v : Int} {cells' : Data} {x : Option Val}

theorem eval_column {sch : TableSchema} {col : Bytes} {i : Nat}
    {params : Data} (hcol : sch.colIndex env col = some i)
    (hname : ∀ sess site, keyword env sess site [col] = none) :
    (Expr.column [col]).eval env (rlsScope env sch table sess params cells) site =
      .ok ⟨cellAt cells i, sch.oidAt i⟩ := by
  simp [Expr.eval, evalColumn, rlsScope, hname, rowResolver, columnValue, hcol]

theorem eval_where (q : Request env) (cells : Data) (site : Site) :
    (Expr.binary (str "=") (.column [C.idCol]) q.k).eval env
        (rlsScope env C.sch C.table q.sess q.params cells) site =
      evalBinary env (str "=") ⟨cellAt cells C.idIdx, C.sch.oidAt C.idIdx⟩ ⟨some q.text, q.oid⟩ := by
  simp only [Expr.eval, bind, Except.bind]
  rw [← Expr.eval, eval_column C.id_col C.id_name, q.constant _ _ rfl]

theorem evalBinary_hits (q : Request env) (x : Bytes) (oid : Nat) :
    evalBinary env (str "=") ⟨some x, oid⟩ ⟨some q.text, q.oid⟩ = .ok (boolValue (q.hits oid x)) := rfl

theorem targetsRow_hit (hq : q ∈ C.reqs) {b : Bool} (hid : cellAt cells C.idIdx = some C.id)
    (h : targetsRow env q.sess .update C.sch C.table (C.increment q).whereClause q.params cells site =
      .ok b) : b = true := by
  simp only [targetsRow, increment, eval_where, hid, evalBinary_hits, bind, Except.bind,
    asBool_boolValue, C.picks q hq, if_true] at h
  split at h
  · rename_i hrls
    cases b with
    | true => rfl
    | false => exact absurd h (C.visible q hq hrls cells site.r hid)
  · exact (Except.ok.inj h).symm

theorem targetsRow_miss (hmiss : ∀ x, cellAt cells C.idIdx = some x → q.hits (C.sch.oidAt C.idIdx) x = false) :
    targetsRow env q.sess .update C.sch C.table (C.increment q).whereClause q.params cells site = .ok false := by
  simp only [targetsRow, increment, eval_where, bind, Except.bind]
  cases hid : cellAt cells C.idIdx with
  | none => rfl
  | some x =>
    rw [evalBinary_hits, hmiss x hid]
    rfl

theorem eval_plusOne (hv : (cellAt cells C.nIdx).bind parseInt = some v) (hmax : inInt64 (v + 1) = true) :
    (Expr.binary (str "+") (.column [C.nCol]) (.const (.int (str "1")))).eval env
        (rlsScope env C.sch C.table q.sess q.params cells) site = .ok ⟨some (formatInt (v + 1)), OIDInt4⟩ := by
  obtain ⟨t, ht, hparse⟩ := Option.bind_eq_some_iff.mp hv
  have hother : arithIsOther env (C.sch.oidAt C.nIdx) (str "1") OIDInt4 = false := by
    have hint := C.n_int
    simp only [mem_cons, not_mem_nil, or_false] at hint
    rcases hint with h | h | h
    · rw [h]; rfl
    · rw [h]; rfl
    · rw [h]; rfl
  have hone : parseInt (str "1") = some 1 := by decide
  have hadd : arithInt (str "+") t (str "1") = .ok ⟨some (formatInt (v + 1)), OIDInt4⟩ := by
    simp only [arithInt, hparse, hone, Option.elim, bind, Except.bind, if_true, wrap64_of_inInt64 hmax]
  simp only [Expr.eval, bind, Except.bind]
  rw [← Expr.eval, eval_column C.n_col C.n_name, ht]
  simp only [evalConst, evalBinary]
  rw [if_neg (by decide), if_pos (by simp [isArithmetic, str]), arith, hother]
  exact hadd

theorem updatedCells_spec (hlen : cells.length = C.sch.cols.length)
    (hv : (cellAt cells C.nIdx).bind parseInt = some v) (hmax : inInt64 (v + 1) = true)
    (h : updatedCells env q.sess (C.increment q) C.sch q.params cells site = .ok cells') :
    (cellAt cells' C.nIdx).bind parseInt = some (v + 1) ∧ cellAt cells' C.idIdx = cellAt cells C.idIdx := by
  simp only [updatedCells, increment, applySets, C.n_col, eval_plusOne hv hmax, bind, Except.bind] at h
  have hfinish : ∃ cells1, applyGeneratedColumns env C.sch C.table q.params site.r.l
      C.sch.cols.zipIdx (cells.set C.nIdx (some (formatInt (v + 1)))) = .ok cells1 ∧ cells1 = cells' := by
    unfold finishRow at h
    cases hgen : applyGeneratedColumns env C.sch C.table q.params site.r.l C.sch.cols.zipIdx
        (cells.set C.nIdx (some (formatInt (v + 1)))) with
    | error e => simp [hgen, bind, Except.bind] at h
    | ok cells1 =>
      refine ⟨cells1, rfl, ?_⟩
      simp only [hgen, bind, Except.bind] at h
      split at h
      · cases h
      · split at h
        · cases h
        · exact Except.ok.inj h
  obtain ⟨cells1, hgen, rfl⟩ := hfinish
  have hn : C.nIdx < cells.length := by
    rw [hlen]
    exact TableSchema.colIndex_lt env C.n_col
  constructor
  · rw [(applyGeneratedColumns_frame hgen C.n_stored).1, cellAt_set_self hn]
    exact parseInt_formatInt hmax
  · rw [(applyGeneratedColumns_frame hgen C.id_stored).1, cellAt_set_ne cells C.n_ne_id]

/-! ## What the statement writes -/

theorem rows_eq : C.rows = nsRoot C.ns ++ (dataPath ++ (C.table ++ [slash])) := rowPrefix_main _ _

theorem catalog_eq : C.catalog = nsRoot C.ns ++ (schemaPath ++ []) := schemaKey_eq _ _

theorem key_mem_rows : C.rows <+: C.key := rowPrefix_rowKey ..

theorem not_catalog_of_row (h : rowPrefix C.ns mainBranch table <+: k) : ¬C.catalog <+: k := by
  have hpath := (rowPrefix_main C.ns table).symm ▸ h
  rw [catalog_eq]
  exact not_under_both (by decide) (by decide) hpath

theorem safe_entry (hns : sess.ns = C.ns) (hmain : sess.branch = mainBranch)
    {defs : List IndexDef} (h : IsEntryKey sess defs k) : C.Safe k x := by
  obtain ⟨d, -, tuple, pk, rfl⟩ := h
  have hunder : indexColumnPrefix C.ns (str "main") d.table d.name <+:
      indexKey sess.ns sess.branch d.table d.name tuple pk := by
    rw [indexKey_eq, hns, hmain]
    exact prefix_append _ _
  rw [indexColumnPrefix_main] at hunder
  constructor
  · rw [catalog_eq]
    exact not_under_both (by decide) (by decide) hunder
  · intro hrow
    rw [rows_eq] at hrow
    exact absurd hrow (not_under_both (by decide) (by decide) hunder)

theorem safe_row (h : C.rows <+: k) (hok : C.RowOk k cells) : C.Safe k (some (.row cells)) :=
  ⟨not_catalog_of_row h, fun _ => ⟨cells, rfl, hok⟩⟩

theorem safe_other
    (hapart : ¬rowPrefix C.ns mainBranch table <+: C.rows ∧ ¬C.rows <+: rowPrefix C.ns mainBranch table)
    (h : rowPrefix C.ns mainBranch table <+: k) : C.Safe k x := by
  refine ⟨not_catalog_of_row h, fun hrow => ?_⟩
  rcases prefix_or_prefix_of_prefix h hrow with h1 | h1
  · exact absurd h1 hapart.1
  · exact absurd h1 hapart.2

theorem Setting.of_lookup {W' : State} (h : C.Setting W)
    (hW : ∀ k, W'.lookup k = W.lookup k ∨ C.Safe k (W'.lookup k)) : C.Setting W' := by
  have hcat : ∀ k, C.catalog <+: k → W'.lookup k = W.lookup k := by
    intro k hk
    rcases hW k with h1 | h1
    · exact h1
    · exact absurd hk h1.1
  have htables : tablesIn C.ns W' = tablesIn C.ns W := by
    have hscan : W'.scan (underPrefix C.catalog) = W.scan (underPrefix C.catalog) :=
      OrdMap.scan_congr fun k hk => hcat k (List.isPrefixOf_iff_prefix.mp hk)
    exact congrArg (schemasOf C.catalog.length) hscan
  have hschema : schemaIn C.ns W' C.table = schemaIn C.ns W C.table := by
    unfold schemaIn
    rw [hcat]
    rw [catalog_eq, schemaKey_eq]
    exact (prefix_append_right_inj _).mpr ((prefix_append_right_inj _).mpr (List.nil_prefix))
  refine ⟨hschema.trans h.schema, ?_, ?_, ?_⟩
  · rw [htables]
    exact h.named
  · rw [htables]
    exact h.apart
  · intro k cells hk hl
    rcases hW k with h1 | h1
    · exact h.rows k cells hk (h1.symm.trans hl)
    · obtain ⟨cells', hx, hok⟩ := h1.2 hk
      rw [hl] at hx
      obtain rfl := Val.row.inj (Option.some.inj hx)
      exact hok

theorem Setting.overlay (h : C.Setting W) {ms : Buffer}
    (hms : ∀ m ∈ ms, C.Safe m.key m.effect) : C.Setting (overlay W ms) := by
  refine h.of_lookup fun k => ?_
  rw [lookup_overlay]
  cases hl : lastEffect ms k with
  | none => exact .inl rfl
  | some x =>
    obtain ⟨m, hm, rfl, rfl⟩ := lastEffect_mem hl
    exact .inr (hms m hm)

theorem Setting.scanned (h : C.Setting W) {n : Nat} {rows : List ScanRow}
    (hn : C.sch.cols.length = n) (hrows : rowsIn C.ns W C.table n = .ok rows) {r : ScanRow}
    (hr : r ∈ rows) : C.rows <+: r.key ∧ C.RowOk r.key r.cells := by
  obtain ⟨cells, hmem, hcells⟩ := (mem_liveRows hrows).mp hr
  obtain ⟨hl, hp⟩ := (OrdMap.mem_scan _ _ _ _).mp hmem
  have hpre : C.rows <+: r.key := isPrefixOf_iff_prefix.mp hp
  refine ⟨hpre, ?_⟩
  have hid : cellAt r.cells C.idIdx = cellAt cells C.idIdx := by
    rw [hcells, cellAt_takeD cells]
    rw [← hn]
    exact TableSchema.colIndex_lt env C.id_col
  unfold RowOk
  rw [hid]
  exact h.rows r.key cells hpre hl

theorem rowOk_branchRowKey (hq : q ∈ C.reqs)
    (hk : C.rows <+: k) (hok : C.RowOk k cells) (hid : cellAt cells' C.idIdx = cellAt cells C.idIdx) :
    C.rows <+: branchRowKey q.sess C.table C.sch cells' k ∧
      C.RowOk (branchRowKey q.sess C.table C.sch cells' k) cells' := by
  obtain ⟨hns, hmain⟩ := C.on_main q hq
  unfold branchRowKey RowOk
  rw [C.pk, Option.bind_some, hid, hns, hmain]
  rcases hok with ⟨rfl, hrow⟩ | ⟨hne, hmiss⟩
  · rw [hrow]
    exact ⟨key_mem_rows, .inl ⟨rfl, rfl⟩⟩
  · cases hx : cellAt cells C.idIdx with
    | none => exact ⟨hk, .inr ⟨hne, by simp⟩⟩
    | some x =>
      have hxid : x ≠ C.id := by
        intro heq
        subst heq
        have h1 := C.picks q hq
        rw [hmiss _ hx q hq] at h1
        cases h1
      refine ⟨rowPrefix_rowKey .., .inr ⟨fun heq => hxid (rowKey_inj heq), ?_⟩⟩
      intro y hy
      cases hy
      exact hmiss x hx

/-! ## The statement -/

section run
variable {s : Snap Bytes Val} {buf : Buffer}

theorem safe_append {xs ys : Buffer} (hx : ∀ m ∈ xs, C.Safe m.key m.effect)
    (hy : ∀ m ∈ ys, C.Safe m.key m.effect) : ∀ m ∈ xs ++ ys, C.Safe m.key m.effect := by
  intro m hm
  rcases mem_append.mp hm with h | h
  · exact hx m h
  · exact hy m h

theorem wp_replaceRow_safe (hq : q ∈ C.reqs) {table : Bytes} {sch : TableSchema} {defs : List IndexDef}
    {r : ScanRow} {cells : Data} (hbuf : ∀ m ∈ buf, C.Safe m.key m.effect)
    (hrow : C.Safe (branchRowKey q.sess table sch cells r.key) (some (.row cells))) :
    (replaceRow env q.sess table sch defs r cells).wp underPrefix s
      (fun _ buf' => (∀ m ∈ buf', C.Safe m.key m.effect) ∧ (branchRowKey q.sess table sch cells r.key = C.key →
          lastEffect buf' C.key = some (some (.row cells)))) buf := by
  obtain ⟨hns, hmain⟩ := C.on_main q hq
  refine wp_replaceRow fun old new hold hnew => ⟨?_, ?_⟩
  · refine safe_append (safe_append (safe_append hbuf ?_) ?_) ?_
    · exact fun m hm => safe_entry hns hmain (hold m hm)
    · intro m hm
      obtain rfl := mem_singleton.mp hm
      exact hrow
    · exact fun m hm => safe_entry hns hmain (hnew m hm)
  · intro hkey
    have hlate : lastEffect new C.key = none := by
      rw [lastEffect_eq_none]
      intro m hm heq
      -- an entry's key is safe whatever is written there, the counter's is not
      have hentry : C.Safe m.key none := safe_entry hns hmain (hnew m hm)
      obtain ⟨cells', hcells', -⟩ := hentry.2 (heq ▸ key_mem_rows)
      cases hcells'
    rw [lastEffect_append, hlate, lastEffect_append, lastEffect_single]
    simp [assignment, hkey, Mutation.effect, encodeRow]

/-- The rows that the actions write: of the counter's own table, or of one apart from it. -/
theorem wp_actions_safe (hq : q ∈ C.reqs) (hs : C.Setting s.map) {oldCells newCells : Data}
    (hbuf : ∀ m ∈ buf, C.Safe m.key m.effect) :
    (applyFKUpdateActions env q.sess C.table C.sch oldCells newCells).wp underPrefix s
      (fun _ buf' => ∀ m ∈ buf', C.Safe m.key m.effect) buf := by
  obtain ⟨hns, hmain⟩ := C.on_main q hq
  refine wp_updateActions (fun buf' hsafe x sch hlook => ?_) (fun t fk r cells hmeets hcells defs buf' hsafe => ?_) hbuf
  · rcases s.lookup_seen_cases buf' (schemaKey q.sess.ns x) with hsame | ⟨m, hm, hkey, -⟩
    · exact hsame.symm.trans hlook
    · exact absurd (hkey ▸ hns ▸ schemaKey_root.mpr ⟨x, rfl⟩) (hsafe m hm).1
  · obtain ⟨buf₀, sch, rows, hsafe₀, hsch, hrows, hr⟩ := hmeets.read
    obtain ⟨ht, hfk, hself⟩ := (mem_referencing env).mp hmeets.references
    rw [hmain, scanIn_main] at hrows
    rw [hns] at ht hsch hrows
    refine wp_mono (wp_replaceRow_safe hq hsafe ?_) fun _ _ h => h.1
    by_cases hname : t.name = C.table
    · obtain rfl := hs.named t ht hname
      rw [hname, resolvedIn, if_neg C.not_otel, hs.schema] at hsch
      rw [hname] at hrows ⊢
      obtain ⟨hpre, hok⟩ := (hs.overlay hsafe₀).scanned (congrArg _ (congrArg _ (Option.some.inj hsch))) hrows hr
      have hid := updatedChild_frame hcells (C.id_kept fk hfk hself (updatedChild_rewrites hcells))
      obtain ⟨hpre', hok'⟩ := rowOk_branchRowKey hq hpre hok hid
      exact safe_row hpre' hok'
    · refine safe_other (hs.apart t ht hname) ?_
      unfold branchRowKey
      split
      · rw [hns, hmain]
        exact rowPrefix_rowKey ..
      · obtain ⟨cells, hcells, -⟩ := (mem_liveRows hrows).mp hr
        exact isPrefixOf_iff_prefix.mp ((OrdMap.mem_scan _ _ _ _).mp hcells).2

theorem wp_updateRow_hit (hq : q ∈ C.reqs) (hs : C.Setting s.map) {defs : List IndexDef} {r : ScanRow}
    {v : Int} (hkey : r.key = C.key) (hid : cellAt r.cells C.idIdx = some C.id)
    (hlen : r.cells.length = C.sch.cols.length)
    (hv : (cellAt r.cells C.nIdx).bind parseInt = some v) (hmax : inInt64 (v + 1) = true)
    (hbuf : ∀ m ∈ buf, C.Safe m.key m.effect) :
    (updateRow env q.sess (C.increment q) C.sch defs q.params r).wp underPrefix s
      (fun _ buf' => (∀ m ∈ buf', C.Safe m.key m.effect) ∧
        ∃ x, lastEffect buf' C.key = some x ∧ C.value x = some (v + 1)) buf := by
  refine wp_guarded (fun n hb => nomatch targetsRow_hit hq hid hb) fun n _ => ?_
  simp only [storeUpdated, wp_bind, wp_ofExcept]
  intro cells hcells
  obtain ⟨hn, hid'⟩ := updatedCells_spec hlen hv hmax hcells
  refine enforceFKChild_writes.wp_none fun _ => checkPolicies_writes.wp_none fun _ => ?_
  have hparent : (updateParent env q.sess C.table C.sch r.cells cells).wp underPrefix s
      (fun _ buf' => ∀ m ∈ buf', C.Safe m.key m.effect) buf := by
    unfold updateParent
    split
    · exact wp_actions_safe hq hs hbuf
    · exact hbuf
  refine wp_mono hparent fun _ buf1 hsafe => ?_
  refine updateUnique_writes.wp_none fun _ => ?_
  obtain ⟨hpre, hok⟩ := rowOk_branchRowKey hq (hkey ▸ key_mem_rows) (.inl ⟨hkey, hid⟩) hid'
  have hown : branchRowKey q.sess C.table C.sch cells r.key = C.key := by
    obtain ⟨hns, hmain⟩ := C.on_main q hq
    unfold branchRowKey
    rw [C.pk, Option.bind_some, hid', hid, hns, hmain]
    rfl
  refine wp_mono (wp_replaceRow_safe hq hsafe (safe_row hpre hok)) fun _ buf2 h => ?_
  exact ⟨h.1, _, h.2 hown, hn⟩

theorem wp_increment (hq : q ∈ C.reqs) (hs : C.Setting s.map) {v : Int}
    (hv : C.value (s.map.lookup C.key) = some v) (hmax : inInt64 (v + 1) = true) :
    (C.stmt q).wp underPrefix s (fun _ buf => (∀ m ∈ buf, C.Safe m.key m.effect) ∧
      ∃ x, lastEffect buf C.key = some x ∧ C.value x = some (v + 1)) [] := by
  obtain ⟨hns, hmain⟩ := C.on_main q hq
  simp only [stmt, execUpdate, wp_bind, wp_scanTable hmain, wp_loadIndexes, Snap.seen_nil]
  intro sch hsch rows hrows defs _
  rw [hns] at hsch hrows
  have hsch' : C.sch = sch := by
    have hres : resolvedIn C.ns s.map C.table = some C.sch := by
      rw [resolvedIn, if_neg C.not_otel, hs.schema]
    exact Option.some.inj (hres.symm.trans hsch)
  subst hsch'
  -- until the counter's row comes, the loop changes nothing; after it, it is done
  have hloop : (Prog.collect rows (updateRow env q.sess (C.increment q) C.sch defs q.params)).wp
      underPrefix s (fun _ buf => (∀ m ∈ buf, C.Safe m.key m.effect) ∧
        ∃ x, lastEffect buf C.key = some x ∧ C.value x = some (v + 1)) [] := by
    refine wp_mono (wp_collect (fun rest buf => (∀ r ∈ rest, r ∈ rows) ∧
      (∀ m ∈ buf, C.Safe m.key m.effect) ∧ ((∃ r ∈ rest, r.key = C.key) ∨
        ∃ x, lastEffect buf C.key = some x ∧ C.value x = some (v + 1))) ?_ ?_) ?_
    · intro r rest buf hI
      obtain ⟨hmem, hsafe, hdone⟩ := hI
      have hrest : ∀ r' ∈ rest, r' ∈ rows := fun r' hr' => hmem r' (mem_cons_of_mem _ hr')
      obtain ⟨-, hok⟩ := hs.scanned rfl hrows (hmem r mem_cons_self)
      rcases hok with ⟨hkey, hid⟩ | ⟨hne, hmiss⟩
      · obtain ⟨cells, hcells, hr⟩ := (mem_liveRows hrows).mp (hmem r mem_cons_self)
        have hl := ((OrdMap.mem_scan _ _ _ _).mp hcells).1
        have hn : (cellAt r.cells C.nIdx).bind parseInt = some v := by
          rw [hkey] at hl
          rw [hl] at hv
          rw [hr, cellAt_takeD cells (TableSchema.colIndex_lt env C.n_col)]
          exact hv
        refine wp_mono (wp_updateRow_hit hq hs hkey hid (by rw [hr]; simp) hn hmax hsafe) ?_
        exact fun _ buf' h => ⟨hrest, h.1, .inr h.2⟩
      · refine wp_guarded (fun n _ => ?_) fun n hb => absurd (hb.symm.trans (targetsRow_miss fun x hx => hmiss x hx q hq)) (by simp)
        refine ⟨hrest, hsafe, hdone.imp_left fun hex => ?_⟩
        obtain ⟨r', hr', hkey'⟩ := hex
        rcases mem_cons.mp hr' with rfl | hr'
        · exact absurd hkey' hne
        · exact ⟨r', hr', hkey'⟩
    · refine ⟨fun _ h => h, by simp, .inl ?_⟩
      -- the counter is among the scanned rows
      cases hl : s.map.lookup C.key with
      | none =>
        rw [hl] at hv
        cases hv
      | some x =>
        rw [hl] at hv
        cases x with
        | row cells =>
          refine ⟨⟨C.key, cells.takeD C.sch.cols.length none⟩, (mem_liveRows hrows).mpr ⟨cells, ?_, rfl⟩, rfl⟩
          exact (OrdMap.mem_scan _ _ _ _).mpr ⟨hl, isPrefixOf_iff_prefix.mpr key_mem_rows⟩
        | _ => cases hv
    · intro _ buf h
      obtain ⟨-, hsafe, ⟨_, hnil, -⟩ | hdone⟩ := h
      · cases hnil
      · exact ⟨hsafe, hdone⟩
  refine wp_mono hloop fun affected buf h => ?_
  exact result_writes.wp_none fun _ => h

end run

end Counter

end BasuyuDb.Executor
