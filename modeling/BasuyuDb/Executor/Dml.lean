import BasuyuDb.Executor.Constraints

/-
  engine/internal/executor/dml.go, upsert.go, returning.go: INSERT, ON CONFLICT, UPDATE and
  DELETE. In autocommit an INSERT of several rows, or from a SELECT, is one single-row INSERT
  after another, each in a transaction of its own, so the single row is modelled.
-/

namespace BasuyuDb.Executor
open KvLib Storage List

variable (env : Env)

/-! ## Statements -/

/-- A RETURNING list: none, a lone star, or expressions. -/
inductive Returning where
  | none
  | star
  | exprs (es : List Expr)

/-- ON CONFLICT. -/
inductive OnConflict where
  | doNothing
  | doUpdate (sets : List (Bytes × Expr))

structure InsertStmt where
  table : Bytes
  cols : List Bytes
  values : List Expr
  onConflict : Option OnConflict
  returning : Returning

structure UpdateStmt where
  table : Bytes
  sets : List (Bytes × Expr)
  whereClause : Option Expr
  returning : Returning

structure DeleteStmt where
  table : Bytes
  whereClause : Option Expr
  returning : Returning

/-- `Result`, without the column descriptors. -/
structure Result where
  command : String
  rowsAffected : Nat
  rows : List Data
deriving DecidableEq

/-! ## Evaluation over rows -/

/-- The cells of a list of expressions. -/
def evalCells (sc : Scope) (site : Site) (es : List Expr) : ExecM Data := do
  .ok ((← evalItems env sc site es).map Value.cell)

/-- `projectReturning` over the affected rows. -/
def projectReturning (sch : TableSchema) (table : Bytes) (returning : Returning) (params : Data)
    (site : Site) : List Data → ExecM (List Data)
  | [] => .ok []
  | cells :: rows => do
    let out ←
      match returning with
      | .none => .ok []
      | .star => .ok cells
      | .exprs es => evalCells env (checkScope env sch table params cells) site.l es
    .ok (out :: (← projectReturning sch table returning params site.r rows))

/-- The result of a statement: `projectReturning` runs only for a RETURNING list. -/
def result (command : String) (sch : TableSchema) (table : Bytes) (returning : Returning)
    (params : Data) (affected : List Data) : Stm Result :=
  match returning with
  | .none => pure ⟨command, affected.length, []⟩
  | _ => do
    let n ← Prog.tick
    let rows ← Prog.ofExcept (projectReturning env sch table returning params (Site.root n) affected)
    pure ⟨command, affected.length, rows⟩

/-- The SET loop: each assignment sees the ones before it. -/
def applySets (sch : TableSchema) (scope : Data → Scope) (site : Site) :
    List (Bytes × Expr) → Data → ExecM Data
  | [], cells => .ok cells
  | (col, e) :: sets, cells =>
    match sch.colIndex env col with
    | none => .error ⟨"42703", "column %q does not exist", [col]⟩
    | some idx => do
      let v ← e.eval env (scope cells) site.l
      applySets sch scope site.r sets (cells.set idx v.cell)

variable (sess : Session) (cmd : Command) (table : Bytes) (sch : TableSchema) (oldCells cells : Data)
  (s : InsertStmt) (params : Data) (key : Bytes)

/-- WHERE and row security: whether UPDATE or DELETE targets a row. -/
def targetsRow (table : Bytes)
    (whereClause : Option Expr) (params cells : Data) (site : Site) : ExecM Bool := do
  let holds ←
    match whereClause with
    | none => .ok true
    | some w => do .ok (asBool (← w.eval env (rlsScope env sch table sess params cells) site.l))
  if holds then
    if rlsApplies sch sess then rlsRowAllowed env sch table sess cmd params cells site.r
    else .ok true
  else .ok false

/-- Generated columns, NOT NULL and CHECK on a new row. -/
def finishRow (table : Bytes) (params cells : Data) (site : Site) : ExecM Data := do
  let cells ← applyGeneratedColumns env sch table params site.l sch.cols.zipIdx cells
  enforceNotNull sch cells
  enforceChecks env sch table cells params site.r sch.cols
  .ok cells

/-- WITH CHECK, where row security applies. -/
def checkPolicies (table : Bytes) (params cells : Data) : Stm Unit :=
  if rlsApplies sch sess then do
    let n ← Prog.tick
    Prog.ofExcept (rlsCheckNewRow env sch table sess cmd params cells (Site.root n))
  else pure ()

/-! ## INSERT -/

/-- The VALUES expressions; `none` is the keyword DEFAULT. -/
def evalValues (params : Data) (site : Site) : List Expr → ExecM (List (Option Datum))
  | [] => .ok []
  | .setToDefault :: es => do .ok (none :: (← evalValues params site.r es))
  | e :: es => do
    let v ← e.eval env ⟨params, noRow, none⟩ site.l
    .ok (some v.cell :: (← evalValues params site.r es))

/-- The positions of the named columns. -/
def targetCols (sch : TableSchema) (table : Bytes) : List Bytes → ExecM (List Nat)
  | [] => .ok []
  | c :: cs =>
    match sch.colIndex env c with
    | none => .error ⟨"42703", "column %q of relation %q does not exist", [c, table]⟩
    | some idx => do .ok (idx :: (← targetCols sch table cs))

/-- The values per column: those provided, in the order of the VALUES list. -/
def providedCells (tvs : List (Nat × Option Datum)) (i : Nat) : Option Datum :=
  (tvs.filterMap fun tv => if tv.1 = i then tv.2 else none).getLast?

/-- The row before defaults, and whether each column was provided. -/
def assembleRow (values : List (Option Datum)) : ExecM (List (Option Datum)) := do
  let targets ← if s.cols = [] then .ok (List.range sch.cols.length) else targetCols env sch s.table s.cols
  if targets.length ≠ values.length then
    .error ⟨"42601", "INSERT has %d target columns but %d values",
      [formatNat targets.length, formatNat values.length]⟩
  else .ok ((List.range sch.cols.length).map (providedCells (targets.zip values)))

/-- Column defaults for the columns not provided; others stay NULL. -/
def applyDefaults (sess : Session) : List (ColMeta × Option Datum) → Stm Data
  | [] => pure []
  | (_, some d) :: cs => do
    let rest ← applyDefaults sess cs
    pure (d :: rest)
  | (c, none) :: cs => do
    let d ← match c.defaultSpec with
      | none => pure none
      | some spec => evalDefault env sess spec
    let rest ← applyDefaults sess cs
    pure (d :: rest)

/-- `fmt.Sprintf("%020d", n)`. -/
def pad20 (n : Nat) : Bytes :=
  let ds := formatNat n
  List.replicate (20 - ds.length) 48 ++ ds

/-- The row key of a new row: of the span for `otel_spans`, of the primary key, or of the start timestamp. -/
def insertKey (cells : Data) : Stm Bytes :=
  if table = otelSpansTable then
    pure (otelSpanKey sess.ns sess.branch ((cellAt cells 0).getD []) ((cellAt cells 1).getD []))
  else
    match sch.pkIndex with
    | some pk =>
      match cellAt cells pk with
      | none => .throw ⟨"23502", "primary key column %q cannot be null", [sch.nameAt pk]⟩
      | some t => pure (rowKey sess.ns sess.branch table t)
    | none => do pure (rowKey sess.ns sess.branch table (pad20 (← Prog.timestamp)))

/-- UNIQUE on INSERT: no other row has the tuple, by the plain columns of the index. -/
def insertUnique (cells : Data) (key : Bytes) (defs : List IndexDef) : Stm Unit :=
  Prog.forEach defs fun d => if d.unique then do
      match ← Prog.ofExcept (encodeIndexTuple env sch d.columns cells) with
      | none => pure ()
      | some tuple => do
        let dup ← indexHasOtherPK sess d tuple (primaryKeyBytes sch cells key)
        if dup then .throw (duplicateIndex d) else pure ()
    else pure ()

/-- The resolver of ON CONFLICT: `excluded` is the proposed row, any other qualifier the
existing one. -/
def conflictResolver (proposed cells : Data) (fields : List Bytes) : ExecM Value :=
  if 1 < fields.length ∧ env.equalFold (fields.dropLast.getLastD []) (str "excluded") then
    columnValue env sch proposed (fields.getLastD [])
  else columnValue env sch cells (fields.getLastD [])

/-- DO UPDATE of `handleOnConflict` up to RETURNING: the new row. -/
def writeConflict (sch : TableSchema) (table : Bytes) (params : Data) (key : Bytes)
    (proposed : Data) (existingRaw : Val) (sets : List (Bytes × Expr)) : Stm Data := do
  let existing ← Prog.ofExcept (decodeRow existingRaw sch.cols.length)
  let n ← Prog.tick
  let cells ← Prog.ofExcept (applySets env sch
    (fun cells => ⟨params, conflictResolver env sch proposed cells, none⟩) (Site.root n) sets existing)
  let defs ← loadIndexes sess table
  indexEntries env sess sch defs existing key false
  Prog.write (assignment key (encodeRow cells))
  indexEntries env sess sch defs cells key true
  pure cells

def handleOnConflict (proposed : Data) (existingRaw : Val) (oc : OnConflict) : Stm Result :=
  match oc with
  | .doNothing =>
    -- with RETURNING the result of `projectReturning` is returned as it is, without a command
    match s.returning with
    | .none => pure ⟨"INSERT", 0, []⟩
    | _ => pure ⟨"", 0, []⟩
  | .doUpdate sets => do
    let cells ← writeConflict env sess sch s.table params key proposed existingRaw sets
    result env "INSERT" sch s.table s.returning params [cells]

/-- `storeNewRow` up to RETURNING: UNIQUE, the row, its index entries. -/
def writeNewRow (cells : Data) : Stm Unit := do
  let defs ← loadIndexes sess table
  insertUnique env sess sch cells key defs
  Prog.write (assignment key (encodeRow cells))
  indexEntries env sess sch defs cells key true

/-- The end of `execInsert`. -/
def storeNewRow (cells : Data) : Stm Result := do
  writeNewRow env sess s.table sch key cells
  result env "INSERT" sch s.table s.returning params [cells]

/-- The new row of an INSERT, with defaults and generated columns, checked on its own. -/
def newRow : Stm Data := do
  if s.values = [] then .throw ⟨"0A000", "only INSERT ... VALUES (...) is supported", []⟩
  else do
    let n ← Prog.tick
    let values ← Prog.ofExcept (evalValues env params (Site.root n) s.values)
    let provided ← Prog.ofExcept (assembleRow env sch s values)
    let cells ← applyDefaults env sess (sch.cols.zip provided)
    let m ← Prog.tick
    Prog.ofExcept (finishRow env sch s.table params cells (Site.root m))

/-- What is stored at the key of a new row; for `otel_spans` the code does not look. -/
def storedAt (table key : Bytes) : Stm (Option Val) := if table = otelSpansTable then pure none else Prog.read key

/-- `execInsert` before it writes: the schema, the new row, its key and what is stored there. -/
def insertTarget : Stm (TableSchema × Data × Bytes × Option Val) := do
  let sch ← resolveSchema sess s.table
  let cells ← newRow env sess sch s params
  enforceFKChild env sess sch cells
  checkPolicies env sess .insert sch s.table params cells
  let key ← insertKey sess s.table sch cells
  let existing ← storedAt s.table key
  pure (sch, cells, key, existing)

/-- The rest of `execInsert`. -/
def insertInto (t : TableSchema × Data × Bytes × Option Val) : Stm Result :=
  match t.2.2.2 with
  | none => storeNewRow env sess t.1 s params t.2.2.1 t.2.1
  | some raw =>
    match s.onConflict with
    | none => .throw ⟨"23505", "duplicate key value violates unique constraint on %q", [s.table]⟩
    | some oc => handleOnConflict env sess t.1 s params t.2.2.1 t.2.1 raw oc

/-- `execInsert`, the single-row path. -/
def execInsert : Stm Result := insertTarget env sess s params >>= insertInto env sess s params

/-! ## UPDATE -/

/-- The old tuple of `execUpdate`; one that does not encode counts as empty. -/
def oldTuple (columns : List Bytes) (oldCells : Data) : Bytes :=
  match encodeIndexTuple env sch columns oldCells with
  | .ok (some t) => t
  | _ => []

/-- UNIQUE on UPDATE: only for tuples that changed. -/
def updateUnique (defs : List IndexDef) : Stm Unit :=
  Prog.forEach defs fun d => if d.unique then do
      match ← Prog.ofExcept (encodeIndexTuple env sch d.columns cells) with
      | none => pure ()
      | some tuple =>
        if tuple = oldTuple env sch d.columns oldCells then pure ()
        else do
          let dup ← indexHasOtherPK sess d tuple (primaryKeyBytes sch cells key)
          if dup then .throw (duplicateIndex d) else pure ()
    else pure ()

/-- The new cells of a targeted row, checked on their own. -/
def updatedCells (s : UpdateStmt) (sch : TableSchema) (params oldCells : Data)
    (site : Site) : ExecM Data := do
  let cells ← applySets env sch (rlsScope env sch s.table sess params) site.l s.sets oldCells
  finishRow env sch s.table params cells site.r

/-- The parent side of UPDATE: referential actions for a row that changed. -/
def updateParent : Stm Unit :=
  if parentRowRefChanged oldCells cells then applyFKUpdateActions env sess table sch oldCells cells
  else pure ()

/-- The checks and the writes for a row with new cells. -/
def storeUpdated (table : Bytes) (sch : TableSchema) (defs : List IndexDef) (params : Data) (r : ScanRow)
    (cells : Data) : Stm (Option Data) := do
  enforceFKChild env sess sch cells
  checkPolicies env sess .update sch table params cells
  updateParent env sess table sch r.cells cells
  updateUnique env sess sch r.cells cells r.key defs
  replaceRow env sess table sch defs r cells
  pure (some cells)

/-- The body of the loop of `execUpdate`: the new cells of a row that was updated. -/
def updateRow (s : UpdateStmt) (sch : TableSchema) (defs : List IndexDef)
    (params : Data) (r : ScanRow) : Stm (Option Data) := do
  let n ← Prog.tick
  let site := Site.root n
  let targeted ← Prog.ofExcept
    (targetsRow env sess .update sch s.table s.whereClause params r.cells site.l)
  if targeted then do
    let cells ← Prog.ofExcept (updatedCells env sess s sch params r.cells site.r)
    storeUpdated env sess s.table sch defs params r cells
  else pure none

def execUpdate (s : UpdateStmt) (params : Data) : Stm Result := do
  let sc ← scanTable sess s.table
  let defs ← loadIndexes sess s.table
  let affected ← Prog.collect sc.2 (updateRow env sess s sc.1 defs params)
  result env "UPDATE" sc.1 s.table s.returning params affected

/-! ## DELETE -/

/-- The referential actions and the removal of a targeted row. -/
def deleteTargeted (defs : List IndexDef) (r : ScanRow) : Stm (Option Data) := do
  enforceFKParent env sess table sch r.cells
  removeRow env sess table sch defs r
  pure (some r.cells)

/-- The body of the loop of `execDelete`. -/
def deleteRow (s : DeleteStmt) (sch : TableSchema) (defs : List IndexDef)
    (params : Data) (r : ScanRow) : Stm (Option Data) := do
  let n ← Prog.tick
  let targeted ← Prog.ofExcept
    (targetsRow env sess .delete sch s.table s.whereClause params r.cells (Site.root n))
  if targeted then deleteTargeted env sess s.table sch defs r else pure none

def execDelete (s : DeleteStmt) (params : Data) : Stm Result := do
  let sc ← scanTable sess s.table
  let defs ← loadIndexes sess s.table
  let affected ← Prog.collect sc.2 (deleteRow env sess s sc.1 defs params)
  result env "DELETE" sc.1 s.table s.returning params affected

/-! ## Calls -/

inductive DmlStmt where
  | insert (s : InsertStmt)
  | update (s : UpdateStmt)
  | delete (s : DeleteStmt)

/-- A statement as a session executes it. -/
structure DmlCall where
  sess : Session
  stmt : DmlStmt
  params : Data

def DmlCall.run (c : DmlCall) : Stm Result :=
  match c.stmt with
  | .insert s => execInsert env c.sess s c.params
  | .update s => execUpdate env c.sess s c.params
  | .delete s => execDelete env c.sess s c.params

/-! ## The parts that only read -/

section reads
open Prog hiding pure bind
variable {env sess sch cells} {P : Mutation Bytes Val → Prop}

variable {table key params} {defs : List IndexDef}

theorem checkPolicies_writes {cmd : Command} : (checkPolicies env sess cmd sch table params cells).Writes P := by
  unfold checkPolicies
  split
  · exact Writes.bind Writes.tick fun _ => Writes.ofExcept _
  · exact Writes.pure _

theorem result_writes {command : String} {returning : Returning} {affected : List Data} :
    (result env command sch table returning params affected).Writes P := by
  unfold result
  split
  · exact Writes.pure _
  · exact Writes.bind Writes.tick fun _ =>
      Writes.bind (Writes.ofExcept _) fun _ => Writes.pure _

theorem noOtherPK_writes {d : IndexDef} {tuple pk : Bytes} : Prog.Writes P (do
    let dup ← indexHasOtherPK sess d tuple pk
    if dup then .throw (duplicateIndex d) else pure () : Stm Unit) := by
  refine Writes.bind indexHasOtherPK_writes fun dup => ?_
  split
  · exact Writes.throw _
  · exact Writes.pure _

theorem insertUnique_writes : (insertUnique env sess sch cells key defs).Writes P := by
  refine Writes.forEach fun d _ => ?_
  split
  · refine Writes.bind (Writes.ofExcept _) (fun o => ?_)
    split
    · exact Writes.pure _
    · exact noOtherPK_writes
  · exact Writes.pure _

theorem updateUnique_writes {oldCells : Data}
    : (updateUnique env sess sch oldCells cells key defs).Writes P := by
  refine Writes.forEach fun d _ => ?_
  split
  · refine Writes.bind (Writes.ofExcept _) (fun o => ?_)
    split
    · exact Writes.pure _
    · split
      · exact Writes.pure _
      · exact noOtherPK_writes
  · exact Writes.pure _

section counters
variable (h : ∀ name text, P (assignment (seqKey sess name) (.text text)))
include h

theorem applyDefaults_writes (cs : List (ColMeta × Option Datum)) : (applyDefaults env sess cs).Writes P := by
  induction cs with
  | nil => exact Writes.pure _
  | cons c cs ih =>
    obtain ⟨c, d⟩ := c
    cases d with
    | some d => exact Writes.bind ih fun _ => Writes.pure _
    | none =>
      unfold applyDefaults
      cases c.defaultSpec with
      | none => exact Writes.bind (Writes.pure _) fun _ => Writes.bind ih fun _ => Writes.pure _
      | some spec =>
        refine Writes.bind (evalDefault_writes.mono fun m hm => ?_) fun _ => Writes.bind ih fun _ => Writes.pure _
        obtain ⟨name, text, rfl⟩ := hm
        exact h name text

/-- A new row draws from sequences and writes nothing else. -/
theorem newRow_writes {s : InsertStmt} : (newRow env sess sch s params).Writes P := by
  unfold newRow
  split
  · exact Writes.throw _
  · exact Writes.bind Writes.tick fun _ => Writes.bind (Writes.ofExcept _) fun _ =>
      Writes.bind (Writes.ofExcept _) fun _ => Writes.bind (applyDefaults_writes h _) fun _ =>
        Writes.bind Writes.tick fun _ => Writes.ofExcept _

end counters

end reads

/-! ## Columns that stay -/

section frames
variable {env sch} {i : Nat}

theorem applySets_frame {scope : Data → Scope} {site : Site} {sets : List (Bytes × Expr)}
    {cells cells' : Data} (h : applySets env sch scope site sets cells = .ok cells')
    (hi : ∀ a ∈ sets, sch.colIndex env a.1 ≠ some i) : cellAt cells' i = cellAt cells i := by
  induction sets generalizing site cells with
  | nil => rw [Except.ok.inj h]
  | cons a sets ih =>
    obtain ⟨col, e⟩ := a
    unfold applySets at h
    split at h
    · cases h
    · rename_i idx hidx
      cases hv : e.eval env (scope cells) site.l with
      | error er => simp [hv, bind, Except.bind] at h
      | ok v =>
        simp only [hv, bind, Except.bind] at h
        have hne : idx ≠ i := fun heq => hi (col, e) mem_cons_self (heq ▸ hidx)
        exact (ih h fun a ha => hi a (mem_cons_of_mem _ ha)).trans (cellAt_set_ne cells hne v.cell)

theorem enforceNotNull_ok {cells : Data} (h : enforceNotNull sch cells = .ok ()) {c : ColMeta}
    (hc : (c, i) ∈ sch.cols.zipIdx) (hnn : c.notNull = true) : cellAt cells i ≠ none := by
  unfold enforceNotNull at h
  split at h
  · cases h
  · rename_i hnone
    unfold nullViolation at hnone
    have hall := find?_eq_none.mp (Option.map_eq_none_iff.mp hnone) (c, i) hc
    intro hnull
    exact hall (by simp [hnn, hnull])

/-- A row that passed its checks: its generated columns were set, nothing else changed, and the
NOT NULL columns have values. -/
theorem finishRow_ok {table : Bytes} {params cells cells' : Data} {site : Site}
    (h : finishRow env sch table params cells site = .ok cells') :
    ((∀ c, (c, i) ∈ sch.cols.zipIdx → c.generated = false) → cellAt cells' i = cellAt cells i) ∧
      ∀ c, (c, i) ∈ sch.cols.zipIdx → c.notNull = true → cellAt cells' i ≠ none := by
  unfold finishRow at h
  cases hgen : applyGeneratedColumns env sch table params site.l sch.cols.zipIdx cells with
  | error e => simp [hgen, bind, Except.bind] at h
  | ok cells1 =>
    cases hnn : enforceNotNull sch cells1 with
    | error e => simp [hgen, hnn, bind, Except.bind] at h
    | ok u =>
      cases hck : enforceChecks env sch table cells1 params site.r sch.cols with
      | error e => simp [hgen, hnn, hck, bind, Except.bind] at h
      | ok u' =>
        simp only [hgen, hnn, hck, bind, Except.bind, Except.ok.injEq] at h
        subst h
        exact ⟨fun hi => (applyGeneratedColumns_frame hgen hi).1, fun c hc hnull => enforceNotNull_ok hnn hc hnull⟩

end frames

end BasuyuDb.Executor
