import BasuyuDb.Executor.Dml

/-
  engine/internal/executor/catalog.go, ddl.go, ddl_alter.go, defaults.go, constraints.go: CREATE
  TABLE, DROP TABLE, TRUNCATE and ALTER TABLE. The grammar makes an ALTER TABLE of exactly one
  action.
-/

namespace BasuyuDb.Executor
open KvLib Storage

variable (env : Env)

/-! ## Statements -/

/-- `ColumnDef`. The parser sets `notNull` with an inline PRIMARY KEY. -/
structure ColumnDef where
  colName : Bytes
  typeName : Bytes
  notNull : Bool
  primaryKey : Bool
  unique : Bool
  defaultExpr : Option Expr
  check : Option Expr
  fkTable : Bytes
  fkColumn : Bytes
  fkOnDelete : FkAction
  fkOnUpdate : FkAction
  identity : Bool
  generated : Option Expr

/-- A column definition without constraints. -/
def ColumnDef.plain (name typeName : String) : ColumnDef :=
  ⟨str name, str typeName, false, false, false, none, none, [], [], .unspecified, .unspecified, false, none⟩

/-- `AlterTableConstraint`, also the table constraints of CREATE TABLE. -/
inductive TableConstraint where
  | key (primary : Bool) (name : Bytes) (columns : List Bytes)
  | foreignKey (columns : List Bytes) (refTable : Bytes) (refColumns : List Bytes)
      (onDelete onUpdate : FkAction)
  | check (e : Expr)

structure CreateStmt where
  table : Bytes
  elts : List ColumnDef
  constraints : List TableConstraint
  ifNotExists : Bool

/-- The actions of ALTER TABLE that end by storing the changed schema. -/
inductive AlterCmd where
  | addColumn (c : ColumnDef)
  | dropColumn (name : Bytes)
  | renameColumn (name newName : Bytes)
  | columnType (name typeName : Bytes) (usingExpr : Option Expr)
  | setDefault (name : Bytes) (e : Expr)
  | dropDefault (name : Bytes)
  | setNotNull (name : Bytes)
  | dropNotNull (name : Bytes)
  | addConstraint (c : TableConstraint)
  | enableRLS
  | disableRLS
  | forceRLS
  | noForceRLS

inductive AlterAction where
  | renameTable (newName : Bytes)
  | change (cmd : AlterCmd)

structure AlterTableStmt where
  table : Bytes
  action : AlterAction

/-! ## Defaults -/

def serialBaseOID (typeName : Bytes) : Option Nat :=
  let t := env.toLower (env.trimSpace typeName)
  if t = str "serial" ∨ t = str "serial4" then some OIDInt4
  else if t = str "bigserial" ∨ t = str "serial8" then some OIDInt8
  else if t = str "smallserial" ∨ t = str "serial2" then some OIDInt2
  else none

def unsupportedDefault : ExecError := ⟨"0A000", "unsupported DEFAULT expression %T", []⟩

/-- `niladicName`, and the defaults its two canonical names stand for. -/
def niladicDefault (name : Bytes) : ExecM DefaultSpec :=
  if env.toLower name ∈ [str "now", str "current_timestamp", str "transaction_timestamp",
      str "statement_timestamp", str "clock_timestamp"] then .ok .now
  else if env.toLower name ∈ [str "gen_random_uuid", str "uuid_generate_v4"] then .ok .uuid
  else .error unsupportedDefault

def classifyDefault : Expr → ExecM DefaultSpec
  | .const c =>
    match (evalConst c).cell with
    | none => .ok (.const [] OIDUnknown)
    | some text => .ok (.const text (evalConst c).oid)
  | .typeCast a typeName => do
    match ← classifyDefault a with
    | .const text _ => .ok (.const text (env.oidForTypeName typeName))
    | spec => .ok spec
  | .call name _ => niladicDefault env name
  | .column fields => niladicDefault env (joinDots fields)
  | _ => .error unsupportedDefault

/-! ## Columns and constraints of a schema -/

variable (sess : Session) (sch : TableSchema) (table : Bytes)

/-- The column of a CREATE TABLE, without its table-level constraints. -/
def newColumn (cd : ColumnDef) : ExecM ColMeta := do
  let base : ColMeta := ⟨cd.colName, env.oidForTypeName cd.typeName, cd.notNull, none, [],
    cd.fkTable, if cd.fkTable = [] then [] else cd.fkColumn,
    if cd.fkTable = [] then .unspecified else cd.fkOnDelete,
    if cd.fkTable = [] then .unspecified else cd.fkOnUpdate, [], false, []⟩
  let seq := DefaultSpec.serial (table ++ str "_" ++ cd.colName ++ str "_seq")
  let c ←
    match serialBaseOID env cd.typeName with
    | some oid => .ok { base with typeOID := oid, notNull := true, defaultSpec := some seq }
    | none =>
      if cd.identity then .ok { base with notNull := true, defaultSpec := some seq }
      else
        match cd.generated, cd.defaultExpr with
        | some e, _ => do .ok { base with generated := true, generatedExpr := ← env.deparseExpr e }
        | none, some e => do .ok { base with defaultSpec := some (← classifyDefault env e) }
        | none, none => .ok base
  match cd.check with
  | none => .ok c
  | some e => do .ok { c with check := ← env.deparseExpr e }

def multiplePrimaryKeys : ExecError := ⟨"42P16", "multiple primary keys for table %q are not allowed", [table]⟩

/-- The index behind a PRIMARY KEY or UNIQUE constraint. -/
def uniqueDef (table name : Bytes) (columns : List Bytes) : IndexDef := ⟨name, table, columns, true, [], []⟩

/-- The loop over the column definitions: the schema and the implicit indexes so far. -/
def addColumns (table : Bytes) :
    List ColumnDef → TableSchema × List IndexDef → ExecM (TableSchema × List IndexDef)
  | [], acc => .ok acc
  | cd :: cds, (sch, idx) => do
    let c ← newColumn env table cd
    if cd.primaryKey ∧ sch.pkIndex.isSome then .error (multiplePrimaryKeys table)
    else
      addColumns table cds
        ({ sch with
            cols := sch.cols ++ [c]
            pkIndex := if cd.primaryKey then some sch.cols.length else sch.pkIndex },
          if cd.unique ∧ ¬cd.primaryKey then
            idx ++ [uniqueDef table (table ++ str "_" ++ cd.colName ++ str "_key") [cd.colName]]
          else idx)

/-- The name of a key constraint: as given, or from its table and columns. -/
def keyName (primary : Bool) (name : Bytes) (columns : List Bytes) : Bytes :=
  if name ≠ [] then name
  else table ++ str "_" ++ List.intercalate (str "_") columns ++ str "_" ++
    (if primary then str "pkey" else str "key")

/-- Change the column at a position. -/
def TableSchema.modifyCol (i : Nat) (f : ColMeta → ColMeta) : TableSchema := { sch with cols := sch.cols.modify i f }

/-- The schema effect of PRIMARY KEY: NOT NULL on its columns; a single column of a table
without a row key becomes the row key. -/
def withPrimaryKey (columns : List Bytes) : TableSchema :=
  let cols := columns.foldl (fun s col => match s.colIndex env col with
    | some ci => s.modifyCol ci fun c => { c with notNull := true }
    | none => s) sch
  { cols with
    pkIndex :=
      match sch.pkIndex, columns with
      | none, [col] => sch.colIndex env col
      | pk, _ => pk }

def missingColumn (col table : Bytes) : ExecError :=
  ⟨"42703", "column %q of relation %q does not exist", [col, table]⟩

/-- The column pairs of a foreign key; a referenced column not given is the empty name. -/
def fkPairs (columns refColumns : List Bytes) : List FkColPair :=
  columns.zipIdx.map fun ci => ⟨ci.1, refColumns.getD ci.2 []⟩

/-- `recordForeignKey`: on the first local column. -/
def recordForeignKey (columns : List Bytes) (refTable : Bytes)
    (refColumns : List Bytes) (onDelete onUpdate : FkAction) : ExecM TableSchema :=
  match columns with
  | [] => .error ⟨"42601", "FOREIGN KEY requires at least one column", []⟩
  | first :: _ =>
    if refColumns ≠ [] ∧ refColumns.length ≠ columns.length then
      .error ⟨"42830", "number of referencing and referenced columns for foreign key disagree", []⟩
    else
      match sch.colIndex env first, columns.find? (fun c => (sch.colIndex env c).isNone) with
      | none, _ => .error (missingColumn first table)
      | some _, some c => .error (missingColumn c table)
      | some anchor, none =>
        let pairs := fkPairs columns refColumns
        .ok (sch.modifyCol anchor fun c => { c with
            fkTable := refTable
            fkColumn := refColumns.getD 0 []
            fkOnDelete := onDelete
            fkOnUpdate := onUpdate
            fkCols := if 1 < pairs.length then pairs else [] })

/-- `recordCheck`: on the first column, joined with a CHECK already there. -/
def recordCheck (e : Expr) : ExecM TableSchema := do
  let txt ← env.deparseExpr e
  if sch.cols = [] then .error ⟨"42P10", "cannot add CHECK to a table with no columns", []⟩
  else
    .ok (sch.modifyCol 0 fun c =>
      { c with check := if c.check = [] then txt else str "(" ++ c.check ++ str " AND " ++ txt ++ str ")" })

/-! ## CREATE TABLE -/

/-- A table constraint of CREATE TABLE. -/
def addTableConstraint (acc : TableSchema × List IndexDef) :
    TableConstraint → ExecM (TableSchema × List IndexDef)
  | .key primary name columns =>
    match columns.find? (fun c => (acc.1.colIndex env c).isNone) with
    | some c => .error ⟨"42703", "column %q named in key does not exist", [c]⟩
    | none =>
      if primary ∧ acc.1.pkIndex.isSome then .error (multiplePrimaryKeys table)
      else .ok (if primary then withPrimaryKey env acc.1 columns else acc.1,
        acc.2 ++ [uniqueDef table (keyName table primary name columns) columns])
  | .foreignKey columns refTable refColumns onDelete onUpdate => do
    .ok (← recordForeignKey env acc.1 table columns refTable refColumns onDelete onUpdate, acc.2)
  | .check e => do .ok (← recordCheck env acc.1 e, acc.2)

/-- The schema and the implicit indexes of CREATE TABLE. -/
def newTable (s : CreateStmt) : ExecM (TableSchema × List IndexDef) := do
  let acc ← addColumns env s.table s.elts (⟨s.table, [], none, false, false, []⟩, [])
  s.constraints.foldlM (addTableConstraint env s.table) acc

/-- Store an index list, unless it is empty. -/
def writeIndexList (defs : List IndexDef) : Stm Unit :=
  if defs = [] then pure ()
  else Prog.write (assignment (indexListKey sess table) (.indexes defs))

def relationExists : ExecError := ⟨"42P07", "relation %q already exists", [table]⟩

/-- `execCreateTable`, for texts in UTF-8: the schema is stored as JSON, which replaces other bytes. -/
def execCreateTable (s : CreateStmt) : Stm Result := do
  match ← Prog.read (schemaKey sess.ns s.table) with
  | some (.schema _) =>
    if s.ifNotExists then pure ⟨"CREATE TABLE", 0, []⟩ else .throw (relationExists s.table)
  | _ => do
    let acc ← Prog.ofExcept (newTable env s)
    Prog.write (assignment (schemaKey sess.ns s.table) (.schema acc.1))
    writeIndexList sess s.table acc.2
    pure ⟨"CREATE TABLE", 0, []⟩

/-! ## DROP TABLE and TRUNCATE -/

def deletePrefix (p : Bytes) : Stm Unit := do
  let kvs ← Prog.range p
  Prog.forEach kvs fun kv => Prog.write (deletion kv.1)

def dropEntries (defs : List IndexDef) : Stm Unit :=
  Prog.forEach defs fun d => deletePrefix (indexColumnPrefix sess.ns sess.branch d.table d.name)

def dropTableData : Stm Unit := do
  deletePrefix (rowPrefix sess.ns sess.branch table)
  let defs ← loadIndexes sess table
  dropEntries sess defs

def execDropTable (ifExists : Bool) : Stm Result := do
  match ← Prog.read (schemaKey sess.ns table) with
  | none =>
    if ifExists then pure ⟨"DROP TABLE", 0, []⟩
    else .throw ⟨"42P01", "relation %q does not exist", [table]⟩
  | some (.schema _) => do
    dropTableData sess table
    Prog.write (deletion (indexListKey sess table))
    Prog.write (deletion (schemaKey sess.ns table))
    pure ⟨"DROP TABLE", 0, []⟩
  | some _ => .throw ⟨"XX000", "corrupt schema for %q: %v", [table]⟩

def execTruncate : Stm Result := do
  let _ ← loadSchema sess table
  dropTableData sess table
  pure ⟨"TRUNCATE TABLE", 0, []⟩

/-! ## ALTER TABLE -/

/-- Change a named column, or fail. -/
def alterColumn (table name : Bytes) (f : ColMeta → ColMeta) : ExecM TableSchema :=
  match sch.colIndex env name with
  | none => .error (missingColumn name table)
  | some ci => .ok (sch.modifyCol ci f)

/-- ADD COLUMN stores the name, the type and NOT NULL, and nothing else of the definition. -/
def addColumn (cd : ColumnDef) : ExecM TableSchema :=
  if (sch.colIndex env cd.colName).isSome then
    .error ⟨"42701", "column %q of relation %q already exists", [cd.colName, table]⟩
  else if cd.primaryKey then .error ⟨"0A000", "ADD COLUMN ... PRIMARY KEY is not supported", []⟩
  else .ok { sch with cols := sch.cols ++ [⟨cd.colName, env.oidForTypeName cd.typeName, cd.notNull,
    none, [], [], [], .unspecified, .unspecified, [], false, []⟩] }

/-- The schema without the column at a position; the row key moves with its column. -/
def TableSchema.withoutCol (idx : Nat) : TableSchema :=
  { sch with
    cols := sch.cols.eraseIdx idx
    pkIndex := sch.pkIndex.map (fun pk => if idx < pk then pk - 1 else pk) }

/-- The index list after DROP COLUMN, when it changed. -/
def writeKept (defs kept : List IndexDef) : Stm Unit :=
  if kept.length = defs.length then pure ()
  else Prog.write (assignment (indexListKey sess table) (.indexes kept))

/-- DROP COLUMN rewrites every row and drops the indexes on the column. -/
def dropColumn (table name : Bytes) : Stm TableSchema := do
  match sch.colIndex env name with
  | none => .throw (missingColumn name table)
  | some idx =>
    if sch.pkIndex = some idx then
      .throw ⟨"0A000", "cannot drop primary key column %q", [name]⟩
    else do
      let sc ← scanTable sess table
      Prog.forEach sc.2 fun r => Prog.write (assignment r.key (encodeRow (r.cells.eraseIdx idx)))
      let defs ← loadIndexes sess table
      dropEntries sess (defs.filter fun d => d.hasColumn env name)
      writeKept sess table defs (defs.filter fun d => !d.hasColumn env name)
      pure (sch.withoutCol idx)

/-- The converted cell of ALTER COLUMN TYPE: USING on the row, else the old text; NULL stays. -/
def convertCell (ci newOID : Nat) (usingExpr : Option Expr)
    (cells : Data) (site : Site) : ExecM Datum := do
  let d ←
    match usingExpr with
    | some e => do .ok (← e.eval env (rowScope env sch table cells) site).cell
    | none => .ok (cellAt cells ci)
  match d with
  | none => .ok none
  | some text => do .ok (some (← env.castTextToOID text newOID))

/-- The first pass of `rewriteColumnType`: the converted rows; the entries under the old type go. -/
def convertRows (sess : Session) (sch : TableSchema) (table : Bytes) (ci newOID : Nat)
    (usingExpr : Option Expr) (affected : List IndexDef) :
    List ScanRow → Stm (List (ScanRow × Data))
  | [] => pure []
  | r :: rows => do
    let n ← Prog.tick
    let d ← Prog.ofExcept (convertCell env sch table ci newOID usingExpr r.cells (Site.root n))
    indexEntries env sess sch affected r.cells r.key false
    let rest ← convertRows sess sch table ci newOID usingExpr affected rows
    pure ((r, r.cells.set ci d) :: rest)

/-- `rewriteColumnType`: only the indexes on the column and those with expressions change. -/
def rewriteColumnType (ci newOID : Nat) (usingExpr : Option Expr) : Stm TableSchema := do
  let sc ← scanTable sess table
  let defs ← loadIndexes sess table
  let affected := defs.filter fun d => d.hasColumn env (sch.nameAt ci) || d.isExpr
  let converted ← convertRows env sess sch table ci newOID usingExpr affected sc.2
  let sch' := sch.modifyCol ci (fun c => { c with typeOID := newOID })
  Prog.forEach converted fun rc => do
    Prog.write (assignment rc.1.key (encodeRow rc.2))
    indexEntries env sess sch' affected rc.2 rc.1.key true
  pure sch'

def columnType (table name typeName : Bytes) (usingExpr : Option Expr) : Stm TableSchema :=
  match sch.colIndex env name with
  | none => .throw (missingColumn name table)
  | some ci => rewriteColumnType env sess sch table ci (env.oidForTypeName typeName) usingExpr

/-- `buildUniqueIndex`: as CREATE INDEX, over plain columns. -/
def buildUniqueIndex (table name : Bytes) (columns : List Bytes) : Stm Unit := do
  let defs ← loadIndexes sess table
  if defs.any (fun d => env.equalFold d.name name) then
    .throw ⟨"42P07", "index %q already exists", [name]⟩
  else do
    let nd := uniqueDef table name columns
    Prog.write (assignment (indexListKey sess table) (.indexes (defs ++ [nd])))
    let sc ← scanTable sess table
    backfill env sess sch nd
      ⟨"23505", "could not create unique constraint %q: duplicate key", [name]⟩ sc.2 []

def alterAddConstraint : TableConstraint → Stm TableSchema
  | .key primary name columns =>
    match columns.find? (fun c => (sch.colIndex env c).isNone) with
    | some c => .throw (missingColumn c table)
    | none => do
      let sch' := if primary then withPrimaryKey env sch columns else sch
      buildUniqueIndex env sess sch' table (keyName table primary name columns) columns
      pure sch'
  | .foreignKey columns refTable refColumns onDelete onUpdate =>
    Prog.ofExcept (recordForeignKey env sch table columns refTable refColumns onDelete onUpdate)
  | .check e => Prog.ofExcept (recordCheck env sch e)

/-- The changed schema, with the rows and indexes rewritten on the way. -/
def alterTable : AlterCmd → Stm TableSchema
  | .addColumn cd => Prog.ofExcept (addColumn env sch table cd)
  | .dropColumn name => dropColumn env sess sch table name
  | .renameColumn name newName => Prog.ofExcept (alterColumn env sch table (env.toLower name)
      (fun c => { c with name := env.toLower newName }))
  | .columnType name typeName usingExpr => columnType env sess sch table name typeName usingExpr
  | .setDefault name e => do
    let _ ← Prog.ofExcept (alterColumn env sch table name fun c => c)
    let spec ← Prog.ofExcept (classifyDefault env e)
    Prog.ofExcept (alterColumn env sch table name fun c => { c with defaultSpec := some spec })
  | .dropDefault name =>
    Prog.ofExcept (alterColumn env sch table name fun c => { c with defaultSpec := none })
  | .setNotNull name =>
    Prog.ofExcept (alterColumn env sch table name fun c => { c with notNull := true })
  | .dropNotNull name =>
    Prog.ofExcept (alterColumn env sch table name fun c => { c with notNull := false })
  | .addConstraint c => alterAddConstraint env sess sch table c
  | .enableRLS => pure { sch with rlsEnabled := true }
  | .disableRLS => pure { sch with rlsEnabled := false }
  | .forceRLS => pure { sch with rlsForced := true }
  | .noForceRLS => pure { sch with rlsForced := false }

/-- The new key of a row under RENAME TO, or its old one. -/
def renamedKey (r : ScanRow) : Bytes := rowKey sess.ns sess.branch table (primaryKeyBytes sch r.cells r.key)

/-- `renameTable`: tables are keyed by name, so rows and entries are copied and deleted. -/
def renameTable (oldName newName : Bytes) (sch : TableSchema) : Stm Unit :=
  if env.equalFold oldName newName then pure ()
  else do
    match ← Prog.read (schemaKey sess.ns newName) with
    | some (.schema _) => .throw (relationExists newName)
    | _ => do
      let defs ← loadIndexes sess oldName
      let sc ← scanTable sess oldName
      Prog.forEach sc.2 fun r => Prog.write (assignment (renamedKey sess sch newName r) (encodeRow r.cells))
      let newDefs := defs.map (fun d => { d with table := newName })
      dropEntries sess defs
      Prog.forEach sc.2 (fun r => indexEntries env sess sch newDefs r.cells r.key true)
      writeIndexList sess newName newDefs
      Prog.write (deletion (indexListKey sess oldName))
      Prog.forEach sc.2 (fun r => let k := renamedKey sess sch oldName r
        Prog.write (if sess.branch = mainBranch then deletion k else assignment k .tombstone))
      Prog.write (assignment (schemaKey sess.ns newName) (.schema { sch with name := newName }))
      Prog.write (deletion (schemaKey sess.ns oldName))

def execAlterTable (s : AlterTableStmt) : Stm Result := do
  let sch ← loadSchema sess s.table
  match s.action with
  | .renameTable newName => do
    renameTable env sess s.table newName sch
    pure ⟨"ALTER TABLE", 0, []⟩
  | .change cmd => do
    let sch' ← alterTable env sess sch s.table cmd
    Prog.write (assignment (schemaKey sess.ns s.table) (.schema sch'))
    pure ⟨"ALTER TABLE", 0, []⟩

end BasuyuDb.Executor
