import BasuyuDb.Executor.Dml
import BasuyuDb.Executor.Select

/-
  engine/internal/executor/advanced_dml.go: UPDATE ... FROM and DELETE ... USING. The rows of the
  FROM items are read once, each target row is joined with the first of them that satisfies WHERE,
  and from there on the row goes the way of UPDATE and DELETE.
-/

namespace BasuyuDb.Executor
open KvLib Storage

variable (env : Env)

/-! ## FROM items -/

/-- An item of a FROM or USING list: a stored table, or anything else that yields rows (a join, a
subquery, a view, a table function), which is a program that only reads. -/
inductive FromItem where
  | table (relName aliasName : Bytes)
  | query (rows : Stm (List (List Binding))) (reads : rows.Writes fun _ => False)

variable (sess : Session)

def materialize : FromItem → Stm (List (List Binding))
  | .table relName aliasName => do
    let sc ← scanTable sess relName
    pure (sc.2.map fun r => [⟨aliasName, sc.1, r.cells⟩])
  | .query rows _ => rows

/-- The rows of all items, one item after the other: they are not combined with each other. -/
def materializeAll (sess : Session) : List FromItem → Stm (List (List Binding))
  | [] => pure []
  | f :: fs => do
    let rows ← materialize sess f
    let rest ← materializeAll sess fs
    pure (rows ++ rest)

/-- WHERE over a target row joined with a FROM row, without a session. -/
def joinHolds (whereClause : Option Expr) (params : Data) (row : List Binding) (site : Site) :
    ExecM Bool :=
  match whereClause with
  | none => .ok true
  | some w => do .ok (asBool (← w.eval env ⟨params, combinedResolver env row, none⟩ site))

/-- The first FROM row that joins with the target row. -/
def firstMatch (whereClause : Option Expr) (params : Data) (target : Binding) :
    List (List Binding) → Site → ExecM (Option (List Binding))
  | [], _ => .ok none
  | row :: rows, site => do
    if ← joinHolds env whereClause params (target :: row) site.l then .ok (some row)
    else firstMatch whereClause params target rows site.r

/-- USING of row security on a target row. -/
def rlsTargets (cmd : Command) (sch : TableSchema) (table : Bytes)
    (params cells : Data) (site : Site) : ExecM Bool :=
  if rlsApplies sch sess then rlsRowAllowed env sch table sess cmd params cells site else .ok true

/-! ## UPDATE ... FROM -/

structure UpdateFromStmt extends UpdateStmt where
  fromClause : List FromItem

variable (s : UpdateFromStmt) (sch : TableSchema) (params : Data)

/-- The FROM row a target row is updated with; without FROM rows it is the empty one, and WHERE is
decided after row security on the target row alone. -/
def updateMatch (fromRows : List (List Binding)) (cells : Data) (site : Site) :
    ExecM (Option (List Binding)) := do
  let target : Binding := ⟨s.table, sch, cells⟩
  let found ←
    if fromRows.isEmpty then .ok (some [])
    else firstMatch env s.whereClause params target fromRows site.l
  match found with
  | none => .ok none
  | some row => do
    let allowed ← rlsTargets env sess .update sch s.table params cells site.r.l
    if allowed then
      match fromRows.isEmpty, s.whereClause with
      | true, some w => do
        let v ← w.eval env (rowsScope env sess params (target :: row)) site.r.r
        .ok (if asBool v then some row else none)
      | _, _ => .ok (some row)
    else .ok none

/-- The new cells of a target row; SET sees the FROM row and the assignments before. -/
def updatedFromCells (row : List Binding) (oldCells : Data) (site : Site) : ExecM Data := do
  let cells ← applySets env sch (fun cells => rowsScope env sess params (⟨s.table, sch, cells⟩ :: row))
    site.l s.sets oldCells
  finishRow env sch s.table params cells site.r

/-- The body of the loop of `execUpdateFrom`. -/
def updateFromRow (defs : List IndexDef)
    (params : Data) (fromRows : List (List Binding)) (r : ScanRow) : Stm (Option Data) := do
  let n ← Prog.tick
  let site := Site.root n
  match ← Prog.ofExcept (updateMatch env sess s sch params fromRows r.cells site.l) with
  | none => pure none
  | some row => do
    let cells ← Prog.ofExcept (updatedFromCells env sess s sch params row r.cells site.r)
    storeUpdated env sess s.table sch defs params r cells

def execUpdateFrom : Stm Result := do
  let sc ← scanTable sess s.table
  let defs ← loadIndexes sess s.table
  let fromRows ← materializeAll sess s.fromClause
  let affected ← Prog.collect sc.2 (updateFromRow env sess s sc.1 defs params fromRows)
  result env "UPDATE" sc.1 s.table s.returning params affected

/-! ## DELETE ... USING -/

structure DeleteUsingStmt extends DeleteStmt where
  usingClause : List FromItem

/-- Whether a target row is deleted: WHERE with a USING row, or on the target row alone when there
is none, then row security. -/
def deleteMatch (s : DeleteUsingStmt) (sch : TableSchema) (params : Data)
    (usingRows : List (List Binding)) (cells : Data) (site : Site) : ExecM Bool := do
  let found ←
    if usingRows.isEmpty then
      match s.whereClause with
      | none => .ok true
      | some w => do .ok (asBool (← w.eval env (checkScope env sch s.table params cells) site.l))
    else do .ok (← firstMatch env s.whereClause params ⟨s.table, sch, cells⟩ usingRows site.l).isSome
  if found then rlsTargets env sess .delete sch s.table params cells site.r else .ok false

/-- The body of the loop of `execDeleteUsing`. -/
def deleteUsingRow (s : DeleteUsingStmt) (sch : TableSchema) (defs : List IndexDef)
    (params : Data) (usingRows : List (List Binding)) (r : ScanRow) : Stm (Option Data) := do
  let n ← Prog.tick
  let targeted ← Prog.ofExcept (deleteMatch env sess s sch params usingRows r.cells (Site.root n))
  if targeted then deleteTargeted env sess s.table sch defs r else pure none

def execDeleteUsing (s : DeleteUsingStmt) (params : Data) : Stm Result := do
  let sc ← scanTable sess s.table
  let defs ← loadIndexes sess s.table
  let usingRows ← materializeAll sess s.usingClause
  let affected ← Prog.collect sc.2 (deleteUsingRow env sess s sc.1 defs params usingRows)
  result env "DELETE" sc.1 s.table s.returning params affected

/-! ## Calls -/

/-- The statements that change rows. -/
inductive RowStmt where
  | dml (s : DmlStmt)
  | updateFrom (s : UpdateFromStmt)
  | deleteUsing (s : DeleteUsingStmt)

/-- A statement as a session executes it. -/
structure RowCall where
  sess : Session
  stmt : RowStmt
  params : Data

def RowCall.run (c : RowCall) : Stm Result :=
  match c.stmt with
  | .dml s => DmlCall.run env ⟨c.sess, s, c.params⟩
  | .updateFrom s => execUpdateFrom env c.sess s c.params
  | .deleteUsing s => execDeleteUsing env c.sess s c.params

theorem materialize_writes {sess : Session} {f : FromItem} : (materialize sess f).Writes (fun _ => False) := by
  cases f with
  | table relName aliasName => exact Prog.Writes.bind scanTable_writes fun _ => Prog.Writes.pure _
  | query rows reads => exact reads

theorem materializeAll_writes {sess : Session} {items : List FromItem} :
    (materializeAll sess items).Writes (fun _ => False) := by
  induction items with
  | nil => exact Prog.Writes.pure _
  | cons f fs ih =>
    exact Prog.Writes.bind materialize_writes fun _ => Prog.Writes.bind ih fun _ => Prog.Writes.pure _

end BasuyuDb.Executor
