import BasuyuDb.Executor.Index

/-
  engine/internal/executor/constraints.go, defaults.go, rls.go: column defaults, generated
  columns, NOT NULL, CHECK, row security, and foreign keys with their referential actions.
  Statements run in autocommit, where no constraint is deferred (`effectiveDeferral` is false).
-/

namespace BasuyuDb.Executor
open KvLib Storage List
open Prog hiding pure bind

variable (env : Env)

/-! ## Defaults and generated columns -/

variable (p : RlsPolicy) (sess : Session) (parentTable : Bytes) (psch : TableSchema) (oldCells newCells : Data)
  (table : Bytes) (sch : TableSchema) (cells : Data)

/-- `seqKey`: beside the schemas. -/
def seqKey (name : Bytes) : Bytes := schemaKey sess.ns (str "#seq#" ++ name)

def nextSequenceVal (name : Bytes) : Stm Int := do
  let cur : Int :=
    match ← Prog.read (seqKey sess name) with
    | some (.text raw) => (parseInt raw).getD 0
    | _ => 0
  let next := wrap64 (cur + 1)
  Prog.write (assignment (seqKey sess name) (.text (formatInt next)))
  pure next

def evalDefault : DefaultSpec → Stm Datum
  | .const text oid => pure (if oid = OIDUnknown ∧ text = [] then none else some text)
  | .now => do pure (some (env.nowText (Site.root (← Prog.tick))))
  | .uuid => do pure (some (env.newUUID (Site.root (← Prog.tick))))
  | .serial seq => do pure (some (formatInt (← nextSequenceVal sess seq)))

/-- The scope of generated columns and CHECKs: the row and the statement's parameters. -/
def checkScope (table : Bytes) (params : Data) (cells : Data) : Scope :=
  ⟨params, rowResolver env sch table cells, none⟩

/-- `applyGeneratedColumns`, over the columns with their positions, left to right. -/
def applyGeneratedColumns (sch : TableSchema) (table : Bytes) (params : Data) (site : Site) :
    List (ColMeta × Nat) → Data → ExecM Data
  | [], cells => .ok cells
  | (c, i) :: cs, cells =>
    if c.generated ∧ c.generatedExpr ≠ [] then do
      let node ← env.parseExpr c.generatedExpr
      let v ← node.eval env (checkScope env sch table params cells) site.l
      applyGeneratedColumns sch table params site.r cs (cells.set i v.cell)
    else applyGeneratedColumns sch table params site.r cs cells

/-! ## NOT NULL and CHECK -/

/-- The first NOT NULL column that is NULL. -/
def nullViolation : Option ColMeta :=
  (sch.cols.zipIdx.find? fun ci => ci.1.notNull && (cellAt cells ci.2).isNone).map Prod.fst

def enforceNotNull : ExecM Unit :=
  match nullViolation sch cells with
  | some c => .error ⟨"23502", "null value in column %q violates not-null constraint", [c.name]⟩
  | none => .ok ()

/-- `enforceChecks`: a CHECK fails only when it is false; NULL passes. -/
def enforceChecks (sch : TableSchema) (table : Bytes) (cells : Data) (params : Data)
    (site : Site) : List ColMeta → ExecM Unit
  | [] => .ok ()
  | c :: cs =>
    if c.check = [] then enforceChecks sch table cells params site.r cs
    else do
      let node ← env.parseExpr c.check
      let v ← node.eval env (checkScope env sch table params cells) site.l
      if v.cell.isSome ∧ ¬asBool v then
        .error ⟨"23514", "new row for relation %q violates check constraint on %q", [table, c.name]⟩
      else enforceChecks sch table cells params site.r cs

/-! ## Row security -/

def rlsApplies (sess : Session) : Bool := sch.rlsEnabled && !(sess.bypassRLS && !sch.rlsForced)

def RlsPolicy.appliesToRole (user : Bytes) : Bool :=
  p.roles = [] ∨ p.roles.any fun r => env.equalFold r (str "public") || env.equalFold r user

def RlsPolicy.appliesToCommand (cmd : Command) : Bool := p.command = .all ∨ p.command = cmd

/-- `policyCheckExpr`: WITH CHECK, or USING when there is none. -/
def RlsPolicy.checkText : Bytes := if p.checkExpr ≠ [] then p.checkExpr else p.usingExpr

/-- `evalPolicyPredicate`: an empty predicate is true, NULL is false. -/
def evalPolicyPredicate (text : Bytes) (sc : Scope) (site : Site) : ExecM Bool :=
  if env.trimSpace text = [] then .ok true
  else do
    let node ← env.parseExpr text
    let v ← node.eval env sc site
    .ok (asBool v)

/-- The permissive policies: one of them passes. All are evaluated. -/
def anyPermissive (text : RlsPolicy → Bytes) (sc : Scope) (site : Site) :
    List RlsPolicy → ExecM Bool
  | [] => .ok false
  | p :: ps => do
    let ok ← if p.permissive then evalPolicyPredicate env (text p) sc site.l else .ok false
    let rest ← anyPermissive text sc site.r ps
    .ok (ok || rest)

/-- The first restrictive policy that does not pass. -/
def failedRestrictive (text : RlsPolicy → Bytes) (sc : Scope) (site : Site) :
    List RlsPolicy → ExecM (Option RlsPolicy)
  | [] => .ok none
  | p :: ps =>
    if p.permissive then failedRestrictive text sc site.r ps
    else do
      let ok ← evalPolicyPredicate env (text p) sc site.l
      if ok then failedRestrictive text sc site.r ps else .ok (some p)

/-- The policies of a table that govern a command of the session's user. -/
def applicablePolicies (sess : Session) (cmd : Command) : List RlsPolicy :=
  sch.policies.filter fun p => p.appliesToCommand cmd && p.appliesToRole env sess.user

def rlsScope (table : Bytes) (sess : Session) (params cells : Data) : Scope :=
  ⟨params, rowResolver env sch table cells, some sess⟩

/-- `rlsRowAllowed`: USING decides which rows a command may target. -/
def rlsRowAllowed (table : Bytes) (sess : Session) (cmd : Command)
    (params cells : Data) (site : Site) : ExecM Bool := do
  let sc := rlsScope env sch table sess params cells
  let ps := applicablePolicies env sch sess cmd
  let passes ← anyPermissive env RlsPolicy.usingExpr sc site.l ps
  if passes then do
    let failed ← failedRestrictive env RlsPolicy.usingExpr sc site.r ps
    .ok failed.isNone
  else .ok false

/-- `rlsCheckNewRow`: WITH CHECK on a new row. -/
def rlsCheckNewRow (table : Bytes) (sess : Session) (cmd : Command)
    (params cells : Data) (site : Site) : ExecM Unit := do
  let sc := rlsScope env sch table sess params cells
  let ps := applicablePolicies env sch sess cmd
  let passes ← anyPermissive env RlsPolicy.checkText sc site.l ps
  if passes then do
    match ← failedRestrictive env RlsPolicy.checkText sc site.r ps with
    | none => .ok ()
    | some p =>
      .error ⟨"42501", "new row violates row-level security policy %q for table %q", [p.name, sch.name]⟩
  else .error ⟨"42501", "new row violates row-level security policy for table %q", [sch.name]⟩

section identity
variable {env} {params : Data} {r : List Bytes → ExecM Value} {sess sess' : Session}
  (hs : SameIdentity env (some sess) (some sess'))
include hs

theorem evalPolicyPredicate_congr (text : Bytes) (site : Site) :
    evalPolicyPredicate env text ⟨params, r, some sess⟩ site =
      evalPolicyPredicate env text ⟨params, r, some sess'⟩ site := by
  have heval : ∀ node : Expr, node.eval env ⟨params, r, some sess⟩ site =
      node.eval env ⟨params, r, some sess'⟩ site :=
    fun node => node.eval_congr hs site fun _ _ => rfl
  simp only [evalPolicyPredicate, heval]

theorem anyPermissive_congr (text : RlsPolicy → Bytes) (site : Site) (ps : List RlsPolicy) :
    anyPermissive env text ⟨params, r, some sess⟩ site ps =
      anyPermissive env text ⟨params, r, some sess'⟩ site ps := by
  induction ps generalizing site with
  | nil => rfl
  | cons p ps ih => simp only [anyPermissive, evalPolicyPredicate_congr hs, ih]

theorem failedRestrictive_congr (text : RlsPolicy → Bytes) (site : Site) (ps : List RlsPolicy) :
    failedRestrictive env text ⟨params, r, some sess⟩ site ps =
      failedRestrictive env text ⟨params, r, some sess'⟩ site ps := by
  induction ps generalizing site with
  | nil => rfl
  | cons p ps ih => simp only [failedRestrictive, evalPolicyPredicate_congr hs, ih]

end identity

/-! ## Foreign keys, child side -/

/-- `fkConstraint`, with the actions of its anchor column. -/
structure FkConstraint where
  table : Bytes
  pairs : List FkColPair
  onDelete : FkAction
  onUpdate : FkAction
deriving DecidableEq

/-- The foreign key anchored on a column. -/
def ColMeta.foreignKey (c : ColMeta) : Option FkConstraint :=
  if c.fkTable = [] then none
  else some ⟨c.fkTable, if c.fkCols = [] then [⟨c.name, c.fkColumn⟩] else c.fkCols, c.fkOnDelete, c.fkOnUpdate⟩

def childForeignKeys : List FkConstraint := sch.cols.filterMap ColMeta.foreignKey

/-- The values of a row in the local columns of a key; none when one of them is NULL. -/
def localTuple (pairs : List FkColPair) : Option (List Bytes) :=
  pairs.mapM fun p => (sch.colIndex env p.localCol).bind (cellAt cells)

/-- The rows of a scan with the given values in the given columns. -/
def hasTuple (rows : List ScanRow) (idxs : List Nat) (vals : List Bytes) : Bool :=
  rows.any fun r => idxs.map (cellAt r.cells) == vals.map some

/-- Whether a referenced column is the parent's row key: empty, or its name. -/
def isKeyColumn (col : Bytes) : Bool := col = [] ∨ psch.pkIndex.any fun pk => env.equalFold col (psch.nameAt pk)

def missingRef (col table : Bytes) : ExecError := ⟨"42703", "referenced column %q does not exist in %q", [col, table]⟩

/-- `parentRowExists`: a key probe for the primary key, else a scan. -/
def parentRowExists (parentTable parentCol val : Bytes) : Stm Bool := do
  let psch ← loadSchema sess parentTable
  if isKeyColumn env psch parentCol then do
    pure (← Prog.read (rowKey sess.ns sess.branch parentTable val)).isSome
  else
    match psch.colIndex env parentCol with
    | none => .throw (missingRef parentCol parentTable)
    | some ci => do
      let sc ← scanTable sess parentTable
      pure (hasTuple sc.2 [ci] [val])

/-- The positions of the referenced columns. -/
def refIndexes (psch : TableSchema) (parentTable : Bytes) : List Bytes → ExecM (List Nat)
  | [] => .ok []
  | rc :: rcs =>
    match psch.colIndex env rc with
    | none => .error (missingRef rc parentTable)
    | some ci => do .ok (ci :: (← refIndexes psch parentTable rcs))

def parentTupleExists (refCols vals : List Bytes) : Stm Bool :=
  match refCols, vals with
  | [rc], [v] => parentRowExists env sess parentTable rc v
  | _, _ => do
    let psch ← loadSchema sess parentTable
    let idxs ← ofExcept (refIndexes env psch parentTable refCols)
    let sc ← scanTable sess parentTable
    pure (hasTuple sc.2 idxs vals)

def joinCommas (xs : List Bytes) : Bytes := List.intercalate (str ", ") xs

/-- `enforceFKChild`: every foreign key of a new row without NULLs has its parent row. -/
def enforceFKChild : Stm Unit :=
  forEach (childForeignKeys sch) fun fk => match localTuple env sch cells fk.pairs with
    | none => pure ()
    | some vals => do
      let ok ← parentTupleExists env sess fk.table (fk.pairs.map FkColPair.refCol) vals
      if ok then pure ()
      else .throw ⟨"23503",
        "insert or update on table violates foreign key constraint: key (%s)=(%s) is not present in table %q",
        [joinCommas (fk.pairs.map FkColPair.localCol), joinCommas vals, fk.table]⟩

/-! ## Foreign keys, parent side -/

/-- `refTupleFromParent`: the referenced values of a parent row; none when one is NULL. -/
def refTupleFromParent (pcells : Data) (fk : FkConstraint) : Option (List Bytes) :=
  fk.pairs.mapM fun p => (if p.refCol = [] then psch.pkIndex else psch.colIndex env p.refCol).bind (cellAt pcells)

def childTupleMatches (csch : TableSchema) (ccells : Data) (fk : FkConstraint)
    (refVals : List Bytes) : Bool :=
  localTuple env csch ccells fk.pairs = some refVals

def parentRowRefChanged : Bool := (oldCells.zip newCells).any fun c => c.1 ≠ c.2

/-- Set one named column of a row. -/
def setColumn (col : Bytes) (d : Datum) : Data :=
  match sch.colIndex env col with
  | some i => cells.set i d
  | none => cells

/-- The row with the local columns of a key set, or NULL. -/
def setLocals (pvs : List (FkColPair × Datum)) : Data :=
  pvs.foldl (fun cs pv => setColumn env sch cs pv.1.localCol pv.2) cells

def nullLocals (fk : FkConstraint) : Data := setLocals env sch cells (fk.pairs.map fun p => (p, none))

/-- `branchRowKey`: the key on the session's branch, from the primary key. -/
def branchRowKey (existing : Bytes) : Bytes :=
  match sch.pkIndex.bind (cellAt cells) with
  | some pk => rowKey sess.ns sess.branch table pk
  | none => existing

/-- What removes a row from the branch: on a feature branch, a tombstone. -/
def removal (k : Bytes) : Mutation Bytes Val :=
  if sess.branch = mainBranch then deletion k else assignment k .tombstone

/-- Delete a row and its index entries. -/
def removeRow (defs : List IndexDef) (r : ScanRow) : Stm Unit := do
  Prog.write (removal sess (branchRowKey sess table sch r.cells r.key))
  indexEntries env sess sch defs r.cells r.key false

/-- Write new cells for a scanned row, and replace its index entries. -/
def replaceRow (defs : List IndexDef) (r : ScanRow) (cells : Data) : Stm Unit := do
  indexEntries env sess sch defs r.cells r.key false
  Prog.write (assignment (branchRowKey sess table sch cells r.key) (encodeRow cells))
  indexEntries env sess sch defs cells r.key true

def fkRestrict (parentTable childTable : Bytes) : ExecError :=
  ⟨"23503", "update or delete on table %q violates foreign key constraint on table %q", [parentTable, childTable]⟩

/-- The foreign keys of all tables that reference a table, each with its child table. -/
def referencing (tables : List TableSchema) : List (TableSchema × FkConstraint) :=
  tables.flatMap fun t =>
    ((childForeignKeys t).filter fun fk => env.equalFold fk.table parentTable).map fun fk => (t, fk)

theorem mem_referencing {parentTable : Bytes} {tables : List TableSchema} {t : TableSchema}
    {fk : FkConstraint} : (t, fk) ∈ referencing env parentTable tables ↔
      t ∈ tables ∧ fk ∈ childForeignKeys t ∧ env.equalFold fk.table parentTable = true := by
  simp only [referencing, mem_flatMap, mem_map, mem_filter, Prod.mk.injEq]
  constructor
  · intro h
    obtain ⟨t', ht', fk', ⟨hfk, heq⟩, rfl, rfl⟩ := h
    exact ⟨ht', hfk, heq⟩
  · intro h
    exact ⟨t, h.1, fk, h.2, rfl, rfl⟩

def maxFKCascadeDepth : Nat := 64

/-- The action of ON DELETE on one matching child row; `cascade` acts on the row's own children. -/
def deleteAction (cascade : Bytes → TableSchema → Data → Stm Unit) (t : TableSchema) (fk : FkConstraint)
    (defs : List IndexDef) (r : ScanRow) : Stm Unit :=
  match fk.onDelete with
  | .cascade => do
    cascade t.name t r.cells
    removeRow env sess t.name t defs r
  | .setNull => replaceRow env sess t.name t defs r (nullLocals env t r.cells fk)
  | _ => .throw (fkRestrict parentTable t.name)

/-- `applyFKDeleteActions` for one deleted parent row; the first argument counts down from
`maxFKCascadeDepth + 1` as the depth grows. -/
def applyFKDeleteActions (sess : Session) : Nat → Bytes → TableSchema → Data → Stm Unit
  | 0, _, _, _ =>
    .throw ⟨"54001", "ON DELETE CASCADE exceeded maximum depth (possible FK cycle)", []⟩
  | fuel + 1, parentTable, psch, pcells => do
    let tables ← listTables sess
    forEach (referencing env parentTable tables) fun tfk => match refTupleFromParent env psch pcells tfk.2 with
      | none => pure ()
      | some refVals => do
        let t := tfk.1
        let sc ← scanTable sess t.name
        let defs ← loadIndexes sess t.name
        forEach sc.2 fun r =>
          if childTupleMatches env t r.cells tfk.2 refVals then
            deleteAction env sess parentTable (applyFKDeleteActions sess fuel) t tfk.2 defs r
          else pure ()

def enforceFKParent (pcells : Data) : Stm Unit :=
  applyFKDeleteActions env sess (maxFKCascadeDepth + 1) parentTable psch pcells

/-- What ON UPDATE writes into a matching child row. Without a new tuple (a referenced column
became NULL) CASCADE indexes past the end of its values. -/
def updatedChild (t : TableSchema) (cells : Data) (fk : FkConstraint)
    (newVals : Option (List Bytes)) (parentTable : Bytes) : ExecM Data :=
  match fk.onUpdate with
  | .cascade =>
    match newVals with
    | some vs => .ok (setLocals env t cells (fk.pairs.zip (vs.map some)))
    | none => .error ⟨"panic", "runtime error: index out of range", []⟩
  | .setNull => .ok (nullLocals env t cells fk)
  | _ => .error (fkRestrict parentTable t.name)

/-- ON UPDATE writes child rows. -/
def FkConstraint.rewritesOnUpdate (fk : FkConstraint) : Bool := fk.onUpdate = .cascade ∨ fk.onUpdate = .setNull

/-- `applyFKUpdateActions` for one changed parent row. -/
def applyFKUpdateActions : Stm Unit := do
  let tables ← listTables sess
  forEach (referencing env parentTable tables) fun tfk => match refTupleFromParent env psch oldCells tfk.2 with
    | none => pure ()
    | some oldVals => do
      let t := tfk.1
      let sc ← scanTable sess t.name
      let defs ← loadIndexes sess t.name
      forEach sc.2 fun r =>
        if childTupleMatches env t r.cells tfk.2 oldVals then do
          let cells ← ofExcept (updatedChild env t r.cells tfk.2
            (refTupleFromParent env psch newCells tfk.2) parentTable)
          replaceRow env sess t.name t defs r cells
        else pure ()

/-! ## Columns that stay -/

section frames
variable {env sch cells} {cells' : Data} {i : Nat}

theorem applyGeneratedColumns_frame {table : Bytes} {params : Data} {site : Site} {cs : List (ColMeta × Nat)}
    (h : applyGeneratedColumns env sch table params site cs cells = .ok cells')
    (hi : ∀ c, (c, i) ∈ cs → c.generated = false) :
    cellAt cells' i = cellAt cells i ∧ cells'.length = cells.length := by
  induction cs generalizing site cells with
  | nil =>
    cases h
    exact ⟨rfl, rfl⟩
  | cons ci cs ih =>
    obtain ⟨c, k⟩ := ci
    have hi' : ∀ c, (c, i) ∈ cs → c.generated = false := fun c hc => hi c (mem_cons_of_mem _ hc)
    unfold applyGeneratedColumns at h
    split at h
    · rename_i hgen
      have hne : k ≠ i := by
        intro heq
        subst heq
        rw [hi c mem_cons_self] at hgen
        cases hgen.1
      cases hnode : env.parseExpr c.generatedExpr with
      | error e => simp [hnode, bind, Except.bind] at h
      | ok node =>
        cases hv : node.eval env (checkScope env sch table params cells) site.l with
        | error e => simp [hnode, hv, bind, Except.bind] at h
        | ok v =>
          simp only [hnode, hv, bind, Except.bind] at h
          obtain ⟨h1, h2⟩ := ih h hi'
          exact ⟨h1.trans (cellAt_set_ne cells hne v.cell), h2.trans (length_set ..)⟩
    · exact ih h hi'

theorem setColumn_frame {col : Bytes} {d : Datum}
    (h : sch.colIndex env col ≠ some i) : cellAt (setColumn env sch cells col d) i = cellAt cells i := by
  unfold setColumn
  split
  · rename_i k hk
    exact cellAt_set_ne cells (fun heq => h (by rw [hk, heq])) d
  · rfl

theorem setLocals_frame {pvs : List (FkColPair × Datum)} (h : ∀ pv ∈ pvs, sch.colIndex env pv.1.localCol ≠ some i) :
    cellAt (setLocals env sch cells pvs) i = cellAt cells i := by
  induction pvs generalizing cells with
  | nil => rfl
  | cons pv pvs ih =>
    refine (ih fun x hx => h x (mem_cons_of_mem _ hx)).trans ?_
    exact setColumn_frame (h pv mem_cons_self)

variable {parentTable} {fk : FkConstraint} {newVals : Option (List Bytes)}

theorem updatedChild_rewrites (h : updatedChild env sch cells fk newVals parentTable = .ok cells') :
    fk.rewritesOnUpdate = true := by
  unfold updatedChild at h
  split at h
  · rename_i hc
    simp [FkConstraint.rewritesOnUpdate, hc]
  · rename_i hn
    simp [FkConstraint.rewritesOnUpdate, hn]
  · cases h

theorem updatedChild_frame (h : updatedChild env sch cells fk newVals parentTable = .ok cells')
    (hi : ∀ p ∈ fk.pairs, sch.colIndex env p.localCol ≠ some i) : cellAt cells' i = cellAt cells i := by
  unfold updatedChild at h
  split at h
  · split at h
    · cases h
      exact setLocals_frame fun pv hpv => hi pv.1 (of_mem_zip hpv).1
    · cases h
  · cases h
    refine setLocals_frame fun pv hpv => ?_
    obtain ⟨p, hp, rfl⟩ := mem_map.mp hpv
    exact hi p hp
  · cases h

end frames

/-! ## Rules for the parts of a statement -/

section rules
variable {env sess table sch cells} {P : Mutation Bytes Val → Prop}

theorem parentRowExists_writes {col val : Bytes} : (parentRowExists env sess table col val).Writes P := by
  refine Writes.bind loadSchema_writes fun psch => ?_
  split
  · exact Writes.bind (Writes.read _) fun _ => Writes.pure _
  · split
    · exact Writes.throw _
    · exact Writes.bind scanTable_writes fun _ => Writes.pure _

theorem parentTupleExists_writes {refCols vals : List Bytes} :
    (parentTupleExists env sess table refCols vals).Writes P := by
  unfold parentTupleExists
  split
  · exact parentRowExists_writes
  · exact Writes.bind loadSchema_writes fun _ => Writes.bind (Writes.ofExcept _)
      (fun _ => Writes.bind scanTable_writes fun _ => Writes.pure _)

theorem enforceFKChild_writes : (enforceFKChild env sess sch cells).Writes P := by
  refine Writes.forEach fun fk _ => ?_
  split
  · exact Writes.pure _
  · refine Writes.bind parentTupleExists_writes (fun ok => ?_)
    split
    · exact Writes.pure _
    · exact Writes.throw _

theorem evalDefault_writes {spec : DefaultSpec} : (evalDefault env sess spec).Writes
    (fun m => ∃ name text, m = assignment (seqKey sess name) (.text text)) := by
  cases spec with
  | const text oid => exact Writes.pure _
  | now | uuid => exact Writes.bind Writes.tick fun _ => Writes.pure _
  | serial seq =>
    refine Writes.bind ?_ fun _ => Writes.pure _
    refine Writes.bind (Writes.read _) fun o => ?_
    exact Writes.bind (Writes.write ⟨seq, _, rfl⟩) fun _ => Writes.pure _

variable {s : Snap Bytes Val} {buf : Buffer}

theorem wp_replaceRow {defs : List IndexDef} {r : ScanRow} {Q : Unit → Buffer → Prop}
    (h : ∀ old new, (∀ m ∈ old, IsEntryKey sess defs m.key) → (∀ m ∈ new, IsEntryKey sess defs m.key) →
      Q () (buf ++ old ++ [assignment (branchRowKey sess table sch cells r.key) (encodeRow cells)] ++ new)) :
    (replaceRow env sess table sch defs r cells).wp underPrefix s Q buf := by
  simp only [replaceRow, wp_bind]
  refine wp_mono (indexEntries_writes.wp buf) fun _ buf1 h1 => ?_
  obtain ⟨old, rfl, hold⟩ := h1
  rw [wp_write]
  refine wp_mono (indexEntries_writes.wp _) fun _ buf2 h2 => ?_
  obtain ⟨new, rfl, hnew⟩ := h2
  exact h old new hold hnew

end rules

end BasuyuDb.Executor
