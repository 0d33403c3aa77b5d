import BasuyuDb.Executor.Catalog

/-
  engine/internal/executor/orderenc.go, index.go: the order-preserving encoding of index
  values, and the maintenance of index entries. An entry's key is the encoded tuple followed
  by the row's primary key, its value is the primary key.
-/

namespace BasuyuDb.Executor
open KvLib Storage

variable (env : Env)

/-! ## Order-preserving encodings -/

/-- `encodeOrderedText`: 0x00 is escaped, and 0x00 0x00 ends the text. -/
def encodeOrderedText : Bytes → Bytes
  | [] => [0, 0]
  | b :: s => if b = 0 then 0 :: 255 :: encodeOrderedText s else b :: encodeOrderedText s

def isTruthy (text : Bytes) : Bool :=
  env.toLower (env.trimSpace text) ∈
    [str "t", str "true", str "1", str "y", str "yes", str "on"]

/-- `orderEncode`. Flipping the sign bit of an int64 adds 2^63. -/
def orderEncode (typeOID : Nat) (text : Bytes) : ExecM Bytes :=
  if typeOID = OIDInt4 ∨ typeOID = OIDInt8 then
    match parseInt (env.trimSpace text) with
    | some v => .ok (putUint64 (v + 2 ^ 63).toNat)
    | none => .error ⟨"22P02", "invalid integer for index: %q", [text]⟩
  else if typeOID = OIDFloat8 then
    match env.floatKey (env.trimSpace text) with
    | some b => .ok b.toList
    | none => .error ⟨"22P02", "invalid float for index: %q", [text]⟩
  else if typeOID = OIDBool then .ok [if isTruthy env text then 1 else 0]
  else .ok (encodeOrderedText text)

/-! ## Index keys -/

variable (sess : Session) (sch : TableSchema) (defs : List IndexDef) (d : IndexDef) (cells : Data) (site : Site)

/-- `isExpr`: the index has an expression element. -/
def IndexDef.isExpr : Bool := d.exprs.any fun e => e ≠ []

def IndexDef.hasColumn (col : Bytes) : Bool := d.columns.any fun c => env.equalFold c col

/-- The loops over the elements of an index: an error, a NULL element, or the concatenation. -/
def concatParts : List (ExecM (Option Bytes)) → ExecM (Option Bytes)
  | [] => .ok (some [])
  | p :: ps => do
    match ← p with
    | none => .ok none
    | some b => do .ok ((← concatParts ps).map (b ++ ·))

/-- A plain column of an index: NULL and unknown columns are not indexed. -/
def encodeColumn (col : Bytes) : ExecM (Option Bytes) :=
  match sch.colIndex env col with
  | none => .ok none
  | some ci =>
    match cellAt cells ci with
    | none => .ok none
    | some text => do .ok (some (← orderEncode env (sch.oidAt ci) text))

def encodeIndexTuple (columns : List Bytes) (cells : Data) : ExecM (Option Bytes) :=
  concatParts (columns.map (encodeColumn env sch cells))

/-- The scope of index expressions and predicates: the row alone. -/
def rowScope (aliasName : Bytes) (cells : Data) : Scope := ⟨[], rowResolver env sch aliasName cells, none⟩

/-- An expression of an index, encoded under the type of its value. -/
def encodeIndexExpr (table expr : Bytes) (cells : Data) (site : Site) : ExecM (Option Bytes) := do
  let node ← env.parseExpr expr
  let v ← node.eval env (rowScope env sch table cells) site
  match v.cell with
  | none => .ok none
  | some text => do .ok (some (← orderEncode env (if v.oid = 0 then OIDText else v.oid) text))

/-- The `i`-th of several evaluations under one site. -/
def Site.nth (s : Site) : Nat → Site
  | 0 => s.l
  | i + 1 => s.r.nth i

/-- `encodeIndexKey`: plain columns, or an element at a time for an expression index. -/
def encodeIndexKey : ExecM (Option Bytes) :=
  if d.isExpr then
    concatParts (d.columns.zipIdx.map fun ci => let expr := d.exprs.getD ci.2 []
      if expr ≠ [] then encodeIndexExpr env sch d.table expr cells (site.nth ci.2)
      else encodeColumn env sch cells ci.1)
  else encodeIndexTuple env sch d.columns cells

def rowMatchesPartial : ExecM Bool := do
  let node ← env.parseExpr d.whereText
  let v ← node.eval env (rowScope env sch d.table cells) site
  .ok (asBool v)

/-- The tuple under which a row is in an index, if it is: the partial predicate, then the key. -/
def indexedTuple : ExecM (Option Bytes) := do
  let inIndex ← if d.whereText ≠ [] then rowMatchesPartial env sch d cells site.l else .ok true
  if inIndex then encodeIndexKey env sch d cells site.r else .ok none

variable (pk tuple : Bytes) (rowKey : Bytes) (add : Bool) (k : Bytes)

/-- `primaryKeyBytes`: the primary key, or the whole row key of a table without one. -/
def primaryKeyBytes : Bytes :=
  match sch.pkIndex with
  | some pk => (cellAt cells pk).getD rowKey
  | none => rowKey

/-- A deletion; the value is not read. -/
def deletion : Mutation Bytes Val := ⟨k, .text [], true⟩

def assignment (v : Val) : Mutation Bytes Val := ⟨k, v, false⟩

theorem seen_assignment (s : Snap Bytes Val) (buf : Buffer) (key k : Bytes) (v : Val) :
    (s.seen (buf ++ [assignment key v])).lookup k = if k = key then some v else (s.seen buf).lookup k := by
  rw [Snap.seen_concat, OrdMap.lookup_set]
  congr

theorem seen_deletion (s : Snap Bytes Val) (buf : Buffer) (key k : Bytes) :
    (s.seen (buf ++ [deletion key])).lookup k = if k = key then none else (s.seen buf).lookup k := by
  rw [Snap.seen_concat, OrdMap.lookup_set]
  congr

/-- The mutation of one index entry. -/
def entryMutation : Mutation Bytes Val :=
  let ik := indexKey sess.ns sess.branch d.table d.name tuple pk
  if add then assignment ik (.text pk) else deletion ik

/-- The turn of one index in `indexEntries`. -/
def indexEntry : Stm Unit := do
  let n ← Prog.tick
  match ← Prog.ofExcept (indexedTuple env sch d cells (Site.root n)) with
  | none => pure ()
  | some tuple => Prog.write (entryMutation sess d (primaryKeyBytes sch cells rowKey) tuple add)

/-- `indexEntries`: write or delete the entries of a row in all indexes. -/
def indexEntries (rowKey : Bytes) (add : Bool) : Stm Unit :=
  Prog.forEach defs fun d => indexEntry env sess sch d cells rowKey add

theorem indexEntries_cons (rk : Bytes) (add : Bool) : indexEntries env sess sch (d :: defs) cells rk add =
    indexEntry env sess sch d cells rk add >>= fun _ => indexEntries env sess sch defs cells rk add := rfl

/-- `indexHasOtherPK`: an entry of the tuple that belongs to another row. -/
def indexHasOtherPK (tuple pk : Bytes) : Stm Bool := do
  let kvs ← Prog.range (indexValuePrefix sess.ns sess.branch d.table d.name tuple)
  pure (kvs.any fun kv => kv.2 ≠ .text pk)

def duplicateIndex : ExecError := ⟨"23505", "duplicate key value violates unique index %q", [d.name]⟩

/-! ## CREATE INDEX -/

/-- `IndexElem`: a column, or an expression. -/
inductive IndexElem where
  | col (name : Bytes)
  | expr (e : Expr)

structure IndexStmt where
  name : Bytes
  table : Bytes
  elems : List IndexElem
  whereClause : Option Expr
  unique : Bool

variable (s : IndexStmt)

/-- The columns and the expression texts of the elements, in parallel. -/
def elemTexts : List IndexElem → ExecM (List (Bytes × Bytes))
  | [] => .ok []
  | .col name :: els => do .ok ((name, []) :: (← elemTexts els))
  | .expr e :: els => do
    let txt ← env.deparseExpr e
    .ok (([], txt) :: (← elemTexts els))

def IndexElem.isExprElem : IndexElem → Bool
  | .col _ => false
  | .expr _ => true

/-- The back-fill of CREATE INDEX over the scanned rows; `seen` holds the tuples so far. -/
def backfill (sess : Session) (sch : TableSchema) (nd : IndexDef) (dup : ExecError) :
    List ScanRow → List Bytes → Stm Unit
  | [], _ => pure ()
  | r :: rows, seen => do
    let n ← Prog.tick
    match ← Prog.ofExcept (indexedTuple env sch nd r.cells (Site.root n)) with
    | none => backfill sess sch nd dup rows seen
    | some tuple =>
      if nd.unique ∧ tuple ∈ seen then .throw dup
      else do
        Prog.write (entryMutation sess nd (primaryKeyBytes sch r.cells r.key) tuple true)
        backfill sess sch nd dup rows (tuple :: seen)

/-- The definition CREATE INDEX stores. -/
def newIndexDef (elems : List (Bytes × Bytes)) (whereTxt : Bytes) : IndexDef where
  name := s.name
  table := s.table
  columns := elems.map Prod.fst
  unique := s.unique
  exprs := if s.elems.any IndexElem.isExprElem then elems.map Prod.snd else []
  whereText := whereTxt

def deparseWhere (w : Option Expr) : ExecM Bytes :=
  match w with
  | none => .ok []
  | some e => env.deparseExpr e

def execCreateIndex : Stm Unit := do
  let elems ← Prog.ofExcept (elemTexts env s.elems)
  if elems = [] then
    .throw ⟨"42601", "index must name at least one column or expression", []⟩
  else do
    let sch ← loadSchema sess s.table
    match elems.find? (fun el => el.2 = [] ∧ el.1 ≠ [] ∧ (sch.colIndex env el.1).isNone) with
    | some el => .throw ⟨"42703", "column %q does not exist in %q", [el.1, s.table]⟩
    | none => do
      let whereTxt ← Prog.ofExcept (deparseWhere env s.whereClause)
      let defs ← loadIndexes sess s.table
      if defs.any (fun d => env.equalFold d.name s.name) then
        .throw ⟨"42P07", "index %q already exists", [s.name]⟩
      else do
        let nd := newIndexDef s elems whereTxt
        Prog.write (assignment (indexListKey sess s.table) (.indexes (defs ++ [nd])))
        let sc ← scanTable sess s.table
        backfill env sess sch nd
          ⟨"23505", "could not create unique index %q: duplicate key", [s.name]⟩ sc.2 []

/-! ## What index maintenance writes -/

/-- An entry of one of the indexes, on the session's branch. -/
def IsEntryKey : Prop := ∃ d ∈ defs, ∃ tuple pk, k = indexKey sess.ns sess.branch d.table d.name tuple pk

theorem entryMutation_key :
    (entryMutation sess d pk tuple add).key = indexKey sess.ns sess.branch d.table d.name tuple pk := by
  unfold entryMutation
  split
  · rfl
  · rfl

variable {env}

section entries
variable {sess sch defs cells rowKey add}

theorem indexEntries_frame {P : Mutation Bytes Val → Prop} (h : ∀ d ∈ defs, ∀ pk tuple, P (entryMutation sess d pk tuple add)) :
    (indexEntries env sess sch defs cells rowKey add).Writes P := by
  refine Prog.Writes.forEach fun d hd => ?_
  refine Prog.Writes.bind Prog.Writes.tick fun n => ?_
  refine Prog.Writes.bind (Prog.Writes.ofExcept _) fun o => ?_
  split
  · exact Prog.Writes.pure _
  · exact Prog.Writes.write (h d hd _ _)

theorem indexEntries_writes :
    (indexEntries env sess sch defs cells rowKey add).Writes (fun m => IsEntryKey sess defs m.key) :=
  indexEntries_frame fun d hd _ _ => ⟨d, hd, _, _, entryMutation_key ..⟩

end entries

theorem indexHasOtherPK_writes {P : Mutation Bytes Val → Prop} {sess : Session} {d : IndexDef}
    {tuple pk : Bytes} : (indexHasOtherPK sess d tuple pk).Writes P :=
  Prog.Writes.bind (Prog.Writes.range _) fun _ => Prog.Writes.pure _

end BasuyuDb.Executor
