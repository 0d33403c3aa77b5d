import BasuyuDb.Executor.Index

/-
  engine/internal/executor/index_scan.go, the lookups of index.go and the single-table path of
  join.go (execSelectFrom): how a SELECT over one stored table finds its rows. Planning and
  scanning only read, so they are functions of the state a statement sees. The iteration order
  of Go maps is a parameter (`order`).
-/

namespace BasuyuDb.Executor
open KvLib Storage

variable (env : Env)

/-! ## Statements -/

/-- `SortBy`; `desc` is SortDir 2. -/
structure SortBy where
  node : Expr
  desc : Bool

/-- `SelectStmt` over one stored table. An empty alias is none; `limitCount` is the value of
LIMIT as `evalIntLimit` reads it, -1 for NULL. -/
structure SelectStmt where
  relName : Bytes
  aliasName : Bytes
  whereClause : Option Expr
  sortClause : List SortBy
  limitCount : Option Int
  distinct : Bool

variable (defs : List IndexDef) (order : List (Bytes × Bytes) → List (Bytes × Bytes)) (s : SelectStmt)
  (params : Data) (eq : List (Bytes × Bytes)) (op : Bytes) (sess : Session) (W S : State) (table : Bytes)
  (sch : TableSchema) (colPrefix : Bytes) (d : IndexDef)

/-- The name the table goes by in the statement. -/
def SelectStmt.relAlias : Bytes := if s.aliasName = [] then s.relName else s.aliasName

def SelectStmt.matchesRel (q : Bytes) : Bool := q = [] || env.equalFold q s.relAlias || env.equalFold q s.relName

/-! ## Bounds -/

/-- `asColRef`: the qualifier, if any, and the name. -/
def asColRef : Expr → Option (Bytes × Bytes)
  | .column fields =>
    if fields = [] ∨ fields.getLastD [] = str "*" then none
    else some (if 1 < fields.length then fields.getD (fields.length - 2) [] else [], fields.getLastD [])
  | _ => none

def isConstNode : Expr → Bool
  | .const _ => true
  | .param _ => true
  | _ => false

/-- The literal text of a constant; NULL has none. -/
def constText : Const → Option Bytes
  | .null => none
  | .int val => some val
  | .float val => some val
  | .bool val => some val
  | .string val => some val

def resolveConstText : Expr → Option Bytes
  | .const c => constText c
  | .param number => if number = 0 then none else (params[number - 1]?).bind fun p => p
  | _ => none

def flipOp : Bytes :=
  if op = str ">" then str "<"
  else if op = str ">=" then str "<="
  else if op = str "<" then str ">"
  else if op = str "<=" then str ">="
  else op

/-- `colBounds`: inclusive bounds on one column. -/
structure ColBounds where
  col : Bytes
  lo : Option Bytes
  hi : Option Bytes
deriving DecidableEq

def ColBounds.isEquality (b : ColBounds) : Bool := b.lo.isSome && b.lo = b.hi

/-- The bounds of `col OP text`. -/
def boundOf (op col text : Bytes) : Option ColBounds :=
  if op = str "=" then some ⟨col, some text, some text⟩
  else if op = str ">" ∨ op = str ">=" then some ⟨col, some text, none⟩
  else if op = str "<" ∨ op = str "<=" then some ⟨col, none, some text⟩
  else none

/-- The column, the constant and the operator of a comparison, read as `col OP const`. -/
def comparisonParts (l r : Expr) : Option ((Bytes × Bytes) × Expr × Bytes) :=
  match asColRef l, isConstNode r with
  | some c, true => some (c, r, op)
  | _, _ =>
    match asColRef r, isConstNode l with
    | some c, true => some (c, l, flipOp op)
    | _, _ => none

/-- `boundFromComparisonP`. -/
def boundFromComparison (l r : Expr) : Option ColBounds :=
  match comparisonParts op l r with
  | none => none
  | some (c, constNode, op') =>
    if s.matchesRel env c.1 then (resolveConstText params constNode).bind (boundOf op' c.2) else none

def mergeBounds (a b : ColBounds) : ColBounds := ⟨a.col, b.lo.or a.lo, b.hi.or a.hi⟩

mutual

def extractColBounds (s : SelectStmt) (params : Data) : Expr → Option ColBounds
  | .binary op l r => boundFromComparison env s params op l r
  | .boolExpr .and args => extractAnd s params args none
  | _ => none

/-- The loop over the conjuncts, with the bounds so far. -/
def extractAnd (s : SelectStmt) (params : Data) : List Expr → Option ColBounds → Option ColBounds
  | [], acc => acc
  | a :: args, acc =>
    match extractColBounds s params a with
    | none => none
    | some b =>
      match acc with
      | none => extractAnd s params args (some b)
      | some x =>
        if env.equalFold x.col b.col then extractAnd s params args (some (mergeBounds x b)) else none

end

mutual

/-- The conjuncts of a predicate, through nested ANDs. -/
def conjuncts : Expr → List Expr
  | .boolExpr .and args => conjunctsAll args
  | e => [e]

def conjunctsAll : List Expr → List Expr
  | [] => []
  | e :: es => conjuncts e ++ conjunctsAll es

end

def whereConjuncts (w : Option Expr) : List Expr := w.elim [] conjuncts

/-- A Go map from lower-cased columns to constant texts: a later entry replaces an earlier one. -/
def putEq (col text : Bytes) : List (Bytes × Bytes) := eq.filter (fun e => e.1 ≠ col) ++ [(col, text)]

/-- The step of `collectEqualities` for one conjunct. -/
def addEquality : Expr → List (Bytes × Bytes)
  | .binary op l r =>
    match boundFromComparison env s params op l r with
    | some ⟨col, some lo, some hi⟩ => if lo = hi then putEq eq (env.toLower col) lo else eq
    | _ => eq
  | _ => eq

def collectEqualities : List (Bytes × Bytes) := (whereConjuncts s.whereClause).foldl (addEquality env s params) []

/-! ## Partial and expression indexes -/

def isTrueConst : Expr → Bool
  | .const (.bool val) => val = str "true"
  | _ => false

/-- The texts of a boolean column as a predicate. -/
def trueForms (fields : List Bytes) : List Bytes :=
  [str "(" ++ joinDots fields ++ str " = TRUE)", str "(" ++ joinDots fields ++ str " IS TRUE)"]

def booleanEquivForms (n : Expr) (canon : Bytes) : List Bytes :=
  match n with
  | .column fields => canon :: trueForms fields
  | .binary op l r =>
    if op = str "=" then
      let (colNode, constNode) := if isTrueConst l then (r, l) else (l, r)
      match colNode, isTrueConst constNode with
      | .column fields, true => canon :: joinDots fields :: trueForms fields
      | _, _ => [canon]
    else [canon]
  | _ => [canon]

/-- Whether a conjunct has one of the texts of the partial predicate. -/
def conjunctMatches (alts : List Bytes) (conjunct : Expr) : Bool :=
  match env.deparseExpr conjunct with
  | .error _ => false
  | .ok text =>
    (booleanEquivForms conjunct (env.trimSpace text)).any fun c => alts.any fun a => env.equalFold c a

def predicateImplies (q : Option Expr) (partialText : Bytes) : Bool :=
  if partialText = [] then true
  else
    match q, env.parseExpr partialText with
    | some q, .ok p =>
      match env.deparseExpr p with
      | .ok canon =>
        (conjuncts q).any (conjunctMatches env (booleanEquivForms p (env.trimSpace canon)))
      | .error _ => false
    | _, _ => false

def exprMatchesIndex (e : Expr) : Bool :=
  match d.exprs.filter (· ≠ []), d.columns with
  | [text], [_] =>
    match env.deparseExpr e, env.parseExpr text with
    | .ok q, .ok node =>
      match env.deparseExpr node with
      | .ok canon => env.equalFold (env.trimSpace q) (env.trimSpace canon)
      | .error _ => false
    | _, _ => false
  | _, _ => false

/-- `isIndexableExpr`; of the nodes that `call` stands for, function calls and operators are. -/
def isIndexableExpr : Expr → Bool
  | .minus _ => true
  | .binary _ _ _ => true
  | .isIn _ _ => true
  | .caseExpr _ _ _ => true
  | .typeCast _ _ => true
  | .call _ _ => true
  | _ => false

/-- The `<expr> = const` of one conjunct. -/
def exprEquality : Expr → Option (Expr × Expr)
  | .binary op l r =>
    if op = str "=" then
      if isConstNode r && isIndexableExpr l then some (l, r)
      else if isConstNode l && isIndexableExpr r then some (r, l)
      else none
    else none
  | _ => none

/-! ## The lookups of an index for a column -/

/-- An index over plain columns whose predicate, if any, may be used. -/
def IndexDef.usable (usePartial : Option (Bytes → Bool)) (d : IndexDef) : Bool :=
  !d.isExpr && (d.whereText = [] || usePartial.any fun implied => implied d.whereText)

def IndexDef.leads (d : IndexDef) (col : Bytes) : Bool := d.columns ≠ [] && env.equalFold (d.columns.headD []) col

/-- `findIndexOn`: the first single-column index on the column, else the first it leads. -/
def findIndexOn (col : Bytes) (usePartial : Option (Bytes → Bool)) : Option IndexDef :=
  ((defs.filter (·.usable usePartial)).find? fun d => d.columns.length = 1 && d.leads env col).or
    ((defs.filter (·.usable usePartial)).find? fun d => d.leads env col)

/-- `findIndexForEquality`: the first with the most columns, all of them in `eqCols`. -/
def findIndexForEquality (eqCols : List Bytes) (usePartial : Option (Bytes → Bool)) : Option IndexDef :=
  defs.foldl (fun best d => if d.usable usePartial && d.columns.all (fun c => env.toLower c ∈ eqCols) &&
        (best.elim 0 fun b => b.columns.length) < d.columns.length then some d
    else best) none

/-! ## Scans -/

/-- The primary key an index entry holds. -/
def entryPk : Val → Bytes
  | .text b => b
  | _ => []

/-- The entries the iterator passes: forward from `lo` until past `hi`, or in reverse. The reverse iterator does not
see the writes that the transaction has buffered: it is over the snapshot `S`. -/
def entriesBetween (lo hi : Option Bytes) (desc : Bool) : List (Bytes × Val) :=
  let entries := (if desc then S else W).scan (underPrefix colPrefix)
  if desc then
    (entries.reverse.dropWhile fun e => hi.any fun h => h < e.1).takeWhile
      (fun e => !lo.any fun l => e.1 < l)
  else
    (entries.dropWhile fun e => lo.any fun l => e.1 < l).takeWhile
      (fun e => !hi.any fun h => h < e.1)

/-- The loop of `scanIndexRange`; `out` is what it has appended so far. -/
def fetchRows (W : State) (ns branch table : Bytes) (n : Nat) (limit : Int) :
    List (Bytes × Val) → List Data → ExecM (List Data)
  | [], out => .ok out
  | e :: entries, out =>
    match W.lookup (rowKey ns branch table (entryPk e.2)) with
    | none => fetchRows W ns branch table n limit entries out
    | some raw =>
      if raw = .tombstone then fetchRows W ns branch table n limit entries out
      else do
        let cells ← decodeRow raw n
        if 0 ≤ limit ∧ limit ≤ (out ++ [cells]).length then .ok (out ++ [cells])
        else fetchRows W ns branch table n limit entries (out ++ [cells])

def scanIndexRange (lo hi : Option Bytes) (desc : Bool) (limit : Int) : ExecM (List Data) :=
  fetchRows W sess.ns sess.branch table sch.cols.length limit (entriesBetween W S colPrefix lo hi desc) []

def pkPointGet (pkText : Bytes) : ExecM (List Data) :=
  match W.lookup (rowKey sess.ns sess.branch table pkText) with
  | none => .ok []
  | some raw => if raw = .tombstone then .ok [] else do .ok [← decodeRow raw sch.cols.length]

/-- The key prefix of an index. -/
def indexPrefix : Bytes := indexColumnPrefix sess.ns sess.branch d.table d.name

/-- The entries of one tuple: 0xFF is above the slash that follows it. -/
def scanTuple (tuple : Bytes) : ExecM (List Data) :=
  scanIndexRange sess W W table sch (indexPrefix sess d) (some (indexPrefix sess d ++ tuple))
    (some (indexPrefix sess d ++ tuple ++ [255])) false (-1)

/-! ## The paths of the planner -/

/-- The index and the text of the constant that the lookup of an expression comes to: the first
candidate and index that match. -/
def exprLookup (s : SelectStmt) (params : Data) (defs : List IndexDef) : Option (IndexDef × Bytes) :=
  let cands := (whereConjuncts s.whereClause).filterMap exprEquality
  (cands.flatMap fun cand => defs.map fun d => (cand, d)).findSome? fun cd =>
    if (cd.2.whereText = [] || predicateImplies env s.whereClause cd.2.whereText) &&
        exprMatchesIndex env cd.2 cd.1.1 then
      (resolveConstText params cd.1.2).map (fun text => (cd.2, text))
    else none

def tryExprEquality (s : SelectStmt) (params : Data)
    (sch : TableSchema) (defs : List IndexDef) : ExecM (Option (List Data)) :=
  match exprLookup env s params defs with
  | none => .ok none
  | some (d, text) => do .ok (some (← scanTuple sess W s.relName sch d (encodeOrderedText text)))

/-- The constants of an index's columns, encoded in its order. -/
def equalityTuple (sch : TableSchema) (eq : List (Bytes × Bytes)) : List Bytes → ExecM Bytes
  | [] => .ok []
  | col :: cols => do
    let text := (eq.lookup (env.toLower col)).getD []
    let part ← orderEncode env (sch.oidAt ((sch.colIndex env col).getD 0)) text
    .ok (part ++ (← equalityTuple sch eq cols))

def tryCompositeEquality (s : SelectStmt) (params : Data)
    (sch : TableSchema) (defs : List IndexDef) : ExecM (Option (List Data)) :=
  let eq := collectEqualities env s params
  if eq.length < 2 then .ok none
  else
    match findIndexForEquality env defs (eq.map Prod.fst)
        (s.whereClause.map fun w => predicateImplies env (some w)) with
    | none => .ok none
    | some d =>
      if d.columns.length < 2 then .ok none
      else do
        let tuple ← equalityTuple env sch eq d.columns
        .ok (some (← scanTuple sess W s.relName sch d tuple))

/-- The index `trySingleColEquality` takes for a column: a partial one that is implied, else the
first over all rows. -/
def singleColIndex (col : Bytes) (implied : Bytes → Bool) : Option IndexDef :=
  let on := defs.filter (fun d => !d.isExpr && d.columns.length = 1 && d.leads env col)
  (on.find? fun d => d.whereText ≠ [] && implied d.whereText).or (on.find? fun d => d.whereText = [])

/-- `trySingleColEquality`; `eqs` are the equalities in the order the map is iterated. -/
def trySingleColEquality (sess : Session) (W : State) (s : SelectStmt) (sch : TableSchema)
    (defs : List IndexDef) : List (Bytes × Bytes) → ExecM (Option (List Data))
  | [] => .ok none
  | (col, text) :: eqs =>
    match sch.colIndex env col, singleColIndex env defs col (predicateImplies env s.whereClause) with
    | some ci, some d => do
      let part ← orderEncode env (sch.oidAt ci) text
      .ok (some (← scanTuple sess W s.relName sch d part))
    | _, _ => trySingleColEquality sess W s sch defs eqs

/-- `orderByCol`: the column of a one-key ORDER BY, and whether it descends. -/
def orderByCol : Option (Bytes × Bool) :=
  match s.sortClause with
  | [sb] =>
    match asColRef sb.node with
    | some c => if s.matchesRel env c.1 then some (c.2, sb.desc) else none
    | none => none
  | _ => none

structure IndexScan where
  rows : List Data
  ordered : Bool
deriving DecidableEq

def boundKey (oid : Nat) (sentinel : Bytes) : Option Bytes → ExecM (Option Bytes)
  | none => .ok none
  | some text => do .ok (some (colPrefix ++ (← orderEncode env oid text) ++ sentinel))

/-- The scan over the column `col`, with its bounds. -/
def driveScan (s : SelectStmt) (sch : TableSchema) (defs : List IndexDef)
    (col : Bytes) (bounds : Option ColBounds) (ordered desc : Bool) :
    ExecM (Option IndexScan) :=
  match sch.colIndex env col with
  | none => .ok none
  | some ci =>
    match bounds.filter (fun b => !ordered && sch.pkIndex = some ci && b.isEquality) with
    | some b => do .ok (some ⟨← pkPointGet sess W s.relName sch (b.lo.getD []), true⟩)
    | none =>
      match findIndexOn env defs col (s.whereClause.map fun w => predicateImplies env (some w)) with
      | none => .ok none
      | some d => do
        let colPrefix := indexPrefix sess d
        let lo ← boundKey env colPrefix (sch.oidAt ci) [] (bounds.bind ColBounds.lo)
        let hi ← boundKey env colPrefix (sch.oidAt ci) [255] (bounds.bind ColBounds.hi)
        -- LIMIT ends the scan only when every scanned row is in the result
        let limit := if ordered ∧ s.whereClause.isNone ∧ ¬s.distinct then s.limitCount.getD (-1) else -1
        .ok (some ⟨← scanIndexRange sess W S s.relName sch colPrefix lo hi desc limit, ordered⟩)

/-- The driving column: that of WHERE, else that of ORDER BY. -/
def planRange (s : SelectStmt) (params : Data) (sch : TableSchema)
    (defs : List IndexDef) : ExecM (Option IndexScan) :=
  match s.whereClause.bind (extractColBounds env s params), orderByCol env s with
  | some b, some (col, desc) =>
    driveScan env sess W S s sch defs b.col (some b) (env.equalFold b.col col) desc
  | some b, none => driveScan env sess W S s sch defs b.col (some b) false false
  | none, some (col, desc) => driveScan env sess W S s sch defs col none true desc
  | none, none => .ok none

/-- The equality paths, in their order. -/
def tryEqualities (s : SelectStmt) (params : Data) (sch : TableSchema) (defs : List IndexDef) :
    ExecM (Option (List Data)) := do
  match ← tryExprEquality env sess W s params sch defs with
  | some rows => .ok (some rows)
  | none =>
    match ← tryCompositeEquality env sess W s params sch defs with
    | some rows => .ok (some rows)
    | none =>
      if s.whereClause.isNone then .ok none
      else trySingleColEquality env sess W s sch defs (order (collectEqualities env s params))

/-- `planIndexScan`; none is the full scan. -/
def planIndexScan (s : SelectStmt) (params : Data) : ExecM (Option IndexScan) :=
  if sess.branch ≠ mainBranch ∨ s.relName = otelSpansTable then .ok none
  else
    match resolvedIn sess.ns W s.relName, indexesIn sess.ns W s.relName with
    | none, _ => .ok none
    | some _, none => .error ⟨"XX000", "corrupt index metadata for %q: %v", [s.relName]⟩
    | some sch, some defs => do
      let equal ← if s.sortClause.isEmpty then tryEqualities env order sess W s params sch defs else .ok none
      match equal with
      | some rows => .ok (some ⟨rows, false⟩)
      | none => planRange env sess W S s params sch defs

end BasuyuDb.Executor
