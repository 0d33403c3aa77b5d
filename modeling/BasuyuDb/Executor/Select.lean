import BasuyuDb.Executor.Constraints
import BasuyuDb.Executor.IndexScan

/-
  engine/internal/executor/join.go (execSelectFrom, combinedResolver) and sortRows of
  index_scan.go: the rows of a SELECT over one stored table, before projection and LIMIT. The
  rows come from an index or a full scan, pass row security and WHERE, and are sorted unless
  the index already gave the order.
-/

namespace BasuyuDb.Executor
open KvLib Storage List

variable (env : Env)

/-! ## Bound rows -/

/-- `binding`: a row of one FROM item, under its alias. -/
structure Binding where
  aliasName : Bytes
  schema : TableSchema
  cells : Data
deriving DecidableEq

def Binding.cellValue (b : Binding) (i : Nat) : Value := ⟨cellAt b.cells i, b.schema.oidAt i⟩

/-- `combinedResolver`: a qualified column, or an unqualified one that only one item has. -/
def combinedResolver (row : List Binding) (fields : List Bytes) : ExecM Value :=
  let col := fields.getLastD []
  if 1 < fields.length then
    let q := fields.headD []
    match row.find? (fun b => env.equalFold b.aliasName q || env.equalFold b.schema.name q) with
    | some b =>
      match b.schema.colIndex env col with
      | some i => .ok (b.cellValue i)
      | none => .error ⟨"42703", "column %q does not exist in %q", [col, q]⟩
    | none => .error ⟨"42P01", "missing FROM-clause entry for table %q", [q]⟩
  else
    match row.filterMap (fun b => (b.schema.colIndex env col).map b.cellValue) with
    | [] => .error ⟨"42703", "column %q does not exist", [col]⟩
    | [v] => .ok v
    | _ => .error ⟨"42702", "column reference %q is ambiguous", [col]⟩

variable (order : List (Bytes × Bytes) → List (Bytes × Bytes)) (sess : Session) (sch : TableSchema)
  (aliasName : Bytes) (params : Data)

def rowsScope (row : List Binding) : Scope := ⟨params, combinedResolver env row, some sess⟩

/-! ## Filters -/

/-- Keep the rows a check accepts; the first error ends the loop. -/
def filterRows (keep : Data → Site → ExecM Bool) :
    List Data → Site → ExecM (List Data)
  | [], _ => .ok []
  | cells :: rows, site => do
    let k ← keep cells site.l
    let rest ← filterRows keep rows site.r
    .ok (if k then cells :: rest else rest)

theorem filterRows_of_keep {keep : Data → Site → ExecM Bool} {p : Data → Bool}
    {rows : List Data} (h : ∀ cells ∈ rows, ∀ site, keep cells site = .ok (p cells)) (site : Site) :
    filterRows keep rows site = .ok (rows.filter p) := by
  induction rows generalizing site with
  | nil => rfl
  | cons cells rows ih =>
    have hrest := ih fun c hc => h c (mem_cons_of_mem _ hc)
    unfold filterRows
    simp only [h cells mem_cons_self, hrest, bind, Except.bind, filter_cons]

def applyRLSSelect (rows : List Data) (site : Site) : ExecM (List Data) :=
  if rlsApplies sch sess then
    filterRows (fun cells st => rlsRowAllowed env sch aliasName sess .select params cells st) rows site
  else .ok rows

def whereKeeps (w : Option Expr) (cells : Data) (site : Site) : ExecM Bool :=
  match w with
  | none => .ok true
  | some e => do .ok (asBool (← e.eval env (rowsScope env sess params [⟨aliasName, sch, cells⟩]) site))

/-! ## ORDER BY -/

/-- The encoded key of one ORDER BY expression; a NULL has none. -/
def sortKey (cells : Data) (sb : SortBy) (site : Site) : ExecM (Option Bytes) := do
  let v ← sb.node.eval env ⟨params, combinedResolver env [⟨aliasName, sch, cells⟩], none⟩ site
  match v.cell with
  | none => .ok none
  | some text => do .ok (some (← orderEncode env v.oid text))

def sortKeys (sch : TableSchema) (aliasName : Bytes) (params : Data) (cells : Data) :
    List SortBy → Site → ExecM (List (Option Bytes))
  | [], _ => .ok []
  | sb :: sbs, site => do
    let k ← sortKey env sch aliasName params cells sb site.l
    .ok (k :: (← sortKeys sch aliasName params cells sbs site.r))

/-- `compareSortKey`: a NULL is greater than any value. -/
def compareSortKey : Option Bytes → Option Bytes → Ordering
  | none, none => .eq
  | none, some _ => .gt
  | some _, none => .lt
  | some a, some b => compareBytes a b

/-- The `less` of `sortRows`; a row has one key for each ORDER BY expression. -/
def sortLess : List SortBy → List (Option Bytes) → List (Option Bytes) → Bool
  | [], _, _ => false
  | sb :: sbs, as, bs =>
    match compareSortKey (as.headD none) (bs.headD none) with
    | .eq => sortLess sbs as.tail bs.tail
    | .lt => !sb.desc
    | .gt => sb.desc

/-- The rows with their sort keys. -/
def withKeys (sch : TableSchema) (aliasName : Bytes) (params : Data) (clause : List SortBy) :
    List Data → Site → ExecM (List (List (Option Bytes) × Data))
  | [], _ => .ok []
  | cells :: rows, site => do
    let ks ← sortKeys env sch aliasName params cells clause site.l
    .ok ((ks, cells) :: (← withKeys sch aliasName params clause rows site.r))

/-- `sortRows`; the merge sort is stable, as `sort.SliceStable` is. -/
def sortRows (clause : List SortBy)
    (rows : List Data) (site : Site) : ExecM (List Data) := do
  let items ← withKeys env sch aliasName params clause rows site
  .ok ((items.mergeSort fun a b => !sortLess clause b.1 a.1).map Prod.snd)

/-! ## SELECT -/

/-- The rows of the FROM item: those of an index scan, with whether they are in order, or all. `W` is what the
transaction sees, and `S` its snapshot without the writes it has buffered. -/
def fromRows (W S : State) (s : SelectStmt) (params : Data) (all : List Data) :
    ExecM IndexScan := do
  match ← planIndexScan env order sess W S s params with
  | some scan => .ok scan
  | none => .ok ⟨all, false⟩

/-- `execSelectFrom` up to projection, on main; `sch` and `all` are what `scanTable` answers. -/
def selectRows (W S : State)
    (s : SelectStmt) (params : Data) (sch : TableSchema) (all : List Data) (site : Site) :
    ExecM (List Data) := do
  let scan ← fromRows env order sess W S s params all
  let rows ← applyRLSSelect env sess sch s.relAlias params scan.rows site.l
  let kept ← filterRows (whereKeeps env sess sch s.relAlias params s.whereClause) rows site.r.l
  if s.sortClause.isEmpty ∨ scan.ordered then .ok kept
  else sortRows env sch s.relAlias params s.sortClause kept site.r.r

end BasuyuDb.Executor
