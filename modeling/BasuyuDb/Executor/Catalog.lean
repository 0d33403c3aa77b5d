import BasuyuDb.Lib.Prog
import BasuyuDb.Executor.Eval

/-
  engine/internal/executor/catalog.go, encode.go, scan.go, pgcatalog.go: table and index
  definitions, stored values, and the reads every statement is built from. A statement is a
  program over the keys of one transaction (`Stm`).
-/

namespace BasuyuDb.Executor
open KvLib Storage List
open Prog hiding pure bind

/-! ## Definitions kept in the store -/

/-- `defaultSpec`: a column DEFAULT. -/
inductive DefaultSpec where
  | const (text : Bytes) (oid : Nat)
  | now
  | uuid
  | serial (seq : Bytes)
deriving DecidableEq

/-- The referential actions of a foreign key. -/
inductive FkAction where
  | unspecified
  | noAction
  | restrict
  | cascade
  | setNull
  | setDefault
deriving DecidableEq

/-- `fkColPair`: a local column and the column it references (empty: the parent's key). -/
structure FkColPair where
  localCol : Bytes
  refCol : Bytes
deriving DecidableEq

/-- `colMeta`. An empty `fkTable`, `check` or `generatedExpr` means there is none. -/
structure ColMeta where
  name : Bytes
  typeOID : Nat
  notNull : Bool
  defaultSpec : Option DefaultSpec
  check : Bytes
  fkTable : Bytes
  fkColumn : Bytes
  fkOnDelete : FkAction
  fkOnUpdate : FkAction
  fkCols : List FkColPair
  generated : Bool
  generatedExpr : Bytes
deriving DecidableEq

/-- A column without constraints. -/
def ColMeta.plain (name : String) (oid : Nat) : ColMeta :=
  ⟨str name, oid, false, none, [], [], [], .unspecified, .unspecified, [], false, []⟩

/-- The commands row security distinguishes. -/
inductive Command where
  | all
  | select
  | insert
  | update
  | delete
deriving DecidableEq

structure RlsPolicy where
  name : Bytes
  command : Command
  permissive : Bool
  roles : List Bytes
  usingExpr : Bytes
  checkExpr : Bytes
deriving DecidableEq

/-- `tableSchema`; `pkIndex` is the row-key column. -/
structure TableSchema where
  name : Bytes
  cols : List ColMeta
  pkIndex : Option Nat
  rlsEnabled : Bool
  rlsForced : Bool
  policies : List RlsPolicy
deriving DecidableEq

/-- `indexDef`. `exprs` is empty or parallel to `columns`, with an empty text at plain columns. -/
structure IndexDef where
  name : Bytes
  table : Bytes
  columns : List Bytes
  unique : Bool
  exprs : List Bytes
  whereText : Bytes
deriving DecidableEq

/-- The stored values, decoded: rows and tombstones under data keys, texts (index entries and
sequence counters), and the definitions under metadata keys. -/
inductive Val where
  | row (cells : Data)
  | tombstone
  | text (b : Bytes)
  | schema (sch : TableSchema)
  | indexes (defs : List IndexDef)
  | branchMeta (parent : Bytes)
deriving DecidableEq

/-- A statement, or a part of one: a program inside a transaction. -/
abbrev Stm := Prog Bytes Val Bytes ExecError

def underPrefix (p k : Bytes) : Bool := p.isPrefixOf k

/-- A state of the store, as a transaction sees it. -/
abbrev State := OrdMap Bytes Val

/-- The writes of a transaction, the first one first. -/
abbrev Buffer := List (Mutation Bytes Val)

variable (env : Env)

/-! ## Columns -/

variable (ns : Bytes) (W : State) (sch : TableSchema) (cells : Data) (sess : Session) (table : Bytes)

/-- `colIndex`: by case-insensitive name. -/
def TableSchema.colIndex (name : Bytes) : Option Nat := sch.cols.findIdx? fun c => env.equalFold c.name name

variable {i n : Nat} {kvs : List (Bytes × Val)}

theorem TableSchema.colIndex_lt {sch : TableSchema} {name : Bytes}
    (h : sch.colIndex env name = some i) : i < sch.cols.length :=
  (findIdx?_eq_some_iff_getElem.mp h).1

/-- `cells[i]`; rows have the width of their schema. -/
def cellAt (i : Nat) : Datum := cells.getD i none

theorem cellAt_set_self {cells : Data} (h : i < cells.length) (d : Datum) : cellAt (cells.set i d) i = d := by
  simp [cellAt, getD_eq_getElem?_getD, getElem?_set_self h]

theorem cellAt_set_ne {j : Nat} (h : i ≠ j) (d : Datum) : cellAt (cells.set i d) j = cellAt cells j := by
  simp [cellAt, getD_eq_getElem?_getD, getElem?_set_ne h]

theorem cellAt_takeD (h : i < n) : cellAt (cells.takeD n none) i = cellAt cells i := by
  induction n generalizing cells i with
  | zero => exact absurd h (Nat.not_lt_zero i)
  | succ n ih =>
    cases cells with
    | nil =>
      cases i with
      | zero => rfl
      | succ i => exact ih [] (Nat.lt_of_succ_lt_succ h)
    | cons c cells =>
      cases i with
      | zero => rfl
      | succ i => exact ih cells (Nat.lt_of_succ_lt_succ h)

def TableSchema.oidAt (i : Nat) : Nat := (sch.cols.map ColMeta.typeOID).getD i 0

def TableSchema.nameAt (i : Nat) : Bytes := (sch.cols.map ColMeta.name).getD i []

/-- The value of a named column of a row. -/
def columnValue (col : Bytes) : ExecM Value :=
  match sch.colIndex env col with
  | some i => .ok ⟨cellAt cells i, sch.oidAt i⟩
  | none => .error ⟨"42703", "column %q does not exist", [col]⟩

/-- `rowResolver`: a bare column, or one qualified by the table or its alias. -/
def rowResolver (aliasName : Bytes) (cells : Data) (fields : List Bytes) : ExecM Value :=
  if 1 < fields.length ∧ ¬env.equalFold (fields.headD []) aliasName ∧ ¬env.equalFold (fields.headD []) sch.name then
    .error ⟨"42P01", "missing FROM-clause entry for table %q", [fields.headD []]⟩
  else columnValue env sch cells (fields.getLastD [])

/-! ## Rows -/

def encodeRow : Val := .row cells

/-- `decodeRow`: missing trailing columns read as NULL. -/
def decodeRow (v : Val) (n : Nat) : ExecM Data :=
  match v with
  | .row cells => .ok (cells.takeD n none)
  | .tombstone => .error ⟨"XX000", "attempt to decode a tombstone row", []⟩
  | _ => .error ⟨"XX000", "corrupt row tuple: truncated header for column %d", []⟩

structure ScanRow where
  key : Bytes
  cells : Data
deriving DecidableEq

variable {rows : List ScanRow}

/-- The live rows among scanned entries. -/
def liveRows (n : Nat) : List (Bytes × Val) → ExecM (List ScanRow)
  | [] => .ok []
  | (k, v) :: kvs =>
    if v = .tombstone then liveRows n kvs
    else do
      let cells ← decodeRow v n
      let rows ← liveRows n kvs
      .ok (⟨k, cells⟩ :: rows)

/-! ## Catalog reads -/

/-- `OTelSpansTable`, the built-in relation of ingested spans. -/
def otelSpansTable : Bytes := str "otel_spans"

def otelSpansSchema : TableSchema where
  name := otelSpansTable
  cols := [.plain "trace_id" OIDText, .plain "span_id" OIDText,
    .plain "parent_span_id" OIDText, .plain "service_name" OIDText,
    .plain "span_name" OIDText, .plain "duration_ms" OIDInt8, .plain "status" OIDText,
    .plain "started_at" OIDText, .plain "attributes" OIDText]
  pkIndex := none
  rlsEnabled := false
  rlsForced := false
  policies := []

def loadSchema : Stm TableSchema := do
  match ← Prog.read (schemaKey sess.ns table) with
  | none => .throw ⟨"42P01", "relation %q does not exist", [table]⟩
  | some (.schema sch) => pure sch
  | some _ => .throw ⟨"XX000", "corrupt schema for %q: %v", [table]⟩

/-- `indexListKey`: beside the schema. -/
def indexListKey : Bytes := schemaKey sess.ns (table ++ str "#idx")

def loadIndexes : Stm (List IndexDef) := do
  match ← Prog.read (indexListKey sess table) with
  | none => pure []
  | some (.indexes defs) => pure defs
  | some _ => .throw ⟨"XX000", "corrupt index metadata for %q: %v", [table]⟩

def resolveSchema : Stm TableSchema := if table = otelSpansTable then pure otelSpansSchema else loadSchema sess table

/-- `strings.Contains`. -/
def containsBytes (s sub : Bytes) : Bool := s.tails.any (sub.isPrefixOf ·)

/-- Metadata entries beside the table schemas. -/
def isMetaTail (tail : Bytes) : Bool :=
  containsBytes tail (str "#idx") || containsBytes tail (str "#seq") ||
    containsBytes tail (str "#view")

/-- The schemas among scanned metadata entries. -/
def schemasOf (plen : Nat) (kvs : List (Bytes × Val)) : List TableSchema :=
  kvs.filterMap fun kv => match kv.2 with
    | .schema sch => if isMetaTail (kv.1.drop plen) then none else some sch
    | _ => none

/-- `listTables`: the user tables of the namespace. -/
def listTables : Stm (List TableSchema) := do
  let root := schemaKey sess.ns []
  let kvs ← Prog.range root
  pure (schemasOf root.length kvs)

def mainBranch : Bytes := str "main"

/-- The parent of a feature branch: its metadata, or main. -/
def parentBranch : Stm Bytes := do
  match ← Prog.read (branchMetaKey sess.ns sess.branch) with
  | some (.branchMeta parent) => pure (if parent = [] then mainBranch else parent)
  | _ => pure mainBranch

/-- `keyTail`: the key after the table's row prefix. -/
def keyTail (key pre : Bytes) : Bytes := if key.length < pre.length then key else key.drop pre.length

/-- The rows a feature branch sees of its parent: those it neither overrides nor deletes. -/
def scanParent (n : Nat) (own : List (Bytes × Val)) : Stm (List ScanRow) := do
  let pre := rowPrefix sess.ns sess.branch table
  let seen := own.map fun kv => keyTail kv.1 pre
  let parent ← parentBranch sess
  let parentPre := rowPrefix sess.ns parent table
  let kvs ← Prog.range parentPre
  ofExcept (liveRows n (kvs.filter fun kv => !seen.contains (keyTail kv.1 parentPre)))

/-- The rows of `scanTable`, for a schema already resolved. -/
def scanRows (n : Nat) : Stm (List ScanRow) := do
  let kvs ← Prog.range (rowPrefix sess.ns sess.branch table)
  let own ← ofExcept (liveRows n kvs)
  if sess.branch = mainBranch ∨ table = otelSpansTable then pure own
  else do
    let parents ← scanParent sess table n kvs
    pure (own ++ parents)

/-- `scanTable`: the schema of a relation and its rows on the session's branch. -/
def scanTable : Stm (TableSchema × List ScanRow) := do
  let sch ← resolveSchema sess table
  let rows ← scanRows sess table sch.cols.length
  pure (sch, rows)

/-! ## What the reads answer

The catalog and the rows of a state, and the rules by which a statement reads them. On main a
scan is one range; `Writes (fun _ => False)` says that a part of a statement only reads. -/

/-- The schema of a table in a state. -/
def schemaIn : Option TableSchema :=
  match W.lookup (schemaKey ns table) with
  | some (.schema sch) => some sch
  | _ => none

/-- The schema a statement resolves a relation to. -/
def resolvedIn : Option TableSchema := if table = otelSpansTable then some otelSpansSchema else schemaIn ns W table

/-- The index definitions of a table; none when the entry is not an index list. -/
def indexesIn : Option (List IndexDef) :=
  match W.lookup (schemaKey ns (table ++ str "#idx")) with
  | none => some []
  | some (.indexes defs) => some defs
  | some _ => none

/-- The tables of the namespace. -/
def tablesIn : List TableSchema := schemasOf (schemaKey ns []).length (W.scan (underPrefix (schemaKey ns [])))

/-- The rows of a table on main, under a schema of the given width. -/
def rowsIn (width : Nat) : ExecM (List ScanRow) :=
  liveRows width (W.scan (underPrefix (rowPrefix ns mainBranch table)))

theorem schemaIn_eq_some {ns : Bytes} {W : State} {x : Bytes} {sch : TableSchema} :
    schemaIn ns W x = some sch ↔ W.lookup (schemaKey ns x) = some (.schema sch) := by
  unfold schemaIn
  split
  · rename_i t ht
    rw [ht]
    simp
  · rename_i hne
    constructor
    · intro h
      cases h
    · intro h
      exact absurd h (hne sch)

section reads
variable {sess table} {s : Snap Bytes Val} {buf : Buffer}
  {Q : TableSchema → Buffer → Prop}

theorem wp_loadSchema : (loadSchema sess table).wp underPrefix s Q buf ↔
      ∀ sch, schemaIn sess.ns (s.seen buf) table = some sch → Q sch buf := by
  simp only [loadSchema, schemaIn, wp_bind, wp_read]
  generalize (s.seen buf).lookup (schemaKey sess.ns table) = o
  cases o with
  | none => simp
  | some v => cases v <;> simp

theorem wp_loadIndexes {Q : List IndexDef → Buffer → Prop} :
    (loadIndexes sess table).wp underPrefix s Q buf ↔
      ∀ defs, indexesIn sess.ns (s.seen buf) table = some defs → Q defs buf := by
  simp only [loadIndexes, indexesIn, indexListKey, wp_bind, wp_read]
  generalize (s.seen buf).lookup (schemaKey sess.ns (table ++ str "#idx")) = o
  cases o with
  | none => simp
  | some v => cases v <;> simp

theorem wp_listTables {Q : List TableSchema → Buffer → Prop} :
    (listTables sess).wp underPrefix s Q buf ↔ Q (tablesIn sess.ns (s.seen buf)) buf := Iff.rfl

theorem wp_resolveSchema : (resolveSchema sess table).wp underPrefix s Q buf ↔
      ∀ sch, resolvedIn sess.ns (s.seen buf) table = some sch → Q sch buf := by
  unfold resolveSchema resolvedIn
  split
  · simp
  · exact wp_loadSchema

theorem wp_scanTable (hmain : sess.branch = mainBranch)
    {Q : TableSchema × List ScanRow → Buffer → Prop} :
    (scanTable sess table).wp underPrefix s Q buf ↔ ∀ sch, resolvedIn sess.ns (s.seen buf) table = some sch →
        ∀ rows, rowsIn sess.ns (s.seen buf) table sch.cols.length = .ok rows → Q (sch, rows) buf := by
  simp only [scanTable, scanRows, rowsIn, hmain, true_or, if_true, wp_bind, wp_resolveSchema, wp_range, wp_ofExcept, wp_pure]

variable {P : Mutation Bytes Val → Prop}

theorem loadSchema_writes : (loadSchema sess table).Writes P := by
  refine Writes.bind (Writes.read _) ?_
  intro o
  split
  · exact Writes.throw _
  · exact Writes.pure _
  · exact Writes.throw _

theorem loadIndexes_writes : (loadIndexes sess table).Writes P := by
  refine Writes.bind (Writes.read _) ?_
  intro o
  split
  · exact Writes.pure _
  · exact Writes.pure _
  · exact Writes.throw _

theorem resolveSchema_writes : (resolveSchema sess table).Writes P := by
  unfold resolveSchema
  split
  · exact Writes.pure _
  · exact loadSchema_writes

theorem scanRows_writes {n : Nat} : (scanRows sess table n).Writes P := by
  refine Writes.bind (Writes.range _) fun kvs => ?_
  refine Writes.bind (Writes.ofExcept _) fun own => ?_
  split
  · exact Writes.pure _
  · refine Writes.bind ?_ (fun _ => Writes.pure _)
    refine Writes.bind ?_ fun parent => ?_
    · refine Writes.bind (Writes.read _) (fun o => ?_)
      split
      · exact Writes.pure _
      · exact Writes.pure _
    · exact Writes.bind (Writes.range _) fun _ => Writes.ofExcept _

theorem scanTable_writes : (scanTable sess table).Writes P :=
  Writes.bind resolveSchema_writes fun _ => Writes.bind scanRows_writes fun _ => Writes.pure _

end reads

/-- The row of a live entry, with `n` columns. -/
def rowOf (n : Nat) (kv : Bytes × Val) : Option ScanRow :=
  match kv.2 with
  | .row cells => some ⟨kv.1, cells.takeD n none⟩
  | _ => none

/-- What the statements write under a row prefix. -/
def isEntry : Val → Bool
  | .row _ => true
  | .tombstone => true
  | _ => false

theorem isEntry_iff {v : Val} : isEntry v = true ↔ v = .tombstone ∨ ∃ cells, v = .row cells := by
  cases v with
  | row cells => simp [isEntry]
  | tombstone | text b | schema sch | indexes defs | branchMeta p => simp [isEntry]

theorem liveRows_eq_ok : liveRows n kvs = .ok rows ↔
    (∀ kv ∈ kvs, isEntry kv.2 = true) ∧ kvs.filterMap (rowOf n) = rows := by
  induction kvs generalizing rows with
  | nil => simp [liveRows]
  | cons kv kvs ih =>
    obtain ⟨k, v⟩ := kv
    cases v with
    | row cells =>
      have hcons : ((k, Val.row cells) :: kvs).filterMap (rowOf n) = ⟨k, cells.takeD n none⟩ :: kvs.filterMap (rowOf n) := rfl
      rw [hcons, forall_mem_cons]
      cases hrest : liveRows n kvs with
      | error e =>
        refine iff_of_false (by simp [liveRows, decodeRow, hrest, bind, Except.bind]) fun h => ?_
        cases hrest.symm.trans (ih.mpr ⟨h.1.2, rfl⟩)
      | ok rest =>
        obtain ⟨hall, rfl⟩ := ih.mp hrest
        rw [liveRows, if_neg nofun, hrest]
        exact ⟨fun h => ⟨⟨rfl, hall⟩, Except.ok.inj h⟩, fun h => congrArg _ h.2⟩
    | tombstone =>
      rw [liveRows, if_pos rfl, ih, forall_mem_cons]
      exact and_congr_left' (and_iff_right rfl).symm
    | text b | schema sch | indexes defs | branchMeta p =>
      exact iff_of_false nofun fun h => nomatch (forall_mem_cons.mp h.1).1

theorem mem_liveRows (h : liveRows n kvs = .ok rows) {r : ScanRow} :
    r ∈ rows ↔ ∃ cells, (r.key, Val.row cells) ∈ kvs ∧ r.cells = cells.takeD n none := by
  obtain ⟨-, rfl⟩ := liveRows_eq_ok.mp h
  constructor
  · intro hr
    obtain ⟨⟨k, v⟩, hkv, hrow⟩ := mem_filterMap.mp hr
    cases v with
    | row cells =>
      cases hrow
      exact ⟨cells, hkv, rfl⟩
    | tombstone | text b | schema sch | indexes defs | branchMeta p => cases hrow
  · rintro ⟨cells, hkv, hcells⟩
    exact mem_filterMap.mpr ⟨_, hkv, congrArg (some ∘ ScanRow.mk r.key) hcells.symm⟩

theorem liveRows_entry (h : liveRows n kvs = .ok rows) {k : Bytes} {v : Val} (hkv : (k, v) ∈ kvs) :
    v = .tombstone ∨ ∃ cells, v = .row cells :=
  isEntry_iff.mp ((liveRows_eq_ok.mp h).1 (k, v) hkv)

theorem liveRows_sublist (h : liveRows n kvs = .ok rows) : (rows.map ScanRow.key).Sublist (kvs.map Prod.fst) := by
  obtain ⟨-, rfl⟩ := liveRows_eq_ok.mp h
  clear h
  induction kvs with
  | nil => exact .slnil
  | cons kv kvs ih =>
    obtain ⟨k, v⟩ := kv
    cases v with
    | row cells => exact ih.cons_cons k
    | tombstone | text b | schema sch | indexes defs | branchMeta p => exact ih.cons k

end BasuyuDb.Executor
