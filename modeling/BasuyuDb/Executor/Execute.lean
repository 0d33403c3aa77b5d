import BasuyuDb.Lib.Runs
import BasuyuDb.Executor.Ddl
import BasuyuDb.Branch.Manager

/-
  engine/internal/executor/executor.go: statements executed one at a time in autocommit. A
  database is a state of the store with its timestamp; a history is a run of `Db.step` from the
  empty database, in which every statement succeeded.
-/

namespace BasuyuDb.Executor
open KvLib Storage

variable (env : Env)

inductive Stmt where
  | createTable (s : CreateStmt)
  | createIndex (s : IndexStmt)
  | dropTable (table : Bytes) (ifExists : Bool)
  | truncate (table : Bytes)
  | alterTable (s : AlterTableStmt)
  | dml (s : DmlStmt)
  | createBranch (name parent : Bytes)
  | mergeBranch (src : Bytes)

/-- A statement as a session executes it. -/
structure Call where
  sess : Session
  stmt : Stmt
  params : Data

/-- `Execute`, the dispatch over statements. -/
def Call.run (c : Call) : Stm Result :=
  match c.stmt with
  | .createTable s => execCreateTable env c.sess s
  | .createIndex s => do
    execCreateIndex env c.sess s
    pure ⟨"CREATE INDEX", 0, []⟩
  | .dropTable table ifExists => execDropTable c.sess table ifExists
  | .truncate table => execTruncate c.sess table
  | .alterTable s => execAlterTable env c.sess s
  | .dml s => DmlCall.run env ⟨c.sess, s, c.params⟩
  | .createBranch name parent => Branch.execCreateBranch c.sess name parent
  | .mergeBranch src => Branch.execMergeBranch c.sess src

/-- The store between two statements. -/
abbrev Db := Snap Bytes Val

def Db.empty : Db := ⟨OrdMap.empty, 0⟩

/-- One successful statement, with the first of its fresh numbers. -/
def Db.step (db : Db) (c : Call × Nat) : Option Db :=
  match (c.1.run env).exec underPrefix db [] c.2 with
  | .ok _ => some (Prog.commitOn underPrefix db (c.1.run env, c.2))
  | .error _ => none

theorem Db.step_eq_some {env : Env} {db db' : Db} {c : Call × Nat} (h : Db.step env db c = some db') :
    ∃ res ms, (c.1.run env).exec underPrefix db [] c.2 = .ok (res, ms) ∧ db'.map = db.seen ms := by
  unfold Db.step at h
  split at h
  · rename_i ab hexec
    obtain ⟨res, ms⟩ := ab
    refine ⟨res, ms, hexec, ?_⟩
    cases h
    unfold Prog.commitOn
    rw [hexec]
    cases ms with
    | nil | cons m ms => rfl
  · cases h

/-! ## Runs on a small table

A table t(id PRIMARY KEY, v) in the namespace n, and what sessions on its branches do. -/

def demoEnv : Env := asciiEnv fun _ => .const .null

def demoSession (branch : String) : Session := ⟨str "n", str branch, str "postgres", false, []⟩

/-- CREATE TABLE with the primary key id and other columns. -/
def createKeyed (table type : String) (cols : List ColumnDef) : Call :=
  ⟨demoSession "main", .createTable ⟨str table,
    { ColumnDef.plain "id" type with notNull := true, primaryKey := true } :: cols, [], false⟩, []⟩

def keyedSchema (table : String) (oid : Nat) (cols : List ColMeta) : TableSchema :=
  ⟨str table, { ColMeta.plain "id" oid with notNull := true } :: cols, some 0, false, false, []⟩

/-- A row of such a table, the key first. -/
def keyedRow (table : String) (cells : List String) : ScanRow :=
  ⟨rowKey (str "n") mainBranch (str table) (str (cells.headD "")), cells.map fun c => some (str c)⟩

def insertValues (branch table : String) (values : List Const) : Call :=
  ⟨demoSession branch, .dml (.insert ⟨str table, [], values.map .const, none, .none⟩), []⟩

def createDemo : Call := createKeyed "t" "text" [.plain "v" "text"]

def insertDemo (branch id v : String) : Call := insertValues branch "t" [.string (str id), .string (str v)]

def branchDemo (name parent : String) : Call := ⟨demoSession "main", .createBranch (str name) (str parent), []⟩

/-- A run of the statements, one at a time. -/
def demoRun (calls : List Call) : Option Db :=
  runAll (Db.step demoEnv) (fun _ _ => True) Db.empty (calls.map fun c => (c, 0))

def demoSchema : TableSchema := keyedSchema "t" OIDText [.plain "v" OIDText]

def demoRow (id v : String) : ScanRow := keyedRow "t" [id, v]

/-- A table h(a, b) without a primary key. -/
def createHeap : Call :=
  ⟨demoSession "main", .createTable ⟨str "h", [.plain "a" "text", .plain "b" "text"], [], false⟩, []⟩

def insertHeap (a b : Const) : Call := insertValues "main" "h" [a, b]

def heapSchema : TableSchema := ⟨str "h", [.plain "a" OIDText, .plain "b" OIDText], none, false, false, []⟩

theorem exists_run (env : Env) (calls : List Call) (P : Db → Prop) [DecidablePred P]
    (h : (runAll (Db.step env) (fun _ _ => True) Db.empty (calls.map fun c => (c, 0))).map
      (fun db => decide (P db)) = some true) : ∃ db, Reach (Db.step env) (fun _ _ => True) Db.empty db ∧ P db := by
  obtain ⟨db, hreach, hP⟩ := exists_reach _ h
  exact ⟨db, hreach, of_decide_eq_true hP⟩

theorem exists_demo (calls : List Call) (P : Db → Prop) [DecidablePred P]
    (h : (demoRun calls).map (fun db => decide (P db)) = some true) :
    ∃ db, Reach (Db.step demoEnv) (fun _ _ => True) Db.empty db ∧ P db :=
  exists_run demoEnv calls P h

/-- The type int4 is that of integers. -/
def int4Env : Env := { demoEnv with oidForTypeName := fun t => if t = str "int4" then OIDInt4 else OIDText }

end BasuyuDb.Executor
