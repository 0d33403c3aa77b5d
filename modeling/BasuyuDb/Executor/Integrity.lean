import BasuyuDb.Executor.Constraints

/-
  The constraints of a schema as properties of a state of the store, on main: what the checks
  of the statements are there to keep.
-/

namespace BasuyuDb.Executor
open KvLib Storage

variable (env : Env) (ns : Bytes) (W : State)

/-- UNIQUE: rows under one tuple of a unique index have one primary key. -/
def UniqueOk : Prop :=
  ∀ sch ∈ tablesIn ns W, ∀ defs rows, indexesIn ns W sch.name = some defs →
    rowsIn ns W sch.name sch.cols.length = .ok rows →
    ∀ d ∈ defs, d.unique = true → ∀ r ∈ rows, ∀ r' ∈ rows, ∀ site site' tuple,
      indexedTuple env sch d r.cells site = .ok (some tuple) →
      indexedTuple env sch d r'.cells site' = .ok (some tuple) →
      primaryKeyBytes sch r.cells r.key = primaryKeyBytes sch r'.cells r'.key

/-- FOREIGN KEY: a row without NULLs in a foreign key has its parent row, in a table of the
catalog. -/
def ForeignKeysOk : Prop :=
  ∀ sch ∈ tablesIn ns W, ∀ rows, rowsIn ns W sch.name sch.cols.length = .ok rows →
    ∀ fk ∈ childForeignKeys sch, ∀ r ∈ rows, ∀ vals, localTuple env sch r.cells fk.pairs = some vals →
      ∃ psch prows, schemaIn ns W fk.table = some psch ∧ rowsIn ns W fk.table psch.cols.length = .ok prows ∧
        ∃ pr ∈ prows, refTupleFromParent env psch pr.cells fk = some vals

end BasuyuDb.Executor
