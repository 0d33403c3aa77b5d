import BasuyuDb.Executor.Execute
import BasuyuDb.Executor.Sessions
import BasuyuDb.Branch.Actions

/-
  engine/internal/executor/advanced_dml.go, copy.go, executor.go: INSERT of several rows, INSERT ... SELECT and
  COPY FROM in autocommit. Each makes a single-row INSERT of every row and runs it through `execInsert`, which
  finds no transaction in its context and begins and commits one of its own. When a row is refused the rows
  before it stay, and when all are accepted they become visible one after the other. Commit may find a write
  conflict, after which `Execute` runs the whole statement again (COPY: the row), or fail in the store; what a
  failed flush persisted is published by the next commit.
-/

namespace BasuyuDb.Executor
open KvLib Storage Transactions List
open Prog hiding pure bind
open Branch

variable (env : Env)

/-! ## Statements -/

/-- The statements that insert several rows. The query of INSERT ... SELECT answers its column names and its
rows. -/
inductive BulkInsert where
  | values (table : Bytes) (cols : List Bytes) (rows : List (List Expr)) (onConflict : Option OnConflict) (returning : Returning)
  | select (table : Bytes) (cols : List Bytes) (query : Stm (List Bytes × List Data))
      (reads : query.Writes fun _ => False) (onConflict : Option OnConflict)
  | copy (table : Bytes) (cols : List Bytes) (rows : List Data)

/-- A value of a result row as a constant. -/
def datumConst : Datum → Expr
  | none => .const .null
  | some text => .const (.string text)

variable (sess : Session) (s : InsertStmt) (params : Data) (db : Db)

/-- The single-row INSERTs of a statement whose query reads `db`. -/
def BulkInsert.singles (i : Nat) : BulkInsert → ExecM (List InsertStmt)
  | .values table cols rows onConflict returning => .ok (rows.map fun es => ⟨table, cols, es, onConflict, returning⟩)
  | .select table cols query _ onConflict => do
    let x ← query.exec underPrefix db [] i
    .ok (x.1.2.map fun r => ⟨table, if cols = [] then x.1.1 else cols, r.map datumConst, onConflict, .none⟩)
  | .copy table cols rows => .ok (rows.map fun r => ⟨table, cols, r.map datumConst, none, .none⟩)

/-! ## The transaction of a row -/

/-- What is around the transaction of a row: the snapshot it reads, the engine when it commits, in which
earlier rows and other sessions have left their commits and no other Commit is in progress, the first of its
fresh numbers, the keys whose version the store fails to read, and what a flush that fails persists. -/
structure Try where
  readUint : Nat
  eng : Engine Val
  idle : eng.phase = .idle
  tick : Nat
  fault : Bytes → Bool
  flushFail : Option (List Bool)

def Try.snap (a : Try) : Db := ⟨a.eng.store.view a.readUint, a.readUint⟩

/-- `Commit` of a transaction with these writes: the engine after it, and the reply. -/
def Try.commit (a : Try) (ms : List (Mut Val)) : Engine Val × Reply :=
  let e : Engine Val := { a.eng with txns := a.eng.txns ++ [⟨a.readUint, ms, false⟩] }
  match e.step (.commit a.eng.txns.length a.fault) with
  | some (e, .inProgress) =>
    match a.flushFail with
    | none => ((e.step .flush).bind fun r => r.1.step .publish).getD (e, .storeErr)
    | some persisted => (e.step (.flushFail persisted)).getD (e, .storeErr)
  | some r => r
  | none => (e, .storeErr)

/-- The writes that Commit leaves in the store. -/
def Try.kept (a : Try) (ms : List (Mut Val)) : List (Mut Val) :=
  if checkConflicts a.eng.store a.readUint a.fault ms = .pass then
    match a.flushFail with
    | none => ms
    | some persisted => masked persisted ms
  else []

/-- The transaction of a row that was not refused. -/
structure RowTxn where
  around : Try
  stmt : InsertStmt
  params : Data
  writes : Buffer
  ran : ∃ res, (execInsert env sess stmt params).exec underPrefix around.snap [] around.tick = .ok (res, writes)

variable {env sess} in
def RowTxn.reply (x : RowTxn env sess) : Reply := (x.around.commit x.writes).2

variable {env sess} in
def RowTxn.kept (x : RowTxn env sess) : List (Mut Val) := x.around.kept x.writes

/-! ## Execution -/

/-- Why an execution ended early. -/
inductive Failure where
  | writeConflict
  | exec (e : ExecError)

def Failure.error : Failure → ExecError
  | .writeConflict => serializationFailure
  | .exec e => e

/-- `execInsert` of one row: its transaction, unless the row is refused, and the answer. -/
def insertOne (a : Try) : List (RowTxn env sess) × Except Failure Result :=
  match h : (execInsert env sess s params).exec underPrefix a.snap [] a.tick with
  | .error e => ([], .error (.exec e))
  | .ok (res, ms) =>
    let x : RowTxn env sess := ⟨a, s, params, ms, res, h⟩
    ([x], match x.reply with
      | .ok => .ok res
      | .writeConflict => .error .writeConflict
      | _ => .error (.exec storeFailure))

variable {env sess} in
/-- The loop over the rows: the transactions, and the answers. -/
def eachRow {E : Type} (one : Nat → InsertStmt → List (RowTxn env sess) × Except E Result) :
    Nat → List InsertStmt → List (RowTxn env sess) × Except E (List Result)
  | _, [] => ([], .ok [])
  | j, s :: rows =>
    match (one j s).2 with
    | .error e => ((one j s).1, .error e)
    | .ok res =>
      let rest := eachRow one (j + 1) rows
      ((one j s).1 ++ rest.1, rest.2.map (res :: ·))

variable {env sess} in
/-- `Execute` in autocommit, from the `k`-th execution on: after a write conflict it executes again. -/
def execute {α : Type} (once : Nat → List (RowTxn env sess) × Except Failure α) :
    Nat → Nat → List (RowTxn env sess) × ExecM α
  | 0, k => ((once k).1, (once k).2.mapError Failure.error)
  | retries + 1, k =>
    match (once k).2 with
    | .error .writeConflict =>
      let again := execute once retries (k + 1)
      ((once k).1 ++ again.1, again.2)
    | r => ((once k).1, r.mapError Failure.error)

def totalAffected (results : List Result) : Nat := (results.map Result.rowsAffected).sum

/-- The reply of a statement whose rows were all accepted. -/
def BulkInsert.reply (results : List Result) : BulkInsert → Result
  | .values .. =>
    match results.getLast? with
    | some last => { last with rowsAffected := totalAffected results }
    | none => ⟨"INSERT", 0, []⟩
  | .select .. => ⟨"INSERT", totalAffected results, []⟩
  | .copy .. => ⟨"COPY", results.length, []⟩

/-- `execInsertMultiRow` and `execInsertSelect`. -/
def BulkInsert.once (query : Db × Nat) (around : Nat → Try) (b : BulkInsert) :
    List (RowTxn env sess) × Except Failure Result :=
  match b.singles query.1 query.2 with
  | .error e => ([], .error (.exec e))
  | .ok stmts =>
    let ran := eachRow (fun j s => insertOne env sess s params (around j)) 0 stmts
    (ran.1, ran.2.map fun results => b.reply results)

/-- A statement; `query k` is what the query of its `k`-th execution reads, `around k j` what is around the
`k`-th try of row `j`. `CopyFrom` calls `Execute` for every row. -/
def BulkInsert.exec (query : Nat → Db × Nat) (around : Nat → Nat → Try) (b : BulkInsert) :
    List (RowTxn env sess) × ExecM Result :=
  match b with
  | .copy table cols rows =>
    let ran := eachRow (fun j s => execute (fun k => insertOne env sess s [] (around k j)) maxRetries 0) 0
      (rows.map fun r => ⟨table, cols, r.map datumConst, none, .none⟩)
    (ran.1, ran.2.map fun results => b.reply results)
  | b => execute (fun k => b.once env sess params (query k) (around k)) maxRetries 0

/-! ## Atomicity -/

/-- The keys of the rows and index entries of main. -/
def onMain (ns k : Bytes) : Bool := (nsRoot ns ++ str "/main/").isPrefixOf k

section atomic
variable {env sess}

/-- The transaction left a row or an index entry in the store, which later transactions see, at once or from
the next commit on. -/
def RowTxn.shows (x : RowTxn env sess) : Bool := x.kept.any fun m => onMain sess.ns m.key

variable (ran : List (RowTxn env sess) × ExecM Result)

/-- A statement is atomic: when it fails no row or index entry of it is in the store, when it succeeds no two
of its transactions left some. -/
def Atomic : Prop :=
  match ran.2 with
  | .error _ => ∀ x ∈ ran.1, x.shows = false
  | .ok _ => ran.1.Pairwise fun x y => x.shows = false ∨ y.shows = false

end atomic

/-- The row's key is stored already, and ON CONFLICT says DO NOTHING. -/
def Skips (s : InsertStmt) (i : Nat) : Prop :=
  s.onConflict = some .doNothing ∧ ∃ sch cells key raw buf,
    (insertTarget env sess s params).exec underPrefix db [] i = .ok ((sch, cells, key, some raw), buf)

section atomic
variable {env sess}

/-- The row is skipped, or Commit found a write conflict, or it failed and persisted no row or entry. -/
def RowTxn.Unseen (x : RowTxn env sess) : Prop :=
  Skips env sess x.params x.around.snap x.stmt x.around.tick ∨ x.reply = .writeConflict ∨
    x.reply = .storeErr ∧ x.shows = false

/-- All transactions, or all but one, are unseen. -/
def UnseenButOne (ran : List (RowTxn env sess) × ExecM Result) : Prop :=
  match ran.2 with
  | .error _ => ∀ x ∈ ran.1, x.Unseen
  | .ok _ => ran.1.Pairwise fun x y => x.Unseen ∨ y.Unseen

end atomic

def BulkInsert.doNothing : BulkInsert → Prop
  | .values _ _ _ onConflict _ => onConflict = some .doNothing
  | .select _ _ _ _ onConflict => onConflict = some .doNothing
  | .copy .. => False

/-- COPY has no parameters. -/
def BulkInsert.bound : BulkInsert → Data
  | .copy .. => []
  | _ => params

def FirstRefused (a : Try) (stmts : List InsertStmt) : Prop :=
  ∃ s ∈ stmts.head?, ∃ e, (execInsert env sess s params).exec underPrefix a.snap [] a.tick = .error e

/-! ## Commit -/

section commit
variable (a : Try) (ms : List (Mut Val))

theorem Try.commit_spec : (a.commit ms).1.phase = .idle ∧
    (a.commit ms).1.store = a.eng.store.writeBatch (a.eng.clock + 1) (a.kept ms) ∧
    ((a.commit ms).2 = .ok ∧ a.kept ms = ms ∨ (a.commit ms).2 = .writeConflict ∧ a.kept ms = [] ∨
      (a.commit ms).2 = .storeErr) := by
  have hidle := a.idle
  have hcommit : ({ a.eng with txns := a.eng.txns ++ [⟨a.readUint, ms, false⟩] } : Engine Val).step
      (.commit a.eng.txns.length a.fault) =
      ({ a.eng with txns := a.eng.txns ++ [⟨a.readUint, ms, false⟩] } : Engine Val).startCommit a.eng.txns.length a.fault
        ⟨a.readUint, ms, false⟩ := by
    simp [Engine.step, hidle, Phase.ownedBy]
  unfold Try.commit
  dsimp only
  rw [hcommit]
  unfold Engine.startCommit Try.kept
  have hnone : a.eng.store = a.eng.store.writeBatch (a.eng.clock + 1) [] := rfl
  cases ms with
  | nil =>
    have hkept : (match a.flushFail with | none => [] | some persisted => masked persisted []) = ([] : List (Mut Val)) := by
      rcases a.flushFail with - | - | - <;> rfl
    simp [checkConflicts, hkept, hidle, ← hnone, Engine.setTxn]
  | cons m ms =>
    cases checkConflicts a.eng.store a.readUint a.fault (m :: ms) with
    | fault | conflict => simp [hidle, ← hnone, Engine.setTxn]
    | pass =>
      cases a.flushFail with
      | none | some persisted => simp [hidle, Engine.step, Engine.setTxn]

theorem Try.kept_subset : a.kept ms ⊆ ms := by
  unfold Try.kept
  split
  · split
    · exact Subset.refl _
    · exact masked_subset _ _
  · exact nil_subset _

end commit

/-! ## One row -/

section rows
variable {env sess s params} {snap : Db} {buf : Buffer}

variable {sch : TableSchema} {cells : Data} {key : Bytes}

/-! Rows, index entries and counters lie apart. -/

theorem onMain_row (hmain : sess.branch = str "main") {table : Bytes} (h : rowPrefix sess.ns sess.branch table <+: key) :
    onMain sess.ns key = true := by
  have hpath : nsRoot sess.ns ++ str "/main/" <+: branchData sess.ns sess.branch := by
    rw [branchData_eq, hmain]
    exact ⟨str "data/", by simp [branchSegment, str]⟩
  exact isPrefixOf_iff_prefix.mpr ((hpath.trans (branchData_rowPrefix _ _ _)).trans h)

theorem not_onMain_counter {m : Mutation Bytes Val} (h : IsCounter sess m) : onMain sess.ns m.key = false := by
  obtain ⟨name, text, rfl⟩ := h
  rw [← Bool.not_eq_true, onMain, isPrefixOf_iff_prefix]
  change ¬ nsRoot sess.ns ++ str "/main/" <+: schemaKey sess.ns (str "#seq#" ++ name)
  rw [schemaKey_eq, prefix_append_right_inj]
  intro hpre
  have htwo := prefix_of_prefix_length_le hpre (prefix_append schemaPath (str "#seq#" ++ name)) (by decide)
  exact absurd htwo (by decide)

theorem insertTarget_wp (hmain : sess.branch = str "main") :
    (insertTarget env sess s params).wp underPrefix snap
      (fun t buf => onMain sess.ns t.2.2.1 = true ∧ ∀ m ∈ buf, onMain sess.ns m.key = false) [] := by
  refine wp_mono wp_insertTarget fun t buf ht => ?_
  obtain ⟨ms, hbuf, hms, -, hkey, -⟩ := ht
  obtain rfl : buf = ms := hbuf
  exact ⟨onMain_row hmain hkey, fun m hm => not_onMain_counter (hms m hm)⟩

theorem storeNewRow_wp : (storeNewRow env sess sch s params key cells).wp underPrefix snap
      (fun _ buf' => assignment key (encodeRow cells) ∈ buf') buf := by
  simp only [storeNewRow, writeNewRow, wp_bind, wp_write]
  refine wp_any fun _ _ => ?_
  refine wp_any fun _ b => ?_
  refine wp_mono (wp_mem (mem_append_right b mem_cons_self)) fun _ _ hmem => ?_
  exact wp_mem hmem

theorem handleOnConflict_wp {raw : Val} {sets : List (Bytes × Expr)} :
    (handleOnConflict env sess sch s params key cells raw (.doUpdate sets)).wp underPrefix snap
      (fun _ buf' => ∃ new, assignment key (encodeRow new) ∈ buf') buf := by
  simp only [handleOnConflict, writeConflict, wp_bind, wp_pure, wp_write, wp_ofExcept, wp_tick]
  intro existing _ n new _
  refine wp_any fun _ _ => ?_
  refine wp_any fun _ b => ?_
  refine wp_mono (wp_mem (mem_append_right b mem_cons_self)) fun _ _ hmem => ?_
  exact wp_mono (wp_mem hmem) fun _ _ hmem => ⟨new, hmem⟩

theorem insert_shows_iff (hmain : sess.branch = str "main") {i : Nat} {res : Result} {ms : Buffer}
    (h : (execInsert env sess s params).exec underPrefix snap [] i = .ok (res, ms)) :
    ms.any (fun m => onMain sess.ns m.key) = true ↔ ¬ Skips env sess params snap s i := by
  obtain ⟨j, h⟩ := run_of_exec h
  obtain ⟨⟨sch, cells, key, existing⟩, buf, j₁, htarget, hinto⟩ := run_bind_ok h
  obtain ⟨hkey, hbuf⟩ := wp_run (insertTarget_wp hmain) htarget
  have hexec : (insertTarget env sess s params).exec underPrefix snap [] i = .ok ((sch, cells, key, existing), buf) := by
    rw [exec_eq_run, htarget]
    rfl
  have hshows : ∀ {new : Data}, assignment key (encodeRow new) ∈ ms → ms.any (fun m => onMain sess.ns m.key) = true :=
    fun hmem => any_eq_true.mpr ⟨_, hmem, hkey⟩
  cases existing with
  | none =>
    have hmem : assignment key (encodeRow cells) ∈ ms := wp_run (p := storeNewRow env sess sch s params key cells) storeNewRow_wp hinto
    refine iff_of_true (hshows hmem) ?_
    rintro ⟨-, _, _, _, raw, _, hskip⟩
    have := Except.ok.inj (hexec.symm.trans hskip)
    cases this
  | some raw =>
    unfold insertInto at hinto
    dsimp only at hinto
    cases hoc : s.onConflict with
    | none =>
      rw [hoc] at hinto
      cases hinto
    | some oc =>
      rw [hoc] at hinto
      dsimp only at hinto
      cases oc with
      | doNothing =>
        have hsame : ms = buf := by
          unfold handleOnConflict at hinto
          dsimp only at hinto
          split at hinto
          · exact (Prod.mk.inj (Prod.mk.inj (Except.ok.inj hinto)).2).1.symm
          · exact (Prod.mk.inj (Prod.mk.inj (Except.ok.inj hinto)).2).1.symm
        refine iff_of_false (fun hany => ?_) (not_not_intro ⟨hoc, sch, cells, key, raw, buf, hexec⟩)
        obtain ⟨m, hm, hon⟩ := any_eq_true.mp hany
        rw [hsame] at hm
        exact absurd hon (by rw [hbuf m hm]; decide)
      | doUpdate sets =>
        obtain ⟨new, hmem⟩ := wp_run handleOnConflict_wp hinto
        refine iff_of_true (hshows hmem) ?_
        rintro ⟨hnothing, -⟩
        rw [hoc] at hnothing
        cases Option.some.inj hnothing

end rows

/-! ## Statements -/

section statements
variable {env sess params}

theorem RowTxn.shows_iff (hmain : sess.branch = str "main") (x : RowTxn env sess) : x.shows = false ↔ x.Unseen := by
  obtain ⟨res, hran⟩ := x.ran
  have hskips := insert_shows_iff hmain hran
  unfold RowTxn.Unseen
  obtain ⟨-, -, ⟨hreply, hkept⟩ | ⟨hreply, hkept⟩ | hreply⟩ := x.around.commit_spec x.writes
  · rw [RowTxn.reply, hreply, RowTxn.shows, RowTxn.kept, hkept, ← Bool.not_eq_true, hskips, not_not]
    simp only [reduceCtorEq, false_and, or_false]
  · refine iff_of_true ?_ (.inr (.inl hreply))
    rw [RowTxn.shows, RowTxn.kept, hkept]
    rfl
  · rw [RowTxn.reply, hreply]
    simp only [reduceCtorEq, true_and, false_or]
    refine ⟨.inr, fun h => h.elim (fun hskip => ?_) id⟩
    rw [RowTxn.shows, any_eq_false]
    intro m hm hon
    exact hskips.mp (any_eq_true.mpr ⟨m, x.around.kept_subset x.writes hm, hon⟩) hskip

theorem RowTxn.hidden_of_conflict {x : RowTxn env sess} (hmain : sess.branch = str "main") (h : x.reply = .writeConflict) :
    x.shows = false :=
  (x.shows_iff hmain).mpr (.inr (.inl h))

theorem RowTxn.replies (x : RowTxn env sess) : x.reply = .ok ∨ x.reply = .writeConflict ∨ x.reply = .storeErr := by
  obtain ⟨-, -, ⟨h, -⟩ | ⟨h, -⟩ | h⟩ := x.around.commit_spec x.writes
  · exact .inl h
  · exact .inr (.inl h)
  · exact .inr (.inr h)

variable {s : InsertStmt} {a : Try}

variable (env sess params s a) in
theorem insertOne_cases :
    (∃ e, (execInsert env sess s params).exec underPrefix a.snap [] a.tick = .error e ∧
        insertOne env sess s params a = ([], .error (.exec e))) ∨
      ∃ x : RowTxn env sess, x.stmt = s ∧
        (∃ r, (execInsert env sess s params).exec underPrefix a.snap [] a.tick = .ok r) ∧
        (x.reply = .ok ∧ (∃ res, insertOne env sess s params a = ([x], .ok res)) ∨
          x.reply = .writeConflict ∧ insertOne env sess s params a = ([x], .error .writeConflict) ∨
          x.reply = .storeErr ∧ insertOne env sess s params a = ([x], .error (.exec storeFailure))) := by
  unfold insertOne
  split
  · rename_i e h
    exact .inl ⟨e, h, rfl⟩
  · rename_i res ms h
    dsimp only
    refine .inr ⟨⟨a, s, params, ms, res, h⟩, rfl, ⟨_, h⟩, ?_⟩
    rcases RowTxn.replies ⟨a, s, params, ms, res, h⟩ with hreply | hreply | hreply
    · exact .inl ⟨hreply, res, by rw [hreply]⟩
    · exact .inr (.inl ⟨hreply, by rw [hreply]⟩)
    · exact .inr (.inr ⟨hreply, by rw [hreply]⟩)

/-! Executions with committed transactions only. -/

variable {E : Type} {wrap : ExecError → E}

variable (params s a wrap) in
/-- When all its transactions committed, the execution of a row has refused it, or it has committed it. -/
def Settles (ran : List (RowTxn env sess) × Except E Result) : Prop := (∀ x ∈ ran.1, x.reply = .ok) →
  (∃ e, (execInsert env sess s params).exec underPrefix a.snap [] a.tick = .error e ∧ ran = ([], .error (wrap e))) ∨
    ∃ x res, ran = ([x], .ok res) ∧ x.stmt = s ∧
      ∃ r, (execInsert env sess s params).exec underPrefix a.snap [] a.tick = .ok r

theorem insertOne_settles : Settles params s a .exec (insertOne env sess s params a) := by
  intro hok
  obtain ⟨e, he, heq⟩ | ⟨x, hx, hran, ⟨-, res, heq⟩ | ⟨hreply, heq⟩ | ⟨hreply, heq⟩⟩ := insertOne_cases env sess params s a
  · exact .inl ⟨e, he, heq⟩
  · exact .inr ⟨x, res, heq, hx, hran⟩
  · cases hreply.symm.trans (hok x (by rw [heq]; exact mem_cons_self))
  · cases hreply.symm.trans (hok x (by rw [heq]; exact mem_cons_self))

variable {α : Type} {once : Nat → List (RowTxn env sess) × Except Failure α} {n k : Nat}

theorem execute_committed (hc : (∀ x ∈ (once k).1, x.reply = .ok) → (once k).2 ≠ .error .writeConflict)
    (h : ∀ x ∈ (execute once n k).1, x.reply = .ok) :
    execute once n k = ((once k).1, (once k).2.mapError Failure.error) := by
  cases n with
  | zero => rfl
  | succ n =>
    unfold execute at h ⊢
    split
    · rename_i hbad
      simp only [hbad] at h
      exact absurd hbad (hc fun x hx => h x (mem_append_left _ hx))
    · rfl

theorem execute_settles {around : Nat → Try} :
    Settles params s (around 0) id (execute (fun k => insertOne env sess s params (around k)) n 0) := by
  intro hok
  have heq := execute_committed (fun hall hbad => ?_) hok
  · rw [heq] at hok ⊢
    rcases insertOne_settles hok with ⟨e, he, hran⟩ | ⟨x, res, hran, hx⟩
    · exact .inl ⟨e, he, by rw [hran]; rfl⟩
    · exact .inr ⟨x, res, by rw [hran]; rfl, hx⟩
  · rcases insertOne_settles hall with ⟨e, -, hran⟩ | ⟨x, res, hran, -⟩
    · rw [hran] at hbad
      cases hbad
    · rw [hran] at hbad
      cases hbad

variable {one : Nat → InsertStmt → List (RowTxn env sess) × Except E Result} {around : Nat → Try} {rows : List InsertStmt}
  {j : Nat}

theorem eachRow_committed (hone : ∀ j s, Settles params s (around j) wrap (one j s))
    (h : ∀ x ∈ (eachRow one j rows).1, x.reply = .ok) : (∀ x ∈ (eachRow one j rows).1, x.stmt ∈ rows) ∧
      match (eachRow one j rows).2 with
      | .ok _ => (eachRow one j rows).1.length = rows.length ∧ ¬ FirstRefused env sess params (around j) rows
      | .error f => (∃ e, f = wrap e) ∧ (eachRow one j rows).1.length < rows.length ∧
          ((eachRow one j rows).1 = [] ↔ FirstRefused env sess params (around j) rows) := by
  induction rows generalizing j with
  | nil => exact ⟨fun _ hx => absurd hx not_mem_nil, rfl, fun ⟨_, hs, _⟩ => nomatch hs⟩
  | cons s rows ih =>
    have hfirst : ∀ x ∈ (one j s).1, x.reply = .ok := by
      intro x hx
      apply h
      unfold eachRow
      split
      · exact hx
      · exact mem_append_left _ hx
    rcases hone j s hfirst with ⟨e, he, hran⟩ | ⟨x, res, hran, hx, r, hr⟩
    · have heq : eachRow one j (s :: rows) = ([], .error (wrap e)) := by rw [eachRow, hran]
      rw [heq]
      exact ⟨fun _ hx => absurd hx not_mem_nil, ⟨e, rfl⟩, Nat.succ_pos _, iff_of_true rfl ⟨s, rfl, e, he⟩⟩
    · have heq : eachRow one j (s :: rows) = (x :: (eachRow one (j + 1) rows).1, (eachRow one (j + 1) rows).2.map (res :: ·)) := by
        rw [eachRow, hran]
        rfl
      rw [heq] at h ⊢
      obtain ⟨hstmts, hrest⟩ := ih fun y hy => h y (mem_cons_of_mem _ hy)
      have haccepted : ¬ FirstRefused env sess params (around j) (s :: rows) := by
        rintro ⟨_, hs, e, he⟩
        cases hs
        cases hr.symm.trans he
      refine ⟨forall_mem_cons.mpr ⟨hx ▸ mem_cons_self, fun y hy => mem_cons_of_mem _ (hstmts y hy)⟩, ?_⟩
      cases hans : (eachRow one (j + 1) rows).2 with
      | ok results =>
        rw [hans] at hrest
        exact ⟨congrArg (· + 1) hrest.1, haccepted⟩
      | error f =>
        rw [hans] at hrest
        exact ⟨hrest.1, Nat.succ_lt_succ hrest.2.1, iff_of_false (cons_ne_nil _ _) haccepted⟩

theorem pairwise_or_iff {α : Type} {P : α → Prop} {l : List α} (h : ∀ x ∈ l, ¬ P x) :
    l.Pairwise (fun x y => P x ∨ P y) ↔ l.length ≤ 1 := by
  match l with
  | [] => exact iff_of_true List.Pairwise.nil (Nat.zero_le _)
  | [x] => exact iff_of_true (pairwise_singleton ..) le_rfl
  | x :: y :: l =>
    refine iff_of_false (fun hpair => ?_) (by simp)
    rcases (pairwise_cons.mp hpair).1 y mem_cons_self with hx | hy
    · exact h x mem_cons_self hx
    · exact h y (mem_cons_of_mem _ mem_cons_self) hy

theorem eachRow_atomic_iff (hmain : sess.branch = str "main") (hplain : ∀ s ∈ rows, s.onConflict ≠ some .doNothing)
    (hone : ∀ j s, Settles params s (around j) wrap (one j s)) (hok : ∀ x ∈ (eachRow one 0 rows).1, x.reply = .ok)
    (err : E → ExecError) (reply : List Result → Result) :
    Atomic ((eachRow one 0 rows).1, ((eachRow one 0 rows).2.mapError err).map reply) ↔
      rows.length ≤ 1 ∨ FirstRefused env sess params (around 0) rows := by
  obtain ⟨hstmts, hran⟩ := eachRow_committed hone hok
  have hshows : ∀ x ∈ (eachRow one 0 rows).1, ¬ x.shows = false := by
    intro x hx hhidden
    rcases (x.shows_iff hmain).mp hhidden with hskip | hreply | ⟨hreply, -⟩
    · exact hplain _ (hstmts x hx) hskip.1
    · cases (hok x hx).symm.trans hreply
    · cases (hok x hx).symm.trans hreply
  unfold Atomic
  cases hans : (eachRow one 0 rows).2 with
  | error f =>
    rw [hans] at hran
    obtain ⟨-, hlen, hnil⟩ := hran
    have hnone : (∀ x ∈ (eachRow one 0 rows).1, x.shows = false) ↔ (eachRow one 0 rows).1 = [] :=
      ⟨fun hall => eq_nil_iff_forall_not_mem.mpr fun x hx => hshows x hx (hall x hx),
        fun hnil x hx => absurd (hnil ▸ hx) not_mem_nil⟩
    refine hnone.trans (hnil.trans (or_iff_right_of_imp fun hone => hnil.mp ?_).symm)
    exact eq_nil_of_length_eq_zero (by omega)
  | ok results =>
    rw [hans] at hran
    exact (pairwise_or_iff hshows).trans (by rw [hran.1, or_iff_left hran.2])

theorem singles_onConflict {b : BulkInsert} (hplain : ¬ b.doNothing) {i : Nat} {db : Db} {stmts : List InsertStmt}
    (h : b.singles db i = .ok stmts) : ∀ s ∈ stmts, s.onConflict ≠ some .doNothing := by
  cases b with
  | values table cols rows onConflict returning =>
    cases h
    intro s hs
    obtain ⟨es, -, rfl⟩ := mem_map.mp hs
    exact hplain
  | select table cols query reads onConflict =>
    simp only [BulkInsert.singles] at h
    cases hq : query.exec underPrefix db [] i with
    | error e =>
      rw [hq] at h
      cases h
    | ok x =>
      rw [hq] at h
      cases h
      intro s hs
      obtain ⟨r, -, rfl⟩ := mem_map.mp hs
      exact hplain
  | copy table cols rows =>
    cases h
    intro s hs
    obtain ⟨r, -, rfl⟩ := mem_map.mp hs
    nofun

/-! At most one row. -/

/-- Conflicts, and at the end perhaps one commit; a failed flush only when the statement fails. -/
def Lone (txns : List (RowTxn env sess)) (ok : Bool) : Prop :=
  if ok then txns.Pairwise (fun x _ => x.reply = .writeConflict) ∧ ∀ x ∈ txns, x.reply ≠ .storeErr
  else ∀ x ∈ txns, x.reply ≠ .ok

theorem lone_nil (ok : Bool) : Lone ([] : List (RowTxn env sess)) ok := by
  cases ok with
  | true => exact ⟨.nil, fun _ hx => absurd hx not_mem_nil⟩
  | false => exact fun _ hx => absurd hx not_mem_nil

theorem Lone.prepend {txns pre : List (RowTxn env sess)} {ok : Bool} (h : Lone txns ok)
    (hpre : ∀ x ∈ pre, x.reply = .writeConflict) : Lone (pre ++ txns) ok := by
  cases ok with
  | true =>
    refine ⟨pairwise_append.mpr ⟨pairwise_of_forall_mem_list fun x hx _ _ => hpre x hx, h.1, fun x hx _ _ => hpre x hx⟩, ?_⟩
    exact forall_mem_append.mpr ⟨fun x hx => by rw [hpre x hx]; nofun, h.2⟩
  | false => exact forall_mem_append.mpr ⟨fun x hx => by rw [hpre x hx]; nofun, h⟩

theorem insertOne_lone : Lone (insertOne env sess s params a).1 (insertOne env sess s params a).2.isOk ∧
    ((insertOne env sess s params a).2 = .error .writeConflict →
      ∀ x ∈ (insertOne env sess s params a).1, x.reply = .writeConflict) := by
  obtain ⟨e, -, heq⟩ | ⟨x, -, -, ⟨hx, res, heq⟩ | ⟨hx, heq⟩ | ⟨hx, heq⟩⟩ := insertOne_cases env sess params s a
  · rw [heq]
    exact ⟨lone_nil _, nofun⟩
  · rw [heq]
    exact ⟨⟨pairwise_singleton _ _, forall_mem_singleton.mpr (by rw [hx]; nofun)⟩, nofun⟩
  · rw [heq]
    exact ⟨forall_mem_singleton.mpr (by rw [hx]; nofun), fun _ => forall_mem_singleton.mpr hx⟩
  · rw [heq]
    exact ⟨forall_mem_singleton.mpr (by rw [hx]; nofun), nofun⟩

theorem isOk_mapError {x : Except E α} {F : Type} (f : E → F) : (x.mapError f).isOk = x.isOk := by
  cases x with
  | ok a | error e => rfl

theorem isOk_map {β : Type} {x : Except E α} (f : α → β) : (x.map f).isOk = x.isOk := by
  cases x with
  | ok a | error e => rfl

theorem execute_lone (h : ∀ k, Lone (once k).1 (once k).2.isOk ∧
      ((once k).2 = .error .writeConflict → ∀ x ∈ (once k).1, x.reply = .writeConflict)) :
    Lone (execute once n k).1 (execute once n k).2.isOk := by
  induction n generalizing k with
  | zero => exact (isOk_mapError _).symm ▸ (h k).1
  | succ n ih =>
    unfold execute
    split
    · exact ih.prepend ((h k).2 ‹_›)
    · exact (isOk_mapError _).symm ▸ (h k).1

theorem eachRow_single (hone : rows.length ≤ 1) : eachRow one j rows = ([], .ok []) ∨
    ∃ s, eachRow one j rows = ((one j s).1, (one j s).2.map fun res => [res]) := by
  match rows, hone with
  | [], _ => exact .inl rfl
  | [s], _ =>
    refine .inr ⟨s, ?_⟩
    rw [eachRow]
    cases hans : (one j s).2 with
    | ok res => exact congrArg (·, _) (append_nil _)
    | error e => rfl

variable {b : BulkInsert} {query : Nat → Db × Nat} {tries : Nat → Nat → Try}

theorem exec_lone (hone : ∀ k stmts, b.singles (query k).1 (query k).2 = .ok stmts → stmts.length ≤ 1) :
    Lone (b.exec env sess params query tries).1 (b.exec env sess params query tries).2.isOk := by
  have hmany : Lone (execute (fun k => b.once env sess params (query k) (tries k)) maxRetries 0).1
      (execute (fun k => b.once env sess params (query k) (tries k)) maxRetries 0).2.isOk := by
    refine execute_lone fun k => ?_
    unfold BulkInsert.once
    cases hs : b.singles (query k).1 (query k).2 with
    | error e => exact ⟨lone_nil _, nofun⟩
    | ok stmts =>
      dsimp only
      rcases eachRow_single (hone k stmts hs) with heq | ⟨s, heq⟩
      · rw [heq]
        exact ⟨lone_nil _, nofun⟩
      · obtain ⟨hlone, hconflict⟩ := @insertOne_lone env sess params s (tries k 0)
        rw [heq]
        dsimp only
        rw [isOk_map, isOk_map]
        refine ⟨hlone, fun h => hconflict ?_⟩
        cases hans : (insertOne env sess s params (tries k 0)).2 with
        | ok res =>
          rw [hans] at h
          cases h
        | error e =>
          rw [hans] at h
          cases h
          rfl
  cases b with
  | values table cols rows onConflict returning => exact hmany
  | select table cols query reads onConflict => exact hmany
  | copy table cols rows =>
    unfold BulkInsert.exec
    dsimp only
    rcases eachRow_single (hone 0 _ rfl) with heq | ⟨s, heq⟩
    · rw [heq]
      exact lone_nil _
    · rw [heq]
      dsimp only
      rw [isOk_map, isOk_map]
      exact execute_lone fun k => insertOne_lone

theorem exec_atomic_iff (hmain : sess.branch = str "main") (hplain : ¬ b.doNothing) {stmts : List InsertStmt}
    (hstmts : b.singles (query 0).1 (query 0).2 = .ok stmts)
    (hok : ∀ x ∈ (b.exec env sess params query tries).1, x.reply = .ok) :
    Atomic (b.exec env sess params query tries) ↔
      stmts.length ≤ 1 ∨ FirstRefused env sess (b.bound params) (tries 0 0) stmts := by
  have honce : b.once env sess params (query 0) (tries 0) =
      ((eachRow (fun j s => insertOne env sess s params (tries 0 j)) 0 stmts).1,
        (eachRow (fun j s => insertOne env sess s params (tries 0 j)) 0 stmts).2.map fun results => b.reply results) := by
    unfold BulkInsert.once
    rw [hstmts]
  have hmany : ∀ x : List (RowTxn env sess) × ExecM Result,
      x = execute (fun k => b.once env sess params (query k) (tries k)) maxRetries 0 → (∀ y ∈ x.1, y.reply = .ok) →
      (Atomic x ↔ stmts.length ≤ 1 ∨ FirstRefused env sess params (tries 0 0) stmts) := by
    rintro x rfl hx
    have heq := execute_committed (fun hall hbad => ?_) hx
    · rw [heq, honce] at hx ⊢
      rw [← eachRow_atomic_iff hmain (singles_onConflict hplain hstmts) (fun j s => insertOne_settles) hx Failure.error
        fun results => b.reply results]
      cases (eachRow (fun j s => insertOne env sess s params (tries 0 j)) 0 stmts).2 with
      | ok results | error f => rfl
    · rw [honce] at hall hbad
      have hran := (eachRow_committed (fun j s => insertOne_settles) hall).2
      cases hans : (eachRow (fun j s => insertOne env sess s params (tries 0 j)) 0 stmts).2 with
      | ok results =>
        rw [hans] at hbad
        cases hbad
      | error f =>
        rw [hans] at hbad hran
        obtain ⟨⟨e, rfl⟩, -⟩ := hran
        cases hbad
  cases b with
  | values table cols rows onConflict returning => exact hmany _ rfl hok
  | select table cols query reads onConflict => exact hmany _ rfl hok
  | copy table cols rows =>
    have hconflict := singles_onConflict hplain hstmts
    cases hstmts
    have hiff := eachRow_atomic_iff hmain hconflict (fun j s => execute_settles) hok id
      fun results => BulkInsert.reply results (.copy table cols rows)
    rwa [show ∀ x : ExecM (List Result), x.mapError id = x from fun x => by cases x <;> rfl] at hiff

end statements

def Try.alone (e : Engine Val) (idle : e.phase = .idle) : Try := ⟨e.clock, e, idle, 0, fun _ => false, none⟩

/-- What the next statement finds. -/
def Try.after (a : Try) (p : Stm Result) : Try :=
  match p.exec underPrefix a.snap [] a.tick with
  | .ok (_, ms) => .alone (a.commit ms).1 (a.commit_spec ms).1
  | .error _ => a

def insertPairs (rows : List (String × String)) (onConflict : Option OnConflict) : BulkInsert :=
  .values (str "t") [] (rows.map fun r => [.const (.string (str r.1)), .const (.string (str r.2))]) onConflict .none

/-- What row `j` of a statement finds. -/
def tryRow (a : Try) (b : BulkInsert) (j : Nat) : Try :=
  (((b.singles a.snap 0).toOption.getD []).take j).foldl
    (fun a s => a.after (execInsert demoEnv (demoSession "main") s [])) a

def bulkRun (a : Try) (b : BulkInsert) : List (RowTxn demoEnv (demoSession "main")) × ExecM Result :=
  b.exec demoEnv (demoSession "main") [] (fun _ => (a.snap, 0)) fun _ j => tryRow a b j

/-- Whether a statement succeeds, and which of its transactions left a row. -/
def bulkOutcome (a : Try) (b : BulkInsert) : Bool × List Bool := ((bulkRun a b).2.isOk, (bulkRun a b).1.map RowTxn.shows)

@[irreducible] def emptyTable : Try := (Try.alone (Engine.new []) rfl).after (createDemo.run demoEnv)

/-- The table with the row 1. -/
@[irreducible] def rowTable : Try := tryRow emptyTable (insertPairs [("1", "x")] none) 1

theorem atomic_outcome {a : Try} {b : BulkInsert} {shown : List Bool}
    (h : bulkOutcome a b = (true, shown)) (hone : shown.Pairwise fun x y => x = false ∨ y = false) : Atomic (bulkRun a b) := by
  obtain ⟨hok, hshown⟩ := Prod.mk.inj h
  unfold Atomic
  cases hans : (bulkRun a b).2 with
  | error e =>
    rw [hans] at hok
    cases hok
  | ok res =>
    rw [← hshown, pairwise_map] at hone
    exact hone

end BasuyuDb.Executor
