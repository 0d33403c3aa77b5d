import BasuyuDb.Executor.Deferred
import BasuyuDb.Executor.Sessions
import BasuyuDb.Wire.Startup

/-
  engine/internal/wire/conn.go, server.go, copy.go and executor/txnctx.go: the query loop of a connection
  and its transaction block. A simple query goes through `handleControl`, the test for an aborted block,
  COPY and `execSQL`; an extended Execute goes through `sessionControlTag` and `execSQL`. A message is
  handled in one step: statements read the snapshot of their transaction and buffer in private, so the
  messages of other connections fall between two messages. Calls of the transaction engine are the steps
  of Transactions.Engine.
-/

namespace BasuyuDb.Wire
open KvLib Storage Transactions Executor

/-! ## Programs in transactions -/

/-- How the store behaves during a message: the keys whose version it fails to read, and what a flush
that fails has persisted. -/
structure Io where
  fault : Bytes → Bool
  flushFail : Option (List Bool)

/-- A call of the engine; calls that would have to wait do not occur between messages. -/
def call (s : Sys Val) (c : Call Val) : Sys Val := (s.step c).getD s

variable (sql : String) (res : Result) (s : Sys Val)

/-- A Commit call from its check to its end. -/
def commitTxn (t : Nat) (io : Io) : Reply × Sys Val :=
  match s.eng.step (.commit t io.fault) with
  | none => (.storeErr, s)
  | some (_, .inProgress) =>
    let reserved := call s (.commit t io.fault)
    match io.flushFail with
    | none => (.ok, call (call reserved .flush) .publish)
    | some persisted => (.storeErr, call reserved (.flushFail persisted))
  | some (_, reply) => (reply, call s (.commit t io.fault))

/-- What a program answered, and what it wrote. -/
structure Ran (α : Type) where
  answer : ExecM α
  sys : Sys Val
  issued : List (Mut Val)

def txnDone : ExecError := ⟨"XX000", "transactions: transaction already committed or rolled back", []⟩

/-- A program inside a transaction. What it buffered before it failed stays in the buffer. -/
def runIn {α : Type} (t i : Nat) (p : Stm α) : Ran α :=
  match s.eng.txns[t]? with
  | none => ⟨.error txnDone, s, []⟩
  | some T =>
    if T.done then ⟨.error txnDone, s, []⟩
    else
      let r := p.finish underPrefix (snapOf s.eng T) T.mutations i
      let issued := r.2.drop T.mutations.length
      ⟨r.1, issued.foldl (fun s m => call s (.buffer t m)) s, issued⟩

/-- The end of a program that has a transaction of its own; the flag says that Commit found a write
conflict. -/
def settle {α : Type} (t : Nat) (io : Io) (ran : Ran α) : Bool × Ran α :=
  match ran.answer with
  | .error e => (false, ⟨.error e, call ran.sys (.rollback t), ran.issued⟩)
  | .ok a =>
    match commitTxn ran.sys t io with
    | (.ok, s') => (false, ⟨.ok a, s', ran.issued⟩)
    | (.writeConflict, s') => (true, ⟨.error serializationFailure, s', ran.issued⟩)
    | (_, s') => (false, ⟨.error storeFailure, call s' (.rollback t), ran.issued⟩)

/-- A program in a transaction of its own. -/
def runOnce {α : Type} (i : Nat) (io : Io) (p : Stm α) : Bool × Ran α :=
  settle s.eng.txns.length io (runIn (call s .begin) s.eng.txns.length i p)

/-- `Execute` without a transaction in its context. -/
def autocommit {α : Type} (i : Nat) (io : Io) (p : Stm α) : Nat → Sys Val → Ran α
  | 0, s => (runOnce s i io p).2
  | n + 1, s =>
    let r := runOnce s i io p
    if r.1 then autocommit i io p n r.2.sys else r.2

/-! ## Statements -/

/-- A parsed statement as `Execute` and `handleCopy` dispatch on it. `joins`: it runs in the transaction of
its context, is told which foreign keys are deferred, and returns the checks it put off. `branch`: the branch
manager begins a transaction of its own. `copyIn`: one INSERT for each row of the data. -/
inductive Statement where
  | joins (run : (NamedKey → Bool) → Executor.Session → Data → Stm (Result × List PendingFKCheck))
  | branch (run : Executor.Session → Stm Result)
  | copyIn (inserts : Executor.Session → Bytes → ExecM (List (Stm Result)))
  | copyOut (run : Executor.Session → Stm Result)

/-- What is not embedded: functions of Go's `strings`, `normalizeSQLForParsing` (`none` is its no-op
sentinel), the parser, and how the texts of the control statements are taken apart. -/
structure Frontend where
  env : Env
  traits : Bytes → Bytes → FkTraits
  trimSpace : Bytes → Bytes
  toUpper : Bytes → Bytes
  normalize : Bytes → Option Bytes
  parse : Bytes → ExecM Statement
  /-- Where the query of a cursor has no rows, its rows are nil. -/
  nilRows : Bytes → Bool
  isCatalogIntrospectionQuery : Bytes → Bool
  /-- The first case of `handleControl`, unless it falls through: the tag, or why the role was refused. -/
  rolePassword : Bytes → Option (ExecM String)
  parseSetBranch : Bytes → Option Bytes
  applySetGUC : Bytes → ConnSession → ConnSession
  applyReset : Bytes → ConnSession → ConnSession
  /-- The cursor of DECLARE and its query. -/
  declared : Bytes → Option (Bytes × Bytes)
  /-- The cursor of FETCH and how many rows it asks for (`none`: all). -/
  fetched : Bytes → Bytes × Option Nat
  closed : Bytes → Bytes

variable (f : Frontend)

/-- A server-side cursor; `rows` is none for the nil slice. -/
structure Cursor where
  sql : Bytes
  rows : Option (List Data)
  pos : Nat

structure Conn where
  sess : ConnSession
  tx : Option Nat
  txAborted : Bool
  /-- What `deferredRegistry` has for the transaction. -/
  deferral : Option DeferredState
  prepared : List (Bytes × Bytes)
  portals : List (Bytes × (Bytes × Data))
  cursors : List (Bytes × Cursor)

def Conn.new (sess : ConnSession) : Conn := ⟨sess, none, false, none, [], [], []⟩

def assign {α : Type} (m : List (Bytes × α)) (k : Bytes) (v : α) : List (Bytes × α) :=
  (k, v) :: m.filter fun e => e.1 ≠ k

inductive TxStatus where
  | idle
  | inTransaction
  | failed
deriving DecidableEq

/-- The messages of the server that tell outcomes; row descriptions are left out. -/
inductive Backend where
  | commandComplete (tag : String)
  | dataRows (rows : List Data)
  | errorResponse (e : ExecError)
  | readyForQuery (status : TxStatus)
  | emptyQuery
  | parseComplete
  | bindComplete
  | closeComplete
  | described
  | copyInResponse
  | copyOut (rows : List Data)
deriving DecidableEq

def Backend.isError : Backend → Bool
  | .errorResponse _ => true
  | _ => false

/-- What a client sends after CopyInResponse. -/
inductive CopyAnswer where
  | done (data : Bytes)
  | fail (text : Bytes)
  | other (typ : Bytes)
  | disconnect

/-- The messages of a client. -/
inductive Message where
  | query (sql : Bytes) (answer : CopyAnswer)
  | parse (name sql : Bytes)
  | bind (portal stmt : Bytes) (params : Data)
  | describe (statement : Bool) (name : Bytes)
  | execute (portal : Bytes)
  | sync
  | close (statement : Bool) (name : Bytes)
  | disconnect
  | unknown (typ : Bytes)

/-- When a message is handled: the first number of its evaluations, and the store. -/
structure Occasion where
  i : Nat
  io : Io

/-- A message after it was handled: what the connection answered and which writes its statement issued. -/
structure Handled where
  sys : Sys Val
  conn : Conn
  out : List Backend
  issued : List (Mut Val)

def Conn.txStatus (c : Conn) : TxStatus :=
  if c.tx = none then .idle else if c.txAborted then .failed else .inTransaction

def commandTag : String := if res.command = "SELECT" then "SELECT " ++ toString res.rows.length
  else if res.command = "INSERT" then "INSERT 0 " ++ toString res.rowsAffected
  else if res.command = "UPDATE" ∨ res.command = "DELETE" then res.command ++ " " ++ toString res.rowsAffected
  else res.command

def writeResult : List Backend := [.dataRows res.rows, .commandComplete (commandTag res)]

/-! ## Control statements -/

/-- The cases of `handleControl`. `ack`: acknowledged without an effect on the transaction or the data.
SET CONSTRAINTS is none of them: the case SET stands before it. -/
inductive Control where
  | role (answer : ExecM String)
  | begin
  | commit
  | rollback
  | setBranch
  | set
  | reset
  | declare
  | fetch
  | close
  | ack (tag : String)

/-- The statements that are only acknowledged, in the order of the source. -/
def acknowledged : List (String × String) :=
  [("DISCARD", "DISCARD ALL"), ("DEALLOCATE", "DEALLOCATE ALL"), ("LISTEN ", "LISTEN"), ("NOTIFY ", "NOTIFY"),
    ("UNLISTEN ", "UNLISTEN"), ("SAVEPOINT ", "SAVEPOINT"), ("RELEASE ", "RELEASE"), ("LOCK ", "LOCK TABLE"),
    ("VACUUM ", "VACUUM"), ("ANALYZE ", "VACUUM"), ("REINDEX ", "REINDEX"), ("SECURITY LABEL", "SECURITY LABEL"),
    ("LOAD '", "LOAD"), ("DO ", "DO"), ("DO\n", "DO"), ("DO\t", "DO"), ("MOVE ", "MOVE")]

/-- Those that are acknowledged as single words. -/
def acknowledgedWords : List (String × String) :=
  [("SAVEPOINT", "SAVEPOINT"), ("VACUUM", "VACUUM"), ("ANALYZE", "VACUUM"), ("REINDEX", "REINDEX"), ("LOAD", "LOAD")]

def starts (upper : Bytes) (word : String) : Bool := (str word).isPrefixOf upper

/-- Which case of `handleControl` a statement is. -/
def control (sql : Bytes) : Option Control := let upper := f.toUpper sql
  match f.rolePassword sql with
  | some answer => some (.role answer)
  | none =>
    if starts upper "BEGIN" || starts upper "START TRANSACTION" then some .begin
    else if starts upper "COMMIT" || starts upper "END" then some .commit
    else if starts upper "ROLLBACK TO " then some (.ack "ROLLBACK")
    else if starts upper "ROLLBACK" || starts upper "ABORT" then some .rollback
    else if starts upper "SET BRANCH" then some .setBranch
    else if starts upper "SET " then some .set
    else if starts upper "RESET " then some .reset
    else if starts upper "DECLARE " then some .declare
    else if starts upper "FETCH " then some .fetch
    else if starts upper "CLOSE " then some .close
    else
      match acknowledged.find? fun p => starts upper p.1, acknowledgedWords.find? (fun p => str p.1 = upper) with
      | some p, _ => some (.ack p.2)
      | none, some p => some (.ack p.2)
      | none, none => none

def sessionControlTag (sql : Bytes) : Option String := let upper := f.toUpper sql
  if starts upper "SET " then some "SET"
  else if starts upper "RESET " then some "RESET"
  else if starts upper "BEGIN" || starts upper "START TRANSACTION" then some "BEGIN"
  else if starts upper "COMMIT" || starts upper "END" then some "COMMIT"
  else if starts upper "ROLLBACK" || starts upper "ABORT" then some "ROLLBACK"
  else if starts upper "DISCARD" then some "DISCARD ALL"
  else none

section handlers
variable (s : Sys Val) (c : Conn) (o : Occasion)

/-! ## Execution -/

def effectiveDeferral (k : NamedKey) : Bool :=
  k.deferrable && c.tx.isSome && isDeferred c.deferral k.name k.initiallyDeferred

/-- `Execute` on a parsed statement, in the transaction of the connection if it has one. -/
def execute (stmt : Statement) (params : Data) : Ran (Result × List PendingFKCheck) :=
  match stmt with
  | .joins run =>
    let p := run (effectiveDeferral c) (c.sess.view f.env) params
    match c.tx with
    | some t => runIn s t o.i p
    | none => autocommit o.i o.io p maxRetries s
  | .branch run =>
    (runOnce s o.i o.io (do
      let res ← run (c.sess.view f.env)
      pure (res, []))).2
  | _ => ⟨.error ⟨"0A000", "unsupported statement type %T", []⟩, s, []⟩

variable (sql : Bytes) (answer : CopyAnswer) (params : Data)

def execSQL : Ran (Result × List PendingFKCheck) :=
  match f.normalize sql with
  | none => ⟨.ok (⟨"OK", 0, []⟩, []), s, []⟩
  | some text =>
    match f.parse text with
    | .error e => ⟨.error e, s, []⟩
    | .ok stmt => execute f s c o stmt params

/-- `record`: the checks deferred in an explicit transaction are kept for its COMMIT. -/
def Conn.defer (c : Conn) (checks : List PendingFKCheck) : Conn :=
  if c.tx = none ∨ checks = [] then c
  else
    let st := c.deferral.getD .new
    { c with deferral := some { st with pending := st.pending ++ checks } }

/-! ## Simple queries -/

/-- A connection without a transaction. -/
def Conn.leave (c : Conn) : Conn := { c with tx := none, txAborted := false, deferral := none }

/-- BEGIN in `handleControl`. -/
def handleBegin : Handled :=
  match c.tx with
  | none =>
    ⟨call s .begin, { c with tx := some s.eng.txns.length, txAborted := false, deferral := none },
      [.commandComplete "BEGIN"], []⟩
  | some _ => ⟨s, c, [.commandComplete "BEGIN"], []⟩

/-- The pending checks at COMMIT. -/
def runPendingChecks (t : Nat) : ExecM Unit :=
  match s.eng.txns[t]? with
  | none => .error txnDone
  | some T => (Executor.runPendingChecks f.env f.traits (c.sess.view f.env) (snapOf s.eng T) T.mutations none
      (queueOf c.deferral)).1

def commitExplicit (t : Nat) : ExecM Unit × Sys Val :=
  match runPendingChecks f s c t with
  | .error e => (.error e, call s (.rollback t))
  | .ok () =>
    match commitTxn s t o.io with
    | (.ok, s') => (.ok (), s')
    | (.writeConflict, s') => (.error serializationFailure, s')
    | (_, s') => (.error storeFailure, s')

/-- COMMIT in `handleControl`. -/
def handleCommit : Handled :=
  match c.tx with
  | none => ⟨s, c, [.commandComplete "COMMIT"], []⟩
  | some t =>
    if c.txAborted then ⟨call s (.rollback t), c.leave, [.commandComplete "COMMIT"], []⟩
    else
      match commitExplicit f s c o t with
      | (.ok (), s') => ⟨s', c.leave, [.commandComplete "COMMIT"], []⟩
      | (.error e, s') => ⟨s', c.leave, [.errorResponse e], []⟩

/-- `RollbackExplicit` on the transaction of a connection, if it has one. -/
def rollbackOpen : Sys Val :=
  match c.tx with
  | none => s
  | some t => call s (.rollback t)

/-- SET BRANCH in `handleControl`. -/
def handleSetBranch : Handled := if c.tx ≠ none then
    ⟨s, c, [.errorResponse ⟨"25001", "SET branch cannot run inside a transaction block", []⟩], []⟩
  else
    match f.parseSetBranch sql with
    | none => ⟨s, c, [.commandComplete "SET"], []⟩
    | some br =>
      if c.sess.auth.branch ≠ [] then
        ⟨s, c, [.errorResponse ⟨"42501", "branch is pinned by the session token and cannot be changed", []⟩], []⟩
      else ⟨s, { c with sess.overrideBranch := br }, [.commandComplete "SET"], []⟩

/-- The rows of a cursor from its position on. -/
def Cursor.next (cur : Cursor) (rows : Option (List Data)) : Option Nat → List Data × Cursor
  | none => ((rows.getD []).drop cur.pos, ⟨cur.sql, rows, (rows.getD []).length⟩)
  | some n => (((rows.getD []).drop cur.pos).take n, ⟨cur.sql, rows, min (cur.pos + n) (rows.getD []).length⟩)

/-- `handleFetch`: the query runs at every FETCH while the rows are nil. -/
def handleFetch : Handled := let (name, count) := f.fetched sql
  match c.cursors.lookup name with
  | none => ⟨s, c, [.errorResponse ⟨"XX000", "cursor %q does not exist", [name]⟩], []⟩
  | some cur =>
    let deliver (s' : Sys Val) (c' : Conn) (rows : Option (List Data)) (issued : List (Mut Val)) : Handled :=
      let (out, cur') := cur.next rows count
      ⟨s', { c' with cursors := assign c'.cursors name cur' },
        [.dataRows out, .commandComplete ("FETCH " ++ toString out.length)], issued⟩
    match cur.rows with
    | some rows => deliver s c (some rows) []
    | none =>
      if cur.sql = [] then deliver s c none []
      else
      let ran := execSQL f s c o cur.sql []
      match ran.answer with
      | .error e => ⟨ran.sys, c, [.errorResponse e], ran.issued⟩
      | .ok (res, checks) =>
        deliver ran.sys (c.defer checks) (if res.rows = [] ∧ f.nilRows cur.sql then none else some res.rows) ran.issued

/-- `handleControl` on a control statement. -/
def handleControl : Control → Handled
  | .role (.ok tag) => ⟨s, c, [.commandComplete tag], []⟩
  | .role (.error e) => ⟨s, c, [.errorResponse e], []⟩
  | .begin => handleBegin s c
  | .commit => handleCommit f s c o
  | .rollback => ⟨rollbackOpen s c, c.leave, [.commandComplete "ROLLBACK"], []⟩
  | .setBranch => handleSetBranch f s c sql
  | .set => ⟨s, { c with sess := f.applySetGUC sql c.sess }, [.commandComplete "SET"], []⟩
  | .reset => ⟨s, { c with sess := f.applyReset sql c.sess }, [.commandComplete "RESET"], []⟩
  | .declare =>
    match f.declared sql with
    | none => ⟨s, c, [.commandComplete "DECLARE CURSOR"], []⟩
    | some (name, query) =>
      ⟨s, { c with cursors := assign c.cursors name ⟨query, none, 0⟩ }, [.commandComplete "DECLARE CURSOR"], []⟩
  | .fetch => handleFetch f s c o sql
  | .close =>
    ⟨s, { c with cursors := c.cursors.filter (fun e => e.1 ≠ f.closed sql) }, [.commandComplete "CLOSE CURSOR"], []⟩
  | .ack tag => ⟨s, c, [.commandComplete tag], []⟩

/-- `CopyFrom`: every row is an INSERT of its own, outside the connection's transaction. -/
def copyFrom : List (Stm Result) → Nat → Sys Val → List (Mut Val) → ExecM Nat × Sys Val × List (Mut Val)
  | [], n, s, issued => (.ok n, s, issued)
  | p :: ps, n, s, issued =>
    let ran := autocommit o.i o.io p maxRetries s
    match ran.answer with
    | .error e => (.error e, ran.sys, issued ++ ran.issued)
    | .ok _ => copyFrom ps (n + 1) ran.sys (issued ++ ran.issued)

def handleCopyIn (inserts : Executor.Session → Bytes → ExecM (List (Stm Result))) :
    CopyAnswer → Handled
  | .done data =>
    match inserts (c.sess.view f.env) data with
    | .error e => ⟨s, c, [.copyInResponse, .errorResponse e], []⟩
    | .ok ps =>
      match copyFrom o ps 0 s [] with
      | (.error e, s', issued) => ⟨s', c, [.copyInResponse, .errorResponse e], issued⟩
      | (.ok n, s', issued) => ⟨s', c, [.copyInResponse, .commandComplete ("COPY " ++ toString n)], issued⟩
  | .fail text => ⟨s, c, [.copyInResponse, .errorResponse ⟨"57014", "COPY from stdin failed: ", [text]⟩], []⟩
  | .other typ => ⟨s, c, [.copyInResponse, .errorResponse ⟨"08P01", "unexpected message %q during COPY", [typ]⟩], []⟩
  | .disconnect => ⟨s, c, [.copyInResponse], []⟩

def handleCopyOut (run : Executor.Session → Stm Result) : Handled :=
  let ran := autocommit o.i o.io (run (c.sess.view f.env)) maxRetries s
  match ran.answer with
  | .error e => ⟨ran.sys, c, [.errorResponse e], ran.issued⟩
  | .ok res => ⟨ran.sys, c, [.copyOut res.rows, .commandComplete ("COPY " ++ toString res.rows.length)], ran.issued⟩

/-- COPY, which has messages of its own, as `handleSimpleQuery` intercepts it. -/
def handleCopy : Option Handled := if starts (f.toUpper sql) "COPY" then
    match f.parse sql with
    | .ok (.copyIn inserts) => some (handleCopyIn f s c o inserts answer)
    | .ok (.copyOut run) => some (handleCopyOut f s c o run)
    | _ => none
  else none

/-- `execSQL` and its answer in `handleSimpleQuery`. -/
def handleStatement : Handled := let ran := execSQL f s c o sql []
  match ran.answer with
  | .error e => ⟨ran.sys, if c.tx = none then c else { c with txAborted := true }, [.errorResponse e], ran.issued⟩
  | .ok (res, checks) => ⟨ran.sys, c.defer checks, writeResult res, ran.issued⟩

/-- `handleSimpleQuery` without its ReadyForQuery. -/
def handleSimpleQuery : Handled := let trimmed := f.trimSpace sql
  if trimmed = [] then ⟨s, c, [.emptyQuery], []⟩
  else
    match control f trimmed with
    | some ctl => handleControl f s c o trimmed ctl
    | none =>
      if c.tx ≠ none ∧ c.txAborted then
        ⟨s, c, [.errorResponse ⟨"25P02",
          "current transaction is aborted, commands ignored until end of transaction block", []⟩], []⟩
      else
        match handleCopy f s c o trimmed answer with
        | some h => h
        | none => handleStatement f s c o trimmed

/-! ## The extended protocol -/

def execStatement : Ran (Result × List PendingFKCheck) :=
  let trimmed := f.trimSpace sql
  match sessionControlTag f trimmed with
  | some tag => ⟨.ok (⟨tag, 0, []⟩, []), s, []⟩
  | none =>
    let ran := execSQL f s c o trimmed params
    match ran.answer with
    | .error _ =>
      if f.isCatalogIntrospectionQuery trimmed then ⟨.ok (⟨"SELECT", 0, []⟩, []), ran.sys, ran.issued⟩ else ran
    | .ok _ => ran

def handleExecuteExtended (portal : Bytes) : Handled :=
  match c.portals.lookup portal with
  | none => ⟨s, c, [.errorResponse ⟨"34000", "portal %q does not exist", [portal]⟩], []⟩
  | some (sql, params) =>
    let ran := execStatement f s c o sql params
    match ran.answer with
    | .error e => ⟨ran.sys, c, [.errorResponse e], ran.issued⟩
    | .ok (res, checks) => ⟨ran.sys, c.defer checks, writeResult res, ran.issued⟩

def handleBind (portal stmt : Bytes) (params : Data) : Handled :=
  match c.prepared.lookup stmt with
  | none => ⟨s, c, [.errorResponse ⟨"26000", "prepared statement %q does not exist", [stmt]⟩], []⟩
  | some sql => ⟨s, { c with portals := assign c.portals portal (sql, params) }, [.bindComplete], []⟩

/-- `handleDescribe`. The probe of a SELECT runs in a transaction of its own and writes nothing; it is left
out. -/
def handleDescribe (statement : Bool) (name : Bytes) : Handled :=
  if statement then
    match c.prepared.lookup name with
    | none => ⟨s, c, [.errorResponse ⟨"26000", "prepared statement %q does not exist", [name]⟩], []⟩
    | some _ => ⟨s, c, [.described], []⟩
  else
    match c.portals.lookup name with
    | none => ⟨s, c, [.errorResponse ⟨"34000", "portal %q does not exist", [name]⟩], []⟩
    | some _ => ⟨s, c, [.described], []⟩

def Conn.handleClose (c : Conn) (statement : Bool) (name : Bytes) : Conn :=
  if statement then { c with prepared := c.prepared.filter (fun e => e.1 ≠ name) }
  else { c with portals := c.portals.filter (fun e => e.1 ≠ name) }

/-! ## The loop -/

def Handled.endQuery (h : Handled) : Handled := { h with out := h.out ++ [.readyForQuery h.conn.txStatus] }

def Handled.hangUp (h : Handled) : Handled := { h with sys := rollbackOpen h.sys h.conn, conn := h.conn.leave }

/-- The client is gone when it is asked for the data of COPY. -/
def hangsUp : CopyAnswer → List Backend → Bool
  | .disconnect, .copyInResponse :: _ => true
  | _, _ => false

/-- One round of `loop`. -/
def handle : Message → Handled
  | .query sql answer =>
    let h := (handleSimpleQuery f s c o sql answer).endQuery
    if hangsUp answer h.out then h.hangUp else h
  | .parse name sql => ⟨s, { c with prepared := assign c.prepared name sql }, [.parseComplete], []⟩
  | .bind portal stmt params => handleBind s c portal stmt params
  | .describe statement name => handleDescribe s c statement name
  | .execute portal => handleExecuteExtended f s c o portal
  | .sync => ⟨s, c, [.readyForQuery .idle], []⟩
  | .close statement name => ⟨s, c.handleClose statement name, [.closeComplete], []⟩
  | .disconnect => (Handled.hangUp ⟨s, c, [], []⟩)
  | .unknown typ =>
    ⟨s, c, [.errorResponse ⟨"08P01", "unsupported message type %q", [typ]⟩, .readyForQuery .idle], []⟩

end handlers

def database : State := s.eng.store.view s.eng.clock

/-! ## A front end for concrete runs

Texts are in upper case. An INSERT puts a row under its own text into a table t(id PRIMARY KEY, v). -/

def demoFrontend : Frontend where
  env := demoEnv
  traits := demoTraits
  trimSpace := fun s => s
  toUpper := fun s => s
  normalize := some
  parse := fun text =>
    if starts text "INSERT" then
      .ok (.joins fun _ sess params => do
        let res ← execInsert demoEnv sess ⟨str "t", [], [.const (.string text), .const .null], none, .none⟩ params
        pure (res, []))
    else .error ⟨"42601", "syntax error", []⟩
  nilRows := fun _ => false
  isCatalogIntrospectionQuery := fun _ => false
  rolePassword := fun _ => none
  parseSetBranch := fun _ => none
  applySetGUC := fun _ sess => sess
  applyReset := fun _ sess => sess
  declared := fun _ => none
  fetched := fun _ => ([], none)
  closed := fun _ => []

def demoStore : Store Val := [⟨schemaKey (str "n") (str "t"), 1, some (.schema demoSchema)⟩]

def demoClient : ConnSession := .new ⟨⟨str "n", by decide⟩, [], str "sub", str "jti", [], str "user"⟩ 1 []

/-- A moment at which the store does not fail. -/
def calm : Occasion := ⟨0, ⟨fun _ => false, none⟩⟩

def simple : Message := .query (str sql) .disconnect

/-- A statement in the extended protocol. -/
def extended : List Message := [.parse [] (str sql), .bind [] [] [], .execute []]

end BasuyuDb.Wire
