import BasuyuDb.Lib.Text
import BasuyuDb.Wire.Protocol

/-
  engine/internal/wire/conn.go: SET CONSTRAINTS. `handleControl` has a case for it that calls SetConstraints of
  the executor, but the case for SET stands before it and takes every such statement: it is acknowledged, and
  the transaction's deferral modes and pending checks stay as they were (`set_constraints_iff`).
-/

namespace BasuyuDb.Wire
open KvLib Storage Transactions Executor List

/-! ## The statement -/

/-- What SET CONSTRAINTS asks for. -/
structure SetConstraints where
  all : Bool
  names : List Bytes
  deferred : Bool
deriving DecidableEq

/-- One name of the list, without quotes and schema. -/
def constraintName (part : Bytes) : Option Bytes :=
  let n := ((trimSpace part).dropWhile (· = 34)).rdropWhile (· = 34)
  if n = [] then none
  else
    match lastIndexOf [46] n with
    | some dot => some (n.drop (dot + 1))
    | none => some n

/-- The mode at the end of the statement, and the text before it. -/
def constraintMode (L : Letters) (rest : Bytes) : Option (Bool × Bytes) :=
  if str "DEFERRED" <:+ toUpper L rest then some (true, trimSpace (rest.take (rest.length - 8)))
  else if str "IMMEDIATE" <:+ toUpper L rest then some (false, trimSpace (rest.take (rest.length - 9)))
  else none

def parseSetConstraints (L : Letters) (F : Folding) (sql : Bytes) : Option SetConstraints :=
  let s := (trimSpace sql).rdropWhile (fun b => b ∈ str "; \t\r\n")
  if s.length < (str "SET CONSTRAINTS").length ∨
      equalFold F (s.take (str "SET CONSTRAINTS").length) (str "SET CONSTRAINTS") = false then none
  else
    match constraintMode L (trimSpace (s.drop (str "SET CONSTRAINTS").length)) with
    | none => none
    | some (deferred, rest) =>
      if rest = [] then none
      else if equalFold F rest (str "ALL") then some ⟨true, [], deferred⟩
      else ((rest.splitOn 44).mapM constraintName).map fun names => ⟨false, names, deferred⟩

/-! ## Dispatch -/

/-- The cases of `handleControl`, that of SET CONSTRAINTS included. -/
inductive Case where
  | control (ctl : Control)
  | setConstraints

/-- Which case is taken. The statements of the cases between SET and SET CONSTRAINTS, and of those after it,
start with other words. -/
def switchCase (f : Frontend) (sql : Bytes) : Option Case :=
  match control f sql with
  | some ctl => some (.control ctl)
  | none => if starts (f.toUpper sql) "SET CONSTRAINTS" then some .setConstraints else none

section handlers
variable (L : Letters) (F : Folding) (f : Frontend) (s : Sys Val) (c : Conn) (o : Occasion)

/-- `SetConstraints` of the executor, in the transaction of the connection if it has one. -/
def applyConstraints (req : SetConstraints) : ExecM Unit × Conn :=
  match c.tx with
  | none => (.ok (), c)
  | some t =>
    match s.eng.txns[t]? with
    | none => (.error txnDone, c)
    | some T =>
      let r := setConstraints f.env f.traits (c.sess.view f.env) (snapOf s.eng T) T.mutations (c.deferral.getD .new)
        req.all req.names req.deferred
      (r.1, { c with deferral := some r.2 })

/-- The case SET CONSTRAINTS of `handleControl`. -/
def handleSetConstraints (sql : Bytes) : Handled :=
  match parseSetConstraints L F sql with
  | none => ⟨s, c, [.errorResponse ⟨"42601", "syntax error in SET CONSTRAINTS", []⟩], []⟩
  | some req =>
    match applyConstraints f s c req with
    | (.error e, c') => ⟨s, c', [.errorResponse e], []⟩
    | (.ok (), c') => ⟨s, c', [.commandComplete "SET CONSTRAINTS"], []⟩

/-- `handleControl`, that case included. -/
def handleCase (sql : Bytes) : Case → Handled
  | .setConstraints => handleSetConstraints L F f s c sql
  | .control ctl => handleControl f s c o sql ctl

end handlers

/-! ## Every SET CONSTRAINTS is a SET -/

/-- The text functions are those of Go, and the first case of `handleControl` is about roles. -/
structure GoTexts (L : Letters) (f : Frontend) : Prop where
  trimSpace : f.trimSpace = KvLib.trimSpace
  toUpper : f.toUpper = KvLib.toUpper L
  role : ∀ sql, f.rolePassword sql ≠ none → starts (f.toUpper sql) "CREATE ROLE " ∨ starts (f.toUpper sql) "CREATE USER " ∨
    starts (f.toUpper sql) "ALTER ROLE " ∨ starts (f.toUpper sql) "ALTER USER "

section dispatch
variable {L : Letters} {F : Folding} {f : Frontend} {sql : Bytes} {req : SetConstraints}

theorem parseSetConstraints_starts (h : parseSetConstraints L F sql = some req) :
    str "SET CONSTRAINTS" <+: KvLib.toUpper L (trimSpace sql) := by
  unfold parseSetConstraints at h
  dsimp only at h
  split at h
  · cases h
  · rename_i hhead
    obtain ⟨hlen, hfold⟩ := not_or.mp hhead
    generalize hs : (trimSpace sql).rdropWhile (fun b => b ∈ str "; \t\r\n") = s at hlen hfold
    have hprefix : s <+: trimSpace sql := hs ▸ rdropWhile_prefix _ _
    have htake : (s.take (str "SET CONSTRAINTS").length).length = (str "SET CONSTRAINTS").length := by
      rw [length_take]
      omega
    obtain ⟨hascii, hupper⟩ := equalFold_ascii (by decide +kernel) htake (by simpa using hfold)
    obtain ⟨rest, hrest⟩ := (List.take_prefix (str "SET CONSTRAINTS").length s).trans hprefix
    have hword : (str "SET CONSTRAINTS").map upperByte = str "SET CONSTRAINTS" := by decide +kernel
    rw [← hrest, toUpper_ascii hascii, hupper, hword]
    exact prefix_append _ _

theorem starts_other {upper : Bytes} {w v : String} (h : str w <+: upper) (hwv : ¬str w <+: str v)
    (hvw : ¬str v <+: str w) : starts upper v = false := by
  by_contra hv
  have hv : str v <+: upper := isPrefixOf_iff_prefix.mp (by simpa [starts] using hv)
  rcases prefix_or_prefix_of_prefix h hv with h1 | h1
  · exact hwv h1
  · exact hvw h1

theorem switchCase_set (hf : GoTexts L f) (h : parseSetConstraints L F sql = some req) :
    switchCase f (f.trimSpace sql) = some (.control .set) := by
  have hstart : str "SET CONSTRAINTS" <+: f.toUpper (f.trimSpace sql) := by
    rw [hf.toUpper, hf.trimSpace]
    exact parseSetConstraints_starts h
  have hset : starts (f.toUpper (f.trimSpace sql)) "SET " = true :=
    isPrefixOf_iff_prefix.mpr (List.IsPrefix.trans (by decide) hstart)
  have hrole : f.rolePassword (f.trimSpace sql) = none := by
    by_contra hne
    rcases hf.role _ hne with hr | hr | hr | hr <;>
      exact absurd hr (by rw [starts_other hstart (by decide) (by decide)]; exact Bool.false_ne_true)
  unfold switchCase control
  rw [hrole]
  dsimp only
  rw [starts_other hstart (v := "BEGIN") (by decide) (by decide),
    starts_other hstart (v := "START TRANSACTION") (by decide) (by decide),
    starts_other hstart (v := "COMMIT") (by decide) (by decide), starts_other hstart (v := "END") (by decide) (by decide),
    starts_other hstart (v := "ROLLBACK TO ") (by decide) (by decide),
    starts_other hstart (v := "ROLLBACK") (by decide) (by decide), starts_other hstart (v := "ABORT") (by decide) (by decide),
    starts_other hstart (v := "SET BRANCH") (by decide) (by decide), hset]
  rfl

end dispatch

/-! ## What the statement does -/

/-- The name filter of a run of the pending checks. -/
def SetConstraints.filter (req : SetConstraints) : Option (List Bytes) := if req.all then none else some req.names

/-- The modes of the deferrable keys that the statement names are the one it asks for. -/
def ModesSet (keys : List NamedKey) (req : SetConstraints) (st : Option DeferredState) : Prop :=
  ∀ k ∈ keys, k.deferrable = true → Names req.all req.names k.name →
    isDeferred st k.name k.initiallyDeferred = req.deferred

/-- The checks were run: the queue is the one that the run leaves, and its error is answered. -/
def Rerun (ran : ExecM Unit × List PendingFKCheck) (st : Option DeferredState) (out : List Backend) : Prop :=
  queueOf st = ran.2 ∧ ∀ e, ran.1 = .error e → out = [.errorResponse e]

/-- The statement had its effect: the modes are set, and for IMMEDIATE the pending checks of the transaction
were run. -/
def Obeyed (env : Env) (traits : Bytes → Bytes → FkTraits) (sess : Executor.Session) (snap : Snap Bytes Val)
    (buf : Buffer) (keys : List NamedKey) (req : SetConstraints) (st st' : Option DeferredState)
    (out : List Backend) : Prop :=
  ModesSet keys req st' ∧ (req.deferred = false →
    Rerun (Executor.runPendingChecks env traits sess snap buf req.filter (queueOf st)) st' out)

section effect
variable {L : Letters} {F : Folding} {f : Frontend} {s : Sys Val} {c : Conn} {t : Nat} {T : Txn Val} {sql : Bytes}
  {req : SetConstraints}

theorem handleSetConstraints_obeys (htx : c.tx = some t) (hT : s.eng.txns[t]? = some T)
    (h : parseSetConstraints L F sql = some req) (keys : List NamedKey) :
    Obeyed f.env f.traits (c.sess.view f.env) (snapOf s.eng T) T.mutations keys req c.deferral
      (handleSetConstraints L F f s c sql).conn.deferral (handleSetConstraints L F f s c sql).out := by
  have hqueue : (c.deferral.getD .new).pending = queueOf c.deferral := by
    unfold queueOf
    cases c.deferral with
    | none | some st => rfl
  generalize hr : setConstraints f.env f.traits (c.sess.view f.env) (snapOf s.eng T) T.mutations (c.deferral.getD .new)
    req.all req.names req.deferred = r
  have happly : applyConstraints f s c req = (r.1, { c with deferral := some r.2 }) := by
    unfold applyConstraints
    rw [htx]
    dsimp only
    rw [hT, ← hr]
  have hhandle : (handleSetConstraints L F f s c sql).conn.deferral = some r.2 ∧
      ∀ e, r.1 = .error e → (handleSetConstraints L F f s c sql).out = [.errorResponse e] := by
    unfold handleSetConstraints
    rw [h]
    dsimp only
    rw [happly]
    cases hr1 : r.1 with
    | error e => exact ⟨rfl, fun e' he => by rw [Except.error.inj he]⟩
    | ok _ => exact ⟨rfl, fun e' he => nomatch he⟩
  rw [hhandle.1]
  refine ⟨fun k hk _ hnamed => hr ▸ setConstraints_mode hnamed _, fun himm => ?_⟩
  rw [himm, setConstraints_immediate, hqueue] at hr
  subst hr
  exact ⟨rfl, fun e he => hhandle.2 e he⟩

end effect

/-- Every SET CONSTRAINTS is taken by the case for SET: the statement has its effect exactly when there is none
    to have, the modes being set already and no check that it would run pending. The case meant for it would
    have the effect. -/
theorem set_constraints_iff (L : Letters) (F : Folding) (f : Frontend) (hf : GoTexts L f) (s : Sys Val) (c : Conn)
    (o : Occasion) (t : Nat) (T : Txn Val) (htx : c.tx = some t) (hT : s.eng.txns[t]? = some T) (keys : List NamedKey)
    (answer : CopyAnswer) (sql : Bytes) (req : SetConstraints) (hparse : parseSetConstraints L F sql = some req) :
    (∃ h, (switchCase f (f.trimSpace sql)).map (handleCase L F f s c o (f.trimSpace sql)) = some h ∧
        handleSimpleQuery f s c o sql answer = h ∧
      (Obeyed f.env f.traits (c.sess.view f.env) (snapOf s.eng T) T.mutations keys req c.deferral h.conn.deferral h.out ↔
        ModesSet keys req c.deferral ∧ (req.deferred = false → ∀ p ∈ queueOf c.deferral, ¬Selected req.filter p))) ∧
      Obeyed f.env f.traits (c.sess.view f.env) (snapOf s.eng T) T.mutations keys req c.deferral
        (handleSetConstraints L F f s c sql).conn.deferral (handleSetConstraints L F f s c sql).out := by
  have hcase := switchCase_set hf hparse
  have hcontrol : control f (f.trimSpace sql) = some .set := by
    unfold switchCase at hcase
    cases hctl : control f (f.trimSpace sql) with
    | some ctl =>
      rw [hctl] at hcase
      exact congrArg some (Case.control.inj (Option.some.inj hcase))
    | none =>
      rw [hctl] at hcase
      dsimp only at hcase
      split at hcase
      · cases hcase
      · cases hcase
  have hne : f.trimSpace sql ≠ [] := by
    intro hnil
    have hstart := parseSetConstraints_starts hparse
    rw [hf.trimSpace] at hnil
    rw [hnil, show KvLib.toUpper L [] = [] from rfl] at hstart
    exact absurd hstart (by decide)
  refine ⟨⟨_, by rw [hcase]; rfl, ?_, ?_⟩, handleSetConstraints_obeys htx hT hparse keys⟩
  · unfold handleSimpleQuery
    dsimp only
    rw [if_neg hne, hcontrol]
    rfl
  · refine and_congr_right (fun _ => imp_congr_right fun himm => ?_)
    generalize hran : Executor.runPendingChecks f.env f.traits (c.sess.view f.env) (snapOf s.eng T) T.mutations req.filter
      (queueOf c.deferral) = ran
    obtain ⟨answer, rest⟩ := ran
    constructor
    · rintro ⟨hqueue, herror⟩
      cases answer with
      | error e => cases herror e rfl
      | ok _ =>
        have hrest := pendingLoop_ok (fun _ => rfl) hran
        rw [nil_append, ← show queueOf c.deferral = rest from hqueue, eq_comm, filter_eq_self] at hrest
        exact fun p hp => by simpa using hrest p hp
    · intro hnone
      have hok : answer = .ok () := by
        rw [← show _ = answer from congrArg Prod.fst hran]
        exact pendingLoop_skips hnone
      subst hok
      have hrest := pendingLoop_ok (fun _ => rfl) hran
      rw [nil_append, filter_eq_self.mpr fun p hp => by simpa using hnone p hp] at hrest
      exact ⟨hrest.symm, fun e he => nomatch he⟩

def asciiFolding : Folding := ⟨asciiLetters.upper, asciiLetters.upper_ascii, asciiLetters.upper_invalid⟩

def spokenFrontend : Frontend :=
  { demoFrontend with trimSpace := KvLib.trimSpace, toUpper := KvLib.toUpper asciiLetters }

theorem spokenFrontend_go : GoTexts asciiLetters spokenFrontend := ⟨rfl, rfl, fun _ h => absurd rfl h⟩

/-- A connection in a transaction block. -/
def openBlock : Handled := handleBegin (Sys.new demoStore) (.new demoClient)

/-- The key of c on t, deferrable and initially immediate. -/
def immediateKey : NamedKey := ⟨⟨str "t", [⟨str "ref", str "id"⟩], .unspecified, .unspecified⟩, str "k", true, false⟩

/-- Asked for the mode that the keys have already. -/
theorem set_constraints_same : ∃ h : Handled,
    (switchCase spokenFrontend (KvLib.trimSpace (str "set constraints k immediate;"))).map
      (handleCase asciiLetters asciiFolding spokenFrontend openBlock.sys openBlock.conn calm
        (KvLib.trimSpace (str "set constraints k immediate;"))) = some h ∧
      ModesSet [immediateKey] ⟨false, [str "k"], false⟩ h.conn.deferral := by
  obtain ⟨⟨h, hcase, -, hiff⟩, -⟩ := set_constraints_iff asciiLetters asciiFolding spokenFrontend spokenFrontend_go
    openBlock.sys openBlock.conn calm 0 _ rfl rfl [immediateKey] .disconnect
    (str "set constraints k immediate;") ⟨false, [str "k"], false⟩ (by decide +kernel)
  refine ⟨h, hcase, (hiff.mpr ⟨fun k hk _ _ => ?_, fun _ p hp => ?_⟩).1⟩
  · rw [mem_singleton.mp hk]
    rfl
  · cases hp

/-- SET CONSTRAINTS ALL DEFERRED in a block: the answer is SET, and the key is not deferred. -/
theorem set_constraints_ignored :
    parseSetConstraints asciiLetters asciiFolding (str "SET CONSTRAINTS ALL DEFERRED") = some ⟨true, [], true⟩ ∧
      ∃ h, (switchCase spokenFrontend (str "SET CONSTRAINTS ALL DEFERRED")).map
          (handleCase asciiLetters asciiFolding spokenFrontend openBlock.sys openBlock.conn calm
            (str "SET CONSTRAINTS ALL DEFERRED")) = some h ∧
        openBlock.conn.tx = some 0 ∧ h.out = [.commandComplete "SET"] ∧
        isDeferred h.conn.deferral immediateKey.name immediateKey.initiallyDeferred = false := by
  have hparse : parseSetConstraints asciiLetters asciiFolding (str "SET CONSTRAINTS ALL DEFERRED") =
    some ⟨true, [], true⟩ := by decide +kernel
  have htrim : KvLib.trimSpace (str "SET CONSTRAINTS ALL DEFERRED") = str "SET CONSTRAINTS ALL DEFERRED" := by
    decide +kernel
  have hcase := switchCase_set spokenFrontend_go hparse
  rw [show spokenFrontend.trimSpace (str "SET CONSTRAINTS ALL DEFERRED") = _ from htrim] at hcase
  refine ⟨hparse, _, by rw [hcase]; rfl, rfl, rfl, rfl⟩

end BasuyuDb.Wire
