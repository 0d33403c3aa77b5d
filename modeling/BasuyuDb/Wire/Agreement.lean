import BasuyuDb.Wire.Client

/-
  Transaction control in the two protocols. A statement is sent as a simple query or as Parse, Bind,
  Execute and Sync. Outside a block both run the same statement in a transaction of its own and answer
  `idle`. They part at BEGIN: `handleControl` opens a block, `sessionControlTag` acknowledges it, and Sync
  always answers `idle`. `protocols_agree_iff`: the ways of sending a sequence agree exactly when it has
  no BEGIN.
-/

namespace BasuyuDb.Wire
open KvLib Storage Transactions Executor List

/-! ## Sending statements -/

/-- A statement without parameters, and when it runs. -/
structure Request where
  sql : Bytes
  o : Occasion

/-- The messages of a statement in the two protocols; none of these statements asks for COPY data. -/
def Request.messages (r : Request) (extended : Bool) : List Message :=
  if extended then [.parse [] r.sql, .bind [] [] [], .execute [], .sync] else [.query r.sql .disconnect]

/-- Messages one after the other. -/
def handleAll (f : Frontend) (o : Occasion) : List Message → Handled → Handled
  | [], h => h
  | m :: ms, h =>
    let h' := handle f h.sys h.conn o m
    handleAll f o ms ⟨h'.sys, h'.conn, h.out ++ h'.out, h.issued ++ h'.issued⟩

def send (f : Frontend) (s : Sys Val) (c : Conn) (extended : Bool) (r : Request) : Handled :=
  handleAll f r.o (r.messages extended) ⟨s, c, [], []⟩

/-- The committed database and the last answer, after each statement. -/
def trace (f : Frontend) (s : Sys Val) (c : Conn) : List (Bool × Request) → List (State × Option Backend)
  | [] => []
  | (extended, r) :: rest =>
    let h := send f s c extended r
    (database h.sys, h.out.getLast?) :: trace f h.sys h.conn rest

/-- BEGIN or START TRANSACTION. -/
def begins (f : Frontend) (sql : Bytes) : Bool :=
  match control f (f.trimSpace sql) with
  | some .begin => true
  | _ => false

def Control.isBlock : Control → Bool
  | .begin => true
  | .commit => true
  | .rollback => true
  | _ => false

/-- BEGIN, COMMIT, ROLLBACK, and statements that are neither control statements nor COPY. -/
def Listed (f : Frontend) (sql : Bytes) : Prop :=
  f.trimSpace sql ≠ [] ∧
    (control f (f.trimSpace sql)).elim (!starts (f.toUpper (f.trimSpace sql)) "COPY") Control.isBlock = true

instance (f : Frontend) (sql : Bytes) : Decidable (Listed f sql) := inferInstanceAs (Decidable (_ ∧ _))

/-! ## The two tables of control statements -/

section tables
variable {f : Frontend} {sql : Bytes}

theorem of_ite_eq_none {α : Type} {p : Prop} [Decidable p] {a : α} {x : Option α} (h : (if p then some a else x) = none) :
    ¬ p ∧ x = none := by
  by_cases hp : p
  · rw [if_pos hp] at h
    cases h
  · rw [if_neg hp] at h
    exact ⟨hp, h⟩

theorem sessionControlTag_of_none (h : control f sql = none) : sessionControlTag f sql = none := by
  unfold control at h
  cases hrole : f.rolePassword sql with
  | some answer =>
    rw [hrole] at h
    cases h
  | none =>
    rw [hrole] at h
    obtain ⟨hbegin, h⟩ := of_ite_eq_none h
    obtain ⟨hcommit, h⟩ := of_ite_eq_none h
    obtain ⟨-, h⟩ := of_ite_eq_none h
    obtain ⟨hroll, h⟩ := of_ite_eq_none h
    obtain ⟨-, h⟩ := of_ite_eq_none h
    obtain ⟨hset, h⟩ := of_ite_eq_none h
    obtain ⟨hreset, h⟩ := of_ite_eq_none h
    obtain ⟨-, h⟩ := of_ite_eq_none h
    obtain ⟨-, h⟩ := of_ite_eq_none h
    obtain ⟨-, h⟩ := of_ite_eq_none h
    have hdiscard : ¬ starts (f.toUpper sql) "DISCARD" = true := by
      cases hfind : acknowledged.find? (fun p => starts (f.toUpper sql) p.1) with
      | some p =>
        rw [hfind] at h
        cases h
      | none => exact find?_eq_none.mp hfind ("DISCARD", "DISCARD ALL") mem_cons_self
    unfold sessionControlTag
    rw [if_neg hset, if_neg hreset, if_neg hbegin, if_neg hcommit, if_neg hroll, if_neg hdiscard]

theorem notBlock_ite {p : Prop} [Decidable p] {c : Control} {x : Option Control} (hc : c.isBlock = false)
    (hx : ∀ c', x = some c' → c'.isBlock = false) : ∀ c', (if p then some c else x) = some c' → c'.isBlock = false := by
  intro c' heq
  by_cases hp : p
  · rw [if_pos hp] at heq
    exact Option.some.inj heq ▸ hc
  · rw [if_neg hp] at heq
    exact hx c' heq

theorem sessionControlTag_isSome {ctl : Control} (h : control f sql = some ctl) (hctl : ctl.isBlock = true) :
    ∃ tag, sessionControlTag f sql = some tag := by
  cases htag : sessionControlTag f sql with
  | some tag => exact ⟨tag, rfl⟩
  | none =>
    obtain ⟨-, htag⟩ := of_ite_eq_none htag
    obtain ⟨-, htag⟩ := of_ite_eq_none htag
    obtain ⟨hbegin, htag⟩ := of_ite_eq_none htag
    obtain ⟨hcommit, htag⟩ := of_ite_eq_none htag
    obtain ⟨hroll, -⟩ := of_ite_eq_none htag
    have hother : ∀ c, control f sql = some c → c.isBlock = false := by
      intro c hc
      unfold control at hc
      cases hrole : f.rolePassword sql with
      | some answer =>
        rw [hrole] at hc
        exact Option.some.inj hc ▸ rfl
      | none =>
        rw [hrole] at hc
        dsimp only at hc
        rw [if_neg hbegin, if_neg hcommit, if_neg hroll] at hc
        refine notBlock_ite rfl (notBlock_ite rfl (notBlock_ite rfl (notBlock_ite rfl (notBlock_ite rfl
          (notBlock_ite rfl (notBlock_ite rfl ?_)))))) c hc
        intro c' hc'
        split at hc'
        · exact Option.some.inj hc' ▸ rfl
        · exact Option.some.inj hc' ▸ rfl
        · cases hc'
    cases (hother ctl h).symm.trans hctl

end tables

/-! ## Outside a block -/

section idle
variable {f : Frontend} {s : Sys Val} {c c' : Conn} {o : Occasion}

/-- Two connections outside a block, with one session. -/
structure Alike (c c' : Conn) : Prop where
  tx : c.tx = none
  tx' : c'.tx = none
  sess : c.sess = c'.sess

theorem defer_idle (h : c.tx = none) (checks : List PendingFKCheck) : c.defer checks = c := if_pos (.inl h)

/-- What a statement that is no BEGIN does outside a block: the engine after it, as `execSQL` leaves it or
as it was. -/
def outcome (f : Frontend) (s : Sys Val) (c : Conn) (r : Request) : Sys Val :=
  match control f (f.trimSpace r.sql) with
  | none => (execSQL f s c r.o (f.trimSpace r.sql) []).sys
  | some _ => s

theorem outcome_congr (h : Alike c c') (r : Request) : outcome f s c r = outcome f s c' r := by
  have hdefer : effectiveDeferral c = effectiveDeferral c' := by
    funext k
    simp [effectiveDeferral, h.tx, h.tx']
  unfold outcome execSQL execute
  rw [h.tx, h.tx', h.sess, hdefer]

variable {r : Request}

theorem send_simple (hnone : c.tx = none) (hl : Listed f r.sql) (hb : begins f r.sql = false) :
    (send f s c false r).sys = outcome f s c r ∧ (send f s c false r).conn.tx = none ∧
      (send f s c false r).conn.sess = c.sess ∧ (send f s c false r).out.getLast? = some (.readyForQuery .idle) := by
  obtain ⟨hne, hl⟩ := hl
  -- no answer asks for COPY data, so the query ends with ReadyForQuery
  have hends : ∀ h : Handled, handleSimpleQuery f s c r.o r.sql .disconnect = h → .copyInResponse ∉ h.out →
      h.conn.tx = none → (send f s c false r).sys = h.sys ∧ (send f s c false r).conn = h.conn ∧
        (send f s c false r).out.getLast? = some (.readyForQuery .idle) := by
    intro h hq hno htx
    have hup : hangsUp .disconnect (h.out ++ [.readyForQuery h.conn.txStatus]) = false :=
      hangsUp_false (by simp [hno])
    simp only [send, Request.messages, Bool.false_eq_true, if_false, handleAll, handle, hq, Handled.endQuery, hup]
    refine ⟨trivial, trivial, ?_⟩
    simp [Conn.txStatus, htx]
  cases hctl : control f (f.trimSpace r.sql) with
  | some ctl =>
    have hq : handleSimpleQuery f s c r.o r.sql .disconnect = handleControl f s c r.o (f.trimSpace r.sql) ctl := by
      simp only [handleSimpleQuery, if_neg hne, hctl]
    have hquiet : (handleControl f s c r.o (f.trimSpace r.sql) ctl).sys = s ∧
        (handleControl f s c r.o (f.trimSpace r.sql) ctl).conn.tx = none ∧
        (handleControl f s c r.o (f.trimSpace r.sql) ctl).conn.sess = c.sess := by
      rw [hctl] at hl
      cases ctl with
      | begin =>
        simp only [begins, hctl] at hb
        cases hb
      | commit =>
        simp only [handleControl, handleCommit, hnone]
        exact ⟨trivial, trivial, trivial⟩
      | rollback =>
        simp only [handleControl, rollbackOpen, hnone]
        exact ⟨trivial, rfl, rfl⟩
      | _ => cases hl
    obtain ⟨hsys, htx, hsess⟩ := hquiet
    obtain ⟨h1, h2, h3⟩ := hends _ hq (handleControl_answers _ _) htx
    refine ⟨?_, by rw [h2]; exact htx, by rw [h2]; exact hsess, h3⟩
    simp only [h1, hsys, outcome, hctl]
  | none =>
    rw [hctl] at hl
    have hcopy : starts (f.toUpper (f.trimSpace r.sql)) "COPY" = false := by simpa using hl
    have hq : handleSimpleQuery f s c r.o r.sql .disconnect = handleStatement f s c r.o (f.trimSpace r.sql) := by
      simp only [handleSimpleQuery, if_neg hne, hctl, hnone, ne_eq, not_true_eq_false, false_and, if_false, handleCopy]
      rw [hcopy, if_neg (by decide)]
    have hrun : (handleStatement f s c r.o (f.trimSpace r.sql)).sys = outcome f s c r ∧
        (handleStatement f s c r.o (f.trimSpace r.sql)).conn = c ∧
        .copyInResponse ∉ (handleStatement f s c r.o (f.trimSpace r.sql)).out := by
      simp only [handleStatement, outcome, hctl, hnone, if_true]
      split
      · exact ⟨rfl, rfl, by simp⟩
      · exact ⟨rfl, defer_idle hnone _, by simp [writeResult]⟩
    obtain ⟨hsys, hconn, hno⟩ := hrun
    obtain ⟨h1, h2, h3⟩ := hends _ hq hno (by rw [hconn]; exact hnone)
    exact ⟨h1.trans hsys, by rw [h2, hconn]; exact hnone, by rw [h2, hconn], h3⟩

/-- The connection when Execute arrives. -/
def Conn.bound (c : Conn) (sql : Bytes) : Conn :=
  { c with prepared := assign c.prepared [] sql, portals := assign c.portals [] (sql, []) }

theorem send_extended_eq (r : Request) : send f s c true r =
    ⟨(handleExecuteExtended f s (c.bound r.sql) r.o []).sys, (handleExecuteExtended f s (c.bound r.sql) r.o []).conn,
      [.parseComplete, .bindComplete] ++ (handleExecuteExtended f s (c.bound r.sql) r.o []).out ++ [.readyForQuery .idle],
      (handleExecuteExtended f s (c.bound r.sql) r.o []).issued ++ []⟩ := by
  simp only [send, Request.messages, if_true, handleAll, handle, handleBind, assign, lookup_cons_self,
    nil_append, cons_append, Conn.bound]

theorem execStatement_idle (hl : Listed f r.sql) : (execStatement f s c r.o r.sql []).sys = outcome f s c r := by
  obtain ⟨-, hl⟩ := hl
  unfold execStatement outcome
  dsimp only
  cases hctl : control f (f.trimSpace r.sql) with
  | none =>
    rw [sessionControlTag_of_none hctl]
    dsimp only
    split
    · split <;> rfl
    · rfl
  | some ctl =>
    rw [hctl] at hl
    obtain ⟨tag, htag⟩ := sessionControlTag_isSome hctl hl
    rw [htag]

theorem send_extended (hnone : c.tx = none) (hl : Listed f r.sql) :
    (send f s c true r).sys = outcome f s c r ∧ (send f s c true r).conn.tx = none ∧
      (send f s c true r).conn.sess = c.sess ∧ (send f s c true r).out.getLast? = some (.readyForQuery .idle) := by
  have hbound : (c.bound r.sql).portals.lookup [] = some (r.sql, []) := lookup_cons_self
  have halike : Alike (c.bound r.sql) c := ⟨hnone, hnone, rfl⟩
  have hrun : (handleExecuteExtended f s (c.bound r.sql) r.o []).sys = outcome f s c r ∧
      (handleExecuteExtended f s (c.bound r.sql) r.o []).conn = c.bound r.sql := by
    rw [← outcome_congr halike, ← execStatement_idle hl]
    simp only [handleExecuteExtended, hbound]
    split
    · exact ⟨rfl, rfl⟩
    · exact ⟨rfl, defer_idle (c := c.bound r.sql) hnone _⟩
  rw [send_extended_eq, hrun.2]
  exact ⟨hrun.1, hnone, rfl, getLast?_concat⟩

/-- One statement, in whichever protocols: BEGIN apart, the same engine and answer, and the connections
stay alike. -/
theorem send_alike (h : Alike c c') (hl : Listed f r.sql) (hb : begins f r.sql = false) (extended : Bool) :
    (send f s c extended r).sys = (send f s c' false r).sys ∧
      (send f s c extended r).out.getLast? = (send f s c' false r).out.getLast? ∧
      Alike (send f s c extended r).conn (send f s c' false r).conn := by
  obtain ⟨hsys', htx', hsess', hlast'⟩ := send_simple (s := s) h.tx' hl hb
  have hsent : (send f s c extended r).sys = outcome f s c r ∧ (send f s c extended r).conn.tx = none ∧
      (send f s c extended r).conn.sess = c.sess ∧
      (send f s c extended r).out.getLast? = some (.readyForQuery .idle) := by
    cases extended with
    | false => exact send_simple h.tx hl hb
    | true => exact send_extended h.tx hl
  obtain ⟨hsys, htx, hsess, hlast⟩ := hsent
  refine ⟨?_, hlast.trans hlast'.symm, htx, htx', ?_⟩
  · rw [hsys, hsys', outcome_congr h]
  · rw [hsess, hsess', h.sess]

theorem send_begin (hnone : c.tx = none) (hne : f.trimSpace r.sql ≠ []) (hb : begins f r.sql = true) :
    (send f s c false r).out.getLast? = some (.readyForQuery .inTransaction) := by
  have hctl : control f (f.trimSpace r.sql) = some .begin := by
    unfold begins at hb
    split at hb
    · assumption
    · cases hb
  have hq : handleSimpleQuery f s c r.o r.sql .disconnect = handleBegin s c := by
    simp only [handleSimpleQuery, if_neg hne, hctl, handleControl]
  simp only [send, Request.messages, Bool.false_eq_true, if_false, handleAll, handle, hq, Handled.endQuery, handleBegin,
    hnone, Conn.txStatus]
  rfl

end idle

/-! ## Sequences -/

section sequences
variable {f : Frontend}

theorem trace_of_no_begin (rs : List Request) (hl : ∀ r ∈ rs, Listed f r.sql) (hb : ∀ r ∈ rs, begins f r.sql = false)
    (ways : List Bool) (hlen : ways.length = rs.length) {s : Sys Val} {c c' : Conn} (h : Alike c c') :
    trace f s c (ways.zip rs) = trace f s c' (rs.map fun r => (false, r)) := by
  induction rs generalizing ways s c c' with
  | nil => rw [zip_nil_right, map_nil]; rfl
  | cons r rs ih =>
    obtain ⟨way, ways, rfl⟩ := exists_cons_of_length_eq_add_one hlen
    obtain ⟨hsys, hlast, halike⟩ := send_alike (s := s) h (hl r mem_cons_self) (hb r mem_cons_self) way
    simp only [zip_cons_cons, map_cons, trace]
    rw [hsys, hlast, ih (fun r' hr => hl r' (mem_cons_of_mem _ hr)) (fun r' hr => hb r' (mem_cons_of_mem _ hr))
      ways (Nat.succ.inj hlen) halike]

theorem no_begin_of_trace (rs : List Request) (hl : ∀ r ∈ rs, Listed f r.sql) {s : Sys Val} {c c' : Conn} (h : Alike c c')
    (heq : trace f s c (rs.map fun r => (true, r)) = trace f s c' (rs.map fun r => (false, r))) :
    ∀ r ∈ rs, begins f r.sql = false := by
  induction rs generalizing s c c' with
  | nil => nofun
  | cons r rs ih =>
    simp only [map_cons, trace, List.cons.injEq, Prod.mk.injEq] at heq
    obtain ⟨⟨-, hlast⟩, hrest⟩ := heq
    have hlr := hl r mem_cons_self
    have hfirst : begins f r.sql = false := by
      cases hb : begins f r.sql with
      | false => rfl
      | true =>
        rw [(send_extended h.tx hlr).2.2.2, send_begin h.tx' hlr.1 hb] at hlast
        cases Option.some.inj hlast
    obtain ⟨hsys, -, halike⟩ := send_alike (s := s) h hlr hfirst true
    rw [hsys] at hrest
    intro r' hr'
    rcases mem_cons.mp hr' with rfl | hr'
    · exact hfirst
    · exact ih (fun r'' hr => hl r'' (mem_cons_of_mem _ hr)) halike hrest r' hr'

/-- The two protocols agree on a sequence of statements, sent from outside a block: every way of sending
each of them gives the same committed database and the same ReadyForQuery after each, exactly when none of
them is BEGIN or START TRANSACTION. -/
theorem protocols_agree_iff (f : Frontend) (s : Sys Val) (c : Conn) (hnone : c.tx = none) (rs : List Request)
    (hl : ∀ r ∈ rs, Listed f r.sql) : (∀ ways : List Bool, ways.length = rs.length →
        trace f s c (ways.zip rs) = trace f s c (rs.map fun r => (false, r))) ↔
      ∀ r ∈ rs, begins f r.sql = false := by
  have halike : Alike c c := ⟨hnone, hnone, rfl⟩
  constructor
  · intro h
    refine no_begin_of_trace (s := s) rs hl halike ?_
    have hzip : (rs.map fun _ => true).zip rs = rs.map (fun r => (true, r)) := by
      simpa using zip_map' (f := fun _ => true) (g := id) (l := rs)
    rw [← hzip]
    exact h _ (length_map _)
  · intro hb ways hlen
    exact trace_of_no_begin rs hl hb ways hlen halike

/-- INSERTs, one of them a duplicate, and COMMIT and ROLLBACK outside a block, in turn in both protocols. -/
theorem protocols_agree_mixed : ∃ rs : List Request, rs.length = 4 ∧
    trace demoFrontend (Sys.new demoStore) (.new demoClient) ([true, false, true, false].zip rs) =
      trace demoFrontend (Sys.new demoStore) (.new demoClient) (rs.map fun r => (false, r)) := by
  refine ⟨["INSERT A", "COMMIT", "INSERT A", "ROLLBACK"].map fun sql => ⟨str sql, calm⟩, rfl, ?_⟩
  refine (protocols_agree_iff demoFrontend (Sys.new demoStore) (.new demoClient) rfl _ ?_).mpr ?_ _ rfl
  · decide +kernel
  · decide +kernel

end sequences

/-- The row that an INSERT of the front end for concrete runs puts, and the status, after each statement. -/
def watched (sql : String) (t : List (State × Option Backend)) : List (Bool × Option Backend) :=
  t.map fun e => ((e.1.lookup (rowKey (str "n") mainBranch (str "t") (str sql))).isSome, e.2)

/-- BEGIN, INSERT and ROLLBACK: the row is rolled back in the one protocol and committed in the other. -/
theorem protocols_differ : ∃ rs : List Request, (∀ r ∈ rs, Listed demoFrontend r.sql) ∧
    watched "INSERT A" (trace demoFrontend (Sys.new demoStore) (.new demoClient) (rs.map fun r => (false, r))) =
      [(false, some (.readyForQuery .inTransaction)), (false, some (.readyForQuery .inTransaction)),
        (false, some (.readyForQuery .idle))] ∧
    watched "INSERT A" (trace demoFrontend (Sys.new demoStore) (.new demoClient) (rs.map fun r => (true, r))) =
      [(false, some (.readyForQuery .idle)), (true, some (.readyForQuery .idle)),
        (true, some (.readyForQuery .idle))] := by
  refine ⟨["BEGIN", "INSERT A", "ROLLBACK"].map fun sql => ⟨str sql, calm⟩, ?_, ?_, ?_⟩
  · decide +kernel
  · decide +kernel
  · decide +kernel

end BasuyuDb.Wire
