import BasuyuDb.Transactions.Snapshot
import BasuyuDb.Executor.Dml

/-
  engine/internal/executor/executor.go, txnctx.go: sessions that run autocommit statements
  concurrently on one engine. A statement is tried until it commits without a write conflict,
  at most `maxRetries` times more. Every read, every buffered write, Begin, Rollback and the
  three parts of Commit are steps of their own, so the steps of different sessions interleave
  in all ways. `Move` says once what a step can do.
-/

namespace BasuyuDb.Executor
open KvLib Storage Transactions List Option

/-- Where a session is in its current statement. `start` is the first number its evaluations
are given, `i` the next one. -/
inductive Stage where
  | idle
  | running (t start : Nat) (p : Stm Result) (i : Nat)
  | aborting (t : Nat) (e : ExecError)
  | committing (t start : Nat) (res : Result)

/-- A session: the statements still to run (the current one first), how often the current
one was retried, and what the earlier ones returned. -/
structure Client where
  todo : List (Stm Result)
  attempt : Nat
  stage : Stage
  replies : List (ExecM Result)

/-- The engine and the sessions. -/
structure Net where
  sys : Sys Val
  clients : List Client

def Net.state (n : Net) : State := n.sys.eng.store.view n.sys.eng.clock

def maxRetries : Nat := 64

def Client.new (stmts : List (Stm Result)) : Client := ⟨stmts, 0, .idle, []⟩

/-- The sessions, each with its statements, on an engine opened on a store. -/
def Net.new (store : Store Val) (stmts : List (List (Stm Result))) : Net := ⟨Sys.new store, stmts.map Client.new⟩

/-- The current statement returns. -/
def Client.finish (c : Client) (r : ExecM Result) : Client := ⟨c.todo.tail, 0, .idle, c.replies ++ [r]⟩

/-- The error of a commit that the store failed; it is no ExecError in the source. -/
def storeFailure : ExecError := ⟨"", "transactions: %v", []⟩

def serializationFailure : ExecError := ⟨"40001", "could not serialize access due to concurrent update", []⟩

/-- `Execute` after a write conflict. -/
def Client.conflicted (c : Client) : Client :=
  if c.attempt < maxRetries then { c with attempt := c.attempt + 1, stage := .idle }
  else c.finish (.error serializationFailure)

/-- `executeOnce` after the first part of Commit. -/
def Client.replied (c : Client) (t start : Nat) (res : Result) : Reply → Client
  | .ok => c.finish (.ok res)
  | .inProgress => { c with stage := .committing t start res }
  | .writeConflict => c.conflicted
  | _ => { c with stage := .aborting t storeFailure }

/-- What a `get` sees: other errors than a missing key do not occur in an open transaction. -/
def found (r : Except ReadErr Val) : Option Val :=
  match r with
  | .ok v => some v
  | .error _ => none

/-- The next step of a running statement. -/
def stepRunning (sys : Sys Val) (c : Client) (fault : Bytes → Bool) (t start : Nat) (T : Txn Val)
    (p : Stm Result) (i : Nat) : Option (Sys Val × Client) :=
  match p with
  | .pure res =>
    (sys.eng.step (.commit t fault)).bind fun r =>
      (sys.step (.commit t fault)).map fun sys' => (sys', c.replied t start res r.2)
  | .throw e => some (sys, { c with stage := .aborting t e })
  | .get k next => some (sys, { c with stage := .running t start (next (found (sys.eng.get T k))) i })
  | .scan r next => some (sys, { c with stage := .running t start (next (sys.eng.iterate T r)) i })
  | .put m next =>
    (sys.step (.buffer t m)).map fun sys' => (sys', { c with stage := .running t start next i })
  | .readTs next => some (sys, { c with stage := .running t start (next T.readUint) i })
  | .fresh next => some (sys, { c with stage := .running t start (next i) (i + 1) })

def stepClient (sys : Sys Val) (c : Client) (fault : Bytes → Bool) : Option (Sys Val × Client) :=
  match c.stage with
  | .running t start p i =>
    (sys.eng.txns[t]?).bind fun T => stepRunning sys c fault t start T p i
  | .aborting t e =>
    (sys.step (.rollback t)).map fun sys' => (sys', c.finish (.error e))
  | _ => none

/-- The end of a commit, for the session that made it. -/
def Client.flushed (t : Nat) (failed : Bool) (c : Client) : Client :=
  match c.stage with
  | .committing t' _ res =>
    if t' = t then c.finish (if failed then .error storeFailure else .ok res) else c
  | _ => c

/-- A step: a session begins a statement or goes on with it, or the commit in progress does. -/
inductive Act where
  | start (j i : Nat)
  | advance (j : Nat) (fault : Bytes → Bool)
  | flush
  | flushFail (persisted : List Bool)
  | publish

def Net.step (n : Net) : Act → Option Net
  | .start j i =>
    (n.clients[j]?).bind fun c => match c.stage, c.todo with
      | .idle, p :: _ =>
        (n.sys.step .begin).map fun sys' =>
          ⟨sys', n.clients.set j { c with stage := .running n.sys.eng.txns.length i p i }⟩
      | _, _ => none
  | .advance j fault =>
    (n.clients[j]?).bind fun c => (stepClient n.sys c fault).map fun sc => ⟨sc.1, n.clients.set j sc.2⟩
  | .flush => (n.sys.step .flush).map fun sys' => { n with sys := sys' }
  | .flushFail persisted =>
    (n.sys.eng.phase.commit?).bind fun cm => (n.sys.step (.flushFail persisted)).map fun sys' =>
        ⟨sys', n.clients.map (Client.flushed cm.txn true)⟩
  | .publish =>
    (n.sys.eng.phase.commit?).bind fun cm => (n.sys.step .publish).map fun sys' =>
        ⟨sys', n.clients.map (Client.flushed cm.txn false)⟩

/-- `k` steps of one session, without faults. -/
def steps (k j : Nat) : List Act := List.replicate k (.advance j fun _ => false)

/-! ## What a step can do -/

/-- A read, or a number for an evaluation: the program goes on with the answer. -/
inductive Turn (e : Engine Val) (T : Txn Val) : Stm Result → Nat → Stm Result → Nat → Prop
  | get {k : Bytes} {next : Option Val → Stm Result} {i : Nat} :
      Turn e T (.get k next) i (next (found (e.get T k))) i
  | scan {r : Bytes} {next : List (Bytes × Val) → Stm Result} {i : Nat} :
      Turn e T (.scan r next) i (next (e.iterate T r)) i
  | readTs {next : Nat → Stm Result} {i : Nat} : Turn e T (.readTs next) i (next T.readUint) i
  | fresh {next : Nat → Stm Result} {i : Nat} : Turn e T (.fresh next) i (next i) (i + 1)

/-- Everything a session can do in a step of its own: the engine and the session after it. -/
inductive Move (sys : Sys Val) (c : Client) : Sys Val → Client → Prop
  | begun {p : Stm Result} {rest : List (Stm Result)} {i : Nat} (hst : c.stage = .idle)
      (htodo : c.todo = p :: rest) :
      Move sys c
        { eng := { sys.eng with txns := sys.eng.txns ++ [⟨sys.eng.clock, [], false⟩] }
          hist := sys.hist
          seen := sys.seen ++ [sys.hist.length] }
        { c with stage := .running sys.eng.txns.length i p i }
  | turned {t start i i' : Nat} {T : Txn Val} {p p' : Stm Result}
      (hst : c.stage = .running t start p i) (hT : sys.eng.txns[t]? = some T)
      (hturn : Turn sys.eng T p i p' i') :
      Move sys c sys { c with stage := .running t start p' i' }
  | buffered {t start i : Nat} {T : Txn Val} {m : Mut Val} {next : Stm Result}
      (hst : c.stage = .running t start (.put m next) i) (hT : sys.eng.txns[t]? = some T) :
      Move sys c { sys with eng := sys.eng.setTxn t { T with mutations := T.mutations ++ [m] } }
        { c with stage := .running t start next i }
  | threw {t start i : Nat} {p : Stm Result} {e : ExecError} (hst : c.stage = .running t start p i) :
      Move sys c sys { c with stage := .aborting t e }
  | returned {t start i : Nat} {T : Txn Val} {res : Result}
      (hst : c.stage = .running t start (.pure res) i) (hT : sys.eng.txns[t]? = some T)
      (hempty : T.mutations = []) :
      Move sys c { sys with eng := sys.eng.setTxn t { T with done := true } } (c.finish (.ok res))
  | conflicted {t start i : Nat} {T : Txn Val} {p : Stm Result}
      (hst : c.stage = .running t start p i) (hT : sys.eng.txns[t]? = some T) :
      Move sys c { sys with eng := sys.eng.setTxn t { T with done := true } } c.conflicted
  | reserved {t start i : Nat} {T : Txn Val} {res : Result} {fault : Bytes → Bool}
      (hst : c.stage = .running t start (.pure res) i) (hT : sys.eng.txns[t]? = some T)
      (hidle : sys.eng.phase = .idle) (hne : T.mutations ≠ [])
      (hcheck : checkConflicts sys.eng.store T.readUint fault T.mutations = .pass) :
      Move sys c
        { sys with eng := { sys.eng.setTxn t { T with done := true } with
            phase := .flushing ⟨t, T.readUint, sys.eng.clock + 1, T.mutations⟩ } }
        { c with stage := .committing t start res }
  | rolledBack {t : Nat} {T T' : Txn Val} {e : ExecError} (hst : c.stage = .aborting t e)
      (hT : sys.eng.txns[t]? = some T) (hread : T'.readUint = T.readUint) :
      Move sys c { sys with eng := sys.eng.setTxn t T' } (c.finish (.error e))

variable {sys sys' : Sys Val} {c c' : Client} {t : Nat} {T : Txn Val} {n n' : Net} {a : Act} {e : Engine Val}

theorem stepRunning_move {fault : Bytes → Bool}
    {start i : Nat} {p : Stm Result} (hst : c.stage = .running t start p i) (hT : sys.eng.txns[t]? = some T)
    (h : stepRunning sys c fault t start T p i = some (sys', c')) : Move sys c sys' c' := by
  cases p with
  | pure res =>
    obtain ⟨r, hr, hmap⟩ := bind_eq_some_iff.mp h
    obtain ⟨sys1, hsys, heq⟩ := map_eq_some_iff.mp hmap
    obtain ⟨rfl, rfl⟩ := Prod.mk.inj heq
    have hsys1 : sys1 = { sys with eng := r.1 } := by
      rw [Sys.step, hr] at hsys
      exact (some.inj hsys).symm
    subst hsys1
    simp only [Engine.step] at hr
    split at hr
    · cases hr
    · rw [hT] at hr
      simp only [bind_some, Engine.startCommit] at hr
      split at hr
      · cases hr
        exact .threw hst
      · split at hr
        · rename_i hempty
          cases hr
          exact .returned hst hT (List.isEmpty_iff.mp hempty)
        · rename_i hne
          split at hr
          · rename_i hidle
            split at hr
            · cases hr
              exact .threw hst
            · cases hr
              exact .conflicted hst hT
            · rename_i hcheck
              cases hr
              exact .reserved hst hT hidle (by simpa using hne) hcheck
          · cases hr
  | throw e =>
    cases h
    exact .threw hst
  | get k next =>
    cases h
    exact .turned hst hT .get
  | scan r next =>
    cases h
    exact .turned hst hT .scan
  | put m next =>
    obtain ⟨sys1, hsys, heq⟩ := map_eq_some_iff.mp h
    cases heq
    obtain ⟨r, hr, rfl⟩ := map_eq_some_iff.mp hsys
    simp only [Engine.step] at hr
    split at hr
    · cases hr
    · rw [hT] at hr
      cases hr
      exact .buffered hst hT
  | readTs next =>
    cases h
    exact .turned hst hT .readTs
  | fresh next =>
    cases h
    exact .turned hst hT .fresh

theorem stepClient_move {fault : Bytes → Bool}
    (h : stepClient sys c fault = some (sys', c')) : Move sys c sys' c' := by
  unfold stepClient at h
  split at h
  · rename_i hst
    obtain ⟨T, hT, hrun⟩ := bind_eq_some_iff.mp h
    exact stepRunning_move hst hT hrun
  · rename_i t e hst
    obtain ⟨sys1, hsys, heq⟩ := map_eq_some_iff.mp h
    cases heq
    obtain ⟨r, hr, rfl⟩ := map_eq_some_iff.mp hsys
    simp only [Engine.step] at hr
    split at hr
    · cases hr
    · obtain ⟨T, hT, rfl⟩ := map_eq_some_iff.mp hr
      cases hdone : T.done with
      | true =>
        have hself : sys.eng.setTxn t T = sys.eng := by
          unfold Engine.setTxn
          obtain ⟨hlt, hget⟩ := List.getElem?_eq_some_iff.mp hT
          rw [← hget, set_getElem_self]
        have hmove : Move sys c { sys with eng := sys.eng.setTxn t T } (c.finish (.error e)) := .rolledBack hst hT rfl
        rw [hself] at hmove
        exact hmove
      | false => exact .rolledBack hst hT rfl
  · cases h

theorem conflicted_stage (c : Client) : c.conflicted.stage = .idle := by
  unfold Client.conflicted
  split
  · rfl
  · rfl

/-- A session's step leaves the store, the clock and the history alone; it may reserve a
timestamp for its transaction. -/
theorem Move.engine (h : Move sys c sys' c') :
    sys'.eng.store = sys.eng.store ∧ sys'.eng.clock = sys.eng.clock ∧ sys'.hist = sys.hist ∧
    ((sys'.eng.phase = sys.eng.phase ∧ ∀ t start res, c'.stage ≠ .committing t start res) ∨
      ∃ t start i T res fault, c.stage = .running t start (.pure res) i ∧ sys.eng.txns[t]? = some T ∧
        T.mutations ≠ [] ∧ checkConflicts sys.eng.store T.readUint fault T.mutations = .pass ∧
        sys'.eng.phase = .flushing ⟨t, T.readUint, sys.eng.clock + 1, T.mutations⟩ ∧
        c' = { c with stage := .committing t start res }) := by
  cases h with
  | begun hst htodo | turned hst hT hturn | buffered hst hT | threw hst => exact ⟨rfl, rfl, rfl, .inl ⟨rfl, by simp⟩⟩
  | returned hst hT hempty | rolledBack hst hT hread => exact ⟨rfl, rfl, rfl, .inl ⟨rfl, by simp [Client.finish]⟩⟩
  | conflicted hst hT => exact ⟨rfl, rfl, rfl, .inl ⟨rfl, by simp [conflicted_stage]⟩⟩
  | reserved hst hT hidle hne hcheck =>
    exact ⟨rfl, rfl, rfl, .inr ⟨_, _, _, _, _, _, hst, hT, hne, hcheck, rfl, rfl⟩⟩

/-- A session's step goes on with its statement, ends it with an error, or ends a statement
that wrote nothing. -/
theorem Move.replies (h : Move sys c sys' c') : (c'.todo = c.todo ∧ c'.replies = c.replies) ∨
    (∃ e, c' = c.finish (.error e)) ∨
    ∃ t start i T res, c.stage = .running t start (.pure res) i ∧ sys.eng.txns[t]? = some T ∧
      T.mutations = [] ∧ c' = c.finish (.ok res) := by
  cases h with
  | begun hst htodo | turned hst hT hturn | buffered hst hT | threw hst | reserved hst hT hidle hne hcheck =>
    exact .inl ⟨rfl, rfl⟩
  | returned hst hT hempty => exact .inr (.inr ⟨_, _, _, _, _, hst, hT, hempty, rfl⟩)
  | conflicted hst hT =>
    unfold Client.conflicted
    split
    · exact .inl ⟨rfl, rfl⟩
    · exact .inr (.inl ⟨_, rfl⟩)
  | rolledBack hst hT hread => exact .inr (.inl ⟨_, rfl⟩)

theorem Move.todo (h : Move sys c sys' c') (hidle : c.stage = .idle) : c.todo ≠ [] := by
  cases h with
  | begun hst htodo => simp [htodo]
  | turned hst hT hturn | buffered hst hT | threw hst | returned hst hT hempty | conflicted hst hT
  | reserved hst hT hphase hne hcheck | rolledBack hst hT hread => cases hidle.symm.trans hst

/-- Everything a step can do: a session moves, or the commit in progress does. -/
inductive NetMove (n : Net) : Act → Net → Prop
  | client {a : Act} {j : Nat} {c c' : Client} {sys' : Sys Val} (hc : n.clients[j]? = some c)
      (hmove : Move n.sys c sys' c') (hact : c.stage = .idle ∨ ∃ fault, a = .advance j fault) :
      NetMove n a ⟨sys', n.clients.set j c'⟩
  | flushed {cm : Commit Val} (hphase : n.sys.eng.phase = .flushing cm) :
      NetMove n .flush { n with sys := { n.sys with eng := { n.sys.eng with
        store := n.sys.eng.store.writeBatch cm.commitTS cm.batch, phase := .publishing cm } } }
  | failed {cm : Commit Val} {persisted : List Bool} (hphase : n.sys.eng.phase = .flushing cm) :
      NetMove n (.flushFail persisted)
        ⟨{ n.sys with eng := { n.sys.eng with
            store := n.sys.eng.store.writeBatch cm.commitTS (masked persisted cm.batch), phase := .idle } },
          n.clients.map (Client.flushed cm.txn true)⟩
  | published {cm : Commit Val} (hphase : n.sys.eng.phase = .publishing cm) :
      NetMove n .publish
        ⟨{ n.sys with eng := { n.sys.eng with clock := cm.commitTS, phase := .idle }
                      hist := n.sys.hist ++ [cm] },
          n.clients.map (Client.flushed cm.txn false)⟩

theorem step_move (h : n.step a = some n') : NetMove n a n' := by
  cases a with
  | start j i =>
    obtain ⟨c, hc, h⟩ := bind_eq_some_iff.mp h
    split at h
    · rename_i hst htodo
      cases h
      exact .client hc (.begun hst htodo) (.inl hst)
    · cases h
  | advance j fault =>
    obtain ⟨c, hc, h⟩ := bind_eq_some_iff.mp h
    obtain ⟨sc, hsc, rfl⟩ := map_eq_some_iff.mp h
    exact .client hc (stepClient_move hsc) (.inr ⟨fault, rfl⟩)
  | flush =>
    obtain ⟨sys1, hsys, rfl⟩ := map_eq_some_iff.mp h
    obtain ⟨r, hr, rfl⟩ := map_eq_some_iff.mp hsys
    simp only [Engine.step] at hr
    split at hr
    · rename_i cm hphase
      cases hr
      exact .flushed hphase
    · cases hr
  | flushFail persisted =>
    obtain ⟨cm, hcm, h⟩ := bind_eq_some_iff.mp h
    obtain ⟨sys1, hsys, rfl⟩ := map_eq_some_iff.mp h
    obtain ⟨r, hr, rfl⟩ := map_eq_some_iff.mp hsys
    simp only [Engine.step] at hr
    split at hr
    · rename_i cm' hphase
      rw [hphase] at hcm
      cases hcm
      cases hr
      exact .failed hphase
    · cases hr
  | publish =>
    obtain ⟨cm, hcm, h⟩ := bind_eq_some_iff.mp h
    obtain ⟨sys1, hsys, rfl⟩ := map_eq_some_iff.mp h
    obtain ⟨r, hr, rfl⟩ := map_eq_some_iff.mp hsys
    simp only [Engine.step] at hr
    split at hr
    · rename_i cm' hphase
      rw [hphase] at hcm
      cases hcm
      cases hr
      simp only [Sys.record, Sys.sees, hphase]
      exact .published hphase
    · cases hr

theorem step_sys (h : n.step a = some n') :
    n'.sys = n.sys ∨ ∃ call, n.sys.step call = some n'.sys ∧ (call = .flush → a = .flush) := by
  cases a with
  | start j i =>
    obtain ⟨c, hc, h⟩ := bind_eq_some_iff.mp h
    split at h
    · obtain ⟨sys1, hsys, rfl⟩ := map_eq_some_iff.mp h
      exact .inr ⟨_, hsys, by simp⟩
    · cases h
  | advance j fault =>
    obtain ⟨c, hc, h⟩ := bind_eq_some_iff.mp h
    obtain ⟨sc, hsc, rfl⟩ := map_eq_some_iff.mp h
    unfold stepClient at hsc
    split at hsc
    · obtain ⟨T, hT, hrun⟩ := bind_eq_some_iff.mp hsc
      unfold stepRunning at hrun
      split at hrun
      · obtain ⟨r, hr, hmap⟩ := bind_eq_some_iff.mp hrun
        obtain ⟨sys1, hsys, rfl⟩ := map_eq_some_iff.mp hmap
        exact .inr ⟨_, hsys, by simp⟩
      case h_5 =>
        obtain ⟨sys1, hsys, rfl⟩ := map_eq_some_iff.mp hrun
        exact .inr ⟨_, hsys, by simp⟩
      all_goals
        cases hrun
        exact .inl rfl
    · obtain ⟨sys1, hsys, rfl⟩ := map_eq_some_iff.mp hsc
      exact .inr ⟨_, hsys, by simp⟩
    · cases hsc
  | flush =>
    obtain ⟨sys1, hsys, rfl⟩ := map_eq_some_iff.mp h
    exact .inr ⟨_, hsys, by simp⟩
  | flushFail persisted | publish =>
    obtain ⟨cm, hcm, h⟩ := bind_eq_some_iff.mp h
    obtain ⟨sys1, hsys, rfl⟩ := map_eq_some_iff.mp h
    exact .inr ⟨_, hsys, by simp⟩

theorem clocked_net {clock₀ : Nat} (hclk : Clocked clock₀ n.sys)
    (h : n.step a = some n') : Clocked clock₀ n'.sys := by
  rcases step_sys h with hsame | ⟨call, hcall, -⟩
  · rw [hsame]
    exact hclk
  · exact clocked_step hclk hcall

/-! ## What the sessions hold -/

/-- The snapshot of a transaction. -/
def snapOf (e : Engine Val) (T : Txn Val) : Snap Bytes Val := ⟨e.store.view T.readUint, T.readUint⟩

def Stage.txn? (s : Stage) : Option Nat :=
  match s with
  | .idle => none
  | .running t _ _ _ => some t
  | .aborting t _ => some t
  | .committing t _ _ => some t

/-- A session's transaction holds what its statement does on its snapshot: a running program
is the rest of the statement, and a commit in progress writes the statement's mutations. -/
def Client.Holds (e : Engine Val) (c : Client) : Prop :=
  match c.stage with
  | .idle => True
  | .aborting _ _ => True
  | .running t start p i => ∃ T stmt rest, e.txns[t]? = some T ∧ T.done = false ∧
      T.readUint ≤ e.clock ∧ c.todo = stmt :: rest ∧
      p.exec underPrefix (snapOf e T) T.mutations i = stmt.exec underPrefix (snapOf e T) [] start
  | .committing t start res => ∃ cm stmt rest, e.phase.commit? = some cm ∧ cm.txn = t ∧
      cm.readUint ≤ e.clock ∧ cm.batch ≠ [] ∧ c.todo = stmt :: rest ∧
      stmt.exec underPrefix ⟨e.store.view cm.readUint, cm.readUint⟩ [] start = .ok (res, cm.batch)

structure Tracks (n : Net) : Prop where
  holds : ∀ c ∈ n.clients, c.Holds n.sys.eng
  bounded : ∀ (j : Nat) c t, n.clients[j]? = some c → c.stage.txn? = some t → t < n.sys.eng.txns.length
  distinct : ∀ (j j' : Nat) c c' t, n.clients[j]? = some c → n.clients[j']? = some c' →
    c.stage.txn? = some t → c'.stage.txn? = some t → j = j'
  owner : ∀ cm, n.sys.eng.phase.commit? = some cm →
    ∃ (j : Nat) (c : Client) (start : Nat) (res : Result), n.clients[j]? = some c ∧
      c.stage = .committing cm.txn start res

theorem turn_exec {p p' : Stm Result} {i i' : Nat} (h : Turn e T p i p' i') (hdone : T.done = false) :
    p'.exec underPrefix (snapOf e T) T.mutations i' = p.exec underPrefix (snapOf e T) T.mutations i := by
  cases h with
  | @get k next i =>
    have hfound : found (e.get T k) = ((snapOf e T).seen T.mutations).lookup k := by
      rw [get_eq_answer e T hdone k]
      unfold answer found
      show _ = (overlay (e.store.view T.readUint) T.mutations).lookup k
      cases (overlay (e.store.view T.readUint) T.mutations).lookup k with
      | none | some v => rfl
    rw [hfound]
    rfl
  | @scan r next i =>
    have hscan : e.iterate T r = ((snapOf e T).seen T.mutations).scan (underPrefix r) := iterate_eq_scan e T r
    rw [hscan]
    rfl
  | readTs | fresh => rfl

/-- A client keeps what it holds when the engine changes neither its transaction, nor the
commit in progress, nor the versions up to the clock. -/
theorem Client.Holds.frame {e' : Engine Val} (h : c.Holds e)
    (htxn : ∀ t, c.stage.txn? = some t → e'.txns[t]? = e.txns[t]?) (hclock : e.clock ≤ e'.clock)
    (hphase : ∀ cm, e.phase.commit? = some cm → c.stage.txn? = some cm.txn → e'.phase.commit? = some cm)
    (hview : ∀ r, r ≤ e.clock → e'.store.view r = e.store.view r) : c.Holds e' := by
  unfold Client.Holds at h ⊢
  split at h
  · trivial
  · trivial
  · rename_i t start p i hst
    obtain ⟨T, stmt, rest, hT, hdone, hle, htodo, hexec⟩ := h
    have hT' : e'.txns[t]? = some T := by
      rw [htxn t (by rw [hst]; rfl), hT]
    have hsnap : snapOf e' T = snapOf e T := by
      unfold snapOf
      rw [hview _ hle]
    refine ⟨T, stmt, rest, hT', hdone, Nat.le_trans hle hclock, htodo, ?_⟩
    rw [hsnap]
    exact hexec
  · rename_i t start res hst
    obtain ⟨cm, stmt, rest, hcm, htxn', hle, hne, htodo, hexec⟩ := h
    refine ⟨cm, stmt, rest, hphase cm hcm (by rw [hst, htxn']; rfl), htxn', Nat.le_trans hle hclock, hne, htodo, ?_⟩
    rw [hview _ hle]
    exact hexec

/-- What a session's own step leaves alone, and what the session holds after it. -/
structure LocalEffect (e e' : Engine Val) (c c' : Client) : Prop where
  views : ∀ r, r ≤ e.clock → e'.store.view r = e.store.view r
  clock : e.clock ≤ e'.clock
  holds : c'.Holds e'
  txns : ∀ t, t < e.txns.length → c.stage.txn? ≠ some t → e'.txns[t]? = e.txns[t]?
  grows : e.txns.length ≤ e'.txns.length
  stage : c'.stage.txn? = none ∨ c'.stage.txn? = c.stage.txn? ∨
    (c'.stage.txn? = some e.txns.length ∧ e.txns.length < e'.txns.length)
  keeps : ∀ cm, e.phase.commit? = some cm → c.stage.txn? ≠ some cm.txn → e'.phase.commit? = some cm
  owner : ∀ cm, e'.phase.commit? = some cm →
    (e.phase.commit? = some cm ∧ ∀ start res, c.stage ≠ .committing cm.txn start res) ∨
    ∃ start res, c'.stage = .committing cm.txn start res

theorem holds_of_idle (h : c.stage = .idle) : c.Holds e := by
  unfold Client.Holds
  rw [h]
  trivial

theorem setTxn_ne {t' : Nat} (h : some t ≠ some t') : (e.setTxn t T).txns[t']? = e.txns[t']? :=
  getElem?_set_ne fun heq => h (congrArg some heq)

theorem LocalEffect.of_setTxn (hst : c.stage.txn? = some t) (hnot : ∀ t start res, c.stage ≠ .committing t start res)
    (hidle : c'.stage = .idle) : LocalEffect e (e.setTxn t T) c c' where
  views := fun _ _ => rfl
  clock := le_rfl
  holds := holds_of_idle hidle
  txns := fun t' _ hne => setTxn_ne (by rw [← hst]; exact hne)
  grows := by simp [Engine.setTxn]
  stage := .inl (by rw [hidle]; rfl)
  keeps := fun _ hcm _ => hcm
  owner := fun _ hcm => .inl ⟨hcm, fun _ _ => hnot _ _ _⟩

theorem Move.effect (h : Move sys c sys' c') (hh : c.Holds sys.eng) : LocalEffect sys.eng sys'.eng c c' := by
  unfold Client.Holds at hh
  cases h with
  | @begun p rest i hst htodo =>
    refine ⟨fun _ _ => rfl, le_rfl, ?_, ?_, by simp, .inr (.inr ⟨rfl, by simp⟩),
      fun _ hcm _ => hcm, fun _ hcm => .inl ⟨hcm, by simp [hst]⟩⟩
    · exact ⟨⟨sys.eng.clock, [], false⟩, p, rest, by simp, rfl, le_rfl, htodo, rfl⟩
    · intro t ht _
      exact getElem?_append_left ht
  | @turned t start i i' T p p' hst hT hturn =>
    rw [hst] at hh
    obtain ⟨T1, stmt, rest, hT1, hdone, hle, htodo, hexec⟩ := hh
    cases hT.symm.trans hT1
    refine ⟨fun _ _ => rfl, le_rfl, ?_, fun _ _ _ => rfl, le_rfl,
      .inr (.inl (by rw [hst]; rfl)), fun _ hcm _ => hcm, fun _ hcm => .inl ⟨hcm, by simp [hst]⟩⟩
    exact ⟨T, stmt, rest, hT, hdone, hle, htodo, (turn_exec hturn hdone).trans hexec⟩
  | @buffered t start i T m next hst hT =>
    rw [hst] at hh
    obtain ⟨T1, stmt, rest, hT1, hdone, hle, htodo, hexec⟩ := hh
    cases hT.symm.trans hT1
    have hlt := (List.getElem?_eq_some_iff.mp hT).1
    refine ⟨fun _ _ => rfl, le_rfl, ?_, ?_, by simp [Engine.setTxn],
      .inr (.inl (by rw [hst]; rfl)), fun _ hcm _ => hcm, fun _ hcm => .inl ⟨hcm, by simp [hst]⟩⟩
    · refine ⟨{ T with mutations := T.mutations ++ [m] }, stmt, rest, ?_, hdone, hle, htodo, hexec⟩
      exact getElem?_set_self hlt
    · intro t' _ hne
      exact setTxn_ne (by rw [hst] at hne; exact hne)
  | @threw t start i p e hst =>
    exact ⟨fun _ _ => rfl, le_rfl, trivial, fun _ _ _ => rfl, le_rfl,
      .inr (.inl (by rw [hst]; rfl)), fun _ hcm _ => hcm, fun _ hcm => .inl ⟨hcm, by simp [hst]⟩⟩
  | returned hst hT hempty | rolledBack hst hT hread =>
    exact .of_setTxn (by rw [hst]; rfl) (by simp [hst]) rfl
  | conflicted hst hT =>
    exact .of_setTxn (by rw [hst]; rfl) (by simp [hst]) (conflicted_stage c)
  | @reserved t start i T res fault hst hT hidle hne hcheck =>
    rw [hst] at hh
    obtain ⟨T1, stmt, rest, hT1, hdone, hle, htodo, hexec⟩ := hh
    cases hT.symm.trans hT1
    refine ⟨fun _ _ => rfl, le_rfl, ?_, ?_, by simp [Engine.setTxn], .inr (.inl (by rw [hst]; rfl)), ?_, ?_⟩
    · exact ⟨_, stmt, rest, rfl, rfl, hle, hne, htodo, hexec.symm⟩
    · intro t' _ hne'
      exact setTxn_ne (by rw [hst] at hne'; exact hne')
    · intro cm hcm _
      rw [hidle] at hcm
      cases hcm
    · intro cm hcm
      cases hcm
      exact .inr ⟨start, res, rfl⟩

theorem tracks_client (h : Tracks n) {j : Nat}
    (hc : n.clients[j]? = some c) (he : LocalEffect n.sys.eng sys'.eng c c') : Tracks ⟨sys', n.clients.set j c'⟩ := by
  have hj := (List.getElem?_eq_some_iff.mp hc).1
  -- the clients after the step: the one that moved, and the others
  have hget : ∀ (k : Nat) d, (n.clients.set j c')[k]? = some d →
      (k = j ∧ d = c') ∨ (k ≠ j ∧ n.clients[k]? = some d) := by
    intro k d hd
    by_cases hk : j = k
    · subst hk
      rw [getElem?_set_self hj] at hd
      exact .inl ⟨rfl, (some.inj hd).symm⟩
    · rw [getElem?_set_ne hk] at hd
      exact .inr ⟨fun heq => hk heq.symm, hd⟩
  -- another client's transaction is not the moved client's, before or after
  have hother : ∀ (k : Nat) d t, k ≠ j → n.clients[k]? = some d → d.stage.txn? = some t →
      c.stage.txn? ≠ some t ∧ c'.stage.txn? ≠ some t := by
    intro k d t hk hd ht
    have h1 : c.stage.txn? ≠ some t := fun hct => hk (h.distinct k j d c t hd hc ht hct)
    refine ⟨h1, ?_⟩
    rcases he.stage with hnone | hsame | ⟨hnew, -⟩
    · simp [hnone]
    · rw [hsame]
      exact h1
    · intro heq
      have hlt := h.bounded k d t hd ht
      rw [hnew] at heq
      cases heq
      exact Nat.lt_irrefl _ hlt
  refine ⟨?_, ?_, ?_, ?_⟩
  · intro d hd
    obtain ⟨k, hk⟩ := mem_iff_getElem?.mp hd
    rcases hget k d hk with ⟨-, rfl⟩ | ⟨hne, hk⟩
    · exact he.holds
    · refine (h.holds d (mem_of_getElem? hk)).frame ?_ he.clock ?_ he.views
      · intro t ht
        exact he.txns t (h.bounded k d t hk ht) (hother k d t hne hk ht).1
      · intro cm hcm ht
        exact he.keeps cm hcm (hother k d _ hne hk ht).1
  · intro k d t hk ht
    rcases hget k d hk with ⟨-, rfl⟩ | ⟨-, hk⟩
    · rcases he.stage with hnone | hsame | ⟨hnew, hlt⟩
      · rw [hnone] at ht
        cases ht
      · rw [hsame] at ht
        exact Nat.lt_of_lt_of_le (h.bounded j c t hc ht) he.grows
      · rw [hnew] at ht
        cases ht
        exact hlt
    · exact Nat.lt_of_lt_of_le (h.bounded k d t hk ht) he.grows
  · intro k k' d d' t hk hk' ht ht'
    rcases hget k d hk with ⟨rfl, rfl⟩ | ⟨hne, hd⟩
    · rcases hget k' d' hk' with ⟨rfl, rfl⟩ | ⟨hne', hd'⟩
      · rfl
      · exact absurd ht (hother k' d' t hne' hd' ht').2
    · rcases hget k' d' hk' with ⟨rfl, rfl⟩ | ⟨hne', hd'⟩
      · exact absurd ht' (hother k d t hne hd ht).2
      · exact h.distinct k k' d d' t hd hd' ht ht'
  · intro cm hcm
    rcases he.owner cm hcm with ⟨hold, hnot⟩ | ⟨start, res, hst⟩
    · obtain ⟨k, d, start, res, hk, hst⟩ := h.owner cm hold
      have hne : j ≠ k := by
        intro heq
        subst heq
        cases hc.symm.trans hk
        exact hnot start res hst
      exact ⟨k, d, start, res, (getElem?_set_ne hne).trans hk, hst⟩
    · exact ⟨j, c', start, res, getElem?_set_self hj, hst⟩

/-- The commit in progress belongs to one session, whose statement it is; when it ends, that
session and no other returns. -/
theorem Tracks.committer (h : Tracks n) {cm : Commit Val} (hcm : n.sys.eng.phase.commit? = some cm) :
    ∃ (j : Nat) (c : Client) (start : Nat) (res : Result) (stmt : Stm Result)
      (rest : List (Stm Result)), n.clients[j]? = some c ∧ c.stage = .committing cm.txn start res ∧
      c.todo = stmt :: rest ∧ cm.readUint ≤ n.sys.eng.clock ∧ cm.batch ≠ [] ∧
      stmt.exec underPrefix ⟨n.sys.eng.store.view cm.readUint, cm.readUint⟩ [] start = .ok (res, cm.batch) ∧
      ∀ failed, n.clients.map (Client.flushed cm.txn failed) =
        n.clients.set j (c.finish (if failed then .error storeFailure else .ok res)) := by
  obtain ⟨j, c, start, res, hc, hst⟩ := h.owner cm hcm
  have hholds := h.holds c (mem_of_getElem? hc)
  unfold Client.Holds at hholds
  rw [hst] at hholds
  obtain ⟨cm', stmt, rest, hcm', -, hle, hne, htodo, hexec⟩ := hholds
  cases hcm.symm.trans hcm'
  refine ⟨j, c, start, res, stmt, rest, hc, hst, htodo, hle, hne, hexec, ?_⟩
  intro failed
  apply ext_getElem?
  intro k
  rw [getElem?_map]
  by_cases hk : j = k
  · subst hk
    rw [getElem?_set_self (List.getElem?_eq_some_iff.mp hc).1, hc]
    simp only [map_some, Client.flushed, hst, if_pos]
  · rw [getElem?_set_ne hk]
    cases hd : n.clients[k]? with
    | none => rfl
    | some d =>
      have hfix : Client.flushed cm.txn failed d = d := by
        unfold Client.flushed
        split
        · rename_i t' start' res' hst'
          rw [if_neg]
          intro heq
          subst heq
          exact hk (h.distinct j k c d cm.txn hc hd (by rw [hst]; rfl) (by rw [hst']; rfl))
        · rfl
      rw [map_some, hfix]

theorem tracks_step {clock₀ : Nat} (hclk : Clocked clock₀ n.sys)
    (h : Tracks n) (hstep : n.step a = some n') : Tracks n' := by
  -- a write at the reserved timestamp does not change what is visible at the clock
  have hviews : ∀ cm ms, n.sys.eng.phase.commit? = some cm → ∀ r, r ≤ n.sys.eng.clock →
      (n.sys.eng.store.writeBatch cm.commitTS ms).view r = n.sys.eng.store.view r := by
    intro cm ms hcm r hr
    have hts := hclk.reserved cm hcm
    exact Versions.view_writeBatch_lt _ _ (by omega)
  cases step_move hstep with
  | client hc hmove _ => exact tracks_client h hc (hmove.effect (h.holds _ (mem_of_getElem? hc)))
  | @flushed cm hphase =>
    have hcm : n.sys.eng.phase.commit? = some cm := by rw [hphase]; rfl
    refine ⟨?_, h.bounded, h.distinct, ?_⟩
    · intro c hc
      refine (h.holds c hc).frame (fun _ _ => rfl) le_rfl ?_ (hviews cm cm.batch hcm)
      intro cm' hcm' _
      rw [← hcm', hcm]
      rfl
    · intro cm' hcm'
      exact h.owner cm' (by rw [hcm]; exact hcm')
  | @failed cm persisted hphase =>
    have hcm : n.sys.eng.phase.commit? = some cm := by rw [hphase]; rfl
    obtain ⟨j, c, start, res, stmt, rest, hc, hst, -, -, -, -, hmap⟩ := h.committer hcm
    rw [hmap true]
    refine tracks_client h hc ⟨hviews cm _ hcm, le_rfl, holds_of_idle rfl, fun _ _ _ => rfl,
      le_rfl, .inl rfl, ?_, by simp [Phase.commit?]⟩
    intro cm' hcm' hne
    cases hcm.symm.trans hcm'
    exact absurd (by rw [hst]; rfl) hne
  | @published cm hphase =>
    have hcm : n.sys.eng.phase.commit? = some cm := by rw [hphase]; rfl
    have hts := hclk.reserved cm hcm
    obtain ⟨j, c, start, res, stmt, rest, hc, hst, -, -, -, -, hmap⟩ := h.committer hcm
    rw [hmap false]
    refine tracks_client h hc ⟨fun _ _ => rfl, by dsimp only; omega, holds_of_idle rfl,
      fun _ _ _ => rfl, le_rfl, .inl rfl, ?_, by simp [Phase.commit?]⟩
    intro cm' hcm' hne
    cases hcm.symm.trans hcm'
    exact absurd (by rw [hst]; rfl) hne

theorem tracks_new (store : Store Val) (stmts : List (List (Stm Result))) : Tracks (Net.new store stmts) := by
  have hidle : ∀ c ∈ (Net.new store stmts).clients, c.stage = .idle := by
    intro c hc
    obtain ⟨ss, -, rfl⟩ := List.mem_map.mp hc
    rfl
  refine ⟨fun c hc => holds_of_idle (hidle c hc), ?_, ?_, ?_⟩
  · intro j c t hc ht
    rw [hidle c (mem_of_getElem? hc)] at ht
    cases ht
  · intro j j' c c' t hc _ ht _
    rw [hidle c (mem_of_getElem? hc)] at ht
    cases ht
  · intro cm hcm
    cases hcm

end BasuyuDb.Executor
