import BasuyuDb.Lib.Runs
import BasuyuDb.Transactions.MergeIter

/-
  engine/internal/transactions/engine.go: the single-node transaction engine (no
  ReplicatedCommitter; LocalCommitter.Propose is a no-op).
  A transaction is used by one caller at a time, transactions interleave freely. Commit is
  three steps, because other transactions run between them: the conflict check that
  reserves a timestamp, the flush, and the publication of the timestamp. `commitMu` is the
  `phase`: only an idle engine starts a checked commit.
-/

namespace BasuyuDb.Transactions
open KvLib Storage List

variable {V : Type}

structure Txn (V : Type) where
  readUint : Nat
  mutations : List (Mut V)
  done : Bool
deriving DecidableEq

/-- A Commit call that passed the conflict check: what it still has to write, and where. -/
structure Commit (V : Type) where
  txn : Nat
  readUint : Nat
  commitTS : Nat
  batch : List (Mut V)
deriving DecidableEq

inductive Phase (V : Type) where
  | idle
  | flushing (c : Commit V)
  | publishing (c : Commit V)
deriving DecidableEq

/-- Whether the transaction is inside its Commit call. -/
def Phase.ownedBy (p : Phase V) (t : Nat) : Bool :=
  match p with
  | .idle => false
  | .flushing c => c.txn == t
  | .publishing c => c.txn == t

/-- Transactions are numbered in the order of their Begin. -/
structure Engine (V : Type) where
  store : Store V
  clock : Nat
  txns : List (Txn V)
  phase : Phase V

/-- `New`: the clock resumes from the highest version in the store, and starts at 1. -/
def Engine.new (s : Store V) : Engine V := ⟨s, if s.maxVersion < 1 then 1 else s.maxVersion, [], .idle⟩

/-! ## Reads -/

inductive ReadErr where
  | txnDone
  | keyNotFound
deriving DecidableEq

/-- `Get`: own buffered writes newest first, then the snapshot. -/
def Engine.get (e : Engine V) (txn : Txn V) (k : Bytes) : Except ReadErr V :=
  if txn.done then .error .txnDone
  else
    match lastMutation txn.mutations k with
    | some m => if m.delete then .error .keyNotFound else .ok m.value
    | none =>
      match e.store.read k txn.readUint with
      | some v => .ok v
      | none => .error .keyNotFound

/-- A complete iteration of `NewIterator`. -/
def Engine.iterate (e : Engine V) (txn : Txn V) (pre : Bytes) : List (Bytes × V) :=
  scanAll (newIterator e.store txn.readUint pre) txn.mutations

/-! ## Calls -/

inductive Check where
  | pass
  | conflict
  | fault
deriving DecidableEq

/-- The loop of Commit over the mutations; `fault` says for which keys LatestVersion fails. -/
def checkConflicts (s : Store V) (readUint : Nat) (fault : Bytes → Bool) : List (Mut V) → Check
  | [] => .pass
  | m :: ms =>
    if fault m.key then .fault
    else
      match latestVersion s m.key with
      | some ts => if ts > readUint then .conflict else checkConflicts s readUint fault ms
      | none => checkConflicts s readUint fault ms

/-- The mutations of a batch that a failing flush persisted. -/
def masked : List Bool → List (Mut V) → List (Mut V)
  | b :: bs, m :: ms => if b then m :: masked bs ms else masked bs ms
  | _, _ => []

theorem masked_subset (bs : List Bool) (ms : List (Mut V)) : masked bs ms ⊆ ms := by
  induction bs generalizing ms with
  | nil => exact nil_subset _
  | cons b bs ih =>
    cases ms with
    | nil => exact nil_subset _
    | cons m ms =>
      unfold masked
      split
      · exact cons_subset_cons m (ih ms)
      · exact List.Subset.trans (ih ms) (subset_cons_self m ms)

inductive Call (V : Type) where
  | begin
  | buffer (t : Nat) (m : Mut V)
  | rollback (t : Nat)
  | commit (t : Nat) (fault : Bytes → Bool)
  | flush
  | flushFail (persisted : List Bool)
  | publish

inductive Reply where
  | begun (t : Nat)
  | ok
  | txnDone
  | writeConflict
  | storeErr
  | inProgress
deriving DecidableEq

def Engine.setTxn (e : Engine V) (t : Nat) (txn : Txn V) : Engine V := { e with txns := e.txns.set t txn }

/-- Commit up to the reservation of a timestamp. -/
def Engine.startCommit (e : Engine V) (t : Nat) (fault : Bytes → Bool) (txn : Txn V) :
    Option (Engine V × Reply) :=
  if txn.done then some (e, .txnDone)
  else if txn.mutations.isEmpty then some (e.setTxn t { txn with done := true }, .ok)
  else
    match e.phase with
    | .idle =>
      match checkConflicts e.store txn.readUint fault txn.mutations with
      | .fault => some (e, .storeErr)
      | .conflict => some (e.setTxn t { txn with done := true }, .writeConflict)
      | .pass =>
        some ({ e.setTxn t { txn with done := true } with
                phase := .flushing ⟨t, txn.readUint, e.clock + 1, txn.mutations⟩ }, .inProgress)
    | _ => none -- waits for commitMu

def Engine.step (e : Engine V) : Call V → Option (Engine V × Reply)
  | .begin => some ({ e with txns := e.txns ++ [⟨e.clock, [], false⟩] }, .begun e.txns.length)
  | .buffer t m =>
    if e.phase.ownedBy t then none
    else e.txns[t]?.map fun txn => (e.setTxn t { txn with mutations := txn.mutations ++ [m] }, .ok)
  | .rollback t =>
    if e.phase.ownedBy t then none
    else e.txns[t]?.map fun txn =>
      if txn.done then (e, .txnDone) else (e.setTxn t { txn with mutations := [], done := true }, .ok)
  | .commit t fault =>
    if e.phase.ownedBy t then none else e.txns[t]?.bind (e.startCommit t fault)
  | .flush =>
    match e.phase with
    | .flushing c =>
      some ({ e with store := e.store.writeBatch c.commitTS c.batch, phase := .publishing c }, .inProgress)
    | _ => none
  | .flushFail persisted =>
    match e.phase with
    | .flushing c =>
      some ({ e with store := e.store.writeBatch c.commitTS (masked persisted c.batch)
                     phase := .idle }, .storeErr)
    | _ => none
  | .publish =>
    match e.phase with
    | .publishing c => some ({ e with clock := c.commitTS, phase := .idle }, .ok)
    | _ => none

end BasuyuDb.Transactions
