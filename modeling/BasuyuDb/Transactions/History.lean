import BasuyuDb.Transactions.Engine

/-
  Runs of the engine with the history a client could write down: the commits that returned
  nil, in order, and for each transaction how many of them had finished at its Begin.
  `Outcome` says once what a step can do; the invariants of the next modules split on it.
-/

namespace BasuyuDb.Transactions
open KvLib Storage List Option

variable {V : Type}

/-- The engine with its history. `seen` has one entry per transaction. -/
structure Sys (V : Type) where
  eng : Engine V
  hist : List (Commit V)
  seen : List Nat

def Sys.new (s : Store V) : Sys V := ⟨Engine.new s, [], []⟩

/-- The commits recorded by a call: the one that `publish` finishes. -/
def Sys.record (s : Sys V) : Call V → List (Commit V)
  | .publish =>
    match s.eng.phase with
    | .publishing c => s.hist ++ [c]
    | _ => s.hist
  | _ => s.hist

def Sys.sees (s : Sys V) : Call V → List Nat
  | .begin => s.seen ++ [s.hist.length]
  | _ => s.seen

def Sys.step (s : Sys V) (c : Call V) : Option (Sys V) := (s.eng.step c).map fun r => ⟨r.1, s.record c, s.sees c⟩

/-- Everything a step can do. -/
inductive Outcome (s : Sys V) : Call V → Sys V → Prop
  | unchanged {c : Call V} : Outcome s c s
  | begun : Outcome s .begin
      { eng := { s.eng with txns := s.eng.txns ++ [⟨s.eng.clock, [], false⟩] }
        hist := s.hist
        seen := s.seen ++ [s.hist.length] }
  | txn {c : Call V} {t : Nat} {T T' : Txn V} (hT : s.eng.txns[t]? = some T)
      (hown : s.eng.phase.ownedBy t = false) (hread : T'.readUint = T.readUint) :
      Outcome s c { s with eng := s.eng.setTxn t T' }
  | reserved {t : Nat} {fault : Bytes → Bool} {T : Txn V} (hT : s.eng.txns[t]? = some T)
      (hidle : s.eng.phase = .idle) (hdone : T.done = false)
      (hcheck : checkConflicts s.eng.store T.readUint fault T.mutations = .pass) :
      Outcome s (.commit t fault)
        { s with eng := { s.eng.setTxn t { T with done := true } with
            phase := .flushing ⟨t, T.readUint, s.eng.clock + 1, T.mutations⟩ } }
  | flushed {c : Commit V} (hphase : s.eng.phase = .flushing c) :
      Outcome s .flush { s with eng := { s.eng with
        store := s.eng.store.writeBatch c.commitTS c.batch, phase := .publishing c } }
  | failed {c : Commit V} {persisted : List Bool} (hphase : s.eng.phase = .flushing c) :
      Outcome s (.flushFail persisted) { s with eng := { s.eng with
        store := s.eng.store.writeBatch c.commitTS (masked persisted c.batch), phase := .idle } }
  | published {c : Commit V} (hphase : s.eng.phase = .publishing c) :
      Outcome s .publish { s with
        eng := { s.eng with clock := c.commitTS, phase := .idle }, hist := s.hist ++ [c] }

variable {s s' : Sys V} {t clock₀ : Nat} {T T' : Txn V} {c : Call V}

theorem startCommit_outcome {fault : Bytes → Bool}
    {r : Engine V × Reply} (hown : s.eng.phase.ownedBy t = false) (hT : s.eng.txns[t]? = some T)
    (h : s.eng.startCommit t fault T = some r) :
    Outcome s (.commit t fault) { s with eng := r.1 } := by
  unfold Engine.startCommit at h
  split at h
  · cases h
    exact .unchanged
  · rename_i hdone
    split at h
    · cases h
      exact .txn hT hown rfl
    · split at h
      · rename_i hidle
        split at h
        · cases h
          exact .unchanged
        · cases h
          exact .txn hT hown rfl
        · rename_i hcheck
          cases h
          exact .reserved hT hidle (by simpa using hdone) hcheck
      · cases h

theorem step_outcome (h : s.step c = some s') : Outcome s c s' := by
  obtain ⟨r, hr, rfl⟩ := map_eq_some_iff.mp h
  cases c with
  | begin =>
    cases hr
    exact .begun
  | buffer t m =>
    simp only [Engine.step] at hr
    split at hr
    · cases hr
    · rename_i hown
      obtain ⟨T, hT, rfl⟩ := map_eq_some_iff.mp hr
      exact .txn hT (by simpa using hown) rfl
  | rollback t =>
    simp only [Engine.step] at hr
    split at hr
    · cases hr
    · rename_i hown
      obtain ⟨T, hT, rfl⟩ := map_eq_some_iff.mp hr
      cases T.done with
      | true => exact .unchanged
      | false => exact .txn hT (by simpa using hown) rfl
  | commit t fault =>
    simp only [Engine.step] at hr
    split at hr
    · cases hr
    · rename_i hown
      obtain ⟨T, hT, hr⟩ := bind_eq_some_iff.mp hr
      exact startCommit_outcome (by simpa using hown) hT hr
  | flush =>
    simp only [Engine.step] at hr
    split at hr
    · rename_i c hphase
      cases hr
      exact .flushed hphase
    · cases hr
  | flushFail persisted =>
    simp only [Engine.step] at hr
    split at hr
    · rename_i c hphase
      cases hr
      exact .failed hphase
    · cases hr
  | publish =>
    simp only [Engine.step] at hr
    split at hr
    · rename_i c hphase
      cases hr
      simp only [Sys.record, Sys.sees, hphase]
      exact .published hphase
    · cases hr

/-! ## The clock and the snapshots -/

/-- What a call buffers for a transaction. -/
def Call.buffers (t : Nat) : Call V → List (Mut V)
  | .buffer u m => if u = t then [m] else []
  | _ => []

/-- What becomes of a transaction in a step. -/
inductive TxnStep (t : Nat) (T : Txn V) : Call V → Txn V → Prop
  | same {c : Call V} (hc : c.buffers t = []) : TxnStep t T c T
  | buffered {m : Mut V} : TxnStep t T (.buffer t m) { T with mutations := T.mutations ++ [m] }
  | closed {c : Call V} {T' : Txn V} (hdone : T'.done = true) : TxnStep t T c T'

theorem TxnStep.done (h : TxnStep t T c T') (hdone : T.done = true) : T'.done = true := by
  cases h with
  | same hc | buffered => exact hdone
  | closed h => exact h

variable {txns : List (Txn V)} {ok : Sys V → Call V → Prop}

theorem txnStep_set {u : Nat} {U U' : Txn V} (hT : txns[t]? = some T)
    (hU : txns[u]? = some U) (h : TxnStep u U c U') (hc : u ≠ t → c.buffers t = []) :
    ∃ T', (txns.set u U')[t]? = some T' ∧ TxnStep t T c T' := by
  rw [getElem?_set]
  by_cases heq : u = t
  · subst heq
    cases hT.symm.trans hU
    rw [if_pos rfl, if_pos (List.getElem?_eq_some_iff.mp hT).1]
    exact ⟨U', rfl, h⟩
  · rw [if_neg heq]
    exact ⟨T, hT, .same (hc heq)⟩

theorem step_txn (h : s.step c = some s')
    (hT : s.eng.txns[t]? = some T) : ∃ T', s'.eng.txns[t]? = some T' ∧ TxnStep t T c T' := by
  obtain ⟨r, hr, rfl⟩ := map_eq_some_iff.mp h
  cases c with
  | begin =>
    cases hr
    exact ⟨T, by rw [getElem?_append_left (List.getElem?_eq_some_iff.mp hT).1]; exact hT, .same rfl⟩
  | buffer u m =>
    obtain ⟨-, hr⟩ := ite_none_left_eq_some.mp hr
    obtain ⟨U, hU, rfl⟩ := map_eq_some_iff.mp hr
    exact txnStep_set hT hU .buffered fun hne => if_neg hne
  | rollback u =>
    obtain ⟨-, hr⟩ := ite_none_left_eq_some.mp hr
    obtain ⟨U, hU, rfl⟩ := map_eq_some_iff.mp hr
    split
    · exact ⟨T, hT, .same rfl⟩
    · exact txnStep_set hT hU (.closed rfl) fun _ => rfl
  | commit u fault =>
    obtain ⟨-, hr⟩ := ite_none_left_eq_some.mp hr
    obtain ⟨U, hU, hr⟩ := bind_eq_some_iff.mp hr
    unfold Engine.startCommit at hr
    split at hr
    · cases hr
      exact ⟨T, hT, .same rfl⟩
    · split at hr
      · cases hr
        exact txnStep_set hT hU (.closed rfl) fun _ => rfl
      · split at hr
        · split at hr
          · cases hr
            exact ⟨T, hT, .same rfl⟩
          · cases hr
            exact txnStep_set hT hU (.closed rfl) fun _ => rfl
          · cases hr
            exact txnStep_set hT hU (.closed rfl) fun _ => rfl
        · cases hr
  | flush | flushFail persisted | publish =>
    simp only [Engine.step] at hr
    split at hr
    · cases hr
      exact ⟨T, hT, .same rfl⟩
    · cases hr

theorem step_txns_length (h : s.step c = some s') (hT' : s'.eng.txns[t]? = some T') :
    t < s.eng.txns.length ∨ (t = s.eng.txns.length ∧ T' = ⟨s.eng.clock, [], false⟩) := by
  have hlt := (List.getElem?_eq_some_iff.mp hT').1
  cases step_outcome h with
  | unchanged | flushed hphase | failed hphase | published hphase => exact .inl hlt
  | begun =>
    rw [length_append, length_singleton] at hlt
    rcases Nat.lt_or_ge t s.eng.txns.length with hlt' | hge
    · exact .inl hlt'
    · obtain rfl : t = s.eng.txns.length := by omega
      rw [getElem?_append_right le_rfl] at hT'
      exact .inr ⟨rfl, by simpa using hT'.symm⟩
  | txn hT hown hread | reserved hT hidle hdone hcheck => exact .inl (by simpa [Engine.setTxn] using hlt)

/-- The commit in progress, if any. -/
def Phase.commit? (p : Phase V) : Option (Commit V) :=
  match p with
  | .idle => none
  | .flushing c => some c
  | .publishing c => some c

/-- Commit timestamps are consecutive from the clock of the start, and a transaction's
snapshot is the timestamp of the last commit finished before its Begin. -/
structure Clocked (clock₀ : Nat) (s : Sys V) : Prop where
  clock : s.eng.clock = clock₀ + s.hist.length
  commitTS : ∀ i c, s.hist[i]? = some c → c.commitTS = clock₀ + i + 1
  reserved : ∀ c, s.eng.phase.commit? = some c → c.commitTS = s.eng.clock + 1
  snapshots : s.eng.txns.map Txn.readUint = s.seen.map (clock₀ + ·)
  seen_le : ∀ n ∈ s.seen, n ≤ s.hist.length

theorem clocked_new (s : Store V) : Clocked (Engine.new s).clock (Sys.new s) where
  clock := rfl
  commitTS := by intro i c h; simp [Sys.new] at h
  reserved := by intro c h; simp [Sys.new, Engine.new, Phase.commit?] at h
  snapshots := rfl
  seen_le := by intro n h; simp [Sys.new] at h

theorem map_readUint_set (hT : txns[t]? = some T) (hread : T'.readUint = T.readUint) :
    (txns.set t T').map Txn.readUint = txns.map Txn.readUint := by
  obtain ⟨hlt, rfl⟩ := List.getElem?_eq_some_iff.mp hT
  have hlt' : t < (txns.map Txn.readUint).length := by simpa using hlt
  have hself := set_getElem_self hlt'
  rw [getElem_map] at hself
  rw [map_set, hread]
  exact hself

theorem clocked_step (h : Clocked clock₀ s) (hstep : s.step c = some s') : Clocked clock₀ s' := by
  cases step_outcome hstep with
  | unchanged => exact h
  | begun =>
    refine ⟨h.clock, h.commitTS, h.reserved, ?_, ?_⟩
    · simp only [map_append, h.snapshots, map_cons, map_nil, h.clock]
    · intro n hn
      rcases mem_append.mp hn with hn | hn
      · exact h.seen_le n hn
      · exact Nat.le_of_eq (mem_singleton.mp hn)
  | txn hT hown hread =>
    exact ⟨h.clock, h.commitTS, h.reserved, (map_readUint_set hT hread).trans h.snapshots, h.seen_le⟩
  | reserved hT hidle hdone hcheck =>
    refine ⟨h.clock, h.commitTS, ?_, Eq.trans ?_ h.snapshots, h.seen_le⟩
    · intro c hc
      cases hc
      rfl
    · exact map_readUint_set hT rfl
  | flushed hphase =>
    refine ⟨h.clock, h.commitTS, ?_, h.snapshots, h.seen_le⟩
    intro c hc
    exact h.reserved c (by rw [hphase]; exact hc)
  | failed hphase =>
    refine ⟨h.clock, h.commitTS, ?_, h.snapshots, h.seen_le⟩
    intro c hc
    exact absurd hc (by simp [Phase.commit?])
  | @published c hphase =>
    have hts : c.commitTS = s.eng.clock + 1 := h.reserved c (by rw [hphase]; rfl)
    refine ⟨?_, ?_, ?_, h.snapshots, ?_⟩
    · simp only [hts, h.clock, length_append, length_singleton]
      omega
    · intro i c' hc'
      rcases Nat.lt_or_ge i s.hist.length with hi | hi
      · rw [getElem?_append_left hi] at hc'
        exact h.commitTS i c' hc'
      · rw [getElem?_append_right hi] at hc'
        have hi' : i = s.hist.length := by
          have := (List.getElem?_eq_some_iff.mp hc').1
          simp only [length_singleton] at this
          omega
        subst hi'
        obtain rfl : c = c' := by simpa using hc'
        rw [hts, h.clock]
    · intro c' hc'
      exact absurd hc' (by simp [Phase.commit?])
    · intro n hn
      exact Nat.le_trans (h.seen_le n hn) (by simp)

theorem clocked_of_reach {store : Store V}
    (h : Reach Sys.step ok (Sys.new store) s) : Clocked (Engine.new store).clock s :=
  h.inv (clocked_new store) fun _ _ _ hclk _ hstep => clocked_step hclk hstep

theorem history_grows (h : Reach Sys.step ok s s') : s.hist <+: s'.hist ∧ s.seen <+: s'.seen := by
  refine h.inv (I := fun s' => s.hist <+: s'.hist ∧ s.seen <+: s'.seen)
    ⟨prefix_refl _, prefix_refl _⟩ ?_
  rintro s1 a s2 ⟨h1, h2⟩ _ hstep
  cases step_outcome hstep with
  | unchanged | txn hT hown hread | reserved hT hidle hdone hcheck | flushed hphase | failed hphase => exact ⟨h1, h2⟩
  | begun => exact ⟨h1, h2.trans (prefix_append _ _)⟩
  | published hphase => exact ⟨h1.trans (prefix_append _ _), h2⟩

theorem Clocked.readUint_eq (h : Clocked clock₀ s) (hT : s.eng.txns[t]? = some T) :
    ∃ n, s.seen[t]? = some n ∧ n ≤ s.hist.length ∧ T.readUint = clock₀ + n := by
  have hm : (s.seen.map (clock₀ + ·))[t]? = some T.readUint := by
    rw [← h.snapshots, getElem?_map, hT]
    rfl
  rw [getElem?_map] at hm
  obtain ⟨n, hn, hr⟩ := map_eq_some_iff.mp hm
  exact ⟨n, hn, h.seen_le n (mem_of_getElem? hn), hr.symm⟩

theorem Clocked.snapshot (h : Clocked clock₀ s)
    (hT : s.eng.txns[t]? = some T) : clock₀ ≤ T.readUint ∧ T.readUint ≤ s.eng.clock := by
  obtain ⟨n, -, hn, hr⟩ := h.readUint_eq hT
  have := h.clock
  omega

theorem Clocked.commitTS_le (h : Clocked clock₀ s) {c : Commit V} (hc : c ∈ s.hist) : c.commitTS ≤ s.eng.clock := by
  obtain ⟨i, hi⟩ := mem_iff_getElem?.mp hc
  have hlt := (List.getElem?_eq_some_iff.mp hi).1
  rw [h.commitTS i c hi, h.clock]
  omega

end BasuyuDb.Transactions
