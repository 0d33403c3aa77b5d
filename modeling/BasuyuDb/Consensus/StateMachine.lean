import BasuyuDb.Transactions.Conflict

/-
  engine/internal/consensus/statemachine.go: the replicated state machine.
  Update checks a proposal against the newest version of each key and writes its batch at
  the Raft index. After a restart the whole log is applied again to the durable store. That
  replay takes the decisions of the first pass again, unless a proposal that lost its race
  the first time passes the check now: the version it lost to may have been deleted since.
-/

namespace BasuyuDb.Consensus
open KvLib Storage Transactions List

variable {V : Type}

structure Proposal (V : Type) where
  readTS : Nat
  muts : List (Mut V)

structure StateMachine (V : Type) where
  store : Store V
  lastApplied : Nat

/-- `sm.Result`: 0 (`resultAborted`) or the commit index, or an error of the store. -/
inductive UpdateResult where
  | value (n : Nat)
  | err
deriving DecidableEq

def resultAborted : Nat := 0

/-- `Update` at Raft index `index`; `fault` says for which keys LatestVersion fails. -/
def StateMachine.update (s : StateMachine V) (fault : Bytes → Bool) (index : Nat)
    (p : Proposal V) : StateMachine V × UpdateResult :=
  match checkConflicts s.store p.readTS fault p.muts with
  | .fault => (s, .err)
  | .conflict => ({ s with lastApplied := index }, .value resultAborted)
  | .pass => (⟨s.store.writeBatch index p.muts, index⟩, .value index)

/-- Apply the entries of a log whose first index is `index`. -/
def StateMachine.applyLog (s : StateMachine V) (index : Nat) : List (Proposal V) → StateMachine V
  | [] => s
  | p :: log => (s.update (fun _ => false) index p).1.applyLog (index + 1) log

/-- A node with an empty store. -/
def StateMachine.fresh : StateMachine V := ⟨[], 0⟩

/-- A node restarted over the durable store after the first `k` entries. -/
def StateMachine.restarted (log : List (Proposal V)) (k : Nat) : StateMachine V :=
  ⟨(StateMachine.fresh.applyLog 1 (log.take k)).store, 0⟩

/-- Replaying the log over the store after its first `k` entries shows, at every timestamp of
the log, what applying it once shows. -/
def Converges (log : List (Proposal V)) (k : Nat) : Prop :=
  ∀ key t, t ≤ log.length →
    ((StateMachine.restarted log k).applyLog 1 log).store.read key t =
      (StateMachine.fresh.applyLog 1 log).store.read key t

/-! ## One entry -/

/-- The proposal loses its race against the versions in the store. -/
def Loses (s : Store V) (p : Proposal V) : Prop := checkConflicts s p.readTS (fun _ => false) p.muts = .conflict

instance (s : Store V) (p : Proposal V) : Decidable (Loses s p) := inferInstanceAs (Decidable (_ = _))

theorem checkConflicts_ne_fault (s : Store V) (readTS : Nat) (ms : List (Mut V)) :
    checkConflicts s readTS (fun _ => false) ms ≠ .fault := by
  induction ms with
  | nil => simp [checkConflicts]
  | cons m ms ih =>
    simp only [checkConflicts, Bool.false_eq_true, if_false]
    split
    · split
      · simp
      · exact ih
    · exact ih

theorem update_store (s : StateMachine V) (index : Nat) (p : Proposal V) :
    (s.update (fun _ => false) index p).1.store =
      if Loses s.store p then s.store else s.store.writeBatch index p.muts := by
  unfold StateMachine.update
  split
  · rename_i hc
    exact absurd hc (checkConflicts_ne_fault _ _ _)
  · rename_i hc
    rw [if_pos (show Loses s.store p from hc)]
  · rename_i hc
    rw [if_neg (by rw [Loses, hc]; simp)]

theorem latestVersion_congr {s s' : Store V} (h : s.SameCells s') (k : Bytes) :
    latestVersion s k = latestVersion s' k := by
  unfold latestVersion
  rw [h.newest_eq k]

theorem loses_congr {s s' : Store V} (h : s.SameCells s') (p : Proposal V) : Loses s p ↔ Loses s' p := by
  have key : ∀ ms : List (Mut V), checkConflicts s p.readTS (fun _ => false) ms =
      checkConflicts s' p.readTS (fun _ => false) ms := by
    intro ms
    induction ms with
    | nil => rfl
    | cons m ms ih => simp only [checkConflicts, latestVersion_congr h m.key, ih]
  unfold Loses
  rw [key]

/-! ## The store along a pass over the log -/

theorem applyLog_append (s : StateMachine V) (index : Nat) (xs ys : List (Proposal V)) :
    s.applyLog index (xs ++ ys) = (s.applyLog index xs).applyLog (index + xs.length) ys := by
  induction xs generalizing s index with
  | nil => rfl
  | cons x xs ih =>
    rw [cons_append, StateMachine.applyLog, StateMachine.applyLog, ih, length_cons]
    congr 1
    omega

/-- The store after the first `i` entries. -/
def storeAfter (s : StateMachine V) (log : List (Proposal V)) (i : Nat) : Store V := (s.applyLog 1 (log.take i)).store

theorem storeAfter_length (s : StateMachine V) (log : List (Proposal V)) :
    storeAfter s log log.length = (s.applyLog 1 log).store := by
  rw [storeAfter, take_length]

variable {log : List (Proposal V)} {i k : Nat} {p : Proposal V}

theorem storeAfter_succ (s : StateMachine V) (h : log[i]? = some p) : storeAfter s log (i + 1) =
      if Loses (storeAfter s log i) p then storeAfter s log i
      else (storeAfter s log i).writeBatch (i + 1) p.muts := by
  have hi := (List.getElem?_eq_some_iff.mp h).1
  unfold storeAfter
  rw [take_add_one, h, Option.toList_some, applyLog_append, StateMachine.applyLog,
    StateMachine.applyLog, update_store, length_take, Nat.min_eq_left (Nat.le_of_lt hi), Nat.add_comm 1 i]

theorem cell_storeAfter (s : StateMachine V) {j t : Nat}
    (hij : i ≤ j) (hj : j ≤ log.length) (ht : t ≤ i) (k : Bytes) :
    (storeAfter s log j).cell k t = (storeAfter s log i).cell k t := by
  induction j, hij using Nat.le_induction with
  | base => rfl
  | succ j hij ih =>
    obtain ⟨p, hp⟩ : ∃ p, log[j]? = some p := ⟨_, getElem?_eq_getElem (by omega)⟩
    rw [storeAfter_succ s hp]
    split
    · exact ih (by omega)
    · rw [Versions.cell_writeBatch_ne _ _ _ (by omega)]
      exact ih (by omega)

/-! ## The replay -/

/-- Every entry that lost its race when first applied loses it against the durable store. -/
def LosersStayLosers (log : List (Proposal V)) (k : Nat) : Prop :=
  ∀ (i : Nat) p, i < k → log[i]? = some p → Loses (storeAfter StateMachine.fresh log i) p →
    Loses (storeAfter StateMachine.fresh log k) p

instance (log : List (Proposal V)) (k : Nat) : Decidable (LosersStayLosers log k) :=
  decidable_of_iff (∀ i, i < k → ∀ p ∈ log[i]?, Loses (storeAfter StateMachine.fresh log i) p →
      Loses (storeAfter StateMachine.fresh log k) p)
    ⟨fun h i p hi hp => h i hi p hp, fun h i hi p hp => h i p hi hp⟩

/-- Replaying an entry that was accepted the first time changes no version, whatever the
check says now. -/
theorem rewrite_accepted (hik : i < k) (hk : k ≤ log.length) (hp : log[i]? = some p)
    (hacc : ¬ Loses (storeAfter StateMachine.fresh log i) p) :
    ((storeAfter StateMachine.fresh log k).writeBatch (i + 1) p.muts).SameCells
      (storeAfter StateMachine.fresh log k) := by
  apply Versions.sameCells_rewrite
  intro key e he
  rw [cell_storeAfter _ (show i + 1 ≤ k from hik) hk le_rfl, storeAfter_succ _ hp,
    if_neg hacc, Versions.cell_writeBatch, if_pos rfl, he]
  rfl

theorem replay_same (hik : i ≤ k) (hk : k ≤ log.length)
    (h : ∀ (j : Nat) p, j < i → log[j]? = some p → Loses (storeAfter StateMachine.fresh log j) p →
      Loses (storeAfter StateMachine.fresh log k) p) : (storeAfter (StateMachine.restarted log k) log i).SameCells
      (storeAfter StateMachine.fresh log k) := by
  induction i with
  | zero => exact fun _ _ => rfl
  | succ i ih =>
    have hsame := ih (by omega) fun j p hj => h j p (by omega)
    obtain ⟨p, hp⟩ : ∃ p, log[i]? = some p := ⟨_, getElem?_eq_getElem (by omega)⟩
    rw [storeAfter_succ _ hp]
    split
    · exact hsame
    · rename_i hacc
      -- it passes now, so it passed the first time too
      have hfirst : ¬ Loses (storeAfter StateMachine.fresh log i) p := by
        intro hl
        exact hacc ((loses_congr hsame p).mpr (h i p (by omega) hp hl))
      intro key t
      rw [hsame.writeBatch (i + 1) p.muts key t]
      exact rewrite_accepted (by omega) hk hp hfirst key t

theorem passes_same (s s' : StateMachine V) {j : Nat} (hij : i ≤ j)
    (hj : j ≤ log.length) (h : (storeAfter s log i).SameCells (storeAfter s' log i)) :
    (storeAfter s log j).SameCells (storeAfter s' log j) := by
  induction j, hij using Nat.le_induction with
  | base => exact h
  | succ j hij ih =>
    have hsame := ih (by omega)
    obtain ⟨p, hp⟩ : ∃ p, log[j]? = some p := ⟨_, getElem?_eq_getElem (by omega)⟩
    rw [storeAfter_succ _ hp, storeAfter_succ _ hp]
    by_cases hl : Loses (storeAfter s' log j) p
    · rw [if_pos hl, if_pos ((loses_congr hsame p).mpr hl)]
      exact hsame
    · rw [if_neg hl, if_neg fun h => hl ((loses_congr hsame p).mp h)]
      exact hsame.writeBatch _ _

theorem converges_of_losersStayLosers (hk : k ≤ log.length) (h : LosersStayLosers log k) : Converges log k := by
  intro key t _
  rw [← storeAfter_length, ← storeAfter_length]
  have hprefix := replay_same (Nat.le_refl k) hk h
  exact (passes_same _ _ hk le_rfl hprefix).read_eq key t

/-- The first loser that passes on replay is visible at its own index: if the replay
converges all the same, its batch writes what is visible there anyway. -/
theorem invisible_of_converges (hk : k ≤ log.length) (hconv : Converges log k) (hik : i < k) (hp : log[i]? = some p)
    (hfirst : ∀ (j : Nat) q, j < i → log[j]? = some q →
      Loses (storeAfter StateMachine.fresh log j) q → Loses (storeAfter StateMachine.fresh log k) q)
    (hpass : ¬ Loses (storeAfter StateMachine.fresh log k) p) {key : Bytes} {e : Option V}
    (he : lastEffect p.muts key = some e) : e = (storeAfter StateMachine.fresh log k).read key (i + 1) := by
  have hlen : i + 1 ≤ log.length := by omega
  have hsame := replay_same (Nat.le_of_lt hik) hk hfirst
  have hnow := hconv key (i + 1) hlen
  rw [← storeAfter_length, ← storeAfter_length] at hnow
  -- both sides at `i + 1` are settled by entry `i + 1`
  have hleft : (storeAfter (StateMachine.restarted log k) log log.length).read key (i + 1) = e := by
    unfold Versions.read
    rw [Versions.newestLe, cell_storeAfter _ hlen le_rfl le_rfl,
      storeAfter_succ _ hp, if_neg fun h => hpass ((loses_congr hsame p).mp h),
      Versions.cell_writeBatch, if_pos rfl, he]
    rfl
  have hright : (storeAfter StateMachine.fresh log log.length).read key (i + 1) =
      (storeAfter StateMachine.fresh log k).read key (i + 1) := by
    unfold Versions.read
    rw [Versions.newestLe_congr fun t ht => cell_storeAfter _ hk le_rfl (by omega) key]
  rw [hleft, hright] at hnow
  exact hnow

/-- Replay converges when every loser stays a loser, and only then, up to batches that write
what is visible anyway. -/
theorem replay_converges (log : List (Proposal V)) (k : Nat) (hk : k ≤ log.length) :
    (LosersStayLosers log k → Converges log k) ∧ (Converges log k → ∀ (i : Nat) p, i < k → log[i]? = some p →
      (∀ (j : Nat) q, j < i → log[j]? = some q → Loses (storeAfter StateMachine.fresh log j) q →
        Loses (storeAfter StateMachine.fresh log k) q) → ¬ Loses (storeAfter StateMachine.fresh log k) p →
      ∀ key e, lastEffect p.muts key = some e → e = (storeAfter StateMachine.fresh log k).read key (i + 1)) :=
  ⟨converges_of_losersStayLosers hk, fun hconv _ _ hik hp hfirst hpass _ _ he =>
    invisible_of_converges hk hconv hik hp hfirst hpass he⟩

/-- Entry 2 loses against entry 1, also on replay. -/
def raceLog : List (Proposal Bytes) := [⟨0, [⟨str "k", str "v", false⟩]⟩, ⟨0, [⟨str "k", str "w", false⟩]⟩]

theorem replay_converges_race : LosersStayLosers raceLog 2 ∧ Converges raceLog 2 :=
  ⟨by decide, (replay_converges raceLog 2 (by decide)).1 (by decide)⟩

/-- Entry 2 loses against entry 1; entry 3 deletes the key they raced for. -/
def deletedRaceLog : List (Proposal Bytes) :=
  [⟨0, [⟨str "k", str "v", false⟩]⟩,
   ⟨0, [⟨str "k", str "w", false⟩, ⟨str "j", str "w", false⟩]⟩,
   ⟨2, [⟨str "k", [], true⟩]⟩]

/-- On replay entry 2 no longer finds the version it lost to, and writes its batch. -/
theorem replay_diverges : ¬ Converges deletedRaceLog 3 := by
  intro h
  cases h (str "j") 2 (by decide)

/-! ## A ledger of the log

It keeps no store. Update decides as it does (`update_refines`), and every node reads it at a snapshot
(`replicas_read`). -/

open Versions

/-- The index of the newest accepted write of each key, and what it left. -/
abbrev Ledger (V : Type) := Bytes → Option (Nat × Option V)

/-- A key of the proposal has a value that is newer than its snapshot. -/
def Ledger.aborts (w : Ledger V) (p : Proposal V) : Bool :=
  p.muts.any fun m => (w m.key).any fun x => x.2.isSome && decide (p.readTS < x.1)

def Ledger.apply (w : Ledger V) (index : Nat) (p : Proposal V) : Ledger V :=
  if w.aborts p then w else fun k => ((lastEffect p.muts k).map (index, ·)).or (w k)

def ledger (log : List (Proposal V)) : Nat → Ledger V
  | 0 => fun _ => none
  | i + 1 => log[i]?.elim (ledger log i) ((ledger log i).apply (i + 1))

theorem loses_iff {s : Store V} {w : Ledger V} (hmax : s.maxVersion ≤ i) (hnew : ∀ k, s.newestLe k i = w k)
    (p : Proposal V) : Loses s p ↔ w.aborts p = true := by
  unfold Loses Ledger.aborts
  induction p.muts with
  | nil => simp [checkConflicts]
  | cons m ms ih =>
    rw [any_cons, Bool.or_eq_true, ← ih, checkConflicts, latestVersion, ← newestLe_of_maxVersion_le _ _ hmax, hnew]
    rcases w m.key with _ | ⟨ts, _ | v⟩
    · simp
    · simp
    · by_cases hts : p.readTS < ts <;> simp [hts]

/-- No version is above the last entry, and the newest ones are the ledger. -/
theorem newest_storeAfter (hi : i ≤ log.length) : (storeAfter .fresh log i).maxVersion ≤ i ∧
    ∀ k, (storeAfter .fresh log i).newestLe k i = ledger log i k := by
  induction i with
  | zero => exact ⟨le_rfl, fun k => rfl⟩
  | succ i ih =>
    obtain ⟨hmax, hnew⟩ := ih (by omega)
    have hp := getElem?_eq_getElem hi
    have hloses := loses_iff hmax hnew log[i]
    -- nothing is at the index of the entry yet
    have hnone : ∀ k, (storeAfter .fresh log i).cell k (i + 1) = none :=
      fun k => by_contra fun hc => absurd (cell_le_maxVersion hc) (by omega)
    rw [storeAfter_succ _ hp, ledger, hp, Option.elim_some, Ledger.apply]
    by_cases hl : (ledger log i).aborts log[i] = true
    · rw [if_pos (hloses.mpr hl), if_pos hl]
      refine ⟨hmax.trans (Nat.le_succ i), fun k => ?_⟩
      rw [newestLe, hnone]
      exact hnew k
    · rw [if_neg fun h => hl (hloses.mp h), if_neg hl]
      refine ⟨maxVersion_le fun x hx => ?_, fun k => ?_⟩
      · rcases mem_writeBatch hx with hx | hx
        · exact (ts_le_maxVersion hx).trans (by omega)
        · exact hx.le
      · rw [newestLe, cell_writeBatch, if_pos rfl, hnone, Option.or_none,
          newestLe_congr fun t ht => cell_writeBatch_ne _ _ k (by omega), hnew]
        cases lastEffect log[i].muts k <;> rfl

/-- The next entry is aborted if and only if the ledger does so; else its index is returned. -/
theorem update_refines (log : List (Proposal V)) (p : Proposal V) :
    ((StateMachine.fresh.applyLog 1 log).update (fun _ => false) (log.length + 1) p).2 =
      .value (if (ledger log log.length).aborts p then resultAborted else log.length + 1) := by
  obtain ⟨hmax, hnew⟩ := newest_storeAfter (le_refl log.length)
  rw [storeAfter_length] at hmax hnew
  have hloses := loses_iff hmax hnew p
  unfold StateMachine.update
  split
  · rename_i hc
    exact absurd hc (checkConflicts_ne_fault _ _ _)
  · rename_i hc
    rw [if_pos (hloses.mp hc)]
  · rename_i hc
    rw [if_neg fun h => by cases hc.symm.trans (hloses.mpr h)]

/-- A node reads at a snapshot what the ledger had there, also when it has applied more since. -/
theorem replicas_read (log more : List (Proposal V)) (k : Bytes) :
    (StateMachine.fresh.applyLog 1 (log ++ more)).store.read k log.length = (ledger log log.length k).bind Prod.snd := by
  have hlen : log.length ≤ (log ++ more).length := by simp
  have hthen : storeAfter .fresh (log ++ more) log.length = storeAfter .fresh log log.length := by
    rw [storeAfter, storeAfter, take_left, take_length]
  rw [← (newest_storeAfter le_rfl).2 k, ← storeAfter_length, ← hthen, Versions.read,
    newestLe_congr fun t ht => cell_storeAfter _ hlen le_rfl ht k]

end BasuyuDb.Consensus
