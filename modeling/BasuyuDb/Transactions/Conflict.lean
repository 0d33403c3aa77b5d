import BasuyuDb.Transactions.History

/-
  First-committer-wins. The conflict check of Commit asks LatestVersion, which reports a key
  whose newest version is a delete marker as not found, so a key deleted since the snapshot
  passes the check. In every run in which no Commit is called on such a key, a commit never
  shares a key with a commit it did not see.
-/

namespace BasuyuDb.Transactions
open KvLib Storage List

variable {V : Type}

def Commit.keys (c : Commit V) : List Bytes := c.batch.map Mutation.key

/-- No commit writes a key of an earlier commit that is newer than its snapshot. -/
def FirstCommitterWins (hist : List (Commit V)) : Prop :=
  hist.Pairwise fun u c => c.readUint < u.commitTS → ∀ k ∈ c.keys, k ∉ u.keys

instance (hist : List (Commit V)) : Decidable (FirstCommitterWins hist) :=
  inferInstanceAs (Decidable (hist.Pairwise _))

/-- The newest version of `k` is a delete marker newer than `ts`. -/
def deletedSince (s : Store V) (ts : Nat) (k : Bytes) : Bool :=
  match s.newestLe k s.maxVersion with
  | some (t, none) => decide (ts < t)
  | _ => false

/-- A Commit on a key deleted since the transaction's snapshot. -/
def overDelete (s : Sys V) : Call V → Bool
  | .commit t _ =>
    s.eng.txns[t]?.any fun T => T.mutations.any fun m => deletedSince s.eng.store T.readUint m.key
  | _ => false

/-! ## The check -/

variable {s : Store V} {readUint ts clock₀ : Nat} {fault : Bytes → Bool} {ms : List (Mut V)} {m : Mut V}

theorem checkConflicts_pass (h : checkConflicts s readUint fault ms = .pass) (hm : m ∈ ms)
    (hts : latestVersion s m.key = some ts) : ts ≤ readUint := by
  induction ms with
  | nil => cases hm
  | cons x ms ih =>
    rw [checkConflicts] at h
    split at h
    · cases h
    · split at h
      · rename_i ts' hx
        split at h
        · cases h
        · rename_i hle
          rcases mem_cons.mp hm with rfl | hm
          · cases hts.symm.trans hx
            exact Nat.le_of_not_gt hle
          · exact ih h hm
      · rename_i hx
        rcases mem_cons.mp hm with rfl | hm
        · cases hts.symm.trans hx
        · exact ih h hm

theorem cell_le_of_pass (h : checkConflicts s readUint fault ms = .pass) (hm : m ∈ ms)
    (hdel : deletedSince s readUint m.key = false) (hc : s.cell m.key ts ≠ none) : ts ≤ readUint := by
  obtain ⟨t, v, hn, hle⟩ := Versions.newestLe_ge (Versions.cell_le_maxVersion hc) hc
  cases v with
  | none =>
    simp only [deletedSince, hn, decide_eq_false_iff_not] at hdel
    omega
  | some v =>
    have hl : latestVersion s m.key = some t := by rw [latestVersion, hn]
    exact Nat.le_trans hle (checkConflicts_pass h hm hl)

/-! ## The invariant -/

/-- The keys of every finished commit carry a version at its timestamp, so the check of a
later commit can see them; the commit in progress has passed that check. -/
structure Guarded (s : Sys V) : Prop where
  written : ∀ u ∈ s.hist, ∀ k ∈ u.keys, s.eng.store.cell k u.commitTS ≠ none
  disjoint : FirstCommitterWins s.hist
  pending : ∀ c, s.eng.phase.commit? = some c → ∀ u ∈ s.hist, c.readUint < u.commitTS → ∀ k ∈ c.keys, k ∉ u.keys
  flushed : ∀ c, s.eng.phase = .publishing c → ∀ k ∈ c.keys, s.eng.store.cell k c.commitTS ≠ none

theorem guarded_new (s : Store V) : Guarded (Sys.new s) where
  written := by intro u hu; simp [Sys.new] at hu
  disjoint := List.Pairwise.nil
  pending := by intro c hc; simp [Sys.new, Engine.new, Phase.commit?] at hc
  flushed := by intro c hc; simp [Sys.new, Engine.new] at hc

theorem written_writeBatch {s : Sys V} (hclk : Clocked clock₀ s) (h : Guarded s)
    {c : Commit V} (hc : s.eng.phase.commit? = some c) (ms : List (Mut V)) {u : Commit V}
    (hu : u ∈ s.hist) {k : Bytes} (hk : k ∈ u.keys) :
    (s.eng.store.writeBatch c.commitTS ms).cell k u.commitTS ≠ none := by
  have h1 := hclk.reserved c hc
  have h2 := hclk.commitTS_le hu
  rw [Versions.cell_writeBatch_ne _ _ _ (by omega)]
  exact h.written u hu k hk

theorem guarded_step {s s' : Sys V} {a : Call V} (hclk : Clocked clock₀ s)
    (h : Guarded s) (hok : overDelete s a = false) (hstep : s.step a = some s') : Guarded s' := by
  cases step_outcome hstep with
  | unchanged => exact h
  | begun | txn hT hown hread => exact ⟨h.written, h.disjoint, h.pending, h.flushed⟩
  | @reserved t fault T hT hidle hdone hcheck =>
    refine ⟨h.written, h.disjoint, ?_, ?_⟩
    · intro c hc u hu hlt k hk hku
      cases hc
      obtain ⟨m, hm, rfl⟩ := mem_map.mp hk
      have hdel : deletedSince s.eng.store T.readUint m.key = false := by
        simp only [overDelete, hT, Option.any_some, any_eq_false] at hok
        simpa using hok m hm
      have hle := cell_le_of_pass hcheck hm hdel (h.written u hu m.key hku)
      exact absurd hlt (Nat.not_lt.mpr hle)
    · intro c hc
      cases hc
  | @flushed c hphase =>
    have hc : s.eng.phase.commit? = some c := by rw [hphase]; rfl
    refine ⟨?_, h.disjoint, ?_, ?_⟩
    · intro u hu k hk
      exact written_writeBatch hclk h hc c.batch hu hk
    · intro c' hc'
      exact h.pending c' (hc.trans hc')
    · intro c' hc' k hk
      obtain rfl : c = c' := by simpa using hc'
      obtain ⟨m, hm, rfl⟩ := mem_map.mp hk
      obtain ⟨e, he⟩ := lastEffect_of_mem hm
      rw [Versions.cell_writeBatch, if_pos rfl, he]
      simp
  | failed hphase =>
    refine ⟨?_, h.disjoint, ?_, ?_⟩
    · intro u hu k hk
      exact written_writeBatch hclk h (by rw [hphase]; rfl) _ hu hk
    · intro c' hc'
      exact absurd hc' (by simp [Phase.commit?])
    · intro c' hc'
      cases hc'
  | @published c hphase =>
    refine ⟨?_, ?_, ?_, ?_⟩
    · intro u hu k hk
      rcases mem_append.mp hu with hu | hu
      · exact h.written u hu k hk
      · obtain rfl := mem_singleton.mp hu
        exact h.flushed u hphase k hk
    · refine pairwise_append.mpr ⟨h.disjoint, pairwise_singleton .., ?_⟩
      intro u hu c' hc'
      obtain rfl := mem_singleton.mp hc'
      exact h.pending c' (by rw [hphase]; rfl) u hu
    · intro c' hc'
      exact absurd hc' (by simp [Phase.commit?])
    · intro c' hc'
      cases hc'

/-- First-committer-wins in every run without a Commit over a newer delete. -/
theorem first_committer_wins (store : Store V) (s : Sys V)
    (h : Reach Sys.step (fun s a => overDelete s a = false) (Sys.new store) s) : FirstCommitterWins s.hist := by
  have hinv : Clocked (Engine.new store).clock s ∧ Guarded s := by
    refine h.inv (I := fun s => Clocked (Engine.new store).clock s ∧ Guarded s)
      ⟨clocked_new store, guarded_new store⟩ ?_
    rintro s a s' ⟨hclk, hg⟩ hok hstep
    exact ⟨clocked_step hclk hstep, guarded_step hclk hg hok hstep⟩
  exact hinv.2.disjoint

/-- A transaction that begins, buffers one mutation and commits. -/
def commitOne (t : Nat) (m : Mut Bytes) : List (Call Bytes) :=
  [.buffer t m, .commit t fun _ => false, .flush, .publish]

/-- Two transactions set different keys, a third sets the key of the first again. -/
theorem first_committer_wins_serial : ∃ s : Sys Bytes, s.hist.length = 3 ∧
    Reach Sys.step (fun s a => overDelete s a = false) (Sys.new []) s ∧ FirstCommitterWins s.hist := by
  have hrun : Reach Sys.step (fun s a => overDelete s a = false) (Sys.new []) _ :=
    reach_of_runAll ([.begin, .begin] ++ commitOne 0 ⟨str "k", str "v", false⟩ ++
      commitOne 1 ⟨str "j", str "v", false⟩ ++ [.begin] ++ commitOne 2 ⟨str "k", str "w", false⟩) rfl
  exact ⟨_, rfl, hrun, first_committer_wins [] _ hrun⟩

/-- Transactions 1 and 2 begin with `k` set; 2 deletes `k` and commits; 1 sets `k`, and its
Commit returns nil as well. -/
theorem conflict_with_delete_unseen : ∃ s : Sys Bytes,
    Reach Sys.step (fun _ _ => True) (Sys.new []) s ∧ ¬ FirstCommitterWins s.hist :=
  ⟨_, reach_of_runAll ([.begin] ++ commitOne 0 ⟨str "k", str "v", false⟩ ++ [.begin, .begin] ++
    commitOne 2 ⟨str "k", [], true⟩ ++ commitOne 1 ⟨str "k", str "w", false⟩) rfl, by decide⟩

end BasuyuDb.Transactions
