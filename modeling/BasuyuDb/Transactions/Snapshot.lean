import BasuyuDb.Transactions.Conflict

/-
  Snapshot reads. The abstract state of the database is the map left by the finished commits
  in commit order; a transaction reads that map as of its Begin, with its own buffer on top.
  A failed flush may leave versions at the timestamp it had reserved. The clock is not moved,
  so the next commit reserves the same timestamp and publishes the leftovers with its own
  batch. The engine refines the abstract state in every run in which that does not happen.
-/

namespace BasuyuDb.Transactions
open KvLib Storage List

variable {V : Type}

/-! ## The abstract state -/

/-- The finished commits applied in order. -/
def committed (base : OrdMap Bytes V) (hist : List (Commit V)) : OrdMap Bytes V :=
  hist.foldl (fun m c => overlay m c.batch) base

theorem committed_concat (base : OrdMap Bytes V) (hist : List (Commit V)) (c : Commit V) :
    committed base (hist ++ [c]) = overlay (committed base hist) c.batch := by
  unfold committed
  rw [foldl_append]
  rfl

/-- What `Get` answers from a map. -/
def answer (m : OrdMap Bytes V) (k : Bytes) : Except ReadErr V :=
  match m.lookup k with
  | some v => .ok v
  | none => .error .keyNotFound

/-- The contents of the store when the engine starts. -/
def baseOf (store : Store V) : OrdMap Bytes V := store.view (Engine.new store).clock

/-- Every read of every transaction answers from the commits finished before its Begin,
overlaid with its own buffer. -/
def ReadsCommitted (base : OrdMap Bytes V) (s : Sys V) : Prop :=
  ∀ (t : Nat) T, s.eng.txns[t]? = some T → ∃ n, s.seen[t]? = some n ∧
    let snap := overlay (committed base (s.hist.take n)) T.mutations
    (T.done = false → ∀ k, s.eng.get T k = answer snap k) ∧
    ∀ pre, s.eng.iterate T pre = snap.scan fun k => pre.isPrefixOf k

theorem get_eq_answer (e : Engine V) (T : Txn V) (hdone : T.done = false) (k : Bytes) :
    e.get T k = answer (overlay (e.store.view T.readUint) T.mutations) k := by
  unfold Engine.get answer
  rw [hdone, lookup_overlay, Versions.lookup_view]
  unfold lastEffect
  cases lastMutation T.mutations k with
  | none => rfl
  | some m =>
    cases hd : m.delete with
    | true | false => simp [Mutation.effect, hd]

theorem iterate_eq_scan (e : Engine V) (T : Txn V) (pre : Bytes) : e.iterate T pre =
      (overlay (e.store.view T.readUint) T.mutations).scan (fun k => pre.isPrefixOf k) :=
  scan_merged (newIterator e.store T.readUint pre) T.mutations

/-! ## Leftovers of failed flushes -/

/-- Every version at the timestamp about to be flushed is of a key of the batch. -/
def coversLeftovers (s : Sys V) : Call V → Bool
  | .flush =>
    match s.eng.phase with
    | .flushing c => s.eng.store.all fun v => v.ts != c.commitTS || c.keys.contains v.key
    | _ => true
  | _ => true

variable {s s' : Sys V} {clock₀ : Nat}

theorem cell_none_of_covers {c : Commit V} (hphase : s.eng.phase = .flushing c)
    (hok : coversLeftovers s .flush = true) {k : Bytes} (hk : k ∉ c.keys) : s.eng.store.cell k c.commitTS = none := by
  by_contra hc
  obtain ⟨v, hv, rfl, hts⟩ := Versions.mem_of_cell hc
  simp only [coversLeftovers, hphase, all_eq_true] at hok
  simpa [hts, hk] using hok v hv

/-- The store refines the abstract state: at each timestamp up to the clock it shows the
commits up to there, and a flushed batch is ready to become the next state. -/
structure Refines (clock₀ : Nat) (base : OrdMap Bytes V) (s : Sys V) : Prop where
  views : ∀ n, n ≤ s.hist.length → s.eng.store.view (clock₀ + n) = committed base (s.hist.take n)
  flushed : ∀ c, s.eng.phase = .publishing c →
    s.eng.store.view (s.eng.clock + 1) = overlay (committed base s.hist) c.batch

theorem refines_new (store : Store V) :
    Refines (Engine.new store).clock (baseOf store) (Sys.new store) where
  views := by
    intro n hn
    obtain rfl := Nat.le_zero.mp hn
    rfl
  flushed := by intro c hc; simp [Sys.new, Engine.new] at hc

variable {base : OrdMap Bytes V} {a : Call V} {store : Store V}

theorem refines_step (hclk : Clocked clock₀ s) (h : Refines clock₀ base s) (hok : coversLeftovers s a = true)
    (hstep : s.step a = some s') : Refines clock₀ base s' := by
  -- a write at the reserved timestamp leaves the published views alone
  have hviews : ∀ c ms, s.eng.phase.commit? = some c → ∀ n, n ≤ s.hist.length →
      (s.eng.store.writeBatch c.commitTS ms).view (clock₀ + n) = committed base (s.hist.take n) := by
    intro c ms hc n hn
    have h1 := hclk.reserved c hc
    have h2 := hclk.clock
    rw [Versions.view_writeBatch_lt _ _ (by omega)]
    exact h.views n hn
  cases step_outcome hstep with
  | unchanged => exact h
  | begun | txn hT hown hread => exact ⟨h.views, h.flushed⟩
  | reserved hT hidle hdone hcheck => exact ⟨h.views, by intro c hc; exact absurd hc (by simp)⟩
  | @flushed c hphase =>
    have hc : s.eng.phase.commit? = some c := by rw [hphase]; rfl
    refine ⟨hviews c c.batch hc, ?_⟩
    intro c' hc'
    obtain rfl : c = c' := by simpa using hc'
    have hts := hclk.reserved c hc
    dsimp only
    apply OrdMap.ext_lookup
    intro k
    rw [Versions.lookup_view, hts, Versions.read_writeBatch_self, lookup_overlay]
    cases hl : lastEffect c.batch k with
    | some e => rfl
    | none =>
      -- no leftover of `k` at the reserved timestamp: the read falls through to the clock
      have hk : k ∉ c.keys := by
        intro hk
        obtain ⟨m, hm, rfl⟩ := mem_map.mp hk
        exact lastEffect_eq_none.mp hl m hm rfl
      have hcell := cell_none_of_covers hphase hok hk
      rw [hts] at hcell
      have hread : s.eng.store.read k (s.eng.clock + 1) = s.eng.store.read k s.eng.clock := by
        unfold Versions.read
        rw [Versions.newestLe, hcell]
      have hcur := h.views s.hist.length le_rfl
      rw [← hclk.clock, take_length] at hcur
      simp only [Option.getD_none]
      rw [hread, ← Versions.lookup_view, hcur]
  | failed hphase =>
    exact ⟨hviews _ _ (by rw [hphase]; rfl), by intro c hc; exact absurd hc (by simp)⟩
  | @published c hphase =>
    refine ⟨?_, by intro c hc; exact absurd hc (by simp)⟩
    intro n hn
    rcases Nat.lt_or_ge s.hist.length n with hlt | hle
    · have hn' : n = s.hist.length + 1 := by
        simp only [length_append, length_singleton] at hn
        omega
      have hall : (s.hist ++ [c]).take n = s.hist ++ [c] := take_of_length_le (by simp [hn'])
      have hts : clock₀ + n = s.eng.clock + 1 := by rw [hclk.clock, hn']; omega
      rw [hall, committed_concat, hts]
      exact h.flushed c hphase
    · rw [take_append_of_le_length hle]
      exact h.views n hle

theorem readsCommitted_of_refines (hclk : Clocked clock₀ s) (h : Refines clock₀ base s) : ReadsCommitted base s := by
  intro t T hT
  obtain ⟨n, hn, hle, hread⟩ := hclk.readUint_eq hT
  have hview : s.eng.store.view T.readUint = committed base (s.hist.take n) := by
    rw [hread]
    exact h.views n hle
  refine ⟨n, hn, ?_, ?_⟩
  · intro hdone k
    rw [get_eq_answer _ _ hdone, hview]
  · intro pre
    rw [iterate_eq_scan, hview]

theorem readsCommitted_of_reach (h : Reach Sys.step (fun s a => coversLeftovers s a = true) (Sys.new store) s) :
    ReadsCommitted (baseOf store) s := by
  let I := fun s : Sys V => Clocked (Engine.new store).clock s ∧ Refines (Engine.new store).clock (baseOf store) s
  have hinv : I s := by
    refine h.inv ⟨clocked_new store, refines_new store⟩ ?_
    rintro s a s' ⟨hclk, hr⟩ hok hstep
    exact ⟨clocked_step hclk hstep, refines_step hclk hr hok hstep⟩
  exact readsCommitted_of_refines hinv.1 hinv.2

/-! ## Failed commits -/

/-- A failed commit is never visible: every read answers from the commits that returned nil,
in every run in which a flush never meets a version that an earlier flush left at its
timestamp under a key outside its own batch. -/
theorem failed_commit_invisible (store : Store V) (s : Sys V)
    (h : Reach Sys.step (fun s a => coversLeftovers s a = true) (Sys.new store) s) :
    ReadsCommitted (baseOf store) s :=
  readsCommitted_of_reach h

/-- A flush fails after persisting its only mutation; the next commit is of the same key. -/
theorem failed_commit_overwritten : ∃ s : Sys Bytes, s.hist.length = 1 ∧
    Reach Sys.step (fun s a => coversLeftovers s a = true) (Sys.new []) s ∧ ReadsCommitted (baseOf []) s := by
  have hrun : Reach Sys.step (fun s a => coversLeftovers s a = true) (Sys.new []) _ :=
    reach_of_runAll ([.begin, .begin, .buffer 0 ⟨str "k", str "v", true⟩,
      .commit 0 fun _ => false, .flushFail [true]] ++
      commitOne 1 ⟨str "k", str "w", false⟩ ++ [.begin]) rfl
  exact ⟨_, rfl, hrun, failed_commit_invisible [] _ hrun⟩

/-- Transaction 0 sets `a`, its flush persists the write and fails. Transaction 1 commits `b`
at the same timestamp, and transaction 2, begun after that, reads `a`. -/
theorem failed_flush_published : ∃ s : Sys Bytes, ∃ T : Txn Bytes,
    Reach Sys.step (fun _ _ => True) (Sys.new []) s ∧ s.eng.txns[2]? = some T ∧
    T.mutations = [] ∧ (∀ c ∈ s.hist, c.txn = 1) ∧ s.eng.get T (str "a") = .ok (str "x") ∧
    ¬ ReadsCommitted (baseOf []) s := by
  have hrun : Reach Sys.step (fun _ _ => True) (Sys.new []) _ :=
    reach_of_runAll ([.begin, .begin, .buffer 0 ⟨str "a", str "x", false⟩,
      .commit 0 fun _ => false, .flushFail [true]] ++
      commitOne 1 ⟨str "b", str "y", false⟩ ++ [.begin]) rfl
  refine ⟨_, _, hrun, rfl, rfl, by decide, rfl, ?_⟩
  intro h
  obtain ⟨n, hn, hget, -⟩ := h 2 _ rfl
  obtain rfl : 1 = n := Option.some.inj hn
  cases hget rfl (str "a")

/-! ## Runs whose flushes succeed -/

def Call.isFlushFail (a : Call V) : Bool :=
  match a with
  | .flushFail _ => true
  | _ => false

/-- The largest timestamp that may be in the store when every flush succeeded. -/
def Engine.horizon (e : Engine V) : Nat :=
  match e.phase with
  | .publishing c => c.commitTS
  | _ => e.clock

theorem horizon_step (hclk : Clocked clock₀ s)
    (h : ∀ v ∈ s.eng.store, v.ts ≤ s.eng.horizon) (hok : a.isFlushFail = false)
    (hstep : s.step a = some s') : ∀ v ∈ s'.eng.store, v.ts ≤ s'.eng.horizon := by
  cases step_outcome hstep with
  | unchanged | begun | txn hT hown hread => exact h
  | reserved hT hidle hdone hcheck =>
    intro v hv
    have := h v hv
    unfold Engine.horizon at this
    rw [hidle] at this
    exact this
  | @flushed c hphase =>
    intro v hv
    have hts := hclk.reserved c (by rw [hphase]; rfl)
    rcases Versions.mem_writeBatch hv with hv | hv
    · have := h v hv
      unfold Engine.horizon at this
      rw [hphase] at this
      exact Nat.le_trans this (by simp only [Engine.horizon]; omega)
    · exact Nat.le_of_eq hv
  | failed hphase => exact absurd hok (by simp [Call.isFlushFail])
  | @published c hphase =>
    intro v hv
    have := h v hv
    unfold Engine.horizon at this
    rw [hphase] at this
    exact this

theorem covers_of_horizon (hclk : Clocked clock₀ s)
    (h : ∀ v ∈ s.eng.store, v.ts ≤ s.eng.horizon) (a : Call V) : coversLeftovers s a = true := by
  unfold coversLeftovers
  split
  · split
    · rename_i c hphase
      have hts := hclk.reserved c (by rw [hphase]; rfl)
      rw [all_eq_true]
      intro v hv
      have := h v hv
      unfold Engine.horizon at this
      rw [hphase] at this
      have hne : v.ts ≠ c.commitTS := by
        dsimp only at this
        omega
      simp [hne]
    · rfl
  · rfl

theorem horizon_new (store : Store V) : ∀ v ∈ (Sys.new store).eng.store, v.ts ≤ (Sys.new store).eng.horizon := by
  intro v hv
  have := Versions.ts_le_maxVersion hv
  simp only [Sys.new, Engine.new, Engine.horizon] at this ⊢
  split <;> omega

theorem reach_covers (h : Reach Sys.step (fun _ a => a.isFlushFail = false) (Sys.new store) s) :
    Reach Sys.step (fun s a => coversLeftovers s a = true) (Sys.new store) s := by
  let I := fun s : Sys V => Clocked (Engine.new store).clock s ∧ ∀ v ∈ s.eng.store, v.ts ≤ s.eng.horizon
  refine h.weaken (I := I) ⟨clocked_new store, horizon_new store⟩ ?_ ?_
  · rintro s a s' ⟨hclk, hh⟩ hok hstep
    exact ⟨clocked_step hclk hstep, horizon_step hclk hh hok hstep⟩
  · rintro s a s' ⟨hclk, hh⟩ hok hstep
    exact covers_of_horizon hclk hh a

theorem seen_stable {ok : Sys V → Call V → Prop}
    (hclk : Clocked clock₀ s) (h : Reach Sys.step ok s s') {t : Nat} {T : Txn V} (hT : s.eng.txns[t]? = some T) :
    s'.seen[t]? = s.seen[t]? ∧ ∀ n, s.seen[t]? = some n → s'.hist.take n = s.hist.take n := by
  obtain ⟨⟨new, hnew⟩, ⟨more, hmore⟩⟩ := history_grows h
  obtain ⟨n, hn, hle, -⟩ := hclk.readUint_eq hT
  refine ⟨?_, ?_⟩
  · rw [← hmore, getElem?_append_left (List.getElem?_eq_some_iff.mp hn).1]
  · intro n' hn'
    cases hn.symm.trans hn'
    rw [← hnew, take_append_of_le_length hle]

/-! ## What was buffered -/

/-- What the calls of a run buffered for a transaction. -/
def buffered (t : Nat) (calls : List (Call V)) : List (Mut V) := calls.flatMap (Call.buffers t)

/-- The engine has of every transaction what its client buffered, up to now while it is live, and up to the
Commit call in the batch of a commit. -/
structure Recorded (calls : List (Call V)) (s : Sys V) : Prop where
  fresh : ∀ t, s.eng.txns.length ≤ t → buffered t calls = []
  live : ∀ (t : Nat) T, s.eng.txns[t]? = some T → T.done = false → T.mutations = buffered t calls
  batches : ∀ c, s.eng.phase.commit? = some c ∨ c ∈ s.hist → ∃ before fault after,
    calls = before ++ .commit c.txn fault :: after ∧ c.batch = buffered c.txn before

variable {calls : List (Call V)} {t : Nat}

theorem buffered_concat (t : Nat) (calls : List (Call V)) (a : Call V) :
    buffered t (calls ++ [a]) = buffered t calls ++ a.buffers t := by simp [buffered]

theorem buffers_unknown (hstep : s.step a = some s') (ht : s.eng.txns.length ≤ t) : a.buffers t = [] := by
  obtain ⟨r, hr, -⟩ := Option.map_eq_some_iff.mp hstep
  cases a with
  | buffer u m =>
    obtain ⟨-, hr⟩ := Option.ite_none_left_eq_some.mp hr
    obtain ⟨U, hU, -⟩ := Option.map_eq_some_iff.mp hr
    exact if_neg fun h => absurd (List.getElem?_eq_some_iff.mp hU).1 (by omega)
  | begin | rollback u | commit u fault | flush | flushFail persisted | publish => rfl

theorem recorded_step (h : Recorded calls s) (hstep : s.step a = some s') : Recorded (calls ++ [a]) s' := by
  have hgrow : s.eng.txns.length ≤ s'.eng.txns.length := by
    cases step_outcome hstep with
    | unchanged | flushed hphase | failed hphase | published hphase => exact le_rfl
    | begun => simp
    | txn hT hown hread | reserved hT hidle hdone hcheck => simp [Engine.setTxn]
  have hlonger : ∀ c, s.eng.phase.commit? = some c ∨ c ∈ s.hist → ∃ before fault after,
      calls ++ [a] = before ++ .commit c.txn fault :: after ∧ c.batch = buffered c.txn before := by
    intro c hc
    obtain ⟨before, fault, after, hcalls, hbatch⟩ := h.batches c hc
    exact ⟨before, fault, after ++ [a], by simp [hcalls], hbatch⟩
  refine ⟨fun t ht => ?_, fun t T' hT' hlive => ?_, ?_⟩
  · rw [buffered_concat, h.fresh t (hgrow.trans ht), buffers_unknown hstep (hgrow.trans ht), append_nil]
  · rw [buffered_concat]
    rcases step_txns_length hstep hT' with hlt | ⟨rfl, rfl⟩
    · obtain ⟨T1, hT1, hkind⟩ := step_txn hstep (getElem?_eq_getElem hlt)
      cases hT1.symm.trans hT'
      cases hkind with
      | same hc => rw [hc, append_nil, h.live t _ (getElem?_eq_getElem hlt) hlive]
      | buffered => rw [h.live t _ (getElem?_eq_getElem hlt) hlive, Call.buffers, if_pos rfl]
      | closed hdone => cases hlive.symm.trans hdone
    · rw [h.fresh _ le_rfl, buffers_unknown hstep le_rfl]
      rfl
  · cases step_outcome hstep with
    | unchanged | begun | txn hT hown hread => exact hlonger
    | @reserved t fault T hT hidle hdone hcheck =>
      rintro c (hc | hc)
      · cases hc
        exact ⟨calls, fault, [], rfl, h.live t T hT hdone⟩
      · exact hlonger c (.inr hc)
    | @flushed c hphase => exact fun c' hc' => hlonger c' (hc'.imp_left fun hc' => by rw [hphase]; exact hc')
    | failed hphase => exact fun c' hc' => hlonger c' (hc'.imp_left fun hc' => by cases hc')
    | @published c hphase =>
      rintro c' (hc' | hc')
      · cases hc'
      · rcases mem_append.mp hc' with hc' | hc'
        · exact hlonger c' (.inr hc')
        · exact hlonger c' (.inl (by rw [hphase, mem_singleton.mp hc']; rfl))

theorem recorded_of_run {ok : Sys V → Call V → Prop} [∀ s a, Decidable (ok s a)]
    (h : runAll Sys.step ok (Sys.new store) calls = some s) : Recorded calls s := by
  refine runAll_inv h ⟨fun _ _ => rfl, fun t T hT => ?_, ?_⟩ fun _ _ _ _ hr hstep => recorded_step hr hstep
  · simp [Sys.new, Engine.new] at hT
  · rintro c (hc | hc)
    · cases hc
    · cases hc

/-- A Commit that returns nil at once has nothing to write. -/
theorem Recorded.empty (h : Recorded calls s) {fault : Bytes → Bool} {e : Engine V}
    (hstep : s.eng.step (.commit t fault) = some (e, .ok)) : buffered t calls = [] := by
  obtain ⟨-, hr⟩ := Option.ite_none_left_eq_some.mp hstep
  obtain ⟨T, hT, hr⟩ := Option.bind_eq_some_iff.mp hr
  unfold Engine.startCommit at hr
  split at hr
  · cases hr
  · rename_i hdone
    split at hr
    · rename_i hempty
      rw [← h.live t T hT (by simpa using hdone)]
      exact isEmpty_iff.mp hempty
    · split at hr
      · split at hr <;> cases hr
      · cases hr

/-- Snapshot reads: every read answers from the commits finished before the transaction's
Begin overlaid with its buffer, and no later step of the run changes the answer. The commits and the buffers
are what the calls of the run buffered. -/
theorem snapshot_reads (store : Store V) (calls : List (Call V)) (s : Sys V)
    (h : runAll Sys.step (fun _ a => a.isFlushFail = false) (Sys.new store) calls = some s) :
    (Recorded calls s ∧ ∀ t fault e, s.eng.step (.commit t fault) = some (e, .ok) → buffered t calls = []) ∧
    ReadsCommitted (baseOf store) s ∧
    ∀ s', Reach Sys.step (fun _ a => a.isFlushFail = false) s s' →
      ∀ (t : Nat) (T T' : Txn V), s.eng.txns[t]? = some T → s'.eng.txns[t]? = some T' →
        T'.mutations = T.mutations → T'.done = T.done → (∀ k, s'.eng.get T' k = s.eng.get T k) ∧
        ∀ pre, s'.eng.iterate T' pre = s.eng.iterate T pre := by
  have hrec := recorded_of_run h
  replace h := reach_of_runAll calls h
  refine ⟨⟨hrec, fun _ _ _ => hrec.empty⟩, readsCommitted_of_reach (reach_covers h), ?_⟩
  intro s' h' t T T' hT hT' hmut hdone
  obtain ⟨n, hn, hget, hit⟩ := readsCommitted_of_reach (reach_covers h) t T hT
  obtain ⟨n', hn', hget', hit'⟩ := readsCommitted_of_reach (reach_covers (h.trans h')) t T' hT'
  obtain ⟨hseen, hhist⟩ := seen_stable (clocked_of_reach h) h' hT
  obtain rfl : n = n' := Option.some.inj (hn.symm.trans (hseen.symm.trans hn'))
  rw [hhist n hn, hmut] at hget' hit'
  refine ⟨?_, fun pre => (hit' pre).trans (hit pre).symm⟩
  intro k
  cases hd : T.done with
  | true => simp [Engine.get, hdone, hd]
  | false => rw [hget' (hdone.trans hd) k, hget hd k]

/-- Transaction 1 begins before the commit of transaction 0 and reads its key after it. -/
theorem snapshot_reads_concurrent : ∃ s : Sys Bytes, (∃ c, s.hist = [c] ∧ c.batch = [⟨str "k", str "v", false⟩]) ∧
    ReadsCommitted (baseOf []) s := by
  have h := snapshot_reads [] ([.begin, .begin] ++ commitOne 0 ⟨str "k", str "v", false⟩ ++
    [.buffer 1 ⟨str "j", str "w", false⟩]) _ rfl
  exact ⟨_, ⟨_, rfl, rfl⟩, h.2.1⟩

/-! ## Restart -/

open Versions

/-- The commit that a crash finds flushed and not yet published. -/
def Phase.flushed : Phase V → List (Commit V)
  | .publishing c => [c]
  | _ => []

theorem Phase.commit?_flushed {p : Phase V} {c : Commit V} (h : c ∈ p.flushed) : p.commit? = some c := by
  cases p with
  | publishing c' => rw [mem_singleton.mp h]; rfl
  | idle | flushing c' => cases h

/-- An engine opened on the store that any run leaves behind has its finished commits and the flushed one, each with what
was buffered for it. -/
theorem restart_recovers (store : Store V) (calls : List (Call V)) (s : Sys V)
    (h : runAll Sys.step (fun _ a => a.isFlushFail = false) (Sys.new store) calls = some s) :
    baseOf s.eng.store = committed (baseOf store) (s.hist ++ s.eng.phase.flushed) ∧
      ∀ c ∈ s.hist ++ s.eng.phase.flushed, ∃ before fault after,
        calls = before ++ .commit c.txn fault :: after ∧ c.batch = buffered c.txn before := by
  have hrec := recorded_of_run h
  replace h := reach_of_runAll calls h
  refine ⟨?_, fun c hc => hrec.batches c ((mem_append.mp hc).symm.imp_left Phase.commit?_flushed)⟩
  let I := fun s : Sys V => Clocked (Engine.new store).clock s ∧ Refines (Engine.new store).clock (baseOf store) s ∧
    ∀ v ∈ s.eng.store, v.ts ≤ s.eng.horizon
  obtain ⟨hclk, hr, hh⟩ : I s := by
    refine h.inv ⟨clocked_new store, refines_new store, horizon_new store⟩ ?_
    rintro s a s' ⟨hclk, hr, hh⟩ hok hstep
    exact ⟨clocked_step hclk hstep, refines_step hclk hr (covers_of_horizon hclk hh a) hstep, horizon_step hclk hh hok hstep⟩
  -- above the largest timestamp every read is the same
  have hview : baseOf s.eng.store = s.eng.store.view s.eng.horizon := by
    refine OrdMap.ext_lookup fun k => ?_
    have hnew : s.eng.store.maxVersion ≤ (Engine.new s.eng.store).clock := by
      simp only [Engine.new]
      split <;> omega
    rw [baseOf, lookup_view, lookup_view, Versions.read, Versions.read,
      newestLe_of_maxVersion_le _ k hnew, newestLe_of_maxVersion_le _ k (maxVersion_le hh)]
  have hidle := hr.views s.hist.length le_rfl
  rw [take_length, ← hclk.clock, ← append_nil s.hist] at hidle
  rw [hview]
  unfold Engine.horizon
  cases hphase : s.eng.phase with
  | idle | flushing c => exact hidle
  | publishing c =>
    rw [Phase.flushed, committed_concat, ← hr.flushed c hphase, ← hclk.reserved c (by rw [hphase]; rfl)]

/-- A crash between the flush and its publication. -/
theorem restart_recovers_flushed : ∃ s : Sys Bytes, s.hist = [] ∧ (baseOf s.eng.store).entries = [(str "k", str "v")] := by
  have h := restart_recovers [] [.begin, .buffer 0 ⟨str "k", str "v", false⟩, .commit 0 fun _ => false, .flush] _ rfl
  exact ⟨_, rfl, by rw [h.1]; rfl⟩

end BasuyuDb.Transactions
