import BasuyuDb.Executor.Sequences

/-
  Serial defaults of one sequence. The counter is a key of the store that every draw reads and
  writes in its transaction. While nothing else writes the key, its versions rise with the
  timestamps, the draws of a transaction lie above what its snapshot has and at or below what it
  leaves, and the conflict check puts the snapshot of a commit after every earlier commit that drew.
  So the draws of committed transactions are distinct. Failed flushes are included.
-/

namespace BasuyuDb.Executor
open KvLib Storage Transactions Auth List Option

/-- What `nextSequenceVal` reads of a counter. -/
def counterOf : Option Val → Int
  | some (.text raw) => (parseInt raw).getD 0
  | _ => 0

/-- What a transaction on a snapshot sees of a key. -/
def seenAt (store : Store Val) (k : Bytes) (r : Nat) (ms : List (Mut Val)) : Option Val :=
  (lastEffect ms k).getD (store.read k r)

/-! ## The store -/

/-- From the start on, the counter never falls, is never deleted and stays below a bound. -/
structure Rising (k : Bytes) (clock₀ : Nat) (top : Int) (store : Store Val) : Prop where
  mono : ∀ r r', clock₀ ≤ r → r ≤ r' → counterOf (store.read k r) ≤ counterOf (store.read k r')
  le : ∀ r, clock₀ ≤ r → counterOf (store.read k r) ≤ top
  kept : ∀ ts, clock₀ < ts → store.cell k ts ≠ some none

section store
variable {k : Bytes} {clock₀ clock r : Nat} {top : Int} {store : Store Val} {ms : List (Mut Val)}

theorem read_of_newest (hnew : ∀ ts, store.cell k ts ≠ none → ts ≤ r) {r' : Nat} (h : r ≤ r') :
    store.read k r' = store.read k r := by
  rcases Versions.read_later store k h with heq | ⟨t, hlt, -, hcell⟩
  · exact heq
  · have := hnew t (by rw [hcell]; simp)
    omega

theorem read_writeBatch_after (hnew : (∃ m ∈ ms, m.key = k) → ∀ ts, store.cell k ts ≠ none → ts ≤ clock)
    {r' : Nat} (h : clock < r') :
    (store.writeBatch (clock + 1) ms).read k r' = (lastEffect ms k).getD (store.read k r') := by
  cases hlast : lastEffect ms k with
  | none =>
    have hcell : ∀ t, (store.writeBatch (clock + 1) ms).cell k t = store.cell k t := by
      intro t
      rw [Versions.cell_writeBatch, hlast]
      simp
    unfold Versions.read
    rw [Versions.newestLe_congr fun t _ => hcell t]
    rfl
  | some e =>
    obtain ⟨m, hm, hkey, -⟩ := lastEffect_mem hlast
    have hnone : ∀ t, clock + 1 < t → t ≤ r' → (store.writeBatch (clock + 1) ms).cell k t = none := by
      intro t ht _
      rw [Versions.cell_writeBatch_ne _ _ _ (by omega)]
      by_contra hcell
      have := hnew ⟨m, hm, hkey⟩ t hcell
      omega
    have hself := Versions.read_writeBatch_self store clock ms k
    rw [hlast] at hself
    unfold Versions.read at hself ⊢
    rw [Versions.newestLe_eq h hnone]
    exact hself

/-- A flush, whole or in part, of writes that do not go below the snapshot they passed the check
on. -/
theorem Rising.write (h : Rising k clock₀ top store) (hr : r ≤ clock)
    (hms : ∀ m ∈ ms, m.key = k → m.delete = false ∧ counterOf (store.read k r) ≤ counterOf m.effect ∧
      counterOf m.effect ≤ top) (hnew : (∃ m ∈ ms, m.key = k) → ∀ ts, store.cell k ts ≠ none → ts ≤ r) :
    Rising k clock₀ top (store.writeBatch (clock + 1) ms) := by
  have hlow : ∀ r', r' ≤ clock → (store.writeBatch (clock + 1) ms).read k r' = store.read k r' :=
    fun r' hr' => Versions.read_writeBatch_lt _ _ _ (by omega)
  have hhigh : ∀ r', clock < r' →
      (store.writeBatch (clock + 1) ms).read k r' = (lastEffect ms k).getD (store.read k r') :=
    fun r' hr' => read_writeBatch_after (fun hm ts hts => Nat.le_trans (hnew hm ts hts) hr) hr'
  cases hlast : lastEffect ms k with
  | none =>
    have hsame : ∀ r', (store.writeBatch (clock + 1) ms).read k r' = store.read k r' := by
      intro r'
      rcases Nat.lt_or_ge clock r' with hlt | hge
      · rw [hhigh r' hlt, hlast]
        rfl
      · exact hlow r' hge
    refine ⟨by simpa only [hsame] using h.mono, by simpa only [hsame] using h.le, fun ts hts => ?_⟩
    rw [Versions.cell_writeBatch, hlast]
    simpa using h.kept ts hts
  | some e =>
    obtain ⟨m, hm, hkey, rfl⟩ := lastEffect_mem hlast
    obtain ⟨hdel, hbase, htop⟩ := hms m hm hkey
    have hbelow : ∀ r', clock₀ ≤ r' → counterOf (store.read k r') ≤ counterOf m.effect := by
      intro r' h1
      rcases Nat.lt_or_ge r r' with hlt | hge
      · rw [read_of_newest (hnew ⟨m, hm, hkey⟩) (Nat.le_of_lt hlt)]
        exact hbase
      · exact Int.le_trans (h.mono r' r h1 hge) hbase
    refine ⟨?_, ?_, ?_⟩
    · intro r1 r2 h1 h2
      rcases Nat.lt_or_ge clock r2 with hlt | hge
      · rw [hhigh r2 hlt, hlast]
        rcases Nat.lt_or_ge clock r1 with hlt1 | hge1
        · rw [hhigh r1 hlt1, hlast]
          exact Int.le_refl _
        · rw [hlow r1 hge1]
          exact hbelow r1 h1
      · rw [hlow r1 (Nat.le_trans h2 hge), hlow r2 hge]
        exact h.mono r1 r2 h1 h2
    · intro r1 h1
      rcases Nat.lt_or_ge clock r1 with hlt1 | hge1
      · rw [hhigh r1 hlt1, hlast]
        exact htop
      · rw [hlow r1 hge1]
        exact h.le r1 h1
    · intro ts hts
      rw [Versions.cell_writeBatch, hlast]
      split
      · simp [Mutation.effect, hdel]
      · exact h.kept ts hts

theorem Rising.not_deleted (h : Rising k clock₀ top store) (h0 : clock₀ ≤ r) : deletedSince store r k = false := by
  unfold deletedSince
  split
  · rename_i t hnewest
    rw [decide_eq_false_iff_not]
    intro hlt
    exact h.kept t (Nat.lt_of_le_of_lt h0 hlt) (Versions.newestLe_some hnewest).2.1
  · rfl

end store

/-! ## The draws of a transaction -/

/-- The writes and the draws of a transaction lie between its snapshot and what it leaves. -/
structure Drew (store : Store Val) (k : Bytes) (top : Int) (log : List (Nat × Int)) (t r : Nat)
    (ms : List (Mut Val)) : Prop where
  writes : ∀ m ∈ ms, m.key = k → m.delete = false ∧ counterOf (store.read k r) ≤ counterOf m.effect ∧
    counterOf m.effect ≤ counterOf (seenAt store k r ms)
  low : counterOf (store.read k r) ≤ counterOf (seenAt store k r ms)
  drawn : ∀ v, (t, v) ∈ log → counterOf (store.read k r) < v ∧ v ≤ counterOf (seenAt store k r ms) ∧
    ∃ m ∈ ms, m.key = k
  le : counterOf (seenAt store k r ms) ≤ top

section drew
variable {store store' : Store Val} {k : Bytes} {top top' : Int} {log : List (Nat × Int)} {t r : Nat}
  {ms : List (Mut Val)} {m : Mut Val}

theorem Drew.congr (h : Drew store k top log t r ms) (hread : store'.read k r = store.read k r) :
    Drew store' k top log t r ms := by
  have hseen : seenAt store' k r ms = seenAt store k r ms := by
    unfold seenAt
    rw [hread]
  obtain ⟨h1, h2, h3, h4⟩ := h
  constructor
  · rwa [hread, hseen]
  · rwa [hread, hseen]
  · rwa [hread, hseen]
  · rwa [hseen]

theorem Drew.nil (hlog : ∀ v, (t, v) ∉ log) (htop : counterOf (store.read k r) ≤ top) :
    Drew store k top log t r [] where
  writes := fun _ hm => absurd hm not_mem_nil
  low := Int.le_refl _
  drawn := fun v hv => absurd hv (hlog v)
  le := htop

variable (store r ms) in
theorem seenAt_concat (hkey : m.key = k) : seenAt store k r (ms ++ [m]) = m.effect := by
  unfold seenAt
  rw [lastEffect_append, lastEffect_single, if_pos hkey.symm]
  rfl

variable (store r ms) in
theorem seenAt_concat_ne (hkey : m.key ≠ k) : seenAt store k r (ms ++ [m]) = seenAt store k r ms := by
  unfold seenAt
  rw [lastEffect_append, lastEffect_single, if_neg (Ne.symm hkey)]
  rfl

variable (h : Drew store k top log t r ms)
include h

theorem Drew.other (hkey : m.key ≠ k) : Drew store k top log t r (ms ++ [m]) := by
  have hseen := seenAt_concat_ne store r ms hkey
  refine ⟨?_, hseen ▸ h.low, ?_, hseen ▸ h.le⟩
  · intro x hx hxk
    rcases mem_append.mp hx with hx | hx
    · rw [hseen]
      exact h.writes x hx hxk
    · obtain rfl := mem_singleton.mp hx
      exact absurd hxk hkey
  · intro v hv
    obtain ⟨h1, h2, x, hx, hxk⟩ := h.drawn v hv
    rw [hseen]
    exact ⟨h1, h2, x, mem_append_left _ hx, hxk⟩

theorem Drew.write (hkey : m.key = k) (hdel : m.delete = false)
    (hup : counterOf (seenAt store k r ms) ≤ counterOf m.effect) (htop : counterOf m.effect ≤ top') :
    Drew store k top' log t r (ms ++ [m]) := by
  have hseen := seenAt_concat store r ms hkey
  have hlow : counterOf (store.read k r) ≤ counterOf m.effect := Int.le_trans h.low hup
  constructor
  · intro x hx hxk
    rw [hseen]
    rcases mem_append.mp hx with hx | hx
    · obtain ⟨h1, h2, h3⟩ := h.writes x hx hxk
      exact ⟨h1, h2, Int.le_trans h3 hup⟩
    · obtain rfl := mem_singleton.mp hx
      exact ⟨hdel, hlow, Int.le_refl _⟩
  · rw [hseen]
    exact hlow
  · intro v hv
    obtain ⟨h1, h2, -⟩ := h.drawn v hv
    rw [hseen]
    exact ⟨h1, Int.le_trans h2 hup, m, mem_append_right _ mem_cons_self, hkey⟩
  · rw [hseen]
    exact htop

theorem Drew.log_other {u : Nat} (hu : u ≠ t) (v : Int) (htop : top ≤ top') :
    Drew store k top' (log ++ [(u, v)]) t r ms := by
  refine ⟨h.writes, h.low, ?_, Int.le_trans h.le htop⟩
  intro w hw
  rcases mem_append.mp hw with hw | hw
  · exact h.drawn w hw
  · exact absurd (congrArg Prod.fst (mem_singleton.mp hw)).symm hu

theorem Drew.draw {v : Int} (hkey : m.key = k) (hdel : m.delete = false)
    (hv : counterOf m.effect = v) (hnext : v = counterOf (seenAt store k r ms) + 1) (htop : v ≤ top') :
    Drew store k top' (log ++ [(t, v)]) t r (ms ++ [m]) := by
  have hlow := h.low
  have hwrite : Drew store k top' log t r (ms ++ [m]) := h.write hkey hdel (by omega) (by omega)
  refine ⟨hwrite.writes, hwrite.low, ?_, hwrite.le⟩
  intro w hw
  rcases mem_append.mp hw with hw | hw
  · exact hwrite.drawn w hw
  · obtain rfl : w = v := congrArg Prod.snd (mem_singleton.mp hw)
    refine ⟨by omega, ?_, m, mem_append_right _ mem_cons_self, hkey⟩
    rw [seenAt_concat store r ms hkey, hv]

end drew

/-! ## The engine -/

/-- A commit in progress or finished: its transaction is closed, and it drew as it was to. -/
structure Sealed (k : Bytes) (clock₀ : Nat) (top : Int) (log : List (Nat × Int)) (s : Sys Val)
    (c : Commit Val) : Prop where
  drew : Drew s.eng.store k top log c.txn c.readUint c.batch
  start : clock₀ ≤ c.readUint
  clock : c.readUint ≤ s.eng.clock
  done : ∃ T, s.eng.txns[c.txn]? = some T ∧ T.done = true

/-- `log` lists the draws with their transactions. -/
structure Drawn (k : Bytes) (clock₀ : Nat) (top : Int) (log : List (Nat × Int)) (s : Sys Val) : Prop where
  clocked : Clocked clock₀ s
  rising : Rising k clock₀ top s.eng.store
  opened : ∀ t T, s.eng.txns[t]? = some T → T.done = false → Drew s.eng.store k top log t T.readUint T.mutations
  commits : ∀ c, s.eng.phase.commit? = some c ∨ c ∈ s.hist → Sealed k clock₀ top log s c
  newest : ∀ c, s.eng.phase = .flushing c → k ∈ c.keys → ∀ ts, s.eng.store.cell k ts ≠ none → ts ≤ c.readUint
  written : ∀ c, s.eng.phase = .publishing c ∨ c ∈ s.hist → k ∈ c.keys → s.eng.store.cell k c.commitTS ≠ none ∧
      counterOf (s.eng.store.read k c.commitTS) = counterOf (seenAt s.eng.store k c.readUint c.batch)
  pending : ∀ c, s.eng.phase.commit? = some c → ∀ u ∈ s.hist, k ∈ u.keys → k ∈ c.keys → u.commitTS ≤ c.readUint
  ordered : s.hist.Pairwise (fun u c => k ∈ u.keys → k ∈ c.keys → u.commitTS ≤ c.readUint)
  known : ∀ p ∈ log, p.1 < s.eng.txns.length
  increasing : log.Pairwise fun p q => p.1 = q.1 → p.2 < q.2

section engine
variable {k : Bytes} {clock₀ : Nat} {top : Int} {log : List (Nat × Int)} {s s' : Sys Val} {a : Transactions.Call Val}

theorem step_snapshot (hclk : Clocked clock₀ s) (hstep : s.step a = some s') (k : Bytes) {r : Nat}
    (hr : r ≤ s.eng.clock) : s'.eng.store.read k r = s.eng.store.read k r ∧ s.eng.clock ≤ s'.eng.clock := by
  cases step_outcome hstep with
  | unchanged | begun | txn hT hown hread | reserved hT hidle hdone hcheck => exact ⟨rfl, le_rfl⟩
  | @flushed c hphase | @failed c persisted hphase =>
    have := hclk.reserved c (by rw [hphase]; rfl)
    exact ⟨Versions.read_writeBatch_lt _ _ _ (by omega), le_rfl⟩
  | @published c hphase =>
    have := hclk.reserved c (by rw [hphase]; rfl)
    exact ⟨rfl, by dsimp only; omega⟩

variable {c : Commit Val} {t : Nat} {ms : List (Mut Val)}

theorem Sealed.step (h : Sealed k clock₀ top log s c) (hclk : Clocked clock₀ s) (hstep : s.step a = some s') :
    Sealed k clock₀ top log s' c := by
  obtain ⟨hread, hmono⟩ := step_snapshot hclk hstep k h.clock
  obtain ⟨T, hT, hdone⟩ := h.done
  obtain ⟨T', hT', hstepT⟩ := step_txn hstep hT
  exact ⟨h.drew.congr hread, h.start, Nat.le_trans h.clock hmono, T', hT', hstepT.done hdone⟩

theorem mem_keys (hms : ms ⊆ c.batch) (h : ∃ m ∈ ms, m.key = k) : k ∈ c.keys := by
  obtain ⟨m, hm, rfl⟩ := h
  exact List.mem_map_of_mem (hms hm)

section
variable (h : Drawn k clock₀ top log s)
include h

theorem Drawn.step_opened (hstep : s.step a = some s')
    (hbuf : ∀ t m T, a = .buffer t m → s.eng.txns[t]? = some T → T.done = false →
      Drew s.eng.store k top log t T.readUint (T.mutations ++ [m]))
    {T' : Txn Val} (hT' : s'.eng.txns[t]? = some T') (hopen : T'.done = false) :
    Drew s'.eng.store k top log t T'.readUint T'.mutations := by
  rcases step_txns_length hstep hT' with hlt | ⟨rfl, rfl⟩
  · obtain ⟨T, hT⟩ : ∃ T, s.eng.txns[t]? = some T := ⟨_, getElem?_eq_getElem hlt⟩
    obtain ⟨T1, hT1, hstepT⟩ := step_txn hstep hT
    obtain rfl := some.inj (hT1.symm.trans hT')
    have hread := (step_snapshot h.clocked hstep k (h.clocked.snapshot hT).2).1
    cases hstepT with
    | same hc => exact (h.opened t T hT hopen).congr hread
    | buffered => exact (hbuf t _ T rfl hT hopen).congr hread
    | closed hdone => cases hopen.symm.trans hdone
  · have hread := (step_snapshot h.clocked hstep k le_rfl).1
    refine (Drew.nil ?_ (h.rising.le _ ?_)).congr hread
    · intro v hv
      exact absurd (h.known _ hv) (Nat.lt_irrefl _)
    · have := h.clocked.clock
      dsimp only
      omega

theorem Drawn.flush (hphase : s.eng.phase = .flushing c) (hms : ms ⊆ c.batch) :
    Rising k clock₀ top (s.eng.store.writeBatch c.commitTS ms) := by
  have hseal := h.commits c (.inl (by rw [hphase]; rfl))
  rw [h.clocked.reserved c (by rw [hphase]; rfl)]
  refine h.rising.write hseal.clock (fun m hm hkey => ?_) fun hm => h.newest c hphase (mem_keys hms hm)
  obtain ⟨h1, h2, h3⟩ := hseal.drew.writes m (hms hm) hkey
  exact ⟨h1, h2, Int.le_trans h3 hseal.drew.le⟩

theorem Drawn.written_flush (hphase : s.eng.phase = .flushing c)
    (ms : List (Mut Val)) {u : Commit Val} (hu : u ∈ s.hist) (hk : k ∈ u.keys) :
    (s.eng.store.writeBatch c.commitTS ms).cell k u.commitTS ≠ none ∧
      counterOf ((s.eng.store.writeBatch c.commitTS ms).read k u.commitTS) =
        counterOf (seenAt (s.eng.store.writeBatch c.commitTS ms) k u.readUint u.batch) := by
  have hts := h.clocked.reserved c (by rw [hphase]; rfl)
  have hle := h.clocked.commitTS_le hu
  have hclock := (h.commits u (.inr hu)).clock
  unfold seenAt
  rw [Versions.cell_writeBatch_ne _ _ _ (by omega), Versions.read_writeBatch_lt _ _ _ (by omega),
    Versions.read_writeBatch_lt _ _ _ (by omega)]
  exact h.written u (.inr hu) hk

theorem Drawn.step (hstep : s.step a = some s')
    (hbuf : ∀ t m T, a = .buffer t m → s.eng.txns[t]? = some T → T.done = false →
      Drew s.eng.store k top log t T.readUint (T.mutations ++ [m])) : Drawn k clock₀ top log s' := by
  have hopened : ∀ t T', s'.eng.txns[t]? = some T' → T'.done = false →
      Drew s'.eng.store k top log t T'.readUint T'.mutations :=
    fun _ _ hT' hopen => h.step_opened hstep hbuf hT' hopen
  have hseal := fun c hc => (h.commits c hc).step h.clocked hstep
  have hclocked := clocked_step h.clocked hstep
  have hknown : ∀ p ∈ log, p.1 < s'.eng.txns.length := by
    intro p hp
    obtain ⟨T', hT', -⟩ := step_txn hstep (getElem?_eq_getElem (h.known p hp))
    exact (List.getElem?_eq_some_iff.mp hT').1
  cases step_outcome hstep with
  | unchanged => exact h
  | begun => exact ⟨hclocked, h.rising, hopened, hseal, h.newest, h.written, h.pending, h.ordered, hknown, h.increasing⟩
  | txn hT hown hread =>
    exact ⟨hclocked, h.rising, hopened, hseal, h.newest, h.written, h.pending, h.ordered, hknown, h.increasing⟩
  | @reserved t fault T hT hidle hdone hcheck =>
    have hsnap := h.clocked.snapshot hT
    have hnewest : k ∈ T.mutations.map Mutation.key → ∀ ts, s.eng.store.cell k ts ≠ none → ts ≤ T.readUint := by
      intro hk ts hts
      obtain ⟨m, hm, rfl⟩ := List.mem_map.mp hk
      exact cell_le_of_pass hcheck hm (h.rising.not_deleted hsnap.1) hts
    refine ⟨hclocked, h.rising, hopened, ?_, ?_, ?_, ?_, h.ordered, hknown, h.increasing⟩
    · rintro c (hc | hc)
      · cases hc
        obtain ⟨T', hT', hstepT⟩ := step_txn hstep hT
        refine ⟨h.opened t T hT hdone, hsnap.1, hsnap.2, T', hT', ?_⟩
        have hset : (s.eng.txns.set t { T with done := true })[t]? = some T' := hT'
        rw [getElem?_set_self (List.getElem?_eq_some_iff.mp hT).1] at hset
        rw [← some.inj hset]
      · exact hseal c (.inr hc)
    · intro c hc hk
      obtain rfl := Phase.flushing.inj hc
      exact hnewest hk
    · rintro c (hc | hc) hk
      · cases hc
      · exact h.written c (.inr hc) hk
    · intro c hc u hu hku hk
      cases hc
      exact hnewest hk _ (h.written u (.inr hu) hku).1
  | @flushed c hphase =>
    have hcommit : s.eng.phase.commit? = some c := by rw [hphase]; rfl
    have hts := h.clocked.reserved c hcommit
    refine ⟨hclocked, h.flush hphase (List.Subset.refl _), hopened, ?_, ?_, ?_, ?_, h.ordered, hknown, h.increasing⟩
    · rintro c' (hc' | hc')
      · exact hseal c' (.inl (hcommit.trans hc'))
      · exact hseal c' (.inr hc')
    · intro c' hc'
      cases hc'
    · rintro c' (hc' | hc') hk
      · obtain rfl := Phase.publishing.inj hc'
        obtain ⟨m, hm, hkey⟩ := List.mem_map.mp hk
        obtain ⟨e, he⟩ := lastEffect_of_mem hm
        rw [hkey] at he
        have hread := Versions.read_writeBatch_self s.eng.store s.eng.clock c.batch k
        unfold seenAt
        rw [Versions.cell_writeBatch, if_pos rfl, he, hts, hread, he]
        exact ⟨by simp, rfl⟩
      · exact h.written_flush hphase c.batch hc' hk
    · intro c' hc' u hu
      exact h.pending c' (hcommit.trans hc') u hu
  | @failed c persisted hphase =>
    refine ⟨hclocked, h.flush hphase (masked_subset _ _), hopened, ?_, ?_, ?_, ?_, h.ordered, hknown, h.increasing⟩
    · rintro c' (hc' | hc')
      · cases hc'
      · exact hseal c' (.inr hc')
    · intro c' hc'
      cases hc'
    · rintro c' (hc' | hc') hk
      · cases hc'
      · exact h.written_flush hphase _ hc' hk
    · intro c' hc'
      cases hc'
  | @published c hphase =>
    have hcommit : s.eng.phase.commit? = some c := by rw [hphase]; rfl
    have hmem : ∀ c', c' ∈ s.hist ++ [c] → c' ∈ s.hist ∨ c' = c := by
      intro c' hc'
      rcases mem_append.mp hc' with hc' | hc'
      · exact .inl hc'
      · exact .inr (mem_singleton.mp hc')
    refine ⟨hclocked, h.rising, hopened, ?_, ?_, ?_, ?_, ?_, hknown, h.increasing⟩
    · rintro c' (hc' | hc')
      · cases hc'
      · rcases hmem c' hc' with hc' | rfl
        · exact hseal c' (.inr hc')
        · exact hseal c' (.inl hcommit)
    · intro c' hc'
      cases hc'
    · rintro c' (hc' | hc') hk
      · cases hc'
      · rcases hmem c' hc' with hc' | rfl
        · exact h.written c' (.inr hc') hk
        · exact h.written c' (.inl hphase) hk
    · intro c' hc'
      cases hc'
    · refine pairwise_append.mpr ⟨h.ordered, pairwise_singleton .., ?_⟩
      intro u hu c' hc'
      obtain rfl := mem_singleton.mp hc'
      exact h.pending c' hcommit u hu

theorem Drawn.draws_lt {u : Commit Val} (hu : u ∈ s.hist) (hc : c ∈ s.hist)
    (hle : k ∈ u.keys → k ∈ c.keys → u.commitTS ≤ c.readUint) {v w : Int} (hv : (u.txn, v) ∈ log)
    (hw : (c.txn, w) ∈ log) : v < w := by
  obtain ⟨-, hvu, m, hm, hmk⟩ := (h.commits u (.inr hu)).drew.drawn v hv
  obtain ⟨hwc, -, m', hm', hmk'⟩ := (h.commits c (.inr hc)).drew.drawn w hw
  have hku : k ∈ u.keys := hmk ▸ List.mem_map_of_mem hm
  have hkc : k ∈ c.keys := hmk' ▸ List.mem_map_of_mem hm'
  have hstart : clock₀ ≤ u.commitTS := by
    obtain ⟨i, hi⟩ := mem_iff_getElem?.mp hu
    have := h.clocked.commitTS i u hi
    omega
  calc v ≤ counterOf (seenAt s.eng.store k u.readUint u.batch) := hvu
    _ = counterOf (s.eng.store.read k u.commitTS) := (h.written u (.inr hu) hku).2.symm
    _ ≤ counterOf (s.eng.store.read k c.readUint) := h.rising.mono _ _ hstart (hle hku hkc)
    _ < w := hwc

theorem Drawn.distinct :
    ((log.filter fun p => ∃ c ∈ s.hist, c.txn = p.1).map Prod.snd).Nodup := by
  refine pairwise_map.mpr (List.Pairwise.imp_of_mem ?_ (h.increasing.filter _))
  rintro ⟨t, v⟩ ⟨t', w⟩ hp hq hinc
  obtain ⟨hp, hcp⟩ := mem_filter.mp hp
  obtain ⟨hq, hcq⟩ := mem_filter.mp hq
  obtain ⟨u, hu, rfl⟩ := of_decide_eq_true hcp
  obtain ⟨c, hc, rfl⟩ := of_decide_eq_true hcq
  by_cases htxn : u.txn = c.txn
  · exact Int.ne_of_lt (hinc htxn)
  · obtain ⟨i, hi, rfl⟩ := getElem_of_mem hu
    obtain ⟨j, hj, rfl⟩ := getElem_of_mem hc
    have hord := pairwise_iff_getElem.mp h.ordered
    rcases Nat.lt_trichotomy i j with hlt | rfl | hgt
    · exact Int.ne_of_lt (h.draws_lt hu hc (hord i j hi hj hlt) hp hq)
    · exact absurd rfl htxn
    · exact (Int.ne_of_lt (h.draws_lt hc hu (hord j i hj hi hgt) hq hp)).symm

theorem Drawn.relax {top' : Int} (htop : top ≤ top') : Drawn k clock₀ top' log s := by
  have hdrew : ∀ {t r ms}, Drew s.eng.store k top log t r ms → Drew s.eng.store k top' log t r ms :=
    fun hd => ⟨hd.writes, hd.low, hd.drawn, Int.le_trans hd.le htop⟩
  exact
    { h with
      rising := ⟨h.rising.mono, fun r hr => Int.le_trans (h.rising.le r hr) htop, h.rising.kept⟩
      opened := fun t T hT hdone => hdrew (h.opened t T hT hdone)
      commits := fun c hc => { h.commits c hc with drew := hdrew (h.commits c hc).drew } }

end

theorem step_buffer {m : Mut Val} (hstep : s.step (.buffer t m) = some s') : ∃ T, s.eng.txns[t]? = some T ∧
      s' = { s with eng := s.eng.setTxn t { T with mutations := T.mutations ++ [m] } } := by
  obtain ⟨r, hr, rfl⟩ := map_eq_some_iff.mp hstep
  obtain ⟨-, hr⟩ := ite_none_left_eq_some.mp hr
  obtain ⟨T, hT, rfl⟩ := map_eq_some_iff.mp hr
  exact ⟨T, hT, rfl⟩

theorem Drawn.draw (h : Drawn k clock₀ top log s) {T : Txn Val} {m : Mut Val} {v : Int}
    (hstep : s.step (.buffer t m) = some s') (hT : s.eng.txns[t]? = some T) (hdone : T.done = false)
    (hkey : m.key = k) (hdel : m.delete = false) (hv : counterOf m.effect = v)
    (hnext : v = counterOf (seenAt s.eng.store k T.readUint T.mutations) + 1) :
    Drawn k clock₀ (top + 1) (log ++ [(t, v)]) s' := by
  have hclocked := clocked_step h.clocked hstep
  obtain ⟨T0, hT0, rfl⟩ := step_buffer hstep
  cases hT.symm.trans hT0
  have hlt := (List.getElem?_eq_some_iff.mp hT).1
  have hdrew := h.opened t T hT hdone
  have hle := hdrew.le
  have hrelax : Drawn k clock₀ (top + 1) log s := h.relax (by omega)
  refine ⟨hclocked, hrelax.rising, ?_, ?_, h.newest, h.written, h.pending, h.ordered, ?_, ?_⟩
  · intro t' T' hT' hopen
    by_cases heq : t = t'
    · subst heq
      have hset : (s.eng.txns.set t { T with mutations := T.mutations ++ [m] })[t]? = some T' := hT'
      rw [getElem?_set_self hlt] at hset
      cases hset
      exact hdrew.draw hkey hdel hv hnext (by omega)
    · have hset : (s.eng.txns.set t { T with mutations := T.mutations ++ [m] })[t']? = some T' := hT'
      rw [getElem?_set_ne heq] at hset
      exact (h.opened t' T' hset hopen).log_other heq v (by omega)
  · intro c hc
    obtain ⟨hcd, hstart, hclock, U, hU, hUdone⟩ := h.commits c hc
    have hne : t ≠ c.txn := by
      rintro rfl
      cases hT.symm.trans hU
      cases hdone.symm.trans hUdone
    have hset : (s.eng.txns.set t { T with mutations := T.mutations ++ [m] })[c.txn]? = some U := by
      rw [getElem?_set_ne hne]
      exact hU
    exact ⟨hcd.log_other hne v (by omega), hstart, hclock, U, hset, hUdone⟩
  · intro p hp
    have hlen : (s.eng.txns.set t { T with mutations := T.mutations ++ [m] }).length = s.eng.txns.length :=
      length_set ..
    rcases mem_append.mp hp with hp | hp
    · exact hlen ▸ h.known p hp
    · obtain rfl := mem_singleton.mp hp
      exact hlen ▸ hlt
  · refine pairwise_append.mpr ⟨h.increasing, pairwise_singleton .., ?_⟩
    rintro ⟨t', w⟩ hp q hq htxn
    obtain rfl := mem_singleton.mp hq
    obtain rfl : t' = t := htxn
    have := (hdrew.drawn w hp).2.1
    dsimp only
    omega

theorem drawn_new (k : Bytes) (store : Store Val) :
    Drawn k (Engine.new store).clock (counterOf (store.read k (Engine.new store).clock)) [] (Sys.new store) := by
  have hmax : store.maxVersion ≤ (Engine.new store).clock := by
    unfold Engine.new
    dsimp only
    split
    · omega
    · exact le_rfl
  have hread : ∀ r, (Engine.new store).clock ≤ r → store.read k r = store.read k (Engine.new store).clock :=
    fun r hr => read_of_newest (fun ts hts => Nat.le_trans (Versions.cell_le_maxVersion hts) hmax) hr
  refine ⟨clocked_new store, ⟨?_, ?_, ?_⟩, ?_, ?_, ?_, ?_, ?_, List.Pairwise.nil, ?_, List.Pairwise.nil⟩
  · intro r r' hr hrr'
    exact Int.le_of_eq (congrArg counterOf ((hread r hr).trans (hread r' (Nat.le_trans hr hrr')).symm))
  · intro r hr
    exact Int.le_of_eq (congrArg counterOf (hread r hr))
  · intro ts hts hcell
    have := Versions.cell_le_maxVersion (s := store) (k := k) (t := ts) (by
      change store.cell k ts = some none at hcell
      rw [hcell]
      simp)
    omega
  -- no transaction, no commit and no draw yet
  all_goals simp [Sys.new, Engine.new, Phase.commit?]

end engine

/-! ## The sessions -/

theorem seqKey_inj {ns ns' : NamespaceID} {name name' : Bytes}
    (h : seqKey (tenant ns) name = seqKey (tenant ns') name') : ns = ns' ∧ name = name' := by
  have hns : ns = ns' := by
    have hpath : ∀ (n : NamespaceID) (x : Bytes), seqKey (tenant n) x = (keyVersion :: str "/ns/") ++
        (n.raw ++ slash :: (str "meta/schema/" ++ (str "#seq#" ++ x))) := by
      intro n x
      rw [seqKey, schemaKey_eq, nsRoot]
      simp only [append_assoc, cons_append]
      rfl
    rw [hpath, hpath] at h
    have hpre : ns.raw ++ slash :: (str "meta/schema/" ++ (str "#seq#" ++ name)) <+:
        ns'.raw ++ slash :: (str "meta/schema/" ++ (str "#seq#" ++ name')) := by
      rw [append_cancel_left h]
    exact NamespaceID.ext (name_of_slash ns.slash_not_mem ns'.slash_not_mem hpre).1
  subst hns
  exact ⟨rfl, append_cancel_left (schemaKey_inj h)⟩

theorem counterOf_inInt64 (o : Option Val) : inInt64 (counterOf o) = true := by
  unfold counterOf
  split
  · rename_i raw
    cases hp : parseInt raw with
    | none => rfl
    | some i => exact (filter_eq_some_iff.mp hp).2
  · rfl

theorem counterOf_formatInt {v : Int} (h : inInt64 v = true) : counterOf (some (.text (formatInt v))) = v := by
  simp only [counterOf, parseInt_formatInt h, getD_some]

theorem found_get (s : Sys Val) {T : Txn Val} (hdone : T.done = false) (k : Bytes) : found (s.eng.get T k) = seenAt s.eng.store k T.readUint T.mutations := by
  rw [get_eq_answer _ _ hdone, answer, lookup_overlay, Versions.lookup_view]
  unfold seenAt found
  cases (lastEffect T.mutations k).getD (Versions.read s.eng.store k T.readUint) with
  | none | some v => rfl

section transaction
variable {s : Sys Val} {t : Nat} {T : Txn Val} (hT : s.eng.txns[t]? = some T) (hdone : T.done = false)
include hT hdone

variable {sess : Session} {name : Bytes} {b : Bool} {r : Sys Val × ExecM Unit}

theorem runTxn_get {α : Type} {k : Bytes} {next : Option Val → Stm α} {r : Sys Val × ExecM α}
    (h : runTxn t (.get k next) s = some r) : runTxn t (next (seenAt s.eng.store k T.readUint T.mutations)) s = some r := by
  change (s.eng.txns[t]?).bind _ = _ at h
  rwa [hT, bind_some, found_get s hdone] at h

theorem runTxn_create (h : runTxn t (execCreateSequence sess name b) s = some r) : r.1 = s ∨
      (seenAt s.eng.store (seqKey sess name) T.readUint T.mutations = none ∧
        s.step (.buffer t (assignment (seqKey sess name) (.text (formatInt 0)))) = some r.1) := by
  have h := runTxn_get hT hdone h
  cases hseen : seenAt s.eng.store (seqKey sess name) T.readUint T.mutations with
  | none =>
    rw [hseen] at h
    obtain ⟨s', hs', hr⟩ := bind_eq_some_iff.mp h
    cases hr
    exact .inr ⟨rfl, hs'⟩
  | some v =>
    rw [hseen] at h
    cases b <;> cases h <;> exact .inl rfl

theorem runTxn_drop (h : runTxn t (execDropSequence sess name b) s = some r) : r.1 = s ∨
      s.step (.buffer t (deletion (seqKey sess name))) = some r.1 := by
  have h := runTxn_get hT hdone h
  cases hseen : seenAt s.eng.store (seqKey sess name) T.readUint T.mutations with
  | none =>
    rw [hseen] at h
    cases b <;> cases h <;> exact .inl rfl
  | some v =>
    rw [hseen] at h
    obtain ⟨s', hs', hr⟩ := bind_eq_some_iff.mp h
    cases hr
    exact .inr hs'

end transaction

/-- Nothing but its draws and CREATE SEQUENCE writes the counter: it is not dropped, and no table has
the name its key is stored under. -/
def KeepsCounter (ns : NamespaceID) (name : Bytes) : SeqAct → Prop
  | .call (.buffer _ m) => m.key ≠ seqKey (tenant ns) name
  | .drop ns' _ name' _ => ¬(ns' = ns ∧ name' = name)
  | _ => True

/-- The draws of a sequence with their transactions. -/
def SeqNet.log (n : SeqNet) (ns : NamespaceID) (name : Bytes) : List (Nat × Int) :=
  (n.draws.filter fun d => d.ns = ns ∧ d.name = name).map fun d => (d.txn, d.value)

section sessions
variable {ns : NamespaceID} {name : Bytes} {clock₀ : Nat} {c₀ : Int} {n n' : SeqNet} {a : SeqAct}

theorem openTxn_some {s : Sys Val} {t : Nat} (h : openTxn s t = true) :
    ∃ T, s.eng.txns[t]? = some T ∧ T.done = false := by
  unfold openTxn at h
  cases hT : s.eng.txns[t]? with
  | none =>
    rw [hT] at h
    cases h
  | some T =>
    rw [hT] at h
    exact ⟨T, rfl, by simpa using h⟩

theorem step_draw {t : Nat} (h : n.step (.draw ns t name) = some n') :
    ∃ T s', n.sys.eng.txns[t]? = some T ∧ T.done = false ∧
      n.sys.step (.buffer t (assignment (seqKey (tenant ns) name) (.text (formatInt (wrap64 (counterOf
        (seenAt n.sys.eng.store (seqKey (tenant ns) name) T.readUint T.mutations) + 1)))))) = some s' ∧
      n' = { n with
        sys := s'
        draws := n.draws ++ [⟨ns, name, t, wrap64 (counterOf
          (seenAt n.sys.eng.store (seqKey (tenant ns) name) T.readUint T.mutations) + 1)⟩] } := by
  obtain ⟨hopen, h⟩ := ite_none_right_eq_some.mp h
  obtain ⟨T, hT, hdone⟩ := openTxn_some hopen
  obtain ⟨r, hr, rfl⟩ := map_eq_some_iff.mp h
  obtain ⟨s', hs', hr⟩ := bind_eq_some_iff.mp (runTxn_get hT hdone hr)
  cases hr
  exact ⟨T, s', hT, hdone, hs', rfl⟩

/-- The counter of one sequence, while the sessions of all namespaces go on. -/
structure Serving (ns : NamespaceID) (name : Bytes) (clock₀ : Nat) (c₀ : Int) (n : SeqNet) : Prop where
  drawn : Drawn (seqKey (tenant ns) name) clock₀ (c₀ + (n.log ns name).length) (n.log ns name) n.sys
  range : ∀ p ∈ n.log ns name, inInt64 p.2 = true

theorem Drawn.buffer_other {k : Bytes} {top : Int} {log : List (Nat × Int)} {s s' : Sys Val} {t : Nat} {m : Mut Val}
    (h : Drawn k clock₀ top log s) (hstep : s.step (.buffer t m) = some s') (hkey : m.key ≠ k) :
    Drawn k clock₀ top log s' := by
  refine h.step hstep ?_
  intro t' m' T heq hT hdone
  obtain ⟨rfl, rfl⟩ := Call.buffer.inj heq
  exact (h.opened _ T hT hdone).other hkey

theorem Serving.step (h : Serving ns name clock₀ c₀ n) (hkeep : KeepsCounter ns name a)
    (hmax : c₀ + (n.log ns name).length + 1 < 2 ^ 63) (hstep : n.step a = some n') :
    Serving ns name clock₀ c₀ n' ∧ (n'.log ns name).length ≤ (n.log ns name).length + 1 := by
  cases a with
  | call c =>
    obtain ⟨sys, hsys, rfl⟩ := map_eq_some_iff.mp hstep
    refine ⟨⟨h.drawn.step hsys ?_, h.range⟩, Nat.le_succ _⟩
    rintro t m T rfl hT hdone
    exact (h.drawn.opened t T hT hdone).other hkeep
  | draw ns' t name' =>
    obtain ⟨T, s', hT, hdone, hs', rfl⟩ := step_draw hstep
    by_cases hsame : ns' = ns ∧ name' = name
    · obtain ⟨rfl, rfl⟩ := hsame
      have hlow := counterOf_inInt64 (seenAt n.sys.eng.store (seqKey (tenant ns') name') T.readUint T.mutations)
      have hle := (h.drawn.opened t T hT hdone).le
      have hint : inInt64 (counterOf (seenAt n.sys.eng.store (seqKey (tenant ns') name') T.readUint T.mutations) + 1) =
          true := by
        simp only [inInt64, Bool.and_eq_true, decide_eq_true_eq] at hlow ⊢
        omega
      rw [wrap64_of_inInt64 hint] at hs' ⊢
      have hlog : ∀ v, SeqNet.log { n with sys := s', draws := n.draws ++ [⟨ns', name', t, v⟩] } ns' name' = n.log ns' name' ++ [(t, v)] :=
        fun v => by simp [SeqNet.log]
      have hdraw := h.drawn.draw hs' hT hdone rfl rfl (counterOf_formatInt hint) rfl
      refine ⟨⟨?_, ?_⟩, ?_⟩
      · rw [hlog, length_append, length_singleton, Nat.cast_add, Nat.cast_one, ← Int.add_assoc]
        exact hdraw
      · rw [hlog]
        intro p hp
        rcases mem_append.mp hp with hp | hp
        · exact h.range p hp
        · rw [mem_singleton.mp hp]
          exact hint
      · rw [hlog, length_append, length_singleton]
    · have hlog : ∀ v, SeqNet.log { n with sys := s', draws := n.draws ++ [⟨ns', name', t, v⟩] } ns name = n.log ns name :=
        fun v => by simp [SeqNet.log, hsame]
      refine ⟨⟨?_, ?_⟩, ?_⟩
      · rw [hlog]
        exact h.drawn.buffer_other hs' fun hkey => hsame (seqKey_inj hkey)
      · rw [hlog]
        exact h.range
      · rw [hlog]
        exact Nat.le_succ _
  | create ns' t name' b =>
    obtain ⟨hopen, hstep⟩ := ite_none_right_eq_some.mp hstep
    obtain ⟨T, hT, hdone⟩ := openTxn_some hopen
    obtain ⟨r, hr, rfl⟩ := map_eq_some_iff.mp hstep
    refine ⟨⟨?_, h.range⟩, Nat.le_succ _⟩
    rcases runTxn_create hT hdone hr with heq | ⟨hnone, hbuf⟩
    · exact heq ▸ h.drawn
    · by_cases hsame : ns' = ns ∧ name' = name
      · obtain ⟨rfl, rfl⟩ := hsame
        -- the transaction sees no counter, which reads as 0
        refine h.drawn.step hbuf ?_
        intro t' m' T' heq hT' hdone'
        obtain ⟨rfl, rfl⟩ := Call.buffer.inj heq
        cases hT.symm.trans hT'
        have hdrew := h.drawn.opened t T hT hdone
        have hle := hdrew.le
        have hzero : counterOf (assignment (seqKey (tenant ns') name') (.text (formatInt 0))).effect = 0 :=
          counterOf_formatInt (by decide)
        rw [hnone] at hle
        refine hdrew.write rfl rfl ?_ ?_
        · rw [hnone, hzero]
          exact Int.le_refl _
        · rw [hzero]
          exact hle
      · exact h.drawn.buffer_other hbuf fun hkey => hsame (seqKey_inj hkey)
  | drop ns' t name' b =>
    obtain ⟨hopen, hstep⟩ := ite_none_right_eq_some.mp hstep
    obtain ⟨T, hT, hdone⟩ := openTxn_some hopen
    obtain ⟨r, hr, rfl⟩ := map_eq_some_iff.mp hstep
    refine ⟨⟨?_, h.range⟩, Nat.le_succ _⟩
    rcases runTxn_drop hT hdone hr with heq | hbuf
    · exact heq ▸ h.drawn
    · exact h.drawn.buffer_other hbuf fun hkey => hkeep (seqKey_inj hkey)
  | eval ns' f args =>
    cases hstep
    exact ⟨⟨h.drawn, h.range⟩, Nat.le_succ _⟩

theorem Serving.run (acts : List SeqAct) (h : Serving ns name clock₀ c₀ n)
    (hkeep : ∀ a ∈ acts, KeepsCounter ns name a) (hmax : c₀ + (n.log ns name).length + acts.length < 2 ^ 63)
    (hrun : acts.foldlM SeqNet.step n = some n') : Serving ns name clock₀ c₀ n' := by
  induction acts generalizing n with
  | nil =>
    cases hrun
    exact h
  | cons a acts ih =>
    obtain ⟨n1, hstep, hrest⟩ := bind_eq_some_iff.mp hrun
    rw [length_cons, Nat.cast_add, Nat.cast_one] at hmax
    obtain ⟨h1, hlen⟩ := h.step (hkeep a mem_cons_self) (by omega) hstep
    exact ih h1 (fun b hb => hkeep b (mem_cons_of_mem _ hb)) (by omega) hrest

theorem serving_new (ns : NamespaceID) (name : Bytes) (store : Store Val) : Serving ns name (Engine.new store).clock
      (counterOf (store.read (seqKey (tenant ns) name) (Engine.new store).clock)) (SeqNet.new store) where
  drawn := by
    have h := drawn_new (seqKey (tenant ns) name) store
    rw [← Int.add_zero (counterOf _)] at h
    exact h
  range := fun p hp => absurd hp not_mem_nil

theorem Serving.distinct (h : Serving ns name clock₀ c₀ n) :
    ((n.draws.filter fun d => d.ns = ns ∧ d.name = name ∧ ∃ c ∈ n.sys.hist, c.txn = d.txn).map
      (fun d => formatInt d.value)).Nodup := by
  have hlog : ((n.log ns name).filter fun p => ∃ c ∈ n.sys.hist, c.txn = p.1).map Prod.snd =
      (n.draws.filter fun d => d.ns = ns ∧ d.name = name ∧ ∃ c ∈ n.sys.hist, c.txn = d.txn).map Draw.value := by
    unfold SeqNet.log
    rw [List.filter_map, List.filter_filter, List.map_map]
    congr 1
    apply filter_congr
    intro d _
    simp only [Function.comp, ← Bool.decide_and, decide_eq_decide]
    tauto
  have hnodup := h.drawn.distinct
  rw [hlog] at hnodup
  have hrange : ∀ d ∈ n.draws.filter fun d => d.ns = ns ∧ d.name = name ∧ ∃ c ∈ n.sys.hist, c.txn = d.txn,
      inInt64 d.value = true := by
    intro d hd
    obtain ⟨hd, hon⟩ := mem_filter.mp hd
    obtain ⟨h1, h2, -⟩ := of_decide_eq_true hon
    exact h.range (d.txn, d.value) (List.mem_map_of_mem (mem_filter.mpr ⟨hd, decide_eq_true ⟨h1, h2⟩⟩))
  have hcomp : ∀ l : List Draw, l.map (fun d => formatInt d.value) = (l.map Draw.value).map formatInt :=
    fun l => by rw [List.map_map]; rfl
  rw [hcomp]
  refine List.Nodup.map_on ?_ hnodup
  intro x hx y hy heq
  obtain ⟨d, hd, rfl⟩ := List.mem_map.mp hx
  obtain ⟨e, he, rfl⟩ := List.mem_map.mp hy
  exact formatInt_inj (hrange d hd) (hrange e he) heq

theorem draws_run (acts : List SeqAct) (hrun : acts.foldlM SeqNet.step n = some n') {d : Draw} (hd : d ∈ n'.draws) :
    d ∈ n.draws ∨ SeqAct.draw d.ns d.txn d.name ∈ acts := by
  induction acts generalizing n with
  | nil =>
    cases hrun
    exact .inl hd
  | cons a acts ih =>
    obtain ⟨n1, hstep, hrest⟩ := bind_eq_some_iff.mp hrun
    rcases ih hrest with hd1 | hmem
    · cases a with
      | draw ns' t name' =>
        obtain ⟨T, s', -, -, -, rfl⟩ := step_draw hstep
        rcases mem_append.mp hd1 with hd1 | hd1
        · exact .inl hd1
        · obtain rfl := mem_singleton.mp hd1
          exact .inr mem_cons_self
      | call c =>
        obtain ⟨sys, -, rfl⟩ := map_eq_some_iff.mp hstep
        exact .inl hd1
      | create ns' t name' b | drop ns' t name' b =>
        obtain ⟨-, hstep⟩ := ite_none_right_eq_some.mp hstep
        obtain ⟨r, -, rfl⟩ := map_eq_some_iff.mp hstep
        exact .inl hd1
      | eval ns' f args =>
        cases hstep
        exact .inl hd1
    · exact .inr (mem_cons_of_mem _ hmem)

theorem nextvals_replay_nil (calls : List (SeqFunc × List Value)) (v : Option Int) (h : ∀ c ∈ calls, c.1 ≠ .nextval) :
    nextvals (replay ns name v calls) = [] := by
  induction calls generalizing v with
  | nil => rfl
  | cons c calls ih =>
    have hc := h c mem_cons_self
    simp only [replay, nextvals, filterMap_cons, if_neg hc]
    exact ih _ fun c hc => h c (mem_cons_of_mem _ hc)

end sessions

/-- A sequence is used by one of the two ways only: by nextval, or by serial defaults on a counter
that nothing else writes. -/
def OneCounter (ns : NamespaceID) (name : Bytes) (acts : List SeqAct) : Prop :=
  (∀ t, SeqAct.draw ns t name ∉ acts) ∨
    ((∀ args, calledOn args = name → SeqAct.eval ns .nextval args ∉ acts) ∧ ∀ a ∈ acts, KeepsCounter ns name a)

/-- A sequence of a namespace, in every run in which no other namespace calls nextval or setval on its
name: the replies depend on the namespace's own calls only, and the values given out are distinct
as long as setval is not called and the sequence is used in one way. -/
theorem sequences_per_namespace (ns : NamespaceID) (name : Bytes) :
    (∀ (store store' : Store Val) (acts acts' : List SeqAct) (n n' : SeqNet),
      acts.foldlM SeqNet.step (SeqNet.new store) = some n → acts'.foldlM SeqNet.step (SeqNet.new store') = some n' →
      (∀ a ∈ acts, Unshared ns name a) → (∀ a ∈ acts', Unshared ns name a) →
      callsOn ns name acts = callsOn ns name acts' → n.repliesOn ns name = n'.repliesOn ns name) ∧
    (∀ (store : Store Val) (acts : List SeqAct) (n : SeqNet), acts.foldlM SeqNet.step (SeqNet.new store) = some n →
      (∀ a ∈ acts, Unshared ns name a) → (∀ args, calledOn args = name → SeqAct.eval ns .setval args ∉ acts) →
      OneCounter ns name acts → acts.length < 2 ^ 63 →
      counterOf (store.read (seqKey (tenant ns) name) (Engine.new store).clock) + acts.length < 2 ^ 63 →
      (n.given ns name).Nodup) := by
  constructor
  · intro store store' acts acts' n n' hrun hrun' hown hown' hcalls
    rw [repliesOn_run acts hrun hown, repliesOn_run acts' hrun' hown', hcalls]
    rfl
  · intro store acts n hrun hown hset hone hlen hmax
    have hreplies : n.repliesOn ns name = replay ns name none (callsOn ns name acts) := repliesOn_run acts hrun hown
    unfold SeqNet.given
    rw [hreplies]
    rcases hone with hdraw | ⟨hnext, hkeep⟩
    · have hnone : n.draws.filter (fun d => d.ns = ns ∧ d.name = name ∧ ∃ c ∈ n.sys.hist, c.txn = d.txn) = [] := by
        rw [filter_eq_nil_iff]
        intro d hd hon
        obtain ⟨rfl, rfl, -⟩ := of_decide_eq_true hon
        rcases draws_run acts hrun hd with hd | hd
        · cases hd
        · exact hdraw d.txn hd
      rw [hnone, map_nil, append_nil]
      refine (nextvals_replay _ none ?_ (fun c hc => (callsOn_mem hc).2) (Int.le_refl _) ?_).1
      · rintro ⟨f, args⟩ hc rfl
        exact hset args (callsOn_mem hc).2 (callsOn_mem hc).1
      · have hcount := callsOn_length ns name acts
        simp only [getD_none]
        omega
    · rw [nextvals_replay_nil _ none ?_, nil_append]
      · exact ((serving_new ns name store).run acts hkeep (by simpa [SeqNet.log, SeqNet.new] using hmax) hrun).distinct
      · rintro ⟨f, args⟩ hc rfl
        exact hnext args (callsOn_mem hc).2 (callsOn_mem hc).1

/-! ### Two namespaces -/

def seqNamespace (raw : String) (h : namespaceRe (str raw) = true) : NamespaceID := ⟨str raw, h⟩

def nextvalBy (ns : NamespaceID) : SeqAct := .eval ns .nextval [⟨some (str "s"), OIDText⟩]

/-- A transaction that draws once and commits. -/
def drawAndCommit (ns : NamespaceID) (t : Nat) : List SeqAct :=
  [.call .begin, .draw ns t (str "s"), .call (.commit t fun _ => false), .call .flush, .call .publish]

/-- nextval of the namespace b moves the sequence of the namespace a; and nextval gives out again
what a serial default drew. -/
theorem sequences_shared : ∃ a b : NamespaceID, a ≠ b ∧
    (∃ n n', [nextvalBy b, nextvalBy a].foldlM SeqNet.step (SeqNet.new []) = some n ∧
      [nextvalBy a].foldlM SeqNet.step (SeqNet.new []) = some n' ∧
      n.repliesOn a (str "s") ≠ n'.repliesOn a (str "s")) ∧
    ∃ n, (drawAndCommit a 0 ++ [nextvalBy a]).foldlM SeqNet.step (SeqNet.new []) = some n ∧
      n.given a (str "s") = [str "1", str "1"] := by
  refine ⟨seqNamespace "a" (by decide), seqNamespace "b" (by decide), by decide, ⟨_, _, rfl, rfl, ?_⟩, _, rfl, ?_⟩
  · decide +kernel
  · decide +kernel

/-- Two transactions of one namespace draw while another one calls currval. -/
def twoDraws (a b : NamespaceID) : List SeqAct :=
  drawAndCommit a 0 ++ SeqAct.eval b .currval [⟨some (str "s"), OIDText⟩] :: drawAndCommit a 1

theorem mem_twoDraws {a b : NamespaceID} {x : SeqAct} (h : x ∈ twoDraws a b) :
    x ∈ drawAndCommit a 0 ∨ x = SeqAct.eval b .currval [⟨some (str "s"), OIDText⟩] ∨ x ∈ drawAndCommit a 1 := by
  rcases mem_append.mp h with h | h
  · exact .inl h
  · exact .inr (mem_cons.mp h)

theorem mem_drawAndCommit {a : NamespaceID} {t : Nat} {x : SeqAct} (h : x ∈ drawAndCommit a t) (name : Bytes) :
    Unshared a name x ∧ KeepsCounter a name x ∧ ∀ f args, x ≠ .eval a f args := by
  simp only [drawAndCommit, mem_cons, not_mem_nil, or_false] at h
  obtain rfl | rfl | rfl | rfl | rfl := h
  all_goals exact ⟨trivial, trivial, by simp⟩

theorem sequences_apart : ∃ a b : NamespaceID, ∃ n, (twoDraws a b).foldlM SeqNet.step (SeqNet.new []) = some n ∧
      n.given a (str "s") = [str "1", str "2"] ∧ (n.given a (str "s")).Nodup := by
  have hmap : ((twoDraws (seqNamespace "a" (by decide)) (seqNamespace "b" (by decide))).foldlM SeqNet.step
      (SeqNet.new [])).map (fun n => n.given (seqNamespace "a" (by decide)) (str "s")) = some [str "1", str "2"] := by
    decide +kernel
  obtain ⟨n, hrun, hgiven⟩ := map_eq_some_iff.mp hmap
  generalize ha : seqNamespace "a" (by decide) = a at hrun hgiven
  generalize seqNamespace "b" (by decide) = b at hrun
  have hnotEval : ∀ f, f ≠ .currval → ∀ args, calledOn args = str "s" → SeqAct.eval a f args ∉ twoDraws a b := by
    intro f hf args _ hx
    rcases mem_twoDraws hx with hx | hx | hx
    · exact (mem_drawAndCommit hx []).2.2 _ _ rfl
    · exact hf (SeqAct.eval.inj hx).2.1
    · exact (mem_drawAndCommit hx []).2.2 _ _ rfl
  have hkeep : ∀ x ∈ twoDraws a b, Unshared a (str "s") x ∧ KeepsCounter a (str "s") x := by
    intro x hx
    rcases mem_twoDraws hx with hx | rfl | hx
    · exact ⟨(mem_drawAndCommit hx _).1, (mem_drawAndCommit hx _).2.1⟩
    · exact ⟨.inr (.inl rfl), trivial⟩
    · exact ⟨(mem_drawAndCommit hx _).1, (mem_drawAndCommit hx _).2.1⟩
  have hlen : (twoDraws a b).length = 11 := rfl
  refine ⟨a, b, n, hrun, hgiven, (sequences_per_namespace a (str "s")).2 [] _ n hrun (fun x hx => (hkeep x hx).1)
    (hnotEval .setval (by decide)) (.inr ⟨hnotEval .nextval (by decide), fun x hx => (hkeep x hx).2⟩) ?_ ?_⟩
  · rw [hlen]
    decide
  · rw [hlen, ← ha]
    decide

end BasuyuDb.Executor
