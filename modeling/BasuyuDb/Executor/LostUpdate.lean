import BasuyuDb.Executor.Counter
import BasuyuDb.Executor.Sessions

/-
  Sessions that increment one counter concurrently, each by one autocommit statement. A
  commit writes the counter's row, so the conflict check lets it pass only on the newest
  snapshot; the n-th success takes the counter from v + n - 1 to v + n. Failed flushes are
  included: what they leave behind is no row that a later statement counts.
-/

namespace BasuyuDb.Executor
open KvLib Storage Transactions List

/-- The statements of a session that returned success. -/
def Client.successes (c : Client) : Nat := c.replies.countP Except.isOk

def Net.successes (n : Net) : Nat := (n.clients.map Client.successes).sum

namespace Counter
variable {env : Env} (C : Counter env)

/-- Every request is a session with one statement. -/
def sessions : List (List (Stm Result)) := C.reqs.map fun q => [C.stmt q]

/-! ## The store -/

/-- The versions since the start are safe, and each of them up to the clock is a commit that
incremented the counter. -/
structure Counted (clock₀ : Nat) (v : Int) (store : Store Val) (clock : Nat) : Prop where
  base : C.Setting (store.view clock₀)
  safe : ∀ k t x, clock₀ < t → store.cell k t = some x → C.Safe k x
  values : ∀ r, clock₀ ≤ r → r ≤ clock → C.value (store.read C.key r) = some (v + (r - clock₀ : Nat))
  written : ∀ r, clock₀ < r → r ≤ clock → store.cell C.key r ≠ none

variable {C} {clock₀ clock : Nat} {v : Int} {store : Store Val} {r start : Nat} {res : Result} {c c' : Client}

section
variable (h : C.Counted clock₀ v store clock)
include h

theorem Counted.setting (hr : clock₀ ≤ r) : C.Setting (store.view r) := by
  refine h.base.of_lookup fun k => ?_
  rw [Versions.lookup_view, Versions.lookup_view]
  rcases Versions.read_later store k hr with heq | ⟨t, hlt, -, hcell⟩
  · exact .inl heq
  · exact .inr (h.safe k t _ hlt hcell)

theorem Counted.not_deleted (hr : clock₀ ≤ r) :
    deletedSince store r C.key = false := by
  unfold deletedSince
  split
  · rename_i t hnewest
    rw [decide_eq_false_iff_not]
    intro hlt
    obtain ⟨-, hcell, -⟩ := Versions.newestLe_some hnewest
    obtain ⟨cells, hx, -⟩ := (h.safe _ t _ (Nat.lt_of_le_of_lt hr hlt) hcell).2 key_mem_rows
    cases hx
  · rfl

theorem Counted.write (hclock : clock₀ ≤ clock)
    {ms : Buffer} (hms : ∀ m ∈ ms, C.Safe m.key m.effect) :
    C.Counted clock₀ v (store.writeBatch (clock + 1) ms) clock := by
  refine ⟨?_, ?_, ?_, ?_⟩
  · rw [Versions.view_writeBatch_lt _ _ (by omega)]
    exact h.base
  · intro k t x ht hcell
    rw [Versions.cell_writeBatch] at hcell
    split at hcell
    · cases hl : lastEffect ms k with
      | none =>
        rw [hl] at hcell
        exact h.safe k t x ht hcell
      | some y =>
        rw [hl] at hcell
        obtain rfl : y = x := Option.some.inj hcell
        obtain ⟨m, hm, rfl, rfl⟩ := lastEffect_mem hl
        exact hms m hm
    · exact h.safe k t x ht hcell
  · intro r h1 h2
    rw [Versions.read_writeBatch_lt _ _ _ (by omega)]
    exact h.values r h1 h2
  · intro r h1 h2
    rw [Versions.cell_writeBatch_ne _ _ _ (by omega)]
    exact h.written r h1 h2

theorem Counted.publish
    (hval : C.value (store.read C.key (clock + 1)) = some (v + (clock + 1 - clock₀ : Nat)))
    (hcell : store.cell C.key (clock + 1) ≠ none) : C.Counted clock₀ v store (clock + 1) := by
  refine ⟨h.base, h.safe, ?_, ?_⟩
  · intro r h1 h2
    rcases Nat.lt_or_ge clock r with hlt | hle
    · obtain rfl : r = clock + 1 := by omega
      exact hval
    · exact h.values r h1 hle
  · intro r h1 h2
    rcases Nat.lt_or_ge clock r with hlt | hle
    · obtain rfl : r = clock + 1 := by omega
      exact hcell
    · exact h.written r h1 hle

variable {ms : Buffer} {j : Nat} {sys' : Sys Val} {cm : Commit Val}

theorem Counted.exec {q : Request env} (hq : q ∈ C.reqs)
    (h1 : clock₀ ≤ r) (h2 : r ≤ clock) (hmax : v + (r - clock₀ : Nat) + 1 < 2 ^ 63)
    (hexec : (C.stmt q).exec underPrefix ⟨store.view r, r⟩ [] start = .ok (res, ms)) :
    (∀ m ∈ ms, C.Safe m.key m.effect) ∧
      ∃ x, lastEffect ms C.key = some x ∧ C.value x = some (v + (r - clock₀ : Nat) + 1) := by
  have hv := h.values r h1 h2
  have hint : inInt64 (v + (r - clock₀ : Nat) + 1) = true := by
    have hlow : inInt64 (v + (r - clock₀ : Nat)) = true := by
      unfold value at hv
      split at hv
      · obtain ⟨t, -, hparse⟩ := Option.bind_eq_some_iff.mp hv
        exact (Option.filter_eq_some_iff.mp hparse).2
      · cases hv
    simp only [inInt64, Bool.and_eq_true, decide_eq_true_eq] at hlow ⊢
    omega
  rw [← Versions.lookup_view] at hv
  exact Prog.wp_exec (wp_increment (s := ⟨store.view r, r⟩) hq (h.setting h1) hv hint) hexec

end

/-! ## The sessions -/

/-- A session before or after its one statement. -/
def Served (C : Counter env) (c : Client) : Prop :=
  (c.todo = [] ∧ c.stage = .idle ∧ c.replies.length ≤ 1) ∨ ∃ q ∈ C.reqs, c.todo = [C.stmt q] ∧ c.replies = []

theorem Served.finish (h : C.Served c) (hne : c.todo ≠ []) (r : ExecM Result) : C.Served (c.finish r) := by
  rcases h with ⟨hnil, -⟩ | ⟨q, -, htodo, hrep⟩
  · exact absurd hnil hne
  · exact .inl ⟨by simp [Client.finish, htodo], rfl, by simp [Client.finish, hrep]⟩

theorem Served.successes_le (h : C.Served c) : c.successes ≤ 1 := by
  rcases h with ⟨-, -, hlen⟩ | ⟨q, -, -, hrep⟩
  · exact Nat.le_trans countP_le_length hlen
  · simp [Client.successes, hrep]

theorem sum_set {cs : List Client} {d : Nat} (hc : cs[j]? = some c) (hd : c'.successes = c.successes + d) :
    ((cs.set j c').map Client.successes).sum = (cs.map Client.successes).sum + d := by
  induction cs generalizing j with
  | nil => cases hc
  | cons x cs ih =>
    cases j with
    | zero =>
      obtain rfl : x = c := by simpa using hc
      simp only [set_cons_zero, map_cons, sum_cons, hd]
      omega
    | succ j =>
      simp only [set_cons_succ, map_cons, sum_cons, ih hc]
      omega

theorem Served.move {sys : Sys Val} (h : C.Served c) (hmove : Move sys c sys' c')
    (hwrites : ∀ t start i T res, c.stage = .running t start (.pure res) i →
      sys.eng.txns[t]? = some T → T.mutations ≠ []) : C.Served c' ∧ c'.successes = c.successes := by
  rcases h with ⟨hnil, hidle, -⟩ | ⟨q, hq, hstmt, hnone⟩
  · exact absurd hnil (hmove.todo hidle)
  · rcases hmove.replies with ⟨htodo, hrep⟩ | ⟨e, hfinish⟩ | ⟨t, start, i, T, res, hst, hT, hempty, -⟩
    · refine ⟨.inr ⟨q, hq, htodo.trans hstmt, hrep.trans hnone⟩, ?_⟩
      rw [Client.successes, hrep, Client.successes]
    · subst hfinish
      refine ⟨.inl ⟨by rw [Client.finish, hstmt]; rfl, rfl, by simp [Client.finish, hnone]⟩, ?_⟩
      rw [Client.successes, Client.successes, Client.finish, countP_append]
      rfl
    · exact absurd hempty (hwrites t start i T res hst hT)

structure Counting (C : Counter env) (clock₀ : Nat) (v : Int) (n : Net) : Prop where
  counted : C.Counted clock₀ v n.sys.eng.store n.sys.eng.clock
  pending : ∀ cm, n.sys.eng.phase.commit? = some cm → cm.readUint = n.sys.eng.clock
  flushed : ∀ cm, n.sys.eng.phase = .publishing cm → C.Counted clock₀ v n.sys.eng.store (n.sys.eng.clock + 1)
  successes : n.successes = n.sys.hist.length
  served : ∀ c ∈ n.clients, C.Served c
  length : n.clients.length = C.reqs.length

variable {n n' : Net} (hclk : Clocked clock₀ n.sys) (htr : Tracks n) (h : C.Counting clock₀ v n)
  (hmax : v + C.reqs.length < 2 ^ 63)

include h in
theorem Counting.room (hc : c ∈ n.clients) (htodo : c.todo ≠ []) : n.sys.hist.length < C.reqs.length := by
  have hlt : (n.clients.map Client.successes).sum < (n.clients.map fun _ => 1).sum := by
    refine sum_lt_sum _ _ (fun d hd => (h.served d hd).successes_le) ⟨c, hc, ?_⟩
    rcases h.served c hc with ⟨hnil, -⟩ | ⟨q, -, -, hrep⟩
    · exact absurd hnil htodo
    · simp [Client.successes, hrep]
  rw [← h.successes, ← h.length]
  simpa [Net.successes] using hlt

include hclk h hmax in
theorem Counting.complete (hc : c ∈ n.clients) {stmt : Stm Result}
    {rest : List (Stm Result)} (htodo : c.todo = stmt :: rest) (h1 : clock₀ ≤ r) (h2 : r ≤ n.sys.eng.clock)
    (hexec : stmt.exec underPrefix ⟨n.sys.eng.store.view r, r⟩ [] start = .ok (res, ms)) :
    (∀ m ∈ ms, C.Safe m.key m.effect) ∧
      ∃ x, lastEffect ms C.key = some x ∧ C.value x = some (v + (r - clock₀ : Nat) + 1) := by
  have hroom := h.room hc (by rw [htodo]; simp)
  have hclock := hclk.clock
  rcases h.served c hc with ⟨hnil, -⟩ | ⟨q, hq, hstmt, -⟩
  · rw [htodo] at hnil
    cases hnil
  · rw [htodo] at hstmt
    obtain ⟨rfl, -⟩ := List.cons.inj hstmt
    exact h.counted.exec hq h1 h2 (by omega) hexec

include htr h in
theorem Counting.returns (hcm : n.sys.eng.phase.commit? = some cm) (failed : Bool) :
    (∀ c ∈ n.clients.map (Client.flushed cm.txn failed), C.Served c) ∧
    (n.clients.map (Client.flushed cm.txn failed)).length = C.reqs.length ∧
    ((n.clients.map (Client.flushed cm.txn failed)).map Client.successes).sum =
      n.successes + if failed then 0 else 1 := by
  obtain ⟨j, c, start, res, stmt, rest, hc, -, htodo, -, -, -, hmap⟩ := htr.committer hcm
  rw [hmap failed]
  refine ⟨?_, (length_set ..).trans h.length, sum_set hc ?_⟩
  · intro d hd
    rcases mem_or_eq_of_mem_set hd with hd | rfl
    · exact h.served d hd
    · exact (h.served c (mem_of_getElem? hc)).finish (by simp [htodo]) _
  · rw [Client.successes, Client.finish, countP_append]
    cases failed with
    | true | false => rfl

include hclk htr h hmax

theorem Counting.reserves (hc : c ∈ n.clients) {t i : Nat}
    {T : Txn Val} (hst : c.stage = .running t start (.pure res) i)
    (hT : n.sys.eng.txns[t]? = some T) : clock₀ ≤ T.readUint ∧ T.readUint ≤ n.sys.eng.clock ∧
      ∃ m ∈ T.mutations, m.key = C.key := by
  have hholds := htr.holds c hc
  unfold Client.Holds at hholds
  rw [hst] at hholds
  obtain ⟨T1, stmt, rest, hT1, -, hle, htodo, hexec⟩ := hholds
  cases hT.symm.trans hT1
  obtain ⟨k, -, -, hread⟩ := hclk.readUint_eq hT
  have hge : clock₀ ≤ T.readUint := by omega
  obtain ⟨-, x, hx, -⟩ := h.complete hclk hmax hc htodo hge hle hexec.symm
  obtain ⟨m, hm, hkey, -⟩ := lastEffect_mem hx
  exact ⟨hge, hle, m, hm, hkey⟩

theorem Counting.client (hc : n.clients[j]? = some c) (hmove : Move n.sys c sys' c') :
    C.Counting clock₀ v ⟨sys', n.clients.set j c'⟩ ∧ (⟨sys', n.clients.set j c'⟩ : Net).state = n.state := by
  have hmem := mem_of_getElem? hc
  obtain ⟨hstore, hclock, hhist, hphase⟩ := hmove.engine
  obtain ⟨hserved, hsame⟩ := (h.served c hmem).move hmove (by
    intro t start i T res hst hT
    obtain ⟨-, -, m, hm, -⟩ := h.reserves hclk htr hmax hmem hst hT
    exact ne_nil_of_mem hm)
  refine ⟨⟨?_, ?_, ?_, ?_, ?_, ?_⟩, ?_⟩
  · show C.Counted clock₀ v sys'.eng.store sys'.eng.clock
    rw [hstore, hclock]
    exact h.counted
  · intro cm hcm
    show cm.readUint = sys'.eng.clock
    rw [hclock]
    rcases hphase with ⟨hp, -⟩ | ⟨t, start, i, T, res, fault, hst, hT, -, hcheck, hp, -⟩
    · exact h.pending cm (hp ▸ hcm)
    · -- the row has a version at the clock, so only the newest snapshot passes the check
      obtain ⟨hge, hle, m, hm, hkey⟩ := h.reserves hclk htr hmax hmem hst hT
      have hread : T.readUint = n.sys.eng.clock := by
        rcases Nat.lt_or_ge T.readUint n.sys.eng.clock with hlt | hge'
        · have hcell := h.counted.written n.sys.eng.clock (by omega) le_rfl
          have hdel := h.counted.not_deleted hge
          rw [← hkey] at hcell hdel
          exact absurd (cell_le_of_pass hcheck hm hdel hcell) (by omega)
        · omega
      rw [hp] at hcm
      cases hcm
      exact hread
  · intro cm hcm
    show C.Counted clock₀ v sys'.eng.store (sys'.eng.clock + 1)
    rw [hstore, hclock]
    rcases hphase with ⟨hp, -⟩ | ⟨t, start, i, T, res, fault, hst, hT, -, hcheck, hp, -⟩
    · exact h.flushed cm (hp ▸ hcm)
    · rw [hp] at hcm
      cases hcm
  · show ((n.clients.set j c').map Client.successes).sum = sys'.hist.length
    rw [sum_set hc (d := 0) hsame, hhist]
    exact h.successes
  · intro d hd
    rcases mem_or_eq_of_mem_set hd with hd | rfl
    · exact h.served d hd
    · exact hserved
  · exact (length_set ..).trans h.length
  · unfold Net.state
    rw [hstore, hclock]

theorem Counting.batch (hcm : n.sys.eng.phase.commit? = some cm) :
    (∀ m ∈ cm.batch, C.Safe m.key m.effect) ∧ ∃ x, lastEffect cm.batch C.key = some x ∧
      C.value x = some (v + (n.sys.eng.clock + 1 - clock₀ : Nat)) := by
  have hclock := hclk.clock
  obtain ⟨j, c, start, res, stmt, rest, hc, -, htodo, hle, -, hexec, -⟩ := htr.committer hcm
  have hread := h.pending cm hcm
  obtain ⟨hsafe, x, hx, hval⟩ := h.complete hclk hmax (mem_of_getElem? hc) htodo (by omega) hle hexec
  refine ⟨hsafe, x, hx, hval.trans (congrArg some ?_)⟩
  omega

theorem counting_step {a : Act} (hstep : n.step a = some n') :
    C.Counting clock₀ v n' ∧ (n'.successes = n.successes → n'.state = n.state) := by
  have hclock : clock₀ ≤ n.sys.eng.clock := by
    have := hclk.clock
    omega
  -- a flush writes above the clock
  have hstate : ∀ cm ms, n.sys.eng.phase.commit? = some cm →
      (n.sys.eng.store.writeBatch cm.commitTS ms).view n.sys.eng.clock = n.state := by
    intro cm ms hcm
    have hts := hclk.reserved cm hcm
    exact Versions.view_writeBatch_lt _ _ (by omega)
  cases step_move hstep with
  | client hc hmove _ =>
    obtain ⟨hcount, hstate⟩ := h.client hclk htr hmax hc hmove
    exact ⟨hcount, fun _ => hstate⟩
  | @flushed cm hphase =>
    have hcm : n.sys.eng.phase.commit? = some cm := by rw [hphase]; rfl
    have hts := hclk.reserved cm hcm
    obtain ⟨hsafe, x, hx, hval⟩ := h.batch hclk htr hmax hcm
    have hwrite := h.counted.write hclock hsafe
    rw [← hts] at hwrite
    refine ⟨⟨hwrite, fun cm' hcm' => h.pending cm' (hcm.trans hcm'), ?_, h.successes, h.served,
      h.length⟩, fun _ => hstate cm _ hcm⟩
    intro cm' _
    refine hwrite.publish ?_ ?_
    · rw [hts, Versions.read_writeBatch_self, hx]
      exact hval
    · rw [hts, Versions.cell_writeBatch, if_pos rfl, hx]
      simp
  | @failed cm persisted hphase =>
    have hcm : n.sys.eng.phase.commit? = some cm := by rw [hphase]; rfl
    have hts := hclk.reserved cm hcm
    obtain ⟨hsafe, -⟩ := h.batch hclk htr hmax hcm
    obtain ⟨hserved, hlen, hsum⟩ := h.returns htr hcm true
    have hwrite := h.counted.write hclock fun m hm => hsafe m (masked_subset persisted _ hm)
    rw [← hts] at hwrite
    exact ⟨⟨hwrite, by simp [Phase.commit?], by simp, hsum.trans h.successes, hserved, hlen⟩,
      fun _ => hstate cm _ hcm⟩
  | @published cm hphase =>
    have hcm : n.sys.eng.phase.commit? = some cm := by rw [hphase]; rfl
    have hts := hclk.reserved cm hcm
    obtain ⟨hserved, hlen, hsum⟩ := h.returns htr hcm false
    have hcounted := h.flushed cm hphase
    rw [← hts] at hcounted
    refine ⟨⟨hcounted, by simp [Phase.commit?], by simp, ?_, hserved, hlen⟩, ?_⟩
    · refine hsum.trans ?_
      rw [h.successes]
      simp
    · intro hsame
      have hmore : n.successes + 1 = n.successes := hsum.symm.trans hsame
      omega

omit hclk htr h hmax in
theorem counting_new {store : Store Val} (hbase : C.Setting (baseOf store))
    (hv : C.value ((baseOf store).lookup C.key) = some v) :
    C.Counting (Engine.new store).clock v (Net.new store C.sessions) := by
  have hmax : store.maxVersion ≤ (Engine.new store).clock := by
    simp only [Engine.new]
    split
    · omega
    · exact le_rfl
  refine ⟨⟨hbase, ?_, ?_, ?_⟩, by simp [Net.new, Sys.new, Engine.new, Phase.commit?],
    by simp [Net.new, Sys.new, Engine.new], ?_, ?_, by simp [Net.new, sessions]⟩
  · intro k t x ht hcell
    have hne : store.cell k t ≠ none := fun hnone => absurd (hcell.symm.trans hnone) (by simp)
    have hle := Versions.cell_le_maxVersion hne
    omega
  · intro r h1 h2
    obtain rfl : r = (Engine.new store).clock := Nat.le_antisymm h2 h1
    rw [baseOf, Versions.lookup_view] at hv
    exact hv.trans (by simp)
  · intro r h1 h2
    have h3 : r ≤ (Engine.new store).clock := h2
    omega
  · show ((C.sessions.map Client.new).map Client.successes).sum = 0
    rw [map_map]
    exact sum_eq_zero (by simp [Client.new, Client.successes])
  · intro c hc
    obtain ⟨ss, hss, rfl⟩ := mem_map.mp hc
    obtain ⟨q, hq, rfl⟩ := mem_map.mp hss
    exact .inr ⟨q, hq, rfl, rfl⟩

end Counter

/-- No lost update: in every state that concurrent increments of a counter reach, its
committed value is the initial one plus the number of statements that returned success, and a
step that returns no success leaves the committed state as it was. -/
theorem no_lost_update {env : Env} (C : Counter env) (store : Store Val) (v : Int)
    (hbase : C.Setting (baseOf store)) (hv : C.value ((baseOf store).lookup C.key) = some v)
    (hmax : v + C.reqs.length < 2 ^ 63) (n : Net)
    (h : Reach Net.step (fun _ _ => True) (Net.new store C.sessions) n) :
    C.value (n.state.lookup C.key) = some (v + n.successes) ∧
    ∀ a n', n.step a = some n' → n'.successes = n.successes → n'.state = n.state := by
  let I := fun n : Net => Clocked (Engine.new store).clock n.sys ∧ Tracks n ∧ C.Counting (Engine.new store).clock v n
  have hinv : I n := by
    refine h.inv (I := I) ⟨clocked_new store, tracks_new store _, C.counting_new hbase hv⟩ ?_
    intro n a n' hI _ hstep
    obtain ⟨hclk, htr, hc⟩ := hI
    exact ⟨clocked_net hclk hstep, tracks_step hclk htr hstep, (C.counting_step hclk htr hc hmax hstep).1⟩
  obtain ⟨hclk, htr, hc⟩ := hinv
  constructor
  · have hclock := hclk.clock
    have hval := hc.counted.values n.sys.eng.clock (by omega) le_rfl
    rw [Net.state, Versions.lookup_view, hval, hc.successes]
    congr 2
    omega
  · intro a n' hstep
    exact (C.counting_step hclk htr hc hmax hstep).2

/-! Two sessions, one with the id as a constant and one with it as a parameter: both begin on
the same snapshot, and the second to commit conflicts and runs again. -/

def counterSchema : TableSchema := ⟨str "t", [.plain "id" OIDInt4, .plain "n" OIDInt8], some 0, false, false, []⟩

def byConstant : Request demoEnv where
  sess := demoSession "main"
  k := .const (.int (str "1"))
  params := []
  returning := .none
  text := str "1"
  oid := OIDInt4
  constant := fun _ _ _ => rfl

def byParameter : Request demoEnv where
  sess := demoSession "main"
  k := .param 1
  params := [some (str "1")]
  returning := .star
  text := str "1"
  oid := OIDText
  constant := by
    intro sc site h
    simp [Expr.eval, evalParam, h]

def twoRequests : Counter demoEnv where
  ns := str "n"
  table := str "t"
  sch := counterSchema
  idCol := str "id"
  nCol := str "n"
  idIdx := 0
  nIdx := 1
  id := str "1"
  reqs := [byConstant, byParameter]
  not_otel := by decide
  id_col := by decide
  n_col := by decide
  pk := rfl
  n_ne_id := by decide
  n_int := by decide
  id_stored := by simp [counterSchema, ColMeta.plain]
  n_stored := by simp [counterSchema, ColMeta.plain]
  id_name := by
    intro sess site
    cases sess with
    | none => rfl
    | some s => rfl
  n_name := by
    intro sess site
    cases sess with
    | none => rfl
    | some s => rfl
  id_kept := by decide
  on_main := by simp [byConstant, byParameter, demoSession, mainBranch]
  picks := by
    intro q hq
    rcases mem_cons.mp hq with rfl | hq
    · decide
    · obtain rfl := mem_singleton.mp hq
      decide
  visible := by
    intro q _ h
    cases h

def counterStore : Store Val :=
  [⟨schemaKey (str "n") (str "t"), 1, some (.schema counterSchema)⟩,
   ⟨rowKey (str "n") mainBranch (str "t") (str "1"), 1, some (.row [some (str "1"), some (str "5")])⟩]

theorem twoRequests_setting : twoRequests.Setting (baseOf counterStore) := by
  have hentries : (baseOf counterStore).entries =
      [(rowKey (str "n") mainBranch (str "t") (str "1"), .row [some (str "1"), some (str "5")]),
       (schemaKey (str "n") (str "t"), .schema counterSchema)] := by decide +kernel
  refine ⟨by decide +kernel, by decide +kernel, by decide +kernel, ?_⟩
  intro k cells _ hl
  rw [OrdMap.lookup_eq_some, hentries] at hl
  simp only [mem_cons, Prod.mk.injEq, Val.row.injEq, reduceCtorEq, and_false, not_mem_nil, or_false] at hl
  obtain ⟨rfl, rfl⟩ := hl
  exact .inl ⟨rfl, rfl⟩

def twoIncrements : List Act :=
  [.start 0 0, .start 1 0] ++ steps 7 0 ++ [.flush, .publish] ++ steps 8 1 ++ [.start 1 0] ++
    steps 8 1 ++ [.flush, .publish]

theorem no_lost_update_retried : ∃ n, Reach Net.step (fun _ _ => True) (Net.new counterStore twoRequests.sessions) n ∧
    n.successes = 2 ∧ twoRequests.value (n.state.lookup twoRequests.key) = some 7 := by
  have hobserved : (runAll Net.step (fun _ _ => True) (Net.new counterStore twoRequests.sessions)
      twoIncrements).map Net.successes = some 2 := by decide +kernel
  obtain ⟨n, hrun, htwo⟩ := exists_reach twoIncrements hobserved
  have h := no_lost_update twoRequests counterStore 5 twoRequests_setting (by decide +kernel)
    (by decide) n hrun
  refine ⟨n, hrun, htwo, ?_⟩
  rw [h.1, htwo]
  rfl

end BasuyuDb.Executor
