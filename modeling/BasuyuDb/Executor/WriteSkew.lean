import BasuyuDb.Executor.Execute
import BasuyuDb.Executor.Integrity
import BasuyuDb.Executor.Sessions

/-
  UNIQUE and FOREIGN KEY under concurrency. The checks of a statement read its snapshot, and
  Commit compares only the keys written, so two transactions with disjoint writes can both
  pass checks that the other one's commit has made stale. In every run in which a transaction
  commits only while its reads are current, the committed state is one that a serial execution
  of the statements goes through, and serial executions keep the constraints.
-/

namespace BasuyuDb.Executor
open KvLib Storage Transactions List

/-- The reads of a session's statement would be answered the same by the committed state, at
the step that commits it. -/
def Net.currentReads (n : Net) : Act → Bool
  | .advance j _ =>
    match n.clients[j]? with
    | none => true
    | some c =>
      match c.stage, c.todo with
      | .running t start (.pure _) _, stmt :: _ =>
        match n.sys.eng.txns[t]? with
        | none => true
        | some T => T.mutations = [] ∨ ∀ r ∈ stmt.reads underPrefix (snapOf n.sys.eng T) [] start,
              r.Same underPrefix (snapOf n.sys.eng T) ⟨n.state, n.sys.eng.clock⟩
      | _, _ => true
  | _ => true

/-- The steps of runs without stale commits: current reads, and a flush publishes no versions
that an earlier failed flush left behind. -/
def Net.current (n : Net) (a : Act) : Bool :=
  n.currentReads a && match a with
    | .flush => coversLeftovers n.sys .flush
    | _ => true

/-- UNIQUE and FOREIGN KEY in a state. -/
def ConstraintsOk (env : Env) (ns : Bytes) (W : State) : Prop := UniqueOk env ns W ∧ ForeignKeysOk env ns W

/-- The sessions' statements as programs. -/
def programs (env : Env) (sessions : List (List DmlCall)) : List (List (Stm Result)) :=
  sessions.map fun calls => calls.map (DmlCall.run env)

/-- No serial execution of the statements, in any order, goes through a state that breaks a
constraint. -/
def SerialOk (env : Env) (ns : Bytes) (store : Store Val) (sessions : List (List DmlCall)) : Prop :=
  ∀ order : List (Stm Result × Nat), (order.map Prod.fst).Perm (programs env sessions).flatten →
    ∀ k, ConstraintsOk env ns
      (Prog.serial underPrefix ⟨baseOf store, (Engine.new store).clock⟩ (order.take k)).map

/-! ## Committed states are serial -/

/-- The statements a session has not returned yet. -/
def Net.remaining (n : Net) : List (Stm Result) := n.clients.flatMap Client.todo

/-- The commits so far are a serial execution; the statements outside it have failed, written
nothing, or not returned. -/
def SerialOrder (all : List (Stm Result)) (clock₀ : Nat) (base : State) (n : Net) : Prop :=
  ∃ (L : List (Stm Result × Nat)) (others : List (Stm Result)), (L.map Prod.fst ++ (others ++ n.remaining)).Perm all ∧
    Prog.serial underPrefix ⟨base, clock₀⟩ L = ⟨committed base n.sys.hist, n.sys.eng.clock⟩

/-- A commit in progress continues the serial execution. -/
structure Serialized (all : List (Stm Result)) (clock₀ : Nat) (base : State) (n : Net) : Prop where
  order : SerialOrder all clock₀ base n
  pending : ∀ cm, n.sys.eng.phase.commit? = some cm → ∀ (j : Nat) c start res stmt rest,
    n.clients[j]? = some c → c.stage = .committing cm.txn start res → c.todo = stmt :: rest →
    stmt.exec underPrefix ⟨committed base n.sys.hist, n.sys.eng.clock⟩ [] start = .ok (res, cm.batch)

section serial
variable {all : List (Stm Result)} {clock₀ : Nat} {base : State} {n n' : Net}
  {j : Nat} {c c' : Client} {stmt : Stm Result} {rest : List (Stm Result)}

variable {cs : List Client} {sys' : Sys Val} {start : Nat} {res : Result} {a : Act}

theorem flatMap_set (hc : cs[j]? = some c) {done : List (Stm Result)} (h : done ++ c'.todo = c.todo) :
    (done ++ (cs.set j c').flatMap Client.todo).Perm (cs.flatMap Client.todo) := by
  induction cs generalizing j with
  | nil => cases hc
  | cons x cs ih =>
    cases j with
    | zero =>
      obtain rfl : x = c := by simpa using hc
      simp [← h]
    | succ j =>
      simp only [set_cons_succ, flatMap_cons]
      refine (perm_append_comm_assoc ..).trans ?_
      exact (ih hc).append_left x.todo

theorem SerialOrder.client (h : SerialOrder all clock₀ base n)
    (hc : n.clients[j]? = some c) (hhist : sys'.hist = n.sys.hist)
    (hclock : sys'.eng.clock = n.sys.eng.clock) (htodo : c'.todo <:+ c.todo) :
    SerialOrder all clock₀ base ⟨sys', n.clients.set j c'⟩ := by
  obtain ⟨L, others, hperm, hserial⟩ := h
  obtain ⟨done, hdone⟩ := htodo
  rw [← hhist, ← hclock] at hserial
  refine ⟨L, others ++ done, List.Perm.trans (List.Perm.append_left _ ?_) hperm, hserial⟩
  rw [append_assoc]
  exact (flatMap_set hc hdone).append_left others

theorem SerialOrder.commit (h : SerialOrder all clock₀ base n) {cm : Commit Val}
    (hc : n.clients[j]? = some c) (htodo : c.todo = stmt :: rest) (hne : cm.batch ≠ [])
    (hexec : stmt.exec underPrefix ⟨committed base n.sys.hist, n.sys.eng.clock⟩ [] start =
      .ok (res, cm.batch)) (hhist : sys'.hist = n.sys.hist ++ [cm]) (hclock : sys'.eng.clock = n.sys.eng.clock + 1) :
    SerialOrder all clock₀ base ⟨sys', n.clients.set j (c.finish (.ok res))⟩ := by
  obtain ⟨L, others, hperm, hserial⟩ := h
  refine ⟨L ++ [(stmt, start)], others, ?_, ?_⟩
  · have htail : [stmt] ++ (c.finish (.ok res)).todo = c.todo := by rw [Client.finish, htodo]; rfl
    have hset := flatMap_set hc htail
    refine List.Perm.trans ?_ hperm
    rw [map_append, append_assoc]
    refine List.Perm.append_left _ ?_
    show (stmt :: (others ++ _)).Perm (others ++ n.remaining)
    exact perm_middle.symm.trans (List.Perm.append_left _ hset)
  · unfold Prog.serial at hserial ⊢
    rw [foldl_concat, hserial, Prog.commitOn_of_exec hexec hne, hhist, hclock, committed_concat]

theorem state_eq_committed (hclk : Clocked clock₀ n.sys) (href : Refines clock₀ base n.sys) :
    n.state = committed base n.sys.hist := by
  have hview := href.views n.sys.hist.length le_rfl
  rw [← hclk.clock, take_length] at hview
  exact hview

theorem refines_net (hclk : Clocked clock₀ n.sys) (href : Refines clock₀ base n.sys)
    (hok : n.current a = true) (hstep : n.step a = some n') : Refines clock₀ base n'.sys := by
  rcases step_sys hstep with hsame | ⟨call, hcall, hflush⟩
  · rw [hsame]
    exact href
  · refine refines_step hclk href ?_ hcall
    unfold Net.current at hok
    cases call with
    | flush =>
      obtain rfl := hflush rfl
      exact (Bool.and_eq_true_iff.mp hok).2
    | _ => rfl

/-- What a statement does on its snapshot it does on the committed state, if its reads are
current. -/
theorem serialized_step (hclk : Clocked clock₀ n.sys) (htr : Tracks n) (href : Refines clock₀ base n.sys)
    (h : Serialized all clock₀ base n) (hok : n.current a = true)
    (hstep : n.step a = some n') : Serialized all clock₀ base n' := by
  have htr' := tracks_step hclk htr hstep
  cases step_move hstep with
  | @client _ j c c' sys' hc hmove hact =>
    obtain ⟨-, hclock, hhist, hphase⟩ := hmove.engine
    have htodo : c'.todo <:+ c.todo := by
      rcases hmove.replies with ⟨htodo, -⟩ | ⟨e, rfl⟩ | ⟨t, start, i, T, res, -, -, -, rfl⟩
      · rw [htodo]
      · exact tail_suffix _
      · exact tail_suffix _
    refine ⟨h.order.client hc hhist hclock htodo, ?_⟩
    intro cm hcm j' d start res stmt rest hd hst hstmt
    have hj := (List.getElem?_eq_some_iff.mp hc).1
    show stmt.exec underPrefix ⟨committed base sys'.hist, sys'.eng.clock⟩ [] start = .ok (res, cm.batch)
    rw [hhist, hclock]
    rcases hphase with ⟨hp, hnot⟩ | ⟨t, start', i, T, res', fault', hrun, hT, hne, -, hp, rfl⟩
    · -- the commit in progress is another session's
      have hjj : j ≠ j' := by
        intro heq
        subst heq
        cases (getElem?_set_self hj).symm.trans hd
        exact hnot _ _ _ hst
      exact h.pending cm (hp ▸ hcm) j' d start res stmt rest ((getElem?_set_ne hjj).symm.trans hd)
        hst hstmt
    · -- the session's own commit begins: its statement runs on the committed state
      have hcm' : cm = ⟨t, T.readUint, n.sys.eng.clock + 1, T.mutations⟩ := by
        have hcommit : sys'.eng.phase.commit? = some cm := hcm
        rw [hp] at hcommit
        exact (Option.some.inj hcommit).symm
      have hjj : j' = j := htr'.distinct j' j d _ cm.txn hd (getElem?_set_self hj)
        (by rw [hst]; rfl) (by rw [hcm']; rfl)
      subst hjj
      cases (getElem?_set_self hj).symm.trans hd
      obtain ⟨-, rfl, rfl⟩ : t = cm.txn ∧ start' = start ∧ res' = res := by simpa using hst
      rcases hact with hidle | ⟨fault, rfl⟩
      · rw [hidle] at hrun
        cases hrun
      · have hreads := (Bool.and_eq_true_iff.mp hok).1
        have htodo : c.todo = stmt :: rest := hstmt
        simp only [Net.currentReads, hc, hrun, htodo, hT, decide_eq_true_eq] at hreads
        have hsame := hreads.resolve_left hne
        rw [state_eq_committed hclk href] at hsame
        rw [Prog.exec_congr hsame]
        have hholds := htr.holds c (mem_of_getElem? hc)
        unfold Client.Holds at hholds
        rw [hrun] at hholds
        obtain ⟨T1, stmt1, rest1, hT1, -, -, htodo1, hexec⟩ := hholds
        cases hT.symm.trans hT1
        obtain ⟨rfl, -⟩ := List.cons.inj (htodo1.symm.trans hstmt)
        rw [← hexec, hcm']
        rfl
  | @flushed cm hphase =>
    have hcm : n.sys.eng.phase.commit? = some cm := by rw [hphase]; rfl
    exact ⟨h.order, fun cm' hcm' => h.pending cm' (hcm.trans hcm')⟩
  | @failed cm persisted hphase =>
    have hcm : n.sys.eng.phase.commit? = some cm := by rw [hphase]; rfl
    obtain ⟨j, c, start, res, stmt, rest, hc, -, -, -, -, -, hmap⟩ := htr.committer hcm
    rw [hmap true]
    exact ⟨h.order.client hc rfl rfl (tail_suffix _), by simp [Phase.commit?]⟩
  | @published cm hphase =>
    have hcm : n.sys.eng.phase.commit? = some cm := by rw [hphase]; rfl
    obtain ⟨j, c, start, res, stmt, rest, hc, hst, htodo, -, hne, -, hmap⟩ := htr.committer hcm
    rw [hmap false]
    have hexec := h.pending cm hcm j c start res stmt rest hc hst htodo
    exact ⟨h.order.commit hc htodo hne hexec rfl (hclk.reserved cm hcm), by simp [Phase.commit?]⟩

end serial

/-- UNIQUE and FOREIGN KEY hold in every committed state, in every run in which transactions
commit on current reads. -/
theorem constraints_of_current_reads (env : Env) (ns : Bytes) (store : Store Val)
    (sessions : List (List DmlCall)) (hserial : SerialOk env ns store sessions) (n : Net)
    (h : Reach Net.step (fun n a => n.current a = true) (Net.new store (programs env sessions)) n) :
    ConstraintsOk env ns n.state := by
  let clock₀ := (Engine.new store).clock
  let all := (programs env sessions).flatten
  let I := fun n : Net => Clocked clock₀ n.sys ∧ Tracks n ∧ Refines clock₀ (baseOf store) n.sys ∧
    Serialized all clock₀ (baseOf store) n
  have hnew : Serialized all clock₀ (baseOf store) (Net.new store (programs env sessions)) := by
    refine ⟨⟨[], [], ?_, rfl⟩, by simp [Net.new, Sys.new, Engine.new, Phase.commit?]⟩
    have htodo : (Net.new store (programs env sessions)).remaining = all := by
      show ((programs env sessions).map Client.new).flatMap Client.todo = (programs env sessions).flatten
      rw [flatMap_map]
      exact flatMap_id'
    rw [htodo]
    exact List.Perm.refl _
  have hinv : I n := by
    refine h.inv (I := I) ⟨clocked_new store, tracks_new store _, refines_new store, hnew⟩ ?_
    intro n a n' hI hok hstep
    obtain ⟨hclk, htr, href, hser⟩ := hI
    exact ⟨clocked_net hclk hstep, tracks_step hclk htr hstep, refines_net hclk href hok hstep,
      serialized_step hclk htr href hser hok hstep⟩
  obtain ⟨hclk, -, href, ⟨L, others, hperm, hL⟩, -⟩ := hinv
  -- the statements outside the serial execution come after it
  have hfst : ((others ++ n.remaining).map fun p => (p, 0)).map Prod.fst = others ++ n.remaining := by
    rw [map_map]
    exact map_id _
  have hprefix := hserial (L ++ (others ++ n.remaining).map fun p => (p, 0))
    (by rw [map_append, hfst]; exact hperm) L.length
  rw [take_left', hL] at hprefix
  · rw [state_eq_committed hclk href]
    exact hprefix
  · rfl

/-! ## Write skew on a unique index

Two sessions insert rows with different ids and one value of the unique column `u`. Whichever
comes first in a serial execution, the other one fails. -/

def skewSchema : TableSchema := ⟨str "t", [.plain "id" OIDInt4, .plain "u" OIDInt4], some 0, false, false, []⟩

def skewIndex : IndexDef := ⟨str "t_u_key", str "t", [str "u"], true, [], []⟩

def skewStore : Store Val :=
  [⟨schemaKey (str "n") (str "t"), 1, some (.schema skewSchema)⟩,
   ⟨schemaKey (str "n") (str "t#idx"), 1, some (.indexes [skewIndex])⟩]

def insertCall (id u : String) : DmlCall :=
  ⟨demoSession "main", .insert ⟨str "t", [], [.const (.int (str id)), .const (.int (str u))], none, .none⟩, []⟩

def skewRow (id : String) : ScanRow := keyedRow "t" [id, "5"]

def skewSessions : List (List DmlCall) := [[insertCall "1" "5"], [insertCall "2" "5"]]

def skewBase : Snap Bytes Val := ⟨baseOf skewStore, (Engine.new skewStore).clock⟩

/-- The state after one of the inserts alone. -/
def afterInsert (id : String) : Snap Bytes Val :=
  Prog.commitOn underPrefix skewBase ((insertCall id "5").run demoEnv, 0)

theorem constraintsOk_single {W : State} (rows : List ScanRow) (htables : tablesIn (str "n") W = [skewSchema])
    (hrows : (rowsIn (str "n") W (str "t") 2).toOption = some rows) (hlen : rows.length ≤ 1) :
    ConstraintsOk demoEnv (str "n") W := by
  constructor
  · intro sch hsch defs rows' _ hrows' d _ _ r hr r' hr' _ _ _ _ _
    rw [htables] at hsch
    obtain rfl := mem_singleton.mp hsch
    have hrows'' : rowsIn (str "n") W (str "t") 2 = .ok rows' := hrows'
    rw [hrows''] at hrows
    obtain rfl : rows' = rows := Option.some.inj hrows
    have hsame : r = r' := by
      match rows', hlen, hr, hr' with
      | [x], _, hr, hr' => rw [mem_singleton.mp hr, mem_singleton.mp hr']
    rw [hsame]
  · intro sch hsch _ _ fk hfk
    rw [htables] at hsch
    obtain rfl := mem_singleton.mp hsch
    cases hfk

theorem skew_serialOk : SerialOk demoEnv (str "n") skewStore skewSessions := by
  have hbase : ConstraintsOk demoEnv (str "n") skewBase.map :=
    constraintsOk_single [] (by decide +kernel) (by decide +kernel) (by decide)
  -- the first insert of an execution succeeds, the second one fails
  have hfirst : ∀ id, id = "1" ∨ id = "2" → ConstraintsOk demoEnv (str "n") (afterInsert id).map ∧
      ∀ i, Prog.commitOn underPrefix skewBase ((insertCall id "5").run demoEnv, i) = afterInsert id := by
    rintro id (rfl | rfl)
    · exact ⟨constraintsOk_single [skewRow "1"] (by decide +kernel) (by decide +kernel) (by decide), fun i => rfl⟩
    · exact ⟨constraintsOk_single [skewRow "2"] (by decide +kernel) (by decide +kernel) (by decide), fun i => rfl⟩
  have hsecond2 : ∀ i, Prog.commitOn underPrefix (afterInsert "1") ((insertCall "2" "5").run demoEnv, i) =
      afterInsert "1" := fun i => rfl
  have hsecond1 : ∀ i, Prog.commitOn underPrefix (afterInsert "2") ((insertCall "1" "5").run demoEnv, i) =
      afterInsert "2" := fun i => rfl
  have hprefixes : ∀ p q : Stm Result × Nat, ∀ W, ConstraintsOk demoEnv (str "n") W.map →
      Prog.commitOn underPrefix skewBase p = W → Prog.commitOn underPrefix W q = W →
      ∀ k, ConstraintsOk demoEnv (str "n") (Prog.serial underPrefix skewBase ([p, q].take k)).map := by
    intro p q W hW hp hq k
    match k with
    | 0 => exact hbase
    | 1 =>
      show ConstraintsOk _ _ (Prog.commitOn underPrefix skewBase p).map
      rw [hp]
      exact hW
    | k + 2 =>
      rw [take_of_length_le (by simp)]
      show ConstraintsOk _ _ (Prog.commitOn underPrefix (Prog.commitOn underPrefix skewBase p) q).map
      rw [hp, hq]
      exact hW
  intro order hperm k
  obtain ⟨⟨p, i⟩, ⟨q, j⟩, rfl⟩ : ∃ x y, order = [x, y] := by
    have hlen := hperm.length_eq
    rw [length_map] at hlen
    exact length_eq_two.mp hlen
  have hcases : [p, q] = [(insertCall "1" "5").run demoEnv, (insertCall "2" "5").run demoEnv] ∨
      [p, q] = [(insertCall "2" "5").run demoEnv, (insertCall "1" "5").run demoEnv] := pair_perm.mp hperm.symm
  rcases hcases with h | h
  · obtain ⟨rfl, rfl⟩ : p = _ ∧ q = _ := by simpa using h
    exact hprefixes _ _ _ (hfirst _ (.inl rfl)).1 ((hfirst _ (.inl rfl)).2 i) (hsecond2 j) k
  · obtain ⟨rfl, rfl⟩ : p = _ ∧ q = _ := by simpa using h
    exact hprefixes _ _ _ (hfirst _ (.inr rfl)).1 ((hfirst _ (.inr rfl)).2 i) (hsecond1 j) k

/-- One insert commits, then the other one runs and fails on the unique index. -/
theorem constraints_of_current_reads_serial : ∃ n : Net,
    Reach Net.step (fun n a => n.current a = true) (Net.new skewStore (programs demoEnv skewSessions)) n ∧
    n.clients.map (fun c => c.replies.map Except.isOk) = [[true], [false]] ∧
    ConstraintsOk demoEnv (str "n") n.state := by
  have hobserved : (runAll Net.step (fun n a => n.current a = true)
      (Net.new skewStore (programs demoEnv skewSessions))
      ([.start 0 0] ++ steps 10 0 ++ [.flush, .publish] ++ [.start 1 0] ++ steps 8 1)).map
      (fun n => n.clients.map fun c => c.replies.map Except.isOk) = some [[true], [false]] := by
    decide +kernel
  obtain ⟨n, hrun, hreplies⟩ := exists_reach _ hobserved
  exact ⟨n, hrun, hreplies, constraints_of_current_reads demoEnv (str "n") skewStore skewSessions
    skew_serialOk n hrun⟩

/-- Both sessions begin, check the unique index and commit: two rows have the value 5. -/
theorem unique_violated_concurrently : SerialOk demoEnv (str "n") skewStore skewSessions ∧
    ∃ n, Reach Net.step (fun _ _ => True) (Net.new skewStore (programs demoEnv skewSessions)) n ∧
      ¬UniqueOk demoEnv (str "n") n.state := by
  refine ⟨skew_serialOk, ?_⟩
  have hobserved : (runAll Net.step (fun _ _ => True) (Net.new skewStore (programs demoEnv skewSessions))
      ([.start 0 0, .start 1 0] ++ steps 9 0 ++ steps 9 1 ++ steps 1 0 ++ [.flush, .publish] ++
        steps 1 1 ++ [.flush, .publish])).map
      (fun n => (tablesIn (str "n") n.state, indexesIn (str "n") n.state (str "t"),
        (rowsIn (str "n") n.state (str "t") 2).toOption)) =
      some ([skewSchema], some [skewIndex], some [skewRow "1", skewRow "2"]) := by decide +kernel
  obtain ⟨n, hrun, hstate⟩ := exists_reach _ hobserved
  obtain ⟨htables, hindexes, hrows⟩ : tablesIn (str "n") n.state = [skewSchema] ∧
      indexesIn (str "n") n.state (str "t") = some [skewIndex] ∧
      (rowsIn (str "n") n.state (str "t") 2).toOption = some [skewRow "1", skewRow "2"] := by simpa using hstate
  have hrows' : rowsIn (str "n") n.state (str "t") 2 = .ok [skewRow "1", skewRow "2"] := ok_of_toOption hrows
  refine ⟨n, hrun, fun h => ?_⟩
  have hsame := h skewSchema (by rw [htables]; exact mem_singleton_self _) [skewIndex]
    [skewRow "1", skewRow "2"] hindexes hrows' skewIndex (mem_singleton_self _) rfl (skewRow "1") (by simp)
    (skewRow "2") (by simp) (Site.root 0) (Site.root 0) (putUint64 (5 + 2 ^ 63)) (by decide) (by decide)
  cases hsame

end BasuyuDb.Executor
