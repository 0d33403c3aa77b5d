import BasuyuDb.Executor.RlsWrite
import BasuyuDb.Executor.Relations

/-
  engine/internal/executor/dml.go, advanced_dml.go: UPDATE and UPDATE ... FROM that assign the primary
  key. A row is written under the key of its new cells, and nothing removes it from the key it had. So
  the rows of a table move as an UPDATE should move them exactly when the keys the statement assigns are,
  all together, the keys of the rows it targets (`key_update_iff`): they stay, or are exchanged.
-/

namespace BasuyuDb.Executor
open KvLib Storage Branch List Option
open Prog hiding pure bind

/-! ## The statements -/

inductive SetStmt where
  | update (s : UpdateStmt)
  | updateFrom (s : UpdateFromStmt)

/-- UPDATE, with or without FROM, as a session executes it. -/
structure SetCall where
  sess : Session
  stmt : SetStmt
  params : Data

variable (c : SetCall)

def SetCall.table : Bytes :=
  match c.stmt with
  | .update s => s.table
  | .updateFrom s => s.table

def SetCall.sources : List FromItem :=
  match c.stmt with
  | .update _ => []
  | .updateFrom s => s.fromClause

def SetCall.toRowCall : RowCall :=
  match c.stmt with
  | .update s => ⟨c.sess, .dml (.update s), c.params⟩
  | .updateFrom s => ⟨c.sess, .updateFrom s, c.params⟩

section calls
variable (env : Env)

abbrev SetCall.run : Stm Result := c.toRowCall.run env

variable (sch : TableSchema) (defs : List IndexDef) (fromRows : List (List Binding))

/-- What the statement makes of a row: its new cells, or nothing when it is not targeted. -/
def SetCall.assigned (cells : Data) (site : Site) : ExecM (Option Data) :=
  match c.stmt with
  | .update s => do
    if ← targetsRow env c.sess .update sch s.table s.whereClause c.params cells site.l then
      return some (← updatedCells env c.sess s sch c.params cells site.r)
    else return none
  | .updateFrom s => do
    match ← updateMatch env c.sess s sch c.params fromRows cells site.l with
    | none => return none
    | some row => return some (← updatedFromCells env c.sess s sch c.params row cells site.r)

def SetCall.body (r : ScanRow) : Stm (Option Data) :=
  match c.stmt with
  | .update s => updateRow env c.sess s sch defs c.params r
  | .updateFrom s => updateFromRow env c.sess s sch defs c.params fromRows r

/-- The rows the statement writes itself, each with its new cells. -/
def SetCall.moves : Stm (TableSchema × List (ScanRow × Data)) := do
  let sc ← scanTable c.sess c.table
  let defs ← loadIndexes c.sess c.table
  let fromRows ← materializeAll c.sess c.sources
  let rows ← Prog.collectWith sc.2 (c.body env sc.1 defs fromRows)
  pure (sc.1, rows)

def SetCall.replyOf (x : TableSchema × List (ScanRow × Data)) : Stm Result :=
  match c.stmt with
  | .update s => result env "UPDATE" x.1 s.table s.returning c.params (x.2.map Prod.snd)
  | .updateFrom s => result env "UPDATE" x.1 s.table s.returning c.params (x.2.map Prod.snd)

/-- The key under which a row with new cells is written. -/
def SetCall.newKey (m : ScanRow × Data) : Bytes :=
  branchRowKey c.sess c.table sch m.2 m.1.key

variable {env}

theorem SetCall.run_moves : c.run env = c.moves env >>= c.replyOf env := by
  obtain ⟨sess, stmt, params⟩ := c
  cases stmt with
  | update s =>
    simp only [SetCall.run, SetCall.toRowCall, RowCall.run, DmlCall.run, execUpdate, SetCall.moves, SetCall.table,
      SetCall.sources, SetCall.replyOf, materializeAll, collect_eq_collectWith, Prog.bind_assoc, pure_bind]
    rfl
  | updateFrom s =>
    simp only [SetCall.run, SetCall.toRowCall, RowCall.run, execUpdateFrom, SetCall.moves, SetCall.table,
      SetCall.sources, SetCall.replyOf, collect_eq_collectWith, Prog.bind_assoc, pure_bind]
    rfl

theorem SetCall.replyOf_writes {x : TableSchema × List (ScanRow × Data)} :
    (c.replyOf env x).Writes (fun _ => False) := by
  unfold SetCall.replyOf
  split
  · exact result_writes
  · exact result_writes

theorem SetCall.wp_body {sch : TableSchema} {defs : List IndexDef} {fromRows : List (List Binding)} {r : ScanRow}
    {s : Snap Bytes Val} {buf : Buffer} {Q : Option Data → Buffer → Prop}
    (hskip : ∀ n, c.assigned env sch fromRows r.cells (Site.root n) = .ok none → Q none buf)
    (hstore : ∀ n cells, c.assigned env sch fromRows r.cells (Site.root n) = .ok (some cells) →
      (storeUpdated env c.sess c.table sch defs c.params r cells).wp underPrefix s Q buf) :
    (c.body env sch defs fromRows r).wp underPrefix s Q buf := by
  obtain ⟨sess, stmt, params⟩ := c
  cases stmt with
  | update st =>
    refine wp_guarded (fun n htarget => hskip n ?_) fun n htarget => ?_
    · simp [SetCall.assigned, htarget, bind, Except.bind, pure, Except.pure]
    · rw [wp_bind, wp_ofExcept]
      exact fun cells hcells => hstore n cells (by
        simp [SetCall.assigned, htarget, hcells, bind, Except.bind, pure, Except.pure])
  | updateFrom st =>
    simp only [SetCall.body, updateFromRow, wp_bind, wp_tick, wp_ofExcept]
    intro n found hmatch
    cases found with
    | none =>
      refine hskip n ?_
      simp [SetCall.assigned, hmatch, bind, Except.bind, pure, Except.pure]
    | some row =>
      dsimp only
      rw [wp_bind, wp_ofExcept]
      exact fun cells hcells => hstore n cells (by
        simp [SetCall.assigned, hmatch, hcells, bind, Except.bind, pure, Except.pure])

end calls

/-! ## What the writes leave of the table -/

/-- The foreign keys whose rows an UPDATE of the table rewrites belong to tables whose rows are elsewhere. -/
def ActionsApart (env : Env) (ns table : Bytes) (W : State) : Prop :=
  ∀ t fk, (t, fk) ∈ referencing env table (tablesIn ns W) → fk.rewritesOnUpdate = true →
    ∀ k, rowPrefix ns mainBranch t.name <+: k → ¬ rowPrefix ns mainBranch table <+: k

/-- Of the rows of the table, nothing but those under some keys has changed, and these are there. -/
structure RowsWritten (ns table : Bytes) (keys : List Bytes) (W W' : State) : Prop where
  kept : ∀ k, rowPrefix ns mainBranch table <+: k → k ∉ keys → W'.lookup k = W.lookup k
  made : ∀ k ∈ keys, rowPrefix ns mainBranch table <+: k ∧ ∃ cells, W'.lookup k = some (.row cells)

theorem Wrote.rowsWritten {sess : Session} {s : Snap Bytes Val} {children : TableSchema → Prop} {table : Bytes}
    {moves : List (ScanRow × Data)} {newKey : ScanRow × Data → Bytes} {buf : Buffer} (hmain : sess.branch = mainBranch)
    (hapart : Apart children sess.ns table)
    (h : Wrote sess s.map children table (moves.map fun m => assignment (newKey m) (encodeRow m.2)) buf) :
    RowsWritten sess.ns table (moves.map newKey) s.map (s.seen buf) where
  kept k hk hne := by
    rw [h.lookup_rows hmain hapart hk]
    refine (s.lookup_seen_cases _ k).resolve_right fun ⟨m, hm, hmk, _⟩ => hne ?_
    obtain ⟨p, hp, rfl⟩ := List.mem_map.mp hm
    exact List.mem_map.mpr ⟨p, hp, hmk⟩
  made k hk := by
    obtain ⟨p, hp, rfl⟩ := List.mem_map.mp hk
    have hmem := List.mem_map_of_mem (f := fun m => assignment (newKey m) (encodeRow m.2)) hp
    have hunder := rowAt_main hmain (h.own_at _ hmem)
    obtain ⟨m, hm, -, heff⟩ := s.lookup_seen_mem hmem
    obtain ⟨p', -, rfl⟩ := List.mem_map.mp hm
    exact ⟨hunder, p'.2, (h.lookup_rows hmain hapart hunder).trans heff⟩

/-! ## Rows that move -/

/-- The rows of a table move from their keys to new ones: there are as many as before, a key that was left
has a row only if one of the rows moved there, and the rows that do not move are as they were. -/
structure Relocated (newKey : ScanRow × Data → Bytes) (rows rows' : List ScanRow)
    (moves : List (ScanRow × Data)) : Prop where
  count : rows'.length = rows.length
  vacated : ∀ m ∈ moves, m.1.key ∈ rows'.map ScanRow.key → ∃ m' ∈ moves, newKey m' = m.1.key
  kept : ∀ r ∈ rows, r ∉ moves.map Prod.fst → r ∈ rows'

section relocated
variable {newKey : ScanRow × Data → Bytes} {rows rows' : List ScanRow} {moves : List (ScanRow × Data)}

/-- Rows that are written under new keys and not removed from the old ones. -/
structure Overwritten (newKey : ScanRow × Data → Bytes) (rows rows' : List ScanRow)
    (moves : List (ScanRow × Data)) : Prop where
  nodup : (rows.map ScanRow.key).Nodup
  nodup' : (rows'.map ScanRow.key).Nodup
  targets : (moves.map Prod.fst).Sublist rows
  keys : ∀ k, k ∈ rows'.map ScanRow.key ↔ k ∈ rows.map ScanRow.key ∨ k ∈ moves.map newKey
  kept : ∀ r ∈ rows, r.key ∉ moves.map newKey → r ∈ rows'

theorem Overwritten.oldKeys (h : Overwritten newKey rows rows' moves) :
    (moves.map fun m => m.1.key).Sublist (rows.map ScanRow.key) := by
  have hmap := h.targets.map ScanRow.key
  rwa [List.map_map] at hmap

/-- No old key is left empty, so all of them must be taken; there are no more new keys than old ones. -/
theorem Overwritten.perm (h : Overwritten newKey rows rows' moves) (hmoved : Relocated newKey rows rows' moves) :
    (moves.map newKey).Perm (moves.map fun m => m.1.key) := by
  have hsub : moves.map (fun m => m.1.key) ⊆ moves.map newKey := by
    intro k hk
    obtain ⟨m, hm, rfl⟩ := List.mem_map.mp hk
    obtain ⟨m', hm', heq⟩ := hmoved.vacated m hm ((h.keys _).mpr (.inl (h.oldKeys.subset hk)))
    exact List.mem_map.mpr ⟨m', hm', heq⟩
  have hnodup : (moves.map fun m => m.1.key).Nodup := h.nodup.sublist h.oldKeys
  refine ((subperm_of_subset hnodup hsub).perm_of_length_le ?_).symm
  rw [length_map, length_map]

theorem Overwritten.relocated (h : Overwritten newKey rows rows' moves)
    (hperm : (moves.map newKey).Perm (moves.map fun m => m.1.key)) : Relocated newKey rows rows' moves where
  count := by
    have hkeys : (rows'.map ScanRow.key).Perm (rows.map ScanRow.key) := by
      refine (perm_ext_iff_of_nodup h.nodup' h.nodup).mpr fun k => ?_
      rw [h.keys]
      exact or_iff_left_of_imp fun hk => h.oldKeys.subset (hperm.mem_iff.mp hk)
    simpa using hkeys.length_eq
  vacated m hm _ := List.mem_map.mp (hperm.mem_iff.mpr (List.mem_map.mpr ⟨m, hm, rfl⟩))
  kept r hr hnot := by
    refine h.kept r hr fun hk => hnot ?_
    obtain ⟨m, hm, heq⟩ := List.mem_map.mp (hperm.mem_iff.mp hk)
    have hm' : m.1 ∈ moves.map Prod.fst := List.mem_map.mpr ⟨m, hm, rfl⟩
    rwa [← inj_on_of_nodup_map h.nodup (h.targets.subset hm') hr heq]

end relocated

section overwritten
variable {ns table : Bytes} {W W' : State} {n : Nat} {rows : List ScanRow} {keys : List Bytes}

theorem RowsWritten.rowsIn (h : RowsWritten ns table keys W W') (hrows : rowsIn ns W table n = .ok rows) :
    ∃ rows', Executor.rowsIn ns W' table n = .ok rows' := by
  refine rowsIn_ok hrows fun k hunder => ?_
  by_cases hk : k ∈ keys
  · exact .inr (.inr (h.made k hk).2)
  · exact .inl (h.kept k hunder hk)

theorem RowsWritten.overwritten {newKey : ScanRow × Data → Bytes} {rows' : List ScanRow}
    {moves : List (ScanRow × Data)} (h : RowsWritten ns table (moves.map newKey) W W')
    (hrows : Executor.rowsIn ns W table n = .ok rows) (hrows' : Executor.rowsIn ns W' table n = .ok rows')
    (hsub : (moves.map Prod.fst).Sublist rows) : Overwritten newKey rows rows' moves where
  nodup := rowsIn_nodup hrows
  nodup' := rowsIn_nodup hrows'
  targets := hsub
  keys k := by
    rw [mem_keys_rowsIn hrows, mem_keys_rowsIn hrows']
    by_cases hk : k ∈ moves.map newKey
    · exact iff_of_true (h.made k hk) (.inr hk)
    · rw [or_iff_left hk]
      exact and_congr_right (fun hunder => by rw [h.kept k hunder hk])
  kept r hr hk := by
    have hrow := (mem_rowsIn hrows).mp hr
    exact (mem_rowsIn hrows').mpr (hrow.congr (h.kept _ hrow.1 hk))

end overwritten

/-- What the loop leaves: which rows were targeted, by WHERE and SET, and what is written of the table. -/
theorem SetCall.wp_moves {env : Env} (hmain : c.sess.branch = mainBranch) {s : Snap Bytes Val} {sch : TableSchema}
    {rows : List ScanRow} (hrows : rowsIn c.sess.ns s.map c.table sch.cols.length = .ok rows) (defs : List IndexDef)
    (fromRows : List (List Binding)) :
    (Prog.collectWith rows (c.body env sch defs fromRows)).wp underPrefix s (fun moves buf =>
      Collected (fun r o => ∃ n, c.assigned env sch fromRows r.cells (Site.root n) = .ok o) rows moves ∧
      Wrote c.sess s.map (Rewrites env (tablesIn c.sess.ns s.map) c.table) c.table
        (moves.map fun m => assignment (c.newKey sch m) (encodeRow m.2)) buf) [] := by
  refine wp_collected (fun moves buf => Wrote c.sess s.map (Rewrites env (tablesIn c.sess.ns s.map) c.table) c.table
    (moves.map fun m => assignment (c.newKey sch m) (encodeRow m.2)) buf) [] ?_ .nil
  intro r hr done buf h
  have hat : RowAt c.sess s.map c.table r.key := rowAt_own (hmain ▸ ((mem_rowsIn hrows).mp hr).1)
  refine c.wp_body (fun n hn => ⟨⟨n, hn⟩, ?_⟩) fun n cells hn => ?_
  · rwa [map_none, toList_none, append_nil]
  · refine wp_mono (h.wp_storeUpdated hat) (fun o buf' ho => ?_)
    obtain ⟨rfl, hwrote⟩ := ho
    refine ⟨⟨n, hn⟩, ?_⟩
    rwa [map_some, toList_some, map_append]

/-- UPDATE and UPDATE ... FROM on main, whose referential actions rewrite other tables only. The rows that
WHERE targets move to the keys that SET gives them exactly when those keys are, in some order, the keys
they had. -/
theorem key_update_iff {env : Env} (c : SetCall) {snap : Snap Bytes Val} {i : Nat} {res : Result}
    {buf : Buffer} (hmain : c.sess.branch = mainBranch)
    (hapart : ActionsApart env c.sess.ns c.table snap.map)
    (hrun : (c.run env).exec underPrefix snap [] i = .ok (res, buf)) :
    ∃ sch rows rows' fromRows moves, resolvedIn c.sess.ns snap.map c.table = some sch ∧
      rowsIn c.sess.ns snap.map c.table sch.cols.length = .ok rows ∧
      rowsIn c.sess.ns (snap.seen buf) c.table sch.cols.length = .ok rows' ∧
      (∃ j, (materializeAll c.sess c.sources).exec underPrefix snap [] j = .ok (fromRows, [])) ∧
      (∃ buf₁, (c.moves env).exec underPrefix snap [] i = .ok ((sch, moves), buf₁)) ∧
      Collected (fun r o => ∃ n, c.assigned env sch fromRows r.cells (Site.root n) = .ok o) rows moves ∧
      (Relocated (c.newKey sch) rows rows' moves ↔
        (moves.map (c.newKey sch)).Perm (moves.map fun m => m.1.key)) := by
  obtain ⟨j, hrun⟩ := run_of_exec hrun
  rw [c.run_moves] at hrun
  obtain ⟨⟨sch, moves⟩, buf₁, j₁, hmoves, hreply⟩ := run_bind_ok hrun
  obtain rfl : buf = buf₁ := wp_run (Q := fun _ b => b = buf₁)
    (c.replyOf_writes.wp_none fun _ => rfl) hreply
  have hexec : (c.moves env).exec underPrefix snap [] i = .ok ((sch, moves), buf) := by
    rw [exec_eq_run, hmoves]
    rfl
  unfold SetCall.moves at hmoves
  obtain ⟨⟨sch', rows⟩, buf₂, j₂, hscan, hmoves⟩ := run_bind_ok hmoves
  obtain ⟨hsch, hrows, rfl⟩ : resolvedIn c.sess.ns snap.map c.table = some sch' ∧
      rowsIn c.sess.ns snap.map c.table sch'.cols.length = .ok rows ∧ buf₂ = [] := by
    refine wp_run (Q := fun sc b => resolvedIn c.sess.ns snap.map c.table = some sc.1 ∧
      rowsIn c.sess.ns snap.map c.table sc.1.cols.length = .ok sc.2 ∧ b = []) ?_ hscan
    rw [wp_scanTable hmain]
    intro sch hsch rows hrows
    exact ⟨hsch, hrows, rfl⟩
  obtain ⟨defs, buf₃, j₃, hdefs, hmoves⟩ := run_bind_ok hmoves
  obtain rfl : buf₃ = [] := wp_run (Q := fun _ b => b = [])
    (loadIndexes_writes.wp_none fun _ => rfl) hdefs
  obtain ⟨fromRows, buf₄, j₄, hfrom, hmoves⟩ := run_bind_ok hmoves
  obtain rfl : buf₄ = [] := wp_run (Q := fun _ b => b = [])
    (materializeAll_writes.wp_none fun _ => rfl) hfrom
  obtain ⟨moves', buf₅, j₅, hloop, hpure⟩ := run_bind_ok hmoves
  obtain ⟨⟨rfl, rfl⟩, rfl, -⟩ : (sch' = sch ∧ moves' = moves) ∧ buf₅ = buf ∧ _ := by
    simpa [run_pure] using hpure
  obtain ⟨hcollected, hwrote⟩ := wp_run (c.wp_moves hmain hrows defs fromRows) hloop
  have hwritten := hwrote.rowsWritten hmain fun t ⟨fk, hfk, hrewrites⟩ => hapart t fk hfk hrewrites
  obtain ⟨rows', hrows'⟩ := hwritten.rowsIn hrows
  have hfromExec : (materializeAll c.sess c.sources).exec underPrefix snap [] j₃ = .ok (fromRows, []) := by
    rw [exec_eq_run, hfrom]
    rfl
  have hover := hwritten.overwritten hrows hrows' hcollected.sublist
  exact ⟨_, rows, rows', fromRows, _, hsch, hrows, hrows', ⟨j₃, hfromExec⟩, ⟨_, hexec⟩, hcollected, hover.perm, hover.relocated⟩

/-! The table t(id PRIMARY KEY, v). -/

def assignId (e : Expr) : SetCall := ⟨demoSession "main", .update ⟨str "t", [(str "id", e)], none, .none⟩, []⟩

/-- CASE id WHEN '1' THEN '2' ELSE '1' END. -/
def exchanged : Expr :=
  .caseExpr (some (.column [str "id"])) [(.const (.string (str "1")), .const (.string (str "2")))]
    (some (.const (.string (str "1"))))

def movesIn (db : Db) : Option (List (ScanRow × Data)) :=
  ((c.moves demoEnv).exec underPrefix db [] 0).toOption.map fun x => x.1.2

/-- The rows after the statement. -/
def rowsAfter (db : Db) : Option (List ScanRow) := do
  let x ← ((c.run demoEnv).exec underPrefix db [] 0).toOption
  (rowsIn (str "n") (db.seen x.2) (str "t") 2).toOption

theorem exchanged_keys_move : ∃ db, Reach (Db.step demoEnv) (fun _ _ => True) Db.empty db ∧
    ∃ res buf sch rows rows' moves, ((assignId exchanged).run demoEnv).exec underPrefix db [] 0 = .ok (res, buf) ∧
      rowsIn (str "n") db.map (str "t") sch.cols.length = .ok rows ∧
      rowsIn (str "n") (db.seen buf) (str "t") sch.cols.length = .ok rows' ∧
      moves = [(demoRow "1" "x", (demoRow "2" "x").cells), (demoRow "2" "y", (demoRow "1" "y").cells)] ∧
      Relocated ((assignId exchanged).newKey sch) rows rows' moves := by
  obtain ⟨db, hreach, hout⟩ := exists_demo [createDemo, insertDemo "main" "1" "x", insertDemo "main" "2" "y"]
    (fun db : Db => (decide (movesIn (assignId exchanged) db =
        some [(demoRow "1" "x", (demoRow "2" "x").cells), (demoRow "2" "y", (demoRow "1" "y").cells)]) &&
      (((assignId exchanged).run demoEnv).exec underPrefix db [] 0).toOption.isSome &&
      decide (resolvedIn (str "n") db.map (str "t") = some demoSchema) &&
      (referencing demoEnv (str "t") (tablesIn (str "n") db.map)).isEmpty) = true)
    (by decide +kernel)
  simp only [Bool.and_eq_true, decide_eq_true_eq] at hout
  obtain ⟨⟨⟨hmoves, hrun⟩, hsch⟩, hrefs⟩ := hout
  obtain ⟨⟨res, buf⟩, hrun⟩ := isSome_iff_exists.mp hrun
  have hok := ok_of_toOption hrun
  have hapart : ActionsApart demoEnv (str "n") (str "t") db.map := by
    intro t fk hmem
    rw [List.isEmpty_iff.mp hrefs] at hmem
    cases hmem
  obtain ⟨sch, rows, rows', fromRows, moves, hsch', hrows, hrows', -, ⟨buf₁, hexec⟩, -, hiff⟩ :=
    key_update_iff (assignId exchanged) rfl hapart hok
  obtain rfl : sch = demoSchema := some.inj (hsch'.symm.trans hsch)
  unfold movesIn at hmoves
  rw [hexec] at hmoves
  have hmoves' := some.inj hmoves
  dsimp only at hmoves'
  refine ⟨db, hreach, res, buf, demoSchema, rows, rows', moves, hok, hrows, hrows', hmoves', hiff.mpr ?_⟩
  rw [hmoves']
  decide +kernel

/-- UPDATE t SET id = '2' leaves the row under its old key as well. -/
theorem moved_row_is_doubled : ∃ db, Reach (Db.step demoEnv) (fun _ _ => True) Db.empty db ∧
    (rowsIn (str "n") db.map (str "t") 2).toOption = some [demoRow "1" "x"] ∧
    movesIn (assignId (.const (.string (str "2")))) db = some [(demoRow "1" "x", (demoRow "2" "x").cells)] ∧
    rowsAfter (assignId (.const (.string (str "2")))) db = some [demoRow "1" "x", demoRow "2" "x"] ∧
    ¬ Relocated ((assignId (.const (.string (str "2")))).newKey demoSchema) [demoRow "1" "x"]
      [demoRow "1" "x", demoRow "2" "x"] [(demoRow "1" "x", (demoRow "2" "x").cells)] := by
  obtain ⟨db, hreach, hout⟩ := exists_demo [createDemo, insertDemo "main" "1" "x"]
    (fun db : Db => (decide ((rowsIn (str "n") db.map (str "t") 2).toOption = some [demoRow "1" "x"]) &&
      decide (movesIn (assignId (.const (.string (str "2")))) db = some [(demoRow "1" "x", (demoRow "2" "x").cells)]) &&
      decide (rowsAfter (assignId (.const (.string (str "2")))) db =
        some [demoRow "1" "x", demoRow "2" "x"])) = true)
    (by decide +kernel)
  simp only [Bool.and_eq_true, decide_eq_true_eq] at hout
  exact ⟨db, hreach, hout.1.1, hout.1.2, hout.2, fun hmoved => absurd hmoved.count (by decide)⟩

end BasuyuDb.Executor
