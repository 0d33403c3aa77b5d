import BasuyuDb.Executor.OwnRows

/-
  Row security on writes. INSERT, UPDATE, UPDATE ... FROM, DELETE and DELETE ... USING test each row
  they target and each row they make. Two paths go around the policies: ON CONFLICT DO UPDATE tests
  neither the row it finds nor the row it leaves, and a row may be written over one that was not
  targeted (an UPDATE that moves a row to the primary key of another, an INSERT on a branch with the
  key of an inherited row).
-/

namespace BasuyuDb.Executor
open KvLib Storage Branch List
open Prog hiding pure bind

/-! ## What the policies are asked -/

/-- The command whose WITH CHECK governs the new row. -/
def WritePath.newCommand : WritePath → Command
  | .insert => .insert
  | .conflict => .update
  | .update => .update
  | .delete => .delete

/-- The command whose USING governs a row that was there. -/
def WritePath.oldCommand : WritePath → Command
  | .delete => .delete
  | _ => .update

variable (id user : String) (env : Env) (c : RowCall) (sess : Session) (table : Bytes) (sch : TableSchema)

/-- Some evaluation of WITH CHECK accepts the new row. -/
def Accepts (table : Bytes) (cmd : Command) (params cells : Data) : Prop :=
  ∃ site, rlsCheckNewRow env sch table sess cmd params cells site = .ok ()

/-- Some evaluation of USING allows the command on the row. -/
def Allows (table : Bytes) (cmd : Command) (params cells : Data) : Prop :=
  ∃ site, rlsRowAllowed env sch table sess cmd params cells site = .ok true

/-- The row, as the session sees it, is stored or would be stored under the key. -/
def SitsAt (r : ScanRow) (key : Bytes) : Prop :=
  r.key = key ∨ branchRowKey sess table sch r.cells r.key = key

/-- A write is within the policies: the new row passes WITH CHECK, and the row it targets and the rows
that were under its key pass USING. -/
structure Lawful (env : Env) (c : RowCall) (sch : TableSchema) (rows : List ScanRow) (w : OwnWrite) : Prop where
  made : ∀ cells, w.row = some cells → Accepts env c.sess sch c.table w.path.newCommand c.params cells
  changed : ∀ r, w.target = some r ∨ (r ∈ rows ∧ SitsAt c.sess c.table sch r w.key) →
    Allows env c.sess sch c.table w.path.oldCommand c.params r.cells

/-- The write falls on no row but the one it targets. -/
def Direct (rows : List ScanRow) (w : OwnWrite) : Prop :=
  ∀ r ∈ rows, SitsAt c.sess c.table sch r w.key → w.target = some r

section policies
variable {env sess sch table} {params : Data} {snap : Snap Bytes Val}
  {buf : Buffer}

variable (happ : rlsApplies sch sess = true)
include happ

theorem checkPolicies_wp (cmd : Command) (cells : Data) :
    (checkPolicies env sess cmd sch table params cells).wp underPrefix snap
      (fun _ _ => Accepts env sess sch table cmd params cells) buf := by
  unfold checkPolicies
  rw [if_pos happ]
  simp only [wp_bind, wp_tick, wp_ofExcept]
  intro n _ hok
  exact ⟨_, hok⟩

variable {cells : Data} {site : Site}

theorem targetsRow_allows {cmd : Command} {whereClause : Option Expr}
    (h : targetsRow env sess cmd sch table whereClause params cells site = .ok true) :
    Allows env sess sch table cmd params cells := by
  have hpolicy : ∀ holds : Bool, (if holds then
      if rlsApplies sch sess then rlsRowAllowed env sch table sess cmd params cells site.r else .ok true
      else .ok false) = .ok true → Allows env sess sch table cmd params cells := by
    intro holds h
    rw [if_pos happ] at h
    split at h
    · exact ⟨_, h⟩
    · cases h
  unfold targetsRow at h
  cases whereClause with
  | none => exact hpolicy true h
  | some w =>
    obtain ⟨v, -, h⟩ := ok_of_bind h
    exact hpolicy _ h

theorem rlsTargets_allows {cmd : Command}
    (h : rlsTargets env sess cmd sch table params cells site = .ok true) :
    Allows env sess sch table cmd params cells := by
  unfold rlsTargets at h
  rw [if_pos happ] at h
  exact ⟨_, h⟩

theorem updateMatch_allows {s : UpdateFromStmt} {fromRows : List (List Binding)}
    {row : List Binding} (h : updateMatch env sess s sch params fromRows cells site = .ok (some row)) :
    Allows env sess sch s.table .update params cells := by
  unfold updateMatch at h
  dsimp only at h
  split at h
  all_goals
    obtain ⟨found, -, h⟩ := ok_of_bind h
    cases found with
    | none => cases h
    | some row' =>
      obtain ⟨allowed, hallowed, h⟩ := ok_of_bind h
      cases allowed with
      | false => cases h
      | true => exact rlsTargets_allows happ hallowed

theorem deleteMatch_allows {s : DeleteUsingStmt} {usingRows : List (List Binding)}
    (h : deleteMatch env sess s sch params usingRows cells site = .ok true) :
    Allows env sess sch s.table .delete params cells := by
  have hpolicy : ∀ found : Bool, (if found then rlsTargets env sess .delete sch s.table params cells site.r
      else .ok false) = .ok true → Allows env sess sch s.table .delete params cells := by
    intro found h
    split at h
    · exact rlsTargets_allows happ h
    · cases h
  unfold deleteMatch at h
  dsimp only at h
  split at h
  · split at h
    · exact hpolicy true h
    · obtain ⟨v, -, h⟩ := ok_of_bind h
      exact hpolicy _ h
  · obtain ⟨found, -, h⟩ := ok_of_bind h
    exact hpolicy _ h

/-! ### The loops -/

theorem storeUpdated_wp (defs : List IndexDef) (r : ScanRow) :
    (storeUpdated env sess table sch defs params r cells).wp underPrefix snap
      (fun o _ => ∀ cells', o = some cells' → Accepts env sess sch table .update params cells') buf := by
  simp only [storeUpdated, wp_bind]
  refine wp_any fun _ _ => ?_
  refine wp_mono (checkPolicies_wp happ .update cells) fun _ _ hacc => ?_
  refine wp_any fun _ _ => wp_any fun _ _ => wp_any fun _ _ => ?_
  intro cells' heq
  cases heq
  exact hacc

theorem updateRow_wp (s : UpdateStmt) (defs : List IndexDef) (r : ScanRow) :
    (updateRow env sess s sch defs params r).wp underPrefix snap
      (fun o _ => ∀ cells, o = some cells → Allows env sess sch s.table .update params r.cells ∧
        Accepts env sess sch s.table .update params cells) buf := by
  refine wp_guarded (fun _ _ => nofun) fun n htarget => ?_
  rw [wp_bind, wp_ofExcept]
  exact fun cells _ => wp_mono (storeUpdated_wp happ defs r) fun _ _ hacc cells' heq => ⟨targetsRow_allows happ htarget, hacc cells' heq⟩

theorem updateFromRow_wp (s : UpdateFromStmt) (defs : List IndexDef)
    (fromRows : List (List Binding)) (r : ScanRow) :
    (updateFromRow env sess s sch defs params fromRows r).wp underPrefix snap
      (fun o _ => ∀ cells, o = some cells → Allows env sess sch s.table .update params r.cells ∧
        Accepts env sess sch s.table .update params cells) buf := by
  unfold updateFromRow
  simp only [wp_bind, wp_tick, wp_ofExcept]
  intro n found hmatch
  cases found with
  | none => simp
  | some row =>
    dsimp only
    rw [wp_bind, wp_ofExcept]
    exact fun cells _ => wp_mono (storeUpdated_wp happ defs r) fun _ _ hacc cells' heq => ⟨updateMatch_allows happ hmatch, hacc cells' heq⟩

theorem deleteRow_wp (s : DeleteStmt) (defs : List IndexDef) (r : ScanRow) :
    (deleteRow env sess s sch defs params r).wp underPrefix snap
      (fun o _ => ∀ cells, o = some cells → Allows env sess sch s.table .delete params r.cells) buf :=
  wp_guarded (fun _ _ => nofun) fun _ htarget => wp_any fun _ _ _ _ => targetsRow_allows happ htarget

theorem deleteUsingRow_wp (s : DeleteUsingStmt) (defs : List IndexDef)
    (usingRows : List (List Binding)) (r : ScanRow) :
    (deleteUsingRow env sess s sch defs params usingRows r).wp underPrefix snap
      (fun o _ => ∀ cells, o = some cells → Allows env sess sch s.table .delete params r.cells) buf :=
  wp_guarded (fun _ _ => nofun) fun _ htarget => wp_any fun _ _ _ _ => deleteMatch_allows happ htarget

end policies

/-! ## The statements -/

/-- The policies accepted the new row and allowed the target. -/
def Tested (w : OwnWrite) : Prop :=
  (∀ cells, w.row = some cells → Accepts env c.sess sch c.table w.path.newCommand c.params cells) ∧
    ∀ r, w.target = some r → Allows env c.sess sch c.table w.path.oldCommand c.params r.cells

section statements
variable {env} {snap : Snap Bytes Val} {buf : Buffer}

/-- DO UPDATE: the write targets no row and falls on one. -/
def TakenOver (W : State) (w : OwnWrite) : Prop :=
  w.target = none ∧ ∀ rows, scanIn c.sess.ns W c.sess.branch c.table sch.cols.length = .ok rows →
    ∃ r ∈ rows, r.key = w.key

/-- The schema is the stored one, and what is written was tested, unless a row was found under its key. -/
def Own.Checked (env : Env) (c : RowCall) (snap : Snap Bytes Val) (o : Own) : Prop :=
  resolvedIn c.sess.ns snap.map c.table = some o.sch ∧ (rlsApplies o.sch c.sess = true →
    ∀ w ∈ o.writes, Tested env c o.sch w ∨ TakenOver c o.sch snap.map w)

/-- A row that an INSERT finds under its key is one of those the session sees. -/
theorem found_mem_scanIn {sess : Session} {table key : Bytes} {W : State} {raw : Val} {n : Nat}
    {cells : Data} {rows : List ScanRow} (hkey : rowPrefix sess.ns sess.branch table <+: key)
    (hraw : W.lookup key = some raw) (hcells : decodeRow raw n = .ok cells)
    (hrows : scanIn sess.ns W sess.branch table n = .ok rows) : ∃ r ∈ rows, r.key = key := by
  cases raw with
  | row cells' =>
    obtain ⟨own, hown, hrest⟩ := ok_of_bind hrows
    have hmem : (⟨key, cells'.takeD n none⟩ : ScanRow) ∈ own := (mem_liveRows hown).mpr
      ⟨cells', (OrdMap.mem_scan W _ _ _).mpr ⟨hraw, isPrefixOf_iff_prefix.mpr hkey⟩, rfl⟩
    refine ⟨⟨key, cells'.takeD n none⟩, ?_, rfl⟩
    split at hrest
    · exact Except.ok.inj hrest ▸ hmem
    · obtain ⟨parents, -, hrest⟩ := ok_of_bind hrest
      exact Except.ok.inj hrest ▸ mem_append_left _ hmem
  | tombstone | text b | schema sch | indexes defs | branchMeta p => cases hcells

theorem insertTarget_accepted {sess : Session} {s : InsertStmt} {params : Data} {buf : Buffer} :
    (insertTarget env sess s params).wp underPrefix snap
      (fun t _ => rlsApplies t.1 sess = true → Accepts env sess t.1 s.table .insert params t.2.1) buf := by
  simp only [insertTarget, wp_bind]
  refine wp_any fun sch _ => wp_any fun cells _ => wp_any fun _ buf1 => ?_
  have hchecked : (checkPolicies env sess .insert sch s.table params cells).wp underPrefix snap
      (fun _ _ => rlsApplies sch sess = true → Accepts env sess sch s.table .insert params cells) buf1 := by
    by_cases happ : rlsApplies sch sess = true
    · exact wp_mono (checkPolicies_wp happ .insert cells) fun _ _ hacc _ => hacc
    · exact wp_any fun _ _ h => absurd h happ
  exact wp_mono hchecked fun _ _ hacc => wp_any fun _ _ => wp_any fun _ _ => hacc

theorem insertOwn_wp (sess : Session) (s : InsertStmt) (params : Data) :
    (insertOwn env sess s params).wp underPrefix snap
      (fun o _ => o.Checked env ⟨sess, .dml (.insert s), params⟩ snap) [] := by
  rw [insertOwn, wp_bind]
  refine wp_mono (wp_and wp_insertTarget insertTarget_accepted) fun t buf ht => ?_
  obtain ⟨⟨ms, rfl, hms, hsch, hkey, hstored⟩, hacc⟩ := ht
  split
  · rw [wp_bind]
    refine wp_any fun _ _ => ⟨hsch, fun happ w hw => .inl ?_⟩
    obtain rfl := mem_singleton.mp hw
    refine ⟨?_, fun r hr => absurd hr (by simp)⟩
    intro cells' heq
    cases heq
    exact hacc happ
  · trivial
  · exact ⟨hsch, fun _ w hw => absurd hw not_mem_nil⟩
  · rename_i raw sets hraw _
    -- the counters that the defaults drew from are not among the rows
    have hframe : (snap.seen ([] ++ buf)).lookup t.2.2.1 = (snap.seen []).lookup t.2.2.1 := by
      refine snap.lookup_seen_append fun m hm heq => ?_
      obtain ⟨name, text, rfl⟩ := hms m hm
      exact branchData_not_schema _ _ _ ((branchData_rowPrefix _ _ _).trans (heq ▸ hkey))
    have hbefore : snap.map.lookup t.2.2.1 = some raw := hframe.symm.trans (hstored raw hraw)
    simp only [writeConflict, wp_bind, wp_ofExcept, wp_tick]
    intro existing hexisting n new _
    refine wp_any fun _ _ => wp_any fun _ _ => wp_any fun _ _ => wp_any fun _ _ => ⟨hsch, fun _ w hw => .inr ?_⟩
    obtain rfl := mem_singleton.mp hw
    exact ⟨rfl, fun rows hrows => found_mem_scanIn hkey hbefore hexisting hrows⟩

variable {c sch} {rows : List (ScanRow × Data)}

theorem updates_tested (h : ∀ p ∈ rows, Allows env c.sess sch c.table .update c.params p.1.cells ∧
      Accepts env c.sess sch c.table .update c.params p.2) :
    ∀ w ∈ updatesOf c.sess c.table sch rows, Tested env c sch w := by
  intro w hw
  obtain ⟨p, hp, rfl⟩ := mem_map.mp hw
  refine ⟨?_, ?_⟩
  · intro cells heq
    cases heq
    exact (h p hp).2
  · intro r heq
    cases heq
    exact (h p hp).1

theorem deletes_tested (h : ∀ p ∈ rows, Allows env c.sess sch c.table .delete c.params p.1.cells) :
    ∀ w ∈ deletesOf c.sess c.table sch rows, Tested env c sch w := by
  intro w hw
  obtain ⟨p, hp, rfl⟩ := mem_map.mp hw
  refine ⟨fun cells heq => absurd heq (by simp), ?_⟩
  intro r heq
  cases heq
  exact h p hp

theorem loop_tested {P : Prop} {rows : List ScanRow} {body : ScanRow → Stm (Option Data)}
    {Q : ScanRow → Data → Prop}
    (h : P → ∀ r buf, (body r).wp underPrefix snap (fun o _ => ∀ cells, o = some cells → Q r cells) buf) :
    (Prog.collectWith rows body).wp underPrefix snap (fun ps _ => P → ∀ p ∈ ps, Q p.1 p.2) buf := by
  by_cases hP : P
  · exact wp_mono (wp_collectWith fun r _ => h hP r) fun ps _ hps _ p hp => (hps p hp).2
  · exact wp_any fun _ _ hp => absurd hp hP

theorem RowCall.own_checked (c : RowCall) :
    (c.own env).wp underPrefix snap (fun o _ => o.Checked env c snap) [] := by
  obtain ⟨sess, stmt, params⟩ := c
  cases stmt with
  | dml s =>
    cases s with
    | insert s => exact insertOwn_wp sess s params
    | update s =>
      simp only [RowCall.own, updateOwn, wp_bind]
      refine wp_scanTable_branch fun sch rows hsch _ => ?_
      refine wp_any fun defs _ => ?_
      refine wp_mono (loop_tested fun happ r _ => updateRow_wp happ s defs r) fun ps _ hps => ?_
      exact ⟨hsch, fun happ w hw => .inl (updates_tested (hps happ) w hw)⟩
    | delete s =>
      simp only [RowCall.own, deleteOwn, wp_bind]
      refine wp_scanTable_branch fun sch rows hsch _ => ?_
      refine wp_any fun defs _ => ?_
      refine wp_mono (loop_tested fun happ r _ => deleteRow_wp happ s defs r) fun ps _ hps => ?_
      exact ⟨hsch, fun happ w hw => .inl (deletes_tested (hps happ) w hw)⟩
  | updateFrom s =>
    simp only [RowCall.own, updateFromOwn, wp_bind]
    refine wp_scanTable_branch fun sch rows hsch _ => ?_
    refine wp_any fun defs _ => ?_
    refine wp_any fun fromRows _ => ?_
    refine wp_mono (loop_tested fun happ r _ => updateFromRow_wp happ s defs fromRows r) fun ps _ hps => ?_
    exact ⟨hsch, fun happ w hw => .inl (updates_tested (hps happ) w hw)⟩
  | deleteUsing s =>
    simp only [RowCall.own, deleteUsingOwn, wp_bind]
    refine wp_scanTable_branch fun sch rows hsch _ => ?_
    refine wp_any fun defs _ => ?_
    refine wp_any fun usingRows _ => ?_
    refine wp_mono (loop_tested fun happ r _ => deleteUsingRow_wp happ s defs usingRows r) fun ps _ hps => ?_
    exact ⟨hsch, fun happ w hw => .inl (deletes_tested (hps happ) w hw)⟩

/-- A statement that succeeds on a table with row security, by a session that does not bypass it. Of what
it buffered, the rows it wrote itself are `o.writes`; each that falls on no row but its target is within the
policies. `rows` are the rows of the table that the session sees before. -/
theorem rls_writes_lawful (c : RowCall) {i : Nat} {res : Result} {sch : TableSchema} {rows : List ScanRow}
    (hrun : (c.run env).exec underPrefix snap [] i = .ok (res, buf)) (hbypass : c.sess.bypassRLS = false)
    (hsch : resolvedIn c.sess.ns snap.map c.table = some sch) (hrls : sch.rlsEnabled = true)
    (hrows : scanIn c.sess.ns snap.map c.sess.branch c.table sch.cols.length = .ok rows) :
    ∃ o, (c.own env).exec underPrefix snap [] i = .ok (o, buf) ∧
      Wrote c.sess snap.map (c.children snap.map env) c.table (o.writes.map (OwnWrite.mutation c.sess)) buf ∧
      ∀ w ∈ o.writes, Direct c sch rows w → Lawful env c sch rows w := by
  obtain ⟨o, hexec⟩ := c.own_of_run hrun
  obtain ⟨hsame, htested⟩ := wp_exec c.own_checked hexec
  cases hsch.symm.trans hsame
  have happ : rlsApplies o.sch c.sess = true := by
    unfold rlsApplies
    rw [hrls, hbypass]
    rfl
  have hwrote := wp_exec c.own_wrote hexec
  refine ⟨o, hexec, hwrote, fun w hw hdirect => ?_⟩
  rcases htested happ w hw with ⟨hmade, htarget⟩ | ⟨hnone, htaken⟩
  · refine ⟨hmade, ?_⟩
    rintro r (hr | ⟨hr, hat⟩)
    · exact htarget r hr
    · exact htarget r (hdirect r hr hat)
  · obtain ⟨r, hr, hkey⟩ := htaken rows hrows
    cases hnone.symm.trans (hdirect r hr (.inl hkey))

end statements

/-! A table t(id PRIMARY KEY, owner) with the policy `owner = current_user`. -/

def ownedSchema : TableSchema :=
  ⟨str "t", [{ ColMeta.plain "id" OIDText with notNull := true }, .plain "owner" OIDText], some 0, true, false,
    [⟨str "p", .all, true, [], str "e", []⟩]⟩

def aliceRow : ScanRow := demoRow "1" "alice"

/-- The table in a store with some rows. -/
def ownedTable (rows : List ScanRow) : Db :=
  ⟨rows.foldl (fun W r => W.set r.key (some (encodeRow r.cells)))
    ((OrdMap.empty : State).set (schemaKey (str "n") (str "t")) (some (.schema ownedSchema))), 0⟩

def ownerSession (user : String) : Session := { demoSession "main" with user := str user }

/-- INSERT ... ON CONFLICT DO UPDATE SET owner = user. -/
def takeRow : RowCall :=
  ⟨ownerSession user, .dml (.insert ⟨str "t", [], [.const (.string (str id)), .const (.string (str user))],
    some (.doUpdate [(str "owner", .const (.string (str user)))]), .none⟩), []⟩

/-- UPDATE t SET owner = user. -/
def setOwner : RowCall :=
  ⟨ownerSession user, .dml (.update ⟨str "t", [(str "owner", .const (.string (str user)))], none, .none⟩), []⟩

theorem RowCall.ends_with (db : Db) (ws : List OwnWrite)
    (hrun : ((c.run ownerEnv).exec underPrefix db [] 0).toOption.isSome = true)
    (hown : ((c.own ownerEnv).exec underPrefix db [] 0).toOption.map (fun p => p.1.writes) = some ws) :
    ∃ res buf o buf', (c.run ownerEnv).exec underPrefix db [] 0 = .ok (res, buf) ∧
      (c.own ownerEnv).exec underPrefix db [] 0 = .ok (o, buf') ∧ o.writes = ws := by
  generalize (c.run ownerEnv).exec underPrefix db [] 0 = x at hrun ⊢
  generalize (c.own ownerEnv).exec underPrefix db [] 0 = y at hown ⊢
  cases x with
  | error e => cases hrun
  | ok p =>
    cases y with
    | error e => cases hown
    | ok q => exact ⟨p.1, p.2, q.1, q.2, rfl, rfl, Option.some.inj hown⟩

theorem bob_takes_row_of_alice : ∃ snap c res buf sch rows o buf' w,
    (RowCall.run ownerEnv c).exec underPrefix snap [] 0 = .ok (res, buf) ∧ c.sess.bypassRLS = false ∧
    resolvedIn c.sess.ns snap.map c.table = some sch ∧ sch.rlsEnabled = true ∧
    scanIn c.sess.ns snap.map c.sess.branch c.table sch.cols.length = .ok rows ∧
    (c.own ownerEnv).exec underPrefix snap [] 0 = .ok (o, buf') ∧ w ∈ o.writes ∧ ¬ Lawful ownerEnv c sch rows w := by
  obtain ⟨res, buf, o, buf', hrun, hown, hws⟩ := RowCall.ends_with (takeRow "1" "bob")
    (ownedTable [aliceRow])
    [⟨.conflict, none, aliceRow.key, some (demoRow "1" "bob").cells⟩] (by decide +kernel) (by decide +kernel)
  refine ⟨_, _, res, buf, ownedSchema, [aliceRow], o, buf', _, hrun, rfl, by decide +kernel, rfl,
    by decide +kernel, hown, by rw [hws]; exact mem_singleton_self _, ?_⟩
  intro hlaw
  obtain ⟨site, hallow⟩ := hlaw.changed aliceRow (.inr ⟨mem_singleton_self _, .inl rfl⟩)
  have hdenied : rlsRowAllowed ownerEnv ownedSchema (str "t") (ownerSession "bob") .update []
      aliceRow.cells site = .ok false := rfl
  cases hdenied.symm.trans hallow

/-- The rows of alice and bob. -/
def ownedRows : List ScanRow := [aliceRow, demoRow "2" "bob", demoRow "3" "alice"]

/-- An UPDATE of alice, who sees two of the three rows. -/
theorem alice_updates_own_rows : ∃ c o buf,
    (RowCall.own ownerEnv c).exec underPrefix (ownedTable ownedRows) [] 0 = .ok (o, buf) ∧ o.writes.length = 2 ∧
    Wrote c.sess (ownedTable ownedRows).map (c.children (ownedTable ownedRows).map ownerEnv) c.table (o.writes.map (OwnWrite.mutation c.sess)) buf ∧
    ∀ w ∈ o.writes, Lawful ownerEnv c ownedSchema ownedRows w := by
  let writes := [aliceRow, demoRow "3" "alice"].map fun r => OwnWrite.mk .update (some r) r.key (some r.cells)
  obtain ⟨res, buf, o, buf', hrun, hown, hws⟩ := RowCall.ends_with (setOwner "alice") (ownedTable ownedRows) writes
    (by decide +kernel) (by decide +kernel)
  have hsch : resolvedIn (str "n") (ownedTable ownedRows).map (str "t") = some ownedSchema := by decide +kernel
  have hrows : scanIn (str "n") (ownedTable ownedRows).map mainBranch (str "t") 2 = .ok ownedRows := by decide +kernel
  obtain ⟨o', hown', hwrote, hlaw⟩ := rls_writes_lawful (setOwner "alice") hrun rfl hsch rfl hrows
  obtain ⟨rfl, rfl⟩ := Prod.mk.inj (Except.ok.inj (hown.symm.trans hown'))
  refine ⟨_, o, buf', hown, by rw [hws]; rfl, hwrote, fun w hw => hlaw w hw ?_⟩
  have hdirect : ∀ w ∈ writes, ∀ r ∈ ownedRows, SitsAt (ownerSession "alice") (str "t") ownedSchema r w.key →
      w.target = some r := by
    unfold SitsAt
    decide
  exact hdirect w (hws ▸ hw)

end BasuyuDb.Executor
