import BasuyuDb.Branch.Actions

/-
  The rows a statement writes itself. `own` is a statement with these rows, and `run_own` says that it
  is the same statement. They are not a record beside the buffer: `own_wrote` says that the buffer is
  made of them, in their order, of index entries and counters, and of rows of the tables that its
  referential actions reach (`Wrote`).
-/

namespace BasuyuDb.Executor
open KvLib Storage Branch List
open Prog hiding pure bind

/-! ## The rows a statement writes itself -/

inductive WritePath where
  | insert
  | conflict
  | update
  | delete
deriving DecidableEq

/-- A row a statement writes: the row it targets, the key, and the new cells (none: it is removed). An
INSERT targets no row, also where ON CONFLICT finds one. -/
structure OwnWrite where
  path : WritePath
  target : Option ScanRow
  key : Bytes
  row : Option Data
deriving DecidableEq

/-- The mutation of the write. -/
def OwnWrite.mutation (sess : Session) (w : OwnWrite) : Mutation Bytes Val :=
  match w.row with
  | some cells => assignment w.key (encodeRow cells)
  | none => removal sess w.key

/-- A statement up to its reply. -/
structure Own where
  sch : TableSchema
  writes : List OwnWrite
  reply : Stm Result

section own
variable (env : Env) (c : RowCall) (sess : Session)

def insertOwn (s : InsertStmt) (params : Data) : Stm Own := do
  let t ← insertTarget env sess s params
  match t.2.2.2, s.onConflict with
  | none, _ => do
    writeNewRow env sess s.table t.1 t.2.2.1 t.2.1
    pure ⟨t.1, [⟨.insert, none, t.2.2.1, some t.2.1⟩], result env "INSERT" t.1 s.table s.returning params [t.2.1]⟩
  | some _, none => .throw ⟨"23505", "duplicate key value violates unique constraint on %q", [s.table]⟩
  | some raw, some .doNothing => pure ⟨t.1, [], handleOnConflict env sess t.1 s params t.2.2.1 t.2.1 raw .doNothing⟩
  | some raw, some (.doUpdate sets) => do
    let new ← writeConflict env sess t.1 s.table params t.2.2.1 t.2.1 raw sets
    pure ⟨t.1, [⟨.conflict, none, t.2.2.1, some new⟩], result env "INSERT" t.1 s.table s.returning params [new]⟩

/-- The rows of an UPDATE, each with its new cells. -/
def updatesOf (table : Bytes) (sch : TableSchema) (rows : List (ScanRow × Data)) : List OwnWrite :=
  rows.map fun p => ⟨.update, some p.1, branchRowKey sess table sch p.2 p.1.key, some p.2⟩

def deletesOf (table : Bytes) (sch : TableSchema) (rows : List (ScanRow × Data)) : List OwnWrite :=
  rows.map fun p => ⟨.delete, some p.1, branchRowKey sess table sch p.1.cells p.1.key, none⟩

def updateOwn (s : UpdateStmt) (params : Data) : Stm Own := do
  let sc ← scanTable sess s.table
  let defs ← loadIndexes sess s.table
  let rows ← Prog.collectWith sc.2 (updateRow env sess s sc.1 defs params)
  pure ⟨sc.1, updatesOf sess s.table sc.1 rows,
    result env "UPDATE" sc.1 s.table s.returning params (rows.map Prod.snd)⟩

def deleteOwn (s : DeleteStmt) (params : Data) : Stm Own := do
  let sc ← scanTable sess s.table
  let defs ← loadIndexes sess s.table
  let rows ← Prog.collectWith sc.2 (deleteRow env sess s sc.1 defs params)
  pure ⟨sc.1, deletesOf sess s.table sc.1 rows,
    result env "DELETE" sc.1 s.table s.returning params (rows.map Prod.snd)⟩

def updateFromOwn (s : UpdateFromStmt) (params : Data) : Stm Own := do
  let sc ← scanTable sess s.table
  let defs ← loadIndexes sess s.table
  let fromRows ← materializeAll sess s.fromClause
  let rows ← Prog.collectWith sc.2 (updateFromRow env sess s sc.1 defs params fromRows)
  pure ⟨sc.1, updatesOf sess s.table sc.1 rows,
    result env "UPDATE" sc.1 s.table s.returning params (rows.map Prod.snd)⟩

def deleteUsingOwn (s : DeleteUsingStmt) (params : Data) : Stm Own := do
  let sc ← scanTable sess s.table
  let defs ← loadIndexes sess s.table
  let usingRows ← materializeAll sess s.usingClause
  let rows ← Prog.collectWith sc.2 (deleteUsingRow env sess s sc.1 defs params usingRows)
  pure ⟨sc.1, deletesOf sess s.table sc.1 rows,
    result env "DELETE" sc.1 s.table s.returning params (rows.map Prod.snd)⟩

def RowCall.own : Stm Own :=
  match c.stmt with
  | .dml (.insert s) => insertOwn env c.sess s c.params
  | .dml (.update s) => updateOwn env c.sess s c.params
  | .dml (.delete s) => deleteOwn env c.sess s c.params
  | .updateFrom s => updateFromOwn env c.sess s c.params
  | .deleteUsing s => deleteUsingOwn env c.sess s c.params

def RowCall.table : Bytes :=
  match c.stmt with
  | .dml (.insert s) => s.table
  | .dml (.update s) => s.table
  | .dml (.delete s) => s.table
  | .updateFrom s => s.table
  | .deleteUsing s => s.table

variable {env}

theorem insert_own (s : InsertStmt) (params : Data) :
    execInsert env sess s params = insertOwn env sess s params >>= Own.reply := by
  unfold execInsert insertOwn
  rw [Prog.bind_assoc]
  congr 1
  funext t
  obtain ⟨sch, cells, key, existing⟩ := t
  unfold insertInto
  cases existing with
  | none => simp only [storeNewRow, Prog.bind_assoc, pure_bind]
  | some raw =>
    cases s.onConflict with
    | none => rfl
    | some oc =>
      cases oc with
      | doNothing => rfl
      | doUpdate sets => simp only [handleOnConflict, Prog.bind_assoc, pure_bind]

theorem RowCall.run_own : c.run env = c.own env >>= Own.reply := by
  obtain ⟨sess, stmt, params⟩ := c
  cases stmt with
  | dml s =>
    cases s with
    | insert s => exact insert_own sess s params
    | update s =>
      simp only [RowCall.run, RowCall.own, DmlCall.run, execUpdate, updateOwn, collect_eq_collectWith,
        Prog.bind_assoc, pure_bind]
    | delete s =>
      simp only [RowCall.run, RowCall.own, DmlCall.run, execDelete, deleteOwn, collect_eq_collectWith,
        Prog.bind_assoc, pure_bind]
  | updateFrom s =>
    simp only [RowCall.run, RowCall.own, execUpdateFrom, updateFromOwn, collect_eq_collectWith,
      Prog.bind_assoc, pure_bind]
  | deleteUsing s =>
    simp only [RowCall.run, RowCall.own, execDeleteUsing, deleteUsingOwn, collect_eq_collectWith,
      Prog.bind_assoc, pure_bind]

theorem insertOwn_reply {s : InsertStmt} {params : Data} {snap : Snap Bytes Val} {buf : Buffer} :
    (insertOwn env sess s params).wp underPrefix snap (fun o _ => o.reply.Writes (fun _ => False)) buf := by
  rw [insertOwn, wp_bind]
  refine wp_any fun t buf1 => ?_
  split
  · rw [wp_bind]
    exact wp_any fun _ _ => result_writes
  · trivial
  · rw [wp_pure]
    unfold handleOnConflict
    cases s.returning with
    | none | star | exprs es => exact Writes.pure _
  · rw [wp_bind]
    exact wp_any fun _ _ => result_writes

theorem RowCall.own_reply {snap : Snap Bytes Val} {buf : Buffer} :
    (c.own env).wp underPrefix snap (fun o _ => o.reply.Writes (fun _ => False)) buf := by
  obtain ⟨sess, stmt, params⟩ := c
  cases stmt with
  | dml s =>
    cases s with
    | insert s => exact insertOwn_reply sess
    | update s | delete s =>
      simp only [RowCall.own, updateOwn, deleteOwn, wp_bind]
      exact wp_any fun _ _ => wp_any fun _ _ => wp_any fun _ _ => result_writes
  | updateFrom s | deleteUsing s =>
    simp only [RowCall.own, updateFromOwn, deleteUsingOwn, wp_bind]
    exact wp_any fun _ _ => wp_any fun _ _ => wp_any fun _ _ => wp_any fun _ _ => result_writes

/-- The reply buffers nothing. -/
theorem RowCall.own_of_run {snap : Snap Bytes Val} {buf₀ buf : Buffer} {i : Nat} {res : Result}
    (h : (c.run env).exec underPrefix snap buf₀ i = .ok (res, buf)) :
    ∃ o, (c.own env).exec underPrefix snap buf₀ i = .ok (o, buf) := by
  obtain ⟨j, hrun⟩ := run_of_exec h
  rw [c.run_own] at hrun
  obtain ⟨o, buf₁, j₁, hown, hreply⟩ := run_bind_ok hrun
  obtain rfl : buf = buf₁ := wp_run (Q := fun _ b => b = buf₁) ((wp_run c.own_reply hown).wp_none fun _ => rfl) hreply
  refine ⟨o, ?_⟩
  rw [exec_eq_run, hown]
  rfl

end own

/-! ## What they are of the buffer -/

section layers
variable (sess : Session) (W : State)

/-- What a statement writes beside rows. -/
inductive Aside : Mutation Bytes Val → Prop
  | entry (d : IndexDef) (pk tuple : Bytes) (add : Bool) : Aside (entryMutation sess d pk tuple add)
  | counter (name text : Bytes) : Aside (assignment (seqKey sess name) (.text text))

/-- The tables whose rows ON UPDATE writes for a row of a table. -/
def Rewrites (env : Env) (tables : List TableSchema) (p : Bytes) (t : TableSchema) : Prop :=
  ∃ fk, (t, fk) ∈ referencing env p tables ∧ fk.rewritesOnUpdate = true

/-- The tables that the referential actions of ON DELETE reach from a table. -/
inductive ReachesTable (env : Env) (tables : List TableSchema) : Bytes → TableSchema → Prop
  | child {p : Bytes} {t : TableSchema} {fk : FkConstraint} (h : (t, fk) ∈ referencing env p tables) :
      ReachesTable env tables p t
  | deeper {p : Bytes} {t t' : TableSchema} {fk : FkConstraint} (h : ReachesTable env tables p t)
      (h' : (t', fk) ∈ referencing env t.name tables) : ReachesTable env tables p t'

/-- The tables whose rows the referential actions of a statement write. -/
def RowCall.children (env : Env) (c : RowCall) : TableSchema → Prop :=
  match c.stmt with
  | .dml (.insert _) => fun _ => False
  | .dml (.delete s) => ReachesTable env (tablesIn c.sess.ns W) s.table
  | .deleteUsing s => ReachesTable env (tablesIn c.sess.ns W) s.table
  | .dml (.update s) => Rewrites env (tablesIn c.sess.ns W) s.table
  | .updateFrom s => Rewrites env (tablesIn c.sess.ns W) s.table

/-- A buffer with the rows of the table that the statement wrote into it itself, in order. -/
inductive Wrote (children : TableSchema → Prop) (table : Bytes) : Buffer → Buffer → Prop
  | nil : Wrote children table [] []
  | own {own buf : Buffer} {m : Mutation Bytes Val} (h : Wrote children table own buf)
      (hm : RowAt sess W table m.key) : Wrote children table (own ++ [m]) (buf ++ [m])
  | aside {own buf : Buffer} {m : Mutation Bytes Val} (h : Wrote children table own buf)
      (hm : Aside sess m) : Wrote children table own (buf ++ [m])
  | child {own buf : Buffer} {m : Mutation Bytes Val} {t : TableSchema} (h : Wrote children table own buf)
      (ht : children t) (hm : RowAt sess W t.name m.key) : Wrote children table own (buf ++ [m])

end layers

section wrote
variable {env : Env} {sess : Session} {s : Snap Bytes Val} {children : TableSchema → Prop} {table : Bytes} {own own' buf : Buffer}
  {sch : TableSchema} {defs : List IndexDef} {cells : Data} {r : ScanRow}

theorem Wrote.data (h : Wrote sess s.map children table own buf) : ∀ m ∈ buf, DataWrite sess m := by
  induction h with
  | nil => exact fun _ hm => absurd hm not_mem_nil
  | own h hm ih => exact forall_mem_append.mpr ⟨ih, forall_mem_singleton.mpr hm.data⟩
  | aside h hm ih =>
    refine forall_mem_append.mpr ⟨ih, forall_mem_singleton.mpr ?_⟩
    cases hm with
    | entry d pk tuple add => exact .entry d pk tuple add
    | counter name text => exact .counter name text
  | child h ht hm ih => exact forall_mem_append.mpr ⟨ih, forall_mem_singleton.mpr hm.data⟩

theorem Wrote.append_aside (h : Wrote sess s.map children table own buf) {ms : Buffer} (hms : ∀ m ∈ ms, Aside sess m) :
    Wrote sess s.map children table own (buf ++ ms) := by
  induction ms using List.reverseRecOn with
  | nil => rwa [append_nil]
  | append_singleton ms m ih =>
    obtain ⟨hms, hm⟩ := forall_mem_append.mp hms
    rw [← append_assoc]
    exact .aside (ih hms) (hm m mem_cons_self)

theorem Wrote.wp_aside (h : Wrote sess s.map children table own buf) {A : Type} {p : Stm A} (hp : p.Writes (Aside sess)) :
    p.wp underPrefix s (fun _ buf' => Wrote sess s.map children table own buf') buf := by
  refine wp_mono (hp.wp buf) fun _ buf' hbuf => ?_
  obtain ⟨ms, rfl, hms⟩ := hbuf
  exact h.append_aside hms

theorem indexEntries_aside {rk : Bytes} {add : Bool} :
    (indexEntries env sess sch defs cells rk add).Writes (Aside sess) :=
  indexEntries_frame fun d _ _ _ => .entry d _ _ add

section write
variable {t : Bytes}

theorem Wrote.wp_replaceRow (h : Wrote sess s.map children table own buf)
    (hwrite : ∀ buf, Wrote sess s.map children table own buf → Wrote sess s.map children table own'
      (buf ++ [assignment (branchRowKey sess t sch cells r.key) (encodeRow cells)])) :
    (replaceRow env sess t sch defs r cells).wp underPrefix s
      (fun _ buf' => Wrote sess s.map children table own' buf') buf := by
  simp only [replaceRow, wp_bind, wp_write]
  refine wp_mono (h.wp_aside indexEntries_aside) fun _ buf1 h1 => ?_
  exact (hwrite buf1 h1).wp_aside indexEntries_aside

theorem Wrote.wp_removeRow
    (hwrite : Wrote sess s.map children table own' (buf ++ [removal sess (branchRowKey sess t sch r.cells r.key)])) :
    (removeRow env sess t sch defs r).wp underPrefix s (fun _ buf' => Wrote sess s.map children table own' buf') buf := by
  simp only [removeRow, wp_bind, wp_write]
  exact hwrite.wp_aside indexEntries_aside

end write

@[simp] theorem removal_key (sess : Session) (k : Bytes) : (removal sess k).key = k := by
  unfold removal
  split
  · rfl
  · rfl

/-! ### Referential actions -/

theorem Wrote.meets {p : Bytes} {vals : FkConstraint → Option (List Bytes)} {t : TableSchema} {fk : FkConstraint}
    (h : Meets env sess s (fun buf => Wrote sess s.map children table own buf) p vals t fk r) :
    RowAt sess s.map t.name r.key := by
  obtain ⟨buf₀, sch, rows, hwrote, -, hrows, hr⟩ := h.read
  obtain ⟨b, hb, hk⟩ := rowAt_scanIn hrows hr
  unfold Layer at hb
  rw [parentIn_seen hwrote.data] at hb
  exact ⟨b, hb, hk⟩

section delete
variable (h : Wrote sess s.map (ReachesTable env (tablesIn sess.ns s.map) table) table own buf)
include h

theorem Wrote.wp_enforceFKParent : (enforceFKParent env sess table sch cells).wp underPrefix s
    (fun _ buf' => Wrote sess s.map (ReachesTable env (tablesIn sess.ns s.map) table) table own buf') buf := by
  have hreaches : ∀ {p : Bytes} {t : TableSchema} {fk : FkConstraint},
      (p = table ∨ ∃ t', ReachesTable env (tablesIn sess.ns s.map) table t' ∧ t'.name = p) →
      (t, fk) ∈ referencing env p (tablesIn sess.ns s.map) → ReachesTable env (tablesIn sess.ns s.map) table t := by
    intro p t fk hp hfk
    rcases hp with rfl | ⟨t', ht', rfl⟩
    · exact .child hfk
    · exact .deeper ht' hfk
  refine wp_deleteActions (fun _ hI => noNewSchemas hI.data)
    (P := fun p _ _ => p = table ∨ ∃ t', ReachesTable env (tablesIn sess.ns s.map) table t' ∧ t'.name = p)
    ?_ ?_ _ (.inl rfl) h
  · intro p psch pcells t fk r hp hmeets _
    have ht := hreaches hp hmeets.references
    refine ⟨.inr ⟨t, ht, rfl⟩, fun defs buf' hI => Wrote.wp_removeRow (.child hI ht ?_)⟩
    rw [removal_key]
    exact (Wrote.meets hmeets).branchRowKey
  · intro p psch pcells t fk r hp hmeets _ defs buf' hI
    exact hI.wp_replaceRow fun _ hI' => .child hI' (hreaches hp hmeets.references) (Wrote.meets hmeets).branchRowKey

theorem Wrote.wp_deleteTargeted (hr : RowAt sess s.map table r.key) :
    (deleteTargeted env sess table sch defs r).wp underPrefix s (fun o buf' =>
      Wrote sess s.map (ReachesTable env (tablesIn sess.ns s.map) table) table (own ++ (o.map fun _ =>
        OwnWrite.mutation sess ⟨.delete, some r, branchRowKey sess table sch r.cells r.key, none⟩).toList) buf') buf := by
  simp only [deleteTargeted, wp_bind]
  refine wp_mono h.wp_enforceFKParent fun _ buf1 h1 => ?_
  have hkey : RowAt sess s.map table (removal sess (branchRowKey sess table sch r.cells r.key)).key := by
    rw [removal_key]
    exact hr.branchRowKey
  exact Wrote.wp_removeRow (.own h1 hkey)

end delete

theorem Wrote.wp_storeUpdated {params : Data} (h : Wrote sess s.map (Rewrites env (tablesIn sess.ns s.map) table) table own buf)
    (hr : RowAt sess s.map table r.key) : (storeUpdated env sess table sch defs params r cells).wp underPrefix s
    (fun o buf' => o = some cells ∧ Wrote sess s.map (Rewrites env (tablesIn sess.ns s.map) table) table
      (own ++ [OwnWrite.mutation sess ⟨.update, some r, branchRowKey sess table sch cells r.key, some cells⟩]) buf') buf := by
  simp only [storeUpdated, wp_bind]
  refine enforceFKChild_writes.wp_none fun _ => checkPolicies_writes.wp_none fun _ => ?_
  have hparent : (updateParent env sess table sch r.cells cells).wp underPrefix s
      (fun _ buf' => Wrote sess s.map (Rewrites env (tablesIn sess.ns s.map) table) table own buf') buf := by
    unfold updateParent
    split
    · refine wp_updateActions (fun _ hI => noNewSchemas hI.data) ?_ h
      intro t fk r new hmeets hnew defs buf' hI
      exact hI.wp_replaceRow fun _ hI' =>
        .child hI' ⟨fk, hmeets.references, updatedChild_rewrites hnew⟩ (Wrote.meets hmeets).branchRowKey
    · exact h
  refine wp_mono hparent fun _ buf1 h1 => ?_
  refine updateUnique_writes.wp_none fun _ => ?_
  refine wp_mono (h1.wp_replaceRow fun _ h2 => .own h2 hr.branchRowKey) fun _ _ h3 => ⟨rfl, h3⟩

/-! ### The rows of a statement -/

/-- A loop whose turns each write the row they answer with. -/
theorem wp_collectWith_wrote {rows : List ScanRow} {f : ScanRow → Stm (Option Data)}
    {write : ScanRow × Data → OwnWrite}
    (hrow : ∀ r ∈ rows, ∀ own buf, Wrote sess s.map children table own buf → (f r).wp underPrefix s (fun o buf' =>
      Wrote sess s.map children table (own ++ (o.map fun cells => (write (r, cells)).mutation sess).toList) buf') buf) :
    (Prog.collectWith rows f).wp underPrefix s (fun ps buf' =>
      Wrote sess s.map children table ((ps.map write).map (OwnWrite.mutation sess)) buf') [] := by
  refine wp_mono (wp_collected (P := fun _ _ => True)
    (fun ps buf => Wrote sess s.map children table ((ps.map write).map (OwnWrite.mutation sess)) buf) [] ?_ .nil) fun _ _ h => h.2
  intro r hr done buf h
  refine wp_mono (hrow r hr _ buf h) fun o buf' h' => ⟨trivial, ?_⟩
  cases o with
  | none => simpa using h'
  | some cells => simpa using h'

end wrote

section statements
variable {env : Env} {sess : Session} {s : Snap Bytes Val} {params : Data}

theorem insertOwn_wrote {children : TableSchema → Prop} (st : InsertStmt) : (insertOwn env sess st params).wp underPrefix s
    (fun o buf => Wrote sess s.map children st.table (o.writes.map (OwnWrite.mutation sess)) buf) [] := by
  rw [insertOwn, wp_bind]
  refine wp_mono wp_insertTarget fun t buf ht => ?_
  obtain ⟨ms, rfl, hms, -, hkey, -⟩ := ht
  have hnil : Wrote sess s.map children st.table [] [] := .nil
  have h := hnil.append_aside fun m hm => by
    obtain ⟨name, text, rfl⟩ := hms m hm
    exact .counter name text
  have hat : RowAt sess s.map st.table t.2.2.1 := rowAt_own hkey
  split
  · simp only [writeNewRow, wp_bind, wp_write]
    refine loadIndexes_writes.wp_none fun defs => insertUnique_writes.wp_none fun _ => ?_
    exact (h.own hat).wp_aside indexEntries_aside
  · trivial
  · exact h
  · simp only [writeConflict, wp_bind, wp_ofExcept, wp_tick, wp_write]
    intro existing _ n new _
    refine loadIndexes_writes.wp_none fun defs => ?_
    refine wp_mono (h.wp_aside indexEntries_aside) fun _ buf2 h2 => ?_
    exact (h2.own hat).wp_aside indexEntries_aside

theorem RowCall.own_wrote (c : RowCall) : (c.own env).wp underPrefix s
    (fun o buf => Wrote c.sess s.map (c.children s.map env) c.table (o.writes.map (OwnWrite.mutation c.sess)) buf) [] := by
  obtain ⟨sess, stmt, params⟩ := c
  cases stmt with
  | dml st =>
    cases st with
    | insert st => exact insertOwn_wrote st
    | update st =>
      simp only [RowCall.own, updateOwn, wp_bind]
      refine wp_scanTable_branch fun sch rows _ hrows => loadIndexes_writes.wp_none fun defs => ?_
      refine wp_collectWith_wrote fun r hr own buf h => wp_guarded (fun _ _ => by simpa using h) fun n _ => ?_
      rw [wp_bind, wp_ofExcept]
      exact fun cells _ => wp_mono (h.wp_storeUpdated (rowAt_scanIn hrows hr)) fun o _ ho => ho.1 ▸ ho.2
    | delete st =>
      simp only [RowCall.own, deleteOwn, wp_bind]
      refine wp_scanTable_branch fun sch rows _ hrows => loadIndexes_writes.wp_none fun defs => ?_
      refine wp_collectWith_wrote fun r hr own buf h => wp_guarded (fun _ _ => by simpa using h) fun n _ => ?_
      exact h.wp_deleteTargeted (rowAt_scanIn hrows hr)
  | updateFrom st =>
    simp only [RowCall.own, updateFromOwn, wp_bind]
    refine wp_scanTable_branch fun sch rows _ hrows => loadIndexes_writes.wp_none fun defs => ?_
    refine materializeAll_writes.wp_none fun fromRows => ?_
    refine wp_collectWith_wrote fun r hr own buf h => ?_
    simp only [updateFromRow, wp_bind, wp_tick, wp_ofExcept]
    intro n found _
    cases found with
    | none => simpa using h
    | some row =>
      dsimp only
      rw [wp_bind, wp_ofExcept]
      exact fun cells _ => wp_mono (h.wp_storeUpdated (rowAt_scanIn hrows hr)) fun o _ ho => ho.1 ▸ ho.2
  | deleteUsing st =>
    simp only [RowCall.own, deleteUsingOwn, wp_bind]
    refine wp_scanTable_branch fun sch rows _ hrows => loadIndexes_writes.wp_none fun defs => ?_
    refine materializeAll_writes.wp_none fun usingRows => ?_
    refine wp_collectWith_wrote fun r hr own buf h => wp_guarded (fun _ _ => by simpa using h) fun n _ => ?_
    exact h.wp_deleteTargeted (rowAt_scanIn hrows hr)

end statements

/-! ## On main -/

/-- The tables have their rows elsewhere. -/
def Apart (children : TableSchema → Prop) (ns table : Bytes) : Prop :=
  ∀ t, children t → ∀ k, rowPrefix ns mainBranch t.name <+: k → ¬ rowPrefix ns mainBranch table <+: k

section main
variable {sess : Session} {s : Snap Bytes Val} {children : TableSchema → Prop} {table : Bytes} {own buf : Buffer}

theorem Wrote.own_mem (h : Wrote sess s.map children table own buf) : ∀ m ∈ own, m ∈ buf := by
  induction h with
  | nil => exact fun _ hm => hm
  | own _ _ ih => exact forall_mem_append.mpr ⟨fun m hm => mem_append_left _ (ih m hm), fun m hm => mem_append_right _ hm⟩
  | aside _ _ ih | child _ _ _ ih => exact fun m hm => mem_append_left _ (ih m hm)

theorem Wrote.own_at (h : Wrote sess s.map children table own buf) : ∀ m ∈ own, RowAt sess s.map table m.key := by
  induction h with
  | nil => exact fun _ hm => absurd hm not_mem_nil
  | own _ hm ih => exact forall_mem_append.mpr ⟨ih, forall_mem_singleton.mpr hm⟩
  | aside _ _ ih | child _ _ _ ih => exact ih

variable (hmain : sess.branch = mainBranch)
include hmain

theorem Aside.not_row {m : Mutation Bytes Val} (h : Aside sess m) : ¬ rowPrefix sess.ns mainBranch table <+: m.key := by
  intro hk
  cases h with
  | entry d pk tuple add =>
    rw [entryMutation_key, hmain] at hk
    exact row_not_entry hk (indexColumnPrefix_indexKey ..)
  | counter name text => exact row_not_schema hk (schemaKey_root.mpr ⟨_, rfl⟩)

theorem rowAt_main {t k : Bytes} (h : RowAt sess s.map t k) : rowPrefix sess.ns mainBranch t <+: k := by
  obtain ⟨b, hb | hb, hk⟩ := h
  · rwa [hb, hmain] at hk
  · exact absurd hmain hb.1

variable (hapart : Apart children sess.ns table) (h : Wrote sess s.map children table own buf)
include hapart h

/-- What the buffer has of the table's rows are the statement's own writes. -/
theorem Wrote.rows_own : ∀ m ∈ buf, rowPrefix sess.ns mainBranch table <+: m.key → m ∈ own := by
  induction h with
  | nil => exact fun _ hm => absurd hm not_mem_nil
  | own _ _ ih =>
    refine forall_mem_append.mpr ⟨fun m hm hk => mem_append_left _ (ih m hm hk), fun m hm _ => mem_append_right _ hm⟩
  | aside _ hm ih => exact forall_mem_append.mpr ⟨ih, forall_mem_singleton.mpr fun hk => absurd hk (hm.not_row hmain)⟩
  | child _ ht hm ih =>
    exact forall_mem_append.mpr ⟨ih, forall_mem_singleton.mpr fun hk => absurd hk (hapart _ ht _ (rowAt_main hmain hm))⟩

/-- What is seen of the table's rows is what they leave. -/
theorem Wrote.lookup_rows {k : Bytes} (hk : rowPrefix sess.ns mainBranch table <+: k) :
    (s.seen buf).lookup k = (s.seen own).lookup k := by
  induction h with
  | nil => rfl
  | own _ _ ih => rw [Snap.seen_concat, Snap.seen_concat, OrdMap.lookup_set, OrdMap.lookup_set, ih]
  | aside _ hm ih =>
    rw [Snap.seen_concat, OrdMap.lookup_set, if_neg, ih]
    rintro rfl
    exact hm.not_row hmain hk
  | child _ ht hm ih =>
    rw [Snap.seen_concat, OrdMap.lookup_set, if_neg, ih]
    rintro rfl
    exact hapart _ ht _ (rowAt_main hmain hm) hk

end main

end BasuyuDb.Executor
