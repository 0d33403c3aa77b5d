import BasuyuDb.Executor.BulkInsert
import BasuyuDb.Branch.Views

/-
  engine/internal/executor/dml.go, advanced_dml.go (execCreateTableAs): the rows of a table without a primary key. A
  row's key is the read timestamp of its transaction, which `Begin` takes from the clock and every commit advances.
  So each transaction can add one row to the table: a second INSERT finds its key taken (`heap_rows_kept`), and of
  the rows of CREATE TABLE AS the last one stays.
-/

namespace BasuyuDb.Branch
open KvLib Storage Executor List
open Prog hiding pure bind

variable (env : Env)

/-! ## Transactions of INSERTs -/

/-- A single-row INSERT with its parameters. -/
abbrev InsertCall := InsertStmt × Data

variable (sess : Session) (table : Bytes)

/-- `execInsert`, answering the new row as `decodeRow` reads it. -/
def insertRow (a : InsertCall) : Stm Data := do
  let t ← insertTarget env sess a.1 a.2
  let _ ← insertInto env sess a.1 a.2 t
  pure (t.2.1.takeD t.1.cols.length none)

/-- The INSERTs of one transaction: one in autocommit, where every row of a multi-row INSERT has its own. -/
def insertRows (sess : Session) : List InsertCall → Stm (List Data)
  | [] => pure []
  | a :: T => do
    let cells ← insertRow env sess a
    let rest ← insertRows sess T
    pure (cells :: rest)

/-- A database, and the rows accepted so far. -/
abbrev HeapRun := Db × List Data

/-- One transaction: committed, or rolled back at its first error. -/
def HeapRun.step (st : HeapRun) (T : List InsertCall × Nat) : Option HeapRun :=
  match (insertRows env sess T.1).exec underPrefix st.1 [] T.2 with
  | .ok (cells, _) => some (commitOn underPrefix st.1 (insertRows env sess T.1, T.2), st.2 ++ cells)
  | .error _ => some st

/-- An INSERT of the transaction finds a row under the key of its own: it is rejected, or left to ON CONFLICT. -/
def Duplicate (db : Db) (T : List InsertCall × Nat) : Prop :=
  ∃ pre a post sch cells key raw buf, T.1 = pre ++ a :: post ∧
    (insertRows env sess pre >>= fun _ => insertTarget env sess a.1 a.2).exec underPrefix db [] T.2 =
      .ok ((sch, cells, key, some raw), buf)

/-- A second INSERT of the transaction passes the checks of its row. -/
def Second (db : Db) (T : List InsertCall × Nat) : Prop :=
  ∃ a b rest t, T.1 = a :: b :: rest ∧
    (insertRow env sess a >>= fun _ => insertTarget env sess b.1 b.2).exec underPrefix db [] T.2 = .ok t

/-- The scans before and after differ by the rows. -/
def Added (sch : TableSchema) (W W' : State) (cells : List Data) : Prop :=
  ∃ rows rows', scanned sess W sch.name = .ok (sch, rows) ∧ scanned sess W' sch.name = .ok (sch, rows') ∧
    (rows'.map ScanRow.cells).Perm (rows.map ScanRow.cells ++ cells)

/-! ## Keys -/

/-- The tail of the key of a row inserted at a timestamp. -/
def heapTail (ts : Nat) : Bytes := putUint32 (pad20 ts).length ++ pad20 ts

theorem heapTail_inj {m n : Nat} (h : heapTail m = heapTail n) : m = n := by
  have hzeros : ∀ j, (List.replicate j (48 : Byte)).foldl (fun n (b : Byte) => 10 * n + (b.val - 48)) 0 = 0 := by
    intro j
    induction j with
    | zero => rfl
    | succ j ih => exact ih
  have hfold : ∀ k, (pad20 k).foldl (fun n (b : Byte) => 10 * n + (b.val - 48)) 0 = k := by
    intro k
    have hparse := parseNat_formatNat k
    unfold parseNat at hparse
    split at hparse
    · unfold pad20
      rw [foldl_append, hzeros]
      exact Option.some.inj hparse
    · cases hparse
  rw [← hfold m, (append_inj h rfl).2, hfold n]

/-- The key is neither of an index of the branch nor a counter's. -/
def Calm (k : Bytes) : Prop := OffIndex sess k ∧ ∀ name, k ≠ seqKey sess name

/-- The table has no primary key, its rows lie under timestamps of the past, and its name is not a counter's. -/
structure Heap (sess : Session) (sch : TableSchema) (db : Db) : Prop where
  resolved : resolvedIn sess.ns db.map sch.name = some sch
  keyless : sch.pkIndex = none
  named : sch.name ≠ otelSpansTable ∧ ¬str "#seq#" <+: sch.name
  separate : Separate sess db.map
  rows : RowsOnly sess.ns db.map sch.name sess.branch
  inherited : Falls sess sch → RowsOnly sess.ns db.map sch.name (parentIn sess.ns db.map sess.branch)
  past : ∀ n, db.ts ≤ n → db.map.lookup (ownKey sess sch (heapTail n)) = none ∧
    (Falls sess sch → db.map.lookup (parentKey sess db.map sch (heapTail n)) = none)

section keys
variable {sess} {sch : TableSchema} {W : State} {tail : Bytes}

theorem row_ne_schema {ns b x tail y : Bytes} : rowPrefix ns b x ++ tail ≠ schemaKey ns y :=
  fun heq => branchData_not_schema ns b y (heq ▸ (branchData_rowPrefix _ _ _).trans (prefix_append _ _))

theorem calm_ownKey : Calm sess (ownKey sess sch tail) := ⟨offIndex_ownKey, fun _ => row_ne_schema⟩

theorem calm_parentKey (hsep : Separate sess W) (hf : Falls sess sch) : Calm sess (parentKey sess W sch tail) :=
  ⟨offIndex_parentKey hsep hf, fun _ => row_ne_schema⟩

theorem calm_branchMeta (b : Bytes) : Calm sess (branchMetaKey sess.ns b) :=
  ⟨offIndex_branchMeta b, fun _ => branchMeta_ne_schema⟩

theorem calm_schema (h : ¬str "#seq#" <+: sch.name) : Calm sess (schemaKey sess.ns sch.name) := by
  refine ⟨fun x c hpre => ?_, fun name heq => h (schemaKey_inj heq ▸ prefix_append _ _)⟩
  have hsub := (subtree_indexColumnPrefix _ _ _ _).trans hpre
  rw [branchSubtreePrefix_eq] at hsub
  exact schemaKey_not_under (branchSegment_path _ _) hsub

end keys

/-! ## One INSERT -/

section insert
variable {env sess} {sch : TableSchema} {db : Db} {a b : InsertCall} {buf : Buffer}

theorem lookup_calm {ms : Buffer} {k : Bytes} (hk : Calm sess k)
    (h : ∀ m ∈ ms, IsCounter sess m ∨ ∃ x c, indexColumnPrefix sess.ns sess.branch x c <+: m.key) :
    (db.seen (buf ++ ms)).lookup k = (db.seen buf).lookup k := by
  refine db.lookup_seen_append fun m hm heq => ?_
  rcases h m hm with ⟨name, text, rfl⟩ | ⟨x, c, hpre⟩
  · exact hk.2 name heq.symm
  · exact hk.1 x c (heq ▸ hpre)

/-- What an INSERT finds: the schema, and what is stored under the key of the transaction's timestamp. -/
theorem wp_heapTarget (htable : a.1.table = sch.name) (hres : resolvedIn sess.ns (db.seen buf) sch.name = some sch)
    (hpk : sch.pkIndex = none) (hotel : sch.name ≠ otelSpansTable) :
    (insertTarget env sess a.1 a.2).wp underPrefix db (fun t buf' => t.1 = sch ∧
      t.2.2.1 = ownKey sess sch (heapTail db.ts) ∧ t.2.2.2 = (db.seen buf).lookup t.2.2.1 ∧
      ∀ k, Calm sess k → (db.seen buf').lookup k = (db.seen buf).lookup k) buf := by
  unfold insertTarget
  rw [wp_bind, wp_resolveSchema, htable]
  intro sch' hsch'
  cases hres.symm.trans hsch'
  rw [wp_bind]
  refine wp_mono ((newRow_writes (P := IsCounter sess) fun name text => ⟨name, text, rfl⟩).wp buf) fun cells buf₁ hbuf => ?_
  obtain ⟨ms, rfl, hms⟩ := hbuf
  rw [wp_bind]
  refine enforceFKChild_writes.wp_none fun _ => ?_
  rw [wp_bind]
  refine checkPolicies_writes.wp_none fun _ => ?_
  have hcalm : ∀ k, Calm sess k → (db.seen (buf ++ ms)).lookup k = (db.seen buf).lookup k :=
    fun k hk => lookup_calm hk fun m hm => .inl (hms m hm)
  unfold insertKey storedAt
  simp only [if_neg hotel, hpk, wp_bind, wp_timestamp, wp_pure, wp_read]
  exact ⟨trivial, rowKey_eq _ _ _ _, hcalm _ (rowKey_eq _ _ _ _ ▸ calm_ownKey), hcalm⟩

theorem wp_storeNewRow {key : Bytes} {cells : Data} : (storeNewRow env sess sch a.1 a.2 key cells).wp underPrefix db
    (fun _ buf' => ∀ k, Calm sess k → (db.seen buf').lookup k =
      if k = key then some (.row cells) else (db.seen buf).lookup k) buf := by
  unfold storeNewRow writeNewRow
  simp only [wp_bind]
  refine loadIndexes_writes.wp_none fun defs => ?_
  refine insertUnique_writes.wp_none fun _ => ?_
  rw [wp_write]
  refine wp_mono (indexEntries_writes.wp _) fun _ buf' hbuf => ?_
  obtain ⟨ms, rfl, hms⟩ := hbuf
  refine result_writes.wp_none fun _ k hk => ?_
  rw [lookup_calm hk, seen_assignment]
  · rfl
  · intro m hm
    obtain ⟨d, -, tuple, pk, hkey⟩ := hms m hm
    exact .inr ⟨d.table, d.name, hkey ▸ indexColumnPrefix_indexKey _ _ _ _ _ _⟩

theorem wp_insertRow (h : Heap sess sch db) (htable : a.1.table = sch.name) :
    (insertTarget env sess a.1 a.2).wp underPrefix db (fun t _ => t.2.2.2 = none) [] ∧
    (insertRow env sess a).wp underPrefix db (fun cells buf' => ∃ raw, cells = raw.takeD sch.cols.length none ∧
      ∀ k, Calm sess k → (db.seen buf').lookup k =
        if k = ownKey sess sch (heapTail db.ts) then some (.row raw) else db.map.lookup k) [] := by
  have htarget := @wp_heapTarget env sess sch db a [] htable h.resolved h.keyless h.named.1
  have hfree := (h.past db.ts le_rfl).1
  refine ⟨wp_mono htarget fun t _ ht => ?_, ?_⟩
  · rw [ht.2.2.1, ht.2.1]
    exact hfree
  · unfold insertRow
    rw [wp_bind]
    refine wp_mono htarget fun t buf₁ ht => ?_
    obtain ⟨sch', cells, key, existing⟩ := t
    obtain ⟨hsch, hkey, hstored, hcalm⟩ := ht
    dsimp only at hsch hkey hstored hcalm ⊢
    subst hsch hkey
    have hnone : existing = none := hstored.trans hfree
    unfold insertInto
    simp only [hnone]
    rw [wp_bind]
    exact wp_mono wp_storeNewRow fun _ buf₂ hstore => ⟨cells, rfl, fun k hk => by rw [hstore k hk, hcalm k hk]; rfl⟩

theorem wp_second (h : Heap sess sch db) (ha : a.1.table = sch.name) (hb : b.1.table = sch.name) :
    (insertRow env sess a >>= fun _ => insertTarget env sess b.1 b.2).wp underPrefix db (fun t _ => t.2.2.2 ≠ none) [] := by
  rw [wp_bind]
  refine wp_mono (wp_insertRow h ha).2 fun _ buf₁ hrow => ?_
  obtain ⟨raw, -, hcalm⟩ := hrow
  have hres : resolvedIn sess.ns (db.seen buf₁) sch.name = some sch := by
    rw [← h.resolved]
    unfold resolvedIn schemaIn
    have hne : schemaKey sess.ns sch.name ≠ ownKey sess sch (heapTail db.ts) := row_ne_schema.symm
    rw [hcalm _ (calm_schema h.named.2), if_neg hne]
  refine wp_mono (wp_heapTarget hb hres h.keyless h.named.1) fun t _ ht => ?_
  rw [ht.2.2.1, ht.2.1, hcalm _ calm_ownKey, if_pos rfl]
  nofun

theorem Heap.insert (h : Heap sess sch db) {raw : Data} {W : State} (hW : ∀ k, Calm sess k → W.lookup k =
      if k = ownKey sess sch (heapTail db.ts) then some (.row raw) else db.map.lookup k) :
    Heap sess sch ⟨W, db.ts + 1⟩ ∧ Added sess sch db.map W [raw.takeD sch.cols.length none] := by
  have hother : ∀ k, Calm sess k → k ≠ ownKey sess sch (heapTail db.ts) → W.lookup k = db.map.lookup k :=
    fun k hk hne => by rw [hW k hk, if_neg hne]
  have hschema : resolvedIn sess.ns W sch.name = some sch := by
    rw [← h.resolved]
    unfold resolvedIn schemaIn
    rw [hother _ (calm_schema h.named.2) row_ne_schema.symm]
  have hmeta : parentIn sess.ns W sess.branch = parentIn sess.ns db.map sess.branch := by
    unfold parentIn
    rw [hother _ (calm_branchMeta _) row_ne_branchMeta.symm]
  have hparent : Falls sess sch → ∀ tail, W.lookup (parentKey sess db.map sch tail) =
      db.map.lookup (parentKey sess db.map sch tail) := fun hf tail =>
    hother _ (calm_parentKey h.separate hf) (h.separate.own_ne_parent hf).symm
  have hrows : RowsOnly sess.ns W sch.name sess.branch := by
    rintro _ v ⟨tail, rfl⟩ hlook
    change W.lookup (ownKey sess sch tail) = some v at hlook
    rw [hW _ calm_ownKey] at hlook
    split at hlook
    · cases hlook
      rfl
    · exact h.rows _ v (prefix_append _ _) hlook
  have hinherited : Falls sess sch → RowsOnly sess.ns W sch.name (parentIn sess.ns W sess.branch) := by
    rw [hmeta]
    rintro hf _ v ⟨tail, rfl⟩ hlook
    exact h.inherited hf _ v (prefix_append _ _) ((hparent hf tail).symm.trans hlook)
  have hfresh : ∀ n, db.ts + 1 ≤ n → ownKey sess sch (heapTail n) ≠ ownKey sess sch (heapTail db.ts) :=
    fun n hn heq => absurd (heapTail_inj (ownKey_inj heq)) (by omega)
  refine ⟨⟨hschema, h.keyless, h.named, ?_, hrows, hinherited, fun n hn => ⟨?_, fun hf => ?_⟩⟩, ?_⟩
  · unfold Separate
    rw [hmeta]
    exact h.separate
  · exact (hother _ calm_ownKey (hfresh n hn)).trans (h.past n (Nat.le_of_succ_le hn)).1
  · unfold parentKey
    rw [hmeta]
    exact (hparent hf _).trans ((h.past n (Nat.le_of_succ_le hn)).2 hf)
  · obtain ⟨rows, hscan, hlists⟩ := scanned_lists h.resolved h.rows h.inherited
    obtain ⟨rows', hscan', hlists'⟩ := scanned_lists hschema hrows hinherited
    have hnone : seenAt sess db.map sch (heapTail db.ts) = none := by
      refine Option.eq_none_iff_forall_ne_some.mpr fun r hr => ?_
      obtain ⟨hkey, cells, hlook, -⟩ := seenAt_eq_some.mp hr
      obtain ⟨hown, hpar⟩ := h.past db.ts le_rfl
      rcases hkey with hkey | ⟨hf, -, hkey⟩
      · rw [hkey, hown] at hlook
        cases hlook
      · rw [hkey, hpar hf] at hlook
        cases hlook
    have hseen : ∀ tail, seenAt sess W sch tail = if tail = heapTail db.ts then
        some ⟨ownKey sess sch (heapTail db.ts), raw.takeD sch.cols.length none⟩ else seenAt sess db.map sch tail := by
      intro tail
      split
      · next heq =>
        subst heq
        exact seenAt_eq_some.mpr ⟨.inl rfl, raw, by rw [hW _ calm_ownKey, if_pos rfl], rfl⟩
      · next hne =>
        exact seenAt_congr hmeta (hother _ calm_ownKey fun heq => hne (ownKey_inj heq)) fun hf => hparent hf tail
    refine ⟨rows, rows', hscan, hscan', ((hlists'.unique (hlists.insert hnone hseen)).map ScanRow.cells).trans ?_⟩
    exact perm_append_singleton _ _ |>.symm

/-! ## Transactions -/

variable {cells : List Data} {T : List InsertCall × Nat} {i i' : Nat} {buf' : Buffer}
  {rest : List InsertCall}

theorem insertRows_cons_ok {T : List InsertCall} {buf : Buffer}
    (h : (insertRows env sess (a :: T)).run underPrefix db buf i = .ok (cells, buf', i')) : ∃ c buf₁ i₁ rest,
      (insertRow env sess a).run underPrefix db buf i = .ok (c, buf₁, i₁) ∧
      (insertRows env sess T).run underPrefix db buf₁ i₁ = .ok (rest, buf', i') ∧ cells = c :: rest := by
  obtain ⟨c, buf₁, i₁, hrow, h⟩ := run_bind_ok h
  obtain ⟨rest, buf₂, i₂, hrest, h⟩ := run_bind_ok h
  obtain ⟨rfl, rfl, rfl⟩ : c :: rest = cells ∧ buf₂ = buf' ∧ i₂ = i' := by simpa using Except.ok.inj h
  exact ⟨c, buf₁, i₁, rest, hrow, hrest, rfl⟩

theorem second_of_run {i₁ : Nat} {c : Data} {buf₁ : Buffer}
    (ha : (insertRow env sess a).run underPrefix db [] i = .ok (c, buf₁, i₁))
    (hb : ∃ x, (insertTarget env sess b.1 b.2).run underPrefix db buf₁ i₁ = .ok x) :
    Second env sess db (a :: b :: rest, i) := by
  obtain ⟨x, hb⟩ := hb
  refine ⟨a, b, rest, (x.1, x.2.1), rfl, ?_⟩
  rw [exec_eq_run, run_bind, ha]
  exact congrArg (Except.map _) hb

theorem second_of_rows (h : (insertRows env sess (a :: b :: rest)).run underPrefix db [] i = .ok (cells, buf', i')) :
    Second env sess db (a :: b :: rest, i) := by
  obtain ⟨c, buf₁, i₁, _, ha, hrest, -⟩ := insertRows_cons_ok h
  obtain ⟨_, _, _, _, hb, -⟩ := insertRows_cons_ok hrest
  obtain ⟨t, buf₂, i₂, hb, -⟩ := run_bind_ok hb
  exact second_of_run ha ⟨_, hb⟩

theorem Heap.step (h : Heap sess sch db) {acc : List Data} {st : HeapRun}
    (hinto : ∀ a ∈ T.1, a.1.table = sch.name) (hsecond : ¬Second env sess db T)
    (hst : HeapRun.step env sess (db, acc) T = some st) :
    ∃ cells, st.2 = acc ++ cells ∧ Heap sess sch st.1 ∧ Added sess sch db.map st.1.map cells := by
  have hsame : ∃ cells, acc = acc ++ cells ∧ Heap sess sch db ∧ Added sess sch db.map db.map cells := by
    obtain ⟨rows, hscan, -⟩ := scanned_lists h.resolved h.rows h.inherited
    exact ⟨[], (append_nil _).symm, h, rows, rows, hscan, hscan, by rw [append_nil]⟩
  obtain ⟨T, i⟩ := T
  unfold HeapRun.step at hst
  cases hexec : (insertRows env sess T).exec underPrefix db [] i with
  | error e =>
    rw [hexec] at hst
    cases hst
    exact hsame
  | ok x =>
    obtain ⟨cells, ms⟩ := x
    rw [hexec] at hst
    cases hst
    obtain ⟨i', hrun⟩ := run_of_exec hexec
    match T, hinto, hsecond, hexec, hrun with
    | [], _, _, hexec, hrun =>
      obtain ⟨rfl, rfl⟩ := Prod.mk.inj (Except.ok.inj hexec)
      unfold commitOn
      rw [hexec, append_nil]
      obtain ⟨cells, hacc, hkept⟩ := hsame
      exact ⟨cells, hacc, hkept⟩
    | [a], hinto, _, hexec, hrun =>
      obtain ⟨c, buf₁, i₁, rest, hrow, hrest, rfl⟩ := insertRows_cons_ok hrun
      obtain ⟨rfl, rfl, -⟩ : [] = rest ∧ buf₁ = ms ∧ i₁ = i' := by simpa using Except.ok.inj hrest
      obtain ⟨raw, rfl, hcalm⟩ := wp_run (wp_insertRow h (hinto a mem_cons_self)).2 hrow
      have hne : buf₁ ≠ [] := by
        rintro rfl
        have hstored := hcalm (ownKey sess sch (heapTail db.ts)) calm_ownKey
        rw [if_pos rfl] at hstored
        cases (h.past db.ts le_rfl).1.symm.trans hstored
      rw [commitOn_of_exec hexec hne]
      exact ⟨_, rfl, h.insert hcalm⟩
    | a :: b :: rest, _, hsecond, _, hrun => exact absurd (second_of_rows hrun) hsecond

theorem Heap.duplicate_iff (h : Heap sess sch db) (hinto : ∀ a ∈ T.1, a.1.table = sch.name) :
    Duplicate env sess db T ↔ Second env sess db T := by
  obtain ⟨T, i⟩ := T
  constructor
  · rintro ⟨pre, a, post, t, cells, key, raw, buf, rfl, hexec⟩
    obtain ⟨i', hrun⟩ := run_of_exec hexec
    obtain ⟨done, buf₁, i₁, hpre, hrun⟩ := run_bind_ok hrun
    match pre, hinto, hpre with
    | [], hinto, hpre =>
      obtain ⟨-, rfl, -⟩ : [] = done ∧ [] = buf₁ ∧ i = i₁ := by simpa using Except.ok.inj hpre
      have hfree := wp_run (wp_insertRow h (hinto a (mem_append_right _ mem_cons_self))).1 hrun
      cases hfree
    | [b], _, hpre =>
      obtain ⟨c, buf₂, i₂, rest, hrow, hrest, -⟩ := insertRows_cons_ok hpre
      obtain ⟨-, rfl, rfl⟩ : [] = rest ∧ buf₂ = buf₁ ∧ i₂ = i₁ := by simpa using Except.ok.inj hrest
      exact second_of_run hrow ⟨_, hrun⟩
    | b :: c :: pre, _, hpre =>
      obtain ⟨d, buf₂, i₂, _, hb, hrest, -⟩ := insertRows_cons_ok hpre
      obtain ⟨_, _, _, _, hc, -⟩ := insertRows_cons_ok hrest
      obtain ⟨t, buf₃, i₃, hc, -⟩ := run_bind_ok hc
      exact second_of_run hb ⟨_, hc⟩
  · rintro ⟨a, b, rest, ⟨⟨t, cells, key, existing⟩, buf⟩, hT, hexec⟩
    have hT : T = a :: b :: rest := hT
    subst hT
    have htaken := wp_exec (wp_second h (hinto a mem_cons_self) (hinto b (.tail _ mem_cons_self))) hexec
    obtain ⟨raw, rfl⟩ := Option.ne_none_iff_exists'.mp htaken
    refine ⟨[a], b, rest, t, cells, key, raw, buf, rfl, ?_⟩
    rw [← hexec]
    change ((insertRow env sess a >>= fun c => pure [c]) >>= _).exec underPrefix db [] i = _
    rw [Prog.bind_assoc]
    rfl

end insert

/-! ## CREATE TABLE AS -/

/-- The table of CREATE TABLE AS, from the columns of the query. -/
def selectSchema (columns : List (Bytes × Nat)) : TableSchema :=
  ⟨table, columns.map fun c => ⟨env.toLower c.1, c.2, false, none, [], [], [], .unspecified, .unspecified, [], false, []⟩,
    none, false, false, []⟩

/-- The rows of the query, each under the timestamp. -/
def loadRows (width : Nat) (rows : List Data) : Stm Unit :=
  forEach rows fun row => do
    let ts ← Prog.timestamp
    Prog.write (assignment (rowKey sess.ns sess.branch table (pad20 ts)) (.row (row.takeD width none)))

/-- `execCreateTableAs`, after the query answered its columns and rows. -/
def execCreateTableAs (ifNotExists : Bool) (columns : List (Bytes × Nat))
    (rows : List Data) : Stm Result := do
  match ← Prog.read (schemaKey sess.ns table) with
  | some (.schema _) => if ifNotExists then pure ⟨"SELECT", 0, []⟩ else .throw (relationExists table)
  | _ => do
    Prog.write (assignment (schemaKey sess.ns table) (.schema (selectSchema env table columns)))
    loadRows sess table columns.length rows
    pure ⟨"SELECT", rows.length, []⟩

section select
variable {env sess table} {db : Db} {columns : List (Bytes × Nat)} {rows : List Data} {i : Nat}

/-- The write of the new table's schema. -/
def schemaWrite (env : Env) (sess : Session) (table : Bytes) (columns : List (Bytes × Nat)) : Mutation Bytes Val :=
  assignment (schemaKey sess.ns table) (.schema (selectSchema env table columns))

/-- The write of a row of the query, at the timestamp. -/
def selectWrite (sess : Session) (db : Db) (table : Bytes) (columns : List (Bytes × Nat)) (row : Data) :
    Mutation Bytes Val :=
  assignment (rowKey sess.ns sess.branch table (pad20 db.ts)) (.row (row.takeD columns.length none))

theorem createTableAs_exec {ifNotExists : Bool} (hnew : ∀ t, db.map.lookup (schemaKey sess.ns table) ≠ some (.schema t)) :
    (execCreateTableAs env sess table ifNotExists columns rows).exec underPrefix db [] i =
      .ok (⟨"SELECT", rows.length, []⟩,
        schemaWrite env sess table columns :: rows.map (selectWrite sess db table columns)) := by
  have hrows : ∀ buf, (loadRows sess table columns.length rows).run underPrefix db buf i =
      .ok ((), buf ++ rows.map (selectWrite sess db table columns), i) := by
    induction rows with
    | nil => exact fun buf => congrArg (fun b => Except.ok ((), b, i)) (append_nil buf).symm
    | cons row rows ih =>
      intro buf
      refine (ih (buf ++ [selectWrite sess db table columns row])).trans ?_
      rw [append_assoc]
      rfl
  have hload : (loadRows sess table columns.length rows >>= fun _ => pure ⟨"SELECT", rows.length, []⟩ : Stm Result).run
      underPrefix db [schemaWrite env sess table columns] i = .ok (⟨"SELECT", rows.length, []⟩,
        schemaWrite env sess table columns :: rows.map (selectWrite sess db table columns), i) := by
    rw [run_bind, hrows]
    rfl
  rw [exec_eq_run]
  unfold execCreateTableAs
  rw [run_bind, run_read]
  change (∀ t, (db.seen []).lookup (schemaKey sess.ns table) ≠ some (.schema t)) at hnew
  generalize (db.seen []).lookup (schemaKey sess.ns table) = o at hnew ⊢
  cases o with
  | none => exact congrArg (Except.map _) hload
  | some v =>
    cases v with
    | schema t => exact absurd rfl (hnew t)
    | _ => exact congrArg (Except.map _) hload

theorem createTableAs_added
    (h : Heap sess (selectSchema env table columns) ⟨db.seen [schemaWrite env sess table columns], db.ts⟩) :
    Added sess (selectSchema env table columns) (db.seen [schemaWrite env sess table columns])
      (db.seen (schemaWrite env sess table columns :: rows.map (selectWrite sess db table columns)))
      (rows.map (·.takeD columns.length none)) ↔ rows.length ≤ 1 := by
  have hwidth : (selectSchema env table columns).cols.length = columns.length := length_map _
  rcases eq_nil_or_concat' rows with rfl | ⟨xs, x, rfl⟩
  · obtain ⟨old, hscan, -⟩ := scanned_lists h.resolved h.rows h.inherited
    exact iff_of_true ⟨old, old, hscan, hscan, by rw [map_nil, append_nil]⟩ (Nat.zero_le _)
  · -- every row is written under one key, so the last one is what the key holds
    have hseen (k : Bytes) : (db.seen (schemaWrite env sess table columns ::
        (xs ++ [x]).map (selectWrite sess db table columns))).lookup k =
        if k = ownKey sess (selectSchema env table columns) (heapTail db.ts) then some (.row (x.takeD columns.length none))
        else (db.seen [schemaWrite env sess table columns]).lookup k := by
      rw [map_append, ← cons_append]
      refine (seen_assignment _ _ _ _ _).trans ?_
      rw [rowKey_eq]
      refine ite_congr rfl (fun _ => rfl) fun hne => ?_
      rw [← singleton_append, db.lookup_seen_append]
      intro m hm heq
      obtain ⟨y, -, rfl⟩ := mem_map.mp hm
      exact hne (heq.symm.trans (rowKey_eq _ _ _ _))
    have hlast := (h.insert fun k _ => hseen k).2
    rw [hwidth, takeD_eq_take none (takeD_length _ _ _).ge, take_of_length_le (takeD_length _ _ _).le] at hlast
    constructor
    · rintro ⟨old, new, hold, hnew, hperm⟩
      obtain ⟨old', new', hold', hnew', hperm'⟩ := hlast
      obtain rfl : old = old' := congrArg Prod.snd (Except.ok.inj (hold.symm.trans hold'))
      obtain rfl : new = new' := congrArg Prod.snd (Except.ok.inj (hnew.symm.trans hnew'))
      have hlen := (hperm.symm.trans hperm').length_eq
      simp only [length_append, length_map, length_cons, length_nil] at hlen ⊢
      omega
    · intro hle
      obtain rfl : xs = [] := eq_nil_of_length_eq_zero (by simpa using hle)
      exact hlast

end select

/-- In a table without a primary key every INSERT adds its row when no transaction has a second one that passes its
checks, and CREATE TABLE AS keeps its rows when there is at most one. -/
theorem heap_rows_kept {sess : Session} {sch : TableSchema} {db : Db} (h : Heap sess sch db) :
    (∀ T : List InsertCall × Nat, (∀ a ∈ T.1, a.1.table = sch.name) →
      ((¬Duplicate env sess db T ∧ ∀ st, HeapRun.step env sess (db, []) T = some st → Added sess sch db.map st.1.map st.2) ↔
        ¬Second env sess db T)) ∧ (∀ st, Reach (HeapRun.step env sess)
        (fun st T => (∀ a ∈ T.1, a.1.table = sch.name) ∧ ¬Second env sess st.1 T) (db, []) st →
      Heap sess sch st.1 ∧ Added sess sch db.map st.1.map st.2) ∧
    ∀ table columns rows i, (∀ t, db.map.lookup (schemaKey sess.ns table) ≠ some (.schema t)) →
      Heap sess (selectSchema env table columns) ⟨db.seen [schemaWrite env sess table columns], db.ts⟩ →
      ∃ ms, (execCreateTableAs env sess table false columns rows).exec underPrefix db [] i =
          .ok (⟨"SELECT", rows.length, []⟩, ms) ∧
        (Added sess (selectSchema env table columns) (db.seen [schemaWrite env sess table columns]) (db.seen ms)
          (rows.map (·.takeD columns.length none)) ↔ rows.length ≤ 1) := by
  refine ⟨fun T hinto => ?_, fun st hreach => ?_, fun table columns rows i hnew hheap =>
    ⟨_, createTableAs_exec hnew, createTableAs_added hheap⟩⟩
  · rw [h.duplicate_iff hinto]
    refine and_iff_left_of_imp fun hsecond st hst => ?_
    obtain ⟨cells, hcells, -, hadded⟩ := h.step hinto hsecond hst
    rwa [hcells]
  · refine hreach.inv (I := fun st : HeapRun => Heap sess sch st.1 ∧ Added sess sch db.map st.1.map st.2) ?_ ?_
    · obtain ⟨rows, hscan, -⟩ := scanned_lists h.resolved h.rows h.inherited
      exact ⟨h, rows, rows, hscan, hscan, by rw [append_nil]⟩
    · rintro st T st' ⟨hst, rows, mid, hrows, hmid, hperm⟩ ⟨hinto, hsecond⟩ hstep
      obtain ⟨cells, hcells, hheap, mid', rows', hmid', hrows', hperm'⟩ := hst.step hinto hsecond hstep
      obtain rfl : mid = mid' := congrArg Prod.snd (Except.ok.inj (hmid.symm.trans hmid'))
      refine ⟨hheap, rows, rows', hrows, hrows', ?_⟩
      rw [hcells, ← append_assoc]
      exact hperm'.trans (hperm.append_right cells)

theorem Heap.of_empty {sess : Session} {sch : TableSchema} {db : Db} (hmain : sess.branch = mainBranch)
    (hres : resolvedIn sess.ns db.map sch.name = some sch) (hkey : sch.pkIndex = none)
    (hname : sch.name ≠ otelSpansTable ∧ ¬str "#seq#" <+: sch.name)
    (hempty : ∀ kv ∈ db.map.entries, ¬rowPrefix sess.ns sess.branch sch.name <+: kv.1) : Heap sess sch db := by
  have hnone : ∀ k, rowPrefix sess.ns sess.branch sch.name <+: k → db.map.lookup k = none := fun k hk =>
    Option.eq_none_iff_forall_ne_some.mpr fun v hv => hempty (k, v) ((OrdMap.lookup_eq_some _ _ _).mp hv) hk
  refine ⟨hres, hkey, hname, .inl hmain, fun k v hk hlook => ?_, fun hf => absurd (.inl hmain) hf,
    fun n _ => ⟨hnone _ (prefix_append _ _), fun hf => absurd (.inl hmain) hf⟩⟩
  rw [hnone k hk] at hlook
  cases hlook

/-- INSERT INTO h VALUES (text, NULL). -/
def heapCall (text : String) : InsertCall := (⟨str "h", [], [.const (.string (str text)), .const .null], none, .none⟩, [])

/-- A transaction of one INSERT into h. -/
def Lone (_ : HeapRun) (T : List InsertCall × Nat) : Prop := T.1.length = 1 ∧ ∀ a ∈ T.1, a.1.table = str "h"

instance (st : HeapRun) (T : List InsertCall × Nat) : Decidable (Lone st T) :=
  inferInstanceAs (Decidable (T.1.length = 1 ∧ ∀ a ∈ T.1, a.1.table = str "h"))

def heapTxns : List (List InsertCall × Nat) := [([heapCall "1"], 0), ([heapCall "2"], 0)]

/-- What CREATE TABLE k AS writes first. -/
def demoSelectWrite : Mutation Bytes Val := schemaWrite demoEnv (demoSession "main") (str "k") [(str "a", OIDText)]

/-- CREATE TABLE k AS with the rows adds them to the empty table. -/
def SelectAdds (db : Db) (rows : List Data) : Prop :=
  ∃ ms, (execCreateTableAs demoEnv (demoSession "main") (str "k") false [(str "a", OIDText)] rows).exec underPrefix db [] 0 =
      .ok (⟨"SELECT", rows.length, []⟩, ms) ∧
    Added (demoSession "main") (selectSchema demoEnv (str "k") [(str "a", OIDText)]) (db.seen [demoSelectWrite]) (db.seen ms) rows

/-- Two transactions of one INSERT each add both rows; CREATE TABLE AS adds one row, and not two. -/
theorem heap_rows_kept_two : ∃ db, Reach (Db.step demoEnv) (fun _ _ => True) Db.empty db ∧
    ¬Duplicate demoEnv (demoSession "main") db ([heapCall "1"], 0) ∧
    (∃ st, runAll (HeapRun.step demoEnv (demoSession "main")) Lone (db, []) heapTxns = some st ∧
      Added (demoSession "main") heapSchema db.map st.1.map [[some (str "1"), none], [some (str "2"), none]]) ∧
    SelectAdds db [[some (str "x")]] ∧ ¬SelectAdds db [[some (str "x")], [some (str "y")]] := by
  obtain ⟨db, hreach, hrun, hres, hempty, hnew, hres', hempty'⟩ := exists_demo [createHeap] (fun db : Db =>
    (runAll (HeapRun.step demoEnv (demoSession "main")) Lone (db, []) heapTxns).map Prod.snd =
      some [[some (str "1"), none], [some (str "2"), none]] ∧
    resolvedIn (str "n") db.map (str "h") = some heapSchema ∧
    (∀ kv ∈ db.map.entries, ¬rowPrefix (str "n") mainBranch (str "h") <+: kv.1) ∧
    db.map.lookup (schemaKey (str "n") (str "k")) = none ∧
    resolvedIn (str "n") (db.seen [demoSelectWrite]) (str "k") = some (selectSchema demoEnv (str "k") [(str "a", OIDText)]) ∧
    ∀ kv ∈ (db.seen [demoSelectWrite]).entries, ¬rowPrefix (str "n") mainBranch (str "k") <+: kv.1) (by decide +kernel)
  have hheap : Heap (demoSession "main") heapSchema db := .of_empty rfl hres rfl (by decide) hempty
  have hsecond : ∀ (db : Db) T, T.1.length = 1 → ¬Second demoEnv (demoSession "main") db T := by
    rintro db T hlen ⟨a, b, rest, t, heq, -⟩
    rw [heq] at hlen
    cases hlen
  obtain ⟨hinsert, hruns, hselect⟩ := heap_rows_kept demoEnv hheap
  obtain ⟨st, hst, hcells⟩ := Option.map_eq_some_iff.mp hrun
  have hselect := fun rows => hselect (str "k") [(str "a", OIDText)] rows 0 (fun t ht => nomatch hnew.symm.trans ht)
    (.of_empty rfl hres' rfl (by decide) hempty')
  refine ⟨db, hreach, ((hinsert _ (by decide)).mpr (hsecond db _ rfl)).1, ⟨st, hst, ?_⟩, ?_, ?_⟩
  · have hadded := hruns st ((reach_of_runAll _ hst).weaken (I := fun _ => True) trivial (fun _ _ _ _ _ _ => trivial)
      fun st T _ _ hlone _ => ⟨hlone.2, hsecond st.1 T hlone.1⟩)
    rw [hcells] at hadded
    exact hadded.2
  · obtain ⟨ms, hexec, hadds⟩ := hselect [[some (str "x")]]
    exact ⟨ms, hexec, hadds.mpr (by decide)⟩
  · rintro ⟨ms', hexec', hadded⟩
    obtain ⟨ms, hexec, hadds⟩ := hselect [[some (str "x")], [some (str "y")]]
    obtain rfl : ms = ms' := congrArg Prod.snd (Except.ok.inj (hexec.symm.trans hexec'))
    exact absurd (hadds.mp hadded) (by decide)

/-- Of two INSERTs in a transaction the second is refused, and of two rows CREATE TABLE AS keeps one. -/
theorem heap_row_refused : ∃ db, Reach (Db.step demoEnv) (fun _ _ => True) Db.empty db ∧
    ((insertRows demoEnv (demoSession "main") [heapCall "1", heapCall "2"]).exec underPrefix db [] 0).map Prod.fst =
      .error ⟨"23505", "duplicate key value violates unique constraint on %q", [str "h"]⟩ ∧
    ((execCreateTableAs demoEnv (demoSession "main") (str "k") false [(str "a", OIDText)]
      [[some (str "1")], [some (str "2")]]).exec underPrefix db [] 0).toOption.bind (fun x =>
        (scanned (demoSession "main") (db.seen x.2) (str "k")).toOption.map fun y => y.2.map ScanRow.cells) =
      some [[some (str "2")]] :=
  exists_demo [createHeap] _ (by decide +kernel)

end BasuyuDb.Branch
