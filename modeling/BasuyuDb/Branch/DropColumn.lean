import BasuyuDb.Branch.Truncation

/-
  engine/internal/executor/ddl.go (AlterDropColumn): DROP COLUMN on main rewrites the rows of main without the
  cell, while the schema is shared by all branches and the rows of the branches stay as they are. A branch then
  reads its own rows by position under the narrower schema: the cells after the dropped one move by one, and
  the last is lost (`drop_column_kept_iff`).
-/

namespace BasuyuDb.Branch
open KvLib Storage Executor List Option
open Prog hiding pure bind

/-! ## Rows before and after -/

/-- The entry after DROP COLUMN: a row under the prefix is stored without the cell. -/
def narrowed (pre : Bytes) (n idx : Nat) (k : Bytes) : Val → Val
  | .row cells => if pre <+: k then .row ((cells.takeD n none).eraseIdx idx) else .row cells
  | v => v

/-- The row a scan then shows: of a row that was not rewritten, the first cells. -/
def shownAfter (pre : Bytes) (idx : Nat) (r : ScanRow) : ScanRow :=
  ⟨r.key, if pre <+: r.key then r.cells.eraseIdx idx else r.cells.dropLast⟩

section rows
variable {pre : Bytes} {n idx : Nat}

theorem narrowed_off {k : Bytes} (h : ¬pre <+: k) (v : Val) : narrowed pre n idx k v = v := by
  cases v with
  | row cells => exact if_neg h
  | tombstone | text b | schema sch | indexes defs | branchMeta p => rfl

theorem takeD_dropLast (cells : Data) (n : Nat) : cells.takeD (n - 1) none = (cells.takeD n none).dropLast := by
  cases n with
  | zero => rfl
  | succ m =>
    rw [Nat.add_sub_cancel]
    induction m generalizing cells with
    | zero => rfl
    | succ m ih =>
      have hne : cells.tail.takeD (m + 1) none ≠ [] := by simp [List.takeD]
      rw [takeD_succ, takeD_succ, dropLast_cons_of_ne_nil hne, ← ih]

theorem takeD_eraseIdx (cells : Data) (h : idx < n) :
    ((cells.takeD n none).eraseIdx idx).takeD (n - 1) none = (cells.takeD n none).eraseIdx idx := by
  have hlen : ((cells.takeD n none).eraseIdx idx).length = n - 1 := by
    rw [length_eraseIdx, takeD_length, if_pos h]
  rw [takeD_eq_take none (Nat.le_of_eq hlen.symm)]
  exact take_of_length_le (Nat.le_of_eq hlen)

theorem decodeRow_narrowed (h : idx < n) (k : Bytes) (v : Val) : decodeRow (narrowed pre n idx k v) (n - 1) =
      (decodeRow v n).map (fun cells => (shownAfter pre idx ⟨k, cells⟩).cells) := by
  cases v with
  | row cells =>
    by_cases hk : pre <+: k
    · simpa [narrowed, shownAfter, decodeRow, Except.map, hk] using takeD_eraseIdx cells h
    · simpa [narrowed, shownAfter, decodeRow, Except.map, hk] using takeD_dropLast cells n
  | tombstone | text b | schema sch | indexes defs | branchMeta p => rfl

theorem liveRows_narrowed (h : idx < n) (kvs : List (Bytes × Val)) :
    liveRows (n - 1) (kvs.map fun kv => (kv.1, narrowed pre n idx kv.1 kv.2)) =
      (liveRows n kvs).map (List.map (shownAfter pre idx)) := by
  induction kvs with
  | nil => rfl
  | cons kv kvs ih =>
    obtain ⟨k, v⟩ := kv
    have htomb : narrowed pre n idx k v = .tombstone ↔ v = .tombstone := by
      cases v with
      | row cells =>
        by_cases hk : pre <+: k
        · simp [narrowed, hk]
        · simp [narrowed, hk]
      | tombstone | text b | schema sch | indexes defs | branchMeta p => exact Iff.rfl
    rw [map_cons, liveRows, liveRows, ih]
    by_cases hv : v = .tombstone
    · rw [if_pos (htomb.mpr hv), if_pos hv]
    · rw [if_neg fun ht => hv (htomb.mp ht), if_neg hv, decodeRow_narrowed h]
      cases decodeRow v n with
      | error e => rfl
      | ok cells =>
        cases liveRows n kvs with
        | error e | ok rows => rfl

end rows

/-! ## Scans -/

section scans
variable {ns table : Bytes} {W W' : State} {n idx : Nat}

theorem scanIn_narrowed (h : idx < n) (b : Bytes) (hmeta : parentIn ns W' b = parentIn ns W b)
    (hrows : ∀ b k, rowPrefix ns b table <+: k →
      W'.lookup k = (W.lookup k).map (narrowed (rowPrefix ns mainBranch table) n idx k)) :
    scanIn ns W' b table (n - 1) =
      (scanIn ns W b table n).map (List.map (shownAfter (rowPrefix ns mainBranch table) idx)) := by
  have hscan : ∀ b, W'.scan (underPrefix (rowPrefix ns b table)) = (W.scan (underPrefix (rowPrefix ns b table))).map
        (fun kv => (kv.1, narrowed (rowPrefix ns mainBranch table) n idx kv.1 kv.2)) :=
    fun b => OrdMap.scan_mapped fun k hk => hrows b k (underPrefix_iff.mp hk)
  have htails : tailsIn W' (rowPrefix ns b table) = tailsIn W (rowPrefix ns b table) := by
    unfold tailsIn
    rw [hscan, List.map_map]
    rfl
  have hparents : liveRows (n - 1) ((W'.scan (underPrefix (rowPrefix ns (parentIn ns W b) table))).filter
        (fun kv => !(tailsIn W (rowPrefix ns b table)).contains (keyTail kv.1 (rowPrefix ns (parentIn ns W b) table)))) =
      (liveRows n ((W.scan (underPrefix (rowPrefix ns (parentIn ns W b) table))).filter
        (fun kv => !(tailsIn W (rowPrefix ns b table)).contains
          (keyTail kv.1 (rowPrefix ns (parentIn ns W b) table))))).map
        (List.map (shownAfter (rowPrefix ns mainBranch table) idx)) := by
    rw [hscan, List.filter_map]
    exact liveRows_narrowed h _
  unfold scanIn
  dsimp only
  rw [hscan b, liveRows_narrowed h, htails, hmeta, hparents]
  cases liveRows n (W.scan (underPrefix (rowPrefix ns b table))) with
  | error e => rfl
  | ok own =>
    change (if _ then _ else _) = _
    by_cases hlocal : b = mainBranch ∨ table = otelSpansTable
    · rw [if_pos hlocal]
      change _ = Except.map _ (if _ then _ else _)
      rw [if_pos hlocal]
      rfl
    · rw [if_neg hlocal]
      change _ = Except.map _ (if _ then _ else _)
      rw [if_neg hlocal]
      generalize liveRows n (List.filter _ _) = parents
      cases parents with
      | error e => rfl
      | ok parents =>
        change Except.ok (_ ++ _) = Except.ok (List.map _ (own ++ parents))
        rw [map_append]

end scans

/-! ## The statement -/

theorem branchRow_not_entry {ns b x t c k : Bytes} (h : rowPrefix ns b x <+: k) :
    ¬indexColumnPrefix ns mainBranch t c <+: k := by
  by_cases hb : b = mainBranch ∨ b = []
  · have hmain : rowPrefix ns b x = rowPrefix ns mainBranch x := by
      have hseg : branchSegment b = branchSegment mainBranch := (if_pos hb).trans (if_pos (.inl rfl)).symm
      unfold rowPrefix
      rw [hseg]
    exact row_not_entry (hmain ▸ h)
  · obtain ⟨hmain, hempty⟩ := not_or.mp hb
    have hoff : nsRoot ns ++ (str "/br/" ++ []) <+: k := by
      rw [append_nil]
      exact offMain_subtree hmain hempty (((subtree_branchData _ _).trans (branchData_rowPrefix _ _ _)).trans h)
    rw [show indexColumnPrefix ns mainBranch t c = _ from indexColumnPrefix_main ns t c]
    exact not_under_both (by decide) (by decide) hoff

theorem branchMeta_not_entry {ns b x t c : Bytes} : ¬indexColumnPrefix ns b t c <+: branchMetaKey ns x := by
  intro h
  have hsub := (subtree_indexColumnPrefix ns b t c).trans h
  rw [branchSubtreePrefix_eq] at hsub
  exact branchMetaKey_not_under (branchSegment_path _ _) hsub

section statement
variable {env : Env} {sess : Session} {table name : Bytes} {s : Snap Bytes Val} {sch : TableSchema}

/-- Every row of main is written back without the cell, and the entries of the indexes on the column go. -/
theorem wp_dropColumn_narrowed (hmain : sess.branch = mainBranch) (hsch : resolvedIn sess.ns s.map table = some sch) :
    (dropColumn env sess sch table name).wp underPrefix s (fun sch' buf =>
      ∃ idx, sch.colIndex env name = some idx ∧ sch' = sch.withoutCol idx ∧
        ∀ k, (∀ x, k ≠ schemaKey sess.ns x) → (∀ t c, ¬indexColumnPrefix sess.ns mainBranch t c <+: k) →
          (s.seen buf).lookup k = (s.map.lookup k).map
            (narrowed (rowPrefix sess.ns mainBranch table) sch.cols.length idx k)) [] := by
  unfold dropColumn
  split
  · simp
  · rename_i idx hidx
    split
    · simp
    · rw [wp_bind, wp_scanTable hmain, Snap.seen_nil]
      intro sch₁ hsch₁ rows hrows
      cases hsch.symm.trans hsch₁
      rw [wp_bind]
      have hrow : ∀ r ∈ rows, ∃ cells, s.map.lookup r.key = some (.row cells) ∧
          rowPrefix sess.ns mainBranch table <+: r.key ∧ r.cells = cells.takeD sch.cols.length none := by
        intro r hr
        obtain ⟨cells, hmem, hcells⟩ := (mem_liveRows hrows).mp hr
        obtain ⟨hlook, hunder⟩ := (OrdMap.mem_scan _ _ _ _).mp hmem
        exact ⟨cells, hlook, underPrefix_iff.mp hunder, hcells⟩
      -- the keys that are not to come hold the narrowed entry
      refine wp_mono (wp_forEach (fun rest buf => (∀ r ∈ rest, r ∈ rows) ∧
        ∀ k, k ∉ rest.map ScanRow.key → (s.seen buf).lookup k = (s.map.lookup k).map
          (narrowed (rowPrefix sess.ns mainBranch table) sch.cols.length idx k)) ?_ ⟨fun r hr => hr, ?_⟩) ?_
      · intro r rest buf h
        obtain ⟨hmem, hdone⟩ := h
        rw [wp_write]
        refine ⟨fun x hx => hmem x (mem_cons_of_mem _ hx), fun k hk => ?_⟩
        rw [seen_assignment]
        split
        · rename_i heq
          subst heq
          obtain ⟨cells, hlook, hunder, hcells⟩ := hrow r (hmem r mem_cons_self)
          rw [hlook, hcells, map_some, narrowed, if_pos hunder]
          rfl
        · rename_i hne
          exact hdone k (by simp [hne, hk])
      · intro k hk
        rw [Snap.seen_nil]
        cases hlook : s.map.lookup k with
        | none => rfl
        | some v =>
          by_cases hunder : rowPrefix sess.ns mainBranch table <+: k
          · have hmem : (k, v) ∈ s.map.scan (underPrefix (rowPrefix sess.ns mainBranch table)) :=
              (OrdMap.mem_scan _ _ _ _).mpr ⟨hlook, underPrefix_iff.mpr hunder⟩
            rcases liveRows_entry hrows hmem with rfl | ⟨cells, rfl⟩
            · rfl
            · have hrow : (⟨k, cells.takeD sch.cols.length none⟩ : ScanRow) ∈ rows :=
                (mem_liveRows hrows).mpr ⟨cells, hmem, rfl⟩
              exact absurd (List.mem_map.mpr ⟨_, hrow, rfl⟩) hk
          · rw [map_some, narrowed_off hunder]
      · intro _ buf h
        have hdone := fun k => h.2 k (by simp)
        rw [wp_bind]
        refine loadIndexes_writes.wp_none fun defs => ?_
        rw [wp_bind]
        refine wp_mono wp_dropEntries fun _ buf₁ hwithout => ?_
        have hkept : ∀ k, (∀ t c, ¬indexColumnPrefix sess.ns mainBranch t c <+: k) →
            (s.seen buf₁).lookup k = (s.seen buf).lookup k := by
          intro k hk
          refine hwithout.2 k fun ⟨d, _, hd⟩ => ?_
          rw [hmain] at hd
          exact hk _ _ hd
        rw [wp_bind]
        unfold writeKept
        split
        · refine ⟨idx, hidx, rfl, fun k _ hk => ?_⟩
          rw [hkept k hk, hdone]
        · rw [wp_write]
          refine ⟨idx, hidx, rfl, fun k hx hk => ?_⟩
          have hlist : k ≠ indexListKey sess table := hx _
          rw [seen_assignment, if_neg hlist, hkept k hk, hdone]

theorem run_dropColumn_narrowed {i i' : Nat} {res : Result} {ms : Buffer}
    (hmain : sess.branch = mainBranch) (hsch : resolvedIn sess.ns s.map table = some sch)
    (hotel : table ≠ otelSpansTable)
    (h : (execAlterTable env sess ⟨table, .change (.dropColumn name)⟩).run underPrefix s [] i = .ok (res, ms, i')) :
    ∃ idx, sch.colIndex env name = some idx ∧ resolvedIn sess.ns (s.seen ms) table = some (sch.withoutCol idx) ∧
      (∀ b, parentIn sess.ns (s.seen ms) b = parentIn sess.ns s.map b) ∧
      ∀ b k, rowPrefix sess.ns b table <+: k → (s.seen ms).lookup k = (s.map.lookup k).map
        (narrowed (rowPrefix sess.ns mainBranch table) sch.cols.length idx k) := by
  obtain ⟨sch₀, sch', buf, i₁, hsch₀, halter, rfl⟩ := run_change_ok h
  rw [resolvedIn, if_neg hotel, hsch₀] at hsch
  obtain rfl := some.inj hsch
  have hres : resolvedIn sess.ns s.map table = some sch₀ := by rw [resolvedIn, if_neg hotel, hsch₀]
  obtain ⟨idx, hidx, rfl, hlook⟩ := wp_run (wp_dropColumn_narrowed hmain hres) halter
  have hseen : ∀ k, (∀ x, k ≠ schemaKey sess.ns x) → (∀ t c, ¬indexColumnPrefix sess.ns mainBranch t c <+: k) →
      (s.seen (buf ++ [assignment (schemaKey sess.ns table) (.schema (sch₀.withoutCol idx))])).lookup k =
        (s.map.lookup k).map (narrowed (rowPrefix sess.ns mainBranch table) sch₀.cols.length idx k) := by
    intro k hx hk
    rw [seen_assignment, if_neg (hx _)]
    exact hlook k hx hk
  refine ⟨idx, hidx, ?_, fun b => ?_, fun b k hk => ?_⟩
  · rw [resolvedIn, if_neg hotel]
    exact schemaIn_concat buf
  · have hrow : ¬rowPrefix sess.ns mainBranch table <+: branchMetaKey sess.ns b := by
      intro h
      have hsub := ((subtree_branchData _ _).trans (branchData_rowPrefix _ _ _)).trans h
      rw [branchSubtreePrefix_eq] at hsub
      exact branchMetaKey_not_under (branchSegment_path _ _) hsub
    unfold parentIn
    rw [hseen _ (fun _ => branchMeta_ne_schema) fun _ _ => branchMeta_not_entry]
    cases s.map.lookup (branchMetaKey sess.ns b) with
    | none => rfl
    | some v => rw [map_some, narrowed_off hrow]
  · refine hseen k (fun x heq => ?_) (fun t c => branchRow_not_entry hk)
    exact branchData_not_schema sess.ns b x (heq ▸ (branchData_rowPrefix _ _ _).trans hk)

end statement

theorem dropLast_eq_tail_iff (d : Datum) (cells : Data) :
    cells = (d :: cells).dropLast ↔ ∀ x ∈ cells, x = d := by
  induction cells generalizing d with
  | nil => simp
  | cons c cells ih =>
    rw [dropLast_cons_of_ne_nil (cons_ne_nil c cells), List.cons.injEq, ih c, forall_mem_cons]
    refine and_congr_right fun hc => ?_
    rw [hc]

theorem eraseIdx_eq_dropLast_iff {idx : Nat} {cells : Data} (h : idx < cells.length) :
    cells.eraseIdx idx = cells.dropLast ↔ ∀ d ∈ cells.drop idx, d = cellAt cells idx := by
  induction cells generalizing idx with
  | nil => exact absurd h (Nat.not_lt_zero _)
  | cons c cells ih =>
    cases idx with
    | zero =>
      rw [eraseIdx_cons_zero, dropLast_eq_tail_iff, drop_zero, forall_mem_cons]
      exact ⟨fun hall => ⟨rfl, hall⟩, fun hall => hall.2⟩
    | succ idx =>
      have hidx : idx < cells.length := Nat.lt_of_succ_lt_succ h
      have hne : cells ≠ [] := ne_nil_of_length_pos (Nat.zero_lt_of_lt hidx)
      rw [eraseIdx_cons_succ, dropLast_cons_of_ne_nil hne, List.cons.injEq, drop_succ_cons]
      exact ⟨fun hall => (ih hidx).mp hall.2, fun hall => ⟨rfl, (ih hidx).mpr hall⟩⟩

/-- After DROP COLUMN on main, every row that a branch shows has its other cells exactly when in the rows of
    the branch that are not main's the cells from the dropped one on are equal. -/
theorem drop_column_kept_iff (env : Env) (db db' : Db) (sess reader : Session) (table name : Bytes)
    (params : Data) (i : Nat) (sch : TableSchema) (rows : List ScanRow)
    (hmain : sess.branch = mainBranch) (hns : reader.ns = sess.ns) (hotel : table ≠ otelSpansTable)
    (hscan : scanned reader db.map table = .ok (sch, rows))
    (hstep : Db.step env db (⟨sess, .alterTable ⟨table, .change (.dropColumn name)⟩, params⟩, i) = some db') :
    ∃ idx rows', sch.colIndex env name = some idx ∧ scanned reader db'.map table = .ok (sch.withoutCol idx, rows') ∧
      (rows' = rows.map (fun r => ⟨r.key, r.cells.eraseIdx idx⟩) ↔
        ∀ r ∈ rows, rowPrefix sess.ns mainBranch table <+: r.key ∨
          ∀ d ∈ r.cells.drop idx, d = cellAt r.cells idx) := by
  obtain ⟨hres, hrows⟩ := scanned_ok hscan
  rw [hns] at hres hrows
  obtain ⟨res, ms, hexec, hmap⟩ := Db.step_eq_some hstep
  obtain ⟨i', hrun⟩ := run_of_exec hexec
  obtain ⟨idx, hidx, hres', hmeta, hlook⟩ := run_dropColumn_narrowed hmain hres hotel hrun
  rw [← hmap] at hres' hmeta hlook
  have hlt := TableSchema.colIndex_lt env hidx
  have hwidth : (sch.withoutCol idx).cols.length = sch.cols.length - 1 := by
    rw [TableSchema.withoutCol, length_eraseIdx, if_pos hlt]
  refine ⟨idx, rows.map (shownAfter (rowPrefix sess.ns mainBranch table) idx), hidx, ?_, ?_⟩
  · rw [← hns] at hres'
    rw [scanned_eq hres', hwidth, hns, scanIn_narrowed hlt reader.branch (hmeta _) hlook, hrows]
    rfl
  · rw [map_inj_left]
    refine forall₂_congr fun r hr => ?_
    have hlen : idx < r.cells.length := by
      obtain ⟨cells, -, hcells⟩ := scanIn_live hrows hr
      rw [hcells, takeD_length]
      exact hlt
    rw [← eraseIdx_eq_dropLast_iff hlen, shownAfter]
    by_cases hk : rowPrefix sess.ns mainBranch table <+: r.key
    · simp [hk]
    · simp [hk, eq_comm]

/-- A table of three columns, and a row of it. -/
def createWide : Call := createKeyed "t" "text" [.plain "v" "text", .plain "w" "text"]

def insertWide (branch id v w : String) : Call :=
  insertValues branch "t" [.string (str id), .string (str v), .string (str w)]

def dropColumnDemo (name : String) : Call :=
  ⟨demoSession "main", .alterTable ⟨str "t", .change (.dropColumn (str name))⟩, []⟩

/-- The cells that a branch shows. -/
def cellsShown (branch : String) (db : Db) : Option (List Data) :=
  (scanned (demoSession branch) db.map (str "t")).toOption.map fun sr => sr.2.map ScanRow.cells

/-- The last column: the row of the branch keeps its first cells. -/
theorem last_column_dropped : ∃ (db db' : Db) (rows : List ScanRow),
    Reach (Db.step demoEnv) (fun _ _ => True) Db.empty db ∧
    Db.step demoEnv db (dropColumnDemo "w", 0) = some db' ∧
    rows.map ScanRow.cells = [[some (str "3"), some (str "x"), some (str "y")],
      [some (str "1"), some (str "a"), some (str "b")]] ∧
    ∃ sch, scanned (demoSession "b1") db'.map (str "t") =
      .ok (sch, rows.map fun r => ⟨r.key, r.cells.eraseIdx 2⟩) := by
  obtain ⟨db, hreach, hout⟩ := exists_demo [createWide, insertWide "main" "1" "a" "b", branchDemo "b1" "main",
      insertWide "b1" "3" "x" "y"]
    (fun db : Db => (decide (cellsShown "b1" db = some [[some (str "3"), some (str "x"), some (str "y")],
        [some (str "1"), some (str "a"), some (str "b")]]) &&
      decide ((scanned (demoSession "b1") db.map (str "t")).toOption.map
        (fun sr => sr.1.colIndex demoEnv (str "w")) = some (some 2)) &&
      (Db.step demoEnv db (dropColumnDemo "w", 0)).isSome) = true)
    (by decide +kernel)
  simp only [Bool.and_eq_true, decide_eq_true_eq] at hout
  obtain ⟨⟨hcells, hcol⟩, hstep⟩ := hout
  obtain ⟨db', hstep⟩ := isSome_iff_exists.mp hstep
  obtain ⟨⟨sch, rows⟩, hsr, hcells⟩ := map_eq_some_iff.mp hcells
  rw [hsr] at hcol
  have hcol : sch.colIndex demoEnv (str "w") = some 2 := some.inj hcol
  obtain ⟨idx, rows', hidx, hscan', hiff⟩ := drop_column_kept_iff demoEnv db db' (demoSession "main")
    (demoSession "b1") (str "t") (str "w") [] 0 sch rows rfl rfl (by decide) (ok_of_toOption hsr) hstep
  cases hcol.symm.trans hidx
  refine ⟨db, db', rows, hreach, hstep, hcells, sch.withoutCol 2, ?_⟩
  rw [hscan', hiff.mpr]
  -- three cells, and the dropped one is the last
  intro r hr
  refine .inr fun d hd => ?_
  have hr : r.cells ∈ rows.map ScanRow.cells := List.mem_map_of_mem hr
  rw [show rows.map ScanRow.cells = _ from hcells] at hr
  rcases mem_cons.mp hr with heq | hr
  · rw [heq] at hd ⊢
    exact mem_singleton.mp hd
  · rw [mem_singleton.mp hr] at hd ⊢
    exact mem_singleton.mp hd

/-- The branch shows the value of the dropped column under the name of the next one. -/
theorem branch_cells_shift : ∃ db db', Reach (Db.step demoEnv) (fun _ _ => True) Db.empty db ∧
    cellsShown "b1" db = some [[some (str "3"), some (str "x"), some (str "y")]] ∧
    Db.step demoEnv db (dropColumnDemo "v", 0) = some db' ∧
    cellsShown "b1" db' = some [[some (str "3"), some (str "x")]] := by
  obtain ⟨db, hreach, hbefore, hafter⟩ := exists_demo
    [createWide, branchDemo "b1" "main", insertWide "b1" "3" "x" "y"]
    (fun db : Db => cellsShown "b1" db = some [[some (str "3"), some (str "x"), some (str "y")]] ∧
      (Db.step demoEnv db (dropColumnDemo "v", 0)).bind (cellsShown "b1") = some [[some (str "3"), some (str "x")]])
    (by decide +kernel)
  obtain ⟨db', hstep, hshown⟩ := bind_eq_some_iff.mp hafter
  exact ⟨db, db', hreach, hbefore, hstep, hshown⟩

end BasuyuDb.Branch
