import BasuyuDb.Branch.Writes

/-
  Isolation of branches under INSERT, UPDATE, DELETE, UPDATE ... FROM and DELETE ... USING. The
  scan of a branch reads the branch and its parent, so it stays the same under every write on a
  branch that is neither of them. A DELETE that meets an inherited row without a primary key puts
  its tombstone on the parent, and the parent loses the row.
-/

namespace BasuyuDb.Branch
open KvLib Storage Executor List Option
open Prog hiding pure bind

/-! ## The scans of other branches -/

section frame
variable {sess : Session} {W W' : State} {table : Bytes} {ns b b' k : Bytes}

theorem scanIn_congr {n : Nat} (hown : ∀ k, rowPrefix ns b table <+: k → W'.lookup k = W.lookup k)
    (hparent : b = mainBranch ∨ parentIn ns W' b = parentIn ns W b ∧
      ∀ k, rowPrefix ns (parentIn ns W b) table <+: k → W'.lookup k = W.lookup k) :
    scanIn ns W' b table n = scanIn ns W b table n := by
  have hscan : ∀ pre : Bytes, (∀ k, pre <+: k → W'.lookup k = W.lookup k) →
      W'.scan (underPrefix pre) = W.scan (underPrefix pre) := fun pre h =>
    OrdMap.scan_congr fun k hk => h k (List.isPrefixOf_iff_prefix.mp hk)
  unfold scanIn tailsIn
  dsimp only
  rw [hscan _ hown]
  rcases hparent with hmain | ⟨hpar, hrows⟩
  · simp only [hmain, true_or, if_true]
  · rw [hpar, hscan _ hrows]

theorem scanned_congr (hsch : W'.lookup (schemaKey sess.ns table) = W.lookup (schemaKey sess.ns table))
    (hrows : ∀ sch, resolvedIn sess.ns W table = some sch →
      scanIn sess.ns W' sess.branch table sch.cols.length = scanIn sess.ns W sess.branch table sch.cols.length) :
    scanned sess W' table = scanned sess W table := by
  have hres : resolvedIn sess.ns W' table = resolvedIn sess.ns W table := by
    unfold resolvedIn schemaIn
    rw [hsch]
  cases hcase : resolvedIn sess.ns W table with
  | some sch => rw [scanned_eq hcase, scanned_eq (hres.trans hcase), hrows sch hcase]
  | none =>
    unfold resolvedIn at hcase
    split at hcase
    · cases hcase
    · rename_i hotel
      unfold scanned scanTable resolveSchema
      rw [if_neg hotel, exec_eq_run, exec_eq_run, run_bind, run_bind]
      unfold loadSchema
      rw [run_bind, run_bind, run_read, run_read, Snap.seen_nil, Snap.seen_nil]
      dsimp only [Except.bind]
      rw [hsch]
      unfold schemaIn at hcase
      cases hlook : W.lookup (schemaKey sess.ns table) with
      | none => rfl
      | some v =>
        rw [hlook] at hcase
        cases v with
        | schema sch => cases hcase
        | row cells | tombstone | text b | indexes defs | branchMeta p => rfl

/-- A scan on `b'` reads no key of the branch `b`: it is on main, or `b'` and its parent are apart
from `b`. -/
def ReadsApart (ns : Bytes) (W : State) (b b' : Bytes) : Prop :=
  b' = mainBranch ∨ Apart b b' ∧ Apart b (parentIn ns W b')

theorem Apart.rows (h : Apart b b') (hk : rowPrefix ns b' table <+: k) : ¬branchSubtreePrefix ns b <+: k := by
  intro hsub
  have hdata : nsRoot ns ++ (branchSegment b' ++ str "/data/") <+: k := by
    rw [← branchData_eq]
    exact (branchData_rowPrefix ns b' table).trans hk
  rw [branchSubtreePrefix_eq] at hsub
  obtain ⟨h1, h2⟩ := h (str "/data/") (by simp [areas])
  rcases prefix_or_prefix_of_prefix hsub hdata with h3 | h3
  · exact h1 ((prefix_append_right_inj _).mp h3)
  · exact h2 ((prefix_append_right_inj _).mp h3)

theorem apart_main (hmain : b ≠ mainBranch) (hempty : b ≠ []) : Apart b mainBranch := by
  intro area harea
  have hb : branchSegment b = str "/br/" ++ b := branchSegment_feature hmain hempty
  have hm : branchSegment mainBranch = str "/main" := if_pos (.inl rfl)
  have hpaths : ∀ x y : Bytes, ¬[] ++ (str "/br/" ++ x) <+: [] ++ (str "/main" ++ y) :=
    not_prefix_of_paths (by decide) (by decide)
  have hpaths' : ∀ x y : Bytes, ¬[] ++ (str "/main" ++ x) <+: [] ++ (str "/br/" ++ y) :=
    not_prefix_of_paths (by decide) (by decide)
  rw [hb, hm, append_assoc]
  exact ⟨hpaths _ _, hpaths' _ _⟩

variable {s : Snap Bytes Val} {buf : Buffer}

theorem StaysOn.rows_eq (h : StaysOn sess buf) (hapart : Apart sess.branch b')
    (hk : rowPrefix sess.ns b' table <+: k) : (s.seen buf).lookup k = s.map.lookup k := by
  refine h.lookup_eq (hapart.rows hk) fun name heq => ?_
  have hdata : branchData sess.ns b' <+: k := (branchData_rowPrefix _ _ _).trans hk
  exact branchData_not_schema sess.ns b' _ (heq ▸ hdata)

theorem StaysOn.scanned_eq (h : StaysOn sess buf) (hmain : sess.branch ≠ mainBranch) (hempty : sess.branch ≠ [])
    (hb' : ReadsApart sess.ns s.map sess.branch b') (hseq : ¬str "#seq#" <+: table) :
    scanned { sess with branch := b' } (s.seen buf) table = scanned { sess with branch := b' } s.map table := by
  refine scanned_congr (h.lookup_eq ?_ fun name heq => ?_) fun sch _ => scanIn_congr (fun k hk => ?_) ?_
  · rw [branchSubtreePrefix_eq]
    exact schemaKey_not_under (branchSegment_path _ _)
  · exact hseq ⟨name, (schemaKey_inj heq).symm⟩
  · rcases hb' with rfl | ⟨hapart, -⟩
    · exact h.rows_eq (apart_main hmain hempty) hk
    · exact h.rows_eq hapart hk
  · refine hb'.imp id fun hapart => ⟨h.parentIn b', fun k hk => h.rows_eq hapart.2 hk⟩

end frame

/-! ## A DELETE without a primary key -/

section keyless
variable {env : Env} {sess : Session} {s : Snap Bytes Val} {buf : Buffer}

/-- Everything buffered is a tombstone or an index entry of the branch. -/
def Tombstones (sess : Session) (buf : Buffer) : Prop :=
  ∀ m ∈ buf, (∃ k, m = assignment k .tombstone) ∨ ∃ d pk tuple add, m = entryMutation sess d pk tuple add

theorem Tombstones.noNewSchemas (h : Tombstones sess buf) : NoNewSchemas sess s buf := by
  intro x sch hlook
  rcases s.lookup_seen_cases buf (schemaKey sess.ns x) with hsame | ⟨m, hm, -, heff⟩
  · exact hsame.symm.trans hlook
  · rw [hlook] at heff
    rcases h m hm with ⟨k, rfl⟩ | ⟨d, pk, tuple, add, rfl⟩
    · cases heff
    · rcases entryMutation_effect sess d pk tuple add with h1 | h1
      · cases heff.trans h1
      · cases heff.trans h1

variable {sch : TableSchema} {r : ScanRow} {defs : List IndexDef} {st : DeleteStmt} {params : Data}

theorem indexEntries_entries {cells : Data} {rk : Bytes}
    {add : Bool} : (indexEntries env sess sch defs cells rk add).Writes
      (fun m => ∃ d pk tuple add, m = entryMutation sess d pk tuple add) :=
  indexEntries_frame fun d _ _ _ => ⟨d, _, _, add, rfl⟩

theorem inherited_not_entry {ns b table : Bytes} {W : State} {n : Nat}
    (hapart : Apart b (parentIn ns W b)) (hr : r ∈ inheritedRows ns W b table n) :
    ¬branchSubtreePrefix ns b <+: r.key := by
  obtain ⟨-, tail, cells, -, -, rfl⟩ := mem_inheritedRows.mp hr
  exact hapart.rows (prefix_append _ _)

theorem lookup_tombstone {k : Bytes} {ms : Buffer} (hk : (s.seen buf).lookup k = some .tombstone)
    (hms : ∀ m ∈ ms, ∃ d pk tuple add, m = entryMutation sess d pk tuple add)
    (hne : ¬branchSubtreePrefix sess.ns sess.branch <+: k) : (s.seen (buf ++ ms)).lookup k = some .tombstone := by
  rw [s.lookup_seen_append, hk]
  intro m hm heq
  obtain ⟨d, pk, tuple, add, rfl⟩ := hms m hm
  rw [entryMutation_key] at heq
  exact hne (heq ▸ subtree_indexKey _ _ _ _ _ _)

/-- A step of an unconditional DELETE: the row gets its tombstone, where it was read if it has no
primary key. -/
theorem wp_deleteRow_keyless (hbranch : sess.branch ≠ mainBranch)
    (hall : st.whereClause = none) (hrls : rlsApplies sch sess = false)
    (hfree : referencing env st.table (tablesIn sess.ns s.map) = []) {x : ScanRow}
    {rest : List ScanRow} (hkey : ¬branchSubtreePrefix sess.ns sess.branch <+: r.key)
    (hkeyless : keyed sch r.cells = false) (hT : Tombstones sess buf)
    (hr : r ∈ x :: rest ∨ (s.seen buf).lookup r.key = some .tombstone) :
    (deleteRow env sess st sch defs params x).wp underPrefix s (fun _ buf' => Tombstones sess buf' ∧
      (r ∈ rest ∨ (s.seen buf').lookup r.key = some .tombstone)) buf := by
  have htargets : ∀ n, targetsRow env sess .delete sch st.table st.whereClause params x.cells (Site.root n) =
      .ok true := by
    intro n
    unfold targetsRow
    rw [hall, hrls]
    rfl
  have hnone : referencing env st.table (tablesIn sess.ns (s.seen buf)) = [] := by
    refine eq_nil_iff_forall_not_mem.mpr fun tfk hm => ?_
    have hbefore := hT.noNewSchemas.mem_referencing hm
    rw [hfree] at hbefore
    cases hbefore
  unfold deleteRow
  rw [wp_bind, wp_tick]
  intro n
  rw [htargets n]
  change (enforceFKParent env sess st.table sch x.cells >>= fun _ =>
    removeRow env sess st.table sch defs x >>= fun _ => pure (some x.cells)).wp _ _ _ _
  unfold enforceFKParent applyFKDeleteActions
  rw [wp_bind, wp_bind, wp_listTables, hnone]
  change (removeRow env sess st.table sch defs x >>= fun _ => pure (some x.cells)).wp _ _ _ _
  unfold removeRow removal
  rw [wp_bind, wp_bind, wp_write, if_neg hbranch]
  refine wp_mono (indexEntries_entries.wp _) fun _ buf' h => ?_
  obtain ⟨ms, rfl, hms⟩ := h
  refine ⟨fun m hm => ?_, ?_⟩
  · rw [append_assoc] at hm
    rcases mem_append.mp hm with hm | hm
    · exact hT m hm
    · rcases mem_cons.mp hm with rfl | hm
      · exact .inl ⟨_, rfl⟩
      · exact .inr (hms m hm)
  · refine hr.elim (fun hmem => ?_) (fun hdone => .inr (lookup_tombstone ?_ hms hkey))
    · rcases mem_cons.mp hmem with rfl | hmem
      · refine .inr (lookup_tombstone ?_ hms hkey)
        have hbk : branchRowKey sess st.table sch r.cells r.key = r.key := by
          unfold branchRowKey
          unfold keyed at hkeyless
          rw [isNone_iff_eq_none.mp (isSome_eq_false_iff.mp hkeyless)]
        rw [hbk, Snap.seen_concat]
        exact OrdMap.lookup_set_self _ _ _
      · exact .inl hmem
    · rw [Snap.seen_concat, OrdMap.lookup_set]
      split
      · rfl
      · exact hdone

theorem wp_execDelete_keyless (hbranch : sess.branch ≠ mainBranch)
    (hsch : resolvedIn sess.ns s.map st.table = some sch) (hall : st.whereClause = none)
    (hrls : rlsApplies sch sess = false) (hfree : referencing env st.table (tablesIn sess.ns s.map) = [])
    (hapart : Apart sess.branch (parentIn sess.ns s.map sess.branch))
    (hr : r ∈ inheritedRows sess.ns s.map sess.branch st.table sch.cols.length)
    (hkeyless : keyed sch r.cells = false) : (execDelete env sess st params).wp underPrefix s
      (fun _ buf => (s.seen buf).lookup r.key = some .tombstone) [] := by
  unfold execDelete
  simp only [scanTable, wp_bind, wp_resolveSchema]
  intro sch' hsch'
  obtain rfl : sch = sch' := some.inj (hsch.symm.trans hsch')
  refine wp_scanRows_branch fun rows hrows => ?_
  rw [wp_pure]
  refine loadIndexes_writes.wp_none fun defs => ?_
  refine wp_mono (wp_collect (fun rest buf => Tombstones sess buf ∧
    (r ∈ rest ∨ (s.seen buf).lookup r.key = some .tombstone)) ?_ ⟨fun m hm => absurd hm (by simp), ?_⟩) ?_
  · intro x rest buf1 hI
    exact wp_deleteRow_keyless hbranch hall hrls hfree (inherited_not_entry hapart hr) hkeyless hI.1 hI.2
  · exact .inl (inherited_mem_scanIn hbranch hrows hr)
  · intro _ buf1 hI
    exact result_writes.wp_none fun _ => hI.2.resolve_left (by simp)

/-- Without foreign keys on it, a DELETE removes rows of its table only. -/
theorem removes_only {W : State} {table p : Bytes} {targets : TableSchema → ScanRow → Prop} {psch : TableSchema}
    {pcells : Data} (hfree : referencing env table (tablesIn sess.ns W) = [])
    (h : Deletes env sess W table targets (.removes p psch pcells)) : p = table := by
  generalize he : DeleteEvent.removes p psch pcells = e at h
  induction h generalizing p psch pcells with
  | start | setNull => cases he
  | target =>
    cases he
    rfl
  | cascade _ _ hmatch _ ihp _ =>
    obtain rfl := ihp rfl
    rw [Matches, hfree] at hmatch
    cases hmatch.1

end keyless

/-! ## Isolation -/

section isolation
variable {sess : Session} {W : State} {table : Bytes}

theorem scanned_wp {Q : TableSchema × List ScanRow → Prop}
    (hwp : (scanTable sess table).wp underPrefix ⟨W, 0⟩ (fun sr _ => Q sr) []) {sr : TableSchema × List ScanRow}
    (h : scanned sess W table = .ok sr) : Q sr := by
  unfold scanned at h
  cases hexec : (scanTable sess table).exec underPrefix ⟨W, 0⟩ [] 0 with
  | error e =>
    rw [hexec] at h
    cases h
  | ok x =>
    rw [hexec] at h
    obtain ⟨sr', buf⟩ := x
    obtain rfl : sr' = sr := Except.ok.inj h
    exact wp_exec hwp hexec

variable {sch : TableSchema} {rows : List ScanRow} {b : Bytes} {r : ScanRow}

theorem scanned_ok (h : scanned sess W table = .ok (sch, rows)) :
    resolvedIn sess.ns W table = some sch ∧ scanIn sess.ns W sess.branch table sch.cols.length = .ok rows := by
  refine scanned_wp (Q := fun sr => resolvedIn sess.ns W table = some sr.1 ∧
    scanIn sess.ns W sess.branch table sr.1.cols.length = .ok sr.2) ?_ h
  simp only [scanTable, wp_bind, wp_resolveSchema]
  intro sch hsch
  exact wp_scanRows_branch fun rows hrows => ⟨hsch, hrows⟩

theorem inherited_scanned
    (h : scanned { sess with branch := parentIn sess.ns W b } W table = .ok (sch, rows))
    (hr : r ∈ inheritedRows sess.ns W b table sch.cols.length) : r ∈ rows := by
  obtain ⟨hotel, tail, cells, -, hlook, rfl⟩ := mem_inheritedRows.mp hr
  obtain ⟨own, hown, hrest⟩ := ok_of_bind (scanned_ok h).2
  have hmem : (⟨_, cells.takeD sch.cols.length none⟩ : ScanRow) ∈ own :=
    (mem_liveRows hown).mpr ⟨cells, (OrdMap.mem_scan W _ _ _).mpr
      ⟨hlook, isPrefixOf_iff_prefix.mpr (prefix_append _ _)⟩, rfl⟩
  split at hrest
  · exact Except.ok.inj hrest ▸ hmem
  · obtain ⟨parents, -, hrest⟩ := ok_of_bind hrest
    exact Except.ok.inj hrest ▸ mem_append_left _ hmem

end isolation

/-- DELETE FROM a table, without WHERE. -/
def deleteAll (branch table : String) : RowCall := ⟨demoSession branch, .dml (.delete ⟨str table, none, .none⟩), []⟩

/-- What a DELETE on the branch b1 answers, and what main shows afterwards. -/
def deletedOn (db : Db) (table : String) : Option (Nat × Option (List ScanRow)) :=
  (((deleteAll "b1" table).run demoEnv).exec underPrefix db [] 0).toOption.map fun x =>
    (x.1.rowsAffected, (scanned (demoSession "main") (db.seen x.2) (str table)).toOption.map Prod.snd)

theorem deletedOn_some {db : Db} {table : String} {n : Nat} {shown : Option (List ScanRow)}
    (h : deletedOn db table = some (n, shown)) : ∃ res ms,
      ((deleteAll "b1" table).run demoEnv).exec underPrefix db [] 0 = .ok (res, ms) ∧ res.rowsAffected = n ∧
      (scanned (demoSession "main") (db.seen ms) (str table)).toOption.map Prod.snd = shown := by
  obtain ⟨x, hx, heq⟩ := map_eq_some_iff.mp h
  obtain ⟨res, ms⟩ := x
  cases heq
  exact ⟨res, ms, ok_of_toOption hx, rfl, rfl⟩

/-! A keyless table c(a REFERENCES t ON DELETE CASCADE) with the row 1, and a DELETE of the row 2 of t. -/

def createChild : Call :=
  ⟨demoSession "main", .createTable ⟨str "c",
    [{ ColumnDef.plain "a" "text" with fkTable := str "t", fkOnDelete := .cascade }], [], false⟩, []⟩

def insertChild (a : String) : Call := insertValues "main" "c" [.string (str a)]

def childSchema : TableSchema :=
  ⟨str "c", [{ ColMeta.plain "a" OIDText with fkTable := str "t", fkOnDelete := .cascade }], none, false, false, []⟩

def childKey : FkConstraint := ⟨str "t", [⟨str "a", []⟩], .cascade, .unspecified⟩

def whereTwo : Expr := .binary (str "=") (.column [str "id"]) (.const (.string (str "2")))

def deleteTwo : RowCall := ⟨demoSession "b1", .dml (.delete ⟨str "t", some whereTwo, .none⟩), []⟩

/-- What a branch b1 of such a store inherits. -/
structure ChildStore (db : Db) : Prop where
  tables : tablesIn (str "n") db.map = [childSchema, demoSchema]
  parents : resolvedIn (str "n") db.map (str "t") = some demoSchema
  children : resolvedIn (str "n") db.map (str "c") = some childSchema
  own : ∀ name ∈ [str "t", str "c"], db.map.scan (underPrefix (rowPrefix (str "n") (str "b1") name)) = []
  rows : (inheritedRows (str "n") db.map (str "b1") (str "t") 2).map ScanRow.cells =
    [[some (str "1"), some (str "x")], [some (str "2"), some (str "y")]]
  childRows : (inheritedRows (str "n") db.map (str "b1") (str "c") 1).map ScanRow.cells = [[some (str "1")]]

section child
variable {db : Db} (h : ChildStore db)
include h

theorem ChildStore.start {name : Bytes} {n : Nat} {r : ScanRow} (hname : name ∈ [str "t", str "c"])
    (hr : StartRow (demoSession "b1") db.map name n r) : r ∈ inheritedRows (str "n") db.map (str "b1") name n := by
  refine hr.resolve_left fun ⟨hkey, cells, hlook, _⟩ => ?_
  have hmem : (r.key, Val.row cells) ∈ db.map.scan (underPrefix (rowPrefix (str "n") (str "b1") name)) :=
    (OrdMap.mem_scan db.map _ r.key _).mpr ⟨hlook, isPrefixOf_iff_prefix.mpr hkey⟩
  rw [h.own name hname] at hmem
  cases hmem

theorem ChildStore.unmatched {p : Bytes} {sch t : TableSchema} {cells : Data} {fk : FkConstraint} {r : ScanRow}
    (hp : p = str "t" ∧ sch = demoSchema ∧ cells = [some (str "2"), some (str "y")])
    (hr : t.name = str "c" → r.cells = [some (str "1")]) :
    ¬ Matches demoEnv (demoSession "b1") db.map p sch cells t fk r := by
  rintro ⟨hfk, vals, hvals, hmatches⟩
  obtain ⟨rfl, rfl, rfl⟩ := hp
  have htables : tablesIn (demoSession "b1").ns db.map = [childSchema, demoSchema] := h.tables
  have hrefs : referencing demoEnv (str "t") [childSchema, demoSchema] = [(childSchema, childKey)] := by decide +kernel
  rw [htables, hrefs, mem_singleton] at hfk
  obtain ⟨rfl, rfl⟩ := Prod.mk.inj hfk
  have hparent : refTupleFromParent demoEnv demoSchema [some (str "2"), some (str "y")] childKey = some [str "2"] := by
    decide +kernel
  obtain rfl : [str "2"] = vals := some.inj (hparent.symm.trans hvals)
  rw [childTupleMatches, hr rfl] at hmatches
  revert hmatches
  decide +kernel

/-- The row 2 is removed and the row of c does not match it. -/
theorem ChildStore.events {T : TableSchema → ScanRow → Prop}
    (htargets : ∀ r, T demoSchema r → r.cells ≠ [some (str "1"), some (str "x")]) {e : DeleteEvent}
    (he : Deletes demoEnv (demoSession "b1") db.map (str "t") T e) :
    match e with
    | .reads name r => name = str "c" → r.cells = [some (str "1")]
    | .removes p sch cells => p = str "t" ∧ sch = demoSchema ∧ cells = [some (str "2"), some (str "y")] := by
  induction he with
  | start hsch hr =>
    rintro rfl
    obtain rfl := some.inj (h.children.symm.trans hsch)
    have hmem := mem_map_of_mem (f := ScanRow.cells) (h.start (by decide) hr)
    rw [show childSchema.cols.length = 1 from rfl, h.childRows] at hmem
    exact mem_singleton.mp hmem
  | target hsch hr htarget =>
    obtain rfl := some.inj (h.parents.symm.trans hsch)
    have hmem := mem_map_of_mem (f := ScanRow.cells) (h.start (by decide) hr)
    rw [show demoSchema.cols.length = 2 from rfl, h.rows] at hmem
    refine ⟨rfl, rfl, ?_⟩
    rcases mem_cons.mp hmem with heq | hmem
    · exact absurd heq (htargets _ htarget)
    · exact mem_singleton.mp hmem
  | cascade _ _ hmatch _ ihp ihr | setNull _ _ hmatch _ _ _ ihp ihr => exact (h.unmatched ihp ihr hmatch).elim

theorem ChildStore.confined : Confined demoEnv db deleteTwo := by
  have hone : ∀ n, targetsRow demoEnv (demoSession "b1") .delete demoSchema (str "t")
      (some whereTwo) [] [some (str "1"), some (str "x")] (Site.root n) = .ok false := fun _ => rfl
  refine ⟨fun sch r hsch hr _ => ?_, fun p psch pcells t fk r hp hmatch hinh => ?_⟩
  · obtain rfl := some.inj (h.parents.symm.trans hsch)
    have hmem : r.cells ∈ (inheritedRows (str "n") db.map (str "b1") (str "t") 2).map ScanRow.cells :=
      mem_map_of_mem hr
    rw [h.rows] at hmem
    rcases mem_cons.mp hmem with heq | hmem
    · rw [heq]
      decide
    · rw [mem_singleton.mp hmem]
      decide
  · have htargets : ∀ r : ScanRow, (∃ n, targetsRow demoEnv (demoSession "b1") .delete demoSchema (str "t")
        (some whereTwo) [] r.cells (Site.root n) = .ok true) → r.cells ≠ [some (str "1"), some (str "x")] := by
      rintro r ⟨n, htarget⟩ heq
      rw [heq, hone n] at htarget
      cases htarget
    obtain ⟨sch, hsch, hr⟩ := hinh
    exact (h.unmatched (h.events htargets hp) (h.events (T := fun _ _ => False) (fun _ => False.elim)
      (.start hsch (.inr hr))) hmatch).elim

end child

end BasuyuDb.Branch
