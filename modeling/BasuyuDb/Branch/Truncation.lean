import BasuyuDb.Branch.Views
import BasuyuDb.Branch.DdlIsolation

/-
  engine/internal/executor/ddl.go (dropTableData): TRUNCATE and DROP TABLE delete the keys of the session's own
  branch. A scan on a feature branch falls through to its parent where the branch has no entry, so the rows of
  the parent show again (`truncate_empties_iff`). DELETE writes tombstones instead.
-/

namespace BasuyuDb.Branch
open KvLib Storage Executor List Option
open Prog hiding pure bind

/-! ## What is deleted -/

/-- The keys that `dropTableData` deletes: the rows and the index entries of the session's branch. -/
def Dropped (sess : Session) (table : Bytes) (defs : List IndexDef) (k : Bytes) : Prop :=
  rowPrefix sess.ns sess.branch table <+: k ∨ ∃ d ∈ defs, indexColumnPrefix sess.ns sess.branch d.table d.name <+: k

/-- Exactly the keys with a property are gone. -/
def Without (P : Bytes → Prop) (W W' : State) : Prop :=
  (∀ k, P k → W'.lookup k = none) ∧ ∀ k, ¬P k → W'.lookup k = W.lookup k

section deletions
variable {sess : Session} {table : Bytes} {s : Snap Bytes Val} {buf : Buffer}

theorem Without.trans {P Q : Bytes → Prop} {W W' W'' : State} (h : Without P W W') (h' : Without Q W' W'') :
    Without (fun k => P k ∨ Q k) W W'' := by
  refine ⟨fun k hk => ?_, fun k hk => ?_⟩
  · by_cases hq : Q k
    · exact h'.1 k hq
    · exact (h'.2 k hq).trans (h.1 k (hk.resolve_right hq))
  · obtain ⟨hp, hq⟩ := not_or.mp hk
    exact (h'.2 k hq).trans (h.2 k hp)

theorem wp_deletePrefix_without {p : Bytes} :
    (deletePrefix p).wp underPrefix s (fun _ buf' => Without (p <+: ·) (s.seen buf) (s.seen buf')) buf := by
  unfold deletePrefix
  rw [wp_bind, wp_range]
  -- the keys still to come are under the prefix, those that are not to come are gone
  refine wp_mono (wp_forEach (fun rest buf' => (∀ kv ∈ rest, p <+: kv.1) ∧
    (∀ k, p <+: k → k ∉ rest.map Prod.fst → (s.seen buf').lookup k = none) ∧
    ∀ k, ¬p <+: k → (s.seen buf').lookup k = (s.seen buf).lookup k) ?_ ⟨?_, ?_, fun _ _ => rfl⟩) ?_
  · intro kv rest buf1 h
    obtain ⟨hunder, hgone, hframe⟩ := h
    rw [wp_write]
    refine ⟨fun x hx => hunder x (mem_cons_of_mem _ hx), fun k hk hrest => ?_, fun k hk => ?_⟩
    · rw [seen_deletion]
      split
      · rfl
      · rename_i hne
        exact hgone k hk (by simp [hne, hrest])
    · have hne : k ≠ kv.1 := by
        rintro rfl
        exact hk (hunder kv mem_cons_self)
      rw [seen_deletion, if_neg hne]
      exact hframe k hk
  · intro kv hkv
    exact underPrefix_iff.mp ((OrdMap.mem_scan _ _ kv.1 kv.2).mp hkv).2
  · intro k hk hnone
    cases hlook : (s.seen buf).lookup k with
    | none => rfl
    | some v =>
      refine absurd (List.mem_map.mpr ⟨(k, v), ?_, rfl⟩) hnone
      exact (OrdMap.mem_scan _ _ _ _).mpr ⟨hlook, underPrefix_iff.mpr hk⟩
  · intro _ buf' h
    exact ⟨fun k hk => h.2.1 k hk (by simp), h.2.2⟩

variable {defs : List IndexDef}

theorem wp_dropEntries : (dropEntries sess defs).wp underPrefix s (fun _ buf' =>
      Without (fun k => ∃ d ∈ defs, indexColumnPrefix sess.ns sess.branch d.table d.name <+: k)
        (s.seen buf) (s.seen buf')) buf := by
  unfold dropEntries
  induction defs generalizing buf with
  | nil => exact ⟨fun k h => absurd h (by simp), fun _ _ => rfl⟩
  | cons d defs ih =>
    change (deletePrefix _ >>= fun _ => forEach defs _).wp underPrefix s _ buf
    rw [wp_bind]
    refine wp_mono wp_deletePrefix_without fun _ buf1 h1 => ?_
    refine wp_mono ih fun _ buf2 h2 => ?_
    have h := h1.trans h2
    simpa only [mem_cons, exists_eq_or_imp] using h

theorem Dropped.subtree {k : Bytes} (h : Dropped sess table defs k) :
    branchSubtreePrefix sess.ns sess.branch <+: k := by
  rcases h with h | ⟨d, -, h⟩
  · exact ((subtree_branchData _ _).trans (branchData_rowPrefix _ _ _)).trans h
  · exact (subtree_indexColumnPrefix _ _ _ _).trans h

theorem Dropped.not_schema (x : Bytes) : ¬Dropped sess table defs (schemaKey sess.ns x) := by
  intro h
  have hsub := h.subtree
  rw [branchSubtreePrefix_eq] at hsub
  exact schemaKey_not_under (branchSegment_path _ _) hsub

theorem Dropped.not_meta (b : Bytes) : ¬Dropped sess table defs (branchMetaKey sess.ns b) := by
  intro h
  have hsub := h.subtree
  rw [branchSubtreePrefix_eq] at hsub
  exact branchMetaKey_not_under (branchSegment_path _ _) hsub

theorem wp_dropTableData : (dropTableData sess table).wp underPrefix s (fun _ buf' =>
    ∃ defs, indexesIn sess.ns (s.seen buf) table = some defs ∧
      Without (Dropped sess table defs) (s.seen buf) (s.seen buf')) buf := by
  unfold dropTableData
  rw [wp_bind]
  refine wp_mono wp_deletePrefix_without fun _ buf1 h1 => ?_
  rw [wp_bind, wp_loadIndexes]
  intro defs hdefs
  refine wp_mono wp_dropEntries fun _ buf2 h2 => ⟨defs, ?_, h1.trans h2⟩
  have hlist := h1.2 (schemaKey sess.ns (table ++ str "#idx"))
    (fun h => Dropped.not_schema (table ++ str "#idx") (Or.inl h : Dropped sess table defs _))
  unfold indexesIn at hdefs ⊢
  rwa [hlist] at hdefs

end deletions

/-! ## What a scan shows then -/

/-- Nothing of the table is left for the branch to inherit. -/
def Spent (sess : Session) (W : State) (table : Bytes) (defs : List IndexDef) : Prop :=
  sess.branch = mainBranch ∨ table = otelSpansTable ∨
    ∀ k v, rowPrefix sess.ns (parentIn sess.ns W sess.branch) table <+: k → W.lookup k = some v →
      v = .tombstone ∨ Dropped sess table defs k

/-- The scan on the session's branch shows no rows. -/
def ShowsNothing (sess : Session) (W : State) (table : Bytes) : Prop := ∃ sch, scanned sess W table = .ok (sch, [])

section scans
variable {sess : Session} {table : Bytes} {W W' : State} {defs : List IndexDef} {n : Nat}

theorem liveRows_nil_iff {kvs : List (Bytes × Val)} : liveRows n kvs = .ok [] ↔ ∀ kv ∈ kvs, kv.2 = .tombstone := by
  rw [liveRows_eq_ok, filterMap_eq_nil_iff]
  constructor
  · rintro ⟨hall, hnone⟩ kv hkv
    rcases isEntry_iff.mp (hall kv hkv) with hv | ⟨cells, hv⟩
    · exact hv
    · have hrow := hnone kv hkv
      rw [rowOf, hv] at hrow
      cases hrow
  · exact fun h => ⟨fun kv hkv => by rw [h kv hkv]; rfl, fun kv hkv => by rw [rowOf, h kv hkv]⟩

theorem scan_eq_nil {pre : Bytes} (h : ∀ k, pre <+: k → W.lookup k = none) : W.scan (underPrefix pre) = [] := by
  refine eq_nil_iff_forall_not_mem.mpr fun kv hkv => ?_
  obtain ⟨hlook, hunder⟩ := (OrdMap.mem_scan W _ kv.1 kv.2).mp hkv
  rw [h _ (underPrefix_iff.mp hunder)] at hlook
  cases hlook

/-- The data of the table on the branch are gone; the catalog may have changed, and nothing else has. -/
structure Emptied (sess : Session) (table : Bytes) (defs : List IndexDef) (W W' : State) : Prop where
  gone : ∀ k, Dropped sess table defs k → W'.lookup k = none
  kept : ∀ k, ¬Dropped sess table defs k → (∀ x, k ≠ schemaKey sess.ns x) → W'.lookup k = W.lookup k

variable (h : Emptied sess table defs W W')
include h

theorem Emptied.parentIn (b : Bytes) :
    parentIn sess.ns W' b = parentIn sess.ns W b := by
  unfold Branch.parentIn
  rw [h.kept _ (Dropped.not_meta b) fun x heq => branchMeta_ne_schema heq]

theorem Emptied.row {b k : Bytes} (hk : rowPrefix sess.ns b table <+: k)
    (hdrop : ¬Dropped sess table defs k) : W'.lookup k = W.lookup k := by
  refine h.kept k hdrop fun x heq => ?_
  exact branchData_not_schema sess.ns b x (heq ▸ (branchData_rowPrefix _ _ _).trans hk)

theorem Emptied.scanIn_nil_iff :
    scanIn sess.ns W' sess.branch table n = .ok [] ↔ Spent sess W table defs := by
  have hown : W'.scan (underPrefix (rowPrefix sess.ns sess.branch table)) = [] := scan_eq_nil fun k hk => h.gone k (.inl hk)
  unfold scanIn tailsIn Spent
  dsimp only
  rw [hown]
  change (if _ then Except.ok [] else (liveRows n _ >>= fun parents => .ok ([] ++ parents))) = .ok [] ↔ _
  by_cases hlocal : sess.branch = mainBranch ∨ table = otelSpansTable
  · rw [if_pos hlocal]
    exact iff_of_true rfl (hlocal.elim .inl fun ht => .inr (.inl ht))
  · obtain ⟨hmain, hotel⟩ := not_or.mp hlocal
    rw [if_neg hlocal, or_iff_right hmain, or_iff_right hotel, h.parentIn]
    have hparents : ∀ x : ExecM (List ScanRow), (x >>= fun parents => Except.ok ([] ++ parents)) = .ok [] ↔
        x = .ok [] := by
      intro x
      cases x with
      | error e | ok rows => simp [bind, Except.bind]
    rw [hparents, liveRows_nil_iff]
    constructor
    · intro hall k v hk hlook
      by_cases hdrop : Dropped sess table defs k
      · exact .inr hdrop
      · have hmem : (k, v) ∈ W'.scan (underPrefix (rowPrefix sess.ns (Branch.parentIn sess.ns W sess.branch) table)) :=
          (OrdMap.mem_scan W' _ _ _).mpr ⟨(h.row hk hdrop).trans hlook, underPrefix_iff.mpr hk⟩
        exact .inl (hall (k, v) (mem_filter.mpr ⟨hmem, rfl⟩))
    · intro hall kv hkv
      obtain ⟨hlook, hunder⟩ := (OrdMap.mem_scan W' _ kv.1 kv.2).mp (mem_of_mem_filter hkv)
      by_cases hdrop : Dropped sess table defs kv.1
      · rw [h.gone _ hdrop] at hlook
        cases hlook
      · have hold := (h.row (underPrefix_iff.mp hunder) hdrop).symm.trans hlook
        exact (hall _ _ (underPrefix_iff.mp hunder) hold).resolve_right hdrop

theorem Emptied.showsNothing_iff {sch : TableSchema}
    (hsch : resolvedIn sess.ns W' table = some sch) : ShowsNothing sess W' table ↔ Spent sess W table defs := by
  rw [← h.scanIn_nil_iff (n := sch.cols.length)]
  unfold ShowsNothing
  rw [scanned_eq hsch]
  cases scanIn sess.ns W' sess.branch table sch.cols.length with
  | error e | ok rows => simp [Except.map]

end scans

/-! ## The statements -/

section statements
variable {env : Env} {sess : Session} {table : Bytes} {s : Snap Bytes Val}

theorem wp_execTruncate_emptied : (execTruncate sess table).wp underPrefix s (fun _ buf =>
    ∃ sch defs, schemaIn sess.ns s.map table = some sch ∧ schemaIn sess.ns (s.seen buf) table = some sch ∧
      indexesIn sess.ns s.map table = some defs ∧ Emptied sess table defs s.map (s.seen buf)) [] := by
  unfold execTruncate
  rw [wp_bind, wp_loadSchema]
  intro sch hsch
  rw [wp_bind]
  refine wp_mono wp_dropTableData fun _ buf h => ?_
  obtain ⟨defs, hdefs, hwithout⟩ := h
  rw [Snap.seen_nil] at hsch hdefs hwithout
  refine ⟨sch, defs, hsch, ?_, hdefs, hwithout.1, fun k hk _ => hwithout.2 k hk⟩
  unfold schemaIn
  rw [hwithout.2 _ (Dropped.not_schema table)]
  exact hsch

theorem wp_execDropTable_emptied {ifExists : Bool} {sch : TableSchema} (hsch : schemaIn sess.ns s.map table = some sch) :
    (execDropTable sess table ifExists).wp underPrefix s (fun _ buf =>
      ∃ defs, schemaIn sess.ns (s.seen buf) table = none ∧ indexesIn sess.ns s.map table = some defs ∧
        Emptied sess table defs s.map (s.seen buf)) [] := by
  unfold execDropTable
  rw [wp_bind, wp_read, Snap.seen_nil, schemaIn_eq_some.mp hsch]
  simp only [wp_bind, wp_write, wp_pure]
  refine wp_mono wp_dropTableData fun _ buf h => ?_
  obtain ⟨defs, hdefs, hwithout⟩ := h
  rw [Snap.seen_nil] at hdefs hwithout
  have hlookup : ∀ k, (∀ x, k ≠ schemaKey sess.ns x) →
      (s.seen (buf ++ [deletion (indexListKey sess table)] ++ [deletion (schemaKey sess.ns table)])).lookup k =
        (s.seen buf).lookup k := by
    intro k hk
    have hlist : k ≠ indexListKey sess table := hk _
    rw [seen_deletion, if_neg (hk _), seen_deletion, if_neg hlist]
  refine ⟨defs, schemaIn_deleted, hdefs, fun k hk => ?_, fun k hk hx => ?_⟩
  · rw [hlookup k fun x heq => Dropped.not_schema x (heq ▸ hk)]
    exact hwithout.1 k hk
  · rw [hlookup k hx]
    exact hwithout.2 k hk

theorem wp_execCreateTable_new {st : CreateStmt} (hsch : schemaIn sess.ns s.map st.table = none) :
    (execCreateTable env sess st).wp underPrefix s (fun _ buf =>
      (∃ sch, schemaIn sess.ns (s.seen buf) st.table = some sch) ∧
        ∀ k, (∀ x, k ≠ schemaKey sess.ns x) → (s.seen buf).lookup k = s.map.lookup k) [] := by
  unfold execCreateTable
  rw [wp_bind, wp_read, Snap.seen_nil]
  split
  · rename_i sch hlook
    rw [schemaIn_eq_some.mpr hlook] at hsch
    exact absurd hsch (some_ne_none sch)
  · rw [wp_bind, wp_ofExcept]
    intro acc _
    simp only [wp_bind, wp_write, wp_pure]
    unfold writeIndexList
    split
    · refine ⟨⟨acc.1, schemaIn_concat []⟩, fun k hk => ?_⟩
      rw [seen_assignment, if_neg (hk _), Snap.seen_nil]
    · have hkey : schemaKey sess.ns st.table ≠ indexListKey sess st.table := fun h =>
        absurd (schemaKey_inj h) (by simp [str])
      refine ⟨⟨acc.1, ?_⟩, fun k hk => ?_⟩
      · rw [schemaIn_eq_some, seen_assignment, if_neg hkey]
        exact schemaIn_eq_some.mp (schemaIn_concat [])
      · have hlist : k ≠ indexListKey sess st.table := hk _
        rw [seen_assignment, if_neg hlist, seen_assignment, if_neg (hk _), Snap.seen_nil]

end statements

theorem resolvedIn_some {ns table : Bytes} {W : State} {sch : TableSchema} (h : schemaIn ns W table = some sch) :
    ∃ sch', resolvedIn ns W table = some sch' := by
  unfold resolvedIn
  split
  · exact ⟨_, rfl⟩
  · exact ⟨sch, h⟩

/-- After TRUNCATE, and after DROP TABLE and CREATE TABLE, the table is empty on the branch exactly when its
    parent has no row of it. -/
theorem truncate_empties_iff (env : Env) (db : Db) (sess : Session) (table : Bytes) (defs : List IndexDef)
    (hdefs : indexesIn sess.ns db.map table = some defs) (hsch : (schemaIn sess.ns db.map table).isSome) :
    (∀ params i db', Db.step env db (⟨sess, .truncate table, params⟩, i) = some db' →
      ((ShowsNothing sess db'.map table ∧ ∀ d ∈ defs, ∀ k,
        indexColumnPrefix sess.ns sess.branch d.table d.name <+: k → db'.map.lookup k = none) ↔
          Spent sess db.map table defs)) ∧ ∀ ifExists st params params' i j db₁ db₂, st.table = table →
      Db.step env db (⟨sess, .dropTable table ifExists, params⟩, i) = some db₁ →
      Db.step env db₁ (⟨sess, .createTable st, params'⟩, j) = some db₂ →
      (ShowsNothing sess db₂.map table ↔ Spent sess db.map table defs) := by
  obtain ⟨sch₀, hsch₀⟩ := isSome_iff_exists.mp hsch
  constructor
  · intro params i db' hstep
    obtain ⟨res, ms, hexec, hmap⟩ := Db.step_eq_some hstep
    obtain ⟨sch, defs', -, hsch', hdefs', hemptied⟩ := wp_exec wp_execTruncate_emptied hexec
    cases hdefs.symm.trans hdefs'
    rw [hmap]
    obtain ⟨sch', hres⟩ := resolvedIn_some hsch'
    rw [← hemptied.showsNothing_iff hres]
    refine ⟨fun h => h.1, fun h => ⟨h, fun d hd k hk => ?_⟩⟩
    exact hemptied.gone k (.inr ⟨d, hd, hk⟩)
  · rintro ifExists st params params' i j db₁ db₂ rfl hdrop hcreate
    obtain ⟨res, ms, hexec, hmap⟩ := Db.step_eq_some hdrop
    obtain ⟨defs', hnone, hdefs', hemptied⟩ := wp_exec (wp_execDropTable_emptied hsch₀) hexec
    cases hdefs.symm.trans hdefs'
    rw [← hmap] at hnone hemptied
    obtain ⟨res', ms', hexec', hmap'⟩ := Db.step_eq_some hcreate
    obtain ⟨⟨sch', hsch'⟩, hframe⟩ := wp_exec (wp_execCreateTable_new hnone) hexec'
    rw [← hmap'] at hsch' hframe
    have hafter : Emptied sess st.table defs db.map db₂.map := by
      refine ⟨fun k hk => ?_, fun k hk hx => (hframe k hx).trans (hemptied.kept k hk hx)⟩
      rw [hframe k fun x heq => Dropped.not_schema x (heq ▸ hk)]
      exact hemptied.gone k hk
    obtain ⟨sch'', hres⟩ := resolvedIn_some hsch'
    exact hafter.showsNothing_iff hres

def truncateDemo (branch : String) : Call := ⟨demoSession branch, .truncate (str "t"), []⟩

def dropDemo (branch : String) : Call := ⟨demoSession branch, .dropTable (str "t") false, []⟩

/-- The number of rows that a scan shows. -/
def rowsShown (branch : String) (db : Db) : Option Nat :=
  (scanned (demoSession branch) db.map (str "t")).toOption.map fun sr => sr.2.length

/-- A branch with a row of its own, of a parent without rows. -/
theorem truncate_own_rows : ∃ db db', Reach (Db.step demoEnv) (fun _ _ => True) Db.empty db ∧
    rowsShown "b1" db = some 1 ∧ Db.step demoEnv db (truncateDemo "b1", 0) = some db' ∧
    ShowsNothing (demoSession "b1") db'.map (str "t") := by
  obtain ⟨db, hreach, hout⟩ := exists_demo [createDemo, branchDemo "b1" "main", insertDemo "b1" "3" "z"]
    (fun db : Db => (decide (rowsShown "b1" db = some 1) &&
      decide (parentIn (str "n") db.map (str "b1") = mainBranch) &&
      decide (db.map.scan (underPrefix (rowPrefix (str "n") mainBranch (str "t"))) = []) &&
      decide (indexesIn (str "n") db.map (str "t") = some []) && (schemaIn (str "n") db.map (str "t")).isSome &&
      (Db.step demoEnv db (truncateDemo "b1", 0)).isSome) = true)
    (by decide +kernel)
  simp only [Bool.and_eq_true, decide_eq_true_eq] at hout
  obtain ⟨⟨⟨⟨⟨hshown, hparent⟩, hmain⟩, hdefs⟩, hsch⟩, hstep⟩ := hout
  obtain ⟨db', hstep⟩ := isSome_iff_exists.mp hstep
  have hspent : Spent (demoSession "b1") db.map (str "t") [] := by
    refine .inr (.inr fun k v hk hv => ?_)
    rw [show parentIn (demoSession "b1").ns db.map (demoSession "b1").branch = mainBranch from hparent] at hk
    have hmem : (k, v) ∈ db.map.scan (underPrefix (rowPrefix (str "n") mainBranch (str "t"))) :=
      (OrdMap.mem_scan _ _ _ _).mpr ⟨hv, underPrefix_iff.mpr hk⟩
    rw [hmain] at hmem
    cases hmem
  refine ⟨db, db', hreach, hshown, hstep, ?_⟩
  exact (((truncate_empties_iff demoEnv db (demoSession "b1") (str "t") [] hdefs hsch).1 [] 0 db' hstep).mpr hspent).1

/-- The row of main shows on the branch after TRUNCATE there, and after DROP TABLE and CREATE TABLE. -/
theorem truncated_rows_return : ∃ db db' db₁ db₂, Reach (Db.step demoEnv) (fun _ _ => True) Db.empty db ∧
    Db.step demoEnv db (truncateDemo "b1", 0) = some db' ∧ rowsShown "b1" db' = some 1 ∧
    Db.step demoEnv db (dropDemo "b1", 0) = some db₁ ∧
    Db.step demoEnv db₁ ({ createDemo with sess := demoSession "b1" }, 0) = some db₂ ∧
    rowsShown "b1" db₂ = some 1 := by
  obtain ⟨db, hreach, htrunc, hdrop⟩ := exists_demo
    [createDemo, insertDemo "main" "1" "x", branchDemo "b1" "main"]
    (fun db : Db => (Db.step demoEnv db (truncateDemo "b1", 0)).bind (rowsShown "b1") = some 1 ∧
      ((Db.step demoEnv db (dropDemo "b1", 0)).bind fun db₁ =>
        Db.step demoEnv db₁ ({ createDemo with sess := demoSession "b1" }, 0)).bind (rowsShown "b1") = some 1)
    (by decide +kernel)
  obtain ⟨db', hstep, hshown⟩ := bind_eq_some_iff.mp htrunc
  obtain ⟨db₂, hsteps, hshown'⟩ := bind_eq_some_iff.mp hdrop
  obtain ⟨db₁, hstep₁, hstep₂⟩ := bind_eq_some_iff.mp hsteps
  exact ⟨db, db', db₁, db₂, hreach, hstep, hshown, hstep₁, hstep₂, hshown'⟩

end BasuyuDb.Branch
