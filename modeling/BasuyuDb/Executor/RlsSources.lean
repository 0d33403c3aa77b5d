import BasuyuDb.Lib.Footprint
import BasuyuDb.Executor.RlsWrite

/-
  Row security on the sources of UPDATE ... FROM and DELETE ... USING. `materialize` scans a FROM table
  without its SELECT policies, so a hidden row takes part in the search for the row a target is joined
  with. Two stores that differ only in hidden rows of one FROM table (`HiddenApart`) give the same
  statement the same outcome when the search never ends at a hidden row (`Passes`), both stores have or
  lack FROM rows alike, and the statement meets rows of that table nowhere else (`Contained`: it is not
  the target, no foreign key leads to or from it, no join or subquery of the FROM list reads it).
-/

namespace BasuyuDb.Executor
open KvLib Storage Branch List
open Prog hiding pure bind

/-! ## Lists that differ in hidden elements -/

/-- Two lists that are the same without some of their hidden elements. -/
inductive ApartIn {α : Type} (hidden : α → Prop) : List α → List α → Prop
  | nil : ApartIn hidden [] []
  | both (a : α) {l l' : List α} (h : ApartIn hidden l l') : ApartIn hidden (a :: l) (a :: l')
  | left {a : α} (ha : hidden a) {l l' : List α} (h : ApartIn hidden l l') : ApartIn hidden (a :: l) l'
  | right {a : α} (ha : hidden a) {l l' : List α} (h : ApartIn hidden l l') : ApartIn hidden l (a :: l')

section apart
variable {α β : Type} {hidden : α → Prop} {hidden' : β → Prop}

theorem ApartIn.refl (l : List α) : ApartIn hidden l l := by
  induction l with
  | nil => exact .nil
  | cons a l ih => exact .both a ih

theorem ApartIn.append {l₁ l₁' l₂ l₂' : List α} (h₁ : ApartIn hidden l₁ l₁') (h₂ : ApartIn hidden l₂ l₂') :
    ApartIn hidden (l₁ ++ l₂) (l₁' ++ l₂') := by
  induction h₁ with
  | nil => exact h₂
  | both a _ ih => exact .both a ih
  | left ha _ ih => exact .left ha ih
  | right ha _ ih => exact .right ha ih

theorem ApartIn.map {f : α → β} (hf : ∀ a, hidden a → hidden' (f a)) {l l' : List α} (h : ApartIn hidden l l') :
    ApartIn hidden' (l.map f) (l'.map f) := by
  induction h with
  | nil => exact .nil
  | both a _ ih => exact .both (f a) ih
  | left ha _ ih => exact .left (hf _ ha) ih
  | right ha _ ih => exact .right (hf _ ha) ih

end apart

/-! ## Statements with a FROM list -/

inductive JoinStmt where
  | updateFrom (s : UpdateFromStmt)
  | deleteUsing (s : DeleteUsingStmt)

/-- A statement as a session executes it. -/
structure JoinCall where
  sess : Session
  stmt : JoinStmt
  params : Data

variable (env : Env) (c : JoinCall) (source : Bytes) (sch : TableSchema)

def JoinCall.toRowCall : RowCall :=
  match c.stmt with
  | .updateFrom s => ⟨c.sess, .updateFrom s, c.params⟩
  | .deleteUsing s => ⟨c.sess, .deleteUsing s, c.params⟩

def JoinCall.table : Bytes := c.toRowCall.table

def JoinCall.sources : List FromItem :=
  match c.stmt with
  | .updateFrom s => s.fromClause
  | .deleteUsing s => s.usingClause

def JoinCall.whereClause : Option Expr :=
  match c.stmt with
  | .updateFrom s => s.whereClause
  | .deleteUsing s => s.whereClause

def JoinCall.run : Stm Result := c.toRowCall.run env

/-- The target table: its schema, rows and indexes. -/
abbrev Target := (TableSchema × List ScanRow) × List IndexDef

/-- What a statement reads before its FROM list. -/
def JoinCall.target : Stm Target := do
  let sc ← scanTable c.sess c.table
  let defs ← loadIndexes c.sess c.table
  pure (sc, defs)

/-- What a statement reads before its loop. -/
def JoinCall.opening : Stm (Target × List (List Binding)) := do
  let t ← c.target
  let rows ← materializeAll c.sess c.sources
  pure (t, rows)

/-- The loop over the target rows, and the reply. -/
def JoinCall.rest (t : Target) (sourceRows : List (List Binding)) : Stm Result :=
  match c.stmt with
  | .updateFrom s => do
    let affected ← Prog.collect t.1.2 (updateFromRow env c.sess s t.1.1 t.2 c.params sourceRows)
    result env "UPDATE" t.1.1 s.table s.returning c.params affected
  | .deleteUsing s => do
    let affected ← Prog.collect t.1.2 (deleteUsingRow env c.sess s t.1.1 t.2 c.params sourceRows)
    result env "DELETE" t.1.1 s.table s.returning c.params affected

theorem JoinCall.run_split :
    c.run env = c.target >>= fun t => materializeAll c.sess c.sources >>= fun rows => c.rest env t rows := by
  obtain ⟨sess, stmt, params⟩ := c
  cases stmt with
  | updateFrom s =>
    simp only [JoinCall.run, JoinCall.toRowCall, RowCall.run, execUpdateFrom, JoinCall.target, JoinCall.table,
      RowCall.table, JoinCall.rest, JoinCall.sources, Prog.bind_assoc, pure_bind]
  | deleteUsing s =>
    simp only [JoinCall.run, JoinCall.toRowCall, RowCall.run, execDeleteUsing, JoinCall.target, JoinCall.table,
      RowCall.table, JoinCall.rest, JoinCall.sources, Prog.bind_assoc, pure_bind]

/-! ## Stores that differ in hidden rows -/

/-- Some evaluation of the SELECT policies refuses the row. -/
def Refused (cells : Data) : Prop :=
  ∃ site, rlsRowAllowed env sch source c.sess .select c.params cells site = .ok false

/-- The keys of a table that a session on the branch reads: rows and index entries of the branch and
of its parent. -/
def tablePrefixes (ns : Bytes) (W : State) (branch table : Bytes) : List Bytes :=
  [branch, parentIn ns W branch].flatMap fun b => [rowPrefix ns b table,
    appendStr (appendStr (nsRoot ns ++ branchSegment b) (str "idx")) table ++ [slash]]

/-- The key is under none of the prefixes. -/
def clearOf (ps : List Bytes) (k : Bytes) : Prop := ∀ p ∈ ps, ¬ p <+: k

/-- Two stores that differ only in rows of the source table that its SELECT policies hide from the
session, and in their index entries. -/
structure HiddenApart (env : Env) (c : JoinCall) (source : Bytes) (sch : TableSchema) (W W' : State) : Prop where
  secured : rlsApplies sch c.sess = true
  schema : resolvedIn c.sess.ns W source = some sch
  schema' : resolvedIn c.sess.ns W' source = some sch
  rows : ∃ rows rows', scanIn c.sess.ns W c.sess.branch source sch.cols.length = .ok rows ∧
    scanIn c.sess.ns W' c.sess.branch source sch.cols.length = .ok rows' ∧
    ApartIn (fun r => Refused env c source sch r.cells) rows rows'
  elsewhere : ∀ k, clearOf (tablePrefixes c.sess.ns W c.sess.branch source) k → W.lookup k = W'.lookup k

/-- The item is a scan of the table. -/
def FromItem.scans (table : Bytes) : FromItem → Prop
  | .table relName _ => relName = table
  | .query _ _ => False

instance (table : Bytes) (f : FromItem) : Decidable (f.scans table) :=
  match f with
  | .table relName _ => inferInstanceAs (Decidable (relName = table))
  | .query _ _ => inferInstanceAs (Decidable False)

/-- The read meets no key under the prefixes. -/
def readsClear (ps : List Bytes) : Read Bytes Val Bytes → Bool
  | .get k _ => ps.all fun p => !p.isPrefixOf k
  | .scan r _ => ps.all fun p => !p.isPrefixOf r && !r.isPrefixOf p
  | .readTs => true

/-- Only its scans among the FROM items read the source table. -/
structure Contained (env : Env) (c : JoinCall) (source : Bytes) (s : Db) (i : Nat) : Prop where
  target : ∀ r ∈ c.target.reads underPrefix s [] i,
    readsClear (tablePrefixes c.sess.ns s.map c.sess.branch source) r = true
  items : ∀ f ∈ c.sources, ¬ f.scans source → ∀ j, ∀ r ∈ (materialize c.sess f).reads underPrefix s [] j,
    readsClear (tablePrefixes c.sess.ns s.map c.sess.branch source) r = true
  rest : ∀ t rows buf j, c.opening.run underPrefix s [] i = .ok ((t, rows), buf, j) →
    ∀ r ∈ (c.rest env t rows).reads underPrefix s buf j,
      readsClear (tablePrefixes c.sess.ns s.map c.sess.branch source) r = true

/-- WHERE does not depend on when it is evaluated: it calls no clock, random or sequence function. -/
def Steady : Prop :=
  ∀ row site site', joinHolds env c.whereClause c.params row site = joinHolds env c.whereClause c.params row site'

/-- The search for a FROM row ends here: WHERE is true, or an error. -/
def ends (target : Binding) (row : List Binding) : Bool :=
  match joinHolds env c.whereClause c.params (target :: row) (Site.root 0) with
  | .ok holds => holds
  | .error _ => true

/-- A FROM row that is a hidden row of the source table. -/
def HiddenSource (row : List Binding) : Prop :=
  ∃ aliasName cells, row = [⟨aliasName, sch, cells⟩] ∧ Refused env c source sch cells

/-- No target row's search ends at a hidden row. -/
def Passes (s : Db) (i : Nat) : Prop :=
  ∀ t rows buf j, c.opening.run underPrefix s [] i = .ok ((t, rows), buf, j) →
    ∀ r ∈ t.1.2, ∀ row, rows.find? (ends env c ⟨c.table, t.1.1, r.cells⟩) = some row →
      ¬ HiddenSource env c source sch row

/-- Both stores have or lack FROM rows alike. -/
def AlikeEmpty (s s' : Db) (i : Nat) : Prop :=
  ∀ t rows buf j t' rows' buf' j', c.opening.run underPrefix s [] i = .ok ((t, rows), buf, j) →
    c.opening.run underPrefix s' [] i = .ok ((t', rows'), buf', j') → rows.isEmpty = rows'.isEmpty

/-! ## The search for a FROM row -/

section search
variable {env c} {target : Binding} {hidden : List Binding → Prop} {rows rows' : List (List Binding)}
  {row : List Binding}

theorem joinHolds_of_not_ends (hsteady : Steady env c) (h : ends env c target row = false)
    (site : Site) : joinHolds env c.whereClause c.params (target :: row) site = .ok false := by
  rw [hsteady _ site (Site.root 0)]
  unfold ends at h
  split at h
  · rename_i holds heq
    rw [heq, h]
  · cases h

theorem firstMatch_skip (hsteady : Steady env c) (h : ends env c target row = false) (site : Site) :
    firstMatch env c.whereClause c.params target (row :: rows) site =
      firstMatch env c.whereClause c.params target rows site.r := by
  simp only [firstMatch, joinHolds_of_not_ends hsteady h, bind, Except.bind, Bool.false_eq_true, if_false]

theorem not_ends_of_hidden (hrow : hidden row)
    (h : ∀ found, (row :: rows).find? (ends env c target) = some found → ¬ hidden found) :
    ends env c target row = false := by
  cases hends : ends env c target row with
  | false => rfl
  | true => exact absurd hrow (h row (find?_cons_of_pos hends))

theorem find_tail (hends : ends env c target row = false)
    (h : ∀ found, (row :: rows).find? (ends env c target) = some found → ¬ hidden found) :
    ∀ found, rows.find? (ends env c target) = some found → ¬ hidden found := by
  intro found hfound
  refine h found ?_
  rw [find?_cons_of_neg (by rw [hends]; decide)]
  exact hfound

/-- The search finds the same row in lists that differ in hidden rows, if it ends at none of them. -/
theorem firstMatch_apart (hsteady : Steady env c) (hapart : ApartIn hidden rows rows')
    (h : ∀ found, rows.find? (ends env c target) = some found → ¬ hidden found)
    (h' : ∀ found, rows'.find? (ends env c target) = some found → ¬ hidden found) (site site' : Site) :
    firstMatch env c.whereClause c.params target rows site =
      firstMatch env c.whereClause c.params target rows' site' := by
  induction hapart generalizing site site' with
  | nil => rfl
  | @both row l l' _ ih =>
    cases hends : ends env c target row with
    | false =>
      rw [firstMatch_skip hsteady hends, firstMatch_skip hsteady hends]
      exact ih (find_tail hends h) (find_tail hends h') _ _
    | true =>
      simp only [firstMatch, hsteady (target :: row) site.l (Site.root 0), hsteady (target :: row) site'.l (Site.root 0)]
      unfold ends at hends
      split at hends
      · rename_i holds heq
        rw [heq, hends]
        rfl
      · rename_i e heq
        rw [heq]
        rfl
  | left hrow _ ih =>
    have hends := not_ends_of_hidden hrow h
    rw [firstMatch_skip hsteady hends]
    exact ih (find_tail hends h) h' _ _
  | right hrow _ ih =>
    have hends := not_ends_of_hidden hrow h'
    rw [firstMatch_skip hsteady hends]
    exact ih h (find_tail hends h') _ _

theorem JoinCall.rest_apart (hsteady : Steady env c) (hapart : ApartIn hidden rows rows')
    (hempty : rows.isEmpty = rows'.isEmpty) {t : Target}
    (h : ∀ r ∈ t.1.2, ∀ row, rows.find? (ends env c ⟨c.table, t.1.1, r.cells⟩) = some row → ¬ hidden row)
    (h' : ∀ r ∈ t.1.2, ∀ row, rows'.find? (ends env c ⟨c.table, t.1.1, r.cells⟩) = some row → ¬ hidden row) :
    c.rest env t rows = c.rest env t rows' := by
  have hfirst := fun r hr site => firstMatch_apart hsteady hapart (h r hr) (h' r hr) site site
  obtain ⟨sess, stmt, params⟩ := c
  cases stmt with
  | updateFrom s =>
    have hrow : ∀ r ∈ t.1.2, updateFromRow env sess s t.1.1 t.2 params rows r =
        updateFromRow env sess s t.1.1 t.2 params rows' r := by
      intro r hr
      have hmatch : ∀ site, updateMatch env sess s t.1.1 params rows r.cells site =
          updateMatch env sess s t.1.1 params rows' r.cells site := by
        intro site
        have hf : firstMatch env s.whereClause params ⟨s.table, t.1.1, r.cells⟩ rows site.l =
          firstMatch env s.whereClause params ⟨s.table, t.1.1, r.cells⟩ rows' site.l := hfirst r hr site.l
        simp only [updateMatch, hempty, hf]
      simp only [updateFromRow, hmatch]
    simp only [JoinCall.rest, collect_congr hrow]
  | deleteUsing s =>
    have hrow : ∀ r ∈ t.1.2, deleteUsingRow env sess s t.1.1 t.2 params rows r =
        deleteUsingRow env sess s t.1.1 t.2 params rows' r := by
      intro r hr
      have hmatch : ∀ site, deleteMatch env sess s t.1.1 params rows r.cells site =
          deleteMatch env sess s t.1.1 params rows' r.cells site := by
        intro site
        have hf : firstMatch env s.whereClause params ⟨s.table, t.1.1, r.cells⟩ rows site.l =
          firstMatch env s.whereClause params ⟨s.table, t.1.1, r.cells⟩ rows' site.l := hfirst r hr site.l
        simp only [deleteMatch, hempty, hf]
      simp only [deleteUsingRow, hmatch]
    simp only [JoinCall.rest, collect_congr hrow]

end search

/-! ## Two runs -/

/-- The same error, or rows that differ in hidden ones. -/
inductive RunApart (hidden : List Binding → Prop) :
    ExecM (List (List Binding) × Buffer × Nat) →
    ExecM (List (List Binding) × Buffer × Nat) → Prop
  | error (e : ExecError) : RunApart hidden (.error e) (.error e)
  | ok {rows rows' : List (List Binding)} (h : ApartIn hidden rows rows') (j : Nat) :
    RunApart hidden (.ok (rows, [], j)) (.ok (rows', [], j))

section runs
variable {env c source sch} {W W' : State} {ts i : Nat}

theorem readsClear_in {ps : List Bytes} {r : Read Bytes Val Bytes} (h : readsClear ps r = true) :
    r.In underPrefix (clearOf ps) := by
  cases r with
  | get k _ =>
    intro p hp hpre
    have := all_eq_true.mp h p hp
    rw [List.isPrefixOf_iff_prefix.mpr hpre] at this
    cases this
  | scan r _ =>
    intro k hk p hp hpre
    have hclear := all_eq_true.mp h p hp
    -- two prefixes of one key are prefixes of each other, one way or the other
    rcases prefix_or_prefix_of_prefix hpre (List.isPrefixOf_iff_prefix.mp hk) with hle | hle
    · rw [List.isPrefixOf_iff_prefix.mpr hle] at hclear
      cases hclear
    · rw [List.isPrefixOf_iff_prefix.mpr hle] at hclear
      exact absurd hclear (by simp)
  | readTs => trivial

theorem run_clear (h : HiddenApart env c source sch W W') {α : Type} {p : Stm α}
    (hp : ∀ r ∈ p.reads underPrefix ⟨W, ts⟩ [] i, readsClear (tablePrefixes c.sess.ns W c.sess.branch source) r = true) :
    p.run underPrefix ⟨W', ts⟩ [] i = p.run underPrefix ⟨W, ts⟩ [] i :=
  run_congr fun r hr => (readsClear_in (hp r hr)).same ⟨h.elsewhere, rfl⟩

theorem run_materialize_table {rows : List ScanRow} (aliasName : Bytes) (hsch : resolvedIn c.sess.ns W source = some sch)
    (hrows : scanIn c.sess.ns W c.sess.branch source sch.cols.length = .ok rows) :
    (materialize c.sess (.table source aliasName)).run underPrefix ⟨W, ts⟩ [] i =
      .ok (rows.map fun r => [⟨aliasName, sch, r.cells⟩], [], i) := by
  have hseen : resolvedIn c.sess.ns ((⟨W, ts⟩ : Db).seen []) source = some sch := hsch
  have hscan : scanIn c.sess.ns ((⟨W, ts⟩ : Db).seen []) c.sess.branch source sch.cols.length = .ok rows := hrows
  simp only [materialize, scanTable, run_bind, run_resolveSchema hseen, run_scanRows, run_pure, Except.bind,
    hscan, Except.map]

theorem run_no_writes {α : Type} {p : Stm α} (hp : p.Writes fun _ => False) {s : Db} {buf buf' : Buffer}
    {a : α} {j : Nat} (h : p.run underPrefix s buf i = .ok (a, buf', j)) : buf' = buf := by
  have hwp : p.wp underPrefix s (fun _ b => b = buf) buf := hp.wp_none fun _ => rfl
  have hbuf := wp_run hwp h
  exact hbuf

variable (ts) in
theorem materialize_apart (h : HiddenApart env c source sch W W') (f : FromItem)
    (hread : ¬ f.scans source → ∀ j, ∀ r ∈ (materialize c.sess f).reads underPrefix ⟨W, ts⟩ [] j,
      readsClear (tablePrefixes c.sess.ns W c.sess.branch source) r = true) (j : Nat) :
    RunApart (HiddenSource env c source sch) ((materialize c.sess f).run underPrefix ⟨W, ts⟩ [] j)
      ((materialize c.sess f).run underPrefix ⟨W', ts⟩ [] j) := by
  by_cases hscan : f.scans source
  · cases f with
    | query rows reads => exact absurd hscan id
    | table relName aliasName =>
      obtain rfl : relName = source := hscan
      obtain ⟨rows, rows', hrows, hrows', hapart⟩ := h.rows
      rw [run_materialize_table aliasName h.schema hrows, run_materialize_table aliasName h.schema' hrows']
      refine .ok (hapart.map ?_) j
      intro r hr
      exact ⟨aliasName, r.cells, rfl, hr⟩
  · rw [run_clear h (hread hscan j)]
    have hw : (materialize c.sess f).Writes (fun _ => False) := materialize_writes
    cases hrun : (materialize c.sess f).run underPrefix ⟨W, ts⟩ [] j with
    | error e => exact .error e
    | ok x =>
      obtain ⟨rows, buf, j'⟩ := x
      obtain rfl := run_no_writes hw hrun
      exact .ok (.refl rows) j'

variable (ts) in
theorem materializeAll_apart (h : HiddenApart env c source sch W W') (items : List FromItem)
    (hread : ∀ f ∈ items, ¬ f.scans source → ∀ j, ∀ r ∈ (materialize c.sess f).reads underPrefix ⟨W, ts⟩ [] j,
      readsClear (tablePrefixes c.sess.ns W c.sess.branch source) r = true) (j : Nat) :
    RunApart (HiddenSource env c source sch) ((materializeAll c.sess items).run underPrefix ⟨W, ts⟩ [] j)
      ((materializeAll c.sess items).run underPrefix ⟨W', ts⟩ [] j) := by
  induction items generalizing j with
  | nil => exact .ok .nil j
  | cons f fs ih =>
    simp only [materializeAll, run_bind]
    have hf := materialize_apart ts h f (hread f mem_cons_self) j
    generalize (materialize c.sess f).run underPrefix ⟨W, ts⟩ [] j = x at hf ⊢
    generalize (materialize c.sess f).run underPrefix ⟨W', ts⟩ [] j = x' at hf ⊢
    cases hf with
    | error e => exact .error e
    | ok hrows j' =>
      have hfs := ih (fun g hg => hread g (mem_cons_of_mem _ hg)) j'
      simp only [Except.bind]
      generalize (materializeAll c.sess fs).run underPrefix ⟨W, ts⟩ [] j' = y at hfs ⊢
      generalize (materializeAll c.sess fs).run underPrefix ⟨W', ts⟩ [] j' = y' at hfs ⊢
      cases hfs with
      | error e => exact .error e
      | ok hrest j'' => exact .ok (hrows.append hrest) j''

theorem target_writes : c.target.Writes (fun _ => False) :=
  Writes.bind scanTable_writes fun _ => Writes.bind loadIndexes_writes fun _ => Writes.pure _

theorem run_opening {s : Db} {t : Target} {j j' : Nat} {rows : List (List Binding)}
    (ht : c.target.run underPrefix s [] i = .ok (t, [], j))
    (hrows : (materializeAll c.sess c.sources).run underPrefix s [] j = .ok (rows, [], j')) :
    c.opening.run underPrefix s [] i = .ok ((t, rows), [], j') := by
  simp only [JoinCall.opening, run_bind, ht, hrows, run_pure, Except.bind]

/-- Hidden rows of a FROM table do not change what the statement answers and buffers, when no search
ends at one of them. -/
theorem rls_sources_unseen (hdiff : HiddenApart env c source sch W W') (hcontained : Contained env c source ⟨W, ts⟩ i)
    (hsteady : Steady env c) (hempty : AlikeEmpty c ⟨W, ts⟩ ⟨W', ts⟩ i)
    (hpasses : Passes env c source sch ⟨W, ts⟩ i) (hpasses' : Passes env c source sch ⟨W', ts⟩ i) :
    (c.run env).exec underPrefix ⟨W', ts⟩ [] i = (c.run env).exec underPrefix ⟨W, ts⟩ [] i := by
  have htarget := run_clear hdiff hcontained.target
  have hrun : (c.run env).run underPrefix ⟨W', ts⟩ [] i = (c.run env).run underPrefix ⟨W, ts⟩ [] i := by
    rw [c.run_split, run_bind, run_bind, htarget]
    cases ht : c.target.run underPrefix ⟨W, ts⟩ [] i with
    | error e => rfl
    | ok x =>
      obtain ⟨t, buf, j⟩ := x
      obtain rfl := run_no_writes target_writes ht
      simp only [Except.bind, run_bind]
      have hitems := materializeAll_apart ts hdiff c.sources hcontained.items j
      generalize hm : (materializeAll c.sess c.sources).run underPrefix ⟨W, ts⟩ [] j = y at hitems ⊢
      generalize hm' : (materializeAll c.sess c.sources).run underPrefix ⟨W', ts⟩ [] j = y' at hitems ⊢
      cases hitems with
      | error e => rfl
      | ok hrows j' =>
        have hopen := run_opening ht hm
        have hopen' := run_opening (htarget.trans ht) hm'
        have hsame := JoinCall.rest_apart hsteady hrows (hempty _ _ _ _ _ _ _ _ hopen hopen')
          (hpasses _ _ _ _ hopen) (hpasses' _ _ _ _ hopen')
        simp only [← hsame]
        exact run_clear hdiff (hcontained.rest _ _ _ _ hopen)
  rw [exec_eq_run, exec_eq_run, hrun]

end runs

/-! DELETE FROM u USING t WHERE u.id = t.id, for tables u(id PRIMARY KEY) and t(id PRIMARY KEY, owner) with the
policy `owner = current_user`. -/

def sourcesCall (user : String) : JoinCall :=
  ⟨ownerSession user, .deleteUsing ⟨⟨str "u", some (.binary (str "=") (.column [str "u", str "id"])
    (.column [str "t", str "id"])), .none⟩, [.table (str "t") (str "t")]⟩, []⟩

/-- One row of u, and rows of t. -/
def sourcesStore (id : String) (rows : List ScanRow) : State :=
  rows.foldl (fun W r => W.set r.key (some (encodeRow r.cells)))
    ((((OrdMap.empty : State).set (schemaKey (str "n") (str "t")) (some (.schema ownedSchema))).set
      (schemaKey (str "n") (str "u")) (some (.schema
        ⟨str "u", [{ ColMeta.plain "id" OIDText with notNull := true }], some 0, false, false, []⟩))).set
      (rowKey (str "n") mainBranch (str "u") (str id)) (some (encodeRow [some (str id)])))

theorem sourcesStore_apart (id : String) (hrows : scanIn (str "n") (sourcesStore id [aliceRow, demoRow "2" "bob"])
      mainBranch (str "t") 2 = .ok [aliceRow, demoRow "2" "bob"])
    (hrows' : scanIn (str "n") (sourcesStore id [demoRow "2" "bob"]) mainBranch (str "t") 2 = .ok [demoRow "2" "bob"])
    (hsch : resolvedIn (str "n") (sourcesStore id [aliceRow, demoRow "2" "bob"]) (str "t") = some ownedSchema)
    (hsch' : resolvedIn (str "n") (sourcesStore id [demoRow "2" "bob"]) (str "t") = some ownedSchema) :
    HiddenApart ownerEnv (sourcesCall "bob") (str "t") ownedSchema (sourcesStore id [aliceRow, demoRow "2" "bob"])
      (sourcesStore id [demoRow "2" "bob"]) where
  secured := rfl
  schema := hsch
  schema' := hsch'
  rows := ⟨_, _, hrows, hrows', .left ⟨Site.root 0, rfl⟩ (.refl _)⟩
  elsewhere := by
    intro k hk
    have hne : k ≠ aliceRow.key := by
      rintro rfl
      exact hk (rowPrefix (str "n") mainBranch (str "t")) mem_cons_self (by decide)
    simp only [sourcesStore, foldl_cons, foldl_nil, OrdMap.lookup_set, if_neg hne]

/-- The row of alice decides whether the row of u goes. -/
theorem hidden_row_matched : ∃ env c source sch W W', HiddenApart env c source sch W W' ∧
    ((c.run env).exec underPrefix ⟨W, 0⟩ [] 0).map (fun x => x.1.rowsAffected) = .ok 1 ∧
    ((c.run env).exec underPrefix ⟨W', 0⟩ [] 0).map (fun x => x.1.rowsAffected) = .ok 0 := by
  refine ⟨_, _, _, _, _, _, sourcesStore_apart "1" ?_ ?_ ?_ ?_, ?_, ?_⟩ <;> decide +kernel

section demo
variable {W : State}

theorem contained_of_check {source : Bytes} (htarget : (c.target.reads underPrefix ⟨W, 0⟩ [] 0).all
      (readsClear (tablePrefixes c.sess.ns W c.sess.branch source)) = true) (hitems : ∀ f ∈ c.sources, f.scans source)
    (hrest : (c.opening.run underPrefix ⟨W, 0⟩ [] 0).map (fun x => ((c.rest ownerEnv x.1.1 x.1.2).reads underPrefix
      ⟨W, 0⟩ x.2.1 x.2.2).all (readsClear (tablePrefixes c.sess.ns W c.sess.branch source))) = .ok true) :
    Contained ownerEnv c source ⟨W, 0⟩ 0 where
  target := all_eq_true.mp htarget
  items := fun f hf hns => absurd (hitems f hf) hns
  rest := by
    intro t rows buf j hopen
    rw [hopen] at hrest
    exact all_eq_true.mp (Except.ok.inj hrest)

theorem passes_of_check
    (h : ((sourcesCall "bob").opening.run underPrefix ⟨W, 0⟩ [] 0).map (fun x => x.1.1.1.2.all fun r =>
      ((x.1.2.find? (ends ownerEnv (sourcesCall "bob") ⟨str "u", x.1.1.1.1, r.cells⟩)).all
        (fun row => row.map Binding.cells == [(demoRow "2" "bob").cells]))) = .ok true) :
    Passes ownerEnv (sourcesCall "bob") (str "t") ownedSchema ⟨W, 0⟩ 0 := by
  intro t rows buf j hopen r hr row hrow
  rw [hopen] at h
  have hall := all_eq_true.mp (Except.ok.inj h) r hr
  have hfind : rows.find? (ends ownerEnv (sourcesCall "bob") ⟨str "u", t.1.1, r.cells⟩) = some row := hrow
  rw [hfind] at hall
  rintro ⟨aliasName, cells, rfl, site, hrefused⟩
  have hcells : [cells] = [(demoRow "2" "bob").cells] := by simpa using hall
  obtain rfl := singleton_inj.mp hcells
  have hallowed : rlsRowAllowed ownerEnv ownedSchema (str "t") (ownerSession "bob") .select []
      (demoRow "2" "bob").cells site = .ok true := rfl
  cases hallowed.symm.trans hrefused

theorem alikeEmpty_of_check {W' : State}
    (h : (c.opening.run underPrefix ⟨W, 0⟩ [] 0).map (fun x => x.1.2.isEmpty) = .ok false)
    (h' : (c.opening.run underPrefix ⟨W', 0⟩ [] 0).map (fun x => x.1.2.isEmpty) = .ok false) :
    AlikeEmpty c ⟨W, 0⟩ ⟨W', 0⟩ 0 := by
  intro t rows buf j t' rows' buf' j' hopen hopen'
  rw [hopen] at h
  rw [hopen'] at h'
  exact (Except.ok.inj h).trans (Except.ok.inj h').symm

end demo

/-- The search passes the row of alice. -/
theorem visible_row_matched : ∃ W W', HiddenApart ownerEnv (sourcesCall "bob") (str "t") ownedSchema W W' ∧
    (((sourcesCall "bob").run ownerEnv).exec underPrefix ⟨W, 0⟩ [] 0).map (fun x => x.1.rowsAffected) = .ok 1 ∧
    ((sourcesCall "bob").run ownerEnv).exec underPrefix ⟨W', 0⟩ [] 0 =
      ((sourcesCall "bob").run ownerEnv).exec underPrefix ⟨W, 0⟩ [] 0 := by
  have hapart := sourcesStore_apart "2" (by decide +kernel) (by decide +kernel) (by decide +kernel) (by decide +kernel)
  have hcontained : Contained ownerEnv (sourcesCall "bob") (str "t")
      ⟨sourcesStore "2" [aliceRow, demoRow "2" "bob"], 0⟩ 0 :=
    contained_of_check _ (by decide +kernel) (by decide) (by decide +kernel)
  have hsteady : Steady ownerEnv (sourcesCall "bob") := fun _ _ _ => rfl
  exact ⟨_, _, hapart, by decide +kernel, rls_sources_unseen hapart hcontained hsteady
    (alikeEmpty_of_check _ (by decide +kernel) (by decide +kernel))
    (passes_of_check (by decide +kernel)) (passes_of_check (by decide +kernel))⟩

end BasuyuDb.Executor
