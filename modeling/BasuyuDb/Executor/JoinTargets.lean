import BasuyuDb.Executor.RlsSources
import BasuyuDb.Executor.Relations

/-
  engine/internal/executor/advanced_dml.go: which rows UPDATE ... FROM and DELETE ... USING change. The
  rows of all source items are put into one list and each of them is tried alone with the target row,
  so WHERE never sees a combination of two items; and when the list is empty, WHERE is decided on the
  target row alone. `join_targets_iff`: the statements change the rows of the cross product exactly when
  neither makes a difference.
-/

namespace BasuyuDb.Executor
open KvLib Storage List Option
open Prog hiding pure bind

variable (env : Env)

/-! ## The cross product -/

def materializeEach (sess : Session) : List FromItem → Stm (List (List (List Binding)))
  | [] => pure []
  | f :: fs => do
    let rows ← materialize sess f
    let rest ← materializeEach sess fs
    pure (rows :: rest)

/-- WHERE is true in a scope; a missing WHERE is true. -/
def WhereTrue (w : Option Expr) (sc : Scope) : Prop :=
  match w with
  | none => True
  | some w => (w.eval env sc (Site.root 0)).map asBool = .ok true

/-- WHERE has the same value whenever it is evaluated: it calls no clock, random or sequence function. -/
def SteadyWhere (w : Option Expr) : Prop := ∀ e ∈ w, ∀ sc site site', e.eval env sc site = e.eval env sc site'

section targets
variable (c : JoinCall) (sch : TableSchema)

variable (per : List (List (List Binding))) (cells : Data)

/-- WHERE is true of a target row together with source rows. -/
def JoinCall.joins (row : List Binding) : Prop :=
  WhereTrue env c.whereClause ⟨c.params, combinedResolver env (⟨c.table, sch, cells⟩ :: row), none⟩

/-- WHERE is true of a target row together with one row from each source item. -/
def JoinCall.inProduct : Prop := ∃ combo, List.Forall₂ (· ∈ ·) combo per ∧ c.joins env sch cells combo.flatten

/-- WHERE is true of a target row together with one row of one source item. -/
def JoinCall.inUnion : Prop := ∃ row ∈ per.flatten, c.joins env sch cells row

/-- WHERE is true of a target row alone; UPDATE and DELETE evaluate it in scopes of their own. -/
def JoinCall.alone : Prop :=
  match c.stmt with
  | .updateFrom s => WhereTrue env s.whereClause (rowsScope env c.sess c.params [⟨s.table, sch, cells⟩])
  | .deleteUsing s => WhereTrue env s.whereClause (checkScope env sch s.table c.params cells)

/-- Row security shows the row to the statement. -/
def JoinCall.shows : Prop :=
  match c.stmt with
  | .updateFrom s => ∀ site, rlsTargets env c.sess .update sch s.table c.params cells site = .ok true
  | .deleteUsing s => ∀ site, rlsTargets env c.sess .delete sch s.table c.params cells site = .ok true

/-- What the search finds: a source row, or the target row alone when there are no source rows. -/
def JoinCall.found : Prop := if per.flatten = [] then c.alone env sch cells else c.inUnion env sch per cells

/-- The two ways of joining come to the same for a target row: when no item has rows, WHERE is not true
of the target row alone; when some have none, it is not true with a row of the others; when all have rows
and there are several, it is true with a row of one item exactly when it is true with a combination. -/
def JoinCall.productLike : Prop :=
  if per.flatten = [] then ¬ c.alone env sch cells
  else if per.any List.isEmpty then ¬ c.inUnion env sch per cells
  else per.length = 1 ∨ (c.inUnion env sch per cells ↔ c.inProduct env sch per cells)

end targets

/-! ## What the search finds -/

section search
variable {env} {c : JoinCall} {sch : TableSchema} {per : List (List (List Binding))} {cells : Data}

theorem not_forall₂_mem {α : Type} {combo : List α} {per : List (List α)} (h : [] ∈ per) : ¬ List.Forall₂ (· ∈ ·) combo per := by
  intro hall
  induction hall with
  | nil => cases h
  | cons hmem _ ih =>
    rcases mem_cons.mp h with rfl | htail
    · cases hmem
    · exact ih htail

theorem not_inProduct (h : [] ∈ per) : ¬ c.inProduct env sch per cells := fun ⟨_, hall, _⟩ => not_forall₂_mem h hall

variable {rows : List (List Binding)} {site : Site}

theorem inUnion_one : c.inUnion env sch [rows] cells ↔ c.inProduct env sch [rows] cells := by
  constructor
  · rintro ⟨row, hrow, hjoins⟩
    refine ⟨[row], .cons (by simpa using hrow) .nil, ?_⟩
    rwa [flatten_singleton]
  · rintro ⟨combo, hall, hjoins⟩
    obtain ⟨row, rest, hrow, hrest, rfl⟩ := forall₂_cons_right_iff.mp hall
    obtain rfl := forall₂_nil_right_iff.mp hrest
    rw [flatten_singleton] at hjoins
    exact ⟨row, by simpa using hrow, hjoins⟩

/-- The search agrees with the cross product exactly on the rows for which they come to the same. -/
theorem found_iff_inProduct (hper : per ≠ []) :
    (c.found env sch per cells ↔ c.inProduct env sch per cells) ↔ c.productLike env sch per cells := by
  unfold JoinCall.found JoinCall.productLike
  by_cases hnone : per.flatten = []
  · rw [if_pos hnone, if_pos hnone]
    obtain ⟨rows, rest, rfl⟩ := exists_cons_of_ne_nil hper
    have hrows : rows = [] := (append_eq_nil_iff.mp hnone).1
    have hnot : ¬ c.inProduct env sch (rows :: rest) cells := not_inProduct (hrows ▸ mem_cons_self)
    exact iff_false_right hnot
  · rw [if_neg hnone, if_neg hnone]
    by_cases hempty : per.any List.isEmpty = true
    · rw [if_pos hempty]
      obtain ⟨rows, hrows, hnil⟩ := List.any_eq_true.mp hempty
      exact iff_false_right (not_inProduct (List.isEmpty_iff.mp hnil ▸ hrows))
    · rw [if_neg hempty]
      refine ⟨.inr, ?_⟩
      rintro (hone | hiff)
      · obtain ⟨rows, rfl⟩ := length_eq_one_iff.mp hone
        exact inUnion_one
      · exact hiff

theorem whereTrue_iff {w : Option Expr} {sc : Scope} {holds : Bool} (site : Site) (hsteady : SteadyWhere env w) (hnone : w = none → holds = true)
    (hsome : ∀ e, w = some e → ∃ v, e.eval env sc site = .ok v ∧ asBool v = holds) : holds = true ↔ WhereTrue env w sc := by
  cases w with
  | none => exact iff_of_true (hnone rfl) trivial
  | some e =>
    obtain ⟨v, hv, rfl⟩ := hsome e rfl
    unfold WhereTrue
    dsimp only
    rw [hsteady e rfl sc (Site.root 0) site, hv]
    exact ⟨congrArg Except.ok, Except.ok.inj⟩

theorem joinHolds_iff (hsteady : SteadyWhere env c.whereClause) {row : List Binding} {holds : Bool}
    (h : joinHolds env c.whereClause c.params (⟨c.table, sch, cells⟩ :: row) site = .ok holds) :
    holds = true ↔ c.joins env sch cells row := by
  unfold joinHolds at h
  refine whereTrue_iff site hsteady (fun he => ?_) fun e he => ?_
  · rw [he] at h
    exact (Except.ok.inj h).symm
  · rw [he] at h
    obtain ⟨v, hv, hholds⟩ := ok_of_bind h
    exact ⟨v, hv, Except.ok.inj hholds⟩

theorem firstMatch_iff (hsteady : SteadyWhere env c.whereClause)
    {found : Option (List Binding)} (h : firstMatch env c.whereClause c.params ⟨c.table, sch, cells⟩ rows site = .ok found) :
    found.isSome = true ↔ ∃ row ∈ rows, c.joins env sch cells row := by
  induction rows generalizing site with
  | nil =>
    cases h
    exact ⟨by simp, fun ⟨_, hrow, _⟩ => absurd hrow not_mem_nil⟩
  | cons row rows ih =>
    unfold firstMatch at h
    obtain ⟨holds, hjoin, h⟩ := ok_of_bind h
    have hiff := joinHolds_iff hsteady hjoin
    simp only [mem_cons, exists_eq_or_imp]
    cases holds with
    | true =>
      cases h
      exact ⟨fun _ => .inl (hiff.mp rfl), fun _ => rfl⟩
    | false =>
      rw [ih h, or_iff_right fun hj => Bool.false_ne_true (hiff.mpr hj)]

end search

/-! ## One target row -/

section rows
variable {env} {sess : Session} {params : Data} {sch : TableSchema} {per : List (List (List Binding))}
  {s : UpdateFromStmt} {cells : Data} {site : Site} {r : ScanRow} {snap : Db}

theorem deleteMatch_iff {s : DeleteUsingStmt} (hsteady : SteadyWhere env s.whereClause)
    (hshows : JoinCall.shows env ⟨sess, .deleteUsing s, params⟩ sch cells) {found : Bool}
    (h : deleteMatch env sess s sch params per.flatten cells site = .ok found) :
    found = true ↔ JoinCall.found env ⟨sess, .deleteUsing s, params⟩ sch per cells := by
  have hrls : ∀ site, rlsTargets env sess .delete sch s.table params cells site = .ok true := hshows
  have hfound : ∀ {b : Bool}, (if b then rlsTargets env sess .delete sch s.table params cells site.r else .ok false) = .ok found →
      b = found := by
    intro b hb
    cases b with
    | true => exact Except.ok.inj ((hrls site.r).symm.trans hb)
    | false => exact Except.ok.inj hb
  unfold deleteMatch at h
  unfold JoinCall.found
  by_cases hnone : per.flatten = []
  · rw [if_pos hnone]
    simp only [hnone, isEmpty_nil, if_true] at h
    refine whereTrue_iff site.l hsteady (fun hw => ?_) fun w hw => ?_
    · rw [hw] at h
      exact (hfound (b := true) h).symm
    · rw [hw] at h
      obtain ⟨v, hv, hrest⟩ := ok_of_bind h
      exact ⟨v, hv, hfound hrest⟩
  · rw [if_neg hnone]
    simp only [isEmpty_eq_false_iff.mpr hnone, Bool.false_eq_true, if_false] at h
    obtain ⟨row, hrow, hrest⟩ := ok_of_bind h
    rw [← hfound hrest]
    exact firstMatch_iff (c := ⟨sess, .deleteUsing s, params⟩) hsteady hrow

theorem deleteUsingRow_found {s : DeleteUsingStmt} (hsteady : SteadyWhere env s.whereClause)
    (hshows : JoinCall.shows env ⟨sess, .deleteUsing s, params⟩ sch r.cells) (defs : List IndexDef)
    (buf : Buffer) : (deleteUsingRow env sess s sch defs params per.flatten r).wp underPrefix snap
      (fun o _ => o.isSome = true ↔ JoinCall.found env ⟨sess, .deleteUsing s, params⟩ sch per r.cells) buf := by
  refine wp_guarded (fun n hmatch => ?_) fun n hmatch => ?_
  · exact deleteMatch_iff hsteady hshows hmatch
  · simp only [deleteTargeted, wp_bind]
    exact wp_any fun _ _ => wp_any fun _ _ => deleteMatch_iff hsteady hshows hmatch

variable (hsteady : SteadyWhere env s.whereClause)
include hsteady

theorem updateMatch_iff
    (hshows : JoinCall.shows env ⟨sess, .updateFrom s, params⟩ sch cells) {found : Option (List Binding)}
    (h : updateMatch env sess s sch params per.flatten cells site = .ok found) :
    found.isSome = true ↔ JoinCall.found env ⟨sess, .updateFrom s, params⟩ sch per cells := by
  have hrls : ∀ site, rlsTargets env sess .update sch s.table params cells site = .ok true := hshows
  unfold updateMatch at h
  unfold JoinCall.found
  by_cases hnone : per.flatten = []
  · rw [if_pos hnone]
    simp only [hnone, isEmpty_nil, if_true, bind, Except.bind, hrls] at h
    refine whereTrue_iff site.r.r hsteady (fun hw => ?_) fun w hw => ?_
    · rw [hw] at h
      cases h
      rfl
    · rw [hw] at h
      obtain ⟨v, hv, hfound⟩ := ok_of_bind h
      cases hfound
      exact ⟨v, hv, by cases asBool v <;> rfl⟩
  · rw [if_neg hnone]
    simp only [isEmpty_eq_false_iff.mpr hnone, Bool.false_eq_true, if_false] at h
    obtain ⟨first, hfirst, h⟩ := ok_of_bind h
    refine Iff.trans ?_ (firstMatch_iff (c := ⟨sess, .updateFrom s, params⟩) hsteady hfirst)
    cases first with
    | none =>
      cases h
      exact Iff.rfl
    | some row =>
      simp only [hrls, bind, Except.bind, if_true] at h
      cases h
      exact Iff.rfl

theorem updateFromRow_found
    (hshows : JoinCall.shows env ⟨sess, .updateFrom s, params⟩ sch r.cells) (defs : List IndexDef)
    (buf : Buffer) : (updateFromRow env sess s sch defs params per.flatten r).wp underPrefix snap
      (fun o _ => o.isSome = true ↔ JoinCall.found env ⟨sess, .updateFrom s, params⟩ sch per r.cells) buf := by
  unfold updateFromRow
  simp only [wp_bind, wp_tick, wp_ofExcept]
  intro n found hmatch
  have hiff := updateMatch_iff hsteady hshows hmatch
  cases found with
  | none => exact hiff
  | some row =>
    simp only [storeUpdated, wp_bind]
    refine wp_any fun _ _ => wp_any fun _ _ => wp_any fun _ _ => ?_
    exact wp_any fun _ _ => wp_any fun _ _ => wp_any fun _ _ => hiff

end rows

/-! ## Statements -/

/-- What a statement reads before its loop, item by item. -/
def JoinCall.openingEach (c : JoinCall) : Stm (Target × List (List (List Binding))) := do
  let t ← c.target
  let per ← materializeEach c.sess c.sources
  pure (t, per)

section statements
variable {env}

theorem materializeAll_eq (sess : Session) (items : List FromItem) :
    materializeAll sess items = materializeEach sess items >>= fun per => pure per.flatten := by
  induction items with
  | nil => rfl
  | cons f fs ih =>
    simp only [materializeAll, materializeEach, ih, Prog.bind_assoc, pure_bind, flatten_cons]

theorem length_materializeEach {sess : Session} {items : List FromItem} {snap : Db} {buf : Buffer} :
    (materializeEach sess items).wp underPrefix snap (fun per _ => per.length = items.length) buf := by
  induction items generalizing buf with
  | nil => rfl
  | cons f fs ih =>
    simp only [materializeEach, wp_bind]
    refine wp_any fun rows _ => ?_
    exact wp_mono ih fun per _ hlen => congrArg (· + 1) hlen

/-- The loop over the target rows, up to the reply: the rows that were changed. -/
def JoinCall.changed (env : Env) (c : JoinCall) (t : Target) (rows : List (List Binding)) : Stm (List (ScanRow × Data)) :=
  match c.stmt with
  | .updateFrom s => Prog.collectWith t.1.2 (updateFromRow env c.sess s t.1.1 t.2 c.params rows)
  | .deleteUsing s => Prog.collectWith t.1.2 (deleteUsingRow env c.sess s t.1.1 t.2 c.params rows)

/-- The writes of a statement are those of its loop. -/
def JoinCall.ownOf (env : Env) (c : JoinCall) (t : Target) (rows : List (ScanRow × Data)) : Own :=
  match c.stmt with
  | .updateFrom s => ⟨t.1.1, updatesOf c.sess s.table t.1.1 rows,
      result env "UPDATE" t.1.1 s.table s.returning c.params (rows.map Prod.snd)⟩
  | .deleteUsing s => ⟨t.1.1, deletesOf c.sess s.table t.1.1 rows,
      result env "DELETE" t.1.1 s.table s.returning c.params (rows.map Prod.snd)⟩

theorem JoinCall.own_eq (c : JoinCall) : c.toRowCall.own env = c.openingEach >>= fun x =>
    c.changed env x.1 x.2.flatten >>= fun rows => pure (c.ownOf env x.1 rows) := by
  obtain ⟨sess, stmt, params⟩ := c
  cases stmt with
  | updateFrom s | deleteUsing s =>
    simp only [JoinCall.toRowCall, RowCall.own, updateFromOwn, deleteUsingOwn, JoinCall.openingEach, JoinCall.target,
      JoinCall.table, RowCall.table, JoinCall.sources, JoinCall.changed, JoinCall.ownOf, materializeAll_eq, Prog.bind_assoc,
      pure_bind]

theorem JoinCall.mem_ownOf (c : JoinCall) (t : Target) (rows : List (ScanRow × Data)) (r : ScanRow) :
    (∃ w ∈ (c.ownOf env t rows).writes, w.target = some r) ↔ r ∈ rows.map Prod.fst := by
  obtain ⟨sess, stmt, params⟩ := c
  cases stmt with
  | updateFrom s => simp [JoinCall.ownOf, updatesOf]
  | deleteUsing s => simp [JoinCall.ownOf, deletesOf]

theorem JoinCall.changed_found (c : JoinCall) (hsteady : SteadyWhere env c.whereClause) {t : Target} {r : ScanRow}
    {per : List (List (List Binding))} (hshows : c.shows env t.1.1 r.cells) {snap : Db} {buf : Buffer} :
    (c.changed env t per.flatten).wp underPrefix snap
      (fun rows _ => r ∈ rows.map Prod.fst ↔ r ∈ t.1.2 ∧ c.found env t.1.1 per r.cells) buf := by
  obtain ⟨sess, stmt, params⟩ := c
  cases stmt with
  | updateFrom s => exact wp_collectWith_mem (updateFromRow_found hsteady hshows t.2)
  | deleteUsing s => exact wp_collectWith_mem (deleteUsingRow_found hsteady hshows t.2)

end statements

/-! ## What is left of the target rows, on main -/

section main
variable (c : JoinCall) (sch : TableSchema)

/-- The keys of the rows stay: they are those of the primary keys, and SET does not assign it. -/
def JoinCall.keepsKeys (rows : List ScanRow) : Prop :=
  (∀ r ∈ rows, branchRowKey c.sess c.table sch r.cells r.key = r.key) ∧
    match c.stmt with
    | .updateFrom s => ∀ pk, sch.pkIndex = some pk → (∀ a ∈ s.sets, sch.colIndex env a.1 ≠ some pk) ∧
        ∀ col, (col, pk) ∈ sch.cols.zipIdx → col.generated = false
    | .deleteUsing _ => True

/-- A target row is deleted when the table has no row under its key any more, and updated when the statement
has written it and the table has it so. -/
def JoinCall.affects (buf : Buffer) (rows' : List ScanRow) (r : ScanRow) : Prop :=
  match c.stmt with
  | .updateFrom _ => ∃ cells, assignment r.key (encodeRow cells) ∈ buf ∧
      ⟨r.key, cells.takeD sch.cols.length none⟩ ∈ rows'
  | .deleteUsing _ => r.key ∉ rows'.map ScanRow.key

/-- The write of a row that is changed. -/
def JoinCall.writeOf (p : ScanRow × Data) : OwnWrite :=
  match c.stmt with
  | .updateFrom s => ⟨.update, some p.1, branchRowKey c.sess s.table sch p.2 p.1.key, some p.2⟩
  | .deleteUsing s => ⟨.delete, some p.1, branchRowKey c.sess s.table sch p.1.cells p.1.key, none⟩

variable {env c sch} {snap : Db} {buf : Buffer} {rows : List ScanRow}
  {ps : List (ScanRow × Data)}

theorem JoinCall.ownOf_writes (t : Target) : (c.ownOf env t ps).writes = ps.map (c.writeOf t.1.1) := by
  unfold JoinCall.ownOf JoinCall.writeOf
  split
  · rfl
  · rfl

theorem updatedFromCells_key {sess : Session} {s : UpdateFromStmt} {params cells : Data} {row : List Binding}
    {r : ScanRow} {site : Site} (hpk : ∀ pk, sch.pkIndex = some pk → (∀ a ∈ s.sets, sch.colIndex env a.1 ≠ some pk) ∧
      ∀ col, (col, pk) ∈ sch.cols.zipIdx → col.generated = false)
    (h : updatedFromCells env sess s sch params row r.cells site = .ok cells) :
    branchRowKey sess s.table sch cells r.key = branchRowKey sess s.table sch r.cells r.key := by
  obtain ⟨mid, hset, hfinish⟩ := ok_of_bind h
  unfold branchRowKey
  cases hidx : sch.pkIndex with
  | none => rfl
  | some pk =>
    obtain ⟨hsets, hgen⟩ := hpk pk hidx
    have hcell : cellAt cells pk = cellAt r.cells pk :=
      ((finishRow_ok hfinish).1 hgen).trans (applySets_frame hset hsets)
    rw [Option.bind_some, Option.bind_some, hcell]

theorem JoinCall.changed_keys {t : Target} (hkeys : c.keepsKeys env t.1.1 t.1.2) (sources : List (List Binding)) :
    (c.changed env t sources).wp underPrefix snap (fun ps _ => (ps.map Prod.fst).Sublist t.1.2 ∧
      ∀ p ∈ ps, (c.writeOf t.1.1 p).key = p.1.key) buf := by
  obtain ⟨sess, stmt, params⟩ := c
  obtain ⟨hrows, hpk⟩ := hkeys
  cases stmt with
  | updateFrom s =>
    refine wp_and (wp_mono (wp_collected_each (P := fun _ _ => True) fun _ _ _ => wp_true) fun _ _ h => h.sublist)
      (wp_mono (wp_collectWith (P := fun r cells => branchRowKey sess s.table t.1.1 cells r.key =
        branchRowKey sess s.table t.1.1 r.cells r.key) fun r _ buf => ?_) fun _ _ h p hp => ?_)
    · simp only [updateFromRow, wp_bind, wp_tick, wp_ofExcept]
      intro n found _
      cases found with
      | none => exact fun cells h => absurd h.symm (Option.some_ne_none cells)
      | some row =>
        simp only [storeUpdated, wp_bind, wp_ofExcept]
        intro cells hcells
        refine wp_any fun _ _ => wp_any fun _ _ => wp_any fun _ _ => wp_any fun _ _ => wp_any fun _ _ => ?_
        intro cells' heq
        cases heq
        exact updatedFromCells_key hpk hcells
    · exact (h p hp).2.trans (hrows p.1 (h p hp).1)
  | deleteUsing s =>
    refine wp_mono (wp_collected_each (P := fun _ _ => True) fun _ _ _ => wp_true) fun ps _ h => ⟨h.sublist, ?_⟩
    exact fun p hp => hrows p.1 (h.sublist.subset (mem_map_of_mem hp))

variable (hmain : c.sess.branch = mainBranch)
include hmain

/-- What a write leaves under its key. -/
theorem JoinCall.writeOf_effect (p : ScanRow × Data) : ((c.writeOf sch p).mutation c.sess).effect =
    match c.stmt with
    | .updateFrom _ => some (.row p.2)
    | .deleteUsing _ => none := by
  obtain ⟨sess, stmt, params⟩ := c
  cases stmt with
  | updateFrom s => rfl
  | deleteUsing s =>
    change (removal sess _).effect = none
    rw [removal, if_pos hmain]
    rfl

theorem JoinCall.affects_iff {children : TableSchema → Prop} (hapart : Apart children c.sess.ns c.table)
    (hrows : rowsIn c.sess.ns snap.map c.table sch.cols.length = .ok rows)
    (hwrote : Wrote c.sess snap.map children c.table ((ps.map (c.writeOf sch)).map (OwnWrite.mutation c.sess)) buf)
    (hsub : (ps.map Prod.fst).Sublist rows) (hkeys : ∀ p ∈ ps, (c.writeOf sch p).key = p.1.key) :
    ∃ rows', rowsIn c.sess.ns (snap.seen buf) c.table sch.cols.length = .ok rows' ∧
      ∀ r ∈ rows, c.affects sch buf rows' r ↔ r ∈ ps.map Prod.fst := by
  have hunder : ∀ r ∈ rows, rowPrefix c.sess.ns mainBranch c.table <+: r.key := fun r hr => ((mem_rowsIn hrows).mp hr).1
  have hmem : ∀ p ∈ ps, p.1 ∈ rows := fun p hp => hsub.subset (mem_map_of_mem hp)
  have hkey : ∀ w : OwnWrite, (w.mutation c.sess).key = w.key := by
    intro w
    unfold OwnWrite.mutation
    split
    · rfl
    · exact removal_key _ _
  have hown : ∀ m ∈ (ps.map (c.writeOf sch)).map (OwnWrite.mutation c.sess), ∃ p ∈ ps,
      m = (c.writeOf sch p).mutation c.sess ∧ m.key = p.1.key := by
    intro m hm
    rw [List.map_map] at hm
    obtain ⟨p, hp, rfl⟩ := mem_map.mp hm
    exact ⟨p, hp, rfl, (hkey _).trans (hkeys p hp)⟩
  have hinj : ∀ p ∈ ps, ∀ p' ∈ ps, p.1.key = p'.1.key → p = p' := by
    have hnodup : (ps.map fun p => p.1.key).Nodup := by
      have := (rowsIn_nodup hrows).sublist (hsub.map ScanRow.key)
      rwa [List.map_map] at this
    exact fun p hp p' hp' heq => inj_on_of_nodup_map hnodup hp hp' heq
  -- a row that was changed is as the write left it, the others are as they were
  have hchanged : ∀ p ∈ ps, (snap.seen buf).lookup p.1.key = ((c.writeOf sch p).mutation c.sess).effect := by
    intro p hp
    rw [hwrote.lookup_rows hmain hapart (hunder _ (hmem p hp)), ← hkeys p hp, ← hkey]
    obtain ⟨m', hm', heq, heff⟩ := snap.lookup_seen_mem (mem_map_of_mem (mem_map_of_mem hp))
    obtain ⟨p', hp', rfl, hk'⟩ := hown m' hm'
    rw [hk', hkey, hkeys p hp] at heq
    rw [heff, hinj p' hp' p hp heq]
  have hkept : ∀ k, rowPrefix c.sess.ns mainBranch c.table <+: k → (∀ p ∈ ps, p.1.key ≠ k) →
      (snap.seen buf).lookup k = snap.map.lookup k := by
    intro k hk hne
    rw [hwrote.lookup_rows hmain hapart hk]
    refine (snap.lookup_seen_cases _ k).resolve_right fun ⟨m, hm, hmk, _⟩ => ?_
    obtain ⟨p, hp, -, hpk⟩ := hown m hm
    exact hne p hp (hpk.symm.trans hmk)
  obtain ⟨rows', hrows'⟩ : ∃ rows', rowsIn c.sess.ns (snap.seen buf) c.table sch.cols.length = .ok rows' := by
    refine rowsIn_ok hrows fun k hk => ?_
    by_cases hany : ∃ p ∈ ps, p.1.key = k
    · obtain ⟨p, hp, rfl⟩ := hany
      rw [hchanged p hp, c.writeOf_effect hmain]
      refine .inr ?_
      split
      · exact .inr ⟨_, rfl⟩
      · exact .inl rfl
    · exact .inl (hkept k hk fun p hp heq => hany ⟨p, hp, heq⟩)
  refine ⟨rows', hrows', fun r hr => ?_⟩
  have hother : r ∉ ps.map Prod.fst → ∀ p ∈ ps, p.1.key ≠ r.key := fun hnot p hp heq =>
    hnot (inj_on_of_nodup_map (rowsIn_nodup hrows) (hmem p hp) hr heq ▸ mem_map_of_mem hp)
  have heffect : ∀ p, ((c.writeOf sch p).mutation c.sess).effect = _ := fun p => c.writeOf_effect hmain p
  unfold JoinCall.affects
  split
  all_goals rename_i hstmt
  all_goals simp only [hstmt] at heffect
  · constructor
    · rintro ⟨cells, hcells, -⟩
      obtain ⟨p, hp, -, hk⟩ := hown _ (hwrote.rows_own hmain hapart _ hcells (hunder r hr))
      by_contra hnot
      exact hother hnot p hp hk.symm
    · intro hps
      obtain ⟨p, hp, rfl⟩ := mem_map.mp hps
      have hw : (c.writeOf sch p).mutation c.sess = assignment p.1.key (encodeRow p.2) := by
        have hk := hkeys p hp
        unfold JoinCall.writeOf at hk ⊢
        rw [hstmt] at hk ⊢
        exact congrArg (assignment · _) hk
      refine ⟨p.2, hw ▸ hwrote.own_mem _ (mem_map_of_mem (mem_map_of_mem hp)), (mem_rowsIn hrows').mpr ?_⟩
      exact ⟨hunder p.1 hr, p.2, (hchanged p hp).trans (heffect p), rfl⟩
  · rw [mem_keys_rowsIn hrows', and_iff_right (hunder r hr)]
    constructor
    · intro hgone
      by_contra hnot
      obtain ⟨-, cells, hcells, -⟩ := (mem_rowsIn hrows).mp hr
      exact hgone ⟨cells, (hkept _ (hunder r hr) (hother hnot)).trans hcells⟩
    · intro hps
      obtain ⟨p, hp, rfl⟩ := mem_map.mp hps
      rw [hchanged p hp, heffect p]
      exact fun ⟨_, h⟩ => nomatch h

end main

section opening
variable {c : JoinCall} {snap : Db}

theorem materializeEach_writes {sess : Session} {items : List FromItem} :
    (materializeEach sess items).Writes (fun _ => False) := by
  induction items with
  | nil => exact Writes.pure _
  | cons f fs ih => exact Writes.bind materialize_writes fun _ => Writes.bind ih fun _ => Writes.pure _

theorem JoinCall.wp_openingEach : c.openingEach.wp underPrefix snap (fun x buf => buf = [] ∧
    x.2.length = c.sources.length ∧ (c.sess.branch = mainBranch →
      rowsIn c.sess.ns snap.map c.table x.1.1.1.cols.length = .ok x.1.1.2)) [] := by
  simp only [JoinCall.openingEach, JoinCall.target, wp_bind]
  have hscan : (scanTable c.sess c.table).wp underPrefix snap (fun sc buf => buf = [] ∧
      (c.sess.branch = mainBranch → rowsIn c.sess.ns snap.map c.table sc.1.cols.length = .ok sc.2)) [] := by
    refine wp_and (scanTable_writes.wp_none fun _ => rfl) ?_
    by_cases hmain : c.sess.branch = mainBranch
    · exact (wp_scanTable hmain).mpr fun sch _ rows hrows _ => hrows
    · exact wp_any fun _ _ h => absurd h hmain
  refine wp_mono hscan fun sc buf h => ?_
  obtain ⟨rfl, hrows⟩ := h
  refine loadIndexes_writes.wp_none fun defs => ?_
  rw [wp_pure]
  refine wp_mono (wp_and (materializeEach_writes.wp_none (Q := fun _ buf => buf = []) fun _ => rfl)
    length_materializeEach) fun per buf h => ?_
  exact ⟨h.1, h.2, hrows⟩

end opening

theorem JoinCall.toRowCall_sess (c : JoinCall) : c.toRowCall.sess = c.sess := by
  obtain ⟨sess, stmt, params⟩ := c
  cases stmt with
  | updateFrom s | deleteUsing s => rfl

/-- UPDATE ... FROM and DELETE ... USING. A statement that succeeds changes a row that row security shows
it if and only if WHERE is true of the row together with one row from each source item: exactly for the
rows for which the concatenation of the items comes to the same as their product. The rows changed are those
it has written itself; on main, when the keys of the rows stay and the referential actions reach other tables,
they are those that the table no longer has, or has as they were written. -/
theorem join_targets_iff (c : JoinCall) (snap : Db) (i : Nat) {res : Result} {buf : Buffer}
    (hsteady : SteadyWhere env c.whereClause) (hsources : c.sources ≠ [])
    (hrun : (c.run env).exec underPrefix snap [] i = .ok (res, buf)) :
    ∃ o t per j, (c.toRowCall.own env).exec underPrefix snap [] i = .ok (o, buf) ∧
      Wrote c.sess snap.map (c.toRowCall.children snap.map env) c.table (o.writes.map (OwnWrite.mutation c.sess)) buf ∧
      c.openingEach.run underPrefix snap [] i = .ok ((t, per), [], j) ∧
      (∀ r ∈ t.1.2, c.shows env t.1.1 r.cells →
        (((∃ w ∈ o.writes, w.target = some r) ↔ c.inProduct env t.1.1 per r.cells) ↔
          c.productLike env t.1.1 per r.cells)) ∧
      (c.sess.branch = mainBranch → Apart (c.toRowCall.children snap.map env) c.sess.ns c.table →
        c.keepsKeys env t.1.1 t.1.2 →
        ∃ rows', rowsIn c.sess.ns (snap.seen buf) c.table t.1.1.cols.length = .ok rows' ∧
          ∀ r ∈ t.1.2, c.shows env t.1.1 r.cells → ((c.affects t.1.1 buf rows' r ↔ c.inProduct env t.1.1 per r.cells) ↔
            c.productLike env t.1.1 per r.cells)) := by
  obtain ⟨o, hexec⟩ := c.toRowCall.own_of_run hrun
  have hwrote := wp_exec c.toRowCall.own_wrote hexec
  rw [c.toRowCall_sess] at hwrote
  obtain ⟨j, hown⟩ := run_of_exec hexec
  rw [c.own_eq] at hown
  obtain ⟨⟨t, per⟩, buf₂, j₂, hopen, hrest⟩ := run_bind_ok hown
  obtain ⟨rows, buf₃, j₃, hchanged, hpure⟩ := run_bind_ok hrest
  obtain ⟨rfl, rfl, -⟩ : c.ownOf env t rows = o ∧ buf₃ = buf ∧ _ := by simpa [run_pure] using hpure
  obtain ⟨rfl, hlen, hrows⟩ := wp_run c.wp_openingEach hopen
  have hper : per ≠ [] := by
    rintro rfl
    exact hsources (eq_nil_of_length_eq_zero hlen.symm)
  have hfound : ∀ r ∈ t.1.2, c.shows env t.1.1 r.cells →
      (r ∈ rows.map Prod.fst ↔ c.found env t.1.1 per r.cells) := by
    intro r hr hshows
    rw [wp_run (c.changed_found hsteady hshows) hchanged, and_iff_right hr]
  refine ⟨_, t, per, j₂, hexec, hwrote, hopen, fun r hr hshows => ?_, fun hmain hapart hkeys => ?_⟩
  · rw [c.mem_ownOf, hfound r hr hshows]
    exact found_iff_inProduct hper
  · obtain ⟨hsub, hkey⟩ := wp_run (c.changed_keys hkeys per.flatten) hchanged
    rw [c.ownOf_writes] at hwrote
    obtain ⟨rows', hrows', haffects⟩ := c.affects_iff hmain hapart (hrows hmain) hwrote hsub hkey
    refine ⟨rows', hrows', fun r hr hshows => ?_⟩
    rw [haffects r hr, hfound r hr hshows]
    exact found_iff_inProduct hper

/-! DELETE FROM t USING h, and USING h AS g, h AS k WHERE id = h.a, for the tables t(id PRIMARY KEY, v) and h(a, b). -/

def deleteUsing (whereClause : Option Expr) (items : List FromItem) : JoinCall :=
  ⟨demoSession "main", .deleteUsing ⟨⟨str "t", whereClause, .none⟩, items⟩, []⟩

def deleteUsingHeap : JoinCall := deleteUsing none [.table (str "h") (str "h")]

def deleteUsingTwo : JoinCall :=
  deleteUsing (some (.binary (str "=") (.column [str "id"]) (.column [str "h", str "a"])))
    [.table (str "h") (str "g"), .table (str "h") (str "k")]

/-- What the statement reads, and the rows of t after it. -/
structure JoinOutcome where
  sch : TableSchema
  rows : List ScanRow
  per : List (List (List Binding))
  after : List ScanRow
deriving DecidableEq

def joinOutcome (c : JoinCall) (db : Db) : Option JoinOutcome := do
  let x ← ((c.run demoEnv).exec underPrefix db [] 0).toOption
  let y ← (c.openingEach.run underPrefix db [] 0).toOption
  let after ← (rowsIn (str "n") (db.seen x.2) (str "t") 2).toOption
  pure ⟨y.1.1.1.1, y.1.1.1.2, y.1.2, after⟩

theorem joinOutcome_eq {c : JoinCall} {db : Db} {out : JoinOutcome} (h : joinOutcome c db = some out) :
    ∃ res buf defs buf₂ j, (c.run demoEnv).exec underPrefix db [] 0 = .ok (res, buf) ∧
      c.openingEach.run underPrefix db [] 0 = .ok ((((out.sch, out.rows), defs), out.per), buf₂, j) ∧
      rowsIn (str "n") (db.seen buf) (str "t") 2 = .ok out.after := by
  unfold joinOutcome at h
  obtain ⟨⟨res, buf⟩, hrun, h⟩ := bind_eq_some_iff.mp h
  obtain ⟨⟨⟨⟨⟨sch, rows⟩, defs⟩, per⟩, buf₂, j⟩, hopen, h⟩ := bind_eq_some_iff.mp h
  obtain ⟨after, hrows, h⟩ := bind_eq_some_iff.mp h
  cases h
  exact ⟨res, buf, defs, buf₂, j, ok_of_toOption hrun, ok_of_toOption hopen, ok_of_toOption hrows⟩

/-- The row of h, as an item of the statement gives it. -/
def heapBinding (aliasName : String) : List Binding := [⟨str aliasName, heapSchema, [some (str "1"), none]⟩]

def heapItems : List (List (List Binding)) := [[heapBinding "g"], [heapBinding "k"]]

theorem deleteUsingTwo_steady : SteadyWhere demoEnv deleteUsingTwo.whereClause := by
  intro e he sc site site'
  cases he
  rfl

/-- A row joins with one of the two items as it does with both. -/
theorem deleteUsingTwo_like (id v : String) (holds : Bool)
    (hholds : ∀ row ∈ [heapBinding "g", heapBinding "k", heapBinding "g" ++ heapBinding "k"],
      joinHolds demoEnv deleteUsingTwo.whereClause [] (⟨str "t", demoSchema, (demoRow id v).cells⟩ :: row)
        (Site.root 0) = .ok holds) :
    (deleteUsingTwo.inProduct demoEnv demoSchema heapItems (demoRow id v).cells ↔ holds = true) ∧
      deleteUsingTwo.productLike demoEnv demoSchema heapItems (demoRow id v).cells := by
  have hjoins : ∀ row ∈ [heapBinding "g", heapBinding "k", heapBinding "g" ++ heapBinding "k"],
      (holds = true ↔ deleteUsingTwo.joins demoEnv demoSchema (demoRow id v).cells row) :=
    fun row hrow => joinHolds_iff deleteUsingTwo_steady (hholds row hrow)
  have hproduct : deleteUsingTwo.inProduct demoEnv demoSchema heapItems (demoRow id v).cells ↔ holds = true := by
    rw [hjoins (heapBinding "g" ++ heapBinding "k") (by simp)]
    constructor
    · rintro ⟨combo, hall, hcombo⟩
      obtain ⟨g, rest, hg, hrest, rfl⟩ := forall₂_cons_right_iff.mp hall
      obtain ⟨k, last, hk, hnil, rfl⟩ := forall₂_cons_right_iff.mp hrest
      obtain rfl := forall₂_nil_right_iff.mp hnil
      rwa [mem_singleton.mp hg, mem_singleton.mp hk] at hcombo
    · exact fun h => ⟨_, .cons mem_cons_self (.cons mem_cons_self .nil), h⟩
  have hunion : deleteUsingTwo.inUnion demoEnv demoSchema heapItems (demoRow id v).cells ↔ holds = true := by
    constructor
    · rintro ⟨row, hrow, hrowJoins⟩
      exact (hjoins row (mem_append_left [heapBinding "g" ++ heapBinding "k"] hrow)).mpr hrowJoins
    · exact fun h => ⟨heapBinding "g", mem_cons_self, (hjoins _ mem_cons_self).mp h⟩
  exact ⟨hproduct, .inr (hunion.trans hproduct.symm)⟩

/-- With the row 1 in h, the row 1 of t is in the product and is deleted; the row 2 is neither. -/
theorem join_targets_two : ∃ db res buf defs buf₂ j rows',
    (deleteUsingTwo.run demoEnv).exec underPrefix db [] 0 = .ok (res, buf) ∧
    deleteUsingTwo.openingEach.run underPrefix db [] 0 =
      .ok ((((demoSchema, [demoRow "1" "x", demoRow "2" "y"]), defs), heapItems), buf₂, j) ∧
    rowsIn (str "n") (db.seen buf) (str "t") 2 = .ok rows' ∧
    (deleteUsingTwo.affects demoSchema buf rows' (demoRow "1" "x") ∧
      deleteUsingTwo.inProduct demoEnv demoSchema heapItems (demoRow "1" "x").cells) ∧
    ¬ deleteUsingTwo.affects demoSchema buf rows' (demoRow "2" "y") ∧
      ¬ deleteUsingTwo.inProduct demoEnv demoSchema heapItems (demoRow "2" "y").cells := by
  obtain ⟨db, -, hout, htables⟩ := exists_demo [createDemo, insertDemo "main" "1" "x", insertDemo "main" "2" "y",
    createHeap, insertHeap (.string (str "1")) .null]
    (fun db => joinOutcome deleteUsingTwo db = some ⟨demoSchema, [demoRow "1" "x", demoRow "2" "y"], heapItems,
      [demoRow "2" "y"]⟩ ∧ tablesIn (str "n") db.map = [heapSchema, demoSchema]) (by decide +kernel)
  obtain ⟨res, buf, defs, buf₂, j, hrun, hopen, hrows'⟩ := joinOutcome_eq hout
  obtain ⟨-, t, per, j', -, -, hopen', -, hmain⟩ :=
    join_targets_iff demoEnv deleteUsingTwo db 0 deleteUsingTwo_steady nofun hrun
  obtain ⟨⟨rfl, rfl⟩, rfl, rfl⟩ : ((((demoSchema, [demoRow "1" "x", demoRow "2" "y"]), defs) : Target) = t ∧
      heapItems = per) ∧ buf₂ = [] ∧ j = j' := by simpa [hopen] using hopen'
  have hnone : ∀ p x, x ∉ referencing demoEnv p (tablesIn (str "n") db.map) := by
    rw [htables]
    exact fun _ _ => not_mem_nil
  have hapart : Apart (deleteUsingTwo.toRowCall.children db.map demoEnv) (str "n") (str "t") := by
    intro t ht
    cases ht with
    | child h | deeper _ h => exact absurd h (hnone _ _)
  have hkeys : deleteUsingTwo.keepsKeys demoEnv demoSchema [demoRow "1" "x", demoRow "2" "y"] := ⟨by decide, trivial⟩
  obtain ⟨after, hafter, hiff⟩ := hmain rfl hapart hkeys
  obtain rfl : after = [demoRow "2" "y"] := Except.ok.inj (hafter.symm.trans hrows')
  obtain ⟨hin, hlike⟩ := deleteUsingTwo_like "1" "x" true (by decide +kernel)
  obtain ⟨hnot, hlike'⟩ := deleteUsingTwo_like "2" "y" false (by decide +kernel)
  have hone := (hiff (demoRow "1" "x") mem_cons_self fun _ => rfl).mpr hlike
  have htwo := (hiff (demoRow "2" "y") (mem_cons_of_mem _ mem_cons_self) fun _ => rfl).mpr hlike'
  have hnone' := fun h => Bool.false_ne_true (hnot.mp h)
  exact ⟨db, res, buf, defs, [], _, _, hrun, hopen, hrows', ⟨hone.mpr (hin.mpr rfl), hin.mpr rfl⟩,
    fun h => hnone' (htwo.mp h), hnone'⟩

/-- Without rows in h the product is empty, and the row of t is deleted. -/
theorem empty_source_deletes : ∃ db res buf defs buf₂ j rows',
    (deleteUsingHeap.run demoEnv).exec underPrefix db [] 0 = .ok (res, buf) ∧
    deleteUsingHeap.openingEach.run underPrefix db [] 0 =
      .ok ((((demoSchema, [demoRow "1" "x"]), defs), [[]]), buf₂, j) ∧
    rowsIn (str "n") (db.seen buf) (str "t") 2 = .ok rows' ∧
    ¬ deleteUsingHeap.inProduct demoEnv demoSchema [[]] (demoRow "1" "x").cells ∧
    deleteUsingHeap.affects demoSchema buf rows' (demoRow "1" "x") := by
  obtain ⟨db, -, hout⟩ := exists_demo [createDemo, insertDemo "main" "1" "x", createHeap]
    (fun db => joinOutcome deleteUsingHeap db = some ⟨demoSchema, [demoRow "1" "x"], [[]], []⟩) (by decide +kernel)
  obtain ⟨res, buf, defs, buf₂, j, hrun, hopen, hrows'⟩ := joinOutcome_eq hout
  exact ⟨db, res, buf, defs, buf₂, j, [], hrun, hopen, hrows', not_inProduct mem_cons_self, not_mem_nil⟩

end BasuyuDb.Executor
