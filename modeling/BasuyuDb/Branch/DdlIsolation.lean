import BasuyuDb.Executor.Relations
import BasuyuDb.Branch.Isolation

/-
  DDL on a feature branch against SELECT * on main. Schemas and index lists are keys of the
  namespace, not of a branch, so every change of a schema shows on main at once; and DROP COLUMN
  and ALTER COLUMN TYPE write each row of the scan at the key it was read from, which for an
  inherited row is the key on the parent. What main keeps: TRUNCATE, which deletes keys of the
  branch only, statements that do nothing, and an ALTER that changes neither the columns nor a
  cell of a row inherited from main.
-/

namespace BasuyuDb.Branch
open KvLib Storage Executor List Option
open Prog hiding pure bind

/-! ## SELECT * -/

variable (env : Env) (ns : Bytes) (sess : Session) (W : State) (i : Nat) (table : Bytes) (sch : TableSchema)

/-- SELECT * FROM a table, without WHERE, ORDER BY and LIMIT. -/
def starStmt : SelectStmt := ⟨table, [], none, [], none, false⟩

/-- The columns of a result: names and types. -/
def starColumns : List (Bytes × Nat) := sch.cols.map fun c => (c.name, c.typeOID)

/-- `execSelectFrom` for SELECT *: the columns and the rows that row security lets through. Without ORDER BY there is
no reverse iterator, so the snapshot is not read apart from what the transaction sees. -/
def selectStar (order : List (Bytes × Bytes) → List (Bytes × Bytes)) (sess : Session) (W : State)
    (table : Bytes) (site : Site) : ExecM (List (Bytes × Nat) × List Data) := do
  let planned ← planIndexScan env order sess W W (starStmt table) []
  let sc ← scanned sess W table
  let all := (planned.map IndexScan.rows).getD (sc.2.map ScanRow.cells)
  let rows ← applyRLSSelect env sess sc.1 table [] all site
  .ok (starColumns sc.1, rows)

section select
variable {env sess W table} {order : List (Bytes × Bytes) → List (Bytes × Bytes)} {W' : State} {site : Site}

theorem planIndexScan_star (env : Env) (order : List (Bytes × Bytes) → List (Bytes × Bytes)) (sess : Session)
    (W S : State) (table : Bytes) : planIndexScan env order sess W S (starStmt table) [] =
      if sess.branch = mainBranch ∧ table ≠ otelSpansTable ∧ (resolvedIn sess.ns W table).isSome ∧
          (indexesIn sess.ns W table).isNone then
        .error ⟨"XX000", "corrupt index metadata for %q: %v", [table]⟩
      else .ok none := by
  have hrel : (starStmt table).relName = table := rfl
  unfold planIndexScan
  rw [hrel]
  split
  · rename_i hoff
    rw [if_neg]
    rintro ⟨hmain, hotel, -⟩
    exact hoff.elim (fun h => h hmain) fun h => hotel h
  · rename_i hon
    obtain ⟨hmain, hotel⟩ := not_or.mp hon
    rw [not_not] at hmain
    cases resolvedIn sess.ns W table with
    | none => exact (if_neg (by simp)).symm
    | some sch =>
      cases indexesIn sess.ns W table with
      | none => exact (if_pos ⟨hmain, hotel, rfl, rfl⟩).symm
      | some defs => exact (if_neg (by simp)).symm

theorem selectStar_ok {out : List (Bytes × Nat) × List Data}
    (h : selectStar env order sess W table site = .ok out) : ∃ sch rows,
      scanned sess W table = .ok (sch, rows) ∧ out.1 = starColumns sch ∧ (rlsApplies sch sess = false → out.2 = rows.map ScanRow.cells) := by
  obtain ⟨planned, hplan, h⟩ := ok_of_bind h
  obtain rfl : planned = none := by
    rw [planIndexScan_star] at hplan
    split at hplan
    · cases hplan
    · exact (Except.ok.inj hplan).symm
  obtain ⟨sc, hscan, h⟩ := ok_of_bind h
  obtain ⟨rows, hrls, h⟩ := ok_of_bind h
  cases h
  obtain ⟨sch, all⟩ := sc
  refine ⟨sch, all, hscan, rfl, fun hno => ?_⟩
  unfold applyRLSSelect at hrls
  rw [hno, if_neg (by simp)] at hrls
  exact (Except.ok.inj hrls).symm

end select

/-! ## Writes that main does not see -/

/-- A write off main, a schema written back as it was, or a row of the table written back as the
scan decoded it. -/
inductive Harmless (sess : Session) (W : State) (table : Bytes) (n : Nat) : Mutation Bytes Val → Prop
  | offMain {m : Mutation Bytes Val} (h : nsRoot sess.ns ++ str "/br/" <+: m.key) : Harmless sess W table n m
  | schema {sch : TableSchema} (h : W.lookup (schemaKey sess.ns table) = some (.schema sch)) :
      Harmless sess W table n (assignment (schemaKey sess.ns table) (.schema sch))
  | row {k : Bytes} {cells : Data} (hk : rowPrefix sess.ns mainBranch table <+: k)
      (h : W.lookup k = some (.row cells)) :
      Harmless sess W table n (assignment k (.row (cells.takeD n none)))

theorem takeD_takeD (cells : Data) (n : Nat) : (cells.takeD n none).takeD n none = cells.takeD n none := by
  have hlen : (cells.takeD n none).length = n := takeD_length n cells none
  rw [takeD_eq_take none (Nat.le_of_eq hlen.symm)]
  exact take_of_length_le (Nat.le_of_eq hlen)

theorem liveRows_rewritten {W W' : State} {pre : Bytes} {n : Nat} (h : ∀ k, pre <+: k → W'.lookup k = W.lookup k ∨
      ∃ cells, W.lookup k = some (.row cells) ∧ W'.lookup k = some (.row (cells.takeD n none))) :
    liveRows n (W'.scan (underPrefix pre)) = liveRows n (W.scan (underPrefix pre)) := by
  have hmap : W'.scan (underPrefix pre) =
      (W.scan (underPrefix pre)).map (fun kv => (kv.1, (W'.lookup kv.1).getD kv.2)) := by
    refine OrdMap.scan_mapped (g := fun k v => (W'.lookup k).getD v) fun k hk => ?_
    rcases h k (underPrefix_iff.mp hk) with heq | ⟨cells, hcells, hnew⟩
    · rw [heq]
      cases W.lookup k with
      | none | some v => rfl
    · rw [hnew, hcells]
      rfl
  rw [hmap]
  have hsame : ∀ kv ∈ W.scan (underPrefix pre), (W'.lookup kv.1).getD kv.2 = kv.2 ∨
      ∃ cells, kv.2 = .row cells ∧ (W'.lookup kv.1).getD kv.2 = .row (cells.takeD n none) := by
    intro kv hkv
    obtain ⟨hkey, hlook⟩ := mem_scan_under hkv
    rcases h kv.1 ⟨_, hkey⟩ with heq | ⟨cells, hcells, hnew⟩
    · rw [heq, hlook]
      exact .inl rfl
    · rw [hlook] at hcells
      rw [hnew]
      exact .inr ⟨cells, some.inj hcells, rfl⟩
  -- the loop of `liveRows` sees the same decoded cells
  generalize W.scan (underPrefix pre) = kvs at hsame
  induction kvs with
  | nil => rfl
  | cons kv kvs ih =>
    have ih := ih fun kv hkv => hsame kv (mem_cons_of_mem _ hkv)
    obtain ⟨k, v⟩ := kv
    rcases hsame (k, v) mem_cons_self with heq | ⟨cells, hv, hnew⟩
    · rw [map_cons, liveRows, liveRows, ih]
      dsimp only at heq ⊢
      rw [heq]
    · dsimp only at hv hnew
      subst hv
      rw [map_cons, liveRows, liveRows, ih]
      dsimp only
      rw [hnew, if_neg (by simp), if_neg (by simp)]
      unfold decodeRow
      dsimp only
      rw [takeD_takeD]

section harmless
variable {env sess table} {order : List (Bytes × Bytes) → List (Bytes × Bytes)} {s : Snap Bytes Val}
  {ms : Buffer} {n : Nat}

theorem schema_not_offMain (ns x : Bytes) : ¬nsRoot ns ++ str "/br/" <+: schemaKey ns x :=
  schemaKey_not_under (.inr (prefix_refl _))

theorem row_not_offMain {ns x k : Bytes} (hk : rowPrefix ns mainBranch x <+: k) :
    ¬nsRoot ns ++ str "/br/" <+: k := by
  have hmain : rowPrefix ns mainBranch x = nsRoot ns ++ (dataPath ++ (x ++ [slash])) := rowPrefix_main ns x
  rw [hmain] at hk
  have hbr : str "/br/" = str "/br/" ++ [] := (append_nil _).symm
  rw [hbr]
  exact not_under_both (by decide) (by decide) hk

theorem harmless_catalog (h : ∀ m ∈ ms, Harmless sess s.map table n m) (x : Bytes) :
    (s.seen ms).lookup (schemaKey sess.ns x) = s.map.lookup (schemaKey sess.ns x) := by
  rcases s.lookup_seen_cases ms (schemaKey sess.ns x) with hsame | ⟨m, hm, hkey, heff⟩
  · exact hsame
  · cases h m hm with
    | offMain hoff => exact absurd (hkey ▸ hoff) (schema_not_offMain _ _)
    | schema hsch =>
      rw [heff, ← hkey]
      exact hsch.symm
    | row hk hrow =>
      have hkey' : _ = schemaKey sess.ns x := hkey
      exact absurd ((schemaKey_root).mpr ⟨x, hkey'⟩) (row_not_schema hk)

theorem harmless_selectStar (hwidth : ∀ sch, resolvedIn sess.ns s.map table = some sch → sch.cols.length = n)
    (h : ∀ m ∈ ms, Harmless sess s.map table n m) {reader : Session} (hns : reader.ns = sess.ns)
    (hmain : reader.branch = mainBranch) {x : Bytes}
    (hx : ∀ m ∈ ms, rowPrefix sess.ns mainBranch x <+: m.key → rowPrefix sess.ns mainBranch table <+: m.key →
      x = table) (site : Site) :
    selectStar env order reader (s.seen ms) x site = selectStar env order reader s.map x site := by
  have hcat : ∀ y, (s.seen ms).lookup (schemaKey reader.ns y) = s.map.lookup (schemaKey reader.ns y) :=
    fun y => hns ▸ harmless_catalog h y
  have hplan : planIndexScan env order reader (s.seen ms) (s.seen ms) (starStmt x) [] =
      planIndexScan env order reader s.map s.map (starStmt x) [] := by
    rw [planIndexScan_star, planIndexScan_star]
    unfold resolvedIn schemaIn indexesIn
    rw [hcat, hcat]
  unfold selectStar
  rw [hplan, scanned_congr (hcat x)]
  intro sch hsch
  rw [hns] at hsch
  rw [hns, hmain]
  have hlive : liveRows sch.cols.length ((s.seen ms).scan (underPrefix (rowPrefix sess.ns mainBranch x))) =
      liveRows sch.cols.length (s.map.scan (underPrefix (rowPrefix sess.ns mainBranch x))) := by
    refine liveRows_rewritten fun k hk => ?_
    rcases s.lookup_seen_cases ms k with hsame | ⟨m, hm, hkey, heff⟩
    · exact .inl hsame
    · cases h m hm with
      | offMain hoff => exact absurd (hkey ▸ hoff) (row_not_offMain hk)
      | schema hsch =>
        have hkey' : schemaKey sess.ns table = k := hkey
        exact absurd (schemaKey_root.mpr ⟨table, hkey'.symm⟩) (row_not_schema hk)
      | @row k' cells hk' hrow =>
        obtain rfl : k' = k := hkey
        obtain rfl : x = table := hx _ hm hk hk'
        rw [hwidth sch hsch]
        exact .inr ⟨cells, hrow, heff⟩
  unfold scanIn
  dsimp only
  rw [hlive]
  simp only [true_or, if_true]

end harmless

/-! ## Runs of the parts of a statement -/

section runs
variable {env sess table i sch} {s : Snap Bytes Val} {buf buf' : Buffer} {i' : Nat}
  {defs : List IndexDef}

theorem run_loadSchema_ok (h : (loadSchema sess table).run underPrefix s buf i = .ok (sch, buf', i')) :
    schemaIn sess.ns (s.seen buf) table = some sch ∧ buf' = buf ∧ i' = i := by
  obtain ⟨o, buf1, i1, hread, h⟩ := run_bind_ok h
  obtain ⟨rfl, rfl, rfl⟩ : (s.seen buf).lookup (schemaKey sess.ns table) = o ∧ buf = buf1 ∧ i = i1 := by
    simpa [run_read] using hread
  unfold schemaIn
  split at h
  · cases h
  · rename_i sch' hlook
    obtain ⟨rfl, rfl, rfl⟩ : sch' = sch ∧ buf = buf' ∧ i = i' := by simpa [run_pure] using h
    rw [hlook]
    exact ⟨rfl, rfl, rfl⟩
  · cases h

theorem run_loadIndexes_ok (h : (loadIndexes sess table).run underPrefix s buf i = .ok (defs, buf', i')) :
    indexesIn sess.ns (s.seen buf) table = some defs ∧ buf' = buf ∧ i' = i := by
  obtain ⟨o, buf1, i1, hread, h⟩ := run_bind_ok h
  obtain ⟨rfl, rfl, rfl⟩ : (s.seen buf).lookup (indexListKey sess table) = o ∧ buf = buf1 ∧ i = i1 := by
    simpa [run_read] using hread
  unfold indexesIn
  unfold indexListKey at h
  split at h
  · rename_i hlook
    obtain ⟨rfl, rfl, rfl⟩ : [] = defs ∧ buf = buf' ∧ i = i' := by simpa [run_pure] using h
    exact ⟨rfl, rfl, rfl⟩
  · rename_i defs' hlook
    obtain ⟨rfl, rfl, rfl⟩ : defs' = defs ∧ buf = buf' ∧ i = i' := by simpa [run_pure] using h
    exact ⟨rfl, rfl, rfl⟩
  · cases h

theorem run_scanTable_ok {sr : TableSchema × List ScanRow}
    (h : (scanTable sess table).run underPrefix s buf i = .ok (sr, buf', i')) :
    resolvedIn sess.ns (s.seen buf) table = some sr.1 ∧
      scanIn sess.ns (s.seen buf) sess.branch table sr.1.cols.length = .ok sr.2 ∧ buf' = buf ∧ i' = i := by
  obtain ⟨sch, buf1, i1, hsch, hrun⟩ := run_bind_ok h
  have hres : resolvedIn sess.ns (s.seen buf) table = some sch ∧ buf1 = buf ∧ i1 = i := by
    unfold resolveSchema at hsch
    unfold resolvedIn
    split at hsch
    · rename_i hotel
      obtain ⟨rfl, rfl, rfl⟩ : otelSpansSchema = sch ∧ buf = buf1 ∧ i = i1 := by simpa [run_pure] using hsch
      exact ⟨if_pos hotel, rfl, rfl⟩
    · rename_i hotel
      rw [if_neg hotel]
      exact run_loadSchema_ok hsch
  obtain ⟨hres, rfl, rfl⟩ := hres
  rw [run_bind, run_scanRows] at hrun
  cases hscan : scanIn sess.ns (s.seen buf1) sess.branch table sch.cols.length with
  | error e =>
    rw [hscan] at hrun
    cases hrun
  | ok rows =>
    rw [hscan] at hrun
    obtain ⟨rfl, rfl, rfl⟩ : (sch, rows) = sr ∧ buf1 = buf' ∧ i1 = i' := by
      simpa [Except.map, Except.bind, run_pure] using hrun
    exact ⟨hres, hscan, rfl, rfl⟩

theorem run_indexEntries_ok {cells : Data} {rk : Bytes} {add : Bool} {u : Unit}
    (h : (indexEntries env sess sch defs cells rk add).run underPrefix s buf i = .ok (u, buf', i')) :
    i' = i + defs.length := by
  induction defs generalizing buf i with
  | nil =>
    obtain ⟨-, -, rfl⟩ : True ∧ buf = buf' ∧ i = i' := by simpa [indexEntries, forEach, Prog.run] using h
    rfl
  | cons d defs ih =>
    rw [indexEntries_cons, indexEntry] at h
    obtain ⟨_, buf1, i1, hd, h⟩ := run_bind_ok h
    have hi1 : i1 = i + 1 := by
      obtain ⟨n, buf2, i2, htick, hd⟩ := run_bind_ok hd
      obtain ⟨rfl, rfl, rfl⟩ : i = n ∧ buf = buf2 ∧ i + 1 = i2 := by simpa [Prog.tick, Prog.run] using htick
      rw [run_bind, run_ofExcept] at hd
      cases ht : indexedTuple env sch d cells (Site.root i) with
      | error e =>
        rw [ht] at hd
        cases hd
      | ok o =>
        rw [ht] at hd
        cases o with
        | none =>
          obtain ⟨-, rfl⟩ : buf = buf1 ∧ i + 1 = i1 := by simpa [Except.map, Except.bind, run_pure] using hd
          rfl
        | some tuple =>
          obtain ⟨-, rfl⟩ : _ = buf1 ∧ i + 1 = i1 := by
            simpa [Except.map, Except.bind, Prog.write, Prog.run] using hd
          rfl
    rw [ih h, hi1, length_cons]
    omega

/-- The first pass of ALTER COLUMN TYPE: the row at position `j` is converted with the fresh
number after those of the rows before it. -/
theorem run_convertRows_ok {ci newOID : Nat} {usingExpr : Option Expr}
    {affected : List IndexDef} {rows : List ScanRow} {converted : List (ScanRow × Data)}
    (h : (convertRows env sess sch table ci newOID usingExpr affected rows).run underPrefix s buf i =
      .ok (converted, buf', i')) : converted.map Prod.fst = rows ∧ ∀ j rc, converted[j]? = some rc → ∃ d,
      convertCell env sch table ci newOID usingExpr rc.1.cells
        (Site.root (i + j * (affected.length + 1))) = .ok d ∧ rc.2 = rc.1.cells.set ci d := by
  induction rows generalizing buf buf' i i' converted with
  | nil =>
    obtain ⟨rfl, -⟩ : [] = converted ∧ _ := by simpa [convertRows, run_pure] using h
    exact ⟨rfl, by simp⟩
  | cons r rows ih =>
    obtain ⟨n, buf1, i1, htick, h⟩ := run_bind_ok h
    obtain ⟨rfl, rfl, rfl⟩ : i = n ∧ buf = buf1 ∧ i + 1 = i1 := by simpa [Prog.tick, Prog.run] using htick
    obtain ⟨d, buf2, i2, hcell, h⟩ := run_bind_ok h
    rw [run_ofExcept] at hcell
    cases hd : convertCell env sch table ci newOID usingExpr r.cells (Site.root i) with
    | error e =>
      rw [hd] at hcell
      cases hcell
    | ok d' =>
      rw [hd] at hcell
      obtain ⟨rfl, rfl, rfl⟩ : d' = d ∧ buf = buf2 ∧ i + 1 = i2 := by simpa [Except.map] using hcell
      obtain ⟨_, buf3, i3, hentries, h⟩ := run_bind_ok h
      obtain ⟨rest, buf4, i4, hrest, h⟩ := run_bind_ok h
      obtain ⟨rfl, -⟩ : (r, r.cells.set ci d') :: rest = converted ∧ _ := by simpa [run_pure] using h
      obtain ⟨hfst, hconv⟩ := ih hrest
      refine ⟨by rw [map_cons, hfst], fun j rc hj => ?_⟩
      cases j with
      | zero =>
        obtain rfl : (r, r.cells.set ci d') = rc := some.inj hj
        exact ⟨d', by simpa using hd, rfl⟩
      | succ j =>
        obtain ⟨d, hd, hrc⟩ := hconv j rc hj
        refine ⟨d, ?_, hrc⟩
        rw [run_indexEntries_ok hentries] at hd
        rw [← hd]
        congr 2
        ring

end runs

/-! ## ALTER COLUMN TYPE -/

/-- The indexes that ALTER COLUMN TYPE maintains. -/
def affectedBy (ci : Nat) (defs : List IndexDef) : List IndexDef :=
  defs.filter fun d => d.hasColumn env (sch.nameAt ci) || d.isExpr

section columnType
variable {env sess table sch} {s : Snap Bytes Val} {buf : Buffer} {ci newOID : Nat}
  {usingExpr : Option Expr} {affected : List IndexDef}

/-- An index entry of the session's branch. -/
def IsEntry (sess : Session) (m : Mutation Bytes Val) : Prop :=
  ∃ d pk tuple add, m = entryMutation sess d pk tuple add

theorem convertRows_entries {rows : List ScanRow} :
    (convertRows env sess sch table ci newOID usingExpr affected rows).Writes (IsEntry sess) := by
  induction rows with
  | nil => exact Writes.pure _
  | cons r rows ih =>
    exact Writes.bind Writes.tick fun _ => Writes.bind (Writes.ofExcept _) fun _ =>
      Writes.bind indexEntries_entries fun _ => Writes.bind ih fun _ => Writes.pure _

/-- The second pass: each converted row is written at the key it was read from. -/
def storeConverted (env : Env) (sess : Session) (sch : TableSchema) (affected : List IndexDef)
    (converted : List (ScanRow × Data)) : Stm Unit :=
  forEach converted fun rc => do
    Prog.write (assignment rc.1.key (encodeRow rc.2))
    indexEntries env sess sch affected rc.2 rc.1.key true

theorem storeConverted_writes {converted : List (ScanRow × Data)} :
    (storeConverted env sess sch affected converted).Writes (fun m => IsEntry sess m ∨
      ∃ rc ∈ converted, m = assignment rc.1.key (encodeRow rc.2)) := by
  refine Writes.forEach fun rc hrc => ?_
  exact Writes.bind (Writes.write (.inr ⟨rc, hrc, rfl⟩))
    (fun _ => indexEntries_entries.mono fun _ h => .inl h)

theorem wp_storeConverted {converted : List (ScanRow × Data)} {rc : ScanRow × Data}
    (hrc : rc ∈ converted) (honly : ∀ x ∈ converted, x.1.key = rc.1.key → x = rc)
    (hkey : ¬branchSubtreePrefix sess.ns sess.branch <+: rc.1.key) :
    (storeConverted env sess sch affected converted).wp underPrefix s
      (fun _ buf' => (s.seen buf').lookup rc.1.key = some (.row rc.2)) buf := by
  refine wp_mono (wp_forEach (fun rest buf' => (∀ x ∈ rest, x ∈ converted) ∧
    (rc ∈ rest ∨ (s.seen buf').lookup rc.1.key = some (.row rc.2))) ?_ ⟨fun _ h => h, .inl hrc⟩)
    (fun _ _ h => h.2.resolve_left (by simp))
  intro x rest buf1 hI
  obtain ⟨hsub, hdone⟩ := hI
  rw [wp_bind, wp_write]
  refine wp_mono (indexEntries_entries.wp _) fun _ buf2 h => ?_
  obtain ⟨ms, rfl, hms⟩ := h
  refine ⟨fun y hy => hsub y (mem_cons_of_mem _ hy), ?_⟩
  have hlook : (s.seen (buf1 ++ [assignment x.1.key (encodeRow x.2)] ++ ms)).lookup rc.1.key =
      ((s.seen buf1).set x.1.key (some (.row x.2))).lookup rc.1.key := by
    rw [s.lookup_seen_append, Snap.seen_concat]
    · rfl
    · intro m hm heq
      obtain ⟨d, pk, tuple, add, rfl⟩ := hms m hm
      rw [entryMutation_key] at heq
      exact hkey (heq ▸ subtree_indexKey _ _ _ _ _ _)
  rw [hlook]
  by_cases hx : rc.1.key = x.1.key
  · rw [← honly x (hsub x mem_cons_self) hx.symm]
    exact .inr (OrdMap.lookup_set_self _ _ _)
  · rw [OrdMap.lookup_set_ne _ _ hx]
    refine hdone.imp (fun hmem => ?_) id
    rcases mem_cons.mp hmem with rfl | hmem
    · exact absurd rfl hx
    · exact hmem

/-- What a successful `rewriteColumnType` read, converted and wrote. -/
structure Rewritten (env : Env) (sess : Session) (s : Snap Bytes Val) (table : Bytes) (sch : TableSchema)
    (ci newOID : Nat) (usingExpr : Option Expr) (i : Nat) (buf : Buffer) where
  scanSch : TableSchema
  rows : List ScanRow
  defs : List IndexDef
  converted : List (ScanRow × Data)
  resolved : resolvedIn sess.ns s.map table = some scanSch
  scan : scanIn sess.ns s.map sess.branch table scanSch.cols.length = .ok rows
  indexes : indexesIn sess.ns s.map table = some defs
  order : converted.map Prod.fst = rows
  cells : ∀ j rc, converted[j]? = some rc → ∃ d, convertCell env sch table ci newOID usingExpr rc.1.cells
      (Site.root (i + j * ((affectedBy env sch ci defs).length + 1))) = .ok d ∧ rc.2 = rc.1.cells.set ci d
  writes : ∀ m ∈ buf, IsEntry sess m ∨ ∃ rc ∈ converted, m = assignment rc.1.key (encodeRow rc.2)
  stored : ∀ rc ∈ converted, (∀ x ∈ converted, x.1.key = rc.1.key → x = rc) →
    ¬branchSubtreePrefix sess.ns sess.branch <+: rc.1.key → (s.seen buf).lookup rc.1.key = some (.row rc.2)

theorem run_rewriteColumnType_ok {i i' : Nat} {sch' : TableSchema}
    (h : (rewriteColumnType env sess sch table ci newOID usingExpr).run underPrefix s [] i = .ok (sch', buf, i')) :
    sch' = sch.modifyCol ci (fun c => { c with typeOID := newOID }) ∧
      Nonempty (Rewritten env sess s table sch ci newOID usingExpr i buf) := by
  obtain ⟨sr, buf1, i1, hscan, h1⟩ := run_bind_ok h
  obtain ⟨hres, hrows, rfl, rfl⟩ := run_scanTable_ok hscan
  obtain ⟨defs, buf2, i2, hdefs, h2⟩ := run_bind_ok h1
  obtain ⟨hidx, rfl, rfl⟩ := run_loadIndexes_ok hdefs
  obtain ⟨converted, buf3, i3, hconv, h3⟩ := run_bind_ok h2
  obtain ⟨horder, hcells⟩ := run_convertRows_ok hconv
  obtain ⟨u, buf4, i4, hstore, h4⟩ := run_bind_ok h3
  obtain ⟨rfl, rfl, -⟩ : sch.modifyCol ci (fun c => { c with typeOID := newOID }) = sch' ∧ buf4 = buf ∧ _ := by
    simpa [run_pure] using h4
  obtain ⟨ms1, rfl, hms1⟩ := wp_run (convertRows_entries.wp _) hconv
  refine ⟨rfl, ⟨⟨sr.1, sr.2, defs, converted, hres, hrows, hidx, horder, hcells, ?_, ?_⟩⟩⟩
  · obtain ⟨ms2, rfl, hms2⟩ := wp_run (storeConverted_writes.wp _) hstore
    intro m hm
    rcases mem_append.mp hm with hm | hm
    · exact .inl (hms1 m hm)
    · exact hms2 m hm
  · intro rc hrc honly hkey
    exact wp_run (wp_storeConverted hrc honly hkey) hstore

end columnType

/-! ## Statements -/

/-- ALTER TABLE with ADD COLUMN, DROP COLUMN, RENAME and ALTER COLUMN TYPE, DROP TABLE, TRUNCATE. -/
inductive DdlStmt where
  | addColumn (c : ColumnDef)
  | dropColumn (name : Bytes)
  | renameColumn (name newName : Bytes)
  | columnType (name typeName : Bytes) (usingExpr : Option Expr)
  | renameTo (newName : Bytes)
  | dropTable (ifExists : Bool)
  | truncate

def DdlStmt.on (table : Bytes) : DdlStmt → Stmt
  | .addColumn c => .alterTable ⟨table, .change (.addColumn c)⟩
  | .dropColumn name => .alterTable ⟨table, .change (.dropColumn name)⟩
  | .renameColumn name newName => .alterTable ⟨table, .change (.renameColumn name newName)⟩
  | .columnType name typeName usingExpr => .alterTable ⟨table, .change (.columnType name typeName usingExpr)⟩
  | .renameTo newName => .alterTable ⟨table, .renameTable newName⟩
  | .dropTable ifExists => .dropTable table ifExists
  | .truncate => .truncate table

/-- Every row on main that the conversion rewrites keeps its cell; `i` is the first fresh number
of the statement. -/
def CellsKept (ci newOID : Nat) (usingExpr : Option Expr) : Prop :=
  ∀ scanSch rows defs j r, resolvedIn sess.ns W table = some scanSch →
    scanIn sess.ns W sess.branch table scanSch.cols.length = .ok rows →
    indexesIn sess.ns W table = some defs → rows[j]? = some r → rowPrefix sess.ns mainBranch table <+: r.key →
    convertCell env sch table ci newOID usingExpr r.cells
      (Site.root (i + j * ((affectedBy env sch ci defs).length + 1))) = .ok (cellAt r.cells ci)

/-- The statement changes neither a schema nor a row on main. -/
def Keeps : DdlStmt → Prop
  | .addColumn _ => False
  | .dropColumn _ => False
  | .renameColumn name newName => ∀ sch ci, schemaIn sess.ns W table = some sch →
      sch.colIndex env (env.toLower name) = some ci → sch.nameAt ci = env.toLower newName
  | .columnType name typeName usingExpr => ∀ sch ci, schemaIn sess.ns W table = some sch →
      sch.colIndex env name = some ci → sch.oidAt ci = env.oidForTypeName typeName ∧
        CellsKept env sess W i table sch ci (env.oidForTypeName typeName) usingExpr
  | .renameTo newName => env.equalFold table newName = true
  | .dropTable _ => W.lookup (schemaKey sess.ns table) = none
  | .truncate => True

/-- The rows of one table are under the key path of the other: a name holds a slash. -/
def Nested (x table : Bytes) : Prop :=
  x ≠ table ∧ (x ++ [slash] <+: table ++ [slash] ∨ table ++ [slash] <+: x ++ [slash])

/-- A table whose rows ALTER COLUMN TYPE does not rewrite under another schema. -/
def Unmixed (table x : Bytes) : DdlStmt → Prop
  | .columnType .. => ¬Nested x table
  | _ => True

/-- Every SELECT * on main returns what it returned before. -/
def MainSame (W W' : State) (table : Bytes) (st : DdlStmt) : Prop :=
  ∀ order (reader : Session) x site, reader.ns = ns → reader.branch = mainBranch → Unmixed table x st →
    selectStar env order reader W' x site = selectStar env order reader W x site

/-- Some session reads the table on main, without row security. -/
def Readable : Prop :=
  ∃ order reader site out, reader.ns = ns ∧ reader.branch = mainBranch ∧
    selectStar env order reader W table site = .ok out ∧
    ∀ sch, resolvedIn ns W table = some sch → rlsApplies sch reader = false

section columns
variable {sch} {ci : Nat} {f : ColMeta → ColMeta}

theorem modifyCol_self (h : ∀ c, sch.cols[ci]? = some c → f c = c) : sch.modifyCol ci f = sch := by
  have hcols : sch.cols.modify ci f = sch.cols := by
    refine ext_getElem? fun j => ?_
    rw [getElem?_modify]
    by_cases hj : ci = j
    · subst hj
      cases hc : sch.cols[ci]? with
      | none => simp
      | some c => simp [h c hc]
    · simp [hj]
  unfold TableSchema.modifyCol
  rw [hcols]

theorem nameAt_eq {c : ColMeta} (h : sch.cols[ci]? = some c) : sch.nameAt ci = c.name := by
  simp [TableSchema.nameAt, getD_eq_getElem?_getD, h]

theorem oidAt_eq {c : ColMeta} (h : sch.cols[ci]? = some c) : sch.oidAt ci = c.typeOID := by
  simp [TableSchema.oidAt, getD_eq_getElem?_getD, h]

theorem starColumns_modifyCol (h : starColumns (sch.modifyCol ci f) = starColumns sch) {c : ColMeta}
    (hc : sch.cols[ci]? = some c) : (f c).name = c.name ∧ (f c).typeOID = c.typeOID := by
  have hci := congrArg (fun l => l[ci]?) h
  simp only [starColumns, TableSchema.modifyCol, getElem?_map, getElem?_modify, hc] at hci
  simpa using hci

theorem set_cellAt (cells : Data) (i : Nat) : cells.set i (cellAt cells i) = cells := by
  by_cases hi : i < cells.length
  · have hcell : cellAt cells i = cells[i] := by simp [cellAt, getD_eq_getElem?_getD, hi]
    rw [hcell]
    exact set_getElem_self hi
  · exact set_eq_of_length_le (Nat.le_of_not_lt hi)

end columns

section sufficient
variable {env sess table} {s : Snap Bytes Val}

theorem offMain_subtree {ns b k : Bytes} (hmain : b ≠ mainBranch) (hempty : b ≠ [])
    (h : branchSubtreePrefix ns b <+: k) : nsRoot ns ++ str "/br/" <+: k := by
  refine List.IsPrefix.trans ?_ h
  rw [branchSubtreePrefix_eq, branchSegment_feature hmain hempty, append_assoc, ← append_assoc]
  exact prefix_append _ _

variable {m : Mutation Bytes Val} {i i' : Nat} {res : Result} {ms : Buffer}
  (hmain : sess.branch ≠ mainBranch) (hempty : sess.branch ≠ [])

include hmain hempty in
theorem entry_offMain (h : IsEntry sess m) : nsRoot sess.ns ++ str "/br/" <+: m.key := by
  obtain ⟨d, pk, tuple, add, rfl⟩ := h
  rw [entryMutation_key]
  exact offMain_subtree hmain hempty (subtree_indexKey _ _ _ _ _ _)

variable {buf : Buffer} {name : Bytes} {usingExpr : Option Expr} {n : Nat}

theorem wp_deletePrefix {p : Bytes} :
    (deletePrefix p).wp underPrefix s (fun _ buf' => ∃ ms, buf' = buf ++ ms ∧ ∀ m ∈ ms, p <+: m.key) buf := by
  unfold deletePrefix
  rw [wp_bind, wp_range]
  refine Writes.wp (Writes.forEach fun kv hkv => Writes.write ?_) buf
  obtain ⟨hkey, -⟩ := mem_scan_under hkv
  exact ⟨_, hkey⟩

theorem wp_execTruncate_branch : (execTruncate sess table).wp underPrefix s
    (fun _ buf => ∀ m ∈ buf, branchSubtreePrefix sess.ns sess.branch <+: m.key) [] := by
  unfold execTruncate
  rw [wp_bind]
  refine loadSchema_writes.wp_none fun _ => ?_
  unfold dropTableData
  simp only [wp_bind]
  refine wp_mono wp_deletePrefix fun _ buf1 h => ?_
  obtain ⟨ms, rfl, hms⟩ := h
  refine loadIndexes_writes.wp_none fun defs => ?_
  refine wp_mono (wp_forEach (fun _ buf' =>
    ∀ m ∈ buf', branchSubtreePrefix sess.ns sess.branch <+: m.key) ?_ ?_) fun _ _ h => h
  · intro d rest buf2 hbuf
    refine wp_mono wp_deletePrefix fun _ buf3 h => ?_
    obtain ⟨ms', rfl, hms'⟩ := h
    intro m hm
    exact (mem_append.mp hm).elim (hbuf m) fun hm => (subtree_indexColumnPrefix _ _ _ _).trans (hms' m hm)
  · exact fun m hm => ((subtree_branchData _ _).trans (branchData_rowPrefix _ _ _)).trans (hms m hm)

theorem run_change_ok {cmd : AlterCmd}
    (h : (execAlterTable env sess ⟨table, .change cmd⟩).run underPrefix s [] i = .ok (res, ms, i')) :
    ∃ sch sch' buf i1, schemaIn sess.ns s.map table = some sch ∧
      (alterTable env sess sch table cmd).run underPrefix s [] i = .ok (sch', buf, i1) ∧
      ms = buf ++ [assignment (schemaKey sess.ns table) (.schema sch')] := by
  obtain ⟨sch, buf1, i1, hload, h1⟩ := run_bind_ok h
  obtain ⟨hsch, rfl, rfl⟩ := run_loadSchema_ok hload
  obtain ⟨sch', buf2, i2, halter, h2⟩ := run_bind_ok h1
  refine ⟨sch, sch', buf2, i2, hsch, halter, ?_⟩
  obtain ⟨u, buf3, i3, hwrite, h3⟩ := run_bind_ok h2
  obtain ⟨rfl, -⟩ : buf2 ++ [_] = buf3 ∧ _ := by simpa [Prog.write, Prog.run] using hwrite
  obtain ⟨-, rfl, -⟩ : _ ∧ _ = ms ∧ _ := by simpa [run_pure] using h3
  rfl

theorem run_renameColumn_ok {newName : Bytes}
    (h : (execAlterTable env sess ⟨table, .change (.renameColumn name newName)⟩).run underPrefix s [] i =
      .ok (res, ms, i')) :
    ∃ sch ci, schemaIn sess.ns s.map table = some sch ∧ sch.colIndex env (env.toLower name) = some ci ∧
      ms = [assignment (schemaKey sess.ns table)
        (.schema (sch.modifyCol ci fun c => { c with name := env.toLower newName }))] := by
  obtain ⟨sch, sch', buf, i1, hsch, halter, rfl⟩ := run_change_ok h
  obtain ⟨hcol, rfl, -⟩ := run_ofExcept_ok halter
  unfold alterColumn at hcol
  cases hci : sch.colIndex env (env.toLower name) with
  | none =>
    rw [hci] at hcol
    cases hcol
  | some ci =>
    rw [hci] at hcol
    cases hcol
    exact ⟨sch, ci, hsch, hci, rfl⟩

theorem run_columnType_ok {typeName : Bytes}
    (h : (execAlterTable env sess ⟨table, .change (.columnType name typeName usingExpr)⟩).run underPrefix s [] i =
      .ok (res, ms, i')) : ∃ sch ci buf, schemaIn sess.ns s.map table = some sch ∧ sch.colIndex env name = some ci ∧
      Nonempty (Rewritten env sess s table sch ci (env.oidForTypeName typeName) usingExpr i buf) ∧
      ms = buf ++ [assignment (schemaKey sess.ns table)
        (.schema (sch.modifyCol ci fun c => { c with typeOID := env.oidForTypeName typeName }))] := by
  obtain ⟨sch, sch', buf, i1, hsch, halter, rfl⟩ := run_change_ok h
  have hrun : (columnType env sess sch table name typeName usingExpr).run underPrefix s [] i =
      .ok (sch', buf, i1) := halter
  unfold columnType at hrun
  cases hci : sch.colIndex env name with
  | none =>
    rw [hci] at hrun
    cases hrun
  | some ci =>
    rw [hci] at hrun
    obtain ⟨rfl, hR⟩ := run_rewriteColumnType_ok hrun
    exact ⟨sch, ci, buf, hsch, hci, hR, rfl⟩

theorem parentIn_ne_nil (ns : Bytes) (W : State) (b : Bytes) : parentIn ns W b ≠ [] := by
  unfold parentIn
  split
  · split
    · decide
    · assumption
  · decide

include hmain hempty in
theorem scanIn_onMain {W : State} {rows : List ScanRow} {r : ScanRow}
    (h : scanIn sess.ns W sess.branch table n = .ok rows) (hr : r ∈ rows) :
    nsRoot sess.ns ++ str "/br/" <+: r.key ∨
      parentIn sess.ns W sess.branch = mainBranch ∧ rowPrefix sess.ns mainBranch table <+: r.key := by
  rcases mem_scanIn h hr with hown | ⟨-, hinh⟩
  · exact .inl (offMain_subtree hmain hempty
      (((subtree_branchData _ _).trans (branchData_rowPrefix _ _ _)).trans hown))
  · obtain ⟨-, tail, cells, -, -, rfl⟩ := mem_inheritedRows.mp hinh
    by_cases hp : parentIn sess.ns W sess.branch = mainBranch
    · refine .inr ⟨hp, ?_⟩
      rw [hp]
      exact prefix_append _ _
    · refine .inl (offMain_subtree hp (parentIn_ne_nil _ _ _) ?_)
      exact ((subtree_branchData _ _).trans (branchData_rowPrefix _ _ _)).trans (prefix_append _ _)

include hmain hempty in
theorem Rewritten.harmless {sch : TableSchema} {ci newOID : Nat}
    (R : Rewritten env sess s table sch ci newOID usingExpr i buf)
    (hkept : CellsKept env sess s.map i table sch ci newOID usingExpr) :
    ∀ m ∈ buf, Harmless sess s.map table R.scanSch.cols.length m := by
  intro m hm
  rcases R.writes m hm with hentry | ⟨rc, hrc, rfl⟩
  · exact .offMain (entry_offMain hmain hempty hentry)
  · obtain ⟨j, hj⟩ := getElem?_of_mem hrc
    have hrow : R.rows[j]? = some rc.1 := by rw [← R.order, getElem?_map, hj]; rfl
    rcases scanIn_onMain hmain hempty R.scan (mem_of_getElem? hrow) with hoff | ⟨-, hon⟩
    · exact .offMain hoff
    · obtain ⟨d, hd, hcells⟩ := R.cells j rc hj
      have hkeep := hkept R.scanSch R.rows R.defs j rc.1 R.resolved R.scan R.indexes hrow hon
      obtain rfl : d = cellAt rc.1.cells ci := Except.ok.inj (hd.symm.trans hkeep)
      rw [set_cellAt] at hcells
      obtain ⟨cells, hlook, hdec⟩ := scanIn_live R.scan (mem_of_getElem? hrow)
      rw [hcells, hdec]
      exact .row hon hlook

/-- A write off main, or of the schema as it was. -/
def Aside (sess : Session) (W : State) (table : Bytes) (m : Mutation Bytes Val) : Prop :=
  nsRoot sess.ns ++ str "/br/" <+: m.key ∨
    ∃ sch, schemaIn sess.ns W table = some sch ∧ m = assignment (schemaKey sess.ns table) (.schema sch)

theorem Aside.harmless (h : Aside sess s.map table m) : Harmless sess s.map table n m := by
  rcases h with hoff | ⟨sch, hsch, rfl⟩
  · exact .offMain hoff
  · exact .schema (schemaIn_eq_some.mp hsch)

theorem Aside.not_row {x : Bytes} (h : Aside sess s.map table m) : ¬rowPrefix sess.ns mainBranch x <+: m.key := by
  intro hrow
  rcases h with hoff | ⟨sch, -, rfl⟩
  · exact row_not_offMain hrow hoff
  · exact row_not_schema hrow (schemaKey_root.mpr ⟨table, rfl⟩)

section keeps
variable {st : DdlStmt}

include hmain hempty in
theorem keeps_aside (hst : ∀ name typeName usingExpr, st ≠ .columnType name typeName usingExpr)
    (hkeep : Keeps env sess s.map i table st)
    (hexec : (Call.run env ⟨sess, st.on table, []⟩).exec underPrefix s [] i = .ok (res, ms)) :
    ∀ m ∈ ms, Aside sess s.map table m := by
  cases st with
  | addColumn c | dropColumn name => exact hkeep.elim
  | columnType name typeName usingExpr => exact absurd rfl (hst name typeName usingExpr)
  | truncate =>
    intro m hm
    exact .inl (offMain_subtree hmain hempty (wp_exec wp_execTruncate_branch hexec m hm))
  | renameColumn name newName =>
    obtain ⟨i', hrun⟩ := run_of_exec hexec
    obtain ⟨sch, ci, hsch, hci, rfl⟩ := run_renameColumn_ok hrun
    have hname : sch.nameAt ci = env.toLower newName := hkeep sch ci hsch hci
    rw [modifyCol_self]
    · intro m hm
      obtain rfl := mem_singleton.mp hm
      exact .inr ⟨sch, hsch, rfl⟩
    · intro c hc
      rw [← hname, nameAt_eq hc]
  | renameTo newName =>
    have hfold : env.equalFold table newName = true := hkeep
    have hnil : (execAlterTable env sess ⟨table, .renameTable newName⟩).wp underPrefix s (fun _ buf => buf = []) [] := by
      simp only [execAlterTable, renameTable, hfold, if_true, wp_bind, wp_pure]
      exact loadSchema_writes.wp_none fun _ => rfl
    obtain rfl := wp_exec hnil hexec
    simp
  | dropTable ifExists =>
    have hnone : s.map.lookup (schemaKey sess.ns table) = none := hkeep
    have hnil : (execDropTable sess table ifExists).wp underPrefix s (fun _ buf => buf = []) [] := by
      simp only [execDropTable, wp_bind, wp_read, Snap.seen_nil, hnone]
      split <;> simp
    obtain rfl := wp_exec hnil hexec
    simp

theorem rowPrefix_unnested {ns x k : Bytes} (h : ¬Nested x table) (hx : rowPrefix ns mainBranch x <+: k)
    (htable : rowPrefix ns mainBranch table <+: k) : x = table := by
  by_contra hne
  have hx' : nsRoot ns ++ (dataPath ++ (x ++ [slash])) <+: k := rowPrefix_main ns x ▸ hx
  have htable' : nsRoot ns ++ (dataPath ++ (table ++ [slash])) <+: k := rowPrefix_main ns table ▸ htable
  refine h ⟨hne, ?_⟩
  refine (List.prefix_or_prefix_of_prefix hx' htable').imp (fun hpre => ?_) fun hpre => ?_
  · exact (prefix_append_right_inj _).mp ((prefix_append_right_inj _).mp hpre)
  · exact (prefix_append_right_inj _).mp ((prefix_append_right_inj _).mp hpre)

include hmain hempty in
theorem keeps_mainSame (hkeep : Keeps env sess s.map i table st)
    (hexec : (Call.run env ⟨sess, st.on table, []⟩).exec underPrefix s [] i = .ok (res, ms)) :
    MainSame env sess.ns s.map (s.seen ms) table st := by
  intro order reader x site hns hreader hx
  by_cases hst : ∃ name typeName usingExpr, st = .columnType name typeName usingExpr
  · obtain ⟨name, typeName, usingExpr, rfl⟩ := hst
    obtain ⟨i', hrun⟩ := run_of_exec hexec
    obtain ⟨sch, ci, buf, hsch, hci, ⟨R⟩, rfl⟩ := run_columnType_ok hrun
    obtain ⟨hoid, hkept⟩ := hkeep sch ci hsch hci
    refine harmless_selectStar (n := R.scanSch.cols.length) (fun sch' hsch' => ?_) (fun m hm => ?_) hns hreader
      (fun m _ hxm htm => rowPrefix_unnested hx hxm htm) site
    · rw [some.inj (hsch'.symm.trans R.resolved)]
    · rcases mem_append.mp hm with hm | hm
      · exact R.harmless hmain hempty hkept m hm
      · obtain rfl := mem_singleton.mp hm
        rw [modifyCol_self]
        · exact .schema (schemaIn_eq_some.mp hsch)
        · intro c hc
          rw [← hoid, oidAt_eq hc]
  · have hms := keeps_aside hmain hempty (fun _ _ _ heq => hst ⟨_, _, _, heq⟩) hkeep hexec
    refine harmless_selectStar (n := ((resolvedIn sess.ns s.map table).elim 0 fun sch => sch.cols.length))
      (fun sch hsch => ?_) (fun m hm => (hms m hm).harmless) hns hreader
      (fun m hm hxm _ => absurd hxm (hms m hm).not_row) site
    rw [hsch]
    rfl

end keeps

end sufficient

/-! ## What a change shows -/

section necessary
variable {env sess table W} {s : Snap Bytes Val} {W' : State}

variable {sch} {n : Nat} {rows : List ScanRow} {buf : Buffer}

theorem rowsIn_ext {ns : Bytes} {rows' : List ScanRow} (h : rowsIn ns W table n = .ok rows)
    (h' : rowsIn ns W' table n = .ok rows') (hkeys : ∀ k, rowPrefix ns mainBranch table <+: k →
      ((∃ cells, W'.lookup k = some (.row cells)) ↔ ∃ cells, W.lookup k = some (.row cells)))
    (hcells : rows'.map ScanRow.cells = rows.map ScanRow.cells) : rows' = rows := by
  have hasc : ∀ {V : State} {l : List ScanRow}, rowsIn ns V table n = .ok l →
      (l.map ScanRow.key).Pairwise (· < ·) := by
    intro V l hl
    exact (pairwise_map.mpr (OrdMap.scan_asc V _)).sublist (liveRows_sublist hl)
  have hmem : ∀ {V : State} {l : List ScanRow}, rowsIn ns V table n = .ok l → ∀ k,
      k ∈ l.map ScanRow.key ↔ rowPrefix ns mainBranch table <+: k ∧ ∃ cells, V.lookup k = some (.row cells) := by
    intro V l hl k
    rw [List.mem_map]
    constructor
    · rintro ⟨r, hr, rfl⟩
      obtain ⟨hunder, cells, hlook, -⟩ := (mem_rowsIn hl).mp hr
      exact ⟨hunder, cells, hlook⟩
    · rintro ⟨hunder, cells, hlook⟩
      exact ⟨⟨k, cells.takeD n none⟩, (mem_rowsIn hl).mpr ⟨hunder, cells, hlook, rfl⟩, rfl⟩
  have hkey : rows'.map ScanRow.key = rows.map ScanRow.key := by
    refine (hasc h').eq_of_mem_iff (hasc h) fun k => ?_
    rw [hmem h', hmem h]
    exact and_congr_right (hkeys k)
  have hzip := congrArg₂ List.zip hkey hcells
  rw [zip_map', zip_map'] at hzip
  refine map_injective_iff.mpr (fun r' r heq => ?_) hzip
  obtain ⟨hk, hc⟩ := Prod.mk.inj heq
  cases r'
  cases hk
  cases hc
  rfl

theorem liveRows_keys_nodup {kvs : List (Bytes × Val)} (h : liveRows n kvs = .ok rows)
    (hasc : Ascending kvs) : (rows.map ScanRow.key).Nodup :=
  ((pairwise_map.mpr hasc).sublist (liveRows_sublist h)).imp fun hlt => ne_of_lt hlt

theorem scanIn_keys_nodup (hmain : sess.branch ≠ mainBranch)
    (hempty : sess.branch ≠ []) (hparent : parentIn sess.ns W sess.branch = mainBranch)
    (h : scanIn sess.ns W sess.branch table n = .ok rows) : (rows.map ScanRow.key).Nodup := by
  obtain ⟨own, hown, hrest⟩ := ok_of_bind h
  have hasc := OrdMap.scan_asc W (underPrefix (rowPrefix sess.ns sess.branch table))
  split at hrest
  · cases hrest
    exact liveRows_keys_nodup hown hasc
  · obtain ⟨parents, hparents, hrest⟩ := ok_of_bind hrest
    cases hrest
    rw [map_append, nodup_append]
    refine ⟨liveRows_keys_nodup hown hasc,
      liveRows_keys_nodup hparents (List.Pairwise.filter _ (OrdMap.scan_asc W _)), ?_⟩
    -- own keys are off main, inherited keys on it
    intro k hk k' hk' heq
    obtain ⟨r, hr, rfl⟩ := List.mem_map.mp hk
    obtain ⟨r', hr', rfl⟩ := List.mem_map.mp hk'
    obtain ⟨cells, hmem, -⟩ := (mem_liveRows hown).mp hr
    obtain ⟨cells', hmem', -⟩ := (mem_liveRows hparents).mp hr'
    have hoff : nsRoot sess.ns ++ str "/br/" <+: r.key := offMain_subtree hmain hempty
      (((subtree_branchData _ _).trans (branchData_rowPrefix _ _ _)).trans ⟨_, (mem_scan_under hmem).1⟩)
    have hon : rowPrefix sess.ns mainBranch table <+: r'.key := by
      rw [← hparent]
      exact ⟨_, (mem_scan_under (mem_filter.mp hmem').1).1⟩
    exact row_not_offMain hon (heq ▸ hoff)

theorem Rewritten.kept {ci newOID i : Nat} {usingExpr : Option Expr} {v : Val} (hmain : sess.branch ≠ mainBranch)
    (hempty : sess.branch ≠ []) (R : Rewritten env sess s table sch ci newOID usingExpr i buf)
    (hci : ci < R.scanSch.cols.length) (hrows : rowsIn sess.ns s.map table R.scanSch.cols.length = .ok rows)
    {rows' : List ScanRow}
    (hrows' : rowsIn sess.ns (s.seen (buf ++ [assignment (schemaKey sess.ns table) v])) table R.scanSch.cols.length =
      .ok rows') (hcells : rows'.map ScanRow.cells = rows.map ScanRow.cells) :
    CellsKept env sess s.map i table sch ci newOID usingExpr := by
  intro scanSch all defs j r hres hscan hidx hj hon
  obtain rfl : R.scanSch = scanSch := some.inj (R.resolved.symm.trans hres)
  obtain rfl : R.rows = all := Except.ok.inj (R.scan.symm.trans hscan)
  obtain rfl : R.defs = defs := some.inj (R.indexes.symm.trans hidx)
  have hnotOff := row_not_offMain hon
  -- writes on main under the table are those of converted rows
  have hlast : ∀ k, rowPrefix sess.ns mainBranch table <+: k →
      (s.seen (buf ++ [assignment (schemaKey sess.ns table) v])).lookup k = (s.seen buf).lookup k := by
    intro k hk
    refine s.lookup_seen_append fun m hm heq => ?_
    obtain rfl := mem_singleton.mp hm
    exact row_not_schema hk (schemaKey_root.mpr ⟨table, heq.symm⟩)
  have hkeys : ∀ k, rowPrefix sess.ns mainBranch table <+: k →
      ((∃ cells, (s.seen (buf ++ [assignment (schemaKey sess.ns table) v])).lookup k = some (.row cells)) ↔
        ∃ cells, s.map.lookup k = some (.row cells)) := by
    intro k hk
    rw [hlast k hk]
    rcases s.lookup_seen_cases buf k with hsame | ⟨m, hm, hkey, heff⟩
    · rw [hsame]
    · rcases R.writes m hm with hentry | ⟨rc, hrc, rfl⟩
      · exact absurd (hkey ▸ entry_offMain hmain hempty hentry) (row_not_offMain hk)
      · have hrc1 : rc.1 ∈ R.rows := R.order ▸ List.mem_map_of_mem hrc
        obtain ⟨cells, hlook, -⟩ := scanIn_live R.scan hrc1
        obtain rfl : rc.1.key = k := hkey
        exact iff_of_true ⟨rc.2, heff⟩ ⟨cells, hlook⟩
  obtain rfl := rowsIn_ext hrows hrows' hkeys hcells
  have hparent : parentIn sess.ns s.map sess.branch = mainBranch := by
    rcases scanIn_onMain hmain hempty R.scan (mem_of_getElem? hj) with hoff | ⟨hp, -⟩
    · exact absurd hoff hnotOff
    · exact hp
  have hnodup : (R.converted.map fun x => x.1.key).Nodup := by
    have hfst := scanIn_keys_nodup hmain hempty hparent R.scan
    rw [← R.order, List.map_map] at hfst
    exact hfst
  obtain ⟨rc, hrc, rfl⟩ : ∃ rc, R.converted[j]? = some rc ∧ rc.1 = r := by
    rw [← R.order, getElem?_map] at hj
    exact map_eq_some_iff.mp hj
  have hmem := mem_of_getElem? hrc
  obtain ⟨d, hd, hset⟩ := R.cells j rc hrc
  have hstored := R.stored rc hmem (fun x hx heq => inj_on_of_nodup_map hnodup hx hmem heq) fun hsub =>
    hnotOff (offMain_subtree hmain hempty hsub)
  obtain ⟨cells, hlook, hdec⟩ := scanIn_live R.scan (R.order ▸ List.mem_map_of_mem hmem)
  have hlen : rc.1.cells.length = R.scanSch.cols.length := by rw [hdec, takeD_length]
  have hold : rc.1 ∈ rows' := (mem_rowsIn hrows).mpr ⟨hon, cells, hlook, hdec⟩
  have hnew : (⟨rc.1.key, rc.2.takeD R.scanSch.cols.length none⟩ : ScanRow) ∈ rows' :=
    (mem_rowsIn hrows').mpr ⟨hon, rc.2, (hlast _ hon).trans hstored, rfl⟩
  have hsame : rc.1 = ⟨rc.1.key, rc.2.takeD R.scanSch.cols.length none⟩ :=
    inj_on_of_nodup_map (rowsIn_nodup hrows) hold hnew rfl
  have hcell : rc.1.cells = rc.1.cells.set ci d := by
    have hlen2 : rc.2.length = R.scanSch.cols.length := by rw [hset, length_set, hlen]
    have heq := congrArg ScanRow.cells hsame
    dsimp only at heq
    rw [takeD_eq_take none (Nat.le_of_eq hlen2.symm), take_of_length_le (Nat.le_of_eq hlen2), hset] at heq
    exact heq
  have hdcell : cellAt rc.1.cells ci = d := by
    rw [hcell]
    unfold cellAt
    rw [getD_eq_getElem?_getD, getElem?_set_self (by rw [hlen]; exact hci)]
    rfl
  rw [hdcell]
  exact hd

theorem schemaIn_concat (buf : Buffer) :
    schemaIn sess.ns (s.seen (buf ++ [assignment (schemaKey sess.ns table) (.schema sch)])) table = some sch := by
  rw [schemaIn_eq_some, Snap.seen_concat]
  exact OrdMap.lookup_set_self _ _ _

theorem schemaIn_deleted : schemaIn sess.ns (s.seen (buf ++ [deletion (schemaKey sess.ns table)])) table = none := by
  have hnone : (s.seen (buf ++ [deletion (schemaKey sess.ns table)])).lookup (schemaKey sess.ns table) = none := by
    rw [Snap.seen_concat]
    exact OrdMap.lookup_set_self _ _ _
  unfold schemaIn
  rw [hnone]

theorem addColumn_length {sch' : TableSchema} {cd : ColumnDef} (h : addColumn env sch table cd = .ok sch') :
    sch'.cols.length = sch.cols.length + 1 := by
  unfold addColumn at h
  split at h
  · cases h
  · split at h
    · cases h
    · cases h
      simp

theorem wp_dropColumn_length {name : Bytes} : (dropColumn env sess sch table name).wp underPrefix s
      (fun sch' _ => sch'.cols.length + 1 = sch.cols.length) buf := by
  unfold dropColumn
  split
  · simp
  · rename_i idx hidx
    have hlt := TableSchema.colIndex_lt env hidx
    have hlen : (sch.withoutCol idx).cols.length + 1 = sch.cols.length := by
      simp only [TableSchema.withoutCol, length_eraseIdx, hlt, if_true]
      omega
    split
    · simp
    · simp only [wp_bind, wp_pure, hlen, wp_true]

theorem wp_execDropTable_gone {ifExists : Bool} : (execDropTable sess table ifExists).wp underPrefix s
    (fun _ buf => s.map.lookup (schemaKey sess.ns table) = none ∨ schemaIn sess.ns (s.seen buf) table = none) [] := by
  unfold execDropTable
  rw [wp_bind, wp_read, Snap.seen_nil]
  split
  · rename_i hnone
    split
    · exact .inl hnone
    · simp
  · simp only [wp_bind, wp_pure, wp_write]
    exact wp_any fun _ buf => .inr schemaIn_deleted
  · simp

theorem wp_renameTable_gone {newName : Bytes} : (renameTable env sess table newName sch).wp
    underPrefix s (fun _ buf => env.equalFold table newName = true ∨ schemaIn sess.ns (s.seen buf) table = none) [] := by
  unfold renameTable
  split
  · rename_i hfold
    exact .inl hfold
  · rw [wp_bind, wp_read]
    split
    · simp
    · simp only [wp_bind, wp_write, schemaIn_deleted, or_true, wp_true]

theorem unmixed_self (table : Bytes) (st : DdlStmt) : Unmixed table table st := by
  cases st with
  | columnType name typeName usingExpr => exact fun h => h.1 rfl
  | addColumn c | dropColumn name | renameColumn name newName | renameTo newName | dropTable ifExists | truncate => trivial

/-- A statement that keeps every SELECT * on main, of a table that main can read, keeps the
catalog and the rows of main. -/
theorem mainSame_keeps {st : DdlStmt} {i : Nat} {res : Result} {ms : Buffer}
    (hmain : sess.branch ≠ mainBranch) (hempty : sess.branch ≠ []) (hotel : table ≠ otelSpansTable)
    (hread : Readable env sess.ns s.map table)
    (hexec : (Call.run env ⟨sess, st.on table, []⟩).exec underPrefix s [] i = .ok (res, ms))
    (hsame : MainSame env sess.ns s.map (s.seen ms) table st) : Keeps env sess s.map i table st := by
  obtain ⟨order, reader, site, out, hns, hreader, hbefore, hrls⟩ := hread
  have hafter := (hsame order reader table site hns hreader (unmixed_self table st)).trans hbefore
  obtain ⟨sch, rows, hscan, hcols, hcells⟩ := selectStar_ok hbefore
  obtain ⟨sch', rows', hscan', hcols', hcells'⟩ := selectStar_ok hafter
  obtain ⟨hsch, hrows⟩ := scanned_ok hscan
  obtain ⟨hsch', hrows'⟩ := scanned_ok hscan'
  rw [hreader, scanIn_main] at hrows hrows'
  unfold resolvedIn at hsch hsch'
  rw [if_neg hotel] at hsch hsch'
  replace hcells := fun h h' => (hcells' h').symm.trans (hcells h)
  replace hcols := hcols'.symm.trans hcols
  rw [hns] at hsch hsch' hrows hrows'
  have hlength : sch'.cols.length = sch.cols.length := by
    have h := congrArg List.length hcols
    simpa [starColumns] using h
  obtain ⟨i', hrun⟩ := run_of_exec hexec
  cases st with
  | truncate => trivial
  | dropTable ifExists =>
    rcases wp_exec wp_execDropTable_gone hexec with hnone | hgone
    · exact hnone
    · cases hgone.symm.trans hsch'
  | renameTo newName =>
    obtain ⟨sch0, buf0, i1, hload, h1⟩ := run_bind_ok hrun
    obtain ⟨-, rfl, rfl⟩ := run_loadSchema_ok hload
    obtain ⟨u, buf, i2, hrename, h2⟩ := run_bind_ok h1
    obtain ⟨-, rfl, -⟩ : _ ∧ buf = ms ∧ _ := by simpa [run_pure] using h2
    rcases wp_run wp_renameTable_gone hrename with hfold | hgone
    · exact hfold
    · cases hgone.symm.trans hsch'
  | addColumn c =>
    obtain ⟨sch0, sch1, buf, i1, hsch0, halter, rfl⟩ := run_change_ok hrun
    cases hsch0.symm.trans hsch
    obtain rfl := some.inj ((schemaIn_concat _).symm.trans hsch')
    have hmore := addColumn_length (run_ofExcept_ok halter).1
    omega
  | dropColumn name =>
    obtain ⟨sch0, sch1, buf, i1, hsch0, halter, rfl⟩ := run_change_ok hrun
    cases hsch0.symm.trans hsch
    obtain rfl := some.inj ((schemaIn_concat _).symm.trans hsch')
    have hfewer := wp_run wp_dropColumn_length halter
    omega
  | renameColumn name newName =>
    obtain ⟨sch0, ci, hsch0, hci, rfl⟩ := run_renameColumn_ok hrun
    cases hsch0.symm.trans hsch
    obtain rfl := some.inj ((schemaIn_concat []).symm.trans hsch')
    intro sch1 ci1 hsch1 hci1
    cases hsch1.symm.trans hsch
    cases hci1.symm.trans hci
    have hc := getElem?_eq_getElem (TableSchema.colIndex_lt env hci)
    rw [nameAt_eq hc]
    exact (starColumns_modifyCol hcols hc).1.symm
  | columnType name typeName usingExpr =>
    obtain ⟨sch0, ci, buf, hsch0, hci, ⟨R⟩, rfl⟩ := run_columnType_ok hrun
    cases hsch0.symm.trans hsch
    obtain rfl := some.inj ((schemaIn_concat _).symm.trans hsch')
    intro sch1 ci1 hsch1 hci1
    obtain rfl := some.inj (hsch1.symm.trans hsch)
    obtain rfl := some.inj (hci1.symm.trans hci)
    have hlt := TableSchema.colIndex_lt env hci
    have hc := getElem?_eq_getElem hlt
    have hres : resolvedIn sess.ns s.map table = some sch1 := by
      unfold resolvedIn
      rw [if_neg hotel]
      exact hsch
    have hscan : R.scanSch = sch1 := some.inj (R.resolved.symm.trans hres)
    rw [← hscan] at hlt hrows
    rw [hlength, ← hscan] at hrows'
    have hopen := hrls sch1 hres
    refine ⟨?_, R.kept hmain hempty hlt hrows hrows' (hcells hopen hopen)⟩
    rw [oidAt_eq hc]
    exact (starColumns_modifyCol hcols hc).2.symm

end necessary

/-! ## DDL on branches and main -/

/-- **Isolation of DDL on branches.** A statement of a session on a feature branch that changes
neither the catalog nor a row on main leaves every SELECT * on main as it was; and of a table that
main can read, only such a statement does. -/
theorem branch_ddl_isolated (env : Env) (db : Db) (sess : Session) (table : Bytes) (st : DdlStmt) (i : Nat)
    (res : Result) (ms : Buffer) (hmain : sess.branch ≠ mainBranch) (hempty : sess.branch ≠ [])
    (hexec : (Call.run env ⟨sess, st.on table, []⟩).exec underPrefix db [] i = .ok (res, ms)) :
    (Keeps env sess db.map i table st → MainSame env sess.ns db.map (db.seen ms) table st) ∧
    (table ≠ otelSpansTable → Readable env sess.ns db.map table →
      MainSame env sess.ns db.map (db.seen ms) table st → Keeps env sess db.map i table st) :=
  ⟨fun hkeep => keeps_mainSame hmain hempty hkeep hexec,
    fun hotel hread hsame => mainSame_keeps hmain hempty hotel hread hexec hsame⟩

/-- What SELECT * on main shows of the table t. -/
def shownOnMain : Option (List (Bytes × Nat) × List Data) :=
  (selectStar demoEnv id (demoSession "main") W (str "t") (Site.root 0)).toOption

/-- A statement on the branch b1, and what main shows before and after. -/
def alteredOn (db : Db) (st : DdlStmt) : Option (Option (List (Bytes × Nat) × List Data)) :=
  ((Call.run demoEnv ⟨demoSession "b1", st.on (str "t"), []⟩).exec underPrefix db [] 0).toOption.map
    (fun x => shownOnMain (db.seen x.2))

theorem alteredOn_some {db : Db} {st : DdlStmt} {shown : Option (List (Bytes × Nat) × List Data)}
    (h : alteredOn db st = some shown) : ∃ res ms,
      (Call.run demoEnv ⟨demoSession "b1", st.on (str "t"), []⟩).exec underPrefix db [] 0 = .ok (res, ms) ∧
      shownOnMain (db.seen ms) = shown := by
  obtain ⟨x, hx, heq⟩ := map_eq_some_iff.mp h
  obtain ⟨res, ms⟩ := x
  exact ⟨res, ms, ok_of_toOption hx, heq⟩

/-- TRUNCATE on a branch leaves the row on main. -/
theorem truncated_row_stays : ∃ db, Reach (Db.step demoEnv) (fun _ _ => True) Db.empty db ∧
    ∃ res ms, (Call.run demoEnv ⟨demoSession "b1", DdlStmt.truncate.on (str "t"), []⟩).exec underPrefix db [] 0 =
        .ok (res, ms) ∧
      selectStar demoEnv id (demoSession "main") (db.seen ms) (str "t") (Site.root 0) =
        selectStar demoEnv id (demoSession "main") db.map (str "t") (Site.root 0) ∧
      (shownOnMain (db.seen ms)).map (fun out => out.2.length) = some 1 := by
  obtain ⟨db, hreach, halter⟩ := exists_demo
    [createDemo, insertDemo "main" "1" "x", branchDemo "b1" "main", insertDemo "b1" "2" "y"]
    (fun db => (alteredOn db .truncate).map (fun shown => shown.map fun out => out.2.length) = some (some 1))
    (by decide +kernel)
  obtain ⟨shown, hshown, hlen⟩ := map_eq_some_iff.mp halter
  obtain ⟨res, ms, hexec, rfl⟩ := alteredOn_some hshown
  have hsame := (branch_ddl_isolated demoEnv db (demoSession "b1") (str "t") .truncate 0 res ms (by decide)
    (by decide) hexec).1 trivial
  exact ⟨db, hreach, res, ms, hexec, hsame id (demoSession "main") (str "t") (Site.root 0) rfl rfl trivial, hlen⟩

/-- DROP COLUMN on a branch takes the column away on main. -/
theorem dropped_column_leaks : ∃ db, Reach (Db.step demoEnv) (fun _ _ => True) Db.empty db ∧
    ∃ res ms, (Call.run demoEnv ⟨demoSession "b1", (DdlStmt.dropColumn (str "v")).on (str "t"), []⟩).exec underPrefix
        db [] 0 = .ok (res, ms) ∧
      selectStar demoEnv id (demoSession "main") (db.seen ms) (str "t") (Site.root 0) ≠
        selectStar demoEnv id (demoSession "main") db.map (str "t") (Site.root 0) := by
  obtain ⟨db, hreach, halter, hbefore⟩ := exists_demo
    [createDemo, insertDemo "main" "1" "x", branchDemo "b1" "main"]
    (fun db => (alteredOn db (.dropColumn (str "v"))).map (fun shown => shown.map fun out => out.1.length) =
        some (some 1) ∧ (shownOnMain db.map).map (fun out => out.1.length) = some 2)
    (by decide +kernel)
  obtain ⟨shown, hshown, hafter⟩ := map_eq_some_iff.mp halter
  obtain ⟨res, ms, hexec, rfl⟩ := alteredOn_some hshown
  refine ⟨db, hreach, res, ms, hexec, fun heq => ?_⟩
  have hsame : shownOnMain (db.seen ms) = shownOnMain db.map := congrArg Except.toOption heq
  rw [hsame, hbefore] at hafter
  cases hafter

end BasuyuDb.Branch
