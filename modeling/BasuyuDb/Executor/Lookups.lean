import BasuyuDb.Executor.Access
import BasuyuDb.Executor.Readback

/-
  Two lookups of index_scan.go against the full scan, on main. `pkPointGet` reads the row under the text of the
  constant, while `compare` reads numbers: WHERE id = 01 does not find the row of 1 (`point_lookup_iff`).
  `tryExprEquality` encodes the constant as text, while `encodeIndexKey` encodes the value of the expression under
  its own type: WHERE a + 1 = 6 finds nothing (`expr_lookup_iff`).
-/

namespace BasuyuDb.Executor
open KvLib Storage List Option

variable (env : Env)

/-- A table of main whose rows are stored under their primary keys. -/
structure KeyedTable (sess : Session) (W : State) (table : Bytes) (sch : TableSchema) (defs : List IndexDef)
    (rows : List ScanRow) : Prop where
  main : sess.branch = mainBranch
  schema : resolvedIn sess.ns W table = some sch
  indexes : indexesIn sess.ns W table = some defs
  scanned : rowsIn sess.ns W table sch.cols.length = .ok rows
  keyed : KeyedRows sess.ns table sch rows

/-- A filter keeps the same rows of both lists. -/
def SelectsAlike (keep : Data → Site → ExecM Bool) (out all : List Data) (site site' : Site) :
    Prop :=
  ∃ kept kept', filterRows keep out site = .ok kept ∧ filterRows keep all site' = .ok kept' ∧ kept.Perm kept'

theorem selectsAlike_iff {rows : List ScanRow} {reached : ScanRow → Bool} {out : List Data} {site site' : Site}
    {keep : Data → Site → ExecM Bool} {Q : Data → Bool}
    (hout : out.Perm ((rows.filter reached).map ScanRow.cells))
    (hQ : ∀ r ∈ rows, ∀ st, keep r.cells st = .ok (Q r.cells)) :
    SelectsAlike keep out (rows.map ScanRow.cells) site site' ↔ ∀ r ∈ rows, Q r.cells = true → reached r = true := by
  have hkept : filterRows keep out site = .ok (out.filter Q) := by
    refine filterRows_of_keep (fun cells hcells => ?_) site
    obtain ⟨r, hr, rfl⟩ := List.mem_map.mp (hout.mem_iff.mp hcells)
    exact hQ r (mem_of_mem_filter hr)
  have hall : filterRows keep (rows.map ScanRow.cells) site' = .ok ((rows.map ScanRow.cells).filter Q) := by
    refine filterRows_of_keep (fun cells hcells => ?_) site'
    obtain ⟨r, hr, rfl⟩ := List.mem_map.mp hcells
    exact hQ r hr
  rw [← filter_perm_iff hout]
  constructor
  · rintro ⟨kept, kept', hk, hk', hperm⟩
    cases hkept.symm.trans hk
    cases hall.symm.trans hk'
    exact hperm
  · intro hperm
    exact ⟨_, _, hkept, hall, hperm⟩

/-! ## The primary key -/

/-- An integer, decimal or string literal: its text and its type. -/
def literal : Const → Option (Bytes × Nat)
  | .int val => some (val, OIDInt4)
  | .float val => some (val, OIDFloat8)
  | .string val => some (val, OIDText)
  | _ => none

variable (n : String) (sch : TableSchema) (cells : Data)

/-- `compare` takes the key for equal to the constant. -/
def keyEquals (pk : Nat) (text : Bytes) (oid : Nat) (cells : Data) : Bool :=
  (cellAt cells pk).any fun t => compareCells env t (sch.oidAt pk) text oid = .eq

/-- The planner comes to the lookup of the key `c`: no index over the column alone is before it, and ORDER BY is not
by the column. -/
def ComesToKey (s : SelectStmt) (defs : List IndexDef) (c : Bytes) : Prop :=
  (s.sortClause = [] → singleColIndex env defs (env.toLower c) (predicateImplies env s.whereClause) = none) ∧
    ∀ o ∈ orderByCol env s, env.equalFold c o.1 = false

section key
variable {env sch} {order : List (Bytes × Bytes) → List (Bytes × Bytes)} {sess : Session} {W S : State}
  {s : SelectStmt} {params : Data} {defs : List IndexDef} {rows : List ScanRow} {fields : List Bytes}
  {c : Bytes} {pk : Nat} {k : Const} {text : Bytes} {oid : Nat}

theorem literal_eval (hlit : literal k = some (text, oid)) : evalConst k = ⟨some text, oid⟩ ∧ constText k = some text := by
  cases k with
  | null | bool val => cases hlit
  | int val | float val | string val =>
    cases hlit
    exact ⟨rfl, rfl⟩

theorem whereKeeps_equals {e : Expr} {v : Value} {aliasName : Bytes} {cells : Data}
    (heval : ∀ site, e.eval env (rowsScope env sess params [⟨aliasName, sch, cells⟩]) site = .ok v)
    (hlit : literal k = some (text, oid)) (site : Site) :
    whereKeeps env sess sch aliasName params (some (.binary (str "=") e (.const k))) cells site =
      .ok (v.cell.any fun t => compareCells env t v.oid text oid = .eq) := by
  have hconst : ∀ sc st, (Expr.const k).eval env sc st = .ok ⟨some text, oid⟩ := by
    intro sc st
    rw [Expr.eval, (literal_eval hlit).1]
  have hbinary : (Expr.binary (str "=") e (.const k)).eval env
      (rowsScope env sess params [⟨aliasName, sch, cells⟩]) site = evalBinary env (str "=") v ⟨some text, oid⟩ := by
    rw [Expr.eval]
    simp only [heval, hconst, bind, Except.bind]
  simp only [whereKeeps, hbinary, evalBinary, bind, Except.bind]
  cases v.cell with
  | none => rfl
  | some t =>
    have hcmp : isComparison (str "=") = true := by decide
    simp only [hcmp, if_true, any_some, compare, asBool_boolValue]
    rfl

theorem bounds_key (href : RefersTo env s fields c) (hlit : literal k = some (text, oid)) :
    boundFromComparison env s params (str "=") (.column fields) (.const k) = some ⟨c, some text, some text⟩ := by
  have hconst : resolveConstText params (.const k) = some text := (literal_eval hlit).2
  rw [href.bounds_left rfl, hconst]
  rfl

theorem KeyedTable.plan_key (h : KeyedTable sess W s.relName sch defs rows) (horder : ∀ l, (order l).Perm l)
    (hpk : sch.pkIndex = some pk) (hwhere : s.whereClause = some (.binary (str "=") (.column fields) (.const k)))
    (hlit : literal k = some (text, oid)) (href : RefersTo env s fields c) (hci : sch.colIndex env c = some pk)
    (hcomes : ComesToKey env s defs c) {out : List Data}
    (hout : pkPointGet sess W s.relName sch text = .ok out) :
    planIndexScan env order sess W S s params = .ok (some ⟨out, true⟩) := by
  have hbounds : boundFromComparison env s params (str "=") (.column fields) (.const k) = some ⟨c, some text, some text⟩ :=
    bounds_key href hlit
  have hequal : s.sortClause.isEmpty = true → tryEqualities env order sess W s params sch defs = .ok none := by
    intro hsort
    have hconj : whereConjuncts s.whereClause = [.binary (str "=") (.column fields) (.const k)] := by
      rw [hwhere]
      rfl
    have hexpr : tryExprEquality env sess W s params sch defs = .ok none := by
      simp [tryExprEquality, exprLookup, hconj, exprEquality, isConstNode, isIndexableExpr]
    have heqs : collectEqualities env s params = [(env.toLower c, text)] := by
      simp [collectEqualities, hconj, addEquality, hbounds, putEq]
    have hcomposite : tryCompositeEquality env sess W s params sch defs = .ok none := by
      simp [tryCompositeEquality, heqs]
    have hone : order [(env.toLower c, text)] = [(env.toLower c, text)] := perm_singleton.mp (horder _)
    have hsingle : trySingleColEquality env sess W s sch defs [(env.toLower c, text)] = .ok none := by
      simp [trySingleColEquality, hcomes.1 (List.isEmpty_iff.mp hsort)]
    simp [tryEqualities, hexpr, hcomposite, heqs, hone, hsingle, bind, Except.bind]
  have hrange : planRange env sess W S s params sch defs = .ok (some ⟨out, true⟩) := by
    have hdrive : ∀ desc, driveScan env sess W S s sch defs c (some ⟨c, some text, some text⟩) false desc =
        .ok (some ⟨out, true⟩) := by
      intro desc
      have hfilter : (some (⟨c, some text, some text⟩ : ColBounds)).filter
          (fun b => !false && decide (sch.pkIndex = some pk) && b.isEquality) = some ⟨c, some text, some text⟩ :=
        filter_eq_some_iff.mpr ⟨rfl, by simp [hpk, ColBounds.isEquality]⟩
      simp only [driveScan, hci, hfilter, getD_some, hout, bind, Except.bind]
    have hextract : s.whereClause.bind (extractColBounds env s params) = some ⟨c, some text, some text⟩ := by
      rw [hwhere]
      exact hbounds
    unfold planRange
    rw [hextract]
    cases hord : orderByCol env s with
    | none => exact hdrive false
    | some o =>
      simp only [hcomes.2 o hord]
      exact hdrive o.2
  unfold planIndexScan
  rw [if_neg (by simp [h.main, h.keyed.ne_otel h.schema]), h.schema, h.indexes]
  cases hsort : s.sortClause.isEmpty with
  | true => simp only [if_true, hequal hsort, hrange, bind, Except.bind]
  | false => simp only [Bool.false_eq_true, if_false, hrange, bind, Except.bind]

end key

/-! ### Spellings of a key -/

/-- WHERE c = k through the primary key answers as the full scan does exactly when every stored key that `compare`
takes for equal to k is spelled as k. That is so where one of them is not a number, and where all are integers within
the exact range in their usual spelling. -/
theorem point_lookup_iff (env : Env) (order : List (Bytes × Bytes) → List (Bytes × Bytes)) (horder : ∀ l, (order l).Perm l)
    (sess : Session) (W S : State) (s : SelectStmt) (params : Data) (sch : TableSchema) (defs : List IndexDef)
    (rows : List ScanRow) (fields : List Bytes) (c : Bytes) (pk : Nat) (k : Const) (text : Bytes) (oid : Nat)
    (site site' : Site) (htable : KeyedTable sess W s.relName sch defs rows) (hpk : sch.pkIndex = some pk)
    (hwhere : s.whereClause = some (.binary (str "=") (.column fields) (.const k)))
    (hlit : literal k = some (text, oid)) (href : RefersTo env s fields c) (hci : sch.colIndex env c = some pk)
    (hcomes : ComesToKey env s defs c) : (Transparent env order sess W S s params sch rows site site' ↔
      ∀ r ∈ rows, ∀ t, cellAt r.cells pk = some t → compareCells env t (sch.oidAt pk) text oid = .eq → t = text) ∧
    ((isNumericOID (sch.oidAt pk) && isNumericOID oid) = false →
      Transparent env order sess W S s params sch rows site site') ∧
    (EnvLaws env → sch.oidAt pk = OIDInt4 ∨ sch.oidAt pk = OIDInt8 → oid = OIDInt4 →
      (∃ i, text = formatInt i ∧ ExactInt i) →
      (∀ r ∈ rows, ∀ t, cellAt r.cells pk = some t → ∃ i, t = formatInt i ∧ ExactInt i) →
      Transparent env order sess W S s params sch rows site site') := by
  obtain ⟨out, hout, hperm⟩ := htable.keyed.pointGet htable.main htable.scanned hpk text
  have hfrom : fromRows env order sess W S s params (rows.map ScanRow.cells) = .ok ⟨out, true⟩ := by
    simp only [fromRows, htable.plan_key horder hpk hwhere hlit href hci hcomes hout, bind, Except.bind]
  have hkeep : ∀ r ∈ rows, ∀ st, whereKeeps env sess sch s.relAlias params s.whereClause r.cells st =
      .ok (keyEquals env sch pk text oid r.cells) := by
    intro r _ st
    rw [hwhere]
    exact whereKeeps_equals (href.eval hci r.cells) hlit st
  have hiff : Transparent env order sess W S s params sch rows site site' ↔
      ∀ r ∈ rows, ∀ t, cellAt r.cells pk = some t → compareCells env t (sch.oidAt pk) text oid = .eq → t = text := by
    have halike : Transparent env order sess W S s params sch rows site site' ↔
        SelectsAlike (whereKeeps env sess sch s.relAlias params s.whereClause) out (rows.map ScanRow.cells) site site' := by
      constructor
      · rintro ⟨scan, kept, all, hscan, hkept⟩
        cases hfrom.symm.trans hscan
        exact ⟨kept, all, hkept⟩
      · rintro ⟨kept, all, hkept⟩
        exact ⟨_, kept, all, hfrom, hkept⟩
    rw [halike, selectsAlike_iff hperm hkeep]
    refine forall₂_congr fun r _ => ?_
    unfold keyEquals
    cases cellAt r.cells pk with
    | none | some t => simp
  refine ⟨hiff, fun htext => ?_, fun hlaws hint hoid hcanon hall => ?_⟩
  · rw [hiff]
    intro r _ t _ heq
    unfold compareCells at heq
    rw [htext] at heq
    exact compareBytes_eq.mp heq
  · rw [hiff]
    intro r hr t ht heq
    obtain ⟨i, rfl, hi⟩ := hcanon
    obtain ⟨j, rfl, hj⟩ := hall r hr t ht
    have hnum : isNumericOID (sch.oidAt pk) = true ∧ sch.oidAt pk ≠ OIDNumeric := by
      rcases hint with h | h
      · exact ⟨by rw [h]; decide, by rw [h]; decide⟩
      · exact ⟨by rw [h]; decide, by rw [h]; decide⟩
    have hint64 : ∀ {i : Int}, ExactInt i → inInt64 i = true := by
      intro i hi
      simp only [ExactInt] at hi
      simp only [inInt64, Bool.and_eq_true, decide_eq_true_eq]
      omega
    unfold compareCells at heq
    rw [hnum.1, hoid, if_pos (by decide), if_neg (by simp only [hnum.2, false_or]; decide),
      hlaws.compareFloat_int (parseInt_formatInt (hint64 hj)) (parseInt_formatInt (hint64 hi)) hj hi,
      compare_eq_iff_eq] at heq
    rw [heq]

/-- CREATE TABLE k (id int4 PRIMARY KEY) -/
def createKeys : Call := createKeyed "k" "int4" []

def insertId (id : String) : Call := insertValues "main" "k" [.int (str id)]

def keysSchema : TableSchema := keyedSchema "k" OIDInt4 []

def whereKey : Expr := .binary (str "=") (.column [str "id"]) (.const (.int (str n)))

def selectKey : SelectStmt := ⟨str "k", [], some (whereKey n), [], none, false⟩

def keysRow (id : String) : ScanRow := keyedRow "k" [id]

theorem exists_keys : ∃ db, Reach (Db.step int4Env) (fun _ _ => True) Db.empty db ∧
    KeyedTable (demoSession "main") db.map (str "k") keysSchema [] [keysRow "1", keysRow "2"] := by
  obtain ⟨db, hreach, hsch, hdefs, hrows⟩ := exists_run int4Env [createKeys, insertId "1", insertId "2"]
    (fun db => resolvedIn (str "n") db.map (str "k") = some keysSchema ∧
      indexesIn (str "n") db.map (str "k") = some [] ∧
      (rowsIn (str "n") db.map (str "k") 1).toOption = some [keysRow "1", keysRow "2"]) (by decide +kernel)
  refine ⟨db, hreach, rfl, hsch, hdefs, ok_of_toOption hrows, 0, rfl, ?_⟩
  intro r hr
  rcases mem_pair.mp hr with rfl | rfl
  · exact ⟨_, rfl, rfl⟩
  · exact ⟨_, rfl, rfl⟩

theorem refersTo_key : RefersTo int4Env (selectKey n) [str "id"] (str "id") := ⟨by decide, fun _ => rfl, .inl rfl⟩

theorem comesToKey : ComesToKey int4Env (selectKey n) [] (str "id") := ⟨fun _ => rfl, nofun⟩

/-- WHERE id = 2 finds the row. -/
theorem point_lookup_two : ∃ db, Reach (Db.step int4Env) (fun _ _ => True) Db.empty db ∧
    Transparent int4Env id (demoSession "main") db.map db.map (selectKey "2") [] keysSchema [keysRow "1", keysRow "2"]
      (Site.root 0) (Site.root 1) := by
  obtain ⟨db, hreach, htable⟩ := exists_keys
  refine ⟨db, hreach, (point_lookup_iff int4Env id (fun l => List.Perm.refl l) _ _ _ (selectKey "2") _ _ _ _ [str "id"]
    (str "id") 0 (.int (str "2")) (str "2") OIDInt4 _ _ htable rfl rfl rfl (refersTo_key "2") rfl (comesToKey "2")).1.mpr ?_⟩
  intro r hr t ht
  rcases mem_pair.mp hr with rfl | rfl
  · cases ht
    decide
  · cases ht
    exact fun _ => rfl

/-- WHERE id = 01 does not find the row of 1, which the full scan keeps. -/
theorem key_spelling_loses_row : ∃ db, Reach (Db.step int4Env) (fun _ _ => True) Db.empty db ∧
    KeyedTable (demoSession "main") db.map (str "k") keysSchema [] [keysRow "1", keysRow "2"] ∧
    fromRows int4Env id (demoSession "main") db.map db.map (selectKey "01") [] [[some (str "1")], [some (str "2")]] =
      .ok ⟨[], true⟩ ∧
    filterRows (whereKeeps int4Env (demoSession "main") keysSchema (str "k") [] (some (whereKey "01")))
      [[some (str "1")], [some (str "2")]] (Site.root 1) = .ok [[some (str "1")]] := by
  obtain ⟨db, hreach, htable⟩ := exists_keys
  refine ⟨db, hreach, htable, ?_, by decide +kernel⟩
  have hplan : planIndexScan int4Env id (demoSession "main") db.map db.map (selectKey "01") [] = .ok (some ⟨[], true⟩) := by
    obtain ⟨out, hout, hperm⟩ :=
      htable.keyed.pointGet htable.main htable.scanned (rfl : keysSchema.pkIndex = some 0) (str "01")
    obtain rfl : out = [] := List.Perm.eq_nil (hperm.trans (by decide))
    exact htable.plan_key (fun l => List.Perm.refl l) rfl rfl rfl (refersTo_key "01") rfl (comesToKey "01") hout
  rw [fromRows, hplan]
  rfl

/-! ## Expressions -/

/-- The entries of an index are those of the rows, whose tuples do not depend on the moment. -/
structure UpToDate (ns : Bytes) (W : State) (table : Bytes) (sch : TableSchema) (d : IndexDef) (rows : List ScanRow)
    (tuple : Data → Option Bytes) : Prop where
  tuples : ∀ r ∈ rows, ∀ site, indexedTuple env sch d r.cells site = .ok (tuple r.cells)
  entries : EntriesOf ns W table sch d tuple

/-- The rows of the lookup that WHERE keeps are those of the full scan. -/
def ExprTransparent (sess : Session) (W : State) (s : SelectStmt) (params : Data) (sch : TableSchema)
    (defs : List IndexDef) (rows : List ScanRow) (site site' : Site) : Prop :=
  ∃ out, tryExprEquality env sess W s params sch defs = .ok (some out) ∧
    SelectsAlike (whereKeeps env sess sch s.relAlias params s.whereClause) out (rows.map ScanRow.cells) site site'

/-- What follows the tuple in the key of an entry. -/
def pkTail (r : ScanRow) : Bytes :=
  slash :: (putUint32 (primaryKeyBytes sch r.cells r.key).length ++ primaryKeyBytes sch r.cells r.key)

/-- The entry of the row lies in the range of the text: from its code word to 0xFF behind it. -/
def InTextRange (text : Bytes) (tuple : Option Bytes) (r : ScanRow) : Prop :=
  ∃ t, tuple = some t ∧ encodeOrderedText text ≤ t ++ pkTail sch r ∧ t ++ pkTail sch r ≤ encodeOrderedText text ++ [255]

section expressions
variable {env sch} {sess : Session} {W : State} {s : SelectStmt} {params : Data}
  {defs : List IndexDef} {rows : List ScanRow} {d : IndexDef} {text : Bytes} {r : ScanRow}

theorem tryExprEquality_found (h : exprLookup env s params defs = some (d, text)) :
    tryExprEquality env sess W s params sch defs =
      (scanTuple sess W s.relName sch d (encodeOrderedText text)).map some := by
  simp only [tryExprEquality, h]
  cases scanTuple sess W s.relName sch d (encodeOrderedText text) <;> rfl

theorem indexedTuple_expr {c expr : Bytes} (hcols : d.columns = [c]) (hexprs : d.exprs = [expr]) (hne : expr ≠ [])
    (hwhere : d.whereText = []) (cells : Data) (site : Site) :
    indexedTuple env sch d cells site = encodeIndexExpr env sch d.table expr cells site.r.l := by
  have hexpr : d.isExpr = true := by simp [IndexDef.isExpr, hexprs, hne]
  have hget : [expr].getD 0 [] = expr := rfl
  simp only [indexedTuple, hwhere, ne_eq, not_true_eq_false, if_false, bind, Except.bind, if_true, encodeIndexKey, hexpr,
    hcols, hexprs, zipIdx_cons, zipIdx_nil, map_cons, map_nil, hget, hne, not_false_eq_true,
    concatParts, Site.nth]
  cases encodeIndexExpr env sch d.table expr cells site.r.l with
  | error e => rfl
  | ok o =>
    cases o with
    | none => rfl
    | some t => simp

theorem within_iff_inTextRange (hmain : sess.branch = mainBranch) (tuple : Option Bytes) :
    (entryAt sess.ns sch d tuple r).any (fun e => notBelow (some (indexPrefix sess d ++ encodeOrderedText text)) e.1 &&
      notAbove (some (indexPrefix sess d ++ encodeOrderedText text ++ [255])) e.1) = true ↔ InTextRange sch text tuple r := by
  cases tuple with
  | none => simp [entryAt, InTextRange]
  | some t =>
    have hprefix : indexPrefix sess d = indexColumnPrefix sess.ns mainBranch d.table d.name := by rw [indexPrefix, hmain]
    simp only [entryAt, map_some, any_some, indexKey_eq, hprefix, notBelow, notAbove, append_assoc,
      append_lt_append_iff, Bool.and_eq_true, Bool.not_eq_true', decide_eq_false_iff_not, not_lt, InTextRange, pkTail,
      Option.some.injEq, exists_eq_left']

theorem inTextRange_text (v : Bytes) : InTextRange sch text (some (encodeOrderedText v)) r ↔ v = text := by
  constructor
  · rintro ⟨t, ht, hlo, hhi⟩
    cases ht
    rcases lt_trichotomy v text with h | h | h
    · exact absurd hlo (not_le.mpr (by simpa using (encodeOrderedText_before h).append_lt _ []))
    · exact h
    · exact absurd hhi (not_le.mpr ((encodeOrderedText_before h).append_lt _ _))
  · rintro rfl
    refine ⟨_, rfl, ?_, ?_⟩
    · exact not_lt.mp fun h => not_lt_nil _ ((append_lt_append_iff _).mp (by simpa using h))
    · exact le_of_lt ((append_lt_append_iff _).mpr (cons_lt_cons_iff.mpr (.inl (by decide))))

theorem head_encodeOrderedText (hascii : ∀ b ∈ text, b.val < 127) :
    ∃ b w, encodeOrderedText text = b :: w ∧ b.val < 127 := by
  cases text with
  | nil => exact ⟨0, [0], rfl, by decide⟩
  | cons b s =>
    by_cases hb : b = 0
    · exact ⟨0, 255 :: encodeOrderedText s, by rw [encodeOrderedText, if_pos hb], by decide⟩
    · exact ⟨b, encodeOrderedText s, by rw [encodeOrderedText, if_neg hb], hascii b mem_cons_self⟩

theorem not_inTextRange_int (hascii : ∀ b ∈ text, b.val < 127) {i : Int} (hi : ExactInt i) :
    ¬InTextRange sch text (some (putUint64 (i + 2 ^ 63).toNat)) r := by
  rintro ⟨t, ht, -, hhi⟩
  cases ht
  obtain ⟨b, w, hw, hb⟩ := head_encodeOrderedText hascii
  have hhead : ∃ c u, putUint64 (i + 2 ^ 63).toNat = c :: u ∧ 127 ≤ c.val := by
    refine ⟨_, _, rfl, ?_⟩
    simp only [ExactInt] at hi
    simp only [Fin.ofNat]
    omega
  obtain ⟨c, u, hu, hc⟩ := hhead
  rw [hw, hu] at hhi
  refine absurd hhi (not_le.mpr (cons_lt_cons_iff.mpr (.inl ?_)))
  rw [Fin.lt_def]
  omega

end expressions

/-- WHERE e = k through an index on e answers as the full scan does exactly when the entry of every row that WHERE
keeps lies in the range of the text of k. Where the values of e are coded as texts, those rows have entries whose
value is spelled as k; where they are integers, there must be no such row. -/
theorem expr_lookup_iff (env : Env) (sess : Session) (W : State) (s : SelectStmt) (params : Data)
    (sch : TableSchema) (defs : List IndexDef) (rows : List ScanRow) (d : IndexDef) (text : Bytes)
    (tuple : Data → Option Bytes) (Q : Data → Bool) (site site' : Site)
    (htable : KeyedTable sess W s.relName sch defs rows) (hfound : exprLookup env s params defs = some (d, text))
    (hindex : UpToDate env sess.ns W s.relName sch d rows tuple)
    (hQ : ∀ r ∈ rows, ∀ st, whereKeeps env sess sch s.relAlias params s.whereClause r.cells st = .ok (Q r.cells)) :
    (ExprTransparent env sess W s params sch defs rows site site' ↔
      ∀ r ∈ rows, Q r.cells = true → InTextRange sch text (tuple r.cells) r) ∧
    ((∀ r ∈ rows, ∀ t, tuple r.cells = some t → ∃ v, t = encodeOrderedText v) →
      (ExprTransparent env sess W s params sch defs rows site site' ↔
        ∀ r ∈ rows, Q r.cells = true → tuple r.cells = some (encodeOrderedText text))) ∧
    ((∀ r ∈ rows, ∀ t, tuple r.cells = some t → ∃ i, ExactInt i ∧ t = putUint64 (i + 2 ^ 63).toNat) →
      (∀ b ∈ text, b.val < 127) →
      (ExprTransparent env sess W s params sch defs rows site site' ↔ ∀ r ∈ rows, Q r.cells = false)) := by
  have hiff : ExprTransparent env sess W s params sch defs rows site site' ↔
      ∀ r ∈ rows, Q r.cells = true → InTextRange sch text (tuple r.cells) r := by
    obtain ⟨out, hscan, hperm⟩ := htable.keyed.scanRange htable.main htable.scanned hindex.entries
      (some (indexPrefix sess d ++ encodeOrderedText text)) (some (indexPrefix sess d ++ encodeOrderedText text ++ [255])) false
      fun _ => rfl
    have htry : tryExprEquality env sess W s params sch defs = .ok (some out) := by
      rw [tryExprEquality_found hfound, scanTuple, hscan]
      rfl
    have halike : ExprTransparent env sess W s params sch defs rows site site' ↔
        SelectsAlike (whereKeeps env sess sch s.relAlias params s.whereClause) out (rows.map ScanRow.cells) site site' := by
      simp only [ExprTransparent, htry, Except.ok.injEq, Option.some.injEq, exists_eq_left']
    rw [halike, selectsAlike_iff hperm hQ]
    exact forall₂_congr fun r _ => imp_congr_right fun _ => within_iff_inTextRange htable.main (tuple r.cells)
  refine ⟨hiff, fun htexts => ?_, fun hints hascii => ?_⟩
  · rw [hiff]
    refine forall₂_congr fun r hr => imp_congr_right fun _ => ?_
    cases ht : tuple r.cells with
    | none => simp [InTextRange]
    | some t =>
      obtain ⟨v, rfl⟩ := htexts r hr t ht
      rw [inTextRange_text, Option.some.injEq, encodeOrderedText_injective.eq_iff]
  · rw [hiff]
    refine forall₂_congr fun r hr => ?_
    have hout : ¬InTextRange sch text (tuple r.cells) r := by
      cases ht : tuple r.cells with
      | none => simp [InTextRange]
      | some t =>
        obtain ⟨i, hi, rfl⟩ := hints r hr t ht
        exact not_inTextRange_int hascii hi
    simp [hout]

/-- Expressions are stored as their texts. -/
def storedEnv : Env :=
  { int4Env with
    parseExpr := readStored
    deparseExpr := deparseExpr
    oidForTypeName := fun t => int4Env.oidForTypeName (lowerText t) }

/-- CREATE TABLE e (id int4 PRIMARY KEY, a int4, v text) -/
def createExpr : Call := createKeyed "e" "int4" [.plain "a" "int4", .plain "v" "text"]

def insertExpr (id a v : String) : Call := insertValues "main" "e" [.int (str id), .int (str a), .string (str v)]

def indexExpr (e : Expr) : Call := ⟨demoSession "main", .createIndex ⟨str "x", str "e", [.expr e], none, false⟩, []⟩

def exprSchema : TableSchema := keyedSchema "e" OIDInt4 [.plain "a" OIDInt4, .plain "v" OIDText]

def exprIndex (text : String) : IndexDef := ⟨str "x", str "e", [[]], false, [str text], []⟩

def exprRow (id a v : String) : ScanRow := keyedRow "e" [id, a, v]

def plusOne : Expr := .binary (str "+") (.column [str "a"]) (.const (.int (str "1")))

def asText : Expr := .typeCast (.column [str "v"]) (str "text")

def selectExpr (e : Expr) (k : Const) : SelectStmt :=
  ⟨str "e", [], some (.binary (str "=") e (.const k)), [], none, false⟩

def exprRows : List ScanRow := [exprRow "1" "5" "x", exprRow "2" "7" "y"]

/-- The entries that the rows have in an index with the tuples. -/
def exprEntries (d : IndexDef) (tuple : Data → Option Bytes) : List (Bytes × Val) :=
  exprRows.filterMap fun r => entryAt (str "n") exprSchema d (tuple r.cells) r

theorem exists_expr (e : Expr) (d : IndexDef) (tuple : Data → Option Bytes)
    (hrun : (runAll (Db.step storedEnv) (fun _ _ => True) Db.empty
      ([createExpr, indexExpr e, insertExpr "1" "5" "x", insertExpr "2" "7" "y"].map fun c => (c, 0))).map
        (fun db => decide (resolvedIn (str "n") db.map (str "e") = some exprSchema ∧
          indexesIn (str "n") db.map (str "e") = some [d] ∧
          (rowsIn (str "n") db.map (str "e") 3).toOption = some exprRows ∧
          (∀ x ∈ db.map.scan (underPrefix (indexColumnPrefix (str "n") mainBranch d.table d.name)), x ∈ exprEntries d tuple) ∧
          ∀ x ∈ exprEntries d tuple, db.map.lookup x.1 = some x.2)) = some true) :
    ∃ db, Reach (Db.step storedEnv) (fun _ _ => True) Db.empty db ∧
      KeyedTable (demoSession "main") db.map (str "e") exprSchema [d] exprRows ∧
      EntriesOf (str "n") db.map (str "e") exprSchema d tuple := by
  obtain ⟨db, hreach, hsch, hdefs, hrows, hscan, hentries⟩ := exists_run storedEnv _ _ hrun
  refine ⟨db, hreach, ⟨rfl, hsch, hdefs, ok_of_toOption hrows, 0, rfl, ?_⟩,
    entriesOf_of_rows (ok_of_toOption hrows) hscan hentries⟩
  intro r hr
  rcases mem_pair.mp hr with rfl | rfl
  · exact ⟨_, rfl, rfl⟩
  · exact ⟨_, rfl, rfl⟩

theorem column_expr {c : Bytes} {i : Nat} (hci : exprSchema.colIndex storedEnv c = some i)
    (hkey : ∀ site, keyword storedEnv none site [c] = none) (cells : Data) (site : Site) :
    evalColumn storedEnv (rowScope storedEnv exprSchema (str "e") cells) site [c] =
      .ok ⟨cellAt cells i, exprSchema.oidAt i⟩ := by
  simp [evalColumn, rowScope, hkey, rowResolver, columnValue, hci]

theorem parse_stored {e : Expr} {text : Bytes} (htext : e.text = text) (hlower : e.lower = e) (hplain : e.isPlain = true)
    (hsteps : e.steps ≤ 4 * e.text.length + 4) : storedEnv.parseExpr text = .ok e := by
  have hread := readStored_text hplain hsteps
  rwa [htext, hlower] at hread

def textTuple : Option Bytes := (cellAt cells 2).map encodeOrderedText

theorem asText_parse : storedEnv.parseExpr (str "(v::text)") = .ok asText := by
  have hv : lowerText (str "v") = str "v" := by decide +kernel
  have htext : lowerText (str "text") = str "text" := by decide +kernel
  refine parse_stored (by decide +kernel) ?_ (by decide +kernel) (by decide +kernel)
  simp only [asText, Expr.spelled, map_cons, map_nil, hv, htext]

theorem upToDate_asText {db : Db}
    (hentries : EntriesOf (str "n") db.map (str "e") exprSchema (exprIndex "(v::text)") textTuple) :
    UpToDate storedEnv (str "n") db.map (str "e") exprSchema (exprIndex "(v::text)") exprRows textTuple := by
  refine ⟨fun r _ site => ?_, hentries⟩
  have hoid : storedEnv.oidForTypeName (str "text") = OIDText := by decide +kernel
  have hv := column_expr (by decide +kernel : exprSchema.colIndex storedEnv (str "v") = some 2) (fun _ => rfl) r.cells site.r.l
  rw [indexedTuple_expr rfl rfl (by decide +kernel : str "(v::text)" ≠ []) rfl]
  simp only [encodeIndexExpr, exprIndex, asText_parse, asText, Expr.eval, hv, hoid, bind, Except.bind, textTuple]
  cases cellAt r.cells 2 with
  | none | some t => rfl

/-- Whether WHERE v::text = 'y' keeps a row. -/
def textIsY : Bool := (cellAt cells 2).any fun t => compareCells storedEnv t OIDText (str "y") OIDText = .eq

theorem whereKeeps_asText (site : Site) :
    whereKeeps storedEnv (demoSession "main") exprSchema (str "e") [] (selectExpr asText (.string (str "y"))).whereClause
      cells site = .ok (textIsY cells) := by
  refine whereKeeps_equals (k := .string (str "y")) (v := ⟨cellAt cells 2, OIDText⟩) (fun st => ?_) rfl site
  have href : RefersTo storedEnv (selectExpr asText (.string (str "y"))) [str "v"] (str "v") :=
    ⟨by decide, fun _ => rfl, .inl rfl⟩
  have hoid : storedEnv.oidForTypeName (str "text") = OIDText := by decide +kernel
  have hv : (Expr.column [str "v"]).eval storedEnv
      (rowsScope storedEnv (demoSession "main") [] [⟨str "e", exprSchema, cells⟩]) st = .ok ⟨cellAt cells 2, OIDText⟩ :=
    href.eval (by decide +kernel : exprSchema.colIndex storedEnv (str "v") = some 2) cells st
  rw [asText, Expr.eval, hv, hoid]
  rfl

/-- WHERE v::text = 'y' finds the row. -/
theorem expr_lookup_text : ∃ db, Reach (Db.step storedEnv) (fun _ _ => True) Db.empty db ∧
    ExprTransparent storedEnv (demoSession "main") db.map (selectExpr asText (.string (str "y"))) [] exprSchema
      [exprIndex "(v::text)"] exprRows (Site.root 0) (Site.root 1) := by
  obtain ⟨db, hreach, htable, hentries⟩ := exists_expr asText (exprIndex "(v::text)") textTuple (by decide +kernel)
  refine ⟨db, hreach, ((expr_lookup_iff storedEnv _ _ (selectExpr asText (.string (str "y"))) _ _ _ _ _ (str "y") textTuple
    textIsY _ _ htable (by decide +kernel) (upToDate_asText hentries)
    (fun r _ st => whereKeeps_asText r.cells st)).2.1 ?_).mpr ?_⟩
  · intro r _ t ht
    obtain ⟨v, -, rfl⟩ := map_eq_some_iff.mp ht
    exact ⟨v, rfl⟩
  · decide +kernel

def plusTuple : Option Bytes := ((cellAt cells 1).bind parseInt).map fun i => putUint64 (i + 1 + 2 ^ 63).toNat

theorem plusOne_parse : storedEnv.parseExpr (str "(a + 1)") = .ok plusOne := by
  have ha : lowerText (str "a") = str "a" := by decide +kernel
  refine parse_stored (by decide +kernel) ?_ (by decide +kernel) (by decide +kernel)
  simp only [plusOne, Expr.spelled, map_cons, map_nil, ha, Const.spelled]

theorem upToDate_plusOne {db : Db}
    (hentries : EntriesOf (str "n") db.map (str "e") exprSchema (exprIndex "(a + 1)") plusTuple) :
    UpToDate storedEnv (str "n") db.map (str "e") exprSchema (exprIndex "(a + 1)") exprRows plusTuple := by
  refine ⟨fun r hr site => ?_, hentries⟩
  have ha := column_expr (by decide +kernel : exprSchema.colIndex storedEnv (str "a") = some 1) (fun _ => rfl) r.cells site.r.l.l
  have hsum : ∀ r ∈ exprRows, ∃ t, evalBinary storedEnv (str "+") ⟨cellAt r.cells 1, OIDInt4⟩ ⟨some (str "1"), OIDInt4⟩ =
      .ok ⟨some t, OIDInt4⟩ ∧ (orderEncode storedEnv OIDInt4 t).map some = .ok (plusTuple r.cells) := by
    intro r hr
    rcases mem_pair.mp hr with rfl | rfl
    · exact ⟨str "6", ok_of_toOption (by decide +kernel), ok_of_toOption (by decide +kernel)⟩
    · exact ⟨str "8", ok_of_toOption (by decide +kernel), ok_of_toOption (by decide +kernel)⟩
  obtain ⟨t, hplus, hcode⟩ := hsum r hr
  have heval : plusOne.eval storedEnv (rowScope storedEnv exprSchema (str "e") r.cells) site.r.l = .ok ⟨some t, OIDInt4⟩ := by
    rw [plusOne, Expr.eval]
    simp only [Expr.eval, ha, bind, Except.bind]
    exact hplus
  rw [indexedTuple_expr rfl rfl (by decide +kernel : str "(a + 1)" ≠ []) rfl, ← hcode]
  have hoid : ¬OIDInt4 = 0 := by decide
  simp only [encodeIndexExpr, exprIndex, plusOne_parse, heval, hoid, if_false, bind, Except.bind]
  cases orderEncode storedEnv OIDInt4 t with
  | error e | ok w => rfl

/-- WHERE a + 1 = 6 does not find the row of 5, which the full scan keeps. -/
theorem expr_lookup_loses_row : ∃ db, Reach (Db.step storedEnv) (fun _ _ => True) Db.empty db ∧
    KeyedTable (demoSession "main") db.map (str "e") exprSchema [exprIndex "(a + 1)"] exprRows ∧
    UpToDate storedEnv (str "n") db.map (str "e") exprSchema (exprIndex "(a + 1)") exprRows plusTuple ∧
    tryExprEquality storedEnv (demoSession "main") db.map (selectExpr plusOne (.int (str "6"))) [] exprSchema
      [exprIndex "(a + 1)"] = .ok (some []) ∧
    filterRows (whereKeeps storedEnv (demoSession "main") exprSchema (str "e") []
      (selectExpr plusOne (.int (str "6"))).whereClause) (exprRows.map ScanRow.cells) (Site.root 1) =
        .ok [(exprRow "1" "5" "x").cells] := by
  obtain ⟨db, hreach, htable, hentries⟩ := exists_expr plusOne (exprIndex "(a + 1)") plusTuple (by decide +kernel)
  refine ⟨db, hreach, htable, upToDate_plusOne hentries, ?_, ok_of_toOption (by decide +kernel)⟩
  obtain ⟨out, hscan, hperm⟩ := htable.keyed.scanRange htable.main htable.scanned hentries
      (some (indexPrefix (demoSession "main") (exprIndex "(a + 1)") ++ encodeOrderedText (str "6")))
      (some (indexPrefix (demoSession "main") (exprIndex "(a + 1)") ++ encodeOrderedText (str "6") ++ [255])) false
      fun _ => rfl
  have hfound : exprLookup storedEnv (selectExpr plusOne (.int (str "6"))) [] [exprIndex "(a + 1)"] =
      some (exprIndex "(a + 1)", str "6") := by decide +kernel
  obtain rfl : out = [] := List.Perm.eq_nil (hperm.trans (by decide +kernel))
  rw [tryExprEquality_found hfound, scanTuple]
  exact congrArg (Except.map some) hscan

end BasuyuDb.Executor
