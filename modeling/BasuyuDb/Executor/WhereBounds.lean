import BasuyuDb.Executor.OrderBy

/-
  A WHERE that is an AND of comparisons of a column with a constant of its type, and what the
  planner of index_scan.go takes from it. It reads no clock, so it is a property of the row, and the
  bounds and equalities taken from it hold of every row that satisfies it, in the order of the
  index encoding.
-/

namespace BasuyuDb.Executor
open KvLib Storage List Option

variable (env : Env)

/-! ## Cells and constants of a type -/

/-- The integers up to which float64 is exact. -/
def ExactInt (i : Int) : Prop := -(2 : Int) ^ 53 ≤ i ∧ i ≤ 2 ^ 53

instance (i : Int) : Decidable (ExactInt i) := inferInstanceAs (Decidable (_ ∧ _))

/-- What the texts of integers and booleans read as in `strconv` and `strings`. -/
structure EnvLaws : Prop where
  compareFloat_int : ∀ {a b : Bytes} {i j : Int}, parseInt a = some i → parseInt b = some j → ExactInt i →
    ExactInt j → env.compareFloat a b = Ord.compare i j
  trimSpace_int : ∀ {a : Bytes} {i : Int}, parseInt a = some i → env.trimSpace a = a
  truthy : isTruthy env (str "t") = true ∧ isTruthy env (str "true") = true
  falsy : isTruthy env (str "f") = false ∧ isTruthy env (str "false") = false

/-- The text of a cell of the type. -/
def TypedCell (oid : Nat) (t : Bytes) : Prop :=
  (oid = OIDInt4 ∨ oid = OIDInt8 → ∃ i, parseInt t = some i ∧ ExactInt i) ∧
    (oid = OIDBool → t = str "t" ∨ t = str "f")

/-- A constant of the type; parameters are texts. -/
inductive TypedConst (params : Data) : Nat → Expr → Prop where
  | int {oid : Nat} {val : Bytes} {i : Int} (hoid : oid = OIDInt4 ∨ oid = OIDInt8)
      (hval : parseInt val = some i) (hi : ExactInt i) : TypedConst params oid (.const (.int val))
  | negative {oid : Nat} {val : Bytes} {i : Int} (hoid : oid = OIDInt4 ∨ oid = OIDInt8)
      (hval : parseInt val = some i) : TypedConst params oid (.minus (.const (.int val)))
  | isTrue : TypedConst params OIDBool (.const (.bool (str "true")))
  | isFalse : TypedConst params OIDBool (.const (.bool (str "false")))
  | text (val : Bytes) : TypedConst params OIDText (.const (.string val))
  | param {n : Nat} {p : Datum} (hn : n ≠ 0) (hp : params[n - 1]? = some p) : TypedConst params OIDText (.param n)

/-- Two code words compare as `o` says, whatever follows them. -/
def Agrees (o : Ordering) (u w : Bytes) : Prop :=
  match o with
  | .lt => Before u w
  | .eq => u = w
  | .gt => Before w u

section typed
variable {env} {params : Data} {oid : Nat} {k : Expr} {t : Bytes}

theorem orderEncode_int (hlaws : EnvLaws env) (hoid : oid = OIDInt4 ∨ oid = OIDInt8) {i : Int}
    (ht : parseInt t = some i) : orderEncode env oid t = .ok (putUint64 (i + 2 ^ 63).toNat) := by
  unfold orderEncode
  rw [if_pos hoid, hlaws.trimSpace_int ht, ht]

theorem orderEncode_bool : orderEncode env OIDBool t = .ok [if isTruthy env t then 1 else 0] := rfl

theorem TypedConst.eval (env : Env) (hk : TypedConst params oid k) :
    ∃ v, ∀ sc site, sc.params = params → k.eval env sc site = .ok v := by
  cases hk with
  | int hoid hval hi | isTrue | isFalse | text val => exact ⟨_, fun sc site _ => by rw [Expr.eval]⟩
  | @negative oid val i hoid hval =>
    refine ⟨⟨some (formatInt (wrap64 (-i))), OIDInt4⟩, fun sc site _ => ?_⟩
    have hne : ¬OIDInt4 = OIDFloat8 := by decide
    simp only [Expr.eval, evalConst, negate, bind, Except.bind, getD_some, hval, hne, if_false]
  | @param n p hn hp =>
    refine ⟨⟨p, OIDText⟩, fun sc site h => ?_⟩
    simp only [Expr.eval, evalParam, h, hp, if_neg hn]

theorem TypedConst.encodes (hlaws : EnvLaws env) (hk : TypedConst params oid k) {text : Bytes}
    (htext : resolveConstText params k = some text) : ∃ w, orderEncode env oid text = .ok w := by
  cases hk with
  | int hoid hval hi =>
    cases htext
    exact ⟨_, orderEncode_int hlaws hoid hval⟩
  | negative hoid hval => cases htext
  | isTrue | isFalse => exact ⟨_, orderEncode_bool⟩
  | text val | param hn hp => exact ⟨_, orderEncode_text (by decide) (by decide) (by decide) _⟩

theorem inInt64_of_parseInt {i : Int} (h : parseInt t = some i) : inInt64 i = true := (filter_eq_some_iff.mp h).2

theorem agrees_int {i j : Int} (hi : inInt64 i = true) (hj : inInt64 j = true) :
    Agrees (Ord.compare i j) (putUint64 (i + 2 ^ 63).toNat) (putUint64 (j + 2 ^ 63).toNat) := by
  simp only [inInt64, Bool.and_eq_true, decide_eq_true_eq] at hi hj
  rcases lt_trichotomy i j with h | rfl | h
  · rw [compare_lt_iff_lt.mpr h]
    exact putUint64_before (by omega) (by omega)
  · rw [compare_eq_iff_eq.mpr rfl]
    exact rfl
  · rw [compare_gt_iff_gt.mpr h]
    exact putUint64_before (by omega) (by omega)

theorem agrees_text (a b : Bytes) : Agrees (compareBytes a b) (encodeOrderedText a) (encodeOrderedText b) := by
  unfold compareBytes
  rcases lt_trichotomy a b with h | rfl | h
  · rw [if_pos h]
    exact encodeOrderedText_before h
  · rw [if_neg (lt_irrefl _), if_pos rfl]
    exact rfl
  · rw [if_neg h.le.not_gt, if_neg h.ne']
    exact encodeOrderedText_before h

theorem compareBytes_swap (a b : Bytes) : compareBytes b a = (compareBytes a b).swap := by
  unfold compareBytes
  rcases lt_trichotomy a b with h | rfl | h
  · rw [if_pos h, if_neg h.le.not_gt, if_neg h.ne']
    rfl
  · rw [if_neg (lt_irrefl _), if_pos rfl]
    rfl
  · rw [if_pos h, if_neg h.le.not_gt, if_neg h.ne']
    rfl

theorem TypedConst.agrees (hlaws : EnvLaws env) (hk : TypedConst params oid k) (ht : TypedCell oid t)
    {text : Bytes} (htext : resolveConstText params k = some text) :
    ∃ kt koid u w, (∀ sc site, sc.params = params → k.eval env sc site = .ok ⟨some kt, koid⟩) ∧
      orderEncode env oid t = .ok u ∧ orderEncode env oid text = .ok w ∧ Agrees (compareCells env t oid kt koid) u w ∧
      compareCells env kt koid t oid = (compareCells env t oid kt koid).swap := by
  cases hk with
  | @int oid val j hoid hval hj =>
    obtain rfl := some.inj htext
    obtain ⟨i, hi, hexact⟩ := ht.1 hoid
    have hnum : isNumericOID oid = true := by
      rcases hoid with rfl | rfl
      · rfl
      · rfl
    have hnumeric : ¬(oid = OIDNumeric ∨ OIDInt4 = OIDNumeric) := by
      rcases hoid with rfl | rfl
      · decide
      · decide
    have hcells : compareCells env t oid val OIDInt4 = Ord.compare i j := by
      unfold compareCells
      rw [if_pos (by rw [hnum]; rfl), if_neg hnumeric, hlaws.compareFloat_int hi hval hexact hj]
    have hswap : compareCells env val OIDInt4 t oid = Ord.compare j i := by
      unfold compareCells
      rw [if_pos (by rw [hnum]; rfl), if_neg fun h => hnumeric h.symm, hlaws.compareFloat_int hval hi hj hexact]
    refine ⟨val, OIDInt4, _, _, fun sc site _ => ?_, orderEncode_int hlaws hoid hi,
      orderEncode_int hlaws hoid hval, ?_, ?_⟩
    · rw [Expr.eval]
      rfl
    · rw [hcells]
      exact agrees_int (inInt64_of_parseInt hi) (inInt64_of_parseInt hval)
    · rw [hcells, hswap]
      exact (Std.OrientedOrd.eq_swap ..)
  | negative hoid hval => exact absurd htext (by simp [resolveConstText])
  | isTrue =>
    cases htext
    refine ⟨str "t", OIDBool, _, _, fun sc site _ => by rw [Expr.eval]; rfl, orderEncode_bool,
      orderEncode_bool, ?_, compareBytes_swap _ _⟩
    rw [hlaws.truthy.2]
    rcases ht.2 rfl with rfl | rfl
    · rw [hlaws.truthy.1]
      exact (rfl : ([1] : Bytes) = [1])
    · rw [hlaws.falsy.1]
      exact Or.inl (by decide)
  | isFalse =>
    cases htext
    refine ⟨str "f", OIDBool, _, _, fun sc site _ => by rw [Expr.eval]; rfl, orderEncode_bool,
      orderEncode_bool, ?_, compareBytes_swap _ _⟩
    rw [hlaws.falsy.2]
    rcases ht.2 rfl with rfl | rfl
    · rw [hlaws.truthy.1]
      exact Or.inl (by decide)
    · rw [hlaws.falsy.1]
      exact (rfl : ([0] : Bytes) = [0])
  | text val =>
    obtain rfl := some.inj htext
    exact ⟨val, OIDText, _, _, fun sc site _ => by rw [Expr.eval]; rfl,
      orderEncode_text (by decide) (by decide) (by decide) _,
      orderEncode_text (by decide) (by decide) (by decide) _, agrees_text _ _, compareBytes_swap _ _⟩
  | @param n p hn hp =>
    have hp' : p = some text := by
      simpa [resolveConstText, hn, hp] using htext
    refine ⟨text, OIDText, _, _, fun sc site h => ?_, orderEncode_text (by decide) (by decide) (by decide) _,
      orderEncode_text (by decide) (by decide) (by decide) _, agrees_text _ _, compareBytes_swap _ _⟩
    simp only [Expr.eval, evalParam, h, hp, hp', if_neg hn]

end typed

/-! ## WHERE -/

/-- The comparisons of a WHERE that an index can serve. -/
def comparisonOps : List Bytes := [str "=", str "<", str "<=", str ">", str ">="]

/-- A name that lower-casing keeps. -/
def LowerFolds (c : Bytes) : Prop := env.fold (env.toLower c) = env.fold c

/-- The column `ci`, with cells of its type in the rows, and a constant of the type. -/
structure Operands (s : SelectStmt) (sch : TableSchema) (params : Data) (rows : List ScanRow)
    (fields : List Bytes) (c : Bytes) (ci : Nat) (k : Expr) : Prop where
  refers : RefersTo env s fields c
  lower : LowerFolds env c
  index : sch.colIndex env c = some ci
  const : TypedConst params (sch.oidAt ci) k
  cells : ∀ r ∈ rows, ∀ t, cellAt r.cells ci = some t → TypedCell (sch.oidAt ci) t

/-- An AND of comparisons of a column with a constant, in either order. -/
inductive Conjunction (s : SelectStmt) (sch : TableSchema) (params : Data) (rows : List ScanRow) :
    Expr → Prop where
  | colConst {op : Bytes} {fields : List Bytes} {c : Bytes} {ci : Nat} {k : Expr} (hop : op ∈ comparisonOps)
      (h : Operands env s sch params rows fields c ci k) :
      Conjunction s sch params rows (.binary op (.column fields) k)
  | constCol {op : Bytes} {fields : List Bytes} {c : Bytes} {ci : Nat} {k : Expr} (hop : op ∈ comparisonOps)
      (h : Operands env s sch params rows fields c ci k) :
      Conjunction s sch params rows (.binary op k (.column fields))
  | and {args : List Expr} (h : ∀ a ∈ args, Conjunction s sch params rows a) :
      Conjunction s sch params rows (.boolExpr .and args)

/-- WHERE on a row, as the full scan evaluates it. -/
def rowSatisfies (sess : Session) (s : SelectStmt) (sch : TableSchema) (params : Data) (w : Expr)
    (cells : Data) : Bool :=
  match w.eval env (rowsScope env sess params [⟨s.relAlias, sch, cells⟩]) (Site.root 0) with
  | .ok v => asBool v
  | .error _ => false

section eval
variable {env} {sess : Session} {s : SelectStmt} {sch : TableSchema} {params : Data}
  {rows : List ScanRow} {op : Bytes} {args : List Expr} {w : Expr}

theorem isComparison_of_mem (h : op ∈ comparisonOps) : isComparison op = true := by
  revert op
  decide

theorem RefersTo.eval {fields : List Bytes} {c : Bytes} {ci : Nat} (h : RefersTo env s fields c)
    (hci : sch.colIndex env c = some ci) (cells : Data) (site : Site) :
    (Expr.column fields).eval env (rowsScope env sess params [⟨s.relAlias, sch, cells⟩]) site =
      .ok ⟨cellAt cells ci, sch.oidAt ci⟩ := by
  have hkey : keyword env (some sess) site fields = none := by
    obtain ⟨-, hnil, rfl | ⟨q, rfl, -⟩⟩ := h
    · have huser : isUserKeyword (env.toLower c) = false := by
        by_contra hu
        have hnil' := hnil site
        simp only [niladicKeyword, Bool.not_eq_false] at hu hnil'
        rw [if_pos hu] at hnil'
        cases hnil'
      simp only [keyword, huser, Bool.false_eq_true, if_false]
      exact hnil site
    · rfl
  rw [Expr.eval]
  simp only [evalColumn, rowsScope, hkey]
  exact h.resolve hci cells

section operands
variable {fields : List Bytes} {c : Bytes} {ci : Nat} {k : Expr} {v : Value} {ps cells : Data} {site : Site}

theorem RefersTo.eval_left (h : RefersTo env s fields c) (hci : sch.colIndex env c = some ci)
    (hk : k.eval env (rowsScope env sess ps [⟨s.relAlias, sch, cells⟩]) site.r = .ok v) :
    (Expr.binary op (.column fields) k).eval env (rowsScope env sess ps [⟨s.relAlias, sch, cells⟩]) site =
      evalBinary env op ⟨cellAt cells ci, sch.oidAt ci⟩ v := by
  rw [Expr.eval, h.eval hci, hk]
  rfl

theorem RefersTo.eval_right (h : RefersTo env s fields c) (hci : sch.colIndex env c = some ci)
    (hk : k.eval env (rowsScope env sess ps [⟨s.relAlias, sch, cells⟩]) site.l = .ok v) :
    (Expr.binary op k (.column fields)).eval env (rowsScope env sess ps [⟨s.relAlias, sch, cells⟩]) site =
      evalBinary env op v ⟨cellAt cells ci, sch.oidAt ci⟩ := by
  rw [Expr.eval, h.eval hci, hk]
  rfl

end operands

theorem evalBinary_comparison (env : Env) (hop : op ∈ comparisonOps) (l r : Value) :
    ∃ v, evalBinary env op l r = .ok v := by
  unfold evalBinary
  split
  · rw [if_pos (isComparison_of_mem hop)]
    exact ⟨_, rfl⟩
  · exact ⟨_, rfl⟩

theorem evalAnd_eq {sc : Scope} {f : Expr → Bool}
    (h : ∀ a ∈ args, ∀ site, ∃ v, a.eval env sc site = .ok v ∧ asBool v = f a) (site : Site) :
    evalAnd env sc site args = .ok (args.all f) := by
  induction args generalizing site with
  | nil => rfl
  | cons a args ih =>
    obtain ⟨v, hv, hf⟩ := h a mem_cons_self site.l
    have ih := ih fun a' ha' => h a' (mem_cons_of_mem _ ha')
    unfold evalAnd
    simp only [hv, bind, Except.bind, hf, ih, all_cons]
    cases f a with
    | true | false => rfl

theorem satisfies_of_sites {cells : Data} {b : Bool}
    (h : ∀ site, ∃ v, w.eval env (rowsScope env sess params [⟨s.relAlias, sch, cells⟩]) site = .ok v ∧
      asBool v = b) : rowSatisfies env sess s sch params w cells = b := by
  obtain ⟨v, hv, hb⟩ := h (Site.root 0)
  unfold rowSatisfies
  rw [hv]
  exact hb

theorem eval_of_sites {cells : Data} {b : Bool}
    (h : ∀ st, ∃ v, w.eval env (rowsScope env sess params [⟨s.relAlias, sch, cells⟩]) st = .ok v ∧ asBool v = b)
    (site : Site) : ∃ v, w.eval env (rowsScope env sess params [⟨s.relAlias, sch, cells⟩]) site = .ok v ∧
      asBool v = rowSatisfies env sess s sch params w cells := by
  rw [satisfies_of_sites h]
  exact h site

theorem Conjunction.eval (sess : Session) (h : Conjunction env s sch params rows w) (cells : Data) (site : Site) :
    ∃ v, w.eval env (rowsScope env sess params [⟨s.relAlias, sch, cells⟩]) site = .ok v ∧
      asBool v = rowSatisfies env sess s sch params w cells := by
  induction h generalizing site with
  | @colConst op fields c ci k hop h =>
    obtain ⟨kv, hk⟩ := h.const.eval env
    obtain ⟨v, hv⟩ := evalBinary_comparison env hop ⟨cellAt cells ci, sch.oidAt ci⟩ kv
    exact eval_of_sites (fun _ => ⟨v, (h.refers.eval_left h.index (hk _ _ rfl)).trans hv, rfl⟩) site
  | @constCol op fields c ci k hop h =>
    obtain ⟨kv, hk⟩ := h.const.eval env
    obtain ⟨v, hv⟩ := evalBinary_comparison env hop kv ⟨cellAt cells ci, sch.oidAt ci⟩
    exact eval_of_sites (fun _ => ⟨v, (h.refers.eval_right h.index (hk _ _ rfl)).trans hv, rfl⟩) site
  | @and args h ih =>
    refine eval_of_sites
      (fun st => ⟨boolValue (args.all fun a => rowSatisfies env sess s sch params a cells), ?_, rfl⟩) site
    simp only [Expr.eval, evalAnd_eq ih, bind, Except.bind]

theorem Conjunction.satisfies_and (h : ∀ a ∈ args, Conjunction env s sch params rows a)
    (cells : Data) : rowSatisfies env sess s sch params (.boolExpr .and args) cells =
      args.all (fun a => rowSatisfies env sess s sch params a cells) := by
  refine satisfies_of_sites fun site => ⟨boolValue _, ?_, asBool_boolValue _⟩
  rw [Expr.eval]
  simp only [evalAnd_eq fun a ha st => (h a ha).eval sess cells st, bind, Except.bind]

theorem filterRows_of_eval {f : Data → Bool} {l : List Data} (h : ∀ cells site, ∃ v,
      w.eval env (rowsScope env sess params [⟨s.relAlias, sch, cells⟩]) site = .ok v ∧ asBool v = f cells) (site : Site) :
    filterRows (whereKeeps env sess sch s.relAlias params (some w)) l site = .ok (l.filter f) := by
  refine filterRows_of_keep (fun cells _ st => ?_) site
  obtain ⟨v, hv, hb⟩ := h cells st
  simp only [whereKeeps, hv, bind, Except.bind, hb]

end eval

/-! ## Bounds -/

/-- Bounds on a column that every row for which `Q` holds is within, in the order of the encoding. -/
structure SoundBounds (sch : TableSchema) (rows : List ScanRow) (Q : Data → Bool) (b : ColBounds)
    (ci : Nat) : Prop where
  lower : LowerFolds env b.col
  index : sch.colIndex env b.col = some ci
  lo : ∀ text, b.lo = some text → ∃ w, orderEncode env (sch.oidAt ci) text = .ok w ∧
    ∀ r ∈ rows, Q r.cells = true → ∃ t u, cellAt r.cells ci = some t ∧
      orderEncode env (sch.oidAt ci) t = .ok u ∧ (w = u ∨ Before w u)
  hi : ∀ text, b.hi = some text → ∃ w, orderEncode env (sch.oidAt ci) text = .ok w ∧
    ∀ r ∈ rows, Q r.cells = true → ∃ t u, cellAt r.cells ci = some t ∧
      orderEncode env (sch.oidAt ci) t = .ok u ∧ (u = w ∨ Before u w)

section bounds
variable {env} {sess : Session} {s : SelectStmt} {sch : TableSchema} {params : Data}
  {rows : List ScanRow} {Q : Data → Bool} {b : ColBounds} {ci : Nat} {op : Bytes} {w : Expr}

theorem SoundBounds.mono {Q' : Data → Bool}
    (h : SoundBounds env sch rows Q b ci) (hQ : ∀ cells, Q' cells = true → Q cells = true) :
    SoundBounds env sch rows Q' b ci where
  lower := h.lower
  index := h.index
  lo := fun text htext =>
    let ⟨w, hw, hall⟩ := h.lo text htext
    ⟨w, hw, fun r hr hq => hall r hr (hQ _ hq)⟩
  hi := fun text htext =>
    let ⟨w, hw, hall⟩ := h.hi text htext
    ⟨w, hw, fun r hr hq => hall r hr (hQ _ hq)⟩

theorem SoundBounds.merge {a : ColBounds} {cj : Nat}
    (ha : SoundBounds env sch rows Q a ci) (hb : SoundBounds env sch rows Q b cj)
    (hcol : env.equalFold a.col b.col = true) : SoundBounds env sch rows Q (mergeBounds a b) ci := by
  have hfold : env.fold a.col = env.fold b.col := by simpa [Env.equalFold] using hcol
  obtain rfl : ci = cj := some.inj (ha.index.symm.trans ((colIndex_congr hfold).trans hb.index))
  refine ⟨ha.lower, ha.index, fun text htext => ?_, fun text htext => ?_⟩
  · rcases or_eq_some_iff.mp htext with h | ⟨-, h⟩
    · exact hb.lo text h
    · exact ha.lo text h
  · rcases or_eq_some_iff.mp htext with h | ⟨-, h⟩
    · exact hb.hi text h
    · exact ha.hi text h

theorem compareOp_flip (hop : op ∈ comparisonOps) (o : Ordering) : compareOp op o.swap = compareOp (flipOp op) o := by
  revert op
  cases o with
  | lt | eq | gt => decide

theorem compareOp_gt (h : op ∈ [str "=", str "<", str "<="]) : compareOp op .gt = false := by
  revert op
  decide

theorem compareOp_lt (h : op ∈ [str "=", str ">", str ">="]) : compareOp op .lt = false := by
  revert op
  decide

theorem boundOf_sound {c text : Bytes} {w : Bytes} (hb : boundOf op c text = some b) (hlower : LowerFolds env c)
    (hci : sch.colIndex env c = some ci) (hw : orderEncode env (sch.oidAt ci) text = .ok w)
    (hQ : ∀ r ∈ rows, Q r.cells = true → ∃ t u o, cellAt r.cells ci = some t ∧
      orderEncode env (sch.oidAt ci) t = .ok u ∧ Agrees o u w ∧ compareOp op o = true) :
    SoundBounds env sch rows Q b ci := by
  have hside : ∀ {R : Bytes → Prop}, (∀ u o, Agrees o u w → compareOp op o = true → R u) → ∀ r ∈ rows,
      Q r.cells = true → ∃ t u, cellAt r.cells ci = some t ∧ orderEncode env (sch.oidAt ci) t = .ok u ∧ R u := by
    intro R hR r hr hq
    obtain ⟨t, u, o, ht, hu, hagree, hcmp⟩ := hQ r hr hq
    exact ⟨t, u, ht, hu, hR u o hagree hcmp⟩
  have hle : op ∈ [str "=", str "<", str "<="] → ∀ u o, Agrees o u w → compareOp op o = true → u = w ∨ Before u w := by
    intro hmem u o hagree hcmp
    cases o with
    | lt => exact .inr hagree
    | eq => exact .inl hagree
    | gt => exact absurd hcmp (by simp [compareOp_gt hmem])
  have hge : op ∈ [str "=", str ">", str ">="] → ∀ u o, Agrees o u w → compareOp op o = true → w = u ∨ Before w u := by
    intro hmem u o hagree hcmp
    cases o with
    | lt => exact absurd hcmp (by simp [compareOp_lt hmem])
    | eq => exact .inl hagree.symm
    | gt => exact .inr hagree
  unfold boundOf at hb
  split at hb
  · rename_i heq
    cases hb
    refine ⟨hlower, hci, fun t ht => ?_, fun t ht => ?_⟩
    · cases ht
      exact ⟨w, hw, hside (hge (by simp [heq]))⟩
    · cases ht
      exact ⟨w, hw, hside (hle (by simp [heq]))⟩
  · split at hb
    · rename_i hgt
      cases hb
      refine ⟨hlower, hci, fun t ht => ?_, fun t ht => absurd ht (by simp)⟩
      cases ht
      exact ⟨w, hw, hside (hge (mem_cons_of_mem _ (by simpa using hgt)))⟩
    · split at hb
      · rename_i hlt
        cases hb
        refine ⟨hlower, hci, fun t ht => absurd ht (by simp), fun t ht => ?_⟩
        cases ht
        exact ⟨w, hw, hside (hle (mem_cons_of_mem _ (by simpa using hlt)))⟩
      · cases hb

theorem evalBinary_true (hop : op ∈ comparisonOps) {l r v : Value}
    (h : evalBinary env op l r = .ok v) (hv : asBool v = true) :
    ∃ a b, l.cell = some a ∧ r.cell = some b ∧ compareOp op (compareCells env a l.oid b r.oid) = true := by
  unfold evalBinary at h
  split at h
  · rename_i a b ha hb
    rw [if_pos (isComparison_of_mem hop)] at h
    cases h
    exact ⟨a, b, ha, hb, (asBool_boolValue _).symm.trans hv⟩
  · cases h
    cases hv

theorem TypedConst.asColRef {oid : Nat} {k : Expr} (h : TypedConst params oid k) : asColRef k = none := by
  cases h <;> rfl

theorem Operands.sound (hlaws : EnvLaws env) {fields : List Bytes} {c : Bytes}
    {k : Expr} (h : Operands env s sch params rows fields c ci k) (hQ : ∀ r ∈ rows, Q r.cells = true → ∀ kv,
      (∀ sc site, sc.params = params → k.eval env sc site = .ok kv) →
        ∃ t kt, cellAt r.cells ci = some t ∧ kv.cell = some kt ∧
          (compareCells env kt kv.oid t (sch.oidAt ci) = (compareCells env t (sch.oidAt ci) kt kv.oid).swap →
            compareOp op (compareCells env t (sch.oidAt ci) kt kv.oid) = true))
    (hb : (resolveConstText params k).bind (boundOf op c) = some b) : SoundBounds env sch rows Q b ci := by
  obtain ⟨text, htext, hbound⟩ := bind_eq_some_iff.mp hb
  obtain ⟨w, hw⟩ := h.const.encodes hlaws htext
  refine boundOf_sound hbound h.lower h.index hw fun r hr hq => ?_
  obtain ⟨v, hv⟩ := h.const.eval env
  obtain ⟨t, kt', ht, hkt', hcmp⟩ := hQ r hr hq v hv
  obtain ⟨kt, koid, u, w', hk, hu, hw', hagree, hswap⟩ := h.const.agrees hlaws (h.cells r hr t ht) htext
  obtain rfl : v = ⟨some kt, koid⟩ :=
    Except.ok.inj ((hv ⟨params, noRow, none⟩ (Site.root 0) rfl).symm.trans (hk _ _ rfl))
  obtain rfl : kt' = kt := (some.inj hkt').symm
  obtain rfl : w' = w := Except.ok.inj (hw'.symm.trans hw)
  exact ⟨t, u, _, ht, hu, hagree, hcmp hswap⟩

theorem satisfies_eval {cells : Data} (h : rowSatisfies env sess s sch params w cells = true) :
    ∃ v, w.eval env (rowsScope env sess params [⟨s.relAlias, sch, cells⟩]) (Site.root 0) = .ok v ∧
      asBool v = true := by
  unfold rowSatisfies at h
  split at h
  · rename_i v hv
    exact ⟨v, hv, h⟩
  · cases h

section comparison
variable {fields : List Bytes} {c : Bytes} {k : Expr}

theorem RefersTo.bounds_left (h : RefersTo env s fields c) (hk : Executor.asColRef k = none) (params : Data) (op : Bytes) :
    boundFromComparison env s params op (.column fields) k =
      if isConstNode k then (resolveConstText params k).bind (boundOf op c) else none := by
  obtain ⟨q, hcol, hq⟩ := h.asColRef
  unfold boundFromComparison comparisonParts
  rw [hcol, hk]
  cases isConstNode k with
  | true => exact if_pos hq
  | false => rfl

theorem RefersTo.bounds_right (h : RefersTo env s fields c) (hk : Executor.asColRef k = none) (params : Data) (op : Bytes) :
    boundFromComparison env s params op k (.column fields) =
      if isConstNode k then (resolveConstText params k).bind (boundOf (flipOp op) c) else none := by
  obtain ⟨q, hcol, hq⟩ := h.asColRef
  unfold boundFromComparison comparisonParts
  rw [hcol, hk]
  cases isConstNode k with
  | true => exact if_pos hq
  | false => rfl

theorem Operands.sound_left (hlaws : EnvLaws env) (h : Operands env s sch params rows fields c ci k)
    (hop : op ∈ comparisonOps) (hb : boundFromComparison env s params op (.column fields) k = some b) :
    SoundBounds env sch rows (rowSatisfies env sess s sch params (.binary op (.column fields) k)) b ci := by
  rw [h.refers.bounds_left h.const.asColRef] at hb
  refine h.sound hlaws (fun r _ hsat kv hk => ?_) (ite_none_right_eq_some.mp hb).2
  obtain ⟨v, hv, htrue⟩ := satisfies_eval hsat
  rw [h.refers.eval_left h.index (hk _ _ rfl)] at hv
  obtain ⟨t, kt, ht, hkt, hcmp⟩ := evalBinary_true hop hv htrue
  exact ⟨t, kt, ht, hkt, fun _ => hcmp⟩

theorem Operands.sound_right (hlaws : EnvLaws env) (h : Operands env s sch params rows fields c ci k)
    (hop : op ∈ comparisonOps) (hb : boundFromComparison env s params op k (.column fields) = some b) :
    SoundBounds env sch rows (rowSatisfies env sess s sch params (.binary op k (.column fields))) b ci := by
  rw [h.refers.bounds_right h.const.asColRef] at hb
  refine h.sound hlaws (fun r _ hsat kv hk => ?_) (ite_none_right_eq_some.mp hb).2
  obtain ⟨v, hv, htrue⟩ := satisfies_eval hsat
  rw [h.refers.eval_right h.index (hk _ _ rfl)] at hv
  obtain ⟨kt, t, hkt, ht, hcmp⟩ := evalBinary_true hop hv htrue
  refine ⟨t, kt, ht, hkt, fun hswap => ?_⟩
  rw [hswap, compareOp_flip hop] at hcmp
  exact hcmp

end comparison

theorem extractAnd_sound {args : List Expr} {acc : Option ColBounds}
    (hargs : ∀ a ∈ args, ∀ x, extractColBounds env s params a = some x → ∃ ci, SoundBounds env sch rows Q x ci)
    (hacc : ∀ x, acc = some x → ∃ ci, SoundBounds env sch rows Q x ci)
    (h : extractAnd env s params args acc = some b) : ∃ ci, SoundBounds env sch rows Q b ci := by
  induction args generalizing acc with
  | nil => exact hacc b (by simpa [extractAnd] using h)
  | cons a args ih =>
    have hrest := fun a' ha' => hargs a' (mem_cons_of_mem a ha')
    unfold extractAnd at h
    cases hx : extractColBounds env s params a with
    | none => simp [hx] at h
    | some x =>
      obtain ⟨ci, hsound⟩ := hargs a mem_cons_self x hx
      simp only [hx] at h
      cases acc with
      | none =>
        refine ih hrest (fun y hy => ?_) h
        cases hy
        exact ⟨ci, hsound⟩
      | some y =>
        obtain ⟨cj, hy⟩ := hacc y rfl
        dsimp only at h
        split at h
        · rename_i hcol
          refine ih hrest (fun z hz => ?_) h
          cases hz
          exact ⟨cj, hy.merge hsound hcol⟩
        · cases h

theorem Conjunction.extract_sound (sess : Session) (hlaws : EnvLaws env) (h : Conjunction env s sch params rows w)
    (hb : extractColBounds env s params w = some b) :
    ∃ ci, SoundBounds env sch rows (rowSatisfies env sess s sch params w) b ci := by
  induction h generalizing b with
  | colConst hop h =>
    unfold extractColBounds at hb
    exact ⟨_, h.sound_left hlaws hop hb⟩
  | constCol hop h =>
    unfold extractColBounds at hb
    exact ⟨_, h.sound_right hlaws hop hb⟩
  | @and args h ih =>
    unfold extractColBounds at hb
    refine extractAnd_sound (fun a ha x hx => ?_) (fun x hx => absurd hx (by simp)) hb
    obtain ⟨ci, hsound⟩ := ih a ha hx
    refine ⟨ci, hsound.mono fun cells hcells => ?_⟩
    rw [Conjunction.satisfies_and h, List.all_eq_true] at hcells
    exact hcells a ha

/-! ## Equalities -/

/-- A sound entry of the equality map: the rows have the text's code word in the column. -/
def SoundEquality (env : Env) (sch : TableSchema) (rows : List ScanRow) (Q : Data → Bool)
    (kt : Bytes × Bytes) : Prop :=
  ∃ col ci, kt.1 = env.toLower col ∧ SoundBounds env sch rows Q ⟨col, some kt.2, some kt.2⟩ ci

mutual

theorem Conjunction.conjuncts (sess : Session) {w : Expr} (h : Conjunction env s sch params rows w) {a : Expr}
    (ha : a ∈ conjuncts w) : Conjunction env s sch params rows a ∧
      ∀ cells, rowSatisfies env sess s sch params w cells = true → rowSatisfies env sess s sch params a cells = true := by
  match w, h with
  | .boolExpr .and args, .and h =>
    unfold Executor.conjuncts at ha
    obtain ⟨hc, hsat⟩ := Conjunction.conjunctsAll sess h ha
    refine ⟨hc, fun cells hcells => hsat cells ?_⟩
    rw [Conjunction.satisfies_and h, List.all_eq_true] at hcells
    exact hcells
  | .binary op (.column fields) k, .colConst hop h =>
    obtain rfl := mem_singleton.mp ha
    exact ⟨.colConst hop h, fun _ hc => hc⟩
  | .binary op k (.column fields), .constCol hop h =>
    obtain rfl := mem_singleton.mp ha
    exact ⟨.constCol hop h, fun _ hc => hc⟩

theorem Conjunction.conjunctsAll (sess : Session) {args : List Expr} (h : ∀ a ∈ args, Conjunction env s sch params rows a) {a : Expr}
    (ha : a ∈ conjunctsAll args) : Conjunction env s sch params rows a ∧
      ∀ cells, (∀ a' ∈ args, rowSatisfies env sess s sch params a' cells = true) →
        rowSatisfies env sess s sch params a cells = true := by
  match args with
  | [] => cases ha
  | e :: es =>
    unfold Executor.conjunctsAll at ha
    rcases mem_append.mp ha with ha | ha
    · obtain ⟨hc, hsat⟩ := Conjunction.conjuncts sess (h e mem_cons_self) ha
      exact ⟨hc, fun cells hcells => hsat cells (hcells e mem_cons_self)⟩
    · obtain ⟨hc, hsat⟩ := Conjunction.conjunctsAll sess (fun a' ha' => h a' (mem_cons_of_mem _ ha')) ha
      exact ⟨hc, fun cells hcells => hsat cells fun a' ha' => hcells a' (mem_cons_of_mem _ ha')⟩

end

theorem addEquality_sound {eq : List (Bytes × Bytes)} {a : Expr} (heq : ∀ kt ∈ eq, SoundEquality env sch rows Q kt)
    (ha : ∀ b, extractColBounds env s params a = some b → ∃ ci, SoundBounds env sch rows Q b ci) :
    ∀ kt ∈ addEquality env s params eq a, SoundEquality env sch rows Q kt := by
  intro kt hkt
  unfold addEquality at hkt
  split at hkt
  · rename_i op l r
    split at hkt
    · rename_i col lo hi hb
      split at hkt
      · rename_i hlohi
        unfold putEq at hkt
        rcases mem_append.mp hkt with hkt | hkt
        · exact heq kt (mem_of_mem_filter hkt)
        · obtain rfl := mem_singleton.mp hkt
          obtain ⟨ci, hsound⟩ := ha ⟨col, some lo, some hi⟩ (by rw [extractColBounds]; exact hb)
          exact ⟨col, ci, rfl, hlohi ▸ hsound⟩
      · exact heq kt hkt
    · exact heq kt hkt
  · exact heq kt hkt

theorem Conjunction.equalities_sound (sess : Session) (hlaws : EnvLaws env) (h : Conjunction env s sch params rows w)
    (hw : s.whereClause = some w) : ∀ kt ∈ collectEqualities env s params,
      SoundEquality env sch rows (rowSatisfies env sess s sch params w) kt := by
  unfold collectEqualities whereConjuncts
  rw [hw]
  refine foldlRecOn (motive := fun eq => ∀ kt ∈ eq, SoundEquality env sch rows (rowSatisfies env sess s sch params w) kt)
    _ _ (by simp) fun eq heq a ha => addEquality_sound heq fun b hb => ?_
  obtain ⟨hc, hsat⟩ := h.conjuncts sess ha
  obtain ⟨ci, hsound⟩ := hc.extract_sound sess hlaws hb
  exact ⟨ci, hsound.mono hsat⟩

end bounds

end BasuyuDb.Executor
