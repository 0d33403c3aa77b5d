import BasuyuDb.Executor.WhereBounds

/-
  A SELECT with literals in its WHERE against the same SELECT with parameters bound to their texts
  (eval.go, index_scan.go). The planner takes the same bounds from both. The evaluator does not treat
  them alike: a parameter is a text, so a comparison with an integer column is that of the two texts,
  where the literal's is that of two numbers. Over the rows that are read the statements answer alike
  exactly when the two orders decide WHERE alike.

  Only the text of a conjunct tells the statements apart in the planner: it is matched with the
  predicates of partial indexes.
-/

namespace BasuyuDb.Executor
open KvLib Storage List

variable (env : Env)

/-! ## Literals and parameters -/

/-- A literal with its text: an integer for an integer column, a string for a text column. -/
inductive LiteralOf : Nat → Const → Bytes → Prop where
  | int {oid : Nat} (val : Bytes) (hoid : oid = OIDInt4 ∨ oid = OIDInt8) : LiteralOf oid (.int val) val
  | text (val : Bytes) : LiteralOf OIDText (.string val) val

/-- The comparisons of a WHERE. -/
def whereOps : List Bytes := [str "=", str "<>", str "<", str "<=", str ">", str ">="]

/-- A column of the table, a literal for it, and a parameter bound to the text of the literal. -/
structure BoundLiteral (s : SelectStmt) (sch : TableSchema) (params : Data) (fields : List Bytes)
    (c : Bytes) (ci : Nat) (k : Const) (val : Bytes) (n : Nat) : Prop where
  refers : RefersTo env s fields c
  index : sch.colIndex env c = some ci
  literal : LiteralOf (sch.oidAt ci) k val
  number : n ≠ 0
  bound : params[n - 1]? = some (some val)

/-- A WHERE of AND, OR and NOT over comparisons of a column with a literal, and the WHERE with a
parameter in the place of every literal. -/
inductive Bound (s : SelectStmt) (sch : TableSchema) (params : Data) : Expr → Expr → Prop where
  | colLit {op : Bytes} {fields : List Bytes} {c : Bytes} {ci : Nat} {k : Const} {val : Bytes} {n : Nat}
      (hop : op ∈ whereOps) (h : BoundLiteral env s sch params fields c ci k val n) :
      Bound s sch params (.binary op (.column fields) (.const k)) (.binary op (.column fields) (.param n))
  | litCol {op : Bytes} {fields : List Bytes} {c : Bytes} {ci : Nat} {k : Const} {val : Bytes} {n : Nat}
      (hop : op ∈ whereOps) (h : BoundLiteral env s sch params fields c ci k val n) :
      Bound s sch params (.binary op (.const k) (.column fields)) (.binary op (.param n) (.column fields))
  | not {a b : Expr} (h : Bound s sch params a b) : Bound s sch params (.boolExpr .not [a]) (.boolExpr .not [b])
  | and {as bs : List Expr} (hlen : as.length = bs.length)
      (h : ∀ {a b}, (a, b) ∈ as.zip bs → Bound s sch params a b) :
      Bound s sch params (.boolExpr .and as) (.boolExpr .and bs)
  | or {as bs : List Expr} (hlen : as.length = bs.length)
      (h : ∀ {a b}, (a, b) ∈ as.zip bs → Bound s sch params a b) :
      Bound s sch params (.boolExpr .or as) (.boolExpr .or bs)

/-- The evaluator that compares integers as texts. -/
def textual : Env := { env with compareFloat := compareBytes }

/-! ## Evaluation -/

section eval
variable {env} {sess : Session} {s : SelectStmt} {sch : TableSchema} {params params₀ : Data}
  {op val : Bytes} {oid : Nat} {k : Const}

theorem isComparison_whereOps (h : op ∈ whereOps) : isComparison op = true := by
  revert op
  decide

theorem evalBinary_compare (hop : op ∈ whereOps) (l r : Value) :
    evalBinary env op l r = .ok (match l.cell, r.cell with
      | some a, some b => compare env op a l.oid b r.oid
      | _, _ => nullBool) := by
  unfold evalBinary
  cases l.cell with
  | none => rfl
  | some a =>
    cases r.cell with
    | none => rfl
    | some b => exact if_pos (isComparison_whereOps hop)

theorem LiteralOf.compare_textual (h : LiteralOf oid k val) (t : Bytes) :
    compareCells (textual env) t oid val (evalConst k).oid = compareBytes t val ∧
      compareCells (textual env) val (evalConst k).oid t oid = compareBytes val t := by
  cases h with
  | int val hoid =>
    rcases hoid with rfl | rfl
    · exact ⟨rfl, rfl⟩
    · exact ⟨rfl, rfl⟩
  | text val => exact ⟨rfl, rfl⟩

theorem LiteralOf.cell (h : LiteralOf oid k val) : (evalConst k).cell = some val := by
  cases h with
  | int val hoid | text val => rfl

theorem compareCells_param (t val : Bytes) (oid : Nat) : compareCells env t oid val OIDText = compareBytes t val ∧
      compareCells env val OIDText t oid = compareBytes val t := by
  have hnum : isNumericOID OIDText = false := rfl
  unfold compareCells
  rw [hnum, Bool.and_false, Bool.false_and]
  exact ⟨rfl, rfl⟩

section leaves
variable {fields : List Bytes} {c : Bytes} {ci : Nat} {n : Nat}

theorem eval_const (k : Const) (sc : Scope) (site : Site) : (Expr.const k).eval env sc site = .ok (evalConst k) := by
  rw [Expr.eval]

variable (h : BoundLiteral env s sch params fields c ci k val n)
include h

theorem BoundLiteral.textual :
    BoundLiteral (Executor.textual env) s sch params fields c ci k val n :=
  ⟨h.refers, h.index, h.literal, h.number, h.bound⟩

theorem BoundLiteral.eval_param {sc : Scope}
    (hsc : sc.params = params) (site : Site) : (Expr.param n).eval env sc site = .ok ⟨some val, OIDText⟩ := by
  simp only [Expr.eval, evalParam, hsc, h.bound, if_neg h.number]

theorem BoundLiteral.compare (hop : op ∈ whereOps)
    (cell : Datum) : evalBinary (Executor.textual env) op ⟨cell, sch.oidAt ci⟩ (evalConst k) =
        evalBinary env op ⟨cell, sch.oidAt ci⟩ ⟨some val, OIDText⟩ ∧
      evalBinary (Executor.textual env) op (evalConst k) ⟨cell, sch.oidAt ci⟩ =
        evalBinary env op ⟨some val, OIDText⟩ ⟨cell, sch.oidAt ci⟩ := by
  simp only [evalBinary_compare hop, h.literal.cell]
  cases cell with
  | none => exact ⟨rfl, rfl⟩
  | some t =>
    simp only [Executor.compare, (h.literal.compare_textual t).1, (h.literal.compare_textual t).2,
      (compareCells_param t val _).1, (compareCells_param t val _).2, and_self]

end leaves

/-! ### AND and OR -/

section lists
variable {env' : Env} {sc sc' : Scope} {as bs : List Expr}

theorem evalAnd_congr₂ (h : List.Forall₂ (fun a b => ∀ site, a.eval env sc site = b.eval env' sc' site) as bs)
    (site : Site) : evalAnd env sc site as = evalAnd env' sc' site bs := by
  induction h generalizing site with
  | nil => rfl
  | cons hab _ ih =>
    unfold evalAnd
    rw [hab site.l, ih site.r]

theorem evalOr_congr₂ (h : List.Forall₂ (fun a b => ∀ site, a.eval env sc site = b.eval env' sc' site) as bs)
    (site : Site) : evalOr env sc site as = evalOr env' sc' site bs := by
  induction h generalizing site with
  | nil => rfl
  | cons hab _ ih =>
    unfold evalOr
    rw [hab site.l, ih site.r]

theorem evalOr_eq {f : Expr → Bool} {args : List Expr}
    (h : ∀ a ∈ args, ∀ site, ∃ v, a.eval env sc site = .ok v ∧ asBool v = f a) (site : Site) :
    evalOr env sc site args = .ok (args.any f) := by
  induction args generalizing site with
  | nil => rfl
  | cons a args ih =>
    obtain ⟨v, hv, hf⟩ := h a mem_cons_self site.l
    have ih := ih fun a' ha' => h a' (mem_cons_of_mem _ ha')
    unfold evalOr
    simp only [hv, bind, Except.bind, hf, ih, any_cons]
    cases f a with
    | true | false => rfl

theorem forall_of_zip {P : Expr → Prop} (hlen : as.length = bs.length)
    (h : ∀ {a b}, (a, b) ∈ as.zip bs → P a) : ∀ a ∈ as, P a := by
  intro a ha
  rw [← map_fst_zip hlen.le] at ha
  obtain ⟨p, hp, rfl⟩ := mem_map.mp ha
  exact h hp

end lists

variable {w w' : Expr}

theorem Bound.eval_textual (h : Bound env s sch params w w') (params₀ cells : Data) (site : Site) :
    w.eval (textual env) (rowsScope (textual env) sess params₀ [⟨s.relAlias, sch, cells⟩]) site =
      w'.eval env (rowsScope env sess params [⟨s.relAlias, sch, cells⟩]) site := by
  induction h generalizing site with
  | colLit hop h =>
    rw [h.textual.refers.eval_left h.textual.index (eval_const _ _ _), h.refers.eval_left h.index (h.eval_param rfl _)]
    exact (h.compare hop _).1
  | litCol hop h =>
    rw [h.textual.refers.eval_right h.textual.index (eval_const _ _ _), h.refers.eval_right h.index (h.eval_param rfl _)]
    exact (h.compare hop _).2
  | not h ih => simp only [Expr.eval, evalFirst, ih]
  | and hlen h ih =>
    have hall := forall₂_iff_zip.mpr ⟨hlen, fun hab site => ih hab site⟩
    simp only [Expr.eval, evalAnd_congr₂ hall]
  | or hlen h ih =>
    have hall := forall₂_iff_zip.mpr ⟨hlen, fun hab site => ih hab site⟩
    simp only [Expr.eval, evalOr_congr₂ hall]

theorem Bound.eval (h : Bound env s sch params w w') (sess : Session) (params₀ cells : Data) (site : Site) :
    ∃ v, w.eval env (rowsScope env sess params₀ [⟨s.relAlias, sch, cells⟩]) site = .ok v ∧
      asBool v = rowSatisfies env sess s sch params₀ w cells := by
  induction h generalizing site with
  | colLit hop h =>
    exact eval_of_sites (fun _ => ⟨_, (h.refers.eval_left h.index (eval_const _ _ _)).trans (evalBinary_compare hop _ _), rfl⟩) site
  | litCol hop h =>
    exact eval_of_sites (fun _ => ⟨_, (h.refers.eval_right h.index (eval_const _ _ _)).trans (evalBinary_compare hop _ _), rfl⟩) site
  | @not a b h ih =>
    refine eval_of_sites (b := !rowSatisfies env sess s sch params₀ a cells) (fun st => ?_) site
    obtain ⟨v, hv, hb⟩ := ih st
    refine ⟨boolValue (!asBool v), ?_, by rw [asBool_boolValue, hb]⟩
    simp only [Expr.eval, evalFirst, hv, bind, Except.bind]
  | @and as bs hlen h ih =>
    refine eval_of_sites
      (fun st => ⟨boolValue (as.all fun a => rowSatisfies env sess s sch params₀ a cells), ?_, rfl⟩) site
    simp only [Expr.eval, evalAnd_eq (forall_of_zip hlen ih), bind, Except.bind]
  | @or as bs hlen h ih =>
    refine eval_of_sites
      (fun st => ⟨boolValue (as.any fun a => rowSatisfies env sess s sch params₀ a cells), ?_, rfl⟩) site
    simp only [Expr.eval, evalOr_eq (forall_of_zip hlen ih), bind, Except.bind]

theorem Bound.textual (h : Bound env s sch params w w') : Bound (Executor.textual env) s sch params w w' := by
  induction h with
  | colLit hop h => exact .colLit hop h.textual
  | litCol hop h => exact .litCol hop h.textual
  | not _ ih => exact .not ih
  | and hlen _ ih => exact .and hlen ih
  | or hlen _ ih => exact .or hlen ih

/-- The rows that the WHERE with parameters keeps: those whose texts satisfy the one with literals. -/
theorem Bound.filter_params (h : Bound env s sch params w w') (params₀ : Data) (rows : List Data)
    (site : Site) : filterRows (whereKeeps env sess sch s.relAlias params (some w')) rows site =
      .ok (rows.filter (rowSatisfies (Executor.textual env) sess s sch params₀ w)) := by
  refine filterRows_of_eval (fun cells st => ?_) site
  rw [← h.eval_textual params₀]
  exact h.textual.eval sess params₀ cells st

end eval

/-! ## The planner -/

section plan
variable {env} {sess : Session} {W S : State} {s : SelectStmt} {sch : TableSchema} {params params₀ : Data}
  {w w' : Expr}

/-- The statement with another WHERE. -/
def SelectStmt.withWhere (s : SelectStmt) (w : Expr) : SelectStmt := { s with whereClause := some w }

theorem LiteralOf.constText {oid : Nat} {k : Const} {val : Bytes} (h : LiteralOf oid k val) :
    constText k = some val := by
  cases h with
  | int val hoid | text val => rfl

section leaves
variable {fields : List Bytes} {c : Bytes} {ci : Nat} {k : Const} {val : Bytes} {n : Nat}

variable (h : BoundLiteral env s sch params fields c ci k val n)
include h

theorem BoundLiteral.resolve_param :
    resolveConstText params (.param n) = some val := by
  rw [resolveConstText, if_neg h.number, h.bound]
  rfl

theorem BoundLiteral.bounds_left (params₀ : Data)
    (w w' : Expr) (op : Bytes) : boundFromComparison env (s.withWhere w) params₀ op (.column fields) (.const k) =
      boundFromComparison env (s.withWhere w') params op (.column fields) (.param n) := by
  have hrefers : ∀ e, RefersTo env (s.withWhere e) fields c := fun _ => h.refers
  rw [(hrefers w).bounds_left rfl, (hrefers w').bounds_left rfl, h.resolve_param, resolveConstText, h.literal.constText]
  rfl

theorem BoundLiteral.bounds_right (params₀ : Data)
    (w w' : Expr) (op : Bytes) : boundFromComparison env (s.withWhere w) params₀ op (.const k) (.column fields) =
      boundFromComparison env (s.withWhere w') params op (.param n) (.column fields) := by
  have hrefers : ∀ e, RefersTo env (s.withWhere e) fields c := fun _ => h.refers
  rw [(hrefers w).bounds_right rfl, (hrefers w').bounds_right rfl, h.resolve_param, resolveConstText, h.literal.constText]
  rfl

end leaves

/-! ### Bounds -/

variable {as bs : List Expr} {a b : Expr}

theorem extractAnd_congr₂ (h : List.Forall₂ (fun a b => extractColBounds env (s.withWhere w) params₀ a =
      extractColBounds env (s.withWhere w') params b) as bs) (acc : Option ColBounds) :
    extractAnd env (s.withWhere w) params₀ as acc = extractAnd env (s.withWhere w') params bs acc := by
  induction h generalizing acc with
  | nil => rw [extractAnd, extractAnd]
  | cons hab _ ih =>
    rw [extractAnd, extractAnd, hab]
    simp only [ih]

theorem Bound.extract (h : Bound env s sch params a b) :
    extractColBounds env (s.withWhere w) params₀ a = extractColBounds env (s.withWhere w') params b := by
  induction h with
  | colLit hop h =>
    rw [extractColBounds, extractColBounds]
    exact h.bounds_left _ _ _ _
  | litCol hop h =>
    rw [extractColBounds, extractColBounds]
    exact h.bounds_right _ _ _ _
  | not _ _ | or _ _ _ => simp only [extractColBounds]
  | and hlen _ ih =>
    rw [extractColBounds, extractColBounds]
    exact extractAnd_congr₂ (forall₂_iff_zip.mpr ⟨hlen, ih⟩) none

/-! ### Conjuncts -/

theorem conjunctsAll_forall₂
    (h : List.Forall₂ (fun a b => List.Forall₂ (Bound env s sch params) (conjuncts a) (conjuncts b)) as bs) :
    List.Forall₂ (Bound env s sch params) (conjunctsAll as) (conjunctsAll bs) := by
  induction h with
  | nil =>
    rw [conjunctsAll]
    exact .nil
  | cons hab _ ih =>
    rw [conjunctsAll, conjunctsAll]
    exact rel_append hab ih

theorem Bound.conjuncts (h : Bound env s sch params a b) :
    List.Forall₂ (Bound env s sch params) (conjuncts a) (Executor.conjuncts b) := by
  induction h with
  | colLit hop h => exact .cons (.colLit hop h) .nil
  | litCol hop h => exact .cons (.litCol hop h) .nil
  | not h _ => exact .cons (.not h) .nil
  | and hlen _ ih =>
    rw [Executor.conjuncts, Executor.conjuncts]
    exact conjunctsAll_forall₂ (forall₂_iff_zip.mpr ⟨hlen, ih⟩)
  | or hlen h _ => exact .cons (.or hlen h) .nil

theorem Bound.addEquality (h : Bound env s sch params a b) (params₀ : Data) (w w' : Expr)
    (eq : List (Bytes × Bytes)) :
    addEquality env (s.withWhere w) params₀ eq a = Executor.addEquality env (s.withWhere w') params eq b := by
  cases h with
  | colLit hop h =>
    unfold Executor.addEquality
    dsimp only
    rw [h.bounds_left params₀ w w']
  | litCol hop h =>
    unfold Executor.addEquality
    dsimp only
    rw [h.bounds_right params₀ w w']
  | not h | and hlen h | or hlen h => rfl

theorem Bound.equalities (h : Bound env s sch params w w') :
    collectEqualities env (s.withWhere w) params₀ = collectEqualities env (s.withWhere w') params := by
  have hfold : ∀ {as bs : List Expr}, List.Forall₂ (Bound env s sch params) as bs → ∀ eq,
      as.foldl (Executor.addEquality env (s.withWhere w) params₀) eq =
        bs.foldl (Executor.addEquality env (s.withWhere w') params) eq := by
    intro as bs hab
    induction hab with
    | nil => exact fun _ => rfl
    | cons hab _ ih =>
      intro eq
      rw [foldl_cons, foldl_cons, hab.addEquality params₀ w w']
      exact ih _
  exact hfold h.conjuncts []

theorem Bound.exprEquality (h : Bound env s sch params a b) :
    exprEquality a = none ∧ Executor.exprEquality b = none := by
  cases h with
  | colLit hop h | litCol hop h =>
    exact ⟨by simp [Executor.exprEquality, isIndexableExpr], by simp [Executor.exprEquality, isIndexableExpr]⟩
  | not h | and hlen h | or hlen h => exact ⟨rfl, rfl⟩

/-! ### Indexes -/

section indexes
variable {defs : List IndexDef} {f g : Bytes → Bool}

theorem usable_congr {d : IndexDef} (h : f d.whereText = g d.whereText) : d.usable (some f) = d.usable (some g) := by
  simp only [IndexDef.usable, Option.any_some, h]

variable (h : ∀ d ∈ defs, f d.whereText = g d.whereText)
include h

theorem findIndexOn_congr (col : Bytes) :
    findIndexOn env defs col (some f) = findIndexOn env defs col (some g) := by
  unfold findIndexOn
  rw [filter_congr fun d hd => usable_congr (h d hd)]

theorem findIndexForEquality_congr (cols : List Bytes) :
    findIndexForEquality env defs cols (some f) = findIndexForEquality env defs cols (some g) := by
  unfold findIndexForEquality
  refine foldl_ext _ _ _ fun best d hd => ?_
  rw [usable_congr (h d hd)]

theorem singleColIndex_congr (col : Bytes) :
    singleColIndex env defs col f = singleColIndex env defs col g := by
  unfold singleColIndex
  dsimp only
  rw [find?_congr fun d hd => congrArg _ (h d (mem_of_mem_filter hd))]

end indexes

/-- The predicates of the partial indexes are implied by both conditions or by neither. -/
def SamePartials (env : Env) (sess : Session) (W : State) (table : Bytes) (w w' : Expr) : Prop :=
  ∀ defs, indexesIn sess.ns W table = some defs → ∀ d ∈ defs,
    predicateImplies env (some w) d.whereText = predicateImplies env (some w') d.whereText

section paths
variable {defs : List IndexDef}
  (hdefs : ∀ d ∈ defs, predicateImplies env (some w) d.whereText = predicateImplies env (some w') d.whereText)
include hdefs

theorem trySingleCol_congr (sch' : TableSchema) (eqs : List (Bytes × Bytes)) :
    trySingleColEquality env sess W (s.withWhere w) sch' defs eqs =
      trySingleColEquality env sess W (s.withWhere w') sch' defs eqs := by
  induction eqs with
  | nil => rfl
  | cons kt eqs ih =>
    obtain ⟨col, text⟩ := kt
    have hsingle : singleColIndex env defs col (predicateImplies env (s.withWhere w).whereClause) =
        singleColIndex env defs col (predicateImplies env (s.withWhere w').whereClause) :=
      singleColIndex_congr hdefs col
    unfold trySingleColEquality
    rw [hsingle, ih]
    rfl

theorem driveScan_congr (sch' : TableSchema) (col : Bytes) (bounds : Option ColBounds) :
    driveScan env sess W S (s.withWhere w) sch' defs col bounds false false =
      driveScan env sess W S (s.withWhere w') sch' defs col bounds false false := by
  have hon : findIndexOn env defs col ((s.withWhere w).whereClause.map fun w => predicateImplies env (some w)) =
      findIndexOn env defs col ((s.withWhere w').whereClause.map fun w => predicateImplies env (some w)) :=
    findIndexOn_congr hdefs col
  unfold driveScan
  rw [hon]
  rfl

end paths

theorem forall₂_filterMap_none (h : List.Forall₂ (Bound env s sch params) as bs) :
    as.filterMap exprEquality = [] ∧ bs.filterMap exprEquality = [] := by
  induction h with
  | nil => exact ⟨rfl, rfl⟩
  | cons hab _ ih =>
    obtain ⟨ha, hb⟩ := hab.exprEquality
    rw [filterMap_cons_none ha, filterMap_cons_none hb]
    exact ih

theorem Bound.tryExprEquality (h : Bound env s sch params w w') (sch' : TableSchema) (defs : List IndexDef)
    (params₀ : Data) : tryExprEquality env sess W (s.withWhere w) params₀ sch' defs = .ok none ∧
      Executor.tryExprEquality env sess W (s.withWhere w') params sch' defs = .ok none := by
  obtain ⟨ha, hb⟩ := forall₂_filterMap_none h.conjuncts
  unfold Executor.tryExprEquality exprLookup
  have ha' : (whereConjuncts (s.withWhere w).whereClause).filterMap Executor.exprEquality = [] := ha
  have hb' : (whereConjuncts (s.withWhere w').whereClause).filterMap Executor.exprEquality = [] := hb
  rw [ha', hb']
  exact ⟨rfl, rfl⟩

section paths
variable {defs : List IndexDef}
  (hdefs : ∀ d ∈ defs, predicateImplies env (some w) d.whereText = predicateImplies env (some w') d.whereText)
include hdefs

theorem Bound.tryComposite (h : Bound env s sch params w w') (sch' : TableSchema) (params₀ : Data) :
    tryCompositeEquality env sess W (s.withWhere w) params₀ sch' defs =
      tryCompositeEquality env sess W (s.withWhere w') params sch' defs := by
  have hfind : ∀ cols, findIndexForEquality env defs cols
      ((s.withWhere w).whereClause.map fun w => predicateImplies env (some w)) = findIndexForEquality env defs cols
          ((s.withWhere w').whereClause.map fun w => predicateImplies env (some w)) :=
    fun cols => findIndexForEquality_congr hdefs cols
  have heq : collectEqualities env (s.withWhere w) params₀ = collectEqualities env (s.withWhere w') params :=
    h.equalities
  unfold tryCompositeEquality
  dsimp only
  rw [heq, hfind]
  rfl

theorem Bound.tryEqualities (h : Bound env s sch params w w') (sch' : TableSchema) (params₀ : Data)
    (order : List (Bytes × Bytes) → List (Bytes × Bytes)) :
    tryEqualities env order sess W (s.withWhere w) params₀ sch' defs =
      Executor.tryEqualities env order sess W (s.withWhere w') params sch' defs := by
  obtain ⟨ha, hb⟩ : Executor.tryExprEquality env sess W (s.withWhere w) params₀ sch' defs = .ok none ∧
      Executor.tryExprEquality env sess W (s.withWhere w') params sch' defs = .ok none :=
    h.tryExprEquality sch' defs params₀
  unfold Executor.tryEqualities
  rw [ha, hb, h.tryComposite hdefs, h.equalities, trySingleCol_congr hdefs]
  rfl

theorem Bound.planRange (h : Bound env s sch params w w') (hsort : s.sortClause = []) (sch' : TableSchema)
    (params₀ : Data) : planRange env sess W S (s.withWhere w) params₀ sch' defs =
      Executor.planRange env sess W S (s.withWhere w') params sch' defs := by
  have hby : ∀ e, orderByCol env (s.withWhere e) = none := by
    intro e
    simp only [orderByCol, SelectStmt.withWhere, hsort]
  have hbounds : (s.withWhere w).whereClause.bind (extractColBounds env (s.withWhere w) params₀) =
      (s.withWhere w').whereClause.bind (extractColBounds env (s.withWhere w') params) := h.extract
  unfold Executor.planRange
  rw [hby, hby, hbounds]
  cases (s.withWhere w').whereClause.bind (extractColBounds env (s.withWhere w') params) with
  | none => rfl
  | some b => exact driveScan_congr hdefs sch' b.col (some b)

end paths

theorem Bound.plan (h : Bound env s sch params w w') (hsort : s.sortClause = [])
    (hpart : SamePartials env sess W s.relName w w') (order : List (Bytes × Bytes) → List (Bytes × Bytes))
    (params₀ : Data) :
    planIndexScan env order sess W S (s.withWhere w) params₀ = planIndexScan env order sess W S (s.withWhere w') params := by
  unfold planIndexScan
  have hrel : ∀ e, (s.withWhere e).relName = s.relName := fun _ => rfl
  rw [hrel, hrel]
  split
  · rfl
  · cases resolvedIn sess.ns W s.relName with
    | none => rfl
    | some sch' =>
      cases hdefs : indexesIn sess.ns W s.relName with
      | none => rfl
      | some defs =>
        have hsame := hpart defs hdefs
        dsimp only
        rw [h.tryEqualities hsame, h.planRange hsame hsort]
        rfl

end plan

/-! ## The two statements -/

/-- The rows a SELECT tests with its WHERE: those its access path reads and row security shows. -/
def readRows (order : List (Bytes × Bytes) → List (Bytes × Bytes)) (sess : Session) (W S : State)
    (s : SelectStmt) (params : Data) (sch : TableSchema) (all : List Data) (site : Site) :
    ExecM (List Data) := do
  let scan ← fromRows env order sess W S s params all
  applyRLSSelect env sess sch s.relAlias params scan.rows site.l

/-- Both fail, or both answer and the rows that `p` and `q` select are the same set. -/
def SameSelected (p q : Data → Bool) : ExecM (List Data) →
    ExecM (List Data) → Prop
  | .ok a, .ok b => ∀ cells, (cells ∈ a ∧ p cells = true) ↔ (cells ∈ b ∧ q cells = true)
  | .error _, .error _ => True
  | _, _ => False

/-- Both answer the same set of rows, or both fail. -/
def SameRows : ExecM (List Data) → ExecM (List Data) → Prop :=
  SameSelected (fun _ => true) fun _ => true

/-- Nothing in the table or between the two runs lets the statements read different rows: the Go maps
are iterated alike, no partial index has a predicate that only one of the conditions implies, and a row
policy sees the same parameters. -/
structure SameAccess (order order' : List (Bytes × Bytes) → List (Bytes × Bytes)) (sess : Session) (W : State)
    (s : SelectStmt) (sch : TableSchema) (params₀ params : Data) (site site' : Site) (w w' : Expr) : Prop where
  maps : order = order'
  partials : SamePartials env sess W s.relName w w'
  policies : rlsApplies sch sess = false ∨ params₀ = params ∧ site = site'

section select
variable {env} {order order' : List (Bytes × Bytes) → List (Bytes × Bytes)} {sess : Session} {W S : State}
  {s : SelectStmt} {sch : TableSchema} {all : List Data} {params params₀ : Data} {site site' : Site}
  {w w' : Expr}

theorem selectRows_unsorted (hsort : s.sortClause = []) (e : Expr) :
    selectRows env order sess W S (s.withWhere e) params sch all site =
      (readRows env order sess W S (s.withWhere e) params sch all site).bind
        (fun rows => filterRows (whereKeeps env sess sch s.relAlias params (some e)) rows site.r.l) := by
  have hempty : (s.withWhere e).sortClause.isEmpty = true := by
    rw [SelectStmt.withWhere, hsort]
    rfl
  unfold selectRows readRows
  cases fromRows env order sess W S (s.withWhere e) params all with
  | error err => rfl
  | ok scan =>
    cases hread : applyRLSSelect env sess sch (s.withWhere e).relAlias params scan.rows site.l with
    | error err => simp only [bind, Except.bind, hread]
    | ok rows =>
      simp only [bind, Except.bind, hread, hempty, true_or, if_true]
      change _ = filterRows (whereKeeps env sess sch (s.withWhere e).relAlias params (s.withWhere e).whereClause) rows
        site.r.l
      cases filterRows (whereKeeps env sess sch (s.withWhere e).relAlias params (s.withWhere e).whereClause) rows
        site.r.l with
      | error err | ok kept => rfl

theorem sameRows_filter {p q : Data → Bool} {x y : ExecM (List Data)} :
    SameRows (x.bind fun rows => .ok (rows.filter p)) (y.bind fun rows => .ok (rows.filter q)) ↔
      SameSelected p q x y := by
  cases x with
  | error e =>
    cases y with
    | error e' | ok b => exact Iff.rfl
  | ok a =>
    cases y with
    | error e' => exact Iff.rfl
    | ok b =>
      simp only [SameRows, SameSelected, Except.bind, mem_filter, and_true]

theorem sameSelected_self {p q : Data → Bool} {x : ExecM (List Data)} :
    SameSelected p q x x ↔ ∀ rows, x = .ok rows → ∀ cells ∈ rows, p cells = q cells := by
  cases x with
  | error e => exact ⟨nofun, fun _ => trivial⟩
  | ok a =>
    constructor
    · intro h rows hrows cells hcells
      cases hrows
      have hiff : p cells = true ↔ q cells = true := by simpa [hcells] using h cells
      exact Bool.eq_iff_iff.mpr hiff
    · intro h cells
      refine and_congr_right fun hcells => ?_
      rw [h a rfl cells hcells]

theorem SameAccess.readRows (hacc : SameAccess env order order' sess W s sch params₀ params site site' w w')
    (hsort : s.sortClause = []) (h : Bound env s sch params w w') :
    readRows env order sess W S (s.withWhere w) params₀ sch all site =
      Executor.readRows env order' sess W S (s.withWhere w') params sch all site' := by
  obtain rfl := hacc.maps
  have hrls : ∀ rows, applyRLSSelect env sess sch s.relAlias params₀ rows site.l =
      applyRLSSelect env sess sch s.relAlias params rows site'.l := by
    intro rows
    rcases hacc.policies with hno | ⟨rfl, rfl⟩
    · simp only [applyRLSSelect, hno, Bool.false_eq_true, if_false]
    · rfl
  unfold Executor.readRows fromRows
  rw [h.plan hsort hacc.partials]
  exact congrArg _ (funext fun scan => hrls scan.rows)

end select

/-- The statement with parameters answers the rows that are read and satisfy WHERE with their integers
compared as texts. Where both read the same rows, the answers are the same exactly when every row that is
read satisfies WHERE with its integers compared as numbers if and only if it does with them compared as
texts. -/
theorem bound_params_iff (env : Env) (order order' : List (Bytes × Bytes) → List (Bytes × Bytes)) (sess : Session)
    (W S : State) (s : SelectStmt) (sch : TableSchema) (all : List Data) (params₀ params : Data)
    (site site' : Site) (w w' : Expr) (hsort : s.sortClause = []) (h : Bound env s sch params w w') :
    (SameRows (selectRows env order sess W S (s.withWhere w) params₀ sch all site)
        (selectRows env order' sess W S (s.withWhere w') params sch all site') ↔
      SameSelected (rowSatisfies env sess s sch params₀ w) (rowSatisfies (textual env) sess s sch params₀ w)
        (readRows env order sess W S (s.withWhere w) params₀ sch all site)
        (readRows env order' sess W S (s.withWhere w') params sch all site')) ∧
    (SameAccess env order order' sess W s sch params₀ params site site' w w' →
      (SameRows (selectRows env order sess W S (s.withWhere w) params₀ sch all site)
          (selectRows env order' sess W S (s.withWhere w') params sch all site') ↔
        ∀ rows, readRows env order sess W S (s.withWhere w) params₀ sch all site = .ok rows →
          ∀ cells ∈ rows, rowSatisfies env sess s sch params₀ w cells =
            rowSatisfies (textual env) sess s sch params₀ w cells)) := by
  refine have hboth := ?_; ⟨hboth, fun hacc => ?_⟩
  · rw [selectRows_unsorted hsort, selectRows_unsorted hsort]
    simp only [filterRows_of_eval (h.eval sess params₀), h.filter_params params₀]
    exact sameRows_filter
  · rw [hboth, ← hacc.readRows hsort h]
    exact sameSelected_self

/-! ### An integer column -/

def createInts : Call := ⟨demoSession "main", .createTable ⟨str "m", [.plain "a" "int4"], [], false⟩, []⟩

def insertInt (a : String) : Call := insertValues "main" "m" [.int (str a)]

def intsSchema : TableSchema := ⟨str "m", [.plain "a" OIDInt4], none, false, false, []⟩

def selectInts : SelectStmt := ⟨str "m", [], none, [], none, false⟩

def intLiteral (op val : String) : Expr := .binary (str op) (.column [str "a"]) (.const (.int (str val)))

def intParam (op : String) : Expr := .binary (str op) (.column [str "a"]) (.param 1)

def intRows (db : Db) : List Data :=
  (((rowsIn (str "n") db.map (str "m") 1).toOption).getD []).map ScanRow.cells

/-- The rows a SELECT with the condition answers. -/
def selectInt (db : Db) (w : Expr) (params : Data) : ExecM (List Data) :=
  selectRows int4Env id (demoSession "main") db.map db.map (selectInts.withWhere w) params intsSchema (intRows db) (.root 0)

theorem bound_int {op : String} (hop : str op ∈ whereOps) (val : String) :
    Bound int4Env selectInts intsSchema [some (str val)] (intLiteral op val) (intParam op) :=
  .colLit hop ⟨⟨by decide, fun _ => rfl, .inl rfl⟩, rfl, .int (str val) (.inl rfl), by decide, rfl⟩

/-- a = 10 and a = $1 answer the row 10. -/
theorem bound_params_equal : ∃ db, Reach (Db.step int4Env) (fun _ _ => True) Db.empty db ∧
    selectInt db (intLiteral "=" "10") [] = .ok [[some (str "10")], [some (str "10")]] ∧
    SameRows (selectInt db (intLiteral "=" "10") []) (selectInt db (intParam "=") [some (str "10")]) := by
  obtain ⟨db, hreach, hindexes, hread, hlit⟩ := exists_run int4Env [createInts, insertInt "10", insertInt "9", insertInt "10"]
    (fun db => indexesIn (str "n") db.map (str "m") = some [] ∧
      readRows int4Env id (demoSession "main") db.map db.map (selectInts.withWhere (intLiteral "=" "10")) [] intsSchema
        (intRows db) (.root 0) = .ok [[some (str "10")], [some (str "9")], [some (str "10")]] ∧
      selectInt db (intLiteral "=" "10") [] = .ok [[some (str "10")], [some (str "10")]]) (by decide +kernel)
  refine ⟨db, hreach, hlit, ?_⟩
  have haccess : SameAccess int4Env id id (demoSession "main") db.map selectInts intsSchema [] [some (str "10")]
      (.root 0) (.root 0) (intLiteral "=" "10") (intParam "=") := by
    refine ⟨rfl, fun defs hdefs d hd => ?_, .inl rfl⟩
    cases hindexes.symm.trans hdefs
    cases hd
  refine ((bound_params_iff int4Env id id (demoSession "main") db.map db.map selectInts intsSchema (intRows db) []
    [some (str "10")] (.root 0) (.root 0) _ _ rfl (bound_int (by decide) "10")).2 haccess).mpr ?_
  intro rows hrows cells hcells
  cases hread.symm.trans hrows
  revert cells
  decide +kernel

/-- a > 9 answers the row 10, and a > $1 does not: as a text, 10 is before 9. -/
theorem param_loses_row : ∃ db, Reach (Db.step int4Env) (fun _ _ => True) Db.empty db ∧
    selectInt db (intLiteral ">" "9") [] = .ok [[some (str "10")]] ∧
    selectInt db (intParam ">") [some (str "9")] = .ok [] ∧
    ¬SameRows (selectInt db (intLiteral ">" "9") []) (selectInt db (intParam ">") [some (str "9")]) := by
  obtain ⟨db, hreach, hlit, hparam⟩ := exists_run int4Env [createInts, insertInt "10"]
    (fun db => selectInt db (intLiteral ">" "9") [] = .ok [[some (str "10")]] ∧
      selectInt db (intParam ">") [some (str "9")] = .ok []) (by decide +kernel)
  refine ⟨db, hreach, hlit, hparam, fun hsame => ?_⟩
  rw [hlit, hparam] at hsame
  exact absurd ((hsame [some (str "10")]).mp (by decide)).1 (by decide)

end BasuyuDb.Executor
