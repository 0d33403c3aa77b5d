import BasuyuDb.Executor.Access
import BasuyuDb.Lib.Kleene

/-
  engine/internal/executor/eval.go, subquery.go: conditions against SQL's three-valued logic. `compare` and
  `evalIn` answer NULL where SQL is UNKNOWN, and NULL is not true; but `evalBool` answers NOT of anything
  that is not true with true, so NOT (a = 1) and a NOT IN (1, NULL) take the rows on which they are UNKNOWN.
  The evaluator has two-valued logic with UNKNOWN comparisons FALSE, so a condition is taken wrongly if and only if
  it is UNKNOWN and that makes it TRUE (`where_truth_iff`), where its comparisons are those of SQL: `compare` reads
  integers as float64, and compares an integer with a string literal as texts.
-/

namespace BasuyuDb.Executor
open KvLib Storage List Option

variable (env : Env)

/-! ## The meaning of conditions -/

/-- An integer or a text; NULL is `none`. -/
inductive SqlValue where
  | int (i : Int)
  | text (t : Bytes)
deriving DecidableEq

/-- A string literal takes the type of what it is compared with. -/
def SqlValue.order : SqlValue → SqlValue → Option Ordering
  | .int i, .int j => some (Ord.compare i j)
  | .text t, .text u => some (compareBytes t u)
  | .int i, .text u => (parseInt u).map (Ord.compare i)
  | .text t, .int j => (parseInt t).map (Ord.compare · j)

/-- A row: what its columns hold. -/
abbrev SqlRow := List Bytes → Option SqlValue

section meaning
variable (row : SqlRow)

def sqlValue : Expr → Option SqlValue
  | .const (.int t) => (parseInt t).map .int
  | .const (.string t) => some (.text t)
  | .column fields => row fields
  | _ => none

/-- A comparison with NULL is UNKNOWN. -/
def sqlCompare (op : Bytes) (x y : Option SqlValue) : Truth :=
  match x, y with
  | some a, some b => (a.order b).map (compareOp op)
  | _, _ => none

mutual

/-- The truth value of a condition. -/
def sqlTruth : Expr → Truth
  | .binary op l r => sqlCompare op (sqlValue row l) (sqlValue row r)
  | .isIn l items => Truth.any (items.map fun e => sqlCompare (str "=") (sqlValue row l) (sqlValue row e))
  | .nullTest testNull a => some ((sqlValue row a).isNone == testNull)
  | .boolExpr .not args => ((sqlTruths args).headD none).not
  | .boolExpr .and args => Truth.all (sqlTruths args)
  | .boolExpr .or args => Truth.any (sqlTruths args)
  | _ => none

def sqlTruths : List Expr → List Truth
  | [] => []
  | e :: es => sqlTruth e :: sqlTruths es

end

end meaning

/-! ## Conditions over columns and literals -/

/-- A column, or an integer, string or NULL literal. -/
def Expr.isOperand : Expr → Bool
  | .column _ => true
  | .const (.int t) => (parseInt t).isSome
  | .const (.string _) => true
  | .const .null => true
  | _ => false

mutual

/-- Comparisons, IN lists and NULL tests of operands, under AND, OR and NOT. -/
def Expr.isWhere : Expr → Bool
  | .binary op l r => isComparison op && l.isOperand && r.isOperand
  | .isIn l items => l.isOperand && items.all Expr.isOperand
  | .nullTest _ a => a.isOperand
  | .boolExpr .not args => args.length == 1 && allWhere args
  | .boolExpr _ args => allWhere args
  | _ => false

def allWhere : List Expr → Bool
  | [] => true
  | e :: es => e.isWhere && allWhere es

end

section conditions
variable (sc : Scope) (row : SqlRow)

/-- The evaluator takes the row exactly when the condition is TRUE of it. -/
def TakenAsTrue (site : Site) (e : Expr) : Prop :=
  ∃ v, e.eval env sc site = .ok v ∧ (asBool v = true ↔ sqlTruth row e = some true)

end conditions

mutual

/-- A condition in two-valued logic, with UNKNOWN comparisons, IN lists and NULL tests FALSE. -/
def collapsed (row : SqlRow) : Expr → Bool
  | .boolExpr .not args => !(collapsedList row args).headD false
  | .boolExpr .and args => (collapsedList row args).all id
  | .boolExpr .or args => (collapsedList row args).any id
  | e => sqlTruth row e == some true

def collapsedList (row : SqlRow) : List Expr → List Bool
  | [] => []
  | e :: es => collapsed row e :: collapsedList row es

end

mutual

/-- The comparisons, IN lists and NULL tests that are evaluated of the row satisfy `A`: AND stops at an operand that is
not taken, and OR at one that is. -/
def Expr.atoms (A : Site → Expr → Prop) (row : SqlRow) (site : Site) : Expr → Prop
  | .boolExpr .not args => atomsFirst A row site args
  | .boolExpr .and args => atomsUntil A row false site args
  | .boolExpr .or args => atomsUntil A row true site args
  | e => A site e

def atomsFirst (A : Site → Expr → Prop) (row : SqlRow) (site : Site) : List Expr → Prop
  | [] => True
  | e :: _ => e.atoms A row site

def atomsUntil (A : Site → Expr → Prop) (row : SqlRow) (stop : Bool) (site : Site) : List Expr → Prop
  | [] => True
  | e :: es => e.atoms A row site.l ∧ (collapsed row e ≠ stop → atomsUntil A row stop site.r es)

end

/-! ## NOT, AND and OR -/

section connectives
variable {env} {sc : Scope} {row : SqlRow}

mutual

theorem collapsed_refines (e : Expr) (hwhere : e.isWhere = true) : (sqlTruth row e).Refines (collapsed row e) := by
  match e with
  | .boolExpr .not [a] =>
    have ha : a.isWhere = true := by simpa [Expr.isWhere, allWhere] using hwhere
    simp only [sqlTruth, sqlTruths, collapsed, collapsedList, headD_cons]
    exact (collapsed_refines a ha).not
  | .boolExpr .not [] | .boolExpr .not (_ :: _ :: _) | .const c | .param n | .column fields | .minus a
  | .caseExpr arg whens els | .typeCast a ty | .call name args | .setToDefault => cases hwhere
  | .boolExpr .and args =>
    have hargs : allWhere args = true := by simpa [Expr.isWhere] using hwhere
    simp only [sqlTruth, collapsed]
    exact (collapsedList_refines args hargs).1
  | .boolExpr .or args =>
    have hargs : allWhere args = true := by simpa [Expr.isWhere] using hwhere
    simp only [sqlTruth, collapsed]
    exact (collapsedList_refines args hargs).2
  | .binary op l r | .isIn l items | .nullTest testNull a =>
    simp only [collapsed]
    exact Truth.refines_beq _

theorem collapsedList_refines (es : List Expr) (hwhere : allWhere es = true) :
    (Truth.all (sqlTruths row es)).Refines ((collapsedList row es).all id) ∧
      (Truth.any (sqlTruths row es)).Refines ((collapsedList row es).any id) := by
  match es with
  | [] => exact ⟨fun _ h => Option.some.inj h, fun _ h => Option.some.inj h⟩
  | e :: es =>
    have hboth : e.isWhere = true ∧ allWhere es = true := by simpa [allWhere] using hwhere
    have hhead := collapsed_refines e hboth.1
    have htail := collapsedList_refines es hboth.2
    simp only [sqlTruths, collapsedList, Truth.all_cons, Truth.any_cons, List.all_cons, List.any_cons, id]
    exact ⟨hhead.and htail.1, hhead.or htail.2⟩

end

mutual

/-- The evaluator computes the condition in two-valued logic. -/
theorem eval_collapsed (site : Site) (e : Expr) (hwhere : e.isWhere = true)
    (hatoms : e.atoms (TakenAsTrue env sc row) row site) : ∃ v, e.eval env sc site = .ok v ∧ asBool v = collapsed row e := by
  match e with
  | .boolExpr .not [a] =>
    have ha : a.isWhere = true := by simpa [Expr.isWhere, allWhere] using hwhere
    obtain ⟨v, hv, hsame⟩ := eval_collapsed site a ha (by simpa only [Expr.atoms, atomsFirst] using hatoms)
    refine ⟨boolValue (!asBool v), by simp only [Expr.eval, evalFirst, hv, bind, Except.bind], ?_⟩
    rw [asBool_boolValue, hsame, collapsed, collapsedList, headD_cons]
  | .boolExpr .not [] | .boolExpr .not (_ :: _ :: _) | .const c | .param n | .column fields | .minus a
  | .caseExpr arg whens els | .typeCast a ty | .call name args | .setToDefault => cases hwhere
  | .boolExpr .and args =>
    have hargs : allWhere args = true := by simpa [Expr.isWhere] using hwhere
    have heval := evalAnd_collapsed site args hargs (by simpa only [Expr.atoms] using hatoms)
    refine ⟨boolValue _, by simp only [Expr.eval, heval, bind, Except.bind]; rfl, ?_⟩
    rw [asBool_boolValue, collapsed]
  | .boolExpr .or args =>
    have hargs : allWhere args = true := by simpa [Expr.isWhere] using hwhere
    have heval := evalOr_collapsed site args hargs (by simpa only [Expr.atoms] using hatoms)
    refine ⟨boolValue _, by simp only [Expr.eval, heval, bind, Except.bind]; rfl, ?_⟩
    rw [asBool_boolValue, collapsed]
  | .binary op l r | .isIn l items | .nullTest testNull a =>
    obtain ⟨v, hv, hiff⟩ := hatoms
    exact ⟨v, hv, Bool.eq_iff_iff.mpr (hiff.trans (by simp only [collapsed, beq_iff_eq]))⟩

theorem evalAnd_collapsed (site : Site) (es : List Expr) (hwhere : allWhere es = true)
    (hatoms : atomsUntil (TakenAsTrue env sc row) row false site es) :
    evalAnd env sc site es = .ok ((collapsedList row es).all id) := by
  match es with
  | [] => rfl
  | e :: es =>
    have hboth : e.isWhere = true ∧ allWhere es = true := by simpa [allWhere] using hwhere
    simp only [atomsUntil] at hatoms
    obtain ⟨v, hv, hsame⟩ := eval_collapsed site.l e hboth.1 hatoms.1
    simp only [evalAnd, hv, bind, Except.bind, collapsedList, List.all_cons, id, hsame]
    cases hc : collapsed row e with
    | false => rfl
    | true =>
      rw [evalAnd_collapsed site.r es hboth.2 (hatoms.2 (by simp [hc]))]
      rfl

theorem evalOr_collapsed (site : Site) (es : List Expr) (hwhere : allWhere es = true)
    (hatoms : atomsUntil (TakenAsTrue env sc row) row true site es) :
    evalOr env sc site es = .ok ((collapsedList row es).any id) := by
  match es with
  | [] => rfl
  | e :: es =>
    have hboth : e.isWhere = true ∧ allWhere es = true := by simpa [allWhere] using hwhere
    simp only [atomsUntil] at hatoms
    obtain ⟨v, hv, hsame⟩ := eval_collapsed site.l e hboth.1 hatoms.1
    simp only [evalOr, hv, bind, Except.bind, collapsedList, List.any_cons, id, hsame]
    cases hc : collapsed row e with
    | true => rfl
    | false =>
      rw [evalOr_collapsed site.r es hboth.2 (hatoms.2 (by simp [hc]))]
      rfl

end

theorem taken_iff {site : Site} {e : Expr} (hwhere : e.isWhere = true) (hatoms : e.atoms (TakenAsTrue env sc row) row site) :
    TakenAsTrue env sc row site e ↔ ¬(sqlTruth row e = none ∧ collapsed row e = true) := by
  obtain ⟨v, hv, hsame⟩ := eval_collapsed site e hwhere hatoms
  have htaken : TakenAsTrue env sc row site e ↔ (collapsed row e = true ↔ sqlTruth row e = some true) := by
    rw [← hsame]
    exact ⟨fun ⟨w, hw, h⟩ => Except.ok.inj (hv.symm.trans hw) ▸ h, fun h => ⟨v, hv, h⟩⟩
  rw [htaken]
  cases htruth : sqlTruth row e with
  | none => simp
  | some b => simp [collapsed_refines e hwhere b htruth]

end connectives

/-! ## Comparisons, IN lists and NULL tests -/

/-- The evaluator's value for a value of SQL. -/
def Represents (v : Value) : Option SqlValue → Prop
  | none => v.cell = none
  | some (.int i) => (v.oid = OIDInt2 ∨ v.oid = OIDInt4 ∨ v.oid = OIDInt8) ∧ ∃ t, v.cell = some t ∧ parseInt t = some i
  | some (.text t) => isNumericOID v.oid = false ∧ v.cell = some t

/-- Two integers, or two texts. -/
def SqlValue.sameKind : SqlValue → SqlValue → Prop
  | .int _, .int _ => True
  | .text _, .text _ => True
  | _, _ => False

/-- The integers are exact as float64. -/
def ExactValue (x : Option SqlValue) : Prop := ∀ i, x = some (.int i) → ExactInt i

section atoms
variable (sc : Scope) (row : SqlRow)

/-- The row of the evaluator is `row`, on the columns of a condition. -/
def ReadsRow (e : Expr) : Prop := ∀ f ∈ e.columns, ∃ v, sc.resolveCol f = .ok v ∧ Represents v (row f)

/-- A literal, or a column whose name is none of the keywords that are read before the columns. -/
def PlainOperand (e : Expr) : Prop :=
  (∀ fields, e = .column fields → ∀ site, keyword env sc.sess site fields = none) ∧ ExactValue (sqlValue row e)

/-- The operands are plain, and values that are compared are of one kind. -/
def PlainAtom : Expr → Prop
  | .binary _ l r => PlainOperand env sc row l ∧ PlainOperand env sc row r ∧
      ∀ a ∈ sqlValue row l, ∀ b ∈ sqlValue row r, a.sameKind b
  | .isIn l items => PlainOperand env sc row l ∧ ∀ e ∈ items, PlainOperand env sc row e ∧
      ∀ a ∈ sqlValue row l, ∀ b ∈ sqlValue row e, a.sameKind b
  | .nullTest _ a => PlainOperand env sc row a
  | _ => False

end atoms

section plain
variable {env} {sc : Scope} {row : SqlRow} {site : Site} {v : Value} {x : Option SqlValue} {e : Expr}

theorem Represents.isNone (h : Represents v x) : v.cell.isNone = x.isNone := by
  match x, h with
  | none, h => rw [show v.cell = none from h]; rfl
  | some (.int i), ⟨_, t, ht, _⟩ | some (.text t), ⟨_, ht⟩ => rw [ht]; rfl

theorem Represents.cell {a : SqlValue} (h : Represents v (some a)) : ∃ t, v.cell = some t := by
  cases a with
  | int i => exact ⟨_, h.2.choose_spec.1⟩
  | text t => exact ⟨t, h.2⟩

theorem operand_eval (site : Site) (hoperand : e.isOperand = true) (hplain : PlainOperand env sc row e)
    (hreads : ReadsRow sc row e) : ∃ v, e.eval env sc site = .ok v ∧ Represents v (sqlValue row e) := by
  match e with
  | .column fields =>
    obtain ⟨v, hv, hrep⟩ := hreads fields (mem_singleton_self _)
    refine ⟨v, ?_, hrep⟩
    simp only [Expr.eval, evalColumn, hplain.1 fields rfl site]
    exact hv
  | .const (.int t) =>
    obtain ⟨i, hi⟩ := isSome_iff_exists.mp hoperand
    refine ⟨⟨some t, OIDInt4⟩, rfl, ?_⟩
    simp only [sqlValue, hi, map_some]
    exact ⟨.inr (.inl rfl), t, rfl, hi⟩
  | .const (.string t) => exact ⟨⟨some t, OIDText⟩, rfl, rfl, rfl⟩
  | .const .null => exact ⟨⟨none, OIDUnknown⟩, rfl, rfl⟩

theorem compareCells_order (hlaws : EnvLaws env) {w : Value} {a b : SqlValue} {t u : Bytes} (hv : Represents v (some a))
    (hw : Represents w (some b)) (ha : ExactValue (some a)) (hb : ExactValue (some b)) (hkind : a.sameKind b)
    (ht : v.cell = some t) (hu : w.cell = some u) : a.order b = some (compareCells env t v.oid u w.oid) := by
  match a, b, hkind with
  | .int i, .int j, _ =>
    obtain ⟨hoidv, t', ht', hi⟩ := hv
    obtain ⟨hoidw, u', hu', hj⟩ := hw
    cases ht.symm.trans ht'
    cases hu.symm.trans hu'
    have hnum : ∀ {o : Nat}, o = OIDInt2 ∨ o = OIDInt4 ∨ o = OIDInt8 → isNumericOID o = true ∧ o ≠ OIDNumeric := by
      rintro o (rfl | rfl | rfl)
      · exact ⟨by decide, by decide⟩
      · exact ⟨by decide, by decide⟩
      · exact ⟨by decide, by decide⟩
    unfold compareCells
    rw [(hnum hoidv).1, (hnum hoidw).1, Bool.and_self, if_pos rfl, if_neg (by simp [(hnum hoidv).2, (hnum hoidw).2]),
      hlaws.compareFloat_int hi hj (ha i rfl) (hb j rfl)]
    rfl
  | .text t', .text u', _ =>
    obtain ⟨hoidv, ht'⟩ := hv
    obtain ⟨-, hu'⟩ := hw
    cases ht.symm.trans ht'
    cases hu.symm.trans hu'
    unfold compareCells
    rw [hoidv, Bool.false_and, if_neg Bool.false_ne_true]
    rfl

theorem compare_taken (hlaws : EnvLaws env) (op : Bytes) {w : Value} {y : Option SqlValue} (hv : Represents v x)
    (hw : Represents w y) (hx : ExactValue x) (hy : ExactValue y) (hkind : ∀ a ∈ x, ∀ b ∈ y, a.sameKind b) :
    sqlCompare op x y = match v.cell, w.cell with
      | some t, some u => some (compareOp op (compareCells env t v.oid u w.oid))
      | _, _ => none := by
  match x, y with
  | none, y =>
    rw [show v.cell = none from hv]
    rfl
  | some a, none =>
    rw [show w.cell = none from hw]
    cases v.cell with
    | none | some t => rfl
  | some a, some b =>
    obtain ⟨t, ht⟩ := hv.cell
    obtain ⟨u, hu⟩ := hw.cell
    rw [ht, hu]
    simp only [sqlCompare, compareCells_order hlaws hv hw hx hy (hkind a rfl b rfl) ht hu, map_some]

theorem mem_columnsAll {es : List Expr} (he : e ∈ es) {f : List Bytes} (hf : f ∈ e.columns) : f ∈ columnsAll es := by
  induction es with
  | nil => cases he
  | cons x es ih =>
    rcases mem_cons.mp he with rfl | he
    · exact mem_append_left _ hf
    · exact mem_append_right _ (ih he)

theorem evalItems_eval (site : Site) {items : List Expr}
    (h : ∀ e ∈ items, ∀ site, ∃ v, e.eval env sc site = .ok v ∧ Represents v (sqlValue row e)) :
    ∃ vs, evalItems env sc site items = .ok vs ∧ List.Forall₂ (fun v e => Represents v (sqlValue row e)) vs items := by
  induction items generalizing site with
  | nil => exact ⟨[], rfl, .nil⟩
  | cons e items ih =>
    obtain ⟨v, hv, hrep⟩ := h e mem_cons_self site.l
    obtain ⟨vs, hvs, hall⟩ := ih site.r fun e he => h e (mem_cons_of_mem _ he)
    exact ⟨v :: vs, by simp only [evalItems, hv, hvs, bind, Except.bind], .cons hrep hall⟩

theorem inCandidates_taken (hlaws : EnvLaws env) {t : Bytes} (hv : Represents v x)
    (ht : v.cell = some t) (hx : ExactValue x) {vs : List Value} {items : List Expr}
    (hvs : List.Forall₂ (fun v e => Represents v (sqlValue row e)) vs items)
    (hitems : ∀ e ∈ items, ExactValue (sqlValue row e) ∧ ∀ a ∈ x, ∀ b ∈ sqlValue row e, a.sameKind b) :
    asBool (inCandidates env t v.oid vs) = true ↔ ∃ e ∈ items, sqlCompare (str "=") x (sqlValue row e) = some true := by
  have hany : vs.any (fun c => c.cell.any fun u => asBool (compare env (str "=") t v.oid u c.oid)) = true ↔
      ∃ e ∈ items, sqlCompare (str "=") x (sqlValue row e) = some true := by
    induction hvs with
    | nil => exact iff_of_false Bool.false_ne_true fun ⟨_, he, _⟩ => absurd he not_mem_nil
    | @cons c e vs items hc _ ih =>
      obtain ⟨he, hkind⟩ := hitems e mem_cons_self
      have hhead : c.cell.any (fun u => asBool (compare env (str "=") t v.oid u c.oid)) = true ↔
          sqlCompare (str "=") x (sqlValue row e) = some true := by
        rw [compare_taken hlaws _ hv hc hx he hkind, ht]
        cases c.cell with
        | none => exact iff_of_false Bool.false_ne_true nofun
        | some u => rw [any_some, compare, asBool_boolValue, Option.some.injEq]
      rw [any_cons, Bool.or_eq_true, hhead, ih fun e he => hitems e (mem_cons_of_mem _ he)]
      simp only [mem_cons, exists_eq_or_imp]
  rw [← hany]
  unfold inCandidates
  split
  · rename_i htrue
    exact iff_of_true rfl htrue
  · rename_i hfalse
    refine iff_of_false ?_ hfalse
    split
    · exact Bool.false_ne_true
    · exact Bool.false_ne_true

theorem plainAtom_taken (hlaws : EnvLaws env) (hwhere : e.isWhere = true) (hreads : ReadsRow sc row e)
    (hplain : PlainAtom env sc row e) : TakenAsTrue env sc row site e := by
  unfold PlainAtom at hplain
  split at hplain
  · rename_i op l r
    obtain ⟨hl, hr, hkind⟩ := hplain
    obtain ⟨⟨hop, hlop⟩, hrop⟩ : (isComparison op = true ∧ l.isOperand = true) ∧ r.isOperand = true := by
      simpa [Expr.isWhere] using hwhere
    obtain ⟨lv, hlv, hlrep⟩ := operand_eval site.l hlop hl fun f hf => hreads f (mem_append_left _ hf)
    obtain ⟨rv, hrv, hrrep⟩ := operand_eval site.r hrop hr fun f hf => hreads f (mem_append_right _ hf)
    have hsql := compare_taken hlaws op hlrep hrrep hl.2 hr.2 hkind
    simp only [TakenAsTrue, Expr.eval, hlv, hrv, bind, Except.bind, evalBinary, sqlTruth, hsql]
    cases lv.cell with
    | none => exact ⟨nullBool, rfl, iff_of_false Bool.false_ne_true (by simp)⟩
    | some t =>
      cases rv.cell with
      | none => exact ⟨nullBool, rfl, iff_of_false Bool.false_ne_true (by simp)⟩
      | some u =>
        simp only [hop, if_true]
        exact ⟨_, rfl, by rw [compare, asBool_boolValue, Option.some.injEq]⟩
  · rename_i l items
    obtain ⟨hl, hitems⟩ := hplain
    obtain ⟨hlop, hops⟩ : l.isOperand = true ∧ items.all Expr.isOperand = true := by simpa [Expr.isWhere] using hwhere
    obtain ⟨lv, hlv, hlrep⟩ := operand_eval site.l hlop hl fun f hf => hreads f (mem_append_left _ hf)
    have hitem : ∀ e ∈ items, ∀ site, ∃ v, e.eval env sc site = .ok v ∧ Represents v (sqlValue row e) := by
      intro e he site
      refine operand_eval site (List.all_eq_true.mp hops e he) (hitems e he).1 fun f hf => hreads f (mem_append_right _ ?_)
      exact mem_columnsAll he hf
    obtain ⟨vs, hvs, hall⟩ := evalItems_eval site.r hitem
    have htruth : sqlTruth row (.isIn l items) = some true ↔
        ∃ e ∈ items, sqlCompare (str "=") (sqlValue row l) (sqlValue row e) = some true := by
      rw [sqlTruth, Truth.any_eq_true, List.mem_map]
    rw [TakenAsTrue, htruth]
    simp only [Expr.eval, hlv, bind, Except.bind]
    cases ht : lv.cell with
    | none =>
      refine ⟨nullBool, rfl, iff_of_false Bool.false_ne_true ?_⟩
      have hnull : sqlValue row l = none := by
        rw [← isNone_iff_eq_none, ← hlrep.isNone, ht]
        rfl
      rintro ⟨e, -, he⟩
      rw [hnull] at he
      cases he
    | some t =>
      simp only [hvs]
      exact ⟨_, rfl, inCandidates_taken hlaws hlrep ht hl.2 hall fun e he => ⟨(hitems e he).1.2, (hitems e he).2⟩⟩
  · rename_i testNull a
    have hop : a.isOperand = true := by simpa [Expr.isWhere] using hwhere
    obtain ⟨v, hv, hrep⟩ := operand_eval site hop hplain hreads
    refine ⟨boolValue (v.cell.isNone == testNull), by simp only [Expr.eval, hv, bind, Except.bind], ?_⟩
    rw [asBool_boolValue, hrep.isNone, sqlTruth, Option.some.injEq]
  · cases hplain

mutual

theorem plain_atoms (hlaws : EnvLaws env) (site : Site) (e : Expr) (hwhere : e.isWhere = true) (hreads : ReadsRow sc row e)
    (hplain : e.atoms (fun _ => PlainAtom env sc row) row site) : e.atoms (TakenAsTrue env sc row) row site := by
  match e with
  | .boolExpr .not [a] =>
    have ha : a.isWhere = true := by simpa [Expr.isWhere, allWhere] using hwhere
    simp only [Expr.atoms, atomsFirst] at hplain ⊢
    exact plain_atoms hlaws site a ha (fun f hf => hreads f (mem_append_left _ hf)) hplain
  | .boolExpr .not [] | .boolExpr .not (_ :: _ :: _) | .const c | .param n | .column fields | .minus a
  | .caseExpr arg whens els | .typeCast a ty | .call name args | .setToDefault => cases hwhere
  | .boolExpr .and args | .boolExpr .or args =>
    have hargs : allWhere args = true := by simpa [Expr.isWhere] using hwhere
    simp only [Expr.atoms] at hplain ⊢
    exact plain_atomsUntil hlaws site args hargs hreads hplain
  | .binary op l r | .isIn l items | .nullTest testNull a => exact plainAtom_taken hlaws hwhere hreads hplain

theorem plain_atomsUntil (hlaws : EnvLaws env) {stop : Bool} (site : Site) (es : List Expr) (hwhere : allWhere es = true)
    (hreads : ∀ f ∈ columnsAll es, ∃ v, sc.resolveCol f = .ok v ∧ Represents v (row f))
    (hplain : atomsUntil (fun _ => PlainAtom env sc row) row stop site es) :
    atomsUntil (TakenAsTrue env sc row) row stop site es := by
  match es with
  | [] => trivial
  | e :: es =>
    have hboth : e.isWhere = true ∧ allWhere es = true := by simpa [allWhere] using hwhere
    simp only [atomsUntil] at hplain ⊢
    exact ⟨plain_atoms hlaws site.l e hboth.1 (fun f hf => hreads f (mem_append_left _ hf)) hplain.1, fun hgo =>
      plain_atomsUntil hlaws site.r es hboth.2 (fun f hf => hreads f (mem_append_right _ hf)) (hplain.2 hgo)⟩

end

end plain

/-! ## Conditions -/

/-- Where the comparisons, IN lists and NULL tests that are evaluated are taken exactly when they are TRUE, so is the
condition, if and only if it is not one that is UNKNOWN and that is TRUE with UNKNOWN comparisons FALSE. Comparisons
of integers exact as float64, and of texts, are so. -/
theorem where_truth_iff (sc : Scope) (row : SqlRow) (site : Site) (e : Expr) (hwhere : e.isWhere = true) :
    (e.atoms (TakenAsTrue env sc row) row site →
      (TakenAsTrue env sc row site e ↔ ¬(sqlTruth row e = none ∧ collapsed row e = true))) ∧
    (EnvLaws env → ReadsRow sc row e → e.atoms (fun _ => PlainAtom env sc row) row site →
      (TakenAsTrue env sc row site e ↔ ¬(sqlTruth row e = none ∧ collapsed row e = true))) :=
  ⟨taken_iff hwhere, fun hlaws hreads hplain => taken_iff hwhere (plain_atoms hlaws site e hwhere hreads hplain)⟩

/-- A table m(a int4, b text) and its row with `a` NULL. -/
def mixedSchema : TableSchema := ⟨str "m", [.plain "a" OIDInt4, .plain "b" OIDText], none, false, false, []⟩

def mixedScope (a : Datum) : Scope := rowScope demoEnv mixedSchema (str "m") [a, some (str "x")]

def mixedRow (a : Option Int) : SqlRow := fun f => if f = [str "a"] then a.map .int else none

def aIsOne : Expr := .binary (str "=") (.column [str "a"]) (.const (.int (str "1")))

/-- a IS NULL OR NOT (a = 1), of a NULL: the NOT is not evaluated. NOT (a = 1) AND a = 1, of a NULL: the NOT is taken,
and the other operand is not. -/
theorem where_truth_null : TakenAsTrue demoEnv (mixedScope none) (mixedRow none) (.root 0)
      (.boolExpr .or [.nullTest true (.column [str "a"]), .boolExpr .not [aIsOne]]) ∧
    TakenAsTrue demoEnv (mixedScope none) (mixedRow none) (.root 0) (.boolExpr .and [.boolExpr .not [aIsOne], aIsOne]) := by
  have hcolumn : PlainOperand demoEnv (mixedScope none) (mixedRow none) (.column [str "a"]) :=
    ⟨fun fields h site => by rw [← Expr.column.inj h]; rfl, fun i hi => nomatch hi⟩
  have hone : PlainOperand demoEnv (mixedScope none) (mixedRow none) (.const (.int (str "1"))) :=
    ⟨fun fields h => (nomatch h), fun i hi => by cases hi; decide⟩
  have hatom : PlainAtom demoEnv (mixedScope none) (mixedRow none) aIsOne := ⟨hcolumn, hone, fun a ha => nomatch ha⟩
  have hreads : ∀ e : Expr, (∀ f ∈ e.columns, f = [str "a"]) → ReadsRow (mixedScope none) (mixedRow none) e :=
    fun e he f hf => he f hf ▸ ⟨⟨none, OIDInt4⟩, rfl, rfl⟩
  constructor
  · refine ((where_truth_iff demoEnv _ _ _ _ (by decide)).2 demoEnv_laws (hreads _ (by decide)) ?_).mpr (by decide)
    exact ⟨hcolumn, fun hgo => absurd (by decide) hgo⟩
  · refine ((where_truth_iff demoEnv _ _ _ _ (by decide)).2 demoEnv_laws (hreads _ (by decide)) ?_).mpr (by decide)
    exact ⟨hatom, fun _ => ⟨hatom, fun _ => trivial⟩⟩

/-- NOT (a = 1) of a NULL, and a NOT IN (1, NULL) of a 2, are UNKNOWN, and the rows are taken. -/
theorem unknown_not_is_taken :
    sqlTruth (mixedRow none) (.boolExpr .not [.binary (str "=") (.column [str "a"]) (.const (.int (str "1")))]) = none ∧
    ((Expr.boolExpr .not [.binary (str "=") (.column [str "a"]) (.const (.int (str "1")))]).eval demoEnv
      (mixedScope none) (.root 0)).map asBool = .ok true ∧
    sqlTruth (mixedRow (some 2)) (.boolExpr .not [.isIn (.column [str "a"]) [.const (.int (str "1")), .const .null]]) = none ∧
    ((Expr.boolExpr .not [.isIn (.column [str "a"]) [.const (.int (str "1")), .const .null]]).eval demoEnv
      (mixedScope (some (str "2"))) (.root 0)).map asBool = .ok true := by
  decide +kernel

end BasuyuDb.Executor
