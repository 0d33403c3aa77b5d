import BasuyuDb.Executor.Lookups

/-
  `predicateImplies` of index.go: a partial index is used where one of the conjuncts of WHERE has the text of its
  predicate. The texts are compared by `strings.EqualFold`, so WHERE v = 'A' is taken to imply v = 'a'; `c` and
  `c = TRUE` are taken for each other, whatever the column holds; and the index is kept without a session, so
  current_user is not that of the query. Where the literals are spelled alike, the columns are the table's own and
  true cells are 't', a match is an implication (`partial_implied`).
-/

namespace BasuyuDb.Executor
open KvLib Storage BasuyuDb.Parser List Option

variable (env : Env)

/-! ## What an expression is over -/

mutual

/-- All columns and functions of the expression are as said, and it has no parameters. -/
def Expr.Over (col : List Bytes → Prop) (fn : Bytes → Prop) : Expr → Prop
  | .const _ => True
  | .param _ => False
  | .column fields => col fields
  | .minus a => a.Over col fn
  | .binary _ l r => l.Over col fn ∧ r.Over col fn
  | .isIn l items => l.Over col fn ∧ OverAll col fn items
  | .boolExpr _ args => OverAll col fn args
  | .nullTest _ a => a.Over col fn
  | .caseExpr arg whens els => OverOpt col fn arg ∧ OverWhens col fn whens ∧ OverOpt col fn els
  | .typeCast a _ => a.Over col fn
  | .call name args => fn name ∧ OverAll col fn args
  | .setToDefault => True

def OverAll (col : List Bytes → Prop) (fn : Bytes → Prop) : List Expr → Prop
  | [] => True
  | e :: es => e.Over col fn ∧ OverAll col fn es

def OverOpt (col : List Bytes → Prop) (fn : Bytes → Prop) : Option Expr → Prop
  | none => True
  | some e => e.Over col fn

def OverWhens (col : List Bytes → Prop) (fn : Bytes → Prop) : List (Expr × Expr) → Prop
  | [] => True
  | (cond, result) :: whens => cond.Over col fn ∧ result.Over col fn ∧ OverWhens col fn whens

end

/-- Names do not depend on their case, nor the columns and functions on the moment. -/
structure SameNames (sc sc' : Scope) (col : List Bytes → Prop) (fn : Bytes → Prop) : Prop where
  oid : ∀ t, env.oidForTypeName (lowerText t) = env.oidForTypeName t
  column : ∀ f, col f → ∀ site site', evalColumn env sc site f = evalColumn env sc' site' (f.map lowerText)
  call : ∀ f, fn f → ∀ site site' args, env.call site sc.sess f args = env.call site' sc'.sess (lowerText f) args

section spelled
variable {env} {sc sc' : Scope} {col : List Bytes → Prop} {fn : Bytes → Prop}

-- the mutual theorems use it through each other
set_option linter.unusedSectionVars false
variable (hs : SameNames env sc sc' col fn)
include hs

mutual

theorem eval_spelled (e : Expr) (h : e.Over col fn) (site site' : Site) :
    e.eval env sc site = (e.spelled id).eval env sc' site' := by
  match e with
  | .const (.bool val) =>
    by_cases hval : val = str "true"
    · simp only [Expr.spelled, Const.spelled, Expr.eval, evalConst, hval, if_true]
    · have hfalse : ¬str "false" = str "true" := by decide
      simp only [Expr.spelled, Const.spelled, Expr.eval, evalConst, hval, hfalse, if_false]
  | .const .null | .const (.int _) | .const (.float _) | .const (.string _) | .setToDefault => rfl
  | .param n => exact h.elim
  | .column fields => exact hs.column fields h site site'
  | .minus a | .nullTest t a => simp only [Expr.spelled, Expr.eval, eval_spelled a h site site']
  | .binary op a b =>
    simp only [Expr.spelled, Expr.eval, eval_spelled a h.1 site.l site'.l, eval_spelled b h.2 site.r site'.r]
  | .isIn a items =>
    simp only [Expr.spelled, Expr.eval, eval_spelled a h.1 site.l site'.l,
      evalItems_spelled items h.2 site.r site'.r]
  | .boolExpr .not args => simp only [Expr.spelled, Expr.eval, evalFirst_spelled args h site site']
  | .boolExpr .and args => simp only [Expr.spelled, Expr.eval, evalAnd_spelled args h site site']
  | .boolExpr .or args => simp only [Expr.spelled, Expr.eval, evalOr_spelled args h site site']
  | .caseExpr arg whens els =>
    simp only [Expr.spelled, Expr.eval, evalOpt_spelled arg h.1 site.l site'.l,
      evalOpt_spelled els h.2.2 site.r.r site'.r.r,
      fun av => evalWhens_spelled av whens h.2.1 site.r.l site'.r.l]
  | .typeCast a ty => simp only [Expr.spelled, Expr.eval, eval_spelled a h site site', hs.oid]
  | .call name args =>
    simp only [Expr.spelled, Expr.eval, evalAll_spelled args h.2 site.l site'.l, hs.call name h.1 site site']

theorem evalAll_spelled (es : List Expr) (h : OverAll col fn es) (site site' : Site) :
    evalAll env sc site es = evalAll env sc' site' (spelledAll id es) := by
  match es with
  | [] => rfl
  | e :: es =>
    simp only [spelledAll, evalAll, eval_spelled e h.1 site.l site'.l, evalAll_spelled es h.2 site.r site'.r]

theorem evalItems_spelled (es : List Expr) (h : OverAll col fn es) (site site' : Site) :
    evalItems env sc site es = evalItems env sc' site' (spelledAll id es) := by
  match es with
  | [] => rfl
  | e :: es =>
    simp only [spelledAll, evalItems, eval_spelled e h.1 site.l site'.l,
      evalItems_spelled es h.2 site.r site'.r]

theorem evalFirst_spelled (es : List Expr) (h : OverAll col fn es) (site site' : Site) :
    evalFirst env sc site es = evalFirst env sc' site' (spelledAll id es) := by
  match es with
  | [] => rfl
  | e :: es => simp only [spelledAll, evalFirst, eval_spelled e h.1 site site']

theorem evalAnd_spelled (es : List Expr) (h : OverAll col fn es) (site site' : Site) :
    evalAnd env sc site es = evalAnd env sc' site' (spelledAll id es) := by
  match es with
  | [] => rfl
  | e :: es =>
    simp only [spelledAll, evalAnd, eval_spelled e h.1 site.l site'.l, evalAnd_spelled es h.2 site.r site'.r]

theorem evalOr_spelled (es : List Expr) (h : OverAll col fn es) (site site' : Site) :
    evalOr env sc site es = evalOr env sc' site' (spelledAll id es) := by
  match es with
  | [] => rfl
  | e :: es =>
    simp only [spelledAll, evalOr, eval_spelled e h.1 site.l site'.l, evalOr_spelled es h.2 site.r site'.r]

theorem evalOpt_spelled (e : Option Expr) (h : OverOpt col fn e) (site site' : Site) :
    evalOpt env sc site e = evalOpt env sc' site' (spelledOpt id e) := by
  match e with
  | none => rfl
  | some e => simp only [spelledOpt, evalOpt, eval_spelled e h site site']

theorem evalWhens_spelled (arg : Option Value) (whens : List (Expr × Expr))
    (h : OverWhens col fn whens) (site site' : Site) :
    evalWhens env sc site arg whens = evalWhens env sc' site' arg (spelledWhens id whens) := by
  match whens with
  | [] => rfl
  | (cond, result) :: whens =>
    simp only [spelledWhens, evalWhens, eval_spelled cond h.1 site.l.l site'.l.l,
      eval_spelled result h.2.1 site.l.r site'.l.r, evalWhens_spelled arg whens h.2.2 site.r site'.r]

end

end spelled

/-! ## Columns of the table -/

def Ascii (t : Bytes) : Prop := ∀ b ∈ t, b.val < 128

/-- Neither a control character nor a blank. -/
def isGraphic (b : Byte) : Bool := 32 < b.val

/-- What Go's functions of texts do on ASCII, and `deparseExpr`. -/
structure TextLaws : Prop where
  deparse : env.deparseExpr = deparseExpr
  trim : ∀ t, Ascii t → t.head?.all isGraphic = true → t.getLast?.all isGraphic = true → env.trimSpace t = t
  fold_ascii : ∀ a b, Ascii a → Ascii b → env.fold a = env.fold b → lowerText a = lowerText b
  fold_lower : ∀ a, env.fold (lowerText a) = env.fold a
  toLower_lower : ∀ a, env.toLower (lowerText a) = env.toLower a
  oid : ∀ t, env.oidForTypeName (lowerText t) = env.oidForTypeName t

/-- A column of the table, under its own name or none, and no keyword. -/
@[mk_iff] structure OwnColumn (sch : TableSchema) (fields : List Bytes) : Prop where
  keyword : ∀ sess site, keyword env sess site fields = none
  qualifier : 1 < fields.length → env.fold (fields.headD []) = env.fold sch.name
  index : (sch.colIndex env (fields.getLastD [])).isSome

def columnOf (sch : TableSchema) (cells : Data) (fields : List Bytes) : Value :=
  let i := (sch.colIndex env (fields.getLastD [])).getD 0
  ⟨cellAt cells i, sch.oidAt i⟩

section columns
variable {env} {sch : TableSchema} {cells : Data} {fields : List Bytes}

theorem OwnColumn.row (h : OwnColumn env sch fields) (table : Bytes) (site : Site) :
    evalColumn env (rowScope env sch table cells) site fields = .ok (columnOf env sch cells fields) := by
  obtain ⟨i, hi⟩ := isSome_iff_exists.mp h.index
  have hown : ¬(1 < fields.length ∧ ¬env.equalFold (fields.headD []) table ∧ ¬env.equalFold (fields.headD []) sch.name) := by
    rintro ⟨hlen, -, hne⟩
    exact hne (decide_eq_true (h.qualifier hlen))
  simp only [evalColumn, rowScope, h.keyword, rowResolver, if_neg hown, columnValue, hi, columnOf, getD_some]

theorem OwnColumn.query (h : OwnColumn env sch fields) (sess : Session) (params : Data) (aliasName : Bytes) (site : Site) :
    evalColumn env (rowsScope env sess params [⟨aliasName, sch, cells⟩]) site fields = .ok (columnOf env sch cells fields) := by
  obtain ⟨i, hi⟩ := isSome_iff_exists.mp h.index
  simp only [evalColumn, rowsScope, h.keyword, combinedResolver, columnOf, hi, getD_some]
  by_cases hlen : 1 < fields.length
  · have hfind : (env.equalFold aliasName (fields.headD []) || env.equalFold sch.name (fields.headD [])) = true := by
      rw [Bool.or_eq_true]
      exact .inr (decide_eq_true (h.qualifier hlen).symm)
    simp only [hlen, if_true, find?_cons, hfind, hi, Binding.cellValue]
  · simp only [hlen, if_false, filterMap_cons, hi, map_some, filterMap_nil, Binding.cellValue]

theorem getLastD_lower (fields : List Bytes) : (fields.map lowerText).getLastD [] = lowerText (fields.getLastD []) := by
  rw [getLastD_eq_getLast?, getLastD_eq_getLast?, getLast?_map]
  cases fields.getLast? <;> rfl

theorem headD_lower (fields : List Bytes) : (fields.map lowerText).headD [] = lowerText (fields.headD []) := by
  cases fields <;> rfl

theorem colIndex_lower (hlaws : TextLaws env) (c : Bytes) : sch.colIndex env (lowerText c) = sch.colIndex env c := by
  simp only [TableSchema.colIndex, Env.equalFold, hlaws.fold_lower]

theorem columnOf_lower (hlaws : TextLaws env) : columnOf env sch cells (fields.map lowerText) = columnOf env sch cells fields := by
  simp only [columnOf, getLastD_lower, colIndex_lower hlaws]

theorem keyword_lower (hlaws : TextLaws env) (sess : Option Session) (site : Site) :
    keyword env sess site (fields.map lowerText) = keyword env sess site fields := by
  match fields with
  | [] => rfl
  | [name] => simp only [map_cons, map_nil, keyword, niladicKeyword, hlaws.toLower_lower]
  | _ :: _ :: _ => rfl

theorem ownColumn_lower (hlaws : TextLaws env) : OwnColumn env sch (fields.map lowerText) ↔ OwnColumn env sch fields := by
  simp only [ownColumn_iff, keyword_lower hlaws, headD_lower, hlaws.fold_lower, length_map, getLastD_lower,
    colIndex_lower hlaws]

end columns

/-- The function gives the same result at all moments and for all users. -/
def StableCall (name : Bytes) : Prop :=
  ∀ site sess site' sess' args, env.call site sess name args = env.call site' sess' (lowerText name) args

/-- The expression is over columns of the table and functions that are stable. -/
def Timeless (sch : TableSchema) (e : Expr) : Prop := e.Over (OwnColumn env sch) (StableCall env)

section timeless
variable {env} {sch : TableSchema} {cells : Data} {c p : Expr}

/-- A conjunct and a predicate that differ in the case of names only have one value, the one in the query and the other
in the index. -/
theorem eval_timeless (hlaws : TextLaws env) (hc : Timeless env sch c) (hp : Timeless env sch p)
    (h : c.spelled id = p.spelled id) (sess : Session) (params : Data) (aliasName table : Bytes) (site site' : Site) :
    c.eval env (rowsScope env sess params [⟨aliasName, sch, cells⟩]) site = p.eval env (rowScope env sch table cells) site' := by
  have hsame : ∀ sc, (∀ f, OwnColumn env sch f → ∀ st, evalColumn env sc st f = .ok (columnOf env sch cells f)) →
      SameNames env sc (rowScope env sch table cells) (OwnColumn env sch) (StableCall env) := by
    intro sc hsc
    refine ⟨hlaws.oid, fun f hf st st' => ?_, fun f hf st st' args => hf ..⟩
    rw [hsc f hf, ((ownColumn_lower hlaws).mpr hf).row, columnOf_lower hlaws]
  rw [eval_spelled (hsame _ fun f hf => hf.query sess params aliasName) c hc site site', h,
    ← eval_spelled (hsame _ fun f hf => hf.row table) p hp site' site']

end timeless

/-! ## Texts that match -/

def asColumn : Expr → Option (List Bytes)
  | .column fields => some fields
  | _ => none

/-- The column of c, c = TRUE or TRUE = c. -/
def boolColumn : Expr → Option (List Bytes)
  | .column fields => some fields
  | .binary op l r =>
    if op = str "=" then
      if isTrueConst l then asColumn r else if isTrueConst r then asColumn l else none
    else none
  | _ => none

def equalsTrue (fields : List Bytes) : Expr := .binary (str "=") (.column fields) (.const (.bool (str "true")))

/-- The expressions whose texts stand for the predicate. -/
def equivalents (e : Expr) : List Expr :=
  e :: (boolColumn e).elim [] fun fields => [.column fields, equalsTrue fields]

def isTrueText (fields : List Bytes) : Bytes := str "(" ++ joinDots fields ++ str " IS TRUE)"

section forms
variable {e e' : Expr} {fields : List Bytes}

theorem boolColumn_equivalents (h : e' ∈ equivalents e) : boolColumn e' = boolColumn e := by
  unfold equivalents at h
  rcases mem_cons.mp h with rfl | h
  · rfl
  · cases hb : boolColumn e with
    | none => simp [hb] at h
    | some fields =>
      simp only [hb, elim_some, mem_cons, not_mem_nil, or_false] at h
      rcases h with rfl | rfl
      · rfl
      · simp [boolColumn, equalsTrue, isTrueConst, asColumn]

theorem isTrueConst_spelled (lit : Bytes → Bytes) (e : Expr) : isTrueConst (e.spelled lit) = isTrueConst e := by
  match e with
  | .const (.bool val) =>
    by_cases h : val = str "true"
    · simp [Expr.spelled, Const.spelled, isTrueConst, h]
    · have hfalse : ¬str "false" = str "true" := by decide
      simp [Expr.spelled, Const.spelled, isTrueConst, h, hfalse]
  | .const .null | .const (.int _) | .const (.float _) | .const (.string _) | .param _ | .column _ | .minus _ => rfl
  | .binary _ _ _ | .isIn _ _ | .boolExpr _ _ | .nullTest _ _ | .caseExpr _ _ _ | .typeCast _ _ | .call _ _ => rfl
  | .setToDefault => rfl

theorem asColumn_spelled (lit : Bytes → Bytes) (e : Expr) :
    asColumn (e.spelled lit) = (asColumn e).map (List.map lowerText) := by
  cases e <;> rfl

theorem boolColumn_spelled (lit : Bytes → Bytes) (e : Expr) :
    boolColumn (e.spelled lit) = (boolColumn e).map (List.map lowerText) := by
  cases e with
  | binary op l r =>
    simp only [Expr.spelled, boolColumn, isTrueConst_spelled, asColumn_spelled]
    split
    · split
      · rfl
      · split <;> rfl
    · rfl
  | _ => rfl

theorem asColumn_eq (h : asColumn e = some fields) : e = .column fields := by
  cases e with
  | column f => exact congrArg Expr.column (some.inj h)
  | _ => cases h

theorem isTrueConst_eq (h : isTrueConst e = true) : e = .const (.bool (str "true")) := by
  match e with
  | .const (.bool val) => exact congrArg (fun v => Expr.const (.bool v)) (of_decide_eq_true h)

theorem boolColumn_cases (h : boolColumn e = some fields) : e = .column fields ∨ e = equalsTrue fields ∨
      e = .binary (str "=") (.const (.bool (str "true"))) (.column fields) := by
  match e with
  | .column f => exact .inl (congrArg Expr.column (some.inj h))
  | .binary op l r =>
    simp only [boolColumn] at h
    split at h
    case isFalse => cases h
    case isTrue hop =>
      subst hop
      split at h
      case isTrue hl => exact .inr (.inr (by rw [isTrueConst_eq hl, asColumn_eq h]))
      case isFalse =>
        split at h
        case isTrue hr => exact .inr (.inl (by rw [isTrueConst_eq hr, asColumn_eq h]; rfl))
        case isFalse => cases h

theorem booleanEquivForms_eq (e : Expr) (canon : Bytes) : booleanEquivForms e canon ⊆
    canon :: (boolColumn e).elim [] (fun fields => joinDots fields :: trueForms fields) := by
  match e with
  | .column fields => simp [booleanEquivForms, boolColumn]
  | .binary op l r =>
    simp only [booleanEquivForms, boolColumn]
    by_cases hop : op = str "="
    · simp only [hop, if_true]
      by_cases hl : isTrueConst l = true
      · simp only [hl, if_true]
        cases r <;> simp [asColumn]
      · simp only [hl]
        by_cases hr : isTrueConst r = true
        · cases l <;> simp [asColumn, hr]
        · cases l <;> simp [hr]
    · simp [hop]
  | .const _ | .param _ | .minus _ | .isIn _ _ | .boolExpr _ _ | .nullTest _ _ | .caseExpr _ _ _ | .typeCast _ _
  | .call _ _ | .setToDefault => simp [booleanEquivForms]

theorem deparse_equalsTrue (fields : List Bytes) :
    deparseExpr (equalsTrue fields) = .ok (str "(" ++ joinDots fields ++ str " = TRUE)") := by
  have hparts : str " " ++ (str "=" ++ (str " " ++ (str "TRUE" ++ str ")"))) = str " = TRUE)" := by decide
  simp only [equalsTrue, deparseExpr, deparseConst, if_true, bind, Except.bind, append_assoc, hparts]

theorem mem_booleanEquivForms {canon a : Bytes} (hcanon : deparseExpr e = .ok canon) (ha : a ∈ booleanEquivForms e canon) :
    (∃ e' ∈ equivalents e, deparseExpr e' = .ok a) ∨ ∃ fields, boolColumn e = some fields ∧ a = isTrueText fields := by
  rcases mem_cons.mp (booleanEquivForms_eq e canon ha) with rfl | ha
  · exact .inl ⟨e, mem_cons_self .., hcanon⟩
  · cases hb : boolColumn e with
    | none => simp [hb] at ha
    | some fields =>
      simp only [hb, elim_some, trueForms, mem_cons, not_mem_nil, or_false] at ha
      rcases ha with rfl | rfl | rfl
      · exact .inl ⟨.column fields, by simp [equivalents, hb], rfl⟩
      · exact .inl ⟨equalsTrue fields, by simp [equivalents, hb], deparse_equalsTrue fields⟩
      · exact .inr ⟨fields, rfl, rfl⟩

theorem isPlain_equivalents (h : e.isPlain = true) (he' : e' ∈ equivalents e) : e'.isPlain = true := by
  unfold equivalents at he'
  rcases mem_cons.mp he' with rfl | he'
  · exact h
  · cases hb : boolColumn e with
    | none => simp [hb] at he'
    | some fields =>
      have hcol : (Expr.column fields).isPlain = true := by
        rcases boolColumn_cases hb with rfl | rfl | rfl
        · exact h
        · simp only [equalsTrue, Expr.isPlain, Bool.and_eq_true] at h ⊢
          exact h.1.2
        · simp only [Expr.isPlain, Bool.and_eq_true] at h ⊢
          exact h.2
      have heq : (equalsTrue fields).isPlain = true := by
        have hop : (str "=" ≠ [] && (str "=").all fun b => b ≠ 32 && !isLetter b) = true := by decide
        simp only [equalsTrue, Expr.isPlain, hop, isPlainConst, Bool.true_and, Bool.and_true] at hcol ⊢
        exact hcol
      simp only [hb, elim_some, mem_cons, not_mem_nil, or_false] at he'
      rcases he' with rfl | rfl
      · exact hcol
      · exact heq

theorem text_ne_isTrueText (he : e.isPlain = true) (hcol : (Expr.column fields).isPlain = true) :
    e.text ≠ lowerText (isTrueText fields) := by
  intro heq
  have htext : lowerText (isTrueText fields) =
      str "(" ++ ((Expr.column fields).text ++ (str " " ++ (str "is" ++ (str " " ++ (str "true)" ++ []))))) := by
    have hend : lowerText (str " IS TRUE)") = str " " ++ (str "is" ++ (str " " ++ (str "true)" ++ []))) := by decide
    have hopen : lowerText (str "(") = str "(" := by decide
    simp only [isTrueText, lowerText_append, hend, hopen, Expr.text, append_assoc]
  have hread := read_text e he (by omega : e.steps ≤ e.steps + 4) (fun b hb => nomatch hb : Ends [])
  have hnone : readExpr (e.steps + 4) (lowerText (isTrueText fields)) = none := by
    have hcolread := @read_text (.column fields) hcol (e.steps + 2) (by simp only [Expr.steps]; omega)
    have hnull : skipWord (str "null)") (str "true)" ++ []) = none := by decide
    have hnot : skipWord (str "not null)") (str "true)" ++ []) = none := by decide
    rw [htext, read_operand hcol hcolread (ends_blank _), readOperator_blank (by decide +kernel), readOperands,
      if_pos (by decide), hnull, hnot]
    rfl
  rw [append_nil, heq, hnone] at hread
  cases hread

end forms

/-! ### Ends of the texts -/

section ends
variable {e : Expr} {s t : Bytes}

theorem last_of_all (h : s.all isGraphic = true) : s.getLast?.all isGraphic = true := by
  cases hlast : s.getLast? with
  | none => rfl
  | some b => exact List.all_eq_true.mp h b (mem_of_getLast? hlast)

theorem last_append (hne : t ≠ []) (h : t.getLast?.all isGraphic = true) : (s ++ t).getLast?.all isGraphic = true := by
  rw [getLast?_append_of_ne_nil _ hne]
  exact h

theorem last_close : (s ++ str ")").getLast?.all isGraphic = true := last_append (by decide) (by decide)

theorem isGraphic_digit {b : Byte} (h : isDigit b = true) : isGraphic b = true := by
  simp only [isDigit, isGraphic, decide_eq_true_eq] at h ⊢
  omega

theorem isGraphic_namePart : ∀ b : Byte, isNamePart b = true → isGraphic b = true := by decide +kernel

theorem isGraphic_lower : ∀ b : Byte, isGraphic (lowerByte b) = isGraphic b := by decide +kernel

theorem last_lower (h : s.all isGraphic = true) : (lowerText s).getLast?.all isGraphic = true := by
  refine last_of_all ?_
  rw [lowerText, List.all_map]
  simpa only [Function.comp_def, isGraphic_lower] using h

theorem text_last (e : Expr) (h : e.isPlain = true) : e.text.getLast?.all isGraphic = true := by
  match e with
  | .const .null => exact last_of_all (by decide)
  | .const (.bool val) =>
    by_cases hval : val = str "true"
    · simp only [Expr.text, deparseConst, hval, if_true]
      exact last_of_all (by decide)
    · simp only [Expr.text, deparseConst, hval, if_false]
      exact last_of_all (by decide)
  | .const (.string val) =>
    have htext : (Expr.const (.string val)).text = lowerText (39 :: doubleQuotes val) ++ [39] := by
      simp only [Expr.text, deparseConst, ← cons_append, lowerText_append]
      rfl
    rw [htext]
    exact last_append (by decide) (by decide)
  | .const (.int val) =>
    simp only [Expr.isPlain, isPlainConst, Bool.and_eq_true] at h
    exact last_lower (List.all_eq_true.mpr fun b hb => isGraphic_digit (List.all_eq_true.mp h.2 b hb))
  | .const (.float val) =>
    simp only [Expr.isPlain, isPlainConst, Bool.and_eq_true] at h
    obtain ⟨⟨-, hdot⟩, hfrac⟩ := h
    refine last_lower (List.all_eq_true.mpr fun b hb => ?_)
    change b ∈ val at hb
    rw [← takeWhile_append_dropWhile (p := isDigit) (l := val), mem_append] at hb
    rcases hb with hb | hb
    · exact isGraphic_digit (mem_takeWhile_imp hb)
    · cases hrest : val.dropWhile isDigit with
      | nil => simp [hrest] at hb
      | cons d rest =>
        simp only [hrest, head?_cons, decide_eq_true_eq, Option.some.injEq, tail_cons] at hdot hfrac
        rw [hrest, mem_cons] at hb
        rcases hb with rfl | hb
        · rw [hdot]
          decide
        · exact isGraphic_digit (List.all_eq_true.mp hfrac b hb)
  | .column fields =>
    simp only [Expr.isPlain, isPlainName, Bool.and_eq_true] at h
    exact last_lower (List.all_eq_true.mpr fun b hb => isGraphic_namePart b (List.all_eq_true.mp h.2.1.1.2 b hb))
  | .minus a | .binary _ _ _ | .boolExpr .not _ | .boolExpr .and _ | .boolExpr .or _ | .typeCast _ _ | .call _ _ =>
    exact last_close
  | .isIn _ _ | .nullTest true _ | .nullTest false _ | .caseExpr _ _ _ => exact last_append (by decide) (by decide)
  | .param _ | .setToDefault => exact absurd h Bool.false_ne_true

theorem text_head (h : e.isPlain = true) : e.text.head?.all isGraphic = true := by
  rcases text_start e h with ⟨b, s, hs, hb⟩ | ⟨w, s, hs, hword⟩
  · rw [hs]
    rcases hb with rfl | rfl | hb
    · rfl
    · rfl
    · exact isGraphic_digit hb
  · obtain ⟨b, t, rfl, -⟩ := hword.first
    rw [hs]
    exact isGraphic_namePart b (hword.parts b mem_cons_self)

theorem trim_deparse {env : Env} (hlaws : TextLaws env) (h : e.isPlain = true) (ht : deparseExpr e = .ok t) (hascii : Ascii t) :
    env.trimSpace t = t := by
  obtain ⟨u, hu, hlow⟩ := deparse_text e h
  cases hu.symm.trans ht
  have hhead := text_head h
  have hlast := text_last e h
  rw [← hlow, lowerText, head?_map, Option.all_map] at hhead
  rw [← hlow, lowerText, getLast?_map, Option.all_map] at hlast
  simp only [isGraphic_lower] at hhead hlast
  exact hlaws.trim _ hascii hhead hlast

end ends

/-! ### A match -/

section matching
variable {env} {c p : Expr} {t u : Bytes}

theorem ascii_append {s t : Bytes} : Ascii (s ++ t) ↔ Ascii s ∧ Ascii t := by
  simp only [Ascii, mem_append, or_imp, forall_and]

theorem ascii_joinDots {fields : List Bytes} (ht : deparseExpr c = .ok t) (hascii : Ascii t)
    (hb : boolColumn c = some fields) : Ascii (joinDots fields) := by
  rcases boolColumn_cases hb with rfl | rfl | rfl
  · cases ht
    exact hascii
  · cases (deparse_equalsTrue fields).symm.trans ht
    simp only [ascii_append] at hascii
    exact hascii.1.2
  · simp only [deparseExpr, bind, Except.bind, Except.ok.injEq] at ht
    subst ht
    simp only [ascii_append] at hascii
    exact hascii.1.2

theorem column_mem_equivalents {fields : List Bytes} (hb : boolColumn c = some fields) :
    .column fields ∈ equivalents c := by
  simp [equivalents, hb]

theorem ascii_forms (ht : deparseExpr c = .ok t) (hascii : Ascii t) {a : Bytes} (ha : a ∈ booleanEquivForms c t) : Ascii a := by
  rcases mem_cons.mp (booleanEquivForms_eq c t ha) with rfl | ha
  · exact hascii
  · cases hb : boolColumn c with
    | none => simp [hb] at ha
    | some fields =>
      have hjoin : Ascii (joinDots fields) := ascii_joinDots ht hascii hb
      have hfixed : Ascii (str "(") ∧ Ascii (str " = TRUE)") ∧ Ascii (str " IS TRUE)") := by
        simp only [Ascii]
        decide +kernel
      simp only [hb, elim_some, trueForms, mem_cons, not_mem_nil, or_false] at ha
      rcases ha with rfl | rfl | rfl
      · exact hjoin
      · simp only [ascii_append]
        exact ⟨⟨hfixed.1, hjoin⟩, hfixed.2.1⟩
      · simp only [ascii_append]
        exact ⟨⟨hfixed.1, hjoin⟩, hfixed.2.2⟩

/-- Equivalents of two predicates that differ in case only: so do the predicates, or they are about one boolean column. -/
theorem of_equivalents {c' p' : Expr} (hc' : c' ∈ equivalents c) (hp' : p' ∈ equivalents p) (h : c'.lower = p'.lower) :
    c.lower = p.lower ∨ ∃ f g, boolColumn c = some f ∧ boolColumn p = some g ∧ f.map lowerText = g.map lowerText := by
  have hbool : (boolColumn c).map (List.map lowerText) = (boolColumn p).map (List.map lowerText) := by
    rw [← boolColumn_equivalents hc', ← boolColumn_equivalents hp', ← boolColumn_spelled lowerText,
      ← boolColumn_spelled lowerText]
    exact congrArg boolColumn h
  cases hbc : boolColumn c with
  | none =>
    cases hbp : boolColumn p with
    | none =>
      simp only [equivalents, hbc, hbp, elim_none, mem_singleton] at hc' hp'
      subst hc' hp'
      exact .inl h
    | some g => simp [hbc, hbp] at hbool
  | some f =>
    cases hbp : boolColumn p with
    | none => simp [hbc, hbp] at hbool
    | some g =>
      simp only [hbc, hbp, map_some, Option.some.injEq] at hbool
      exact .inr ⟨f, g, rfl, rfl, hbool⟩

theorem text_of_deparse (hc : c.isPlain = true) (ht : deparseExpr c = .ok t) : lowerText t = c.text := by
  obtain ⟨u, hu, hlow⟩ := deparse_text c hc
  cases hu.symm.trans ht
  exact hlow

theorem of_conjunctMatches (hlaws : TextLaws env) (hc : c.isPlain = true) (hp : p.isPlain = true)
    (ht : deparseExpr c = .ok t) (hu : deparseExpr p = .ok u) (htascii : Ascii t) (huascii : Ascii u)
    (h : conjunctMatches env (booleanEquivForms p (env.trimSpace u)) c = true) :
    c.lower = p.lower ∨ ∃ f g, boolColumn c = some f ∧ boolColumn p = some g ∧ f.map lowerText = g.map lowerText := by
  rw [conjunctMatches, hlaws.deparse, ht, trim_deparse hlaws hp hu huascii] at h
  simp only [trim_deparse hlaws hc ht htascii, List.any_eq_true] at h
  obtain ⟨a, ha, b, hb, hfold⟩ := h
  have hlower : lowerText a = lowerText b :=
    hlaws.fold_ascii a b (ascii_forms ht htascii ha) (ascii_forms hu huascii hb) (of_decide_eq_true hfold)
  have hcol : ∀ {f}, boolColumn c = some f → (Expr.column f).isPlain = true :=
    fun hf => isPlain_equivalents hc (column_mem_equivalents hf)
  have hcol' : ∀ {g}, boolColumn p = some g → (Expr.column g).isPlain = true :=
    fun hg => isPlain_equivalents hp (column_mem_equivalents hg)
  rcases mem_booleanEquivForms ht ha with ⟨c', hc', hta⟩ | ⟨f, hf, rfl⟩
  · have hplain : c'.isPlain = true := isPlain_equivalents hc hc'
    rcases mem_booleanEquivForms hu hb with ⟨p', hp', htb⟩ | ⟨g, hg, rfl⟩
    · exact of_equivalents hc' hp' (lower_of_deparse hplain (isPlain_equivalents hp hp') hta htb hlower)
    · exact absurd ((text_of_deparse hplain hta).symm.trans hlower) (text_ne_isTrueText hplain (hcol' hg))
  · rcases mem_booleanEquivForms hu hb with ⟨p', hp', htb⟩ | ⟨g, hg, rfl⟩
    · have hplain : p'.isPlain = true := isPlain_equivalents hp hp'
      exact absurd ((text_of_deparse hplain htb).symm.trans hlower.symm) (text_ne_isTrueText hplain (hcol hf))
    · have hjoin : lowerText (joinDots f) = lowerText (joinDots g) := by
        simp only [isTrueText, lowerText_append] at hlower
        exact append_cancel_left (append_cancel_right hlower)
      have hlow : (Expr.column f).lower = (Expr.column g).lower := lower_of_text (hcol hf) (hcol' hg) hjoin
      exact .inr ⟨f, g, hf, hg, Expr.column.inj hlow⟩

end matching

/-! ## The implication -/

section truth
variable {env} {sc : Scope}

mutual

theorem conjuncts_true (q : Expr) {site : Site} {v : Value} (h : q.eval env sc site = .ok v) (hv : asBool v = true) :
    ∀ c ∈ conjuncts q, ∃ st u, c.eval env sc st = .ok u ∧ asBool u = true := by
  match q with
  | .boolExpr .and args =>
    rw [Expr.eval] at h
    cases hargs : evalAnd env sc site args with
    | error e =>
      rw [hargs] at h
      cases h
    | ok b =>
      rw [hargs] at h
      cases h
      rw [asBool_boolValue] at hv
      subst hv
      exact conjunctsAll_true args hargs
  | .const _ | .param _ | .column _ | .minus _ | .binary _ _ _ | .isIn _ _ | .boolExpr .not _ | .boolExpr .or _
  | .nullTest _ _ | .caseExpr _ _ _ | .typeCast _ _ | .call _ _ | .setToDefault =>
    exact fun c hc => ⟨site, v, mem_singleton.mp hc ▸ h, hv⟩

theorem conjunctsAll_true (args : List Expr) {site : Site} (h : evalAnd env sc site args = .ok true) :
    ∀ c ∈ conjunctsAll args, ∃ st u, c.eval env sc st = .ok u ∧ asBool u = true := by
  match args with
  | [] => exact fun c hc => nomatch hc
  | e :: es =>
    rw [evalAnd] at h
    cases he : e.eval env sc site.l with
    | error err =>
      rw [he] at h
      cases h
    | ok v =>
      rw [he] at h
      simp only [bind, Except.bind] at h
      split at h
      case isFalse => cases Except.ok.inj h
      case isTrue hv =>
        intro c hc
        rcases mem_append.mp hc with hc | hc
        · exact conjuncts_true e he hv c hc
        · exact conjunctsAll_true es h c hc

end

/-- What a value has to be for c, c = TRUE and TRUE = c. -/
def trueAs (e : Expr) (w : Value) : Prop := if (asColumn e).isSome then asBool w = true else w.cell = some (str "t")

theorem equals_true (env : Env) (w : Value) :
    (∃ v, evalBinary env (str "=") w (boolValue true) = .ok v ∧ (asBool v = true ↔ w.cell = some (str "t"))) ∧
    ∃ v, evalBinary env (str "=") (boolValue true) w = .ok v ∧ (asBool v = true ↔ w.cell = some (str "t")) := by
  have hcmp : isComparison (str "=") = true := by decide
  have hop : ∀ c, compareOp (str "=") c = decide (c = .eq) := fun c => by simp [compareOp]
  have hbool : isNumericOID OIDBool = false := by decide
  obtain ⟨cell, oid⟩ := w
  cases cell with
  | none => exact ⟨⟨nullBool, rfl, by simp [asBool, nullBool]⟩, ⟨nullBool, rfl, by simp [asBool, nullBool]⟩⟩
  | some a =>
    have hleft : compareCells env a oid (str "t") OIDBool = compareBytes a (str "t") := by
      simp only [compareCells, hbool, Bool.and_false, Bool.false_eq_true, if_false]
    have hright : compareCells env (str "t") OIDBool a oid = compareBytes (str "t") a := by
      simp only [compareCells, hbool, Bool.false_and, Bool.false_eq_true, if_false]
    constructor
    · refine ⟨boolValue (decide (compareBytes a (str "t") = .eq)), ?_, ?_⟩
      · simp only [evalBinary, boolValue, if_true, hcmp, compare, hop, hleft]
      · rw [asBool_boolValue, decide_eq_true_eq, compareBytes_eq, Option.some.injEq]
    · refine ⟨boolValue (decide (compareBytes (str "t") a = .eq)), ?_, ?_⟩
      · simp only [evalBinary, boolValue, if_true, hcmp, compare, hop, hright]
      · rw [asBool_boolValue, decide_eq_true_eq, compareBytes_eq, Option.some.injEq, eq_comm]

theorem eval_boolColumn {e : Expr} {fields : List Bytes} {w : Value} (hb : boolColumn e = some fields)
    (hcol : ∀ st, evalColumn env sc st fields = .ok w) (site : Site) :
    ∃ v, e.eval env sc site = .ok v ∧ (asBool v = true ↔ trueAs e w) := by
  have htrue : ∀ st, (Expr.const (.bool (str "true"))).eval env sc st = .ok (boolValue true) := by
    intro st
    simp only [Expr.eval, evalConst, decide_true]
  have hcolumn : ∀ st, (Expr.column fields).eval env sc st = .ok w := by
    intro st
    rw [Expr.eval, hcol]
  rcases boolColumn_cases hb with rfl | rfl | rfl
  · exact ⟨w, hcolumn site, Iff.rfl⟩
  · obtain ⟨v, hv, hiff⟩ := (equals_true env w).1
    refine ⟨v, ?_, hiff⟩
    rw [equalsTrue, Expr.eval, hcolumn, htrue]
    exact hv
  · obtain ⟨v, hv, hiff⟩ := (equals_true env w).2
    refine ⟨v, ?_, hiff⟩
    rw [Expr.eval, hcolumn, htrue]
    exact hv

end truth

/-- The conjunct is the predicate up to the case of names, or both are the column, or c = TRUE, of one column. -/
def SameUpToNames (c p : Expr) : Prop :=
  c.spelled id = p.spelled id ∨
    ∃ f g, boolColumn c = some f ∧ boolColumn p = some g ∧ f.map lowerText = g.map lowerText

/-- Names as they are written without quotes, and ASCII texts. -/
def PlainText (e : Expr) : Prop := ∀ t, deparseExpr e = .ok t → e.isPlain = true ∧ Ascii t

/-- What the conjunct that matches has to be. `names`: it is the predicate up to the case of names, or both have plain
texts and no literal differs in case. `timeless`: both are over columns of the table. `trueCells`: where the predicate
is c = TRUE and the conjunct is c, a true cell is 't'. -/
structure Implied (sch : TableSchema) (cells : Data) (c p : Expr) : Prop where
  names : SameUpToNames c p ∨ PlainText c ∧ PlainText p ∧ (c.lower = p.lower → c.spelled id = p.spelled id)
  timeless : Timeless env sch p ∧ (c.spelled id = p.spelled id → Timeless env sch c)
  trueCells : (boolColumn p).isSome → asColumn p = none → ∀ f, c = .column f →
    asBool (columnOf env sch cells f) = true → (columnOf env sch cells f).cell = some (str "t")

/-- `predicateImplies` takes the conjunct for the predicate. -/
def Taken (q c p : Expr) : Prop :=
  c ∈ conjuncts q ∧ ∃ u, env.deparseExpr p = .ok u ∧ conjunctMatches env (booleanEquivForms p (env.trimSpace u)) c = true

section implication
variable {env} {sch : TableSchema} {cells : Data} {q p c : Expr}

theorem ownColumn_boolColumn {fields : List Bytes} (hp : Timeless env sch p) (hb : boolColumn p = some fields) :
    OwnColumn env sch fields := by
  rcases boolColumn_cases hb with rfl | rfl | rfl
  · exact hp
  · exact hp.1
  · exact hp.2

theorem implied_boolColumn (hlaws : TextLaws env) (h : Implied env sch cells c p) {f g : List Bytes}
    (hf : boolColumn c = some f) (hg : boolColumn p = some g) (hfg : f.map lowerText = g.map lowerText)
    {sess : Session} {params : Data} {aliasName : Bytes} {site : Site} {v : Value}
    (heval : c.eval env (rowsScope env sess params [⟨aliasName, sch, cells⟩]) site = .ok v) (hv : asBool v = true)
    (table : Bytes) (site' : Site) : ∃ u, p.eval env (rowScope env sch table cells) site' = .ok u ∧ asBool u = true := by
  have hown : OwnColumn env sch g := ownColumn_boolColumn h.timeless.1 hg
  have hown' : OwnColumn env sch f := by
    rw [← ownColumn_lower hlaws, hfg, ownColumn_lower hlaws]
    exact hown
  have hsame : columnOf env sch cells f = columnOf env sch cells g := by
    rw [← columnOf_lower hlaws, hfg, columnOf_lower hlaws]
  obtain ⟨v', hv', hiff⟩ := eval_boolColumn hf (hown'.query sess params aliasName) site
  cases hv'.symm.trans heval
  obtain ⟨u, hu, huiff⟩ := eval_boolColumn hg (hown.row table) site'
  refine ⟨u, hu, huiff.mpr ?_⟩
  have htrue := hiff.mp hv
  rw [hsame] at htrue
  unfold trueAs at htrue ⊢
  by_cases hpcol : (asColumn p).isSome = true
  · rw [if_pos hpcol]
    split at htrue
    case isTrue => exact htrue
    case isFalse =>
      simp only [asBool, htrue]
      split <;> decide
  · rw [if_neg hpcol]
    split at htrue
    case isFalse => exact htrue
    case isTrue hccol =>
      obtain ⟨f', hf'⟩ := isSome_iff_exists.mp hccol
      obtain rfl := asColumn_eq hf'
      cases hf
      rw [← hsame]
      refine h.trueCells (by rw [hg]; rfl) (by simpa using hpcol) _ rfl ?_
      rw [hsame]
      exact htrue

theorem Implied.same (hlaws : TextLaws env) (h : Implied env sch cells c p) (htaken : Taken env q c p) : SameUpToNames c p := by
  obtain ⟨-, u, hu, hmatch⟩ := htaken
  rcases h.names with hsame | ⟨hcplain, hpplain, hliterals⟩
  · exact hsame
  · rw [hlaws.deparse] at hu
    cases ht : deparseExpr c with
    | error e => simp [conjunctMatches, hlaws.deparse, ht] at hmatch
    | ok t =>
      obtain ⟨hc, htascii⟩ := hcplain t ht
      obtain ⟨hp, huascii⟩ := hpplain u hu
      exact (of_conjunctMatches hlaws hc hp ht hu htascii huascii hmatch).imp_left hliterals

end implication

/-- Where a conjunct of WHERE that matches the predicate does so up to the case of names, and true cells are 't', the
predicate is taken for implied, and a row that WHERE keeps is one of the partial index. -/
theorem partial_implied (env : Env) (hlaws : TextLaws env) (sess : Session) (sch : TableSchema) (aliasName : Bytes)
    (params : Data) (q c p : Expr) (d : IndexDef) (cells : Data) (site site' : Site)
    (hstored : env.parseExpr d.whereText = .ok p) (hsome : d.whereText ≠ []) (htaken : Taken env q c p)
    (h : Implied env sch cells c p) :
    predicateImplies env (some q) d.whereText = true ∧
      (whereKeeps env sess sch aliasName params (some q) cells site = .ok true →
        rowMatchesPartial env sch d cells site' = .ok true) := by
  refine ⟨?_, fun hkeeps => ?_⟩
  · obtain ⟨hc, u, hu, hmatch⟩ := htaken
    simp only [predicateImplies, if_neg hsome, hstored, hu, List.any_eq_true]
    exact ⟨c, hc, hmatch⟩
  · cases heval : q.eval env (rowsScope env sess params [⟨aliasName, sch, cells⟩]) site with
    | error e => simp [whereKeeps, heval, bind, Except.bind] at hkeeps
    | ok v =>
      have hv : asBool v = true := by simpa [whereKeeps, heval, bind, Except.bind] using hkeeps
      obtain ⟨st, w, hw, hwtrue⟩ := conjuncts_true q heval hv c htaken.1
      obtain ⟨u, hu, hutrue⟩ : ∃ u, p.eval env (rowScope env sch d.table cells) site' = .ok u ∧ asBool u = true := by
        rcases h.same hlaws htaken with hsame | ⟨f, g, hf, hg, hfg⟩
        · refine ⟨w, ?_, hwtrue⟩
          rw [← eval_timeless hlaws (h.timeless.2 hsame) h.timeless.1 hsame sess params aliasName d.table st site']
          exact hw
        · exact implied_boolColumn hlaws h hf hg hfg hw hwtrue d.table site'
      simp only [rowMatchesPartial, hstored, hu, hutrue, bind, Except.bind]

theorem storedEnv_laws : TextLaws storedEnv where
  deparse := rfl
  trim := fun _ _ _ _ => rfl
  fold_ascii := fun _ _ _ _ h => h
  fold_lower := lowerText_lowerText
  toLower_lower := lowerText_lowerText
  oid := fun t => congrArg int4Env.oidForTypeName (lowerText_lowerText t)

/-- CREATE INDEX x ON e (a) WHERE .. -/
def partialIndex (whereText : String) : IndexDef := ⟨str "x", str "e", [str "a"], false, [], str whereText⟩

def textIs (c text : String) : Expr := .binary (str "=") (.column [str c]) (.const (.string (str text)))

/-- V = 'y' AND v <> 'é'. -/
def upperAndOther : Expr :=
  .boolExpr .and [textIs "V" "y", .binary (str "<>") (.column [str "v"]) (.const (.string [195, 169]))]

theorem implied_upper (cells : Data) : Implied storedEnv exprSchema cells (textIs "V" "y") (textIs "v" "y") := by
  have hown : ∀ c ∈ [str "v", str "V"], OwnColumn storedEnv exprSchema [c] := by
    intro c hc
    rcases mem_pair.mp hc with rfl | rfl <;>
      exact ⟨fun sess site => by cases sess <;> rfl, fun hlen => absurd hlen (by decide), by decide +kernel⟩
  have hplain : ∀ e ∈ [textIs "V" "y", textIs "v" "y"], PlainText e := by
    have hall : ∀ e ∈ [textIs "V" "y", textIs "v" "y"], e.isPlain = true ∧
        ∀ t ∈ (deparseExpr e).toOption.toList, ∀ b ∈ t, b.val < 128 := by decide +kernel
    intro e he t ht
    exact ⟨(hall e he).1, (hall e he).2 t (by rw [ht]; exact mem_singleton_self t)⟩
  refine ⟨.inr ⟨hplain _ mem_cons_self, hplain _ (mem_cons_of_mem _ mem_cons_self), fun _ => ?_⟩,
    ⟨⟨hown _ (by decide), trivial⟩, fun _ => ⟨hown _ (by decide), trivial⟩⟩, fun hb => absurd hb (by decide +kernel)⟩
  have hv : lowerText (str "V") = lowerText (str "v") := by decide
  simp only [textIs, Expr.spelled, map_cons, map_nil, hv]

/-- WHERE V = 'y' AND v <> 'é' uses the index over the rows where v = 'y', which has the row. -/
theorem partial_implied_upper :
    predicateImplies storedEnv (some upperAndOther) (str "(v = 'y')") = true ∧
    rowMatchesPartial storedEnv exprSchema (partialIndex "(v = 'y')") (exprRow "2" "7" "y").cells (Site.root 1) = .ok true := by
  have hstored : storedEnv.parseExpr (str "(v = 'y')") = .ok (textIs "v" "y") := by
    have hv : lowerText (str "v") = str "v" := by decide +kernel
    have hy : lowerText (str "y") = str "y" := by decide +kernel
    refine parse_stored (by decide +kernel) ?_ (by decide +kernel) (by decide +kernel)
    simp only [textIs, Expr.spelled, Const.spelled, map_cons, map_nil, hv, hy]
  obtain ⟨himplies, hrow⟩ := partial_implied storedEnv storedEnv_laws (demoSession "main") exprSchema (str "e") [] upperAndOther
    (textIs "V" "y") (textIs "v" "y") (partialIndex "(v = 'y')") (exprRow "2" "7" "y").cells (Site.root 0) (Site.root 1)
    hstored (by decide +kernel) ⟨mem_cons_self, str "(v = 'y')", rfl, by decide +kernel⟩ (implied_upper _)
  exact ⟨himplies, hrow (ok_of_toOption (by decide +kernel))⟩

/-- WHERE v = 'A' is taken to imply v = 'a': the row of 'A' is kept by the one and not in the index of the other. -/
theorem literal_case_not_implied :
    predicateImplies storedEnv (some (textIs "v" "A")) (str "(v = 'a')") = true ∧
    whereKeeps storedEnv (demoSession "main") exprSchema (str "e") [] (some (textIs "v" "A")) (exprRow "1" "5" "A").cells
      (Site.root 0) = .ok true ∧
    rowMatchesPartial storedEnv exprSchema (partialIndex "(v = 'a')") (exprRow "1" "5" "A").cells (Site.root 1) = .ok false :=
  ⟨by decide +kernel, ok_of_toOption (by decide +kernel), ok_of_toOption (by decide +kernel)⟩

end BasuyuDb.Executor
