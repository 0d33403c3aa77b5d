import BasuyuDb.Executor.Value

/-
  engine/internal/executor/eval.go: the expression evaluator. Expressions in INSERT, UPDATE,
  DELETE and in stored constraints run no subqueries, so an evaluation is a function of the
  parameters, the columns it resolves, the session, and the clock and random reads at its
  sites. `eval_congr`: it depends on no columns but those the expression mentions, and on the
  session only through its identity.
-/

namespace BasuyuDb.Executor
open List

/-- `evaluator`: what column references resolve to, the parameters and the session. -/
structure Scope where
  params : Data
  resolveCol : List Bytes → ExecM Value
  sess : Option Session

/-- The message `fields` of a column reference, joined by dots. -/
def joinDots (fields : List Bytes) : Bytes := List.intercalate (str ".") fields

/-- Column references where the evaluator has no row. -/
def noRow (fields : List Bytes) : ExecM Value :=
  .error ⟨"42703", "column %q cannot be resolved without a FROM clause", [joinDots fields]⟩

def boolValue (b : Bool) : Value := ⟨some (if b then str "t" else str "f"), OIDBool⟩

def nullBool : Value := ⟨none, OIDBool⟩

/-- `asBool`: NULL is not true; texts other than the booleans count when not empty or zero. -/
def asBool (v : Value) : Bool :=
  match v.cell with
  | none => false
  | some t =>
    if v.oid = OIDBool then t = str "t" ∨ t = str "true"
    else ¬(t = [] ∨ t = str "0" ∨ t = str "f" ∨ t = str "false")

theorem asBool_boolValue (b : Bool) : asBool (boolValue b) = b := by
  cases b with
  | true | false => rfl

def evalConst : Const → Value
  | .null => ⟨none, OIDUnknown⟩
  | .int val => ⟨some val, OIDInt4⟩
  | .float val => ⟨some val, OIDFloat8⟩
  | .bool val => boolValue (val = str "true")
  | .string val => ⟨some val, OIDText⟩

def isNumericOID (oid : Nat) : Bool :=
  oid = OIDInt4 ∨ oid = OIDInt8 ∨ oid = OIDFloat8 ∨ oid = OIDInt2 ∨ oid = OIDFloat4 ∨ oid = OIDNumeric

variable (env : Env)

/-! ## Comparison and arithmetic on texts that are not NULL -/

/-- `strings.Compare`. -/
def compareBytes (a b : Bytes) : Ordering := if a < b then .lt else if a = b then .eq else .gt

/-- The order `compare` uses for two values. -/
def compareCells (a : Bytes) (aoid : Nat) (b : Bytes) (boid : Nat) : Ordering :=
  if isNumericOID aoid && isNumericOID boid then
    if aoid = OIDNumeric ∨ boid = OIDNumeric then env.compareBig a b else env.compareFloat a b
  else compareBytes a b

def compareOp (op : Bytes) (c : Ordering) : Bool :=
  if op = str "=" then c = .eq
  else if op = str "<>" ∨ op = str "!=" then c ≠ .eq
  else if op = str "<" then c = .lt
  else if op = str ">" then c = .gt
  else if op = str "<=" then c ≠ .gt
  else if op = str ">=" then c ≠ .lt
  else false

def compare (op a : Bytes) (aoid : Nat) (b : Bytes) (boid : Nat) : Value :=
  boolValue (compareOp op (compareCells env a aoid b boid))

def isComparison (op : Bytes) : Bool := op ∈ [str "=", str "<>", str "!=", str "<", str ">", str "<=", str ">="]

def isArithmetic (op : Bytes) : Bool := op ∈ [str "+", str "-", str "*", str "/", str "%"]

def numErr (s : Bytes) : ExecError := ⟨"22P02", "invalid numeric value %q", [s]⟩

/-- The int64 case of `arith`. -/
def arithInt (op a b : Bytes) : ExecM Value := do
  let ai ← (parseInt a).elim (.error (numErr a)) .ok
  let bi ← (parseInt b).elim (.error (numErr b)) .ok
  let r ←
    if op = str "+" then .ok (wrap64 (ai + bi))
    else if op = str "-" then .ok (wrap64 (ai - bi))
    else if op = str "*" then .ok (wrap64 (ai * bi))
    else if bi = 0 then .error ⟨"22012", "division by zero", []⟩
    else if op = str "/" then .ok (wrap64 (ai.tdiv bi))
    else .ok (wrap64 (ai.tmod bi))
  .ok ⟨some (formatInt r), OIDInt4⟩

/-- The operands that `arith` does not treat as integers. -/
def arithIsOther (a : Nat) (bText : Bytes) (b : Nat) : Bool :=
  ((a = OIDTimestamp ∨ a = OIDTimestamptz ∨ a = OIDDate) ∧
      (b = OIDInterval ∨ (b = OIDText ∧ env.looksLikeInterval bText))) ∨
    (a = OIDInterval ∧ b = OIDInterval) ∨ a = OIDNumeric ∨ b = OIDNumeric ∨
    a = OIDFloat8 ∨ b = OIDFloat8

def arith (op a : Bytes) (aoid : Nat) (b : Bytes) (boid : Nat) : ExecM Value :=
  if arithIsOther env aoid b boid then env.arithOther op ⟨some a, aoid⟩ ⟨some b, boid⟩
  else arithInt op a b

/-- The end of `evalAExpr`: a NULL operand makes the result NULL. -/
def evalBinary (op : Bytes) (l r : Value) : ExecM Value :=
  match l.cell, r.cell with
  | some a, some b =>
    if isComparison op then .ok (compare env op a l.oid b r.oid)
    else if isArithmetic op && !(op = str "-" && (l.oid = 114 || l.oid = 3802)) then
      arith env op a l.oid b r.oid
    else env.operator op l r
  | _, _ => .ok nullBool

/-- `negate`; a NULL has the empty text, which is no number. -/
def negate (v : Value) : ExecM Value :=
  let t := v.cell.getD []
  if v.oid = OIDFloat8 then do .ok ⟨some (← env.negateFloat t), OIDFloat8⟩
  else
    match parseInt t with
    | some i => .ok ⟨some (formatInt (wrap64 (-i))), OIDInt4⟩
    | none => .error ⟨"22P02", "invalid integer %q", [t]⟩

/-- The candidates of `x IN (...)`: a match, else NULL when one of them is NULL. -/
def inCandidates (t : Bytes) (oid : Nat) (cs : List Value) : Value :=
  if cs.any (fun c => c.cell.any fun u => asBool (compare env (str "=") t oid u c.oid)) then
    boolValue true
  else if cs.any (fun c => c.cell.isNone) then nullBool
  else boolValue false

/-! ## Column references -/

def isUserKeyword (name : Bytes) : Bool :=
  name ∈ [str "current_user", str "session_user", str "user", str "current_role"]

/-- `niladicKeyword`: SQL keywords that are functions without parentheses. -/
def niladicKeyword (site : Site) (name : Bytes) : Option Value :=
  let name := env.toLower name
  if isUserKeyword name then some ⟨some (str "postgres"), OIDText⟩
  else if name = str "current_catalog" ∨ name = str "current_database" then
    some ⟨some (str "defaultdb"), OIDText⟩
  else if name = str "current_schema" then some ⟨some (str "public"), OIDText⟩
  else if name ∈ [str "current_timestamp", str "now", str "transaction_timestamp",
      str "statement_timestamp", str "clock_timestamp", str "localtime", str "localtimestamp"] then
    some ⟨some (env.nowText site), OIDTimestamptz⟩
  else if name = str "current_date" then some ⟨some ((env.nowText site).take 10), OIDDate⟩
  else if name = str "current_time" then some ⟨some (env.nowTimeText site), OIDTime⟩
  else none

/-- A one-field reference that the keywords take before any column. -/
def keyword (sess : Option Session) (site : Site) (fields : List Bytes) : Option Value :=
  match fields with
  | [name] =>
    match sess with
    | some s =>
      if isUserKeyword (env.toLower name) then some ⟨some s.user, OIDText⟩
      else niladicKeyword env site name
    | none => niladicKeyword env site name
  | _ => none

def evalColumn (sc : Scope) (site : Site) (fields : List Bytes) : ExecM Value :=
  match keyword env sc.sess site fields with
  | some v => .ok v
  | none => sc.resolveCol fields

def evalParam (params : Data) (number : Nat) : ExecM Value :=
  if number = 0 then .error ⟨"42P02", "bind parameter $%d out of range", [formatNat number]⟩
  else
    match params[number - 1]? with
    | some p => .ok ⟨p, OIDText⟩
    | none => .error ⟨"42P02", "bind parameter $%d out of range", [formatNat number]⟩

/-- Whether a WHEN of a CASE matches: a predicate, or equality with the CASE argument. -/
def whenMatches (arg : Option Value) (c : Value) : Bool :=
  match arg with
  | none => asBool c
  | some a =>
    match a.cell, c.cell with
    | some t, some u => asBool (compare env (str "=") t a.oid u c.oid)
    | _, _ => false

/-! ## The evaluator -/

mutual

def Expr.eval (sc : Scope) (site : Site) : Expr → ExecM Value
  | .const c => .ok (evalConst c)
  | .param n => evalParam sc.params n
  | .column fields => evalColumn env sc site fields
  | .minus a => do negate env (← a.eval sc site)
  | .binary op l r => do
    let lv ← l.eval sc site.l
    let rv ← r.eval sc site.r
    evalBinary env op lv rv
  | .isIn l items => do
    let lv ← l.eval sc site.l
    match lv.cell with
    | none => .ok nullBool
    | some t => do .ok (inCandidates env t lv.oid (← evalItems sc site.r items))
  | .boolExpr .not args => do .ok (boolValue (!asBool (← evalFirst sc site args)))
  | .boolExpr .and args => do .ok (boolValue (← evalAnd sc site args))
  | .boolExpr .or args => do .ok (boolValue (← evalOr sc site args))
  | .nullTest testNull a => do .ok (boolValue ((← a.eval sc site).cell.isNone == testNull))
  | .caseExpr arg whens els => do
    let av ← evalOpt sc site.l arg
    match ← evalWhens sc site.r.l av whens with
    | some v => .ok v
    | none => do .ok ((← evalOpt sc site.r.r els).getD ⟨none, OIDUnknown⟩)
  | .typeCast a typeName => do .ok { ← a.eval sc site with oid := env.oidForTypeName typeName }
  | .call name args => env.call site sc.sess name (evalAll sc site.l args)
  | .setToDefault => .error ⟨"0A000", "unsupported expression %T", [str "*ast.SetToDefault"]⟩

/-- The operands of a call, each with its own result. -/
def evalAll (sc : Scope) (site : Site) : List Expr → List (ExecM Value)
  | [] => []
  | e :: es => e.eval sc site.l :: evalAll sc site.r es

def evalItems (sc : Scope) (site : Site) : List Expr → ExecM (List Value)
  | [] => .ok []
  | e :: es => do
    let v ← e.eval sc site.l
    let vs ← evalItems sc site.r es
    .ok (v :: vs)

/-- NOT reads its first argument. -/
def evalFirst (sc : Scope) (site : Site) : List Expr → ExecM Value
  | [] => .error ⟨"XX000", "unknown boolean operator", []⟩
  | e :: _ => e.eval sc site

def evalAnd (sc : Scope) (site : Site) : List Expr → ExecM Bool
  | [] => .ok true
  | e :: es => do
    let v ← e.eval sc site.l
    if asBool v then evalAnd sc site.r es else .ok false

def evalOr (sc : Scope) (site : Site) : List Expr → ExecM Bool
  | [] => .ok false
  | e :: es => do
    let v ← e.eval sc site.l
    if asBool v then .ok true else evalOr sc site.r es

def evalOpt (sc : Scope) (site : Site) : Option Expr → ExecM (Option Value)
  | none => .ok none
  | some e => do .ok (some (← e.eval sc site))

def evalWhens (sc : Scope) (site : Site) (arg : Option Value) :
    List (Expr × Expr) → ExecM (Option Value)
  | [] => .ok none
  | (cond, result) :: ws => do
    let c ← cond.eval sc site.l.l
    if whenMatches env arg c then do .ok (some (← result.eval sc site.l.r))
    else evalWhens sc site.r arg ws

end

/-! ## The columns an expression depends on -/

mutual

/-- The column references of an expression. -/
def Expr.columns : Expr → List (List Bytes)
  | .const _ => []
  | .param _ => []
  | .column fields => [fields]
  | .minus a => a.columns
  | .binary _ l r => l.columns ++ r.columns
  | .isIn l items => l.columns ++ columnsAll items
  | .boolExpr _ args => columnsAll args
  | .nullTest _ a => a.columns
  | .caseExpr arg whens els => columnsOpt arg ++ columnsWhens whens ++ columnsOpt els
  | .typeCast a _ => a.columns
  | .call _ args => columnsAll args
  | .setToDefault => []

def columnsAll : List Expr → List (List Bytes)
  | [] => []
  | e :: es => e.columns ++ columnsAll es

def columnsOpt : Option Expr → List (List Bytes)
  | none => []
  | some e => e.columns

def columnsWhens : List (Expr × Expr) → List (List Bytes)
  | [] => []
  | (cond, result) :: ws => cond.columns ++ result.columns ++ columnsWhens ws

end

section congr
variable {env} {params : Data} {sess sess' : Option Session}
  {r r' : List Bytes → ExecM Value}

/-- Two sessions that an evaluation cannot tell apart. -/
structure SameIdentity (env : Env) (sess sess' : Option Session) : Prop where
  keyword : ∀ site fields, keyword env sess site fields = keyword env sess' site fields
  call : ∀ site f args, env.call site sess f args = env.call site sess' f args

theorem agree_left {as bs : List (List Bytes)} (h : ∀ f ∈ as ++ bs, r f = r' f) :
    ∀ f ∈ as, r f = r' f := fun f hf => h f (mem_append_left _ hf)

theorem agree_right {as bs : List (List Bytes)} (h : ∀ f ∈ as ++ bs, r f = r' f) :
    ∀ f ∈ bs, r f = r' f := fun f hf => h f (mem_append_right _ hf)

-- the mutual theorems use it through each other
set_option linter.unusedSectionVars false
variable (hs : SameIdentity env sess sess')
include hs

mutual

/-- An evaluation depends only on the columns the expression mentions, and on the identity of the
session. -/
theorem Expr.eval_congr (site : Site) (e : Expr) (h : ∀ f ∈ e.columns, r f = r' f) :
    e.eval env ⟨params, r, sess⟩ site = e.eval env ⟨params, r', sess'⟩ site := by
  match e with
  | .const c | .param n | .setToDefault => rfl
  | .column fields =>
    simp only [Expr.eval, evalColumn]
    rw [h fields (mem_singleton_self _), hs.keyword]
  | .minus a | .nullTest t a | .typeCast a ty => simp only [Expr.eval, a.eval_congr site h]
  | .binary op a b =>
    simp only [Expr.eval, a.eval_congr site.l (agree_left h), b.eval_congr site.r (agree_right h)]
  | .isIn a items =>
    simp only [Expr.eval, a.eval_congr site.l (agree_left h), evalItems_congr site.r items (agree_right h)]
  | .boolExpr .not args => simp only [Expr.eval, evalFirst_congr site args h]
  | .boolExpr .and args => simp only [Expr.eval, evalAnd_congr site args h]
  | .boolExpr .or args => simp only [Expr.eval, evalOr_congr site args h]
  | .caseExpr arg whens els =>
    simp only [Expr.eval, evalOpt_congr site.l arg (agree_left (agree_left h)),
      evalOpt_congr site.r.r els (agree_right h),
      fun av => evalWhens_congr site.r.l av whens (agree_right (agree_left h))]
  | .call name args => simp only [Expr.eval, evalAll_congr site.l args h, hs.call]

theorem evalAll_congr (site : Site) (es : List Expr) (h : ∀ f ∈ columnsAll es, r f = r' f) :
    evalAll env ⟨params, r, sess⟩ site es = evalAll env ⟨params, r', sess'⟩ site es := by
  match es with
  | [] => rfl
  | e :: es =>
    simp only [evalAll, e.eval_congr site.l (agree_left h), evalAll_congr site.r es (agree_right h)]

theorem evalItems_congr (site : Site) (es : List Expr) (h : ∀ f ∈ columnsAll es, r f = r' f) :
    evalItems env ⟨params, r, sess⟩ site es = evalItems env ⟨params, r', sess'⟩ site es := by
  match es with
  | [] => rfl
  | e :: es =>
    simp only [evalItems, e.eval_congr site.l (agree_left h), evalItems_congr site.r es (agree_right h)]

theorem evalFirst_congr (site : Site) (es : List Expr) (h : ∀ f ∈ columnsAll es, r f = r' f) :
    evalFirst env ⟨params, r, sess⟩ site es = evalFirst env ⟨params, r', sess'⟩ site es := by
  match es with
  | [] => rfl
  | e :: es => simp only [evalFirst, e.eval_congr site (agree_left h)]

theorem evalAnd_congr (site : Site) (es : List Expr) (h : ∀ f ∈ columnsAll es, r f = r' f) :
    evalAnd env ⟨params, r, sess⟩ site es = evalAnd env ⟨params, r', sess'⟩ site es := by
  match es with
  | [] => rfl
  | e :: es =>
    simp only [evalAnd, e.eval_congr site.l (agree_left h), evalAnd_congr site.r es (agree_right h)]

theorem evalOr_congr (site : Site) (es : List Expr) (h : ∀ f ∈ columnsAll es, r f = r' f) :
    evalOr env ⟨params, r, sess⟩ site es = evalOr env ⟨params, r', sess'⟩ site es := by
  match es with
  | [] => rfl
  | e :: es =>
    simp only [evalOr, e.eval_congr site.l (agree_left h), evalOr_congr site.r es (agree_right h)]

theorem evalOpt_congr (site : Site) (e : Option Expr) (h : ∀ f ∈ columnsOpt e, r f = r' f) :
    evalOpt env ⟨params, r, sess⟩ site e = evalOpt env ⟨params, r', sess'⟩ site e := by
  match e with
  | none => rfl
  | some e => simp only [evalOpt, e.eval_congr site h]

theorem evalWhens_congr (site : Site) (arg : Option Value) (ws : List (Expr × Expr))
    (h : ∀ f ∈ columnsWhens ws, r f = r' f) :
    evalWhens env ⟨params, r, sess⟩ site arg ws = evalWhens env ⟨params, r', sess'⟩ site arg ws := by
  match ws with
  | [] => rfl
  | (cond, result) :: ws =>
    simp only [evalWhens, cond.eval_congr site.l.l (agree_left (agree_left h)),
      result.eval_congr site.l.r (agree_right (agree_left h)), evalWhens_congr site.r arg ws (agree_right h)]

end

end congr

end BasuyuDb.Executor
