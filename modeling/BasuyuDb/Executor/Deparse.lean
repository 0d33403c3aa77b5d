import BasuyuDb.Executor.Eval
import BasuyuDb.Parser.Lexer

/-
  engine/internal/executor/constraints.go (deparseExpr): expressions as the texts that CHECKs, index expressions and
  partial predicates are stored and matched as. Names are not quoted, so a text is only that of one expression where
  the names are plain: a column whose name has blanks or operators in it is not.
-/

namespace BasuyuDb.Executor
open KvLib BasuyuDb.Parser

/-! ## deparseExpr -/

/-- `strings.ReplaceAll` of a quote by two. -/
def doubleQuotes : Bytes → Bytes
  | [] => []
  | b :: s => if b = 39 then 39 :: 39 :: doubleQuotes s else b :: doubleQuotes s

def deparseConst : Const → Bytes
  | .null => str "NULL"
  | .string val => 39 :: (doubleQuotes val ++ [39])
  | .bool val => if val = str "true" then str "TRUE" else str "FALSE"
  | .int val => val
  | .float val => val

def unsupported (ty : String) : ExecError := ⟨"0A000", "unsupported expression %T in view/constraint", [str ty]⟩

mutual

/-- `deparseExpr`; of the nodes that `call` stands for, the function calls. -/
def deparseExpr : Expr → ExecM Bytes
  | .const c => .ok (deparseConst c)
  | .column fields => .ok (joinDots fields)
  | .minus a => do .ok (str "(-" ++ (← deparseExpr a) ++ str ")")
  | .binary name lexpr rexpr => do
    let r ← deparseExpr rexpr
    let l ← deparseExpr lexpr
    .ok (str "(" ++ l ++ str " " ++ name ++ str " " ++ r ++ str ")")
  | .isIn lexpr items => do
    let r ← deparseAll items
    let l ← deparseExpr lexpr
    .ok (str "(" ++ l ++ str " IN (" ++ List.intercalate (str ", ") r ++ str "))")
  | .boolExpr .not args => do .ok (str "(NOT " ++ (← deparseAll args).headD [] ++ str ")")
  | .boolExpr .and args => do .ok (str "(" ++ List.intercalate (str " AND ") (← deparseAll args) ++ str ")")
  | .boolExpr .or args => do .ok (str "(" ++ List.intercalate (str " OR ") (← deparseAll args) ++ str ")")
  | .nullTest true a => do .ok (str "(" ++ (← deparseExpr a) ++ str " IS NULL)")
  | .nullTest false a => do .ok (str "(" ++ (← deparseExpr a) ++ str " IS NOT NULL)")
  | .caseExpr arg whens els => do
    let a ← deparseOpt (str " ") arg
    let w ← deparseWhens whens
    let e ← deparseOpt (str " ELSE ") els
    .ok (str "CASE" ++ a ++ w ++ e ++ str " END")
  | .typeCast a typeName => do .ok (str "(" ++ (← deparseExpr a) ++ str "::" ++ typeName ++ str ")")
  | .call name args => do .ok (name ++ str "(" ++ List.intercalate (str ", ") (← deparseAll args) ++ str ")")
  | .param _ => .error (unsupported "*ast.ParamRef")
  | .setToDefault => .error (unsupported "*ast.SetToDefault")

def deparseAll : List Expr → ExecM (List Bytes)
  | [] => .ok []
  | e :: es => do
    let t ← deparseExpr e
    .ok (t :: (← deparseAll es))

/-- The argument and the ELSE of a CASE, if it has one. -/
def deparseOpt (lead : Bytes) : Option Expr → ExecM Bytes
  | none => .ok []
  | some e => do .ok (lead ++ (← deparseExpr e))

def deparseWhens : List (Expr × Expr) → ExecM Bytes
  | [] => .ok []
  | (cond, result) :: whens => do
    let c ← deparseExpr cond
    let r ← deparseExpr result
    .ok (str " WHEN " ++ c ++ str " THEN " ++ r ++ (← deparseWhens whens))

end

/-! ## Plain expressions -/

def lowerText (s : Bytes) : Bytes := s.map lowerByte

/-- A byte of a name, or the dot of a qualified one. -/
def isNamePart (b : Byte) : Bool := isIdentPart b || b = 46

/-- The words that stand for something else. -/
def reservedWords : List Bytes := [str "null", str "true", str "false", str "case", str "not", str "when"]

def isPlainName (w : Bytes) : Bool :=
  w ≠ [] && w.all isNamePart && !w.head?.any isDigit && !(lowerText w ∈ reservedWords)

def isPlainConst : Const → Bool
  | .int val => val ≠ [] && val.all isDigit
  | .float val => val.takeWhile isDigit ≠ [] &&
      (val.dropWhile isDigit).head? = some 46 && (val.dropWhile isDigit).tail.all isDigit
  | _ => true

mutual

/-- What the parser builds from unquoted names, with no parameters. -/
def Expr.isPlain : Expr → Bool
  | .const c => isPlainConst c
  | .column fields => fields.all (fun f => f ≠ [] && f.all isIdentPart) && isPlainName (joinDots fields)
  | .minus a => a.isPlain
  | .binary name l r => name ≠ [] && name.all (fun b => b ≠ 32 && !isLetter b) && l.isPlain && r.isPlain
  | .isIn l items => l.isPlain && items ≠ [] && allPlain items
  | .boolExpr .not args => args.length == 1 && allPlain args
  | .boolExpr _ args => 2 ≤ args.length && allPlain args
  | .nullTest _ a => a.isPlain
  | .caseExpr arg whens els => optPlain arg && whens ≠ [] && whensPlain whens && optPlain els
  | .typeCast a typeName => a.isPlain && typeName.all fun b => b ≠ 41
  | .call name args => isPlainName name && allPlain args
  | .param _ => false
  | .setToDefault => false

def allPlain : List Expr → Bool
  | [] => true
  | e :: es => e.isPlain && allPlain es

def optPlain : Option Expr → Bool
  | none => true
  | some e => e.isPlain

def whensPlain : List (Expr × Expr) → Bool
  | [] => true
  | (cond, result) :: whens => cond.isPlain && result.isPlain && whensPlain whens

end

/-- A constant whose string is spelled as `lit` says. -/
def Const.spelled (lit : Bytes → Bytes) : Const → Const
  | .string val => .string (lit val)
  | .bool val => .bool (if val = str "true" then str "true" else str "false")
  | c => c

mutual

/-- The expression with its names in lower case, and its strings spelled as `lit` says. -/
def Expr.spelled (lit : Bytes → Bytes) : Expr → Expr
  | .const c => .const (c.spelled lit)
  | .param n => .param n
  | .column fields => .column (fields.map lowerText)
  | .minus a => .minus (a.spelled lit)
  | .binary name l r => .binary name (l.spelled lit) (r.spelled lit)
  | .isIn l items => .isIn (l.spelled lit) (spelledAll lit items)
  | .boolExpr op args => .boolExpr op (spelledAll lit args)
  | .nullTest testNull a => .nullTest testNull (a.spelled lit)
  | .caseExpr arg whens els => .caseExpr (spelledOpt lit arg) (spelledWhens lit whens) (spelledOpt lit els)
  | .typeCast a typeName => .typeCast (a.spelled lit) (lowerText typeName)
  | .call name args => .call (lowerText name) (spelledAll lit args)
  | .setToDefault => .setToDefault

def spelledAll (lit : Bytes → Bytes) : List Expr → List Expr
  | [] => []
  | e :: es => e.spelled lit :: spelledAll lit es

def spelledOpt (lit : Bytes → Bytes) : Option Expr → Option Expr
  | none => none
  | some e => some (e.spelled lit)

def spelledWhens (lit : Bytes → Bytes) : List (Expr × Expr) → List (Expr × Expr)
  | [] => []
  | (cond, result) :: whens => (cond.spelled lit, result.spelled lit) :: spelledWhens lit whens

end

/-- The expression with all its letters in lower case. -/
abbrev Expr.lower (e : Expr) : Expr := e.spelled lowerText

/-! ## The texts -/

mutual

/-- The text of a plain expression, in lower case. -/
def Expr.text : Expr → Bytes
  | .const c => lowerText (deparseConst c)
  | .column fields => lowerText (joinDots fields)
  | .minus a => str "(-" ++ a.text ++ str ")"
  | .binary name l r => str "(" ++ l.text ++ str " " ++ lowerText name ++ str " " ++ r.text ++ str ")"
  | .isIn l items => str "(" ++ l.text ++ str " in (" ++ List.intercalate (str ", ") (textAll items) ++ str "))"
  | .boolExpr .not args => str "(not " ++ (textAll args).headD [] ++ str ")"
  | .boolExpr .and args => str "(" ++ List.intercalate (str " and ") (textAll args) ++ str ")"
  | .boolExpr .or args => str "(" ++ List.intercalate (str " or ") (textAll args) ++ str ")"
  | .nullTest true a => str "(" ++ a.text ++ str " is null)"
  | .nullTest false a => str "(" ++ a.text ++ str " is not null)"
  | .caseExpr arg whens els => str "case" ++ textOpt (str " ") arg ++ textWhens whens ++ textOpt (str " else ") els ++ str " end"
  | .typeCast a typeName => str "(" ++ a.text ++ str "::" ++ lowerText typeName ++ str ")"
  | .call name args => lowerText name ++ str "(" ++ List.intercalate (str ", ") (textAll args) ++ str ")"
  | .param _ => []
  | .setToDefault => []

def textAll : List Expr → List Bytes
  | [] => []
  | e :: es => e.text :: textAll es

def textOpt (lead : Bytes) : Option Expr → Bytes
  | none => []
  | some e => lead ++ e.text

def textWhens : List (Expr × Expr) → Bytes
  | [] => []
  | (cond, result) :: whens => str " when " ++ cond.text ++ str " then " ++ result.text ++ textWhens whens

end

@[simp] theorem lowerText_append (s t : Bytes) : lowerText (s ++ t) = lowerText s ++ lowerText t := List.map_append

theorem lowerText_intercalate (sep : Bytes) (l : List Bytes) :
    lowerText (List.intercalate sep l) = List.intercalate (lowerText sep) (l.map lowerText) := by
  induction l with
  | nil => rfl
  | cons a l ih =>
    cases l with
    | nil => simp [List.intercalate]
    | cons b l => simpa [List.intercalate, lowerText] using ih

theorem exists_ok_lower {t u : Bytes} : (∃ s, (Except.ok t : ExecM Bytes) = .ok s ∧ lowerText s = u) ↔
    lowerText t = u := by
  simp only [Except.ok.injEq, exists_eq_left']

mutual

theorem deparse_text (e : Expr) (h : e.isPlain = true) : ∃ t, deparseExpr e = .ok t ∧ lowerText t = e.text := by
  match e with
  | .const c | .column fields => exact ⟨_, rfl, rfl⟩
  | .minus a | .nullTest true a | .nullTest false a =>
    obtain ⟨t, ht, hlow⟩ := deparse_text a (by simpa [Expr.isPlain] using h)
    simp only [deparseExpr, ht, bind, Except.bind, exists_ok_lower, lowerText_append, hlow, Expr.text]
    rfl
  | .binary name l r =>
    obtain ⟨⟨-, hl⟩, hr⟩ : (_ ∧ l.isPlain = true) ∧ r.isPlain = true := by
      simpa only [Expr.isPlain, Bool.and_eq_true] using h
    obtain ⟨tl, htl, hlow⟩ := deparse_text l hl
    obtain ⟨tr, htr, hlow'⟩ := deparse_text r hr
    simp only [deparseExpr, htl, htr, bind, Except.bind, exists_ok_lower, lowerText_append, hlow, hlow', Expr.text]
    rfl
  | .isIn l items =>
    obtain ⟨⟨hl, -⟩, hitems⟩ : (l.isPlain = true ∧ _) ∧ allPlain items = true := by
      simpa only [Expr.isPlain, Bool.and_eq_true] using h
    obtain ⟨tl, htl, hlow⟩ := deparse_text l hl
    obtain ⟨ts, hts, hlow'⟩ := deparseAll_text items hitems
    simp only [deparseExpr, htl, hts, bind, Except.bind, exists_ok_lower, lowerText_append, lowerText_intercalate, hlow, hlow', Expr.text]
    rfl
  | .boolExpr .not args =>
    obtain ⟨-, hargs⟩ : _ ∧ allPlain args = true := by simpa only [Expr.isPlain, Bool.and_eq_true] using h
    obtain ⟨ts, hts, hlow⟩ := deparseAll_text args hargs
    have hhead : lowerText (ts.headD []) = (textAll args).headD [] := by
      rw [← hlow]
      cases ts <;> rfl
    simp only [deparseExpr, hts, bind, Except.bind, exists_ok_lower, lowerText_append, hhead, Expr.text]
    rfl
  | .boolExpr .and args | .boolExpr .or args | .call _ args =>
    obtain ⟨-, hargs⟩ : _ ∧ allPlain args = true := by simpa only [Expr.isPlain, Bool.and_eq_true] using h
    obtain ⟨ts, hts, hlow⟩ := deparseAll_text args hargs
    simp only [deparseExpr, hts, bind, Except.bind, exists_ok_lower, lowerText_append, lowerText_intercalate, hlow, Expr.text]
    rfl
  | .caseExpr arg whens els =>
    obtain ⟨⟨⟨harg, -⟩, hwhens⟩, hels⟩ :
        ((optPlain arg = true ∧ _) ∧ whensPlain whens = true) ∧ optPlain els = true := by
      simpa only [Expr.isPlain, Bool.and_eq_true] using h
    obtain ⟨ta, hta, hlow⟩ := deparseOpt_text (str " ") arg harg
    obtain ⟨tw, htw, hlow'⟩ := deparseWhens_text whens hwhens
    obtain ⟨te, hte, hlow''⟩ := deparseOpt_text (str " ELSE ") els hels
    simp only [deparseExpr, hta, htw, hte, bind, Except.bind, exists_ok_lower, lowerText_append, hlow, hlow', hlow'', Expr.text]
    rfl
  | .typeCast a typeName =>
    obtain ⟨ha, -⟩ : a.isPlain = true ∧ _ := by simpa only [Expr.isPlain, Bool.and_eq_true] using h
    obtain ⟨t, ht, hlow⟩ := deparse_text a ha
    simp only [deparseExpr, ht, bind, Except.bind, exists_ok_lower, lowerText_append, hlow, Expr.text]
    rfl
  | .param _ | .setToDefault => exact absurd h Bool.false_ne_true

theorem deparseAll_text (es : List Expr) (h : allPlain es = true) :
    ∃ ts, deparseAll es = .ok ts ∧ ts.map lowerText = textAll es := by
  match es with
  | [] => exact ⟨[], rfl, rfl⟩
  | e :: es =>
    obtain ⟨he, hes⟩ : e.isPlain = true ∧ allPlain es = true := by simpa only [allPlain, Bool.and_eq_true] using h
    obtain ⟨t, ht, hlow⟩ := deparse_text e he
    obtain ⟨ts, hts, hlow'⟩ := deparseAll_text es hes
    exact ⟨t :: ts, by simp only [deparseAll, ht, hts, bind, Except.bind], by rw [List.map_cons, hlow, hlow', textAll]⟩

theorem deparseOpt_text (lead : Bytes) (o : Option Expr) (h : optPlain o = true) :
    ∃ t, deparseOpt lead o = .ok t ∧ lowerText t = textOpt (lowerText lead) o := by
  match o with
  | none => exact ⟨[], rfl, rfl⟩
  | some e =>
    obtain ⟨t, ht, hlow⟩ := deparse_text e (by simpa [optPlain] using h)
    simp only [deparseOpt, ht, bind, Except.bind, exists_ok_lower, lowerText_append, hlow, textOpt]

theorem deparseWhens_text (whens : List (Expr × Expr)) (h : whensPlain whens = true) :
    ∃ t, deparseWhens whens = .ok t ∧ lowerText t = textWhens whens := by
  match whens with
  | [] => exact ⟨[], rfl, rfl⟩
  | (cond, result) :: whens =>
    obtain ⟨⟨hc, hr⟩, hws⟩ : (cond.isPlain = true ∧ result.isPlain = true) ∧ whensPlain whens = true := by
      simpa only [whensPlain, Bool.and_eq_true] using h
    obtain ⟨tc, htc, hlow⟩ := deparse_text cond hc
    obtain ⟨tr, htr, hlow'⟩ := deparse_text result hr
    obtain ⟨tw, htw, hlow''⟩ := deparseWhens_text whens hws
    simp only [deparseWhens, htc, htr, htw, bind, Except.bind, exists_ok_lower, lowerText_append, hlow, hlow', hlow'', textWhens]
    rfl

end

end BasuyuDb.Executor
