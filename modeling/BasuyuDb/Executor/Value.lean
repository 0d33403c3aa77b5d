import BasuyuDb.Storage.Keys

/-
  engine/internal/executor/eval.go, executor.go: cells, values, errors, integer texts and the
  expression trees the executor evaluates, and the functions it calls that are not embedded
  here (`Env`).
-/

namespace BasuyuDb.Executor
open List Option

/-! ## Cells, values and errors -/

/-- `Datum`: a cell in PostgreSQL text form; `none` is NULL (the text of a NULL is not stored). -/
abbrev Datum := Option Bytes

/-- Values in order: the cells of a row, or parameters. -/
abbrev Data := List Datum

/-- `value`: an evaluation result with its type OID. -/
structure Value where
  cell : Datum
  oid : Nat
deriving DecidableEq

def OIDBool : Nat := 16
def OIDInt8 : Nat := 20
def OIDInt2 : Nat := 21
def OIDInt4 : Nat := 23
def OIDText : Nat := 25
def OIDFloat4 : Nat := 700
def OIDFloat8 : Nat := 701
def OIDUnknown : Nat := 705
def OIDDate : Nat := 1082
def OIDTime : Nat := 1083
def OIDTimestamp : Nat := 1114
def OIDTimestamptz : Nat := 1184
def OIDInterval : Nat := 1186
def OIDNumeric : Nat := 1700

/-- `ExecError`: the SQLSTATE, the format and its arguments. -/
structure ExecError where
  sqlstate : String
  format : String
  args : List Bytes
deriving DecidableEq

abbrev ExecM := Except ExecError

theorem ok_of_toOption {A : Type} {x : ExecM A} {a : A} (h : x.toOption = some a) : x = .ok a := by
  cases x with
  | ok b => exact congrArg Except.ok (some.inj h)
  | error e => cases h

/-! ## Integer texts -/

/-- The decimal digits of a natural number. -/
def formatNat (n : Nat) : Bytes :=
  if n = 0 then [48] else (Nat.digits 10 n).reverse.map fun d => Fin.ofNat 256 (48 + d)

/-- `strconv.FormatInt(i, 10)`. -/
def formatInt (i : Int) : Bytes := if i < 0 then 45 :: formatNat i.natAbs else formatNat i.natAbs

/-- The value of a text of decimal digits. -/
def parseNat (s : Bytes) : Option Nat :=
  if s ≠ [] ∧ s.all (fun b => 48 ≤ b.val && b.val ≤ 57) then
    some (s.foldl (fun n b => 10 * n + (b.val - 48)) 0)
  else none

/-- `int64` arithmetic wraps. -/
def wrap64 (i : Int) : Int := Int.bmod i (2 ^ 64)

def inInt64 (i : Int) : Bool := -(2 : Int) ^ 63 ≤ i && i < (2 : Int) ^ 63

/-- `strconv.ParseInt(s, 10, 64)`: an optional sign, digits, and a value in range. -/
def parseInt (s : Bytes) : Option Int :=
  let signed : Option Int :=
    match s with
    | 45 :: ds => (parseNat ds).map fun n : Nat => -(n : Int)
    | 43 :: ds => (parseNat ds).map fun n : Nat => (n : Int)
    | _ => (parseNat s).map (fun n : Nat => (n : Int))
  signed.filter inInt64

theorem wrap64_of_inInt64 {i : Int} (h : inInt64 i = true) : wrap64 i = i := by
  simp only [inInt64, Bool.and_eq_true, decide_eq_true_eq] at h
  unfold wrap64
  apply Int.bmod_eq_of_le
  · omega
  · omega

theorem digit_val {d : Nat} (hd : d < 10) : (Fin.ofNat 256 (48 + d)).val = 48 + d := by
  simp only [Fin.ofNat]
  omega

theorem foldl_digits {ds : List Nat} (h : ∀ d ∈ ds, d < 10) : (ds.reverse.map fun d => Fin.ofNat 256 (48 + d)).foldl
      (fun n (b : Byte) => 10 * n + (b.val - 48)) 0 = Nat.ofDigits 10 ds := by
  rw [foldl_map, foldl_reverse, Nat.ofDigits_eq_foldr]
  induction ds with
  | nil => rfl
  | cons d ds ih =>
    have hd := digit_val (h d mem_cons_self)
    have ih := ih fun d' hd' => h d' (mem_cons_of_mem _ hd')
    simp only [foldr_cons, ih, hd, Nat.cast_id]
    omega

theorem parseNat_formatNat (n : Nat) : parseNat (formatNat n) = some n := by
  by_cases hn : n = 0
  · subst hn
    decide
  · have hd : ∀ d ∈ Nat.digits 10 n, d < 10 := fun d hd => Nat.digits_lt_base (by decide) hd
    have hne : Nat.digits 10 n ≠ [] := Nat.digits_ne_nil_iff_ne_zero.mpr hn
    unfold parseNat formatNat
    rw [if_neg hn, foldl_digits hd, Nat.ofDigits_digits, if_pos]
    refine ⟨by simpa using hne, ?_⟩
    rw [List.all_eq_true]
    intro b hb
    obtain ⟨d, hd', rfl⟩ := List.mem_map.mp hb
    have hlt := hd d (mem_reverse.mp hd')
    rw [digit_val hlt]
    simp only [Bool.and_eq_true, decide_eq_true_eq]
    omega

theorem formatNat_head (n : Nat) : ∃ b ds, formatNat n = b :: ds ∧ 48 ≤ b.val := by
  have h := parseNat_formatNat n
  unfold parseNat at h
  split at h
  · rename_i hc
    obtain ⟨hne, hall⟩ := hc
    obtain ⟨b, ds, hb⟩ := exists_cons_of_ne_nil hne
    refine ⟨b, ds, hb, ?_⟩
    rw [hb, all_cons, Bool.and_eq_true, Bool.and_eq_true] at hall
    exact of_decide_eq_true hall.1.1
  · cases h

theorem parseInt_formatInt {i : Int} (h : inInt64 i = true) : parseInt (formatInt i) = some i := by
  unfold parseInt formatInt
  by_cases hi : i < 0
  · rw [if_pos hi]
    simp only [parseNat_formatNat, map_some]
    rw [show (-(i.natAbs : Int)) = i by omega]
    exact filter_eq_some_iff.mpr ⟨rfl, h⟩
  · rw [if_neg hi]
    obtain ⟨b, ds, hb, hge⟩ := formatNat_head i.natAbs
    have hp : (parseNat (b :: ds)).map (fun n : Nat => (n : Int)) = some i := by
      rw [← hb, parseNat_formatNat, map_some, show ((i.natAbs : Int)) = i by omega]
    rw [hb]
    dsimp only
    split
    · rename_i heq
      obtain ⟨rfl, -⟩ := List.cons.inj heq
      exact absurd hge (by decide)
    · rename_i heq
      obtain ⟨rfl, -⟩ := List.cons.inj heq
      exact absurd hge (by decide)
    · rw [hp]
      exact filter_eq_some_iff.mpr ⟨rfl, h⟩

example : parseInt (formatInt (-120)) = some (-120) := by decide

/-! ## Expressions -/

inductive Const where
  | null
  | int (val : Bytes)
  | float (val : Bytes)
  | bool (val : Bytes)
  | string (val : Bytes)
deriving DecidableEq

inductive BoolOp where
  | not
  | and
  | or
deriving DecidableEq

/-- The expression nodes of the AST. `call` stands for function calls and for the nodes with
rules of their own over evaluated operands (LIKE, SIMILAR TO, ANY/ALL, rows, field selection,
subqueries, which the statements modelled here cannot run). -/
inductive Expr where
  | const (c : Const)
  | param (number : Nat)
  | column (fields : List Bytes)
  | minus (arg : Expr)
  | binary (name : Bytes) (lexpr rexpr : Expr)
  | isIn (lexpr : Expr) (items : List Expr)
  | boolExpr (op : BoolOp) (args : List Expr)
  | nullTest (testNull : Bool) (arg : Expr)
  | caseExpr (arg : Option Expr) (whens : List (Expr × Expr)) (els : Option Expr)
  | typeCast (arg : Expr) (typeName : Bytes)
  | call (name : Bytes) (args : List Expr)
  | setToDefault

/-! ## Sessions and the environment -/

/-- What the executor reads of a session. -/
structure Session where
  ns : Bytes
  branch : Bytes
  user : Bytes
  bypassRLS : Bool
  settings : List (Bytes × Bytes)
deriving DecidableEq

/-- Where an expression reads the clock or the random source: the number of the evaluation
and the position in the expression tree. No two reads share one. -/
structure Site where
  eval : Nat
  path : Nat
deriving DecidableEq

def Site.l (s : Site) : Site := { s with path := 2 * s.path }

def Site.r (s : Site) : Site := { s with path := 2 * s.path + 1 }

/-- The first site of an evaluation. -/
def Site.root (n : Nat) : Site := ⟨n, 1⟩

/-- What is not embedded: Go's string, float and time packages, the SQL parser and deparser,
and the scalar function library. -/
structure Env where
  /-- The representative of a string up to `strings.EqualFold`. -/
  fold : Bytes → Bytes
  toLower : Bytes → Bytes
  trimSpace : Bytes → Bytes
  /-- `parseStoredExpr`. -/
  parseExpr : Bytes → ExecM Expr
  /-- `deparseExpr`. -/
  deparseExpr : Expr → ExecM Bytes
  oidForTypeName : Bytes → Nat
  /-- The order of two texts read by `strconv.ParseFloat`. -/
  compareFloat : Bytes → Bytes → Ordering
  /-- The order of two texts read by `parseBigFloat`. -/
  compareBig : Bytes → Bytes → Ordering
  looksLikeInterval : Bytes → Bool
  /-- `arith` on timestamps, intervals, NUMERIC and float8. -/
  arithOther : Bytes → Value → Value → ExecM Value
  negateFloat : Bytes → ExecM Bytes
  /-- The operators outside arithmetic and comparison, on operands that are not NULL. -/
  operator : Bytes → Value → Value → ExecM Value
  /-- Function calls and the other nodes of `Expr.call`, on the results of their operands. -/
  call : Site → Option Session → Bytes → List (ExecM Value) → ExecM Value
  nowText : Site → Bytes
  nowTimeText : Site → Bytes
  newUUID : Site → Bytes
  /-- The order-preserving image of `strconv.ParseFloat`, eight bytes. -/
  floatKey : Bytes → Option (List.Vector Byte 8)
  castTextToOID : Bytes → Nat → ExecM Bytes

def Env.equalFold (env : Env) (a b : Bytes) : Bool := decide (env.fold a = env.fold b)

/-! ## An environment for concrete runs -/

def lowerByte (b : Byte) : Byte := if 65 ≤ b.val ∧ b.val ≤ 90 then Fin.ofNat 256 (b.val + 32) else b

/-- ASCII texts and integers, no scalar functions; `stored` is what the stored texts parse to,
and every expression is stored under the text `e`. -/
def asciiEnv (stored : Bytes → Expr) : Env where
  fold := List.map lowerByte
  toLower := List.map lowerByte
  trimSpace := fun s => s
  parseExpr := fun text => .ok (stored text)
  deparseExpr := fun _ => .ok (str "e")
  oidForTypeName := fun _ => OIDText
  compareFloat := fun a b => Ord.compare ((parseInt a).getD 0) ((parseInt b).getD 0)
  compareBig := fun a b => Ord.compare ((parseInt a).getD 0) ((parseInt b).getD 0)
  looksLikeInterval := fun _ => false
  arithOther := fun _ _ _ => .error ⟨"0A000", "operator %q on float not supported", []⟩
  negateFloat := fun _ => .error ⟨"22P02", "invalid float %q", []⟩
  operator := fun op _ _ => .error ⟨"0A000", "operator %q not supported", [op]⟩
  call := fun _ _ f _ => .error ⟨"42883", "function %s does not exist", [f]⟩
  nowText := fun _ => []
  nowTimeText := fun _ => []
  newUUID := fun _ => []
  floatKey := fun _ => none
  castTextToOID := fun t _ => .ok t

/-- The stored texts are all `owner = current_user`. -/
def ownerEnv : Env := asciiEnv fun _ => .binary (str "=") (.column [str "owner"]) (.column [str "current_user"])

end BasuyuDb.Executor
