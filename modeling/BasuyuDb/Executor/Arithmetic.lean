import BasuyuDb.Executor.Orders

/-
  engine/internal/executor/eval.go (arith, negate), agg.go (SUM): integer arithmetic against the integers. The
  operations on int64 wrap around; a result is exact as long as the results it is computed from are in range. Sums,
  differences and products are exact when the whole is in range, and so is SUM.
-/

namespace BasuyuDb.Executor
open Storage List Option

/-- Integer constants and columns, unary minus and the arithmetic operators. -/
def Expr.isInteger : Expr → Bool
  | .const (.int val) => (parseInt val).isSome
  | .column _ => true
  | .minus a => a.isInteger
  | .binary op l r => isArithmetic op && l.isInteger && r.isInteger
  | _ => false

/-- The operators on the integers; none is a division by zero. -/
def exactOp (op : Bytes) (i j : Int) : Option Int :=
  if op = str "+" then some (i + j)
  else if op = str "-" then some (i - j)
  else if op = str "*" then some (i * j)
  else if j = 0 then none
  else if op = str "/" then some (i.tdiv j)
  else some (i.tmod j)

/-- An operation with a NULL is NULL. -/
def exactBinary (op : Bytes) : Option Int → Option Int → Option (Option Int)
  | some i, some j => (exactOp op i j).map some
  | _, _ => some none

/-- The result over the integers, which can be NULL; none where there is none. -/
def Expr.exact (env : Env) (sc : Scope) (site : Site) : Expr → Option (Option Int)
  | .const (.int val) => (parseInt val).map some
  | .column fields => do
    match (← (evalColumn env sc site fields).toOption).cell with
    | none => some none
    | some t => (parseInt t).map some
  | .minus a => do
    let i ← ← a.exact env sc site
    some (some (-i))
  | .binary op l r => do exactBinary op (← l.exact env sc site.l) (← r.exact env sc site.r)
  | _ => none

variable (env : Env) (sc : Scope) (e : Expr) (site : Site)

/-- The columns of the expression are of integer types. -/
def IntegerColumns : Prop :=
  ∀ fields ∈ e.columns, ∀ site v, evalColumn env sc site fields = .ok v →
    (v.oid = OIDInt2 ∨ v.oid = OIDInt4 ∨ v.oid = OIDInt8) ∧ ∀ t, v.cell = some t → ∃ i, parseInt t = some i

/-- The expression and the operands of it that are evaluated, the right one only when the left one has a value. -/
def Expr.evaluated (P : Expr → Site → Prop) : Expr → Site → Prop
  | .minus a, site => P (.minus a) site ∧ a.evaluated P site
  | .binary op l r, site =>
    P (.binary op l r) site ∧ l.evaluated P site.l ∧ ((∃ v, l.eval env sc site.l = .ok v) → r.evaluated P site.r)
  | e, site => P e site

/-- There is no / or % in the expression. -/
def Expr.undivided : Expr → Bool
  | .minus a => a.undivided
  | .binary op l r => op ∈ [str "+", str "-", str "*"] && l.undivided && r.undivided
  | _ => true

def Shows (v : Value) : Option Int → Prop
  | none => v.cell = none ∧ v.oid ≠ OIDFloat8
  | some i => IsInt v i

/-- An evaluation fails, or has the result over the integers. -/
def Corresponds : ExecM Value → Option (Option Int) → Prop
  | .ok v, some n => Shows v n
  | .error _, none => True
  | _, _ => False

def Right : Prop :=
  ∀ v, e.eval env sc site = .ok v → ∃ n, e.exact env sc site = some n ∧ Shows v n

def InRange : Prop :=
  ∀ i, e.exact env sc site = some (some i) → inInt64 i = true

/-- An operation fails like the one over the integers, is NULL like it, or has its result wrapped. -/
def Operation (x : ExecM Value) (m : Option (Option Int)) : Prop :=
  (∃ e, x = .error e ∧ m = none) ∨ (x = .ok nullBool ∧ m = some none) ∨
    ∃ i, x = .ok ⟨some (formatInt (wrap64 i)), OIDInt4⟩ ∧ m = some (some i)

section trees
variable {env sc} {v w : Value} {i j : Int}

theorem inInt64_wrap64 (i : Int) : inInt64 (wrap64 i) = true := by
  have h1 := Int.le_bmod (x := i) (m := 2 ^ 64) (by decide)
  have h2 := Int.bmod_lt (x := i) (m := 2 ^ 64) (by decide)
  rw [inInt64, wrap64, Bool.and_eq_true]
  exact ⟨decide_eq_true (by omega), decide_eq_true (by omega)⟩

theorem isInt_formatInt {oid : Nat} (hoid : oid = OIDInt2 ∨ oid = OIDInt4 ∨ oid = OIDInt8) :
    IsInt ⟨some (formatInt (wrap64 i)), oid⟩ (wrap64 i) :=
  ⟨⟨_, rfl, parseInt_formatInt (inInt64_wrap64 i)⟩, hoid⟩

theorem IsInt.unique (h : IsInt v i) (h' : IsInt v j) : i = j := by
  obtain ⟨⟨t, ht, hi⟩, -⟩ := h
  obtain ⟨⟨t', ht', hj⟩, -⟩ := h'
  cases ht.symm.trans ht'
  exact some.inj (hi.symm.trans hj)

theorem negate_int (h : IsInt v i) : negate env v = .ok ⟨some (formatInt (wrap64 (-i))), OIDInt4⟩ := by
  obtain ⟨⟨t, ht, hi⟩, hoid⟩ := h
  have hfloat : v.oid ≠ OIDFloat8 := by
    rcases hoid with h | h | h <;> rw [h] <;> decide
  unfold negate
  simp only [ht, getD_some, if_neg hfloat, hi]

variable {site} {op : Bytes} {x : ExecM Value} {m : Option (Option Int)}

theorem evalBinary_int (hop : isArithmetic op = true) (hv : IsInt v i) (hw : IsInt w j) :
    evalBinary env op v w = match exactOp op i j with
      | some n => .ok ⟨some (formatInt (wrap64 n)), OIDInt4⟩
      | none => .error ⟨"22012", "division by zero", []⟩ := by
  obtain ⟨⟨a, ha, hi⟩, hoid⟩ := hv
  obtain ⟨⟨b, hb, hj⟩, hoid'⟩ := hw
  have hother : arithIsOther env v.oid b w.oid = false := by
    rcases hoid with h | h | h <;> rcases hoid' with h' | h' | h' <;> rw [h, h'] <;>
      simp [arithIsOther, OIDInt2, OIDInt4, OIDInt8, OIDTimestamp, OIDTimestamptz, OIDDate, OIDInterval, OIDText, OIDNumeric,
        OIDFloat8]
  have hjson : (v.oid = 114 || v.oid = 3802) = false := by
    rcases hoid with h | h | h <;> rw [h] <;> decide
  have hcmp : isComparison op = false := by
    simp only [isArithmetic, mem_cons, not_mem_nil, or_false, decide_eq_true_eq] at hop
    rcases hop with rfl | rfl | rfl | rfl | rfl <;> decide
  unfold evalBinary
  simp only [ha, hb, hcmp, hop, hjson, Bool.and_false, Bool.not_false, Bool.and_self, if_true, Bool.false_eq_true,
    if_false, arith, hother, arithInt, hi, hj, elim_some, bind, Except.bind, exactOp]
  split
  · rfl
  split
  · rfl
  split
  · rfl
  split
  · rfl
  split
  · rfl
  · rfl

theorem evalBinary_null (h : v.cell = none ∨ w.cell = none) : evalBinary env op v w = .ok nullBool := by
  unfold evalBinary
  rcases h with h | h
  · rw [h]
  · rw [h]
    split
    · rename_i hno
      cases hno
    · rfl

theorem Corresponds.split (h : Corresponds x m) :
    (∃ e, x = .error e ∧ m = none) ∨ ∃ v n, x = .ok v ∧ m = some n ∧ Shows v n := by
  match x, m with
  | .error e, none => exact .inl ⟨e, rfl, rfl⟩
  | .ok v, some n => exact .inr ⟨v, n, rfl, rfl, h⟩
  | .error e, some n | .ok v, none => exact h.elim

theorem Operation.inRange_iff (h : Operation x m) : ((∀ i, m = some (some i) → inInt64 i = true) → Corresponds x m) ∧
      ((∀ v, x = .ok v → ∃ n, m = some n ∧ Shows v n) → ∀ i, m = some (some i) → inInt64 i = true) := by
  rcases h with ⟨e, rfl, rfl⟩ | ⟨rfl, rfl⟩ | ⟨i, rfl, rfl⟩
  · exact ⟨fun _ => trivial, fun _ i hi => nomatch hi⟩
  · exact ⟨fun _ => ⟨rfl, by decide⟩, fun _ i hi => nomatch hi⟩
  · have hint : IsInt ⟨some (formatInt (wrap64 i)), OIDInt4⟩ (wrap64 i) := isInt_formatInt (.inr (.inl rfl))
    refine ⟨fun h => ?_, fun h j hj => ?_⟩
    · rw [wrap64_of_inInt64 (h i rfl)] at hint ⊢
      exact hint
    · -- the wrapped result shows the exact one, so it is the exact one
      cases hj
      obtain ⟨n, hn, hshows⟩ := h _ rfl
      cases hn
      rw [← hint.unique hshows]
      exact inInt64_wrap64 i

theorem Operation.wrapped (h : Operation x m) : Corresponds x (m.map (Option.map wrap64)) := by
  rcases h with ⟨e, rfl, rfl⟩ | ⟨rfl, rfl⟩ | ⟨i, rfl, rfl⟩
  · trivial
  · exact ⟨rfl, by decide⟩
  · exact isInt_formatInt (.inr (.inl rfl))

theorem negate_operation {n : Option Int} (hv : Shows v n) : Operation (negate env v) (n.map fun i => some (-i)) := by
  cases n with
  | none =>
    refine .inl ⟨⟨"22P02", "invalid integer %q", [[]]⟩, ?_, rfl⟩
    unfold negate
    rw [if_neg hv.2, hv.1]
    rfl
  | some i => exact .inr (.inr ⟨-i, negate_int hv, rfl⟩)

theorem evalBinary_operation {m n : Option Int} (hop : isArithmetic op = true) (hv : Shows v m) (hw : Shows w n) :
    Operation (evalBinary env op v w) (exactBinary op m n) := by
  match m, n with
  | none, _ => exact .inr (.inl ⟨evalBinary_null (.inl hv.1), rfl⟩)
  | some i, none => exact .inr (.inl ⟨evalBinary_null (.inr hw.1), rfl⟩)
  | some i, some j =>
    rw [evalBinary_int hop hv hw]
    change Operation _ ((exactOp op i j).map some)
    cases exactOp op i j with
    | none => exact .inl ⟨_, rfl, rfl⟩
    | some x => exact .inr (.inr ⟨x, rfl, rfl⟩)

theorem minus_operation {a : Expr} (ha : Corresponds (a.eval env sc site) (a.exact env sc site)) :
    Operation ((Expr.minus a).eval env sc site) ((Expr.minus a).exact env sc site) := by
  simp only [Expr.eval, Expr.exact]
  rcases ha.split with ⟨e, hx, hm⟩ | ⟨v, n, hx, hm, hv⟩
  · rw [hx, hm]
    exact .inl ⟨e, rfl, rfl⟩
  · rw [hx, hm]
    have hnegate : Operation (negate env v) _ := negate_operation hv
    cases n with
    | none | some i => exact hnegate

theorem binary_operation {l r : Expr} (hop : isArithmetic op = true)
    (hl : Corresponds (l.eval env sc site.l) (l.exact env sc site.l))
    (hr : (∃ v, l.eval env sc site.l = .ok v) → Corresponds (r.eval env sc site.r) (r.exact env sc site.r)) :
    Operation ((Expr.binary op l r).eval env sc site) ((Expr.binary op l r).exact env sc site) := by
  simp only [Expr.eval, Expr.exact]
  rcases hl.split with ⟨e, hx, hm⟩ | ⟨v, m, hx, hm, hv⟩
  · rw [hx, hm]
    exact .inl ⟨e, rfl, rfl⟩
  rcases (hr ⟨v, hx⟩).split with ⟨e, hy, hn⟩ | ⟨w, n, hy, hn, hw⟩
  · rw [hx, hm, hy, hn]
    exact .inl ⟨e, rfl, rfl⟩
  · rw [hx, hm, hy, hn]
    exact evalBinary_operation hop hv hw

theorem leaf_corresponds {e : Expr} (hcols : IntegerColumns env sc e) (hint : e.isInteger = true)
    (hleaf : (∃ val, e = .const (.int val)) ∨ ∃ fields, e = .column fields) :
    Corresponds (e.eval env sc site) (e.exact env sc site) ∧ InRange env sc e site := by
  unfold InRange
  rcases hleaf with ⟨val, rfl⟩ | ⟨fields, rfl⟩
  · obtain ⟨i, hi⟩ := isSome_iff_exists.mp hint
    simp only [Expr.eval, Expr.exact, hi, map_some, Option.some.injEq, forall_eq']
    exact ⟨⟨⟨val, rfl, hi⟩, .inr (.inl rfl)⟩, inInt64_of_parseInt hi⟩
  · simp only [Expr.eval, Expr.exact]
    cases hcol : evalColumn env sc site fields with
    | error e => exact ⟨trivial, fun i hi => by cases hi⟩
    | ok v =>
      obtain ⟨hoid, hparse⟩ := hcols fields (mem_singleton_self _) site v hcol
      simp only [Except.toOption, bind_eq_bind, bind_some]
      cases hcell : v.cell with
      | none =>
        refine ⟨⟨hcell, ?_⟩, fun i hi => by cases hi⟩
        rcases hoid with h | h | h <;> rw [h] <;> decide
      | some t =>
        obtain ⟨i, hi⟩ := hparse t hcell
        simp only [hi, map_some, Option.some.injEq, forall_eq']
        exact ⟨⟨⟨t, hcell, hi⟩, hoid⟩, inInt64_of_parseInt hi⟩

theorem Corresponds.right {e : Expr} (h : Corresponds (e.eval env sc site) (e.exact env sc site)) : Right env sc e site := by
  intro v hv
  rw [hv] at h
  rcases h.split with ⟨_, hno, -⟩ | ⟨w, n, hw, hn, hshows⟩
  · cases hno
  · cases hw
    exact ⟨n, hn, hshows⟩

theorem Expr.exact_iff (e : Expr) (hcols : IntegerColumns env sc e) (hint : e.isInteger = true) (site : Site) :
    (e.evaluated env sc (InRange env sc) site → Corresponds (e.eval env sc site) (e.exact env sc site)) ∧
      (e.evaluated env sc (Right env sc) site ↔ e.evaluated env sc (InRange env sc) site) := by
  match e with
  | .const (.int val) =>
    obtain ⟨hcorr, hrange⟩ := leaf_corresponds hcols hint (.inl ⟨val, rfl⟩)
    exact ⟨fun _ => hcorr, iff_of_true hcorr.right hrange⟩
  | .column fields =>
    obtain ⟨hcorr, hrange⟩ := leaf_corresponds hcols hint (.inr ⟨fields, rfl⟩)
    exact ⟨fun _ => hcorr, iff_of_true hcorr.right hrange⟩
  | .minus a =>
    obtain ⟨hcorr, hiff⟩ := a.exact_iff hcols hint site
    refine ⟨fun h => (minus_operation (hcorr h.2)).inRange_iff.1 h.1, fun h => ?_, fun h => ?_⟩
    · exact ⟨(minus_operation (hcorr (hiff.mp h.2))).inRange_iff.2 h.1, hiff.mp h.2⟩
    · exact ⟨((minus_operation (hcorr h.2)).inRange_iff.1 h.1).right, hiff.mpr h.2⟩
  | .binary op l r =>
    obtain ⟨⟨hop, hl⟩, hr⟩ : (isArithmetic op = true ∧ l.isInteger = true) ∧ r.isInteger = true := by
      simpa only [Expr.isInteger, Bool.and_eq_true] using hint
    obtain ⟨hcl, hil⟩ := l.exact_iff (fun f hf => hcols f (mem_append_left _ hf)) hl site.l
    obtain ⟨hcr, hir⟩ := r.exact_iff (fun f hf => hcols f (mem_append_right _ hf)) hr site.r
    have hoperation : l.evaluated env sc (InRange env sc) site.l →
        ((∃ v, l.eval env sc site.l = .ok v) → r.evaluated env sc (InRange env sc) site.r) →
        Operation ((Expr.binary op l r).eval env sc site) ((Expr.binary op l r).exact env sc site) :=
      fun h h' => binary_operation hop (hcl h) fun hv => hcr (h' hv)
    refine ⟨fun h => (hoperation h.2.1 h.2.2).inRange_iff.1 h.1, fun h => ?_, fun h => ?_⟩
    · have hl' := hil.mp h.2.1
      have hr' := fun hv => hir.mp (h.2.2 hv)
      exact ⟨(hoperation hl' hr').inRange_iff.2 h.1, hl', hr'⟩
    · exact ⟨((hoperation h.2.1 h.2.2).inRange_iff.1 h.1).right, hil.mpr h.2.1, fun hv => hir.mpr (h.2.2 hv)⟩

theorem exactBinary_wrap (hop : op ∈ [str "+", str "-", str "*"]) (m n : Option Int) :
    (exactBinary op (m.map wrap64) (n.map wrap64)).map (Option.map wrap64) =
      (exactBinary op m n).map (Option.map wrap64) := by
  match m, n with
  | none, _ | some i, none => rfl
  | some i, some j =>
    simp only [mem_cons, not_mem_nil, or_false] at hop
    rcases hop with rfl | rfl | rfl
    · exact congrArg (fun i => some (some i)) (by simp [wrap64])
    · exact congrArg (fun i => some (some i)) (by simp [wrap64])
    · exact congrArg (fun i => some (some i)) (by simp [wrap64])

/-- Without divisions the result is the exact one, wrapped. -/
theorem Expr.wrapped (e : Expr) (hcols : IntegerColumns env sc e) (hint : e.isInteger = true) (hundivided : e.undivided = true)
    (site : Site) : Corresponds (e.eval env sc site) ((e.exact env sc site).map (Option.map wrap64)) := by
  have hleaf : Corresponds (e.eval env sc site) (e.exact env sc site) ∧ InRange env sc e site →
      Corresponds (e.eval env sc site) ((e.exact env sc site).map (Option.map wrap64)) := by
    rintro ⟨hcorr, hrange⟩
    unfold InRange at hrange
    cases hm : e.exact env sc site with
    | none => rwa [hm] at hcorr
    | some n =>
      rw [hm] at hcorr hrange
      cases n with
      | none => exact hcorr
      | some i => rwa [Option.map_some, Option.map_some, wrap64_of_inInt64 (hrange i rfl)]
  match e with
  | .const (.int val) => exact hleaf (leaf_corresponds hcols hint (.inl ⟨val, rfl⟩))
  | .column fields => exact hleaf (leaf_corresponds hcols hint (.inr ⟨fields, rfl⟩))
  | .minus a =>
    simp only [Expr.eval, Expr.exact]
    rcases (a.wrapped hcols hint hundivided site).split with ⟨e, hx, hm⟩ | ⟨v, n, hx, hm, hv⟩
    · rw [hx, Option.map_eq_none_iff.mp hm]
      trivial
    · obtain ⟨m, hexact, rfl⟩ := Option.map_eq_some_iff.mp hm
      have hnegate : Corresponds (negate env v) _ := (negate_operation hv).wrapped
      rw [hx, hexact]
      cases m with
      | none => exact hnegate
      | some i =>
        have hsame : wrap64 (-wrap64 i) = wrap64 (-i) := by simp [wrap64]
        simp only [Option.map_some, hsame] at hnegate
        exact hnegate
  | .binary op l r =>
    obtain ⟨⟨harith, hl⟩, hr⟩ : (isArithmetic op = true ∧ l.isInteger = true) ∧ r.isInteger = true := by
      simpa only [Expr.isInteger, Bool.and_eq_true] using hint
    obtain ⟨⟨hop, hlu⟩, hru⟩ : (op ∈ [str "+", str "-", str "*"] ∧ l.undivided = true) ∧ r.undivided = true := by
      simpa only [Expr.undivided, Bool.and_eq_true, decide_eq_true_eq] using hundivided
    simp only [Expr.eval, Expr.exact]
    rcases (l.wrapped (fun f hf => hcols f (mem_append_left _ hf)) hl hlu site.l).split with
      ⟨e, hx, hm⟩ | ⟨v, m, hx, hm, hv⟩
    · rw [hx, Option.map_eq_none_iff.mp hm]
      trivial
    obtain ⟨m, hl', rfl⟩ := Option.map_eq_some_iff.mp hm
    rcases (r.wrapped (fun f hf => hcols f (mem_append_right _ hf)) hr hru site.r).split with
      ⟨e, hy, hn⟩ | ⟨w, n, hy, hn, hw⟩
    · rw [hx, hl', hy, Option.map_eq_none_iff.mp hn]
      trivial
    obtain ⟨n, hr', rfl⟩ := Option.map_eq_some_iff.mp hn
    have hbinary : Corresponds (evalBinary env op v w) _ := (evalBinary_operation harith hv hw).wrapped
    rw [exactBinary_wrap hop] at hbinary
    rw [hx, hl', hy, hr']
    exact hbinary

theorem Expr.undivided_iff {e : Expr} (hcols : IntegerColumns env sc e) (hint : e.isInteger = true)
    (hundivided : e.undivided = true) : Right env sc e site ↔ InRange env sc e site := by
  rcases (e.wrapped hcols hint hundivided site).split with ⟨x, hx, hm⟩ | ⟨v, n, hv, hm, hshows⟩
  · rw [Option.map_eq_none_iff] at hm
    exact iff_of_true (fun v hv => by cases hx.symm.trans hv) fun i hi => by cases hm.symm.trans hi
  · obtain ⟨m, hexact, rfl⟩ := Option.map_eq_some_iff.mp hm
    cases m with
    | none =>
      refine iff_of_true (fun w hw => ⟨none, hexact, ?_⟩) fun i hi => by cases hexact.symm.trans hi
      cases hv.symm.trans hw
      exact hshows
    | some i =>
      constructor
      · intro hright j hj
        cases hexact.symm.trans hj
        obtain ⟨n, hn, hright⟩ := hright v hv
        cases hexact.symm.trans hn
        rw [← IsInt.unique hshows hright]
        exact inInt64_wrap64 i
      · intro hrange w hw
        cases hv.symm.trans hw
        refine ⟨some i, hexact, ?_⟩
        rwa [Option.map_some, wrap64_of_inInt64 (hrange i hexact)] at hshows

end trees

/-! ## SUM -/

/-- The loop of SUM; none when a value is no integer. -/
def sumInts (isum : Int) : List Value → Option Int
  | [] => some isum
  | v :: vs => do sumInts (wrap64 (isum + (← parseInt (v.cell.getD [])))) vs

/-- SUM in `evalAggregate`, over the values that are not NULL; `floatSum` is the sum of other numbers. -/
def evalSum (floatSum : List Value → ExecM Value) (vals : List Value) : ExecM Value :=
  if vals.isEmpty then .ok ⟨none, OIDInt8⟩
  else
    match sumInts 0 vals with
    | some n => .ok ⟨some (formatInt n), OIDInt8⟩
    | none => floatSum vals

theorem sumInts_eq {vals : List Value} {xs : List Int} (h : List.Forall₂ IsInt vals xs) (isum : Int) :
    sumInts (wrap64 isum) vals = some (wrap64 (isum + xs.sum)) := by
  induction h generalizing isum with
  | nil => rw [sumInts, sum_nil, Int.add_zero]
  | @cons v x vals xs hv _ ih =>
    obtain ⟨⟨t, ht, hx⟩, -⟩ := hv
    rw [sumInts, ht, getD_some, hx, bind_eq_bind, bind_some, sum_cons, ← Int.add_assoc, ← ih]
    unfold wrap64
    rw [Int.bmod_add_bmod]

/-- An expression over integers evaluates to an error or the exact result, and so do the operands that are evaluated,
    exactly when no result of them leaves the range of int64. Without divisions the expression does exactly when its
    own result is in that range, and SUM when the sum is. -/
theorem integer_arithmetic_iff (env : Env) (sc : Scope) :
    (∀ (e : Expr) site, e.isInteger = true → IntegerColumns env sc e →
      (e.evaluated env sc (Right env sc) site ↔ e.evaluated env sc (InRange env sc) site) ∧
        (e.undivided = true → (Right env sc e site ↔ InRange env sc e site))) ∧
    ∀ floatSum vals xs, List.Forall₂ IsInt vals xs → vals ≠ [] →
      ((∀ v, evalSum floatSum vals = .ok v → IsInt v xs.sum) ↔ inInt64 xs.sum = true) := by
  refine ⟨fun e site hint hcols => ⟨(e.exact_iff hcols hint site).2, Expr.undivided_iff hcols hint⟩,
    fun floatSum vals xs h hne => ?_⟩
  have hsum : evalSum floatSum vals = .ok ⟨some (formatInt (wrap64 xs.sum)), OIDInt8⟩ := by
    have hloop := sumInts_eq h 0
    rw [show wrap64 0 = 0 from rfl, Int.zero_add] at hloop
    unfold evalSum
    rw [if_neg (by simpa using hne), hloop]
  have hint : IsInt ⟨some (formatInt (wrap64 xs.sum)), OIDInt8⟩ (wrap64 xs.sum) := isInt_formatInt (.inr (.inr rfl))
  constructor
  · intro hall
    rw [← hint.unique (hall _ hsum)]
    exact inInt64_wrap64 _
  · intro hrange v hv
    cases hsum.symm.trans hv
    rwa [wrap64_of_inInt64 hrange] at hint ⊢

/-- 9223372036854775807 + 1, and SUM over the two, are -9223372036854775808. -/
theorem integers_wrap :
    ((Expr.binary (str "+") (.const (.int (str "9223372036854775807"))) (.const (.int (str "1")))).eval demoEnv
      ⟨[], noRow, none⟩ (Site.root 0)).toOption = some ⟨some (str "-9223372036854775808"), OIDInt4⟩ ∧
    (evalSum (fun _ => .ok nullBool) [⟨some (str "9223372036854775807"), OIDInt8⟩, ⟨some (str "1"), OIDInt8⟩]).toOption =
      some ⟨some (str "-9223372036854775808"), OIDInt8⟩ := by
  decide +kernel

end BasuyuDb.Executor
