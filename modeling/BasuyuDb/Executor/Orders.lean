import BasuyuDb.Lib.Rounding
import BasuyuDb.Executor.Access

/-
  engine/internal/executor/eval.go (compare), eval_ext.go (compareRows), agg.go (MIN and MAX), index.go
  (encodeIndexTuple), orderenc.go: the orders of values. The index encoding keeps the order of integers, booleans
  and texts (`index_tuples_ordered`). `compare` reads integers as float64, so integers with one image are equal
  to it (`integer_compare_iff`), and `orderEncode` takes int2 and numeric for texts (`orders_agree_iff`).
-/

namespace BasuyuDb.Executor
open KvLib Storage List Option

/-! ## Index tuples -/

/-- A value of the types that have an order of their own in an index. -/
inductive IndexValue where
  | int (i : Int)
  | bool (b : Bool)
  | text (t : Bytes)
deriving DecidableEq

/-- The value of a cell of the type. -/
def IndexValue.read (oid : Nat) (t : Bytes) : Option IndexValue :=
  if oid = OIDInt4 ∨ oid = OIDInt8 then (parseInt t).map .int
  else if oid = OIDBool then
    if t = str "t" then some (.bool true) else if t = str "f" then some (.bool false) else none
  else if oid = OIDText then some (.text t)
  else none

/-- Integers by value, false before true, texts by bytes. -/
def IndexValue.order : IndexValue → IndexValue → Ordering
  | .int i, .int j => Ord.compare i j
  | .bool b, .bool c => Ord.compare b c
  | .text s, .text t => compareBytes s t
  | _, _ => .eq

/-- The lexicographic order of tuples of one length. -/
def tupleOrder : List IndexValue → List IndexValue → Ordering
  | v :: vs, w :: ws => (v.order w).then (tupleOrder vs ws)
  | _, _ => .eq

/-- The values of the columns; none when one of them is NULL or not of its type. -/
def readTuple (env : Env) (sch : TableSchema) (cells : Data) : List Bytes → Option (List IndexValue)
  | [] => some []
  | col :: cols => do
    let ci ← sch.colIndex env col
    let v ← IndexValue.read (sch.oidAt ci) (← cellAt cells ci)
    some (v :: (← readTuple env sch cells cols))

section tuples
variable {env : Env} {oid : Nat} {a b u w : Bytes} {o : Ordering}

theorem tupleOrder_self (vs : List IndexValue) : tupleOrder vs vs = .eq := by
  induction vs with
  | nil => rfl
  | cons v vs ih =>
    have hv : v.order v = .eq := by
      cases v with
      | int i | bool b => exact compare_eq_iff_eq.mpr rfl
      | text t => exact compareBytes_eq.mpr rfl
    rw [tupleOrder, hv, ih]
    rfl

theorem Agrees.compare (h : Agrees o u w) : compareBytes u w = o := by
  cases o with
  | lt => exact compareBytes_lt.mpr (Before.lt h)
  | eq => exact compareBytes_eq.mpr h
  | gt => exact compareBytes_gt.mpr (Before.lt h)

theorem Agrees.prefix_append (h : Agrees o u w) (x : Bytes) : u <+: w ++ x ↔ u = w := by
  refine ⟨fun hpre => ?_, fun heq => heq ▸ List.prefix_append _ _⟩
  cases o with
  | lt =>
    obtain ⟨y, hy⟩ := hpre
    exact absurd hy (ne_of_lt (Before.append_lt h y x))
  | eq => exact h
  | gt => exact absurd hpre (Before.not_prefix_append h x)

theorem Agrees.append {o' : Ordering} {u' w' : Bytes} (h : Agrees o u w) (h' : Agrees o' u' w') :
    Agrees (o.then o') (u ++ u') (w ++ w') := by
  cases o with
  | lt => exact Before.append h u' w'
  | gt => exact Before.append h w' u'
  | eq =>
    obtain rfl : u = w := h
    cases o' with
    | lt | gt => exact Before.prepend u h'
    | eq => exact congrArg (u ++ ·) h'

theorem orderEncode_agrees (hlaws : EnvLaws env) {v v' : IndexValue} (hv : IndexValue.read oid a = some v)
    (hv' : IndexValue.read oid b = some v') : ∃ u w, orderEncode env oid a = .ok u ∧ orderEncode env oid b = .ok w ∧
      Agrees (v.order v') u w ∧ (v.order v' = .eq → v = v') := by
  unfold IndexValue.read at hv hv'
  split at hv
  · rename_i hint
    rw [if_pos hint] at hv'
    obtain ⟨i, hi, rfl⟩ := map_eq_some_iff.mp hv
    obtain ⟨j, hj, rfl⟩ := map_eq_some_iff.mp hv'
    exact ⟨_, _, orderEncode_int hlaws hint hi, orderEncode_int hlaws hint hj,
      agrees_int (inInt64_of_parseInt hi) (inInt64_of_parseInt hj), fun h => congrArg _ (compare_eq_iff_eq.mp h)⟩
  rename_i hint
  rw [if_neg hint] at hv'
  split at hv
  · rename_i hbool
    subst hbool
    rw [if_pos rfl] at hv'
    have hbyte : ∀ {t : Bytes} {x : IndexValue},
        (if t = str "t" then some (.bool true) else if t = str "f" then some (.bool false) else none) = some x →
        ∃ c : Bool, x = .bool c ∧ orderEncode env OIDBool t = .ok [if c then 1 else 0] := by
      intro t x hx
      rw [orderEncode_bool]
      split at hx
      · rename_i ht
        exact ⟨true, (some.inj hx).symm, by rw [ht, hlaws.truthy.1]⟩
      · split at hx
        · rename_i ht
          exact ⟨false, (some.inj hx).symm, by rw [ht, hlaws.falsy.1]⟩
        · cases hx
    obtain ⟨c, rfl, hc⟩ := hbyte hv
    obtain ⟨d, rfl, hd⟩ := hbyte hv'
    refine ⟨_, _, hc, hd, ?_, ?_⟩
    · cases c <;> cases d <;> simp [IndexValue.order, Agrees, Before, Ord.compare]
    · cases c <;> cases d <;> decide
  rename_i hbool
  rw [if_neg hbool] at hv'
  split at hv
  · rename_i htext
    subst htext
    rw [if_pos rfl] at hv'
    cases hv
    cases hv'
    exact ⟨_, _, orderEncode_text (by decide) (by decide) (by decide) a, orderEncode_text (by decide) (by decide) (by decide) b,
      agrees_text a b, fun h => congrArg _ (compareBytes_eq.mp h)⟩
  · cases hv

theorem encodeIndexTuple_agrees (hlaws : EnvLaws env) {sch : TableSchema} {cols : List Bytes} {cells cells' : Data}
    {vs ws : List IndexValue} (hv : readTuple env sch cells cols = some vs) (hw : readTuple env sch cells' cols = some ws) :
    ∃ u w, encodeIndexTuple env sch cols cells = .ok (some u) ∧ encodeIndexTuple env sch cols cells' = .ok (some w) ∧
      Agrees (tupleOrder vs ws) u w ∧ (tupleOrder vs ws = .eq → vs = ws) := by
  induction cols generalizing vs ws with
  | nil =>
    cases hv
    cases hw
    exact ⟨[], [], rfl, rfl, rfl, fun _ => rfl⟩
  | cons col cols ih =>
    simp only [readTuple, bind_eq_bind, bind_eq_some_iff, Option.some.injEq] at hv hw
    obtain ⟨ci, hci, t, ht, v, hvt, vs', hvs, rfl⟩ := hv
    obtain ⟨ci', hci', t', ht', v', hvt', ws', hws, rfl⟩ := hw
    cases hci.symm.trans hci'
    obtain ⟨u, w, hu, hw, hag, heq⟩ := orderEncode_agrees hlaws hvt hvt'
    obtain ⟨us, ws'', hus, hws', hags, heqs⟩ := ih hvs hws
    refine ⟨u ++ us, w ++ ws'', encodeIndexTuple_cons.mpr ⟨u, us, encodeColumn_eq_some.mpr ⟨ci, t, hci, ht, hu⟩, hus, rfl⟩,
      encodeIndexTuple_cons.mpr ⟨w, ws'', encodeColumn_eq_some.mpr ⟨ci, t', hci, ht', hw⟩, hws', rfl⟩, hag.append hags, ?_⟩
    intro h
    obtain ⟨h1, h2⟩ := Ordering.then_eq_eq.mp h
    rw [heq h1, heqs h2]

end tuples

/-- The bytes of two index tuples are in the order of their values, equal only for equal values, and no tuple is
    the beginning of another, so a lookup by value meets the entries of that value alone. -/
theorem index_tuples_ordered (env : Env) (hlaws : EnvLaws env) (sch : TableSchema) (cols : List Bytes)
    (cells cells' : Data) (vs ws : List IndexValue) (hv : readTuple env sch cells cols = some vs)
    (hw : readTuple env sch cells' cols = some ws) :
    ∃ u w, encodeIndexTuple env sch cols cells = .ok (some u) ∧ encodeIndexTuple env sch cols cells' = .ok (some w) ∧
      compareBytes u w = tupleOrder vs ws ∧ (u = w ↔ vs = ws) ∧ (u <+: w ↔ u = w) ∧
      ∀ ns branch table col pk, indexValuePrefix ns branch table col u <+: indexKey ns branch table col w pk ↔ vs = ws := by
  obtain ⟨u, w, hu, hw', hag, heq⟩ := encodeIndexTuple_agrees hlaws hv hw
  have hsame : u = w ↔ vs = ws := by
    refine ⟨fun h => heq ?_, fun h => ?_⟩
    · rw [← hag.compare]
      exact compareBytes_eq.mpr h
    · subst h
      rw [tupleOrder_self] at hag
      exact hag
  refine ⟨u, w, hu, hw', hag.compare, hsame, by simpa using hag.prefix_append [], fun ns branch table col pk => ?_⟩
  rw [indexKey_eq, indexValuePrefix, prefix_append_right_inj, hag.prefix_append, hsame]

/-- ('1', 'x') comes before ('1', 'y'), whatever primary keys follow. -/
theorem demo_tuples_ordered : ∃ u w,
    encodeIndexTuple demoEnv demoSchema [str "id", str "v"] [some (str "1"), some (str "x")] = .ok (some u) ∧
    encodeIndexTuple demoEnv demoSchema [str "id", str "v"] [some (str "1"), some (str "y")] = .ok (some w) ∧
    compareBytes u w = .lt := by
  obtain ⟨u, w, hu, hw, hlt, -⟩ := index_tuples_ordered demoEnv demoEnv_laws demoSchema [str "id", str "v"]
    [some (str "1"), some (str "x")] [some (str "1"), some (str "y")] [.text (str "1"), .text (str "x")]
    [.text (str "1"), .text (str "y")]
    (by decide) (by decide)
  exact ⟨u, w, hu, hw, hlt.trans (by decide)⟩

/-! ## Integers in `compare` -/

/-- `strconv.ParseFloat` reads an integer as the nearest float64. -/
structure FloatLaws (env : Env) : Prop extends EnvLaws env where
  compareFloat : ∀ {a b : Bytes} {i j : Int}, parseInt a = some i → parseInt b = some j →
    env.compareFloat a b = Ord.compare (float64 i) (float64 j)

def compareCmp (env : Env) (a : Bytes) (aoid : Nat) (b : Bytes) (boid : Nat) : Ordering :=
  if asBool (compare env (str "<") a aoid b boid) then .lt
  else if asBool (compare env (str ">") a aoid b boid) then .gt
  else .eq

/-- `compareRows`, from the elements on that are not compared yet. The first elements that differ decide; a NULL
among the others makes equality unknown. -/
def compareRows (env : Env) (op : Bytes) (sawNull : Bool) : List Value → List Value → Value
  | a :: as, b :: bs =>
    match a.cell, b.cell with
    | some s, some t =>
      match compareCmp env s a.oid t b.oid with
      | .eq => compareRows env op sawNull as bs
      | c => boolValue (compareOp op c)
    | _, _ => compareRows env op true as bs
  | as, bs =>
    if sawNull && (op = str "=" || op = str "<>" || op = str "!=") then nullBool
    else boolValue (compareOp op (Ord.compare as.length bs.length))

/-- The value is the integer, of one of the integer types. -/
def IsInt (v : Value) (i : Int) : Prop :=
  (∃ t, v.cell = some t ∧ parseInt t = some i) ∧ (v.oid = OIDInt2 ∨ v.oid = OIDInt4 ∨ v.oid = OIDInt8)

/-- The lexicographic order of rows; a row that ends is smaller. -/
def rowOrder : List Int → List Int → Ordering
  | x :: xs, y :: ys => (Ord.compare x y).then (rowOrder xs ys)
  | xs, ys => Ord.compare xs.length ys.length

section integers
variable {env : Env} {a b : Bytes} {i j : Int}

theorem compareCells_int (hlaws : FloatLaws env) (ha : parseInt a = some i) (hb : parseInt b = some j) {aoid boid : Nat}
    (haoid : aoid = OIDInt2 ∨ aoid = OIDInt4 ∨ aoid = OIDInt8) (hboid : boid = OIDInt2 ∨ boid = OIDInt4 ∨ boid = OIDInt8) :
    compareCells env a aoid b boid = Ord.compare (float64 i) (float64 j) := by
  have hnum : ∀ o, o = OIDInt2 ∨ o = OIDInt4 ∨ o = OIDInt8 → isNumericOID o = true ∧ o ≠ OIDNumeric := by
    rintro o (rfl | rfl | rfl) <;> decide
  unfold compareCells
  rw [(hnum aoid haoid).1, (hnum boid hboid).1, if_pos (by rfl),
    if_neg (not_or.mpr ⟨(hnum aoid haoid).2, (hnum boid hboid).2⟩), hlaws.compareFloat ha hb]

theorem compareCmp_eq (aoid boid : Nat) : compareCmp env a aoid b boid = compareCells env a aoid b boid := by
  unfold compareCmp compare
  rw [asBool_boolValue, asBool_boolValue]
  cases compareCells env a aoid b boid <;> decide

theorem compareOp_all {c c' : Ordering} (h : ∀ op, isComparison op = true → compareOp op c = compareOp op c') : c = c' := by
  have hlt := h (str "<") (by decide)
  have hgt := h (str ">") (by decide)
  revert hlt hgt
  cases c <;> cases c' <;> decide

theorem boolValue_inj {x y : Bool} (h : boolValue x = boolValue y) : x = y := by
  rw [← asBool_boolValue x, h, asBool_boolValue]

theorem compareRows_int (hlaws : FloatLaws env) (op : Bytes) {vs ws : List Value} {xs ys : List Int}
    (hv : List.Forall₂ IsInt vs xs) (hw : List.Forall₂ IsInt ws ys) :
    compareRows env op false vs ws = boolValue (compareOp op (rowOrder (xs.map float64) (ys.map float64))) := by
  induction hv generalizing ws ys with
  | nil =>
    cases hw with
    | nil => rfl
    | cons hb hw => simp [compareRows, rowOrder, hw.length_eq]
  | @cons v x vs xs ha hv ih =>
    cases hw with
    | nil => simp [compareRows, rowOrder, hv.length_eq]
    | @cons w y ws ys hb hw =>
      obtain ⟨⟨s, hs, hx⟩, hoid⟩ := ha
      obtain ⟨⟨t, ht, hy⟩, hoid'⟩ := hb
      have hcmp := (compareCmp_eq v.oid w.oid).trans (compareCells_int hlaws hx hy hoid hoid')
      unfold compareRows
      rw [map_cons, map_cons, rowOrder]
      simp only [hs, ht, hcmp]
      cases Ord.compare (float64 x) (float64 y) with
      | eq => exact ih hw
      | lt | gt => rfl

end integers

/-- Two integers are compared exactly when they are equal or have different images in float64, and two rows of
    integers when the images are in the order of the integers. -/
theorem integer_compare_iff (env : Env) (hlaws : FloatLaws env) : (∀ v w i j, IsInt v i → IsInt w j →
      ((∀ op, isComparison op = true → evalBinary env op v w = .ok (boolValue (compareOp op (Ord.compare i j)))) ↔
        i = j ∨ float64 i ≠ float64 j)) ∧ ∀ vs ws xs ys, List.Forall₂ IsInt vs xs → List.Forall₂ IsInt ws ys →
      ((∀ op, isComparison op = true → compareRows env op false vs ws = boolValue (compareOp op (rowOrder xs ys))) ↔
        rowOrder (xs.map float64) (ys.map float64) = rowOrder xs ys) := by
  constructor
  · rintro v w i j ⟨⟨a, ha, hi⟩, hv⟩ ⟨⟨b, hb, hj⟩, hw⟩
    have heval : ∀ op, isComparison op = true →
        evalBinary env op v w = .ok (boolValue (compareOp op (Ord.compare (float64 i) (float64 j)))) := by
      intro op hop
      unfold evalBinary
      rw [ha, hb]
      dsimp only
      rw [if_pos hop, compare, compareCells_int hlaws hi hj hv hw]
    rw [← compare_float64_iff]
    constructor
    · intro h
      exact compareOp_all fun op hop => boolValue_inj (Except.ok.inj ((heval op hop).symm.trans (h op hop)))
    · intro h op hop
      rw [heval op hop, h]
  · intro vs ws xs ys hv hw
    constructor
    · intro h
      refine compareOp_all fun op hop => boolValue_inj ?_
      rw [← compareRows_int hlaws op hv hw, h op hop]
    · intro h op _
      rw [compareRows_int hlaws op hv hw, h]

/-- `demoEnv` with the integers of float64. -/
def floatEnv : Env := { demoEnv with
  compareFloat := fun a b => Ord.compare (float64 ((parseInt a).getD 0)) (float64 ((parseInt b).getD 0)) }

theorem floatEnv_laws : FloatLaws floatEnv where
  compareFloat_int := by
    rintro a b i j ha hb ⟨hi, hi'⟩ ⟨hj, hj'⟩
    simp only [floatEnv, ha, hb, getD_some]
    rw [float64_exact (by omega), float64_exact (by omega)]
  trimSpace_int := fun _ => rfl
  truthy := by decide
  falsy := by decide
  compareFloat := by
    intro a b i j ha hb
    simp only [floatEnv, ha, hb, getD_some]

/-- 1 and 2 are compared as they should. -/
theorem small_integers_compared : FloatLaws floatEnv ∧ ∀ op, isComparison op = true →
    evalBinary floatEnv op ⟨some (str "1"), OIDInt4⟩ ⟨some (str "2"), OIDInt8⟩ = .ok (boolValue (compareOp op .lt)) :=
  ⟨floatEnv_laws, ((integer_compare_iff floatEnv floatEnv_laws).1 _ _ 1 2 ⟨⟨str "1", rfl, by decide⟩, .inr (.inl rfl)⟩
    ⟨⟨str "2", rfl, by decide⟩, .inr (.inr rfl)⟩).mpr (.inr (by decide))⟩

/-- 9007199254740993 = 9007199254740992 is true. -/
theorem large_integers_equal : FloatLaws floatEnv ∧
    (evalBinary floatEnv (str "=") ⟨some (str "9007199254740993"), OIDInt8⟩
      ⟨some (str "9007199254740992"), OIDInt8⟩).toOption = some (boolValue true) :=
  ⟨floatEnv_laws, by decide +kernel⟩

/-! ## The order of the encodings -/

/-- The order of `sortRows` and of range scans: that of the bytes. -/
def keyOrder (env : Env) (oid : Nat) (a b : Bytes) : ExecM Ordering := do
  let u ← orderEncode env oid a
  let w ← orderEncode env oid b
  .ok (compareSortKey (some u) (some w))

/-- The loop of MIN and MAX in `evalAggregate`, over values that are not NULL. -/
def bestOf (env : Env) (isMin : Bool) (best : Value) (bestKey : Bytes) : List Value → ExecM Value
  | [] => .ok best
  | v :: vs => do
    let k ← orderEncode env v.oid (v.cell.getD [])
    if compareBytes k bestKey = (if isMin then .lt else .gt) then bestOf env isMin v k vs
    else bestOf env isMin best bestKey vs

def minMax (env : Env) (isMin : Bool) : List Value → ExecM Value
  | [] => .ok ⟨none, OIDText⟩
  | v :: vs => do bestOf env isMin v (← orderEncode env v.oid (v.cell.getD [])) vs

/-- The order of the encodings is that of `compare` for every text; for int4 and int8 when the integers are equal or
    have different images in float64; for int2 and numeric when the texts are in the order of the numbers. MIN and
    MAX take the value that comes first and last in it. -/
theorem orders_agree_iff (env : Env) (hlaws : FloatLaws env) (a b : Bytes) :
    keyOrder env OIDText a b = .ok (compareCells env a OIDText b OIDText) ∧
    (keyOrder env OIDNumeric a b = .ok (compareCells env a OIDNumeric b OIDNumeric) ↔
      compareBytes a b = env.compareBig a b) ∧ (∀ i j, parseInt a = some i → parseInt b = some j →
      (∀ oid, oid = OIDInt4 ∨ oid = OIDInt8 →
        (keyOrder env oid a b = .ok (compareCells env a oid b oid) ↔ i = j ∨ float64 i ≠ float64 j)) ∧
      (i.natAbs ≤ 2 ^ 15 → j.natAbs ≤ 2 ^ 15 →
        (keyOrder env OIDInt2 a b = .ok (compareCells env a OIDInt2 b OIDInt2) ↔ compareBytes a b = Ord.compare i j))) ∧
    ∀ oid isMin o, keyOrder env oid b a = .ok o → minMax env isMin [⟨some a, oid⟩, ⟨some b, oid⟩] =
      .ok (if o = (if isMin then .lt else .gt) then ⟨some b, oid⟩ else ⟨some a, oid⟩) := by
  have htext : ∀ oid, oid = OIDText ∨ oid = OIDNumeric ∨ oid = OIDInt2 → keyOrder env oid a b = .ok (compareBytes a b) := by
    intro oid hoid
    have henc : ∀ t, orderEncode env oid t = .ok (encodeOrderedText t) := by
      rcases hoid with rfl | rfl | rfl <;> exact orderEncode_text (by decide) (by decide) (by decide)
    unfold keyOrder
    rw [henc, henc]
    exact congrArg _ (agrees_text a b).compare
  refine ⟨(htext _ (.inl rfl)).trans rfl, ?_, fun i j hi hj => ⟨fun oid hoid => ?_, fun hi' hj' => ?_⟩, fun oid isMin o ho => ?_⟩
  · rw [htext _ (.inr (.inl rfl)), Except.ok.injEq]
    rfl
  · rw [compareCells_int hlaws hi hj (.inr hoid) (.inr hoid), ← compare_float64_iff]
    unfold keyOrder
    rw [orderEncode_int hlaws.toEnvLaws hoid hi, orderEncode_int hlaws.toEnvLaws hoid hj]
    have hkeys := (agrees_int (inInt64_of_parseInt hi) (inInt64_of_parseInt hj)).compare
    change Except.ok (compareBytes _ _) = _ ↔ _
    rw [hkeys, Except.ok.injEq]
    exact eq_comm
  · rw [htext _ (.inr (.inr rfl)), compareCells_int hlaws hi hj (.inl rfl) (.inl rfl), float64_exact (by omega),
      float64_exact (by omega), Except.ok.injEq]
  · obtain ⟨w, hw, ho⟩ := ok_of_bind ho
    obtain ⟨u, hu, ho⟩ := ok_of_bind ho
    cases ho
    simp only [minMax, bestOf, getD_some, hu, hw, bind, Except.bind]
    rw [apply_ite Except.ok]
    rfl

theorem small_integers_sorted : FloatLaws floatEnv ∧ keyOrder floatEnv OIDInt8 (str "-3") (str "20") =
    .ok (compareCells floatEnv (str "-3") OIDInt8 (str "20") OIDInt8) :=
  ⟨floatEnv_laws, (((orders_agree_iff floatEnv floatEnv_laws (str "-3") (str "20")).2.2.1 (-3) 20 (by decide)
    (by decide)).1 OIDInt8 (.inr rfl)).mpr (.inr (by decide))⟩

/-- ORDER BY puts the int2 10 before 9, and tells two int8 apart that `=` does not. -/
theorem sorted_against_compare :
    (keyOrder floatEnv OIDInt2 (str "10") (str "9")).toOption = some .lt ∧
    compareCells floatEnv (str "10") OIDInt2 (str "9") OIDInt2 = .gt ∧
    (keyOrder floatEnv OIDInt8 (str "9007199254740993") (str "9007199254740992")).toOption = some .gt ∧
    compareCells floatEnv (str "9007199254740993") OIDInt8 (str "9007199254740992") OIDInt8 = .eq := by
  decide +kernel

end BasuyuDb.Executor
