import BasuyuDb.Executor.AdvancedDml
import BasuyuDb.Executor.Execute

/-
  engine/internal/executor/join.go (materializeGenerateSeries, nestedLoopJoin, joinMatch): rows of the FROM clause.
  The variable of generate_series wraps around at the ends of int64, so that the loop goes on exactly when the value
  past the end of the series is no int64 (`generate_series_iff`). A join of any type has the rows of the relational
  one, in another order (`nested_loop_join`).
-/

namespace BasuyuDb.Executor
open KvLib List

/-! ## generate_series -/

/-- The condition of the two loops. -/
def within (stop step v : Int) : Bool := if 0 < step then v ≤ stop else stop ≤ v

/-- The two loops, `none` while they run. -/
def seriesLoop (stop step : Int) : Nat → Int → Option (List Int)
  | 0, _ => none
  | fuel + 1, v => if within stop step v then (seriesLoop stop step fuel (wrap64 (v + step))).map (v :: ·) else some []

def seriesRow (v : Int) : Data := [some (formatInt v)]

/-- The loop of `strconv.ParseUint` over the digits behind the value `n`; it ends where the value leaves uint64. -/
def parseDigits : Nat → Bytes → Option Nat
  | n, [] => some n
  | n, b :: s =>
    if 48 ≤ b.val && b.val ≤ 57 then
      if 10 * n + (b.val - 48) < 2 ^ 64 then parseDigits (10 * n + (b.val - 48)) s else some (2 ^ 64 - 1)
    else none

/-- What `strconv.ParseInt` returns beside its error: 0 for a text that is no number, the nearest int64 for one out of
range. -/
def parseIntValue (s : Bytes) : Int :=
  let un (ds : Bytes) : Int := (parseDigits 0 ds).getD 0
  match s with
  | 45 :: ds => max (-2 ^ 63) (-un ds)
  | 43 :: ds => min (2 ^ 63 - 1) (un ds)
  | _ => min (2 ^ 63 - 1) (un s)

/-- `materializeGenerateSeries` on the values of its arguments. -/
def materializeGenerateSeries (fuel : Nat) (fname : Bytes) (args : List Value) : ExecM (Option (List Data)) :=
  if fname ≠ str "generate_series" then .error ⟨"0A000", "set-returning function %q not supported in FROM", [fname]⟩
  else
    match args with
    | start :: stop :: rest =>
      let step := ((rest.head?.bind Value.cell).bind parseInt).getD 1
      if step = 0 then .error ⟨"22023", "generate_series step cannot be zero", []⟩
      else
        let out := seriesLoop (parseIntValue (stop.cell.getD [])) step fuel (parseIntValue (start.cell.getD []))
        .ok (out.map (·.map seriesRow))
    | _ => .error ⟨"42883", "generate_series requires at least 2 arguments", []⟩

/-- The values start + k * step up to `stop`, in their order. -/
def Progression (start stop step : Int) (rows : List Data) : Prop :=
  ∀ k : Nat, rows[k]? = if within stop step (start + k * step) then some (seriesRow (start + k * step)) else none

section series
variable {stop step v : Int} {out : List Int} {fuel : Nat}

theorem within_iff : within stop step v = true ↔ (0 < step → v ≤ stop) ∧ (step ≤ 0 → stop ≤ v) := by
  unfold within
  split <;> simp <;> omega

theorem within_down (k : Nat) (h : within stop step (v + k * step) = true) : within stop step v = true := by
  rw [within_iff] at h ⊢
  refine ⟨fun hs => ?_, fun hs => ?_⟩
  · have := Int.mul_nonneg (Int.natCast_nonneg k) hs.le
    linarith [h.1 hs]
  · have := mul_nonpos_of_nonneg_of_nonpos (Int.natCast_nonneg k) hs
    linarith [h.2 hs]

theorem step_succ (k : Nat) : v + ((k + 1 : Nat) : Int) * step = v + step + k * step := by
  push_cast
  ring

theorem seriesLoop_within (h : seriesLoop stop step fuel v = some out) (hv : within stop step v = true) :
    ∃ n rest, seriesLoop stop step n (wrap64 (v + step)) = some rest ∧ out = v :: rest := by
  cases fuel with
  | zero => cases h
  | succ n =>
    rw [seriesLoop, if_pos hv] at h
    obtain ⟨rest, hrest, rfl⟩ := Option.map_eq_some_iff.mp h
    exact ⟨n, rest, hrest, rfl⟩

theorem inInt64_iff {i : Int} : inInt64 i = true ↔ -(2 : Int) ^ 63 ≤ i ∧ i < 2 ^ 63 := by
  simp [inInt64]

theorem le_foldl_digits (n : Nat) (s : Bytes) : n ≤ s.foldl (fun n b => 10 * n + (b.val - 48)) n := by
  induction s generalizing n with
  | nil => exact le_rfl
  | cons b s ih => exact le_trans (show n ≤ 10 * n + (b.val - 48) by omega) (ih _)

theorem parseDigits_eq {s : Bytes} (h : s.all (fun b => 48 ≤ b.val && b.val ≤ 57) = true) {n : Nat}
    (hlt : s.foldl (fun n b => 10 * n + (b.val - 48)) n < 2 ^ 64) :
    parseDigits n s = some (s.foldl (fun n b => 10 * n + (b.val - 48)) n) := by
  induction s generalizing n with
  | nil => rfl
  | cons b s ih =>
    rw [all_cons, Bool.and_eq_true] at h
    rw [parseDigits, if_pos h.1, if_pos ((le_foldl_digits _ s).trans_lt hlt), ih h.2 hlt]
    rfl

theorem parseIntValue_eq {s : Bytes} {i : Int} (h : parseInt s = some i) : parseIntValue s = i := by
  have hun : ∀ {ds : Bytes} {n : Nat}, parseNat ds = some n → n < 2 ^ 64 → (parseDigits 0 ds).getD 0 = n := by
    intro ds n hn hlt
    obtain ⟨⟨-, hall⟩, hval⟩ := Option.ite_none_right_eq_some.mp hn
    cases hval
    rw [parseDigits_eq hall hlt, Option.getD_some]
  obtain ⟨hs, hi⟩ := Option.filter_eq_some_iff.mp h
  rw [inInt64_iff] at hi
  unfold parseIntValue
  split at hs <;>
    (obtain ⟨n, hn, rfl⟩ := Option.map_eq_some_iff.mp hs; simp only [hun hn (by omega)]; omega)

/-- Past the end of int64 the loop is within the series again. -/
theorem within_wrapped (hv : within stop step v = true) (hstop : inInt64 stop = true) (hint : inInt64 v = true)
    (hstep : inInt64 step = true) (hout : ¬ inInt64 (v + step) = true) :
    within stop step (wrap64 (v + step)) = true ∧ ¬ within stop step (v + step) = true := by
  simp only [within_iff, inInt64_iff, wrap64, Int.bmod_def] at *
  split <;> omega

theorem progression_next (hstop : inInt64 stop = true) (hstep : inInt64 step = true) (hv : inInt64 v = true)
    (hrun : seriesLoop stop step fuel v = some out) (hout : Progression v stop step (out.map seriesRow)) (hw : within stop step v = true) :
    inInt64 (v + step) = true ∧ ∃ n rest, seriesLoop stop step n (v + step) = some rest ∧
      Progression (v + step) stop step (rest.map seriesRow) := by
  obtain ⟨n, rest, hrest, rfl⟩ := seriesLoop_within hrun hw
  have hnext : inInt64 (v + step) = true := by
    by_contra hno
    obtain ⟨hin, hpast⟩ := within_wrapped hw hstop hv hstep hno
    obtain ⟨-, _, -, rfl⟩ := seriesLoop_within hrest hin
    have hone := hout 1
    rw [Nat.cast_one, one_mul, if_neg hpast] at hone
    cases hone
  rw [wrap64_of_inInt64 hnext] at hrest
  refine ⟨hnext, n, rest, hrest, fun k => ?_⟩
  rw [← step_succ]
  exact hout (k + 1)

theorem int64_of_progression (hstop : inInt64 stop = true) (hstep : inInt64 step = true) (hv : inInt64 v = true)
    (hrun : seriesLoop stop step fuel v = some out) (hout : Progression v stop step (out.map seriesRow)) (k : Nat)
    (hk : within stop step (v + k * step) = true) : inInt64 (v + k * step + step) = true := by
  obtain ⟨hnext, n, rest, hrest, hprog⟩ := progression_next hstop hstep hv hrun hout (within_down k hk)
  induction k generalizing v n rest out fuel with
  | zero => simpa using hnext
  | succ k ih =>
    rw [step_succ] at hk ⊢
    obtain ⟨hnext', n', rest', hrest', hprog'⟩ := progression_next hstop hstep hnext hrest hprog (within_down k hk)
    exact ih hnext hrest hprog hk hnext' n' rest' hrest' hprog'

theorem progression_of_int64 (hstep : step ≠ 0) (m : Nat) (hup : 0 < step → stop - v < m) (hdown : step < 0 → v - stop < m)
    (hint : ∀ k : Nat, within stop step (v + k * step) = true → inInt64 (v + k * step + step) = true) :
    ∃ out, seriesLoop stop step (m + 1) v = some out ∧ Progression v stop step (out.map seriesRow) := by
  induction m generalizing v with
  | zero =>
    have hw : ¬ within stop step v = true := by
      rw [within_iff]
      omega
    exact ⟨[], if_neg hw, fun k => (if_neg fun h => hw (within_down k h)).symm⟩
  | succ m ih =>
    by_cases hw : within stop step v = true
    · have hnext : inInt64 (v + step) = true := by simpa using hint 0 (by simpa using hw)
      obtain ⟨out, hrun, hout⟩ := ih (v := v + step) (by omega) (by omega) fun k hk => by
        rw [← step_succ] at hk ⊢
        exact hint (k + 1) hk
      refine ⟨v :: out, ?_, fun k => ?_⟩
      · rw [seriesLoop, if_pos hw, wrap64_of_inInt64 hnext, hrun]
        rfl
      · cases k with
        | zero => simp [hw]
        | succ k =>
          rw [step_succ]
          exact hout k
    · exact ⟨[], if_neg hw, fun k => (if_neg fun h => hw (within_down k h)).symm⟩

end series

/-- generate_series returns the exact progression if and only if the value behind each of its values is an int64. -/
theorem generate_series_iff (start stop step : Int) (hstart : inInt64 start = true) (hstop : inInt64 stop = true)
    (hstep : inInt64 step = true) (hne : step ≠ 0) (oid : Nat) :
    (∃ fuel rows, materializeGenerateSeries fuel (str "generate_series")
        [⟨some (formatInt start), oid⟩, ⟨some (formatInt stop), oid⟩, ⟨some (formatInt step), oid⟩] = .ok (some rows) ∧
      Progression start stop step rows) ↔
    ∀ k : Nat, within stop step (start + k * step) = true → inInt64 (start + k * step + step) = true := by
  have hread : ∀ i, inInt64 i = true → parseIntValue (formatInt i) = i := fun i hi => parseIntValue_eq (parseInt_formatInt hi)
  simp only [materializeGenerateSeries, ne_eq, not_true, if_false, List.head?_cons, Option.bind_some, parseInt_formatInt hstep,
    Option.getD_some, hne, hread, hstart, hstop, Except.ok.injEq, Option.map_eq_some_iff]
  constructor
  · rintro ⟨fuel, _, ⟨out, hrun, rfl⟩, hout⟩ k
    exact int64_of_progression hstop hstep hstart hrun hout k
  · intro hint
    obtain ⟨out, hrun, hout⟩ := progression_of_int64 hne ((stop - start).toNat + (start - stop).toNat + 1) (by omega)
      (by omega) hint
    exact ⟨_, _, ⟨out, hrun, rfl⟩, hout⟩

/-- generate_series(1, 3, 1). -/
theorem generate_series_three : ∃ fuel rows, materializeGenerateSeries fuel (str "generate_series")
    [⟨some (formatInt 1), OIDInt8⟩, ⟨some (formatInt 3), OIDInt8⟩, ⟨some (formatInt 1), OIDInt8⟩] = .ok (some rows) ∧
      Progression 1 3 1 rows := by
  refine (generate_series_iff 1 3 1 (by decide) (by decide) (by decide) (by decide) OIDInt8).mpr fun k hk => ?_
  rw [within_iff] at hk
  rw [inInt64_iff]
  omega

/-- generate_series(5000000000000000000, 5000000000000000000, 7000000000000000000) has three values. -/
theorem generate_series_wraps : (materializeGenerateSeries 5 (str "generate_series")
    [⟨some (str "5000000000000000000"), OIDInt8⟩, ⟨some (str "5000000000000000000"), OIDInt8⟩,
      ⟨some (str "7000000000000000000"), OIDInt8⟩]).toOption =
    some (some [[some (str "5000000000000000000")], [some (str "-6446744073709551616")], [some (str "553255926290448384")]]) := by
  decide +kernel

/-! ## Joins -/

inductive JoinType where
  | inner | left | right | full | cross
deriving DecidableEq

structure JoinExpr where
  joinType : JoinType
  usingCols : List Bytes
  quals : Option Expr

/-- The bindings of a template, NULL in every column. -/
def nullFill (tmpl : List Binding) : List Binding := tmpl.map fun b => { b with cells := b.schema.cols.map fun _ => none }

section joins
variable (env : Env) (j : JoinExpr) (params : Data)

def usingEqual (row : List Binding) : List Bytes → ExecM Bool
  | [] => .ok true
  | col :: cols =>
    match row.filterMap (fun b => (b.schema.colIndex env col).map b.cellValue) with
    | v :: w :: _ => if v.cell = none ∨ w.cell = none ∨ v.cell ≠ w.cell then .ok false else usingEqual row cols
    | _ => .error ⟨"42703", "USING column %q not present on both sides", [col]⟩

def joinMatch (row : List Binding) (site : Site) : ExecM Bool :=
  if j.joinType = .cross then .ok true
  else if j.usingCols ≠ [] then do
    j.usingCols.forM fun col => discard (combinedResolver env row [col])
    usingEqual env row j.usingCols
  else joinHolds env j.quals params row site

/-- The inner loop: the rows that match. -/
def matchLoop {β : Type} (on : β → ExecM Bool) : List β → ExecM (List β)
  | [] => .ok []
  | r :: rs => do
    let ok ← on r
    let rest ← matchLoop on rs
    .ok (if ok then r :: rest else rest)

/-- The outer loop: its rows, each with those it matches. -/
def driveLoop {α β : Type} (on : α → β → ExecM Bool) (inner : List β) :
    List α → ExecM (List (α × List β))
  | [] => .ok []
  | d :: ds => do
    let found ← matchLoop (on d) inner
    let rest ← driveLoop on inner ds
    .ok ((d, found) :: rest)

/-- The evaluation of the predicate on the pair of rows at two positions. -/
def pairSite (site : Site) (i k : Nat) : Site := (Site.r^[k] (Site.r^[i] site).l).l

/-- `nestedLoopJoin`, over the rows with their positions. -/
def nestedLoopJoin (site : Site) (left right : List (List Binding)) (leftTmpl rightTmpl : List Binding) :
    ExecM (List (List Binding)) :=
  let on (l r : List Binding × Nat) := joinMatch env j params (l.1 ++ r.1) (pairSite site l.2 r.2)
  if j.joinType = .right then do
    let driven ← driveLoop (fun r l => on l r) left.zipIdx right.zipIdx
    .ok (driven.flatMap fun d => if d.2.isEmpty then [nullFill leftTmpl ++ d.1.1] else d.2.map (·.1 ++ d.1.1))
  else do
    let driven ← driveLoop on right.zipIdx left.zipIdx
    let out := driven.flatMap fun d =>
      if d.2.isEmpty then if j.joinType = .left ∨ j.joinType = .full then [d.1.1 ++ nullFill rightTmpl] else []
      else d.2.map (d.1.1 ++ ·.1)
    let matchedRight := driven.flatMap (·.2.map Prod.snd)
    .ok (if j.joinType = .full then out ++ (right.zipIdx.filter (·.2 ∉ matchedRight)).map (nullFill leftTmpl ++ ·.1)
      else out)

/-- The value of the ON predicate on a row, where its evaluation does not fail; CROSS JOIN has none. -/
def OnValue (row : List Binding) (site : Site) (b : Bool) : Prop :=
  if j.joinType = .cross ∨ j.quals = none then b = true
  else ∃ q v, j.quals = some q ∧ q.eval env ⟨params, combinedResolver env row, none⟩ site = .ok v ∧ asBool v = b

/-- The rows of a join: the pairs for which the predicate is true, and those without a match extended by NULLs. -/
def joinRows (on : List Binding × Nat → List Binding × Nat → Bool) (left right : List (List Binding))
    (leftTmpl rightTmpl : List Binding) : List (List Binding) :=
  left.zipIdx.flatMap (fun l => (right.zipIdx.filter (on l)).map (l.1 ++ ·.1)) ++
  ((if j.joinType = .left ∨ j.joinType = .full then
    (left.zipIdx.filter fun l => !right.zipIdx.any (on l)).map (·.1 ++ nullFill rightTmpl) else []) ++
  if j.joinType = .right ∨ j.joinType = .full then
    (right.zipIdx.filter fun r => !left.zipIdx.any (on · r)).map (nullFill leftTmpl ++ ·.1) else [])

end joins

section loops
variable {α β γ : Type}

theorem matchLoop_ok {on : β → ExecM Bool} {p : β → Bool} {rs : List β} (h : ∀ r ∈ rs, on r = .ok (p r)) :
    matchLoop on rs = .ok (rs.filter p) := by
  induction rs with
  | nil => rfl
  | cons r rs ih =>
    rw [matchLoop, h r mem_cons_self, ih fun x hx => h x (.tail _ hx), filter_cons]
    rfl

theorem driveLoop_ok {on : α → β → ExecM Bool} {p : α → β → Bool} {inner : List β} {ds : List α}
    (h : ∀ d ∈ ds, ∀ r ∈ inner, on d r = .ok (p d r)) :
    driveLoop on inner ds = .ok (ds.map fun d => (d, inner.filter (p d))) := by
  induction ds with
  | nil => rfl
  | cons d ds ih =>
    rw [driveLoop, matchLoop_ok (h d mem_cons_self), ih fun x hx => h x (.tail _ hx)]
    rfl

theorem isEmpty_filter {p : β → Bool} (rs : List β) : (rs.filter p).isEmpty = !rs.any p := by
  rw [Bool.eq_iff_iff, List.isEmpty_iff, filter_eq_nil_iff, Bool.not_eq_true', any_eq_false]

/-- The rows with a match come first, in another order. -/
theorem driven_perm (p : α → β → Bool) (inner : List β) (f : α → β → γ) (g : α → List γ) (ds : List α) :
    (ds.flatMap fun d => if (inner.filter (p d)).isEmpty then g d else (inner.filter (p d)).map (f d)) ~
      ds.flatMap (fun d => (inner.filter (p d)).map (f d)) ++ (ds.filter fun d => !inner.any (p d)).flatMap g := by
  induction ds with
  | nil => exact .refl _
  | cons d ds ih =>
    simp only [flatMap_cons, filter_cons, isEmpty_filter] at ih ⊢
    cases h : inner.any (p d) with
    | true => exact (ih.append_left _).trans (.of_eq (append_assoc ..).symm)
    | false =>
      have hnil : inner.filter (p d) = [] := by
        rw [← List.isEmpty_iff, isEmpty_filter, h]
        rfl
      simp only [hnil, map_nil, nil_append, Bool.not_false, if_true, flatMap_cons]
      exact (ih.append_left _).trans (perm_append_comm_assoc ..)

theorem pairs_swap (p : α → β → Bool) (f : α → β → γ) (ls : List α) (rs : List β) :
    rs.flatMap (fun r => (ls.filter (p · r)).map (f · r)) ~ ls.flatMap (fun l => (rs.filter (p l)).map (f l)) := by
  have hone : ∀ l, (rs.filter (p l)).map (f l) = rs.flatMap fun r => if p l r then [f l r] else [] := by
    intro l
    induction rs with
    | nil => rfl
    | cons r rs ih => cases h : p l r <;> simp [h, ih]
  induction ls with
  | nil => simp
  | cons l ls ih =>
    rw [flatMap_cons, hone l]
    refine .trans (.of_eq ?_) ((flatMap_append_perm rs _ _).symm.trans (ih.append_left _))
    refine flatMap_congr fun r _ => ?_
    cases h : p l r <;> simp [h]

end loops

theorem OnValue.joinMatch {env : Env} {j : JoinExpr} {params : Data} {row : List Binding} {site : Site} {b : Bool}
    (h : OnValue env j params row site b) (hj : j.usingCols = []) : joinMatch env j params row site = .ok b := by
  unfold OnValue at h
  unfold Executor.joinMatch joinHolds
  rw [if_neg (not_not.mpr hj)]
  split at h
  · rename_i hnone
    rcases hnone with hnone | hnone <;> simp [hnone, h]
  · rename_i hon
    obtain ⟨q, v, hq, hv, rfl⟩ := h
    rw [if_neg (not_or.mp hon).1, hq]
    simp only [hv, bind, Except.bind]

/-- A join by an ON predicate whose evaluation does not fail returns the rows of the relational join, each as often. -/
theorem nested_loop_join (env : Env) (j : JoinExpr) (params : Data) (site : Site) (left right : List (List Binding))
    (leftTmpl rightTmpl : List Binding) (on : List Binding × Nat → List Binding × Nat → Bool) (hj : j.usingCols = [])
    (hon : ∀ l ∈ left.zipIdx, ∀ r ∈ right.zipIdx, OnValue env j params (l.1 ++ r.1) (pairSite site l.2 r.2) (on l r)) :
    ∃ out, nestedLoopJoin env j params site left right leftTmpl rightTmpl = .ok out ∧
      out ~ joinRows j on left right leftTmpl rightTmpl := by
  have hmatch := fun l hl r hr => (hon l hl r hr).joinMatch hj
  unfold nestedLoopJoin joinRows
  by_cases hright : j.joinType = .right
  · simp only [hright, if_true, reduceCtorEq, or_false, if_false, nil_append]
    rw [driveLoop_ok (p := fun r l => on l r) fun r hr l hl => hmatch l hl r hr]
    refine ⟨_, rfl, ?_⟩
    rw [flatMap_map]
    refine (driven_perm (fun r l => on l r) _ (fun r l => l.1 ++ r.1) _ _).trans (.append (pairs_swap ..) (.of_eq ?_))
    exact map_eq_flatMap.symm
  · simp only [hright, if_false, false_or]
    rw [driveLoop_ok hmatch]
    refine ⟨_, rfl, ?_⟩
    rw [flatMap_map, flatMap_map, ← append_assoc]
    have hleft := driven_perm on right.zipIdx (fun l r => l.1 ++ r.1)
      (fun l => if j.joinType = .left ∨ j.joinType = .full then [l.1 ++ nullFill rightTmpl] else []) left.zipIdx
    have hfill : ∀ ls : List (List Binding × Nat), (ls.flatMap fun l =>
        if j.joinType = .left ∨ j.joinType = .full then [l.1 ++ nullFill rightTmpl] else []) =
          if j.joinType = .left ∨ j.joinType = .full then ls.map (·.1 ++ nullFill rightTmpl) else [] := by
      intro ls
      split
      · exact map_eq_flatMap.symm
      · simp
    rw [hfill] at hleft
    by_cases hfull : j.joinType = .full
    · rw [if_pos hfull, if_pos hfull]
      refine hleft.append (.of_eq (congrArg _ (filter_congr fun r hr => ?_)))
      rw [Bool.eq_iff_iff, decide_eq_true_eq, Bool.not_eq_true', any_eq_false]
      simp only [mem_flatMap, mem_map, mem_filter, not_exists, not_and]
      -- a position has one row
      refine ⟨fun h l hl hlr => h l hl r ⟨hr, hlr⟩ rfl, fun h l hl r' hr' hpos => h l hl ?_⟩
      obtain rfl : r' = r := Prod.ext (Option.some.inj ((mem_zipIdx_iff_getElem?.mp hr'.1).symm.trans
        (hpos ▸ mem_zipIdx_iff_getElem?.mp hr))) hpos
      exact hr'.2
    · rw [if_neg hfull, if_neg hfull, append_nil]
      exact hleft

/-- A row t(id, v) under a name. -/
def namedRow (name : Bytes) (cells : Data) : List Binding := [⟨name, demoSchema, cells⟩]

/-- l FULL JOIN r ON l.id = r.id, of rows 1 and 2 with row 2. -/
theorem full_join_two : ∃ out, nestedLoopJoin demoEnv
    ⟨.full, [], some (.binary (str "=") (.column [str "l", str "id"]) (.column [str "r", str "id"]))⟩ [] (.root 0)
      [namedRow (str "l") [some (str "1"), none], namedRow (str "l") [some (str "2"), none]]
      [namedRow (str "r") [some (str "2"), none]] (namedRow (str "l") []) (namedRow (str "r") []) = .ok out ∧
    out ~ [namedRow (str "l") [some (str "2"), none] ++ namedRow (str "r") [some (str "2"), none],
      namedRow (str "l") [some (str "1"), none] ++ namedRow (str "r") [none, none]] := by
  refine nested_loop_join demoEnv _ _ _ _ _ _ _ (fun l _ => l.2 = 1) rfl fun l hl r hr => ?_
  simp only [zipIdx_cons, zipIdx_nil, mem_cons, not_mem_nil, or_false] at hl hr
  subst hr
  rcases hl with rfl | rfl
  · exact ⟨_, boolValue false, rfl, rfl, rfl⟩
  · exact ⟨_, boolValue true, rfl, rfl, rfl⟩

end BasuyuDb.Executor
