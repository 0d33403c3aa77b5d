import BasuyuDb.Executor.Orders
import BasuyuDb.Executor.Truth

/-
  engine/internal/executor/eval_ext.go (compareRows), setop.go (compareDatum, sortResultRows), window.go
  (compareOrderKeys): comparisons of rows in memory. `compareRows` passes over a pair with a NULL, where an order of
  SQL is unknown (`row_compare_iff`). `compareDatum` compares as numbers when both texts are, so 10, 1a and 9 are each
  before the next, and 9 is before 10 (`memory_order_iff`).
-/

namespace BasuyuDb.Executor
open KvLib List

variable {env : Env}

/-! ## Rows -/

/-- The order of two elements, unknown with a NULL. -/
def elementOrder (x y : Option SqlValue) : Option Ordering := x.bind fun a => y.bind a.order

/-- The order of the first pair that is not equal. -/
def sqlOrder : List (Option Ordering) → Option Ordering
  | [] => some .eq
  | some .eq :: os => sqlOrder os
  | o :: _ => o

/-- The conjunction of the equalities. -/
def sqlEqual (os : List (Option Ordering)) : Truth := Truth.all (os.map (·.map (compareOp (str "="))))

/-- SQL's comparison of two rows, by the orders of their elements. -/
def sqlRow (op : Bytes) (os : List (Option Ordering)) : Truth :=
  if op = str "=" then sqlEqual os
  else if op = str "<>" ∨ op = str "!=" then (sqlEqual os).not
  else (sqlOrder os).map (compareOp op)

/-- Integers that are exact as float64, or texts, or NULL, in the order `o`. -/
def Elements (p : Value × Value) (o : Option Ordering) : Prop :=
  ∃ x y, Represents p.1 x ∧ Represents p.2 y ∧ ExactValue x ∧ ExactValue y ∧ (∀ a ∈ x, ∀ b ∈ y, a.sameKind b) ∧
    o = elementOrder x y

/-- The order of the first known pair that is not equal. -/
def decided : List (Option Ordering) → Ordering
  | [] => .eq
  | none :: os => decided os
  | some c :: os => c.then (decided os)

section rows
variable {v w : Value} {vs ws : List Value} {o : Option Ordering} {os : List (Option Ordering)}

theorem Elements.cells (hlaws : EnvLaws env) (h : Elements (v, w) o) : (o = none ∧ (v.cell = none ∨ w.cell = none)) ∨
    ∃ t u, v.cell = some t ∧ w.cell = some u ∧ o = some (compareCmp env t v.oid u w.oid) := by
  obtain ⟨x, y, hx, hy, hex, hey, hkind, rfl⟩ := h
  cases x with
  | none => exact .inl ⟨rfl, .inl hx⟩
  | some a =>
    cases y with
    | none => exact .inl ⟨rfl, .inr hy⟩
    | some b =>
      obtain ⟨t, ht⟩ := hx.cell
      obtain ⟨u, hu⟩ := hy.cell
      refine .inr ⟨t, u, ht, hu, ?_⟩
      rw [compareCmp_eq]
      exact compareCells_order hlaws hx hy hex hey (hkind a rfl b rfl) ht hu

theorem compareRows_decided (hlaws : EnvLaws env) (op : Bytes) (hlen : vs.length = ws.length)
    (hrow : List.Forall₂ Elements (vs.zip ws) os) (sawNull : Bool) : compareRows env op sawNull vs ws =
      if (sawNull = true ∨ none ∈ os) ∧ (op = str "=" ∨ op = str "<>" ∨ op = str "!=") ∧ decided os = .eq then nullBool
      else boolValue (compareOp op (decided os)) := by
  induction vs generalizing ws os sawNull with
  | nil =>
    obtain rfl := length_eq_zero_iff.mp hlen.symm
    cases hrow
    simp [compareRows, decided, or_assoc]
  | cons v vs ih =>
    cases ws with
    | nil => cases hlen
    | cons w ws =>
      obtain _ | ⟨h, hrow⟩ := hrow
      have ih := ih (Nat.succ.inj hlen) hrow
      rcases h.cells hlaws with ⟨rfl, hnull⟩ | ⟨t, u, ht, hu, rfl⟩
      · have hstep : compareRows env op sawNull (v :: vs) (w :: ws) = compareRows env op true vs ws := by
          rw [compareRows]
          rcases hnull with hnull | hnull
          · rw [hnull]
          · rw [hnull]
            cases v.cell <;> rfl
        rw [hstep, ih]
        simp [decided]
      · rw [compareRows, ht, hu]
        dsimp only
        cases compareCmp env t v.oid u w.oid with
        | eq =>
          refine (ih sawNull).trans ?_
          simp [decided]
        | lt | gt => simp [decided]

theorem sqlEqual_iff : (sqlEqual os = some true ↔ none ∉ os ∧ decided os = .eq) ∧
    (sqlEqual os = some false ↔ decided os ≠ .eq) := by
  have hop : compareOp (str "=") .lt = false ∧ compareOp (str "=") .eq = true ∧ compareOp (str "=") .gt = false := by decide
  induction os with
  | nil => simp [sqlEqual, Truth.all, decided]
  | cons o os ih =>
    rw [sqlEqual, map_cons, Truth.all_cons, ← sqlEqual, Truth.and_eq_true, Truth.and_eq_false, ih.1, ih.2]
    rcases o with _ | _ | _ | _ <;> simp [decided, hop]

theorem sqlOrder_decided {c : Ordering} (h : sqlOrder os = some c) : decided os = c := by
  induction os with
  | nil => exact Option.some.inj h
  | cons o os ih =>
    rcases o with _ | _ | _ | _
    · cases h
    · exact Option.some.inj h
    · exact ih h
    · exact Option.some.inj h

end rows

/-- A comparison of rows by = or <> is TRUE exactly when that of SQL is. All comparisons are if and only if the first
    pair that is not equal has no NULL. -/
theorem row_compare_iff (env : Env) (hlaws : EnvLaws env) (vs ws : List Value) (os : List (Option Ordering))
    (hlen : vs.length = ws.length) (hrow : List.Forall₂ Elements (vs.zip ws) os) :
    (∀ op, op = str "=" ∨ op = str "<>" ∨ op = str "!=" →
      (compareRows env op false vs ws = boolValue true ↔ sqlRow op os = some true)) ∧
    ((∀ op, isComparison op = true → (compareRows env op false vs ws = boolValue true ↔ sqlRow op os = some true)) ↔
      sqlOrder os ≠ none) := by
  have hvalue := fun op => compareRows_decided hlaws op hlen hrow false
  have hequal : ∀ op, op = str "=" ∨ op = str "<>" ∨ op = str "!=" →
      (compareRows env op false vs ws = boolValue true ↔ sqlRow op os = some true) := by
    intro op hop
    have hfalse : boolValue false ≠ boolValue true ∧ nullBool ≠ boolValue true := by decide
    rw [hvalue, if_congr (and_congr_right' (and_iff_right hop)) rfl rfl]
    rcases hop with rfl | hop
    · have hop : ∀ c, compareOp (str "=") c = decide (c = .eq) := by decide
      rw [show sqlRow (str "=") os = sqlEqual os from rfl, sqlEqual_iff.1, hop]
      by_cases hd : decided os = .eq <;> by_cases hn : none ∈ os <;> simp [hd, hn, hfalse]
    · have hsql : sqlRow op os = (sqlEqual os).not := by
        rcases hop with rfl | rfl <;> rfl
      have hop : ∀ c, compareOp op c = decide (c ≠ .eq) := by
        rcases hop with rfl | rfl <;> decide
      rw [hsql, Truth.not_eq_true, sqlEqual_iff.2, hop]
      by_cases hd : decided os = .eq <;> by_cases hn : none ∈ os <;> simp [hd, hn, hfalse]
  have hrest : ∀ op, ¬(op = str "=" ∨ op = str "<>" ∨ op = str "!=") →
      compareRows env op false vs ws = boolValue (compareOp op (decided os)) ∧ sqlRow op os = (sqlOrder os).map (compareOp op) := by
    intro op hop
    refine ⟨(hvalue op).trans (if_neg fun h => hop h.2.1), ?_⟩
    exact (if_neg fun h => hop (.inl h)).trans (if_neg fun h => hop (.inr h))
  refine ⟨hequal, fun h hnone => ?_, fun h op _ => ?_⟩
  · -- one of the orders is true of the pair that decides
    obtain ⟨op, hop, hne, htrue⟩ : ∃ op, isComparison op = true ∧ ¬(op = str "=" ∨ op = str "<>" ∨ op = str "!=") ∧
        compareOp op (decided os) = true := by
      cases decided os with
      | lt => exact ⟨str "<", by decide⟩
      | eq => exact ⟨str "<=", by decide⟩
      | gt => exact ⟨str ">", by decide⟩
    have hsql := (h op hop).mp ((hrest op hne).1.trans (congrArg boolValue htrue))
    rw [(hrest op hne).2, hnone] at hsql
    cases hsql
  · by_cases hop : op = str "=" ∨ op = str "<>" ∨ op = str "!="
    · exact hequal op hop
    · obtain ⟨c, hc⟩ := Option.ne_none_iff_exists'.mp h
      rw [(hrest op hop).1, (hrest op hop).2, hc, sqlOrder_decided hc, Option.map_some, Option.some.injEq]
      exact ⟨boolValue_inj, congrArg _⟩

/-- (1, NULL) < (2, 'a') is TRUE. -/
theorem decided_rows : EnvLaws demoEnv ∧
    compareRows demoEnv (str "<") false [⟨some (str "1"), OIDInt4⟩, ⟨none, OIDText⟩]
      [⟨some (str "2"), OIDInt4⟩, ⟨some (str "a"), OIDText⟩] = boolValue true := by
  refine ⟨demoEnv_laws, ((row_compare_iff demoEnv demoEnv_laws _ _ [some .lt, none] (by rfl) (.cons ?_ (.cons ?_ .nil))).2.mpr
    nofun (str "<") (by decide)).mpr (by decide)⟩
  · exact ⟨some (.int 1), some (.int 2), ⟨.inr (.inl rfl), str "1", rfl, by decide⟩, ⟨.inr (.inl rfl), str "2", rfl, by decide⟩,
      by rintro i ⟨⟩; decide, by rintro i ⟨⟩; decide, by rintro a ⟨⟩ b ⟨⟩; trivial, rfl⟩
  · exact ⟨none, some (.text (str "a")), rfl, ⟨rfl, rfl⟩, nofun, nofun, nofun, rfl⟩

/-- (NULL, 1) < (5, 2) is TRUE too, where SQL does not know. -/
theorem null_pair_passed : compareRows demoEnv (str "<") false [⟨none, OIDInt4⟩, ⟨some (str "1"), OIDInt4⟩]
      [⟨some (str "5"), OIDInt4⟩, ⟨some (str "2"), OIDInt4⟩] = boolValue true ∧
    sqlRow (str "<") [elementOrder none (some (.int 5)), elementOrder (some (.int 1)) (some (.int 2))] = none := by
  decide +kernel

/-! ## Cells -/

section cells
variable (env) (float : Bytes → Bool)

/-- `compareDatum`; `float` says which texts `strconv.ParseFloat` reads. -/
def compareDatum : Datum → Datum → Ordering
  | none, none => .eq
  | none, some _ => .gt
  | some _, none => .lt
  | some a, some b => if float a && float b then env.compareFloat a b else compareBytes a b

/-- `compareOrderKeys`, and the comparison of `sortResultRows`, over the values of the keys. -/
def compareOrderKeys : List Bool → Data → Data → Ordering
  | desc :: dirs, a :: as, b :: bs =>
    (if desc then (compareDatum env float a b).swap else compareDatum env float a b).then (compareOrderKeys dirs as bs)
  | _, _, _ => .eq

/-- The numbers are ordered, and two of them with another text in between are in the order of the texts. -/
structure Consistent (S : Set Datum) : Prop where
  numbers : ∀ a b c, some a ∈ S → some b ∈ S → some c ∈ S → float a = true → float b = true → float c = true →
    env.compareFloat a b ≠ .gt → env.compareFloat b c ≠ .gt → env.compareFloat a c ≠ .gt
  texts : ∀ a t c, some a ∈ S → some t ∈ S → some c ∈ S → float a = true → float t = false → float c = true →
    a < t → t < c → env.compareFloat a c = .lt

end cells

/-- A comparison that is an order on the values in `P`, up to values that compare as equal. -/
structure OrderedOn {α : Type} (P : α → Prop) (cmp : α → α → Ordering) : Prop where
  swap : ∀ a b, cmp b a = (cmp a b).swap
  trans : ∀ a b c, P a → P b → P c → cmp a b ≠ .gt → cmp b c ≠ .gt → cmp a c ≠ .gt

section ordered
variable {α : Type} {P : α → Prop} {cmp : α → α → Ordering} {float : Bytes → Bool} {S : Set Datum}

theorem OrderedOn.pairwise (h : OrderedOn P cmp) {l : List α} (hl : ∀ a ∈ l, P a) (hchain : l.IsChain (cmp · · ≠ .gt)) :
    l.Pairwise (cmp · · ≠ .gt) := by
  have htrans : IsTrans α (fun a b => P a ∧ P b ∧ cmp a b ≠ .gt) :=
    ⟨fun a b c hab hbc => ⟨hab.1, hbc.2.1, h.trans a b c hab.1 hab.2.1 hbc.2.1 hab.2.2 hbc.2.2⟩⟩
  have hmem := hchain.imp_of_mem_imp (S := fun a b => P a ∧ P b ∧ cmp a b ≠ .gt) fun a b ha hb hab => ⟨hl a ha, hl b hb, hab⟩
  exact (isChain_iff_pairwise.mp hmem).imp fun hab => hab.2.2

theorem OrderedOn.reverse (h : OrderedOn P cmp) : OrderedOn P (fun a b => (cmp a b).swap) := by
  refine ⟨fun a b => by rw [h.swap], fun a b c ha hb hc hab hbc => ?_⟩
  rw [← h.swap] at hab hbc ⊢
  exact h.trans c b a hc hb ha hbc hab

theorem compareBytes_ne_gt {a b : Bytes} : compareBytes a b ≠ .gt ↔ a ≤ b := by
  rw [ne_eq, compareBytes_gt, not_lt]

theorem OrderedOn.then {β : Type} {Q : β → Prop} {cmp' : β → β → Ordering} (h : OrderedOn P cmp) (h' : OrderedOn Q cmp') :
    OrderedOn (fun p : α × β => P p.1 ∧ Q p.2) (fun p q => (cmp p.1 q.1).then (cmp' p.2 q.2)) := by
  have hfst : ∀ {o o' : Ordering}, o.then o' ≠ .gt → o ≠ .gt := by
    rintro _ o' ho rfl
    exact ho rfl
  have heq : ∀ {a b : α}, cmp a b ≠ .gt → cmp b a ≠ .gt → cmp a b = .eq := by
    intro a b hab hba
    rw [h.swap] at hba
    revert hab hba
    cases cmp a b <;> decide
  refine ⟨fun p q => by rw [h.swap, h'.swap, Ordering.swap_then], ?_⟩
  intro p q r hp hq hr hpq hqr
  have hpr := h.trans _ _ _ hp.1 hq.1 hr.1 (hfst hpq) (hfst hqr)
  cases hc : cmp p.1 r.1 with
  | lt => exact nofun
  | gt => exact absurd hc hpr
  | eq =>
    -- the first keys of all three are equal
    have hrp : cmp r.1 p.1 ≠ .gt := by
      rw [h.swap, hc]
      decide
    have hpq' := heq (hfst hpq) (h.trans _ _ _ hq.1 hr.1 hp.1 (hfst hqr) hrp)
    have hqr' := heq (hfst hqr) (h.trans _ _ _ hr.1 hp.1 hq.1 hrp (hfst hpq))
    rw [hpq'] at hpq
    rw [hqr'] at hqr
    exact h'.trans _ _ _ hp.2 hq.2 hr.2 hpq hqr

variable (hswap : ∀ a b, env.compareFloat b a = (env.compareFloat a b).swap)
include hswap

theorem compareDatum_swap (a b : Datum) :
    compareDatum env float b a = (compareDatum env float a b).swap := by
  rcases a with _ | a <;> rcases b with _ | b
  · rfl
  · rfl
  · rfl
  · simp only [compareDatum, Bool.and_comm (float b)]
    split
    · exact hswap a b
    · exact compareBytes_swap a b

theorem compareDatum_ordered
    (hS : Consistent env float S) : OrderedOn (· ∈ S) (compareDatum env float) := by
  refine ⟨compareDatum_swap hswap, fun a b c ha hb hc hab hbc => ?_⟩
  rcases c with _ | c
  · cases a <;> exact nofun
  rcases b with _ | b
  · exact absurd rfl hbc
  rcases a with _ | a
  · exact absurd rfl hab
  have hne : ∀ {x y : Bytes}, float x = true → float y = false → x ≠ y := by
    rintro x _ hx hy rfl
    cases hx.symm.trans hy
  have hgt : ∀ {x y : Bytes}, env.compareFloat x y = .lt → env.compareFloat y x = .gt := by
    intro x y h
    rw [hswap, h]
    rfl
  cases hfa : float a <;> cases hfb : float b <;> cases hfc : float c <;>
    simp only [compareDatum, hfa, hfb, hfc, Bool.and_true, Bool.and_false, Bool.false_eq_true, if_true, if_false,
      compareBytes_ne_gt] at hab hbc ⊢
  case false.true.true =>
    by_contra h
    exact hbc (hgt (hS.texts c a b hc ha hb hfc hfa hfb (not_le.mp h) (hab.lt_of_ne (hne hfb hfa).symm)))
  case true.false.true =>
    rw [hS.texts a b c ha hb hc hfa hfb hfc (hab.lt_of_ne (hne hfa hfb)) (hbc.lt_of_ne (hne hfc hfb).symm)]
    decide
  case true.true.false =>
    by_contra h
    exact hab (hgt (hS.texts b c a hb hc ha hfb hfc hfa (hbc.lt_of_ne (hne hfb hfc)) (not_le.mp h)))
  case true.true.true => exact hS.numbers a b c ha hb hc hfa hfb hfc hab hbc
  all_goals exact hab.trans hbc

theorem compareOrderKeys_ordered (dirs : List Bool)
    {Ss : List (Set Datum)} (hS : ∀ S ∈ Ss, Consistent env float S) :
    OrderedOn (List.Forall₂ (· ∈ ·) · Ss) (compareOrderKeys env float dirs) := by
  induction dirs generalizing Ss with
  | nil => exact ⟨fun _ _ => rfl, fun _ _ _ _ _ _ h _ => h⟩
  | cons desc dirs ih =>
    have hd : ∀ S, Consistent env float S → OrderedOn (· ∈ S)
        (fun a b => if desc then (compareDatum env float a b).swap else compareDatum env float a b) := by
      intro S hS
      cases desc with
      | false => exact compareDatum_ordered hswap hS
      | true => exact (compareDatum_ordered hswap hS).reverse
    refine ⟨fun as bs => ?_, fun as bs cs ha hb hc => ?_⟩
    · rcases as with _ | ⟨a, as⟩ <;> rcases bs with _ | ⟨b, bs⟩
      · rfl
      · rfl
      · rfl
      · exact ((hd ∅ ⟨by simp, by simp⟩).then (@ih [] (by simp))).swap (a, as) (b, bs)
    · cases Ss with
      | nil =>
        cases ha
        cases hb
        cases hc
        exact fun h _ => h
      | cons S Ss =>
        obtain _ | ⟨ha, has⟩ := ha
        obtain _ | ⟨hb, hbs⟩ := hb
        obtain _ | ⟨hc, hcs⟩ := hc
        exact ((hd S (hS S mem_cons_self)).then (ih fun T hT => hS T (.tail _ hT))).trans (_, _) (_, _) (_, _) ⟨ha, has⟩
          ⟨hb, hbs⟩ ⟨hc, hcs⟩

end ordered

/-- Two cells compare alike in both directions. A list of cells in which each is in order with the next is in order as
    a whole, whatever the cells in `S`, if and only if they are consistent; and so are rows of keys. -/
theorem memory_order_iff (env : Env) (float : Bytes → Bool)
    (hswap : ∀ a b, env.compareFloat b a = (env.compareFloat a b).swap) :
    (∀ a b, compareDatum env float b a = (compareDatum env float a b).swap) ∧
    (∀ S, (∀ out : Data, (∀ d ∈ out, d ∈ S) → out.IsChain (compareDatum env float · · ≠ .gt) →
      out.Pairwise (compareDatum env float · · ≠ .gt)) ↔ Consistent env float S) ∧
    ∀ dirs (Ss : List (Set Datum)) (out : List Data), (∀ S ∈ Ss, Consistent env float S) →
      (∀ r ∈ out, List.Forall₂ (· ∈ ·) r Ss) → out.IsChain (compareOrderKeys env float dirs · · ≠ .gt) →
      out.Pairwise (compareOrderKeys env float dirs · · ≠ .gt) := by
  refine ⟨compareDatum_swap hswap, fun S => ⟨fun h => ?_, fun hS out => (compareDatum_ordered hswap hS).pairwise⟩,
    fun dirs Ss out hS => (compareOrderKeys_ordered hswap dirs hS).pairwise⟩
  have htrans : ∀ {a b c}, a ∈ S → b ∈ S → c ∈ S → compareDatum env float a b ≠ .gt → compareDatum env float b c ≠ .gt →
      compareDatum env float a c ≠ .gt := by
    intro a b c ha hb hc hab hbc
    have hsorted := h [a, b, c] (by simp [ha, hb, hc]) (.cons_cons hab (.cons_cons hbc (.singleton c)))
    exact rel_of_pairwise_cons hsorted (by simp)
  constructor
  · intro a b c ha hb hc hfa hfb hfc hab hbc
    simpa [compareDatum, hfa, hfb, hfc] using htrans ha hb hc (by simpa [compareDatum, hfa, hfb] using hab)
      (by simpa [compareDatum, hfb, hfc] using hbc)
  · intro a t c ha ht hc hfa hft hfc hat htc
    by_contra hac
    have hca : env.compareFloat c a ≠ .gt := by
      rw [hswap]
      revert hac
      cases env.compareFloat a c <;> decide
    have hct := htrans hc ha ht (by simpa [compareDatum, hfa, hfc] using hca)
      (by simpa [compareDatum, hfa, hft, compareBytes_gt] using hat.le)
    exact absurd htc (by simpa [compareDatum, hft, compareBytes_gt] using hct)

/-- The texts of integers, as numbers. -/
def intFloat (t : Bytes) : Bool := (parseInt t).isSome

/-- 1a, 2b and NULL are in order. -/
theorem memory_order_sorted : (∀ a b, demoEnv.compareFloat b a = (demoEnv.compareFloat a b).swap) ∧
    [some (str "1a"), some (str "2b"), none].Pairwise (compareDatum demoEnv intFloat · · ≠ .gt) := by
  have hswap : ∀ a b, demoEnv.compareFloat b a = (demoEnv.compareFloat a b).swap :=
    fun a b => Std.OrientedOrd.eq_swap (α := Int)
  have hS : Consistent demoEnv intFloat {d | ∀ t ∈ d, intFloat t = false} :=
    ⟨fun a _ _ ha _ _ hfa => absurd hfa (by simp [ha a rfl]), fun a _ _ ha _ _ hfa => absurd hfa (by simp [ha a rfl])⟩
  exact ⟨hswap, ((memory_order_iff demoEnv intFloat hswap).2.1 _).mpr hS _ (by decide) (by decide)⟩

/-- 10, 1a and 9 are each before the next, and 9 is before 10. -/
theorem memory_order_cycle : let cmp := compareDatum demoEnv intFloat
    cmp (some (str "10")) (some (str "1a")) = .lt ∧ cmp (some (str "1a")) (some (str "9")) = .lt ∧
      cmp (some (str "9")) (some (str "10")) = .lt := by
  decide +kernel

end BasuyuDb.Executor
